import DemosOS.Files.Descriptors
import DemosOS.Mem.Images
import DemosOS.Mem.Walk

/-!
# Who owns which page

The kernel does not record whom a page has been given to.  Its owners are the processes, with
their control blocks, their descriptor tables, their user pages and their page tables, and
whoever has been given a page to keep: a buffer of `exec`, or a page of `malloc`.  `Owned` says
that every page in use has one owner at most, and `Owned.replace` is the one step that all
operations on pages take: some pages get new owners, all others keep theirs.
-/

namespace DemosOS

open Lib Kernel

/-! ## Owners -/

/-- Somebody a page can belong to. -/
inductive Owner
  | /-- The control block or the descriptor table of a process. -/
    descriptor (p : PcbPtr) (page : DescriptorPage)
  | /-- Entry `j` of the `user_pages` of a process. -/
    userPage (p : PcbPtr) (j : Nat)
  | /-- Entry `l` of the `kernel_pages` of a process. -/
    table (p : PcbPtr) (l : Nat)
  | /-- The `n`-th page that was given away as a buffer. -/
    held (n : Nat)
deriving DecidableEq, Repr

/-- The owner is one of the processes of `P`, or no process at all. -/
def Owner.Within (P : Set PcbPtr) : Owner → Prop
  | .descriptor p _ | .userPage p _ | .table p _ => p ∈ P
  | .held _ => True

/-- The page with the physical address `a` belongs to the owner, as the kernel's bookkeeping
has it for the processes of `live`; the pages of `held` have been given away. -/
def Kernel.Owns (k : Kernel Pointers) (live : Set PcbPtr) (held : List Nat) : Owner → Nat → Prop
  | .descriptor p page, a => p ∈ live ∧ k.Holds p page a
  | .userPage p j, a => p ∈ live ∧ j < (k.pcb p).mm.nUserPages ∧
      ((k.pcb p).mm.userPages j).physicalAddress = a
  | .table p l, a => p ∈ live ∧ l < (k.pcb p).mm.nKernelPages ∧ (k.pcb p).mm.kernelPages l = a
  | .held n, a => held[n]? = some a

namespace AddressSpace

variable {m : Memory} {mm : MmStruct} {us ts : List Nat} (h : AddressSpace m mm us ts)
include h

theorem userPage_iff {j a : Nat} :
    j < mm.nUserPages ∧ (mm.userPages j).physicalAddress = a ↔ us[j]? = some a := by
  rw [h.nUserPages, List.getElem?_eq_some_iff]
  constructor
  · rintro ⟨hj, rfl⟩
    exact ⟨hj, by rw [h.userPages j hj]⟩
  · rintro ⟨hj, rfl⟩
    exact ⟨hj, by rw [h.userPages j hj]⟩

theorem table_iff {l a : Nat} : l < mm.nKernelPages ∧ mm.kernelPages l = a ↔ ts[l]? = some a := by
  rw [h.nKernelPages, List.getElem?_eq_some_iff]
  constructor
  · rintro ⟨hl, rfl⟩
    exact ⟨hl, (h.kernelPages l hl).symm⟩
  · rintro ⟨hl, rfl⟩
    exact ⟨hl, h.kernelPages l hl⟩

end AddressSpace

/-- The pages of the processes of `live` and those of `held` have one owner each; the address
spaces of the processes of `user` are complete and the others empty, and the slots of the
descriptor tables are in order. -/
structure Owned (k : Kernel Pointers) (live user : Set PcbPtr) (held : List Nat) : Prop where
  exclusive : Exclusive (k.Owns live held) k.memory.InUse
  empty : ∀ p ∈ live, p ∉ user → (k.pcb p).mm.IsEmpty
  full : ∀ p ∈ live, p ∈ user → ∃ us ts, us.length = MAX_PROCESS_PAGES ∧
    AddressSpace k.memory (k.pcb p).mm us ts
  slots : ∀ p ∈ live, ∀ fd < MAX_FILES_PER_PROCESS, ∃ u : Usage, u.Agrees k.toGlobals p fd
  users : user ⊆ live

namespace Owned

variable {k : Kernel Pointers} {live user : Set PcbPtr} {held : List Nat} {p : PcbPtr}

theorem space (h : Owned k live user held) (hp : p ∈ live) :
    ∃ us ts, AddressSpace k.memory (k.pcb p).mm us ts := by
  by_cases huser : p ∈ user
  · obtain ⟨us, ts, -, hspace⟩ := h.full p hp huser
    exact ⟨us, ts, hspace⟩
  · exact ⟨[], [], (h.empty p hp huser).addressSpace⟩

/-- The descriptor table of a process is in order. -/
theorem session (h : Owned k live user held) (hp : p ∈ live) :
    ∃ usage, Session.Sound p ⟨k, usage⟩ := by
  have hslots : ∀ fd, ∃ u : Usage, fd < MAX_FILES_PER_PROCESS → u.Agrees k.toGlobals p fd := by
    intro fd
    by_cases hfd : fd < MAX_FILES_PER_PROCESS
    · obtain ⟨u, hu⟩ := h.slots p hp fd hfd
      exact ⟨u, fun _ ↦ hu⟩
    · exact ⟨.unused, fun hlt ↦ absurd hlt hfd⟩
  choose usage husage using hslots
  refine ⟨usage, ⟨?_, ?_⟩, fun fd hfd ↦ husage fd hfd⟩
  · exact fun {page a} hpage ↦ h.exclusive.used (o := .descriptor p page) ⟨hp, hpage⟩
  · intro page page' a hpage hpage'
    have hsame : Owner.descriptor p page = .descriptor p page' :=
      h.exclusive.unique (a := a) ⟨hp, hpage⟩ ⟨hp, hpage'⟩
    exact (Owner.descriptor.inj hsame).2

/-- A free page has no owner. -/
theorem free_not_owns (h : Owned k live user held) {i : Nat} (hi : i < N_PAGES)
    (hfree : k.memory.memoryPages i = false) (o : Owner) :
    ¬ k.Owns live held o (pageAddress i) := by
  refine h.exclusive.not_owns ?_ o
  exact Memory.not_inUse hi hfree

/-- The pages of a process are in use and pairwise different. -/
theorem pages (h : Owned k live user held) (hp : p ∈ live) {us ts : List Nat}
    (hspace : AddressSpace k.memory (k.pcb p).mm us ts) :
    (us ++ ts).Nodup ∧ (∀ a ∈ us ++ ts, k.memory.InUse a) ∧
      ∀ a, p.pageStart = some a → k.memory.InUse a ∧ a ∉ us ++ ts := by
  have huser : ∀ {j a}, us[j]? = some a → k.Owns live held (.userPage p j) a := fun hj ↦
    ⟨hp, hspace.userPage_iff.mpr hj⟩
  have htable : ∀ {l a}, ts[l]? = some a → k.Owns live held (.table p l) a := fun hl ↦
    ⟨hp, hspace.table_iff.mpr hl⟩
  have hmem : ∀ a ∈ us ++ ts, (∃ j, k.Owns live held (.userPage p j) a) ∨
      ∃ l, k.Owns live held (.table p l) a := by
    intro a ha
    rcases List.mem_append.mp ha with ha | ha
    · obtain ⟨j, hj⟩ := List.mem_iff_getElem?.mp ha
      exact .inl ⟨j, huser hj⟩
    · obtain ⟨l, hl⟩ := List.mem_iff_getElem?.mp ha
      exact .inr ⟨l, htable hl⟩
  refine ⟨List.nodup_append.mpr ⟨?_, ?_, ?_⟩, ?_, ?_⟩
  · rw [List.nodup_iff_getElem?_ne_getElem?]
    intro j j' hlt hj' heq
    have hone := h.exclusive.unique (huser (List.getElem?_eq_getElem hj'))
      (huser (heq.trans (List.getElem?_eq_getElem hj')))
    have := (Owner.userPage.inj hone).2
    omega
  · rw [List.nodup_iff_getElem?_ne_getElem?]
    intro l l' hlt hl' heq
    have hone := h.exclusive.unique (htable (List.getElem?_eq_getElem hl'))
      (htable (heq.trans (List.getElem?_eq_getElem hl')))
    have := (Owner.table.inj hone).2
    omega
  · rintro a ha b hb rfl
    obtain ⟨j, hj⟩ := List.mem_iff_getElem?.mp ha
    obtain ⟨l, hl⟩ := List.mem_iff_getElem?.mp hb
    cases h.exclusive.unique (huser hj) (htable hl)
  · intro a ha
    obtain ⟨j, hj⟩ | ⟨l, hl⟩ := hmem a ha
    · exact h.exclusive.used hj
    · exact h.exclusive.used hl
  · intro a ha
    have hcontrol : k.Owns live held (.descriptor p .control) a := ⟨hp, ha⟩
    refine ⟨h.exclusive.used hcontrol, fun hin ↦ ?_⟩
    obtain ⟨j, hj⟩ | ⟨l, hl⟩ := hmem a hin
    · cases h.exclusive.unique hcontrol hj
    · cases h.exclusive.unique hcontrol hl

end Owned

/-! ## Processes that are left alone -/

/-- The bookkeeping of process `p` is as it was. -/
structure Untouched (p : PcbPtr) (k k' : Kernel Pointers) : Prop where
  mm : (k'.pcb p).mm = (k.pcb p).mm
  files : (k'.pcb p).files = (k.pcb p).files
  records : ∀ fd < MAX_FILES_PER_PROCESS, (k.pcb p).files fd ≠ 0 →
    k'.memory.fatResources ((k.pcb p).files fd) = k.memory.fatResources ((k.pcb p).files fd)
  tables : ∀ l < (k.pcb p).mm.nKernelPages,
    k'.memory.tables ((k.pcb p).mm.kernelPages l) = k.memory.tables ((k.pcb p).mm.kernelPages l)

namespace Untouched

variable {p : PcbPtr} {k k' : Kernel Pointers} (h : Untouched p k k')
include h

theorem holds_iff {page : DescriptorPage} {a : Nat} : k'.Holds p page a ↔ k.Holds p page a := by
  cases page with
  | control => exact Iff.rfl
  | resource fd => rw [Globals.Holds, Globals.Holds, h.files]
  | file fd =>
      rw [Globals.Holds, Globals.Holds, h.files]
      refine and_congr_right fun hfd ↦ and_congr_right fun hslot ↦ ?_
      rw [h.records fd hfd hslot]

theorem agrees {fd : Nat} (hfd : fd < MAX_FILES_PER_PROCESS) {u : Usage}
    (hu : u.Agrees k.toGlobals p fd) : u.Agrees k'.toGlobals p fd :=
  hu.congr (congrFun h.files fd) (h.records fd hfd)

theorem addressSpace {us ts : List Nat} (hspace : AddressSpace k.memory (k.pcb p).mm us ts) :
    AddressSpace k'.memory (k'.pcb p).mm us ts := by
  rw [h.mm]
  refine hspace.congr fun t ht ↦ ?_
  obtain ⟨l, hl⟩ := List.mem_iff_getElem?.mp ht
  obtain ⟨hlt, rfl⟩ := hspace.table_iff.mpr hl
  exact h.tables l hlt

end Untouched

/-- The bookkeeping of all processes is as it was. -/
structure SameBooks (k k' : Kernel Pointers) : Prop where
  mm : ∀ p, (k'.pcb p).mm = (k.pcb p).mm
  files : ∀ p, (k'.pcb p).files = (k.pcb p).files
  marks : k'.memory.memoryPages = k.memory.memoryPages
  tables : k'.memory.tables = k.memory.tables
  records : k'.memory.fatResources = k.memory.fatResources

namespace SameBooks

variable {k k' k₁ : Kernel Pointers}

theorem trans (h : SameBooks k k₁) (h' : SameBooks k₁ k') : SameBooks k k' where
  mm p := (h'.mm p).trans (h.mm p)
  files p := (h'.files p).trans (h.files p)
  marks := h'.marks.trans h.marks
  tables := h'.tables.trans h.tables
  records := h'.records.trans h.records

theorem symm (h : SameBooks k k') : SameBooks k' k where
  mm p := (h.mm p).symm
  files p := (h.files p).symm
  marks := h.marks.symm
  tables := h.tables.symm
  records := h.records.symm

theorem modifyPcb (k : Kernel Pointers) (p : PcbPtr) {f : PCB → PCB} (hmm : ∀ b, (f b).mm = b.mm)
    (hfiles : ∀ b, (f b).files = b.files) : SameBooks k (k.mapGlobals (·.modifyPcb p f)) where
  mm q := k.modifyPcb_field p q f PCB.mm hmm
  files q := k.modifyPcb_field p q f PCB.files hfiles
  marks := rfl
  tables := rfl
  records := rfl

theorem untouched (h : SameBooks k k') (p : PcbPtr) : Untouched p k k' where
  mm := h.mm p
  files := h.files p
  records _ _ _ := congrFun h.records _
  tables _ _ := congrFun h.tables _

end SameBooks

/-- What a process of `live` outside of `P` owns does not depend on it. -/
theorem owns_iff_of_untouched {k k' : Kernel Pointers} {live live' P : Set PcbPtr}
    {held held' : List Nat} (h : ∀ p ∈ live', p ∉ P → p ∈ live ∧ Untouched p k k')
    {o : Owner} {a : Nat}
    (ho : ¬ o.Within P) (howns : k'.Owns live' held' o a) : k.Owns live held o a := by
  cases o with
  | descriptor p page =>
      obtain ⟨hp, hpage⟩ := howns
      obtain ⟨hlive, hsame⟩ := h p hp ho
      exact ⟨hlive, hsame.holds_iff.mp hpage⟩
  | userPage p j =>
      obtain ⟨hp, hpage⟩ := howns
      obtain ⟨hlive, hsame⟩ := h p hp ho
      rw [hsame.mm] at hpage
      exact ⟨hlive, hpage⟩
  | table p l =>
      obtain ⟨hp, hpage⟩ := howns
      obtain ⟨hlive, hsame⟩ := h p hp ho
      rw [hsame.mm] at hpage
      exact ⟨hlive, hpage⟩
  | held n => exact absurd trivial ho

namespace Owned

variable {k k' : Kernel Pointers} {live live' user user' P : Set PcbPtr} {held held' : List Nat}
  {T : Set Nat} {p : PcbPtr}

/-- Code that stays within the pages of others leaves a process alone. -/
theorem untouched (h : Owned k live user held) (hconfined : Confined T P k k')
    (hT : ∀ {o a}, k.Owns live held o a → a ∈ T → o.Within P) (hp : p ∈ live) (hpP : p ∉ P) :
    Untouched p k k' := by
  have hpcb : k'.pcb p = k.pcb p := by
    refine hconfined.pcb p hpP fun a ha hmem ↦ hpP ?_
    exact hT (o := .descriptor p .control) ⟨hp, ha⟩ hmem
  refine ⟨by rw [hpcb], by rw [hpcb], ?_, ?_⟩
  · intro fd hfd hslot
    obtain ⟨usage, husage⟩ := h.session hp
    obtain ⟨j, -, hfile, hpage⟩ := husage.slot hfd hslot
    dsimp only at hfile
    rw [hfile]
    exact hconfined.records _ fun hmem ↦
      hpP (hT (o := .descriptor p (.resource fd)) ⟨hp, hpage⟩ hmem)
  · intro l hl
    refine hconfined.tables _ fun hmem ↦ hpP ?_
    exact hT (o := .table p l) ⟨hp, hl, rfl⟩ hmem

/-- The pages of `T` get new owners: processes of `P`, or buffers. -/
theorem replace (h : Owned k live user held) (hconfined : Confined T P k k')
    (hlive : ∀ p ∈ live', p ∉ P → p ∈ live) (huser : ∀ p ∉ P, p ∈ user' ↔ p ∈ user)
    (hT : ∀ {o a}, k.Owns live held o a → a ∈ T → o.Within P)
    (hout : ∀ {o a}, k'.Owns live' held' o a → o.Within P → a ∉ T → k.Owns live held o a)
    (hin : ∀ {o a}, k'.Owns live' held' o a → o.Within P → a ∈ T → k'.memory.InUse a)
    (hone : ∀ {o o' a}, a ∈ T → k'.Owns live' held' o a → k'.Owns live' held' o' a →
      o.Within P → o'.Within P → o = o')
    (hempty : ∀ p ∈ live', p ∈ P → p ∉ user' → (k'.pcb p).mm.IsEmpty)
    (hfull : ∀ p ∈ live', p ∈ P → p ∈ user' → ∃ us ts, us.length = MAX_PROCESS_PAGES ∧
      AddressSpace k'.memory (k'.pcb p).mm us ts)
    (hslots : ∀ p ∈ live', p ∈ P → ∀ fd < MAX_FILES_PER_PROCESS,
      ∃ u : Usage, u.Agrees k'.toGlobals p fd) (husers : user' ⊆ live') :
    Owned k' live' user' held' := by
  have hrest : ∀ p ∈ live', p ∉ P → p ∈ live ∧ Untouched p k k' := fun p hp hpP ↦
    ⟨hlive p hp hpP, h.untouched hconfined hT (hlive p hp hpP) hpP⟩
  have hold : ∀ {o a}, k'.Owns live' held' o a → ¬ o.Within P → k.Owns live held o a :=
    fun howns ho ↦ owns_iff_of_untouched hrest ho howns
  -- nobody else owns a page of `T`
  have hwithin : ∀ {o a}, k'.Owns live' held' o a → a ∈ T → o.Within P := by
    intro o a howns ha
    by_contra ho
    exact ho (hT (hold howns ho) ha)
  refine ⟨?_, ?_, ?_, ?_, husers⟩
  · refine h.exclusive.replace T ?_ ?_ ?_
    · intro o a howns ha
      refine ⟨?_, (hconfined.inUse ha).mpr⟩
      by_cases ho : o.Within P
      · exact hout howns ho ha
      · exact hold howns ho
    · exact fun howns ha ↦ hin howns (hwithin howns ha) ha
    · exact fun ha howns howns' ↦ hone ha howns howns' (hwithin howns ha) (hwithin howns' ha)
  · intro p hp hpu
    by_cases hpP : p ∈ P
    · exact hempty p hp hpP hpu
    · obtain ⟨hpl, hsame⟩ := hrest p hp hpP
      rw [hsame.mm]
      exact h.empty p hpl fun hu ↦ hpu ((huser p hpP).mpr hu)
  · intro p hp hpu
    by_cases hpP : p ∈ P
    · exact hfull p hp hpP hpu
    · obtain ⟨hpl, hsame⟩ := hrest p hp hpP
      obtain ⟨us, ts, hlen, hspace⟩ := h.full p hpl ((huser p hpP).mp hpu)
      exact ⟨us, ts, hlen, hsame.addressSpace hspace⟩
  · intro p hp fd hfd
    by_cases hpP : p ∈ P
    · exact hslots p hp hpP fd hfd
    · obtain ⟨hpl, hsame⟩ := hrest p hp hpP
      obtain ⟨u, hu⟩ := h.slots p hpl fd hfd
      exact ⟨u, hsame.agrees hfd hu⟩

/-- Code that leaves every process alone. -/
theorem congr (h : Owned k live user held) (hsame : ∀ p ∈ live, Untouched p k k')
    (hmarks : k'.memory.memoryPages = k.memory.memoryPages) : Owned k' live user held := by
  have hwithin : ∀ {o a}, k'.Owns live held o a → k.Owns live held o a := by
    intro o a howns
    by_cases ho : o.Within ∅
    · cases o with
      | held n => exact howns
      | descriptor p page => exact ho.elim
      | userPage p j => exact ho.elim
      | table p l => exact ho.elim
    · exact owns_iff_of_untouched (fun p hp _ ↦ ⟨hp, hsame p hp⟩) ho howns
  refine ⟨h.exclusive.mono hwithin fun howns ↦ ?_, ?_, ?_, ?_, h.users⟩
  · have hused := h.exclusive.used (hwithin howns)
    rwa [Memory.InUse, hmarks]
  · intro p hp hpu
    rw [(hsame p hp).mm]
    exact h.empty p hp hpu
  · intro p hp hpu
    obtain ⟨us, ts, hlen, hspace⟩ := h.full p hp hpu
    exact ⟨us, ts, hlen, (hsame p hp).addressSpace hspace⟩
  · intro p hp fd hfd
    obtain ⟨u, hu⟩ := h.slots p hp fd hfd
    exact ⟨u, (hsame p hp).agrees hfd hu⟩

theorem books (h : Owned k live user held) (hsame : SameBooks k k') : Owned k' live user held :=
  h.congr (fun p _ ↦ hsame.untouched p) hsame.marks

/-! ## Buffers -/

/-- A page that was free may be given away, or forgotten. -/
theorem hold (h : Owned k live user held) {i : Nat} (hi : i < N_PAGES)
    (hfree : k.memory.memoryPages i = false) (hconfined : Confined {pageAddress i} ∅ k k')
    (hheld : held' = held ∨ held' = held ++ [pageAddress i] ∧ k'.memory.memoryPages i = true) :
    Owned k' live user held' := by
  have hnot := h.free_not_owns hi hfree
  have hlast : ∀ {n a}, held'[n]? = some a → held[n]? = some a ∨
      (n = held.length ∧ a = pageAddress i ∧ k'.memory.memoryPages i = true) := by
    intro n a hn
    rcases hheld with rfl | ⟨rfl, hmark⟩
    · exact .inl hn
    · rcases Nat.lt_trichotomy n held.length with hlt | rfl | hlt
      · rw [List.getElem?_append_left hlt] at hn
        exact .inl hn
      · rw [List.getElem?_concat_length] at hn
        exact .inr ⟨rfl, (Option.some.inj hn).symm, hmark⟩
      · rw [List.getElem?_eq_none (by simp; omega)] at hn
        cases hn
  have hempty : ∀ {o : Owner}, o.Within ∅ → ∃ n, o = .held n := by
    intro o ho
    cases o with
    | held n => exact ⟨n, rfl⟩
    | descriptor p page => exact ho.elim
    | userPage p j => exact ho.elim
    | table p l => exact ho.elim
  refine h.replace hconfined (fun _ hp _ ↦ hp) (fun _ _ ↦ Iff.rfl) ?_ ?_ ?_ ?_
    (by simp) (by simp) (by simp) h.users
  · rintro o a howns rfl
    exact (hnot o howns).elim
  · intro o a howns ho ha
    obtain ⟨n, rfl⟩ := hempty ho
    obtain hold | ⟨-, rfl, -⟩ := hlast howns
    · exact hold
    · exact absurd rfl ha
  · rintro o a howns ho rfl
    obtain ⟨n, rfl⟩ := hempty ho
    obtain hold | ⟨-, -, hmark⟩ := hlast howns
    · exact (hnot (.held n) hold).elim
    · exact (Memory.inUse_page hi).mpr hmark
  · rintro o o' a rfl howns howns' ho ho'
    obtain ⟨n, rfl⟩ := hempty ho
    obtain ⟨n', rfl⟩ := hempty ho'
    obtain hold | ⟨rfl, -⟩ := hlast howns
    · exact (hnot (.held n) hold).elim
    · obtain hold | ⟨rfl, -⟩ := hlast howns'
      · exact (hnot (.held n') hold).elim
      · rfl

/-! ## Descriptors -/

/-- A slot of a process gets a new record. -/
theorem replaceSlot (h : Owned k live user held) (hp : p ∈ live) {fd i j : Nat} {u : Usage}
    (hslot : SlotReplaced p fd i j k k')
    (hi : ∀ o, k.Owns live held o (pageAddress i) → o = .descriptor p (.file fd))
    (hj : ∀ o, k.Owns live held o (pageAddress j) → o = .descriptor p (.file fd))
    (hu : u.Agrees k'.toGlobals p fd) : Owned k' live user held := by
  obtain ⟨usage, hs⟩ := h.session hp
  have hi' : ∀ page, k.Holds p page (pageAddress i) → page = .file fd := fun page hpage ↦
    (Owner.descriptor.inj (hi (.descriptor p page) ⟨hp, hpage⟩)).2
  have hj' : ∀ page, k.Holds p page (pageAddress j) → page = .file fd := fun page hpage ↦
    (Owner.descriptor.inj (hj (.descriptor p page) ⟨hp, hpage⟩)).2
  have hT : ∀ {o a}, k.Owns live held o a → a ∈ ({pageAddress i, pageAddress j} : Set Nat) →
      o = .descriptor p (.file fd) := by
    rintro o a howns (rfl | rfl)
    · exact hi o howns
    · exact hj o howns
  have hmm : (k'.pcb p).mm = (k.pcb p).mm := by rw [hslot.control]
  have hcases : ∀ {o a}, k'.Owns live held o a → o.Within {p} →
      k.Owns live held o a ∧ o ≠ .descriptor p (.file fd) ∨
        (∃ page, o = .descriptor p page ∧ k'.Holds p page a ∧ ¬ (k.Holds p page a ∧
          page ≠ .file fd)) := by
    intro o a howns ho
    cases o with
    | descriptor q page =>
        obtain rfl : q = p := ho
        by_cases hold : k.Holds q page a ∧ page ≠ .file fd
        · exact .inl ⟨⟨hp, hold.1⟩, fun he ↦ hold.2 (Owner.descriptor.inj he).2⟩
        · exact .inr ⟨page, rfl, howns.2, hold⟩
    | userPage q j =>
        obtain rfl : q = p := ho
        refine .inl ⟨?_, nofun⟩
        rwa [Owns, hmm] at howns
    | table q l =>
        obtain rfl : q = p := ho
        refine .inl ⟨?_, nofun⟩
        rwa [Owns, hmm] at howns
    | held n => exact .inl ⟨howns, nofun⟩
  refine h.replace hslot.confined (fun _ hq _ ↦ hq) (fun _ _ ↦ Iff.rfl) ?_ ?_ ?_ ?_ ?_ ?_ ?_ h.users
  · intro o a howns ha
    rw [hT howns ha]
    rfl
  · intro o a howns ho ha
    obtain ⟨hold, -⟩ | ⟨page, rfl, hpage, hnew⟩ := hcases howns ho
    · exact hold
    · obtain ⟨hold, -, hne⟩ | ⟨-, rfl⟩ | ⟨-, rfl, -⟩ := hslot.holds_cases hs hi' hj' hpage
      · exact absurd ⟨hold, hne⟩ hnew
      · exact absurd (.inr rfl) ha
      · exact absurd (.inl rfl) ha
  · intro o a howns ho ha
    obtain ⟨hold, hne⟩ | ⟨page, rfl, hpage, hnew⟩ := hcases howns ho
    · exact absurd (hT hold ha) hne
    · obtain ⟨hold, -, hne⟩ | ⟨-, rfl⟩ | ⟨-, -, -, hin⟩ := hslot.holds_cases hs hi' hj' hpage
      · exact absurd ⟨hold, hne⟩ hnew
      · exact hslot.used
      · exact hin
  · intro o o' a ha howns howns' ho ho'
    obtain ⟨hold, hne⟩ | ⟨page, rfl, hpage, hnew⟩ := hcases howns ho
    · exact absurd (hT hold ha) hne
    · obtain ⟨hold, hne⟩ | ⟨page', rfl, hpage', hnew'⟩ := hcases howns' ho'
      · exact absurd (hT hold ha) hne
      · have hone := (hslot.sound hs hi' hj' hu).exclusive.unique hpage hpage'
        rw [hone]
  · rintro q hq rfl hqu
    rw [hmm]
    exact h.empty q hq hqu
  · rintro q hq rfl hqu
    obtain ⟨us, ts, hlen, hspace⟩ := h.full q hq hqu
    refine ⟨us, ts, hlen, ?_⟩
    rw [hmm]
    refine hspace.congr fun t ht ↦ hslot.confined.tables t fun hmem ↦ ?_
    obtain ⟨l, hl⟩ := List.mem_iff_getElem?.mp ht
    cases hT (o := .table q l) ⟨hq, hspace.table_iff.mpr hl⟩ hmem
  · rintro q hq rfl fd' hfd'
    exact ⟨_, (hslot.sound hs hi' hj' hu).agrees fd' hfd'⟩

/-! ## Processes -/

theorem takePage_pcb (k : Kernel Pointers) (i : Nat) : (k.takePage i).pcb (.page i) = PCB.zero :=
  if_pos rfl

/-- A process without pages owns the page of its control block. -/
theorem owns_of_zero {i : Nat} (hzero : k.pcb (.page i) = PCB.zero) {o : Owner} {a : Nat}
    (howns : k.Owns live held o a) (ho : o.Within {.page i}) :
    (o = .descriptor (.page i) .control ∧ a = pageAddress i) ∨ ∃ n, o = .held n := by
  cases o with
  | descriptor q page =>
      obtain rfl : q = .page i := ho
      obtain ⟨-, hpage⟩ := howns
      cases page with
      | control => exact .inl ⟨rfl, (Option.some.inj hpage).symm⟩
      | resource fd =>
          have hslot := hpage.2
          rw [hzero] at hslot
          exact absurd (Nat.add_eq_zero_iff.mp hslot.symm).2 (by decide)
      | file fd =>
          have hslot := hpage.2.1
          rw [hzero] at hslot
          exact absurd rfl hslot
  | userPage q j =>
      obtain rfl : q = .page i := ho
      have hcount := howns.2.1
      rw [hzero] at hcount
      exact absurd hcount (Nat.not_lt_zero j)
  | table q l =>
      obtain rfl : q = .page i := ho
      have hcount := howns.2.1
      rw [hzero] at hcount
      exact absurd hcount (Nat.not_lt_zero l)
  | held n => exact .inr ⟨n, rfl⟩

/-- A page that was free becomes the control block of a new process. -/
theorem adopt (h : Owned k live user held) {i : Nat} (hi : i < N_PAGES)
    (hfree : k.memory.memoryPages i = false) :
    .page i ∉ live ∧ Owned (k.takePage i) (insert (.page i) live) user held := by
  have hnot := h.free_not_owns hi hfree
  have hnew : PcbPtr.page i ∉ live := fun hlive ↦ hnot (.descriptor (.page i) .control) ⟨hlive, rfl⟩
  have hused : (k.takePage i).memory.InUse (pageAddress i) := by
    rw [Memory.inUse_page hi]
    exact Function.update_self ..
  have hzero := takePage_pcb k i
  refine ⟨hnew, h.replace (P := {.page i}) (Confined.takePage k (Set.mem_singleton _)) ?_
    (fun _ _ ↦ Iff.rfl) ?_ ?_ ?_ ?_ ?_ ?_ ?_ ?_⟩
  · intro p hp hne
    exact hp.resolve_left hne
  · rintro o a howns rfl
    exact (hnot o howns).elim
  · intro o a howns ho ha
    obtain ⟨-, rfl⟩ | ⟨n, rfl⟩ := owns_of_zero hzero howns ho
    · exact absurd rfl ha
    · exact howns
  · rintro o a howns ho rfl
    exact hused
  · rintro o o' a rfl howns howns' ho ho'
    obtain ⟨rfl, -⟩ | ⟨n, rfl⟩ := owns_of_zero hzero howns ho
    · obtain ⟨rfl, -⟩ | ⟨n, rfl⟩ := owns_of_zero hzero howns' ho'
      · rfl
      · exact (hnot (.held n) howns').elim
    · exact (hnot (.held n) howns).elim
  · rintro p - rfl -
    rw [hzero]
    exact ⟨rfl, rfl, rfl⟩
  · rintro p - rfl hu
    exact absurd (h.users hu) hnew
  · rintro p - rfl fd -
    refine ⟨.unused, ?_⟩
    rw [Usage.Agrees, hzero]
    rfl
  · exact h.users.trans (Set.subset_insert _ _)

/-- A process gets an address space; pages that it had before may change their roles. -/
theorem filled (h : Owned k live user held) (hp : p ∈ live) {b : PCB} {us ts : List Nat}
    (hbuilding : Building T p b k' [] us ts) (hlen : us.length = MAX_PROCESS_PAGES)
    (hconfined : Confined T {p} k k') (hus : ∀ a ∈ us, a ∈ T)
    (hT : ∀ {o a}, k.Owns live held o a → a ∈ T → (∃ j, o = .userPage p j) ∨ ∃ l, o = .table p l)
    (hfiles : (k'.pcb p).files = (k.pcb p).files) : Owned k' live (insert p user) held := by
  have hspace := hbuilding.space
  have hrecord : ∀ fd < MAX_FILES_PER_PROCESS, (k.pcb p).files fd ≠ 0 →
      k'.memory.fatResources ((k.pcb p).files fd) = k.memory.fatResources ((k.pcb p).files fd) := by
    intro fd hfd hnull
    obtain ⟨usage, hs⟩ := h.session hp
    obtain ⟨j, -, hj, hpage⟩ := hs.slot hfd hnull
    dsimp only at hj
    rw [hj]
    refine hconfined.records _ fun hmem ↦ ?_
    obtain ⟨_, he⟩ | ⟨_, he⟩ := hT (o := .descriptor p (.resource fd)) ⟨hp, hpage⟩ hmem
    · cases he
    · cases he
  have hdescriptor : ∀ {page a}, k'.Holds p page a → k.Holds p page a := by
    intro page a hpage
    cases page with
    | control => exact hpage
    | resource fd => exact ⟨hpage.1, hfiles ▸ hpage.2⟩
    | file fd =>
        obtain ⟨hfd, hnull, hptr⟩ := hpage
        rw [hfiles] at hnull hptr
        rw [hrecord fd hfd hnull] at hptr
        exact ⟨hfd, hnull, hptr⟩
  have hcases : ∀ {o a}, k'.Owns live held o a → o.Within {p} →
      (k.Owns live held o a ∧ a ∉ T) ∨ (∃ j, o = .userPage p j ∧ us[j]? = some a) ∨
        ∃ l, o = .table p l ∧ ts[l]? = some a := by
    intro o a howns ho
    have hkept : k.Owns live held o a → (∀ j, o ≠ .userPage p j) → (∀ l, o ≠ .table p l) →
        k.Owns live held o a ∧ a ∉ T := by
      refine fun hold huser htable ↦ ⟨hold, fun ha ↦ ?_⟩
      obtain ⟨j, hj⟩ | ⟨l, hl⟩ := hT hold ha
      · exact huser j hj
      · exact htable l hl
    cases o with
    | descriptor q page =>
        obtain rfl : q = p := ho
        exact .inl (hkept ⟨hp, hdescriptor howns.2⟩ nofun nofun)
    | userPage q j =>
        obtain rfl : q = p := ho
        exact .inr (.inl ⟨j, rfl, hspace.userPage_iff.mp howns.2⟩)
    | table q l =>
        obtain rfl : q = p := ho
        exact .inr (.inr ⟨l, rfl, hspace.table_iff.mp howns.2⟩)
    | held n => exact .inl (hkept howns nofun nofun)
  have hmem_us : ∀ {j a}, us[j]? = some a → a ∈ us := fun hj ↦ List.mem_iff_getElem?.mpr ⟨_, hj⟩
  have hmem_ts : ∀ {l a}, ts[l]? = some a → a ∈ ts := fun hl ↦ List.mem_iff_getElem?.mpr ⟨_, hl⟩
  have hnodup := hbuilding.nodup
  rw [List.nil_append] at hnodup
  obtain ⟨hnodup_us, hnodup_ts, hdisjoint⟩ := List.nodup_append.mp hnodup
  refine h.replace hconfined (fun _ hq _ ↦ hq) ?_ ?_ ?_ ?_ ?_ ?_ ?_ ?_ ?_
  · intro q hq
    exact ⟨fun hqu ↦ hqu.resolve_left hq, .inr⟩
  · intro o a howns ha
    obtain ⟨j, rfl⟩ | ⟨l, rfl⟩ := hT howns ha
    · rfl
    · rfl
  · intro o a howns ho ha
    obtain ⟨hold, -⟩ | ⟨j, rfl, hj⟩ | ⟨l, rfl, hl⟩ := hcases howns ho
    · exact hold
    · exact absurd (hus a (hmem_us hj)) ha
    · exact absurd (hbuilding.mem_ts a (hmem_ts hl)) ha
  · intro o a howns ho ha
    obtain ⟨-, hnot⟩ | ⟨j, rfl, hj⟩ | ⟨l, rfl, hl⟩ := hcases howns ho
    · exact absurd ha hnot
    · exact hbuilding.used a (by simp [hmem_us hj])
    · exact hbuilding.used a (by simp [hmem_ts hl])
  · intro o o' a ha howns howns' ho ho'
    obtain ⟨-, hnot⟩ | ⟨j, rfl, hj⟩ | ⟨l, rfl, hl⟩ := hcases howns ho
    · exact absurd ha hnot
    · obtain ⟨-, hnot⟩ | ⟨j', rfl, hj'⟩ | ⟨l', rfl, hl'⟩ := hcases howns' ho'
      · exact absurd ha hnot
      · have hlt := (List.getElem?_eq_some_iff.mp hj).1
        rw [(List.getElem?_inj hlt hnodup_us).mp (hj.trans hj'.symm)]
      · exact absurd rfl (hdisjoint a (hmem_us hj) a (hmem_ts hl'))
    · obtain ⟨-, hnot⟩ | ⟨j', rfl, hj'⟩ | ⟨l', rfl, hl'⟩ := hcases howns' ho'
      · exact absurd ha hnot
      · exact absurd rfl (hdisjoint a (hmem_us hj') a (hmem_ts hl))
      · have hlt := (List.getElem?_eq_some_iff.mp hl).1
        rw [(List.getElem?_inj hlt hnodup_ts).mp (hl.trans hl'.symm)]
  · rintro q - rfl hqu
    exact absurd (Set.mem_insert q user) hqu
  · rintro q - rfl -
    exact ⟨us, ts, hlen, hspace⟩
  · rintro q hq rfl fd hfd
    obtain ⟨usage, hs⟩ := h.session hq
    exact ⟨_, (hs.agrees fd hfd).congr (congrFun hfiles fd) (hrecord fd hfd)⟩
  · exact Set.insert_subset hp h.users

/-- The pages that can be reached from the pages of a process are its own. -/
theorem reach_owner (h : Owned k live user held) (hp : p ∈ live) {us ts : List Nat}
    (hspace : AddressSpace k.memory (k.pcb p).mm us ts) {o : Owner} {a : Nat}
    (howns : k.Owns live held o a) (ha : a ∈ k.Reach (us ++ ts)) :
    (∃ j, o = .userPage p j) ∨ ∃ l, o = .table p l := by
  rcases ha with hmem | ⟨i, hi, rfl, hfree⟩
  · rcases List.mem_append.mp hmem with hmem | hmem
    · obtain ⟨j, hj⟩ := List.mem_iff_getElem?.mp hmem
      have huser : k.Owns live held (.userPage p j) a := ⟨hp, hspace.userPage_iff.mpr hj⟩
      exact .inl ⟨j, h.exclusive.unique howns huser⟩
    · obtain ⟨l, hl⟩ := List.mem_iff_getElem?.mp hmem
      have htable : k.Owns live held (.table p l) a := ⟨hp, hspace.table_iff.mpr hl⟩
      exact .inr ⟨l, h.exclusive.unique howns htable⟩
  · exact absurd howns (h.free_not_owns hi hfree o)

/-- The loop of `syscall_exec` gives the user pages of the caller back. -/
theorem release (h : Owned k live user held) (hp : k.currentProcess ∈ live) {us ts : List Nat}
    (hspace : AddressSpace k.memory (k.pcb k.currentProcess).mm us ts) :
    ∃ k', k.freeUserPages (List.range k.current.mm.nUserPages) = some k' ∧
      GivenBack k.currentProcess us k k' ∧
      Building (k.Reach (us ++ ts)) k.currentProcess (k.pcb k.currentProcess).outsideMm
        k' [] [] ts := by
  obtain ⟨hnodup, hused, hcontrol⟩ := h.pages hp hspace
  have hcount : k.current.mm.nUserPages = us.length := hspace.nUserPages
  obtain ⟨k', hk', hback⟩ := freeUserPages_spec (j := 0) rfl
    (fun l hl ↦ by rw [Nat.zero_add, hspace.userPages l hl])
    (fun a ha ↦ hused a (List.mem_append_left _ ha)) (List.nodup_append.mp hnodup).1 hcount
    (fun a ha hmem ↦ (hcontrol a ha).2 (List.mem_append_left _ hmem))
  refine ⟨k', ?_, hback, ?_⟩
  · rw [hcount, List.range_eq_range']
    exact hk'
  · exact hback.building hspace hnodup hused hcontrol
      (fun t ht ↦ .inl (List.mem_append_right _ ht)) (fun a ha ↦ .inl (List.mem_append_left _ ha))
      fun i hi hfree ↦ .inr ⟨i, hi, rfl, hfree⟩

end Owned

end DemosOS
