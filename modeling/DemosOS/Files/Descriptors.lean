import DemosOS.Files.Calls
import Mathlib.Logic.Relation

/-!
# Descriptor tables

The life of the descriptor table of one process: it opens and closes descriptors, and between
its calls the rest of the system does as it likes, as long as it keeps its hands off the table
and off the pages that belong to it.

A session keeps with the kernel what the calls have returned so far: which descriptors were
never used, which are open and as what, and which have been closed.  `Session.Sound` says how
this history can be read off the table: a slot that was never used is `NULL`, an open one points
to a record of its type, and a closed one points to a record without a structure.
-/

namespace DemosOS

open Lib

/-! ## Sessions -/

/-- What has become of a descriptor. -/
inductive Usage
  | unused
  | opened (resourceType : ResourceType)
  | closed
deriving DecidableEq, Repr

/-- A kernel, and the history of the descriptors of one of its processes. -/
structure Session where
  kernel : Kernel Pointers
  usage : Nat → Usage

/-- A call that changes the descriptor table. -/
inductive Call
  | createDir
  | openDir
  | openFile
  | closeFile (fileDescriptor : Int)
deriving DecidableEq, Repr

namespace Call

/-- The call, with what the FAT library returns. -/
def run (error : Int) (k : Kernel Pointers) : Call → Except Fault FileResult
  | createDir => k.syscallCreateDir error
  | openDir => k.syscallOpenDir error
  | openFile => k.syscallOpenFile error
  | closeFile fd => k.syscallCloseFile fd error

/-- What a call that opens something opens. -/
def opens : Call → Option ResourceType
  | createDir | openDir => some .folder
  | openFile => some .file
  | closeFile _ => none

/-- The history after the call, by what the library and the call have returned. -/
def record (error value : Int) (usage : Nat → Usage) : Call → Nat → Usage
  | createDir | openDir =>
      if error = 0 ∧ 0 ≤ value then Function.update usage value.toNat (.opened .folder) else usage
  | openFile =>
      if error = 0 ∧ 0 ≤ value then Function.update usage value.toNat (.opened .file) else usage
  | closeFile fd => if value = 0 then Function.update usage fd.toNat .closed else usage

end Call

/-- The pages behind a descriptor table. -/
inductive DescriptorPage
  | /-- The page of the control block. -/
    control
  | /-- The page of the record of a descriptor. -/
    resource (fd : Nat)
  | /-- The page of the `File` or `Dir` structure of a descriptor. -/
    file (fd : Nat)
deriving DecidableEq, Repr

/-- The page with the physical address `a` is needed for the descriptor table of `p`. -/
def Globals.Holds (g : Globals) (p : PcbPtr) : DescriptorPage → Nat → Prop
  | .control, a => p.pageStart = some a
  | .resource fd, a => fd < MAX_FILES_PER_PROCESS ∧ (g.pcb p).files fd = a + VA_START
  | .file fd, a => fd < MAX_FILES_PER_PROCESS ∧ (g.pcb p).files fd ≠ 0 ∧
      (g.memory.fatResources ((g.pcb p).files fd)).ptr = a + VA_START

/-- The rest of the system at work: it leaves the table of `p` and the records in it alone, and
frees none of its pages. -/
structure Elsewhere (p : PcbPtr) (k k' : Kernel Pointers) : Prop where
  files : (k'.pcb p).files = (k.pcb p).files
  records : ∀ fd < MAX_FILES_PER_PROCESS, (k.pcb p).files fd ≠ 0 →
    k'.memory.fatResources ((k.pcb p).files fd) = k.memory.fatResources ((k.pcb p).files fd)
  used : ∀ {page a}, k.Holds p page a → k'.memory.InUse a

/-- What can happen in a session. -/
inductive SessionEvent
  | call (c : Call) (error : Int)
  | elsewhere

namespace Session

/-- One event of a session of `p`. -/
def Step (p : PcbPtr) (s s' : Session) : SessionEvent → Prop
  | .call c error => s.kernel.currentProcess = p ∧ ∃ r, c.run error s.kernel = .ok r ∧
      s' = ⟨r.kernel, c.record error r.value s.usage⟩
  | .elsewhere => Elsewhere p s.kernel s'.kernel ∧ s'.usage = s.usage

/-- The session of a new process: no descriptor was ever open, and the page of the control
block is in use. -/
structure Fresh (p : PcbPtr) (s : Session) : Prop where
  files : ∀ fd < MAX_FILES_PER_PROCESS, (s.kernel.pcb p).files fd = 0
  usage : ∀ fd < MAX_FILES_PER_PROCESS, s.usage fd = .unused
  control : ∀ {a}, p.pageStart = some a → s.kernel.memory.InUse a

/-- The sessions of `p` that calls and the rest of the system lead to. -/
def Reachable (p : PcbPtr) (s : Session) : Prop :=
  ∃ s₀, Fresh p s₀ ∧ Relation.ReflTransGen (fun s s' ↦ ∃ e, Step p s s' e) s₀ s

/-- The descriptor is open. -/
def IsOpen (s : Session) (fd : Int) : Prop :=
  0 ≤ fd ∧ fd < MAX_FILES_PER_PROCESS ∧ ∃ t, s.usage fd.toNat = .opened t

end Session

/-! ## What the table says about its history -/

/-- Slot `fd` of the table of `p` looks like its history. -/
def Usage.Agrees (g : Globals) (p : PcbPtr) (fd : Nat) : Usage → Prop
  | unused => (g.pcb p).files fd = 0
  | opened t => ∃ i < N_PAGES, ∃ j < N_PAGES, (g.pcb p).files fd = pageAddress j + VA_START ∧
      g.memory.fatResources ((g.pcb p).files fd) = ⟨t, pageAddress i + VA_START⟩
  | closed => ∃ j < N_PAGES, (g.pcb p).files fd = pageAddress j + VA_START ∧
      g.memory.fatResources ((g.pcb p).files fd) = ⟨.file, 0⟩

/-- The agreement concerns the slot and its record only. -/
theorem Usage.Agrees.congr {g g' : Globals} {p : PcbPtr} {fd : Nat} {u : Usage}
    (h : u.Agrees g p fd) (hfile : (g'.pcb p).files fd = (g.pcb p).files fd)
    (hrecord : (g.pcb p).files fd ≠ 0 → g'.memory.fatResources ((g.pcb p).files fd) =
      g.memory.fatResources ((g.pcb p).files fd)) : u.Agrees g' p fd := by
  cases u with
  | unused => exact hfile.trans h
  | opened t =>
      obtain ⟨i, hi, j, hj, hslot, hrec⟩ := h
      rw [Agrees, hfile, hrecord (hslot ▸ Kernel.address_ne_zero j)]
      exact ⟨i, hi, j, hj, hslot, hrec⟩
  | closed =>
      obtain ⟨j, hj, hslot, hrec⟩ := h
      rw [Agrees, hfile, hrecord (hslot ▸ Kernel.address_ne_zero j)]
      exact ⟨j, hj, hslot, hrec⟩

/-- The table looks like its history, and its pages are its own. -/
structure Session.Sound (p : PcbPtr) (s : Session) : Prop where
  exclusive : Exclusive (s.kernel.Holds p) s.kernel.memory.InUse
  agrees : ∀ fd < MAX_FILES_PER_PROCESS, (s.usage fd).Agrees s.kernel.toGlobals p fd

namespace Elsewhere

variable {p : PcbPtr} {k k' : Kernel Pointers}

theorem holds_iff (h : Elsewhere p k k') {page : DescriptorPage} {a : Nat} :
    k'.Holds p page a ↔ k.Holds p page a := by
  cases page with
  | control => exact Iff.rfl
  | resource fd => rw [Globals.Holds, Globals.Holds, h.files]
  | file fd =>
      rw [Globals.Holds, Globals.Holds, h.files]
      refine and_congr_right fun hfd ↦ and_congr_right fun hslot ↦ ?_
      rw [h.records fd hfd hslot]

theorem sound (h : Elsewhere p k k') {usage : Nat → Usage} (hs : Session.Sound p ⟨k, usage⟩) :
    Session.Sound p ⟨k', usage⟩ where
  exclusive := hs.exclusive.mono (fun hpage ↦ h.holds_iff.mp hpage)
    fun hpage ↦ h.used (h.holds_iff.mp hpage)
  agrees fd hfd := (hs.agrees fd hfd).congr (congrFun h.files fd) (h.records fd hfd)

end Elsewhere

/-! ## Steps -/

section

variable {p : PcbPtr} {k k' : Kernel Pointers} {usage : Nat → Usage}

/-- The record of a slot that is in use is in a page of the process. -/
theorem Session.Sound.slot {s : Session} (h : s.Sound p) {fd : Nat}
    (hfd : fd < MAX_FILES_PER_PROCESS) (hslot : (s.kernel.pcb p).files fd ≠ 0) :
    ∃ j < N_PAGES, (s.kernel.pcb p).files fd = pageAddress j + VA_START ∧
      s.kernel.Holds p (.resource fd) (pageAddress j) := by
  have hagrees := h.agrees fd hfd
  cases hu : s.usage fd with
  | unused =>
      rw [hu] at hagrees
      exact absurd hagrees hslot
  | opened t =>
      rw [hu] at hagrees
      obtain ⟨i, -, j, hj, hfile, -⟩ := hagrees
      exact ⟨j, hj, hfile, hfd, hfile⟩
  | closed =>
      rw [hu] at hagrees
      obtain ⟨j, hj, hfile, -⟩ := hagrees
      exact ⟨j, hj, hfile, hfd, hfile⟩

/-- Pages that are not in use do not matter for the table. -/
theorem Elsewhere.of_confined {T : Set Nat} (hs : Session.Sound p ⟨k, usage⟩)
    (h : Confined T ∅ k k') (hT : ∀ a ∈ T, ¬ k.memory.InUse a) : Elsewhere p k k' := by
  have hheld : ∀ page {a}, k.Holds p page a → a ∉ T := fun _ _ hpage ha ↦
    hT _ ha (hs.exclusive.used hpage)
  have hout : p.Outside T := fun a ha ↦ hheld .control ha
  refine ⟨?_, ?_, ?_⟩
  · rw [h.pcb p (Set.notMem_empty p) hout]
  · intro fd hfd hslot
    obtain ⟨j, -, hfile, hpage⟩ := hs.slot hfd hslot
    dsimp only at hfile
    rw [hfile]
    exact h.records _ (hheld _ hpage)
  · intro page a hpage
    exact (h.inUse (hheld _ hpage)).mpr (hs.exclusive.used hpage)

/-- Only the structure of slot `fd` is in one of two pages. -/
theorem not_mem_pages {fd i j : Nat}
    (hi : ∀ page, k.Holds p page (pageAddress i) → page = .file fd)
    (hj : ∀ page, k.Holds p page (pageAddress j) → page = .file fd)
    {page : DescriptorPage} {a : Nat} (hpage : k.Holds p page a) (hne : page ≠ .file fd) :
    a ∉ ({pageAddress i, pageAddress j} : Set Nat) := by
  rintro (rfl | rfl)
  · exact hne (hi page hpage)
  · exact hne (hj page hpage)

/-- Slot `fd` of `p` has got a new record in page `j`, which points to page `i` or nowhere. -/
structure SlotReplaced (p : PcbPtr) (fd i j : Nat) (k k' : Kernel Pointers) : Prop where
  confined : Confined {pageAddress i, pageAddress j} {p} k k'
  control : k'.pcb p =
    { k.pcb p with files := Function.update (k.pcb p).files fd (pageAddress j + VA_START) }
  used : k'.memory.InUse (pageAddress j)
  pointer : ∀ a, (k'.memory.fatResources (pageAddress j + VA_START)).ptr = a + VA_START →
    a = pageAddress i ∧ i ≠ j ∧ k'.memory.InUse a

namespace SlotReplaced

variable {fd i j : Nat} (h : SlotReplaced p fd i j k k')
include h

theorem slot : (k'.pcb p).files fd = pageAddress j + VA_START := by
  rw [h.control]
  exact Function.update_self ..

theorem slot_of_ne {fd' : Nat} (hne : fd' ≠ fd) : (k'.pcb p).files fd' = (k.pcb p).files fd' := by
  rw [h.control]
  exact Function.update_of_ne hne _ _

variable (hs : Session.Sound p ⟨k, usage⟩)
  (hi : ∀ page, k.Holds p page (pageAddress i) → page = .file fd)
  (hj : ∀ page, k.Holds p page (pageAddress j) → page = .file fd)
include hs hi hj

theorem record {fd' : Nat} (hfd' : fd' < MAX_FILES_PER_PROCESS) (hslot : (k.pcb p).files fd' ≠ 0) :
    k'.memory.fatResources ((k.pcb p).files fd') = k.memory.fatResources ((k.pcb p).files fd') := by
  obtain ⟨j', -, hj', hpage⟩ := hs.slot hfd' hslot
  dsimp only at hj'
  rw [hj']
  exact h.confined.records _ (not_mem_pages hi hj hpage nofun)

/-- The pages behind the table after the change. -/
theorem holds_cases {page : DescriptorPage} {a : Nat} (hpage : k'.Holds p page a) :
    (k.Holds p page a ∧ page ≠ .resource fd ∧ page ≠ .file fd) ∨
      (page = .resource fd ∧ a = pageAddress j) ∨
      (page = .file fd ∧ a = pageAddress i ∧ i ≠ j ∧ k'.memory.InUse a) := by
  cases page with
  | control => exact .inl ⟨hpage, nofun, nofun⟩
  | resource fd' =>
      by_cases hne : fd' = fd
      · subst hne
        exact .inr (.inl ⟨rfl, Nat.add_right_cancel (hpage.2.symm.trans h.slot)⟩)
      · have hold : k.Holds p (.resource fd') a :=
          ⟨hpage.1, (h.slot_of_ne hne).symm.trans hpage.2⟩
        exact .inl ⟨hold, by simpa using hne, nofun⟩
  | file fd' =>
      obtain ⟨hfd', hnull, hstructure⟩ := hpage
      by_cases hne : fd' = fd
      · subst hne
        rw [h.slot] at hstructure
        exact .inr (.inr ⟨rfl, h.pointer a hstructure⟩)
      · rw [h.slot_of_ne hne] at hnull hstructure
        rw [h.record hs hi hj hfd' hnull] at hstructure
        exact .inl ⟨⟨hfd', hnull, hstructure⟩, nofun, by simpa using hne⟩

/-- The table stays in order. -/
theorem sound {u : Usage} (hagrees : u.Agrees k'.toGlobals p fd) :
    Session.Sound p ⟨k', Function.update usage fd u⟩ := by
  constructor
  · refine hs.exclusive.replace ({pageAddress i, pageAddress j} : Set Nat) ?_ ?_ ?_
    · intro page a hpage ha
      rcases h.holds_cases hs hi hj hpage with ⟨hold, -⟩ | ⟨-, rfl⟩ | ⟨-, rfl, -⟩
      · exact ⟨hold, (h.confined.inUse ha).mpr⟩
      · exact absurd (.inr rfl) ha
      · exact absurd (.inl rfl) ha
    · intro page a hpage ha
      rcases h.holds_cases hs hi hj hpage with ⟨hold, -, hne⟩ | ⟨-, rfl⟩ | ⟨-, -, -, hin⟩
      · exact absurd ha (not_mem_pages hi hj hold hne)
      · exact h.used
      · exact hin
    · intro page page' a ha hpage hpage'
      rcases h.holds_cases hs hi hj hpage with ⟨hold, -, hne⟩ | ⟨rfl, rfl⟩ | ⟨rfl, rfl, hij, -⟩
      · exact absurd ha (not_mem_pages hi hj hold hne)
      · rcases h.holds_cases hs hi hj hpage' with ⟨hold, -, hne⟩ | ⟨rfl, -⟩ | ⟨-, hji, hij, -⟩
        · exact absurd ha (not_mem_pages hi hj hold hne)
        · rfl
        · exact absurd (pageAddress_inj.mp hji).symm hij
      · rcases h.holds_cases hs hi hj hpage' with ⟨hold, -, hne⟩ | ⟨-, hji⟩ | ⟨rfl, -⟩
        · exact absurd ha (not_mem_pages hi hj hold hne)
        · exact absurd (pageAddress_inj.mp hji) hij
        · rfl
  · intro fd' hfd'
    by_cases hne : fd' = fd
    · subst hne
      simpa using hagrees
    · have hold := hs.agrees fd' hfd'
      dsimp only at hold ⊢
      rw [Function.update_of_ne hne]
      exact hold.congr (h.slot_of_ne hne) (h.record hs hi hj hfd')

end SlotReplaced

theorem Opened.slotReplaced {t : ResourceType} {fd i j : Nat} (h : Opened t fd i j k k') :
    SlotReplaced k.currentProcess fd i j k k' where
  confined := h.confined
  control := h.current
  used := (Memory.inUse_page h.j_lt).mpr h.j_used
  pointer a ha := by
    rw [h.record] at ha
    obtain rfl := Nat.add_right_cancel ha
    exact ⟨rfl, h.ne.symm, (Memory.inUse_page h.i_lt).mpr h.i_used⟩

theorem Closed.slotReplaced {fd i j : Nat} (h : Closed fd i j k k') :
    SlotReplaced k.currentProcess fd i j k k' where
  confined := h.confined
  control := h.current
  used := (Memory.inUse_page h.j_lt).mpr h.j_used
  pointer a ha := by
    rw [h.record] at ha
    have := Nat.add_eq_zero_iff.mp ha.symm
    exact absurd this.2 (by decide)

theorem Opened.agrees {t : ResourceType} {fd i j : Nat} (h : Opened t fd i j k k') :
    (Usage.opened t).Agrees k'.toGlobals k.currentProcess fd := by
  have hslot := h.slotReplaced.slot
  refine ⟨i, h.i_lt, j, h.j_lt, hslot, ?_⟩
  rw [hslot, h.record]

theorem Closed.agrees {fd i j : Nat} (h : Closed fd i j k k') :
    Usage.closed.Agrees k'.toGlobals k.currentProcess fd := by
  have hslot := h.slotReplaced.slot
  refine ⟨j, h.j_lt, hslot, ?_⟩
  rw [hslot, h.record]

/-- A free page holds nothing. -/
theorem Session.Sound.not_holds (hs : Session.Sound p ⟨k, usage⟩) {i : Nat} (hi : i < N_PAGES)
    (hfree : k.memory.memoryPages i = false) {page : DescriptorPage} :
    ¬ k.Holds p page (pageAddress i) := by
  intro hpage
  exact Memory.not_inUse hi hfree (hs.exclusive.used hpage)

/-- A successful open keeps the table in order. -/
theorem Opened.sound {t : ResourceType} {fd i j : Nat} (h : Opened t fd i j k k')
    (hs : Session.Sound k.currentProcess ⟨k, usage⟩) :
    Session.Sound k.currentProcess ⟨k', Function.update usage fd (.opened t)⟩ :=
  h.slotReplaced.sound hs (fun _ hp ↦ (hs.not_holds h.i_lt h.i_free hp).elim)
    (fun _ hp ↦ (hs.not_holds h.j_lt h.j_free hp).elim) h.agrees

/-- A successful close of a descriptor whose structure is in page `i` keeps the table in
order. -/
theorem Closed.sound {fd i j : Nat} (h : Closed fd i j k k')
    (hs : Session.Sound k.currentProcess ⟨k, usage⟩)
    (hi : k.Holds k.currentProcess (.file fd) (pageAddress i)) :
    Session.Sound k.currentProcess ⟨k', Function.update usage fd .closed⟩ := by
  have honly : ∀ page, k.Holds k.currentProcess page (pageAddress i) → page = .file fd :=
    fun _ hpage ↦ hs.exclusive.unique hpage hi
  refine h.slotReplaced.sound hs honly ?_ h.agrees
  rcases h.j_free with rfl | hfree
  · exact honly
  · exact fun _ hpage ↦ (hs.not_holds h.j_lt hfree hpage).elim

/-- The ways through a call that opens something. -/
theorem Session.Sound.opened_cases (hs : Session.Sound k.currentProcess ⟨k, usage⟩)
    {t : ResourceType} {call : Nat → FatCall} {onError : Int → Int} {error : Int} {r : FileResult}
    (h : k.openResource t call onError error = .ok r) :
    (r.value = -1 ∧ r.kernel = k ∧ ∀ fd < MAX_FILES_PER_PROCESS, k.current.files fd ≠ 0) ∨
    (error ≠ 0 ∧ Elsewhere k.currentProcess k r.kernel) ∨
    (error = 0 ∧ ∃ fd i j : Nat, r.value = fd ∧ Opened t fd i j k r.kernel) := by
  obtain ⟨hnone, rfl⟩ | ⟨fd, i, hfd, hi, hfree, hcase⟩ := Kernel.openResource_cases h
  · exact .inl ⟨rfl, rfl, Kernel.getFirstFreeFileDescriptor_eq_none.mp hnone⟩
  · obtain ⟨herror, rfl⟩ | ⟨herror, j, hj, hne, hfree', rfl⟩ := hcase
    · refine .inr (.inl ⟨herror, ?_⟩)
      have hconfined : Confined {pageAddress i} ∅ k ((k.takePage i).returnPage i) :=
        (Confined.takePage k (Set.mem_singleton _)).trans
          (Confined.freePage _ (Set.mem_singleton _))
      refine Elsewhere.of_confined hs hconfined ?_
      rintro a rfl
      exact Memory.not_inUse hi hfree
    · obtain ⟨hlt, hslot⟩ := Kernel.getFirstFreeFileDescriptor_eq_some hfd
      refine .inr (.inr ⟨herror, fd, i, j, rfl, ?_⟩)
      refine Opened.of_kernel t hlt hslot hi hj hne hfree hfree' ?_
      intro a ha hmem
      have hused := hs.exclusive.used (o := .control) ha
      rcases hmem with rfl | rfl
      · exact Memory.not_inUse hi hfree hused
      · exact Memory.not_inUse hj hfree' hused

/-- Closing a descriptor that is open. -/
theorem Session.Sound.closed_cases (hs : Session.Sound k.currentProcess ⟨k, usage⟩) {fd : Nat}
    {t : ResourceType} (error : Int) (hfd : fd < MAX_FILES_PER_PROCESS)
    (hopen : usage fd = .opened t) : ∃ i, k.Holds k.currentProcess (.file fd) (pageAddress i) ∧
      ((error ≠ 0 ∧ k.syscallCloseFile fd error =
          .ok ⟨error, [.fileClose (pageAddress i + VA_START)], k⟩) ∨
        (error = 0 ∧ ∃ j k', Closed fd i j k k' ∧ k.syscallCloseFile fd error =
          .ok ⟨0, [.fileClose (pageAddress i + VA_START)], k'⟩)) := by
  have hagrees := hs.agrees fd hfd
  dsimp only at hagrees
  rw [hopen] at hagrees
  obtain ⟨i, hi, j, -, hslot, hrecord⟩ := hagrees
  have hnull : k.current.files fd ≠ 0 := fun h ↦ Kernel.address_ne_zero j (hslot.symm.trans h)
  have hptr : (k.memory.fatResources (k.current.files fd)).ptr = pageAddress i + VA_START :=
    congrArg FatResource.ptr hrecord
  have hholds : k.Holds k.currentProcess (.file fd) (pageAddress i) := ⟨hfd, hnull, hptr⟩
  refine ⟨i, hholds, ?_⟩
  obtain herror | ⟨herror, j', hj', hfree, hclose⟩ :=
    Kernel.syscallCloseFile_open error hfd hi hnull hptr
  · exact .inl herror
  · refine .inr ⟨herror, j', _, ?_, hclose⟩
    refine Closed.of_kernel hfd hi hj' hfree ?_
    intro a ha hmem
    have hcontrol : k.Holds k.currentProcess .control a := ha
    rcases hmem with rfl | rfl
    · cases hs.exclusive.unique hcontrol hholds
    · rcases hfree with rfl | hfree
      · cases hs.exclusive.unique hcontrol hholds
      · exact Memory.not_inUse hj' hfree (hs.exclusive.used hcontrol)

/-- A closed or unused slot cannot be closed: the call follows `NULL`. -/
theorem Session.Sound.close_fault (hs : Session.Sound k.currentProcess ⟨k, usage⟩) {fd : Nat}
    (error : Int) (hfd : fd < MAX_FILES_PER_PROCESS) (hopen : ∀ t, usage fd ≠ .opened t) :
    ∃ fault, k.syscallCloseFile fd error = .error fault := by
  have hrange : ¬ ((fd : Int) < 0 ∨ (fd : Int) ≥ MAX_FILES_PER_PROCESS) := by omega
  have hagrees := hs.agrees fd hfd
  dsimp only at hagrees
  cases hu : usage fd with
  | unused =>
      rw [hu] at hagrees
      have hslot : k.current.files fd = 0 := hagrees
      refine ⟨.nullResource, ?_⟩
      rw [Kernel.syscallCloseFile, if_neg hrange, Kernel.fileSlot_of_lt hfd, hslot]
      rfl
  | opened t => exact absurd hu (hopen t)
  | closed =>
      rw [hu] at hagrees
      obtain ⟨j, -, hslot, hrecord⟩ := hagrees
      have hnull : k.current.files fd ≠ 0 := fun h ↦ Kernel.address_ne_zero j (hslot.symm.trans h)
      have hptr : (k.memory.fatResources (k.current.files fd)).ptr = 0 :=
        congrArg FatResource.ptr hrecord
      refine ⟨.nullStructure, ?_⟩
      have hfollow : k.followResource (k.current.files fd) = .ok 0 := by
        rw [Kernel.followResource, if_neg hnull, hptr]
      rw [Kernel.syscallCloseFile, if_neg hrange, Kernel.fileSlot_of_lt hfd]
      simp only [bind, Except.bind, hfollow]
      rfl

end

namespace Session

variable {p : PcbPtr} {s s' : Session}

/-- After a call that opens something. -/
theorem Sound.openCall {t : ResourceType} {call : Nat → FatCall} {onError : Int → Int}
    {error : Int} {r : FileResult} (hs : s.Sound p) (hcur : s.kernel.currentProcess = p)
    (h : s.kernel.openResource t call onError error = .ok r) :
    Sound p ⟨r.kernel, if error = 0 ∧ 0 ≤ r.value then
      Function.update s.usage r.value.toNat (.opened t) else s.usage⟩ := by
  subst hcur
  obtain ⟨hvalue, hk, -⟩ | ⟨herror, helse⟩ | ⟨herror, fd, i, j, hvalue, hopen⟩ := hs.opened_cases h
  · rw [if_neg (by omega), hk]
    exact hs
  · rw [if_neg (by omega)]
    exact helse.sound hs
  · rw [if_pos ⟨herror, by omega⟩, hvalue, Int.toNat_natCast]
    exact hopen.sound hs

/-- After a call that closes something. -/
theorem Sound.closeCall {fd error : Int} {r : FileResult} (hs : s.Sound p)
    (hcur : s.kernel.currentProcess = p) (h : s.kernel.syscallCloseFile fd error = .ok r) :
    Sound p ⟨r.kernel, if r.value = 0 then Function.update s.usage fd.toNat .closed
      else s.usage⟩ := by
  subst hcur
  by_cases hrange : fd < 0 ∨ fd ≥ MAX_FILES_PER_PROCESS
  · rw [Kernel.syscallCloseFile, if_pos hrange] at h
    obtain rfl := Except.ok.inj h
    exact hs
  · obtain ⟨n, rfl⟩ := Int.eq_ofNat_of_zero_le (by omega : 0 ≤ fd)
    have hn : n < MAX_FILES_PER_PROCESS := by omega
    by_cases hopen : ∃ t, s.usage n = .opened t
    · obtain ⟨t, ht⟩ := hopen
      obtain ⟨i, hi, ⟨herror, hclose⟩ | ⟨-, j, k', hclosed, hclose⟩⟩ :=
        hs.closed_cases error hn ht
      · obtain rfl := Except.ok.inj (hclose.symm.trans h)
        rw [if_neg herror]
        exact hs
      · obtain rfl := Except.ok.inj (hclose.symm.trans h)
        rw [if_pos rfl, Int.toNat_natCast]
        exact hclosed.sound hs hi
    · obtain ⟨fault, hfault⟩ := hs.close_fault error hn fun t ht ↦ hopen ⟨t, ht⟩
      cases hfault.symm.trans h

/-- One event keeps the table in order. -/
theorem Sound.step (hs : s.Sound p) {e : SessionEvent} (h : Step p s s' e) : s'.Sound p := by
  cases e with
  | call c error =>
      obtain ⟨hcur, r, hrun, rfl⟩ := h
      cases c with
      | createDir => exact hs.openCall hcur hrun
      | openDir =>
          have hrun : s.kernel.openResource .folder .dirOpen (fun _ ↦ -1) error = .ok r := hrun
          exact hs.openCall hcur hrun
      | openFile =>
          have hrun : s.kernel.openResource .file .fileOpen (fun _ ↦ -1) error = .ok r := hrun
          exact hs.openCall hcur hrun
      | closeFile fd => exact hs.closeCall hcur hrun
  | elsewhere =>
      obtain ⟨helse, husage⟩ := h
      have hsound : Session.Sound _ ⟨_, s.usage⟩ := helse.sound hs
      rwa [← husage] at hsound

theorem Fresh.sound (h : s.Fresh p) : s.Sound p where
  exclusive := by
    have hcontrol : ∀ {page a}, s.kernel.Holds p page a →
        page = .control ∧ p.pageStart = some a := by
      intro page a hpage
      cases page with
      | control => exact ⟨rfl, hpage⟩
      | resource fd =>
          have hslot := (h.files fd hpage.1).symm.trans hpage.2
          exact absurd (Nat.add_eq_zero_iff.mp hslot.symm).2 (by decide)
      | file fd => exact absurd (h.files fd hpage.1) hpage.2.1
    refine ⟨fun hpage ↦ h.control (hcontrol hpage).2, fun hpage hpage' ↦ ?_⟩
    rw [(hcontrol hpage).1, (hcontrol hpage').1]
  agrees fd hfd := by
    rw [h.usage fd hfd]
    exact h.files fd hfd

/-- Along every session the table looks like its history. -/
theorem Reachable.sound (h : Reachable p s) : s.Sound p := by
  obtain ⟨s₀, hfresh, hsteps⟩ := h
  induction hsteps with
  | refl => exact hfresh.sound
  | tail _ hstep ih =>
      obtain ⟨e, he⟩ := hstep
      exact ih.step he

end Session

end DemosOS
