import DemosOS.Mem.Translation

/-!
# All or nothing

`allocate_user_page` takes a page, and `map_page` up to four more.  The first `get_free_page` is
checked, and nothing is left behind if it fails.  The others are not: the page 0 that they return is
cleared, entered as a table and recorded in `kernel_pages`.
-/

namespace DemosOS

open Lib Kernel

variable {k k₁ k' : Kernel Pointers} {p : PcbPtr} {virtualAddress page t : Nat}

/-- Either a free page has become the page of the virtual address, or nothing has changed; and the
physical page 0 has no part in it. -/
structure AllOrNothing (p : PcbPtr) (virtualAddress : Nat) (k : Kernel Pointers) (r : Nat)
    (k' : Kernel Pointers) : Prop where
  outcome : (∃ i < N_PAGES, k.memory.memoryPages i = false ∧ r = pageAddress i + VA_START ∧
      k'.leafEntry (k'.pcb p).mm.pgd virtualAddress = some (pageAddress i ||| MMU_PTE_FLAGS) ∧
      k'.translate p virtualAddress = some (pageAddress i + virtualAddress % PAGE_SIZE)) ∨
    (r = 0 ∧ k'.memory.memoryPages = k.memory.memoryPages ∧ (k'.pcb p).mm = (k.pcb p).mm ∧
      k'.memory.tables = k.memory.tables)
  null : k.NullKept k'
  notTable : ¬ k'.IsTable p 0
  recorded : ∃ new, (k'.pcb p).mm.kernelPageList = (k.pcb p).mm.kernelPageList ++ new ∧ 0 ∉ new

theorem Kernel.IsTable.ne_zero (h : k.IsTable p t) (hwf : k.TablesWellFormed p) : t ≠ 0 :=
  ((hwf.resolve_left h.1).inUse t h.2).ne_zero

/-! ## Tables out of reach -/

section

variable {T : Set Nat} {P : Set PcbPtr} (h : Confined T P k k')
  (hT : ∀ a ∈ T, ¬ k.memory.InUse a)
include h hT

/-- Code that only touches pages that are not in use does not touch the tables of a process. -/
theorem Confined.child {pgd : Nat} (hroot : k.WellFormed pgd) (ρ : List (Fin PTRS_PER_TABLE))
    (t : Nat) (j : Fin PTRS_PER_TABLE) (hρ : ρ.length < 4)
    (ht : TableTree.walk k.child pgd ρ = some t) : k'.child t j = k.child t j := by
  have hused := hroot.inUse t ⟨ρ, Nat.le_of_lt_succ hρ, ht⟩
  exact child_congr (congrFun (h.tables t fun hmem ↦ hT t hmem hused) _)

theorem Confined.walk {pgd : Nat} (hroot : k.WellFormed pgd) {ρ : List (Fin PTRS_PER_TABLE)}
    (hρ : ρ.length ≤ 3) : TableTree.walk k'.child pgd ρ = TableTree.walk k.child pgd ρ :=
  TableTree.walk_of_agree (h.child hT hroot) (Nat.le_succ_of_le hρ)

/-- No address gets another translation. -/
theorem Confined.leafEntry (hwf : k.TablesWellFormed p)
    (hpgd : (k'.pcb p).mm.pgd = (k.pcb p).mm.pgd) (virtualAddress : Nat) :
    k'.leafEntry (k'.pcb p).mm.pgd virtualAddress =
    k.leafEntry (k.pcb p).mm.pgd virtualAddress := by
  rw [hpgd, Kernel.leafEntry, Kernel.leafEntry]
  split_ifs with hzero
  · rfl
  · have hroot := hwf.resolve_left hzero
    have hdepth : (Kernel.tablePath virtualAddress).length ≤ 3 := le_rfl
    rw [h.walk hT hroot hdepth]
    refine Option.bind_congr fun pte hpte ↦ ?_
    rw [h.tables pte fun hmem ↦ hT pte hmem (hroot.inUse pte ⟨_, hdepth, hpte⟩)]

end

/-! ## What a failed allocation leaves behind -/

/-- From `k` to `k'` pages have been added to `kernel_pages`, and the page 0 is one of them if an
allocation has failed. -/
structure Kernel.Records (p : PcbPtr) (k k' : Kernel Pointers) : Prop where
  control : ∀ a, p.pageStart = some a → k'.memory.InUse a
  failures : k.failures ≤ k'.failures
  recorded : ∃ new, (k'.pcb p).mm.kernelPageList = (k.pcb p).mm.kernelPageList ++ new ∧
    (k.failures < k'.failures → 0 ∈ new)

namespace Kernel.Records

theorem refl (hcontrol : ∀ a, p.pageStart = some a → k.memory.InUse a) : Kernel.Records p k k :=
  ⟨hcontrol, le_rfl, [], (List.append_nil _).symm, fun h ↦ absurd h (lt_irrefl _)⟩

theorem trans (h : Kernel.Records p k k₁) (h' : Kernel.Records p k₁ k') :
    Kernel.Records p k k' := by
  obtain ⟨new, hlist, hzero⟩ := h.recorded
  obtain ⟨new', hlist', hzero'⟩ := h'.recorded
  refine ⟨h'.control, h.failures.trans h'.failures, new ++ new', ?_, fun hlt ↦ ?_⟩
  · rw [hlist', hlist, List.append_assoc]
  · rcases Nat.lt_or_ge k.failures k₁.failures with hfirst | hfirst
    · exact List.mem_append_left _ (hzero hfirst)
    · exact List.mem_append_right _ (hzero' (hfirst.trans_lt hlt))

/-- A page is recorded; it is the page 0 if the allocation has failed. -/
theorem of_track (htrack : k₁.trackKernelPage p page = some k')
    (hmm : (k₁.pcb p).mm.kernelPageList = (k.pcb p).mm.kernelPageList)
    (hcontrol : ∀ a, p.pageStart = some a → k₁.memory.InUse a)
    (hmono : k.failures ≤ k₁.failures) (hzero : k.failures < k₁.failures → page = 0) :
    Kernel.Records p k k' := by
  have hfail := trackKernelPage_failures htrack
  obtain ⟨-, rfl⟩ := trackKernelPage_some htrack
  refine ⟨hcontrol, hmono.trans hfail.ge, [page], ?_, fun hlt ↦ ?_⟩
  · rw [modifyMm_mm, kernelPageList_append, hmm]
  · rw [hfail] at hlt
    exact List.mem_singleton.mpr (hzero hlt).symm

end Kernel.Records

/-- No control block is in the page 0. -/
theorem clearPage_zero_pcb (k : Kernel Pointers) (p : PcbPtr) :
    (k.clearPage 0).pcb p = k.pcb p := by
  cases p with
  | initProcess => rfl
  | page i => exact if_neg (pageAddress_pos i).ne'

section

variable (hcontrol : ∀ a, p.pageStart = some a → k.memory.InUse a)
include hcontrol

theorem ensurePgd_records (hrun : k.ensurePgd p = some k') : Kernel.Records p k k' := by
  by_cases hpgd : (k.pcb p).mm.pgd = 0
  · rw [ensurePgd_create hpgd] at hrun
    obtain ⟨i, hi, hfree, hpage⟩ | ⟨-, hpage⟩ := k.getFreePage_cases
    · rw [hpage, Kernel.createPgd] at hrun
      refine .of_track hrun ?_ (fun a ha ↦ ?_) le_rfl fun h ↦ absurd h (lt_irrefl _)
      · rw [createPgd_mm hcontrol hi hfree]
        rfl
      · exact (takePage_inUse hi a).mpr (.inl (hcontrol a ha))
    · rw [hpage, Kernel.createPgd] at hrun
      refine .of_track hrun ?_ hcontrol (Nat.le_succ _) fun _ ↦ rfl
      rw [clearPage_zero_pcb, modifyMm_mm]
      rfl
  · rw [Kernel.ensurePgd, if_neg hpgd] at hrun
    obtain rfl := Option.some.inj hrun
    exact .refl hcontrol

theorem mapLevel_records {shift : Nat} {r : Nat × Kernel Pointers}
    (hrun : k.mapLevel p t shift virtualAddress = some r) : Kernel.Records p k r.2 := by
  by_cases hentry : k.memory.tables t (tableIndex shift virtualAddress) = 0
  · rw [mapLevel_create hentry] at hrun
    obtain ⟨k', hk', rfl⟩ := Option.map_eq_some_iff.mp hrun
    obtain ⟨i, hi, hfree, hpage⟩ | ⟨-, hpage⟩ := k.getFreePage_cases
    · rw [hpage] at hk'
      refine .of_track hk' ?_ (fun a ha ↦ ?_) le_rfl fun h ↦ absurd h (lt_irrefl _)
      · have hpcb := takePage_clear_pcb hi hfree hcontrol
        exact congrArg (fun b : PCB ↦ b.mm.kernelPageList) hpcb
      · exact (takePage_inUse hi a).mpr (.inl (hcontrol a ha))
    · rw [hpage] at hk'
      refine .of_track hk' ?_ hcontrol (Nat.le_succ _) fun _ ↦ rfl
      have hpcb := clearPage_zero_pcb (k.mapMemory fun m ↦
        { m with failedAllocations := m.failedAllocations + 1 }) p
      exact congrArg (fun b : PCB ↦ b.mm.kernelPageList) hpcb
  · rw [mapLevel_follow hentry] at hrun
    rw [← Option.some.inj hrun]
    exact .refl hcontrol

/-- Where an allocation fails in `map_page`, the page 0 is recorded. -/
theorem mapPage_records (hrun : k.mapPage p virtualAddress page = some k') :
    Kernel.Records p k k' := by
  rw [mapPage_eq] at hrun
  obtain ⟨k₁, hk₁, hrun⟩ := Option.bind_eq_some_iff.mp hrun
  obtain ⟨r₂, hr₂, hrun⟩ := Option.bind_eq_some_iff.mp hrun
  obtain ⟨r₃, hr₃, hrun⟩ := Option.bind_eq_some_iff.mp hrun
  obtain ⟨r₄, hr₄, htrack⟩ := Option.bind_eq_some_iff.mp hrun
  have h₁ := ensurePgd_records hcontrol hk₁
  have h₂ := mapLevel_records h₁.control hr₂
  have h₃ := mapLevel_records h₂.control hr₃
  have h₄ := mapLevel_records h₃.control hr₄
  refine (((h₁.trans h₂).trans h₃).trans h₄).trans ?_
  obtain ⟨-, rfl⟩ := trackUserPage_some htrack
  refine ⟨h₄.control, le_rfl, [], ?_, fun h ↦ absurd h (lt_irrefl _)⟩
  rw [modifyMm_mm, List.append_nil]
  rfl

/-! ## The page itself -/

variable {i : Nat} (hi : i < N_PAGES) (hfree : k.memory.memoryPages i = false)
include hi hfree

theorem takePage_pcb : (k.takePage i).pcb p = k.pcb p := by
  refine (Confined.takePage (P := ∅) k (Set.mem_singleton (pageAddress i))).pcb p
    (Set.notMem_empty p) ?_
  rintro a ha rfl
  exact Memory.not_inUse hi hfree (hcontrol _ ha)

omit hcontrol in
/-- Only a free page is touched. -/
theorem takePage_free_confined : Confined {pageAddress i} ∅ k (k.takePage i) ∧
    ∀ a ∈ ({pageAddress i} : Set Nat), ¬ k.memory.InUse a := by
  refine ⟨.takePage k (Set.mem_singleton _), ?_⟩
  rintro a rfl
  exact Memory.not_inUse hi hfree

/-- Taking a page for another purpose leaves the tables as they are. -/
theorem takePage_tables (hwf : k.TablesWellFormed p) :
    (k.takePage i).TablesWellFormed p ∧ ∀ virtualAddress,
      (k.takePage i).tablesNeeded p virtualAddress = k.tablesNeeded p virtualAddress := by
  have hpcb := takePage_pcb hcontrol hi hfree
  rw [Kernel.TablesWellFormed, hpcb]
  by_cases hpgd : (k.pcb p).mm.pgd = 0
  · refine ⟨.inl hpgd, fun va ↦ ?_⟩
    rw [Kernel.tablesNeeded, Kernel.tablesNeeded, hpcb, if_pos hpgd, if_pos hpgd]
  · have hroot := hwf.resolve_left hpgd
    obtain ⟨hconfined, hout⟩ := takePage_free_confined hi hfree
    have htables := fun {t} (ht : k.memory.InUse t) ↦ hconfined.tables t fun hmem ↦ hout t hmem ht
    have hagree := hconfined.child hout hroot
    have hwalk := fun ρ (hρ : ρ.length ≤ 3) ↦ hconfined.walk hout hroot (ρ := ρ) hρ
    refine ⟨.inr ⟨?_, fun ρ t j hρ ht hne ↦ ?_, fun ρ ρ' t hρ hρ' ht ht' ↦ ?_⟩, fun va ↦ ?_⟩
    · rintro t ⟨ρ, hρ, ht⟩
      rw [hwalk ρ hρ] at ht
      exact (takePage_inUse hi t).mpr (.inl (hroot.inUse t ⟨ρ, hρ, ht⟩))
    · rw [hwalk ρ hρ.le] at ht
      rw [htables (hroot.inUse t ⟨ρ, hρ.le, ht⟩)] at hne
      rw [hagree ρ t j (by omega) ht]
      exact hroot.entry ρ t j hρ ht hne
    · rw [hwalk ρ hρ] at ht
      rw [hwalk ρ' hρ'] at ht'
      exact hroot.tree hρ hρ' ht ht'
    · rw [Kernel.tablesNeeded, Kernel.tablesNeeded, hpcb, if_neg hpgd, if_neg hpgd]
      exact TableTree.missing_of_agree (d := 4) hagree (by simp [Kernel.tablePath])

/-- No translation changes when a page is taken. -/
theorem takePage_leafEntry (hwf : k.TablesWellFormed p) (virtualAddress : Nat) :
    (k.takePage i).leafEntry ((k.takePage i).pcb p).mm.pgd virtualAddress =
      k.leafEntry (k.pcb p).mm.pgd virtualAddress := by
  obtain ⟨hconfined, hout⟩ := takePage_free_confined hi hfree
  exact hconfined.leafEntry hout hwf (congrArg (·.mm.pgd) (takePage_pcb hcontrol hi hfree)) _

end

/-! ## `allocate_user_page` -/

section

variable (hwf : k.TablesWellFormed p) (hcontrol : ∀ a, p.pageStart = some a → k.memory.InUse a)
include hwf hcontrol

omit hcontrol in
/-- Without a free page nothing happens. -/
theorem allocateUserPage_nothing (hfull : k.memory.free = 0) :
    ∃ k', k.allocateUserPage p virtualAddress = some (0, k') ∧
      AllOrNothing p virtualAddress k 0 k' := by
  obtain ⟨i, hi, hfree, -⟩ | ⟨-, hpage⟩ := k.getFreePage_cases
  · have := Kernel.takePage_free hi hfree
    omega
  · refine ⟨k.mapMemory fun m ↦ { m with failedAllocations := m.failedAllocations + 1 }, ?_,
      .inr ⟨rfl, rfl, rfl, rfl⟩, ⟨fun _ _ ↦ rfl, rfl⟩, ?_, [], ?_, nofun⟩
    · rw [allocateUserPage_eq, hpage]
      rfl
    · exact fun htable ↦ Kernel.IsTable.ne_zero (k := k) htable hwf rfl
    · exact (List.append_nil _).symm

/-- With a page for everything the page is mapped. -/
theorem allocateUserPage_all {i : Nat} (hi : i < N_PAGES) (hfree : k.memory.memoryPages i = false)
    (hrun : (k.takePage i).mapPage p virtualAddress (pageAddress i) = some k')
    (hfail : k'.failures = k.failures) :
    AllOrNothing p virtualAddress k (pageAddress i + VA_START) k' ∧
      k.tablesNeeded p virtualAddress + 1 ≤ k.memory.free ∧
      k.tablesNeeded p virtualAddress ≤ MAX_PROCESS_PAGES - (k.pcb p).mm.nKernelPages ∧
      (k.pcb p).mm.nUserPages < MAX_PROCESS_PAGES := by
  have hpcb := takePage_pcb hcontrol hi hfree
  obtain ⟨hwf', hneed⟩ := takePage_tables hcontrol hi hfree hwf
  have hcontrol' : ∀ a, p.pageStart = some a → (k.takePage i).memory.InUse a := fun a ha ↦
    (takePage_inUse hi a).mpr (.inl (hcontrol a ha))
  have hlt := pageAddress_lt hi
  have hcount := Kernel.takePage_free hi hfree
  obtain ⟨hmaps, huser, hafford, hnull⟩ := mapPage_grown hwf' hcontrol' hrun hfail
    (pageAddress_mod i) (by unfold HIGH_MEMORY at hlt; omega)
  have henough := hafford.enough
  have hroom := hafford.room
  rw [hneed] at henough hroom
  rw [hpcb] at huser hroom
  obtain ⟨new, -, hnew, -, hlist⟩ := hmaps.newTables
  rw [hpcb] at hlist
  refine ⟨⟨.inl ⟨i, hi, hfree, rfl, hmaps.leafEntry, hmaps.translate⟩, ?_, ?_, new, hlist, ?_⟩, ?_,
    hroom, huser⟩
  · exact (Kernel.NullKept.takePage k i).trans hnull
  · exact fun htable ↦ htable.ne_zero hmaps.wellFormed rfl
  · exact fun hzero ↦ ((hnew 0).mp hzero).1.ne_zero hmaps.wellFormed rfl
  · omega

omit hwf hcontrol in
/-- With a page for itself, it is up to `map_page`. -/
theorem allocateUserPage_take {i : Nat} (hpage : k.getFreePage = (pageAddress i, k.takePage i)) :
    k.allocateUserPage p virtualAddress =
      ((k.takePage i).mapPage p virtualAddress (pageAddress i)).map fun k ↦
        (pageAddress i + VA_START, k) := by
  rw [allocateUserPage_eq, hpage]
  exact if_neg (pageAddress_pos i).ne'

/-- Where it is all or nothing, no allocation of a table has failed: the page 0 would be
recorded. -/
theorem AllOrNothing.condition {r : Nat} (hrun : k.allocateUserPage p virtualAddress = some (r, k'))
    (h : AllOrNothing p virtualAddress k r k') :
    k.memory.free = 0 ∨ (k.tablesNeeded p virtualAddress + 1 ≤ k.memory.free ∧
      k.tablesNeeded p virtualAddress ≤ MAX_PROCESS_PAGES - (k.pcb p).mm.nKernelPages ∧
      (k.pcb p).mm.nUserPages < MAX_PROCESS_PAGES) := by
  obtain ⟨i, hi, hfree, hpage⟩ | ⟨hfull, -⟩ := k.getFreePage_cases
  · rw [allocateUserPage_take hpage] at hrun
    obtain ⟨k', hmap, heq⟩ := Option.map_eq_some_iff.mp hrun
    obtain ⟨rfl, rfl⟩ := Prod.mk.inj heq
    have hrecords :=
      mapPage_records (fun a ha ↦ (takePage_inUse hi a).mpr (.inl (hcontrol a ha))) hmap
    obtain ⟨new, hlist, hzero⟩ := hrecords.recorded
    obtain ⟨new', hlist', hnot⟩ := h.recorded
    have hsame : new = new' := by
      rw [takePage_pcb hcontrol hi hfree, hlist'] at hlist
      exact (List.append_cancel_left hlist).symm
    have hfail : k'.failures = k.failures := by
      by_contra hne
      have hlt : (k.takePage i).failures < k'.failures :=
        Nat.lt_of_le_of_ne hrecords.failures (Ne.symm hne)
      exact hnot (hsame ▸ hzero hlt)
    exact .inr (allocateUserPage_all hwf hcontrol hi hfree hmap hfail).2
  · exact .inl hfull

/-- With pages for the tables as well, a free page is taken and mapped. -/
theorem allocateUserPage_maps (henough : k.tablesNeeded p virtualAddress + 1 ≤ k.memory.free)
    (hroom : k.tablesNeeded p virtualAddress ≤ MAX_PROCESS_PAGES - (k.pcb p).mm.nKernelPages)
    (huser : (k.pcb p).mm.nUserPages < MAX_PROCESS_PAGES) :
    ∃ i < N_PAGES, k.memory.memoryPages i = false ∧ ∃ k',
      (k.takePage i).mapPage p virtualAddress (pageAddress i) = some k' ∧
      k'.failures = (k.takePage i).failures ∧
      k.allocateUserPage p virtualAddress = some (pageAddress i + VA_START, k') := by
  obtain ⟨i, hi, hfree, hpage⟩ | ⟨hfull, -⟩ := k.getFreePage_cases
  · have hcount := Kernel.takePage_free hi hfree
    have hpcb := takePage_pcb hcontrol hi hfree
    obtain ⟨hwf', hneed⟩ := takePage_tables hcontrol hi hfree hwf
    have hcontrol' : ∀ a, p.pageStart = some a → (k.takePage i).memory.InUse a := fun a ha ↦
      (takePage_inUse hi a).mpr (.inl (hcontrol a ha))
    have hafford : (k.takePage i).Affords p ((k.takePage i).tablesNeeded p virtualAddress) := by
      rw [hneed]
      refine ⟨by omega, ?_⟩
      rw [hpcb]
      exact hroom
    rw [← hpcb] at huser
    have hreturns : ∃ k', (k.takePage i).mapPage p virtualAddress (pageAddress i) = some k' ∧
        k'.failures = (k.takePage i).failures := mapPage_returns hwf' hcontrol' hafford huser
    obtain ⟨k', hmap, hfail⟩ := hreturns
    refine ⟨i, hi, hfree, k', hmap, hfail, ?_⟩
    rw [allocateUserPage_take hpage, hmap]
    rfl
  · omega

/-- It is all or nothing if there are pages for the tables as well. -/
theorem allocateUserPage_enough (henough : k.tablesNeeded p virtualAddress + 1 ≤ k.memory.free)
    (hroom : k.tablesNeeded p virtualAddress ≤ MAX_PROCESS_PAGES - (k.pcb p).mm.nKernelPages)
    (huser : (k.pcb p).mm.nUserPages < MAX_PROCESS_PAGES) :
    ∃ r k', k.allocateUserPage p virtualAddress = some (r, k') ∧
      AllOrNothing p virtualAddress k r k' := by
  obtain ⟨i, hi, hfree, k', hmap, hfail, hrun⟩ :=
    allocateUserPage_maps hwf hcontrol henough hroom huser
  exact ⟨_, k', hrun, (allocateUserPage_all hwf hcontrol hi hfree hmap hfail).1⟩

/-- The allocation of a user page is all or nothing exactly where there is no free page at all, or
where there are free pages for the tables of the address as well, and room in the arrays. -/
theorem all_or_nothing_iff :
    (∃ r k', k.allocateUserPage p virtualAddress = some (r, k') ∧
      AllOrNothing p virtualAddress k r k') ↔
    k.memory.free = 0 ∨ (k.tablesNeeded p virtualAddress + 1 ≤ k.memory.free ∧
      k.tablesNeeded p virtualAddress ≤ MAX_PROCESS_PAGES - (k.pcb p).mm.nKernelPages ∧
      (k.pcb p).mm.nUserPages < MAX_PROCESS_PAGES) := by
  constructor
  · rintro ⟨r, k', hrun, hall⟩
    exact hall.condition hwf hcontrol hrun
  · rintro (hfull | ⟨henough, hroom, huser⟩)
    · obtain ⟨k', hrun, hnothing⟩ := allocateUserPage_nothing hwf hfull
      exact ⟨0, k', hrun, hnothing⟩
    · exact allocateUserPage_enough hwf hcontrol henough hroom huser

end

/-- At boot, with `n` pages left. -/
theorem boot_free {n : Nat} (hn : n ≤ 5) : let _ := someCode; ∃ s : System, s.Reachable ∧
    s.kernel.currentProcess = .initProcess ∧ s.user = ∅ ∧ s.kernel.memory.free = n := by
  intro _
  let s := System.boot .roundRobin fun _ ↦ 0
  have hreach : s.Reachable := ⟨.roundRobin, _, .refl⟩
  have hfive : freeCells s.kernel.memory.memoryPages 5 = 5 := by decide
  have hpages : freeCells s.kernel.memory.memoryPages 5 ≤ s.kernel.memory.free :=
    freeCells_mono (by decide)
  obtain ⟨s', hreach', huser, hcur, -, hfree, -⟩ := hreach.mallocs (n := n) (by omega)
  exact ⟨s', hreach', hcur, huser, hfree⟩

/-- The first page of a process, with five pages left. -/
theorem all_or_nothing_last : let _ := someCode; ∃ s : System, s.Reachable ∧
    s.kernel.memory.free = 5 ∧ ∃ r k', s.kernel.allocateUserPage .initProcess 0 = some (r, k') ∧
      AllOrNothing .initProcess 0 s.kernel r k' := by
  intro _
  obtain ⟨s, hreach, hcur, huser, hfree⟩ := boot_free le_rfl
  have hlive : .initProcess ∈ s.live := hcur ▸ hreach.sound.current_live
  have hempty := hreach.sound.owned.empty .initProcess hlive
    (by rw [huser]; exact Set.notMem_empty _)
  have hneed := tablesNeeded_le s.kernel .initProcess 0
  refine ⟨s, hreach, hfree, (all_or_nothing_iff (.inl hempty.2.2) nofun).mpr (.inr ⟨?_, ?_, ?_⟩)⟩
  · omega
  · rw [hempty.2.1]
    exact hneed.trans (by decide)
  · rw [hempty.1]
    decide

/-- With three pages left, the last two tables of a process that gets its first page are the page
0. -/
theorem all_or_nothing_false : ¬ ∀ (k : Kernel Pointers) (p : PcbPtr) (virtualAddress : Nat),
    k.TablesWellFormed p → (∀ a, p.pageStart = some a → k.memory.InUse a) →
    ∃ r k', k.allocateUserPage p virtualAddress = some (r, k') ∧
      AllOrNothing p virtualAddress k r k' := by
  intro hall
  let _ := someCode
  obtain ⟨s, hreach, hcur, huser, hfree⟩ := boot_free (show 3 ≤ 5 by decide)
  have hlive : .initProcess ∈ s.live := hcur ▸ hreach.sound.current_live
  have hempty := hreach.sound.owned.empty .initProcess hlive
    (by rw [huser]; exact Set.notMem_empty _)
  have hneed : s.kernel.tablesNeeded .initProcess 0 = 4 := if_pos hempty.2.2
  obtain ⟨r, k', hrun, hallOrNothing⟩ := hall s.kernel .initProcess 0 (.inl hempty.2.2) nofun
  rcases hallOrNothing.condition (.inl hempty.2.2) nofun hrun with hfull | ⟨henough, -⟩
  · omega
  · omega

end DemosOS
