import DemosOS.Mem.Children

/-!
# Forks that fail

`copy_process` takes a page for the control block before it makes its checks, and disables
preemption before that.  Its error returns give neither back.  What `copy_virtual_memory` returns is
not looked at: a child whose memory could not be copied is registered like any other.
-/

namespace DemosOS

open Lib Kernel

/-! ## Code of the memory -/

/-- From `k` to `k'` the memory, control blocks and the links of control blocks in pages may have
changed, and nothing else.  Nothing is known of the pages. -/
abbrev MemoryOnly (k k' : Kernel Pointers) : Prop := Confined Set.univ Set.univ k k'

namespace MemoryOnly

variable {k k' : Kernel Pointers} {p : PcbPtr} {virtualAddress page table shift : Nat}

theorem mapMemory (k : Kernel Pointers) (f : Memory → Memory) : MemoryOnly k (k.mapMemory f) :=
  Confined.mapMemory k (fun _ hi ↦ absurd trivial hi) (fun _ ha ↦ absurd trivial ha)
    (fun _ ha ↦ absurd trivial ha) fun _ hi ↦ absurd trivial hi

theorem modifyPcb (k : Kernel Pointers) (p : PcbPtr) (f : PCB → PCB) :
    MemoryOnly k (k.mapGlobals (·.modifyPcb p f)) := Confined.modifyPcb k (Set.mem_univ p) f

theorem clearPage (k : Kernel Pointers) (page : Nat) : MemoryOnly k (k.clearPage page) where
  rest := rfl
  ends := rfl
  pcb p hp := absurd (Set.mem_univ p) hp
  next p hout := by
    cases p with
    | initProcess => rfl
    | page i => exact absurd trivial hout.notMem
  marks _ hi := absurd trivial hi
  tables _ ha := absurd trivial ha
  records _ ha := absurd trivial ha
  bytes _ hi := absurd trivial hi

theorem getFreePage (k : Kernel Pointers) : MemoryOnly k k.getFreePage.2 := by
  obtain ⟨i, -, -, h⟩ | ⟨-, h⟩ := k.getFreePage_cases
  · rw [h]
    exact (mapMemory k _).trans (clearPage _ _)
  · rw [h]
    exact mapMemory k fun m ↦ { m with failedAllocations := m.failedAllocations + 1 }

theorem trackKernelPage (h : k.trackKernelPage p page = some k') : MemoryOnly k k' := by
  unfold Kernel.trackKernelPage at h
  split_ifs at h
  rw [← Option.some.inj h]
  exact modifyPcb k p _

theorem trackUserPage {page : UserPage} (h : k.trackUserPage p page = some k') :
    MemoryOnly k k' := by
  unfold Kernel.trackUserPage at h
  split_ifs at h
  rw [← Option.some.inj h]
  exact modifyPcb k p _

theorem ensurePgd (h : k.ensurePgd p = some k') : MemoryOnly k k' := by
  unfold Kernel.ensurePgd at h
  split_ifs at h
  · refine (getFreePage k).trans ?_
    exact ((modifyPcb _ p _).trans (clearPage _ _)).trans (trackKernelPage h)
  · rw [← Option.some.inj h]
    exact .refl k

theorem mapLevel {r : Nat × Kernel Pointers}
    (h : k.mapLevel p table shift virtualAddress = some r) : MemoryOnly k r.2 := by
  by_cases hentry : k.memory.tables table (tableIndex shift virtualAddress) = 0
  · rw [mapLevel_create hentry] at h
    obtain ⟨k', hk', rfl⟩ := Option.map_eq_some_iff.mp h
    exact (getFreePage k).trans
      (((clearPage _ _).trans (mapMemory _ _)).trans (trackKernelPage hk'))
  · rw [mapLevel_follow hentry] at h
    rw [← Option.some.inj h]
    exact .refl k

theorem mapPage (h : k.mapPage p virtualAddress page = some k') : MemoryOnly k k' := by
  rw [mapPage_eq] at h
  obtain ⟨k₁, hk₁, h⟩ := Option.bind_eq_some_iff.mp h
  obtain ⟨⟨pud, k₂⟩, hk₂, h⟩ := Option.bind_eq_some_iff.mp h
  obtain ⟨⟨pmd, k₃⟩, hk₃, h⟩ := Option.bind_eq_some_iff.mp h
  obtain ⟨⟨pte, k₄⟩, hk₄, h⟩ := Option.bind_eq_some_iff.mp h
  have htables := ((ensurePgd hk₁).trans (mapLevel hk₂)).trans ((mapLevel hk₃).trans (mapLevel hk₄))
  exact htables.trans ((mapMemory k₄ _).trans (trackUserPage h))

theorem allocateUserPage {r : Nat × Kernel Pointers}
    (h : k.allocateUserPage p virtualAddress = some r) : MemoryOnly k r.2 := by
  rw [allocateUserPage_eq, Kernel.mapUserPage] at h
  split_ifs at h
  · rw [← Option.some.inj h]
    exact getFreePage k
  · obtain ⟨k', hk', rfl⟩ := Option.map_eq_some_iff.mp h
    exact (getFreePage k).trans (mapPage hk')

theorem copyPages {q : PcbPtr} {l : List Nat} {r : Int × Kernel Pointers}
    (h : k.copyPages p q l = some r) : MemoryOnly k r.2 := by
  induction l generalizing k with
  | nil =>
      rw [← Option.some.inj h]
      exact .refl k
  | cons i l ih =>
      obtain ⟨⟨address, k₁⟩, hk₁, h⟩ := Option.bind_eq_some_iff.mp h
      dsimp only at h
      split_ifs at h
      · rw [← Option.some.inj h]
        exact allocateUserPage hk₁
      · exact (allocateUserPage hk₁).trans
          (((clearPage _ _).trans (mapMemory _ _)).trans (ih h))

theorem allocateKernelPage (k : Kernel Pointers) : MemoryOnly k k.allocateKernelPage.2 := by
  have hpage := getFreePage k
  rw [Kernel.allocateKernelPage]
  dsimp only
  split_ifs
  · exact hpage
  · exact hpage

theorem prepareChild {flags function argument : Nat} {c : PcbPtr}
    (h : k.prepareChild flags function argument c = some k') :
    MemoryOnly k k' := by
  unfold Kernel.prepareChild at h
  split_ifs at h
  · rw [← Option.some.inj h]
    exact modifyPcb k c _
  · obtain ⟨r, hr, rfl⟩ := Option.map_eq_some_iff.mp h
    exact (modifyPcb k c _).trans (copyPages hr)

end MemoryOnly

/-! ## When a fork fails -/

section

variable [KernelCode] {k k' : Kernel Pointers} {flags function argument : Nat} {r : Int}

/-- Behind the checks there is no error: the new process gets the next pid, which is in range. -/
theorem createChild_value {address : Nat} (hroom : k.nProcesses < N_PROCESSES)
    (h : k.createChild flags function argument address = some (r, k')) : r = k.nProcesses := by
  obtain ⟨k₂, hk₂, h⟩ := Option.bind_eq_some_iff.mp h
  have hcount : k₂.nProcesses = k.nProcesses :=
    (MemoryOnly.prepareChild hk₂).nProcesses.trans rfl
  generalize PcbPtr.atAddress address = c at hk₂ h
  have hpcb := completeChild_pcb flags address c k₂
  obtain ⟨⟨r₁, k₃⟩, hadd, hr⟩ := Option.bind_eq_some_iff.mp h
  have hpid : ((k₂.completeChild flags address c).pcb c).pid =
      (k₂.completeChild flags address c).nProcesses := by
    rw [hpcb, Kernel.initialise]
    rfl
  have hready : ((k₂.completeChild flags address c).pcb c).state = .ready := by
    rw [hpcb, Kernel.initialise]
  obtain ⟨rfl, -⟩ := addProcessToScheduler_registered hadd (hcount.trans_lt hroom) hpid hready
  obtain ⟨rfl, -⟩ := Prod.mk.inj (Option.some.inj hr)
  exact congrArg Nat.cast hcount

/-- Where the checks succeed, the call does not return `-1`. -/
theorem copyProcess_value (hfree : 0 < k.memory.free) (hroom : k.nProcesses < N_PROCESSES)
    (h : k.copyProcess flags function argument = some (r, k')) : r = k.nProcesses := by
  obtain ⟨⟨r₁, k₁⟩, hcreate, h⟩ := Option.bind_eq_some_iff.mp h
  have hvalue : r₁ = k.nProcesses := by
    rw [createProcess_eq] at hcreate
    obtain ⟨i, -, -, buffer, -, hne, hpage⟩ | ⟨hfull, -⟩ :=
      (k.mapGlobals (·.preemptDisable)).allocateKernelPage_cases
    · rw [hpage] at hcreate
      dsimp only at hcreate
      have hcount : (takePage i (k.mapGlobals (·.preemptDisable))).nProcesses < N_PROCESSES := hroom
      rw [if_neg (not_or.mpr ⟨hne, Nat.not_le.mpr hcount⟩)] at hcreate
      exact (createChild_value hcount hcreate).trans rfl
    · exact absurd hfull hfree.ne'
  subst hvalue
  dsimp only at h
  rw [if_neg (by omega)] at h
  exact (Prod.mk.inj (Option.some.inj h)).1.symm

/-- What a call that fails must leave as it was. -/
structure Unchanged (k k' : Kernel Pointers) : Prop where
  marks : k'.memory.memoryPages = k.memory.memoryPages
  processes : k'.processes = k.processes
  nProcesses : k'.nProcesses = k.nProcesses
  queues : k'.queues = k.queues
  currentProcess : k'.currentProcess = k.currentProcess
  current : k'.current = k.current

/-- Where a check fails, so does the call.  It has disabled preemption, and it keeps the page that
it has taken, if there was one. -/
theorem copyProcess_refused (flags function argument : Nat)
    (hnot : ¬ (0 < k.memory.free ∧ k.nProcesses < N_PROCESSES)) :
    ∃ k', k.copyProcess flags function argument = some (-1, k') ∧
      ((k' = (k.mapGlobals (·.preemptDisable)).mapMemory fun m ↦
          { m with failedAllocations := m.failedAllocations + 1 }) ∨
        ∃ i < N_PAGES, k.memory.memoryPages i = false ∧
          k' = takePage i (k.mapGlobals (·.preemptDisable))) := by
  have hreturn : ∀ {k'}, (k.mapGlobals (·.preemptDisable)).createProcess flags function argument =
      some (-1, k') → k.copyProcess flags function argument = some (-1, k') := by
    intro k' hcreate
    rw [Kernel.copyProcess, hcreate]
    rfl
  obtain ⟨i, hi, hfree, buffer, -, hne, hpage⟩ | ⟨hfull, hpage⟩ :=
    (k.mapGlobals (·.preemptDisable)).allocateKernelPage_cases
  · have hcount : (takePage i (k.mapGlobals (·.preemptDisable))).nProcesses ≥ N_PROCESSES := by
      have hsome : 0 < k.memory.free := Nat.pos_of_ne_zero fun hzero ↦ by
        cases hfree.symm.trans (freeCells_eq_zero.mp hzero i hi)
      by_contra hlt
      exact hnot ⟨hsome, Nat.lt_of_not_le hlt⟩
    refine ⟨_, hreturn ?_, .inr ⟨i, hi, hfree, rfl⟩⟩
    rw [createProcess_eq, hpage]
    exact if_pos (.inr hcount)
  · refine ⟨_, hreturn ?_, .inl rfl⟩
    rw [createProcess_eq, hpage]
    exact if_pos (.inl rfl)

theorem copyProcess_fails (flags function argument : Nat)
    (hnot : ¬ (0 < k.memory.free ∧ k.nProcesses < N_PROCESSES)) :
    ∃ k', k.copyProcess flags function argument = some (-1, k') ∧ ¬ Unchanged k k' := by
  obtain ⟨k', hrun, rfl | ⟨i, -, hfree, rfl⟩⟩ := copyProcess_refused flags function argument hnot
  · -- the caller is left with preemption disabled
    refine ⟨_, hrun, fun hsame ↦ ?_⟩
    have hcurrent : k.preemptDisable.current = k.current := hsame.current
    have hcounter := congrArg PCB.preemptDisabled hcurrent
    have hone : k.preemptDisable.current.preemptDisabled = k.current.preemptDisabled + 1 :=
      congrArg PCB.preemptDisabled (k.modifyPcb_pcb_self k.currentProcess _)
    rw [hone] at hcounter
    omega
  · -- the page stays marked
    refine ⟨_, hrun, fun hsame ↦ ?_⟩
    have hmark : (takePage i (k.mapGlobals (·.preemptDisable))).memory.memoryPages i = true :=
      Function.update_self ..
    rw [hsame.marks] at hmark
    cases hmark.symm.trans hfree

/-- A failed fork changes nothing exactly where no fork fails: a page is free for the control block
and the process table has room. -/
theorem failed_fork_iff (k : Kernel Pointers) (flags function argument : Nat) :
    (∀ k', k.copyProcess flags function argument = some (-1, k') → Unchanged k k') ↔
      0 < k.memory.free ∧ k.nProcesses < N_PROCESSES := by
  constructor
  · intro hall
    by_contra hnot
    obtain ⟨k', hrun, hchanged⟩ := copyProcess_fails flags function argument hnot
    exact hchanged (hall k' hrun)
  · rintro ⟨hfree, hroom⟩ k' hrun
    have hvalue := copyProcess_value hfree hroom hrun
    omega

end

/-- The failing fork of a kernel without a free page: init stays non-preemptible. -/
theorem failed_fork_false : let _ := someCode; ¬ ∀ (k : Kernel Pointers)
    (flags function argument : Nat) (k' : Kernel Pointers),
      k.copyProcess flags function argument = some (-1, k') → Unchanged k k' := by
  intro _ hall
  let k := (Kernel.boot .roundRobin fun _ ↦ 0).mapMemory fun m ↦
    { m with memoryPages := fun _ ↦ true }
  have hfull : k.memory.free = 0 := freeCells_eq_zero.mpr fun _ _ ↦ rfl
  obtain ⟨k', hrun, hchanged⟩ := copyProcess_fails (k := k) PF_KTHREAD 0 0 (by omega)
  exact hchanged (hall k _ _ _ k' hrun)

/-! ## When the memory of a child is incomplete -/

/-- What a fork that reports exhaustion does: a pid is returned for a complete copy only, a failed
allocation makes the call return `-1`, and then no process has been linked. -/
structure Reported (s : System) (r : Int) (k' : Kernel Pointers) : Prop where
  complete : r ≠ -1 → ∃ c, Forked s ⟨k', s.held, insert c s.user⟩ c
  exhausted : s.kernel.failures < k'.failures → r = -1
  unlinked : r = -1 → ∀ q p, k'.Linked q p → s.kernel.Linked q p

namespace System.Sound

variable [KernelCode] {s : System} {k' : Kernel Pointers} {r : Int}

/-- A check fails: nothing is linked. -/
theorem reported_of_refused (h : s.Sound)
    (hnot : ¬ (0 < s.kernel.memory.free ∧ s.kernel.nProcesses < N_PROCESSES)) :
    ∃ k', s.kernel.copyProcess 0 0 0 = some (-1, k') ∧ Reported s (-1) k' := by
  obtain ⟨k', hrun, hk'⟩ := copyProcess_refused 0 0 0 hnot
  refine ⟨k', hrun, fun hne ↦ absurd rfl hne, fun _ ↦ rfl, fun _ q p hp ↦ ?_⟩
  obtain rfl | ⟨i, hi, hfree, rfl⟩ := hk'
  · exact hp
  · obtain ⟨a, ha⟩ := h.guarded.sched
    have htaken := ha.of_confined (takePage_confined (k := s.guarded.kernel) i)
      (fun p hp ↦ h.guarded.outside_free hp hi hfree) nofun
    have hqueue : p ∈ a.queues q := htaken.linked_iff.mp hp
    exact ha.linked_iff.mpr hqueue

/-- There are enough pages: the child is complete. -/
theorem reported_of_enough (h : s.Sound) (hu : s.kernel.currentProcess ∈ s.user)
    (hroom : s.kernel.nProcesses < N_PROCESSES) (hfree : 21 ≤ s.kernel.memory.free) :
    ∃ k', s.kernel.copyProcess 0 0 0 = some ((s.kernel.nProcesses : Int), k') ∧
      Reported s s.kernel.nProcesses k' := by
  obtain ⟨i, us, us', k₂, k', hcreate, hfail, hc⟩ := h.guarded.createProcess_copies hu hroom hfree
  have hcreate : (s.kernel.mapGlobals (·.preemptDisable)).createProcess 0 0 0 =
      some ((s.kernel.nProcesses : Int), k') := hcreate
  have hvalue : ¬ ((s.kernel.nProcesses : Int) < 0) := by omega
  refine ⟨k'.mapGlobals (·.preemptEnable), ?_, fun _ ↦ ⟨.page i, h.forked hu hc⟩, fun hlt ↦ ?_,
    fun he ↦ by omega⟩
  · rw [Kernel.copyProcess, hcreate, Option.bind_eq_bind, Option.bind_some]
    dsimp only
    rw [if_neg hvalue]
  · have hsame : (k'.mapGlobals (·.preemptEnable)).failures = s.kernel.failures := hfail
    omega

/-- There are too few: an allocation fails, and the call returns a pid. -/
theorem exhaustion_unnoticed (h : s.Sound) (hu : s.kernel.currentProcess ∈ s.user)
    (hroom : s.kernel.nProcesses < N_PROCESSES) (hsome : 0 < s.kernel.memory.free)
    (hfew : s.kernel.memory.free < 21) (hrun : s.kernel.copyProcess 0 0 0 = some (r, k')) :
    r = s.kernel.nProcesses ∧ s.kernel.failures < k'.failures := by
  refine ⟨copyProcess_value hsome hroom hrun, ?_⟩
  obtain ⟨⟨r₁, k₁⟩, hcreate, hrun⟩ := Option.bind_eq_some_iff.mp hrun
  have hcreate : s.guarded.kernel.createProcess 0 0 0 = some (r₁, k₁) := hcreate
  have hsame : k'.failures = k₁.failures := by
    dsimp only at hrun
    split_ifs at hrun
    · rw [← (Prod.mk.inj (Option.some.inj hrun)).2]
    · rw [← (Prod.mk.inj (Option.some.inj hrun)).2]
      rfl
  rw [createProcess_eq] at hcreate
  obtain ⟨i, hi, hmark, buffer, hbuffer, hne, hpage⟩ | ⟨hfull, -⟩ :=
    s.guarded.kernel.allocateKernelPage_cases
  · have hguard : ¬ (buffer = 0 ∨ (takePage i s.guarded.kernel).nProcesses ≥ N_PROCESSES) :=
      not_or.mpr ⟨hne, Nat.not_le.mpr hroom⟩
    rw [hpage] at hcreate
    dsimp only at hcreate
    rw [if_neg hguard, hbuffer, createChild_eq (PcbPtr.atAddress_page i) (Owned.takePage_pcb _ _)]
      at hcreate
    obtain ⟨k₂, hk₂, hregister⟩ := Option.bind_eq_some_iff.mp hcreate
    have hcount := takePage_free hi hmark
    have hshort := (h.guarded.prepareChild_takes hu hi hmark).short
      (by have : s.guarded.kernel.memory.free = s.kernel.memory.free := rfl; omega) k₂ hk₂
    rw [hsame, registerChild_failures hregister]
    exact hshort
  · exact absurd hfull hsome.ne'

end System.Sound

/-- For a process in user mode, `fork` reports that memory is exhausted exactly if a check fails
before the copy begins, or there are pages for everything: the control block, four tables and the
user pages. -/
theorem exhaustion_reported_iff [KernelCode] {s : System} (h : s.Sound)
    (hu : s.kernel.currentProcess ∈ s.user) :
    (∃ r k', s.kernel.copyProcess 0 0 0 = some (r, k') ∧ Reported s r k') ↔
      s.kernel.memory.free = 0 ∨ N_PROCESSES ≤ s.kernel.nProcesses ∨
        1 + 4 + MAX_PROCESS_PAGES ≤ s.kernel.memory.free := by
  have hneed : 1 + 4 + MAX_PROCESS_PAGES = 21 := rfl
  rw [hneed]
  by_cases hchecks : 0 < s.kernel.memory.free ∧ s.kernel.nProcesses < N_PROCESSES
  · obtain ⟨hsome, hroom⟩ := hchecks
    have hcondition : (s.kernel.memory.free = 0 ∨ N_PROCESSES ≤ s.kernel.nProcesses ∨
        21 ≤ s.kernel.memory.free) ↔ 21 ≤ s.kernel.memory.free := by omega
    rw [hcondition]
    constructor
    · rintro ⟨r, k', hrun, hreported⟩
      by_contra hfew
      obtain ⟨rfl, hfail⟩ := h.exhaustion_unnoticed hu hroom hsome (by omega) hrun
      have := hreported.exhausted hfail
      omega
    · intro henough
      obtain ⟨k', hrun, hreported⟩ := h.reported_of_enough hu hroom henough
      exact ⟨_, k', hrun, hreported⟩
  · obtain ⟨k', hrun, hreported⟩ := h.reported_of_refused hchecks
    exact iff_of_true ⟨-1, k', hrun, hreported⟩ (by omega)

/-- A process that calls `malloc` until `n` pages are free. -/
theorem System.Reachable.mallocs [KernelCode] {s : System} (h : s.Reachable) {n : Nat}
    (hn : n ≤ s.kernel.memory.free) : ∃ s' : System, s'.Reachable ∧ s'.user = s.user ∧
      s'.kernel.currentProcess = s.kernel.currentProcess ∧
      s'.kernel.nProcesses = s.kernel.nProcesses ∧ s'.kernel.memory.free = n ∧
      s'.kernel.current = s.kernel.current := by
  obtain ⟨d, hd⟩ := Nat.exists_eq_add_of_le hn
  induction d generalizing s with
  | zero => exact ⟨s, h, rfl, rfl, rfl, hd, rfl⟩
  | succ d ih =>
      obtain ⟨i, hi, hfree, buffer, hbuffer, hne, hpage⟩ | ⟨hfull, -⟩ :=
        s.kernel.allocateKernelPage_cases
      · have hmalloc : s.kernel.syscallMalloc = ((buffer : Int), s.kernel.takePage i) := by
          rw [Kernel.syscallMalloc, hpage]
          dsimp only
          rw [if_neg hne]
        let s₁ : System := ⟨s.kernel.takePage i, if (buffer : Int) = -1 then s.held
          else s.held ++ [(buffer : Int).toNat - VA_START], s.user⟩
        have hstep : System.Step s s₁ := ⟨.malloc, ⟨buffer, hmalloc, rfl, rfl⟩, rfl⟩
        have hreach : s₁.Reachable := by
          obtain ⟨algorithm, timerClo, hsteps⟩ := h
          exact ⟨algorithm, timerClo, hsteps.tail hstep⟩
        have hcount : s₁.kernel.memory.free + 1 = s.kernel.memory.free := takePage_free hi hfree
        have hcurrent : s₁.kernel.current = s.kernel.current :=
          (Confined.takePage _ (Set.mem_singleton _)).pcb _ (Set.notMem_empty _)
            (h.sound.outside_free h.sound.current_live hi hfree)
        obtain ⟨s', hreach', huser, hcur, hn', hfree', hcurrent'⟩ :=
          ih hreach (by omega) (by omega)
        exact ⟨s', hreach', huser, hcur, hn', hfree', hcurrent'.trans hcurrent⟩
      · omega

/-- The process of `userRun`, with `n` pages free. -/
theorem userRun_free {n : Nat} (hn : n ≤ 21) : let _ := someCode; ∃ s : System, s.Reachable ∧
    s.kernel.currentProcess ∈ s.user ∧ s.kernel.nProcesses = 2 ∧ s.kernel.memory.free = n := by
  intro _
  have huser : userRun.map (fun k ↦
      (k.currentProcess, k.nProcesses, decide (21 ≤ freeCells k.memory.memoryPages 64))) =
      some (.page 0, 2, true) := by decide +kernel
  obtain ⟨s, hreach, hk, -, husers⟩ := userRun_spec
  rw [← hk] at huser
  obtain ⟨hcur, h⟩ := Prod.mk.inj (Option.some.inj huser)
  obtain ⟨hcount, hfree⟩ := Prod.mk.inj h
  have hpages : freeCells s.kernel.memory.memoryPages 64 ≤ s.kernel.memory.free :=
    freeCells_mono (by decide)
  have henough := of_decide_eq_true hfree
  obtain ⟨s', hreach', husers', hcur', hcount', hfree', -⟩ := hreach.mallocs (n := n) (by omega)
  refine ⟨s', hreach', ?_, hcount'.trans hcount, hfree'⟩
  rw [husers', husers, hcur', hcur]
  rfl

/-- With the last 21 pages free, the fork succeeds. -/
theorem exhaustion_reported_last : let _ := someCode; ∃ (s : System) (r : Int)
    (k' : Kernel Pointers), s.Reachable ∧ s.kernel.memory.free = 21 ∧
      s.kernel.copyProcess 0 0 0 = some (r, k') ∧ Reported s r k' := by
  intro _
  obtain ⟨s, hreach, hu, -, hfree⟩ := userRun_free le_rfl
  obtain ⟨r, k', hrun, hreported⟩ :=
    (exhaustion_reported_iff hreach.sound hu).mpr (.inr (.inr hfree.ge))
  exact ⟨s, r, k', hreach, hfree, hrun, hreported⟩

/-- With 20 pages left a process in user mode forks: the page for the last user page is missing, and
the child is registered all the same. -/
theorem exhaustion_reported_false : let _ := someCode; ¬ ∀ s : System, s.Sound →
    s.kernel.currentProcess ∈ s.user →
    ∃ r k', s.kernel.copyProcess 0 0 0 = some (r, k') ∧ Reported s r k' := by
  intro _ hall
  obtain ⟨s, hreach, hu, hcount, hfree⟩ := userRun_free (show 20 ≤ 21 by decide)
  obtain ⟨r, k', hrun, hreported⟩ := hall s hreach.sound hu
  have hroom : s.kernel.nProcesses < N_PROCESSES := by
    rw [hcount]
    decide
  obtain ⟨rfl, hfail⟩ := hreach.sound.exhaustion_unnoticed hu hroom (by omega) (by omega) hrun
  have := hreported.exhausted hfail
  omega

end DemosOS
