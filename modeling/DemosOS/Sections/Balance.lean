import DemosOS.Sections.Window

/-!
# The balance of `preempt_disable` and `preempt_enable`

A process that is again where it was, after any number of system calls, ticks and switches to other
processes, has the same counter, unless `copy_process` has refused one of its calls: the return
statement behind the first check leaves the critical section open.
-/

namespace DemosOS

open Lib Kernel

/-- A step of `copy_process` on behalf of `p` finds a free page and room in the table. -/
def ForkFits (p : PcbPtr) (e : Event Choice) (c : SectionConfig) : Prop :=
  ∀ flags function argument rest, e = .act .proceed → c.shared.executing = p →
    c.point p = .forking flags function argument :: rest → c.shared.kernel.CanFork

section

variable [KernelImage] [KernelCode] {c c₁ c' : SectionConfig} {p : PcbPtr}

/-- Runs in which `copy_process` refuses no call of `p`. -/
def FittingStep (p : PcbPtr) : SectionConfig → SectionConfig → Prop :=
  sectionMachine.Step fun e c ↦ SectionEnabled e c ∧ ForkFits p e c

/-- The refused calls of one step. -/
theorem refused_of_next {e : Event Choice} (h : SectionInv c)
    (hnext : sectionMachine.next e c = some c') :
    (ForkFits p e c ∧ c'.shared.refused p = c.shared.refused p) ∨
      (¬ ForkFits p e c ∧ c'.shared.refused p = c.shared.refused p + 1) := by
  obtain ⟨choice, s, l, rfl, hact, rfl⟩ := sectionNext_cases hnext
  obtain ⟨service, rfl, htop, hstart⟩ | ⟨place, rest, new, rfl, htop, hstep, rfl⟩ |
    ⟨b, k', rfl, hentry, rfl, rfl⟩ | ⟨mis, fifo, fifo', k', rfl, hirq, rfl, rfl⟩ |
    ⟨k', rfl, rfl, rfl⟩ := sectionAct_cases hact
  · have hcur := h.current_eq (by simp [htop])
    obtain ⟨k', hk', -⟩ := Service.start_turn h.registry service hcur
    rw [hstart] at hk'
    obtain rfl : s = c.shared.withKernel k' := hk'
    exact .inl ⟨nofun, rfl⟩
  · -- another place than that of `copy_process`
    have hplace : (∀ flags function argument, place ≠ .forking flags function argument) →
        ForkFits p (.act .proceed) c := by
      intro hnot flags function argument rest' _ hp htop'
      subst hp
      exact absurd (List.cons.inj (htop.symm.trans htop')).1 (hnot _ _ _)
    obtain ⟨k', hcode, rfl, -, -⟩ | ⟨next, rfl, rfl, rfl⟩ | ⟨next, rfl, rfl, rfl⟩ |
      ⟨flags, function, argument, k', q, rfl, hcan, rfl, rfl, -⟩ |
      ⟨flags, function, argument, k', rfl, hcan, rfl, rfl, -⟩ := h.step_cases htop hstep
    · refine .inl ⟨hplace ?_, rfl⟩
      rintro flags function argument rfl
      exact hcode
    · exact .inl ⟨hplace nofun, rfl⟩
    · exact .inl ⟨hplace nofun, rfl⟩
    · exact .inl ⟨fun _ _ _ _ _ _ _ ↦ hcan, rfl⟩
    · by_cases hp : c.shared.executing = p
      · subst hp
        exact .inr ⟨fun hfits ↦ hcan (hfits _ _ _ rest rfl rfl htop), Function.update_self ..⟩
      · exact .inl ⟨fun _ _ _ _ _ he _ ↦ absurd he hp, Function.update_of_ne (Ne.symm hp) ..⟩
  · exact .inl ⟨nofun, rfl⟩
  · exact .inl ⟨nofun, rfl⟩
  · exact .inl ⟨nofun, rfl⟩

/-- Nobody takes a refused call back. -/
theorem refused_mono (h : SectionInv c) (hsteps : Relation.ReflTransGen SectionStep c c') :
    c.shared.refused p ≤ c'.shared.refused p := by
  induction hsteps with
  | refl => exact Nat.le_refl _
  | tail hrun hstep ih =>
      obtain ⟨e, -, hnext⟩ := hstep
      obtain ⟨-, hsame⟩ | ⟨-, hmore⟩ := refused_of_next (p := p) (h.run hrun) hnext
      · exact ih.trans hsame.ge
      · exact ih.trans (hmore ▸ Nat.le_succ _)

/-- A run refuses no call of a process if and only if all its steps fit. -/
theorem refused_eq_iff (h : SectionInv c) (hsteps : Relation.ReflTransGen SectionStep c c') :
    c'.shared.refused p = c.shared.refused p ↔ Relation.ReflTransGen (FittingStep p) c c' := by
  constructor
  · intro hsame
    induction hsteps with
    | refl => exact .refl
    | tail hrun hstep ih =>
        have hle := refused_mono (p := p) h hrun
        obtain ⟨e, henabled, hnext⟩ := hstep
        obtain ⟨hfits, heq⟩ | ⟨-, hmore⟩ := refused_of_next (p := p) (h.run hrun) hnext
        · exact (ih (heq.symm.trans hsame)).tail ⟨e, ⟨henabled, hfits⟩, hnext⟩
        · omega
  · intro hfitting
    clear hsteps
    induction hfitting with
    | refl => rfl
    | tail hrun hstep ih =>
        obtain ⟨e, ⟨-, hfits⟩, hnext⟩ := hstep
        have hrun : Relation.ReflTransGen SectionStep c _ :=
          Relation.ReflTransGen.mono (fun _ _ ⟨e, he, hnext⟩ ↦ ⟨e, he.1, hnext⟩) _ _ hrun
        obtain ⟨-, heq⟩ | ⟨hnot, -⟩ := refused_of_next (p := p) (h.run hrun) hnext
        · exact heq.trans ih
        · exact absurd hfits hnot

/-- A process that leaves `ret_from_fork` is in no critical section. -/
theorem born_balanced (h : SectionInv c) (hstep : SectionStep c c')
    (hstarting : .starting ∈ c.point p) (hstarted : .starting ∉ c'.point p) :
    c'.point p = [] ∧ (c'.shared.kernel.pcb p).preemptDisabled = 0 := by
  obtain ⟨hpoint, hnone⟩ := h.newborn p hstarting
  have h' : SectionInv c' := h.run (.single hstep)
  obtain ⟨e, -, hnext⟩ := hstep
  have hsame : c'.shared.refused p = c.shared.refused p := by
    obtain ⟨-, hsame⟩ | ⟨hnot, -⟩ := refused_of_next (p := p) h hnext
    · exact hsame
    · exact absurd (fun _ _ _ _ _ _ htop ↦ nomatch hpoint.symm.trans htop) hnot
  have hknown : c'.shared.kernel.Known p := by
    by_contra hunknown
    exact hstarted ((h'.unborn p hunknown).1 ▸ List.mem_singleton_self _)
  have hnil : c'.point p = [] := by
    obtain ⟨choice, s, l, rfl, hact, rfl⟩ := sectionNext_cases hnext
    dsimp only at hstarted ⊢
    by_cases hp : p = c.shared.executing
    · subst hp
      rw [Function.update_self] at hstarted ⊢
      rw [hpoint] at hact
      have hstays : .starting ∈ [Place.starting] := List.mem_singleton_self _
      obtain ⟨service, rfl, htop, -⟩ | ⟨place, rest, new, rfl, htop, hstep, rfl⟩ |
        ⟨b, k', rfl, hentry, rfl, rfl⟩ | ⟨mis, fifo, fifo', k', rfl, hirq, rfl, rfl⟩ |
        ⟨k', rfl, rfl, rfl⟩ := sectionAct_cases hact
      · cases htop
      · obtain ⟨rfl, rfl⟩ := List.cons.inj htop
        obtain ⟨-, rfl⟩ := Prod.mk.inj (Option.some.inj hstep)
        rfl
      · split_ifs at hstarted
        · exact absurd (List.mem_cons_of_mem _ hstays) hstarted
        · exact absurd hstays hstarted
      · exact absurd hstays hstarted
      · exact absurd hstays hstarted
    · rw [Function.update_of_ne hp] at hstarted
      exact absurd hstarting hstarted
  refine ⟨hnil, ?_⟩
  rw [h'.counter p hknown, hnil, hsame, hnone]
  rfl

/-- The critical sections are balanced along exactly the runs that refuse no call, and a new process
enters its own code outside of them. -/
theorem preempt_balanced (h : SectionReachable c)
    (hsteps : Relation.ReflTransGen SectionStep c c') :
    (∀ p, c.shared.kernel.Known p → c'.point p = c.point p →
      ((c'.shared.kernel.pcb p).preemptDisabled = (c.shared.kernel.pcb p).preemptDisabled ↔
        Relation.ReflTransGen (FittingStep p) c c')) ∧
    ∀ c'' p, SectionStep c' c'' → .starting ∈ c'.point p → .starting ∉ c''.point p →
      c''.point p = [] ∧ (c''.shared.kernel.pcb p).preemptDisabled = 0 := by
  have hinv := h.inv
  have hinv' := hinv.run hsteps
  constructor
  · intro p hp hpoint
    have hp' := hinv.known_of_run hsteps hp
    rw [← refused_eq_iff hinv hsteps, hinv.counter p hp, hinv'.counter p hp', hpoint]
    omega
  · exact fun c'' p hstep hstarting hstarted ↦ born_balanced hinv' hstep hstarting hstarted

end

/-- init creates a kernel thread and yields to it; the thread blocks at once. -/
def thereAndBack : List (Event Choice) :=
  toSwitch ++ List.replicate 2 (.act .proceed) ++
    .act (.call (.block .waitingUartInput)) :: List.replicate 6 (.act .proceed)

/-- init is back where it was, with the counter it had. -/
theorem preempt_balanced_back : let _ := someImage; let _ := someCode
    ∃ c : SectionConfig, sectionMachine.run SimpleSection thereAndBack
        (sectionBoot .roundRobin fun _ ↦ 0) = some c ∧
      c.shared.executing = .initProcess ∧ c.point .initProcess = [] ∧
      c.point (.page 0) = [.resuming] ∧
      Relation.ReflTransGen (FittingStep .initProcess) (sectionBoot .roundRobin fun _ ↦ 0) c := by
  intro _ _
  have hrun : (sectionMachine.run SimpleSection thereAndBack
      (sectionBoot .roundRobin fun _ ↦ 0)).any (fun c ↦ c.shared.executing = .initProcess ∧
        c.point .initProcess = [] ∧ c.point (.page 0) = [.resuming] ∧
        (c.shared.kernel.pcb .initProcess).preemptDisabled = 0) = true := by
    decide +kernel
  obtain ⟨c, hc, hprop⟩ := (Option.any_eq_true _ _).mp hrun
  obtain ⟨hexec, hpoint, hthread, hcount⟩ := of_decide_eq_true hprop
  refine ⟨c, hc, hexec, hpoint, hthread, ?_⟩
  have hbalanced := preempt_balanced ⟨.roundRobin, _, .refl⟩ (sectionSteps_of_run hc)
  exact (hbalanced.1 .initProcess ⟨0, rfl⟩ hpoint).mp hcount

/-- init creates kernel threads until the table is full, and one more. -/
def tooManyThreads : List (Event Choice) :=
  (List.replicate 63 (.act (.call (.copyProcess PF_KTHREAD 0 0)) ::
    List.replicate 2 (.act .proceed))).flatten ++
    [.act (.call (.copyProcess PF_KTHREAD 0 0)), .act .proceed]

/-- The last call returns with the critical section open. -/
theorem preempt_balanced_false : ¬ ∀ [KernelImage] [KernelCode] (c c' : SectionConfig)
    (p : PcbPtr), SectionReachable c →
      Relation.ReflTransGen SectionStep c c' → c.shared.kernel.Known p →
      c'.point p = c.point p →
      (c'.shared.kernel.pcb p).preemptDisabled = (c.shared.kernel.pcb p).preemptDisabled := by
  intro hclaim
  let _ := someImage
  let _ := someCode
  have hrun : (sectionMachine.run SimpleSection tooManyThreads
      (sectionBoot .roundRobin fun _ ↦ 0)).any (fun c ↦ c.point .initProcess = [] ∧
        (c.shared.kernel.pcb .initProcess).preemptDisabled = 1) = true := by
    decide +kernel
  obtain ⟨c, hc, hprop⟩ := (Option.any_eq_true _ _).mp hrun
  obtain ⟨hpoint, hcount⟩ := of_decide_eq_true hprop
  have hsame := hclaim _ c .initProcess ⟨.roundRobin, _, .refl⟩
    (sectionSteps_of_run hc) ⟨0, rfl⟩ hpoint
  rw [hcount] at hsame
  cases hsame

end DemosOS
