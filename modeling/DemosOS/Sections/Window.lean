import DemosOS.Ipc.Ring
import DemosOS.Mem.Isolation
import DemosOS.Sections.Invariant

/-!
# The window of a context switch

Between the `preempt_disable` of a selection function and the `preempt_enable` or `schedule_tail`
that matches it, `current_process` is the process that has called `preempt_disable`, or one that has
lost the processor inside such a window.  The counter that a tick consults is positive for both.
-/

namespace DemosOS

open Lib Kernel

/-! ## Runs on fixed events -/

/-- The choices that other code has no part in. -/
def Choice.Simple : Choice → Bool
  | write _ => false
  | _ => true

/-- The same for events. -/
def SimpleSection (e : Event Choice) (_ : SectionConfig) : Prop :=
  match e with
  | .act choice => choice.Simple = true
  | .interrupt => True

instance (e : Event Choice) (c : SectionConfig) : Decidable (SimpleSection e c) :=
  match e with
  | .act choice => inferInstanceAs (Decidable (choice.Simple = true))
  | .interrupt => isTrue trivial

theorem sectionEnabled_of_simple {e : Event Choice} {c : SectionConfig} (h : SimpleSection e c) :
    SectionEnabled e c := by
  cases e with
  | interrupt => trivial
  | act choice =>
      cases choice with
      | write kernel => cases h
      | call | proceed | tick | uartIrq => trivial

section

variable [KernelImage] [KernelCode] {c c' : SectionConfig}

theorem sectionSteps_of_run {events : List (Event Choice)}
    (h : sectionMachine.run SimpleSection events c = some c') :
    Relation.ReflTransGen SectionStep c c' :=
  Machine.reachable_mono (fun _ _ _ _ ↦ trivial) (fun _ _ _ ↦ sectionEnabled_of_simple)
    (Machine.reachable_of_run h) trivial

/-! ## The window -/

omit [KernelImage] [KernelCode] in
/-- The counter of `current_process` is positive from `preempt_disable` on. -/
theorem SectionInv.current_pos (h : SectionInv c) {place : Place} {rest : List Place}
    (htop : c.point c.shared.executing = place :: rest) (hplace : place.InSwitch) :
    0 < c.shared.kernel.current.preemptDisabled := by
  by_cases hcur : c.shared.kernel.currentProcess = c.shared.executing
  · rw [Globals.current, hcur]
    exact h.one_le_of_top hplace.depth htop
  · exact h.one_le_of_ne h.current_known hcur

/-- Every process but `current_process` is in a critical section.  A tick in the window of a switch,
with any of the writes of the selection in progress, does not enter the scheduler. -/
theorem window_not_reentrant (h : SectionReachable c) :
    (∀ p, c.shared.kernel.Known p → p ≠ c.shared.kernel.currentProcess →
      1 ≤ (c.shared.kernel.pcb p).preemptDisabled) ∧
    ∀ place rest, c.point c.shared.executing = place :: rest → place.InSwitch →
      ∀ k : Kernel Pointers, Updates True c.shared.kernel.toGlobals k.toGlobals →
        ∀ b k', k.tickEntry = some (b, k') → b = false := by
  have hinv := h.inv
  constructor
  · intro p hp hne
    by_cases hpe : p = c.shared.executing
    · -- the process on the processor is not the current one in the middle of a switch only
      subst hpe
      cases htop : c.point c.shared.executing with
      | nil => exact absurd (hinv.current_eq (by simp [htop])).symm hne
      | cons place rest =>
          by_cases hswap : ∃ next, place = .swapping next
          · obtain ⟨next, rfl⟩ := hswap
            exact hinv.one_le_of_top rfl htop
          · refine absurd (hinv.current_eq fun next rest' he ↦ hswap ⟨next, ?_⟩).symm hne
            exact (List.cons.inj (htop.symm.trans he)).1
    · exact hinv.one_le_of_ne hp hpe
  · intro place rest htop hplace k hupdates b k' hentry
    have hpos := hinv.current_pos htop hplace
    have hsteady := hupdates.steady
    have hcount : k.current.preemptDisabled = c.shared.kernel.current.preemptDisabled := by
      rw [Globals.current, Globals.current, hsteady.currentProcess, hsteady.preemptDisabled]
    by_contra hb
    rw [Bool.not_eq_false] at hb
    obtain ⟨-, hpreempt, -⟩ := (tickEntry_spec hentry).2.mp hb
    rw [hcount] at hpreempt
    exact absurd hpos (not_lt.mpr hpreempt)

end

/-- init creates a kernel thread and yields, up to the middle of the switch. -/
def toSwitch : List (Event Choice) :=
  .act (.call (.copyProcess PF_KTHREAD 0 0)) :: List.replicate 2 (.act .proceed) ++
    .act (.call .yield) :: List.replicate 4 (.act .proceed)

/-- `current_process` is the new process and the registers are those of init. -/
theorem window_not_reentrant_swapping : let _ := someImage; let _ := someCode
    ∃ c : SectionConfig, SectionReachable c ∧
      c.shared.executing = .initProcess ∧ c.shared.kernel.currentProcess = .page 0 ∧
      1 ≤ (c.shared.kernel.pcb .initProcess).preemptDisabled ∧
      ∀ b k', c.shared.kernel.tickEntry = some (b, k') → b = false := by
  intro _ _
  have hrun : (sectionMachine.run SimpleSection toSwitch (sectionBoot .roundRobin fun _ ↦ 0)).any
      (fun c ↦ c.shared.executing = .initProcess ∧ c.shared.kernel.currentProcess = .page 0 ∧
        c.shared.kernel.processes 0 = some .initProcess ∧
        c.point .initProcess = [.swapping (.page 0)]) = true := by
    decide +kernel
  obtain ⟨c, hc, hprop⟩ := (Option.any_eq_true _ _).mp hrun
  obtain ⟨hexec, hcur, hknown, hpoint⟩ := of_decide_eq_true hprop
  have hreach : SectionReachable c := ⟨_, _, sectionSteps_of_run hc⟩
  obtain ⟨hothers, hwindow⟩ := window_not_reentrant hreach
  refine ⟨c, hreach, hexec, hcur, hothers _ ⟨0, hknown⟩ ?_, ?_⟩
  · rw [hcur]
    exact nofun
  · exact hwindow (.swapping (.page 0)) [] (by rw [hexec, hpoint]) trivial _ (.refl _)

end DemosOS
