import DemosOS.Kernel.Console
import DemosOS.Sched.Frame
import DemosOS.Sched.Wake

/-!
# Interrupts in a critical section

`preempt_disable` is meant to keep the timer and the console from changing the ready
queues under the running process.  The selection at a tick does respect the counter, but
two other paths do not look at it: the periodic boost of MLFQ, which moves the processes
of the lower queues, and the wake-ups of `handle_uart_irq`.

For a running process with a positive counter this file says exactly when each of the
two handlers leaves the queues, the levels and the running process as they are.
-/

namespace DemosOS

open Lib

/-- The ready queues, the levels and the running process are the same. -/
structure SameScheduling (k k' : Kernel Pointers) : Prop where
  queues : k'.queues = k.queues
  queueLevel : k'.queueLevel = k.queueLevel
  currentProcess : k'.currentProcess = k.currentProcess

namespace SameScheduling

theorem refl (k : Kernel Pointers) : SameScheduling k k := ⟨rfl, rfl, rfl⟩

theorem trans {k k₁ k₂ : Kernel Pointers} (h : SameScheduling k k₁) (h' : SameScheduling k₁ k₂) :
    SameScheduling k k₂ :=
  ⟨h'.queues.trans h.queues, h'.queueLevel.trans h.queueLevel,
    h'.currentProcess.trans h.currentProcess⟩

end SameScheduling

/-! ## The periodic boost -/

/-- The next tick is a boost. -/
def Globals.BoostDue (g : Globals) : Prop :=
  g.activeAlgorithm = .mlfq ∧ MLFQ_BOOST_PERIOD ≤ g.mlTicksSinceBoost + 1

/-- There is a process in a lower queue, or a level that is not the top one. -/
def Kernel.BelowTop (k : Kernel Pointers) : Prop :=
  (∃ q, 1 ≤ q ∧ q < ML_MAX_LEVELS ∧ (k.queues.ends (.mlQueues q)).head ≠ none) ∨
    ∃ i < N_PROCESSES, k.queueLevel i ≠ 0

namespace Kernel

theorem boostQueue_of_empty {k : Kernel Pointers} {q fuel : Nat}
    (h : (k.queues.ends (.mlQueues q)).head = none) : k.boostQueue q (fuel + 1) = some k := by
  simp [boostQueue, dequeueProcessFrom, Links.popFront, h]

theorem enqueueProcessTo_ends_of_ne {q q' : QueueId} (hq : q' ≠ q) (p : PcbPtr)
    (k : Kernel Pointers) : (k.enqueueProcessTo q p).queues.ends q' = k.queues.ends q' := by
  unfold enqueueProcessTo
  split_ifs
  · rfl
  · exact k.queues.pushBack_ends_of_ne p hq

/-- The body of the boost loop. -/
def boostOne (q : Nat) (p : PcbPtr) (k : Kernel Pointers) : Kernel Pointers :=
  (({ k with queues := (k.queues.popFront (.mlQueues q)).2 } : Kernel Pointers).mapGlobals fun g ↦
    { g with queueLevel := Function.update g.queueLevel (g.pcb p).pid 0 }).enqueueProcessTo
      (.mlQueues 0) p

theorem boostQueue_of_head {k : Kernel Pointers} {q fuel : Nat} {p : PcbPtr}
    (h : (k.queues.ends (.mlQueues q)).head = some p) :
    k.boostQueue q (fuel + 1) = (k.boostOne q p).boostQueue q fuel := by
  have hpop : (k.queues.popFront (.mlQueues q)).1 = some p := by simp [Links.popFront, h]
  simp only [boostQueue, dequeueProcessFrom, hpop]
  rfl

/-- Emptying queue `q` leaves it empty, and fills only queue 0. -/
theorem boostQueue_head {q q' fuel : Nat} (hq' : q' ≠ 0) {k k' : Kernel Pointers}
    (h : k.boostQueue q fuel = some k')
    (hor : q' = q ∨ (k.queues.ends (.mlQueues q')).head = none) :
    (k'.queues.ends (.mlQueues q')).head = none := by
  induction fuel generalizing k with
  | zero => simp [boostQueue] at h
  | succ fuel ih =>
      cases hhead : (k.queues.ends (.mlQueues q)).head with
      | none =>
          rw [boostQueue_of_empty hhead] at h
          obtain rfl := Option.some.inj h
          rcases hor with rfl | hnone
          · exact hhead
          · exact hnone
      | some p =>
          rw [boostQueue_of_head hhead] at h
          refine ih h ?_
          by_cases hq : q' = q
          · exact .inl hq
          · refine .inr ?_
            rw [boostOne, enqueueProcessTo_ends_of_ne (by simpa using hq')]
            simp only [mapGlobals_queues]
            rw [Links.popFront_ends_of_ne _ (by simpa using hq)]
            exact hor.resolve_left hq

section

variable {levels : List Nat} {k k' : Kernel Pointers}

/-- Empty queues stay as they are. -/
theorem boostQueues_of_empty
    (h : ∀ q ∈ levels, (k.queues.ends (.mlQueues q)).head = none) :
    levels.foldlM (fun k q ↦ k.boostQueue q QUEUE_FUEL) k = some k := by
  induction levels with
  | nil => rfl
  | cons q levels ih =>
      rw [List.foldlM_cons, QUEUE_FUEL, boostQueue_of_empty (h q List.mem_cons_self)]
      exact ih fun q' hq' ↦ h q' (List.mem_cons_of_mem q hq')

/-- The queues that are emptied are empty in the end. -/
theorem boostQueues_head (h : levels.foldlM (fun k q ↦ k.boostQueue q QUEUE_FUEL) k = some k')
    {q : Nat} (hq0 : q ≠ 0) (hor : q ∈ levels ∨ (k.queues.ends (.mlQueues q)).head = none) :
    (k'.queues.ends (.mlQueues q)).head = none := by
  induction levels generalizing k with
  | nil =>
      obtain rfl := Option.some.inj h
      exact hor.resolve_left (by simp)
  | cons q' levels ih =>
      rw [List.foldlM_cons] at h
      obtain ⟨k₁, hk₁, h⟩ := Option.bind_eq_some_iff.mp h
      refine ih h ?_
      rcases hor with hmem | hnone
      · rcases List.mem_cons.mp hmem with rfl | hmem
        · exact .inr (boostQueue_head hq0 hk₁ (.inl rfl))
        · exact .inl hmem
      · exact .inr (boostQueue_head hq0 hk₁ (.inr hnone))

end

/-- The boost resets the levels and empties the lower queues. -/
theorem boost_spec {policy : MultilevelPolicy} {k k' : Kernel Pointers}
    (h : k.boost policy = some k') :
    (∀ i < N_PROCESSES, k'.queueLevel i = 0) ∧
      (∀ q, 1 ≤ q → q < policy.nLevels → (k'.queues.ends (.mlQueues q)).head = none) ∧
      k'.currentProcess = k.currentProcess ∧
      ∀ p, (k'.pcb p).preemptDisabled = (k.pcb p).preemptDisabled := by
  obtain ⟨k₁, hk₁, h⟩ := Option.bind_eq_some_iff.mp h
  obtain rfl := Option.some.inj h
  have hrel := Relinked.boostQueues hk₁
  refine ⟨fun i hi ↦ by simp [hi], fun q hq hlt ↦ ?_, hrel.currentProcess,
    hrel.field PCB.preemptDisabled fun _ _ ↦ rfl⟩
  refine boostQueues_head hk₁ (Nat.one_le_iff_ne_zero.mp hq) (.inl ?_)
  rw [List.tail_range, List.mem_range'_1]
  omega

/-- With empty lower queues and all levels zero the boost only restarts the period. -/
theorem boost_of_top {policy : MultilevelPolicy} {k : Kernel Pointers}
    (hqueues : ∀ q, 1 ≤ q → q < policy.nLevels → (k.queues.ends (.mlQueues q)).head = none)
    (hlevel : ∀ i < N_PROCESSES, k.queueLevel i = 0) :
    k.boost policy = some (k.mapGlobals fun g ↦ { g with mlTicksSinceBoost := 0 }) := by
  have hempty : ∀ q ∈ (List.range policy.nLevels).tail,
      (k.queues.ends (.mlQueues q)).head = none := by
    intro q hq
    rw [List.tail_range] at hq
    rw [List.mem_range'_1] at hq
    exact hqueues q hq.1 (by omega)
  have hzero : (fun i ↦ if i < N_PROCESSES then 0 else k.queueLevel i) = k.queueLevel := by
    funext i
    split_ifs with hi
    · exact (hlevel i hi).symm
    · rfl
  rw [boost, boostQueues_of_empty hempty]
  simp only [Option.bind_eq_bind, Option.bind_some, mapGlobals, hzero]

/-- A running process that has disabled preemption is not demoted. -/
theorem demote_of_disabled {g : Globals} (h : 0 < g.current.preemptDisabled)
    (policy : MultilevelPolicy) : g.demote policy = g := by
  refine if_neg ?_
  rintro ⟨-, -, -, hzero, -⟩
  omega

theorem chargeTick_preemptDisabled (g : Globals) :
    g.chargeTick.current.preemptDisabled = g.current.preemptDisabled :=
  g.modifyPcb_field g.currentProcess g.currentProcess _ PCB.preemptDisabled fun _ ↦ rfl

/-- With preemption disabled a tick is its bookkeeping. -/
theorem handleTimerTick_of_disabled {k k₁ : Kernel Pointers}
    (htick : (k.mapGlobals (·.chargeTick)).onTick = some k₁)
    (h : 0 < k₁.current.preemptDisabled) : k.handleTimerTick = some k₁ := by
  rw [handleTimerTick, tickEntry, htick]
  simp only [Option.bind_eq_bind, Option.bind_some]
  rw [if_pos (.inr h)]
  rfl

/-- One more tick since the last boost. -/
def countTick (k : Kernel Pointers) : Kernel Pointers :=
  k.mapGlobals fun g ↦ { g with mlTicksSinceBoost := g.mlTicksSinceBoost + 1 }

/-- The bookkeeping of MLFQ. -/
theorem onTick_mlfq {k : Kernel Pointers} (halg : k.activeAlgorithm = .mlfq) :
    k.onTick = (if MLFQ_BOOST_PERIOD ≤ k.mlTicksSinceBoost + 1 then k.countTick.boost mlPolicyMlfq
      else some k.countTick).map (·.mapGlobals (·.demote mlPolicyMlfq)) := by
  simp only [onTick, multilevelOnTick, Globals.algorithm, halg, Algorithm.descriptor,
    Option.bind_eq_bind, Option.bind_some]
  rw [if_pos (by decide : mlPolicyMlfq.boostPeriod > 0)]
  by_cases hle : MLFQ_BOOST_PERIOD ≤ k.mlTicksSinceBoost + 1
  · rw [if_pos hle]
    refine (if_pos hle).trans ?_
    exact (Option.map_eq_bind ..).symm
  · rw [if_neg hle]
    exact if_neg hle

section

variable {k : Kernel Pointers} (h : 0 < k.current.preemptDisabled)
include h

/-- While preemption is disabled, the bookkeeping of a tick that is not a boost touches
neither the queues nor the levels. -/
theorem onTick_of_not_due (hdue : ¬ k.BoostDue) :
    ∃ k₁, k.onTick = some k₁ ∧ SameScheduling k k₁ ∧ k₁.current = k.current := by
  cases halg : k.activeAlgorithm with
  | mlq =>
      refine ⟨k, ?_, .refl k, rfl⟩
      simp only [onTick, multilevelOnTick, Globals.algorithm, halg, Algorithm.descriptor,
        mlPolicyMlq, mapGlobals, Option.bind_eq_bind, Option.bind_some, gt_iff_lt,
          lt_self_iff_false,
        if_false, demote_of_disabled h]
  | mlfq =>
      have hticks : ¬ MLFQ_BOOST_PERIOD ≤ k.mlTicksSinceBoost + 1 := fun hle ↦ hdue ⟨halg, hle⟩
      refine ⟨k.countTick, ?_, ⟨rfl, rfl, rfl⟩, rfl⟩
      rw [onTick_mlfq halg, if_neg hticks, Option.map_some]
      exact congrArg some (congrArg (fun g ↦ (⟨g, k.queues⟩ : Kernel Pointers))
        (demote_of_disabled (g := k.countTick.toGlobals) h _))
  | _ =>
      refine ⟨k, ?_, .refl k, rfl⟩
      simp [onTick, Globals.algorithm, halg, Algorithm.descriptor]

/-- While preemption is disabled, a boost that finds nothing to move keeps queues and
levels. -/
theorem onTick_of_top (hdue : k.BoostDue) (htop : ¬ k.BelowTop) :
    ∃ k₁, k.onTick = some k₁ ∧ SameScheduling k k₁ ∧ k₁.current = k.current := by
  have hqueues : ∀ q, 1 ≤ q → q < mlPolicyMlfq.nLevels →
      (k.countTick.queues.ends (.mlQueues q)).head = none := by
    intro q hq hlt
    by_contra hne
    exact htop (.inl ⟨q, hq, hlt, hne⟩)
  have hlevel : ∀ i < N_PROCESSES, k.countTick.queueLevel i = 0 := by
    intro i hi
    by_contra hne
    exact htop (.inr ⟨i, hi, hne⟩)
  refine ⟨k.mapGlobals fun g ↦ { g with mlTicksSinceBoost := 0 }, ?_, ⟨rfl, rfl, rfl⟩, rfl⟩
  rw [onTick_mlfq hdue.1, if_pos hdue.2, boost_of_top hqueues hlevel, Option.map_some]
  exact congrArg some (congrArg (fun g ↦ (⟨g, k.queues⟩ : Kernel Pointers))
    (demote_of_disabled (g := { k.toGlobals with mlTicksSinceBoost := 0 }) h _))

/-- While preemption is disabled, a boost that finds something to move moves it. -/
theorem onTick_of_belowTop (hdue : k.BoostDue) (hbelow : k.BelowTop) {k₁ : Kernel Pointers}
    (htick : k.onTick = some k₁) :
    ¬ SameScheduling k k₁ ∧ k₁.current.preemptDisabled = k.current.preemptDisabled := by
  rw [onTick_mlfq hdue.1, if_pos hdue.2, Option.map_eq_some_iff] at htick
  obtain ⟨k₂, hboost, rfl⟩ := htick
  obtain ⟨hlevel, hqueues, hcur, hpre⟩ := boost_spec hboost
  have hpre₂ : k₂.current.preemptDisabled = k.current.preemptDisabled := by
    rw [Globals.current, hcur]
    exact hpre k.currentProcess
  have hdemote : k₂.mapGlobals (·.demote mlPolicyMlfq) = k₂ :=
    congrArg (fun g ↦ (⟨g, k₂.queues⟩ : Kernel Pointers))
      (demote_of_disabled (by rw [hpre₂]; exact h) _)
  rw [hdemote]
  refine ⟨fun hsame ↦ ?_, hpre₂⟩
  rcases hbelow with ⟨q, hq, hlt, hne⟩ | ⟨i, hi, hne⟩
  · rw [← hsame.queues] at hne
    exact hne (hqueues q hq hlt)
  · rw [← hsame.queueLevel] at hne
    exact hne (hlevel i hi)

end

/-- With preemption disabled a tick keeps queues, levels and the running process exactly
when it is not a boost that finds something to move. -/
theorem handleTimerTick_same_iff {k : Kernel Pointers} (h : 0 < k.current.preemptDisabled) :
    (∃ k', k.handleTimerTick = some k' ∧ SameScheduling k k') ↔ ¬ (k.BoostDue ∧ k.BelowTop) := by
  have hc : 0 < (k.mapGlobals (·.chargeTick)).current.preemptDisabled := by
    rw [mapGlobals_toGlobals, chargeTick_preemptDisabled]
    exact h
  have hsame : SameScheduling k (k.mapGlobals (·.chargeTick)) := ⟨rfl, rfl, rfl⟩
  -- a tick whose bookkeeping keeps everything
  have hkeep : (∃ k₁, (k.mapGlobals (·.chargeTick)).onTick = some k₁ ∧
      SameScheduling (k.mapGlobals (·.chargeTick)) k₁ ∧
      k₁.current = (k.mapGlobals (·.chargeTick)).current) →
      ∃ k', k.handleTimerTick = some k' ∧ SameScheduling k k' := by
    rintro ⟨k₁, htick, hsame₁, hcur⟩
    exact ⟨k₁, handleTimerTick_of_disabled htick (by rw [hcur]; exact hc), hsame.trans hsame₁⟩
  constructor
  · rintro ⟨k', hk', hsame'⟩ ⟨hdue, hbelow⟩
    cases htick : (k.mapGlobals (·.chargeTick)).onTick with
    | none =>
        rw [handleTimerTick, tickEntry, htick] at hk'
        simp at hk'
    | some k₁ =>
        obtain ⟨hmoved, hpre⟩ := onTick_of_belowTop hc hdue hbelow htick
        rw [handleTimerTick_of_disabled htick (by rw [hpre]; exact hc)] at hk'
        obtain rfl := Option.some.inj hk'
        exact hmoved ⟨hsame'.queues, hsame'.queueLevel, hsame'.currentProcess⟩
  · intro hnot
    refine hkeep ?_
    by_cases hdue : k.BoostDue
    · exact onTick_of_top hc hdue fun hbelow ↦ hnot ⟨hdue, hbelow⟩
    · exact onTick_of_not_due hc hdue

end Kernel

/-! ## Console interrupts -/

/-- A process of the table, other than init, waits for console input. -/
def Globals.HasReader (g : Globals) : Prop :=
  ∃ i < g.nProcesses, ∃ p, g.processes i = some p ∧ p ≠ .initProcess ∧
    (g.pcb p).state = .waitingUartInput

/-- The receive interrupt is pending and the FIFO holds a byte without errors. -/
def Delivers (mis : BitVec 32) (fifo : List (BitVec 32)) : Prop :=
  mis &&& (1#32 <<< 4) ≠ 0 ∧ ∃ dr ∈ fifo, rxError dr = 0

namespace InOrder

variable {k : Kernel Pointers} {a : Kernel Lists}

/-- One slot of the wake-up loop: a process that waits for input is linked. -/
theorem wakeReader (h : InOrder k a) {i : Nat} (hi : i < a.nProcesses) :
    ∃ k' a', k.wakeReader i = some k' ∧ InOrder k' a' ∧ Grows a a' ∧
      ∀ p, a.processes i = some p → p ≠ .initProcess → (a.pcb p).state = .waitingUartInput →
        ∃ q, p ∈ a'.queues q := by
  obtain ⟨p, hp⟩ := h.filled hi
  have hkp : k.processes i = some p := by rw [h.sim.globals, hp]
  obtain ⟨k', a', hk', h', hgrow, hlinked⟩ :=
    h.wakeIf (s := .waitingUartInput) trivial ⟨i, hi.trans_le h.bound, hp⟩
  refine ⟨k', a', by rw [Kernel.wakeReader, hkp]; exact hk', h', hgrow, fun x hx ↦ ?_⟩
  obtain rfl := Option.some.inj (hx.symm.trans hp)
  exact hlinked

/-- The wake-up loop links every process of its slots that waits for input. -/
theorem wakeReaders (h : InOrder k a) {slots : List Nat} (hslots : ∀ i ∈ slots, i < a.nProcesses) :
    ∃ k' a', slots.foldlM Kernel.wakeReader k = some k' ∧ InOrder k' a' ∧ Grows a a' ∧
      ∀ i ∈ slots, ∀ p, a.processes i = some p → p ≠ .initProcess →
        (a.pcb p).state = .waitingUartInput → ∃ q, p ∈ a'.queues q := by
  induction slots generalizing k a with
  | nil => exact ⟨k, a, rfl, h, .refl a, by simp⟩
  | cons i slots ih =>
      obtain ⟨k₁, a₁, hk₁, h₁, hgrow₁, hlinked₁⟩ := h.wakeReader (hslots i List.mem_cons_self)
      obtain ⟨k', a', hk', h', hgrow', hlinked'⟩ := ih h₁ fun j hj ↦ by
        rw [hgrow₁.nProcesses]
        exact hslots j (List.mem_cons_of_mem i hj)
      refine ⟨k', a', by simp [hk₁, hk'], h', hgrow₁.trans hgrow', fun j hj p hp hinit hw ↦ ?_⟩
      rcases List.mem_cons.mp hj with rfl | hj
      · obtain ⟨q, hq⟩ := hlinked₁ p hp hinit hw
        exact ⟨q, hgrow'.mem q p hq⟩
      · rcases hgrow₁.state p hinit with hsame | ⟨q, hq⟩
        · exact hlinked' j hj p (by rw [hgrow₁.processes, hp]) hinit (hsame.trans hw)
        · exact ⟨q, hgrow'.mem q p hq⟩

/-- A word without errors links every process that waits for input. -/
theorem receiveWord (h : InOrder k a) (dr : BitVec 32) :
    ∃ k' a', k.receiveWord dr = some k' ∧ InOrder k' a' ∧ Grows a a' ∧
      (rxError dr = 0 → ∀ i < a.nProcesses, ∀ p, a.processes i = some p → p ≠ .initProcess →
        (a.pcb p).state = .waitingUartInput → ∃ q, p ∈ a'.queues q) := by
  unfold Kernel.receiveWord
  split_ifs with herr
  · exact ⟨k, a, rfl, h, .refl a, fun hok ↦ absurd hok herr⟩
  · let f : Globals → Globals := fun g ↦
      { g with uart := g.uart.store (UInt8.ofBitVec ((dr &&& 0xFF).setWidth 8)) }
    have hstored : InOrder (k.mapGlobals f) (a.mapGlobals f) :=
      ⟨h.sim.mapGlobals f, h.filled, h.bound, h.known, h.awake⟩
    have hcount : (k.mapGlobals f).nProcesses = a.nProcesses := by
      rw [(h.sim.mapGlobals f).globals]
      rfl
    have hslots : ∀ i ∈ List.range a.nProcesses, i < a.nProcesses := fun i hi ↦
      List.mem_range.mp hi
    obtain ⟨k', a', hk', h', hgrow, hlinked⟩ := hstored.wakeReaders hslots
    refine ⟨k', a', ?_, h', ⟨hgrow.processes, hgrow.nProcesses, hgrow.mem, hgrow.state⟩,
      fun _ i hi ↦ hlinked i (List.mem_range.mpr hi)⟩
    rw [← hcount] at hk'
    exact hk'

/-- Reading the FIFO links every process that waits for input, if there is a word without
errors. -/
theorem receiveWords (h : InOrder k a) (fifo : List (BitVec 32)) :
    ∃ k' a', fifo.foldlM Kernel.receiveWord k = some k' ∧ InOrder k' a' ∧ Grows a a' ∧
      ((∃ dr ∈ fifo, rxError dr = 0) → ∀ i < a.nProcesses, ∀ p, a.processes i = some p →
        p ≠ .initProcess → (a.pcb p).state = .waitingUartInput → ∃ q, p ∈ a'.queues q) := by
  induction fifo generalizing k a with
  | nil => exact ⟨k, a, rfl, h, .refl a, by simp⟩
  | cons dr fifo ih =>
      obtain ⟨k₁, a₁, hk₁, h₁, hgrow₁, hlinked₁⟩ := h.receiveWord dr
      obtain ⟨k', a', hk', h', hgrow', hlinked'⟩ := ih h₁
      refine ⟨k', a', by simp [hk₁, hk'], h', hgrow₁.trans hgrow', ?_⟩
      rintro ⟨dr', hdr', herr⟩ i hi p hp hinit hw
      rcases hgrow₁.state p hinit with hsame | ⟨q, hq⟩
      · rcases List.mem_cons.mp hdr' with rfl | hmem
        · obtain ⟨q, hq⟩ := hlinked₁ herr i hi p hp hinit hw
          exact ⟨q, hgrow'.mem q p hq⟩
        · exact hlinked' ⟨dr', hmem, herr⟩ i (by rw [hgrow₁.nProcesses]; exact hi) p
            (by rw [hgrow₁.processes, hp]) hinit (hsame.trans hw)
      · exact ⟨q, hgrow'.mem q p hq⟩

end InOrder

/-! ### Nobody waits -/

/-- The state between two slots of the wake-up loop when nobody waits for input. -/
structure Undisturbed (k k' : Kernel Pointers) : Prop extends SameScheduling k k' where
  processes : k'.processes = k.processes
  nProcesses : k'.nProcesses = k.nProcesses
  state : ∀ p, p ≠ .initProcess → (k'.pcb p).state = (k.pcb p).state

namespace Undisturbed

variable {k k₁ k₂ : Kernel Pointers}

theorem refl (k : Kernel Pointers) : Undisturbed k k := ⟨.refl k, rfl, rfl, fun _ _ ↦ rfl⟩

theorem trans (h : Undisturbed k k₁) (h' : Undisturbed k₁ k₂) : Undisturbed k k₂ :=
  ⟨h.toSameScheduling.trans h'.toSameScheduling, h'.processes.trans h.processes,
    h'.nProcesses.trans h.nProcesses, fun p hp ↦ (h'.state p hp).trans (h.state p hp)⟩

theorem hasReader (h : Undisturbed k k₁) (hnone : ¬ k.HasReader) : ¬ k₁.HasReader := by
  rintro ⟨i, hi, p, hp, hinit, hw⟩
  rw [h.nProcesses] at hi
  rw [h.processes] at hp
  exact hnone ⟨i, hi, p, hp, hinit, (h.state p hinit).symm.trans hw⟩

end Undisturbed

section

variable {k : Kernel Pointers}

theorem wakeReader_undisturbed (hnone : ¬ k.HasReader)
    (hfilled : ∀ i < k.nProcesses, ∃ p, k.processes i = some p) {i : Nat}
    (hi : i < k.nProcesses) : ∃ k', k.wakeReader i = some k' ∧ Undisturbed k k' := by
  obtain ⟨p, hp⟩ := hfilled i hi
  unfold Kernel.wakeReader
  simp only [hp, Kernel.wakeIf]
  split_ifs with hw
  · -- only init can be in that state
    have hinit : p = .initProcess := by
      by_contra hne
      exact hnone ⟨i, hi, p, hp, hne, hw⟩
    subst hinit
    refine ⟨k.mapGlobals (·.setState .initProcess .ready), by simp [Kernel.enqueueProcess],
      ⟨⟨rfl, rfl, rfl⟩, rfl, rfl, fun x hx ↦ ?_⟩⟩
    simp [Globals.setState, hx]
  · exact ⟨k, rfl, .refl k⟩

theorem wakeReaders_undisturbed (hnone : ¬ k.HasReader)
    (hfilled : ∀ i < k.nProcesses, ∃ p, k.processes i = some p) {slots : List Nat}
    (hslots : ∀ i ∈ slots, i < k.nProcesses) :
    ∃ k', slots.foldlM Kernel.wakeReader k = some k' ∧ Undisturbed k k' := by
  induction slots generalizing k with
  | nil => exact ⟨k, rfl, .refl k⟩
  | cons i slots ih =>
      obtain ⟨k₁, hk₁, h₁⟩ :=
        wakeReader_undisturbed hnone hfilled (hslots i List.mem_cons_self)
      obtain ⟨k', hk', h'⟩ := ih (h₁.hasReader hnone)
        (by rw [h₁.nProcesses, h₁.processes]; exact hfilled)
        (by rw [h₁.nProcesses]; exact fun j hj ↦ hslots j (List.mem_cons_of_mem i hj))
      exact ⟨k', by simp [hk₁, hk'], h₁.trans h'⟩

theorem receiveWords_undisturbed
    (hfilled : ∀ i < k.nProcesses, ∃ p, k.processes i = some p) {fifo : List (BitVec 32)}
    (hnot : ¬ ((∃ dr ∈ fifo, rxError dr = 0) ∧ k.HasReader)) :
    ∃ k', fifo.foldlM Kernel.receiveWord k = some k' ∧ SameScheduling k k' := by
  suffices ∃ k', fifo.foldlM Kernel.receiveWord k = some k' ∧ Undisturbed k k' by
    obtain ⟨k', hk', h'⟩ := this
    exact ⟨k', hk', h'.toSameScheduling⟩
  induction fifo generalizing k with
  | nil => exact ⟨k, rfl, .refl k⟩
  | cons dr fifo ih =>
      obtain ⟨k₁, hk₁, h₁⟩ : ∃ k₁, k.receiveWord dr = some k₁ ∧ Undisturbed k k₁ := by
        unfold Kernel.receiveWord
        split_ifs with herr
        · exact ⟨k, rfl, .refl k⟩
        · have hnone : ¬ k.HasReader := fun hr ↦
            hnot ⟨⟨dr, List.mem_cons_self, not_not.mp herr⟩, hr⟩
          let f : Globals → Globals := fun g ↦
            { g with uart := g.uart.store (UInt8.ofBitVec ((dr &&& 0xFF).setWidth 8)) }
          have hstored : Undisturbed k (k.mapGlobals f) :=
            ⟨⟨rfl, rfl, rfl⟩, rfl, rfl, fun _ _ ↦ rfl⟩
          have hslots : ∀ i ∈ List.range k.nProcesses, i < k.nProcesses := fun i hi ↦
            List.mem_range.mp hi
          obtain ⟨k₁, hk₁, h₁⟩ := wakeReaders_undisturbed (hstored.hasReader hnone) hfilled hslots
          exact ⟨k₁, hk₁, hstored.trans h₁⟩
      have hnot₁ : ¬ ((∃ dr ∈ fifo, rxError dr = 0) ∧ k₁.HasReader) := by
        rintro ⟨⟨dr', hdr', herr⟩, hreader⟩
        by_cases hr : k.HasReader
        · exact hnot ⟨⟨dr', List.mem_cons_of_mem dr hdr', herr⟩, hr⟩
        · exact h₁.hasReader hr hreader
      obtain ⟨k', hk', h'⟩ := ih (by rw [h₁.nProcesses, h₁.processes]; exact hfilled) hnot₁
      exact ⟨k', by simp [hk₁, hk'], h₁.trans h'⟩

end

/-! ### The two handlers -/

/-- The console interrupt keeps queues, levels and the running process exactly when it
does not deliver a byte while somebody waits for one. -/
theorem handleUartIrq_same_iff {k : Kernel Pointers} {a : Kernel Lists} (h : InOrder k a)
    (mis : BitVec 32) (fifo : List (BitVec 32)) :
    (∃ fifo' k', k.handleUartIrq mis fifo = some (fifo', k') ∧ SameScheduling k k') ↔
      ¬ (Delivers mis fifo ∧ k.HasReader) := by
  unfold Kernel.handleUartIrq
  by_cases hrx : mis &&& (1#32 <<< 4) ≠ 0
  · obtain ⟨k₁, a₁, hk₁, h₁, -, hlinked⟩ := h.receiveWords fifo
    rw [if_pos hrx, hk₁]
    -- what the handler does to the kernel is what the receive loop does
    refine Iff.trans (b := SameScheduling k k₁) (by simp [ite_self]) ?_
    constructor
    · rintro hsame ⟨⟨-, herr⟩, i, hi, p, hp, hinit, hw⟩
      rw [h.sim.globals] at hi hp hw
      obtain ⟨q, hq⟩ := hlinked herr i hi p hp hinit hw
      have hlists : a₁.queues = a.queues := by
        have hrep := h₁.sim.queues
        rw [hsame.queues] at hrep
        exact hrep.unique h.sim.queues
      rw [hlists] at hq
      exact h.awake q p hq (by rw [hw]; trivial)
    · intro hnot
      have hfilled : ∀ i < k.nProcesses, ∃ p, k.processes i = some p := by
        rw [h.sim.globals]
        exact fun i hi ↦ h.filled hi
      obtain ⟨k', hk', hsame⟩ := receiveWords_undisturbed hfilled fun hc ↦
        hnot ⟨⟨hrx, hc.1⟩, hc.2⟩
      obtain rfl := Option.some.inj (hk₁.symm.trans hk')
      exact hsame
  · rw [if_neg hrx]
    refine iff_of_true ?_ fun hc ↦ hrx hc.1.1
    simp only [Option.bind_eq_bind, Option.bind_some]
    split_ifs
    · exact ⟨[], k, rfl, .refl k⟩
    · exact ⟨fifo, k, rfl, .refl k⟩

/-- In a critical section of the running process, each of the two handlers keeps the ready
queues, the levels and the running process exactly when it does not boost, and does not
wake, anybody. -/
theorem interrupts_respect_critical_section_iff {k : Kernel Pointers} {a : Kernel Lists}
    (h : InOrder k a) (hpre : 0 < k.current.preemptDisabled) :
    ((∃ k', k.handleTimerTick = some k' ∧ SameScheduling k k') ↔ ¬ (k.BoostDue ∧ k.BelowTop)) ∧
    ∀ (mis : BitVec 32) (fifo : List (BitVec 32)),
      (∃ fifo' k', k.handleUartIrq mis fifo = some (fifo', k') ∧ SameScheduling k k') ↔
        ¬ (Delivers mis fifo ∧ k.HasReader) :=
  ⟨Kernel.handleTimerTick_same_iff hpre, handleUartIrq_same_iff h⟩

/-- A process waits for console input, and the process that runs has disabled preemption. -/
def readerRun : List Op :=
  [.add (.page 0) (childOfInit 1), .add (.page 1) (childOfInit 2), .tick, .block .waitingUartInput]

theorem readerRun_spec : ∃ k a, (runAll readerRun (Kernel.boot .roundRobin fun _ ↦ 0)).map
      (·.mapGlobals (·.preemptDisable)) = some k ∧ InOrder k a ∧
    0 < k.current.preemptDisabled ∧ ¬ k.BoostDue ∧ k.HasReader := by
  have hrun : (runAll readerRun (Kernel.boot .roundRobin fun _ ↦ 0)).any (fun k ↦
      k.current.preemptDisabled = 0 ∧ k.activeAlgorithm = .roundRobin ∧ 1 < k.nProcesses ∧
        k.processes 1 = some (.page 0) ∧ k.currentProcess = .page 1 ∧
        (k.pcb (.page 0)).state = .waitingUartInput) = true := by
    decide +kernel
  obtain ⟨k, hk, hprop⟩ := (Option.any_eq_true _ _).mp hrun
  obtain ⟨hpre, halg, hn, hslot, hcur, hw⟩ := of_decide_eq_true hprop
  obtain ⟨a, ha⟩ := ((reachable_boot _ _).runAll hk).sound
  have horder := ha.inOrder
  refine ⟨k.mapGlobals (·.preemptDisable), a.mapGlobals (·.preemptDisable), by rw [hk]; rfl,
    ⟨horder.sim.mapGlobals _, horder.filled, horder.bound, horder.known, fun q p hp ↦ ?_⟩, ?_, ?_,
    1, hn, .page 0, hslot, by simp, ?_⟩
  · have hstate := Spec.preemptDisable_field a.toGlobals PCB.state (fun _ _ ↦ rfl) p
    rw [Kernel.mapGlobals_toGlobals, hstate]
    exact horder.awake q p hp
  · simp only [Kernel.mapGlobals_toGlobals, Globals.preemptDisable, Globals.current,
      Globals.modifyPcb_currentProcess, Globals.modifyPcb_pcb_self]
    rw [Globals.current] at hpre
    omega
  · rintro ⟨hmlfq, -⟩
    have hrr := halg.symm.trans hmlfq
    simp at hrr
  · exact (Spec.preemptDisable_field k.toGlobals PCB.state (fun _ _ ↦ rfl) _).trans hw

theorem interrupts_respect_critical_section_roundRobin :
    ∃ k, (runAll readerRun (Kernel.boot .roundRobin fun _ ↦ 0)).map
        (·.mapGlobals (·.preemptDisable)) = some k ∧
      (∃ k', k.handleTimerTick = some k' ∧ SameScheduling k k') ∧
      ¬ ∃ fifo' k', k.handleUartIrq 0x10 [0x41] = some (fifo', k') ∧ SameScheduling k k' := by
  obtain ⟨k, a, hk, horder, hpre, hdue, hreader⟩ := readerRun_spec
  obtain ⟨htick, huart⟩ := interrupts_respect_critical_section_iff horder hpre
  refine ⟨k, hk, htick.mpr fun hc ↦ hdue hc.1, fun hsame ↦ ?_⟩
  exact (huart 0x10 [0x41]).mp hsame
    ⟨⟨by decide, 0x41, List.mem_singleton_self _, by decide⟩, hreader⟩

/-- A byte that arrives while the running process is in a critical section links the
process that waits for it. -/
theorem interrupts_respect_critical_section_false :
    ¬ ∀ (k : Kernel Pointers) (a : Kernel Lists), InOrder k a → 0 < k.current.preemptDisabled →
      (∀ k', k.handleTimerTick = some k' → SameScheduling k k') ∧
      ∀ (mis : BitVec 32) (fifo fifo' : List (BitVec 32)) (k' : Kernel Pointers),
        k.handleUartIrq mis fifo = some (fifo', k') → SameScheduling k k' := by
  intro hclaim
  obtain ⟨k, a, -, horder, hpre, -, hreader⟩ := readerRun_spec
  have hmoves := mt (handleUartIrq_same_iff horder 0x10 [0x41]).mp
    (not_not.mpr ⟨⟨by decide, 0x41, List.mem_singleton_self _, by decide⟩, hreader⟩)
  obtain ⟨k', a', hk', -⟩ := horder.receiveWords [0x41]
  have hirq : k.handleUartIrq 0x10 [0x41] = some ([], k') := by
    simp only [Kernel.handleUartIrq, hk']
    rfl
  exact hmoves ⟨[], k', hirq, (hclaim k a horder hpre).2 0x10 [0x41] [] k' hirq⟩

end DemosOS
