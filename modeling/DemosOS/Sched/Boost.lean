import DemosOS.Sched.Levels

/-!
# The periodic boost

MLFQ counts its ticks.  The tick that completes a period empties the lower levels into the highest
one, in the order of the levels, and resets every recorded level before the same tick looks at the
slice of the running process.
-/

namespace DemosOS

/-! ## The counter of ticks -/

namespace Spec

variable {a a₁ a' : Kernel Lists} {op : Op} {b : Bool}

/-- The bookkeeping counts the tick, or starts again. -/
theorem onTick_mlTicksSinceBoost (halg : a.activeAlgorithm = .mlfq) (h : onTick a = some a₁) :
    a₁.mlTicksSinceBoost = if a.BoostDue then 0 else a.mlTicksSinceBoost + 1 := by
  rw [onTick_mlfq halg] at h
  obtain rfl := Option.some.inj h
  have hdemote : ∀ g : Globals,
      (g.demote mlPolicyMlfq).mlTicksSinceBoost = g.mlTicksSinceBoost := by
    intro g
    unfold Globals.demote
    split_ifs <;> rfl
  exact hdemote _

theorem tickEntry_mlTicksSinceBoost (halg : a.activeAlgorithm = .mlfq)
    (h : tickEntry a = some (b, a₁)) :
    a₁.mlTicksSinceBoost = if a.BoostDue then 0 else a.mlTicksSinceBoost + 1 := by
  obtain ⟨a₂, ha₂, h⟩ := Option.bind_eq_some_iff.mp h
  have hcount := onTick_mlTicksSinceBoost (a := a.mapGlobals (·.chargeTick)) halg ha₂
  dsimp only at h
  split_ifs at h
  · obtain ⟨-, rfl⟩ := Prod.mk.inj (Option.some.inj h)
    exact hcount
  · obtain ⟨-, rfl⟩ := Prod.mk.inj (Option.some.inj h)
    exact hcount
  · obtain ⟨-, rfl⟩ := Prod.mk.inj (Option.some.inj h)
    exact hcount

/-- Only ticks are counted. -/
theorem entry_mlTicksSinceBoost (h : entry a op = some (b, a₁)) (hop : op ≠ .tick) :
    a₁.mlTicksSinceBoost = a.mlTicksSinceBoost :=
  entry_global (π := Globals.mlTicksSinceBoost) (fun _ _ _ _ _ ↦ rfl) h hop

end Spec

/-- The operation is a timer tick. -/
def Op.isTick : Op → Bool
  | .tick => true
  | _ => false

theorem Op.isTick_iff {op : Op} : op.isTick = true ↔ op = .tick := by
  cases op <;> simp [isTick]

/-- The counter after an operation. -/
def ticksAfter (k : Kernel Pointers) (op : Op) : Nat :=
  if op.isTick then if k.BoostDue then 0 else k.mlTicksSinceBoost + 1 else k.mlTicksSinceBoost

namespace Sound

variable {k k' : Kernel Pointers} {a : Kernel Lists} {op : Op}

theorem step_mlTicksSinceBoost (h : Sound k a) (halg : k.activeAlgorithm = .mlfq)
    (hop : op.Enabled k.toGlobals) (hrun : op.run k = some k') :
    k'.mlTicksSinceBoost = ticksAfter k op := by
  obtain ⟨b, k₁, a₁, a', -, hspec, -, -, -, hcont, hinv, h'⟩ := h.refines hop hrun
  rw [h.sim.globals] at halg
  have hentry : a₁.mlTicksSinceBoost = ticksAfter k op := by
    rw [ticksAfter, h.sim.globals]
    by_cases htick : op.isTick
    · rw [if_pos htick]
      obtain rfl := Op.isTick_iff.mp htick
      exact Spec.tickEntry_mlTicksSinceBoost halg hspec
    · rw [if_neg htick]
      exact Spec.entry_mlTicksSinceBoost hspec fun he ↦ htick (Op.isTick_iff.mpr he)
  rw [h'.sim.globals, ← hentry]
  cases b with
  | false =>
      obtain rfl := Option.some.inj hcont
      rfl
  | true => exact (hinv rfl).mlTicksSinceBoost

end Sound

/-! ## Ticks and boosts of a run -/

/-- The ticks of a run. -/
def ticks : List (Op × Kernel Pointers) → Nat
  | [] => 0
  | (op, _) :: steps => (if op.isTick then 1 else 0) + ticks steps

/-- The ticks of a run that boost. -/
def boosts : Kernel Pointers → List (Op × Kernel Pointers) → Nat
  | _, [] => 0
  | k, (op, k') :: steps => (if op.isTick ∧ k.BoostDue then 1 else 0) + boosts k' steps

/-- A step keeps the counter within the period, and what it counts is ticks. -/
theorem ticksAfter_spec {k : Kernel Pointers} (halg : k.activeAlgorithm = .mlfq)
    (hk : k.mlTicksSinceBoost < MLFQ_BOOST_PERIOD) (op : Op) :
    ticksAfter k op < MLFQ_BOOST_PERIOD ∧
      k.mlTicksSinceBoost + (if op.isTick then 1 else 0) =
        MLFQ_BOOST_PERIOD * (if op.isTick ∧ k.BoostDue then 1 else 0) + ticksAfter k op := by
  have hdue : k.BoostDue ↔ MLFQ_BOOST_PERIOD ≤ k.mlTicksSinceBoost + 1 := by
    simp only [Globals.BoostDue, halg, true_and]
  unfold ticksAfter
  by_cases htick : op.isTick
  · by_cases hboost : k.BoostDue
    · have hlast := hdue.mp hboost
      simp only [htick, hboost, and_self, if_true]
      omega
    · have hearly : ¬ MLFQ_BOOST_PERIOD ≤ k.mlTicksSinceBoost + 1 := fun hle ↦
        hboost (hdue.mpr hle)
      simp only [htick, hboost, and_false, if_true, if_false]
      omega
  · simp only [htick, Bool.false_eq_true, false_and, if_false]
    omega

/-- The ticks of a run are the periods that it completes, up to what the counter says at its two
ends. -/
theorem Sound.ticks_run {k : Kernel Pointers} {a : Kernel Lists} (h : Sound k a)
    (halg : k.activeAlgorithm = .mlfq) (hk : k.mlTicksSinceBoost < MLFQ_BOOST_PERIOD)
    {steps : List (Op × Kernel Pointers)} (hsteps : Follows k steps) :
    (lastState k steps).mlTicksSinceBoost < MLFQ_BOOST_PERIOD ∧
      k.mlTicksSinceBoost + ticks steps =
        MLFQ_BOOST_PERIOD * boosts k steps + (lastState k steps).mlTicksSinceBoost ∧
      (lastState k steps).activeAlgorithm = .mlfq ∧ ∃ a', Sound (lastState k steps) a' := by
  induction steps generalizing k a with
  | nil => exact ⟨hk, by simp [ticks, boosts, lastState], halg, a, h⟩
  | cons s steps ih =>
      obtain ⟨op, k'⟩ := s
      obtain ⟨hop, hrun, hsteps⟩ := hsteps
      obtain ⟨hlt, hcount⟩ := ticksAfter_spec halg hk op
      rw [← h.step_mlTicksSinceBoost halg hop hrun] at hlt hcount
      obtain ⟨a₁, heff⟩ := h.step hop hrun
      obtain ⟨hlast, hrest, hend⟩ :=
        ih heff.sound ((h.step_same hop hrun).1.trans halg) hlt hsteps
      refine ⟨hlast, ?_, hend⟩
      rw [ticks, boosts, Nat.mul_add]
      show _ = _ + _ + (DemosOS.lastState k' steps).mlTicksSinceBoost
      omega

/-! ## The tick that boosts -/

/-- The slice of the running process ends on this tick.  The idle process never has one. -/
def Globals.SliceEnds (g : Globals) : Prop :=
  g.currentProcess ≠ .initProcess ∧ g.current.counter ≤ 1

instance (g : Globals) : Decidable g.SliceEnds := inferInstanceAs (Decidable (_ ∧ _))

/-- On a tick that boosts, the running process is demoted from the top. -/
theorem Globals.tickDemotes_of_boostDue {g : Globals} (hdue : g.BoostDue)
    (hpid : g.current.pid < N_PROCESSES) :
    g.TickDemotes ↔ g.SliceEnds ∧ g.current.preemptDisabled = 0 := by
  have hbase : g.tickBase g.current.pid = 0 := if_pos ⟨hdue, hpid⟩
  rw [TickDemotes, SliceEnds, hbase]
  constructor
  · rintro ⟨-, hinit, hcounter, hpreempt, -⟩
    exact ⟨⟨hinit, hcounter⟩, hpreempt⟩
  · rintro ⟨⟨hinit, hcounter⟩, hpreempt⟩
    exact ⟨hdue.1, hinit, hcounter, hpreempt, by decide⟩

/-- What the boost makes of the queues. -/
theorem Spec.tickQueues_of_boostDue {a : Kernel Lists} (hdue : a.BoostDue) :
    tickQueues a (.mlQueues 0) =
        (List.range ML_MAX_LEVELS).flatMap (fun q ↦ a.queues (.mlQueues q)) ∧
      ∀ q, 1 ≤ q → q < ML_MAX_LEVELS → tickQueues a (.mlQueues q) = [] := by
  rw [tickQueues, if_pos hdue]
  refine ⟨rfl, fun q hq hlt ↦ ?_⟩
  have hmem : q ∈ (List.range ML_MAX_LEVELS).tail := by
    have hrange : List.range ML_MAX_LEVELS = 0 :: (List.range ML_MAX_LEVELS).tail := rfl
    have hq' : q ∈ List.range ML_MAX_LEVELS := List.mem_range.mpr hlt
    rw [hrange] at hq'
    exact (List.mem_cons.mp hq').resolve_left (by omega)
  rw [boostQueues, if_neg (by omega : q ≠ 0), if_pos hmem]

/-- What a tick that boosts leaves behind when it may call the scheduler. -/
structure Boosted (k k₁ : Kernel Pointers) (queues : Nat → List PcbPtr) : Prop where
  former : ∀ q < ML_MAX_LEVELS, k.WellLinked (.mlQueues q) (queues q)
  top : k₁.WellLinked (.mlQueues 0) ((List.range ML_MAX_LEVELS).flatMap queues)
  once : ((List.range ML_MAX_LEVELS).flatMap queues).Nodup
  lower : ∀ q, 1 ≤ q → q < ML_MAX_LEVELS → k₁.WellLinked (.mlQueues q) []
  level : ∀ p, k.Known p → k₁.queueLevel (k.pcb p).pid =
    if p = k.currentProcess ∧ k.SliceEnds ∧ k.current.preemptDisabled = 0 then 1 else 0

theorem Sound.boosted {k k₁ : Kernel Pointers} {a : Kernel Lists} (h : Sound k a)
    (hdue : k.BoostDue) {b : Bool} (hentry : Op.tick.entry k = some (b, k₁)) :
    Boosted k k₁ fun q ↦ a.queues (.mlQueues q) := by
  have htick : Op.tick.Enabled k.toGlobals := trivial
  obtain ⟨b', k₁', a₁, hentry', hspec, h₁⟩ := h.entry_refines htick
  obtain ⟨-, rfl⟩ := Prod.mk.inj (Option.some.inj (hentry.symm.trans hentry'))
  obtain ⟨hqueues, hlevels⟩ := Spec.tickEntry_levels hspec
  rw [h.sim.globals] at hdue
  obtain ⟨htop, hlower⟩ := Spec.tickQueues_of_boostDue hdue
  have hinv₁ : Inv a₁ := by
    obtain ⟨_, _, a₁', hentry₁, h₁', hinv, -⟩ := h.entry htick
    obtain ⟨-, rfl⟩ := Prod.mk.inj (Option.some.inj (hentry.symm.trans hentry₁))
    rwa [h₁'.unique h₁] at hinv
  refine ⟨fun q _ ↦ h.sim.wellLinked rfl, h₁.wellLinked (by rw [hqueues, htop]), ?_,
    fun q hq hlt ↦ h₁.wellLinked (by rw [hqueues, hlower q hq hlt]), fun p hp ↦ ?_⟩
  · rw [← htop, ← hqueues]
    exact hinv₁.nodup _
  · rw [h.sim.globals] at hp ⊢
    rw [h₁.globals]
    have hpid : (a.pcb p).pid < N_PROCESSES := h.inv.table.pid_lt_max hp
    have hcur : a.current.pid < N_PROCESSES := h.inv.table.pid_lt_max h.inv.current
    have hbase : a.tickBase (a.pcb p).pid = 0 := if_pos ⟨hdue, hpid⟩
    have hsame : (a.pcb p).pid = a.current.pid ↔ p = a.currentProcess :=
      ⟨h.inv.table.pid_inj hp h.inv.current, fun he ↦ by rw [he]; rfl⟩
    rw [hlevels, hbase]
    refine if_congr ?_ rfl rfl
    rw [Globals.tickDemotes_of_boostDue hdue hcur, hsame]
    exact and_comm

/-- A tick that does not boost leaves the queues as they are. -/
theorem Sound.not_boosted {k k₁ : Kernel Pointers} {a : Kernel Lists} (h : Sound k a)
    (hdue : ¬ k.BoostDue) {b : Bool} (hentry : Op.tick.entry k = some (b, k₁)) {q : QueueId}
    {l : List PcbPtr} (hl : k.Queue q l) : k₁.WellLinked q l := by
  have htick : Op.tick.Enabled k.toGlobals := trivial
  obtain ⟨b', k₁', a₁, hentry', hspec, h₁⟩ := h.entry_refines htick
  obtain ⟨-, rfl⟩ := Prod.mk.inj (Option.some.inj (hentry.symm.trans hentry'))
  rw [h.sim.globals] at hdue
  obtain ⟨hqueues, -⟩ := Spec.tickEntry_levels hspec
  rw [Spec.tickQueues, if_neg hdue] at hqueues
  refine h₁.wellLinked ?_
  rw [hqueues]
  exact (h.sim.queues.chain q).unique hl

end DemosOS
