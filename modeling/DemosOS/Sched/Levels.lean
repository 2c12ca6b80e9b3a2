import DemosOS.Sched.Critical
import DemosOS.Sched.Steps

/-!
# Levels and queues

The level of a process is recorded in `queue_level` and is where the process is linked.  The two
are written at different moments: creation, wake-up and the end of a slice link a process at its
recorded level, a boost moves everybody, a demotion concerns the running process, which is not
linked, and `sched_set_param` changes the record of a linked process without moving it.
-/

namespace DemosOS

/-! ## What a tick does to the levels -/

namespace Globals

instance (g : Globals) : Decidable g.BoostDue := inferInstanceAs (Decidable (_ ∧ _))

/-- The level recorded for a pid once the boost of this tick, if it is one, is over. -/
def tickBase (g : Globals) (i : Nat) : Nat :=
  if g.BoostDue ∧ i < N_PROCESSES then 0 else g.queueLevel i

/-- This tick demotes the running process. -/
def TickDemotes (g : Globals) : Prop :=
  g.activeAlgorithm = .mlfq ∧ g.currentProcess ≠ .initProcess ∧ g.current.counter ≤ 1 ∧
    g.current.preemptDisabled = 0 ∧ g.tickBase g.current.pid < ML_MAX_LEVELS - 1

instance (g : Globals) : Decidable g.TickDemotes := inferInstanceAs (Decidable (_ ∧ _))

theorem chargeTick_current (g : Globals) : g.chargeTick.current = { g.current with
    counter := g.current.counter - 1, burstTicks := g.current.burstTicks + 1 } :=
  g.modifyPcb_pcb_self g.currentProcess fun b ↦
    { b with counter := b.counter - 1, burstTicks := b.burstTicks + 1 }

end Globals

namespace Spec

variable {a a₁ : Kernel Lists}

/-- The queues after the boost of a tick, if it is one. -/
def tickQueues (a : Kernel Lists) : Lists :=
  if a.BoostDue then boostQueues (List.range ML_MAX_LEVELS).tail a.queues else a.queues

/-- The bookkeeping of MLFQ: the tick is counted, or everybody is boosted, and then the running
process may be demoted. -/
theorem onTick_mlfq (halg : a.activeAlgorithm = .mlfq) :
    onTick a = some ((⟨{ a.toGlobals with
      queueLevel := a.tickBase
      mlTicksSinceBoost := if a.BoostDue then 0 else a.mlTicksSinceBoost + 1 },
      tickQueues a⟩ : Kernel Lists).mapGlobals (·.demote mlPolicyMlfq)) := by
  have hticks : onTick a = some (multilevelOnTick mlPolicyMlfq a) := by
    simp only [onTick, Globals.algorithm, halg, Algorithm.descriptor, Option.map_some]
  rw [hticks, multilevelOnTick]
  dsimp only
  rw [if_pos (by decide : mlPolicyMlfq.boostPeriod > 0)]
  by_cases hdue : a.BoostDue
  · rw [if_pos (show (a.mapGlobals fun g ↦ { g with mlTicksSinceBoost := g.mlTicksSinceBoost + 1 }
      ).mlTicksSinceBoost ≥ mlPolicyMlfq.boostPeriod from hdue.2)]
    have hbase : a.tickBase = fun i ↦ if i < N_PROCESSES then 0 else a.queueLevel i := by
      funext i
      simp [Globals.tickBase, hdue]
    rw [hbase, tickQueues, if_pos hdue, if_pos hdue]
    rfl
  · have hnot : ¬ (a.mapGlobals fun g ↦ { g with mlTicksSinceBoost := g.mlTicksSinceBoost + 1 }
        ).mlTicksSinceBoost ≥ mlPolicyMlfq.boostPeriod := fun hle ↦ hdue ⟨halg, hle⟩
    have hbase : a.tickBase = a.queueLevel := by
      funext i
      simp [Globals.tickBase, hdue]
    rw [if_neg hnot, hbase, tickQueues, if_neg hdue, if_neg hdue]
    rfl

/-- Under the other algorithms the bookkeeping does nothing. -/
theorem onTick_other (halg : a.activeAlgorithm ≠ .mlfq) : onTick a = some a := by
  cases hx : a.activeAlgorithm with
  | mlfq => exact absurd hx halg
  | mlq =>
      have hdemote : a.toGlobals.demote mlPolicyMlq = a.toGlobals := if_neg fun h ↦ nomatch h.1
      have htick : onTick a = some (multilevelOnTick mlPolicyMlq a) := by
        simp only [onTick, Globals.algorithm, hx, Algorithm.descriptor, Option.map_some]
      have hkeep : multilevelOnTick mlPolicyMlq a =
        ⟨a.toGlobals.demote mlPolicyMlq, a.queues⟩ := rfl
      rw [htick, hkeep, hdemote]
  | roundRobin | fcfs | sjf | lottery | priorityAging =>
      simp only [onTick, Globals.algorithm, hx, Algorithm.descriptor]

/-- The levels after the bookkeeping of a tick. -/
theorem onTick_levels (h : onTick (a.mapGlobals (·.chargeTick)) = some a₁) :
    a₁.queues = tickQueues a ∧ ∀ i, a₁.queueLevel i =
      if a.TickDemotes ∧ i = a.current.pid then a.tickBase i + 1 else a.tickBase i := by
  by_cases halg : a.activeAlgorithm = .mlfq
  · rw [onTick_mlfq (a := a.mapGlobals (·.chargeTick)) halg] at h
    obtain rfl := Option.some.inj h
    refine ⟨rfl, fun i ↦ ?_⟩
    let g : Globals := { a.chargeTick with
      queueLevel := a.tickBase
      mlTicksSinceBoost := if a.BoostDue then 0 else a.mlTicksSinceBoost + 1 }
    have hcurrent : g.current = { a.current with
        counter := a.current.counter - 1, burstTicks := a.current.burstTicks + 1 } :=
      a.toGlobals.chargeTick_current
    have hdemotes : g.Demotes mlPolicyMlfq ↔ a.TickDemotes := by
      have hcounter : g.current.counter ≤ 0 ↔ a.current.counter ≤ 1 := by
        rw [hcurrent]
        simp
      have hpreempt : g.current.preemptDisabled = a.current.preemptDisabled := by rw [hcurrent]
      have hpid : g.current.pid = a.current.pid := by rw [hcurrent]
      rw [Globals.Demotes, Globals.TickDemotes, hcounter, hpreempt, hpid]
      exact ⟨fun ⟨_, hrest⟩ ↦ ⟨halg, hrest⟩, fun ⟨_, hrest⟩ ↦ ⟨rfl, hrest⟩⟩
    have hpid : g.current.pid = a.current.pid := by rw [hcurrent]
    show (g.demote mlPolicyMlfq).queueLevel i = _
    rw [Globals.demote]
    by_cases hd : a.TickDemotes
    · rw [if_pos (hdemotes.mpr hd)]
      show Function.update a.tickBase g.current.pid (a.tickBase g.current.pid + 1) i = _
      rw [hpid, Function.update_apply]
      by_cases hi : i = a.current.pid
      · rw [if_pos hi, if_pos ⟨hd, hi⟩, hi]
      · rw [if_neg hi, if_neg fun hc ↦ hi hc.2]
    · rw [if_neg fun hc ↦ hd (hdemotes.mp hc), if_neg fun hc ↦ hd hc.1]
  · rw [onTick_other (a := a.mapGlobals (·.chargeTick)) halg] at h
    obtain rfl := Option.some.inj h
    have hnot : ¬ a.BoostDue := fun hb ↦ halg hb.1
    refine ⟨?_, fun i ↦ ?_⟩
    · rw [tickQueues, if_neg hnot]
      rfl
    · rw [if_neg fun hd ↦ halg hd.1.1, Globals.tickBase, if_neg fun hb ↦ hnot hb.1]
      rfl

/-- The queues and levels after a tick, before the scheduler. -/
theorem tickEntry_levels {b : Bool} (h : tickEntry a = some (b, a₁)) :
    a₁.queues = tickQueues a ∧ ∀ i, a₁.queueLevel i =
      if a.TickDemotes ∧ i = a.current.pid then a.tickBase i + 1 else a.tickBase i := by
  obtain ⟨a₂, ha₂, h⟩ := Option.bind_eq_some_iff.mp h
  have hlevels := onTick_levels ha₂
  dsimp only at h
  split_ifs at h
  · obtain ⟨-, rfl⟩ := Prod.mk.inj (Option.some.inj h)
    exact hlevels
  · obtain ⟨-, rfl⟩ := Prod.mk.inj (Option.some.inj h)
    exact hlevels
  · obtain ⟨-, rfl⟩ := Prod.mk.inj (Option.some.inj h)
    exact hlevels

end Spec

/-! ## What the other operations do to the levels -/

/-- The process whose level the operation sets, and the level. -/
def Op.setsLevel (g : Globals) : Op → Option (PcbPtr × Nat)
  | .setParam pid param value =>
      match g.searchProcess pid with
      | none => none
      | some p =>
          if p ≠ .initProcess ∧ param = Globals.SCHED_PARAM_QUEUE_PRIORITY ∧ 0 ≤ value ∧
              value < ML_MAX_LEVELS then some (p, value.toNat)
          else none
  | _ => none

/-- The level of a process of the table after an operation. -/
def Op.levelAfter (g : Globals) (p : PcbPtr) : Op → Nat
  | .tick =>
      if g.TickDemotes ∧ p = g.currentProcess then g.tickBase (g.pcb p).pid + 1
      else g.tickBase (g.pcb p).pid
  | op =>
      match op.setsLevel g with
      | none => g.queueLevel (g.pcb p).pid
      | some (x, level) => if p = x then level else g.queueLevel (g.pcb p).pid

namespace Spec

variable {a a₁ : Kernel Lists}

theorem wakeWaiters_queueLevel (slots : List Nat) (a : Kernel Lists) :
    (slots.foldl wakeWaiter a).queueLevel = a.queueLevel := by
  induction slots generalizing a with
  | nil => rfl
  | cons i slots ih =>
      rw [List.foldl_cons, ih, wakeWaiter]
      split
      · rfl
      · split_ifs
        · exact enqueue_queueLevel ..
        · rfl

theorem terminate_queueLevel (a : Kernel Lists) : (terminate a).queueLevel = a.queueLevel := by
  unfold terminate
  generalize List.range N_PROCESSES = slots
  exact wakeWaiters_queueLevel slots _

theorem addProcess_queueLevel (p : PcbPtr) (a : Kernel Lists) {i : Nat} (hi : i ≠ (a.pcb p).pid) :
    (addProcess p a).queueLevel i = a.queueLevel i := by
  have hreg : (a.mapGlobals (·.register p)).queueLevel i = a.queueLevel i :=
    Function.update_of_ne hi ..
  unfold addProcess
  dsimp only
  split_ifs
  · rfl
  · exact (congrFun (enqueue_queueLevel ..) i).trans hreg
  · exact hreg

/-- Setting parameters: the level of one process, or no level. -/
theorem setParam_queueLevel (g : Globals) (pid param value : Int) :
    (g.syscallSetSchedParam pid param value).2.queueLevel =
      match (Op.setParam pid param value).setsLevel g with
      | none => g.queueLevel
      | some (x, level) => Function.update g.queueLevel (g.pcb x).pid level := by
  cases hs : g.searchProcess pid with
  | none => simp only [Globals.syscallSetSchedParam, Op.setsLevel, hs]
  | some p =>
      simp only [Globals.syscallSetSchedParam, Op.setsLevel, hs]
      by_cases hset : p ≠ .initProcess ∧ param = Globals.SCHED_PARAM_QUEUE_PRIORITY ∧ 0 ≤ value ∧
          value < ML_MAX_LEVELS
      · obtain ⟨hp, rfl, hlow, hhigh⟩ := hset
        have hset : p ≠ .initProcess ∧ Globals.SCHED_PARAM_QUEUE_PRIORITY =
          Globals.SCHED_PARAM_QUEUE_PRIORITY ∧ 0 ≤ value ∧ value < ML_MAX_LEVELS :=
          ⟨hp, rfl, hlow, hhigh⟩
        rw [if_pos hset, schedSetParam_queuePriority g hp hlow hhigh]
        have hpid : ((g.preemptDisable.modifyPcb p fun b ↦ { b with queuePriority := value }).pcb
            p).pid = (g.pcb p).pid := by
          rw [Globals.modifyPcb_pcb_self]
          exact preemptDisable_field g PCB.pid (fun _ _ ↦ rfl) p
        show Function.update g.queueLevel ((g.preemptDisable.modifyPcb p fun b ↦
          { b with queuePriority := value }).pcb p).pid value.toNat = _
        rw [hpid]
      · rw [if_neg hset]
        unfold Globals.schedSetParam
        split_ifs with hp _ _ _ _ hparam hrange
        · rfl
        · rfl
        · rfl
        · rfl
        · rfl
        · rfl
        · exact absurd ⟨hp, hparam, by omega, by omega⟩ hset
        · rfl

theorem known_of_setsLevel {g : Globals} (htable : g.Table) {op : Op} {x : PcbPtr} {level : Nat}
    (h : op.setsLevel g = some (x, level)) : g.Known x := by
  cases op with
  | setParam pid param value =>
      simp only [Op.setsLevel] at h
      cases hsearch : g.searchProcess pid with
      | none => simp [hsearch] at h
      | some y =>
          simp only [hsearch] at h
          split_ifs at h
          obtain ⟨rfl, -⟩ := Prod.mk.inj (Option.some.inj h)
          exact (htable.searchProcess_eq_some.mp hsearch).1
  | add | wake | yield | block | wait | exit | tick | signal => simp [Op.setsLevel] at h

/-- The levels before the scheduler. -/
theorem entry_queueLevel (ha : Inv a) {op : Op} (hop : op.Enabled a.toGlobals) {b : Bool}
    (h : entry a op = some (b, a₁)) {p : PcbPtr} (hp : a.Known p) :
    a₁.queueLevel (a.pcb p).pid = op.levelAfter a.toGlobals p := by
  have hpid := ha.table.pid_lt hp
  cases op with
  | add x b =>
      obtain ⟨-, hnew, -⟩ := hop
      obtain ⟨-, rfl⟩ := Prod.mk.inj (Option.some.inj h)
      have hx : ((a.mapGlobals (·.modifyPcb x fun _ ↦ b)).pcb x) = b :=
        Globals.modifyPcb_pcb_self _ x fun _ ↦ b
      exact addProcess_queueLevel x _ (by rw [hx]; omega)
  | wake x =>
      obtain ⟨-, rfl⟩ := Prod.mk.inj (Option.some.inj h)
      exact congrFun (enqueue_queueLevel ..) _
  | yield =>
      obtain ⟨-, rfl⟩ := Prod.mk.inj (Option.some.inj h)
      exact congrFun (endBurst_queueLevel _) _
  | block s =>
      obtain ⟨-, rfl⟩ := Prod.mk.inj (Option.some.inj h)
      exact congrFun (endBurst_queueLevel _) _
  | wait pid =>
      simp only [entry] at h
      split at h
      · obtain ⟨-, rfl⟩ := Prod.mk.inj (Option.some.inj h)
        rfl
      · split_ifs at h
        · obtain ⟨-, rfl⟩ := Prod.mk.inj (Option.some.inj h)
          rfl
        · obtain ⟨-, rfl⟩ := Prod.mk.inj (Option.some.inj h)
          exact congrFun (endBurst_queueLevel _) _
  | exit =>
      obtain ⟨-, rfl⟩ := Prod.mk.inj (Option.some.inj h)
      exact congrFun ((endBurst_queueLevel _).trans (terminate_queueLevel a)) _
  | tick =>
      have hsame : (a.pcb p).pid = a.current.pid ↔ p = a.currentProcess :=
        ⟨ha.table.pid_inj hp ha.current, by rintro rfl; rfl⟩
      rw [(tickEntry_levels h).2, Op.levelAfter]
      simp only [hsame]
  | signal pid f =>
      obtain ⟨-, rfl⟩ := Prod.mk.inj (Option.some.inj h)
      show (a.toGlobals.syscallSendSignal pid f).2.queueLevel _ = _
      unfold Globals.syscallSendSignal
      cases a.searchProcess pid <;> rfl
  | setParam pid param value =>
      obtain ⟨-, rfl⟩ := Prod.mk.inj (Option.some.inj h)
      show (a.toGlobals.syscallSetSchedParam pid param value).2.queueLevel _ = _
      rw [setParam_queueLevel]
      show _ = match (Op.setParam pid param value).setsLevel a.toGlobals with
        | none => a.queueLevel (a.pcb p).pid
        | some (x, level) => if p = x then level else a.queueLevel (a.pcb p).pid
      cases hs : (Op.setParam pid param value).setsLevel a.toGlobals with
      | none => rfl
      | some r =>
          obtain ⟨x, level⟩ := r
          have hx := known_of_setsLevel ha.table hs
          have hsame : (a.pcb p).pid = (a.pcb x).pid ↔ p = x :=
            ⟨ha.table.pid_inj hp hx, by rintro rfl; rfl⟩
          dsimp only
          rw [Function.update_apply]
          simp only [hsame]

end Spec

/-- What an operation does to the level of a process of the table. -/
theorem Sound.levelAfter {k k' : Kernel Pointers} {a : Kernel Lists} (h : Sound k a) {op : Op}
    (hop : op.Enabled k.toGlobals) (hrun : op.run k = some k') {p : PcbPtr} (hp : k.Known p) :
    k'.queueLevel (k.pcb p).pid = op.levelAfter k.toGlobals p := by
  obtain ⟨b, k₁, a₁, a', -, hspec, -, -, -, hcont, hinv, h'⟩ := h.refines hop hrun
  rw [h.sim.globals] at hop hp ⊢
  rw [h'.sim.globals, ← Spec.entry_queueLevel h.inv hop hspec hp]
  cases b with
  | false =>
      obtain rfl := Option.some.inj hcont
      rfl
  | true => rw [(hinv rfl).queueLevel]

/-! ## Where processes are linked -/

/-- Processes have joined the queue of their level, others may have left theirs, and the levels
are as they were. -/
structure Joins (a a' : Kernel Lists) : Prop where
  algorithm : a'.activeAlgorithm = a.activeAlgorithm
  queueLevel : a'.queueLevel = a.queueLevel
  pid : ∀ p, (a'.pcb p).pid = (a.pcb p).pid
  queues : ∀ q p, p ∈ a'.queues q →
    p ∈ a.queues q ∨ q = .mlQueues (a.queueLevel (a.pcb p).pid)

namespace Joins

variable {a a₁ a₂ : Kernel Lists}

theorem refl (a : Kernel Lists) : Joins a a := ⟨rfl, rfl, fun _ ↦ rfl, fun _ _ ↦ .inl⟩

theorem trans (h : Joins a a₁) (h' : Joins a₁ a₂) : Joins a a₂ where
  algorithm := h'.algorithm.trans h.algorithm
  queueLevel := h'.queueLevel.trans h.queueLevel
  pid p := (h'.pid p).trans (h.pid p)
  queues q p hp := by
    rcases h'.queues q p hp with hp | hp
    · exact h.queues q p hp
    · exact .inr (by rw [hp, h.queueLevel, h.pid])

theorem mapGlobals (a : Kernel Lists) {f : Globals → Globals}
    (halg : (f a.toGlobals).activeAlgorithm = a.activeAlgorithm)
    (hlevel : (f a.toGlobals).queueLevel = a.queueLevel)
    (hpid : ∀ p, ((f a.toGlobals).pcb p).pid = (a.pcb p).pid) : Joins a (a.mapGlobals f) :=
  ⟨halg, hlevel, hpid, fun _ _ ↦ .inl⟩

/-- An update of one control block that keeps the pid. -/
theorem modifyPcb (a : Kernel Lists) (p : PcbPtr) {f : PCB → PCB} (hf : ∀ b, (f b).pid = b.pid) :
    Joins a (a.mapGlobals (·.modifyPcb p f)) :=
  mapGlobals a rfl rfl fun _ ↦ Globals.modifyPcb_field _ _ _ _ PCB.pid hf

theorem multilevel (h : Joins a a₁) (halg : a.algorithm.enqueue = .enqueueMultilevel) :
    a₁.algorithm.enqueue = .enqueueMultilevel := by
  rw [Globals.algorithm, h.algorithm]
  exact halg

/-- `enqueue_process` links a process at its level. -/
theorem enqueue (h : Joins a a₁) (halg : a.algorithm.enqueue = .enqueueMultilevel) (p : PcbPtr) :
    Joins a (Spec.enqueue p a₁) := by
  refine h.trans ?_
  have halg₁ := h.multilevel halg
  by_cases hp : p = .initProcess
  · rw [Spec.enqueue, if_pos hp]
    exact .refl a₁
  · refine ⟨Spec.enqueue_activeAlgorithm .., Spec.enqueue_queueLevel .., ?_, fun q x hx ↦ ?_⟩
    · exact Spec.enqueue_field (π := PCB.pid) (fun _ _ _ _ _ _ _ ↦ rfl) p a₁
    · rcases (Spec.mem_enqueue hp).mp hx with hx | ⟨rfl, rfl⟩
      · exact .inl hx
      · exact .inr (by simp only [Spec.targetQueue, halg₁])

theorem wakeWaiters (halg : a.algorithm.enqueue = .enqueueMultilevel) (slots : List Nat)
    (h : Joins a a₁) : Joins a (slots.foldl Spec.wakeWaiter a₁) := by
  induction slots generalizing a₁ with
  | nil => exact h
  | cons i slots ih =>
      refine ih ?_
      unfold Spec.wakeWaiter
      split
      · exact h
      · rename_i p _
        split_ifs
        · have hawake : Joins a₁ (a₁.mapGlobals (·.modifyPcb p fun b ↦
            { b with state := .ready, pidToWait := -1 })) := modifyPcb a₁ p fun _ ↦ rfl
          exact (h.trans hawake).enqueue halg p
        · exact h

theorem endBurst (h : Joins a a₁) : Joins a (a₁.mapGlobals (·.endBurst)) := by
  refine h.trans (mapGlobals a₁ ?_ (endBurst_queueLevel _) fun x ↦ ?_)
  · unfold Globals.endBurst
    split_ifs <;> rfl
  · exact Spec.endBurst_field (π := PCB.pid) (fun _ _ _ _ _ _ _ ↦ rfl) _ x

theorem terminate (halg : a.algorithm.enqueue = .enqueueMultilevel) :
    Joins a (Spec.terminate a) := by
  have hmark : Joins a (a.mapGlobals fun g ↦
      (g.preemptDisable).setState g.currentProcess .zombie) :=
    mapGlobals a rfl rfl fun x ↦ (Globals.setState_field _ _ _ PCB.pid (fun _ _ ↦ rfl) x).trans
      (Spec.preemptDisable_field _ PCB.pid (fun _ _ ↦ rfl) x)
  unfold Spec.terminate
  generalize List.range N_PROCESSES = slots
  exact (hmark.wakeWaiters halg slots).trans
    (mapGlobals _ rfl rfl fun x ↦ Globals.modifyPcb_field _ _ _ _ PCB.pid fun _ ↦ rfl)

/-- An operation that creates no process, sets no parameter and is no tick. -/
theorem entry (halg : a.algorithm.enqueue = .enqueueMultilevel) {op : Op} {b : Bool}
    (h : Spec.entry a op = some (b, a₁)) (hadd : ∀ p b, op ≠ .add p b) (htick : op ≠ .tick)
    (hparam : ∀ pid param value, op ≠ .setParam pid param value) : Joins a a₁ := by
  cases op with
  | add p b => exact absurd rfl (hadd p b)
  | wake p =>
      obtain ⟨-, rfl⟩ := Prod.mk.inj (Option.some.inj h)
      have hready : Joins a (a.mapGlobals (·.setState p .ready)) := modifyPcb a p fun _ ↦ rfl
      exact hready.enqueue halg p
  | yield =>
      obtain ⟨-, rfl⟩ := Prod.mk.inj (Option.some.inj h)
      exact endBurst (modifyPcb a a.currentProcess fun _ ↦ rfl)
  | block s =>
      obtain ⟨-, rfl⟩ := Prod.mk.inj (Option.some.inj h)
      exact endBurst (modifyPcb a a.currentProcess fun _ ↦ rfl)
  | wait pid =>
      simp only [Spec.entry] at h
      split at h
      · obtain ⟨-, rfl⟩ := Prod.mk.inj (Option.some.inj h)
        exact .refl a
      · split_ifs at h
        · obtain ⟨-, rfl⟩ := Prod.mk.inj (Option.some.inj h)
          exact .refl a
        · obtain ⟨-, rfl⟩ := Prod.mk.inj (Option.some.inj h)
          exact endBurst (modifyPcb a a.currentProcess fun _ ↦ rfl)
  | exit =>
      obtain ⟨-, rfl⟩ := Prod.mk.inj (Option.some.inj h)
      exact endBurst (terminate halg)
  | tick => exact absurd rfl htick
  | signal pid f =>
      obtain ⟨-, rfl⟩ := Prod.mk.inj (Option.some.inj h)
      unfold Globals.syscallSendSignal
      cases hs : a.searchProcess pid with
      | none =>
          rw [Kernel.mapGlobals, hs]
          exact .refl a
      | some p =>
          rw [Kernel.mapGlobals, hs]
          have hraise : Joins a (a.mapGlobals (·.sendSignal p f)) := modifyPcb a p fun _ ↦ rfl
          exact hraise
  | setParam pid param value => exact absurd rfl (hparam pid param value)

/-- A scheduler invocation links the running process at its level, and takes processes out. -/
theorem invocation (halg : a.algorithm.enqueue = .enqueueMultilevel) (h : Invocation a a₁) :
    Joins a a₁ where
  algorithm := Globals.activeAlgorithm_of_frozen h.frozen
  queueLevel := h.queueLevel
  pid := Globals.field_of_frozen h.frozen PCB.pid fun _ ↦ rfl
  queues q p hp := by
    rcases Spec.mem_parked.mp ((h.sublist q).subset hp) with hp | ⟨-, rfl, rfl⟩
    · exact .inl hp
    · exact .inr (by simp only [Spec.targetQueue, halg])

end Joins

/-- Every queued process is linked at its level, those of `displaced` excepted. -/
structure Levelled (displaced : PcbPtr → Prop) (a : Kernel Lists) : Prop where
  multilevel : a.algorithm.enqueue = .enqueueMultilevel
  empty : a.queues .readyQueue = []
  placed : ∀ q p, p ∈ a.queues q → ¬ displaced p → q = .mlQueues (a.queueLevel (a.pcb p).pid)

namespace Levelled

variable {displaced displaced' : PcbPtr → Prop} {a a₁ : Kernel Lists}

theorem mono (h : Levelled displaced a) (hd : ∀ p, displaced p → displaced' p) :
    Levelled displaced' a :=
  ⟨h.multilevel, h.empty, fun q p hp hn ↦ h.placed q p hp fun hc ↦ hn (hd p hc)⟩

theorem joins (h : Levelled displaced a) (hj : Joins a a₁) : Levelled displaced a₁ where
  multilevel := hj.multilevel h.multilevel
  empty := by
    refine List.eq_nil_iff_forall_not_mem.mpr fun p hp ↦ ?_
    rcases hj.queues _ p hp with hp | hq
    · rw [h.empty] at hp
      exact List.not_mem_nil hp
    · exact QueueId.noConfusion hq
  placed q p hp hn := by
    rw [hj.queueLevel, hj.pid]
    rcases hj.queues q p hp with hp | hq
    · exact h.placed q p hp hn
    · exact hq

/-- A process that is created is linked at its first level. -/
theorem add (h : Levelled displaced a) (ha : Inv a) {x : PcbPtr} {b : PCB} (hx : ¬ a.Known x)
    (hpid : b.pid = a.nProcesses) :
    Levelled displaced (Spec.addProcess x (a.mapGlobals (·.modifyPcb x fun _ ↦ b))) := by
  have hinit : x ≠ .initProcess := by
    rintro rfl
    exact hx ⟨0, ha.table.init⟩
  have hself : ((a.mapGlobals (·.modifyPcb x fun _ ↦ b)).pcb x) = b :=
    Globals.modifyPcb_pcb_self _ x fun _ ↦ b
  have hother : ∀ {q p}, p ∈ a.queues q →
      (a.mapGlobals (·.modifyPcb x fun _ ↦ b)).pcb p = a.pcb p := by
    intro q p hp
    have hne : p ≠ x := by
      rintro rfl
      exact hx (ha.known q p hp)
    exact Globals.modifyPcb_pcb_of_ne a.toGlobals (fun _ ↦ b) hne
  have hwritten : Levelled displaced (a.mapGlobals (·.modifyPcb x fun _ ↦ b)) := by
    refine ⟨h.multilevel, h.empty, fun q p hp hn ↦ ?_⟩
    rw [hother hp]
    exact h.placed q p hp hn
  have hregistered : Levelled displaced
      ((a.mapGlobals (·.modifyPcb x fun _ ↦ b)).mapGlobals (·.register x)) := by
    refine ⟨h.multilevel, h.empty, fun q p hp hn ↦ (hwritten.placed q p hp hn).trans ?_⟩
    have hne : ((a.mapGlobals (·.modifyPcb x fun _ ↦ b)).pcb p).pid ≠
        ((a.mapGlobals (·.modifyPcb x fun _ ↦ b)).pcb x).pid := by
      rw [hself, hother hp, hpid]
      exact Nat.ne_of_lt (ha.table.pid_lt (ha.known q p hp))
    exact congrArg QueueId.mlQueues (Function.update_of_ne hne ..).symm
  unfold Spec.addProcess
  dsimp only
  split_ifs
  · exact hwritten
  · exact hregistered.joins (((Joins.refl _).enqueue hregistered.multilevel x).trans
      (.mapGlobals _ rfl rfl fun _ ↦ rfl))
  · exact hregistered.joins (.mapGlobals _ rfl rfl fun _ ↦ rfl)

/-- The recorded level of a queued process is what the boost leaves: the demotion of a tick
concerns the running process. -/
theorem tick_queueLevel (ha : Inv a) {b : Bool} (h : Spec.tickEntry a = some (b, a₁))
    {q : QueueId} {p : PcbPtr} (hp : p ∈ a.queues q) :
    a₁.queueLevel (a.pcb p).pid = a.tickBase (a.pcb p).pid := by
  rw [(Spec.tickEntry_levels h).2, if_neg]
  rintro ⟨⟨-, hinit, -⟩, hpid⟩
  obtain rfl := ha.table.pid_inj (ha.known q p hp) ha.current hpid
  exact ha.current_free hinit q hp

/-- After a tick: a boost links everybody at level 0, and nothing else moves anybody. -/
theorem tick (h : Levelled displaced a) (ha : Inv a) {b : Bool}
    (htick : Spec.tickEntry a = some (b, a₁)) (hquiet : Quiet a a₁) :
    Levelled (fun p ↦ displaced p ∧ ¬ a.BoostDue) a₁ := by
  have hpid : ∀ p, (a₁.pcb p).pid = (a.pcb p).pid :=
    Globals.field_of_frozen hquiet.frozen PCB.pid fun _ ↦ rfl
  have hmulti : a₁.algorithm.enqueue = .enqueueMultilevel := by
    rw [Globals.algorithm, Globals.activeAlgorithm_of_frozen hquiet.frozen]
    exact h.multilevel
  have hqueues := (Spec.tickEntry_levels htick).1
  by_cases hdue : a.BoostDue
  · rw [Spec.tickQueues, if_pos hdue] at hqueues
    refine ⟨hmulti, ?_, fun q p hp _ ↦ ?_⟩
    · rw [hqueues]
      exact h.empty
    · obtain ⟨q', hq'⟩ := (hquiet.mem p).mp ⟨q, hp⟩
      have hlevel : a₁.queueLevel (a₁.pcb p).pid = 0 := by
        rw [hpid, tick_queueLevel ha htick hq', Globals.tickBase,
          if_pos ⟨hdue, ha.table.pid_lt_max (ha.known q' p hq')⟩]
      rw [hlevel]
      rw [hqueues] at hp
      cases q with
      | readyQueue =>
          have hp' : p ∈ a.queues .readyQueue := hp
          rw [h.empty] at hp'
          exact absurd hp' List.not_mem_nil
      | mlQueues i =>
          by_cases hi : i = 0
          · rw [hi]
          · simp only [Spec.boostQueues, if_neg hi] at hp
            split_ifs at hp with hmem
            · exact absurd hp List.not_mem_nil
            · have hlt := ha.queueExists i (List.ne_nil_of_mem hp)
              refine absurd ?_ hmem
              rw [List.tail_range, List.mem_range'_1]
              omega
  · rw [Spec.tickQueues, if_neg hdue] at hqueues
    refine ⟨hmulti, by rw [hqueues, h.empty], fun q p hp hn ↦ ?_⟩
    rw [hqueues] at hp
    have hbase : a.tickBase (a.pcb p).pid = a.queueLevel (a.pcb p).pid :=
      if_neg fun hc ↦ hdue hc.1
    rw [hpid, tick_queueLevel ha htick hp, hbase]
    exact h.placed q p hp fun hd ↦ hn ⟨hd, hdue⟩

/-- A change of parameters displaces the processes whose level it changes. -/
theorem setParam (h : Levelled displaced a) (pid param value : Int) :
    Levelled (fun p ↦ displaced p ∨
      (a.toGlobals.syscallSetSchedParam pid param value).2.queueLevel (a.pcb p).pid ≠
        a.queueLevel (a.pcb p).pid)
      (a.mapGlobals fun g ↦ (g.syscallSetSchedParam pid param value).2) := by
  have hpid : ∀ p, ((a.toGlobals.syscallSetSchedParam pid param value).2.pcb p).pid =
      (a.pcb p).pid := Spec.setParam_field (fun _ _ _ _ _ ↦ rfl) a.toGlobals pid param value
  have halg : (a.toGlobals.syscallSetSchedParam pid param value).2.activeAlgorithm =
      a.activeAlgorithm := Spec.setParam_activeAlgorithm a.toGlobals pid param value
  rw [Kernel.mapGlobals]
  generalize (a.toGlobals.syscallSetSchedParam pid param value).2 = g at hpid halg ⊢
  refine ⟨?_, h.empty, fun q p hp hn ↦ ?_⟩
  · rw [Globals.algorithm]
    show g.activeAlgorithm.descriptor.enqueue = _
    rw [halg]
    exact h.multilevel
  · rw [not_or, not_ne_iff] at hn
    show q = .mlQueues (g.queueLevel (g.pcb p).pid)
    rw [hpid, hn.2]
    exact h.placed q p hp hn.1

end Levelled

/-! ## Displaced processes -/

/-- `sched_set_param` changes the level of a queued process. -/
def Op.Displaces (k k' : Kernel Pointers) (op : Op) (p : PcbPtr) : Prop :=
  (∃ pid param value, op = .setParam pid param value) ∧ (∃ q, k.Linked q p) ∧
    k'.queueLevel (k.pcb p).pid ≠ k.queueLevel (k.pcb p).pid

/-- The displaced processes after an operation: those whose level has changed while they were
queued and that have been neither dispatched nor boosted since. -/
def displacedAfter (displaced : PcbPtr → Prop) (k : Kernel Pointers) (op : Op)
    (k' : Kernel Pointers) (p : PcbPtr) : Prop :=
  (displaced p ∨ op.Displaces k k' p) ∧ ¬ (op.invokes k = true ∧ p = k'.currentProcess) ∧
    ¬ (op = .tick ∧ k.BoostDue)

/-- The displaced processes at the end of a run. -/
def displacedBy : (PcbPtr → Prop) → Kernel Pointers → List (Op × Kernel Pointers) → PcbPtr → Prop
  | displaced, _, [] => displaced
  | displaced, k, (op, k') :: steps => displacedBy (displacedAfter displaced k op k') k' steps

/-- One operation: the processes that are not displaced are linked at their level. -/
theorem Sound.levelled {k k' : Kernel Pointers} {a : Kernel Lists} (h : Sound k a)
    {displaced : PcbPtr → Prop} (hl : Levelled displaced a) {op : Op}
    (hop : op.Enabled k.toGlobals) (hrun : op.run k = some k') :
    ∃ a', Sound k' a' ∧ Levelled (displacedAfter displaced k op k') a' := by
  obtain ⟨b, k₁, a₁, a', hentry, hspec, -, ha₁, hpass, hcont, hinv, h'⟩ := h.refines hop hrun
  rw [h.sim.globals] at hop
  -- before the scheduler
  have hbefore : Levelled (fun p ↦ (displaced p ∨ op.Displaces k k' p) ∧
      ¬ (op = .tick ∧ k.BoostDue)) a₁ := by
    have hothers : (∀ p b, op ≠ .add p b) → op ≠ .tick →
        (∀ pid param value, op ≠ .setParam pid param value) → Levelled (fun p ↦
          (displaced p ∨ op.Displaces k k' p) ∧ ¬ (op = .tick ∧ k.BoostDue)) a₁ := by
      intro hadd htick hparam
      refine (hl.joins (Joins.entry hl.multilevel hspec hadd htick hparam)).mono ?_
      exact fun p hp ↦ ⟨.inl hp, fun hc ↦ htick hc.1⟩
    cases op with
    | add x b =>
        obtain ⟨-, rfl⟩ := Prod.mk.inj (Option.some.inj hspec)
        exact (hl.add h.inv hop.1 hop.2.1).mono fun p hp ↦ ⟨.inl hp, fun hc ↦ nomatch hc.1⟩
    | tick =>
        obtain ⟨b', a₂, -, htick, -, -, -, hquiet⟩ := h.sim.tickEntry h.inv
        obtain ⟨-, rfl⟩ := Prod.mk.inj (Option.some.inj (hspec.symm.trans htick))
        refine (hl.tick h.inv hspec hquiet).mono ?_
        rw [h.sim.globals]
        exact fun p hp ↦ ⟨.inl hp.1, fun hc ↦ hp.2 hc.2⟩
    | setParam pid param value =>
        obtain ⟨rfl, rfl⟩ := Prod.mk.inj (Option.some.inj hspec)
        obtain rfl := Option.some.inj hcont
        have hset := hl.setParam pid param value
        refine ⟨hset.multilevel, hset.empty, fun q p hp hn ↦ hset.placed q p hp ?_⟩
        rintro (hd | hne)
        · exact hn ⟨.inl hd, fun hc ↦ nomatch hc.1⟩
        · refine hn ⟨.inr ⟨⟨_, _, _, rfl⟩, ⟨q, h.linked_iff.mpr hp⟩, ?_⟩, fun hc ↦ nomatch hc.1⟩
          rw [h'.sim.globals, h.sim.globals]
          exact hne
    | wake | yield | block | wait | exit | signal =>
        exact hothers (by simp) (by simp) (by simp)
  refine ⟨a', h', ?_⟩
  cases b with
  | false =>
      obtain rfl := Option.some.inj hcont
      refine hbefore.mono fun p hp ↦ ⟨hp.1, fun hc ↦ ?_, hp.2⟩
      rw [Op.invokes_eq hentry] at hc
      exact Bool.noConfusion hc.1
  | true =>
      have hafter := hbefore.joins (Joins.invocation hbefore.multilevel (hinv rfl))
      refine ⟨hafter.multilevel, hafter.empty, fun q p hp hn ↦ hafter.placed q p hp fun hc ↦ ?_⟩
      refine hn ⟨hc.1, fun hcur ↦ ?_, hc.2⟩
      have hinit : p ≠ .initProcess := fun e ↦ h'.inv.init q (e ▸ hp)
      rw [h'.sim.globals] at hcur
      obtain rfl := hcur.2
      exact h'.inv.current_free hinit q hp

/-! ## The level last set -/

/-- The levels that `sched_set_param` has set and that neither a demotion nor a boost has replaced,
after an operation. -/
def lastSetAfter (lastSet : PcbPtr → Option Nat) (k : Kernel Pointers) (op : Op) (p : PcbPtr) :
    Option Nat :=
  match op with
  | .tick => if k.BoostDue ∨ (k.TickDemotes ∧ p = k.currentProcess) then none else lastSet p
  | op =>
      match op.setsLevel k.toGlobals with
      | none => lastSet p
      | some (x, level) => if p = x then some level else lastSet p

/-- The same at the end of a run. -/
def lastSetBy : (PcbPtr → Option Nat) → Kernel Pointers → List (Op × Kernel Pointers) → PcbPtr →
    Option Nat
  | lastSet, _, [] => lastSet
  | lastSet, k, (op, k') :: steps => lastSetBy (lastSetAfter lastSet k op) k' steps

/-- The recorded levels are the ones last set. -/
def Kernel.Recorded (k : Kernel Pointers) (lastSet : PcbPtr → Option Nat) : Prop :=
  ∀ p level, lastSet p = some level → k.Known p ∧ k.queueLevel (k.pcb p).pid = level

theorem Sound.recorded {k k' : Kernel Pointers} {a : Kernel Lists} (h : Sound k a)
    {lastSet : PcbPtr → Option Nat} (hset : k.Recorded lastSet) {op : Op}
    (hop : op.Enabled k.toGlobals) (hrun : op.run k = some k') :
    k'.Recorded (lastSetAfter lastSet k op) := by
  have htable : k.Table := by
    rw [h.sim.globals]
    exact h.inv.table
  intro p level hp
  -- the process is in the table, and its level is the one the operation leaves
  have hlevel : k.Known p ∧ op.levelAfter k.toGlobals p = level := by
    cases op with
    | tick =>
        simp only [lastSetAfter] at hp
        split_ifs at hp with hchange
        rw [not_or] at hchange
        obtain ⟨hknown, hrec⟩ := hset p level hp
        refine ⟨hknown, ?_⟩
        rw [Op.levelAfter, if_neg hchange.2, Globals.tickBase, if_neg fun hc ↦ hchange.1 hc.1]
        exact hrec
    | setParam pid param value =>
        simp only [lastSetAfter] at hp
        simp only [Op.levelAfter]
        cases hs : (Op.setParam pid param value).setsLevel k.toGlobals with
        | none =>
            rw [hs] at hp
            exact hset p level hp
        | some r =>
            obtain ⟨x, v⟩ := r
            rw [hs] at hp
            dsimp only at hp ⊢
            by_cases hpx : p = x
            · rw [if_pos hpx] at hp ⊢
              exact ⟨hpx ▸ Spec.known_of_setsLevel htable hs, Option.some.inj hp⟩
            · rw [if_neg hpx] at hp ⊢
              exact hset p level hp
    | add | wake | yield | block | wait | exit | signal => exact hset p level hp
  obtain ⟨hknown', hpid⟩ := (h.step_same hop hrun).2 p hlevel.1
  refine ⟨hknown', ?_⟩
  rw [hpid, h.levelAfter hop hrun hlevel.1]
  exact hlevel.2

/-! ## Runs -/

/-- What holds of the levels and the queues along a run. -/
theorem Sound.levels_run {k : Kernel Pointers} {a : Kernel Lists} (h : Sound k a)
    {displaced : PcbPtr → Prop} (hl : Levelled displaced a) {lastSet : PcbPtr → Option Nat}
    (hset : k.Recorded lastSet) {steps : List (Op × Kernel Pointers)} (hsteps : Follows k steps) :
    ∃ a', Sound (lastState k steps) a' ∧ Levelled (displacedBy displaced k steps) a' ∧
      (lastState k steps).Recorded (lastSetBy lastSet k steps) ∧
      (lastState k steps).activeAlgorithm = k.activeAlgorithm := by
  induction steps generalizing k a displaced lastSet with
  | nil => exact ⟨a, h, hl, hset, rfl⟩
  | cons s steps ih =>
      obtain ⟨op, k'⟩ := s
      obtain ⟨hop, hrun, hsteps⟩ := hsteps
      obtain ⟨a₁, h₁, hl₁⟩ := h.levelled hl hop hrun
      obtain ⟨a', h', hl', hset', halg⟩ := ih h₁ hl₁ (h.recorded hset hop hrun) hsteps
      exact ⟨a', h', hl', hset', halg.trans (h.step_same hop hrun).1⟩

end DemosOS
