import DemosOS.Sched.Frame
import DemosOS.Sched.Cascade
import DemosOS.Sched.Levels

/-!
# Demotion

Under MLFQ a process that uses up the quantum of its level goes down by one level.  The kernel
stores neither the level a process was dispatched from nor the ticks it has been charged since:
`counter` is what is left of the quantum.  A `Slice` records both along a run, and `Sliced` says
that the counter of the running process agrees with the record, whatever happens to its level in
the meantime.
-/

namespace DemosOS

/-- The quantum of a level under MLFQ. -/
def quantum (level : Nat) : Int := mlPolicyMlfq.quantum.getD level 0

/-- The slice of the running process: the level it was dispatched from, and the ticks it has been
charged since. -/
structure Slice where
  level : Nat
  charged : Nat
deriving DecidableEq, Repr

/-- The slice ends with the next tick. -/
def Slice.Expires (s : Slice) : Prop := quantum s.level ≤ s.charged + 1

instance (s : Slice) : Decidable s.Expires := inferInstanceAs (Decidable (_ ≤ _))

/-- `_schedule_multilevel` before it searches the levels: the running process is put back at its
level. -/
def Kernel.reinserted (k : Kernel Pointers) : Kernel Pointers :=
  (k.mapGlobals (·.preemptDisable)).parkMultilevel

/-- The level `_schedule_multilevel` finds the next process at, if there is one. -/
def Kernel.dispatchLevel (k : Kernel Pointers) : Option Nat := do
  let policy ← k.algorithm.mlPolicy
  let (next, _) ← k.reinserted.takeFromLevels (List.range policy.nLevels)
  next.map (·.2)

/-- The slice after an operation.  A scheduler invocation starts a new one. -/
def sliceAfter (slice : Option Slice) (k : Kernel Pointers) (op : Op) : Option Slice :=
  match op.entry k with
  | some (true, k₁) => k₁.dispatchLevel.map fun level ↦ ⟨level, 0⟩
  | _ =>
      match op with
      | .tick => slice.map fun s ↦ { s with charged := s.charged + 1 }
      | _ => slice

/-- The slice at the end of a run. -/
def sliceBy : Option Slice → Kernel Pointers → List (Op × Kernel Pointers) → Option Slice
  | slice, _, [] => slice
  | slice, k, (op, k') :: steps => sliceBy (sliceAfter slice k op) k' steps

/-! ## The level of the next process -/

namespace Spec

/-- The process that the levels are searched for comes from one of their queues. -/
theorem takeFromLevels_mem {levels : List Nat} {a : Kernel Lists} {p : PcbPtr} {level : Nat}
    (h : (takeFromLevels levels a).1 = some (p, level)) : ∃ q, p ∈ a.queues q := by
  induction levels generalizing a with
  | nil => exact nomatch h
  | cons q levels ih =>
      obtain ⟨skipped, x, rest, hl, htake⟩ | hnone :=
        takeReady_split a.toGlobals (a.queues (.mlQueues q))
      · obtain ⟨g, hr⟩ : ∃ g, takeReady a.toGlobals (a.queues (.mlQueues q)) = (g, some x, rest) :=
          ⟨_, Prod.ext rfl htake⟩
        simp only [takeFromLevels, hr] at h
        obtain ⟨rfl, rfl⟩ := Prod.mk.inj (Option.some.inj h)
        exact ⟨.mlQueues q, by rw [hl]; simp⟩
      · obtain ⟨g, hr⟩ : ∃ g, takeReady a.toGlobals (a.queues (.mlQueues q)) = (g, none, []) :=
          ⟨_, Prod.ext rfl hnone⟩
        simp only [takeFromLevels, hr] at h
        obtain ⟨q', hq'⟩ := ih h
        refine ⟨q', ?_⟩
        simp only [Function.update_apply] at hq'
        split_ifs at hq'
        · exact absurd hq' List.not_mem_nil
        · exact hq'

/-- A scheduler invocation under MLFQ: the process found at some level starts with the quantum of
this level, and init runs if there is none. -/
theorem pickNext_levels {a a' : Kernel Lists} (halg : a.activeAlgorithm = .mlfq) (ha : Inv a)
    (h : pickNext a = some a') :
    match (takeFromLevels (List.range mlPolicyMlfq.nLevels) (parked a)).1 with
    | none => a'.currentProcess = .initProcess
    | some (p, level) => a'.currentProcess = p ∧ p ≠ .initProcess ∧
        a'.current.counter = quantum level := by
  have hpolicy : a.algorithm.mlPolicy = some mlPolicyMlfq := by
    rw [Globals.algorithm, halg]
    rfl
  have hmem := @takeFromLevels_mem (List.range mlPolicyMlfq.nLevels) (parked a)
  generalize hr : takeFromLevels (List.range mlPolicyMlfq.nLevels) (parked a) = r at hmem ⊢
  obtain ⟨found, a₁⟩ := r
  obtain ⟨-, hcur, hcounter⟩ := pickNext_cascade hpolicy h hr
  cases found with
  | none => exact hcur
  | some r =>
      obtain ⟨p, level⟩ := r
      refine ⟨hcur, ?_, ?_⟩
      · rintro rfl
        obtain ⟨q, hq⟩ := hmem rfl
        exact (parked_selectable ha).init q hq
      · rw [Globals.current, hcur]
        exact hcounter p level rfl

end Spec

namespace Sim

variable {k : Kernel Pointers} {a : Kernel Lists}

theorem reinserted (h : Sim k a) (ha : Inv a) (halg : a.activeAlgorithm = .mlfq) :
    Sim k.reinserted (Spec.parked a) :=
  (h.mapGlobals (·.preemptDisable)).parkMultilevel ha.schedulable
    (congrArg (fun x ↦ (Algorithm.descriptor x).enqueue) halg)

theorem dispatchLevel (h : Sim k a) (ha : Inv a) (halg : a.activeAlgorithm = .mlfq) :
    k.dispatchLevel =
      (Spec.takeFromLevels (List.range mlPolicyMlfq.nLevels) (Spec.parked a)).1.map (·.2) := by
  have hpolicy : k.algorithm.mlPolicy = some mlPolicyMlfq := by
    rw [h.globals, Globals.algorithm, halg]
    rfl
  obtain ⟨k', hk', -⟩ := (h.reinserted ha halg).takeFromLevels
    (List.range mlPolicyMlfq.nLevels) ha.schedulable.parked
  rw [Kernel.dispatchLevel, hpolicy, Option.bind_eq_bind, Option.bind_some, hk']
  rfl

end Sim

/-! ## The counter of the running process -/

namespace Spec

variable {a a₁ : Kernel Lists}

theorem enqueue_counter (p : PcbPtr) (a : Kernel Lists) (x : PcbPtr) :
    ((enqueue p a).pcb x).counter = (a.pcb x).counter := by
  unfold enqueue
  split_ifs
  · rfl
  · exact Globals.setState_field _ _ _ PCB.counter (fun _ _ ↦ rfl) x

theorem addProcess_counter (p : PcbPtr) (a : Kernel Lists) (x : PcbPtr) :
    ((addProcess p a).pcb x).counter = (a.pcb x).counter := by
  unfold addProcess
  dsimp only
  split_ifs
  · rfl
  · exact enqueue_counter ..
  · rfl

/-- An operation other than a tick that does not give up the processor leaves the counter of the
running process alone. -/
theorem entry_counter (ha : Inv a) {op : Op} (hop : op.Enabled a.toGlobals)
    (h : entry a op = some (false, a₁)) (htick : op ≠ .tick) :
    (a₁.pcb a.currentProcess).counter = a.current.counter := by
  cases op with
  | add p b =>
      obtain ⟨-, rfl⟩ := Prod.mk.inj (Option.some.inj h)
      have hne : a.currentProcess ≠ p := by
        rintro rfl
        exact hop.1 ha.current
      rw [addProcess_counter]
      exact congrArg PCB.counter (Globals.modifyPcb_pcb_of_ne a.toGlobals (fun _ ↦ b) hne)
  | wake p =>
      obtain ⟨-, rfl⟩ := Prod.mk.inj (Option.some.inj h)
      rw [enqueue_counter]
      exact Globals.setState_field _ _ _ PCB.counter (fun _ _ ↦ rfl) _
  | wait pid =>
      simp only [entry] at h
      split at h
      · obtain ⟨-, rfl⟩ := Prod.mk.inj (Option.some.inj h)
        rfl
      · split_ifs at h
        · obtain ⟨-, rfl⟩ := Prod.mk.inj (Option.some.inj h)
          rfl
        · cases (Prod.mk.inj (Option.some.inj h)).1
  | signal pid f =>
      obtain ⟨-, rfl⟩ := Prod.mk.inj (Option.some.inj h)
      show ((a.toGlobals.syscallSendSignal pid f).2.pcb _).counter = _
      unfold Globals.syscallSendSignal
      cases a.searchProcess pid with
      | none => rfl
      | some p =>
          exact Globals.modifyPcb_field a.toGlobals p a.currentProcess (fun b ↦ b.raiseSignal f)
            PCB.counter fun _ ↦ rfl
  | setParam pid param value =>
      obtain ⟨-, rfl⟩ := Prod.mk.inj (Option.some.inj h)
      exact setParam_field (fun _ _ _ _ _ ↦ rfl) a.toGlobals pid param value _
  | tick => exact absurd rfl htick
  | yield | block | exit => cases (Prod.mk.inj (Option.some.inj h)).1

/-- A tick after which the running process goes on has been charged to it. -/
theorem tickEntry_counter (halg : a.activeAlgorithm = .mlfq)
    (h : tickEntry a = some (false, a₁)) :
    (a₁.pcb a.currentProcess).counter = a.current.counter - 1 := by
  have hentry : entry a .tick = some (false, a₁) := h
  have halg₁ := (entry_activeAlgorithm hentry).trans halg
  obtain ⟨a₂, ha₂, h⟩ := Option.bind_eq_some_iff.mp h
  dsimp only at h
  split_ifs at h with hgo hkeep
  · obtain ⟨-, rfl⟩ := Prod.mk.inj (Option.some.inj h)
    rw [onTick_pcb ha₂]
    exact congrArg PCB.counter a.toGlobals.chargeTick_current
  · obtain ⟨-, rfl⟩ := Prod.mk.inj (Option.some.inj h)
    rw [Globals.algorithm, halg₁] at hkeep
    exact absurd hkeep.1 (by decide)
  · cases (Prod.mk.inj (Option.some.inj h)).1

end Spec

/-- The counter of the running process is what is left of its slice. -/
structure Sliced (slice : Option Slice) (a : Kernel Lists) : Prop where
  algorithm : a.activeAlgorithm = .mlfq
  idle : slice = none → a.currentProcess = .initProcess
  running : ∀ s, slice = some s → a.currentProcess ≠ .initProcess ∧
    a.current.counter = quantum s.level - s.charged

namespace Sliced

variable {slice : Option Slice} {a a₁ : Kernel Lists}

/-- The running process keeps its slice, of which `ticks` more are over. -/
theorem keep (h : Sliced slice a) (halg : a₁.activeAlgorithm = a.activeAlgorithm)
    (hcur : a₁.currentProcess = a.currentProcess) (ticks : Nat)
    (hcounter : (a₁.pcb a.currentProcess).counter = a.current.counter - ticks) :
    Sliced (slice.map fun s ↦ { s with charged := s.charged + ticks }) a₁ := by
  refine ⟨halg.trans h.algorithm, fun hs ↦ ?_, fun s hs ↦ ?_⟩
  · exact hcur.trans (h.idle (Option.map_eq_none_iff.mp hs))
  · obtain ⟨s, rfl, rfl⟩ := Option.map_eq_some_iff.mp hs
    obtain ⟨hinit, hleft⟩ := h.running s rfl
    refine ⟨hcur ▸ hinit, ?_⟩
    rw [Globals.current, hcur, hcounter, hleft]
    dsimp only
    rw [Nat.cast_add, sub_sub]

/-- The scheduler starts a slice. -/
theorem invocation {k₁ : Kernel Pointers} {a' : Kernel Lists} (hsim : Sim k₁ a₁) (ha₁ : Inv a₁)
    (halg : a₁.activeAlgorithm = .mlfq) (hpick : Spec.pickNext a₁ = some a')
    (hinv : Invocation a₁ a') : Sliced (k₁.dispatchLevel.map fun level ↦ ⟨level, 0⟩) a' := by
  have hlevels := Spec.pickNext_levels halg ha₁ hpick
  have halg' := (Globals.activeAlgorithm_of_frozen hinv.frozen).trans halg
  rw [hsim.dispatchLevel ha₁ halg]
  generalize (Spec.takeFromLevels (List.range mlPolicyMlfq.nLevels) (Spec.parked a₁)).1 = found
    at hlevels ⊢
  cases found with
  | none => exact ⟨halg', fun _ ↦ hlevels, nofun⟩
  | some r =>
      obtain ⟨p, level⟩ := r
      obtain ⟨rfl, hinit, hcounter⟩ := hlevels
      refine ⟨halg', nofun, fun s hs ↦ ⟨hinit, ?_⟩⟩
      obtain rfl := Option.some.inj hs
      rw [hcounter]
      exact (sub_zero _).symm

end Sliced

/-- One operation. -/
theorem Sound.sliced {k k' : Kernel Pointers} {a : Kernel Lists} (h : Sound k a)
    {slice : Option Slice} (hs : Sliced slice a) {op : Op} (hop : op.Enabled k.toGlobals)
    (hrun : op.run k = some k') :
    ∃ a', Sound k' a' ∧ Sliced (sliceAfter slice k op) a' := by
  obtain ⟨b, k₁, a₁, a', hentry, hspec, hsim, ha₁, hpass, hcont, hinv, h'⟩ := h.refines hop hrun
  refine ⟨a', h', ?_⟩
  rw [h.sim.globals] at hop
  have halg := Spec.entry_activeAlgorithm hspec
  cases b with
  | true =>
      unfold sliceAfter
      rw [hentry]
      exact Sliced.invocation hsim ha₁ (halg.trans hs.algorithm) hcont (hinv rfl)
  | false =>
      obtain rfl := Option.some.inj hcont
      unfold sliceAfter
      rw [hentry]
      have hkeep : op ≠ .tick → Sliced slice a₁ := by
        intro htick
        have hsame : (slice.map fun s ↦ { s with charged := s.charged + 0 }) = slice := by
          cases slice <;> rfl
        rw [← hsame]
        exact hs.keep halg hpass.current 0
          ((Spec.entry_counter h.inv hop hspec htick).trans (sub_zero _).symm)
      cases op with
      | tick => exact hs.keep halg hpass.current 1 (Spec.tickEntry_counter hs.algorithm hspec)
      | add | wake | yield | block | wait | exit | signal | setParam => exact hkeep (by simp)

/-- A run. -/
theorem Sound.sliced_run {k : Kernel Pointers} {a : Kernel Lists} (h : Sound k a)
    {slice : Option Slice} (hs : Sliced slice a) {steps : List (Op × Kernel Pointers)}
    (hsteps : Follows k steps) :
    ∃ a', Sound (lastState k steps) a' ∧ Sliced (sliceBy slice k steps) a' := by
  induction steps generalizing k a slice with
  | nil => exact ⟨a, h, hs⟩
  | cons s steps ih =>
      obtain ⟨hop, hrun, hsteps⟩ := hsteps
      obtain ⟨a₁, h₁, hs₁⟩ := h.sliced hs hop hrun
      exact ih h₁ hs₁ hsteps

/-! ## Demotions -/

/-- The level of a process before an operation demotes it: a tick boosts first. -/
def Op.baseLevel (g : Globals) (p : PcbPtr) : Op → Nat
  | .tick => g.tickBase (g.pcb p).pid
  | _ => g.queueLevel (g.pcb p).pid

/-- An operation that does not set the level of a process keeps it or is a tick that demotes the
process. -/
theorem Op.levelAfter_cases {g : Globals} {op : Op} {p : PcbPtr}
    (hset : ∀ level, op.setsLevel g ≠ some (p, level)) :
    op.levelAfter g p = op.baseLevel g p ∨ (op = .tick ∧ p = g.currentProcess ∧ g.TickDemotes ∧
      op.levelAfter g p = op.baseLevel g p + 1) := by
  cases op with
  | tick =>
      by_cases h : g.TickDemotes ∧ p = g.currentProcess
      · exact .inr ⟨rfl, h.2, h.1, if_pos h⟩
      · exact .inl (if_neg h)
  | setParam pid param value =>
      left
      show (match (Op.setParam pid param value).setsLevel g with
        | none => g.queueLevel (g.pcb p).pid
        | some (x, level) => if p = x then level else g.queueLevel (g.pcb p).pid) =
          g.queueLevel (g.pcb p).pid
      cases hs : (Op.setParam pid param value).setsLevel g with
      | none => rfl
      | some r =>
          obtain ⟨x, level⟩ := r
          refine if_neg ?_
          rintro rfl
          exact hset level hs
  | add | wake | yield | block | wait | exit | signal => exact .inl rfl

/-- The scheduler invocation of a tick puts `p` back at the end of the queue of `level`.  There it
stays, unless this invocation takes it out again. -/
def Reinserts (k k' : Kernel Pointers) (p : PcbPtr) (level : Nat) : Prop :=
  ∃ k₁ l, Op.tick.entry k = some (true, k₁) ∧ k₁.Queue (.mlQueues level) l ∧
    k₁.reinserted.Queue (.mlQueues level) (l ++ [p]) ∧
    (k'.Linked (.mlQueues level) p ∨ k'.currentProcess = p ∨ (k'.pcb p).state = .zombie ∨
      (k'.pcb p).state = .stopped)

namespace Sliced

variable {k k' : Kernel Pointers} {slice : Option Slice} {a : Kernel Lists}

/-- A demotion is earned. -/
theorem earned (hs : Sliced slice a) (hd : a.TickDemotes) : ∃ s, slice = some s ∧ s.Expires := by
  obtain ⟨-, hinit, hcounter, -⟩ := hd
  cases slice with
  | none => exact absurd (hs.idle rfl) hinit
  | some s =>
      refine ⟨s, rfl, ?_⟩
      rw [(hs.running s rfl).2] at hcounter
      exact (sub_le_iff_le_add.mp hcounter).trans_eq (add_comm _ _)

/-- A slice that expires with preemption enabled ends in a demotion. -/
theorem demotes {s : Slice} (hs : Sliced (some s) a) (hexpires : s.Expires)
    (hpreempt : a.current.preemptDisabled = 0)
    (hlevel : a.tickBase a.current.pid < ML_MAX_LEVELS - 1) : a.TickDemotes := by
  obtain ⟨hinit, hcounter⟩ := hs.running s rfl
  refine ⟨hs.algorithm, hinit, ?_, hpreempt, hlevel⟩
  rw [hcounter]
  exact sub_le_iff_le_add.mpr (hexpires.trans_eq (add_comm _ _))

end Sliced

/-- The tick that demotes a process puts it back at its new level. -/
theorem Sound.reinserts {k k' : Kernel Pointers} {a : Kernel Lists} (h : Sound k a)
    (hd : a.TickDemotes) (hrun : Op.tick.run k = some k') :
    Reinserts k k' a.currentProcess (a.tickBase a.current.pid + 1) := by
  have hop : Op.tick.Enabled k.toGlobals := trivial
  obtain ⟨b, k₁, a₁, a', hentry, hspec, hsim, ha₁, hpass, hcont, hinv, h'⟩ := h.refines hop hrun
  -- the tick enters the scheduler
  have hb : b = true := by
    refine (Kernel.tickEntry_spec hentry).2.mpr ?_
    rw [h.sim.globals]
    refine ⟨hd.2.2.1, hd.2.2.2.1.le, .inl ?_⟩
    rw [Globals.algorithm, hd.1]
    rfl
  subst hb
  -- with the process still runnable and its level lowered
  obtain ⟨b, a₂, k₂, hspec₂, -, -, -, hquiet⟩ := h.sim.tickEntry h.inv
  obtain ⟨-, rfl⟩ := Prod.mk.inj (Option.some.inj (hspec.symm.trans hspec₂))
  have halg : a₁.activeAlgorithm = .mlfq := (Spec.entry_activeAlgorithm hspec).trans hd.1
  have hcur : a₁.currentProcess = a.currentProcess := hpass.current
  have hrunnable : a₁.StillRunnable := by
    refine ⟨hcur ▸ hd.2.1, ?_⟩
    rw [Globals.current, hcur, hquiet.state]
    exact h.settled hd.2.1
  have hlevel : a₁.queueLevel (a₁.pcb a₁.currentProcess).pid = a.tickBase a.current.pid + 1 := by
    rw [hcur, hpass.pid h.inv.current, (Spec.tickEntry_levels hspec).2]
    exact if_pos ⟨hd, rfl⟩
  have htarget : Spec.targetQueue a₁.toGlobals a₁.currentProcess =
      .mlQueues (a.tickBase a.current.pid + 1) := by
    rw [Spec.targetQueue, Globals.algorithm, halg]
    exact congrArg QueueId.mlQueues hlevel
  have hparked : (Spec.parked a₁).queues (.mlQueues (a.tickBase a.current.pid + 1)) =
      a₁.queues (.mlQueues (a.tickBase a.current.pid + 1)) ++ [a.currentProcess] := by
    have hmultilevel : (a₁.toGlobals.preemptDisable).algorithm.enqueue = .enqueueMultilevel :=
      congrArg (fun algorithm : Algorithm ↦ algorithm.descriptor.enqueue) halg
    rw [Spec.parked_eq, if_pos hrunnable, Spec.enqueue_queues hrunnable.1,
      Kernel.mapGlobals_toGlobals, Spec.targetQueue_preemptDisable, htarget, Function.update_self,
      Spec.insert_multilevel hmultilevel, ← hcur]
    rfl
  refine ⟨k₁, _, hentry, hsim.queues.chain _, ?_, ?_⟩
  · have hchain := (hsim.reinserted ha₁ halg).queues.chain
      (.mlQueues (a.tickBase a.current.pid + 1))
    rw [hparked] at hchain
    exact hchain
  · have hinit : a.currentProcess ≠ .initProcess := hd.2.1
    have hrun : Runnable a₁ a.currentProcess := .inr ⟨hcur.symm, hinit, hcur ▸ hrunnable.2⟩
    rw [h'.sim.globals]
    cases (hinv rfl).turn _ hinit with
    | away hnot => exact absurd hrun hnot
    | waits _ q hq =>
        left
        rcases Spec.mem_parked.mp (((hinv rfl).sublist q).subset hq) with hq' | ⟨-, -, rfl⟩
        · exact absurd hq' (hcur ▸ ha₁.current_free hrunnable.1 q)
        · rw [← htarget]
          exact h'.linked_iff.mpr hq
    | dispatched _ _ hdispatched => exact .inr (.inl hdispatched.symm)
    | killed _ _ _ hstate => exact .inr (.inr (.inl hstate))
    | stopped _ _ _ hstate => exact .inr (.inr (.inr hstate))

/-! ## Runs -/

/-- In the run no slice of the process expires and its level is not set: it always yields or blocks
in time. -/
def NeverExpires (p : PcbPtr) : Option Slice → Kernel Pointers → List (Op × Kernel Pointers) → Prop
  | _, _, [] => True
  | slice, k, (op, k') :: steps =>
      (op = .tick → k.currentProcess = p → ∀ s, slice = some s → ¬ s.Expires) ∧
      (∀ level, op.setsLevel k.toGlobals ≠ some (p, level)) ∧
      NeverExpires p (sliceAfter slice k op) k' steps

theorem Op.baseLevel_le (g : Globals) (p : PcbPtr) (op : Op) :
    op.baseLevel g p ≤ g.queueLevel (g.pcb p).pid := by
  cases op with
  | tick =>
      rw [baseLevel, Globals.tickBase]
      split_ifs
      · exact Nat.zero_le _
      · exact le_rfl
  | add | wake | yield | block | wait | exit | signal | setParam => exact le_rfl

namespace Sound

variable {k k' : Kernel Pointers} {a : Kernel Lists} {slice : Option Slice}

/-- One operation: the level is kept, or the process has earned a demotion. -/
theorem demotion (h : Sound k a) (hs : Sliced slice a) {op : Op} (hop : op.Enabled k.toGlobals)
    (hrun : op.run k = some k') {p : PcbPtr} (hp : k.Known p)
    (hset : ∀ level, op.setsLevel k.toGlobals ≠ some (p, level)) :
    k'.queueLevel (k.pcb p).pid = op.baseLevel k.toGlobals p ∨
      (k'.queueLevel (k.pcb p).pid = op.baseLevel k.toGlobals p + 1 ∧ op = .tick ∧
        p = k.currentProcess ∧ op.baseLevel k.toGlobals p < mlPolicyMlfq.nLevels - 1 ∧
        ∃ s, slice = some s ∧ s.Expires) := by
  rw [h.levelAfter hop hrun hp]
  obtain hkeep | ⟨rfl, rfl, hd, hup⟩ := Op.levelAfter_cases hset
  · exact .inl hkeep
  · refine .inr ⟨hup, rfl, rfl, hd.2.2.2.2, ?_⟩
    rw [h.sim.globals] at hd
    exact hs.earned hd

/-- Without an expiry the level of a process does not go up. -/
theorem neverExpires_run (h : Sound k a) (hs : Sliced slice a) {p : PcbPtr} (hp : k.Known p)
    {steps : List (Op × Kernel Pointers)} (hsteps : Follows k steps)
    (hnever : NeverExpires p slice k steps) :
    (lastState k steps).queueLevel (k.pcb p).pid ≤ k.queueLevel (k.pcb p).pid := by
  induction steps generalizing k a slice with
  | nil => exact le_rfl
  | cons s steps ih =>
      obtain ⟨op, k'⟩ := s
      obtain ⟨hop, hrun, hsteps⟩ := hsteps
      obtain ⟨hexpires, hset, hnever⟩ := hnever
      obtain ⟨a', h', hs'⟩ := h.sliced hs hop hrun
      obtain ⟨hp', hpid⟩ := (h.step_same hop hrun).2 p hp
      have hlater := ih h' hs' hp' hsteps hnever
      rw [hpid] at hlater
      refine hlater.trans ?_
      obtain hkeep | ⟨-, rfl, rfl, -, s, rfl, hearned⟩ := h.demotion hs hop hrun hp hset
      · rw [hkeep]
        exact Op.baseLevel_le ..
      · exact absurd hearned (hexpires rfl rfl s rfl)

end Sound

end DemosOS
