import DemosOS.Sched.Updates

/-!
# What the scheduler leaves alone

The functions of the scheduler write the scheduling fields of control blocks and the queue
links, and nothing else; and they put nobody in a waiting state.  This holds in every
state, also where the queues are not in order, and is all that the message passing and the
memory management need to know about a context switch.
-/

namespace DemosOS

/-- How deep a process is in critical sections, counting the one of the scheduler for every
process that does not run: it has been left there by `switch_to_process`, or it was created
with preemption disabled. -/
def Globals.depth (g : Globals) (p : PcbPtr) : Int :=
  (g.pcb p).preemptDisabled + if p = g.currentProcess then 1 else 0

/-- From `g` to `g'` only scheduling data changed, nobody was put in a waiting state, and
the critical sections are balanced. -/
structure Scheduled (g g' : Globals) : Prop where
  frozen : g'.frozen = g.frozen
  waiting : ∀ p, (g'.pcb p).state.IsWaiting → (g'.pcb p).state = (g.pcb p).state
  depth : ∀ p, g'.depth p = g.depth p

theorem Scheduled.trans {g g₁ g₂ : Globals} (h : Scheduled g g₁) (h' : Scheduled g₁ g₂) :
    Scheduled g g₂ where
  frozen := h'.frozen.trans h.frozen
  waiting p hp := by
    have hp₂ := h'.waiting p hp
    exact hp₂.trans (h.waiting p (hp₂ ▸ hp))
  depth p := (h'.depth p).trans (h.depth p)

/-- As `Scheduled`, within the turn of one process. -/
structure Steady (g g' : Globals) : Prop extends Scheduled g g' where
  currentProcess : g'.currentProcess = g.currentProcess

namespace Steady

variable {g g₁ g₂ : Globals}

theorem refl (g : Globals) : Steady g g := ⟨⟨rfl, fun _ _ ↦ rfl, fun _ ↦ rfl⟩, rfl⟩

theorem trans (h : Steady g g₁) (h' : Steady g₁ g₂) : Steady g g₂ :=
  ⟨h.toScheduled.trans h'.toScheduled, h'.currentProcess.trans h.currentProcess⟩

theorem preemptDisabled (h : Steady g g₁) (p : PcbPtr) :
    (g₁.pcb p).preemptDisabled = (g.pcb p).preemptDisabled := by
  have hdepth := h.depth p
  rw [Globals.depth, Globals.depth, h.currentProcess] at hdepth
  omega

/-- An update of the scheduling fields of one control block. -/
theorem modifyPcb (g : Globals) (p : PcbPtr) {f : PCB → PCB} (hf : ∀ b, (f b).frozen = b.frozen)
    (hstate : ∀ b, (f b).state.IsWaiting → (f b).state = b.state)
    (hpreempt : ∀ b, (f b).preemptDisabled = b.preemptDisabled) :
    Steady g (g.modifyPcb p f) where
  frozen := g.frozen_modifyPcb p hf
  waiting x hx := by
    by_cases hxp : x = p
    · subst hxp
      rw [Globals.modifyPcb_pcb_self] at hx ⊢
      exact hstate _ hx
    · rw [Globals.modifyPcb_pcb_of_ne _ _ hxp]
  depth x := congrArg (· + _) (g.modifyPcb_field p x f PCB.preemptDisabled hpreempt)
  currentProcess := rfl

theorem setState (g : Globals) (p : PcbPtr) {s : ProcessState} (hs : ¬ s.IsWaiting) :
    Steady g (g.setState p s) :=
  modifyPcb g p (fun _ ↦ rfl) (fun _ hw ↦ absurd hw hs) fun _ ↦ rfl

theorem setCounter (g : Globals) (p : PcbPtr) (c : Int) : Steady g (g.setCounter p c) :=
  modifyPcb g p (fun _ ↦ rfl) (fun _ _ ↦ rfl) fun _ ↦ rfl

/-- Data that does not concern the processes. -/
theorem of_pcb (hfrozen : g₁.frozen = g.frozen) (hpcb : g₁.pcb = g.pcb)
    (hcur : g₁.currentProcess = g.currentProcess) : Steady g g₁ where
  frozen := hfrozen
  waiting _ _ := by rw [hpcb]
  depth _ := by rw [Globals.depth, Globals.depth, hpcb, hcur]
  currentProcess := hcur

theorem kill (g : Globals) (p : PcbPtr) :
    Steady g (g.modifyPcb p fun b ↦ { b with state := .zombie }.clearSignal SIGNAL_KILL) := by
  refine modifyPcb g p ?_ ?_ ?_
  · exact fun _ ↦ rfl
  · exact fun _ hw ↦ hw.elim
  · exact fun _ ↦ rfl

theorem stop (g : Globals) (p : PcbPtr) :
    Steady g (g.modifyPcb p fun b ↦ { b with state := .stopped }.clearSignal SIGNAL_STOP) := by
  refine modifyPcb g p ?_ ?_ ?_
  · exact fun _ ↦ rfl
  · exact fun _ hw ↦ hw.elim
  · exact fun _ ↦ rfl

theorem account (g : Globals) (p : PcbPtr) {f : PCB → PCB} (hf : ∀ b, ∃ counter estBurst burstTicks,
    f b = { b with counter, estBurst, burstTicks }) : Steady g (g.modifyPcb p f) := by
  refine modifyPcb g p (fun b ↦ ?_) (fun b _ ↦ ?_) fun b ↦ ?_ <;>
    obtain ⟨_, _, _, hb⟩ := hf b <;> rw [hb]
  rfl

theorem update {signals : Prop} (h : Update signals g g₁) : Steady g g₁ := by
  cases h with
  | kill p => exact kill g p
  | stop p => exact stop g p
  | resume p => exact modifyPcb g p (fun _ ↦ rfl) (fun _ _ ↦ rfl) fun _ ↦ rfl
  | ready p => exact setState g p id
  | account p f hf => exact account g p hf
  | elsewhere g' hpcb hfrozen hcur => exact of_pcb hfrozen hpcb hcur

end Steady

/-- Every write of the scheduler is steady, and so are its functions. -/
theorem Updates.steady {signals : Prop} {g g' : Globals} (h : Updates signals g g') :
    Steady g g' := by
  induction h with
  | refl => exact .refl g
  | tail _ hstep ih => exact ih.trans (.update hstep)

theorem Globals.preemptDisabled_dispatch (g : Globals) (next p : PcbPtr) :
    ((g.dispatch next).pcb p).preemptDisabled =
      (g.pcb p).preemptDisabled - if p = next then 1 else 0 := by
  by_cases hp : p = next
  · subst hp
    rw [dispatch_pcb_self, if_pos rfl]
  · rw [if_neg hp, Int.sub_zero, dispatch, preemptEnable]
    have hcur : (g.switchToProcess next).currentProcess = next := g.dispatch_currentProcess next
    rw [hcur, modifyPcb_pcb_of_ne _ _ hp]
    obtain ⟨-, hs⟩ | ⟨-, -, hs⟩ | ⟨-, -, hs⟩ := g.switchToProcess_cases next
    · rw [hs]
      exact setState_field _ _ _ PCB.preemptDisabled (fun _ _ ↦ rfl) p
    · rw [hs]
      exact (setState_field _ _ _ PCB.preemptDisabled (fun _ _ ↦ rfl) p).trans
        (setState_field _ _ _ PCB.preemptDisabled (fun _ _ ↦ rfl) p)
    · rw [hs]
      exact setState_field _ _ _ PCB.preemptDisabled (fun _ _ ↦ rfl) p

theorem Globals.waiting_dispatch (g : Globals) (next : PcbPtr) {p : PcbPtr}
    (hp : ((g.dispatch next).pcb p).state.IsWaiting) :
    ((g.dispatch next).pcb p).state = (g.pcb p).state := by
  have hswitch : ((g.dispatch next).pcb p).state = ((g.switchToProcess next).pcb p).state := by
    rw [dispatch, preemptEnable]
    exact modifyPcb_field _ _ p _ PCB.state fun _ ↦ rfl
  rw [hswitch] at hp ⊢
  have hnext : Steady g (g.setState next .running) := .setState g next id
  obtain ⟨-, hs⟩ | ⟨-, -, hs⟩ | ⟨-, -, hs⟩ := g.switchToProcess_cases next
  · rw [hs] at hp ⊢
    exact hnext.waiting p hp
  · rw [hs] at hp ⊢
    exact (hnext.trans (.setState _ g.currentProcess (s := .ready) id)).waiting p hp
  · rw [hs] at hp ⊢
    exact hnext.waiting p hp

/-- The critical section of a selection function: entered by the process that gives up the
processor and left by the one that gets it. -/
theorem Scheduled.dispatch {g g₁ : Globals} (h : Steady g.preemptDisable g₁) (next : PcbPtr) :
    Scheduled g (g₁.dispatch next) where
  frozen := (g₁.frozen_dispatch next).trans (h.frozen.trans (g.frozen_modifyPcb _ fun _ ↦ rfl))
  waiting p hp := by
    have hp₁ := g₁.waiting_dispatch next hp
    have hp₀ := h.waiting p (hp₁ ▸ hp)
    exact hp₁.trans (hp₀.trans (g.modifyPcb_field _ p _ PCB.state fun _ ↦ rfl))
  depth p := by
    have hdisable : (g.preemptDisable.pcb p).preemptDisabled =
        (g.pcb p).preemptDisabled + if p = g.currentProcess then 1 else 0 := by
      by_cases hp : p = g.currentProcess
      · subst hp
        simp [Globals.preemptDisable]
      · simp [Globals.preemptDisable, hp]
    rw [Globals.depth, Globals.depth, g₁.preemptDisabled_dispatch, h.preemptDisabled, hdisable,
      Globals.dispatch_currentProcess]
    omega

/-! ## Queues, signals and selection -/

namespace Kernel

variable {k k' : Kernel Pointers}

theorem steady_enqueueProcess {p : PcbPtr} (h : k.enqueueProcess p = some k') :
    Steady k.toGlobals k'.toGlobals := by
  have hupdates : Updates False k.toGlobals k'.toGlobals := updates_enqueueProcess h
  exact hupdates.steady

theorem steady_wakeIf {s : ProcessState} {p : PcbPtr} (h : k.wakeIf s p = some k') :
    Steady k.toGlobals k'.toGlobals := by
  have hupdates : Updates False k.toGlobals k'.toGlobals := updates_wakeIf h
  exact hupdates.steady

theorem scheduled_pickNext (h : k.pickNext = some k') : Scheduled k.toGlobals k'.toGlobals := by
  obtain ⟨⟨next, k₁⟩, hsel, h⟩ := Option.bind_eq_some_iff.mp h
  obtain rfl := Option.some.inj h
  exact .dispatch (updates_select hsel).steady next

/-- Giving up the processor. -/
theorem scheduled_schedule (h : k.schedule = some k') : Scheduled k.toGlobals k'.toGlobals := by
  have hend : Updates False k.toGlobals k.toGlobals.endBurst := .endBurst _
  exact hend.steady.toScheduled.trans (scheduled_pickNext h)

/-! ## The timer tick -/

/-- A timer tick. -/
theorem scheduled_handleTimerTick (h : k.handleTimerTick = some k') :
    Scheduled k.toGlobals k'.toGlobals := by
  obtain ⟨⟨b, k₁⟩, hentry, h⟩ := Option.bind_eq_some_iff.mp h
  have hupdates : Updates False k.toGlobals k₁.toGlobals := updates_tickEntry hentry
  have hk₁ := hupdates.steady
  cases b with
  | false =>
      obtain rfl := Option.some.inj h
      exact hk₁.toScheduled
  | true => exact hk₁.toScheduled.trans (scheduled_pickNext h)

/-! ## What a tick decides -/

/-- From `k` to `k'` only process states, links and levels changed. -/
structure Relinked (k k' : Kernel Pointers) : Prop where
  currentProcess : k'.currentProcess = k.currentProcess
  activeAlgorithm : k'.activeAlgorithm = k.activeAlgorithm
  field : ∀ {α : Type} (π : PCB → α), (∀ (b : PCB) (s : ProcessState),
    π { b with state := s } = π b) → ∀ p, π (k'.pcb p) = π (k.pcb p)

namespace Relinked

theorem refl (k : Kernel Pointers) : Relinked k k := ⟨rfl, rfl, fun _ _ _ ↦ rfl⟩

theorem trans {k₁ k₂ : Kernel Pointers} (h : Relinked k k₁) (h' : Relinked k₁ k₂) :
    Relinked k k₂ :=
  ⟨h'.currentProcess.trans h.currentProcess, h'.activeAlgorithm.trans h.activeAlgorithm,
    fun π hπ p ↦ (h'.field π hπ p).trans (h.field π hπ p)⟩

theorem enqueueProcessTo (q : QueueId) (p : PcbPtr) (k : Kernel Pointers) :
    Relinked k (k.enqueueProcessTo q p) := by
  unfold Kernel.enqueueProcessTo
  split_ifs
  · exact refl k
  · exact ⟨rfl, rfl, fun π hπ x ↦ Globals.setState_field _ _ _ π hπ x⟩

theorem enqueueSortedTo {q : QueueId} {p : PcbPtr} (h : k.enqueueSortedTo q p = some k') :
    Relinked k k' := by
  have hready : ∀ {links : Pointers}, Relinked k ⟨k.toGlobals.setState p .ready, links⟩ :=
    ⟨rfl, rfl, fun π hπ x ↦ Globals.setState_field _ _ _ π hπ x⟩
  unfold Kernel.enqueueSortedTo at h
  split_ifs at h
  · obtain rfl := Option.some.inj h
    exact refl k
  · dsimp only at h
    split at h
    · obtain rfl := Option.some.inj h
      exact hready
    · split_ifs at h
      · obtain rfl := Option.some.inj h
        exact hready
      · obtain ⟨c, -, h⟩ := Option.bind_eq_some_iff.mp h
        obtain rfl := Option.some.inj h
        exact hready

theorem enqueueProcess {p : PcbPtr} (h : k.enqueueProcess p = some k') : Relinked k k' := by
  unfold Kernel.enqueueProcess activeEnqueue at h
  split_ifs at h
  · obtain rfl := Option.some.inj h
    exact refl k
  · split at h
    · obtain rfl := Option.some.inj h
      exact enqueueProcessTo ..
    · exact enqueueSortedTo h
    · obtain rfl := Option.some.inj h
      exact enqueueProcessTo ..

theorem wakeIf {s : ProcessState} {p : PcbPtr} (h : k.wakeIf s p = some k') : Relinked k k' := by
  unfold Kernel.wakeIf at h
  split_ifs at h
  · have hready : Relinked k (k.mapGlobals (·.setState p .ready)) :=
      ⟨rfl, rfl, fun π hπ x ↦ Globals.setState_field _ _ _ π hπ x⟩
    exact hready.trans (enqueueProcess h)
  · obtain rfl := Option.some.inj h
    exact refl k

theorem boostQueue {q fuel : Nat} (h : k.boostQueue q fuel = some k') : Relinked k k' := by
  induction fuel generalizing k with
  | zero => simp [Kernel.boostQueue] at h
  | succ fuel ih =>
      unfold Kernel.boostQueue at h
      dsimp only [dequeueProcessFrom] at h
      split at h
      · rename_i hpop
        obtain rfl := Option.some.inj h
        rw [← (Prod.mk.inj hpop).2]
        exact ⟨rfl, rfl, fun _ _ _ ↦ rfl⟩
      · rename_i p k₁ hpop
        have hk₁ : Relinked k (k₁.mapGlobals fun g ↦
            { g with queueLevel := Function.update g.queueLevel (g.pcb p).pid 0 }) := by
          rw [← (Prod.mk.inj hpop).2]
          exact ⟨rfl, rfl, fun _ _ _ ↦ rfl⟩
        exact (hk₁.trans (enqueueProcessTo ..)).trans (ih h)

theorem boostQueues {levels : List Nat}
    (h : levels.foldlM (fun k q ↦ k.boostQueue q QUEUE_FUEL) k = some k') : Relinked k k' :=
  Lib.foldlM_rel refl trans boostQueue h

theorem boost {policy : MultilevelPolicy} (h : k.boost policy = some k') : Relinked k k' := by
  obtain ⟨k₁, hk₁, h⟩ := Option.bind_eq_some_iff.mp h
  obtain rfl := Option.some.inj h
  exact (boostQueues hk₁).trans ⟨rfl, rfl, fun _ _ _ ↦ rfl⟩

theorem demote (k : Kernel Pointers) (policy : MultilevelPolicy) :
    Relinked k (k.mapGlobals (·.demote policy)) := by
  by_cases h : k.Demotes policy
  · refine ⟨?_, ?_, fun π _ p ↦ ?_⟩ <;> simp only [mapGlobals_toGlobals, Globals.demote, if_pos h]
  · refine ⟨?_, ?_, fun π _ p ↦ ?_⟩ <;> simp only [mapGlobals_toGlobals, Globals.demote, if_neg h]

theorem onTick (h : k.onTick = some k') : Relinked k k' := by
  unfold Kernel.onTick at h
  split at h
  · obtain rfl := Option.some.inj h
    exact refl k
  · obtain ⟨policy, -, h⟩ := Option.bind_eq_some_iff.mp h
    have hcount : Relinked k (k.mapGlobals fun g ↦
        { g with mlTicksSinceBoost := g.mlTicksSinceBoost + 1 }) := ⟨rfl, rfl, fun _ _ _ ↦ rfl⟩
    dsimp only at h
    split_ifs at h
    · obtain ⟨k₁, hk₁, h⟩ := Option.bind_eq_some_iff.mp h
      obtain rfl := Option.some.inj h
      exact (hcount.trans (boost hk₁)).trans (demote _ policy)
    · obtain rfl := Option.some.inj h
      exact hcount.trans (demote _ policy)
    · obtain rfl := Option.some.inj h
      exact demote _ policy

end Relinked

/-- Whoever is woken is not in the waiting state any more. -/
theorem wakeIf_state {s : ProcessState} (hs : s.IsWaiting) {p : PcbPtr}
    (h : k.wakeIf s p = some k') : (k'.pcb p).state ≠ s := by
  unfold wakeIf at h
  split_ifs at h with hwaiting
  · intro hstate
    have hsame := (steady_enqueueProcess h).waiting p (by rwa [hstate])
    rw [hstate, mapGlobals_toGlobals, Globals.setState, Globals.modifyPcb_pcb_self] at hsame
    rw [hsame] at hs
    exact hs
  · obtain rfl := Option.some.inj h
    exact hwaiting

/-- A scheduler invocation ends with the current process `RUNNING`. -/
theorem pickNext_current (h : k.pickNext = some k') : k'.current.state = .running := by
  obtain ⟨⟨next, k₁⟩, -, h⟩ := Option.bind_eq_some_iff.mp h
  obtain rfl := Option.some.inj h
  rw [mapGlobals_toGlobals, Globals.current, Globals.dispatch_currentProcess,
    Globals.dispatch_pcb_self]

/-- A tick enters the scheduler in exactly these states. -/
theorem tickEntry_spec {b : Bool} (h : k.tickEntry = some (b, k')) :
    k'.currentProcess = k.currentProcess ∧ (b = true ↔ k.TickSwitches) := by
  obtain ⟨k₁, htick, h⟩ := Option.bind_eq_some_iff.mp h
  have hrel := Relinked.onTick htick
  have hcur : k₁.currentProcess = k.currentProcess := hrel.currentProcess
  have hcounter : k₁.current.counter = k.current.counter - 1 := by
    rw [Globals.current, hcur, hrel.field PCB.counter fun _ _ ↦ rfl]
    simp [Globals.chargeTick, Globals.current]
  have hpre : k₁.current.preemptDisabled = k.current.preemptDisabled := by
    rw [Globals.current, hcur, hrel.field PCB.preemptDisabled fun _ _ ↦ rfl]
    simp [Globals.chargeTick, Globals.current]
  have halg : k₁.algorithm = k.algorithm := congrArg Algorithm.descriptor hrel.activeAlgorithm
  have halg' :
      (k₁.mapGlobals fun g ↦ g.setCounter g.currentProcess 0).algorithm = k.algorithm := halg
  dsimp only at h
  rw [hcounter, hpre, halg'] at h
  unfold Globals.TickSwitches
  split_ifs at h with hreturn hkeep
  · obtain ⟨rfl, rfl⟩ := Prod.mk.inj (Option.some.inj h)
    refine ⟨hcur, iff_of_false (by decide) ?_⟩
    rintro ⟨h₁, h₂, -⟩
    omega
  · obtain ⟨rfl, rfl⟩ := Prod.mk.inj (Option.some.inj h)
    refine ⟨hcur, iff_of_false (by decide) ?_⟩
    rintro ⟨-, -, h₁ | h₁⟩
    · exact absurd (h₁.symm.trans hkeep.1) (by decide)
    · exact hkeep.2 (hcur.trans h₁)
  · obtain ⟨rfl, rfl⟩ := Prod.mk.inj (Option.some.inj h)
    refine ⟨hcur, iff_of_true rfl ⟨by omega, by omega, ?_⟩⟩
    by_contra hnot
    rw [not_or, Bool.not_eq_true] at hnot
    exact hkeep ⟨hnot.1, fun hinit ↦ hnot.2 (hcur.symm.trans hinit)⟩

/-- A tick either keeps the running process or dispatches one. -/
theorem handleTimerTick_cases (h : k.handleTimerTick = some k') :
    (¬ k.TickSwitches ∧ k'.currentProcess = k.currentProcess) ∨
      (k.TickSwitches ∧ k'.current.state = .running) := by
  obtain ⟨⟨b, k₁⟩, hentry, h⟩ := Option.bind_eq_some_iff.mp h
  obtain ⟨hcur, hiff⟩ := tickEntry_spec hentry
  cases b with
  | false =>
      obtain rfl := Option.some.inj h
      exact .inl ⟨fun hs ↦ by simpa using hiff.mpr hs, hcur⟩
  | true => exact .inr ⟨hiff.mp rfl, pickNext_current h⟩

end Kernel

end DemosOS
