import DemosOS.Lib.Loop
import DemosOS.Sched.Invariant

/-!
# The writes of the scheduler

Between the entry of a critical section and its end, and in the bookkeeping of a tick, the
functions of the scheduler write to the control blocks in six ways.  This holds in every
state, also where the queues are not in order.  What every such write keeps is kept by the
functions, with no induction over their loops.
-/

namespace DemosOS

/-- One write of the scheduler to its data, outside the critical-section counters.  The first
three are those of `handle_process_signals`, where it is called. -/
inductive Update (signals : Prop) (g : Globals) : Globals → Prop
  | kill (p : PcbPtr) (hs : signals) (h : (g.pcb p).hasSignal SIGNAL_KILL) :
      Update signals g (g.modifyPcb p fun b ↦ { b with state := .zombie }.clearSignal SIGNAL_KILL)
  | stop (p : PcbPtr) (hs : signals) (h : (g.pcb p).hasSignal SIGNAL_STOP) :
      Update signals g (g.modifyPcb p fun b ↦ { b with state := .stopped }.clearSignal SIGNAL_STOP)
  | resume (p : PcbPtr) (hs : signals) :
      Update signals g (g.modifyPcb p fun b ↦ b.clearSignal SIGNAL_RESUME)
  | ready (p : PcbPtr) : Update signals g (g.setState p .ready)
  | account (p : PcbPtr) (f : PCB → PCB) (hf : ∀ b, ∃ counter estBurst burstTicks,
      f b = { b with counter, estBurst, burstTicks }) : Update signals g (g.modifyPcb p f)
  | elsewhere (g' : Globals) (hpcb : g'.pcb = g.pcb) (hfrozen : g'.frozen = g.frozen)
      (hcur : g'.currentProcess = g.currentProcess) : Update signals g g'

/-- A sequence of such writes. -/
def Updates (signals : Prop) : Globals → Globals → Prop := Relation.ReflTransGen (Update signals)

namespace Updates

variable {signals : Prop} {g g₁ g₂ : Globals}

theorem refl (g : Globals) : Updates signals g g := Relation.ReflTransGen.refl

theorem trans (h : Updates signals g g₁) (h' : Updates signals g₁ g₂) : Updates signals g g₂ :=
  Relation.ReflTransGen.trans h h'

theorem one (h : Update signals g g₁) : Updates signals g g₁ := .single h

theorem setCounter (g : Globals) (p : PcbPtr) (c : Int) : Updates signals g (g.setCounter p c) :=
  one (.account p _ fun _ ↦ ⟨_, _, _, rfl⟩)

theorem chargeTick (g : Globals) : Updates signals g g.chargeTick :=
  one (.account _ _ fun _ ↦ ⟨_, _, _, rfl⟩)

theorem endBurst (g : Globals) : Updates signals g g.endBurst := by
  unfold Globals.endBurst
  dsimp only
  split_ifs
  · refine trans (one ?_) (setCounter _ _ _)
    exact .account _ _ fun _ ↦ ⟨_, _, _, rfl⟩
  · exact setCounter _ _ _

theorem recharge (g : Globals) : Updates signals g g.recharge := by
  unfold Globals.recharge
  induction List.range N_PROCESSES generalizing g with
  | nil => exact refl g
  | cons i l ih =>
      rw [List.foldl_cons]
      refine trans ?_ (ih _)
      unfold Globals.rechargeSlot
      cases g.processes i with
      | none => exact refl g
      | some p => exact one (.account p _ fun _ ↦ ⟨_, _, _, rfl⟩)

/-- Data that does not concern the processes. -/
theorem elsewhere (hpcb : g₁.pcb = g.pcb) (hfrozen : g₁.frozen = g.frozen)
    (hcur : g₁.currentProcess = g.currentProcess) : Updates signals g g₁ :=
  one (.elsewhere g₁ hpcb hfrozen hcur)

end Updates

/-! ## Termination -/

/-- The process has not terminated, and nobody has sent it `KILL`. -/
def Globals.Spared (g : Globals) (p : PcbPtr) : Prop :=
  (g.pcb p).state ≠ .zombie ∧ ¬ (g.pcb p).hasSignal SIGNAL_KILL

namespace Updates

variable {g g' : Globals} {p : PcbPtr}

/-- Clearing a signal does not raise `KILL`. -/
theorem not_hasSignal_clearSignal {b : PCB} (h : ¬ b.hasSignal SIGNAL_KILL) {s : Nat}
    (hs : s < 32) : ¬ (b.clearSignal s).hasSignal SIGNAL_KILL := fun hkill ↦
  h ((PCB.hasSignal_clearSignal b hs (by decide)).mp hkill).1

/-- A process without a pending `KILL` is not terminated by the scheduler. -/
theorem spared {signals : Prop} (h : Updates signals g g') (hp : g.Spared p) : g'.Spared p := by
  induction h with
  | refl => exact hp
  | @tail g₁ g₂ _ hstep ih =>
      obtain ⟨hstate, hkill⟩ := ih
      -- an update of another control block, or of this one
      have hmodify : ∀ (x : PcbPtr) (f : PCB → PCB),
          (x = p → (f (g₁.pcb p)).state ≠ .zombie ∧ ¬ (f (g₁.pcb p)).hasSignal SIGNAL_KILL) →
          (g₁.modifyPcb x f).Spared p := by
        intro x f hf
        by_cases hx : p = x
        · subst hx
          rw [Globals.Spared, Globals.modifyPcb_pcb_self]
          exact hf rfl
        · rw [Globals.Spared, Globals.modifyPcb_pcb_of_ne _ _ hx]
          exact ⟨hstate, hkill⟩
      cases hstep with
      | kill x _ hx => exact hmodify x _ fun he ↦ absurd (he ▸ hx) hkill
      | stop x => exact hmodify x _ fun _ ↦ ⟨nofun, not_hasSignal_clearSignal hkill (by decide)⟩
      | resume x =>
          exact hmodify x _ fun _ ↦ ⟨hstate, not_hasSignal_clearSignal hkill (by decide)⟩
      | ready x => exact hmodify x _ fun _ ↦ ⟨nofun, hkill⟩
      | account x f hf =>
          refine hmodify x f fun _ ↦ ?_
          obtain ⟨_, _, _, hb⟩ := hf (g₁.pcb p)
          rw [hb]
          exact ⟨hstate, hkill⟩
      | elsewhere _ hpcb =>
          rw [Globals.Spared, hpcb]
          exact ⟨hstate, hkill⟩

/-- Where signals are not handled a state changes to `READY` only. -/
theorem state_or_ready (h : Updates False g g') (p : PcbPtr) :
    (g'.pcb p).state = (g.pcb p).state ∨ (g'.pcb p).state = .ready := by
  induction h with
  | refl => exact .inl rfl
  | @tail g₁ g₂ _ hstep ih =>
      cases hstep with
      | kill _ hs => exact hs.elim
      | stop _ hs => exact hs.elim
      | resume _ hs => exact hs.elim
      | ready x =>
          rw [Globals.setState, Globals.modifyPcb_pcb]
          split_ifs
          · exact .inr rfl
          · exact ih
      | account x f hf =>
          have hstate := g₁.modifyPcb_field x p f PCB.state fun b ↦ by
            obtain ⟨_, _, _, hb⟩ := hf b
            rw [hb]
          rwa [hstate]
      | elsewhere _ hpcb => rwa [hpcb]

/-- Where signals are not handled nobody terminates. -/
theorem not_zombie (h : Updates False g g') (hp : (g.pcb p).state ≠ .zombie) :
    (g'.pcb p).state ≠ .zombie := by
  rcases h.state_or_ready p with hsame | hready
  · rwa [hsame]
  · rw [hready]
    exact nofun

end Updates

/-! ## Queues and signals -/

namespace Kernel

variable {signals : Prop} {k k' : Kernel Pointers}

theorem updates_enqueueProcessTo (q : QueueId) (p : PcbPtr) (k : Kernel Pointers) :
    Updates signals k.toGlobals (k.enqueueProcessTo q p).toGlobals := by
  unfold enqueueProcessTo
  split_ifs
  · exact .refl _
  · exact .one (.ready p)

theorem updates_enqueueSortedTo {q : QueueId} {p : PcbPtr}
    (h : k.enqueueSortedTo q p = some k') : Updates signals k.toGlobals k'.toGlobals := by
  unfold enqueueSortedTo at h
  split_ifs at h
  · obtain rfl := Option.some.inj h
    exact .refl _
  · have hready : Updates signals k.toGlobals (k.toGlobals.setState p .ready) := .one (.ready p)
    dsimp only at h
    split at h
    · obtain rfl := Option.some.inj h
      exact hready
    · split_ifs at h
      · obtain rfl := Option.some.inj h
        exact hready
      · obtain ⟨c, -, h⟩ := Option.bind_eq_some_iff.mp h
        obtain rfl := Option.some.inj h
        exact hready

theorem updates_activeEnqueue {p : PcbPtr} (h : k.activeEnqueue p = some k') :
    Updates signals k.toGlobals k'.toGlobals := by
  unfold activeEnqueue at h
  split at h
  · obtain rfl := Option.some.inj h
    exact updates_enqueueProcessTo ..
  · exact updates_enqueueSortedTo h
  · obtain rfl := Option.some.inj h
    exact updates_enqueueProcessTo ..

theorem updates_enqueueProcess {p : PcbPtr} (h : k.enqueueProcess p = some k') :
    Updates signals k.toGlobals k'.toGlobals := by
  unfold enqueueProcess at h
  split_ifs at h
  · obtain rfl := Option.some.inj h
    exact .refl _
  · exact updates_activeEnqueue h

theorem updates_wakeIf {s : ProcessState} {p : PcbPtr} (h : k.wakeIf s p = some k') :
    Updates signals k.toGlobals k'.toGlobals := by
  unfold wakeIf at h
  split_ifs at h
  · exact Updates.trans (.one (.ready p)) (updates_enqueueProcess h)
  · obtain rfl := Option.some.inj h
    exact .refl _

theorem updates_handleProcessSignals {p : PcbPtr} (h : k.handleProcessSignals p = some k') :
    Updates True k.toGlobals k'.toGlobals := by
  unfold handleProcessSignals at h
  dsimp only at h
  have hresume : Updates True k.toGlobals
      (k.toGlobals.modifyPcb p fun b ↦ b.clearSignal SIGNAL_RESUME) := .one (.resume p trivial)
  split_ifs at h with hnone hkill hstop
  · obtain rfl := Option.some.inj h
    exact .refl _
  · obtain rfl := Option.some.inj h
    exact .one (.kill p trivial hkill)
  · obtain rfl := Option.some.inj h
    exact .one (.stop p trivial hstop)
  · exact (hresume.trans (.one (.ready p))).trans (updates_enqueueProcess h)
  · obtain rfl := Option.some.inj h
    exact hresume
  · obtain rfl := Option.some.inj h
    exact .refl _

/-! ## Selection -/

theorem updates_takeReady {q : QueueId} {fuel : Nat} {next : Option PcbPtr}
    (h : k.takeReady q fuel = some (next, k')) : Updates True k.toGlobals k'.toGlobals := by
  induction fuel generalizing k with
  | zero => simp [takeReady] at h
  | succ fuel ih =>
      unfold takeReady at h
      dsimp only [dequeueProcessFrom] at h
      split at h
      · rename_i hpop
        obtain ⟨rfl, rfl⟩ := Prod.mk.inj (Option.some.inj h)
        rw [← (Prod.mk.inj hpop).2]
        exact .refl _
      · rename_i p k₁ hpop
        obtain ⟨k₂, hk₂, h⟩ := Option.bind_eq_some_iff.mp h
        have hk₁ : Updates True k.toGlobals k₁.toGlobals := by
          rw [← (Prod.mk.inj hpop).2]
          exact .refl _
        have hsig := hk₁.trans (updates_handleProcessSignals hk₂)
        split_ifs at h
        · obtain ⟨rfl, rfl⟩ := Prod.mk.inj (Option.some.inj h)
          exact hsig
        · exact hsig.trans (ih h)

theorem updates_parkFifo (k : Kernel Pointers) : Updates signals k.toGlobals
    k.parkFifo.toGlobals := by
  unfold parkFifo
  split_ifs
  · exact updates_enqueueProcessTo ..
  · exact .refl _

theorem updates_parkMultilevel (k : Kernel Pointers) :
    Updates signals k.toGlobals k.parkMultilevel.toGlobals := by
  unfold parkMultilevel
  split_ifs
  · exact updates_enqueueProcessTo ..
  · exact .refl _

theorem updates_parkActive (h : k.parkActive = some k') :
    Updates signals k.toGlobals k'.toGlobals := by
  unfold parkActive at h
  split_ifs at h
  · exact updates_activeEnqueue h
  · obtain rfl := Option.some.inj h
    exact .refl _

theorem updates_drawWinner {fuel : Nat} {next : Option PcbPtr}
    (h : k.drawWinner fuel = some (next, k')) : Updates True k.toGlobals k'.toGlobals := by
  induction fuel generalizing k with
  | zero => simp [drawWinner] at h
  | succ fuel ih =>
      unfold drawWinner at h
      obtain ⟨total, -, h⟩ := Option.bind_eq_some_iff.mp h
      split_ifs at h
      · obtain ⟨rfl, rfl⟩ := Prod.mk.inj (Option.some.inj h)
        exact .refl _
      · obtain ⟨⟨previous, candidate⟩, -, h⟩ := Option.bind_eq_some_iff.mp h
        obtain ⟨candidate, -, h⟩ := Option.bind_eq_some_iff.mp h
        obtain ⟨k₂, hk₂, h⟩ := Option.bind_eq_some_iff.mp h
        have hdraw : Updates True k.toGlobals k.toGlobals.lotteryRandom.2 := .elsewhere rfl rfl rfl
        have hsig := hdraw.trans (updates_handleProcessSignals hk₂)
        split_ifs at h
        · obtain ⟨rfl, rfl⟩ := Prod.mk.inj (Option.some.inj h)
          exact hsig
        · exact hsig.trans (ih h)

theorem updates_agingWalk {fuel : Nat} {node previous : Option PcbPtr}
    {best best' : Option PcbPtr × Option PcbPtr} {maxCounter : Int}
    (h : agingWalk fuel node previous best maxCounter k = some (best', k')) :
    Updates True k.toGlobals k'.toGlobals := by
  induction fuel generalizing k node previous best maxCounter with
  | zero => simp [agingWalk] at h
  | succ fuel ih =>
      cases node with
      | none =>
          obtain ⟨-, rfl⟩ := Prod.mk.inj (Option.some.inj h)
          exact .refl _
      | some p =>
          unfold agingWalk at h
          obtain ⟨k₂, hk₂, h⟩ := Option.bind_eq_some_iff.mp h
          have hsig := updates_handleProcessSignals hk₂
          split_ifs at h
          · have hrest : Updates True (k₂.removeProcessFrom .readyQueue previous p).toGlobals
                k'.toGlobals := ih h
            exact hsig.trans hrest
          · exact hsig.trans (ih h)
          · exact hsig.trans (ih h)

theorem updates_agingLoop {fuel : Nat} {next : Option PcbPtr}
    (h : agingLoop fuel k = some (next, k')) : Updates True k.toGlobals k'.toGlobals := by
  induction fuel generalizing k with
  | zero => simp [agingLoop] at h
  | succ fuel ih =>
      unfold agingLoop at h
      obtain ⟨⟨⟨best, bestPrevious⟩, k₁⟩, hwalk, h⟩ := Option.bind_eq_some_iff.mp h
      have hk₁ := updates_agingWalk hwalk
      cases best with
      | some best =>
          obtain ⟨-, rfl⟩ := Prod.mk.inj (Option.some.inj h)
          exact hk₁
      | none =>
          dsimp only at h
          split_ifs at h
          · obtain ⟨-, rfl⟩ := Prod.mk.inj (Option.some.inj h)
            exact hk₁
          · exact (hk₁.trans (.recharge _)).trans (ih h)

theorem updates_takeFromLevels {levels : List Nat} {next : Option (PcbPtr × Nat)}
    (h : k.takeFromLevels levels = some (next, k')) : Updates True k.toGlobals k'.toGlobals := by
  induction levels generalizing k with
  | nil =>
      obtain ⟨-, rfl⟩ := Prod.mk.inj (Option.some.inj h)
      exact .refl _
  | cons q levels ih =>
      unfold takeFromLevels at h
      obtain ⟨⟨next', k₁⟩, htake, h⟩ := Option.bind_eq_some_iff.mp h
      have hk₁ := updates_takeReady htake
      cases next' with
      | some p =>
          obtain ⟨-, rfl⟩ := Prod.mk.inj (Option.some.inj h)
          exact hk₁
      | none => exact hk₁.trans (ih h)

/-- A selection, inside its critical section. -/
theorem updates_select {next : PcbPtr} (h : k.select = some (next, k')) :
    Updates True k.toGlobals.preemptDisable k'.toGlobals := by
  unfold select at h
  split at h
  · obtain ⟨⟨next', k₁⟩, hloop, h⟩ := Option.bind_eq_some_iff.mp h
    have hk₁ := (updates_parkFifo (k.mapGlobals (·.preemptDisable))).trans
      (updates_agingLoop hloop)
    cases next' <;> obtain ⟨-, rfl⟩ := Prod.mk.inj (Option.some.inj h) <;> exact hk₁
  · obtain ⟨⟨next', k₁⟩, hloop, h⟩ := Option.bind_eq_some_iff.mp h
    have hk₁ := (updates_parkFifo (k.mapGlobals (·.preemptDisable))).trans
      (updates_takeReady hloop)
    cases next' with
    | none =>
        obtain ⟨-, rfl⟩ := Prod.mk.inj (Option.some.inj h)
        exact hk₁
    | some p =>
        obtain ⟨-, rfl⟩ := Prod.mk.inj (Option.some.inj h)
        exact hk₁.trans (.setCounter _ p 10)
  · obtain ⟨⟨next', k₁⟩, hloop, h⟩ := Option.bind_eq_some_iff.mp h
    have hk₁ := (updates_parkFifo (k.mapGlobals (·.preemptDisable))).trans
      (updates_drawWinner hloop)
    cases next' with
    | none =>
        obtain ⟨-, rfl⟩ := Prod.mk.inj (Option.some.inj h)
        exact hk₁
    | some p =>
        obtain ⟨-, rfl⟩ := Prod.mk.inj (Option.some.inj h)
        exact hk₁.trans (.setCounter _ p 10)
  · obtain ⟨k₀, hpark, h⟩ := Option.bind_eq_some_iff.mp h
    obtain ⟨⟨next', k₁⟩, hloop, h⟩ := Option.bind_eq_some_iff.mp h
    have hk₁ := (updates_parkActive hpark).trans (updates_takeReady hloop)
    cases next' <;> obtain ⟨-, rfl⟩ := Prod.mk.inj (Option.some.inj h) <;> exact hk₁
  · obtain ⟨policy, -, h⟩ := Option.bind_eq_some_iff.mp h
    obtain ⟨⟨next', k₁⟩, hloop, h⟩ := Option.bind_eq_some_iff.mp h
    have hk₁ := (updates_parkMultilevel (k.mapGlobals (·.preemptDisable))).trans
      (updates_takeFromLevels hloop)
    cases next' with
    | none =>
        obtain ⟨-, rfl⟩ := Prod.mk.inj (Option.some.inj h)
        exact hk₁
    | some r =>
        obtain ⟨-, rfl⟩ := Prod.mk.inj (Option.some.inj h)
        exact hk₁.trans (.setCounter _ r.1 _)

/-! ## The bookkeeping of a tick -/

theorem updates_boostQueue {q fuel : Nat} (h : k.boostQueue q fuel = some k') :
    Updates signals k.toGlobals k'.toGlobals := by
  induction fuel generalizing k with
  | zero => simp [boostQueue] at h
  | succ fuel ih =>
      unfold boostQueue at h
      dsimp only [dequeueProcessFrom] at h
      split at h
      · rename_i hpop
        obtain rfl := Option.some.inj h
        rw [← (Prod.mk.inj hpop).2]
        exact .refl _
      · rename_i p k₁ hpop
        have hk₁ : Updates signals k.toGlobals k₁.toGlobals := by
          rw [← (Prod.mk.inj hpop).2]
          exact .refl _
        have hlevel : Updates signals k₁.toGlobals (k₁.mapGlobals fun g ↦
            { g with queueLevel := Function.update g.queueLevel (g.pcb p).pid 0 }).toGlobals :=
          .elsewhere rfl rfl rfl
        exact ((hk₁.trans hlevel).trans (updates_enqueueProcessTo ..)).trans (ih h)

theorem updates_boostQueues {levels : List Nat}
    (h : levels.foldlM (fun k q ↦ k.boostQueue q QUEUE_FUEL) k = some k') :
    Updates signals k.toGlobals k'.toGlobals :=
  Lib.foldlM_invariant (I := fun k₁ ↦ Updates signals k.toGlobals k₁.toGlobals)
    (fun hupdates hround ↦ hupdates.trans (updates_boostQueue hround)) h (.refl _)

theorem updates_boost {policy : MultilevelPolicy} (h : k.boost policy = some k') :
    Updates signals k.toGlobals k'.toGlobals := by
  obtain ⟨k₁, hk₁, h⟩ := Option.bind_eq_some_iff.mp h
  obtain rfl := Option.some.inj h
  exact (updates_boostQueues hk₁).trans (.elsewhere rfl rfl rfl)

theorem updates_demote (g : Globals) (policy : MultilevelPolicy) :
    Updates signals g (g.demote policy) := by
  unfold Globals.demote
  split_ifs
  · exact .elsewhere rfl rfl rfl
  · exact .refl _

theorem updates_onTick (h : k.onTick = some k') : Updates signals k.toGlobals k'.toGlobals := by
  unfold onTick at h
  split at h
  · obtain rfl := Option.some.inj h
    exact .refl _
  · obtain ⟨policy, -, h⟩ := Option.bind_eq_some_iff.mp h
    have hcount : Updates signals k.toGlobals (k.mapGlobals fun g ↦
        { g with mlTicksSinceBoost := g.mlTicksSinceBoost + 1 }).toGlobals := .elsewhere rfl rfl rfl
    dsimp only at h
    split_ifs at h
    · obtain ⟨k₁, hk₁, h⟩ := Option.bind_eq_some_iff.mp h
      obtain rfl := Option.some.inj h
      exact (hcount.trans (updates_boost hk₁)).trans (updates_demote _ policy)
    · obtain rfl := Option.some.inj h
      exact hcount.trans (updates_demote _ policy)
    · obtain rfl := Option.some.inj h
      exact updates_demote _ policy

theorem updates_tickEntry {b : Bool} (h : k.tickEntry = some (b, k')) :
    Updates signals k.toGlobals k'.toGlobals := by
  obtain ⟨k₁, htick, h⟩ := Option.bind_eq_some_iff.mp h
  have hk₁ : Updates signals k.toGlobals k₁.toGlobals :=
    (Updates.chargeTick _).trans (updates_onTick htick)
  dsimp only at h
  split_ifs at h
  · obtain ⟨-, rfl⟩ := Prod.mk.inj (Option.some.inj h)
    exact hk₁
  · obtain ⟨-, rfl⟩ := Prod.mk.inj (Option.some.inj h)
    exact hk₁.trans (.setCounter _ _ 0)
  · obtain ⟨-, rfl⟩ := Prod.mk.inj (Option.some.inj h)
    exact hk₁.trans (.setCounter _ _ 0)

end Kernel

end DemosOS
