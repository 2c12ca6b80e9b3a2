import DemosOS.Sched.Consistency
import DemosOS.Sched.Frame

/-!
# Work conservation

Init gets the processor only when nobody else can use it, and gives it back at the next
tick.  The first part is what the selection functions leave behind when they find nobody
(`Spec.choose_search`), together with the fact that no process is ever linked in a queue
the active algorithm does not look at.  The second part is a bound on the counter of init:
it starts at one, nobody is given a quantum but a process taken from a queue, and the
recharge of an epoch keeps it at one since the priority of init is one.
-/

namespace DemosOS

open Lib

/-! ## The queues in use -/

namespace Globals

/-- The queue `q` is of the kind that the active algorithm puts processes in. -/
def Houses (g : Globals) (q : QueueId) : Prop := q = .readyQueue ↔ g.algorithm.mlPolicy = none

variable {g : Globals}

theorem houses_readyQueue (h : g.algorithm.enqueue ≠ .enqueueMultilevel) :
    g.Houses .readyQueue := by
  unfold Houses
  unfold algorithm at *
  revert h
  cases g.activeAlgorithm <;> simp [Algorithm.descriptor]

theorem houses_mlQueues (h : g.algorithm.mlPolicy ≠ none) (l : Nat) : g.Houses (.mlQueues l) := by
  simpa [Houses] using h

theorem mlPolicy_ne_none (h : g.algorithm.enqueue = .enqueueMultilevel) :
    g.algorithm.mlPolicy ≠ none := by
  unfold algorithm at *
  revert h
  cases g.activeAlgorithm <;> simp [Algorithm.descriptor]

/-- A queue of the right kind is searched, if it exists. -/
theorem serves_of_houses {q : QueueId} (h : g.Houses q)
    (hlevel : ∀ l, q = .mlQueues l → l < ML_MAX_LEVELS) : g.Serves q := by
  unfold Houses Serves at *
  unfold algorithm at *
  revert h
  cases q with
  | readyQueue => cases g.activeAlgorithm <;> simp [Algorithm.descriptor]
  | mlQueues l =>
      have hl := hlevel l rfl
      cases g.activeAlgorithm <;>
        simp_all [Algorithm.descriptor, mlPolicyMlq, mlPolicyMlfq, ML_MAX_LEVELS]

theorem houses_targetQueue (g : Globals) (p : PcbPtr) : g.Houses (Spec.targetQueue g p) := by
  unfold Spec.targetQueue
  split
  · rename_i h
    exact houses_readyQueue (by simp [h])
  · rename_i h
    exact houses_readyQueue (by simp [h])
  · rename_i h
    exact houses_mlQueues (mlPolicy_ne_none h) _

end Globals

/-! ## Insertion and the tick -/

namespace Kernel

variable {k k' : Kernel Pointers}

/-- The ends of the queues that the active algorithm does not use are the same. -/
def SameUnused (k k' : Kernel Pointers) : Prop :=
  ∀ q, ¬ k.Houses q → k'.queues.ends q = k.queues.ends q

theorem enqueueProcessTo_ends {q q' : QueueId} (hq : q' ≠ q) (p : PcbPtr) (k : Kernel Pointers) :
    (k.enqueueProcessTo q p).queues.ends q' = k.queues.ends q' := by
  unfold enqueueProcessTo
  split_ifs
  · rfl
  · simp only [Links.pushBack]
    split <;> simp [hq]

theorem enqueueSortedTo_ends {q q' : QueueId} (hq : q' ≠ q) {p : PcbPtr}
    (h : k.enqueueSortedTo q p = some k') : k'.queues.ends q' = k.queues.ends q' := by
  unfold enqueueSortedTo at h
  split_ifs at h
  · rw [Option.some.inj h]
  · dsimp only at h
    split at h
    · obtain rfl := Option.some.inj h
      simp [hq]
    · split_ifs at h
      · obtain rfl := Option.some.inj h
        simp [Links.pushFront, hq]
      · obtain ⟨c, -, h⟩ := Option.bind_eq_some_iff.mp h
        obtain rfl := Option.some.inj h
        simp only [Links.insertAfter]
        split <;> simp [hq]

theorem sameUnused_enqueueProcess {p : PcbPtr} (h : k.enqueueProcess p = some k') :
    k.SameUnused k' := by
  intro q hq
  unfold enqueueProcess activeEnqueue at h
  split_ifs at h
  · rw [Option.some.inj h]
  · split at h
    · rename_i halg
      obtain rfl := Option.some.inj h
      refine enqueueProcessTo_ends ?_ p k
      rintro rfl
      exact hq (Globals.houses_readyQueue (by simp [halg]))
    · rename_i halg
      refine enqueueSortedTo_ends ?_ h
      rintro rfl
      exact hq (Globals.houses_readyQueue (by simp [halg]))
    · rename_i halg
      obtain rfl := Option.some.inj h
      refine enqueueProcessTo_ends ?_ p k
      rintro rfl
      exact hq (Globals.houses_mlQueues (Globals.mlPolicy_ne_none halg) _)

theorem boostQueue_ends {q fuel : Nat} (h : k.boostQueue q fuel = some k') :
    k'.queues.ends .readyQueue = k.queues.ends .readyQueue := by
  induction fuel generalizing k with
  | zero => simp [boostQueue] at h
  | succ fuel ih =>
      have hpop : (k.queues.popFront (.mlQueues q)).2.ends .readyQueue =
          k.queues.ends .readyQueue := by
        unfold Links.popFront
        split <;> simp
      unfold boostQueue at h
      dsimp only [dequeueProcessFrom] at h
      split at h
      · rename_i hk
        obtain rfl := Option.some.inj h
        rw [← (Prod.mk.inj hk).2]
        exact hpop
      · rename_i p k₁ hk
        rw [ih h, enqueueProcessTo_ends (by simp), mapGlobals_queues, ← (Prod.mk.inj hk).2]
        exact hpop

theorem boostQueues_ends {levels : List Nat}
    (h : levels.foldlM (fun k q ↦ k.boostQueue q QUEUE_FUEL) k = some k') :
    k'.queues.ends .readyQueue = k.queues.ends .readyQueue :=
  Lib.foldlM_rel (R := fun k k' : Kernel Pointers ↦
      k'.queues.ends .readyQueue = k.queues.ends .readyQueue)
    (fun _ ↦ rfl) (fun h h' ↦ h'.trans h) boostQueue_ends h

theorem boost_ends {policy : MultilevelPolicy} (h : k.boost policy = some k') :
    k'.queues.ends .readyQueue = k.queues.ends .readyQueue := by
  obtain ⟨k₁, hk₁, h⟩ := Option.bind_eq_some_iff.mp h
  obtain rfl := Option.some.inj h
  rw [mapGlobals_queues]
  exact boostQueues_ends hk₁

theorem sameUnused_onTick (h : k.onTick = some k') : k.SameUnused k' := by
  intro q hq
  unfold onTick at h
  split at h
  · rw [Option.some.inj h]
  · obtain ⟨policy, hpolicy, h⟩ := Option.bind_eq_some_iff.mp h
    -- a queue that a multilevel algorithm does not use is the ready queue
    obtain rfl : q = .readyQueue := by
      cases q with
      | readyQueue => rfl
      | mlQueues l => exact absurd (Globals.houses_mlQueues (by simp [hpolicy]) l) hq
    dsimp only at h
    split_ifs at h
    · obtain ⟨k₁, hk₁, h⟩ := Option.bind_eq_some_iff.mp h
      obtain rfl := Option.some.inj h
      rw [mapGlobals_queues, boost_ends hk₁, mapGlobals_queues]
    · obtain rfl := Option.some.inj h
      rfl
    · obtain rfl := Option.some.inj h
      rfl

end Kernel

/-! ## What init can count on -/

/-- Nobody is linked in a queue that the active algorithm does not use, and init never has
more than the one tick its priority gives it. -/
structure Idles (k : Kernel Pointers) : Prop where
  unused : ∀ q, ¬ k.Houses q → (k.queues.ends q).head = none
  counter : (k.pcb .initProcess).counter ≤ 1
  priority : (k.pcb .initProcess).priority = 1

namespace Idles

variable {k k' : Kernel Pointers}

theorem congr (h : Idles k) (halg : k'.activeAlgorithm = k.activeAlgorithm)
    (hunused : k.SameUnused k') (hcounter : (k'.pcb .initProcess).counter ≤ 1)
    (hpriority : (k'.pcb .initProcess).priority = (k.pcb .initProcess).priority) : Idles k' := by
  have hhouses : ∀ q, k'.Houses q ↔ k.Houses q := fun q ↦ by
    simp only [Globals.Houses, Globals.algorithm, halg]
  refine ⟨fun q hq ↦ ?_, hcounter, hpriority.trans h.priority⟩
  have hq' : ¬ k.Houses q := mt (hhouses q).mpr hq
  rw [hunused q hq']
  exact h.unused q hq'

/-- Code that does not touch a queue. -/
theorem mapGlobals (h : Idles k) {f : Globals → Globals}
    (halg : (f k.toGlobals).activeAlgorithm = k.activeAlgorithm)
    (hcounter : ((f k.toGlobals).pcb .initProcess).counter ≤ 1)
    (hpriority : ((f k.toGlobals).pcb .initProcess).priority =
      (k.pcb .initProcess).priority) : Idles (k.mapGlobals f) :=
  h.congr halg (fun _ _ ↦ rfl) hcounter hpriority

/-- An update of a control block that neither changes a priority nor raises a counter. -/
theorem modifyPcb (h : Idles k) (p : PcbPtr) {f : PCB → PCB}
    (hcounter : ∀ b : PCB, b.counter ≤ 1 → (f b).counter ≤ 1)
    (hpriority : ∀ b, (f b).priority = b.priority) :
    Idles (k.mapGlobals (·.modifyPcb p f)) := by
  refine h.mapGlobals rfl ?_ (k.toGlobals.modifyPcb_field p _ f PCB.priority hpriority)
  rw [Globals.modifyPcb_pcb]
  split_ifs with hp
  · subst hp
    exact hcounter _ h.counter
  · exact h.counter

theorem setState (h : Idles k) (p : PcbPtr) (s : ProcessState) :
    Idles (k.mapGlobals (·.setState p s)) :=
  h.modifyPcb p (f := fun b ↦ { b with state := s }) (fun _ hb ↦ hb) fun _ ↦ rfl

theorem setCounter_zero (h : Idles k) (p : PcbPtr) : Idles (k.mapGlobals (·.setCounter p 0)) :=
  h.modifyPcb p (f := fun b ↦ { b with counter := 0 }) (fun _ _ ↦ Int.zero_le_ofNat 1) fun _ ↦ rfl

/-- An update of the control block of another process. -/
theorem modifyPcb_of_ne (h : Idles k) {p : PcbPtr} (hp : p ≠ .initProcess) (f : PCB → PCB) :
    Idles (k.mapGlobals (·.modifyPcb p f)) := by
  have hinit : (k.toGlobals.modifyPcb p f).pcb .initProcess = k.pcb .initProcess :=
    Globals.modifyPcb_pcb_of_ne _ _ (Ne.symm hp)
  refine h.mapGlobals rfl ?_ ?_ <;> rw [hinit]
  exact h.counter

theorem relinked (h : Idles k) (hrel : Kernel.Relinked k k') (hunused : k.SameUnused k') :
    Idles k' := by
  refine h.congr hrel.activeAlgorithm hunused ?_ (hrel.field PCB.priority (fun _ _ ↦ rfl) _)
  rw [hrel.field PCB.counter fun _ _ ↦ rfl]
  exact h.counter

theorem enqueueProcess (h : Idles k) {p : PcbPtr} (hk' : k.enqueueProcess p = some k') :
    Idles k' :=
  h.relinked (.enqueueProcess hk') (Kernel.sameUnused_enqueueProcess hk')

theorem endBurst (h : Idles k) : Idles (k.mapGlobals (·.endBurst)) := by
  by_cases hburst : k.currentProcess ≠ .initProcess ∧ k.current.state ≠ .running ∧
      k.current.state ≠ .ready
  · have hend := h.modifyPcb k.currentProcess (f := fun b ↦
      { b with estBurst := (b.burstTicks + b.estBurst).tdiv 2, burstTicks := 0 })
      (fun _ hb ↦ hb) fun _ ↦ rfl
    rw [Kernel.mapGlobals, Globals.endBurst]
    simp only [if_pos hburst]
    exact hend.setCounter_zero k.currentProcess
  · rw [Kernel.mapGlobals, Globals.endBurst]
    simp only [if_neg hburst]
    exact h.setCounter_zero k.currentProcess

theorem wakeWaiters (h : Idles k) {slots : List Nat}
    (hk' : slots.foldlM Kernel.wakeWaiter k = some k') : Idles k' := by
  refine Lib.foldlM_invariant (fun {k i k₁} h hk₁ ↦ ?_) hk' h
  unfold Kernel.wakeWaiter at hk₁
  split at hk₁
  · obtain rfl := Option.some.inj hk₁
    exact h
  · split_ifs at hk₁
    · refine enqueueProcess ?_ hk₁
      exact h.modifyPcb _ (fun _ hb ↦ hb) fun _ ↦ rfl
    · obtain rfl := Option.some.inj hk₁
      exact h

theorem tickEntry (h : Idles k) {b : Bool} (hk' : k.tickEntry = some (b, k')) : Idles k' := by
  obtain ⟨k₁, htick, hk'⟩ := Option.bind_eq_some_iff.mp hk'
  have hcharge : Idles (k.mapGlobals (·.chargeTick)) :=
    h.modifyPcb k.currentProcess (fun b hb ↦ by dsimp only; omega) fun _ ↦ rfl
  have h₁ := hcharge.relinked (.onTick htick) (Kernel.sameUnused_onTick htick)
  have hreset := h₁.setCounter_zero k₁.currentProcess
  dsimp only at hk'
  split_ifs at hk'
  · obtain ⟨-, rfl⟩ := Prod.mk.inj (Option.some.inj hk')
    exact h₁
  · obtain ⟨-, rfl⟩ := Prod.mk.inj (Option.some.inj hk')
    exact hreset
  · obtain ⟨-, rfl⟩ := Prod.mk.inj (Option.some.inj hk')
    exact hreset

/-- The entry of every operation. -/
theorem entry (h : Idles k) (htable : k.Table) {op : Op} (hop : op.Enabled k.toGlobals) {b : Bool}
    (hk' : op.entry k = some (b, k')) : Idles k' := by
  cases op with
  | add p c =>
      have hp : p ≠ .initProcess := by
        rintro rfl
        exact hop.1 ⟨0, htable.init⟩
      obtain ⟨k₁, hrun, hk'⟩ := Option.map_eq_some_iff.mp hk'
      obtain ⟨-, rfl⟩ := Prod.mk.inj hk'
      obtain ⟨⟨r, k₂⟩, hadd, rfl⟩ := Option.map_eq_some_iff.mp hrun
      have h₁ := h.modifyPcb_of_ne hp fun _ ↦ c
      obtain ⟨-, -, rfl⟩ | ⟨-, -, k₃, hk₃, rfl⟩ := Kernel.addProcessToScheduler_cases hadd
      · exact h₁
      · have h₂ := h₁.mapGlobals (f := (·.register p)) rfl h₁.counter rfl
        have h₃ : Idles k₃ := by
          split_ifs at hk₃
          · exact h₂.enqueueProcess hk₃
          · obtain rfl := Option.some.inj hk₃
            exact h₂
        exact h₃.mapGlobals (f := fun g ↦ { g with nProcesses := g.nProcesses + 1 }) rfl
          h₃.counter rfl
  | wake p =>
      obtain ⟨k₁, hrun, hk'⟩ := Option.map_eq_some_iff.mp hk'
      obtain ⟨-, rfl⟩ := Prod.mk.inj hk'
      exact enqueueProcess (h.setState p .ready) hrun
  | yield =>
      obtain ⟨-, rfl⟩ := Prod.mk.inj (Option.some.inj hk')
      exact (h.setCounter_zero k.currentProcess).endBurst
  | block s =>
      obtain ⟨-, rfl⟩ := Prod.mk.inj (Option.some.inj hk')
      exact (h.setState k.currentProcess s).endBurst
  | wait pid =>
      simp only [Op.entry] at hk'
      split at hk'
      · obtain ⟨-, rfl⟩ := Prod.mk.inj (Option.some.inj hk')
        exact h
      · split_ifs at hk'
        · obtain ⟨-, rfl⟩ := Prod.mk.inj (Option.some.inj hk')
          exact h
        · obtain ⟨-, rfl⟩ := Prod.mk.inj (Option.some.inj hk')
          exact (h.modifyPcb k.currentProcess (f := fun b ↦
            { b with state := .waitingAnotherProcess, pidToWait := pid })
            (fun _ hb ↦ hb) fun _ ↦ rfl).endBurst
  | exit =>
      obtain ⟨k₁, hterm, hk'⟩ := Option.map_eq_some_iff.mp hk'
      obtain ⟨-, rfl⟩ := Prod.mk.inj hk'
      obtain ⟨k₂, hwake, hterm⟩ := Option.bind_eq_some_iff.mp hterm
      obtain rfl := Option.some.inj hterm
      have hmark := (h.modifyPcb k.currentProcess (f := fun b ↦
        { b with preemptDisabled := b.preemptDisabled + 1 }) (fun _ hb ↦ hb) fun _ ↦ rfl).setState
        k.currentProcess .zombie
      have hwoken : Idles k₂ := wakeWaiters hmark hwake
      exact (hwoken.modifyPcb k₂.currentProcess (f := fun b ↦
        { b with preemptDisabled := b.preemptDisabled - 1 }) (fun _ hb ↦ hb) fun _ ↦ rfl).endBurst
  | tick => exact h.tickEntry hk'
  | signal pid f =>
      obtain ⟨-, rfl⟩ := Prod.mk.inj (Option.some.inj hk')
      unfold Globals.syscallSendSignal
      cases hp : k.searchProcess pid with
      | none =>
          rw [Kernel.mapGlobals, hp]
          exact h
      | some p =>
          rw [Kernel.mapGlobals, hp]
          exact h.modifyPcb p (f := (·.raiseSignal f)) (fun _ hb ↦ hb) fun _ ↦ rfl
  | setParam pid param value =>
      obtain ⟨-, rfl⟩ := Prod.mk.inj (Option.some.inj hk')
      unfold Globals.syscallSetSchedParam
      cases hp : k.searchProcess pid with
      | none =>
          rw [Kernel.mapGlobals, hp]
          exact h
      | some p =>
          rw [Kernel.mapGlobals, hp]
          by_cases hinit : p = .initProcess
          · simp only [Globals.schedSetParam, if_pos hinit]
            exact h
          · dsimp only
            obtain hsame | ⟨f, hset, -⟩ | ⟨v, -, -, hset⟩ :=
              schedSetParam_cases k.toGlobals p param value
            · rw [hsame]
              exact h
            · rw [hset]
              exact h.modifyPcb_of_ne hinit f
            · have hfield : ∀ {α : Type} (π : PCB → α), (∀ (b : PCB) (n : Int),
                  π { b with preemptDisabled := n } = π b) → (∀ (b : PCB) (n : Int),
                  π { b with queuePriority := n } = π b) →
                  π ((k.toGlobals.setQueuePriority p v).pcb .initProcess) =
                    π (k.pcb .initProcess) := fun π hπ hπ' ↦
                setQueuePriority_field _ p v π hπ hπ' _
              rw [hset]
              refine h.mapGlobals (f := (·.setQueuePriority p v)) rfl ?_
                (hfield PCB.priority (fun _ _ ↦ rfl) fun _ _ ↦ rfl)
              rw [hfield PCB.counter (fun _ _ ↦ rfl) fun _ _ ↦ rfl]
              exact h.counter

end Idles

/-! ## Scheduler invocations -/

/-- A recharge gives a process of priority one at most one tick. -/
theorem Globals.recharge_counter_le (g : Globals) {p : PcbPtr} (hp : (g.pcb p).priority = 1)
    (hc : (g.pcb p).counter ≤ 1) : (g.recharge.pcb p).counter ≤ 1 := by
  unfold recharge
  induction List.range N_PROCESSES generalizing g with
  | nil => exact hc
  | cons i l ih =>
      rw [List.foldl_cons]
      unfold rechargeSlot
      cases g.processes i with
      | none => exact ih g hp hc
      | some q =>
          refine ih _ ?_ ?_
          · dsimp only
            rw [g.modifyPcb_field q p _ PCB.priority]
            · exact hp
            · exact fun _ ↦ rfl
          · dsimp only
            rw [modifyPcb_pcb]
            split_ifs with hq
            · subst hq
              dsimp only
              rw [hp, Int.shiftRight_eq_div_pow]
              omega
            · exact hc

/-- A search gives init no quantum: it is in no queue. -/
theorem Search.initCounter {a a' : Kernel Lists} {next : Option PcbPtr} (h : Search a next a')
    (ha : Tidy a) (hp : (a.pcb .initProcess).priority = 1)
    (hc : (a.pcb .initProcess).counter ≤ 1) : (a'.pcb .initProcess).counter ≤ 1 := by
  induction h with
  | none => exact hc
  | @found a q p pre post quantum hq hsig =>
      have hne : PcbPtr.initProcess ≠ p := by
        rintro rfl
        exact ha.init q (by rw [hq]; simp)
      have hsame := Globals.modifyPcb_pcb_of_ne a.toGlobals
        (fun b ↦ { b with counter := quantum }) hne
      exact (congrArg PCB.counter hsame).trans_le hc
  | @keep a a' next q p hq hready h ih =>
      have hne : PcbPtr.initProcess ≠ p := fun e ↦ ha.init q (e ▸ hq)
      have hsame := Globals.signal_pcb_of_ne a.toGlobals hne
      refine ih (tidy_keep ha hready) ?_ ?_ <;>
        rw [Kernel.mapGlobals_toGlobals, hsame] <;> assumption
  | @drop a a' next q p pre post hq hready h ih =>
      have hne : PcbPtr.initProcess ≠ p := by
        rintro rfl
        exact ha.init q (by rw [hq]; simp)
      have hsame := Globals.signal_pcb_of_ne a.toGlobals hne
      refine ih (ha.unlink hq fun y hy ↦ by rw [Globals.signal_pcb_of_ne _ hy]) ?_ ?_ <;>
        dsimp only <;> rw [hsame] <;> assumption
  | draw h ih => exact ih (tidy_mapGlobals ha fun _ ↦ rfl) hp hc
  | @recharge a a' next h ih =>
      refine ih (tidy_mapGlobals ha (a.toGlobals.recharge_field PCB.state fun _ _ ↦ rfl)) ?_
        (a.toGlobals.recharge_counter_le hp hc)
      exact (a.toGlobals.recharge_field PCB.priority (fun _ _ ↦ rfl) _).trans hp

/-- What an invocation does for init: it is given no quantum, and it gets the processor only
when the queues of the algorithm are empty. -/
theorem Inv.pickNext_idle {a a' : Kernel Lists} (ha : Inv a) (h : Spec.pickNext a = some a')
    (hp : (a.pcb .initProcess).priority = 1) (hc : (a.pcb .initProcess).counter ≤ 1) :
    (a'.pcb .initProcess).counter ≤ 1 ∧
      (a'.currentProcess = .initProcess → ∀ q, a'.Serves q → a'.queues q = []) := by
  have hsel := Spec.parked_selectable ha
  obtain ⟨next, a₁, hchoose, hsearch, hempty⟩ := Spec.choose_search hsel
  obtain rfl : a₁.mapGlobals (·.dispatch (next.getD .initProcess)) = a' := by
    rw [Spec.pickNext, Spec.select, hchoose] at h
    exact Option.some.inj h
  have halg : a₁.activeAlgorithm = (Spec.parked a).activeAlgorithm := by
    have hstatic := congrArg Globals.activeAlgorithm hsearch.static
    exact hstatic
  constructor
  · have hkept : ((a₁.mapGlobals (·.dispatch (next.getD .initProcess))).pcb .initProcess).counter =
        (a₁.pcb .initProcess).counter :=
      Globals.dispatch_field _ _ PCB.counter (fun _ _ ↦ rfl) (fun _ _ ↦ rfl) _
    rw [hkept]
    refine hsearch.initCounter hsel.toTidy ?_ ?_
    · exact (Spec.parked_field a PCB.priority (fun _ _ ↦ rfl) (fun _ _ ↦ rfl) _).trans hp
    · exact (Spec.parked_field a PCB.counter (fun _ _ ↦ rfl) (fun _ _ ↦ rfl) _).trans_le hc
  · intro hinit q hq
    have hnone : next = none := by
      cases next with
      | none => rfl
      | some p =>
          rw [Kernel.mapGlobals_toGlobals, Globals.dispatch_currentProcess,
            Option.getD_some] at hinit
          subst hinit
          -- init would have been found in a queue
          cases hsearch.fate hsel.toTidy .initProcess with
          | away _ _ hne => exact absurd rfl hne
          | kept q h => exact absurd h (hsel.init q)
          | chosen q h => exact absurd h (hsel.init q)
          | killed q h => exact absurd h (hsel.init q)
          | stopped q h => exact absurd h (hsel.init q)
    refine hempty hnone q ?_
    have hdisp : (a₁.toGlobals.dispatch (next.getD .initProcess)).activeAlgorithm =
        a₁.activeAlgorithm := by
      have := congrArg Globals.activeAlgorithm
        (a₁.toGlobals.frozen_dispatch (next.getD .initProcess))
      exact this
    simpa only [Globals.Serves, Globals.algorithm, Kernel.mapGlobals_toGlobals, hdisp,
      halg] using hq

/-- The head of a queue is `NULL` iff its list is empty. -/
theorem Sim.head_eq_none {k : Kernel Pointers} {a : Kernel Lists} (h : Sim k a) (q : QueueId) :
    (k.queues.ends q).head = none ↔ a.queues q = [] := by
  rw [(h.queues.chain q).head_eq, List.head?_eq_none_iff]

/-- After an invocation the kernel still looks only at the queues in use, and if init has the
processor they are all empty. -/
theorem Idles.pickNext {k k' : Kernel Pointers} {a : Kernel Lists} (h : Idles k) (hsim : Sim k a)
    (ha : Inv a) (hk' : k.pickNext = some k') :
    Idles k' ∧ (k'.currentProcess = .initProcess → ∀ q, (k'.queues.ends q).head = none) := by
  obtain ⟨a', hpick, hinv⟩ := ha.pickNext
  obtain ⟨k'', hk'', hsim'⟩ := hsim.pickNext ha.schedulable hpick
  obtain rfl : k'' = k' := Option.some.inj (hk''.symm.trans hk')
  have hg := hsim.globals
  have hpriority : (a.pcb .initProcess).priority = 1 := hg ▸ h.priority
  have hcounter : (a.pcb .initProcess).counter ≤ 1 := hg ▸ h.counter
  obtain ⟨hcounter', hempty⟩ := ha.pickNext_idle hpick hpriority hcounter
  have halg : a'.activeAlgorithm = a.activeAlgorithm := by
    have hfrozen := congrArg Globals.activeAlgorithm hinv.frozen
    exact hfrozen
  have hhouses : ∀ q, a'.Houses q ↔ a.Houses q := fun q ↦ by
    simp only [Globals.Houses, Globals.algorithm, halg]
  -- who is linked after the invocation was linked before, or has just been put back
  have hunused : ∀ q, ¬ a'.Houses q → a'.queues q = [] := by
    intro q hq
    by_contra hne
    obtain ⟨p, hp⟩ := List.exists_mem_of_ne_nil _ hne
    rcases Spec.mem_parked.mp ((hinv.sublist q).subset hp) with hold | ⟨-, -, rfl⟩
    · have hhead := h.unused q (by rw [hg]; exact mt (hhouses q).mpr hq)
      rw [hsim.head_eq_none] at hhead
      exact List.ne_nil_of_mem hold hhead
    · exact hq ((hhouses _).mpr (a.houses_targetQueue _))
  constructor
  · refine ⟨fun q hq ↦ ?_, ?_, ?_⟩
    · rw [hsim'.globals] at hq
      exact (hsim'.head_eq_none q).mpr (hunused q hq)
    · rw [hsim'.globals]
      exact hcounter'
    · rw [hsim'.globals, Globals.field_of_frozen hinv.frozen PCB.priority fun _ ↦ rfl]
      exact hpriority
  · intro hinit q
    rw [hsim'.globals] at hinit
    rw [hsim'.head_eq_none]
    by_contra hne
    have hq : a'.Houses q := by
      by_contra hq
      exact hne (hunused q hq)
    refine hne (hempty hinit q (Globals.serves_of_houses hq ?_))
    rintro l rfl
    exact (hinv.inv ha).queueExists l hne

/-! ## Runs -/

theorem boot_idles (algorithm : Algorithm) (timerClo : Nat → BitVec 32) :
    Idles (Kernel.boot algorithm timerClo) :=
  ⟨fun _ _ ↦ rfl, Int.le_refl 1, rfl⟩

theorem Idles.step {k k' : Kernel Pointers} {a : Kernel Lists} (h : Idles k) (hsound : Sound k a)
    (hstep : Step k k') : Idles k' := by
  obtain ⟨op, hop, hrun⟩ := hstep
  have htable : k.Table := by
    rw [hsound.sim.globals]
    exact hsound.inv.table
  obtain ⟨b, k₁, a₁, hentry, hsim, ha₁, -, -⟩ := hsound.entry hop
  have h₁ := h.entry htable hop hentry
  rw [Op.run_eq, hentry] at hrun
  cases b with
  | false =>
      obtain rfl := Option.some.inj hrun
      exact h₁
  | true => exact (h₁.pickNext hsim ha₁ hrun).1

theorem Reachable.idles {k : Kernel Pointers} (h : Reachable k) : Idles k := by
  obtain ⟨algorithm, timerClo, hsteps⟩ := h
  induction hsteps with
  | refl => exact boot_idles algorithm timerClo
  | tail hsteps hstep ih =>
      obtain ⟨a, hsound⟩ := Reachable.sound ⟨algorithm, timerClo, hsteps⟩
      exact ih.step hsound hstep

end DemosOS
