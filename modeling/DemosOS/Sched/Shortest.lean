import DemosOS.Lib.StableQueue
import DemosOS.Sched.Fifo

/-!
# Shortest job first

The ready queue is kept in the order of the estimates, and processes with the same estimate stand in
the order in which they were inserted.  A log of all insertions says what that order is.  Nothing
changes the estimate of a process while it is queued, so the order lasts until somebody is taken
from the front.
-/

namespace DemosOS

open Lib

/-- The estimated length of the next CPU burst. -/
def Globals.estimate (g : Globals) (p : PcbPtr) : Int := (g.pcb p).estBurst

/-! ## Insertions -/

instance (g : Globals) (p : PcbPtr) (pid : Nat) : Decidable (g.WaitsFor p pid) :=
  inferInstanceAs (Decidable (_ ∧ _))

/-- The process in slot `i`, if it waits for the running one. -/
def Globals.waiter (g : Globals) (i : Nat) : Option PcbPtr :=
  (g.processes i).filter fun p ↦ g.WaitsFor p g.current.pid

/-- The processes that wait for the running one, in the order of the table. -/
def Globals.waiters (g : Globals) : List PcbPtr := (List.range N_PROCESSES).filterMap g.waiter

/-- The processes that `exit_process` wakes. -/
def Op.woken (k : Kernel Pointers) : Op → List PcbPtr
  | .exit => k.waiters
  | _ => []

/-- The running process, if the scheduler puts it back. -/
def Op.putBack (k : Kernel Pointers) (op : Op) : List PcbPtr :=
  match op.entry k with
  | some (true, k₁) => if k₁.StillRunnable then [k₁.currentProcess] else []
  | _ => []

/-- The processes that an operation inserts into the ready queue, in order. -/
def Op.inserted (k : Kernel Pointers) (op : Op) : List PcbPtr :=
  op.arrives k ++ op.woken k ++ op.putBack k

/-- The insertions of a run, in order. -/
def insertions : Kernel Pointers → List (Op × Kernel Pointers) → List PcbPtr
  | _, [] => []
  | k, (op, k') :: steps => op.inserted k ++ insertions k' steps

/-! ## Enlisting -/

/-- The processes `new` join the ready queue one after the other, and nothing else changes the order
of service. -/
structure Enlists (a : Kernel Lists) (new : List PcbPtr) (a' : Kernel Lists) : Prop where
  algorithm : a'.activeAlgorithm = a.activeAlgorithm
  order : ∀ log, InServiceOrder a.estimate log (a.queues .readyQueue) →
    InServiceOrder a'.estimate (log ++ new) (a'.queues .readyQueue)
  estimate : ∀ p ∈ a.queues .readyQueue, a'.estimate p = a.estimate p
  queue : a.queues .readyQueue ⊆ a'.queues .readyQueue

namespace Enlists

variable {a a₁ a₂ : Kernel Lists} {new new' : List PcbPtr}

/-- Code that does not touch the queues. -/
theorem mapGlobals {f : Globals → Globals}
    (halg : (f a.toGlobals).activeAlgorithm = a.activeAlgorithm)
    (hf : ∀ p ∈ a.queues .readyQueue, (f a.toGlobals).estimate p = a.estimate p) :
    Enlists a [] (a.mapGlobals f) where
  algorithm := halg
  order log h := by
    rw [List.append_nil]
    exact h.congr hf
  estimate := hf
  queue := List.Subset.refl _

theorem refl (a : Kernel Lists) : Enlists a [] a := .mapGlobals (f := id) rfl fun _ _ ↦ rfl

theorem trans (h : Enlists a new a₁) (h' : Enlists a₁ new' a₂) : Enlists a (new ++ new') a₂ where
  algorithm := h'.algorithm.trans h.algorithm
  order log hlog := by
    rw [← List.append_assoc]
    exact h'.order _ (h.order log hlog)
  estimate p hp := (h'.estimate p (h.queue hp)).trans (h.estimate p hp)
  queue := List.Subset.trans h.queue h'.queue

theorem trans_nil (h : Enlists a new a₁) (h' : Enlists a₁ [] a₂) : Enlists a new a₂ := by
  have hboth := h.trans h'
  rwa [List.append_nil] at hboth

variable (halg : a.activeAlgorithm = .sjf)
include halg

theorem enqueue_queue {p : PcbPtr} (hp : p ≠ .initProcess) :
    (Spec.enqueue p a).queues .readyQueue = insertInOrder a.estimate p (a.queues .readyQueue) := by
  have henq : a.algorithm.enqueue = .enqueueSjf := by
    rw [Globals.algorithm, halg]
    rfl
  rw [Spec.enqueue_queues hp]
  simp only [Spec.targetQueue, Spec.insert, henq, Function.update_self]
  rfl

theorem enqueue {p : PcbPtr} (hp : p ≠ .initProcess) (hfree : p ∉ a.queues .readyQueue) :
    Enlists a [p] (Spec.enqueue p a) := by
  have hest : (Spec.enqueue p a).estimate = a.estimate := by
    funext x
    rw [Globals.estimate, Spec.enqueue_pcb hp]
    exact Globals.setState_field _ _ _ PCB.estBurst (fun _ _ ↦ rfl) x
  refine ⟨Spec.enqueue_activeAlgorithm p a, fun log h ↦ ?_, fun x _ ↦ congrFun hest x, ?_⟩
  · rw [hest, enqueue_queue halg hp]
    exact h.insert hfree
  · rw [enqueue_queue halg hp]
    exact fun x hx ↦ mem_insertInOrder.mpr (.inr hx)

section

variable {i : Nat} {p : PcbPtr} (hp : a.processes i = some p) (hw : a.WaitsFor p a.current.pid)
  (hinit : p ≠ .initProcess)
include hp hw hinit

theorem wakeWaiter_queue : (Spec.wakeWaiter a i).queues .readyQueue =
    insertInOrder a.estimate p (a.queues .readyQueue) := by
  have hest : (a.mapGlobals (·.modifyPcb p fun b ↦
      { b with state := .ready, pidToWait := -1 })).estimate = a.estimate :=
    funext fun x ↦ Globals.modifyPcb_field a.toGlobals p x (fun b ↦
      { b with state := .ready, pidToWait := -1 }) PCB.estBurst fun _ ↦ rfl
  have hsjf : (a.mapGlobals (·.modifyPcb p fun b ↦
      { b with state := .ready, pidToWait := -1 })).activeAlgorithm = .sjf := halg
  rw [Spec.wakeWaiter_of_waits hp hw, enqueue_queue hsjf hinit, hest]
  rfl

/-- A woken process joins the queue. -/
theorem wakeWaiter (hfree : p ∉ a.queues .readyQueue) : Enlists a [p] (Spec.wakeWaiter a i) := by
  rw [Spec.wakeWaiter_of_waits hp hw]
  have hmark : Enlists a [] (a.mapGlobals (·.modifyPcb p fun b ↦
      { b with state := .ready, pidToWait := -1 })) :=
    .mapGlobals rfl fun x _ ↦ Globals.modifyPcb_field _ p x _ PCB.estBurst fun _ ↦ rfl
  exact hmark.trans (enqueue (hmark.algorithm.trans halg) hinit hfree)

end

end Enlists

/-- Waking `p` ends its waiting, and nobody else's. -/
theorem Spec.wakeWaiter_waitsFor {a : Kernel Lists} {i : Nat} {p : PcbPtr}
    (hp : a.processes i = some p) (hw : a.WaitsFor p a.current.pid) :
    (wakeWaiter a i).processes = a.processes ∧
      ∀ x, (wakeWaiter a i).WaitsFor x (wakeWaiter a i).current.pid ↔
        x ≠ p ∧ a.WaitsFor x a.current.pid := by
  have hdata : (wakeWaiter a i).processes = a.processes ∧
      (wakeWaiter a i).currentProcess = a.currentProcess := by
    rw [wakeWaiter_of_waits hp hw, enqueue_data]
    exact ⟨rfl, rfl⟩
  have hpcb : ∀ x, (wakeWaiter a i).pcb x =
      if x = p then { a.pcb p with state := .ready, pidToWait := -1 } else a.pcb x := by
    rw [wakeWaiter_of_waits hp hw]
    exact enqueue_woken_pcb p
  have hpid : (wakeWaiter a i).current.pid = a.current.pid := by
    rw [Globals.current, hdata.2, hpcb]
    split_ifs with hc
    · rw [← hc]
      rfl
    · rfl
  refine ⟨hdata.1, fun x ↦ ?_⟩
  rw [hpid, Globals.WaitsFor, hpcb]
  split_ifs with hx
  · simp [hx]
  · exact (and_iff_right hx).symm

/-- The loop of `exit_process`. -/
theorem Enlists.wakeWaiters {a : Kernel Lists} (halg : a.activeAlgorithm = .sjf) {slots : List Nat}
    (hslots : slots.Nodup) (hinj : ∀ i j p, a.processes i = some p → a.processes j = some p → i = j)
    (hfree : ∀ p, a.WaitsFor p a.current.pid → p ≠ .initProcess ∧ p ∉ a.queues .readyQueue) :
    Enlists a (slots.filterMap a.waiter) (slots.foldl Spec.wakeWaiter a) := by
  induction slots generalizing a with
  | nil => exact refl a
  | cons i slots ih =>
      obtain ⟨hi, hslots⟩ := List.nodup_cons.mp hslots
      rw [List.foldl_cons]
      cases hw : a.waiter i with
      | none =>
          have hnot : ∀ p, a.processes i = some p → ¬ a.WaitsFor p a.current.pid := by
            intro p hp hwait
            rw [Globals.waiter, hp, Option.filter_some, if_pos (decide_eq_true hwait)] at hw
            cases hw
          rw [Spec.wakeWaiter_of_not hnot, List.filterMap_cons_none hw]
          exact ih halg hslots hinj hfree
      | some p =>
          obtain ⟨hp, hwait⟩ := Option.filter_eq_some_iff.mp hw
          have hwait : a.WaitsFor p a.current.pid := of_decide_eq_true hwait
          obtain ⟨hinit, hpq⟩ := hfree p hwait
          obtain ⟨hproc, hwaits⟩ := Spec.wakeWaiter_waitsFor hp hwait
          have hstep := wakeWaiter halg hp hwait hinit hpq
          -- the slots that follow hold other processes
          have hwaiter : ∀ j ∈ slots, (Spec.wakeWaiter a i).waiter j = a.waiter j := by
            intro j hj
            rw [Globals.waiter, Globals.waiter, hproc]
            cases hx : a.processes j with
            | none => rfl
            | some x =>
                have hne : x ≠ p := by
                  rintro rfl
                  exact hi (hinj i j x hp hx ▸ hj)
                simp only [Option.filter_some, hwaits, hne, ne_eq, not_false_eq_true, true_and]
          rw [List.filterMap_cons_some hw, ← List.filterMap_congr hwaiter]
          refine hstep.trans (ih (hstep.algorithm.trans halg) hslots (hproc ▸ hinj) fun x hx ↦ ?_)
          obtain ⟨hne, hx⟩ := (hwaits x).mp hx
          refine ⟨(hfree x hx).1, fun hm ↦ ?_⟩
          rw [wakeWaiter_queue halg hp hwait hinit] at hm
          exact (mem_insertInOrder.mp hm).elim hne (hfree x hx).2

/-! ## The parts of an operation -/

/-- The end of a burst only concerns the running process. -/
theorem Globals.endBurst_estimate (g : Globals) {p : PcbPtr} (hp : p ≠ g.currentProcess) :
    g.endBurst.estimate p = g.estimate p := by
  have hreset : ∀ g' : Globals, (g'.setCounter g'.currentProcess 0).estimate p = g'.estimate p :=
    fun g' ↦ Globals.modifyPcb_field g' _ p _ PCB.estBurst fun _ ↦ rfl
  unfold Globals.endBurst
  refine (hreset _).trans ?_
  split_ifs
  · exact congrArg PCB.estBurst (Globals.modifyPcb_pcb_of_ne _ _ hp)
  · rfl

namespace Enlists

variable {a a₁ : Kernel Lists}

theorem endBurst (hfree : a.currentProcess ∉ a.queues .readyQueue) :
    Enlists a [] (a.mapGlobals (·.endBurst)) := by
  refine mapGlobals ?_ fun p hp ↦ a.toGlobals.endBurst_estimate ?_
  · unfold Globals.endBurst
    split_ifs <;> rfl
  · rintro rfl
    exact hfree hp

/-- A process gives up the processor. -/
theorem leave (hfree : a.currentProcess ∉ a.queues .readyQueue) {f : PCB → PCB}
    (hf : ∀ b, (f b).estBurst = b.estBurst) :
    Enlists a []
      ((a.mapGlobals fun g ↦ g.modifyPcb g.currentProcess f).mapGlobals (·.endBurst)) := by
  have hmark : Enlists a [] (a.mapGlobals fun g ↦ g.modifyPcb g.currentProcess f) :=
    mapGlobals rfl fun p _ ↦ Globals.modifyPcb_field _ _ p f PCB.estBurst hf
  exact hmark.trans_nil (endBurst hfree)

variable (halg : a.activeAlgorithm = .sjf)
include halg

theorem terminate (ha : Inv a) (hsettled : Settled a.toGlobals)
    (hinit : a.currentProcess ≠ .initProcess) :
    Enlists a a.waiters (Spec.terminate a) := by
  have hrun := hsettled hinit
  -- the caller is marked
  have hmark : Enlists a [] (a.mapGlobals fun g ↦
      (g.preemptDisable).setState g.currentProcess .zombie) := by
    refine mapGlobals rfl fun p _ ↦ ?_
    exact (Globals.setState_field _ _ _ PCB.estBurst (fun _ _ ↦ rfl) p).trans
      (Spec.preemptDisable_field _ PCB.estBurst (fun _ _ ↦ rfl) p)
  generalize ha₀ : (a.mapGlobals fun g ↦
    (g.preemptDisable).setState g.currentProcess .zombie) = a₀ at hmark
  have hproc : a₀.processes = a.processes := by rw [← ha₀]; rfl
  have hqueues : a₀.queues = a.queues := by rw [← ha₀]; rfl
  -- the caller waits for nobody, before and after
  have hwaits : ∀ p, a₀.WaitsFor p a₀.current.pid ↔ a.WaitsFor p a.current.pid := by
    intro p
    have hpid : a₀.current.pid = a.current.pid := by
      rw [← ha₀]
      exact (Globals.setState_field _ _ _ PCB.pid (fun _ _ ↦ rfl) _).trans
        (Spec.preemptDisable_field _ PCB.pid (fun _ _ ↦ rfl) _)
    rw [hpid]
    by_cases hp : p = a.currentProcess
    · subst hp
      have hstate : (a₀.pcb a.currentProcess).state = .zombie := by
        rw [← ha₀]
        simp [Globals.setState]
      constructor
      · rintro ⟨hw, -⟩
        rw [hstate] at hw
        cases hw
      · rintro ⟨hw, -⟩
        cases hrun.symm.trans hw
    · have hpcb : a₀.pcb p = a.pcb p := by
        rw [← ha₀]
        simp [Globals.setState, Globals.preemptDisable, hp]
      rw [Globals.WaitsFor, hpcb, Globals.WaitsFor]
  have hwaiter : a₀.waiter = a.waiter := by
    funext i
    simp only [Globals.waiter, hproc, hwaits]
  have hwoken : ∀ slots : List Nat, slots.Nodup →
      Enlists a₀ (slots.filterMap a₀.waiter) (slots.foldl Spec.wakeWaiter a₀) := by
    intro slots hslots
    refine wakeWaiters (hmark.algorithm.trans halg) hslots (fun i j p hi hj ↦ ?_) fun p hp ↦ ?_
    · rw [hproc] at hi hj
      exact (ha.table.slot hi).2.symm.trans (ha.table.slot hj).2
    · obtain ⟨hstate, -⟩ := (hwaits p).mp hp
      refine ⟨?_, fun hq ↦ ?_⟩
      · rintro rfl
        have hidle := ha.initState
        rw [hstate] at hidle
        exact absurd hidle (by simp [ProcessState.IsIdle])
      · rw [hqueues] at hq
        cases (ha.ready _ p hq).symm.trans hstate
  have hend : ∀ a' : Kernel Lists, Enlists a' [] (a'.mapGlobals (·.preemptEnable)) := fun a' ↦
    mapGlobals rfl fun p _ ↦ Globals.modifyPcb_field _ _ p _ PCB.estBurst fun _ ↦ rfl
  have hslots := hwoken (List.range N_PROCESSES) List.nodup_range
  unfold Spec.terminate Globals.waiters
  dsimp only
  rw [ha₀, ← hwaiter]
  generalize List.range N_PROCESSES = slots at hslots ⊢
  exact (hmark.trans hslots).trans_nil (hend _)

/-- A process that is created. -/
theorem addProcess {p : PcbPtr} {b : PCB} (hinit : p ≠ .initProcess)
    (hfree : p ∉ a.queues .readyQueue) (hpid : b.pid = a.nProcesses) (hready : b.state = .ready) :
    Enlists a (if a.nProcesses ≥ N_PROCESSES then [] else [p])
      (Spec.addProcess p (a.mapGlobals (·.modifyPcb p fun _ ↦ b))) := by
  have hwrite : Enlists a [] (a.mapGlobals (·.modifyPcb p fun _ ↦ b)) := by
    refine mapGlobals rfl fun x hx ↦ congrArg PCB.estBurst (Globals.modifyPcb_pcb_of_ne _ _ ?_)
    rintro rfl
    exact hfree hx
  have hb : (a.mapGlobals (·.modifyPcb p fun _ ↦ b)).pcb p = b :=
    Globals.modifyPcb_pcb_self _ p fun _ ↦ b
  have hn : (a.mapGlobals (·.modifyPcb p fun _ ↦ b)).nProcesses = a.nProcesses := rfl
  have hqueues : (a.mapGlobals (·.modifyPcb p fun _ ↦ b)).queues = a.queues := rfl
  generalize a.mapGlobals (·.modifyPcb p fun _ ↦ b) = a₀ at hwrite hb hn hqueues ⊢
  have hreg : Enlists a₀ [] (a₀.mapGlobals (·.register p)) := mapGlobals rfl fun _ _ ↦ rfl
  have hstate : ((a₀.mapGlobals (·.register p)).pcb p).state = .ready :=
    (congrArg PCB.state hb).trans hready
  have hcount : ∀ a' : Kernel Lists,
      Enlists a' [] (a'.mapGlobals fun g ↦ { g with nProcesses := g.nProcesses + 1 }) := fun a' ↦
    mapGlobals rfl fun _ _ ↦ rfl
  unfold Spec.addProcess
  dsimp only
  simp only [hb, hpid, hn, or_self, hstate, if_true]
  split_ifs
  · exact hwrite
  · have hjoin : Enlists (a₀.mapGlobals (·.register p)) [p]
        (Spec.enqueue p (a₀.mapGlobals (·.register p))) :=
      enqueue (hreg.algorithm.trans (hwrite.algorithm.trans halg)) hinit (hqueues ▸ hfree)
    exact (hwrite.trans (hreg.trans hjoin)).trans_nil (hcount _)

/-- The bookkeeping of a tick. -/
theorem tickEntry {b : Bool} (h : Spec.tickEntry a = some (b, a₁)) : Enlists a [] a₁ := by
  have hcharge : Enlists a [] (a.mapGlobals (·.chargeTick)) :=
    mapGlobals rfl fun p _ ↦ Globals.modifyPcb_field _ _ p _ PCB.estBurst fun _ ↦ rfl
  have hnone : Spec.onTick (a.mapGlobals (·.chargeTick)) = some (a.mapGlobals (·.chargeTick)) := by
    have hsjf : (a.mapGlobals (·.chargeTick)).activeAlgorithm = .sjf := halg
    rw [Spec.onTick, Globals.algorithm, hsjf]
    rfl
  have hreset : ∀ a' : Kernel Lists, Enlists a' []
      (a'.mapGlobals fun g ↦ g.setCounter g.currentProcess 0) := fun a' ↦
    mapGlobals rfl fun p _ ↦ Globals.modifyPcb_field _ _ p _ PCB.estBurst fun _ ↦ rfl
  rw [Spec.tickEntry, hnone] at h
  simp only [Option.bind_eq_bind, Option.bind_some] at h
  split_ifs at h
  · obtain ⟨-, rfl⟩ := Prod.mk.inj (Option.some.inj h)
    exact hcharge
  · obtain ⟨-, rfl⟩ := Prod.mk.inj (Option.some.inj h)
    exact hcharge.trans_nil (hreset _)
  · obtain ⟨-, rfl⟩ := Prod.mk.inj (Option.some.inj h)
    exact hcharge.trans_nil (hreset _)

/-- An operation, up to its call of the scheduler. -/
theorem entry (ha : Inv a) (hsettled : Settled a.toGlobals) {k : Kernel Pointers} (hsim : Sim k a)
    {op : Op} (hop : op.Enabled a.toGlobals) {b : Bool} (h : Spec.entry a op = some (b, a₁)) :
    Enlists a (op.arrives k ++ op.woken k) a₁ := by
  have hfree : a.currentProcess ∉ a.queues .readyQueue := by
    by_cases hinit : a.currentProcess = .initProcess
    · rw [hinit]
      exact ha.init _
    · exact ha.current_free hinit _
  cases op with
  | add p b' =>
      obtain ⟨hp, hpid, hstate, -⟩ := hop
      obtain ⟨-, rfl⟩ := Prod.mk.inj (Option.some.inj h)
      have hinit : p ≠ .initProcess := by
        rintro rfl
        exact hp ⟨0, ha.table.init⟩
      have hwoken : (Op.add p b').woken k = [] := rfl
      rw [hwoken, Op.arrives, hsim.globals, List.append_nil]
      exact addProcess halg hinit (fun hq ↦ hp (ha.known _ p hq)) hpid hstate
  | wake p =>
      obtain ⟨-, hinit, hwaiting⟩ := hop
      obtain ⟨-, rfl⟩ := Prod.mk.inj (Option.some.inj h)
      have hmark : Enlists a [] (a.mapGlobals (·.setState p .ready)) :=
        mapGlobals rfl fun x _ ↦ Globals.setState_field _ _ _ PCB.estBurst (fun _ _ ↦ rfl) x
      have hpq : p ∉ a.queues .readyQueue := by
        intro hq
        rw [ha.ready _ p hq] at hwaiting
        exact hwaiting
      exact hmark.trans (enqueue (hmark.algorithm.trans halg) hinit hpq)
  | yield =>
      obtain ⟨-, rfl⟩ := Prod.mk.inj (Option.some.inj h)
      exact leave hfree fun _ ↦ rfl
  | block s =>
      obtain ⟨-, rfl⟩ := Prod.mk.inj (Option.some.inj h)
      exact leave hfree fun _ ↦ rfl
  | wait pid =>
      simp only [Spec.entry] at h
      split at h
      · obtain ⟨-, rfl⟩ := Prod.mk.inj (Option.some.inj h)
        exact refl a
      · split_ifs at h
        · obtain ⟨-, rfl⟩ := Prod.mk.inj (Option.some.inj h)
          exact refl a
        · obtain ⟨-, rfl⟩ := Prod.mk.inj (Option.some.inj h)
          exact leave hfree fun _ ↦ rfl
  | exit =>
      obtain ⟨-, rfl⟩ := Prod.mk.inj (Option.some.inj h)
      have hterm := terminate halg ha hsettled hop
      obtain ⟨-, -, -, ha', heff⟩ := hsim.terminate ha hsettled hop
      have hgone : (Spec.terminate a).currentProcess ∉ (Spec.terminate a).queues .readyQueue := by
        intro hq
        have hready := ha'.ready _ _ hq
        rw [heff.current, heff.zombie] at hready
        cases hready
      have hwoken : Op.exit.woken k = a.waiters := by rw [Op.woken, hsim.globals]
      rw [hwoken]
      exact hterm.trans_nil (endBurst hgone)
  | tick => exact tickEntry halg h
  | signal pid f =>
      have hsame := Spec.entry_activeAlgorithm h
      obtain ⟨-, rfl⟩ := Prod.mk.inj (Option.some.inj h)
      refine mapGlobals hsame fun p _ ↦ ?_
      unfold Globals.syscallSendSignal
      split
      · rfl
      · rename_i x _
        exact a.toGlobals.modifyPcb_field x p (·.raiseSignal f) PCB.estBurst fun _ ↦ rfl
  | setParam pid param value =>
      have hsame := Spec.entry_activeAlgorithm h
      obtain ⟨-, rfl⟩ := Prod.mk.inj (Option.some.inj h)
      exact mapGlobals hsame fun p _ ↦
        Spec.setParam_field (fun _ _ _ _ _ ↦ rfl) a.toGlobals pid param value p

/-- The running process is put back. -/
theorem parked (ha : Inv a) :
    Enlists a (if a.StillRunnable then [a.currentProcess] else []) (Spec.parked a) := by
  have hdisable : Enlists a [] (a.mapGlobals (·.preemptDisable)) :=
    mapGlobals rfl fun p _ ↦ Spec.preemptDisable_field _ PCB.estBurst (fun _ _ ↦ rfl) p
  rw [Spec.parked_eq]
  split_ifs with hrun
  · exact hdisable.trans (enqueue (hdisable.algorithm.trans halg) hrun.1 (ha.current_free hrun.1 _))
  · exact hdisable

end Enlists

/-! ## Runs -/

/-- What the log says about a kernel: the ready queue is in the order of service. -/
structure ShortestFirst (log : List PcbPtr) (a : Kernel Lists) : Prop where
  algorithm : a.activeAlgorithm = .sjf
  order : InServiceOrder a.estimate log (a.queues .readyQueue)

namespace ShortestFirst

variable {log new : List PcbPtr} {a a' : Kernel Lists}

theorem joins (h : ShortestFirst log a) (h' : Enlists a new a') : ShortestFirst (log ++ new) a' :=
  ⟨h'.algorithm.trans h.algorithm, h'.order log h.order⟩

end ShortestFirst

/-! ## An invocation -/

/-- `_schedule_queue_head` switches to what the dequeue loop finds, or to init. -/
theorem Spec.pickNext_queueHead {a a' : Kernel Lists}
    (halg : a.algorithm.pickNext = .scheduleQueueHead) (h : Spec.pickNext a = some a')
    {r : Globals × Option PcbPtr × List PcbPtr}
    (hr : Spec.takeReady (Spec.parked a).toGlobals ((Spec.parked a).queues .readyQueue) = r) :
    a' = ⟨r.1.dispatch (r.2.1.getD .initProcess),
      Function.update (Spec.parked a).queues .readyQueue r.2.2⟩ := by
  obtain ⟨⟨next, a₁⟩, hselect, rfl⟩ := Option.map_eq_some_iff.mp h
  have halg' : (Spec.parked a).algorithm = a.algorithm := by
    rw [Globals.algorithm, Spec.parked, Spec.park_activeAlgorithm]
    rfl
  rw [Spec.select, Spec.choose, halg', halg, hr] at hselect
  obtain ⟨g, found, l⟩ := r
  cases found with
  | none =>
      obtain ⟨rfl, rfl⟩ := Prod.mk.inj (Option.some.inj hselect)
      rfl
  | some p =>
      obtain ⟨rfl, rfl⟩ := Prod.mk.inj (Option.some.inj hselect)
      rfl

/-- What a dequeue loop finds, and what it leaves of the queue. -/
theorem Spec.takeReady_head {g : Globals} {l : List PcbPtr} (hl : l.Nodup) :
    (takeReady g l).1.static = g.static ∧ (takeReady g l).2.2.Sublist l ∧
      (takeReady g l).2.1 = (l.filter fun p ↦ (g.pcb p).signalled.state = .ready).head? := by
  obtain ⟨skipped, p, rest, rfl, htake, hp, hskipped⟩ | ⟨hnone, hskipped⟩ :=
    takeReady_first (g := g) hl
  · rw [htake]
    refine ⟨static_signalAll _ _, ?_, ?_⟩
    · exact (List.sublist_cons_self p rest).trans (List.sublist_append_right skipped _)
    · have hfilter : skipped.filter (fun p ↦ (g.pcb p).signalled.state = .ready) = [] :=
        List.filter_eq_nil_iff.mpr fun x hx ↦ by simpa using hskipped x hx
      have hfirst : (p :: rest).filter (fun p ↦ (g.pcb p).signalled.state = .ready) =
          p :: rest.filter fun p ↦ (g.pcb p).signalled.state = .ready := by
        simp [hp]
      rw [List.filter_append, hfilter, hfirst]
      rfl
  · rw [hnone]
    refine ⟨static_signalAll _ _, List.nil_sublist _, ?_⟩
    have hfilter : l.filter (fun p ↦ (g.pcb p).signalled.state = .ready) = [] :=
      List.filter_eq_nil_iff.mpr fun x hx ↦ by simpa using hskipped x hx
    rw [hfilter]
    rfl

theorem Globals.estimate_of_static {g g' : Globals} (h : g'.static = g.static) (p : PcbPtr) :
    g'.estimate p = g.estimate p :=
  congrArg (fun s ↦ (s.pcb p).estBurst) h

/-- An invocation takes the first process that stays `READY`, and what is left of the queue stays in
order. -/
theorem ShortestFirst.pickNext {log : List PcbPtr} {a a' : Kernel Lists}
    (h : ShortestFirst log (Spec.parked a)) (ha : Inv a) (hpick : Spec.pickNext a = some a') :
    ShortestFirst log a' ∧ (∀ p, a'.estimate p = a.estimate p) ∧
      a'.currentProcess = (((Spec.parked a).queues .readyQueue).filter fun p ↦
        ((Spec.parked a).pcb p).signalled.state = .ready).head?.getD .initProcess := by
  have halg : a.activeAlgorithm = .sjf := by
    have hpark := h.algorithm
    rwa [Spec.parked, Spec.park_activeAlgorithm] at hpark
  have hqueueHead : a.algorithm.pickNext = .scheduleQueueHead := by
    rw [Globals.algorithm, halg]
    rfl
  have hnodup := (Spec.parked_selectable ha).nodup .readyQueue
  obtain ⟨hstatic, hsub, hnext⟩ := Spec.takeReady_head (g := (Spec.parked a).toGlobals) hnodup
  generalize hr : Spec.takeReady (Spec.parked a).toGlobals ((Spec.parked a).queues .readyQueue) = r
    at hstatic hsub hnext
  obtain rfl := Spec.pickNext_queueHead hqueueHead hpick hr
  have hest : ∀ p, (r.1.dispatch (r.2.1.getD .initProcess)).estimate p =
      (Spec.parked a).estimate p := fun p ↦
    (r.1.dispatch_field _ PCB.estBurst (fun _ _ ↦ rfl) (fun _ _ ↦ rfl) p).trans
      (Globals.estimate_of_static hstatic p)
  refine ⟨⟨?_, ?_⟩, fun p ↦ (hest p).trans ?_, ?_⟩
  · have hfrozen := (r.1.frozen_dispatch (r.2.1.getD .initProcess)).trans
      (Globals.frozen_of_static hstatic)
    exact (Globals.activeAlgorithm_of_frozen hfrozen).trans h.algorithm
  · show InServiceOrder (r.1.dispatch (r.2.1.getD .initProcess)).estimate log
      (Function.update (Spec.parked a).queues .readyQueue r.2.2 .readyQueue)
    rw [Function.update_self]
    exact (h.order.sublist hsub).congr fun p _ ↦ hest p
  · exact Spec.parked_field a PCB.estBurst (fun _ _ ↦ rfl) (fun _ _ ↦ rfl) p
  · rw [← hnext]
    exact Globals.dispatch_currentProcess ..

/-! ## Runs -/

theorem Op.putBack_eq {k k₁ : Kernel Pointers} {op : Op} {b : Bool}
    (h : op.entry k = some (b, k₁)) :
    op.putBack k = if b = true ∧ k₁.StillRunnable then [k₁.currentProcess] else [] := by
  rw [putBack, h]
  cases b with
  | false => rfl
  | true => simp

/-- One operation.  When it calls the scheduler, the choice is made in the list kernel `a₁`. -/
theorem Sound.shortest {k k' : Kernel Pointers} {a : Kernel Lists} (h : Sound k a)
    {log : List PcbPtr} (hs : ShortestFirst log a) {op : Op} (hop : op.Enabled k.toGlobals)
    (hrun : op.run k = some k') :
    ∃ a', Sound k' a' ∧ ShortestFirst (log ++ op.inserted k) a' ∧
      (∀ p ∈ a.queues .readyQueue, a'.estimate p = a.estimate p) ∧
      ∀ {k₁}, op.entry k = some (true, k₁) → ∃ a₁, Sim k₁ a₁ ∧ Inv a₁ ∧
        ShortestFirst (log ++ op.inserted k) (Spec.parked a₁) ∧
        a'.currentProcess = (((Spec.parked a₁).queues .readyQueue).filter fun p ↦
          ((Spec.parked a₁).pcb p).signalled.state = .ready).head?.getD .initProcess := by
  obtain ⟨b, k₁, a₁, a', hentry, hspec, hsim, ha₁, -, hcont, -, h'⟩ := h.refines hop hrun
  rw [h.sim.globals] at hop
  have hjoin := Enlists.entry hs.algorithm h.inv h.settled h.sim hop hspec
  have hs₁ := hs.joins hjoin
  cases b with
  | false =>
      obtain rfl := Option.some.inj hcont
      refine ⟨a₁, h', ?_, hjoin.estimate, fun {k₂} hk₂ ↦ ?_⟩
      · rw [Op.inserted, Op.putBack_eq hentry, if_neg (by simp), List.append_nil]
        exact hs₁
      · exact nomatch (Prod.mk.inj (Option.some.inj (hentry.symm.trans hk₂))).1
  | true =>
      have hback := Enlists.parked hs₁.algorithm ha₁
      have hparked := hs₁.joins hback
      have hlog : log ++ op.inserted k = log ++ (op.arrives k ++ op.woken k) ++
          if a₁.StillRunnable then [a₁.currentProcess] else [] := by
        rw [Op.inserted, Op.putBack_eq hentry, hsim.globals]
        simp only [true_and, List.append_assoc]
      rw [← hlog] at hparked
      obtain ⟨hs', hest, hcur⟩ := hparked.pickNext ha₁ hcont
      refine ⟨a', h', hs', fun p hp ↦ (hest p).trans (hjoin.estimate p hp), fun {k₂} hk₂ ↦ ?_⟩
      obtain ⟨-, rfl⟩ := Prod.mk.inj (Option.some.inj (hentry.symm.trans hk₂))
      exact ⟨a₁, hsim, ha₁, hparked, hcur⟩

theorem Sound.shortest_run {k : Kernel Pointers} {a : Kernel Lists} (h : Sound k a)
    {log : List PcbPtr} (hs : ShortestFirst log a) {steps : List (Op × Kernel Pointers)}
    (hsteps : Follows k steps) :
    ∃ a', Sound (lastState k steps) a' ∧ ShortestFirst (log ++ insertions k steps) a' := by
  induction steps generalizing k a log with
  | nil => exact ⟨a, h, (List.append_nil log).symm ▸ hs⟩
  | cons s steps ih =>
      obtain ⟨hop, hrun, hsteps⟩ := hsteps
      obtain ⟨a₁, h₁, hs₁, -⟩ := h.shortest hs hop hrun
      obtain ⟨a', h', hs'⟩ := ih h₁ hs₁ hsteps
      refine ⟨a', h', ?_⟩
      rw [insertions, ← List.append_assoc]
      exact hs'

end DemosOS
