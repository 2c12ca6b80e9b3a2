import DemosOS.Sched.Steps

/-!
# First come, first served

Round robin and first-come-first-served keep one queue, append to it and take from its front.
No operation moves a process of the queue back, so a process that is neither killed nor stopped
gets the processor after the processes before it, and before those that come later.

Without preemption the processes at the front of the queue run one after the other, each until
it exits.
-/

namespace DemosOS

/-! ## Appending -/

/-- The ready queue has grown at its end. -/
structure Appends (a a' : Kernel Lists) : Prop where
  algorithm : a'.activeAlgorithm = a.activeAlgorithm
  queue : a.queues .readyQueue <+: a'.queues .readyQueue

namespace Appends

variable {a a₁ a₂ : Kernel Lists}

theorem refl (a : Kernel Lists) : Appends a a := ⟨rfl, List.prefix_refl _⟩

theorem trans (h : Appends a a₁) (h' : Appends a₁ a₂) : Appends a a₂ :=
  ⟨h'.algorithm.trans h.algorithm, h.queue.trans h'.queue⟩

/-- Code that does not touch the queues. -/
theorem mapGlobals (a : Kernel Lists) {f : Globals → Globals}
    (hf : (f a.toGlobals).activeAlgorithm = a.activeAlgorithm) : Appends a (a.mapGlobals f) :=
  ⟨hf, List.prefix_refl _⟩

/-- The algorithm is one that appends. -/
theorem fifo (h : Appends a a₁) (halg : a.algorithm.enqueue = .enqueueFifo) :
    a₁.algorithm.enqueue = .enqueueFifo := by
  rw [Globals.algorithm, h.algorithm]
  exact halg

end Appends

theorem endBurst_appends (a : Kernel Lists) : Appends a (a.mapGlobals (·.endBurst)) := by
  refine .mapGlobals a ?_
  unfold Globals.endBurst
  split_ifs <;> rfl

namespace Spec

variable {a a₁ : Kernel Lists} (halg : a.algorithm.enqueue = .enqueueFifo)
include halg

theorem onTick_fifo : onTick a = some a := by
  have hnone : a.algorithm.onTick = none := by
    revert halg
    unfold Globals.algorithm
    cases a.activeAlgorithm <;> simp [Algorithm.descriptor]
  rw [onTick, hnone]

theorem enqueue_fifo {p : PcbPtr} (hp : p ≠ .initProcess) :
    (enqueue p a).queues .readyQueue = a.queues .readyQueue ++ [p] := by
  have htarget : targetQueue a.toGlobals p = .readyQueue := by simp only [targetQueue, halg]
  have hinsert : ∀ l, insert a.toGlobals p l = l ++ [p] := by
    intro l
    simp only [insert, halg]
  rw [enqueue, if_neg hp]
  simp only [htarget, Function.update_self, hinsert]

theorem enqueue_appends (p : PcbPtr) : Appends a (enqueue p a) := by
  by_cases hp : p = .initProcess
  · rw [enqueue, if_pos hp]
    exact .refl a
  · constructor
    · rw [enqueue, if_neg hp]
      rfl
    · rw [enqueue_fifo halg hp]
      exact List.prefix_append _ _

theorem enqueue_appends_of {a' : Kernel Lists} (p : PcbPtr) (h : Appends a a') :
    Appends a (enqueue p a') := h.trans (enqueue_appends (h.fifo halg) p)

theorem wakeWaiter_appends (i : Nat) : Appends a (wakeWaiter a i) := by
  unfold wakeWaiter
  split
  · exact .refl a
  · split_ifs
    · exact enqueue_appends_of halg _ (.mapGlobals a rfl)
    · exact .refl a

theorem wakeWaiters_appends (slots : List Nat) : Appends a (slots.foldl wakeWaiter a) := by
  induction slots generalizing a with
  | nil => exact .refl a
  | cons i slots ih =>
      have hstep := wakeWaiter_appends halg i
      exact hstep.trans (ih (hstep.fifo halg))

theorem terminate_appends : Appends a (terminate a) := by
  have hmark : Appends a (a.mapGlobals fun g ↦
      (g.preemptDisable).setState g.currentProcess .zombie) := .mapGlobals a rfl
  unfold terminate
  generalize List.range N_PROCESSES = slots
  exact (hmark.trans (wakeWaiters_appends (hmark.fifo halg) slots)).trans (.mapGlobals _ rfl)

theorem addProcess_appends (p : PcbPtr) : Appends a (addProcess p a) := by
  have hreg : Appends a (a.mapGlobals (·.register p)) := .mapGlobals a rfl
  unfold addProcess
  dsimp only
  split_ifs
  · exact .refl a
  · exact (hreg.trans (enqueue_appends (hreg.fifo halg) p)).trans (.mapGlobals _ rfl)
  · exact hreg.trans (.mapGlobals _ rfl)

theorem tickEntry_appends {b : Bool} (h : tickEntry a = some (b, a₁)) : Appends a a₁ := by
  have hcharge : Appends a (a.mapGlobals (·.chargeTick)) := .mapGlobals a rfl
  rw [tickEntry, onTick_fifo (hcharge.fifo halg)] at h
  simp only [Option.bind_eq_bind, Option.bind_some] at h
  split_ifs at h
  · obtain ⟨-, rfl⟩ := Prod.mk.inj (Option.some.inj h)
    exact hcharge
  · obtain ⟨-, rfl⟩ := Prod.mk.inj (Option.some.inj h)
    exact hcharge.trans (.mapGlobals _ rfl)
  · obtain ⟨-, rfl⟩ := Prod.mk.inj (Option.some.inj h)
    exact hcharge.trans (.mapGlobals _ rfl)

/-- An operation only appends to the queue before it enters the scheduler. -/
theorem entry_appends {op : Op} {b : Bool} (h : entry a op = some (b, a₁)) : Appends a a₁ := by
  have hleave : ∀ {a' : Kernel Lists}, Appends a a' → Appends a (a'.mapGlobals (·.endBurst)) :=
    fun hstep ↦ hstep.trans (endBurst_appends _)
  cases op with
  | add p b =>
      obtain ⟨-, rfl⟩ := Prod.mk.inj (Option.some.inj h)
      have hwrite : Appends a (a.mapGlobals (·.modifyPcb p fun _ ↦ b)) := .mapGlobals a rfl
      exact hwrite.trans (addProcess_appends (hwrite.fifo halg) p)
  | wake p =>
      obtain ⟨-, rfl⟩ := Prod.mk.inj (Option.some.inj h)
      exact enqueue_appends_of halg p (.mapGlobals a rfl)
  | yield =>
      obtain ⟨-, rfl⟩ := Prod.mk.inj (Option.some.inj h)
      exact hleave (.mapGlobals a rfl)
  | block s =>
      obtain ⟨-, rfl⟩ := Prod.mk.inj (Option.some.inj h)
      exact hleave (.mapGlobals a rfl)
  | wait pid =>
      simp only [entry] at h
      split at h
      · obtain ⟨-, rfl⟩ := Prod.mk.inj (Option.some.inj h)
        exact .refl a
      · split_ifs at h
        · obtain ⟨-, rfl⟩ := Prod.mk.inj (Option.some.inj h)
          exact .refl a
        · obtain ⟨-, rfl⟩ := Prod.mk.inj (Option.some.inj h)
          exact hleave (.mapGlobals a rfl)
  | exit =>
      obtain ⟨-, rfl⟩ := Prod.mk.inj (Option.some.inj h)
      exact hleave (terminate_appends halg)
  | tick => exact tickEntry_appends halg h
  | signal pid f =>
      obtain ⟨-, rfl⟩ := Prod.mk.inj (Option.some.inj h)
      refine .mapGlobals a ?_
      unfold Globals.syscallSendSignal
      split <;> rfl
  | setParam pid param value =>
      obtain ⟨-, rfl⟩ := Prod.mk.inj (Option.some.inj h)
      exact .mapGlobals a (setParam_activeAlgorithm a.toGlobals pid param value)

theorem parked_appends : Appends a (parked a) := by
  rw [parked_eq]
  split_ifs
  · exact enqueue_appends_of halg _ (.mapGlobals a rfl)
  · exact .mapGlobals a rfl

end Spec

/-! ## Taking from the front -/

namespace Spec

/-- Round robin and first-come-first-served choose with a dequeue loop on the ready queue. -/
theorem pickNext_takeReady {a a' : Kernel Lists}
    (hpick : a.algorithm.pickNext = .scheduleRoundRobin ∨
      a.algorithm.pickNext = .scheduleQueueHead) (h : pickNext a = some a') :
    ∃ next rest, (takeReady (parked a).toGlobals ((parked a).queues .readyQueue)).2 = (next, rest) ∧
      a'.queues .readyQueue = rest ∧ a'.currentProcess = next.getD .initProcess := by
  have halg : (parked a).algorithm = a.algorithm := by
    rw [Globals.algorithm, parked, park_activeAlgorithm]
    rfl
  obtain ⟨⟨next, a₁⟩, hselect, rfl⟩ := Option.map_eq_some_iff.mp h
  generalize hr : takeReady (parked a).toGlobals ((parked a).queues .readyQueue) = r at *
  obtain ⟨g, next', rest⟩ := r
  have hsettle : ∃ charge, (next, a₁) = settle (parked a) charge (g, next', rest) := by
    rw [select, choose, halg] at hselect
    rcases hpick with hpick | hpick
    · simp only [hpick, hr] at hselect
      exact ⟨_, (Option.some.inj hselect).symm⟩
    · simp only [hpick, hr] at hselect
      exact ⟨_, (Option.some.inj hselect).symm⟩
  obtain ⟨charge, hsettle⟩ := hsettle
  refine ⟨next', rest, rfl, ?_⟩
  cases next' with
  | none =>
      obtain ⟨rfl, rfl⟩ := Prod.mk.inj hsettle
      exact ⟨by simp, by simp⟩
  | some p =>
      obtain ⟨rfl, rfl⟩ := Prod.mk.inj hsettle
      exact ⟨by simp, by simp⟩

end Spec

/-! ## Bounded waiting -/

/-- The algorithm appends to the ready queue and takes from its front. -/
def Globals.ServesFront (g : Globals) : Prop :=
  g.activeAlgorithm = .roundRobin ∨ g.activeAlgorithm = .fcfs

namespace Globals.ServesFront

variable {g : Globals}

theorem fifo (h : g.ServesFront) : g.algorithm.enqueue = .enqueueFifo := by
  rw [algorithm]
  rcases h with h | h <;> rw [h] <;> rfl

theorem pick (h : g.ServesFront) : g.algorithm.pickNext = .scheduleRoundRobin ∨
    g.algorithm.pickNext = .scheduleQueueHead := by
  rw [algorithm]
  rcases h with h | h <;> rw [h]
  · exact .inl rfl
  · exact .inr rfl

end Globals.ServesFront

/-- In a list without repetitions a process has one place. -/
theorem unique_place {p : PcbPtr} {pre suf u v : List PcbPtr} (hnd : (pre ++ p :: suf).Nodup)
    (h : pre ++ p :: suf = u ++ p :: v) : pre = u ∧ suf = v := by
  have hpre : p ∉ pre := fun hp ↦ (List.nodup_append.mp hnd).2.2 p hp p List.mem_cons_self rfl
  have hsuf : p ∉ suf := (List.nodup_cons.mp (List.nodup_append.mp hnd).2.1).1
  obtain ⟨hu, -, hv⟩ := (List.append_cons_inj_of_notMem hpre hsuf).mp h
  exact ⟨hu, hv⟩

/-- What an invocation leaves of a queue in which `p` waits: `p` is chosen, or somebody before
it is, and those before that one are gone. -/
theorem Invocation.waits {a a' : Kernel Lists} (h : Invocation a a') (ha : Inv a)
    (halg : a.ServesFront) (hpick : Spec.pickNext a = some a') {p : PcbPtr}
    {pre suf : List PcbPtr} (hq : a.queues .readyQueue = pre ++ p :: suf)
    (hkill : (a'.pcb p).state ≠ .zombie) (hstop : (a'.pcb p).state ≠ .stopped) :
    a'.currentProcess = p ∨ ∃ skipped pre' suf', pre = skipped ++ a'.currentProcess :: pre' ∧
      a'.queues .readyQueue = pre' ++ p :: suf' := by
  have hmem : p ∈ a.queues .readyQueue := by
    rw [hq]
    simp
  have hinit : p ≠ .initProcess := fun e ↦ ha.init _ (e ▸ hmem)
  have hsel := (Spec.parked_selectable ha).toTidy
  obtain ⟨suf', hparked⟩ : ∃ suf', (Spec.parked a).queues .readyQueue = pre ++ p :: suf' := by
    obtain ⟨news, hnews⟩ := (Spec.parked_appends halg.fifo).queue
    exact ⟨suf ++ news, by rw [← hnews, hq]; simp⟩
  cases h.turn p hinit with
  | away hrun => exact absurd (.inl ⟨_, hmem⟩) hrun
  | dispatched _ _ hcur => exact .inl hcur.symm
  | killed _ _ _ hstate => exact absurd hstate hkill
  | stopped _ _ _ hstate => exact absurd hstate hstop
  | waits _ q hq' =>
      have hparkedmem : p ∈ (Spec.parked a).queues .readyQueue := by
        rw [hparked]
        simp
      obtain rfl := hsel.disjoint _ _ p ((h.sublist q).subset hq') hparkedmem
      obtain ⟨next, rest, htake, hrest, hcur⟩ := Spec.pickNext_takeReady halg.pick hpick
      obtain ⟨skipped, x, rest', hl, htake'⟩ | htake' := Spec.takeReady_split
        (Spec.parked a).toGlobals ((Spec.parked a).queues .readyQueue)
      · obtain ⟨rfl, rfl⟩ := Prod.mk.inj (htake.symm.trans htake')
        rw [hrest] at hq'
        obtain ⟨u, v, rfl⟩ := List.append_of_mem hq'
        have hnd := hsel.nodup .readyQueue
        rw [hparked] at hnd
        have hplace : pre ++ p :: suf' = (skipped ++ x :: u) ++ p :: v := by
          rw [← hparked, hl]
          simp
        obtain ⟨rfl, -⟩ := unique_place hnd hplace
        exact .inr ⟨skipped, u, v, by rw [hcur]; rfl, hrest⟩
      · obtain ⟨rfl, rfl⟩ := Prod.mk.inj (htake.symm.trans htake')
        rw [hrest] at hq'
        exact absurd hq' List.not_mem_nil

namespace Sound

variable {k k' : Kernel Pointers} {a : Kernel Lists} {op : Op}

/-- One operation, for a process that waits in the ready queue. -/
theorem waits (h : Sound k a) (halg : a.ServesFront) (hop : op.Enabled k.toGlobals)
    (hrun : op.run k = some k') {p : PcbPtr} {pre suf : List PcbPtr}
    (hq : a.queues .readyQueue = pre ++ p :: suf) (hkill : (k'.pcb p).state ≠ .zombie)
    (hstop : (k'.pcb p).state ≠ .stopped) :
    ∃ a', Sound k' a' ∧ a'.ServesFront ∧
      ((op.invokes k = false ∧ ∃ suf', a'.queues .readyQueue = pre ++ p :: suf') ∨
        (op.invokes k = true ∧ (k'.currentProcess = p ∨
          ∃ skipped pre' suf', pre = skipped ++ k'.currentProcess :: pre' ∧
            a'.queues .readyQueue = pre' ++ p :: suf'))) := by
  obtain ⟨b, k₁, a₁, a', hentry, hspec, -, ha₁, -, hcont, hinv, h'⟩ := h.refines hop hrun
  have happ := Spec.entry_appends halg.fifo hspec
  have halg₁ : a₁.ServesFront := by
    rw [Globals.ServesFront, happ.algorithm]
    exact halg
  obtain ⟨news, hnews⟩ := happ.queue
  have hq₁ : a₁.queues .readyQueue = pre ++ p :: (suf ++ news) := by
    rw [← hnews, hq]
    simp
  cases b with
  | false =>
      obtain rfl := Option.some.inj hcont
      exact ⟨a₁, h', halg₁, .inl ⟨Op.invokes_eq hentry, _, hq₁⟩⟩
  | true =>
      have hinv := hinv rfl
      have halg' : a'.ServesFront := by
        rw [Globals.ServesFront, Globals.activeAlgorithm_of_frozen hinv.frozen]
        exact halg₁
      refine ⟨a', h', halg', .inr ⟨Op.invokes_eq hentry, ?_⟩⟩
      rw [h'.sim.globals] at hkill hstop ⊢
      exact hinv.waits ha₁ halg₁ hcont hq₁ hkill hstop

theorem queue_iff (h : Sound k a) {q : QueueId} {l : List PcbPtr} :
    k.Queue q l ↔ a.queues q = l := by
  constructor
  · exact fun hl ↦ (h.sim.queues.chain q).unique hl
  · rintro rfl
    exact h.sim.queues.chain q

/-- A run, for a process that waits in the ready queue: either it is chosen after some of the
processes before it, or it still waits and only processes before it were chosen. -/
theorem waits_run (h : Sound k a) (halg : a.ServesFront) {steps : List (Op × Kernel Pointers)}
    (hsteps : Follows k steps) {p : PcbPtr} {pre suf : List PcbPtr}
    (hq : a.queues .readyQueue = pre ++ p :: suf)
    (hlive : ∀ s ∈ steps, (s.2.pcb p).state ≠ .zombie ∧ (s.2.pcb p).state ≠ .stopped) :
    (∃ before after, dispatches k steps = before ++ p :: after ∧ before.Sublist pre) ∨
      ∃ passed pre' suf', pre = passed ++ pre' ∧ (dispatches k steps).Sublist passed ∧
        (lastState k steps).Queue .readyQueue (pre' ++ p :: suf') := by
  induction steps generalizing k a pre suf with
  | nil => exact .inr ⟨[], pre, suf, rfl, List.Sublist.refl _, h.queue_iff.mpr hq⟩
  | cons s steps ih =>
      obtain ⟨op, k'⟩ := s
      obtain ⟨hop, hrun, hsteps⟩ := hsteps
      obtain ⟨hkill, hstop⟩ := hlive _ List.mem_cons_self
      have hlive' := fun s hs ↦ hlive s (List.mem_cons_of_mem _ hs)
      obtain ⟨a', h', halg', hcase⟩ := h.waits halg hop hrun hq hkill hstop
      rw [dispatches, lastState]
      obtain ⟨hidle, suf', hq'⟩ | ⟨hpick, rfl | ⟨skipped, pre', suf', rfl, hq'⟩⟩ := hcase
      · simp only [hidle, Bool.false_eq_true, if_false, List.nil_append]
        exact ih h' halg' hsteps hq' hlive'
      · simp only [hpick, if_true]
        exact .inl ⟨[], dispatches k' steps, rfl, List.nil_sublist _⟩
      · simp only [hpick, if_true, List.singleton_append]
        obtain ⟨before, after, hbefore, hsub⟩ | ⟨passed, pre'', suf'', rfl, hsub, hlast⟩ :=
          ih h' halg' hsteps hq' hlive'
        · refine .inl ⟨k'.currentProcess :: before, after, by rw [hbefore]; rfl, ?_⟩
          exact (hsub.cons_cons _).trans (List.sublist_append_right _ _)
        · refine .inr ⟨skipped ++ k'.currentProcess :: passed, pre'', suf'', by simp, ?_, hlast⟩
          exact (hsub.cons_cons _).trans (List.sublist_append_right _ _)

end Sound

/-- Under round robin a process at position `pre.length` of the ready queue that is neither
killed nor stopped is chosen by one of the next `pre.length + 1` scheduler invocations, whatever
the operations are.  As long as it has not been chosen, the processes chosen are ones that were
before it, in their order, and the processes before it now are those that were before it and
have not been passed. -/
theorem roundRobin_bounded_waiting {k : Kernel Pointers} (h : Reachable k)
    (halg : k.activeAlgorithm = .roundRobin) {p : PcbPtr} {pre suf : List PcbPtr}
    (hq : k.Queue .readyQueue (pre ++ p :: suf)) {steps : List (Op × Kernel Pointers)}
    (hsteps : Follows k steps)
    (hlive : ∀ s ∈ steps, (s.2.pcb p).state ≠ .zombie ∧ (s.2.pcb p).state ≠ .stopped) :
    (pre.length < (dispatches k steps).length →
      p ∈ (dispatches k steps).take (pre.length + 1)) ∧
    ((∃ before after, dispatches k steps = before ++ p :: after ∧ before.Sublist pre) ∨
      ∃ passed pre' suf', pre = passed ++ pre' ∧ (dispatches k steps).Sublist passed ∧
        (lastState k steps).Queue .readyQueue (pre' ++ p :: suf')) := by
  obtain ⟨a, ha⟩ := h.sound
  have halg' : a.ServesFront := .inl (by rw [← ha.sim.globals]; exact halg)
  have hcase := ha.waits_run halg' hsteps (ha.queue_iff.mp hq) hlive
  refine ⟨fun hlen ↦ ?_, hcase⟩
  obtain ⟨before, after, hbefore, hsub⟩ | ⟨passed, pre', suf', rfl, hsub, -⟩ := hcase
  · have hle : (before ++ [p]).length ≤ pre.length + 1 := by
      rw [List.length_append, List.length_singleton]
      exact Nat.succ_le_succ hsub.length_le
    rw [hbefore, ← List.singleton_append, ← List.append_assoc, List.take_append,
      List.take_of_length_le hle]
    simp
  · have hle := hsub.length_le
    rw [List.length_append] at hlen
    omega

/-- Three children are created and a tick starts the first.  The third stands at position one;
a fourth arrives, the first two yield, and the second invocation takes the third. -/
theorem roundRobin_bounded_waiting_third : ∃ k steps,
    runAll [.add (.page 0) (childOfInit 1), .add (.page 1) (childOfInit 2),
      .add (.page 2) (childOfInit 3), .tick] (Kernel.boot .roundRobin fun _ ↦ 0) = some k ∧
    trace [.add (.page 3) (childOfInit 4), .yield, .yield] k = some steps ∧
    PcbPtr.page 2 ∈ (dispatches k steps).take 2 := by
  have hrun : (runAll [.add (.page 0) (childOfInit 1), .add (.page 1) (childOfInit 2),
      .add (.page 2) (childOfInit 3), .tick] (Kernel.boot .roundRobin fun _ ↦ 0)).any (fun k ↦
        k.activeAlgorithm = .roundRobin ∧ k.Queue .readyQueue [.page 1, .page 2] ∧
        ((trace [.add (.page 3) (childOfInit 4), .yield, .yield] k).any fun steps ↦
          1 < (dispatches k steps).length ∧ ∀ s ∈ steps, (s.2.pcb (.page 2)).state ≠ .zombie ∧
            (s.2.pcb (.page 2)).state ≠ .stopped)) = true := by
    decide +kernel
  obtain ⟨k, hk, hspec⟩ := (Option.any_eq_true _ _).mp hrun
  obtain ⟨halg, hq, htrace⟩ := of_decide_eq_true hspec
  obtain ⟨steps, hsteps, hspec⟩ := (Option.any_eq_true _ _).mp htrace
  obtain ⟨hlen, hlive⟩ := of_decide_eq_true hspec
  have hreach := (reachable_boot _ _).runAll hk
  have hqueue : k.Queue .readyQueue ([.page 1] ++ .page 2 :: []) := hq
  exact ⟨k, steps, hk, hsteps,
    (roundRobin_bounded_waiting hreach halg hqueue (hreach.follows_trace hsteps) hlive).1 hlen⟩

/-! ## Running to completion -/

/-- The operation neither blocks the running process nor makes it yield, and it signals no
process of `l`. -/
def Op.LetsRun (l : List PcbPtr) (k : Kernel Pointers) : Op → Prop
  | .add _ _ | .wake _ | .exit | .tick | .setParam _ _ _ => True
  | .signal pid _ => ∀ p ∈ l, ((k.pcb p).pid : Int) ≠ pid
  | .wait pid => (Op.wait pid).invokes k = false
  | .yield | .block _ => False

instance (l : List PcbPtr) (k : Kernel Pointers) : ∀ op, Decidable (Op.LetsRun l k op)
  | .add _ _ | .wake _ | .exit | .tick | .setParam _ _ _ => inferInstanceAs (Decidable True)
  | .signal pid _ => inferInstanceAs (Decidable (∀ p ∈ l, ((k.pcb p).pid : Int) ≠ pid))
  | .wait pid => inferInstanceAs (Decidable ((Op.wait pid).invokes k = false))
  | .yield | .block _ => inferInstanceAs (Decidable False)

/-- The processes that exit in a run, in order. -/
def exits : Kernel Pointers → List (Op × Kernel Pointers) → List PcbPtr
  | _, [] => []
  | k, (op, k') :: steps =>
      (match op with
        | .exit => [k.currentProcess]
        | _ => []) ++ exits k' steps

/-- No signal is pending that would take the process out of the queue. -/
def PCB.Unsignalled (b : PCB) : Prop :=
  ¬ b.hasSignal SIGNAL_KILL ∧ ¬ b.hasSignal SIGNAL_STOP

instance (b : PCB) : Decidable b.Unsignalled := inferInstanceAs (Decidable (_ ∧ _))

/-- The process `x` runs, and those of `l` are the next ones. -/
structure InTurn (x : PcbPtr) (l : List PcbPtr) (a : Kernel Lists) : Prop where
  algorithm : a.activeAlgorithm = .fcfs
  current : a.currentProcess = x
  queue : l <+: a.queues .readyQueue
  unsignalled : ∀ p ∈ l, (a.pcb p).Unsignalled

/-- Without preemption a tick does not enter the scheduler while a process runs. -/
theorem Spec.tickEntry_fcfs {a a₁ : Kernel Lists} {b : Bool} (halg : a.activeAlgorithm = .fcfs)
    (hcur : a.currentProcess ≠ .initProcess) (h : tickEntry a = some (b, a₁)) : b = false := by
  have hfifo : (a.mapGlobals (·.chargeTick)).algorithm.enqueue = .enqueueFifo := by
    rw [Globals.algorithm]
    show a.activeAlgorithm.descriptor.enqueue = _
    rw [halg]
    rfl
  have hpreempt : (a.mapGlobals (·.chargeTick)).algorithm.isPreemptive = false := by
    rw [Globals.algorithm]
    show a.activeAlgorithm.descriptor.isPreemptive = _
    rw [halg]
    rfl
  rw [tickEntry, onTick_fifo hfifo] at h
  simp only [Option.bind_eq_bind, Option.bind_some] at h
  split_ifs at h with hcounter hnot
  · exact (Prod.mk.inj (Option.some.inj h)).1.symm
  · exact (Prod.mk.inj (Option.some.inj h)).1.symm
  · exact absurd ⟨hpreempt, hcur⟩ hnot

namespace Sound

variable {k k' : Kernel Pointers} {a a₁ : Kernel Lists} {op : Op}

/-- Before the scheduler, an operation that does not signal them leaves the queued processes
unsignalled. -/
theorem unsignalled (h : Sound k a) {l : List PcbPtr} {q : QueueId} (hl : l <+: a.queues q)
    (hsig : ∀ p ∈ l, (a.pcb p).Unsignalled) (hop : op.Enabled k.toGlobals) {b : Bool}
    (hspec : Spec.entry a op = some (b, a₁))
    (hsignal : ∀ pid f, op = .signal pid f → ∀ p ∈ l, ((a.pcb p).pid : Int) ≠ pid) :
    ∀ p ∈ l, (a₁.pcb p).Unsignalled := by
  intro p hp
  have hknown := h.inv.known q p (hl.subset hp)
  have hpending := Spec.entry_pendingSignals hspec h.inv.table (x := p)
    (fun b he ↦ by
      rw [h.sim.globals, he] at hop
      exact hop.1 hknown)
    fun pid f he ↦ hsignal pid f he p hp
  have hsame := hsig p hp
  unfold PCB.Unsignalled PCB.hasSignal at hsame ⊢
  rwa [hpending]

/-- An invocation of the scheduler gives the processor to the first process of the queue. -/
theorem release (h : Sound k a) (halg : a.activeAlgorithm = .fcfs) {y : PcbPtr}
    {l : List PcbPtr} (hq : y :: l <+: a.queues .readyQueue)
    (hsig : ∀ p ∈ y :: l, (a.pcb p).Unsignalled) (hop : op.Enabled k.toGlobals)
    (hrun : op.run k = some k') (hinvokes : op.invokes k = true) :
    ∃ a', Sound k' a' ∧ InTurn y l a' := by
  obtain ⟨b, k₁, a₁, a', hentry, hspec, -, ha₁, -, hcont, hinv, h'⟩ := h.refines hop hrun
  obtain rfl : b = true := (Op.invokes_eq hentry).symm.trans hinvokes
  have hfront : a.ServesFront := .inr halg
  have happ := Spec.entry_appends hfront.fifo hspec
  have halg₁ : a₁.activeAlgorithm = .fcfs := happ.algorithm.trans halg
  have hfront₁ : a₁.ServesFront := .inr halg₁
  have hsig₁ := h.unsignalled hq hsig hop hspec fun pid f he ↦ by
    subst he
    simp [Spec.entry] at hspec
  -- the queue in which the choice is made begins with the same processes
  obtain ⟨rest, hrest⟩ := (hq.trans happ.queue).trans (Spec.parked_appends hfront₁.fifo).queue
  have hsel := (Spec.parked_selectable ha₁).toTidy
  have hy : y ∈ (Spec.parked a₁).queues .readyQueue := by
    rw [← hrest]
    simp
  have hready : ((Spec.parked a₁).pcb y).signalled.state = .ready := by
    rw [PCB.signalled_state_eq_ready (hsel.ready _ y hy)]
    have hsame := hsig₁ y List.mem_cons_self
    unfold PCB.Unsignalled PCB.hasSignal at hsame
    simpa only [PCB.hasSignal, Spec.parked_pendingSignals] using hsame
  obtain ⟨next, rest', htake, hrest', hcur⟩ := Spec.pickNext_takeReady hfront₁.pick hcont
  rw [← hrest, List.cons_append, Spec.takeReady, if_pos hready] at htake
  obtain ⟨rfl, rfl⟩ := Prod.mk.inj htake
  have hinv := hinv rfl
  refine ⟨a', h', (Globals.activeAlgorithm_of_frozen hinv.frozen).trans halg₁, hcur, ?_, ?_⟩
  · rw [hrest']
    exact List.prefix_append _ _
  · intro p hp
    have hp' : p ∈ a'.queues .readyQueue := by
      rw [hrest']
      exact List.mem_append_left _ hp
    cases hinv.turn p (fun e ↦ h'.inv.init _ (e ▸ hp')) with
    | away _ hq => exact absurd hp' (hq _)
    | waits _ _ _ _ _ hkill hstop =>
        obtain ⟨hk, hs⟩ := hsig₁ p (List.mem_cons_of_mem _ hp)
        exact ⟨fun hb ↦ hk (hkill.mp hb), fun hb ↦ hs (hstop.mp hb)⟩
    | dispatched _ hq => exact absurd hp' (hq _)
    | killed _ hq => exact absurd hp' (hq _)
    | stopped _ hq => exact absurd hp' (hq _)

/-- One operation while `x` runs: either it exits, and the next process runs, or it goes on. -/
theorem step_inTurn (h : Sound k a) {x : PcbPtr} {l : List PcbPtr} (ht : InTurn x l a)
    (hx : x ≠ .initProcess) (hop : op.Enabled k.toGlobals) (hrun : op.run k = some k')
    (hlets : op.LetsRun (x :: l) k) :
    ∃ a', Sound k' a' ∧ ((op = .exit ∧ ∀ {y l'}, l = y :: l' → InTurn y l' a') ∨
      (op ≠ .exit ∧ InTurn x l a')) := by
  obtain ⟨b, k₁, a₁, a', hentry, hspec, -, ha₁, hpass, hcont, -, h'⟩ := h.refines hop hrun
  have hfront : a.ServesFront := .inr ht.algorithm
  have happ := Spec.entry_appends hfront.fifo hspec
  -- an operation that does not enter the scheduler leaves everybody in turn
  have hstays : b = false → (∀ pid f, op = .signal pid f → ∀ p ∈ l, ((a.pcb p).pid : Int) ≠ pid) →
      InTurn x l a' := by
    rintro rfl hsignal
    obtain rfl := Option.some.inj hcont
    exact ⟨happ.algorithm.trans ht.algorithm, hpass.current.trans ht.current,
      ht.queue.trans happ.queue, h.unsignalled ht.queue ht.unsignalled hop hspec hsignal⟩
  have hfalse : ∀ {c : Bool} {a₂ : Kernel Lists}, some (c, a₂) = some (b, a₁) → c = b := by
    intro c a₂ he
    exact (Prod.mk.inj (Option.some.inj he)).1
  cases op with
  | exit =>
      have hinvokes : Op.exit.invokes k = true := (Op.invokes_eq hentry).trans (hfalse hspec).symm
      cases l with
      | nil => exact ⟨a', h', .inl ⟨rfl, nofun⟩⟩
      | cons y l' =>
          obtain ⟨a₂, h₂, ht₂⟩ := h.release ht.algorithm ht.queue ht.unsignalled hop hrun hinvokes
          refine ⟨a₂, h₂, .inl ⟨rfl, ?_⟩⟩
          rintro _ _ ⟨⟩
          exact ht₂
  | add p b' => exact ⟨a', h', .inr ⟨nofun, hstays (hfalse hspec).symm nofun⟩⟩
  | wake p => exact ⟨a', h', .inr ⟨nofun, hstays (hfalse hspec).symm nofun⟩⟩
  | yield => exact hlets.elim
  | block s => exact hlets.elim
  | wait pid =>
      have hb : b = false := (Op.invokes_eq hentry).symm.trans hlets
      exact ⟨a', h', .inr ⟨nofun, hstays hb nofun⟩⟩
  | tick =>
      have hb := Spec.tickEntry_fcfs ht.algorithm (ht.current ▸ hx) hspec
      exact ⟨a', h', .inr ⟨nofun, hstays hb nofun⟩⟩
  | signal pid f =>
      refine ⟨a', h', .inr ⟨nofun, hstays (hfalse hspec).symm ?_⟩⟩
      rintro _ _ ⟨⟩ p hp
      rw [← h.sim.globals]
      exact hlets p (List.mem_cons_of_mem _ hp)
  | setParam pid param value =>
      exact ⟨a', h', .inr ⟨nofun, hstays (hfalse hspec).symm nofun⟩⟩

/-- A run in which the processes of the queue are left to run: they exit in order, and each runs
until it does. -/
theorem run_inTurn (h : Sound k a) {x : PcbPtr} {l : List PcbPtr} (ht : InTurn x l a)
    (hx : x ≠ .initProcess) {steps : List (Op × Kernel Pointers)} (hsteps : Follows k steps)
    (hlets : Along (Op.LetsRun (x :: l)) k steps) :
    (exits k steps).take (x :: l).length = (x :: l).take (exits k steps).length ∧
      ∀ y, (x :: l)[(exits k steps).length]? = some y → (lastState k steps).currentProcess = y := by
  induction steps generalizing k a x l with
  | nil =>
      refine ⟨rfl, fun y hy ↦ ?_⟩
      obtain rfl := Option.some.inj hy
      show k.currentProcess = _
      rw [h.sim.globals]
      exact ht.current
  | cons s steps ih =>
      obtain ⟨op, k'⟩ := s
      obtain ⟨hop, hrun, hsteps⟩ := hsteps
      obtain ⟨hop', hlets⟩ := hlets
      obtain ⟨a', h', ⟨rfl, hnext⟩ | ⟨hne, ht'⟩⟩ := h.step_inTurn ht hx hop hrun hop'
      · have hcur : k.currentProcess = x := by
          rw [h.sim.globals]
          exact ht.current
        rw [exits, lastState, hcur]
        simp only [List.singleton_append, List.length_cons, List.take_succ_cons,
          List.getElem?_cons_succ, List.cons.injEq, true_and]
        cases l with
        | nil => exact ⟨by simp, by simp⟩
        | cons y l' =>
            have hinit : y ≠ .initProcess := by
              rintro rfl
              exact h.inv.init _ (ht.queue.subset List.mem_cons_self)
            refine ih h' (hnext rfl) hinit hsteps (hlets.mono fun k op hop ↦ ?_)
            cases op with
            | signal pid f => exact fun p hp ↦ hop p (List.mem_cons_of_mem _ hp)
            | add | wake | yield | block | wait | exit | tick | setParam => exact hop
      · have hsame : exits k ((op, k') :: steps) = exits k' steps := by
          cases op with
          | exit => exact absurd rfl hne
          | add | wake | yield | block | wait | tick | signal | setParam => rfl
        rw [hsame, lastState]
        exact ih h' ht' hx hsteps hlets

end Sound

/-! ### Arrivals -/

/-- The process that an operation puts at the end of the ready queue, before the scheduler. -/
def Op.arrives (k : Kernel Pointers) : Op → List PcbPtr
  | .add p _ => if k.nProcesses ≥ N_PROCESSES then [] else [p]
  | .wake p => [p]
  | _ => []

/-- The processes that join the ready queue in a run, in order. -/
def arrivals : Kernel Pointers → List (Op × Kernel Pointers) → List PcbPtr
  | _, [] => []
  | k, (op, k') :: steps => op.arrives k ++ arrivals k' steps

namespace Spec

variable {a a₁ : Kernel Lists} (halg : a.algorithm.enqueue = .enqueueFifo)
include halg

theorem tickEntry_queues {b : Bool} (h : tickEntry a = some (b, a₁)) : a₁.queues = a.queues := by
  have hfifo : (a.mapGlobals (·.chargeTick)).algorithm.enqueue = .enqueueFifo := halg
  rw [tickEntry, onTick_fifo hfifo] at h
  simp only [Option.bind_eq_bind, Option.bind_some] at h
  split_ifs at h
  · obtain ⟨-, rfl⟩ := Prod.mk.inj (Option.some.inj h)
    rfl
  · obtain ⟨-, rfl⟩ := Prod.mk.inj (Option.some.inj h)
    rfl
  · obtain ⟨-, rfl⟩ := Prod.mk.inj (Option.some.inj h)
    rfl

/-- An operation that does not enter the scheduler puts the arriving process, if there is one,
at the end of the queue. -/
theorem entry_arrives (ha : Inv a) {k : Kernel Pointers} (hsim : Sim k a) {op : Op}
    (hop : op.Enabled a.toGlobals) (h : entry a op = some (false, a₁)) :
    a₁.queues .readyQueue = a.queues .readyQueue ++ op.arrives k := by
  cases op with
  | add p b =>
      obtain ⟨hp, hpid, hstate, -⟩ := hop
      have hinit : p ≠ .initProcess := by
        rintro rfl
        exact hp ⟨0, ha.table.init⟩
      obtain ⟨-, rfl⟩ := Prod.mk.inj (Option.some.inj h)
      have hb : ((a.mapGlobals (·.modifyPcb p fun _ ↦ b)).pcb p) = b :=
        Globals.modifyPcb_pcb_self _ p fun _ ↦ b
      have hb' : (((a.mapGlobals (·.modifyPcb p fun _ ↦ b)).mapGlobals (·.register p)).pcb p) = b :=
        hb
      have hn : (a.mapGlobals (·.modifyPcb p fun _ ↦ b)).nProcesses = a.nProcesses := rfl
      have hk : k.nProcesses = a.nProcesses := by rw [hsim.globals]
      simp only [addProcess, Op.arrives, hb, hb', hn, hpid, hk, hstate, or_self, if_true]
      split_ifs
      · rw [List.append_nil]
        rfl
      · exact enqueue_fifo (a := (a.mapGlobals (·.modifyPcb p fun _ ↦ b)).mapGlobals
          (·.register p)) halg hinit
  | wake p =>
      obtain ⟨-, rfl⟩ := Prod.mk.inj (Option.some.inj h)
      exact enqueue_fifo (a := a.mapGlobals (·.setState p .ready)) halg hop.2.1
  | yield => exact absurd (Prod.mk.inj (Option.some.inj h)).1 nofun
  | block s => exact absurd (Prod.mk.inj (Option.some.inj h)).1 nofun
  | wait pid =>
      show a₁.queues .readyQueue = a.queues .readyQueue ++ []
      rw [List.append_nil]
      simp only [entry] at h
      split at h
      · obtain ⟨-, rfl⟩ := Prod.mk.inj (Option.some.inj h)
        rfl
      · split_ifs at h
        · obtain ⟨-, rfl⟩ := Prod.mk.inj (Option.some.inj h)
          rfl
        · exact absurd (Prod.mk.inj (Option.some.inj h)).1 nofun
  | exit => exact absurd (Prod.mk.inj (Option.some.inj h)).1 nofun
  | tick =>
      show a₁.queues .readyQueue = a.queues .readyQueue ++ []
      rw [List.append_nil, tickEntry_queues halg h]
  | signal pid f =>
      obtain ⟨-, rfl⟩ := Prod.mk.inj (Option.some.inj h)
      exact (List.append_nil _).symm
  | setParam pid param value =>
      obtain ⟨-, rfl⟩ := Prod.mk.inj (Option.some.inj h)
      exact (List.append_nil _).symm

end Spec

/-- As long as the scheduler is not entered, the queue grows by the arriving processes, in their
order. -/
theorem Sound.queue_arrivals {k : Kernel Pointers} {a : Kernel Lists} (h : Sound k a)
    (halg : a.activeAlgorithm = .fcfs) {steps : List (Op × Kernel Pointers)}
    (hsteps : Follows k steps) (hnone : dispatches k steps = []) :
    ∃ a', Sound (lastState k steps) a' ∧ a'.activeAlgorithm = .fcfs ∧
      a'.queues .readyQueue = a.queues .readyQueue ++ arrivals k steps := by
  induction steps generalizing k a with
  | nil => exact ⟨a, h, halg, (List.append_nil _).symm⟩
  | cons s steps ih =>
      obtain ⟨op, k'⟩ := s
      obtain ⟨hop, hrun, hsteps⟩ := hsteps
      obtain ⟨hidle, hnone⟩ := List.append_eq_nil_iff.mp hnone
      obtain ⟨b, k₁, a₁, a', hentry, hspec, -, -, -, hcont, -, h'⟩ := h.refines hop hrun
      have hfront : a.ServesFront := .inr halg
      cases b with
      | true =>
          rw [Op.invokes_eq hentry] at hidle
          simp at hidle
      | false =>
          obtain rfl := Option.some.inj hcont
          have halg₁ := (Spec.entry_appends hfront.fifo hspec).algorithm.trans halg
          obtain ⟨a', ha', halg', hq⟩ := ih h' halg₁ hsteps hnone
          refine ⟨a', ha', halg', ?_⟩
          rw [h.sim.globals] at hop
          rw [hq, Spec.entry_arrives hfront.fifo h.inv h.sim hop hspec, List.append_assoc]
          rfl

/-- Under first-come-first-served, processes enqueued in the order of `l` that neither block,
yield nor are signalled exit in this order once the scheduler is entered, and between the
dispatch of one and its exit nobody else is current.  What else happens, ticks, wake-ups and
forks, does not matter. -/
theorem fcfs_runs_to_completion {k k₁ : Kernel Pointers} (h : Reachable k)
    (halg : k.activeAlgorithm = .fcfs) {queued l rest : List PcbPtr}
    (hq : k.Queue .readyQueue queued) {arriving : List (Op × Kernel Pointers)}
    (harriving : Follows k arriving) (hnone : dispatches k arriving = [])
    (hl : queued ++ arrivals k arriving = l ++ rest)
    (hsig : ∀ p ∈ l, ((lastState k arriving).pcb p).Unsignalled) {op : Op}
    (hop : op.Enabled (lastState k arriving).toGlobals)
    (hinvokes : op.invokes (lastState k arriving) = true)
    (hrun : op.run (lastState k arriving) = some k₁) {steps : List (Op × Kernel Pointers)}
    (hsteps : Follows k₁ steps) (hlets : Along (Op.LetsRun l) k₁ steps) :
    (exits k₁ steps).take l.length = l.take (exits k₁ steps).length ∧
      ∀ before, before <+: steps → ∀ y, l[(exits k₁ before).length]? = some y →
        (lastState k₁ before).currentProcess = y := by
  obtain ⟨a, ha⟩ := h.sound
  rw [ha.sim.globals] at halg
  obtain ⟨a₀, h₀, halg₀, hq₀⟩ := ha.queue_arrivals halg harriving hnone
  rw [ha.queue_iff.mp hq, hl] at hq₀
  cases l with
  | nil => exact ⟨by simp, by simp⟩
  | cons x l =>
      have hfront : x :: l <+: a₀.queues .readyQueue := by
        rw [hq₀]
        exact List.prefix_append _ _
      rw [h₀.sim.globals] at hsig
      obtain ⟨a₁, h₁, ht⟩ := h₀.release halg₀ hfront hsig hop hrun hinvokes
      have hx : x ≠ .initProcess := by
        rintro rfl
        exact h₀.inv.init _ (hfront.subset List.mem_cons_self)
      refine ⟨(h₁.run_inTurn ht hx hsteps hlets).1, ?_⟩
      rintro before ⟨after, rfl⟩
      exact (h₁.run_inTurn ht hx hsteps.of_append hlets.of_append).2

/-- Two processes are created while init idles; a tick releases the processor to them.  A tick, a
fork by the first, and the two exits follow. -/
theorem fcfs_runs_to_completion_pair : ∃ arriving k₁ steps,
    trace [.add (.page 0) (childOfInit 1), .add (.page 1) (childOfInit 2)]
      (Kernel.boot .fcfs fun _ ↦ 0) = some arriving ∧
    Op.tick.run (lastState (Kernel.boot .fcfs fun _ ↦ 0) arriving) = some k₁ ∧
    trace [.tick, .add (.page 2) (childOfInit 3), .exit, .tick, .exit] k₁ = some steps ∧
    (exits k₁ steps).take 2 = [.page 0, .page 1].take (exits k₁ steps).length := by
  have hreach := reachable_boot .fcfs fun _ ↦ 0
  have hrun : (trace [.add (.page 0) (childOfInit 1), .add (.page 1) (childOfInit 2)]
      (Kernel.boot .fcfs fun _ ↦ 0)).any (fun arriving ↦
        let k := lastState (Kernel.boot .fcfs fun _ ↦ 0) arriving
        dispatches (Kernel.boot .fcfs fun _ ↦ 0) arriving = [] ∧
        arrivals (Kernel.boot .fcfs fun _ ↦ 0) arriving = [.page 0, .page 1] ∧
        (∀ p ∈ [PcbPtr.page 0, .page 1], (k.pcb p).Unsignalled) ∧ Op.tick.invokes k = true ∧
        ((Op.tick.run k).any fun k₁ ↦
          (trace [.tick, .add (.page 2) (childOfInit 3), .exit, .tick, .exit] k₁).any fun steps ↦
            decide (Along (Op.LetsRun [.page 0, .page 1]) k₁ steps))) = true := by
    decide +kernel
  obtain ⟨arriving, harriving, hspec⟩ := (Option.any_eq_true _ _).mp hrun
  obtain ⟨hnone, harrive, hsig, hinvokes, htick⟩ := of_decide_eq_true hspec
  obtain ⟨k₁, hk₁, htrace⟩ := (Option.any_eq_true _ _).mp htick
  obtain ⟨steps, hsteps, hlets⟩ := (Option.any_eq_true _ _).mp htrace
  have hfollows := hreach.follows_trace harriving
  have htick : Op.tick.Enabled
      (lastState (Kernel.boot .fcfs fun _ ↦ 0) arriving).toGlobals := trivial
  have hreach₁ := (hreach.lastState hfollows).step htick hk₁
  have hqueue : (Kernel.boot .fcfs fun _ ↦ 0).Queue .readyQueue [] := rfl
  have hl : [] ++ arrivals (Kernel.boot .fcfs fun _ ↦ 0) arriving =
      [PcbPtr.page 0, .page 1] ++ [] := harrive
  exact ⟨arriving, k₁, steps, harriving, hk₁, hsteps,
    (fcfs_runs_to_completion hreach rfl hqueue hfollows hnone hl hsig htick hinvokes hk₁
      (hreach₁.follows_trace hsteps) (of_decide_eq_true hlets)).1⟩

end DemosOS
