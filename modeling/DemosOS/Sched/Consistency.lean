import DemosOS.Sched.Runs

/-!
# Consistency of the ready queues

The invariant of `DemosOS.Sched.Runs`, said of the kernel itself: of the `head`,
`tail` and `next_ready` pointers, of the process states and of `current_process`.
-/

namespace DemosOS

open Lib

/-- The process is linked in the queue `q`: it is met when `next_ready` is followed from
the head until `NULL`. -/
def Kernel.Linked (k : Kernel Pointers) (q : QueueId) (p : PcbPtr) : Prop :=
  ∃ l, Chain k.queues.next (k.queues.ends q).head l ∧ p ∈ l

/-- The ready queues and the process states agree. -/
structure Consistent (k : Kernel Pointers) : Prop where
  /-- Every queue is a finite list that ends with `NULL`, without repetitions, and `tail` is
  its last node. -/
  list : ∀ q, ∃ l, Chain k.queues.next (k.queues.ends q).head l ∧
    (k.queues.ends q).tail = l.getLast? ∧ l.Nodup
  /-- `tail` is `NULL` iff `head` is. -/
  tail_iff : ∀ q, (k.queues.ends q).tail = none ↔ (k.queues.ends q).head = none
  /-- No process is linked in two queues. -/
  disjoint : ∀ q q' p, k.Linked q p → k.Linked q' p → q = q'
  /-- Init is never linked. -/
  init : ∀ q, ¬ k.Linked q .initProcess
  /-- Only processes of the table are linked. -/
  known : ∀ q p, k.Linked q p → k.Known p
  /-- A process is linked iff it is `READY`. -/
  ready : ∀ p, k.Known p → p ≠ .initProcess → ((∃ q, k.Linked q p) ↔ (k.pcb p).state = .ready)
  /-- A process is `RUNNING` iff it is the current one. -/
  running : ∀ p, k.Known p → p ≠ .initProcess →
    ((k.pcb p).state = .running ↔ p = k.currentProcess)

namespace Sound

variable {k : Kernel Pointers} {a : Kernel Lists}

theorem linked_iff (h : Sound k a) {q : QueueId} {p : PcbPtr} :
    k.Linked q p ↔ p ∈ a.queues q := by
  constructor
  · rintro ⟨l, hl, hp⟩
    rwa [(h.sim.queues.chain q).unique hl]
  · exact fun hp ↦ ⟨_, h.sim.queues.chain q, hp⟩

theorem consistent (h : Sound k a) : Consistent k where
  list q := ⟨_, h.sim.queues.chain q, h.sim.queues.tail q, h.sim.queues.nodup q⟩
  tail_iff q := h.sim.queues.tail_eq_none_iff q
  disjoint q q' p hp hp' := h.inv.disjoint q q' p (h.linked_iff.mp hp) (h.linked_iff.mp hp')
  init q hq := h.inv.init q (h.linked_iff.mp hq)
  known q p hp := by
    rw [h.sim.globals]
    exact h.inv.known q p (h.linked_iff.mp hp)
  ready p hp hinit := by
    simp only [h.linked_iff, h.sim.globals] at hp ⊢
    refine ⟨?_, h.inv.queued p hp hinit⟩
    rintro ⟨q, hq⟩
    exact h.inv.ready q p hq
  running p hp hinit := by
    rw [h.sim.globals] at hp ⊢
    refine ⟨h.inv.running p hp hinit, ?_⟩
    rintro rfl
    exact h.settled hinit

end Sound

/-- An operation keeps every process in the table. -/
theorem Effect.known {op : Op} {k k' : Kernel Pointers} {a a' : Kernel Lists}
    (h : Effect op k a k' a') {p : PcbPtr} (hp : a.Known p) : a'.Known p := by
  obtain ⟨-, hpass⟩ | ⟨k₁, a₁, -, -, -, hpass, -, hinv⟩ := h.cases
  · exact hpass.known hp
  · exact (Globals.known_of_frozen hinv.frozen p).mpr (hpass.known hp)

/-- What every operation keeps of a process of the table holds along every run. -/
theorem Reachable.stable {p : PcbPtr} {P : PCB → Prop}
    (hstable : ∀ {op k k' a a'}, Effect op k a k' a' → a.Known p → P (a.pcb p) → P (a'.pcb p))
    {k k' : Kernel Pointers} (h : Reachable k) (hp : k.Known p) (hP : P (k.pcb p))
    (hsteps : Relation.ReflTransGen Step k k') : Reachable k' ∧ k'.Known p ∧ P (k'.pcb p) := by
  induction hsteps with
  | refl => exact ⟨h, hp, hP⟩
  | tail _ hstep ih =>
      obtain ⟨⟨algorithm, timerClo, hreach⟩, hp₁, hP₁⟩ := ih
      obtain ⟨a, ha⟩ := Reachable.sound ⟨algorithm, timerClo, hreach⟩
      obtain ⟨op, hop, hrun⟩ := hstep
      obtain ⟨a', heff⟩ := ha.step hop hrun
      rw [ha.sim.globals] at hp₁ hP₁
      rw [heff.sound.sim.globals]
      exact ⟨⟨algorithm, timerClo, hreach.tail ⟨op, hop, hrun⟩⟩, heff.known hp₁,
        hstable heff hp₁ hP₁⟩

/-- In every reachable state the ready queues and the process states agree, and every
operation that can be performed there ends in a state where they agree again and no
process is lost. -/
theorem reachable_consistent {k : Kernel Pointers} (h : Reachable k) :
    Consistent k ∧ ∀ op : Op, op.Enabled k.toGlobals →
      ∃ k', op.run k = some k' ∧ Consistent k' ∧ ∀ p, k.Known p → k'.Known p := by
  obtain ⟨a, ha⟩ := h.sound
  refine ⟨ha.consistent, fun op hop ↦ ?_⟩
  obtain ⟨k', a', hrun, heff⟩ := ha.run hop
  refine ⟨k', hrun, heff.sound.consistent, fun p hp ↦ ?_⟩
  rw [ha.sim.globals] at hp
  rw [heff.sound.sim.globals]
  exact heff.known hp

/-! ## Checked runs -/

/-- A checked run leads from reachable states to reachable states. -/
theorem Reachable.runAll {k k' : Kernel Pointers} (h : Reachable k) {ops : List Op}
    (hrun : runAll ops k = some k') : Reachable k' := by
  induction ops generalizing k with
  | nil =>
      obtain rfl := Option.some.inj hrun
      exact h
  | cons op ops ih =>
      rw [DemosOS.runAll] at hrun
      split_ifs at hrun with hcheck
      obtain ⟨k₁, hk₁, hrun⟩ := Option.bind_eq_some_iff.mp hrun
      obtain ⟨a, ha⟩ := h.sound
      have htable : k.Table := by
        rw [ha.sim.globals]
        exact ha.inv.table
      obtain ⟨algorithm, timerClo, hsteps⟩ := h
      exact ih ⟨algorithm, timerClo, hsteps.tail ⟨op, Op.enabled_of_check htable hcheck, hk₁⟩⟩ hrun

theorem reachable_boot (algorithm : Algorithm) (timerClo : Nat → BitVec 32) :
    Reachable (Kernel.boot algorithm timerClo) :=
  ⟨algorithm, timerClo, Relation.ReflTransGen.refl⟩

/-- Two processes are created under MLFQ, a tick dispatches the first, which waits for the
second. -/
theorem reachable_consistent_mlfq :
    ∃ k, runAll [.add (.page 0) (childOfInit 1), .add (.page 1) (childOfInit 2), .tick, .wait 2]
        (Kernel.boot .mlfq fun _ ↦ 0) = some k ∧
      k.currentProcess = .page 1 ∧ Consistent k := by
  have hrun : (runAll [.add (.page 0) (childOfInit 1), .add (.page 1) (childOfInit 2), .tick,
      .wait 2] (Kernel.boot .mlfq fun _ ↦ 0)).any (fun k ↦ k.currentProcess = .page 1) = true := by
    decide +kernel
  obtain ⟨k, hk, hcur⟩ := (Option.any_eq_true _ _).mp hrun
  exact ⟨k, hk, by simpa using hcur, (reachable_consistent ((reachable_boot _ _).runAll hk)).1⟩

end DemosOS
