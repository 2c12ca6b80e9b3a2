import DemosOS.Sched.Lists

/-!
# The kernel refines the scheduler on lists

`Sim k a`: the kernel `k` and the list kernel `a` have the same data, and the
pointers of `k` are the lists of `a`.  For every function of the scheduler there is
one theorem: from related states it ends in related states, its loops having had
enough steps.

The hypotheses are those of the lists alone: the processes in the queues searched
are `READY`, a process about to be linked is in no queue, and no queue is longer
than the process table.  `DemosOS.Sched.Invariant` shows that they always hold.
-/

namespace DemosOS

open Lib

/-- The two kernels have the same data, and the pointers of one are the lists of the
other. -/
structure Sim (k : Kernel Pointers) (a : Kernel Lists) : Prop where
  globals : k.toGlobals = a.toGlobals
  queues : Represents k.queues a.queues

/-- No process of the queue `q` is stopped, and the queue is not longer than the
process table. -/
structure Searchable (g : Globals) (l : List PcbPtr) : Prop where
  ready : ∀ p ∈ l, (g.pcb p).state = .ready
  length : l.length ≤ N_PROCESSES

theorem Searchable.length_lt {g : Globals} {l : List PcbPtr} (h : Searchable g l) :
    l.length < QUEUE_FUEL := Nat.lt_succ_of_le h.length

/-- What is left of a queue stays searchable when the signals of a process that is
no longer in it are handled. -/
theorem Searchable.signal {g : Globals} {l l' : List PcbPtr} {p : PcbPtr} (h : Searchable g l)
    (hsub : l'.Sublist l) (hp : p ∉ l') : Searchable (g.signal p) l' := by
  refine ⟨fun x hx ↦ ?_, hsub.length_le.trans h.length⟩
  have hxp : x ≠ p := fun e ↦ hp (e ▸ hx)
  rw [Globals.signal_pcb_of_ne _ hxp]
  exact h.ready x (hsub.subset hx)

namespace Sim

variable {k : Kernel Pointers} {a : Kernel Lists}

/-- Code that does not touch the queues runs alike on both. -/
theorem mapGlobals (h : Sim k a) (f : Globals → Globals) :
    Sim (k.mapGlobals f) (a.mapGlobals f) :=
  ⟨congrArg f h.globals, h.queues⟩

theorem nodup (h : Sim k a) (q : QueueId) : (a.queues q).Nodup := h.queues.nodup q

/-! ## Insertion -/

theorem enqueueProcessTo (h : Sim k a) (q : QueueId) {p : PcbPtr} (hp : p ≠ .initProcess)
    (hfree : ∀ q, p ∉ a.queues q) :
    Sim (k.enqueueProcessTo q p)
      ⟨a.toGlobals.setState p .ready, Function.update a.queues q (a.queues q ++ [p])⟩ := by
  rw [Kernel.enqueueProcessTo, if_neg hp]
  exact ⟨by rw [h.globals], h.queues.pushBack q hfree⟩

theorem enqueueSortedTo (h : Sim k a) (q : QueueId) {p : PcbPtr} (hp : p ≠ .initProcess)
    (hfree : ∀ q, p ∉ a.queues q) (hlen : (a.queues q).length ≤ N_PROCESSES) :
    ∃ k', k.enqueueSortedTo q p = some k' ∧
      Sim k' ⟨a.toGlobals.setState p .ready,
        Function.update a.queues q (Spec.insertSorted a.toGlobals p (a.queues q))⟩ := by
  have hrep := h.queues.setNext hfree none
  have hest : ∀ x, ((a.toGlobals.setState p .ready).pcb x).estBurst = (a.pcb x).estBurst :=
    fun x ↦ a.toGlobals.modifyPcb_field p x _ PCB.estBurst fun _ ↦ rfl
  have hhead := hrep.head_eq q
  rw [Kernel.enqueueSortedTo, if_neg hp]
  simp only [h.globals, hest, hhead]
  cases hl : a.queues q with
  | nil =>
      refine ⟨_, rfl, rfl, ?_⟩
      have hpush := h.queues.pushBack q hfree
      have htail : (k.queues.ends q).tail = none := by rw [h.queues.tail, hl]; rfl
      simp only [Links.pushBack, Links.setNext_ends, htail] at hpush
      simpa [Spec.insertSorted, hl] using hpush
  | cons x xs =>
      have hxs : xs.length < QUEUE_FUEL := by
        have : (x :: xs).length ≤ N_PROCESSES := hl ▸ hlen
        simp only [List.length_cons] at this
        unfold QUEUE_FUEL
        omega
      by_cases hx : (a.pcb p).estBurst < (a.pcb x).estBurst
      · refine ⟨_, by simp [hx]; rfl, rfl, ?_⟩
        have hfront := hrep.pushFront q hfree (by rw [hl]; simp)
        simpa [Spec.insertSorted, hl, hx] using hfront
      · obtain ⟨c, hseek, hins⟩ := hrep.insertBefore
          (fun y ↦ decide ((a.pcb p).estBurst < (a.pcb y).estBurst)) hl (by simp [hx]) hfree hxs
        refine ⟨_, by simp [hx, hseek]; rfl, rfl, ?_⟩
        rw [hl] at hins
        exact hins

/-- Inserting by the policy of the active algorithm. -/
theorem activeEnqueue (h : Sim k a) {p : PcbPtr} (hp : p ≠ .initProcess)
    (hfree : ∀ q, p ∉ a.queues q) (hlen : ∀ q, (a.queues q).length ≤ N_PROCESSES) :
    ∃ k', k.activeEnqueue p = some k' ∧ Sim k' (Spec.enqueue p a) := by
  have halg : k.algorithm = a.algorithm := congrArg Globals.algorithm h.globals
  rw [Kernel.activeEnqueue, halg, Spec.enqueue, if_neg hp]
  cases he : a.algorithm.enqueue with
  | enqueueFifo =>
      refine ⟨_, rfl, ?_⟩
      rw [Kernel.enqueueFifo]
      simpa [Spec.targetQueue, Spec.insert, he] using h.enqueueProcessTo .readyQueue hp hfree
  | enqueueSjf =>
      obtain ⟨k', hk', hsim⟩ := h.enqueueSortedTo .readyQueue hp hfree (hlen _)
      refine ⟨k', hk', ?_⟩
      simpa [Spec.targetQueue, Spec.insert, he] using hsim
  | enqueueMultilevel =>
      refine ⟨_, rfl, ?_⟩
      rw [Kernel.enqueueMultilevel, h.globals]
      simpa [Spec.targetQueue, Spec.insert, he] using h.enqueueProcessTo _ hp hfree

theorem enqueueProcess (h : Sim k a) {p : PcbPtr}
    (hfree : p ≠ .initProcess → ∀ q, p ∉ a.queues q)
    (hlen : ∀ q, (a.queues q).length ≤ N_PROCESSES) :
    ∃ k', k.enqueueProcess p = some k' ∧ Sim k' (Spec.enqueue p a) := by
  by_cases hp : p = .initProcess
  · exact ⟨k, by simp [Kernel.enqueueProcess, hp], by simpa [Spec.enqueue, hp] using h⟩
  · rw [Kernel.enqueueProcess, if_neg hp]
    exact h.activeEnqueue hp (hfree hp) hlen

end Sim

/-! ## Signals -/

/-- Handling the signals of a process that is not stopped does not touch a queue. -/
theorem Kernel.handleProcessSignals_eq {k : Kernel Pointers} {p : PcbPtr}
    (hp : (k.pcb p).state ≠ .stopped) :
    k.handleProcessSignals p = some (k.mapGlobals (·.signal p)) := by
  have hmod : ∀ f : PCB → PCB, PCB.signalled (k.pcb p) = f (k.pcb p) →
      k.mapGlobals (·.signal p) = k.mapGlobals (·.modifyPcb p f) := by
    intro f hf
    simp only [Kernel.mapGlobals, Globals.signal, Globals.modifyPcb, hf]
  have hid : PCB.signalled (k.pcb p) = k.pcb p → k.mapGlobals (·.signal p) = k := by
    intro hf
    rw [hmod id hf]
    simp [Kernel.mapGlobals, Globals.modifyPcb]
  unfold Kernel.handleProcessSignals
  by_cases h0 : (k.pcb p).pendingSignals = 0
  · simp only [h0, if_true]
    rw [hid (by simp [PCB.signalled, PCB.hasSignal_of_zero h0])]
  simp only [h0, if_false]
  by_cases h1 : (k.pcb p).hasSignal SIGNAL_KILL
  · simp only [h1, if_true]
    exact congrArg some (hmod _ (by simp only [PCB.signalled, h1, if_true])).symm
  simp only [h1, if_false]
  by_cases h2 : (k.pcb p).hasSignal SIGNAL_STOP
  · simp only [h2, if_true]
    exact congrArg some (hmod _ (by simp only [PCB.signalled, h1, h2, if_true, if_false])).symm
  simp only [h2, if_false]
  by_cases h3 : (k.pcb p).hasSignal SIGNAL_RESUME
  · have hstate : ((k.mapGlobals (·.modifyPcb p fun b ↦ b.clearSignal SIGNAL_RESUME)).pcb p).state
        ≠ .stopped := by simpa [PCB.clearSignal] using hp
    simp only [h3, if_true, if_neg hstate]
    exact congrArg some (hmod _ (by simp only [PCB.signalled, h1, h2, h3, if_true, if_false])).symm
  · simp only [h3, if_false]
    rw [hid (by simp [PCB.signalled, h1, h2, h3])]

/-! ## The dequeue loop -/

namespace Sim

variable {k : Kernel Pointers} {a : Kernel Lists}

theorem dequeueProcessFrom_nil (h : Sim k a) {q : QueueId} (hl : a.queues q = []) :
    k.dequeueProcessFrom q = (none, k) := by
  rw [Kernel.dequeueProcessFrom, h.queues.popFront_nil hl]

theorem dequeueProcessFrom_cons (h : Sim k a) {q : QueueId} {p : PcbPtr} {l : List PcbPtr}
    (hl : a.queues q = p :: l) :
    ∃ k', k.dequeueProcessFrom q = (some p, k') ∧
      Sim k' ⟨a.toGlobals, Function.update a.queues q l⟩ := by
  obtain ⟨hp, hrep⟩ := h.queues.popFront_cons hl
  exact ⟨{ k with queues := (k.queues.popFront q).2 }, by rw [Kernel.dequeueProcessFrom, hp],
    h.globals, hrep⟩

/-- Handling the signals of a `READY` process. -/
theorem handleProcessSignals (h : Sim k a) {p : PcbPtr} (hp : (a.pcb p).state = .ready) :
    ∃ k', k.handleProcessSignals p = some k' ∧ Sim k' (a.mapGlobals (·.signal p)) := by
  have hstate : (k.pcb p).state ≠ .stopped := by rw [h.globals, hp]; simp
  exact ⟨_, Kernel.handleProcessSignals_eq hstate, h.mapGlobals _⟩

theorem takeReady {q : QueueId} {l : List PcbPtr} {fuel : Nat} (h : Sim k a)
    (hl : a.queues q = l) (hs : Searchable a.toGlobals l) (hfuel : l.length < fuel) :
    ∃ k', k.takeReady q fuel = some ((Spec.takeReady a.toGlobals l).2.1, k') ∧
      Sim k' ⟨(Spec.takeReady a.toGlobals l).1,
        Function.update a.queues q (Spec.takeReady a.toGlobals l).2.2⟩ := by
  induction l generalizing k a fuel with
  | nil =>
      obtain ⟨fuel, rfl⟩ := Nat.exists_eq_succ_of_ne_zero (Nat.ne_of_gt hfuel)
      refine ⟨k, by simp [Kernel.takeReady, h.dequeueProcessFrom_nil hl, Spec.takeReady], ?_⟩
      have hqs : Function.update a.queues q [] = a.queues := by rw [← hl, Function.update_eq_self]
      simpa [Spec.takeReady, hqs] using h
  | cons p l ih =>
      obtain ⟨fuel, rfl⟩ := Nat.exists_eq_succ_of_ne_zero (Nat.ne_of_gt (Nat.zero_lt_of_lt hfuel))
      have hnd := h.nodup q
      rw [hl] at hnd
      obtain ⟨hpl, -⟩ := List.nodup_cons.mp hnd
      obtain ⟨k₁, hdeq, h₁⟩ := h.dequeueProcessFrom_cons hl
      obtain ⟨k₂, hsig, h₂⟩ := h₁.handleProcessSignals (hs.ready p List.mem_cons_self)
      have hstate : (k₂.pcb p).state = (a.pcb p).signalled.state := by rw [h₂.globals]; simp
      by_cases hr : (a.pcb p).signalled.state = .ready
      · refine ⟨k₂, ?_, ?_⟩
        · simp [Kernel.takeReady, hdeq, hsig, hstate, Spec.takeReady, hr]
        · simpa [Spec.takeReady, hr] using h₂
      · obtain ⟨k', htake, h'⟩ := ih h₂ (by simp)
          (hs.signal (List.sublist_cons_self p l) hpl) (Nat.lt_of_succ_lt_succ hfuel)
        refine ⟨k', ?_, ?_⟩
        · simp [Kernel.takeReady, hdeq, hsig, hstate, Spec.takeReady, hr, htake]
        · simpa [Spec.takeReady, hr] using h'

/-! ## The draw -/

/-- The first walk adds up the tickets of the chain. -/
theorem totalTickets_eq {k : Kernel Pointers} {o : Option PcbPtr} {l : List PcbPtr} {fuel : Nat}
    (h : Chain k.queues.next o l) (hfuel : l.length < fuel) (total : Int) :
    k.totalTickets fuel o total = some (total + Spec.totalTickets k.toGlobals l) := by
  induction l generalizing o fuel total with
  | nil =>
      obtain ⟨fuel, rfl⟩ := Nat.exists_eq_succ_of_ne_zero (Nat.ne_of_gt hfuel)
      simp [Chain.nil_iff.mp h, Kernel.totalTickets, Spec.totalTickets]
  | cons p l ih =>
      obtain ⟨fuel, rfl⟩ := Nat.exists_eq_succ_of_ne_zero (Nat.ne_of_gt (Nat.zero_lt_of_lt hfuel))
      rw [h.1, Kernel.totalTickets, ih h.2 (Nat.lt_of_succ_lt_succ hfuel)]
      simp [Spec.totalTickets, Int.add_assoc]

/-- The second walk stops where `splitWinner` cuts the chain. -/
theorem findWinner_eq {k : Kernel Pointers} {o : Option PcbPtr} {l : List PcbPtr} {fuel : Nat}
    (h : Chain k.queues.next o l) (hfuel : l.length < fuel) (winner ticketCounter : Int)
    (previous : Option PcbPtr) :
    k.findWinner winner fuel previous o ticketCounter =
      some ((Spec.splitWinner k.toGlobals (winner - ticketCounter) l).1.getLast?.or previous,
        (Spec.splitWinner k.toGlobals (winner - ticketCounter) l).2.head?) := by
  induction l generalizing o fuel ticketCounter previous with
  | nil =>
      obtain ⟨fuel, rfl⟩ := Nat.exists_eq_succ_of_ne_zero (Nat.ne_of_gt hfuel)
      simp [Chain.nil_iff.mp h, Kernel.findWinner, Spec.splitWinner]
  | cons p l ih =>
      obtain ⟨fuel, rfl⟩ := Nat.exists_eq_succ_of_ne_zero (Nat.ne_of_gt (Nat.zero_lt_of_lt hfuel))
      have hcond : ticketCounter + (k.pcb p).drawTickets > winner ↔
          (k.pcb p).drawTickets > winner - ticketCounter := by omega
      have hsub : winner - (ticketCounter + (k.pcb p).drawTickets) =
          winner - ticketCounter - (k.pcb p).drawTickets := by omega
      rw [h.1, Kernel.findWinner]
      by_cases hw : (k.pcb p).drawTickets > winner - ticketCounter
      · simp [Spec.splitWinner, hw, hcond]
      · simp only [hcond, if_neg hw, ih h.2 (Nat.lt_of_succ_lt_succ hfuel), hsub,
          Spec.splitWinner]
        cases hpre : (Spec.splitWinner k.toGlobals
            (winner - ticketCounter - (k.pcb p).drawTickets) l).1.getLast? with
        | none => simp [List.getLast?_eq_none_iff.mp hpre]
        | some x => simp [List.getLast?_cons, hpre]

/-- The two parts of the cut make up the list. -/
theorem splitWinner_append (g : Globals) (winner : Int) (l : List PcbPtr) :
    (Spec.splitWinner g winner l).1 ++ (Spec.splitWinner g winner l).2 = l := by
  induction l generalizing winner with
  | nil => rfl
  | cons p l ih =>
      by_cases hw : (g.pcb p).drawTickets > winner
      · simp [Spec.splitWinner, hw]
      · simp [Spec.splitWinner, hw, ih]

theorem totalTickets_pos (g : Globals) (p : PcbPtr) (l : List PcbPtr) :
    0 < Spec.totalTickets g (p :: l) := by
  have hpos : ∀ l, 0 ≤ Spec.totalTickets g l := by
    intro l
    induction l with
    | nil => simp [Spec.totalTickets]
    | cons x l ih =>
        have hx := (g.pcb x).drawTickets_pos
        simp only [Spec.totalTickets, List.map_cons, List.sum_cons] at ih ⊢
        omega
  have hp := (g.pcb p).drawTickets_pos
  have hl := hpos l
  simp only [Spec.totalTickets, List.map_cons, List.sum_cons] at hl ⊢
  omega

/-- One draw: the candidate at the cut is unlinked and handles its signals. -/
theorem drawWinner_step {p c : PcbPtr} {l pre post : List PcbPtr} (h : Sim k a)
    (hl : a.queues .readyQueue = p :: l) (hs : Searchable a.toGlobals (p :: l))
    (hcut : Spec.splitWinner a.toGlobals.lotteryRandom.2 ((a.toGlobals.lotteryRandom.1.toNat %
      (Spec.totalTickets a.toGlobals (p :: l)).toNat : Nat) : Int) (p :: l) = (pre, c :: post)) :
    ∃ k₂, Sim k₂ ⟨a.toGlobals.lotteryRandom.2.signal c,
        Function.update a.queues .readyQueue (pre ++ post)⟩ ∧
      ∀ fuel, k.drawWinner (fuel + 1) = if (a.pcb c).signalled.state = .ready then some (some c, k₂)
        else k₂.drawWinner fuel := by
  have hchain := h.queues.chain .readyQueue
  rw [hl] at hchain
  have htotal := totalTickets_eq hchain hs.length_lt 0
  rw [Int.zero_add, h.globals] at htotal
  -- the draw changes the generator only
  have h₁ := h.mapGlobals fun g ↦ g.lotteryRandom.2
  have hne : Spec.totalTickets a.toGlobals (p :: l) ≠ 0 := ne_of_gt (totalTickets_pos _ p l)
  generalize hw : (((a.toGlobals.lotteryRandom.1.toNat %
    (Spec.totalTickets a.toGlobals (p :: l)).toNat : Nat) : Int)) = winner at hcut
  have hwin := findWinner_eq (k := k.mapGlobals fun g ↦ g.lotteryRandom.2) hchain hs.length_lt
    winner 0 none
  have happ := splitWinner_append a.toGlobals.lotteryRandom.2 winner (p :: l)
  simp only [Kernel.mapGlobals_toGlobals, h.globals, Int.sub_zero, Option.or_none] at hwin
  rw [hcut] at hwin happ
  simp only at hwin happ
  have hlc : a.queues .readyQueue = pre ++ c :: post := hl.trans happ.symm
  have hcl : c ∈ p :: l := by rw [← happ]; simp
  have h₂ : Sim ((k.mapGlobals fun g ↦ g.lotteryRandom.2).removeProcessFrom .readyQueue
      pre.getLast? c) ⟨a.toGlobals.lotteryRandom.2,
      Function.update a.queues .readyQueue (pre ++ post)⟩ :=
    ⟨h₁.globals, h₁.queues.unlink hlc⟩
  obtain ⟨k₃, hsig, h₃⟩ := h₂.handleProcessSignals (p := c) (hs.ready c hcl)
  have hstate : (k₃.pcb c).state = (a.pcb c).signalled.state := by
    rw [h₃.globals]; simp
  have hrand : k.lotteryRandom = a.lotteryRandom := congrArg Globals.lotteryRandom h.globals
  refine ⟨k₃, h₃, fun fuel ↦ ?_⟩
  have hk₁ : ({ k with toGlobals := a.lotteryRandom.2 } : Kernel Pointers) =
      k.mapGlobals fun g ↦ g.lotteryRandom.2 := by
    rw [← hrand]; rfl
  rw [Kernel.drawWinner]
  simp only [htotal, Option.bind_eq_bind, Option.bind_some, hne, if_false, hrand, hw, hk₁, hwin,
    List.head?_cons, hsig, hstate]

theorem drawWinner {l : List PcbPtr} {fuel : Nat} (h : Sim k a)
    (hl : a.queues .readyQueue = l) (hs : Searchable a.toGlobals l)
    {r : Globals × Option PcbPtr × List PcbPtr}
    (hr : Spec.drawWinner fuel a.toGlobals l = some r) :
    ∃ k', k.drawWinner fuel = some (r.2.1, k') ∧
      Sim k' ⟨r.1, Function.update a.queues .readyQueue r.2.2⟩ := by
  induction fuel generalizing k a l with
  | zero => simp [Spec.drawWinner] at hr
  | succ fuel ih =>
      cases l with
      | nil =>
          have hchain := h.queues.chain .readyQueue
          rw [hl] at hchain
          have htotal := totalTickets_eq hchain hs.length_lt 0
          simp only [Spec.drawWinner, Option.some.injEq] at hr
          subst hr
          refine ⟨k, by simp [Kernel.drawWinner, htotal, Spec.totalTickets], ?_⟩
          have hqs : Function.update a.queues .readyQueue [] = a.queues := by
            rw [← hl, Function.update_eq_self]
          simpa [hqs] using h
      | cons p l =>
          have htot : Spec.totalTickets a.toGlobals.lotteryRandom.2 (p :: l) =
              Spec.totalTickets a.toGlobals (p :: l) := rfl
          simp only [Spec.drawWinner, htot] at hr
          have happ := splitWinner_append a.toGlobals.lotteryRandom.2
            ((a.toGlobals.lotteryRandom.1.toNat %
              (Spec.totalTickets a.toGlobals (p :: l)).toNat : Nat) : Int) (p :: l)
          generalize hcut : Spec.splitWinner a.toGlobals.lotteryRandom.2
            ((a.toGlobals.lotteryRandom.1.toNat %
              (Spec.totalTickets a.toGlobals (p :: l)).toNat : Nat) : Int) (p :: l) = cut at hr happ
          obtain ⟨pre, rest⟩ := cut
          cases rest with
          | nil => simp at hr
          | cons c post =>
              simp only at hr happ
              obtain ⟨k₂, h₂, hstep⟩ := h.drawWinner_step hl hs hcut
              have hnd := h.nodup .readyQueue
              rw [hl, ← happ] at hnd
              have hc : c ∉ pre ++ post := fun hm ↦
                (List.nodup_cons.mp (List.nodup_middle.mp hnd)).1 hm
              have hsub : (pre ++ post).Sublist (p :: l) := by
                rw [← happ]
                exact (List.Sublist.refl pre).append (List.sublist_cons_self c post)
              have hs₁ : Searchable a.toGlobals.lotteryRandom.2 (p :: l) := ⟨hs.ready, hs.length⟩
              by_cases hready : (a.pcb c).signalled.state = .ready
              · have hready' : (a.lotteryRandom.2.pcb c).signalled.state = .ready := hready
                rw [if_pos hready', Option.some.injEq] at hr
                subst hr
                exact ⟨k₂, (hstep fuel).trans (if_pos hready), h₂⟩
              · have hready' : ¬ (a.lotteryRandom.2.pcb c).signalled.state = .ready := hready
                rw [if_neg hready'] at hr
                obtain ⟨k', hk', h'⟩ := ih h₂ (by simp) (hs₁.signal hsub hc) hr
                exact ⟨k', ((hstep fuel).trans (if_neg hready)).trans hk', by simpa using h'⟩

/-! ## The walk and the epochs of priority aging -/

/-- `bp` is the predecessor of the candidate `b` in the list. -/
def IsPredecessor (l : List PcbPtr) (b : Option PcbPtr × Option PcbPtr) : Prop :=
  ∀ x, b.1 = some x → ∃ pre post, l = pre ++ x :: post ∧ b.2 = pre.getLast?

theorem agingWalk {kept rest : List PcbPtr} {fuel : Nat} (h : Sim k a)
    (hl : a.queues .readyQueue = kept ++ rest) (hs : Searchable a.toGlobals rest)
    (hfuel : rest.length < fuel) {b : Option PcbPtr × Option PcbPtr} (hb : IsPredecessor kept b)
    (m : Int) :
    ∃ b' k', Kernel.agingWalk fuel rest.head? kept.getLast? b m k = some (b', k') ∧
      b'.1 = Spec.best (Spec.signalAll a.toGlobals rest) b.1 m
        (Spec.survivors (Spec.signalAll a.toGlobals rest) rest) ∧
      IsPredecessor (kept ++ Spec.survivors (Spec.signalAll a.toGlobals rest) rest) b' ∧
      Sim k' ⟨Spec.signalAll a.toGlobals rest, Function.update a.queues .readyQueue
        (kept ++ Spec.survivors (Spec.signalAll a.toGlobals rest) rest)⟩ := by
  induction rest generalizing k a kept fuel b m with
  | nil =>
      obtain ⟨fuel, rfl⟩ := Nat.exists_eq_succ_of_ne_zero (Nat.ne_of_gt hfuel)
      refine ⟨b, k, rfl, rfl, by simpa [Spec.survivors] using hb, ?_⟩
      have hqs : Function.update a.queues .readyQueue kept = a.queues := by
        rw [List.append_nil] at hl
        rw [← hl, Function.update_eq_self]
      simpa [Spec.survivors, Spec.signalAll, hqs] using h
  | cons p l ih =>
      obtain ⟨fuel, rfl⟩ := Nat.exists_eq_succ_of_ne_zero (Nat.ne_of_gt (Nat.zero_lt_of_lt hfuel))
      have hfuel' : l.length < fuel := Nat.lt_of_succ_lt_succ hfuel
      have hnd := h.nodup .readyQueue
      have hchain := h.queues.chain .readyQueue
      rw [hl] at hnd hchain
      have hpl : p ∉ l := (List.nodup_cons.mp (List.nodup_append.mp hnd).2.1).1
      have hnext : k.queues.next p = l.head? := hchain.next_of_append.head_eq
      obtain ⟨k₁, hsig, h₁⟩ := h.handleProcessSignals (hs.ready p List.mem_cons_self)
      have hpcb : k₁.pcb p = (a.pcb p).signalled := by rw [h₁.globals]; simp
      have hfinal : (Spec.signalAll (a.toGlobals.signal p) l).pcb p = (a.pcb p).signalled := by
        rw [Spec.signalAll_pcb_of_notMem _ hpl, Globals.signal_pcb_self]
      have hs' := hs.signal (List.sublist_cons_self p l) hpl
      simp only [List.head?_cons, Kernel.agingWalk, hsig, hnext, hpcb, PCB.signalled_counter,
        Option.bind_eq_bind, Option.bind_some, Spec.signalAll_cons]
      by_cases hready : (a.pcb p).signalled.state = .ready
      · have hl₁ : (a.mapGlobals (·.signal p)).queues .readyQueue = (kept ++ [p]) ++ l := by
          simpa using hl
        have hsurv : Spec.survivors (Spec.signalAll (a.toGlobals.signal p) l) (p :: l) =
            p :: Spec.survivors (Spec.signalAll (a.toGlobals.signal p) l) l := by
          simp [Spec.survivors, hfinal, hready]
        by_cases hm : (a.pcb p).counter > m
        · have hb₁ : IsPredecessor (kept ++ [p]) (some p, kept.getLast?) := by
            rintro x hx
            obtain rfl : p = x := Option.some.inj hx
            exact ⟨kept, [], rfl, rfl⟩
          obtain ⟨b', k', hwalk, hbest, hpred, hsim⟩ :=
            ih h₁ hl₁ hs' hfuel' hb₁ (a.pcb p).counter
          refine ⟨b', k', ?_, ?_, ?_, ?_⟩
          · simpa [hready, hm] using hwalk
          · simpa [hsurv, Spec.best, hfinal, hm] using hbest
          · simpa [hsurv] using hpred
          · simpa [hsurv] using hsim
        · have hb₁ : IsPredecessor (kept ++ [p]) b := by
            intro x hx
            obtain ⟨pre, post, rfl, hpre⟩ := hb x hx
            exact ⟨pre, post ++ [p], by simp, hpre⟩
          obtain ⟨b', k', hwalk, hbest, hpred, hsim⟩ := ih h₁ hl₁ hs' hfuel' hb₁ m
          refine ⟨b', k', ?_, ?_, ?_, ?_⟩
          · simpa [hready, hm] using hwalk
          · simpa [hsurv, Spec.best, hfinal, hm] using hbest
          · simpa [hsurv] using hpred
          · simpa [hsurv] using hsim
      · have h₂ : Sim (k₁.removeProcessFrom .readyQueue kept.getLast? p)
            ⟨a.toGlobals.signal p, Function.update a.queues .readyQueue (kept ++ l)⟩ :=
          ⟨h₁.globals, h₁.queues.unlink (by simpa using hl)⟩
        have hsurv : Spec.survivors (Spec.signalAll (a.toGlobals.signal p) l) (p :: l) =
            Spec.survivors (Spec.signalAll (a.toGlobals.signal p) l) l := by
          simp [Spec.survivors, hfinal, hready]
        obtain ⟨b', k', hwalk, hbest, hpred, hsim⟩ := ih h₂ (by simp) hs' hfuel' hb m
        refine ⟨b', k', ?_, ?_, ?_, ?_⟩
        · simpa [hready] using hwalk
        · simpa [hsurv] using hbest
        · simpa [hsurv] using hpred
        · simpa [hsurv] using hsim

theorem agingLoop {l : List PcbPtr} {fuel : Nat} (h : Sim k a)
    (hl : a.queues .readyQueue = l) (hs : Searchable a.toGlobals l)
    {r : Globals × Option PcbPtr × List PcbPtr}
    (hr : Spec.agingLoop fuel a.toGlobals l = some r) :
    ∃ k', k.agingLoop fuel = some (r.2.1, k') ∧
      Sim k' ⟨r.1, Function.update a.queues .readyQueue r.2.2⟩ := by
  induction fuel generalizing k a l with
  | zero => simp [Spec.agingLoop] at hr
  | succ fuel ih =>
      have hnone : IsPredecessor [] (none, none) := by simp [IsPredecessor]
      obtain ⟨⟨b, bp⟩, k₁, hwalk, hbest, hpred, h₁⟩ := h.agingWalk (by simpa using hl)
        hs hs.length_lt hnone 0
      simp only [List.getLast?_nil] at hwalk
      have hhead : (k.queues.ends .readyQueue).head = l.head? := by rw [h.queues.head_eq, hl]
      simp only [Spec.agingLoop] at hr
      generalize Spec.signalAll a.toGlobals l = g at hr hbest hpred h₁
      have hlive : Searchable g (Spec.survivors g l) :=
        ⟨fun x hx ↦ by simpa using (List.mem_filter.mp hx).2,
          (List.length_filter_le _ _).trans hs.length⟩
      generalize Spec.survivors g l = live at hr hbest hpred h₁ hlive
      simp only [List.nil_append] at hpred h₁
      rw [Kernel.agingLoop, hhead]
      cases b with
      | some x =>
          obtain ⟨pre, post, hlive', hbp⟩ := hpred x rfl
          subst hlive'
          have hnd := h₁.nodup .readyQueue
          simp only [Function.update_self] at hnd
          have hx : x ∉ pre := fun hm ↦
            (List.nodup_cons.mp (List.nodup_middle.mp hnd)).1 (List.mem_append_left _ hm)
          simp only [← hbest, Option.some.injEq] at hr
          subst hr
          refine ⟨k₁.removeProcessFrom .readyQueue bp x, ?_, ?_⟩
          · simp [hwalk]
          · have herase : (pre ++ x :: post).erase x = pre ++ post := by
              rw [List.erase_append_right _ hx, List.erase_cons_head]
            have hun := h₁.queues.unlink (i := .readyQueue) (by simp : _ = pre ++ x :: post)
            simp only at hbp
            rw [← hbp, Function.update_idem] at hun
            rw [herase]
            exact ⟨h₁.globals, hun⟩
      | none =>
          have hempty : (k₁.queues.ends .readyQueue).head = none ↔ live = [] := by
            rw [h₁.queues.head_eq]; simp
          simp only [← hbest] at hr
          by_cases hnil : live = []
          · simp only [hnil, if_true, Option.some.injEq] at hr
            subst hr
            refine ⟨k₁, ?_, ?_⟩
            · simp [hwalk, hempty.mpr hnil]
            · simpa [hnil] using h₁
          · simp only [hnil, if_false] at hr
            have hs' : Searchable g.recharge live :=
              ⟨fun x hx ↦ (g.recharge_field PCB.state (fun _ _ ↦ rfl) x).trans (hlive.ready x hx),
                hlive.length⟩
            obtain ⟨k', hk', h'⟩ := ih (h₁.mapGlobals (·.recharge)) (by simp) hs' hr
            refine ⟨k', ?_, by simpa using h'⟩
            simp [hwalk, mt hempty.mp hnil, hk']

/-! ## The cascade over the levels -/

/-- Searching one queue leaves the others searchable. -/
theorem searchable_takeReady (h : Sim k a) (hs : ∀ q, Searchable a.toGlobals (a.queues q))
    (q₀ q : QueueId) :
    Searchable (Spec.takeReady a.toGlobals (a.queues q₀)).1
      (Function.update a.queues q₀ (Spec.takeReady a.toGlobals (a.queues q₀)).2.2 q) := by
  have hsub := (Spec.takeReady_suffix a.toGlobals (a.queues q₀)).sublist
  by_cases hq : q = q₀
  · subst hq
    rw [Function.update_self]
    refine ⟨fun x hx ↦ ?_, hsub.length_le.trans (hs q).length⟩
    rw [Spec.takeReady_pcb_of_mem _ (h.nodup q) hx]
    exact (hs q).ready x (hsub.subset hx)
  · rw [Function.update_of_ne hq]
    refine ⟨fun x hx ↦ ?_, (hs q).length⟩
    rw [Spec.takeReady_pcb_of_notMem _ fun hx' ↦ h.queues.disjoint q q₀ hq x hx hx']
    exact (hs q).ready x hx

theorem takeFromLevels (h : Sim k a) (levels : List Nat)
    (hs : ∀ q, Searchable a.toGlobals (a.queues q)) :
    ∃ k', k.takeFromLevels levels = some ((Spec.takeFromLevels levels a).1, k') ∧
      Sim k' (Spec.takeFromLevels levels a).2 := by
  induction levels generalizing k a with
  | nil => exact ⟨k, rfl, h⟩
  | cons q levels ih =>
      obtain ⟨k₁, htake, h₁⟩ := h.takeReady rfl (hs (.mlQueues q)) (hs (.mlQueues q)).length_lt
      have hs₁ := h.searchable_takeReady hs (.mlQueues q)
      simp only [Kernel.takeFromLevels, htake, Spec.takeFromLevels, Option.bind_eq_bind,
        Option.bind_some]
      generalize Spec.takeReady a.toGlobals (a.queues (.mlQueues q)) = r at h₁ hs₁ ⊢
      obtain ⟨g, r, l⟩ := r
      cases r with
      | some p => exact ⟨k₁, rfl, h₁⟩
      | none => exact ih h₁ hs₁

/-! ## Selection -/

end Sim

/-- What a scheduler invocation needs of the lists: a running process that is put
back is in no queue yet, and all queues can be searched, before and after. -/
structure Schedulable (a : Kernel Lists) : Prop where
  searchable : ∀ q, Searchable a.toGlobals (a.queues q)
  free : a.StillRunnable → ∀ q, a.currentProcess ∉ a.queues q
  parked : ∀ q, Searchable (Spec.park a).toGlobals ((Spec.park a).queues q)

namespace Sim

variable {k : Kernel Pointers} {a : Kernel Lists}

theorem park (h : Sim k a) (hs : Schedulable a) :
    ∃ k', k.parkActive = some k' ∧ Sim k' (Spec.park a) := by
  rw [Kernel.parkActive, h.globals, Spec.park]
  by_cases hrun : a.StillRunnable
  · rw [if_pos hrun, if_pos hrun]
    exact h.activeEnqueue hrun.1 (hs.free hrun) fun q ↦ (hs.searchable q).length
  · rw [if_neg hrun, if_neg hrun]
    exact ⟨k, rfl, h⟩

theorem parkFifo (h : Sim k a) (hs : Schedulable a)
    (halg : a.algorithm.enqueue = .enqueueFifo) : Sim k.parkFifo (Spec.park a) := by
  obtain ⟨k', hk', hsim⟩ := h.park hs
  have halg' : k.algorithm.enqueue = .enqueueFifo := by rw [h.globals]; exact halg
  have hpark : some k.parkFifo = some k' := by
    rw [← hk', Kernel.parkFifo, Kernel.parkActive, Kernel.activeEnqueue, halg']
    split <;> rfl
  rw [Option.some.inj hpark]
  exact hsim

theorem parkMultilevel (h : Sim k a) (hs : Schedulable a)
    (halg : a.algorithm.enqueue = .enqueueMultilevel) :
    Sim k.parkMultilevel (Spec.park a) := by
  obtain ⟨k', hk', hsim⟩ := h.park hs
  have halg' : k.algorithm.enqueue = .enqueueMultilevel := by rw [h.globals]; exact halg
  have hpark : some k.parkMultilevel = some k' := by
    rw [← hk', Kernel.parkMultilevel, Kernel.parkActive, Kernel.activeEnqueue, halg']
    split <;> rfl
  rw [Option.some.inj hpark]
  exact hsim

section

variable (h : Sim k a) (hs : Schedulable (a.mapGlobals (·.preemptDisable)))
include h hs

theorem selectRoundRobin (halg : a.algorithm.enqueue = .enqueueFifo) :
    ∃ r k', Spec.settle (Spec.parked a) Spec.tenTicks (Spec.takeReady (Spec.parked a).toGlobals
        ((Spec.parked a).queues .readyQueue)) = r ∧
      k.selectRoundRobin = some (r.1, k') ∧ Sim k' r.2 := by
  have hpark := (h.mapGlobals (·.preemptDisable)).parkFifo hs halg
  obtain ⟨k₁, htake, h₁⟩ := hpark.takeReady rfl (hs.parked .readyQueue)
    (hs.parked .readyQueue).length_lt
  unfold Kernel.selectRoundRobin Spec.parked
  simp only [htake, Option.bind_eq_bind, Option.bind_some]
  generalize Spec.takeReady _ _ = r at h₁ ⊢
  obtain ⟨g, next, l⟩ := r
  cases next with
  | none => exact ⟨_, _, rfl, rfl, h₁⟩
  | some p => exact ⟨_, _, rfl, rfl, h₁.mapGlobals (Spec.tenTicks p)⟩

theorem selectQueueHead :
    ∃ r k', Spec.settle (Spec.parked a) (fun _ g ↦ g) (Spec.takeReady (Spec.parked a).toGlobals
        ((Spec.parked a).queues .readyQueue)) = r ∧
      k.selectQueueHead = some (r.1, k') ∧ Sim k' r.2 := by
  obtain ⟨k₀, hk₀, hpark⟩ := (h.mapGlobals (·.preemptDisable)).park hs
  obtain ⟨k₁, htake, h₁⟩ := hpark.takeReady rfl (hs.parked .readyQueue)
    (hs.parked .readyQueue).length_lt
  unfold Kernel.selectQueueHead Spec.parked
  simp only [hk₀, htake, Option.bind_eq_bind, Option.bind_some]
  generalize Spec.takeReady _ _ = r at h₁ ⊢
  obtain ⟨g, next, l⟩ := r
  cases next with
  | none => exact ⟨_, _, rfl, rfl, h₁⟩
  | some p => exact ⟨_, _, rfl, rfl, h₁⟩

theorem selectLottery (halg : a.algorithm.enqueue = .enqueueFifo)
    {r : Globals × Option PcbPtr × List PcbPtr} (hr : Spec.drawWinner QUEUE_FUEL
      (Spec.parked a).toGlobals ((Spec.parked a).queues .readyQueue) = some r) :
    ∃ k', k.selectLottery = some ((Spec.settle (Spec.parked a) Spec.tenTicks r).1, k') ∧
      Sim k' (Spec.settle (Spec.parked a) Spec.tenTicks r).2 := by
  have hpark := (h.mapGlobals (·.preemptDisable)).parkFifo hs halg
  obtain ⟨k₁, hdraw, h₁⟩ := hpark.drawWinner rfl (hs.parked .readyQueue) hr
  unfold Kernel.selectLottery
  simp only [hdraw, Option.bind_eq_bind, Option.bind_some]
  obtain ⟨g, next, l⟩ := r
  cases next with
  | none => exact ⟨_, rfl, h₁⟩
  | some p => exact ⟨_, rfl, h₁.mapGlobals (Spec.tenTicks p)⟩

theorem selectPriorityAging (halg : a.algorithm.enqueue = .enqueueFifo)
    {r : Globals × Option PcbPtr × List PcbPtr} (hr : Spec.agingLoop (Spec.parked a).EPOCH_FUEL
      (Spec.parked a).toGlobals ((Spec.parked a).queues .readyQueue) = some r) :
    ∃ k', k.selectPriorityAging =
        some ((Spec.settle (Spec.parked a) (fun _ g ↦ g) r).1, k') ∧
      Sim k' (Spec.settle (Spec.parked a) (fun _ g ↦ g) r).2 := by
  have hpark : Sim _ (Spec.parked a) := (h.mapGlobals (·.preemptDisable)).parkFifo hs halg
  obtain ⟨k₁, hloop, h₁⟩ := hpark.agingLoop rfl (hs.parked .readyQueue) hr
  unfold Kernel.selectPriorityAging
  simp only [hpark.globals, hloop, Option.bind_eq_bind, Option.bind_some]
  obtain ⟨g, next, l⟩ := r
  cases next with
  | none => exact ⟨_, rfl, h₁⟩
  | some p => exact ⟨_, rfl, h₁⟩

theorem selectMultilevel (halg : a.algorithm.enqueue = .enqueueMultilevel)
    {policy : MultilevelPolicy} (hpolicy : a.algorithm.mlPolicy = some policy) :
    ∃ r k', Spec.settleLevel policy
        (Spec.takeFromLevels (List.range policy.nLevels) (Spec.parked a)) = r ∧
      k.selectMultilevel = some (r.1, k') ∧ Sim k' r.2 := by
  have hpark := (h.mapGlobals (·.preemptDisable)).parkMultilevel hs halg
  obtain ⟨k₁, htake, h₁⟩ := hpark.takeFromLevels (List.range policy.nLevels) hs.parked
  have hpolicy' : (k.mapGlobals (·.preemptDisable)).algorithm.mlPolicy = some policy := by
    rw [(h.mapGlobals _).globals]; exact hpolicy
  unfold Kernel.selectMultilevel Spec.parked
  simp only [hpolicy', htake, Option.bind_eq_bind, Option.bind_some]
  generalize Spec.takeFromLevels _ _ = r at h₁ ⊢
  obtain ⟨next, a'⟩ := r
  cases next with
  | none => exact ⟨_, _, rfl, rfl, h₁⟩
  | some p => exact ⟨_, _, rfl, rfl, h₁.mapGlobals _⟩

end

/-- The selection function of the active algorithm. -/
theorem select (h : Sim k a) (hs : Schedulable (a.mapGlobals (·.preemptDisable)))
    {r : PcbPtr × Kernel Lists} (hr : Spec.select a = some r) :
    ∃ k', k.select = some (r.1, k') ∧ Sim k' r.2 := by
  have halg : k.algorithm = a.algorithm := congrArg Globals.algorithm h.globals
  have hpalg : (Spec.parked a).algorithm = a.algorithm := by
    rw [Globals.algorithm, Spec.parked, Spec.park_activeAlgorithm]; rfl
  rw [Kernel.select, halg]
  rw [Spec.select, Spec.choose, hpalg] at hr
  -- a descriptor pairs each selection function with an insertion policy
  obtain ⟨hpick, henq⟩ | ⟨hpick⟩ | ⟨hpick, henq⟩ | ⟨hpick, henq⟩ | ⟨hpick, henq, policy, hpol⟩ :=
    a.algorithm_cases
  · obtain ⟨r', k', hr', hk', hsim⟩ := h.selectRoundRobin hs henq
    simp only [hpick, hr', Option.some.injEq] at hr ⊢
    exact ⟨k', hr ▸ hk', hr ▸ hsim⟩
  · obtain ⟨r', k', hr', hk', hsim⟩ := h.selectQueueHead hs
    simp only [hpick, hr', Option.some.injEq] at hr ⊢
    exact ⟨k', hr ▸ hk', hr ▸ hsim⟩
  · simp only [hpick, Option.map_eq_some_iff] at hr ⊢
    obtain ⟨r', hdraw, rfl⟩ := hr
    exact h.selectLottery hs henq hdraw
  · simp only [hpick, Option.map_eq_some_iff] at hr ⊢
    obtain ⟨r', hloop, rfl⟩ := hr
    exact h.selectPriorityAging hs henq hloop
  · obtain ⟨r', k', hr', hk', hsim⟩ := h.selectMultilevel hs henq hpol
    simp only [hpick, hpol, Option.map_some, hr', Option.some.injEq] at hr ⊢
    exact ⟨k', hr ▸ hk', hr ▸ hsim⟩

theorem pickNext (h : Sim k a) (hs : Schedulable (a.mapGlobals (·.preemptDisable)))
    {a' : Kernel Lists} (ha' : Spec.pickNext a = some a') :
    ∃ k', k.pickNext = some k' ∧ Sim k' a' := by
  simp only [Spec.pickNext, Option.map_eq_some_iff] at ha'
  obtain ⟨⟨next, a₁⟩, hsel, rfl⟩ := ha'
  obtain ⟨k₁, hk₁, h₁⟩ := h.select hs hsel
  exact ⟨_, by simp [Kernel.pickNext, hk₁], h₁.mapGlobals (·.dispatch next)⟩

end Sim

end DemosOS
