import DemosOS.Sched.Aging
import DemosOS.Sched.Levels

/-!
# Epochs

Priority aging with nothing but ticks.  A process that is chosen keeps the processor for its whole
slice, and the scheduler recharges the slices when all of them are used up, so an epoch charges
every process its priority, in one run of ticks.

The processes of an epoch are the `served` ones, whose slices are over, the running one, which has
`used` a part of its slice, and the `waiting` ones, whose slices are to come.
-/

namespace DemosOS

/-! ## The choice when there are no signals -/

namespace Spec

variable {g : Globals} {l : List PcbPtr}

theorem signalAll_of_none (h : ∀ p ∈ l, (g.pcb p).pendingSignals = 0) : signalAll g l = g := by
  have hnone : ∀ p ∈ l, ∀ s, ¬ (g.pcb p).hasSignal s := by
    intro p hp s
    simp [PCB.hasSignal, h p hp]
  exact signalAll_of_noSignal fun p hp ↦ ⟨hnone p hp _, hnone p hp _, hnone p hp _⟩

variable (hsignals : ∀ p ∈ l, (g.pcb p).pendingSignals = 0)
  (hready : ∀ p ∈ l, (g.pcb p).state = .ready)
include hsignals hready

/-- As long as a process has ticks left, one of these is chosen. -/
theorem agingLoop_take (hleft : ∃ p ∈ l, 0 < (g.pcb p).counter) (fuel : Nat) :
    ∃ p ∈ l, 0 < (g.pcb p).counter ∧ agingLoop (fuel + 1) g l = some (g, some p, l.erase p) := by
  simp only [agingLoop, signalAll_of_none hsignals, survivors_of_ready hready]
  cases hbest : best g none 0 l with
  | none =>
      obtain ⟨p, hp, hpos⟩ := hleft
      exact absurd (best_eq_none hbest p hp) (not_le.mpr hpos)
  | some p =>
      exact ⟨p, (best_mem g hbest).resolve_right (by simp), (best_pos hbest).resolve_left (by simp),
        rfl⟩

/-- When no process has ticks left, everybody is recharged. -/
theorem agingLoop_recharge (hne : l ≠ []) (hover : ∀ p ∈ l, (g.pcb p).counter ≤ 0) (fuel : Nat) :
    agingLoop (fuel + 1) g l = agingLoop fuel g.recharge l := by
  simp only [agingLoop, signalAll_of_none hsignals, survivors_of_ready hready]
  cases hbest : best g none 0 l with
  | none => exact if_neg hne
  | some p =>
      have hp := (best_mem g hbest).resolve_right (by simp)
      exact absurd (hover p hp) (not_le.mpr ((best_pos hbest).resolve_left (by simp)))

end Spec

/-- An invocation takes `p` from the processes `l` of the ready queue. -/
structure Takes (a a' : Kernel Lists) (l : List PcbPtr) (p : PcbPtr) : Prop where
  mem : p ∈ l
  current : a'.currentProcess = p
  queue : a'.queues .readyQueue = l.erase p
  algorithm : a'.activeAlgorithm = a.activeAlgorithm
  priority : ∀ x, (a'.pcb x).priority = (a.pcb x).priority
  signals : ∀ x, (a'.pcb x).pendingSignals = (a.pcb x).pendingSignals

namespace Spec

/-- A queue without an order of its own gets the running process at its end. -/
theorem parked_fifo {a : Kernel Lists} (halg : a.algorithm.enqueue = .enqueueFifo)
    (hrunning : a.StillRunnable) :
    (parked a).queues .readyQueue = a.queues .readyQueue ++ [a.currentProcess] := by
  have halg' : (a.mapGlobals (·.preemptDisable)).algorithm.enqueue = .enqueueFifo := halg
  rw [parked_eq, if_pos hrunning, enqueue_queues hrunning.1]
  simp only [targetQueue, insert, halg', Function.update_self]
  rfl

variable {a a' : Kernel Lists} {l : List PcbPtr} (halg : a.activeAlgorithm = .priorityAging)
  (h : pickNext a = some a') (hl : (parked a).queues .readyQueue = l)
include halg h hl

/-- What an invocation makes of the choice of the epoch loop. -/
theorem takes_of_agingLoop {g : Globals} {p : PcbPtr} (hp : p ∈ l)
    (hloop : agingLoop (parked a).EPOCH_FUEL (parked a).toGlobals l = some (g, some p, l.erase p))
    (hg : g.frozen = (parked a).frozen)
    (hkeep : ∀ x, (g.pcb x).pendingSignals = ((parked a).pcb x).pendingSignals) :
    Takes a a' l p ∧ ∀ x, (a'.pcb x).counter = (g.pcb x).counter := by
  obtain ⟨r, hr, rfl⟩ := pickNext_aging halg h
  rw [hl, hloop] at hr
  obtain rfl := Option.some.inj hr
  have hfrozen : (g.dispatch p).frozen = a.frozen :=
    (Globals.frozen_dispatch g p).trans (hg.trans (frozen_parked a))
  show Takes a ⟨g.dispatch p, Function.update (parked a).queues .readyQueue (l.erase p)⟩ l p ∧
    ∀ x, ((g.dispatch p).pcb x).counter = (g.pcb x).counter
  refine ⟨⟨hp, Globals.dispatch_currentProcess ..,
    Function.update_self QueueId.readyQueue (l.erase p) (parked a).queues,
    Globals.activeAlgorithm_of_frozen hfrozen,
    Globals.field_of_frozen hfrozen PCB.priority fun _ ↦ rfl, fun x ↦ ?_⟩, fun x ↦ ?_⟩
  · refine Eq.trans ?_ ((hkeep x).trans (parked_pendingSignals x))
    exact g.dispatch_field p PCB.pendingSignals (fun _ _ ↦ rfl) (fun _ _ ↦ rfl) x
  · exact g.dispatch_field p PCB.counter (fun _ _ ↦ rfl) (fun _ _ ↦ rfl) x

variable (ha : Inv a) (hsignals : ∀ p ∈ l, (a.pcb p).pendingSignals = 0)
include ha hsignals

/-- Within an epoch a process with ticks left is chosen, and nobody's slice changes. -/
theorem pickNext_within (hleft : ∃ p ∈ l, 0 < (a.pcb p).counter) :
    ∃ p, 0 < (a.pcb p).counter ∧ Takes a a' l p ∧ ∀ x, (a'.pcb x).counter = (a.pcb x).counter := by
  have hcounter : ∀ x, ((parked a).pcb x).counter = (a.pcb x).counter :=
    parked_field a PCB.counter (fun _ _ ↦ rfl) fun _ _ ↦ rfl
  have hready : ∀ p ∈ l, ((parked a).pcb p).state = .ready := fun p hp ↦
    (parked_selectable ha).ready .readyQueue p (hl ▸ hp)
  have hquiet : ∀ p ∈ l, ((parked a).pcb p).pendingSignals = 0 := fun p hp ↦
    (parked_pendingSignals p).trans (hsignals p hp)
  obtain ⟨n, hn⟩ := Nat.exists_eq_add_of_le' ((by decide : 1 ≤ 3).trans
    (EPOCH_FUEL_pos (parked a).toGlobals))
  obtain ⟨p, hp, hpos, hloop⟩ := agingLoop_take hquiet hready
    (by simpa only [hcounter] using hleft) n
  rw [← hn] at hloop
  obtain ⟨htakes, hsame⟩ := takes_of_agingLoop halg h hl hp hloop rfl fun _ ↦ rfl
  exact ⟨p, (hcounter p).symm ▸ hpos, htakes, fun x ↦ (hsame x).trans (hcounter x)⟩

/-- At the end of an epoch everybody gets a new slice, and somebody is chosen. -/
theorem pickNext_over (hne : l ≠ []) (hover : ∀ p ∈ l, (a.pcb p).counter = 0) :
    ∃ p, Takes a a' l p ∧ ∀ x ∈ l, (a'.pcb x).counter = (a.pcb x).priority := by
  have hsel := parked_selectable ha
  have hready : ∀ p ∈ l, ((parked a).pcb p).state = .ready := fun p hp ↦
    hsel.ready .readyQueue p (hl ▸ hp)
  have hquiet : ∀ p ∈ l, ((parked a).pcb p).pendingSignals = 0 := fun p hp ↦
    (parked_pendingSignals p).trans (hsignals p hp)
  have hzero : ∀ p ∈ l, ((parked a).pcb p).counter = 0 := fun p hp ↦
    (parked_field a PCB.counter (fun _ _ ↦ rfl) (fun _ _ ↦ rfl) p).trans (hover p hp)
  have hstatic := (parked a).toGlobals.static_recharge
  -- the new slice is the priority: nothing is left of the old one
  have hslice : ∀ p ∈ l, ((parked a).recharge.pcb p).counter = (a.pcb p).priority := by
    intro p hp
    have hknown := (hsel.known .readyQueue p (hl ▸ hp)).1
    rw [hsel.table.recharge_counter hknown, hzero p hp]
    exact (Int.zero_add _).trans (parked_field a PCB.priority (fun _ _ ↦ rfl) (fun _ _ ↦ rfl) p)
  have hready' : ∀ p ∈ l, ((parked a).recharge.pcb p).state = .ready := fun p hp ↦
    (Globals.recharge_field PCB.state (fun _ _ ↦ rfl) _ p).trans (hready p hp)
  have hquiet' : ∀ p ∈ l, ((parked a).recharge.pcb p).pendingSignals = 0 := fun p hp ↦
    (Globals.recharge_field PCB.pendingSignals (fun _ _ ↦ rfl) _ p).trans (hquiet p hp)
  have hleft : ∃ p ∈ l, 0 < ((parked a).recharge.pcb p).counter := by
    obtain ⟨p, hp⟩ := List.exists_mem_of_ne_nil _ hne
    have hprio := (hsel.known .readyQueue p (hl ▸ hp)).2
    rw [parked_field a PCB.priority (fun _ _ ↦ rfl) (fun _ _ ↦ rfl) p] at hprio
    exact ⟨p, hp, by rw [hslice p hp]; omega⟩
  obtain ⟨n, hn⟩ := Nat.exists_eq_add_of_le' ((by decide : 2 ≤ 3).trans
    (EPOCH_FUEL_pos (parked a).toGlobals))
  obtain ⟨p, hp, -, hloop⟩ := agingLoop_take hquiet' hready' hleft n
  rw [← agingLoop_recharge hquiet hready hne (fun p hp ↦ (hzero p hp).le) (n + 1), ← hn] at hloop
  obtain ⟨htakes, hsame⟩ := takes_of_agingLoop halg h hl hp hloop
    (Globals.frozen_of_static hstatic)
    (Globals.recharge_field PCB.pendingSignals (fun _ _ ↦ rfl) _)
  exact ⟨p, htakes, fun x hx ↦ (hsame x).trans (hslice x hx)⟩

end Spec

/-! ## Within an epoch -/

/-- An epoch of the processes `R` is under way. -/
structure InEpoch (R : List PcbPtr) (prio : PcbPtr → Nat) (served waiting : List PcbPtr)
    (used : Nat) (a : Kernel Lists) : Prop where
  nodup : R.Nodup
  algorithm : a.activeAlgorithm = .priorityAging
  busy : a.currentProcess ≠ .initProcess
  queue : (a.queues .readyQueue).Perm (served ++ waiting)
  all : (a.currentProcess :: (served ++ waiting)).Perm R
  priority : ∀ p ∈ R, (a.pcb p).priority = prio p
  signals : ∀ p ∈ R, (a.pcb p).pendingSignals = 0
  usedUp : ∀ p ∈ served, (a.pcb p).counter = 0
  slice : ∀ p ∈ waiting, (a.pcb p).counter = prio p
  current : a.current.counter + used = prio a.currentProcess
  left : 0 < a.current.counter

/-- The processes that an epoch has charged, tick by tick. -/
def chargedSoFar (prio : PcbPtr → Nat) (served : List PcbPtr) (used : Nat) (p : PcbPtr) :
    List PcbPtr :=
  (served.flatMap fun x ↦ List.replicate (prio x) x) ++ List.replicate used p

/-- A process that has been charged its priority is served. -/
theorem chargedSoFar_served (prio : PcbPtr → Nat) (served : List PcbPtr) (p : PcbPtr) :
    chargedSoFar prio served (prio p) p =
      (served ++ [p]).flatMap fun x ↦ List.replicate (prio x) x := by
  rw [chargedSoFar, List.flatMap_append, List.flatMap_singleton]

namespace InEpoch

variable {R served waiting : List PcbPtr} {prio : PcbPtr → Nat} {used : Nat}
  {a a₁ a' : Kernel Lists}

theorem current_mem (h : InEpoch R prio served waiting used a) : a.currentProcess ∈ R :=
  h.all.subset List.mem_cons_self

theorem mem (h : InEpoch R prio served waiting used a) {p : PcbPtr}
    (hp : p ∈ served ++ waiting) : p ∈ R ∧ p ≠ a.currentProcess := by
  have hnodup := h.all.nodup_iff.mpr h.nodup
  refine ⟨h.all.subset (List.mem_cons_of_mem _ hp), ?_⟩
  rintro rfl
  exact (List.nodup_cons.mp hnodup).1 hp

/-- The epoch goes on with the same process, which has been charged `ticks` more. -/
theorem goesOn (h : InEpoch R prio served waiting used a)
    (halg : a₁.activeAlgorithm = a.activeAlgorithm) (hcur : a₁.currentProcess = a.currentProcess)
    (hqueue : a₁.queues .readyQueue = a.queues .readyQueue)
    (hprio : ∀ p ∈ R, (a₁.pcb p).priority = (a.pcb p).priority)
    (hsignals : ∀ p ∈ R, (a₁.pcb p).pendingSignals = (a.pcb p).pendingSignals)
    (hcounter : ∀ p ∈ R, p ≠ a.currentProcess → (a₁.pcb p).counter = (a.pcb p).counter)
    (ticks : Nat) (hcharge : (a₁.pcb a.currentProcess).counter = a.current.counter - ticks)
    (hleft : (ticks : Int) < a.current.counter) :
    InEpoch R prio served waiting (used + ticks) a₁ where
  nodup := h.nodup
  algorithm := halg.trans h.algorithm
  busy := hcur ▸ h.busy
  queue := hqueue ▸ h.queue
  all := hcur ▸ h.all
  priority p hp := (hprio p hp).trans (h.priority p hp)
  signals p hp := (hsignals p hp).trans (h.signals p hp)
  usedUp p hp := by
    obtain ⟨hR, hne⟩ := h.mem (List.mem_append_left waiting hp)
    exact (hcounter p hR hne).trans (h.usedUp p hp)
  slice p hp := by
    obtain ⟨hR, hne⟩ := h.mem (List.mem_append_right served hp)
    exact (hcounter p hR hne).trans (h.slice p hp)
  current := by
    have hused := h.current
    rw [Globals.current, hcur, hcharge, Nat.cast_add]
    omega
  left := by
    rw [Globals.current, hcur, hcharge]
    omega

/-- The process that an invocation takes starts its slice. -/
theorem takes {l : List PcbPtr} {p : PcbPtr} (ha : Inv a) (hnodup : R.Nodup) (hl : l.Perm R)
    (hqueue : (Spec.parked a).queues .readyQueue = l) (halg : a.activeAlgorithm = .priorityAging)
    (hprio : ∀ x ∈ R, (a.pcb x).priority = prio x)
    (hsignals : ∀ x ∈ R, (a.pcb x).pendingSignals = 0)
    (h : Takes a a' l p) (hsplit : l.Perm (served ++ p :: waiting))
    (hover : ∀ x ∈ served, (a'.pcb x).counter = 0)
    (hslice : ∀ x ∈ p :: waiting, (a'.pcb x).counter = prio x) :
    InEpoch R prio served waiting 0 a' := by
  obtain rfl := h.current
  have hsel := Spec.parked_selectable ha
  have hmem : a'.currentProcess ∈ (Spec.parked a).queues .readyQueue := hqueue ▸ h.mem
  have hcounter := hslice _ List.mem_cons_self
  have hfront : l.Perm (a'.currentProcess :: (served ++ waiting)) :=
    hsplit.trans List.perm_middle
  refine ⟨hnodup, h.algorithm.trans halg, ?_, ?_, hfront.symm.trans hl,
    fun x hx ↦ (h.priority x).trans (hprio x hx), fun x hx ↦ (h.signals x).trans (hsignals x hx),
    hover, fun x hx ↦ hslice x (List.mem_cons_of_mem _ hx), ?_, ?_⟩
  · intro hinit
    rw [hinit] at hmem
    exact hsel.init _ hmem
  · rw [h.queue]
    have herase := hfront.erase a'.currentProcess
    rwa [List.erase_cons_head] at herase
  · rw [Globals.current, hcounter, Nat.cast_zero, add_zero]
  · have hpos := (hsel.known _ _ hmem).2
    rw [Spec.parked_field a PCB.priority (fun _ _ ↦ rfl) (fun _ _ ↦ rfl)] at hpos
    rw [Globals.current, hcounter, ← hprio _ (hl.subset h.mem)]
    omega

/-- An epoch begins with an invocation that finds all slices used up. -/
theorem start {l : List PcbPtr} (ha : Inv a) (hnodup : R.Nodup) (hl : l.Perm R) (hne : R ≠ [])
    (hqueue : (Spec.parked a).queues .readyQueue = l) (halg : a.activeAlgorithm = .priorityAging)
    (hprio : ∀ x ∈ R, (a.pcb x).priority = prio x)
    (hsignals : ∀ x ∈ R, (a.pcb x).pendingSignals = 0)
    (hover : ∀ x ∈ R, (a.pcb x).counter = 0) (hpick : Spec.pickNext a = some a') :
    ∃ waiting, InEpoch R prio [] waiting 0 a' := by
  have hlne : l ≠ [] := by
    rintro rfl
    exact hne hl.nil_eq.symm
  obtain ⟨p, htakes, hslice⟩ := Spec.pickNext_over halg hpick hqueue ha
    (fun x hx ↦ hsignals x (hl.subset hx)) hlne fun x hx ↦ hover x (hl.subset hx)
  have hsplit : l.Perm ([] ++ p :: l.erase p) := List.perm_cons_erase htakes.mem
  refine ⟨l.erase p, takes ha hnodup hl hqueue halg hprio hsignals htakes hsplit nofun
    fun x hx ↦ ?_⟩
  have hx : x ∈ l := hsplit.symm.subset hx
  exact (hslice x hx).trans (hprio x (hl.subset hx))

/-- The slice of the running process is over, and another process is chosen. -/
theorem next (h : InEpoch R prio served waiting used a) (ha : Inv a) (ha₁ : Inv a₁)
    (hrunning : a₁.StillRunnable) (halg : a₁.activeAlgorithm = a.activeAlgorithm)
    (hcur : a₁.currentProcess = a.currentProcess)
    (hqueue : a₁.queues .readyQueue = a.queues .readyQueue)
    (hprio : ∀ p ∈ R, (a₁.pcb p).priority = (a.pcb p).priority)
    (hsignals : ∀ p ∈ R, (a₁.pcb p).pendingSignals = (a.pcb p).pendingSignals)
    (hcounter : ∀ p ∈ R, p ≠ a.currentProcess → (a₁.pcb p).counter = (a.pcb p).counter)
    (hzero : (a₁.pcb a.currentProcess).counter = 0) (hpick : Spec.pickNext a₁ = some a') :
    (waiting ≠ [] ∧ (∃ p ∈ R, 0 < (a₁.pcb p).counter) ∧
      ∃ waiting', InEpoch R prio (served ++ [a.currentProcess]) waiting' 0 a') ∨
    (waiting = [] ∧ (∀ p ∈ R, (a₁.pcb p).counter = 0) ∧ (served ++ [a.currentProcess]).Perm R ∧
      ∃ waiting', InEpoch R prio [] waiting' 0 a') := by
  have halg₁ := halg.trans h.algorithm
  have hprio₁ : ∀ p ∈ R, (a₁.pcb p).priority = prio p := fun p hp ↦
    (hprio p hp).trans (h.priority p hp)
  have hsignals₁ : ∀ p ∈ R, (a₁.pcb p).pendingSignals = 0 := fun p hp ↦
    (hsignals p hp).trans (h.signals p hp)
  -- the running process joins the queue
  have hparked : (Spec.parked a₁).queues .readyQueue =
      a.queues .readyQueue ++ [a.currentProcess] := by
    rw [Spec.parked_fifo (congrArg (fun x ↦ (Algorithm.descriptor x).enqueue) halg₁) hrunning,
      hqueue, hcur]
  have hl : (a.queues .readyQueue ++ [a.currentProcess]).Perm
      ((served ++ [a.currentProcess]) ++ waiting) := by
    refine (List.perm_append_singleton _ _).trans ((h.queue.cons _).trans ?_)
    rw [List.append_assoc]
    exact List.perm_middle.symm
  have hR : (a.queues .readyQueue ++ [a.currentProcess]).Perm R :=
    (List.perm_append_singleton _ _).trans ((h.queue.cons _).trans h.all)
  have hover : ∀ p ∈ served ++ [a.currentProcess], (a₁.pcb p).counter = 0 := by
    intro p hp
    rcases List.mem_append.mp hp with hp | hp
    · obtain ⟨hmem, hne⟩ := h.mem (List.mem_append_left waiting hp)
      exact (hcounter p hmem hne).trans (h.usedUp p hp)
    · obtain rfl := List.mem_singleton.mp hp
      exact hzero
  have hslice : ∀ p ∈ waiting, (a₁.pcb p).counter = prio p := by
    intro p hp
    obtain ⟨hmem, hne⟩ := h.mem (List.mem_append_right served hp)
    exact (hcounter p hmem hne).trans (h.slice p hp)
  by_cases hwaiting : waiting = []
  · subst hwaiting
    rw [List.append_nil] at hl
    have hzero₁ : ∀ p ∈ R, (a₁.pcb p).counter = 0 := fun p hp ↦
      hover p (hl.subset (hR.symm.subset hp))
    exact .inr ⟨rfl, hzero₁, hl.symm.trans hR, start ha₁ h.nodup hR
      (List.ne_nil_of_mem h.current_mem) hparked halg₁ hprio₁ hsignals₁ hzero₁ hpick⟩
  · -- one of the waiting processes has the largest counter
    obtain ⟨x, hx⟩ := List.exists_mem_of_ne_nil _ hwaiting
    have hxR := (h.mem (List.mem_append_right served hx)).1
    have hxpos : 0 < (a₁.pcb x).counter := by
      have hknown := Invocation.runnable_known ha (p := x)
        (.inl ⟨.readyQueue, h.queue.symm.subset (List.mem_append_right served hx)⟩)
      have hpos := ha.priority x hknown
      rw [h.priority x hxR] at hpos
      rw [hslice x hx]
      omega
    obtain ⟨p, hpos, htakes, hsame⟩ := Spec.pickNext_within halg₁ hpick hparked ha₁
      (fun y hy ↦ hsignals₁ y (hR.subset hy)) ⟨x, hR.symm.subset hxR, hxpos⟩
    have hpover : p ∉ served ++ [a.currentProcess] := fun hp ↦ by
      rw [hover p hp] at hpos
      exact lt_irrefl 0 hpos
    have hpwaiting : p ∈ waiting :=
      (List.mem_append.mp (hl.subset htakes.mem)).resolve_left hpover
    have hsplit := hl.trans ((List.perm_cons_erase hpwaiting).append_left _)
    refine .inl ⟨hwaiting, ⟨x, hxR, hxpos⟩, waiting.erase p,
      takes ha₁ h.nodup hR hparked halg₁ hprio₁ hsignals₁ htakes hsplit
        (fun y hy ↦ (hsame y).trans (hover y hy)) fun y hy ↦ ?_⟩
    exact (hsame y).trans (hslice y ((List.perm_cons_erase hpwaiting).symm.subset hy))

end InEpoch

/-! ## Operations during an epoch -/

/-- The operation is a tick with preemption enabled, or it leaves the processes of `R` as they are:
a `wait` that does not block, a signal to another process, a parameter that is not their priority.
-/
def Op.KeepsRunning (R : List PcbPtr) (k : Kernel Pointers) : Op → Prop
  | .tick => k.current.preemptDisabled ≤ 0
  | .wait pid => (Op.wait pid).invokes k = false
  | .signal pid _ => ∀ p ∈ R, ((k.pcb p).pid : Int) ≠ pid
  | .setParam pid param _ =>
      param = Globals.SCHED_PARAM_PRIORITY → ∀ p ∈ R, ((k.pcb p).pid : Int) ≠ pid
  | .add _ _ | .wake _ | .yield | .block _ | .exit => False

instance (R : List PcbPtr) (k : Kernel Pointers) : ∀ op, Decidable (Op.KeepsRunning R k op)
  | .tick => inferInstanceAs (Decidable (_ ≤ _))
  | .wait _ => inferInstanceAs (Decidable (_ = false))
  | .signal pid _ => inferInstanceAs (Decidable (∀ p ∈ R, ((k.pcb p).pid : Int) ≠ pid))
  | .setParam pid param _ => inferInstanceAs (Decidable
      (param = Globals.SCHED_PARAM_PRIORITY → ∀ p ∈ R, ((k.pcb p).pid : Int) ≠ pid))
  | .add _ _ | .wake _ | .yield | .block _ | .exit => inferInstanceAs (Decidable False)

/-- The process an operation charges a tick. -/
def Op.charged (k : Kernel Pointers) : Op → List PcbPtr
  | .tick => [k.currentProcess]
  | _ => []

/-- The processes charged in a run, tick by tick. -/
def charges : Kernel Pointers → List (Op × Kernel Pointers) → List PcbPtr
  | _, [] => []
  | k, (op, k') :: steps => op.charged k ++ charges k' steps

/-- The operation enters the scheduler when the slices of all processes of `R` are used up. -/
def Op.endsEpoch (R : List PcbPtr) (k : Kernel Pointers) (op : Op) : Bool :=
  (op.entry k).any fun r ↦ r.1 && R.all fun p ↦ (r.2.pcb p).counter ≤ 0

/-- The charges of a run, cut where epochs end: those of the epochs that are over, and those of the
last one.  Ticks of the first epoch may have been `charged` before. -/
def epochs (R : List PcbPtr) : List PcbPtr → Kernel Pointers → List (Op × Kernel Pointers) →
    List (List PcbPtr) × List PcbPtr
  | charged, _, [] => ([], charged)
  | charged, k, (op, k') :: steps =>
      if op.endsEpoch R k then
        let (done, rest) := epochs R [] k' steps
        ((charged ++ op.charged k) :: done, rest)
      else epochs R (charged ++ op.charged k) k' steps

theorem epochs_charges (R charged : List PcbPtr) (k : Kernel Pointers)
    (steps : List (Op × Kernel Pointers)) :
    (epochs R charged k steps).1.flatten ++ (epochs R charged k steps).2 =
      charged ++ charges k steps := by
  induction steps generalizing charged k with
  | nil => simp [epochs, charges]
  | cons s steps ih =>
      rw [epochs, charges]
      split_ifs
      · simp [ih]
      · rw [ih, List.append_assoc]

theorem Op.endsEpoch_eq {R : List PcbPtr} {k k₁ : Kernel Pointers} {op : Op} {b : Bool}
    (h : op.entry k = some (b, k₁)) :
    op.endsEpoch R k = (b && R.all fun p ↦ (k₁.pcb p).counter ≤ 0) := by
  rw [Op.endsEpoch, h]
  rfl

namespace Spec

variable {a a₁ : Kernel Lists}

/-- A tick with preemption enabled, under a preemptive algorithm without bookkeeping. -/
theorem tickEntry_plain {b : Bool} (halg : a.activeAlgorithm = .priorityAging)
    (hpreempt : a.current.preemptDisabled ≤ 0) (h : tickEntry a = some (b, a₁)) :
    (b = false ∧ 1 < a.current.counter ∧ a₁ = a.mapGlobals (·.chargeTick)) ∨
      (b = true ∧ a.current.counter ≤ 1 ∧ a₁ = a.mapGlobals fun g ↦
        g.chargeTick.setCounter g.currentProcess 0) := by
  have hother : onTick (a.mapGlobals (·.chargeTick)) = some (a.mapGlobals (·.chargeTick)) := by
    refine onTick_other ?_
    rw [Kernel.mapGlobals_toGlobals]
    show a.activeAlgorithm ≠ _
    rw [halg]
    decide
  have hcharged := a.toGlobals.chargeTick_current
  have hcounter : a.chargeTick.current.counter = a.current.counter - 1 :=
    congrArg PCB.counter hcharged
  have hdisabled : a.chargeTick.current.preemptDisabled = a.current.preemptDisabled := by
    rw [hcharged]
  simp only [tickEntry, hother, Option.bind_eq_bind, Option.bind_some, Kernel.mapGlobals_toGlobals,
    hcounter, hdisabled] at h
  by_cases hgo : a.current.counter - 1 > 0 ∨ a.current.preemptDisabled > 0
  · rw [if_pos hgo] at h
    obtain ⟨rfl, rfl⟩ := Prod.mk.inj (Option.some.inj h)
    exact .inl ⟨rfl, by omega, rfl⟩
  · rw [if_neg hgo] at h
    have hpreemptive : ¬ (a.algorithm.isPreemptive = false ∧ a.currentProcess ≠ .initProcess) := by
      rw [Globals.algorithm, halg]
      exact fun hkeep ↦ absurd hkeep.1 (by decide)
    obtain ⟨rfl, rfl⟩ := Prod.mk.inj (Option.some.inj ((if_neg hpreemptive).symm.trans h))
    exact .inr ⟨rfl, by omega, rfl⟩

/-- The priority of a process changes only on request. -/
theorem setParam_priority (ha : a.Table) {pid param value : Int} {x : PcbPtr}
    (hx : param = Globals.SCHED_PARAM_PRIORITY → ((a.pcb x).pid : Int) ≠ pid) :
    ((a.toGlobals.syscallSetSchedParam pid param value).2.pcb x).priority =
      (a.pcb x).priority := by
  unfold Globals.syscallSetSchedParam
  cases hs : a.searchProcess pid with
  | none => rfl
  | some p =>
      dsimp only
      by_cases hparam : param = Globals.SCHED_PARAM_PRIORITY
      · have hne : x ≠ p := by
          rintro rfl
          exact hx hparam (ha.searchProcess_eq_some.mp hs).2
        unfold Globals.schedSetParam
        rw [if_pos hparam]
        split_ifs
        · rfl
        · rfl
        · exact congrArg PCB.priority
            (a.toGlobals.modifyPcb_pcb_of_ne (fun b ↦ { b with priority := value }) hne)
      · unfold Globals.schedSetParam
        rw [if_neg hparam]
        split_ifs
        · rfl
        · rfl
        · exact a.toGlobals.modifyPcb_field p x (fun b ↦ { b with tickets := value }) PCB.priority
            fun _ ↦ rfl
        · rfl
        · exact setQueuePriority_field _ _ _ PCB.priority (fun _ _ ↦ rfl) (fun _ _ ↦ rfl) _
        · rfl

end Spec

/-- In `k'` an epoch is under way in which `op` has been charged too, or the next one, and then the
last one has charged each process its priority. -/
def EpochStep (R : List PcbPtr) (prio : PcbPtr → Nat) (charged : List PcbPtr)
    (k : Kernel Pointers) (op : Op) (k' : Kernel Pointers) : Prop :=
  ∃ a' served waiting used, Sound k' a' ∧ InEpoch R prio served waiting used a' ∧
    ((op.endsEpoch R k = false ∧
        chargedSoFar prio served used k'.currentProcess = charged ++ op.charged k) ∨
      (op.endsEpoch R k = true ∧ chargedSoFar prio served used k'.currentProcess = [] ∧
        ∃ order : List PcbPtr, order.Perm R ∧
          charged ++ op.charged k = order.flatMap fun p ↦ List.replicate (prio p) p))

namespace Sound

variable {k k' : Kernel Pointers} {a : Kernel Lists} {R served waiting : List PcbPtr}
  {prio : PcbPtr → Nat} {used : Nat}

/-- An operation that is no tick. -/
theorem inEpoch_idle (h : Sound k a) (he : InEpoch R prio served waiting used a) {op : Op}
    (hop : op.Enabled k.toGlobals) (hrun : op.run k = some k') {a₁ : Kernel Lists}
    (hspec : Spec.entry a op = some (false, a₁)) (hcharged : op.charged k = [])
    (hqueue : a₁.queues .readyQueue = a.queues .readyQueue)
    (hprio : ∀ p ∈ R, (a₁.pcb p).priority = (a.pcb p).priority)
    (hsignals : ∀ p ∈ R, (a₁.pcb p).pendingSignals = (a.pcb p).pendingSignals)
    (hcounter : ∀ p ∈ R, (a₁.pcb p).counter = (a.pcb p).counter) :
    EpochStep R prio (chargedSoFar prio served used k.currentProcess) k op k' := by
  obtain ⟨b, k₁, a₂, a', hentry, hspec', -, -, hpass, hcont, -, h'⟩ := h.refines hop hrun
  obtain ⟨rfl, rfl⟩ := Prod.mk.inj (Option.some.inj (hspec.symm.trans hspec'))
  obtain rfl := Option.some.inj hcont
  have hsame := he.goesOn (Spec.entry_activeAlgorithm hspec) hpass.current hqueue hprio hsignals
    (fun p hp _ ↦ hcounter p hp) 0 ((hcounter _ he.current_mem).trans (sub_zero _).symm) he.left
  have hcur : k'.currentProcess = k.currentProcess := by
    rw [h'.sim.globals, h.sim.globals]
    exact hpass.current
  refine ⟨a₁, served, waiting, used, h', hsame, .inl ⟨Op.endsEpoch_eq hentry, ?_⟩⟩
  rw [hcharged, hcur, List.append_nil]

/-- A tick. -/
theorem inEpoch_tick (h : Sound k a) (he : InEpoch R prio served waiting used a)
    (hrun : Op.tick.run k = some k') (hpreempt : k.current.preemptDisabled ≤ 0) :
    EpochStep R prio (chargedSoFar prio served used k.currentProcess) k .tick k' := by
  have hop : Op.tick.Enabled k.toGlobals := trivial
  obtain ⟨b, k₁, a₁, a', hentry, hspec, hsim, ha₁, hpass, hcont, hinv, h'⟩ := h.refines hop hrun
  have hends := Op.endsEpoch_eq (R := R) hentry
  have hcur₀ : k.currentProcess = a.currentProcess := by rw [h.sim.globals]
  rw [hsim.globals] at hends
  rw [h.sim.globals] at hpreempt
  have hcharge : ∀ p, p ≠ a.currentProcess → a.chargeTick.pcb p = a.pcb p := fun p hp ↦
    a.toGlobals.modifyPcb_pcb_of_ne _ hp
  have hself := a.toGlobals.chargeTick_current
  have hused := he.current
  have hleft := he.left
  have hlast : ∀ p,
      chargedSoFar prio served used p ++ [p] = chargedSoFar prio served (used + 1) p := by
    intro p
    rw [chargedSoFar, chargedSoFar, List.replicate_succ', List.append_assoc]
  obtain ⟨rfl, hmore, rfl⟩ | ⟨rfl, hover, rfl⟩ := Spec.tickEntry_plain he.algorithm hpreempt hspec
  · -- the slice goes on
    obtain rfl := Option.some.inj hcont
    have hfield : ∀ {α : Type} (π : PCB → α), (∀ (b : PCB) (c t : Int),
        π { b with counter := c, burstTicks := t } = π b) → ∀ p,
        π ((a.mapGlobals (·.chargeTick)).pcb p) = π (a.pcb p) := fun π hπ p ↦
      a.toGlobals.modifyPcb_field _ _ _ π fun b ↦ hπ b _ _
    have halg : (a.mapGlobals (·.chargeTick)).activeAlgorithm = a.activeAlgorithm := rfl
    have hnext : InEpoch R prio served waiting (used + 1) (a.mapGlobals (·.chargeTick)) :=
      he.goesOn halg rfl rfl (fun p _ ↦ hfield PCB.priority (fun _ _ _ ↦ rfl) p)
        (fun p _ ↦ hfield PCB.pendingSignals (fun _ _ _ ↦ rfl) p)
        (fun p _ hp ↦ congrArg PCB.counter (hcharge p hp)) 1 (congrArg PCB.counter hself) hmore
    have hcur' : k'.currentProcess = a.currentProcess := by rw [h'.sim.globals]; rfl
    refine ⟨_, served, waiting, used + 1, h', hnext, .inl ⟨hends, ?_⟩⟩
    rw [Op.charged, hcur', hcur₀, hlast]
  · -- the slice is over
    have hfull : used + 1 = prio a.currentProcess := by omega
    have hpart : chargedSoFar prio served used a.currentProcess ++ [a.currentProcess] =
        (served ++ [a.currentProcess]).flatMap fun p ↦ List.replicate (prio p) p := by
      rw [hlast, hfull, chargedSoFar_served]
    have hfield : ∀ {α : Type} (π : PCB → α), (∀ (b : PCB) (c t : Int),
        π { b with counter := c, burstTicks := t } = π b) → ∀ p,
        π ((a.mapGlobals fun g ↦ g.chargeTick.setCounter g.currentProcess 0).pcb p) =
          π (a.pcb p) := fun π hπ p ↦
      (Globals.modifyPcb_field _ _ _ _ π fun b ↦ hπ b 0 b.burstTicks).trans
        (a.toGlobals.modifyPcb_field _ _ _ π fun b ↦ hπ b _ _)
    have hother : ∀ p, p ≠ a.currentProcess →
        (a.mapGlobals fun g ↦ g.chargeTick.setCounter g.currentProcess 0).pcb p = a.pcb p :=
      fun p hp ↦ (a.chargeTick.modifyPcb_pcb_of_ne (fun b ↦ { b with counter := 0 }) hp).trans
        (hcharge p hp)
    have hzero : ((a.mapGlobals fun g ↦ g.chargeTick.setCounter g.currentProcess 0).pcb
        a.currentProcess).counter = 0 :=
      congrArg PCB.counter (a.chargeTick.modifyPcb_pcb_self a.currentProcess
        fun b ↦ { b with counter := 0 })
    have hrunning : (a.mapGlobals fun g ↦
        g.chargeTick.setCounter g.currentProcess 0).StillRunnable :=
      ⟨he.busy, (hfield PCB.state (fun _ _ _ ↦ rfl) _).trans (h.settled he.busy)⟩
    obtain ⟨-, ⟨p, hp, hpos⟩, waiting', hnext⟩ | ⟨-, hall, horder, waiting', hnext⟩ :=
      he.next h.inv ha₁ hrunning rfl rfl rfl (fun p _ ↦ hfield PCB.priority (fun _ _ _ ↦ rfl) p)
        (fun p _ ↦ hfield PCB.pendingSignals (fun _ _ _ ↦ rfl) p)
        (fun p _ hp ↦ congrArg PCB.counter (hother p hp)) hzero hcont
    · refine ⟨a', _, waiting', 0, h', hnext, .inl ⟨?_, ?_⟩⟩
      · rw [hends, Bool.true_and, List.all_eq_false]
        exact ⟨p, hp, fun hle ↦ not_le.mpr hpos (of_decide_eq_true hle)⟩
      · rw [Op.charged, hcur₀, hpart, chargedSoFar, List.replicate_zero, List.append_nil]
    · refine ⟨a', [], waiting', 0, h', hnext, .inr ⟨?_, rfl, _, horder, ?_⟩⟩
      · rw [hends, Bool.true_and, List.all_eq_true]
        exact fun p hp ↦ decide_eq_true (hall p hp).le
      · rw [Op.charged, hcur₀, hpart]

/-- One operation. -/
theorem inEpoch (h : Sound k a) (he : InEpoch R prio served waiting used a) {op : Op}
    (hop : op.Enabled k.toGlobals) (hrun : op.run k = some k') (hkeeps : op.KeepsRunning R k) :
    EpochStep R prio (chargedSoFar prio served used k.currentProcess) k op k' := by
  cases op with
  | tick => exact h.inEpoch_tick he hrun hkeeps
  | wait pid =>
      obtain ⟨b, k₁, a₁, a', hentry, hspec, -⟩ := h.refines hop hrun
      obtain rfl : b = false := (Op.invokes_eq hentry).symm.trans hkeeps
      have hsame : a₁ = a := by
        simp only [Spec.entry] at hspec
        split at hspec
        · exact (Prod.mk.inj (Option.some.inj hspec)).2.symm
        · split_ifs at hspec
          · exact (Prod.mk.inj (Option.some.inj hspec)).2.symm
          · cases (Prod.mk.inj (Option.some.inj hspec)).1
      subst hsame
      exact h.inEpoch_idle he hop hrun hspec rfl rfl (fun _ _ ↦ rfl) (fun _ _ ↦ rfl) fun _ _ ↦ rfl
  | signal pid f =>
      have hpid : ∀ p ∈ R, ((a.pcb p).pid : Int) ≠ pid := by
        rw [← h.sim.globals]
        exact hkeeps
      have hother : ∀ p ∈ R, ((a.toGlobals.syscallSendSignal pid f).2.pcb p) = a.pcb p := by
        intro p hp
        unfold Globals.syscallSendSignal
        cases hs : a.searchProcess pid with
        | none => rfl
        | some x =>
            have hne : p ≠ x := by
              rintro rfl
              exact hpid p hp (h.inv.table.searchProcess_eq_some.mp hs).2
            exact a.toGlobals.modifyPcb_pcb_of_ne (fun b ↦ b.raiseSignal f) hne
      exact h.inEpoch_idle he hop hrun rfl rfl rfl (fun p hp ↦ congrArg PCB.priority (hother p hp))
        (fun p hp ↦ congrArg PCB.pendingSignals (hother p hp))
        fun p hp ↦ congrArg PCB.counter (hother p hp)
  | setParam pid param value =>
      have hpid : ∀ p ∈ R, param = Globals.SCHED_PARAM_PRIORITY → ((a.pcb p).pid : Int) ≠ pid := by
        rw [← h.sim.globals]
        exact fun p hp hparam ↦ hkeeps hparam p hp
      exact h.inEpoch_idle he hop hrun rfl rfl rfl
        (fun p hp ↦ Spec.setParam_priority h.inv.table (hpid p hp))
        (fun p _ ↦ Spec.setParam_field (fun _ _ _ _ _ ↦ rfl) a.toGlobals pid param value p)
        fun p _ ↦ Spec.setParam_field (fun _ _ _ _ _ ↦ rfl) a.toGlobals pid param value p
  | add | wake | yield | block | exit => exact hkeeps.elim

end Sound

/-! ## Runs -/

theorem chargedSoFar_length (prio : PcbPtr → Nat) (served : List PcbPtr) (used : Nat) (p : PcbPtr) :
    (chargedSoFar prio served used p).length = (served.map prio).sum + used := by
  rw [chargedSoFar, List.length_append, List.length_flatMap, List.length_replicate]
  simp only [List.length_replicate]

/-- What is left of an epoch is charged later. -/
theorem InEpoch.length_lt {R served waiting : List PcbPtr} {prio : PcbPtr → Nat} {used : Nat}
    {a : Kernel Lists} (h : InEpoch R prio served waiting used a) :
    (chargedSoFar prio served used a.currentProcess).length < (R.map prio).sum := by
  have hsum := (h.all.map prio).sum_nat
  have hused := h.current
  have hleft := h.left
  simp only [List.map_cons, List.map_append, List.sum_cons, List.sum_append] at hsum
  rw [chargedSoFar_length]
  omega

/-- In an order of the processes each of them has its block. -/
theorem count_blocks {order R : List PcbPtr} (horder : order.Perm R) (hnodup : R.Nodup)
    (prio : PcbPtr → Nat) {p : PcbPtr} (hp : p ∈ R) :
    (order.flatMap fun x ↦ List.replicate (prio x) x).count p = prio p := by
  have hother : ∀ {l : List PcbPtr}, p ∉ l →
      (l.flatMap fun x ↦ List.replicate (prio x) x).count p = 0 := by
    intro l hl
    refine List.count_eq_zero.mpr fun hmem ↦ hl ?_
    obtain ⟨x, hx, hmem⟩ := List.mem_flatMap.mp hmem
    exact (List.eq_of_mem_replicate hmem) ▸ hx
  obtain ⟨pre, post, rfl⟩ := List.append_of_mem (horder.symm.subset hp)
  have hsplit := horder.nodup_iff.mpr hnodup
  rw [List.nodup_middle, List.nodup_cons, List.mem_append, not_or] at hsplit
  rw [List.flatMap_append, List.flatMap_cons, List.count_append, List.count_append,
    hother hsplit.1.1, hother hsplit.1.2, List.count_replicate_self, Nat.zero_add, Nat.add_zero]

namespace Sound

variable {k : Kernel Pointers} {a : Kernel Lists} {R served waiting : List PcbPtr}
  {prio : PcbPtr → Nat} {used : Nat}

/-- A run that starts during an epoch. -/
theorem epochs_run (h : Sound k a) (he : InEpoch R prio served waiting used a)
    {steps : List (Op × Kernel Pointers)} (hsteps : Follows k steps)
    (hkeeps : Along (Op.KeepsRunning R) k steps) {charged : List PcbPtr}
    (hcharged : chargedSoFar prio served used k.currentProcess = charged) :
    (∀ epoch ∈ (epochs R charged k steps).1, ∃ order : List PcbPtr, order.Perm R ∧
        epoch = order.flatMap fun p ↦ List.replicate (prio p) p) ∧
      (epochs R charged k steps).2.length < (R.map prio).sum := by
  induction steps generalizing k a served waiting used charged with
  | nil =>
      refine ⟨nofun, ?_⟩
      rw [epochs, ← hcharged, h.sim.globals]
      exact he.length_lt
  | cons s steps ih =>
      obtain ⟨op, k'⟩ := s
      obtain ⟨hop, hrun, hsteps⟩ := hsteps
      obtain ⟨hop', hkeeps⟩ := hkeeps
      obtain ⟨a', served', waiting', used', h', he', hcase⟩ := h.inEpoch he hop hrun hop'
      subst hcharged
      rw [epochs]
      obtain ⟨hgoes, hsame⟩ | ⟨hends, hnew, order, horder, hblocks⟩ := hcase
      · rw [hgoes]
        exact ih h' he' hsteps hkeeps hsame
      · rw [hends, hblocks]
        obtain ⟨hdone, hrest⟩ := ih h' he' hsteps hkeeps hnew
        refine ⟨fun epoch hepoch ↦ ?_, hrest⟩
        rcases List.mem_cons.mp hepoch with rfl | hepoch
        · exact ⟨order, horder, rfl⟩
        · exact hdone epoch hepoch

end Sound

/-- Under priority aging, from a scheduler invocation that finds the slices of all runnable
processes `R` used up, and as long as these only run.  Every epoch that is over has charged each
process its priority, without interruption; so after `E` epochs each has been charged `E` times its
priority. Epochs follow each other without a gap, and each is over after as many ticks as the
priorities add up to. -/
theorem aging_proportional {k : Kernel Pointers} (h : Reachable k)
    (halg : k.activeAlgorithm = .priorityAging) {op : Op} (hop : op.Enabled k.toGlobals)
    {k₁ : Kernel Pointers} (hentry : op.entry k = some (true, k₁)) {R : List PcbPtr}
    (hR : ((k₁.mapGlobals (·.preemptDisable)).parkFifo).Queue .readyQueue R)
    (hover : ∀ p ∈ R, (k₁.pcb p).counter = 0) (hsignals : ∀ p ∈ R, (k₁.pcb p).pendingSignals = 0)
    {k' : Kernel Pointers} (hrun : op.run k = some k') {steps : List (Op × Kernel Pointers)}
    (hsteps : Follows k' steps) (hkeeps : Along (Op.KeepsRunning R) k' steps)
    {done : List (List PcbPtr)} {rest : List PcbPtr}
    (hepochs : epochs R [] k' steps = (done, rest)) :
    (R ≠ [] → ∀ epoch ∈ done, ∃ order : List PcbPtr, order.Perm R ∧
      epoch = order.flatMap fun p ↦ List.replicate (k₁.pcb p).priority.toNat p) ∧
    (∀ p ∈ R, (done.flatten.count p : Int) = done.length * (k₁.pcb p).priority) ∧
    done.flatten ++ rest = charges k' steps ∧
    (R ≠ [] → done.length = (charges k' steps).length /
      (R.map fun p ↦ (k₁.pcb p).priority.toNat).sum) := by
  have hcut := epochs_charges R [] k' steps
  rw [hepochs, List.nil_append] at hcut
  dsimp only at hcut
  by_cases hne : R = []
  · subst hne
    exact ⟨fun hne ↦ absurd rfl hne, nofun, hcut, fun hne ↦ absurd rfl hne⟩
  obtain ⟨a, ha⟩ := h.sound
  obtain ⟨b, k₁', a₁, a', hentry', hspec, hsim, ha₁, -, hcont, -, h'⟩ := ha.refines hop hrun
  obtain ⟨rfl, rfl⟩ := Prod.mk.inj (Option.some.inj (hentry'.symm.trans hentry))
  rw [ha.sim.globals] at halg
  have halg₁ : a₁.activeAlgorithm = .priorityAging := (Spec.entry_activeAlgorithm hspec).trans halg
  -- `R` is the ready queue of the choice
  have hsel := Spec.parked_selectable ha₁
  have hparked := (hsim.mapGlobals (·.preemptDisable)).parkFifo ha₁.schedulable
    (congrArg (fun x ↦ (Algorithm.descriptor x).enqueue) halg₁)
  obtain rfl : (Spec.parked a₁).queues .readyQueue = R :=
    (hparked.queues.chain .readyQueue).unique hR
  rw [hsim.globals] at hover hsignals ⊢
  have hprio : ∀ p ∈ (Spec.parked a₁).queues .readyQueue,
      (a₁.pcb p).priority = ((a₁.pcb p).priority.toNat : Int) := by
    intro p hp
    have hpos := (hsel.known _ p hp).2
    rw [Spec.parked_field a₁ PCB.priority (fun _ _ ↦ rfl) (fun _ _ ↦ rfl)] at hpos
    omega
  have hstart : ∃ waiting, InEpoch ((Spec.parked a₁).queues .readyQueue)
      (fun p ↦ (a₁.pcb p).priority.toNat) [] waiting 0 a' :=
    InEpoch.start ha₁ (hsel.nodup _) (List.Perm.refl _) hne rfl halg₁ hprio hsignals hover hcont
  obtain ⟨waiting, he⟩ := hstart
  obtain ⟨hblocks, hrest⟩ := h'.epochs_run he hsteps hkeeps rfl
  have hnil : chargedSoFar (fun p ↦ (a₁.pcb p).priority.toNat) [] 0 k'.currentProcess = [] := rfl
  rw [hnil, hepochs] at hblocks hrest
  dsimp only at hblocks hrest
  refine ⟨fun _ ↦ hblocks, fun p hp ↦ ?_, hcut, fun _ ↦ ?_⟩
  · -- each epoch has one block of `p`
    have hcount : ∀ epoch ∈ done, epoch.count p = (a₁.pcb p).priority.toNat := by
      intro epoch hepoch
      obtain ⟨order, horder, rfl⟩ := hblocks epoch hepoch
      exact count_blocks horder (hsel.nodup _) _ hp
    rw [List.count_flatten, List.map_congr_left hcount, List.map_const', List.sum_replicate_nat,
      Nat.cast_mul, ← hprio p hp]
  · have hlength : ∀ epoch ∈ done, epoch.length =
        (((Spec.parked a₁).queues .readyQueue).map fun p ↦ (a₁.pcb p).priority.toNat).sum := by
      intro epoch hepoch
      obtain ⟨order, horder, rfl⟩ := hblocks epoch hepoch
      rw [List.length_flatMap]
      simp only [List.length_replicate]
      exact (horder.map _).sum_nat
    have htotal := congrArg List.length hcut
    rw [List.length_append, List.length_flatten, List.map_congr_left hlength, List.map_const',
      List.sum_replicate_nat] at htotal
    rw [← htotal, Nat.mul_comm, Nat.mul_add_div (Nat.zero_lt_of_lt hrest),
      Nat.div_eq_of_lt hrest, Nat.add_zero]

/-- Two children of priorities 1 and 3 have dropped their first slices.  After nine ticks two epochs
are over, and the second child has had six ticks. -/
theorem aging_proportional_pair : ∃ k k₁ k' steps done rest,
    runAll [.add (.page 0) (childOfInit 1), .add (.page 1) (childOfInit 2),
      .setParam 2 Globals.SCHED_PARAM_PRIORITY 3, .tick, .yield]
      (Kernel.boot .priorityAging fun _ ↦ 0) = some k ∧
    Op.yield.entry k = some (true, k₁) ∧ Op.yield.run k = some k' ∧
    trace (List.replicate 9 .tick) k' = some steps ∧
    epochs [.page 0, .page 1] [] k' steps = (done, rest) ∧
    done.length = 2 ∧ (done.flatten.count (.page 1) : Int) = 2 * 3 := by
  have hrun : (runAll [.add (.page 0) (childOfInit 1), .add (.page 1) (childOfInit 2),
      .setParam 2 Globals.SCHED_PARAM_PRIORITY 3, .tick, .yield]
      (Kernel.boot .priorityAging fun _ ↦ 0)).any (fun k ↦
        k.activeAlgorithm = .priorityAging ∧
        (Op.yield.entry k).any (fun r ↦ r.1 = true ∧
          ((r.2.mapGlobals (·.preemptDisable)).parkFifo).Queue .readyQueue [.page 0, .page 1] ∧
          (∀ p ∈ [PcbPtr.page 0, .page 1], (r.2.pcb p).counter = 0) ∧
          (∀ p ∈ [PcbPtr.page 0, .page 1], (r.2.pcb p).pendingSignals = 0) ∧
          (r.2.pcb (.page 1)).priority = 3 ∧
          (Op.yield.run k).any fun k' ↦
            (trace (List.replicate 9 .tick) k').any fun steps ↦
              Along (Op.KeepsRunning [.page 0, .page 1]) k' steps ∧
              (epochs [.page 0, .page 1] [] k' steps).1.length = 2)) = true := by
    decide +kernel
  obtain ⟨k, hk, hspec⟩ := (Option.any_eq_true _ _).mp hrun
  obtain ⟨halg, hentry⟩ := of_decide_eq_true hspec
  obtain ⟨⟨b, k₁⟩, hentry, hspec⟩ := (Option.any_eq_true _ _).mp hentry
  obtain ⟨rfl, hR, hover, hsignals, hprio, hyield⟩ := of_decide_eq_true hspec
  obtain ⟨k', hk', htrace⟩ := (Option.any_eq_true _ _).mp hyield
  obtain ⟨steps, hsteps, hspec⟩ := (Option.any_eq_true _ _).mp htrace
  obtain ⟨hkeeps, hlength⟩ := of_decide_eq_true hspec
  have hreach := (reachable_boot .priorityAging fun _ ↦ 0).runAll hk
  have hop : Op.yield.Enabled k.toGlobals := trivial
  have hfollows := (hreach.step hop hk').follows_trace hsteps
  obtain ⟨-, hcount, -, -⟩ :=
    aging_proportional hreach halg hop hentry hR hover hsignals hk' hfollows hkeeps rfl
  have hsecond := hcount (.page 1) (by simp)
  rw [hprio, hlength] at hsecond
  exact ⟨k, k₁, k', steps, _, _, hk, hentry, hk', hsteps, rfl, hlength, hsecond⟩

end DemosOS
