import DemosOS.Sched.Select

/-!
# The invariant of the scheduler

`Inv a` ties the ready queues to the process states: the queues are tidy, a process
of the table other than init is queued exactly when it is `READY`, and only the
current process can be `RUNNING`.  Inside an operation the current process may be in
any state but `READY`; between two operations it is `RUNNING` (`Settled`).

The theorem about a scheduler invocation, `Inv.pickNext`, is the centre of the
development: it ends, it re-establishes the invariant, and it treats every process
in one of five ways (`Turn`).  What the single operations do around an invocation is
in `DemosOS.Sched.Runs`.
-/

namespace DemosOS

/-- The states init can be in: it neither waits nor terminates. -/
def ProcessState.IsIdle (s : ProcessState) : Prop := s = .unset ∨ s = .ready ∨ s = .running

theorem ProcessState.IsIdle.not_isWaiting {s : ProcessState} (h : s.IsIdle) : ¬ s.IsWaiting := by
  rcases h with rfl | rfl | rfl <;> exact id

/-! ## What scheduling does not touch -/

/-- The part of a control block that scheduling never writes. -/
def PCB.frozen (b : PCB) : PCB :=
  { b with
    state := .unset
    counter := 0
    estBurst := 0
    burstTicks := 0
    preemptDisabled := 0
    pendingSignals := 0 }

/-- The part of the kernel's data that scheduling never writes: everything but the
scheduling state of the processes, `current_process`, the levels and the generator. -/
def Globals.frozen (g : Globals) : Globals :=
  { g with
    pcb := fun p ↦ (g.pcb p).frozen
    currentProcess := .initProcess
    queueLevel := fun _ ↦ 0
    mlTicksSinceBoost := 0
    lotteryRngState := 0
    timerClo := fun _ ↦ 0 }

namespace Globals

variable {g g' : Globals}

theorem frozen_of_static (h : g'.static = g.static) : g'.frozen = g.frozen := by
  have hfrozen := congrArg Globals.frozen h
  exact hfrozen

theorem frozen_modifyPcb (g : Globals) (p : PcbPtr) {f : PCB → PCB}
    (hf : ∀ b, (f b).frozen = b.frozen) : (g.modifyPcb p f).frozen = g.frozen := by
  unfold Globals.frozen
  simp only [Globals.modifyPcb]
  congr 1
  funext x
  exact g.modifyPcb_field p x f PCB.frozen hf

theorem frozen_setState (g : Globals) (p : PcbPtr) (s : ProcessState) :
    (g.setState p s).frozen = g.frozen := g.frozen_modifyPcb p fun _ ↦ rfl

theorem frozen_setCounter (g : Globals) (p : PcbPtr) (c : Int) :
    (g.setCounter p c).frozen = g.frozen := g.frozen_modifyPcb p fun _ ↦ rfl

theorem frozen_preemptDisable (g : Globals) : g.preemptDisable.frozen = g.frozen :=
  g.frozen_modifyPcb _ fun _ ↦ rfl

theorem frozen_preemptEnable (g : Globals) : g.preemptEnable.frozen = g.frozen :=
  g.frozen_modifyPcb _ fun _ ↦ rfl

section

variable (h : g'.frozen = g.frozen)
include h

theorem processes_of_frozen : g'.processes = g.processes := by
  have hproc := congrArg Globals.processes h
  exact hproc

theorem nProcesses_of_frozen : g'.nProcesses = g.nProcesses := by
  have hn := congrArg Globals.nProcesses h
  exact hn

theorem activeAlgorithm_of_frozen : g'.activeAlgorithm = g.activeAlgorithm := by
  have halg := congrArg Globals.activeAlgorithm h
  exact halg

/-- A field of the control blocks that scheduling does not write. -/
theorem field_of_frozen {α : Type} (π : PCB → α) (hπ : ∀ b, π b.frozen = π b) (p : PcbPtr) :
    π (g'.pcb p) = π (g.pcb p) := by
  have hp := congrArg (fun s ↦ π (Globals.pcb s p)) h
  rw [← hπ (g'.pcb p), ← hπ (g.pcb p)]
  exact hp

theorem known_of_frozen (p : PcbPtr) : g'.Known p ↔ g.Known p := by
  simp only [Known, processes_of_frozen h]

theorem Table.of_frozen (ht : g.Table) : g'.Table := by
  have hproc := processes_of_frozen h
  have hn := nProcesses_of_frozen h
  refine ⟨fun {i p} hi ↦ ?_, fun hi ↦ ?_, ?_, ?_⟩
  · rw [hn, field_of_frozen h PCB.pid (fun _ ↦ rfl)]
    exact ht.slot (hproc ▸ hi)
  · rw [hproc]
    exact ht.filled (hn ▸ hi)
  · rw [hproc]
    exact ht.init
  · rw [hn]
    exact ht.bound

end

/-! ## The context switch -/

/-- The three ways through `switch_to_process`. -/
theorem switchToProcess_cases (g : Globals) (next : PcbPtr) :
    (g.currentProcess = next ∧ g.switchToProcess next = g.setState next .running) ∨
    (g.currentProcess ≠ next ∧ (g.pcb g.currentProcess).state = .running ∧
      g.switchToProcess next =
        { (g.setState next .running).setState g.currentProcess .ready with
          currentProcess := next }) ∨
    (g.currentProcess ≠ next ∧ (g.pcb g.currentProcess).state ≠ .running ∧
      g.switchToProcess next = { g.setState next .running with currentProcess := next }) := by
  have hcur : (g.setState next .running).currentProcess = g.currentProcess := rfl
  by_cases h : g.currentProcess = next
  · exact .inl ⟨h, by simp only [switchToProcess, hcur, h, if_true]⟩
  have hpcb : (g.setState next .running).pcb g.currentProcess = g.pcb g.currentProcess :=
    modifyPcb_pcb_of_ne _ _ h
  by_cases hrun : (g.pcb g.currentProcess).state = .running
  · exact .inr (.inl ⟨h, hrun, by simp only [switchToProcess, hcur, h, hpcb, hrun, if_true,
      if_false]⟩)
  · exact .inr (.inr ⟨h, hrun, by simp only [switchToProcess, hcur, h, hpcb, hrun, if_false]⟩)

theorem frozen_dispatch (g : Globals) (next : PcbPtr) : (g.dispatch next).frozen = g.frozen := by
  rw [dispatch, frozen_preemptEnable]
  obtain ⟨-, hs⟩ | ⟨-, -, hs⟩ | ⟨-, -, hs⟩ := g.switchToProcess_cases next
  · rw [hs, frozen_setState]
  · rw [hs]
    exact (frozen_setState _ _ _).trans (g.frozen_setState next .running)
  · rw [hs]
    exact g.frozen_setState next .running

@[simp] theorem dispatch_currentProcess (g : Globals) (next : PcbPtr) :
    (g.dispatch next).currentProcess = next := by
  rw [dispatch, preemptEnable, modifyPcb_currentProcess]
  obtain ⟨hcur, hs⟩ | ⟨-, -, hs⟩ | ⟨-, -, hs⟩ := g.switchToProcess_cases next
  · rw [hs]
    exact hcur
  · rw [hs]
  · rw [hs]

@[simp] theorem dispatch_queueLevel (g : Globals) (next : PcbPtr) :
    (g.dispatch next).queueLevel = g.queueLevel := by
  rw [dispatch, preemptEnable, modifyPcb_queueLevel]
  obtain ⟨-, hs⟩ | ⟨-, -, hs⟩ | ⟨-, -, hs⟩ := g.switchToProcess_cases next <;> rw [hs] <;> rfl

@[simp] theorem dispatch_mlTicksSinceBoost (g : Globals) (next : PcbPtr) :
    (g.dispatch next).mlTicksSinceBoost = g.mlTicksSinceBoost := by
  rw [dispatch, preemptEnable, modifyPcb_mlTicksSinceBoost]
  obtain ⟨-, hs⟩ | ⟨-, -, hs⟩ | ⟨-, -, hs⟩ := g.switchToProcess_cases next <;> rw [hs] <;> rfl

/-- The dispatched process is `RUNNING` and comes out of its critical section. -/
theorem dispatch_pcb_self (g : Globals) (next : PcbPtr) :
    (g.dispatch next).pcb next = { g.pcb next with
      state := .running, preemptDisabled := (g.pcb next).preemptDisabled - 1 } := by
  have hcur : (g.switchToProcess next).currentProcess = next := g.dispatch_currentProcess next
  have hpcb : (g.switchToProcess next).pcb next = { g.pcb next with state := .running } := by
    obtain ⟨-, hs⟩ | ⟨h, -, hs⟩ | ⟨-, -, hs⟩ := g.switchToProcess_cases next
    · simp [hs, setState]
    · simp [hs, setState, h.symm]
    · simp [hs, setState]
  rw [dispatch, preemptEnable, hcur, modifyPcb_pcb_self, hpcb]

/-- A switch does not touch a third process, nor an outgoing one that is not
`RUNNING` any more. -/
theorem dispatch_pcb_of_ne {g : Globals} {next x : PcbPtr} (hx : x ≠ next)
    (hstate : x = g.currentProcess → (g.pcb x).state ≠ .running) :
    (g.dispatch next).pcb x = g.pcb x := by
  have hcur : (g.switchToProcess next).currentProcess = next := g.dispatch_currentProcess next
  have hpcb : (g.switchToProcess next).pcb x = g.pcb x := by
    obtain ⟨-, hs⟩ | ⟨h, hrun, hs⟩ | ⟨-, -, hs⟩ := g.switchToProcess_cases next
    · simp [hs, setState, hx]
    · have hxc : x ≠ g.currentProcess := by
        rintro rfl
        exact hstate rfl hrun
      simp [hs, setState, hx, hxc]
    · simp [hs, setState, hx]
  rw [dispatch, preemptEnable, hcur, modifyPcb_pcb_of_ne _ _ hx, hpcb]

/-- A switch changes states and the preemption counter only. -/
theorem dispatch_field {α : Type} (g : Globals) (next : PcbPtr) (π : PCB → α)
    (hstate : ∀ (b : PCB) (s : ProcessState), π { b with state := s } = π b)
    (hpre : ∀ (b : PCB) (n : Int), π { b with preemptDisabled := n } = π b) (p : PcbPtr) :
    π ((g.dispatch next).pcb p) = π (g.pcb p) := by
  have hswitch : π ((g.switchToProcess next).pcb p) = π (g.pcb p) := by
    unfold switchToProcess
    dsimp only
    split_ifs
    · exact g.setState_field next _ π hstate p
    · exact (setState_field _ _ _ π hstate p).trans (g.setState_field next _ π hstate p)
    · exact g.setState_field next _ π hstate p
  unfold dispatch preemptEnable
  exact (modifyPcb_field _ _ _ _ π fun b ↦ hpre b _).trans hswitch

/-- A switch leaves init in one of its states. -/
theorem dispatch_isIdle (g : Globals) (next : PcbPtr) (h : (g.pcb .initProcess).state.IsIdle) :
    ((g.dispatch next).pcb .initProcess).state.IsIdle := by
  by_cases hnext : .initProcess = next
  · subst hnext
    rw [dispatch_pcb_self]
    exact .inr (.inr rfl)
  · have hcur : (g.switchToProcess next).currentProcess = next := g.dispatch_currentProcess next
    rw [dispatch, preemptEnable, hcur, modifyPcb_pcb_of_ne _ _ hnext]
    obtain ⟨-, hs⟩ | ⟨-, -, hs⟩ | ⟨-, -, hs⟩ := g.switchToProcess_cases next
    · simpa [hs, setState, hnext] using h
    · by_cases hcur : .initProcess = g.currentProcess
      · right; left
        simp [hs, setState, ← hcur]
      · simpa [hs, setState, hnext, hcur] using h
    · simpa [hs, setState, hnext] using h

end Globals

/-! ## Insertion -/

namespace Spec

variable {a : Kernel Lists} {p : PcbPtr}

/-- Insertion adds one process and keeps the others. -/
theorem insert_perm (g : Globals) (p : PcbPtr) (l : List PcbPtr) :
    (insert g p l).Perm (p :: l) := by
  unfold insert insertSorted
  split
  · refine List.perm_middle.trans (List.Perm.cons p ?_)
    rw [List.takeWhile_append_dropWhile]
  · exact List.perm_append_singleton p l
  · exact List.perm_append_singleton p l

theorem enqueue_pcb (hp : p ≠ .initProcess) :
    (enqueue p a).pcb = (a.toGlobals.setState p .ready).pcb := by
  rw [enqueue, if_neg hp]

theorem enqueue_queues (hp : p ≠ .initProcess) :
    (enqueue p a).queues = Function.update a.queues (targetQueue a.toGlobals p)
      (insert a.toGlobals p (a.queues (targetQueue a.toGlobals p))) := by
  rw [enqueue, if_neg hp]

theorem frozen_enqueue (p : PcbPtr) (a : Kernel Lists) : (enqueue p a).frozen = a.frozen := by
  unfold enqueue
  split_ifs
  · rfl
  · exact a.toGlobals.frozen_setState p .ready

@[simp] theorem enqueue_queueLevel (p : PcbPtr) (a : Kernel Lists) :
    (enqueue p a).queueLevel = a.queueLevel := by
  unfold enqueue
  split_ifs <;> rfl

@[simp] theorem enqueue_currentProcess (p : PcbPtr) (a : Kernel Lists) :
    (enqueue p a).currentProcess = a.currentProcess := by
  unfold enqueue
  split_ifs <;> rfl

@[simp] theorem enqueue_mlTicksSinceBoost (p : PcbPtr) (a : Kernel Lists) :
    (enqueue p a).mlTicksSinceBoost = a.mlTicksSinceBoost := by
  unfold enqueue
  split_ifs <;> rfl

theorem mem_enqueue (hp : p ≠ .initProcess) {x : PcbPtr} {q : QueueId} :
    x ∈ (enqueue p a).queues q ↔
      x ∈ a.queues q ∨ (x = p ∧ q = targetQueue a.toGlobals p) := by
  rw [enqueue_queues hp]
  by_cases hq : q = targetQueue a.toGlobals p
  · subst hq
    simp only [Function.update_self, (insert_perm ..).mem_iff, List.mem_cons, and_true]
    exact or_comm
  · simp [hq]

/-- Enqueueing a process that is in no queue keeps the queues tidy. -/
theorem enqueue_tidy (ha : Tidy a) (hp : p ≠ .initProcess) (hfree : ∀ q, p ∉ a.queues q) :
    Tidy (enqueue p a) where
  nodup q := by
    rw [enqueue_queues hp]
    by_cases hq : q = targetQueue a.toGlobals p
    · subst hq
      rw [Function.update_self, (insert_perm ..).nodup_iff]
      exact List.nodup_cons.mpr ⟨hfree _, ha.nodup _⟩
    · rw [Function.update_of_ne hq]
      exact ha.nodup q
  disjoint q q' x hx hx' := by
    rw [mem_enqueue hp] at hx hx'
    rcases hx with hx | ⟨rfl, hq⟩
    · rcases hx' with hx' | ⟨rfl, -⟩
      · exact ha.disjoint q q' x hx hx'
      · exact absurd hx (hfree q)
    · rcases hx' with hx' | ⟨-, hq'⟩
      · exact absurd hx' (hfree q')
      · rw [hq, hq']
  ready q x hx := by
    rw [enqueue_pcb hp]
    by_cases hxp : x = p
    · simp [hxp, Globals.setState]
    · rcases (mem_enqueue hp).mp hx with hx | ⟨rfl, -⟩
      · simpa [Globals.setState, hxp] using ha.ready q x hx
      · exact absurd rfl hxp
  init q hq := by
    rcases (mem_enqueue hp).mp hq with hq | ⟨rfl, -⟩
    · exact ha.init q hq
    · exact hp rfl

end Spec

/-! ## The invariant -/

/-- The invariant of the scheduler. -/
structure Inv (a : Kernel Lists) : Prop extends Tidy a where
  table : a.Table
  known : ∀ q, ∀ p ∈ a.queues q, a.Known p
  priority : ∀ p, a.Known p → 1 ≤ (a.pcb p).priority
  queued : ∀ p, a.Known p → p ≠ .initProcess → (a.pcb p).state = .ready → ∃ q, p ∈ a.queues q
  running : ∀ p, a.Known p → p ≠ .initProcess → (a.pcb p).state = .running → p = a.currentProcess
  current : a.Known a.currentProcess
  currentState : a.currentProcess ≠ .initProcess → a.current.state ≠ .ready
  level : ∀ i, a.queueLevel i < ML_MAX_LEVELS
  queueExists : ∀ l, a.queues (.mlQueues l) ≠ [] → l < ML_MAX_LEVELS
  initState : (a.pcb .initProcess).state.IsIdle

/-- Between two operations the current process, if it is not init, is `RUNNING`. -/
def Settled (g : Globals) : Prop :=
  g.currentProcess ≠ .initProcess → g.current.state = .running

/-- The process takes part in the next choice. -/
def Runnable (a : Kernel Lists) (p : PcbPtr) : Prop :=
  (∃ q, p ∈ a.queues q) ∨ (p = a.currentProcess ∧ p ≠ .initProcess ∧ (a.pcb p).state = .running)

namespace Inv

variable {a : Kernel Lists}

/-- The running process is in no queue. -/
theorem current_free (ha : Inv a) (h : a.currentProcess ≠ .initProcess) (q : QueueId) :
    a.currentProcess ∉ a.queues q :=
  fun hq ↦ ha.currentState h (ha.ready q _ hq)

theorem length_le (ha : Inv a) (q : QueueId) : (a.queues q).length ≤ N_PROCESSES :=
  ha.table.length_le (ha.nodup q) (ha.known q)

end Inv

/-! ## Putting the running process back -/

namespace Spec

variable {a : Kernel Lists}

theorem preemptDisable_field {α : Type} (g : Globals) (π : PCB → α)
    (hπ : ∀ (b : PCB) (n : Int), π { b with preemptDisabled := n } = π b) (x : PcbPtr) :
    π (g.preemptDisable.pcb x) = π (g.pcb x) :=
  g.modifyPcb_field _ x _ π fun b ↦ hπ b _

theorem stillRunnable_preemptDisable (g : Globals) :
    g.preemptDisable.StillRunnable ↔ g.StillRunnable := by
  have hstate := preemptDisable_field g PCB.state (fun _ _ ↦ rfl) g.currentProcess
  rw [Globals.StillRunnable, Globals.StillRunnable]
  exact and_congr_right fun _ ↦ by
    rw [Globals.current, Globals.current]
    exact Eq.congr_left hstate

theorem targetQueue_preemptDisable (g : Globals) (p : PcbPtr) :
    targetQueue g.preemptDisable p = targetQueue g p := by
  have hpid := preemptDisable_field g PCB.pid (fun _ _ ↦ rfl) p
  unfold targetQueue
  rw [hpid]
  rfl

theorem parked_eq (a : Kernel Lists) :
    parked a = if a.StillRunnable then enqueue a.currentProcess (a.mapGlobals (·.preemptDisable))
      else a.mapGlobals (·.preemptDisable) := by
  rw [parked, park]
  exact if_congr (stillRunnable_preemptDisable a.toGlobals) rfl rfl

theorem frozen_parked (a : Kernel Lists) : (parked a).frozen = a.frozen := by
  rw [parked_eq]
  split_ifs
  · exact (frozen_enqueue ..).trans a.toGlobals.frozen_preemptDisable
  · exact a.toGlobals.frozen_preemptDisable

@[simp] theorem parked_queueLevel (a : Kernel Lists) : (parked a).queueLevel = a.queueLevel := by
  rw [parked_eq]
  split_ifs
  · exact enqueue_queueLevel ..
  · rfl

@[simp] theorem parked_currentProcess (a : Kernel Lists) :
    (parked a).currentProcess = a.currentProcess := by
  rw [parked_eq]
  split_ifs
  · exact enqueue_currentProcess ..
  · rfl

@[simp] theorem parked_mlTicksSinceBoost (a : Kernel Lists) :
    (parked a).mlTicksSinceBoost = a.mlTicksSinceBoost := by
  rw [parked_eq]
  split_ifs
  · exact enqueue_mlTicksSinceBoost ..
  · rfl

theorem mem_parked {x : PcbPtr} {q : QueueId} :
    x ∈ (parked a).queues q ↔ x ∈ a.queues q ∨
      (a.StillRunnable ∧ x = a.currentProcess ∧ q = targetQueue a.toGlobals a.currentProcess) := by
  rw [parked_eq]
  split_ifs with h
  · rw [mem_enqueue h.1, Kernel.mapGlobals_toGlobals, targetQueue_preemptDisable]
    simp [h]
  · simp [h]

/-- Parking changes states and the preemption counter only. -/
theorem parked_field {α : Type} (a : Kernel Lists) (π : PCB → α)
    (hstate : ∀ (b : PCB) (s : ProcessState), π { b with state := s } = π b)
    (hpre : ∀ (b : PCB) (n : Int), π { b with preemptDisabled := n } = π b) (p : PcbPtr) :
    π ((Spec.parked a).pcb p) = π (a.pcb p) := by
  have hpreempt := Spec.preemptDisable_field a.toGlobals π hpre p
  rw [Spec.parked_eq]
  split_ifs with h
  · rw [Spec.enqueue_pcb h.1, Globals.setState_field _ _ _ π hstate]
    exact hpreempt
  · exact hpreempt

/-- A process is queued after parking exactly when it takes part in the choice. -/
theorem queued_parked {x : PcbPtr} : (∃ q, x ∈ (parked a).queues q) ↔ Runnable a x := by
  simp only [mem_parked, exists_or, Runnable]
  refine or_congr_right ⟨?_, ?_⟩
  · rintro ⟨q, hrun, rfl, -⟩
    exact ⟨rfl, hrun.1, hrun.2⟩
  · rintro ⟨rfl, hinit, hstate⟩
    exact ⟨_, ⟨hinit, hstate⟩, rfl, rfl⟩

/-- Parking makes the running process `READY` if it stays runnable. -/
theorem parked_state (x : PcbPtr) : ((parked a).pcb x).state =
    if a.StillRunnable ∧ x = a.currentProcess then .ready else (a.pcb x).state := by
  have hstate := preemptDisable_field a.toGlobals PCB.state (fun _ _ ↦ rfl) x
  rw [parked_eq]
  split_ifs with h hx hx
  · rw [enqueue_pcb h.1, hx.2]
    simp [Globals.setState]
  · have hne : x ≠ a.currentProcess := fun e ↦ hx ⟨h, e⟩
    rw [enqueue_pcb h.1, Globals.setState, Globals.modifyPcb_pcb_of_ne _ _ hne]
    exact hstate
  · exact absurd hx.1 h
  · exact hstate

theorem parked_pendingSignals (x : PcbPtr) :
    ((parked a).pcb x).pendingSignals = (a.pcb x).pendingSignals := by
  have hsig := preemptDisable_field a.toGlobals PCB.pendingSignals (fun _ _ ↦ rfl) x
  rw [parked_eq]
  split_ifs with h
  · rw [enqueue_pcb h.1]
    exact (Globals.setState_field _ _ _ PCB.pendingSignals (fun _ _ ↦ rfl) x).trans hsig
  · exact hsig

/-- The choice is made in a state where every selection function ends. -/
theorem parked_selectable (ha : Inv a) : Selectable (parked a) := by
  have hfrozen := frozen_parked a
  have hdisabled : Tidy (a.mapGlobals (·.preemptDisable)) :=
    Search.tidy_mapGlobals ha.toTidy fun p ↦
      preemptDisable_field a.toGlobals PCB.state (fun _ _ ↦ rfl) p
  refine ⟨?_, ha.table.of_frozen hfrozen, fun q p hp ↦ ?_⟩
  · rw [parked_eq]
    split_ifs with h
    · exact enqueue_tidy hdisabled h.1 (ha.current_free h.1)
    · exact hdisabled
  · have hknown : a.Known p := by
      rcases mem_parked.mp hp with hp | ⟨-, rfl, -⟩
      · exact ha.known q p hp
      · exact ha.current
    refine ⟨(Globals.known_of_frozen hfrozen p).mpr hknown, ?_⟩
    rw [Globals.field_of_frozen hfrozen PCB.priority (fun _ ↦ rfl)]
    exact ha.priority p hknown

end Spec

/-- The hypotheses of the refinement theorem for an invocation. -/
theorem Inv.schedulable {a : Kernel Lists} (ha : Inv a) :
    Schedulable (a.mapGlobals (·.preemptDisable)) where
  searchable q := ⟨fun p hp ↦
    (Spec.preemptDisable_field a.toGlobals PCB.state (fun _ _ ↦ rfl) p).trans (ha.ready q p hp),
      ha.length_le q⟩
  free hrun q := ha.current_free ((Spec.stillRunnable_preemptDisable a.toGlobals).mp hrun).1 q
  parked q := ⟨(Spec.parked_selectable ha).ready q, (Spec.parked_selectable ha).length_le q⟩

/-! ## A scheduler invocation -/

/-- What a scheduler invocation that takes `a` to `a'` does to the process `p`. -/
inductive Turn (a a' : Kernel Lists) (p : PcbPtr) : Prop
  | /-- It is not runnable and nobody looks at it. -/
    away (hrun : ¬ Runnable a p) (hq : ∀ q, p ∉ a'.queues q) (hcur : p ≠ a'.currentProcess)
      (hstate : (a'.pcb p).state = (a.pcb p).state)
      (hsignals : (a'.pcb p).pendingSignals = (a.pcb p).pendingSignals)
  | /-- It waits for its turn. -/
    waits (hrun : Runnable a p) (q : QueueId) (hq : p ∈ a'.queues q)
      (hcur : p ≠ a'.currentProcess) (hstate : (a'.pcb p).state = .ready)
      (hkill : (a'.pcb p).hasSignal SIGNAL_KILL ↔ (a.pcb p).hasSignal SIGNAL_KILL)
      (hstop : (a'.pcb p).hasSignal SIGNAL_STOP ↔ (a.pcb p).hasSignal SIGNAL_STOP)
  | /-- It gets the processor. -/
    dispatched (hrun : Runnable a p) (hq : ∀ q, p ∉ a'.queues q) (hcur : p = a'.currentProcess)
      (hstate : (a'.pcb p).state = .running) (hsignals : (a'.pcb p).NoSignal)
      (hkill : ¬ (a.pcb p).hasSignal SIGNAL_KILL) (hstop : ¬ (a.pcb p).hasSignal SIGNAL_STOP)
  | /-- It is killed. -/
    killed (hrun : Runnable a p) (hq : ∀ q, p ∉ a'.queues q) (hcur : p ≠ a'.currentProcess)
      (hstate : (a'.pcb p).state = .zombie) (hkill : (a.pcb p).hasSignal SIGNAL_KILL)
  | /-- It is stopped. -/
    stopped (hrun : Runnable a p) (hq : ∀ q, p ∉ a'.queues q) (hcur : p ≠ a'.currentProcess)
      (hstate : (a'.pcb p).state = .stopped) (hkill : ¬ (a.pcb p).hasSignal SIGNAL_KILL)
      (hstop : (a.pcb p).hasSignal SIGNAL_STOP)

/-- The effect of a scheduler invocation. -/
structure Invocation (a a' : Kernel Lists) : Prop where
  frozen : a'.frozen = a.frozen
  queueLevel : a'.queueLevel = a.queueLevel
  mlTicksSinceBoost : a'.mlTicksSinceBoost = a.mlTicksSinceBoost
  sublist : ∀ q, (a'.queues q).Sublist ((Spec.parked a).queues q)
  current : Runnable a a'.currentProcess ∨ a'.currentProcess = .initProcess
  initState : (a.pcb .initProcess).state.IsIdle → (a'.pcb .initProcess).state.IsIdle
  turn : ∀ p, p ≠ .initProcess → Turn a a' p

namespace Search

variable {a a' : Kernel Lists} {next : Option PcbPtr}

/-- From the fate of a process in the search to its turn. -/
theorem turn (ha : Inv a) (h : Search (Spec.parked a) next a') {p : PcbPtr}
    (hp : p ≠ .initProcess) :
    Turn a (a'.mapGlobals (·.dispatch (next.getD .initProcess))) p := by
  have htidy := (Spec.parked_selectable ha).toTidy
  have htidy' := h.tidy htidy
  have hcur' : a'.currentProcess = a.currentProcess := by
    have hcur := congrArg Globals.currentProcess h.static
    exact hcur.trans (Spec.parked_currentProcess a)
  have hsig : ∀ s, ((Spec.parked a).pcb p).hasSignal s ↔ (a.pcb p).hasSignal s := fun s ↦ by
    simp only [PCB.hasSignal, Spec.parked_pendingSignals]
  have hnext : next ≠ some p → p ≠ next.getD .initProcess := by
    intro hne he
    cases next with
    | none => exact hp he
    | some x => exact hne (congrArg some he.symm)
  -- a process that is not chosen is left alone by the switch
  have hpcb : next ≠ some p → (p = a.currentProcess → (a'.pcb p).state ≠ .running) →
      (a'.mapGlobals (·.dispatch (next.getD .initProcess))).pcb p = a'.pcb p := fun hne hst ↦
    Globals.dispatch_pcb_of_ne (hnext hne) fun hc ↦ hst (hc.trans hcur')
  have hcurrent : next ≠ some p →
      p ≠ (a'.mapGlobals (·.dispatch (next.getD .initProcess))).currentProcess := by
    intro hne
    rw [Kernel.mapGlobals_toGlobals, Globals.dispatch_currentProcess]
    exact hnext hne
  cases h.fate htidy p with
  | away h₁ h₂ h₃ h₄ h₅ =>
      have hrun : ¬ Runnable a p := fun hr ↦ by
        obtain ⟨q, hq⟩ := Spec.queued_parked.mpr hr
        exact h₁ q hq
      have hstate : (a'.pcb p).state = (a.pcb p).state := by
        rw [h₄, Spec.parked_state, if_neg]
        rintro ⟨hst, rfl⟩
        exact hrun (.inr ⟨rfl, hst.1, hst.2⟩)
      have hsame := hpcb h₃ fun hc hst ↦ hrun (.inr ⟨hc, hp, hstate ▸ hst⟩)
      refine .away hrun h₂ (hcurrent h₃) ?_ ?_
      · rw [hsame, hstate]
      · rw [hsame, h₅, Spec.parked_pendingSignals]
  | kept q h₁ h₂ h₃ h₄ h₅ =>
      have hstate := htidy'.ready q p h₂
      have hsame := hpcb h₃ fun _ ↦ by rw [hstate]; simp
      refine .waits (Spec.queued_parked.mp ⟨q, h₁⟩) q h₂ (hcurrent h₃) ?_ ?_ ?_
      · rw [hsame, hstate]
      · rw [hsame, h₄, hsig]
      · rw [hsame, h₅, hsig]
  | chosen q h₁ h₂ h₃ h₄ h₅ h₆ h₇ =>
      subst h₃
      have hpcb' := Globals.dispatch_pcb_self a'.toGlobals p
      refine .dispatched (Spec.queued_parked.mp ⟨q, h₁⟩) h₂ ?_ ?_ ?_ (mt (hsig _).mpr h₄)
        (mt (hsig _).mpr h₅)
      · exact (Globals.dispatch_currentProcess ..).symm
      · exact congrArg PCB.state hpcb'
      · rw [Kernel.mapGlobals_toGlobals, Option.getD_some, hpcb']
        exact h₇
  | killed q h₁ h₂ h₃ h₄ h₅ =>
      have hsame := hpcb h₃ fun _ ↦ by rw [h₅]; simp
      exact .killed (Spec.queued_parked.mp ⟨q, h₁⟩) h₂ (hcurrent h₃) (by rw [hsame, h₅])
        ((hsig _).mp h₄)
  | stopped q h₁ h₂ h₃ h₄ h₅ h₆ =>
      have hsame := hpcb h₃ fun _ ↦ by rw [h₆]; simp
      exact .stopped (Spec.queued_parked.mp ⟨q, h₁⟩) h₂ (hcurrent h₃) (by rw [hsame, h₆])
        (mt (hsig _).mpr h₄) ((hsig _).mp h₅)

end Search

/-- A scheduler invocation ends, and this is what it does. -/
theorem Inv.pickNext {a : Kernel Lists} (ha : Inv a) :
    ∃ a', Spec.pickNext a = some a' ∧ Invocation a a' := by
  obtain ⟨next, a₁, hchoose, hsearch, -⟩ := Spec.choose_search (Spec.parked_selectable ha)
  have hstatic := hsearch.static
  have hlevel : a₁.queueLevel = (Spec.parked a).queueLevel := by
    have h := congrArg Globals.queueLevel hstatic
    exact h
  have hticks : a₁.mlTicksSinceBoost = (Spec.parked a).mlTicksSinceBoost := by
    have h := congrArg Globals.mlTicksSinceBoost hstatic
    exact h
  refine ⟨a₁.mapGlobals (·.dispatch (next.getD .initProcess)), ?_, ?_, ?_, ?_, hsearch.sublist,
    ?_, ?_, fun p hp ↦ hsearch.turn ha hp⟩
  · rw [Spec.pickNext, Spec.select, hchoose]
    rfl
  · exact (Globals.frozen_dispatch ..).trans ((Globals.frozen_of_static hstatic).trans
      (Spec.frozen_parked a))
  · simp [hlevel]
  · simp [hticks]
  · cases next with
    | none => exact .inr (Globals.dispatch_currentProcess ..)
    | some p =>
        left
        rw [Kernel.mapGlobals_toGlobals, Globals.dispatch_currentProcess, Option.getD_some,
          ← Spec.queued_parked]
        cases hsearch.fate (Spec.parked_selectable ha).toTidy p with
        | away _ _ h => exact absurd rfl h
        | kept q h => exact ⟨q, h⟩
        | chosen q h => exact ⟨q, h⟩
        | killed q h => exact ⟨q, h⟩
        | stopped q h => exact ⟨q, h⟩
  · intro hidle
    refine Globals.dispatch_isIdle _ _ ?_
    cases hsearch.fate (Spec.parked_selectable ha).toTidy .initProcess with
    | away _ _ _ hstate =>
        rw [hstate, Spec.parked_state]
        split_ifs
        · exact .inr (.inl rfl)
        · exact hidle
    | kept q h => exact absurd h ((Spec.parked_selectable ha).init q)
    | chosen q h => exact absurd h ((Spec.parked_selectable ha).init q)
    | killed q h => exact absurd h ((Spec.parked_selectable ha).init q)
    | stopped q h => exact absurd h ((Spec.parked_selectable ha).init q)

namespace Invocation

variable {a a' : Kernel Lists}

/-- Whoever is current after an invocation was dispatched by it. -/
theorem current_running (h : Invocation a a') (hinit : a'.currentProcess ≠ .initProcess) :
    a'.current.state = .running := by
  cases h.turn _ hinit with
  | away _ _ hcur => exact absurd rfl hcur
  | waits _ _ _ hcur => exact absurd rfl hcur
  | dispatched _ _ _ hstate => exact hstate
  | killed _ _ hcur => exact absurd rfl hcur
  | stopped _ _ hcur => exact absurd rfl hcur

theorem settled (h : Invocation a a') : Settled a'.toGlobals := h.current_running

theorem runnable_known (ha : Inv a) {p : PcbPtr} (hp : Runnable a p) : a.Known p := by
  rcases hp with ⟨q, hq⟩ | ⟨rfl, -⟩
  · exact ha.known q p hq
  · exact ha.current

/-- An invocation re-establishes the invariant. -/
theorem inv (ha : Inv a) (h : Invocation a a') : Inv a' := by
  have hsel := Spec.parked_selectable ha
  have hknown := Globals.known_of_frozen h.frozen
  have hne : ∀ {q p}, p ∈ a'.queues q → p ≠ .initProcess := fun hp e ↦
    hsel.init _ (e ▸ (h.sublist _).subset hp)
  refine ⟨⟨fun q ↦ ?nodup, fun q q' p hp hp' ↦ ?disjoint, fun q p hp ↦ ?ready, fun q hq ↦ ?init⟩,
    ha.table.of_frozen h.frozen, fun q p hp ↦ ?known, fun p hp ↦ ?priority,
    fun p hp hinit hstate ↦ ?queued, fun p hp hinit hstate ↦ ?running, ?current,
    fun hinit ↦ ?currentState, fun i ↦ ?level, fun l hl ↦ ?queueExists,
    h.initState ha.initState⟩
  case nodup => exact (hsel.nodup q).sublist (h.sublist q)
  case disjoint =>
    exact hsel.disjoint q q' p ((h.sublist q).subset hp) ((h.sublist q').subset hp')
  case ready =>
    cases h.turn p (hne hp) with
    | away _ hq => exact absurd hp (hq q)
    | waits _ _ _ _ hstate => exact hstate
    | dispatched _ hq => exact absurd hp (hq q)
    | killed _ hq => exact absurd hp (hq q)
    | stopped _ hq => exact absurd hp (hq q)
  case init => exact hne hq rfl
  case known =>
    have hrun := Spec.queued_parked.mp ⟨q, (h.sublist q).subset hp⟩
    exact (hknown p).mpr (runnable_known ha hrun)
  case priority =>
    rw [Globals.field_of_frozen h.frozen PCB.priority (fun _ ↦ rfl)]
    exact ha.priority p ((hknown p).mp hp)
  case queued =>
    cases h.turn p hinit with
    | away hrun _ _ hsame =>
        have hq := ha.queued p ((hknown p).mp hp) hinit (hsame ▸ hstate)
        exact absurd (.inl hq) hrun
    | waits _ q hq => exact ⟨q, hq⟩
    | dispatched _ _ _ hrunning => rw [hrunning] at hstate; simp at hstate
    | killed _ _ _ hzombie => rw [hzombie] at hstate; simp at hstate
    | stopped _ _ _ hstopped => rw [hstopped] at hstate; simp at hstate
  case running =>
    cases h.turn p hinit with
    | away hrun _ _ hsame =>
        have hcur := ha.running p ((hknown p).mp hp) hinit (hsame ▸ hstate)
        exact absurd (.inr ⟨hcur, hinit, hsame ▸ hstate⟩) hrun
    | waits _ _ _ _ hready => rw [hready] at hstate; simp at hstate
    | dispatched _ _ hcur => exact hcur
    | killed _ _ _ hzombie => rw [hzombie] at hstate; simp at hstate
    | stopped _ _ _ hstopped => rw [hstopped] at hstate; simp at hstate
  case current =>
    rw [hknown]
    rcases h.current with hrun | hinit
    · exact runnable_known ha hrun
    · exact hinit ▸ ⟨0, ha.table.init⟩
  case currentState =>
    rw [h.current_running hinit]
    simp
  case level =>
    rw [h.queueLevel]
    exact ha.level i
  case queueExists =>
    obtain ⟨p, hp⟩ := List.exists_mem_of_ne_nil _ hl
    rcases Spec.mem_parked.mp ((h.sublist _).subset hp) with hp | ⟨-, -, hq⟩
    · exact ha.queueExists l (List.ne_nil_of_mem hp)
    · unfold Spec.targetQueue at hq
      split at hq
      · simp at hq
      · simp at hq
      · rw [QueueId.mlQueues.inj hq]
        exact ha.level _

end Invocation

end DemosOS
