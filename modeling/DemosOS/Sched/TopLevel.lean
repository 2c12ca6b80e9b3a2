import DemosOS.Sched.Steps

/-!
# One level in use

With every process at level 0 the multilevel scheduler without demotion has one queue, serves it
from the front and gives it the quantum of round robin.  Both kernels are the two variants of
one kernel with a single queue, and every operation does the same to this single queue in the
two variants.
-/

namespace DemosOS

namespace Globals

/-- The same data under another algorithm. -/
def under (g : Globals) (algorithm : Algorithm) : Globals :=
  { g with activeAlgorithm := algorithm }

section

variable (g : Globals) (x : Algorithm)

@[simp] theorem under_pcb : (g.under x).pcb = g.pcb := rfl
@[simp] theorem under_currentProcess : (g.under x).currentProcess = g.currentProcess := rfl
@[simp] theorem under_processes : (g.under x).processes = g.processes := rfl
@[simp] theorem under_nProcesses : (g.under x).nProcesses = g.nProcesses := rfl
@[simp] theorem under_queueLevel : (g.under x).queueLevel = g.queueLevel := rfl
@[simp] theorem under_current : (g.under x).current = g.current := rfl
@[simp] theorem under_searchProcess (pid : Int) :
    (g.under x).searchProcess pid = g.searchProcess pid := rfl

theorem under_setState (p : PcbPtr) (s : ProcessState) :
    (g.under x).setState p s = (g.setState p s).under x := rfl

theorem under_signal (p : PcbPtr) : (g.under x).signal p = (g.signal p).under x := rfl

theorem under_endBurst : (g.under x).endBurst = g.endBurst.under x := by
  have hends : ∀ g : Globals, g.currentProcess ≠ .initProcess ∧ g.current.state ≠ .running ∧
      g.current.state ≠ .ready → g.endBurst = (g.modifyPcb g.currentProcess fun b ↦
        { b with estBurst := (b.burstTicks + b.estBurst).tdiv 2, burstTicks := 0 }).setCounter
          g.currentProcess 0 := by
    intro g h
    simp only [endBurst, if_pos h]
    rfl
  have hgoes : ∀ g : Globals, ¬ (g.currentProcess ≠ .initProcess ∧ g.current.state ≠ .running ∧
      g.current.state ≠ .ready) → g.endBurst = g.setCounter g.currentProcess 0 := by
    intro g h
    simp only [endBurst, if_neg h]
  by_cases h : g.currentProcess ≠ .initProcess ∧ g.current.state ≠ .running ∧
      g.current.state ≠ .ready
  · rw [hends g h, hends (g.under x) h]
    rfl
  · rw [hgoes g h, hgoes (g.under x) h]
    rfl

theorem under_switchToProcess (p : PcbPtr) :
    (g.under x).switchToProcess p = (g.switchToProcess p).under x := by
  have hself : ∀ g : Globals, g.currentProcess = p →
      g.switchToProcess p = g.setState p .running := fun g h ↦ if_pos h
  have hleave : ∀ g : Globals, g.currentProcess ≠ p →
      ((g.setState p .running).pcb g.currentProcess).state = .running → g.switchToProcess p =
        { (g.setState p .running).setState g.currentProcess .ready with currentProcess := p } := by
    intro g h hrun
    have hne : (g.setState p .running).currentProcess ≠ p := h
    have hcur : ((g.setState p .running).pcb (g.setState p .running).currentProcess).state =
        .running := hrun
    simp only [switchToProcess, if_neg hne]
    rw [if_pos hcur]
    rfl
  have hdead : ∀ g : Globals, g.currentProcess ≠ p →
      ((g.setState p .running).pcb g.currentProcess).state ≠ .running →
      g.switchToProcess p = { g.setState p .running with currentProcess := p } := by
    intro g h hrun
    have hne : (g.setState p .running).currentProcess ≠ p := h
    have hcur : ((g.setState p .running).pcb (g.setState p .running).currentProcess).state ≠
        .running := hrun
    simp only [switchToProcess, if_neg hne]
    rw [if_neg hcur]
  by_cases hp : g.currentProcess = p
  · rw [hself g hp, hself (g.under x) hp]
    rfl
  · by_cases hrun : ((g.setState p .running).pcb g.currentProcess).state = .running
    · rw [hleave g hp hrun, hleave (g.under x) hp hrun]
      rfl
    · rw [hdead g hp hrun, hdead (g.under x) hp hrun]
      rfl

theorem under_dispatch (p : PcbPtr) : (g.under x).dispatch p = (g.dispatch p).under x := by
  rw [dispatch, under_switchToProcess]
  rfl

end

end Globals

/-! ## The two variants -/

/-- The two schedulers that are compared. -/
inductive Variant
  | mlq
  | roundRobin

namespace Variant

def algorithm : Variant → Algorithm
  | .mlq => .mlq
  | .roundRobin => .roundRobin

/-- The queue the variant uses. -/
def queue : Variant → QueueId
  | .mlq => .mlQueues 0
  | .roundRobin => .readyQueue

/-- The variant with the processes of `l` queued. -/
def kernel (v : Variant) (g : Globals) (l : List PcbPtr) : Kernel Lists where
  toGlobals := g.under v.algorithm
  queues := Function.update (fun _ ↦ []) v.queue l

section

variable (v : Variant) (g : Globals) (l : List PcbPtr)

@[simp] theorem kernel_toGlobals : (v.kernel g l).toGlobals = g.under v.algorithm := rfl

@[simp] theorem kernel_queues_self : (v.kernel g l).queues v.queue = l := by
  simp [kernel]

@[simp] theorem kernel_update (g' : Globals) (l' : List PcbPtr) :
    (⟨g'.under v.algorithm, Function.update (v.kernel g l).queues v.queue l'⟩ : Kernel Lists) =
      v.kernel g' l' := by
  simp [kernel]

theorem kernel_mapGlobals {f : Globals → Globals} (hf : f (g.under v.algorithm) =
    (f g).under v.algorithm) : (v.kernel g l).mapGlobals f = v.kernel (f g) l := by
  unfold kernel Kernel.mapGlobals
  simp only [hf]

end

variable {g : Globals} {l : List PcbPtr}

/-- Both variants append to their queue, as long as every level is 0. -/
theorem enqueue (hlevel : ∀ i, g.queueLevel i = 0) (v : Variant) (p : PcbPtr) :
    Spec.enqueue p (v.kernel g l) = if p = .initProcess then v.kernel g l
      else v.kernel (g.setState p .ready) (l ++ [p]) := by
  unfold Spec.enqueue
  split_ifs
  · rfl
  · have htarget : Spec.targetQueue (g.under v.algorithm) p = v.queue := by
      unfold Spec.targetQueue
      cases v with
      | mlq =>
          show QueueId.mlQueues (g.queueLevel (g.pcb p).pid) = .mlQueues 0
          rw [hlevel]
      | roundRobin => rfl
    have hinsert : Spec.insert (g.under v.algorithm) p l = l ++ [p] := by cases v <;> rfl
    simp only [kernel_toGlobals, htarget, kernel_queues_self, hinsert, Globals.under_setState,
      kernel_update]

/-- The same, with the result named. -/
theorem enqueued (hlevel : ∀ i, g.queueLevel i = 0) (p : PcbPtr) :
    ∃ g' l', (∀ i, g'.queueLevel i = 0) ∧
      ∀ v : Variant, Spec.enqueue p (v.kernel g l) = v.kernel g' l' := by
  by_cases hp : p = .initProcess
  · exact ⟨g, l, hlevel, fun v ↦ (enqueue hlevel v p).trans (if_pos hp)⟩
  · exact ⟨g.setState p .ready, l ++ [p], hlevel, fun v ↦ (enqueue hlevel v p).trans (if_neg hp)⟩

/-- Waking the waiter in one slot. -/
theorem wakeWaiter (hlevel : ∀ i, g.queueLevel i = 0) (i : Nat) :
    ∃ g' l', (∀ i, g'.queueLevel i = 0) ∧
      ∀ v : Variant, Spec.wakeWaiter (v.kernel g l) i = v.kernel g' l' := by
  by_cases hwait : ∃ p, g.processes i = some p ∧ g.WaitsFor p g.current.pid
  · obtain ⟨p, hp, hw⟩ := hwait
    obtain ⟨g', l', hlevel', hq⟩ := enqueued (g := g.modifyPcb p fun b ↦
      { b with state := .ready, pidToWait := -1 }) (l := l) hlevel p
    refine ⟨g', l', hlevel', fun v ↦ ?_⟩
    rw [Spec.wakeWaiter_of_waits hp hw, ← hq v]
    rfl
  · refine ⟨g, l, hlevel, fun v ↦ Spec.wakeWaiter_of_not ?_⟩
    exact fun p hp hw ↦ hwait ⟨p, hp, hw⟩

/-- The loop of `exit_process`. -/
theorem wakeWaiters (hlevel : ∀ i, g.queueLevel i = 0) (slots : List Nat) :
    ∃ g' l', (∀ i, g'.queueLevel i = 0) ∧
      ∀ v : Variant, slots.foldl Spec.wakeWaiter (v.kernel g l) = v.kernel g' l' := by
  induction slots generalizing g l with
  | nil => exact ⟨g, l, hlevel, fun _ ↦ rfl⟩
  | cons i slots ih =>
      obtain ⟨g₁, l₁, hlevel₁, h₁⟩ := wakeWaiter (l := l) hlevel i
      obtain ⟨g', l', hlevel', h'⟩ := ih (l := l₁) hlevel₁
      exact ⟨g', l', hlevel', fun v ↦ by rw [List.foldl_cons, h₁, h']⟩

theorem terminate (hlevel : ∀ i, g.queueLevel i = 0) :
    ∃ g' l', (∀ i, g'.queueLevel i = 0) ∧
      ∀ v : Variant, Spec.terminate (v.kernel g l) = v.kernel g' l' := by
  unfold Spec.terminate
  generalize List.range N_PROCESSES = slots
  obtain ⟨g', l', hlevel', h'⟩ := wakeWaiters
    (g := g.preemptDisable.setState g.currentProcess .zombie) (l := l) hlevel slots
  refine ⟨g'.preemptEnable, l', hlevel', fun v ↦ ?_⟩
  have hmark : (v.kernel g l).mapGlobals (fun g ↦ g.preemptDisable.setState g.currentProcess
      .zombie) = v.kernel (g.preemptDisable.setState g.currentProcess .zombie) l :=
    v.kernel_mapGlobals g l rfl
  dsimp only
  rw [hmark, h', v.kernel_mapGlobals g' l' rfl]

/-- A new process starts at level 0. -/
theorem addProcess (hlevel : ∀ i, g.queueLevel i = 0) {p : PcbPtr}
    (hzero : g.nProcesses < N_PROCESSES → (g.pcb p).pid < N_PROCESSES →
      (g.pcb p).queuePriority = 0) :
    ∃ g' l', (∀ i, g'.queueLevel i = 0) ∧
      ∀ v : Variant, Spec.addProcess p (v.kernel g l) = v.kernel g' l' := by
  by_cases hfull : g.nProcesses ≥ N_PROCESSES ∨ (g.pcb p).pid ≥ N_PROCESSES
  · exact ⟨g, l, hlevel, fun v ↦ if_pos hfull⟩
  · have hprio : (g.pcb p).queuePriority = 0 :=
      hzero (by omega) (by omega)
    have hstart : ∀ x, (g.under x).startLevel (g.pcb p).queuePriority = 0 := by
      intro x
      rw [hprio]
      cases x <;> rfl
    let g₁ : Globals := { g with
      processes := Function.update g.processes (g.pcb p).pid (some p)
      queueLevel := Function.update g.queueLevel (g.pcb p).pid 0 }
    have hlevel₁ : ∀ i, g₁.queueLevel i = 0 := by
      intro i
      by_cases hi : i = (g.pcb p).pid
      · subst hi
        exact Function.update_self ..
      · exact (Function.update_of_ne hi ..).trans (hlevel i)
    have hreg : ∀ v : Variant, (v.kernel g l).mapGlobals (·.register p) = v.kernel g₁ l := by
      intro v
      have hg : (g.under v.algorithm).register p = g₁.under v.algorithm := by
        simp only [Globals.register, Globals.under_pcb, hstart]
        rfl
      rw [Kernel.mapGlobals, kernel_toGlobals, hg]
      rfl
    have hcount : ∀ (v : Variant) (g : Globals) (l : List PcbPtr), (v.kernel g l).mapGlobals
        (fun g ↦ { g with nProcesses := g.nProcesses + 1 }) =
          v.kernel { g with nProcesses := g.nProcesses + 1 } l :=
      fun v g l ↦ v.kernel_mapGlobals g l rfl
    have hadd : ∀ v : Variant, Spec.addProcess p (v.kernel g l) =
        (if (g.pcb p).state = .ready then Spec.enqueue p (v.kernel g₁ l)
          else v.kernel g₁ l).mapGlobals fun g ↦ { g with nProcesses := g.nProcesses + 1 } := by
      intro v
      rw [← hreg v]
      exact if_neg hfull
    by_cases hready : (g.pcb p).state = .ready
    · obtain ⟨g', l', hlevel', h'⟩ := enqueued (l := l) hlevel₁ p
      refine ⟨{ g' with nProcesses := g'.nProcesses + 1 }, l', hlevel', fun v ↦ ?_⟩
      rw [hadd v, if_pos hready, h' v, hcount]
    · refine ⟨{ g₁ with nProcesses := g₁.nProcesses + 1 }, l, hlevel₁, fun v ↦ ?_⟩
      rw [hadd v, if_neg hready, hcount]

/-! ### Ticks -/

/-- Neither variant does anything else at a tick. -/
theorem onTick (v : Variant) (g : Globals) (l : List PcbPtr) :
    Spec.onTick (v.kernel g l) = some (v.kernel g l) := by
  cases v with
  | mlq =>
      have hdemote : (g.under .mlq).demote mlPolicyMlq = g.under .mlq := if_neg fun h ↦ nomatch h.1
      show some ((Variant.mlq.kernel g l).mapGlobals (·.demote mlPolicyMlq)) = _
      rw [Kernel.mapGlobals, kernel_toGlobals]
      show some (⟨(g.under .mlq).demote mlPolicyMlq, _⟩ : Kernel Lists) = _
      rw [hdemote]
      rfl
  | roundRobin => rfl

theorem tickEntry (hlevel : ∀ i, g.queueLevel i = 0) :
    ∃ b g', (∀ i, g'.queueLevel i = 0) ∧
      ∀ v : Variant, Spec.tickEntry (v.kernel g l) = some (b, v.kernel g' l) := by
  have hcharge : ∀ v : Variant, (v.kernel g l).mapGlobals (·.chargeTick) =
      v.kernel g.chargeTick l := fun v ↦ v.kernel_mapGlobals g l rfl
  have hreset : ∀ v : Variant, (v.kernel g.chargeTick l).mapGlobals (fun g ↦
      g.setCounter g.currentProcess 0) =
        v.kernel (g.chargeTick.setCounter g.chargeTick.currentProcess 0) l :=
    fun v ↦ v.kernel_mapGlobals _ l rfl
  have hpreempt : ∀ (v : Variant) (g : Globals) (l : List PcbPtr),
      (v.kernel g l).algorithm.isPreemptive = true := by
    intro v g l
    cases v <;> rfl
  have htick : ∀ v : Variant, Spec.tickEntry (v.kernel g l) =
      if g.chargeTick.current.counter > 0 ∨ g.chargeTick.current.preemptDisabled > 0 then
        some (false, v.kernel g.chargeTick l)
      else some (true, v.kernel (g.chargeTick.setCounter g.chargeTick.currentProcess 0) l) := by
    intro v
    rw [Spec.tickEntry, hcharge, onTick]
    simp only [Option.bind_eq_bind, Option.bind_some, hreset, hpreempt, Bool.true_eq_false,
      false_and, if_false]
    rfl
  by_cases hgo : g.chargeTick.current.counter > 0 ∨ g.chargeTick.current.preemptDisabled > 0
  · exact ⟨false, g.chargeTick, hlevel, fun v ↦ (htick v).trans (if_pos hgo)⟩
  · exact ⟨true, g.chargeTick.setCounter g.chargeTick.currentProcess 0, hlevel,
      fun v ↦ (htick v).trans (if_neg hgo)⟩

/-! ### Operations -/

/-- The running process gives up the processor. -/
theorem leave (v : Variant) (f : PCB → PCB) :
    ((v.kernel g l).mapGlobals fun g ↦ g.modifyPcb g.currentProcess f).mapGlobals (·.endBurst) =
      v.kernel (g.modifyPcb g.currentProcess f).endBurst l := by
  have hf : (v.kernel g l).mapGlobals (fun g ↦ g.modifyPcb g.currentProcess f) =
      v.kernel (g.modifyPcb g.currentProcess f) l := v.kernel_mapGlobals g l rfl
  rw [hf, v.kernel_mapGlobals _ l (Globals.under_endBurst _ _)]

/-- Setting parameters, as long as no level other than 0 is set. -/
theorem setParam (hlevel : ∀ i, g.queueLevel i = 0) {pid param value : Int}
    (hzero : param = Globals.SCHED_PARAM_QUEUE_PRIORITY → 0 ≤ value → value < ML_MAX_LEVELS →
      ∀ p, g.searchProcess pid = some p → p ≠ .initProcess → value = 0) :
    ∃ g', (∀ i, g'.queueLevel i = 0) ∧ ∀ v : Variant,
      (v.kernel g l).mapGlobals (fun g ↦ (g.syscallSetSchedParam pid param value).2) =
        v.kernel g' l := by
  have hmap : ∀ g' : Globals, (∀ x : Algorithm, ((g.under x).syscallSetSchedParam pid param
      value).2 = g'.under x) → ∀ v : Variant, (v.kernel g l).mapGlobals (fun g ↦
        (g.syscallSetSchedParam pid param value).2) = v.kernel g' l := by
    intro g' hg v
    rw [Kernel.mapGlobals, kernel_toGlobals, hg]
    rfl
  unfold Globals.syscallSetSchedParam at hmap ⊢
  simp only [Globals.under_searchProcess] at hmap
  cases hs : g.searchProcess pid with
  | none =>
      simp only [hs] at hmap
      exact ⟨g, hlevel, hmap g fun _ ↦ rfl⟩
  | some p =>
      simp only [hs] at hmap
      by_cases hset : p ≠ .initProcess ∧ param = Globals.SCHED_PARAM_QUEUE_PRIORITY ∧ 0 ≤ value ∧
          value < ML_MAX_LEVELS
      · -- the level that is set is 0
        obtain ⟨hp, hparam, hlow, hhigh⟩ := hset
        obtain rfl := hzero hparam hlow hhigh p hs hp
        refine ⟨g.setQueuePriority p 0, fun i ↦ ?_, hmap _ fun x ↦ ?_⟩
        · unfold Globals.setQueuePriority
          simp only [Globals.preemptEnable, Globals.preemptDisable, Globals.modifyPcb_queueLevel,
            Function.update_apply, hlevel, Int.toNat_zero, ite_self]
        · have hclamp : (g.under x).clampLevel 0 = 0 := by cases x <;> rfl
          subst hparam
          unfold Globals.schedSetParam
          rw [if_neg hp, if_neg (by decide), if_neg (by decide), if_pos rfl, if_neg (by decide),
            hclamp]
          rfl
      · -- nothing, or a parameter that neither variant reads
        have hkeeps : (∀ x : Algorithm, ((g.under x).schedSetParam p param value).2 =
            (g.schedSetParam p param value).2.under x) ∧
            (g.schedSetParam p param value).2.queueLevel = g.queueLevel := by
          unfold Globals.schedSetParam
          split_ifs with hp _ _ _ _ hparam hrange
          · exact ⟨fun _ ↦ rfl, rfl⟩
          · exact ⟨fun _ ↦ rfl, rfl⟩
          · exact ⟨fun _ ↦ rfl, rfl⟩
          · exact ⟨fun _ ↦ rfl, rfl⟩
          · exact ⟨fun _ ↦ rfl, rfl⟩
          · exact ⟨fun _ ↦ rfl, rfl⟩
          · exact absurd ⟨hp, hparam, by omega, by omega⟩ hset
          · exact ⟨fun _ ↦ rfl, rfl⟩
        obtain ⟨hother, hsame⟩ := hkeeps
        exact ⟨_, fun i ↦ by rw [hsame, hlevel], hmap _ hother⟩

/-- An operation does the same to both variants before it enters the scheduler. -/
theorem entry (hlevel : ∀ i, g.queueLevel i = 0) {op : Op}
    (hadd : ∀ p b, op = .add p b → g.nProcesses < N_PROCESSES → b.pid < N_PROCESSES →
      b.queuePriority = 0)
    (hparam : ∀ pid param value, op = .setParam pid param value →
      param = Globals.SCHED_PARAM_QUEUE_PRIORITY → 0 ≤ value → value < ML_MAX_LEVELS →
      ∀ p, g.searchProcess pid = some p → p ≠ .initProcess → value = 0) :
    ∃ b g' l', (∀ i, g'.queueLevel i = 0) ∧
      ∀ v : Variant, Spec.entry (v.kernel g l) op = some (b, v.kernel g' l') := by
  have hlevelEnd : ∀ g : Globals, g.endBurst.queueLevel = g.queueLevel := endBurst_queueLevel
  cases op with
  | add p b =>
      have hwrite : ∀ v : Variant, (v.kernel g l).mapGlobals (·.modifyPcb p fun _ ↦ b) =
          v.kernel (g.modifyPcb p fun _ ↦ b) l := fun v ↦ v.kernel_mapGlobals g l rfl
      have hb : (g.modifyPcb p fun _ ↦ b).pcb p = b := Globals.modifyPcb_pcb_self g p fun _ ↦ b
      obtain ⟨g', l', hlevel', h'⟩ := addProcess (g := g.modifyPcb p fun _ ↦ b) (l := l) hlevel
        (p := p) (by rw [hb]; exact hadd p b rfl)
      exact ⟨false, g', l', hlevel', fun v ↦ by rw [Spec.entry, hwrite, h']⟩
  | wake p =>
      have hwrite : ∀ v : Variant, (v.kernel g l).mapGlobals (·.setState p .ready) =
          v.kernel (g.setState p .ready) l := fun v ↦ v.kernel_mapGlobals g l rfl
      obtain ⟨g', l', hlevel', h'⟩ := enqueued (g := g.setState p .ready) (l := l) hlevel p
      exact ⟨false, g', l', hlevel', fun v ↦ by rw [Spec.entry, hwrite, h']⟩
  | yield =>
      exact ⟨true, (g.setCounter g.currentProcess 0).endBurst, l,
        fun i ↦ (congrFun (hlevelEnd _) i).trans (hlevel i),
        fun v ↦ congrArg (fun a ↦ some (true, a)) (leave v fun b ↦ { b with counter := 0 })⟩
  | block s =>
      exact ⟨true, (g.setState g.currentProcess s).endBurst, l,
        fun i ↦ (congrFun (hlevelEnd _) i).trans (hlevel i),
        fun v ↦ congrArg (fun a ↦ some (true, a)) (leave v fun b ↦ { b with state := s })⟩
  | wait pid =>
      cases hs : g.searchProcess pid with
      | none => exact ⟨false, g, l, hlevel, fun v ↦ by simp [Spec.entry, hs]⟩
      | some p =>
          by_cases hdead : (g.pcb p).state = .zombie
          · exact ⟨false, g, l, hlevel, fun v ↦ by simp [Spec.entry, hs, hdead]⟩
          · refine ⟨true, (g.modifyPcb g.currentProcess fun b ↦
              { b with state := .waitingAnotherProcess, pidToWait := pid }).endBurst, l,
              fun i ↦ (congrFun (hlevelEnd _) i).trans (hlevel i), fun v ↦ ?_⟩
            simp only [Spec.entry, kernel_toGlobals, Globals.under_searchProcess, hs,
              Globals.under_pcb]
            exact (if_neg hdead).trans (congrArg (fun a ↦ some (true, a)) (leave v _))
  | exit =>
      obtain ⟨g', l', hlevel', h'⟩ := terminate (l := l) hlevel
      refine ⟨true, g'.endBurst, l', fun i ↦ (congrFun (hlevelEnd _) i).trans (hlevel' i),
        fun v ↦ ?_⟩
      rw [Spec.entry, h', v.kernel_mapGlobals _ _ (Globals.under_endBurst _ _)]
  | tick =>
      obtain ⟨b, g', hlevel', h'⟩ := tickEntry (l := l) hlevel
      exact ⟨b, g', l, hlevel', h'⟩
  | signal pid f =>
      refine ⟨false, (g.syscallSendSignal pid f).2, l, ?_, fun v ↦ ?_⟩
      · unfold Globals.syscallSendSignal
        cases g.searchProcess pid <;> exact hlevel
      · refine congrArg (fun a ↦ some (false, a)) (v.kernel_mapGlobals g l ?_)
        unfold Globals.syscallSendSignal
        rw [Globals.under_searchProcess]
        cases g.searchProcess pid <;> rfl
  | setParam pid param value =>
      obtain ⟨g', hlevel', h'⟩ := setParam (l := l) hlevel (hparam pid param value rfl)
      exact ⟨false, g', l, hlevel', fun v ↦ congrArg (fun a ↦ some (false, a)) (h' v)⟩

/-! ### The choice -/

/-- A search does not look at the algorithm. -/
theorem takeReady_under (g : Globals) (x : Algorithm) (l : List PcbPtr) :
    Spec.takeReady (g.under x) l =
      ((Spec.takeReady g l).1.under x, (Spec.takeReady g l).2) := by
  induction l generalizing g with
  | nil => rfl
  | cons p l ih =>
      have hfound : ∀ g : Globals, (g.pcb p).signalled.state = .ready →
          Spec.takeReady g (p :: l) = (g.signal p, some p, l) := fun g h ↦ if_pos h
      have hgone : ∀ g : Globals, (g.pcb p).signalled.state ≠ .ready →
          Spec.takeReady g (p :: l) = Spec.takeReady (g.signal p) l := fun g h ↦ if_neg h
      by_cases hready : (g.pcb p).signalled.state = .ready
      · rw [hfound g hready, hfound (g.under x) hready]
        rfl
      · rw [hgone g hready, hgone (g.under x) hready, Globals.under_signal, ih]

theorem takeReady_queueLevel (g : Globals) (l : List PcbPtr) :
    (Spec.takeReady g l).1.queueLevel = g.queueLevel := by
  induction l generalizing g with
  | nil => rfl
  | cons p l ih =>
      rw [Spec.takeReady]
      split_ifs
      · rfl
      · exact ih _

/-- A search of empty levels finds nobody. -/
theorem takeFromLevels_empty {levels : List Nat} {a : Kernel Lists}
    (h : ∀ q ∈ levels, a.queues (.mlQueues q) = []) :
    Spec.takeFromLevels levels a = (none, a) := by
  induction levels with
  | nil => rfl
  | cons q levels ih =>
      have hq := h q List.mem_cons_self
      have hsame : Function.update a.queues (.mlQueues q) [] = a.queues := by
        rw [← hq, Function.update_eq_self]
      simp only [Spec.takeFromLevels, hq, Spec.takeReady, hsame]
      exact ih fun q hq ↦ h q (List.mem_cons_of_mem _ hq)

/-- Both variants take the first process that is ready, for ten ticks. -/
theorem choose (v : Variant) (g : Globals) (l : List PcbPtr) : Spec.choose (v.kernel g l) =
    some (match Spec.takeReady g l with
      | (g, none, l) => (.initProcess, v.kernel g l)
      | (g, some p, l) => (p, v.kernel (g.setCounter p 10) l)) := by
  have htake := takeReady_under g v.algorithm l
  generalize Spec.takeReady g l = r at htake ⊢
  obtain ⟨g', next, l'⟩ := r
  cases v with
  | roundRobin =>
      show some (Spec.settle (Variant.roundRobin.kernel g l) Spec.tenTicks (Spec.takeReady
        (g.under .roundRobin) ((Variant.roundRobin.kernel g l).queues .readyQueue))) = _
      rw [show (Variant.roundRobin.kernel g l).queues .readyQueue = l from
        Variant.roundRobin.kernel_queues_self g l]
      rw [show Spec.takeReady (g.under .roundRobin) l = _ from htake]
      cases next with
      | none => exact congrArg (fun a ↦ some (_, a)) (Variant.roundRobin.kernel_update g l g' l')
      | some p =>
          exact congrArg (fun a ↦ some (p, a))
            (Variant.roundRobin.kernel_update g l (g'.setCounter p 10) l')
  | mlq =>
      show some (Spec.settleLevel mlPolicyMlq (Spec.takeFromLevels (0 :: [1, 2, 3, 4])
        (Variant.mlq.kernel g l))) = _
      rw [Spec.takeFromLevels]
      rw [show (Variant.mlq.kernel g l).queues (.mlQueues 0) = l from
        Variant.mlq.kernel_queues_self g l]
      rw [show Spec.takeReady (Variant.mlq.kernel g l).toGlobals l = _ from htake]
      cases next with
      | none =>
          have hempty : ∀ q ∈ [1, 2, 3, 4], (Variant.mlq.kernel g' l').queues
            (.mlQueues q) = [] := by
            intro q hq
            have hq0 : q ≠ 0 := by
              rintro rfl
              simp at hq
            simp [kernel, queue, hq0]
          show some (Spec.settleLevel mlPolicyMlq (Spec.takeFromLevels [1, 2, 3, 4]
            ⟨g'.under Variant.mlq.algorithm,
              Function.update (Variant.mlq.kernel g l).queues Variant.mlq.queue l'⟩)) = _
          rw [Variant.mlq.kernel_update g l g' l', takeFromLevels_empty hempty]
          rfl
      | some p =>
          exact congrArg (fun a ↦ some (p, a))
            (Variant.mlq.kernel_update g l (g'.setCounter p 10) l')

/-- A scheduler invocation does the same to both variants. -/
theorem pickNext (hlevel : ∀ i, g.queueLevel i = 0) :
    ∃ g' l', (∀ i, g'.queueLevel i = 0) ∧
      ∀ v : Variant, Spec.pickNext (v.kernel g l) = some (v.kernel g' l') := by
  -- the running process is put back
  obtain ⟨g₁, l₁, hlevel₁, h₁⟩ : ∃ g₁ l₁, (∀ i, g₁.queueLevel i = 0) ∧
      ∀ v : Variant, Spec.parked (v.kernel g l) = v.kernel g₁ l₁ := by
    have hdisable : ∀ v : Variant, (v.kernel g l).mapGlobals (·.preemptDisable) =
        v.kernel g.preemptDisable l := fun v ↦ v.kernel_mapGlobals g l rfl
    by_cases hrun : g.StillRunnable
    · obtain ⟨g₁, l₁, hlevel₁, h₁⟩ := enqueued (g := g.preemptDisable) (l := l) hlevel
        g.currentProcess
      refine ⟨g₁, l₁, hlevel₁, fun v ↦ ?_⟩
      rw [Spec.parked_eq, ← h₁ v, ← hdisable v]
      exact if_pos hrun
    · refine ⟨g.preemptDisable, l, hlevel, fun v ↦ ?_⟩
      rw [Spec.parked_eq, ← hdisable v]
      exact if_neg hrun
  have hpick : ∀ v : Variant, Spec.pickNext (v.kernel g l) =
      some (match Spec.takeReady g₁ l₁ with
        | (g, none, l) => (v.kernel g l).mapGlobals (·.dispatch .initProcess)
        | (g, some p, l) => (v.kernel (g.setCounter p 10) l).mapGlobals (·.dispatch p)) := by
    intro v
    rw [Spec.pickNext, Spec.select, h₁, choose]
    obtain ⟨g', next, l'⟩ := Spec.takeReady g₁ l₁
    cases next <;> rfl
  have hkeeps := takeReady_queueLevel g₁ l₁
  generalize Spec.takeReady g₁ l₁ = r at hpick hkeeps
  obtain ⟨g', next, l'⟩ := r
  cases next with
  | none =>
      refine ⟨g'.dispatch .initProcess, l', fun i ↦ ?_, fun v ↦ ?_⟩
      · rw [Globals.dispatch_queueLevel, hkeeps, hlevel₁]
      · rw [hpick]
        exact congrArg some (v.kernel_mapGlobals g' l' (Globals.under_dispatch ..))
  | some p =>
      refine ⟨(g'.setCounter p 10).dispatch p, l', fun i ↦ ?_, fun v ↦ ?_⟩
      · rw [Globals.dispatch_queueLevel]
        exact (congrFun hkeeps i).trans (hlevel₁ i)
      · rw [hpick]
        exact congrArg some (v.kernel_mapGlobals _ l' (Globals.under_dispatch ..))

/-! ### Lockstep -/

/-- The two kernels are the two variants of one. -/
def Twins (v w : Variant) (k k' : Kernel Pointers) : Prop :=
  ∃ g l, (∀ i, g.queueLevel i = 0) ∧ Sound k (v.kernel g l) ∧ Sound k' (w.kernel g l)

theorem boot_twins (v w : Variant) (timerClo : Nat → BitVec 32) :
    Twins v w (Kernel.boot v.algorithm timerClo) (Kernel.boot w.algorithm timerClo) := by
  have hempty : ∀ v : Variant, Sound (Kernel.boot v.algorithm timerClo)
      (v.kernel (Globals.boot .mlq timerClo) []) := by
    intro v
    have hqueues : (fun _ ↦ []) = (Function.update (fun _ ↦ []) v.queue [] : Lists) :=
      (Function.update_eq_self v.queue fun _ ↦ []).symm
    have hboot := boot_sound v.algorithm timerClo
    rw [hqueues] at hboot
    exact hboot
  exact ⟨_, [], fun _ ↦ rfl, hempty v, hempty w⟩

theorem enabled_under {x y : Algorithm} {op : Op} (h : op.Enabled (g.under x)) :
    op.Enabled (g.under y) := by
  cases op <;> exact h

/-- One operation of twins, in which no process is given a level other than 0. -/
theorem Twins.step {v w : Variant} {k k' k₁ : Kernel Pointers} (h : Twins v w k k') {op : Op}
    (hop : op.Enabled k.toGlobals) (hrun : op.run k = some k₁)
    (hzero : ∀ p, k₁.Known p → (k₁.pcb p).queuePriority = 0) :
    ∃ k₁', op.Enabled k'.toGlobals ∧ op.run k' = some k₁' ∧ Twins v w k₁ k₁' := by
  obtain ⟨g, l, hlevel, hk, hk'⟩ := h
  have hop' : op.Enabled k'.toGlobals := by
    rw [hk.sim.globals] at hop
    rw [hk'.sim.globals]
    exact enabled_under hop
  obtain ⟨k₁', a₁', hrun', -⟩ := hk'.run hop'
  refine ⟨k₁', hop', hrun', ?_⟩
  obtain ⟨b, -, a₁, a₂, -, hspec, -, ha₁, -, hcont, hinv, h₁⟩ := hk.refines hop hrun
  obtain ⟨b', -, a₁', a₂', -, hspec', -, -, -, hcont', -, h₁'⟩ := hk'.refines hop' hrun'
  rw [h₁.sim.globals] at hzero
  -- before the scheduler no level other than 0 has been given either
  have hzero₁ : ∀ p, a₁.Known p → (a₁.pcb p).queuePriority = 0 := by
    intro p hp
    cases b with
    | false =>
        obtain rfl := Option.some.inj hcont
        exact hzero p hp
    | true =>
        have hfrozen := (hinv rfl).frozen
        rw [← hzero p ((Globals.known_of_frozen hfrozen p).mpr hp)]
        exact (Globals.field_of_frozen hfrozen PCB.queuePriority (fun _ ↦ rfl) p).symm
  obtain ⟨c, g', l', hlevel', hentry⟩ := @entry g l hlevel op
    (fun p b he hn hpid ↦ by
      subst he
      obtain ⟨-, rfl⟩ := Prod.mk.inj (Option.some.inj hspec)
      have hb : (((v.kernel g l).mapGlobals (·.modifyPcb p fun _ ↦ b)).pcb p) = b :=
        Globals.modifyPcb_pcb_self _ p fun _ ↦ b
      have hknown := Spec.known_addProcess (a := (v.kernel g l).mapGlobals
        (·.modifyPcb p fun _ ↦ b)) (p := p) hn (by rw [hb]; exact hpid)
      have hprio := hzero₁ p hknown
      rwa [Spec.addProcess_field (π := PCB.queuePriority) (fun _ _ _ _ _ _ _ ↦ rfl), hb] at hprio)
    (fun pid param value he hparam hlow hhigh p hs hinit ↦ by
      subst he
      obtain ⟨-, rfl⟩ := Prod.mk.inj (Option.some.inj hspec)
      subst hparam
      have hset : ((g.under v.algorithm).syscallSetSchedParam pid
          Globals.SCHED_PARAM_QUEUE_PRIORITY value).2 =
            (g.under v.algorithm).setQueuePriority p value := by
        rw [Globals.syscallSetSchedParam, Globals.under_searchProcess, hs]
        exact Spec.schedSetParam_queuePriority _ hinit hlow hhigh
      have hprio := hzero₁ p
      rw [Kernel.mapGlobals_toGlobals, kernel_toGlobals, hset, Spec.setQueuePriority_self] at hprio
      exact hprio (hk.inv.table.searchProcess_eq_some.mp hs).1)
  obtain ⟨rfl, rfl⟩ := Prod.mk.inj (Option.some.inj ((hentry v).symm.trans hspec))
  obtain ⟨rfl, rfl⟩ := Prod.mk.inj (Option.some.inj ((hentry w).symm.trans hspec'))
  cases c with
  | false =>
      obtain rfl := Option.some.inj hcont
      obtain rfl := Option.some.inj hcont'
      exact ⟨g', l', hlevel', h₁, h₁'⟩
  | true =>
      obtain ⟨g'', l'', hlevel'', hpick⟩ := pickNext (l := l') hlevel'
      obtain rfl := Option.some.inj (hcont.symm.trans (hpick v))
      obtain rfl := Option.some.inj (hcont'.symm.trans (hpick w))
      exact ⟨g'', l'', hlevel'', h₁, h₁'⟩

/-- In a run of one twin in which no process is given a level other than 0, the other performs
the same operations, and they are twins after each. -/
theorem Twins.run {v w : Variant} {k k' : Kernel Pointers} (h : Twins v w k k')
    {steps : List (Op × Kernel Pointers)} (hsteps : Follows k steps)
    (hzero : ∀ s ∈ steps, ∀ p, s.2.Known p → (s.2.pcb p).queuePriority = 0) :
    ∃ steps', Follows k' steps' ∧
      List.Forall₂ (fun s s' ↦ s.1 = s'.1 ∧ Twins v w s.2 s'.2) steps steps' := by
  induction steps generalizing k k' with
  | nil => exact ⟨[], trivial, .nil⟩
  | cons s steps ih =>
      obtain ⟨op, k₁⟩ := s
      obtain ⟨hop, hrun, hsteps⟩ := hsteps
      obtain ⟨k₁', hop', hrun', h₁⟩ := h.step hop hrun (hzero _ List.mem_cons_self)
      obtain ⟨steps', hsteps', hall⟩ :=
        ih h₁ hsteps fun s hs ↦ hzero s (List.mem_cons_of_mem _ hs)
      exact ⟨(op, k₁') :: steps', ⟨hop', hrun', hsteps'⟩, .cons ⟨rfl, h₁⟩ hall⟩

end Variant

/-- The multilevel kernel `k` and the round robin kernel `k'` agree on the processes, and the
queue of level 0 is the ready queue. -/
structure Lockstep (k k' : Kernel Pointers) : Prop where
  current : k.currentProcess = k'.currentProcess
  pcb : k.pcb = k'.pcb
  queue : ∃ l, k.Queue (.mlQueues 0) l ∧ k'.Queue .readyQueue l
  empty : ∀ i, i ≠ 0 → k.Queue (.mlQueues i) []

theorem Variant.Twins.lockstep {k k' : Kernel Pointers}
    (h : Variant.Twins .mlq .roundRobin k k') : Lockstep k k' := by
  obtain ⟨g, l, -, hk, hk'⟩ := h
  refine ⟨?_, ?_, ⟨l, ?_, ?_⟩, fun i hi ↦ ?_⟩
  · rw [hk.sim.globals, hk'.sim.globals]
    rfl
  · rw [hk.sim.globals, hk'.sim.globals]
    rfl
  · have hq := hk.sim.queues.chain (.mlQueues 0)
    rwa [show (Variant.mlq.kernel g l).queues (.mlQueues 0) = l from
      Variant.mlq.kernel_queues_self g l] at hq
  · have hq := hk'.sim.queues.chain .readyQueue
    rwa [show (Variant.roundRobin.kernel g l).queues .readyQueue = l from
      Variant.roundRobin.kernel_queues_self g l] at hq
  · have hq := hk.sim.queues.chain (.mlQueues i)
    rwa [show (Variant.mlq.kernel g l).queues (.mlQueues i) = [] by
      simp [Variant.kernel, Variant.queue, hi]] at hq

theorem Variant.Twins.symm {v w : Variant} {k k' : Kernel Pointers} (h : Variant.Twins v w k k') :
    Variant.Twins w v k' k := by
  obtain ⟨g, l, hlevel, hk, hk'⟩ := h
  exact ⟨g, l, hlevel, hk', hk⟩

/-- No process of the table ever has a level other than 0. -/
def AtLevelZero (steps : List (Op × Kernel Pointers)) : Prop :=
  ∀ s ∈ steps, ∀ p, s.2.Known p → (s.2.pcb p).queuePriority = 0

/-- As long as no process is given a level other than 0, MLQ and round robin perform the same
operations and stay in lockstep: whatever one of them can do from boot, the other can, and they
agree after every operation. -/
theorem mlq_is_roundRobin (timerClo : Nat → BitVec 32) :
    (∀ steps, Follows (Kernel.boot .mlq timerClo) steps → AtLevelZero steps →
      ∃ steps', Follows (Kernel.boot .roundRobin timerClo) steps' ∧
        List.Forall₂ (fun s s' ↦ s.1 = s'.1 ∧ Lockstep s.2 s'.2) steps steps') ∧
    (∀ steps', Follows (Kernel.boot .roundRobin timerClo) steps' → AtLevelZero steps' →
      ∃ steps, Follows (Kernel.boot .mlq timerClo) steps ∧
        List.Forall₂ (fun s s' ↦ s.1 = s'.1 ∧ Lockstep s.2 s'.2) steps steps') := by
  constructor
  · intro steps hsteps hzero
    obtain ⟨steps', hsteps', hall⟩ :=
      (Variant.boot_twins .mlq .roundRobin timerClo).run hsteps hzero
    exact ⟨steps', hsteps', hall.imp fun _ _ h ↦ ⟨h.1, h.2.lockstep⟩⟩
  · intro steps' hsteps' hzero
    obtain ⟨steps, hsteps, hall⟩ :=
      (Variant.boot_twins .roundRobin .mlq timerClo).run hsteps' hzero
    exact ⟨steps, hsteps, hall.flip.imp fun _ _ h ↦ ⟨h.1.symm, h.2.symm.lockstep⟩⟩

/-- Two children, a tick, a yield, a kill of the first, which is then dropped by the next
invocation. -/
theorem mlq_is_roundRobin_killed : ∃ steps steps',
    trace [.add (.page 0) (childOfInit 1), .add (.page 1) (childOfInit 2), .tick, .yield,
      .signal 1 SIGNAL_KILL, .yield] (Kernel.boot .mlq fun _ ↦ 0) = some steps ∧
    Follows (Kernel.boot .roundRobin fun _ ↦ 0) steps' ∧
    List.Forall₂ (fun s s' ↦ s.1 = s'.1 ∧ Lockstep s.2 s'.2) steps steps' := by
  have hrun : (trace [.add (.page 0) (childOfInit 1), .add (.page 1) (childOfInit 2), .tick, .yield,
      .signal 1 SIGNAL_KILL, .yield] (Kernel.boot .mlq fun _ ↦ 0)).any (fun steps ↦
        ∀ s ∈ steps, ∀ i < N_PROCESSES, ((s.2.processes i).all fun p ↦
          (s.2.pcb p).queuePriority = 0) = true) = true := by
    decide +kernel
  obtain ⟨steps, hsteps, hspec⟩ := (Option.any_eq_true _ _).mp hrun
  have hfollows := (reachable_boot _ _).follows_trace hsteps
  have hzero : AtLevelZero steps := by
    rintro s hs p ⟨i, hi⟩
    have htable := ((reachable_boot _ _).of_mem hfollows hs).table
    have hslot := of_decide_eq_true hspec s hs i ((htable.slot hi).1.trans_le htable.bound)
    rw [hi] at hslot
    exact of_decide_eq_true hslot
  obtain ⟨steps', hsteps', hall⟩ := (mlq_is_roundRobin fun _ ↦ 0).1 steps hfollows hzero
  exact ⟨steps, steps', hsteps, hsteps', hall⟩

end DemosOS
