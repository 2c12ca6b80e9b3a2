import DemosOS.Kernel.Scheduler

/-!
# Timer tick, termination, signals and parameters

The entry points of the scheduler: the per-tick bookkeeping and `handle_timer_tick`,
`exit_process`, the registration of a new process, and the system calls that only
concern scheduling (`yield`, `wait`, `exit`, `send_signal`, `set_sched_param`).

A system call that gives up the processor is modelled up to the moment another
process runs; the value it returns is the one its caller will see when it is
dispatched again.
-/

namespace DemosOS

/-! ## Process table -/

namespace Globals

/-- `search_process`. -/
def searchProcess (g : Globals) (pid : Int) : Option PcbPtr :=
  (List.range N_PROCESSES).findSome? fun i ↦
    match g.processes i with
    | none => none
    | some p => if ((g.pcb p).pid : Int) = pid then some p else none

/-- The process is in the table. -/
def Known (g : Globals) (p : PcbPtr) : Prop := ∃ i, g.processes i = some p

/-- The process table is filled from the front, and the process in slot `i` has pid
`i`; init comes first. -/
structure Table (g : Globals) : Prop where
  slot : ∀ {i p}, g.processes i = some p → i < g.nProcesses ∧ (g.pcb p).pid = i
  filled : ∀ {i}, i < g.nProcesses → ∃ p, g.processes i = some p
  init : g.processes 0 = some .initProcess
  bound : g.nProcesses ≤ N_PROCESSES

namespace Table

variable {g : Globals} (h : g.Table)
include h

theorem processes_pid {p : PcbPtr} (hp : g.Known p) : g.processes (g.pcb p).pid = some p := by
  obtain ⟨i, hi⟩ := hp
  rw [(h.slot hi).2, hi]

theorem pid_lt {p : PcbPtr} (hp : g.Known p) : (g.pcb p).pid < g.nProcesses := by
  obtain ⟨i, hi⟩ := hp
  obtain ⟨hlt, hpid⟩ := h.slot hi
  exact hpid ▸ hlt

theorem pid_lt_max {p : PcbPtr} (hp : g.Known p) : (g.pcb p).pid < N_PROCESSES :=
  (h.pid_lt hp).trans_le h.bound

/-- Different processes have different pids. -/
theorem pid_inj {p p' : PcbPtr} (hp : g.Known p) (hp' : g.Known p')
    (hpid : (g.pcb p).pid = (g.pcb p').pid) : p = p' := by
  have hslot := h.processes_pid hp
  rw [hpid, h.processes_pid hp'] at hslot
  exact (Option.some.inj hslot).symm

/-- Distinct processes of the table are at most as many as its slots. -/
theorem length_le {l : List PcbPtr} (hl : l.Nodup) (hknown : ∀ p ∈ l, g.Known p) :
    l.length ≤ N_PROCESSES := by
  have hnodup : (l.map fun p ↦ (g.pcb p).pid).Nodup :=
    List.Nodup.map_on (fun x hx y hy ↦ h.pid_inj (hknown x hx) (hknown y hy)) hl
  have hsub : l.map (fun p ↦ (g.pcb p).pid) ⊆ List.range N_PROCESSES := by
    intro i hi
    obtain ⟨p, hp, rfl⟩ := List.mem_map.mp hi
    exact List.mem_range.mpr (h.pid_lt_max (hknown p hp))
  simpa using (List.Nodup.subperm hnodup hsub).length_le

/-- `search_process` finds the process with the given pid. -/
theorem searchProcess_eq_some {pid : Int} {p : PcbPtr} :
    g.searchProcess pid = some p ↔ g.Known p ∧ ((g.pcb p).pid : Int) = pid := by
  unfold searchProcess
  constructor
  · intro hs
    obtain ⟨i, -, hi⟩ := List.exists_of_findSome?_eq_some hs
    cases hp : g.processes i with
    | none => simp [hp] at hi
    | some x =>
        simp only [hp] at hi
        split_ifs at hi with hpid
        obtain rfl := Option.some.inj hi
        exact ⟨⟨i, hp⟩, hpid⟩
  · rintro ⟨hp, hpid⟩
    cases hs : (List.range N_PROCESSES).findSome? _ with
    | none =>
        have hnone := List.findSome?_eq_none_iff.mp hs _
          (List.mem_range.mpr (h.pid_lt_max hp))
        simp [h.processes_pid hp, hpid] at hnone
    | some x =>
        obtain ⟨i, -, hi⟩ := List.exists_of_findSome?_eq_some hs
        cases hx : g.processes i with
        | none => simp [hx] at hi
        | some y =>
            simp only [hx] at hi
            split_ifs at hi with hy
            obtain rfl := Option.some.inj hi
            have hxp : (g.pcb y).pid = (g.pcb p).pid := by omega
            rw [h.pid_inj ⟨i, hx⟩ hp hxp]

end Table

/-- The level of the active multilevel policy closest to `level` from below. -/
def clampLevel (g : Globals) (level : Int) : Int :=
  match g.algorithm.mlPolicy with
  | none => level
  | some policy => if level ≥ policy.nLevels then policy.nLevels - 1 else level

/-- The starting level computed by `add_process_to_scheduler`. -/
def startLevel (g : Globals) (queuePriority : Int) : Int :=
  let level : Int := if queuePriority < 0 then 0 else queuePriority
  let level : Int := if level ≥ ML_MAX_LEVELS then ML_MAX_LEVELS - 1 else level
  g.clampLevel level

/-- The writes of `add_process_to_scheduler` to the table and to `queue_level`. -/
def register (g : Globals) (process : PcbPtr) : Globals :=
  let pid := (g.pcb process).pid
  { g with
    processes := Function.update g.processes pid (some process)
    queueLevel := Function.update g.queueLevel pid
      (g.startLevel (g.pcb process).queuePriority).toNat }

/-- `send_signal`. -/
def sendSignal (g : Globals) (destinationProcess : PcbPtr) (signalFlag : Int) : Globals :=
  g.modifyPcb destinationProcess fun b ↦ b.raiseSignal signalFlag

/-- `syscall_send_signal`. -/
def syscallSendSignal (g : Globals) (destinationPid signalFlag : Int) : Int × Globals :=
  match g.searchProcess destinationPid with
  | none => (-1, g)
  | some p => (0, g.sendSignal p signalFlag)

def SCHED_PARAM_PRIORITY : Int := 0
def SCHED_PARAM_TICKETS : Int := 1
def SCHED_PARAM_QUEUE_PRIORITY : Int := 2

/-- The guarded double update of `sched_set_param`. -/
def setQueuePriority (g : Globals) (process : PcbPtr) (value : Int) : Globals :=
  let g := g.preemptDisable
  let g := g.modifyPcb process fun b ↦ { b with queuePriority := value }
  let g := { g with queueLevel := Function.update g.queueLevel (g.pcb process).pid value.toNat }
  g.preemptEnable

/-- `sched_set_param`. -/
def schedSetParam (g : Globals) (process : PcbPtr) (param value : Int) : Int × Globals :=
  if process = .initProcess then (-1, g)
  else if param = SCHED_PARAM_PRIORITY then
    if value < 1 then (-1, g)
    else (0, g.modifyPcb process fun b ↦ { b with priority := value })
  else if param = SCHED_PARAM_TICKETS then
    if value < 1 then (-1, g)
    else (0, g.modifyPcb process fun b ↦ { b with tickets := value })
  else if param = SCHED_PARAM_QUEUE_PRIORITY then
    if value < 0 ∨ value ≥ ML_MAX_LEVELS then (-1, g)
    else (0, g.setQueuePriority process (g.clampLevel value))
  else (-1, g)

/-- `syscall_set_sched_param`. -/
def syscallSetSchedParam (g : Globals) (pid param value : Int) : Int × Globals :=
  match g.searchProcess pid with
  | none => (-1, g)
  | some p => g.schedSetParam p param value

/-! ## Bookkeeping of a tick -/

/-- The first lines of `handle_timer_tick`: charge the tick to the running process. -/
def chargeTick (g : Globals) : Globals :=
  g.modifyPcb g.currentProcess fun b ↦
    { b with counter := b.counter - 1, burstTicks := b.burstTicks + 1 }

/-- The guards of `handle_timer_tick` let a tick enter the scheduler: the slice of the running
process ends with this tick, it may be preempted, and the algorithm does preempt it. -/
def TickSwitches (g : Globals) : Prop :=
  g.current.counter ≤ 1 ∧ g.current.preemptDisabled ≤ 0 ∧
    (g.algorithm.isPreemptive = true ∨ g.currentProcess = .initProcess)

instance (g : Globals) : Decidable g.TickSwitches := inferInstanceAs (Decidable (_ ∧ _ ∧ _))

/-- The condition under which a tick demotes the running process. -/
def Demotes (g : Globals) (policy : MultilevelPolicy) : Prop :=
  policy.demoteOnExpiry = true ∧ g.currentProcess ≠ .initProcess ∧ g.current.counter ≤ 0 ∧
    g.current.preemptDisabled = 0 ∧ g.queueLevel g.current.pid < policy.nLevels - 1

instance (g : Globals) (policy : MultilevelPolicy) : Decidable (g.Demotes policy) :=
  inferInstanceAs (Decidable (_ ∧ _ ∧ _ ∧ _ ∧ _))

/-- The demotion at the end of `_multilevel_on_tick`. -/
def demote (g : Globals) (policy : MultilevelPolicy) : Globals :=
  if g.Demotes policy then
    { g with
      queueLevel := Function.update g.queueLevel g.current.pid (g.queueLevel g.current.pid + 1) }
  else g

end Globals

namespace Kernel

/-- `add_process_to_scheduler`. -/
def addProcessToScheduler (process : PcbPtr) (k : Kernel Pointers) :
    Option (Int × Kernel Pointers) := do
  if k.nProcesses ≥ N_PROCESSES ∨ (k.pcb process).pid ≥ N_PROCESSES then some (-1, k)
  else
    let k := k.mapGlobals (·.register process)
    let k ← if (k.pcb process).state = .ready then k.enqueueProcess process else some k
    some (0, k.mapGlobals fun g ↦ { g with nProcesses := g.nProcesses + 1 })

/-- What `add_process_to_scheduler` does: it refuses, or it registers, links and counts. -/
theorem addProcessToScheduler_cases {process : PcbPtr} {k k' : Kernel Pointers} {r : Int}
    (h : k.addProcessToScheduler process = some (r, k')) :
    ((k.nProcesses ≥ N_PROCESSES ∨ (k.pcb process).pid ≥ N_PROCESSES) ∧ r = -1 ∧ k' = k) ∨
    ¬ (k.nProcesses ≥ N_PROCESSES ∨ (k.pcb process).pid ≥ N_PROCESSES) ∧ r = 0 ∧
      ∃ k₁, (if (k.pcb process).state = .ready then
          (k.mapGlobals (·.register process)).enqueueProcess process
        else some (k.mapGlobals (·.register process))) = some k₁ ∧
        k' = k₁.mapGlobals fun g ↦ { g with nProcesses := g.nProcesses + 1 } := by
  unfold addProcessToScheduler at h
  split_ifs at h with hfull
  · obtain ⟨rfl, rfl⟩ := Prod.mk.inj (Option.some.inj h)
    exact .inl ⟨hfull, rfl, rfl⟩
  · have hpcb : ((k.mapGlobals (·.register process)).pcb process) = k.pcb process := rfl
    dsimp only at h
    rw [hpcb] at h
    split_ifs at h with hready
    · obtain ⟨k₁, hk₁, h⟩ := Option.bind_eq_some_iff.mp h
      obtain ⟨rfl, rfl⟩ := Prod.mk.inj (Option.some.inj h)
      exact .inr ⟨hfull, rfl, k₁, by rw [if_pos hready]; exact hk₁, rfl⟩
    · obtain ⟨rfl, rfl⟩ := Prod.mk.inj (Option.some.inj h)
      exact .inr ⟨hfull, rfl, _, by rw [if_neg hready], rfl⟩

/-- The wake-up of a process that waits for an event: if `p` is in the state `s`, make it
ready and give it to the scheduler. -/
def wakeIf (s : ProcessState) (p : PcbPtr) (k : Kernel Pointers) : Option (Kernel Pointers) :=
  if (k.pcb p).state = s then (k.mapGlobals (·.setState p .ready)).enqueueProcess p else some k

/-! ## Timer tick -/

/-- The body of the boost loop: empty one queue into level 0. -/
def boostQueue (q : Nat) : Nat → Kernel Pointers → Option (Kernel Pointers)
  | 0, _ => none
  | fuel + 1, k =>
      match k.dequeueProcessFrom (.mlQueues q) with
      | (none, k) => some k
      | (some p, k) =>
          let k := k.mapGlobals fun g ↦
            { g with queueLevel := Function.update g.queueLevel (g.pcb p).pid 0 }
          boostQueue q fuel (k.enqueueProcessTo (.mlQueues 0) p)

/-- The periodic boost: everyone moves to level 0. -/
def boost (policy : MultilevelPolicy) (k : Kernel Pointers) : Option (Kernel Pointers) := do
  let k ← (List.range policy.nLevels).tail.foldlM (fun k q ↦ k.boostQueue q QUEUE_FUEL) k
  some (k.mapGlobals fun g ↦
    { g with
      queueLevel := fun i ↦ if i < N_PROCESSES then 0 else g.queueLevel i
      mlTicksSinceBoost := 0 })

/-- `_multilevel_on_tick`. -/
def multilevelOnTick (k : Kernel Pointers) : Option (Kernel Pointers) := do
  let policy ← k.algorithm.mlPolicy
  let k ←
    if policy.boostPeriod > 0 then
      let k := k.mapGlobals fun g ↦ { g with mlTicksSinceBoost := g.mlTicksSinceBoost + 1 }
      if k.mlTicksSinceBoost ≥ policy.boostPeriod then k.boost policy else some k
    else some k
  some (k.mapGlobals (·.demote policy))

/-- The call `if (active_algorithm->on_tick) active_algorithm->on_tick()`. -/
def onTick (k : Kernel Pointers) : Option (Kernel Pointers) :=
  match k.algorithm.onTick with
  | none => some k
  | some .multilevelOnTick => k.multilevelOnTick

/-- `handle_timer_tick` up to its call of `_schedule`; the flag is `false` when it
returns before that. -/
def tickEntry (k : Kernel Pointers) : Option (Bool × Kernel Pointers) := do
  let k ← (k.mapGlobals (·.chargeTick)).onTick
  if k.current.counter > 0 ∨ k.current.preemptDisabled > 0 then some (false, k)
  else
    let k := k.mapGlobals fun g ↦ g.setCounter g.currentProcess 0
    if k.algorithm.isPreemptive = false ∧ k.currentProcess ≠ .initProcess then some (false, k)
    else some (true, k)

/-- Enter the scheduler if the flag says so. -/
def continueWith : Bool × Kernel Pointers → Option (Kernel Pointers)
  | (true, k) => k.pickNext
  | (false, k) => some k

/-- `handle_timer_tick`, up to its return or to the moment another process runs. -/
def handleTimerTick (k : Kernel Pointers) : Option (Kernel Pointers) := k.tickEntry >>= continueWith

/-! ## Termination and system calls -/

/-- `syscall_yield`. -/
def syscallYield (k : Kernel Pointers) : Option (Kernel Pointers) :=
  (k.mapGlobals fun g ↦ g.setCounter g.currentProcess 0).schedule

/-- The loop body of `exit_process`: wake slot `i` if it waits for the caller. -/
def wakeWaiter (k : Kernel Pointers) (i : Nat) : Option (Kernel Pointers) :=
  match k.processes i with
  | none => some k
  | some p =>
      if (k.pcb p).state = .waitingAnotherProcess ∧ (k.pcb p).pidToWait = k.current.pid then
        (k.mapGlobals (·.modifyPcb p fun b ↦
          { b with state := .ready, pidToWait := -1 })).enqueueProcess p
      else some k

/-- `exit_process`, up to the call of `schedule`. -/
def terminate (k : Kernel Pointers) : Option (Kernel Pointers) := do
  let k := k.mapGlobals fun g ↦ (g.preemptDisable).setState g.currentProcess .zombie
  let k ← (List.range N_PROCESSES).foldlM wakeWaiter k
  some (k.mapGlobals (·.preemptEnable))

/-- `exit_process`. -/
def exitProcess (k : Kernel Pointers) : Option (Kernel Pointers) := do
  let k ← k.terminate
  k.schedule

/-- `current_process->state = s; schedule();` -/
def blockCurrent (s : ProcessState) (k : Kernel Pointers) : Option (Kernel Pointers) :=
  (k.mapGlobals fun g ↦ g.setState g.currentProcess s).schedule

/-- `syscall_wait`. -/
def syscallWait (pid : Int) (k : Kernel Pointers) : Option (Int × Kernel Pointers) := do
  match k.searchProcess pid with
  | none => some (-1, k)
  | some p =>
      if (k.pcb p).state = .zombie then some (0, k)
      else
        let k ← (k.mapGlobals fun g ↦ g.modifyPcb g.currentProcess fun b ↦
          { b with state := .waitingAnotherProcess, pidToWait := pid }).schedule
        some (0, k)

end Kernel

end DemosOS
