import DemosOS.Kernel.Operations
import Mathlib.Logic.Relation

/-!
# Runs of scheduler operations

The operations on the scheduler, each run without interruption, and the states they
lead to from boot.  `Op.Enabled` is what the callers promise:

* a new process comes from `copy_process`: its control block is in a page of its own,
  its pid is `n_processes`, it is `READY` and has the positive priority of its parent;
* a process is woken (`handle_uart_irq`, `push_message`, `receive_message`) when it is
  in one of the waiting states;
* init runs no system call: after `kernel_main` has set it up it only idles;
* the value of `set_sched_param` is an `int`.

An operation that gives up the processor is cut in two, at its call of `_schedule`:
`Op.entry` is the part before, with a flag that says whether the call is made.
-/

namespace DemosOS

/-- An operation on the scheduler. -/
inductive Op
  | /-- `add_process_to_scheduler` with a new process. -/
    add (process : PcbPtr) (pcb : PCB)
  | /-- A waiting process becomes `READY` and is given to `enqueue_process`. -/
    wake (process : PcbPtr)
  | /-- `syscall_yield`. -/
    yield
  | /-- The current process blocks in the given state. -/
    block (state : ProcessState)
  | /-- `syscall_wait`. -/
    wait (pid : Int)
  | /-- `exit_process`. -/
    exit
  | /-- `handle_timer_tick`. -/
    tick
  | /-- `syscall_send_signal`. -/
    signal (pid signalFlag : Int)
  | /-- `syscall_set_sched_param`. -/
    setParam (pid param value : Int)

namespace Op

/-- What the callers of an operation promise. -/
def Enabled (g : Globals) : Op → Prop
  | add p b => ¬ g.Known p ∧ b.pid = g.nProcesses ∧ b.state = .ready ∧ 1 ≤ b.priority
  | wake p => g.Known p ∧ p ≠ .initProcess ∧ (g.pcb p).state.IsWaiting
  | yield | tick | signal _ _ => True
  | block s => g.currentProcess ≠ .initProcess ∧ s.IsWaiting ∧ s ≠ .waitingAnotherProcess
  | wait _ | exit => g.currentProcess ≠ .initProcess
  | setParam _ _ value => -2 ^ 31 ≤ value ∧ value < 2 ^ 31

/-- The operation, as the kernel runs it. -/
def run (k : Kernel Pointers) : Op → Option (Kernel Pointers)
  | add p b => ((k.mapGlobals (·.modifyPcb p fun _ ↦ b)).addProcessToScheduler p).map (·.2)
  | wake p => (k.mapGlobals (·.setState p .ready)).enqueueProcess p
  | yield => k.syscallYield
  | block s => k.blockCurrent s
  | wait pid => (k.syscallWait pid).map (·.2)
  | exit => k.exitProcess
  | tick => k.handleTimerTick
  | signal pid f => some (k.mapGlobals fun g ↦ (g.syscallSendSignal pid f).2)
  | setParam pid param value =>
      some (k.mapGlobals fun g ↦ (g.syscallSetSchedParam pid param value).2)

/-- The operation up to its call of `_schedule`, and whether it makes that call. -/
def entry (k : Kernel Pointers) : Op → Option (Bool × Kernel Pointers)
  | yield =>
      some (true, (k.mapGlobals fun g ↦ g.setCounter g.currentProcess 0).mapGlobals (·.endBurst))
  | block s =>
      some (true, (k.mapGlobals fun g ↦ g.setState g.currentProcess s).mapGlobals (·.endBurst))
  | wait pid =>
      match k.searchProcess pid with
      | none => some (false, k)
      | some p =>
          if (k.pcb p).state = .zombie then some (false, k)
          else some (true, (k.mapGlobals fun g ↦ g.modifyPcb g.currentProcess fun b ↦
            { b with state := .waitingAnotherProcess, pidToWait := pid }).mapGlobals (·.endBurst))
  | exit => k.terminate.map fun k ↦ (true, k.mapGlobals (·.endBurst))
  | tick => k.tickEntry
  | op => (op.run k).map (false, ·)

/-- An operation is its entry, followed by the scheduler if it is called. -/
theorem run_eq (k : Kernel Pointers) (op : Op) : op.run k = op.entry k >>= Kernel.continueWith := by
  cases op with
  | add p b =>
      simp only [entry, run, Option.bind_eq_bind]
      cases (k.mapGlobals (·.modifyPcb p fun _ ↦ b)).addProcessToScheduler p <;> rfl
  | wake p =>
      simp only [entry, run, Option.bind_eq_bind]
      cases (k.mapGlobals (·.setState p .ready)).enqueueProcess p <;> rfl
  | yield => rfl
  | block s => rfl
  | wait pid =>
      simp only [entry, run, Kernel.syscallWait, Option.bind_eq_bind]
      cases k.searchProcess pid with
      | none => rfl
      | some p =>
          simp only
          split_ifs
          · rfl
          · simp only [Option.bind_some, Kernel.continueWith, Kernel.schedule]
            cases ((k.mapGlobals _).mapGlobals _).pickNext <;> rfl
  | exit =>
      simp only [entry, run, Kernel.exitProcess, Option.bind_eq_bind]
      cases k.terminate <;> rfl
  | tick => rfl
  | signal pid f => rfl
  | setParam pid param value => rfl

end Op

/-! ## Checked runs

For runs on concrete inputs: an executable version of the promises, and sequences of
operations that check them. -/

/-- `Op.Enabled`, with the table searched up to its size. -/
def Op.check (g : Globals) (op : Op) : Bool :=
  match op with
  | add p b => (List.range N_PROCESSES).all (fun i ↦ g.processes i ≠ some p) &&
      (b.pid = g.nProcesses ∧ b.state = .ready ∧ 1 ≤ b.priority : Bool)
  | wake p => (List.range N_PROCESSES).any (fun i ↦ g.processes i = some p) &&
      (p ≠ .initProcess ∧ (g.pcb p).state.IsWaiting : Bool)
  | yield | tick | signal _ _ => true
  | block s => g.currentProcess ≠ .initProcess ∧ s.IsWaiting ∧ s ≠ .waitingAnotherProcess
  | wait _ | exit => g.currentProcess ≠ .initProcess
  | setParam _ _ value => -2 ^ 31 ≤ value ∧ value < 2 ^ 31

theorem Op.enabled_of_check {g : Globals} (h : g.Table) {op : Op} (hop : op.check g = true) :
    op.Enabled g := by
  cases op with
  | add p b =>
      simp only [check, Bool.and_eq_true, List.all_eq_true, List.mem_range,
        decide_eq_true_eq] at hop
      refine ⟨?_, hop.2⟩
      rintro ⟨i, hi⟩
      exact hop.1 i ((h.slot hi).1.trans_le h.bound) hi
  | wake p =>
      simp only [check, Bool.and_eq_true, List.any_eq_true, List.mem_range,
        decide_eq_true_eq] at hop
      obtain ⟨⟨i, -, hi⟩, hp⟩ := hop
      exact ⟨⟨i, hi⟩, hp⟩
  | yield => trivial
  | block s => simpa [check, Enabled] using hop
  | wait pid => simpa [check, Enabled] using hop
  | exit => simpa [check, Enabled] using hop
  | tick => trivial
  | signal pid f => trivial
  | setParam pid param value => simpa [check, Enabled] using hop

/-- Run a sequence of operations whose promises hold. -/
def runAll : List Op → Kernel Pointers → Option (Kernel Pointers)
  | [], k => some k
  | op :: ops, k => if op.check k.toGlobals then (op.run k).bind (runAll ops) else none

theorem runAll_append (ops ops' : List Op) (k : Kernel Pointers) :
    runAll (ops ++ ops') k = (runAll ops k).bind (runAll ops') := by
  induction ops generalizing k with
  | nil => rfl
  | cons op ops ih =>
      rw [List.cons_append, runAll, runAll]
      split_ifs
      · cases op.run k with
        | none => rfl
        | some k₁ => exact ih k₁
      · rfl

/-- The control block of a child of init, as far as the scheduler reads it. -/
def childOfInit (pid : Nat) : PCB :=
  { PCB.zero with
    state := .ready
    counter := 10
    priority := 1
    tickets := 10
    preemptDisabled := 1
    pid := pid }

/-! ## Reachable states -/

/-- One operation by whoever may perform it. -/
def Step (k k' : Kernel Pointers) : Prop := ∃ op : Op, op.Enabled k.toGlobals ∧ op.run k = some k'

/-- The states that sequences of operations reach from boot. -/
def Reachable (k : Kernel Pointers) : Prop :=
  ∃ algorithm timerClo, Relation.ReflTransGen Step (Kernel.boot algorithm timerClo) k

end DemosOS
