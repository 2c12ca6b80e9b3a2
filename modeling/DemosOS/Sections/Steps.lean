import DemosOS.Kernel.Fork
import DemosOS.Kernel.Messages
import DemosOS.Lib.Interleaving
import DemosOS.Sections.Creation

/-!
# Critical sections, step by step

`preempt_disable` and `preempt_enable` count in the control block of `current_process`, which
changes while a selection function runs: who enters the section of a switch is not who leaves it.
Here the kernel runs in steps that begin and end at the calls of these functions, with timer ticks
and console interrupts between any two of them.

Every process has a stack of places in the code of the kernel.  A system call puts its first place
on the empty stack, and a tick that enters the scheduler puts a selection function on top of
whatever it has interrupted.  On the processor are the registers of one process.  They are not
always those of `current_process`: `switch_to_process` writes that variable before
`cpu_switch_to_process` swaps the registers, and in between ticks are charged to a process whose
code does not run yet.

Everything else is in one kind of step, `write`, which can come anywhere: code that is not concerned
with the sections (files, memory, programs), and the single writes of the code between two places.
It keeps the process table, `current_process` and the counters, stores no link that leads out of the
table, and writes the ready queues only where the code of the place does.  What holds of every run
of these steps holds of runs where a tick comes in the middle of a place as well.

Beside the kernel there is a history variable, the calls of `copy_process` that were refused.
-/

namespace DemosOS

open Lib

/-! ## Selection behind `preempt_disable` -/

namespace Kernel

/-- The selection functions, from behind `preempt_disable` to the choice of the next process. -/
def chooseNext (k : Kernel Pointers) : Option (PcbPtr × Kernel Pointers) :=
  match k.algorithm.pickNext with
  | .schedulePriorityAging => do
      match ← agingLoop k.parkFifo.EPOCH_FUEL k.parkFifo with
      | (none, k) => some (.initProcess, k)
      | (some process, k) => some (process, k)
  | .scheduleRoundRobin => do
      match ← k.parkFifo.takeReady .readyQueue QUEUE_FUEL with
      | (none, k) => some (.initProcess, k)
      | (some process, k) => some (process, k.mapGlobals (·.setCounter process 10))
  | .scheduleLottery => do
      match ← k.parkFifo.drawWinner QUEUE_FUEL with
      | (none, k) => some (.initProcess, k)
      | (some process, k) => some (process, k.mapGlobals (·.setCounter process 10))
  | .scheduleQueueHead => do
      let k ← k.parkActive
      match ← k.takeReady .readyQueue QUEUE_FUEL with
      | (none, k) => some (.initProcess, k)
      | (some process, k) => some (process, k)
  | .scheduleMultilevel => do
      let policy ← k.algorithm.mlPolicy
      match ← k.parkMultilevel.takeFromLevels (List.range policy.nLevels) with
      | (none, k) => some (.initProcess, k)
      | (some (process, targetLevel), k) =>
          some (process, k.mapGlobals (·.setCounter process (policy.quantum.getD targetLevel 0)))

theorem select_eq (k : Kernel Pointers) :
    k.select = (k.mapGlobals (·.preemptDisable)).chooseNext := by
  have halg : (k.mapGlobals (·.preemptDisable)).algorithm = k.algorithm := rfl
  unfold select chooseNext
  rw [halg]
  cases k.algorithm.pickNext <;> rfl

end Kernel

/-! ## Places in the code -/

/-- A place in the code of the kernel. -/
inductive Place
  | /-- Before the call of `schedule`. -/
    schedule
  | /-- Before the `preempt_disable` of a selection function. -/
    entering
  | /-- Behind it, before the choice of the next process. -/
    selecting
  | /-- Before the call of `switch_to_process`. -/
    dispatching (nextProcess : PcbPtr)
  | /-- `current_process` is the next process, before `cpu_switch_to_process`. -/
    swapping (nextProcess : PcbPtr)
  | /-- Before the `preempt_enable` of a selection function. -/
    resuming
  | /-- A new process, before `schedule_tail`. -/
    starting
  | /-- In the loop of `exit_process`, with the slots that are left. -/
    exiting (slots : List Nat)
  | /-- In `copy_process`, behind `preempt_disable`. -/
    forking (cloneFlags function argument : Nat)
  | /-- In `sched_set_param`, before the double update. -/
    settingLevel (process : PcbPtr) (value : Int)
  | /-- Before the `preempt_enable` of `copy_process` or `sched_set_param`. -/
    leaving
  | /-- At the top of the loop of `send_message`. -/
    sending (destination : PcbPtr) (body : List UInt8)
  | /-- The push has failed, the waiting state is not written yet. -/
    sendBlock (destination : PcbPtr) (body : List UInt8)
  | /-- At the wake-up at the end of `push_message`. -/
    wakingReceiver (destination : PcbPtr)
  | /-- At the top of the loop of `receive_message`. -/
    receiving
  | /-- The pop has failed, the waiting state is not written yet. -/
    receiveBlock
  | /-- In the loop at the end of `receive_message`, with the slots that are left. -/
    wakingSenders (slots : List Nat)
deriving DecidableEq

namespace Place

/-- The number of critical sections that are open at a place. -/
def depth : Place → Nat
  | selecting | dispatching _ | swapping _ | resuming | starting | exiting _ | forking _ _ _
  | settingLevel _ _ | leaving => 1
  | _ => 0

/-- The places between the `preempt_disable` of a selection function and the `preempt_enable` or
`schedule_tail` that matches it. -/
def InSwitch : Place → Prop
  | selecting | dispatching _ | swapping _ | resuming | starting => True
  | _ => False

/-- The places where a process can lose the processor: behind its own `cpu_switch_to_process`, and
at its beginning. -/
def IsParked (place : Place) : Prop := place = .resuming ∨ place = .starting

/-- The places whose code writes the heads, tails or links of the ready queues. -/
def Enqueues : Place → Prop
  | selecting | exiting _ | forking _ _ _ | wakingReceiver _ | wakingSenders _ => True
  | _ => False

/-- The process that a place refers to. -/
def target : Place → Option PcbPtr
  | dispatching p | swapping p | sending p _ | sendBlock p _ | wakingReceiver p => some p
  | _ => none

end Place

/-- The kernel, the process whose registers are on the processor, and for every process the number
of its calls of `copy_process` that found no free page or no room in the table. -/
structure Processor where
  kernel : Kernel Pointers
  executing : PcbPtr
  refused : PcbPtr → Nat

namespace Processor

/-- The kernel goes on. -/
def withKernel (s : Processor) (k : Kernel Pointers) : Processor := { s with kernel := k }

/-- Code that does not touch the ready queues. -/
def mapGlobals (s : Processor) (f : Globals → Globals) : Processor :=
  s.withKernel (s.kernel.mapGlobals f)

end Processor

/-! ## The steps -/

section

variable [KernelImage] [KernelCode]

/-- The next step at a place, with the places that replace it on the stack. -/
def Place.step (s : Processor) : Place → Option (Processor × List Place)
  | .schedule => some (s.mapGlobals (·.endBurst), [.entering])
  | .entering => some (s.mapGlobals (·.preemptDisable), [.selecting])
  | .selecting => s.kernel.chooseNext.map fun r ↦ (s.withKernel r.2, [.dispatching r.1])
  | .dispatching nextProcess =>
      some (s.mapGlobals (·.switchToProcess nextProcess),
        [if s.kernel.currentProcess = nextProcess then .resuming else .swapping nextProcess])
  | .swapping nextProcess => some ({ s with executing := nextProcess }, [.resuming])
  | .resuming => some (s.mapGlobals (·.preemptEnable), [])
  | .starting => some (s.mapGlobals (·.scheduleTail), [])
  | .exiting (i :: slots) =>
      (s.kernel.wakeWaiter i).map fun k ↦ (s.withKernel k, [.exiting slots])
  | .exiting [] => some (s.mapGlobals (·.preemptEnable), [.schedule])
  | .forking cloneFlags function argument =>
      (s.kernel.createProcess cloneFlags function argument).map fun r ↦
        ({ s with
            kernel := r.2
            refused :=
              if s.kernel.CanFork then s.refused
              else Function.update s.refused s.executing (s.refused s.executing + 1) },
          if r.1 < 0 then [] else [.leaving])
  | .settingLevel process value =>
      some (s.mapGlobals fun g ↦
        let g := g.modifyPcb process fun b ↦ { b with queuePriority := value }
        { g with queueLevel := Function.update g.queueLevel (g.pcb process).pid value.toNat },
        [.leaving])
  | .leaving => some (s.mapGlobals (·.preemptEnable), [])
  | .sending destination body =>
      if s.kernel.RingFull destination then some (s, [.sendBlock destination body])
      else
        let head := (s.kernel.ring destination).head
        let message := s.kernel.composeMessage destination body
        some (s.withKernel
          ((s.kernel.writeSlot destination head message).setHead destination (nextIndex head)),
          [.wakingReceiver destination])
  | .sendBlock destination body =>
      some (s.mapGlobals fun g ↦ g.setState g.currentProcess .waitingToSendMessage,
        [.schedule, .sending destination body])
  | .wakingReceiver destination =>
      (s.kernel.wakeReceiver destination).map fun k ↦ (s.withKernel k, [])
  | .receiving =>
      match s.kernel.popMessage s.kernel.currentProcess with
      | (none, _) => some (s, [.receiveBlock])
      | (some _, k) => some (s.withKernel k, [.wakingSenders (List.range N_PROCESSES)])
  | .receiveBlock =>
      some (s.mapGlobals fun g ↦ g.setState g.currentProcess .waitingToReceiveMessage,
        [.schedule, .receiving])
  | .wakingSenders (i :: slots) =>
      (s.kernel.wakeSender i).map fun k ↦ (s.withKernel k, [.wakingSenders slots])
  | .wakingSenders [] => some (s, [])

/-- `k'` is the kernel behind a step at a place that leads on to the places `new`. -/
def Place.Leads (place : Place) (k : Kernel Pointers) (new : List Place)
    (k' : Kernel Pointers) : Prop :=
  ∀ s : Processor, s.kernel = k → ∃ s', place.step s = some (s', new) ∧ s'.kernel = k'

/-- The places of a selection function, one after the other, do what it does. -/
theorem Place.leads_pickNext {k k' : Kernel Pointers} (h : k.pickNext = some k') :
    ∃ k₁ k₂ k₃ next, Place.entering.Leads k [.selecting] k₁ ∧
      Place.selecting.Leads k₁ [.dispatching next] k₂ ∧
      (Place.dispatching next).Leads k₂
        [if k₂.currentProcess = next then .resuming else .swapping next] k₃ ∧
      Place.resuming.Leads k₃ [] k' := by
  obtain ⟨⟨next, k₂⟩, hselect, hk'⟩ := Option.bind_eq_some_iff.mp h
  obtain rfl := Option.some.inj hk'
  rw [Kernel.select_eq] at hselect
  refine ⟨k.mapGlobals (·.preemptDisable), k₂, k₂.mapGlobals (·.switchToProcess next), next,
    fun s hs ↦ ⟨_, rfl, ?_⟩, fun s hs ↦ ⟨s.withKernel k₂, ?_, rfl⟩, fun s hs ↦ ?_,
    fun s hs ↦ ⟨_, rfl, ?_⟩⟩
  · exact congrArg (fun k : Kernel Pointers ↦ k.mapGlobals (·.preemptDisable)) hs
  · rw [Place.step, hs, hselect]
    rfl
  · subst hs
    exact ⟨_, rfl, rfl⟩
  · exact congrArg (fun k : Kernel Pointers ↦ k.mapGlobals (·.preemptEnable)) hs

/-- The same for `copy_process` behind `preempt_disable`. -/
theorem Place.leads_copyProcess {flags function argument : Nat} {k k' : Kernel Pointers} {r : Int}
    (h : k.copyProcess flags function argument = some (r, k')) :
    ∃ k₁, (r < 0 ∧ (Place.forking flags function argument).Leads
        (k.mapGlobals (·.preemptDisable)) [] k') ∨
      (Place.forking flags function argument).Leads (k.mapGlobals (·.preemptDisable))
        [.leaving] k₁ ∧
        Place.leaving.Leads k₁ [] k' := by
  obtain ⟨⟨r₁, k₁⟩, hcreate, hk'⟩ := Option.bind_eq_some_iff.mp h
  dsimp only at hk'
  refine ⟨k₁, ?_⟩
  split_ifs at hk' with hneg
  · obtain ⟨rfl, rfl⟩ := Prod.mk.inj (Option.some.inj hk')
    refine .inl ⟨by decide, fun s hs ↦ ?_⟩
    rw [Place.step, hs, hcreate]
    exact ⟨_, congrArg some (congrArg (Prod.mk _) (if_pos hneg)), rfl⟩
  · obtain ⟨rfl, rfl⟩ := Prod.mk.inj (Option.some.inj hk')
    refine .inr ⟨fun s hs ↦ ?_, fun s hs ↦ ⟨_, rfl, ?_⟩⟩
    · rw [Place.step, hs, hcreate]
      exact ⟨_, congrArg some (congrArg (Prod.mk _) (if_neg hneg)), rfl⟩
    · exact congrArg (fun k : Kernel Pointers ↦ k.mapGlobals (·.preemptEnable)) hs

/-- What a process can ask the kernel for. -/
inductive Service
  | yield
  | /-- `current_process->state = s; schedule();` -/
    block (state : ProcessState)
  | wait (pid : Int)
  | exit
  | copyProcess (cloneFlags function argument : Nat)
  | setParam (pid param value : Int)
  | signal (pid signalFlag : Int)
  | send (pid : Int) (body : List UInt8)
  | receive

/-- `sched_set_param` reaches its guarded double update. -/
def SetsLevel (process : PcbPtr) (param value : Int) : Prop :=
  process ≠ .initProcess ∧ param = Globals.SCHED_PARAM_QUEUE_PRIORITY ∧ 0 ≤ value ∧
    value < ML_MAX_LEVELS

instance (process : PcbPtr) (param value : Int) : Decidable (SetsLevel process param value) :=
  inferInstanceAs (Decidable (_ ∧ _ ∧ _ ∧ _))

omit [KernelImage] [KernelCode] in
/-- The first step of a system call, with the stack behind it. -/
def Service.start (s : Processor) : Service → Processor × List Place
  | .yield => (s.mapGlobals fun g ↦ g.setCounter g.currentProcess 0, [.schedule])
  | .block state => (s.mapGlobals fun g ↦ g.setState g.currentProcess state, [.schedule])
  | .wait pid =>
      match s.kernel.searchProcess pid with
      | none => (s, [])
      | some p =>
          if (s.kernel.pcb p).state = .zombie then (s, [])
          else (s.mapGlobals fun g ↦ g.modifyPcb g.currentProcess fun b ↦
            { b with state := .waitingAnotherProcess, pidToWait := pid }, [.schedule])
  | .exit =>
      (s.mapGlobals fun g ↦ g.preemptDisable.setState g.currentProcess .zombie,
        [.exiting (List.range N_PROCESSES)])
  | .copyProcess cloneFlags function argument =>
      (s.mapGlobals (·.preemptDisable), [.forking cloneFlags function argument])
  | .setParam pid param value =>
      match s.kernel.searchProcess pid with
      | none => (s, [])
      | some p =>
          if SetsLevel p param value then
            (s.mapGlobals (·.preemptDisable), [.settingLevel p (s.kernel.clampLevel value)])
          else (s.mapGlobals fun g ↦ (g.schedSetParam p param value).2, [])
  | .signal pid signalFlag =>
      (s.mapGlobals fun g ↦ (g.syscallSendSignal pid signalFlag).2, [])
  | .send pid body =>
      match s.kernel.searchProcess pid with
      | none => (s, [])
      | some destination => (s, [.sending destination body])
  | .receive => (s, [.receiving])

/-- What happens next on the processor. -/
inductive Choice
  | /-- The executing process makes a system call. -/
    call (service : Service)
  | /-- It goes on in the code of the kernel. -/
    proceed
  | /-- A timer tick, up to the call of `_schedule`. -/
    tick
  | uartIrq (mis : BitVec 32) (fifo : List (BitVec 32))
  | /-- Another piece of code, with the kernel behind it. -/
    write (kernel : Kernel Pointers)

/-- The next step on the processor; the stack is that of the executing process. -/
def sectionAct (choice : Choice) (s : Processor) (stack : List Place) :
    Option (Processor × List Place) :=
  match choice, stack with
  | .call service, [] => some (service.start s)
  | .proceed, place :: rest => (place.step s).map fun r ↦ (r.1, r.2 ++ rest)
  | .tick, stack => s.kernel.tickEntry.map fun r ↦
      (s.withKernel r.2, if r.1 = true then .entering :: stack else stack)
  | .uartIrq mis fifo, stack =>
      (s.kernel.handleUartIrq mis fifo).map fun r ↦ (s.withKernel r.2, stack)
  | .write kernel, stack => some (s.withKernel kernel, stack)
  | _, _ => none

/-- What a step on the processor can be. -/
theorem sectionAct_cases {choice : Choice} {s s' : Processor} {stack l : List Place}
    (h : sectionAct choice s stack = some (s', l)) :
    (∃ service, choice = .call service ∧ stack = [] ∧ service.start s = (s', l)) ∨
    (∃ place rest new, choice = .proceed ∧ stack = place :: rest ∧
      place.step s = some (s', new) ∧ l = new ++ rest) ∨
    (∃ b k', choice = .tick ∧ s.kernel.tickEntry = some (b, k') ∧ s' = s.withKernel k' ∧
      l = if b = true then .entering :: stack else stack) ∨
    (∃ mis fifo fifo' k', choice = .uartIrq mis fifo ∧
      s.kernel.handleUartIrq mis fifo = some (fifo', k') ∧ s' = s.withKernel k' ∧ l = stack) ∨
    ∃ k', choice = .write k' ∧ s' = s.withKernel k' ∧ l = stack := by
  cases choice with
  | call service =>
      cases stack with
      | nil => exact .inl ⟨service, rfl, rfl, Option.some.inj h⟩
      | cons place rest => cases h
  | proceed =>
      cases stack with
      | nil => cases h
      | cons place rest =>
          obtain ⟨⟨s', new⟩, hstep, hr⟩ := Option.map_eq_some_iff.mp h
          obtain ⟨rfl, rfl⟩ := Prod.mk.inj hr
          exact .inr (.inl ⟨place, rest, new, rfl, rfl, hstep, rfl⟩)
  | tick =>
      obtain ⟨⟨b, k'⟩, hentry, hr⟩ := Option.map_eq_some_iff.mp h
      obtain ⟨rfl, rfl⟩ := Prod.mk.inj hr
      exact .inr (.inr (.inl ⟨b, k', rfl, hentry, rfl, rfl⟩))
  | uartIrq mis fifo =>
      obtain ⟨⟨fifo', k'⟩, hirq, hr⟩ := Option.map_eq_some_iff.mp h
      obtain ⟨rfl, rfl⟩ := Prod.mk.inj hr
      exact .inr (.inr (.inr (.inl ⟨mis, fifo, fifo', k', rfl, hirq, rfl, rfl⟩)))
  | write k' =>
      obtain ⟨rfl, rfl⟩ := Prod.mk.inj (Option.some.inj h)
      exact .inr (.inr (.inr (.inr ⟨k', rfl, rfl, rfl⟩)))

/-- The processes of the kernel on their processor. -/
def sectionMachine : Machine Processor PcbPtr (List Place) Choice where
  running s := s.executing
  act := sectionAct
  interrupt _ := none

end

abbrev SectionConfig := Config Processor PcbPtr (List Place)

/-- The heads, the tails and the links of the processes are the same. -/
def Kernel.SameQueues (k k' : Kernel Pointers) : Prop :=
  k'.queues.ends = k.queues.ends ∧ ∀ p, k.Known p → k'.queues.next p = k.queues.next p

/-- What other code of the kernel promises. -/
def Choice.Enabled (s : Processor) (stack : List Place) : Choice → Prop
  | write kernel => Kernel.Advances s.executing 0 s.kernel kernel ∧
      (s.kernel.SameQueues kernel ∨ ∃ place rest, stack = place :: rest ∧ place.Enqueues)
  | _ => True

/-- The same for events. -/
def SectionEnabled (e : Event Choice) (c : SectionConfig) : Prop :=
  match e with
  | .act choice => choice.Enabled c.shared (c.point c.shared.executing)
  | .interrupt => True

/-- The kernel at boot: init is on the processor, and every other process will begin in
`ret_from_fork`. -/
def sectionBoot (algorithm : Algorithm) (timerClo : Nat → BitVec 32) : SectionConfig where
  shared := ⟨Kernel.boot algorithm timerClo, .initProcess, fun _ ↦ 0⟩
  point p := if p = .initProcess then [] else [.starting]

section

variable [KernelImage] [KernelCode]

/-- A step is one of the executing process. -/
theorem sectionNext_cases {e : Event Choice} {c c' : SectionConfig}
    (h : sectionMachine.next e c = some c') :
    ∃ choice s l, e = .act choice ∧
      sectionAct choice c.shared (c.point c.shared.executing) = some (s, l) ∧
      c' = ⟨s, Function.update c.point c.shared.executing l⟩ := by
  cases e with
  | interrupt => cases h
  | act choice =>
      obtain ⟨⟨s, l⟩, hact, rfl⟩ := Option.map_eq_some_iff.mp h
      exact ⟨choice, s, l, rfl, hact, rfl⟩

/-- One step. -/
def SectionStep : SectionConfig → SectionConfig → Prop := sectionMachine.Step SectionEnabled

/-- What runs lead to from boot. -/
def SectionReachable (c : SectionConfig) : Prop :=
  ∃ algorithm timerClo, Relation.ReflTransGen SectionStep (sectionBoot algorithm timerClo) c

end

end DemosOS
