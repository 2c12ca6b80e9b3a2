import DemosOS.Kernel.Process
import DemosOS.Lib.IntrusiveQueue

/-!
# The state of the kernel

The global variables of the kernel: the process table, `current_process`, the
scheduler's bookkeeping, the page allocator and the console ring, together with the
seven algorithm descriptors.

`Globals` is everything except the ready queues.  `Kernel Q` adds the ready queues
in a representation `Q`: `Kernel Pointers` is the kernel as it is, with intrusive
queues, and `Kernel Lists` the same kernel with its queues seen as lists
(`DemosOS.Sched.Lists`).  Code that does not touch a queue is a function on
`Globals` and is shared by the two.
-/

namespace DemosOS

open Lib

/-! ## Algorithm descriptors -/

/-- `MultilevelPolicy`. -/
structure MultilevelPolicy where
  nLevels : Nat
  quantum : List Int
  demoteOnExpiry : Bool
  boostPeriod : Nat
deriving DecidableEq, Repr

def mlPolicyMlq : MultilevelPolicy where
  nLevels := 5
  quantum := [10, 12, 14, 16, 20]
  demoteOnExpiry := false
  boostPeriod := 0

def mlPolicyMlfq : MultilevelPolicy where
  nLevels := 5
  quantum := [5, 8, 10, 15, 20]
  demoteOnExpiry := true
  boostPeriod := MLFQ_BOOST_PERIOD

/-- The functions an `enqueue` pointer can hold. -/
inductive EnqueueFn
  | enqueueFifo
  | enqueueSjf
  | enqueueMultilevel
deriving DecidableEq, Repr

/-- The functions a `pick_next` pointer can hold. -/
inductive PickFn
  | schedulePriorityAging
  | scheduleRoundRobin
  | scheduleLottery
  | scheduleQueueHead
  | scheduleMultilevel
deriving DecidableEq, Repr

/-- The functions an `on_tick` pointer can hold. -/
inductive OnTickFn
  | multilevelOnTick
deriving DecidableEq, Repr

/-- `SchedAlgorithm`: the function pointers of a descriptor are the names of the
functions they point to. -/
structure SchedAlgorithm where
  enqueue : EnqueueFn
  pickNext : PickFn
  onTick : Option OnTickFn
  isPreemptive : Bool
  mlPolicy : Option MultilevelPolicy
deriving DecidableEq, Repr

/-- The seven descriptors `active_algorithm` can point to. -/
inductive Algorithm
  | roundRobin
  | fcfs
  | sjf
  | lottery
  | priorityAging
  | mlq
  | mlfq
deriving DecidableEq, Repr

/-- The descriptor tables at the end of `scheduler.c`. -/
def Algorithm.descriptor : Algorithm → SchedAlgorithm
  | .roundRobin => ⟨.enqueueFifo, .scheduleRoundRobin, none, true, none⟩
  | .fcfs => ⟨.enqueueFifo, .scheduleQueueHead, none, false, none⟩
  | .sjf => ⟨.enqueueSjf, .scheduleQueueHead, none, false, none⟩
  | .lottery => ⟨.enqueueFifo, .scheduleLottery, none, true, none⟩
  | .priorityAging => ⟨.enqueueFifo, .schedulePriorityAging, none, true, none⟩
  | .mlq =>
      ⟨.enqueueMultilevel, .scheduleMultilevel, some .multilevelOnTick, true, some mlPolicyMlq⟩
  | .mlfq =>
      ⟨.enqueueMultilevel, .scheduleMultilevel, some .multilevelOnTick, true, some mlPolicyMlfq⟩

/-! ## Memory and console -/

inductive ResourceType
  | file
  | folder
deriving DecidableEq, Repr

/-- `FatResource`; `ptr` is the untagged union of the `File *` and the `Dir *`. -/
structure FatResource where
  resourceType : ResourceType
  ptr : Nat
deriving DecidableEq, Repr

/-- The page allocator and the contents of memory: `bytes` by physical address for the
pages that hold programs and buffers, and typed contents for the pages whose bytes the
kernel interprets: page tables by physical address, `FatResource` records by kernel
address.  `failedAllocations` is a history variable, the number of calls of
`get_free_page` that returned `0`. -/
structure Memory where
  memoryPages : Nat → Bool
  bytes : Nat → UInt8
  tables : Nat → Nat → Nat
  fatResources : Nat → FatResource
  failedAllocations : Nat

/-- The console ring of `uart.c`. -/
structure Uart where
  owner : Option PcbPtr
  buffer : Nat → UInt8
  head : Nat
  tail : Nat

/-! ## Global variables -/

/-- The global variables of the kernel, ready queues excluded.  `timerClo` is the
sequence of values the free-running system timer will deliver to the reads still
to come. -/
structure Globals where
  pcb : PcbPtr → PCB
  currentProcess : PcbPtr
  processes : Nat → Option PcbPtr
  nProcesses : Nat
  activeAlgorithm : Algorithm
  queueLevel : Nat → Nat
  mlTicksSinceBoost : Nat
  lotteryRngState : BitVec 64
  timerClo : Nat → BitVec 32
  memory : Memory
  uart : Uart

/-- The kernel, with its ready queues represented by a `Q`. -/
structure Kernel (Q : Type) extends Globals where
  queues : Q

/-- A `ProcessQueue *`: the ready queue, or one of the queues `ml_queues[level]`. -/
inductive QueueId
  | readyQueue
  | mlQueues (level : Nat)
deriving DecidableEq, Repr

/-- The ready queues as the kernel keeps them: a `next_ready` pointer per process
and a head and a tail per queue. -/
abbrev Pointers := Links QueueId PcbPtr

/-- The ready queues as lists of processes. -/
abbrev Lists := QueueId → List PcbPtr

/-! ## The state at boot -/

/-- The initial value of `lottery_rng_state`, and its replacement for zero. -/
def LOTTERY_SEED : BitVec 64 := 88172645463325252

/-- The static initialisers: init is the only process and the current one. -/
def Globals.boot (algorithm : Algorithm) (timerClo : Nat → BitVec 32) : Globals where
  pcb
    | .initProcess => INIT_PROCESS
    | .page _ => PCB.zero
  currentProcess := .initProcess
  processes i := if i = 0 then some .initProcess else none
  nProcesses := 1
  activeAlgorithm := algorithm
  queueLevel _ := 0
  mlTicksSinceBoost := 0
  lotteryRngState := LOTTERY_SEED
  timerClo := timerClo
  memory := ⟨fun _ ↦ false, fun _ ↦ 0, fun _ _ ↦ 0, fun _ ↦ ⟨.file, 0⟩, 0⟩
  uart := ⟨none, fun _ ↦ 0, 0, 0⟩

/-- The kernel at boot: all queues are `QUEUE_INIT`. -/
def Kernel.boot (algorithm : Algorithm) (timerClo : Nat → BitVec 32) : Kernel Pointers where
  toGlobals := Globals.boot algorithm timerClo
  queues := ⟨fun _ ↦ none, fun _ ↦ ⟨none, none⟩⟩

/-! ## Updates -/

namespace Globals

/-- Rewrite one control block. -/
def modifyPcb (g : Globals) (p : PcbPtr) (f : PCB → PCB) : Globals :=
  { g with pcb := Function.update g.pcb p (f (g.pcb p)) }

section

variable (g : Globals) (p q : PcbPtr) (f : PCB → PCB)

@[simp] theorem modifyPcb_pcb_self : (g.modifyPcb p f).pcb p = f (g.pcb p) :=
  Function.update_self ..

@[simp] theorem modifyPcb_pcb_of_ne {p q : PcbPtr} (h : q ≠ p) :
    (g.modifyPcb p f).pcb q = g.pcb q :=
  Function.update_of_ne h ..

theorem modifyPcb_pcb : (g.modifyPcb p f).pcb q = if q = p then f (g.pcb p) else g.pcb q := by
  by_cases h : q = p
  · subst h; simp
  · simp [h]

@[simp] theorem modifyPcb_currentProcess :
    (g.modifyPcb p f).currentProcess = g.currentProcess := rfl
@[simp] theorem modifyPcb_processes : (g.modifyPcb p f).processes = g.processes := rfl
@[simp] theorem modifyPcb_nProcesses : (g.modifyPcb p f).nProcesses = g.nProcesses := rfl
@[simp] theorem modifyPcb_activeAlgorithm :
    (g.modifyPcb p f).activeAlgorithm = g.activeAlgorithm := rfl
@[simp] theorem modifyPcb_queueLevel : (g.modifyPcb p f).queueLevel = g.queueLevel := rfl
@[simp] theorem modifyPcb_mlTicksSinceBoost :
    (g.modifyPcb p f).mlTicksSinceBoost = g.mlTicksSinceBoost := rfl
@[simp] theorem modifyPcb_memory : (g.modifyPcb p f).memory = g.memory := rfl
@[simp] theorem modifyPcb_uart : (g.modifyPcb p f).uart = g.uart := rfl

/-- A field that the update leaves alone is left alone in every control block. -/
theorem modifyPcb_field {α : Type} (π : PCB → α) (hf : ∀ b, π (f b) = π b) :
    π ((g.modifyPcb p f).pcb q) = π (g.pcb q) := by
  by_cases h : q = p
  · subst h; simp [hf]
  · simp [h]

end

/-- `p->state = s`. -/
def setState (g : Globals) (p : PcbPtr) (s : ProcessState) : Globals :=
  g.modifyPcb p fun b ↦ { b with state := s }

theorem setState_field {α : Type} (g : Globals) (p : PcbPtr) (s : ProcessState) (π : PCB → α)
    (hπ : ∀ (b : PCB) (s : ProcessState), π { b with state := s } = π b) (q : PcbPtr) :
    π ((g.setState p s).pcb q) = π (g.pcb q) :=
  g.modifyPcb_field p q _ π fun b ↦ hπ b s

/-- `p->counter = c`. -/
def setCounter (g : Globals) (p : PcbPtr) (c : Int) : Globals :=
  g.modifyPcb p fun b ↦ { b with counter := c }

/-- The control block of the running process. -/
def current (g : Globals) : PCB := g.pcb g.currentProcess

/-- `active_algorithm`, dereferenced. -/
def algorithm (g : Globals) : SchedAlgorithm := g.activeAlgorithm.descriptor

/-- The pairings of selection function and insertion policy in the descriptors. -/
theorem algorithm_cases (g : Globals) :
    (g.algorithm.pickNext = .scheduleRoundRobin ∧ g.algorithm.enqueue = .enqueueFifo) ∨
    g.algorithm.pickNext = .scheduleQueueHead ∨
    (g.algorithm.pickNext = .scheduleLottery ∧ g.algorithm.enqueue = .enqueueFifo) ∨
    (g.algorithm.pickNext = .schedulePriorityAging ∧ g.algorithm.enqueue = .enqueueFifo) ∨
    (g.algorithm.pickNext = .scheduleMultilevel ∧ g.algorithm.enqueue = .enqueueMultilevel ∧
      ∃ policy, g.algorithm.mlPolicy = some policy) := by
  unfold algorithm
  cases g.activeAlgorithm <;> simp [Algorithm.descriptor]

/-- The algorithms with per-tick bookkeeping are the multilevel ones. -/
theorem algorithm_onTick_cases (g : Globals) :
    g.algorithm.onTick = none ∨ (g.algorithm.onTick = some .multilevelOnTick ∧
      ∃ policy, g.algorithm.mlPolicy = some policy ∧ policy.nLevels = ML_MAX_LEVELS) := by
  unfold algorithm
  cases g.activeAlgorithm <;> simp [Algorithm.descriptor, mlPolicyMlq, mlPolicyMlfq, ML_MAX_LEVELS]

end Globals

namespace Kernel

variable {Q : Type}

/-- Run code that does not touch the ready queues. -/
def mapGlobals (k : Kernel Q) (f : Globals → Globals) : Kernel Q :=
  { k with toGlobals := f k.toGlobals }

@[simp] theorem mapGlobals_mk (g : Globals) (queues : Q) (f : Globals → Globals) :
    (⟨g, queues⟩ : Kernel Q).mapGlobals f = ⟨f g, queues⟩ := rfl

@[simp] theorem mapGlobals_toGlobals (k : Kernel Q) (f : Globals → Globals) :
    (k.mapGlobals f).toGlobals = f k.toGlobals := rfl

@[simp] theorem mapGlobals_queues (k : Kernel Q) (f : Globals → Globals) :
    (k.mapGlobals f).queues = k.queues := rfl

end Kernel

end DemosOS
