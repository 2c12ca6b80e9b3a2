import Mathlib.Data.BitVec

/-!
# Processes

The data of a process as `libs/scheduler.h` declares it: the constants, the process
states, the message ring and the process control block.

## Conventions

* A `struct PCB *` is a `PcbPtr`: the static `init_process`, or a control block
  placed at the start of page `i` of the page allocator.  `NULL` is `none`.
* The field `next_ready` is not part of `PCB`: it is the `next` component of the
  queue links (`DemosOS.Kernel.Queues`), so that the scheduler's data and its
  pointers can be reasoned about separately.
* `long` and `int` counters are `Int`; the signal mask, whose bits matter, is a
  `BitVec 32`; `unsigned long` addresses are `Nat`.
* Message bodies are the strings they hold, without the terminator.
-/

namespace DemosOS

/-! ## Constants -/

def N_PROCESSES : Nat := 64
def MAX_FILES_PER_PROCESS : Nat := 16
def MAX_PROCESS_PAGES : Nat := 16
def MAX_MESSAGES_PER_PROCESS : Nat := 4
def PF_KTHREAD : Nat := 2

def SIGNAL_KILL : Nat := 1
def SIGNAL_STOP : Nat := 2
def SIGNAL_RESUME : Nat := 3

def QUEUE_PRIORITY_HIGHEST : Int := 0
def ML_MAX_LEVELS : Nat := 5
def MLFQ_BOOST_PERIOD : Nat := 300

def VA_START : Nat := 0xffff000000000000
def PAGE_SIZE : Nat := 4096
def LOW_MEMORY : Nat := 0x400000
def HIGH_MEMORY : Nat := 0x3F000000
def N_PAGES : Nat := (HIGH_MEMORY - LOW_MEMORY) / PAGE_SIZE

/-! ## Process states -/

/-- The values of `state`.  `unset` is the `0` of the static initialiser of init
and of a zeroed page. -/
inductive ProcessState
  | unset
  | running
  | zombie
  | waitingUartInput
  | waitingToReceiveMessage
  | waitingToSendMessage
  | waitingAnotherProcess
  | stopped
  | ready
deriving DecidableEq, Repr

/-- The four `PROCESS_WAITING_…` states. -/
def ProcessState.IsWaiting : ProcessState → Prop
  | .waitingUartInput | .waitingToReceiveMessage | .waitingToSendMessage
  | .waitingAnotherProcess => True
  | _ => False

instance : DecidablePred ProcessState.IsWaiting := fun s ↦ by
  cases s <;> unfold ProcessState.IsWaiting <;> infer_instance

@[simp] theorem ProcessState.not_isWaiting_ready : ¬ ProcessState.ready.IsWaiting := id

/-! ## Pointers to control blocks -/

/-- A non-`NULL` `struct PCB *`. -/
inductive PcbPtr
  | initProcess
  | page (i : Nat)
deriving DecidableEq, Repr

/-! ## Messages -/

/-- `struct Message`. -/
structure Message where
  sourceProcess : Option PcbPtr
  destinationProcess : Option PcbPtr
  body : List UInt8
deriving DecidableEq, Repr

/-- `struct MessagesCircularBuffer`; only the first `MAX_MESSAGES_PER_PROCESS`
cells of `buffer` exist. -/
structure MessagesCircularBuffer where
  head : Nat
  tail : Nat
  buffer : Nat → Message

/-! ## Address spaces -/

/-- `struct user_page`. -/
structure UserPage where
  physicalAddress : Nat
  virtualAddress : Nat
deriving DecidableEq, Repr

/-- `struct mm_struct`. -/
structure MmStruct where
  pgd : Nat
  nUserPages : Nat
  userPages : Nat → UserPage
  nKernelPages : Nat
  kernelPages : Nat → Nat

/-! ## Saved registers -/

/-- The fields of `struct cpu_context` that C code writes. -/
structure CpuContext where
  x19 : Nat
  x20 : Nat
  sp : Nat
  pc : Nat
deriving DecidableEq, Repr

/-- `struct pt_regs`, the trap frame at the end of the page of the control block. -/
structure PtRegs where
  registers : Nat → Nat
  sp : Nat
  pc : Nat
  pstate : Nat

/-! ## The process control block -/

/-- `struct PCB`, with two neighbours in its page: `ptRegs` is the trap frame at
the end of the page, and `pastEnd` the string in the bytes right after the
structure, which the message ring can reach (see `DemosOS.Kernel.Messages`). -/
structure PCB where
  cpuContext : CpuContext
  state : ProcessState
  counter : Int
  priority : Int
  estBurst : Int
  burstTicks : Int
  queuePriority : Int
  tickets : Int
  preemptDisabled : Int
  pid : Nat
  flags : Nat
  files : Nat → Nat
  mm : MmStruct
  messagesBuffer : MessagesCircularBuffer
  pendingSignals : BitVec 32
  pidToWait : Int
  pastEnd : List UInt8
  ptRegs : PtRegs

/-- The control block read from a zeroed page. -/
def PCB.zero : PCB where
  cpuContext := ⟨0, 0, 0, 0⟩
  state := .unset
  counter := 0
  priority := 0
  estBurst := 0
  burstTicks := 0
  queuePriority := 0
  tickets := 0
  preemptDisabled := 0
  pid := 0
  flags := 0
  files _ := 0
  mm := ⟨0, 0, fun _ ↦ ⟨0, 0⟩, 0, fun _ ↦ 0⟩
  messagesBuffer := ⟨0, 0, fun _ ↦ ⟨none, none, []⟩⟩
  pendingSignals := 0
  pidToWait := 0
  pastEnd := []
  ptRegs := ⟨fun _ ↦ 0, 0, 0, 0⟩

/-- The macro `INIT_PROCESS`. -/
def INIT_PROCESS : PCB :=
  { PCB.zero with
    counter := 1
    priority := 1
    queuePriority := QUEUE_PRIORITY_HIGHEST
    tickets := 10
    pidToWait := -1 }

/-! ## Signal bits -/

namespace PCB

/-- `pending_signals & (1 << s)`. -/
def hasSignal (p : PCB) (s : Nat) : Prop := p.pendingSignals &&& (1#32 <<< s) ≠ 0#32

instance (p : PCB) (s : Nat) : Decidable (p.hasSignal s) :=
  inferInstanceAs (Decidable (_ ≠ _))

/-- `pending_signals &= ~(1 << s)`. -/
def clearSignal (p : PCB) (s : Nat) : PCB :=
  { p with pendingSignals := p.pendingSignals &&& ~~~(1#32 <<< s) }

/-- `pending_signals |= (1 << signal_flag)`.  The shift amount is an `int` that no
caller checks; the `lsl` it compiles to takes it modulo the register width. -/
def raiseSignal (p : PCB) (signalFlag : Int) : PCB :=
  { p with pendingSignals := p.pendingSignals ||| (1#32 <<< (signalFlag % 32).toNat) }

/-- None of the signals the kernel knows is pending. -/
def NoSignal (p : PCB) : Prop :=
  ¬ p.hasSignal SIGNAL_KILL ∧ ¬ p.hasSignal SIGNAL_STOP ∧ ¬ p.hasSignal SIGNAL_RESUME

instance (p : PCB) : Decidable p.NoSignal := inferInstanceAs (Decidable (_ ∧ _ ∧ _))

theorem hasSignal_iff (p : PCB) {s : Nat} (hs : s < 32) :
    p.hasSignal s ↔ p.pendingSignals.getLsbD s = true := by
  unfold hasSignal
  rw [← BitVec.twoPow_eq]
  rw [BitVec.and_twoPow]
  by_cases h : p.pendingSignals.getLsbD s
  · simp only [h, if_true, iff_true]
    intro he
    have := congrArg (fun b ↦ BitVec.getLsbD b s) he
    simp [hs] at this
  · simp [h]

/-- Clearing one signal leaves the others pending. -/
theorem hasSignal_clearSignal (p : PCB) {s t : Nat} (hs : s < 32) (ht : t < 32) :
    (p.clearSignal s).hasSignal t ↔ p.hasSignal t ∧ t ≠ s := by
  rw [hasSignal_iff _ ht, hasSignal_iff _ ht]
  simp only [clearSignal, ← BitVec.twoPow_eq, BitVec.getLsbD_and, BitVec.getLsbD_not,
    BitVec.getLsbD_twoPow, Bool.and_eq_true]
  by_cases h : s = t
  · subst h; simp [hs]
  · simp [h, Ne.symm h, ht]

/-- Raising one signal keeps what was pending. -/
theorem hasSignal_raiseSignal (p : PCB) {s : Nat} (hs : s < 32) (f : Int) :
    (p.raiseSignal f).hasSignal s ↔ p.hasSignal s ∨ s = (f % 32).toNat := by
  have hf : (f % 32).toNat < 32 := by omega
  rw [hasSignal_iff _ hs, hasSignal_iff _ hs]
  simp only [raiseSignal, ← BitVec.twoPow_eq, BitVec.getLsbD_or, BitVec.getLsbD_twoPow,
    Bool.or_eq_true]
  by_cases h : s = (f % 32).toNat
  · simp [← h, hs]
  · simp [h, Ne.symm h]

/-- A mask without bits has no signal. -/
theorem hasSignal_of_zero {p : PCB} (h : p.pendingSignals = 0) (s : Nat) : ¬ p.hasSignal s := by
  simp [hasSignal, h]

end PCB

end DemosOS
