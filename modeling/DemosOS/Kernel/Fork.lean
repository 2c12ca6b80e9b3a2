import DemosOS.Kernel.Files
import DemosOS.Kernel.Operations

/-!
# Creating processes and loading programs

`fork.c` and `syscall_exec`.

The trap frame of a process is at the end of the page of its control block; its words are
the 31 general registers, the stack pointer, the program counter and the saved processor
state.  A word behind the frame is the beginning of the next page.  The kernel stack, which
grows towards the control block in the same page, is not modelled.
-/

namespace DemosOS

def THREAD_SIZE : Nat := 4096
def PSR_MODE_EL0t : Nat := 0
def SYSCALL_EXEC_ARGUMENT_DIMENSION : Nat := 64

/-- The size of `struct pt_regs` in bytes: 34 words. -/
def PT_REGS_SIZE : Nat := 34 * 8

/-- What the linker decides: the address of the assembly routine `ret_from_fork`. -/
class KernelCode where
  retFromFork : Nat

/-- The control block at a kernel address. -/
def PcbPtr.atAddress (address : Nat) : PcbPtr :=
  .page ((address - VA_START - LOW_MEMORY) / PAGE_SIZE)

/-- The physical address of the page of a control block; init is not in a page. -/
def PcbPtr.pageStart : PcbPtr → Option Nat
  | .initProcess => none
  | .page i => some (pageAddress i)

namespace PtRegs

/-- A cleared frame. -/
def zero : PtRegs := ⟨fun _ ↦ 0, 0, 0, 0⟩

/-- `registers[i] = value`. -/
def setRegister (r : PtRegs) (i value : Nat) : PtRegs :=
  { r with registers := Function.update r.registers i value }

/-- `trap_frame[i] = value`, for `i` inside the frame. -/
def setWord (r : PtRegs) (i value : Nat) : PtRegs :=
  if i < 31 then r.setRegister i value
  else if i = 31 then { r with sp := value }
  else if i = 32 then { r with pc := value }
  else { r with pstate := value }

end PtRegs

namespace Kernel

/-! ## copy_process -/

/-- Everything that `copy_process` stores in the new control block after the memory has been
copied; `b` is the control block of the caller. -/
def initialise [KernelCode] (cloneFlags address pid : Nat) (b new : PCB) : PCB :=
  { new with
    flags := cloneFlags
    priority := b.priority
    state := .ready
    counter := 10
    estBurst := b.estBurst
    burstTicks := 0
    queuePriority := b.queuePriority
    tickets := b.tickets
    preemptDisabled := 1
    pid := pid
    cpuContext := { new.cpuContext with
      pc := KernelCode.retFromFork
      sp := address + THREAD_SIZE - PT_REGS_SIZE } }

/-- `copy_process` between `preempt_disable` and `preempt_enable`. -/
def createProcess [KernelCode] (cloneFlags function argument : Nat) (k : Kernel Pointers) :
    Option (Int × Kernel Pointers) :=
  match k.allocateKernelPage with
  | (address, k) =>
      if address = 0 ∨ k.nProcesses ≥ N_PROCESSES then some (-1, k)
      else do
        let newProcess := PcbPtr.atAddress address
        let k := k.mapGlobals (·.modifyPcb newProcess fun b ↦
          { b with ptRegs := PtRegs.zero, cpuContext := ⟨0, 0, 0, 0⟩, files := fun _ ↦ 0 })
        let k ←
          if cloneFlags &&& PF_KTHREAD ≠ 0 then
            some (k.mapGlobals (·.modifyPcb newProcess fun b ↦
              { b with cpuContext := { b.cpuContext with x19 := function, x20 := argument } }))
          else
            let k := k.mapGlobals fun g ↦ g.modifyPcb newProcess fun b ↦
              { b with ptRegs := g.current.ptRegs.setRegister 0 0 }
            (k.copyVirtualMemory newProcess).map (·.2)
        let processId := k.nProcesses
        let k := k.mapGlobals fun g ↦ g.modifyPcb newProcess
          (initialise cloneFlags address processId g.current)
        let (r, k) ← k.addProcessToScheduler newProcess
        if r < 0 then some (-1, k) else some (processId, k)

/-- `copy_process`.  The error returns skip `preempt_enable`. -/
def copyProcess [KernelCode] (cloneFlags function argument : Nat) (k : Kernel Pointers) :
    Option (Int × Kernel Pointers) := do
  let (r, k) ← (k.mapGlobals (·.preemptDisable)).createProcess cloneFlags function argument
  if r < 0 then some (-1, k) else some (r, k.mapGlobals (·.preemptEnable))

/-! ## copy_code and move_to_user_mode -/

/-- The loop of `copy_code` over the given pages; `buffer` is a physical address.  Without a
page the bytes would be written to address zero. -/
def copyCodePages (process : PcbPtr) (buffer size : Nat) : List Nat → Nat → Kernel Pointers →
    Option (Kernel Pointers)
  | [], _, k => some k
  | i :: rest, copiedBytes, k => do
      let (address, k) ← k.allocateUserPage process (i * PAGE_SIZE)
      if copiedBytes < size then
        let bytesToCopy :=
          if size - copiedBytes > PAGE_SIZE then PAGE_SIZE else size - copiedBytes
        if address = 0 then none
        else
          copyCodePages process buffer size rest (copiedBytes + bytesToCopy)
            (k.mapMemory (·.memcpy (address - VA_START) (buffer + copiedBytes) bytesToCopy))
      else copyCodePages process buffer size rest copiedBytes k

/-- `copy_code`. -/
def copyCode (process : PcbPtr) (buffer size : Nat) (k : Kernel Pointers) :
    Option (Kernel Pointers) :=
  k.copyCodePages process buffer size (List.range 16) 0

/-- `move_to_user_mode`; `start` is a physical address. -/
def moveToUserMode (start size pc : Nat) (k : Kernel Pointers) :
    Option (Int × Kernel Pointers) := do
  let k := k.mapGlobals fun g ↦ g.modifyPcb g.currentProcess fun b ↦
    { b with ptRegs := { PtRegs.zero with
      pstate := PSR_MODE_EL0t, pc := pc, sp := 16 * PAGE_SIZE } }
  let k ← k.copyCode k.currentProcess start size
  some (0, k)

/-! ## exec -/

/-- The loop of `syscall_exec` that gives the old pages back, over the given indices. -/
def freeUserPages : List Nat → Kernel Pointers → Option (Kernel Pointers)
  | [], k => some k
  | i :: rest, k => do
      let (_, k) ← k.freePage ((k.current.mm.userPages i).physicalAddress + VA_START)
      freeUserPages rest (k.modifyMm k.currentProcess fun mm ↦
        { mm with
          nUserPages := mm.nUserPages - 1
          userPages := Function.update mm.userPages i ⟨0, 0⟩ })

/-- `trap_frame[i] = value` for the frame of the caller.  Behind the frame, the word falls
into the page that follows that of the control block. -/
def setTrapFrame (i value : Nat) (k : Kernel Pointers) : Kernel Pointers :=
  if i < 34 then
    k.mapGlobals fun g ↦ g.modifyPcb g.currentProcess fun b ↦
      { b with ptRegs := b.ptRegs.setWord i value }
  else
    match k.currentProcess.pageStart with
    | none => k
    | some page => k.mapMemory (·.store (page + THREAD_SIZE + (i - 34) * 8)
        ((List.range 8).map fun j ↦ UInt8.ofNat (value >>> (8 * j))))

/-- Write a byte at a virtual address of the caller. -/
def storeUserByte (virtualAddress : Nat) (c : UInt8) (k : Kernel Pointers) :
    Option (Kernel Pointers) := do
  let address ← k.translate k.currentProcess virtualAddress
  some (k.mapMemory (·.store address [c]))

/-- `strcpy` to a virtual address of the caller, the terminator included. -/
def storeUserString (virtualAddress : Nat) (body : List UInt8) (k : Kernel Pointers) :
    Option (Kernel Pointers) :=
  (body ++ [0]).zipIdx.foldlM (fun (k : Kernel Pointers) (c, i) ↦
    k.storeUserByte (virtualAddress + i) c) k

/-- `strcpy` into a buffer; a string that does not fit is `none`. -/
def copyString (position : Nat) (body buffer : List UInt8) : Option (List UInt8) :=
  if position + body.length + 1 ≤ buffer.length then
    some (buffer.take position ++ (body ++ [0]) ++ buffer.drop (position + body.length + 1))
  else none

/-- The string at a position of a buffer. -/
def stringAt (position : Nat) (buffer : List UInt8) : List UInt8 :=
  (buffer.drop position).takeWhile (· ≠ 0)

/-- `safe_arguments`: the arguments, copied to rows of `SYSCALL_EXEC_ARGUMENT_DIMENSION` bytes,
as they are read back from there. -/
def saveArguments (arguments : List (List UInt8)) : Option (List (List UInt8)) := do
  let rows := List.replicate (arguments.length * SYSCALL_EXEC_ARGUMENT_DIMENSION) 0
  let rows ← arguments.zipIdx.foldlM (fun rows (argument, i) ↦
    copyString (i * SYSCALL_EXEC_ARGUMENT_DIMENSION) argument rows) rows
  some ((List.range arguments.length).map fun i ↦
    stringAt (i * SYSCALL_EXEC_ARGUMENT_DIMENSION) rows)

/-- The loop of `syscall_exec` that passes the arguments on, from argument `i` on.  The stack
pointer is an `unsigned long`. -/
def passArguments : Nat → Nat → List (List UInt8) → Kernel Pointers →
    Option (Nat × Kernel Pointers)
  | _, stackPointer, [], k => some (stackPointer, k)
  | i, stackPointer, argument :: rest, k => do
      let stackPointer := (stackPointer + 2 ^ 64 - SYSCALL_EXEC_ARGUMENT_DIMENSION) % 2 ^ 64
      let k ← k.storeUserString stackPointer argument
      passArguments (i + 1) stackPointer rest (k.setTrapFrame (i + 1) stackPointer)

/-- What the FAT library does for `syscall_exec`: the result of opening the file, the bytes it
delivers into the buffer, and the result of closing it. -/
structure FatFile where
  openError : Int
  readError : Int
  data : List UInt8
  closeError : Int
deriving DecidableEq, Repr

/-- The result of `syscall_exec`: the value returned, the buffer if one was allocated, and
the kernel. -/
structure ExecResult where
  value : Int
  buffer : Option Nat
  kernel : Kernel Pointers

/-- A system call whose result `syscall_exec` ignores; a fault stops the kernel. -/
def ignoring (r : Except Fault FileResult) : Option (Kernel Pointers) :=
  match r with
  | .error _ => none
  | .ok r => some r.kernel

/-- `syscall_exec` from the release of the old pages on; `buffer` is a physical address. -/
def replaceImage (buffer size : Nat) (arguments : List (List UInt8)) (k : Kernel Pointers) :
    Option (Kernel Pointers) := do
  let k ← k.freeUserPages (List.range k.current.mm.nUserPages)
  let k ← k.copyCode k.currentProcess buffer size
  let k := k.setTrapFrame 0 arguments.length
  let (stackPointer, k) ← k.passArguments 0 (16 * PAGE_SIZE) arguments
  let k := k.mapGlobals fun g ↦ g.modifyPcb g.currentProcess fun b ↦
    { b with cpuContext := { b.cpuContext with pc := 0, sp := stackPointer } }
  some ((k.setTrapFrame 31 stackPointer).setTrapFrame 32 0)

/-- `syscall_exec`. -/
def syscallExec (file : FatFile) (arguments : List (List UInt8)) (k : Kernel Pointers) :
    Option ExecResult :=
  match k.syscallOpenFile file.openError with
  | .error _ => none
  | .ok opened =>
      if opened.value = -1 then some ⟨-1, none, opened.kernel⟩
      else
        match opened.kernel.allocateKernelPage with
        | (buffer, k) => do
            let k ← ignoring (k.syscallReadFile opened.value file.readError)
            -- the bytes are delivered up to the length of the file or `PAGE_SIZE * 16`
            let data := file.data.take (PAGE_SIZE * 16)
            if buffer = 0 then none
            else
              let page := buffer - VA_START
              let k := k.mapMemory (·.store page data)
              let k ← ignoring (k.syscallCloseFile opened.value file.closeError)
              if data.length > PAGE_SIZE * 15 then some ⟨-1, some page, k⟩
              else
                let arguments ← saveArguments arguments
                let k ← k.replaceImage page data.length arguments
                some ⟨0, some page, k⟩

end Kernel

end DemosOS
