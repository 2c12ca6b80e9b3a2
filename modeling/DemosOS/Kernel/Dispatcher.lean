import DemosOS.Kernel.Fork

/-!
# The dispatcher

`syscall_dispatcher`, for the system calls that return to their caller before another process
runs: those that work on memory, files and processes.  The argument `registers` is the trap
frame of the caller: a branch reads its arguments from there, and stores in `registers[0]` what
the call returns.

The calls that may switch to another process, `exit`, `yield`, `input`, `wait` and the messages,
and the output on the console have no branch here; their numbers are among `SYSCALLS_NUMBER`
as well.
-/

namespace DemosOS

/-- A system call, with what the FAT library returns to it. -/
inductive SystemCall
  | malloc
  | createDir (error : Int)
  | openDir (error : Int)
  | openFile (error : Int)
  | closeFile (error : Int)
  | writeFile (error : Int)
  | readFile (error : Int)
  | fork
  | sendSignal
  | /-- The arguments of the program are the strings at `registers[2]`. -/
    exec (file : Kernel.FatFile) (arguments : List (List UInt8))
  | setSchedParam
  | getPid

/-- A register, cast to `int`. -/
def asInt (register : Nat) : Int := (BitVec.ofNat 32 register).toInt

/-- An `int`, as it is stored in a register. -/
def asRegister (value : Int) : Nat := (value % 2 ^ 64).toNat

namespace Kernel

/-- `registers[0] = value`. -/
def setResult (value : Int) (k : Kernel Pointers) : Kernel Pointers :=
  k.setTrapFrame 0 (asRegister value)

/-- The result of a file system call goes to `registers[0]`; a fault stops the kernel. -/
def fileCall (r : Except Fault FileResult) : Option (Kernel Pointers) :=
  match r with
  | .error _ => none
  | .ok r => some (r.kernel.setResult r.value)

/-- The branch of `syscall_dispatcher` for a system call. -/
def syscallDispatcher [KernelCode] (k : Kernel Pointers) : SystemCall → Option (Kernel Pointers)
  | .malloc =>
      match k.syscallMalloc with
      | (address, k) => some (k.setResult address)
  | .createDir error => fileCall (k.syscallCreateDir error)
  | .openDir error => fileCall (k.syscallOpenDir error)
  | .openFile error => fileCall (k.syscallOpenFile error)
  | .closeFile error =>
      fileCall (k.syscallCloseFile (asInt (k.current.ptRegs.registers 0)) error)
  | .writeFile error =>
      fileCall (k.syscallWriteFile (asInt (k.current.ptRegs.registers 0)) error)
  | .readFile error => fileCall (k.syscallReadFile (asInt (k.current.ptRegs.registers 0)) error)
  | .fork => do
      let (pid, k) ← k.copyProcess 0 0 0
      some (k.setResult pid)
  | .sendSignal =>
      let registers := k.current.ptRegs.registers
      match k.toGlobals.syscallSendSignal (asInt (registers 0)) (asInt (registers 1)) with
      | (r, g) => some (Kernel.setResult r { k with toGlobals := g })
  | .exec file arguments => do
      -- the result of `syscall_exec` is not stored
      let r ← k.syscallExec file arguments
      some r.kernel
  | .setSchedParam =>
      let registers := k.current.ptRegs.registers
      match k.toGlobals.syscallSetSchedParam (asInt (registers 0)) (asInt (registers 1))
          (asInt (registers 2)) with
      | (r, g) => some (Kernel.setResult r { k with toGlobals := g })
  | .getPid => some (k.setResult k.current.pid)

end Kernel

end DemosOS
