import DemosOS.Lib.A64

/-!
# The memory routines

The text of `memory.S`.  `memzero` and `memcpy` test their counter at the bottom; `memcmp` leaves
through the exit of `memset`, and runs into `memset` when the two blocks are equal.
-/

namespace DemosOS

open Lib.A64

/-- The labels of `memory.S`. -/
inductive MemoryLabel
  | memzero
  | memcpy
  | memcmp
  | lLoop
  | lEqual
  | memset
  | lExit
deriving DecidableEq, Repr

/-- `memory.S`. -/
def memoryS : Text MemoryLabel := [
  .label .memzero,
  .code (.strZeroPost 0 8),
  .code (.subs .x 1 1 (.imm 8)),
  .code (.bgt .memzero),
  .code .ret,
  .label .memcpy,
  .code (.ldrbPost 3 1 1),
  .code (.strbPost 3 0 1),
  .code (.subs .w 2 2 (.imm 1)),
  .code (.bgt .memcpy),
  .code .ret,
  .label .memcmp,
  .code (.cbz .x 2 .lEqual),
  .label .lLoop,
  .code (.ldrbPost 3 0 1),
  .code (.ldrbPost 4 1 1),
  .code (.subs .w 5 3 (.reg 4)),
  .code (.cbnz .w 5 .lExit),
  .code (.subs .x 2 2 (.imm 1)),
  .code (.cbnz .x 2 .lLoop),
  .label .lEqual,
  .code (.mov .w 5 (.imm 0)),
  .label .memset,
  .code (.cbz .x 2 .lExit),
  .code (.strb 1 0),
  .code (.add .x 0 0 (.imm 1)),
  .code (.sub .x 2 2 (.imm 1)),
  .code (.b .memset),
  .label .lExit,
  .code (.mov .w 0 (.reg 5)),
  .code .ret]

/-- The call of a routine, with its arguments in the registers from `x0` on. -/
def call (routine : MemoryLabel) (s : State) : State := { s with pc := memoryS.address routine }

end DemosOS
