import DemosOS.Kernel.Operations

/-!
# The console

The receive path of `uart.c`: the interrupt handler puts the bytes it reads in a ring and
wakes every process that waits for input.

The device is seen through the value of the masked interrupt status and the words in
its receive FIFO, which the handler reads until the FIFO is empty.  What the handler
prints, and the writes that acknowledge or mask an interrupt, have no effect on the
modelled state.
-/

namespace DemosOS

def UART_BUFFER_SIZE : Nat := 64

/-- Store a byte, unless that would make the ring look empty. -/
def Uart.store (u : Uart) (c : UInt8) : Uart :=
  let nextHead := (u.head + 1) % UART_BUFFER_SIZE
  if nextHead ≠ u.tail then
    { u with buffer := Function.update u.buffer u.head c, head := nextHead }
  else u

/-- The error bits of a data word. -/
def rxError (dr : BitVec 32) : BitVec 32 := (dr >>> 8) &&& 0xF

namespace Kernel

/-- The body of the wake-up loop of `handle_uart_irq`.  The slot is not tested: an empty
one would be a `NULL` dereference. -/
def wakeReader (k : Kernel Pointers) (i : Nat) : Option (Kernel Pointers) :=
  match k.processes i with
  | none => none
  | some p => k.wakeIf .waitingUartInput p

/-- One word of the receive FIFO. -/
def receiveWord (k : Kernel Pointers) (dr : BitVec 32) : Option (Kernel Pointers) :=
  if rxError dr ≠ 0 then some k
  else
    let c := UInt8.ofBitVec ((dr &&& 0xFF).setWidth 8)
    let k := k.mapGlobals fun g ↦ { g with uart := g.uart.store c }
    (List.range k.nProcesses).foldlM wakeReader k

/-- `handle_uart_irq`, with the words the receive FIFO is left with.  The timeout branch
reads the FIFO to the end and prints what it reads. -/
def handleUartIrq (mis : BitVec 32) (fifo : List (BitVec 32)) (k : Kernel Pointers) :
    Option (List (BitVec 32) × Kernel Pointers) := do
  let (fifo, k) ←
    if mis &&& (1#32 <<< 4) ≠ 0 then (fifo.foldlM receiveWord k).map fun k ↦ ([], k)
    else some (fifo, k)
  if mis &&& (1#32 <<< 6) ≠ 0 then some ([], k) else some (fifo, k)

end Kernel

end DemosOS
