import DemosOS.Kernel.Operations

/-!
# Messages

`ipc.c`: the message ring of a process, and the sending and receiving of messages.

The ring is an array of `MAX_MESSAGES_PER_PROCESS` slots, but its indices run up to and
including that number.  In memory the slot past the array is what follows it in
`struct PCB`: the source pointer of a message stored there covers `pending_signals` and
`pid_to_wait`, its destination pointer is `next_ready`, and its body lies behind the
structure.  `writeSlot` and `readSlot` access the slots with this layout.
-/

namespace DemosOS

/-! ## Addresses -/

/-- What the linker decides: the address of the static `init_process`. -/
class KernelImage where
  initProcess : BitVec 64

/-- The value of a pointer to a control block. -/
def PcbPtr.address [KernelImage] : PcbPtr → BitVec 64
  | .initProcess => KernelImage.initProcess
  | .page i => BitVec.ofNat 64 (VA_START + LOW_MEMORY + i * PAGE_SIZE)

/-- The control block an address points to, if any. -/
def PcbPtr.ofAddress [KernelImage] (address : BitVec 64) : Option PcbPtr :=
  let base := VA_START + LOW_MEMORY
  if address = KernelImage.initProcess then some .initProcess
  else if base ≤ address.toNat ∧ (address.toNat - base) % PAGE_SIZE = 0 ∧
      (address.toNat - base) / PAGE_SIZE < N_PAGES then
    some (.page ((address.toNat - base) / PAGE_SIZE))
  else none

/-- The bits of a pointer that may be `NULL`. -/
def pointerBits [KernelImage] (p : Option PcbPtr) : BitVec 64 := p.elim 0 PcbPtr.address

/-! ## The ring -/

/-- The index after `i`. -/
def nextIndex (i : Nat) : Nat := if i + 1 > MAX_MESSAGES_PER_PROCESS then 0 else i + 1

/-- The indices advance modulo one more than the size of the array. -/
theorem nextIndex_eq {i : Nat} (hi : i < MAX_MESSAGES_PER_PROCESS + 1) :
    nextIndex i = (i + 1) % (MAX_MESSAGES_PER_PROCESS + 1) := by
  unfold nextIndex MAX_MESSAGES_PER_PROCESS at *
  split_ifs <;> omega

namespace Kernel

/-- The ring of `owner`. -/
def ring (k : Kernel Pointers) (owner : PcbPtr) : MessagesCircularBuffer :=
  (k.pcb owner).messagesBuffer

/-- The full test of `push_message`. -/
def RingFull (k : Kernel Pointers) (owner : PcbPtr) : Prop :=
  nextIndex (k.ring owner).head = (k.ring owner).tail

instance (k : Kernel Pointers) (owner : PcbPtr) : Decidable (k.RingFull owner) :=
  inferInstanceAs (Decidable (_ = _))

/-- The empty test of `pop_message`. -/
def RingEmpty (k : Kernel Pointers) (owner : PcbPtr) : Prop :=
  (k.ring owner).head = (k.ring owner).tail

instance (k : Kernel Pointers) (owner : PcbPtr) : Decidable (k.RingEmpty owner) :=
  inferInstanceAs (Decidable (_ = _))

/-- `buffer->head = head`. -/
def setHead (owner : PcbPtr) (head : Nat) (k : Kernel Pointers) : Kernel Pointers :=
  k.mapGlobals (·.modifyPcb owner fun b ↦
    { b with messagesBuffer := { b.messagesBuffer with head := head } })

/-- `buffer->tail = tail`. -/
def setTail (owner : PcbPtr) (tail : Nat) (k : Kernel Pointers) : Kernel Pointers :=
  k.mapGlobals (·.modifyPcb owner fun b ↦
    { b with messagesBuffer := { b.messagesBuffer with tail := tail } })

/-- `buffer->buffer[i] = *message`. -/
def writeSlot [KernelImage] (owner : PcbPtr) (i : Nat) (message : Message) (k : Kernel Pointers) :
    Kernel Pointers :=
  if i < MAX_MESSAGES_PER_PROCESS then
    k.mapGlobals (·.modifyPcb owner fun b ↦
      { b with messagesBuffer :=
        { b.messagesBuffer with buffer := Function.update b.messagesBuffer.buffer i message } })
  else
    let source := pointerBits message.sourceProcess
    { toGlobals := k.toGlobals.modifyPcb owner fun b ↦
        { b with
          pendingSignals := source.setWidth 32
          pidToWait := ((source >>> 32).setWidth 32).toInt
          pastEnd := message.body }
      queues := k.queues.setNext owner message.destinationProcess }

/-- `buffer->buffer[i]`. -/
def readSlot [KernelImage] (owner : PcbPtr) (i : Nat) (k : Kernel Pointers) : Message :=
  let b := k.pcb owner
  if i < MAX_MESSAGES_PER_PROCESS then b.messagesBuffer.buffer i
  else
    { sourceProcess := PcbPtr.ofAddress (BitVec.ofInt 32 b.pidToWait ++ b.pendingSignals)
      destinationProcess := k.queues.next owner
      body := b.pastEnd }

/-! ## Wake-ups -/

/-- The wake-up at the end of `push_message`. -/
def wakeReceiver (destinationProcess : PcbPtr) (k : Kernel Pointers) : Option (Kernel Pointers) :=
  k.wakeIf .waitingToReceiveMessage destinationProcess

/-- The body of the loop of `receive_message`.  The code does not test the slot: for an
empty one it reads the word at the offset of `state` from address zero, which belongs to
the program of the caller; that the word is `PROCESS_WAITING_TO_SEND_MESSAGE` is left out. -/
def wakeSender (k : Kernel Pointers) (i : Nat) : Option (Kernel Pointers) :=
  match k.processes i with
  | none => some k
  | some p => k.wakeIf .waitingToSendMessage p

/-- The loop at the end of `receive_message`. -/
def wakeSenders (k : Kernel Pointers) : Option (Kernel Pointers) :=
  (List.range N_PROCESSES).foldlM wakeSender k

/-! ## Pushing and popping -/

/-- `push_message` on the ring of `owner`.  The destination of a message is the process
the wake-up looks at; for `NULL` the function would fault. -/
def pushMessage [KernelImage] (owner : PcbPtr) (message : Message) (k : Kernel Pointers) :
    Option (Int × Kernel Pointers) := do
  let nextHead := nextIndex (k.ring owner).head
  if nextHead = (k.ring owner).tail then some (-1, k)
  else
    let k := k.writeSlot owner (k.ring owner).head message
    let k := k.setHead owner nextHead
    let destinationProcess ← message.destinationProcess
    let k ← k.wakeReceiver destinationProcess
    some (0, k)

/-- `pop_message` on the ring of `owner`; `none` is the return value `-1`. -/
def popMessage [KernelImage] (owner : PcbPtr) (k : Kernel Pointers) :
    Option Message × Kernel Pointers :=
  if k.RingEmpty owner then (none, k)
  else
    let message := k.readSlot owner (k.ring owner).tail
    (some message, k.setTail owner (nextIndex (k.ring owner).tail))

/-- The message that `send_message` builds. -/
def composeMessage (destinationProcess : PcbPtr) (body : List UInt8)
    (k : Kernel Pointers) : Message :=
  ⟨some k.currentProcess, some destinationProcess, body⟩

/-- One turn of the loop of `send_message`, up to the test of its result. -/
def attemptSend [KernelImage] (destinationProcess : PcbPtr) (body : List UInt8)
    (k : Kernel Pointers) : Option (Int × Kernel Pointers) :=
  k.pushMessage destinationProcess (k.composeMessage destinationProcess body)

/-- One turn of the loop of `receive_message`, and what follows when it succeeds: the
body is delivered and the waiting senders are woken. -/
def attemptReceive [KernelImage] (k : Kernel Pointers) :
    Option (Option (List UInt8) × Kernel Pointers) := do
  match k.popMessage k.currentProcess with
  | (none, k) => some (none, k)
  | (some message, k) =>
      let k ← k.wakeSenders
      some (some message.body, k)

end Kernel

end DemosOS
