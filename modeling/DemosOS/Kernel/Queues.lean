import DemosOS.Kernel.State

/-!
# Ready queues and insertion policies

The queue operations of `scheduler.c` and the insertion policies of the algorithm
descriptors.  A queue operation links or unlinks through the pointers of
`DemosOS.Lib.IntrusiveQueue`, whose operations are the bodies of the C functions;
what is added here is the guard for init and the change of process state.

A loop that follows `next_ready` pointers gets `QUEUE_FUEL` steps: a queue holds at
most `N_PROCESSES` nodes, and `none` stands for a loop that has not finished by
then, which only a corrupted queue can cause.
-/

namespace DemosOS

/-- One step per process and one to meet `NULL`. -/
def QUEUE_FUEL : Nat := N_PROCESSES + 1

namespace Kernel

/-- `enqueue_process_to`. -/
def enqueueProcessTo (queue : QueueId) (process : PcbPtr) (k : Kernel Pointers) :
    Kernel Pointers :=
  if process = .initProcess then k
  else
    { toGlobals := k.toGlobals.setState process .ready
      queues := k.queues.pushBack queue process }

/-- `dequeue_process_from`. -/
def dequeueProcessFrom (queue : QueueId) (k : Kernel Pointers) :
    Option PcbPtr × Kernel Pointers :=
  ((k.queues.popFront queue).1, { k with queues := (k.queues.popFront queue).2 })

/-- `remove_process_from`. -/
def removeProcessFrom (queue : QueueId) (previous : Option PcbPtr) (process : PcbPtr)
    (k : Kernel Pointers) : Kernel Pointers :=
  { k with queues := k.queues.unlink queue previous process }

/-- `enqueue_sorted_to`: the queue is kept in ascending order of `est_burst`, and a
new process goes after those with the same estimate. -/
def enqueueSortedTo (queue : QueueId) (process : PcbPtr) (k : Kernel Pointers) :
    Option (Kernel Pointers) :=
  if process = .initProcess then some k
  else
    let g := k.toGlobals.setState process .ready
    let links := k.queues.setNext process none
    let shorter := fun node ↦ decide ((g.pcb process).estBurst < (g.pcb node).estBurst)
    match (links.ends queue).head with
    | none => some ⟨g, links.setEnds queue ⟨some process, some process⟩⟩
    | some head =>
        if shorter head then some ⟨g, links.pushFront queue process⟩
        else do
          let current ← links.seekBefore shorter QUEUE_FUEL head
          some ⟨g, links.insertAfter queue current process⟩

/-! ## Insertion policies -/

/-- `_enqueue_fifo`. -/
def enqueueFifo (process : PcbPtr) (k : Kernel Pointers) : Kernel Pointers :=
  k.enqueueProcessTo .readyQueue process

/-- `_enqueue_sjf`. -/
def enqueueSjf (process : PcbPtr) (k : Kernel Pointers) : Option (Kernel Pointers) :=
  k.enqueueSortedTo .readyQueue process

/-- `_enqueue_multilevel`. -/
def enqueueMultilevel (process : PcbPtr) (k : Kernel Pointers) : Kernel Pointers :=
  k.enqueueProcessTo (.mlQueues (k.queueLevel (k.pcb process).pid)) process

/-- The call `active_algorithm->enqueue(process)`. -/
def activeEnqueue (process : PcbPtr) (k : Kernel Pointers) : Option (Kernel Pointers) :=
  match k.algorithm.enqueue with
  | .enqueueFifo => some (k.enqueueFifo process)
  | .enqueueSjf => k.enqueueSjf process
  | .enqueueMultilevel => some (k.enqueueMultilevel process)

/-- `enqueue_process`. -/
def enqueueProcess (process : PcbPtr) (k : Kernel Pointers) : Option (Kernel Pointers) :=
  if process = .initProcess then some k else k.activeEnqueue process

end Kernel

end DemosOS
