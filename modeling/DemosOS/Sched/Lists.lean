import DemosOS.Kernel.Operations

/-!
# The scheduler on lists

What the scheduler is for, without pointers: the ready queues are lists of
processes, insertion is insertion into a list, and each selection function is a
recursion over the list it searches.  The data of the processes is that of the
kernel (`Globals`), so this level and the kernel differ in the queues alone.

| kernel | lists |
|---|---|
| `enqueue_process` | `Spec.enqueue`: append, or insert before the first longer estimate |
| the `dequeue` loop | `Spec.takeReady`: drop processes until one is `READY` |
| the two walks of a draw | `Spec.splitWinner`: cut the list at the winning ticket |
| the walk of priority aging | `Spec.signalAll`, `Spec.survivors` and `Spec.best` |
| the cascade over the levels | `Spec.takeFromLevels` |

The processes in a queue are `READY`, so handling the signals of one of them is the
function `PCB.signalled` of its control block: the branch that re-enqueues a
stopped process cannot be taken here.  `DemosOS.Sched.Refinement` proves that the
kernel performs exactly these list operations.
-/

namespace DemosOS

/-- What `handle_process_signals` does to a process that is not stopped. -/
def PCB.signalled (b : PCB) : PCB :=
  if b.hasSignal SIGNAL_KILL then { b with state := .zombie }.clearSignal SIGNAL_KILL
  else if b.hasSignal SIGNAL_STOP then { b with state := .stopped }.clearSignal SIGNAL_STOP
  else if b.hasSignal SIGNAL_RESUME then b.clearSignal SIGNAL_RESUME
  else b

@[simp] theorem PCB.signalled_counter (b : PCB) : b.signalled.counter = b.counter := by
  unfold signalled clearSignal
  split_ifs <;> rfl

/-- Apply the signals of one process. -/
def Globals.signal (g : Globals) (p : PcbPtr) : Globals := g.modifyPcb p PCB.signalled

@[simp] theorem Globals.signal_pcb_self (g : Globals) (p : PcbPtr) :
    (g.signal p).pcb p = (g.pcb p).signalled := modifyPcb_pcb_self ..

@[simp] theorem Globals.signal_pcb_of_ne (g : Globals) {p q : PcbPtr} (h : q ≠ p) :
    (g.signal p).pcb q = g.pcb q := modifyPcb_pcb_of_ne _ _ h

namespace Spec

/-! ## Insertion -/

/-- Insert `p` before the first process with a longer estimate. -/
def insertSorted (g : Globals) (p : PcbPtr) (l : List PcbPtr) : List PcbPtr :=
  let notLonger := fun x ↦ !decide ((g.pcb p).estBurst < (g.pcb x).estBurst)
  l.takeWhile notLonger ++ p :: l.dropWhile notLonger

/-- The queue the active algorithm puts `p` in. -/
def targetQueue (g : Globals) (p : PcbPtr) : QueueId :=
  match g.algorithm.enqueue with
  | .enqueueFifo | .enqueueSjf => .readyQueue
  | .enqueueMultilevel => .mlQueues (g.queueLevel (g.pcb p).pid)

/-- Where in that queue it goes. -/
def insert (g : Globals) (p : PcbPtr) (l : List PcbPtr) : List PcbPtr :=
  match g.algorithm.enqueue with
  | .enqueueSjf => insertSorted g p l
  | .enqueueFifo | .enqueueMultilevel => l ++ [p]

theorem insert_multilevel {g : Globals} (h : g.algorithm.enqueue = .enqueueMultilevel) (p : PcbPtr)
    (l : List PcbPtr) : insert g p l = l ++ [p] := by
  rw [insert, h]

/-- Make `p` ready: it is `READY` and in the queue its algorithm wants. -/
def enqueue (p : PcbPtr) (a : Kernel Lists) : Kernel Lists :=
  if p = .initProcess then a
  else
    { toGlobals := a.toGlobals.setState p .ready
      queues := Function.update a.queues (targetQueue a.toGlobals p)
        (insert a.toGlobals p (a.queues (targetQueue a.toGlobals p))) }

/-- Put the running process back if it is still runnable. -/
def park (a : Kernel Lists) : Kernel Lists :=
  if a.StillRunnable then enqueue a.currentProcess a else a

@[simp] theorem enqueue_activeAlgorithm (p : PcbPtr) (a : Kernel Lists) :
    (enqueue p a).activeAlgorithm = a.activeAlgorithm := by
  unfold enqueue
  split <;> rfl

@[simp] theorem park_activeAlgorithm (a : Kernel Lists) :
    (park a).activeAlgorithm = a.activeAlgorithm := by
  unfold park
  split
  · exact enqueue_activeAlgorithm _ a
  · rfl

/-! ## Selection -/

/-- Handle signals from the front of the list until a process is `READY`. -/
def takeReady : Globals → List PcbPtr → Globals × Option PcbPtr × List PcbPtr
  | g, [] => (g, none, [])
  | g, p :: l =>
      if (g.pcb p).signalled.state = .ready then (g.signal p, some p, l)
      else takeReady (g.signal p) l

/-- What `takeReady` leaves of the list is a suffix. -/
theorem takeReady_suffix (g : Globals) (l : List PcbPtr) : (takeReady g l).2.2 <:+ l := by
  induction l generalizing g with
  | nil => exact List.suffix_rfl
  | cons p l ih =>
      by_cases hp : (g.pcb p).signalled.state = .ready
      · simp [takeReady, hp]
      · simpa [takeReady, hp] using (ih (g.signal p)).trans (List.suffix_cons p l)

/-- `takeReady` leaves the processes outside the list alone. -/
theorem takeReady_pcb_of_notMem (g : Globals) {l : List PcbPtr} {x : PcbPtr} (hx : x ∉ l) :
    (takeReady g l).1.pcb x = g.pcb x := by
  induction l generalizing g with
  | nil => rfl
  | cons p l ih =>
      rw [List.mem_cons, not_or] at hx
      by_cases hp : (g.pcb p).signalled.state = .ready
      · simp [takeReady, hp, hx.1]
      · simp [takeReady, hp, ih _ hx.2, hx.1]

/-- `takeReady` leaves alone the processes it leaves in the list. -/
theorem takeReady_pcb_of_mem (g : Globals) {l : List PcbPtr} (hl : l.Nodup) {x : PcbPtr}
    (hx : x ∈ (takeReady g l).2.2) : (takeReady g l).1.pcb x = g.pcb x := by
  induction l generalizing g with
  | nil => rfl
  | cons p l ih =>
      obtain ⟨hpl, hl⟩ := List.nodup_cons.mp hl
      by_cases hp : (g.pcb p).signalled.state = .ready
      · simp only [takeReady, hp, if_true] at hx ⊢
        have hxp : x ≠ p := fun e ↦ hpl (e ▸ hx)
        simp [hxp]
      · simp only [takeReady, hp, if_false] at hx ⊢
        have hxp : x ≠ p := fun e ↦ hpl (e ▸ (takeReady_suffix _ l).subset hx)
        rw [ih _ hl hx, Globals.signal_pcb_of_ne _ hxp]

/-- All tickets in the list. -/
def totalTickets (g : Globals) (l : List PcbPtr) : Int :=
  (l.map fun p ↦ (g.pcb p).drawTickets).sum

/-- Cut the list where the holder of the ticket `winner` begins. -/
def splitWinner (g : Globals) : Int → List PcbPtr → List PcbPtr × List PcbPtr
  | _, [] => ([], [])
  | winner, p :: l =>
      if (g.pcb p).drawTickets > winner then ([], p :: l)
      else
        let rest := splitWinner g (winner - (g.pcb p).drawTickets) l
        (p :: rest.1, rest.2)

/-- Draw until the winner is `READY`. -/
def drawWinner : Nat → Globals → List PcbPtr → Option (Globals × Option PcbPtr × List PcbPtr)
  | 0, _, _ => none
  | _ + 1, g, [] => some (g, none, [])
  | fuel + 1, g, p :: l =>
      let random := g.lotteryRandom.1
      let g := g.lotteryRandom.2
      let winner : Int := (random.toNat % (totalTickets g (p :: l)).toNat : Nat)
      match splitWinner g winner (p :: l) with
      | (_, []) => none
      | (pre, candidate :: post) =>
          if (g.pcb candidate).signalled.state = .ready then
            some (g.signal candidate, some candidate, pre ++ post)
          else drawWinner fuel (g.signal candidate) (pre ++ post)

/-- Handle the signals of every process of the list. -/
def signalAll (g : Globals) (l : List PcbPtr) : Globals := l.foldl Globals.signal g

@[simp] theorem signalAll_cons (g : Globals) (p : PcbPtr) (l : List PcbPtr) :
    signalAll g (p :: l) = signalAll (g.signal p) l := rfl

/-- Handling the signals of a list leaves the processes outside it alone. -/
theorem signalAll_pcb_of_notMem (g : Globals) {l : List PcbPtr} {p : PcbPtr} (hp : p ∉ l) :
    (signalAll g l).pcb p = g.pcb p := by
  induction l generalizing g with
  | nil => rfl
  | cons x l ih =>
      rw [List.mem_cons, not_or] at hp
      rw [signalAll_cons, ih _ hp.2, Globals.signal_pcb_of_ne _ hp.1]

/-- Each process of the list handles its own signals, once. -/
theorem signalAll_pcb_of_mem (g : Globals) {l : List PcbPtr} {p : PcbPtr} (hl : l.Nodup)
    (hp : p ∈ l) : (signalAll g l).pcb p = (g.pcb p).signalled := by
  induction l generalizing g with
  | nil => simp at hp
  | cons x l ih =>
      obtain ⟨hx, hl⟩ := List.nodup_cons.mp hl
      rw [signalAll_cons]
      rcases List.mem_cons.mp hp with rfl | hp
      · rw [signalAll_pcb_of_notMem _ hx, Globals.signal_pcb_self]
      · have hpx : p ≠ x := fun e ↦ hx (e ▸ hp)
        rw [ih _ hl hp, Globals.signal_pcb_of_ne _ hpx]

/-- The processes of the list that are `READY`. -/
def survivors (g : Globals) (l : List PcbPtr) : List PcbPtr :=
  l.filter fun p ↦ (g.pcb p).state = .ready

/-- The first process of the list with the largest counter above `maxCounter`, or
`candidate` if there is none. -/
def best (g : Globals) : Option PcbPtr → Int → List PcbPtr → Option PcbPtr
  | candidate, _, [] => candidate
  | candidate, maxCounter, p :: l =>
      if (g.pcb p).counter > maxCounter then best g (some p) (g.pcb p).counter l
      else best g candidate maxCounter l

/-- Handle all signals and take the process with the largest counter, recharging
all counters as long as none is positive. -/
def agingLoop : Nat → Globals → List PcbPtr → Option (Globals × Option PcbPtr × List PcbPtr)
  | 0, _, _ => none
  | fuel + 1, g, l =>
      let g := signalAll g l
      let l := survivors g l
      match best g none 0 l with
      | some p => some (g, some p, l.erase p)
      | none => if l = [] then some (g, none, []) else agingLoop fuel g.recharge l

/-- The first `READY` process of the given levels, and its level. -/
def takeFromLevels : List Nat → Kernel Lists → Option (PcbPtr × Nat) × Kernel Lists
  | [], a => (none, a)
  | q :: levels, a =>
      match takeReady a.toGlobals (a.queues (.mlQueues q)) with
      | (g, some p, l) => (some (p, q), ⟨g, Function.update a.queues (.mlQueues q) l⟩)
      | (g, none, l) => takeFromLevels levels ⟨g, Function.update a.queues (.mlQueues q) l⟩

/-- Conclude a search of the ready queue: what is left of it, and init if nobody was
found; `charge` is the quantum the algorithm gives. -/
def settle (a : Kernel Lists) (charge : PcbPtr → Globals → Globals)
    (r : Globals × Option PcbPtr × List PcbPtr) : PcbPtr × Kernel Lists :=
  match r.2.1 with
  | none => (.initProcess, ⟨r.1, Function.update a.queues .readyQueue r.2.2⟩)
  | some p => (p, ⟨charge p r.1, Function.update a.queues .readyQueue r.2.2⟩)

/-- Conclude a search of the levels: the quantum is that of the level. -/
def settleLevel (policy : MultilevelPolicy) (r : Option (PcbPtr × Nat) × Kernel Lists) :
    PcbPtr × Kernel Lists :=
  match r.1 with
  | none => (.initProcess, r.2)
  | some (p, level) => (p, r.2.mapGlobals (·.setCounter p (policy.quantum.getD level 0)))

/-- The quantum of round robin and of the lottery. -/
def tenTicks (p : PcbPtr) (g : Globals) : Globals := g.setCounter p 10

/-- The choice among the queued processes, for each selection function. -/
def choose (a : Kernel Lists) : Option (PcbPtr × Kernel Lists) :=
  match a.algorithm.pickNext with
  | .scheduleRoundRobin =>
      some (settle a tenTicks (takeReady a.toGlobals (a.queues .readyQueue)))
  | .scheduleQueueHead =>
      some (settle a (fun _ g ↦ g) (takeReady a.toGlobals (a.queues .readyQueue)))
  | .scheduleLottery =>
      (drawWinner QUEUE_FUEL a.toGlobals (a.queues .readyQueue)).map (settle a tenTicks)
  | .schedulePriorityAging =>
      (agingLoop a.EPOCH_FUEL a.toGlobals (a.queues .readyQueue)).map (settle a fun _ g ↦ g)
  | .scheduleMultilevel =>
      a.algorithm.mlPolicy.map fun policy ↦
        settleLevel policy (takeFromLevels (List.range policy.nLevels) a)

/-- The state in which the choice is made: preemption is off and the running
process is back in its queue if it is still runnable. -/
def parked (a : Kernel Lists) : Kernel Lists := park (a.mapGlobals (·.preemptDisable))

/-- Selection: what every `_schedule_…` function does before the switch. -/
def select (a : Kernel Lists) : Option (PcbPtr × Kernel Lists) := choose (parked a)

/-- A scheduler invocation. -/
def pickNext (a : Kernel Lists) : Option (Kernel Lists) :=
  (select a).map fun r ↦ r.2.mapGlobals (·.dispatch r.1)

/-! ## Tick and termination -/

/-- The queues after a boost: level 0 gets the queues of the given levels, in order. -/
def boostQueues (levels : List Nat) (ls : Lists) : Lists
  | .readyQueue => ls .readyQueue
  | .mlQueues q =>
      if q = 0 then ls (.mlQueues 0) ++ levels.flatMap fun l ↦ ls (.mlQueues l)
      else if q ∈ levels then [] else ls (.mlQueues q)

/-- The periodic boost. -/
def boost (policy : MultilevelPolicy) (a : Kernel Lists) : Kernel Lists :=
  { toGlobals := { a.toGlobals with
      queueLevel := fun i ↦ if i < N_PROCESSES then 0 else a.queueLevel i
      mlTicksSinceBoost := 0 }
    queues := boostQueues (List.range policy.nLevels).tail a.queues }

/-- `_multilevel_on_tick`. -/
def multilevelOnTick (policy : MultilevelPolicy) (a : Kernel Lists) : Kernel Lists :=
  let a :=
    if policy.boostPeriod > 0 then
      let a := a.mapGlobals fun g ↦ { g with mlTicksSinceBoost := g.mlTicksSinceBoost + 1 }
      if a.mlTicksSinceBoost ≥ policy.boostPeriod then boost policy a else a
    else a
  a.mapGlobals (·.demote policy)

/-- The per-tick bookkeeping of the active algorithm. -/
def onTick (a : Kernel Lists) : Option (Kernel Lists) :=
  match a.algorithm.onTick with
  | none => some a
  | some .multilevelOnTick => a.algorithm.mlPolicy.map fun policy ↦ multilevelOnTick policy a

/-- `handle_timer_tick` up to its call of `_schedule`. -/
def tickEntry (a : Kernel Lists) : Option (Bool × Kernel Lists) := do
  let a ← onTick (a.mapGlobals (·.chargeTick))
  if a.current.counter > 0 ∨ a.current.preemptDisabled > 0 then some (false, a)
  else
    let a := a.mapGlobals fun g ↦ g.setCounter g.currentProcess 0
    if a.algorithm.isPreemptive = false ∧ a.currentProcess ≠ .initProcess then some (false, a)
    else some (true, a)

/-- Enter the scheduler if the flag says so. -/
def continueWith : Bool × Kernel Lists → Option (Kernel Lists)
  | (true, a) => pickNext a
  | (false, a) => some a

/-- Wake the process in slot `i` if it waits for the running one. -/
def wakeWaiter (a : Kernel Lists) (i : Nat) : Kernel Lists :=
  match a.processes i with
  | none => a
  | some p =>
      if (a.pcb p).state = .waitingAnotherProcess ∧ (a.pcb p).pidToWait = a.current.pid then
        enqueue p (a.mapGlobals (·.modifyPcb p fun b ↦
          { b with state := .ready, pidToWait := -1 }))
      else a

/-- `exit_process`, up to the call of `schedule`. -/
def terminate (a : Kernel Lists) : Kernel Lists :=
  let a := a.mapGlobals fun g ↦ (g.preemptDisable).setState g.currentProcess .zombie
  ((List.range N_PROCESSES).foldl wakeWaiter a).mapGlobals (·.preemptEnable)

end Spec

end DemosOS
