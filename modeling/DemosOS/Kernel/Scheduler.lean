import DemosOS.Kernel.Queues

/-!
# The scheduler

Signals, the context switch, the five selection functions, the timer tick and
process termination, as `scheduler.c` has them.

## Reading the selection functions

Every `_schedule_…` function disables preemption, puts the running process back in
a queue if it is still runnable, chooses `next_process`, calls `switch_to_process`
and enables preemption again.  The part up to the choice is the definition
`select…`; the last two lines, the same in all of them, are `dispatch`.  The call of
`preempt_enable` acts on `current_process`, which `switch_to_process` has just
changed: on the processor it is the *incoming* process that executes it, coming out
of its own call of `cpu_switch_to_process` (or in `schedule_tail`, the first time).

Writes to the console (`ML_TRACE`) and to the translation table register
(`set_pgd`) have no effect on the modelled state and are left out.
-/

namespace DemosOS

namespace Globals

/-- `preempt_enable`. -/
def preemptEnable (g : Globals) : Globals :=
  g.modifyPcb g.currentProcess fun b ↦ { b with preemptDisabled := b.preemptDisabled - 1 }

/-- `preempt_disable`. -/
def preemptDisable (g : Globals) : Globals :=
  g.modifyPcb g.currentProcess fun b ↦ { b with preemptDisabled := b.preemptDisabled + 1 }

/-- `switch_to_process`. -/
def switchToProcess (nextProcess : PcbPtr) (g : Globals) : Globals :=
  let g := g.setState nextProcess .running
  if g.currentProcess = nextProcess then g
  else
    let previousProcess := g.currentProcess
    let g :=
      if (g.pcb previousProcess).state = .running then g.setState previousProcess .ready else g
    { g with currentProcess := nextProcess }

/-- The end of every selection function. -/
def dispatch (nextProcess : PcbPtr) (g : Globals) : Globals :=
  (g.switchToProcess nextProcess).preemptEnable

/-- `schedule_tail`. -/
def scheduleTail (g : Globals) : Globals := g.preemptEnable

/-- The condition under which a selection function puts `current_process` back. -/
def StillRunnable (g : Globals) : Prop :=
  g.currentProcess ≠ .initProcess ∧ g.current.state = .running

instance (g : Globals) : Decidable g.StillRunnable := inferInstanceAs (Decidable (_ ∧ _))

/-- The first half of `schedule`: a process that blocks or terminates ends its CPU
burst, and the time slice of the caller is dropped. -/
def endBurst (g : Globals) : Globals :=
  let g :=
    if g.currentProcess ≠ .initProcess ∧ g.current.state ≠ .running ∧ g.current.state ≠ .ready then
      g.modifyPcb g.currentProcess fun b ↦
        { b with estBurst := (b.burstTicks + b.estBurst).tdiv 2, burstTicks := 0 }
    else g
  g.setCounter g.currentProcess 0

/-! ## Epochs and draws -/

/-- The body of the epoch recharge: `counter = (counter >> 1) + priority`. -/
def rechargeSlot (g : Globals) (i : Nat) : Globals :=
  match g.processes i with
  | none => g
  | some p => g.modifyPcb p fun b ↦ { b with counter := (b.counter >>> (1 : Nat)) + b.priority }

/-- The epoch recharge, for every process of the table. -/
def recharge (g : Globals) : Globals := (List.range N_PROCESSES).foldl rechargeSlot g

theorem rechargeSlot_processes (g : Globals) (i : Nat) :
    (g.rechargeSlot i).processes = g.processes := by
  unfold rechargeSlot
  split <;> rfl

/-- A recharge changes counters only. -/
theorem recharge_field {α : Type} (π : PCB → α) (hπ : ∀ (b : PCB) (c : Int),
    π { b with counter := c } = π b) (g : Globals) (p : PcbPtr) :
    π (g.recharge.pcb p) = π (g.pcb p) := by
  unfold recharge
  induction List.range N_PROCESSES generalizing g with
  | nil => rfl
  | cons i l ih =>
      rw [List.foldl_cons, ih, rechargeSlot]
      cases g.processes i with
      | none => rfl
      | some q => exact g.modifyPcb_field q p _ π fun b ↦ hπ b _

/-- Recharging slots that do not hold `p` leaves it alone. -/
theorem foldl_rechargeSlot_pcb {p : PcbPtr} {l : List Nat} (g : Globals)
    (hl : ∀ j ∈ l, g.processes j ≠ some p) : (l.foldl rechargeSlot g).pcb p = g.pcb p := by
  induction l generalizing g with
  | nil => rfl
  | cons j l ih =>
      rw [List.foldl_cons, ih]
      · rw [rechargeSlot]
        cases hj : g.processes j with
        | none => rfl
        | some x =>
            have hne : p ≠ x := by
              rintro rfl
              exact hl j List.mem_cons_self hj
            exact modifyPcb_pcb_of_ne _ _ hne
      · intro i hi
        rw [rechargeSlot_processes]
        exact hl i (List.mem_cons_of_mem _ hi)

theorem foldl_rechargeSlot_processes (g : Globals) (l : List Nat) :
    (l.foldl rechargeSlot g).processes = g.processes := by
  induction l generalizing g with
  | nil => rfl
  | cons j l ih => rw [List.foldl_cons, ih, rechargeSlot_processes]

/-- In a table without repetitions a recharge reaches each process once. -/
theorem recharge_counter {g : Globals} {p : PcbPtr} {i : Nat} (hi : i < N_PROCESSES)
    (hp : g.processes i = some p) (hinj : ∀ j, g.processes j = some p → j = i) :
    (g.recharge.pcb p).counter = ((g.pcb p).counter >>> (1 : Nat)) + (g.pcb p).priority := by
  obtain ⟨pre, post, hl⟩ := List.append_of_mem (List.mem_range.mpr hi)
  have hnodup := List.nodup_range (n := N_PROCESSES)
  rw [hl, List.nodup_middle, List.nodup_cons, List.mem_append, not_or] at hnodup
  obtain ⟨⟨hpre, hpost⟩, -⟩ := hnodup
  have hother : ∀ {l : List Nat}, i ∉ l → ∀ j ∈ l, g.processes j ≠ some p := by
    intro l hil j hj hjp
    exact hil (hinj j hjp ▸ hj)
  rw [recharge, hl, List.foldl_append, List.foldl_cons, foldl_rechargeSlot_pcb, rechargeSlot,
    foldl_rechargeSlot_processes, hp]
  · simp only [modifyPcb_pcb_self, foldl_rechargeSlot_pcb g (hother hpre)]
  · rw [rechargeSlot_processes, foldl_rechargeSlot_processes]
    exact hother hpost

/-- A number of passes that is enough for the epoch loop: a counter below zero
gains at least one unit in every recharge with a positive priority. -/
def EPOCH_FUEL (g : Globals) : Nat :=
  (List.range N_PROCESSES).foldl (fun n i ↦
    match g.processes i with
    | none => n
    | some p => max n ((g.pcb p).counter.natAbs + 3)) 3

/-- `mmio_read(0x00003004)`: the next reading of the system timer. -/
def readTimer (g : Globals) : BitVec 64 × Globals :=
  ((g.timerClo 0).setWidth 64, { g with timerClo := fun n ↦ g.timerClo (n + 1) })

/-- `lottery_random`. -/
def lotteryRandom (g : Globals) : BitVec 64 × Globals :=
  let (t, g) := g.readTimer
  let s := g.lotteryRngState ^^^ t
  let s := if s = 0 then LOTTERY_SEED else s
  let s := s ^^^ (s <<< 13)
  let s := s ^^^ (s >>> 7)
  let s := s ^^^ (s <<< 17)
  (s, { g with lotteryRngState := s })

@[simp] theorem lotteryRandom_pcb (g : Globals) : g.lotteryRandom.2.pcb = g.pcb := rfl

end Globals

/-- The tickets a process has in a draw: a non-positive count counts as one. -/
def PCB.drawTickets (b : PCB) : Int := if b.tickets > 0 then b.tickets else 1

theorem PCB.drawTickets_pos (b : PCB) : 0 < b.drawTickets := by
  unfold drawTickets
  split <;> omega

namespace Kernel

/-! ## Signals -/

/-- `handle_process_signals`: one pending signal is handled per call. -/
def handleProcessSignals (process : PcbPtr) (k : Kernel Pointers) : Option (Kernel Pointers) :=
  let b := k.pcb process
  if b.pendingSignals = 0 then some k
  else if b.hasSignal SIGNAL_KILL then
    some (k.mapGlobals (·.modifyPcb process fun b ↦
      { b with state := .zombie }.clearSignal SIGNAL_KILL))
  else if b.hasSignal SIGNAL_STOP then
    some (k.mapGlobals (·.modifyPcb process fun b ↦
      { b with state := .stopped }.clearSignal SIGNAL_STOP))
  else if b.hasSignal SIGNAL_RESUME then
    let k := k.mapGlobals (·.modifyPcb process fun b ↦ b.clearSignal SIGNAL_RESUME)
    if (k.pcb process).state = .stopped then
      (k.mapGlobals (·.setState process .ready)).enqueueProcess process
    else some k
  else some k

/-! ## Selection -/

/-- The loop `while ((next_process = dequeue_process_from(queue)) != NULL)` of the
selection functions: unlink the head, handle its signals, stop if it is `READY`. -/
def takeReady (queue : QueueId) : Nat → Kernel Pointers → Option (Option PcbPtr × Kernel Pointers)
  | 0, _ => none
  | fuel + 1, k =>
      match k.dequeueProcessFrom queue with
      | (none, k) => some (none, k)
      | (some process, k) => do
          let k ← k.handleProcessSignals process
          if (k.pcb process).state = .ready then some (some process, k)
          else takeReady queue fuel k

/-- Put the running process back at the tail of the ready queue. -/
def parkFifo (k : Kernel Pointers) : Kernel Pointers :=
  if k.StillRunnable then k.enqueueProcessTo .readyQueue k.currentProcess else k

/-- Put the running process back by the insertion policy of the active algorithm. -/
def parkActive (k : Kernel Pointers) : Option (Kernel Pointers) :=
  if k.StillRunnable then k.activeEnqueue k.currentProcess else some k

/-- Put the running process back at its level. -/
def parkMultilevel (k : Kernel Pointers) : Kernel Pointers :=
  if k.StillRunnable then k.enqueueMultilevel k.currentProcess else k

/-- `_schedule_round_robin`, up to the choice of the next process. -/
def selectRoundRobin (k : Kernel Pointers) : Option (PcbPtr × Kernel Pointers) := do
  let k := (k.mapGlobals (·.preemptDisable)).parkFifo
  match ← k.takeReady .readyQueue QUEUE_FUEL with
  | (none, k) => some (.initProcess, k)
  | (some process, k) => some (process, k.mapGlobals (·.setCounter process 10))

/-- `_schedule_queue_head`, up to the choice of the next process. -/
def selectQueueHead (k : Kernel Pointers) : Option (PcbPtr × Kernel Pointers) := do
  let k ← (k.mapGlobals (·.preemptDisable)).parkActive
  match ← k.takeReady .readyQueue QUEUE_FUEL with
  | (none, k) => some (.initProcess, k)
  | (some process, k) => some (process, k)

/-- The first walk of a draw: the tickets from `node` on, added to `total`. -/
def totalTickets (k : Kernel Pointers) : Nat → Option PcbPtr → Int → Option Int
  | 0, _, _ => none
  | _ + 1, none, total => some total
  | fuel + 1, some p, total =>
      totalTickets k fuel (k.queues.next p) (total + (k.pcb p).drawTickets)

/-- The second walk of a draw: the predecessor and the holder of the winning
ticket, `ticketCounter` tickets having been passed before `candidate`. -/
def findWinner (k : Kernel Pointers) (winner : Int) :
    Nat → Option PcbPtr → Option PcbPtr → Int → Option (Option PcbPtr × Option PcbPtr)
  | 0, _, _, _ => none
  | _ + 1, previous, none, _ => some (previous, none)
  | fuel + 1, previous, some candidate, ticketCounter =>
      let ticketCounter := ticketCounter + (k.pcb candidate).drawTickets
      if ticketCounter > winner then some (previous, some candidate)
      else findWinner k winner fuel (some candidate) (k.queues.next candidate) ticketCounter

/-- The loop of `_schedule_lottery`: draw until the winner is `READY` after its
signals.  A walk that runs off the list would unlink `NULL`; that is `none`. -/
def drawWinner : Nat → Kernel Pointers → Option (Option PcbPtr × Kernel Pointers)
  | 0, _ => none
  | fuel + 1, k => do
      let head := (k.queues.ends .readyQueue).head
      let total ← k.totalTickets QUEUE_FUEL head 0
      if total = 0 then some (none, k)
      else do
        let (random, g) := k.lotteryRandom
        let k := { k with toGlobals := g }
        let winner : Int := (random.toNat % total.toNat : Nat)
        let (previous, candidate) ← k.findWinner winner QUEUE_FUEL none head 0
        let candidate ← candidate
        let k := k.removeProcessFrom .readyQueue previous candidate
        let k ← k.handleProcessSignals candidate
        if (k.pcb candidate).state = .ready then some (some candidate, k)
        else drawWinner fuel k

/-- `_schedule_lottery`, up to the choice of the next process. -/
def selectLottery (k : Kernel Pointers) : Option (PcbPtr × Kernel Pointers) := do
  let k := (k.mapGlobals (·.preemptDisable)).parkFifo
  match ← k.drawWinner QUEUE_FUEL with
  | (none, k) => some (.initProcess, k)
  | (some process, k) => some (process, k.mapGlobals (·.setCounter process 10))

/-- The walk of `_schedule_priority_aging` over the ready queue from `node` on:
signals are handled, processes no longer `READY` are unlinked, and the first one
with the largest positive counter is remembered with its predecessor. -/
def agingWalk : Nat → Option PcbPtr → Option PcbPtr → Option PcbPtr × Option PcbPtr → Int →
    Kernel Pointers → Option ((Option PcbPtr × Option PcbPtr) × Kernel Pointers)
  | 0, _, _, _, _, _ => none
  | _ + 1, none, _, best, _, k => some (best, k)
  | fuel + 1, some node, previous, best, maxCounter, k => do
      let nextNode := k.queues.next node
      let k ← k.handleProcessSignals node
      if (k.pcb node).state ≠ .ready then
        agingWalk fuel nextNode previous best maxCounter
          (k.removeProcessFrom .readyQueue previous node)
      else if (k.pcb node).counter > maxCounter then
        agingWalk fuel nextNode (some node) (some node, previous) (k.pcb node).counter k
      else agingWalk fuel nextNode (some node) best maxCounter k

/-- The loop of `_schedule_priority_aging`: walk the queue, and recharge all
counters when no queued process has a slice left. -/
def agingLoop : Nat → Kernel Pointers → Option (Option PcbPtr × Kernel Pointers)
  | 0, _ => none
  | fuel + 1, k => do
      match ← agingWalk QUEUE_FUEL (k.queues.ends .readyQueue).head none (none, none) 0 k with
      | ((some best, bestPrevious), k) =>
          some (some best, k.removeProcessFrom .readyQueue bestPrevious best)
      | ((none, _), k) =>
          if (k.queues.ends .readyQueue).head = none then some (none, k)
          else agingLoop fuel (k.mapGlobals (·.recharge))

/-- `_schedule_priority_aging`, up to the choice of the next process. -/
def selectPriorityAging (k : Kernel Pointers) : Option (PcbPtr × Kernel Pointers) := do
  let k := (k.mapGlobals (·.preemptDisable)).parkFifo
  match ← k.agingLoop k.EPOCH_FUEL with
  | (none, k) => some (.initProcess, k)
  | (some process, k) => some (process, k)

/-- The cascade of `_schedule_multilevel` over the given levels: the first `READY`
process and the level it came from. -/
def takeFromLevels : List Nat → Kernel Pointers →
    Option (Option (PcbPtr × Nat) × Kernel Pointers)
  | [], k => some (none, k)
  | q :: levels, k => do
      match ← k.takeReady (.mlQueues q) QUEUE_FUEL with
      | (some process, k) => some (some (process, q), k)
      | (none, k) => takeFromLevels levels k

/-- `_schedule_multilevel`, up to the choice of the next process.  Without a
multilevel policy the function would follow a `NULL` pointer. -/
def selectMultilevel (k : Kernel Pointers) : Option (PcbPtr × Kernel Pointers) := do
  let k := k.mapGlobals (·.preemptDisable)
  let policy ← k.algorithm.mlPolicy
  match ← k.parkMultilevel.takeFromLevels (List.range policy.nLevels) with
  | (none, k) => some (.initProcess, k)
  | (some (process, targetLevel), k) =>
      some (process, k.mapGlobals (·.setCounter process (policy.quantum.getD targetLevel 0)))

/-- The selection part of `active_algorithm->pick_next`. -/
def select (k : Kernel Pointers) : Option (PcbPtr × Kernel Pointers) :=
  match k.algorithm.pickNext with
  | .schedulePriorityAging => k.selectPriorityAging
  | .scheduleRoundRobin => k.selectRoundRobin
  | .scheduleLottery => k.selectLottery
  | .scheduleQueueHead => k.selectQueueHead
  | .scheduleMultilevel => k.selectMultilevel

/-- `_schedule`: `active_algorithm->pick_next()`. -/
def pickNext (k : Kernel Pointers) : Option (Kernel Pointers) := do
  let (nextProcess, k) ← k.select
  some (k.mapGlobals (·.dispatch nextProcess))

/-! ## Giving up the processor -/

/-- `schedule`. -/
def schedule (k : Kernel Pointers) : Option (Kernel Pointers) :=
  (k.mapGlobals (·.endBurst)).pickNext

end Kernel

end DemosOS
