import DemosOS.Kernel.Console
import DemosOS.Lib.Interleaving
import DemosOS.Sched.Table

/-!
# Reading from the console

`syscall_input` as a sequence of steps, with timer ticks and console interrupts in between:
the test of the ownership loop, the write of `uart_owner`, the test for an empty ring, the
write of the waiting state, the calls of `schedule`, and the steps of the loop that takes
bytes from the ring.

The buffer of a call is the function that gives its bytes by their offset.  What the call
echoes to the console has no effect on the modelled state.

Beside the kernel the machine keeps two history variables: the bytes that have entered the
ring, and the calls of `syscall_input` that have returned.
-/

namespace DemosOS

open Lib

/-! ## The line buffer -/

def CARRIAGE_RETURN : UInt8 := 0x0D
def LINE_FEED : UInt8 := 0x0A
def DELETE : UInt8 := 0x7F

/-- The bytes that end a line. -/
def EndsLine (c : UInt8) : Prop := c = CARRIAGE_RETURN ∨ c = LINE_FEED

instance (c : UInt8) : Decidable (EndsLine c) := inferInstanceAs (Decidable (_ ∨ _))

/-- The arguments of `syscall_input`: the length, and the buffer as the caller left it. -/
structure InputCall where
  len : Int
  initial : Nat → UInt8

/-- The state of a call: `current_len`, and the buffer as it is now. -/
structure Line where
  call : InputCall
  currentLen : Nat
  buffer : Nat → UInt8

/-- `max_len`. -/
def InputCall.maxLen (call : InputCall) : Int := if call.len > 0 then call.len - 1 else 0

/-- The state of a call when it begins. -/
def InputCall.start (call : InputCall) : Line := ⟨call, 0, call.initial⟩

namespace Line

/-- `buffer[i] = c`. -/
def put (i : Nat) (c : UInt8) (line : Line) : Line :=
  { line with buffer := Function.update line.buffer i c }

/-- A byte that does not end the line. -/
def edit (c : UInt8) (line : Line) : Line :=
  if c = DELETE then
    if line.currentLen > 0 then
      let line := { line with currentLen := line.currentLen - 1 }
      line.put line.currentLen 0
    else line
  else if line.currentLen < line.call.maxLen then
    let line := line.put line.currentLen c
    let line := { line with currentLen := line.currentLen + 1 }
    line.put line.currentLen 0
  else line

/-- The end of the line. -/
def finish (line : Line) : Line := line.put line.currentLen 0

end Line

/-! ## The receive path -/

/-- The byte of a data word. -/
def dataByte (dr : BitVec 32) : UInt8 := UInt8.ofBitVec ((dr &&& 0xFF).setWidth 8)

namespace Uart

/-- The test of the receive path. -/
def HasRoom (u : Uart) : Prop := (u.head + 1) % UART_BUFFER_SIZE ≠ u.tail

instance (u : Uart) : Decidable u.HasRoom := inferInstanceAs (Decidable (_ ≠ _))

/-- The ring after the given words. -/
def storeAll (fifo : List (BitVec 32)) (u : Uart) : Uart :=
  fifo.foldl (fun u dr ↦ if rxError dr ≠ 0 then u else u.store (dataByte dr)) u

/-- The bytes of the given words that enter the ring. -/
def accepts : List (BitVec 32) → Uart → List UInt8
  | [], _ => []
  | dr :: fifo, u =>
      if rxError dr ≠ 0 then accepts fifo u
      else if u.HasRoom then dataByte dr :: accepts fifo (u.store (dataByte dr))
      else accepts fifo (u.store (dataByte dr))

end Uart

/-- The words the receive branch of `handle_uart_irq` reads. -/
def received (mis : BitVec 32) (fifo : List (BitVec 32)) : List (BitVec 32) :=
  if mis &&& (1#32 <<< 4) ≠ 0 then fifo else []

/-! ## The steps -/

/-- Where a process is in the code of `syscall_input`. -/
inductive InputPoint
  | user
  | /-- At the test of the ownership loop. -/
    testingOwner (line : Line)
  | /-- The console has another owner; before the call of `schedule`. -/
    waitingOwner (line : Line)
  | /-- The test has succeeded, `uart_owner` is not written yet. -/
    claiming (line : Line)
  | /-- At the test of the outer loop. -/
    testingRing (line : Line)
  | /-- The ring was empty, the waiting state is not written yet. -/
    blocking (line : Line)
  | /-- Before the call of `schedule` in the outer loop. -/
    sleeping (line : Line)
  | /-- At the test of the inner loop. -/
    draining (line : Line)
  | /-- Before the read of `uart_buffer`. -/
    fetching (line : Line)
  | /-- The byte is read, `uart_tail` is not written yet. -/
    advancing (line : Line) (c : UInt8)
  | /-- Before the tests on the byte. -/
    editing (line : Line) (c : UInt8)

namespace InputPoint

/-- After the ownership loop. -/
def PastLoop : InputPoint → Prop
  | user | testingOwner _ | waitingOwner _ => False
  | _ => True

instance (point : InputPoint) : Decidable point.PastLoop :=
  match point with
  | user | testingOwner _ | waitingOwner _ => isFalse id
  | claiming _ | testingRing _ | blocking _ | sleeping _ | draining _ | fetching _
  | advancing _ _ | editing _ _ => isTrue trivial

/-- After the test of the ownership loop, before the write of `uart_owner`. -/
def IsClaiming : InputPoint → Prop
  | claiming _ => True
  | _ => False

instance (point : InputPoint) : Decidable point.IsClaiming :=
  match point with
  | claiming _ => isTrue trivial
  | user | testingOwner _ | waitingOwner _ | testingRing _ | blocking _ | sleeping _
  | draining _ | fetching _ | advancing _ _ | editing _ _ => isFalse id

end InputPoint

/-- A call that has returned: the caller, the value, and the state of the call at its end. -/
structure InputReturn where
  process : PcbPtr
  value : Int
  line : Line

/-- The kernel with the history of its console. -/
structure Console where
  kernel : Kernel Pointers
  accepted : List UInt8
  returned : List InputReturn

namespace Console

/-- The kernel goes on, the console is not concerned. -/
def withKernel (s : Console) (k : Kernel Pointers) : Console := { s with kernel := k }

/-- A write to the variables of `uart.c`. -/
def mapUart (s : Console) (f : Uart → Uart) : Console :=
  s.withKernel (s.kernel.mapGlobals fun g ↦ { g with uart := f g.uart })

end Console

/-- What the running process does next, or the interrupt that comes next.  From user code a
process may do anything the kernel offers, or call `syscall_input`. -/
inductive InputChoice
  | call (activity : Activity)
  | input (call : InputCall)
  | proceed
  | uartIrq (mis : BitVec 32) (fifo : List (BitVec 32))

/-- The next step in the code of `syscall_input`. -/
def inputStep (s : Console) : InputPoint → Option (Console × InputPoint)
  | .user => none
  | .testingOwner line =>
      some (s, if s.kernel.uart.owner ≠ none ∧ s.kernel.uart.owner ≠ some s.kernel.currentProcess
        then .waitingOwner line else .claiming line)
  | .waitingOwner line => s.kernel.schedule.map fun k ↦ (s.withKernel k, .testingOwner line)
  | .claiming line =>
      some (s.mapUart fun u ↦ { u with owner := some s.kernel.currentProcess }, .testingRing line)
  | .testingRing line =>
      some (s, if s.kernel.uart.head = s.kernel.uart.tail then .blocking line else .draining line)
  | .blocking line =>
      some (s.withKernel (s.kernel.mapGlobals fun g ↦
        g.setState g.currentProcess .waitingUartInput), .sleeping line)
  | .sleeping line => s.kernel.schedule.map fun k ↦ (s.withKernel k, .testingRing line)
  | .draining line =>
      some (s, if s.kernel.uart.tail ≠ s.kernel.uart.head then .fetching line
        else .testingRing line)
  | .fetching line => some (s, .advancing line (s.kernel.uart.buffer s.kernel.uart.tail))
  | .advancing line c =>
      some (s.mapUart fun u ↦ { u with tail := (u.tail + 1) % UART_BUFFER_SIZE },
        .editing line c)
  | .editing line c =>
      if EndsLine c then
        let s := s.mapUart fun u ↦ { u with owner := none }
        let line := line.finish
        some ({ s with
          returned := s.returned ++ [⟨s.kernel.currentProcess, line.currentLen, line⟩] }, .user)
      else some (s, .draining (line.edit c))

/-- The steps in the code of `syscall_input`, one by one. -/
inductive InputMove (s : Console) : InputPoint → Console → InputPoint → Prop
  | owned (line : Line) (hother : s.kernel.uart.owner ≠ none ∧
      s.kernel.uart.owner ≠ some s.kernel.currentProcess) :
      InputMove s (.testingOwner line) s (.waitingOwner line)
  | free (line : Line) (hfree : s.kernel.uart.owner = none ∨
      s.kernel.uart.owner = some s.kernel.currentProcess) :
      InputMove s (.testingOwner line) s (.claiming line)
  | retry (line : Line) (k : Kernel Pointers) (hk : s.kernel.schedule = some k) :
      InputMove s (.waitingOwner line) (s.withKernel k) (.testingOwner line)
  | claim (line : Line) : InputMove s (.claiming line)
      (s.mapUart fun u ↦ { u with owner := some s.kernel.currentProcess }) (.testingRing line)
  | empty (line : Line) (hempty : s.kernel.uart.head = s.kernel.uart.tail) :
      InputMove s (.testingRing line) s (.blocking line)
  | nonempty (line : Line) (hne : s.kernel.uart.head ≠ s.kernel.uart.tail) :
      InputMove s (.testingRing line) s (.draining line)
  | mark (line : Line) : InputMove s (.blocking line) (s.withKernel (s.kernel.mapGlobals fun g ↦
      g.setState g.currentProcess .waitingUartInput)) (.sleeping line)
  | sleep (line : Line) (k : Kernel Pointers) (hk : s.kernel.schedule = some k) :
      InputMove s (.sleeping line) (s.withKernel k) (.testingRing line)
  | more (line : Line) (hne : s.kernel.uart.tail ≠ s.kernel.uart.head) :
      InputMove s (.draining line) s (.fetching line)
  | drained (line : Line) (hempty : s.kernel.uart.tail = s.kernel.uart.head) :
      InputMove s (.draining line) s (.testingRing line)
  | fetch (line : Line) : InputMove s (.fetching line) s
      (.advancing line (s.kernel.uart.buffer s.kernel.uart.tail))
  | advance (line : Line) (c : UInt8) : InputMove s (.advancing line c)
      (s.mapUart fun u ↦ { u with tail := (u.tail + 1) % UART_BUFFER_SIZE }) (.editing line c)
  | finish (line : Line) (c : UInt8) (hends : EndsLine c) : InputMove s (.editing line c)
      { s.mapUart fun u ↦ { u with owner := none } with
        returned := s.returned ++
          [⟨s.kernel.currentProcess, line.finish.currentLen, line.finish⟩] } .user
  | edit (line : Line) (c : UInt8) (hends : ¬ EndsLine c) :
      InputMove s (.editing line c) s (.draining (line.edit c))

theorem inputStep_move {s s' : Console} {point l : InputPoint}
    (h : inputStep s point = some (s', l)) : InputMove s point s' l := by
  cases point with
  | user => simp [inputStep] at h
  | testingOwner line =>
      obtain ⟨rfl, rfl⟩ := Prod.mk.inj (Option.some.inj h)
      split_ifs with hother
      · exact .owned line hother
      · exact .free line (by rwa [not_and_or, not_not, not_not] at hother)
  | waitingOwner line =>
      obtain ⟨k, hk, hr⟩ := Option.map_eq_some_iff.mp h
      obtain ⟨rfl, rfl⟩ := Prod.mk.inj hr
      exact .retry line k hk
  | claiming line =>
      obtain ⟨rfl, rfl⟩ := Prod.mk.inj (Option.some.inj h)
      exact .claim line
  | testingRing line =>
      obtain ⟨rfl, rfl⟩ := Prod.mk.inj (Option.some.inj h)
      split_ifs with hempty
      · exact .empty line hempty
      · exact .nonempty line hempty
  | blocking line =>
      obtain ⟨rfl, rfl⟩ := Prod.mk.inj (Option.some.inj h)
      exact .mark line
  | sleeping line =>
      obtain ⟨k, hk, hr⟩ := Option.map_eq_some_iff.mp h
      obtain ⟨rfl, rfl⟩ := Prod.mk.inj hr
      exact .sleep line k hk
  | draining line =>
      obtain ⟨rfl, rfl⟩ := Prod.mk.inj (Option.some.inj h)
      split_ifs with hne
      · exact .more line hne
      · exact .drained line (not_not.mp hne)
  | fetching line =>
      obtain ⟨rfl, rfl⟩ := Prod.mk.inj (Option.some.inj h)
      exact .fetch line
  | advancing line c =>
      obtain ⟨rfl, rfl⟩ := Prod.mk.inj (Option.some.inj h)
      exact .advance line c
  | editing line c =>
      simp only [inputStep] at h
      split_ifs at h with hends
      · obtain ⟨rfl, rfl⟩ := Prod.mk.inj (Option.some.inj h)
        exact .finish line c hends
      · obtain ⟨rfl, rfl⟩ := Prod.mk.inj (Option.some.inj h)
        exact .edit line c hends

/-- `handle_uart_irq`, with its entry in the history. -/
def Console.handleUartIrq (mis : BitVec 32) (fifo : List (BitVec 32)) (s : Console) :
    Option Console :=
  (s.kernel.handleUartIrq mis fifo).map fun r ↦
    { s with
      kernel := r.2
      accepted := s.accepted ++ s.kernel.uart.accepts (received mis fifo) }

/-- The next step.  A console interrupt leaves the running process where it is; init makes no
system call. -/
def inputAct [KernelImage] (choice : InputChoice) (s : Console) (point : InputPoint) :
    Option (Console × InputPoint) :=
  match choice, point with
  | .uartIrq mis fifo, point => (s.handleUartIrq mis fifo).map (·, point)
  | .call activity, .user => (activity.run s.kernel).map fun k ↦ (s.withKernel k, .user)
  | .input call, .user =>
      if s.kernel.currentProcess = .initProcess then none
      else some (s, .testingOwner call.start)
  | .proceed, point => inputStep s point
  | _, _ => none

/-- Processes that read from the console, with timer ticks and console interrupts between any
two steps. -/
def inputMachine [KernelImage] : Machine Console PcbPtr InputPoint InputChoice where
  running s := s.kernel.currentProcess
  act := inputAct
  interrupt s := s.kernel.handleTimerTick.map s.withKernel

abbrev InputConfig := Config Console PcbPtr InputPoint

/-- The choices that are possible: the callers keep their promises, console interrupts are
not calls, and no other code blocks for console input. -/
def InputChoice.Enabled (s : Console) : InputChoice → Prop
  | call activity => activity.Enabled s.kernel.toGlobals ∧
      activity ≠ .op (.block .waitingUartInput) ∧ ∀ mis fifo, activity ≠ .uartIrq mis fifo
  | input _ | proceed | uartIrq _ _ => True

/-- The same for events; a timer tick is always possible. -/
def InputEnabled (e : Event InputChoice) (c : InputConfig) : Prop :=
  match e with
  | .act choice => choice.Enabled c.shared
  | .interrupt => True

/-- The kernel at boot, everybody in user code and nothing received yet. -/
def inputBoot (algorithm : Algorithm) (timerClo : Nat → BitVec 32) : InputConfig where
  shared := ⟨Kernel.boot algorithm timerClo, [], []⟩
  point _ := .user

/-! ## Runs on concrete inputs -/

/-- Choices whose promises need no check. -/
def InputChoice.Simple : InputChoice → Bool
  | call (.op (.signal _ _)) | call (.op .yield) | input _ | proceed | uartIrq _ _ => true
  | call _ => false

theorem InputChoice.enabled_of_simple {s : Console} {choice : InputChoice}
    (h : choice.Simple = true) : choice.Enabled s := by
  cases choice with
  | call activity =>
      cases activity with
      | op o => cases o <;> simp_all [Simple, Enabled, Activity.Enabled, Op.Enabled]
      | send | receive | uartIrq => simp [Simple] at h
  | input | proceed | uartIrq => trivial

/-- The same for events. -/
def SimpleEvent (e : Event InputChoice) (_ : InputConfig) : Prop :=
  match e with
  | .act choice => choice.Simple = true
  | .interrupt => True

instance (e : Event InputChoice) (c : InputConfig) : Decidable (SimpleEvent e c) :=
  match e with
  | .act choice => inferInstanceAs (Decidable (choice.Simple = true))
  | .interrupt => isTrue trivial

theorem inputEnabled_of_simple {e : Event InputChoice} {c : InputConfig} (h : SimpleEvent e c) :
    InputEnabled e c := by
  cases e with
  | act choice => exact choice.enabled_of_simple h
  | interrupt => trivial

/-- A run of operations from boot, before anybody reads. -/
theorem inputRun_of_runAll [KernelImage] {allowed : Event InputChoice → InputConfig → Prop}
    (hallowed : ∀ op c, (∀ p, c.point p = .user) → InputEnabled (.act (.call (.op op))) c →
      allowed (.act (.call (.op op))) c) {algorithm : Algorithm} {timerClo : Nat → BitVec 32}
    {ops : List Op} {k : Kernel Pointers} (hops : ∀ op ∈ ops, op ≠ .block .waitingUartInput)
    (hk : runAll ops (Kernel.boot algorithm timerClo) = some k) :
    Relation.ReflTransGen (inputMachine.Step allowed) (inputBoot algorithm timerClo)
      ⟨⟨k, [], []⟩, fun _ ↦ .user⟩ := by
  have htable : (Kernel.boot algorithm timerClo).Table := by
    have hboot := (boot_sound algorithm timerClo).inv.table
    exact hboot
  unfold inputBoot
  generalize Kernel.boot algorithm timerClo = k₀ at hk htable
  induction ops generalizing k₀ with
  | nil =>
      obtain rfl := Option.some.inj hk
      exact .refl
  | cons op ops ih =>
      rw [runAll] at hk
      split_ifs at hk with hcheck
      obtain ⟨k₁, hk₁, hk⟩ := Option.bind_eq_some_iff.mp hk
      have henabled := Op.enabled_of_check htable hcheck
      refine .head ⟨.act (.call (.op op)), hallowed op _ (fun _ ↦ rfl) ?_, ?_⟩
        (ih (fun o ho ↦ hops o (List.mem_cons_of_mem _ ho)) k₁ hk
          (Activity.table_op htable henabled hk₁))
      · refine ⟨henabled, fun he ↦ ?_, fun _ _ hirq ↦ by cases hirq⟩
        exact hops op List.mem_cons_self (Activity.op.inj he)
      · show (((op.run k₀).map fun k ↦ _).map _) = _
        rw [hk₁]
        simp [Console.withKernel]

/-- A run on concrete inputs, under a condition that the executed one implies. -/
theorem inputSteps_of_run [KernelImage] {check allowed : Event InputChoice → InputConfig → Prop}
    [∀ e c, Decidable (check e c)] (hcheck : ∀ e c, check e c → allowed e c)
    {events : List (Event InputChoice)} {c c' : InputConfig}
    (h : inputMachine.run check events c = some c') :
    Relation.ReflTransGen (inputMachine.Step allowed) c c' :=
  Machine.reachable_mono (I := fun _ ↦ True) (fun _ _ _ _ ↦ trivial) (fun e c _ ↦ hcheck e c)
    (Machine.reachable_of_run h) trivial

/-- Two processes under round robin, the first of which runs. -/
def readersStart : List Op :=
  [.add (.page 0) (childOfInit 1), .add (.page 1) (childOfInit 2), .tick]

theorem readersStart_spec [KernelImage] (allowed : Event InputChoice → InputConfig → Prop)
    (hallowed : ∀ op c, (∀ p, c.point p = .user) → InputEnabled (.act (.call (.op op))) c →
      allowed (.act (.call (.op op))) c) :
    ∃ k, runAll readersStart (Kernel.boot .roundRobin fun _ ↦ 0) = some k ∧
      Relation.ReflTransGen (inputMachine.Step allowed) (inputBoot .roundRobin fun _ ↦ 0)
        ⟨⟨k, [], []⟩, fun _ ↦ .user⟩ := by
  have hrun : (runAll readersStart (Kernel.boot .roundRobin fun _ ↦ 0)).isSome = true := by
    decide +kernel
  obtain ⟨k, hk⟩ := Option.isSome_iff_exists.mp hrun
  refine ⟨k, hk, inputRun_of_runAll hallowed (fun op hop ↦ ?_) hk⟩
  simp only [readersStart, List.mem_cons, List.not_mem_nil, or_false] at hop
  rcases hop with rfl | rfl | rfl <;> simp

end DemosOS
