import DemosOS.Console.Receive

/-!
# Waiting for console input

`handle_uart_irq` wakes the processes that are marked as waiting when it runs.  A process that
has found the ring empty marks itself later, and a byte that comes in between wakes nobody.
If no process marks itself while there is something to read, nobody sleeps on a ring that
holds a byte.
-/

namespace DemosOS

open Lib

/-- No process that has given up the processor waits for console input while the ring holds
something to read. -/
def NoLostInput (c : InputConfig) : Prop :=
  ∀ p, p ≠ c.shared.kernel.currentProcess → c.shared.kernel.AwaitsInput p →
    c.shared.kernel.uart.head = c.shared.kernel.uart.tail

/-- The condition on a step: `PROCESS_WAITING_UART_INPUT` is written while the ring is still
empty, and `uart_tail` is not moved past `uart_head` while a process waits. -/
def MarksOnEmpty (e : Event InputChoice) (c : InputConfig) : Prop :=
  match e, c.point c.shared.kernel.currentProcess with
  | .act .proceed, .blocking _ => c.shared.kernel.uart.head = c.shared.kernel.uart.tail
  | .act .proceed, .advancing _ _ => c.shared.kernel.uart.head = c.shared.kernel.uart.tail →
      ∀ p, ¬ c.shared.kernel.AwaitsInput p
  | _, _ => True

/-- What holds between any two steps under this condition. -/
structure WaitInv (s : Console) : Prop where
  table : s.kernel.Table
  empty : ∀ p, s.kernel.AwaitsInput p → s.kernel.uart.head = s.kernel.uart.tail

namespace WaitInv

variable {s : Console} {k : Kernel Pointers}

/-- The rest of the kernel. -/
theorem aloof (h : WaitInv s) (htable : k.Table) (haloof : Aloof s.kernel.toGlobals k.toGlobals) :
    WaitInv (s.withKernel k) where
  table := htable
  empty p hp := by
    rw [Console.withKernel, haloof.uart]
    exact h.empty p (haloof.waiting p hp)

/-- A step of the scheduler. -/
theorem scheduled (h : WaitInv s) (hk : Scheduled s.kernel.toGlobals k.toGlobals) :
    WaitInv (s.withKernel k) :=
  h.aloof ((SameTable.of_frozen hk.frozen).table h.table) (.scheduled hk)

/-- A console interrupt: if it brings bytes, nobody waits any more. -/
theorem uartIrq (h : WaitInv s) {mis : BitVec 32} {fifo : List (BitVec 32)} {s' : Console}
    (hs' : s.handleUartIrq mis fifo = some s') : WaitInv s' := by
  obtain ⟨⟨rest, k⟩, hk, rfl⟩ := Option.map_eq_some_iff.mp hs'
  have hirq := Kernel.handleUartIrq_spec hk
  refine ⟨hirq.table.table h.table, fun p hp ↦ ?_⟩
  dsimp only at hp ⊢
  obtain ⟨⟨i, hi⟩, hstate⟩ := hp
  rw [hirq.table.processes] at hi
  by_cases hword : ∃ dr ∈ received mis fifo, rxError dr = 0
  · exact absurd hstate (hirq.awake hword i (h.table.slot hi).1 p hi)
  · rw [hirq.uart, Uart.storeAll_of_errors hword]
    exact h.empty p ⟨⟨i, hi⟩, hirq.waiting p hstate⟩

/-- The mark, on an empty ring. -/
theorem mark (h : WaitInv s) (hempty : s.kernel.uart.head = s.kernel.uart.tail) :
    WaitInv (s.withKernel (s.kernel.mapGlobals fun g ↦
      g.setState g.currentProcess .waitingUartInput)) where
  table := (SameTable.of_frozen (Globals.frozen_setState ..)).table h.table
  empty _ _ := hempty

/-- A write to the variables of `uart.c` that leaves the ring alone, or is made while nobody
waits. -/
theorem mapUart (h : WaitInv s) {f : Uart → Uart}
    (hf : (∀ p, ¬ s.kernel.AwaitsInput p) ∨ ∀ u, (f u).head = u.head ∧ (f u).tail = u.tail) :
    WaitInv (s.mapUart f) where
  table := by
    have hsame : SameTable s.kernel.toGlobals (s.mapUart f).kernel.toGlobals :=
      ⟨rfl, rfl, fun _ ↦ rfl⟩
    exact hsame.table h.table
  empty p hp := by
    have hp' : s.kernel.AwaitsInput p := hp
    rcases hf with hnone | hsame
    · exact absurd hp' (hnone p)
    · obtain ⟨hhead, htail⟩ := hsame s.kernel.uart
      exact hhead.trans ((h.empty p hp').trans htail.symm)

/-- The history does not matter. -/
theorem congr (h : WaitInv s) {s' : Console} (hk : s'.kernel = s.kernel) : WaitInv s' where
  table := hk ▸ h.table
  empty p hp := by
    rw [hk] at hp ⊢
    exact h.empty p hp

/-- A step in the code of `syscall_input`. -/
theorem inputStep (h : WaitInv s) {point l : InputPoint} {s' : Console}
    (hblocking : ∀ line, point = .blocking line → s.kernel.uart.head = s.kernel.uart.tail)
    (hadvancing : ∀ line c, point = .advancing line c →
      s.kernel.uart.head = s.kernel.uart.tail → ∀ p, ¬ s.kernel.AwaitsInput p)
    (hstep : DemosOS.inputStep s point = some (s', l)) : WaitInv s' := by
  cases inputStep_move hstep with
  | owned | free | empty | nonempty | more | drained | fetch | edit => exact h
  | retry line k hk => exact h.scheduled (Kernel.scheduled_schedule hk)
  | sleep line k hk => exact h.scheduled (Kernel.scheduled_schedule hk)
  | claim line => exact h.mapUart (.inr fun _ ↦ ⟨rfl, rfl⟩)
  | mark line => exact h.mark (hblocking line rfl)
  | advance line c =>
      refine h.mapUart (.inl fun p hp ↦ ?_)
      exact hadvancing line c rfl (h.empty p hp) p hp
  | finish line c =>
      have howner := h.mapUart (f := fun u ↦ { u with owner := none }) (.inr fun _ ↦ ⟨rfl, rfl⟩)
      exact howner.congr rfl

/-- Whatever happens next. -/
theorem inputAct [KernelImage] (h : WaitInv s) {choice : InputChoice} {point l : InputPoint}
    {s' : Console} (henabled : choice.Enabled s)
    (hblocking : ∀ line, choice = .proceed → point = .blocking line →
      s.kernel.uart.head = s.kernel.uart.tail)
    (hadvancing : ∀ line c, choice = .proceed → point = .advancing line c →
      s.kernel.uart.head = s.kernel.uart.tail → ∀ p, ¬ s.kernel.AwaitsInput p)
    (hact : DemosOS.inputAct choice s point = some (s', l)) : WaitInv s' := by
  unfold DemosOS.inputAct at hact
  split at hact
  · obtain ⟨s₁, hs₁, hr⟩ := Option.map_eq_some_iff.mp hact
    obtain ⟨rfl, -⟩ := Prod.mk.inj hr
    exact h.uartIrq hs₁
  · obtain ⟨k, hk, hr⟩ := Option.map_eq_some_iff.mp hact
    obtain ⟨rfl, -⟩ := Prod.mk.inj hr
    exact h.aloof (Activity.table h.table henabled.1 hk) (.activity henabled hk)
  · split_ifs at hact
    obtain ⟨rfl, -⟩ := Prod.mk.inj (Option.some.inj hact)
    exact h
  · exact h.inputStep (fun line ↦ hblocking line rfl) (fun line c ↦ hadvancing line c rfl) hact
  · simp at hact

end WaitInv

theorem waitInv_of_steps [KernelImage] {c c' : InputConfig}
    (hrun : Relation.ReflTransGen (inputMachine.Step fun e c ↦
      InputEnabled e c ∧ MarksOnEmpty e c) c c') (h : WaitInv c.shared) : WaitInv c'.shared := by
  refine Machine.invariant (I := fun c : InputConfig ↦ WaitInv c.shared) ?_ ?_ hrun h
  · rintro c choice s l h ⟨henabled, hmarks⟩ hact
    refine h.inputAct henabled ?_ ?_ hact
    · rintro line rfl hpoint
      have hpoint : c.point c.shared.kernel.currentProcess = .blocking line := hpoint
      simpa [MarksOnEmpty, hpoint] using hmarks
    · rintro line b rfl hpoint
      have hpoint : c.point c.shared.kernel.currentProcess = .advancing line b := hpoint
      simpa [MarksOnEmpty, hpoint] using hmarks
  · rintro c s h - hs
    obtain ⟨k, hk, rfl⟩ := Option.map_eq_some_iff.mp hs
    exact h.scheduled (Kernel.scheduled_handleTimerTick hk)

theorem boot_waitInv (algorithm : Algorithm) (timerClo : Nat → BitVec 32) :
    WaitInv (inputBoot algorithm timerClo).shared where
  table := by
    have hboot := (boot_sound algorithm timerClo).inv.table
    exact hboot
  empty _ _ := rfl

/-- In every run from boot in which no process marks itself as waiting while the ring holds
something to read, no wake-up on console input is lost. -/
theorem noLostInput_of_marksOnEmpty [KernelImage] {algorithm : Algorithm}
    {timerClo : Nat → BitVec 32}
    {c : InputConfig} (hrun : Relation.ReflTransGen (inputMachine.Step fun e c ↦
      InputEnabled e c ∧ MarksOnEmpty e c) (inputBoot algorithm timerClo) c) : NoLostInput c :=
  fun p _ hp ↦ (waitInv_of_steps hrun (boot_waitInv algorithm timerClo)).empty p hp

theorem marksOnEmpty_call (op : Op) (c : InputConfig) :
    MarksOnEmpty (.act (.call (.op op))) c := by
  unfold MarksOnEmpty
  split
  · simp_all
  · simp_all
  · trivial

/-- The condition with its quantifier replaced by an executable test: for concrete runs. -/
def marksCheck (e : Event InputChoice) (c : InputConfig) : Bool :=
  match e, c.point c.shared.kernel.currentProcess with
  | .act .proceed, .blocking _ => c.shared.kernel.uart.head = c.shared.kernel.uart.tail
  | .act .proceed, .advancing _ _ => c.shared.kernel.uart.head ≠ c.shared.kernel.uart.tail
  | _, _ => true

theorem marksOnEmpty_of_check {e : Event InputChoice} {c : InputConfig}
    (h : marksCheck e c = true) : MarksOnEmpty e c := by
  unfold marksCheck at h
  unfold MarksOnEmpty
  split at h
  · exact of_decide_eq_true h
  · exact fun he ↦ absurd he (of_decide_eq_true h)
  · trivial

/-- The first process reads; it finds the ring empty, marks itself and sleeps, and the second
process runs. -/
theorem noLostInput_asleep : let _ := someImage
    ∃ k c, runAll readersStart (Kernel.boot .roundRobin fun _ ↦ 0) = some k ∧
      inputMachine.run (fun e c ↦ SimpleEvent e c ∧ marksCheck e c = true)
        (.act (.input ⟨10, fun _ ↦ 0⟩) :: List.replicate 5 (.act .proceed))
        ⟨⟨k, [], []⟩, fun _ ↦ .user⟩ = some c ∧
      c.shared.kernel.currentProcess = .page 1 ∧
      (c.shared.kernel.pcb (.page 0)).state = .waitingUartInput ∧ NoLostInput c := by
  intro _
  obtain ⟨k, hk, hstart⟩ := readersStart_spec (fun e c ↦ InputEnabled e c ∧ MarksOnEmpty e c)
    fun op c _ henabled ↦ ⟨henabled, marksOnEmpty_call op c⟩
  have hrun : (runAll readersStart (Kernel.boot .roundRobin fun _ ↦ 0)).all (fun k ↦
      (inputMachine.run (fun e c ↦ SimpleEvent e c ∧ marksCheck e c = true)
        (.act (.input ⟨10, fun _ ↦ 0⟩) :: List.replicate 5 (.act .proceed))
        ⟨⟨k, [], []⟩, fun _ ↦ .user⟩).any fun c ↦ c.shared.kernel.currentProcess = .page 1 ∧
          (c.shared.kernel.pcb (.page 0)).state = .waitingUartInput) = true := by
    decide +kernel
  rw [hk, Option.all_some] at hrun
  obtain ⟨c, hc, hprop⟩ := (Option.any_eq_true _ _).mp hrun
  obtain ⟨hcur, hstate⟩ := of_decide_eq_true hprop
  have hsteps := inputSteps_of_run (fun e c (h : SimpleEvent e c ∧ marksCheck e c = true) ↦
    (⟨inputEnabled_of_simple h.1, marksOnEmpty_of_check h.2⟩ : InputEnabled e c ∧
      MarksOnEmpty e c)) hc
  exact ⟨k, c, hk, hc, hcur, hstate, noLostInput_of_marksOnEmpty (hstart.trans hsteps)⟩

/-- The first process has found the ring empty when a byte comes; nobody is woken, and the
process marks itself and sleeps. -/
def lostInput : List (Event InputChoice) :=
  .act (.input ⟨10, fun _ ↦ 0⟩) :: List.replicate 3 (.act .proceed) ++
    [.act (.uartIrq (1 <<< 4) [0x61])] ++ List.replicate 2 (.act .proceed)

/-- A process sleeps although there is a byte in the ring. -/
theorem noLostInput_false : ¬ ∀ (image : KernelImage) (algorithm : Algorithm)
    (timerClo : Nat → BitVec 32) (c : InputConfig),
    Relation.ReflTransGen ((@inputMachine image).Step InputEnabled)
    (inputBoot algorithm timerClo) c →
      NoLostInput c := by
  intro hclaim
  let _ := someImage
  obtain ⟨k, hk, hstart⟩ := readersStart_spec InputEnabled fun _ _ _ ↦ id
  have hrun : (runAll readersStart (Kernel.boot .roundRobin fun _ ↦ 0)).all (fun k ↦
      (inputMachine.run SimpleEvent lostInput ⟨⟨k, [], []⟩, fun _ ↦ .user⟩).any fun c ↦
        .page 0 ≠ c.shared.kernel.currentProcess ∧ c.shared.kernel.processes 1 = some (.page 0) ∧
          (c.shared.kernel.pcb (.page 0)).state = .waitingUartInput ∧
          c.shared.kernel.uart.head ≠ c.shared.kernel.uart.tail) = true := by
    decide +kernel
  rw [hk, Option.all_some] at hrun
  obtain ⟨c, hc, hprop⟩ := (Option.any_eq_true _ _).mp hrun
  obtain ⟨hne, hknown, hstate, hring⟩ := of_decide_eq_true hprop
  have hsteps := inputSteps_of_run (fun _ _ h ↦ inputEnabled_of_simple h) hc
  exact hring (hclaim someImage _ _ c (hstart.trans hsteps) (.page 0) hne ⟨⟨1, hknown⟩, hstate⟩)

end DemosOS
