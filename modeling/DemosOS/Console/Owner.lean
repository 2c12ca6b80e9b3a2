import DemosOS.Console.Survival

/-!
# The owner of the console

`uart_owner` is a lock that is taken by a test and a later write, and released on one path
only.  Two processes that test before either has written both go past the loop; and a process
that is terminated past the loop never releases the console.

If neither happens, at most one process is past the ownership loop, and `uart_owner` is
`NULL` or that process.
-/

namespace DemosOS

open Lib

/-- At most one process is past the ownership loop, it has not terminated, and the console
belongs to nobody else. -/
structure ConsoleOwned (c : InputConfig) : Prop where
  one : ∀ p q, (c.point p).PastLoop → (c.point q).PastLoop → p = q
  owner : ∀ p, c.shared.kernel.uart.owner = some p → (c.point p).PastLoop
  alive : ∀ p, (c.point p).PastLoop → (c.shared.kernel.pcb p).state ≠ .zombie

/-- The events that enter the scheduler. -/
def EntersScheduler (e : Event InputChoice) (c : InputConfig) : Prop :=
  match e, c.point c.shared.kernel.currentProcess with
  | .interrupt, _ => c.shared.kernel.TickSwitches
  | .act (.call (.op op)), _ => ∃ k, op.entry c.shared.kernel = some (true, k)
  | .act .proceed, .waitingOwner _ | .act .proceed, .sleeping _ => True
  | _, _ => False

/-- The conditions on a step: a process that finds the console without owner is the only one
between the test and the write, and no `KILL` is pending for a process past the loop when the
scheduler is entered. -/
structure Undisputed (e : Event InputChoice) (c : InputConfig) : Prop where
  claim : e = .act .proceed → ∀ line, c.point c.shared.kernel.currentProcess = .testingOwner line →
    c.shared.kernel.uart.owner = none → ∀ p, ¬ (c.point p).IsClaiming
  kill : EntersScheduler e c → ∀ p, (c.point p).PastLoop →
    ¬ (c.shared.kernel.pcb p).hasSignal SIGNAL_KILL

/-- What holds between any two steps under these conditions. -/
structure OwnerInv (c : InputConfig) : Prop extends ConsoleOwned c where
  /-- Past the loop and the write, a process is the owner, and only then. -/
  owns : ∀ p, c.shared.kernel.uart.owner = some p ↔
    (c.point p).PastLoop ∧ ¬ (c.point p).IsClaiming
  current : c.shared.kernel.current.state ≠ .zombie

namespace OwnerInv

variable {c : InputConfig} {s : Console} {l : InputPoint}

/-- The points and the owner stay, and nobody is terminated. -/
theorem stay (h : OwnerInv c) (howner : s.kernel.uart.owner = c.shared.kernel.uart.owner)
    (halive : ∀ p, (c.point p).PastLoop → (s.kernel.pcb p).state ≠ .zombie)
    (hcur : s.kernel.current.state ≠ .zombie) : OwnerInv ⟨s, c.point⟩ where
  one := h.one
  owner p hp := h.owner p (howner ▸ hp)
  alive := halive
  owns p := by
    dsimp only
    rw [howner]
    exact h.owns p
  current := hcur

/-- The running process moves to a point of the same kind. -/
theorem move (h : OwnerInv c) (howner : s.kernel.uart.owner = c.shared.kernel.uart.owner)
    (halive : ∀ p, (c.point p).PastLoop → (s.kernel.pcb p).state ≠ .zombie)
    (hcur : s.kernel.current.state ≠ .zombie)
    (hpast : l.PastLoop ↔ (c.point c.shared.kernel.currentProcess).PastLoop)
    (hclaim : l.IsClaiming ↔ (c.point c.shared.kernel.currentProcess).IsClaiming) :
    OwnerInv ⟨s, Function.update c.point c.shared.kernel.currentProcess l⟩ := by
  have hpast' : ∀ p, (Function.update c.point c.shared.kernel.currentProcess l p).PastLoop ↔
      (c.point p).PastLoop := by
    intro p
    by_cases hp : p = c.shared.kernel.currentProcess
    · subst hp
      rw [Function.update_self]
      exact hpast
    · rw [Function.update_of_ne hp]
  have hclaim' : ∀ p, (Function.update c.point c.shared.kernel.currentProcess l p).IsClaiming ↔
      (c.point p).IsClaiming := by
    intro p
    by_cases hp : p = c.shared.kernel.currentProcess
    · subst hp
      rw [Function.update_self]
      exact hclaim
    · rw [Function.update_of_ne hp]
  refine ⟨⟨fun p q hp hq ↦ ?_, fun p hp ↦ ?_, fun p hp ↦ ?_⟩, fun p ↦ ?_, hcur⟩ <;> dsimp only at *
  · exact h.one p q ((hpast' p).mp hp) ((hpast' q).mp hq)
  · rw [howner] at hp
    exact (hpast' p).mpr (h.owner p hp)
  · exact halive p ((hpast' p).mp hp)
  · rw [howner, hpast', hclaim']
    exact h.owns p

/-- A process finds the console free, and nobody else is past the loop. -/
theorem free (h : OwnerInv c) {line : Line}
    (hpoint : c.point c.shared.kernel.currentProcess = .testingOwner line)
    (hfree : c.shared.kernel.uart.owner = none ∨
      c.shared.kernel.uart.owner = some c.shared.kernel.currentProcess)
    (hclaim : c.shared.kernel.uart.owner = none → ∀ p, ¬ (c.point p).IsClaiming) :
    OwnerInv ⟨c.shared, Function.update c.point c.shared.kernel.currentProcess
      (.claiming line)⟩ := by
  -- the running process is not the owner, so there is none, and nobody is past the loop
  have hnone : c.shared.kernel.uart.owner = none := by
    refine hfree.resolve_right fun howner ↦ ?_
    have hpast := h.owner _ howner
    rw [hpoint] at hpast
    exact hpast
  have hpast : ∀ p, ¬ (c.point p).PastLoop := by
    intro p hp
    have howner := (h.owns p).mpr ⟨hp, hclaim hnone p⟩
    rw [hnone] at howner
    simp at howner
  have hself : ∀ p, (Function.update c.point c.shared.kernel.currentProcess (.claiming line)
      p).PastLoop → p = c.shared.kernel.currentProcess := by
    intro p hp
    by_contra hne
    rw [Function.update_of_ne hne] at hp
    exact hpast p hp
  refine ⟨⟨fun p q hp hq ↦ ?_, fun p hp ↦ ?_, fun p hp ↦ ?_⟩, fun p ↦ ?_, h.current⟩ <;>
    dsimp only at *
  · exact (hself p hp).trans (hself q hq).symm
  · simp [hnone] at hp
  · rw [hself p hp]
    exact h.current
  · rw [hnone]
    refine iff_of_false nofun ?_
    rintro ⟨hp, hnot⟩
    rw [hself p hp, Function.update_self] at hnot
    exact hnot trivial

/-- The write of `uart_owner`. -/
theorem claim (h : OwnerInv c) {line : Line}
    (hpoint : c.point c.shared.kernel.currentProcess = .claiming line) :
    OwnerInv ⟨c.shared.mapUart fun u ↦ { u with owner := some c.shared.kernel.currentProcess },
      Function.update c.point c.shared.kernel.currentProcess (.testingRing line)⟩ := by
  have hcur : (c.point c.shared.kernel.currentProcess).PastLoop := by
    rw [hpoint]
    trivial
  have hself : ∀ p, (Function.update c.point c.shared.kernel.currentProcess (.testingRing line)
      p).PastLoop ↔ p = c.shared.kernel.currentProcess := by
    intro p
    by_cases hp : p = c.shared.kernel.currentProcess
    · subst hp
      rw [Function.update_self]
      exact iff_of_true trivial rfl
    · rw [Function.update_of_ne hp]
      exact iff_of_false (fun hpast ↦ hp (h.one p _ hpast hcur)) hp
  refine ⟨⟨fun p q hp hq ↦ ?_, fun p hp ↦ ?_, fun p hp ↦ ?_⟩, fun p ↦ ?_, h.current⟩ <;>
    dsimp only at *
  · exact ((hself p).mp hp).trans ((hself q).mp hq).symm
  · exact (hself p).mpr (Option.some.inj hp).symm
  · rw [(hself p).mp hp]
    exact h.alive _ hcur
  · rw [hself]
    constructor
    · intro hp
      obtain rfl := Option.some.inj hp
      refine ⟨rfl, ?_⟩
      rw [Function.update_self]
      exact id
    · rintro ⟨rfl, -⟩
      rfl

/-- The release of the console at the end of a line. -/
theorem release (h : OwnerInv c) {line : Line} {b : UInt8}
    (hpoint : c.point c.shared.kernel.currentProcess = .editing line b)
    (howner : s.kernel.uart.owner = none) (hlive : s.kernel.current.state ≠ .zombie) :
    OwnerInv ⟨s, Function.update c.point c.shared.kernel.currentProcess .user⟩ := by
  have hcur : (c.point c.shared.kernel.currentProcess).PastLoop := by
    rw [hpoint]
    trivial
  have hnone : ∀ p,
      ¬ (Function.update c.point c.shared.kernel.currentProcess .user p).PastLoop := by
    intro p hp
    by_cases hne : p = c.shared.kernel.currentProcess
    · subst hne
      rw [Function.update_self] at hp
      exact hp
    · rw [Function.update_of_ne hne] at hp
      exact hne (h.one p _ hp hcur)
  refine ⟨⟨fun p q hp _ ↦ absurd hp (hnone p), fun p hp ↦ ?_, fun p hp ↦ absurd hp (hnone p)⟩,
    fun p ↦ iff_of_false ?_ fun hp ↦ hnone p hp.1, hlive⟩
  · simp [howner] at hp
  · simp [howner]

/-- A step in the code of `syscall_input`. -/
theorem inputStep (h : OwnerInv c) (hallowed : Undisputed (.act .proceed) c)
    (hstep : DemosOS.inputStep c.shared (c.point c.shared.kernel.currentProcess) = some (s, l)) :
    OwnerInv ⟨s, Function.update c.point c.shared.kernel.currentProcess l⟩ := by
  have hmove := inputStep_move hstep
  generalize hpoint : c.point c.shared.kernel.currentProcess = point at hmove
  have hclaim := hallowed.claim rfl
  -- a call of `schedule`, while no `KILL` is pending past the loop
  have hschedule : ∀ {k : Kernel Pointers}, EntersScheduler (.act .proceed) c →
      c.shared.kernel.schedule = some k →
      k.uart.owner = c.shared.kernel.uart.owner ∧
        (∀ p, (c.point p).PastLoop → (k.pcb p).state ≠ .zombie) ∧ k.current.state ≠ .zombie := by
    intro k henters hk
    refine ⟨congrArg Uart.owner (Aloof.schedule hk).uart, fun p hp ↦ ?_, ?_⟩
    · exact (Kernel.spared_schedule hk ⟨h.alive p hp, hallowed.kill henters p hp⟩).1
    · rw [Kernel.pickNext_current hk]
      exact nofun
  -- a move within the loop, or past it
  have hwithin : (l.PastLoop ↔ point.PastLoop) → (l.IsClaiming ↔ point.IsClaiming) →
      s.kernel.uart.owner = c.shared.kernel.uart.owner →
      (∀ p, (c.point p).PastLoop → (s.kernel.pcb p).state ≠ .zombie) →
      s.kernel.current.state ≠ .zombie →
      OwnerInv ⟨s, Function.update c.point c.shared.kernel.currentProcess l⟩ :=
    fun hpast hclaim howner halive hcur ↦
      h.move howner halive hcur (by rwa [hpoint]) (by rwa [hpoint])
  cases hmove with
  | owned | empty | nonempty | more | drained | fetch | advance | edit =>
      exact hwithin .rfl .rfl rfl h.alive h.current
  | free line hfree => exact h.free hpoint hfree (hclaim line hpoint)
  | retry line k hk =>
      obtain ⟨howner, halive, hcur⟩ := hschedule (by simp [EntersScheduler, hpoint]) hk
      exact hwithin .rfl .rfl howner halive hcur
  | claim line => exact h.claim hpoint
  | mark line =>
      have hmarked : ∀ p, (c.shared.kernel.pcb p).state ≠ .zombie →
          ((c.shared.kernel.toGlobals.setState c.shared.kernel.currentProcess
            .waitingUartInput).pcb p).state ≠ .zombie := fun p hp ↦
        Globals.alive_modifyPcb hp fun _ _ ↦ nofun
      exact hwithin .rfl .rfl rfl (fun p hp ↦ hmarked p (h.alive p hp)) (hmarked _ h.current)
  | sleep line k hk =>
      obtain ⟨howner, halive, hcur⟩ := hschedule (by simp [EntersScheduler, hpoint]) hk
      exact hwithin .rfl .rfl howner halive hcur
  | finish line b => exact h.release hpoint rfl h.current

/-- A console interrupt. -/
theorem uartIrq (h : OwnerInv c) {mis : BitVec 32} {fifo : List (BitVec 32)}
    (hs : c.shared.handleUartIrq mis fifo = some s) : OwnerInv ⟨s, c.point⟩ := by
  obtain ⟨⟨rest, k⟩, hk, rfl⟩ := Option.map_eq_some_iff.mp hs
  have hirq := Kernel.handleUartIrq_spec hk
  refine h.stay ?_ (fun p hp ↦ hirq.zombie p (h.alive p hp)) ?_
  · rw [hirq.uart, Uart.storeAll_owner]
  · rw [Globals.current, hirq.currentProcess]
    exact hirq.zombie _ h.current

/-- A timer tick. -/
theorem tick (h : OwnerInv c) (hallowed : Undisputed .interrupt c) {k : Kernel Pointers}
    (hk : c.shared.kernel.handleTimerTick = some k) :
    OwnerInv ⟨c.shared.withKernel k, c.point⟩ := by
  refine h.stay (congrArg Uart.owner (Aloof.scheduled (Kernel.scheduled_handleTimerTick hk)).uart)
    (fun p hp ↦ ?_) ?_
  · exact Kernel.alive_handleTimerTick hk (fun hswitch ↦ hallowed.kill hswitch p hp) (h.alive p hp)
  · rcases Kernel.handleTimerTick_cases hk with ⟨hstay, hcur⟩ | ⟨-, hrunning⟩
    · rw [Console.withKernel, Globals.current, hcur]
      exact Kernel.alive_handleTimerTick hk (fun hswitch ↦ absurd hswitch hstay) h.current
    · rw [Console.withKernel, hrunning]
      exact fun hzombie ↦ by cases hzombie

/-- Whatever happens next. -/
theorem inputAct [KernelImage] (h : OwnerInv c) {choice : InputChoice}
    (henabled : choice.Enabled c.shared) (hallowed : Undisputed (.act choice) c)
    (hact : DemosOS.inputAct choice c.shared (c.point c.shared.kernel.currentProcess) =
      some (s, l)) : OwnerInv ⟨s, Function.update c.point c.shared.kernel.currentProcess l⟩ := by
  generalize hpoint : c.point c.shared.kernel.currentProcess = point at hact
  unfold DemosOS.inputAct at hact
  split at hact
  · obtain ⟨s₁, hs₁, hr⟩ := Option.map_eq_some_iff.mp hact
    obtain ⟨rfl, rfl⟩ := Prod.mk.inj hr
    rw [← hpoint, Function.update_eq_self]
    exact h.uartIrq hs₁
  · rename_i activity
    obtain ⟨k, hk, hr⟩ := Option.map_eq_some_iff.mp hact
    obtain ⟨rfl, rfl⟩ := Prod.mk.inj hr
    refine h.move (congrArg Uart.owner (Aloof.activity henabled hk).uart) (fun p hp ↦ ?_)
      (Activity.alive_current henabled.1 hk h.current) (by rw [hpoint]) (by rw [hpoint])
    refine Activity.alive henabled.1 hk (fun op k₁ hop hentry ↦ ⟨?_, ?_⟩) (h.alive p hp)
    · rintro rfl
      rw [hpoint] at hp
      exact hp
    · refine hallowed.kill ?_ p hp
      subst hop
      exact ⟨k₁, hentry⟩
  · split_ifs at hact
    obtain ⟨rfl, rfl⟩ := Prod.mk.inj (Option.some.inj hact)
    exact h.move rfl h.alive h.current (by rw [hpoint]; exact .rfl) (by rw [hpoint]; exact .rfl)
  · rw [← hpoint] at hact
    exact h.inputStep hallowed hact
  · simp at hact

end OwnerInv

/-- In every run from boot in which nobody finds the console free between another process's
test and its write, and no `KILL` is pending past the ownership loop when the scheduler is
entered, at most one process is past the loop, it has not terminated, and nobody else owns
the console. -/
theorem consoleOwned_of_undisputed [KernelImage] {algorithm : Algorithm}
    {timerClo : Nat → BitVec 32} {c : InputConfig}
    (hrun : Relation.ReflTransGen (inputMachine.Step fun e c ↦
      InputEnabled e c ∧ Undisputed e c) (inputBoot algorithm timerClo) c) : ConsoleOwned c := by
  have hinv : OwnerInv c := by
    refine Machine.invariant (I := OwnerInv) ?_ ?_ hrun ?_
    · rintro c choice s l h ⟨henabled, hallowed⟩ hact
      exact h.inputAct henabled hallowed hact
    · rintro c s h ⟨-, hallowed⟩ hs
      obtain ⟨k, hk, rfl⟩ := Option.map_eq_some_iff.mp hs
      exact h.tick hallowed hk
    · refine ⟨⟨?_, ?_, ?_⟩, ?_, ?_⟩
      · rintro p q ⟨⟩
      · rintro p ⟨⟩
      · rintro p ⟨⟩
      · exact fun p ↦ iff_of_false nofun fun hp ↦ hp.1
      · show ProcessState.unset ≠ .zombie
        exact nofun
  exact hinv.toConsoleOwned

/-! ## One reader, two readers, and a reader that is killed -/

theorem undisputed_call {op : Op} {c : InputConfig} (hc : ∀ p, c.point p = .user) :
    Undisputed (.act (.call (.op op))) c where
  claim := nofun
  kill _ p hp := by
    rw [hc p] at hp
    exact absurd hp id

/-- Only the first process reads, and no `KILL` is pending for it: for concrete runs. -/
def OnlyFirstReads (e : Event InputChoice) (c : InputConfig) : Prop :=
  SimpleEvent e c ∧ ¬ (c.shared.kernel.pcb (.page 0)).hasSignal SIGNAL_KILL ∧
    match e with
    | .act (.input _) => c.shared.kernel.currentProcess = .page 0
    | _ => True

instance (e : Event InputChoice) (c : InputConfig) : Decidable (OnlyFirstReads e c) :=
  match e with
  | .act (.input _) => inferInstanceAs (Decidable (_ ∧ _ ∧ _ = _))
  | .interrupt | .act .proceed | .act (.call _) | .act (.uartIrq ..) =>
      inferInstanceAs (Decidable (_ ∧ _ ∧ True))

theorem OnlyFirstReads.undisputed {e : Event InputChoice} {c : InputConfig}
    (h : OnlyFirstReads e c) (hc : ∀ p, p ≠ .page 0 → c.point p = .user) : Undisputed e c where
  claim _ line hpoint _ p hp := by
    have hfirst : ∀ q, c.point q ≠ .user → q = .page 0 := fun q hq ↦ by_contra fun hne ↦
      hq (hc q hne)
    obtain rfl := hfirst p (by rintro he; rw [he] at hp; exact hp)
    rw [hfirst c.shared.kernel.currentProcess (by simp [hpoint])] at hpoint
    rw [hpoint] at hp
    exact hp
  kill _ p hp := by
    by_cases hne : p = .page 0
    · rw [hne]
      exact h.2.1
    · rw [hc p hne] at hp
      exact absurd hp id

/-- Everybody else stays in user code. -/
theorem OnlyFirstReads.step [KernelImage] {c c' : InputConfig}
    (h : inputMachine.Step OnlyFirstReads c c') (hc : ∀ p, p ≠ .page 0 → c.point p = .user) :
    ∀ p, p ≠ .page 0 → c'.point p = .user := by
  intro p hp
  obtain ⟨e, hfirst, hnext⟩ := h
  cases e with
  | interrupt =>
      obtain ⟨s, -, rfl⟩ := Option.map_eq_some_iff.mp hnext
      exact hc p hp
  | act choice =>
      obtain ⟨⟨s, l⟩, hs, rfl⟩ := Option.map_eq_some_iff.mp hnext
      dsimp only
      by_cases hcur : p = inputMachine.running c.shared
      · subst hcur
        rw [Function.update_self]
        rw [hc _ hp] at hs
        cases choice with
        | call activity =>
            obtain ⟨k, -, hr⟩ := Option.map_eq_some_iff.mp hs
            exact (Prod.mk.inj hr).2.symm
        | input call => exact absurd hfirst.2.2 hp
        | proceed => simp [inputMachine, DemosOS.inputAct, DemosOS.inputStep] at hs
        | uartIrq mis fifo =>
            obtain ⟨s₁, -, hr⟩ := Option.map_eq_some_iff.mp hs
            exact (Prod.mk.inj hr).2.symm
      · rw [Function.update_of_ne hcur]
        exact hc p hp

/-- The first process takes the console and sleeps; it still owns the console. -/
theorem consoleOwned_asleep : let _ := someImage
    ∃ k c, runAll readersStart (Kernel.boot .roundRobin fun _ ↦ 0) = some k ∧
      inputMachine.run OnlyFirstReads
        (.act (.input ⟨10, fun _ ↦ 0⟩) :: List.replicate 5 (.act .proceed))
        ⟨⟨k, [], []⟩, fun _ ↦ .user⟩ = some c ∧
      c.shared.kernel.currentProcess = .page 1 ∧
      c.shared.kernel.uart.owner = some (.page 0) ∧ ConsoleOwned c := by
  intro _
  obtain ⟨k, hk, hstart⟩ := readersStart_spec (fun e c ↦ InputEnabled e c ∧ Undisputed e c)
    fun op c hc henabled ↦ ⟨henabled, undisputed_call hc⟩
  have hrun : (runAll readersStart (Kernel.boot .roundRobin fun _ ↦ 0)).all (fun k ↦
      (inputMachine.run OnlyFirstReads
        (.act (.input ⟨10, fun _ ↦ 0⟩) :: List.replicate 5 (.act .proceed))
        ⟨⟨k, [], []⟩, fun _ ↦ .user⟩).any fun c ↦ c.shared.kernel.currentProcess = .page 1 ∧
          c.shared.kernel.uart.owner = some (.page 0)) = true := by
    decide +kernel
  rw [hk, Option.all_some] at hrun
  obtain ⟨c, hc, hprop⟩ := (Option.any_eq_true _ _).mp hrun
  obtain ⟨hcur, howner⟩ := of_decide_eq_true hprop
  have hsteps : Relation.ReflTransGen
      (inputMachine.Step fun e c ↦ InputEnabled e c ∧ Undisputed e c)
      ⟨⟨k, [], []⟩, fun _ ↦ .user⟩ c :=
    Machine.reachable_mono (fun _ _ hpoint hstep ↦ OnlyFirstReads.step hstep hpoint)
      (fun _ _ hpoint hfirst ↦ ⟨inputEnabled_of_simple hfirst.1, hfirst.undisputed hpoint⟩)
      (Machine.reachable_of_run hc) fun _ _ ↦ rfl
  exact ⟨k, c, hk, hc, hcur, howner, consoleOwned_of_undisputed (hstart.trans hsteps)⟩

/-- The first process has found the console free when its time slice ends; the second one
takes the console, and then the first one does. -/
def bothClaim : List (Event InputChoice) :=
  [.act (.input ⟨10, fun _ ↦ 0⟩), .act .proceed] ++ List.replicate 10 .interrupt ++
    [.act (.input ⟨10, fun _ ↦ 0⟩), .act .proceed]

/-- The owner sleeps; it is killed, and the byte that wakes it lets the scheduler find the
signal. -/
def killOwner : List (Event InputChoice) :=
  .act (.input ⟨10, fun _ ↦ 0⟩) :: List.replicate 5 (.act .proceed) ++
    [.act (.call (.op (.signal 1 SIGNAL_KILL))), .act (.uartIrq (1 <<< 4) [0x61]),
      .act (.call (.op .yield))]

/-- Two processes can be past the ownership loop, and the console can be left to a process
that has terminated. -/
theorem consoleOwned_false : (¬ ∀ (image : KernelImage) (algorithm : Algorithm)
    (timerClo : Nat → BitVec 32) (c : InputConfig),
    Relation.ReflTransGen ((@inputMachine image).Step InputEnabled)
    (inputBoot algorithm timerClo) c →
      ∀ p q, (c.point p).PastLoop → (c.point q).PastLoop → p = q) ∧
    ¬ ∀ (image : KernelImage) (algorithm : Algorithm) (timerClo : Nat → BitVec 32)
      (c : InputConfig),
      Relation.ReflTransGen ((@inputMachine image).Step InputEnabled)
        (inputBoot algorithm timerClo) c →
      ∀ p, c.shared.kernel.uart.owner = some p → (c.shared.kernel.pcb p).state ≠ .zombie := by
  let _ := someImage
  obtain ⟨k, hk, hstart⟩ := readersStart_spec InputEnabled fun _ _ _ ↦ id
  constructor
  · intro hclaim
    have hrun : (runAll readersStart (Kernel.boot .roundRobin fun _ ↦ 0)).all (fun k ↦
        (inputMachine.run SimpleEvent bothClaim ⟨⟨k, [], []⟩, fun _ ↦ .user⟩).any fun c ↦
          (c.point (.page 0)).PastLoop ∧ (c.point (.page 1)).PastLoop) = true := by
      decide +kernel
    rw [hk, Option.all_some] at hrun
    obtain ⟨c, hc, hprop⟩ := (Option.any_eq_true _ _).mp hrun
    obtain ⟨hfirst, hsecond⟩ := of_decide_eq_true hprop
    have hsteps := inputSteps_of_run (fun _ _ h ↦ inputEnabled_of_simple h) hc
    have heq := hclaim someImage _ _ c (hstart.trans hsteps) _ _ hfirst hsecond
    simp at heq
  · intro hclaim
    have hrun : (runAll readersStart (Kernel.boot .roundRobin fun _ ↦ 0)).all (fun k ↦
        (inputMachine.run SimpleEvent killOwner ⟨⟨k, [], []⟩, fun _ ↦ .user⟩).any fun c ↦
          c.shared.kernel.uart.owner = some (.page 0) ∧
            (c.shared.kernel.pcb (.page 0)).state = .zombie) = true := by
      decide +kernel
    rw [hk, Option.all_some] at hrun
    obtain ⟨c, hc, hprop⟩ := (Option.any_eq_true _ _).mp hrun
    obtain ⟨howner, hstate⟩ := of_decide_eq_true hprop
    have hsteps := inputSteps_of_run (fun _ _ h ↦ inputEnabled_of_simple h) hc
    exact hclaim someImage _ _ c (hstart.trans hsteps) _ howner hstate

end DemosOS
