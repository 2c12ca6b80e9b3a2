import DemosOS.Console.Receive
import DemosOS.Ipc.Blocking

/-!
# Who is terminated

A process becomes `ZOMBIE` when it exits, or when a scheduler invocation handles a `KILL` that
is pending for it.  So a process that does not run is not terminated as long as no `KILL` is
pending for it whenever the scheduler is entered.
-/

namespace DemosOS

namespace Globals

variable {g : Globals} {p x : PcbPtr}

/-- An update of a control block that does not terminate the process. -/
theorem Spared.modifyPcb (h : g.Spared p) {f : PCB → PCB}
    (hstate : ∀ b, b.state ≠ .zombie → (f b).state ≠ .zombie)
    (hsignals : ∀ b, (f b).pendingSignals = b.pendingSignals) : (g.modifyPcb x f).Spared p := by
  have hpending := g.modifyPcb_field x p f PCB.pendingSignals hsignals
  refine ⟨?_, ?_⟩
  · rw [modifyPcb_pcb]
    split_ifs with hx
    · exact hstate _ (hx ▸ h.1)
    · exact h.1
  · rw [PCB.hasSignal, hpending]
    exact h.2

/-- An update of another control block. -/
theorem Spared.modifyPcb_of_ne (h : g.Spared p) (hne : p ≠ x) (f : PCB → PCB) :
    (g.modifyPcb x f).Spared p := by
  rw [Spared, Globals.modifyPcb_pcb_of_ne _ _ hne]
  exact h

theorem Spared.preemptEnable (h : g.Spared p) : g.preemptEnable.Spared p :=
  h.modifyPcb (fun _ ↦ id) fun _ ↦ rfl

theorem Spared.preemptDisable (h : g.Spared p) : g.preemptDisable.Spared p :=
  h.modifyPcb (fun _ ↦ id) fun _ ↦ rfl

theorem Spared.dispatch (h : g.Spared p) (next : PcbPtr) : (g.dispatch next).Spared p := by
  have hset : ∀ {g : Globals}, g.Spared p → ∀ (x : PcbPtr) {s : ProcessState}, s ≠ .zombie →
      (g.setState x s).Spared p := fun h x _ hs ↦ h.modifyPcb (fun _ _ ↦ hs) fun _ ↦ rfl
  have hnext : (g.setState next .running).Spared p := hset h next (by decide)
  refine Spared.preemptEnable ?_
  obtain ⟨-, hs⟩ | ⟨-, -, hs⟩ | ⟨-, -, hs⟩ := g.switchToProcess_cases next
  · rw [hs]
    exact hnext
  · rw [hs]
    have hprevious := hset hnext g.currentProcess (s := .ready) (by decide)
    exact hprevious
  · rw [hs]
    exact hnext

/-- An update that does not terminate the process keeps it alive. -/
theorem alive_modifyPcb (h : (g.pcb p).state ≠ .zombie) {f : PCB → PCB}
    (hstate : ∀ b, b.state ≠ .zombie → (f b).state ≠ .zombie) :
    ((g.modifyPcb x f).pcb p).state ≠ .zombie := by
  rw [modifyPcb_pcb]
  split_ifs with hx
  · exact hstate _ (hx ▸ h)
  · exact h

end Globals

namespace Writes

variable {leaves : ProcessState → Prop} {signals : Prop} {g g₁ : Globals} {p : PcbPtr}

/-- Writes that send no signal terminate at most the process that runs. -/
theorem spared (h : Writes leaves signals g g₁) (hsignals : ¬ signals)
    (hne : p ≠ g.currentProcess) (hp : g.Spared p) : g₁.Spared p := by
  induction h with
  | refl => exact hp
  | tail hwrites hstep ih =>
      cases hstep with
      | update _ hupdate => exact (Updates.one hupdate).spared ih
      | parameters x f hf =>
          refine ih.modifyPcb (fun b hb ↦ ?_) fun b ↦ ?_
          · obtain ⟨_, _, _, _, hf⟩ := hf b
            rwa [hf]
          · obtain ⟨_, _, _, _, hf⟩ := hf b
            rw [hf]
      | leave s _ f => exact ih.modifyPcb_of_ne (currentProcess hwrites ▸ hne) f
      | wake x => exact ih.modifyPcb (fun _ _ ↦ nofun) fun _ ↦ rfl
      | signal hs => exact absurd hs hsignals

/-- Writes of an operation that does not exit terminate nobody. -/
theorem alive (h : Writes leaves signals g g₁) (hleaves : ¬ leaves .zombie)
    (hp : (g.pcb p).state ≠ .zombie) : (g₁.pcb p).state ≠ .zombie := by
  induction h with
  | refl => exact hp
  | tail _ hstep ih =>
      cases hstep with
      | update _ hupdate => exact (Updates.one hupdate).not_zombie ih
      | parameters x f hf =>
          refine Globals.alive_modifyPcb ih fun b hb ↦ ?_
          obtain ⟨_, _, _, _, hf⟩ := hf b
          rwa [hf]
      | leave s hs f hf =>
          refine Globals.alive_modifyPcb ih fun b _ hzombie ↦ ?_
          obtain ⟨_, hf⟩ := hf b
          rw [hf] at hzombie
          exact hleaves (hzombie ▸ hs)
      | wake x => exact Globals.alive_modifyPcb ih fun _ _ ↦ nofun
      | signal _ x f => exact Globals.alive_modifyPcb (f := (·.raiseSignal f)) ih fun _ ↦ id

end Writes

namespace Kernel

variable {k k' : Kernel Pointers} {p : PcbPtr}

/-- A scheduler invocation. -/
theorem spared_pickNext (h : k.pickNext = some k') (hp : k.Spared p) : k'.Spared p := by
  obtain ⟨⟨next, k₁⟩, hsel, h⟩ := Option.bind_eq_some_iff.mp h
  obtain rfl := Option.some.inj h
  exact ((updates_select hsel).spared hp.preemptDisable).dispatch next

theorem spared_schedule (h : k.schedule = some k') (hp : k.Spared p) : k'.Spared p := by
  have hend : Updates False k.toGlobals k.toGlobals.endBurst := .endBurst _
  exact spared_pickNext h (hend.spared hp)

/-- A timer tick. -/
theorem alive_handleTimerTick (h : k.handleTimerTick = some k')
    (hkill : k.TickSwitches → ¬ (k.pcb p).hasSignal SIGNAL_KILL)
    (hp : (k.pcb p).state ≠ .zombie) : (k'.pcb p).state ≠ .zombie := by
  obtain ⟨⟨b, k₁⟩, hentry, h⟩ := Option.bind_eq_some_iff.mp h
  obtain ⟨-, hiff⟩ := tickEntry_spec hentry
  have hupdates : Updates False k.toGlobals k₁.toGlobals := updates_tickEntry hentry
  cases b with
  | false =>
      obtain rfl := Option.some.inj h
      exact hupdates.not_zombie hp
  | true => exact (spared_pickNext h (hupdates.spared ⟨hp, hkill (hiff.mp rfl)⟩)).1

end Kernel

namespace Op

variable {k k₁ k' : Kernel Pointers} {p : PcbPtr} {op : Op}

/-- Up to its call of the scheduler an operation terminates at most the process that runs. -/
theorem spared_entry (h : op.entry k = some (true, k₁)) (hne : p ≠ k.currentProcess)
    (hp : k.Spared p) : k₁.Spared p := by
  have hadd : ∀ x b, op ≠ .add x b := by
    rintro x b rfl
    simp [entry] at h
  exact (Writes.entry hadd h).spared (by simp) hne hp

/-- An operation that does not call the scheduler terminates nobody. -/
theorem alive_entry (hop : op.Enabled k.toGlobals) (h : op.entry k = some (false, k'))
    (hp : (k.pcb p).state ≠ .zombie) : (k'.pcb p).state ≠ .zombie := by
  have henqueue : ∀ {x : PcbPtr} {k k' : Kernel Pointers}, k.enqueueProcess x = some k' →
      (k.pcb p).state ≠ .zombie → (k'.pcb p).state ≠ .zombie := fun h hp ↦ by
    have hupdates : Updates False _ _ := Kernel.updates_enqueueProcess h
    exact hupdates.not_zombie hp
  cases op with
  | add x b =>
      obtain ⟨-, -, hready, -⟩ := hop
      obtain ⟨k₁, hrun, hr⟩ := Option.map_eq_some_iff.mp h
      obtain rfl := (Prod.mk.inj hr).2
      obtain ⟨⟨r, k₂⟩, hadd, rfl⟩ := Option.map_eq_some_iff.mp hrun
      have hnew : ((k.toGlobals.modifyPcb x fun _ ↦ b).pcb p).state ≠ .zombie :=
        Globals.alive_modifyPcb hp fun _ _ ↦ by simp [hready]
      obtain ⟨-, -, rfl⟩ | ⟨-, -, k₃, hk₃, rfl⟩ := Kernel.addProcessToScheduler_cases hadd
      · exact hnew
      · have halive : (k₃.pcb p).state ≠ .zombie := by
          split_ifs at hk₃
          · exact henqueue hk₃ hnew
          · obtain rfl := Option.some.inj hk₃
            exact hnew
        exact halive
  | wake | yield | block | wait | exit | tick | signal | setParam =>
      refine (Writes.entry ?_ h).alive (by simp) hp
      exact fun _ _ ↦ nofun

/-- An operation that does not call the scheduler leaves the running process running. -/
theorem entry_currentProcess (h : op.entry k = some (false, k')) :
    k'.currentProcess = k.currentProcess := by
  cases op with
  | add x b =>
      obtain ⟨k₁, hrun, hr⟩ := Option.map_eq_some_iff.mp h
      obtain rfl := (Prod.mk.inj hr).2
      obtain ⟨⟨r, k₂⟩, hadd, rfl⟩ := Option.map_eq_some_iff.mp hrun
      obtain ⟨-, -, rfl⟩ | ⟨-, -, k₃, hk₃, rfl⟩ := Kernel.addProcessToScheduler_cases hadd
      · rfl
      · have hcur : k₃.currentProcess = k.currentProcess := by
          split_ifs at hk₃
          · exact (Kernel.steady_enqueueProcess hk₃).currentProcess
          · obtain rfl := Option.some.inj hk₃
            rfl
        exact hcur
  | wake | yield | block | wait | exit | tick | signal | setParam =>
      refine (Writes.entry ?_ h).currentProcess
      exact fun _ _ ↦ nofun

end Op

/-- An exchange of messages terminates nobody. -/
theorem RingWrites.alive {owner p : PcbPtr} {g g₁ : Globals} (h : RingWrites owner g g₁)
    (hp : (g.pcb p).state ≠ .zombie) : (g₁.pcb p).state ≠ .zombie := by
  rcases h.state_or_ready p with hsame | hready
  · rwa [hsame]
  · rw [hready]
    exact nofun

/-- What a process in user code asks of the kernel terminates nobody, unless it enters the
scheduler; then it terminates at most the process itself and those with a pending `KILL`. -/
theorem Activity.alive [KernelImage] {k k' : Kernel Pointers} {p : PcbPtr} {activity : Activity}
    (henabled : activity.Enabled k.toGlobals) (h : activity.run k = some k')
    (hkill : ∀ op k₁, activity = .op op → op.entry k = some (true, k₁) →
      p ≠ k.currentProcess ∧ ¬ (k.pcb p).hasSignal SIGNAL_KILL)
    (hp : (k.pcb p).state ≠ .zombie) : (k'.pcb p).state ≠ .zombie := by
  cases activity with
  | op op =>
      have hrun : op.run k = some k' := h
      rw [Op.run_eq] at hrun
      obtain ⟨⟨b, k₁⟩, hentry, hrun⟩ := Option.bind_eq_some_iff.mp hrun
      cases b with
      | false =>
          obtain rfl := Option.some.inj hrun
          exact Op.alive_entry henabled hentry hp
      | true =>
          obtain ⟨hne, hnot⟩ := hkill op k₁ rfl hentry
          exact (Kernel.spared_pickNext hrun (Op.spared_entry hentry hne ⟨hp, hnot⟩)).1
  | send d body =>
      obtain ⟨⟨r, k₁⟩, hsend, rfl⟩ := Option.map_eq_some_iff.mp h
      exact (RingWrites.pushMessage hsend).alive hp
  | receive =>
      obtain ⟨⟨r, k₁⟩, hreceive, rfl⟩ := Option.map_eq_some_iff.mp h
      exact (RingWrites.attemptReceive hreceive).alive hp
  | uartIrq mis fifo =>
      obtain ⟨⟨rest, k₁⟩, hirq, rfl⟩ := Option.map_eq_some_iff.mp h
      exact (Kernel.handleUartIrq_spec hirq).zombie p hp

/-- Who runs afterwards has not terminated. -/
theorem Activity.alive_current [KernelImage] {k k' : Kernel Pointers} {activity : Activity}
    (henabled : activity.Enabled k.toGlobals) (h : activity.run k = some k')
    (hp : k.current.state ≠ .zombie) : k'.current.state ≠ .zombie := by
  by_cases henters : ∃ op k₁, activity = .op op ∧ op.entry k = some (true, k₁)
  · obtain ⟨op, k₁, rfl, hentry⟩ := henters
    have hrun : op.run k = some k' := h
    rw [Op.run_eq, hentry] at hrun
    rw [Kernel.pickNext_current hrun]
    exact nofun
  · have hcur : k'.currentProcess = k.currentProcess := by
      cases activity with
      | op op =>
          have hrun : op.run k = some k' := h
          rw [Op.run_eq] at hrun
          obtain ⟨⟨b, k₁⟩, hentry, hrun⟩ := Option.bind_eq_some_iff.mp hrun
          cases b with
          | false =>
              obtain rfl := Option.some.inj hrun
              exact Op.entry_currentProcess hentry
          | true => exact absurd ⟨op, k₁, rfl, hentry⟩ henters
      | send d body =>
          obtain ⟨⟨r, k₁⟩, hsend, rfl⟩ := Option.map_eq_some_iff.mp h
          exact (RingWrites.pushMessage hsend).currentProcess
      | receive =>
          obtain ⟨⟨r, k₁⟩, hreceive, rfl⟩ := Option.map_eq_some_iff.mp h
          exact (RingWrites.attemptReceive hreceive).currentProcess
      | uartIrq mis fifo =>
          obtain ⟨⟨rest, k₁⟩, hirq, rfl⟩ := Option.map_eq_some_iff.mp h
          exact (Kernel.handleUartIrq_spec hirq).currentProcess
    rw [Globals.current, hcur]
    refine Activity.alive henabled h (fun op k₁ hop hentry ↦ ?_) hp
    exact absurd ⟨op, k₁, hop, hentry⟩ henters

end DemosOS
