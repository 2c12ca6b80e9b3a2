import DemosOS.Console.Steps

/-!
# What the rest of the kernel leaves to the console

The scheduler and the message passing do not touch the variables of `uart.c`, and apart from
`syscall_input` nothing puts a process in the state in which it waits for console input.  A
process that does not run is terminated only by the handling of a `KILL`, in a scheduler
invocation.
-/

namespace DemosOS

open Lib

/-- A process of the table waits for console input. -/
def Globals.AwaitsInput (g : Globals) (p : PcbPtr) : Prop :=
  g.Known p ∧ (g.pcb p).state = .waitingUartInput

/-- Only `syscall_input` leaves its process waiting for console input. -/
theorem Op.block_of_leaves {op : Op} (h : op.Leaves .waitingUartInput) :
    op = .block .waitingUartInput := by
  cases op with
  | block s => exact congrArg block (Eq.symm h)
  | wait pid => exact nomatch h
  | exit => exact nomatch h
  | _ => exact h.elim

/-- The console is as it was, and nobody has started to wait for it. -/
structure Aloof (g g' : Globals) : Prop where
  uart : g'.uart = g.uart
  waiting : ∀ p, g'.AwaitsInput p → g.AwaitsInput p

namespace Aloof

variable {g g₁ g₂ : Globals}

theorem refl (g : Globals) : Aloof g g := ⟨rfl, fun _ ↦ id⟩

theorem trans (h : Aloof g g₁) (h' : Aloof g₁ g₂) : Aloof g g₂ :=
  ⟨h'.uart.trans h.uart, fun p ↦ h.waiting p ∘ h'.waiting p⟩

theorem scheduled (h : Scheduled g g₁) : Aloof g g₁ where
  uart := by
    have huart := congrArg Globals.uart h.frozen
    exact huart
  waiting p hp := ⟨(Globals.known_of_frozen h.frozen p).mp hp.1,
    (h.waiting p (by rw [hp.2]; trivial)).symm.trans hp.2⟩

/-- An update of one control block that does not make it wait. -/
theorem modifyPcb (g : Globals) (p : PcbPtr) {f : PCB → PCB}
    (hf : ∀ b, (f b).state = .waitingUartInput → b.state = .waitingUartInput) :
    Aloof g (g.modifyPcb p f) where
  uart := rfl
  waiting x hx := by
    refine ⟨hx.1, ?_⟩
    have hstate := hx.2
    rw [Globals.modifyPcb_pcb] at hstate
    split_ifs at hstate with hxp
    · exact hxp ▸ hf _ hstate
    · exact hstate

/-- Data that does not concern the processes. -/
theorem elsewhere (huart : g₁.uart = g.uart) (hpcb : g₁.pcb = g.pcb)
    (hprocesses : g₁.processes = g.processes) : Aloof g g₁ :=
  ⟨huart, fun p hp ↦ by rwa [Globals.AwaitsInput, Globals.Known, hprocesses, hpcb] at hp⟩

variable {k k' : Kernel Pointers}

theorem enqueueProcess {p : PcbPtr} (h : k.enqueueProcess p = some k') :
    Aloof k.toGlobals k'.toGlobals := scheduled (Kernel.steady_enqueueProcess h).toScheduled

theorem schedule (h : k.schedule = some k') : Aloof k.toGlobals k'.toGlobals :=
  scheduled (Kernel.scheduled_schedule h)

/-- The writes of an operation that does not block in `syscall_input`. -/
theorem writes {leaves : ProcessState → Prop} {signals : Prop} (hleaves : ¬ leaves .waitingUartInput)
    (h : Writes leaves signals g g₁) : Aloof g g₁ := by
  induction h with
  | refl => exact refl g
  | @tail g₁ _ _ hstep ih =>
      refine ih.trans ?_
      cases hstep with
      | update _ hupdate => exact scheduled (Steady.update hupdate).toScheduled
      | parameters p f hf =>
          refine modifyPcb g₁ p fun b hb ↦ ?_
          obtain ⟨_, _, _, _, hf⟩ := hf b
          rwa [hf] at hb
      | leave s hs f hf =>
          refine modifyPcb g₁ g₁.currentProcess fun b hb ↦ ?_
          obtain ⟨_, hf⟩ := hf b
          rw [hf] at hb
          exact absurd (hb ▸ hs) hleaves
      | wake p => exact modifyPcb g₁ p fun _ hb ↦ by simp at hb
      | signal _ p f => exact modifyPcb g₁ p (f := (·.raiseSignal f)) fun _ ↦ id

/-- An operation on the scheduler, unless it is the one with which `syscall_input` blocks. -/
theorem op {op : Op} (hop : op.Enabled k.toGlobals) (hinput : op ≠ .block .waitingUartInput)
    (h : op.run k = some k') : Aloof k.toGlobals k'.toGlobals := by
  cases op with
  | add p b =>
      obtain ⟨-, -, hready, -⟩ := hop
      obtain ⟨⟨r, k₁⟩, hadd, rfl⟩ := Option.map_eq_some_iff.mp h
      have hnew : Aloof k.toGlobals (k.toGlobals.modifyPcb p fun _ ↦ b) :=
        modifyPcb _ p fun _ hb ↦ by simp [hready] at hb
      obtain ⟨-, -, rfl⟩ | ⟨-, -, k₂, hk₂, rfl⟩ := Kernel.addProcessToScheduler_cases hadd
      · exact hnew
      · -- the process that enters the table is not waiting
        have hregister : Aloof (k.toGlobals.modifyPcb p fun _ ↦ b)
            ((k.toGlobals.modifyPcb p fun _ ↦ b).register p) := by
          refine ⟨rfl, fun x hx ↦ ⟨?_, hx.2⟩⟩
          have hxp : x ≠ p := by
            rintro rfl
            have hstate := hx.2
            rw [Globals.register, Globals.modifyPcb_pcb_self, hready] at hstate
            simp at hstate
          obtain ⟨i, hi⟩ := hx.1
          rw [Globals.register] at hi
          dsimp only at hi
          rw [Function.update_apply] at hi
          split_ifs at hi
          · exact absurd (Option.some.inj hi).symm hxp
          · exact ⟨i, hi⟩
        have hlinked : Aloof ((k.toGlobals.modifyPcb p fun _ ↦ b).register p) k₂.toGlobals := by
          split_ifs at hk₂
          · exact enqueueProcess hk₂
          · obtain rfl := Option.some.inj hk₂
            exact refl _
        exact (hnew.trans (hregister.trans hlinked)).trans (elsewhere rfl rfl rfl)
  | wake | yield | block | wait | exit | tick | signal | setParam =>
      rw [Op.run_eq] at h
      obtain ⟨⟨b, k₁⟩, hentry, h⟩ := Option.bind_eq_some_iff.mp h
      have hwrites : Aloof k.toGlobals k₁.toGlobals := by
        refine writes ?_ (Writes.entry ?_ hentry)
        · exact fun hs ↦ hinput (Op.block_of_leaves hs.2)
        · exact fun _ _ hadd ↦ by cases hadd
      cases b with
      | false =>
          obtain rfl := Option.some.inj h
          exact hwrites
      | true => exact hwrites.trans (scheduled (Kernel.scheduled_pickNext h))

theorem ring {owner : PcbPtr} (h : RingWrites owner g g₁) : Aloof g g₁ where
  uart := h.keeps Globals.uart (fun h ↦ by have huart := congrArg Globals.uart h; exact huart)
    fun _ _ _ ↦ rfl
  waiting p hp := by
    rw [Globals.AwaitsInput, Globals.Known, h.processes] at hp
    refine ⟨hp.1, ?_⟩
    rcases h.state_or_ready p with hsame | hready
    · exact hsame ▸ hp.2
    · rw [hready] at hp
      cases hp.2

variable [KernelImage]

/-- What a process in user code asks of the kernel. -/
theorem activity {s : Console} {activity : Activity} (hs : (InputChoice.call activity).Enabled s)
    (h : activity.run s.kernel = some k') : Aloof s.kernel.toGlobals k'.toGlobals := by
  obtain ⟨henabled, hinput, hirq⟩ := hs
  cases activity with
  | op o => exact op henabled (fun he ↦ hinput (he ▸ rfl)) h
  | send d body =>
      obtain ⟨⟨r, k₁⟩, hsend, rfl⟩ := Option.map_eq_some_iff.mp h
      exact ring (.pushMessage hsend)
  | receive =>
      obtain ⟨⟨r, k₁⟩, hreceive, rfl⟩ := Option.map_eq_some_iff.mp h
      exact ring (.attemptReceive hreceive)
  | uartIrq mis fifo => exact absurd rfl (hirq mis fifo)

end Aloof

end DemosOS
