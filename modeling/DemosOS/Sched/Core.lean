import DemosOS.Sched.Frame
import DemosOS.Sched.Runs

/-!
# What the operations of the scheduler leave alone

An operation on the scheduler, other than the creation of a process, writes scheduling data and
the parameters of processes.  The rest is the `core`: the process table with its pids, the
memory, and whatever the processes own.  Up to the call of the scheduler, the operations write
in five ways; what every such write keeps is kept by the operations, with no case analysis.
-/

namespace DemosOS

/-- The part of a control block that no operation of the scheduler writes. -/
def PCB.core (b : PCB) : PCB :=
  { b.frozen with
    priority := 0
    queuePriority := 0
    tickets := 0
    pidToWait := 0 }

/-- The part of the kernel's data that no operation of the scheduler writes. -/
def Globals.core (g : Globals) : Globals :=
  { g.frozen with pcb := fun p ↦ (g.pcb p).core }

namespace Globals

variable {g g' : Globals}

theorem core_of_frozen (h : g'.frozen = g.frozen) : g'.core = g.core := by
  have hcore := congrArg Globals.core h
  exact hcore

section

variable (h : g'.core = g.core)
include h

/-- A field of the control blocks that no operation of the scheduler writes. -/
theorem field_of_core {α : Type} (π : PCB → α) (hπ : ∀ b, π b.core = π b) (p : PcbPtr) :
    π (g'.pcb p) = π (g.pcb p) := by
  have hp := congrArg (fun s ↦ π (Globals.pcb s p)) h
  rw [← hπ (g'.pcb p), ← hπ (g.pcb p)]
  exact hp

theorem memory_of_core : g'.memory = g.memory := by
  have hmemory := congrArg Globals.memory h
  exact hmemory

theorem processes_of_core : g'.processes = g.processes := by
  have hprocesses := congrArg Globals.processes h
  exact hprocesses

theorem nProcesses_of_core : g'.nProcesses = g.nProcesses := by
  have hn := congrArg Globals.nProcesses h
  exact hn

theorem known_of_core (p : PcbPtr) : g'.Known p ↔ g.Known p := by
  rw [Known, Known, processes_of_core h]

end

theorem core_modifyPcb (g : Globals) (p : PcbPtr) {f : PCB → PCB}
    (hf : ∀ b, (f b).core = b.core) : (g.modifyPcb p f).core = g.core := by
  unfold Globals.core Globals.frozen
  simp only [Globals.modifyPcb]
  congr 1
  funext x
  exact g.modifyPcb_field p x f PCB.core hf

end Globals

/-! ## The writes of the operations -/

/-- The state in which an operation leaves the process that runs, if it gives up the
processor for good or until it is woken. -/
def Op.Leaves : Op → ProcessState → Prop
  | block s => (· = s)
  | wait _ => (· = .waitingAnotherProcess)
  | exit => (· = .zombie)
  | _ => fun _ ↦ False

/-- One write of an operation on the processes there are, up to its call of the scheduler. -/
inductive Write (leaves : ProcessState → Prop) (signals : Prop) (g : Globals) : Globals → Prop
  | update (g' : Globals) (h : Update False g g') : Write leaves signals g g'
  | parameters (p : PcbPtr) (f : PCB → PCB) (hf : ∀ b, ∃ preemptDisabled priority queuePriority
      tickets, f b = { b with preemptDisabled, priority, queuePriority, tickets }) :
      Write leaves signals g (g.modifyPcb p f)
  | leave (s : ProcessState) (hs : leaves s) (f : PCB → PCB)
      (hf : ∀ b, ∃ pidToWait, f b = { b with state := s, pidToWait }) :
      Write leaves signals g (g.modifyPcb g.currentProcess f)
  | wake (p : PcbPtr) : Write leaves signals g
      (g.modifyPcb p fun b ↦ { b with state := .ready, pidToWait := -1 })
  | signal (hs : signals) (p : PcbPtr) (f : Int) : Write leaves signals g
      (g.modifyPcb p (·.raiseSignal f))

/-- A sequence of such writes. -/
def Writes (leaves : ProcessState → Prop) (signals : Prop) : Globals → Globals → Prop :=
  Relation.ReflTransGen (Write leaves signals)

namespace Writes

variable {leaves : ProcessState → Prop} {signals : Prop} {g g₁ g₂ : Globals}
  {k k' : Kernel Pointers}

theorem refl (g : Globals) : Writes leaves signals g g := Relation.ReflTransGen.refl

theorem trans (h : Writes leaves signals g g₁) (h' : Writes leaves signals g₁ g₂) :
    Writes leaves signals g g₂ := Relation.ReflTransGen.trans h h'

theorem one (h : Write leaves signals g g₁) : Writes leaves signals g g₁ := .single h

theorem updates (h : Updates False g g₁) : Writes leaves signals g g₁ :=
  Relation.ReflTransGen.mono (fun _ g' ↦ Write.update g') g g₁ h

theorem preemptDisable (g : Globals) : Writes leaves signals g g.preemptDisable :=
  one (.parameters _ _ fun _ ↦ ⟨_, _, _, _, rfl⟩)

theorem preemptEnable (g : Globals) : Writes leaves signals g g.preemptEnable :=
  one (.parameters _ _ fun _ ↦ ⟨_, _, _, _, rfl⟩)

theorem schedSetParam (g : Globals) (p : PcbPtr) (param value : Int) :
    Writes leaves signals g (g.schedSetParam p param value).2 := by
  obtain h | ⟨f, h, hf⟩ | ⟨v, -, -, h⟩ := schedSetParam_cases g p param value
  · rw [h]
    exact refl g
  · rw [h]
    refine one (.parameters p f fun b ↦ ?_)
    obtain ⟨v, -, rfl⟩ | ⟨v, rfl⟩ := hf
    · exact ⟨_, v, _, _, rfl⟩
    · exact ⟨_, _, _, v, rfl⟩
  · rw [h]
    have hpriority : Writes leaves signals g.preemptDisable
        (g.preemptDisable.modifyPcb p fun b ↦ { b with queuePriority := v }) :=
      one (.parameters p _ fun _ ↦ ⟨_, _, v, _, rfl⟩)
    refine ((preemptDisable g).trans (hpriority.trans (updates ?_))).trans (preemptEnable _)
    exact .elsewhere rfl rfl rfl

theorem wakeWaiter {i : Nat} (h : k.wakeWaiter i = some k') :
    Writes leaves signals k.toGlobals k'.toGlobals := by
  unfold Kernel.wakeWaiter at h
  split at h
  · obtain rfl := Option.some.inj h
    exact refl _
  · rename_i p _
    split_ifs at h
    · exact (one (.wake p)).trans (updates (Kernel.updates_enqueueProcess h))
    · obtain rfl := Option.some.inj h
      exact refl _

theorem wakeWaiters {l : List Nat} (h : l.foldlM Kernel.wakeWaiter k = some k') :
    Writes leaves signals k.toGlobals k'.toGlobals :=
  Lib.foldlM_invariant (I := fun k₁ ↦ Writes leaves signals k.toGlobals k₁.toGlobals)
    (fun hwrites hround ↦ hwrites.trans (wakeWaiter hround)) h (refl _)

theorem terminate (hs : leaves .zombie) (h : k.terminate = some k') :
    Writes leaves signals k.toGlobals k'.toGlobals := by
  obtain ⟨k₁, hk₁, h⟩ := Option.bind_eq_some_iff.mp h
  obtain rfl := Option.some.inj h
  have hmark : Writes leaves signals k.toGlobals.preemptDisable
      (k.toGlobals.preemptDisable.setState k.currentProcess .zombie) :=
    one (.leave .zombie hs _ fun _ ↦ ⟨_, rfl⟩)
  exact (((preemptDisable _).trans hmark).trans (wakeWaiters hk₁)).trans (preemptEnable _)

/-- The process that gives up the processor. -/
theorem leave {s : ProcessState} (hs : leaves s) {f : PCB → PCB}
    (hf : ∀ b, ∃ pidToWait, f b = { b with state := s, pidToWait }) :
    Writes leaves signals g (g.modifyPcb g.currentProcess f).endBurst :=
  (one (.leave s hs f hf)).trans (updates (.endBurst _))

/-- Every operation on the processes there are is a sequence of writes, up to its call of the
scheduler; only operations without that call send signals. -/
theorem entry {op : Op} {b : Bool} (hadd : ∀ p b, op ≠ .add p b) (h : op.entry k = some (b, k')) :
    Writes (fun s ↦ b = true ∧ op.Leaves s) (b = false) k.toGlobals k'.toGlobals := by
  cases op with
  | add p b => exact absurd rfl (hadd p b)
  | wake p =>
      obtain ⟨k₁, hrun, hr⟩ := Option.map_eq_some_iff.mp h
      obtain ⟨-, rfl⟩ := Prod.mk.inj hr
      have hready : Updates False k.toGlobals (k.toGlobals.setState p .ready) := .one (.ready p)
      exact updates (hready.trans (Kernel.updates_enqueueProcess hrun))
  | yield =>
      obtain ⟨-, rfl⟩ := Prod.mk.inj (Option.some.inj h)
      exact updates ((Updates.setCounter _ _ 0).trans (.endBurst _))
  | block s =>
      obtain ⟨rfl, rfl⟩ := Prod.mk.inj (Option.some.inj h)
      exact leave (s := s) ⟨rfl, rfl⟩ fun _ ↦ ⟨_, rfl⟩
  | wait pid =>
      simp only [Op.entry] at h
      split at h
      · obtain ⟨-, rfl⟩ := Prod.mk.inj (Option.some.inj h)
        exact refl _
      · split_ifs at h
        · obtain ⟨-, rfl⟩ := Prod.mk.inj (Option.some.inj h)
          exact refl _
        · obtain ⟨rfl, rfl⟩ := Prod.mk.inj (Option.some.inj h)
          exact leave (s := .waitingAnotherProcess) ⟨rfl, rfl⟩ fun _ ↦ ⟨pid, rfl⟩
  | exit =>
      obtain ⟨k₁, hterm, hr⟩ := Option.map_eq_some_iff.mp h
      obtain ⟨rfl, rfl⟩ := Prod.mk.inj hr
      exact (terminate ⟨rfl, rfl⟩ hterm).trans (updates (.endBurst _))
  | tick => exact updates (Kernel.updates_tickEntry h)
  | signal pid f =>
      obtain ⟨rfl, rfl⟩ := Prod.mk.inj (Option.some.inj h)
      rw [Kernel.mapGlobals_toGlobals, Globals.syscallSendSignal]
      split
      · exact refl _
      · rename_i p _
        exact one (.signal rfl p f)
  | setParam pid param value =>
      obtain ⟨-, rfl⟩ := Prod.mk.inj (Option.some.inj h)
      rw [Kernel.mapGlobals_toGlobals, Globals.syscallSetSchedParam]
      split
      · exact refl _
      · exact schedSetParam _ _ _ _

theorem currentProcess (h : Writes leaves signals g g₁) :
    g₁.currentProcess = g.currentProcess := by
  induction h with
  | refl => rfl
  | tail _ hstep ih =>
      refine Eq.trans ?_ ih
      cases hstep with
      | update _ hupdate => exact (Steady.update hupdate).currentProcess
      | parameters | leave | wake | signal => rfl

theorem core (h : Writes leaves signals g g₁) : g₁.core = g.core := by
  induction h with
  | refl => rfl
  | @tail g₁ _ _ hstep ih =>
      refine Eq.trans ?_ ih
      cases hstep with
      | update _ hupdate => exact Globals.core_of_frozen (Steady.update hupdate).frozen
      | parameters p f hf =>
          refine g₁.core_modifyPcb p fun b ↦ ?_
          obtain ⟨_, _, _, _, hb⟩ := hf b
          rw [hb]
          rfl
      | leave s _ f hf =>
          refine g₁.core_modifyPcb g₁.currentProcess fun b ↦ ?_
          obtain ⟨_, hb⟩ := hf b
          rw [hb]
          rfl
      | wake p => exact g₁.core_modifyPcb p fun _ ↦ rfl
      | signal _ p f => exact g₁.core_modifyPcb p fun _ ↦ rfl

end Writes

/-- An operation on the processes there are keeps the core. -/
theorem Op.core_run {k k' : Kernel Pointers} {op : Op} (hadd : ∀ p b, op ≠ .add p b)
    (h : op.run k = some k') : k'.toGlobals.core = k.toGlobals.core := by
  rw [Op.run_eq] at h
  obtain ⟨⟨b, k₁⟩, hentry, h⟩ := Option.bind_eq_some_iff.mp h
  have hcore := (Writes.entry hadd hentry).core
  cases b with
  | false =>
      obtain rfl := Option.some.inj h
      exact hcore
  | true => exact (Globals.core_of_frozen (Kernel.scheduled_pickNext h).frozen).trans hcore

end DemosOS
