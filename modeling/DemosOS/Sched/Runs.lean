import DemosOS.Kernel.Runs
import DemosOS.Sched.Entry

/-!
# Runs keep the invariant

Every operation, enabled in a state that satisfies the invariant, ends in a state
that satisfies it again.  The operation is looked at in two parts: what it does
before it enters the scheduler is a `Passage`, and what the scheduler does then is an
`Invocation`.  Both say what can happen to each process, so that properties of whole
runs need only look at the two relations.
-/

namespace DemosOS

open Lib

/-! ## Passages -/

/-- How the running process `p` gives up the processor. -/
inductive Left (a a' : Kernel Lists) (p : PcbPtr) : Prop
  | /-- It waits for input or for a message. -/
    blocks (hwaiting : (a'.pcb p).state.IsWaiting)
      (hother : (a'.pcb p).state ≠ .waitingAnotherProcess)
  | /-- It waits for a process that is not a zombie. -/
    awaits (hstate : (a'.pcb p).state = .waitingAnotherProcess) (z : PcbPtr) (hz : a.Known z)
      (hpid : (a'.pcb p).pidToWait = (a.pcb z).pid) (halive : (a.pcb z).state ≠ .zombie)
  | /-- It terminates, and makes ready whoever waited for it. -/
    exits (hstate : (a'.pcb p).state = .zombie)
      (hwoken : ∀ {x}, a.Known x → a.WaitsFor x (a.pcb p).pid →
        (a'.pcb x).state = .ready ∧ (a'.pcb x).pidToWait = -1 ∧ ∃ q, x ∈ a'.queues q)

/-- What an operation may do to a process before it enters the scheduler. -/
inductive Passed (a a' : Kernel Lists) (p : PcbPtr) : Prop
  | /-- Nothing that concerns scheduling. -/
    same (hstate : (a'.pcb p).state = (a.pcb p).state)
      (hwait : (a'.pcb p).pidToWait = (a.pcb p).pidToWait)
      (hmem : (∃ q, p ∈ a'.queues q) ↔ ∃ q, p ∈ a.queues q)
  | /-- A waiting process is made ready. -/
    woken (hwaiting : (a.pcb p).state.IsWaiting) (hstate : (a'.pcb p).state = .ready)
      (hmem : ∃ q, p ∈ a'.queues q)
  | /-- The running process blocks or terminates. -/
    left (hcur : p = a.currentProcess) (hrun : (a.pcb p).state = .running) (hleft : Left a a' p)

/-- What an operation may do before it enters the scheduler. -/
structure Passage (a a' : Kernel Lists) : Prop where
  known : ∀ {p}, a.Known p → a'.Known p
  current : a'.currentProcess = a.currentProcess
  pid : ∀ {p}, a.Known p → (a'.pcb p).pid = (a.pcb p).pid
  passed : ∀ {p}, a.Known p → p ≠ .initProcess → Passed a a' p
  signals : ∀ {p s}, a.Known p → s < 32 → (a.pcb p).hasSignal s → (a'.pcb p).hasSignal s
  fresh : ∀ {p}, ¬ a.Known p → a'.Known p → (a'.pcb p).state = .ready

theorem Quiet.passage {a a' : Kernel Lists} (h : Quiet a a') : Passage a a' where
  known hp := (Globals.known_of_frozen h.frozen _).mpr hp
  current := h.current
  pid _ := Globals.field_of_frozen h.frozen PCB.pid (fun _ ↦ rfl) _
  passed _ _ := .same (h.state _) (Globals.field_of_frozen h.frozen PCB.pidToWait (fun _ ↦ rfl) _)
    (h.mem _)
  signals _ _ hs := by simpa only [PCB.hasSignal, h.signals] using hs
  fresh hp hp' := absurd ((Globals.known_of_frozen h.frozen _).mp hp') hp

/-- Bookkeeping does not change how a process has given up the processor. -/
theorem Left.trans_quiet {a a' a'' : Kernel Lists} {p : PcbPtr} (h : Left a a' p)
    (h' : Quiet a' a'') : Left a a'' p := by
  have hwait : ∀ x, (a''.pcb x).pidToWait = (a'.pcb x).pidToWait :=
    Globals.field_of_frozen h'.frozen PCB.pidToWait fun _ ↦ rfl
  cases h with
  | blocks hwaiting hother => exact .blocks (by rwa [h'.state]) (by rwa [h'.state])
  | awaits hstate z hz hpid halive =>
      exact .awaits (by rwa [h'.state]) z hz (by rwa [hwait]) halive
  | exits hstate hwoken =>
      refine .exits (by rwa [h'.state]) fun {x} hx hw ↦ ?_
      obtain ⟨hready, hpid, hq⟩ := hwoken hx hw
      exact ⟨by rwa [h'.state], by rwa [hwait], (h'.mem x).mpr hq⟩

/-- A passage followed by bookkeeping is a passage. -/
theorem Passage.trans_quiet {a a' a'' : Kernel Lists} (h : Passage a a') (h' : Quiet a' a'') :
    Passage a a'' where
  known hp := h'.passage.known (h.known hp)
  current := h'.current.trans h.current
  pid hp := (h'.passage.pid (h.known hp)).trans (h.pid hp)
  passed {p} hp hinit := by
    have hwait := Globals.field_of_frozen h'.frozen PCB.pidToWait (fun _ ↦ rfl) p
    cases h.passed hp hinit with
    | same h₁ h₂ h₃ =>
        exact .same ((h'.state p).trans h₁) (hwait.trans h₂) ((h'.mem p).trans h₃)
    | woken h₁ h₂ h₃ => exact .woken h₁ ((h'.state p).trans h₂) ((h'.mem p).mpr h₃)
    | left h₁ h₂ h₃ => exact .left h₁ h₂ (h₃.trans_quiet h')
  signals hp hs hb := h'.passage.signals (h.known hp) hs (h.signals hp hs hb)
  fresh {p} hp hp' := by
    rw [h'.state p]
    exact h.fresh hp ((Globals.known_of_frozen h'.frozen p).mp hp')

/-! ## Ending the burst -/

theorem endBurst_quiet (a : Kernel Lists) : Quiet a (a.mapGlobals (·.endBurst)) := by
  by_cases h : a.currentProcess ≠ .initProcess ∧ a.current.state ≠ .running ∧
      a.current.state ≠ .ready
  · have hend := Quiet.modifyPcb a a.currentProcess (f := fun b ↦
      { b with estBurst := (b.burstTicks + b.estBurst).tdiv 2, burstTicks := 0 })
      (fun _ ↦ rfl) (fun _ ↦ rfl) (fun _ ↦ rfl) fun _ ↦ rfl
    rw [Kernel.mapGlobals, Globals.endBurst]
    simp only [if_pos h]
    exact hend.trans (Quiet.setCounter _ a.currentProcess 0)
  · rw [Kernel.mapGlobals, Globals.endBurst]
    simp only [if_neg h]
    exact Quiet.setCounter a a.currentProcess 0

theorem endBurst_queueLevel (g : Globals) : g.endBurst.queueLevel = g.queueLevel := by
  unfold Globals.endBurst
  dsimp only
  split_ifs <;> rfl

theorem endBurst_inv {a : Kernel Lists} (ha : Inv a) : Inv (a.mapGlobals (·.endBurst)) :=
  (endBurst_quiet a).inv_mapGlobals ha (endBurst_queueLevel _)

/-! ## Operations that do not touch a queue -/

/-- Code that keeps the table, the states and what is waited for, and loses no signal. -/
theorem passage_mapGlobals {a : Kernel Lists} {f : Globals → Globals}
    (hproc : (f a.toGlobals).processes = a.processes)
    (hcur : (f a.toGlobals).currentProcess = a.currentProcess)
    (hpid : ∀ p, ((f a.toGlobals).pcb p).pid = (a.pcb p).pid)
    (hstate : ∀ p, ((f a.toGlobals).pcb p).state = (a.pcb p).state)
    (hwait : ∀ p, ((f a.toGlobals).pcb p).pidToWait = (a.pcb p).pidToWait)
    (hsig : ∀ p s, s < 32 → (a.pcb p).hasSignal s → ((f a.toGlobals).pcb p).hasSignal s) :
    Passage a (a.mapGlobals f) := by
  have hknown : ∀ p, (a.mapGlobals f).Known p ↔ a.Known p := fun p ↦ by
    simp only [Globals.Known, Kernel.mapGlobals_toGlobals, hproc]
  exact ⟨(hknown _).mpr, hcur, fun _ ↦ hpid _, fun _ _ ↦ .same (hstate _) (hwait _) Iff.rfl,
    fun _ hs ↦ hsig _ _ hs, fun hp hp' ↦ absurd ((hknown _).mp hp') hp⟩

theorem settled_of_state {g g' : Globals} (h : Settled g)
    (hcur : g'.currentProcess = g.currentProcess)
    (hstate : ∀ p, (g'.pcb p).state = (g.pcb p).state) : Settled g' := by
  intro hinit
  rw [Globals.current, hcur, hstate]
  exact h (hcur ▸ hinit)

theorem table_mapGlobals {g g' : Globals} (h : g.Table) (hproc : g'.processes = g.processes)
    (hn : g'.nProcesses = g.nProcesses) (hpid : ∀ p, (g'.pcb p).pid = (g.pcb p).pid) :
    g'.Table := by
  refine ⟨fun hi ↦ ?_, fun hi ↦ ?_, ?_, ?_⟩
  · rw [hn, hpid]
    exact h.slot (hproc ▸ hi)
  · rw [hproc]
    exact h.filled (hn ▸ hi)
  · rw [hproc]
    exact h.init
  · rw [hn]
    exact h.bound

/-- An operation that changes no state and no queue. -/
structure Local (a a' : Kernel Lists) : Prop where
  inv : Inv a'
  settled : Settled a.toGlobals → Settled a'.toGlobals
  passage : Passage a a'

section

variable {a : Kernel Lists} (ha : Inv a)
include ha

theorem sendSignal_entry (p : PcbPtr) (signalFlag : Int) :
    Local a (a.mapGlobals (·.sendSignal p signalFlag)) := by
  have hfield : ∀ {α : Type} (π : PCB → α), (∀ b : PCB, π (b.raiseSignal signalFlag) = π b) →
      ∀ x, π ((a.toGlobals.sendSignal p signalFlag).pcb x) = π (a.pcb x) := fun π hπ x ↦
    a.toGlobals.modifyPcb_field p x _ π hπ
  have hfrozen : (a.toGlobals.sendSignal p signalFlag).frozen = a.frozen :=
    a.toGlobals.frozen_modifyPcb p fun _ ↦ rfl
  refine ⟨ha.mapGlobals_of_frozen hfrozen rfl (hfield PCB.state fun _ ↦ rfl) ha.level,
    fun hs ↦ settled_of_state hs rfl (hfield PCB.state fun _ ↦ rfl), passage_mapGlobals rfl rfl
      (hfield PCB.pid fun _ ↦ rfl) (hfield PCB.state fun _ ↦ rfl)
      (hfield PCB.pidToWait fun _ ↦ rfl) fun x s hs hb ↦ ?_⟩
  by_cases hx : x = p
  · subst hx
    rw [Globals.sendSignal, Globals.modifyPcb_pcb_self, PCB.hasSignal_raiseSignal _ hs]
    exact .inl hb
  · rwa [Globals.sendSignal, Globals.modifyPcb_pcb_of_ne _ _ hx]

theorem syscallSendSignal_entry (pid signalFlag : Int) :
    Local a (a.mapGlobals fun g ↦ (g.syscallSendSignal pid signalFlag).2) := by
  unfold Globals.syscallSendSignal
  cases hp : a.searchProcess pid with
  | none =>
      rw [Kernel.mapGlobals, hp]
      exact ⟨ha, id, (Quiet.refl a).passage⟩
  | some p =>
      rw [Kernel.mapGlobals, hp]
      exact sendSignal_entry ha p signalFlag

end

/-- What `sched_set_param` writes: static parameters, and a level that exists. -/
theorem schedSetParam_cases (g : Globals) (p : PcbPtr) (param value : Int) :
    (g.schedSetParam p param value).2 = g ∨
    (∃ f : PCB → PCB, (g.schedSetParam p param value).2 = g.modifyPcb p f ∧
      ((∃ v, 1 ≤ v ∧ f = fun b ↦ { b with priority := v }) ∨
        ∃ v, f = fun b ↦ { b with tickets := v })) ∨
    (∃ v : Int, 0 ≤ v ∧ v < ML_MAX_LEVELS ∧
      (g.schedSetParam p param value).2 = g.setQueuePriority p v) := by
  unfold Globals.schedSetParam
  split_ifs with h₁ h₂ h₃ h₄ h₅ h₆ h₇
  · exact .inl rfl
  · exact .inl rfl
  · exact .inr (.inl ⟨_, rfl, .inl ⟨value, by omega, rfl⟩⟩)
  · exact .inl rfl
  · exact .inr (.inl ⟨_, rfl, .inr ⟨value, rfl⟩⟩)
  · exact .inl rfl
  · refine .inr (.inr ⟨_, ?_, ?_, rfl⟩)
    · unfold Globals.clampLevel Globals.algorithm
      cases g.activeAlgorithm <;> simp [Algorithm.descriptor, mlPolicyMlq, mlPolicyMlfq] <;> omega
    · unfold Globals.clampLevel Globals.algorithm
      cases g.activeAlgorithm <;>
        simp [Algorithm.descriptor, mlPolicyMlq, mlPolicyMlfq, ML_MAX_LEVELS] at * <;> omega
  · exact .inl rfl

/-- A field that neither `preempt_disable` nor the new priority concerns. -/
theorem setQueuePriority_field {α : Type} (g : Globals) (p : PcbPtr) (v : Int) (π : PCB → α)
    (hpre : ∀ (b : PCB) (n : Int), π { b with preemptDisabled := n } = π b)
    (hprio : ∀ (b : PCB) (n : Int), π { b with queuePriority := n } = π b) (x : PcbPtr) :
    π ((g.setQueuePriority p v).pcb x) = π (g.pcb x) := by
  unfold Globals.setQueuePriority Globals.preemptEnable Globals.preemptDisable
  simp only [Globals.modifyPcb_field _ _ _ _ π fun b ↦ hpre b _]
  calc π (((g.modifyPcb g.currentProcess _).modifyPcb p _).pcb x)
      = π ((g.modifyPcb g.currentProcess _).pcb x) :=
        Globals.modifyPcb_field _ _ _ _ π fun b ↦ hprio b _
    _ = π (g.pcb x) := Globals.modifyPcb_field _ _ _ _ π fun b ↦ hpre b _

section

variable {a : Kernel Lists} (ha : Inv a)
include ha

theorem schedSetParam_entry (p : PcbPtr) (param value : Int) :
    Local a (a.mapGlobals fun g ↦ (g.schedSetParam p param value).2) := by
  rw [Kernel.mapGlobals]
  obtain h | ⟨f, h, hf⟩ | ⟨v, hv0, hv, h⟩ := schedSetParam_cases a.toGlobals p param value
  · rw [h]
    exact ⟨ha, id, (Quiet.refl a).passage⟩
  · rw [h]
    have hfield : ∀ {α : Type} (π : PCB → α),
        (∀ (b : PCB) (v : Int), π { b with priority := v } = π b) →
        (∀ (b : PCB) (v : Int), π { b with tickets := v } = π b) →
        ∀ x, π ((a.toGlobals.modifyPcb p f).pcb x) = π (a.pcb x) := by
      intro α π hπ hπ' x
      refine a.toGlobals.modifyPcb_field p x f π fun b ↦ ?_
      obtain ⟨v, -, rfl⟩ | ⟨v, rfl⟩ := hf
      · exact hπ b v
      · exact hπ' b v
    have hprio : ∀ x, a.Known x → 1 ≤ ((a.toGlobals.modifyPcb p f).pcb x).priority := by
      intro x hx
      by_cases hxp : x = p
      · subst hxp
        rw [Globals.modifyPcb_pcb_self]
        obtain ⟨v, hv, rfl⟩ | ⟨v, rfl⟩ := hf
        · exact hv
        · exact ha.priority x hx
      · rw [Globals.modifyPcb_pcb_of_ne _ _ hxp]
        exact ha.priority x hx
    have hstate := hfield PCB.state (fun _ _ ↦ rfl) fun _ _ ↦ rfl
    have hpid := hfield PCB.pid (fun _ _ ↦ rfl) fun _ _ ↦ rfl
    refine ⟨ha.mapGlobals (f := (·.modifyPcb p f)) (table_mapGlobals ha.table rfl rfl hpid)
      (fun _ ↦ Iff.rfl) hprio rfl (fun x _ _ ↦ .inl (hstate x)) ha.level (hstate _),
      fun hs ↦ settled_of_state hs rfl hstate, passage_mapGlobals (f := (·.modifyPcb p f)) rfl rfl
        hpid hstate
        (hfield PCB.pidToWait (fun _ _ ↦ rfl) fun _ _ ↦ rfl) fun x s _ hb ↦ ?_⟩
    rw [PCB.hasSignal, hfield PCB.pendingSignals (fun _ _ ↦ rfl) fun _ _ ↦ rfl]
    exact hb
  · rw [h]
    have hfield : ∀ {α : Type} (π : PCB → α), (∀ (b : PCB) (n : Int),
        π { b with preemptDisabled := n } = π b) → (∀ (b : PCB) (n : Int),
        π { b with queuePriority := n } = π b) → ∀ x,
        π ((a.toGlobals.setQueuePriority p v).pcb x) = π (a.pcb x) := fun π hπ hπ' x ↦
      setQueuePriority_field _ p v π hπ hπ' x
    have hstate := hfield PCB.state (fun _ _ ↦ rfl) fun _ _ ↦ rfl
    have hpid := hfield PCB.pid (fun _ _ ↦ rfl) fun _ _ ↦ rfl
    have hlevel : ∀ i, (a.toGlobals.setQueuePriority p v).queueLevel i < ML_MAX_LEVELS := by
      intro i
      unfold Globals.setQueuePriority Globals.preemptEnable Globals.preemptDisable
      simp only [Globals.modifyPcb_queueLevel, Function.update_apply]
      split_ifs
      · omega
      · exact ha.level i
    refine ⟨ha.mapGlobals (f := (·.setQueuePriority p v)) (table_mapGlobals ha.table rfl rfl hpid)
      (fun _ ↦ Iff.rfl) (fun x hx ↦ ?_) rfl (fun x _ _ ↦ .inl (hstate x)) hlevel (hstate _),
      fun hs ↦ settled_of_state hs rfl hstate, passage_mapGlobals (f := (·.setQueuePriority p v))
        rfl rfl hpid hstate
        (hfield PCB.pidToWait (fun _ _ ↦ rfl) fun _ _ ↦ rfl) fun x s _ hb ↦ ?_⟩
    · rw [hfield PCB.priority (fun _ _ ↦ rfl) fun _ _ ↦ rfl]
      exact ha.priority x hx
    · rw [PCB.hasSignal, hfield PCB.pendingSignals (fun _ _ ↦ rfl) fun _ _ ↦ rfl]
      exact hb

theorem syscallSetSchedParam_entry (pid param value : Int) :
    Local a (a.mapGlobals fun g ↦ (g.syscallSetSchedParam pid param value).2) := by
  unfold Globals.syscallSetSchedParam
  cases hp : a.searchProcess pid with
  | none =>
      rw [Kernel.mapGlobals, hp]
      exact ⟨ha, id, (Quiet.refl a).passage⟩
  | some p =>
      rw [Kernel.mapGlobals, hp]
      exact schedSetParam_entry ha p param value

/-- The running process blocks. -/
theorem leave_entry (hsettled : Settled a.toGlobals) (hinit : a.currentProcess ≠ .initProcess)
    {f : PCB → PCB} {s : ProcessState} (hs : s.IsWaiting) (hstate : ∀ b, (f b).state = s)
    (hpid : ∀ b, (f b).pid = b.pid) (hprio : ∀ b, (f b).priority = b.priority)
    (hsig : ∀ b, (f b).pendingSignals = b.pendingSignals)
    (hleft : Left a (a.mapGlobals fun g ↦ g.modifyPcb g.currentProcess f) a.currentProcess) :
    Inv (a.mapGlobals fun g ↦ g.modifyPcb g.currentProcess f) ∧
      Passage a (a.mapGlobals fun g ↦ g.modifyPcb g.currentProcess f) := by
  have hfield : ∀ {α : Type} (π : PCB → α), (∀ b, π (f b) = π b) → ∀ x,
      π ((a.toGlobals.modifyPcb a.currentProcess f).pcb x) = π (a.pcb x) := fun π hπ x ↦
    a.toGlobals.modifyPcb_field a.currentProcess x f π hπ
  have hother : ∀ x, x ≠ a.currentProcess →
      (a.toGlobals.modifyPcb a.currentProcess f).pcb x = a.pcb x := fun x hx ↦
    Globals.modifyPcb_pcb_of_ne _ _ hx
  have hself : ((a.toGlobals.modifyPcb a.currentProcess f).pcb a.currentProcess).state = s := by
    rw [Globals.modifyPcb_pcb_self, hstate]
  have hne : s ≠ .ready ∧ s ≠ .running := by
    constructor <;> rintro rfl <;> exact hs
  refine ⟨ha.mapGlobals (table_mapGlobals ha.table rfl rfl (hfield PCB.pid hpid))
    (fun _ ↦ Iff.rfl) (fun x hx ↦ ?_) rfl (fun x _ _ ↦ ?_) ha.level
    (by rw [hother _ (Ne.symm hinit)]), ?_⟩
  · rw [hfield PCB.priority hprio]
    exact ha.priority x hx
  · by_cases hx : x = a.currentProcess
    · subst hx
      exact .inr ⟨rfl, by rw [hself]; exact hne.1, by rw [hself]; exact hne.2⟩
    · exact .inl (by rw [hother x hx])
  · refine ⟨fun hp ↦ hp, rfl, fun _ ↦ hfield PCB.pid hpid _, fun {x} _ _ ↦ ?_,
      fun {x s'} _ _ hb ↦ ?_, fun hp hp' ↦ absurd hp' hp⟩
    · by_cases hx : x = a.currentProcess
      · subst hx
        exact .left rfl (hsettled hinit) hleft
      · exact .same (by rw [Kernel.mapGlobals_toGlobals, hother x hx])
          (by rw [Kernel.mapGlobals_toGlobals, hother x hx]) Iff.rfl
    · rw [PCB.hasSignal, Kernel.mapGlobals_toGlobals, hfield PCB.pendingSignals hsig]
      exact hb

end

/-! ## Operations on the queues -/

/-- `exit_process` up to the call of `schedule`: the caller is a zombie, and whoever
waited for it is ready. -/
structure Terminated (a a' : Kernel Lists) : Prop where
  current : a'.currentProcess = a.currentProcess
  processes : a'.processes = a.processes
  field : ∀ {α : Type} (π : PCB → α), (∀ (b : PCB) (s : ProcessState) (w n : Int),
    π { b with state := s, pidToWait := w, preemptDisabled := n } = π b) →
    ∀ p, π (a'.pcb p) = π (a.pcb p)
  zombie : (a'.pcb a.currentProcess).state = .zombie
  woken : ∀ {p}, a.Known p → a.WaitsFor p a.current.pid →
    (a'.pcb p).state = .ready ∧ (a'.pcb p).pidToWait = -1 ∧ ∃ q, p ∈ a'.queues q
  other : ∀ {p}, p ≠ a.currentProcess → ¬ (a.Known p ∧ a.WaitsFor p a.current.pid) →
    (a'.pcb p).state = (a.pcb p).state ∧ (a'.pcb p).pidToWait = (a.pcb p).pidToWait ∧
      ((∃ q, p ∈ a'.queues q) ↔ ∃ q, p ∈ a.queues q)

theorem Sim.terminate {k : Kernel Pointers} {a : Kernel Lists} (h : Sim k a) (ha : Inv a)
    (hsettled : Settled a.toGlobals) (hinit : a.currentProcess ≠ .initProcess) :
    ∃ k', k.terminate = some k' ∧ Sim k' (Spec.terminate a) ∧ Inv (Spec.terminate a) ∧
      Terminated a (Spec.terminate a) := by
  have hrun := hsettled hinit
  -- the caller is marked
  let a₀ := a.mapGlobals fun g ↦ (g.preemptDisable).setState g.currentProcess .zombie
  have hfield₀ : ∀ {α : Type} (π : PCB → α),
      (∀ (b : PCB) (n : Int), π { b with preemptDisabled := n } = π b) →
      (∀ (b : PCB) (s : ProcessState), π { b with state := s } = π b) →
      ∀ x, π (a₀.pcb x) = π (a.pcb x) := fun π hπ hπ' x ↦
    (Globals.setState_field _ _ _ π hπ' x).trans (Spec.preemptDisable_field _ π hπ x)
  have hother₀ : ∀ x, x ≠ a.currentProcess → a₀.pcb x = a.pcb x := by
    intro x hx
    simp [a₀, Globals.setState, Globals.preemptDisable, hx]
  have hself₀ : (a₀.pcb a.currentProcess).state = .zombie := by
    simp [a₀, Globals.setState]
  have hpid₀ : a₀.current.pid = a.current.pid :=
    hfield₀ PCB.pid (fun _ _ ↦ rfl) (fun _ _ ↦ rfl) a.currentProcess
  have ha₀ : Inv a₀ := by
    refine ha.mapGlobals (table_mapGlobals ha.table rfl rfl
      (hfield₀ PCB.pid (fun _ _ ↦ rfl) fun _ _ ↦ rfl)) (fun _ ↦ Iff.rfl) (fun x hx ↦ ?_) rfl
      (fun x _ _ ↦ ?_) ha.level (congrArg PCB.state (hother₀ _ (Ne.symm hinit)))
    · exact (hfield₀ PCB.priority (fun _ _ ↦ rfl) (fun _ _ ↦ rfl) x).symm ▸ ha.priority x hx
    · by_cases hx : x = a.currentProcess
      · subst hx
        exact .inr ⟨rfl, by simp [Globals.setState], by simp [Globals.setState]⟩
      · exact .inl (congrArg PCB.state (hother₀ x hx))
  have hnot : ¬ a₀.WaitsFor a₀.currentProcess a₀.current.pid := by
    rintro ⟨hs, -⟩
    rw [show a₀.currentProcess = a.currentProcess from rfl, hself₀] at hs
    simp at hs
  -- the waiters are woken
  obtain ⟨k₁, hk₁, h₁, ha₁, hawk⟩ := (h.mapGlobals fun g ↦
    (g.preemptDisable).setState g.currentProcess .zombie).wakeWaiters ha₀ hnot
      (List.range N_PROCESSES)
  have hterm : Spec.terminate a =
      ((List.range N_PROCESSES).foldl Spec.wakeWaiter a₀).mapGlobals (·.preemptEnable) := rfl
  rw [hterm]
  generalize (List.range N_PROCESSES).foldl Spec.wakeWaiter a₀ = a₁ at h₁ ha₁ hawk ⊢
  have hquiet : ∀ {α : Type} (π : PCB → α),
      (∀ (b : PCB) (n : Int), π { b with preemptDisabled := n } = π b) →
      ∀ x, π ((a₁.mapGlobals (·.preemptEnable)).pcb x) = π (a₁.pcb x) := fun π hπ x ↦
    a₁.toGlobals.modifyPcb_field _ x _ π fun b ↦ hπ b _
  have hslot : ∀ {p}, a.Known p → ∃ i ∈ List.range N_PROCESSES, a₀.processes i = some p := by
    rintro p ⟨i, hi⟩
    exact ⟨i, List.mem_range.mpr ((ha.table.slot hi).1.trans_le ha.table.bound), hi⟩
  have hcurpcb := (hawk.other fun hc ↦ hnot hc.2).1
  refine ⟨_, by simp only [Kernel.terminate, hk₁, Option.bind_eq_bind, Option.bind_some],
    h₁.mapGlobals (·.preemptEnable), ?_, ?_, ?_, ?_, ?_, ?_, ?_⟩
  · exact ha₁.mapGlobals_of_frozen (Globals.frozen_preemptEnable _) rfl
      (hquiet PCB.state fun _ _ ↦ rfl) ha₁.level
  · exact hawk.currentProcess
  · exact hawk.processes
  · intro α π hπ p
    rw [hquiet π fun b n ↦ hπ b b.state b.pidToWait n]
    have hbase := hfield₀ π (fun b n ↦ hπ b b.state b.pidToWait n)
      (fun b s ↦ hπ b s b.pidToWait b.preemptDisabled) p
    by_cases hw : (∃ i ∈ List.range N_PROCESSES, a₀.processes i = some p) ∧
        a₀.WaitsFor p a₀.current.pid
    · rw [(hawk.woken hw.1 hw.2).1]
      exact (hπ _ _ _ _).trans hbase
    · rw [(hawk.other hw).1, hbase]
  · rw [hquiet PCB.state fun _ _ ↦ rfl]
    exact (congrArg PCB.state hcurpcb).trans hself₀
  · intro p hp hw
    have hpc : p ≠ a.currentProcess := by
      rintro rfl
      have hs := hw.1.symm.trans hrun
      simp at hs
    have hw₀ : a₀.WaitsFor p a₀.current.pid := by
      rw [hpid₀, Globals.WaitsFor, hother₀ p hpc]
      exact hw
    obtain ⟨hpcb, hq⟩ := hawk.woken (hslot hp) hw₀
    refine ⟨?_, ?_, hq⟩
    · rw [hquiet PCB.state fun _ _ ↦ rfl, hpcb]
    · rw [hquiet PCB.pidToWait fun _ _ ↦ rfl, hpcb]
  · intro p hpc hp
    have hnw : ¬ ((∃ i ∈ List.range N_PROCESSES, a₀.processes i = some p) ∧
        a₀.WaitsFor p a₀.current.pid) := by
      rintro ⟨⟨i, -, hi⟩, hw⟩
      rw [hpid₀, Globals.WaitsFor, hother₀ p hpc] at hw
      exact hp ⟨⟨i, hi⟩, hw⟩
    obtain ⟨hpcb, hq⟩ := hawk.other hnw
    refine ⟨?_, ?_, hq⟩
    · rw [hquiet PCB.state fun _ _ ↦ rfl, hpcb, hother₀ p hpc]
    · rw [hquiet PCB.pidToWait fun _ _ ↦ rfl, hpcb, hother₀ p hpc]

theorem Terminated.passage {a a' : Kernel Lists} (h : Terminated a a')
    (hrun : a.current.state = .running) : Passage a a' := by
  have hknown : ∀ p, a'.Known p ↔ a.Known p := fun p ↦ by simp only [Globals.Known, h.processes]
  refine ⟨(hknown _).mpr, h.current, fun _ ↦ h.field PCB.pid (fun _ _ _ _ ↦ rfl) _,
    fun {p} hp hinit ↦ ?_, fun {p s} _ _ hb ↦ ?_, fun hp hp' ↦ absurd ((hknown _).mp hp') hp⟩
  · by_cases hpc : p = a.currentProcess
    · subst hpc
      exact .left rfl hrun (.exits h.zombie h.woken)
    · by_cases hw : a.Known p ∧ a.WaitsFor p a.current.pid
      · obtain ⟨hready, -, hq⟩ := h.woken hp hw.2
        exact .woken (by rw [hw.2.1]; trivial) hready hq
      · obtain ⟨hstate, hwait, hq⟩ := h.other hpc hw
        exact .same hstate hwait hq
  · rw [PCB.hasSignal, h.field PCB.pendingSignals fun _ _ _ _ ↦ rfl]
    exact hb

/-- Waking a process, in the kernel and on lists. -/
theorem Sim.wake_entry {k : Kernel Pointers} {a : Kernel Lists} (h : Sim k a) (ha : Inv a)
    (hsettled : Settled a.toGlobals) {p : PcbPtr} (hp : a.Known p) (hinit : p ≠ .initProcess)
    (hwaiting : (a.pcb p).state.IsWaiting) :
    ∃ k' a', (k.mapGlobals (·.setState p .ready)).enqueueProcess p = some k' ∧ Sim k' a' ∧
      Inv a' ∧ Settled a'.toGlobals ∧ Passage a a' := by
  have hpc : p ≠ a.currentProcess := by
    rintro rfl
    have hrun := hsettled hinit
    rw [Globals.current] at hrun
    rw [hrun] at hwaiting
    exact hwaiting
  have hstate : (a.pcb p).state ≠ .ready := by
    intro hr
    rw [hr] at hwaiting
    exact hwaiting
  have hfree : ∀ q, p ∉ a.queues q := fun q hq ↦ hstate (ha.ready q p hq)
  obtain ⟨k', hk', h'⟩ := (h.mapGlobals (·.setState p .ready)).enqueueProcess (p := p)
    (fun _ ↦ hfree) ha.length_le
  have hother : ∀ x, x ≠ p →
      (Spec.enqueue p (a.mapGlobals (·.setState p .ready))).pcb x = a.pcb x := by
    intro x hx
    rw [Spec.enqueue_pcb hinit]
    simp [Globals.setState, hx]
  have hfield : ∀ {α : Type} (π : PCB → α),
      (∀ (b : PCB) (s : ProcessState), π { b with state := s } = π b) → ∀ x,
      π ((Spec.enqueue p (a.mapGlobals (·.setState p .ready))).pcb x) = π (a.pcb x) := by
    intro α π hπ x
    rw [Spec.enqueue_pcb hinit, Globals.setState_field _ _ _ π hπ]
    exact Globals.setState_field _ _ _ π hπ x
  have hproc : (Spec.enqueue p (a.mapGlobals (·.setState p .ready))).processes = a.processes := by
    rw [Spec.enqueue_data]
    rfl
  have hcur : (Spec.enqueue p (a.mapGlobals (·.setState p .ready))).currentProcess =
      a.currentProcess := Spec.enqueue_currentProcess ..
  have hknown : ∀ x, (Spec.enqueue p (a.mapGlobals (·.setState p .ready))).Known x ↔
      a.Known x := fun x ↦ by simp only [Globals.Known, hproc]
  refine ⟨k', _, hk', h', ha.wake hp hinit hpc hstate (fun _ ↦ rfl) fun _ ↦ rfl, ?_,
    (hknown _).mpr, hcur, fun _ ↦ hfield PCB.pid (fun _ _ ↦ rfl) _, fun {x} hx hxi ↦ ?_,
    fun {x s} _ _ hb ↦ ?_, fun hx hx' ↦ absurd ((hknown _).mp hx') hx⟩
  · intro hci
    rw [hcur] at hci
    rw [Globals.current, hcur, hother _ (Ne.symm hpc)]
    exact hsettled hci
  · by_cases hxp : x = p
    · subst hxp
      refine .woken hwaiting ?_ ⟨_, (Spec.mem_enqueue hinit).mpr (.inr ⟨rfl, rfl⟩)⟩
      rw [Spec.enqueue_pcb hinit]
      simp [Globals.setState]
    · refine .same (by rw [hother x hxp]) (by rw [hother x hxp]) ?_
      simp [Spec.mem_enqueue hinit, hxp]
  · rw [PCB.hasSignal, hfield PCB.pendingSignals fun _ _ ↦ rfl]
    exact hb

theorem startLevel_lt (g : Globals) (queuePriority : Int) :
    (g.startLevel queuePriority).toNat < ML_MAX_LEVELS := by
  unfold Globals.startLevel Globals.clampLevel Globals.algorithm
  cases g.activeAlgorithm <;>
    simp only [Algorithm.descriptor, mlPolicyMlq, mlPolicyMlfq, ML_MAX_LEVELS] <;>
    split_ifs <;> omega

/-- The kernel with a new process in the table that is not ready yet. -/
def admitted (a : Kernel Lists) (p : PcbPtr) (b : PCB) : Kernel Lists where
  toGlobals := { a.toGlobals with
    pcb := Function.update a.pcb p { b with state := .stopped }
    processes := Function.update a.processes a.nProcesses (some p)
    queueLevel := Function.update a.queueLevel a.nProcesses
      (a.startLevel b.queuePriority).toNat
    nProcesses := a.nProcesses + 1 }
  queues := a.queues

theorem admitted_known {a : Kernel Lists} (ha : Inv a) {p x : PcbPtr} {b : PCB}
    (hp : ¬ a.Known p) : (admitted a p b).Known x ↔ x = p ∨ a.Known x := by
  constructor
  · rintro ⟨i, hi⟩
    by_cases hin : i = a.nProcesses
    · subst hin
      left
      simpa [admitted, eq_comm] using hi
    · right
      exact ⟨i, by simpa [admitted, hin] using hi⟩
  · rintro (rfl | ⟨i, hi⟩)
    · exact ⟨a.nProcesses, by simp [admitted]⟩
    · have hin : i ≠ a.nProcesses := Nat.ne_of_lt (ha.table.slot hi).1
      exact ⟨i, by simpa [admitted, hin] using hi⟩

theorem admitted_inv {a : Kernel Lists} (ha : Inv a) {p : PcbPtr} {b : PCB} (hp : ¬ a.Known p)
    (hpid : b.pid = a.nProcesses) (hprio : 1 ≤ b.priority) (hroom : a.nProcesses < N_PROCESSES) :
    Inv (admitted a p b) := by
  have hpcb : ∀ {x}, a.Known x → (admitted a p b).pcb x = a.pcb x := by
    intro x hx
    have hne : x ≠ p := fun e ↦ hp (e ▸ hx)
    exact Function.update_of_ne hne ..
  have hself : (admitted a p b).pcb p = { b with state := .stopped } := Function.update_self ..
  have hknown : ∀ {x}, (admitted a p b).Known x ↔ x = p ∨ a.Known x := admitted_known ha hp
  refine ⟨ha.toTidy.congr (fun _ ↦ List.Sublist.refl _) fun q x hx ↦ ?_,
    ⟨fun {i x} hi ↦ ?_, fun {i} hi ↦ ?_, ?_, hroom⟩, fun q x hx ↦
      hknown.mpr (.inr (ha.known q x hx)),
    fun x hx ↦ ?priority, fun x hx hinit hready ↦ ?queued, fun x hx hinit hrun ↦ ?running,
    hknown.mpr (.inr ha.current), fun hinit ↦ ?currentState, fun i ↦ ?level, ha.queueExists,
    by rw [hpcb ⟨0, ha.table.init⟩]; exact ha.initState⟩
  · exact congrArg PCB.state (hpcb (ha.known q x hx))
  · by_cases hin : i = a.nProcesses
    · subst hin
      obtain rfl : p = x := by simpa [admitted] using hi
      rw [hself]
      exact ⟨Nat.lt_succ_self _, hpid⟩
    · have hi' : a.processes i = some x := by simpa [admitted, hin] using hi
      rw [hpcb ⟨i, hi'⟩]
      exact ⟨Nat.lt_succ_of_lt (ha.table.slot hi').1, (ha.table.slot hi').2⟩
  · by_cases hin : i = a.nProcesses
    · exact ⟨p, by simp [admitted, hin]⟩
    · obtain ⟨x, hx⟩ := ha.table.filled (i := i) (by simp only [admitted] at hi; omega)
      exact ⟨x, by simpa [admitted, hin] using hx⟩
  · have hpos := (ha.table.slot ha.table.init).1
    have hne : (0 : Nat) ≠ a.nProcesses := Nat.ne_of_lt hpos
    simpa [admitted, hne] using ha.table.init
  case priority =>
    rcases hknown.mp hx with rfl | hx
    · rw [hself]
      exact hprio
    · rw [hpcb hx]
      exact ha.priority x hx
  case queued =>
    rcases hknown.mp hx with rfl | hx
    · rw [hself] at hready
      simp at hready
    · rw [hpcb hx] at hready
      exact ha.queued x hx hinit hready
  case running =>
    rcases hknown.mp hx with rfl | hx
    · rw [hself] at hrun
      simp at hrun
    · rw [hpcb hx] at hrun
      exact ha.running x hx hinit hrun
  case currentState =>
    exact fun hr ↦ ha.currentState hinit ((congrArg PCB.state (hpcb ha.current)).symm.trans hr)
  case level =>
    simp only [admitted, Function.update_apply]
    split_ifs
    · exact startLevel_lt _ _
    · exact ha.level i

/-- Registering and then making ready is making ready what `admitted` describes. -/
theorem enqueue_admitted {a : Kernel Lists} {p : PcbPtr} {b : PCB} (hpid : b.pid = a.nProcesses)
    (hready : b.state = .ready) :
    Spec.enqueue p
        ((admitted a p b).mapGlobals (·.modifyPcb p fun b ↦ { b with state := .ready })) =
      (Spec.enqueue p ((a.mapGlobals (·.modifyPcb p fun _ ↦ b)).mapGlobals
        (·.register p))).mapGlobals fun g ↦ { g with nProcesses := g.nProcesses + 1 } := by
  have hcount : ∀ (g : Globals) (ls : Lists),
      Spec.enqueue p ⟨{ g with nProcesses := g.nProcesses + 1 }, ls⟩ =
        (Spec.enqueue p ⟨g, ls⟩).mapGlobals fun g ↦ { g with nProcesses := g.nProcesses + 1 } := by
    intro g ls
    unfold Spec.enqueue
    split_ifs <;> rfl
  have hb : { b with state := .ready } = b := by rw [← hready]
  have hglobals : (admitted a p b).toGlobals.modifyPcb p (fun b ↦ { b with state := .ready }) =
      { (a.toGlobals.modifyPcb p fun _ ↦ b).register p with nProcesses := a.nProcesses + 1 } := by
    unfold Globals.register
    simp only [Globals.modifyPcb_pcb_self, hpid]
    simp only [admitted, Globals.modifyPcb, Function.update_self, Function.update_idem, hb]
    rfl
  rw [Kernel.mapGlobals, hglobals]
  exact hcount ((a.toGlobals.modifyPcb p fun _ ↦ b).register p) a.queues

section

variable {a : Kernel Lists} {p : PcbPtr} {b : PCB} (hinit : p ≠ .initProcess) (hp : ¬ a.Known p)
include hinit hp

theorem admitted_pcb {x : PcbPtr} (hx : a.Known x) :
    (Spec.enqueue p ((admitted a p b).mapGlobals
      (·.modifyPcb p fun b ↦ { b with state := .ready }))).pcb x = a.pcb x := by
  have hne : x ≠ p := fun e ↦ hp (e ▸ hx)
  rw [Spec.enqueue_pcb hinit]
  simp [Globals.setState, hne, admitted]

theorem admitted_passage (ha : Inv a) : Passage a (Spec.enqueue p ((admitted a p b).mapGlobals
    (·.modifyPcb p fun b ↦ { b with state := .ready }))) := by
  have hpcb : ∀ {x}, a.Known x → _ = a.pcb x := fun hx ↦ admitted_pcb (b := b) hinit hp hx
  have hproc : (Spec.enqueue p ((admitted a p b).mapGlobals
      (·.modifyPcb p fun b ↦ { b with state := .ready }))).processes =
        (admitted a p b).processes := by
    rw [Spec.enqueue_data]
    rfl
  have hknown : ∀ {x}, (Spec.enqueue p ((admitted a p b).mapGlobals
      (·.modifyPcb p fun b ↦ { b with state := .ready }))).Known x ↔ x = p ∨ a.Known x := by
    intro x
    rw [← admitted_known (b := b) ha hp, Globals.Known, Globals.Known, hproc]
  refine ⟨fun hx ↦ hknown.mpr (.inr hx), Spec.enqueue_currentProcess .., fun hx ↦ by rw [hpcb hx],
    fun {x} hx _ ↦ .same (by rw [hpcb hx]) (by rw [hpcb hx]) ?_, fun hx _ hs ↦ by rwa [hpcb hx],
    fun {x} hx hx' ↦ ?_⟩
  · have hne : x ≠ p := fun e ↦ hp (e ▸ hx)
    simp [Spec.mem_enqueue hinit, hne, admitted]
  · obtain rfl := (hknown.mp hx').resolve_right hx
    rw [Spec.enqueue_pcb hinit]
    simp [Globals.setState]

end

/-- Registering a new process, in the kernel and on lists. -/
theorem Sim.add_entry {k : Kernel Pointers} {a : Kernel Lists} (h : Sim k a) (ha : Inv a)
    (hsettled : Settled a.toGlobals) {p : PcbPtr} {b : PCB} (hp : ¬ a.Known p)
    (hpid : b.pid = a.nProcesses) (hready : b.state = .ready) (hprio : 1 ≤ b.priority) :
    ∃ r k' a', (k.mapGlobals (·.modifyPcb p fun _ ↦ b)).addProcessToScheduler p = some (r, k') ∧
      Sim k' a' ∧ Inv a' ∧ Settled a'.toGlobals ∧ Passage a a' := by
  have hinit : p ≠ .initProcess := by
    rintro rfl
    exact hp ⟨0, ha.table.init⟩
  have hpc : p ≠ a.currentProcess := fun e ↦ hp (e ▸ ha.current)
  have hne : ∀ {x}, a.Known x → x ≠ p := fun hx e ↦ hp (e ▸ hx)
  have hfree : ∀ q, p ∉ a.queues q := fun q hq ↦ hp (ha.known q p hq)
  have h₁ := h.mapGlobals (·.modifyPcb p fun _ ↦ b)
  have hn : (k.mapGlobals (·.modifyPcb p fun _ ↦ b)).nProcesses = a.nProcesses := by
    rw [h₁.globals]
    rfl
  have hb : (k.mapGlobals (·.modifyPcb p fun _ ↦ b)).pcb p = b := by
    rw [h₁.globals]
    simp
  by_cases hfull : a.nProcesses ≥ N_PROCESSES
  · -- the table is full: the new control block is written, but nobody refers to it
    have hpcb : ∀ {x}, a.Known x → (a.mapGlobals (·.modifyPcb p fun _ ↦ b)).pcb x = a.pcb x := by
      intro x hx
      rw [Kernel.mapGlobals_toGlobals, Globals.modifyPcb_pcb_of_ne _ _ (hne hx)]
    refine ⟨-1, _, _, ?_, h₁, ?_, ?_, fun hx ↦ hx, rfl, fun hx ↦ by rw [hpcb hx],
      fun hx _ ↦ .same (by rw [hpcb hx]) (by rw [hpcb hx]) Iff.rfl,
      fun hx _ hs ↦ by rwa [hpcb hx], fun hx hx' ↦ absurd hx' hx⟩
    · unfold Kernel.addProcessToScheduler
      rw [if_pos (.inl (hn.symm ▸ hfull))]
    · refine ha.mapGlobals ⟨fun {i x} hi ↦ ?_, ha.table.filled, ha.table.init, ha.table.bound⟩
        (fun _ ↦ Iff.rfl) (fun x hx ↦ ?_) rfl (fun x hx _ ↦ .inl ?_) ha.level
        (by rw [Globals.modifyPcb_pcb_of_ne _ _ (Ne.symm hinit)])
      · rw [Globals.modifyPcb_pcb_of_ne _ _ (hne ⟨i, hi⟩)]
        exact ha.table.slot hi
      · rw [Globals.modifyPcb_pcb_of_ne _ _ (hne hx)]
        exact ha.priority x hx
      · rw [Globals.modifyPcb_pcb_of_ne _ _ (hne hx)]
    · intro hci
      exact (congrArg PCB.state (hpcb ha.current)).trans (hsettled hci)
  · -- the kernel registers the process, links it and counts it
    have h₂ := h₁.mapGlobals (·.register p)
    obtain ⟨k', hk', h'⟩ := h₂.enqueueProcess (p := p) (fun _ ↦ hfree) ha.length_le
    have hreg : ((k.mapGlobals (·.modifyPcb p fun _ ↦ b)).toGlobals.register p).pcb p = b := hb
    have hrun : (k.mapGlobals (·.modifyPcb p fun _ ↦ b)).addProcessToScheduler p =
        some (0, k'.mapGlobals fun g ↦ { g with nProcesses := g.nProcesses + 1 }) := by
      have hguard : ¬ ((k.mapGlobals (·.modifyPcb p fun _ ↦ b)).nProcesses ≥ N_PROCESSES ∨
          ((k.mapGlobals (·.modifyPcb p fun _ ↦ b)).pcb p).pid ≥ N_PROCESSES) := by
        rw [hn, hb, hpid, or_self]
        exact hfull
      unfold Kernel.addProcessToScheduler
      rw [if_neg hguard]
      simp only [Kernel.mapGlobals_toGlobals] at hreg ⊢
      simp only [hreg, hready, if_true, hk', Option.bind_eq_bind, Option.bind_some]
    -- the same state, reached by waking a process that was stopped in the table
    have hbase := admitted_inv ha hp hpid hprio (Nat.lt_of_not_le hfull)
    have hmem : (admitted a p b).Known p := (admitted_known ha hp).mpr (.inl rfl)
    have hstopped : ((admitted a p b).pcb p).state ≠ .ready := by simp [admitted]
    have ha' := hbase.wake hmem hinit hpc hstopped
      (f := fun b ↦ { b with state := .ready }) (fun _ ↦ rfl) fun _ ↦ rfl
    rw [enqueue_admitted hpid hready] at ha'
    refine ⟨0, _, _, hrun, h'.mapGlobals fun g ↦ { g with nProcesses := g.nProcesses + 1 }, ha',
      ?_, ?_⟩ <;> rw [← enqueue_admitted hpid hready]
    · intro hci
      have hpcb := admitted_pcb (b := b) hinit hp ha.current
      rw [Spec.enqueue_currentProcess] at hci
      rw [Globals.current, Spec.enqueue_currentProcess]
      exact (congrArg PCB.state hpcb).trans (hsettled hci)
    · exact admitted_passage hinit hp ha

/-! ## Steps -/

/-- The list kernel of a kernel is unique. -/
theorem Sim.unique {k : Kernel Pointers} {a a' : Kernel Lists} (h : Sim k a) (h' : Sim k a') :
    a = a' := by
  obtain ⟨g, ls⟩ := a
  obtain ⟨g', ls'⟩ := a'
  obtain rfl : g = g' := h.globals.symm.trans h'.globals
  have hls : ls = ls' := h.queues.unique h'.queues
  rw [hls]

/-- The state of the kernel between two operations: `a` is its list kernel. -/
structure Sound (k : Kernel Pointers) (a : Kernel Lists) : Prop where
  sim : Sim k a
  inv : Inv a
  settled : Settled a.toGlobals

/-- The entry of every operation. -/
theorem Sound.entry {k : Kernel Pointers} {a : Kernel Lists} (h : Sound k a) {op : Op}
    (hop : op.Enabled k.toGlobals) :
    ∃ b k₁ a₁, op.entry k = some (b, k₁) ∧ Sim k₁ a₁ ∧ Inv a₁ ∧
      (b = false → Settled a₁.toGlobals) ∧ Passage a a₁ := by
  obtain ⟨hsim, ha, hsettled⟩ := h
  rw [hsim.globals] at hop
  cases op with
  | add p b =>
      obtain ⟨hp, hpid, hready, hprio⟩ := hop
      obtain ⟨r, k', a', hk', hsim', ha', hs', hpass⟩ :=
        hsim.add_entry ha hsettled hp hpid hready hprio
      exact ⟨false, k', a', by simp [Op.entry, Op.run, hk'], hsim', ha', fun _ ↦ hs', hpass⟩
  | wake p =>
      obtain ⟨hp, hinit, hw⟩ := hop
      obtain ⟨k', a', hk', hsim', ha', hs', hpass⟩ := hsim.wake_entry ha hsettled hp hinit hw
      exact ⟨false, k', a', by simp [Op.entry, Op.run, hk'], hsim', ha', fun _ ↦ hs', hpass⟩
  | yield =>
      have hquiet := Quiet.setCounter a a.currentProcess 0
      have ha₁ := hquiet.inv_mapGlobals ha rfl
      exact ⟨true, _, _, rfl,
        (hsim.mapGlobals fun g ↦ g.setCounter g.currentProcess 0).mapGlobals _,
        endBurst_inv ha₁, by simp, (hquiet.trans (endBurst_quiet _)).passage⟩
  | block s =>
      obtain ⟨hinit, hs, hother⟩ := hop
      obtain ⟨ha₁, hpass⟩ := leave_entry ha hsettled hinit hs
        (f := fun b ↦ { b with state := s }) (fun _ ↦ rfl) (fun _ ↦ rfl) (fun _ ↦ rfl) (fun _ ↦ rfl)
        (.blocks (by simpa using hs) (by simpa using hother))
      exact ⟨true, _, _, rfl, (hsim.mapGlobals fun g ↦ g.setState g.currentProcess s).mapGlobals _,
        endBurst_inv ha₁, by simp, hpass.trans_quiet (endBurst_quiet _)⟩
  | wait pid =>
      have hsearch : k.searchProcess pid = a.searchProcess pid := by rw [hsim.globals]
      simp only [Op.entry, hsearch]
      cases hp : a.searchProcess pid with
      | none => exact ⟨false, k, a, rfl, hsim, ha, fun _ ↦ hsettled, (Quiet.refl a).passage⟩
      | some p =>
          have hpcb : (k.pcb p).state = (a.pcb p).state := by rw [hsim.globals]
          simp only [hpcb]
          split_ifs with hz
          · exact ⟨false, k, a, rfl, hsim, ha, fun _ ↦ hsettled, (Quiet.refl a).passage⟩
          · have hfound := ha.table.searchProcess_eq_some.mp hp
            obtain ⟨ha₁, hpass⟩ := leave_entry ha hsettled hop (s := .waitingAnotherProcess)
              (f := fun b ↦ { b with state := .waitingAnotherProcess, pidToWait := pid })
              trivial (fun _ ↦ rfl) (fun _ ↦ rfl) (fun _ ↦ rfl) (fun _ ↦ rfl)
              (.awaits (by simp) p hfound.1 (by simp [hfound.2]) hz)
            exact ⟨true, _, _, rfl, (hsim.mapGlobals _).mapGlobals _, endBurst_inv ha₁, by simp,
              hpass.trans_quiet (endBurst_quiet _)⟩
  | exit =>
      obtain ⟨k₁, hk₁, hsim₁, ha₁, hterm⟩ := hsim.terminate ha hsettled hop
      exact ⟨true, _, _, by simp [Op.entry, hk₁], hsim₁.mapGlobals (·.endBurst), endBurst_inv ha₁,
        by simp, (hterm.passage (hsettled hop)).trans_quiet (endBurst_quiet _)⟩
  | tick =>
      obtain ⟨b, a', k', -, hk', hsim', ha', hquiet⟩ := hsim.tickEntry ha
      exact ⟨b, k', a', hk', hsim', ha', fun _ ↦ hquiet.settled hsettled, hquiet.passage⟩
  | signal pid f =>
      have hlocal := syscallSendSignal_entry ha pid f
      exact ⟨false, _, _, rfl, hsim.mapGlobals _, hlocal.inv, fun _ ↦ hlocal.settled hsettled,
        hlocal.passage⟩
  | setParam pid param value =>
      have hlocal := syscallSetSchedParam_entry ha pid param value
      exact ⟨false, _, _, rfl, hsim.mapGlobals _, hlocal.inv, fun _ ↦ hlocal.settled hsettled,
        hlocal.passage⟩

/-- Entering the scheduler, in the kernel and on lists. -/
theorem Sim.invocation {k : Kernel Pointers} {a : Kernel Lists} (h : Sim k a) (ha : Inv a) :
    ∃ k' a', k.pickNext = some k' ∧ Sim k' a' ∧ Invocation a a' := by
  obtain ⟨a', ha', hinv⟩ := ha.pickNext
  obtain ⟨k', hk', h'⟩ := h.pickNext ha.schedulable ha'
  exact ⟨k', a', hk', h', hinv⟩

/-- What an operation does: a passage, and an invocation if it enters the scheduler. -/
structure Effect (op : Op) (k : Kernel Pointers) (a : Kernel Lists) (k' : Kernel Pointers)
    (a' : Kernel Lists) : Prop where
  sound : Sound k' a'
  cases : (op.entry k = some (false, k') ∧ Passage a a') ∨
    ∃ k₁ a₁, op.entry k = some (true, k₁) ∧ Sim k₁ a₁ ∧ Inv a₁ ∧ Passage a a₁ ∧
      k₁.pickNext = some k' ∧ Invocation a₁ a'

/-- Every enabled operation ends, and keeps the invariant. -/
theorem Sound.run {k : Kernel Pointers} {a : Kernel Lists} (h : Sound k a) {op : Op}
    (hop : op.Enabled k.toGlobals) : ∃ k' a', op.run k = some k' ∧ Effect op k a k' a' := by
  obtain ⟨b, k₁, a₁, hentry, h₁, ha₁, hs₁, hpass⟩ := h.entry hop
  rw [Op.run_eq, hentry]
  cases b with
  | false => exact ⟨k₁, a₁, rfl, ⟨h₁, ha₁, hs₁ rfl⟩, .inl ⟨hentry, hpass⟩⟩
  | true =>
      obtain ⟨k', a', hk', h', hinv⟩ := h₁.invocation ha₁
      exact ⟨k', a', hk', ⟨h', hinv.inv ha₁, hinv.settled⟩,
        .inr ⟨k₁, a₁, hentry, h₁, ha₁, hpass, hk', hinv⟩⟩

/-- The effect of a step that is known to end in `k'`. -/
theorem Sound.step {k k' : Kernel Pointers} {a : Kernel Lists} (h : Sound k a) {op : Op}
    (hop : op.Enabled k.toGlobals) (hrun : op.run k = some k') : ∃ a', Effect op k a k' a' := by
  obtain ⟨k'', a', hrun', heff⟩ := h.run hop
  obtain rfl : k'' = k' := Option.some.inj (hrun'.symm.trans hrun)
  exact ⟨a', heff⟩

/-! ## Reachable states -/

theorem boot_sound (algorithm : Algorithm) (timerClo : Nat → BitVec 32) :
    Sound (Kernel.boot algorithm timerClo) ⟨Globals.boot algorithm timerClo, fun _ ↦ []⟩ := by
  have hslot : ∀ {i p}, (Globals.boot algorithm timerClo).processes i = some p →
      i = 0 ∧ p = .initProcess := by
    intro i p hi
    simp only [Globals.boot] at hi
    split_ifs at hi with h0
    exact ⟨h0, (Option.some.inj hi).symm⟩
  have hknown : ∀ {p}, (Globals.boot algorithm timerClo).Known p → p = .initProcess := by
    rintro p ⟨i, hi⟩
    exact (hslot hi).2
  refine ⟨⟨rfl, ?_, fun q ↦ rfl, fun q ↦ List.nodup_nil, fun q q' _ p hp ↦ ?_⟩,
    ⟨⟨fun q ↦ List.nodup_nil, fun q q' p hp ↦ ?_, fun q p hp ↦ ?_, fun q hq ↦ ?_⟩,
      ⟨fun {i p} hi ↦ ?_, fun {i} hi ↦ ?_, rfl, (by decide : 1 ≤ 64)⟩, fun q p hp ↦ ?_,
      fun p hp ↦ ?_,
      fun p hp hinit ↦ ?_, fun p hp hinit ↦ ?_, ⟨0, rfl⟩, fun h ↦ ?_, fun i ↦ ?_, fun l hl ↦ ?_,
      .inl rfl⟩, fun h ↦ ?_⟩
  · exact fun q ↦ Chain.nil_iff.mpr rfl
  · simp at hp
  · simp at hp
  · simp at hp
  · simp at hq
  · obtain ⟨rfl, rfl⟩ := hslot hi
    exact ⟨Nat.zero_lt_one, rfl⟩
  · obtain rfl : i = 0 := Nat.lt_one_iff.mp hi
    exact ⟨_, rfl⟩
  · simp at hp
  · obtain rfl := hknown hp
    exact Int.le_refl 1
  · exact absurd (hknown hp) hinit
  · exact absurd (hknown hp) hinit
  · exact absurd rfl h
  · exact Nat.zero_lt_succ 4
  · exact absurd rfl hl
  · exact absurd rfl h

/-- The invariant holds along every run. -/
theorem sound_of_steps {k k' : Kernel Pointers} {a : Kernel Lists} (h : Sound k a)
    (hsteps : Relation.ReflTransGen Step k k') : ∃ a', Sound k' a' := by
  induction hsteps with
  | refl => exact ⟨a, h⟩
  | tail _ hstep ih =>
      obtain ⟨a₁, h₁⟩ := ih
      obtain ⟨op, hop, hrun⟩ := hstep
      obtain ⟨a₂, heff⟩ := h₁.step hop hrun
      exact ⟨a₂, heff.sound⟩

theorem Reachable.sound {k : Kernel Pointers} (h : Reachable k) : ∃ a, Sound k a := by
  obtain ⟨algorithm, timerClo, hsteps⟩ := h
  exact sound_of_steps (boot_sound algorithm timerClo) hsteps

end DemosOS
