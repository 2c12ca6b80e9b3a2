import DemosOS.Sched.Consistency

/-!
# Signals

What the three signals do over whole runs.  A process is only looked at by
`handle_process_signals` when a selection function meets it in a queue, so:

* a `KILL` or `STOP` takes effect before its target can be dispatched again, and a
  process that is dispatched has no signal left;
* a process that is neither queued nor waiting stays as it is for ever: this is what
  makes `ZOMBIE` absorbing, and also what makes `RESUME` ineffective, since a stopped
  process is in no queue.
-/

namespace DemosOS

/-! ## Dormant processes -/

/-- A state that no operation leaves: not ready, not running, and not waiting for an event. -/
def ProcessState.IsDormant (s : ProcessState) : Prop :=
  ¬ s.IsWaiting ∧ s ≠ .ready ∧ s ≠ .running

theorem isDormant_zombie : ProcessState.zombie.IsDormant := ⟨id, by simp, by simp⟩

theorem isDormant_stopped : ProcessState.stopped.IsDormant := ⟨id, by simp, by simp⟩

section

variable {a a' : Kernel Lists} {p : PcbPtr} {s : ProcessState}

theorem Inv.not_runnable (ha : Inv a) (hs : s.IsDormant) (hstate : (a.pcb p).state = s) :
    ¬ Runnable a p := by
  rintro (⟨q, hq⟩ | ⟨-, -, hrun⟩)
  · exact hs.2.1 (hstate.symm.trans (ha.ready q p hq))
  · exact hs.2.2 (hstate.symm.trans hrun)

theorem Passage.dormant (h : Passage a a') (hp : a.Known p) (hinit : p ≠ .initProcess)
    (hs : s.IsDormant) (hstate : (a.pcb p).state = s) : (a'.pcb p).state = s := by
  cases h.passed hp hinit with
  | same h₁ => exact h₁.trans hstate
  | woken hw => exact absurd (hstate ▸ hw) hs.1
  | left _ hrun => exact absurd (hstate.symm.trans hrun) hs.2.2

theorem Invocation.dormant (h : Invocation a a') (ha : Inv a) (hinit : p ≠ .initProcess)
    (hs : s.IsDormant) (hstate : (a.pcb p).state = s) : (a'.pcb p).state = s := by
  have hrun := ha.not_runnable hs hstate
  cases h.turn p hinit with
  | away _ _ _ hsame => exact hsame.trans hstate
  | waits hr => exact absurd hr hrun
  | dispatched hr => exact absurd hr hrun
  | killed hr => exact absurd hr hrun
  | stopped hr => exact absurd hr hrun

/-- No operation changes the state of a dormant process. -/
theorem Effect.dormant {op : Op} {k k' : Kernel Pointers} (h : Effect op k a k' a')
    (hp : a.Known p) (hinit : p ≠ .initProcess) (hs : s.IsDormant)
    (hstate : (a.pcb p).state = s) : (a'.pcb p).state = s := by
  obtain ⟨-, hpass⟩ | ⟨k₁, a₁, -, -, ha₁, hpass, -, hinv⟩ := h.cases
  · exact hpass.dormant hp hinit hs hstate
  · exact hinv.dormant ha₁ hinit hs (hpass.dormant hp hinit hs hstate)

end

/-- A dormant process is in no queue and does not have the processor. -/
theorem Sound.dormant {k : Kernel Pointers} {a : Kernel Lists} (h : Sound k a) {p : PcbPtr}
    {s : ProcessState} (hinit : p ≠ .initProcess) (hs : s.IsDormant)
    (hstate : (k.pcb p).state = s) : (∀ q, ¬ k.Linked q p) ∧ k.currentProcess ≠ p := by
  rw [h.sim.globals] at hstate ⊢
  constructor
  · intro q hq
    exact h.inv.not_runnable hs hstate (.inl ⟨q, h.linked_iff.mp hq⟩)
  · rintro rfl
    exact hs.2.2 (hstate.symm.trans (h.settled hinit))

/-- A dormant process stays as it is along every run. -/
theorem dormant_of_steps {k k' : Kernel Pointers} (h : Reachable k) {p : PcbPtr}
    {s : ProcessState} (hp : k.Known p) (hinit : p ≠ .initProcess) (hs : s.IsDormant)
    (hstate : (k.pcb p).state = s) (hsteps : Relation.ReflTransGen Step k k') :
    Reachable k' ∧ k'.Known p ∧ (k'.pcb p).state = s :=
  h.stable (P := fun b ↦ b.state = s) (fun heff hp hb ↦ heff.dormant hp hinit hs hb) hp
    hstate hsteps

/-! ## Stop and resume -/

/-- The process is runnable again: ready and linked, or dispatched. -/
def Resumed (k : Kernel Pointers) (p : PcbPtr) : Prop :=
  ((k.pcb p).state = .ready ∧ ∃ q, k.Linked q p) ∨ k.currentProcess = p

/-- Sending `RESUME` to a stopped process never makes it runnable again: in every state
that follows, after the next scheduler invocation as after any other, it is still stopped. -/
theorem resume_never_undoes_stop {k k₁ : Kernel Pointers} (h : Reachable k) {p : PcbPtr}
    (hp : k.Known p) (hinit : p ≠ .initProcess) (hstop : (k.pcb p).state = .stopped)
    (hresume : (Op.signal (k.pcb p).pid SIGNAL_RESUME).run k = some k₁) :
    (∃ k', Op.yield.run k₁ = some k') ∧
      ∀ k', Relation.ReflTransGen Step k₁ k' → (k'.pcb p).state = .stopped ∧ ¬ Resumed k' p := by
  have hstep : Step k k₁ := ⟨.signal _ _, trivial, hresume⟩
  have hfollow : ∀ k', Relation.ReflTransGen Step k₁ k' → Reachable k' ∧
      (k'.pcb p).state = .stopped ∧ ¬ Resumed k' p := by
    intro k' hsteps
    obtain ⟨hreach, -, hstate⟩ := dormant_of_steps h hp hinit isDormant_stopped hstop
      (Relation.ReflTransGen.head hstep hsteps)
    obtain ⟨a, ha⟩ := hreach.sound
    obtain ⟨hlinked, hcur⟩ := ha.dormant hinit isDormant_stopped hstate
    refine ⟨hreach, hstate, ?_⟩
    rintro (⟨-, q, hq⟩ | hc)
    · exact hlinked q hq
    · exact hcur hc
  refine ⟨?_, fun k' hsteps ↦ (hfollow k' hsteps).2⟩
  obtain ⟨a, ha⟩ := (hfollow k₁ Relation.ReflTransGen.refl).1.sound
  have henabled : Op.yield.Enabled k₁.toGlobals := trivial
  obtain ⟨k', -, hrun, -⟩ := ha.run henabled
  exact ⟨k', hrun⟩

/-- Two processes under round robin; the first is stopped while it runs, and loses the
processor at the second yield. -/
def stopRun : List Op :=
  [.add (.page 0) (childOfInit 1), .add (.page 1) (childOfInit 2), .tick, .signal 1 SIGNAL_STOP,
    .yield, .yield]

/-- `stopRun` ends with the first process stopped and no signal pending. -/
theorem stopRun_spec : ∃ k, runAll stopRun (Kernel.boot .roundRobin fun _ ↦ 0) = some k ∧
    Reachable k ∧ k.Known (.page 0) ∧ (k.pcb (.page 0)).state = .stopped ∧
    (k.pcb (.page 0)).pid = 1 ∧ (k.pcb (.page 0)).NoSignal := by
  have hrun : (runAll stopRun (Kernel.boot .roundRobin fun _ ↦ 0)).any (fun k ↦
      k.processes 1 = some (.page 0) ∧ (k.pcb (.page 0)).state = .stopped ∧
        (k.pcb (.page 0)).pid = 1 ∧ (k.pcb (.page 0)).NoSignal) = true := by
    decide +kernel
  obtain ⟨k, hk, hprop⟩ := (Option.any_eq_true _ _).mp hrun
  obtain ⟨hslot, hrest⟩ := of_decide_eq_true hprop
  exact ⟨k, hk, (reachable_boot _ _).runAll hk, ⟨1, hslot⟩, hrest⟩

theorem resume_never_undoes_stop_roundRobin :
    ∃ k k₁, runAll stopRun (Kernel.boot .roundRobin fun _ ↦ 0) = some k ∧
      (Op.signal 1 SIGNAL_RESUME).run k = some k₁ ∧
      ∀ k', Relation.ReflTransGen Step k₁ k' → ¬ Resumed k' (.page 0) := by
  obtain ⟨k, hk, hreach, hknown, hstop, hpid, -⟩ := stopRun_spec
  have hresume : (Op.signal (k.pcb (.page 0)).pid SIGNAL_RESUME).run k =
      some (k.mapGlobals fun g ↦ (g.syscallSendSignal 1 SIGNAL_RESUME).2) := by
    rw [hpid]
    rfl
  exact ⟨k, _, hk, rfl, fun k' hsteps ↦
    ((resume_never_undoes_stop hreach hknown (by simp) hstop hresume).2 k' hsteps).2⟩

/-- A stopped process that gets a `RESUME`, with nothing else pending, is not runnable
after the next scheduler invocation. -/
theorem resume_undoes_stop_false :
    ¬ ∀ (k k₁ k' : Kernel Pointers) (p : PcbPtr), Reachable k → k.Known p → p ≠ .initProcess →
      (k.pcb p).state = .stopped → ¬ (k.pcb p).hasSignal SIGNAL_KILL →
      ¬ (k.pcb p).hasSignal SIGNAL_STOP →
      (Op.signal (k.pcb p).pid SIGNAL_RESUME).run k = some k₁ →
      Op.yield.run k₁ = some k' → Resumed k' p := by
  intro hclaim
  obtain ⟨k, hk, hreach, hknown, hstop, hpid, hno⟩ := stopRun_spec
  have hrun : (runAll (stopRun ++ [.signal 1 SIGNAL_RESUME, .yield])
      (Kernel.boot .roundRobin fun _ ↦ 0)).any (fun k ↦
        (k.pcb (.page 0)).state = .stopped ∧ k.currentProcess = .page 1) = true := by
    decide +kernel
  obtain ⟨k', hk', hprop⟩ := (Option.any_eq_true _ _).mp hrun
  obtain ⟨hstop', hcur'⟩ := of_decide_eq_true hprop
  obtain ⟨k₁, hk₁, hyield⟩ : ∃ k₁, (Op.signal 1 SIGNAL_RESUME).run k = some k₁ ∧
      Op.yield.run k₁ = some k' := by
    rw [runAll_append, hk] at hk'
    simpa [runAll, Op.check, Option.bind_eq_some_iff] using hk'
  have hresumed := hclaim k k₁ k' (.page 0) hreach hknown (by simp) hstop hno.1 hno.2.1
    (by rw [hpid]; exact hk₁) hyield
  rcases hresumed with ⟨hready, -⟩ | hcur
  · rw [hstop'] at hready
    simp at hready
  · rw [hcur'] at hcur
    simp at hcur

/-! ## Kill -/

/-- The process has been sent a `KILL`, or is a zombie already. -/
def PCB.Doomed (b : PCB) : Prop := b.hasSignal SIGNAL_KILL ∨ b.state = .zombie

section

variable {a a' : Kernel Lists} {p : PcbPtr}

theorem Passage.doomed (h : Passage a a') (hp : a.Known p) (hinit : p ≠ .initProcess)
    (hd : (a.pcb p).Doomed) : (a'.pcb p).Doomed := by
  rcases hd with hkill | hz
  · exact .inl (h.signals hp (by decide) hkill)
  · exact .inr (h.dormant hp hinit isDormant_zombie hz)

/-- A doomed process is not dispatched, and remains doomed. -/
theorem Invocation.doomed (h : Invocation a a') (ha : Inv a) (hinit : p ≠ .initProcess)
    (hd : (a.pcb p).Doomed) : (a'.pcb p).Doomed ∧ a'.currentProcess ≠ p := by
  rcases hd with hkill | hz
  · cases h.turn p hinit with
    | away _ _ hcur _ hsig =>
        exact ⟨.inl (by rwa [PCB.hasSignal, hsig]), fun e ↦ hcur e.symm⟩
    | waits _ _ _ hcur _ hk => exact ⟨.inl (hk.mpr hkill), fun e ↦ hcur e.symm⟩
    | dispatched _ _ _ _ _ hk => exact absurd hkill hk
    | killed _ _ hcur hstate => exact ⟨.inr hstate, fun e ↦ hcur e.symm⟩
    | stopped _ _ _ _ hk => exact absurd hkill hk
  · have hz' := h.dormant ha hinit isDormant_zombie hz
    refine ⟨.inr hz', ?_⟩
    rintro rfl
    have hrun := hz'.symm.trans (h.current_running hinit)
    simp at hrun

theorem Effect.doomed {op : Op} {k k' : Kernel Pointers} (h : Effect op k a k' a')
    (hp : a.Known p) (hinit : p ≠ .initProcess) (hd : (a.pcb p).Doomed) : (a'.pcb p).Doomed := by
  obtain ⟨-, hpass⟩ | ⟨k₁, a₁, -, -, ha₁, hpass, -, hinv⟩ := h.cases
  · exact hpass.doomed hp hinit hd
  · exact (hinv.doomed ha₁ hinit (hpass.doomed hp hinit hd)).1

/-- Whoever is dispatched has no signal left. -/
theorem Invocation.current_noSignal (h : Invocation a a')
    (hinit : a'.currentProcess ≠ .initProcess) :
    a'.current.NoSignal := by
  cases h.turn _ hinit with
  | away _ _ hcur => exact absurd rfl hcur
  | waits _ _ _ hcur => exact absurd rfl hcur
  | dispatched _ _ _ _ hsig => exact hsig
  | killed _ _ hcur => exact absurd rfl hcur
  | stopped _ _ hcur => exact absurd rfl hcur

end

/-- A doomed process stays doomed along every run. -/
theorem doomed_of_steps {k k' : Kernel Pointers} (h : Reachable k) {p : PcbPtr}
    (hp : k.Known p) (hinit : p ≠ .initProcess) (hd : (k.pcb p).Doomed)
    (hsteps : Relation.ReflTransGen Step k k') :
    Reachable k' ∧ k'.Known p ∧ (k'.pcb p).Doomed :=
  h.stable (P := PCB.Doomed) (fun heff hp hb ↦ heff.doomed hp hinit hb) hp hd hsteps

/-- `syscall_send_signal` marks the process it finds. -/
theorem doomed_of_kill {k k₁ : Kernel Pointers} {pid : Int} {p : PcbPtr}
    (hp : k.searchProcess pid = some p) (hkill : (Op.signal pid SIGNAL_KILL).run k = some k₁) :
    (k₁.pcb p).Doomed := by
  obtain rfl := Option.some.inj hkill
  refine .inl ?_
  have hsent : (k.toGlobals.syscallSendSignal pid SIGNAL_KILL).2 =
      k.toGlobals.sendSignal p SIGNAL_KILL := by rw [Globals.syscallSendSignal, hp]
  rw [Kernel.mapGlobals_toGlobals, hsent, Globals.sendSignal, Globals.modifyPcb_pcb_self,
    PCB.hasSignal_raiseSignal _ (by decide)]
  exact .inr (by decide)

/-- The scheduler invocation of an operation, on lists. -/
theorem Sound.invocation {k k₁ k' : Kernel Pointers} {a : Kernel Lists} (h : Sound k a) {op : Op}
    (hop : op.Enabled k.toGlobals) (hentry : op.entry k = some (true, k₁))
    (hpick : k₁.pickNext = some k') :
    ∃ a₁ a', Inv a₁ ∧ Passage a a₁ ∧ Invocation a₁ a' ∧ k'.toGlobals = a'.toGlobals := by
  obtain ⟨b, k₂, a₁, hentry', hsim₁, ha₁, -, hpass⟩ := h.entry hop
  obtain ⟨rfl, rfl⟩ : true = b ∧ k₁ = k₂ := by
    simpa using Option.some.inj (hentry.symm.trans hentry')
  obtain ⟨k₂, a', hpick', hsim', hinv⟩ := hsim₁.invocation ha₁
  obtain rfl : k' = k₂ := Option.some.inj (hpick.symm.trans hpick')
  exact ⟨a₁, a', ha₁, hpass, hinv, hsim'.globals⟩

end DemosOS
