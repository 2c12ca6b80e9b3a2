import DemosOS.Sched.Signals

/-!
# Waiting for a process to terminate

`syscall_wait` puts the caller to sleep until the process it names terminates, and
`exit_process` wakes everybody who waits for the caller.  A process can also become a
zombie because `handle_process_signals` finds a `KILL` pending, and nobody is woken there.

So the rendezvous works along every run in which the scheduler is never entered while a
runnable process that somebody waits for has a `KILL` pending, and it can fail in the
others.
-/

namespace DemosOS

open Lib

/-! ## The rendezvous -/

/-- Nobody waits for a zombie. -/
def Globals.NoOrphan (g : Globals) : Prop :=
  ∀ p z, g.Known p → g.Known z → (g.pcb z).state = .zombie → ¬ g.WaitsFor p (g.pcb z).pid

/-- No runnable process that somebody waits for has a `KILL` pending. -/
def Globals.Calm (g : Globals) : Prop :=
  ∀ p z, g.Known p → g.Known z → (g.pcb z).state = .ready ∨ (g.pcb z).state = .running →
    (g.pcb z).hasSignal SIGNAL_KILL → ¬ g.WaitsFor p (g.pcb z).pid

/-- The process is linked in one queue, and there once. -/
def Kernel.LinkedOnce (k : Kernel Pointers) (p : PcbPtr) : Prop :=
  ∃ q l, Chain k.queues.next (k.queues.ends q).head l ∧ l.count p = 1 ∧
    ∀ q', k.Linked q' p → q' = q

/-- Between `k` and `k'` everybody who waited for a process that became a zombie was
made ready. -/
def Released (k k' : Kernel Pointers) : Prop :=
  ∀ p z, k.Known p → k.Known z → (k.pcb z).state ≠ .zombie → (k'.pcb z).state = .zombie →
    k.WaitsFor p (k.pcb z).pid →
    (k'.pcb p).state = .ready ∧ (k'.pcb p).pidToWait = -1 ∧ k'.LinkedOnce p

section

variable {a a' : Kernel Lists}

theorem Inv.ne_init_of_waits (ha : Inv a) {p : PcbPtr} {pid : Nat} (hw : a.WaitsFor p pid) :
    p ≠ .initProcess := by
  rintro rfl
  refine ha.initState.not_isWaiting ?_
  rw [hw.1]
  trivial

theorem Inv.ne_init_of_zombie (ha : Inv a) {z : PcbPtr} (hz : (a.pcb z).state = .zombie) :
    z ≠ .initProcess := by
  rintro rfl
  have hidle := ha.initState
  rw [hz] at hidle
  simp [ProcessState.IsIdle] at hidle

/-- A process that is a zombie or waits after a passage was known before. -/
theorem Passage.known_of_not_ready (h : Passage a a') {p : PcbPtr} (hp : a'.Known p)
    (hstate : (a'.pcb p).state ≠ .ready) : a.Known p := by
  by_contra hnew
  exact hstate (h.fresh hnew hp)

/-- Whoever waits for another process after a passage was waiting for it already, or is
the running process, which waits for a process that is alive. -/
theorem Passage.waitsFor (h : Passage a a') (ha' : Inv a') {p : PcbPtr} {pid : Nat}
    (hp : a'.Known p) (hw : a'.WaitsFor p pid) :
    a.Known p ∧ (a.WaitsFor p pid ∨ (p = a.currentProcess ∧
      ∃ z, a.Known z ∧ (a.pcb z).pid = pid ∧ (a.pcb z).state ≠ .zombie)) := by
  have hp₀ : a.Known p := h.known_of_not_ready hp (by rw [hw.1]; simp)
  refine ⟨hp₀, ?_⟩
  cases h.passed hp₀ (ha'.ne_init_of_waits hw) with
  | same hstate hwait => exact .inl ⟨hstate.symm.trans hw.1, hwait.symm.trans hw.2⟩
  | woken _ hready =>
      rw [hw.1] at hready
      simp at hready
  | left hcur _ hleft =>
      cases hleft with
      | blocks _ hother => exact absurd hw.1 hother
      | awaits _ z hz hpid halive =>
          exact .inr ⟨hcur, z, hz, by exact_mod_cast hpid.symm.trans hw.2, halive⟩
      | exits hzombie =>
          rw [hw.1] at hzombie
          simp at hzombie

/-- A process that is a zombie after a passage was one before, or has just terminated and
left nobody waiting. -/
theorem Passage.zombie (h : Passage a a') (ha' : Inv a') {z : PcbPtr} (hz : a'.Known z)
    (hstate : (a'.pcb z).state = .zombie) :
    a.Known z ∧ ((a.pcb z).state = .zombie ∨ (z = a.currentProcess ∧
      ∀ {x}, a.Known x → a.WaitsFor x (a.pcb z).pid →
        (a'.pcb x).state = .ready ∧ (a'.pcb x).pidToWait = -1 ∧ ∃ q, x ∈ a'.queues q)) := by
  have hz₀ : a.Known z := h.known_of_not_ready hz (by rw [hstate]; simp)
  refine ⟨hz₀, ?_⟩
  cases h.passed hz₀ (ha'.ne_init_of_zombie hstate) with
  | same hsame => exact .inl (hsame.symm.trans hstate)
  | woken _ hready =>
      rw [hstate] at hready
      simp at hready
  | left hcur _ hleft =>
      cases hleft with
      | blocks hwaiting =>
          rw [hstate] at hwaiting
          exact hwaiting.elim
      | awaits hother =>
          rw [hstate] at hother
          simp at hother
      | exits _ hwoken => exact .inr ⟨hcur, hwoken⟩

/-- What an operation does before it enters the scheduler leaves nobody waiting for a
zombie. -/
theorem Passage.noOrphan (h : Passage a a') (ha : Inv a) (ha' : Inv a') (hno : a.NoOrphan) :
    a'.NoOrphan := by
  intro p z hp hz hzombie hw
  obtain ⟨hz₀, hbefore⟩ := h.zombie ha' hz hzombie
  rw [h.pid hz₀] at hw
  obtain ⟨hp₀, hwaited⟩ := h.waitsFor ha' hp hw
  rcases hbefore with hzombie₀ | ⟨hcur, hwoken⟩
  · rcases hwaited with hw₀ | ⟨-, z', hz', hpid, halive⟩
    · exact hno p z hp₀ hz₀ hzombie₀ hw₀
    · obtain rfl := ha.table.pid_inj hz' hz₀ hpid
      exact halive hzombie₀
  · rcases hwaited with hw₀ | ⟨hpc, -⟩
    · have hready := (hwoken hp₀ hw₀).1
      rw [hw.1] at hready
      simp at hready
    · -- the running process cannot both terminate and wait
      rw [hpc, ← hcur] at hw
      have hother := hzombie.symm.trans hw.1
      simp at hother

/-- A scheduler invocation puts nobody to sleep. -/
theorem Invocation.waitsFor (h : Invocation a a') {p : PcbPtr} {pid : Nat}
    (hinit : p ≠ .initProcess) (hw : a'.WaitsFor p pid) : a.WaitsFor p pid := by
  have hwait := Globals.field_of_frozen h.frozen PCB.pidToWait (fun _ ↦ rfl) p
  have hstate := hw.1
  cases h.turn p hinit with
  | away _ _ _ hsame => exact ⟨hsame.symm.trans hstate, hwait.symm.trans hw.2⟩
  | waits _ _ _ _ hready => rw [hready] at hstate; simp at hstate
  | dispatched _ _ _ hrunning => rw [hrunning] at hstate; simp at hstate
  | killed _ _ _ hzombie => rw [hzombie] at hstate; simp at hstate
  | stopped _ _ _ hstopped => rw [hstopped] at hstate; simp at hstate

/-- A process that is a zombie after an invocation was one before, or was killed by it. -/
theorem Invocation.zombie (h : Invocation a a') (ha : Inv a) {z : PcbPtr}
    (hinit : z ≠ .initProcess) (hstate : (a'.pcb z).state = .zombie) :
    (a.pcb z).state = .zombie ∨
      (((a.pcb z).state = .ready ∨ (a.pcb z).state = .running) ∧
        (a.pcb z).hasSignal SIGNAL_KILL) := by
  cases h.turn z hinit with
  | away _ _ _ hsame => exact .inl (hsame.symm.trans hstate)
  | waits _ _ _ _ hready => rw [hready] at hstate; simp at hstate
  | dispatched _ _ _ hrunning => rw [hrunning] at hstate; simp at hstate
  | killed hrun _ _ _ hkill =>
      refine .inr ⟨?_, hkill⟩
      rcases hrun with ⟨q, hq⟩ | ⟨-, -, hrunning⟩
      · exact .inl (ha.ready q z hq)
      · exact .inr hrunning
  | stopped _ _ _ hstopped => rw [hstopped] at hstate; simp at hstate

/-- An invocation that kills nobody who is waited for leaves nobody waiting for a zombie. -/
theorem Invocation.noOrphan (h : Invocation a a') (ha : Inv a) (hcalm : a.Calm)
    (hno : a.NoOrphan) : a'.NoOrphan := by
  intro p z hp hz hzombie hw
  have ha' := h.inv ha
  rw [Globals.known_of_frozen h.frozen] at hp hz
  rw [Globals.field_of_frozen h.frozen PCB.pid fun _ ↦ rfl] at hw
  have hw₀ := h.waitsFor (ha'.ne_init_of_waits hw) hw
  rcases h.zombie ha (ha'.ne_init_of_zombie hzombie) hzombie with hzombie₀ | ⟨hstate, hkill⟩
  · exact hno p z hp hz hzombie₀ hw₀
  · exact hcalm p z hp hz hstate hkill hw₀

end

/-! ## In the kernel -/

theorem linkedOnce_of_mem {k : Kernel Pointers} {a : Kernel Lists} (h : Sim k a) (ha : Inv a)
    {p : PcbPtr} {q : QueueId} (hp : p ∈ a.queues q) : k.LinkedOnce p := by
  refine ⟨q, _, h.queues.chain q, List.count_eq_one_of_mem (ha.nodup q) hp, ?_⟩
  rintro q' ⟨l, hl, hp'⟩
  exact ha.disjoint q' q p (by rwa [(h.queues.chain q').unique hl]) hp

/-- The operation enters the scheduler, if it does, in a calm state. -/
def Op.EntersCalm (k : Kernel Pointers) (op : Op) : Prop :=
  ∀ k₁, op.entry k = some (true, k₁) → k₁.Calm

/-- One operation that enters the scheduler in a calm state only. -/
def CalmStep (k k' : Kernel Pointers) : Prop :=
  ∃ op : Op, op.Enabled k.toGlobals ∧ op.EntersCalm k ∧ op.run k = some k'

/-- The states that sequences of such operations reach from boot. -/
def CalmReachable (k : Kernel Pointers) : Prop :=
  ∃ algorithm timerClo, Relation.ReflTransGen CalmStep (Kernel.boot algorithm timerClo) k

theorem CalmReachable.reachable {k : Kernel Pointers} (h : CalmReachable k) : Reachable k := by
  obtain ⟨algorithm, timerClo, hsteps⟩ := h
  have hforget : ∀ k k', CalmStep k k' → Step k k' := by
    rintro k k' ⟨op, hop, -, hrun⟩
    exact ⟨op, hop, hrun⟩
  exact ⟨algorithm, timerClo, Relation.ReflTransGen.mono hforget _ _ hsteps⟩

section

variable {k k₁ k' : Kernel Pointers} {a : Kernel Lists} {op : Op} {b : Bool}

/-- The rendezvous up to the entry of the scheduler. -/
theorem Sound.entry_noOrphan (h : Sound k a) (hop : op.Enabled k.toGlobals)
    (hentry : op.entry k = some (b, k₁)) (hno : k.NoOrphan) :
    ∃ a₁, Sim k₁ a₁ ∧ Inv a₁ ∧ a₁.NoOrphan ∧ Released k k₁ := by
  obtain ⟨b', k₂, a₁, hentry', hsim₁, ha₁, -, hpass⟩ := h.entry hop
  obtain ⟨rfl, rfl⟩ : b = b' ∧ k₁ = k₂ := by
    simpa using Option.some.inj (hentry.symm.trans hentry')
  rw [h.sim.globals] at hno
  refine ⟨a₁, hsim₁, ha₁, hpass.noOrphan h.inv ha₁ hno, fun p z hp hz halive hzombie hw ↦ ?_⟩
  rw [h.sim.globals] at hp hz halive hw
  rw [hsim₁.globals] at hzombie ⊢
  rcases (hpass.zombie ha₁ (hpass.known hz) hzombie).2 with hz₀ | ⟨-, hwoken⟩
  · exact absurd hz₀ halive
  · obtain ⟨hready, hwait, q, hq⟩ := hwoken hp hw
    exact ⟨hready, hwait, linkedOnce_of_mem hsim₁ ha₁ hq⟩

/-- The rendezvous across a scheduler invocation. -/
theorem Sim.invocation_noOrphan (h : Sim k a) (ha : Inv a) (hcalm : k.Calm) (hno : a.NoOrphan)
    (hpick : k.pickNext = some k') : k'.NoOrphan ∧ Released k k' := by
  obtain ⟨k₂, a', hpick', hsim', hinv⟩ := h.invocation ha
  obtain rfl : k' = k₂ := Option.some.inj (hpick.symm.trans hpick')
  rw [h.globals] at hcalm
  refine ⟨by rw [hsim'.globals]; exact hinv.noOrphan ha hcalm hno,
    fun p z hp hz halive hzombie hw ↦ ?_⟩
  rw [h.globals] at hp hz halive hw
  rw [hsim'.globals] at hzombie
  rcases hinv.zombie ha ((hinv.inv ha).ne_init_of_zombie hzombie) hzombie with hz₀ | ⟨hrun, hkill⟩
  · exact absurd hz₀ halive
  · exact absurd hw (hcalm p z hp hz hrun hkill)

/-- One operation that enters the scheduler in a calm state keeps the rendezvous. -/
theorem Sound.run_noOrphan (h : Sound k a) (hop : op.Enabled k.toGlobals)
    (hcalm : op.EntersCalm k) (hno : k.NoOrphan) (hrun : op.run k = some k') : k'.NoOrphan := by
  rw [Op.run_eq] at hrun
  obtain ⟨⟨b, k₁⟩, hentry, hrun⟩ := Option.bind_eq_some_iff.mp hrun
  obtain ⟨a₁, hsim₁, ha₁, hno₁, -⟩ := h.entry_noOrphan hop hentry hno
  cases b with
  | false =>
      obtain rfl : k₁ = k' := Option.some.inj hrun
      rw [hsim₁.globals]
      exact hno₁
  | true => exact (hsim₁.invocation_noOrphan ha₁ (hcalm k₁ hentry) hno₁ hrun).1

end

theorem boot_noOrphan (algorithm : Algorithm) (timerClo : Nat → BitVec 32) :
    (Kernel.boot algorithm timerClo).NoOrphan := by
  rintro p z - ⟨i, hi⟩ hzombie
  obtain rfl : z = .initProcess := by
    simp only [Kernel.boot, Globals.boot] at hi
    split_ifs at hi
    exact (Option.some.inj hi).symm
  simp [Kernel.boot, Globals.boot, INIT_PROCESS, PCB.zero] at hzombie

theorem CalmReachable.noOrphan {k : Kernel Pointers} (h : CalmReachable k) : k.NoOrphan := by
  obtain ⟨algorithm, timerClo, hsteps⟩ := h
  induction hsteps with
  | refl => exact boot_noOrphan algorithm timerClo
  | tail hsteps hstep ih =>
      obtain ⟨a, ha⟩ := (CalmReachable.reachable ⟨algorithm, timerClo, hsteps⟩).sound
      obtain ⟨op, hop, hcalm, hrun⟩ := hstep
      exact ha.run_noOrphan hop hcalm ih hrun

/-- Along every run in which the scheduler is entered in calm states only, nobody waits for
a zombie, and whenever a process becomes a zombie, in its own exit or in the scheduler,
everybody who waits for it is made ready and linked once. -/
theorem rendezvous_of_calm {k : Kernel Pointers} (h : CalmReachable k) :
    k.NoOrphan ∧ ∀ (op : Op) (b : Bool) (k₁ : Kernel Pointers), op.Enabled k.toGlobals →
      op.EntersCalm k → op.entry k = some (b, k₁) → k₁.NoOrphan ∧ Released k k₁ ∧
        ∀ k', b = true → k₁.pickNext = some k' → k'.NoOrphan ∧ Released k₁ k' := by
  obtain ⟨a, ha⟩ := h.reachable.sound
  refine ⟨h.noOrphan, fun op b k₁ hop hcalm hentry ↦ ?_⟩
  obtain ⟨a₁, hsim₁, ha₁, hno₁, hreleased⟩ := ha.entry_noOrphan hop hentry h.noOrphan
  refine ⟨by rw [hsim₁.globals]; exact hno₁, hreleased, ?_⟩
  rintro k' rfl hpick
  exact hsim₁.invocation_noOrphan ha₁ (hcalm k₁ hentry) hno₁ hpick

/-! ## Checked runs -/

/-- No runnable process has a `KILL` pending: enough for a calm state. -/
def Globals.calmCheck (g : Globals) : Bool :=
  (List.range N_PROCESSES).all fun i ↦ match g.processes i with
    | none => true
    | some z => ¬ ((g.pcb z).state = .ready ∨ (g.pcb z).state = .running) ∨
        ¬ (g.pcb z).hasSignal SIGNAL_KILL

theorem Globals.calm_of_check {g : Globals} (h : g.Table) (hcheck : g.calmCheck = true) :
    g.Calm := by
  rintro p z - ⟨i, hi⟩ hstate hkill -
  have hslot := List.all_eq_true.mp hcheck i
    (List.mem_range.mpr ((h.slot hi).1.trans_le h.bound))
  simp only [hi, decide_eq_true_eq] at hslot
  rcases hslot with hs | hk
  · exact hs hstate
  · exact hk hkill

/-- Run a sequence of operations whose promises hold and that enter the scheduler in calm
states. -/
def runCalm : List Op → Kernel Pointers → Option (Kernel Pointers)
  | [], k => some k
  | op :: ops, k =>
      if op.check k.toGlobals ∧ (op.entry k).all (fun r ↦ r.2.calmCheck) then
        (op.run k).bind (runCalm ops)
      else none

theorem Op.entersCalm_of_check {k : Kernel Pointers} {a : Kernel Lists} (h : Sound k a) {op : Op}
    (hop : op.Enabled k.toGlobals) (hcheck : (op.entry k).all (fun r ↦ r.2.calmCheck) = true) :
    op.EntersCalm k := by
  intro k₁ hentry
  obtain ⟨b, k₂, a₁, hentry', hsim₁, ha₁, -⟩ := h.entry hop
  obtain ⟨-, rfl⟩ : true = b ∧ k₁ = k₂ := by
    simpa using Option.some.inj (hentry.symm.trans hentry')
  rw [hentry, Option.all_some] at hcheck
  refine Globals.calm_of_check ?_ hcheck
  rw [hsim₁.globals]
  exact ha₁.table

theorem CalmReachable.runCalm {k k' : Kernel Pointers} (h : CalmReachable k) {ops : List Op}
    (hrun : runCalm ops k = some k') : CalmReachable k' := by
  induction ops generalizing k with
  | nil =>
      obtain rfl := Option.some.inj hrun
      exact h
  | cons op ops ih =>
      rw [DemosOS.runCalm] at hrun
      split_ifs at hrun with hcheck
      obtain ⟨k₁, hk₁, hrun⟩ := Option.bind_eq_some_iff.mp hrun
      obtain ⟨a, ha⟩ := h.reachable.sound
      have hop : op.Enabled k.toGlobals := by
        refine Op.enabled_of_check ?_ hcheck.1
        rw [ha.sim.globals]
        exact ha.inv.table
      have hcalm := Op.entersCalm_of_check ha hop hcheck.2
      obtain ⟨algorithm, timerClo, hsteps⟩ := h
      exact ih ⟨algorithm, timerClo, hsteps.tail ⟨op, hop, hcalm, hk₁⟩⟩ hrun

/-- The first of two processes waits for the second, which then terminates: the first is
ready, and linked once, when the scheduler is entered. -/
theorem rendezvous_of_calm_roundRobin :
    ∃ k k₁, runCalm [.add (.page 0) (childOfInit 1), .add (.page 1) (childOfInit 2), .tick, .wait 2]
        (Kernel.boot .roundRobin fun _ ↦ 0) = some k ∧ Op.exit.entry k = some (true, k₁) ∧
      (k₁.pcb (.page 0)).state = .ready ∧ (k₁.pcb (.page 0)).pidToWait = -1 ∧
      k₁.LinkedOnce (.page 0) := by
  have hrun : (runCalm [.add (.page 0) (childOfInit 1), .add (.page 1) (childOfInit 2), .tick,
      .wait 2] (Kernel.boot .roundRobin fun _ ↦ 0)).any (fun k ↦
        k.processes 1 = some (.page 0) ∧ k.processes 2 = some (.page 1) ∧
        k.currentProcess = .page 1 ∧ (k.pcb (.page 1)).state = .running ∧
        (k.pcb (.page 0)).state = .waitingAnotherProcess ∧
        (k.pcb (.page 0)).pidToWait = (k.pcb (.page 1)).pid ∧
        (Op.exit.entry k).any fun r ↦ r.1 = true ∧ (r.2.pcb (.page 1)).state = .zombie ∧
          r.2.calmCheck = true) = true := by
    decide +kernel
  obtain ⟨k, hk, hprop⟩ := (Option.any_eq_true _ _).mp hrun
  obtain ⟨hslot₁, hslot₂, hcur, hrunning, hwaiting, hpid, hentry⟩ := of_decide_eq_true hprop
  obtain ⟨⟨b, k₁⟩, hk₁, hentry⟩ := (Option.any_eq_true _ _).mp hentry
  obtain ⟨rfl, hzombie, hcheck⟩ := of_decide_eq_true hentry
  have hreach : CalmReachable k := CalmReachable.runCalm ⟨_, _, Relation.ReflTransGen.refl⟩ hk
  have hop : Op.exit.Enabled k.toGlobals := by
    simp [Op.Enabled, hcur]
  obtain ⟨a, ha⟩ := hreach.reachable.sound
  have hcalm := Op.entersCalm_of_check ha hop (by rw [hk₁, Option.all_some]; exact hcheck)
  have hreleased := ((rendezvous_of_calm hreach).2 .exit true k₁ hop hcalm hk₁).2.1
  exact ⟨k, k₁, hk, hk₁, hreleased (.page 0) (.page 1) ⟨1, hslot₁⟩ ⟨2, hslot₂⟩
    (by rw [hrunning]; simp) hzombie ⟨hwaiting, hpid⟩⟩

/-- Somebody can wait for a zombie: the second process is killed while the first waits
for it. -/
theorem rendezvous_false :
    ¬ ∀ k : Kernel Pointers, Reachable k → k.NoOrphan := by
  intro hclaim
  have hrun : (runAll [.add (.page 0) (childOfInit 1), .add (.page 1) (childOfInit 2), .tick,
      .wait 2, .signal 2 SIGNAL_KILL, .yield] (Kernel.boot .roundRobin fun _ ↦ 0)).any (fun k ↦
        k.processes 1 = some (.page 0) ∧ k.processes 2 = some (.page 1) ∧
        (k.pcb (.page 1)).state = .zombie ∧ (k.pcb (.page 0)).state = .waitingAnotherProcess ∧
        (k.pcb (.page 0)).pidToWait = (k.pcb (.page 1)).pid) = true := by
    decide +kernel
  obtain ⟨k, hk, hprop⟩ := (Option.any_eq_true _ _).mp hrun
  obtain ⟨hslot₁, hslot₂, hzombie, hwaiting, hpid⟩ := of_decide_eq_true hprop
  exact hclaim k ((reachable_boot _ _).runAll hk) (.page 0) (.page 1) ⟨1, hslot₁⟩ ⟨2, hslot₂⟩
    hzombie ⟨hwaiting, hpid⟩

end DemosOS
