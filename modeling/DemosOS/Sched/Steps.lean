import DemosOS.Sched.Consistency

/-!
# Operations on lists

Every operation as a function on the list kernel, and the theorem that the kernel performs
it: from a state between two operations, an enabled operation ends in the state the function
gives.  What holds of runs of the functions then holds of runs of the kernel.

A `Follows` run is a list of operations, each with the state in which it ends.
-/

namespace DemosOS

open Lib

/-- The processes linked in the queue `q` are those of the list, in this order. -/
def Kernel.Queue (k : Kernel Pointers) (q : QueueId) (l : List PcbPtr) : Prop :=
  Chain k.queues.next (k.queues.ends q).head l

instance (k : Kernel Pointers) (q : QueueId) (l : List PcbPtr) : Decidable (k.Queue q l) :=
  inferInstanceAs (Decidable (Chain _ _ _))

/-- The queue `q` is the list, from its head to its tail. -/
structure Kernel.WellLinked (k : Kernel Pointers) (q : QueueId) (l : List PcbPtr) : Prop where
  queue : k.Queue q l
  tail : (k.queues.ends q).tail = l.getLast?

theorem Sim.wellLinked {k : Kernel Pointers} {a : Kernel Lists} (h : Sim k a) {q : QueueId}
    {l : List PcbPtr} (hl : a.queues q = l) : k.WellLinked q l :=
  hl ▸ ⟨h.queues.chain q, h.queues.tail q⟩

/-! ## The functions -/

namespace Spec

/-- `add_process_to_scheduler`. -/
def addProcess (p : PcbPtr) (a : Kernel Lists) : Kernel Lists :=
  if a.nProcesses ≥ N_PROCESSES ∨ (a.pcb p).pid ≥ N_PROCESSES then a
  else
    let a := a.mapGlobals (·.register p)
    let a := if (a.pcb p).state = .ready then enqueue p a else a
    a.mapGlobals fun g ↦ { g with nProcesses := g.nProcesses + 1 }

/-- An operation up to its call of the scheduler. -/
def entry (a : Kernel Lists) : Op → Option (Bool × Kernel Lists)
  | .add p b => some (false, addProcess p (a.mapGlobals (·.modifyPcb p fun _ ↦ b)))
  | .wake p => some (false, enqueue p (a.mapGlobals (·.setState p .ready)))
  | .yield => some (true,
      (a.mapGlobals fun g ↦ g.setCounter g.currentProcess 0).mapGlobals (·.endBurst))
  | .block s => some (true,
      (a.mapGlobals fun g ↦ g.setState g.currentProcess s).mapGlobals (·.endBurst))
  | .wait pid =>
      match a.searchProcess pid with
      | none => some (false, a)
      | some p =>
          if (a.pcb p).state = .zombie then some (false, a)
          else some (true, (a.mapGlobals fun g ↦ g.modifyPcb g.currentProcess fun b ↦
            { b with state := .waitingAnotherProcess, pidToWait := pid }).mapGlobals (·.endBurst))
  | .exit => some (true, (terminate a).mapGlobals (·.endBurst))
  | .tick => tickEntry a
  | .signal pid f => some (false, a.mapGlobals fun g ↦ (g.syscallSendSignal pid f).2)
  | .setParam pid param value =>
      some (false, a.mapGlobals fun g ↦ (g.syscallSetSchedParam pid param value).2)

/-- An operation. -/
def run (a : Kernel Lists) (op : Op) : Option (Kernel Lists) := entry a op >>= continueWith

end Spec

/-! ## The refinement -/

/-- Registering a process, in the kernel and on lists. -/
theorem Sim.addProcess {k : Kernel Pointers} {a : Kernel Lists} (h : Sim k a) {p : PcbPtr}
    (hfree : ∀ q, p ∉ a.queues q) (hlen : ∀ q, (a.queues q).length ≤ N_PROCESSES) :
    ∃ r k', k.addProcessToScheduler p = some (r, k') ∧ Sim k' (Spec.addProcess p a) := by
  unfold Kernel.addProcessToScheduler Spec.addProcess
  simp only [h.globals]
  have h₁ := h.mapGlobals (·.register p)
  have hstate : ((k.mapGlobals (·.register p)).pcb p).state =
      ((a.mapGlobals (·.register p)).pcb p).state := by rw [h₁.globals]
  split_ifs with hfull hready hready' hready'
  · exact ⟨_, _, rfl, h⟩
  · obtain ⟨k', hk', h'⟩ := h₁.enqueueProcess (fun _ ↦ hfree) hlen
    simp only [hk', Option.bind_eq_bind, Option.bind_some]
    exact ⟨_, _, rfl, h'.mapGlobals _⟩
  · exact absurd (hstate.symm.trans hready) hready'
  · exact absurd (hstate.trans hready') hready
  · exact ⟨_, _, rfl, h₁.mapGlobals _⟩

namespace Sound

variable {k k' : Kernel Pointers} {a : Kernel Lists} {op : Op}

/-- The entry of an operation, in the kernel and on lists. -/
theorem entry_refines (h : Sound k a) (hop : op.Enabled k.toGlobals) :
    ∃ b k₁ a₁, op.entry k = some (b, k₁) ∧ Spec.entry a op = some (b, a₁) ∧ Sim k₁ a₁ := by
  obtain ⟨hsim, ha, hsettled⟩ := h
  rw [hsim.globals] at hop
  cases op with
  | add p b =>
      obtain ⟨hp, -, -, -⟩ := hop
      have hfree : ∀ q, p ∉ a.queues q := fun q hq ↦ hp (ha.known q p hq)
      obtain ⟨r, k', hk', h'⟩ :=
        (hsim.mapGlobals (·.modifyPcb p fun _ ↦ b)).addProcess hfree ha.length_le
      exact ⟨false, k', _, by simp [Op.entry, Op.run, hk'], rfl, h'⟩
  | wake p =>
      obtain ⟨-, -, hwaiting⟩ := hop
      have hfree : ∀ q, p ∉ a.queues q := by
        intro q hq
        rw [ha.ready q p hq] at hwaiting
        exact hwaiting
      obtain ⟨k', hk', h'⟩ := (hsim.mapGlobals (·.setState p .ready)).enqueueProcess (p := p)
        (fun _ ↦ hfree) ha.length_le
      exact ⟨false, k', _, by simp [Op.entry, Op.run, hk'], rfl, h'⟩
  | yield => exact ⟨true, _, _, rfl, rfl, (hsim.mapGlobals _).mapGlobals _⟩
  | block s => exact ⟨true, _, _, rfl, rfl, (hsim.mapGlobals _).mapGlobals _⟩
  | wait pid =>
      have hsearch : k.searchProcess pid = a.searchProcess pid := by rw [hsim.globals]
      simp only [Op.entry, Spec.entry, hsearch]
      cases a.searchProcess pid with
      | none => exact ⟨false, k, a, rfl, rfl, hsim⟩
      | some p =>
          have hpcb : (k.pcb p).state = (a.pcb p).state := by rw [hsim.globals]
          simp only [hpcb]
          split_ifs
          · exact ⟨false, k, a, rfl, rfl, hsim⟩
          · exact ⟨true, _, _, rfl, rfl, (hsim.mapGlobals _).mapGlobals _⟩
  | exit =>
      obtain ⟨k₁, hk₁, hsim₁, -, -⟩ := hsim.terminate ha hsettled hop
      exact ⟨true, _, _, by simp [Op.entry, hk₁], rfl, hsim₁.mapGlobals (·.endBurst)⟩
  | tick =>
      obtain ⟨b, a', k', ha', hk', hsim', -, -⟩ := hsim.tickEntry ha
      exact ⟨b, k', a', hk', ha', hsim'⟩
  | signal pid f => exact ⟨false, _, _, rfl, rfl, hsim.mapGlobals _⟩
  | setParam pid param value => exact ⟨false, _, _, rfl, rfl, hsim.mapGlobals _⟩

/-- An enabled operation, in the kernel and on lists. -/
theorem refines (h : Sound k a) (hop : op.Enabled k.toGlobals) (hrun : op.run k = some k') :
    ∃ b k₁ a₁ a', op.entry k = some (b, k₁) ∧ Spec.entry a op = some (b, a₁) ∧ Sim k₁ a₁ ∧
      Inv a₁ ∧ Passage a a₁ ∧ Spec.continueWith (b, a₁) = some a' ∧
      (b = true → Invocation a₁ a') ∧ Sound k' a' := by
  obtain ⟨b, k₁, a₁, hentry, hspec, h₁⟩ := h.entry_refines hop
  obtain ⟨b', k₁', a₁', hentry', h₁', ha₁, hs₁, hpass⟩ := h.entry hop
  obtain ⟨rfl, rfl⟩ := Prod.mk.inj (Option.some.inj (hentry'.symm.trans hentry))
  obtain rfl := h₁'.unique h₁
  rw [Op.run_eq, hentry] at hrun
  cases b' with
  | false =>
      obtain rfl := Option.some.inj hrun
      exact ⟨false, k₁', a₁', a₁', hentry, hspec, h₁, ha₁, hpass, rfl, by simp, h₁, ha₁, hs₁ rfl⟩
  | true =>
      obtain ⟨a', ha', hinv⟩ := ha₁.pickNext
      obtain ⟨k'', hk'', h'⟩ := h₁.pickNext ha₁.schedulable ha'
      obtain rfl := Option.some.inj (hk''.symm.trans hrun)
      exact ⟨true, k₁', a₁', a', hentry, hspec, h₁, ha₁, hpass, ha', fun _ ↦ hinv, h',
        hinv.inv ha₁, hinv.settled⟩

end Sound

/-! ## What an operation leaves alone -/

namespace Spec

variable {a a₁ : Kernel Lists}

/-- The bookkeeping of a tick leaves the control blocks alone. -/
theorem onTick_pcb (h : onTick a = some a₁) : a₁.pcb = a.pcb := by
  unfold onTick at h
  split at h
  · obtain rfl := Option.some.inj h
    rfl
  · obtain ⟨policy, -, rfl⟩ := Option.map_eq_some_iff.mp h
    unfold multilevelOnTick
    dsimp only
    have hdemote : ∀ g : Globals, (g.demote policy).pcb = g.pcb := by
      intro g
      unfold Globals.demote
      split_ifs <;> rfl
    rw [Kernel.mapGlobals_toGlobals, hdemote]
    split_ifs <;> rfl

section

variable {α : Type} {π : PCB → α}
  (hπ : ∀ (b : PCB) (s : ProcessState) (w n c e t : Int), π { b with
    state := s, pidToWait := w, preemptDisabled := n, counter := c, estBurst := e,
    burstTicks := t } = π b)
include hπ

theorem enqueue_field (p : PcbPtr) (a : Kernel Lists) (x : PcbPtr) :
    π ((enqueue p a).pcb x) = π (a.pcb x) := by
  unfold enqueue
  split_ifs
  · rfl
  · exact Globals.setState_field _ _ _ π (fun b s ↦ hπ b s _ _ _ _ _) x

theorem wakeWaiter_field (a : Kernel Lists) (i : Nat) (x : PcbPtr) :
    π ((wakeWaiter a i).pcb x) = π (a.pcb x) := by
  unfold wakeWaiter
  split
  · rfl
  · split_ifs
    · exact (enqueue_field hπ _ _ x).trans
        (Globals.modifyPcb_field _ _ _ _ π fun b ↦ hπ b _ _ _ _ _ _)
    · rfl

theorem terminate_field (a : Kernel Lists) (x : PcbPtr) :
    π ((terminate a).pcb x) = π (a.pcb x) := by
  have hslots : ∀ (slots : List Nat) (a : Kernel Lists),
      π ((slots.foldl wakeWaiter a).pcb x) = π (a.pcb x) := by
    intro slots
    induction slots with
    | nil => exact fun _ ↦ rfl
    | cons i slots ih => exact fun a ↦ (ih _).trans (wakeWaiter_field hπ a i x)
  have hmark : π ((a.toGlobals.preemptDisable.setState a.currentProcess .zombie).pcb x) =
      π (a.pcb x) :=
    (Globals.setState_field _ _ _ π (fun b s ↦ hπ b s _ _ _ _ _) x).trans
      (preemptDisable_field _ π (fun b n ↦ hπ b _ _ n _ _ _) x)
  unfold terminate
  generalize List.range N_PROCESSES = slots at hslots
  exact (Globals.modifyPcb_field _ _ _ _ π fun b ↦ hπ b _ _ _ _ _ _).trans
    ((hslots slots _).trans hmark)

theorem endBurst_field (g : Globals) (x : PcbPtr) : π (g.endBurst.pcb x) = π (g.pcb x) := by
  unfold Globals.endBurst
  refine (Globals.modifyPcb_field _ _ _ _ π fun b ↦ hπ b _ _ _ _ _ _).trans ?_
  split_ifs
  · exact Globals.modifyPcb_field _ _ _ _ π fun b ↦ hπ b _ _ _ _ _ _
  · rfl

theorem tickEntry_field {b : Bool} (h : tickEntry a = some (b, a₁)) (x : PcbPtr) :
    π (a₁.pcb x) = π (a.pcb x) := by
  obtain ⟨a₂, ha₂, h⟩ := Option.bind_eq_some_iff.mp h
  have hcharge : π (a₂.pcb x) = π (a.pcb x) := by
    rw [onTick_pcb ha₂]
    exact Globals.modifyPcb_field _ _ _ _ π fun b ↦ hπ b _ _ _ _ _ _
  have hreset : π ((a₂.toGlobals.setCounter a₂.currentProcess 0).pcb x) = π (a₂.pcb x) :=
    Globals.modifyPcb_field _ _ _ _ π fun b ↦ hπ b _ _ _ _ _ _
  dsimp only at h
  split_ifs at h
  · obtain ⟨-, rfl⟩ := Prod.mk.inj (Option.some.inj h)
    exact hcharge
  · obtain ⟨-, rfl⟩ := Prod.mk.inj (Option.some.inj h)
    exact hreset.trans hcharge
  · obtain ⟨-, rfl⟩ := Prod.mk.inj (Option.some.inj h)
    exact hreset.trans hcharge

theorem addProcess_field (p : PcbPtr) (a : Kernel Lists) (x : PcbPtr) :
    π ((addProcess p a).pcb x) = π (a.pcb x) := by
  unfold addProcess
  dsimp only
  split_ifs
  · rfl
  · exact enqueue_field hπ _ _ x
  · rfl

/-- The part of an operation before the scheduler leaves such a field alone, unless it creates
the process or is a signal or a change of parameters. -/
theorem entry_field {op : Op} {b : Bool} (h : entry a op = some (b, a₁)) {x : PcbPtr}
    (hadd : ∀ b, op ≠ .add x b) (hsignal : ∀ pid f, op ≠ .signal pid f)
    (hparam : ∀ pid param value, op ≠ .setParam pid param value) :
    π (a₁.pcb x) = π (a.pcb x) := by
  have hcur : ∀ f : PCB → PCB, (∀ b, π (f b) = π b) →
      π (((a.toGlobals.modifyPcb a.currentProcess f).endBurst).pcb x) = π (a.pcb x) :=
    fun f hf ↦ (endBurst_field hπ _ x).trans (Globals.modifyPcb_field _ _ _ _ π hf)
  cases op with
  | add p b =>
      obtain ⟨-, rfl⟩ := Prod.mk.inj (Option.some.inj h)
      have hx : x ≠ p := by
        rintro rfl
        exact hadd b rfl
      have hb : (a.toGlobals.modifyPcb p fun _ ↦ b).pcb x = a.pcb x :=
        Globals.modifyPcb_pcb_of_ne _ _ hx
      exact (addProcess_field hπ p _ x).trans (congrArg π hb)
  | wake p =>
      obtain ⟨-, rfl⟩ := Prod.mk.inj (Option.some.inj h)
      exact (enqueue_field hπ _ _ x).trans
        (Globals.setState_field _ _ _ π (fun b s ↦ hπ b s _ _ _ _ _) x)
  | yield =>
      obtain ⟨-, rfl⟩ := Prod.mk.inj (Option.some.inj h)
      exact hcur _ fun b ↦ hπ b _ _ _ _ _ _
  | block s =>
      obtain ⟨-, rfl⟩ := Prod.mk.inj (Option.some.inj h)
      exact hcur _ fun b ↦ hπ b _ _ _ _ _ _
  | wait pid =>
      simp only [entry] at h
      split at h
      · obtain ⟨-, rfl⟩ := Prod.mk.inj (Option.some.inj h)
        rfl
      · split_ifs at h
        · obtain ⟨-, rfl⟩ := Prod.mk.inj (Option.some.inj h)
          rfl
        · obtain ⟨-, rfl⟩ := Prod.mk.inj (Option.some.inj h)
          exact hcur _ fun b ↦ hπ b _ _ _ _ _ _
  | exit =>
      obtain ⟨-, rfl⟩ := Prod.mk.inj (Option.some.inj h)
      exact (endBurst_field hπ _ x).trans (terminate_field hπ a x)
  | tick => exact tickEntry_field hπ h x
  | signal pid f => exact absurd rfl (hsignal pid f)
  | setParam pid param value => exact absurd rfl (hparam pid param value)

end

/-- What an operation other than a tick can write before it calls the scheduler. -/
theorem entry_global {β : Type} {π : Globals → β}
    (hπ : ∀ (g : Globals) (pcb : PcbPtr → PCB) (processes : Nat → Option PcbPtr) (n : Nat)
      (queueLevel : Nat → Nat), π { g with pcb, processes, nProcesses := n, queueLevel } = π g)
    {op : Op} {b : Bool} (h : entry a op = some (b, a₁)) (hop : op ≠ .tick) :
    π a₁.toGlobals = π a.toGlobals := by
  have hpcb : ∀ (g : Globals) (p : PcbPtr) (f : PCB → PCB), π (g.modifyPcb p f) = π g :=
    fun g p f ↦ hπ g _ g.processes g.nProcesses g.queueLevel
  -- the same, for a write that does not show as one
  have hwrites : ∀ {g g' : Globals},
      g' = { g with pcb := g'.pcb, queueLevel := g'.queueLevel } → π g' = π g := by
    intro g g' hg
    rw [hg]
    exact hπ g g'.pcb g.processes g.nProcesses g'.queueLevel
  have henqueue : ∀ (p : PcbPtr) (a : Kernel Lists), π (enqueue p a).toGlobals = π a.toGlobals := by
    intro p a
    rw [enqueue_data]
    exact hπ a.toGlobals _ a.processes a.nProcesses a.queueLevel
  have hburst : ∀ g : Globals, π g.endBurst = π g := by
    intro g
    unfold Globals.endBurst
    refine (hpcb _ _ _).trans ?_
    split_ifs
    · exact hpcb _ _ _
    · rfl
  have hslots : ∀ (slots : List Nat) (a : Kernel Lists),
      π (slots.foldl wakeWaiter a).toGlobals = π a.toGlobals := by
    intro slots
    induction slots with
    | nil => exact fun _ ↦ rfl
    | cons i slots ih =>
        intro a
        rw [List.foldl_cons, ih, wakeWaiter]
        split
        · rfl
        · split_ifs
          · exact (henqueue _ _).trans (hwrites rfl)
          · rfl
  cases op with
  | add p b =>
      obtain ⟨-, rfl⟩ := Prod.mk.inj (Option.some.inj h)
      have hwrite := hpcb a.toGlobals p fun _ ↦ b
      have hregister : ∀ a : Kernel Lists, π (a.mapGlobals (·.register p)).toGlobals =
          π a.toGlobals := fun a ↦ hπ a.toGlobals a.pcb _ a.nProcesses _
      have hcount : ∀ g : Globals, π { g with nProcesses := g.nProcesses + 1 } = π g := fun g ↦
        hπ g g.pcb g.processes _ g.queueLevel
      unfold addProcess
      dsimp only
      split_ifs
      · exact hwrite
      · exact (hcount _).trans ((henqueue _ _).trans ((hregister _).trans hwrite))
      · exact (hcount _).trans ((hregister _).trans hwrite)
  | wake p =>
      obtain ⟨-, rfl⟩ := Prod.mk.inj (Option.some.inj h)
      exact (henqueue _ _).trans (hwrites rfl)
  | yield =>
      obtain ⟨-, rfl⟩ := Prod.mk.inj (Option.some.inj h)
      exact (hburst _).trans (hwrites rfl)
  | block s =>
      obtain ⟨-, rfl⟩ := Prod.mk.inj (Option.some.inj h)
      exact (hburst _).trans (hwrites rfl)
  | wait pid =>
      simp only [entry] at h
      split at h
      · obtain ⟨-, rfl⟩ := Prod.mk.inj (Option.some.inj h)
        rfl
      · split_ifs at h
        · obtain ⟨-, rfl⟩ := Prod.mk.inj (Option.some.inj h)
          rfl
        · obtain ⟨-, rfl⟩ := Prod.mk.inj (Option.some.inj h)
          exact (hburst _).trans (hwrites rfl)
  | exit =>
      obtain ⟨-, rfl⟩ := Prod.mk.inj (Option.some.inj h)
      refine (hburst _).trans ?_
      unfold terminate
      generalize List.range N_PROCESSES = slots
      have henable : ∀ a : Kernel Lists, π (a.mapGlobals (·.preemptEnable)).toGlobals =
          π a.toGlobals := fun _ ↦ hwrites rfl
      exact (henable _).trans ((hslots slots _).trans (hwrites rfl))
  | tick => exact absurd rfl hop
  | signal pid f =>
      obtain ⟨-, rfl⟩ := Prod.mk.inj (Option.some.inj h)
      show π (a.toGlobals.syscallSendSignal pid f).2 = _
      unfold Globals.syscallSendSignal
      split
      · rfl
      · exact hwrites rfl
  | setParam pid param value =>
      obtain ⟨-, rfl⟩ := Prod.mk.inj (Option.some.inj h)
      show π (a.toGlobals.syscallSetSchedParam pid param value).2 = _
      unfold Globals.syscallSetSchedParam
      split
      · rfl
      · rename_i p _
        obtain hsame | ⟨f, hset, -⟩ | ⟨v, -, -, hset⟩ :=
          schedSetParam_cases a.toGlobals p param value
        · rw [hsame]
        · rw [hset]
          exact hpcb _ _ _
        · rw [hset]
          exact hwrites rfl

/-- No operation changes the algorithm. -/
theorem entry_activeAlgorithm {op : Op} {b : Bool} (h : entry a op = some (b, a₁)) :
    a₁.activeAlgorithm = a.activeAlgorithm := by
  cases op with
  | tick =>
      have htick : ∀ {a a₁ : Kernel Lists}, onTick a = some a₁ →
          a₁.activeAlgorithm = a.activeAlgorithm := by
        intro a a₁ h
        unfold onTick at h
        split at h
        · obtain rfl := Option.some.inj h
          rfl
        · obtain ⟨policy, -, rfl⟩ := Option.map_eq_some_iff.mp h
          have hdemote : ∀ g : Globals, (g.demote policy).activeAlgorithm = g.activeAlgorithm := by
            intro g
            unfold Globals.demote
            split_ifs <;> rfl
          unfold multilevelOnTick
          dsimp only
          rw [Kernel.mapGlobals_toGlobals, hdemote]
          split_ifs <;> rfl
      obtain ⟨a₂, ha₂, h⟩ := Option.bind_eq_some_iff.mp h
      have hcharge := htick ha₂
      dsimp only at h
      split_ifs at h
      · obtain ⟨-, rfl⟩ := Prod.mk.inj (Option.some.inj h)
        exact hcharge
      · obtain ⟨-, rfl⟩ := Prod.mk.inj (Option.some.inj h)
        exact hcharge
      · obtain ⟨-, rfl⟩ := Prod.mk.inj (Option.some.inj h)
        exact hcharge
  | add | wake | yield | block | wait | exit | signal | setParam =>
      exact entry_global (fun _ _ _ _ _ ↦ rfl) h nofun

/-- A process that fits in the table is in it afterwards. -/
theorem known_addProcess {p : PcbPtr} (hroom : a.nProcesses < N_PROCESSES)
    (hpid : (a.pcb p).pid < N_PROCESSES) : (addProcess p a).Known p := by
  have hfull : ¬ (a.nProcesses ≥ N_PROCESSES ∨ (a.pcb p).pid ≥ N_PROCESSES) := by omega
  refine ⟨(a.pcb p).pid, ?_⟩
  unfold addProcess
  rw [if_neg hfull]
  dsimp only
  split_ifs
  · rw [Kernel.mapGlobals_toGlobals, enqueue_data]
    exact Function.update_self ..
  · exact Function.update_self ..

/-- A change of parameters writes no other field. -/
theorem setParam_field {α : Type} {π : PCB → α} (hπ : ∀ (b : PCB) (n q r t : Int), π { b with
    preemptDisabled := n, queuePriority := q, priority := r, tickets := t } = π b)
    (g : Globals) (pid param value : Int) (x : PcbPtr) :
    π ((g.syscallSetSchedParam pid param value).2.pcb x) = π (g.pcb x) := by
  unfold Globals.syscallSetSchedParam
  split
  · rfl
  · rename_i p _
    obtain h | ⟨f, h, hf⟩ | ⟨v, -, -, h⟩ := schedSetParam_cases g p param value
    · rw [h]
    · rw [h]
      refine Globals.modifyPcb_field _ _ _ _ π fun b ↦ ?_
      obtain ⟨v, -, rfl⟩ | ⟨v, rfl⟩ := hf
      · exact hπ b _ _ v _
      · exact hπ b _ _ _ v
    · rw [h]
      exact setQueuePriority_field g p v π (fun b n ↦ hπ b n _ _ _) (fun b n ↦ hπ b _ n _ _) x

theorem setParam_activeAlgorithm (g : Globals) (pid param value : Int) :
    (g.syscallSetSchedParam pid param value).2.activeAlgorithm = g.activeAlgorithm := by
  unfold Globals.syscallSetSchedParam
  split
  · rfl
  · rename_i p _
    obtain h | ⟨f, h, -⟩ | ⟨v, -, -, h⟩ := schedSetParam_cases g p param value <;> rw [h] <;> rfl

/-- A level that exists is set as it is. -/
theorem schedSetParam_queuePriority (g : Globals) {p : PcbPtr} {value : Int}
    (hp : p ≠ .initProcess) (hlow : 0 ≤ value) (hhigh : value < ML_MAX_LEVELS) :
    (g.schedSetParam p Globals.SCHED_PARAM_QUEUE_PRIORITY value).2 =
      g.setQueuePriority p value := by
  have hclamp : g.clampLevel value = value := by
    have hlt : ¬ value ≥ (5 : Nat) := by
      unfold ML_MAX_LEVELS at hhigh
      omega
    unfold Globals.clampLevel Globals.algorithm
    cases g.activeAlgorithm with
    | mlq => exact if_neg hlt
    | mlfq => exact if_neg hlt
    | roundRobin | fcfs | sjf | lottery | priorityAging => rfl
  have hrange : ¬ (value < 0 ∨ value ≥ ML_MAX_LEVELS) := by omega
  unfold Globals.schedSetParam
  rw [if_neg hp, if_neg (by decide), if_neg (by decide), if_pos rfl, if_neg hrange, hclamp]

theorem setQueuePriority_self (g : Globals) (p : PcbPtr) (v : Int) :
    ((g.setQueuePriority p v).pcb p).queuePriority = v := by
  have hset : ((g.preemptDisable.modifyPcb p fun b ↦ { b with queuePriority := v }).pcb
      p).queuePriority = v := by rw [Globals.modifyPcb_pcb_self]
  refine (Globals.modifyPcb_field _ _ _ (fun b ↦
    { b with preemptDisabled := b.preemptDisabled - 1 }) PCB.queuePriority fun _ ↦ rfl).trans ?_
  exact hset

/-- Only `send_signal` makes a signal pending. -/
theorem entry_pendingSignals {op : Op} {b : Bool} (h : entry a op = some (b, a₁))
    (htable : a.Table) {x : PcbPtr} (hadd : ∀ b, op ≠ .add x b)
    (hsignal : ∀ pid f, op = .signal pid f → ((a.pcb x).pid : Int) ≠ pid) :
    (a₁.pcb x).pendingSignals = (a.pcb x).pendingSignals := by
  cases op with
  | signal pid f =>
      obtain ⟨-, rfl⟩ := Prod.mk.inj (Option.some.inj h)
      rw [Kernel.mapGlobals_toGlobals, Globals.syscallSendSignal]
      cases hs : a.searchProcess pid with
      | none => rfl
      | some p =>
          have hx : x ≠ p := by
            rintro rfl
            exact hsignal pid f rfl (htable.searchProcess_eq_some.mp hs).2
          show ((a.toGlobals.sendSignal p f).pcb x).pendingSignals = _
          rw [Globals.sendSignal, Globals.modifyPcb_pcb_of_ne _ _ hx]
  | setParam pid param value =>
      obtain ⟨-, rfl⟩ := Prod.mk.inj (Option.some.inj h)
      exact setParam_field (fun _ _ _ _ _ ↦ rfl) a.toGlobals pid param value x
  | add | wake | yield | block | wait | exit | tick =>
      exact entry_field (fun _ _ _ _ _ _ _ ↦ rfl) h hadd (by simp) (by simp)

end Spec

namespace Sound

variable {k k' : Kernel Pointers} {a : Kernel Lists} {op : Op}

/-- An operation keeps the algorithm, the processes of the table and their pids. -/
theorem step_same (h : Sound k a) (hop : op.Enabled k.toGlobals) (hrun : op.run k = some k') :
    k'.activeAlgorithm = k.activeAlgorithm ∧
      ∀ p, k.Known p → k'.Known p ∧ (k'.pcb p).pid = (k.pcb p).pid := by
  obtain ⟨b, k₁, a₁, a', -, hspec, -, -, hpass, hcont, hinv, h'⟩ := h.refines hop hrun
  have halg := Spec.entry_activeAlgorithm hspec
  rw [h.sim.globals, h'.sim.globals]
  cases b with
  | false =>
      obtain rfl := Option.some.inj hcont
      exact ⟨halg, fun p hp ↦ ⟨hpass.known hp, hpass.pid hp⟩⟩
  | true =>
      have hfrozen := (hinv rfl).frozen
      refine ⟨(Globals.activeAlgorithm_of_frozen hfrozen).trans halg, fun p hp ↦ ⟨?_, ?_⟩⟩
      · exact (Globals.known_of_frozen hfrozen p).mpr (hpass.known hp)
      · exact (Globals.field_of_frozen hfrozen PCB.pid (fun _ ↦ rfl) p).trans (hpass.pid hp)

end Sound

/-! ## Runs with their states -/

/-- The operations can be performed one after the other, and each ends in the state that is
given with it. -/
def Follows : Kernel Pointers → List (Op × Kernel Pointers) → Prop
  | _, [] => True
  | k, (op, k') :: steps => op.Enabled k.toGlobals ∧ op.run k = some k' ∧ Follows k' steps

/-- The state in which a run ends. -/
def lastState (k : Kernel Pointers) : List (Op × Kernel Pointers) → Kernel Pointers
  | [] => k
  | (_, k') :: steps => lastState k' steps

/-- The operation enters the scheduler. -/
def Op.invokes (k : Kernel Pointers) (op : Op) : Bool := (op.entry k).any (·.1)

/-- The processes chosen by the scheduler invocations of a run, in order. -/
def dispatches : Kernel Pointers → List (Op × Kernel Pointers) → List PcbPtr
  | _, [] => []
  | k, (op, k') :: steps =>
      (if op.invokes k then [k'.currentProcess] else []) ++ dispatches k' steps

/-- Every operation of a run is one that `P` admits in the state in which it starts. -/
def Along (P : Kernel Pointers → Op → Prop) : Kernel Pointers → List (Op × Kernel Pointers) → Prop
  | _, [] => True
  | k, (op, k') :: steps => P k op ∧ Along P k' steps

instance Along.decidable (P : Kernel Pointers → Op → Prop) [∀ k op, Decidable (P k op)] :
    ∀ k steps, Decidable (Along P k steps)
  | _, [] => inferInstanceAs (Decidable True)
  | k, (op, k') :: steps =>
      have := Along.decidable P k' steps
      inferInstanceAs (Decidable (P k op ∧ Along P k' steps))

/-- The run of a list of operations. -/
def trace : List Op → Kernel Pointers → Option (List (Op × Kernel Pointers))
  | [], _ => some []
  | op :: ops, k =>
      if op.check k.toGlobals then do
        let k' ← op.run k
        let steps ← trace ops k'
        some ((op, k') :: steps)
      else none

theorem Op.invokes_eq {k k₁ : Kernel Pointers} {op : Op} {b : Bool}
    (h : op.entry k = some (b, k₁)) : op.invokes k = b := by
  rw [Op.invokes, h]
  rfl

/-- A run up to some point is a run. -/
theorem Follows.of_append {k : Kernel Pointers} {steps rest : List (Op × Kernel Pointers)}
    (h : Follows k (steps ++ rest)) : Follows k steps := by
  induction steps generalizing k with
  | nil => trivial
  | cons s steps ih => exact ⟨h.1, h.2.1, ih h.2.2⟩

theorem Along.of_append {P : Kernel Pointers → Op → Prop} {k : Kernel Pointers}
    {steps rest : List (Op × Kernel Pointers)} (h : Along P k (steps ++ rest)) :
    Along P k steps := by
  induction steps generalizing k with
  | nil => trivial
  | cons s steps ih => exact ⟨h.1, ih h.2⟩

theorem Along.mono {P P' : Kernel Pointers → Op → Prop} {k : Kernel Pointers}
    {steps : List (Op × Kernel Pointers)} (h : Along P k steps) (hP : ∀ k op, P k op → P' k op) :
    Along P' k steps := by
  induction steps generalizing k with
  | nil => trivial
  | cons s steps ih => exact ⟨hP _ _ h.1, ih h.2⟩

theorem Reachable.table {k : Kernel Pointers} (h : Reachable k) : k.Table := by
  obtain ⟨a, ha⟩ := h.sound
  rw [ha.sim.globals]
  exact ha.inv.table

theorem Reachable.step {k k' : Kernel Pointers} (h : Reachable k) {op : Op}
    (hop : op.Enabled k.toGlobals) (hrun : op.run k = some k') : Reachable k' := by
  obtain ⟨algorithm, timerClo, hsteps⟩ := h
  exact ⟨algorithm, timerClo, hsteps.tail ⟨op, hop, hrun⟩⟩

/-- A process that an invocation removes from its queue without choosing it was killed or stopped.
-/
theorem Invocation.removed {a a' : Kernel Lists} (h : Invocation a a') (ha : Inv a) {q : QueueId}
    {x : PcbPtr} (hx : x ∈ (Spec.parked a).queues q) (hgone : x ∉ a'.queues q)
    (hne : x ≠ a'.currentProcess) : (a'.pcb x).state = .zombie ∨ (a'.pcb x).state = .stopped := by
  have hsel := Spec.parked_selectable ha
  have hinit : x ≠ .initProcess := by
    rintro rfl
    exact hsel.init q hx
  cases h.turn x hinit with
  | away hrun => exact absurd (Spec.queued_parked.mp ⟨q, hx⟩) hrun
  | waits _ q' hq' =>
      obtain rfl := hsel.disjoint q' q x ((h.sublist q').subset hq') hx
      exact absurd hq' hgone
  | dispatched _ _ hcur => exact absurd hcur hne
  | killed _ _ _ hstate => exact .inl hstate
  | stopped _ _ _ hstate => exact .inr hstate

/-- An enabled operation that calls the scheduler, in the kernel and on lists. -/
theorem Reachable.invocation {k k₁ : Kernel Pointers} (h : Reachable k) {op : Op}
    (hop : op.Enabled k.toGlobals) (hentry : op.entry k = some (true, k₁)) :
    ∃ k' a₁ a', op.run k = some k' ∧ k₁.pickNext = some k' ∧ Spec.pickNext a₁ = some a' ∧
      Sim k₁ a₁ ∧ Inv a₁ ∧ Sim k' a' ∧ Invocation a₁ a' ∧
      k₁.activeAlgorithm = k.activeAlgorithm := by
  obtain ⟨a, ha⟩ := h.sound
  obtain ⟨k', -, hrun, -⟩ := ha.run hop
  obtain ⟨b, k₁', a₁, a', hentry', hspec, hsim, ha₁, -, hcont, hinv, h'⟩ := ha.refines hop hrun
  obtain ⟨rfl, rfl⟩ := Prod.mk.inj (Option.some.inj (hentry'.symm.trans hentry))
  have hpick : k₁'.pickNext = some k' := by
    rw [Op.run_eq, hentry] at hrun
    exact hrun
  refine ⟨k', a₁, a', hrun, hpick, hcont, hsim, ha₁, h'.sim, hinv rfl, ?_⟩
  rw [hsim.globals, ha.sim.globals]
  exact Spec.entry_activeAlgorithm hspec

theorem Reachable.lastState {k : Kernel Pointers} (h : Reachable k)
    {steps : List (Op × Kernel Pointers)} (hsteps : Follows k steps) :
    Reachable (lastState k steps) := by
  induction steps generalizing k with
  | nil => exact h
  | cons s steps ih => exact ih (h.step hsteps.1 hsteps.2.1) hsteps.2.2

theorem Reachable.of_mem {k : Kernel Pointers} (h : Reachable k)
    {steps : List (Op × Kernel Pointers)} (hsteps : Follows k steps) {s : Op × Kernel Pointers}
    (hs : s ∈ steps) : Reachable s.2 := by
  induction steps generalizing k with
  | nil => exact absurd hs List.not_mem_nil
  | cons s' steps ih =>
      have hnext := h.step hsteps.1 hsteps.2.1
      rcases List.mem_cons.mp hs with rfl | hs
      · exact hnext
      · exact ih hnext hsteps.2.2 hs

/-- A checked run is a run. -/
theorem Reachable.follows_trace {k : Kernel Pointers} (h : Reachable k) {ops : List Op}
    {steps : List (Op × Kernel Pointers)} (htrace : trace ops k = some steps) :
    Follows k steps := by
  induction ops generalizing k steps with
  | nil =>
      obtain rfl := Option.some.inj htrace
      trivial
  | cons op ops ih =>
      rw [trace] at htrace
      split_ifs at htrace with hcheck
      obtain ⟨k', hk', htrace⟩ := Option.bind_eq_some_iff.mp htrace
      obtain ⟨steps', hsteps', htrace⟩ := Option.bind_eq_some_iff.mp htrace
      obtain rfl := Option.some.inj htrace
      have hop : op.Enabled k.toGlobals := Op.enabled_of_check h.table hcheck
      exact ⟨hop, hk', ih (h.step hop hk') hsteps'⟩

end DemosOS
