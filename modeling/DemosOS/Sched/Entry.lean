import DemosOS.Sched.Invariant

/-!
# The way into the scheduler

What the kernel does to the ready queues outside a selection function: the boost and
the bookkeeping of a tick, and the wake-ups of `exit_process`.  For each of them the
refinement of `DemosOS.Sched.Refinement` is completed, and the invariant is shown to
hold again at its end.
-/

namespace DemosOS

open Lib

/-! ## The boost -/

theorem Globals.setState_eq_self {g : Globals} {p : PcbPtr} {s : ProcessState}
    (h : (g.pcb p).state = s) : g.setState p s = g := by
  subst h
  simp [setState, modifyPcb]

namespace Spec

/-- The queues after one queue has been emptied into level 0. -/
def boostQueue (q : Nat) (ls : Lists) : Lists :=
  Function.update (Function.update ls (.mlQueues q) []) (.mlQueues 0)
    (ls (.mlQueues 0) ++ ls (.mlQueues q))

theorem boostQueues_cons {q : Nat} {levels : List Nat} (hq : q ≠ 0) (hlevels : q ∉ levels)
    (h0 : 0 ∉ levels) (ls : Lists) :
    boostQueues (q :: levels) ls = boostQueues levels (boostQueue q ls) := by
  funext i
  cases i with
  | readyQueue => simp [boostQueues, boostQueue]
  | mlQueues i =>
      have hother : ∀ l ∈ levels, boostQueue q ls (.mlQueues l) = ls (.mlQueues l) := by
        intro l hl
        have hl0 : l ≠ 0 := fun e ↦ h0 (e ▸ hl)
        have hlq : l ≠ q := fun e ↦ hlevels (e ▸ hl)
        simp [boostQueue, hl0, hlq]
      have hflat : (levels.flatMap fun l ↦ boostQueue q ls (.mlQueues l)) =
          levels.flatMap fun l ↦ ls (.mlQueues l) := by
        simp only [List.flatMap_def]
        rw [List.map_congr_left hother]
      by_cases hi : i = 0
      · subst hi
        simp only [boostQueues, if_true, hflat]
        simp [boostQueue]
      · by_cases hiq : i = q
        · subst hiq
          simp [boostQueues, hi, hlevels, boostQueue]
        · simp [boostQueues, hi, hiq, boostQueue]

theorem boostQueues_nil (ls : Lists) : boostQueues [] ls = ls := by
  funext i
  cases i with
  | readyQueue => rfl
  | mlQueues i =>
      by_cases hi : i = 0
      · subst hi
        simp [boostQueues]
      · simp [boostQueues, hi]

end Spec

namespace Sim

variable {k : Kernel Pointers} {g : Globals} {ls : Lists}

/-- Emptying one queue into level 0.  The levels of the processes moved are reset on
the way; all of them are below `N_PROCESSES`. -/
theorem boostQueue {q : Nat} {l : List PcbPtr} {fuel : Nat} {lv : Nat → Nat}
    (h : Sim k ⟨{ g with queueLevel := lv }, ls⟩) (hq : q ≠ 0) (hl : ls (.mlQueues q) = l)
    (hmem : ∀ p ∈ l, (g.pcb p).state = .ready ∧ (g.pcb p).pid < N_PROCESSES ∧ p ≠ .initProcess)
    (hfuel : l.length < fuel) :
    ∃ k' lv', k.boostQueue q fuel = some k' ∧ (∀ i, N_PROCESSES ≤ i → lv' i = lv i) ∧
      Sim k' ⟨{ g with queueLevel := lv' }, Spec.boostQueue q ls⟩ := by
  induction l generalizing k ls fuel lv with
  | nil =>
      obtain ⟨fuel, rfl⟩ := Nat.exists_eq_succ_of_ne_zero (Nat.ne_of_gt hfuel)
      refine ⟨k, lv, by simp [Kernel.boostQueue, h.dequeueProcessFrom_nil hl], fun _ _ ↦ rfl, ?_⟩
      have hqs : Spec.boostQueue q ls = ls := by
        rw [Spec.boostQueue, hl, List.append_nil, ← hl, Function.update_eq_self,
          Function.update_eq_self]
      rwa [hqs]
  | cons p l ih =>
      obtain ⟨fuel, rfl⟩ := Nat.exists_eq_succ_of_ne_zero (Nat.ne_of_gt (Nat.zero_lt_of_lt hfuel))
      obtain ⟨hready, hpid, hinit⟩ := hmem p List.mem_cons_self
      obtain ⟨k₁, hdeq, h₁⟩ := h.dequeueProcessFrom_cons hl
      -- `p` has left its queue, so it can be linked again
      have hnd := h.nodup (.mlQueues q)
      simp only [hl] at hnd
      have hfree : ∀ q', p ∉ Function.update ls (.mlQueues q) l q' := by
        intro q'
        by_cases hq' : q' = .mlQueues q
        · subst hq'
          rw [Function.update_self]
          exact (List.nodup_cons.mp hnd).1
        · rw [Function.update_of_ne hq']
          exact fun hp ↦ h.queues.disjoint q' (.mlQueues q) hq' p hp (by simp [hl])
      have h₂ := (h₁.mapGlobals fun g ↦
        { g with queueLevel := Function.update g.queueLevel (g.pcb p).pid 0 }).enqueueProcessTo
          (.mlQueues 0) hinit hfree
      have hstate : (({ g with queueLevel := Function.update lv (g.pcb p).pid 0 } :
          Globals).setState p .ready) =
            { g with queueLevel := Function.update lv (g.pcb p).pid 0 } :=
        Globals.setState_eq_self hready
      simp only [Kernel.mapGlobals_mk, hstate] at h₂
      have hq0 : (QueueId.mlQueues q) ≠ .mlQueues 0 := by simpa using hq
      obtain ⟨k', lv', hk', hlv', h'⟩ := ih h₂ (by simp [hq0])
        (fun x hx ↦ hmem x (List.mem_cons_of_mem _ hx)) (Nat.lt_of_succ_lt_succ hfuel)
      refine ⟨k', lv', by simp [Kernel.boostQueue, hdeq, hk'], fun i hi ↦ ?_, ?_⟩
      · rw [hlv' i hi, Function.update_of_ne]
        omega
      · have hqs : Spec.boostQueue q (Function.update (Function.update ls (.mlQueues q) l)
            (.mlQueues 0) (Function.update ls (.mlQueues q) l (.mlQueues 0) ++ [p])) =
            Spec.boostQueue q ls := by
          funext i
          by_cases hi0 : i = .mlQueues 0
          · subst hi0
            simp [Spec.boostQueue, hq0, hq0.symm, hl]
          · by_cases hiq : i = .mlQueues q
            · subst hiq
              simp [Spec.boostQueue, hq0]
            · simp [Spec.boostQueue, hi0, hiq]
        rwa [hqs] at h'

/-- The loop of the boost over the lower levels. -/
theorem boostQueues {levels : List Nat} {lv : Nat → Nat}
    (h : Sim k ⟨{ g with queueLevel := lv }, ls⟩) (hnd : levels.Nodup) (h0 : 0 ∉ levels)
    (hmem : ∀ q, ∀ p ∈ ls q, (g.pcb p).state = .ready ∧ (g.pcb p).pid < N_PROCESSES ∧
      p ≠ .initProcess)
    (hlen : ∀ q ∈ levels, (ls (.mlQueues q)).length < QUEUE_FUEL) :
    ∃ k' lv', levels.foldlM (fun k q ↦ Kernel.boostQueue q QUEUE_FUEL k) k = some k' ∧
      (∀ i, N_PROCESSES ≤ i → lv' i = lv i) ∧
      Sim k' ⟨{ g with queueLevel := lv' }, Spec.boostQueues levels ls⟩ := by
  induction levels generalizing k ls lv with
  | nil => exact ⟨k, lv, rfl, fun _ _ ↦ rfl, by rwa [Spec.boostQueues_nil]⟩
  | cons q levels ih =>
      obtain ⟨hq, hnd⟩ := List.nodup_cons.mp hnd
      rw [List.mem_cons, not_or] at h0
      have hq0 : q ≠ 0 := fun e ↦ h0.1 e.symm
      obtain ⟨k₁, lv₁, hk₁, hlv₁, h₁⟩ := h.boostQueue hq0 rfl (hmem (.mlQueues q))
        (hlen q List.mem_cons_self)
      have hmem₁ : ∀ q', ∀ p ∈ Spec.boostQueue q ls q', (g.pcb p).state = .ready ∧
          (g.pcb p).pid < N_PROCESSES ∧ p ≠ .initProcess := by
        intro q' p hp
        unfold Spec.boostQueue at hp
        by_cases hq' : q' = .mlQueues 0
        · subst hq'
          rw [Function.update_self, List.mem_append] at hp
          exact hp.elim (hmem _ p) (hmem _ p)
        · rw [Function.update_of_ne hq'] at hp
          by_cases hq'' : q' = .mlQueues q
          · subst hq''
            simp at hp
          · rw [Function.update_of_ne hq''] at hp
            exact hmem q' p hp
      have hlen₁ : ∀ q' ∈ levels, (Spec.boostQueue q ls (.mlQueues q')).length < QUEUE_FUEL := by
        intro q' hq'
        have hne : q' ≠ q := fun e ↦ hq (e ▸ hq')
        have hne0 : q' ≠ 0 := fun e ↦ h0.2 (e ▸ hq')
        simpa [Spec.boostQueue, hne, hne0] using hlen q' (List.mem_cons_of_mem _ hq')
      obtain ⟨k', lv', hk', hlv', h'⟩ := ih h₁ hnd h0.2 hmem₁ hlen₁
      refine ⟨k', lv', ?_, fun i hi ↦ (hlv' i hi).trans (hlv₁ i hi), ?_⟩
      · simp [List.foldlM_cons, hk₁, hk']
      · rwa [Spec.boostQueues_cons hq0 hq h0.2]

end Sim

/-! ## Keeping the invariant -/

namespace Inv

variable {a : Kernel Lists}

/-- The invariant survives a change of the queues that keeps their members, and a
change of the data that leaves the states alone, except that the current process may
stop being runnable. -/
theorem update (ha : Inv a) {a' : Kernel Lists} (htidy : Tidy a')
    (hmem : ∀ x, (∃ q, x ∈ a'.queues q) ↔ ∃ q, x ∈ a.queues q)
    (hexists : ∀ l, a'.queues (.mlQueues l) ≠ [] → l < ML_MAX_LEVELS)
    (htable : a'.Table) (hknown : ∀ p, a'.Known p ↔ a.Known p)
    (hprio : ∀ p, a.Known p → 1 ≤ (a'.pcb p).priority)
    (hcur : a'.currentProcess = a.currentProcess)
    (hstate : ∀ p, a.Known p → p ≠ .initProcess → (a'.pcb p).state = (a.pcb p).state ∨
      (p = a.currentProcess ∧ (a'.pcb p).state ≠ .ready ∧ (a'.pcb p).state ≠ .running))
    (hlevel : ∀ i, a'.queueLevel i < ML_MAX_LEVELS)
    (hidle : (a'.pcb .initProcess).state = (a.pcb .initProcess).state) : Inv a' where
  toTidy := htidy
  table := htable
  known q p hp := by
    obtain ⟨q', hq'⟩ := (hmem p).mp ⟨q, hp⟩
    exact (hknown p).mpr (ha.known q' p hq')
  priority p hp := hprio p ((hknown p).mp hp)
  queued p hp hinit hready := by
    rcases hstate p ((hknown p).mp hp) hinit with hsame | ⟨-, hne, -⟩
    · exact (hmem p).mpr (ha.queued p ((hknown p).mp hp) hinit (hsame ▸ hready))
    · exact absurd hready hne
  running p hp hinit hrun := by
    rw [hcur]
    rcases hstate p ((hknown p).mp hp) hinit with hsame | ⟨-, -, hne⟩
    · exact ha.running p ((hknown p).mp hp) hinit (hsame ▸ hrun)
    · exact absurd hrun hne
  current := by
    rw [hcur, hknown]
    exact ha.current
  currentState hinit := by
    rw [hcur] at hinit
    rw [Globals.current, hcur]
    rcases hstate _ ha.current hinit with hsame | ⟨-, hne, -⟩
    · rw [hsame]
      exact ha.currentState hinit
    · exact hne
  level := hlevel
  queueExists := hexists
  initState := by
    rw [hidle]
    exact ha.initState

/-- The same, for code that does not touch the queues. -/
theorem mapGlobals (ha : Inv a) {f : Globals → Globals} (htable : (f a.toGlobals).Table)
    (hknown : ∀ p, (f a.toGlobals).Known p ↔ a.Known p)
    (hprio : ∀ p, a.Known p → 1 ≤ ((f a.toGlobals).pcb p).priority)
    (hcur : (f a.toGlobals).currentProcess = a.currentProcess)
    (hstate : ∀ p, a.Known p → p ≠ .initProcess →
      ((f a.toGlobals).pcb p).state = (a.pcb p).state ∨
      (p = a.currentProcess ∧ ((f a.toGlobals).pcb p).state ≠ .ready ∧
        ((f a.toGlobals).pcb p).state ≠ .running))
    (hlevel : ∀ i, (f a.toGlobals).queueLevel i < ML_MAX_LEVELS)
    (hidle : ((f a.toGlobals).pcb .initProcess).state = (a.pcb .initProcess).state) :
    Inv (a.mapGlobals f) := by
  have htidy : Tidy (a.mapGlobals f) := by
    refine ha.toTidy.congr (fun _ ↦ List.Sublist.refl _) fun q p hp ↦ ?_
    have hinit : p ≠ .initProcess := fun e ↦ ha.init q (e ▸ hp)
    rcases hstate p (ha.known q p hp) hinit with hsame | ⟨rfl, -⟩
    · exact hsame
    · exact absurd hp (ha.current_free hinit q)
  exact ha.update htidy (fun _ ↦ Iff.rfl) ha.queueExists htable hknown hprio hcur hstate hlevel
    hidle

/-- The same, for code that keeps the frozen part and the states. -/
theorem mapGlobals_of_frozen (ha : Inv a) {f : Globals → Globals}
    (hfrozen : (f a.toGlobals).frozen = a.frozen)
    (hcur : (f a.toGlobals).currentProcess = a.currentProcess)
    (hstate : ∀ p, ((f a.toGlobals).pcb p).state = (a.pcb p).state)
    (hlevel : ∀ i, (f a.toGlobals).queueLevel i < ML_MAX_LEVELS) : Inv (a.mapGlobals f) := by
  refine ha.mapGlobals (ha.table.of_frozen hfrozen) (Globals.known_of_frozen hfrozen)
    (fun p hp ↦ ?_) hcur (fun p _ _ ↦ .inl (hstate p)) hlevel (hstate _)
  rw [Globals.field_of_frozen hfrozen PCB.priority (fun _ ↦ rfl)]
  exact ha.priority p hp

/-- Waking a process that is neither queued nor current. -/
theorem wake (ha : Inv a) {p : PcbPtr} (hp : a.Known p) (hinit : p ≠ .initProcess)
    (hcur : p ≠ a.currentProcess) (hstate : (a.pcb p).state ≠ .ready) {f : PCB → PCB}
    (hpid : ∀ b, (f b).pid = b.pid) (hprio : ∀ b, (f b).priority = b.priority) :
    Inv (Spec.enqueue p (a.mapGlobals (·.modifyPcb p f))) := by
  have hfree : ∀ q, p ∉ a.queues q := fun q hq ↦ hstate (ha.ready q p hq)
  have hother : ∀ x, x ≠ p →
      (Spec.enqueue p (a.mapGlobals (·.modifyPcb p f))).pcb x = a.pcb x := by
    intro x hx
    rw [Spec.enqueue_pcb hinit]
    simp [Globals.setState, hx]
  have hself : ((Spec.enqueue p (a.mapGlobals (·.modifyPcb p f))).pcb p).state = .ready := by
    rw [Spec.enqueue_pcb hinit]
    simp [Globals.setState]
  have hfield : ∀ {α : Type} (π : PCB → α), (∀ (b : PCB) (s : ProcessState),
      π { b with state := s } = π b) → (∀ b, π (f b) = π b) → ∀ x,
      π ((Spec.enqueue p (a.mapGlobals (·.modifyPcb p f))).pcb x) = π (a.pcb x) := by
    intro α π hs hf x
    rw [Spec.enqueue_pcb hinit, Globals.setState_field _ _ _ π hs]
    exact Globals.modifyPcb_field _ _ _ _ π hf
  have hproc : (Spec.enqueue p (a.mapGlobals (·.modifyPcb p f))).processes = a.processes := by
    rw [Spec.enqueue, if_neg hinit]
    rfl
  have hn : (Spec.enqueue p (a.mapGlobals (·.modifyPcb p f))).nProcesses = a.nProcesses := by
    rw [Spec.enqueue, if_neg hinit]
    rfl
  have hknown : ∀ x, (Spec.enqueue p (a.mapGlobals (·.modifyPcb p f))).Known x ↔ a.Known x := by
    intro x
    simp only [Globals.Known, hproc]
  have htidy₀ : Tidy (a.mapGlobals (·.modifyPcb p f)) := by
    refine ha.toTidy.congr (fun _ ↦ List.Sublist.refl _) fun q x hx ↦ ?_
    have hne : x ≠ p := fun e ↦ hfree q (e ▸ hx)
    simp [hne]
  refine ⟨Spec.enqueue_tidy htidy₀ hinit hfree, ⟨fun hi ↦ ?_, fun hi ↦ ?_, ?_, ?_⟩,
    fun q x hx ↦ ?known, fun x hx ↦ ?priority, fun x hx hxi hready ↦ ?queued,
    fun x hx hxi hrun ↦ ?running, ?current, fun hci ↦ ?currentState, fun i ↦ ?level,
    fun l hl ↦ ?queueExists, ?initState⟩
  · rw [hn, hfield PCB.pid (fun _ _ ↦ rfl) hpid]
    exact ha.table.slot (hproc ▸ hi)
  · rw [hproc]
    exact ha.table.filled (hn ▸ hi)
  · rw [hproc]
    exact ha.table.init
  · rw [hn]
    exact ha.table.bound
  case known =>
    rw [hknown]
    rcases (Spec.mem_enqueue hinit).mp hx with hx | ⟨rfl, -⟩
    · exact ha.known q x hx
    · exact hp
  case priority =>
    rw [hfield PCB.priority (fun _ _ ↦ rfl) hprio]
    exact ha.priority x ((hknown x).mp hx)
  case queued =>
    by_cases hxp : x = p
    · exact ⟨_, (Spec.mem_enqueue hinit).mpr (.inr ⟨hxp, rfl⟩)⟩
    · rw [hother x hxp] at hready
      obtain ⟨q, hq⟩ := ha.queued x ((hknown x).mp hx) hxi hready
      exact ⟨q, (Spec.mem_enqueue hinit).mpr (.inl hq)⟩
  case running =>
    rw [Spec.enqueue_currentProcess]
    by_cases hxp : x = p
    · subst hxp
      rw [hself] at hrun
      simp at hrun
    · rw [hother x hxp] at hrun
      exact ha.running x ((hknown x).mp hx) hxi hrun
  case current =>
    rw [Spec.enqueue_currentProcess, hknown]
    exact ha.current
  case currentState =>
    rw [Spec.enqueue_currentProcess] at hci
    rw [Globals.current, Spec.enqueue_currentProcess, Kernel.mapGlobals_toGlobals,
      Globals.modifyPcb_currentProcess, hother _ (Ne.symm hcur)]
    exact ha.currentState hci
  case level =>
    rw [Spec.enqueue_queueLevel]
    exact ha.level i
  case queueExists =>
    obtain ⟨x, hx⟩ := List.exists_mem_of_ne_nil _ hl
    rcases (Spec.mem_enqueue hinit).mp hx with hx | ⟨-, hq⟩
    · exact ha.queueExists l (List.ne_nil_of_mem hx)
    · unfold Spec.targetQueue at hq
      split at hq
      · simp at hq
      · simp at hq
      · rw [QueueId.mlQueues.inj hq]
        exact ha.level _
  case initState =>
    rw [hother _ (Ne.symm hinit)]
    exact ha.initState

end Inv

/-! ## The tick -/

/-- No process changes its state, and the queues hold the same processes. -/
structure Quiet (a a' : Kernel Lists) : Prop where
  frozen : a'.frozen = a.frozen
  state : ∀ p, (a'.pcb p).state = (a.pcb p).state
  signals : ∀ p, (a'.pcb p).pendingSignals = (a.pcb p).pendingSignals
  preempt : ∀ p, (a'.pcb p).preemptDisabled = (a.pcb p).preemptDisabled
  current : a'.currentProcess = a.currentProcess
  mem : ∀ x, (∃ q, x ∈ a'.queues q) ↔ ∃ q, x ∈ a.queues q

namespace Quiet

variable {a a' a'' : Kernel Lists}

theorem refl (a : Kernel Lists) : Quiet a a :=
  ⟨rfl, fun _ ↦ rfl, fun _ ↦ rfl, fun _ ↦ rfl, rfl, fun _ ↦ Iff.rfl⟩

theorem trans (h : Quiet a a') (h' : Quiet a' a'') : Quiet a a'' :=
  ⟨h'.frozen.trans h.frozen, fun p ↦ (h'.state p).trans (h.state p),
    fun p ↦ (h'.signals p).trans (h.signals p), fun p ↦ (h'.preempt p).trans (h.preempt p),
    h'.current.trans h.current, fun x ↦ (h'.mem x).trans (h.mem x)⟩

/-- An update of one control block that only concerns counters. -/
theorem modifyPcb (a : Kernel Lists) (p : PcbPtr) {f : PCB → PCB}
    (hfrozen : ∀ b, (f b).frozen = b.frozen) (hstate : ∀ b, (f b).state = b.state)
    (hsignals : ∀ b, (f b).pendingSignals = b.pendingSignals)
    (hpreempt : ∀ b, (f b).preemptDisabled = b.preemptDisabled) :
    Quiet a (a.mapGlobals (·.modifyPcb p f)) :=
  ⟨a.toGlobals.frozen_modifyPcb p hfrozen,
    fun x ↦ a.toGlobals.modifyPcb_field p x f PCB.state hstate,
    fun x ↦ a.toGlobals.modifyPcb_field p x f PCB.pendingSignals hsignals,
    fun x ↦ a.toGlobals.modifyPcb_field p x f PCB.preemptDisabled hpreempt, rfl,
    fun _ ↦ Iff.rfl⟩

theorem setCounter (a : Kernel Lists) (p : PcbPtr) (c : Int) :
    Quiet a (a.mapGlobals (·.setCounter p c)) :=
  modifyPcb a p (fun _ ↦ rfl) (fun _ ↦ rfl) (fun _ ↦ rfl) fun _ ↦ rfl

theorem settled (h : Quiet a a') (ha : Settled a.toGlobals) : Settled a'.toGlobals := by
  intro hinit
  rw [Globals.current, h.current, h.state]
  exact ha (h.current ▸ hinit)

theorem inv (h : Quiet a a') (ha : Inv a) (htidy : Tidy a')
    (hexists : ∀ l, a'.queues (.mlQueues l) ≠ [] → l < ML_MAX_LEVELS)
    (hlevel : ∀ i, a'.queueLevel i < ML_MAX_LEVELS) : Inv a' := by
  refine ha.update htidy h.mem hexists (ha.table.of_frozen h.frozen)
    (Globals.known_of_frozen h.frozen) (fun p hp ↦ ?_) h.current (fun p _ _ ↦ .inl (h.state p))
    hlevel (h.state _)
  rw [Globals.field_of_frozen h.frozen PCB.priority (fun _ ↦ rfl)]
  exact ha.priority p hp

/-- The invariant after an update that leaves queues and levels alone. -/
theorem inv_mapGlobals {f : Globals → Globals} (h : Quiet a (a.mapGlobals f)) (ha : Inv a)
    (hlevel : (f a.toGlobals).queueLevel = a.queueLevel) : Inv (a.mapGlobals f) :=
  ha.mapGlobals_of_frozen h.frozen h.current h.state fun i ↦ by rw [hlevel]; exact ha.level i

end Quiet

namespace Spec

variable {a : Kernel Lists}

/-- Emptying one queue into level 0 keeps the queues tidy and their members. -/
theorem boostQueue_tidy {g : Globals} {ls : Lists} (h : Tidy ⟨g, ls⟩) {q : Nat} (hq : q ≠ 0) :
    Tidy ⟨g, boostQueue q ls⟩ ∧ ∀ x, (∃ i, x ∈ boostQueue q ls i) ↔ ∃ i, x ∈ ls i := by
  have hq0 : (QueueId.mlQueues q) ≠ .mlQueues 0 := by simpa using hq
  have h0 : boostQueue q ls (.mlQueues 0) = ls (.mlQueues 0) ++ ls (.mlQueues q) := by
    simp [boostQueue]
  have hq' : boostQueue q ls (.mlQueues q) = [] := by simp [boostQueue, hq0]
  have hother : ∀ i, i ≠ .mlQueues 0 → i ≠ .mlQueues q → boostQueue q ls i = ls i := by
    intro i hi0 hiq
    simp [boostQueue, hi0, hiq]
  -- where a process of a new queue was before
  have hfrom : ∀ i x, x ∈ boostQueue q ls i →
      (i = .mlQueues 0 ∧ (x ∈ ls (.mlQueues 0) ∨ x ∈ ls (.mlQueues q))) ∨
      (i ≠ .mlQueues 0 ∧ i ≠ .mlQueues q ∧ x ∈ ls i) := by
    intro i x hx
    by_cases hi0 : i = .mlQueues 0
    · subst hi0
      rw [h0, List.mem_append] at hx
      exact .inl ⟨rfl, hx⟩
    · by_cases hiq : i = .mlQueues q
      · subst hiq
        rw [hq'] at hx
        simp at hx
      · rw [hother i hi0 hiq] at hx
        exact .inr ⟨hi0, hiq, hx⟩
  refine ⟨⟨fun i ↦ ?nodup, fun i j x hi hj ↦ ?disjoint, fun i x hx ↦ ?ready, fun i hi ↦ ?init⟩,
    fun x ↦ ⟨?sub, ?sup⟩⟩
  case nodup =>
    show (boostQueue q ls i).Nodup
    by_cases hi0 : i = .mlQueues 0
    · subst hi0
      rw [h0, List.nodup_append]
      refine ⟨h.nodup _, h.nodup _, fun x hx y hy hxy ↦ ?_⟩
      exact hq0 (h.disjoint _ _ y hy (hxy ▸ hx))
    · by_cases hiq : i = .mlQueues q
      · rw [hiq, hq']
        exact List.nodup_nil
      · rw [hother i hi0 hiq]
        exact h.nodup i
  case disjoint =>
    rcases hfrom i x hi with ⟨rfl, hx⟩ | ⟨hi0, hiq, hx⟩
    · rcases hfrom j x hj with ⟨rfl, -⟩ | ⟨hj0, hjq, hx'⟩
      · rfl
      · rcases hx with hx | hx
        · exact absurd (h.disjoint _ _ x hx' hx) hj0
        · exact absurd (h.disjoint _ _ x hx' hx) hjq
    · rcases hfrom j x hj with ⟨rfl, hx'⟩ | ⟨-, -, hx'⟩
      · rcases hx' with hx' | hx'
        · exact absurd (h.disjoint _ _ x hx hx') hi0
        · exact absurd (h.disjoint _ _ x hx hx') hiq
      · exact h.disjoint _ _ x hx hx'
  case ready =>
    rcases hfrom i x hx with ⟨-, hx | hx⟩ | ⟨-, -, hx⟩
    · exact h.ready _ x hx
    · exact h.ready _ x hx
    · exact h.ready _ x hx
  case init =>
    rcases hfrom i _ hi with ⟨-, hi | hi⟩ | ⟨-, -, hi⟩
    · exact h.init _ hi
    · exact h.init _ hi
    · exact h.init _ hi
  case sub =>
    rintro ⟨i, hi⟩
    rcases hfrom i x hi with ⟨-, hi | hi⟩ | ⟨-, -, hi⟩
    · exact ⟨_, hi⟩
    · exact ⟨_, hi⟩
    · exact ⟨_, hi⟩
  case sup =>
    rintro ⟨i, hi⟩
    by_cases hi0 : i = .mlQueues 0
    · exact ⟨.mlQueues 0, by rw [h0]; exact List.mem_append_left _ (hi0 ▸ hi)⟩
    · by_cases hiq : i = .mlQueues q
      · exact ⟨.mlQueues 0, by rw [h0]; exact List.mem_append_right _ (hiq ▸ hi)⟩
      · exact ⟨i, by rw [hother i hi0 hiq]; exact hi⟩

/-- The whole boost keeps the queues tidy and their members. -/
theorem boostQueues_tidy {g : Globals} {ls : Lists} {levels : List Nat} (h : Tidy ⟨g, ls⟩)
    (hnd : levels.Nodup) (h0 : 0 ∉ levels) :
    Tidy ⟨g, boostQueues levels ls⟩ ∧ ∀ x, (∃ i, x ∈ boostQueues levels ls i) ↔ ∃ i, x ∈ ls i := by
  induction levels generalizing ls with
  | nil =>
      rw [boostQueues_nil]
      exact ⟨h, fun _ ↦ Iff.rfl⟩
  | cons q levels ih =>
      obtain ⟨hq, hnd⟩ := List.nodup_cons.mp hnd
      rw [List.mem_cons, not_or] at h0
      have hq0 : q ≠ 0 := fun e ↦ h0.1 e.symm
      obtain ⟨htidy, hmem⟩ := boostQueue_tidy h hq0
      obtain ⟨htidy', hmem'⟩ := ih htidy hnd h0.2
      rw [boostQueues_cons hq0 hq h0.2]
      exact ⟨htidy', fun x ↦ (hmem' x).trans (hmem x)⟩

theorem levels_nodup (n : Nat) : (List.range n).tail.Nodup := List.nodup_range.tail

theorem zero_notMem_levels (n : Nat) : 0 ∉ (List.range n).tail := by
  cases n with
  | zero => simp
  | succ n => simp [List.range_succ_eq_map]

variable {policy : MultilevelPolicy}

theorem boost_quiet (ha : Inv a) (policy : MultilevelPolicy) : Quiet a (boost policy a) :=
  ⟨rfl, fun _ ↦ rfl, fun _ ↦ rfl, fun _ ↦ rfl, rfl,
    (boostQueues_tidy ha.toTidy (levels_nodup _) (zero_notMem_levels _)).2⟩

theorem boost_inv (ha : Inv a) (policy : MultilevelPolicy) : Inv (boost policy a) := by
  refine (boost_quiet ha policy).inv ha ?_ (fun l hl ↦ ?_) fun i ↦ ?_
  · exact (boostQueues_tidy ha.toTidy (levels_nodup _) (zero_notMem_levels _)).1.congr
      (fun _ ↦ List.Sublist.refl _) fun _ _ _ ↦ rfl
  · by_cases h0 : l = 0
    · subst h0
      decide
    · refine ha.queueExists l fun hnil ↦ hl ?_
      simp [boost, boostQueues, h0, hnil]
  · simp only [boost]
    split_ifs
    · decide
    · exact ha.level i

theorem demote_quiet (a : Kernel Lists) (policy : MultilevelPolicy) :
    Quiet a (a.mapGlobals (·.demote policy)) := by
  refine ⟨?_, fun p ↦ ?_, fun p ↦ ?_, fun p ↦ ?_, ?_, fun x ↦ Iff.rfl⟩ <;>
    simp only [Kernel.mapGlobals_toGlobals, Globals.demote] <;> split_ifs <;> rfl

theorem demote_inv (ha : Inv a) (hpolicy : policy.nLevels = ML_MAX_LEVELS) :
    Inv (a.mapGlobals (·.demote policy)) := by
  have hquiet := demote_quiet a policy
  refine ha.mapGlobals_of_frozen hquiet.frozen hquiet.current hquiet.state fun i ↦ ?_
  unfold Globals.demote
  split_ifs with h
  · obtain ⟨-, -, -, -, hlt⟩ := h
    by_cases hi : i = a.current.pid
    · subst hi
      simp only [Function.update_self]
      omega
    · simp only [Function.update_of_ne hi]
      exact ha.level i
  · exact ha.level i

/-- A change of the tick counter of the boost. -/
theorem ticks_quiet (a : Kernel Lists) (f : Nat → Nat) :
    Quiet a (a.mapGlobals fun g ↦ { g with mlTicksSinceBoost := f g.mlTicksSinceBoost }) :=
  ⟨rfl, fun _ ↦ rfl, fun _ ↦ rfl, fun _ ↦ rfl, rfl, fun _ ↦ Iff.rfl⟩

theorem ticks_inv (ha : Inv a) (f : Nat → Nat) :
    Inv (a.mapGlobals fun g ↦ { g with mlTicksSinceBoost := f g.mlTicksSinceBoost }) :=
  (ticks_quiet a f).inv_mapGlobals ha rfl

end Spec

namespace Sim

variable {k : Kernel Pointers} {a : Kernel Lists}

theorem boost (h : Sim k a) (ha : Inv a) (policy : MultilevelPolicy) :
    ∃ k', k.boost policy = some k' ∧ Sim k' (Spec.boost policy a) := by
  have hmem : ∀ q, ∀ p ∈ a.queues q, (a.pcb p).state = .ready ∧ (a.pcb p).pid < N_PROCESSES ∧
      p ≠ .initProcess := fun q p hp ↦
    ⟨ha.ready q p hp, ha.table.pid_lt_max (ha.known q p hp), fun e ↦ ha.init q (e ▸ hp)⟩
  obtain ⟨k₁, lv, hk₁, hlv, h₁⟩ := Sim.boostQueues (g := a.toGlobals) h
    (Spec.levels_nodup policy.nLevels) (Spec.zero_notMem_levels policy.nLevels) hmem
    fun q _ ↦ Nat.lt_succ_of_le (ha.length_le (.mlQueues q))
  refine ⟨k₁.mapGlobals fun g ↦ { g with
    queueLevel := fun i ↦ if i < N_PROCESSES then 0 else g.queueLevel i, mlTicksSinceBoost := 0 },
    by simp only [Kernel.boost, hk₁, Option.bind_eq_bind, Option.bind_some], ?_, h₁.queues⟩
  rw [Kernel.mapGlobals_toGlobals, h₁.globals, Spec.boost]
  congr 1
  funext i
  by_cases hi : i < N_PROCESSES
  · simp [hi]
  · simp [hi, hlv i (Nat.le_of_not_lt hi)]

theorem multilevelOnTick (h : Sim k a) (ha : Inv a) {policy : MultilevelPolicy}
    (hpolicy : a.algorithm.mlPolicy = some policy) :
    ∃ k', k.multilevelOnTick = some k' ∧ Sim k' (Spec.multilevelOnTick policy a) := by
  have hpolicy' : k.algorithm.mlPolicy = some policy := by rw [h.globals]; exact hpolicy
  unfold Kernel.multilevelOnTick Spec.multilevelOnTick
  simp only [hpolicy', Option.bind_eq_bind, Option.bind_some]
  by_cases hperiod : policy.boostPeriod > 0
  · have h₁ := h.mapGlobals fun g ↦ { g with mlTicksSinceBoost := g.mlTicksSinceBoost + 1 }
    have ha₁ := Spec.ticks_inv ha (· + 1)
    have hticks := congrArg Globals.mlTicksSinceBoost h₁.globals
    simp only [hperiod, if_true, hticks]
    by_cases hdue : (a.mapGlobals fun g ↦
        { g with mlTicksSinceBoost := g.mlTicksSinceBoost + 1 }).mlTicksSinceBoost ≥
        policy.boostPeriod
    · obtain ⟨k', hk', h'⟩ := h₁.boost ha₁ policy
      simp only [hdue, if_true, hk', Option.bind_some]
      exact ⟨_, rfl, h'.mapGlobals _⟩
    · simp only [hdue, if_false]
      exact ⟨_, rfl, h₁.mapGlobals _⟩
  · simp only [hperiod, if_false]
    exact ⟨_, rfl, h.mapGlobals _⟩

end Sim

namespace Spec

variable {a : Kernel Lists}

theorem multilevelOnTick_inv (ha : Inv a) {policy : MultilevelPolicy}
    (hpolicy : policy.nLevels = ML_MAX_LEVELS) :
    Inv (multilevelOnTick policy a) ∧ Quiet a (multilevelOnTick policy a) := by
  have ha₁ := ticks_inv ha (· + 1)
  have hq₁ := ticks_quiet a (· + 1)
  unfold multilevelOnTick
  dsimp only
  split_ifs with hperiod hdue
  · have ha₂ := boost_inv ha₁ policy
    exact ⟨demote_inv ha₂ hpolicy, (hq₁.trans (boost_quiet ha₁ policy)).trans (demote_quiet _ _)⟩
  · exact ⟨demote_inv ha₁ hpolicy, hq₁.trans (demote_quiet _ _)⟩
  · exact ⟨demote_inv ha hpolicy, demote_quiet _ _⟩

theorem chargeTick_quiet (a : Kernel Lists) : Quiet a (a.mapGlobals (·.chargeTick)) :=
  Quiet.modifyPcb a _ (fun _ ↦ rfl) (fun _ ↦ rfl) (fun _ ↦ rfl) fun _ ↦ rfl

end Spec

/-- The bookkeeping of a tick. -/
theorem Sim.onTick {k : Kernel Pointers} {a : Kernel Lists} (h : Sim k a) (ha : Inv a) :
    ∃ a' k', Spec.onTick a = some a' ∧ k.onTick = some k' ∧ Sim k' a' ∧ Inv a' ∧ Quiet a a' := by
  have halg : k.algorithm = a.algorithm := congrArg Globals.algorithm h.globals
  rw [Spec.onTick, Kernel.onTick, halg]
  obtain hnone | ⟨hsome, policy, hpolicy, hlevels⟩ := a.algorithm_onTick_cases
  · rw [hnone]
    exact ⟨a, k, rfl, rfl, h, ha, Quiet.refl a⟩
  · obtain ⟨k', hk', h'⟩ := h.multilevelOnTick ha hpolicy
    obtain ⟨ha', hquiet⟩ := Spec.multilevelOnTick_inv ha hlevels
    simp only [hsome, hpolicy, Option.map_some]
    exact ⟨_, k', rfl, hk', h', ha', hquiet⟩

/-- A tick up to its call of the scheduler. -/
theorem Sim.tickEntry {k : Kernel Pointers} {a : Kernel Lists} (h : Sim k a) (ha : Inv a) :
    ∃ b a' k', Spec.tickEntry a = some (b, a') ∧ k.tickEntry = some (b, k') ∧ Sim k' a' ∧
      Inv a' ∧ Quiet a a' := by
  have hcharge := Spec.chargeTick_quiet a
  obtain ⟨a₁, k₁, ha₁', hk₁, h₁, ha₁, hquiet⟩ :=
    (h.mapGlobals (·.chargeTick)).onTick (hcharge.inv_mapGlobals ha rfl)
  have hquiet₁ := hcharge.trans hquiet
  have hcur : k₁.current = a₁.current := congrArg Globals.current h₁.globals
  have hcur' : k₁.currentProcess = a₁.currentProcess := congrArg Globals.currentProcess h₁.globals
  have halg : k₁.algorithm = a₁.algorithm := congrArg Globals.algorithm h₁.globals
  have hreset := Quiet.setCounter a₁ a₁.currentProcess 0
  unfold Spec.tickEntry Kernel.tickEntry
  simp only [ha₁', hk₁, Option.bind_eq_bind, Option.bind_some, hcur]
  by_cases hgo : a₁.current.counter > 0 ∨ a₁.current.preemptDisabled > 0
  · simp only [hgo, if_true]
    exact ⟨false, a₁, k₁, rfl, rfl, h₁, ha₁, hquiet₁⟩
  · simp only [hgo, if_false]
    have h₂ := h₁.mapGlobals fun g ↦ g.setCounter g.currentProcess 0
    have halg₂ : (k₁.mapGlobals fun g ↦ g.setCounter g.currentProcess 0).algorithm =
        (a₁.mapGlobals fun g ↦ g.setCounter g.currentProcess 0).algorithm := halg
    have hcur₂ : (k₁.mapGlobals fun g ↦ g.setCounter g.currentProcess 0).currentProcess =
        (a₁.mapGlobals fun g ↦ g.setCounter g.currentProcess 0).currentProcess := hcur'
    simp only [halg₂, hcur₂]
    split_ifs
    · exact ⟨false, _, _, rfl, rfl, h₂, hreset.inv_mapGlobals ha₁ rfl, hquiet₁.trans hreset⟩
    · exact ⟨true, _, _, rfl, rfl, h₂, hreset.inv_mapGlobals ha₁ rfl, hquiet₁.trans hreset⟩

/-! ## Termination -/

/-- `p` waits for the process with the given pid. -/
def Globals.WaitsFor (g : Globals) (p : PcbPtr) (pid : Nat) : Prop :=
  (g.pcb p).state = .waitingAnotherProcess ∧ (g.pcb p).pidToWait = pid

/-- What the loop of `exit_process` has done after looking at `slots`. -/
structure Awakened (slots : List Nat) (a a' : Kernel Lists) : Prop where
  data : a'.toGlobals = { a.toGlobals with pcb := a'.pcb }
  woken : ∀ {p}, (∃ i ∈ slots, a.processes i = some p) → a.WaitsFor p a.current.pid →
    a'.pcb p = { a.pcb p with state := .ready, pidToWait := -1 } ∧ ∃ q, p ∈ a'.queues q
  other : ∀ {p}, ¬ ((∃ i ∈ slots, a.processes i = some p) ∧ a.WaitsFor p a.current.pid) →
    a'.pcb p = a.pcb p ∧ ((∃ q, p ∈ a'.queues q) ↔ ∃ q, p ∈ a.queues q)

namespace Spec

variable {a : Kernel Lists}

/-- A slot whose process does not wait for the current one. -/
theorem wakeWaiter_of_not {i : Nat}
    (h : ∀ p, a.processes i = some p → ¬ a.WaitsFor p a.current.pid) : wakeWaiter a i = a := by
  unfold wakeWaiter
  cases hp : a.processes i with
  | none => rfl
  | some p => exact if_neg (h p hp)

/-- A slot whose process waits for the current one. -/
theorem wakeWaiter_of_waits {i : Nat} {p : PcbPtr} (hp : a.processes i = some p)
    (h : a.WaitsFor p a.current.pid) :
    wakeWaiter a i = enqueue p (a.mapGlobals (·.modifyPcb p fun b ↦
      { b with state := .ready, pidToWait := -1 })) := by
  unfold wakeWaiter
  simp only [hp]
  exact if_pos h

/-- What waking `p` makes of the kernel. -/
theorem enqueue_woken_pcb (p x : PcbPtr) :
    (enqueue p (a.mapGlobals (·.modifyPcb p fun b ↦
      { b with state := .ready, pidToWait := -1 }))).pcb x =
      if x = p then { a.pcb p with state := .ready, pidToWait := -1 } else a.pcb x := by
  by_cases hp : p = .initProcess
  · rw [enqueue, if_pos hp, Kernel.mapGlobals_toGlobals, Globals.modifyPcb_pcb]
  · rw [enqueue_pcb hp]
    by_cases hx : x = p
    · subst hx
      simp [Globals.setState]
    · simp [Globals.setState, hx]

theorem enqueue_data (p : PcbPtr) (a : Kernel Lists) :
    (enqueue p a).toGlobals = { a.toGlobals with pcb := (enqueue p a).pcb } := by
  unfold enqueue
  split_ifs <;> rfl

end Spec

namespace Awakened

variable {a a₁ a₂ : Kernel Lists} {slots slots' : List Nat}

theorem currentProcess (h : Awakened slots a a₁) : a₁.currentProcess = a.currentProcess := by
  rw [h.data]

theorem processes (h : Awakened slots a a₁) : a₁.processes = a.processes := by
  rw [h.data]

/-- The caller is not waiting for itself, so it is left alone. -/
theorem current (h : Awakened slots a a₁)
    (hcur : ¬ a.WaitsFor a.currentProcess a.current.pid) : a₁.current = a.current := by
  rw [Globals.current, h.currentProcess, (h.other fun hc ↦ hcur hc.2).1]
  rfl

theorem trans (h : Awakened slots a a₁) (h' : Awakened slots' a₁ a₂)
    (hcur : ¬ a.WaitsFor a.currentProcess a.current.pid) : Awakened (slots ++ slots') a a₂ := by
  have hcurrent := h.current hcur
  refine ⟨?_, fun {p} hp hw ↦ ?_, fun {p} hp ↦ ?_⟩
  · rw [h'.data, h.data]
  · by_cases hslot : ∃ i ∈ slots, a.processes i = some p
    · obtain ⟨hpcb, hq⟩ := h.woken hslot hw
      have hnot : ¬ a₁.WaitsFor p a₁.current.pid := by
        rintro ⟨hs, -⟩
        rw [hpcb] at hs
        simp at hs
      obtain ⟨hpcb', hq'⟩ := h'.other (p := p) fun hc ↦ hnot hc.2
      exact ⟨by rw [hpcb', hpcb], hq'.mpr hq⟩
    · obtain ⟨hpcb, -⟩ := h.other (p := p) fun hc ↦ hslot hc.1
      have hslot' : ∃ i ∈ slots', a₁.processes i = some p := by
        obtain ⟨i, hi, hip⟩ := hp
        rw [h.processes]
        rcases List.mem_append.mp hi with hi | hi
        · exact absurd ⟨i, hi, hip⟩ hslot
        · exact ⟨i, hi, hip⟩
      have hw' : a₁.WaitsFor p a₁.current.pid := by
        rw [hcurrent, Globals.WaitsFor, hpcb]
        exact hw
      rw [← hpcb]
      exact h'.woken hslot' hw'
  · have hne : ∀ {s : List Nat}, (∀ i ∈ s, i ∈ slots ++ slots') →
        ¬ ((∃ i ∈ s, a.processes i = some p) ∧ a.WaitsFor p a.current.pid) := by
      rintro s hs ⟨⟨i, hi, hip⟩, hw⟩
      exact hp ⟨⟨i, hs i hi, hip⟩, hw⟩
    obtain ⟨hpcb, hq⟩ := h.other (hne fun i hi ↦ List.mem_append_left _ hi)
    obtain ⟨hpcb', hq'⟩ := h'.other (p := p) (by
      rw [h.processes, hcurrent, Globals.WaitsFor, hpcb]
      exact hne fun i hi ↦ List.mem_append_right _ hi)
    exact ⟨hpcb'.trans hpcb, hq'.trans hq⟩

end Awakened

namespace Sim

variable {k : Kernel Pointers} {a : Kernel Lists}

/-- One slot of the loop of `exit_process`, in the kernel and on lists. -/
theorem wakeWaiter (h : Sim k a) (ha : Inv a)
    (hcur : ¬ a.WaitsFor a.currentProcess a.current.pid) (i : Nat) :
    ∃ k', k.wakeWaiter i = some k' ∧ Sim k' (Spec.wakeWaiter a i) ∧
      Inv (Spec.wakeWaiter a i) ∧ Awakened [i] a (Spec.wakeWaiter a i) := by
  have hproc : k.processes i = a.processes i := by rw [h.globals]
  by_cases hwait : ∃ p, a.processes i = some p ∧ a.WaitsFor p a.current.pid
  · obtain ⟨p, hp, hw⟩ := hwait
    have hpc : p ≠ a.currentProcess := fun e ↦ hcur (e ▸ hw)
    have hinit : p ≠ .initProcess := by
      rintro rfl
      refine ha.initState.not_isWaiting ?_
      rw [hw.1]
      trivial
    have hstate : (a.pcb p).state ≠ .ready := by rw [hw.1]; simp
    have hfree : ∀ q, p ∉ a.queues q := fun q hq ↦ hstate (ha.ready q p hq)
    obtain ⟨k₁, hk₁, h₁⟩ := (h.mapGlobals (·.modifyPcb p fun b ↦
      { b with state := .ready, pidToWait := -1 })).enqueueProcess (p := p)
      (fun _ ↦ hfree) ha.length_le
    have hcond : (k.pcb p).state = .waitingAnotherProcess ∧
        (k.pcb p).pidToWait = k.current.pid := by rw [h.globals]; exact hw
    rw [Spec.wakeWaiter_of_waits hp hw]
    refine ⟨k₁, ?_, h₁, ?_, Spec.enqueue_data .., fun {x} hx _ ↦ ?_, fun {x} hx ↦ ?_⟩
    · rw [Kernel.wakeWaiter, hproc, hp]
      simp only [hcond, and_self, if_true]
      exact hk₁
    · exact ha.wake ⟨i, hp⟩ hinit hpc hstate (fun _ ↦ rfl) fun _ ↦ rfl
    · obtain ⟨j, hj, hjx⟩ := hx
      obtain rfl := List.mem_singleton.mp hj
      obtain rfl := Option.some.inj (hp.symm.trans hjx)
      rw [Spec.enqueue_woken_pcb, if_pos rfl]
      exact ⟨rfl, _, (Spec.mem_enqueue hinit).mpr (.inr ⟨rfl, rfl⟩)⟩
    · have hxp : x ≠ p := by
        rintro rfl
        exact hx ⟨⟨i, List.mem_cons_self, hp⟩, hw⟩
      rw [Spec.enqueue_woken_pcb, if_neg hxp]
      refine ⟨rfl, ?_⟩
      simp [Spec.mem_enqueue hinit, hxp]
  · have hnone : ∀ p, a.processes i = some p → ¬ a.WaitsFor p a.current.pid :=
      fun p hp hw ↦ hwait ⟨p, hp, hw⟩
    rw [Spec.wakeWaiter_of_not hnone]
    refine ⟨k, ?_, h, ha, rfl, fun {x} hx hw ↦ ?_, fun _ ↦ ⟨rfl, Iff.rfl⟩⟩
    · rw [Kernel.wakeWaiter, hproc]
      cases hp : a.processes i with
      | none => rfl
      | some p =>
          have hcond : ¬ ((k.pcb p).state = .waitingAnotherProcess ∧
              (k.pcb p).pidToWait = k.current.pid) := by
            rw [h.globals]
            exact hnone p hp
          simp only [hcond, if_false]
    · obtain ⟨j, hj, hjx⟩ := hx
      obtain rfl := List.mem_singleton.mp hj
      exact absurd hw (hnone x hjx)

/-- The loop of `exit_process`. -/
theorem wakeWaiters (h : Sim k a) (ha : Inv a)
    (hcur : ¬ a.WaitsFor a.currentProcess a.current.pid) (slots : List Nat) :
    ∃ k', slots.foldlM Kernel.wakeWaiter k = some k' ∧
      Sim k' (slots.foldl Spec.wakeWaiter a) ∧ Inv (slots.foldl Spec.wakeWaiter a) ∧
      Awakened slots a (slots.foldl Spec.wakeWaiter a) := by
  induction slots generalizing k a with
  | nil => exact ⟨k, rfl, h, ha, rfl, by simp, fun _ ↦ ⟨rfl, Iff.rfl⟩⟩
  | cons i slots ih =>
      obtain ⟨k₁, hk₁, h₁, ha₁, hawk₁⟩ := h.wakeWaiter ha hcur i
      have hcur₁ : ¬ (Spec.wakeWaiter a i).WaitsFor (Spec.wakeWaiter a i).currentProcess
          (Spec.wakeWaiter a i).current.pid := by
        rw [hawk₁.current hcur, hawk₁.currentProcess, Globals.WaitsFor,
          (hawk₁.other fun hc ↦ hcur hc.2).1]
        exact hcur
      obtain ⟨k', hk', h', ha', hawk'⟩ := ih h₁ ha₁ hcur₁
      exact ⟨k', by simp [hk₁, hk'], h', ha', hawk₁.trans hawk' hcur⟩

end Sim

end DemosOS
