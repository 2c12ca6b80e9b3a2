import DemosOS.Sched.Steps

/-!
# The cascade of levels

The multilevel scheduler searches its queues from the highest level down and each queue from the
front.  It stops at the first process that stays `READY` when its signals are handled: what it has
passed over was killed or stopped and has left its queue, and what it has not reached is as it was.
-/

namespace DemosOS

/-! ## The search -/

/-- The process stays `READY` when its signals are handled. -/
def Globals.StaysReady (g : Globals) (p : PcbPtr) : Prop := (g.pcb p).signalled.state = .ready

namespace Spec

variable {a a' : Kernel Lists} {levels higher : List Nat} {level : Nat} {p : PcbPtr}
  {skipped rest : List PcbPtr}

/-- The search has taken `p` from `level`, after the levels `higher`. -/
structure TakenAt (a : Kernel Lists) (higher : List Nat) (level : Nat) (skipped : List PcbPtr)
    (p : PcbPtr) (rest : List PcbPtr) (a' : Kernel Lists) : Prop where
  queue : a.queues (.mlQueues level) = skipped ++ p :: rest
  ready : a.StaysReady p
  passed : ∀ x ∈ skipped, ¬ a.StaysReady x
  above : ∀ q ∈ higher, ∀ x ∈ a.queues (.mlQueues q), ¬ a.StaysReady x
  emptied : ∀ q ∈ higher, a'.queues (.mlQueues q) = []
  remains : a'.queues (.mlQueues level) = rest
  other : ∀ q, q ∉ higher → q ≠ level → a'.queues (.mlQueues q) = a.queues (.mlQueues q)

/-- The search has found nobody. -/
structure Exhausted (a : Kernel Lists) (levels : List Nat) (a' : Kernel Lists) : Prop where
  passed : ∀ q ∈ levels, ∀ x ∈ a.queues (.mlQueues q), ¬ a.StaysReady x
  emptied : ∀ q ∈ levels, a'.queues (.mlQueues q) = []
  other : ∀ q ∉ levels, a'.queues (.mlQueues q) = a.queues (.mlQueues q)

/-- What is left when the level `q` has been searched in vain. -/
def searched (a : Kernel Lists) (q : Nat) : Kernel Lists :=
  ⟨signalAll a.toGlobals (a.queues (.mlQueues q)), Function.update a.queues (.mlQueues q) []⟩

theorem searched_self (a : Kernel Lists) (q : Nat) :
    (searched a q).queues (.mlQueues q) = [] := by
  simp [searched]

section

variable (ha : Tidy a) {q : Nat} (hq : ∀ x ∈ a.queues (.mlQueues q), ¬ a.StaysReady x)
include ha

/-- The other levels are as they were. -/
theorem searched_other {q' : Nat} (hne : q' ≠ q) :
    (searched a q).queues (.mlQueues q') = a.queues (.mlQueues q') ∧
      ∀ x ∈ a.queues (.mlQueues q'), ((searched a q).StaysReady x ↔ a.StaysReady x) := by
  refine ⟨by simp [searched, hne], fun x hx ↦ ?_⟩
  have hnot : x ∉ a.queues (.mlQueues q) := fun hx' ↦
    hne (QueueId.mlQueues.inj (ha.disjoint _ _ x hx hx'))
  have hpcb : (searched a q).pcb x = a.pcb x := signalAll_pcb_of_notMem _ hnot
  rw [Globals.StaysReady, hpcb, Globals.StaysReady]

include hq

theorem TakenAt.of_searched (hhigher : q ∉ higher) (hlevel : level ≠ q)
    (h : TakenAt (searched a q) higher level skipped p rest a') :
    TakenAt a (q :: higher) level skipped p rest a' := by
  obtain ⟨hqueue, hsame⟩ := searched_other ha hlevel
  have hl : a.queues (.mlQueues level) = skipped ++ p :: rest := hqueue.symm.trans h.queue
  refine ⟨hl, ?_, fun x hx ↦ ?_, ?_, ?_, h.remains, fun q' hq' hne ↦ ?_⟩
  · exact (hsame p (by rw [hl]; simp)).mp h.ready
  · exact fun hr ↦ h.passed x hx ((hsame x (by rw [hl]; simp [hx])).mpr hr)
  · rintro q' (_ | ⟨_, hq'⟩) x hx
    · exact hq x hx
    · obtain ⟨hqueue', hsame'⟩ := searched_other ha fun he : q' = q ↦ hhigher (he ▸ hq')
      exact fun hr ↦ h.above q' hq' x (hqueue' ▸ hx) ((hsame' x hx).mpr hr)
  · rintro q' (_ | ⟨_, hq'⟩)
    · exact (h.other q hhigher hlevel.symm).trans (searched_self a q)
    · exact h.emptied q' hq'
  · rw [List.mem_cons, not_or] at hq'
    exact (h.other q' hq'.2 hne).trans (searched_other ha hq'.1).1

theorem Exhausted.of_searched (hlevels : q ∉ levels) (h : Exhausted (searched a q) levels a') :
    Exhausted a (q :: levels) a' := by
  refine ⟨?_, ?_, fun q' hq' ↦ ?_⟩
  · rintro q' (_ | ⟨_, hq'⟩) x hx
    · exact hq x hx
    · obtain ⟨hqueue', hsame'⟩ := searched_other ha fun he : q' = q ↦ hlevels (he ▸ hq')
      exact fun hr ↦ h.passed q' hq' x (hqueue' ▸ hx) ((hsame' x hx).mpr hr)
  · rintro q' (_ | ⟨_, hq'⟩)
    · exact (h.other q hlevels).trans (searched_self a q)
    · exact h.emptied q' hq'
  · rw [List.mem_cons, not_or] at hq'
    exact (h.other q' hq'.2).trans (searched_other ha hq'.1).1

end

/-- The search finds the first process that stays `READY`, in level order and from the front of each
level. -/
theorem takeFromLevels_first (ha : Tidy a) (hlevels : levels.Nodup) :
    (∃ higher level lower skipped p rest, levels = higher ++ level :: lower ∧
      (takeFromLevels levels a).1 = some (p, level) ∧
      TakenAt a higher level skipped p rest (takeFromLevels levels a).2) ∨
    ((takeFromLevels levels a).1 = none ∧ Exhausted a levels (takeFromLevels levels a).2) := by
  induction levels generalizing a with
  | nil => exact .inr ⟨rfl, nofun, nofun, fun _ _ ↦ rfl⟩
  | cons q levels ih =>
      obtain ⟨hq, hlevels⟩ := List.nodup_cons.mp hlevels
      obtain ⟨skipped, p, rest, hl, htake, hp, hskipped⟩ | ⟨hnone, hskipped⟩ :=
        takeReady_first (g := a.toGlobals) (ha.nodup (.mlQueues q))
      · simp only [takeFromLevels, htake]
        refine .inl ⟨[], q, levels, skipped, p, rest, rfl, rfl, hl, hp, hskipped,
          nofun, nofun, ?_, ?_⟩
        · exact Function.update_self (QueueId.mlQueues q) rest a.queues
        · intro q' _ hne
          exact Function.update_of_ne (fun he ↦ hne (QueueId.mlQueues.inj he)) rest a.queues
      · have hleads := takeReady_leads ha (q := .mlQueues q) rfl
        rw [hnone] at hleads
        have hsteps : ∀ next a', Search (searched a q) next a' → Search a next a' := hleads
        have hrest : takeFromLevels (q :: levels) a = takeFromLevels levels (searched a q) := by
          simp only [takeFromLevels, hnone]
          rfl
        rw [hrest]
        obtain ⟨higher, level, lower, skipped, p, rest, rfl, hfound, htaken⟩ | ⟨hfound, hex⟩ :=
          ih ((hsteps _ _ Search.none).tidy ha) hlevels
        · rw [List.mem_append, List.mem_cons, not_or, not_or] at hq
          obtain ⟨hhigher, hlevel, -⟩ := hq
          exact .inl ⟨q :: higher, level, lower, skipped, p, rest, rfl, hfound,
            htaken.of_searched ha hskipped hhigher fun he ↦ hlevel he.symm⟩
        · exact .inr ⟨hfound, hex.of_searched ha hskipped hq⟩

/-- An invocation ends with the switch to what the search has found, which gets the quantum of its
level, or to init. -/
theorem pickNext_cascade {policy : MultilevelPolicy} (hpolicy : a.algorithm.mlPolicy = some policy)
    (h : pickNext a = some a') {found : Option (PcbPtr × Nat)} {a₁ : Kernel Lists}
    (hr : takeFromLevels (List.range policy.nLevels) (parked a) = (found, a₁)) :
    a'.queues = a₁.queues ∧ a'.currentProcess = (found.map (·.1)).getD .initProcess ∧
      ∀ p level, found = some (p, level) →
        (a'.pcb p).counter = policy.quantum.getD level 0 := by
  obtain ⟨⟨next, a₂⟩, hselect, rfl⟩ := Option.map_eq_some_iff.mp h
  have halg : (parked a).algorithm = a.algorithm := by
    rw [Globals.algorithm, parked, park_activeAlgorithm]
    rfl
  have hpick : a.algorithm.pickNext = .scheduleMultilevel := by
    revert hpolicy
    unfold Globals.algorithm
    cases a.activeAlgorithm <;> simp [Algorithm.descriptor]
  rw [select, choose, halg, hpick, hpolicy, Option.map_some, hr] at hselect
  cases found with
  | none =>
      obtain ⟨rfl, rfl⟩ := Prod.mk.inj (Option.some.inj hselect)
      exact ⟨rfl, Globals.dispatch_currentProcess .., by simp⟩
  | some r =>
      obtain ⟨p, level⟩ := r
      obtain ⟨rfl, rfl⟩ := Prod.mk.inj (Option.some.inj hselect)
      refine ⟨rfl, Globals.dispatch_currentProcess .., ?_⟩
      rintro _ _ ⟨⟩
      rw [Kernel.mapGlobals_toGlobals, Globals.dispatch_pcb_self, Kernel.mapGlobals_toGlobals,
        Globals.setCounter, Globals.modifyPcb_pcb_self]

end Spec

/-! ## Invocations -/

/-- The levels before one at which the search stops are those with smaller numbers. -/
theorem range_split {n level : Nat} {higher lower : List Nat}
    (h : List.range n = higher ++ level :: lower) :
    level < n ∧ ∀ q, q ∈ higher ↔ q < level := by
  have hsorted := @List.pairwise_lt_range n
  rw [h] at hsorted
  obtain ⟨-, hlower, hacross⟩ := List.pairwise_append.mp hsorted
  have hlevel : level ∈ List.range n := by
    rw [h]
    simp
  have hlt := List.mem_range.mp hlevel
  refine ⟨hlt, fun q ↦ ⟨fun hq ↦ hacross q hq level List.mem_cons_self, fun hq ↦ ?_⟩⟩
  have hmem : q ∈ List.range n := List.mem_range.mpr (hq.trans hlt)
  rw [h, List.mem_append, List.mem_cons] at hmem
  rcases hmem with hmem | rfl | hmem
  · exact hmem
  · exact absurd hq (lt_irrefl q)
  · exact absurd ((List.pairwise_cons.mp hlower).1 q hmem) (by omega)

/-- `x` left its queue unchosen: it did not stay `READY`, but was killed or stopped. -/
def PassedOver (parked k' : Kernel Pointers) (x : PcbPtr) : Prop :=
  ¬ parked.StaysReady x ∧ ((k'.pcb x).state = .zombie ∨ (k'.pcb x).state = .stopped)

/-- The process `p` is dispatched from `level`, where it comes after `skipped` and before `rest`. -/
structure DispatchedFrom (policy : MultilevelPolicy) (parked k' : Kernel Pointers)
    (queues : Nat → List PcbPtr) (level : Nat) (skipped : List PcbPtr) (p : PcbPtr)
    (rest : List PcbPtr) : Prop where
  level_lt : level < policy.nLevels
  queue : queues level = skipped ++ p :: rest
  ready : parked.StaysReady p
  current : k'.currentProcess = p
  counter : (k'.pcb p).counter = policy.quantum.getD level 0
  passed : ∀ x ∈ skipped, PassedOver parked k' x
  remains : k'.WellLinked (.mlQueues level) rest
  higher : ∀ q < level, k'.WellLinked (.mlQueues q) [] ∧ ∀ x ∈ queues q, PassedOver parked k' x
  lower : ∀ q, level < q → k'.WellLinked (.mlQueues q) (queues q)

section

variable {policy : MultilevelPolicy} {a a' a₂ : Kernel Lists} {parked k' : Kernel Pointers}

/-- No queue beyond the levels of the policy is used. -/
theorem Spec.parked_exists (ha : Inv a) (henq : a.algorithm.enqueue = .enqueueMultilevel) {q : Nat}
    (hq : ML_MAX_LEVELS ≤ q) : (Spec.parked a).queues (.mlQueues q) = [] := by
  refine List.eq_nil_iff_forall_not_mem.mpr fun x hx ↦ ?_
  rcases Spec.mem_parked.mp hx with hx | ⟨-, -, htarget⟩
  · exact absurd (ha.queueExists q (List.ne_nil_of_mem hx)) (not_lt.mpr hq)
  · simp only [Spec.targetQueue, henq, QueueId.mlQueues.injEq] at htarget
    exact absurd (htarget ▸ ha.level _) (not_lt.mpr hq)

variable (ha : Inv a) (hinv : Invocation a a') (hpark : Sim parked (Spec.parked a)) (h' : Sim k' a')
  (hqueues : a'.queues = a₂.queues)
include ha hinv hpark h'

theorem PassedOver.of_removed {q : QueueId} {x : PcbPtr} (hx : x ∈ (Spec.parked a).queues q)
    (hgone : x ∉ a'.queues q) (hne : x ≠ a'.currentProcess)
    (hnot : ¬ (Spec.parked a).StaysReady x) :
    PassedOver parked k' x := by
  rw [PassedOver, hpark.globals, h'.globals]
  exact ⟨hnot, hinv.removed ha hx hgone hne⟩

include hqueues

/-- The search has found `p`. -/
theorem DispatchedFrom.of_taken {higher : List Nat} {level : Nat} {skipped rest : List PcbPtr}
    {p : PcbPtr} (htaken : Spec.TakenAt (Spec.parked a) higher level skipped p rest a₂)
    (hlt : level < policy.nLevels) (hhigher : ∀ q, q ∈ higher ↔ q < level)
    (hcur : a'.currentProcess = p) (hcounter : (a'.pcb p).counter = policy.quantum.getD level 0) :
    DispatchedFrom policy parked k' (fun q ↦ (Spec.parked a).queues (.mlQueues q)) level skipped p
      rest := by
  have hsel := Spec.parked_selectable ha
  have hdist := hsel.nodup (.mlQueues level)
  rw [htaken.queue] at hdist
  obtain ⟨-, -, hapart⟩ := List.nodup_append.mp hdist
  have hp : p ∈ (Spec.parked a).queues (.mlQueues level) := by
    rw [htaken.queue]
    exact List.mem_append_right skipped List.mem_cons_self
  refine ⟨hlt, htaken.queue, hpark.globals ▸ htaken.ready, h'.globals ▸ hcur,
    h'.globals ▸ hcounter, fun x hx ↦ ?_, h'.wellLinked ?_,
    fun q hq ↦ ⟨h'.wellLinked ?_, fun x hx ↦ ?_⟩, fun q hq ↦ h'.wellLinked ?_⟩
  · -- before `p` at its level
    refine .of_removed ha hinv hpark h' (q := .mlQueues level) ?_ ?_ ?_ (htaken.passed x hx)
    · rw [htaken.queue]
      exact List.mem_append_left _ hx
    · rw [hqueues, htaken.remains]
      exact fun hm ↦ hapart x hx x (List.mem_cons_of_mem p hm) rfl
    · rw [hcur]
      exact hapart x hx p List.mem_cons_self
  · rw [hqueues, htaken.remains]
  · rw [hqueues, htaken.emptied q ((hhigher q).mpr hq)]
  · -- at a higher level
    have hmem := (hhigher q).mpr hq
    refine .of_removed ha hinv hpark h' hx ?_ ?_ (htaken.above q hmem x hx)
    · rw [hqueues, htaken.emptied q hmem]
      exact List.not_mem_nil
    · rw [hcur]
      rintro rfl
      obtain rfl := QueueId.mlQueues.inj (hsel.disjoint _ _ _ hx hp)
      exact lt_irrefl _ hq
  · rw [hqueues]
    exact htaken.other q (fun hm ↦ absurd ((hhigher q).mp hm) (by omega)) (by omega)

/-- The search has found nobody. -/
theorem PassedOver.of_exhausted
    (hex : Spec.Exhausted (Spec.parked a) (List.range policy.nLevels) a₂)
    (hexists : ∀ q, policy.nLevels ≤ q → (Spec.parked a).queues (.mlQueues q) = [])
    (hcur : a'.currentProcess = .initProcess) (q : Nat) :
    k'.WellLinked (.mlQueues q) [] ∧
      ∀ x ∈ (Spec.parked a).queues (.mlQueues q), PassedOver parked k' x := by
  have hempty : a'.queues (.mlQueues q) = [] := by
    rw [hqueues]
    by_cases hq : q < policy.nLevels
    · exact hex.emptied q (List.mem_range.mpr hq)
    · rw [hex.other q fun hm ↦ hq (List.mem_range.mp hm), hexists q (not_lt.mp hq)]
  refine ⟨h'.wellLinked hempty, fun x hx ↦ ?_⟩
  have hq : q < policy.nLevels := by
    by_contra hq
    rw [hexists q (not_lt.mp hq)] at hx
    exact List.not_mem_nil hx
  refine .of_removed ha hinv hpark h' hx ?_ ?_ (hex.passed q (List.mem_range.mpr hq) x hx)
  · rw [hempty]
    exact List.not_mem_nil
  · rw [hcur]
    rintro rfl
    exact (Spec.parked_selectable ha).init _ hx

end

end DemosOS
