import DemosOS.Sched.Steps

/-!
# The choice of priority aging

The first walk over the queue handles all signals; from then on the processes that are left are
`READY` and have no signals, so that every later walk only looks for the largest counter.  The loop
therefore is: as long as nobody has ticks left, recharge everybody; then take the first process with
the largest counter.
-/

namespace DemosOS

/-! ## The largest counter -/

namespace Spec

variable {g : Globals} {l : List PcbPtr}

/-- The candidate from before is as good as all of the list, or the choice is the first process of
the list with the largest counter. -/
theorem best_split {candidate : Option PcbPtr} {m : Int} {p : PcbPtr}
    (h : best g candidate m l = some p) :
    (candidate = some p ∧ ∀ x ∈ l, (g.pcb x).counter ≤ m) ∨
      ∃ pre post, l = pre ++ p :: post ∧ m < (g.pcb p).counter ∧
        (∀ x ∈ pre, (g.pcb x).counter < (g.pcb p).counter) ∧
        ∀ x ∈ post, (g.pcb x).counter ≤ (g.pcb p).counter := by
  induction l generalizing candidate m with
  | nil => exact .inl ⟨h, nofun⟩
  | cons y l ih =>
      rw [best] at h
      split_ifs at h with hy
      · refine .inr ?_
        rcases ih h with ⟨hc, hle⟩ | ⟨pre, post, rfl, hlt, hpre, hpost⟩
        · obtain rfl := Option.some.inj hc
          exact ⟨[], l, rfl, hy, nofun, hle⟩
        · refine ⟨y :: pre, post, rfl, hy.trans hlt, ?_, hpost⟩
          rintro x (_ | ⟨_, hx⟩)
          · exact hlt
          · exact hpre x hx
      · rcases ih h with ⟨hc, hle⟩ | ⟨pre, post, rfl, hlt, hpre, hpost⟩
        · refine .inl ⟨hc, ?_⟩
          rintro x (_ | ⟨_, hx⟩)
          · exact not_lt.mp hy
          · exact hle x hx
        · refine .inr ⟨y :: pre, post, rfl, hlt, ?_, hpost⟩
          rintro x (_ | ⟨_, hx⟩)
          · omega
          · exact hpre x hx

/-- The chosen process has ticks left. -/
theorem best_pos {candidate : Option PcbPtr} {m : Int} {p : PcbPtr}
    (h : best g candidate m l = some p) : candidate = some p ∨ m < (g.pcb p).counter := by
  rcases best_split h with ⟨hc, -⟩ | ⟨-, -, -, hlt, -⟩
  · exact .inl hc
  · exact .inr hlt

/-! ## The walks after the first one -/

theorem signalAll_of_noSignal (h : ∀ p ∈ l, (g.pcb p).NoSignal) : signalAll g l = g := by
  induction l with
  | nil => rfl
  | cons p l ih =>
      obtain ⟨hkill, hstop, hresume⟩ := h p List.mem_cons_self
      have hsame : (g.pcb p).signalled = g.pcb p := by
        simp [PCB.signalled, hkill, hstop, hresume]
      have hself : g.signal p = g := by
        simp [Globals.signal, Globals.modifyPcb, hsame]
      rw [signalAll_cons, hself]
      exact ih fun x hx ↦ h x (List.mem_cons_of_mem _ hx)

theorem survivors_of_ready (h : ∀ p ∈ l, (g.pcb p).state = .ready) : survivors g l = l :=
  List.filter_eq_self.mpr fun p hp ↦ decide_eq_true (h p hp)

/-- The processes of `l` are `READY` and have no signals. -/
structure Handled (g : Globals) (l : List PcbPtr) : Prop where
  ready : ∀ p ∈ l, (g.pcb p).state = .ready
  signals : ∀ p ∈ l, (g.pcb p).NoSignal

theorem Handled.recharge (h : Handled g l) : Handled g.recharge l where
  ready p hp := (Globals.recharge_field PCB.state (fun _ _ ↦ rfl) g p).trans (h.ready p hp)
  signals p hp := by
    have hpending := Globals.recharge_field PCB.pendingSignals (fun _ _ ↦ rfl) g p
    have hsame : (g.recharge.pcb p).NoSignal ↔ (g.pcb p).NoSignal := by
      simp only [PCB.NoSignal, PCB.hasSignal, hpending]
    exact hsame.mpr (h.signals p hp)

theorem signalAll_counter (hl : l.Nodup) (p : PcbPtr) :
    ((signalAll g l).pcb p).counter = (g.pcb p).counter := by
  by_cases hp : p ∈ l
  · rw [signalAll_pcb_of_mem g hl hp, PCB.signalled_counter]
  · rw [signalAll_pcb_of_notMem g hp]

/-- What the first walk leaves behind. -/
theorem handled_signalAll (hl : l.Nodup) (hready : ∀ p ∈ l, (g.pcb p).state = .ready) :
    Handled (signalAll g l) (survivors (signalAll g l) l) where
  ready p hp := of_decide_eq_true (List.mem_filter.mp hp).2
  signals p hp := by
    obtain ⟨hpl, hstate⟩ := List.mem_filter.mp hp
    have hsig := signalAll_pcb_of_mem g hl hpl
    rw [hsig] at hstate ⊢
    exact PCB.noSignal_signalled (hready p hpl) (of_decide_eq_true hstate)

/-- The survivors of the first walk. -/
theorem survivors_signalAll (hl : l.Nodup) :
    survivors (signalAll g l) l = l.filter fun p ↦ (g.pcb p).signalled.state = .ready :=
  List.filter_congr fun p hp ↦ by rw [signalAll_pcb_of_mem g hl hp]

/-- The loop only depends on what the first walk leaves behind. -/
theorem agingLoop_signalAll (hl : l.Nodup) (hready : ∀ p ∈ l, (g.pcb p).state = .ready)
    (fuel : Nat) :
    agingLoop fuel g l = agingLoop fuel (signalAll g l) (survivors (signalAll g l) l) := by
  have hh := handled_signalAll hl hready
  cases fuel with
  | zero => rfl
  | succ fuel =>
      simp only [agingLoop, signalAll_of_noSignal hh.signals, survivors_of_ready hh.ready]

/-- The loop over processes without signals: recharge `n` times, as long as nobody has ticks left,
and take the first process with the largest counter. -/
theorem agingLoop_handled {fuel : Nat} (hh : Handled g l)
    {r : Globals × Option PcbPtr × List PcbPtr} (h : agingLoop fuel g l = some r) :
    ∃ n, (∀ m < n, ∀ x ∈ l, ((Globals.recharge^[m] g).pcb x).counter ≤ 0) ∧
      ((l = [] ∧ n = 0 ∧ r = (g, none, [])) ∨
        ∃ p, best (Globals.recharge^[n] g) none 0 l = some p ∧
          r = (Globals.recharge^[n] g, some p, l.erase p)) := by
  induction fuel generalizing g with
  | zero => cases h
  | succ fuel ih =>
      simp only [agingLoop, signalAll_of_noSignal hh.signals, survivors_of_ready hh.ready] at h
      cases hbest : best g none 0 l with
      | some p =>
          rw [hbest] at h
          exact ⟨0, fun m hm ↦ absurd hm m.not_lt_zero, .inr ⟨p, hbest, (Option.some.inj h).symm⟩⟩
      | none =>
          rw [hbest] at h
          dsimp only at h
          split_ifs at h with hnil
          · exact ⟨0, fun m hm ↦ absurd hm m.not_lt_zero, .inl ⟨hnil, rfl, (Option.some.inj h).symm⟩⟩
          · obtain ⟨n, hbefore, hr⟩ := ih hh.recharge h
            refine ⟨n + 1, fun m hm ↦ ?_, .inr (hr.resolve_left fun hr ↦ hnil hr.1)⟩
            cases m with
            | zero => exact best_eq_none hbest
            | succ m => exact hbefore m (by omega)

end Spec

/-! ## Recharges -/

/-- The body of the epoch recharge, for one counter. -/
def rechargeCounter (priority counter : Int) : Int := (counter >>> (1 : Nat)) + priority

namespace Globals

/-- A recharge reaches each process of the table once. -/
theorem Table.recharge_counter {g : Globals} (h : g.Table) {p : PcbPtr} (hp : g.Known p) :
    (g.recharge.pcb p).counter = rechargeCounter (g.pcb p).priority (g.pcb p).counter :=
  Globals.recharge_counter (h.pid_lt_max hp) (h.processes_pid hp) fun _ hj ↦ (h.slot hj).2.symm

/-- Recharges in a row. -/
theorem Table.recharges_counter {g : Globals} (h : g.Table) {p : PcbPtr} (hp : g.Known p)
    (n : Nat) :
    ((recharge^[n] g).pcb p).counter =
      (rechargeCounter (g.pcb p).priority)^[n] (g.pcb p).counter := by
  induction n generalizing g with
  | zero => rfl
  | succ n ih =>
      have hstatic := g.static_recharge
      rw [Function.iterate_succ_apply, Function.iterate_succ_apply,
        ih (h.of_static hstatic) ((known_of_static hstatic p).mpr hp), h.recharge_counter hp,
        priority_of_static hstatic]

end Globals

/-! ## An invocation -/

/-- An invocation ends with the switch to the choice of the loop, or to init. -/
theorem Spec.pickNext_aging {a a' : Kernel Lists} (halg : a.activeAlgorithm = .priorityAging)
    (h : Spec.pickNext a = some a') :
    ∃ r, Spec.agingLoop (Spec.parked a).EPOCH_FUEL (Spec.parked a).toGlobals
        ((Spec.parked a).queues .readyQueue) = some r ∧
      a' = ⟨r.1.dispatch (r.2.1.getD .initProcess),
        Function.update (Spec.parked a).queues .readyQueue r.2.2⟩ := by
  obtain ⟨⟨next, a₁⟩, hselect, rfl⟩ := Option.map_eq_some_iff.mp h
  have halg' : (Spec.parked a).algorithm = Algorithm.priorityAging.descriptor := by
    rw [Globals.algorithm, Spec.parked, Spec.park_activeAlgorithm]
    exact congrArg Algorithm.descriptor halg
  rw [Spec.select, Spec.choose, halg'] at hselect
  obtain ⟨⟨g, found, l⟩, hr, hsettle⟩ := Option.map_eq_some_iff.mp hselect
  refine ⟨_, hr, ?_⟩
  cases found with
  | none =>
      obtain ⟨rfl, rfl⟩ := Prod.mk.inj hsettle
      rfl
  | some p =>
      obtain ⟨rfl, rfl⟩ := Prod.mk.inj hsettle
      rfl

namespace Spec

variable {a a' : Kernel Lists} {l live : List PcbPtr}

/-- The counters after the first walk and some recharges. -/
theorem recharges_signalAll (ha : Inv a) (hl : l.Nodup) {p : PcbPtr} (hp : a.Known p) (n : Nat) :
    ((Globals.recharge^[n] (signalAll (parked a).toGlobals l)).pcb p).counter =
      (rechargeCounter (a.pcb p).priority)^[n] (a.pcb p).counter := by
  have hstatic := static_signalAll (parked a).toGlobals l
  have hknown : (parked a).Known p := (Globals.known_of_frozen (frozen_parked a) p).mpr hp
  rw [((parked_selectable ha).table.of_static hstatic).recharges_counter
    ((Globals.known_of_static hstatic p).mpr hknown), Globals.priority_of_static hstatic,
    signalAll_counter hl, parked_field a PCB.counter (fun _ _ ↦ rfl) fun _ _ ↦ rfl,
    parked_field a PCB.priority (fun _ _ ↦ rfl) fun _ _ ↦ rfl]

variable (ha : Inv a) (hl : (parked a).queues .readyQueue = l)
  (hlive : l.filter (fun p ↦ ((parked a).pcb p).signalled.state = .ready) = live)
include ha hl hlive

/-- The invocation, on lists. -/
theorem aging_choice (halg : a.activeAlgorithm = .priorityAging) (h : pickNext a = some a')
    (hinv : Invocation a a') :
    ∃ n, (∀ p, a.Known p → (a'.pcb p).counter =
        (rechargeCounter (a.pcb p).priority)^[n] (a.pcb p).counter) ∧
      (∀ m < n, ∀ p ∈ live,
        (rechargeCounter (a.pcb p).priority)^[m] (a.pcb p).counter ≤ 0) ∧
      (∀ p ∈ l, p ∉ live → (a'.pcb p).state = .zombie ∨ (a'.pcb p).state = .stopped) ∧
      ((live = [] ∧ n = 0 ∧ a'.currentProcess = .initProcess ∧ a'.queues .readyQueue = []) ∨
        ∃ pre p post, live = pre ++ p :: post ∧ a'.currentProcess = p ∧
          a'.queues .readyQueue = pre ++ post ∧ 0 < (a'.pcb p).counter ∧
          (∀ x ∈ pre, (a'.pcb x).counter < (a'.pcb p).counter) ∧
          ∀ x ∈ post, (a'.pcb x).counter ≤ (a'.pcb p).counter) := by
  have hsel := parked_selectable ha
  have hnodup : l.Nodup := hl ▸ hsel.nodup .readyQueue
  have hready : ∀ p ∈ l, ((parked a).pcb p).state = .ready := fun p hp ↦
    hsel.ready .readyQueue p (hl ▸ hp)
  have hmem : ∀ p ∈ live, p ∈ l := fun p hp ↦ (List.mem_filter.mp (hlive ▸ hp)).1
  have hknown : ∀ p ∈ live, a.Known p := fun p hp ↦
    (Globals.known_of_frozen (frozen_parked a) p).mp
      (hsel.known .readyQueue p (hl ▸ hmem p hp)).1
  -- the switch changes no counter
  have hswitch : ∀ (g : Globals) (next p : PcbPtr),
      ((g.dispatch next).pcb p).counter = (g.pcb p).counter := fun g next p ↦
    g.dispatch_field next PCB.counter (fun _ _ ↦ rfl) (fun _ _ ↦ rfl) p
  obtain ⟨r, hloop, rfl⟩ := pickNext_aging halg h
  rw [hl, agingLoop_signalAll hnodup hready] at hloop
  obtain ⟨n, hbefore, hr⟩ := agingLoop_handled (handled_signalAll hnodup hready) hloop
  rw [survivors_signalAll hnodup, hlive] at hbefore hr
  have hbefore' : ∀ m < n, ∀ p ∈ live,
      (rechargeCounter (a.pcb p).priority)^[m] (a.pcb p).counter ≤ 0 := by
    intro m hm p hp
    rw [← recharges_signalAll ha hnodup (hknown p hp)]
    exact hbefore m hm p hp
  rcases hr with ⟨hnil, rfl, rfl⟩ | ⟨p, hbest, rfl⟩
  · have hcur := Globals.dispatch_currentProcess (signalAll (parked a).toGlobals l) .initProcess
    have hqueue := Function.update_self QueueId.readyQueue [] (parked a).queues
    refine ⟨0, fun p hp ↦ ?_, hbefore', fun p hp _ ↦ ?_, .inl ⟨hnil, rfl, hcur, hqueue⟩⟩
    · exact (hswitch _ _ _).trans (recharges_signalAll ha hnodup hp 0)
    · refine hinv.removed ha (hl ▸ hp) (fun hq ↦ ?_) fun he ↦ ?_
      · exact List.not_mem_nil (hqueue ▸ hq)
      · exact hsel.init .readyQueue (hl ▸ hcur ▸ he ▸ hp)
  · obtain ⟨pre, post, hsplit, hpos, hpre, hpost⟩ := (best_split hbest).resolve_left nofun
    have hp : p ∈ live := by
      rw [hsplit]
      exact List.mem_append_right pre List.mem_cons_self
    have herase : live.erase p = pre ++ post := by
      have hsub : live.Nodup := hlive ▸ hnodup.filter _
      rw [hsplit] at hsub ⊢
      have hnot : p ∉ pre := fun hm ↦
        (List.nodup_cons.mp (List.nodup_middle.mp hsub)).1 (List.mem_append_left post hm)
      rw [List.erase_append_right _ hnot, List.erase_cons_head]
    have hcur := Globals.dispatch_currentProcess
      (Globals.recharge^[n] (signalAll (parked a).toGlobals l)) p
    have hqueue := Function.update_self QueueId.readyQueue (live.erase p) (parked a).queues
    refine ⟨n, fun x hx ↦ ?_, hbefore', fun x hx hgone ↦ ?_,
      .inr ⟨pre, p, post, hsplit, hcur, hqueue.trans herase, ?_⟩⟩
    · exact (hswitch _ _ _).trans (recharges_signalAll ha hnodup hx n)
    · refine hinv.removed ha (hl ▸ hx) (fun hq ↦ ?_) fun he ↦ ?_
      · exact hgone (List.mem_of_mem_erase (hqueue ▸ hq))
      · exact hgone (he.trans hcur ▸ hp)
    · simp only [hswitch]
      exact ⟨hpos, hpre, hpost⟩

end Spec

end DemosOS
