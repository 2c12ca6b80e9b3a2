import DemosOS.Sched.Refinement
import DemosOS.Sched.Search

/-!
# Every selection is a search

The list versions of the five selection functions perform searches in the sense of
`DemosOS.Sched.Search`, and they end: the lottery because every draw that fails
removes a process, priority aging because every recharge with a positive priority
raises the counters that are not positive yet.
-/

namespace DemosOS

theorem Globals.setCounter_self (g : Globals) (p : PcbPtr) :
    g.setCounter p (g.pcb p).counter = g := by
  simp [setCounter, modifyPcb]

/-- A recharge adds to a counter that is used up. -/
theorem Globals.Table.recharge_gain {g : Globals} (h : g.Table) {p : PcbPtr}
    (hp : g.Known p) (hle : (g.pcb p).counter ≤ 0) (hprio : 1 ≤ (g.pcb p).priority) :
    (g.pcb p).counter + 1 ≤ (g.recharge.pcb p).counter := by
  rw [Globals.recharge_counter (h.pid_lt_max hp) (h.processes_pid hp)
    fun j hj ↦ (h.slot hj).2.symm, Int.shiftRight_eq_div_pow]
  omega

/-! ## The queues of an algorithm -/

/-- The active algorithm keeps processes in the queue `q`. -/
def Globals.Serves (g : Globals) (q : QueueId) : Prop :=
  match g.algorithm.mlPolicy with
  | none => q = .readyQueue
  | some policy => ∃ l < policy.nLevels, q = .mlQueues l

theorem Globals.serves_single (g : Globals) (h : g.algorithm.pickNext ≠ .scheduleMultilevel)
    {q : QueueId} : g.Serves q ↔ q = .readyQueue := by
  unfold Serves
  unfold algorithm at *
  revert h
  cases g.activeAlgorithm <;> simp [Algorithm.descriptor]

theorem Globals.serves_multilevel (g : Globals) {policy : MultilevelPolicy}
    (hpolicy : g.algorithm.mlPolicy = some policy) {q : QueueId} :
    g.Serves q ↔ ∃ l < policy.nLevels, q = .mlQueues l := by
  rw [Serves, hpolicy]

namespace Spec

/-! ## Partial searches -/

/-- The search of the queue `q` from `a` has come to `r`: the globals, what it has
found and what is left of the queue. -/
def Leads (a : Kernel Lists) (q : QueueId) (r : Globals × Option PcbPtr × List PcbPtr) : Prop :=
  match r.2.1 with
  | some p => ∀ c, Search a (some p) ⟨r.1.setCounter p c, Function.update a.queues q r.2.2⟩
  | none => ∀ next a', Search ⟨r.1, Function.update a.queues q r.2.2⟩ next a' → Search a next a'

/-- Search steps on the same queue can be put in front. -/
theorem Leads.of_steps {a a₁ : Kernel Lists} {q : QueueId}
    {r : Globals × Option PcbPtr × List PcbPtr} (h : Leads a₁ q r)
    (hsteps : ∀ next a', Search a₁ next a' → Search a next a')
    (hqs : ∀ l, Function.update a₁.queues q l = Function.update a.queues q l) : Leads a q r := by
  obtain ⟨g, next, l⟩ := r
  cases next with
  | some p => exact fun c ↦ hqs l ▸ hsteps _ _ (h c)
  | none => exact fun next a' hs ↦ hsteps _ _ (h next a' (by rwa [hqs l]))

variable {a : Kernel Lists} {q : QueueId}

/-- A queued process that is ready after its signals can be taken. -/
theorem Leads.take (ha : Tidy a) {p : PcbPtr} {pre post : List PcbPtr}
    (hq : a.queues q = pre ++ p :: post) (hp : (a.pcb p).signalled.state = .ready) :
    Leads a q (a.toGlobals.signal p, some p, pre ++ post) := by
  have hmem : p ∈ a.queues q := by rw [hq]; simp
  have hno := PCB.noSignal_signalled (ha.ready q p hmem) hp
  intro c
  refine Search.keep hmem hp (Search.found (a := a.mapGlobals (·.signal p)) c hq ?_)
  rwa [Kernel.mapGlobals_toGlobals, Globals.signal_pcb_self]

/-! ## The dequeue loop -/

/-- A dequeue loop takes a process and leaves those behind it, or empties the list. -/
theorem takeReady_split (g : Globals) (l : List PcbPtr) :
    (∃ skipped p rest, l = skipped ++ p :: rest ∧ (takeReady g l).2 = (some p, rest)) ∨
      (takeReady g l).2 = (none, []) := by
  induction l generalizing g with
  | nil => exact .inr rfl
  | cons p l ih =>
      rw [takeReady]
      split_ifs with hready
      · exact .inl ⟨[], p, l, rfl, rfl⟩
      · obtain ⟨skipped, x, rest, hl, htake⟩ | hnone := ih (g.signal p)
        · exact .inl ⟨p :: skipped, x, rest, by rw [hl]; rfl, htake⟩
        · exact .inr hnone

/-- A dequeue loop that finds nobody has emptied the queue. -/
theorem takeReady_none {g : Globals} {l : List PcbPtr} (h : (takeReady g l).2.1 = none) :
    (takeReady g l).2.2 = [] := by
  obtain ⟨skipped, p, rest, -, htake⟩ | htake := takeReady_split g l
  · rw [htake] at h
    cases h
  · rw [htake]

/-- A dequeue loop takes the first process that is `READY` after its signals. -/
theorem takeReady_first {g : Globals} {l : List PcbPtr} (hl : l.Nodup) :
    (∃ skipped p rest, l = skipped ++ p :: rest ∧
      takeReady g l = (signalAll g (skipped ++ [p]), some p, rest) ∧
      (g.pcb p).signalled.state = .ready ∧
      ∀ x ∈ skipped, (g.pcb x).signalled.state ≠ .ready) ∨
    (takeReady g l = (signalAll g l, none, []) ∧ ∀ x ∈ l, (g.pcb x).signalled.state ≠ .ready) := by
  induction l generalizing g with
  | nil => exact .inr ⟨rfl, nofun⟩
  | cons p l ih =>
      obtain ⟨hp, hl⟩ := List.nodup_cons.mp hl
      have hother : ∀ x ∈ l, (g.signal p).pcb x = g.pcb x := fun x hx ↦
        Globals.signal_pcb_of_ne g fun he ↦ hp (he ▸ hx)
      rw [takeReady]
      split_ifs with hready
      · exact .inl ⟨[], p, l, rfl, rfl, hready, nofun⟩
      · obtain ⟨skipped, x, rest, rfl, htake, hx, hskipped⟩ | ⟨hnone, hskipped⟩ :=
          ih (g := g.signal p) hl
        · refine .inl ⟨p :: skipped, x, rest, rfl, htake, ?_, ?_⟩
          · rwa [hother x (by simp)] at hx
          · rintro y (_ | ⟨_, hy⟩)
            · exact hready
            · rw [← hother y (List.mem_append_left _ hy)]
              exact hskipped y hy
        · refine .inr ⟨hnone, ?_⟩
          rintro y (_ | ⟨_, hy⟩)
          · exact hready
          · rw [← hother y hy]
            exact hskipped y hy

theorem takeReady_leads {l : List PcbPtr} (ha : Tidy a) (hl : a.queues q = l) :
    Leads a q (takeReady a.toGlobals l) := by
  induction l generalizing a with
  | nil =>
      intro next a' h
      have hqs : Function.update a.queues q [] = a.queues := by rw [← hl, Function.update_eq_self]
      simpa [takeReady, hqs] using h
  | cons p l ih =>
      have hpre : a.queues q = [] ++ p :: l := hl
      by_cases hp : (a.pcb p).signalled.state = .ready
      · simpa [takeReady, hp] using Leads.take ha hpre hp
      · have hother : ∀ y, y ≠ p → ((a.toGlobals.signal p).pcb y).state = (a.pcb y).state :=
          fun y hy ↦ by rw [Globals.signal_pcb_of_ne _ hy]
        have htidy := ha.unlink hpre hother
        have hrest := ih htidy (by simp)
        simp only [takeReady, hp, if_false]
        exact hrest.of_steps (fun next a' h ↦ Search.drop hpre hp h) fun l' ↦ by simp

/-! ## The lottery -/

/-- A ticket below the total belongs to somebody. -/
theorem splitWinner_ne_nil {g : Globals} {winner : Int} {l : List PcbPtr}
    (hlt : winner < totalTickets g l) (hpos : 0 ≤ winner) : (splitWinner g winner l).2 ≠ [] := by
  induction l generalizing winner with
  | nil =>
      simp only [totalTickets, List.map_nil, List.sum_nil] at hlt
      omega
  | cons p l ih =>
      by_cases hw : (g.pcb p).drawTickets > winner
      · simp [splitWinner, hw]
      · simp only [splitWinner, hw, if_false]
        refine ih ?_ (by omega)
        simp only [totalTickets, List.map_cons, List.sum_cons] at hlt ⊢
        omega

/-- What a draw among the processes `p :: l` looks like. -/
theorem drawWinner_succ (fuel : Nat) (g : Globals) (p : PcbPtr) (l : List PcbPtr) :
    ∃ pre candidate post, p :: l = pre ++ candidate :: post ∧
      drawWinner (fuel + 1) g (p :: l) =
        if (g.pcb candidate).signalled.state = .ready then
          some (g.lotteryRandom.2.signal candidate, some candidate, pre ++ post)
        else drawWinner fuel (g.lotteryRandom.2.signal candidate) (pre ++ post) := by
  have hpos := Sim.totalTickets_pos g.lotteryRandom.2 p l
  simp only [drawWinner]
  generalize hw : (((g.lotteryRandom.1.toNat %
    (totalTickets g.lotteryRandom.2 (p :: l)).toNat : Nat) : Int)) = winner
  have hlt : winner < totalTickets g.lotteryRandom.2 (p :: l) := by
    have hmod := Nat.mod_lt g.lotteryRandom.1.toNat
      (y := (totalTickets g.lotteryRandom.2 (p :: l)).toNat) (by omega)
    omega
  have hne := splitWinner_ne_nil hlt (by omega)
  have happ := Sim.splitWinner_append g.lotteryRandom.2 winner (p :: l)
  generalize splitWinner g.lotteryRandom.2 winner (p :: l) = cut at hne happ
  obtain ⟨pre, rest⟩ := cut
  cases rest with
  | nil => exact absurd rfl hne
  | cons candidate post => exact ⟨pre, candidate, post, happ.symm, rfl⟩

/-- Draws that find nobody have emptied the queue. -/
theorem drawWinner_none {fuel : Nat} {g : Globals} {l : List PcbPtr}
    {r : Globals × Option PcbPtr × List PcbPtr} (h : drawWinner fuel g l = some r)
    (hnone : r.2.1 = none) : r.2.2 = [] := by
  induction fuel generalizing g l with
  | zero => simp [drawWinner] at h
  | succ fuel ih =>
      cases l with
      | nil =>
          obtain rfl := Option.some.inj h
          rfl
      | cons p l =>
          obtain ⟨pre, candidate, post, -, hdraw⟩ := drawWinner_succ fuel g p l
          rw [hdraw] at h
          split_ifs at h with hready
          · obtain rfl := Option.some.inj h
            simp at hnone
          · exact ih h

theorem drawWinner_leads {l : List PcbPtr} {fuel : Nat} (ha : Tidy a) (hl : a.queues q = l)
    (hfuel : l.length < fuel) :
    ∃ r, drawWinner fuel a.toGlobals l = some r ∧ Leads a q r := by
  induction fuel generalizing a l with
  | zero => omega
  | succ fuel ih =>
      cases l with
      | nil =>
          refine ⟨_, rfl, fun next a' h ↦ ?_⟩
          have hqs : Function.update a.queues q [] = a.queues := by
            rw [← hl, Function.update_eq_self]
          simpa [hqs] using h
      | cons p l =>
          obtain ⟨pre, candidate, post, hcut, hdraw⟩ := drawWinner_succ fuel a.toGlobals p l
          rw [hdraw]
          -- drawing changes the generator only
          let a₁ := a.mapGlobals fun g ↦ g.lotteryRandom.2
          have ha₁ : Tidy a₁ := Search.tidy_mapGlobals ha fun _ ↦ rfl
          have hq₁ : a₁.queues q = pre ++ candidate :: post := hl.trans hcut
          have hdrawn : ∀ next a', Search a₁ next a' → Search a next a' :=
            fun next a' h ↦ Search.draw h
          by_cases hready : (a.pcb candidate).signalled.state = .ready
          · rw [if_pos hready]
            exact ⟨_, rfl, (Leads.take ha₁ hq₁ hready).of_steps hdrawn fun _ ↦ rfl⟩
          · rw [if_neg hready]
            have hother : ∀ y, y ≠ candidate →
                ((a₁.toGlobals.signal candidate).pcb y).state = (a₁.pcb y).state :=
              fun y hy ↦ by rw [Globals.signal_pcb_of_ne _ hy]
            have hlen : (pre ++ post).length < fuel := by
              have := congrArg List.length hcut
              simp only [List.length_cons, List.length_append] at this hfuel ⊢
              omega
            obtain ⟨r, hr, hleads⟩ := ih (ha₁.unlink hq₁ hother)
              (Function.update_self q (pre ++ post) a₁.queues) hlen
            refine ⟨r, hr, hleads.of_steps (fun next a' h ↦ ?_) fun l' ↦ ?_⟩
            · exact hdrawn _ _ (Search.drop hq₁ hready h)
            · exact Function.update_idem ..

/-! ## Priority aging -/

/-- One walk of priority aging: every process handles its signals, and those that do
not survive leave the queue. -/
theorem signalAll_steps (kept : List PcbPtr) {l : List PcbPtr} (ha : Tidy a)
    (hl : a.queues q = kept ++ l)
    (next : Option PcbPtr) (a' : Kernel Lists)
    (h : Search ⟨signalAll a.toGlobals l,
      Function.update a.queues q (kept ++ survivors (signalAll a.toGlobals l) l)⟩ next a') :
    Search a next a' := by
  induction l generalizing a kept with
  | nil =>
      have hqs : Function.update a.queues q kept = a.queues := by
        rw [← List.append_nil kept, ← hl, Function.update_eq_self]
      simpa [signalAll, survivors, hqs] using h
  | cons p l ih =>
      have hnd := ha.nodup q
      rw [hl] at hnd
      have hpl : p ∉ l := (List.nodup_cons.mp (List.nodup_append.mp hnd).2.1).1
      have hp : p ∈ a.queues q := by rw [hl]; simp
      -- the rest of the walk does not come back to `p`
      have hfinal : (signalAll (a.toGlobals.signal p) l).pcb p = (a.pcb p).signalled := by
        rw [signalAll_pcb_of_notMem _ hpl, Globals.signal_pcb_self]
      simp only [signalAll_cons] at h
      by_cases hready : (a.pcb p).signalled.state = .ready
      · refine Search.keep hp hready
          (ih (a := a.mapGlobals (·.signal p)) (kept ++ [p]) ?_ ?_ ?_)
        · exact Search.tidy_keep ha hready
        · simpa using hl
        · have hsurv : survivors (signalAll (a.toGlobals.signal p) l) (p :: l) =
              p :: survivors (signalAll (a.toGlobals.signal p) l) l := by
            simp [survivors, hfinal, hready]
          rw [hsurv] at h
          simpa using h
      · have hother : ∀ y, y ≠ p → ((a.toGlobals.signal p).pcb y).state = (a.pcb y).state :=
          fun y hy ↦ by rw [Globals.signal_pcb_of_ne _ hy]
        refine Search.drop hl hready (ih kept (ha.unlink hl hother) (by simp) ?_)
        have hsurv : survivors (signalAll (a.toGlobals.signal p) l) (p :: l) =
            survivors (signalAll (a.toGlobals.signal p) l) l := by
          simp [survivors, hfinal, hready]
        rw [hsurv] at h
        simpa using h

/-- A walk keeps the queues tidy. -/
theorem signalAll_tidy {l : List PcbPtr} (ha : Tidy a) (hl : a.queues q = l) :
    Tidy ⟨signalAll a.toGlobals l,
      Function.update a.queues q (survivors (signalAll a.toGlobals l) l)⟩ := by
  have hsub : ∀ q', (Function.update a.queues q (survivors (signalAll a.toGlobals l) l) q').Sublist
      (a.queues q') := by
    intro q'
    by_cases hq' : q' = q
    · subst hq'
      rw [Function.update_self, hl]
      exact List.filter_sublist
    · rw [Function.update_of_ne hq']
  refine ha.congr hsub fun q' p hp ↦ ?_
  by_cases hq' : q' = q
  · subst hq'
    rw [ha.ready q' p ((hsub q').subset hp)]
    rw [Function.update_self] at hp
    simpa using (List.mem_filter.mp hp).2
  · rw [Function.update_of_ne hq'] at hp
    have hpl : p ∉ l := by
      rw [← hl]
      exact fun hp' ↦ hq' (ha.disjoint q' q p hp hp')
    rw [signalAll_pcb_of_notMem _ hpl]

theorem static_signalAll (g : Globals) (l : List PcbPtr) : (signalAll g l).static = g.static := by
  induction l generalizing g with
  | nil => rfl
  | cons p l ih => exact (ih _).trans (g.static_signal p)

/-- The best candidate is in the list, or it is the one from before. -/
theorem best_mem (g : Globals) {candidate : Option PcbPtr} {m : Int} {l : List PcbPtr} {p : PcbPtr}
    (h : best g candidate m l = some p) : p ∈ l ∨ candidate = some p := by
  induction l generalizing candidate m with
  | nil => exact .inr h
  | cons x l ih =>
      rw [best] at h
      split_ifs at h with hx
      · rcases ih h with hp | hp
        · exact .inl (List.mem_cons_of_mem _ hp)
        · exact .inl (by rw [Option.some.inj hp]; exact List.mem_cons_self)
      · rcases ih h with hp | hp
        · exact .inl (List.mem_cons_of_mem _ hp)
        · exact .inr hp

theorem best_isSome (g : Globals) (x : PcbPtr) (m : Int) (l : List PcbPtr) :
    (best g (some x) m l).isSome := by
  induction l generalizing x m with
  | nil => rfl
  | cons y l ih =>
      rw [best]
      split_ifs
      · exact ih ..
      · exact ih ..

/-- Without a candidate no counter of the list is positive. -/
theorem best_eq_none {g : Globals} {l : List PcbPtr} (h : best g none 0 l = none) :
    ∀ p ∈ l, (g.pcb p).counter ≤ 0 := by
  induction l with
  | nil => simp
  | cons x l ih =>
      rw [best] at h
      split_ifs at h with hx
      · simpa [h] using best_isSome g x (g.pcb x).counter l
      · rintro p (_ | ⟨_, hp⟩)
        · omega
        · exact ih h p hp

/-- An epoch loop that finds nobody has emptied the queue. -/
theorem agingLoop_none {fuel : Nat} {g : Globals} {l : List PcbPtr}
    {r : Globals × Option PcbPtr × List PcbPtr} (h : agingLoop fuel g l = some r)
    (hnone : r.2.1 = none) : r.2.2 = [] := by
  induction fuel generalizing g l with
  | zero => simp [agingLoop] at h
  | succ fuel ih =>
      simp only [agingLoop] at h
      split at h
      · obtain rfl := Option.some.inj h
        simp at hnone
      · split_ifs at h with hnil
        · obtain rfl := Option.some.inj h
          rfl
        · exact ih h

/-- The epoch loop ends: `m` bounds how far below one the counters of the queued
processes are, and every pass without a choice lowers that bound. -/
theorem agingLoop_leads {l : List PcbPtr} {m fuel : Nat} (ha : Tidy a) (hl : a.queues q = l)
    (htable : a.Table) (hknown : ∀ p ∈ l, a.Known p ∧ 1 ≤ (a.pcb p).priority)
    (hm : ∀ p ∈ l, 1 - (m : Int) ≤ (a.pcb p).counter) (hfuel : m < fuel) :
    ∃ r, agingLoop fuel a.toGlobals l = some r ∧ Leads a q r := by
  induction fuel generalizing a l m with
  | zero => omega
  | succ fuel ih =>
      have hwalk := signalAll_steps [] ha hl
      have htidy := signalAll_tidy ha hl
      have hnd := ha.nodup q
      rw [hl] at hnd
      have hsignalled : ∀ p ∈ l, (signalAll a.toGlobals l).pcb p = (a.pcb p).signalled :=
        fun p hp ↦ signalAll_pcb_of_mem _ hnd hp
      simp only [List.nil_append] at hwalk
      simp only [agingLoop]
      cases hbest : best (signalAll a.toGlobals l) none 0
          (survivors (signalAll a.toGlobals l) l) with
      | some p =>
          refine ⟨_, rfl, fun c ↦ hwalk _ _ ?_⟩
          have hp := (best_mem _ hbest).resolve_right (by simp)
          obtain ⟨hpl, hstate⟩ := List.mem_filter.mp hp
          obtain ⟨pre, post, -, hlive, herase⟩ := List.exists_erase_eq hp
          have hready : (a.pcb p).signalled.state = .ready := by
            rw [← hsignalled p hpl]
            simpa using hstate
          have hno : ((signalAll a.toGlobals l).pcb p).NoSignal := by
            rw [hsignalled p hpl]
            exact PCB.noSignal_signalled (ha.ready q p (hl ▸ hpl)) hready
          have hfound := Search.found (a := ⟨signalAll a.toGlobals l,
            Function.update a.queues q (survivors (signalAll a.toGlobals l) l)⟩) c
            ((Function.update_self ..).trans hlive) hno
          simp only [Function.update_idem] at hfound
          simp only [herase]
          exact hfound
      | none =>
          by_cases hnil : survivors (signalAll a.toGlobals l) l = []
          · refine ⟨(_, none, []), by rw [if_pos hnil], fun next a' h ↦ hwalk _ _ ?_⟩
            rwa [hnil]
          · rw [if_neg hnil]
            have hstatic : (signalAll a.toGlobals l).recharge.static = a.static :=
              (Globals.static_recharge _).trans (static_signalAll _ _)
            have hold : ∀ p ∈ survivors (signalAll a.toGlobals l) l, p ∈ l ∧
                (a.pcb p).counter ≤ 0 := by
              intro p hp
              have hpl := (List.mem_filter.mp hp).1
              have hle := best_eq_none hbest p hp
              rw [hsignalled p hpl, PCB.signalled_counter] at hle
              exact ⟨hpl, hle⟩
            have hgain : ∀ p ∈ survivors (signalAll a.toGlobals l) l,
                (a.pcb p).counter + 1 ≤ ((signalAll a.toGlobals l).recharge.pcb p).counter := by
              intro p hp
              obtain ⟨hpl, hle⟩ := hold p hp
              have hsame := static_signalAll a.toGlobals l
              have hgained := (htable.of_static hsame).recharge_gain
                ((Globals.known_of_static hsame p).mpr (hknown p hpl).1)
                (by rwa [hsignalled p hpl, PCB.signalled_counter])
                (by rw [Globals.priority_of_static hsame]; exact (hknown p hpl).2)
              rwa [hsignalled p hpl, PCB.signalled_counter] at hgained
            obtain ⟨x, hx⟩ := List.exists_mem_of_ne_nil _ hnil
            have hm1 : 1 ≤ m := by
              have h1 := hm x (hold x hx).1
              have h2 := (hold x hx).2
              omega
            obtain ⟨r, hr, hleads⟩ := ih (m := m - 1)
              (a := ⟨(signalAll a.toGlobals l).recharge,
                Function.update a.queues q (survivors (signalAll a.toGlobals l) l)⟩)
              (Search.tidy_mapGlobals (f := Globals.recharge) htidy
                (Globals.recharge_field PCB.state (fun _ _ ↦ rfl) _))
              (Function.update_self ..) (htable.of_static hstatic)
              (fun p hp ↦ ⟨(Globals.known_of_static hstatic p).mpr (hknown p (hold p hp).1).1,
                (Globals.priority_of_static hstatic p).symm ▸ (hknown p (hold p hp).1).2⟩)
              (fun p hp ↦ by
                have h1 := hgain p hp
                have h2 := hm p (hold p hp).1
                simp only
                omega)
              (by omega)
            refine ⟨r, hr, hleads.of_steps (fun next a' h ↦ hwalk _ _ (Search.recharge h))
              fun l' ↦ Function.update_idem ..⟩

/-! ## Conclusion of a search -/

theorem settle_search {charge : PcbPtr → Globals → Globals}
    (hcharge : ∀ p g, ∃ c, charge p g = g.setCounter p c)
    {r : Globals × Option PcbPtr × List PcbPtr} (h : Leads a .readyQueue r)
    (hnone : r.2.1 = none → r.2.2 = []) :
    ∃ next a', settle a charge r = (next.getD .initProcess, a') ∧ Search a next a' ∧
      (next = none → a'.queues .readyQueue = []) := by
  obtain ⟨g, next, l⟩ := r
  cases next with
  | none =>
      refine ⟨none, _, rfl, h none _ Search.none, fun _ ↦ ?_⟩
      exact (Function.update_self QueueId.readyQueue l a.queues).trans (hnone rfl)
  | some p =>
      obtain ⟨c, hc⟩ := hcharge p g
      exact ⟨some p, _, rfl, hc ▸ h c, by simp⟩

theorem takeFromLevels_search (policy : MultilevelPolicy) (levels : List Nat) (ha : Tidy a) :
    ∃ next a', settleLevel policy (takeFromLevels levels a) = (next.getD .initProcess, a') ∧
      Search a next a' ∧ (next = none → ∀ l, (l ∈ levels ∨ a.queues (.mlQueues l) = []) →
        a'.queues (.mlQueues l) = []) := by
  induction levels generalizing a with
  | nil => exact ⟨none, a, rfl, Search.none, fun _ l hl ↦ hl.resolve_left List.not_mem_nil⟩
  | cons level levels ih =>
      have hleads := takeReady_leads ha (q := .mlQueues level) rfl
      rw [takeFromLevels]
      have hnone := takeReady_none (g := a.toGlobals) (l := a.queues (.mlQueues level))
      generalize hr : takeReady a.toGlobals (a.queues (.mlQueues level)) = r at hleads hnone
      obtain ⟨g, next, l⟩ := r
      cases next with
      | some p => exact ⟨some p, _, rfl, hleads _, by simp⟩
      | none =>
          -- the level is exhausted: the search goes on from what is left
          have hsteps : ∀ next a',
              Search ⟨g, Function.update a.queues (.mlQueues level) l⟩ next a' →
              Search a next a' := hleads
          obtain rfl : l = [] := hnone rfl
          obtain ⟨next, a', hnext, hsearch, hempty⟩ := ih ((hsteps _ _ Search.none).tidy ha)
          refine ⟨next, a', hnext, hsteps _ _ hsearch, fun he l hl ↦ hempty he l ?_⟩
          simp only [Function.update_apply, QueueId.mlQueues.injEq]
          split_ifs with hlevel
          · exact .inr rfl
          · exact hl.imp_left fun hmem ↦ (List.mem_cons.mp hmem).resolve_left hlevel

/-! ## The selection functions -/

/-- What a selection function needs to end: the queued processes are in the table and
have a positive priority. -/
structure Selectable (a : Kernel Lists) : Prop extends Tidy a where
  table : a.Table
  known : ∀ q, ∀ p ∈ a.queues q, a.Known p ∧ 1 ≤ (a.pcb p).priority

theorem Selectable.length_le (ha : Selectable a) (q : QueueId) :
    (a.queues q).length ≤ N_PROCESSES :=
  ha.table.length_le (ha.nodup q) fun p hp ↦ (ha.known q p hp).1

/-- A running maximum is at least where it starts and at least each of its terms. -/
theorem le_foldl_max (f : Nat → Nat) (l : List Nat) (n : Nat) :
    n ≤ l.foldl (fun n i ↦ max n (f i)) n ∧ ∀ i ∈ l, f i ≤ l.foldl (fun n i ↦ max n (f i)) n := by
  induction l generalizing n with
  | nil => simp
  | cons j l ih =>
      obtain ⟨hstart, hterms⟩ := ih (max n (f j))
      refine ⟨(le_max_left n (f j)).trans hstart, ?_⟩
      rintro i (_ | ⟨_, hi⟩)
      · exact (le_max_right n (f j)).trans hstart
      · exact hterms i hi

theorem EPOCH_FUEL_eq (g : Globals) : g.EPOCH_FUEL = (List.range N_PROCESSES).foldl
    (fun n i ↦ max n ((g.processes i).elim 0 fun p ↦ (g.pcb p).counter.natAbs + 3)) 3 := by
  unfold Globals.EPOCH_FUEL
  congr 1
  funext n i
  cases g.processes i with
  | none => simp
  | some p => rfl

theorem EPOCH_FUEL_pos (g : Globals) : 3 ≤ g.EPOCH_FUEL := by
  rw [EPOCH_FUEL_eq]
  exact (le_foldl_max _ _ _).1

/-- `EPOCH_FUEL` bounds the counters of the processes of the table. -/
theorem EPOCH_FUEL_ge {g : Globals} {i : Nat} (hi : i < N_PROCESSES) {p : PcbPtr}
    (hp : g.processes i = some p) : (g.pcb p).counter.natAbs + 3 ≤ g.EPOCH_FUEL := by
  rw [EPOCH_FUEL_eq]
  have hle := (le_foldl_max (fun i ↦ (g.processes i).elim 0 fun p ↦ (g.pcb p).counter.natAbs + 3)
    (List.range N_PROCESSES) 3).2 i (List.mem_range.mpr hi)
  simpa only [hp, Option.elim_some] using hle

/-- Every selection function ends and performs a search; it finds nobody only if it leaves
the queues of its algorithm empty. -/
theorem choose_search (ha : Selectable a) :
    ∃ next a', choose a = some (next.getD .initProcess, a') ∧ Search a next a' ∧
      (next = none → ∀ q, a.Serves q → a'.queues q = []) := by
  have htidy := ha.toTidy
  have hten : ∀ p g, ∃ c, tenTicks p g = Globals.setCounter g p c := fun p g ↦ ⟨10, rfl⟩
  have hid : ∀ (p : PcbPtr) (g : Globals), ∃ c, g = Globals.setCounter g p c := fun p g ↦
    ⟨(g.pcb p).counter, (g.setCounter_self p).symm⟩
  have hready : ∀ {a' : Kernel Lists}, a.algorithm.pickNext ≠ .scheduleMultilevel →
      a'.queues .readyQueue = [] → ∀ q, a.Serves q → a'.queues q = [] := by
    intro a' hpick hempty q hq
    rwa [(a.serves_single hpick).mp hq]
  rw [choose]
  obtain ⟨hpick, -⟩ | hpick | ⟨hpick, -⟩ | ⟨hpick, -⟩ | ⟨hpick, -, policy, hpol⟩ :=
    a.algorithm_cases
  · obtain ⟨next, a', hsettle, hsearch, hempty⟩ :=
      settle_search hten (takeReady_leads htidy rfl) takeReady_none
    exact ⟨next, a', by simp only [hpick, hsettle], hsearch, fun he ↦
      hready (by simp [hpick]) (hempty he)⟩
  · obtain ⟨next, a', hsettle, hsearch, hempty⟩ :=
      settle_search hid (takeReady_leads htidy rfl) takeReady_none
    exact ⟨next, a', by simp only [hpick, hsettle], hsearch, fun he ↦
      hready (by simp [hpick]) (hempty he)⟩
  · have hfuel : (a.queues .readyQueue).length < QUEUE_FUEL :=
      Nat.lt_succ_of_le (ha.length_le .readyQueue)
    obtain ⟨r, hr, hleads⟩ := drawWinner_leads htidy rfl hfuel
    obtain ⟨next, a', hsettle, hsearch, hempty⟩ :=
      settle_search hten hleads fun he ↦ drawWinner_none hr he
    exact ⟨next, a', by simp only [hpick, hr, Option.map_some, hsettle], hsearch,
      fun he ↦ hready (by simp [hpick]) (hempty he)⟩
  · have hpos := EPOCH_FUEL_pos a.toGlobals
    have hfuel : a.EPOCH_FUEL - 1 < a.EPOCH_FUEL := by omega
    have hcounter : ∀ p ∈ a.queues .readyQueue,
        1 - ((a.EPOCH_FUEL - 1 : Nat) : Int) ≤ (a.pcb p).counter := by
      intro p hp
      have hknown := (ha.known _ p hp).1
      have hbound := EPOCH_FUEL_ge (ha.table.pid_lt_max hknown) (ha.table.processes_pid hknown)
      omega
    obtain ⟨r, hr, hleads⟩ :=
      agingLoop_leads htidy rfl ha.table (ha.known .readyQueue) hcounter hfuel
    obtain ⟨next, a', hsettle, hsearch, hempty⟩ :=
      settle_search hid hleads fun he ↦ agingLoop_none hr he
    exact ⟨next, a', by simp only [hpick, hr, Option.map_some, hsettle], hsearch,
      fun he ↦ hready (by simp [hpick]) (hempty he)⟩
  · obtain ⟨next, a', hsettle, hsearch, hempty⟩ :=
      takeFromLevels_search policy (List.range policy.nLevels) htidy
    refine ⟨next, a', by simp only [hpick, hpol, Option.map_some, hsettle], hsearch,
      fun he q hq ↦ ?_⟩
    obtain ⟨l, hl, rfl⟩ := (a.serves_multilevel hpol).mp hq
    exact hempty he l (.inl (List.mem_range.mpr hl))

end Spec

end DemosOS
