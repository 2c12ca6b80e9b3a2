import DemosOS.Lib.Draw
import DemosOS.Sched.Steps

/-!
# The lottery

A draw walks the ready queue twice, once to add up the tickets and once to find the holder of the
winning one.  Both walks see the queue as a row of intervals, one for each process and as long as
its tickets, and the second stops at the interval the winning ticket lies on.
-/

namespace DemosOS

open Lib

/-- The tickets a process holds in a draw. -/
def Globals.tickets (g : Globals) (p : PcbPtr) : Int := (g.pcb p).drawTickets

/-- The process a draw unlinks when the ticket `winner` comes up. -/
def Kernel.winner (k : Kernel Pointers) (winner : Int) : Option PcbPtr :=
  (k.findWinner winner QUEUE_FUEL none (k.queues.ends .readyQueue).head 0).bind (·.2)

namespace Spec

theorem totalTickets_weight (g : Globals) (l : List PcbPtr) :
    totalTickets g l = weight g.tickets l := rfl

theorem tickets_pos (g : Globals) (l : List PcbPtr) : ∀ p ∈ l, 0 < g.tickets p :=
  fun p _ ↦ (g.pcb p).drawTickets_pos

/-- The cut is at the holder of the winning ticket. -/
theorem splitWinner_head (g : Globals) (winner : Int) (l : List PcbPtr) :
    (splitWinner g winner l).2.head? = holder g.tickets winner l := by
  induction l generalizing winner with
  | nil => rfl
  | cons p l ih =>
      rw [splitWinner, holder]
      have hsame : (g.pcb p).drawTickets > winner ↔ winner < g.tickets p := Iff.rfl
      split_ifs with h₁ h₂ h₂
      · rfl
      · exact absurd (hsame.mp h₁) h₂
      · exact absurd (hsame.mpr h₂) h₁
      · exact ih _

/-- Where the cut is. -/
theorem splitWinner_eq (g : Globals) {winner : Int} {pre post : List PcbPtr} {c : PcbPtr}
    (hlow : weight g.tickets pre ≤ winner) (hhigh : winner < weight g.tickets pre + g.tickets c) :
    splitWinner g winner (pre ++ c :: post) = (pre, c :: post) := by
  induction pre generalizing winner with
  | nil =>
      rw [weight_nil, zero_add] at hhigh
      exact if_pos hhigh
  | cons p pre ih =>
      have hpre := weight_nonneg fun x hx ↦ (tickets_pos g pre x hx).le
      rw [weight_cons] at hlow hhigh
      have hp : ¬ (g.pcb p).drawTickets > winner := by
        have htickets : (g.pcb p).drawTickets = g.tickets p := rfl
        omega
      rw [List.cons_append, splitWinner, if_neg hp]
      have hrest : splitWinner g (winner - g.tickets p) (pre ++ c :: post) = (pre, c :: post) :=
        ih (by omega) (by omega)
      exact congrArg (fun r : List PcbPtr × List PcbPtr ↦ (p :: r.1, r.2)) hrest

end Spec

/-- What a search that is over has done to the queued processes of `l`: `l'` are those that are
still queued, `next` is the chosen one, and the others were killed or stopped. -/
structure Searched (l : List PcbPtr) (next : Option PcbPtr) (l' : List PcbPtr) (g' : Globals) :
    Prop where
  order : l'.Sublist l
  chosen : ∀ c, next = some c → c ∈ l ∧ c ∉ l' ∧ (g'.pcb c).state = .ready
  others : ∀ p ∈ l, p ∉ l' → next ≠ some p → (g'.pcb p).state =
    .zombie ∨ (g'.pcb p).state = .stopped

theorem Search.searched {a a' : Kernel Lists} {next : Option PcbPtr} (h : Search a next a')
    (ha : Tidy a) {q : QueueId} (hother : ∀ q', q' ≠ q → a'.queues q' = a.queues q') :
    Searched (a.queues q) next (a'.queues q) a'.toGlobals where
  order := h.sublist q
  chosen c hc := by
    cases h.fate ha c with
    | away _ _ hne => exact absurd hc hne
    | kept _ _ _ hne => exact absurd hc hne
    | chosen q' hc' hgone _ _ _ hstate =>
        refine ⟨?_, hgone q, hstate⟩
        by_cases hq : q' = q
        · exact hq ▸ hc'
        · exact absurd (hother q' hq ▸ hc') (hgone q')
    | killed _ _ _ hne => exact absurd hc hne
    | stopped _ _ _ hne => exact absurd hc hne
  others p hp hgone hne := by
    cases h.fate ha p with
    | away hnone => exact absurd hp (hnone q)
    | kept q' hq hq' =>
        obtain rfl := ha.disjoint _ _ p hq hp
        exact absurd hq' hgone
    | chosen _ _ _ hc => exact absurd hc hne
    | killed _ _ _ _ _ hstate => exact .inl hstate
    | stopped _ _ _ _ _ _ hstate => exact .inr hstate

namespace Spec

/-- The redraw loop as a search. -/
theorem drawWinner_search {a : Kernel Lists} {l : List PcbPtr} (ha : Tidy a)
    (hl : a.queues .readyQueue = l) (hlen : l.length ≤ N_PROCESSES) :
    ∃ r, drawWinner QUEUE_FUEL a.toGlobals l = some r ∧
      Search a r.2.1 ⟨r.1, Function.update a.queues .readyQueue r.2.2⟩ ∧
      (r.2.1 = none → r.2.2 = []) := by
  obtain ⟨r, hr, hleads⟩ := drawWinner_leads ha hl (Nat.lt_succ_of_le hlen)
  refine ⟨r, hr, ?_, drawWinner_none hr⟩
  obtain ⟨g, next, l'⟩ := r
  cases next with
  | none => exact hleads none _ Search.none
  | some p =>
      have hfound : Search a (some p)
          ⟨g.setCounter p (g.pcb p).counter, Function.update a.queues .readyQueue l'⟩ :=
        hleads (g.pcb p).counter
      rwa [Globals.setCounter_self] at hfound

end Spec

namespace Sim

variable {k : Kernel Pointers} {a : Kernel Lists} {l : List PcbPtr}

/-- The ticket that wins is the one of the process whose interval it lies on. -/
theorem findWinner_spec (h : Sim k a) (hl : a.queues .readyQueue = l)
    (hlen : l.length ≤ N_PROCESSES) {winner : Int} (hlow : 0 ≤ winner)
    (hhigh : winner < weight k.tickets l) :
    ∃ pre c post, l = pre ++ c :: post ∧ weight k.tickets pre ≤ winner ∧
      winner < weight k.tickets pre + k.tickets c ∧
      k.findWinner winner QUEUE_FUEL none (k.queues.ends .readyQueue).head 0 =
        some (pre.getLast?, some c) ∧
      (k.removeProcessFrom .readyQueue pre.getLast? c).WellLinked .readyQueue (pre ++ post) := by
  obtain ⟨pre, c, post, hcut, hpre, hpost, -⟩ := exists_holder hlow hhigh
  have hchain := h.queues.chain .readyQueue
  rw [hl] at hchain
  have hlt : l.length < QUEUE_FUEL := Nat.lt_succ_of_le hlen
  have hfind := findWinner_eq hchain hlt winner 0 none
  rw [sub_zero, hcut, Spec.splitWinner_eq k.toGlobals hpre hpost, Option.or_none] at hfind
  have hunlink : Sim (k.removeProcessFrom .readyQueue pre.getLast? c)
      ⟨a.toGlobals, Function.update a.queues .readyQueue (pre ++ post)⟩ :=
    ⟨h.globals, h.queues.unlink (hl.trans hcut)⟩
  exact ⟨pre, c, post, hcut, hpre, hpost, hfind,
    hunlink.wellLinked (Function.update_self QueueId.readyQueue (pre ++ post) a.queues)⟩

theorem winner_eq (h : Sim k a) (hl : a.queues .readyQueue = l) (hlen : l.length ≤ N_PROCESSES)
    (winner : Int) : k.winner winner = holder k.tickets winner l := by
  have hchain := h.queues.chain .readyQueue
  rw [hl] at hchain
  have hlt : l.length < QUEUE_FUEL := Nat.lt_succ_of_le hlen
  have hfind := findWinner_eq hchain hlt winner 0 none
  rw [sub_zero] at hfind
  rw [Kernel.winner, hfind, Option.bind_some, Spec.splitWinner_head]

/-- One draw. -/
theorem draw (h : Sim k a) (ha : Tidy a) (hl : a.queues .readyQueue = l)
    (hlen : l.length ≤ N_PROCESSES) (hne : l ≠ []) :
    ∃ c k₂, k.winner ((k.lotteryRandom.1.toNat % (weight k.tickets l).toNat : Nat) : Int) = some c ∧
      k₂.WellLinked .readyQueue (l.erase c) ∧
      ∀ fuel, k.drawWinner (fuel + 1) =
        if (k.pcb c).signalled.state = .ready then some (some c, k₂) else k₂.drawWinner fuel := by
  have hs : Searchable a.toGlobals l := ⟨fun p hp ↦ ha.ready .readyQueue p (hl ▸ hp), hlen⟩
  have hpos := weight_pos hne (Spec.tickets_pos k.toGlobals l)
  generalize hw : ((k.lotteryRandom.1.toNat % (weight k.tickets l).toNat : Nat) : Int) = winner
  have hlow : 0 ≤ winner := by rw [← hw]; exact Int.natCast_nonneg _
  have hhigh : winner < weight k.tickets l := by
    have hmod := Nat.mod_lt k.lotteryRandom.1.toNat (y := (weight k.tickets l).toNat) (by omega)
    omega
  obtain ⟨pre, c, post, hcut, hpre, hpost, hholder⟩ := exists_holder hlow hhigh
  -- the generator holds no tickets, so the cut is the same after it has moved on
  have hsplit : Spec.splitWinner a.toGlobals.lotteryRandom.2 winner l = (pre, c :: post) := by
    rw [h.globals] at hpre hpost
    rw [hcut]
    exact Spec.splitWinner_eq _ hpre hpost
  have hwinner : ((a.toGlobals.lotteryRandom.1.toNat %
      (Spec.totalTickets a.toGlobals l).toNat : Nat) : Int) = winner := by
    rw [← hw, h.globals]
    rfl
  obtain ⟨p, rest, rfl⟩ := List.exists_cons_of_ne_nil hne
  rw [← hwinner] at hsplit
  obtain ⟨k₂, h₂, hstep⟩ := h.drawWinner_step hl hs hsplit
  have hnodup := h.nodup .readyQueue
  rw [hl, hcut] at hnodup
  have herase : (p :: rest).erase c = pre ++ post := by
    have hc : c ∉ pre := fun hm ↦
      (List.nodup_cons.mp (List.nodup_middle.mp hnodup)).1 (List.mem_append_left post hm)
    rw [hcut, List.erase_append_right _ hc, List.erase_cons_head]
  refine ⟨c, k₂, ?_, ?_, fun fuel ↦ ?_⟩
  · rw [h.winner_eq hl hlen, hholder]
  · rw [herase]
    exact h₂.wellLinked (Function.update_self QueueId.readyQueue (pre ++ post) a.queues)
  · rw [hstep fuel, h.globals]

/-- The redraw loop. -/
theorem redraws (h : Sim k a) (ha : Tidy a) (hl : a.queues .readyQueue = l)
    (hlen : l.length ≤ N_PROCESSES) :
    ∃ next k' l', k.drawWinner QUEUE_FUEL = some (next, k') ∧ k'.WellLinked .readyQueue l' ∧
      Searched l next l' k'.toGlobals ∧ (next = none → l' = []) := by
  have hs : Searchable a.toGlobals l := ⟨fun p hp ↦ ha.ready .readyQueue p (hl ▸ hp), hlen⟩
  obtain ⟨r, hr, hsearch, hnone⟩ := Spec.drawWinner_search ha hl hlen
  obtain ⟨k', hk', h'⟩ := h.drawWinner hl hs hr
  have hsearched := hsearch.searched ha (q := .readyQueue) fun q' hq' ↦
    Function.update_of_ne hq' r.2.2 a.queues
  have hr2 : Function.update a.queues .readyQueue r.2.2 .readyQueue = r.2.2 :=
    Function.update_self QueueId.readyQueue r.2.2 a.queues
  refine ⟨r.2.1, k', r.2.2, hk', h'.wellLinked hr2, ?_, hnone⟩
  rw [h'.globals, ← hl]
  exact hr2 ▸ hsearched

end Sim

/-- The lottery among the processes `l` of a ready queue, for every assignment of tickets that are
`int`s and every random number.  The first walk adds up the tickets, and no sum on the way leaves
the range of a `long`.  Each ticket is held by the process on whose interval it lies, which the
second walk finds with its predecessor and unlinks; each process holds as many as it has.  A draw
takes the holder of the random ticket, and the redraw loop ends. -/
theorem lottery_draw {k : Kernel Pointers} {a : Kernel Lists} (h : Sim k a) (ha : Tidy a)
    {l : List PcbPtr} (hl : a.queues .readyQueue = l) (hlen : l.length ≤ N_PROCESSES)
    (hne : l ≠ []) (htickets : ∀ p ∈ l, (k.pcb p).tickets < 2 ^ 31) :
    ∃ total : Int, total = weight k.tickets l ∧
      k.totalTickets QUEUE_FUEL (k.queues.ends .readyQueue).head 0 = some total ∧
      0 < total ∧ total < 2 ^ 63 ∧
      (∀ pre, pre <+: l → 0 ≤ weight k.tickets pre ∧ weight k.tickets pre ≤ total) ∧
      (∀ winner : Int, 0 ≤ winner → winner < total → ∃ pre c post, l = pre ++ c :: post ∧
        weight k.tickets pre ≤ winner ∧ winner < weight k.tickets pre + k.tickets c ∧
        k.findWinner winner QUEUE_FUEL none (k.queues.ends .readyQueue).head 0 =
          some (pre.getLast?, some c) ∧
        (k.removeProcessFrom .readyQueue pre.getLast? c).WellLinked .readyQueue (pre ++ post)) ∧
      (∀ p ∈ l, ((List.range total.toNat).countP fun n : Nat ↦ k.winner n = some p) =
        (k.tickets p).toNat) ∧
      (∃ c k₂, k.winner ((k.lotteryRandom.1.toNat % total.toNat : Nat) : Int) = some c ∧
        k₂.WellLinked .readyQueue (l.erase c) ∧
        ∀ fuel, k.drawWinner (fuel + 1) = if (k.pcb c).signalled.state =
        .ready then some (some c, k₂)
          else k₂.drawWinner fuel) ∧
      (∃ next k' l', k.drawWinner QUEUE_FUEL = some (next, k') ∧ k'.WellLinked .readyQueue l' ∧
        Searched l next l' k'.toGlobals ∧ (next = none → l' = [])) ∧
      ∀ k₀ : Kernel Pointers, (k₀.mapGlobals (·.preemptDisable)).parkFifo = k →
        ∃ next k', k₀.selectLottery = some (next, k') ∧ (next = .initProcess → ∀ p ∈ l,
          (k'.pcb p).state = .zombie ∨ (k'.pcb p).state = .stopped) := by
  have hpos := Spec.tickets_pos k.toGlobals l
  have hnonneg : ∀ p ∈ l, 0 ≤ k.tickets p := fun p hp ↦ (hpos p hp).le
  have hs : Searchable a.toGlobals l := ⟨fun p hp ↦ ha.ready .readyQueue p (hl ▸ hp), hlen⟩
  have hchain := h.queues.chain .readyQueue
  have hnodup := h.nodup .readyQueue
  rw [hl] at hchain hnodup
  have htotal := Sim.totalTickets_eq hchain hs.length_lt 0
  rw [zero_add, Spec.totalTickets_weight] at htotal
  have htotalPos : 0 < weight k.tickets l := weight_pos hne hpos
  refine ⟨_, rfl, htotal, htotalPos, ?_, fun pre hpre ↦ ⟨?_, weight_prefix_le hpre hnonneg⟩,
    fun winner hlow hhigh ↦ h.findWinner_spec hl hlen hlow hhigh, fun p hp ↦ ?_, ?_, ?_, ?_⟩
  · have hbound : ∀ p ∈ l, k.tickets p ≤ 2 ^ 31 := by
      intro p hp
      have hlt := htickets p hp
      unfold Globals.tickets PCB.drawTickets
      split_ifs
      · omega
      · omega
    have hle := weight_le hbound
    have hcast : (l.length : Int) ≤ 64 := by exact_mod_cast hlen
    omega
  · exact weight_nonneg fun p hp ↦ hnonneg p (hpre.subset hp)
  · simp only [h.winner_eq hl hlen]
    exact count_holder hnodup hnonneg hp
  · exact h.draw ha hl hlen hne
  · exact h.redraws ha hl hlen
  · rintro k₀ hk₀
    obtain ⟨next, k', l', hdraw, -, hsearched, hnone⟩ := h.redraws ha hl hlen
    cases next with
    | none =>
        have hsel : k₀.selectLottery = some (.initProcess, k') := by
          rw [← hk₀] at hdraw
          simp only [Kernel.selectLottery, hdraw, Option.bind_eq_bind, Option.bind_some]
        refine ⟨_, k', hsel, fun _ p hp ↦ hsearched.others p hp ?_ nofun⟩
        rw [hnone rfl]
        exact List.not_mem_nil
    | some c =>
        have hsel : k₀.selectLottery = some (c, k'.mapGlobals (·.setCounter c 10)) := by
          rw [← hk₀] at hdraw
          simp only [Kernel.selectLottery, hdraw, Option.bind_eq_bind, Option.bind_some]
        refine ⟨_, _, hsel, ?_⟩
        rintro rfl
        exact absurd (hl ▸ (hsearched.chosen _ rfl).1) (ha.init .readyQueue)

/-- Two processes with one and three tickets. -/
theorem lottery_draw_pair : ∃ k total,
    runAll [.add (.page 0) (childOfInit 1), .add (.page 1) (childOfInit 2),
      .setParam 1 Globals.SCHED_PARAM_TICKETS 1, .setParam 2 Globals.SCHED_PARAM_TICKETS 3]
      (Kernel.boot .lottery fun _ ↦ 0) = some k ∧
    k.totalTickets QUEUE_FUEL (k.queues.ends .readyQueue).head 0 = some total ∧ total = 4 ∧
    ((List.range total.toNat).countP fun n : Nat ↦ k.winner n = some (.page 1)) = 3 := by
  have hrun : (runAll [.add (.page 0) (childOfInit 1), .add (.page 1) (childOfInit 2),
      .setParam 1 Globals.SCHED_PARAM_TICKETS 1, .setParam 2 Globals.SCHED_PARAM_TICKETS 3]
      (Kernel.boot .lottery fun _ ↦ 0)).any (fun k ↦
        k.Queue .readyQueue [.page 0, .page 1] ∧
        (∀ p ∈ [PcbPtr.page 0, .page 1], (k.pcb p).tickets < 2 ^ 31) ∧
        k.tickets (.page 0) = 1 ∧ k.tickets (.page 1) = 3) = true := by
    decide +kernel
  obtain ⟨k, hk, hspec⟩ := (Option.any_eq_true _ _).mp hrun
  obtain ⟨hR, htickets, hfirst, hsecond⟩ := of_decide_eq_true hspec
  obtain ⟨a, ha⟩ := ((reachable_boot .lottery fun _ ↦ 0).runAll hk).sound
  have hl : a.queues .readyQueue = [.page 0, .page 1] := (ha.sim.queues.chain .readyQueue).unique hR
  have hlen : [PcbPtr.page 0, .page 1].length ≤ N_PROCESSES := by simp [N_PROCESSES]
  obtain ⟨total, hsum, htotal, -, -, -, -, hcount, -⟩ :=
    lottery_draw ha.sim ha.inv.toTidy hl hlen (by simp) htickets
  have hfour : total = 4 := by
    rw [hsum, weight_cons, weight_cons, weight_nil, hfirst, hsecond]
    rfl
  have hwins := hcount (.page 1) (by simp)
  rw [hsecond] at hwins
  exact ⟨k, total, hk, htotal, hfour, hwins⟩

end DemosOS
