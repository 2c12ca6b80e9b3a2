import DemosOS.Sched.Lists

/-!
# Searching the ready queues

The five selection functions search the queues in different orders, but they are
all made of the same steps: handle the signals of a queued process, which stays in
its queue or leaves it killed or stopped; draw a random number; recharge the
counters; take a process without pending signals.  `Search a next a'` is a sequence
of such steps that ends with the choice `next`, and `Spec.choose_search` says that
each selection function performs one and always ends.

Everything the scheduler guarantees about a choice is then proved once, by
induction on `Search`: `Search.static`, what no search changes, and `Search.fate`,
what can happen to each process.
-/

namespace DemosOS

/-! ## Signals of a ready process -/

namespace PCB

/-- What a search does not change in a control block. -/
def static (b : PCB) : PCB := { b with state := .unset, counter := 0, pendingSignals := 0 }

@[simp] theorem static_signalled (b : PCB) : b.signalled.static = b.static := by
  unfold signalled clearSignal static
  split_ifs <;> rfl

section

variable {b : PCB} (hb : b.state = .ready)
include hb

/-- A `READY` process stays so unless it is killed or stopped. -/
theorem signalled_state_eq_ready :
    b.signalled.state = .ready ↔ ¬ b.hasSignal SIGNAL_KILL ∧ ¬ b.hasSignal SIGNAL_STOP := by
  unfold signalled
  by_cases hk : b.hasSignal SIGNAL_KILL
  · simp [hk, clearSignal]
  by_cases hs : b.hasSignal SIGNAL_STOP
  · simp [hk, hs, clearSignal]
  by_cases hr : b.hasSignal SIGNAL_RESUME
  · simp [hk, hs, hr, clearSignal, hb]
  · simp [hk, hs, hr, hb]

/-- After its signals are handled, a process that is still `READY` has none left. -/
theorem noSignal_signalled (h : b.signalled.state = .ready) : b.signalled.NoSignal := by
  obtain ⟨hk, hs⟩ := (signalled_state_eq_ready hb).mp h
  unfold signalled
  by_cases hr : b.hasSignal SIGNAL_RESUME
  · simp only [hk, hs, hr, if_false, if_true]
    have hclear := fun (s : Nat) (h : s < 32) ↦
      b.hasSignal_clearSignal (s := SIGNAL_RESUME) (by decide) h
    refine ⟨fun h ↦ hk ?_, fun h ↦ hs ?_, fun h ↦ ?_⟩
    · exact ((hclear _ (by decide)).mp h).1
    · exact ((hclear _ (by decide)).mp h).1
    · exact ((hclear _ (by decide)).mp h).2 rfl
  · simpa only [hk, hs, hr, if_false] using ⟨hk, hs, hr⟩

/-- A `READY` process that does not stay so was killed, or else stopped. -/
theorem signalled_state_ne_ready (h : b.signalled.state ≠ .ready) :
    (b.hasSignal SIGNAL_KILL ∧ b.signalled.state = .zombie) ∨
      (¬ b.hasSignal SIGNAL_KILL ∧ b.hasSignal SIGNAL_STOP ∧ b.signalled.state = .stopped) := by
  rw [Ne, signalled_state_eq_ready hb] at h
  by_cases hk : b.hasSignal SIGNAL_KILL
  · exact .inl ⟨hk, by simp [signalled, hk, clearSignal]⟩
  · have hs : b.hasSignal SIGNAL_STOP := by
      by_contra hs
      exact h ⟨hk, hs⟩
    exact .inr ⟨hk, hs, by simp [signalled, hk, hs, clearSignal]⟩

end

end PCB

/-! ## Tidy queues -/

/-- The queues are disjoint lists of distinct `READY` processes, init not among them. -/
structure Tidy (a : Kernel Lists) : Prop where
  nodup : ∀ q, (a.queues q).Nodup
  disjoint : ∀ q q' p, p ∈ a.queues q → p ∈ a.queues q' → q = q'
  ready : ∀ q, ∀ p ∈ a.queues q, (a.pcb p).state = .ready
  init : ∀ q, .initProcess ∉ a.queues q

namespace Tidy

variable {a : Kernel Lists}

/-- Tidiness only depends on the queues and on the states of their members. -/
theorem congr (h : Tidy a) {g : Globals} {ls : Lists} (hsub : ∀ q, (ls q).Sublist (a.queues q))
    (hstate : ∀ q, ∀ p ∈ ls q, (g.pcb p).state = (a.pcb p).state) : Tidy ⟨g, ls⟩ where
  nodup q := (h.nodup q).sublist (hsub q)
  disjoint q q' p hp hp' := h.disjoint q q' p ((hsub q).subset hp) ((hsub q').subset hp')
  ready q p hp := (hstate q p hp).trans (h.ready q p ((hsub q).subset hp))
  init q hq := h.init q ((hsub q).subset hq)

section

variable (h : Tidy a) {q : QueueId} {p : PcbPtr} {pre post : List PcbPtr}
  (hq : a.queues q = pre ++ p :: post)
include hq

/-- Unlinking a process shortens its queue only. -/
theorem unlink_sublist (q' : QueueId) :
    (Function.update a.queues q (pre ++ post) q').Sublist (a.queues q') := by
  by_cases hq' : q' = q
  · subst hq'
    rw [Function.update_self, hq]
    exact List.Sublist.append_left (List.sublist_cons_self p post) pre
  · rw [Function.update_of_ne hq']

/-- The other processes stay queued. -/
theorem mem_unlink {q' : QueueId} {x : PcbPtr} (hx : x ≠ p) :
    x ∈ Function.update a.queues q (pre ++ post) q' ↔ x ∈ a.queues q' := by
  by_cases hq' : q' = q
  · subst hq'
    rw [Function.update_self, hq]
    simp [hx]
  · rw [Function.update_of_ne hq']

include h

/-- An unlinked process is in no queue. -/
theorem notMem_unlink (q' : QueueId) : p ∉ Function.update a.queues q (pre ++ post) q' := by
  have hp : p ∈ a.queues q := by rw [hq]; simp
  by_cases hq' : q' = q
  · subst hq'
    have hnd := h.nodup q'
    rw [hq] at hnd
    rw [Function.update_self]
    exact (List.nodup_cons.mp (List.nodup_middle.mp hnd)).1
  · rw [Function.update_of_ne hq']
    exact fun hp' ↦ hq' (h.disjoint q' q p hp' hp)

/-- Unlinking a process and rewriting its control block keeps the queues tidy. -/
theorem unlink {g : Globals} (hg : ∀ x, x ≠ p → (g.pcb x).state = (a.pcb x).state) :
    Tidy ⟨g, Function.update a.queues q (pre ++ post)⟩ := by
  refine h.congr (unlink_sublist hq) fun q' x hx ↦ hg x ?_
  rintro rfl
  exact h.notMem_unlink hq q' hx

end

end Tidy

/-! ## Searches -/

/-- A search of the ready queues and what it finds. -/
inductive Search : Kernel Lists → Option PcbPtr → Kernel Lists → Prop
  | /-- Nobody is found. -/
    none {a : Kernel Lists} : Search a none a
  | /-- A process without signals is taken, and given a quantum. -/
    found {a : Kernel Lists} {q : QueueId} {p : PcbPtr} {pre post : List PcbPtr} (quantum : Int)
      (hq : a.queues q = pre ++ p :: post) (hp : (a.pcb p).NoSignal) :
      Search a (some p)
        ⟨a.toGlobals.setCounter p quantum, Function.update a.queues q (pre ++ post)⟩
  | /-- A process handles its signals and stays in its queue. -/
    keep {a a' : Kernel Lists} {next : Option PcbPtr} {q : QueueId} {p : PcbPtr}
      (hq : p ∈ a.queues q) (hp : (a.pcb p).signalled.state = .ready)
      (h : Search (a.mapGlobals (·.signal p)) next a') : Search a next a'
  | /-- A process is killed or stopped by its signals and leaves its queue. -/
    drop {a a' : Kernel Lists} {next : Option PcbPtr} {q : QueueId} {p : PcbPtr}
      {pre post : List PcbPtr} (hq : a.queues q = pre ++ p :: post)
      (hp : (a.pcb p).signalled.state ≠ .ready)
      (h : Search ⟨a.toGlobals.signal p, Function.update a.queues q (pre ++ post)⟩ next a') :
      Search a next a'
  | /-- A random number is drawn. -/
    draw {a a' : Kernel Lists} {next : Option PcbPtr}
      (h : Search (a.mapGlobals fun g ↦ g.lotteryRandom.2) next a') : Search a next a'
  | /-- The counters are recharged. -/
    recharge {a a' : Kernel Lists} {next : Option PcbPtr}
      (h : Search (a.mapGlobals (·.recharge)) next a') : Search a next a'

/-- What a search leaves alone. -/
def Globals.static (g : Globals) : Globals :=
  { g with
    pcb := fun p ↦ (g.pcb p).static
    lotteryRngState := 0
    timerClo := fun _ ↦ 0 }

theorem Globals.static_modifyPcb (g : Globals) (p : PcbPtr) {f : PCB → PCB}
    (hf : ∀ b, (f b).static = b.static) : (g.modifyPcb p f).static = g.static := by
  unfold Globals.static
  simp only [Globals.modifyPcb]
  congr 1
  funext x
  exact g.modifyPcb_field p x f PCB.static hf

theorem Globals.static_signal (g : Globals) (p : PcbPtr) : (g.signal p).static = g.static :=
  g.static_modifyPcb p PCB.static_signalled

theorem Globals.static_setCounter (g : Globals) (p : PcbPtr) (c : Int) :
    (g.setCounter p c).static = g.static :=
  g.static_modifyPcb p fun _ ↦ rfl

theorem Globals.static_recharge (g : Globals) : g.recharge.static = g.static := by
  unfold recharge
  induction List.range N_PROCESSES generalizing g with
  | nil => rfl
  | cons i l ih =>
      rw [List.foldl_cons, ih, rechargeSlot]
      cases g.processes i with
      | none => rfl
      | some p => exact g.static_modifyPcb p fun b ↦ rfl

namespace Globals

variable {g g' : Globals}

theorem processes_of_static (h : g'.static = g.static) : g'.processes = g.processes := by
  have hproc := congrArg Globals.processes h
  exact hproc

theorem known_of_static (h : g'.static = g.static) (p : PcbPtr) : g'.Known p ↔ g.Known p := by
  simp only [Known, processes_of_static h]

theorem priority_of_static (h : g'.static = g.static) (p : PcbPtr) :
    (g'.pcb p).priority = (g.pcb p).priority :=
  congrArg (fun s ↦ (s.pcb p).priority) h

theorem Table.of_static (ht : g.Table) (h : g'.static = g.static) : g'.Table := by
  have hproc := processes_of_static h
  have hn : g'.nProcesses = g.nProcesses := by
    have hn := congrArg Globals.nProcesses h
    exact hn
  have hpid : ∀ p, (g'.pcb p).pid = (g.pcb p).pid := fun p ↦ congrArg (fun s ↦ (s.pcb p).pid) h
  refine ⟨fun hi ↦ ?_, fun hi ↦ ?_, ?_, ?_⟩
  · rw [hn, hpid]
    exact ht.slot (hproc ▸ hi)
  · rw [hproc]
    exact ht.filled (hn ▸ hi)
  · rw [hproc]
    exact ht.init
  · rw [hn]
    exact ht.bound

end Globals

namespace Search

variable {a a' : Kernel Lists} {next : Option PcbPtr}

/-- A search changes states, counters and signals of processes, and the generator. -/
theorem static (h : Search a next a') : a'.static = a.static := by
  induction h with
  | none => rfl
  | found quantum hq hp => exact Globals.static_setCounter ..
  | @keep a _ _ _ p hq hp h ih => exact ih.trans (a.toGlobals.static_signal p)
  | @drop a _ _ _ p _ _ hq hp h ih => exact ih.trans (a.toGlobals.static_signal p)
  | draw h ih => exact ih
  | @recharge a _ _ h ih => exact ih.trans a.toGlobals.static_recharge

end Search

/-! ## Fates -/

/-- What a search that ends with the choice `next` has done to the process `p`. -/
inductive Fate (a : Kernel Lists) (next : Option PcbPtr) (a' : Kernel Lists) (p : PcbPtr) : Prop
  | /-- It was in no queue and nobody looked at it. -/
    away (hq : ∀ q, p ∉ a.queues q) (hq' : ∀ q, p ∉ a'.queues q) (hnext : next ≠ some p)
      (hstate : (a'.pcb p).state = (a.pcb p).state)
      (hsignals : (a'.pcb p).pendingSignals = (a.pcb p).pendingSignals)
  | /-- It is where it was; only a `RESUME` can have been handled. -/
    kept (q : QueueId) (hq : p ∈ a.queues q) (hq' : p ∈ a'.queues q) (hnext : next ≠ some p)
      (hkill : (a'.pcb p).hasSignal SIGNAL_KILL ↔ (a.pcb p).hasSignal SIGNAL_KILL)
      (hstop : (a'.pcb p).hasSignal SIGNAL_STOP ↔ (a.pcb p).hasSignal SIGNAL_STOP)
  | /-- It is the choice. -/
    chosen (q : QueueId) (hq : p ∈ a.queues q) (hq' : ∀ q, p ∉ a'.queues q) (hnext : next = some p)
      (hkill : ¬ (a.pcb p).hasSignal SIGNAL_KILL) (hstop : ¬ (a.pcb p).hasSignal SIGNAL_STOP)
      (hstate : (a'.pcb p).state = .ready) (hsignals : (a'.pcb p).NoSignal)
  | /-- It had a `KILL` pending. -/
    killed (q : QueueId) (hq : p ∈ a.queues q) (hq' : ∀ q, p ∉ a'.queues q)
      (hnext : next ≠ some p) (hkill : (a.pcb p).hasSignal SIGNAL_KILL)
      (hstate : (a'.pcb p).state = .zombie)
  | /-- It had a `STOP` pending, and no `KILL`. -/
    stopped (q : QueueId) (hq : p ∈ a.queues q) (hq' : ∀ q, p ∉ a'.queues q)
      (hnext : next ≠ some p) (hkill : ¬ (a.pcb p).hasSignal SIGNAL_KILL)
      (hstop : (a.pcb p).hasSignal SIGNAL_STOP) (hstate : (a'.pcb p).state = .stopped)

namespace Fate

variable {a a₁ a' : Kernel Lists} {next : Option PcbPtr} {x : PcbPtr}

/-- Steps that leave `x` alone can be put in front of its fate. -/
theorem of_unchanged (h : Fate a₁ next a' x) (hq : ∀ q, x ∈ a₁.queues q ↔ x ∈ a.queues q)
    (hstate : (a₁.pcb x).state = (a.pcb x).state)
    (hsignals : (a₁.pcb x).pendingSignals = (a.pcb x).pendingSignals) : Fate a next a' x := by
  have hs : ∀ s, (a₁.pcb x).hasSignal s ↔ (a.pcb x).hasSignal s := fun s ↦ by
    simp only [PCB.hasSignal, hsignals]
  cases h with
  | away h₁ h₂ h₃ h₄ h₅ =>
      exact .away (fun q ↦ mt (hq q).mpr (h₁ q)) h₂ h₃ (h₄.trans hstate) (h₅.trans hsignals)
  | kept q h₁ h₂ h₃ h₄ h₅ =>
      exact .kept q ((hq q).mp h₁) h₂ h₃ (h₄.trans (hs _)) (h₅.trans (hs _))
  | chosen q h₁ h₂ h₃ h₄ h₅ h₆ h₇ =>
      exact .chosen q ((hq q).mp h₁) h₂ h₃ (mt (hs _).mpr h₄) (mt (hs _).mpr h₅) h₆ h₇
  | killed q h₁ h₂ h₃ h₄ h₅ => exact .killed q ((hq q).mp h₁) h₂ h₃ ((hs _).mp h₄) h₅
  | stopped q h₁ h₂ h₃ h₄ h₅ h₆ =>
      exact .stopped q ((hq q).mp h₁) h₂ h₃ (mt (hs _).mpr h₄) ((hs _).mp h₅) h₆

end Fate

namespace Search

variable {a a' : Kernel Lists} {next : Option PcbPtr}

theorem tidy_keep (ha : Tidy a) {p : PcbPtr} (hp : (a.pcb p).signalled.state = .ready) :
    Tidy (a.mapGlobals (·.signal p)) := by
  refine ha.congr (fun _ ↦ List.Sublist.refl _) fun q x hx ↦ ?_
  by_cases hxp : x = p
  · subst hxp
    rw [Globals.signal_pcb_self, hp, ha.ready q x hx]
  · rw [Globals.signal_pcb_of_ne _ hxp]

/-- A step that changes no state and no queue keeps the queues tidy. -/
theorem tidy_mapGlobals (ha : Tidy a) {f : Globals → Globals}
    (hf : ∀ p, ((f a.toGlobals).pcb p).state = (a.pcb p).state) : Tidy (a.mapGlobals f) :=
  ha.congr (fun _ ↦ List.Sublist.refl _) fun _ x _ ↦ hf x

/-- Every process has one of the five fates. -/
theorem fate (h : Search a next a') (ha : Tidy a) (x : PcbPtr) : Fate a next a' x := by
  induction h with
  | @none a =>
      by_cases hx : ∃ q, x ∈ a.queues q
      · obtain ⟨q, hx⟩ := hx
        exact .kept q hx hx (by simp) Iff.rfl Iff.rfl
      · exact .away (not_exists.mp hx) (not_exists.mp hx) (by simp) rfl rfl
  | @found a q p pre post quantum hq hp =>
      have hpq : p ∈ a.queues q := by rw [hq]; simp
      by_cases hxp : x = p
      · subst hxp
        refine .chosen q hpq (ha.notMem_unlink hq) rfl hp.1 hp.2.1 ?_ ?_
        · simpa [Globals.setCounter] using ha.ready q x hpq
        · simpa [Globals.setCounter, PCB.NoSignal, PCB.hasSignal] using hp
      · have hsame : (a.toGlobals.setCounter p quantum).pcb x = a.pcb x :=
          Globals.modifyPcb_pcb_of_ne _ _ hxp
        have hnext : some p ≠ some x := fun e ↦ hxp (Option.some.inj e).symm
        by_cases hx : ∃ q, x ∈ a.queues q
        · obtain ⟨q', hx⟩ := hx
          refine .kept q' hx ((Tidy.mem_unlink hq hxp).mpr hx) hnext ?_ ?_ <;> rw [hsame]
        · have hx' := not_exists.mp hx
          refine .away hx' (fun q' ↦ mt (Tidy.mem_unlink hq hxp).mp (hx' q')) hnext ?_ ?_ <;>
            rw [hsame]
  | @keep a a' next q p hq hp h ih =>
      have ih := ih (tidy_keep ha hp)
      by_cases hxp : x = p
      · subst hxp
        -- its own signals: neither `KILL` nor `STOP`, before or after
        obtain ⟨hkill, hstop⟩ := (PCB.signalled_state_eq_ready (ha.ready q x hq)).mp hp
        have hno := PCB.noSignal_signalled (ha.ready q x hq) hp
        have hpcb : (a.mapGlobals (·.signal x)).pcb x = (a.pcb x).signalled :=
          Globals.signal_pcb_self _ _
        cases ih with
        | away h₁ => exact absurd hq (h₁ q)
        | kept q' h₁ h₂ h₃ h₄ h₅ =>
            rw [hpcb] at h₄ h₅
            exact .kept q' h₁ h₂ h₃ ⟨fun h ↦ absurd (h₄.mp h) hno.1, fun h ↦ absurd h hkill⟩
              ⟨fun h ↦ absurd (h₅.mp h) hno.2.1, fun h ↦ absurd h hstop⟩
        | chosen q' h₁ h₂ h₃ h₄ h₅ h₆ h₇ => exact .chosen q' h₁ h₂ h₃ hkill hstop h₆ h₇
        | killed q' h₁ h₂ h₃ h₄ h₅ => rw [hpcb] at h₄; exact absurd h₄ hno.1
        | stopped q' h₁ h₂ h₃ h₄ h₅ h₆ => rw [hpcb] at h₅; exact absurd h₅ hno.2.1
      · have hsame : (a.mapGlobals (·.signal p)).pcb x = a.pcb x :=
          Globals.signal_pcb_of_ne _ hxp
        exact ih.of_unchanged (fun _ ↦ Iff.rfl) (by rw [hsame]) (by rw [hsame])
  | @drop a a' next q p pre post hq hp h ih =>
      have hpq : p ∈ a.queues q := by rw [hq]; simp
      have hother : ∀ y, y ≠ p → (a.toGlobals.signal p).pcb y = a.pcb y := fun y hy ↦
        Globals.signal_pcb_of_ne _ hy
      have ih := ih (ha.unlink hq fun y hy ↦ by rw [hother y hy])
      by_cases hxp : x = p
      · subst hxp
        -- it has left its queue, so the rest of the search does not look at it
        have hgone := ha.notMem_unlink hq
        cases ih with
        | away h₁ h₂ h₃ h₄ h₅ =>
            rw [Globals.signal_pcb_self] at h₄
            obtain ⟨hk, hz⟩ | ⟨hk, hs, hz⟩ := PCB.signalled_state_ne_ready (ha.ready q x hpq) hp
            · exact .killed q hpq h₂ h₃ hk (h₄.trans hz)
            · exact .stopped q hpq h₂ h₃ hk hs (h₄.trans hz)
        | kept q' h₁ => exact absurd h₁ (hgone q')
        | chosen q' h₁ => exact absurd h₁ (hgone q')
        | killed q' h₁ => exact absurd h₁ (hgone q')
        | stopped q' h₁ => exact absurd h₁ (hgone q')
      · refine ih.of_unchanged (fun q' ↦ Tidy.mem_unlink hq hxp) ?_ ?_ <;>
          simp only [hother x hxp]
  | draw h ih => exact (ih (tidy_mapGlobals ha fun _ ↦ rfl)).of_unchanged (fun _ ↦ Iff.rfl) rfl rfl
  | @recharge a a' next h ih =>
      have hstate := a.toGlobals.recharge_field PCB.state fun _ _ ↦ rfl
      exact (ih (tidy_mapGlobals ha hstate)).of_unchanged (fun _ ↦ Iff.rfl) (hstate x)
        (a.toGlobals.recharge_field PCB.pendingSignals (fun _ _ ↦ rfl) x)

/-- A search only removes processes from the queues. -/
theorem sublist (h : Search a next a') (q : QueueId) :
    (a'.queues q).Sublist (a.queues q) := by
  induction h with
  | none => exact List.Sublist.refl _
  | found quantum hq hp => exact Tidy.unlink_sublist hq q
  | keep hq hp h ih => exact ih
  | drop hq hp h ih => exact ih.trans (Tidy.unlink_sublist hq q)
  | draw h ih => exact ih
  | recharge h ih => exact ih

/-- A search keeps the queues tidy. -/
theorem tidy (h : Search a next a') (ha : Tidy a) : Tidy a' := by
  refine ha.congr h.sublist fun q p hp ↦ ?_
  rw [ha.ready q p ((h.sublist q).subset hp)]
  induction h with
  | none => exact ha.ready q p hp
  | @found a q' p' pre post quantum hq hp' =>
      have hne : p ≠ p' := fun e ↦ ha.notMem_unlink hq q (e ▸ hp)
      have hsame : (a.toGlobals.setCounter p' quantum).pcb p = a.pcb p :=
        Globals.modifyPcb_pcb_of_ne _ _ hne
      rw [hsame]
      exact ha.ready q p ((Tidy.mem_unlink hq hne).mp hp)
  | keep hq hp' h ih => exact ih (tidy_keep ha hp') hp
  | @drop a _ _ _ p' _ _ hq hp' h ih =>
      refine ih (ha.unlink hq fun y hy ↦ ?_) hp
      rw [Globals.signal_pcb_of_ne _ hy]
  | draw h ih => exact ih (tidy_mapGlobals ha fun _ ↦ rfl) hp
  | @recharge a _ _ h ih =>
      exact ih (tidy_mapGlobals ha (a.toGlobals.recharge_field PCB.state fun _ _ ↦ rfl)) hp

end Search

end DemosOS
