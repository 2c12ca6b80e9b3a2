import Mathlib.Logic.Function.Basic
import Mathlib.Logic.Relation
import Mathlib.Tactic.SplitIfs

/-!
# Threads on one processor

Threads that share a state and take turns on one processor.  The shared state says who
runs.  The running thread performs its next action, which depends on where it is in its
code and possibly on a choice, and may hand over the processor; between any two actions
an interrupt may hand it over instead.  A thread that does not run stays where it is.

Properties of every interleaving are proved with `Machine.invariant`: what one action and
one interrupt keep is kept by every run.  Runs can be restricted by a condition on the
configurations in which an event may happen.
-/

namespace DemosOS.Lib

universe u

/-- Shared states `σ`, threads `ι`, points of a thread's code `L`, and choices `C`. -/
structure Machine (σ ι L C : Type u) where
  running : σ → ι
  act : C → σ → L → Option (σ × L)
  interrupt : σ → Option σ

/-- The shared state, and where every thread is. -/
structure Config (σ ι L : Type u) where
  shared : σ
  point : ι → L

/-- What can happen next. -/
inductive Event (C : Type u)
  | act (choice : C)
  | interrupt

namespace Machine

variable {σ ι L C : Type u} [DecidableEq ι] (M : Machine σ ι L C)

/-- The configuration after an event. -/
def next (e : Event C) (c : Config σ ι L) : Option (Config σ ι L) :=
  match e with
  | .act choice => (M.act choice c.shared (c.point (M.running c.shared))).map fun r ↦
      ⟨r.1, Function.update c.point (M.running c.shared) r.2⟩
  | .interrupt => (M.interrupt c.shared).map fun s ↦ ⟨s, c.point⟩

/-- One event, where the condition allows it. -/
def Step (allowed : Event C → Config σ ι L → Prop) (c c' : Config σ ι L) : Prop :=
  ∃ e, allowed e c ∧ M.next e c = some c'

/-- A sequence of events, each where the condition allows it. -/
def run (allowed : Event C → Config σ ι L → Prop) [∀ e c, Decidable (allowed e c)]
    (events : List (Event C)) (c : Config σ ι L) : Option (Config σ ι L) :=
  events.foldlM (fun c e ↦ if allowed e c then M.next e c else none) c

variable {M} {allowed : Event C → Config σ ι L → Prop} {c c' : Config σ ι L}

/-- What every allowed action and every allowed interrupt keep, all runs keep. -/
theorem invariant {I : Config σ ι L → Prop}
    (hact : ∀ c choice s l, I c → allowed (.act choice) c →
      M.act choice c.shared (c.point (M.running c.shared)) = some (s, l) →
      I ⟨s, Function.update c.point (M.running c.shared) l⟩)
    (hinterrupt : ∀ c s, I c → allowed .interrupt c → M.interrupt c.shared = some s →
      I ⟨s, c.point⟩)
    (h : Relation.ReflTransGen (M.Step allowed) c c') (hI : I c) : I c' := by
  induction h with
  | refl => exact hI
  | tail _ hstep ih =>
      obtain ⟨e, hallowed, hnext⟩ := hstep
      cases e with
      | act choice =>
          obtain ⟨⟨s, l⟩, hs, rfl⟩ := Option.map_eq_some_iff.mp hnext
          exact hact _ choice s l ih hallowed hs
      | interrupt =>
          obtain ⟨s, hs, rfl⟩ := Option.map_eq_some_iff.mp hnext
          exact hinterrupt _ s ih hallowed hs

/-- A run along which one condition implies another is a run under the other. -/
theorem reachable_mono {allowed' : Event C → Config σ ι L → Prop} {I : Config σ ι L → Prop}
    (hI : ∀ c c', I c → M.Step allowed c c' → I c')
    (hallowed : ∀ e c, I c → allowed e c → allowed' e c)
    (h : Relation.ReflTransGen (M.Step allowed) c c') (hc : I c) :
    Relation.ReflTransGen (M.Step allowed') c c' := by
  induction h using Relation.ReflTransGen.head_induction_on with
  | refl => exact .refl
  | head hstep _ ih =>
      obtain ⟨e, he, hnext⟩ := hstep
      exact .head ⟨e, hallowed e _ hc he, hnext⟩ (ih (hI _ _ hc ⟨e, he, hnext⟩))

/-- What a sequence of events reaches. -/
theorem reachable_of_run [∀ e c, Decidable (allowed e c)] {events : List (Event C)}
    (h : M.run allowed events c = some c') :
    Relation.ReflTransGen (M.Step allowed) c c' := by
  induction events generalizing c with
  | nil =>
      obtain rfl := Option.some.inj h
      exact .refl
  | cons e events ih =>
      rw [run, List.foldlM_cons] at h
      obtain ⟨c₁, hc₁, h⟩ := Option.bind_eq_some_iff.mp h
      split_ifs at hc₁ with hallowed
      exact .head ⟨e, hallowed, hc₁⟩ (ih h)

end Machine

end DemosOS.Lib
