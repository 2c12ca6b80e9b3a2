import Mathlib.Data.Option.Basic

/-!
# Loops that may fail

A loop over a list whose body may fail is a `List.foldlM` in `Option`.  What every round keeps is
kept by the loop.
-/

namespace DemosOS.Lib

universe u v

variable {σ : Type u} {α : Type v} {f : σ → α → Option σ} {l : List α} {s s' : σ}

/-- The invariant of a loop. -/
theorem foldlM_invariant {I : σ → Prop} (hf : ∀ {s a s'}, I s → f s a = some s' → I s')
    (h : l.foldlM f s = some s') (hs : I s) : I s' := by
  induction l generalizing s with
  | nil =>
      obtain rfl := Option.some.inj h
      exact hs
  | cons a l ih =>
      rw [List.foldlM_cons] at h
      obtain ⟨s₁, hs₁, h⟩ := Option.bind_eq_some_iff.mp h
      exact ih h (hf hs hs₁)

/-- What a loop does to the state, where every round does it. -/
theorem foldlM_rel {R : σ → σ → Prop} (hrefl : ∀ s, R s s)
    (htrans : ∀ {s s₁ s₂}, R s s₁ → R s₁ s₂ → R s s₂) (hf : ∀ {s a s'}, f s a = some s' → R s s')
    (h : l.foldlM f s = some s') : R s s' :=
  foldlM_invariant (I := R s) (fun hs hround ↦ htrans hs (hf hround)) h (hrefl s)

end DemosOS.Lib
