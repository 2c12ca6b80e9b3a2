import Mathlib.Data.List.Basic
import Mathlib.Logic.Function.Basic

/-!
# Traces

Runs of a system whose steps have labels, and forward simulation between two systems with the same
labels.  Components that each make steps of their own are run together by `Each`; what happens to one
of them is explained by its own labels.
-/

namespace DemosOS.Lib

universe u v w x

variable {σ : Type u} {τ : Type v} {E : Type w} {ι : Type x}

/-- A run with the labels of its steps. -/
inductive Trace (step : E → σ → σ → Prop) : List E → σ → σ → Prop
  | nil (s : σ) : Trace step [] s s
  | cons {e : E} {es : List E} {s s' s'' : σ} (h : step e s s') (hrest : Trace step es s' s'') :
      Trace step (e :: es) s s''

namespace Trace

variable {step : E → σ → σ → Prop} {step' : E → τ → τ → Prop} {es : List E} {s s' : σ} {t : τ}

/-- What every step keeps, every run keeps. -/
theorem invariant {I : σ → Prop} (hI : ∀ e s s', I s → step e s s' → I s')
    (h : Trace step es s s') (hs : I s) : I s' := by
  induction h with
  | nil s => exact hs
  | cons hstep _ ih => exact ih (hI _ _ _ hs hstep)

/-- A forward simulation carries runs over. -/
theorem simulate {R : σ → τ → Prop}
    (hR : ∀ e s s' t, R s t → step e s s' → ∃ t', step' e t t' ∧ R s' t')
    (h : Trace step es s s') (ht : R s t) : ∃ t', Trace step' es t t' ∧ R s' t' := by
  induction h generalizing t with
  | nil s => exact ⟨t, .nil t, ht⟩
  | cons hstep _ ih =>
      obtain ⟨t₁, hstep₁, ht₁⟩ := hR _ _ _ _ ht hstep
      obtain ⟨t', hrest, ht'⟩ := ih ht₁
      exact ⟨t', .cons hstep₁ hrest, ht'⟩

end Trace

/-! ## Components -/

section

variable [DecidableEq ι]

/-- One of the components makes a step. -/
def Each (step : E → σ → σ → Prop) (e : ι × E) (s s' : ι → σ) : Prop :=
  ∃ t, step e.2 (s e.1) t ∧ s' = Function.update s e.1 t

/-- The labels of one component. -/
def labelsOf (i : ι) (es : List (ι × E)) : List E :=
  es.filterMap fun e ↦ if e.1 = i then some e.2 else none

theorem labelsOf_cons_self (e : ι × E) (es : List (ι × E)) :
    labelsOf e.1 (e :: es) = e.2 :: labelsOf e.1 es :=
  List.filterMap_cons_some (f := fun d : ι × E ↦ if d.1 = e.1 then some d.2 else none) (if_pos rfl)

theorem labelsOf_cons_of_ne {i : ι} {e : ι × E} (h : e.1 ≠ i) (es : List (ι × E)) :
    labelsOf i (e :: es) = labelsOf i es :=
  List.filterMap_cons_none (f := fun d : ι × E ↦ if d.1 = i then some d.2 else none) (if_neg h)

/-- A component makes its own steps and no others. -/
theorem Trace.component {step : E → σ → σ → Prop} {es : List (ι × E)} {s s' : ι → σ}
    (h : Trace (Each step) es s s') (i : ι) : Trace step (labelsOf i es) (s i) (s' i) := by
  induction h with
  | nil s => exact .nil (s i)
  | @cons e es s _ _ hstep _ ih =>
      obtain ⟨t, ht, rfl⟩ := hstep
      by_cases hi : e.1 = i
      · subst hi
        rw [Function.update_self] at ih
        rw [labelsOf_cons_self]
        exact .cons ht ih
      · rw [Function.update_of_ne (Ne.symm hi)] at ih
        rw [labelsOf_cons_of_ne hi]
        exact ih

end

end DemosOS.Lib
