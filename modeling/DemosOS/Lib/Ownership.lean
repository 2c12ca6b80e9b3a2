import Mathlib.Data.List.Nodup
import Mathlib.Data.List.Range
import Mathlib.Logic.Function.Basic
import Mathlib.Data.Set.Defs

/-!
# Owners of cells

A resource that consists of cells, some of them in use, and owners that hold cells.  Nobody
writes down who owns what, so exclusive ownership is a property that every operation has to
keep: a cell that is held is in use, and it is held by one owner only.

The second part counts the free cells of a bitmap, which is what decides whether an
allocation succeeds.
-/

namespace DemosOS.Lib

universe u v

variable {ω : Type u} {α : Type v}

/-- Every cell that is held is in use, and held by one owner only. -/
structure Exclusive (owns : ω → α → Prop) (used : α → Prop) : Prop where
  used : ∀ {o a}, owns o a → used a
  unique : ∀ {o o' a}, owns o a → owns o' a → o = o'

namespace Exclusive

variable {owns owns' : ω → α → Prop} {used used' : α → Prop}

/-- A cell that is not in use has no owner. -/
theorem not_owns (h : Exclusive owns used) {a : α} (ha : ¬ used a) (o : ω) : ¬ owns o a :=
  fun ho ↦ ha (h.used ho)

/-- Owners may give up cells, and cells that nobody holds may become free. -/
theorem mono (h : Exclusive owns used) (hsub : ∀ {o a}, owns' o a → owns o a)
    (hused : ∀ {o a}, owns' o a → used' a) : Exclusive owns' used' :=
  ⟨hused, fun ho ho' ↦ h.unique (hsub ho) (hsub ho')⟩

/-- The cells of `T` may get new owners, each of them one; outside of `T` nobody gains a
cell. -/
theorem replace (h : Exclusive owns used) (T : Set α)
    (hout : ∀ {o a}, owns' o a → a ∉ T → owns o a ∧ (used a → used' a))
    (hin : ∀ {o a}, owns' o a → a ∈ T → used' a)
    (hone : ∀ {o o' a}, a ∈ T → owns' o a → owns' o' a → o = o') : Exclusive owns' used' where
  used {o a} ho := by
    by_cases ha : a ∈ T
    · exact hin ho ha
    · exact (hout ho ha).2 (h.used (hout ho ha).1)
  unique {o o' a} ho ho' := by
    by_cases ha : a ∈ T
    · exact hone ha ho ho'
    · exact h.unique (hout ho ha).1 (hout ho' ha).1

end Exclusive

/-! ## Free cells of a bitmap -/

/-- The number of free cells among the first `n`. -/
def freeCells (used : Nat → Bool) (n : Nat) : Nat := ((List.range n).filter (!used ·)).length

section

variable {used : Nat → Bool} {n i : Nat}

theorem freeCells_succ (used : Nat → Bool) (n : Nat) :
    freeCells used (n + 1) = freeCells used n + if used n then 0 else 1 := by
  unfold freeCells
  rw [List.range_succ, List.filter_append, List.length_append]
  cases h : used n <;> simp [h]

theorem freeCells_eq_zero : freeCells used n = 0 ↔ ∀ i < n, used i = true := by
  simp [freeCells, List.filter_eq_nil_iff]

theorem freeCells_congr {used' : Nat → Bool} (h : ∀ i < n, used' i = used i) :
    freeCells used' n = freeCells used n := by
  unfold freeCells
  congr 1
  refine List.filter_congr fun i hi ↦ ?_
  rw [h i (List.mem_range.mp hi)]

theorem freeCells_mono {m : Nat} (h : m ≤ n) : freeCells used m ≤ freeCells used n :=
  ((List.range_sublist.mpr h).filter _).length_le

/-- Taking a free cell. -/
theorem freeCells_take (hi : i < n) (hfree : used i = false) :
    freeCells (Function.update used i true) n + 1 = freeCells used n := by
  induction n with
  | zero => omega
  | succ n ih =>
      rw [freeCells_succ, freeCells_succ]
      by_cases hin : i = n
      · subst hin
        have hbelow : freeCells (Function.update used i true) i = freeCells used i :=
          freeCells_congr fun j hj ↦ Function.update_of_ne hj.ne _ _
        rw [hbelow, Function.update_self, hfree]
        simp
      · have := ih (by omega)
        rw [Function.update_of_ne (Ne.symm hin)]
        omega

/-- Giving a cell back. -/
theorem freeCells_release (hi : i < n) (hused : used i = true) :
    freeCells (Function.update used i false) n = freeCells used n + 1 := by
  have hback : Function.update (Function.update used i false) i true = used := by
    rw [Function.update_idem]
    exact Function.update_eq_self_iff.mpr hused.symm
  have hfree : Function.update used i false i = false := Function.update_self ..
  have htake := freeCells_take hi hfree
  rw [hback] at htake
  exact htake.symm

end

end DemosOS.Lib
