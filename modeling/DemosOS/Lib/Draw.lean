import Mathlib.Algebra.BigOperators.Group.List.Basic
import Mathlib.Algebra.Ring.Int.Defs
import Mathlib.Algebra.Order.BigOperators.Group.List
import Mathlib.Data.List.Nodup

/-!
# Draws by weight

The elements of a list stand one after the other on the number line, each on an interval as long as
its weight.  A number between 0 and the total weight lies on the interval of exactly one of them,
its `holder`, and each element holds as many numbers as it weighs.
-/

namespace DemosOS.Lib

universe u

variable {α : Type u} (w : α → Int)

/-- The total weight of a list. -/
def weight (l : List α) : Int := (l.map w).sum

/-- The element on whose interval the number `n` lies. -/
def holder : Int → List α → Option α
  | _, [] => none
  | n, x :: l => if n < w x then some x else holder (n - w x) l

@[simp] theorem weight_nil : weight w [] = 0 := rfl

@[simp] theorem weight_cons (x : α) (l : List α) : weight w (x :: l) = w x + weight w l :=
  List.sum_cons

@[simp] theorem weight_append (l l' : List α) :
    weight w (l ++ l') = weight w l + weight w l' := by
  rw [weight, List.map_append, List.sum_append, weight, weight]

variable {w}

theorem weight_nonneg {l : List α} (hw : ∀ x ∈ l, 0 ≤ w x) : 0 ≤ weight w l :=
  List.sum_nonneg fun y hy ↦ by
    obtain ⟨x, hx, rfl⟩ := List.mem_map.mp hy
    exact hw x hx

theorem weight_pos {l : List α} (hne : l ≠ []) (hw : ∀ x ∈ l, 0 < w x) : 0 < weight w l := by
  obtain ⟨x, l, rfl⟩ := List.exists_cons_of_ne_nil hne
  have hx := hw x List.mem_cons_self
  have hl := weight_nonneg fun y hy ↦ (hw y (List.mem_cons_of_mem x hy)).le
  rw [weight_cons]
  omega

theorem weight_le {l : List α} {b : Int} (hw : ∀ x ∈ l, w x ≤ b) :
    weight w l ≤ l.length * b := by
  induction l with
  | nil => simp
  | cons x l ih =>
      have hx := hw x List.mem_cons_self
      have hl := ih fun y hy ↦ hw y (List.mem_cons_of_mem x hy)
      rw [weight_cons, List.length_cons, Int.natCast_succ, Int.add_mul, Int.one_mul]
      omega

/-- The weight of a part of the list from the front. -/
theorem weight_prefix_le {pre l : List α} (hpre : pre <+: l) (hw : ∀ x ∈ l, 0 ≤ w x) :
    weight w pre ≤ weight w l := by
  obtain ⟨post, rfl⟩ := hpre
  have hpost := weight_nonneg fun x hx ↦ hw x (List.mem_append_right pre hx)
  rw [weight_append]
  omega

theorem holder_mem {n : Int} {l : List α} {p : α} (h : holder w n l = some p) : p ∈ l := by
  induction l generalizing n with
  | nil => exact nomatch h
  | cons x l ih =>
      rw [holder] at h
      split_ifs at h
      · obtain rfl := Option.some.inj h
        exact List.mem_cons_self
      · exact List.mem_cons_of_mem x (ih h)

/-- A number below the total weight has a holder, and lies on its interval. -/
theorem exists_holder {n : Int} {l : List α} (hn : 0 ≤ n) (hlt : n < weight w l) :
    ∃ pre p post, l = pre ++ p :: post ∧ weight w pre ≤ n ∧ n < weight w pre + w p ∧
      holder w n l = some p := by
  induction l generalizing n with
  | nil =>
      rw [weight_nil] at hlt
      omega
  | cons x l ih =>
      rw [weight_cons] at hlt
      rw [holder]
      split_ifs with hx
      · exact ⟨[], x, l, rfl, hn, by simpa using hx, rfl⟩
      · obtain ⟨pre, p, post, rfl, hlow, hhigh, hp⟩ := ih (n := n - w x) (by omega) (by omega)
        refine ⟨x :: pre, p, post, rfl, ?_, ?_, hp⟩
        · rw [weight_cons]
          omega
        · rw [weight_cons]
          omega

theorem range_toNat_add {m n : Int} (hm : 0 ≤ m) (hn : 0 ≤ n) :
    List.range (m + n).toNat =
      List.range m.toNat ++ (List.range n.toNat).map (m.toNat + ·) := by
  rw [Int.toNat_add hm hn, List.range_add]

/-- Each element holds as many numbers as it weighs. -/
theorem count_holder [DecidableEq α] {l : List α} (hl : l.Nodup) (hw : ∀ x ∈ l, 0 ≤ w x) {p : α}
    (hp : p ∈ l) :
    ((List.range (weight w l).toNat).countP fun n : Nat ↦ holder w n l = some p) = (w p).toNat := by
  induction l with
  | nil => exact absurd hp List.not_mem_nil
  | cons x l ih =>
      obtain ⟨hx, hl⟩ := List.nodup_cons.mp hl
      have hwx := hw x List.mem_cons_self
      have hwl : ∀ y ∈ l, 0 ≤ w y := fun y hy ↦ hw y (List.mem_cons_of_mem x hy)
      -- the first numbers are those of `x`, the others are shifted by its weight
      have hfirst : ∀ n ∈ List.range (w x).toNat, holder w n (x :: l) = some x := by
        intro n hn
        have hlt := List.mem_range.mp hn
        rw [holder, if_pos (by omega)]
      have hrest : ∀ n : Nat, holder w ((w x).toNat + n : Nat) (x :: l) = holder w n l := by
        intro n
        have hshift : ((w x).toNat + n : Nat) - w x = (n : Int) := by omega
        rw [holder, if_neg (by omega), hshift]
      rw [weight_cons, range_toNat_add hwx (weight_nonneg hwl), List.countP_append, List.countP_map]
      have hcomp : ((fun n : Nat ↦ decide (holder w n (x :: l) = some p)) ∘ ((w x).toNat + ·)) =
          fun n : Nat ↦ decide (holder w n l = some p) := by
        funext n
        exact congrArg (fun o ↦ decide (o = some p)) (hrest n)
      rw [hcomp]
      rcases List.mem_cons.mp hp with rfl | hp
      · have hnone :
            ((List.range (weight w l).toNat).countP fun n : Nat ↦ holder w n l = some p) = 0 :=
          List.countP_eq_zero.mpr fun n _ hn ↦ hx (holder_mem (of_decide_eq_true hn))
        have hall : ((List.range (w p).toNat).countP fun n : Nat ↦
            holder w n (p :: l) = some p) = (List.range (w p).toNat).length :=
          List.countP_eq_length.mpr fun n hn ↦ decide_eq_true (hfirst n hn)
        rw [hnone, hall, List.length_range, Nat.add_zero]
      · have hnone : ((List.range (w x).toNat).countP fun n : Nat ↦ holder w n (x :: l) =
          some p) = 0 := by
          refine List.countP_eq_zero.mpr fun n hn hc ↦ ?_
          rw [hfirst n hn] at hc
          obtain rfl := Option.some.inj (of_decide_eq_true hc)
          exact hx hp
        rw [hnone, ih hl hwl hp, Nat.zero_add]

end DemosOS.Lib
