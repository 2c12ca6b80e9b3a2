import Mathlib.Data.List.Basic
import Mathlib.Data.Nat.ModEq
import Mathlib.Logic.Function.Basic

/-!
# Circular buffers

A buffer of `n` cells with two indices: `head` is where the next element goes and `tail`
where the next one comes from.  Both advance by one modulo `n`, and one cell stays free, so
that `head = tail` means empty.

`Represents` says which list such a buffer holds.  Nothing here depends on what the
elements are, on how the cells are stored, or on who moves the indices.
-/

namespace DemosOS.Lib.Ring

universe u

variable {α : Type u} {n head tail : Nat} {cell : Nat → α} {l : List α}

/-- The sum of two indices below `n` wraps at most once. -/
theorem add_mod_of_lt {a b : Nat} (ha : a < n) (hb : b < n) :
    (a + b) % n = if a + b < n then a + b else a + b - n := by
  split_ifs with h
  · exact Nat.mod_eq_of_lt h
  · rw [Nat.mod_eq_sub_mod (by omega)]
    exact Nat.mod_eq_of_lt (by omega)

/-- Different offsets below `n` lead to different cells. -/
theorem index_inj {i j : Nat} (ht : tail < n) (hi : i < n) (hj : j < n)
    (h : (tail + i) % n = (tail + j) % n) : i = j := by
  rw [add_mod_of_lt ht hi, add_mod_of_lt ht hj] at h
  split_ifs at h <;> omega

/-- The cells from `tail` up to `head` hold the list `l`. -/
structure Represents (n head tail : Nat) (cell : Nat → α) (l : List α) : Prop where
  tail_lt : tail < n
  length_lt : l.length < n
  head_eq : head = (tail + l.length) % n
  get : ∀ i x, l[i]? = some x → cell ((tail + i) % n) = x

/-- The cells from `tail` up to `head`, in order. -/
def contents (n head tail : Nat) (cell : Nat → α) : List α :=
  (List.range ((head + n - tail) % n)).map fun i ↦ cell ((tail + i) % n)

namespace Represents

theorem head_lt (h : Represents n head tail cell l) : head < n := by
  rw [h.head_eq]
  exact Nat.mod_lt _ (Nat.zero_lt_of_lt h.tail_lt)

/-- Only the cells of the buffer matter. -/
theorem congr (h : Represents n head tail cell l) {cell' : Nat → α}
    (hcell : ∀ i < n, cell' i = cell i) : Represents n head tail cell' l where
  tail_lt := h.tail_lt
  length_lt := h.length_lt
  head_eq := h.head_eq
  get i x hx := by
    rw [hcell _ (Nat.mod_lt _ (Nat.zero_lt_of_lt h.tail_lt))]
    exact h.get i x hx

/-- A buffer whose indices agree is empty. -/
theorem nil (ht : tail < n) : Represents n tail tail cell [] where
  tail_lt := ht
  length_lt := Nat.zero_lt_of_lt ht
  head_eq := (Nat.mod_eq_of_lt ht).symm
  get := by simp

theorem empty_iff (h : Represents n head tail cell l) : head = tail ↔ l = [] := by
  constructor
  · intro he
    have hmod : (tail + l.length) % n = (tail + 0) % n := by
      rw [← h.head_eq, he, Nat.add_zero, Nat.mod_eq_of_lt h.tail_lt]
    have hlen := index_inj h.tail_lt h.length_lt (Nat.zero_lt_of_lt h.tail_lt) hmod
    exact List.length_eq_zero_iff.mp hlen
  · rintro rfl
    rw [h.head_eq]
    exact Nat.mod_eq_of_lt h.tail_lt

/-- The next index reaches the tail exactly when all cells but one are taken. -/
theorem full_iff (h : Represents n head tail cell l) :
    (head + 1) % n = tail ↔ l.length + 1 = n := by
  have htail := h.tail_lt
  have hlen := h.length_lt
  rw [h.head_eq, Nat.mod_add_mod, Nat.add_assoc]
  by_cases hfull : l.length + 1 = n
  · simp [hfull, Nat.mod_eq_of_lt htail]
  · rw [add_mod_of_lt htail (by omega)]
    constructor
    · intro he
      split_ifs at he <;> omega
    · exact fun he ↦ absurd he hfull

/-- The cell at `head` is not among the occupied ones. -/
theorem write_head (h : Represents n head tail cell l) (x : α) :
    Represents n head tail (Function.update cell head x) l where
  tail_lt := h.tail_lt
  length_lt := h.length_lt
  head_eq := h.head_eq
  get i y hy := by
    have hi : i < l.length := (List.getElem?_eq_some_iff.mp hy).1
    have hne : (tail + i) % n ≠ head := by
      intro he
      rw [h.head_eq] at he
      have := index_inj h.tail_lt (hi.trans h.length_lt) h.length_lt he
      omega
    rw [Function.update_of_ne hne]
    exact h.get i y hy

/-- Moving `head` past a cell that holds `x` appends `x`. -/
theorem advance_head (h : Represents n head tail cell l) (hroom : (head + 1) % n ≠ tail)
    {x : α} (hx : cell head = x) : Represents n ((head + 1) % n) tail cell (l ++ [x]) where
  tail_lt := h.tail_lt
  length_lt := by
    have hne := mt h.full_iff.mpr hroom
    have hlen := h.length_lt
    rw [List.length_append, List.length_singleton]
    omega
  head_eq := by
    rw [h.head_eq, Nat.mod_add_mod, List.length_append, List.length_singleton, Nat.add_assoc]
  get i y hy := by
    rcases lt_trichotomy i l.length with hi | rfl | hi
    · rw [List.getElem?_append_left hi] at hy
      exact h.get i y hy
    · rw [← h.head_eq, hx]
      simpa using hy
    · rw [List.getElem?_eq_none (by rw [List.length_append, List.length_singleton]; omega)] at hy
      simp at hy

/-- The cell at `tail` holds the first element, and moving `tail` past it removes it. -/
theorem advance_tail {x : α} (h : Represents n head tail cell (x :: l)) :
    cell tail = x ∧ Represents n head ((tail + 1) % n) cell l := by
  have hlen := h.length_lt
  rw [List.length_cons] at hlen
  refine ⟨?_, Nat.mod_lt _ (Nat.zero_lt_of_lt h.tail_lt), by omega, ?_, fun i y hy ↦ ?_⟩
  · have hget := h.get 0 x rfl
    rwa [Nat.add_zero, Nat.mod_eq_of_lt h.tail_lt] at hget
  · rw [h.head_eq, List.length_cons, Nat.mod_add_mod]
    congr 1
    omega
  · have hget := h.get (i + 1) y hy
    rw [Nat.mod_add_mod]
    rwa [show tail + (i + 1) = tail + 1 + i by omega] at hget

/-- The number of elements, from the two indices. -/
theorem length_eq (h : Represents n head tail cell l) : (head + n - tail) % n = l.length := by
  have htail := h.tail_lt
  have hlen := h.length_lt
  rw [h.head_eq, add_mod_of_lt htail hlen]
  split_ifs with hwrap
  · rw [show tail + l.length + n - tail = l.length + n by omega, Nat.add_mod_right]
    exact Nat.mod_eq_of_lt hlen
  · rw [show tail + l.length - n + n - tail = l.length by omega]
    exact Nat.mod_eq_of_lt hlen

/-- The list is determined by the indices and the cells. -/
theorem contents_eq (h : Represents n head tail cell l) : contents n head tail cell = l := by
  refine List.ext_getElem? fun i ↦ ?_
  rw [contents, h.length_eq, List.getElem?_map]
  by_cases hi : i < l.length
  · rw [List.getElem?_range hi, List.getElem?_eq_getElem hi, Option.map_some,
      h.get i _ (List.getElem?_eq_getElem hi)]
  · rw [List.getElem?_eq_none (by simpa using hi), List.getElem?_eq_none (by simpa using hi)]
    rfl

end Represents

end DemosOS.Lib.Ring
