import Mathlib.Data.List.Basic
import Mathlib.Data.List.TakeWhile

/-!
# Arrays of fixed length, and the strings in them

An array is a list whose length never changes.  Stores are checked: one outside the array
has no result.  A string in an array is what stands before the first `0`.

`storeAll` writes a list element by element; `splice` is what the array holds afterwards.
Nothing here depends on what the elements are.
-/

namespace DemosOS.Lib.Buffer

universe u

variable {α : Type u}

/-! ## Checked stores -/

/-- Store one element. -/
def store (b : List α) (i : Nat) (c : α) : Option (List α) :=
  if i < b.length then some (b.set i c) else none

/-- Store the elements of a list, one after the other. -/
def storeAll (b : List α) (i : Nat) : List α → Option (List α)
  | [] => some b
  | c :: s => (store b i c).bind fun b ↦ storeAll b (i + 1) s

/-- The array with a list written over what was there. -/
def splice (b : List α) (i : Nat) (s : List α) : List α := b.take i ++ s ++ b.drop (i + s.length)

section Store

variable {b b' s t : List α} {i j : Nat} {c : α}

theorem store_of_lt (h : i < b.length) : store b i c = some (b.set i c) := if_pos h

theorem store_of_le (h : b.length ≤ i) : store b i c = none := if_neg (Nat.not_lt.mpr h)

theorem store_length (h : store b i c = some b') : b'.length = b.length := by
  unfold store at h
  split_ifs at h
  rw [← Option.some.inj h, List.length_set]

@[simp] theorem splice_nil (b : List α) (i : Nat) : splice b i [] = b := by
  rw [splice, List.append_nil, List.length_nil, Nat.add_zero, List.take_append_drop]

@[simp] theorem splice_length (h : i + s.length ≤ b.length) : (splice b i s).length = b.length := by
  simp only [splice, List.length_append, List.length_take, List.length_drop]
  omega

/-- One more element at the front of what is written. -/
theorem splice_set (h : i < b.length) : splice (b.set i c) (i + 1) s = splice b i (c :: s) := by
  have htake : (b.set i c).take (i + 1) = b.take i ++ [c] := by
    rw [List.set_eq_take_append_cons_drop, if_pos h, List.take_append, List.take_take,
      List.length_take]
    rw [Nat.min_eq_left (Nat.le_of_lt h), Nat.min_eq_right (Nat.le_succ i), Nat.add_sub_cancel_left]
    rfl
  have hdrop : (b.set i c).drop (i + 1 + s.length) = b.drop (i + (c :: s).length) := by
    rw [List.drop_set_of_lt (by omega), List.length_cons]
    congr 1
    omega
  rw [splice, splice, htake, hdrop, List.append_assoc _ [c], List.singleton_append]

/-- What fits is written. -/
theorem storeAll_of_le (h : i + s.length ≤ b.length) : storeAll b i s = some (splice b i s) := by
  induction s generalizing b i with
  | nil => rw [splice_nil]; rfl
  | cons c s ih =>
      rw [List.length_cons] at h
      have hi : i < b.length := by omega
      rw [storeAll, store_of_lt hi, Option.bind_some, ih (by rw [List.length_set]; omega),
        splice_set hi]

/-- What does not fit has a store outside the array. -/
theorem storeAll_of_lt (h : b.length < i + s.length) (hs : s ≠ []) : storeAll b i s = none := by
  induction s generalizing b i with
  | nil => exact absurd rfl hs
  | cons c s ih =>
      rw [List.length_cons] at h
      by_cases hi : i < b.length
      · rw [storeAll, store_of_lt hi, Option.bind_some]
        have hs' : s ≠ [] := by
          rintro rfl
          rw [List.length_nil] at h
          omega
        exact ih (by rw [List.length_set]; omega) hs'
      · rw [storeAll, store_of_le (by omega), Option.bind_none]

end Store

/-! ## Strings -/

section Strings

variable [Zero α] {b s t : List α} {i n : Nat}

/-- The array spells the string: its characters, and a `0` after them. -/
structure Spells (b s : List α) : Prop where
  clean : (0 : α) ∉ s
  eq : ∃ rest, b = s ++ 0 :: rest

namespace Spells

theorem length_lt (h : Spells b s) : s.length < b.length := by
  obtain ⟨rest, rfl⟩ := h.eq
  rw [List.length_append, List.length_cons]
  omega

theorem take (h : Spells b s) : b.take s.length = s := by
  obtain ⟨rest, rfl⟩ := h.eq
  exact List.take_left

theorem getElem?_length (h : Spells b s) : b[s.length]? = some 0 := by
  obtain ⟨rest, rfl⟩ := h.eq
  rw [List.getElem?_append_right (Nat.le_refl _), Nat.sub_self]
  rfl

theorem getElem? (h : Spells b s) (hi : i < s.length) : b[i]? = s[i]? := by
  obtain ⟨rest, rfl⟩ := h.eq
  exact List.getElem?_append_left hi

/-- An array spells one string. -/
theorem unique (h : Spells b s) (h' : Spells b t) : s = t := by
  obtain ⟨rest, rfl⟩ := h.eq
  obtain ⟨rest', heq⟩ := h'.eq
  rcases List.append_eq_append_iff.mp heq with ⟨u, rfl, hu⟩ | ⟨u, rfl, hu⟩
  · cases u with
    | nil => rw [List.append_nil]
    | cons c u =>
        rw [List.cons_append, List.cons.injEq] at hu
        exact absurd (List.mem_append_right s (hu.1 ▸ List.mem_cons_self)) h'.clean
  · cases u with
    | nil => rw [List.append_nil]
    | cons c u =>
        rw [List.cons_append, List.cons.injEq] at hu
        exact absurd (List.mem_append_right t (hu.1 ▸ List.mem_cons_self)) h.clean

end Spells

/-- A string and its `0` written after the first `i` elements. -/
theorem spells_splice (hb : (0 : α) ∉ b.take i) (hs : (0 : α) ∉ s) :
    Spells (splice b i (s ++ [0])) (b.take i ++ s) where
  clean hmem := (List.mem_append.mp hmem).elim hb hs
  eq := ⟨b.drop (i + (s ++ [0]).length), by
    simp only [splice, List.append_assoc, List.singleton_append]⟩

/-- The string of an array: what stands before the first `0`. -/
def text [DecidableEq α] (b : List α) : List α := b.takeWhile (· ≠ 0)

theorem spells_text [DecidableEq α] (h : (0 : α) ∈ b) : Spells b (text b) where
  clean hmem := by simpa using List.mem_takeWhile_imp hmem
  eq := by
    induction b with
    | nil => exact absurd h List.not_mem_nil
    | cons c b ih =>
        by_cases hc : c = 0
        · subst hc
          exact ⟨b, by simp [text]⟩
        · obtain ⟨rest, hrest⟩ := ih ((List.mem_cons.mp h).resolve_left (Ne.symm hc))
          refine ⟨rest, ?_⟩
          rw [text, List.takeWhile_cons_of_pos (by simpa using hc), List.cons_append]
          exact congrArg _ hrest

theorem Spells.text_eq [DecidableEq α] (h : Spells b s) : text b = s := by
  refine (spells_text ?_).unique h
  obtain ⟨rest, rfl⟩ := h.eq
  exact List.mem_append_right s List.mem_cons_self

/-! ### Arrays that were filled with zeros -/

/-- An array of length `n` with the given elements, and zeros after them. -/
def filled (n : Nat) (s : List α) : List α := s ++ List.replicate (n - s.length) 0

theorem filled_length (h : s.length ≤ n) : (filled n s).length = n := by
  rw [filled, List.length_append, List.length_replicate]
  omega

theorem spells_filled (h : s.length < n) (hs : (0 : α) ∉ s) : Spells (filled n s) s where
  clean := hs
  eq := ⟨List.replicate (n - s.length - 1) 0, by
    rw [filled, ← List.replicate_succ, Nat.sub_add_cancel (by omega)]⟩

/-- More elements after those already there. -/
theorem storeAll_filled (h : s.length + t.length ≤ n) :
    storeAll (filled n s) s.length t = some (filled n (s ++ t)) := by
  have hlength : (filled n s).length = n := filled_length (by omega)
  rw [storeAll_of_le (by omega), splice, filled, List.take_left, ← List.drop_drop, List.drop_left,
    List.drop_replicate, filled, List.length_append, Nat.sub_sub]

/-- A string and its `0` after the elements already there. -/
theorem storeAll_filled_zero (h : s.length + t.length < n) :
    storeAll (filled n s) s.length (t ++ [0]) = some (filled n (s ++ t)) := by
  have hzero : filled n (s ++ (t ++ [0])) = filled n (s ++ t) := by
    have hlength : n - (s ++ t).length = n - (s ++ (t ++ [0])).length + 1 := by
      simp only [List.length_append, List.length_singleton]
      omega
    rw [filled, filled, hlength, List.replicate_succ]
    simp only [List.append_assoc, List.singleton_append]
  rw [storeAll_filled (by rw [List.length_append, List.length_singleton]; omega), hzero]

end Strings

end DemosOS.Lib.Buffer
