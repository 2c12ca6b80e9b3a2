import Mathlib.Data.List.Basic
import Mathlib.Tactic.Ring

/-!
# A list with a position in it

What a file is to its user: a sequence of items that is read and written at a position, and grows when
the position comes to its end.  A write behind the end leaves a gap, and nothing is said of what is
in it.
-/

namespace DemosOS.Lib

universe u

structure Stream (α : Type u) where
  contents : List α
  pos : Nat

namespace Stream

variable {α : Type u} {s s' s'' : Stream α} {src src' : List α} {m n : Nat}

/-- What a read of `n` items delivers. -/
def ahead (s : Stream α) (n : Nat) : List α := (s.contents.drop s.pos).take n

/-- The stream after a read of `n` items. -/
def advance (s : Stream α) (n : Nat) : Stream α := { s with pos := s.pos + (s.ahead n).length }

/-- The items have been written at the position. -/
structure Writes (s : Stream α) (src : List α) (s' : Stream α) : Prop where
  pos : s'.pos = s.pos + src.length
  length : s'.contents.length = max s.contents.length s'.pos
  written : ∀ i < src.length, s'.contents[s.pos + i]? = src[i]?
  kept : ∀ p < s.contents.length, p < s.pos ∨ s.pos + src.length ≤ p →
    s'.contents[p]? = s.contents[p]?

/-- What has been written is read. -/
theorem Writes.ahead (h : s.Writes src s') : ({ s' with pos := s.pos }).ahead src.length = src := by
  refine List.ext_getElem? fun i ↦ ?_
  unfold Stream.ahead
  by_cases hi : i < src.length
  · rw [List.getElem?_take_of_lt hi, List.getElem?_drop]
    exact h.written i hi
  · rw [List.getElem?_eq_none (Nat.le_of_not_lt hi), List.getElem?_eq_none]
    exact (List.length_take_le _ _).trans (Nat.le_of_not_lt hi)

/-- Two writes one after the other are one. -/
theorem Writes.trans (h : s.Writes src s') (h' : s'.Writes src' s'') :
    s.Writes (src ++ src') s'' where
  pos := by
    rw [h'.pos, h.pos, List.length_append, Nat.add_assoc]
  length := by
    have hlength := h.length
    have hlength' := h'.length
    have hpos := h'.pos
    omega
  written i hi := by
    have hpos := h.pos
    by_cases hlt : i < src.length
    · have hlength := h.length
      rw [List.getElem?_append_left hlt, h'.kept _ (by omega) (Or.inl (by omega))]
      exact h.written i hlt
    · rw [List.length_append] at hi
      rw [List.getElem?_append_right (Nat.le_of_not_lt hlt),
        ← h'.written (i - src.length) (by omega)]
      congr 1
      omega
  kept p hp hout := by
    have hpos := h.pos
    have hlength := h.length
    rw [List.length_append] at hout
    rw [h'.kept p (by omega) (by omega)]
    exact h.kept p hp (by omega)

end Stream

end DemosOS.Lib
