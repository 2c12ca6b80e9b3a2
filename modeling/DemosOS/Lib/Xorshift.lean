import Mathlib.Data.FinEnum

/-!
# Shift-xor rounds

A round of an xorshift generator adds to a word, bit by bit and modulo two, a shift of the word.
The shift takes the lowest (or highest) bit that is set away from its place, so a round maps only
zero to zero; as it is additive, it maps different words to different words.
-/

namespace DemosOS.Lib

variable {w : Nat}

/-- The round `x ^= x << k`. -/
def xorLeft (k : Nat) (x : BitVec w) : BitVec w := x ^^^ (x <<< k)

/-- The round `x ^= x >> k`. -/
def xorRight (k : Nat) (x : BitVec w) : BitVec w := x ^^^ (x >>> k)

section

variable {k : Nat}

theorem xorLeft_xor (x y : BitVec w) : xorLeft k (x ^^^ y) = xorLeft k x ^^^ xorLeft k y := by
  unfold xorLeft
  rw [BitVec.shiftLeft_xor_distrib]
  ac_rfl

theorem xorRight_xor (x y : BitVec w) : xorRight k (x ^^^ y) = xorRight k x ^^^ xorRight k y := by
  unfold xorRight
  rw [BitVec.ushiftRight_xor_distrib]
  ac_rfl

variable (hk : 0 < k)
include hk

/-- A word that is its own shift has no lowest bit. -/
theorem xorLeft_eq_zero {x : BitVec w} (h : xorLeft k x = 0#w) : x = 0#w := by
  have hself : x = x <<< k := BitVec.xor_eq_zero_iff.mp h
  apply BitVec.eq_of_getLsbD_eq
  intro i hi
  rw [BitVec.getLsbD_zero]
  induction i using Nat.strong_induction_on with
  | _ i ih =>
      rw [hself, BitVec.getLsbD_shiftLeft]
      by_cases hik : i < k
      · simp [hik]
      · rw [ih (i - k) (by omega) (by omega), Bool.and_false]

/-- A word that is its own shift has no highest bit. -/
theorem xorRight_eq_zero {x : BitVec w} (h : xorRight k x = 0#w) : x = 0#w := by
  have hself : x = x >>> k := BitVec.xor_eq_zero_iff.mp h
  apply BitVec.eq_of_getLsbD_eq
  intro i hi
  rw [BitVec.getLsbD_zero]
  -- by induction on the distance from the width
  induction hd : w - i using Nat.strong_induction_on generalizing i with
  | _ d ih =>
      rw [hself, BitVec.getLsbD_ushiftRight]
      by_cases hki : k + i < w
      · exact ih (w - (k + i)) (by omega) (k + i) hki rfl
      · exact BitVec.getLsbD_of_ge x (k + i) (by omega)

theorem xorLeft_injective : Function.Injective (xorLeft (w := w) k) := by
  intro x y h
  apply BitVec.xor_eq_zero_iff.mp
  apply xorLeft_eq_zero hk
  rw [xorLeft_xor, h, BitVec.xor_self]

theorem xorRight_injective : Function.Injective (xorRight (w := w) k) := by
  intro x y h
  apply BitVec.xor_eq_zero_iff.mp
  apply xorRight_eq_zero hk
  rw [xorRight_xor, h, BitVec.xor_self]

end

/-- The step of an xorshift generator with the shifts `a`, `b` and `c`. -/
def xorshift (a b c : Nat) (x : BitVec w) : BitVec w := xorLeft c (xorRight b (xorLeft a x))

theorem xorshift_zero (a b c : Nat) : xorshift a b c 0#w = 0#w := by
  simp [xorshift, xorLeft, xorRight]

section

variable {a b c : Nat} (ha : 0 < a) (hb : 0 < b) (hc : 0 < c)
include ha hb hc

theorem xorshift_injective : Function.Injective (xorshift (w := w) a b c) :=
  (xorLeft_injective hc).comp ((xorRight_injective hb).comp (xorLeft_injective ha))

theorem xorshift_bijective : Function.Bijective (xorshift (w := w) a b c) :=
  Finite.injective_iff_bijective.mp (xorshift_injective ha hb hc)

/-- The generator stays away from zero. -/
theorem xorshift_ne_zero {x : BitVec w} (hx : x ≠ 0#w) : xorshift a b c x ≠ 0#w := by
  intro h
  apply hx
  apply xorshift_injective ha hb hc
  rw [h, xorshift_zero]

end

end DemosOS.Lib
