import Mathlib.Algebra.Order.Group.Nat
import Mathlib.Data.Nat.ModEq
import Mathlib.Tactic.Ring

/-!
# Numbers as bytes, the lowest byte first

`fromBytes f n` is the number whose bytes are `f 0`, ..., `f (n - 1)`, and `toBytes v` lists the
bytes of a number.
-/

namespace DemosOS.Lib

/-- The number that is spelt by `n` bytes. -/
def fromBytes (f : Nat → UInt8) : Nat → Nat
  | 0 => 0
  | n + 1 => (f 0).toNat + 256 * fromBytes (fun i ↦ f (i + 1)) n

/-- Byte `i` of a number. -/
def toBytes (v i : Nat) : UInt8 := UInt8.ofNat (v / 256 ^ i)

variable {f f' : Nat → UInt8} {v n : Nat}

theorem fromBytes_congr (h : ∀ i < n, f i = f' i) : fromBytes f n = fromBytes f' n := by
  induction n generalizing f f' with
  | zero => rfl
  | succ n ih =>
      rw [fromBytes, fromBytes, h 0 n.succ_pos, ih fun i hi ↦ h (i + 1) (Nat.succ_lt_succ hi)]

theorem fromBytes_lt (f : Nat → UInt8) (n : Nat) : fromBytes f n < 256 ^ n := by
  induction n generalizing f with
  | zero => exact Nat.one_pos
  | succ n ih =>
      have hbyte : (f 0).toNat < 256 := (f 0).toNat_lt
      have hrest := ih fun i ↦ f (i + 1)
      rw [fromBytes, Nat.pow_succ]
      omega

/-- What is written is read back, as far as there is room. -/
theorem fromBytes_toBytes (v n : Nat) : fromBytes (toBytes v) n = v % 256 ^ n := by
  induction n generalizing v with
  | zero => rw [Nat.pow_zero, Nat.mod_one]; rfl
  | succ n ih =>
      have htail : (fun i ↦ toBytes v (i + 1)) = toBytes (v / 256) := by
        funext i
        rw [toBytes, toBytes, Nat.div_div_eq_div_mul, Nat.pow_succ']
      have hhead : (toBytes v 0).toNat = v % 256 := by
        rw [toBytes, Nat.pow_zero, Nat.div_one, UInt8.toNat_ofNat']
      rw [fromBytes, htail, hhead, ih, Nat.pow_succ', Nat.mod_mul]

end DemosOS.Lib
