import DemosOS.Lib.LittleEndian

/-!
# Blocks of bytes

A block has a fixed number of bytes, in which numbers are stored, the lowest byte first.  A block can
be part of a bigger one.
-/

namespace DemosOS.Lib

/-- A block of `m` bytes. -/
abbrev Block (m : Nat) := Fin m → UInt8

namespace Block

variable {m : Nat}

/-- A byte, by its offset. -/
def byte (s : Block m) (p : Nat) : UInt8 := if h : p < m then s ⟨p, h⟩ else 0

/-- `n` bytes from `i` on are overwritten. -/
def patch (s : Block m) (i n : Nat) (f : Nat → UInt8) : Block m := fun p ↦
  if i ≤ p.val ∧ p.val < i + n then f (p.val - i) else s p

/-- A field of `n` bytes. -/
def field (s : Block m) (i n : Nat) : Nat := fromBytes (fun j ↦ s.byte (i + j)) n

def setField (s : Block m) (i n v : Nat) : Block m := s.patch i n (toBytes v)

/-- The block of `n` bytes from `i` on. -/
def sub (s : Block m) (i n : Nat) : Block n := fun j ↦ s.byte (i + j)

/-- The block from `i` on is overwritten. -/
def setSub {n : Nat} (s : Block m) (i : Nat) (b : Block n) : Block m := s.patch i n b.byte

variable {s t : Block m} {i j n k p v : Nat} {f f' : Nat → UInt8} {b : Block n}

theorem byte_of_lt (h : p < m) : s.byte p = s ⟨p, h⟩ := dif_pos h

theorem ext_byte (h : ∀ p < m, s.byte p = t.byte p) : s = t := by
  funext ⟨p, hp⟩
  have hbyte := h p hp
  rwa [byte_of_lt hp, byte_of_lt hp] at hbyte

theorem byte_patch (h : i + n ≤ m) :
    (s.patch i n f).byte p = if i ≤ p ∧ p < i + n then f (p - i) else s.byte p := by
  unfold byte patch
  by_cases hp : p < m
  · rw [dif_pos hp, dif_pos hp]
  · rw [dif_neg hp, dif_neg hp, if_neg (by omega)]

theorem byte_patch_of_mem (h : i + n ≤ m) (hj : j < n) : (s.patch i n f).byte (i + j) = f j := by
  rw [byte_patch h, if_pos ⟨by omega, by omega⟩, Nat.add_sub_cancel_left]

theorem byte_patch_of_notMem (hp : p < i ∨ i + n ≤ p) : (s.patch i n f).byte p = s.byte p := by
  unfold byte patch
  by_cases hlt : p < m
  · rw [dif_pos hlt, dif_pos hlt]
    exact if_neg (by simp only; omega)
  · rw [dif_neg hlt, dif_neg hlt]

/-! ## Fields -/

/-- A field that has been written. -/
theorem field_setField (h : i + n ≤ m) : (s.setField i n v).field i n = v % 256 ^ n := by
  rw [← fromBytes_toBytes v n]
  exact fromBytes_congr fun j hj ↦ byte_patch_of_mem h hj

/-- A field beside the one that has been written. -/
theorem field_setField_of_disjoint (h : j + k ≤ i ∨ i + n ≤ j) :
    (s.setField i n v).field j k = s.field j k :=
  fromBytes_congr fun l hl ↦ byte_patch_of_notMem (by omega)

/-- A byte that has been written as a field. -/
theorem byte_setField_one {c : UInt8} (h : i < m) : (s.setField i 1 c.toNat).byte i = c := by
  have hbyte := byte_patch_of_mem (s := s) (f := toBytes c.toNat) (j := 0) h Nat.one_pos
  rw [Nat.add_zero] at hbyte
  rw [setField, hbyte, toBytes, Nat.pow_zero, Nat.div_one, UInt8.ofNat_toNat]

theorem byte_setField_of_notMem (hp : p < i ∨ i + n ≤ p) : (s.setField i n v).byte p = s.byte p :=
  byte_patch_of_notMem hp

theorem field_lt (s : Block m) (i n : Nat) : s.field i n < 256 ^ n := fromBytes_lt _ _

/-! ## A block in a block -/

theorem byte_sub (h : j < n) : (s.sub i n).byte j = s.byte (i + j) := byte_of_lt h

theorem sub_congr (h : ∀ j < n, s.byte (i + j) = t.byte (i + j)) : s.sub i n = t.sub i n := by
  funext j
  exact h j j.isLt

theorem sub_setSub (h : i + n ≤ m) : (s.setSub i b).sub i n = b := by
  refine ext_byte fun j hj ↦ ?_
  rw [byte_sub hj]
  exact byte_patch_of_mem h hj

theorem sub_setSub_of_disjoint (h : j + k ≤ i ∨ i + n ≤ j) : (s.setSub i b).sub j k = s.sub j k :=
  sub_congr fun l hl ↦ byte_patch_of_notMem (by omega)

end Block

end DemosOS.Lib
