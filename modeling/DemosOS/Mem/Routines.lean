import DemosOS.Kernel.Assembly
import DemosOS.Kernel.Memory

/-!
# What the memory routines write

`memset` writes the bytes it is asked for, and `memcmp` none.  The loops of `memzero` and `memcpy`
test their counter at the bottom, so they always store once, and `memzero` stores eight bytes at a
time.
-/

namespace DemosOS

open Lib.A64

/-! ## memzero -/

/-- How many times `memzero` stores. -/
def zeroRounds (n : Nat) : Nat := (n - 1) / 8 + 1

/-- `memzero` at the head of its loop, or behind it, after `i` rounds. -/
structure Clearing (s : State) (i : Nat) (s' : State) : Prop where
  pc : s'.pc = some (if i < zeroRounds (s.reg 1).toNat then 0 else 3)
  base : s'.reg 0 = s.reg 0 + BitVec.ofNat 64 (8 * i)
  count : i < zeroRounds (s.reg 1).toNat → s'.reg 1 = BitVec.ofNat 64 ((s.reg 1).toNat - 8 * i)
  mem : s'.mem = fill s.mem (s.reg 0) (8 * i) fun _ ↦ 0

namespace Clearing

variable {s s' : State} {i : Nat}

theorem round (hn : (s.reg 1).toNat < 2 ^ 63) (hi : i < zeroRounds (s.reg 1).toNat)
    (h : Clearing s i s') : memoryS.Runs s' (Clearing s (i + 1)) := by
  have hpc := h.pc
  rw [if_pos hi] at hpc
  have hmem : fill s'.mem (s'.reg 0) 8 (fun _ ↦ 0) =
      fill s.mem (s.reg 0) (8 * (i + 1)) fun _ ↦ 0 := by
    rw [h.mem, h.base]
    exact fill_fill (v := fun _ ↦ 0) (by unfold zeroRounds at hi; omega)
  have hbase : s'.reg 0 + 8#64 = s.reg 0 + BitVec.ofNat 64 (8 * (i + 1)) := by
    rw [h.base]
    exact add_ofNat_add _ _ 8
  have hgt : (Flags.ofSubs (s'.reg 1) 8#64 .x).gt =
      decide (i + 1 < zeroRounds (s.reg 1).toNat) := by
    rw [h.count hi, Flags.gt_ofSubs_x (by omega) (by omega), decide_eq_decide]
    unfold zeroRounds at hi ⊢
    omega
  refine .instr hpc rfl rfl ?_
  refine .instr (show _ = some 1 by simp [hpc]) rfl rfl ?_
  refine .branch (show _ = some 2 by simp [hpc]) rfl rfl rfl ?_ ?_
  · intro htaken
    have hnext : i + 1 < zeroRounds (s.reg 1).toNat := by
      simpa using hgt.symm.trans htaken
    refine .done ⟨?_, ?_, fun _ ↦ ?_, ?_⟩
    · simp [hnext]
    · simpa using hbase
    · have hle : 8 ≤ (s.reg 1).toNat - 8 * i := by
        unfold zeroRounds at hnext
        omega
      simp only [State.goto_reg, State.next_reg, State.compare_reg, State.set_reg, if_true,
        Width.trunc_x, State.advance_reg, State.value, State.store_reg]
      rw [if_neg (by decide), h.count hi, BitVec.ofNat_sub_ofNat_of_le _ _ (by decide) hle]
      congr 1
    · simpa using hmem
  · intro hdone
    have hlast : ¬ i + 1 < zeroRounds (s.reg 1).toNat := by
      simpa using hgt.symm.trans hdone
    refine .done ⟨?_, ?_, fun hnext ↦ absurd hnext hlast, ?_⟩
    · simp [hpc, hlast]
    · simpa using hbase
    · simpa using hmem

end Clearing

/-- `memzero` clears whole words, and at least one. -/
theorem memzero_spec (s : State) (hn : (s.reg 1).toNat < 2 ^ 63) :
    memoryS.Returns (call .memzero s) fun s' ↦
      s'.mem = fill s.mem (s.reg 0) (8 * zeroRounds (s.reg 1).toNat) fun _ ↦ 0 := by
  have hstart : Clearing s 0 (call .memzero s) := by
    refine ⟨?_, ?_, fun _ ↦ ?_, rfl⟩
    · have hpos : 0 < zeroRounds (s.reg 1).toNat := Nat.succ_pos _
      rw [if_pos hpos]
      rfl
    · exact (BitVec.add_zero _).symm
    · rw [Nat.mul_zero, Nat.sub_zero, BitVec.ofNat_toNat, BitVec.setWidth_eq]
      rfl
  refine (Text.Runs.loop (fun i hi s' h ↦ h.round hn hi) hstart).bind fun s' h ↦ ?_
  have hpc := h.pc
  rw [if_neg (Nat.lt_irrefl _)] at hpc
  exact .instr hpc rfl rfl (.done ⟨rfl, h.mem⟩)

/-- A call of `memzero` clears the bytes it is asked to clear, and changes no other. -/
def Clears (s : State) : Prop :=
  memoryS.Returns (call .memzero s) fun s' ↦
    s'.mem = fill s.mem (s.reg 0) (s.reg 1).toNat fun _ ↦ 0

/-- The length is rounded up to a multiple of eight, but not to zero. -/
theorem zeroRounds_eq (n : Nat) : 8 * zeroRounds n = max 8 ((n + 7) / 8 * 8) := by
  unfold zeroRounds
  omega

theorem clears_iff {s : State} (hn : (s.reg 1).toNat < 2 ^ 31) :
    Clears s ↔ ∀ i, (s.reg 1).toNat ≤ i → i < max 8 (((s.reg 1).toNat + 7) / 8 * 8) →
      s.mem (s.reg 0 + BitVec.ofNat 64 i) = 0 := by
  have hspec := memzero_spec s (by omega)
  rw [zeroRounds_eq] at hspec
  rw [← fill_eq_fill_iff (v := fun _ ↦ 0) (by omega) (by omega)]
  constructor
  · intro h
    obtain ⟨-, s', -, -, hwide, hexact⟩ := hspec.and h
    exact hwide.symm.trans hexact
  · intro h
    rw [h] at hspec
    exact hspec

/-- A positive multiple of eight is cleared exactly. -/
theorem clears_of_dvd {s : State} (hn : (s.reg 1).toNat < 2 ^ 31) (hpos : 0 < (s.reg 1).toNat)
    (hdvd : 8 ∣ (s.reg 1).toNat) : Clears s := by
  refine (clears_iff hn).mpr fun i hle hlt ↦ ?_
  omega

/-! ## memcpy -/

/-- How many bytes `memcpy` copies. -/
def copyRounds (n : Nat) : Nat := max n 1

/-- The source and the destination of a call of `memcpy` have no byte in common. -/
def Apart (s : State) : Prop :=
  ∀ i < (s.reg 2).toNat, ∀ j < (s.reg 2).toNat,
    s.reg 0 + BitVec.ofNat 64 i ≠ s.reg 1 + BitVec.ofNat 64 j

/-- `memcpy` at the head of its loop, or behind it, after `i` rounds. -/
structure Copying (s : State) (i : Nat) (s' : State) : Prop where
  pc : s'.pc = some (if i < copyRounds (s.reg 2).toNat then 4 else 8)
  dest : s'.reg 0 = s.reg 0 + BitVec.ofNat 64 i
  src : s'.reg 1 = s.reg 1 + BitVec.ofNat 64 i
  count : i < copyRounds (s.reg 2).toNat → s'.reg 2 = BitVec.ofNat 64 ((s.reg 2).toNat - i)
  mem : s'.mem = fill s.mem (s.reg 0) i fun j ↦ s.mem (s.reg 1 + BitVec.ofNat 64 j)

namespace Copying

variable {s s' : State} {i : Nat}

/-- The byte that is loaded has not been overwritten. -/
theorem loaded (hapart : Apart s) (hi : i < copyRounds (s.reg 2).toNat) (h : Copying s i s') :
    s'.mem (s'.reg 1) = s.mem (s.reg 1 + BitVec.ofNat 64 i) := by
  rw [h.mem, h.src]
  refine fill_of_ne fun j hj ↦ hapart j ?_ i ?_
  · unfold copyRounds at hi
    omega
  · unfold copyRounds at hi
    omega

theorem round (hn : (s.reg 2).toNat < 2 ^ 31) (hapart : Apart s)
    (hi : i < copyRounds (s.reg 2).toNat) (h : Copying s i s') :
    memoryS.Runs s' (Copying s (i + 1)) := by
  have hpc := h.pc
  rw [if_pos hi] at hpc
  have hmem : fill s'.mem (s'.reg 0) 1 (fun _ ↦ s'.mem (s'.reg 1)) =
      fill s.mem (s.reg 0) (i + 1) fun j ↦ s.mem (s.reg 1 + BitVec.ofNat 64 j) := by
    rw [h.loaded hapart hi, h.mem, h.dest]
    have hroom : i + 1 ≤ 2 ^ 64 := by
      unfold copyRounds at hi
      omega
    rw [← fill_fill hroom]
    refine fill_congr fun j hj ↦ ?_
    rw [Nat.lt_one_iff.mp hj]
    rfl
  have hgt : (Flags.ofSubs (s'.reg 2) 1#64 .w).gt =
      decide (i + 1 < copyRounds (s.reg 2).toNat) := by
    rw [h.count hi, Flags.gt_ofSubs_w (by omega) (by omega), decide_eq_decide]
    unfold copyRounds at hi ⊢
    omega
  refine .instr hpc rfl rfl ?_
  refine .instr (show _ = some 5 by simp [hpc]) rfl rfl ?_
  refine .instr (show _ = some 6 by simp [hpc]) rfl rfl ?_
  refine .branch (show _ = some 7 by simp [hpc]) rfl rfl rfl ?_ ?_
  · intro htaken
    have hnext : i + 1 < copyRounds (s.reg 2).toNat := by
      simpa using hgt.symm.trans htaken
    refine .done ⟨?_, ?_, ?_, fun _ ↦ ?_, ?_⟩
    · simp [hnext]
    · simpa [h.dest] using add_ofNat_add _ i 1
    · simpa [h.src] using add_ofNat_add _ i 1
    · have hle : 1 ≤ (s.reg 2).toNat - i := by
        unfold copyRounds at hnext
        omega
      have hcount : (s.reg 2).toNat - (i + 1) < 2 ^ 32 := by omega
      simp only [State.goto_reg, State.next_reg, State.compare_reg, State.set_reg, if_true,
        State.advance_reg, State.value, State.store_reg]
      rw [if_neg (by decide), if_neg (by decide), if_neg (by decide), h.count hi,
        BitVec.ofNat_sub_ofNat_of_le _ _ (by decide) hle, Nat.sub_sub, Width.trunc,
        BitVec.setWidth_ofNat_of_le (by decide),
        BitVec.setWidth_ofNat_of_le_of_lt (by decide) hcount]
    · simpa using hmem
  · intro hdone
    have hlast : ¬ i + 1 < copyRounds (s.reg 2).toNat := by
      simpa using hgt.symm.trans hdone
    refine .done ⟨?_, ?_, ?_, fun hnext ↦ absurd hnext hlast, ?_⟩
    · simp [hpc, hlast]
    · simpa [h.dest] using add_ofNat_add _ i 1
    · simpa [h.src] using add_ofNat_add _ i 1
    · simpa using hmem

end Copying

/-- `memcpy` copies at least one byte. -/
theorem memcpy_spec (s : State) (hn : (s.reg 2).toNat < 2 ^ 31) (hapart : Apart s) :
    memoryS.Returns (call .memcpy s) fun s' ↦
      s'.mem = fill s.mem (s.reg 0) (copyRounds (s.reg 2).toNat) fun i ↦
        s.mem (s.reg 1 + BitVec.ofNat 64 i) := by
  have hstart : Copying s 0 (call .memcpy s) := by
    refine ⟨?_, ?_, ?_, fun _ ↦ ?_, rfl⟩
    · have hpos : 0 < copyRounds (s.reg 2).toNat := lt_max_of_lt_right Nat.one_pos
      rw [if_pos hpos]
      rfl
    · exact (BitVec.add_zero _).symm
    · exact (BitVec.add_zero _).symm
    · rw [Nat.sub_zero, BitVec.ofNat_toNat, BitVec.setWidth_eq]
      rfl
  refine (Text.Runs.loop (fun i hi s' h ↦ h.round hn hapart hi) hstart).bind fun s' h ↦ ?_
  have hpc := h.pc
  rw [if_neg (Nat.lt_irrefl _)] at hpc
  exact .instr hpc rfl rfl (.done ⟨rfl, h.mem⟩)

theorem le_copyRounds (n : Nat) : n ≤ copyRounds n := le_max_left _ _

/-- A call of `memcpy` copies the bytes it is asked to copy, and changes no other. -/
def Copies (s : State) : Prop :=
  memoryS.Returns (call .memcpy s) fun s' ↦
    s'.mem = fill s.mem (s.reg 0) (s.reg 2).toNat fun i ↦ s.mem (s.reg 1 + BitVec.ofNat 64 i)

theorem copies_iff {s : State} (hn : (s.reg 2).toNat < 2 ^ 31) (hapart : Apart s) :
    Copies s ↔ ((s.reg 2).toNat = 0 → s.mem (s.reg 0) = s.mem (s.reg 1)) := by
  have hspec := memcpy_spec s hn hapart
  have hroom : copyRounds (s.reg 2).toNat ≤ 2 ^ 64 := by
    unfold copyRounds
    omega
  have hextra : (∀ i, (s.reg 2).toNat ≤ i → i < copyRounds (s.reg 2).toNat →
      s.mem (s.reg 0 + BitVec.ofNat 64 i) = s.mem (s.reg 1 + BitVec.ofNat 64 i)) ↔
      ((s.reg 2).toNat = 0 → s.mem (s.reg 0) = s.mem (s.reg 1)) := by
    unfold copyRounds
    constructor
    · intro h hzero
      simpa using h 0 (by omega) (by omega)
    · intro h i hle hlt
      obtain rfl : i = 0 := by omega
      simpa using h (by omega)
  rw [← hextra, ← fill_eq_fill_iff (v := fun i ↦ s.mem (s.reg 1 + BitVec.ofNat 64 i))
    (le_copyRounds _) hroom]
  constructor
  · intro h
    obtain ⟨-, s', -, -, hone, hexact⟩ := hspec.and h
    exact hone.symm.trans hexact
  · intro h
    rw [h] at hspec
    exact hspec

/-! ## Both of them -/

/-- Both routines write what they are asked to, and nothing else, exactly when the bytes they write
beyond hold the right values already. -/
theorem memory_exact_iff (s : State) :
    ((s.reg 1).toNat < 2 ^ 31 → (Clears s ↔ ∀ i, (s.reg 1).toNat ≤ i →
      i < max 8 (((s.reg 1).toNat + 7) / 8 * 8) → s.mem (s.reg 0 + BitVec.ofNat 64 i) = 0)) ∧
    ((s.reg 2).toNat < 2 ^ 31 → Apart s →
      (Copies s ↔ ((s.reg 2).toNat = 0 → s.mem (s.reg 0) = s.mem (s.reg 1)))) :=
  ⟨clears_iff, copies_iff⟩

/-- A call with these arguments, where every byte holds the last byte of its address. -/
def numbered (x₀ x₁ x₂ : BitVec 64) : State where
  reg r := if r = 0 then x₀ else if r = 1 then x₁ else if r = 2 then x₂ else 0
  flags := ⟨false, false, false, false⟩
  mem a := a.setWidth 8
  pc := none

theorem memory_exact_numbered :
    Clears (numbered 0x1000 16 1) ∧ Copies (numbered 0x1000 16 1) := by
  obtain ⟨hzero, hcopy⟩ := memory_exact_iff (numbered 0x1000 16 1)
  have hapart : Apart (numbered 0x1000 16 1) := by
    unfold Apart
    decide
  refine ⟨(hzero (by decide)).mpr ?_, (hcopy (by decide) hapart).mpr (by decide)⟩
  intro i hle hlt
  exact absurd hlt (Nat.not_lt.mpr hle)

/-- Five bytes are cleared as eight, and no byte is copied as one. -/
theorem memory_not_exact :
    ¬ Clears (numbered 0x1000 5 0) ∧ ¬ Copies (numbered 0x1000 0x2001 0) := by
  constructor
  · intro h
    have hbyte := (clears_iff (by decide)).mp h 5 (by decide) (by decide)
    exact absurd hbyte (by decide)
  · intro h
    have hapart : Apart (numbered 0x1000 0x2001 0) := fun i hi ↦ absurd hi (Nat.not_lt_zero i)
    exact absurd ((copies_iff (by decide) hapart).mp h rfl) (by decide)

/-! ## Pages -/

/-- The machine holds the bytes of physical memory, `VA_START` higher. -/
def Mirrors (m : Memory) (mem : Lib.A64.Memory) : Prop :=
  ∀ x, x + VA_START < 2 ^ 64 → mem (BitVec.ofNat 64 (x + VA_START)) = (m.bytes x).toBitVec

theorem fill_ofNat {mem : Lib.A64.Memory} {a b n : Nat} {v : Nat → BitVec 8} (ha : a < 2 ^ 64)
    (hb : b + n ≤ 2 ^ 64) : fill mem (BitVec.ofNat 64 b) n v (BitVec.ofNat 64 a) =
      if b ≤ a ∧ a < b + n then v (a - b) else mem (BitVec.ofNat 64 a) := by
  by_cases hle : b ≤ a
  · have hsub : (BitVec.ofNat 64 a - BitVec.ofNat 64 b).toNat = a - b := by
      rw [BitVec.ofNat_sub_ofNat_of_le _ _ (by omega) hle, BitVec.toNat_ofNat,
        Nat.mod_eq_of_lt (by omega)]
    have hlt : a - b < n ↔ b ≤ a ∧ a < b + n := by omega
    rw [fill, hsub]
    simp only [hlt]
  · refine (fill_of_ne fun i hi heq ↦ hle ?_).trans (if_neg fun h ↦ hle h.1).symm
    rw [← BitVec.ofNat_add, ← BitVec.toNat_inj, BitVec.toNat_ofNat, BitVec.toNat_ofNat,
      Nat.mod_eq_of_lt (by omega), Nat.mod_eq_of_lt ha] at heq
    omega

namespace Mirrors

variable {m : Memory} {s : State}

/-- `memzero` clears a page of the kernel. -/
theorem clear {page : Nat} (h : Mirrors m s.mem)
    (hpage : s.reg 0 = BitVec.ofNat 64 (page + VA_START))
    (hsize : s.reg 1 = BitVec.ofNat 64 PAGE_SIZE) (hend : page + VA_START + PAGE_SIZE ≤ 2 ^ 64) :
    memoryS.Returns (call .memzero s) fun s' ↦ Mirrors (m.clear page) s'.mem := by
  have hn : (s.reg 1).toNat = PAGE_SIZE := by
    rw [hsize]
    rfl
  have hclears : Clears s := clears_of_dvd (by rw [hn]; decide) (by rw [hn]; decide)
    (by rw [hn]; decide)
  refine hclears.bind fun s' h' ↦ .done ⟨h'.1, fun x hx ↦ ?_⟩
  rw [h'.2, hn, hpage, fill_ofNat hx hend, h x hx, Memory.clear]
  have hrange : page + VA_START ≤ x + VA_START ∧ x + VA_START < page + VA_START + PAGE_SIZE ↔
      page ≤ x ∧ x < page + PAGE_SIZE := by omega
  simp only [hrange]
  split_ifs
  · rfl
  · rfl

/-- `memcpy` copies bytes that do not overlap. -/
theorem memcpy {destination source count : Nat} (h : Mirrors m s.mem)
    (hdest : s.reg 0 = BitVec.ofNat 64 (destination + VA_START))
    (hsource : s.reg 1 = BitVec.ofNat 64 (source + VA_START))
    (hcount : s.reg 2 = BitVec.ofNat 64 count) (hpos : 0 < count) (hlt : count < 2 ^ 31)
    (hdestEnd : destination + VA_START + count ≤ 2 ^ 64)
    (hsourceEnd : source + VA_START + count ≤ 2 ^ 64)
    (hapart : destination + count ≤ source ∨ source + count ≤ destination) :
    memoryS.Returns (call .memcpy s) fun s' ↦
      Mirrors (m.memcpy destination source count) s'.mem := by
  have hn : (s.reg 2).toNat = count := by
    rw [hcount, BitVec.toNat_ofNat, Nat.mod_eq_of_lt (by omega)]
  have hapart : Apart s := by
    intro i hi j hj heq
    rw [hdest, hsource, ← BitVec.ofNat_add, ← BitVec.ofNat_add, ← BitVec.toNat_inj,
      BitVec.toNat_ofNat, BitVec.toNat_ofNat, Nat.mod_eq_of_lt (by omega),
      Nat.mod_eq_of_lt (by omega)] at heq
    omega
  have hcopies : Copies s := (copies_iff (by omega) hapart).mpr fun hzero ↦ by omega
  refine hcopies.bind fun s' h' ↦ .done ⟨h'.1, fun x hx ↦ ?_⟩
  rw [h'.2, hn, hdest, fill_ofNat hx hdestEnd, h x hx, Memory.memcpy]
  have hrange : destination + VA_START ≤ x + VA_START ∧
      x + VA_START < destination + VA_START + count ↔
        destination ≤ x ∧ x < destination + count := by omega
  simp only [hrange]
  split_ifs with hx'
  · have hindex : source + VA_START + (x + VA_START - (destination + VA_START)) =
        source + (x - destination) + VA_START := by omega
    rw [hsource, ← BitVec.ofNat_add, hindex]
    exact h (source + (x - destination)) (by omega)
  · rfl

end Mirrors

/-! ## memcmp -/

/-- What a routine returns as an `int`. -/
def intResult (s : State) : Int := ((s.reg 0).setWidth 32).toInt

/-- The two blocks agree in their byte number `i`. -/
def Agree (s : State) (i : Nat) : Prop :=
  s.mem (s.reg 0 + BitVec.ofNat 64 i) = s.mem (s.reg 1 + BitVec.ofNat 64 i)

/-- `memcmp` at the head of its loop, or behind it, after `i` rounds. -/
structure Comparing (s : State) (i : Nat) (s' : State) : Prop where
  pc : s'.pc = some (if i < (s.reg 2).toNat then 10 else 16)
  left : s'.reg 0 = s.reg 0 + BitVec.ofNat 64 i
  right : s'.reg 1 = s.reg 1 + BitVec.ofNat 64 i
  count : s'.reg 2 = BitVec.ofNat 64 ((s.reg 2).toNat - i)
  mem : s'.mem = s.mem
  agree : ∀ j < i, Agree s j

/-- The difference of the bytes number `i`, as `memcmp` computes it. -/
def byteDiff (s : State) (i : Nat) : BitVec 64 :=
  Width.w.trunc ((s.mem (s.reg 0 + BitVec.ofNat 64 i)).setWidth 64 -
    (s.mem (s.reg 1 + BitVec.ofNat 64 i)).setWidth 64)

/-- `memcmp` after the subtraction in round `i`. -/
structure Subtracted (s : State) (i : Nat) (s' : State) : Prop where
  pc : s'.pc = some 13
  left : s'.reg 0 = s.reg 0 + BitVec.ofNat 64 (i + 1)
  right : s'.reg 1 = s.reg 1 + BitVec.ofNat 64 (i + 1)
  count : s'.reg 2 = BitVec.ofNat 64 ((s.reg 2).toNat - i)
  result : s'.reg 5 = byteDiff s i
  mem : s'.mem = s.mem
  agree : ∀ j < i, Agree s j

/-- `memcmp` at its exit, with the first difference in byte number `i`. -/
structure Differing (s : State) (i : Nat) (s' : State) : Prop where
  pc : s'.pc = some 22
  lt : i < (s.reg 2).toNat
  result : s'.reg 5 = byteDiff s i
  mem : s'.mem = s.mem
  agree : ∀ j < i, Agree s j
  differ : ¬ Agree s i

/-- The difference of two bytes fits an `int`. -/
theorem byteDiff_toInt (s : State) (i : Nat) : ((byteDiff s i).setWidth 32).toInt =
    ((s.mem (s.reg 0 + BitVec.ofNat 64 i)).toNat : Int) -
      (s.mem (s.reg 1 + BitVec.ofNat 64 i)).toNat := by
  have hleft := (s.mem (s.reg 0 + BitVec.ofNat 64 i)).isLt
  have hright := (s.mem (s.reg 1 + BitVec.ofNat 64 i)).isLt
  rw [byteDiff, Width.trunc, BitVec.toInt_eq_toNat_cond]
  simp only [BitVec.toNat_setWidth, BitVec.toNat_sub]
  omega

theorem byteDiff_eq_zero_iff {s : State} {i : Nat} : byteDiff s i = 0#64 ↔ Agree s i := by
  have hleft := (s.mem (s.reg 0 + BitVec.ofNat 64 i)).isLt
  have hright := (s.mem (s.reg 1 + BitVec.ofNat 64 i)).isLt
  rw [byteDiff, Width.trunc, Agree, ← BitVec.toNat_inj, ← BitVec.toNat_inj]
  simp only [BitVec.toNat_setWidth, BitVec.toNat_sub, BitVec.toNat_ofNat]
  omega

theorem Comparing.subtract {s s' : State} {i : Nat} (hi : i < (s.reg 2).toNat)
    (h : Comparing s i s') : memoryS.Runs s' (Subtracted s i) := by
  have hpc := h.pc
  rw [if_pos hi] at hpc
  refine .instr hpc rfl rfl ?_
  refine .instr (show _ = some 11 by simp [hpc]) rfl rfl ?_
  refine .instr (show _ = some 12 by simp [hpc]) rfl rfl ?_
  refine .done ⟨?_, ?_, ?_, ?_, ?_, ?_, h.agree⟩
  · simp [hpc]
  · simpa [h.left] using add_ofNat_add _ i 1
  · simpa [h.right] using add_ofNat_add _ i 1
  · simpa using h.count
  · simp [byteDiff, h.mem, h.left, h.right]
  · simpa using h.mem

/-- A round ends at the exit, at the head of the loop or behind the loop. -/
theorem Subtracted.round {s s' : State} {i : Nat} (hi : i < (s.reg 2).toNat)
    (h : Subtracted s i s') :
    memoryS.Runs s' fun s' ↦ Comparing s (i + 1) s' ∨ ∃ i, Differing s i s' := by
  have hlen := (s.reg 2).isLt
  have hcount : s'.reg 2 - 1#64 = BitVec.ofNat 64 ((s.reg 2).toNat - (i + 1)) := by
    rw [h.count, BitVec.ofNat_sub_ofNat_of_le _ _ (by decide) (by omega), Nat.sub_sub]
  have hbyte : Width.w.trunc (s'.reg 5) = 0#64 ↔ Agree s i := by
    rw [h.result, byteDiff, Width.trunc_trunc]
    exact byteDiff_eq_zero_iff
  refine .branch h.pc rfl rfl rfl ?_ ?_
  · intro htaken
    have hdiffer : ¬ Agree s i := fun h ↦ of_decide_eq_true htaken (hbyte.mpr h)
    exact .done (Or.inr ⟨i, rfl, hi, h.result, h.mem, h.agree, hdiffer⟩)
  · intro hsame
    have hagree : ∀ j < i + 1, Agree s j := by
      intro j hj
      obtain hj | rfl := Nat.lt_succ_iff_lt_or_eq.mp hj
      · exact h.agree j hj
      · exact hbyte.mp (not_not.mp (of_decide_eq_false hsame))
    have hzero : s'.reg 2 - 1#64 = 0#64 ↔ ¬ i + 1 < (s.reg 2).toNat := by
      rw [hcount, ← BitVec.toNat_inj, BitVec.toNat_ofNat, BitVec.toNat_ofNat]
      omega
    refine .instr (show _ = some 14 by simp [h.pc]) rfl rfl ?_
    refine .branch (show _ = some 15 by simp [h.pc]) rfl rfl rfl ?_ ?_
    · intro hmore
      have hnext : i + 1 < (s.reg 2).toNat := by
        rw [← not_not (a := i + 1 < _), ← hzero]
        simpa using hmore
      refine .done (Or.inl ⟨?_, ?_, ?_, ?_, ?_, hagree⟩)
      · simp [hnext]
      · simpa using h.left
      · simpa using h.right
      · simpa using hcount
      · simpa using h.mem
    · intro hend
      have hlast : ¬ i + 1 < (s.reg 2).toNat := by
        rw [← hzero]
        simpa using hend
      refine .done (Or.inl ⟨?_, ?_, ?_, ?_, ?_, hagree⟩)
      · simp [h.pc, hlast]
      · simpa using h.left
      · simpa using h.right
      · simpa using hcount
      · simpa using h.mem

/-- The exit that `memcmp` and `memset` share. -/
theorem lExit_spec {s : State} (hpc : s.pc = some 22) : memoryS.Returns s fun s' ↦
    s'.mem = s.mem ∧ intResult s' = ((s.reg 5).setWidth 32).toInt := by
  refine .instr hpc rfl rfl ?_
  refine .instr (show _ = some 23 by simp [hpc]) rfl rfl (.done ⟨rfl, rfl, ?_⟩)
  simp [intResult, Width.trunc]

theorem memcmp_loop (s : State) : memoryS.Runs (call .memcmp s) fun s' ↦
    Comparing s (s.reg 2).toNat s' ∨ ∃ i, Differing s i s' := by
  have hstart : memoryS.Runs (call .memcmp s) (Comparing s 0) := by
    have hzero : s.reg 2 = 0#64 ↔ ¬ 0 < (s.reg 2).toNat := by
      rw [← BitVec.toNat_inj, BitVec.toNat_ofNat]
      omega
    have hcount : s.reg 2 = BitVec.ofNat 64 ((s.reg 2).toNat - 0) := by
      rw [Nat.sub_zero, BitVec.ofNat_toNat, BitVec.setWidth_eq]
    have hnone : ∀ j < 0, Agree s j := fun j hj ↦ absurd hj (Nat.not_lt_zero j)
    refine .branch (show _ = some 9 from rfl) rfl rfl rfl ?_ ?_
    · intro hempty
      have hlast : ¬ 0 < (s.reg 2).toNat := hzero.mp (of_decide_eq_true hempty)
      refine .done ⟨?_, (BitVec.add_zero _).symm, (BitVec.add_zero _).symm, hcount, rfl, hnone⟩
      rw [if_neg hlast]
      rfl
    · intro hmore
      have hfirst : 0 < (s.reg 2).toNat := by
        rw [← not_not (a := 0 < _), ← hzero]
        exact of_decide_eq_false hmore
      refine .done ⟨?_, (BitVec.add_zero _).symm, (BitVec.add_zero _).symm, hcount, rfl, hnone⟩
      rw [if_pos hfirst]
      rfl
  refine hstart.bind fun s₁ h₁ ↦ Text.Runs.scan (fun i hi s' h ↦ ?_) h₁
  exact (h.subtract hi).bind fun s'' h'' ↦ h''.round hi

/-- Behind its loop `memcmp` runs into `memset` with a count of zero, which stores nothing. -/
theorem Comparing.equal {s s' : State} (h : Comparing s (s.reg 2).toNat s') :
    memoryS.Returns s' fun s'' ↦ s''.mem = s.mem ∧ intResult s'' = 0 := by
  have hpc := h.pc
  have hcount := h.count
  rw [if_neg (Nat.lt_irrefl _)] at hpc
  rw [Nat.sub_self] at hcount
  refine .instr hpc rfl rfl ?_
  refine .branch (show _ = some 17 by simp [hpc]) rfl rfl rfl ?_ ?_
  · intro _
    refine (lExit_spec rfl).bind fun s'' h'' ↦ .done ⟨h''.1, ?_, ?_⟩
    · simpa using h''.2.1.trans h.mem
    · simpa [Width.trunc] using h''.2.2
  · intro hmore
    refine absurd ?_ (of_decide_eq_false hmore)
    simpa using hcount

/-- `memcmp` writes nothing, and returns the difference of the first two bytes that differ. -/
theorem memcmp_spec (s : State) : memoryS.Returns (call .memcmp s) fun s' ↦ s'.mem = s.mem ∧
    ((∀ i < (s.reg 2).toNat, Agree s i) ∧ intResult s' = 0 ∨
      ∃ i < (s.reg 2).toNat, (∀ j < i, Agree s j) ∧ ¬ Agree s i ∧
        intResult s' = ((byteDiff s i).setWidth 32).toInt) := by
  refine (memcmp_loop s).bind fun s' h ↦ ?_
  obtain h | ⟨i, h⟩ := h
  · refine h.equal.bind fun s'' h'' ↦ .done ⟨h''.1, h''.2.1, Or.inl ⟨h.agree, h''.2.2⟩⟩
  · refine (lExit_spec h.pc).bind fun s'' h'' ↦ .done ⟨h''.1, h''.2.1.trans h.mem, Or.inr ?_⟩
    rw [h.result] at h''
    exact ⟨i, h.lt, h.agree, h.differ, h''.2.2⟩

/-! ## memset -/

/-- `memset` at the head of its loop after `i` rounds. -/
structure Setting (s : State) (i : Nat) (s' : State) : Prop where
  pc : s'.pc = some 17
  base : s'.reg 0 = s.reg 0 + BitVec.ofNat 64 i
  value : s'.reg 1 = s.reg 1
  count : s'.reg 2 = BitVec.ofNat 64 ((s.reg 2).toNat - i)
  mem : s'.mem = fill s.mem (s.reg 0) i fun _ ↦ (s.reg 1).setWidth 8

namespace Setting

variable {s s' : State} {i : Nat}

theorem count_eq_zero_iff (h : Setting s i s') : s'.reg 2 = 0#64 ↔ (s.reg 2).toNat ≤ i := by
  have hlen := (s.reg 2).isLt
  rw [h.count, ← BitVec.toNat_inj, BitVec.toNat_ofNat, BitVec.toNat_ofNat]
  omega

theorem round (hi : i < (s.reg 2).toNat) (h : Setting s i s') :
    memoryS.Runs s' (Setting s (i + 1)) := by
  have hlen := (s.reg 2).isLt
  have hmem : fill s'.mem (s'.reg 0) 1 (fun _ ↦ (s'.reg 1).setWidth 8) =
      fill s.mem (s.reg 0) (i + 1) fun _ ↦ (s.reg 1).setWidth 8 := by
    rw [h.mem, h.base, h.value]
    exact fill_fill (v := fun _ ↦ (s.reg 1).setWidth 8) (by omega)
  refine .branch h.pc rfl rfl rfl ?_ ?_
  · intro hempty
    exact absurd (h.count_eq_zero_iff.mp (of_decide_eq_true hempty)) (Nat.not_le.mpr hi)
  · intro _
    refine .instr (show _ = some 18 by simp [h.pc]) rfl rfl ?_
    refine .instr (show _ = some 19 by simp [h.pc]) rfl rfl ?_
    refine .instr (show _ = some 20 by simp [h.pc]) rfl rfl ?_
    refine .branch (show _ = some 21 by simp [h.pc]) rfl rfl rfl (fun _ ↦ ?_) (fun h ↦ nomatch h)
    refine .done ⟨rfl, ?_, ?_, ?_, ?_⟩
    · simpa [h.base] using add_ofNat_add _ i 1
    · simpa using h.value
    · rw [← Nat.sub_sub, ← BitVec.ofNat_sub_ofNat_of_le _ _ (by decide) (by omega)]
      simp [h.count]
    · simpa using hmem

end Setting

/-- `memset` sets the bytes it is asked to set, and changes no other. -/
theorem memset_spec (s : State) : memoryS.Returns (call .memset s) fun s' ↦
    s'.mem = fill s.mem (s.reg 0) (s.reg 2).toNat fun _ ↦ (s.reg 1).setWidth 8 := by
  have hstart : Setting s 0 (call .memset s) := by
    refine ⟨rfl, (BitVec.add_zero _).symm, rfl, ?_, rfl⟩
    rw [Nat.sub_zero, BitVec.ofNat_toNat, BitVec.setWidth_eq]
    rfl
  refine (Text.Runs.loop (fun i hi s' h ↦ h.round hi) hstart).bind fun s' h ↦ ?_
  refine .branch h.pc rfl rfl rfl ?_ ?_
  · intro _
    exact (lExit_spec rfl).bind fun s'' h'' ↦ .done ⟨h''.1, h''.2.1.trans h.mem⟩
  · intro hmore
    exact absurd (h.count_eq_zero_iff.mpr (Nat.le_refl _)) (of_decide_eq_false hmore)

/-- `memcmp` and `memset` for every two addresses and every length. -/
theorem memcmp_memset (s : State) :
    (memoryS.Returns (call .memcmp s) fun s' ↦ s'.mem = s.mem ∧
      (intResult s' = 0 ↔ ∀ i < (s.reg 2).toNat, Agree s i) ∧
      ∀ i < (s.reg 2).toNat, (∀ j < i, Agree s j) → ¬ Agree s i →
        intResult s' = ((s.mem (s.reg 0 + BitVec.ofNat 64 i)).toNat : Int) -
          (s.mem (s.reg 1 + BitVec.ofNat 64 i)).toNat) ∧
    (memoryS.Returns (call .memset s) fun s' ↦
      s'.mem = fill s.mem (s.reg 0) (s.reg 2).toNat fun _ ↦ (s.reg 1).setWidth 8) := by
  refine ⟨(memcmp_spec s).bind fun s' h ↦ .done ⟨h.1, h.2.1, ?_⟩, memset_spec s⟩
  obtain ⟨hall, hresult⟩ | ⟨i, hi, hbelow, hdiffer, hresult⟩ := h.2.2
  · refine ⟨iff_of_true hresult hall, fun i hi _ hdiffer ↦ absurd (hall i hi) hdiffer⟩
  · rw [hresult]
    refine ⟨⟨fun hzero ↦ absurd ?_ hdiffer, fun hall ↦ absurd (hall i hi) hdiffer⟩, ?_⟩
    · rw [byteDiff_toInt] at hzero
      exact BitVec.toNat_inj.mp (by omega)
    · intro i' _ hbelow' hdiffer'
      obtain hlt | rfl | hlt := Nat.lt_trichotomy i i'
      · exact absurd (hbelow' i hlt) hdiffer
      · exact byteDiff_toInt s i
      · exact absurd (hbelow i' hlt) hdiffer'

end DemosOS
