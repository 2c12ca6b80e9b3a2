import DemosOS.Fat.Volume

/-!
# Directory entries

The record of an entry with a short name (`Sfn`), 32 bytes in a sector of a directory, and the two
words in which a date and a time are stored.

`encode_timestamp` keeps six bits of the year, where the format has seven, and the time counts
pairs of seconds.
-/

namespace DemosOS.Fat32

open Lib

/-! ## Dates -/

structure Timestamp where
  hour : Nat
  min : Nat
  sec : Nat
  day : Nat
  month : Nat
  year : Nat
deriving DecidableEq, Repr

/-- `decode_timestamp`. -/
def decodeTimestamp (date time : Nat) : Timestamp where
  day := date &&& 0x1f
  month := (date >>> 5) &&& 0xf
  year := ((date >>> 9) &&& 0x3f) + 1980
  hour := (time >>> 11) &&& 0x1f
  min := (time >>> 5) &&& 0x3f
  sec := 2 * (time &&& 0x1f)

/-- `encode_timestamp`, for the timestamp that `fat_get_timestamp` has written: the date and the
time. -/
def encodeTimestamp (ts : Timestamp) : Nat × Nat :=
  ((((ts.year + 2 ^ 32 - 1980) % 2 ^ 32) &&& 0x3f) <<< 9 ||| (ts.month &&& 0xf) <<< 5 |||
      (ts.day &&& 0x1f),
    ((ts.sec / 2) &&& 0x1f) ||| (ts.min &&& 0x3f) <<< 5 ||| (ts.hour &&& 0x1f) <<< 11)

/-- The weak `fat_get_timestamp`; nothing in the system overrides it. -/
def fatGetTimestamp : Timestamp where
  day := 1
  month := 1
  year := 1980
  hour := 0
  min := 0
  sec := 0

/-- A moment that the two words can hold: 1980 to 2043, in steps of two seconds. -/
structure Timestamp.Storable (ts : Timestamp) : Prop where
  hour : ts.hour < 32
  min : ts.min < 64
  sec : ts.sec < 64
  even : 2 ∣ ts.sec
  day : ts.day < 32
  month : ts.month < 16
  year : 1980 ≤ ts.year ∧ ts.year < 2044

section

variable {ts : Timestamp} {date time : Nat}

/-- Three fields in one word. -/
theorem or_fields {a b c i j : Nat} (hb : b < 2 ^ (j - i)) (hc : c < 2 ^ i) (hij : i ≤ j) :
    a <<< j ||| b <<< i ||| c = a * 2 ^ j + b * 2 ^ i + c := by
  have hlow : b <<< i < 2 ^ j := by
    rw [Nat.shiftLeft_eq, ← Nat.sub_add_cancel hij, Nat.pow_add]
    exact Nat.mul_lt_mul_of_pos_right hb (Nat.two_pow_pos i)
  have hsum : a * 2 ^ j + b * 2 ^ i = (a * 2 ^ (j - i) + b) <<< i := by
    rw [Nat.shiftLeft_eq, Nat.add_mul, Nat.mul_assoc, ← Nat.pow_add, Nat.sub_add_cancel hij]
  rw [← Nat.shiftLeft_add_eq_or_of_lt hlow, Nat.shiftLeft_eq, Nat.shiftLeft_eq, hsum,
    ← Nat.shiftLeft_add_eq_or_of_lt hc]

theorem encodeTimestamp_date :
    (encodeTimestamp ts).1 =
      (ts.year + 2 ^ 32 - 1980) % 2 ^ 32 % 64 * 512 + ts.month % 16 * 32 + ts.day % 32 := by
  have hyear : ∀ n, n &&& 0x3f = n % 64 := fun n ↦ Nat.and_two_pow_sub_one_eq_mod n 6
  have hmonth : ts.month &&& 0xf = ts.month % 16 := Nat.and_two_pow_sub_one_eq_mod _ 4
  have hday : ts.day &&& 0x1f = ts.day % 32 := Nat.and_two_pow_sub_one_eq_mod _ 5
  rw [encodeTimestamp, hyear, hmonth, hday]
  exact or_fields (i := 5) (j := 9) (Nat.mod_lt _ (by decide)) (Nat.mod_lt _ (by decide)) (by decide)

theorem encodeTimestamp_time :
    (encodeTimestamp ts).2 = ts.hour % 32 * 2048 + ts.min % 64 * 32 + ts.sec / 2 % 32 := by
  have hhour : ts.hour &&& 0x1f = ts.hour % 32 := Nat.and_two_pow_sub_one_eq_mod _ 5
  have hmin : ts.min &&& 0x3f = ts.min % 64 := Nat.and_two_pow_sub_one_eq_mod _ 6
  have hsec : (ts.sec / 2) &&& 0x1f = ts.sec / 2 % 32 := Nat.and_two_pow_sub_one_eq_mod _ 5
  rw [encodeTimestamp, hhour, hmin, hsec]
  dsimp only
  rw [Nat.or_comm (ts.sec / 2 % 32), Nat.or_assoc, Nat.or_comm (ts.sec / 2 % 32), ← Nat.or_assoc,
    Nat.or_comm (_ <<< 5)]
  exact or_fields (i := 5) (j := 11) (Nat.mod_lt _ (by decide)) (Nat.mod_lt _ (by decide))
    (by decide)

theorem decodeTimestamp_eq (date time : Nat) :
    decodeTimestamp date time =
      { day := date % 32, month := date / 32 % 16, year := date / 512 % 64 + 1980,
        hour := time / 2048 % 32, min := time / 32 % 64, sec := 2 * (time % 32) } := by
  have hand : ∀ n k, n &&& (2 ^ k - 1) = n % 2 ^ k := Nat.and_two_pow_sub_one_eq_mod
  have hsix := fun n ↦ hand n 6
  have hfive := fun n ↦ hand n 5
  have hfour := fun n ↦ hand n 4
  norm_num at hsix hfive hfour
  simp only [decodeTimestamp, hsix, hfive, hfour, Nat.shiftRight_eq_div_pow, Nat.reducePow]

/-- A date is read back as it was stored exactly if the two words can hold it. -/
theorem decode_encodeTimestamp_iff (hyear : ts.year < 2 ^ 16) :
    decodeTimestamp (encodeTimestamp ts).1 (encodeTimestamp ts).2 = ts ↔ ts.Storable := by
  rw [decodeTimestamp_eq, encodeTimestamp_date, encodeTimestamp_time]
  obtain ⟨hour, min, sec, day, month, year⟩ := ts
  dsimp only at hyear ⊢
  rw [Timestamp.mk.injEq]
  constructor
  · rintro ⟨hhour, hmin, hsec, hday, hmonth, hyear'⟩
    constructor
    all_goals dsimp only
    all_goals omega
  · rintro ⟨hhour, hmin, hsec, heven, hday, hmonth, hyear'⟩
    dsimp only at hhour hmin hsec heven hday hmonth hyear'
    refine ⟨?_, ?_, ?_, ?_, ?_, ?_⟩
    all_goals omega

theorem decode_encodeTimestamp_odd :
    decodeTimestamp (encodeTimestamp ⟨12, 30, 59, 1, 1, 2024⟩).1
      (encodeTimestamp ⟨12, 30, 59, 1, 1, 2024⟩).2 ≠ ⟨12, 30, 59, 1, 1, 2024⟩ :=
  fun h ↦ absurd ((decode_encodeTimestamp_iff (by decide)).mp h).even (by decide)

/-- Two words are stored again as they were read, but for the highest bit of the date. -/
theorem encode_decodeTimestamp (htime : time < 2 ^ 16) :
    encodeTimestamp (decodeTimestamp date time) = (date % 2 ^ 15, time) := by
  refine Prod.ext ?_ ?_
  · rw [encodeTimestamp_date, decodeTimestamp_eq]
    dsimp only
    omega
  · rw [encodeTimestamp_time, decodeTimestamp_eq]
    dsimp only
    omega

end

/-! ## Entries -/

/-- The record of an entry, which is a `Sfn` or a `Lfn`. -/
abbrev Record := Block 32

def FAT_ATTR_LFN : Nat := 0x0f

def SFN_FREE : UInt8 := 0xe5

def SFN_LAST : UInt8 := 0x00

def SFN_PAD : UInt8 := 0x20

namespace Record

def attr (r : Record) : Nat := (r.byte 11).toNat

def size (r : Record) : Nat := r.field 28 4

/-- `sfn->name`. -/
def name (r : Record) : List UInt8 := (List.range 11).map r.byte

/-- `sfn_cluster`. -/
def cluster (r : Record) : Nat := r.field 20 2 <<< 16 ||| r.field 26 2

/-- `sfn_is_last`. -/
def IsLast (r : Record) : Prop := r.byte 0 = SFN_LAST

/-- `sfn_is_free`. -/
def IsFree (r : Record) : Prop := r.byte 0 = SFN_LAST ∨ r.byte 0 = SFN_FREE

/-- `sfn_is_lfn`. -/
def IsLfn (r : Record) : Prop := r.attr = FAT_ATTR_LFN

instance (r : Record) : Decidable r.IsLast := inferInstanceAs (Decidable (_ = _))

instance (r : Record) : Decidable r.IsFree := inferInstanceAs (Decidable (_ ∨ _))

instance (r : Record) : Decidable r.IsLfn := inferInstanceAs (Decidable (_ = _))

theorem IsLast.isFree {r : Record} (h : r.IsLast) : r.IsFree := Or.inl h

end Record

/-- The record at `idx` of a sector. -/
def Sector.record (b : Sector) (idx : Nat) : Record := b.sub idx 32

/-- A change of the record at `idx`. -/
def Sector.editRecord (b : Sector) (idx : Nat) (f : Record → Record) : Sector :=
  b.setSub idx (f (b.record idx))

section

variable {b : Sector} {f : Record → Record} {idx idx' : Nat}

theorem Sector.record_editRecord (h : idx + 32 ≤ 512) :
    (b.editRecord idx f).record idx = f (b.record idx) := Block.sub_setSub h

theorem Sector.record_editRecord_of_disjoint (h : idx' + 32 ≤ idx ∨ idx + 32 ≤ idx') :
    (b.editRecord idx f).record idx' = b.record idx' := Block.sub_setSub_of_disjoint h

end

/-- What `fat_file_sync` writes into the entry of a file. -/
def stampEntry (size : Nat) (accessed modified : Bool) (ts : Timestamp) (r : Record) : Record :=
  let (date, time) := encodeTimestamp ts
  let r : Record := if accessed then r.setField 18 2 date else r
  if modified then
    (((r.setField 11 1 (r.attr ||| 0x20)).setField 28 4 size).setField 24 2 date).setField 22 2 time
  else r

end DemosOS.Fat32
