import DemosOS.Fat.Records
import Mathlib.Data.List.TakeWhile

/-!
# Names

A name has up to 255 bytes.  It is stored in front of its entry, in records of thirteen characters
each (`Lfn`) with the last part of the name first; and in the entry itself, in the short form of
`put_sfn_name`, whose checksum is in all the records.

A part that is not full is ended by `0x00` and filled up with `0xff`.  The characters have two bytes,
and only the lower one is read.
-/

namespace DemosOS.Fat32

open Lib

/-! ## Short names -/

/-- `to_upper`. -/
def toUpper (c : UInt8) : UInt8 := if 0x61 ≤ c ∧ c ≤ 0x7a then c &&& ~~~0x20 else c

/-- The special characters that `sfn_char` allows. -/
def sfnSpecials : List UInt8 :=
  [0x21, 0x23, 0x24, 0x25, 0x26, 0x27, 0x28, 0x29, 0x2d, 0x40, 0x5e, 0x5f, 0x60, 0x7b, 0x7d, 0x7e,
    0x20]

/-- `sfn_char`. -/
def sfnChar (c : UInt8) : UInt8 :=
  let c := toUpper c
  if 0x41 ≤ c ∧ c ≤ 0x5a then c else if c ∈ sfnSpecials then c else 0x5f

def padName (n : Nat) (chars : List UInt8) : List UInt8 :=
  chars ++ List.replicate (n - chars.length) SFN_PAD

/-- `put_sfn_name`: what is in front of the first dot, and what is behind it. -/
def putSfnName (name : List UInt8) : List UInt8 :=
  padName 8 (((name.take 8).takeWhile (· ≠ 0x2e)).map sfnChar) ++
    padName 3 ((((name.dropWhile (· ≠ 0x2e)).drop 1).take 3).map sfnChar)

/-- `parse_sfn_name`: what it leaves in `g_buf`. -/
def parseSfnName (name : List UInt8) : List UInt8 :=
  (name.take 8).takeWhile (· ≠ SFN_PAD) ++
    (if name.getD 8 0 ≠ SFN_PAD then [0x2e] else []) ++
      ((name.drop 8).take 3).takeWhile (· ≠ SFN_PAD)

/-- `get_crc`. -/
def getCrc (name : List UInt8) : UInt8 :=
  name.foldl (fun sum c ↦ ((sum &&& 1) <<< 7) + (sum >>> 1) + c) 0

/-! ## Long names -/

def LFN_HEAD_MSK : UInt8 := 0x40

def LFN_SEQ_MSK : UInt8 := 0x1f

/-- `g_lfn_indices`. -/
def lfnIndices : List Nat := [1, 3, 5, 7, 9, 14, 16, 18, 20, 22, 24, 28, 30]

/-- The two bytes of character `i`. -/
def lfnUnit (part : List UInt8) (i : Nat) : UInt8 × UInt8 :=
  if i < part.length then (part.getD i 0, 0x00)
  else if i = part.length then (0x00, 0x00)
  else (0xff, 0xff)

/-- `put_lfn_name_frag`. -/
def putLfnNameFrag (part : List UInt8) (r : Record) : Record := fun p ↦
  if p.val ∈ lfnIndices then (lfnUnit part (lfnIndices.idxOf p.val)).1
  else if p.val - 1 ∈ lfnIndices then (lfnUnit part (lfnIndices.idxOf (p.val - 1))).2
  else r p

/-- The record of a part, as `dir_add` writes it. -/
def lfnRecord (seq crc : UInt8) (part : List UInt8) (r : Record) : Record :=
  (((((putLfnNameFrag part r).setField 11 1 FAT_ATTR_LFN).setField 0 1 seq.toNat).setField 13 1
    crc.toNat).setField 12 1 0).setField 26 2 0

/-- The number of records for a name. -/
def lfnCount (name : List UInt8) : Nat := (name.length + 12) / 13

/-- Part `i` of a name. -/
def lfnPart (name : List UInt8) (i : Nat) : List UInt8 := (name.drop (13 * i)).take 13

/-- The sequence number of the record at place `t` in front of the entry. -/
def lfnSeq (name : List UInt8) (t : Nat) : UInt8 :=
  (if t = 0 then LFN_HEAD_MSK else 0) ||| UInt8.ofNat (lfnCount name - t)

/-- The characters of a record. -/
def lfnChars (r : Record) : List UInt8 := lfnIndices.map r.byte

/-- A name that is read as it has been written. -/
structure Storable (name : List UInt8) : Prop where
  ne_nil : name ≠ []
  length_le : name.length ≤ 255
  zero : 0x00 ∉ name
  fill : 0xff ∉ name

/-- The records spell the name, for an entry whose short name has this checksum. -/
structure Spells (name : List UInt8) (crc : UInt8) (parts : List Record) : Prop where
  ne_nil : name ≠ []
  length_le : name.length ≤ 255
  length : parts.length = lfnCount name
  head : ∀ r ∈ parts.head?, r.byte 0 &&& LFN_HEAD_MSK ≠ 0 ∧
    (r.byte 0 &&& LFN_SEQ_MSK).toNat = parts.length
  used : ∀ r ∈ parts, ¬ r.IsFree
  lfn : ∀ r ∈ parts, r.IsLfn ∧ r.byte 13 = crc
  chars : ∀ i, ∀ r ∈ parts[i]?,
    (lfnChars r).takeWhile (· ≠ 0x00) = lfnPart name (parts.length - 1 - i)
  notMem : 0xff ∉ name

section

variable {name part : List UInt8} {seq crc : UInt8} {r : Record} {i : Nat}

theorem lfnCount_le (h : name.length ≤ 255) : lfnCount name ≤ 20 := by
  unfold lfnCount
  omega

theorem lfnCount_pos (h : name ≠ []) : 0 < lfnCount name := by
  have hpos := List.length_pos_of_ne_nil h
  unfold lfnCount
  omega

theorem length_lfnPart (name : List UInt8) (i : Nat) :
    (lfnPart name i).length = min 13 (name.length - 13 * i) := by
  rw [lfnPart, List.length_take, List.length_drop]

/-! ## What put_sfn_name writes -/

/-- Characters of a short name are letters in upper case and the special ones; digits are not among
them. -/
theorem sfnChar_mem (c : UInt8) :
    (0x41 ≤ sfnChar c ∧ sfnChar c ≤ 0x5a) ∨ sfnChar c ∈ sfnSpecials := by
  unfold sfnChar
  dsimp only
  split_ifs with hletter hspecial
  · exact Or.inl hletter
  · exact Or.inr hspecial
  · exact Or.inr (by decide)

theorem length_padName {n : Nat} {chars : List UInt8} (h : chars.length ≤ n) :
    (padName n chars).length = n := by
  rw [padName, List.length_append, List.length_replicate, Nat.add_sub_cancel' h]

theorem length_putSfnName (name : List UInt8) : (putSfnName name).length = 11 := by
  rw [putSfnName, List.length_append, length_padName, length_padName]
  · rw [List.length_map, List.length_take]
    exact Nat.min_le_left _ _
  · rw [List.length_map]
    refine (List.takeWhile_sublist _).length_le.trans ?_
    rw [List.length_take]
    exact Nat.min_le_left _ _

theorem mem_putSfnName {c : UInt8} (h : c ∈ putSfnName name) :
    (0x41 ≤ c ∧ c ≤ 0x5a) ∨ c ∈ sfnSpecials := by
  have hpad : ∀ {n : Nat} {chars : List UInt8}, c ∈ padName n (chars.map sfnChar) →
      (0x41 ≤ c ∧ c ≤ 0x5a) ∨ c ∈ sfnSpecials := by
    intro n chars hc
    rcases List.mem_append.mp hc with hc | hc
    · obtain ⟨d, -, rfl⟩ := List.mem_map.mp hc
      exact sfnChar_mem d
    · rw [List.eq_of_mem_replicate hc]
      exact Or.inr (by decide)
  rcases List.mem_append.mp h with hc | hc
  · exact hpad hc
  · exact hpad hc

/-- The short name does not make the record a free one. -/
theorem putSfnName_used {c : UInt8} (h : c ∈ putSfnName name) : c ≠ SFN_LAST ∧ c ≠ SFN_FREE := by
  rcases mem_putSfnName h with ⟨hlow, hhigh⟩ | hspecial
  · constructor
    · rintro rfl
      exact absurd hlow (by decide)
    · rintro rfl
      exact absurd hhigh (by decide)
  · constructor
    · rintro rfl
      exact absurd hspecial (by decide)
    · rintro rfl
      exact absurd hspecial (by decide)

/-! ## What dir_add writes -/

theorem byte_lfnRecord_seq : (lfnRecord seq crc part r).byte 0 = seq := by
  rw [lfnRecord, Block.byte_setField_of_notMem (by decide), Block.byte_setField_of_notMem (by decide),
    Block.byte_setField_of_notMem (by decide), Block.byte_setField_one (by decide)]

theorem byte_lfnRecord_crc : (lfnRecord seq crc part r).byte 13 = crc := by
  rw [lfnRecord, Block.byte_setField_of_notMem (by decide), Block.byte_setField_of_notMem (by decide),
    Block.byte_setField_one (by decide)]

theorem isLfn_lfnRecord : (lfnRecord seq crc part r).IsLfn := by
  rw [Record.IsLfn, Record.attr, lfnRecord, Block.byte_setField_of_notMem (by decide),
    Block.byte_setField_of_notMem (by decide), Block.byte_setField_of_notMem (by decide),
    Block.byte_setField_of_notMem (by decide),
    show FAT_ATTR_LFN = (0x0f : UInt8).toNat from rfl, Block.byte_setField_one (by decide)]

/-- The indices are apart from the other fields. -/
theorem lfnIndices_apart :
    ∀ p ∈ lfnIndices, p < 32 ∧ p ≠ 0 ∧ p ≠ 11 ∧ p ≠ 12 ∧ p ≠ 13 ∧ p ≠ 26 ∧ p ≠ 27 := by
  decide

theorem lfnChars_lfnRecord :
    lfnChars (lfnRecord seq crc part r) = (List.range 13).map fun i ↦ (lfnUnit part i).1 := by
  have hbyte : ∀ p ∈ lfnIndices, (lfnRecord seq crc part r).byte p =
      (lfnUnit part (lfnIndices.idxOf p)).1 := by
    intro p hp
    obtain ⟨hlt, h0, h11, h12, h13, h26, h27⟩ := lfnIndices_apart p hp
    rw [lfnRecord, Block.byte_setField_of_notMem (by omega),
      Block.byte_setField_of_notMem (by omega), Block.byte_setField_of_notMem (by omega),
      Block.byte_setField_of_notMem (by omega), Block.byte_setField_of_notMem (by omega),
      Block.byte_of_lt hlt]
    exact if_pos hp
  rw [lfnChars, List.map_congr_left hbyte]
  rfl

/-- A name without `0x00` ends where it should. -/
theorem takeWhile_lfnUnit (hpart : part.length ≤ 13) (hzero : 0x00 ∉ part) :
    ((List.range 13).map fun i ↦ (lfnUnit part i).1).takeWhile (· ≠ 0x00) = part := by
  have hfirst : (List.range part.length).map (fun i ↦ (lfnUnit part i).1) = part := by
    refine List.ext_getElem ?_ fun i hi hi' ↦ ?_
    · rw [List.length_map, List.length_range]
    · rw [List.getElem_map, List.getElem_range, lfnUnit, if_pos hi',
        ← List.getElem_eq_getD]
  have hall : ∀ c ∈ part, decide (c ≠ 0x00) = true := by
    intro c hc
    refine decide_eq_true ?_
    rintro rfl
    exact hzero hc
  rw [show 13 = part.length + (13 - part.length) by omega, List.range_add, List.map_append, hfirst,
    List.takeWhile_append_of_pos hall]
  by_cases hfull : part.length = 13
  · rw [hfull]
    exact List.append_nil _
  · obtain ⟨k, hk⟩ : ∃ k, 13 - part.length = k + 1 := ⟨12 - part.length, by omega⟩
    rw [hk, List.range_succ_eq_map, List.map_cons, List.map_cons, Nat.add_zero, lfnUnit,
      if_neg (Nat.lt_irrefl _), if_pos rfl]
    exact List.append_nil _

theorem lfnSeq_facts : ∀ n ≤ 20, 0 < n → ∀ head : Bool,
    (if head then LFN_HEAD_MSK else 0) ||| UInt8.ofNat n ≠ SFN_LAST ∧
      (if head then LFN_HEAD_MSK else 0) ||| UInt8.ofNat n ≠ SFN_FREE ∧
      (LFN_HEAD_MSK ||| UInt8.ofNat n) &&& LFN_HEAD_MSK ≠ 0 ∧
      ((LFN_HEAD_MSK ||| UInt8.ofNat n) &&& LFN_SEQ_MSK).toNat = n := by
  decide

/-- The records that `dir_add` writes spell the name. -/
theorem spells_of_lfnRecord {parts : List Record} (hname : Storable name)
    (hcount : parts.length = lfnCount name)
    (hparts : ∀ t, ∀ r ∈ parts[t]?, ∃ r₀,
      r = lfnRecord (lfnSeq name t) crc (lfnPart name (lfnCount name - 1 - t)) r₀) :
    Spells name crc parts := by
  have hle := lfnCount_le hname.length_le
  refine ⟨hname.ne_nil, hname.length_le, hcount, fun r hr ↦ ?_, fun r hr ↦ ?_, fun r hr ↦ ?_,
    fun t r hr ↦ ?_, hname.fill⟩
  · obtain ⟨r₀, rfl⟩ := hparts 0 r (by rwa [← List.head?_eq_getElem?])
    rw [byte_lfnRecord_seq, hcount]
    exact (lfnSeq_facts _ hle (lfnCount_pos hname.ne_nil) true).2.2
  · obtain ⟨t, ht, heq⟩ := List.getElem_of_mem hr
    obtain ⟨r₀, rfl⟩ := hparts t r (by rw [List.getElem?_eq_getElem ht, heq]; rfl)
    rw [Record.IsFree, byte_lfnRecord_seq]
    have hfacts := lfnSeq_facts (lfnCount name - t) (by omega) (by omega) (decide (t = 0))
    simp only [decide_eq_true_eq] at hfacts
    exact not_or.mpr ⟨hfacts.1, hfacts.2.1⟩
  · obtain ⟨t, ht, heq⟩ := List.getElem_of_mem hr
    obtain ⟨r₀, rfl⟩ := hparts t r (by rw [List.getElem?_eq_getElem ht, heq]; rfl)
    exact ⟨isLfn_lfnRecord, byte_lfnRecord_crc⟩
  · obtain ⟨r₀, rfl⟩ := hparts t r hr
    rw [lfnChars_lfnRecord, hcount]
    refine takeWhile_lfnUnit ?_ fun hmem ↦ hname.zero (List.mem_of_mem_drop (List.mem_of_mem_take hmem))
    rw [length_lfnPart]
    exact Nat.min_le_left _ _

end

end DemosOS.Fat32
