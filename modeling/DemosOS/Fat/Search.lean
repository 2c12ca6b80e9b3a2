import DemosOS.Fat.Contents
import DemosOS.Fat.Cursor

/-!
# Looking for a name

`dir_search` finds what is in the directory under a name, and nothing else: it delivers where the
records of the first match begin, and leaves the directory at the last of them.  It changes nothing
but the memory in which it puts names together.
-/

namespace DemosOS.Fat32

open Lib

/-- The memory for names holds something else. -/
def Volume.scratch (v : Volume) (gBuf : Nat → UInt8) (gLen : Nat) (gCrc : UInt8) : Volume :=
  { v with gBuf := gBuf, gLen := gLen, gCrc := gCrc }

/-- The characters are put into a memory from `i` on. -/
def fillFrom (gBuf : Nat → UInt8) (i : Nat) (chars : List UInt8) : Nat → UInt8 := fun p ↦
  if i ≤ p ∧ p < i + chars.length then chars.getD (p - i) 0 else gBuf p

section

variable {g : Geometry} {others rest kept chains : List (List Nat)} {s : Fat} {v v' : Volume}
  {ds : List Nat} {d : Dir} {i j k n gLen : Nat} {gBuf : Nat → UInt8} {gCrc crc : UInt8}
  {p : Fat × Dir} {name chars : List UInt8} {items before after : List Item} {it : Item}

/-! ## The memory for names -/

theorem Hosting.scratch (h : Hosting g kept chains s v) (gBuf : Nat → UInt8) (gLen : Nat)
    (gCrc : UInt8) :
    Hosting g kept chains { s with gBuf := gBuf, gLen := gLen, gCrc := gCrc }
      (v.scratch gBuf gLen gCrc) := by
  obtain ⟨⟨hcoherent, rfl⟩, hconsistent, hsound, hresides⟩ := h
  refine ⟨⟨hcoherent, rfl⟩, ?_, hsound, hresides⟩
  exact ⟨⟨hconsistent.lastUsed, hconsistent.readable⟩, hconsistent.chains, hconsistent.mirrored,
    hconsistent.counted, ⟨hconsistent.recorded.freeCnt, hconsistent.recorded.lastUsed⟩⟩

theorem Looking.scratch (h : Looking g others rest ds v k p) (gBuf : Nat → UInt8) (gLen : Nat)
    (gCrc : UInt8) :
    Looking g others rest ds (v.scratch gBuf gLen gCrc) k
      ({ p.1 with gBuf := gBuf, gLen := gLen, gCrc := gCrc }, p.2) :=
  ⟨h.hosting.scratch gBuf gLen gCrc, h.at', ⟨h.loaded.sect_eq, h.loaded.pos⟩⟩

theorem fillFrom_cons (gBuf : Nat → UInt8) (i : Nat) (c : UInt8) (chars : List UInt8) :
    fillFrom gBuf i (c :: chars) = fillFrom (Function.update gBuf i c) (i + 1) chars := by
  funext p
  unfold fillFrom
  rw [List.length_cons]
  by_cases hp : p = i
  · subst hp
    rw [if_pos (by omega), if_neg (by omega), Function.update_self, Nat.sub_self]
    rfl
  · rw [Function.update_of_ne hp]
    by_cases hin : i + 1 ≤ p ∧ p < i + 1 + chars.length
    · rw [if_pos (by omega), if_pos hin, show p - i = (p - (i + 1)) + 1 by omega]
      rfl
    · rw [if_neg (by omega), if_neg hin]

/-- The characters up to the first `0x00` are taken over. -/
theorem readChars_eq (hfill : 0xff ∉ chars.takeWhile (· ≠ 0x00)) :
    readChars i chars s = .ok ⟨⟩ { s with
      gBuf := fillFrom s.gBuf i (chars.takeWhile (· ≠ 0x00))
      gLen := s.gLen + (chars.takeWhile (· ≠ 0x00)).length } := by
  induction chars generalizing i s with
  | nil =>
      have hsame : fillFrom s.gBuf i [] = s.gBuf := funext fun p ↦ if_neg (by
        rw [List.length_nil]
        omega)
      rw [List.takeWhile_nil, hsame]
      rfl
  | cons c chars ih =>
      by_cases hzero : c = 0x00
      · subst hzero
        have hsame : fillFrom s.gBuf i [] = s.gBuf := funext fun p ↦ if_neg (by
          rw [List.length_nil]
          omega)
        rw [List.takeWhile_cons_of_neg (by decide), hsame]
        rfl
      · have hcons : (c :: chars).takeWhile (· ≠ 0x00) = c :: chars.takeWhile (· ≠ 0x00) :=
          List.takeWhile_cons_of_pos (decide_eq_true hzero)
        rw [hcons, List.mem_cons, not_or] at hfill
        rw [hcons, fillFrom_cons, List.length_cons, readChars, if_neg (Ne.symm hfill.1),
          if_neg hzero, Nat.add_comm (chars.takeWhile _).length, ← Nat.add_assoc]
        exact ih hfill.2

/-! ## parse_lfn_name -/

theorem Books.parsed_eq {b : Books} (hlen : b.gLen = name.length)
    (hbuf : ∀ q < name.length, b.gBuf q = name.getD q 0) : b.parsed = name := by
  unfold Books.parsed
  rw [hlen]
  refine List.ext_getElem ?_ fun q hq hq' ↦ ?_
  · rw [List.length_map, List.length_range]
  · rw [List.getElem_map, List.getElem_range, List.getElem_eq_getD 0]
    exact hbuf q hq'

/-- The last `n` parts of a name are still to be read. -/
structure PartsAhead (g : Geometry) (v : Volume) (ds : List Nat) (k : Nat) (name : List UInt8)
    (n : Nat) : Prop where
  lfn : ∀ i < n, (v.record g ds (k + i)).IsLfn ∧ (v.record g ds (k + i)).byte 13 = v.gCrc
  chars : ∀ i < n, (lfnChars (v.record g ds (k + i))).takeWhile (· ≠ 0x00) = lfnPart name (n - 1 - i)
  notMem : 0xff ∉ name
  len : v.gLen = name.length - 13 * n
  read : ∀ q, 13 * n ≤ q → q < name.length → v.gBuf q = name.getD q 0

/-- The loop puts the name together, and ends at the record behind the parts. -/
theorem readParts_spec (hg : g.WellFormed) (hal : g.Aligned) (h : Looking g others rest ds v k p)
    (hparts : PartsAhead g v ds k name n) (hend : k + n < g.recordsIn ds) :
    Yields (readParts g n) p
      (fun _ p' ↦ ∃ gBuf, Looking g others rest ds (v.scratch gBuf name.length v.gCrc) (k + n) p' ∧
        ∀ q < name.length, gBuf q = name.getD q 0) fun _ _ ↦ False := by
  induction n generalizing v k p with
  | zero =>
      refine Yields.pure ⟨v.gBuf, ?_, fun q hq ↦ hparts.read q (Nat.zero_le _) hq⟩
      have hlen : v.gLen = name.length := hparts.len
      rw [← hlen]
      exact h
  | succ n ih =>
      obtain ⟨s, d⟩ := p
      obtain ⟨hlfn, hcrc⟩ := hparts.lfn 0 n.succ_pos
      have hchars := hparts.chars 0 n.succ_pos
      rw [Nat.add_zero] at hlfn hcrc hchars
      rw [Nat.add_sub_cancel, Nat.sub_zero] at hchars
      obtain rfl : s.volume = v := h.hosting.shows.volume
      refine h.dirPtr (Yields.get_bind (Yields.ite (fun hbad ↦ ?_) fun _ ↦ ?_))
      · rcases hbad with hbad | hbad
        · exact absurd hlfn hbad
        · exact absurd hcrc hbad
      have hfill : 0xff ∉ (lfnChars (s.volume.record g ds k)).takeWhile (· ≠ 0x00) := by
        rw [hchars]
        exact fun hmem ↦ hparts.notMem (List.mem_of_mem_drop (List.mem_of_mem_take hmem))
      have hread := readChars_eq (s := s) (i := 13 * n) hfill
      rw [hchars] at hread
      refine Yields.bind (Q := fun _ p' ↦ p' = ({ s with
          gBuf := fillFrom s.gBuf (13 * n) (lfnPart name n)
          gLen := s.gLen + (lfnPart name n).length }, d))
        (Yields.onFirst (Yields.of_ok hread rfl)) ?_
      rintro _ _ rfl
      have h₁ := h.scratch (fillFrom s.gBuf (13 * n) (lfnPart name n))
        (s.gLen + (lfnPart name n).length) s.gCrc
      refine Yields.bind ((dirNext_spec hg hal h₁.hosting h₁.at').mono (fun _ _ hq ↦ hq)
        fun e p' hE ↦ absurd hE.2.1 (by omega)) ?_
      rintro _ ⟨s₂, d₂⟩ ⟨h₂, hd₂⟩
      refine Yields.bind (updateDir_spec hg h₂ hd₂) ?_
      rintro _ ⟨s₃, d₃⟩ ⟨h₃, -⟩
      have hrest : PartsAhead g (s.volume.scratch (fillFrom s.gBuf (13 * n) (lfnPart name n))
          (s.gLen + (lfnPart name n).length) s.gCrc) ds (k + 1) name n := by
        have hlen := hparts.len
        have hpart := length_lfnPart name n
        refine ⟨fun i hi ↦ ?_, fun i hi ↦ ?_, hparts.notMem, ?_, fun q hq hlt ↦ ?_⟩
        · rw [Nat.add_right_comm]
          exact hparts.lfn (i + 1) (Nat.succ_lt_succ hi)
        · rw [Nat.add_right_comm]
          have hchars' := hparts.chars (i + 1) (Nat.succ_lt_succ hi)
          rwa [show n + 1 - 1 - (i + 1) = n - 1 - i by omega] at hchars'
        · change s.volume.gLen + _ = _
          omega
        · change fillFrom _ _ _ q = _
          unfold fillFrom
          by_cases hin : 13 * n ≤ q ∧ q < 13 * n + (lfnPart name n).length
          · rw [if_pos hin, lfnPart, List.getD_eq_getElem?_getD, List.getD_eq_getElem?_getD,
              List.getElem?_take_of_lt (by omega), List.getElem?_drop,
              Nat.add_sub_cancel' hin.1]
          · rw [if_neg hin]
            exact hparts.read q (by omega) hlt
      have hnext := ih h₃ hrest (by omega)
      rw [Nat.add_right_comm] at hnext
      exact hnext

/-- Records that spell a name are read as this name. -/
theorem parseLfnName_spec {parts : List Record} (hg : g.WellFormed) (hal : g.Aligned)
    (h : Looking g others rest ds v k p) (hspells : Spells name crc parts)
    (hrecords : ∀ i, ∀ r ∈ parts[i]?, v.record g ds (k + i) = r)
    (hend : k + parts.length < g.recordsIn ds) :
    Yields (parseLfnName g) p
      (fun _ p' ↦ ∃ gBuf, Looking g others rest ds (v.scratch gBuf name.length crc)
        (k + parts.length) p' ∧ p'.1.parsed = name) fun _ _ ↦ False := by
  obtain ⟨s, d⟩ := p
  have hpos : 0 < parts.length := by
    rw [hspells.length]
    exact lfnCount_pos hspells.ne_nil
  obtain ⟨hmark, hseq⟩ := hspells.head _ (List.head?_eq_getElem? ▸ List.getElem?_eq_getElem hpos)
  have hhead := hrecords 0 _ (List.getElem?_eq_getElem hpos)
  rw [Nat.add_zero] at hhead
  have hlfn : ∀ i < parts.length, (v.record g ds (k + i)).IsLfn ∧
      (v.record g ds (k + i)).byte 13 = crc := by
    intro i hi
    rw [hrecords i _ (List.getElem?_eq_getElem hi)]
    exact hspells.lfn _ (List.getElem_mem hi)
  refine Yields.bind (updateDir_spec hg h.hosting h.at') ?_
  rintro _ ⟨s₁, d₁⟩ ⟨h₁, -⟩
  refine h₁.dirPtr ?_
  have hcrc : (v.record g ds k).byte 13 = crc := (hlfn 0 hpos).2
  rw [hcrc, hhead]
  obtain rfl : s₁.volume = v := h₁.hosting.shows.volume
  refine Yields.bind (Q := fun _ p' ↦ p' = ({ s₁ with gCrc := crc, gLen := 0 }, d₁))
    (Yields.onFirst (Yields.modify rfl)) ?_
  rintro _ _ rfl
  have hle := lfnCount_le hspells.length_le
  have hcount := hspells.length
  refine Yields.ite (fun hbad ↦ absurd hbad hmark) fun _ ↦ ?_
  dsimp only
  rw [hseq]
  refine Yields.ite (fun hbad ↦ absurd hbad (by omega)) fun _ ↦ ?_
  have h₂ := h₁.scratch s₁.gBuf 0 crc
  have hahead : PartsAhead g (s₁.volume.scratch s₁.gBuf 0 crc) ds k name parts.length := by
    refine ⟨hlfn, fun i hi ↦ ?_, hspells.notMem, ?_, fun q hq hlt ↦ absurd hq ?_⟩
    · change (lfnChars (s₁.volume.record g ds (k + i))).takeWhile _ = _
      rw [hrecords i _ (List.getElem?_eq_getElem hi)]
      exact hspells.chars i _ (List.getElem?_eq_getElem hi)
    · change 0 = _
      unfold lfnCount at hcount
      omega
    · unfold lfnCount at hcount
      omega
  refine Yields.bind (readParts_spec hg hal h₂ hahead hend) ?_
  rintro _ ⟨s₃, d₃⟩ ⟨gBuf, h₃, hread⟩
  obtain ⟨hbuf, hlen⟩ : s₃.gBuf = gBuf ∧ s₃.gLen = name.length :=
    ⟨congrArg Books.gBuf h₃.hosting.shows.books, congrArg Books.gLen h₃.hosting.shows.books⟩
  refine Yields.get_bind (Yields.ite (fun _ ↦ Yields.pure ⟨gBuf, h₃, ?_⟩) fun hbad ↦ absurd ?_ hbad)
  · exact Books.parsed_eq hlen fun q hq ↦ (congrFun hbuf q).trans (hread q hq)
  · change s₃.gLen ≤ 255
    rw [hlen]
    exact hspells.length_le

/-! ## dir_search -/

/-- The directory is at this place, in a volume that is the same but for the memory for names. -/
def Idle (g : Geometry) (others rest : List (List Nat)) (ds : List Nat) (v : Volume) (k : Nat)
    (p : Fat × Dir) : Prop :=
  ∃ gBuf gLen gCrc, Hosting g (ds :: others) (ds :: rest) p.1 (v.scratch gBuf gLen gCrc) ∧
    p.2.At g ds k

/-- The items from place `k` on have been gone through, and the name is not found under them. -/
def Missed (g : Geometry) (others rest : List (List Nat)) (ds : List Nat) (v : Volume)
    (name : List UInt8) (items : List Item) (e : Failure) (p : Fat × Dir) : Prop :=
  e = .code FAT_ERR_EOF ∧ (∀ it ∈ items, ¬ it.Matches name) ∧ ds.head? = some p.2.sclust ∧
    ∃ gBuf gLen gCrc, Hosting g (ds :: others) (ds :: rest) p.1 (v.scratch gBuf gLen gCrc)

/-- The records of `it` begin at place `k`, and the directory is at the last of them. -/
def Found (g : Geometry) (others rest : List (List Nat)) (ds : List Nat) (v : Volume) (k : Nat)
    (it : Item) (loc : Loc) (p : Fat × Dir) : Prop :=
  loc = ⟨g.fileSect ds (k / 16), 32 * (k % 16)⟩ ∧
    ∃ gBuf gLen gCrc, Looking g others rest ds (v.scratch gBuf gLen gCrc)
      (k + it.records.length - 1) p

/-- Behind the last record of the chain there is no item. -/
theorem Holds.nothing_behind (hv : Holds (v.records g ds) (before ++ it :: after))
    (hend : (recordsOf before).length + it.records.length = g.recordsIn ds) : after = [] := by
  have hle := hv.length_le
  rw [Volume.length_records, recordsOf_append, recordsOf_cons, List.length_append,
    List.length_append] at hle
  cases after with
  | nil => rfl
  | cons it' after =>
      have hpos := it'.length_records_pos
      rw [recordsOf_cons, List.length_append] at hle
      omega

/-- The records of an entry with a long name. -/
theorem Holds.records_long {parts : List Record} {r : Record}
    (hv : Holds (v.records g ds) (before ++ .long name parts r :: after)) :
    (∀ i, ∀ r' ∈ parts[i]?, v.record g ds ((recordsOf before).length + i) = r') ∧
      (recordsOf before).length + parts.length < g.recordsIn ds ∧
      v.record g ds ((recordsOf before).length + parts.length) = r := by
  have hrecords : ∀ i, ∀ r' ∈ (parts ++ [r])[i]?, (recordsOf before).length + i < g.recordsIn ds ∧
      v.record g ds ((recordsOf before).length + i) = r' := by
    intro i r' hr'
    have hi := (List.getElem?_eq_some_iff.mp hr').1
    have hsome := (hv.getElem? hi).trans hr'
    have hin := (List.getElem?_eq_some_iff.mp hsome).1
    rw [Volume.length_records] at hin
    rw [v.getElem?_records hin] at hsome
    exact ⟨hin, Option.some.inj hsome⟩
  refine ⟨fun i r' hr' ↦ (hrecords i r' ?_).2, hrecords parts.length r List.getElem?_concat_length⟩
  rw [List.getElem?_append_left (List.getElem?_eq_some_iff.mp hr').1]
  exact hr'

/-- An item that does not match is left behind. -/
theorem leaveItem_spec (hg : g.WellFormed) (hal : g.Aligned)
    (hv : Holds (v.records g ds) (before ++ it :: after)) (hmiss : ¬ it.Matches name)
    (h : Looking g others rest ds (v.scratch gBuf gLen gCrc)
      ((recordsOf before).length + it.records.length - 1) p) :
    Yields (do
        dirNext g
        return (.inr () : Loc ⊕ Unit)) p
      (fun r p' ↦ r = .inr () ∧
        Idle g others rest ds v ((recordsOf before).length + it.records.length) p')
      (Missed g others rest ds v name (it :: after)) := by
  have hpos := it.length_records_pos
  refine Yields.bind ((dirNext_spec hg hal h.hosting h.at').mono (fun _ _ hq ↦ hq) ?_)
    fun _ p' hq ↦ Yields.pure ⟨rfl, gBuf, gLen, gCrc, hq.1, ?_⟩
  · rintro e p' ⟨rfl, hend, hp, -, hsclust⟩
    refine ⟨rfl, fun it' hit ↦ ?_, ?_, gBuf, gLen, gCrc, hp⟩
    · obtain rfl : after = [] := hv.nothing_behind (by omega)
      rw [List.mem_singleton.mp hit]
      exact hmiss
    · rw [hsclust]
      exact h.at'.sclust
  · have hat := hq.2
    rwa [show (recordsOf before).length + it.records.length - 1 + 1 =
      (recordsOf before).length + it.records.length by omega] at hat

theorem searchRound_spec (hg : g.WellFormed) (hal : g.Aligned)
    (hv : Holds (v.records g ds) (before ++ after))
    (h : Idle g others rest ds v (recordsOf before).length p) :
    Yields (searchRound g name ()) p
      (fun r p' ↦ ∃ it after', after = it :: after' ∧ r.elim
        (fun loc ↦ it.Matches name ∧ Found g others rest ds v (recordsOf before).length it loc p')
        fun _ ↦ ¬ it.Matches name ∧
          Idle g others rest ds v ((recordsOf before).length + it.records.length) p')
      (Missed g others rest ds v name after) := by
  obtain ⟨s, d⟩ := p
  obtain ⟨gBuf, gLen, gCrc, hhost, hat⟩ := h
  refine Yields.bind (updateDir_spec hg hhost hat).sure ?_
  rintro _ ⟨s₁, d₁⟩ ⟨h₁, -⟩
  refine h₁.dirPtr ?_
  have hlt := h₁.at'.lt
  have hget := v.getElem?_records hlt
  change Yields (if (v.record g ds (recordsOf before).length).IsLast then _ else _) _ _ _
  cases after with
  | nil =>
      rw [List.append_nil] at hv
      refine Yields.ite (fun _ ↦ Yields.throw ⟨rfl, nofun, h₁.at'.sclust, gBuf, gLen, gCrc,
        h₁.hosting⟩) fun hno ↦ absurd (hv.isLast hget) hno
  | cons it after =>
      have hok : it.Ok := hv.ok it (List.mem_append_right _ List.mem_cons_self)
      have hfirst := hv.getElem? it.length_records_pos
      rw [Nat.add_zero, hget] at hfirst
      have hmem := List.mem_of_getElem? hfirst.symm
      refine Yields.ite (fun hlast ↦ absurd hlast (hok.not_last hmem)) fun _ ↦ ?_
      cases it with
      | free r =>
          obtain rfl : r = v.record g ds (recordsOf before).length :=
            (List.mem_singleton.mp hmem).symm
          refine Yields.ite (fun _ ↦ ?_) fun hno ↦ absurd (Or.inr hok) hno
          refine (leaveItem_spec hg hal hv id h₁).mono ?_ fun _ _ hE ↦ hE
          rintro _ p' ⟨rfl, hidle⟩
          exact ⟨_, after, rfl, id, hidle⟩
      | plain r =>
          obtain rfl : r = v.record g ds (recordsOf before).length :=
            (List.mem_singleton.mp hmem).symm
          refine Yields.ite (fun hfree ↦ absurd hfree hok.1) fun _ ↦ Yields.get_bind ?_
          refine Yields.ite (fun hlfn ↦ absurd hlfn hok.2) fun _ ↦ Yields.ite (fun hname ↦ ?_)
            fun hname ↦ ?_
          · refine Yields.pure ⟨_, after, rfl, hname, ?_, gBuf, gLen, gCrc, h₁⟩
            rw [← h₁.at'.sect, ← h₁.at'.idx]
          · refine (leaveItem_spec hg hal hv hname h₁).mono ?_ fun _ _ hE ↦ hE
            rintro _ p' ⟨rfl, hidle⟩
            exact ⟨_, after, rfl, hname, hidle⟩
      | long name' parts r =>
          obtain ⟨hused, hnotLfn, hspells⟩ := hok
          obtain ⟨hparts, hend, hlast⟩ := hv.records_long
          have hpos : 0 < parts.length := by
            rw [hspells.length]
            exact lfnCount_pos hspells.ne_nil
          have hhead := hparts 0 _ (List.getElem?_eq_getElem hpos)
          rw [Nat.add_zero] at hhead
          have hmem' := List.getElem_mem hpos
          refine Yields.ite (fun hfree ↦ absurd (hhead ▸ hfree) (hspells.used _ hmem')) fun _ ↦
            Yields.get_bind (Yields.ite (fun _ ↦ ?_) fun hno ↦
              absurd (hhead ▸ (hspells.lfn _ hmem').1) hno)
          refine Yields.bind (parseLfnName_spec hg hal h₁ hspells hparts hend).sure ?_
          rintro _ ⟨s₂, d₂⟩ ⟨gBuf₂, h₂, hparsed⟩
          refine h₂.dirPtr (Yields.get_bind ?_)
          obtain ⟨hcrc, hlen⟩ : s₂.gCrc = getCrc r.name ∧ s₂.gLen = name'.length :=
            ⟨congrArg Books.gCrc h₂.hosting.shows.books, congrArg Books.gLen h₂.hosting.shows.books⟩
          have hlast' : (v.scratch gBuf gLen gCrc |>.scratch gBuf₂ name'.length (getCrc r.name)).record
              g ds ((recordsOf before).length + parts.length) = r := hlast
          have hfound : Looking g others rest ds (v.scratch gBuf₂ name'.length (getCrc r.name))
              ((recordsOf before).length + (Item.long name' parts r).records.length - 1) (s₂, d₂) := by
            rw [Item.records, List.length_append, List.length_singleton]
            exact h₂
          rw [hlast']
          refine Yields.ite (fun hbad ↦ ?_) fun _ ↦ Yields.ite (fun hname ↦ ?_) fun hname ↦ ?_
          · rcases hbad with hbad | hbad | hbad
            · exact absurd hbad hused
            · exact absurd hbad hnotLfn
            · exact absurd hcrc hbad
          · refine Yields.pure ⟨_, after, rfl, hparsed.symm.trans hname.2, ?_, _, _, _, hfound⟩
            rw [← h₁.at'.sect, ← h₁.at'.idx]
          · have hmiss : ¬ (Item.long name' parts r).Matches name := by
              rintro rfl
              exact hname ⟨hlen, hparsed⟩
            refine (leaveItem_spec hg hal hv hmiss hfound).mono ?_ fun _ _ hE ↦ hE
            rintro _ p' ⟨rfl, hidle⟩
            exact ⟨_, after, rfl, hmiss, hidle⟩

/-- The chain of a directory has no more clusters than the volume. -/
theorem Hosting.recordsIn_le (h : Hosting g (ds :: others) (ds :: rest) s v) :
    g.recordsIn ds ≤ g.recordCnt := by
  have hsub : ds ⊆ List.range g.clustCnt := fun c hc ↦ List.mem_range.mpr (h.range c hc).2
  have hlen := (h.nodup.subperm hsub).length_le
  rw [List.length_range] at hlen
  exact Nat.mul_le_mul_left _ hlen

/-- `dir_search` delivers the first entry with this name, and fails only if there is none. -/
theorem dirSearch_spec (hg : g.WellFormed) (hal : g.Aligned)
    (h : Hosting g (ds :: others) (ds :: rest) s v) (hv : Holds (v.records g ds) items)
    (hd : ds.head? = some d.sclust) (name : List UInt8) :
    Yields (dirSearch g name) (s, d)
      (fun loc p ↦ ∃ before it after, items = before ++ it :: after ∧ lookup items name = some it ∧
        Found g others rest ds v (recordsOf before).length it loc p)
      (fun e p ↦ e = .code FAT_ERR_EOF ∧ lookup items name = none ∧ ds.head? = some p.2.sclust ∧
        ∃ gBuf gLen gCrc, Hosting g (ds :: others) (ds :: rest) p.1 (v.scratch gBuf gLen gCrc)) := by
  have hnone : ∀ {l : List Item}, (∀ it ∈ l, ¬ it.Matches name) → lookup l name = none := by
    intro l hl
    refine List.find?_eq_none.mpr fun it hit ↦ ?_
    rw [decide_eq_true_eq]
    exact hl it hit
  have hstart : Idle g others rest ds v 0
      (s, { d with clust := d.sclust, sect := g.clustToSect d.sclust, idx := 0 }) := by
    refine ⟨v.gBuf, v.gLen, v.gCrc, h, ?_⟩
    have hmem : d.sclust ∈ ds := List.mem_of_head? hd
    have hat := Dir.at_clust (d := d) (q := 0) hg (h.range _ hmem) hd
      (by rw [← List.head?_eq_getElem?]; exact hd)
    rwa [Nat.mul_zero] at hat
  refine Yields.get_bind (Yields.modify_bind ?_)
  refine Yields.iterate_of_variant (I := fun n (_ : Unit) p ↦ ∃ before after, items = before ++ after ∧
    (∀ it ∈ before, ¬ it.Matches name) ∧ Idle g others rest ds v (recordsOf before).length p ∧
    n + (recordsOf before).length = g.recordsIn ds) (k := g.recordsIn ds) ?_
    ⟨[], items, rfl, nofun, hstart, rfl⟩ (Nat.lt_succ_of_le h.recordsIn_le)
  rintro n ⟨⟩ p ⟨before, after, rfl, hbefore, hidle, hn⟩
  refine (searchRound_spec hg hal hv hidle).mono ?_ ?_
  · rintro r p' ⟨it, after', rfl, hr⟩
    have hpos := it.length_records_pos
    cases r with
    | inl loc =>
        refine ⟨before, it, after', rfl, ?_, hr.2⟩
        rw [lookup_append, hnone hbefore, Option.none_or]
        exact List.find?_cons_of_pos (decide_eq_true hr.1)
    | inr _ =>
        have hlen : (recordsOf (before ++ [it])).length =
            (recordsOf before).length + it.records.length := by
          rw [recordsOf_append, List.length_append, recordsOf_singleton]
        obtain ⟨gBuf, gLen, gCrc, hhost, hat⟩ := hr.2
        have hlt := hat.lt
        refine ⟨n - it.records.length, by omega, before ++ [it], after', ?_, ?_, ?_, ?_⟩
        · rw [List.append_assoc, List.singleton_append]
        · intro it' hit
          rcases List.mem_append.mp hit with hit | hit
          · exact hbefore it' hit
          · rw [List.mem_singleton.mp hit]
            exact hr.1
        · rw [hlen]
          exact hr.2
        · omega
  · rintro e p' ⟨he, hafter, hhead, hhost⟩
    refine ⟨he, ?_, hhead, hhost⟩
    rw [lookup_append, hnone hbefore, hnone hafter]
    rfl

end

end DemosOS.Fat32
