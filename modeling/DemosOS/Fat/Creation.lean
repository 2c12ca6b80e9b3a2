import DemosOS.Fat.Room

/-!
# Creating an entry

`dir_add` finds room, marks the end behind it if need be, and writes the records of the name and of
the entry.  Afterwards the directory has one entry more, which is found under this name only; every
other name leads to what it has led to before.
-/

namespace DemosOS.Fat32

open Lib

section

variable {g : Geometry} {others rest : List (List Nat)} {s : Fat} {v v' : Volume} {ds ds' : List Nat}
  {d : Dir} {k n attr clust date time : Nat} {p : Fat × Dir} {r : Record} {name sfnName : List UInt8}
  {crc : UInt8} {before after : List Record} {items : List Item} {ts : Timestamp}

/-! ## The record of an entry -/

theorem byte_sfnRecord {i : Nat} (h : i < 11) :
    (sfnRecord sfnName attr clust date time r).byte i = sfnName.getD i 0 := by
  have hbyte := Block.byte_patch_of_mem (s := r) (i := 0) (n := 11) (f := fun j ↦ sfnName.getD j 0)
    (by decide) h
  rw [Nat.zero_add] at hbyte
  unfold sfnRecord
  simp (disch := omega) only [Block.byte_setField_of_notMem]
  exact hbyte

theorem name_sfnRecord (h : sfnName.length = 11) :
    (sfnRecord sfnName attr clust date time r).name = sfnName := by
  have hmap : (sfnRecord sfnName attr clust date time r).name =
      (List.range 11).map fun i ↦ sfnName.getD i 0 :=
    List.map_congr_left fun i hi ↦ byte_sfnRecord (List.mem_range.mp hi)
  rw [hmap]
  refine List.ext_getElem ?_ fun i hi hi' ↦ ?_
  · rw [List.length_map, List.length_range, h]
  · rw [List.getElem_map, List.getElem_range, ← List.getElem_eq_getD]

theorem attr_sfnRecord (h : attr < 256) :
    (sfnRecord sfnName attr clust date time r).attr = attr := by
  have hfield : (sfnRecord sfnName attr clust date time r).field 11 1 = attr % 256 ^ 1 := by
    unfold sfnRecord
    simp (disch := decide) only [Block.field_setField_of_disjoint, Block.field_setField]
  rw [pow_one, Nat.mod_eq_of_lt h] at hfield
  exact hfield

theorem size_sfnRecord : (sfnRecord sfnName attr clust date time r).size = 0 :=
  Block.field_setField (by decide)

theorem cluster_sfnRecord (h : clust < 2 ^ 32) :
    (sfnRecord sfnName attr clust date time r).cluster = clust := by
  have hhigh : (sfnRecord sfnName attr clust date time r).field 20 2 = clust / 2 ^ 16 % 256 ^ 2 := by
    rw [← Nat.shiftRight_eq_div_pow]
    unfold sfnRecord
    simp (disch := decide) only [Block.field_setField_of_disjoint, Block.field_setField]
  have hlow : (sfnRecord sfnName attr clust date time r).field 26 2 =
      clust % 2 ^ 16 % 256 ^ 2 := by
    rw [← Nat.and_two_pow_sub_one_eq_mod clust 16]
    unfold sfnRecord
    simp (disch := decide) only [Block.field_setField_of_disjoint, Block.field_setField]
  have hlt : clust % 2 ^ 16 % 256 ^ 2 < 2 ^ 16 := by omega
  rw [Record.cluster, hhigh, hlow, ← Nat.shiftLeft_add_eq_or_of_lt hlt, Nat.shiftLeft_eq]
  omega

/-- The entry is in use, and it is not a part of a name. -/
theorem sfnRecord_used (hattr : attr < 256) (hlfn : attr ≠ FAT_ATTR_LFN) (name : List UInt8) :
    ¬ (sfnRecord (putSfnName name) attr clust date time r).IsFree ∧
      ¬ (sfnRecord (putSfnName name) attr clust date time r).IsLfn := by
  constructor
  · have hlen := length_putSfnName name
    have hmem : (putSfnName name).getD 0 0 ∈ putSfnName name := by
      rw [← List.getElem_eq_getD (h := by omega)]
      exact List.getElem_mem _
    rw [Record.IsFree, byte_sfnRecord (by decide)]
    exact not_or.mpr (putSfnName_used hmem)
  · rw [Record.IsLfn, attr_sfnRecord hattr]
    exact hlfn

/-! ## The parts of the name -/

theorem addParts_spec {room : List Record} (hg : g.WellFormed) (hal : g.Aligned)
    (h : Hosting g (ds :: others) (ds :: rest) s v) (hd : d.At g ds before.length)
    (hrecords : v.records g ds = before ++ (room ++ r :: after)) (hroom : room.length = n) :
    Yields (addParts g name crc n) (s, d)
      (fun _ p ↦ p.2.At g ds (before.length + n) ∧ ∃ v' parts, Stays g others rest v ds p.1 v' ds ∧
        v'.records g ds = before ++ (parts ++ r :: after) ∧ parts.length = n ∧
        ∀ t, ∀ r' ∈ parts[t]?, ∃ r₀, r' = lfnRecord
          ((if n - t = lfnCount name then LFN_HEAD_MSK else 0) ||| UInt8.ofNat (n - t)) crc
          (lfnPart name (n - 1 - t)) r₀) fun _ _ ↦ False := by
  induction n generalizing s d v before room with
  | zero =>
      obtain rfl := List.eq_nil_of_length_eq_zero hroom
      exact Yields.pure ⟨hd, v, [], .refl h, hrecords, rfl, nofun⟩
  | succ n ih =>
      obtain ⟨r₀, room, rfl⟩ := List.exists_cons_of_length_eq_add_one hroom
      have hlen := congrArg List.length hrecords
      rw [Volume.length_records, List.length_append, List.length_append, List.length_cons,
        List.length_cons] at hlen
      refine overwrite_bind hg h hd hrecords fun s₁ v₁ hstays₁ hrecords₁ ↦ ?_
      refine Yields.bind ((dirNext_spec hg hal hstays₁.hosting hd).mono (fun _ _ hq ↦ hq)
        fun e p' hE ↦ absurd hE.2.1 (by omega)) ?_
      rintro _ ⟨s₂, d₂⟩ ⟨h₂, hd₂⟩
      generalize hr₁ : lfnRecord ((if n + 1 = lfnCount name then LFN_HEAD_MSK else 0) |||
        UInt8.ofNat (n + 1)) crc (lfnPart name n) r₀ = r₁ at hrecords₁
      have hlen₁ : (before ++ [r₁]).length = before.length + 1 := by
        rw [List.length_append, List.length_singleton]
      have hrest : v₁.records g ds = (before ++ [r₁]) ++ (room ++ r :: after) := by
        rw [hrecords₁, List.append_assoc]
        rfl
      refine (ih h₂ (by rwa [hlen₁]) hrest (Nat.succ.inj hroom)).mono ?_ fun _ _ hE ↦ hE
      rintro _ p ⟨hat, v', parts, hstays', hrecords', hparts, hform⟩
      rw [hlen₁, Nat.add_assoc, Nat.add_comm 1] at hat
      refine ⟨hat, v', r₁ :: parts, hstays₁.trans ⟨hstays'.hosting, hstays'.pre, hstays'.free,
        hstays'.frame⟩, ?_, congrArg Nat.succ hparts, fun t r' hr' ↦ ?_⟩
      · rw [hrecords', List.append_assoc]
        rfl
      · cases t with
        | zero =>
            obtain rfl := Option.some.inj hr'
            exact ⟨r₀, hr₁.symm⟩
        | succ t =>
            obtain ⟨r₂, hr₂⟩ := hform t r' hr'
            refine ⟨r₂, ?_⟩
            rw [Nat.add_sub_add_right, Nat.add_sub_cancel, show n - (t + 1) = n - 1 - t by omega]
            exact hr₂

/-! ## dir_add -/

theorem dirEnter_spec {c : Nat} {E : Failure → Fat × Dir → Prop} (hg : g.WellFormed)
    (hc : 2 ≤ c ∧ c < g.clustCnt) (hhead : ds.head? = some c) :
    Yields (dirEnter g c) (s, d) (fun _ p ↦ p.1 = s ∧ p.2.At g ds 0) E := by
  have hat := Dir.at_clust (d := { d with sclust := c }) (q := 0) hg hc hhead
    (by rw [← List.head?_eq_getElem?]; exact hhead)
  rw [Nat.mul_zero] at hat
  have hne : ¬ c = 0 := by omega
  unfold dirEnter
  dsimp only
  rw [if_neg hne]
  exact Yields.modify_bind (Yields.modify ⟨rfl, hat⟩)

/-- What is behind the room that has been found. -/
theorem Room.At.split {room : Room} {need : Nat} {records : List Record}
    (h : room.At g ds records need k) (hcnt : room.cnt = need) (hneed : 0 < need)
    (hv : Holds records items) (hk : k < records.length) :
    ∃ (before : List Item) (rs : List Record) (after : List Item) (found : List Record) (r : Record)
      (behind : List Record), items = before ++ rs.map Item.free ++ after ∧
        (recordsOf before).length = k - need ∧ found.length = need ∧
        records = recordsOf before ++ (found ++ r :: behind) ∧
        (room.eod = true → after = []) ∧
        (room.eod = false → ∃ tail, r :: behind = recordsOf after ++ tail ∧
          ∀ r' ∈ tail.head?, r'.IsLast) := by
  obtain ⟨before, rs, after, hitems, hlen, hcase⟩ := h.exists_deleted hcnt hneed hv hk
  obtain ⟨tail, hsplit, htail⟩ := hv.split
  have hle := h.cnt_le
  have hrecords : records = recordsOf before ++ (rs ++ (recordsOf after ++ tail)) := by
    rw [hsplit, hitems, recordsOf_append, recordsOf_append, recordsOf_free, List.append_assoc,
      List.append_assoc]
  have hlength : need < (rs ++ (recordsOf after ++ tail)).length := by
    have hlen' := congrArg List.length hrecords
    rw [List.length_append] at hlen'
    omega
  refine ⟨before, rs, after, (rs ++ (recordsOf after ++ tail)).take need,
    (rs ++ (recordsOf after ++ tail))[need], (rs ++ (recordsOf after ++ tail)).drop (need + 1),
    hitems, hlen, ?_, ?_, fun heod ↦ ?_, fun heod ↦ ⟨tail, ?_, htail⟩⟩
  · rw [List.length_take]
    omega
  · rw [← List.drop_eq_getElem_cons hlength, List.take_append_drop]
    exact hrecords
  · rcases hcase with ⟨hno, -⟩ | ⟨-, -, hafter⟩
    · exact nomatch hno.symm.trans heod
    · exact hafter
  · rcases hcase with ⟨-, hrs⟩ | ⟨hyes, -⟩
    · rw [← List.drop_eq_getElem_cons hlength, ← hrs, List.drop_left]
    · exact nomatch hyes.symm.trans heod

/-- The end that `dir_add` writes behind the room. -/
theorem markEnd_spec {room : Room} {E : Failure → Fat × Dir → Prop} {behind : List Record}
    {after : List Item} (hg : g.WellFormed) (h : Hosting g (ds :: others) (ds :: rest) s v)
    (hd : d.At g ds before.length) (hrecords : v.records g ds = before ++ r :: behind)
    (hend : room.eod = true → after = [])
    (hgo : room.eod = false → ∃ tail, r :: behind = recordsOf after ++ tail ∧
      ∀ r' ∈ tail.head?, r'.IsLast) :
    Yields (when (room.eod = true) (updateDir >>= fun _ ↦ editDir fun r ↦ r.setField 0 1 0)) (s, d)
      (fun _ p ↦ p.2 = d ∧ ∃ (v' : Volume) (tail : List Record), Stays g others rest v ds p.1 v' ds ∧
        v'.records g ds = before ++ (recordsOf after ++ tail) ∧ ∀ r' ∈ tail.head?, r'.IsLast) E := by
  refine Yields.when (fun heod ↦ ?_) fun heod ↦ ?_
  · refine (overwrite_spec (E := E) hg h hd hrecords).mono ?_ fun _ _ hE ↦ hE
    rintro _ p ⟨hsame, -, v', hstays, hrecords'⟩
    refine ⟨hsame, v', r.setField 0 1 0 :: behind, hstays, ?_, fun r' hr' ↦ ?_⟩
    · rw [hend heod]
      exact hrecords'
    · obtain rfl := Option.some.inj hr'
      exact Block.byte_setField_one (c := 0) (by decide)
  · obtain ⟨tail, hsplit, htail⟩ := hgo (Bool.eq_false_iff.mpr heod)
    refine ⟨rfl, v, tail, .refl h, ?_, htail⟩
    rw [← hsplit]
    exact hrecords

/-- The records that `dir_add` has written are an entry. -/
theorem ok_long {parts : List Record} {r₀ : Record} (hname : Storable name) (hattr : attr < 256)
    (hlfn : attr ≠ FAT_ATTR_LFN) (hcount : parts.length = lfnCount name)
    (hparts : ∀ t, ∀ r ∈ parts[t]?, ∃ r₀, r = lfnRecord
      ((if lfnCount name - t = lfnCount name then LFN_HEAD_MSK else 0) |||
        UInt8.ofNat (lfnCount name - t)) (getCrc (putSfnName name))
      (lfnPart name (lfnCount name - 1 - t)) r₀) :
    (Item.long name parts (sfnRecord (putSfnName name) attr clust date time r₀)).Ok := by
  refine ⟨(sfnRecord_used hattr hlfn name).1, (sfnRecord_used hattr hlfn name).2, ?_⟩
  rw [name_sfnRecord (length_putSfnName name)]
  refine spells_of_lfnRecord hname hcount fun t r hr ↦ ?_
  obtain ⟨r₁, hr₁⟩ := hparts t r hr
  have hlt := (List.getElem?_eq_some_iff.mp hr).1
  have hfirst : lfnCount name - t = lfnCount name ↔ t = 0 := by omega
  refine ⟨r₁, hr₁.trans ?_⟩
  simp only [lfnSeq, hfirst]

/-- `dir_add` puts an entry in the place of deleted ones, or at the end.  It fails only if the directory
has to grow and no cluster can be had, and then nothing has been created. -/
theorem dirAdd_spec (hg : g.WellFormed) (hal : g.Aligned)
    (h : Hosting g (ds :: others) (ds :: rest) s v) (hv : Holds (v.records g ds) items)
    (hd : ds.head? = some d.sclust) (hname : Storable name) (hattr : attr < 256)
    (hlfn : attr ≠ FAT_ATTR_LFN) (hclust : clust < 2 ^ 32) :
    Yields (dirAdd g name attr clust ts) (s, d)
      (fun _ p ↦ ∃ (v' : Volume) (ds' : List Nat) (before : List Item) (rs : List Record)
        (after : List Item) (parts : List Record) (r : Record),
        Stays g others rest v ds p.1 v' ds' ∧ items = before ++ rs.map Item.free ++ after ∧
        Holds (v'.records g ds') (before ++ .long name parts r :: after) ∧
        r.attr = attr ∧ r.cluster = clust ∧ r.size = 0 ∧
        Looking g others rest ds' v' ((recordsOf before).length + parts.length) p)
      (fun e p ↦ e = .code FAT_ERR_FULL ∧ ∃ (v' : Volume) (ds' : List Nat),
        Stays g others rest v ds p.1 v' ds' ∧ Holds (v'.records g ds') items) := by
  have hmem : d.sclust ∈ ds := List.mem_of_head? hd
  have hpos := List.length_pos_of_ne_nil hname.ne_nil
  have hle := hname.length_le
  refine Yields.ite (fun hbad ↦ absurd hbad (by omega)) fun _ ↦ Yields.get_bind ?_
  refine Yields.bind (dirEnter_spec hg (h.range _ hmem) hd) ?_
  rintro _ ⟨s₀, d₀⟩ ⟨hsame, hat₀⟩
  obtain rfl : s₀ = s := hsame
  have hstart : Surveying g others rest v ds (lfnCount name + 1) 0
      { cnt := 0, eod := false, sect := 0, idx := 0 } (s₀, d₀) := by
    refine ⟨v, ds, 0, .refl h, hat₀, (List.append_nil _).symm, Nat.le_refl 0, Nat.zero_le _,
      fun j _ hj ↦ absurd hj (Nat.not_lt_zero j), Or.inl rfl, ?_, nofun⟩
    exact ⟨nofun, fun ⟨i, hi, _⟩ ↦ absurd hi (Nat.not_lt_zero i)⟩
  refine Yields.bind ((roomLoop_spec hg hal hstart).mono (fun _ _ hq ↦ hq) ?_) ?_
  · rintro e p ⟨rfl, v', ds', m, hstays, hrecords⟩
    refine ⟨rfl, v', ds', hstays, ?_⟩
    rw [hrecords]
    exact hv.append_blank Record.isLast_blank m
  rintro room ⟨s₁, d₁⟩ ⟨hcnt, k, ⟨v₁, ds₁, m, hstays₁, hat₁, hrecords₁, hroom⟩⟩
  have hv₁ : Holds (v₁.records g ds₁) items := by
    rw [hrecords₁]
    exact hv.append_blank Record.isLast_blank m
  have hk := hat₁.lt
  obtain ⟨before, rs, after, found, r, behind, hitems, hlen, hfound, hsplit, hend, hgo⟩ :=
    hroom.split hcnt (Nat.succ_pos _) hv₁ (by rw [Volume.length_records]; exact hk)
  have hle' := hroom.cnt_le
  have hplace := hroom.place (by omega)
  have hbefore : (recordsOf before ++ found).length = k := by
    rw [List.length_append]
    omega
  -- the end behind the room
  refine Yields.bind (markEnd_spec hg hstays₁.hosting (by rwa [hbefore])
    (hsplit.trans (List.append_assoc ..).symm) hend hgo) ?_
  rintro _ ⟨s₂, d₂⟩ ⟨hsame, v₂, tail, hstays₂, hrecords₂, htail⟩
  obtain rfl : d₂ = d₁ := hsame
  obtain ⟨hsect, hidx⟩ := hplace
  have hat₂ := Dir.at_loc hg hstays₂.hosting.range hat₁.sclust (k := k - room.cnt) (by omega)
  rw [← hsect, ← hidx, hcnt, ← hlen] at hat₂
  refine Yields.modify_bind ?_
  -- the parts of the name
  obtain ⟨found, x, rfl⟩ : ∃ xs x, found = xs ++ [x] := by
    have hne : found ≠ [] := by
      rintro rfl
      exact nomatch hfound
    exact ⟨found.dropLast, found.getLast hne, (List.dropLast_append_getLast hne).symm⟩
  rw [List.length_append, List.length_singleton] at hfound
  rw [List.append_assoc, List.append_assoc, List.singleton_append] at hrecords₂
  refine Yields.bind (addParts_spec hg hal hstays₂.hosting hat₂ hrecords₂ (Nat.succ.inj hfound)).sure
    ?_
  rintro _ ⟨s₃, d₃⟩ ⟨hat₃, v₃, parts, hstays₃, hrecords₃, hparts, hform⟩
  have hplace₃ : (recordsOf before ++ parts).length = (recordsOf before).length + lfnCount name := by
    rw [List.length_append, hparts]
  -- the entry
  refine (overwrite_spec hg hstays₃.hosting (by rwa [hplace₃])
    (hrecords₃.trans (List.append_assoc ..).symm)).mono ?_ fun _ _ hE ↦ hE
  rintro _ ⟨s₄, d₄⟩ ⟨hsame, hload, v₄, hstays₄, hrecords₄⟩
  obtain rfl : d₄ = d₃ := hsame
  refine ⟨v₄, ds₁, before, rs, after, parts, sfnRecord (putSfnName name) attr clust
    (encodeTimestamp ts).1 (encodeTimestamp ts).2 x, ?_, hitems, ?_, attr_sfnRecord hattr,
    cluster_sfnRecord hclust, size_sfnRecord, ⟨hstays₄.hosting, ?_, hload⟩⟩
  · exact hstays₁.trans (hstays₂.trans (hstays₃.trans hstays₄))
  · generalize hr : sfnRecord (putSfnName name) attr clust (encodeTimestamp ts).1
      (encodeTimestamp ts).2 x = r₁
    have hok : (Item.long name parts r₁).Ok := hr ▸ ok_long hname hattr hlfn hparts hform
    have hholds : Holds _ (before ++ [.long name parts r₁] ++ after) :=
      (hitems ▸ hv).replace (fun it hit ↦ List.mem_singleton.mp hit ▸ hok) htail
    rw [recordsOf_singleton, List.append_assoc before, List.singleton_append] at hholds
    convert hholds using 1
    rw [← hr, hrecords₄, List.append_assoc, Item.records, List.append_assoc]
    rfl
  · rwa [hparts]

end

end DemosOS.Fat32
