import DemosOS.Fat.Bindings

/-!
# Listing a directory

`fat_dir_read` passes over deleted records and delivers the entry behind them, with its long name if it
has one; `fat_dir_next` goes on from there.  Called in turn they deliver the entries of a directory one
after the other, and then the end.
-/

namespace DemosOS.Fat32

open Lib

/-- What is told about an entry; `name_len` is the length of the name. -/
structure DirInfo where
  created : Timestamp
  modified : Timestamp
  size : Nat
  attr : Nat
  name : List UInt8
deriving DecidableEq, Repr

/-- What `fat_dir_read` reads from the record of an entry. -/
def DirInfo.ofRecord (name : List UInt8) (sfn : Record) : DirInfo where
  created := decodeTimestamp (sfn.field 16 2) (sfn.field 14 2)
  modified := decodeTimestamp (sfn.field 24 2) (sfn.field 22 2)
  size := sfn.size
  attr := sfn.attr
  name := name

/-- The name of `parse_sfn_name` is put into `g_buf`. -/
def storeName (name : List UInt8) : FatM PUnit :=
  modify fun s ↦ { s with gBuf := fillFrom s.gBuf 0 name, gLen := name.length }

section

variable (g : Geometry)

/-- A round of the loop of `fat_dir_read`. -/
def readDirRound (_ : Unit) : DirM (DirInfo ⊕ Unit) := do
  updateDir
  let sfn ← dirPtr
  if sfn.IsLast then throw (.code FAT_ERR_EOF)
  else if sfn.IsFree then
    dirNext g
    return .inr ()
  else if sfn.IsLfn then
    parseLfnName g
    updateDir
    let sfn ← dirPtr
    let s := (← get).1
    -- unlike in `dir_search`, one more part of a name is not an error here
    if sfn.IsFree ∨ s.gCrc ≠ getCrc sfn.name then throw (.code FAT_ERR_BROKEN)
    else return .inl (.ofRecord s.parsed sfn)
  else
    onFirst (storeName (parseSfnName sfn.name))
    return .inl (.ofRecord (← get).1.parsed sfn)

/-- `fat_dir_read`. -/
def fatDirRead : DirM DirInfo := iterate .fuel (readDirRound g) (g.recordCnt + 1) ()

/-- `fat_dir_next`. -/
def fatDirNext : DirM PUnit := dirNext g

/-- Both calls, as `syscall_get_next_entry` makes them. -/
inductive ListStep : DirInfo → Fat × Dir → Fat × Dir → Prop
  | entry {info : DirInfo} {p p₁ p' : Fat × Dir} (hread : fatDirRead g p = .ok info p₁)
      (hnext : fatDirNext g p₁ = .ok ⟨⟩ p') : ListStep info p p'

end

/-- What is told about an item. -/
def Item.info? : Item → Option DirInfo
  | .free _ => none
  | .plain r => some (.ofRecord (parseSfnName r.name) r)
  | .long name _ r => some (.ofRecord name r)

/-- The records of `it` begin at place `k`, and the directory is at the last of them. -/
def AtEntry (g : Geometry) (others rest : List (List Nat)) (ds : List Nat) (v : Volume) (k : Nat)
    (it : Item) (p : Fat × Dir) : Prop :=
  ∃ gBuf gLen gCrc, Looking g others rest ds (v.scratch gBuf gLen gCrc)
    (k + it.records.length - 1) p

section

variable {g : Geometry} {others rest : List (List Nat)} {s : Fat} {v : Volume} {ds : List Nat}
  {d : Dir} {p p' : Fat × Dir} {name : List UInt8} {it : Item} {before after items : List Item}
  {infos : List DirInfo}

/-! ## Reading an entry -/

theorem parsed_storeName (b : Books) (name : List UInt8) :
    Books.parsed { b with gBuf := fillFrom b.gBuf 0 name, gLen := name.length } = name := by
  refine Books.parsed_eq rfl fun q hq ↦ ?_
  change fillFrom b.gBuf 0 name q = _
  rw [fillFrom, if_pos ⟨Nat.zero_le q, by omega⟩, Nat.sub_zero]

theorem readDirRound_spec (hg : g.WellFormed) (hal : g.Aligned)
    (hv : Holds (v.records g ds) (before ++ after))
    (h : Idle g others rest ds v (recordsOf before).length p) :
    Yields (readDirRound g ()) p
      (fun r p' ↦ ∃ it after', after = it :: after' ∧ r.elim
        (fun info ↦ it.info? = some info ∧ AtEntry g others rest ds v (recordsOf before).length it p')
        fun _ ↦ it.info? = none ∧
          Idle g others rest ds v ((recordsOf before).length + it.records.length) p')
      (fun e _ ↦ e = .code FAT_ERR_EOF ∧ ∀ it ∈ after, it.info? = none) := by
  obtain ⟨s, d⟩ := p
  obtain ⟨gBuf, gLen, gCrc, hhost, hat⟩ := h
  refine Yields.bind (updateDir_spec hg hhost hat).sure ?_
  rintro _ ⟨s₁, d₁⟩ ⟨h₁, -⟩
  refine h₁.dirPtr ?_
  have hget := v.getElem?_records h₁.at'.lt
  change Yields (if (v.record g ds (recordsOf before).length).IsLast then _ else _) _ _ _
  cases after with
  | nil =>
      rw [List.append_nil] at hv
      refine Yields.ite (fun _ ↦ Yields.throw ⟨rfl, fun it hit ↦ absurd hit List.not_mem_nil⟩)
        fun hno ↦ absurd (hv.isLast hget) hno
  | cons it after =>
      have hok : it.Ok := hv.ok it (List.mem_append_right _ List.mem_cons_self)
      have hfirst := hv.getElem? it.length_records_pos
      rw [Nat.add_zero, hget] at hfirst
      have hmem := List.mem_of_getElem? hfirst.symm
      refine Yields.ite (fun hlast ↦ absurd hlast (hok.not_last hmem)) fun _ ↦ ?_
      cases it with
      | free r =>
          obtain rfl : r = v.record g ds (recordsOf before).length :=
            (List.mem_singleton.mp hmem).symm
          refine Yields.ite (fun _ ↦ ?_) fun hno ↦ absurd (Or.inr hok) hno
          refine Yields.bind ((dirNext_spec hg hal h₁.hosting h₁.at').mono (fun _ _ hq ↦ hq) ?_) ?_
          · rintro e p' ⟨rfl, hend, -⟩
            obtain rfl : after = [] := hv.nothing_behind hend
            refine ⟨rfl, fun it hit ↦ ?_⟩
            rw [List.mem_singleton.mp hit]
            rfl
          · rintro _ p' ⟨hp, hat'⟩
            exact Yields.pure ⟨_, after, rfl, rfl, gBuf, gLen, gCrc, hp, hat'⟩
      | plain r =>
          obtain rfl : r = v.record g ds (recordsOf before).length :=
            (List.mem_singleton.mp hmem).symm
          refine Yields.ite (fun hfree ↦ absurd hfree hok.1) fun _ ↦
            Yields.ite (fun hlfn ↦ absurd hlfn hok.2) fun _ ↦ ?_
          have h₂ := h₁.scratch (fillFrom s₁.gBuf 0 (parseSfnName (v.record g ds
            (recordsOf before).length).name)) (parseSfnName (v.record g ds
            (recordsOf before).length).name).length s₁.gCrc
          refine Yields.bind (Q := fun _ p' ↦ p'.1.parsed = parseSfnName (v.record g ds
            (recordsOf before).length).name ∧ AtEntry g others rest ds v (recordsOf before).length
              (.plain (v.record g ds (recordsOf before).length)) p')
            (Yields.onFirst (Yields.modify ⟨parsed_storeName _ _, _, _, _, h₂⟩)) ?_
          rintro _ ⟨s₂, d₂⟩ ⟨hparsed, hat₂⟩
          refine Yields.get_bind (Yields.pure ⟨_, after, rfl, ?_, hat₂⟩)
          exact congrArg (fun name ↦ some (DirInfo.ofRecord name _)) hparsed.symm
      | long name parts r =>
          obtain ⟨hused, hnotLfn, hspells⟩ := hok
          obtain ⟨hparts, hend, hlast⟩ := hv.records_long
          have hpos : 0 < parts.length := by
            rw [hspells.length]
            exact lfnCount_pos hspells.ne_nil
          have hhead := hparts 0 _ (List.getElem?_eq_getElem hpos)
          rw [Nat.add_zero] at hhead
          have hmem' := List.getElem_mem hpos
          refine Yields.ite (fun hfree ↦ absurd (hhead ▸ hfree) (hspells.used _ hmem')) fun _ ↦
            Yields.ite (fun _ ↦ ?_) fun hno ↦ absurd (hhead ▸ (hspells.lfn _ hmem').1) hno
          refine Yields.bind (parseLfnName_spec hg hal h₁ hspells hparts hend).sure ?_
          rintro _ ⟨s₂, d₂⟩ ⟨gBuf₂, h₂, hparsed⟩
          refine Yields.bind (updateDir_spec hg h₂.hosting h₂.at').sure ?_
          rintro _ ⟨s₃, d₃⟩ ⟨h₃, -⟩
          have hbooks : s₃.toBooks = s₂.toBooks :=
            h₃.hosting.shows.books.trans h₂.hosting.shows.books.symm
          have hcrc : s₃.gCrc = getCrc r.name := congrArg Books.gCrc h₃.hosting.shows.books
          refine h₃.dirPtr (Yields.get_bind ?_)
          have hlast' : (v.scratch gBuf gLen gCrc |>.scratch gBuf₂ name.length (getCrc r.name)).record
              g ds ((recordsOf before).length + parts.length) = r := hlast
          rw [hlast']
          refine Yields.ite (fun hbad ↦ ?_) fun _ ↦ Yields.pure ⟨_, after, rfl, ?_,
            gBuf₂, name.length, getCrc r.name, ?_⟩
          · rcases hbad with hbad | hbad
            · exact absurd hbad hused
            · exact absurd hcrc hbad
          · have hname : s₃.parsed = name := (congrArg Books.parsed hbooks).trans hparsed
            exact congrArg (fun name ↦ some (DirInfo.ofRecord name r)) hname.symm
          · rw [Item.records, List.length_append]
            exact h₃

/-- `fat_dir_read` delivers the next entry, and fails only if there is none. -/
theorem fatDirRead_spec (hg : g.WellFormed) (hal : g.Aligned)
    (hv : Holds (v.records g ds) (before ++ after))
    (h : Idle g others rest ds v (recordsOf before).length p) :
    Yields (fatDirRead g) p
      (fun info p' ↦ ∃ skipped it after', after = skipped ++ it :: after' ∧
        (∀ it ∈ skipped, it.info? = none) ∧ it.info? = some info ∧
        AtEntry g others rest ds v (recordsOf (before ++ skipped)).length it p')
      (fun e _ ↦ e = .code FAT_ERR_EOF ∧ ∀ it ∈ after, it.info? = none) := by
  obtain ⟨gBuf, gLen, gCrc, hhost, hat⟩ := id h
  have hlt := hat.lt
  refine Yields.iterate_of_variant (I := fun n (_ : Unit) p ↦ ∃ skipped after',
    after = skipped ++ after' ∧ (∀ it ∈ skipped, it.info? = none) ∧
    Idle g others rest ds v (recordsOf (before ++ skipped)).length p ∧
    n + (recordsOf (before ++ skipped)).length = g.recordsIn ds)
    (k := g.recordsIn ds - (recordsOf before).length) ?_
    ⟨[], after, rfl, fun it hit ↦ absurd hit List.not_mem_nil, ?_, ?_⟩ ?_
  · rintro n ⟨⟩ p ⟨skipped, after', rfl, hskipped, hidle, hn⟩
    rw [← List.append_assoc] at hv
    refine (readDirRound_spec hg hal hv hidle).mono ?_ ?_
    · rintro r p' ⟨it, after'', rfl, hr⟩
      have hpos := it.length_records_pos
      cases r with
      | inl info => exact ⟨skipped, it, after'', rfl, hskipped, hr⟩
      | inr _ =>
          have hlen : (recordsOf (before ++ (skipped ++ [it]))).length =
              (recordsOf (before ++ skipped)).length + it.records.length := by
            rw [← List.append_assoc, recordsOf_append, List.length_append, recordsOf_singleton]
          obtain ⟨hnone, gBuf, gLen, gCrc, hhost, hat⟩ := hr
          have hlt := hat.lt
          refine ⟨n - it.records.length, by omega, skipped ++ [it], after'', ?_, ?_, ?_, ?_⟩
          · rw [List.append_assoc, List.singleton_append]
          · intro it' hit
            rcases List.mem_append.mp hit with hit | hit
            · exact hskipped it' hit
            · rw [List.mem_singleton.mp hit]
              exact hnone
          · rw [hlen]
            exact ⟨gBuf, gLen, gCrc, hhost, hat⟩
          · omega
    · rintro e p' ⟨he, hafter⟩
      refine ⟨he, fun it hit ↦ ?_⟩
      rcases List.mem_append.mp hit with hit | hit
      · exact hskipped it hit
      · exact hafter it hit
  · rw [List.append_nil]
    exact h
  · rw [List.append_nil]
    exact Nat.sub_add_cancel hlt.le
  · have hle := hhost.recordsIn_le
    omega

/-- To the record behind an entry. -/
theorem fatDirNext_spec (hg : g.WellFormed) (hal : g.Aligned)
    (h : AtEntry g others rest ds v (recordsOf before).length it p) :
    Yields (fatDirNext g) p
      (fun _ p' ↦ Idle g others rest ds v (recordsOf (before ++ [it])).length p')
      (fun e _ ↦ e = .code FAT_ERR_EOF) := by
  obtain ⟨gBuf, gLen, gCrc, hlook⟩ := h
  have hpos := it.length_records_pos
  refine (dirNext_spec hg hal hlook.hosting hlook.at').mono ?_ fun e p' hE ↦ hE.1
  rintro _ p' ⟨hp, hat⟩
  rw [recordsOf_append, recordsOf_singleton, List.length_append]
  rw [show (recordsOf before).length + it.records.length - 1 + 1 =
    (recordsOf before).length + it.records.length by omega] at hat
  exact ⟨gBuf, gLen, gCrc, hp, hat⟩

/-! ## Listing -/

theorem filterMap_skipped {skipped : List Item} (h : ∀ it ∈ skipped, it.info? = none) :
    skipped.filterMap Item.info? = [] := List.filterMap_eq_nil_iff.mpr h

/-- What has been delivered are the entries in front of the directory. -/
theorem ListStep.delivers (hg : g.WellFormed) (hal : g.Aligned)
    (hv : Holds (v.records g ds) (before ++ after))
    (h : Idle g others rest ds v (recordsOf before).length p)
    (hrun : Trace (ListStep g) infos p p') :
    ∃ shown hidden, after = shown ++ hidden ∧ infos = shown.filterMap Item.info? ∧
      Idle g others rest ds v (recordsOf (before ++ shown)).length p' := by
  induction hrun generalizing before after with
  | nil p =>
      refine ⟨[], after, rfl, rfl, ?_⟩
      rw [List.append_nil]
      exact h
  | @cons info infos p p₂ p' hstep _ ih =>
      obtain ⟨hread, hnext⟩ := hstep
      obtain ⟨skipped, it, after', rfl, hskipped, hinfo, hat⟩ :=
        (fatDirRead_spec hg hal hv h).ok hread
      have hidle := (fatDirNext_spec hg hal hat).ok hnext
      have hsplit : before ++ (skipped ++ it :: after') = (before ++ skipped ++ [it]) ++ after' := by
        simp only [List.append_assoc, List.singleton_append]
      rw [hsplit] at hv
      obtain ⟨shown, hidden, rfl, rfl, hidle'⟩ := ih hv hidle
      refine ⟨skipped ++ it :: shown, hidden, ?_, ?_, ?_⟩
      · rw [List.append_assoc, List.cons_append]
      · rw [List.filterMap_append, filterMap_skipped hskipped, List.nil_append,
          List.filterMap_cons_some hinfo]
      · rw [List.append_assoc, List.append_assoc, List.singleton_append] at hidle'
        exact hidle'

end

end DemosOS.Fat32
