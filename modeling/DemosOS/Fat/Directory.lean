import DemosOS.Fat.Names
import DemosOS.Fat.Table

/-!
# Directories

The functions on a `Dir`, a position in the chain of clusters of a directory: moving it, looking for
a name (`dir_search`), creating an entry (`dir_add`), deleting one (`remove_entries`), and reading
one (`fat_dir_read`).

`dir_next` takes a sector whose number is a multiple of the size of a cluster for the first sector of
a cluster.
-/

namespace DemosOS.Fat32

open Lib

/-- An open directory; `fat` is the one volume that is mounted. -/
structure Dir where
  sclust : Nat
  clust : Nat
  sect : Nat
  idx : Nat
deriving DecidableEq, Repr

/-- Where the records of an entry begin. -/
structure Loc where
  sect : Nat
  idx : Nat
deriving DecidableEq, Repr

abbrev DirM := EStateM Failure (Fat × Dir)

/-- A change of the directory structure. -/
def modifyDir (f : Dir → Dir) : DirM PUnit := modify fun (s, dir) ↦ (s, f dir)

/-- `update_buf(dir->fat, dir->sect)`. -/
def updateDir : DirM PUnit := do onFirst (updateBuf (← get).2.sect)

/-- `*dir_ptr(dir)`. -/
def dirPtr : DirM Record := do
  let (s, dir) ← get
  return s.buf.record dir.idx

/-- A change of the record at `dir_ptr(dir)`. -/
def editDir (f : Record → Record) : DirM PUnit := do
  let (_, dir) ← get
  onFirst (editBuf fun b ↦ b.editRecord dir.idx f)

section

variable (g : Geometry)

/-! ## Moving -/

/-- `dir_at_clust`. -/
def dirAtClust (clust : Nat) : DirM PUnit :=
  modifyDir fun d ↦ { d with clust := clust, sect := g.clustToSect clust, idx := 0 }

/-- `dir_enter`. -/
def dirEnter (clust : Nat) : DirM PUnit := do
  let clust := if clust = 0 then g.rootClust else clust
  modifyDir fun d ↦ { d with sclust := clust }
  dirAtClust g clust

/-- `dir_next`. -/
def dirNext : DirM PUnit := do
  modifyDir fun d ↦ { d with idx := d.idx + 32 }
  if (← get).2.idx < 512 then return ⟨⟩
  else
    modifyDir fun d ↦ { d with idx := 0, sect := (d.sect + 1) % 2 ^ 32 }
    let dir := (← get).2
    if dir.sect &&& g.clustMsk ≠ 0 then return ⟨⟩
    else
      let (next, state) ← onFirst (getFat g dir.clust)
      if state = .bad ∨ state = .free then throw (.code FAT_ERR_BROKEN)
      else if state = .last then throw (.code FAT_ERR_EOF)
      else dirAtClust g next

/-- `dir_next_stretch`. -/
def dirNextStretch : DirM PUnit := do
  match ← attempt (dirNext g) with
  | .ok _ => return ⟨⟩
  | .error e =>
      if e ≠ .code FAT_ERR_EOF then throw e
      else
        let next ← onFirst (stretchChain g (← get).2.clust)
        dirAtClust g next
        onFirst (clustClear g (← get).2.clust)

/-! ## Names -/

/-- The loop over the characters of a record, which go to `g_buf` from `i` on. -/
def readChars (i : Nat) : List UInt8 → FatM PUnit
  | [] => return ⟨⟩
  | c :: chars => do
      if c = 0xff then throw (.code FAT_ERR_BROKEN)
      else if c = 0x00 then return ⟨⟩
      else
        modify fun s ↦ { s with gBuf := Function.update s.gBuf i c, gLen := s.gLen + 1 }
        readChars (i + 1) chars

/-- The loop of `parse_lfn_name`. -/
def readParts : Nat → DirM PUnit
  | 0 => return ⟨⟩
  | cnt + 1 => do
      let lfn ← dirPtr
      if ¬ lfn.IsLfn ∨ lfn.byte 13 ≠ (← get).1.gCrc then throw (.code FAT_ERR_BROKEN)
      else
        onFirst (readChars (13 * cnt) (lfnChars lfn))
        dirNext g
        updateDir
        readParts cnt

/-- `parse_lfn_name`. -/
def parseLfnName : DirM PUnit := do
  updateDir
  let lfn ← dirPtr
  onFirst (modify fun s ↦ { s with gCrc := lfn.byte 13, gLen := 0 })
  if lfn.byte 0 &&& LFN_HEAD_MSK = 0 then throw (.code FAT_ERR_BROKEN)
  else
    let cnt := (lfn.byte 0 &&& LFN_SEQ_MSK).toNat
    if cnt > 20 then throw (.code FAT_ERR_BROKEN)
    else
      readParts g cnt
      if (← get).1.gLen ≤ 255 then return ⟨⟩ else throw (.code FAT_ERR_BROKEN)

/-- What is in `g_buf`. -/
def Books.parsed (s : Books) : List UInt8 := (List.range s.gLen).map s.gBuf

/-! ## dir_search -/

/-- A round of the loop of `dir_search`; an entry that does not match ends with `dir_next`. -/
def searchRound (name : List UInt8) (_ : Unit) : DirM (Loc ⊕ Unit) := do
  updateDir
  let sfn ← dirPtr
  if sfn.IsLast then throw (.code FAT_ERR_EOF)
  else if sfn.IsFree then
    dirNext g
    return .inr ()
  else
    let dir := (← get).2
    let loc : Loc := ⟨dir.sect, dir.idx⟩
    if sfn.IsLfn then
      parseLfnName g
      let sfn ← dirPtr
      let s := (← get).1
      if sfn.IsFree ∨ sfn.IsLfn ∨ s.gCrc ≠ getCrc sfn.name then throw (.code FAT_ERR_BROKEN)
      else if s.gLen = name.length ∧ s.parsed = name then return .inl loc
      else
        dirNext g
        return .inr ()
    else if putSfnName name = sfn.name then return .inl loc
    else
      dirNext g
      return .inr ()

/-- A bound for the number of records of a chain. -/
def Geometry.recordCnt : Nat := 16 * 2 ^ g.clustShift * g.clustCnt

/-- `dir_search`: where the records of the entry begin; `dir` is left at the last of them. -/
def dirSearch (name : List UInt8) : DirM Loc := do
  dirAtClust g (← get).2.sclust
  iterate .fuel (searchRound g name) (g.recordCnt + 1) ()

/-! ## remove_entries -/

/-- `sfn->name[0] = SFN_FREE`. -/
def freeRecord (r : Record) : Record := r.setField 0 1 SFN_FREE.toNat

/-- `dir->clust = sect_to_clust(dir->fat, sect)`, and the other fields. -/
def rewindDir (sect idx : Nat) : DirM PUnit :=
  modifyDir fun d ↦ { d with clust := g.sectToClust sect, sect := sect, idx := idx }

/-- A round of the loop of `remove_entries`, up to the record at `sect` and `idx`. -/
def removeEntriesRound (sect idx : Nat) (_ : Unit) : DirM (Unit ⊕ Unit) := do
  updateDir
  editDir freeRecord
  let dir := (← get).2
  if dir.sect = sect ∧ dir.idx = idx then return .inl ()
  else
    dirNext g
    return .inr ()

/-- `remove_entries`. -/
def removeEntries (loc : Loc) : DirM Unit := do
  let dir := (← get).2
  rewindDir g loc.sect loc.idx
  iterate .fuel (removeEntriesRound g dir.sect dir.idx) (g.recordCnt + 1) ()

/-! ## dir_add -/

/-- The variables of the loop that looks for free records: `cnt`, `eod`, `sect` and `idx`. -/
structure Room where
  cnt : Nat
  eod : Bool
  sect : Nat
  idx : Nat

/-- A round of the loop of `dir_add` that looks for `need` free records. -/
def roomRound (need : Nat) (room : Room) : DirM (Room ⊕ Room) := do
  if room.cnt < need then
    updateDir
    let sfn ← dirPtr
    let dir := (← get).2
    let room : Room :=
      if room.eod ∨ sfn.IsFree then
        if room.cnt = 0 then { room with cnt := 1, sect := dir.sect, idx := dir.idx }
        else { room with cnt := room.cnt + 1 }
      else { room with cnt := 0 }
    let room : Room := if sfn.IsLast then { room with eod := true } else room
    dirNextStretch g
    return .inr room
  else return .inl room

/-- The loop of `dir_add` that writes the parts of the name, from part `i - 1` down. -/
def addParts (name : List UInt8) (crc : UInt8) : Nat → DirM PUnit
  | 0 => return ⟨⟩
  | i + 1 => do
      updateDir
      let mask := if i + 1 = lfnCount name then LFN_HEAD_MSK else 0
      editDir (lfnRecord (mask ||| UInt8.ofNat (i + 1)) crc (lfnPart name i))
      dirNext g
      addParts name crc i

/-- The record of an entry, as `dir_add` fills it. -/
def sfnRecord (sfnName : List UInt8) (attr clust date time : Nat) (r : Record) : Record :=
  let r : Record := r.patch 0 11 fun j ↦ sfnName.getD j 0
  let r : Record := (r.setField 20 2 (clust >>> 16)).setField 26 2 (clust &&& 0xffff)
  let r : Record := ((r.setField 11 1 attr).setField 12 1 0).setField 13 1 0
  let r : Record := (r.setField 14 2 time).setField 22 2 time
  let r : Record := ((r.setField 16 2 date).setField 24 2 date).setField 18 2 date
  r.setField 28 4 0

/-- `dir_add`. -/
def dirAdd (name : List UInt8) (attr clust : Nat) (ts : Timestamp) : DirM PUnit := do
  if name.length = 0 ∨ name.length > 255 then throw (.code FAT_ERR_PARAM)
  else
    dirEnter g (← get).2.sclust
    let room ← iterate .fuel (roomRound g (lfnCount name + 1)) (g.recordCnt + 1)
      { cnt := 0, eod := false, sect := 0, idx := 0 }
    when room.eod do
      updateDir
      editDir fun r ↦ r.setField 0 1 0
    rewindDir g room.sect room.idx
    let sfnName := putSfnName name
    addParts g name (getCrc sfnName) (lfnCount name)
    let (date, time) := encodeTimestamp ts
    updateDir
    editDir (sfnRecord sfnName attr clust date time)

end

end DemosOS.Fat32
