import DemosOS.Fat.Table
import DemosOS.Fat.Records

/-!
# Open files

The functions on a `File`: `fat_file_seek`, `fat_file_read`, `fat_file_write`, `fat_file_sync`, and
the end of `fat_file_open`, which fills the structure from a directory entry.

A file has a sector of its own in memory, and goes past the sector of the volume: it reads and writes
the card directly.  After every call its sector is the one at `offset`, so that a read or a write that
has come to the end of a cluster already asks for the next cluster, and allocates it if there is none.
-/

namespace DemosOS.Fat32

open Lib

def FAT_READ : Nat := 0x02

def FAT_WRITE : Nat := 0x01

def FAT_APPEND : Nat := 0x04

def FAT_TRUNC : Nat := 0x08

/-- The fields of a `File` that do not depend on the position in it; `fat` is the one volume that is
mounted. -/
structure Handle where
  dirSect : Nat
  dirIdx : Nat
  sclust : Nat
  size : Nat
  attr : Nat
  /-- The flags that the caller of `fat_file_open` has given. -/
  flags : Nat
  /-- `FAT_ACCESSED`. -/
  accessed : Bool
  /-- `FAT_MODIFIED`. -/
  modified : Bool

/-- An open file. -/
structure File extends Handle where
  clust : Nat
  sect : Nat
  offset : Nat
  /-- `FAT_FILE_DIRTY`. -/
  dirty : Bool
  buf : Sector

abbrev FileM := EStateM Failure (Fat × File)

/-- A change of the file structure. -/
def modifyFile (f : File → File) : FileM PUnit := modify fun (s, file) ↦ (s, f file)

/-- `FAT_SEEK_START`, `FAT_SEEK_CURR` and `FAT_SEEK_END`. -/
inductive Seek
  | fromStart
  | fromCurr
  | fromEnd
deriving DecidableEq, Repr

/-- The offset that is asked for, `off64`. -/
def File.target (f : File) (offset : Int) : Seek → Int
  | .fromStart => offset
  | .fromCurr => f.offset + offset
  | .fromEnd => f.size + offset

section

variable (g : Geometry)

/-- The size of a cluster in bytes. -/
def Geometry.clustSize : Nat := 512 <<< g.clustShift

/-! ## fat_file_seek -/

/-- The scan begins with the first cluster again. -/
def restartScan : FileM PUnit :=
  modifyFile fun f ↦ { f with clust := f.sclust, sect := g.clustToSect f.sclust, offset := 0 }

/-- A round of the loop of `fat_file_seek`: the next cluster of the chain, which grows if there is
none. -/
def followClust : FileM PUnit := do
  let f := (← get).2
  let (next, state) ← onFirst (getFat g f.clust)
  if state = .bad ∨ state = .free then throw (.code FAT_ERR_BROKEN)
  else if state = .last then
    let next ← onFirst (stretchChain g f.clust)
    modifyFile fun f ↦ { f with clust := next }
  else modifyFile fun f ↦ { f with clust := next }

/-- The place in the cluster. -/
def placeAt (off : Nat) : FileM PUnit :=
  modifyFile fun f ↦ { f with
    sect := (g.clustToSect f.clust + ((off / 512) &&& g.clustMsk)) % 2 ^ 32
    offset := off }

/-- The sector in memory is written back, and the one at `sect` is read. -/
def switchSect (ssect : Nat) : FileM PUnit := do
  let f := (← get).2
  when f.dirty do
    if ← onFirst (opsWrite f.buf ssect) then modifyFile fun f ↦ { f with dirty := false }
    else throw (.code FAT_ERR_IO)
  match ← onFirst (opsRead f.sect) with
  | none => throw (.code FAT_ERR_IO)
  | some block => modifyFile fun f ↦ { f with buf := block }

/-- `fat_file_seek` behind the check of the offset. -/
def seekTo (off : Nat) : FileM PUnit := do
  let f := (← get).2
  let ssect := f.sect
  when (off / g.clustSize < f.offset / g.clustSize) (restartScan g)
  let f := (← get).2
  times (followClust g) (off / g.clustSize - f.offset / g.clustSize)
  placeAt g off
  let f := (← get).2
  when (f.sect ≠ ssect) (switchSect ssect)

/-- `fat_file_seek`. -/
def fatFileSeek (offset : Int) (seek : Seek) : FileM PUnit := do
  let off64 := (← get).2.target offset seek
  if off64 < 0 ∨ off64 > 0xffffffff then throw (.code FAT_ERR_EOF)
  else seekTo g off64.toNat

/-! ## fat_file_read and fat_file_write -/

/-- The bytes of a sector from `i` on. -/
def Sector.slice (b : Sector) (i n : Nat) : List UInt8 := (List.range n).map fun j ↦ b.byte (i + j)

/-- Bytes are copied into a sector. -/
def Sector.splice (b : Sector) (i : Nat) (src : List UInt8) : Sector :=
  b.patch i src.length fun j ↦ src.getD j 0

/-- A round of the loop of `fat_file_read`; the variables are `len` and what has been delivered. -/
def readRound : Nat × List UInt8 → FileM ((List UInt8 × Except Failure Unit) ⊕ (Nat × List UInt8))
  | (len, bytes) => do
      let f := (← get).2
      if len ≠ 0 ∧ f.offset < f.size then
        let idx := f.offset % 512
        let cnt := min len (min (512 - idx) (f.size - f.offset))
        let bytes := bytes ++ f.buf.slice idx cnt
        match ← attempt (fatFileSeek g cnt .fromCurr) with
        | .error e => return .inl (bytes, .error e)
        | .ok _ => return .inr (len - cnt, bytes)
      else return .inl (bytes, .ok ⟨⟩)

/-- `fat_file_read`: the bytes that it delivers, and the error that it returns. -/
def fatFileRead (len : Nat) : FileM (List UInt8 × Except Failure Unit) := do
  let f := (← get).2
  if f.flags &&& FAT_READ = 0 then return ([], .error (.code FAT_ERR_DENIED))
  else
    modifyFile fun f ↦ { f with accessed := true }
    iterate .fuel (readRound g) (len + 1) (len, [])

/-- A round of the loop of `fat_file_write`; the variables are what is left of `src`, and `*bytes`. -/
def writeRound : List UInt8 × Nat → FileM (Nat ⊕ (List UInt8 × Nat))
  | (src, bytes) => do
      let f := (← get).2
      if src ≠ [] then
        let idx := f.offset % 512
        let cnt := min src.length (512 - idx)
        modifyFile fun f ↦ { f with buf := f.buf.splice idx (src.take cnt), dirty := true }
        match ← attempt (fatFileSeek g cnt .fromCurr) with
        | .error _ => return .inl (bytes + cnt)
        | .ok _ => return .inr (src.drop cnt, bytes + cnt)
      else return .inl bytes

/-- `fat_file_write`: the number of bytes that it reports.  An error of a seek ends the loop and is
not returned. -/
def fatFileWrite (src : List UInt8) : FileM (Nat × Except Failure Unit) := do
  let f := (← get).2
  if f.flags &&& FAT_WRITE = 0 then return (0, .error (.code FAT_ERR_DENIED))
  else
    modifyFile fun f ↦ { f with modified := true, accessed := true }
    let bytes ← iterate .fuel (writeRound g) (src.length + 1) (src, 0)
    modifyFile fun f ↦ { f with size := if f.offset > f.size then f.offset else f.size }
    return (bytes, .ok ⟨⟩)

/-! ## fat_file_sync and fat_file_open -/

/-- `fat_file_sync`, and `fat_file_close`. -/
def fatFileSync (ts : Timestamp) : FileM PUnit := do
  let f := (← get).2
  if ← onFirst (opsWrite f.buf f.sect) then
    when (f.accessed ∨ f.modified) do
      onFirst (updateBuf f.dirSect)
      onFirst (editBuf fun b ↦ b.editRecord f.dirIdx (stampEntry f.size f.accessed f.modified ts))
    onFirst (syncFs g)
    modifyFile fun f ↦ { f with accessed := false, modified := false }
  else throw (.code FAT_ERR_IO)

/-- The file structure that `fat_file_open` fills from the entry at `dir`, which is in memory. -/
def File.ofEntry (dirSect dirIdx flags : Nat) (entry : Record) (buf : Sector) : File where
  dirSect := dirSect
  dirIdx := dirIdx
  sclust := entry.cluster
  clust := entry.cluster
  sect := 0xffffffff
  size := if entry.size ≠ 0 ∧ flags &&& FAT_TRUNC ≠ 0 then 0 else entry.size
  offset := 0
  attr := entry.attr
  flags := flags
  accessed := false
  modified := decide (entry.size ≠ 0 ∧ flags &&& FAT_TRUNC ≠ 0)
  dirty := false
  buf := buf

/-- The end of `fat_file_open`, for the entry at `dirIdx` of the sector in memory, and a structure
whose `buf` holds anything. -/
def openEntry (dirSect dirIdx flags : Nat) : FileM PUnit := do
  let (s, f) ← get
  modifyFile fun _ ↦ (File.ofEntry dirSect dirIdx flags (s.buf.record dirIdx) f.buf)
  fatFileSeek g 0 (if flags &&& FAT_APPEND ≠ 0 then .fromEnd else .fromStart)

end

end DemosOS.Fat32
