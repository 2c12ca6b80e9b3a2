import DemosOS.Files.Listing
import DemosOS.Lib.Fallible
import DemosOS.Lib.Block

/-!
# A mounted volume

The bottom of `fat.c`: the sectors of the card, the one sector that the library keeps in memory,
and the functions that read and write through it (`update_buf`, `sync_buf`, `sync_fs`).

One volume is mounted, as in `sd_filesystem_init`.  The fields of `Fat` that only `fat_mount`
writes are a `Geometry`, and are not part of the state.  Numbers are `uint32_t` in the source; an
operation that can leave this range is followed by `% 2 ^ 32`.

The functions of `DiskOps` may fail at any time.  A read that fails delivers nothing; a write that
fails may have left anything in its sector.
-/

namespace DemosOS.Fat32

open Lib

/-! ## Sectors -/

abbrev Sector := Block 512

/-- `memset(buf, 0, 512)`. -/
def Sector.zero : Sector := fun _ ↦ 0

@[simp] theorem Sector.byte_zero {p : Nat} : Sector.zero.byte p = 0 := by
  unfold Block.byte
  split_ifs
  · rfl
  · rfl

/-! ## The card and the volume -/

/-- The card, and what the code does not decide: which of its operations fail, what a failed write
leaves in its sector, and what a local variable holds that was never written. -/
structure Device where
  sectors : Nat → Sector
  /-- The number of operations so far. -/
  count : Nat
  fails : Nat → Bool
  torn : Nat → Sector
  stack : Nat → Nat

/-- The fields of `Fat` that `fat_mount` writes and nobody else. -/
structure Geometry where
  clustMsk : Nat
  clustCnt : Nat
  infoSect : Nat
  /-- `fat_sect[0]`, the active table. -/
  fatSect : Nat
  /-- `fat_sect[1]`, the other table; `0` if it is not kept up to date. -/
  mirrorSect : Nat
  dataSect : Nat
  rootClust : Nat
  clustShift : Nat
  name : List UInt8
deriving DecidableEq, Repr

/-- What the library counts and remembers, and its scratch memory `g_buf`, `g_len`, `g_crc`. -/
structure Books where
  lastUsed : Nat
  freeCnt : Nat
  /-- `FAT_INFO_DIRTY`. -/
  infoDirty : Bool
  gBuf : Nat → UInt8
  gLen : Nat
  gCrc : UInt8

/-- The other fields of `Fat`, the globals of the library, and the card. -/
structure Fat extends Books where
  sect : Nat
  buf : Sector
  /-- `FAT_BUF_DIRTY`. -/
  bufDirty : Bool
  device : Device

/-- What `fat_mount` leaves of the fields that are not the geometry: `sect` is `0`, so that the first
call reads a sector.  `g_fat` is a global, so its flags and its buffer are zero before. -/
def Fat.mounted (d : Device) (lastUsed freeCnt : Nat) : Fat where
  lastUsed := lastUsed
  freeCnt := freeCnt
  infoDirty := false
  gBuf := fun _ ↦ 0
  gLen := 0
  gCrc := 0
  sect := 0
  buf := Sector.zero
  bufDirty := false
  device := d

def FAT_ERR_NOFAT : Int := -1
def FAT_ERR_IO : Int := -3
def FAT_ERR_PARAM : Int := -4
def FAT_ERR_PATH : Int := -5
def FAT_ERR_DENIED : Int := -7
def FAT_ERR_FULL : Int := -8

/-- Why a function of the library does not deliver: it returns an error code, or a loop of it has
used up the fuel of the model. -/
inductive Failure
  | code (err : Int)
  | fuel
deriving DecidableEq, Repr

abbrev FatM := EStateM Failure Fat

/-! ## A small volume -/

/-- A card of zeros on which nothing fails. -/
def Device.blank : Device where
  sectors := fun _ ↦ Sector.zero
  count := 0
  fails := fun _ ↦ false
  torn := fun _ ↦ Sector.zero
  stack := fun _ ↦ 0

/-- A volume with tables of one sector, and clusters of one sector. -/
def Geometry.small : Geometry where
  clustMsk := 0
  clustCnt := 128
  infoSect := 1
  fatSect := 3
  mirrorSect := 4
  dataSect := 5
  rootClust := 2
  clustShift := 0
  name := []

/-! ## Operations of the card -/

/-- `ops.read`. -/
def opsRead (sect : Nat) : FatM (Option Sector) := do
  let d := (← get).device
  modify fun s ↦ { s with device := { d with count := d.count + 1 } }
  return if d.fails d.count then none else some (d.sectors sect)

/-- `ops.write`. -/
def opsWrite (block : Sector) (sect : Nat) : FatM Bool := do
  let d := (← get).device
  let content := if d.fails d.count then d.torn d.count else block
  modify fun s ↦ { s with device :=
    { d with count := d.count + 1, sectors := Function.update d.sectors sect content } }
  return !d.fails d.count

/-! ## The sector in memory -/

/-- A change of the sector in memory, which is marked `FAT_BUF_DIRTY`. -/
def editBuf (f : Sector → Sector) : FatM PUnit :=
  modify fun s ↦ { s with buf := f s.buf, bufDirty := true }

/-- `sync_buf`. -/
def syncBuf : FatM PUnit := do
  let s ← get
  if s.bufDirty then
    if ← opsWrite s.buf s.sect then modify fun s ↦ { s with bufDirty := false }
    else throw (.code FAT_ERR_IO)
  else return ⟨⟩

/-- `update_buf`. -/
def updateBuf (sect : Nat) : FatM PUnit := do
  if (← get).sect ≠ sect then
    syncBuf
    match ← opsRead sect with
    | none => throw (.code FAT_ERR_IO)
    | some block => modify fun s ↦ { s with buf := block, sect := sect }
  else return ⟨⟩

/-- The `FsInfo` record with the two counters stored in it. -/
def storeInfo (lastUsed freeCnt : Nat) (b : Sector) : Sector :=
  (b.setField 492 4 lastUsed).setField 488 4 freeCnt

/-- `sync_fs`. -/
def syncFs (g : Geometry) : FatM PUnit := do
  syncBuf
  if (← get).infoDirty then
    updateBuf g.infoSect
    let s ← get
    editBuf (storeInfo s.lastUsed s.freeCnt)
    syncBuf
    modify fun s ↦ { s with infoDirty := false }
  else return ⟨⟩

end DemosOS.Fat32
