import DemosOS.Fat.Volume

/-!
# The allocation table

Clusters and sectors, the entries of the table (`get_fat`, `put_fat`), and the chains of clusters:
`stretch_chain` allocates a cluster, at the end of a chain or for a new one, and `remove_chain`
frees a chain.  `clust_clear` fills a cluster with zeros.

An entry has 28 bits; the four bits above them are left as they are.
-/

namespace DemosOS.Fat32

open Lib

/-! ## Clusters and sectors -/

namespace Geometry

/-- `sect_to_clust`. -/
def sectToClust (g : Geometry) (sect : Nat) : Nat :=
  (((sect + 2 ^ 32 - g.dataSect) % 2 ^ 32) >>> g.clustShift + 2) % 2 ^ 32

/-- `clust_to_sect`. -/
def clustToSect (g : Geometry) (clust : Nat) : Nat :=
  (((clust + 2 ^ 32 - 2) % 2 ^ 32) <<< g.clustShift + g.dataSect) % 2 ^ 32

end Geometry

/-! ## Entries -/

/-- What an entry means: the flags `CLUST_FREE`, `CLUST_USED`, `CLUST_USED | CLUST_LAST` and
`CLUST_BAD`. -/
inductive ClustState
  | free
  | used
  | last
  | bad
deriving DecidableEq, Repr

def ClustState.flags : ClustState → Nat
  | .free => 0x01
  | .used => 0x02
  | .last => 0x06
  | .bad => 0x08

/-- The tests of `get_fat`; `none` is a value that no entry may have. -/
def Geometry.classify (g : Geometry) (val : Nat) : Option ClustState :=
  if val = 0 then some .free
  else if val = 0x0ffffff7 then some .bad
  else if val ≥ 0x0ffffff8 then some .last
  else if val ≥ 2 ∧ val < g.clustCnt then some .used
  else none

/-- `items[idx] & 0x0fffffff`. -/
def getItem (idx : Nat) (b : Sector) : Nat := b.field (4 * idx) 4 &&& 0x0fffffff

/-- `items[idx] = (items[idx] & 0xf0000000) | (val & 0x0fffffff)`. -/
def putItem (idx val : Nat) (b : Sector) : Sector :=
  b.setField (4 * idx) 4 ((b.field (4 * idx) 4 &&& 0xf0000000) ||| (val &&& 0x0fffffff))

section

variable (g : Geometry)

/-- `get_fat`. -/
def getFat (clust : Nat) : FatM (Nat × ClustState) := do
  updateBuf ((g.fatSect + clust / 128) % 2 ^ 32)
  let val := getItem (clust % 128) (← get).buf
  match g.classify val with
  | none => throw (.code FAT_ERR_BROKEN)
  | some state => return (val, state)

/-- `put_fat2`. -/
def putFat2 (fatSect clust val : Nat) : FatM PUnit := do
  updateBuf ((fatSect + clust / 128) % 2 ^ 32)
  editBuf (putItem (clust % 128) val)

/-- `put_fat`. -/
def putFat (clust val : Nat) : FatM PUnit := do
  when (g.mirrorSect ≠ 0) (putFat2 g.mirrorSect clust val)
  putFat2 g.fatSect clust val

/-- `fat->flags |= FAT_INFO_DIRTY`. -/
def markInfo : FatM PUnit := modify fun s ↦ { s with infoDirty := true }

/-! ## Freeing a chain -/

/-- `fat->free_cnt++`. -/
def countFreed : FatM PUnit := modify fun s ↦ { s with freeCnt := (s.freeCnt + 1) % 2 ^ 32 }

/-- A round of the loop of `remove_chain`. -/
def removeRound (clust : Nat) : FatM (PUnit ⊕ Nat) := do
  let (next, state) ← getFat g clust
  if state = .bad ∨ state = .free then throw (.code FAT_ERR_BROKEN)
  else
    putFat g clust 0
    countFreed
    return if state = .last then .inl ⟨⟩ else .inr next

/-- `remove_chain`. -/
def removeChain (clust : Nat) : FatM PUnit := do
  markInfo
  iterate .fuel (removeRound g) (g.clustCnt + 2) clust
  syncFs g

/-! ## Allocating a cluster -/

/-- `if (++clust >= fat->clust_cnt) clust = 2`. -/
def Geometry.nextClust (clust : Nat) : Nat :=
  if (clust + 1) % 2 ^ 32 ≥ g.clustCnt then 2 else (clust + 1) % 2 ^ 32

/-- A round of the scan of `stretch_chain`; the variables are `clust` and `flags`.  When an entry
cannot be read the function returns `flags`, which the call that failed has not set: a `0` there
makes it return as if it had succeeded (`none`). -/
def scanRound : Nat × Nat → FatM (Option Nat ⊕ (Nat × Nat))
  | (clust, flags) => do
      let clust := g.nextClust clust
      if clust = (← get).lastUsed then throw (.code FAT_ERR_FULL)
      else
        match ← attempt (getFat g clust) with
        | .error _ => if flags = 0 then return .inl none else throw (.code flags)
        | .ok (_, state) =>
            return if state = .free then .inl (some clust) else .inr (clust, state.flags)

/-- The scan of `stretch_chain`, from `last_used` on. -/
def scanFree (flags : Nat) : FatM (Option Nat) := do
  iterate .fuel (scanRound g) (g.clustCnt + 1) ((← get).lastUsed, flags)

/-- The choice of a free cluster: the one behind `prev`, or else the first one of the scan. -/
def chooseFree (prev : Nat) : FatM (Option Nat) := do
  if prev ≠ 0 then
    let clust := g.nextClust prev
    let (_, state) ← getFat g clust
    if state = .free then return some clust else scanFree g state.flags
  else
    let d := (← get).device
    -- `flags` has not been written yet
    scanFree g (d.stack d.count)

/-- The rest of `stretch_chain`. -/
def linkClust (prev clust : Nat) : FatM PUnit := do
  putFat g clust 0x0fffffff
  when (prev ≠ 0) (putFat g prev clust)
  modify fun s ↦ { s with lastUsed := clust, freeCnt := (s.freeCnt + 2 ^ 32 - 1) % 2 ^ 32 }
  syncFs g

/-- `stretch_chain`.  A caller whose `out_clust` has not been written goes on with what its own
variable holds. -/
def stretchChain (prev : Nat) : FatM Nat := do
  markInfo
  match ← chooseFree g prev with
  | some clust =>
      linkClust g prev clust
      return clust
  | none =>
      let d := (← get).device
      return d.stack d.count

/-- `create_chain`. -/
def createChain : FatM Nat := stretchChain g 0

/-! ## Clearing a cluster -/

/-- The loop of `clust_clear`. -/
def clearSectors : Nat → Nat → FatM PUnit
  | 0, _ => return ⟨⟩
  | n + 1, sect => do
      modify fun s ↦ { s with bufDirty := true, sect := sect }
      syncBuf
      clearSectors n ((sect + 1) % 2 ^ 32)

/-- `clust_clear`. -/
def clustClear (clust : Nat) : FatM PUnit := do
  syncBuf
  modify fun s ↦ { s with buf := Sector.zero }
  clearSectors (1 <<< g.clustShift) (g.clustToSect clust)

end

end DemosOS.Fat32
