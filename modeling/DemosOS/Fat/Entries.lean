import DemosOS.Fat.Table
import DemosOS.Fat.Buffer
import DemosOS.Lib.Links
import DemosOS.Lib.Ownership

/-!
# The table as a function

The entries of the table lie in consecutive sectors.  `entry` reads one of them off the sectors of a
volume, `putEntry` is what `put_fat` makes of the sectors, in both tables if there are two, and
`link` is what an entry means.  The rest of the development uses the laws of these three and never
looks at a sector of the table again.
-/

namespace DemosOS.Fat32

open Lib

/-- The link of a cluster whose entry has this value and this state. -/
def ClustState.link (val : Nat) : ClustState → Link Nat
  | .free => .free
  | .last => .last
  | .used => .next val
  | .bad => .unusable

/-! ## The layout of a volume -/

/-- A volume whose parts do not overlap: the record with the counters, the tables, and behind them
the data; a table has whole sectors, and everything has a number of 32 bits. -/
structure Geometry.WellFormed (g : Geometry) : Prop where
  /-- A sector of the table has 128 entries. -/
  whole : 128 ∣ g.clustCnt
  clusters : 2 < g.clustCnt
  /-- The values above are not numbers of clusters. -/
  entries : g.clustCnt ≤ 0x0ffffff7
  info : 0 < g.infoSect
  info_lt : g.infoSect < g.fatSect
  info_lt_mirror : g.mirrorSect ≠ 0 → g.infoSect < g.mirrorSect
  apart : g.mirrorSect ≠ 0 →
    g.fatSect + g.clustCnt / 128 ≤ g.mirrorSect ∨ g.mirrorSect + g.clustCnt / 128 ≤ g.fatSect
  data : g.fatSect + g.clustCnt / 128 ≤ g.dataSect
  data_mirror : g.mirrorSect ≠ 0 → g.mirrorSect + g.clustCnt / 128 ≤ g.dataSect
  range : g.dataSect + g.clustCnt * 2 ^ g.clustShift ≤ 2 ^ 32
  msk : g.clustMsk = 2 ^ g.clustShift - 1

namespace Geometry

/-- The entry of a cluster, in the table that starts at `fatSect`. -/
def entryAt (fatSect : Nat) (v : Nat → Sector) (clust : Nat) : Nat :=
  getItem (clust % 128) (v (fatSect + clust / 128))

/-- The entry of a cluster in the active table. -/
def entry (g : Geometry) : (Nat → Sector) → Nat → Nat := entryAt g.fatSect

/-- An entry of one table is written. -/
def putEntryAt (fatSect clust val : Nat) (v : Nat → Sector) : Nat → Sector :=
  Function.update v (fatSect + clust / 128)
    (putItem (clust % 128) val (v (fatSect + clust / 128)))

/-- An entry of the other table is written, if there is one. -/
def putMirror (g : Geometry) (clust val : Nat) (v : Nat → Sector) : Nat → Sector :=
  if g.mirrorSect ≠ 0 then putEntryAt g.mirrorSect clust val v else v

/-- An entry is written, in the other table and in the active one. -/
def putEntry (g : Geometry) (clust val : Nat) (v : Nat → Sector) : Nat → Sector :=
  putEntryAt g.fatSect clust val (g.putMirror clust val v)

/-- What the value of an entry says of its cluster. -/
def meaning (g : Geometry) (val : Nat) : Link Nat :=
  match g.classify val with
  | some state => state.link val
  | none => .unusable

/-- What the table says of a cluster; the clusters are numbered from 2 on. -/
def link (g : Geometry) (v : Nat → Sector) (clust : Nat) : Link Nat :=
  if 2 ≤ clust ∧ clust < g.clustCnt then g.meaning (g.entry v clust) else .unusable

/-- A sector that belongs to one of the tables. -/
def InTables (g : Geometry) (sect : Nat) : Prop :=
  (g.fatSect ≤ sect ∧ sect < g.fatSect + g.clustCnt / 128) ∨
    (g.mirrorSect ≠ 0 ∧ g.mirrorSect ≤ sect ∧ sect < g.mirrorSect + g.clustCnt / 128)

end Geometry

section

variable {g : Geometry} {v v' : Nat → Sector} {b : Sector} {c c' val idx idx' fatSect sect : Nat}

/-! ## Items of a sector -/

theorem item_or (x val : Nat) :
    ((x &&& 0xf0000000) ||| (val &&& 0x0fffffff)) &&& 0x0fffffff = val &&& 0x0fffffff := by
  have hand : (0xf0000000 : Nat) &&& 0x0fffffff = 0 := by decide
  rw [Nat.and_or_distrib_right, Nat.and_assoc, Nat.and_assoc, hand, Nat.and_self, Nat.and_zero,
    Nat.zero_or]

theorem item_lt (x val : Nat) :
    (x &&& 0xf0000000) ||| (val &&& 0x0fffffff) < 256 ^ 4 := by
  have hx : x &&& 0xf0000000 < 2 ^ 32 := Nat.and_lt_two_pow x (by decide)
  have hval : val &&& 0x0fffffff < 2 ^ 32 := Nat.and_lt_two_pow val (by decide)
  exact Nat.or_lt_two_pow hx hval

theorem getItem_putItem (h : idx < 128) : getItem idx (putItem idx val b) = val &&& 0x0fffffff := by
  rw [getItem, putItem, Block.field_setField (by omega), Nat.mod_eq_of_lt (item_lt _ _), item_or]

theorem getItem_putItem_of_ne (h : idx ≠ idx') :
    getItem idx' (putItem idx val b) = getItem idx' b := by
  rw [getItem, putItem, Block.field_setField_of_disjoint (by omega), getItem]

theorem and_item (h : val < 2 ^ 28) : val &&& 0x0fffffff = val := by
  rw [show 0x0fffffff = 2 ^ 28 - 1 from rfl, Nat.and_two_pow_sub_one_eq_mod, Nat.mod_eq_of_lt h]

/-! ## Entries -/

namespace Geometry

theorem entryAt_congr (h : v' (fatSect + c / 128) = v (fatSect + c / 128)) :
    entryAt fatSect v' c = entryAt fatSect v c := by
  rw [entryAt, h, entryAt]

theorem entryAt_putEntryAt_self :
    entryAt fatSect (putEntryAt fatSect c val v) c = val &&& 0x0fffffff := by
  rw [entryAt, putEntryAt, Function.update_self, getItem_putItem (Nat.mod_lt _ (by decide))]

theorem entryAt_putEntryAt_of_ne (h : c ≠ c') :
    entryAt fatSect (putEntryAt fatSect c val v) c' = entryAt fatSect v c' := by
  rw [entryAt, putEntryAt, entryAt]
  by_cases hsect : fatSect + c' / 128 = fatSect + c / 128
  · rw [hsect, Function.update_self]
    refine getItem_putItem_of_ne fun hidx ↦ h ?_
    omega
  · rw [Function.update_of_ne hsect]

/-- A table is not affected by a write to another sector. -/
theorem putEntryAt_of_ne (h : sect ≠ fatSect + c / 128) : putEntryAt fatSect c val v sect = v sect :=
  Function.update_of_ne h _ _

theorem WellFormed.sect_lt (hg : g.WellFormed) (hc : c < g.clustCnt) :
    c / 128 < g.clustCnt / 128 := by
  obtain ⟨k, hk⟩ := hg.whole
  omega

/-- Sectors of the two tables are different. -/
theorem WellFormed.sect_ne (hg : g.WellFormed) (hm : g.mirrorSect ≠ 0) (hc : c < g.clustCnt)
    (hc' : c' < g.clustCnt) : g.fatSect + c / 128 ≠ g.mirrorSect + c' / 128 := by
  have hlt := hg.sect_lt hc
  have hlt' := hg.sect_lt hc'
  rcases hg.apart hm with hapart | hapart
  · omega
  · omega

theorem entry_putEntry_self (g : Geometry) (c val : Nat) (v : Nat → Sector) :
    g.entry (g.putEntry c val v) c = val &&& 0x0fffffff := entryAt_putEntryAt_self

theorem WellFormed.entry_putEntry_of_ne (hg : g.WellFormed) (hc : c < g.clustCnt)
    (hc' : c' < g.clustCnt) (hne : c ≠ c') :
    g.entry (g.putEntry c val v) c' = g.entry v c' := by
  refine (entryAt_putEntryAt_of_ne hne).trans ?_
  unfold putMirror
  by_cases hm : g.mirrorSect ≠ 0
  · rw [if_pos hm]
    exact entryAt_congr (putEntryAt_of_ne (hg.sect_ne hm hc' hc))
  · rw [if_neg hm]
    rfl

/-- The other table, if there is one, says the same. -/
def Mirrored (g : Geometry) (v : Nat → Sector) : Prop :=
  g.mirrorSect ≠ 0 → ∀ c < g.clustCnt, entryAt g.mirrorSect v c = g.entry v c

theorem WellFormed.mirrored_putEntry (hg : g.WellFormed) (hc : c < g.clustCnt)
    (h : g.Mirrored v) : g.Mirrored (g.putEntry c val v) := by
  intro hm c' hc'
  have hother : entryAt g.mirrorSect (g.putEntry c val v) c' =
      entryAt g.mirrorSect (putEntryAt g.mirrorSect c val v) c' := by
    rw [putEntry, putMirror, if_pos hm]
    exact entryAt_congr (putEntryAt_of_ne (hg.sect_ne hm hc hc').symm)
  rw [hother]
  by_cases hne : c = c'
  · obtain rfl := hne
    rw [entry_putEntry_self, entryAt_putEntryAt_self]
  · rw [hg.entry_putEntry_of_ne hc hc' hne, entryAt_putEntryAt_of_ne hne]
    exact h hm c' hc'

/-- A change of the tables leaves every sector beside them alone. -/
theorem WellFormed.putEntry_of_notMem (hg : g.WellFormed) (hc : c < g.clustCnt)
    (hsect : ¬ g.InTables sect) : g.putEntry c val v sect = v sect := by
  have hlt := hg.sect_lt hc
  have hne : sect ≠ g.fatSect + c / 128 := by
    rintro rfl
    exact hsect (Or.inl ⟨Nat.le_add_right _ _, by omega⟩)
  rw [putEntry, putEntryAt_of_ne hne]
  unfold putMirror
  by_cases hm : g.mirrorSect ≠ 0
  · rw [if_pos hm]
    refine putEntryAt_of_ne ?_
    rintro rfl
    exact hsect (Or.inr ⟨hm, Nat.le_add_right _ _, by omega⟩)
  · rw [if_neg hm]

/-! ### What depends on the tables only -/

/-- Two collections of sectors with the same tables. -/
def SameTables (g : Geometry) (v v' : Nat → Sector) : Prop :=
  ∀ sect, g.InTables sect → v' sect = v sect

theorem WellFormed.inTables (hg : g.WellFormed) (hc : c < g.clustCnt) :
    g.InTables (g.fatSect + c / 128) := by
  have hlt := hg.sect_lt hc
  exact Or.inl ⟨Nat.le_add_right _ _, by omega⟩

theorem WellFormed.entry_congr (hg : g.WellFormed) (h : g.SameTables v v') (hc : c < g.clustCnt) :
    g.entry v' c = g.entry v c := entryAt_congr (h _ (hg.inTables hc))

theorem WellFormed.link_congr (hg : g.WellFormed) (h : g.SameTables v v') :
    g.link v' = g.link v := by
  funext c
  unfold link
  by_cases hc : 2 ≤ c ∧ c < g.clustCnt
  · rw [hg.entry_congr h hc.2]
  · rw [if_neg hc, if_neg hc]

theorem WellFormed.mirrored_congr (hg : g.WellFormed) (h : g.SameTables v v')
    (hmirrored : g.Mirrored v) : g.Mirrored v' := by
  intro hm c hc
  have hlt := hg.sect_lt hc
  rw [hg.entry_congr h hc, ← hmirrored hm c hc]
  exact entryAt_congr (h _ (Or.inr ⟨hm, Nat.le_add_right _ _, by omega⟩))

theorem sameTables_update (h : ¬ g.InTables sect) (b : Sector) :
    g.SameTables v (Function.update v sect b) := by
  intro sect' hsect'
  refine Function.update_of_ne ?_ _ _
  rintro rfl
  exact h hsect'

theorem WellFormed.info_notMem (hg : g.WellFormed) : ¬ g.InTables g.infoSect := by
  have hlt := hg.info_lt
  rintro (⟨hle, -⟩ | ⟨hm, hle, -⟩)
  · omega
  · have := hg.info_lt_mirror hm
    omega

/-! ## Links -/

theorem classify_eq_free_iff : g.classify val = some .free ↔ val = 0 := by
  unfold classify
  split_ifs with h
  all_goals simp only [reduceCtorEq, Option.some.injEq, false_iff, true_iff]
  all_goals omega

theorem classify_eq_last_iff : g.classify val = some .last ↔ 0x0ffffff8 ≤ val := by
  unfold classify
  split_ifs
  all_goals simp only [reduceCtorEq, Option.some.injEq, false_iff, true_iff]
  all_goals omega

theorem WellFormed.classify_eq_used_iff (hg : g.WellFormed) :
    g.classify val = some .used ↔ 2 ≤ val ∧ val < g.clustCnt := by
  have hentries := hg.entries
  unfold classify
  split_ifs with h
  all_goals simp only [reduceCtorEq, Option.some.injEq, false_iff, true_iff]
  all_goals omega

theorem meaning_of_classify {state : ClustState} (h : g.classify val = some state) :
    g.meaning val = state.link val := by
  rw [meaning, h]

theorem meaning_zero : g.meaning 0 = .free := meaning_of_classify (classify_eq_free_iff.mpr rfl)

theorem meaning_last : g.meaning 0x0fffffff = .last :=
  meaning_of_classify (classify_eq_last_iff.mpr (by decide))

theorem WellFormed.meaning_next (hg : g.WellFormed) (h : 2 ≤ val) (hlt : val < g.clustCnt) :
    g.meaning val = .next val := meaning_of_classify (hg.classify_eq_used_iff.mpr ⟨h, hlt⟩)

/-- Only a cluster of the volume has a link. -/
theorem range_of_link (h : g.link v c ≠ .unusable) : 2 ≤ c ∧ c < g.clustCnt := by
  by_contra hc
  exact h (if_neg hc)

theorem link_of_range (h : 2 ≤ c) (hlt : c < g.clustCnt) : g.link v c = g.meaning (g.entry v c) :=
  if_pos ⟨h, hlt⟩

/-- The cluster that comes next is a cluster of the volume. -/
theorem WellFormed.range_of_next (hg : g.WellFormed) (h : g.link v c = .next c') :
    2 ≤ c' ∧ c' < g.clustCnt := by
  have hrange := range_of_link (by rw [h]; exact nofun)
  rw [link_of_range hrange.1 hrange.2, meaning] at h
  cases hstate : g.classify (g.entry v c) with
  | none => rw [hstate] at h; cases h
  | some state =>
      rw [hstate] at h
      cases state with
      | used =>
          obtain rfl := Link.next.inj h
          exact hg.classify_eq_used_iff.mp hstate
      | free | last | bad => cases h

/-- What `put_fat` does to the links. -/
theorem WellFormed.link_putEntry (hg : g.WellFormed) (h : 2 ≤ c) (hlt : c < g.clustCnt)
    (val : Nat) (v : Nat → Sector) :
    g.link (g.putEntry c val v) =
      Function.update (g.link v) c (g.meaning (val &&& 0x0fffffff)) := by
  funext c'
  by_cases hne : c = c'
  · obtain rfl := hne
    rw [Function.update_self, link_of_range h hlt, entry_putEntry_self]
  · rw [Function.update_of_ne (Ne.symm hne)]
    unfold link
    by_cases hc' : 2 ≤ c' ∧ c' < g.clustCnt
    · rw [if_pos hc', if_pos hc', hg.entry_putEntry_of_ne hlt hc'.2 hne]
    · rw [if_neg hc', if_neg hc']

theorem WellFormed.link_putEntry_zero (hg : g.WellFormed) (h : 2 ≤ c) (hlt : c < g.clustCnt)
    (v : Nat → Sector) : g.link (g.putEntry c 0 v) = Function.update (g.link v) c .free := by
  rw [hg.link_putEntry h hlt, Nat.zero_and, meaning_zero]

theorem WellFormed.link_putEntry_last (hg : g.WellFormed) (h : 2 ≤ c) (hlt : c < g.clustCnt)
    (v : Nat → Sector) :
    g.link (g.putEntry c 0x0fffffff v) = Function.update (g.link v) c .last := by
  rw [hg.link_putEntry h hlt, Nat.and_self, meaning_last]

theorem WellFormed.link_putEntry_next (hg : g.WellFormed) (h : 2 ≤ c) (hlt : c < g.clustCnt)
    (h' : 2 ≤ c') (hlt' : c' < g.clustCnt) (v : Nat → Sector) :
    g.link (g.putEntry c c' v) = Function.update (g.link v) c (.next c') := by
  have hentries := hg.entries
  rw [hg.link_putEntry h hlt, and_item (by omega), hg.meaning_next h' hlt']

/-! ## Counting -/

/-- Every entry has a value that an entry may have. -/
def Readable (g : Geometry) (v : Nat → Sector) : Prop :=
  ∀ c, 2 ≤ c → c < g.clustCnt → g.classify (g.entry v c) ≠ none

theorem WellFormed.readable_congr (hg : g.WellFormed) (h : g.SameTables v v')
    (hreadable : g.Readable v) : g.Readable v' := by
  intro c hc hlt
  rw [hg.entry_congr h hlt]
  exact hreadable c hc hlt

theorem WellFormed.readable_putEntry (hg : g.WellFormed) (hlt : c < g.clustCnt)
    (hval : g.classify (val &&& 0x0fffffff) ≠ none) (h : g.Readable v) :
    g.Readable (g.putEntry c val v) := by
  intro c' hc' hlt'
  by_cases hne : c = c'
  · obtain rfl := hne
    rwa [entry_putEntry_self]
  · rw [hg.entry_putEntry_of_ne hlt hlt' hne]
    exact h c' hc' hlt'

/-- The number of free clusters. -/
def freeClusters (g : Geometry) (v : Nat → Sector) : Nat :=
  freeCells (fun c ↦ decide (g.link v c ≠ .free)) g.clustCnt

theorem freeClusters_congr (h : g.link v' = g.link v) : g.freeClusters v' = g.freeClusters v := by
  rw [freeClusters, h, freeClusters]

/-- A free cluster is taken. -/
theorem freeClusters_take {l : Link Nat} (hfree : g.link v c = .free) (hl : l ≠ .free)
    (h : g.link v' = Function.update (g.link v) c l) :
    g.freeClusters v' + 1 = g.freeClusters v := by
  have hlt := (range_of_link (v := v) (c := c) (by rw [hfree]; exact nofun)).2
  have hused : (fun c' ↦ decide (g.link v' c' ≠ .free)) =
      Function.update (fun c' ↦ decide (g.link v c' ≠ .free)) c true := by
    funext c'
    rw [h]
    by_cases hc' : c' = c
    · obtain rfl := hc'
      rw [Function.update_self, Function.update_self]
      exact decide_eq_true hl
    · rw [Function.update_of_ne hc', Function.update_of_ne hc']
  rw [freeClusters, hused]
  exact freeCells_take hlt (by rw [hfree]; rfl)

/-- A cluster that is in use is freed. -/
theorem freeClusters_release (hc : 2 ≤ c) (hlt : c < g.clustCnt) (hused : g.link v c ≠ .free)
    (h : g.link v' = Function.update (g.link v) c .free) :
    g.freeClusters v' = g.freeClusters v + 1 := by
  have hfree : (fun c' ↦ decide (g.link v' c' ≠ .free)) =
      Function.update (fun c' ↦ decide (g.link v c' ≠ .free)) c false := by
    funext c'
    rw [h]
    by_cases hc' : c' = c
    · obtain rfl := hc'
      rw [Function.update_self, Function.update_self]
      rfl
    · rw [Function.update_of_ne hc', Function.update_of_ne hc']
  rw [freeClusters, hfree]
  exact freeCells_release hlt (decide_eq_true hused)

/-- Changing the link of a cluster that is in use, and stays in use. -/
theorem freeClusters_relink {l : Link Nat} (hused : g.link v c ≠ .free) (hl : l ≠ .free)
    (h : g.link v' = Function.update (g.link v) c l) : g.freeClusters v' = g.freeClusters v := by
  have hsame : (fun c' ↦ decide (g.link v' c' ≠ .free)) = fun c' ↦ decide (g.link v c' ≠ .free) := by
    funext c'
    rw [h]
    by_cases hc' : c' = c
    · obtain rfl := hc'
      rw [Function.update_self]
      exact (decide_eq_true hl).trans (decide_eq_true hused).symm
    · rw [Function.update_of_ne hc']
  rw [freeClusters, hsame, freeClusters]

/-! ## An empty table -/

/-- The tables are zero. -/
def Empty (g : Geometry) (v : Nat → Sector) : Prop :=
  ∀ sect, g.InTables sect → v sect = Sector.zero

theorem getItem_zero : getItem idx Sector.zero = 0 := by
  have hfield : Sector.zero.field (4 * idx) 4 = 0 := by
    simp only [Block.field, fromBytes, Sector.byte_zero, UInt8.toNat_zero, Nat.mul_zero,
      Nat.add_zero]
  rw [getItem, hfield, Nat.zero_and]

theorem WellFormed.entry_of_empty (hg : g.WellFormed) (h : g.Empty v) (hc : c < g.clustCnt) :
    g.entry v c = 0 := by
  rw [entry, entryAt, h _ (hg.inTables hc)]
  exact getItem_zero

theorem WellFormed.link_of_empty (hg : g.WellFormed) (h : g.Empty v) :
    g.link v = fun c ↦ if 2 ≤ c ∧ c < g.clustCnt then .free else .unusable := by
  funext c
  unfold link
  by_cases hc : 2 ≤ c ∧ c < g.clustCnt
  · rw [if_pos hc, if_pos hc, hg.entry_of_empty h hc.2, meaning_zero]
  · rw [if_neg hc, if_neg hc]

/-- All clusters are free, and the two numbers below them are not clusters. -/
theorem WellFormed.freeClusters_of_empty (hg : g.WellFormed) (h : g.Empty v) :
    g.freeClusters v = g.clustCnt - 2 := by
  have hcount : ∀ n ≤ g.clustCnt,
      freeCells (fun c ↦ decide (g.link v c ≠ .free)) n = n - 2 := by
    intro n
    induction n with
    | zero => exact fun _ ↦ rfl
    | succ n ih =>
        intro hn
        have hlink := congrFun (hg.link_of_empty h) n
        rw [freeCells_succ, ih (Nat.le_of_succ_le hn), hlink]
        by_cases hc : 2 ≤ n
        · rw [if_pos (c := 2 ≤ n ∧ n < g.clustCnt) ⟨hc, hn⟩]
          change n - 2 + 1 = n + 1 - 2
          omega
        · rw [if_neg (c := 2 ≤ n ∧ n < g.clustCnt) fun hrange ↦ hc hrange.1]
          change n - 2 + 0 = n + 1 - 2
          omega
  exact hcount g.clustCnt (Nat.le_refl _)

theorem WellFormed.readable_of_empty (hg : g.WellFormed) (h : g.Empty v) : g.Readable v := by
  intro c _ hlt
  rw [hg.entry_of_empty h hlt, classify_eq_free_iff.mpr rfl]
  exact nofun

theorem WellFormed.mirrored_of_empty (hg : g.WellFormed) (h : g.Empty v) : g.Mirrored v := by
  intro hm c hc
  have hlt := hg.sect_lt hc
  rw [hg.entry_of_empty h hc, entryAt, h _ (Or.inr ⟨hm, Nat.le_add_right _ _, by omega⟩)]
  exact getItem_zero

end Geometry

/-! ## A small volume -/

theorem small_wellFormed : Geometry.small.WellFormed := by
  constructor
  all_goals decide

theorem blank_empty (lastUsed freeCnt : Nat) :
    Geometry.small.Empty (Fat.mounted .blank lastUsed freeCnt).volume.sectors := fun _ _ ↦ rfl

theorem blank_not_faulty (lastUsed freeCnt : Nat) :
    ¬ (Fat.mounted .blank lastUsed freeCnt).volume.Faulty := fun ⟨_, hfails⟩ ↦ nomatch hfails

end

end DemosOS.Fat32
