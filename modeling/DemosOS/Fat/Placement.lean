import DemosOS.Fat.Consistency
import DemosOS.Fat.File

/-!
# Where clusters lie

The sectors of a cluster, and the sectors of a chain in their order.  Two clusters have no sector in
common, so that a chain without repetition has each of its sectors at one place only.  The functions
of the library compute these numbers modulo `2 ^ 32`; on a volume that fits, nothing is lost.
-/

namespace DemosOS.Fat32

open Lib

namespace Geometry

/-- Sector `k` of a cluster. -/
def sectOf (g : Geometry) (c k : Nat) : Nat := g.dataSect + (c - 2) * 2 ^ g.clustShift + k

/-- The sector belongs to the cluster. -/
def InClust (g : Geometry) (n c : Nat) : Prop := ∃ k < 2 ^ g.clustShift, n = g.sectOf c k

/-- Sector `j` of a chain. -/
def fileSect (g : Geometry) (cs : List Nat) (j : Nat) : Nat :=
  g.sectOf (cs.getD (j / 2 ^ g.clustShift) 0) (j % 2 ^ g.clustShift)

/-- A sector of one of the chains, or a sector before the data. -/
def Kept (g : Geometry) (chains : List (List Nat)) (n : Nat) : Prop :=
  n < g.dataSect ∨ ∃ cs ∈ chains, ∃ c ∈ cs, g.InClust n c

variable {g : Geometry} {c c' j j' n off : Nat} {cs cs' : List Nat} {chains : List (List Nat)}

theorem clustSects_pos (g : Geometry) : 0 < 2 ^ g.clustShift := Nat.two_pow_pos _

/-- A sector of the data belongs to one cluster only. -/
theorem InClust.unique (h : g.InClust n c) (h' : g.InClust n c') (hc : 2 ≤ c) (hc' : 2 ≤ c') :
    c = c' := by
  obtain ⟨k, hk, rfl⟩ := h
  obtain ⟨k', hk', heq⟩ := h'
  have hsum : (c - 2) * 2 ^ g.clustShift + k = (c' - 2) * 2 ^ g.clustShift + k' := by
    unfold sectOf at heq
    omega
  have hdiv : ∀ a l, l < 2 ^ g.clustShift → (a * 2 ^ g.clustShift + l) / 2 ^ g.clustShift = a := by
    intro a l hl
    rw [Nat.add_comm, Nat.add_mul_div_right _ _ g.clustSects_pos, Nat.div_eq_of_lt hl, Nat.zero_add]
  have hquot := hdiv (c - 2) k hk
  rw [hsum, hdiv (c' - 2) k' hk'] at hquot
  omega

theorem InClust.data_le (h : g.InClust n c) : g.dataSect ≤ n := by
  obtain ⟨k, -, rfl⟩ := h
  unfold sectOf
  omega

theorem inClust_sectOf (hk : j < 2 ^ g.clustShift) : g.InClust (g.sectOf c j) c := ⟨j, hk, rfl⟩

/-- A cluster of the volume fits. -/
theorem WellFormed.sectOf_lt (hg : g.WellFormed) (hc : 2 ≤ c) (hlt : c < g.clustCnt)
    (hk : j < 2 ^ g.clustShift) : g.sectOf c j + 2 ^ g.clustShift < 2 ^ 32 := by
  have hrange := hg.range
  have hmul : (c - 2 + 3) * 2 ^ g.clustShift ≤ g.clustCnt * 2 ^ g.clustShift + 2 ^ g.clustShift := by
    rw [← Nat.succ_mul]
    exact Nat.mul_le_mul_right _ (by omega)
  rw [Nat.add_mul] at hmul
  unfold sectOf
  omega

theorem InClust.lt (h : g.InClust n c) (hg : g.WellFormed) (hc : 2 ≤ c) (hlt : c < g.clustCnt) :
    n < 0xffffffff := by
  obtain ⟨k, hk, rfl⟩ := h
  have hfits := hg.sectOf_lt hc hlt hk
  have hpos := g.clustSects_pos
  omega

/-- `clust_to_sect` of a cluster of the volume. -/
theorem WellFormed.clustToSect_eq (hg : g.WellFormed) (hc : 2 ≤ c) (hlt : c < g.clustCnt) :
    g.clustToSect c = g.sectOf c 0 := by
  have hpos := g.clustSects_pos
  have hfits := hg.sectOf_lt hc hlt hpos
  have hpow := hg.lt_pow
  unfold sectOf at hfits
  have hsub : (c + 2 ^ 32 - 2) % 2 ^ 32 = c - 2 := by omega
  rw [clustToSect, hsub, Nat.shiftLeft_eq, Nat.mod_eq_of_lt (by omega), sectOf, Nat.add_comm]
  rfl

/-- `sect_to_clust` finds the cluster of a sector. -/
theorem WellFormed.sectToClust_eq (hg : g.WellFormed) (h : g.InClust n c) (hc : 2 ≤ c)
    (hlt : c < g.clustCnt) : g.sectToClust n = c := by
  obtain ⟨k, hk, rfl⟩ := h
  have hfits := hg.sectOf_lt hc hlt hk
  have hpow := hg.lt_pow
  have hsub : (g.sectOf c k + 2 ^ 32 - g.dataSect) % 2 ^ 32 = (c - 2) * 2 ^ g.clustShift + k := by
    unfold sectOf at hfits ⊢
    omega
  rw [sectToClust, hsub, Nat.shiftRight_eq_div_pow, Nat.add_comm ((c - 2) * _),
    Nat.add_mul_div_right _ _ g.clustSects_pos, Nat.div_eq_of_lt hk]
  omega

/-! ## The sectors of a chain -/

theorem clustSize_eq (g : Geometry) : g.clustSize = 512 * 2 ^ g.clustShift := Nat.shiftLeft_eq ..

theorem clustSize_pos (g : Geometry) : 0 < g.clustSize := by
  rw [clustSize_eq]
  exact Nat.mul_pos (by decide) g.clustSects_pos

/-- The cluster of an offset. -/
theorem div_clustSize (g : Geometry) (off : Nat) :
    off / 512 / 2 ^ g.clustShift = off / g.clustSize := by
  rw [Nat.div_div_eq_div_mul, clustSize_eq]

theorem getD_of_getElem? (h : cs[j]? = some c) : cs.getD j 0 = c := by
  rw [List.getD_eq_getElem?_getD, h, Option.getD_some]

/-- The number that `fat_file_seek` computes. -/
theorem WellFormed.place_eq (hg : g.WellFormed) (hc : 2 ≤ c) (hlt : c < g.clustCnt)
    (h : cs[off / g.clustSize]? = some c) :
    (g.clustToSect c + ((off / 512) &&& g.clustMsk)) % 2 ^ 32 = g.fileSect cs (off / 512) := by
  have hk : off / 512 % 2 ^ g.clustShift < 2 ^ g.clustShift := Nat.mod_lt _ g.clustSects_pos
  have hfits := hg.sectOf_lt hc hlt hk
  rw [hg.clustToSect_eq hc hlt, hg.msk, Nat.and_two_pow_sub_one_eq_mod, fileSect, div_clustSize,
    getD_of_getElem? h]
  unfold sectOf at hfits ⊢
  exact Nat.mod_eq_of_lt (by omega)

theorem inClust_fileSect (h : cs[j / 2 ^ g.clustShift]? = some c) : g.InClust (g.fileSect cs j) c := by
  rw [fileSect, getD_of_getElem? h]
  exact inClust_sectOf (Nat.mod_lt _ g.clustSects_pos)

/-- A sector has one place in a chain. -/
theorem fileSect_inj (hcs : ∀ c ∈ cs, 2 ≤ c) (hnodup : cs.Nodup)
    (hj : j / 2 ^ g.clustShift < cs.length) (hj' : j' / 2 ^ g.clustShift < cs.length)
    (h : g.fileSect cs j = g.fileSect cs j') : j = j' := by
  have hin := inClust_fileSect (List.getElem?_eq_getElem hj)
  have hin' := inClust_fileSect (List.getElem?_eq_getElem hj')
  rw [← h] at hin'
  have hsame := hin.unique hin' (hcs _ (List.getElem_mem hj)) (hcs _ (List.getElem_mem hj'))
  have hquot := (List.Nodup.getElem_inj_iff hnodup).mp hsame
  unfold fileSect sectOf at h
  rw [hquot] at h
  have hmod : j % 2 ^ g.clustShift = j' % 2 ^ g.clustShift := by omega
  rw [← Nat.div_add_mod j (2 ^ g.clustShift), ← Nat.div_add_mod j' (2 ^ g.clustShift), hquot, hmod]

/-- A chain that grows keeps its sectors. -/
theorem fileSect_prefix (h : cs <+: cs') (hj : j / 2 ^ g.clustShift < cs.length) :
    g.fileSect cs' j = g.fileSect cs j := by
  obtain ⟨ds, rfl⟩ := h
  rw [fileSect, fileSect, List.getD_eq_getElem?_getD, List.getElem?_append_left hj,
    ← List.getD_eq_getElem?_getD]

/-! ## Sectors apart from a chain -/

theorem kept_of_lt (h : n < g.dataSect) : g.Kept chains n := Or.inl h

/-- A sector that is kept is not a sector of a cluster beside the chains. -/
theorem Kept.not_inClust (h : g.Kept chains n) (hchains : ∀ cs ∈ chains, ∀ c ∈ cs, 2 ≤ c)
    (hc : 2 ≤ c) (hnotMem : ∀ cs ∈ chains, c ∉ cs) : ¬ g.InClust n c := by
  intro hin
  rcases h with hlt | ⟨cs, hcs, c', hc', hin'⟩
  · exact absurd hin.data_le (Nat.not_le_of_lt hlt)
  · obtain rfl := hin.unique hin' hc (hchains cs hcs c' hc')
    exact hnotMem cs hcs hc'

theorem Kept.mono (h : g.Kept chains n) {chains' : List (List Nat)} (hsub : chains ⊆ chains') :
    g.Kept chains' n := by
  rcases h with hlt | ⟨cs, hcs, hin⟩
  · exact Or.inl hlt
  · exact Or.inr ⟨cs, hsub hcs, hin⟩

end Geometry

end DemosOS.Fat32
