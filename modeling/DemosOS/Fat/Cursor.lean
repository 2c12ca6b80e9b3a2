import DemosOS.Fat.Directory
import DemosOS.Fat.Seek

/-!
# Positions in a directory

A directory is the list of the records in the sectors of its chain.  A `Dir` is at one of them, and
`dir_next` takes it to the next one, if the data begin at a multiple of the size of a cluster: else it
looks for the end of a cluster in the wrong place.
-/

namespace DemosOS.Fat32

open Lib

namespace Geometry

variable (g : Geometry)

/-- The data begin at a multiple of the size of a cluster. -/
def Aligned : Prop := 2 ^ g.clustShift ∣ g.dataSect

/-- The number of records in the sectors of a chain. -/
def recordsIn (ds : List Nat) : Nat := 16 * 2 ^ g.clustShift * ds.length

end Geometry

/-- Record `k` of the directory with this chain. -/
def Volume.record (v : Volume) (g : Geometry) (ds : List Nat) (k : Nat) : Record :=
  (v.sectors (g.fileSect ds (k / 16))).record (32 * (k % 16))

/-- All records of a directory. -/
def Volume.records (v : Volume) (g : Geometry) (ds : List Nat) : List Record :=
  (List.range (g.recordsIn ds)).map (v.record g ds)

/-- The volume after a change of record `k`. -/
def Volume.editRecord (v : Volume) (g : Geometry) (ds : List Nat) (k : Nat) (f : Record → Record) :
    Volume :=
  v.write (g.fileSect ds (k / 16)) fun b ↦ b.editRecord (32 * (k % 16)) f

/-- The position is that of record `k`. -/
structure Dir.At (g : Geometry) (ds : List Nat) (d : Dir) (k : Nat) : Prop where
  sclust : ds.head? = some d.sclust
  clust : ds[k / 16 / 2 ^ g.clustShift]? = some d.clust
  sect : d.sect = g.fileSect ds (k / 16)
  idx : d.idx = 32 * (k % 16)

/-- A directory that is open, with its sector in memory. -/
structure Looking (g : Geometry) (others rest : List (List Nat)) (ds : List Nat) (v : Volume) (k : Nat)
    (p : Fat × Dir) : Prop where
  hosting : Hosting g (ds :: others) (ds :: rest) p.1 v
  at' : p.2.At g ds k
  loaded : p.1.Loaded p.2.sect

section

variable {g : Geometry} {others rest : List (List Nat)} {s : Fat} {v v' : Volume} {ds ds' : List Nat}
  {d : Dir} {j k n : Nat} {f : Record → Record} {p : Fat × Dir}

/-! ## The records -/

theorem Geometry.div_records (g : Geometry) (k : Nat) :
    k / 16 / 2 ^ g.clustShift = k / (16 * 2 ^ g.clustShift) := Nat.div_div_eq_div_mul ..

theorem Geometry.lt_recordsIn :
    k < g.recordsIn ds ↔ k / 16 / 2 ^ g.clustShift < ds.length := by
  rw [g.div_records, Nat.div_lt_iff_lt_mul (Nat.mul_pos (by decide) g.clustSects_pos),
    Nat.mul_comm ds.length]
  rfl

theorem Volume.getElem?_records (h : k < g.recordsIn ds) :
    (v.records g ds)[k]? = some (v.record g ds k) := by
  rw [records, List.getElem?_map, List.getElem?_range h]
  rfl

theorem Volume.length_records : (v.records g ds).length = g.recordsIn ds := by
  rw [records, List.length_map, List.length_range]

theorem Dir.At.lt (h : d.At g ds k) : k < g.recordsIn ds :=
  Geometry.lt_recordsIn.mpr (List.getElem?_eq_some_iff.mp h.clust).1

theorem Dir.At.inClust (h : d.At g ds k) : g.InClust d.sect d.clust := by
  rw [h.sect]
  exact Geometry.inClust_fileSect h.clust

theorem Hosting.range (h : Hosting g (ds :: others) (ds :: rest) s v) :
    ∀ c ∈ ds, 2 ≤ c ∧ c < g.clustCnt := fun _ hc ↦ h.consistent.range List.mem_cons_self hc

theorem Hosting.nodup (h : Hosting g (ds :: others) (ds :: rest) s v) : ds.Nodup :=
  (h.consistent.chains.chain ds List.mem_cons_self).nodup

/-- A record that has been changed, among the others. -/
theorem Volume.record_editRecord (hds : ∀ c ∈ ds, 2 ≤ c) (hnodup : ds.Nodup)
    (hj : j < g.recordsIn ds) (hk : k < g.recordsIn ds) :
    (v.editRecord g ds k f).record g ds j = if j = k then f (v.record g ds k) else v.record g ds j := by
  have hmod := Nat.mod_lt j (show 16 > 0 by decide)
  have hmod' := Nat.mod_lt k (show 16 > 0 by decide)
  unfold record editRecord write
  dsimp only
  by_cases hsect : j / 16 = k / 16
  · rw [hsect, Function.update_self]
    by_cases hjk : j = k
    · rw [if_pos hjk, hjk, Sector.record_editRecord (by omega)]
    · rw [if_neg hjk, Sector.record_editRecord_of_disjoint (by omega)]
  · have hne : g.fileSect ds (j / 16) ≠ g.fileSect ds (k / 16) := fun heq ↦
      hsect (Geometry.fileSect_inj hds hnodup (Geometry.lt_recordsIn.mp hj)
        (Geometry.lt_recordsIn.mp hk) heq)
    rw [Function.update_of_ne hne, if_neg fun hjk ↦ hsect (by rw [hjk])]

theorem Volume.records_editRecord (hds : ∀ c ∈ ds, 2 ≤ c) (hnodup : ds.Nodup)
    (hk : k < g.recordsIn ds) :
    (v.editRecord g ds k f).records g ds = (v.records g ds).modify k f := by
  refine List.ext_getElem? fun j ↦ ?_
  rw [List.getElem?_modify]
  by_cases hj : j < g.recordsIn ds
  · rw [getElem?_records hj, getElem?_records hj, record_editRecord hds hnodup hj hk]
    by_cases hjk : j = k
    · rw [if_pos hjk, Option.map_eq_map, Option.map_some, if_pos hjk.symm, hjk]
    · rw [if_neg hjk, Option.map_eq_map, Option.map_some, if_neg (Ne.symm hjk)]
  · rw [List.getElem?_eq_none (by rw [length_records]; omega),
      List.getElem?_eq_none (by rw [length_records]; omega)]
    rfl

/-- A chain that grows keeps its records. -/
theorem Volume.record_prefix (h : ds <+: ds') (hk : k < g.recordsIn ds) :
    v.record g ds' k = v.record g ds k := by
  unfold record
  rw [Geometry.fileSect_prefix h (Geometry.lt_recordsIn.mp hk)]

/-- The records are part of the data. -/
theorem Volume.records_sameData (h : v.SameData g v') : v'.records g ds = v.records g ds := by
  refine List.map_congr_left fun k _ ↦ ?_
  unfold record
  rw [h _ (g.fileSect_data ds _)]

/-! ## Looking at a record -/

theorem Looking.record (h : Looking g others rest ds v k p) :
    p.1.buf.record p.2.idx = v.record g ds k := by
  rw [h.loaded.buf, h.hosting.shows.volume, h.at'.sect, h.at'.idx]
  rfl

/-- What is read at the position. -/
theorem Looking.dirPtr {α : Type} {f : Record → DirM α} {Q : α → Fat × Dir → Prop}
    {E : Failure → Fat × Dir → Prop} (h : Looking g others rest ds v k p)
    (hf : Yields (f (v.record g ds k)) p Q E) : Yields (dirPtr >>= f) p Q E := by
  rw [← h.record] at hf
  exact Yields.bind_ok rfl hf

theorem updateDir_spec (hg : g.WellFormed) (h : Hosting g (ds :: others) (ds :: rest) s v)
    (hd : d.At g ds k) :
    Yields updateDir (s, d) (fun _ p ↦ Looking g others rest ds v k p ∧ p.2 = d)
      fun _ _ ↦ False := by
  have hkept : g.Kept (ds :: others) d.sect :=
    Or.inr ⟨ds, List.mem_cons_self, d.clust, List.mem_of_getElem? hd.clust, hd.inClust⟩
  have hpos : d.sect ≠ 0 := by
    have hle := hd.inClust.data_le
    have hinfo := hg.info_lt_data
    omega
  refine Yields.get_bind (Yields.onFirst ?_)
  refine ((updateBuf_keeps hkept).and h.resides (updateBuf_spec h.shows hpos)).mono ?_ ?_
  · rintro _ s' ⟨⟨hshows, hload⟩, hs'⟩
    exact ⟨⟨⟨hshows, h.consistent, h.sound, hs'⟩, hd, hload⟩, rfl⟩
  · rintro e s' ⟨hio, -⟩
    exact h.sound hio.2.1

/-! ## dir_next -/

theorem succ_divMod {j n : Nat} (h : j % n + 1 < n) :
    (j + 1) / n = j / n ∧ (j + 1) % n = j % n + 1 := by
  have hj : j + 1 = n * (j / n) + (j % n + 1) := by
    rw [← Nat.add_assoc, Nat.div_add_mod]
  constructor
  · rw [hj, Nat.mul_add_div (by omega), Nat.div_eq_of_lt h, Nat.add_zero]
  · rw [hj, Nat.mul_add_mod, Nat.mod_eq_of_lt h]

theorem succ_divMod_end {j n : Nat} (h : j % n + 1 = n) :
    (j + 1) / n = j / n + 1 ∧ (j + 1) % n = 0 := by
  have hpos : 0 < n := by omega
  have hj : j + 1 = n * (j / n + 1) := by
    have hsum := Nat.div_add_mod j n
    rw [Nat.mul_add, Nat.mul_one]
    omega
  constructor
  · rw [hj, Nat.mul_div_cancel_left _ hpos]
  · rw [hj, Nat.mul_mod_right]

/-- The number that `dir_next` computes is that of the next sector, if this is in the same cluster;
and if not, its lower bits are zero. -/
theorem Dir.At.next_sect (hg : g.WellFormed) (hal : g.Aligned) (hd : d.At g ds k)
    (hds : ∀ c ∈ ds, 2 ≤ c ∧ c < g.clustCnt) :
    ((d.sect + 1) % 2 ^ 32 &&& g.clustMsk ≠ 0 ∧ k / 16 % 2 ^ g.clustShift + 1 < 2 ^ g.clustShift ∧
      (d.sect + 1) % 2 ^ 32 = g.fileSect ds (k / 16 + 1)) ∨
    ((d.sect + 1) % 2 ^ 32 &&& g.clustMsk = 0 ∧
      k / 16 % 2 ^ g.clustShift + 1 = 2 ^ g.clustShift) := by
  obtain ⟨hc, hclt⟩ := hds _ (List.mem_of_getElem? hd.clust)
  have hr := Nat.mod_lt (k / 16) g.clustSects_pos
  have hfits := hg.sectOf_lt hc hclt hr
  have hsect : d.sect = g.sectOf d.clust (k / 16 % 2 ^ g.clustShift) := by
    rw [hd.sect, Geometry.fileSect, Geometry.getD_of_getElem? hd.clust]
  obtain ⟨a, ha⟩ := hal
  have hlow : (d.sect + 1) % 2 ^ g.clustShift =
      (k / 16 % 2 ^ g.clustShift + 1) % 2 ^ g.clustShift := by
    rw [hsect, Geometry.sectOf, ha, Nat.mul_comm (d.clust - 2), ← Nat.mul_add, Nat.add_assoc,
      Nat.mul_add_mod]
  have hnum : (d.sect + 1) % 2 ^ 32 = d.sect + 1 := by
    rw [hsect]
    exact Nat.mod_eq_of_lt (by omega)
  rw [hnum, hg.msk, Nat.and_two_pow_sub_one_eq_mod, hlow]
  by_cases hend : k / 16 % 2 ^ g.clustShift + 1 = 2 ^ g.clustShift
  · right
    rw [hend, Nat.mod_self]
    exact ⟨rfl, rfl⟩
  · left
    have hlt : k / 16 % 2 ^ g.clustShift + 1 < 2 ^ g.clustShift := by omega
    refine ⟨?_, hlt, ?_⟩
    · rw [Nat.mod_eq_of_lt hlt]
      exact Nat.succ_ne_zero _
    · rw [hsect, Geometry.fileSect, (succ_divMod hlt).1, (succ_divMod hlt).2,
        Geometry.getD_of_getElem? hd.clust]
      rfl

/-- The first record of a cluster. -/
theorem Dir.at_clust {c q : Nat} (hg : g.WellFormed) (hc : 2 ≤ c ∧ c < g.clustCnt)
    (hhead : ds.head? = some d.sclust) (hq : ds[q]? = some c) :
    Dir.At g ds { d with clust := c, sect := g.clustToSect c, idx := 0 }
      (16 * 2 ^ g.clustShift * q) := by
  have hdiv : 16 * 2 ^ g.clustShift * q / 16 = 2 ^ g.clustShift * q := by
    rw [Nat.mul_assoc]
    exact Nat.mul_div_cancel_left _ (by decide)
  have hquot : 2 ^ g.clustShift * q / 2 ^ g.clustShift = q :=
    Nat.mul_div_cancel_left _ g.clustSects_pos
  refine ⟨hhead, ?_, ?_, ?_⟩
  · rw [hdiv, hquot]
    exact hq
  · rw [hdiv, Geometry.fileSect, hquot, Nat.mul_mod_right, Geometry.getD_of_getElem? hq]
    exact hg.clustToSect_eq hc.1 hc.2
  · rw [Nat.mul_assoc, Nat.mul_mod_right]

/-- The last record of the chain is in the last cluster. -/
theorem Dir.At.last (hd : d.At g ds k) (hend : k + 1 = g.recordsIn ds) :
    k / 16 / 2 ^ g.clustShift + 1 = ds.length := by
  have hpos : 0 < 16 * 2 ^ g.clustShift := Nat.mul_pos (by decide) g.clustSects_pos
  have hlt := (List.getElem?_eq_some_iff.mp hd.clust).1
  have hle : ds.length - 1 ≤ k / (16 * 2 ^ g.clustShift) := by
    refine (Nat.le_div_iff_mul_le hpos).mpr ?_
    rw [Nat.sub_mul, Nat.one_mul, Nat.mul_comm ds.length]
    unfold Geometry.recordsIn at hend
    omega
  rw [← g.div_records] at hle
  omega

/-- To the next record, or to the end of the chain. -/
theorem dirNext_spec (hg : g.WellFormed) (hal : g.Aligned)
    (h : Hosting g (ds :: others) (ds :: rest) s v) (hd : d.At g ds k) :
    Yields (dirNext g) (s, d)
      (fun _ p ↦ Hosting g (ds :: others) (ds :: rest) p.1 v ∧ p.2.At g ds (k + 1))
      (fun e p ↦ e = .code FAT_ERR_EOF ∧ k + 1 = g.recordsIn ds ∧
        Hosting g (ds :: others) (ds :: rest) p.1 v ∧ p.2.clust = d.clust ∧
        p.2.sclust = d.sclust) := by
  have hidx := hd.idx
  have hmod := Nat.mod_lt k (show 16 > 0 by decide)
  refine Yields.modify_bind (Yields.get_bind (Yields.ite (fun hin ↦ ?_) fun hout ↦ ?_))
  · dsimp only at hin
    obtain ⟨hdiv, hmod'⟩ := succ_divMod (show k % 16 + 1 < 16 by omega)
    refine Yields.pure ⟨h, ⟨hd.sclust, ?_, ?_, ?_⟩⟩
    · rw [hdiv]
      exact hd.clust
    · rw [hdiv]
      exact hd.sect
    · rw [hmod']
      change d.idx + 32 = _
      omega
  · dsimp only at hout
    obtain ⟨hdiv, hmod'⟩ := succ_divMod_end (show k % 16 + 1 = 16 by omega)
    refine Yields.modify_bind (Yields.get_bind ?_)
    dsimp only
    rcases hd.next_sect hg hal h.range with ⟨hlow, hlt, hsect⟩ | ⟨hlow, hend⟩
    · -- the next sector of the cluster
      refine Yields.ite (fun _ ↦ Yields.pure ⟨h, ⟨hd.sclust, ?_, ?_, ?_⟩⟩) fun hno ↦ absurd hlow hno
      · rw [hdiv, (succ_divMod hlt).1]
        exact hd.clust
      · rw [hdiv]
        exact hsect
      · rw [hmod']
    · refine Yields.ite (fun hyes ↦ absurd hlow hyes) fun _ ↦ ?_
      have hnum : k + 1 = 16 * 2 ^ g.clustShift * (k / 16 / 2 ^ g.clustShift + 1) := by
        obtain ⟨hquot, hrem⟩ := succ_divMod_end hend
        rw [Nat.mul_assoc, ← hquot, Nat.mul_div_cancel' (Nat.dvd_of_mod_eq_zero hrem)]
        omega
      refine Yields.bind (Q := fun r p ↦ Hosting g (ds :: others) (ds :: rest) p.1 v ∧
        (r.2 = .last ∧ k / 16 / 2 ^ g.clustShift + 1 = ds.length ∨
          r.2 = .used ∧ ds[k / 16 / 2 ^ g.clustShift + 1]? = some r.1) ∧
        p.2 = { d with idx := 0, sect := (d.sect + 1) % 2 ^ 32 })
        (Yields.onFirst ((h.getFat hg hd.clust).mono (fun _ _ hq ↦ ⟨hq.1, hq.2, rfl⟩)
          fun _ _ hE ↦ hE.elim)) ?_
      rintro ⟨next, state⟩ ⟨s₁, d₁⟩ ⟨h₁, ⟨rfl, hlast⟩ | ⟨rfl, hnext⟩, rfl⟩
      · exact Yields.throw ⟨rfl, by rw [hnum, hlast]; rfl, h₁, rfl, rfl⟩
      · refine Yields.modify ⟨h₁, ?_⟩
        rw [hnum]
        exact Dir.at_clust hg (h.range next (List.mem_of_getElem? hnext)) hd.sclust hnext

end

end DemosOS.Fat32
