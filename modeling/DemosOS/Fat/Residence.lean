import DemosOS.Fat.Placement

/-!
# Which sector is in memory

The functions that allocate and free clusters ask for sectors of the tables and for the record with
the counters.  So the sector in memory is never one of the data, unless a directory has asked for it;
an open file, which reads and writes the card past this sector, finds nothing stale there.
-/

namespace DemosOS.Fat32

open Lib

section

variable {g : Geometry} {P : Nat → Prop} {c prev val n fatSect : Nat} {f : Sector → Sector}

/-- The sector in memory has this property. -/
def Fat.Resides (P : Nat → Prop) (s : Fat) : Prop := P s.sect

theorem opsRead_keeps : Keeps (Fat.Resides P) (opsRead n) := by
  refine Keeps.get.bind fun _ ↦ Keeps.bind (.modify ?_) fun _ ↦ .pure _
  exact fun _ hs ↦ hs

theorem opsWrite_keeps {b : Sector} : Keeps (Fat.Resides P) (opsWrite b n) := by
  refine Keeps.get.bind fun _ ↦ Keeps.bind (.modify ?_) fun _ ↦ .pure _
  exact fun _ hs ↦ hs

theorem editBuf_keeps : Keeps (Fat.Resides P) (editBuf f) := .modify fun _ hs ↦ hs

theorem syncBuf_keeps : Keeps (Fat.Resides P) syncBuf := by
  refine Keeps.get.bind fun s ↦ .ite (fun _ ↦ ?_) fun _ ↦ .pure _
  exact opsWrite_keeps.bind fun _ ↦ .ite (fun _ ↦ .modify fun _ hs ↦ hs) fun _ ↦ .throw _

theorem updateBuf_keeps (hn : P n) : Keeps (Fat.Resides P) (updateBuf n) := by
  refine Keeps.get.bind fun s ↦ .ite (fun _ ↦ ?_) fun _ ↦ .pure _
  refine syncBuf_keeps.bind fun _ ↦ opsRead_keeps.bind fun b ↦ ?_
  cases b with
  | none => exact .throw _
  | some b => exact .modify fun _ _ ↦ hn

theorem syncFs_keeps (hinfo : P g.infoSect) : Keeps (Fat.Resides P) (syncFs g) := by
  refine syncBuf_keeps.bind fun _ ↦ Keeps.get.bind fun s ↦ .ite (fun _ ↦ ?_) fun _ ↦ .pure _
  refine (updateBuf_keeps hinfo).bind fun _ ↦ Keeps.get.bind fun _ ↦ ?_
  exact editBuf_keeps.bind fun _ ↦ syncBuf_keeps.bind fun _ ↦ .modify fun _ hs ↦ hs

theorem markInfo_keeps : Keeps (Fat.Resides P) markInfo := .modify fun _ hs ↦ hs

/-! ## The tables -/

/-- The record with the counters and the tables lie before the data. -/
theorem Geometry.WellFormed.tables_lt (hg : g.WellFormed) (hc : c < g.clustCnt) :
    (g.fatSect + c / 128) % 2 ^ 32 < g.dataSect := by
  have hlt := hg.sect_lt hc
  have hdata := hg.data
  rw [(hg.tableSect hc).1]
  omega

theorem Geometry.WellFormed.mirror_lt (hg : g.WellFormed) (hm : g.mirrorSect ≠ 0)
    (hc : c < g.clustCnt) : (g.mirrorSect + c / 128) % 2 ^ 32 < g.dataSect := by
  have hlt := hg.sect_lt hc
  have hdata := hg.data_mirror hm
  rw [(hg.mirrorTableSect hm hc).1]
  omega

theorem Geometry.WellFormed.info_lt_data (hg : g.WellFormed) : g.infoSect < g.dataSect := by
  have hinfo := hg.info_lt
  have hdata := hg.data
  omega

theorem Geometry.WellFormed.nextClust_lt (hg : g.WellFormed) (c : Nat) :
    g.nextClust c < g.clustCnt := by
  have hclusters := hg.clusters
  unfold Geometry.nextClust
  by_cases hge : (c + 1) % 2 ^ 32 ≥ g.clustCnt
  · rw [if_pos hge]
    exact hclusters
  · rw [if_neg hge]
    exact Nat.lt_of_not_le hge

/-- The cluster that is chosen is one of the volume. -/
theorem scanFree_lt (hg : g.WellFormed) (flags : Nat) (s : Fat) :
    Yields (scanFree g flags) s (fun r _ ↦ ∀ c, r = some c → c < g.clustCnt) fun _ _ ↦ True := by
  refine Yields.get_bind (Yields.iterate (I := fun _ _ ↦ True) ?_ (fun _ _ _ ↦ trivial) trivial)
  rintro ⟨clust, flags⟩ s -
  refine Yields.get_bind (Yields.ite (fun _ ↦ Yields.throw trivial) fun _ ↦ ?_)
  refine (Yields.any _ s).bind fun r s' _ ↦ ?_
  cases r with
  | error e =>
      exact Yields.ite (fun _ ↦ Yields.pure nofun) fun _ ↦ Yields.throw trivial
  | ok r =>
      refine Yields.pure ?_
      by_cases hfree : r.2 = .free
      · rw [if_pos hfree]
        intro c hc
        obtain rfl := Option.some.inj hc
        exact hg.nextClust_lt clust
      · rw [if_neg hfree]
        trivial

theorem chooseFree_lt (hg : g.WellFormed) (prev : Nat) (s : Fat) :
    Yields (chooseFree g prev) s (fun r _ ↦ ∀ c, r = some c → c < g.clustCnt) fun _ _ ↦ True := by
  refine Yields.ite (fun _ ↦ ?_) fun _ ↦ ?_
  · refine (Yields.any _ s).bind fun r s' _ ↦ ?_
    refine Yields.ite (fun _ ↦ Yields.pure fun c hc ↦ ?_) fun _ ↦ scanFree_lt hg _ s'
    obtain rfl := Option.some.inj hc
    exact hg.nextClust_lt prev
  · exact Yields.get_bind (scanFree_lt hg _ s)

variable (hg : g.WellFormed) (hP : ∀ n < g.dataSect, P n)

include hg hP

theorem getFat_keeps (hc : c < g.clustCnt) : Keeps (Fat.Resides P) (getFat g c) := by
  refine (updateBuf_keeps (hP _ (hg.tables_lt hc))).bind fun _ ↦ Keeps.get.bind fun s ↦ ?_
  dsimp only
  cases g.classify (getItem (c % 128) s.buf) with
  | none => exact .throw _
  | some state => exact .pure _

theorem putFat_keeps (hc : c < g.clustCnt) : Keeps (Fat.Resides P) (putFat g c val) := by
  refine Keeps.bind (.when fun hm ↦ ?_) fun _ ↦ ?_
  · exact (updateBuf_keeps (hP _ (hg.mirror_lt hm hc))).bind fun _ ↦ editBuf_keeps
  · exact (updateBuf_keeps (hP _ (hg.tables_lt hc))).bind fun _ ↦ editBuf_keeps

theorem scanFree_keeps (flags : Nat) : Keeps (Fat.Resides P) (scanFree g flags) := by
  refine Keeps.get.bind fun s ↦ .iterate (J := fun _ ↦ True) ?_ trivial
  rintro ⟨clust, flags⟩ - s hs
  have hround : Keeps (Fat.Resides P) (scanRound g (clust, flags)) := by
    refine Keeps.get.bind fun _ ↦ .ite (fun _ ↦ .throw _) fun _ ↦ ?_
    refine (getFat_keeps hg hP (hg.nextClust_lt clust)).attempt.bind fun r ↦ ?_
    cases r with
    | error e => exact .ite (fun _ ↦ .pure _) fun _ ↦ .throw _
    | ok r => exact .pure _
  exact (hround s hs).mono (fun _ _ h ↦ ⟨h, fun _ _ ↦ trivial⟩) fun _ _ hE ↦ hE

theorem chooseFree_keeps : Keeps (Fat.Resides P) (chooseFree g prev) := by
  refine .ite (fun _ ↦ ?_) fun _ ↦ ?_
  · refine (getFat_keeps hg hP (hg.nextClust_lt prev)).bind fun r ↦ ?_
    exact .ite (fun _ ↦ .pure _) fun _ ↦ scanFree_keeps hg hP _
  · exact Keeps.get.bind fun _ ↦ scanFree_keeps hg hP _

theorem linkClust_keeps (hc : c < g.clustCnt) (hprev : prev < g.clustCnt) :
    Keeps (Fat.Resides P) (linkClust g prev c) := by
  refine (putFat_keeps hg hP hc).bind fun _ ↦ ?_
  refine Keeps.bind (.when fun _ ↦ putFat_keeps hg hP hprev) fun _ ↦ ?_
  refine Keeps.bind (.modify ?_) fun _ ↦ syncFs_keeps (hP _ hg.info_lt_data)
  exact fun _ hs ↦ hs

theorem stretchChain_keeps (hprev : prev < g.clustCnt) :
    Keeps (Fat.Resides P) (stretchChain g prev) := by
  refine markInfo_keeps.bind fun _ s hs ↦ ?_
  refine (((chooseFree_lt hg prev s).and (chooseFree_keeps hg hP s hs)).mono
    (fun _ _ h ↦ h) fun _ _ hE ↦ hE.2).bind fun r s' ⟨hlt, hs'⟩ ↦ ?_
  cases r with
  | some c => exact ((linkClust_keeps hg hP (hlt c rfl) hprev).bind fun _ ↦ .pure _) s' hs'
  | none => exact (Keeps.get.bind fun _ ↦ .pure _) s' hs'

end

end DemosOS.Fat32
