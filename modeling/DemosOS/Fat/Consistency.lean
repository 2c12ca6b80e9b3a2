import DemosOS.Fat.Allocation
import Mathlib.Logic.Relation

/-!
# The table stays consistent

The chains of a volume are its files and directories.  A volume is consistent if they are apart, the
two tables agree, and the counters are right, in memory and in the record on the card.  Allocation,
also at the end of a chain, and release keep this, in whatever order they come; and after each of
them that returns `0` it is true of the card itself, so that the volume can be mounted again.
-/

namespace DemosOS.Fat32

open Lib

/-- The counters that are stored in a sector. -/
def storedFreeCnt (b : Sector) : Nat := b.field 488 4

def storedLastUsed (b : Sector) : Nat := b.field 492 4

/-- The counters in the record are those in memory. -/
structure Volume.Recorded (g : Geometry) (v : Volume) : Prop where
  freeCnt : storedFreeCnt (v.sectors g.infoSect) = v.freeCnt
  lastUsed : storedLastUsed (v.sectors g.infoSect) = v.lastUsed

/-- A volume with these chains, and nothing wrong with it. -/
structure Volume.Consistent (g : Geometry) (v : Volume) (chains : List (List Nat)) : Prop
    extends v.Usable g where
  chains : Chains (v.link g) chains
  mirrored : g.Mirrored v.sectors
  counted : v.freeCnt = g.freeClusters v.sectors
  recorded : v.Recorded g

section

variable {g : Geometry} {s s' : Fat} {v : Volume} {c prev val : Nat} {cs : List Nat}
  {chains chains' : List (List Nat)}

/-! ## The record with the counters -/

theorem storeInfo_freeCnt {lastUsed freeCnt : Nat} (b : Sector) (h : freeCnt < 2 ^ 32) :
    storedFreeCnt (storeInfo lastUsed freeCnt b) = freeCnt := by
  rw [storedFreeCnt, storeInfo, Block.field_setField (by decide)]
  exact Nat.mod_eq_of_lt h

theorem storeInfo_lastUsed {lastUsed freeCnt : Nat} (b : Sector) (h : lastUsed < 2 ^ 32) :
    storedLastUsed (storeInfo lastUsed freeCnt b) = lastUsed := by
  rw [storedLastUsed, storeInfo, Block.field_setField_of_disjoint (by decide),
    Block.field_setField (by decide)]
  exact Nat.mod_eq_of_lt h

/-- Writing the record leaves the tables alone. -/
theorem Volume.synced_sameTables (hg : g.WellFormed) (v : Volume) :
    g.SameTables v.sectors (v.synced g).sectors := by
  unfold Volume.synced
  by_cases hdirty : v.infoDirty = true
  · rw [if_pos hdirty]
    exact Geometry.sameTables_update hg.info_notMem _
  · rw [if_neg hdirty]
    exact fun _ _ ↦ rfl

theorem Volume.synced_books (v : Volume) :
    (v.synced g).freeCnt = v.freeCnt ∧ (v.synced g).lastUsed = v.lastUsed := by
  unfold Volume.synced
  by_cases hdirty : v.infoDirty = true
  · rw [if_pos hdirty]
    exact ⟨rfl, rfl⟩
  · rw [if_neg hdirty]
    exact ⟨rfl, rfl⟩

/-- After `sync_fs` of marked counters they are in the record. -/
theorem Volume.synced_recorded (hdirty : v.infoDirty = true) (hfree : v.freeCnt < 2 ^ 32)
    (hlast : v.lastUsed < 2 ^ 32) : (v.synced g).Recorded g := by
  rw [Volume.synced, if_pos hdirty]
  constructor
  · change storedFreeCnt (Function.update v.sectors _ _ g.infoSect) = v.freeCnt
    rw [Function.update_self]
    exact storeInfo_freeCnt _ hfree
  · change storedLastUsed (Function.update v.sectors _ _ g.infoSect) = v.lastUsed
    rw [Function.update_self]
    exact storeInfo_lastUsed _ hlast

/-! ## Consistency from the tables -/

/-- What is consistent but for the record becomes consistent when the counters are stored. -/
theorem Volume.consistent_synced (hg : g.WellFormed) (hdirty : v.infoDirty = true)
    (husable : v.Usable g) (hchains : Chains (v.link g) chains) (hmirrored : g.Mirrored v.sectors)
    (hcounted : v.freeCnt = g.freeClusters v.sectors) : (v.synced g).Consistent g chains := by
  have htables := v.synced_sameTables hg
  have hlink := hg.link_congr htables
  obtain ⟨hfreeCnt, hlastUsed⟩ := v.synced_books (g := g)
  have hpow := hg.lt_pow
  have hle := g.freeClusters_le v.sectors
  refine ⟨⟨?_, hg.readable_congr htables husable.readable⟩, ?_, hg.mirrored_congr htables hmirrored,
    ?_, ?_⟩
  · rw [hlastUsed]
    exact husable.lastUsed
  · rw [Volume.link, hlink]
    exact hchains
  · rw [hfreeCnt, hcounted]
    exact (Geometry.freeClusters_congr hlink).symm
  · refine synced_recorded hdirty (by omega) ?_
    have hlast := husable.lastUsed.2
    omega

/-! ## Allocation -/

theorem Volume.linked_zero_sectors (v : Volume) (c : Nat) :
    (v.linked g 0 c).sectors = g.putEntry c 0x0fffffff v.sectors := by
  simp only [linked, ne_eq, not_true_eq_false, if_false]

theorem Volume.linked_sectors (v : Volume) (c : Nat) (hprev : prev ≠ 0) :
    (v.linked g prev c).sectors = g.putEntry prev c (g.putEntry c 0x0fffffff v.sectors) :=
  if_pos hprev

theorem Volume.link_linked_zero (hg : g.WellFormed) (hc : 2 ≤ c) (hlt : c < g.clustCnt) :
    (v.linked g 0 c).link g = Function.update (v.link g) c .last := by
  rw [link, linked_zero_sectors, hg.link_putEntry_last hc hlt, link]

theorem Volume.link_linked (hg : g.WellFormed) (hc : 2 ≤ c) (hlt : c < g.clustCnt)
    (hprev : 2 ≤ prev) (hprevlt : prev < g.clustCnt) :
    (v.linked g prev c).link g =
      Function.update (Function.update (v.link g) c .last) prev (.next c) := by
  rw [link, linked_sectors v c (Nat.ne_of_gt (Nat.zero_lt_of_lt hprev)),
    hg.link_putEntry_next hprev hprevlt hc hlt, hg.link_putEntry_last hc hlt, link]

theorem Volume.mirrored_linked (hg : g.WellFormed) (hlt : c < g.clustCnt)
    (hprevlt : prev < g.clustCnt) (h : g.Mirrored v.sectors) :
    g.Mirrored (v.linked g prev c).sectors := by
  have hfirst : g.Mirrored (g.putEntry c 0x0fffffff v.sectors) := hg.mirrored_putEntry hlt h
  by_cases hprev : prev = 0
  · subst hprev
    rw [linked_zero_sectors]
    exact hfirst
  · rw [linked_sectors v c hprev]
    exact hg.mirrored_putEntry hprevlt hfirst

theorem Volume.readable_linked (hg : g.WellFormed) (hc : 2 ≤ c) (hlt : c < g.clustCnt)
    (hprevlt : prev < g.clustCnt) (h : g.Readable v.sectors) :
    g.Readable (v.linked g prev c).sectors := by
  have hentries := hg.entries
  have hfirst : g.Readable (g.putEntry c 0x0fffffff v.sectors) := by
    refine hg.readable_putEntry hlt ?_ h
    rw [Nat.and_self, Geometry.classify_eq_last_iff.mpr (by decide)]
    exact nofun
  by_cases hprev : prev = 0
  · subst hprev
    rw [linked_zero_sectors]
    exact hfirst
  · rw [linked_sectors v c hprev]
    refine hg.readable_putEntry hprevlt ?_ hfirst
    rw [and_item (by omega), hg.classify_eq_used_iff.mpr ⟨hc, hlt⟩]
    exact nofun

/-- A new chain. -/
theorem Volume.Consistent.create (hg : g.WellFormed) (h : v.Consistent g chains)
    (hc : v.link g c = .free) :
    ((v.marked.linked g 0 c).synced g).Consistent g ([c] :: chains) := by
  obtain ⟨hc2, hlt⟩ := Geometry.range_of_link (v := v.sectors) (c := c) (by
    rw [show g.link v.sectors c = .free from hc]
    exact nofun)
  have hclusters := hg.clusters
  have hlink := Volume.link_linked_zero (v := v.marked) hg hc2 hlt
  have hcount := Geometry.freeClusters_take hc (by exact nofun) hlink
  have hle := g.freeClusters_le v.sectors
  have hpow := hg.lt_pow
  have hcounted := h.counted
  refine Volume.consistent_synced hg rfl ⟨⟨hc2, hlt⟩, ?_⟩ ?_ ?_ ?_
  · exact Volume.readable_linked (v := v.marked) hg hc2 hlt (by omega) h.readable
  · rw [hlink]
    exact h.chains.create hc
  · exact Volume.mirrored_linked (v := v.marked) hg hlt (by omega) h.mirrored
  · change (v.freeCnt + 2 ^ 32 - 1) % 2 ^ 32 = _
    omega

/-- A chain with one more cluster. -/
theorem Volume.Consistent.stretch (hg : g.WellFormed) (h : v.Consistent g (cs :: chains))
    (hc : v.link g c = .free) :
    ((v.marked.linked g (cs.getLast (h.chains.chain cs List.mem_cons_self).ne_nil) c).synced
      g).Consistent g ((cs ++ [c]) :: chains) := by
  have hchain := h.chains.chain cs List.mem_cons_self
  have hlast : v.link g (cs.getLast hchain.ne_nil) = .last := hchain.getLast
  obtain ⟨hc2, hlt⟩ := Geometry.range_of_link (v := v.sectors) (c := c) (by
    rw [show g.link v.sectors c = .free from hc]
    exact nofun)
  obtain ⟨hp2, hplt⟩ := Geometry.range_of_link (v := v.sectors) (c := cs.getLast hchain.ne_nil) (by
    rw [show g.link v.sectors _ = .last from hlast]
    exact nofun)
  have hlink := Volume.link_linked (v := v.marked) hg hc2 hlt hp2 hplt
  have hcount : g.freeClusters (v.marked.linked g (cs.getLast hchain.ne_nil) c).sectors + 1 =
      g.freeClusters v.sectors := by
    have hfirst : g.freeClusters (g.putEntry c 0x0fffffff v.sectors) + 1 =
        g.freeClusters v.sectors := Geometry.freeClusters_take hc (by exact nofun)
      (hg.link_putEntry_last hc2 hlt v.sectors)
    rw [← hfirst]
    congr 1
    refine Geometry.freeClusters_relink (c := cs.getLast hchain.ne_nil) (l := .next c) ?_
      (by exact nofun) ?_
    · rw [hg.link_putEntry_last hc2 hlt]
      rw [Function.update_of_ne]
      · rw [show g.link v.sectors _ = .last from hlast]
        exact nofun
      · intro heq
        rw [heq] at hlast
        exact nomatch hlast.symm.trans hc
    · exact hlink.trans (by rw [hg.link_putEntry_last hc2 hlt]; rfl)
  have hle := g.freeClusters_le v.sectors
  have hpow := hg.lt_pow
  have hcounted := h.counted
  refine Volume.consistent_synced hg rfl ⟨⟨hc2, hlt⟩, ?_⟩ ?_ ?_ ?_
  · exact Volume.readable_linked (v := v.marked) hg hc2 hlt hplt h.readable
  · rw [hlink]
    exact h.chains.stretch hc
  · exact Volume.mirrored_linked (v := v.marked) hg hlt hplt h.mirrored
  · change (v.freeCnt + 2 ^ 32 - 1) % 2 ^ 32 = _
    omega

/-! ## Release -/

theorem Volume.freeAll_facts (hg : g.WellFormed) (v : Volume) (cs : List Nat)
    (hcs : ∀ a ∈ cs, 2 ≤ a ∧ a < g.clustCnt) :
    (v.freeAll g cs).lastUsed = v.lastUsed ∧ (v.freeAll g cs).infoDirty = v.infoDirty ∧
      (g.Mirrored v.sectors → g.Mirrored (v.freeAll g cs).sectors) ∧
      (g.Readable v.sectors → g.Readable (v.freeAll g cs).sectors) := by
  induction cs using List.reverseRecOn with
  | nil => exact ⟨rfl, rfl, id, id⟩
  | append_singleton cs c ih =>
      obtain ⟨hlast, hdirty, hmirrored, hreadable⟩ :=
        ih fun a ha ↦ hcs a (List.mem_append_left _ ha)
      obtain ⟨hc, hlt⟩ := hcs c (List.mem_append_right _ (List.mem_singleton_self c))
      rw [freeAll_concat]
      refine ⟨hlast, hdirty, fun h ↦ hg.mirrored_putEntry hlt (hmirrored h), fun h ↦ ?_⟩
      refine hg.readable_putEntry hlt ?_ (hreadable h)
      rw [Nat.zero_and, Geometry.classify_eq_free_iff.mpr rfl]
      exact nofun

/-- Every cluster that is freed is counted. -/
theorem Volume.counted_freeAll (hg : g.WellFormed) (hcs : ∀ a ∈ cs, 2 ≤ a ∧ a < g.clustCnt)
    (hnodup : cs.Nodup) (hused : ∀ a ∈ cs, v.link g a ≠ .free)
    (h : v.freeCnt = g.freeClusters v.sectors) :
    (v.freeAll g cs).freeCnt = g.freeClusters (v.freeAll g cs).sectors := by
  induction cs using List.reverseRecOn with
  | nil => exact h
  | append_singleton cs c ih =>
      have hcs' : ∀ a ∈ cs, 2 ≤ a ∧ a < g.clustCnt := fun a ha ↦ hcs a (List.mem_append_left _ ha)
      have hmem : c ∈ cs ++ [c] := List.mem_append_right _ (List.mem_singleton_self c)
      obtain ⟨hc, hlt⟩ := hcs c hmem
      have hnotMem : c ∉ cs := fun hmem ↦
        List.disjoint_of_nodup_append hnodup hmem (List.mem_singleton_self c)
      have hcount := ih hcs' hnodup.of_append_left fun a ha ↦ hused a (List.mem_append_left _ ha)
      have hlink : (v.freeAll g cs).link g c ≠ .free := by
        have hsame := congrFun (Volume.link_freeAll (v := v) hg hcs') c
        rw [if_neg hnotMem] at hsame
        rw [hsame]
        exact hused c hmem
      have hnext : g.freeClusters ((v.freeAll g cs).freeEntry g c).sectors =
          g.freeClusters (v.freeAll g cs).sectors + 1 :=
        Geometry.freeClusters_release hc hlt hlink (Volume.link_freeEntry hg hc hlt)
      have hle := g.freeClusters_le ((v.freeAll g cs).freeEntry g c).sectors
      have hpow := hg.lt_pow
      rw [freeAll_concat]
      change ((v.freeAll g cs).freeCnt + 1) % 2 ^ 32 = _
      omega

/-- A chain is gone. -/
theorem Volume.Consistent.remove (hg : g.WellFormed) (h : v.Consistent g (cs :: chains)) :
    ((v.marked.freeAll g cs).synced g).Consistent g chains := by
  have hchain := h.chains.chain cs List.mem_cons_self
  have hcs : ∀ a ∈ cs, 2 ≤ a ∧ a < g.clustCnt := by
    intro a ha
    refine Geometry.range_of_link (v := v.sectors) ?_
    rcases hchain.link_mem ha with hlast | ⟨b, -, hnext⟩
    · rw [show g.link v.sectors a = .last from hlast]
      exact nofun
    · rw [show g.link v.sectors a = .next b from hnext]
      exact nofun
  obtain ⟨hlast, hdirty, hmirrored, hreadable⟩ := v.marked.freeAll_facts hg cs hcs
  refine Volume.consistent_synced hg hdirty ⟨?_, hreadable h.readable⟩ ?_ (hmirrored h.mirrored) ?_
  · rw [hlast]
    exact h.lastUsed
  · rw [Volume.link_freeAll hg hcs]
    exact h.chains.remove
  · exact Volume.counted_freeAll (v := v.marked) hg hcs hchain.nodup
      (fun a ha ↦ hchain.not_free ha) h.counted

/-! ## Runs -/

/-- One call for the chains in use, with the chains before and after it; `true` marks a call that has
returned `0`.  A call that fails leaves the chains as they are. -/
inductive TableStep (g : Geometry) : Bool → Fat × List (List Nat) → Fat × List (List Nat) → Prop
  | create {s s' : Fat} {chains : List (List Nat)} {c : Nat} (h : createChain g s = .ok c s') :
      TableStep g true (s, chains) (s', [c] :: chains)
  | stretch {s s' : Fat} {chains rest : List (List Nat)} {cs : List Nat} {c : Nat}
      (hperm : chains.Perm (cs :: rest)) (hne : cs ≠ [])
      (h : stretchChain g (cs.getLast hne) s = .ok c s') :
      TableStep g true (s, chains) (s', (cs ++ [c]) :: rest)
  | remove {s s' : Fat} {chains rest : List (List Nat)} {cs : List Nat} {c : Nat}
      (hperm : chains.Perm ((c :: cs) :: rest)) (h : removeChain g c s = .ok ⟨⟩ s') :
      TableStep g true (s, chains) (s', rest)
  | noCreate {s s' : Fat} {chains : List (List Nat)} {e : Failure}
      (h : createChain g s = .error e s') : TableStep g false (s, chains) (s', chains)
  | noStretch {s s' : Fat} {chains : List (List Nat)} {cs : List Nat} {e : Failure}
      (hcs : cs ∈ chains) (hne : cs ≠ []) (h : stretchChain g (cs.getLast hne) s = .error e s') :
      TableStep g false (s, chains) (s', chains)
  | noRemove {s s' : Fat} {chains : List (List Nat)} {cs : List Nat} {c : Nat} {e : Failure}
      (hcs : c :: cs ∈ chains) (h : removeChain g c s = .error e s') :
      TableStep g false (s, chains) (s', chains)

/-- The volume as it would be mounted again from the card. -/
def Fat.remounted (g : Geometry) (s : Fat) : Fat :=
  .mounted s.device (storedLastUsed (s.device.sectors g.infoSect))
    (storedFreeCnt (s.device.sectors g.infoSect))

theorem Volume.Consistent.perm (h : v.Consistent g chains) (hperm : chains.Perm chains') :
    v.Consistent g chains' :=
  { h with chains := h.chains.perm hperm }

/-- A failed call marks the counters and changes nothing else. -/
theorem Volume.Consistent.marked (h : v.Consistent g chains) : v.marked.Consistent g chains :=
  ⟨⟨h.lastUsed, h.readable⟩, h.chains, h.mirrored, h.counted, ⟨h.recorded.freeCnt, h.recorded.lastUsed⟩⟩

/-- What is on the card is enough. -/
theorem Volume.Consistent.remounted (h : s.Shows v) (hv : v.Consistent g chains)
    (hclean : s.bufDirty = false) : (s.remounted g).volume.Consistent g chains := by
  have hcard : s.device.sectors = v.sectors := h.on_card hclean
  have hsectors : (s.remounted g).volume.sectors = v.sectors := hcard
  have hfreeCnt : (s.remounted g).volume.freeCnt = v.freeCnt := by
    change storedFreeCnt (s.device.sectors g.infoSect) = _
    rw [hcard, hv.recorded.freeCnt]
  have hlastUsed : (s.remounted g).volume.lastUsed = v.lastUsed := by
    change storedLastUsed (s.device.sectors g.infoSect) = _
    rw [hcard, hv.recorded.lastUsed]
  refine ⟨⟨?_, ?_⟩, ?_, ?_, ?_, ?_, ?_⟩
  · rw [hlastUsed]
    exact hv.lastUsed
  · rw [hsectors]
    exact hv.readable
  · rw [Volume.link, hsectors]
    exact hv.chains
  · rw [hsectors]
    exact hv.mirrored
  · rw [hfreeCnt, hsectors]
    exact hv.counted
  · rw [hsectors, hfreeCnt]
    exact hv.recorded.freeCnt
  · rw [hsectors, hlastUsed]
    exact hv.recorded.lastUsed

/-- The clusters of a chain are clusters of the volume. -/
theorem Volume.Consistent.range (h : v.Consistent g chains) (hcs : cs ∈ chains) (hc : c ∈ cs) :
    2 ≤ c ∧ c < g.clustCnt := by
  refine Geometry.range_of_link (v := v.sectors) ?_
  rcases (h.chains.chain cs hcs).link_mem hc with hlast | ⟨b, -, hnext⟩
  · rw [show g.link v.sectors c = .last from hlast]
    exact nofun
  · rw [show g.link v.sectors c = .next b from hnext]
    exact nofun

/-- One call keeps the table consistent; one that returns `0` leaves nothing in memory only. -/
theorem TableStep.consistent (hg : g.WellFormed) {done : Bool}
    (hstep : TableStep g done (s, chains) (s', chains')) (h : s.Shows v)
    (hv : v.Consistent g chains) (hcard : ¬ v.Faulty) :
    ∃ v', s'.Shows v' ∧ v'.Consistent g chains' ∧ ¬ v'.Faulty ∧
      (done = true → s'.bufDirty = false) := by
  have hfails : ∀ {w : Volume}, w.fails = v.fails → ¬ w.Faulty := fun hw hfaulty ↦
    hcard (by rwa [Volume.Faulty, hw] at hfaulty)
  have hsynced : ∀ w : Volume, (w.synced g).fails = w.fails := fun w ↦ by
    unfold Volume.synced
    split_ifs
    · rfl
    · rfl
  cases hstep with
  | create hcall =>
      obtain ⟨hchosen, h', hclean⟩ | hfaulty :=
        (stretchChain_spec hg hv.toUsable h (Or.inl rfl)).ok hcall
      · exact ⟨_, h', hv.create hg hchosen.free, hfails (hsynced _), fun _ ↦ hclean⟩
      · exact absurd hfaulty hcard
  | stretch hperm hne hcall =>
      have hv' := hv.perm hperm
      obtain ⟨hchosen, h', hclean⟩ | hfaulty := (stretchChain_spec hg hv.toUsable h
        (Or.inr (hv'.range List.mem_cons_self (List.getLast_mem hne)))).ok hcall
      · exact ⟨_, h', hv'.stretch hg hchosen.free, hfails (hsynced _), fun _ ↦ hclean⟩
      · exact absurd hfaulty hcard
  | @remove _ _ _ _ cs c hperm hcall =>
      have hv' := hv.perm hperm
      obtain ⟨hc, hlt⟩ := hv'.range List.mem_cons_self List.mem_cons_self
      obtain ⟨ds, hchain, h', hclean⟩ := (removeChain_spec hg h hc hlt).ok hcall
      obtain rfl : ds = cs := hchain.unique (hv'.chains.chain _ List.mem_cons_self)
      refine ⟨_, h', hv'.remove hg, hfails ?_, fun _ ↦ hclean⟩
      rw [hsynced, Volume.fails_freeAll]
      rfl
  | noCreate hcall =>
      obtain ⟨-, h', -⟩ | ⟨hfaulty, -⟩ :=
        (stretchChain_spec hg hv.toUsable h (Or.inl rfl)).error hcall
      · exact ⟨_, h', hv.marked, hcard, fun hdone ↦ absurd hdone Bool.false_ne_true⟩
      · exact absurd hfaulty hcard
  | noStretch hcs hne hcall =>
      obtain ⟨-, h', -⟩ | ⟨hfaulty, -⟩ := (stretchChain_spec hg hv.toUsable h
        (Or.inr (hv.range hcs (List.getLast_mem hne)))).error hcall
      · exact ⟨_, h', hv.marked, hcard, fun hdone ↦ absurd hdone Bool.false_ne_true⟩
      · exact absurd hfaulty hcard
  | noRemove hcs hcall =>
      obtain ⟨hc, hlt⟩ := hv.range hcs List.mem_cons_self
      rcases (removeChain_spec hg h hc hlt).error hcall with hfaulty | ⟨-, hno⟩
      · exact absurd hfaulty.2 hcard
      · exact absurd ⟨_, hv.chains.chain _ hcs⟩ hno

/-- A volume without files, with the counters in its record. -/
theorem Volume.Consistent.of_empty (hg : g.WellFormed) (hempty : g.Empty v.sectors)
    (hlast : 2 ≤ v.lastUsed ∧ v.lastUsed < g.clustCnt) (hfree : v.freeCnt = g.clustCnt - 2)
    (hrecorded : v.Recorded g) : v.Consistent g [] where
  lastUsed := hlast
  readable := hg.readable_of_empty hempty
  chains := Chains.nil _
  mirrored := hg.mirrored_of_empty hempty
  counted := hfree.trans (hg.freeClusters_of_empty hempty).symm
  recorded := hrecorded

/-- A card that has been formatted. -/
def Device.formatted : Device :=
  { Device.blank with
    sectors := Function.update Device.blank.sectors 1 (Fat32.storeInfo 2 126 Sector.zero) }

theorem formatted_consistent :
    (Fat.mounted .formatted 2 126).volume.Consistent .small [] := by
  refine .of_empty small_wellFormed ?_ ⟨Nat.le_refl 2, by decide⟩ rfl ⟨?_, ?_⟩
  · intro sect hsect
    refine Function.update_of_ne ?_ _ _
    rintro rfl
    exact small_wellFormed.info_notMem hsect
  · exact storeInfo_freeCnt _ (by decide)
  · exact storeInfo_lastUsed _ (by decide)

end

end DemosOS.Fat32
