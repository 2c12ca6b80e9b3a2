import DemosOS.Fat.Residence

/-!
# Moving in a file

The bytes of an open file are those of the sectors of its chain, with the sector that the file has in
memory in place of the one on the card.  `fat_file_seek` moves to another place and does not change
them; behind the end of the chain it allocates clusters.

`Serving` is what the functions on a file rely on: a consistent volume with the chain of the file and
the other ones, and the sector in memory of the volume is one that the file has nothing to do with.
-/

namespace DemosOS.Fat32

open Lib

/-! ## The bytes of a file -/

/-- The sector in memory of an open file, over the volume. -/
def File.cache (f : File) (v : Volume) : WriteBack Nat Sector where
  store := v.sectors
  key := if f.sect = 0xffffffff then none else some f.sect
  block := f.buf
  dirty := f.dirty

/-- Byte `p` of a file with this chain. -/
def File.byteAt (g : Geometry) (v : Volume) (cs : List Nat) (f : File) (p : Nat) : UInt8 :=
  ((f.cache v).view (g.fileSect cs (p / 512))).byte (p % 512)

/-- The file has this chain, and its cluster is the one at its offset. -/
structure File.On (g : Geometry) (f : File) (cs : List Nat) : Prop where
  head : cs.head? = some f.sclust
  clust : cs[f.offset / g.clustSize]? = some f.clust
  size_le : f.size ≤ cs.length * g.clustSize
  size_lt : f.size < 2 ^ 32
  offset_lt : f.offset < 2 ^ 32

/-- An open file, in between calls. -/
structure File.Open (g : Geometry) (v : Volume) (f : File) (cs : List Nat) : Prop
    extends f.On g cs where
  sect : f.sect = g.fileSect cs (f.offset / 512)
  coherent : (f.cache v).Coherent

/-- A file whose position can be changed: it is open, or `fat_file_open` has just filled it. -/
structure File.Ready (g : Geometry) (v : Volume) (f : File) (cs : List Nat) : Prop
    extends f.On g cs where
  sect : f.sect = 0xffffffff ∨ f.sect = g.fileSect cs (f.offset / 512)
  coherent : (f.cache v).Coherent

theorem File.Open.ready {g : Geometry} {v : Volume} {f : File} {cs : List Nat}
    (h : f.Open g v cs) : f.Ready g v cs := ⟨h.toOn, Or.inr h.sect, h.coherent⟩

/-! ## What the functions on a file rely on -/

/-- A volume with these chains, and a sector in memory that belongs to none of them but those that are
given. -/
structure Hosting (g : Geometry) (kept chains : List (List Nat)) (s : Fat) (v : Volume) : Prop where
  shows : s.Shows v
  consistent : v.Consistent g chains
  sound : ¬ v.Faulty
  resides : s.Resides (g.Kept kept)

/-- A volume with the chain of a file; the directories are among the other chains. -/
structure Serving (g : Geometry) (dirs rest : List (List Nat)) (s : Fat) (v : Volume)
    (cs : List Nat) : Prop where
  shows : s.Shows v
  consistent : v.Consistent g (cs :: rest)
  sound : ¬ v.Faulty
  resides : s.Resides (g.Kept dirs)
  dirs_sub : dirs ⊆ rest

/-- What a call on a file leaves: the chain may have grown, and the data beside it are the same. -/
structure Served (g : Geometry) (dirs rest : List (List Nat)) (v : Volume) (cs : List Nat) (s' : Fat)
    (v' : Volume) (cs' : List Nat) : Prop extends Serving g dirs rest s' v' cs' where
  pre : cs <+: cs'
  free : v'.freeCnt + cs'.length = v.freeCnt + cs.length
  frame : ∀ n, g.dataSect ≤ n → (∀ c ∈ cs', ¬ g.InClust n c) → v'.sectors n = v.sectors n

/-- The sectors of the data are the same. -/
def Volume.SameData (g : Geometry) (v v' : Volume) : Prop :=
  ∀ n, g.dataSect ≤ n → v'.sectors n = v.sectors n

section

variable {g : Geometry} {dirs kept rest : List (List Nat)} {s : Fat} {v v' : Volume}
  {cs cs' : List Nat} {f : File} {c n j off prev : Nat}

theorem Geometry.WellFormed.inTables_lt (hg : g.WellFormed) (h : g.InTables n) : n < g.dataSect := by
  have hdata := hg.data
  rcases h with ⟨-, hlt⟩ | ⟨hm, -, hlt⟩
  · exact Nat.lt_of_lt_of_le hlt hdata
  · exact Nat.lt_of_lt_of_le hlt (hg.data_mirror hm)

theorem Volume.SameData.trans {v'' : Volume} (h : v.SameData g v') (h' : v'.SameData g v'') :
    v.SameData g v'' := fun n hn ↦ (h' n hn).trans (h n hn)

/-- Changes of the table and of the counters do not touch the data. -/
theorem Volume.sameData_linked (hg : g.WellFormed) (hlt : c < g.clustCnt)
    (hprev : prev < g.clustCnt) : v.SameData g ((v.marked.linked g prev c).synced g) := by
  intro n hn
  have hentry : ∀ {w : Nat → Sector} {a val : Nat}, a < g.clustCnt → g.putEntry a val w n = w n :=
    fun ha ↦ hg.putEntry_of_notMem ha fun hin ↦ absurd (hg.inTables_lt hin) (Nat.not_lt_of_le hn)
  have hlinked : (v.marked.linked g prev c).sectors n = v.sectors n := by
    by_cases hzero : prev = 0
    · subst hzero
      rw [linked_zero_sectors, hentry hlt]
      rfl
    · rw [linked_sectors _ _ hzero, hentry hprev, hentry hlt]
      rfl
  have hinfo : n ≠ g.infoSect := by
    have hinfo := hg.info_lt_data
    omega
  rw [← hlinked, synced, if_pos (show (v.marked.linked g prev c).infoDirty = true from rfl)]
  exact Function.update_of_ne hinfo _ _

/-- Consistency is a matter of the sectors before the data. -/
theorem Volume.Consistent.congr {chains : List (List Nat)} (hg : g.WellFormed)
    (h : v.Consistent g chains) (hbooks : v'.toBooks = v.toBooks)
    (hsectors : ∀ n < g.dataSect, v'.sectors n = v.sectors n) : v'.Consistent g chains := by
  have htables : g.SameTables v.sectors v'.sectors := fun n hn ↦ hsectors n (hg.inTables_lt hn)
  have hlink := hg.link_congr htables
  have hlast : v'.lastUsed = v.lastUsed := congrArg Books.lastUsed hbooks
  have hfree : v'.freeCnt = v.freeCnt := congrArg Books.freeCnt hbooks
  have hinfo := hsectors g.infoSect hg.info_lt_data
  refine ⟨⟨?_, hg.readable_congr htables h.readable⟩, ?_, hg.mirrored_congr htables h.mirrored, ?_,
    ?_, ?_⟩
  · rw [hlast]
    exact h.lastUsed
  · rw [Volume.link, hlink]
    exact h.chains
  · rw [hfree, Geometry.freeClusters_congr hlink]
    exact h.counted
  · rw [hinfo, hfree]
    exact h.recorded.freeCnt
  · rw [hinfo, hlast]
    exact h.recorded.lastUsed

/-! ## Chains of a consistent volume -/

theorem Serving.chain (h : Serving g dirs rest s v cs) : IsChain (v.link g) cs :=
  h.consistent.chains.chain cs List.mem_cons_self

theorem Serving.range (h : Serving g dirs rest s v cs) (hc : c ∈ cs) : 2 ≤ c ∧ c < g.clustCnt :=
  h.consistent.range List.mem_cons_self hc

/-- The sector in memory of the volume is not one of the file. -/
theorem Serving.sect_ne (h : Serving g dirs rest s v cs) (hc : c ∈ cs) (hn : g.InClust n c) :
    s.sect ≠ n := by
  rintro rfl
  refine h.resides.not_inClust ?_ (h.range hc).1 ?_ hn
  · intro ds hds d hd
    exact (h.consistent.range (List.mem_cons_of_mem _ (h.dirs_sub hds)) hd).1
  · intro ds hds hmem
    exact h.consistent.chains.disjoint_head (h.dirs_sub hds) hc hmem

/-! ## Reading and writing past the sector in memory -/

theorem opsRead_spec (h : s.Shows v) (hsound : ¬ v.Faulty) (hn : s.sect ≠ n) :
    opsRead n s = .ok (some (v.sectors n)) { s with device := s.device.tick } := by
  have hstore : s.device.sectors n = v.sectors n := by
    rw [← h.sectors]
    exact (WriteBack.view_of_ne (Fat.key_of_ne hn)).symm
  rw [← hstore]
  refine opsRead_of_not_fails ?_
  rw [h.fails]
  exact Bool.eq_false_iff.mpr fun hfails ↦ hsound ⟨_, hfails⟩

theorem Fat.Shows.tick (h : s.Shows v) : Fat.Shows { s with device := s.device.tick } v :=
  h.of_cache h.coherent rfl rfl rfl

theorem opsWrite_spec {b : Sector} (h : s.Shows v) (hsound : ¬ v.Faulty) (hn : s.sect ≠ n) :
    opsWrite b n s = .ok true { s with device := s.device.written n b } ∧
      Fat.Shows { s with device := s.device.written n b }
        { v with sectors := Function.update v.sectors n b } := by
  constructor
  · refine opsWrite_of_not_fails ?_
    rw [h.fails]
    exact Bool.eq_false_iff.mpr fun hfails ↦ hsound ⟨_, hfails⟩
  · have hview := WriteBack.view_poke (Fat.key_of_ne hn) b
    refine ⟨WriteBack.coherent_poke h.coherent (Fat.key_of_ne hn) b, ?_⟩
    have hbooks := h.books
    have hfails := h.fails
    rw [← h.sectors, ← hview]
    unfold Fat.volume
    rw [← hfails]
    change Volume.mk s.toBooks _ _ = Volume.mk v.toBooks _ _
    rw [hbooks]
    rfl

/-! ## Following the chain -/

/-- A free cluster is counted. -/
theorem Volume.Consistent.freeCnt_pos {chains : List (List Nat)} (h : v.Consistent g chains)
    (hc : v.link g c = .free) : 0 < v.freeCnt := by
  rw [h.counted]
  refine Nat.pos_of_ne_zero fun hzero ↦ ?_
  have hlt := (Geometry.range_of_link (v := v.sectors) (c := c) (by
    rw [show g.link v.sectors c = .free from hc]
    exact nofun)).2
  have hused := freeCells_eq_zero.mp hzero c hlt
  exact of_decide_eq_true hused hc

/-- If no cluster can be had, one cluster is free at most. -/
theorem Volume.Consistent.freeCnt_le {chains : List (List Nat)} (h : v.Consistent g chains)
    (hfull : v.Full g) : v.freeCnt ≤ 1 := by
  have hfull' : ∀ n ≤ g.clustCnt, freeCells (fun c ↦ decide (g.link v.sectors c ≠ .free)) n ≤
      if v.lastUsed < n then 1 else 0 := by
    intro n
    induction n with
    | zero => exact fun _ ↦ Nat.le_refl 0
    | succ n ih =>
        intro hn
        have hle := ih (Nat.le_of_succ_le hn)
        rw [freeCells_succ]
        by_cases hlast : n = v.lastUsed
        · subst hlast
          rw [if_neg (Nat.lt_irrefl _)] at hle
          rw [if_pos (Nat.lt_succ_self _)]
          split_ifs
          all_goals omega
        · have hused : g.link v.sectors n ≠ .free := hfull n hlast
          rw [if_pos (decide_eq_true hused), Nat.add_zero]
          refine hle.trans ?_
          split_ifs
          all_goals omega
  have hle := hfull' g.clustCnt (Nat.le_refl _)
  rw [if_pos h.lastUsed.2] at hle
  rw [h.counted]
  exact hle

theorem Serving.hosting (h : Serving g dirs rest s v cs) : Hosting g dirs (cs :: rest) s v :=
  ⟨h.shows, h.consistent, h.sound, h.resides⟩

theorem Hosting.serving (h : Hosting g dirs (cs :: rest) s v) (hsub : dirs ⊆ rest) :
    Serving g dirs rest s v cs := ⟨h.shows, h.consistent, h.sound, h.resides, hsub⟩

/-- The entry of a cluster of a chain. -/
theorem Hosting.getFat (hg : g.WellFormed) (h : Hosting g kept (cs :: rest) s v)
    (hj : cs[j]? = some c) :
    Yields (getFat g c) s
      (fun r s' ↦ Hosting g kept (cs :: rest) s' v ∧ (r.2 = .last ∧ j + 1 = cs.length ∨
        r.2 = .used ∧ cs[j + 1]? = some r.1)) fun _ _ ↦ False := by
  obtain ⟨hlt, hget⟩ := List.getElem?_eq_some_iff.mp hj
  have hchain := h.consistent.chains.chain cs List.mem_cons_self
  obtain ⟨hc2, hclt⟩ := h.consistent.range List.mem_cons_self (hget ▸ List.getElem_mem hlt)
  refine ((getFat_keeps hg (fun n hn ↦ Geometry.kept_of_lt hn) hclt).and h.resides
    (getFat_spec hg h.shows hclt)).mono ?_ ?_
  · rintro ⟨next, state⟩ s' ⟨⟨hshows, hval, hstate⟩, hs'⟩
    have hlink : v.link g c = state.link next := by
      rw [Volume.link, Geometry.link_of_range hc2 hclt, ← hval]
      exact Geometry.meaning_of_classify hstate
    refine ⟨{ h with shows := hshows, resides := hs' }, ?_⟩
    by_cases hend : j + 1 = cs.length
    · left
      have hlink' : v.link g c = .last := hget ▸ hchain.getElem_last _ hend
      cases state with
      | last => exact ⟨rfl, hend⟩
      | free | used | bad => cases hlink'.symm.trans hlink
    · right
      have hnext : j + 1 < cs.length := Nat.lt_of_le_of_ne hlt hend
      have hlink' : v.link g c = .next cs[j + 1] := hget ▸ hchain.getElem_next hnext
      cases state with
      | used =>
          rw [Link.next.inj (hlink.symm.trans hlink')]
          exact ⟨rfl, List.getElem?_eq_getElem hnext⟩
      | free | last | bad => cases hlink'.symm.trans hlink
  · rintro e s' ⟨hio | ⟨-, hnone, -⟩, -⟩
    · exact h.sound hio.2.1
    · exact h.consistent.readable c hc2 hclt hnone

/-- The volume after `stretch_chain` has put a cluster behind a chain. -/
theorem Hosting.stretch (hg : g.WellFormed) (h : Hosting g kept (cs :: rest) s v) {s' : Fat}
    (hj : cs[j]? = some prev) (hend : j + 1 = cs.length) (hchosen : v.Chosen g prev c)
    (hshows : s'.Shows ((v.marked.linked g prev c).synced g)) (hs' : s'.Resides (g.Kept kept)) :
    Hosting g kept ((cs ++ [c]) :: rest) s' ((v.marked.linked g prev c).synced g) where
  shows := hshows
  consistent := by
    have hchain := h.consistent.chains.chain cs List.mem_cons_self
    have hlast : cs.getLast hchain.ne_nil = prev := by
      obtain ⟨hlt, hget⟩ := List.getElem?_eq_some_iff.mp hj
      rw [List.getLast_eq_getElem, ← hget]
      congr 1
      omega
    subst hlast
    exact h.consistent.stretch hg hchosen.free
  sound := by
    rintro ⟨n, hn⟩
    refine h.sound ⟨n, ?_⟩
    rwa [Volume.synced, if_pos (show (v.marked.linked g prev c).infoDirty = true from rfl)] at hn
  resides := hs'

/-- A cluster is put behind the chain, if one can be had. -/
theorem Hosting.stretchChain (hg : g.WellFormed) (h : Hosting g kept (cs :: rest) s v)
    (hj : cs[j]? = some prev) (hend : j + 1 = cs.length) :
    Yields (stretchChain g prev) s
      (fun c s' ↦ ∃ v', Hosting g kept ((cs ++ [c]) :: rest) s' v' ∧ v.SameData g v' ∧
        v'.freeCnt + 1 = v.freeCnt)
      (fun e s' ↦ e = .code FAT_ERR_FULL ∧ Hosting g kept (cs :: rest) s' v.marked ∧
        v.Exhausted g prev) := by
  obtain ⟨hlt', hget⟩ := List.getElem?_eq_some_iff.mp hj
  obtain ⟨hprev, hlt⟩ := h.consistent.range List.mem_cons_self (hget ▸ List.getElem_mem hlt')
  refine ((stretchChain_keeps hg (fun n hn ↦ Geometry.kept_of_lt hn) hlt).and h.resides
    (stretchChain_spec hg h.consistent.toUsable h.shows (Or.inr ⟨hprev, hlt⟩))).mono ?_ ?_
  · rintro c s' ⟨⟨hchosen, hshows, -⟩ | hfaulty, hs'⟩
    · refine ⟨_, h.stretch hg hj hend hchosen hshows hs',
        Volume.sameData_linked hg hchosen.range.2 hlt, ?_⟩
      have hpos := h.consistent.freeCnt_pos hchosen.free
      have hle := g.freeClusters_le v.sectors
      have hpow := hg.lt_pow
      have hcounted := h.consistent.counted
      rw [(Volume.synced_books _).1]
      change (v.freeCnt + 2 ^ 32 - 1) % 2 ^ 32 + 1 = v.freeCnt
      omega
    · exact absurd hfaulty h.sound
  · rintro e s' ⟨⟨he, hshows, hfull⟩ | ⟨hfaulty, -⟩, hs'⟩
    · exact ⟨he, ⟨hshows, h.consistent.marked, h.sound, hs'⟩, hfull⟩
    · exact absurd hfaulty h.sound

/-- One step along the chain, which grows at its end; it fails only if no cluster can be had. -/
theorem followClust_spec (hg : g.WellFormed) (h : Serving g dirs rest s v cs)
    (hj : cs[j]? = some f.clust) :
    Yields (followClust g) (s, f)
      (fun _ p ↦ ∃ v' cs' c', Serving g dirs rest p.1 v' cs' ∧ v.SameData g v' ∧ cs <+: cs' ∧
        v'.freeCnt + cs'.length = v.freeCnt + cs.length ∧ (j + 1 < cs.length → cs' = cs) ∧
        cs'[j + 1]? = some c' ∧ p.2 = { f with clust := c' })
      (fun e p ↦ e = .code FAT_ERR_FULL ∧ Serving g dirs rest p.1 v.marked cs ∧ p.2 = f ∧
        j + 1 = cs.length ∧ v.Exhausted g f.clust) := by
  refine Yields.get_bind (Yields.bind (Q := fun r p ↦ Hosting g dirs (cs :: rest) p.1 v ∧
    (r.2 = .last ∧ j + 1 = cs.length ∨ r.2 = .used ∧ cs[j + 1]? = some r.1) ∧ p.2 = f)
    (Yields.onFirst ((h.hosting.getFat hg hj).mono (fun _ _ h ↦ ⟨h.1, h.2, rfl⟩)
      fun _ _ hE ↦ hE.elim)) ?_)
  rintro ⟨next, state⟩ ⟨s₁, f₁⟩ ⟨h₁, ⟨rfl, hend⟩ | ⟨rfl, hnext⟩, rfl⟩
  · -- the chain ends here
    refine Yields.bind (Q := fun c p ↦ (∃ v', Hosting g dirs ((cs ++ [c]) :: rest) p.1 v' ∧
      v.SameData g v' ∧ v'.freeCnt + 1 = v.freeCnt) ∧ p.2 = f₁)
      (Yields.onFirst ((h₁.stretchChain hg hj hend).mono (fun _ _ h ↦ ⟨h, rfl⟩) fun e s' hE ↦
        ⟨hE.1, hE.2.1.serving h.dirs_sub, rfl, hend, hE.2.2⟩)) ?_
    rintro c ⟨s₂, f₂⟩ ⟨⟨v', h₂, hdata, hfree⟩, rfl⟩
    refine Yields.modify ⟨v', cs ++ [c], c, h₂.serving h.dirs_sub, hdata, List.prefix_append _ _, ?_,
      fun hlt ↦ absurd hlt (by omega), ?_, rfl⟩
    · rw [List.length_append, List.length_singleton]
      omega
    · rw [hend]
      exact List.getElem?_concat_length
  · exact Yields.modify ⟨v, cs, next, h₁.serving h.dirs_sub, fun _ _ ↦ rfl, List.prefix_rfl, rfl,
      fun _ ↦ rfl, hnext, rfl⟩

/-- The loop of `fat_file_seek`.  When it fails it may have come forward nevertheless, and the file
is left with a cluster that is not the one at its offset. -/
theorem follow_spec (hg : g.WellFormed) (h : Serving g dirs rest s v cs)
    (hj : cs[j]? = some f.clust) (n : Nat) :
    Yields (times (followClust g) n) (s, f)
      (fun _ p ↦ ∃ v' cs' c', Serving g dirs rest p.1 v' cs' ∧ v.SameData g v' ∧ cs <+: cs' ∧
        v'.freeCnt + cs'.length = v.freeCnt + cs.length ∧ (j + n < cs.length → cs' = cs) ∧
        cs'[j + n]? = some c' ∧ p.2 = { f with clust := c' })
      (fun e p ↦ e = .code FAT_ERR_FULL ∧ ∃ v' cs' c', Serving g dirs rest p.1 v' cs' ∧
        v.SameData g v' ∧ cs <+: cs' ∧ v'.freeCnt + cs'.length = v.freeCnt + cs.length ∧
        v'.Exhausted g c' ∧ p.2 = { f with clust := c' } ∧
        ∃ i < n, cs'[j + i]? = some c' ∧ j + i + 1 = cs'.length) := by
  refine Yields.times (I := fun i (p : Fat × File) ↦ ∃ v' cs' c', Serving g dirs rest p.1 v' cs' ∧
    v.SameData g v' ∧ cs <+: cs' ∧ v'.freeCnt + cs'.length = v.freeCnt + cs.length ∧
    (j + i < cs.length → cs' = cs) ∧ cs'[j + i]? = some c' ∧ p.2 = { f with clust := c' }) ?_
    ⟨v, cs, f.clust, h, fun _ _ ↦ rfl, List.prefix_rfl, rfl, fun _ ↦ rfl, hj, rfl⟩
  rintro i hi ⟨s₁, f₁⟩ ⟨v₁, cs₁, c₁, h₁, hdata₁, hpre₁, hfree₁, hsame₁, hc₁, rfl⟩
  refine (followClust_spec hg h₁ (f := { f with clust := c₁ }) hc₁).mono ?_ ?_
  · rintro _ ⟨s₂, f₂⟩ ⟨v₂, cs₂, c₂, h₂, hdata₂, hpre₂, hfree₂, hsame₂, hc₂, rfl⟩
    refine ⟨v₂, cs₂, c₂, h₂, hdata₁.trans hdata₂, hpre₁.trans hpre₂, hfree₂.trans hfree₁,
      fun hlt ↦ ?_, hc₂, rfl⟩
    obtain rfl := hsame₁ (by omega)
    exact hsame₂ hlt
  · rintro e ⟨s₂, f₂⟩ ⟨he, h₂, rfl, hend, hfull⟩
    exact ⟨he, v₁.marked, cs₁, c₁, h₂, hdata₁, hpre₁, hfree₁, hfull, rfl, i, hi, hc₁, hend⟩

/-! ## Changing the sector -/

/-- The card shows what the file shows. -/
def File.flushed (f : File) (v : Volume) : Volume := { v with sectors := (f.cache v).view }

theorem File.cache_key (h : f.sect ≠ 0xffffffff) : (f.cache v).key = some f.sect := if_neg h

theorem File.cache_key_fresh (h : f.sect = 0xffffffff) : (f.cache v).key = none := if_pos h

theorem File.view_of_ne (h : f.sect ≠ n) : (f.cache v).view n = v.sectors n := by
  refine WriteBack.view_of_ne ?_
  by_cases hfresh : f.sect = 0xffffffff
  · rw [File.cache_key_fresh hfresh]
    exact nofun
  · rw [File.cache_key hfresh]
    exact fun heq ↦ h (Option.some.inj heq)

theorem switchSect_spec (h : Serving g dirs rest s v cs) (hcoherent : (f.cache v).Coherent)
    (hold : f.sect = 0xffffffff ∨ ∃ c ∈ cs, g.InClust f.sect c) (hn : ∃ c ∈ cs, g.InClust n c)
    {off : Nat} :
    Yields (switchSect f.sect) (s, { f with clust := c, sect := n, offset := off })
      (fun _ p ↦ p.1.Shows (f.flushed v) ∧ p.1.sect = s.sect ∧
        p.2 = { f with
          clust := c, sect := n, offset := off, dirty := false, buf := (f.cache v).view n })
      fun _ _ ↦ False := by
  obtain ⟨d, hd, hin⟩ := hn
  have hne : s.sect ≠ n := h.sect_ne hd hin
  refine Yields.get_bind (Yields.bind (Q := fun _ p ↦ p.1.Shows (f.flushed v) ∧ p.1.sect = s.sect ∧
    p.2 = { f with clust := c, sect := n, offset := off, dirty := false })
    (Yields.when (fun hdirty ↦ ?_) fun hdirty ↦ ?_) ?_)
  · have hkey : (f.cache v).key = some f.sect := by
      refine if_neg fun hfresh ↦ hcoherent.loaded hdirty (File.cache_key_fresh hfresh)
    obtain ⟨b, hb, hinb⟩ := hold.resolve_left fun hfresh ↦
      hcoherent.loaded hdirty (File.cache_key_fresh hfresh)
    obtain ⟨hwrite, hshows⟩ := opsWrite_spec (b := f.buf) h.shows h.sound (h.sect_ne hb hinb)
    refine Yields.bind (Q := fun r p ↦ r = true ∧ p.1.Shows (f.flushed v) ∧ p.1.sect = s.sect ∧
      p.2 = { f with clust := c, sect := n, offset := off }) (Yields.onFirst (Yields.of_ok hwrite
        ⟨rfl, ?_, rfl, rfl⟩)) ?_
    · rw [File.flushed, WriteBack.view_of_key hkey]
      exact hshows
    · rintro _ ⟨s₁, f₁⟩ ⟨rfl, h₁, hs₁, rfl⟩
      exact Yields.modify ⟨h₁, hs₁, rfl⟩
  · have hclean : (f.cache v).dirty = false := Bool.eq_false_iff.mpr hdirty
    refine ⟨?_, rfl, ?_⟩
    · rw [File.flushed, WriteBack.view_of_clean hcoherent hclean]
      exact h.shows
    · rw [show false = f.dirty from hclean.symm]
  · rintro _ ⟨s₁, f₁⟩ ⟨h₁, hs₁, rfl⟩
    have hread := opsRead_spec h₁ h.sound (n := n) (by rw [hs₁]; exact hne)
    refine Yields.bind (Q := fun r p ↦ r = some ((f.cache v).view n) ∧ p.1.Shows (f.flushed v) ∧
      p.1.sect = s.sect ∧ p.2 = { f with clust := c, sect := n, offset := off, dirty := false })
      (Yields.onFirst (Yields.of_ok hread ⟨rfl, h₁.tick, hs₁, rfl⟩)) ?_
    rintro _ ⟨s₂, f₂⟩ ⟨rfl, h₂, hs₂, rfl⟩
    exact Yields.modify ⟨h₂, hs₂, rfl⟩

/-! ## What a file shows -/

/-- The sector that the file has in memory is one of its chain, if there is one. -/
theorem File.Ready.sect_mem (h : f.Ready g v cs) :
    f.sect = 0xffffffff ∨ ∃ c ∈ cs, g.InClust f.sect c := by
  refine h.sect.imp_right fun hsect ↦ ⟨f.clust, List.mem_of_getElem? h.clust, ?_⟩
  rw [hsect]
  refine Geometry.inClust_fileSect ?_
  rw [Geometry.div_clustSize]
  exact h.clust

theorem Geometry.fileSect_data (g : Geometry) (cs : List Nat) (j : Nat) :
    g.dataSect ≤ g.fileSect cs j := by
  unfold fileSect sectOf
  omega

/-- A file shows the same if the data are the same. -/
theorem File.view_sameData (h : v.SameData g v') (hn : g.dataSect ≤ n) :
    (f.cache v').view n = (f.cache v).view n := by
  by_cases hsect : f.sect = n
  · by_cases hfresh : f.sect = 0xffffffff
    · rw [WriteBack.view_of_none (File.cache_key_fresh hfresh),
        WriteBack.view_of_none (File.cache_key_fresh hfresh)]
      exact h n hn
    · subst hsect
      rw [WriteBack.view_self (File.cache_key hfresh), WriteBack.view_self (File.cache_key hfresh)]
      rfl
  · rw [File.view_of_ne hsect, File.view_of_ne hsect]
    exact h n hn

theorem File.coherent_sameData (h : v.SameData g v') (hcoherent : (f.cache v).Coherent)
    (hsect : f.sect = 0xffffffff ∨ ∃ c ∈ cs, g.InClust f.sect c) : (f.cache v').Coherent where
  clean {k} hkey hclean := by
    rcases hsect with hfresh | ⟨c, -, hin⟩
    · exact nomatch hkey.symm.trans (File.cache_key_fresh (v := v') hfresh)
    · have hne : f.sect ≠ 0xffffffff := fun hfresh ↦
        nomatch hkey.symm.trans (File.cache_key_fresh (v := v') hfresh)
      obtain rfl := Option.some.inj (hkey.symm.trans (File.cache_key (v := v') hne))
      exact (hcoherent.clean (File.cache_key hne) hclean).trans (h _ hin.data_le).symm
  loaded := hcoherent.loaded

theorem File.byteAt_congr {f' : File} (hpre : cs <+: cs')
    (hview : ∀ n, g.dataSect ≤ n → (f'.cache v').view n = (f.cache v).view n) {q : Nat}
    (hq : q < cs.length * g.clustSize) : f'.byteAt g v' cs' q = f.byteAt g v cs q := by
  have hlt : q / 512 / 2 ^ g.clustShift < cs.length := by
    rw [Geometry.div_clustSize]
    exact (Nat.div_lt_iff_lt_mul g.clustSize_pos).mpr hq
  rw [byteAt, byteAt, Geometry.fileSect_prefix hpre hlt, hview _ (g.fileSect_data cs _)]

/-- The file has been written back. -/
theorem Serving.flushed (hg : g.WellFormed) (h : Serving g dirs rest s v cs)
    (hsect : f.sect = 0xffffffff ∨ ∃ c ∈ cs, g.InClust f.sect c) {s' : Fat}
    (hshows : s'.Shows (f.flushed v)) (hs' : s'.sect = s.sect) :
    Served g dirs rest v cs s' (f.flushed v) cs where
  shows := hshows
  consistent := by
    refine h.consistent.congr hg rfl fun n hn ↦ File.view_of_ne ?_
    rintro rfl
    rcases hsect with hfresh | ⟨c, -, hin⟩
    · have hpos := g.clustSects_pos
      have hfits := hg.sectOf_lt (Nat.le_refl 2) hg.clusters hpos
      unfold Geometry.sectOf at hfits
      omega
    · exact absurd hin.data_le (Nat.not_le_of_lt hn)
  sound := h.sound
  resides := by
    change g.Kept dirs s'.sect
    rw [hs']
    exact h.resides
  dirs_sub := h.dirs_sub
  pre := List.prefix_rfl
  free := rfl
  frame n hn hcs := by
    by_cases hfresh : f.sect = 0xffffffff
    · exact congrFun (WriteBack.view_of_none (File.cache_key_fresh hfresh)) n
    · refine File.view_of_ne ?_
      rintro rfl
      obtain ⟨c, hc, hin⟩ := hsect.resolve_left hfresh
      exact hcs c hc hin

/-! ## fat_file_seek -/

/-- A position in the chain or behind it.  The bytes of the file stay the same, and a chain that is
long enough does not grow.  The only failure is that no cluster can be had. -/
theorem seekTo_spec (hg : g.WellFormed) (h : Serving g dirs rest s v cs) (hf : f.Ready g v cs)
    (hoff : off < 2 ^ 32) :
    Yields (seekTo g off) (s, f)
      (fun _ p ↦ ∃ v' cs', Served g dirs rest v cs p.1 v' cs' ∧ p.2.Open g v' cs' ∧
        p.2.toHandle = f.toHandle ∧ p.2.offset = off ∧
        (∀ q < cs.length * g.clustSize, p.2.byteAt g v' cs' q = f.byteAt g v cs q) ∧
        (off / g.clustSize < cs.length → cs' = cs))
      (fun e p ↦ e = .code FAT_ERR_FULL ∧ ∃ v' cs' c', Serving g dirs rest p.1 v' cs' ∧
        v.SameData g v' ∧ cs <+: cs' ∧ v'.freeCnt + cs'.length = v.freeCnt + cs.length ∧
        v'.Exhausted g c' ∧ p.2 = { f with clust := c' } ∧
        ∃ i < off / g.clustSize - f.offset / g.clustSize,
          cs'[f.offset / g.clustSize + i]? = some c' ∧
            f.offset / g.clustSize + i + 1 = cs'.length) := by
  have hlen : f.offset / g.clustSize < cs.length := (List.getElem?_eq_some_iff.mp hf.clust).1
  refine Yields.get_bind (Yields.bind (Q := fun _ p ↦ p.1 = s ∧ ∃ c₀ n₀ o₀,
    p.2 = { f with clust := c₀, sect := n₀, offset := o₀ } ∧ cs[o₀ / g.clustSize]? = some c₀ ∧
      o₀ / g.clustSize ≤ off / g.clustSize ∧ (off / g.clustSize < cs.length ∨ p.2 = f))
    (Yields.when (fun hback ↦ ?_) fun hback ↦ ?_) ?_)
  · refine Yields.modify ⟨rfl, f.sclust, g.clustToSect f.sclust, 0, rfl, ?_, ?_, Or.inl ?_⟩
    · rw [Nat.zero_div, ← List.head?_eq_getElem?]
      exact hf.head
    · rw [Nat.zero_div]
      exact Nat.zero_le _
    · exact Nat.lt_trans hback hlen
  · exact ⟨rfl, f.clust, f.sect, f.offset, rfl, hf.clust, Nat.le_of_not_lt hback, Or.inr rfl⟩
  rintro _ ⟨s₀, f₀⟩ ⟨rfl, c₀, n₀, o₀, hf₀, hc₀, hle, hback⟩
  dsimp only at hf₀ hback
  subst hf₀
  refine Yields.get_bind ((follow_spec hg h (f := { f with clust := c₀, sect := n₀, offset := o₀ })
    hc₀ (off / g.clustSize - o₀ / g.clustSize)).mono (fun _ _ h ↦ h) ?_ |>.bind ?_)
  · rintro e ⟨s₁, f₁⟩ ⟨he, v₁, cs₁, c₁, h₁, hdata, hpre, hfree, hfull, rfl, i, hi, hc₁, hend⟩
    rcases hback with hlt | hsame
    · have hle := hpre.length_le
      omega
    · have hc := congrArg File.offset hsame
      dsimp only at hc
      subst hc
      refine ⟨he, v₁, cs₁, c₁, h₁, hdata, hpre, hfree, hfull, ?_, i, hi, hc₁, hend⟩
      have hn := congrArg File.sect hsame
      dsimp only at hn
      rw [hn]
  · rintro _ ⟨s₁, f₁⟩ ⟨v₁, cs₁, c₁, h₁, hdata, hpre, hfree, hsame, hc₁, rfl⟩
    rw [Nat.add_sub_cancel' hle] at hsame hc₁
    have hmem₁ : c₁ ∈ cs₁ := List.mem_of_getElem? hc₁
    obtain ⟨hc2, hclt⟩ := h₁.range hmem₁
    have hplace := hg.place_eq hc2 hclt hc₁
    have hin : g.InClust (g.fileSect cs₁ (off / 512)) c₁ := by
      refine Geometry.inClust_fileSect ?_
      rw [Geometry.div_clustSize]
      exact hc₁
    have hsect : f.sect = 0xffffffff ∨ ∃ c ∈ cs₁, g.InClust f.sect c :=
      hf.sect_mem.imp_right fun ⟨c, hc, hin⟩ ↦ ⟨c, hpre.subset hc, hin⟩
    have hcoherent := File.coherent_sameData hdata hf.coherent hf.sect_mem
    have hon : ∀ b d, File.On g { f with
        clust := c₁, sect := g.fileSect cs₁ (off / 512), offset := off, dirty := d, buf := b } cs₁ :=
      fun _ _ ↦
        { head := by
            obtain ⟨ds, rfl⟩ := hpre
            have hhead := hf.head
            cases cs with
            | nil => exact nomatch hhead
            | cons c cs => exact hhead
          clust := hc₁
          size_le := hf.size_le.trans (Nat.mul_le_mul_right _ hpre.length_le)
          size_lt := hf.size_lt
          offset_lt := hoff }
    refine Yields.bind (Q := fun _ p ↦ p = (s₁, { f with
      clust := c₁, sect := g.fileSect cs₁ (off / 512), offset := off })) (Yields.modify ?_) ?_
    · rw [← hplace]
    rintro _ _ rfl
    refine Yields.get_bind (Yields.when (fun hmove ↦ ?_) fun hstay ↦ ?_)
    · refine (switchSect_spec h₁ hcoherent hsect ⟨c₁, hmem₁, hin⟩).mono ?_ fun _ _ hE ↦ hE.elim
      rintro _ ⟨s₂, f₂⟩ ⟨h₂, hs₂, rfl⟩
      have hserved := h₁.flushed hg hsect h₂ hs₂
      have hne : g.fileSect cs₁ (off / 512) ≠ 0xffffffff := (hin.lt hg hc2 hclt).ne
      refine ⟨f.flushed v₁, cs₁, { hserved with pre := hpre, free := hfree, frame := ?_ },
        { hon _ _ with sect := rfl, coherent := ?_ }, rfl, rfl, fun q hq ↦ ?_, hsame⟩
      · exact fun n hn hcs ↦ (hserved.frame n hn hcs).trans (hdata n hn)
      · exact ⟨fun hkey _ ↦ Option.some.inj ((File.cache_key hne).symm.trans hkey) ▸ rfl, nofun⟩
      · refine File.byteAt_congr hpre (fun n hn ↦ ?_) hq
        rw [← File.view_sameData hdata hn]
        by_cases hn' : g.fileSect cs₁ (off / 512) = n
        · subst hn'
          exact WriteBack.view_self (File.cache_key hne)
        · exact File.view_of_ne hn'
    · -- the file is in the same sector
      have hstay := not_not.mp hstay
      dsimp only at hstay
      refine ⟨v₁, cs₁, { h₁ with pre := hpre, free := hfree, frame := fun n hn _ ↦ hdata n hn },
        { hon _ _ with sect := rfl, coherent := ?_ }, rfl, rfl, fun q hq ↦ ?_, hsame⟩
      · rw [hstay]
        exact hcoherent
      · refine File.byteAt_congr hpre (fun n hn ↦ ?_) hq
        rw [hstay]
        exact File.view_sameData hdata hn

end

/-! ## A small volume with two files -/

section

variable {g : Geometry} {v : Volume} {c : Nat}

/-- The table after a chain has been created. -/
theorem Volume.link_created (hg : g.WellFormed) (hc : 2 ≤ c) (hlt : c < g.clustCnt) :
    ((v.marked.linked g 0 c).synced g).link g = Function.update (v.link g) c .last := by
  have hlink := hg.link_congr ((v.marked.linked g 0 c).synced_sameTables hg)
  rw [Volume.link, hlink]
  exact Volume.link_linked_zero (v := v.marked) hg hc hlt

/-- A chain of one cluster is created. -/
def Volume.created (v : Volume) (c : Nat) : Volume := (v.marked.linked .small 0 c).synced .small

/-- The entries of the two files, which are empty on the card. -/
def sampleDir : Sector := (Sector.zero.setField 26 2 3).setField 58 2 4

/-- A volume with a directory in cluster 2 and files in clusters 3 and 4. -/
def Fat.sample : Fat :=
  .mounted { Device.blank with
    sectors := Function.update
      ((((Fat.mounted .formatted 2 126).volume.created 2).created 3).created 4).sectors 5 sampleDir }
    4 123

/-- The two files; two bytes have been written to each of them. -/
def File.sample (i : Fin 2) : File where
  dirSect := 5
  dirIdx := 32 * i
  sclust := 3 + i
  size := 2
  attr := 0x20
  flags := 3
  accessed := true
  modified := true
  clust := 3 + i
  sect := 6 + i
  offset := 0
  dirty := true
  buf := Sector.zero.setField 0 2 0x6948

theorem sample_consistent : Fat.sample.volume.Consistent .small [[4], [3], [2]] := by
  have hfree : ∀ c, 2 ≤ c → c < 128 → (Fat.mounted .formatted 2 126).volume.link .small c = .free := by
    intro c hc hlt
    have hempty : Geometry.small.Empty (Fat.mounted .formatted 2 126).volume.sectors := by
      intro sect hsect
      refine Function.update_of_ne ?_ _ _
      rintro rfl
      exact small_wellFormed.info_notMem hsect
    rw [Volume.link, small_wellFormed.link_of_empty hempty]
    exact if_pos ⟨hc, hlt⟩
  have hfirst := formatted_consistent.create small_wellFormed (hfree 2 (by decide) (by decide))
  have hsecond := hfirst.create small_wellFormed (c := 3) (by
    rw [Volume.link_created small_wellFormed (by decide) (by decide),
      Function.update_of_ne (by decide)]
    exact hfree 3 (by decide) (by decide))
  have hthird := hsecond.create small_wellFormed (c := 4) (by
    rw [Volume.link_created small_wellFormed (by decide) (by decide),
      Function.update_of_ne (by decide), Volume.link_created small_wellFormed (by decide) (by decide),
      Function.update_of_ne (by decide)]
    exact hfree 4 (by decide) (by decide))
  exact hthird.congr small_wellFormed rfl fun n hn ↦ Function.update_of_ne (Nat.ne_of_lt hn) _ _

theorem sample_serving : Serving .small [[2]] [[4], [2]] .sample Fat.sample.volume [3] where
  shows := Fat.mounted_shows _ _ _
  consistent := sample_consistent.perm (List.Perm.swap _ _ _)
  sound := fun ⟨_, hfails⟩ ↦ nomatch hfails
  resides := Geometry.kept_of_lt (show 0 < 5 by decide)
  dirs_sub := by simp

theorem sample_open (i : Fin 2) : (File.sample i).Open .small Fat.sample.volume [3 + i.val] := by
  have hclust : [3 + i.val][0 / Geometry.small.clustSize]? = some (3 + i.val) := by
    rw [Nat.zero_div]
    rfl
  have hne : (File.sample i).sect ≠ 0xffffffff := by
    have hlt := i.isLt
    change 6 + i.val ≠ _
    omega
  refine ⟨⟨rfl, hclust, ?_, (by decide : 2 < 2 ^ 32), Nat.two_pow_pos 32⟩, ?_, nofun,
    fun _ hkey ↦ ?_⟩
  · show 2 ≤ 1 * Geometry.small.clustSize
    decide
  · match i with
    | 0 => rfl
    | 1 => rfl
  · exact nomatch (File.cache_key hne).symm.trans hkey

/-- The directory is on the card. -/
theorem sample_dir : Fat.sample.volume.sectors 5 = sampleDir := rfl

theorem sample_freeCnt : Fat.sample.volume.freeCnt = 123 := rfl

-- the calls are looked at through their specifications, and not run
attribute [irreducible] Fat.sample

end

end DemosOS.Fat32
