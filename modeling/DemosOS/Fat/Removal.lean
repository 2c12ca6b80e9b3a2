import DemosOS.Fat.Entries

/-!
# Freeing chains

What `get_fat`, `put_fat` and `remove_chain` do to the volume.  On a chain, `remove_chain` frees the
clusters of the chain and nothing else.  On a table that has been damaged it still comes to an end:
every round frees a cluster, and a chain that leads back to a cluster that has been freed is
reported as broken.
-/

namespace DemosOS.Fat32

open Lib

/-- An operation of the card has failed. -/
def CardError (v : Volume) (e : Failure) : Prop := e = .code FAT_ERR_IO ∧ v.Faulty

theorem IoError.card {v : Volume} {e : Failure} {s : Fat} (h : IoError v e s) : CardError v e :=
  ⟨h.1, h.2.1⟩

namespace Volume

/-- `put_fat`, on the sectors that are seen. -/
def putEntry (g : Geometry) (clust val : Nat) (v : Volume) : Volume :=
  { v with sectors := g.putEntry clust val v.sectors }

/-- `FAT_INFO_DIRTY` is set. -/
def marked (v : Volume) : Volume := { v with infoDirty := true }

/-- The entry of a cluster is freed and counted. -/
def freeEntry (g : Geometry) (v : Volume) (clust : Nat) : Volume :=
  { v.putEntry g clust 0 with freeCnt := (v.freeCnt + 1) % 2 ^ 32 }

/-- The clusters of a list are freed. -/
def freeAll (g : Geometry) (v : Volume) (cs : List Nat) : Volume := cs.foldl (freeEntry g) v

/-- What the table says. -/
def link (g : Geometry) (v : Volume) : Nat → Link Nat := g.link v.sectors

end Volume

section

variable {g : Geometry} {s : Fat} {v : Volume} {c c' val : Nat} {cs : List Nat}

/-! ## Entries -/

theorem Geometry.WellFormed.tableSect (hg : g.WellFormed) (hc : c < g.clustCnt) :
    (g.fatSect + c / 128) % 2 ^ 32 = g.fatSect + c / 128 ∧ g.fatSect + c / 128 ≠ 0 := by
  have hlt := hg.sect_lt hc
  have hdata := hg.data
  have hrange := hg.range
  have hinfo := hg.info_lt
  exact ⟨Nat.mod_eq_of_lt (by omega), by omega⟩

theorem Geometry.WellFormed.mirrorTableSect (hg : g.WellFormed) (hm : g.mirrorSect ≠ 0)
    (hc : c < g.clustCnt) :
    (g.mirrorSect + c / 128) % 2 ^ 32 = g.mirrorSect + c / 128 ∧ g.mirrorSect + c / 128 ≠ 0 := by
  have hlt := hg.sect_lt hc
  have hdata := hg.data_mirror hm
  have hrange := hg.range
  exact ⟨Nat.mod_eq_of_lt (by omega), by omega⟩

theorem getFat_spec (hg : g.WellFormed) (h : s.Shows v) (hc : c < g.clustCnt) :
    Yields (getFat g c) s
      (fun r s' ↦ s'.Shows v ∧ r.1 = g.entry v.sectors c ∧ g.classify r.1 = some r.2)
      (fun e s' ↦ IoError v e s' ∨
        (e = .code FAT_ERR_BROKEN ∧ g.classify (g.entry v.sectors c) = none ∧ s'.Shows v)) := by
  obtain ⟨hmod, hpos⟩ := hg.tableSect hc
  unfold getFat
  rw [hmod]
  refine ((updateBuf_spec h hpos).mono (fun _ _ h ↦ h) fun _ _ ↦ Or.inl).bind ?_
  rintro _ s₁ ⟨h₁, hload⟩
  refine Yields.get_bind ?_
  have hval : getItem (c % 128) s₁.buf = g.entry v.sectors c := by
    rw [hload.buf, h₁.volume]
    rfl
  dsimp only
  rw [hval]
  cases hstate : g.classify (g.entry v.sectors c) with
  | none => exact Yields.throw (Or.inr ⟨rfl, rfl, h₁⟩)
  | some state => exact Yields.pure ⟨h₁, rfl, hstate⟩

theorem putFat2_spec {fatSect : Nat} (h : s.Shows v)
    (hmod : (fatSect + c / 128) % 2 ^ 32 = fatSect + c / 128) (hpos : fatSect + c / 128 ≠ 0) :
    Yields (putFat2 fatSect c val) s
      (fun _ s' ↦ s'.Shows { v with sectors := Geometry.putEntryAt fatSect c val v.sectors })
      (IoError v) := by
  unfold putFat2
  rw [hmod]
  refine (updateBuf_spec h hpos).bind ?_
  rintro _ s₁ ⟨h₁, hload⟩
  exact (editBuf_spec h₁ hload).mono (fun _ _ h ↦ h.1) fun _ _ hE ↦ hE

theorem putFat_spec (hg : g.WellFormed) (h : s.Shows v) (hc : c < g.clustCnt) :
    Yields (putFat g c val) s (fun _ s' ↦ s'.Shows (v.putEntry g c val)) fun e _ ↦ CardError v e := by
  obtain ⟨hmod, hpos⟩ := hg.tableSect hc
  refine Yields.bind
    (Q := fun _ s' ↦ s'.Shows { v with sectors := g.putMirror c val v.sectors })
    (Yields.when (fun hm ↦ ?_) fun hm ↦ ?_) ?_
  · obtain ⟨hmod', hpos'⟩ := hg.mirrorTableSect hm hc
    rw [Geometry.putMirror, if_pos hm]
    exact (putFat2_spec h hmod' hpos').mono (fun _ _ h ↦ h) fun _ _ ↦ IoError.card
  · rw [Geometry.putMirror, if_neg hm]
    exact h
  · intro _ s₁ h₁
    exact (putFat2_spec h₁ hmod hpos).mono (fun _ _ h ↦ h) fun _ _ ↦ IoError.card

theorem markInfo_spec {E : Failure → Fat → Prop} (h : s.Shows v) :
    Yields markInfo s (fun _ s' ↦ s'.Shows v.marked) E :=
  modifyBooks_spec (fun b ↦ { b with infoDirty := true }) h

theorem countFreed_spec {E : Failure → Fat → Prop} (h : s.Shows v) :
    Yields countFreed s
      (fun _ s' ↦ s'.Shows { v with freeCnt := (v.freeCnt + 1) % 2 ^ 32 }) E :=
  modifyBooks_spec (fun b ↦ { b with freeCnt := (b.freeCnt + 1) % 2 ^ 32 }) h

/-! ## A round of `remove_chain` -/

/-- The cluster is freed, unless its entry says that it is free or bad. -/
theorem removeRound_spec (hg : g.WellFormed) (h : s.Shows v) (hc : 2 ≤ c) (hlt : c < g.clustCnt) :
    Yields (removeRound g c) s
      (fun r s' ↦ s'.Shows (v.freeEntry g c) ∧
        ((v.link g c = .last ∧ r = .inl ⟨⟩) ∨ ∃ c', v.link g c = .next c' ∧ r = .inr c'))
      (fun e _ ↦ CardError v e ∨
        (e = .code FAT_ERR_BROKEN ∧ (v.link g c = .free ∨ v.link g c = .unusable))) := by
  refine ((getFat_spec hg h hlt).mono (fun _ _ h ↦ h) ?_).bind ?_
  · rintro e s₁ (hio | ⟨he, hnone, -⟩)
    · exact Or.inl hio.card
    · refine Or.inr ⟨he, Or.inr ?_⟩
      rw [Volume.link, Geometry.link_of_range hc hlt, Geometry.meaning, hnone]
  · rintro ⟨val, state⟩ s₁ ⟨h₁, hval, hstate⟩
    dsimp only at hval hstate ⊢
    have hlink : v.link g c = state.link val := by
      rw [Volume.link, Geometry.link_of_range hc hlt, ← hval]
      exact Geometry.meaning_of_classify hstate
    refine Yields.ite (fun hbad ↦ ?_) fun hused ↦ ?_
    · refine Yields.throw (Or.inr ⟨rfl, ?_⟩)
      rcases hbad with rfl | rfl
      · exact Or.inr hlink
      · exact Or.inl hlink
    · refine ((putFat_spec hg h₁ hlt).mono (fun _ _ h ↦ h) fun _ _ ↦ Or.inl).bind ?_
      intro _ s₂ h₂
      refine (countFreed_spec h₂).bind ?_
      intro _ s₃ h₃
      refine Yields.pure ⟨h₃, ?_⟩
      cases state with
      | last => exact Or.inl ⟨hlink, rfl⟩
      | used => exact Or.inr ⟨val, hlink, rfl⟩
      | bad => exact absurd (Or.inl rfl) hused
      | free => exact absurd (Or.inr rfl) hused

/-! ## The clusters that have been freed -/

theorem Volume.link_freeEntry (hg : g.WellFormed) (hc : 2 ≤ c) (hlt : c < g.clustCnt) :
    (v.freeEntry g c).link g = Function.update (v.link g) c .free :=
  hg.link_putEntry_zero hc hlt v.sectors

theorem Volume.freeAll_concat (v : Volume) (cs : List Nat) (c : Nat) :
    v.freeAll g (cs ++ [c]) = (v.freeAll g cs).freeEntry g c := by
  rw [freeAll, List.foldl_append]
  rfl

theorem Volume.fails_freeAll (v : Volume) (cs : List Nat) : (v.freeAll g cs).fails = v.fails := by
  induction cs using List.reverseRecOn with
  | nil => rfl
  | append_singleton cs c ih => rw [freeAll_concat]; exact ih

/-- The table after the clusters of a list have been freed. -/
theorem Volume.link_freeAll (hg : g.WellFormed) (hcs : ∀ a ∈ cs, 2 ≤ a ∧ a < g.clustCnt) :
    (v.freeAll g cs).link g = fun a ↦ if a ∈ cs then .free else v.link g a := by
  induction cs using List.reverseRecOn with
  | nil =>
      funext a
      exact (if_neg List.not_mem_nil).symm
  | append_singleton cs c ih =>
      obtain ⟨hc, hlt⟩ := hcs c (List.mem_append_right _ (List.mem_singleton_self c))
      rw [freeAll_concat, link_freeEntry hg hc hlt,
        ih fun a ha ↦ hcs a (List.mem_append_left _ ha)]
      funext a
      by_cases hac : a = c
      · subst hac
        rw [Function.update_self, if_pos (List.mem_append_right _ (List.mem_singleton_self a))]
      · rw [Function.update_of_ne hac]
        have hmem : a ∈ cs ++ [c] ↔ a ∈ cs := by
          rw [List.mem_append, List.mem_singleton, or_iff_left hac]
        by_cases ha : a ∈ cs
        · rw [if_pos ha, if_pos (hmem.mpr ha)]
        · rw [if_neg ha, if_neg fun h ↦ ha (hmem.mp h)]

theorem Geometry.freeClusters_le (g : Geometry) (v : Nat → Sector) :
    g.freeClusters v ≤ g.clustCnt := by
  refine (List.length_filter_le _ _).trans ?_
  rw [List.length_range]

/-! ## The loop of `remove_chain` -/

/-- What the loop has done when it looks at a cluster: it has come there from the first one, and the
clusters on its way are free.  It has at most `k` rounds before it. -/
structure Removing (g : Geometry) (v : Volume) (first k c : Nat) (s : Fat) : Prop where
  range : 2 ≤ c ∧ c < g.clustCnt
  done : ∃ cs, (cs ++ [c]).head? = some first ∧ IsPath (v.link g) (cs ++ [c]) ∧
    (∀ a ∈ cs, 2 ≤ a ∧ a < g.clustCnt) ∧ s.Shows (v.freeAll g cs) ∧
    g.clustCnt - g.freeClusters (v.freeAll g cs).sectors ≤ k

theorem Removing.round (hg : g.WellFormed) {first k : Nat} (h : Removing g v first k c s) :
    Yields (removeRound g c) s
      (fun r s' ↦ r.elim
        (fun _ ↦ ∃ cs, IsChain (v.link g) (first :: cs) ∧ s'.Shows (v.freeAll g (first :: cs)))
        fun c' ↦ ∃ k' < k, Removing g v first k' c' s')
      (fun e _ ↦ CardError v e ∨
        (e = .code FAT_ERR_BROKEN ∧ ¬ ∃ cs, IsChain (v.link g) (first :: cs))) := by
  obtain ⟨hc, hlt⟩ := h.range
  obtain ⟨cs, hhead, hpath, hcs, hshows, hk⟩ := h.done
  have hlink : (v.freeAll g cs).link g c = if c ∈ cs then .free else v.link g c := by
    rw [Volume.link_freeAll hg hcs]
  obtain ⟨ds, hds⟩ : ∃ ds, cs ++ [c] = first :: ds := by
    cases hsplit : cs ++ [c] with
    | nil => exact absurd hsplit (List.append_ne_nil_of_right_ne_nil _ (List.cons_ne_nil _ _))
    | cons d ds =>
        rw [hsplit] at hhead
        exact ⟨ds, by rw [Option.some.inj hhead]⟩
  refine (removeRound_spec hg hshows hc hlt).mono ?_ ?_
  · rintro r s' ⟨h', ⟨hlast, rfl⟩ | ⟨c', hnext, rfl⟩⟩
    · have hmem : c ∉ cs := by
        intro hmem
        rw [hlink, if_pos hmem] at hlast
        cases hlast
      rw [hlink, if_neg hmem] at hlast
      have hchain := hpath.isChain hlast
      rw [← Volume.freeAll_concat, hds] at h'
      rw [hds] at hchain
      exact ⟨ds, hchain, h'⟩
    · have hmem : c ∉ cs := by
        intro hmem
        rw [hlink, if_pos hmem] at hnext
        cases hnext
      have hrange : 2 ≤ c' ∧ c' < g.clustCnt := hg.range_of_next hnext
      -- one more cluster is free
      have hcount : g.freeClusters ((v.freeAll g cs).freeEntry g c).sectors =
          g.freeClusters (v.freeAll g cs).sectors + 1 := by
        refine Geometry.freeClusters_release hc hlt ?_ (Volume.link_freeEntry hg hc hlt)
        intro hfree
        exact nomatch hfree.symm.trans hnext
      have hle := g.freeClusters_le ((v.freeAll g cs).freeEntry g c).sectors
      rw [hlink, if_neg hmem] at hnext
      refine ⟨k - 1, by omega, hrange, cs ++ [c], ?_, hpath.concat hnext, ?_, ?_, ?_⟩
      · rw [hds]
        rfl
      · intro a ha
        rcases List.mem_append.mp ha with ha | ha
        · exact hcs a ha
        · obtain rfl := List.mem_singleton.mp ha
          exact ⟨hc, hlt⟩
      · rw [Volume.freeAll_concat]
        exact h'
      · rw [Volume.freeAll_concat]
        omega
  · rintro e s' (⟨he, hfaulty⟩ | ⟨he, hbroken⟩)
    · exact Or.inl ⟨he, by rwa [Volume.Faulty, Volume.fails_freeAll] at hfaulty⟩
    · refine Or.inr ⟨he, ?_⟩
      rintro ⟨cs', hchain⟩
      -- the way to this cluster is the beginning of the chain, which meets no cluster twice
      rw [hds] at hpath
      have hprefix := hchain.prefix_of_path hpath
      rw [← hds] at hprefix
      have hmem : c ∉ cs := by
        have hnodup := hprefix.sublist.nodup hchain.nodup
        exact fun hmem ↦ List.disjoint_of_nodup_append hnodup hmem (List.mem_singleton_self c)
      have hc' : c ∈ first :: cs' :=
        hprefix.subset (List.mem_append_right _ (List.mem_singleton_self c))
      rw [hlink, if_neg hmem] at hbroken
      rcases hchain.link_mem hc' with hlast | ⟨b, -, hnext⟩
      · rw [hlast] at hbroken
        rcases hbroken with hbroken | hbroken
        · cases hbroken
        · cases hbroken
      · rw [hnext] at hbroken
        rcases hbroken with hbroken | hbroken
        · cases hbroken
        · cases hbroken

/-- `remove_chain` succeeds on the chains of the table and on nothing else, and frees the clusters
of the chain.  It comes to an end on every table. -/
theorem removeChain_spec (hg : g.WellFormed) (h : s.Shows v) (hc : 2 ≤ c) (hlt : c < g.clustCnt) :
    Yields (removeChain g c) s
      (fun _ s' ↦ ∃ cs, IsChain (v.link g) (c :: cs) ∧
        s'.Shows ((v.marked.freeAll g (c :: cs)).synced g) ∧ s'.bufDirty = false)
      (fun e _ ↦ CardError v e ∨
        (e = .code FAT_ERR_BROKEN ∧ ¬ ∃ cs, IsChain (v.link g) (c :: cs))) := by
  refine (markInfo_spec h).bind fun _ s₁ h₁ ↦ ?_
  have hstart : Removing g v.marked c g.clustCnt c s₁ :=
    ⟨⟨hc, hlt⟩, [], rfl, .singleton c, nofun, h₁, Nat.sub_le _ _⟩
  refine (Yields.iterate_of_variant (fun k c s h ↦ h.round hg) hstart (by omega)).bind ?_
  rintro _ s₂ ⟨cs, hchain, h₂⟩
  refine (syncFs_spec h₂ hg.info.ne').mono ?_ ?_
  · rintro _ s₃ ⟨h₃, hclean⟩
    exact ⟨cs, hchain, h₃, hclean⟩
  · rintro e s₃ (hE | hE)
    · refine Or.inl ⟨hE.1, ?_⟩
      have hfaulty := hE.2.1
      rwa [Volume.Faulty, Volume.fails_freeAll] at hfaulty
    · refine Or.inl ⟨hE.1, ?_⟩
      have hfaulty := hE.2.1
      rwa [Volume.Faulty, Volume.storeInfo, Volume.write, Volume.fails_freeAll] at hfaulty

end

end DemosOS.Fat32
