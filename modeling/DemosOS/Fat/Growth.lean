import DemosOS.Fat.Cursor

/-!
# A directory that grows

`dir_next_stretch` allocates a cluster behind the last one and fills it with zeros, which are records
that mark the end.  `clust_clear` goes past `update_buf`: for a moment the sector in memory is neither
the one that `sect` says nor marked as changed.
-/

namespace DemosOS.Fat32

open Lib

/-- The sectors with those of a range filled with zeros. -/
def clearFrom (w : Nat → Sector) (sect n : Nat) : Nat → Sector := fun m ↦
  if sect ≤ m ∧ m < sect + n then Sector.zero else w m

/-- A state without changes in memory: its card, and a zero sector as buffer. -/
structure Fat.Blanked (s : Fat) (v : Volume) (w : Nat → Sector) : Prop where
  card : s.device.sectors = w
  books : s.toBooks = v.toBooks
  fails : s.device.fails = v.fails
  clean : s.bufDirty = false
  buf : s.buf = Sector.zero

section

variable {g : Geometry} {others rest : List (List Nat)} {s : Fat} {v v' : Volume} {ds ds' : List Nat}
  {d : Dir} {c j k n sect : Nat} {w : Nat → Sector}

/-! ## clust_clear -/

theorem clearSectors_spec (hsound : ¬ v.Faulty) (hs : s.Blanked v w) (hfits : sect + n < 2 ^ 32) :
    Yields (clearSectors n sect) s (fun _ s' ↦ s'.Blanked v (clearFrom w sect n) ∧
      s'.sect = if n = 0 then s.sect else sect + n - 1) fun _ _ ↦ False := by
  induction n generalizing s sect w with
  | zero =>
      refine Yields.pure ⟨{ hs with card := ?_ }, rfl⟩
      rw [hs.card]
      funext m
      exact (if_neg (by omega)).symm
  | succ n ih =>
      refine Yields.modify_bind (Yields.bind (Q := fun _ s' ↦
        s'.Blanked v (Function.update w sect Sector.zero) ∧ s'.sect = sect) ?_ ?_)
      · have hfail : s.device.fails s.device.count = false := by
          rw [hs.fails]
          exact Bool.eq_false_iff.mpr fun hfails ↦ hsound ⟨_, hfails⟩
        refine Yields.get_bind (Yields.ite (fun _ ↦ ?_) fun hno ↦ absurd rfl hno)
        refine Yields.bind_ok (opsWrite_of_not_fails hfail) (Yields.modify ⟨⟨?_, hs.books, hs.fails,
          rfl, hs.buf⟩, rfl⟩)
        change Function.update s.device.sectors sect s.buf = _
        rw [hs.card, hs.buf]
      · rintro _ s₁ ⟨hs₁, hsect⟩
        rw [Nat.mod_eq_of_lt (by omega)]
        refine (ih hs₁ (by omega)).mono ?_ fun _ _ hE ↦ hE
        rintro _ s₂ ⟨hs₂, hsect₂⟩
        refine ⟨{ hs₂ with card := ?_ }, ?_⟩
        · rw [hs₂.card]
          funext m
          unfold clearFrom
          by_cases hm : m = sect
          · subst hm
            rw [Function.update_self, if_neg (by omega), if_pos (by omega)]
          · rw [Function.update_of_ne hm]
            by_cases hrest : sect + 1 ≤ m ∧ m < sect + 1 + n
            · rw [if_pos hrest, if_pos (by omega)]
            · rw [if_neg hrest, if_neg (by omega)]
        · rw [hsect₂, if_neg n.succ_ne_zero]
          split_ifs with hn
          · rw [hsect, hn]
            rfl
          · omega

/-- The volume with a cluster filled with zeros. -/
def Volume.cleared (g : Geometry) (v : Volume) (c : Nat) : Volume :=
  { v with sectors := clearFrom v.sectors (g.sectOf c 0) (2 ^ g.clustShift) }

theorem clustClear_spec (hg : g.WellFormed) (hs : s.Shows v) (hsound : ¬ v.Faulty) (hc : 2 ≤ c)
    (hlt : c < g.clustCnt) :
    Yields (clustClear g c) s
      (fun _ s' ↦ s'.Shows (v.cleared g c) ∧ g.InClust s'.sect c) fun _ _ ↦ False := by
  have hpos := g.clustSects_pos
  have hfits := hg.sectOf_lt hc hlt hpos
  refine Yields.bind (Q := fun _ s' ↦ s'.Shows v ∧ s'.bufDirty = false)
    ((syncBuf_spec hs).mono (fun _ _ h ↦ ⟨h.1, h.2.1⟩) fun _ _ hE ↦ hsound hE.2.1) ?_
  rintro _ s₁ ⟨h₁, hclean⟩
  refine Yields.modify_bind ?_
  rw [hg.clustToSect_eq hc hlt, Nat.one_shiftLeft]
  have hblank : Fat.Blanked { s₁ with buf := Sector.zero } v v.sectors :=
    ⟨h₁.on_card hclean, h₁.books, h₁.fails, hclean, rfl⟩
  refine (clearSectors_spec hsound hblank hfits).mono ?_ fun _ _ hE ↦ hE
  rintro _ s₂ ⟨h₂, hsect⟩
  rw [if_neg hpos.ne'] at hsect
  have hin : g.InClust s₂.sect c := ⟨2 ^ g.clustShift - 1, by omega, by
    rw [hsect, Geometry.sectOf, Geometry.sectOf]
    omega⟩
  have hkey : s₂.cache.key = some s₂.sect := by
    refine if_neg ?_
    have hle := hin.data_le
    have hinfo := hg.info_lt_data
    omega
  have hcoherent : s₂.cache.Coherent := by
    refine ⟨fun hk _ ↦ ?_, fun hdirty ↦ absurd (h₂.clean.symm.trans hdirty) Bool.false_ne_true⟩
    obtain rfl := Option.some.inj (hkey.symm.trans hk)
    change s₂.buf = s₂.device.sectors s₂.sect
    rw [h₂.card, h₂.buf, clearFrom, if_pos (by omega)]
  refine ⟨⟨hcoherent, ?_⟩, hin⟩
  have hview := WriteBack.view_of_clean hcoherent h₂.clean
  unfold Fat.volume
  rw [hview, h₂.books, h₂.fails]
  change Volume.mk v.toBooks s₂.device.sectors v.fails = _
  rw [h₂.card]
  rfl

/-! ## dir_next_stretch -/

/-- A record of zeros. -/
def Record.blank : Record := fun _ ↦ 0

/-- What a change of the directory leaves: it may have grown, and the data beside it are the same. -/
structure Stays (g : Geometry) (others rest : List (List Nat)) (v : Volume) (ds : List Nat) (s' : Fat)
    (v' : Volume) (ds' : List Nat) : Prop where
  hosting : Hosting g (ds' :: others) (ds' :: rest) s' v'
  pre : ds <+: ds'
  free : v'.freeCnt + ds'.length = v.freeCnt + ds.length
  frame : ∀ n, g.dataSect ≤ n → (∀ c ∈ ds', ¬ g.InClust n c) → v'.sectors n = v.sectors n

theorem Stays.refl (h : Hosting g (ds :: others) (ds :: rest) s v) :
    Stays g others rest v ds s v ds := ⟨h, List.prefix_rfl, rfl, fun _ _ _ ↦ rfl⟩

theorem Stays.trans {v'' : Volume} {ds'' : List Nat} {s' s'' : Fat}
    (h : Stays g others rest v ds s' v' ds') (h' : Stays g others rest v' ds' s'' v'' ds'') :
    Stays g others rest v ds s'' v'' ds'' where
  hosting := h'.hosting
  pre := h.pre.trans h'.pre
  free := h'.free.trans h.free
  frame n hn hds := by
    rw [h'.frame n hn hds]
    exact h.frame n hn fun c hc ↦ hds c (h'.pre.subset hc)

theorem Geometry.recordsIn_concat (g : Geometry) (ds : List Nat) (c : Nat) :
    g.recordsIn (ds ++ [c]) = g.recordsIn ds + 16 * 2 ^ g.clustShift := by
  rw [recordsIn, recordsIn, List.length_append, List.length_singleton, Nat.mul_add, Nat.mul_one]

/-- A cluster is cleared, and no other one. -/
theorem Volume.cleared_sectors {a m : Nat} (hc : 2 ≤ c) (ha : 2 ≤ a) (hin : g.InClust m a) :
    (v.cleared g c).sectors m = if a = c then Sector.zero else v.sectors m := by
  change (if _ then _ else _) = _
  have hiff : (g.sectOf c 0 ≤ m ∧ m < g.sectOf c 0 + 2 ^ g.clustShift) ↔ a = c := by
    constructor
    · rintro ⟨hle, hlt⟩
      refine hin.unique ⟨m - g.sectOf c 0, by omega, ?_⟩ ha hc
      unfold Geometry.sectOf at hle ⊢
      omega
    · rintro rfl
      obtain ⟨k, hk, rfl⟩ := hin
      unfold Geometry.sectOf
      omega
  by_cases hac : a = c
  · rw [if_pos (hiff.mpr hac), if_pos hac]
  · rw [if_neg (mt hiff.mp hac), if_neg hac]

/-- The records of a directory that has got a cluster of zeros. -/
theorem Volume.records_cleared (hds : ∀ a ∈ ds, 2 ≤ a) (hc : 2 ≤ c) (hnotMem : c ∉ ds) :
    (v.cleared g c).records g (ds ++ [c]) =
      v.records g ds ++ List.replicate (16 * 2 ^ g.clustShift) Record.blank := by
  refine List.ext_getElem? fun k ↦ ?_
  have hlen : (v.records g ds).length = g.recordsIn ds := Volume.length_records
  have hconcat := g.recordsIn_concat ds c
  by_cases hold : k < g.recordsIn ds
  · rw [List.getElem?_append_left (by omega), getElem?_records (by omega), getElem?_records hold,
      record_prefix (List.prefix_append _ _) hold]
    have hlt := Geometry.lt_recordsIn.mp hold
    have hmem := List.getElem_mem hlt
    unfold record
    rw [cleared_sectors hc (hds _ hmem)
      (Geometry.inClust_fileSect (List.getElem?_eq_getElem hlt)), if_neg]
    rintro rfl
    exact hnotMem hmem
  · by_cases hnew : k < g.recordsIn (ds ++ [c])
    · rw [List.getElem?_append_right (by omega), getElem?_records hnew,
        List.getElem?_replicate_of_lt (by omega)]
      have hge : ¬ k / 16 / 2 ^ g.clustShift < ds.length := fun hlt ↦
        hold (Geometry.lt_recordsIn.mpr hlt)
      have hlt := Geometry.lt_recordsIn.mp hnew
      rw [List.length_append, List.length_singleton] at hlt
      have hget : (ds ++ [c])[k / 16 / 2 ^ g.clustShift]? = some c := by
        rw [show k / 16 / 2 ^ g.clustShift = ds.length by omega]
        exact List.getElem?_concat_length
      unfold record
      rw [cleared_sectors hc hc (Geometry.inClust_fileSect hget), if_pos rfl]
      congr 1
      funext j
      exact Sector.byte_zero
    · rw [List.getElem?_eq_none (by rw [length_records]; omega), List.getElem?_eq_none]
      rw [List.length_append, List.length_replicate, length_records]
      omega

/-- The next record; behind the end of the chain there is a new cluster, if one can be had. -/
theorem dirNextStretch_spec (hg : g.WellFormed) (hal : g.Aligned)
    (h : Hosting g (ds :: others) (ds :: rest) s v) (hd : d.At g ds k) :
    Yields (dirNextStretch g) (s, d)
      (fun _ p ↦ ∃ v' ds' m, Stays g others rest v ds p.1 v' ds' ∧ p.2.At g ds' (k + 1) ∧
        v'.records g ds' = v.records g ds ++ List.replicate m Record.blank)
      (fun e p ↦ e = .code FAT_ERR_FULL ∧ k + 1 = g.recordsIn ds ∧
        Hosting g (ds :: others) (ds :: rest) p.1 v.marked) := by
  refine Yields.bind (Q := fun r p ↦
    (r = .ok ⟨⟩ ∧ Hosting g (ds :: others) (ds :: rest) p.1 v ∧ p.2.At g ds (k + 1)) ∨
      (r = .error (.code FAT_ERR_EOF) ∧ k + 1 = g.recordsIn ds ∧
        Hosting g (ds :: others) (ds :: rest) p.1 v ∧ p.2.clust = d.clust ∧ p.2.sclust = d.sclust))
    (Yields.attempt ((dirNext_spec hg hal h hd).mono (fun _ _ hq ↦ Or.inl ⟨rfl, hq⟩)
      fun e p hE ↦ Or.inr ⟨?_, hE.2⟩)) ?_
  · rw [hE.1]
  · rintro _ ⟨s₁, d₁⟩ (⟨rfl, h₁, hd₁⟩ | ⟨rfl, hend, h₁, hclust, hsclust⟩)
    · exact Yields.pure ⟨v, ds, 0, .refl h₁, hd₁, (List.append_nil _).symm⟩
    · refine Yields.ite (fun hne ↦ absurd rfl hne) fun _ ↦ Yields.get_bind ?_
      have hlast := hd.last hend
      dsimp only
      rw [hclust]
      refine Yields.bind (Q := fun c p ↦ (∃ v', Hosting g (ds :: others) ((ds ++ [c]) :: rest) p.1 v' ∧
        v.SameData g v' ∧ v'.freeCnt + 1 = v.freeCnt) ∧ p.2 = d₁)
        (Yields.onFirst ((h₁.stretchChain hg hd.clust hlast).mono (fun _ _ hq ↦ ⟨hq, rfl⟩)
          fun e s' hE ↦ ⟨hE.1, hend, hE.2.1⟩)) ?_
      rintro c ⟨s₂, d₂⟩ ⟨⟨v', h₂, hdata, hfree⟩, rfl⟩
      obtain ⟨hc, hclt⟩ := h₂.consistent.range List.mem_cons_self
        (List.mem_append_right _ (List.mem_singleton_self c))
      refine Yields.modify_bind (Yields.get_bind (Yields.onFirst ?_))
      dsimp only
      refine (clustClear_spec hg h₂.shows h₂.sound hc hclt).mono ?_ fun _ _ hE ↦ hE.elim
      rintro _ s₃ ⟨h₃, hin⟩
      have hnotMem : c ∉ ds := by
        have hnodup := (h₂.consistent.chains.chain _ List.mem_cons_self).nodup
        exact fun hmem ↦ List.disjoint_of_nodup_append hnodup hmem (List.mem_singleton_self c)
      refine ⟨v'.cleared g c, ds ++ [c], 16 * 2 ^ g.clustShift, ⟨⟨h₃, ?_, h₂.sound, ?_⟩,
        List.prefix_append _ _, ?_, fun n hn hds ↦ ?_⟩, ?_, ?_⟩
      · refine h₂.consistent.congr hg rfl fun n hn ↦ if_neg ?_
        unfold Geometry.sectOf
        omega
      · exact Or.inr ⟨_, List.mem_cons_self, c, List.mem_append_right _ (List.mem_singleton_self c),
          hin⟩
      · rw [List.length_append, List.length_singleton]
        change v'.freeCnt + _ = _
        omega
      · refine (if_neg ?_).trans (hdata n hn)
        rintro ⟨hle, hlt⟩
        refine hds c (List.mem_append_right _ (List.mem_singleton_self c))
          ⟨n - g.sectOf c 0, by omega, ?_⟩
        unfold Geometry.sectOf at hle ⊢
        omega
      · rw [hend, Geometry.recordsIn]
        refine Dir.at_clust hg ⟨hc, hclt⟩ ?_ List.getElem?_concat_length
        rw [hsclust, List.head?_append, hd.sclust]
        rfl
      · rw [Volume.records_cleared (fun a ha ↦ (h.range a ha).1) hc hnotMem,
          Volume.records_sameData hdata]

end

end DemosOS.Fat32
