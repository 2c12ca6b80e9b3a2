import DemosOS.Fat.Creation
import DemosOS.Lib.Traces

/-!
# A directory as a map

What the callers of the library do to a directory: they look for a name, create an entry for a name
that has not been found, and delete one that has been found.  Whatever the order of these calls, the
directory is a map from names to entries; its clusters, the deleted records that are used again and
the end that moves on cannot be seen.

An entry without a long name is found under every name that has its short form, and under none of
them once it is deleted.
-/

namespace DemosOS.Fat32

open Lib

/-- No name leads to two entries. -/
def Unambiguous (items : List Item) : Prop :=
  items.Pairwise fun it it' ↦ ∀ name, it.Matches name → ¬ it'.Matches name

/-- What is seen of a call: the name, the record at `dir_ptr(dir)` behind a call that has succeeded,
and the error of one that has not. -/
inductive DirEvent
  | found (name : List UInt8) (r : Record)
  | missed (name : List UInt8) (e : Failure)
  | created (name : List UInt8) (attr clust : Nat) (r : Record)
  | notCreated (name : List UInt8) (e : Failure)
  | removed (name : List UInt8)
  | notRemoved (name : List UInt8) (e : Failure)

/-- The calls on the directory whose first cluster is `c`, as the functions on paths make them for the
last part of a path, with a `Dir` that has entered the directory: `dir_add` behind a search that has
come to the end, and `remove_entries` behind one that has not. -/
inductive DirStep (g : Geometry) (c : Nat) : DirEvent → Fat → Fat → Prop
  | found {name : List UInt8} {s s' : Fat} {d d' : Dir} {loc : Loc} (hd : d.sclust = c)
      (h : dirSearch g name (s, d) = .ok loc (s', d')) :
      DirStep g c (.found name (s'.buf.record d'.idx)) s s'
  | missed {name : List UInt8} {s s' : Fat} {d d' : Dir} {e : Failure} (hd : d.sclust = c)
      (h : dirSearch g name (s, d) = .error e (s', d')) : DirStep g c (.missed name e) s s'
  | created {name : List UInt8} {attr clust : Nat} {ts : Timestamp} {s s' : Fat} {d d' : Dir}
      {p : Fat × Dir} (hd : d.sclust = c) (hname : Storable name) (hattr : attr < 256)
      (hlfn : attr ≠ FAT_ATTR_LFN) (hclust : clust < 2 ^ 32)
      (hsearch : dirSearch g name (s, d) = .error (.code FAT_ERR_EOF) p)
      (h : dirAdd g name attr clust ts p = .ok ⟨⟩ (s', d')) :
      DirStep g c (.created name attr clust (s'.buf.record d'.idx)) s s'
  | notCreated {name : List UInt8} {attr clust : Nat} {ts : Timestamp} {s s' : Fat} {d d' : Dir}
      {p : Fat × Dir} {e : Failure} (hd : d.sclust = c) (hname : Storable name) (hattr : attr < 256)
      (hlfn : attr ≠ FAT_ATTR_LFN) (hclust : clust < 2 ^ 32)
      (hsearch : dirSearch g name (s, d) = .error (.code FAT_ERR_EOF) p)
      (h : dirAdd g name attr clust ts p = .error e (s', d')) :
      DirStep g c (.notCreated name e) s s'
  | removed {name : List UInt8} {s s' : Fat} {d d' : Dir} {p : Fat × Dir} {loc : Loc}
      (hd : d.sclust = c) (hsearch : dirSearch g name (s, d) = .ok loc p)
      (h : removeEntries g loc p = .ok () (s', d')) : DirStep g c (.removed name) s s'
  | notRemoved {name : List UInt8} {s s' : Fat} {d d' : Dir} {p : Fat × Dir} {loc : Loc}
      {e : Failure} (hd : d.sclust = c) (hsearch : dirSearch g name (s, d) = .ok loc p)
      (h : removeEntries g loc p = .error e (s', d')) : DirStep g c (.notRemoved name e) s s'

/-- The same calls on a map from names to entries.  A search fails with `FAT_ERR_EOF` if nothing is
found, `dir_add` can only fail because the volume is full, and `remove_entries` does not fail. -/
inductive MapStep : DirEvent → (List UInt8 → Option Item) → (List UInt8 → Option Item) → Prop
  | found {name : List UInt8} {m : List UInt8 → Option Item} {it : Item} (h : m name = some it) :
      MapStep (.found name it.entry) m m
  | missed {name : List UInt8} {m : List UInt8 → Option Item} (h : m name = none) :
      MapStep (.missed name (.code FAT_ERR_EOF)) m m
  | created {name : List UInt8} {attr clust : Nat} {m : List UInt8 → Option Item} {it : Item}
      (h : m name = none) (hattr : it.entry.attr = attr) (hclust : it.entry.cluster = clust)
      (hsize : it.entry.size = 0) :
      MapStep (.created name attr clust it.entry) m (Function.update m name (some it))
  | notCreated {name : List UInt8} {m : List UInt8 → Option Item} (h : m name = none) :
      MapStep (.notCreated name (.code FAT_ERR_FULL)) m m
  | removed {name : List UInt8} {m m' : List UInt8 → Option Item} {it : Item}
      (h : m name = some it) (hgone : ∀ name', m name' = some it → m' name' = none)
      (hsame : ∀ name', m name' ≠ some it → m' name' = m name') : MapStep (.removed name) m m'

/-- The directory, which had the clusters `ds` in `v`, holds these items; it may have grown, and the data
beside it are the same. -/
structure Filed (g : Geometry) (others rest : List (List Nat)) (v : Volume) (ds : List Nat)
    (items : List Item) (s : Fat) : Prop where
  state : ∃ v' ds', Stays g others rest v ds s v' ds' ∧ Holds (v'.records g ds') items
  unambiguous : Unambiguous items

section

variable {g : Geometry} {others rest : List (List Nat)} {s s' : Fat} {v v₁ : Volume}
  {ds ds₁ : List Nat} {d : Dir} {p : Fat × Dir} {name name' : List UInt8} {it : Item}
  {before after items : List Item} {c attr clust : Nat} {ts : Timestamp}

/-! ## What is found -/

theorem lookup_eq_none : lookup items name = none ↔ ∀ it ∈ items, ¬ it.Matches name := by
  rw [lookup, List.find?_eq_none]
  simp only [decide_eq_true_eq]

theorem matches_of_lookup (h : lookup items name = some it) : it.Matches name := by
  have hmatch := List.find?_some h
  exact of_decide_eq_true hmatch

theorem lookup_cons_of_matches (h : it.Matches name) : lookup (it :: items) name = some it :=
  List.find?_cons_of_pos (decide_eq_true h)

theorem lookup_cons_of_not (h : ¬ it.Matches name) : lookup (it :: items) name = lookup items name :=
  List.find?_cons_of_neg (by simpa using h)

/-- An entry that has a name is the only one. -/
theorem Unambiguous.alone (h : Unambiguous (before ++ it :: after)) (hit : it.Matches name) :
    lookup before name = none ∧ lookup after name = none := by
  obtain ⟨-, hcons, hcross⟩ := List.pairwise_append.mp h
  constructor
  · refine lookup_eq_none.mpr fun it' hmem hmatch ↦ ?_
    exact hcross it' hmem it List.mem_cons_self name hmatch hit
  · exact lookup_eq_none.mpr fun it' hmem ↦ (List.pairwise_cons.mp hcons).1 it' hmem name hit

theorem Unambiguous.lookup (h : Unambiguous (before ++ it :: after)) (hit : it.Matches name) :
    DemosOS.Fat32.lookup (before ++ it :: after) name = some it := by
  rw [lookup_append, (h.alone hit).1, Option.none_or]
  exact lookup_cons_of_matches hit

/-- Deleted records are found under no name. -/
theorem Unambiguous.drop (h : Unambiguous (before ++ it :: after)) (rs : List Record) :
    Unambiguous (before ++ rs.map Item.free ++ after) := by
  have hfree : ∀ it' ∈ rs.map Item.free, ∀ name, ¬ it'.Matches name := by
    intro it' hmem name
    obtain ⟨r, -, rfl⟩ := List.mem_map.mp hmem
    exact id
  obtain ⟨hbefore, hcons, hcross⟩ := List.pairwise_append.mp h
  rw [List.append_assoc]
  refine List.pairwise_append.mpr ⟨hbefore, List.pairwise_append.mpr ⟨?_, ?_, ?_⟩, ?_⟩
  · exact List.pairwise_of_forall_mem_list fun it₁ hmem₁ it₂ _ name hmatch ↦
      absurd hmatch (hfree it₁ hmem₁ name)
  · exact (List.pairwise_cons.mp hcons).2
  · intro it₁ hmem₁ it₂ _ name hmatch
    exact absurd hmatch (hfree it₁ hmem₁ name)
  · intro it₁ hmem₁ it₂ hmem₂ name hmatch
    rcases List.mem_append.mp hmem₂ with hmem₂ | hmem₂
    · exact hfree it₂ hmem₂ name
    · exact hcross it₁ hmem₁ it₂ (List.mem_cons_of_mem _ hmem₂) name hmatch

/-- An entry for a name that nothing is found under. -/
theorem Unambiguous.add {rs : List Record} (h : Unambiguous (before ++ rs.map Item.free ++ after))
    (hno : DemosOS.Fat32.lookup (before ++ rs.map Item.free ++ after) name = none)
    (hit : ∀ name', it.Matches name' → name' = name) : Unambiguous (before ++ it :: after) := by
  have hnone := lookup_eq_none.mp hno
  have hafter : ∀ it' ∈ after, ¬ it'.Matches name := fun it' hmem ↦
    hnone it' (List.mem_append_right _ hmem)
  have hbefore : ∀ it' ∈ before, ¬ it'.Matches name := fun it' hmem ↦
    hnone it' (List.mem_append_left _ (List.mem_append_left _ hmem))
  obtain ⟨hfront, hpair, hcross⟩ := List.pairwise_append.mp h
  refine List.pairwise_append.mpr ⟨(List.pairwise_append.mp hfront).1,
    List.pairwise_cons.mpr ⟨?_, hpair⟩, ?_⟩
  · intro it' hmem name' hmatch
    rw [hit name' hmatch]
    exact hafter it' hmem
  · intro it₁ hmem₁ it₂ hmem₂ name' hmatch
    rcases List.mem_cons.mp hmem₂ with rfl | hmem₂
    · intro hmatch₂
      rw [hit name' hmatch₂] at hmatch
      exact hbefore it₁ hmem₁ hmatch
    · exact hcross it₁ (List.mem_append_left _ hmem₁) it₂ hmem₂ name' hmatch

/-- Every other name leads to what it has led to before. -/
theorem lookup_add {rs : List Record}
    (hno : lookup (before ++ rs.map Item.free ++ after) name = none)
    (hit : ∀ name', it.Matches name' ↔ name' = name) :
    lookup (before ++ it :: after) =
      Function.update (lookup (before ++ rs.map Item.free ++ after)) name (some it) := by
  funext name'
  rw [lookup_insert rs]
  by_cases hname : name' = name
  · have hbefore : lookup before name = none := by
      rw [lookup_append, lookup_append, lookup_free, Option.or_none, Option.or_eq_none_iff] at hno
      exact hno.1
    rw [if_pos ((hit name').mpr hname), hname, hbefore, Function.update_self, Option.none_or]
  · rw [if_neg (mt (hit name').mp hname), Function.update_of_ne hname]

/-- A deleted entry is found under none of its names, and every other name leads to what it has led to
before. -/
theorem Unambiguous.lookup_drop (h : Unambiguous (before ++ it :: after)) (rs : List Record) :
    (∀ name', DemosOS.Fat32.lookup (before ++ it :: after) name' = some it →
      DemosOS.Fat32.lookup (before ++ rs.map Item.free ++ after) name' = none) ∧
    ∀ name', DemosOS.Fat32.lookup (before ++ it :: after) name' ≠ some it →
      DemosOS.Fat32.lookup (before ++ rs.map Item.free ++ after) name' =
        DemosOS.Fat32.lookup (before ++ it :: after) name' := by
  constructor
  · intro name' hfound
    obtain ⟨hbefore, hafter⟩ := h.alone (matches_of_lookup hfound)
    rw [lookup_append, lookup_append, lookup_free, Option.or_none, hbefore, hafter, Option.none_or]
  · intro name' hother
    have hmiss : ¬ it.Matches name' := fun hit ↦ hother (h.lookup hit)
    rw [lookup_append, lookup_append, lookup_append, lookup_free, Option.or_none,
      lookup_cons_of_not hmiss]

/-! ## The calls -/

/-- The record that is read at the place of an entry. -/
theorem Looking.entry (hv : Holds (v.records g ds) (before ++ it :: after))
    (h : Looking g others rest ds v ((recordsOf before).length + it.records.length - 1) p) :
    p.1.buf.record p.2.idx = it.entry := by
  obtain ⟨parts, hparts⟩ := it.records_eq
  have hlast : it.records[parts.length]? = some it.entry := by
    rw [hparts]
    exact List.getElem?_concat_length
  have hplace : (recordsOf before).length + it.records.length - 1 =
      (recordsOf before).length + parts.length := by
    rw [hparts, List.length_append]
    rfl
  rw [hplace] at h
  have hget := hv.getElem? (List.getElem?_eq_some_iff.mp hlast).1
  rw [hlast, v.getElem?_records h.at'.lt] at hget
  exact h.record.trans (Option.some.inj hget)

theorem Filed.head {v₁ : Volume} {ds₁ : List Nat} (h : Stays g others rest v ds s v₁ ds₁)
    (hc : ds.head? = some c) : ds₁.head? = some c := by
  obtain ⟨tail, rfl⟩ := h.pre
  rw [List.head?_append, hc]
  rfl

/-- A search delivers the entry with this name, or comes to the end if there is none. -/
theorem Filed.search (hg : g.WellFormed) (hal : g.Aligned) (hc : ds.head? = some d.sclust)
    (h : Filed g others rest v ds items s) (name : List UInt8) :
    Yields (dirSearch g name) (s, d)
      (fun loc p ↦ ∃ before it after, items = before ++ it :: after ∧ lookup items name = some it ∧
        p.1.buf.record p.2.idx = it.entry ∧ ∃ v₁ ds₁, Stays g others rest v ds p.1 v₁ ds₁ ∧
          Holds (v₁.records g ds₁) items ∧
          Looking g others rest ds₁ v₁ ((recordsOf before).length + it.records.length - 1) p ∧
          loc = ⟨g.fileSect ds₁ ((recordsOf before).length / 16),
            32 * ((recordsOf before).length % 16)⟩)
      (fun e p ↦ e = .code FAT_ERR_EOF ∧ lookup items name = none ∧ ds.head? = some p.2.sclust ∧
        Filed g others rest v ds items p.1) := by
  obtain ⟨v₁, ds₁, hstays, hv⟩ := h.state
  have hsame : ∀ {s' : Fat} {gBuf : Nat → UInt8} {gLen : Nat} {gCrc : UInt8},
      Hosting g (ds₁ :: others) (ds₁ :: rest) s' (v₁.scratch gBuf gLen gCrc) →
        Stays g others rest v ds s' (v₁.scratch gBuf gLen gCrc) ds₁ := fun hhost ↦
    ⟨hhost, hstays.pre, hstays.free, hstays.frame⟩
  refine (dirSearch_spec hg hal hstays.hosting hv (Filed.head hstays hc) name).mono ?_ ?_
  · rintro loc p ⟨before, it, after, rfl, hfound, hloc, gBuf, gLen, gCrc, hlook⟩
    have hv' : Holds ((v₁.scratch gBuf gLen gCrc).records g ds₁) (before ++ it :: after) := hv
    exact ⟨before, it, after, rfl, hfound, hlook.entry hv', _, ds₁, hsame hlook.hosting, hv', hlook,
      hloc⟩
  · rintro e p ⟨he, hnone, hhead, gBuf, gLen, gCrc, hhost⟩
    refine ⟨he, hnone, ?_, ⟨_, ds₁, hsame hhost, hv⟩, h.unambiguous⟩
    rw [hc, ← hhead, Filed.head hstays hc]

/-- The entry that has been found is deleted. -/
theorem Filed.remove (hg : g.WellFormed) (hal : g.Aligned) (hunique : Unambiguous (before ++ it :: after))
    (hstays : Stays g others rest v ds p.1 v₁ ds₁)
    (hv : Holds (v₁.records g ds₁) (before ++ it :: after))
    (hlook : Looking g others rest ds₁ v₁ ((recordsOf before).length + it.records.length - 1) p) :
    Yields (removeEntries g ⟨g.fileSect ds₁ ((recordsOf before).length / 16),
        32 * ((recordsOf before).length % 16)⟩) p
      (fun _ p' ↦ Filed g others rest v ds
        (before ++ (it.records.map freeRecord).map Item.free ++ after) p'.1)
      fun _ _ ↦ False := by
  obtain ⟨tail, hsplit, htail⟩ := hv.split
  rw [recordsOf_append, recordsOf_cons, List.append_assoc, List.append_assoc] at hsplit
  have hne := List.ne_nil_of_length_pos it.length_records_pos
  refine (removeEntries_spec hg hal hlook hne hsplit).mono ?_ fun _ _ hE ↦ hE
  rintro _ p' ⟨-, v₂, hstays₂, hrecords⟩
  refine ⟨⟨v₂, ds₁, hstays.trans hstays₂, ?_⟩, hunique.drop _⟩
  have hv' : Holds (v₁.records g ds₁) (before ++ [it] ++ after) := by
    rw [List.append_assoc]
    exact hv
  have hok : ∀ it' ∈ (it.records.map freeRecord).map Item.free, it'.Ok := by
    intro it' hmem
    obtain ⟨r, hr, rfl⟩ := List.mem_map.mp hmem
    obtain ⟨r₀, -, rfl⟩ := List.mem_map.mp hr
    exact Block.byte_setField_one (by decide)
  have hholds := hv'.replace hok htail
  rw [recordsOf_free, ← hrecords] at hholds
  exact hholds

/-- An entry for a name that has not been found. -/
theorem Filed.add (hg : g.WellFormed) (hal : g.Aligned) (hc : ds.head? = some d.sclust)
    (h : Filed g others rest v ds items s) (hno : lookup items name = none) (hname : Storable name)
    (hattr : attr < 256) (hlfn : attr ≠ FAT_ATTR_LFN) (hclust : clust < 2 ^ 32) :
    Yields (dirAdd g name attr clust ts) (s, d)
      (fun _ p ↦ ∃ (items' : List Item) (it : Item), Filed g others rest v ds items' p.1 ∧
        lookup items' = Function.update (lookup items) name (some it) ∧
        p.1.buf.record p.2.idx = it.entry ∧ it.entry.attr = attr ∧ it.entry.cluster = clust ∧
        it.entry.size = 0)
      (fun e p ↦ e = .code FAT_ERR_FULL ∧ Filed g others rest v ds items p.1) := by
  obtain ⟨v₁, ds₁, hstays, hv⟩ := h.state
  refine (dirAdd_spec hg hal hstays.hosting hv (Filed.head hstays hc) hname hattr hlfn hclust).mono ?_ ?_
  · rintro _ p ⟨v₂, ds₂, before, rs, after, parts, r, hstays₂, rfl, hv₂, hr, hcluster, hsize, hlook⟩
    have hit : ∀ name', (Item.long name parts r).Matches name' ↔ name' = name :=
      fun _ ↦ eq_comm
    have hlook' : Looking g others rest ds₂ v₂
        ((recordsOf before).length + (Item.long name parts r).records.length - 1) p := by
      rw [Item.records, List.length_append]
      exact hlook
    refine ⟨before ++ .long name parts r :: after, .long name parts r,
      ⟨⟨v₂, ds₂, hstays.trans hstays₂, hv₂⟩, h.unambiguous.add hno fun _ ↦ (hit _).mp⟩,
      lookup_add hno hit, hlook'.entry hv₂, hr, hcluster, hsize⟩
  · rintro e p ⟨he, v₂, ds₂, hstays₂, hv₂⟩
    exact ⟨he, ⟨v₂, ds₂, hstays.trans hstays₂, hv₂⟩, h.unambiguous⟩

/-! ## Runs -/

theorem DirStep.simulate (hg : g.WellFormed) (hal : g.Aligned) (hc : ds.head? = some c) {e : DirEvent}
    (hstep : DirStep g c e s s') (h : Filed g others rest v ds items s) :
    ∃ m, MapStep e (lookup items) m ∧
      ∃ items', Filed g others rest v ds items' s' ∧ m = lookup items' := by
  cases hstep with
  | @found name _ _ d d' loc hd hcall =>
      subst hd
      obtain ⟨before, it, after, -, hfound, hentry, v₁, ds₁, hstays, hv, -, -⟩ :=
        (h.search hg hal hc name).ok hcall
      dsimp only at hentry
      rw [hentry]
      exact ⟨_, .found hfound, items, ⟨⟨v₁, ds₁, hstays, hv⟩, h.unambiguous⟩, rfl⟩
  | @missed name _ _ d d' e hd hcall =>
      subst hd
      obtain ⟨rfl, hnone, -, hfiled⟩ := (h.search hg hal hc name).error hcall
      exact ⟨_, .missed hnone, items, hfiled, rfl⟩
  | @created name attr clust ts _ _ d d' p hd hname hattr hlfn hclust hsearch hcall =>
      subst hd
      obtain ⟨-, hnone, hhead, hfiled⟩ := (h.search hg hal hc name).error hsearch
      obtain ⟨items', it, hfiled', hlookup, hentry, hr, hcluster, hsize⟩ :=
        (hfiled.add hg hal hhead hnone hname hattr hlfn hclust).ok hcall
      dsimp only at hentry
      rw [hentry]
      exact ⟨_, .created hnone hr hcluster hsize, items', hfiled', hlookup.symm⟩
  | @notCreated name attr clust ts _ _ d d' p e hd hname hattr hlfn hclust hsearch hcall =>
      subst hd
      obtain ⟨-, hnone, hhead, hfiled⟩ := (h.search hg hal hc name).error hsearch
      obtain ⟨rfl, hfiled'⟩ := (hfiled.add hg hal hhead hnone hname hattr hlfn hclust).error hcall
      exact ⟨_, .notCreated hnone, items, hfiled', rfl⟩
  | @removed name _ _ d d' p loc hd hsearch hcall =>
      subst hd
      obtain ⟨before, it, after, rfl, hfound, -, v₁, ds₁, hstays, hv, hlook, rfl⟩ :=
        (h.search hg hal hc name).ok hsearch
      have hfiled := (Filed.remove hg hal h.unambiguous hstays hv hlook).ok hcall
      obtain ⟨hgone, hsame⟩ := h.unambiguous.lookup_drop (it.records.map freeRecord)
      exact ⟨_, .removed hfound hgone hsame, _, hfiled, rfl⟩
  | @notRemoved name _ _ d d' p loc e hd hsearch hcall =>
      subst hd
      obtain ⟨before, it, after, rfl, -, -, v₁, ds₁, hstays, hv, hlook, rfl⟩ :=
        (h.search hg hal hc name).ok hsearch
      exact ((Filed.remove hg hal h.unambiguous hstays hv hlook).error hcall).elim

theorem small_aligned : Geometry.small.Aligned := one_dvd _

theorem sample_hosting : Hosting .small [[2]] [[2], [4], [3]] .sample Fat.sample.volume where
  shows := sample_serving.shows
  consistent := sample_consistent.perm (((List.Perm.swap _ _ _).cons _).trans (List.Perm.swap _ _ _))
  sound := sample_serving.sound
  resides := sample_serving.resides

/-- The first record of the directory of the small volume marks the end. -/
theorem sample_holds : Holds (Fat.sample.volume.records .small [2]) [] := by
  refine ⟨fun it hit ↦ absurd hit List.not_mem_nil, _, rfl, fun r hr ↦ ?_⟩
  obtain rfl : Fat.sample.volume.record .small [2] 0 = r := Option.some.inj hr
  change (((Fat.sample.volume.sectors 5).record 0).byte 0) = SFN_LAST
  rw [sample_dir]
  rfl

theorem sample_filed : Filed .small [] [[4], [3]] Fat.sample.volume [2] [] .sample where
  state := ⟨Fat.sample.volume, [2], .refl sample_hosting, sample_holds⟩
  unambiguous := List.Pairwise.nil

end

end DemosOS.Fat32
