import DemosOS.Fat.Growth
import DemosOS.Fat.Search

/-!
# Deleting an entry

A change of a record is a change of the list of records, and of nothing else.  `remove_entries` marks
all records of an entry as free: the entry is not found any more, and every other one is.
-/

namespace DemosOS.Fat32

open Lib

section

variable {g : Geometry} {others rest : List (List Nat)} {s : Fat} {v v' : Volume} {ds : List Nat}
  {d : Dir} {k n : Nat} {p : Fat × Dir} {f : Record → Record} {r : Record}
  {before after : List Record}

/-! ## Changing a record -/

theorem modify_append_cons {α : Type} (l l' : List α) (a : α) (f : α → α) :
    (l ++ a :: l').modify l.length f = l ++ f a :: l' :=
  List.modifyTailIdx_add (List.modifyHead f) 0 l (a :: l')

theorem editDir_spec {E : Failure → Fat × Dir → Prop} (hg : g.WellFormed)
    (h : Looking g others rest ds v before.length p)
    (hrecords : v.records g ds = before ++ r :: after) :
    Yields (editDir f) p (fun _ p' ↦ p'.2 = p.2 ∧ p'.1.Loaded p.2.sect ∧
      ∃ v', Stays g others rest v ds p'.1 v' ds ∧ v'.records g ds = before ++ f r :: after) E := by
  obtain ⟨s, d⟩ := p
  have hin := h.at'.inClust
  have hmem := List.mem_of_getElem? h.at'.clust
  have hds := h.hosting.range
  refine Yields.get_bind (Yields.onFirst ?_)
  refine ((editBuf_keeps.and h.hosting.resides (editBuf_spec (E := fun _ _ ↦ False) h.hosting.shows
    h.loaded)).mono ?_ fun _ _ hE ↦ hE.1.elim)
  rintro _ s' ⟨⟨hshows, hload⟩, hs'⟩
  refine ⟨rfl, hload, v.editRecord g ds before.length f, ⟨⟨?_, ?_, h.hosting.sound, hs'⟩, List.prefix_rfl,
    rfl, fun n _ hn ↦ ?_⟩, ?_⟩
  · rw [Volume.editRecord, ← h.at'.sect, ← h.at'.idx]
    exact hshows
  · refine h.hosting.consistent.congr hg rfl fun n hn ↦ Function.update_of_ne ?_ _ _
    have hle := hin.data_le
    rw [h.at'.sect] at hle
    omega
  · refine Function.update_of_ne ?_ _ _
    rintro rfl
    rw [← h.at'.sect] at hn
    exact hn _ hmem hin
  · rw [Volume.records_editRecord (fun c hc ↦ (hds c hc).1) h.hosting.nodup h.at'.lt, hrecords,
      modify_append_cons]

/-- The record at this place is changed. -/
theorem overwrite_spec {E : Failure → Fat × Dir → Prop} (hg : g.WellFormed)
    (h : Hosting g (ds :: others) (ds :: rest) s v) (hd : d.At g ds before.length)
    (hrecords : v.records g ds = before ++ r :: after) :
    Yields (updateDir >>= fun _ ↦ editDir f) (s, d)
      (fun _ p ↦ p.2 = d ∧ p.1.Loaded d.sect ∧ ∃ v', Stays g others rest v ds p.1 v' ds ∧
        v'.records g ds = before ++ f r :: after) E := by
  refine Yields.bind (updateDir_spec hg h hd).sure ?_
  rintro _ ⟨s₁, d₁⟩ ⟨h₁, hsame⟩
  obtain rfl : d₁ = d := hsame
  exact editDir_spec hg h₁ hrecords

theorem overwrite_bind {α : Type} {x : DirM α} {Q : α → Fat × Dir → Prop}
    {E : Failure → Fat × Dir → Prop} (hg : g.WellFormed)
    (h : Hosting g (ds :: others) (ds :: rest) s v) (hd : d.At g ds before.length)
    (hrecords : v.records g ds = before ++ r :: after)
    (hx : ∀ s' v', Stays g others rest v ds s' v' ds → v'.records g ds = before ++ f r :: after →
      Yields x (s', d) Q E) :
    Yields (updateDir >>= fun _ ↦ editDir f >>= fun _ ↦ x) (s, d) Q E := by
  rw [← bind_assoc]
  refine Yields.bind (overwrite_spec hg h hd hrecords) ?_
  rintro _ ⟨s', d'⟩ ⟨hsame, -, v', hstays, hrecords'⟩
  obtain rfl : d' = d := hsame
  exact hx s' v' hstays hrecords'

/-! ## Going back to an entry -/

/-- The place that a `Loc` stands for. -/
theorem Dir.at_loc (hg : g.WellFormed) (hds : ∀ c ∈ ds, 2 ≤ c ∧ c < g.clustCnt)
    (hhead : ds.head? = some d.sclust) (hk : k < g.recordsIn ds) :
    Dir.At g ds { d with clust := g.sectToClust (g.fileSect ds (k / 16)),
                         sect := g.fileSect ds (k / 16), idx := 32 * (k % 16) } k := by
  have hget := List.getElem?_eq_getElem (Geometry.lt_recordsIn.mp hk)
  obtain ⟨hc, hlt⟩ := hds _ (List.mem_of_getElem? hget)
  refine ⟨hhead, ?_, rfl, rfl⟩
  rw [hg.sectToClust_eq (Geometry.inClust_fileSect hget) hc hlt]
  exact hget

/-- A directory is at one place only. -/
theorem Dir.At.unique {d' : Dir} {k' : Nat} (h : d.At g ds k) (h' : d'.At g ds k')
    (hds : ∀ c ∈ ds, 2 ≤ c) (hnodup : ds.Nodup) (hsect : d.sect = d'.sect) (hidx : d.idx = d'.idx) :
    k = k' := by
  rw [h.sect, h'.sect] at hsect
  rw [h.idx, h'.idx] at hidx
  have hdiv := Geometry.fileSect_inj hds hnodup (List.getElem?_eq_some_iff.mp h.clust).1
    (List.getElem?_eq_some_iff.mp h'.clust).1 hsect
  omega

/-! ## remove_entries -/

/-- The records behind `before` are being freed; `todo` are still to be done. -/
structure Freeing (g : Geometry) (others rest : List (List Nat)) (v : Volume) (ds : List Nat)
    (before entry after done todo : List Record) (p : Fat × Dir) : Prop where
  split : entry = done ++ todo
  ne_nil : todo ≠ []
  at' : p.2.At g ds (before.length + done.length)
  state : ∃ v', Stays g others rest v ds p.1 v' ds ∧
    v'.records g ds = before ++ (done.map freeRecord ++ (todo ++ after))

theorem removeEntriesRound_spec {entry done todo : List Record} {dEnd : Dir} (hg : g.WellFormed)
    (hal : g.Aligned) (hdEnd : dEnd.At g ds (before.length + entry.length - 1))
    (h : Freeing g others rest v ds before entry after done todo p) :
    Yields (removeEntriesRound g dEnd.sect dEnd.idx ()) p
      (fun r p' ↦ r.elim
        (fun _ ↦ ds.head? = some p'.2.sclust ∧ ∃ v', Stays g others rest v ds p'.1 v' ds ∧
          v'.records g ds = before ++ (entry.map freeRecord ++ after))
        fun _ ↦ ∃ done' todo', todo'.length < todo.length ∧
          Freeing g others rest v ds before entry after done' todo' p')
      fun _ _ ↦ False := by
  obtain ⟨s, d⟩ := p
  obtain ⟨rfl, hne, hat, v₁, hstays, hrecords⟩ := h
  obtain ⟨r, todo, rfl⟩ := List.exists_cons_of_ne_nil hne
  have hrange := hstays.hosting.range
  have hsplit : v₁.records g ds = (before ++ done.map freeRecord) ++ r :: (todo ++ after) := by
    rw [hrecords, List.append_assoc]
    rfl
  have hlen : (before ++ done.map freeRecord).length = before.length + done.length := by
    rw [List.length_append, List.length_map]
  refine overwrite_bind hg hstays.hosting (by rwa [hlen]) hsplit fun s' v' hstays' hrecords' ↦ ?_
  have hrecords'' : v'.records g ds =
      before ++ ((done ++ [r]).map freeRecord ++ (todo ++ after)) := by
    rw [hrecords', List.map_append, List.append_assoc, List.append_assoc]
    rfl
  have hlt := hdEnd.lt
  rw [List.length_append, List.length_cons] at hdEnd hlt
  refine Yields.get_bind (Yields.ite (fun hend ↦ Yields.pure ⟨hat.sclust, v', hstays.trans hstays', ?_⟩)
    fun hgo ↦ ?_)
  · have hk := hat.unique hdEnd (fun c hc ↦ (hrange c hc).1) hstays.hosting.nodup hend.1 hend.2
    obtain rfl : todo = [] := List.eq_nil_of_length_eq_zero (by omega)
    exact hrecords''
  · have hk : todo ≠ [] := by
      rintro rfl
      have hplace : before.length + (done.length + ([] : List Record).length.succ) - 1 =
          before.length + done.length := by
        rw [List.length_nil]
        omega
      have hdEnd' : dEnd.At g ds (before.length + done.length) := hplace ▸ hdEnd
      exact hgo ⟨hat.sect.trans hdEnd'.sect.symm, hat.idx.trans hdEnd'.idx.symm⟩
    have hpos := List.length_pos_of_ne_nil hk
    refine Yields.bind ((dirNext_spec hg hal hstays'.hosting hat).mono (fun _ _ hq ↦ hq)
      fun e p' hE ↦ absurd hE.2.1 (by omega)) ?_
    rintro _ p' ⟨h₂, hat₂⟩
    refine Yields.pure ⟨done ++ [r], todo, Nat.lt_succ_self _, List.append_cons .., hk, ?_, v',
      ⟨h₂, ?_, ?_, ?_⟩, hrecords''⟩
    · rw [List.length_append, List.length_singleton, ← Nat.add_assoc]
      exact hat₂
    · exact List.prefix_rfl
    · exact (hstays.trans hstays').free
    · exact (hstays.trans hstays').frame

/-- `remove_entries` frees the records of an entry, and no others. -/
theorem removeEntries_spec {entry : List Record} (hg : g.WellFormed) (hal : g.Aligned)
    (h : Looking g others rest ds v (before.length + entry.length - 1) p) (hne : entry ≠ [])
    (hrecords : v.records g ds = before ++ (entry ++ after)) :
    Yields (removeEntries g ⟨g.fileSect ds (before.length / 16), 32 * (before.length % 16)⟩) p
      (fun _ p' ↦ ds.head? = some p'.2.sclust ∧ ∃ v', Stays g others rest v ds p'.1 v' ds ∧
        v'.records g ds = before ++ (entry.map freeRecord ++ after))
      fun _ _ ↦ False := by
  obtain ⟨s, d⟩ := p
  have hlt := h.at'.lt
  have hpos := List.length_pos_of_ne_nil hne
  have hstart := Dir.at_loc hg h.hosting.range h.at'.sclust
    (show before.length < g.recordsIn ds by omega)
  refine Yields.get_bind (Yields.modify_bind ?_)
  refine Yields.iterate_of_variant (I := fun n (_ : Unit) p ↦ ∃ done todo, todo.length = n ∧
    Freeing g others rest v ds before entry after done todo p) (k := entry.length) ?_
    ⟨[], entry, rfl, rfl, hne, hstart, v, .refl h.hosting, hrecords⟩ ?_
  · rintro n ⟨⟩ p ⟨done, todo, rfl, hfreeing⟩
    refine (removeEntriesRound_spec hg hal h.at' hfreeing).mono ?_ fun _ _ hE ↦ hE
    rintro r p' hr
    cases r with
    | inl _ => exact hr
    | inr _ =>
        obtain ⟨done', todo', hless, hfreeing'⟩ := hr
        exact ⟨todo'.length, hless, done', todo', rfl, hfreeing'⟩
  · have hle := h.hosting.recordsIn_le
    have hlen := congrArg List.length hrecords
    rw [Volume.length_records, List.length_append, List.length_append] at hlen
    omega

end

end DemosOS.Fat32
