import DemosOS.Fat.Edits

/-!
# Room for an entry

The first loop of `dir_add` looks for enough records in a row, each of which is free or lies behind the
end of the directory, and lets the directory grow if it comes to the end of the chain.
-/

namespace DemosOS.Fat32

open Lib

/-- The record is free, or behind the end. -/
def Vacant (records : List Record) (k : Nat) : Prop :=
  (∃ r ∈ records[k]?, r.IsFree) ∨ ∃ i < k, ∃ r ∈ records[i]?, r.IsLast

/-- The variables of the loop at place `k`. -/
structure Room.At (g : Geometry) (ds : List Nat) (records : List Record) (need k : Nat) (room : Room) :
    Prop where
  cnt_le : room.cnt ≤ k
  need_le : room.cnt ≤ need
  vacant : ∀ j, k - room.cnt ≤ j → j < k → Vacant records j
  maximal : room.cnt = k ∨ ¬ Vacant records (k - room.cnt - 1)
  eod : room.eod = true ↔ ∃ i < k, ∃ r ∈ records[i]?, r.IsLast
  place : 0 < room.cnt → room.sect = g.fileSect ds ((k - room.cnt) / 16) ∧
    room.idx = 32 * ((k - room.cnt) % 16)

/-- The state of the loop. -/
structure Surveying (g : Geometry) (others rest : List (List Nat)) (v : Volume) (ds : List Nat)
    (need k : Nat) (room : Room) (p : Fat × Dir) : Prop where
  state : ∃ v' ds' m, Stays g others rest v ds p.1 v' ds' ∧ p.2.At g ds' k ∧
    v'.records g ds' = v.records g ds ++ List.replicate m Record.blank ∧
    room.At g ds' (v'.records g ds') need k

section

variable {g : Geometry} {others rest : List (List Nat)} {s : Fat} {v v' : Volume} {ds ds' : List Nat}
  {d : Dir} {j k m n need : Nat} {p : Fat × Dir} {room : Room} {records : List Record} {r : Record}
  {items : List Item}

theorem Record.isLast_blank : Record.blank.IsLast := rfl

/-! ## Records that follow -/

theorem getElem?_append_blank (hk : k < records.length) (m : Nat) :
    (records ++ List.replicate m Record.blank)[k]? = records[k]? := List.getElem?_append_left hk

theorem exists_last_append (hk : k ≤ records.length) :
    (∃ i < k, ∃ r ∈ (records ++ List.replicate m Record.blank)[i]?, r.IsLast) ↔
      ∃ i < k, ∃ r ∈ records[i]?, r.IsLast := by
  constructor
  · rintro ⟨i, hi, r, hr, hlast⟩
    rw [getElem?_append_blank (by omega)] at hr
    exact ⟨i, hi, r, hr, hlast⟩
  · rintro ⟨i, hi, r, hr, hlast⟩
    refine ⟨i, hi, r, ?_, hlast⟩
    rw [getElem?_append_blank (by omega)]
    exact hr

theorem vacant_append (hk : k < records.length) :
    Vacant (records ++ List.replicate m Record.blank) k ↔ Vacant records k := by
  unfold Vacant
  rw [getElem?_append_blank hk, exists_last_append hk.le]

/-- What has been seen stays as it is when the directory grows. -/
theorem Room.At.grow (h : room.At g ds records need k) (hpre : ds <+: ds')
    (hrecords : records.length = g.recordsIn ds) (hk : k ≤ records.length) (m : Nat) :
    room.At g ds' (records ++ List.replicate m Record.blank) need k where
  cnt_le := h.cnt_le
  need_le := h.need_le
  vacant j hj hlt := (vacant_append (by omega)).mpr (h.vacant j hj hlt)
  maximal := by
    rcases h.maximal with hcnt | hnot
    · exact Or.inl hcnt
    · by_cases hzero : k = 0
      · have hle := h.cnt_le
        exact Or.inl (by omega)
      · exact Or.inr fun hvac ↦ hnot ((vacant_append (by omega)).mp hvac)
  eod := h.eod.trans (exists_last_append hk).symm
  place hcnt := by
    obtain ⟨hsect, hidx⟩ := h.place hcnt
    refine ⟨hsect.trans (Geometry.fileSect_prefix hpre ?_).symm, hidx⟩
    have hle := h.cnt_le
    exact Geometry.lt_recordsIn.mp (by omega)

/-! ## One round -/

/-- The new variables of the loop. -/
def Room.next (room : Room) (r : Record) (sect idx : Nat) : Room :=
  let room' : Room :=
    if room.eod ∨ r.IsFree then
      if room.cnt = 0 then { room with cnt := 1, sect := sect, idx := idx }
      else { room with cnt := room.cnt + 1 }
    else { room with cnt := 0 }
  if r.IsLast then { room' with eod := true } else room'

theorem Room.next_cnt (room : Room) (r : Record) (sect idx : Nat) :
    (room.next r sect idx).cnt = if room.eod ∨ r.IsFree then room.cnt + 1 else 0 := by
  unfold next
  dsimp only
  split_ifs with h₁ h₂ h₃ h₄ h₅
  all_goals first | rfl | (dsimp only; omega)

theorem Room.next_eod (room : Room) (r : Record) (sect idx : Nat) :
    (room.next r sect idx).eod = true ↔ room.eod = true ∨ r.IsLast := by
  unfold next
  dsimp only
  split_ifs with h₁ h₂ h₃ h₄ h₅
  all_goals simp_all

theorem Room.next_place (room : Room) (r : Record) (sect idx : Nat) (h : room.eod ∨ r.IsFree) :
    (room.next r sect idx).sect = (if room.cnt = 0 then sect else room.sect) ∧
      (room.next r sect idx).idx = if room.cnt = 0 then idx else room.idx := by
  unfold next
  dsimp only
  rw [if_pos h]
  split_ifs
  all_goals exact ⟨rfl, rfl⟩

theorem Room.At.next (h : room.At g ds records need k) (hr : records[k]? = some r)
    (hcnt : room.cnt < need) (hd : d.At g ds k) :
    (room.next r d.sect d.idx).At g ds records need (k + 1) := by
  have hvacant : (room.eod = true ∨ r.IsFree) ↔ Vacant records k := by
    rw [Vacant, hr, h.eod, or_comm]
    simp
  have hle := h.cnt_le
  have hnext := room.next_cnt r d.sect d.idx
  refine ⟨?_, ?_, fun j hj hlt ↦ ?_, ?_, ?_, fun hpos ↦ ?_⟩
  · rw [hnext]
    split_ifs
    all_goals omega
  · rw [hnext]
    split_ifs
    all_goals omega
  · rw [hnext] at hj
    by_cases hvac : room.eod = true ∨ r.IsFree
    · rw [if_pos hvac] at hj
      by_cases hjk : j = k
      · rw [hjk]
        exact hvacant.mp hvac
      · exact h.vacant j (by omega) (by omega)
    · rw [if_neg hvac] at hj
      omega
  · rw [hnext]
    by_cases hvac : room.eod = true ∨ r.IsFree
    · rw [if_pos hvac, Nat.add_sub_add_right]
      exact h.maximal.imp_left (congrArg Nat.succ)
    · rw [if_neg hvac]
      exact Or.inr (mt hvacant.mpr hvac)
  · rw [room.next_eod, h.eod]
    constructor
    · rintro (⟨i, hi, hlast⟩ | hlast)
      · exact ⟨i, Nat.lt_succ_of_lt hi, hlast⟩
      · exact ⟨k, Nat.lt_succ_self k, r, hr, hlast⟩
    · rintro ⟨i, hi, r', hr', hlast⟩
      by_cases hik : i = k
      · subst hik
        obtain rfl := Option.some.inj (hr.symm.trans hr')
        exact Or.inr hlast
      · exact Or.inl ⟨i, by omega, r', hr', hlast⟩
  · by_cases hvac : room.eod = true ∨ r.IsFree
    · rw [hnext, if_pos hvac, Nat.add_sub_add_right]
      obtain ⟨hsect, hidx⟩ := room.next_place r d.sect d.idx hvac
      rw [hsect, hidx]
      split_ifs with hzero
      · rw [hzero]
        exact ⟨hd.sect, hd.idx⟩
      · exact h.place (Nat.pos_of_ne_zero hzero)
    · rw [hnext, if_neg hvac] at hpos
      exact absurd hpos (Nat.lt_irrefl 0)

/-- No cluster can be had, and the directory is as before. -/
def NoRoom (g : Geometry) (others rest : List (List Nat)) (v : Volume) (ds : List Nat) (e : Failure)
    (p : Fat × Dir) : Prop :=
  e = .code FAT_ERR_FULL ∧ ∃ v' ds' m, Stays g others rest v ds p.1 v' ds' ∧
    v'.records g ds' = v.records g ds ++ List.replicate m Record.blank

theorem roomRound_spec (hg : g.WellFormed) (hal : g.Aligned)
    (h : Surveying g others rest v ds need k room p) :
    Yields (roomRound g need room) p
      (fun r p' ↦ r.elim
        (fun room' ↦ room'.cnt = need ∧ Surveying g others rest v ds need k room' p')
        fun room' ↦ Surveying g others rest v ds need (k + 1) room' p')
      (NoRoom g others rest v ds) := by
  obtain ⟨s, d⟩ := p
  obtain ⟨v₁, ds₁, m, hstays, hat, hrecords, hroom⟩ := h.state
  refine Yields.ite (fun hcnt ↦ ?_) fun hcnt ↦ Yields.pure ⟨?_, h⟩
  · refine Yields.bind (updateDir_spec hg hstays.hosting hat).sure ?_
    rintro _ ⟨s₂, d₂⟩ ⟨h₂, hsame⟩
    obtain rfl : d₂ = d := hsame
    refine h₂.dirPtr (Yields.get_bind ?_)
    have hnext := hroom.next (v₁.getElem?_records hat.lt) hcnt hat
    refine Yields.bind ((dirNextStretch_spec hg hal h₂.hosting hat).mono (fun _ _ hq ↦ hq) ?_) ?_
    · rintro e p ⟨rfl, -, hfull⟩
      exact ⟨rfl, v₁.marked, ds₁, m, ⟨hfull, hstays.pre, hstays.free, hstays.frame⟩, hrecords⟩
    · rintro _ ⟨s₃, d₃⟩ ⟨v₃, ds₃, m₃, hstays₃, hat₃, hrecords₃⟩
      refine Yields.pure ⟨v₃, ds₃, m + m₃, hstays.trans ⟨hstays₃.hosting, hstays₃.pre, hstays₃.free,
        hstays₃.frame⟩, hat₃, ?_, ?_⟩
      · rw [hrecords₃, hrecords, List.append_assoc, List.replicate_append_replicate]
      · rw [hrecords₃]
        have hlt := hat.lt
        refine hnext.grow hstays₃.pre Volume.length_records ?_ m₃
        rw [Volume.length_records]
        exact hlt
  · have hle := hroom.need_le
    omega

theorem roomLoop_spec (hg : g.WellFormed) (hal : g.Aligned)
    (h : Surveying g others rest v ds need 0 room p) :
    Yields (iterate .fuel (roomRound g need) (g.recordCnt + 1) room) p
      (fun room' p' ↦ room'.cnt = need ∧ ∃ k, Surveying g others rest v ds need k room' p')
      (NoRoom g others rest v ds) := by
  refine Yields.iterate_of_variant (I := fun n room p ↦ ∃ k, n + k = g.recordCnt ∧
    Surveying g others rest v ds need k room p) (k := g.recordCnt) ?_ ⟨0, rfl, h⟩
    (Nat.lt_succ_self _)
  rintro n room p ⟨k, hn, hk⟩
  refine (roomRound_spec hg hal hk).mono ?_ fun _ _ hE ↦ hE
  rintro r p' hr
  cases r with
  | inl room' => exact ⟨hr.1, k, hr.2⟩
  | inr room' =>
      obtain ⟨v', ds', m, hstays, hat, -, -⟩ := hr.state
      have hlt := hat.lt
      have hle := hstays.hosting.recordsIn_le
      exact ⟨n - 1, by omega, k + 1, by omega, hr⟩

/-! ## What has been found -/

/-- The room that has been found is a run of deleted items, which the end of the directory may
follow. -/
theorem Room.At.exists_deleted (h : room.At g ds records need k) (hcnt : room.cnt = need)
    (hneed : 0 < need) (hv : Holds records items) (hk : k < records.length) :
    ∃ (before : List Item) (rs : List Record) (after : List Item),
      items = before ++ rs.map Item.free ++ after ∧ (recordsOf before).length = k - need ∧
        (room.eod = false ∧ rs.length = need ∨
          room.eod = true ∧ rs.length < need ∧ after = []) := by
  subst hcnt
  have hle := h.cnt_le
  obtain ⟨tail, hsplit, htail⟩ := hv.split
  have hin : ∀ {i r}, i < (recordsOf items).length → records[i]? = some r → ¬ r.IsLast := by
    intro i r hi hr
    rw [hsplit, List.getElem?_append_left hi] at hr
    obtain ⟨it, hit, hmem⟩ := List.mem_flatMap.mp (List.mem_of_getElem? hr)
    exact (hv.ok it hit).not_last hmem
  have hend : ∀ {r}, records[(recordsOf items).length]? = some r → r.IsLast := hv.isLast
  -- in front of the end, what is vacant is free
  have hfree : ∀ j < k, k - room.cnt ≤ j → j < (recordsOf items).length →
      ∃ r, (recordsOf items)[j]? = some r ∧ r.IsFree := by
    intro j hjk hj hlt
    rcases h.vacant j hj hjk with ⟨r, hr, hr_free⟩ | ⟨i, hi, r, hr, hlast⟩
    · refine ⟨r, ?_, hr_free⟩
      rw [hsplit, List.getElem?_append_left hlt] at hr
      exact hr
    · exact absurd hlast (hin (by omega) hr)
  cases heod : room.eod with
  | false =>
      have hnone : ¬ ∃ i < k, ∃ r ∈ records[i]?, r.IsLast := by
        rw [← h.eod, heod]
        exact Bool.false_ne_true
      have hkle : k ≤ (recordsOf items).length := by
        refine Nat.le_of_not_lt fun hlt ↦ hnone ⟨_, hlt, records[(recordsOf items).length], ?_, ?_⟩
        · exact List.getElem?_eq_getElem (by omega)
        · exact hend (List.getElem?_eq_getElem (by omega))
      obtain ⟨before, rs, after, hitems, hlen, hrs⟩ :=
        DemosOS.Fat32.exists_deleted hv.ok (k := k - room.cnt) (n := room.cnt)
          (fun j hj ↦ hfree _ (by omega) (by omega) (by omega)) (by omega) (by omega)
      exact ⟨before, rs, after, hitems, hlen, Or.inl ⟨rfl, hrs⟩⟩
  | true =>
      obtain ⟨i, hi, r, hr, hlast⟩ := h.eod.mp heod
      have hgt : (recordsOf items).length < k := by
        refine Nat.lt_of_le_of_lt (Nat.le_of_not_lt fun hlt ↦ ?_) hi
        exact hin hlt hr hlast
      have hget := List.getElem?_eq_getElem (hgt.trans hk)
      have hpos : k - room.cnt ≤ (recordsOf items).length := by
        rcases h.maximal with hcnt | hnot
        · omega
        · refine Nat.le_of_not_lt fun hlt ↦ hnot ?_
          by_cases heq : k - room.cnt - 1 = (recordsOf items).length
          · rw [heq]
            exact Or.inl ⟨_, hget, (hend hget).isFree⟩
          · exact Or.inr ⟨_, by omega, _, hget, hend hget⟩
      obtain ⟨before, rs, after, hitems, hlen, hrs⟩ :=
        DemosOS.Fat32.exists_deleted hv.ok (k := k - room.cnt)
          (n := (recordsOf items).length - (k - room.cnt))
          (fun j hj ↦ hfree _ (by omega) (by omega) (by omega)) (by omega) (by omega)
      have hafter : after = [] := by
        cases after with
        | nil => rfl
        | cons it after =>
            have hlength := congrArg (fun l ↦ (recordsOf l).length) hitems
            have hit := it.length_records_pos
            simp only [recordsOf_append, recordsOf_cons, recordsOf_free, List.length_append]
              at hlength
            omega
      exact ⟨before, rs, after, hitems, hlen, Or.inr ⟨rfl, by omega, hafter⟩⟩

end

end DemosOS.Fat32
