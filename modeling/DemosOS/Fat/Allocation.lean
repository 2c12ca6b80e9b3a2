import DemosOS.Fat.Removal

/-!
# Allocating clusters

`stretch_chain` takes the cluster behind the end of the chain if it is free, and otherwise the next
free one behind the cluster that was allocated last, all clusters being on a circle.  The scan never
looks at the cluster that was allocated last: a volume on which only this one is free is full.

An error of the card during the scan is not reported as one, since the scan returns `flags` in place
of the error.
-/

namespace DemosOS.Fat32

open Lib

/-! ## The circle of clusters -/

/-- The cluster `k` places behind `c`. -/
def Geometry.ahead (g : Geometry) (c k : Nat) : Nat := 2 + (c - 2 + k) % (g.clustCnt - 2)

section Circle

variable {g : Geometry} {c c' k j : Nat}

theorem Geometry.WellFormed.lt_pow (hg : g.WellFormed) : g.clustCnt < 2 ^ 32 := by
  have hentries := hg.entries
  omega

theorem Geometry.WellFormed.ahead_range (hg : g.WellFormed) (c k : Nat) :
    2 ≤ g.ahead c k ∧ g.ahead c k < g.clustCnt := by
  have hpos : 0 < g.clustCnt - 2 := Nat.sub_pos_of_lt hg.clusters
  have hmod := Nat.mod_lt (c - 2 + k) hpos
  unfold Geometry.ahead
  omega

theorem Geometry.ahead_zero (hc : 2 ≤ c) (hlt : c < g.clustCnt) : g.ahead c 0 = c := by
  have hmod : (c - 2) % (g.clustCnt - 2) = c - 2 := Nat.mod_eq_of_lt (by omega)
  rw [ahead, Nat.add_zero, hmod]
  omega

theorem Geometry.WellFormed.nextClust_range (hg : g.WellFormed) (hc : 2 ≤ c) (hlt : c < g.clustCnt) :
    2 ≤ g.nextClust c ∧ g.nextClust c < g.clustCnt := by
  have hclusters := hg.clusters
  have hpow := hg.lt_pow
  have hmod : (c + 1) % 2 ^ 32 = c + 1 := Nat.mod_eq_of_lt (by omega)
  rw [nextClust, hmod]
  by_cases hge : c + 1 ≥ g.clustCnt
  · rw [if_pos hge]
    exact ⟨Nat.le_refl 2, hclusters⟩
  · rw [if_neg hge]
    exact ⟨by omega, Nat.lt_of_not_le hge⟩

/-- One step on the circle. -/
theorem Geometry.WellFormed.nextClust_ahead (hg : g.WellFormed) (c k : Nat) :
    g.nextClust (g.ahead c k) = g.ahead c (k + 1) := by
  have hclusters := hg.clusters
  have hpow := hg.lt_pow
  have hmod := Nat.mod_lt (c - 2 + k) (Nat.sub_pos_of_lt hclusters)
  have hsucc : (c - 2 + (k + 1)) % (g.clustCnt - 2) =
      ((c - 2 + k) % (g.clustCnt - 2) + 1) % (g.clustCnt - 2) := by
    rw [← Nat.add_assoc, Nat.mod_add_mod]
  unfold Geometry.nextClust Geometry.ahead
  rw [hsucc, Nat.mod_eq_of_lt (by omega : 2 + (c - 2 + k) % (g.clustCnt - 2) + 1 < 2 ^ 32)]
  by_cases hge : 2 + (c - 2 + k) % (g.clustCnt - 2) + 1 ≥ g.clustCnt
  · have hlast : (c - 2 + k) % (g.clustCnt - 2) + 1 = g.clustCnt - 2 := by omega
    rw [if_pos hge, hlast, Nat.mod_self]
  · have hnext : ((c - 2 + k) % (g.clustCnt - 2) + 1) % (g.clustCnt - 2) =
        (c - 2 + k) % (g.clustCnt - 2) + 1 := Nat.mod_eq_of_lt (by omega)
    rw [if_neg hge, hnext, Nat.add_assoc]

/-- After `k` steps the scan is back where it has begun. -/
theorem Geometry.ahead_eq_iff (hc : 2 ≤ c) (hlt : c < g.clustCnt) :
    g.ahead c k = c ↔ (g.clustCnt - 2) ∣ k := by
  have hself := g.ahead_zero hc hlt
  constructor
  · intro h
    have hmod : (c - 2 + k) % (g.clustCnt - 2) = (c - 2 + 0) % (g.clustCnt - 2) :=
      Nat.add_left_cancel (h.trans hself.symm)
    have hmodEq : c - 2 + k ≡ c - 2 + 0 [MOD g.clustCnt - 2] := hmod
    exact (Nat.modEq_zero_iff_dvd).mp (Nat.ModEq.add_left_cancel' (c - 2) hmodEq)
  · rintro ⟨m, rfl⟩
    rw [ahead, Nat.add_mul_mod_self_left]
    exact hself

/-- Every cluster is on the circle. -/
theorem Geometry.exists_ahead (hc : 2 ≤ c) (hc' : 2 ≤ c') (hlt : c < g.clustCnt)
    (hlt' : c' < g.clustCnt) : ∃ j < g.clustCnt - 2, g.ahead c j = c' := by
  by_cases hle : c ≤ c'
  · refine ⟨c' - c, by omega, ?_⟩
    have hmod : (c - 2 + (c' - c)) % (g.clustCnt - 2) = c' - 2 := by
      rw [show c - 2 + (c' - c) = c' - 2 by omega, Nat.mod_eq_of_lt (by omega)]
    rw [ahead, hmod]
    omega
  · refine ⟨c' + (g.clustCnt - 2) - c, by omega, ?_⟩
    have hmod : (c - 2 + (c' + (g.clustCnt - 2) - c)) % (g.clustCnt - 2) = c' - 2 := by
      rw [show c - 2 + (c' + (g.clustCnt - 2) - c) = c' - 2 + (g.clustCnt - 2) by omega,
        Nat.add_mod_right, Nat.mod_eq_of_lt (by omega)]
    rw [ahead, hmod]
    omega

end Circle

section

variable {g : Geometry} {s : Fat} {v : Volume} {c prev : Nat}

/-! ## The scan -/

/-- The cluster that the scan takes: the first free one behind the cluster allocated last. -/
structure Volume.NextFree (g : Geometry) (v : Volume) (c : Nat) : Prop where
  free : v.link g c = .free
  first : ∃ k, 0 < k ∧ k < g.clustCnt - 2 ∧ c = g.ahead v.lastUsed k ∧
    ∀ j, 0 < j → j < k → v.link g (g.ahead v.lastUsed j) ≠ .free

/-- No cluster is free, but for the one that was allocated last. -/
def Volume.Full (g : Geometry) (v : Volume) : Prop :=
  ∀ c, c ≠ v.lastUsed → v.link g c ≠ .free

/-- A volume whose counters and entries can be worked with. -/
structure Volume.Usable (g : Geometry) (v : Volume) : Prop where
  lastUsed : 2 ≤ v.lastUsed ∧ v.lastUsed < g.clustCnt
  readable : g.Readable v.sectors

/-- The scan has looked at `k` clusters, and none of them is free. -/
structure Scanning (g : Geometry) (v : Volume) (flags k : Nat) (b : Nat × Nat) (s : Fat) : Prop where
  shows : s.Shows v
  lt : k < g.clustCnt - 2
  at_eq : b.1 = g.ahead v.lastUsed k
  used : ∀ j, 0 < j → j ≤ k → v.link g (g.ahead v.lastUsed j) ≠ .free
  flags : b.2 = flags ∨ 0 < b.2

theorem Scanning.round (hg : g.WellFormed) (hv : v.Usable g) {flags k : Nat} {b : Nat × Nat}
    (h : Scanning g v flags k b s) :
    Yields (scanRound g b) s
      (fun r s' ↦ r.elim
        (fun found ↦ s'.Shows v ∧ ((∃ c, found = some c ∧ v.NextFree g c) ∨
          found = none ∧ flags = 0 ∧ v.Faulty))
        fun b' ↦ Scanning g v flags (k + 1) b' s')
      (fun e s' ↦ (e = .code FAT_ERR_FULL ∧ s'.Shows v ∧ v.Full g) ∨
        (v.Faulty ∧ ∃ n : Nat, 0 < n ∧ e = .code n)) := by
  obtain ⟨clust, oldFlags⟩ := b
  have hat : clust = g.ahead v.lastUsed k := h.at_eq
  have hnext : g.nextClust clust = g.ahead v.lastUsed (k + 1) := by
    rw [hat, hg.nextClust_ahead]
  obtain ⟨hc, hlt⟩ := hg.ahead_range v.lastUsed (k + 1)
  have hlast : s.lastUsed = v.lastUsed := congrArg Books.lastUsed h.shows.books
  refine Yields.get_bind ?_
  rw [hnext, hlast]
  refine Yields.ite (fun hback ↦ ?_) fun hback ↦ ?_
  · -- the scan is back at the cluster it has begun with, and has seen every other one
    refine Yields.throw (Or.inl ⟨rfl, h.shows, ?_⟩)
    intro c hne hfree
    have hdvd := (Geometry.ahead_eq_iff hv.lastUsed.1 hv.lastUsed.2).mp hback
    have hround := Nat.le_of_dvd k.succ_pos hdvd
    have hrange := Geometry.range_of_link (v := v.sectors) (c := c) (by
      rw [show g.link v.sectors c = .free from hfree]
      rintro ⟨⟩)
    obtain ⟨j, hj, rfl⟩ := Geometry.exists_ahead hv.lastUsed.1 hrange.1 hv.lastUsed.2 hrange.2
    refine h.used j ?_ (by omega) hfree
    refine Nat.pos_of_ne_zero ?_
    rintro rfl
    exact hne (Geometry.ahead_zero hv.lastUsed.1 hv.lastUsed.2)
  · have hlt' : k + 1 < g.clustCnt - 2 := by
      have hle : k + 1 ≤ g.clustCnt - 2 := h.lt
      refine Nat.lt_of_le_of_ne hle fun heq ↦ hback ?_
      rw [heq]
      exact (Geometry.ahead_eq_iff hv.lastUsed.1 hv.lastUsed.2).mpr (Nat.dvd_refl _)
    refine Yields.bind (Q := fun r s' ↦ s'.Shows v ∧ ((∃ e, r = .error e ∧ v.Faulty) ∨
      ∃ val state, r = .ok (val, state) ∧
        v.link g (g.ahead v.lastUsed (k + 1)) = state.link val)) (Yields.attempt ?_) ?_
    · refine (getFat_spec hg h.shows hlt).mono ?_ ?_
      · rintro ⟨val, state⟩ s' ⟨h', hval, hstate⟩
        refine ⟨h', Or.inr ⟨val, state, rfl, ?_⟩⟩
        rw [Volume.link, Geometry.link_of_range hc hlt, ← hval]
        exact Geometry.meaning_of_classify hstate
      · rintro e s' (hio | ⟨-, hnone, -⟩)
        · exact ⟨hio.2.2, Or.inl ⟨e, rfl, hio.2.1⟩⟩
        · exact absurd hnone (hv.readable _ hc hlt)
    · rintro _ s' ⟨h', ⟨e, rfl, hfaulty⟩ | ⟨val, state, rfl, hlink⟩⟩
      · -- the error is lost, and `flags` takes its place
        refine Yields.ite (fun hzero ↦ ?_) fun hzero ↦ ?_
        · refine Yields.pure ⟨h', Or.inr ⟨rfl, ?_, hfaulty⟩⟩
          rcases h.flags with hflags | hflags
          · exact hflags.symm.trans hzero
          · exact absurd hzero hflags.ne'
        · exact Yields.throw (Or.inr ⟨hfaulty, oldFlags, Nat.pos_of_ne_zero hzero, rfl⟩)
      · dsimp only
        by_cases hfree : state = .free
        · rw [if_pos hfree]
          subst hfree
          refine Yields.pure ⟨h', Or.inl ⟨_, rfl, hlink, k + 1, k.succ_pos, hlt', rfl, ?_⟩⟩
          intro j hpos hj
          exact h.used j hpos (Nat.le_of_lt_succ hj)
        · rw [if_neg hfree]
          refine Yields.pure ⟨h', hlt', rfl, ?_, ?_⟩
          · intro j hpos hj
            rcases Nat.lt_or_eq_of_le hj with hj | rfl
            · exact h.used j hpos (Nat.le_of_lt_succ hj)
            · rw [hlink]
              cases state with
              | free => exact absurd rfl hfree
              | used | last | bad => rintro ⟨⟩
          · refine Or.inr ?_
            cases state <;> exact Nat.succ_pos _

/-- The scan ends, and it finds a free cluster if there is one besides the one allocated last. -/
theorem scanFree_spec (hg : g.WellFormed) (hv : v.Usable g) (h : s.Shows v) (flags : Nat) :
    Yields (scanFree g flags) s
      (fun found s' ↦ s'.Shows v ∧ ((∃ c, found = some c ∧ v.NextFree g c) ∨
        found = none ∧ flags = 0 ∧ v.Faulty))
      (fun e s' ↦ (e = .code FAT_ERR_FULL ∧ s'.Shows v ∧ v.Full g) ∨
        (v.Faulty ∧ ∃ n : Nat, 0 < n ∧ e = .code n)) := by
  have hclusters := hg.clusters
  have hstart : Scanning g v flags 0 (s.lastUsed, flags) s := by
    refine ⟨h, by omega, ?_, fun j hpos hj ↦ absurd hj (Nat.not_le_of_lt hpos), Or.inl rfl⟩
    rw [Geometry.ahead_zero hv.lastUsed.1 hv.lastUsed.2]
    exact congrArg Books.lastUsed h.books
  refine Yields.get_bind (Yields.iterate_of_variant
    (I := fun n b s ↦ ∃ k, n + k = g.clustCnt - 2 ∧ Scanning g v flags k b s)
    (k := g.clustCnt - 2) ?_ ⟨0, rfl, hstart⟩ (by omega))
  rintro n b s ⟨k, hn, hscan⟩
  refine (hscan.round hg hv).mono (fun r s' hr ↦ ?_) fun _ _ hE ↦ hE
  cases r with
  | inl found => exact hr
  | inr b' =>
      have hlt := hr.lt
      exact ⟨n - 1, by omega, k + 1, by omega, hr⟩

/-! ## stretch_chain -/

/-- The choice of `stretch_chain`. -/
def Volume.Chosen (g : Geometry) (v : Volume) (prev c : Nat) : Prop :=
  (prev ≠ 0 ∧ c = g.nextClust prev ∧ v.link g c = .free) ∨
    ((prev = 0 ∨ v.link g (g.nextClust prev) ≠ .free) ∧ v.NextFree g c)

/-- The volume after a cluster has been put at the end of a chain, or has become one. -/
def Volume.linked (g : Geometry) (v : Volume) (prev c : Nat) : Volume :=
  { v with
    sectors :=
      if prev ≠ 0 then g.putEntry prev c (g.putEntry c 0x0fffffff v.sectors)
      else g.putEntry c 0x0fffffff v.sectors
    lastUsed := c
    freeCnt := (v.freeCnt + 2 ^ 32 - 1) % 2 ^ 32 }

/-- No cluster can be had. -/
def Volume.Exhausted (g : Geometry) (v : Volume) (prev : Nat) : Prop :=
  v.Full g ∧ (prev ≠ 0 → v.link g (g.nextClust prev) ≠ .free)

theorem Volume.Chosen.free (h : v.Chosen g prev c) : v.link g c = .free := by
  rcases h with ⟨-, -, hfree⟩ | ⟨-, hnext⟩
  · exact hfree
  · exact hnext.free

theorem Volume.Chosen.range (h : v.Chosen g prev c) : 2 ≤ c ∧ c < g.clustCnt :=
  Geometry.range_of_link (v := v.sectors) (by
    rw [show g.link v.sectors c = .free from h.free]
    exact nofun)

theorem chooseFree_spec (hg : g.WellFormed) (hv : v.Usable g) (h : s.Shows v)
    (hprev : prev = 0 ∨ (2 ≤ prev ∧ prev < g.clustCnt)) :
    Yields (chooseFree g prev) s
      (fun found s' ↦ s'.Shows v ∧ ((∃ c, found = some c ∧ v.Chosen g prev c) ∨
        found = none ∧ v.Faulty))
      (fun e s' ↦ (e = .code FAT_ERR_FULL ∧ s'.Shows v ∧ v.Exhausted g prev) ∨
        (v.Faulty ∧ e ≠ .fuel)) := by
  refine Yields.ite (fun hne ↦ ?_) fun hzero ↦ ?_
  · obtain ⟨hc, hlt⟩ := hprev.resolve_left hne
    obtain ⟨hc', hlt'⟩ := hg.nextClust_range hc hlt
    refine ((getFat_spec hg h hlt').mono (fun _ _ h ↦ h) ?_).bind ?_
    · rintro e s' (hio | ⟨-, hnone, -⟩)
      · refine Or.inr ⟨hio.2.1, ?_⟩
        rw [hio.1]
        rintro ⟨⟩
      · exact absurd hnone (hv.readable _ hc' hlt')
    · rintro ⟨val, state⟩ s₁ ⟨h₁, hval, hstate⟩
      have hlink : v.link g (g.nextClust prev) = state.link val := by
        dsimp only at hval hstate
        rw [Volume.link, Geometry.link_of_range hc' hlt', ← hval]
        exact Geometry.meaning_of_classify hstate
      refine Yields.ite (fun hfree ↦ ?_) fun hused ↦ ?_
      · subst hfree
        exact Yields.pure ⟨h₁, Or.inl ⟨_, rfl, Or.inl ⟨hne, rfl, hlink⟩⟩⟩
      · have hbusy : v.link g (g.nextClust prev) ≠ .free := by
          rw [hlink]
          cases state with
          | free => exact absurd rfl hused
          | used | last | bad => rintro ⟨⟩
        refine (scanFree_spec hg hv h₁ _).mono ?_ ?_
        · rintro found s₂ ⟨h₂, ⟨c, hfound, hnext⟩ | ⟨hfound, -, hfaulty⟩⟩
          · exact ⟨h₂, Or.inl ⟨c, hfound, Or.inr ⟨Or.inr hbusy, hnext⟩⟩⟩
          · exact ⟨h₂, Or.inr ⟨hfound, hfaulty⟩⟩
        · rintro e s₂ (⟨he, h₂, hfull⟩ | ⟨hfaulty, n, -, he⟩)
          · exact Or.inl ⟨he, h₂, hfull, fun _ ↦ hbusy⟩
          · refine Or.inr ⟨hfaulty, ?_⟩
            rw [he]
            rintro ⟨⟩
  · have hzero := not_not.mp hzero
    refine Yields.get_bind ((scanFree_spec hg hv h _).mono ?_ ?_)
    · rintro found s₂ ⟨h₂, ⟨c, hfound, hnext⟩ | ⟨hfound, -, hfaulty⟩⟩
      · exact ⟨h₂, Or.inl ⟨c, hfound, Or.inr ⟨Or.inl hzero, hnext⟩⟩⟩
      · exact ⟨h₂, Or.inr ⟨hfound, hfaulty⟩⟩
    · rintro e s₂ (⟨he, h₂, hfull⟩ | ⟨hfaulty, n, -, he⟩)
      · exact Or.inl ⟨he, h₂, hfull, fun hne ↦ absurd hzero hne⟩
      · refine Or.inr ⟨hfaulty, ?_⟩
        rw [he]
        rintro ⟨⟩

theorem linkClust_spec (hg : g.WellFormed) (h : s.Shows v) (hlt : c < g.clustCnt)
    (hprev : prev < g.clustCnt) :
    Yields (linkClust g prev c) s
      (fun _ s' ↦ s'.Shows ((v.linked g prev c).synced g) ∧ s'.bufDirty = false)
      (fun e _ ↦ CardError v e) := by
  refine (putFat_spec hg h hlt).bind fun _ s₁ h₁ ↦ ?_
  refine Yields.bind (Q := fun _ s' ↦ s'.Shows (if prev ≠ 0 then
      (v.putEntry g c 0x0fffffff).putEntry g prev c else v.putEntry g c 0x0fffffff))
    (Yields.when (fun hne ↦ ?_) fun hzero ↦ ?_) ?_
  · rw [if_pos hne]
    exact putFat_spec hg h₁ hprev
  · rw [if_neg hzero]
    exact h₁
  · intro _ s₂ h₂
    have hlinked : (if prev ≠ 0 then (v.putEntry g c 0x0fffffff).putEntry g prev c
        else v.putEntry g c 0x0fffffff) = { v with sectors := (v.linked g prev c).sectors } := by
      unfold Volume.linked Volume.putEntry
      by_cases hne : prev ≠ 0
      · rw [if_pos hne, if_pos hne]
      · rw [if_neg hne, if_neg hne]
    rw [hlinked] at h₂
    refine Yields.bind (modifyBooks_spec (fun b ↦ { b with
      lastUsed := c, freeCnt := (b.freeCnt + 2 ^ 32 - 1) % 2 ^ 32 }) h₂) ?_
    intro _ s₃ h₃
    refine (syncFs_spec h₃ hg.info.ne').mono (fun _ _ h ↦ h) ?_
    rintro e s₄ (hE | hE)
    · exact ⟨hE.1, hE.2.1⟩
    · exact ⟨hE.1, hE.2.1⟩

/-- `stretch_chain` ends; with a card that works it allocates the cluster of its choice, and it fails
only if no cluster can be had, without a change of the table. -/
theorem stretchChain_spec (hg : g.WellFormed) (hv : v.Usable g) (h : s.Shows v)
    (hprev : prev = 0 ∨ (2 ≤ prev ∧ prev < g.clustCnt)) :
    Yields (stretchChain g prev) s
      (fun c s' ↦ (v.Chosen g prev c ∧ s'.Shows ((v.marked.linked g prev c).synced g) ∧
        s'.bufDirty = false) ∨ v.Faulty)
      (fun e s' ↦ (e = .code FAT_ERR_FULL ∧ s'.Shows v.marked ∧ v.Exhausted g prev) ∨
        (v.Faulty ∧ e ≠ .fuel)) := by
  have hlt : prev < g.clustCnt := by
    have hclusters := hg.clusters
    rcases hprev with rfl | hprev
    · omega
    · exact hprev.2
  refine (markInfo_spec h).bind fun _ s₁ h₁ ↦ ?_
  have hmarked : v.marked.Usable g := ⟨hv.lastUsed, hv.readable⟩
  refine (chooseFree_spec hg hmarked h₁ hprev).bind ?_
  rintro _ s₂ ⟨h₂, ⟨c, rfl, hchosen⟩ | ⟨rfl, hfaulty⟩⟩
  · have hchosen : v.Chosen g prev c := by
      rcases hchosen with hchosen | ⟨hprev, hfree, hfirst⟩
      · exact Or.inl hchosen
      · exact Or.inr ⟨hprev, hfree, hfirst⟩
    refine ((linkClust_spec hg h₂ hchosen.range.2 hlt).mono (fun _ _ h ↦ h) ?_).bind ?_
    · rintro e s₃ ⟨he, hfaulty⟩
      refine Or.inr ⟨hfaulty, ?_⟩
      rw [he]
      exact nofun
    · rintro _ s₃ ⟨h₃, hclean⟩
      exact Yields.pure (Or.inl ⟨hchosen, h₃, hclean⟩)
  · exact Yields.get_bind (Yields.pure (Or.inr hfaulty))

/-- A cluster that can be chosen is one that can be had. -/
theorem Volume.Chosen.not_exhausted (hv : v.Usable g) (h : v.Chosen g prev c) :
    ¬ v.Exhausted g prev := by
  rintro ⟨hfull, hnext⟩
  rcases h with ⟨hne, rfl, hfree⟩ | ⟨-, hfree, k, hk, hlt, rfl, -⟩
  · exact hnext hne hfree
  · refine hfull _ (fun hback ↦ ?_) hfree
    have hdvd := (Geometry.ahead_eq_iff hv.lastUsed.1 hv.lastUsed.2).mp hback
    have hle := Nat.le_of_dvd hk hdvd
    omega

/-- On a card that works, `stretch_chain` succeeds exactly if a cluster can be had; the cluster that was
allocated last is not one of them, even if it is free again. -/
theorem stretchChain_succeeds_iff (hg : g.WellFormed) (hv : v.Usable g) (h : s.Shows v)
    (hcard : ¬ v.Faulty) (hprev : prev = 0 ∨ (2 ≤ prev ∧ prev < g.clustCnt)) :
    ((∃ c s', stretchChain g prev s = .ok c s') ↔ ¬ v.Exhausted g prev) ∧
      ∀ c s', stretchChain g prev s = .ok c s' → v.Chosen g prev c ∧
        s'.Shows ((v.marked.linked g prev c).synced g) ∧ s'.bufDirty = false := by
  have hspec := stretchChain_spec hg hv h hprev
  have hdone : ∀ c s', stretchChain g prev s = .ok c s' → v.Chosen g prev c ∧
      s'.Shows ((v.marked.linked g prev c).synced g) ∧ s'.bufDirty = false := by
    intro c s' hcall
    exact (hspec.ok hcall).resolve_right hcard
  refine ⟨⟨?_, ?_⟩, hdone⟩
  · rintro ⟨c, s', hcall⟩
    exact (hdone c s' hcall).1.not_exhausted hv
  · intro hroom
    cases hcall : stretchChain g prev s with
    | ok c s' => exact ⟨c, s', rfl⟩
    | error e s' =>
        rcases hspec.error hcall with ⟨-, -, hfull⟩ | ⟨hfaulty, -⟩
        · exact absurd hfull hroom
        · exact absurd hfaulty hcard

theorem blank_usable : (Fat.mounted .blank 2 126).volume.Usable .small where
  lastUsed := ⟨Nat.le_refl 2, by decide⟩
  readable := small_wellFormed.readable_of_empty (blank_empty 2 126)

theorem blank_not_exhausted : ¬ (Fat.mounted .blank 2 126).volume.Exhausted .small prev := by
  rintro ⟨hfull, -⟩
  refine hfull 3 (by decide) ?_
  exact congrFun (small_wellFormed.link_of_empty (blank_empty 2 126)) 3

/-- The first chain of an empty volume. -/
theorem stretchChain_blank :
    ∃ c s', stretchChain .small 0 (Fat.mounted .blank 2 126) = .ok c s' ∧
      (Fat.mounted .blank 2 126).volume.Chosen .small 0 c ∧ s'.bufDirty = false := by
  obtain ⟨hiff, hdone⟩ := stretchChain_succeeds_iff small_wellFormed blank_usable
    (Fat.mounted_shows .blank 2 126) (blank_not_faulty 2 126) (Or.inl rfl)
  obtain ⟨c, s', hcall⟩ := hiff.mpr blank_not_exhausted
  obtain ⟨hchosen, -, hclean⟩ := hdone c s' hcall
  exact ⟨c, s', hcall, hchosen, hclean⟩

end

end DemosOS.Fat32
