import DemosOS.Fat.Volume
import DemosOS.Lib.WriteBack

/-!
# The sector in memory

`buf` is a write-back cache of one sector, and `sect` says which one; `0` says none, since the
library never asks for sector `0` after the mount.  What the library works on is therefore not what
the card holds but the `Volume`: the sectors with the one in memory over them, and the counters.

Every function at the bottom of `fat.c` is described by what it does to the volume, also where an
operation of the card fails.  A failure changes nothing in the volume and never loses a change that
has been made before.
-/

namespace DemosOS.Fat32

open Lib

/-! ## What the library works on -/

/-- The cache. -/
def Fat.cache (s : Fat) : WriteBack Nat Sector where
  store := s.device.sectors
  key := if s.sect = 0 then none else some s.sect
  block := s.buf
  dirty := s.bufDirty

/-- The sectors as the library sees them, its books, and which operations of the card will fail. -/
structure Volume extends Books where
  sectors : Nat → Sector
  fails : Nat → Bool

def Fat.volume (s : Fat) : Volume :=
  { s.toBooks with sectors := s.cache.view, fails := s.device.fails }

/-- Some operation of the card fails. -/
def Volume.Faulty (v : Volume) : Prop := ∃ n, v.fails n = true

/-- A sector gets new contents. -/
def Volume.write (v : Volume) (sect : Nat) (f : Sector → Sector) : Volume :=
  { v with sectors := Function.update v.sectors sect (f (v.sectors sect)) }

/-- The state shows a volume. -/
structure Fat.Shows (s : Fat) (v : Volume) : Prop where
  coherent : s.cache.Coherent
  volume : s.volume = v

/-- The sector in memory is this one. -/
structure Fat.Loaded (s : Fat) (n : Nat) : Prop where
  sect_eq : s.sect = n
  pos : n ≠ 0

/-- An operation of the card has failed, and the volume is still this one. -/
def IoError (v : Volume) (e : Failure) (s : Fat) : Prop :=
  e = .code FAT_ERR_IO ∧ v.Faulty ∧ s.Shows v

section

variable {s : Fat} {v : Volume} {sect : Nat} {f : Sector → Sector}

theorem Fat.Loaded.key (h : s.Loaded sect) : s.cache.key = some sect := by
  change (if s.sect = 0 then none else some s.sect) = _
  rw [h.sect_eq, if_neg h.pos]

theorem Fat.key_of_ne (h : s.sect ≠ sect) : s.cache.key ≠ some sect := by
  change (if s.sect = 0 then none else some s.sect) ≠ _
  by_cases hzero : s.sect = 0
  · rw [if_pos hzero]
    exact nofun
  · rw [if_neg hzero]
    exact fun heq ↦ h (Option.some.inj heq)

/-- The loaded sector is the one that is seen. -/
theorem Fat.Loaded.buf (h : s.Loaded sect) : s.buf = s.volume.sectors sect :=
  (WriteBack.view_self h.key).symm

theorem Fat.Shows.sectors (h : s.Shows v) : s.cache.view = v.sectors :=
  congrArg Volume.sectors h.volume

theorem Fat.Shows.books (h : s.Shows v) : s.toBooks = v.toBooks :=
  congrArg Volume.toBooks h.volume

theorem Fat.Shows.fails (h : s.Shows v) : s.device.fails = v.fails :=
  congrArg Volume.fails h.volume

theorem Fat.Shows.self (h : s.Shows v) : s.Shows s.volume := ⟨h.coherent, rfl⟩

/-- A state with the same cache but for what the card has lost, and the same books. -/
theorem Fat.Shows.of_cache {s' : Fat} (h : s.Shows v) (hcoherent : s'.cache.Coherent)
    (hview : s'.cache.view = s.cache.view) (hbooks : s'.toBooks = s.toBooks)
    (hfails : s'.device.fails = s.device.fails) : s'.Shows v where
  coherent := hcoherent
  volume := by
    refine Eq.trans ?_ h.volume
    rw [Fat.volume, Fat.volume, hview, hbooks, hfails]

/-- Nothing waits to be written: the card holds what the library sees. -/
theorem Fat.Shows.on_card (h : s.Shows v) (hclean : s.bufDirty = false) :
    s.device.sectors = v.sectors :=
  (WriteBack.view_of_clean h.coherent hclean).symm.trans h.sectors

/-- A volume that has just been mounted. -/
theorem Fat.mounted_shows (d : Device) (lastUsed freeCnt : Nat) :
    (Fat.mounted d lastUsed freeCnt).Shows (Fat.mounted d lastUsed freeCnt).volume where
  coherent := ⟨nofun, nofun⟩
  volume := rfl

/-! ## Operations of the card -/

/-- The card after an operation that has changed none of its sectors. -/
def Device.tick (d : Device) : Device := { d with count := d.count + 1 }

/-- The card after an attempt to write a sector. -/
def Device.written (d : Device) (sect : Nat) (block : Sector) : Device :=
  { d with count := d.count + 1, sectors := Function.update d.sectors sect block }

theorem opsRead_of_fails (h : s.device.fails s.device.count = true) :
    opsRead sect s = .ok none { s with device := s.device.tick } := by
  refine Eq.trans (b := .ok (if s.device.fails s.device.count then none else _) _) rfl ?_
  rw [if_pos h]
  rfl

theorem opsRead_of_not_fails (h : s.device.fails s.device.count = false) :
    opsRead sect s = .ok (some (s.device.sectors sect)) { s with device := s.device.tick } := by
  refine Eq.trans (b := .ok (if s.device.fails s.device.count then none else _) _) rfl ?_
  rw [h]
  rfl

theorem opsWrite_of_fails {b : Sector} (h : s.device.fails s.device.count = true) :
    opsWrite b sect s =
      .ok false { s with device := s.device.written sect (s.device.torn s.device.count) } := by
  simp only [opsWrite, bind, EStateM.bind, get, getThe, MonadStateOf.get, EStateM.get, modify,
    modifyGet, MonadStateOf.modifyGet, EStateM.modifyGet, pure, EStateM.pure, h]
  rfl

theorem opsWrite_of_not_fails {b : Sector} (h : s.device.fails s.device.count = false) :
    opsWrite b sect s = .ok true { s with device := s.device.written sect b } := by
  simp only [opsWrite, bind, EStateM.bind, get, getThe, MonadStateOf.get, EStateM.get, modify,
    modifyGet, MonadStateOf.modifyGet, EStateM.modifyGet, pure, EStateM.pure, h]
  rfl

/-! ## Reading and writing back -/

theorem syncBuf_spec (h : s.Shows v) :
    Yields syncBuf s
      (fun _ s' ↦ s'.Shows v ∧ s'.bufDirty = false ∧ s'.sect = s.sect ∧ s'.buf = s.buf)
      (IoError v) := by
  refine Yields.get_bind (Yields.ite (fun hdirty ↦ ?_) fun hdirty ↦ ?_)
  · have hsect : s.sect ≠ 0 := fun hzero ↦ h.coherent.loaded hdirty (if_pos hzero)
    have hkey : s.cache.key = some s.sect := if_neg hsect
    cases hfail : s.device.fails s.device.count with
    | true =>
        -- the sector is lost on the card, but not in memory
        have htear := WriteBack.coherent_tear h.coherent hdirty (s.device.torn s.device.count)
        have hview := WriteBack.view_tear s.cache (s.device.torn s.device.count)
        rw [WriteBack.tear_of_key hkey] at htear hview
        refine Yields.bind_ok (opsWrite_of_fails hfail) (Yields.throw ⟨rfl, ⟨s.device.count, ?_⟩, ?_⟩)
        · rw [← h.fails]
          exact hfail
        · exact h.of_cache htear hview rfl rfl
    | false =>
        have hflush := WriteBack.coherent_flush s.cache
        have hview := WriteBack.view_flush s.cache
        rw [WriteBack.flush_of_key hkey] at hflush hview
        refine Yields.bind_ok (opsWrite_of_not_fails hfail) (Yields.modify ?_)
        exact ⟨h.of_cache hflush hview rfl rfl, rfl, rfl, rfl⟩
  · rw [Bool.not_eq_true] at hdirty
    exact Yields.pure ⟨h, hdirty, rfl, rfl⟩

/-- After `update_buf` the sector in memory is the one that was asked for. -/
theorem updateBuf_spec (h : s.Shows v) (hsect : sect ≠ 0) :
    Yields (updateBuf sect) s (fun _ s' ↦ s'.Shows v ∧ s'.Loaded sect) (IoError v) := by
  refine Yields.get_bind (Yields.ite (fun _ ↦ ?_) fun heq ↦ ?_)
  · refine (syncBuf_spec h).bind fun _ s₁ ⟨h₁, hclean, _⟩ ↦ ?_
    cases hfail : s₁.device.fails s₁.device.count with
    | true =>
        refine Yields.bind_ok (opsRead_of_fails hfail) (Yields.throw ⟨rfl, ⟨s₁.device.count, ?_⟩, ?_⟩)
        · rw [← h₁.fails]
          exact hfail
        · exact h₁.of_cache h₁.coherent rfl rfl rfl
    | false =>
        have hload : (s₁.cache.load sect).Coherent := WriteBack.coherent_load ..
        have hview := WriteBack.view_load h₁.coherent hclean sect
        have hcache : s₁.cache.load sect = Fat.cache { s₁ with
            device := s₁.device.tick, buf := s₁.device.sectors sect, sect := sect } := by
          ext1
          · rfl
          · exact (if_neg hsect).symm
          · rfl
          · exact hclean.symm
        rw [hcache] at hload hview
        refine Yields.bind_ok (opsRead_of_not_fails hfail) (Yields.modify ⟨?_, rfl, hsect⟩)
        exact h₁.of_cache hload hview rfl rfl
  · exact Yields.pure ⟨h, not_not.mp heq, hsect⟩

/-- A change of the sector in memory is a change of that sector of the volume. -/
theorem editBuf_spec {E : Failure → Fat → Prop} (h : s.Shows v) (hload : s.Loaded sect) :
    Yields (editBuf f) s (fun _ s' ↦ s'.Shows (v.write sect f) ∧ s'.Loaded sect) E := by
  have hedit := WriteBack.coherent_edit hload.key f
  have hview := WriteBack.view_edit hload.key f
  refine Yields.modify ⟨⟨hedit, ?_⟩, hload.sect_eq, hload.pos⟩
  rw [← h.volume]
  change Volume.mk s.toBooks (s.cache.edit f).view s.device.fails = _
  rw [hview]
  rfl

/-- The record with the counters, brought up to date. -/
def Volume.storeInfo (g : Geometry) (v : Volume) : Volume :=
  v.write g.infoSect (Fat32.storeInfo v.lastUsed v.freeCnt)

/-- The volume after `sync_fs`. -/
def Volume.synced (g : Geometry) (v : Volume) : Volume :=
  if v.infoDirty then { v.storeInfo g with infoDirty := false } else v

/-- A state with other books. -/
theorem Fat.Shows.setBooks (h : s.Shows v) (b : Books) :
    Fat.Shows { s with toBooks := b } { v with toBooks := b } where
  coherent := h.coherent
  volume := by
    rw [← h.volume]
    rfl

/-- A change of the books. -/
theorem modifyBooks_spec {E : Failure → Fat → Prop} (f : Books → Books) (h : s.Shows v) :
    Yields (modify fun s ↦ { s with toBooks := f s.toBooks } : FatM PUnit) s
      (fun _ s' ↦ s'.Shows { v with toBooks := f v.toBooks }) E := by
  refine Yields.modify ?_
  rw [h.books]
  exact h.setBooks _

theorem syncFs_spec {g : Geometry} (h : s.Shows v) (hinfo : g.infoSect ≠ 0) :
    Yields (syncFs g) s (fun _ s' ↦ s'.Shows (v.synced g) ∧ s'.bufDirty = false)
      (fun e s' ↦ IoError v e s' ∨ IoError (v.storeInfo g) e s') := by
  refine ((syncBuf_spec h).mono (fun _ _ h ↦ h) fun _ _ ↦ Or.inl).bind ?_
  rintro _ s₁ ⟨h₁, hclean, -⟩
  have hdirty : s₁.infoDirty = v.infoDirty := congrArg Books.infoDirty h₁.books
  refine Yields.get_bind (Yields.ite (fun hinfoDirty ↦ ?_) fun hinfoDirty ↦ ?_)
  · rw [hdirty] at hinfoDirty
    refine ((updateBuf_spec h₁ hinfo).mono (fun _ _ h ↦ h) fun _ _ ↦ Or.inl).bind ?_
    rintro _ s₂ ⟨h₂, hload⟩
    have hstore : Fat32.storeInfo s₂.lastUsed s₂.freeCnt = Fat32.storeInfo v.lastUsed v.freeCnt := by
      have hbooks := h₂.books
      rw [show s₂.lastUsed = v.lastUsed from congrArg Books.lastUsed hbooks,
        show s₂.freeCnt = v.freeCnt from congrArg Books.freeCnt hbooks]
    refine Yields.get_bind ?_
    rw [hstore]
    refine (editBuf_spec h₂ hload).bind ?_
    rintro _ s₃ ⟨h₃, -⟩
    refine ((syncBuf_spec h₃).mono (fun _ _ h ↦ h) fun _ _ ↦ Or.inr).bind ?_
    rintro _ s₄ ⟨h₄, hclean₄, -⟩
    rw [Volume.synced, if_pos hinfoDirty]
    exact Yields.modify ⟨modifyBooks_spec (E := fun _ _ ↦ False)
      (fun b ↦ { b with infoDirty := false }) h₄, hclean₄⟩
  · rw [hdirty, Bool.not_eq_true] at hinfoDirty
    refine Yields.pure ⟨?_, hclean⟩
    rw [Volume.synced, hinfoDirty]
    exact h₁

/-! ## Runs

A client of the buffer asks for a sector and changes it, or has what is in memory written back.
It may go on after an error. -/

/-- A call of the buffer: `update_buf` and a change of the sector, `sync_buf`, or `sync_fs`. -/
inductive BufferCall
  | change (sect : Nat) (f : Sector → Sector)
  | sync
  | syncFs

def BufferCall.perform (g : Geometry) : BufferCall → FatM PUnit
  | .change sect f => do
      updateBuf sect
      editBuf f
  | .sync => syncBuf
  | .syncFs => Fat32.syncFs g

/-- The calls one after the other, with what each of them returned. -/
def performAll (g : Geometry) : List BufferCall → FatM (List (Except Failure Unit))
  | [] => return []
  | c :: cs => do
      let r ← attempt (c.perform g)
      let rs ← performAll g cs
      return r :: rs

/-- What a call that has returned `r` may have made of the volume. -/
def BufferCall.Allows (g : Geometry) : BufferCall → Except Failure Unit → Volume → Volume → Prop
  | .change sect f, .ok _, v, v' => v' = v.write sect f
  | .change _ _, .error e, v, v' => e = .code FAT_ERR_IO ∧ v' = v
  | .sync, .ok _, v, v' => v' = v
  | .sync, .error e, v, v' => e = .code FAT_ERR_IO ∧ v' = v
  | .syncFs, .ok _, v, v' => v' = v.synced g
  | .syncFs, .error e, v, v' => e = .code FAT_ERR_IO ∧ (v' = v ∨ v' = v.storeInfo g)

/-- What calls that have returned `rs` may have made of the volume. -/
inductive Allowed (g : Geometry) :
    List BufferCall → List (Except Failure Unit) → Volume → Volume → Prop
  | nil (v : Volume) : Allowed g [] [] v v
  | cons {c : BufferCall} {cs : List BufferCall} {r : Except Failure Unit}
      {rs : List (Except Failure Unit)} {v v₁ v' : Volume} (h : c.Allows g r v v₁)
      (hrest : Allowed g cs rs v₁ v') : Allowed g (c :: cs) (r :: rs) v v'

/-- The call writes back what is in memory. -/
def BufferCall.Syncs : BufferCall → Prop
  | .change _ _ => False
  | .sync => True
  | .syncFs => True

/-- One call. -/
theorem BufferCall.perform_spec {g : Geometry} (h : s.Shows v) (hinfo : g.infoSect ≠ 0)
    {c : BufferCall} (hc : ∀ sect f, c = .change sect f → sect ≠ 0) :
    Yields (attempt (c.perform g)) s
      (fun r s' ↦ ∃ v', c.Allows g r v v' ∧ s'.Shows v' ∧
        (c.Syncs → r = .ok ⟨⟩ → s'.device.sectors = v'.sectors))
      fun _ _ ↦ False := by
  apply Yields.attempt
  cases c with
  | change sect f =>
      refine ((updateBuf_spec h (hc sect f rfl)).mono (fun _ _ h ↦ h) ?_).bind ?_
      · rintro e s₁ ⟨he, -, h₁⟩
        exact ⟨v, ⟨he, rfl⟩, h₁, nofun⟩
      · rintro _ s₁ ⟨h₁, hload⟩
        refine (editBuf_spec h₁ hload).mono ?_ fun _ _ hE ↦ hE
        rintro _ s₂ ⟨h₂, -⟩
        exact ⟨_, rfl, h₂, False.elim⟩
  | sync =>
      refine (syncBuf_spec h).mono ?_ ?_
      · rintro _ s₁ ⟨h₁, hclean, -⟩
        exact ⟨v, rfl, h₁, fun _ _ ↦ h₁.on_card hclean⟩
      · rintro e s₁ ⟨he, -, h₁⟩
        exact ⟨v, ⟨he, rfl⟩, h₁, nofun⟩
  | syncFs =>
      refine (syncFs_spec h hinfo).mono ?_ ?_
      · rintro _ s₁ ⟨h₁, hclean⟩
        exact ⟨_, rfl, h₁, fun _ _ ↦ h₁.on_card hclean⟩
      · rintro e s₁ (⟨he, -, h₁⟩ | ⟨he, -, h₁⟩)
        · exact ⟨v, ⟨he, Or.inl rfl⟩, h₁, nofun⟩
        · exact ⟨_, ⟨he, Or.inr rfl⟩, h₁, nofun⟩

/-- The buffer cannot be seen: whatever operations of the card fail, after any calls the library
sees what the calls that returned `0` have written, and after a successful `sync_buf` or `sync_fs`
the card holds all of it. -/
theorem buffer_transparent {g : Geometry} (calls : List BufferCall) (h : s.Shows v)
    (hinfo : g.infoSect ≠ 0) (hcalls : ∀ sect f, .change sect f ∈ calls → sect ≠ 0) :
    Yields (performAll g calls) s
      (fun rs s' ↦ ∃ v', Allowed g calls rs v v' ∧ s'.Shows v' ∧
        ∀ c, calls.getLast? = some c → c.Syncs → rs.getLast? = some (.ok ⟨⟩) →
          s'.device.sectors = v'.sectors)
      fun _ _ ↦ False := by
  induction calls generalizing s v with
  | nil => exact Yields.pure ⟨v, .nil v, h, nofun⟩
  | cons c calls ih =>
      have hc : ∀ sect f, c = .change sect f → sect ≠ 0 := by
        rintro sect f rfl
        exact hcalls sect f List.mem_cons_self
      refine (BufferCall.perform_spec h hinfo hc).bind ?_
      rintro r s₁ ⟨v₁, hallows, h₁, hcard⟩
      cases calls with
      | nil =>
          refine Yields.bind_ok rfl (Yields.pure ⟨v₁, .cons hallows (.nil v₁), h₁, ?_⟩)
          intro c' hlast hsyncs hok
          obtain rfl : c = c' := Option.some.inj hlast
          exact hcard hsyncs (Option.some.inj hok)
      | cons d calls =>
          refine (ih h₁ fun sect f hmem ↦ hcalls sect f (List.mem_cons_of_mem _ hmem)).bind ?_
          rintro rs s' ⟨v', hrest, h', hcard'⟩
          refine Yields.pure ⟨v', .cons hallows hrest, h', ?_⟩
          intro c' hlast hsyncs hok
          cases hrest with
          | cons hallows' hrest' =>
              rw [List.getLast?_cons_cons] at hlast hok
              exact hcard' c' hlast hsyncs hok

/-- A sector is changed, the first attempt to write it back fails, and the second one succeeds. -/
theorem buffer_transparent_retried :
    ∃ (s' : Fat) (v' : Volume), Allowed .small [.change 7 fun _ ↦ Sector.zero.setField 0 1 9, .sync, .sync]
        [.ok ⟨⟩, .error (.code FAT_ERR_IO), .ok ⟨⟩]
        (Fat.mounted { Device.blank with fails := fun n ↦ n == 1 } 2 126).volume v' ∧
      s'.Shows v' ∧ s'.device.sectors = v'.sectors := by
  obtain ⟨rs, s', hrun, v', hallowed, hshows, hcard⟩ := Yields.exists_ok
    (buffer_transparent (g := .small) [.change 7 fun _ ↦ Sector.zero.setField 0 1 9, .sync, .sync]
      (Fat.mounted_shows { Device.blank with fails := fun n ↦ n == 1 } 2 126) (by decide)
      (by simp))
  have hrs : rs = [.ok ⟨⟩, .error (.code FAT_ERR_IO), .ok ⟨⟩] := by
    injection hrun with hrs _
    exact hrs.symm
  subst hrs
  exact ⟨s', v', hallowed, hshows, hcard .sync rfl trivial rfl⟩

end

end DemosOS.Fat32
