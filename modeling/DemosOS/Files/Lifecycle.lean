import DemosOS.Files.Descriptors

/-!
# The life cycle of descriptors

What a process may expect of a sequence of opens and closes to which the FAT library agrees: an
open returns a descriptor that is not open, and finds one if fewer than
`MAX_FILES_PER_PROCESS` are; a close makes its descriptor available again and gives back the
pages that the open took.

The opens keep their side.  The close does not: it puts a new record where `NULL` would say
that the slot is free.
-/

namespace DemosOS

/-! ## Sequences of calls -/

/-- The event is one of a sequence in which everything goes well: the library agrees, and only
open descriptors are closed. -/
def SessionEvent.Succeeds (s : Session) : SessionEvent → Prop
  | call c error => error = 0 ∧ ∀ fd, c = .closeFile fd → s.IsOpen fd
  | elsewhere => True

namespace Session

/-- A sequence of events in which everything goes well. -/
def Run (p : PcbPtr) : List SessionEvent → Session → Session → Prop
  | [], s, s' => s' = s
  | e :: es, s, s' => e.Succeeds s ∧ ∃ s₁, Step p s s₁ e ∧ Run p es s₁ s'

/-- The number of open descriptors. -/
def openCount (s : Session) : Nat :=
  ((List.range MAX_FILES_PER_PROCESS).filter fun fd ↦
    s.usage fd = .opened .file ∨ s.usage fd = .opened .folder).length

/-- What an open has to return: a descriptor that is not open, and one at all if not all of
them are. -/
structure OpenReturns (s : Session) (r : FileResult) : Prop where
  fresh : r.value ≠ -1 → 0 ≤ r.value ∧ r.value < MAX_FILES_PER_PROCESS ∧ ¬ s.IsOpen r.value
  found : s.openCount < MAX_FILES_PER_PROCESS → r.value ≠ -1

/-- What a close has to leave: a slot that is free, and the pages of the descriptor free too. -/
structure CloseReturns (p : PcbPtr) (s : Session) (fd : Int) (r : FileResult) : Prop where
  available : (r.kernel.pcb p).files fd.toNat = 0
  resource : ∀ a, s.kernel.Holds p (.resource fd.toNat) a → ¬ r.kernel.memory.InUse a
  file : ∀ a, s.kernel.Holds p (.file fd.toNat) a → ¬ r.kernel.memory.InUse a

/-- The event does its part in the life of a descriptor. -/
def Lifecycle (p : PcbPtr) (s : Session) : SessionEvent → Prop
  | .call (.closeFile fd) error => ∀ r, (Call.closeFile fd).run error s.kernel = .ok r →
      CloseReturns p s fd r
  | .call c error => ∀ r, c.run error s.kernel = .ok r → OpenReturns s r
  | .elsewhere => True

/-- In a sequence of events that leads from `s` onwards, every event does its part. -/
def AllLifecycle (p : PcbPtr) (events : List SessionEvent) (s : Session) : Prop :=
  ∀ before e after s₁, events = before ++ e :: after → Run p before s s₁ → e.Succeeds s₁ →
    s₁.kernel.currentProcess = p → Lifecycle p s₁ e

variable {p : PcbPtr} {s s' : Session}

/-- A sequence of events splits where the list does. -/
theorem run_append {es es' : List SessionEvent} :
    Run p (es ++ es') s s' ↔ ∃ s₁, Run p es s s₁ ∧ Run p es' s₁ s' := by
  induction es generalizing s with
  | nil => simp [Run]
  | cons e es ih =>
      rw [List.cons_append]
      constructor
      · rintro ⟨he, s₁, hstep, hrest⟩
        obtain ⟨s₂, hs₂, hrest⟩ := ih.mp hrest
        exact ⟨s₂, ⟨he, s₁, hstep, hs₂⟩, hrest⟩
      · rintro ⟨s₂, ⟨he, s₁, hstep, hs₂⟩, hrest⟩
        exact ⟨he, s₁, hstep, ih.mpr ⟨s₂, hs₂, hrest⟩⟩

theorem Run.reachable {es : List SessionEvent} (h : Run p es s s') (hs : s.Reachable p) :
    s'.Reachable p := by
  induction es generalizing s with
  | nil =>
      obtain rfl := h
      exact hs
  | cons e es ih =>
      obtain ⟨-, s₁, hstep, hrest⟩ := h
      obtain ⟨s₀, hfresh, hsteps⟩ := hs
      exact ih hrest ⟨s₀, hfresh, hsteps.tail ⟨e, hstep⟩⟩

theorem Fresh.reachable (h : s.Fresh p) : s.Reachable p := ⟨s, h, .refl⟩

/-! ## Opening -/

/-- No descriptor has been closed so far. -/
def NeverClosed (s : Session) : Prop := ∀ fd < MAX_FILES_PER_PROCESS, s.usage fd ≠ .closed

theorem NeverClosed.step (hs : s.NeverClosed) {e : SessionEvent} (h : Step p s s' e)
    (he : ∀ fd error, e ≠ .call (.closeFile fd) error) : s'.NeverClosed := by
  intro fd hfd
  cases e with
  | elsewhere =>
      rw [h.2]
      exact hs fd hfd
  | call c error =>
      obtain ⟨-, r, -, rfl⟩ := h
      have hset : ∀ t, Function.update s.usage r.value.toNat (.opened t) fd ≠ .closed := by
        intro t
        by_cases hv : fd = r.value.toNat
        · rw [hv, Function.update_self]
          nofun
        · rw [Function.update_of_ne hv]
          exact hs fd hfd
      cases c with
      | closeFile fd' => exact absurd rfl (he fd' error)
      | createDir =>
          dsimp only [Call.record]
          split_ifs
          · exact hset _
          · exact hs fd hfd
      | openDir =>
          dsimp only [Call.record]
          split_ifs
          · exact hset _
          · exact hs fd hfd
      | openFile =>
          dsimp only [Call.record]
          split_ifs
          · exact hset _
          · exact hs fd hfd

theorem NeverClosed.run {es : List SessionEvent} (hs : s.NeverClosed) (h : Run p es s s')
    (hes : ∀ fd error, .call (.closeFile fd) error ∉ es) : s'.NeverClosed := by
  induction es generalizing s with
  | nil =>
      obtain rfl := h
      exact hs
  | cons e es ih =>
      obtain ⟨-, s₁, hstep, hrest⟩ := h
      refine ih (hs.step hstep ?_) hrest fun fd error hmem ↦ hes fd error
        (List.mem_cons_of_mem e hmem)
      rintro fd error rfl
      exact hes fd error List.mem_cons_self

/-- As long as nothing has been closed, an open keeps its side. -/
theorem Sound.openReturns (hs : s.Sound p) (hclosed : s.NeverClosed)
    (hcur : s.kernel.currentProcess = p) {t : ResourceType} {call : Nat → FatCall}
    {onError : Int → Int} {r : FileResult}
    (h : s.kernel.openResource t call onError 0 = .ok r) : OpenReturns s r := by
  subst hcur
  obtain ⟨hvalue, -, hfull⟩ | ⟨herror, -⟩ | ⟨-, fd, i, j, hvalue, hopen⟩ := hs.opened_cases h
  · refine ⟨fun hne ↦ absurd hvalue hne, fun hcount ↦ ?_⟩
    -- every slot is occupied, so every descriptor is open
    have hall : s.openCount = MAX_FILES_PER_PROCESS := by
      rw [openCount, List.filter_eq_self.mpr, List.length_range]
      intro fd hfd
      have hfd := List.mem_range.mp hfd
      have hagrees := hs.agrees fd hfd
      cases hu : s.usage fd with
      | unused =>
          rw [hu] at hagrees
          exact absurd hagrees (hfull fd hfd)
      | closed => exact absurd hu (hclosed fd hfd)
      | opened t => cases t <;> simp
    omega
  · exact absurd rfl herror
  · have hlt := hopen.fd_lt
    refine ⟨fun _ ↦ ⟨by omega, by omega, ?_⟩, fun _ ↦ by omega⟩
    rintro ⟨-, -, t', ht'⟩
    rw [hvalue, Int.toNat_natCast] at ht'
    have hagrees := hs.agrees fd hlt
    rw [ht'] at hagrees
    obtain ⟨-, -, j', -, hslot, -⟩ := hagrees
    exact Kernel.address_ne_zero j' (hslot.symm.trans hopen.fd_free)

/-- A successful close does not make its descriptor available. -/
theorem Sound.not_closeReturns (hs : s.Sound p) (hcur : s.kernel.currentProcess = p) {fd : Int}
    (hopen : s.IsOpen fd) :
    ∃ r, s.kernel.syscallCloseFile fd 0 = .ok r ∧ ¬ CloseReturns p s fd r := by
  subst hcur
  obtain ⟨hnonneg, hlt, t, ht⟩ := hopen
  obtain ⟨n, rfl⟩ := Int.eq_ofNat_of_zero_le hnonneg
  rw [Int.toNat_natCast] at ht
  obtain ⟨i, -, ⟨herror, -⟩ | ⟨-, j, k', hclosed, hclose⟩⟩ :=
    hs.closed_cases 0 (by omega) ht
  · exact absurd rfl herror
  · refine ⟨_, hclose, fun hreturns ↦ ?_⟩
    have havailable := hreturns.available
    rw [Int.toNat_natCast] at havailable
    dsimp only at havailable
    rw [hclosed.current] at havailable
    dsimp only at havailable
    rw [Function.update_self] at havailable
    exact Kernel.address_ne_zero j havailable

/-- In a sequence in which everything goes well, everything does its part exactly if the
sequence closes nothing. -/
theorem lifecycle_iff (hfresh : s.Fresh p) {events : List SessionEvent} (hrun : Run p events s s') :
    AllLifecycle p events s ↔ ∀ fd error, .call (.closeFile fd) error ∉ events := by
  constructor
  · intro hall fd error hmem
    obtain ⟨before, after, rfl⟩ := List.append_of_mem hmem
    obtain ⟨s₁, hbefore, hsucceeds, s₂, ⟨hcur, -⟩, -⟩ := run_append.mp hrun
    obtain ⟨herror, hopen⟩ := hsucceeds
    have hsound := (hbefore.reachable hfresh.reachable).sound
    obtain ⟨r, hr, hnot⟩ := hsound.not_closeReturns hcur (hopen fd rfl)
    have hpart := hall before _ after s₁ rfl hbefore ⟨herror, hopen⟩ hcur
    rw [herror] at hpart
    exact hnot (hpart r hr)
  · rintro hnone before e after s₁ rfl hbefore hsucceeds hcur
    have hsound := (hbefore.reachable hfresh.reachable).sound
    have hclosed : s₁.NeverClosed := by
      refine NeverClosed.run ?_ hbefore fun fd error hmem ↦
        hnone fd error (List.mem_append_left _ hmem)
      intro fd hfd
      rw [hfresh.usage fd hfd]
      nofun
    cases e with
    | elsewhere => trivial
    | call c error =>
        obtain rfl : error = 0 := hsucceeds.1
        cases c with
        | closeFile fd => exact absurd (by simp) (hnone fd 0)
        | createDir =>
            intro r hr
            have hr : s₁.kernel.openResource .folder .dirCreate id 0 = .ok r := hr
            exact hsound.openReturns hclosed hcur hr
        | openDir =>
            intro r hr
            have hr : s₁.kernel.openResource .folder .dirOpen (fun _ ↦ -1) 0 = .ok r := hr
            exact hsound.openReturns hclosed hcur hr
        | openFile =>
            intro r hr
            have hr : s₁.kernel.openResource .file .fileOpen (fun _ ↦ -1) 0 = .ok r := hr
            exact hsound.openReturns hclosed hcur hr

/-! ## Sequences on concrete tables -/

instance (s : Session) (fd : Int) : Decidable (s.IsOpen fd) :=
  decidable_of_iff (0 ≤ fd ∧ fd < MAX_FILES_PER_PROCESS ∧
    (s.usage fd.toNat = .opened .file ∨ s.usage fd.toNat = .opened .folder)) <| by
      refine and_congr_right fun _ ↦ and_congr_right fun _ ↦ ⟨?_, ?_⟩
      · rintro (h | h)
        · exact ⟨_, h⟩
        · exact ⟨_, h⟩
      · rintro ⟨t, h⟩
        cases t with
        | file => exact .inl h
        | folder => exact .inr h

/-- The call closes an open descriptor, or none. -/
def closesOpen (s : Session) : Call → Bool
  | .closeFile fd => s.IsOpen fd
  | _ => true

/-- Perform a sequence of calls to which the library agrees. -/
def performAll (p : PcbPtr) : List Call → Session → Option Session
  | [], s => some s
  | c :: cs, s =>
      if s.kernel.currentProcess = p ∧ closesOpen s c = true then
        match c.run 0 s.kernel with
        | .error _ => none
        | .ok r => performAll p cs ⟨r.kernel, c.record 0 r.value s.usage⟩
      else none

theorem run_of_performAll {cs : List Call} (h : performAll p cs s = some s') :
    Run p (cs.map (.call · 0)) s s' := by
  induction cs generalizing s with
  | nil => exact (Option.some.inj h).symm
  | cons c cs ih =>
      rw [performAll] at h
      split_ifs at h with hcheck
      cases hr : c.run 0 s.kernel with
      | error fault => simp [hr] at h
      | ok r =>
          rw [hr] at h
          refine ⟨⟨rfl, ?_⟩, _, ⟨hcheck.1, r, hr, rfl⟩, ih h⟩
          rintro fd rfl
          exact of_decide_eq_true hcheck.2

/-- The session of init after booting. -/
def boot : Session := ⟨Kernel.boot .roundRobin fun _ ↦ 0, fun _ ↦ .unused⟩

theorem boot_fresh : boot.Fresh .initProcess := ⟨fun _ _ ↦ rfl, fun _ _ ↦ rfl, nofun⟩

/-- Two files and a directory are opened. -/
theorem lifecycle_three : ∃ s', Run .initProcess
    ([.openFile, .openDir, .openFile].map (.call · 0)) boot s' ∧
      AllLifecycle .initProcess ([Call.openFile, .openDir, .openFile].map (.call · 0)) boot := by
  have hrun : (performAll .initProcess [.openFile, .openDir, .openFile] boot).isSome = true := by
    decide +kernel
  obtain ⟨s', hs'⟩ := Option.isSome_iff_exists.mp hrun
  have hrun := run_of_performAll hs'
  refine ⟨s', hrun, (lifecycle_iff boot_fresh hrun).mpr ?_⟩
  simp

/-- A file is opened and closed again, once for every descriptor. -/
def rounds : List Call :=
  (List.range MAX_FILES_PER_PROCESS).flatMap fun fd ↦ [.openFile, .closeFile fd]

/-- After that many rounds no descriptor is open, and none can be opened. -/
theorem lifecycle_false : ¬ ∀ p s events s', Fresh p s → Run p events s s' →
    AllLifecycle p events s := by
  intro hall
  have hrun : (performAll .initProcess (rounds ++ [.openFile]) boot).isSome = true := by
    decide +kernel
  have hlast : (performAll .initProcess rounds boot).any (fun s ↦ s.openCount = 0 ∧
      s.kernel.currentProcess = .initProcess ∧
      ((Call.openFile.run 0 s.kernel).toOption.any fun r ↦ r.value = -1) = true) = true := by
    decide +kernel
  obtain ⟨s', hs'⟩ := Option.isSome_iff_exists.mp hrun
  obtain ⟨s₁, hs₁, hlast⟩ := (Option.any_eq_true _ _).mp hlast
  obtain ⟨hcount, hcur, hopen⟩ := of_decide_eq_true hlast
  obtain ⟨r, hr, hvalue⟩ := (Option.any_eq_true _ _).mp hopen
  have hr : Call.openFile.run 0 s₁.kernel = .ok r := by
    cases h : Call.openFile.run 0 s₁.kernel with
    | error fault => simp [h, Except.toOption] at hr
    | ok r' =>
        rw [h] at hr
        rw [Option.some.inj hr]
  have hpart := hall _ _ _ _ boot_fresh (run_of_performAll hs') (rounds.map (.call · 0))
    (.call .openFile 0) [] s₁ (by rw [List.map_append]; rfl) (run_of_performAll hs₁)
      ⟨rfl, nofun⟩ hcur
  exact (hpart r hr).found (by rw [hcount]; decide) (of_decide_eq_true hvalue)

end Session

end DemosOS
