import DemosOS.Files.Lifecycle

/-!
# What the descriptor calls check

Four calls take a descriptor.  Each looks at a different part of what makes a descriptor
usable: `syscall_close_file` tests the range only, `syscall_write_file` the slot only,
`syscall_get_next_entry` the structure only, and `syscall_read_file` nothing; none of them
looks at the type of the resource.  And a closed descriptor keeps its slot.

The theorems say exactly when the calls do what a user of descriptors expects of them.
-/

namespace DemosOS

/-! ## Calls on a descriptor -/

/-- A system call that takes a descriptor. -/
inductive DescriptorCall
  | closeFile
  | readFile
  | writeFile
  | getNextEntry
deriving DecidableEq, Repr

/-- What the FAT library returns to such a call. -/
structure FatOutcome where
  error : Int
  info : Except Int DirInfo
  nextError : Int

/-- The type of the structure that a call of the library works on. -/
def FatCall.resourceType : FatCall → ResourceType
  | dirCreate _ | dirOpen _ | dirRead _ | dirNext _ => .folder
  | fileOpen _ | fileClose _ | fileWrite _ | fileSeek _ | fileRead _ => .file

namespace DescriptorCall

/-- The call, with what the library returns. -/
def run (outcome : FatOutcome) (fd : Int) (k : Kernel Pointers) :
    DescriptorCall → Except Fault FileResult
  | closeFile => k.syscallCloseFile fd outcome.error
  | readFile => k.syscallReadFile fd outcome.error
  | writeFile => k.syscallWriteFile fd outcome.error
  | getNextEntry => (k.syscallGetNextEntry fd outcome.info outcome.nextError).map Prod.snd

/-- The type of resource a call is meant for. -/
def resourceType : DescriptorCall → ResourceType
  | closeFile | readFile | writeFile => .file
  | getNextEntry => .folder

/-- The descriptors that are not open and that the call recognises as such. -/
def Recognises (s : Session) (fd : Int) : DescriptorCall → Prop
  | closeFile => fd < 0 ∨ fd ≥ MAX_FILES_PER_PROCESS
  | readFile => False
  | writeFile => 0 ≤ fd ∧ fd < MAX_FILES_PER_PROCESS ∧ s.usage fd.toNat = .unused
  | getNextEntry => 0 ≤ fd ∧ fd < MAX_FILES_PER_PROCESS ∧ s.usage fd.toNat = .closed

end DescriptorCall

/-- The call returns an error, has not asked the library for anything and has changed
nothing. -/
def Rejected (k : Kernel Pointers) (r : Except Fault FileResult) : Prop :=
  ∃ value, value ≠ 0 ∧ r = .ok ⟨value, [], k⟩

/-- The call asks the library for operations only on an open resource of their type, and
returns an error if it asks for none. -/
def Disciplined (s : Session) (fd : Int) (r : Except Fault FileResult) : Prop :=
  ∃ f, r = .ok f ∧ (f.calls = [] → f.value ≠ 0) ∧
    ∀ call ∈ f.calls, s.usage fd.toNat = .opened call.resourceType

/-! ## Calls on descriptors that are not open -/

section

variable {k : Kernel Pointers} {usage : Nat → Usage}

theorem Kernel.fileSlot_of_not {fd : Int} (h : ¬ (0 ≤ fd ∧ fd < MAX_FILES_PER_PROCESS)) :
    k.fileSlot fd = .error (.slot fd) := if_neg h

/-- Outside the table, only `syscall_close_file` does not access it. -/
theorem DescriptorCall.run_outside {fd : Int} (h : ¬ (0 ≤ fd ∧ fd < MAX_FILES_PER_PROCESS))
    (outcome : FatOutcome) (c : DescriptorCall) :
    c.run outcome fd k = if c = .closeFile then .ok ⟨-1, [], k⟩ else .error (.slot fd) := by
  have hslot : k.fileSlot fd = .error (.slot fd) := Kernel.fileSlot_of_not h
  cases c with
  | closeFile =>
      have hrange : fd < 0 ∨ fd ≥ MAX_FILES_PER_PROCESS := by omega
      rw [run, Kernel.syscallCloseFile, if_pos hrange]
      rfl
  | readFile =>
      rw [run, Kernel.syscallReadFile, hslot]
      rfl
  | writeFile =>
      rw [run, Kernel.syscallWriteFile, hslot]
      rfl
  | getNextEntry =>
      rw [run, Kernel.syscallGetNextEntry, hslot]
      rfl

/-- On a slot that was never used, only `syscall_write_file` does not follow it. -/
theorem DescriptorCall.run_unused {fd : Nat} (hfd : fd < MAX_FILES_PER_PROCESS)
    (hslot : k.current.files fd = 0) (outcome : FatOutcome) (c : DescriptorCall) :
    c.run outcome fd k = if c = .writeFile then .ok ⟨-1, [], k⟩ else .error .nullResource := by
  have hget : k.fileSlot fd = .ok 0 := by rw [Kernel.fileSlot_of_lt hfd, hslot]
  cases c with
  | closeFile =>
      have hrange : ¬ ((fd : Int) < 0 ∨ (fd : Int) ≥ MAX_FILES_PER_PROCESS) := by omega
      rw [run, Kernel.syscallCloseFile, if_neg hrange, hget]
      rfl
  | readFile =>
      rw [run, Kernel.syscallReadFile, hget]
      rfl
  | writeFile =>
      rw [run, Kernel.syscallWriteFile, hget]
      rfl
  | getNextEntry =>
      rw [run, Kernel.syscallGetNextEntry, hget]
      rfl

/-- On a slot that was closed, only `syscall_get_next_entry` does not give `NULL` to the
library. -/
theorem DescriptorCall.run_closed {fd : Nat} (hfd : fd < MAX_FILES_PER_PROCESS)
    (hslot : k.current.files fd ≠ 0)
    (hptr : (k.memory.fatResources (k.current.files fd)).ptr = 0) (outcome : FatOutcome)
    (c : DescriptorCall) :
    c.run outcome fd k = if c = .getNextEntry then .ok ⟨-1, [], k⟩ else .error .nullStructure := by
  have hget := Kernel.fileSlot_of_lt hfd k
  have hfollow : k.followResource (k.current.files fd) = .ok 0 := by
    rw [Kernel.followResource, if_neg hslot, hptr]
  cases c with
  | closeFile =>
      have hrange : ¬ ((fd : Int) < 0 ∨ (fd : Int) ≥ MAX_FILES_PER_PROCESS) := by omega
      rw [run, Kernel.syscallCloseFile, if_neg hrange, hget]
      simp only [bind, Except.bind, hfollow]
      rfl
  | readFile =>
      rw [run, Kernel.syscallReadFile, hget]
      simp only [bind, Except.bind, hfollow]
      rfl
  | writeFile =>
      rw [run, Kernel.syscallWriteFile, hget]
      simp only [bind, Except.bind, hfollow, if_neg hslot]
      rfl
  | getNextEntry =>
      rw [run, Kernel.syscallGetNextEntry, hget]
      simp only [bind, Except.bind, hfollow]
      rfl

theorem Kernel.requireStructure_of_ne {file : Nat} (h : file ≠ 0) :
    Kernel.requireStructure file = .ok () := by
  rw [Kernel.requireStructure, if_neg h]

/-- On a slot with a structure, the calls that leave the table alone ask the library for
operations of their type. -/
theorem DescriptorCall.run_structure {fd file : Nat} (hfd : fd < MAX_FILES_PER_PROCESS)
    (hslot : k.current.files fd ≠ 0)
    (hptr : (k.memory.fatResources (k.current.files fd)).ptr = file) (hne : file ≠ 0)
    (outcome : FatOutcome) {c : DescriptorCall} (hc : c ≠ .closeFile) :
    ∃ f, c.run outcome fd k = .ok f ∧ f.calls ≠ [] ∧
      ∀ call ∈ f.calls, call.resourceType = c.resourceType := by
  have hget := Kernel.fileSlot_of_lt hfd k
  have hfollow : k.followResource (k.current.files fd) = .ok file := by
    rw [Kernel.followResource, if_neg hslot, hptr]
  have hrequire := Kernel.requireStructure_of_ne hne
  cases c with
  | closeFile => exact absurd rfl hc
  | readFile =>
      refine ⟨⟨outcome.error, [.fileSeek file, .fileRead file], k⟩, ?_, by simp, ?_⟩
      · rw [run, Kernel.syscallReadFile, hget]
        simp only [bind, Except.bind, hfollow, hrequire]
      · simp [FatCall.resourceType, resourceType]
  | writeFile =>
      refine ⟨⟨outcome.error, [.fileWrite file], k⟩, ?_, by simp, ?_⟩
      · rw [run, Kernel.syscallWriteFile, hget]
        simp only [bind, Except.bind, hfollow, hrequire, if_neg hslot]
      · simp [FatCall.resourceType, resourceType]
  | getNextEntry =>
      rw [run, Kernel.syscallGetNextEntry, hget]
      simp only [bind, Except.bind, hfollow, if_neg hne]
      cases outcome.info with
      | error error =>
          refine ⟨⟨-1, [.dirRead file], k⟩, rfl, by simp, ?_⟩
          simp [FatCall.resourceType, resourceType]
      | ok info =>
          refine ⟨⟨if outcome.nextError ≠ 0 then -1 else 0, [.dirRead file, .dirNext file], k⟩, rfl,
            by simp, ?_⟩
          simp [FatCall.resourceType, resourceType]

/-- On an open descriptor, every call asks the library for operations of its type. -/
theorem DescriptorCall.run_open {fd i : Nat} (hfd : fd < MAX_FILES_PER_PROCESS) (hi : i < N_PAGES)
    (hslot : k.current.files fd ≠ 0)
    (hptr : (k.memory.fatResources (k.current.files fd)).ptr = pageAddress i + VA_START)
    (outcome : FatOutcome) (c : DescriptorCall) :
    ∃ f, c.run outcome fd k = .ok f ∧ f.calls ≠ [] ∧
      ∀ call ∈ f.calls, call.resourceType = c.resourceType := by
  by_cases hc : c = .closeFile
  · subst hc
    obtain ⟨-, hclose⟩ | ⟨-, j, -, -, hclose⟩ :=
      Kernel.syscallCloseFile_open outcome.error hfd hi hslot hptr
    · exact ⟨_, hclose, nofun, by simp [FatCall.resourceType, resourceType]⟩
    · exact ⟨_, hclose, nofun, by simp [FatCall.resourceType, resourceType]⟩
  · exact run_structure hfd hslot hptr (Kernel.address_ne_zero i) outcome hc

end

section

variable {p : PcbPtr} {s : Session}

/-- A call on a descriptor that is not open returns an error if it recognises this, and
follows a pointer it must not follow otherwise. -/
theorem DescriptorCall.run_of_not_open (h : s.Sound p) (hcur : s.kernel.currentProcess = p)
    {fd : Int} (hfd : ¬ s.IsOpen fd) (outcome : FatOutcome) (c : DescriptorCall) :
    (c.Recognises s fd ∧ c.run outcome fd s.kernel = .ok ⟨-1, [], s.kernel⟩) ∨
    (¬ c.Recognises s fd ∧ ∃ fault, c.run outcome fd s.kernel = .error fault) := by
  subst hcur
  by_cases hrange : 0 ≤ fd ∧ fd < MAX_FILES_PER_PROCESS
  · obtain ⟨n, rfl⟩ := Int.eq_ofNat_of_zero_le hrange.1
    have hn : n < MAX_FILES_PER_PROCESS := by omega
    have hin : ¬ ((n : Int) < 0 ∨ (n : Int) ≥ MAX_FILES_PER_PROCESS) := by omega
    have hagrees := h.agrees n hn
    cases hu : s.usage n with
    | unused =>
        rw [hu] at hagrees
        have hrun := c.run_unused hn hagrees outcome
        cases c with
        | writeFile => exact .inl ⟨⟨hrange.1, hrange.2, hu⟩, hrun⟩
        | closeFile => exact .inr ⟨hin, _, hrun⟩
        | readFile => exact .inr ⟨id, _, hrun⟩
        | getNextEntry => exact .inr ⟨fun hget ↦ (nomatch hu.symm.trans hget.2.2), _, hrun⟩
    | opened t => exact absurd ⟨hrange.1, hrange.2, t, hu⟩ hfd
    | closed =>
        rw [hu] at hagrees
        obtain ⟨j, -, hslot, hrecord⟩ := hagrees
        have hnull : s.kernel.current.files n ≠ 0 :=
          fun h ↦ Kernel.address_ne_zero j (hslot.symm.trans h)
        have hrun := c.run_closed hn hnull (congrArg FatResource.ptr hrecord) outcome
        cases c with
        | getNextEntry => exact .inl ⟨⟨hrange.1, hrange.2, hu⟩, hrun⟩
        | closeFile => exact .inr ⟨hin, _, hrun⟩
        | readFile => exact .inr ⟨id, _, hrun⟩
        | writeFile => exact .inr ⟨fun hwrite ↦ (nomatch hu.symm.trans hwrite.2.2), _, hrun⟩
  · have hrun := c.run_outside (k := s.kernel) hrange outcome
    have hout : fd < 0 ∨ fd ≥ MAX_FILES_PER_PROCESS := by omega
    cases c with
    | closeFile => exact .inl ⟨hout, hrun⟩
    | readFile => exact .inr ⟨id, _, hrun⟩
    | writeFile => exact .inr ⟨fun hwrite ↦ hrange ⟨hwrite.1, hwrite.2.1⟩, _, hrun⟩
    | getNextEntry => exact .inr ⟨fun hget ↦ hrange ⟨hget.1, hget.2.1⟩, _, hrun⟩

/-- A call rejects a descriptor that is not open exactly if it recognises it. -/
theorem rejected_iff (h : s.Reachable p) (hcur : s.kernel.currentProcess = p) {fd : Int}
    (hfd : ¬ s.IsOpen fd) (outcome : FatOutcome) (c : DescriptorCall) :
    Rejected s.kernel (c.run outcome fd s.kernel) ↔ c.Recognises s fd := by
  obtain ⟨hrec, hrun⟩ | ⟨hrec, fault, hrun⟩ := c.run_of_not_open h.sound hcur hfd outcome
  · exact iff_of_true ⟨-1, by decide, hrun⟩ hrec
  · refine iff_of_false ?_ hrec
    rintro ⟨value, -, hvalue⟩
    cases hrun.symm.trans hvalue

/-- A file has been opened and closed again: `syscall_get_next_entry` rejects the descriptor. -/
theorem rejected_closed : ∃ s : Session, s.Reachable .initProcess ∧ ¬ s.IsOpen 0 ∧
    Rejected s.kernel (DescriptorCall.getNextEntry.run ⟨0, .error 1, 0⟩ 0 s.kernel) := by
  have hrun : (Session.performAll .initProcess [.openFile, .closeFile 0] .boot).any (fun s ↦
      s.usage 0 = .closed ∧ s.kernel.currentProcess = .initProcess ∧ ¬ s.IsOpen 0) = true := by
    decide +kernel
  obtain ⟨s, hs, hlast⟩ := (Option.any_eq_true _ _).mp hrun
  obtain ⟨hclosed, hcur, hopen⟩ := of_decide_eq_true hlast
  have hreach := (Session.run_of_performAll hs).reachable Session.boot_fresh.reachable
  exact ⟨s, hreach, hopen,
    (rejected_iff hreach hcur hopen _ .getNextEntry).mpr ⟨by decide, by decide, hclosed⟩⟩

/-- The same descriptor can be read: `NULL` is given to the library. -/
theorem rejected_false : ¬ ∀ p s, Session.Reachable p s → s.kernel.currentProcess = p →
    ∀ fd, ¬ s.IsOpen fd → ∀ outcome (c : DescriptorCall),
      Rejected s.kernel (c.run outcome fd s.kernel) := by
  intro hall
  have hrun : (Session.performAll .initProcess [.openFile, .closeFile 0] .boot).any (fun s ↦
      s.kernel.currentProcess = .initProcess ∧ ¬ s.IsOpen 0) = true := by
    decide +kernel
  obtain ⟨s, hs, hlast⟩ := (Option.any_eq_true _ _).mp hrun
  obtain ⟨hcur, hopen⟩ := of_decide_eq_true hlast
  have hreach := (Session.run_of_performAll hs).reachable Session.boot_fresh.reachable
  obtain ⟨value, -, hvalue⟩ := hall _ s hreach hcur 0 hopen ⟨0, .error 1, 0⟩ .readFile
  obtain ⟨hrec, -⟩ | ⟨-, fault, hfault⟩ :=
    DescriptorCall.readFile.run_of_not_open hreach.sound hcur hopen ⟨0, .error 1, 0⟩
  · exact hrec
  · cases hfault.symm.trans hvalue

/-- A call keeps to the type of the resource exactly if the descriptor is open as a resource of
the type the call is meant for, or is not open and recognised as such. -/
theorem disciplined_iff (h : s.Reachable p) (hcur : s.kernel.currentProcess = p) (fd : Int)
    (outcome : FatOutcome) (c : DescriptorCall) :
    Disciplined s fd (c.run outcome fd s.kernel) ↔
      (s.IsOpen fd ∧ s.usage fd.toNat = .opened c.resourceType) ∨
        (¬ s.IsOpen fd ∧ c.Recognises s fd) := by
  by_cases hfd : s.IsOpen fd
  · obtain ⟨hnonneg, hlt, t, ht⟩ := id hfd
    obtain ⟨n, rfl⟩ := Int.eq_ofNat_of_zero_le hnonneg
    have hn : n < MAX_FILES_PER_PROCESS := by omega
    subst hcur
    have hagrees := h.sound.agrees n hn
    rw [Int.toNat_natCast] at ht ⊢
    rw [ht] at hagrees
    obtain ⟨i, hi, j, -, hslot, hrecord⟩ := hagrees
    have hnull : s.kernel.current.files n ≠ 0 :=
      fun h ↦ Kernel.address_ne_zero j (hslot.symm.trans h)
    obtain ⟨f, hrun, hcalls, htype⟩ :=
      c.run_open hn hi hnull (congrArg FatResource.ptr hrecord) outcome
    constructor
    · rintro ⟨f', hrun', -, hall⟩
      obtain rfl := Except.ok.inj (hrun.symm.trans hrun')
      obtain ⟨call, hcall⟩ := List.exists_mem_of_ne_nil _ hcalls
      refine .inl ⟨hfd, ?_⟩
      rw [← htype call hcall]
      exact hall call hcall
    · rintro (⟨-, huse⟩ | ⟨hnot, -⟩)
      · refine ⟨f, hrun, fun hnil ↦ absurd hnil hcalls, fun call hcall ↦ ?_⟩
        rw [htype call hcall]
        exact huse
      · exact absurd hfd hnot
  · obtain ⟨hrec, hrun⟩ | ⟨hrec, fault, hrun⟩ := c.run_of_not_open h.sound hcur hfd outcome
    · refine iff_of_true ⟨_, hrun, fun _ ↦ Int.negSucc_ne_zero 0, ?_⟩ (.inr ⟨hfd, hrec⟩)
      exact fun _ ↦ nofun
    · refine iff_of_false ?_ ?_
      · rintro ⟨f, hf, -⟩
        cases hrun.symm.trans hf
      · rintro (⟨hopen, -⟩ | ⟨-, hrec'⟩)
        · exact hfd hopen
        · exact hrec hrec'

/-- A directory and a file are open: an entry of the directory and the bytes of the file are
read. -/
theorem disciplined_two : ∃ s : Session, s.Reachable .initProcess ∧
    Disciplined s 0 (DescriptorCall.getNextEntry.run ⟨0, .error 1, 0⟩ 0 s.kernel) ∧
    Disciplined s 1 (DescriptorCall.readFile.run ⟨0, .error 1, 0⟩ 1 s.kernel) := by
  have hrun : (Session.performAll .initProcess [.openDir, .openFile] .boot).any (fun s ↦
      s.usage 0 = .opened .folder ∧ s.usage 1 = .opened .file ∧
      s.kernel.currentProcess = .initProcess ∧ s.IsOpen 0 ∧ s.IsOpen 1) = true := by
    decide +kernel
  obtain ⟨s, hs, hlast⟩ := (Option.any_eq_true _ _).mp hrun
  obtain ⟨hfolder, hfile, hcur, hopen₀, hopen₁⟩ := of_decide_eq_true hlast
  have hreach := (Session.run_of_performAll hs).reachable Session.boot_fresh.reachable
  exact ⟨s, hreach, (disciplined_iff hreach hcur 0 _ .getNextEntry).mpr (.inl ⟨hopen₀, hfolder⟩),
    (disciplined_iff hreach hcur 1 _ .readFile).mpr (.inl ⟨hopen₁, hfile⟩)⟩

/-- A directory is open and closed with `syscall_close_file`: the library is told to close a
`File`. -/
theorem disciplined_false : ¬ ∀ p s, Session.Reachable p s → s.kernel.currentProcess = p →
    ∀ fd outcome (c : DescriptorCall), Disciplined s fd (c.run outcome fd s.kernel) := by
  intro hall
  have hrun : (Session.performAll .initProcess [.openDir] .boot).any (fun s ↦
      s.usage 0 = .opened .folder ∧ s.kernel.currentProcess = .initProcess ∧
      ((s.kernel.syscallCloseFile 0 0).toOption.any fun r ↦
        r.calls.any fun call ↦ call.resourceType = .file) = true) = true := by
    decide +kernel
  obtain ⟨s, hs, hlast⟩ := (Option.any_eq_true _ _).mp hrun
  obtain ⟨hfolder, hcur, hclose⟩ := of_decide_eq_true hlast
  have hreach := (Session.run_of_performAll hs).reachable Session.boot_fresh.reachable
  obtain ⟨f, hf, -, htype⟩ := hall _ s hreach hcur 0 ⟨0, .error 1, 0⟩ .closeFile
  have hf : s.kernel.syscallCloseFile 0 0 = .ok f := hf
  rw [hf] at hclose
  obtain ⟨call, hcall, hfile⟩ := List.any_eq_true.mp hclose
  have huse := htype call hcall
  rw [of_decide_eq_true hfile] at huse
  cases hfolder.symm.trans huse

end

end DemosOS
