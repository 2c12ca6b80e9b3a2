import DemosOS.Mem.Failures

/-!
# Calls that open something

`openResource` stops where a `NULL` pointer is followed.  The three calls of `syscalls.c` do
not stop: a page that could not be allocated is the address `0`, which is given to the FAT
library, to `free_page` and to the descriptor table like any other.  `openAnyway` is the same
code with these addresses carried along, and with the list of what `allocate_kernel_page` has
returned and `free_page` has been given.
-/

namespace DemosOS

open Lib Kernel

/-- What the FAT library returns. -/
inductive FatError
  | none
  | noFat
  | broken
  | io
  | param
  | path
  | eof
  | denied
  | full
deriving DecidableEq, Repr

/-- The `FAT_ERR_*` constants. -/
def FatError.code : FatError → Int
  | .none => 0
  | .noFat => -1
  | .broken => -2
  | .io => -3
  | .param => -4
  | .path => -5
  | .eof => -6
  | .denied => -7
  | .full => -8

/-- What a call that opens something returns, the addresses it was given by
`allocate_kernel_page` and has given to `free_page`, and the kernel afterwards. -/
structure OpenRun where
  value : Int
  allocated : List Nat
  freed : List Nat
  kernel : Kernel Pointers

/-- The calls that open something. -/
inductive Opening
  | createDir
  | openDir
  | openFile
deriving DecidableEq, Repr

namespace Kernel

/-- `free_page`, which marks no page if the address does not belong to the allocator. -/
def freeAnyway (address : Nat) (k : Kernel Pointers) : Kernel Pointers :=
  match k.freePage address with
  | none => k
  | some (_, k) => k

/-- The code that `syscall_create_dir`, `syscall_open_dir` and `syscall_open_file` share; the
library returns `error`, also for a path that is too long to reach it. -/
def openAnyway (resourceType : ResourceType) (onError : Int → Int) (error : Int)
    (k : Kernel Pointers) : OpenRun :=
  match k.getFirstFreeFileDescriptor k.currentProcess with
  | none => ⟨-1, [], [], k⟩
  | some fileDescriptor =>
      match k.allocateKernelPage with
      | (file, k) =>
          if error ≠ 0 then ⟨onError error, [file], [file], k.freeAnyway file⟩
          else
            match k.allocateKernelPage with
            | (resource, k) =>
                ⟨fileDescriptor, [file, resource], [],
                  (k.setFile fileDescriptor resource).setResource resource ⟨resourceType, file⟩⟩

end Kernel

namespace Opening

/-- The call, with what the FAT library returns.  Only `syscall_create_dir` returns that. -/
def run (e : FatError) (k : Kernel Pointers) : Opening → OpenRun
  | createDir => k.openAnyway .folder id e.code
  | openDir => k.openAnyway .folder (fun _ ↦ -1) e.code
  | openFile => k.openAnyway .file (fun _ ↦ -1) e.code

/-- The call, as it is seen by the runs that stop at a `NULL` pointer. -/
def call : Opening → Call
  | createDir => .createDir
  | openDir => .openDir
  | openFile => .openFile

end Opening

/-- A call by the current process that leaves nothing behind if it fails, gives back only what
it was given, and has a record for the descriptor it returns. -/
structure LeavesNoTrace (k : Kernel Pointers) (r : OpenRun) : Prop where
  descriptors : r.value < 0 → ∀ p, k.Known p → (r.kernel.pcb p).files = (k.pcb p).files
  bitmap : r.value < 0 → r.kernel.memory.memoryPages = k.memory.memoryPages
  freed : ∀ address ∈ r.freed, address ∈ r.allocated ∧
    ∃ i < N_PAGES, address = pageAddress i + VA_START ∧ k.memory.memoryPages i = false
  record : 0 ≤ r.value → (r.kernel.pcb k.currentProcess).files r.value.toNat ≠ 0

/-! ## The ways through a call -/

namespace Kernel

variable {k : Kernel Pointers} {t : ResourceType} {onError : Int → Int} {error : Int}

theorem freeAnyway_page {i : Nat} (hi : i < N_PAGES) (k : Kernel Pointers) :
    k.freeAnyway (pageAddress i + VA_START) = k.returnPage i := by
  rw [freeAnyway, freePage_page hi]
  rfl

/-- A page that was taken and given back is as free as before. -/
theorem takePage_returnPage_marks {i : Nat} (hfree : k.memory.memoryPages i = false) :
    ((k.takePage i).returnPage i).memory.memoryPages = k.memory.memoryPages := by
  funext j
  rw [returnPage_marks, takePage_marks]
  split_ifs with hj
  · rw [hj, hfree]
  · rfl

/-- The slot that has just been written. -/
theorem setFile_slot (fd resource : Nat) (k : Kernel Pointers) :
    ((k.setFile fd resource).pcb k.currentProcess).files fd = resource := by
  rw [setFile, mapGlobals_toGlobals, Globals.modifyPcb_pcb_self]
  exact Function.update_self ..

/-- Where a call does what the runs that stop at a `NULL` pointer say, it does so here. -/
theorem openAnyway_of_ok {call : Nat → FatCall} {r : FileResult}
    (h : k.openResource t call onError error = .ok r) :
    (k.openAnyway t onError error).value = r.value ∧
      (k.openAnyway t onError error).kernel = r.kernel := by
  unfold openResource at h
  unfold openAnyway
  cases hfd : k.getFirstFreeFileDescriptor k.currentProcess with
  | none =>
      rw [hfd] at h
      obtain rfl := Except.ok.inj h
      exact ⟨rfl, rfl⟩
  | some fd =>
      rw [hfd] at h
      obtain ⟨i, hi, -, file, rfl, hne, hpage⟩ | ⟨-, hpage⟩ := k.allocateKernelPage_cases
      · rw [hpage] at h ⊢
        dsimp only at h ⊢
        rw [if_neg hne] at h
        by_cases herror : error ≠ 0
        · rw [if_pos herror, releasePage_page hi] at h
          rw [if_pos herror, freeAnyway_page hi, ← Except.ok.inj h]
          exact ⟨rfl, rfl⟩
        · rw [if_neg herror] at h ⊢
          obtain ⟨j, -, -, resource, -, hne', hpage'⟩ | ⟨-, hpage'⟩ :=
            (k.takePage i).allocateKernelPage_cases
          · rw [hpage'] at h ⊢
            dsimp only at h
            rw [if_neg hne'] at h
            obtain rfl := Except.ok.inj h
            exact ⟨rfl, rfl⟩
          · rw [hpage'] at h
            dsimp only at h
            rw [if_pos rfl] at h
            cases h
      · rw [hpage] at h
        dsimp only at h
        rw [if_pos rfl] at h
        cases h

theorem openAnyway_full (h : k.getFirstFreeFileDescriptor k.currentProcess = none) :
    k.openAnyway t onError error = ⟨-1, [], [], k⟩ := by
  rw [openAnyway, h]

/-- The library fails: the page of its structure is given back, if there was one. -/
theorem openAnyway_error (t : ResourceType) (onError : Int → Int) {fd : Nat}
    (hfd : k.getFirstFreeFileDescriptor k.currentProcess = some fd) (herror : error ≠ 0) :
    (∃ i < N_PAGES, k.memory.memoryPages i = false ∧ k.openAnyway t onError error =
      ⟨onError error, [pageAddress i + VA_START], [pageAddress i + VA_START],
        (k.takePage i).returnPage i⟩) ∨
    (k.memory.free = 0 ∧ (k.openAnyway t onError error).freed = [0]) := by
  rw [openAnyway, hfd]
  obtain ⟨i, hi, hfree, file, rfl, -, hpage⟩ | ⟨hfull, hpage⟩ := k.allocateKernelPage_cases
  · refine .inl ⟨i, hi, hfree, ?_⟩
    rw [hpage]
    dsimp only
    rw [if_pos herror, freeAnyway_page hi]
  · refine .inr ⟨hfull, ?_⟩
    rw [hpage]
    dsimp only
    rw [if_pos herror]

/-- The library does not fail: there are two pages to take, or the slot stays empty. -/
theorem openAnyway_opened (t : ResourceType) (onError : Int → Int) {fd : Nat}
    (hfd : k.getFirstFreeFileDescriptor k.currentProcess = some fd) :
    (k.openAnyway t onError 0).value = fd ∧ (k.openAnyway t onError 0).freed = [] ∧
    ((2 ≤ k.memory.free ∧
        ((k.openAnyway t onError 0).kernel.pcb k.currentProcess).files fd ≠ 0) ∨
      (k.memory.free < 2 ∧
        ((k.openAnyway t onError 0).kernel.pcb k.currentProcess).files fd = 0)) := by
  rw [openAnyway, hfd]
  obtain ⟨i, hi, hfree, file, -, -, hpage⟩ | ⟨hfull, hpage⟩ := k.allocateKernelPage_cases
  · have hcount := takePage_free hi hfree
    rw [hpage]
    obtain ⟨j, hj, hfree', resource, -, hne, hpage'⟩ | ⟨hfull', hpage'⟩ :=
      (k.takePage i).allocateKernelPage_cases
    · have hcount' := takePage_free hj hfree'
      dsimp only
      rw [if_neg (not_not.mpr rfl), hpage']
      refine ⟨rfl, rfl, .inl ⟨by omega, ?_⟩⟩
      exact (setFile_slot fd resource ((k.takePage i).takePage j)).trans_ne hne
    · dsimp only
      rw [if_neg (not_not.mpr rfl), hpage']
      exact ⟨rfl, rfl, .inr ⟨by omega, setFile_slot fd 0 _⟩⟩
  · have hfull' : (k.mapMemory fun m ↦
        { m with failedAllocations := m.failedAllocations + 1 }).memory.free = 0 := hfull
    rw [hpage]
    dsimp only
    rw [if_neg (not_not.mpr rfl)]
    obtain ⟨j, hj, hfree, -⟩ | ⟨-, hpage'⟩ := (k.mapMemory fun m ↦
      { m with failedAllocations := m.failedAllocations + 1 }).allocateKernelPage_cases
    · cases hfree.symm.trans (freeCells_eq_zero.mp hfull' j hj)
    · rw [hpage']
      exact ⟨rfl, rfl, .inr ⟨by omega, setFile_slot fd 0 _⟩⟩

end Kernel

namespace Opening

theorem run_of_ok {o : Opening} {e : FatError} {k : Kernel Pointers} {r : FileResult}
    (h : o.call.run e.code k = .ok r) :
    (o.run e k).value = r.value ∧ (o.run e k).kernel = r.kernel := by
  cases o with
  | createDir | openDir | openFile => exact openAnyway_of_ok h

/-- What the three calls have in common: the value for an error is negative. -/
theorem run_eq (o : Opening) (e : FatError) (k : Kernel Pointers) :
    ∃ t onError, o.run e k = k.openAnyway t onError e.code ∧ (e ≠ .none → onError e.code < 0) := by
  have hcode : e ≠ .none → e.code < 0 := by cases e <;> decide
  cases o with
  | createDir => exact ⟨.folder, id, rfl, hcode⟩
  | openDir => exact ⟨.folder, fun _ ↦ -1, rfl, fun _ ↦ (by decide : (-1 : Int) < 0)⟩
  | openFile => exact ⟨.file, fun _ ↦ -1, rfl, fun _ ↦ (by decide : (-1 : Int) < 0)⟩

end Opening

theorem FatError.code_ne_zero {e : FatError} (h : e ≠ .none) : e.code ≠ 0 := by
  cases e with
  | none => exact absurd rfl h
  | noFat | broken | io | param | path | eof | denied | full => decide

/-! ## What a failed call leaves behind -/

section

variable {s : System} {t : ResourceType} {onError : Int → Int} {error : Int}

theorem Confined.takePage_returnPage (k : Kernel Pointers) (i : Nat) :
    Confined {pageAddress i} ∅ k ((k.takePage i).returnPage i) :=
  (Confined.takePage k (Set.mem_singleton _)).trans (Confined.freePage _ (Set.mem_singleton _))

/-- A page that is taken and given back is not the page of a control block. -/
theorem System.Sound.takePage_returnPage_pcb (h : s.Sound) {i : Nat} (hi : i < N_PAGES)
    (hfree : s.kernel.memory.memoryPages i = false) {p : PcbPtr} (hp : s.kernel.Known p) :
    ((s.kernel.takePage i).returnPage i).pcb p = s.kernel.pcb p :=
  (Confined.takePage_returnPage s.kernel i).pcb p (Set.notMem_empty p)
    (h.outside_free hp hi hfree)

/-- A call that finds no slot, or a page to give back. -/
theorem LeavesNoTrace.refused (h : s.Sound) {fd : Nat}
    (hfd : s.kernel.getFirstFreeFileDescriptor s.kernel.currentProcess = some fd)
    (herror : error ≠ 0) (hnegative : onError error < 0) :
    LeavesNoTrace s.kernel (s.kernel.openAnyway t onError error) ↔ 1 ≤ s.kernel.memory.free := by
  obtain ⟨i, hi, hfree, hrun⟩ | ⟨hfull, hfreed⟩ :=
    openAnyway_error t onError hfd herror
  · have hcount := takePage_free hi hfree
    refine iff_of_true ?_ (by omega)
    rw [hrun]
    refine ⟨fun _ p hp ↦ ?_, fun _ ↦ takePage_returnPage_marks hfree, ?_, ?_⟩
    · rw [h.takePage_returnPage_pcb hi hfree hp]
    · intro address haddress
      exact ⟨haddress, i, hi, List.mem_singleton.mp haddress, hfree⟩
    · exact fun hvalue ↦ absurd hnegative (Int.not_lt.mpr hvalue)
  · refine iff_of_false (fun htrace ↦ ?_) (by omega)
    obtain ⟨-, i, -, hnull, -⟩ := htrace.freed 0 (hfreed ▸ List.mem_singleton_self 0)
    exact address_ne_zero i hnull.symm

/-- A call for which the library does not fail. -/
theorem LeavesNoTrace.opened {k : Kernel Pointers} {fd : Nat}
    (hfd : k.getFirstFreeFileDescriptor k.currentProcess = some fd) :
    LeavesNoTrace k (k.openAnyway t onError 0) ↔ 2 ≤ k.memory.free := by
  obtain ⟨hvalue, hfreed, hslot⟩ := openAnyway_opened t onError hfd
  have hpos : 0 ≤ (k.openAnyway t onError 0).value := hvalue ▸ Int.natCast_nonneg fd
  obtain ⟨hcount, hslot⟩ | ⟨hcount, hslot⟩ := hslot
  · refine iff_of_true ⟨?_, ?_, ?_, fun _ ↦ ?_⟩ hcount
    · exact fun hneg ↦ absurd hneg (Int.not_lt.mpr hpos)
    · exact fun hneg ↦ absurd hneg (Int.not_lt.mpr hpos)
    · rw [hfreed]
      exact nofun
    · rw [hvalue, Int.toNat_natCast]
      exact hslot
  · refine iff_of_false (fun htrace ↦ htrace.record hpos ?_) (Nat.not_le.mpr hcount)
    rw [hvalue, Int.toNat_natCast]
    exact hslot

end

/-- A call that opens something leaves no trace of its failure exactly if it finds no slot, or
all the pages it asks for. -/
theorem leavesNoTrace_iff {s : System} (h : s.Sound) (o : Opening) (e : FatError) :
    LeavesNoTrace s.kernel (o.run e s.kernel) ↔
      (∀ fd < MAX_FILES_PER_PROCESS, s.kernel.current.files fd ≠ 0) ∨
        (e ≠ .none ∧ 1 ≤ s.kernel.memory.free) ∨ 2 ≤ s.kernel.memory.free := by
  obtain ⟨t, onError, hrun, hnegative⟩ := o.run_eq e s.kernel
  rw [hrun]
  cases hfd : s.kernel.getFirstFreeFileDescriptor s.kernel.currentProcess with
  | none =>
      rw [openAnyway_full hfd]
      refine iff_of_true ⟨fun _ _ _ ↦ rfl, fun _ ↦ rfl, nofun, ?_⟩
        (.inl (getFirstFreeFileDescriptor_eq_none.mp hfd))
      exact fun (hvalue : (0 : Int) ≤ -1) ↦ absurd hvalue (by decide)
  | some fd =>
      obtain ⟨hlt, hslot⟩ := getFirstFreeFileDescriptor_eq_some hfd
      rw [or_iff_right fun hfull ↦ hfull fd hlt hslot]
      by_cases he : e = .none
      · rw [he, show FatError.none.code = 0 from rfl, LeavesNoTrace.opened hfd,
          or_iff_right fun hne ↦ hne.1 rfl]
      · rw [LeavesNoTrace.refused h hfd (FatError.code_ne_zero he) (hnegative he)]
        constructor
        · exact fun hcount ↦ .inl ⟨he, hcount⟩
        · rintro (⟨-, hcount⟩ | hcount)
          · exact hcount
          · omega

theorem two_le_boot_free (algorithm : Algorithm) (timerClo : Nat → BitVec 32) :
    2 ≤ (System.boot algorithm timerClo).kernel.memory.free := by
  have hpages : freeCells (fun _ ↦ false) 2 ≤ freeCells (fun _ ↦ false) N_PAGES :=
    freeCells_mono (by decide)
  exact hpages

/-- A kernel that has just been started looks for a file that does not exist. -/
theorem leavesNoTrace_iff_boot : LeavesNoTrace (System.boot .roundRobin fun _ ↦ 0).kernel
    (Opening.openFile.run .path (System.boot .roundRobin fun _ ↦ 0).kernel) :=
  (leavesNoTrace_iff (System.boot_sound .roundRobin fun _ ↦ 0) .openFile .path).mpr
    (.inr (.inr (two_le_boot_free .roundRobin fun _ ↦ 0)))

/-- With one page left the structure takes it, and the descriptor returned has no record. -/
theorem leavesNoTrace_false : let _ := someCode; ¬ ∀ s : System, s.Reachable →
    ∀ o e, LeavesNoTrace s.kernel (Opening.run e s.kernel o) := by
  intro _ hall
  have hboot : (System.boot .roundRobin fun _ ↦ 0).Reachable := ⟨_, _, .refl⟩
  have hpages := two_le_boot_free .roundRobin fun _ ↦ 0
  obtain ⟨s, hreach, -, -, -, hfree, hcurrent⟩ := hboot.mallocs (n := 1) (by omega)
  rcases (leavesNoTrace_iff hreach.sound .openFile .none).mp (hall s hreach .openFile .none) with
    hfull | ⟨hne, -⟩ | hcount
  · refine hfull 0 (by decide) ?_
    rw [hcurrent]
    rfl
  · exact hne rfl
  · omega

end DemosOS
