import DemosOS.Mem.Pages

/-!
# What the file system calls do to the pages

`Opened` and `Closed` describe a successful open and a successful close by the pages they
take and give back.  They hold of every state in which the page of the caller's control
block is in use.
-/

namespace DemosOS

open Lib

/-! ## Pages -/

namespace Kernel

variable {k : Kernel Pointers} {i : Nat}

theorem takePage_marks (k : Kernel Pointers) (i j : Nat) :
    (k.takePage i).memory.memoryPages j = if j = i then true else k.memory.memoryPages j := by
  show Function.update k.memory.memoryPages i true j = _
  rw [Function.update_apply]

/-- `allocate_kernel_page` hands out a free page, by its kernel address. -/
theorem allocateKernelPage_cases (k : Kernel Pointers) :
    (∃ i < N_PAGES, k.memory.memoryPages i = false ∧ ∃ address, address = pageAddress i + VA_START ∧
      address ≠ 0 ∧ k.allocateKernelPage = (address, k.takePage i)) ∨
    (k.memory.free = 0 ∧ k.allocateKernelPage = (0, k.mapMemory fun m ↦
      { m with failedAllocations := m.failedAllocations + 1 })) := by
  obtain ⟨i, hi, hfree, h⟩ | ⟨hfull, h⟩ := k.getFreePage_cases
  · refine .inl ⟨i, hi, hfree, _, rfl, address_ne_zero i, ?_⟩
    rw [allocateKernelPage, h]
    exact if_neg (pageAddress_pos i).ne'
  · refine .inr ⟨hfull, ?_⟩
    rw [allocateKernelPage, h]
    rfl

theorem setResource_record (resource : Nat) (record : FatResource) (k : Kernel Pointers) :
    (k.setResource resource record).memory.fatResources resource = record :=
  Function.update_self ..

theorem releasePage_page (hi : i < N_PAGES) (k : Kernel Pointers) :
    k.releasePage (pageAddress i + VA_START) =
      .ok ((k.clearPage (pageAddress i)).mapMemory (·.mark i false)) := by
  rw [releasePage, freePage_page hi]

/-- A slot that is free, and none before it is. -/
theorem getFirstFreeFileDescriptor_eq_some {p : PcbPtr} {fd : Nat}
    (h : k.getFirstFreeFileDescriptor p = some fd) :
    fd < MAX_FILES_PER_PROCESS ∧ (k.pcb p).files fd = 0 := by
  have hmem := List.mem_of_find?_eq_some h
  have hfree := List.find?_some h
  exact ⟨List.mem_range.mp hmem, by simpa using hfree⟩

theorem getFirstFreeFileDescriptor_eq_none {p : PcbPtr} :
    k.getFirstFreeFileDescriptor p = none ↔
      ∀ fd < MAX_FILES_PER_PROCESS, (k.pcb p).files fd ≠ 0 := by
  simp [getFirstFreeFileDescriptor, List.find?_eq_none]

/-! ## Opening -/

/-- The kernel after an open that took page `i` for the structure and page `j` for the
record. -/
def opened (resourceType : ResourceType) (fd i j : Nat) (k : Kernel Pointers) : Kernel Pointers :=
  (((k.takePage i).takePage j).setFile fd (pageAddress j + VA_START)).setResource
    (pageAddress j + VA_START) ⟨resourceType, pageAddress i + VA_START⟩

/-- The kernel after page `i` has been given back. -/
def returnPage (i : Nat) (k : Kernel Pointers) : Kernel Pointers :=
  (k.clearPage (pageAddress i)).mapMemory (·.mark i false)

/-- The ways through a call that opens something. -/
theorem openResource_cases {resourceType : ResourceType} {call : Nat → FatCall}
    {onError : Int → Int} {error : Int} {r : FileResult}
    (h : k.openResource resourceType call onError error = .ok r) :
    (k.getFirstFreeFileDescriptor k.currentProcess = none ∧ r = ⟨-1, [], k⟩) ∨
    ∃ fd i, k.getFirstFreeFileDescriptor k.currentProcess = some fd ∧ i < N_PAGES ∧
      k.memory.memoryPages i = false ∧
      ((error ≠ 0 ∧ r = ⟨onError error, [call (pageAddress i + VA_START)],
          (k.takePage i).returnPage i⟩) ∨
        (error = 0 ∧ ∃ j < N_PAGES, j ≠ i ∧ k.memory.memoryPages j = false ∧
          r = ⟨fd, [call (pageAddress i + VA_START)], k.opened resourceType fd i j⟩)) := by
  unfold openResource at h
  cases hfd : k.getFirstFreeFileDescriptor k.currentProcess with
  | none =>
      rw [hfd] at h
      exact .inl ⟨rfl, (Except.ok.inj h).symm⟩
  | some fd =>
      rw [hfd] at h
      obtain ⟨i, hi, hfree, file, hfile, hfile₀, hpage⟩ | ⟨-, hpage⟩ := k.allocateKernelPage_cases
      · rw [hpage] at h
        dsimp only at h
        rw [if_neg hfile₀] at h
        refine .inr ⟨fd, i, rfl, hi, hfree, ?_⟩
        by_cases herror : error ≠ 0
        · rw [if_pos herror, hfile, releasePage_page hi] at h
          exact .inl ⟨herror, (Except.ok.inj h).symm⟩
        · rw [if_neg herror] at h
          refine .inr ⟨not_not.mp herror, ?_⟩
          obtain ⟨j, hj, hfree', resource, hresource, hresource₀, hpage'⟩ | ⟨-, hpage'⟩ :=
            (k.takePage i).allocateKernelPage_cases
          · rw [takePage_marks] at hfree'
            rw [hpage'] at h
            dsimp only at h
            rw [if_neg hresource₀] at h
            refine ⟨j, hj, ?_, ?_, ?_⟩
            · rintro rfl
              simp at hfree'
            · split_ifs at hfree'
              exact hfree'
            · rw [opened, ← hfile, ← hresource]
              exact (Except.ok.inj h).symm
          · rw [hpage'] at h
            dsimp only at h
            rw [if_pos rfl] at h
            cases h
      · rw [hpage] at h
        dsimp only at h
        rw [if_pos rfl] at h
        cases h

/-! ## Closing -/

/-- The kernel after a close that gave page `i` back and took page `j` for a new record. -/
def closed (fd i j : Nat) (k : Kernel Pointers) : Kernel Pointers :=
  (((k.returnPage i).takePage j).setFile fd (pageAddress j + VA_START)).setResource
    (pageAddress j + VA_START) ⟨.file, 0⟩

theorem returnPage_marks (k : Kernel Pointers) (i j : Nat) :
    (k.returnPage i).memory.memoryPages j = if j = i then false else k.memory.memoryPages j := by
  show Function.update k.memory.memoryPages i false j = _
  rw [Function.update_apply]

theorem fileSlot_of_lt {fd : Nat} (hfd : fd < MAX_FILES_PER_PROCESS) (k : Kernel Pointers) :
    k.fileSlot fd = .ok (k.current.files fd) := by
  rw [fileSlot, if_pos ⟨Int.natCast_nonneg fd, Int.ofNat_lt.mpr hfd⟩, Int.toNat_natCast]

/-- Closing a slot whose record points to a structure: the structure is given back, the record
is not, and a new record takes its place. -/
theorem syscallCloseFile_eq {fd file : Nat} (error : Int) (hfd : fd < MAX_FILES_PER_PROCESS)
    (hslot : k.current.files fd ≠ 0)
    (hptr : (k.memory.fatResources (k.current.files fd)).ptr = file) (hfile : file ≠ 0) :
    k.syscallCloseFile fd error =
      if error ≠ 0 then .ok ⟨error, [.fileClose file], k⟩
      else (k.releasePage file).bind fun k ↦
        match k.allocateKernelPage with
        | (resource, k) =>
            if resource = 0 then .error .nullResource
            else .ok ⟨0, [.fileClose file],
              (k.setFile fd resource).setResource resource ⟨.file, 0⟩⟩ := by
  have hrange : ¬ ((fd : Int) < 0 ∨ (fd : Int) ≥ MAX_FILES_PER_PROCESS) := by omega
  have hfollow : k.followResource (k.current.files fd) = .ok file := by
    rw [followResource, if_neg hslot, hptr]
  have hrequire : requireStructure file = .ok () := by rw [requireStructure, if_neg hfile]
  rw [syscallCloseFile, if_neg hrange, fileSlot_of_lt hfd]
  simp only [bind, Except.bind, hfollow, hrequire, Int.toNat_natCast]

/-- Closing a slot whose record points to page `i`. -/
theorem syscallCloseFile_open {fd i : Nat} (error : Int) (hfd : fd < MAX_FILES_PER_PROCESS)
    (hi : i < N_PAGES) (hslot : k.current.files fd ≠ 0)
    (hptr : (k.memory.fatResources (k.current.files fd)).ptr = pageAddress i + VA_START) :
    (error ≠ 0 ∧ k.syscallCloseFile fd error =
      .ok ⟨error, [.fileClose (pageAddress i + VA_START)], k⟩) ∨
    (error = 0 ∧ ∃ j < N_PAGES, (j = i ∨ k.memory.memoryPages j = false) ∧
      k.syscallCloseFile fd error =
        .ok ⟨0, [.fileClose (pageAddress i + VA_START)], k.closed fd i j⟩) := by
  have hclose := syscallCloseFile_eq error hfd hslot hptr (address_ne_zero i)
  by_cases herror : error ≠ 0
  · refine .inl ⟨herror, ?_⟩
    rw [hclose, if_pos herror]
  · refine .inr ⟨not_not.mp herror, ?_⟩
    have hrelease : k.releasePage (pageAddress i + VA_START) = .ok (k.returnPage i) :=
      releasePage_page hi k
    rw [if_neg herror, hrelease] at hclose
    obtain ⟨j, hj, hfree, resource, hresource, hresource₀, hpage⟩ | ⟨hfull, -⟩ :=
      (k.returnPage i).allocateKernelPage_cases
    · refine ⟨j, hj, ?_, ?_⟩
      · rw [returnPage_marks] at hfree
        split_ifs at hfree with hji
        · exact .inl hji
        · exact .inr hfree
      · rw [hclose, closed, ← hresource]
        simp only [Except.bind, hpage, if_neg hresource₀]
    · -- the page that has just been given back is free
      have hused := freeCells_eq_zero.mp hfull i hi
      rw [returnPage_marks, if_pos rfl] at hused
      cases hused

end Kernel

/-! ## Pages taken and given back -/

/-- A successful open of the current process: slot `fd` now holds a record in page `j`, which
points to a structure in page `i`. -/
structure Opened (resourceType : ResourceType) (fd i j : Nat) (k k' : Kernel Pointers) : Prop where
  fd_lt : fd < MAX_FILES_PER_PROCESS
  fd_free : k.current.files fd = 0
  i_lt : i < N_PAGES
  j_lt : j < N_PAGES
  ne : j ≠ i
  i_free : k.memory.memoryPages i = false
  j_free : k.memory.memoryPages j = false
  confined : Confined {pageAddress i, pageAddress j} {k.currentProcess} k k'
  current : k'.pcb k.currentProcess =
    { k.current with files := Function.update k.current.files fd (pageAddress j + VA_START) }
  record : k'.memory.fatResources (pageAddress j + VA_START) =
    ⟨resourceType, pageAddress i + VA_START⟩
  i_used : k'.memory.memoryPages i = true
  j_used : k'.memory.memoryPages j = true
  failedAllocations : k'.memory.failedAllocations = k.memory.failedAllocations

/-- A successful close by the current process: the structure in page `i` is given back, and
slot `fd` holds a new record in page `j`. -/
structure Closed (fd i j : Nat) (k k' : Kernel Pointers) : Prop where
  fd_lt : fd < MAX_FILES_PER_PROCESS
  i_lt : i < N_PAGES
  j_lt : j < N_PAGES
  j_free : j = i ∨ k.memory.memoryPages j = false
  confined : Confined {pageAddress i, pageAddress j} {k.currentProcess} k k'
  current : k'.pcb k.currentProcess =
    { k.current with files := Function.update k.current.files fd (pageAddress j + VA_START) }
  record : k'.memory.fatResources (pageAddress j + VA_START) = ⟨.file, 0⟩
  marks : k'.memory.memoryPages i = decide (j = i)
  j_used : k'.memory.memoryPages j = true
  failedAllocations : k'.memory.failedAllocations = k.memory.failedAllocations

section

variable {k : Kernel Pointers} {fd i j : Nat}

/-- The control block of the caller, after code that kept its page out of `T` and then wrote
its slot. -/
theorem setFile_current {T : Set Nat} {k₁ : Kernel Pointers} (h : Confined T ∅ k k₁)
    (hout : k.currentProcess.Outside T) (fd resource : Nat) :
    (k₁.setFile fd resource).pcb k.currentProcess =
      { k.current with files := Function.update k.current.files fd resource } := by
  have hcur := h.currentProcess
  have hpcb := h.pcb k.currentProcess (Set.notMem_empty _) hout
  simp only [Kernel.setFile, Kernel.mapGlobals_toGlobals]
  rw [hcur, Globals.modifyPcb_pcb_self, hpcb]
  rfl

/-- The writes to slot and record stay within the page of the record and the control block. -/
theorem confined_setFile {T : Set Nat} {k₁ : Kernel Pointers} (h : Confined T ∅ k k₁)
    (hj : pageAddress j ∈ T) (fd : Nat) (record : FatResource) :
    Confined T {k.currentProcess} k ((k₁.setFile fd (pageAddress j + VA_START)).setResource
      (pageAddress j + VA_START) record) := by
  have hset : Confined T {k.currentProcess} k₁ (k₁.setFile fd (pageAddress j + VA_START)) := by
    refine Confined.modifyPcb k₁ ?_ _
    rw [h.currentProcess]
    rfl
  exact ((h.mono subset_rfl (Set.empty_subset _)).trans hset).trans
    (Confined.setResource _ hj record)

theorem Opened.of_kernel (resourceType : ResourceType) (hfd : fd < MAX_FILES_PER_PROCESS)
    (hslot : k.current.files fd = 0) (hi : i < N_PAGES) (hj : j < N_PAGES) (hne : j ≠ i)
    (hifree : k.memory.memoryPages i = false) (hjfree : k.memory.memoryPages j = false)
    (hout : k.currentProcess.Outside {pageAddress i, pageAddress j}) :
    Opened resourceType fd i j k (k.opened resourceType fd i j) := by
  have htake : Confined {pageAddress i, pageAddress j} ∅ k ((k.takePage i).takePage j) :=
    (Confined.takePage k (by simp)).trans (Confined.takePage _ (by simp))
  refine ⟨hfd, hslot, hi, hj, hne, hifree, hjfree, confined_setFile htake (by simp) fd _,
    setFile_current htake hout fd (pageAddress j + VA_START), ?_, ?_, ?_, rfl⟩
  · rw [Kernel.opened, Kernel.setResource_record]
  · show ((k.takePage i).takePage j).memory.memoryPages i = true
    simp [Kernel.takePage_marks]
  · show ((k.takePage i).takePage j).memory.memoryPages j = true
    simp [Kernel.takePage_marks]

theorem Closed.of_kernel (hfd : fd < MAX_FILES_PER_PROCESS) (hi : i < N_PAGES) (hj : j < N_PAGES)
    (hjfree : j = i ∨ k.memory.memoryPages j = false)
    (hout : k.currentProcess.Outside {pageAddress i, pageAddress j}) :
    Closed fd i j k (k.closed fd i j) := by
  have htake : Confined {pageAddress i, pageAddress j} ∅ k ((k.returnPage i).takePage j) :=
    (Confined.freePage k (by simp)).trans (Confined.takePage _ (by simp))
  refine ⟨hfd, hi, hj, hjfree, confined_setFile htake (by simp) fd _,
    setFile_current htake hout fd (pageAddress j + VA_START), ?_, ?_, ?_, rfl⟩
  · rw [Kernel.closed, Kernel.setResource_record]
  · show ((k.returnPage i).takePage j).memory.memoryPages i = decide (j = i)
    rw [Kernel.takePage_marks, Kernel.returnPage_marks]
    by_cases hij : j = i <;> simp [hij, eq_comm]
    exact fun h ↦ hij h.symm
  · show ((k.returnPage i).takePage j).memory.memoryPages j = true
    simp [Kernel.takePage_marks]

end

end DemosOS
