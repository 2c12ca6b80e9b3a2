import DemosOS.Files.Calls
import DemosOS.Lib.Loop
import DemosOS.Mem.Ownership

/-!
# Loading a program

The ways through `syscall_exec`, and what passing the arguments on changes: the bytes of pages
and saved registers, but nothing of what the kernel keeps about its processes.
-/

namespace DemosOS

open Lib Kernel

/-- A control block without its saved registers. -/
def PCB.withoutRegisters (b : PCB) : PCB :=
  { b with
    cpuContext := PCB.zero.cpuContext
    ptRegs := PCB.zero.ptRegs
    preemptDisabled := 0 }

/-- From `k` to `k'` only the bytes of pages and saved registers have changed. -/
structure ContentsOnly (k k' : Kernel Pointers) : Prop where
  rest : { k'.toGlobals with pcb := k.pcb, memory := k.memory } = k.toGlobals
  queues : k'.queues = k.queues
  memory : { k'.memory with bytes := k.memory.bytes } = k.memory
  pcb : ∀ p, (k'.pcb p).withoutRegisters = (k.pcb p).withoutRegisters

namespace ContentsOnly

variable {k k₁ k' : Kernel Pointers}

theorem refl (k : Kernel Pointers) : ContentsOnly k k := ⟨rfl, rfl, rfl, fun _ ↦ rfl⟩

theorem trans (h : ContentsOnly k k₁) (h' : ContentsOnly k₁ k') : ContentsOnly k k' where
  rest := by
    have hrest := congrArg (fun g : Globals ↦ { g with pcb := k.pcb, memory := k.memory }) h'.rest
    exact hrest.trans h.rest
  queues := h'.queues.trans h.queues
  memory := by
    have hmemory := congrArg (fun m : Memory ↦ { m with bytes := k.memory.bytes }) h'.memory
    exact hmemory.trans h.memory
  pcb p := (h'.pcb p).trans (h.pcb p)

theorem modifyPcb (k : Kernel Pointers) (p : PcbPtr) {f : PCB → PCB}
    (hf : ∀ b, (f b).withoutRegisters = b.withoutRegisters) :
    ContentsOnly k (k.mapGlobals (·.modifyPcb p f)) :=
  ⟨rfl, rfl, rfl, fun q ↦ k.modifyPcb_field p q f PCB.withoutRegisters hf⟩

theorem store (k : Kernel Pointers) (destination : Nat) (data : List UInt8) :
    ContentsOnly k (k.mapMemory (·.store destination data)) := ⟨rfl, rfl, rfl, fun _ ↦ rfl⟩

theorem setTrapFrame (i value : Nat) (k : Kernel Pointers) :
    ContentsOnly k (k.setTrapFrame i value) := by
  unfold Kernel.setTrapFrame
  split_ifs
  · exact modifyPcb k _ fun _ ↦ rfl
  · split
    · exact refl k
    · exact store k _ _

theorem storeUserByte {virtualAddress : Nat} {c : UInt8}
    (h : k.storeUserByte virtualAddress c = some k') : ContentsOnly k k' := by
  obtain ⟨address, -, h⟩ := Option.bind_eq_some_iff.mp h
  rw [← Option.some.inj h]
  exact store k _ _

theorem storeUserString {virtualAddress : Nat} {body : List UInt8}
    (h : k.storeUserString virtualAddress body = some k') : ContentsOnly k k' := by
  unfold Kernel.storeUserString at h
  exact Lib.foldlM_rel refl trans storeUserByte h

theorem passArguments {i stackPointer : Nat} {arguments : List (List UInt8)}
    {r : Nat × Kernel Pointers} (h : k.passArguments i stackPointer arguments = some r) :
    ContentsOnly k r.2 := by
  induction arguments generalizing k i stackPointer with
  | nil =>
      rw [← Option.some.inj h]
      exact refl k
  | cons argument rest ih =>
      obtain ⟨k₁, hk₁, h⟩ := Option.bind_eq_some_iff.mp h
      exact ((storeUserString hk₁).trans (setTrapFrame _ _ _)).trans (ih h)

section

variable (h : ContentsOnly k k')
include h

theorem failures : k'.failures = k.failures := by
  have hfailures := congrArg Memory.failedAllocations h.memory
  exact hfailures

theorem currentProcess : k'.currentProcess = k.currentProcess := by
  have hcur := congrArg Globals.currentProcess h.rest
  exact hcur

theorem books : SameBooks k k' where
  mm p := by
    have hmm := congrArg PCB.mm (h.pcb p)
    exact hmm
  files p := by
    have hfiles := congrArg PCB.files (h.pcb p)
    exact hfiles
  marks := by
    have hmarks := congrArg Memory.memoryPages h.memory
    exact hmarks
  tables := by
    have htables := congrArg Memory.tables h.memory
    exact htables
  records := by
    have hrecords := congrArg Memory.fatResources h.memory
    exact hrecords

end

end ContentsOnly

/-! ## The ways through exec -/

/-- The end of `syscall_exec`, once the old pages are released and the program is loaded. -/
def Kernel.passOn (arguments : List (List UInt8)) (k : Kernel Pointers) :
    Option (Kernel Pointers) :=
  ((k.setTrapFrame 0 arguments.length).passArguments 0 (16 * PAGE_SIZE) arguments).bind fun r ↦
    let k := r.2.mapGlobals fun g ↦ g.modifyPcb g.currentProcess fun b ↦
      { b with cpuContext := { b.cpuContext with pc := 0, sp := r.1 } }
    some ((k.setTrapFrame 31 r.1).setTrapFrame 32 0)

section

variable {k k' : Kernel Pointers} {file : FatFile} {arguments : List (List UInt8)}
  {buffer size : Nat}

theorem replaceImage_eq (buffer size : Nat) (arguments : List (List UInt8)) (k : Kernel Pointers) :
    k.replaceImage buffer size arguments =
      (k.freeUserPages (List.range k.current.mm.nUserPages)).bind fun k ↦
      (k.copyCode k.currentProcess buffer size).bind (·.passOn arguments) := rfl

theorem ContentsOnly.passOn (h : k.passOn arguments = some k') : ContentsOnly k k' := by
  obtain ⟨r, hr, h⟩ := Option.bind_eq_some_iff.mp h
  obtain rfl := Option.some.inj h
  have hpassed := (setTrapFrame 0 arguments.length k).trans (passArguments hr)
  refine ((hpassed.trans ?_).trans (setTrapFrame 31 r.1 _)).trans (setTrapFrame 32 0 _)
  refine modifyPcb r.2 _ ?_
  exact fun _ ↦ rfl

/-- The bytes that the library delivers. -/
def Kernel.FatFile.delivered (file : FatFile) : List UInt8 := file.data.take (PAGE_SIZE * 16)

/-- The part of `syscall_exec` behind the allocation of the buffer. -/
def Kernel.loadFile (fileDescriptor : Int) (file : FatFile) (arguments : List (List UInt8))
    (buffer : Nat) (k : Kernel Pointers) : Option ExecResult :=
  (ignoring (k.syscallReadFile fileDescriptor file.readError)).bind fun k ↦
    if buffer = 0 then none
    else (ignoring ((k.mapMemory (·.store (buffer - VA_START) file.delivered)).syscallCloseFile
      fileDescriptor file.closeError)).bind fun k ↦
        if file.delivered.length > PAGE_SIZE * 15 then some ⟨-1, some (buffer - VA_START), k⟩
        else (saveArguments arguments).bind fun arguments ↦
          (k.replaceImage (buffer - VA_START) file.delivered.length arguments).bind fun k ↦
            some ⟨0, some (buffer - VA_START), k⟩

theorem syscallExec_eq {opened : FileResult} (h : k.syscallOpenFile file.openError = .ok opened) :
    k.syscallExec file arguments =
      if opened.value = -1 then some ⟨-1, none, opened.kernel⟩
      else opened.kernel.allocateKernelPage.2.loadFile opened.value file arguments
        opened.kernel.allocateKernelPage.1 := by
  rw [Kernel.syscallExec, h]
  rfl

/-- Reading changes nothing in the kernel. -/
theorem syscallReadFile_kernel {fileDescriptor error : Int} {r : FileResult}
    (h : k.syscallReadFile fileDescriptor error = .ok r) : r.kernel = k := by
  unfold Kernel.syscallReadFile at h
  cases hslot : k.fileSlot fileDescriptor with
  | error fault =>
      rw [hslot] at h
      cases h
  | ok resource =>
      rw [hslot] at h
      simp only [bind, Except.bind] at h
      cases hfollow : k.followResource resource with
      | error fault =>
          rw [hfollow] at h
          cases h
      | ok structure' =>
          rw [hfollow] at h
          simp only at h
          unfold requireStructure at h
          split_ifs at h
          rw [← Except.ok.inj h]

/-- The ways through `syscall_exec`, which do not depend on the arguments up to the point where these
are saved. -/
theorem syscallExec_ways (k : Kernel Pointers) (file : FatFile) :
    (∀ arguments, k.syscallExec file arguments = none) ∨
    ∃ opened, k.syscallOpenFile file.openError = .ok opened ∧
      ((opened.value = -1 ∧
        ∀ arguments, k.syscallExec file arguments = some ⟨-1, none, opened.kernel⟩) ∨
      (opened.value ≠ -1 ∧ ∃ i < N_PAGES, opened.kernel.memory.memoryPages i = false ∧ ∃ closed,
        ((opened.kernel.takePage i).mapMemory
          (·.store (pageAddress i) file.delivered)).syscallCloseFile opened.value file.closeError =
            .ok closed ∧
        ((file.delivered.length > PAGE_SIZE * 15 ∧ ∀ arguments,
          k.syscallExec file arguments = some ⟨-1, some (pageAddress i), closed.kernel⟩) ∨
        (file.delivered.length ≤ PAGE_SIZE * 15 ∧ ∀ arguments, k.syscallExec file arguments =
          (saveArguments arguments).bind fun saved ↦
            (closed.kernel.replaceImage (pageAddress i) file.delivered.length saved).bind fun k' ↦
              some ⟨0, some (pageAddress i), k'⟩)))) := by
  cases hopen : k.syscallOpenFile file.openError with
  | error fault =>
      refine .inl fun arguments ↦ ?_
      rw [Kernel.syscallExec, hopen]
  | ok opened =>
      by_cases hvalue : opened.value = -1
      · refine .inr ⟨opened, rfl, .inl ⟨hvalue, fun arguments ↦ ?_⟩⟩
        rw [syscallExec_eq hopen, if_pos hvalue]
      have hload : ∀ arguments, k.syscallExec file arguments =
          opened.kernel.allocateKernelPage.2.loadFile opened.value file arguments
            opened.kernel.allocateKernelPage.1 := by
        intro arguments
        rw [syscallExec_eq hopen, if_neg hvalue]
      obtain ⟨i, hi, hfree, address, rfl, hne, hpage⟩ | ⟨-, hpage⟩ :=
        opened.kernel.allocateKernelPage_cases
      · rw [hpage] at hload
        dsimp only at hload
        cases hread : (opened.kernel.takePage i).syscallReadFile opened.value file.readError with
        | error fault =>
            refine .inl fun arguments ↦ ?_
            rw [hload, Kernel.loadFile, hread]
            rfl
        | ok read =>
            have hignored : ignoring ((opened.kernel.takePage i).syscallReadFile opened.value
                file.readError) = some (opened.kernel.takePage i) := by
              rw [hread, ← syscallReadFile_kernel hread]
              rfl
            simp only [Kernel.loadFile, hignored, Option.bind_some, if_neg hne,
              Nat.add_sub_cancel] at hload
            cases hclose : ((opened.kernel.takePage i).mapMemory
                (·.store (pageAddress i) file.delivered)).syscallCloseFile opened.value
                  file.closeError with
            | error fault =>
                refine .inl fun arguments ↦ ?_
                rw [hload, hclose]
                rfl
            | ok closed =>
                simp only [hclose, ignoring, Option.bind_some] at hload
                refine .inr ⟨opened, rfl, .inr ⟨hvalue, i, hi, hfree, closed, hclose, ?_⟩⟩
                by_cases hlarge : file.delivered.length > PAGE_SIZE * 15
                · refine .inl ⟨hlarge, fun arguments ↦ ?_⟩
                  rw [hload, if_pos hlarge]
                · refine .inr ⟨Nat.le_of_not_lt hlarge, fun arguments ↦ ?_⟩
                  rw [hload, if_neg hlarge]
      · -- without a page the buffer is `NULL`
        refine .inl fun arguments ↦ ?_
        rw [hload, hpage]
        exact Option.bind_eq_none_iff.mpr fun _ _ ↦ if_pos rfl

/-- The way of a call that returns. -/
theorem syscallExec_cases {r : ExecResult} (h : k.syscallExec file arguments = some r) :
    ∃ opened, k.syscallOpenFile file.openError = .ok opened ∧
      ((opened.value = -1 ∧ r = ⟨-1, none, opened.kernel⟩) ∨
      (opened.value ≠ -1 ∧ ∃ i < N_PAGES, opened.kernel.memory.memoryPages i = false ∧ ∃ closed,
        ((opened.kernel.takePage i).mapMemory
          (·.store (pageAddress i) file.delivered)).syscallCloseFile opened.value file.closeError =
            .ok closed ∧
        ((file.delivered.length > PAGE_SIZE * 15 ∧ r = ⟨-1, some (pageAddress i), closed.kernel⟩) ∨
        (file.delivered.length ≤ PAGE_SIZE * 15 ∧ ∃ saved k', saveArguments arguments = some saved ∧
          closed.kernel.replaceImage (pageAddress i) file.delivered.length saved = some k' ∧
          r = ⟨0, some (pageAddress i), k'⟩)))) := by
  obtain hnone | ⟨opened, hopened, hway⟩ := syscallExec_ways k file
  · rw [hnone] at h
    cases h
  refine ⟨opened, hopened, ?_⟩
  obtain ⟨hvalue, hall⟩ | ⟨hvalue, i, hi, hfree, closed, hclosed, hway⟩ := hway
  · rw [hall] at h
    exact .inl ⟨hvalue, (Option.some.inj h).symm⟩
  refine .inr ⟨hvalue, i, hi, hfree, closed, hclosed, ?_⟩
  obtain ⟨hlarge, hall⟩ | ⟨hsmall, hall⟩ := hway
  · rw [hall] at h
    exact .inl ⟨hlarge, (Option.some.inj h).symm⟩
  · rw [hall] at h
    obtain ⟨saved, hsaved, h⟩ := Option.bind_eq_some_iff.mp h
    obtain ⟨k', himage, h⟩ := Option.bind_eq_some_iff.mp h
    exact .inr ⟨hsmall, saved, k', hsaved, himage, (Option.some.inj h).symm⟩

end

end DemosOS
