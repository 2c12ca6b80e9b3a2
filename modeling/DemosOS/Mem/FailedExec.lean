import DemosOS.Files.Opening
import DemosOS.Kernel.Dispatcher
import DemosOS.Mem.AllOrNothing
import DemosOS.Mem.Replacement

/-!
# An exec that fails

`syscall_exec` returns `-1` for a program that it does not load, but its branch in
`syscall_dispatcher` is the only one of an `int` call that does not store the result, so that
the caller finds its own argument in `registers[0]`.  A file that is too long has by then been
opened, read and closed: the staging page and the record of the closed file stay in use.
-/

namespace DemosOS

open Lib Kernel

/-- The program is not loaded: no descriptor is free, the file cannot be opened, or it has more
than 15 pages. -/
def Kernel.NotReplaced (k : Kernel Pointers) (file : FatFile) : Prop :=
  (∀ fd < MAX_FILES_PER_PROCESS, k.current.files fd ≠ 0) ∨ file.openError ≠ 0 ∨
    PAGE_SIZE * 15 < file.data.length

/-- From `k` to `k'` the caller has been told `-1`, and nothing of what it has is different. -/
structure NoEffect (k k' : Kernel Pointers) : Prop where
  currentProcess : k'.currentProcess = k.currentProcess
  frame : k'.current.ptRegs = k.current.ptRegs.setRegister 0 (asRegister (-1))
  translate : ∀ virtualAddress,
    k'.translate k.currentProcess virtualAddress = k.translate k.currentProcess virtualAddress
  image : ∀ virtualAddress x, k.translate k.currentProcess virtualAddress = some x →
    k'.memory.bytes x = k.memory.bytes x
  mm : k'.current.mm = k.current.mm
  files : k'.current.files = k.current.files
  bitmap : k'.memory.memoryPages = k.memory.memoryPages

theorem setRegister_registers (r : PtRegs) (i value : Nat) :
    (r.setRegister i value).registers i = value := Function.update_self ..

theorem setRegister_self {r : PtRegs} {i value : Nat} (h : r.registers i = value) :
    r.setRegister i value = r := by
  rw [PtRegs.setRegister, ← h, Function.update_eq_self]

section

variable {k k' : Kernel Pointers} {file : FatFile} {arguments : List (List UInt8)}

/-- A branch that does not touch the trap frame leaves the value that was there. -/
theorem NoEffect.register (h : NoEffect k k') (hpcb : k'.pcb k.currentProcess = k.current) :
    k.current.ptRegs.registers 0 = asRegister (-1) := by
  have hframe := h.frame
  rw [Globals.current, h.currentProcess, hpcb] at hframe
  rw [hframe]
  exact setRegister_registers _ 0 _

/-- Without a free descriptor nothing has happened. -/
theorem syscallExec_full (hfull : ∀ fd < MAX_FILES_PER_PROCESS, k.current.files fd ≠ 0) :
    k.syscallExec file arguments = some ⟨-1, none, k⟩ := by
  have hopen : k.syscallOpenFile file.openError = .ok ⟨-1, [], k⟩ := by
    rw [Kernel.syscallOpenFile, Kernel.openResource,
      Kernel.getFirstFreeFileDescriptor_eq_none.mpr hfull]
  rw [syscallExec_eq hopen, if_pos rfl]

/-- Where the file cannot be opened, a page has been taken and given back. -/
theorem syscallExec_error {fd : Nat}
    (hfd : k.getFirstFreeFileDescriptor k.currentProcess = some fd) (herror : file.openError ≠ 0)
    (hfree : 1 ≤ k.memory.free) : ∃ i < N_PAGES, k.memory.memoryPages i = false ∧
      ∀ arguments, k.syscallExec file arguments = some ⟨-1, none, (k.takePage i).returnPage i⟩ := by
  obtain ⟨i, hi, hmark, address, rfl, hne, hpage⟩ | ⟨hfull, -⟩ := k.allocateKernelPage_cases
  · refine ⟨i, hi, hmark, fun arguments ↦ ?_⟩
    have hopen : k.syscallOpenFile file.openError =
        .ok ⟨-1, [.fileOpen (pageAddress i + VA_START)], (k.takePage i).returnPage i⟩ := by
      rw [Kernel.syscallOpenFile, Kernel.openResource, hfd]
      dsimp only
      rw [hpage]
      dsimp only
      rw [if_neg hne, if_pos herror, releasePage_page hi]
      rfl
    rw [syscallExec_eq hopen, if_pos rfl]
  · omega

end

/-! ## What is left of a failed call -/

section

variable {s : System} {file : FatFile} {arguments : List (List UInt8)}

/-- A page that is taken and given back makes no difference to the caller. -/
theorem NoEffect.of_returned (h : s.Sound) {i : Nat} (hi : i < N_PAGES)
    (hfree : s.kernel.memory.memoryPages i = false)
    (hzero : s.kernel.current.ptRegs.registers 0 = asRegister (-1)) :
    NoEffect s.kernel ((s.kernel.takePage i).returnPage i) := by
  have hconfined := Confined.takePage_returnPage s.kernel i
  have hpcb := h.takePage_returnPage_pcb hi hfree h.current_live
  have hcur := hconfined.currentProcess
  have hcurrent : ((s.kernel.takePage i).returnPage i).current = s.kernel.current := by
    rw [Globals.current, hcur]
    exact hpcb
  have hout : ∀ a ∈ ({pageAddress i} : Set Nat), ¬ s.kernel.memory.InUse a :=
    (takePage_free_confined hi hfree).2
  refine ⟨hcur, ?_, fun va ↦ ?_, fun va x hx ↦ ?_, ?_, ?_, takePage_returnPage_marks hfree⟩
  · rw [hcurrent, setRegister_self hzero]
  · exact translate_congr (hconfined.leafEntry hout (h.tablesWellFormed h.current_live)
      (by rw [hpcb]) va)
  · -- the image of the caller is in pages that are in use
    obtain ⟨j, hown⟩ := h.owns_leaf h.current_live hx
    have hused := h.owned.exclusive.used hown
    have hle : va % PAGE_SIZE ≤ x := by
      rw [Kernel.translate, walk_eq] at hx
      split_ifs at hx
      simp only [Option.bind_eq_some_iff, Option.some.injEq] at hx
      obtain ⟨_, -, _, -, _, -, _, -, rfl⟩ := hx
      exact Nat.le_add_left _ _
    have hkept := hconfined.bytes_page hused.isPage (fun hmem ↦ hout _ hmem hused)
      (Nat.mod_lt va (by decide))
    rwa [Nat.sub_add_cancel hle] at hkept
  · rw [hcurrent]
  · rw [hcurrent]

/-- A file that is too long leaves the staging page behind. -/
theorem not_noEffect_of_long (h : s.Sound) {opened closed : FileResult} {i : Nat}
    (hopened : s.kernel.syscallOpenFile file.openError = .ok opened) (hvalue : opened.value ≠ -1)
    (hi : i < N_PAGES) (hfree : opened.kernel.memory.memoryPages i = false)
    (hclosed : ((opened.kernel.takePage i).mapMemory
      (·.store (pageAddress i) file.delivered)).syscallCloseFile opened.value file.closeError =
        .ok closed) : ¬ NoEffect s.kernel closed.kernel := by
  intro hnone
  have hstaged := Staged.of_run h hopened hvalue hi hfree hclosed
  have hheld : Kernel.Owns closed.kernel
      (System.mk closed.kernel (s.held ++ [pageAddress i]) s.user).live
      (s.held ++ [pageAddress i]) (.held s.held.length) (pageAddress i) := by
    show (s.held ++ [pageAddress i])[s.held.length]? = some _
    exact List.getElem?_concat_length
  have hused := hstaged.sound.owned.exclusive.used hheld
  have hstill : s.kernel.memory.InUse (pageAddress i) := by
    rw [Memory.inUse_page hi, ← hnone.bitmap]
    exact (Memory.inUse_page hi).mp hused
  exact hstaged.fresh hstill

/-- The bytes delivered are more than 15 pages if the file is. -/
theorem delivered_long (hlen : PAGE_SIZE * 15 < file.data.length) :
    PAGE_SIZE * 15 < file.delivered.length := by
  rw [Kernel.FatFile.delivered, List.length_take]
  exact lt_min (by decide) hlen

/-- A call that does not load its program has no effect only if there was nothing to undo, and the
caller finds `-1` in its register only if it was there before. -/
theorem NoEffect.condition (h : s.Sound) (hnot : s.kernel.NotReplaced file) {r : ExecResult}
    (hrun : s.kernel.syscallExec file arguments = some r) (hnone : NoEffect s.kernel r.kernel) :
    s.kernel.current.ptRegs.registers 0 = asRegister (-1) ∧
      ((∀ fd < MAX_FILES_PER_PROCESS, s.kernel.current.files fd ≠ 0) ∨
        (file.openError ≠ 0 ∧ 1 ≤ s.kernel.memory.free)) := by
  obtain ⟨opened, hopened, ⟨hvalue, rfl⟩ | ⟨hvalue, i, hi, hfree, closed, hclosed, hcase⟩⟩ :=
    syscallExec_cases hrun
  · obtain ⟨hfull, rfl⟩ | ⟨fd, i, -, hi, hfree, hcase⟩ := Kernel.openResource_cases hopened
    · exact ⟨hnone.register rfl, .inl (Kernel.getFirstFreeFileDescriptor_eq_none.mp hfull)⟩
    · obtain ⟨herror, rfl⟩ | ⟨-, j, -, -, -, rfl⟩ := hcase
      · have hcount := takePage_free hi hfree
        exact ⟨hnone.register (h.takePage_returnPage_pcb hi hfree h.current_live),
          .inr ⟨herror, by omega⟩⟩
      · exact absurd hvalue (by simp)
  · exfalso
    obtain ⟨-, rfl⟩ | ⟨hshort, -⟩ := hcase
    · exact not_noEffect_of_long h hopened hvalue hi hfree hclosed hnone
    · -- the program has been replaced
      obtain ⟨-, rfl⟩ | ⟨fd, j, hfd, -, -, hcase⟩ := Kernel.openResource_cases hopened
      · exact hvalue rfl
      obtain ⟨-, rfl⟩ | ⟨herror, -⟩ := hcase
      · exact hvalue rfl
      obtain ⟨hlt, hslot⟩ := Kernel.getFirstFreeFileDescriptor_eq_some hfd
      rcases hnot with hfull | hne | hlong
      · exact hfull fd hlt hslot
      · exact hne herror
      · exact Nat.not_le.mpr (delivered_long hlong) hshort

end

/-- An exec that does not load its program reports that, and has no effect, exactly if the caller's
first register, the path, is `-1` already, and the table of descriptors is full or the file cannot
be opened. -/
theorem failedExec_iff [KernelCode] {s : System} (h : s.Sound) (file : FatFile)
    (arguments : List (List UInt8)) (hnot : s.kernel.NotReplaced file) :
    (∃ k', s.kernel.syscallDispatcher (.exec file arguments) = some k' ∧ NoEffect s.kernel k') ↔
      s.kernel.current.ptRegs.registers 0 = asRegister (-1) ∧
        ((∀ fd < MAX_FILES_PER_PROCESS, s.kernel.current.files fd ≠ 0) ∨
          (file.openError ≠ 0 ∧ 1 ≤ s.kernel.memory.free)) := by
  have hbranch : s.kernel.syscallDispatcher (.exec file arguments) =
      (s.kernel.syscallExec file arguments).bind fun r ↦ some r.kernel := rfl
  rw [hbranch]
  constructor
  · rintro ⟨k', hrun, hnone⟩
    obtain ⟨r, hr, hk'⟩ := Option.bind_eq_some_iff.mp hrun
    obtain rfl := Option.some.inj hk'
    exact NoEffect.condition h hnot hr hnone
  · rintro ⟨hzero, hcase⟩
    by_cases hfull : ∀ fd < MAX_FILES_PER_PROCESS, s.kernel.current.files fd ≠ 0
    · rw [syscallExec_full hfull]
      refine ⟨s.kernel, rfl, rfl, ?_, fun _ ↦ rfl, fun _ _ _ ↦ rfl, rfl, rfl, rfl⟩
      rw [setRegister_self hzero]
    · obtain ⟨herror, hfree⟩ := hcase.resolve_left hfull
      cases hfd : s.kernel.getFirstFreeFileDescriptor s.kernel.currentProcess with
      | none => exact absurd (Kernel.getFirstFreeFileDescriptor_eq_none.mp hfd) hfull
      | some fd =>
          obtain ⟨i, hi, hmark, hrun⟩ := syscallExec_error hfd herror hfree
          rw [hrun arguments]
          exact ⟨_, rfl, .of_returned h hi hmark hzero⟩

/-- The state, when the caller has put a value in its first register. -/
def System.withArgument (s : System) (value : Nat) : System :=
  ⟨s.kernel.mapGlobals fun g ↦ g.modifyPcb g.currentProcess fun b ↦
    { b with ptRegs := b.ptRegs.setRegister 0 value }, s.held, s.user⟩

theorem System.Sound.withArgument {s : System} (h : s.Sound) (value : Nat) :
    (s.withArgument value).Sound :=
  h.modifyCurrent fun _ ↦ rfl

theorem System.withArgument_register (s : System) (value : Nat) :
    (s.withArgument value).kernel.current.ptRegs.registers 0 = value := by
  have hpcb := Globals.modifyPcb_pcb_self s.kernel.toGlobals s.kernel.currentProcess fun b ↦
    { b with ptRegs := b.ptRegs.setRegister 0 value }
  exact (congrArg (fun b : PCB ↦ b.ptRegs.registers 0) hpcb).trans (setRegister_registers _ 0 value)

/-- The path is `-1`, and no such file is found. -/
theorem failedExec_iff_boot : let _ := someCode
    let s := (System.boot .roundRobin fun _ ↦ 0).withArgument (asRegister (-1))
    ∃ k', s.kernel.syscallDispatcher (.exec ⟨-5, 0, [], 0⟩ []) =
    some k' ∧ NoEffect s.kernel k' := by
  intro _ s
  have hsound : s.Sound := (System.boot_sound .roundRobin fun _ ↦ 0).withArgument (asRegister (-1))
  have hpages : 1 ≤ s.kernel.memory.free :=
    Nat.le_of_succ_le (two_le_boot_free .roundRobin fun _ ↦ 0)
  exact (failedExec_iff hsound ⟨-5, 0, [], 0⟩ [] (.inr (.inl (by decide)))).mpr
    ⟨System.withArgument_register _ _, .inr ⟨by decide, hpages⟩⟩

/-- A process in user mode executes a file that is not found: it does not get `-1`. -/
theorem failedExec_false : let _ := someCode; ¬ ∀ s : System, s.Sound →
    s.kernel.currentProcess ∈ s.user → ∀ file arguments, s.kernel.NotReplaced file →
      ∃ k', s.kernel.syscallDispatcher (.exec file arguments) = some k' ∧ NoEffect s.kernel k' := by
  intro _ hall
  obtain ⟨s, hreach, hu, -⟩ := userRun_free (le_refl 21)
  have hsound := hreach.sound.withArgument 0x2000
  have hnot : (s.withArgument 0x2000).kernel.NotReplaced ⟨-5, 0, [], 0⟩ := .inr (.inl (by decide))
  obtain ⟨hregister, -⟩ :=
    (failedExec_iff hsound ⟨-5, 0, [], 0⟩ [] hnot).mp (hall _ hsound hu _ [] hnot)
  rw [System.withArgument_register] at hregister
  exact absurd hregister (by decide)

end DemosOS
