import DemosOS.Mem.FailedExec

/-!
# The arguments in the new program

What `syscall_exec` leaves for the new program: the arguments at the top of the user stack, and the
trap frame that points to them.  The number of arguments comes from the caller, and is not checked
against the registers of the frame, nor against the kernel stack that the arguments are saved on.
-/

namespace DemosOS

open Lib Kernel

/-! ## The kernel stack -/

/-- The size of `struct pt_regs`, as `kernel_entry` reserves it. -/
def S_FRAME_SIZE : Nat := 272

/-- The size of `struct PCB`. -/
def PCB_SIZE : Nat := 1832

/-- The bytes of the kernel stack in use below the trap frame while `syscall_exec` runs, without
`safe_arguments`.  The frames of the functions are laid out by the compiler. -/
class KernelStack where
  frames : Nat

/-- The kernel stack is in the page of the control block, with the trap frame on top: there is room
for `safe_arguments`, with `n` rows, above the control block. -/
def StackSuffices [KernelStack] (n : Nat) : Prop :=
  PCB_SIZE + KernelStack.frames + n * SYSCALL_EXEC_ARGUMENT_DIMENSION + S_FRAME_SIZE ≤ THREAD_SIZE

/-! ## The trap frame -/

variable {k k' : Kernel Pointers} {arguments : List (List UInt8)}

theorem modifyCurrent_current (f : PCB → PCB) (k : Kernel Pointers) :
    (k.mapGlobals fun g ↦ g.modifyPcb g.currentProcess f).current = f k.current :=
  Globals.modifyPcb_pcb_self k.toGlobals k.currentProcess f

theorem setTrapFrame_current {i : Nat} (hi : i < 34) (value : Nat) (k : Kernel Pointers) :
    (k.setTrapFrame i value).current =
      { k.current with ptRegs := k.current.ptRegs.setWord i value } := by
  rw [Kernel.setTrapFrame, if_pos hi]
  exact modifyCurrent_current _ k

@[simp] theorem setTrapFrame_currentProcess (i value : Nat) (k : Kernel Pointers) :
    (k.setTrapFrame i value).currentProcess = k.currentProcess :=
  (ContentsOnly.setTrapFrame i value k).currentProcess

/-- The first sixteen pages of addresses of the current process are mapped. -/
def Kernel.Mapped (k : Kernel Pointers) : Prop :=
  ∀ va < 16 * PAGE_SIZE, ∃ x, k.translate k.currentProcess va = some x

theorem ContentsOnly.mapped (h : ContentsOnly k k') (hmapped : k.Mapped) : k'.Mapped := by
  intro va hva
  rw [h.translate, h.currentProcess]
  exact hmapped va hva

/-- Bytes at mapped addresses are stored, and no control block is written. -/
theorem storeBytes_returns {va : Nat} {l : List (UInt8 × Nat)} (hmapped : k.Mapped)
    (hva : ∀ e ∈ l, va + e.2 < 16 * PAGE_SIZE) :
    ∃ k', l.foldlM (fun (k : Kernel Pointers) (c, i) ↦ k.storeUserByte (va + i) c) k = some k' ∧
      k'.pcb = k.pcb := by
  induction l generalizing k with
  | nil => exact ⟨k, rfl, rfl⟩
  | cons e l ih =>
      obtain ⟨c, i⟩ := e
      obtain ⟨x, hx⟩ := hmapped _ (hva (c, i) List.mem_cons_self)
      have hfirst : k.storeUserByte (va + i) c = some (k.mapMemory (·.store x [c])) := by
        rw [Kernel.storeUserByte, hx]
        rfl
      obtain ⟨k', hk', hpcb⟩ := ih ((ContentsOnly.store k x [c]).mapped hmapped)
        fun e' he' ↦ hva e' (List.mem_cons_of_mem _ he')
      refine ⟨k', ?_, hpcb⟩
      rw [List.foldlM_cons]
      dsimp only
      rw [hfirst]
      exact hk'

/-- So is a string, with its terminator. -/
theorem storeUserString_returns {va : Nat} {body : List UInt8} (hmapped : k.Mapped)
    (hva : va + body.length < 16 * PAGE_SIZE) :
    ∃ k', k.storeUserString va body = some k' ∧ k'.pcb = k.pcb := by
  refine storeBytes_returns hmapped fun e he ↦ ?_
  have hlt := List.snd_lt_of_mem_zipIdx he
  simp only [List.length_append, List.length_singleton] at hlt
  omega

/-- The loop that passes the arguments on sets a register for each, and the rest of the frame is as
it was. -/
theorem passArguments_spec {i stackPointer : Nat} (hfits : Fits arguments) (hmapped : k.Mapped)
    (hi : i + arguments.length ≤ 30) (hsmall : stackPointer ≤ 16 * PAGE_SIZE)
    (hroom : arguments.length * SYSCALL_EXEC_ARGUMENT_DIMENSION ≤ stackPointer) :
    ∃ k', k.passArguments i stackPointer arguments =
        some (stackPointer - arguments.length * SYSCALL_EXEC_ARGUMENT_DIMENSION, k') ∧
      (∀ m ≤ i, k'.current.ptRegs.registers m = k.current.ptRegs.registers m) ∧
      ∀ j < arguments.length, k'.current.ptRegs.registers (i + j + 1) =
        stackPointer - (j + 1) * SYSCALL_EXEC_ARGUMENT_DIMENSION := by
  induction arguments generalizing k i stackPointer with
  | nil => exact ⟨k, by simp [Kernel.passArguments], fun _ _ ↦ rfl, nofun⟩
  | cons argument rest ih =>
      have hdim : SYSCALL_EXEC_ARGUMENT_DIMENSION = 64 := rfl
      have hpages : 16 * PAGE_SIZE = 65536 := rfl
      have hlen := (hfits argument List.mem_cons_self).1
      rw [List.length_cons] at hi hroom
      rw [Nat.succ_mul] at hroom
      have hpointer : (stackPointer + 2 ^ 64 - SYSCALL_EXEC_ARGUMENT_DIMENSION) % 2 ^ 64 =
          stackPointer - SYSCALL_EXEC_ARGUMENT_DIMENSION := by omega
      have htop : stackPointer - SYSCALL_EXEC_ARGUMENT_DIMENSION + argument.length <
          16 * PAGE_SIZE := by omega
      obtain ⟨k₁, hk₁, hpcb⟩ := storeUserString_returns hmapped htop
      have hcontents := (ContentsOnly.storeUserString hk₁).trans
        (.setTrapFrame (i + 1) (stackPointer - SYSCALL_EXEC_ARGUMENT_DIMENSION) k₁)
      have hcurrent : k₁.current = k.current := by
        rw [Globals.current, hpcb, (ContentsOnly.storeUserString hk₁).currentProcess]
        rfl
      have hbelow : stackPointer - SYSCALL_EXEC_ARGUMENT_DIMENSION ≤ 16 * PAGE_SIZE := by omega
      obtain ⟨k', hk', hkept, hset⟩ := ih (fun a ha ↦ hfits a (List.mem_cons_of_mem _ ha))
        (hcontents.mapped hmapped) (show i + 1 + rest.length ≤ 30 by omega) hbelow (by omega)
      rw [setTrapFrame_current (by omega), PtRegs.setWord, if_pos (by omega), hcurrent] at hkept
      refine ⟨k', ?_, fun m hm ↦ ?_, fun j hj ↦ ?_⟩
      · rw [Kernel.passArguments, hpointer, hk₁, Option.bind_eq_bind, Option.bind_some, hk',
          List.length_cons, Nat.succ_mul, Nat.sub_sub, Nat.add_comm (rest.length * _)]
      · rw [hkept m (by omega)]
        exact Function.update_of_ne (by omega) ..
      · cases j with
        | zero =>
            rw [Nat.add_zero, hkept (i + 1) le_rfl, Nat.zero_add, Nat.one_mul]
            exact Function.update_self ..
        | succ j =>
            have hj' : j < rest.length := Nat.lt_of_succ_lt_succ hj
            rw [← Nat.add_assoc, Nat.add_right_comm i j 1, hset j hj', Nat.sub_sub,
              Nat.succ_mul (j + 1),
              Nat.add_comm ((j + 1) * _)]

/-- The trap frame with which a program with `n` arguments starts. -/
structure StartsWith (n : Nat) (r : PtRegs) : Prop where
  count : r.registers 0 = n
  slots : ∀ i < n, r.registers (i + 1) =
    16 * PAGE_SIZE - (i + 1) * SYSCALL_EXEC_ARGUMENT_DIMENSION
  sp : r.sp = 16 * PAGE_SIZE - n * SYSCALL_EXEC_ARGUMENT_DIMENSION
  pc : r.pc = 0

/-- With registers for all arguments, the end of `syscall_exec` returns with the frame set up. -/
theorem passOn_spec (hfits : Fits arguments) (hmapped : k.Mapped) (hn : arguments.length ≤ 30) :
    ∃ k', k.passOn arguments = some k' ∧ StartsWith arguments.length k'.current.ptRegs := by
  have hfirst := ContentsOnly.setTrapFrame 0 arguments.length k
  have hroom : arguments.length * SYSCALL_EXEC_ARGUMENT_DIMENSION ≤ 16 * PAGE_SIZE := by
    unfold SYSCALL_EXEC_ARGUMENT_DIMENSION PAGE_SIZE
    omega
  obtain ⟨k₁, hk₁, hkept, hset⟩ :=
    passArguments_spec hfits (hfirst.mapped hmapped) ((Nat.zero_add _).trans_le hn) le_rfl hroom
  have hcount : k₁.current.ptRegs.registers 0 = arguments.length := by
    rw [hkept 0 le_rfl, setTrapFrame_current (by decide)]
    exact setRegister_registers _ 0 _
  rw [Kernel.passOn, hk₁]
  refine ⟨_, rfl, ?_⟩
  dsimp only
  rw [setTrapFrame_current (by decide), setTrapFrame_current (by decide), modifyCurrent_current]
  refine ⟨hcount, fun i hi ↦ ?_, rfl, rfl⟩
  have hslot := hset i hi
  rw [Nat.zero_add] at hslot
  exact hslot

/-! ## The other processes -/

section

variable {s : System} {data : List UInt8} {i : Nat}

/-- Reading the file has not written the control block of another process. -/
theorem Staged.pcb_of_run (h : s.Sound) {openError closeError : Int} {opened closed : FileResult}
    (hopened : s.kernel.syscallOpenFile openError = .ok opened) (hvalue : opened.value ≠ -1)
    (hi : i < N_PAGES) (hfree : opened.kernel.memory.memoryPages i = false)
    (hclosed : ((opened.kernel.takePage i).mapMemory
      (·.store (pageAddress i) data)).syscallCloseFile opened.value closeError = .ok closed)
    {p : PcbPtr} (hp : p ∈ s.live) (hne : p ≠ s.kernel.currentProcess) :
    closed.kernel.pcb p = s.kernel.pcb p := by
  obtain ⟨fd, fi, fj, hfd, hop⟩ := Opened.of_run h hopened hvalue
  obtain ⟨closed', j, hrun, hj, -, hconfined⟩ := hop.closes h hi hfree data closeError
  rw [← hfd] at hrun
  obtain rfl := Except.ok.inj (hrun.symm.trans hclosed)
  obtain ⟨hfresh, -, hstaged⟩ := hop.staged hi hfree
  have hopen : p.Outside {pageAddress fi, pageAddress fj} := h.outside hp <| by
    rintro a (rfl | rfl) hused
    · exact (hstaged _ hused).1 rfl
    · exact Memory.not_inUse hop.j_lt hop.j_free hused
  have htaken : p.Outside {pageAddress i} := h.outside hp <| by
    rintro a rfl
    exact hfresh
  have hclose : p.Outside {pageAddress fi, pageAddress j} := h.outside hp <| by
    rintro a (rfl | rfl) hused
    · exact (hstaged _ hused).1 rfl
    · obtain ⟨hafi, hin, -⟩ := hstaged _ hused
      rcases hj with rfl | hjfree
      · exact hafi rfl
      · obtain ⟨l, -, hsame, hmark⟩ := hin
        rw [← pageAddress_inj.mp hsame, hjfree] at hmark
        cases hmark
  refine (hconfined.pcb p hne hclose).trans ?_
  refine Eq.trans ?_ (hop.confined.pcb p hne hopen)
  exact (System.Sound.takePage_confined i).pcb p (Set.notMem_empty p) htaken

/-- The control blocks are out of reach of the code that maps the new pages. -/
theorem Staged.outside (h : s.Sound) (hstaged : Staged s data i k) {us ts : List Nat}
    (hspace : AddressSpace k.memory (k.pcb s.kernel.currentProcess).mm us ts) {p : PcbPtr}
    (hp : p ∈ s.live) : p.Outside (k.Reach (us ++ ts)) := by
  intro a ha
  refine Kernel.notMem_reach (hstaged.inUse a (h.control hp ha)) fun hmem ↦ ?_
  have hcontrol : s.Owns (.descriptor p .control) a := ⟨hp, ha⟩
  obtain ⟨o, ho, ⟨j, rfl⟩ | ⟨l, rfl⟩⟩ := hstaged.owns h hspace hmem
  · cases h.owned.exclusive.unique hcontrol ho
  · cases h.owned.exclusive.unique hcontrol ho

/-- So the second half of `syscall_exec` writes none but that of the caller. -/
theorem ImageReplaced.pcb {buffer size : Nat} {us ts us' ts' : List Nat} {k₁ k₂ : Kernel Pointers}
    (h : ImageReplaced s buffer size arguments us ts us' ts' k₁ k₂ k')
    (hframe : arguments.length ≤ 33) {p : PcbPtr} (hp : p.Outside (s.kernel.Reach (us ++ ts)))
    (hne : p ≠ s.kernel.currentProcess) : k'.pcb p = s.kernel.pcb p := by
  have hpages : p.Outside { a | a ∈ us } := fun a ha hmem ↦
    hp a ha (.inl (List.mem_append_left _ hmem))
  rw [(Delivered.passOn h.passed hframe).others p (h.currentProcess ▸ hne),
    h.extended.confined.pcb p hne hp, h.back.confined.pcb p hne hpages]

/-- The new pages are mapped when the arguments are passed on. -/
theorem ImageReplaced.mapped {buffer size : Nat} {us ts us' ts' : List Nat}
    {k₁ k₂ : Kernel Pointers}
    (h : ImageReplaced s buffer size arguments us ts us' ts' k₁ k₂ k') : k₂.Mapped := by
  intro va hva
  obtain ⟨hj, hx⟩ := h.extended.building.translate_page h.length hva
  rw [h.currentProcess]
  exact ⟨_, hx⟩

end

/-! ## Calls with any arguments -/

section

variable {s : System} {file : FatFile}

/-- A call that returns without arguments fails whatever its arguments are, or the file is staged
and has at most 15 pages. -/
theorem exec_ways (h : s.Sound) (hrun : (s.kernel.syscallExec file []).isSome) :
    (∃ r : ExecResult, r.value = -1 ∧ ∀ arguments, s.kernel.syscallExec file arguments = some r) ∨
    ∃ i k, Staged s file.delivered i k ∧
      (∀ p ∈ s.live, p ≠ s.kernel.currentProcess → k.pcb p = s.kernel.pcb p) ∧
      file.data.length ≤ PAGE_SIZE * 15 ∧
      ∀ arguments, Fits arguments → s.kernel.syscallExec file arguments =
        (k.replaceImage (pageAddress i) file.delivered.length arguments).bind fun k' ↦
          some ⟨0, some (pageAddress i), k'⟩ := by
  obtain hnone | ⟨opened, hopened, hway⟩ := syscallExec_ways s.kernel file
  · rw [hnone] at hrun
    cases hrun
  obtain ⟨-, hall⟩ | ⟨hvalue, i, hi, hfree, closed, hclosed, hway⟩ := hway
  · exact .inl ⟨_, rfl, hall⟩
  obtain ⟨-, hall⟩ | ⟨hlen, hall⟩ := hway
  · exact .inl ⟨_, rfl, hall⟩
  · refine .inr ⟨i, closed.kernel, .of_run h hopened hvalue hi hfree hclosed,
      fun p hp hne ↦ Staged.pcb_of_run h hopened hvalue hi hfree hclosed hp hne, ?_,
      fun arguments hfits ↦ ?_⟩
    · exact Nat.le_of_not_lt fun hlong ↦ Nat.not_le.mpr (delivered_long hlong) hlen
    · rw [hall, saveArguments_eq hfits, Option.bind_some]

end

/-! ## What the new program finds -/

/-- From `s` to `k'` a program has been started with the arguments: the frame counts them, each has
a register that points to its slot at the top of the user stack, where it is found with its
terminator, and the stack begins below.  Neither the page nor the control block of anybody else is
different, and the copies on the kernel stack have left the control block of the caller alone. -/
structure ArgumentsPassed [KernelStack] (s : System) (arguments : List (List UInt8))
    (k' : Kernel Pointers) : Prop where
  currentProcess : k'.currentProcess = s.kernel.currentProcess
  count : k'.current.ptRegs.registers 0 = arguments.length
  register : ∀ i < arguments.length, i + 1 < 31 ∧ k'.current.ptRegs.registers (i + 1) =
    16 * PAGE_SIZE - (i + 1) * SYSCALL_EXEC_ARGUMENT_DIMENSION
  string : ∀ i (hi : i < arguments.length) j (hj : j < (arguments[i] ++ [0]).length), ∃ x,
    k'.translate s.kernel.currentProcess (k'.current.ptRegs.registers (i + 1) + j) = some x ∧
    k'.memory.bytes x = (arguments[i] ++ [0])[j]
  stackPointer : ∀ i < arguments.length,
    k'.current.ptRegs.sp ≤ k'.current.ptRegs.registers (i + 1)
  programCounter : k'.current.ptRegs.pc = 0
  others : ∀ o a, s.Owns o a → (∀ j, o ≠ .userPage s.kernel.currentProcess j) →
    (∀ l, o ≠ .table s.kernel.currentProcess l) → ∀ x < PAGE_SIZE,
      k'.memory.bytes (a + x) = s.kernel.memory.bytes (a + x)
  controlBlocks : ∀ p ∈ s.live, p ≠ s.kernel.currentProcess → k'.pcb p = s.kernel.pcb p
  kernelStack : StackSuffices arguments.length

section

variable {s : System} {file : FatFile}

/-- With registers for the arguments and room on the kernel stack, a program of one page finds its
arguments if the call returns 0. -/
theorem exec_passes [KernelStack] (h : s.Sound) (hu : s.kernel.currentProcess ∈ s.user)
    (hdata : file.data.length ≤ PAGE_SIZE) (hfits : Fits arguments) (hn : arguments.length ≤ 30)
    (hstack : StackSuffices arguments.length) (hrun : (s.kernel.syscallExec file []).isSome) :
    ∃ r, s.kernel.syscallExec file arguments = some r ∧
      (r.value = 0 → ArgumentsPassed s arguments r.kernel) := by
  obtain ⟨r, hvalue, hfails⟩ | ⟨i, k, hstaged, hpcb, -, hall⟩ := exec_ways h hrun
  · refine ⟨r, hfails arguments, fun hzero ↦ ?_⟩
    rw [hvalue] at hzero
    cases hzero
  have hcur := hstaged.currentProcess
  have hmode : k.currentProcess ∈ s.user := by rwa [hcur]
  obtain ⟨us, ts, us', ts', k₁, k₂, hways⟩ :=
    ImageReplaced.of_sound hstaged.sound hmode (pageAddress i) file.delivered.length
  -- the new pages are there before the arguments are passed on
  obtain ⟨-, hmapped⟩ := hways []
  obtain ⟨hpages, hreplaced⟩ := hways arguments
  obtain ⟨k', hpassed, hframe⟩ := passOn_spec hfits (hmapped _ rfl).mapped hn
  have hexec : s.kernel.syscallExec file arguments = some ⟨0, some (pageAddress i), k'⟩ := by
    rw [hall arguments hfits, hpages.trans hpassed, Option.bind_some]
  refine ⟨_, hexec, fun _ ↦ ?_⟩
  have himage := hreplaced k' hpassed
  have hsmall := exec_small h hu hdata hfits (hn.trans (by decide)) hexec rfl
  have hlast : k'.currentProcess = s.kernel.currentProcess := by
    rw [(ContentsOnly.passOn hpassed).currentProcess, himage.currentProcess]
    exact hcur
  refine ⟨hlast, hframe.count, fun j hj ↦ ⟨by omega, hframe.slots j hj⟩, fun j hj l hl ↦ ?_,
    fun j hj ↦ ?_, hframe.pc, hsmall.others, fun p hp hne ↦ ?_, hstack⟩
  · dsimp only
    rw [hframe.slots j hj]
    exact hsmall.arguments j hj l hl
  · dsimp only
    rw [hframe.sp, hframe.slots j hj]
    exact Nat.sub_le_sub_left (Nat.mul_le_mul_right _ hj) _
  · have hspace := himage.space
    dsimp only at hspace
    rw [hcur] at hspace
    refine Eq.trans ?_ (hpcb p hp hne)
    exact himage.pcb (hn.trans (by decide)) (hstaged.outside h hspace hp)
      fun he ↦ hne (he.trans hcur)

/-- `syscall_exec` passes `n` arguments to a program of `len` bytes: wherever a call without
arguments comes to an end, the call with these fails, or returns 0 and has passed them. -/
def PassesArguments [KernelStack] (n len : Nat) : Prop :=
  ∀ (s : System) (file : FatFile) (arguments : List (List UInt8)), s.Sound →
    s.kernel.currentProcess ∈ s.user → file.data.length = len → Fits arguments →
    arguments.length = n → (s.kernel.syscallExec file []).isSome →
    ∃ r, s.kernel.syscallExec file arguments = some r ∧
      (r.value = 0 → ArgumentsPassed s arguments r.kernel)

/-- What a program of at most 15 pages needs in a state where the page behind the staging page has
been given away, when all arguments are empty. -/
theorem userRun_passes [KernelStack] {n len : Nat} (hpasses : PassesArguments n len)
    (hlen : len ≤ PAGE_SIZE * 15) : n ≤ 30 ∧ StackSuffices n ∧ len ≤ PAGE_SIZE := by
  let _ := someCode
  obtain ⟨s, hsound, hu, hheld, hzero, opened, read, hopened, hvalue, hfree, hpage, hread⟩ :=
    userRun_gap
  let file : FatFile := ⟨0, 0, List.replicate len 1, 0⟩
  have hdata : file.data.length = len := List.length_replicate
  obtain ⟨k₀, k₀', -, -, hrun⟩ := exec_returns hsound hu file hopened hvalue (by decide) hfree hpage
    hread (hdata.trans_le hlen)
  have hsome : (s.kernel.syscallExec file []).isSome := by
    rw [hrun]
    rfl
  have hfits : Fits (List.replicate n []) := by
    intro argument hargument
    rw [List.eq_of_mem_replicate hargument]
    exact ⟨by decide, List.not_mem_nil⟩
  obtain ⟨r, hr, hpassed⟩ := hpasses s file (List.replicate n []) hsound hu hdata hfits
    List.length_replicate hsome
  obtain ⟨r', hvalue', hfails⟩ | ⟨i, k, hstaged, -, -, hall⟩ := exec_ways hsound hsome
  · rw [hfails] at hrun
    obtain rfl := Option.some.inj hrun
    cases hvalue'
  -- the file is staged in the page 23
  rw [hall [] nofun] at hrun
  obtain ⟨k', -, hresult⟩ := Option.bind_eq_some_iff.mp hrun
  obtain rfl : i = 23 := by
    have hbuffer := congrArg ExecResult.buffer (Option.some.inj hresult)
    exact pageAddress_inj.mp (Option.some.inj hbuffer)
  rw [hall _ hfits] at hr
  obtain ⟨k', himage, hresult⟩ := Option.bind_eq_some_iff.mp hr
  obtain rfl := Option.some.inj hresult
  replace hpassed := hpassed rfl
  have hn : n ≤ 30 := by
    by_contra hlarge
    obtain ⟨hlt, -⟩ := hpassed.register 30 (by rw [List.length_replicate]; omega)
    exact absurd hlt (by decide)
  refine ⟨hn, ?_, ?_⟩
  · have hstack := hpassed.kernelStack
    rwa [List.length_replicate] at hstack
  · by_contra hlarge
    have hframe : (List.replicate n ([] : List UInt8)).length ≤ 33 := by
      rw [List.length_replicate]
      omega
    have hlong : PAGE_SIZE < len := Nat.lt_of_not_le hlarge
    rw [delivered_eq file (hdata.trans_le (hlen.trans (by decide)))] at hstaged himage
    have hbyte := hstaged.overrun hsound hu himage hframe (hlong.trans_eq hdata.symm) hheld
      nofun nofun
    have hkept := hpassed.others _ _ hheld nofun nofun 0 (by decide)
    rw [Nat.add_zero, hbyte, hzero, List.getD_eq_getElem?_getD,
      List.getElem?_replicate_of_lt hlong] at hkept
    cases hkept

end

end DemosOS
