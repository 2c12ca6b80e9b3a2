import DemosOS.Kernel.Messages
import DemosOS.Mem.Isolation
import DemosOS.Sched.Rendezvous

/-!
# The child of a fork

What `copy_process(0, 0, 0)` does for a process in user mode when there is room for a child: the
child has the registers of its parent, and at every address that is mapped the bytes of its
parent, in pages of its own; and the parent does not notice.
-/

namespace DemosOS

open Lib Kernel

/-- From `s` to `s'` the current process has got the child `c`. -/
structure Forked (s s' : System) (c : PcbPtr) : Prop where
  fresh : c ∉ s.live
  live : ∀ p, p ∈ s'.live ↔ p = c ∨ p ∈ s.live
  pid : (s'.kernel.pcb c).pid = s.kernel.nProcesses
  pid_fresh : ∀ p ∈ s.live, (s.kernel.pcb p).pid ≠ s.kernel.nProcesses
  /-- An address of the parent is mapped to a page of the child that nobody owned before and
  nobody else owns now, with the same byte. -/
  mapped : ∀ virtualAddress a,
    s.kernel.translate s.kernel.currentProcess virtualAddress = some a →
    ∃ a', s'.kernel.translate c virtualAddress = some a' ∧
      s'.kernel.memory.bytes a' = s.kernel.memory.bytes a ∧
      a' - virtualAddress % PAGE_SIZE ≠ a - virtualAddress % PAGE_SIZE ∧
      (∀ o, ¬ s.Owns o (a' - virtualAddress % PAGE_SIZE)) ∧
      ∃ j, ∀ o, s'.Owns o (a' - virtualAddress % PAGE_SIZE) ↔ o = .userPage c j
  unmapped : ∀ virtualAddress,
    s.kernel.translate s.kernel.currentProcess virtualAddress = none →
    s'.kernel.translate c virtualAddress = none
  registers : (s'.kernel.pcb c).ptRegs = s.kernel.current.ptRegs.setRegister 0 0
  files : (s'.kernel.pcb c).files = fun _ ↦ 0
  ring : s'.kernel.RingEmpty c
  signals : (s'.kernel.pcb c).pendingSignals = 0
  priority : (s'.kernel.pcb c).priority = s.kernel.current.priority
  tickets : (s'.kernel.pcb c).tickets = s.kernel.current.tickets
  queuePriority : (s'.kernel.pcb c).queuePriority = s.kernel.current.queuePriority
  estBurst : (s'.kernel.pcb c).estBurst = s.kernel.current.estBurst
  ready : (s'.kernel.pcb c).state = .ready
  linked : s'.kernel.LinkedOnce c
  current : s'.kernel.currentProcess = s.kernel.currentProcess
  parent : s'.kernel.current = s.kernel.current
  parent_mapped : ∀ virtualAddress, s'.kernel.translate s.kernel.currentProcess virtualAddress =
    s.kernel.translate s.kernel.currentProcess virtualAddress
  parent_bytes : ∀ virtualAddress a,
    s.kernel.translate s.kernel.currentProcess virtualAddress = some a →
    s'.kernel.memory.bytes a = s.kernel.memory.bytes a

/-! ## Address spaces -/

/-- The list of the user pages determines them. -/
theorem AddressSpace.userPages_unique {m m' : Memory} {mm : MmStruct} {us us' ts ts' : List Nat}
    (h : AddressSpace m mm us ts) (h' : AddressSpace m' mm us' ts') : us = us' := by
  refine List.ext_getElem (h.nUserPages.symm.trans h'.nUserPages) fun j hj hj' ↦ ?_
  exact (UserPage.mk.inj ((h.userPages j hj).symm.trans (h'.userPages j hj'))).1

namespace System.Sound

variable {s : System} {p : PcbPtr}

/-- The addresses of a process in user mode, by its list of user pages. -/
theorem translate_eq_some (h : s.Sound) (hp : p ∈ s.user) {us ts : List Nat} {m : Memory}
    (hspace : AddressSpace m (s.kernel.pcb p).mm us ts) (virtualAddress a : Nat) :
    s.kernel.translate p virtualAddress = some a ↔ ∃ j, ∃ hj : j < us.length,
      j * PAGE_SIZE + virtualAddress % PAGE_SIZE = virtualAddress % 2 ^ 48 ∧
        a = us[j] + virtualAddress % PAGE_SIZE := by
  obtain ⟨us', ts', hus, hts, -, hused, hspace'⟩ := h.fullSpace hp
  obtain rfl := hspace.userPages_unique hspace'
  exact hspace'.walk_eq_some hused hts hus

/-! ## The copy -/

section

variable [KernelCode]

/-- The steps of `copy_process`, up to `preempt_enable`: the page `i` of the control block, the
copy of the memory, which ends in `k₂`, and the registration, which ends in `k'`. -/
structure Copied (s : System) (i : Nat) (us us' : List Nat) (k₂ k' : Kernel Pointers) : Prop where
  page : i < N_PAGES
  free : s.kernel.memory.memoryPages i = false
  space : ∃ ts, AddressSpace (s.kernel.takePage i).memory
    ((s.kernel.takePage i).pcb s.kernel.currentProcess).mm us ts
  extended : ∃ ts', Extended ((s.kernel.takePage i).Reach []) (.page i)
    (((s.kernel.takePage i).copyRegisters (.page i)).pcb (.page i)).outsideMm (s.kernel.takePage i)
    [] us.length us' ts' k₂
  filled : Filled (fun j x ↦ (s.kernel.takePage i).memory.bytes (us.getD j 0 + x))
    (s.kernel.takePage i) 0 us' k₂
  registered : Registered (.page i) (k₂.completeChild 0 (pageAddress i + VA_START) (.page i)) k'
  known : ∀ p, k'.Known p ↔ p = .page i ∨ p ∈ s.live
  sound : Sound ⟨k', s.held, insert (.page i) s.user⟩

theorem createProcess_copies (h : s.Sound) (hu : s.kernel.currentProcess ∈ s.user)
    (hroom : s.kernel.nProcesses < N_PROCESSES) (hfree : 21 ≤ s.kernel.memory.free) :
    ∃ i us us' k₂ k', s.kernel.createProcess 0 0 0 = some ((s.kernel.nProcesses : Int), k') ∧
      k'.failures = s.kernel.failures ∧ Copied s i us us' k₂ k' := by
  rw [createProcess_eq]
  obtain ⟨i, hi, hmark, buffer, hbuffer, hne, hpage⟩ | ⟨hfull, hpage⟩ :=
    s.kernel.allocateKernelPage_cases
  · obtain ⟨hnew, howned⟩ := h.owned.adopt hi hmark
    have hcount := takePage_free hi hmark
    have hparent : PcbPtr.page i ≠ s.kernel.currentProcess := fun he ↦ hnew (he ▸ h.current_live)
    obtain ⟨us, ts, hus, hspace⟩ := howned.full _ (.inr h.current_live) hu
    have htakes : Takes _ id (s.kernel.takePage i)
        ((s.kernel.takePage i).prepareChild 0 0 0 (.page i)) _ :=
      howned.prepareChild_copy (.inr h.current_live) (.inl rfl) hparent
        (howned.empty _ (.inl rfl) fun hin ↦ hnew (h.owned.users hin)) hspace rfl
    have henough : pagesNeeded us.length 0 ≤ (s.kernel.takePage i).memory.free := by
      rw [hus, show pagesNeeded MAX_PROCESS_PAGES 0 = 20 from rfl]
      omega
    obtain ⟨k₂, hk₂, hsame, -, us', ts', hext, hfill⟩ := htakes.enough henough
    obtain ⟨k', hk', hregistered, hknown, hsound⟩ := h.createChild hi hmark hroom hk₂ hsame
    have husers : { p | p ∈ s.user ∨ 0 &&& PF_KTHREAD = 0 ∧ s.kernel.currentProcess ∈ s.user ∧
        p = .page i } = insert (.page i) s.user := by
      ext p
      simp [hu, or_comm]
    rw [husers] at hsound
    have hfailures : k'.failures = k₂.failures :=
      congrArg Memory.failedAllocations hregistered.memory
    refine ⟨i, us, us', k₂, k', ?_, hfailures.trans hsame,
      ⟨hi, hmark, ⟨ts, hspace⟩, ⟨ts', hext⟩, hfill, hregistered, hknown, hsound⟩⟩
    have hguard : ¬ (buffer = 0 ∨ (s.kernel.takePage i).nProcesses ≥ N_PROCESSES) :=
      not_or.mpr ⟨hne, Nat.not_le.mpr hroom⟩
    rw [hpage]
    dsimp only
    rw [if_neg hguard, hbuffer]
    exact hk'
  · omega

end

end System.Sound

namespace System.Sound.Copied

variable [KernelCode] {s : System} {i : Nat} {us us' : List Nat} {k₂ k' : Kernel Pointers}

theorem new (h : s.Sound) (hc : Copied s i us us' k₂ k') : .page i ∉ s.live :=
  (h.owned.adopt hc.page hc.free).1

theorem length (hc : Copied s i us us' k₂ k') : us'.length = us.length := by
  obtain ⟨ts', hext⟩ := hc.extended
  exact hext.length.trans (Nat.zero_add _)

theorem memory (hc : Copied s i us us' k₂ k') : k'.memory = k₂.memory := hc.registered.memory

theorem taken_pcb (h : s.Sound) (hc : Copied s i us us' k₂ k') :
    (s.kernel.takePage i).pcb s.kernel.currentProcess = s.kernel.current := by
  refine (takePage_confined (k := s.kernel) i).pcb _ (Set.notMem_empty _) ?_
  exact h.outside_free h.current_live hc.page hc.free

/-- The list of the parent's pages. -/
theorem parent_space (h : s.Sound) (hc : Copied s i us us' k₂ k') :
    ∃ m ts, AddressSpace m s.kernel.current.mm us ts := by
  obtain ⟨ts, hspace⟩ := hc.space
  rw [hc.taken_pcb h] at hspace
  exact ⟨_, ts, hspace⟩

/-- The control block of the parent does not change. -/
theorem parent_pcb (h : s.Sound) (hc : Copied s i us us' k₂ k') :
    k₂.pcb s.kernel.currentProcess = s.kernel.current ∧
      k'.pcb s.kernel.currentProcess = s.kernel.current := by
  obtain ⟨ts', hext⟩ := hc.extended
  have hne : s.kernel.currentProcess ≠ .page i := fun he ↦ hc.new h (he ▸ h.current_live)
  have hcopied : k₂.pcb s.kernel.currentProcess = s.kernel.current := by
    rw [← hc.taken_pcb h]
    refine hext.confined.pcb _ hne ?_
    exact (h.owned.adopt hc.page hc.free).2.outside_reach (.inr h.current_live)
  refine ⟨hcopied, ?_⟩
  rw [hc.registered.pcb]
  exact (Globals.modifyPcb_pcb_of_ne _ _ hne).trans hcopied

/-- The pages of the parent are in use when the child gets its own. -/
theorem parent_page (h : s.Sound) (hc : Copied s i us us' k₂ k') {j : Nat} (hj : j < us.length) :
    (s.kernel.takePage i).memory.InUse us[j] ∧ us[j] ≠ pageAddress i ∧
      s.Owns (.userPage s.kernel.currentProcess j) us[j] := by
  obtain ⟨ts, hspace⟩ := hc.space
  obtain ⟨hnew, howned⟩ := h.owned.adopt hc.page hc.free
  have hused := (howned.pages (.inr h.current_live) hspace).2.1 _
    (List.mem_append_left _ (List.getElem_mem hj))
  have hpage := hspace.userPage_iff.mpr (List.getElem?_eq_getElem hj)
  rw [hc.taken_pcb h] at hpage
  have howns : s.Owns (.userPage s.kernel.currentProcess j) us[j] := ⟨h.current_live, hpage⟩
  refine ⟨hused, fun he ↦ ?_, howns⟩
  exact h.owned.free_not_owns hc.page hc.free _ (he ▸ howns)

/-- The pages of the child were free. -/
theorem child_page (h : s.Sound) (hc : Copied s i us us' k₂ k') {j : Nat} (hj : j < us'.length)
    (o : Owner) : ¬ s.Owns o us'[j] := by
  obtain ⟨ts', hext⟩ := hc.extended
  obtain hmem | ⟨n, hn, hpage, hfree⟩ := hext.fresh j hj (Nat.zero_le j)
  · cases hmem
  · rw [hpage]
    refine h.owned.free_not_owns hn ?_ o
    have hne : n ≠ i := by
      rintro rfl
      have hmark : (s.kernel.takePage n).memory.memoryPages n = true := Function.update_self ..
      cases hfree.symm.trans hmark
    exact (Function.update_of_ne hne _ _).symm.trans hfree

/-- The bytes of the parent stay where they are. -/
theorem parent_bytes (h : s.Sound) (hc : Copied s i us us' k₂ k') {j x : Nat} (hj : j < us.length)
    (hx : x < PAGE_SIZE) : (s.kernel.takePage i).memory.bytes (us[j] + x) =
      s.kernel.memory.bytes (us[j] + x) ∧
      k'.memory.bytes (us[j] + x) = s.kernel.memory.bytes (us[j] + x) := by
  obtain ⟨ts', hext⟩ := hc.extended
  obtain ⟨hused, hne, -⟩ := hc.parent_page h hj
  have htaken := (takePage_confined (k := s.kernel) i).bytes_page hused.isPage hne hx
  refine ⟨htaken, ?_⟩
  rw [hc.memory, ← htaken]
  exact hext.confined.bytes_page hused.isPage (notMem_reach_nil hused) hx

/-- And the child has the same bytes. -/
theorem child_bytes (h : s.Sound) (hc : Copied s i us us' k₂ k') {j x : Nat} (hj : j < us.length)
    (hj' : j < us'.length) (hx : x < PAGE_SIZE) :
    k'.memory.bytes (us'[j] + x) = s.kernel.memory.bytes (us[j] + x) := by
  rw [hc.memory, hc.filled.bytes j hj' (Nat.zero_le j) x hx]
  rw [List.getD_eq_getElem?_getD, List.getElem?_eq_getElem hj, Option.getD_some]
  exact (hc.parent_bytes h hj hx).1

theorem child_space (hc : Copied s i us us' k₂ k') :
    ∃ m ts, AddressSpace m (k'.pcb (.page i)).mm us' ts := by
  obtain ⟨ts', hext⟩ := hc.extended
  refine ⟨k₂.memory, ts', ?_⟩
  rw [hc.registered.pcb, (completeChild_books 0 (pageAddress i + VA_START) (.page i) k₂).mm]
  exact hext.building.space

/-- The control block of the child. -/
theorem child_pcb (h : s.Sound) (hc : Copied s i us us' k₂ k') :
    k'.pcb (.page i) = Kernel.initialise 0 (pageAddress i + VA_START) s.kernel.nProcesses
      s.kernel.current { PCB.zero with
        ptRegs := s.kernel.current.ptRegs.setRegister 0 0
        mm := (k₂.pcb (.page i)).mm } := by
  obtain ⟨ts', hext⟩ := hc.extended
  have hparent : k₂.current = s.kernel.current := by
    rw [Globals.current, hext.confined.currentProcess]
    exact (hc.parent_pcb h).1
  have hrest := hext.building.rest
  rw [copyRegisters_pcb, Owned.takePage_pcb, Globals.current] at hrest
  have hcur : (s.kernel.takePage i).pcb (s.kernel.takePage i).currentProcess = s.kernel.current :=
    hc.taken_pcb h
  rw [hcur] at hrest
  have hpcb : k₂.pcb (.page i) = { PCB.zero with
      ptRegs := s.kernel.current.ptRegs.setRegister 0 0
      mm := (k₂.pcb (.page i)).mm } := congrArg (fun b : PCB ↦
    { b with mm := (k₂.pcb (.page i)).mm }) hrest
  rw [hc.registered.pcb, completeChild_pcb, hparent, hext.confined.nProcesses, ← hpcb]
  rfl

end System.Sound.Copied

/-- The system in `copy_process`: the caller cannot be preempted. -/
def System.guarded (s : System) : System := ⟨s.kernel.mapGlobals (·.preemptDisable), s.held, s.user⟩

namespace System.Sound

variable {s : System} {i : Nat} {us us' : List Nat} {k₂ k' : Kernel Pointers}

theorem guarded (h : s.Sound) : s.guarded.Sound := h.modifyCurrent fun _ ↦ rfl

theorem guarded_current (s : System) : s.guarded.kernel.current =
    { s.kernel.current with preemptDisabled := s.kernel.current.preemptDisabled + 1 } :=
  s.kernel.modifyPcb_pcb_self s.kernel.currentProcess fun b ↦
    { b with preemptDisabled := b.preemptDisabled + 1 }

theorem owns_guarded {o : Owner} {a : Nat} (ho : s.Owns o a) : s.guarded.Owns o a := by
  have hbooks : SameBooks s.guarded.kernel s.kernel := by
    refine (SameBooks.modifyPcb s.kernel s.kernel.currentProcess (f := fun b ↦
      { b with preemptDisabled := b.preemptDisabled + 1 }) (fun _ ↦ rfl) fun _ ↦ rfl).symm
  cases o with
  | held n => exact ho
  | descriptor p page =>
      exact owns_iff_of_untouched (P := ∅) (fun p hp _ ↦ ⟨hp, hbooks.untouched p⟩) id ho
  | userPage p j =>
      exact owns_iff_of_untouched (P := ∅) (fun p hp _ ↦ ⟨hp, hbooks.untouched p⟩) id ho
  | table p l =>
      exact owns_iff_of_untouched (P := ∅) (fun p hp _ ↦ ⟨hp, hbooks.untouched p⟩) id ho

variable [KernelCode]

/-- The whole of `copy_process`. -/
theorem forked (h : s.Sound) (hu : s.kernel.currentProcess ∈ s.user)
    (hc : Copied s.guarded i us us' k₂ k') :
    Forked s ⟨k'.mapGlobals (·.preemptEnable), s.held, insert (.page i) s.user⟩ (.page i) := by
  have hfinal : Sound ⟨k'.mapGlobals (·.preemptEnable), s.held, insert (.page i) s.user⟩ :=
    hc.sound.modifyCurrent fun _ ↦ rfl
  obtain ⟨ts', hext⟩ := hc.extended
  have hnew := hc.new h.guarded
  have hcurrent : k'.currentProcess = s.kernel.currentProcess :=
    hc.registered.currentProcess.trans hext.confined.currentProcess
  have hne : PcbPtr.page i ≠ s.kernel.currentProcess := fun he ↦ hnew (he ▸ h.current_live)
  have hchild : (k'.mapGlobals (·.preemptEnable)).pcb (.page i) = k'.pcb (.page i) :=
    k'.modifyPcb_pcb_of_ne (p := k'.currentProcess) (f := fun b ↦
      { b with preemptDisabled := b.preemptDisabled - 1 }) (hcurrent ▸ hne)
  have hpcb := hchild.trans (hc.child_pcb h.guarded)
  rw [guarded_current, Kernel.initialise] at hpcb
  have hparent :
      (k'.mapGlobals (·.preemptEnable)).pcb s.kernel.currentProcess = s.kernel.current := by
    have hk' : k'.pcb s.kernel.currentProcess = s.guarded.kernel.current :=
      (hc.parent_pcb h.guarded).2
    have hself : (k'.mapGlobals (·.preemptEnable)).pcb k'.currentProcess =
        { k'.pcb k'.currentProcess with
          preemptDisabled := (k'.pcb k'.currentProcess).preemptDisabled - 1 } :=
      k'.modifyPcb_pcb_self k'.currentProcess fun b ↦
        { b with preemptDisabled := b.preemptDisabled - 1 }
    rw [hcurrent, hk', guarded_current] at hself
    rw [hself]
    dsimp only
    rw [add_sub_cancel_right]
  have hlen := hc.length
  -- addresses of the parent and of the child, by the lists of their pages
  obtain ⟨m, ts, hspace⟩ := hc.parent_space h.guarded
  rw [guarded_current] at hspace
  have hold := h.translate_eq_some hu hspace
  obtain ⟨m', ts'', hspace'⟩ := hc.child_space
  rw [← hchild] at hspace'
  have hchildren := hfinal.translate_eq_some (.inl rfl) hspace'
  rw [← hparent] at hspace
  have hparents := hfinal.translate_eq_some (.inr hu) hspace
  have hmod : ∀ virtualAddress : Nat, virtualAddress % PAGE_SIZE < PAGE_SIZE := fun _ ↦
    Nat.mod_lt _ (by decide)
  refine ⟨hnew, hc.known, ?_, ?_, ?_, ?_, ?_, ?_, ?_, ?_, ?_, ?_, ?_, ?_, ?_, ?_, hcurrent,
    ?_, ?_, ?_⟩
  · rw [hpcb]
    rfl
  · intro p hp
    obtain ⟨a, ha⟩ := h.sched
    have hlt := ha.inv.table.pid_lt (p := p) (by rwa [← ha.sim.globals])
    rw [← ha.sim.globals] at hlt
    exact hlt.ne
  · intro virtualAddress a ha
    obtain ⟨j, hj, hva, rfl⟩ := (hold _ _).mp ha
    have hj' : j < us'.length := hlen.symm ▸ hj
    refine ⟨us'[j] + virtualAddress % PAGE_SIZE, (hchildren _ _).mpr ⟨j, hj', hva, rfl⟩,
      hc.child_bytes h.guarded hj hj' (hmod _), ?_⟩
    rw [Nat.add_sub_cancel, Nat.add_sub_cancel]
    refine ⟨fun he ↦ ?_, fun o ho ↦ hc.child_page h.guarded hj' o (owns_guarded ho), j, fun o ↦ ?_⟩
    · have howns := (hc.parent_page h.guarded hj).2.2
      exact hc.child_page h.guarded hj' _ (he ▸ howns)
    · have howns : System.Owns ⟨k'.mapGlobals (·.preemptEnable), s.held, insert (.page i) s.user⟩
          (.userPage (.page i) j) us'[j] :=
        ⟨(hc.known _).mpr (.inl rfl), hspace'.userPage_iff.mpr (List.getElem?_eq_getElem hj')⟩
      exact ⟨fun ho ↦ hfinal.owned.exclusive.unique ho howns, fun ho ↦ ho ▸ howns⟩
  · intro virtualAddress hnone
    rw [Option.eq_none_iff_forall_ne_some] at hnone ⊢
    intro a' ha'
    obtain ⟨j, hj', hva, -⟩ := (hchildren _ _).mp ha'
    exact hnone _ ((hold _ _).mpr ⟨j, hlen ▸ hj', hva, rfl⟩)
  · rw [hpcb]
  · rw [hpcb]
    rfl
  · rw [Kernel.RingEmpty, Kernel.ring, hpcb]
    rfl
  · rw [hpcb]
    rfl
  · rw [hpcb]
  · rw [hpcb]
  · rw [hpcb]
  · rw [hpcb]
  · rw [hpcb]
  · obtain ⟨a, ha⟩ := hfinal.sched
    have hknown : a.Known (.page i) := by
      rw [← ha.sim.globals]
      exact (hc.known _).mpr (.inl rfl)
    have hready : (a.pcb (.page i)).state = .ready := by
      rw [← ha.sim.globals, hpcb]
    obtain ⟨q, hq⟩ := ha.inv.queued _ hknown (by simp) hready
    exact linkedOnce_of_mem ha.sim ha.inv hq
  · rw [← hparent, Globals.current]
    exact congrArg _ hcurrent
  · intro virtualAddress
    refine Option.ext fun a ↦ ?_
    rw [hparents, hold]
  · intro virtualAddress a ha
    obtain ⟨j, hj, hva, rfl⟩ := (hold _ _).mp ha
    exact (hc.parent_bytes h.guarded hj (hmod _)).2

end System.Sound

/-- `fork` copies the process: in a state in which pages have one owner, with room in the process
table and enough free pages, a process in user mode gets a child that is a copy of it. -/
theorem fork_copies [KernelCode] {s : System} (h : s.Sound) (hu : s.kernel.currentProcess ∈ s.user)
    (hroom : s.kernel.nProcesses < N_PROCESSES) (hfree : 21 ≤ s.kernel.memory.free) :
    ∃ k' c, s.kernel.copyProcess 0 0 0 = some ((s.kernel.nProcesses : Int), k') ∧
      System.Sound ⟨k', s.held, insert c s.user⟩ ∧ Forked s ⟨k', s.held, insert c s.user⟩ c := by
  obtain ⟨i, us, us', k₂, k', hcreate, -, hc⟩ := h.guarded.createProcess_copies hu hroom hfree
  refine ⟨k'.mapGlobals (·.preemptEnable), .page i, ?_, hc.sound.modifyCurrent fun _ ↦ rfl,
    h.forked hu hc⟩
  have hcreate' : (s.kernel.mapGlobals (·.preemptDisable)).createProcess 0 0 0 =
      some ((s.kernel.nProcesses : Int), k') := hcreate
  have hvalue : ¬ ((s.kernel.nProcesses : Int) < 0) := by omega
  rw [Kernel.copyProcess, hcreate', Option.bind_eq_bind, Option.bind_some]
  dsimp only
  rw [if_neg hvalue]

theorem fork_copies_user : let _ := someCode; ∃ (s : System) (k' : Kernel Pointers) (c : PcbPtr),
    some s.kernel = userRun ∧ s.kernel.copyProcess 0 0 0 = some (2, k') ∧
      Forked s ⟨k', s.held, insert c s.user⟩ c := by
  intro _
  have huser : userRun.map (fun k ↦
      (k.currentProcess, k.nProcesses, decide (21 ≤ freeCells k.memory.memoryPages 64))) =
      some (.page 0, 2, true) := by decide +kernel
  obtain ⟨s, hreach, hk, -, husers⟩ := userRun_spec
  rw [← hk] at huser
  obtain ⟨hcur, h⟩ := Prod.mk.inj (Option.some.inj huser)
  obtain ⟨hcount, hfree⟩ := Prod.mk.inj h
  have hpages : 21 ≤ s.kernel.memory.free := by
    refine (of_decide_eq_true hfree).trans ?_
    exact freeCells_mono (by decide)
  obtain ⟨k', c, hcopy, -, hforked⟩ := fork_copies hreach.sound (by rw [husers, hcur]; rfl)
    (by rw [hcount]; decide) hpages
  rw [hcount] at hcopy
  exact ⟨s, k', c, hk, hcopy, hforked⟩

end DemosOS
