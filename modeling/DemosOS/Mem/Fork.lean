import DemosOS.Mem.Ownership

/-!
# Creating a process

What `copy_process` does up to the call of `add_process_to_scheduler`: the new process has the
page of its control block, and, if it is a copy of its parent, a copy of its pages.
-/

namespace DemosOS

open Lib Kernel

theorem Globals.modifyPcb_eq_self {g : Globals} {p : PcbPtr} {f : PCB → PCB}
    (h : f (g.pcb p) = g.pcb p) : g.modifyPcb p f = g := by
  rw [Globals.modifyPcb, h, Function.update_eq_self]

section

variable [KernelCode] {k k' : Kernel Pointers} {live user : Set PcbPtr} {held : List Nat}
  {flags function argument : Nat}

/-- The memory of the new process `c`: nothing for a kernel thread, a copy of the pages of the
caller otherwise. -/
def Kernel.prepareChild (flags function argument : Nat) (c : PcbPtr) (k : Kernel Pointers) :
    Option (Kernel Pointers) :=
  if flags &&& PF_KTHREAD ≠ 0 then
    some (k.mapGlobals (·.modifyPcb c fun b ↦
      { b with cpuContext := { b.cpuContext with x19 := function, x20 := argument } }))
  else
    ((k.mapGlobals fun g ↦ g.modifyPcb c fun b ↦
      { b with ptRegs := g.current.ptRegs.setRegister 0 0 }).copyVirtualMemory c).map (·.2)

/-- The control block of the new process at `address` is completed. -/
def Kernel.completeChild (flags address : Nat) (c : PcbPtr)
    (k : Kernel Pointers) : Kernel Pointers :=
  k.mapGlobals fun g ↦ g.modifyPcb c (Kernel.initialise flags address g.nProcesses g.current)

/-- The end of `copy_process`, from the call of `add_process_to_scheduler` on. -/
def Kernel.registerChild (c : PcbPtr) (pid : Nat) (k : Kernel Pointers) :
    Option (Int × Kernel Pointers) :=
  (k.addProcessToScheduler c).bind fun r ↦
    if r.1 < 0 then some (-1, r.2) else some ((pid : Int), r.2)

/-- `copy_process` behind the checks, with the address of the page it has got. -/
def Kernel.createChild (flags function argument address : Nat) (k : Kernel Pointers) :
    Option (Int × Kernel Pointers) :=
  ((k.mapGlobals (·.modifyPcb (PcbPtr.atAddress address) fun b ↦
    { b with ptRegs := PtRegs.zero, cpuContext := ⟨0, 0, 0, 0⟩, files := fun _ ↦ 0 })).prepareChild
      flags function argument (PcbPtr.atAddress address)).bind fun k ↦
    (k.completeChild flags address (PcbPtr.atAddress address)).registerChild
        (PcbPtr.atAddress address) k.nProcesses

theorem createProcess_eq (flags function argument : Nat) (k : Kernel Pointers) :
    k.createProcess flags function argument =
      if k.allocateKernelPage.1 = 0 ∨ k.allocateKernelPage.2.nProcesses ≥ N_PROCESSES then
        some (-1, k.allocateKernelPage.2)
      else k.allocateKernelPage.2.createChild flags function argument k.allocateKernelPage.1 := by
  rw [Kernel.createProcess]
  dsimp only
  split_ifs with hfail hthread
  · rfl
  · rw [Kernel.createChild, Kernel.prepareChild, if_pos hthread]
    rfl
  · rw [Kernel.createChild, Kernel.prepareChild, if_neg hthread]
    rfl

/-- In a cleared page there is nothing to clear. -/
theorem createChild_eq {address : Nat} {c : PcbPtr} (hc : PcbPtr.atAddress address = c)
    (hzero : k.pcb c = PCB.zero) :
    k.createChild flags function argument address =
      (k.prepareChild flags function argument c).bind fun k ↦
        (k.completeChild flags address c).registerChild c k.nProcesses := by
  have hsame : (k.mapGlobals (·.modifyPcb c fun b ↦
      { b with ptRegs := PtRegs.zero, cpuContext := ⟨0, 0, 0, 0⟩, files := fun _ ↦ 0 })) = k := by
    rw [Kernel.mapGlobals, Globals.modifyPcb_eq_self]
    rw [hzero]
    rfl
  rw [Kernel.createChild, hc, hsame]

end

/-! ## The copy of the memory -/

section

variable {k k' : Kernel Pointers} {live user : Set PcbPtr} {held : List Nat} {c : PcbPtr}
  {us ts : List Nat}

/-- A page in use is not free. -/
theorem notMem_reach_nil {a : Nat} (ha : k.memory.InUse a) : a ∉ k.Reach [] :=
  Kernel.notMem_reach ha List.not_mem_nil

/-- A process without pages can be given some. -/
theorem Owned.building (h : Owned k live user held) (hc : c ∈ live)
    (hempty : (k.pcb c).mm.IsEmpty) : Building (k.Reach []) c (k.pcb c).outsideMm k [] [] [] where
  rest := rfl
  space := hempty.addressSpace
  nodup := List.nodup_nil
  used := nofun
  mem_ts := nofun
  free i hi hfree := .inr ⟨i, hi, rfl, hfree⟩
  control _ ha := ⟨h.exclusive.used (o := .descriptor c .control) ⟨hc, ha⟩, List.not_mem_nil⟩

theorem Owned.outside_reach (h : Owned k live user held) {p : PcbPtr} (hp : p ∈ live) :
    p.Outside (k.Reach []) := fun _ ha ↦
  notMem_reach_nil (h.exclusive.used (o := .descriptor p .control) ⟨hp, ha⟩)

/-- `copy_virtual_memory` gives a new process a copy of every page of the caller. -/
theorem Owned.copyVirtualMemory (h : Owned k live user held) (hq : k.currentProcess ∈ live)
    (hc : c ∈ live) (hne : c ≠ k.currentProcess) (hempty : (k.pcb c).mm.IsEmpty)
    (hspace : AddressSpace k.memory (k.pcb k.currentProcess).mm us ts) :
    Takes (pagesNeeded us.length 0) Prod.snd k (k.copyVirtualMemory c) fun r ↦
      r.1 = 0 ∧ ∃ us' ts', Extended (k.Reach []) c (k.pcb c).outsideMm k [] us.length us' ts' r.2 ∧
        Filled (fun j x ↦ k.memory.bytes (us.getD j 0 + x)) k 0 us' r.2 := by
  obtain ⟨-, hused, -⟩ := h.pages hq hspace
  have hpages : ∀ j (hj : j < us.length), us.getD j 0 = us[j] := fun j hj ↦ by
    rw [List.getD_eq_getElem?_getD, List.getElem?_eq_getElem hj, Option.getD_some]
  have hin : ∀ j, j < us.length → k.memory.InUse (us.getD j 0) := by
    intro j hj
    rw [hpages j hj]
    exact hused _ (List.mem_append_left _ (List.getElem_mem hj))
  have hsource : SourcePages (k.Reach []) k.currentProcess k (us.getD · 0) 0 us.length := by
    refine ⟨h.outside_reach hq, ?_, fun j _ hj ↦ hin j hj, fun j _ hj ↦ notMem_reach_nil (hin j hj)⟩
    intro j _ hj
    rw [hspace.userPages j hj, hpages j hj]
  have hcopy := (h.building hc hempty).copyPages (m := us.length)
    (by simpa using hspace.length_us) hne.symm (by simpa using hsource)
  rw [Kernel.copyVirtualMemory, Globals.current, hspace.nUserPages, List.range_eq_range']
  exact hcopy

end

section

variable {k k' : Kernel Pointers} {live user : Set PcbPtr} {held : List Nat}
  {c : PcbPtr} {us ts : List Nat} {flags function argument : Nat}

/-- The control block of a copy, before the memory is copied. -/
def Kernel.copyRegisters (c : PcbPtr) (k : Kernel Pointers) : Kernel Pointers :=
  k.mapGlobals fun g ↦ g.modifyPcb c fun b ↦
    { b with ptRegs := g.current.ptRegs.setRegister 0 0 }

theorem copyRegisters_books (c : PcbPtr) (k : Kernel Pointers) : SameBooks k (k.copyRegisters c) :=
  .modifyPcb k c (fun _ ↦ rfl) fun _ ↦ rfl

theorem copyRegisters_confined {T : Set Nat} (c : PcbPtr) (k : Kernel Pointers) :
    Confined T {c} k (k.copyRegisters c) := .modifyPcb k (Set.mem_singleton c) _

theorem copyRegisters_pcb (c : PcbPtr) (k : Kernel Pointers) :
    (k.copyRegisters c).pcb c = { k.pcb c with ptRegs := k.current.ptRegs.setRegister 0 0 } := by
  rw [Kernel.copyRegisters, Kernel.mapGlobals_toGlobals, Globals.modifyPcb_pcb_self]

theorem prepareChild_copy (hflags : flags &&& PF_KTHREAD = 0) :
    k.prepareChild flags function argument c =
      ((k.copyRegisters c).copyVirtualMemory c).map (·.2) := if_neg (not_not.mpr hflags)

/-- The memory of a copy: a copy of every page of the caller. -/
theorem Owned.prepareChild_copy (h : Owned k live user held) (hq : k.currentProcess ∈ live)
    (hc : c ∈ live) (hne : c ≠ k.currentProcess) (hempty : (k.pcb c).mm.IsEmpty)
    (hspace : AddressSpace k.memory (k.pcb k.currentProcess).mm us ts)
    (hflags : flags &&& PF_KTHREAD = 0) :
    Takes (pagesNeeded us.length 0) id k (k.prepareChild flags function argument c) fun k' ↦
      ∃ us' ts', Extended (k.Reach []) c ((k.copyRegisters c).pcb c).outsideMm k [] us.length
          us' ts' k' ∧ Filled (fun j x ↦ k.memory.bytes (us.getD j 0 + x)) k 0 us' k' := by
  have hbooks := copyRegisters_books c k
  have hcopy := (h.books hbooks).copyVirtualMemory hq hc hne ((hbooks.mm c).symm ▸ hempty)
    ((hbooks.untouched _).addressSpace hspace)
  have hreach : (k.copyRegisters c).Reach [] = k.Reach [] := rfl
  rw [DemosOS.prepareChild_copy hflags, Option.map_eq_bind]
  have hfrom : Takes (pagesNeeded us.length 0) Prod.snd k _ _ := hcopy.from_state rfl rfl
  refine hfrom.bind (m := 0) ?_ ?_
  · rintro ⟨r, k'⟩ - ⟨-, us', ts', hext, hfill⟩
    rw [hreach] at hext
    refine .none_taken rfl rfl ⟨us', ts', ?_, hfill.bytes, hfill.kept⟩
    exact ⟨hext.length, hext.old, hext.fresh, hext.building,
      (copyRegisters_confined c k).trans hext.confined⟩
  · intro r s hs
    rw [← Option.some.inj hs]
    exact le_rfl

/-- The pages of the new process, as the owners see it. -/
theorem Owned.prepareChild (h : Owned k live user held) (hq : k.currentProcess ∈ live)
    (hc : c ∈ live) (hne : c ≠ k.currentProcess) (hcu : c ∉ user)
    (hrun : k.prepareChild flags function argument c = some k') (hfail : k'.failures = k.failures) :
    Owned k' live { p | p ∈ user ∨ flags &&& PF_KTHREAD = 0 ∧ k.currentProcess ∈ user ∧ p = c }
      held ∧ Confined (k.Reach []) {c} k k' := by
  by_cases hflags : flags &&& PF_KTHREAD = 0
  · by_cases hqu : k.currentProcess ∈ user
    · obtain ⟨us, ts, hlen, hspace⟩ := h.full _ hq hqu
      obtain ⟨⟨us', ts', hext, -⟩, -⟩ :=
        (h.prepareChild_copy hq hc hne (h.empty c hc hcu) hspace hflags).of_some hrun hfail
      have husers : { p | p ∈ user ∨ flags &&& PF_KTHREAD = 0 ∧ k.currentProcess ∈ user ∧ p = c } =
          insert c user := by
        ext p
        simp [hflags, hqu, or_comm]
      have hlen' : us'.length = MAX_PROCESS_PAGES := by
        rw [hext.length, hlen]
        rfl
      refine ⟨?_, hext.confined⟩
      rw [husers]
      refine h.filled hc hext.building hlen' hext.confined ?_ ?_ ?_
      · intro a ha
        obtain ⟨j, hj, rfl⟩ := List.mem_iff_getElem.mp ha
        exact hext.fresh j hj (Nat.zero_le j)
      · exact fun howns ha ↦ absurd ha (notMem_reach_nil (h.exclusive.used howns))
      · have hrest := congrArg PCB.files hext.building.rest
        have hrest' : (k'.pcb c).files = ((k.copyRegisters c).pcb c).files := hrest
        rw [hrest', copyRegisters_pcb]
    · have husers : { p | p ∈ user ∨ flags &&& PF_KTHREAD = 0 ∧ k.currentProcess ∈ user ∧ p = c } =
          user := by
        ext p
        simp [hqu]
      have hcount : (k.copyRegisters c).current.mm.nUserPages = 0 :=
        (congrArg MmStruct.nUserPages ((copyRegisters_books c k).mm k.currentProcess)).trans
          (h.empty _ hq hqu).1
      have hk' : k' = k.copyRegisters c := by
        rw [DemosOS.prepareChild_copy hflags, Kernel.copyVirtualMemory, hcount] at hrun
        exact (Option.some.inj hrun).symm
      rw [husers, hk']
      exact ⟨h.books (copyRegisters_books c k), copyRegisters_confined c k⟩
  · have husers : { p | p ∈ user ∨ flags &&& PF_KTHREAD = 0 ∧ k.currentProcess ∈ user ∧ p = c } =
        user := by
      ext p
      simp [hflags]
    have hk' := Option.some.inj ((if_pos hflags).symm.trans hrun)
    rw [husers, ← hk']
    exact ⟨h.books (.modifyPcb k c (fun _ ↦ rfl) fun _ ↦ rfl),
      .modifyPcb k (Set.mem_singleton c) _⟩

end

end DemosOS
