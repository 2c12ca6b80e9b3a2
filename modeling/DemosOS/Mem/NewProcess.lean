import DemosOS.Mem.Failures
import DemosOS.Sched.Closed

/-!
# The process table across a fork

`copy_process` takes pages that are free.  The processes of the table have their control blocks in
pages that are in use, so that it leaves them alone, whether it succeeds, is refused or runs out of
memory while it copies.  Nothing has to be known of the address spaces for this.
-/

namespace DemosOS

open Lib Kernel

/-! ## Protected processes -/

/-- Copying bytes leaves the marks alone. -/
theorem Memory.memoryPages_memcpy (m : Memory) (destination source count : Nat) :
    (m.memcpy destination source count).memoryPages = m.memoryPages := rfl

/-- The page of the control block is in use. -/
def Kernel.HasPage (k : Kernel Pointers) (p : PcbPtr) : Prop :=
  ∀ a, p.pageStart = some a → k.memory.InUse a

/-- From `k` to `k'` no page was given back, and the processes of `U` were left alone, but for the
control block of `c`. -/
structure Protects (U : Set PcbPtr) (c : PcbPtr) (k k' : Kernel Pointers) : Prop where
  inUse : ∀ a, k.memory.InUse a → k'.memory.InUse a
  pcb : ∀ p ∈ U, p ≠ c → k'.pcb p = k.pcb p
  next : ∀ p ∈ U, k'.queues.next p = k.queues.next p

namespace Protects

variable {U : Set PcbPtr} {k k₁ k' : Kernel Pointers} {c p : PcbPtr} {page : Nat}

theorem refl (k : Kernel Pointers) : Protects U c k k :=
  ⟨fun _ h ↦ h, fun _ _ _ ↦ rfl, fun _ _ ↦ rfl⟩

theorem trans (h : Protects U c k k₁) (h' : Protects U c k₁ k') : Protects U c k k' where
  inUse a ha := h'.inUse a (h.inUse a ha)
  pcb p hp hne := (h'.pcb p hp hne).trans (h.pcb p hp hne)
  next p hp := (h'.next p hp).trans (h.next p hp)

theorem hasPage (h : Protects U c k k') (hp : k.HasPage p) : k'.HasPage p := fun a ha ↦
  h.inUse a (hp a ha)

theorem mapMemory (k : Kernel Pointers) {f : Memory → Memory}
    (hf : (f k.memory).memoryPages = k.memory.memoryPages) : Protects U c k (k.mapMemory f) where
  inUse a := by
    rintro ⟨i, hi, rfl, hmark⟩
    exact ⟨i, hi, rfl, (congrFun hf i).trans hmark⟩
  pcb _ _ _ := rfl
  next _ _ := rfl

theorem modifyPcb (k : Kernel Pointers) (f : PCB → PCB) :
    Protects U c k (k.mapGlobals (·.modifyPcb c f)) where
  inUse _ ha := ha
  pcb _ _ hne := Globals.modifyPcb_pcb_of_ne _ _ hne
  next _ _ := rfl

theorem clearPage (k : Kernel Pointers) (hpage : ∀ p ∈ U, p.pageStart ≠ some page) :
    Protects U c k (k.clearPage page) where
  inUse _ ha := ha
  pcb p hp _ := by
    cases p with
    | initProcess => rfl
    | page i => exact if_neg fun he ↦ hpage _ hp (congrArg some he)
  next p hp := by
    cases p with
    | initProcess => rfl
    | page i => exact if_neg fun he ↦ hpage _ hp (congrArg some he)

/-- A page that is free is not the page of a protected process. -/
theorem notPage (hU : ∀ p ∈ U, k.HasPage p) {i : Nat} (hi : i < N_PAGES)
    (hfree : k.memory.memoryPages i = false) : ∀ p ∈ U, p.pageStart ≠ some (pageAddress i) := by
  intro p hp he
  have hused := (Memory.inUse_page hi).mp (hU p hp _ he)
  cases hfree.symm.trans hused

theorem takePage (hU : ∀ p ∈ U, k.HasPage p) {i : Nat} (hi : i < N_PAGES)
    (hfree : k.memory.memoryPages i = false) : Protects U c k (k.takePage i) := by
  have hcleared := clearPage (c := c) (k.mapMemory (·.mark i true)) (notPage hU hi hfree)
  exact ⟨fun a ha ↦ (takePage_inUse hi a).mpr (.inl ha), hcleared.pcb, hcleared.next⟩

section

variable (hU : ∀ p ∈ U, k.HasPage p)
include hU

/-- An allocation hands out a page of nobody, or the page 0. -/
theorem getFreePage : Protects U c k k.getFreePage.2 ∧
    ∀ p ∈ U, p.pageStart ≠ some k.getFreePage.1 := by
  obtain ⟨i, hi, hfree, h⟩ | ⟨-, h⟩ := k.getFreePage_cases
  · rw [h]
    exact ⟨takePage hU hi hfree, notPage hU hi hfree⟩
  · rw [h]
    refine ⟨mapMemory k (f := fun m ↦ { m with failedAllocations := m.failedAllocations + 1 }) rfl,
      fun p _ he ↦ ?_⟩
    cases p with
    | initProcess => cases he
    | page i => exact (pageAddress_pos i).ne' (Option.some.inj he)

omit hU in
theorem trackKernelPage (h : k.trackKernelPage c page = some k') : Protects U c k k' := by
  unfold Kernel.trackKernelPage at h
  split_ifs at h
  rw [← Option.some.inj h]
  exact modifyPcb k _

omit hU in
theorem trackUserPage {page : UserPage} (h : k.trackUserPage c page = some k') :
    Protects U c k k' := by
  unfold Kernel.trackUserPage at h
  split_ifs at h
  rw [← Option.some.inj h]
  exact modifyPcb k _

theorem ensurePgd (h : k.ensurePgd c = some k') : Protects U c k k' := by
  unfold Kernel.ensurePgd at h
  split_ifs at h
  · obtain ⟨hget, hpage⟩ := getFreePage hU
    refine Protects.trans ?_ (trackKernelPage h)
    exact (hget.trans (modifyPcb _ _)).trans (clearPage _ hpage)
  · rw [← Option.some.inj h]
    exact .refl k

theorem mapLevel {table shift virtualAddress : Nat} {r : Nat × Kernel Pointers}
    (h : k.mapLevel c table shift virtualAddress = some r) : Protects U c k r.2 := by
  by_cases hentry : k.memory.tables table (tableIndex shift virtualAddress) = 0
  · rw [mapLevel_create hentry] at h
    obtain ⟨k', hk', rfl⟩ := Option.map_eq_some_iff.mp h
    obtain ⟨hget, hpage⟩ := getFreePage hU
    refine ((hget.trans (clearPage _ hpage)).trans ?_).trans (trackKernelPage hk')
    exact mapMemory _ rfl
  · rw [mapLevel_follow hentry] at h
    rw [← Option.some.inj h]
    exact .refl k

theorem mapPage {virtualAddress : Nat} (h : k.mapPage c virtualAddress page = some k') :
    Protects U c k k' := by
  rw [mapPage_eq] at h
  obtain ⟨k₁, hk₁, h⟩ := Option.bind_eq_some_iff.mp h
  obtain ⟨⟨pud, k₂⟩, hk₂, h⟩ := Option.bind_eq_some_iff.mp h
  obtain ⟨⟨pmd, k₃⟩, hk₃, h⟩ := Option.bind_eq_some_iff.mp h
  obtain ⟨⟨pte, k₄⟩, hk₄, h⟩ := Option.bind_eq_some_iff.mp h
  have h₁ := ensurePgd hU hk₁
  have h₂ := h₁.trans (mapLevel (fun p hp ↦ h₁.hasPage (hU p hp)) hk₂)
  have h₃ := h₂.trans (mapLevel (fun p hp ↦ h₂.hasPage (hU p hp)) hk₃)
  have h₄ := h₃.trans (mapLevel (fun p hp ↦ h₃.hasPage (hU p hp)) hk₄)
  refine (h₄.trans (mapMemory k₄ ?_)).trans (trackUserPage h)
  rfl

theorem allocateUserPage {virtualAddress : Nat} {r : Nat × Kernel Pointers}
    (h : k.allocateUserPage c virtualAddress = some r) :
    Protects U c k r.2 ∧ (r.1 ≠ 0 → ∀ p ∈ U, p.pageStart ≠ some (r.1 - VA_START)) := by
  obtain ⟨hget, hpage⟩ := getFreePage hU
  rw [allocateUserPage_eq, Kernel.mapUserPage] at h
  split_ifs at h
  · rw [← Option.some.inj h]
    exact ⟨hget, fun hne ↦ absurd rfl hne⟩
  · obtain ⟨k', hk', rfl⟩ := Option.map_eq_some_iff.mp h
    refine ⟨hget.trans (mapPage (fun p hp ↦ hget.hasPage (hU p hp)) hk'), fun _ ↦ ?_⟩
    rw [Nat.add_sub_cancel]
    exact hpage

theorem copyPages {source : PcbPtr} {l : List Nat} {r : Int × Kernel Pointers}
    (h : k.copyPages c source l = some r) : Protects U c k r.2 := by
  induction l generalizing k with
  | nil =>
      rw [← Option.some.inj h]
      exact .refl k
  | cons i l ih =>
      obtain ⟨⟨address, k₁⟩, hk₁, h⟩ := Option.bind_eq_some_iff.mp h
      obtain ⟨h₁, hpage⟩ := allocateUserPage hU hk₁
      dsimp only at h
      split_ifs at h with hzero
      · rw [← Option.some.inj h]
        exact h₁
      · have hfilled : ∀ {f : Memory → Memory}, (∀ m, (f m).memoryPages = m.memoryPages) →
            Protects U c k ((k₁.clearPage (address - VA_START)).mapMemory f) := fun hf ↦
          (h₁.trans (clearPage k₁ (hpage hzero))).trans (mapMemory _ (hf _))
        refine Protects.trans (hfilled ?_) (ih (fun p hp ↦ (hfilled ?_).hasPage (hU p hp)) h)
        · exact fun m ↦ m.memoryPages_memcpy _ _ _
        · exact fun m ↦ m.memoryPages_memcpy _ _ _

theorem prepareChild {flags function argument : Nat}
    (h : k.prepareChild flags function argument c = some k') : Protects U c k k' := by
  unfold Kernel.prepareChild at h
  split_ifs at h
  · rw [← Option.some.inj h]
    exact modifyPcb k _
  · obtain ⟨r, hr, rfl⟩ := Option.map_eq_some_iff.mp h
    have hregisters := modifyPcb k (U := U) (c := c) fun b ↦
      { b with ptRegs := k.current.ptRegs.setRegister 0 0 }
    exact hregisters.trans (copyPages (fun p hp ↦ hregisters.hasPage (hU p hp)) hr)

end

end Protects

end DemosOS
