import DemosOS.Sched.Table
import DemosOS.Sections.Registry

/-!
# A new process in the table

`copy_process` between `preempt_disable` and `preempt_enable`: where a page is free and the table
has room it adds a process whose counter is 1, and otherwise it is refused.  Either way the counters
of the other processes are as before.
-/

namespace DemosOS

open Lib

namespace Kernel

/-- The checks of `copy_process` succeed: a page is free, and the table has room. -/
def CanFork (k : Kernel Pointers) : Prop := 0 < k.memory.free ∧ k.nProcesses < N_PROCESSES

instance (k : Kernel Pointers) : Decidable k.CanFork := inferInstanceAs (Decidable (_ ∧ _))

/-- The process `c` has been added to the table. -/
structure Created (c : PcbPtr) (k k' : Kernel Pointers) : Prop where
  fresh : ¬ k.Known c
  known : ∀ p, k'.Known p ↔ p = c ∨ k.Known p
  registry : k'.Registry
  currentProcess : k'.currentProcess = k.currentProcess
  counter : ∀ p, k.Known p → (k'.pcb p).preemptDisabled = (k.pcb p).preemptDisabled
  child : (k'.pcb c).preemptDisabled = 1

variable {k k₁ k' : Kernel Pointers} {c : PcbPtr} {r : Int}

/-- Memory code that leaves the processes of the table alone. -/
theorem advances_of_protects (e : PcbPtr) (hrest : MemoryOnly k k') (hc : ¬ k.Known c)
    (h : Protects {p | k.Known p} c k k') : Advances e 0 k k' := by
  have hpcb : ∀ p, k.Known p → k'.pcb p = k.pcb p := fun p hp ↦
    h.pcb p hp fun he ↦ hc (he ▸ hp)
  exact {
    processes := hrest.processes
    nProcesses := hrest.nProcesses
    pid := fun p hp ↦ by rw [hpcb p hp]
    page := fun p _ hpage ↦ h.hasPage hpage
    links := fun hlinks ↦ hlinks.congr hrest.ends h.next
    counter := fun p hp ↦ by rw [hpcb p hp, ite_self, Int.add_zero]
    currentProcess := hrest.currentProcess }

theorem within_addProcessToScheduler {S : Set PcbPtr} (h : k.queues.Within S) (hc : c ∈ S)
    (hrun : k.addProcessToScheduler c = some (r, k')) : k'.queues.Within S := by
  obtain ⟨-, -, rfl⟩ | ⟨-, -, k₁, hk₁, rfl⟩ := addProcessToScheduler_cases hrun
  · exact h
  · split_ifs at hk₁
    · have hlinked : k₁.queues.Within S :=
        within_enqueueProcess (k := k.mapGlobals (·.register c)) h hc hk₁
      exact hlinked
    · rw [← Option.some.inj hk₁]
      exact h

section

variable [KernelCode] {flags function argument : Nat}

/-- The new process is registered. -/
theorem created_of_registered {address pid : Nat} (h : k.Registry) (hc : ¬ k.Known c)
    (hadv : Advances c 0 k k₁) (hlinks : k₁.queues.Within {p | p = c ∨ k.Known p})
    (hpage : k₁.HasPage c) (hroom : k.nProcesses < N_PROCESSES)
    (hrun : (k₁.completeChild flags address c).registerChild c pid = some (r, k')) :
    r = pid ∧ Created c k k' := by
  set k₂ := k₁.completeChild flags address c with hk₂
  have hself : k₂.pcb c = Kernel.initialise flags address k₁.nProcesses k₁.current (k₁.pcb c) :=
    completeChild_pcb flags address c k₁
  have hother : ∀ p, p ≠ c → k₂.pcb p = k₁.pcb p := fun p hp ↦
    Globals.modifyPcb_pcb_of_ne _ _ hp
  have hne : ∀ p, k.Known p → p ≠ c := fun p hp he ↦ hc (he ▸ hp)
  have hpid : (k₂.pcb c).pid = k₂.nProcesses := by
    rw [hself, Kernel.initialise]
    rfl
  have hready : (k₂.pcb c).state = .ready := by
    rw [hself, Kernel.initialise]
  have hcount : k₂.nProcesses = k.nProcesses := hadv.nProcesses
  obtain ⟨⟨r₁, k₃⟩, hadd, hr⟩ := Option.bind_eq_some_iff.mp hrun
  obtain ⟨rfl, hreg⟩ := addProcessToScheduler_registered hadd (hcount.trans_lt hroom) hpid hready
  obtain ⟨rfl, rfl⟩ := Prod.mk.inj (Option.some.inj hr)
  have htable₁ : k₁.Table := (hadv.registry h).table
  have htable : k₂.Table := by
    refine ⟨fun {i p} hi ↦ ?_, htable₁.filled, htable₁.init, htable₁.bound⟩
    have hp : k.Known p := (hadv.known p).mp ⟨i, hi⟩
    rw [hother p (hne p hp)]
    exact htable₁.slot hi
  have hknown : ∀ p, k₃.Known p ↔ p = c ∨ k.Known p := by
    intro p
    rw [hreg.known (fun hi ↦ (htable.slot hi).1) hpid p]
    exact or_congr Iff.rfl (hadv.known p)
  refine ⟨rfl, hc, hknown, ⟨?_, ?_, ?_⟩, ?_, ?_, ?_⟩
  · refine htable.admit (fun hk ↦ hc ((hadv.known c).mp hk)) ?_ hreg.nProcesses ?_ ?_
      (hcount.trans_lt hroom)
    · rw [hreg.processes, hpid]
    · rw [hreg.pcb, hpid]
    · exact fun x _ ↦ by rw [hreg.pcb]
  · intro p hp a ha
    rw [hreg.memory]
    rcases (hknown p).mp hp with rfl | hp
    · exact hpage a ha
    · exact hadv.page p hp (h.page p hp) a ha
  · have hset : {p | k₃.Known p} = {p | p = c ∨ k.Known p} := Set.ext hknown
    rw [hset]
    exact within_addProcessToScheduler (k := k₂) hlinks (.inl rfl) hadd
  · exact hreg.currentProcess.trans hadv.currentProcess
  · intro p hp
    rw [hreg.pcb, hother p (hne p hp), hadv.counter p hp, ite_self, Int.add_zero]
  · rw [hreg.pcb, hself, Kernel.initialise]

/-- What the creation of a process does. -/
theorem createProcess_cases (e : PcbPtr) (h : k.Registry)
    (hrun : k.createProcess flags function argument = some (r, k')) :
    (¬ k.CanFork ∧ r < 0 ∧ Advances e 0 k k') ∨ (k.CanFork ∧ 0 ≤ r ∧ ∃ c, Created c k k') := by
  rw [createProcess_eq] at hrun
  obtain ⟨i, hi, hfree, buffer, hbuffer, hne, hpage⟩ | ⟨hfull, hpage⟩ :=
    k.allocateKernelPage_cases
  · have hsome : 0 < k.memory.free := Nat.pos_of_ne_zero fun hzero ↦ by
      cases hfree.symm.trans (freeCells_eq_zero.mp hzero i hi)
    have hfresh : ¬ k.Known (.page i) := fun hk ↦
      Protects.notPage (fun p hp ↦ h.page p hp) hi hfree (.page i) hk rfl
    have htake : Protects {p | k.Known p} (.page i) k (k.takePage i) :=
      .takePage (fun p hp ↦ h.page p hp) hi hfree
    have hmemory : MemoryOnly k (k.takePage i) :=
      (MemoryOnly.mapMemory k _).trans (MemoryOnly.clearPage _ _)
    rw [hpage] at hrun
    dsimp only at hrun
    split_ifs at hrun with hguard
    · obtain ⟨rfl, rfl⟩ := Prod.mk.inj (Option.some.inj hrun)
      refine .inl ⟨fun hcan ↦ ?_, by omega, advances_of_protects e hmemory hfresh htake⟩
      have hroom : (k.takePage i).nProcesses < N_PROCESSES := hcan.2
      exact hguard.elim hne fun hge ↦ absurd hroom (Nat.not_lt.mpr hge)
    · have hroom : k.nProcesses < N_PROCESSES := by
        have hroom := not_or.mp hguard
        exact Nat.lt_of_not_le hroom.2
      rw [hbuffer, createChild_eq (PcbPtr.atAddress_page i) (Owned.takePage_pcb _ _)] at hrun
      obtain ⟨k₂, hk₂, hregister⟩ := Option.bind_eq_some_iff.mp hrun
      -- the page of the child is in use from now on
      have hused : ∀ p ∈ {p | p = .page i ∨ k.Known p}, (k.takePage i).HasPage p := by
        rintro p (rfl | hp)
        · rintro a ⟨⟩
          exact (takePage_inUse hi _).mpr (.inr rfl)
        · exact htake.hasPage (h.page p hp)
      have hprepared := Protects.prepareChild hused hk₂
      have hprotected : Protects {p | k.Known p} (.page i) k k₂ :=
        htake.trans ⟨hprepared.inUse, fun p hp ↦ hprepared.pcb p (.inr hp),
          fun p hp ↦ hprepared.next p (.inr hp)⟩
      have hrest : MemoryOnly k k₂ := hmemory.trans (MemoryOnly.prepareChild hk₂)
      have hlinks₁ : (k.takePage i).queues.Within {p | p = .page i ∨ k.Known p} := by
        have hold : (k.takePage i).queues.Within {p | k.Known p} :=
          h.links.congr hmemory.ends htake.next
        exact hold.insert (if_pos rfl)
      have hlinks := hlinks₁.congr (MemoryOnly.prepareChild hk₂).ends hprepared.next
      obtain ⟨hr, hcreated⟩ := created_of_registered h hfresh
        (advances_of_protects _ hrest hfresh hprotected) hlinks
        (hprepared.hasPage (hused _ (.inl rfl))) hroom hregister
      exact .inr ⟨⟨hsome, hroom⟩, by omega, _, hcreated⟩
  · rw [hpage] at hrun
    obtain ⟨rfl, rfl⟩ := Prod.mk.inj (Option.some.inj ((if_pos (.inl rfl)).symm.trans hrun))
    refine .inl ⟨fun hcan ↦ absurd hfull hcan.1.ne', by omega, ?_⟩
    exact { Advances.refl e k with }

end

end Kernel

end DemosOS
