import Mathlib.Data.Set.BooleanAlgebra
import Mathlib.Order.CompletePartialOrder
import DemosOS.Mem.Requests

/-!
# Isolation of address spaces

What the invariant of the pages says in every state that requests lead to: pages have one owner,
the allocator hands out nobody's page, what the memory management unit finds in the tables of a
process belongs to that process, and the lists in `mm_struct` say the same as the tables.
-/

namespace DemosOS

open Lib Kernel

namespace System

/-- The user pages and the page tables of a process. -/
def pagesOf (s : System) (p : PcbPtr) : Set Nat :=
  { a | (∃ j, s.Owns (.userPage p j) a) ∨ ∃ l, s.Owns (.table p l) a }

/-- Pages have one owner, and no process reaches the pages of another one. -/
structure Isolated (s : System) : Prop where
  unique : ∀ o o' a, s.Owns o a → s.Owns o' a → o = o'
  used : ∀ o a, s.Owns o a → s.kernel.memory.InUse a
  fresh : ∀ a k', s.kernel.getFreePage = (a, k') → a ≠ 0 → ∀ o, ¬ s.Owns o a
  tables : ∀ p ∈ s.live, ∀ l t, s.kernel.TablePage (s.kernel.pcb p).mm.pgd l t →
    s.Owns (.table p l) t
  leaves : ∀ p ∈ s.live, ∀ virtualAddress x, s.kernel.translate p virtualAddress = some x →
    ∃ j, s.Owns (.userPage p j) (x - virtualAddress % PAGE_SIZE)
  disjoint : ∀ p ∈ s.live, ∀ p' ∈ s.live, p ≠ p' → Disjoint (s.pagesOf p) (s.pagesOf p')

end System

/-- The lists in the `mm_struct` of a process say what its page tables say. -/
structure Accounted (k : Kernel Pointers) (p : PcbPtr) : Prop where
  count : (k.pcb p).mm.nUserPages = 16
  address : ∀ j < 16, ((k.pcb p).mm.userPages j).virtualAddress = j * 4096
  leaf : ∀ virtualAddress a, virtualAddress % PAGE_SIZE = 0 → virtualAddress < 2 ^ 48 →
    (k.translate p virtualAddress = some a ↔
      ∃ j < (k.pcb p).mm.nUserPages, (k.pcb p).mm.userPages j = ⟨a, virtualAddress⟩)
  userPages_once : ∀ j < (k.pcb p).mm.nUserPages, ∀ j' < (k.pcb p).mm.nUserPages,
    ((k.pcb p).mm.userPages j).physicalAddress =
      ((k.pcb p).mm.userPages j').physicalAddress → j = j'
  table : ∀ t, (∃ l, k.TablePage (k.pcb p).mm.pgd l t) ↔
    ∃ l < (k.pcb p).mm.nKernelPages, (k.pcb p).mm.kernelPages l = t
  kernelPages_once : ∀ l < (k.pcb p).mm.nKernelPages, ∀ l' < (k.pcb p).mm.nKernelPages,
    (k.pcb p).mm.kernelPages l = (k.pcb p).mm.kernelPages l' → l = l'
  nUserPages_le : (k.pcb p).mm.nUserPages ≤ MAX_PROCESS_PAGES
  nKernelPages_le : (k.pcb p).mm.nKernelPages ≤ MAX_PROCESS_PAGES

/-- What the current process asks for does not write behind the arrays of an `mm_struct`, as
long as there are free pages. -/
structure InBounds [KernelCode] (k : Kernel Pointers) (user : Set PcbPtr) : Prop where
  moveToUserMode : k.currentProcess ∉ user → 20 ≤ k.memory.free →
    ∀ start size pc, (k.moveToUserMode start size pc).isSome
  exec : k.currentProcess ∈ user → ∀ buffer size,
    ((k.freeUserPages (List.range k.current.mm.nUserPages)).bind
      (·.copyCode k.currentProcess buffer size)).isSome
  fork : k.currentProcess ∈ user → 21 ≤ k.memory.free → (k.copyProcess 0 0 0).isSome

namespace System.Sound

variable {s : System} {p : PcbPtr}

/-! ## What the tables say -/

/-- A process in user mode has a full address space. -/
theorem fullSpace (h : s.Sound) (hp : p ∈ s.user) :
    ∃ us ts, us.length = MAX_PROCESS_PAGES ∧ ts.length = 4 ∧ (us ++ ts).Nodup ∧
      (∀ a ∈ us ++ ts, s.kernel.memory.InUse a) ∧
      AddressSpace s.kernel.memory (s.kernel.pcb p).mm us ts := by
  have hlive := h.owned.users hp
  obtain ⟨us, ts, hlen, hspace⟩ := h.owned.full p hlive hp
  obtain ⟨hnodup, hused, -⟩ := h.owned.pages hlive hspace
  refine ⟨us, ts, hlen, hspace.complete ?_, hnodup, hused, hspace⟩
  rintro rfl
  exact absurd hlen (by decide)

/-- A process that has not reached user mode has no tables. -/
theorem tablePage_of_empty (h : s.Sound) (hp : p ∈ s.live) (hu : p ∉ s.user) {l t : Nat} :
    ¬ s.kernel.TablePage (s.kernel.pcb p).mm.pgd l t := by
  have hpgd := (h.owned.empty p hp hu).2.2
  intro htable
  induction htable with
  | pgd hne => exact hne hpgd
  | next _ _ _ _ ih => exact ih

/-- The tables that a walk passes through are pages of the process. -/
theorem owns_table (h : s.Sound) (hp : p ∈ s.live) {l t : Nat}
    (htable : s.kernel.TablePage (s.kernel.pcb p).mm.pgd l t) : s.Owns (.table p l) t := by
  by_cases hu : p ∈ s.user
  · obtain ⟨us, ts, -, hts, -, hused, hspace⟩ := h.fullSpace hu
    exact ⟨hp, hspace.table_iff.mpr ((hspace.tablePage_iff hused hts).mp htable)⟩
  · exact absurd htable (h.tablePage_of_empty hp hu)

/-- The pages that addresses are translated to are user pages of the process. -/
theorem owns_leaf (h : s.Sound) (hp : p ∈ s.live) {virtualAddress x : Nat}
    (hx : s.kernel.translate p virtualAddress = some x) :
    ∃ j, s.Owns (.userPage p j) (x - virtualAddress % PAGE_SIZE) := by
  by_cases hu : p ∈ s.user
  · obtain ⟨us, ts, hus, hts, -, hused, hspace⟩ := h.fullSpace hu
    obtain ⟨j, hj, -, rfl⟩ := (hspace.walk_eq_some hused hts hus).mp hx
    refine ⟨j, hp, hspace.userPage_iff.mpr ?_⟩
    rw [Nat.add_sub_cancel, List.getElem?_eq_getElem hj]
  · have hpgd := (h.owned.empty p hp hu).2.2
    rw [Kernel.translate, hpgd, walk_eq, if_pos rfl] at hx
    cases hx

theorem isolated (h : s.Sound) : s.Isolated where
  unique _ _ _ ho ho' := h.owned.exclusive.unique ho ho'
  used _ _ ho := h.owned.exclusive.used ho
  fresh a k' hpage hne := by
    obtain ⟨i, hi, hfree, hget⟩ | ⟨-, hget⟩ := s.kernel.getFreePage_cases
    · obtain ⟨rfl, -⟩ := Prod.mk.inj (hget.symm.trans hpage)
      exact h.owned.free_not_owns hi hfree
    · obtain ⟨rfl, -⟩ := Prod.mk.inj (hget.symm.trans hpage)
      exact absurd rfl hne
  tables _ hp _ _ htable := h.owns_table hp htable
  leaves _ hp _ _ hx := h.owns_leaf hp hx
  disjoint p hp p' hp' hne := by
    rw [Set.disjoint_left]
    rintro a (⟨j, hj⟩ | ⟨l, hl⟩) (⟨j', hj'⟩ | ⟨l', hl'⟩)
    · exact hne (Owner.userPage.inj (h.owned.exclusive.unique hj hj')).1
    · cases h.owned.exclusive.unique hj hl'
    · cases h.owned.exclusive.unique hl hj'
    · exact hne (Owner.table.inj (h.owned.exclusive.unique hl hl')).1

/-! ## The lists of a process -/

theorem accounted (h : s.Sound) (hp : p ∈ s.user) : Accounted s.kernel p := by
  obtain ⟨us, ts, hus, hts, hnodup, hused, hspace⟩ := h.fullSpace hp
  have hn : (s.kernel.pcb p).mm.nUserPages = 16 := hspace.nUserPages.trans hus
  have hm : (s.kernel.pcb p).mm.nKernelPages = 4 := hspace.nKernelPages.trans hts
  have hlt : ∀ {j}, j < 16 → j < us.length := fun hj ↦ hj.trans_eq hus.symm
  obtain ⟨hnodup_us, hnodup_ts, -⟩ := List.nodup_append.mp hnodup
  refine ⟨hn, ?_, ?_, ?_, ?_, ?_, hn.le, by rw [hm]; decide⟩
  · intro j hj
    rw [hspace.userPages j (hlt hj)]
    rfl
  · intro virtualAddress a hpage hsmall
    rw [Kernel.translate, hspace.walk_eq_some hused hts hus, hn, hpage,
      Nat.mod_eq_of_lt hsmall]
    constructor
    · rintro ⟨j, hj, hva, rfl⟩
      refine ⟨j, hj.trans_eq hus, ?_⟩
      rw [hspace.userPages j hj, ← hva, Nat.add_zero, Nat.add_zero]
    · rintro ⟨j, hj, hentry⟩
      rw [hspace.userPages j (hlt hj)] at hentry
      obtain ⟨rfl, rfl⟩ := UserPage.mk.inj hentry
      exact ⟨j, hlt hj, Nat.add_zero _, (Nat.add_zero _).symm⟩
  · intro j hj j' hj' heq
    rw [hn] at hj hj'
    rw [hspace.userPages j (hlt hj), hspace.userPages j' (hlt hj')] at heq
    exact (List.Nodup.getElem_inj_iff hnodup_us).mp heq
  · intro t
    constructor
    · rintro ⟨l, hl⟩
      exact ⟨l, hspace.table_iff.mpr ((hspace.tablePage_iff hused hts).mp hl)⟩
    · rintro ⟨l, hl⟩
      exact ⟨l, (hspace.tablePage_iff hused hts).mpr (hspace.table_iff.mp hl)⟩
  · intro l hl l' hl' heq
    rw [hspace.nKernelPages] at hl hl'
    rw [hspace.kernelPages l hl, hspace.kernelPages l' hl'] at heq
    exact (List.Nodup.getElem_inj_iff hnodup_ts).mp heq

/-! ## Room in the arrays -/

/-- The memory of a process that enters user mode. -/
theorem copyCode_takes (h : s.Sound) (hu : s.kernel.currentProcess ∉ s.user) (start size : Nat) :
    Takes 20 id s.kernel (s.kernel.copyCode s.kernel.currentProcess start size) fun _ ↦ True := by
  have hempty := h.owned.empty _ h.current_live hu
  have htakes := (h.owned.building h.current_live hempty).copyCode start size
  exact htakes.weaken fun _ _ _ ↦ trivial

/-- The memory of a child, after the page of its control block has been taken. -/
theorem prepareChild_takes [KernelCode] (h : s.Sound) (hu : s.kernel.currentProcess ∈ s.user)
    {i : Nat} (hi : i < N_PAGES) (hfree : s.kernel.memory.memoryPages i = false) :
    Takes 20 id (s.kernel.takePage i) ((s.kernel.takePage i).prepareChild 0 0 0 (.page i))
      fun _ ↦ True := by
  obtain ⟨hnew, howned⟩ := h.owned.adopt hi hfree
  have hne : PcbPtr.page i ≠ s.kernel.currentProcess := fun he ↦ hnew (he ▸ h.current_live)
  obtain ⟨us, ts, hus, hspace⟩ := howned.full _ (.inr h.current_live) hu
  have htakes : Takes _ id (s.kernel.takePage i)
      ((s.kernel.takePage i).prepareChild 0 0 0 (.page i)) _ :=
    howned.prepareChild_copy (.inr h.current_live) (.inl rfl) hne
      (howned.empty _ (.inl rfl) fun hin ↦ hnew (h.owned.users hin)) hspace rfl
  rw [hus] at htakes
  exact htakes.weaken fun _ _ _ ↦ trivial

theorem createProcess_isSome [KernelCode] (h : s.Sound) (hu : s.kernel.currentProcess ∈ s.user)
    (hfree : 21 ≤ s.kernel.memory.free) : (s.kernel.createProcess 0 0 0).isSome := by
  rw [createProcess_eq]
  obtain ⟨i, hi, hmark, buffer, hbuffer, hne, hpage⟩ | ⟨hfull, hpage⟩ :=
    s.kernel.allocateKernelPage_cases
  · rw [hpage]
    dsimp only
    split_ifs with hfail
    · rfl
    · have hcount := takePage_free hi hmark
      obtain ⟨k₂, hk₂, hsame, -⟩ := (h.prepareChild_takes hu hi hmark).enough (by omega)
      obtain ⟨k', hk', -⟩ := h.createChild hi hmark (Nat.lt_of_not_le (not_or.mp hfail).2) hk₂ hsame
      rw [hbuffer]
      exact Option.isSome_of_eq_some hk'
  · rw [hpage, if_pos (.inl rfl)]
    rfl

theorem inBounds [KernelCode] (h : s.Sound) : InBounds s.kernel s.user where
  moveToUserMode hu hfree start size pc := by
    have h₀ : Sound ⟨s.kernel.mapGlobals fun g ↦ g.modifyPcb g.currentProcess fun b ↦
        { b with ptRegs := { PtRegs.zero with
          pstate := PSR_MODE_EL0t, pc := pc, sp := 16 * PAGE_SIZE } }, s.held, s.user⟩ :=
      h.modifyCurrent fun _ ↦ rfl
    obtain ⟨k', hk', -⟩ := (h₀.copyCode_takes hu start size).enough hfree
    have hrun := congrArg (Option.bind · fun k ↦ some ((0 : Int), k)) hk'
    exact Option.isSome_of_eq_some hrun
  exec hu buffer size := by
    obtain ⟨us, ts, hus, hts, -, -, hspace⟩ := h.fullSpace hu
    obtain ⟨k₁, hk₁, hback, hbuilding⟩ := h.owned.release h.current_live hspace
    have htakes := hbuilding.copyCode buffer size
    rw [hts] at htakes
    obtain ⟨k', hk', -⟩ := htakes.enough (by
      rw [hback.free, hus]
      exact Nat.le_add_left _ _)
    rw [hk₁, Option.bind_some, hk']
    rfl
  fork hu hfree := by
    have h₀ : Sound ⟨s.kernel.mapGlobals (·.preemptDisable), s.held, s.user⟩ :=
      h.modifyCurrent fun _ ↦ rfl
    obtain ⟨⟨r, k'⟩, hk'⟩ := Option.isSome_iff_exists.mp (h₀.createProcess_isSome hu hfree)
    rw [Kernel.copyProcess, hk']
    dsimp only [Option.bind_eq_bind, Option.bind_some]
    split_ifs
    · rfl
    · rfl

end System.Sound

/-! ## A process that forks -/

/-- Some address of `ret_from_fork`. -/
@[reducible] def someCode : KernelCode := ⟨0⟩

/-- A kernel thread is created and runs. -/
def threadRun [KernelCode] : Option (Kernel Pointers) :=
  ((Kernel.boot .roundRobin fun _ ↦ 0).copyProcess PF_KTHREAD 0 0).bind fun r ↦ r.2.handleTimerTick

/-- It enters user mode. -/
def userRun [KernelCode] : Option (Kernel Pointers) :=
  threadRun.bind fun k ↦ (k.moveToUserMode 0 0 0).map (·.2)

/-- It forks. -/
def forkRun [KernelCode] : Option (Kernel Pointers) :=
  userRun.bind fun k ↦ (k.copyProcess 0 0 0).map (·.2)

/-- The run of a process in user mode. -/
theorem userRun_spec : let _ := someCode; ∃ s : System, s.Reachable ∧ some s.kernel = userRun ∧
    s.held = [] ∧ s.user = {.page 0} := by
  intro _
  have hthread : ((Kernel.boot .roundRobin fun _ ↦ 0).copyProcess PF_KTHREAD 0 0).map
      (·.2.failures) = some 0 := by decide +kernel
  have htick : threadRun.map (fun k ↦ (k.failures, k.currentProcess)) = some (0, .page 0) := by
    decide +kernel
  have huser : userRun.map (·.failures) = some 0 := by decide +kernel
  obtain ⟨⟨r₁, k₁⟩, hk₁, hfail₁⟩ := Option.map_eq_some_iff.mp hthread
  have hrun₂ : threadRun = k₁.handleTimerTick := by rw [threadRun, hk₁, Option.bind_some]
  obtain ⟨k₂, hk₂, h₂⟩ := Option.map_eq_some_iff.mp htick
  obtain ⟨hfail₂, hcur₂⟩ := Prod.mk.inj h₂
  have hrun₃ : userRun = (k₂.moveToUserMode 0 0 0).map (·.2) := by
    rw [userRun, hk₂, Option.bind_some]
  obtain ⟨k₃, hk₃, hfail₃⟩ := Option.map_eq_some_iff.mp huser
  rw [hrun₂] at hk₂
  rw [hrun₃] at hk₃
  obtain ⟨⟨r₃, k₃'⟩, hmove, he₃⟩ := Option.map_eq_some_iff.mp hk₃
  obtain rfl : k₃' = k₃ := he₃
  have h₁ : System.Step (.boot .roundRobin fun _ ↦ 0) ⟨k₁, [], ∅⟩ := by
    refine ⟨.copyProcess PF_KTHREAD 0 0, ⟨r₁, hk₁, rfl, ?_⟩, hfail₁⟩
    ext p
    simp [System.userAfterCopy, System.boot, PF_KTHREAD]
  have h₂ : System.Step ⟨k₁, [], ∅⟩ ⟨k₂, [], ∅⟩ :=
    ⟨.sched .tick, ⟨by simp, trivial, hk₂, rfl, rfl⟩, hfail₂.trans hfail₁.symm⟩
  have h₃ : System.Step ⟨k₂, [], ∅⟩ ⟨k₃', [], {.page 0}⟩ := by
    refine ⟨.moveToUserMode 0 0 0, ⟨Set.notMem_empty _, r₃, hmove, rfl, ?_⟩,
      hfail₃.trans hfail₂.symm⟩
    rw [hcur₂]
    simp
  exact ⟨⟨k₃', [], {.page 0}⟩, ⟨.roundRobin, _, .tail (.tail (.single h₁) h₂) h₃⟩,
    hk₃.symm.trans hrun₃.symm, rfl, rfl⟩

/-- The run of a process that forks: both processes are in user mode. -/
theorem forkRun_spec : let _ := someCode; ∃ s : System, s.Reachable ∧
    .page 0 ∈ s.user ∧ .page 21 ∈ s.user := by
  intro _
  have huser : userRun.map (fun k ↦ (k.failures, k.currentProcess, k.nProcesses, k.processes 1)) =
      some (0, .page 0, 2, some (.page 0)) := by decide +kernel
  have hfork : forkRun.map (fun k ↦ (k.failures, k.processes 2)) = some (0, some (.page 21)) := by
    decide +kernel
  obtain ⟨⟨k₃, held, user⟩, hreach, hk₃, rfl, rfl⟩ := userRun_spec
  dsimp only at hk₃
  rw [← hk₃] at huser
  obtain ⟨hfail₃, h₃⟩ := Prod.mk.inj (Option.some.inj huser)
  obtain ⟨hcur₃, h₃⟩ := Prod.mk.inj h₃
  obtain ⟨hcount₃, hslot₃⟩ := Prod.mk.inj h₃
  obtain ⟨k₄, hk₄, h₄⟩ := Option.map_eq_some_iff.mp hfork
  obtain ⟨hfail₄, hslot₄⟩ := Prod.mk.inj h₄
  rw [forkRun, ← hk₃, Option.bind_some] at hk₄
  obtain ⟨⟨r₄, k₄'⟩, hcopy, he₄⟩ := Option.map_eq_some_iff.mp hk₄
  obtain rfl : k₄' = k₄ := he₄
  have h₄ : System.Step ⟨k₃, [], {.page 0}⟩
      ⟨k₄', [], System.userAfterCopy ⟨k₃, [], {.page 0}⟩ 0 k₄'⟩ :=
    ⟨.copyProcess 0 0 0, ⟨r₄, hcopy, rfl, rfl⟩, hfail₄.trans hfail₃.symm⟩
  have hnew : ¬ k₃.Known (.page 21) := by
    rintro ⟨i, hi⟩
    obtain ⟨a, ha⟩ := hreach.sound.sched
    have htable := ha.inv.table
    rw [← ha.sim.globals] at htable
    have hlt : i < 2 := (htable.slot hi).1.trans_eq hcount₃
    obtain rfl | rfl : i = 0 ∨ i = 1 := by omega
    · cases htable.init.symm.trans hi
    · cases hslot₃.symm.trans hi
  obtain ⟨algorithm, timerClo, hsteps⟩ := hreach
  refine ⟨_, ⟨algorithm, timerClo, hsteps.tail h₄⟩, ?_, ?_⟩
  · exact .inl rfl
  · exact .inr ⟨rfl, hcur₃, ⟨2, hslot₄⟩, hnew⟩

/-! ## The claims about the pages -/

end DemosOS
