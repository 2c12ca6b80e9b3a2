import DemosOS.Mem.Exec
import DemosOS.Mem.Fork
import DemosOS.Sched.Core

/-!
# Requests for pages

Everything that takes pages or gives them back, as the processes ask for it: the creation of
processes, the loading of programs, the descriptor calls and `malloc`; and the operations of the
scheduler, which decide who asks next.  A run keeps with the kernel which pages were given away
as buffers and which processes have reached user mode.

`System.Sound` is the invariant of these runs: the queues are in order, and the pages are
`Owned`.
-/

namespace DemosOS

open Lib Kernel

/-! ## The scheduler does not see the memory -/

/-- What the invariant of the scheduler reads in a control block. -/
def PCB.scheduling (b : PCB) : ProcessState × Int × Nat := (b.state, b.priority, b.pid)

theorem Inv.of_scheduling {a : Kernel Lists} {g : Globals} (h : Inv a)
    (hprocesses : g.processes = a.processes) (hn : g.nProcesses = a.nProcesses)
    (hcur : g.currentProcess = a.currentProcess) (hlevel : g.queueLevel = a.queueLevel)
    (hpcb : ∀ p, a.Known p → (g.pcb p).scheduling = (a.pcb p).scheduling) : Inv ⟨g, a.queues⟩ := by
  have hknown : ∀ p, g.Known p ↔ a.Known p := by
    intro p
    rw [Globals.Known, Globals.Known, hprocesses]
  have hstate : ∀ {p}, a.Known p → (g.pcb p).state = (a.pcb p).state := fun hp ↦
    congrArg Prod.fst (hpcb _ hp)
  have hpriority : ∀ {p}, a.Known p → (g.pcb p).priority = (a.pcb p).priority := fun hp ↦
    congrArg (·.2.1) (hpcb _ hp)
  have hpid : ∀ {p}, a.Known p → (g.pcb p).pid = (a.pcb p).pid := fun hp ↦
    congrArg (·.2.2) (hpcb _ hp)
  refine ⟨⟨h.nodup, h.disjoint, ?_, h.init⟩, ⟨?_, ?_, ?_, ?_⟩, ?_, ?_, ?_, ?_, ?_, ?_, ?_,
    h.queueExists, ?_⟩
  · exact fun q p hp ↦ (hstate (h.known q p hp)).trans (h.ready q p hp)
  · intro i p hi
    dsimp only at hi ⊢
    rw [hprocesses] at hi
    rw [hn, hpid ⟨i, hi⟩]
    exact h.table.slot hi
  · intro i hi
    dsimp only at hi ⊢
    rw [hn] at hi
    rw [hprocesses]
    exact h.table.filled hi
  · exact (congrFun hprocesses 0).trans h.table.init
  · exact hn.trans_le h.table.bound
  · exact fun q p hp ↦ (hknown p).mpr (h.known q p hp)
  · intro p hp
    have hp := (hknown p).mp hp
    exact (h.priority p hp).trans_eq (hpriority hp).symm
  · intro p hp hinit hready
    have hp := (hknown p).mp hp
    exact h.queued p hp hinit ((hstate hp).symm.trans hready)
  · intro p hp hinit hrunning
    have hp := (hknown p).mp hp
    exact (h.running p hp hinit ((hstate hp).symm.trans hrunning)).trans hcur.symm
  · dsimp only
    rw [hcur]
    exact (hknown _).mpr h.current
  · intro hinit
    dsimp only [Globals.current] at hinit ⊢
    rw [hcur] at hinit ⊢
    rw [hstate h.current]
    exact h.currentState hinit
  · intro i
    exact (congrFun hlevel i).trans_lt (h.level i)
  · dsimp only
    rw [hstate ⟨0, h.table.init⟩]
    exact h.initState

section

variable {k k' : Kernel Pointers} {a : Kernel Lists} {T : Set Nat} {P : Set PcbPtr}

/-- Code that leaves the links and the scheduling data of the processes alone. -/
theorem Sound.of_scheduling (h : Sound k a) (hprocesses : k'.processes = k.processes)
    (hn : k'.nProcesses = k.nProcesses) (hcur : k'.currentProcess = k.currentProcess)
    (hlevel : k'.queueLevel = k.queueLevel) (hends : k'.queues.ends = k.queues.ends)
    (hnext : ∀ p, k.Known p → k'.queues.next p = k.queues.next p)
    (hpcb : ∀ p, k.Known p → (k'.pcb p).scheduling = (k.pcb p).scheduling) :
    Sound k' ⟨k'.toGlobals, a.queues⟩ := by
  have hglobals := h.sim.globals
  have hknown : ∀ p, a.Known p ↔ k.Known p := fun p ↦ by rw [hglobals]
  refine ⟨⟨rfl, h.sim.queues.congr hends fun q p hp ↦ hnext p ((hknown p).mp (h.inv.known q p hp))⟩,
    h.inv.of_scheduling ?_ ?_ ?_ ?_ ?_, ?_⟩
  · rw [← hglobals, hprocesses]
  · rw [← hglobals, hn]
  · rw [← hglobals, hcur]
  · rw [← hglobals, hlevel]
  · intro p hp
    rw [← hglobals]
    exact hpcb p ((hknown p).mp hp)
  · intro hinit
    dsimp only [Globals.current] at hinit ⊢
    have hcurrent : k.Known k.currentProcess := by
      rw [← hknown, hglobals]
      exact h.inv.current
    have hstate : (k'.pcb k.currentProcess).state = (k.pcb k.currentProcess).state :=
      congrArg Prod.fst (hpcb _ hcurrent)
    have hsettled := h.settled
    rw [← hglobals] at hsettled
    rw [hcur] at hinit ⊢
    rw [hstate]
    exact hsettled hinit

/-- Code that touches pages of nobody, and of control blocks no scheduling data. -/
theorem Sound.of_confined (h : Sound k a) (hconfined : Confined T P k k')
    (hT : ∀ p, k.Known p → p.Outside T)
    (hP : ∀ p ∈ P, k.Known p → (k'.pcb p).scheduling = (k.pcb p).scheduling) :
    Sound k' ⟨k'.toGlobals, a.queues⟩ := by
  have hlevel : k'.queueLevel = k.queueLevel := by
    have hlevel := congrArg Globals.queueLevel hconfined.rest
    exact hlevel
  refine h.of_scheduling hconfined.processes hconfined.nProcesses hconfined.currentProcess hlevel
    hconfined.ends (fun p hp ↦ hconfined.next p (hT p hp)) fun p hp ↦ ?_
  by_cases hpP : p ∈ P
  · exact hP p hpP hp
  · rw [hconfined.pcb p hpP (hT p hp)]

end

/-! ## Registering a process -/

/-- Scheduling leaves the bookkeeping of pages alone. -/
theorem SameBooks.of_core {k k' : Kernel Pointers} (h : k'.toGlobals.core = k.toGlobals.core) :
    SameBooks k k' := by
  have hmemory := Globals.memory_of_core h
  refine ⟨?_, ?_, by rw [hmemory], by rw [hmemory], by rw [hmemory]⟩
  · exact fun p ↦ Globals.field_of_core h PCB.mm (fun _ ↦ rfl) p
  · exact fun p ↦ Globals.field_of_core h PCB.files (fun _ ↦ rfl) p

/-- What `add_process_to_scheduler` does with a new process for which there is room. -/
structure Registered (c : PcbPtr) (k k' : Kernel Pointers) : Prop where
  memory : k'.memory = k.memory
  processes : k'.processes = Function.update k.processes (k.pcb c).pid (some c)
  nProcesses : k'.nProcesses = k.nProcesses + 1
  currentProcess : k'.currentProcess = k.currentProcess
  pcb : k'.pcb = k.pcb

namespace Registered

variable {c : PcbPtr} {k k' : Kernel Pointers} (h : Registered c k k')
include h

theorem books : SameBooks k k' where
  mm p := by rw [h.pcb]
  files p := by rw [h.pcb]
  marks := by rw [h.memory]
  tables := by rw [h.memory]
  records := by rw [h.memory]

theorem known (hslot : ∀ {i p}, k.processes i = some p → i < k.nProcesses)
    (hpid : (k.pcb c).pid = k.nProcesses) (p : PcbPtr) : k'.Known p ↔ p = c ∨ k.Known p := by
  rw [Globals.Known, h.processes, hpid]
  constructor
  · rintro ⟨i, hi⟩
    rw [Function.update_apply] at hi
    split_ifs at hi
    · exact .inl (Option.some.inj hi).symm
    · exact .inr ⟨i, hi⟩
  · rintro (rfl | ⟨i, hi⟩)
    · exact ⟨_, Function.update_self ..⟩
    · have hlt := hslot hi
      exact ⟨i, (Function.update_of_ne hlt.ne _ _).trans hi⟩

end Registered

theorem addProcessToScheduler_memory {c : PcbPtr} {k k' : Kernel Pointers} {r : Int}
    (h : k.addProcessToScheduler c = some (r, k')) : k'.memory = k.memory := by
  obtain ⟨-, -, rfl⟩ | ⟨-, -, k₁, hk₁, rfl⟩ := addProcessToScheduler_cases h
  · rfl
  · split_ifs at hk₁
    · have hmemory := congrArg Globals.memory (steady_enqueueProcess hk₁).frozen
      exact hmemory
    · rw [← Option.some.inj hk₁]
      rfl

/-- Linking a process that is `READY` leaves the control blocks alone. -/
theorem enqueueProcess_pcb {p : PcbPtr} {k k' : Kernel Pointers}
    (h : k.enqueueProcess p = some k') (hp : (k.pcb p).state = .ready) : k'.pcb = k.pcb := by
  have hready : k.toGlobals.setState p .ready = k.toGlobals := Globals.setState_eq_self hp
  have hlinked : ∀ q, (k.enqueueProcessTo q p).pcb = k.pcb := by
    intro q
    unfold Kernel.enqueueProcessTo
    split_ifs
    · rfl
    · rw [hready]
  unfold Kernel.enqueueProcess activeEnqueue at h
  split_ifs at h with hinit
  · rw [← Option.some.inj h]
  · split at h
    · rw [← Option.some.inj h]
      exact hlinked _
    · unfold Kernel.enqueueSjf Kernel.enqueueSortedTo at h
      rw [if_neg hinit, hready] at h
      dsimp only at h
      split at h
      · rw [← Option.some.inj h]
      · split_ifs at h
        · rw [← Option.some.inj h]
        · obtain ⟨_, -, h⟩ := Option.bind_eq_some_iff.mp h
          rw [← Option.some.inj h]
    · rw [← Option.some.inj h]
      exact hlinked _

theorem addProcessToScheduler_registered {c : PcbPtr} {k k' : Kernel Pointers} {r : Int}
    (h : k.addProcessToScheduler c = some (r, k')) (hroom : k.nProcesses < N_PROCESSES)
    (hpid : (k.pcb c).pid = k.nProcesses) (hready : (k.pcb c).state = .ready) :
    r = 0 ∧ Registered c k k' := by
  have hmemory := addProcessToScheduler_memory h
  obtain ⟨hfull, -, -⟩ | ⟨-, rfl, k₁, hk₁, rfl⟩ := addProcessToScheduler_cases h
  · omega
  · rw [if_pos hready] at hk₁
    have hfrozen := (steady_enqueueProcess hk₁).frozen
    have hpcb := enqueueProcess_pcb hk₁ hready
    refine ⟨rfl, hmemory, Globals.processes_of_frozen hfrozen, ?_, 
      (Relinked.enqueueProcess hk₁).currentProcess, hpcb⟩
    have hcount : k₁.nProcesses = (k.mapGlobals (·.register c)).nProcesses :=
      Globals.nProcesses_of_frozen hfrozen
    exact congrArg (· + 1) hcount

theorem registerChild_failures {k k' : Kernel Pointers} {c : PcbPtr} {pid : Nat} {r : Int}
    (h : k.registerChild c pid = some (r, k')) : k'.failures = k.failures := by
  obtain ⟨⟨r₁, k₁⟩, hadd, hr⟩ := Option.bind_eq_some_iff.mp h
  have hk' : k' = k₁ := by
    dsimp only at hr
    split_ifs at hr
    · exact (Prod.mk.inj (Option.some.inj hr)).2.symm
    · exact (Prod.mk.inj (Option.some.inj hr)).2.symm
  rw [hk', Kernel.failures, addProcessToScheduler_memory hadd]
  rfl

section

variable [KernelCode] {k : Kernel Pointers} {a : Kernel Lists} {c : PcbPtr}

theorem completeChild_pcb (flags address : Nat) (c : PcbPtr) (k : Kernel Pointers) :
    (k.completeChild flags address c).pcb c =
      Kernel.initialise flags address k.nProcesses k.current (k.pcb c) :=
  k.modifyPcb_pcb_self c _

theorem completeChild_books (flags address : Nat) (c : PcbPtr) (k : Kernel Pointers) :
    SameBooks k (k.completeChild flags address c) := by
  have hmm : ∀ b, (Kernel.initialise flags address k.nProcesses k.current b).mm = b.mm := fun b ↦ by
    rw [Kernel.initialise]
  have hfiles : ∀ b, (Kernel.initialise flags address k.nProcesses k.current b).files = b.files :=
    fun b ↦ by rw [Kernel.initialise]
  exact .modifyPcb k c hmm hfiles

/-- The end of `copy_process`: the new process is in the table, and nothing else has changed. -/
theorem Sound.registerChild (h : Sound k a) (hc : ¬ k.Known c) (hroom : k.nProcesses < N_PROCESSES)
    (flags address : Nat) :
    ∃ k' a', (k.completeChild flags address c).registerChild c k.nProcesses =
        some ((k.nProcesses : Int), k') ∧ Sound k' a' ∧
      Registered c (k.completeChild flags address c) k' := by
  have hpcb := completeChild_pcb flags address c k
  generalize hb : (k.completeChild flags address c).pcb c = b at hpcb
  have hcur : k.Known k.currentProcess := by
    have hcur := h.inv.current
    rw [← h.sim.globals] at hcur
    exact hcur
  have hpriority : 1 ≤ (k.pcb k.currentProcess).priority := by
    have hpriority := h.inv.priority k.currentProcess
    rw [← h.sim.globals] at hpriority
    exact hpriority hcur
  have hpid : b.pid = k.nProcesses := by rw [hpcb, Kernel.initialise]
  have hready : b.state = .ready := by rw [hpcb, Kernel.initialise]
  have hprio : 1 ≤ b.priority := by
    rw [hpcb, Kernel.initialise]
    exact hpriority
  have hop : (Op.add c b).Enabled k.toGlobals := ⟨hc, hpid, hready, hprio⟩
  have hsame : k.mapGlobals (·.modifyPcb c fun _ ↦ b) = k.completeChild flags address c := by
    rw [hpcb]
    rfl
  obtain ⟨k', a', hrun, heff⟩ := h.run hop
  rw [Op.run, hsame] at hrun
  obtain ⟨⟨r, k''⟩, hadd, rfl⟩ := Option.map_eq_some_iff.mp hrun
  rw [← hb] at hpid hready
  obtain ⟨rfl, hregistered⟩ := addProcessToScheduler_registered hadd hroom hpid hready
  refine ⟨k'', a', ?_, heff.sound, hregistered⟩
  rw [Kernel.registerChild, hadd]
  rfl

end

/-! ## Runs -/

/-- A kernel, the pages that were given away as buffers, and the processes that have reached
user mode. -/
structure System where
  kernel : Kernel Pointers
  held : List Nat
  user : Set PcbPtr

/-- What a process can ask for, with what the FAT library returns, and the operations of the
scheduler. -/
inductive Request
  | /-- `copy_process`: a kernel thread, or a copy of the caller. -/
    copyProcess (cloneFlags function argument : Nat)
  | /-- `move_to_user_mode`. -/
    moveToUserMode (start size pc : Nat)
  | /-- `syscall_exec`. -/
    exec (file : Kernel.FatFile) (arguments : List (List UInt8))
  | /-- `syscall_create_dir`, `syscall_open_dir`, `syscall_open_file`, `syscall_close_file`. -/
    descriptor (call : Call) (error : Int)
  | /-- `syscall_malloc`. -/
    malloc
  | /-- An operation of the scheduler on the processes there are. -/
    sched (op : Op)

namespace System

/-- The processes of the table. -/
def live (s : System) : Set PcbPtr := { p | s.kernel.Known p }

/-- The page with the physical address `a` belongs to the owner. -/
def Owns (s : System) : Owner → Nat → Prop := s.kernel.Owns s.live s.held

/-- The processes in user mode after `copy_process`: a copy is in user mode if the caller is. -/
def userAfterCopy (s : System) (flags : Nat) (k' : Kernel Pointers) : Set PcbPtr :=
  { p | p ∈ s.user ∨ flags &&& PF_KTHREAD = 0 ∧ s.kernel.currentProcess ∈ s.user ∧
    k'.Known p ∧ ¬ s.kernel.Known p }

/-- The request of the current process leads from `s` to `s'`. -/
def Run [KernelCode] (s s' : System) : Request → Prop
  | .copyProcess flags function argument =>
      ∃ r, s.kernel.copyProcess flags function argument = some (r, s'.kernel) ∧
        s'.held = s.held ∧ s'.user = s.userAfterCopy flags s'.kernel
  | .moveToUserMode start size pc =>
      s.kernel.currentProcess ∉ s.user ∧
      ∃ r, s.kernel.moveToUserMode start size pc = some (r, s'.kernel) ∧ s'.held = s.held ∧
        s'.user = insert s.kernel.currentProcess s.user
  | .exec file arguments =>
      ∃ r, s.kernel.syscallExec file arguments = some r ∧ s'.kernel = r.kernel ∧
        s'.held = s.held ++ r.buffer.toList ∧
        s'.user = if r.value = 0 then insert s.kernel.currentProcess s.user else s.user
  | .descriptor call error =>
      ∃ r, call.run error s.kernel = .ok r ∧ s'.kernel = r.kernel ∧ s'.held = s.held ∧
        s'.user = s.user
  | .malloc =>
      ∃ address, s.kernel.syscallMalloc = (address, s'.kernel) ∧
        s'.held = (if address = -1 then s.held else s.held ++ [address.toNat - VA_START]) ∧
        s'.user = s.user
  | .sched op =>
      (∀ p b, op ≠ .add p b) ∧ op.Enabled s.kernel.toGlobals ∧ op.run s.kernel = some s'.kernel ∧
        s'.held = s.held ∧ s'.user = s.user

/-- A request during which no allocation fails. -/
def Step [KernelCode] (s s' : System) : Prop :=
  ∃ request, s.Run s' request ∧ s'.kernel.failures = s.kernel.failures

/-- The system at boot. -/
def boot (algorithm : Algorithm) (timerClo : Nat → BitVec 32) : System :=
  ⟨Kernel.boot algorithm timerClo, [], ∅⟩

/-- The states that requests lead to from boot. -/
def Reachable [KernelCode] (s : System) : Prop :=
  ∃ algorithm timerClo, Relation.ReflTransGen Step (boot algorithm timerClo) s

/-- The queues are in order, and the pages have one owner each. -/
structure Sound (s : System) : Prop where
  sched : ∃ a, DemosOS.Sound s.kernel a
  owned : Owned s.kernel s.live s.user s.held

namespace Sound

variable {s : System} {k' : Kernel Pointers} {T : Set Nat} {P : Set PcbPtr} {held' : List Nat}
  {i : Nat}

theorem current_live (h : s.Sound) : s.kernel.currentProcess ∈ s.live := by
  obtain ⟨a, ha⟩ := h.sched
  have hcur := ha.inv.current
  rw [← ha.sim.globals] at hcur
  exact hcur

/-- The control blocks of processes are in pages that are in use. -/
theorem control (h : s.Sound) {p : PcbPtr} (hp : p ∈ s.live) {a : Nat} (ha : p.pageStart = some a) :
    s.kernel.memory.InUse a :=
  h.owned.exclusive.used (o := .descriptor p .control) ⟨hp, ha⟩

theorem outside (h : s.Sound) {p : PcbPtr} (hp : p ∈ s.live)
    (hT : ∀ a ∈ T, ¬ s.kernel.memory.InUse a) :
    p.Outside T := fun a ha hmem ↦ hT a hmem (h.control hp ha)

/-- The control blocks of processes are not in a free page. -/
theorem outside_free (h : s.Sound) {p : PcbPtr} (hp : p ∈ s.live) (hi : i < N_PAGES)
    (hfree : s.kernel.memory.memoryPages i = false) : p.Outside {pageAddress i} := by
  refine h.outside hp ?_
  rintro a rfl
  exact Memory.not_inUse hi hfree

theorem live_eq {held : List Nat} {user : Set PcbPtr} (hconfined : Confined T P s.kernel k') :
    (System.mk k' held user).live = s.live := by
  ext p
  exact hconfined.known p

/-- Code that takes a page, and gives it away or back again. -/
theorem hold (h : s.Sound) (hi : i < N_PAGES) (hfree : s.kernel.memory.memoryPages i = false)
    (hconfined : Confined {pageAddress i} ∅ s.kernel k')
    (hheld : held' = s.held ∨ held' = s.held ++ [pageAddress i] ∧ k'.memory.memoryPages i = true) :
    Sound ⟨k', held', s.user⟩ := by
  obtain ⟨a, ha⟩ := h.sched
  refine ⟨⟨_, ha.of_confined hconfined (fun p hp ↦ h.outside_free hp hi hfree) (by simp)⟩, ?_⟩
  rw [live_eq hconfined]
  exact h.owned.hold hi hfree hconfined hheld

/-- Code that neither touches the bookkeeping nor the scheduling data. -/
theorem books (h : s.Sound) (hbooks : SameBooks s.kernel k')
    (hrest : { k'.toGlobals with pcb := s.kernel.pcb, memory := s.kernel.memory } =
      s.kernel.toGlobals) (hqueues : k'.queues = s.kernel.queues)
    (hpcb : ∀ p, (k'.pcb p).scheduling = (s.kernel.pcb p).scheduling) :
    Sound ⟨k', s.held, s.user⟩ := by
  obtain ⟨a, ha⟩ := h.sched
  have hprocesses : k'.processes = s.kernel.processes := by
    have hprocesses := congrArg Globals.processes hrest
    exact hprocesses
  have hn : k'.nProcesses = s.kernel.nProcesses := by
    have hn := congrArg Globals.nProcesses hrest
    exact hn
  have hcur : k'.currentProcess = s.kernel.currentProcess := by
    have hcur := congrArg Globals.currentProcess hrest
    exact hcur
  have hlevel : k'.queueLevel = s.kernel.queueLevel := by
    have hlevel := congrArg Globals.queueLevel hrest
    exact hlevel
  refine ⟨⟨_, ha.of_scheduling hprocesses hn hcur hlevel (by rw [hqueues])
    (fun _ _ ↦ by rw [hqueues]) fun p _ ↦ hpcb p⟩, ?_⟩
  have hlive : (System.mk k' s.held s.user).live = s.live := by
    ext p
    show k'.Known p ↔ s.kernel.Known p
    rw [Globals.Known, Globals.Known, hprocesses]
  rw [hlive]
  exact h.owned.books hbooks

/-- An operation of the scheduler. -/
theorem schedOp (h : s.Sound) {op : Op} (hadd : ∀ p b, op ≠ .add p b)
    (hop : op.Enabled s.kernel.toGlobals) (hrun : op.run s.kernel = some k') :
    Sound ⟨k', s.held, s.user⟩ := by
  obtain ⟨a, ha⟩ := h.sched
  obtain ⟨a', heff⟩ := ha.step hop hrun
  have hcore := Op.core_run hadd hrun
  have hlive : (System.mk k' s.held s.user).live = s.live := by
    ext p
    exact Globals.known_of_core hcore p
  refine ⟨⟨a', heff.sound⟩, ?_⟩
  rw [hlive]
  exact h.owned.books (.of_core hcore)

/-- A slot of the caller gets a new record. -/
theorem replaceSlot (h : s.Sound) {fd j : Nat} {u : Usage}
    (hslot : SlotReplaced s.kernel.currentProcess fd i j s.kernel k')
    (hi : ∀ o, s.Owns o (pageAddress i) → o = .descriptor s.kernel.currentProcess (.file fd))
    (hj : ∀ o, s.Owns o (pageAddress j) → o = .descriptor s.kernel.currentProcess (.file fd))
    (hu : u.Agrees k'.toGlobals s.kernel.currentProcess fd) : Sound ⟨k', s.held, s.user⟩ := by
  obtain ⟨a, ha⟩ := h.sched
  refine ⟨⟨_, ha.of_confined hslot.confined ?_ ?_⟩, ?_⟩
  · intro p hp b hb hmem
    have hcontrol : s.Owns (.descriptor p .control) b := ⟨hp, hb⟩
    rcases hmem with rfl | rfl
    · cases hi _ hcontrol
    · cases hj _ hcontrol
  · rintro p rfl -
    rw [hslot.control]
    rfl
  · rw [live_eq hslot.confined]
    exact h.owned.replaceSlot h.current_live hslot hi hj hu

/-- A call that opens something. -/
theorem openResource (h : s.Sound) {t : ResourceType} {call : Nat → FatCall}
    {onError : Int → Int} {error : Int} {r : FileResult}
    (hrun : s.kernel.openResource t call onError error = .ok r) :
    Sound ⟨r.kernel, s.held, s.user⟩ ∧ r.kernel.failures = s.kernel.failures ∧
      r.kernel.currentProcess = s.kernel.currentProcess := by
  obtain ⟨-, rfl⟩ | ⟨fd, i, hfd, hi, hfree, hcase⟩ := Kernel.openResource_cases hrun
  · exact ⟨h, rfl, rfl⟩
  · obtain ⟨-, rfl⟩ | ⟨-, j, hj, hne, hfree', rfl⟩ := hcase
    · have hconfined : Confined {pageAddress i} ∅ s.kernel ((s.kernel.takePage i).returnPage i) :=
        (Confined.takePage _ (Set.mem_singleton _)).trans
          (Confined.freePage _ (Set.mem_singleton _))
      exact ⟨h.hold hi hfree hconfined (.inl rfl), rfl, hconfined.currentProcess⟩
    · obtain ⟨hlt, hslot⟩ := Kernel.getFirstFreeFileDescriptor_eq_some hfd
      have hopened := Opened.of_kernel t hlt hslot hi hj hne hfree hfree'
        (h.outside h.current_live ?_)
      · refine ⟨h.replaceSlot hopened.slotReplaced ?_ ?_ hopened.agrees, rfl,
          hopened.confined.currentProcess⟩
        · exact fun o ho ↦ (h.owned.free_not_owns hi hfree o ho).elim
        · exact fun o ho ↦ (h.owned.free_not_owns hj hfree' o ho).elim
      · rintro b (rfl | rfl) hused
        · exact Memory.not_inUse hi hfree hused
        · exact Memory.not_inUse hj hfree' hused

/-- A call that closes something. -/
theorem closeFile (h : s.Sound) {fd error : Int} {r : FileResult}
    (hrun : s.kernel.syscallCloseFile fd error = .ok r) :
    Sound ⟨r.kernel, s.held, s.user⟩ ∧ r.kernel.failures = s.kernel.failures ∧
      r.kernel.currentProcess = s.kernel.currentProcess := by
  obtain ⟨usage, hs⟩ := h.owned.session h.current_live
  by_cases hrange : fd < 0 ∨ fd ≥ MAX_FILES_PER_PROCESS
  · rw [Kernel.syscallCloseFile, if_pos hrange] at hrun
    obtain rfl := Except.ok.inj hrun
    exact ⟨h, rfl, rfl⟩
  · obtain ⟨n, rfl⟩ := Int.eq_ofNat_of_zero_le (by omega : 0 ≤ fd)
    have hn : n < MAX_FILES_PER_PROCESS := by omega
    by_cases hopen : ∃ t, usage n = .opened t
    · obtain ⟨t, ht⟩ := hopen
      obtain ⟨i, hi, ⟨-, hclose⟩ | ⟨-, j, k', hclosed, hclose⟩⟩ :=
        hs.closed_cases error hn ht
      · obtain rfl := Except.ok.inj (hclose.symm.trans hrun)
        exact ⟨h, rfl, rfl⟩
      · obtain rfl := Except.ok.inj (hclose.symm.trans hrun)
        have hown : s.Owns (.descriptor s.kernel.currentProcess (.file n)) (pageAddress i) :=
          ⟨h.current_live, hi⟩
        have honly : ∀ o, s.Owns o (pageAddress i) →
            o = .descriptor s.kernel.currentProcess (.file n) := fun o ho ↦
          h.owned.exclusive.unique ho hown
        refine ⟨h.replaceSlot hclosed.slotReplaced honly ?_ hclosed.agrees,
          hclosed.failedAllocations, hclosed.confined.currentProcess⟩
        rcases hclosed.j_free with rfl | hfree
        · exact honly
        · exact fun o ho ↦ (h.owned.free_not_owns hclosed.j_lt hfree o ho).elim
    · obtain ⟨fault, hfault⟩ := hs.close_fault error hn fun t ht ↦ hopen ⟨t, ht⟩
      cases hfault.symm.trans hrun

/-- The caller gets an address space. -/
theorem fill (h : s.Sound) {us ts : List Nat}
    (hbuilding : Building T s.kernel.currentProcess
      (s.kernel.pcb s.kernel.currentProcess).outsideMm k' [] us ts)
    (hlen : us.length = MAX_PROCESS_PAGES)
    (hconfined : Confined T {s.kernel.currentProcess} s.kernel k') (hus : ∀ a ∈ us, a ∈ T)
    (hT : ∀ {o a}, s.Owns o a → a ∈ T →
      (∃ j, o = .userPage s.kernel.currentProcess j) ∨ ∃ l, o = .table s.kernel.currentProcess l) :
    Sound ⟨k', s.held, insert s.kernel.currentProcess s.user⟩ := by
  obtain ⟨a, ha⟩ := h.sched
  refine ⟨⟨_, ha.of_confined hconfined ?_ ?_⟩, ?_⟩
  · intro p hp b hb hmem
    obtain ⟨j, hj⟩ | ⟨l, hl⟩ := hT (o := .descriptor p .control) ⟨hp, hb⟩ hmem
    · cases hj
    · cases hl
  · rintro p rfl -
    have hscheduling := congrArg PCB.scheduling hbuilding.rest
    exact hscheduling
  · rw [live_eq hconfined]
    have hfiles := congrArg PCB.files hbuilding.rest
    exact h.owned.filled h.current_live hbuilding hlen hconfined hus hT hfiles

theorem contents (h : s.Sound) (hcontents : ContentsOnly s.kernel k') :
    Sound ⟨k', s.held, s.user⟩ := by
  refine h.books hcontents.books hcontents.rest hcontents.queues fun p ↦ ?_
  have hscheduling := congrArg PCB.scheduling (hcontents.pcb p)
  exact hscheduling

/-- A change to the registers or to `preempt_disabled` of the current process. -/
theorem modifyCurrent (h : s.Sound) {f : PCB → PCB}
    (hf : ∀ b, (f b).withoutRegisters = b.withoutRegisters) :
    Sound ⟨s.kernel.mapGlobals fun g ↦ g.modifyPcb g.currentProcess f, s.held, s.user⟩ :=
  h.contents (.modifyPcb s.kernel s.kernel.currentProcess hf)

/-- `move_to_user_mode` of a process that has not been there. -/
theorem moveToUserMode (h : s.Sound) (huser : s.kernel.currentProcess ∉ s.user)
    {start size pc : Nat}
    {r : Int} (hrun : s.kernel.moveToUserMode start size pc = some (r, k'))
    (hfail : k'.failures = s.kernel.failures) :
    Sound ⟨k', s.held, insert s.kernel.currentProcess s.user⟩ := by
  obtain ⟨k₁, hk₁, hr⟩ := Option.bind_eq_some_iff.mp hrun
  obtain ⟨-, rfl⟩ := Prod.mk.inj (Option.some.inj hr)
  set k₀ := s.kernel.mapGlobals fun g ↦ g.modifyPcb g.currentProcess fun b ↦
    { b with ptRegs :=
        { PtRegs.zero with pstate := PSR_MODE_EL0t, pc := pc, sp := 16 * PAGE_SIZE } }
    with hk₀
  have h₀ : Sound ⟨k₀, s.held, s.user⟩ := h.modifyCurrent fun _ ↦ rfl
  have hempty := h₀.owned.empty _ h₀.current_live huser
  have hbuilding := h₀.owned.building h₀.current_live hempty
  obtain ⟨⟨us, ts, hext, -⟩, -⟩ := (hbuilding.copyCode start size).of_some hk₁ hfail
  refine h₀.fill hext.building hext.length hext.confined ?_ ?_
  · intro a ha
    obtain ⟨j, hj, rfl⟩ := List.mem_iff_getElem.mp ha
    exact hext.fresh j hj (Nat.zero_le j)
  · exact fun howns ha ↦ absurd ha (notMem_reach_nil (h₀.owned.exclusive.used howns))

/-- The new image of the caller of `exec`. -/
theorem replaceImage (h : s.Sound) {buffer size : Nat} {arguments : List (List UInt8)}
    (hrun : s.kernel.replaceImage buffer size arguments = some k')
    (hfail : k'.failures = s.kernel.failures) :
    Sound ⟨k', s.held, insert s.kernel.currentProcess s.user⟩ := by
  obtain ⟨us, ts, hspace⟩ := h.owned.space h.current_live
  obtain ⟨k₁, hk₁, hback, hbuilding⟩ := h.owned.release h.current_live hspace
  rw [replaceImage_eq, hk₁, Option.bind_some] at hrun
  obtain ⟨k₂, hk₂, hrun⟩ := Option.bind_eq_some_iff.mp hrun
  have hcontents := ContentsOnly.passOn hrun
  have hcur := hback.confined.currentProcess
  rw [hcur] at hk₂
  have hfail₂ : k₂.failures = k₁.failures := by
    rw [← hcontents.failures, hfail, hback.failures]
  obtain ⟨⟨us', ts', hext, -⟩, -⟩ := (hbuilding.copyCode buffer size).of_some hk₂ hfail₂
  have hus : ∀ a ∈ us, a ∈ s.kernel.Reach (us ++ ts) := fun a ha ↦ .inl (List.mem_append_left _ ha)
  have hconfined : Confined (s.kernel.Reach (us ++ ts)) {s.kernel.currentProcess} s.kernel k₂ :=
    (hback.confined.mono hus subset_rfl).trans hext.confined
  have hfilled := h.fill hext.building hext.length hconfined ?_
    (h.owned.reach_owner h.current_live hspace)
  · exact hfilled.contents hcontents
  · intro a ha
    obtain ⟨j, hj, rfl⟩ := List.mem_iff_getElem.mp ha
    exact hext.fresh j hj (Nat.zero_le j)

theorem takePage_confined {k : Kernel Pointers} (i : Nat) :
    Confined {pageAddress i} ∅ k (k.takePage i) := Confined.takePage k (Set.mem_singleton _)

theorem exec (h : s.Sound) {file : Kernel.FatFile} {arguments : List (List UInt8)}
    {r : Kernel.ExecResult} (hrun : s.kernel.syscallExec file arguments = some r)
    (hfail : r.kernel.failures = s.kernel.failures) :
    Sound ⟨r.kernel, s.held ++ r.buffer.toList,
      if r.value = 0 then insert s.kernel.currentProcess s.user else s.user⟩ := by
  obtain ⟨opened, hopened, hcase⟩ := syscallExec_cases hrun
  obtain ⟨hopen, hopenfail, hopencur⟩ := h.openResource hopened
  have hneg : (-1 : Int) ≠ 0 := by decide
  obtain ⟨-, rfl⟩ | ⟨-, i, hi, hfree, closed, hclosed, hcase⟩ := hcase
  · dsimp only
    rw [if_neg hneg]
    simpa using hopen
  · have hheld : Sound ⟨opened.kernel.takePage i, s.held ++ [pageAddress i], s.user⟩ :=
      hopen.hold hi hfree (takePage_confined i) (.inr ⟨rfl, Function.update_self ..⟩)
    have hstored := hheld.contents (.store _ (pageAddress i) file.delivered)
    obtain ⟨hclose, hclosefail, hclosecur⟩ := hstored.closeFile hclosed
    obtain ⟨-, rfl⟩ | ⟨-, saved, k', -, himage, rfl⟩ := hcase
    · dsimp only
      rw [if_neg hneg]
      exact hclose
    · have hsame : closed.kernel.failures = s.kernel.failures := hclosefail.trans hopenfail
      have hcur : closed.kernel.currentProcess = s.kernel.currentProcess :=
        hclosecur.trans hopencur
      have himaged := hclose.replaceImage himage (hfail.trans hsame.symm)
      rw [if_pos rfl, ← hcur]
      exact himaged

theorem malloc (h : s.Sound) {address : Int} (hrun : s.kernel.syscallMalloc = (address, k'))
    (hfail : k'.failures = s.kernel.failures) :
    Sound ⟨k', if address = -1 then s.held else s.held ++ [address.toNat - VA_START], s.user⟩ := by
  obtain ⟨i, hi, hfree, buffer, hbuffer, hne, hpage⟩ | ⟨-, hpage⟩ :=
    s.kernel.allocateKernelPage_cases
  · rw [Kernel.syscallMalloc, hpage] at hrun
    dsimp only at hrun
    rw [if_neg hne] at hrun
    obtain ⟨rfl, rfl⟩ := Prod.mk.inj hrun
    have hvalue : (buffer : Int) ≠ -1 := by omega
    have hphysical : (buffer : Int).toNat - VA_START = pageAddress i := by
      rw [Int.toNat_natCast, hbuffer, Nat.add_sub_cancel]
    rw [if_neg hvalue, hphysical]
    exact h.hold hi hfree (takePage_confined i) (.inr ⟨rfl, Function.update_self ..⟩)
  · rw [Kernel.syscallMalloc, hpage] at hrun
    obtain ⟨-, rfl⟩ := Prod.mk.inj hrun
    exact absurd hfail (Nat.succ_ne_self _)

/-- What `copy_process` does once it has the page of the new control block and has filled the
memory of the new process. -/
theorem createChild [KernelCode] (h : s.Sound) (hi : i < N_PAGES)
    (hfree : s.kernel.memory.memoryPages i = false) (hroom : s.kernel.nProcesses < N_PROCESSES)
    {flags function argument : Nat} {k₂ : Kernel Pointers}
    (hk₂ : (s.kernel.takePage i).prepareChild flags function argument (.page i) = some k₂)
    (hfail : k₂.failures = s.kernel.failures) :
    ∃ k', (s.kernel.takePage i).createChild flags function argument (pageAddress i + VA_START) =
        some ((s.kernel.nProcesses : Int), k') ∧
      Registered (.page i) (k₂.completeChild flags (pageAddress i + VA_START) (.page i)) k' ∧
      (∀ p, k'.Known p ↔ p = .page i ∨ p ∈ s.live) ∧
      Sound ⟨k', s.held, { p | p ∈ s.user ∨ flags &&& PF_KTHREAD = 0 ∧
        s.kernel.currentProcess ∈ s.user ∧ p = .page i }⟩ := by
  obtain ⟨a, ha⟩ := h.sched
  obtain ⟨hnew, howned⟩ := h.owned.adopt hi hfree
  have htake := takePage_confined (k := s.kernel) i
  have ha₁ := ha.of_confined htake (fun p hp ↦ h.outside hp ?_) nofun
  · have hne : PcbPtr.page i ≠ s.kernel.currentProcess := fun he ↦ hnew (he ▸ h.current_live)
    obtain ⟨howned₂, hconfined⟩ := howned.prepareChild (.inr h.current_live) (.inl rfl) hne
      (fun hu ↦ hnew (h.owned.users hu)) hk₂ hfail
    have hnot : ¬ (s.kernel.takePage i).Known (.page i) := fun hk ↦ hnew ((htake.known _).mp hk)
    have ha₂ := ha₁.of_confined hconfined
      (fun p hp ↦ howned.outside_reach (.inr ((htake.known p).mp hp)))
      (by rintro p rfl hp; exact absurd hp hnot)
    have hcount : k₂.nProcesses = s.kernel.nProcesses :=
      hconfined.nProcesses.trans htake.nProcesses
    obtain ⟨k', a', hk', ha', hregistered⟩ := ha₂.registerChild
      (fun hk ↦ hnot ((hconfined.known _).mp hk)) (hcount.trans_lt hroom) flags
      (pageAddress i + VA_START)
    have hslot : ∀ {j p}, k₂.processes j = some p → j < k₂.nProcesses := by
      intro j p hj
      rw [ha₂.sim.globals] at hj ⊢
      exact (ha₂.inv.table.slot hj).1
    have hpid := congrArg PCB.pid
      (completeChild_pcb flags (pageAddress i + VA_START) (.page i) k₂)
    have hknown : ∀ p, k'.Known p ↔ p = .page i ∨ p ∈ s.live := by
      intro p
      rw [hregistered.known hslot (hpid.trans (by rw [Kernel.initialise]; rfl)) p]
      exact or_congr Iff.rfl ((hconfined.known p).trans (htake.known p))
    refine ⟨k', ?_, hregistered, hknown, ⟨_, ha'⟩, ?_⟩
    · rw [createChild_eq (PcbPtr.atAddress_page i) (Owned.takePage_pcb _ _), hk₂, Option.bind_some,
        ← hcount]
      exact hk'
    · have hbooks := (completeChild_books flags (pageAddress i + VA_START) (.page i) k₂).trans
        hregistered.books
      have hlive : (System.mk k' s.held { p | p ∈ s.user ∨ flags &&& PF_KTHREAD = 0 ∧
          s.kernel.currentProcess ∈ s.user ∧ p = .page i }).live = insert (.page i) s.live := by
        ext p
        exact hknown p
      rw [hlive]
      exact howned₂.books hbooks
  · rintro b rfl
    exact Memory.not_inUse hi hfree

/-- `copy_process` between `preempt_disable` and `preempt_enable`. -/
theorem createProcess [KernelCode] (h : s.Sound) {flags function argument : Nat} {r : Int}
    (hrun : s.kernel.createProcess flags function argument = some (r, k'))
    (hfail : k'.failures = s.kernel.failures) :
    Sound ⟨k', s.held, s.userAfterCopy flags k'⟩ := by
  rw [createProcess_eq] at hrun
  obtain ⟨i, hi, hfree, buffer, hbuffer, hne, hpage⟩ | ⟨-, hpage⟩ :=
    s.kernel.allocateKernelPage_cases
  · rw [hpage] at hrun
    dsimp only at hrun
    split_ifs at hrun with hfull
    · -- the table is full: the page stays marked
      obtain ⟨-, rfl⟩ := Prod.mk.inj (Option.some.inj hrun)
      have husers : s.userAfterCopy flags (s.kernel.takePage i) = s.user := by
        ext p
        exact ⟨fun hp ↦ hp.resolve_right fun hp ↦ hp.2.2.2 hp.2.2.1, .inl⟩
      rw [husers]
      exact h.hold hi hfree (takePage_confined i) (.inl rfl)
    · have hroom : s.kernel.nProcesses < N_PROCESSES := by
        have hroom := not_or.mp hfull
        exact Nat.lt_of_not_le hroom.2
      rw [hbuffer] at hrun
      have hprepared := hrun
      rw [createChild_eq (PcbPtr.atAddress_page i) (Owned.takePage_pcb _ _)] at hprepared
      obtain ⟨k₂, hk₂, hregister⟩ := Option.bind_eq_some_iff.mp hprepared
      obtain ⟨k₃, hk₃, -, hknown, hsound⟩ := h.createChild hi hfree hroom hk₂
        ((registerChild_failures hregister).symm.trans hfail)
      obtain ⟨-, rfl⟩ := Prod.mk.inj (Option.some.inj (hk₃.symm.trans hrun))
      have hnew := (h.owned.adopt hi hfree).1
      have husers : s.userAfterCopy flags k₃ = { p | p ∈ s.user ∨ flags &&& PF_KTHREAD = 0 ∧
          s.kernel.currentProcess ∈ s.user ∧ p = .page i } := by
        ext p
        refine or_congr Iff.rfl (and_congr_right fun _ ↦ and_congr_right fun _ ↦ ?_)
        constructor
        · rintro ⟨hp, hold⟩
          exact ((hknown p).mp hp).resolve_right hold
        · rintro rfl
          exact ⟨(hknown _).mpr (.inl rfl), hnew⟩
      rw [husers]
      exact hsound
  · rw [hpage] at hrun
    obtain ⟨-, rfl⟩ := Prod.mk.inj (Option.some.inj ((if_pos (.inl rfl)).symm.trans hrun))
    exact absurd hfail (Nat.succ_ne_self _)

/-- `copy_process`: if it succeeds there is a new process. -/
theorem copyProcess [KernelCode] (h : s.Sound) {flags function argument : Nat} {r : Int}
    (hrun : s.kernel.copyProcess flags function argument = some (r, k'))
    (hfail : k'.failures = s.kernel.failures) :
    Sound ⟨k', s.held, s.userAfterCopy flags k'⟩ := by
  have h₀ : Sound ⟨s.kernel.mapGlobals (·.preemptDisable), s.held, s.user⟩ :=
    h.modifyCurrent fun _ ↦ rfl
  obtain ⟨⟨r₁, k₁⟩, hcreate, hrun⟩ := Option.bind_eq_some_iff.mp hrun
  dsimp only at hrun
  split_ifs at hrun
  · obtain ⟨-, rfl⟩ := Prod.mk.inj (Option.some.inj hrun)
    exact h₀.createProcess hcreate hfail
  · obtain ⟨-, rfl⟩ := Prod.mk.inj (Option.some.inj hrun)
    exact (h₀.createProcess hcreate hfail).modifyCurrent fun _ ↦ rfl

/-- Every request of a process keeps the invariant. -/
theorem run [KernelCode] (h : s.Sound) {s' : System} {request : Request} (hrun : s.Run s' request)
    (hfail : s'.kernel.failures = s.kernel.failures) : s'.Sound := by
  obtain ⟨k', held, user⟩ := s'
  cases request with
  | copyProcess flags function argument =>
      obtain ⟨r, hcopy, rfl, huser⟩ := hrun
      dsimp only at hcopy huser
      rw [huser]
      exact h.copyProcess hcopy hfail
  | moveToUserMode start size pc =>
      obtain ⟨hfresh, r, hmove, rfl, rfl⟩ := hrun
      exact h.moveToUserMode hfresh hmove hfail
  | exec file arguments =>
      obtain ⟨r, hexec, rfl, rfl, rfl⟩ := hrun
      exact h.exec hexec hfail
  | descriptor call error =>
      obtain ⟨r, hcall, rfl, rfl, rfl⟩ := hrun
      cases call with
      | createDir =>
          rw [Call.run, Kernel.syscallCreateDir] at hcall
          exact (h.openResource hcall).1
      | openDir =>
          rw [Call.run, Kernel.syscallOpenDir] at hcall
          exact (h.openResource hcall).1
      | openFile =>
          rw [Call.run, Kernel.syscallOpenFile] at hcall
          exact (h.openResource hcall).1
      | closeFile fd => exact (h.closeFile hcall).1
  | malloc =>
      obtain ⟨address, hmalloc, rfl, rfl⟩ := hrun
      exact h.malloc hmalloc hfail
  | sched op =>
      obtain ⟨hadd, hop, hsched, rfl, rfl⟩ := hrun
      exact h.schedOp hadd hop hsched

end Sound

/-- At boot there is init, and no page is in use. -/
theorem boot_sound (algorithm : Algorithm) (timerClo : Nat → BitVec 32) :
    (boot algorithm timerClo).Sound := by
  have hlive : ∀ {p}, p ∈ (boot algorithm timerClo).live → p = .initProcess := by
    rintro p ⟨i, hi⟩
    have hi : (if i = 0 then some PcbPtr.initProcess else none) = some p := hi
    split_ifs at hi
    exact (Option.some.inj hi).symm
  have hinit : (boot algorithm timerClo).kernel.pcb .initProcess = INIT_PROCESS := rfl
  have hnot : ∀ {o a}, ¬ (boot algorithm timerClo).Owns o a := by
    rintro (⟨p, page⟩ | ⟨p, j⟩ | ⟨p, l⟩ | n) a howns
    · obtain ⟨hp, hpage⟩ := howns
      obtain rfl := hlive hp
      cases page with
      | control => cases hpage
      | resource fd =>
          have hslot := hpage.2
          rw [hinit] at hslot
          exact absurd (Nat.add_eq_zero_iff.mp hslot.symm).2 (by decide)
      | file fd =>
          have hslot := hpage.2.1
          rw [hinit] at hslot
          exact absurd rfl hslot
    · obtain ⟨hp, hcount, -⟩ := howns
      obtain rfl := hlive hp
      rw [hinit] at hcount
      exact absurd hcount (Nat.not_lt_zero j)
    · obtain ⟨hp, hcount, -⟩ := howns
      obtain rfl := hlive hp
      rw [hinit] at hcount
      exact absurd hcount (Nat.not_lt_zero l)
    · cases howns
  refine ⟨⟨_, DemosOS.boot_sound algorithm timerClo⟩,
    ⟨fun ho ↦ (hnot ho).elim, fun ho ↦ (hnot ho).elim⟩, ?_, nofun, ?_, nofun⟩
  · intro p hp _
    rw [hlive hp, hinit]
    exact ⟨rfl, rfl, rfl⟩
  · intro p hp fd _
    refine ⟨.unused, ?_⟩
    rw [hlive hp, Usage.Agrees, hinit]
    rfl

theorem Reachable.sound [KernelCode] {s : System} (h : s.Reachable) : s.Sound := by
  obtain ⟨algorithm, timerClo, hsteps⟩ := h
  induction hsteps with
  | refl => exact boot_sound algorithm timerClo
  | tail _ hstep ih =>
      obtain ⟨request, hrun, hfail⟩ := hstep
      exact ih.run hrun hfail

end System

end DemosOS
