import DemosOS.Mem.NewProcess

/-!
# The process table and the counters

What the critical sections need to know of a piece of kernel code: the process table stays in order,
the links do not leave it, and the counters `preempt_disabled` of its processes change by a known
amount.
-/

namespace DemosOS

open Lib

namespace Kernel

/-- The process table is in order, the control blocks of its processes are in pages that are in use,
and the links do not lead out of it. -/
structure Registry (k : Kernel Pointers) : Prop where
  table : k.Table
  page : ∀ p, k.Known p → k.HasPage p
  links : k.queues.Within {p | k.Known p}

theorem Registry.init {k : Kernel Pointers} (h : k.Registry) : k.Known .initProcess :=
  ⟨0, h.table.init⟩

/-- From `k` to `k'` the counter of `e` has grown by `d`, those of the other processes of the table
are the same, and the table has been left alone. -/
structure Counts (e : PcbPtr) (d : Int) (k k' : Kernel Pointers) : Prop where
  processes : k'.processes = k.processes
  nProcesses : k'.nProcesses = k.nProcesses
  pid : ∀ p, k.Known p → (k'.pcb p).pid = (k.pcb p).pid
  page : ∀ p, k.Known p → k.HasPage p → k'.HasPage p
  links : k.queues.Within {p | k.Known p} → k'.queues.Within {p | k.Known p}
  counter : ∀ p, k.Known p →
    (k'.pcb p).preemptDisabled = (k.pcb p).preemptDisabled + if p = e then d else 0

/-- The same for code that does not switch to another process. -/
structure Advances (e : PcbPtr) (d : Int) (k k' : Kernel Pointers) : Prop extends
    Counts e d k k' where
  currentProcess : k'.currentProcess = k.currentProcess

namespace Counts

variable {e p : PcbPtr} {d d' : Int} {k k₁ k' : Kernel Pointers}

theorem known (h : Counts e d k k') (p : PcbPtr) : k'.Known p ↔ k.Known p := by
  rw [Globals.Known, Globals.Known, h.processes]

theorem known_set (h : Counts e d k k') : {p | k'.Known p} = {p | k.Known p} :=
  Set.ext fun p ↦ h.known p

theorem trans (h : Counts e d k k₁) (h' : Counts e d' k₁ k') : Counts e (d + d') k k' where
  processes := h'.processes.trans h.processes
  nProcesses := h'.nProcesses.trans h.nProcesses
  pid p hp := (h'.pid p ((h.known p).mpr hp)).trans (h.pid p hp)
  page p hp hpage := h'.page p ((h.known p).mpr hp) (h.page p hp hpage)
  links hlinks := by
    have hlinks' := h'.links (by rw [h.known_set]; exact h.links hlinks)
    rwa [h.known_set] at hlinks'
  counter p hp := by
    rw [h'.counter p ((h.known p).mpr hp), h.counter p hp]
    split_ifs <;> omega

/-- The table stays in order. -/
theorem registry (h : Counts e d k k') (hk : k.Registry) : k'.Registry := by
  refine ⟨⟨fun {i p} hi ↦ ?_, fun {i} hi ↦ ?_, ?_, ?_⟩, fun p hp ↦ ?_, ?_⟩
  · rw [h.processes] at hi
    rw [h.nProcesses, h.pid p ⟨i, hi⟩]
    exact hk.table.slot hi
  · rw [h.nProcesses] at hi
    rw [h.processes]
    exact hk.table.filled hi
  · rw [h.processes]
    exact hk.table.init
  · rw [h.nProcesses]
    exact hk.table.bound
  · have hp := (h.known p).mp hp
    exact h.page p hp (hk.page p hp)
  · rw [h.known_set]
    exact h.links hk.links

end Counts

namespace Advances

variable {e p : PcbPtr} {d d' : Int} {k k₁ k' : Kernel Pointers}

theorem refl (e : PcbPtr) (k : Kernel Pointers) : Advances e 0 k k where
  processes := rfl
  nProcesses := rfl
  pid _ _ := rfl
  page _ _ hp := hp
  links h := h
  counter p _ := by split_ifs <;> simp
  currentProcess := rfl

theorem trans (h : Advances e d k k₁) (h' : Advances e d' k₁ k') : Advances e (d + d') k k' :=
  ⟨h.toCounts.trans h'.toCounts, h'.currentProcess.trans h.currentProcess⟩

/-- Steady code, with links that it leaves in the table. -/
theorem of_steady (e : PcbPtr) (h : Steady k.toGlobals k'.toGlobals)
    (hlinks : k.queues.Within {p | k.Known p} → k'.queues.Within {p | k.Known p}) :
    Advances e 0 k k' where
  processes := Globals.processes_of_frozen h.frozen
  nProcesses := Globals.nProcesses_of_frozen h.frozen
  pid p _ := Globals.field_of_frozen h.frozen PCB.pid (fun _ ↦ rfl) p
  page p _ hp := by
    have hmemory := congrArg Globals.memory h.frozen
    have hmemory : k'.memory = k.memory := hmemory
    rwa [HasPage, hmemory]
  links := hlinks
  counter p _ := by rw [h.preemptDisabled p, ite_self, Int.add_zero]
  currentProcess := h.currentProcess

/-- A write to the control block of `p` that adds `d` to its counter. -/
theorem count (k : Kernel Pointers) (p : PcbPtr) {f : PCB → PCB} (hpid : ∀ b, (f b).pid = b.pid)
    (hcounter : ∀ b, (f b).preemptDisabled = b.preemptDisabled + d) :
    Advances p d k (k.mapGlobals (·.modifyPcb p f)) where
  processes := rfl
  nProcesses := rfl
  pid q _ := k.modifyPcb_field p q f PCB.pid hpid
  page _ _ hq := hq
  links h := h
  counter q _ := by
    rw [mapGlobals_toGlobals, Globals.modifyPcb_pcb]
    split_ifs with hq
    · rw [hcounter, hq]
    · rw [Int.add_zero]
  currentProcess := rfl

theorem modifyPcb (e : PcbPtr) (k : Kernel Pointers) (p : PcbPtr) {f : PCB → PCB}
    (hpid : ∀ b, (f b).pid = b.pid) (hcounter : ∀ b, (f b).preemptDisabled = b.preemptDisabled) :
    Advances e 0 k (k.mapGlobals (·.modifyPcb p f)) :=
  have h := count k p hpid fun b ↦ (hcounter b).trans (Int.add_zero _).symm
  { h with counter := fun q hq ↦ by rw [h.counter q hq, ite_self, ite_self] }

theorem preemptDisable (k : Kernel Pointers) :
    Advances k.currentProcess 1 k (k.mapGlobals (·.preemptDisable)) := by
  refine count k k.currentProcess ?_ ?_
  · exact fun _ ↦ rfl
  · exact fun _ ↦ rfl

theorem preemptEnable (k : Kernel Pointers) :
    Advances k.currentProcess (-1) k (k.mapGlobals (·.preemptEnable)) := by
  refine count k k.currentProcess ?_ ?_
  · exact fun _ ↦ rfl
  · exact fun _ ↦ rfl

/-- One step after the other. -/
theorem foldlM {α : Type} {f : Kernel Pointers → α → Option (Kernel Pointers)}
    (hf : ∀ {k x k'}, f k x = some k' → Advances e 0 k k') {l : List α}
    (h : l.foldlM f k = some k') : Advances e 0 k k' :=
  Lib.foldlM_invariant (fun hadvances hround ↦ hadvances.trans (hf hround)) h (refl e k)

end Advances

/-- The assignments of `switch_to_process`. -/
theorem counts_switchToProcess (e : PcbPtr) (k : Kernel Pointers) (next : PcbPtr) :
    Counts e 0 k (k.mapGlobals (·.switchToProcess next)) := by
  have hstate : ∀ (k : Kernel Pointers) (p : PcbPtr) (s : ProcessState),
      Counts e 0 k (k.mapGlobals (·.setState p s)) := fun k p s ↦
    (Advances.modifyPcb e k p (f := fun b ↦ { b with state := s }) (fun _ ↦ rfl)
      fun _ ↦ rfl).toCounts
  obtain ⟨-, hs⟩ | ⟨-, -, hs⟩ | ⟨-, -, hs⟩ := k.switchToProcess_cases next
  · have hrun := hstate k next .running
    rwa [Kernel.mapGlobals, hs]
  · have hrun := (hstate k next .running).trans (hstate _ k.currentProcess .ready)
    rw [Kernel.mapGlobals, hs]
    exact ⟨hrun.processes, hrun.nProcesses, hrun.pid, hrun.page, hrun.links, hrun.counter⟩
  · have hrun := hstate k next .running
    rw [Kernel.mapGlobals, hs]
    exact ⟨hrun.processes, hrun.nProcesses, hrun.pid, hrun.page, hrun.links, hrun.counter⟩

/-! ## Code of the scheduler -/

section

variable {k k' : Kernel Pointers} {p : PcbPtr} (e : PcbPtr)

theorem advances_enqueueProcess (hp : k.Known p) (h : k.enqueueProcess p = some k') :
    Advances e 0 k k' :=
  .of_steady e (steady_enqueueProcess h) fun hlinks ↦ within_enqueueProcess hlinks hp h

theorem advances_wakeIf {s : ProcessState} (hp : k.Known p) (h : k.wakeIf s p = some k') :
    Advances e 0 k k' :=
  .of_steady e (steady_wakeIf h) fun hlinks ↦ within_wakeIf hlinks hp h

theorem advances_wakeWaiter {i : Nat} (h : k.wakeWaiter i = some k') : Advances e 0 k k' := by
  unfold wakeWaiter at h
  split at h
  · obtain rfl := Option.some.inj h
    exact .refl e k
  · rename_i p hp
    split_ifs at h
    · have hwoken := Advances.modifyPcb e k p (f := fun b ↦
        { b with state := .ready, pidToWait := -1 }) (fun _ ↦ rfl) fun _ ↦ rfl
      have hknown : k.Known p := ⟨i, hp⟩
      exact hwoken.trans (advances_enqueueProcess e ((hwoken.known p).mpr hknown) h)
    · obtain rfl := Option.some.inj h
      exact .refl e k

theorem advances_wakeSender {i : Nat} (h : k.wakeSender i = some k') : Advances e 0 k k' := by
  unfold wakeSender at h
  split at h
  · obtain rfl := Option.some.inj h
    exact .refl e k
  · rename_i p hp
    exact advances_wakeIf e ⟨i, hp⟩ h

theorem advances_wakeReader {i : Nat} (h : k.wakeReader i = some k') : Advances e 0 k k' := by
  unfold wakeReader at h
  split at h
  · cases h
  · rename_i p hp
    exact advances_wakeIf e ⟨i, hp⟩ h

theorem advances_receiveWord {dr : BitVec 32} (h : k.receiveWord dr = some k') :
    Advances e 0 k k' := by
  unfold receiveWord at h
  split_ifs at h
  · obtain rfl := Option.some.inj h
    exact .refl e k
  · have hstored : Advances e 0 k (k.mapGlobals fun g ↦
        { g with uart := g.uart.store (UInt8.ofBitVec ((dr &&& 0xFF).setWidth 8)) }) :=
      { Advances.refl e k with }
    exact hstored.trans (.foldlM (advances_wakeReader e) h)

theorem advances_handleUartIrq {mis : BitVec 32} {fifo fifo' : List (BitVec 32)}
    (h : k.handleUartIrq mis fifo = some (fifo', k')) : Advances e 0 k k' := by
  -- the timeout branch only empties the FIFO
  have htimeout : ∀ {fifo₁ : List (BitVec 32)} {k₁ : Kernel Pointers},
      (if mis &&& (1#32 <<< 6) ≠ 0 then some ([], k₁) else some (fifo₁, k₁)) = some (fifo', k') →
      k' = k₁ := by
    intro fifo₁ k₁ h
    split_ifs at h
    · exact (Prod.mk.inj (Option.some.inj h)).2.symm
    · exact (Prod.mk.inj (Option.some.inj h)).2.symm
  unfold handleUartIrq at h
  by_cases hrx : mis &&& (1#32 <<< 4) ≠ 0
  · rw [if_pos hrx] at h
    obtain ⟨r, hr, h⟩ := Option.bind_eq_some_iff.mp h
    obtain ⟨k₁, hk₁, rfl⟩ := Option.map_eq_some_iff.mp hr
    rw [htimeout h]
    exact .foldlM (advances_receiveWord e) hk₁
  · rw [if_neg hrx] at h
    rw [htimeout h]
    exact .refl e k

theorem advances_tickEntry {b : Bool} (h : k.tickEntry = some (b, k')) : Advances e 0 k k' := by
  have hupdates : Updates False k.toGlobals k'.toGlobals := updates_tickEntry h
  exact .of_steady e hupdates.steady fun hlinks ↦ within_tickEntry hlinks h

end

end Kernel

end DemosOS
