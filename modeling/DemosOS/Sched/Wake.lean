import DemosOS.Sched.Rendezvous

/-!
# Waking a process

The wake-ups of the console and of the message ring happen at any point of a kernel
operation, when the invariant of `DemosOS.Sched.Invariant` need not hold.  `InOrder` is the
part of it that a wake-up relies on and keeps.
-/

namespace DemosOS

open Lib

/-- The queues are in order: they are lists of processes of the table, none of which is in a
waiting state.  This also holds in the middle of a scheduling operation. -/
structure InOrder (k : Kernel Pointers) (a : Kernel Lists) : Prop where
  sim : Sim k a
  filled : ∀ {i}, i < a.nProcesses → ∃ p, a.processes i = some p
  bound : a.nProcesses ≤ N_PROCESSES
  known : ∀ q, ∀ p ∈ a.queues q, ∃ i < N_PROCESSES, a.processes i = some p
  awake : ∀ q, ∀ p ∈ a.queues q, ¬ (a.pcb p).state.IsWaiting

theorem Sound.inOrder {k : Kernel Pointers} {a : Kernel Lists} (h : Sound k a) : InOrder k a where
  sim := h.sim
  filled := h.inv.table.filled
  bound := h.inv.table.bound
  known q p hp := by
    obtain ⟨i, hi⟩ := h.inv.known q p hp
    exact ⟨i, (h.inv.table.slot hi).1.trans_le h.inv.table.bound, hi⟩
  awake q p hp := by
    rw [h.inv.ready q p hp]
    exact id

/-- What waking readers does on lists: queues grow, and whoever is made ready is in one. -/
structure Grows (a a' : Kernel Lists) : Prop where
  processes : a'.processes = a.processes
  nProcesses : a'.nProcesses = a.nProcesses
  mem : ∀ q, ∀ p ∈ a.queues q, p ∈ a'.queues q
  state : ∀ p, p ≠ .initProcess → (a'.pcb p).state = (a.pcb p).state ∨ ∃ q, p ∈ a'.queues q

namespace Grows

theorem refl (a : Kernel Lists) : Grows a a := ⟨rfl, rfl, fun _ _ hp ↦ hp, fun _ _ ↦ .inl rfl⟩

theorem trans {a a₁ a₂ : Kernel Lists} (h : Grows a a₁) (h' : Grows a₁ a₂) : Grows a a₂ where
  processes := h'.processes.trans h.processes
  nProcesses := h'.nProcesses.trans h.nProcesses
  mem q p hp := h'.mem q p (h.mem q p hp)
  state p hp := by
    rcases h'.state p hp with h₂ | h₂
    · rcases h.state p hp with h₁ | ⟨q, hq⟩
      · exact .inl (h₂.trans h₁)
      · exact .inr ⟨q, h'.mem q p hq⟩
    · exact .inr h₂

end Grows

namespace InOrder

variable {k : Kernel Pointers} {a : Kernel Lists}

theorem length_le (h : InOrder k a) (q : QueueId) : (a.queues q).length ≤ N_PROCESSES := by
  have hsub : (a.queues q).map some ⊆ (List.range N_PROCESSES).map a.processes := by
    intro o ho
    obtain ⟨p, hp, rfl⟩ := List.mem_map.mp ho
    obtain ⟨i, hi, hip⟩ := h.known q p hp
    exact List.mem_map.mpr ⟨i, List.mem_range.mpr hi, hip⟩
  have hnodup : ((a.queues q).map some).Nodup :=
    (h.sim.queues.nodup q).map (Option.some_injective _)
  simpa using (List.Nodup.subperm hnodup hsub).length_le

/-- Waking a process of the table links it, unless it is init. -/
theorem wakeIf (h : InOrder k a) {s : ProcessState} (hs : s.IsWaiting) {p : PcbPtr}
    (hp : ∃ i < N_PROCESSES, a.processes i = some p) :
    ∃ k' a', k.wakeIf s p = some k' ∧ InOrder k' a' ∧ Grows a a' ∧
      (p ≠ .initProcess → (a.pcb p).state = s → ∃ q, p ∈ a'.queues q) := by
  have hstate : (k.pcb p).state = (a.pcb p).state := by rw [h.sim.globals]
  unfold Kernel.wakeIf
  simp only [hstate]
  split_ifs with hwait
  · by_cases hinit : p = .initProcess
    · -- init would be marked, but not linked
      subst hinit
      refine ⟨_, a.mapGlobals (·.setState .initProcess .ready), by simp [Kernel.enqueueProcess],
        ⟨h.sim.mapGlobals _, h.filled, h.bound, h.known, fun q x hx ↦ ?_⟩,
        ⟨rfl, rfl, fun _ _ hx ↦ hx, fun x hx ↦ .inl ?_⟩, fun hne ↦ absurd rfl hne⟩
      · by_cases hxi : x = .initProcess
        · simp [hxi, Globals.setState]
        · simpa [Globals.setState, hxi] using h.awake q x hx
      · simp [Globals.setState, hx]
    · have hfree : ∀ q, p ∉ a.queues q := fun q hq ↦ h.awake q p hq (by rwa [hwait])
      obtain ⟨k', hk', hsim'⟩ := (h.sim.mapGlobals (·.setState p .ready)).enqueueProcess
        (fun _ ↦ hfree) h.length_le
      have hmem : ∀ {q x}, x ∈ (Spec.enqueue p (a.mapGlobals (·.setState p .ready))).queues q ↔
          x ∈ a.queues q ∨ (x = p ∧ q = Spec.targetQueue (a.toGlobals.setState p .ready) p) :=
        Spec.mem_enqueue hinit
      have hproc :
          (Spec.enqueue p (a.mapGlobals (·.setState p .ready))).processes = a.processes := by
        rw [Spec.enqueue_data]
        rfl
      have hcount : (Spec.enqueue p (a.mapGlobals (·.setState p .ready))).nProcesses =
          a.nProcesses := by
        rw [Spec.enqueue_data]
        rfl
      have hpcb : ∀ x, x ≠ p →
          (Spec.enqueue p (a.mapGlobals (·.setState p .ready))).pcb x = a.pcb x := by
        intro x hx
        rw [Spec.enqueue_pcb hinit]
        simp [Globals.setState, hx]
      refine ⟨k', _, hk', ⟨hsim', fun hi ↦ ?_, ?_, fun q x hx ↦ ?_, fun q x hx ↦ ?_⟩,
        ⟨hproc, hcount, fun q x hx ↦ hmem.mpr (.inl hx), fun x _ ↦ ?_⟩,
        fun _ _ ↦ ⟨_, hmem.mpr (.inr ⟨rfl, rfl⟩)⟩⟩
      · rw [hcount] at hi
        rw [hproc]
        exact h.filled hi
      · rw [hcount]
        exact h.bound
      · rw [hproc]
        rcases hmem.mp hx with hx | ⟨rfl, -⟩
        · exact h.known q x hx
        · exact hp
      · by_cases hxp : x = p
        · subst hxp
          rw [Spec.enqueue_pcb hinit]
          simp [Globals.setState]
        · rw [hpcb x hxp]
          exact h.awake q x ((hmem.mp hx).resolve_right fun hc ↦ hxp hc.1)
      · by_cases hxp : x = p
        · exact .inr ⟨_, hmem.mpr (.inr ⟨hxp, rfl⟩)⟩
        · exact .inl (by rw [hpcb x hxp])
  · exact ⟨k, a, rfl, h, .refl a, fun _ hw ↦ absurd hw hwait⟩

end InOrder

end DemosOS
