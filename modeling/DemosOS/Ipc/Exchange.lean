import DemosOS.Kernel.Messages
import DemosOS.Sched.Frame

/-!
# The writes of an exchange

A push and a pop write to the control block of the owner of the ring and wake processes.  A
message stored behind the array covers the fields that follow it, so the writes are not to the
ring alone.
-/

namespace DemosOS

/-- One write of an exchange through the ring of `owner`. -/
inductive RingWrite (owner : PcbPtr) (g : Globals) : Globals → Prop
  | update (g' : Globals) (h : Update False g g') : RingWrite owner g g'
  | ring (f : PCB → PCB) (hf : ∀ b, ∃ messagesBuffer pendingSignals pidToWait pastEnd,
      f b = { b with messagesBuffer, pendingSignals, pidToWait, pastEnd }) :
      RingWrite owner g (g.modifyPcb owner f)

/-- A sequence of such writes. -/
def RingWrites (owner : PcbPtr) : Globals → Globals → Prop :=
  Relation.ReflTransGen (RingWrite owner)

namespace RingWrites

variable {owner : PcbPtr} {g g₁ g₂ : Globals} {k k' : Kernel Pointers}

theorem refl (g : Globals) : RingWrites owner g g := Relation.ReflTransGen.refl

theorem trans (h : RingWrites owner g g₁) (h' : RingWrites owner g₁ g₂) :
    RingWrites owner g g₂ := Relation.ReflTransGen.trans h h'

theorem ring (g : Globals) {f : PCB → PCB} (hf : ∀ b, ∃ messagesBuffer pendingSignals pidToWait
    pastEnd, f b = { b with messagesBuffer, pendingSignals, pidToWait, pastEnd }) :
    RingWrites owner g (g.modifyPcb owner f) := .single (.ring f hf)

/-! ## Pushing and popping -/

theorem writeSlot [KernelImage] (owner : PcbPtr) (i : Nat) (message : Message)
    (k : Kernel Pointers) :
    RingWrites owner k.toGlobals (k.writeSlot owner i message).toGlobals := by
  unfold Kernel.writeSlot
  split_ifs
  · exact ring _ fun _ ↦ ⟨_, _, _, _, rfl⟩
  · exact ring _ fun _ ↦ ⟨_, _, _, _, rfl⟩

theorem setHead (owner : PcbPtr) (head : Nat) (k : Kernel Pointers) :
    RingWrites owner k.toGlobals (k.setHead owner head).toGlobals :=
  ring _ fun _ ↦ ⟨_, _, _, _, rfl⟩

theorem setTail (owner : PcbPtr) (tail : Nat) (k : Kernel Pointers) :
    RingWrites owner k.toGlobals (k.setTail owner tail).toGlobals :=
  ring _ fun _ ↦ ⟨_, _, _, _, rfl⟩

theorem wakeIf {s : ProcessState} {p : PcbPtr} (h : k.wakeIf s p = some k') :
    RingWrites owner k.toGlobals k'.toGlobals :=
  Relation.ReflTransGen.mono (fun _ g' ↦ RingWrite.update g') _ _ (Kernel.updates_wakeIf h)

theorem wakeSenders {slots : List Nat} (h : slots.foldlM Kernel.wakeSender k = some k') :
    RingWrites owner k.toGlobals k'.toGlobals := by
  have hround : ∀ {k k' : Kernel Pointers} {i : Nat}, k.wakeSender i = some k' →
      RingWrites owner k.toGlobals k'.toGlobals := by
    intro k k' i h
    unfold Kernel.wakeSender at h
    split at h
    · obtain rfl := Option.some.inj h
      exact refl _
    · exact wakeIf h
  exact Lib.foldlM_invariant (I := fun k₁ ↦ RingWrites owner k.toGlobals k₁.toGlobals)
    (fun hwrites hk₁ ↦ hwrites.trans (hround hk₁)) h (refl _)

theorem pushMessage [KernelImage] {message : Message} {r : Int}
    (h : k.pushMessage owner message = some (r, k')) :
    RingWrites owner k.toGlobals k'.toGlobals := by
  unfold Kernel.pushMessage at h
  dsimp only at h
  split_ifs at h
  · obtain ⟨-, rfl⟩ := Prod.mk.inj (Option.some.inj h)
    exact refl _
  · obtain ⟨p, -, h⟩ := Option.bind_eq_some_iff.mp h
    obtain ⟨k₁, hk₁, h⟩ := Option.bind_eq_some_iff.mp h
    obtain ⟨-, rfl⟩ := Prod.mk.inj (Option.some.inj h)
    exact ((writeSlot owner _ message k).trans (setHead owner _ _)).trans (wakeIf hk₁)

theorem attemptReceive [KernelImage] {r : Option (List UInt8)}
    (h : k.attemptReceive = some (r, k')) :
    RingWrites k.currentProcess k.toGlobals k'.toGlobals := by
  unfold Kernel.attemptReceive Kernel.popMessage at h
  split_ifs at h
  · obtain ⟨-, rfl⟩ := Prod.mk.inj (Option.some.inj h)
    exact refl _
  · obtain ⟨k₁, hk₁, h⟩ := Option.bind_eq_some_iff.mp h
    obtain ⟨-, rfl⟩ := Prod.mk.inj (Option.some.inj h)
    exact (setTail _ _ k).trans (wakeSenders hk₁)

/-! ## What an exchange keeps -/

/-- Data that neither the scheduler writes nor a write to a ring. -/
theorem keeps {α : Type} (h : RingWrites owner g g₁) (π : Globals → α)
    (hfrozen : ∀ {g g' : Globals}, g'.frozen = g.frozen → π g' = π g)
    (hring : ∀ (g : Globals) {f : PCB → PCB}, (∀ b, ∃ messagesBuffer pendingSignals pidToWait
      pastEnd, f b = { b with messagesBuffer, pendingSignals, pidToWait, pastEnd }) →
      π (g.modifyPcb owner f) = π g) : π g₁ = π g := by
  induction h with
  | refl => rfl
  | @tail g₁ _ _ hstep ih =>
      refine Eq.trans ?_ ih
      cases hstep with
      | update _ hupdate => exact hfrozen (Steady.update hupdate).frozen
      | ring f hf => exact hring g₁ hf

theorem processes (h : RingWrites owner g g₁) : g₁.processes = g.processes :=
  h.keeps Globals.processes Globals.processes_of_frozen fun _ _ _ ↦ rfl

theorem currentProcess (h : RingWrites owner g g₁) : g₁.currentProcess = g.currentProcess := by
  induction h with
  | refl => rfl
  | tail _ hstep ih =>
      refine Eq.trans ?_ ih
      cases hstep with
      | update _ hupdate => exact (Steady.update hupdate).currentProcess
      | ring => rfl

/-- An exchange wakes, and changes no state otherwise. -/
theorem state_or_ready (h : RingWrites owner g g₁) (p : PcbPtr) :
    (g₁.pcb p).state = (g.pcb p).state ∨ (g₁.pcb p).state = .ready := by
  induction h with
  | refl => exact .inl rfl
  | @tail g₁ _ _ hstep ih =>
      cases hstep with
      | update _ hupdate =>
          rcases (Updates.one hupdate).state_or_ready p with hsame | hready
          · rwa [hsame]
          · exact .inr hready
      | ring f hf =>
          have hstate := g₁.modifyPcb_field owner p f PCB.state fun b ↦ by
            obtain ⟨_, _, _, _, hb⟩ := hf b
            rw [hb]
          rwa [hstate]

end RingWrites

end DemosOS
