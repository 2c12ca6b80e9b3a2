import DemosOS.Kernel.Console
import DemosOS.Kernel.Messages
import DemosOS.Lib.Closure
import DemosOS.Sched.Frame

/-!
# Links that do not leave the process table

The functions of the scheduler link processes they have been given and processes they find in the
queues.  Where the links stay within a set of processes before a function runs, they do so after it,
and whoever it selects is one of the set or init.  No order in the queues is needed for this.
-/

namespace DemosOS

open Lib

namespace Kernel

variable {S : Set PcbPtr} {k k' : Kernel Pointers} {p : PcbPtr}

/-! ## Queues and signals -/

theorem within_enqueueProcessTo (h : k.queues.Within S) (q : QueueId) (hp : p ∈ S) :
    (k.enqueueProcessTo q p).queues.Within S := by
  unfold enqueueProcessTo
  split_ifs
  · exact h
  · exact h.pushBack q hp

theorem within_enqueueSortedTo (h : k.queues.Within S) {q : QueueId} (hp : p ∈ S)
    (hrun : k.enqueueSortedTo q p = some k') : k'.queues.Within S := by
  have hlast : (k.queues.setNext p none).Within S := h.setNext p nofun
  unfold enqueueSortedTo at hrun
  split_ifs at hrun
  · rwa [← Option.some.inj hrun]
  · dsimp only at hrun
    split at hrun
    · rw [← Option.some.inj hrun]
      exact hlast.setEnds q fun x hx ↦ Option.some.inj hx ▸ hp
    · rename_i head hhead
      split_ifs at hrun
      · rw [← Option.some.inj hrun]
        exact hlast.pushFront q hp
      · obtain ⟨c, hc, hrun⟩ := Option.bind_eq_some_iff.mp hrun
        rw [← Option.some.inj hrun]
        exact hlast.insertAfter q (hlast.seekBefore (hlast.head hhead) hc) hp

theorem within_activeEnqueue (h : k.queues.Within S) (hp : p ∈ S)
    (hrun : k.activeEnqueue p = some k') : k'.queues.Within S := by
  unfold activeEnqueue at hrun
  split at hrun
  · rw [← Option.some.inj hrun]
    exact within_enqueueProcessTo h _ hp
  · exact within_enqueueSortedTo h hp hrun
  · rw [← Option.some.inj hrun]
    exact within_enqueueProcessTo h _ hp

theorem within_enqueueProcess (h : k.queues.Within S) (hp : p ∈ S)
    (hrun : k.enqueueProcess p = some k') : k'.queues.Within S := by
  unfold enqueueProcess at hrun
  split_ifs at hrun
  · rwa [← Option.some.inj hrun]
  · exact within_activeEnqueue h hp hrun

theorem within_wakeIf (h : k.queues.Within S) {s : ProcessState} (hp : p ∈ S)
    (hrun : k.wakeIf s p = some k') : k'.queues.Within S := by
  unfold wakeIf at hrun
  split_ifs at hrun
  · exact within_enqueueProcess (k := k.mapGlobals (·.setState p .ready)) h hp hrun
  · rwa [← Option.some.inj hrun]

theorem within_handleProcessSignals (h : k.queues.Within S) (hp : p ∈ S)
    (hrun : k.handleProcessSignals p = some k') : k'.queues.Within S := by
  unfold handleProcessSignals at hrun
  dsimp only at hrun
  split_ifs at hrun
  · rwa [← Option.some.inj hrun]
  · rw [← Option.some.inj hrun]
    exact h
  · rw [← Option.some.inj hrun]
    exact h
  · exact within_enqueueProcess (k := (k.mapGlobals (·.modifyPcb p fun b ↦
      b.clearSignal SIGNAL_RESUME)).mapGlobals (·.setState p .ready)) h hp hrun
  · rw [← Option.some.inj hrun]
    exact h
  · rwa [← Option.some.inj hrun]

/-! ## Selection -/

theorem within_takeReady (h : k.queues.Within S) {q : QueueId} {fuel : Nat} {next : Option PcbPtr}
    (hrun : k.takeReady q fuel = some (next, k')) :
    k'.queues.Within S ∧ ∀ p, next = some p → p ∈ S := by
  induction fuel generalizing k with
  | zero => simp [takeReady] at hrun
  | succ fuel ih =>
      obtain ⟨hrest, hmem⟩ := h.popFront q
      unfold takeReady at hrun
      dsimp only [dequeueProcessFrom] at hrun
      split at hrun
      · rename_i hpop
        obtain ⟨rfl, rfl⟩ := Prod.mk.inj (Option.some.inj hrun)
        rw [← (Prod.mk.inj hpop).2]
        exact ⟨hrest, by simp⟩
      · rename_i p k₁ hpop
        obtain ⟨hp, rfl⟩ := Prod.mk.inj hpop
        have hpS := hmem p hp
        obtain ⟨k₂, hk₂, hrun⟩ := Option.bind_eq_some_iff.mp hrun
        have h₂ : k₂.queues.Within S := within_handleProcessSignals
          (k := { k with queues := (k.queues.popFront q).2 }) hrest hpS hk₂
        split_ifs at hrun
        · obtain ⟨rfl, rfl⟩ := Prod.mk.inj (Option.some.inj hrun)
          exact ⟨h₂, fun x hx ↦ Option.some.inj hx ▸ hpS⟩
        · exact ih h₂ hrun

theorem findWinner_mem (h : k.queues.Within S) {winner counter : Int} {fuel : Nat}
    {previous node candidate previous' : Option PcbPtr} (hnode : ∀ p, node = some p → p ∈ S)
    (hrun : k.findWinner winner fuel previous node counter = some (previous', candidate)) :
    ∀ p, candidate = some p → p ∈ S := by
  induction fuel generalizing previous node counter with
  | zero => simp [findWinner] at hrun
  | succ fuel ih =>
      cases node with
      | none =>
          obtain ⟨-, rfl⟩ := Prod.mk.inj (Option.some.inj hrun)
          simp
      | some x =>
          have hx := hnode x rfl
          unfold findWinner at hrun
          dsimp only at hrun
          split_ifs at hrun
          · obtain ⟨-, rfl⟩ := Prod.mk.inj (Option.some.inj hrun)
            exact fun p hp ↦ Option.some.inj hp ▸ hx
          · exact ih (fun p ↦ h.next hx) hrun

theorem within_drawWinner (h : k.queues.Within S) {fuel : Nat} {next : Option PcbPtr}
    (hrun : k.drawWinner fuel = some (next, k')) :
    k'.queues.Within S ∧ ∀ p, next = some p → p ∈ S := by
  induction fuel generalizing k with
  | zero => simp [drawWinner] at hrun
  | succ fuel ih =>
      unfold drawWinner at hrun
      obtain ⟨total, -, hrun⟩ := Option.bind_eq_some_iff.mp hrun
      split_ifs at hrun
      · obtain ⟨rfl, rfl⟩ := Prod.mk.inj (Option.some.inj hrun)
        exact ⟨h, by simp⟩
      · obtain ⟨⟨previous, candidate⟩, hfind, hrun⟩ := Option.bind_eq_some_iff.mp hrun
        obtain ⟨x, hx, hrun⟩ := Option.bind_eq_some_iff.mp hrun
        have hxS : x ∈ S := findWinner_mem (k := { k with toGlobals := k.lotteryRandom.2 }) h
          (fun _ ↦ h.head) hfind x hx
        obtain ⟨k₂, hk₂, hrun⟩ := Option.bind_eq_some_iff.mp hrun
        have hunlinked : (k.queues.unlink .readyQueue previous x).Within S :=
          h.unlink .readyQueue previous hxS
        have h₂ : k₂.queues.Within S := within_handleProcessSignals
          (k := removeProcessFrom .readyQueue previous x { k with toGlobals := k.lotteryRandom.2 })
          hunlinked hxS hk₂
        split_ifs at hrun
        · obtain ⟨rfl, rfl⟩ := Prod.mk.inj (Option.some.inj hrun)
          exact ⟨h₂, fun p hp ↦ Option.some.inj hp ▸ hxS⟩
        · exact ih h₂ hrun

theorem within_agingWalk (h : k.queues.Within S) {fuel : Nat} {node previous : Option PcbPtr}
    {best best' : Option PcbPtr × Option PcbPtr} {maxCounter : Int}
    (hnode : ∀ p, node = some p → p ∈ S) (hbest : ∀ p, best.1 = some p → p ∈ S)
    (hrun : agingWalk fuel node previous best maxCounter k = some (best', k')) :
    k'.queues.Within S ∧ ∀ p, best'.1 = some p → p ∈ S := by
  induction fuel generalizing k node previous best maxCounter with
  | zero => simp [agingWalk] at hrun
  | succ fuel ih =>
      cases node with
      | none =>
          obtain ⟨rfl, rfl⟩ := Prod.mk.inj (Option.some.inj hrun)
          exact ⟨h, hbest⟩
      | some x =>
          have hx := hnode x rfl
          -- the successor is read before the signals are handled
          have hnext : ∀ p, k.queues.next x = some p → p ∈ S := fun p ↦ h.next hx
          unfold agingWalk at hrun
          obtain ⟨k₂, hk₂, hrun⟩ := Option.bind_eq_some_iff.mp hrun
          have h₂ := within_handleProcessSignals h hx hk₂
          split_ifs at hrun
          · have hunlinked : (k₂.removeProcessFrom .readyQueue previous x).queues.Within S :=
              h₂.unlink .readyQueue previous hx
            exact ih hunlinked hnext hbest hrun
          · have hbest : ∀ p, (some x, previous).1 = some p → p ∈ S :=
              fun p hp ↦ Option.some.inj hp ▸ hx
            exact ih h₂ hnext hbest hrun
          · exact ih h₂ hnext hbest hrun

theorem within_agingLoop (h : k.queues.Within S) {fuel : Nat} {next : Option PcbPtr}
    (hrun : agingLoop fuel k = some (next, k')) :
    k'.queues.Within S ∧ ∀ p, next = some p → p ∈ S := by
  induction fuel generalizing k with
  | zero => simp [agingLoop] at hrun
  | succ fuel ih =>
      unfold agingLoop at hrun
      obtain ⟨⟨⟨best, bestPrevious⟩, k₁⟩, hwalk, hrun⟩ := Option.bind_eq_some_iff.mp hrun
      obtain ⟨h₁, hbest⟩ := within_agingWalk h (fun _ ↦ h.head) (fun _ hp ↦ by cases hp) hwalk
      cases best with
      | some best =>
          obtain ⟨rfl, rfl⟩ := Prod.mk.inj (Option.some.inj hrun)
          exact ⟨h₁.unlink .readyQueue bestPrevious (hbest best rfl), hbest⟩
      | none =>
          dsimp only at hrun
          split_ifs at hrun
          · obtain ⟨rfl, rfl⟩ := Prod.mk.inj (Option.some.inj hrun)
            exact ⟨h₁, by simp⟩
          · exact ih (k := k₁.mapGlobals (·.recharge)) h₁ hrun

theorem within_takeFromLevels (h : k.queues.Within S) {levels : List Nat}
    {next : Option (PcbPtr × Nat)} (hrun : k.takeFromLevels levels = some (next, k')) :
    k'.queues.Within S ∧ ∀ r, next = some r → r.1 ∈ S := by
  induction levels generalizing k with
  | nil =>
      obtain ⟨rfl, rfl⟩ := Prod.mk.inj (Option.some.inj hrun)
      exact ⟨h, nofun⟩
  | cons q levels ih =>
      unfold takeFromLevels at hrun
      obtain ⟨⟨next', k₁⟩, htake, hrun⟩ := Option.bind_eq_some_iff.mp hrun
      obtain ⟨h₁, hnext⟩ := within_takeReady h htake
      cases next' with
      | some p =>
          obtain ⟨rfl, rfl⟩ := Prod.mk.inj (Option.some.inj hrun)
          exact ⟨h₁, fun r hr ↦ Option.some.inj hr ▸ hnext p rfl⟩
      | none => exact ih h₁ hrun

section

variable (h : k.queues.Within S) (hcur : k.currentProcess ∈ S)
include h hcur

theorem within_parkFifo : k.parkFifo.queues.Within S := by
  unfold parkFifo
  split_ifs
  · exact within_enqueueProcessTo h _ hcur
  · exact h

theorem within_parkMultilevel : k.parkMultilevel.queues.Within S := by
  unfold parkMultilevel
  split_ifs
  · exact within_enqueueProcessTo h _ hcur
  · exact h

theorem within_parkActive (hrun : k.parkActive = some k') : k'.queues.Within S := by
  unfold parkActive at hrun
  split_ifs at hrun
  · exact within_activeEnqueue h hcur hrun
  · rwa [← Option.some.inj hrun]

/-- Whoever is selected comes from the queues, or is init. -/
theorem within_select (hinit : PcbPtr.initProcess ∈ S) {next : PcbPtr}
    (hrun : k.select = some (next, k')) : k'.queues.Within S ∧ next ∈ S := by
  have h₀ : (k.mapGlobals (·.preemptDisable)).queues.Within S := h
  have hcur₀ : (k.mapGlobals (·.preemptDisable)).currentProcess ∈ S := hcur
  -- the fallback to init, in all selection functions
  have hchoice : ∀ {k₁ : Kernel Pointers} {next' : Option PcbPtr} {f : PcbPtr → Globals → Globals},
      k₁.queues.Within S ∧ (∀ p, next' = some p → p ∈ S) →
      (next' = none → some (PcbPtr.initProcess, k₁) = some (next, k')) →
      (∀ p, next' = some p → some (p, k₁.mapGlobals (f p)) = some (next, k')) →
      k'.queues.Within S ∧ next ∈ S := by
    rintro k₁ (_ | p) f ⟨h₁, hmem⟩ hnone hsome
    · obtain ⟨rfl, rfl⟩ := Prod.mk.inj (Option.some.inj (hnone rfl))
      exact ⟨h₁, hinit⟩
    · obtain ⟨rfl, rfl⟩ := Prod.mk.inj (Option.some.inj (hsome p rfl))
      exact ⟨h₁, hmem _ rfl⟩
  unfold select at hrun
  split at hrun
  · obtain ⟨⟨next', k₁⟩, hloop, hrun⟩ := Option.bind_eq_some_iff.mp hrun
    refine hchoice (f := fun _ g ↦ g) (within_agingLoop (within_parkFifo h₀ hcur₀) hloop) ?_ ?_
    · rintro rfl
      exact hrun
    · rintro p rfl
      exact hrun
  · obtain ⟨⟨next', k₁⟩, hloop, hrun⟩ := Option.bind_eq_some_iff.mp hrun
    refine hchoice (f := fun p g ↦ g.setCounter p 10)
      (within_takeReady (within_parkFifo h₀ hcur₀) hloop) ?_ ?_
    · rintro rfl
      exact hrun
    · rintro p rfl
      exact hrun
  · obtain ⟨⟨next', k₁⟩, hloop, hrun⟩ := Option.bind_eq_some_iff.mp hrun
    refine hchoice (f := fun p g ↦ g.setCounter p 10)
      (within_drawWinner (within_parkFifo h₀ hcur₀) hloop) ?_ ?_
    · rintro rfl
      exact hrun
    · rintro p rfl
      exact hrun
  · obtain ⟨k₀, hpark, hrun⟩ := Option.bind_eq_some_iff.mp hrun
    obtain ⟨⟨next', k₁⟩, hloop, hrun⟩ := Option.bind_eq_some_iff.mp hrun
    refine hchoice (f := fun _ g ↦ g)
      (within_takeReady (within_parkActive h₀ hcur₀ hpark) hloop) ?_ ?_
    · rintro rfl
      exact hrun
    · rintro p rfl
      exact hrun
  · obtain ⟨policy, -, hrun⟩ := Option.bind_eq_some_iff.mp hrun
    obtain ⟨⟨next', k₁⟩, hloop, hrun⟩ := Option.bind_eq_some_iff.mp hrun
    obtain ⟨h₁, hmem⟩ := within_takeFromLevels (within_parkMultilevel h₀ hcur₀) hloop
    cases next' with
    | none =>
        obtain ⟨rfl, rfl⟩ := Prod.mk.inj (Option.some.inj hrun)
        exact ⟨h₁, hinit⟩
    | some r =>
        obtain ⟨rfl, rfl⟩ := Prod.mk.inj (Option.some.inj hrun)
        exact ⟨h₁, hmem r rfl⟩

end

/-! ## Timer tick -/

theorem within_boostQueue (h : k.queues.Within S) {q fuel : Nat}
    (hrun : k.boostQueue q fuel = some k') : k'.queues.Within S := by
  induction fuel generalizing k with
  | zero => simp [boostQueue] at hrun
  | succ fuel ih =>
      obtain ⟨hrest, hmem⟩ := h.popFront (.mlQueues q)
      unfold boostQueue at hrun
      dsimp only [dequeueProcessFrom] at hrun
      split at hrun
      · rename_i hpop
        rw [← Option.some.inj hrun, ← (Prod.mk.inj hpop).2]
        exact hrest
      · rename_i p k₁ hpop
        obtain ⟨hp, rfl⟩ := Prod.mk.inj hpop
        refine ih (within_enqueueProcessTo ?_ _ (hmem p hp)) hrun
        exact hrest

theorem within_boost (h : k.queues.Within S) {policy : MultilevelPolicy}
    (hrun : k.boost policy = some k') : k'.queues.Within S := by
  obtain ⟨k₁, hk₁, hrun⟩ := Option.bind_eq_some_iff.mp hrun
  rw [← Option.some.inj hrun]
  have h₁ : k₁.queues.Within S :=
    Lib.foldlM_invariant (I := fun k : Kernel Pointers ↦ k.queues.Within S)
      (fun h hround ↦ within_boostQueue h hround) hk₁ h
  exact h₁

theorem within_onTick (h : k.queues.Within S) (hrun : k.onTick = some k') :
    k'.queues.Within S := by
  unfold onTick at hrun
  split at hrun
  · rwa [← Option.some.inj hrun]
  · obtain ⟨policy, -, hrun⟩ := Option.bind_eq_some_iff.mp hrun
    have hcount : (k.mapGlobals fun g ↦
        { g with mlTicksSinceBoost := g.mlTicksSinceBoost + 1 }).queues.Within S := h
    dsimp only at hrun
    split_ifs at hrun
    · obtain ⟨k₁, hk₁, hrun⟩ := Option.bind_eq_some_iff.mp hrun
      rw [← Option.some.inj hrun]
      have h₁ : k₁.queues.Within S := within_boost hcount hk₁
      exact h₁
    · rw [← Option.some.inj hrun]
      exact h
    · rw [← Option.some.inj hrun]
      exact h

theorem within_tickEntry (h : k.queues.Within S) {b : Bool} (hrun : k.tickEntry = some (b, k')) :
    k'.queues.Within S := by
  obtain ⟨k₁, htick, hrun⟩ := Option.bind_eq_some_iff.mp hrun
  have h₁ : k₁.queues.Within S := within_onTick (k := k.mapGlobals (·.chargeTick)) h htick
  dsimp only at hrun
  split_ifs at hrun
  · obtain ⟨-, rfl⟩ := Prod.mk.inj (Option.some.inj hrun)
    exact h₁
  · obtain ⟨-, rfl⟩ := Prod.mk.inj (Option.some.inj hrun)
    exact h₁
  · obtain ⟨-, rfl⟩ := Prod.mk.inj (Option.some.inj hrun)
    exact h₁

end Kernel

end DemosOS
