import DemosOS.Kernel.Scheduler
import DemosOS.Lib.Xorshift

/-!
# The random numbers of the lottery

`lottery_random` mixes the system timer into the state of an xorshift generator.  The timer can
cancel the state, so zero is replaced by the seed before the step; the step itself never leads to
zero.
-/

namespace DemosOS

open Lib

namespace Globals

/-- The state with the next reading of the timer mixed in. -/
def mixedState (g : Globals) : BitVec 64 := g.lotteryRngState ^^^ g.readTimer.1

/-- A draw is a step from the mixed state, or from the seed. -/
theorem lotteryRandom_eq (g : Globals) : g.lotteryRandom.1 =
    xorshift 13 7 17 (if g.mixedState = 0 then LOTTERY_SEED else g.mixedState) := rfl

theorem lotteryRandom_state (g : Globals) :
    g.lotteryRandom.2.lotteryRngState = g.lotteryRandom.1 := rfl

theorem lotteryRandom_of_ne_zero {g : Globals} (h : g.mixedState ≠ 0) :
    g.lotteryRandom.1 = xorshift 13 7 17 g.mixedState := by
  rw [lotteryRandom_eq, if_neg h]

/-- No draw is zero, whatever the timer says. -/
theorem lotteryRandom_ne_zero (g : Globals) : g.lotteryRandom.1 ≠ 0 := by
  rw [lotteryRandom_eq]
  apply xorshift_ne_zero
  · decide
  · decide
  · decide
  · split_ifs with h
    · decide
    · exact h

/-- With the same reading of the timer different states are mixed to different states. -/
theorem mixedState_ne {g g' : Globals} (htimer : g.timerClo 0 = g'.timerClo 0)
    (hstate : g.lotteryRngState ≠ g'.lotteryRngState) : g.mixedState ≠ g'.mixedState := by
  intro h
  apply hstate
  have hreading : g.readTimer.1 = g'.readTimer.1 := congrArg (BitVec.setWidth 64) htimer
  rw [mixedState, mixedState, hreading] at h
  exact (BitVec.xor_left_inj _).mp h

end Globals

/-- The generator of the lottery never gets stuck: from the seed on, its state is not zero after
any number of calls and for any readings of the timer; its step is a bijection; and different
states give different numbers for the same reading of the timer, unless the reading cancels one of
them. -/
theorem lottery_generator :
    (∀ (algorithm : Algorithm) (timerClo : Nat → BitVec 32) (calls : Nat),
      ((fun g : Globals ↦ g.lotteryRandom.2)^[calls]
        (Globals.boot algorithm timerClo)).lotteryRngState ≠ 0) ∧
    Function.Bijective (xorshift (w := 64) 13 7 17) ∧
    (∀ g : Globals, g.lotteryRandom.1 =
      xorshift 13 7 17 (if g.mixedState = 0 then LOTTERY_SEED else g.mixedState)) ∧
    ∀ g g' : Globals, g.timerClo 0 = g'.timerClo 0 → g.lotteryRngState ≠ g'.lotteryRngState →
      g.mixedState ≠ 0 → g'.mixedState ≠ 0 → g.lotteryRandom.1 ≠ g'.lotteryRandom.1 := by
  refine ⟨fun algorithm timerClo calls ↦ ?_, ?_, Globals.lotteryRandom_eq, ?_⟩
  · cases calls with
    | zero => exact (by decide : LOTTERY_SEED ≠ 0)
    | succ calls =>
        rw [Function.iterate_succ_apply', Globals.lotteryRandom_state]
        exact Globals.lotteryRandom_ne_zero _
  · exact xorshift_bijective (by decide) (by decide) (by decide)
  · intro g g' htimer hstate hg hg' hdraw
    rw [Globals.lotteryRandom_of_ne_zero hg, Globals.lotteryRandom_of_ne_zero hg'] at hdraw
    apply Globals.mixedState_ne htimer hstate
    exact xorshift_injective (by decide) (by decide) (by decide) hdraw

/-- The first draws from the seed and from the state after one draw, for a timer that stands
still. -/
theorem lottery_generator_boot :
    (Globals.boot .lottery fun _ ↦ 7).lotteryRandom.1 ≠
      (Globals.boot .lottery fun _ ↦ 7).lotteryRandom.2.lotteryRandom.1 :=
  lottery_generator.2.2.2 _ _ rfl (by decide) (by decide) (by decide)

end DemosOS
