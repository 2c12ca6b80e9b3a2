import Mathlib

/-!
# Computations that fail and keep their state

Code in the style of C reports a failure by a code and leaves whatever it has written behind.
That is `EStateM`: a state is handed on, and an error carries the state it was found in.  Nothing
is rolled back.

`Yields x s Q E` says how `x` ends when it starts in `s`: with a value, and `Q` holds of it and of
the state, or with an error, and `E` does.  Every construct has a rule, and a loop has a rule with
an invariant and a variant, so that fuel is counted here and nowhere else.
-/

namespace DemosOS.Lib

universe u v

variable {σ ε α β : Type u}

/-- How a computation ends that starts in `s`. -/
def Yields (x : EStateM ε σ α) (s : σ) (Q : α → σ → Prop) (E : ε → σ → Prop) : Prop :=
  match x s with
  | .ok a s' => Q a s'
  | .error e s' => E e s'

/-- Run a computation and report its error as a value. -/
def attempt (x : EStateM ε σ α) : EStateM ε σ (Except ε α) := fun s ↦
  match x s with
  | .ok a s' => .ok (.ok a) s'
  | .error e s' => .ok (.error e) s'

/-- An `if` without an `else`. -/
def when (c : Prop) [Decidable c] (x : EStateM ε σ PUnit) : EStateM ε σ PUnit :=
  if c then x else pure ⟨⟩

/-- A `for (;;)` loop: a round returns, or goes on with new variables.  A loop that has used up its
fuel fails with `stuck`. -/
def iterate (stuck : ε) (body : β → EStateM ε σ (α ⊕ β)) : Nat → β → EStateM ε σ α
  | 0, _ => throw stuck
  | fuel + 1, b => do
      match ← body b with
      | .inl a => return a
      | .inr b => iterate stuck body fuel b

/-- A computation on the first half of a state. -/
def onFirst {τ : Type u} (x : EStateM ε σ α) : EStateM ε (σ × τ) α := fun (s, t) ↦
  match x s with
  | .ok a s' => .ok a (s', t)
  | .error e s' => .error e (s', t)

/-- A loop with a known number of rounds. -/
def times (x : EStateM ε σ PUnit) : Nat → EStateM ε σ PUnit
  | 0 => pure ⟨⟩
  | n + 1 => do
      x
      times x n

namespace Yields

variable {x : EStateM ε σ α} {s s' : σ} {Q Q' : α → σ → Prop} {E E' : ε → σ → Prop}

theorem of_ok {a : α} (h : x s = .ok a s') (hQ : Q a s') : Yields x s Q E := by
  rw [Yields, h]
  exact hQ

theorem ok {a : α} (h : Yields x s Q E) (hx : x s = .ok a s') : Q a s' := by
  rw [Yields, hx] at h
  exact h

theorem error {e : ε} (h : Yields x s Q E) (hx : x s = .error e s') : E e s' := by
  rw [Yields, hx] at h
  exact h

/-- A computation that cannot fail has a value. -/
theorem exists_ok (h : Yields x s Q fun _ _ ↦ False) : ∃ a s', x s = .ok a s' ∧ Q a s' := by
  unfold Yields at h
  split at h
  · case _ a s' hx => exact ⟨a, s', hx, h⟩
  · exact h.elim

theorem mono (h : Yields x s Q E) (hQ : ∀ a s', Q a s' → Q' a s') (hE : ∀ e s', E e s' → E' e s') :
    Yields x s Q' E' := by
  unfold Yields at h ⊢
  split
  · case _ a s' hx => exact hQ a s' (by rwa [hx] at h)
  · case _ e s' hx => exact hE e s' (by rwa [hx] at h)

/-- A computation that cannot fail. -/
theorem sure (h : Yields x s Q fun _ _ ↦ False) : Yields x s Q E :=
  h.mono (fun _ _ hQ ↦ hQ) fun _ _ hE ↦ hE.elim

theorem and (h : Yields x s Q E) (h' : Yields x s Q' E') :
    Yields x s (fun a s' ↦ Q a s' ∧ Q' a s') fun e s' ↦ E e s' ∧ E' e s' := by
  unfold Yields at h h' ⊢
  split
  · case _ hx =>
      rw [hx] at h h'
      exact ⟨h, h'⟩
  · case _ hx =>
      rw [hx] at h h'
      exact ⟨h, h'⟩

/-- However it ends. -/
theorem any (x : EStateM ε σ α) (s : σ) : Yields x s (fun _ _ ↦ True) fun _ _ ↦ True := by
  unfold Yields
  split
  · trivial
  · trivial

/-! ### One rule for each construct -/

theorem pure {a : α} (h : Q a s) : Yields (Pure.pure a : EStateM ε σ α) s Q E := h

theorem throw {e : ε} (h : E e s) : Yields (MonadExcept.throw e : EStateM ε σ α) s Q E := h

/-- One computation behind the other. -/
theorem bind {f : α → EStateM ε σ β} {R : β → σ → Prop} (h : Yields x s Q E)
    (hf : ∀ a s', Q a s' → Yields (f a) s' R E) : Yields (x >>= f) s R E := by
  change Yields (EStateM.bind x f) s R E
  unfold Yields EStateM.bind
  unfold Yields at h
  cases hx : x s with
  | ok a s' =>
      rw [hx] at h
      exact hf a s' h
  | error e s' =>
      rw [hx] at h
      exact h

/-- A first part whose outcome is known. -/
theorem bind_ok {f : α → EStateM ε σ β} {R : β → σ → Prop} {a : α} (hx : x s = .ok a s')
    (h : Yields (f a) s' R E) : Yields (x >>= f) s R E :=
  bind (Q := fun b s'' ↦ b = a ∧ s'' = s') (of_ok hx ⟨rfl, rfl⟩) fun _ _ ⟨hb, hs⟩ ↦ by
    rw [hb, hs]
    exact h

theorem get_bind {f : σ → EStateM ε σ β} {R : β → σ → Prop} (h : Yields (f s) s R E) :
    Yields (MonadState.get >>= f) s R E := bind_ok rfl h

theorem modify_bind {f : σ → σ} {g : PUnit → EStateM ε σ β} {R : β → σ → Prop}
    (h : Yields (g ⟨⟩) (f s) R E) : Yields (modify f >>= g) s R E := bind_ok rfl h

theorem get {Q : σ → σ → Prop} (h : Q s s) : Yields (MonadState.get : EStateM ε σ σ) s Q E := h

theorem modify {f : σ → σ} {Q : PUnit → σ → Prop} (h : Q ⟨⟩ (f s)) :
    Yields (modify f : EStateM ε σ PUnit) s Q E := h

/-- A case distinction. -/
theorem ite {c : Prop} [Decidable c] {y : EStateM ε σ α} (h : c → Yields x s Q E)
    (h' : ¬ c → Yields y s Q E) : Yields (if c then x else y) s Q E := by
  by_cases hc : c
  · rw [if_pos hc]
    exact h hc
  · rw [if_neg hc]
    exact h' hc

theorem when {c : Prop} [Decidable c] {x : EStateM ε σ PUnit} {Q : PUnit → σ → Prop}
    (h : c → Yields x s Q E) (h' : ¬ c → Q ⟨⟩ s) : Yields (when c x) s Q E :=
  ite h fun hc ↦ pure (h' hc)

theorem attempt {R : Except ε α → σ → Prop}
    (h : Yields x s (fun a ↦ R (.ok a)) fun e ↦ R (.error e)) : Yields (attempt x) s R E := by
  unfold Yields at h
  unfold Yields Lib.attempt
  cases hx : x s with
  | ok a s' =>
      rw [hx] at h
      exact h
  | error e s' =>
      rw [hx] at h
      exact h

theorem onFirst {τ : Type u} {t : τ} {Q : α → σ × τ → Prop} {E : ε → σ × τ → Prop}
    (h : Yields x s (fun a s' ↦ Q a (s', t)) fun e s' ↦ E e (s', t)) :
    Yields (onFirst x) (s, t) Q E := by
  unfold Yields at h
  unfold Yields Lib.onFirst
  cases hx : x s with
  | ok a s' =>
      rw [hx] at h
      simpa only [hx] using h
  | error e s' =>
      rw [hx] at h
      simpa only [hx] using h

/-! ### Loops -/

section

variable {stuck : ε} {body : β → EStateM ε σ (α ⊕ β)} {b : β} {fuel : Nat} {I : β → σ → Prop}

/-- A loop with an invariant; it may run out of fuel. -/
theorem iterate
    (hround : ∀ b s, I b s → Yields (body b) s
      (fun r s' ↦ r.elim (fun a ↦ Q a s') fun b' ↦ I b' s') E)
    (hstuck : ∀ b s, I b s → E stuck s) (h : I b s) : Yields (iterate stuck body fuel b) s Q E := by
  induction fuel generalizing b s with
  | zero => exact throw (hstuck b s h)
  | succ fuel ih =>
      refine (hround b s h).bind fun r s' hr ↦ ?_
      cases r with
      | inl a => exact hr
      | inr b' => exact ih hr

/-- A loop with an invariant and a variant, which is its index: with enough fuel it never runs
out. -/
theorem iterate_of_variant {I : Nat → β → σ → Prop} {k : Nat}
    (hround : ∀ k b s, I k b s → Yields (body b) s
      (fun r s' ↦ r.elim (fun a ↦ Q a s') fun b' ↦ ∃ k' < k, I k' b' s') E)
    (h : I k b s) (hfuel : k < fuel) : Yields (Lib.iterate stuck body fuel b) s Q E := by
  induction fuel generalizing b s k with
  | zero => exact absurd hfuel (Nat.not_lt_zero _)
  | succ fuel ih =>
      refine (hround k b s h).bind fun r s' hr ↦ ?_
      cases r with
      | inl a => exact hr
      | inr b' =>
          obtain ⟨k', hk', hI⟩ := hr
          exact ih hI (Nat.lt_of_lt_of_le hk' (Nat.le_of_lt_succ hfuel))

end

/-- A loop that counts its rounds. -/
theorem times {x : EStateM ε σ PUnit} {n : Nat} {I : Nat → σ → Prop}
    (hround : ∀ i < n, ∀ s, I i s → Yields x s (fun _ ↦ I (i + 1)) E) (h : I 0 s) :
    Yields (times x n) s (fun _ ↦ I n) E := by
  induction n generalizing s I with
  | zero => exact h
  | succ n ih =>
      refine (hround 0 n.succ_pos s h).bind fun _ s' hs' ↦ ?_
      exact ih (I := fun i ↦ I (i + 1)) (fun i hi ↦ hround (i + 1) (Nat.succ_lt_succ hi)) hs'

end Yields

/-! ## Frames -/

/-- What the computation leaves true of the state, however it ends. -/
def Keeps (I : σ → Prop) (x : EStateM ε σ α) : Prop :=
  ∀ s, I s → Yields x s (fun _ ↦ I) fun _ ↦ I

namespace Keeps

variable {I : σ → Prop} {x : EStateM ε σ α} {s : σ}

/-- A frame beside what is known of the end. -/
theorem and {Q : α → σ → Prop} {E : ε → σ → Prop} (h : Keeps I x) (hs : I s) (hx : Yields x s Q E) :
    Yields x s (fun a s' ↦ Q a s' ∧ I s') fun e s' ↦ E e s' ∧ I s' := hx.and (h s hs)

theorem pure (a : α) : Keeps I (Pure.pure a : EStateM ε σ α) := fun _ hs ↦ hs

theorem throw (e : ε) : Keeps I (MonadExcept.throw e : EStateM ε σ α) := fun _ hs ↦ hs

theorem get : Keeps I (MonadState.get : EStateM ε σ σ) := fun _ hs ↦ hs

theorem modify {f : σ → σ} (h : ∀ s, I s → I (f s)) :
    Keeps I (modify f : EStateM ε σ PUnit) := fun s hs ↦ h s hs

theorem bind {f : α → EStateM ε σ β} (h : Keeps I x) (hf : ∀ a, Keeps I (f a)) :
    Keeps I (x >>= f) := fun s hs ↦ (h s hs).bind fun a s' hs' ↦ hf a s' hs'

theorem ite {c : Prop} [Decidable c] {y : EStateM ε σ α} (h : c → Keeps I x) (h' : ¬ c → Keeps I y) :
    Keeps I (if c then x else y) := fun s hs ↦ Yields.ite (fun hc ↦ h hc s hs) fun hc ↦ h' hc s hs

theorem when {c : Prop} [Decidable c] {x : EStateM ε σ PUnit} (h : c → Keeps I x) :
    Keeps I (when c x) := ite h fun _ ↦ pure _

theorem attempt (h : Keeps I x) : Keeps I (attempt x) := fun s hs ↦ Yields.attempt (h s hs)

theorem iterate {stuck : ε} {body : β → EStateM ε σ (α ⊕ β)} {fuel : Nat} {b : β} {J : β → Prop}
    (h : ∀ b, J b → ∀ s, I s → Yields (body b) s (fun r s' ↦ I s' ∧ ∀ b', r = .inr b' → J b')
      fun _ ↦ I) (hb : J b) : Keeps I (iterate stuck body fuel b) := fun s hs ↦ by
  refine Yields.iterate (I := fun b s ↦ J b ∧ I s) ?_ (fun _ _ h ↦ h.2) ⟨hb, hs⟩
  rintro b s ⟨hb, hs⟩
  refine (h b hb s hs).mono ?_ fun _ _ hE ↦ hE
  rintro r s' ⟨hs', hr⟩
  cases r with
  | inl a => exact hs'
  | inr b' => exact ⟨hr b' rfl, hs'⟩

end Keeps

end DemosOS.Lib
