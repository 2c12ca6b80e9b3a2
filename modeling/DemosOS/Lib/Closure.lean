import DemosOS.Lib.IntrusiveQueue

/-!
# Pointers that stay in a set of nodes

`Represents` describes links that are in order.  Less is true of links in every state, also of
corrupted ones and of those in the middle of an operation: an operation stores only pointers that it
has read or been given.  `Links.Within S` says that following the pointers from the heads does not
lead out of `S`.
-/

namespace DemosOS.Lib

universe u v

namespace Links

variable {ι : Type u} {P : Type v}

/-- The heads, and the successors of nodes of `S`, are nodes of `S`. -/
structure Within (S : Set P) (L : Links ι P) : Prop where
  head : ∀ {i p}, (L.ends i).head = some p → p ∈ S
  next : ∀ {x p}, x ∈ S → L.next x = some p → p ∈ S

namespace Within

variable {S S' : Set P} {L L' : Links ι P} {i : ι} {p : P}

/-- Links that are the same from the heads on. -/
theorem congr (h : Within S L) (hends : L'.ends = L.ends) (hnext : ∀ x ∈ S, L'.next x = L.next x) :
    Within S L' where
  head hp := h.head (by rwa [hends] at hp)
  next hx hp := h.next hx (by rwa [hnext _ hx] at hp)

/-- A node without successor may be added to the set. -/
theorem insert (h : Within S L) (hp : L.next p = none) : Within (insert p S) L where
  head hx := .inr (h.head hx)
  next hx hy := by
    rcases hx with rfl | hx
    · rw [hp] at hy
      cases hy
    · exact .inr (h.next hx hy)

theorem setNext [DecidableEq P] (h : Within S L) (x : P) {o : Option P}
    (ho : ∀ p, o = some p → p ∈ S) : Within S (L.setNext x o) where
  head hp := h.head hp
  next {y p} hy hp := by
    rw [setNext_next, Function.update_apply] at hp
    split_ifs at hp
    · exact ho p hp
    · exact h.next hy hp

theorem setEnds [DecidableEq ι] (h : Within S L) (i : ι) {e : Ends P}
    (he : ∀ p, e.head = some p → p ∈ S) : Within S (L.setEnds i e) where
  head {j p} hp := by
    rw [setEnds_ends, Function.update_apply] at hp
    split_ifs at hp
    · exact he p hp
    · exact h.head hp
  next hx hp := h.next hx hp

variable [DecidableEq ι] [DecidableEq P]

theorem pushBack (h : Within S L) (i : ι) (hp : p ∈ S) : Within S (L.pushBack i p) := by
  have hsome : ∀ x, some p = some x → x ∈ S := fun x hx ↦ Option.some.inj hx ▸ hp
  have hlast : Within S (L.setNext p none) := h.setNext p nofun
  unfold Links.pushBack
  dsimp only
  split
  · exact hlast.setEnds i hsome
  · exact (hlast.setNext _ hsome).setEnds i fun _ ↦ h.head

theorem pushFront (h : Within S L) (i : ι) (hp : p ∈ S) : Within S (L.pushFront i p) :=
  (h.setNext p fun _ ↦ h.head).setEnds i fun _ hx ↦ Option.some.inj hx ▸ hp

/-- The node that is unlinked is one of the set. -/
theorem popFront (h : Within S L) (i : ι) :
    Within S (L.popFront i).2 ∧ ∀ p, (L.popFront i).1 = some p → p ∈ S := by
  unfold Links.popFront
  cases hhead : (L.ends i).head with
  | none => exact ⟨h, nofun⟩
  | some x =>
      have hx : x ∈ S := h.head hhead
      exact ⟨(h.setEnds i fun _ ↦ h.next hx).setNext x nofun,
        fun p hp ↦ Option.some.inj hp ▸ hx⟩

theorem unlink (h : Within S L) (i : ι) (prev : Option P) (hp : p ∈ S) :
    Within S (L.unlink i prev p) := by
  have hnext : ∀ x, L.next p = some x → x ∈ S := fun _ ↦ h.next hp
  have htail : ∀ {L' : Links ι P} (last : Prop) [Decidable last], Within S L' →
      Within S (if last then L'.setEnds i ⟨(L'.ends i).head, prev⟩ else L') := by
    intro L' last _ h'
    split_ifs
    · exact h'.setEnds i fun _ ↦ h'.head
    · exact h'
  unfold Links.unlink
  dsimp only
  refine Within.setNext ?_ p (by simp)
  cases prev with
  | none => exact htail _ (h.setEnds i hnext)
  | some c => exact htail _ (h.setNext c hnext)

theorem insertAfter (h : Within S L) (i : ι) {c : P} (hc : c ∈ S) (hp : p ∈ S) :
    Within S (L.insertAfter i c p) := by
  have hsome : ∀ x, some p = some x → x ∈ S := fun x hx ↦ Option.some.inj hx ▸ hp
  have hlinked : Within S ((L.setNext p (L.next c)).setNext c (some p)) :=
    (h.setNext p fun _ ↦ h.next hc).setNext c hsome
  unfold Links.insertAfter
  dsimp only
  split_ifs
  · exact hlinked.setEnds i fun _ ↦ hlinked.head
  · exact hlinked

omit [DecidableEq ι] [DecidableEq P] in
/-- A search from a node of the set ends at one. -/
theorem seekBefore (h : Within S L) {stop : P → Bool} {fuel : Nat} {x c : P} (hx : x ∈ S)
    (hc : L.seekBefore stop fuel x = some c) : c ∈ S := by
  induction fuel generalizing x with
  | zero => cases hc
  | succ fuel ih =>
      unfold Links.seekBefore at hc
      split at hc
      · exact Option.some.inj hc ▸ hx
      · rename_i d hd
        split_ifs at hc
        · exact Option.some.inj hc ▸ hx
        · exact ih (h.next hx hd) hc

end Within

end Links

end DemosOS.Lib
