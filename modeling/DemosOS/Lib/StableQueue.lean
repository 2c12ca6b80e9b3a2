import Mathlib.Data.List.Basic
import Mathlib.Order.Basic
import Mathlib.Order.Defs.LinearOrder
import Mathlib.Order.Lattice

/-!
# Queues in the order of a key

A queue that keeps its elements in the order of a key, and those with the same key in the order in
which they came.  When an element came is read off a log of all insertions: an element that leaves
and comes back counts from its last insertion.
-/

namespace DemosOS.Lib

universe u v

variable {α : Type u} {β : Type v}

/-! ## The log -/

/-- The last insertion of `x` comes before one of `y`. -/
def InsertedBefore (log : List α) (x y : α) : Prop := ∃ u v, log = u ++ x :: v ∧ x ∉ v ∧ y ∈ v

theorem InsertedBefore.append {log : List α} {x y : α} (h : InsertedBefore log x y) {w : List α}
    (hx : x ∉ w) : InsertedBefore (log ++ w) x y := by
  obtain ⟨u, v, rfl, hv, hy⟩ := h
  refine ⟨u, v ++ w, by rw [List.append_assoc, List.cons_append], ?_, List.mem_append_left w hy⟩
  rw [List.mem_append, not_or]
  exact ⟨hv, hx⟩

/-- An element of the log has a last insertion. -/
theorem exists_last_insertion {log : List α} {x : α} (hx : x ∈ log) :
    ∃ u v, log = u ++ x :: v ∧ x ∉ v := by
  obtain ⟨u, v, hsplit, hu⟩ := List.eq_append_cons_of_mem (List.mem_reverse.mpr hx)
  refine ⟨v.reverse, u.reverse, ?_, fun hm ↦ hu (List.mem_reverse.mp hm)⟩
  have hlog := congrArg List.reverse hsplit
  simpa using hlog

theorem insertedBefore_last {log : List α} {x y : α} (hx : x ∈ log) (hne : x ≠ y) :
    InsertedBefore (log ++ [y]) x y := by
  obtain ⟨u, v, rfl, hv⟩ := exists_last_insertion hx
  refine ⟨u, v ++ [y], by simp, ?_, by simp⟩
  rw [List.mem_append, List.mem_singleton, not_or]
  exact ⟨hv, hne⟩

/-! ## The order of service -/

variable [LinearOrder β]

/-- `x` is served before `y`: its key is smaller, or it is the same and `x` came first. -/
def ServedBefore (key : α → β) (log : List α) (x y : α) : Prop :=
  key x < key y ∨ key x = key y ∧ InsertedBefore log x y

theorem ServedBefore.le {key : α → β} {log : List α} {x y : α} (h : ServedBefore key log x y) :
    key x ≤ key y := by
  rcases h with h | ⟨h, -⟩
  · exact h.le
  · exact h.le

/-- Later insertions of other elements do not matter. -/
theorem ServedBefore.append {key : α → β} {log : List α} {x y : α} (h : ServedBefore key log x y)
    {w : List α} (hx : x ∉ w) : ServedBefore key (log ++ w) x y :=
  h.imp_right fun ⟨heq, hbefore⟩ ↦ ⟨heq, hbefore.append hx⟩

/-- The elements of `l` stand in the order of service. -/
structure InServiceOrder (key : α → β) (log l : List α) : Prop where
  order : l.Pairwise (ServedBefore key log)
  logged : ∀ x ∈ l, x ∈ log

/-- Insert before the first element with a larger key. -/
def insertInOrder (key : α → β) (x : α) (l : List α) : List α :=
  let notLarger := fun y ↦ !decide (key x < key y)
  l.takeWhile notLarger ++ x :: l.dropWhile notLarger

theorem insertInOrder_nil (key : α → β) (x : α) : insertInOrder key x [] = [x] := rfl

theorem insertInOrder_cons (key : α → β) (x y : α) (l : List α) :
    insertInOrder key x (y :: l) =
      if key x < key y then x :: y :: l else y :: insertInOrder key x l := by
  unfold insertInOrder
  split_ifs with h
  · simp [h]
  · simp [h]

theorem mem_insertInOrder {key : α → β} {x y : α} {l : List α} :
    y ∈ insertInOrder key x l ↔ y = x ∨ y ∈ l := by
  induction l with
  | nil => simp [insertInOrder_nil]
  | cons z l ih =>
      rw [insertInOrder_cons]
      split_ifs
      · exact List.mem_cons
      · rw [List.mem_cons, ih, List.mem_cons]
        exact or_left_comm

namespace InServiceOrder

variable {key key' : α → β} {log l l' : List α}

theorem nil (key : α → β) (log : List α) : InServiceOrder key log [] := ⟨List.Pairwise.nil, nofun⟩

theorem sublist (h : InServiceOrder key log l) (hl : l'.Sublist l) : InServiceOrder key log l' :=
  ⟨h.order.sublist hl, fun x hx ↦ h.logged x (hl.subset hx)⟩

/-- Only the keys of the elements of the queue matter. -/
theorem congr (h : InServiceOrder key log l) (hkey : ∀ x ∈ l, key' x = key x) :
    InServiceOrder key' log l where
  order := h.order.imp_of_mem fun {x y} hx hy hbefore ↦ by
    rw [ServedBefore, hkey x hx, hkey y hy]
    exact hbefore
  logged := h.logged

/-- An element joins the queue after those that are served before it. -/
theorem insert (h : InServiceOrder key log l) {x : α} (hx : x ∉ l) :
    InServiceOrder key (log ++ [x]) (insertInOrder key x l) where
  order := by
    obtain ⟨horder, hlogged⟩ := h
    induction l with
    | nil => exact List.pairwise_singleton _ _
    | cons y l ih =>
        obtain ⟨hy, horder⟩ := List.pairwise_cons.mp horder
        rw [List.mem_cons, not_or] at hx
        have hlast : ∀ z ∈ y :: l, z ∉ [x] := by
          rintro z hz hzx
          obtain rfl := List.mem_singleton.mp hzx
          exact (List.mem_cons.mp hz).elim (fun he ↦ hx.1 he) hx.2
        have hy' : ∀ z ∈ l, ServedBefore key (log ++ [x]) y z := fun z hz ↦
          (hy z hz).append (hlast y List.mem_cons_self)
        rw [insertInOrder_cons]
        split_ifs with hlt
        · refine List.pairwise_cons.mpr ⟨?_, List.pairwise_cons.mpr ⟨hy', ?_⟩⟩
          · rintro z (_ | ⟨_, hz⟩)
            · exact .inl hlt
            · exact .inl (hlt.trans_le (hy z hz).le)
          · exact horder.imp_of_mem fun {z _} hz _ hbefore ↦
              hbefore.append (hlast z (List.mem_cons_of_mem y hz))
        · refine List.pairwise_cons.mpr ⟨fun z hz ↦ ?_,
            ih hx.2 horder fun z hz ↦ hlogged z (List.mem_cons_of_mem y hz)⟩
          rcases mem_insertInOrder.mp hz with rfl | hz
          · -- the new element comes last among those with its key
            rcases (not_lt.mp hlt).lt_or_eq with h | h
            · exact .inl h
            · exact .inr ⟨h, insertedBefore_last (hlogged y List.mem_cons_self) fun he ↦
                hx.1 he.symm⟩
          · exact hy' z hz
  logged := by
    intro y hy
    rcases mem_insertInOrder.mp hy with rfl | hy
    · simp
    · exact List.mem_append_left _ (h.logged y hy)

end InServiceOrder

end DemosOS.Lib
