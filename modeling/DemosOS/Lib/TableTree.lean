import Mathlib.Data.List.Basic
import Mathlib.Data.List.Induction
import Mathlib.Tactic.SplitIfs

/-!
# Trees of tables

Nodes that refer to each other by numbered entries, such as the tables of a multi-level translation.
A node is found by a path of entries from a root.  The nodes are a tree, down to some depth, if none
of them is found by two paths.

A new node is attached to an empty entry: the walks that end there find it, and no other walk
notices.
-/

namespace DemosOS.Lib.TableTree

universe u v

variable {α : Type u} {ι : Type v}

/-- The node found from `a` by the entries of the path. -/
def walk (child : α → ι → Option α) (a : α) : List ι → Option α
  | [] => some a
  | i :: path => (child a i).bind fun b ↦ walk child b path

variable {child child' : α → ι → Option α} {a b r : α} {i : ι} {path path' : List ι} {d : Nat}

@[simp] theorem walk_nil : walk child a [] = some a := rfl

theorem walk_cons : walk child a (i :: path) = (child a i).bind fun b ↦ walk child b path := rfl

theorem walk_append :
    walk child a (path ++ path') = (walk child a path).bind fun b ↦ walk child b path' := by
  induction path generalizing a with
  | nil => rfl
  | cons i path ih =>
      rw [List.cons_append, walk_cons, walk_cons, Option.bind_assoc]
      exact congrArg _ (funext fun b ↦ ih)

theorem walk_concat : walk child a (path ++ [i]) = (walk child a path).bind fun b ↦ child b i := by
  rw [walk_append]
  refine congrArg _ (funext fun b ↦ ?_)
  rw [walk_cons]
  exact Option.bind_fun_some (child b i)

/-- Down to the depth `d`, no node is found by two paths. -/
def IsTree (child : α → ι → Option α) (r : α) (d : Nat) : Prop :=
  ∀ ⦃path path' : List ι⦄ ⦃a : α⦄, path.length ≤ d → path'.length ≤ d →
    walk child r path = some a → walk child r path' = some a → path = path'

/-- Entries below the depth `d` decide every walk down to it. -/
theorem walk_of_agree (h : ∀ ρ a i, ρ.length < d → walk child r ρ = some a → child' a i = child a i)
    {ρ : List ι} (hρ : ρ.length ≤ d) : walk child' r ρ = walk child r ρ := by
  induction ρ using List.reverseRecOn with
  | nil => rfl
  | append_singleton σ i ih =>
      rw [List.length_append, List.length_singleton] at hρ
      rw [walk_concat, walk_concat, ih (by omega)]
      cases hwalk : walk child r σ with
      | none => rfl
      | some a => exact h σ a i (by omega) hwalk

/-- The node is found in the tree. -/
def IsNode (child : α → ι → Option α) (r : α) (d : Nat) (a : α) : Prop :=
  ∃ path, path.length ≤ d ∧ walk child r path = some a

/-- From a node without entries only the node itself is found. -/
theorem walk_blank (hblank : ∀ i, child r i = none) (h : walk child r path = some a) :
    path = [] ∧ a = r := by
  cases path with
  | nil => exact ⟨rfl, (Option.some.inj h).symm⟩
  | cons i path =>
      rw [walk_cons, hblank i] at h
      cases h

/-- A lone node without entries is a tree. -/
theorem IsTree.single (hblank : ∀ i, child r i = none) : IsTree child r d := by
  intro path path' a _ _ h h'
  rw [(walk_blank hblank h).1, (walk_blank hblank h').1]

theorem isNode_single (hblank : ∀ i, child r i = none) : IsNode child r d a ↔ a = r := by
  constructor
  · rintro ⟨path, -, h⟩
    exact (walk_blank hblank h).2
  · rintro rfl
    exact ⟨[], Nat.zero_le d, rfl⟩

/-- The number of nodes that are missing on the path. -/
def missing (child : α → ι → Option α) : α → List ι → Nat
  | _, [] => 0
  | a, i :: path =>
      match child a i with
      | none => path.length + 1
      | some b => missing child b path

theorem missing_of_none (h : child a i = none) :
    missing child a (i :: path) = path.length + 1 := by
  rw [missing, h]

theorem missing_of_some (h : child a i = some b) :
    missing child a (i :: path) = missing child b path := by
  rw [missing, h]

theorem missing_of_blank (hblank : ∀ i, child a i = none) : missing child a path = path.length := by
  cases path with
  | nil => rfl
  | cons i path => exact missing_of_none (hblank i)

/-- Nothing is missing on the way to a node. -/
theorem missing_of_walk (h : walk child a path = some b) : missing child a path = 0 := by
  induction path generalizing a with
  | nil => rfl
  | cons i path ih =>
      obtain ⟨c, hc, hrest⟩ := Option.bind_eq_some_iff.mp h
      rw [missing_of_some hc]
      exact ih hrest

theorem missing_le : missing child a path ≤ path.length := by
  induction path generalizing a with
  | nil => exact Nat.zero_le 0
  | cons i path ih =>
      cases h : child a i with
      | none => exact Nat.le_of_eq (missing_of_none h)
      | some b =>
          rw [missing_of_some h, List.length_cons]
          exact Nat.le_trans ih (Nat.le_succ _)

/-- Entries below the depth `d` decide what is missing. -/
theorem missing_of_agree
    (h : ∀ ρ a i, ρ.length < d → walk child r ρ = some a → child' a i = child a i)
    (hpath : path.length ≤ d) : missing child' r path = missing child r path := by
  induction path generalizing r d with
  | nil => rfl
  | cons i path ih =>
      rw [List.length_cons] at hpath
      have hroot : child' r i = child r i := h [] r i (by rw [List.length_nil]; omega) rfl
      cases hchild : child r i with
      | none => rw [missing_of_none hchild, missing_of_none (hroot.trans hchild)]
      | some b =>
          rw [missing_of_some hchild, missing_of_some (hroot.trans hchild)]
          refine ih (d := d - 1) (fun ρ a j hρ ha ↦ h (i :: ρ) a j ?_ ?_) (by omega)
          · rw [List.length_cons]
            omega
          · rw [walk_cons, hchild, Option.bind_some, ha]

/-! ## A new node -/

/-- The node `b`, without entries, has been attached to the entry `i` of `a`. -/
structure Attached (child child' : α → ι → Option α) (a : α) (i : ι) (b : α) : Prop where
  empty : child a i = none
  entry : child' a i = some b
  blank : ∀ j, child' b j = none
  other : ∀ c j, c ≠ b → (c = a → j ≠ i) → child' c j = child c j

namespace Attached

variable (h : Attached child child' a i b) (htree : IsTree child r d)
  (hpath : walk child r path = some a) (hlen : path.length < d)
  (hb : ∀ path, path.length ≤ d → walk child r path ≠ some b)
include h htree hpath hlen hb

open Classical in
/-- Every walk, after a node has been attached. -/
theorem walk_eq {ρ : List ι} (hρ : ρ.length ≤ d) :
    walk child' r ρ = if ρ = path ++ [i] then some b else walk child r ρ := by
  induction ρ using List.reverseRecOn with
  | nil => rw [if_neg (List.append_ne_nil_of_right_ne_nil _ (List.cons_ne_nil _ _)).symm]; rfl
  | append_singleton σ j ih =>
      rw [List.length_append, List.length_singleton] at hρ
      rw [walk_concat, walk_concat, ih (by omega)]
      by_cases hσ : σ = path ++ [i]
      · -- behind the new node there is nothing, before and after
        have hbefore : walk child r σ = none := by
          rw [hσ, walk_concat, hpath, Option.bind_some, h.empty]
        have hne : σ ++ [j] ≠ path ++ [i] := by
          intro he
          have hlengths := congrArg List.length he
          rw [hσ] at hlengths
          simp only [List.length_append, List.length_singleton] at hlengths
          omega
        rw [if_pos hσ, if_neg hne, hbefore, Option.bind_some, h.blank]
        rfl
      · rw [if_neg hσ]
        cases hwalk : walk child r σ with
        | none =>
            have hne : σ ++ [j] ≠ path ++ [i] := by
              intro he
              rw [(List.append_inj' he rfl).1, hpath] at hwalk
              cases hwalk
            rw [if_neg hne]
            rfl
        | some c =>
            rw [Option.bind_some, Option.bind_some]
            by_cases hc : c = a ∧ j = i
            · obtain ⟨rfl, rfl⟩ := hc
              have hsame : σ = path := htree (by omega) (by omega) hwalk hpath
              rw [if_pos (by rw [hsame]), h.entry]
            · have hne : σ ++ [j] ≠ path ++ [i] := by
                intro he
                obtain ⟨rfl, hj⟩ := List.append_inj' he rfl
                rw [hpath] at hwalk
                exact hc ⟨(Option.some.inj hwalk).symm, List.singleton_inj.mp hj⟩
              rw [if_neg hne]
              refine h.other c j ?_ fun hca hji ↦ hc ⟨hca, hji⟩
              rintro rfl
              exact hb σ (by omega) hwalk

/-- It is a tree again. -/
theorem isTree : IsTree child' r d := by
  intro ρ ρ' c hρ hρ' hwalk hwalk'
  rw [h.walk_eq htree hpath hlen hb hρ] at hwalk
  rw [h.walk_eq htree hpath hlen hb hρ'] at hwalk'
  split_ifs at hwalk hwalk' with hnew hnew'
  · rw [hnew, hnew']
  · rw [← Option.some.inj hwalk] at hwalk'
    exact absurd hwalk' (hb ρ' hρ')
  · rw [← Option.some.inj hwalk'] at hwalk
    exact absurd hwalk (hb ρ hρ)
  · exact htree hρ hρ' hwalk hwalk'

/-- It has one node more. -/
theorem isNode_iff {c : α} : IsNode child' r d c ↔ IsNode child r d c ∨ c = b := by
  constructor
  · rintro ⟨ρ, hρ, hwalk⟩
    rw [h.walk_eq htree hpath hlen hb hρ] at hwalk
    split_ifs at hwalk
    · exact .inr (Option.some.inj hwalk).symm
    · exact .inl ⟨ρ, hρ, hwalk⟩
  · rintro (⟨ρ, hρ, hwalk⟩ | rfl)
    · refine ⟨ρ, hρ, ?_⟩
      have hne : ρ ≠ path ++ [i] := by
        rintro rfl
        rw [walk_concat, hpath, Option.bind_some, h.empty] at hwalk
        cases hwalk
      rw [h.walk_eq htree hpath hlen hb hρ, if_neg hne, hwalk]
    · have hnew : (path ++ [i]).length ≤ d := by
        rw [List.length_append, List.length_singleton]
        omega
      exact ⟨path ++ [i], hnew, by rw [h.walk_eq htree hpath hlen hb hnew, if_pos rfl]⟩

/-- The walk to the new node. -/
theorem walk_new : walk child' r (path ++ [i]) = some b := by
  rw [h.walk_eq htree hpath hlen hb (by rw [List.length_append, List.length_singleton]; omega),
    if_pos rfl]

end Attached

end DemosOS.Lib.TableTree
