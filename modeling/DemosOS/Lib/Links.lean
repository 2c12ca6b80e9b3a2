import Mathlib.Data.List.Nodup
import Mathlib.Data.List.Infix
import Mathlib.Logic.Function.Basic
import Mathlib.Data.List.Pairwise
import Mathlib.Data.List.Chain

/-!
# Chains in a table of links

A table says of every cell whether it is free, whether it is the last one of its chain, or which
cell comes next.  A chain is the list of the cells that are met from its first one on.  Because
every cell has one link at most, a chain meets no cell twice, and two chains that share a cell share
everything behind it.

The chains that are in use are kept apart: allocation puts a free cell at the end of one of them or
starts a new one, and release frees the cells of a chain.
-/

namespace DemosOS.Lib

universe u

/-- What a table says of a cell. -/
inductive Link (α : Type u)
  | free
  | last
  | next (a : α)
  | unusable
deriving DecidableEq, Repr

variable {α : Type u} {t t' : α → Link α} {a b c : α} {cs ds : List α}

/-- The cells from the first one on, up to the last one of the chain. -/
def IsChain (t : α → Link α) : List α → Prop
  | [] => False
  | [a] => t a = .last
  | a :: b :: cs => t a = .next b ∧ IsChain t (b :: cs)

/-! ## One chain -/

namespace IsChain

theorem ne_nil (h : IsChain t cs) : cs ≠ [] := by
  rintro rfl
  exact h

theorem tail (h : IsChain t (a :: b :: cs)) : IsChain t (b :: cs) := h.2

/-- Every cell of a chain is in use. -/
theorem link_mem (h : IsChain t cs) (ha : a ∈ cs) : t a = .last ∨ ∃ b ∈ cs, t a = .next b := by
  induction cs with
  | nil => exact h.elim
  | cons c cs ih =>
      cases cs with
      | nil =>
          obtain rfl := List.mem_singleton.mp ha
          exact Or.inl h
      | cons d cs =>
          rcases List.mem_cons.mp ha with rfl | ha
          · exact Or.inr ⟨d, List.mem_cons_of_mem _ List.mem_cons_self, h.1⟩
          · rcases ih h.2 ha with hlast | ⟨b, hb, hnext⟩
            · exact Or.inl hlast
            · exact Or.inr ⟨b, List.mem_cons_of_mem _ hb, hnext⟩

theorem not_free (h : IsChain t cs) (ha : a ∈ cs) : t a ≠ .free := by
  rcases h.link_mem ha with hlast | ⟨b, -, hnext⟩
  · rw [hlast]
    exact nofun
  · rw [hnext]
    exact nofun

/-- There is one chain from a cell. -/
theorem unique (h : IsChain t (a :: cs)) (h' : IsChain t (a :: ds)) : cs = ds := by
  induction cs generalizing a ds with
  | nil =>
      cases ds with
      | nil => rfl
      | cons d ds => exact nomatch h.symm.trans h'.1
  | cons c cs ih =>
      cases ds with
      | nil => exact nomatch h.1.symm.trans h'
      | cons d ds =>
          obtain rfl : c = d := Link.next.inj (h.1.symm.trans h'.1)
          rw [ih h.2 h'.2]

/-- The part of a chain from one of its cells on. -/
theorem suffix (h : IsChain t (cs ++ a :: ds)) : IsChain t (a :: ds) := by
  induction cs with
  | nil => exact h
  | cons c cs ih =>
      cases cs with
      | nil => exact h.2
      | cons d cs => exact ih h.2

/-- No cell is met twice. -/
theorem nodup (h : IsChain t cs) : cs.Nodup := by
  induction cs with
  | nil => exact List.nodup_nil
  | cons c cs ih =>
      cases cs with
      | nil => exact List.nodup_singleton c
      | cons d cs =>
          refine List.nodup_cons.mpr ⟨fun hmem ↦ ?_, ih h.2⟩
          -- from the second meeting on, the chain would be the whole chain again
          obtain ⟨l, r, hsplit⟩ := List.append_of_mem hmem
          have hagain : IsChain t (c :: r) := by
            rw [hsplit, ← List.cons_append] at h
            exact suffix h
          have hlength := congrArg List.length (unique h hagain)
          rw [hsplit, List.length_append, List.length_cons] at hlength
          omega

/-- Only the links of its own cells matter. -/
theorem congr (h : IsChain t cs) (hagree : ∀ a ∈ cs, t' a = t a) : IsChain t' cs := by
  induction cs with
  | nil => exact h
  | cons c cs ih =>
      have hc := hagree c List.mem_cons_self
      cases cs with
      | nil => exact hc.trans h
      | cons d cs => exact ⟨hc.trans h.1, ih h.2 fun a ha ↦ hagree a (List.mem_cons_of_mem _ ha)⟩

/-- The link of the last cell. -/
theorem getLast (h : IsChain t cs) : t (cs.getLast h.ne_nil) = .last := by
  induction cs with
  | nil => exact h.elim
  | cons c cs ih =>
      cases cs with
      | nil => exact h
      | cons d cs => exact ih h.2

/-- The link of any other cell leads to the cell behind it. -/
theorem getElem_next (h : IsChain t cs) {i : Nat} (hi : i + 1 < cs.length) :
    t cs[i] = .next cs[i + 1] := by
  induction cs generalizing i with
  | nil => exact h.elim
  | cons c cs ih =>
      cases cs with
      | nil => exact absurd hi (by rw [List.length_singleton]; omega)
      | cons d cs =>
          cases i with
          | zero => exact h.1
          | succ i => exact ih h.2 (by rw [List.length_cons] at hi; omega)

theorem getElem_last (h : IsChain t cs) {i : Nat} (hlt : i < cs.length) (hi : i + 1 = cs.length) :
    t cs[i] = .last := by
  have hlast := h.getLast
  rw [List.getLast_eq_getElem] at hlast
  have hindex : cs.length - 1 = i := by omega
  simpa only [hindex] using hlast

/-- A cell that ends a chain and comes next in none is a chain. -/
theorem singleton (h : t a = .last) : IsChain t [a] := h

/-- A chain whose last cell leads to a cell that ends it. -/
theorem concat [DecidableEq α] (h : IsChain t cs) (hb : b ∉ cs) :
    IsChain (Function.update (Function.update t b .last) (cs.getLast h.ne_nil) (.next b))
      (cs ++ [b]) := by
  induction cs with
  | nil => exact h.elim
  | cons c cs ih =>
      cases cs with
      | nil =>
          have hne : b ≠ c := fun heq ↦ hb (heq ▸ List.mem_singleton_self _)
          refine ⟨Function.update_self .., ?_⟩
          change Function.update _ c _ b = _
          rw [Function.update_of_ne hne, Function.update_self]
      | cons d cs =>
          have hnodup := List.nodup_cons.mp h.nodup
          have hne : c ≠ b := fun heq ↦ hb (heq ▸ List.mem_cons_self)
          have hlast : c ≠ (d :: cs).getLast h.2.ne_nil := fun heq ↦
            hnodup.1 (heq ▸ List.getLast_mem _)
          refine ⟨?_, ih h.2 fun hmem ↦ hb (List.mem_cons_of_mem _ hmem)⟩
          rw [List.getLast_cons (List.cons_ne_nil d cs), Function.update_of_ne hlast,
            Function.update_of_ne hne]
          exact h.1

end IsChain

/-! ## Paths -/

/-- Cells of which each leads to the one behind it; the last one may lead anywhere. -/
def IsPath (t : α → Link α) (cs : List α) : Prop := cs.IsChain fun a b ↦ t a = .next b

/-- A path to a cell that ends a chain. -/
theorem IsPath.isChain (h : IsPath t (cs ++ [a])) (ha : t a = .last) : IsChain t (cs ++ [a]) := by
  induction cs with
  | nil => exact ha
  | cons c cs ih =>
      cases cs with
      | nil =>
          obtain ⟨hnext, -⟩ := List.isChain_cons_cons.mp h
          exact ⟨hnext, ha⟩
      | cons d cs =>
          obtain ⟨hnext, hrest⟩ := List.isChain_cons_cons.mp h
          exact ⟨hnext, ih hrest⟩

/-- One step more. -/
theorem IsPath.concat (h : IsPath t (cs ++ [a])) (ha : t a = .next b) :
    IsPath t (cs ++ [a] ++ [b]) := by
  induction cs with
  | nil => exact List.isChain_cons_cons.mpr ⟨ha, .singleton b⟩
  | cons c cs ih =>
      cases cs with
      | nil =>
          obtain ⟨hnext, hrest⟩ := List.isChain_cons_cons.mp h
          exact List.isChain_cons_cons.mpr ⟨hnext, ih hrest⟩
      | cons d cs =>
          obtain ⟨hnext, hrest⟩ := List.isChain_cons_cons.mp h
          exact List.isChain_cons_cons.mpr ⟨hnext, ih hrest⟩

/-- Where there is a chain, a path from its first cell stays in it. -/
theorem IsChain.prefix_of_path (h : IsChain t (a :: cs)) (hpath : IsPath t (a :: ds)) :
    a :: ds <+: a :: cs := by
  induction ds generalizing a cs with
  | nil => exact List.prefix_cons_inj a |>.mpr (List.nil_prefix)
  | cons d ds ih =>
      obtain ⟨hnext, hrest⟩ := List.isChain_cons_cons.mp hpath
      cases cs with
      | nil => exact nomatch h.symm.trans hnext
      | cons c cs =>
          obtain rfl : c = d := Link.next.inj (h.1.symm.trans hnext)
          exact List.prefix_cons_inj a |>.mpr (ih h.2 hrest)

/-! ## The chains that are in use -/

/-- The chains of a table that are in use; no cell belongs to two of them. -/
structure Chains (t : α → Link α) (chains : List (List α)) : Prop where
  chain : ∀ cs ∈ chains, IsChain t cs
  disjoint : chains.Pairwise List.Disjoint

namespace Chains

variable {chains : List (List α)}

/-- A free cell belongs to no chain. -/
theorem notMem_of_free (h : Chains t chains) (ha : t a = .free) (hcs : cs ∈ chains) : a ∉ cs :=
  fun hmem ↦ (h.chain cs hcs).not_free hmem ha

theorem congr (h : Chains t chains) (hagree : ∀ cs ∈ chains, ∀ a ∈ cs, t' a = t a) :
    Chains t' chains :=
  ⟨fun cs hcs ↦ (h.chain cs hcs).congr (hagree cs hcs), h.disjoint⟩

theorem nil (t : α → Link α) : Chains t [] := ⟨fun _ h ↦ absurd h List.not_mem_nil, .nil⟩

/-- The other chains have nothing in common with the first. -/
theorem disjoint_head (h : Chains t (cs :: chains)) (hds : ds ∈ chains) : List.Disjoint cs ds :=
  (List.pairwise_cons.mp h.disjoint).1 ds hds

theorem tail (h : Chains t (cs :: chains)) : Chains t chains :=
  ⟨fun ds hds ↦ h.chain ds (List.mem_cons_of_mem _ hds), (List.pairwise_cons.mp h.disjoint).2⟩

/-- The order in which chains are listed is of no importance. -/
theorem perm {chains' : List (List α)} (h : Chains t chains) (hperm : chains.Perm chains') :
    Chains t chains' :=
  ⟨fun cs hcs ↦ h.chain cs (hperm.mem_iff.mpr hcs),
    h.disjoint.perm hperm fun hdisjoint ↦ List.disjoint_symm hdisjoint⟩

variable [DecidableEq α]

/-- A new chain of one free cell. -/
theorem create (h : Chains t chains) (ha : t a = .free) :
    Chains (Function.update t a .last) ([a] :: chains) where
  chain cs hcs := by
    rcases List.mem_cons.mp hcs with rfl | hcs
    · exact Function.update_self ..
    · refine (h.chain cs hcs).congr fun b hb ↦ Function.update_of_ne (fun hba ↦ ?_) _ _
      exact h.notMem_of_free ha hcs (hba ▸ hb)
  disjoint := List.pairwise_cons.mpr
    ⟨fun cs hcs ↦ List.singleton_disjoint.mpr (h.notMem_of_free ha hcs), h.disjoint⟩

/-- A free cell goes to the end of the first chain. -/
theorem stretch (h : Chains t (cs :: chains)) (hb : t b = .free) :
    Chains (Function.update (Function.update t b .last)
      (cs.getLast (h.chain cs List.mem_cons_self).ne_nil) (.next b)) ((cs ++ [b]) :: chains) where
  chain ds hds := by
    have hcs := h.chain cs List.mem_cons_self
    rcases List.mem_cons.mp hds with rfl | hds
    · exact hcs.concat (h.notMem_of_free hb List.mem_cons_self)
    · refine (h.tail.chain ds hds).congr fun a ha ↦ ?_
      have hlast : a ≠ cs.getLast hcs.ne_nil := by
        rintro rfl
        exact h.disjoint_head hds (List.getLast_mem _) ha
      have hne : a ≠ b := fun hab ↦ h.tail.notMem_of_free hb hds (hab ▸ ha)
      rw [Function.update_of_ne hlast, Function.update_of_ne hne]
  disjoint := by
    refine List.pairwise_cons.mpr ⟨fun ds hds ↦ ?_, h.tail.disjoint⟩
    rw [List.disjoint_append_left, List.singleton_disjoint]
    exact ⟨h.disjoint_head hds, h.tail.notMem_of_free hb hds⟩

/-- The cells of the first chain are freed. -/
theorem remove (h : Chains t (cs :: chains)) :
    Chains (fun a ↦ if a ∈ cs then .free else t a) chains := by
  refine h.tail.congr fun ds hds a ha ↦ if_neg fun hmem ↦ ?_
  exact h.disjoint_head hds hmem ha

end Chains

end DemosOS.Lib
