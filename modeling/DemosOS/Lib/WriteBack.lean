import Mathlib.Logic.Function.Basic
import Mathlib.Data.Option.Basic

/-!
# A write-back cache of one block

A store of blocks, and one block of it in memory.  Changes are made in memory, and the block goes
back to the store when another one is wanted.  What counts is the `view`: the store with the block
in memory over it.

A write that fails may leave anything in the store at the place of the block.  Since the block is
still in memory, and still marked, nothing is lost.
-/

namespace DemosOS.Lib

universe u v

/-- A store, and the block that is in memory, if there is one. -/
@[ext]
structure WriteBack (κ : Type u) (β : Type v) where
  store : κ → β
  key : Option κ
  block : β
  dirty : Bool

namespace WriteBack

variable {κ : Type u} {β : Type v} {c : WriteBack κ β} {k k' : κ}

/-- The blocks, the one in memory in place of the stored one. -/
def view [DecidableEq κ] (c : WriteBack κ β) : κ → β :=
  match c.key with
  | none => c.store
  | some k => Function.update c.store k c.block

/-- A block that is not marked is the stored one, and nothing is marked that is not loaded. -/
structure Coherent (c : WriteBack κ β) : Prop where
  clean : ∀ {k}, c.key = some k → c.dirty = false → c.block = c.store k
  loaded : c.dirty = true → c.key ≠ none

/-! ## Operations -/

/-- A block is read into memory. -/
def load (c : WriteBack κ β) (k : κ) : WriteBack κ β :=
  { c with key := some k, block := c.store k, dirty := false }

/-- The block in memory is changed. -/
def edit (c : WriteBack κ β) (f : β → β) : WriteBack κ β :=
  { c with block := f c.block, dirty := true }

/-- The block in memory goes back to the store. -/
def flush [DecidableEq κ] (c : WriteBack κ β) : WriteBack κ β := { c with store := c.view, dirty := false }

/-- An attempt to write the block has failed. -/
def tear [DecidableEq κ] (c : WriteBack κ β) (torn : β) : WriteBack κ β :=
  match c.key with
  | none => c
  | some k => { c with store := Function.update c.store k torn }

/-- The store is written past the cache. -/
def poke [DecidableEq κ] (c : WriteBack κ β) (k : κ) (b : β) : WriteBack κ β :=
  { c with store := Function.update c.store k b }

/-! ## What they do to the view -/

section

variable [DecidableEq κ]

theorem view_of_key (h : c.key = some k) : c.view = Function.update c.store k c.block := by
  rw [view, h]

theorem view_self (h : c.key = some k) : c.view k = c.block := by
  rw [view_of_key h, Function.update_self]

theorem view_of_none (h : c.key = none) : c.view = c.store := by
  rw [view, h]

theorem view_of_ne (h : c.key ≠ some k) : c.view k = c.store k := by
  cases hkey : c.key with
  | none => rw [view_of_none hkey]
  | some k' =>
      have hne : k ≠ k' := by
        rintro rfl
        exact h hkey
      rw [view_of_key hkey, Function.update_of_ne hne]

theorem flush_of_key (h : c.key = some k) :
    c.flush = { c with store := Function.update c.store k c.block, dirty := false } := by
  rw [flush, view_of_key h]

theorem tear_of_key (h : c.key = some k) (torn : β) :
    c.tear torn = { c with store := Function.update c.store k torn } := by
  unfold tear
  split
  · case _ hnone => exact nomatch hnone.symm.trans h
  · case _ k' hk =>
      obtain rfl := Option.some.inj (hk.symm.trans h)
      rfl

/-- If nothing is marked, the store itself shows what the view shows. -/
theorem view_of_clean (hc : c.Coherent) (h : c.dirty = false) : c.view = c.store := by
  cases hkey : c.key with
  | none => exact view_of_none hkey
  | some k => rw [view_of_key hkey, hc.clean hkey h, Function.update_eq_self]

theorem view_load (hc : c.Coherent) (h : c.dirty = false) (k : κ) : (c.load k).view = c.view := by
  rw [view_of_clean hc h]
  exact Function.update_eq_self k c.store

theorem view_edit (h : c.key = some k) (f : β → β) :
    (c.edit f).view = Function.update c.view k (f (c.view k)) := by
  rw [view_self h, view_of_key h, Function.update_idem]
  exact view_of_key h

theorem view_flush (c : WriteBack κ β) : c.flush.view = c.view := by
  cases hkey : c.key with
  | none => exact view_of_none (c := c.flush) hkey
  | some k =>
      rw [view_of_key (c := c.flush) hkey]
      change Function.update c.view k c.block = _
      rw [view_of_key hkey, Function.update_idem]

theorem view_tear (c : WriteBack κ β) (torn : β) : (c.tear torn).view = c.view := by
  cases hkey : c.key with
  | none => rw [tear, hkey]
  | some k =>
      rw [tear, hkey, view_of_key hkey]
      exact (view_of_key rfl).trans (Function.update_idem ..)

theorem view_poke (h : c.key ≠ some k) (b : β) :
    (c.poke k b).view = Function.update c.view k b := by
  cases hkey : c.key with
  | none => rw [view_of_none (c := c.poke k b) hkey, view_of_none hkey, poke]
  | some k' =>
      have hne : k' ≠ k := by
        rintro rfl
        exact h hkey
      rw [view_of_key (c := c.poke k b) hkey, view_of_key hkey]
      exact Function.update_comm hne.symm ..

end

/-! ## Coherence -/

theorem coherent_load (c : WriteBack κ β) (k : κ) : (c.load k).Coherent where
  clean hkey _ := by
    obtain rfl := Option.some.inj hkey
    rfl
  loaded hdirty := absurd hdirty Bool.false_ne_true

theorem coherent_edit (h : c.key = some k) (f : β → β) : (c.edit f).Coherent where
  clean _ hclean := absurd hclean.symm Bool.false_ne_true
  loaded _ := by
    rw [show (c.edit f).key = some k from h]
    exact Option.some_ne_none k

section

variable [DecidableEq κ]

theorem coherent_flush (c : WriteBack κ β) : c.flush.Coherent where
  clean hkey _ := (view_self (c := c) hkey).symm
  loaded hdirty := absurd hdirty Bool.false_ne_true

/-- A block that is still marked may have lost its place in the store. -/
theorem coherent_tear (hc : c.Coherent) (h : c.dirty = true) (torn : β) :
    (c.tear torn).Coherent := by
  unfold tear
  split
  · exact hc
  · exact ⟨fun _ hclean ↦ absurd (hclean.symm.trans h) Bool.false_ne_true, hc.loaded⟩

theorem coherent_poke (hc : c.Coherent) (h : c.key ≠ some k) (b : β) : (c.poke k b).Coherent where
  clean {k'} hkey hclean := by
    have hne : k' ≠ k := by
      rintro rfl
      exact h hkey
    exact (hc.clean hkey hclean).trans (Function.update_of_ne hne _ _).symm
  loaded := hc.loaded

end

end WriteBack

end DemosOS.Lib
