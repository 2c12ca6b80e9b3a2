import DemosOS.Fat.Names

/-!
# What a directory contains

The records of a directory are deleted ones and entries, an entry being its record with the records
of its name in front of it, up to a record that marks the end or to the end of the chain.

An entry is found under the name that its records spell; one without them is found under all names
that have its short form.
-/

namespace DemosOS.Fat32

open Lib

/-- A deleted record, or an entry. -/
inductive Item
  | free (r : Record)
  | plain (r : Record)
  | long (name : List UInt8) (parts : List Record) (r : Record)

namespace Item

def records : Item → List Record
  | free r => [r]
  | plain r => [r]
  | long _ parts r => parts ++ [r]

/-- The records are what the constructor says. -/
def Ok : Item → Prop
  | free r => r.byte 0 = SFN_FREE
  | plain r => ¬ r.IsFree ∧ ¬ r.IsLfn
  | long name parts r => ¬ r.IsFree ∧ ¬ r.IsLfn ∧ Spells name (getCrc r.name) parts

/-- The entry is found under this name. -/
def Matches (name : List UInt8) : Item → Prop
  | free _ => False
  | plain r => putSfnName name = r.name
  | long name' _ _ => name' = name

instance (name : List UInt8) (it : Item) : Decidable (it.Matches name) :=
  match it with
  | free _ => inferInstanceAs (Decidable False)
  | plain _ => inferInstanceAs (Decidable (_ = _))
  | long _ _ _ => inferInstanceAs (Decidable (_ = _))

/-- The record of the entry, which is the last one. -/
def entry : Item → Record
  | free r => r
  | plain r => r
  | long _ _ r => r

end Item

/-- The records of all items. -/
def recordsOf (items : List Item) : List Record := items.flatMap Item.records

/-- The records are those of the items, and nothing behind them is in use. -/
structure Holds (records : List Record) (items : List Item) : Prop where
  ok : ∀ it ∈ items, it.Ok
  split : ∃ tail, records = recordsOf items ++ tail ∧ ∀ r ∈ tail.head?, r.IsLast

/-- What is found under a name. -/
def lookup (items : List Item) (name : List UInt8) : Option Item :=
  items.find? fun it ↦ it.Matches name

section

variable {items items' before after : List Item} {it : Item} {name name' : List UInt8}
  {records : List Record} {r : Record} {k n : Nat}

/-! ## Records of items -/

theorem recordsOf_append (items items' : List Item) :
    recordsOf (items ++ items') = recordsOf items ++ recordsOf items' := List.flatMap_append

theorem recordsOf_cons (it : Item) (items : List Item) :
    recordsOf (it :: items) = it.records ++ recordsOf items := List.flatMap_cons

theorem recordsOf_singleton (it : Item) : recordsOf [it] = it.records := List.append_nil _

theorem recordsOf_free (rs : List Record) : recordsOf (rs.map Item.free) = rs := by
  induction rs with
  | nil => rfl
  | cons r rs ih => rw [List.map_cons, recordsOf_cons, ih, Item.records, List.singleton_append]

theorem Item.records_eq (it : Item) : ∃ parts, it.records = parts ++ [it.entry] := by
  cases it with
  | free r | plain r => exact ⟨[], rfl⟩
  | long name parts r => exact ⟨parts, rfl⟩

theorem Item.length_records_pos (it : Item) : 0 < it.records.length := by
  obtain ⟨parts, hparts⟩ := it.records_eq
  rw [hparts, List.length_append]
  exact Nat.succ_pos _

/-- Only the record of a deleted item is free. -/
theorem Item.Ok.free_of_isFree (h : it.Ok) (hr : r ∈ it.records) (hfree : r.IsFree) :
    it = .free r := by
  cases it with
  | free r' =>
      rw [List.mem_singleton.mp hr]
  | plain r' =>
      rw [List.mem_singleton.mp hr] at hfree
      exact absurd hfree h.1
  | long name parts r' =>
      obtain ⟨hused, -, hspells⟩ := h
      rcases List.mem_append.mp hr with hmem | hmem
      · exact absurd hfree (hspells.used r hmem)
      · rw [List.mem_singleton.mp hmem] at hfree
        exact absurd hfree hused

theorem SFN_FREE_ne_last : SFN_FREE ≠ SFN_LAST := by decide

/-- No record of an item marks the end. -/
theorem Item.Ok.not_last (h : it.Ok) (hr : r ∈ it.records) : ¬ r.IsLast := by
  intro hlast
  obtain rfl := h.free_of_isFree hr hlast.isFree
  exact SFN_FREE_ne_last (Eq.trans (Eq.symm h) hlast)

/-! ## Free records -/

/-- A free record in front of the end is a deleted item. -/
theorem exists_free (hok : ∀ it ∈ items, it.Ok) (hk : (recordsOf items)[k]? = some r)
    (hfree : r.IsFree) : ∃ before after, items = before ++ .free r :: after ∧
      (recordsOf before).length = k := by
  induction items generalizing k with
  | nil => exact nomatch hk
  | cons it items ih =>
      rw [recordsOf_cons] at hk
      by_cases hlt : k < it.records.length
      · rw [List.getElem?_append_left hlt] at hk
        obtain rfl := (hok it List.mem_cons_self).free_of_isFree (List.mem_of_getElem? hk) hfree
        obtain rfl : k = 0 := Nat.lt_one_iff.mp hlt
        exact ⟨[], items, rfl, rfl⟩
      · rw [List.getElem?_append_right (Nat.le_of_not_lt hlt)] at hk
        obtain ⟨before, after, rfl, hlen⟩ :=
          ih (fun it hit ↦ hok it (List.mem_cons_of_mem _ hit)) hk
        refine ⟨it :: before, after, rfl, ?_⟩
        rw [recordsOf_cons, List.length_append]
        omega

/-- Free records at the beginning are deleted items. -/
theorem exists_run (hok : ∀ it ∈ items, it.Ok)
    (hfree : ∀ j < n, ∃ r, (recordsOf items)[j]? = some r ∧ r.IsFree) :
    ∃ (rs : List Record) (after : List Item), items = rs.map Item.free ++ after ∧ rs.length = n := by
  induction n generalizing items with
  | zero => exact ⟨[], items, rfl, rfl⟩
  | succ n ih =>
      obtain ⟨r, hr, hr_free⟩ := hfree 0 n.succ_pos
      cases items with
      | nil => exact nomatch hr
      | cons it items =>
          rw [recordsOf_cons, List.getElem?_append_left it.length_records_pos] at hr
          obtain rfl := (hok it List.mem_cons_self).free_of_isFree (List.mem_of_getElem? hr) hr_free
          obtain ⟨rs, after, rfl, hlen⟩ :=
            ih (fun it hit ↦ hok it (List.mem_cons_of_mem _ hit)) fun j hj ↦ by
              obtain ⟨r', hr', hr_free'⟩ := hfree (j + 1) (Nat.succ_lt_succ hj)
              exact ⟨r', hr', hr_free'⟩
          exact ⟨r :: rs, after, rfl, congrArg Nat.succ hlen⟩

/-- Free records in front of the end are deleted items. -/
theorem exists_deleted (hok : ∀ it ∈ items, it.Ok)
    (hfree : ∀ j < n, ∃ r, (recordsOf items)[k + j]? = some r ∧ r.IsFree)
    (hk : k + n ≤ (recordsOf items).length) (hend : n = 0 → k = (recordsOf items).length) :
    ∃ (before : List Item) (rs : List Record) (after : List Item),
      items = before ++ rs.map Item.free ++ after ∧ (recordsOf before).length = k ∧ rs.length = n := by
  cases n with
  | zero => exact ⟨items, [], [], by simp, (hend rfl).symm, rfl⟩
  | succ n =>
      obtain ⟨r, hr, hr_free⟩ := hfree 0 n.succ_pos
      obtain ⟨before, after, rfl, hlen⟩ := exists_free hok hr hr_free
      have hrun : ∀ j < n + 1, ∃ r', (recordsOf (.free r :: after))[j]? = some r' ∧ r'.IsFree := by
        intro j hj
        obtain ⟨r', hr', hr_free'⟩ := hfree j hj
        rw [recordsOf_append, List.getElem?_append_right (by omega),
          show k + j - (recordsOf before).length = j by omega] at hr'
        exact ⟨r', hr', hr_free'⟩
      obtain ⟨rs, after', hsplit, hrs⟩ :=
        exists_run (fun it hit ↦ hok it (List.mem_append_right _ hit)) hrun
      exact ⟨before, rs, after', by rw [hsplit, List.append_assoc], hlen, hrs⟩

/-! ## The records of a directory -/

/-- The records of an item are at its place. -/
theorem Holds.getElem? (h : Holds records (before ++ it :: after)) (hk : k < it.records.length) :
    records[(recordsOf before).length + k]? = it.records[k]? := by
  obtain ⟨tail, hrecords, -⟩ := h.split
  rw [hrecords, recordsOf_append, recordsOf_cons, List.append_assoc, List.append_assoc,
    List.getElem?_append_right (Nat.le_add_right _ _), Nat.add_sub_cancel_left,
    List.getElem?_append_left hk]

/-- Behind the items is the end. -/
theorem Holds.isLast (h : Holds records items) (hr : records[(recordsOf items).length]? = some r) :
    r.IsLast := by
  obtain ⟨tail, hrecords, hlast⟩ := h.split
  rw [hrecords, List.getElem?_append_right (Nat.le_refl _), Nat.sub_self,
    ← List.head?_eq_getElem?] at hr
  exact hlast r hr

theorem Holds.length_le (h : Holds records items) : (recordsOf items).length ≤ records.length := by
  obtain ⟨tail, hrecords, -⟩ := h.split
  rw [hrecords, List.length_append]
  exact Nat.le_add_right _ _

/-- The tail of the records. -/
theorem Holds.intro {tail : List Record} (hok : ∀ it ∈ items, it.Ok)
    (hlast : ∀ r ∈ tail.head?, r.IsLast) : Holds (recordsOf items ++ tail) items :=
  ⟨hok, tail, rfl, hlast⟩

/-- Records that mark the end may follow. -/
theorem Holds.append_blank (h : Holds records items) {r : Record} (hr : r.IsLast) (m : Nat) :
    Holds (records ++ List.replicate m r) items := by
  obtain ⟨hok, tail, rfl, hlast⟩ := h
  refine ⟨hok, tail ++ List.replicate m r, List.append_assoc .., fun r' hr' ↦ ?_⟩
  cases tail with
  | nil =>
      cases m with
      | zero => exact nomatch hr'
      | succ m =>
          obtain rfl := Option.some.inj hr'
          exact hr
  | cons r'' tail => exact hlast r' hr'

/-- Other items in the place of some. -/
theorem Holds.replace {tail : List Record} {middle middle' : List Item}
    (h : Holds records (before ++ middle ++ after)) (hok : ∀ it ∈ middle', it.Ok)
    (hlast : ∀ r ∈ tail.head?, r.IsLast) :
    Holds (recordsOf before ++ (recordsOf middle' ++ (recordsOf after ++ tail)))
      (before ++ middle' ++ after) := by
  refine ⟨fun it hit ↦ ?_, tail, ?_, hlast⟩
  · rcases List.mem_append.mp hit with hit | hit
    · rcases List.mem_append.mp hit with hit | hit
      · exact h.ok it (List.mem_append_left _ (List.mem_append_left _ hit))
      · exact hok it hit
    · exact h.ok it (List.mem_append_right _ hit)
  · rw [recordsOf_append, recordsOf_append, List.append_assoc, List.append_assoc]

/-! ## Looking for a name -/

theorem lookup_free (rs : List Record) (name : List UInt8) :
    lookup (rs.map Item.free) name = none := by
  refine List.find?_eq_none.mpr fun it hit ↦ ?_
  obtain ⟨r, -, rfl⟩ := List.mem_map.mp hit
  exact of_decide_eq_false rfl

theorem lookup_append (items items' : List Item) (name : List UInt8) :
    lookup (items ++ items') name = (lookup items name).or (lookup items' name) :=
  List.find?_append

/-- An item in place of deleted ones. -/
theorem lookup_insert (rs : List Record) :
    lookup (before ++ it :: after) name' =
      if it.Matches name' then (lookup before name').or (some it)
      else lookup (before ++ rs.map Item.free ++ after) name' := by
  rw [lookup_append, lookup_append, lookup_append, lookup_free, Option.or_none]
  by_cases hit : it.Matches name'
  · rw [if_pos hit]
    congr 1
    exact List.find?_cons_of_pos (decide_eq_true hit)
  · rw [if_neg hit]
    congr 1
    exact List.find?_cons_of_neg (by simpa using hit)

end

end DemosOS.Fat32
