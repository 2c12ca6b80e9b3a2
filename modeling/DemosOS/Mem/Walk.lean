import DemosOS.Mem.Tables

/-!
# Walking the page tables

What the memory management unit finds in the tables of an address space: the pages of the
process at its first virtual addresses, and nothing else; and which pages it passes through.
-/

namespace DemosOS

open Lib

/-- One step of a walk: the address in an entry, if the entry is valid. -/
def Kernel.follow (k : Kernel Pointers) (table index : Nat) : Option Nat :=
  if k.memory.tables table index &&& 1 = 1 then some (k.memory.tables table index &&& PAGE_MASK)
  else none

/-- The tables of the address space with the given `PGD`, by their level: the entries of the
first three levels point to tables of the next one. -/
inductive Kernel.TablePage (k : Kernel Pointers) (pgd : Nat) : Nat → Nat → Prop
  | pgd : pgd ≠ 0 → TablePage k pgd 0 pgd
  | next {l table index next : Nat} : TablePage k pgd l table → l < 3 → index < PTRS_PER_TABLE →
      k.follow table index = some next → TablePage k pgd (l + 1) next

section

variable {k : Kernel Pointers} {mm : MmStruct} {us ts : List Nat}

theorem walk_eq (pgd virtualAddress : Nat) :
    k.walk pgd virtualAddress =
      if pgd = 0 then none
      else (k.follow pgd (tableIndex PGD_SHIFT virtualAddress)).bind fun pud ↦
        (k.follow pud (tableIndex PUD_SHIFT virtualAddress)).bind fun pmd ↦
        (k.follow pmd (tableIndex PMD_SHIFT virtualAddress)).bind fun pte ↦
        (k.follow pte (tableIndex PAGE_SHIFT virtualAddress)).bind fun page ↦
          some (page + virtualAddress % PAGE_SIZE) := rfl

theorem follow_of_zero {table index : Nat} (h : k.memory.tables table index = 0) :
    k.follow table index = none := by
  rw [Kernel.follow, h, if_neg (by decide)]

/-- A valid entry is followed to its page. -/
theorem follow_page {table index flags a : Nat} (ha : k.memory.InUse a)
    (h : k.memory.tables table index = a ||| flags) (hflags : flags < PAGE_SIZE)
    (hodd : flags % 2 = 1) : k.follow table index = some a := by
  obtain ⟨i, hi, rfl, -⟩ := ha
  rw [Kernel.follow, h, if_pos (entry_valid i hflags hodd), entry_page hi hflags]

/-- The index of a page in the tables of the four levels. -/
theorem tableIndex_iff (virtualAddress j : Nat) (hj : j < MAX_PROCESS_PAGES) :
    tableIndex PGD_SHIFT virtualAddress = 0 ∧ tableIndex PUD_SHIFT virtualAddress = 0 ∧
      tableIndex PMD_SHIFT virtualAddress = 0 ∧ tableIndex PAGE_SHIFT virtualAddress = j ↔
      j * PAGE_SIZE + virtualAddress % PAGE_SIZE = virtualAddress % 2 ^ 48 := by
  simp only [tableIndex_eq]
  unfold PGD_SHIFT PUD_SHIFT PMD_SHIFT PAGE_SHIFT PAGE_SIZE
  unfold MAX_PROCESS_PAGES at hj
  omega

namespace AddressSpace

variable (h : AddressSpace k.memory mm us ts) (hused : ∀ a ∈ us ++ ts, k.memory.InUse a)
include h hused

/-- A table of the first three levels has one entry, which points to the next table. -/
theorem follow_table {l : Nat} (hl : l + 1 < ts.length) (index : Nat) :
    k.follow ts[l] index = if index = 0 then some ts[l + 1] else none := by
  have hentry : k.memory.tables ts[l] index =
      if index = 0 then ts[l + 1] ||| MM_TYPE_PAGE_TABLE else 0 := by
    rw [h.link l hl, Function.update_apply]
  split_ifs at hentry ⊢
  · exact follow_page (hused _ (by simp)) hentry (by decide) (by decide)
  · exact follow_of_zero hentry

/-- The last table has an entry for every page of a full address space. -/
theorem follow_leaf (hlast : 3 < ts.length) (hus : us.length = MAX_PROCESS_PAGES) (index : Nat) :
    k.follow ts[3] index = us[index]? := by
  by_cases hindex : index < us.length
  · rw [List.getElem?_eq_getElem hindex]
    exact follow_page (hused _ (by simp)) (h.leaf (by omega) index hindex) (by decide) (by decide)
  · rw [List.getElem?_eq_none (by omega)]
    exact follow_of_zero (h.tail (by omega) index (by omega))

theorem pgd_ne_zero (hts : ts.length = 4) : mm.pgd = ts[0] ∧ ts[0] ≠ 0 := by
  have hpgd : mm.pgd = ts[0] := by
    rw [h.pgd, List.headD_eq_head?_getD, List.head?_eq_getElem?, List.getElem?_eq_getElem]
    rfl
  exact ⟨hpgd, (hused _ (by simp)).ne_zero⟩

/-- The addresses of a full address space. -/
theorem walk_eq_some (hts : ts.length = 4) (hus : us.length = MAX_PROCESS_PAGES)
    {virtualAddress a : Nat} : k.walk mm.pgd virtualAddress = some a ↔
      ∃ j, ∃ hj : j < us.length,
        j * PAGE_SIZE + virtualAddress % PAGE_SIZE = virtualAddress % 2 ^ 48 ∧
        a = us[j] + virtualAddress % PAGE_SIZE := by
  obtain ⟨hpgd, hne⟩ := h.pgd_ne_zero hused hts
  have h₀ := h.follow_table hused (l := 0) (by omega)
  have h₁ := h.follow_table hused (l := 1) (by omega)
  have h₂ := h.follow_table hused (l := 2) (by omega)
  rw [walk_eq, hpgd, if_neg hne]
  constructor
  · intro hwalk
    obtain ⟨pud, hpud, hwalk⟩ := Option.bind_eq_some_iff.mp hwalk
    rw [h₀] at hpud
    split_ifs at hpud with hindex₀
    obtain rfl := Option.some.inj hpud
    obtain ⟨pmd, hpmd, hwalk⟩ := Option.bind_eq_some_iff.mp hwalk
    rw [h₁] at hpmd
    split_ifs at hpmd with hindex₁
    obtain rfl := Option.some.inj hpmd
    obtain ⟨pte, hpte, hwalk⟩ := Option.bind_eq_some_iff.mp hwalk
    rw [h₂] at hpte
    split_ifs at hpte with hindex₂
    obtain rfl := Option.some.inj hpte
    obtain ⟨page, hpage, hwalk⟩ := Option.bind_eq_some_iff.mp hwalk
    rw [h.follow_leaf hused (by omega) hus] at hpage
    obtain ⟨hj, rfl⟩ := List.getElem?_eq_some_iff.mp hpage
    refine ⟨_, hj, ?_, (Option.some.inj hwalk).symm⟩
    exact (tableIndex_iff virtualAddress _ (hus ▸ hj)).mp ⟨hindex₀, hindex₁, hindex₂, rfl⟩
  · rintro ⟨j, hj, hva, rfl⟩
    obtain ⟨hindex₀, hindex₁, hindex₂, hindex₃⟩ :=
      (tableIndex_iff virtualAddress j (hus ▸ hj)).mpr hva
    rw [h₀, if_pos hindex₀, Option.bind_some, h₁, if_pos hindex₁, Option.bind_some, h₂,
      if_pos hindex₂, Option.bind_some, h.follow_leaf hused (by omega) hus, hindex₃,
      List.getElem?_eq_getElem hj, Option.bind_some]

/-- The pages that a walk passes through are the tables of the process. -/
theorem tablePage_iff (hts : ts.length = 4) {l t : Nat} :
    k.TablePage mm.pgd l t ↔ ts[l]? = some t := by
  obtain ⟨hpgd, hne⟩ := h.pgd_ne_zero hused hts
  constructor
  · intro hpage
    induction hpage with
    | pgd => rw [hpgd, List.getElem?_eq_getElem (by omega)]
    | @next l table index next _ hl _ hfollow ih =>
        obtain ⟨hlt, rfl⟩ := List.getElem?_eq_some_iff.mp ih
        rw [h.follow_table hused (by omega) index] at hfollow
        split_ifs at hfollow
        rw [← Option.some.inj hfollow]
        exact List.getElem?_eq_getElem (by omega)
  · intro hl
    obtain ⟨hlt, rfl⟩ := List.getElem?_eq_some_iff.mp hl
    clear hl
    induction l with
    | zero =>
        rw [← hpgd]
        exact .pgd (hpgd ▸ hne)
    | succ l ih =>
        refine .next (ih (by omega)) (by omega) (show 0 < PTRS_PER_TABLE by decide) ?_
        rw [h.follow_table hused hlt 0, if_pos rfl]

end AddressSpace

end

end DemosOS
