import DemosOS.Lib.TableTree
import DemosOS.Mem.Failures

/-!
# One translation at a time

The tables of a process are a tree: a table is found from the `PGD` by a path of entries, and no
table is found by two.  `map_page` follows the path of its virtual address, attaches a new table
wherever the path ends too early, and writes one entry of the last table.  Neither step is noticed
by the walk of any other address.
-/

namespace DemosOS

open Lib

namespace Kernel

/-! ## The tables as a tree -/

/-- The entry that the walk of a virtual address uses in a table of the level. -/
def entryIndex (shift virtualAddress : Nat) : Fin PTRS_PER_TABLE :=
  ⟨tableIndex shift virtualAddress, by
    rw [tableIndex_eq]
    exact Nat.mod_lt _ (by decide)⟩

/-- The page that an entry of a table points to. -/
def child (k : Kernel Pointers) (table : Nat) (i : Fin PTRS_PER_TABLE) : Option Nat :=
  k.follow table i

/-- The entries on the way to the last table. -/
def tablePath (virtualAddress : Nat) : List (Fin PTRS_PER_TABLE) :=
  [entryIndex PGD_SHIFT virtualAddress, entryIndex PUD_SHIFT virtualAddress,
    entryIndex PMD_SHIFT virtualAddress]

/-- The valid entry that the walk of a virtual address ends with. -/
def leafEntry (k : Kernel Pointers) (pgd virtualAddress : Nat) : Option Nat :=
  if pgd = 0 then none
  else (TableTree.walk k.child pgd (tablePath virtualAddress)).bind fun pte ↦
    if k.memory.tables pte (tableIndex PAGE_SHIFT virtualAddress) &&& 1 = 1 then
      some (k.memory.tables pte (tableIndex PAGE_SHIFT virtualAddress))
    else none

/-- The page table pages of a process. -/
def IsTable (k : Kernel Pointers) (p : PcbPtr) (t : Nat) : Prop :=
  (k.pcb p).mm.pgd ≠ 0 ∧ TableTree.IsNode k.child (k.pcb p).mm.pgd 3 t

/-- Every entry of the tables that is not zero points to a page table page of its own, which is
in use. -/
structure WellFormed (k : Kernel Pointers) (pgd : Nat) : Prop where
  inUse : ∀ t, TableTree.IsNode k.child pgd 3 t → k.memory.InUse t
  entry : ∀ path t (i : Fin PTRS_PER_TABLE), path.length < 3 →
    TableTree.walk k.child pgd path = some t → k.memory.tables t i ≠ 0 → ∃ a, k.child t i = some a
  tree : TableTree.IsTree k.child pgd 3

/-- The tables of a process are well formed, or it has none. -/
def TablesWellFormed (k : Kernel Pointers) (p : PcbPtr) : Prop :=
  (k.pcb p).mm.pgd = 0 ∨ k.WellFormed (k.pcb p).mm.pgd

/-- The number of tables that `map_page` has to create. -/
def tablesNeeded (k : Kernel Pointers) (p : PcbPtr) (virtualAddress : Nat) : Nat :=
  if (k.pcb p).mm.pgd = 0 then 4
  else TableTree.missing k.child (k.pcb p).mm.pgd (tablePath virtualAddress)

end Kernel

/-- The pages in `kernel_pages`. -/
def MmStruct.kernelPageList (mm : MmStruct) : List Nat :=
  (List.range mm.nKernelPages).map mm.kernelPages

/-- The pages in `user_pages`. -/
def MmStruct.userPageList (mm : MmStruct) : List UserPage :=
  (List.range mm.nUserPages).map mm.userPages

section

variable {k k' : Kernel Pointers} {p : PcbPtr} {pgd t b index virtualAddress : Nat}

/-- The translation of an address is the page of its entry. -/
theorem translate_eq (k : Kernel Pointers) (p : PcbPtr) (virtualAddress : Nat) :
    k.translate p virtualAddress = (k.leafEntry (k.pcb p).mm.pgd virtualAddress).map fun e ↦
      (e &&& PAGE_MASK) + virtualAddress % PAGE_SIZE := by
  rw [Kernel.translate, walk_eq, Kernel.leafEntry]
  split_ifs
  · rfl
  · rw [Option.map_eq_bind, Option.bind_assoc]
    simp only [Kernel.tablePath, TableTree.walk_cons, TableTree.walk_nil, Option.bind_fun_some,
      Option.bind_assoc]
    refine Option.bind_congr fun pud _ ↦ Option.bind_congr fun pmd _ ↦
      Option.bind_congr fun pte _ ↦ ?_
    rw [Kernel.follow]
    split_ifs <;> rfl

/-- Equal entries, equal translations. -/
theorem translate_congr
    (h : k'.leafEntry (k'.pcb p).mm.pgd virtualAddress =
      k.leafEntry (k.pcb p).mm.pgd virtualAddress) :
    k'.translate p virtualAddress = k.translate p virtualAddress := by
  rw [translate_eq, translate_eq, h]

theorem tablesNeeded_le (k : Kernel Pointers) (p : PcbPtr) (virtualAddress : Nat) :
    k.tablesNeeded p virtualAddress ≤ 4 := by
  rw [Kernel.tablesNeeded]
  split_ifs
  · exact le_rfl
  · exact TableTree.missing_le.trans (by simp [Kernel.tablePath])

theorem leafEntry_zero : k.leafEntry 0 virtualAddress = none := if_pos rfl

theorem child_of_zero {i : Fin PTRS_PER_TABLE} (h : k.memory.tables t i = 0) :
    k.child t i = none :=
  follow_of_zero h

theorem child_congr {i : Fin PTRS_PER_TABLE} (h : k'.memory.tables t i = k.memory.tables t i) :
    k'.child t i = k.child t i := by
  rw [Kernel.child, Kernel.child, Kernel.follow, Kernel.follow, h]

namespace Kernel.WellFormed

variable (h : k.WellFormed pgd)
include h

theorem ne_zero : pgd ≠ 0 := (h.inUse pgd ⟨[], by decide, rfl⟩).ne_zero

/-- A page that is not in use is not a table. -/
theorem not_node (hb : ¬ k.memory.InUse b) (path : List (Fin PTRS_PER_TABLE))
    (hlen : path.length ≤ 3) : TableTree.walk k.child pgd path ≠ some b := fun hwalk ↦
  hb (h.inUse b ⟨path, hlen, hwalk⟩)

end Kernel.WellFormed

/-! ## The tables of the processes -/

namespace AddressSpace

variable {mm : MmStruct} {us ts : List Nat} (h : AddressSpace k.memory mm us ts)
  (hused : ∀ a ∈ us ++ ts, k.memory.InUse a) (hts : ts.length = 4)
include h hused hts

/-- The tables are a chain along the entries 0. -/
theorem walk_chain {path : List (Fin PTRS_PER_TABLE)} {t : Nat} (hlen : path.length ≤ 3)
    (hwalk : TableTree.walk k.child ts[0] path = some t) :
    (∀ i ∈ path, (i : Nat) = 0) ∧ ts[path.length]? = some t := by
  induction path using List.reverseRecOn generalizing t with
  | nil => exact ⟨nofun, (List.getElem?_eq_getElem (by omega)).trans hwalk⟩
  | append_singleton path i ih =>
      rw [List.length_append, List.length_singleton] at hlen ⊢
      rw [TableTree.walk_concat] at hwalk
      obtain ⟨a, ha, hchild⟩ := Option.bind_eq_some_iff.mp hwalk
      obtain ⟨hzero, hget⟩ := ih (by omega) ha
      obtain ⟨hlt, rfl⟩ := List.getElem?_eq_some_iff.mp hget
      rw [Kernel.child, h.follow_table hused (by omega)] at hchild
      split_ifs at hchild with hi
      refine ⟨fun j hj ↦ ?_, ?_⟩
      · rcases List.mem_append.mp hj with hj | hj
        · exact hzero j hj
        · rw [List.mem_singleton.mp hj]
          exact hi
      · rw [List.getElem?_eq_getElem (by omega)]
        exact hchild

theorem wellFormed (hfirst : 0 < ts.length) (hnodup : ts.Nodup) : k.WellFormed ts[0] := by
  refine ⟨?_, fun path t i hlen hwalk hne ↦ ?_, fun path path' a hlen hlen' ha ha' ↦ ?_⟩
  · rintro t ⟨path, hlen, hwalk⟩
    refine hused t (List.mem_append_right _ ?_)
    exact List.mem_of_getElem? (h.walk_chain hused hts hlen hwalk).2
  · obtain ⟨hlt, rfl⟩ := List.getElem?_eq_some_iff.mp (h.walk_chain hused hts hlen.le hwalk).2
    have hentry := congrFun (h.link path.length (by omega)) i
    by_cases hi : (i : Nat) = 0
    · exact ⟨_, (h.follow_table hused (by omega) i).trans (if_pos hi)⟩
    · rw [Function.update_of_ne hi] at hentry
      exact absurd hentry hne
  · obtain ⟨hzero, hget⟩ := h.walk_chain hused hts hlen ha
    obtain ⟨hzero', hget'⟩ := h.walk_chain hused hts hlen' ha'
    obtain ⟨hlt, hget⟩ := List.getElem?_eq_some_iff.mp hget
    obtain ⟨hlt', hget'⟩ := List.getElem?_eq_some_iff.mp hget'
    have hlengths : path.length = path'.length :=
      (List.Nodup.getElem_inj_iff hnodup).mp (hget.trans hget'.symm)
    refine List.ext_getElem hlengths fun j hj hj' ↦ Fin.ext ?_
    rw [hzero _ (List.getElem_mem hj), hzero' _ (List.getElem_mem hj')]

end AddressSpace

/-- In every state that requests lead to, the tables of the processes are well formed. -/
theorem System.Sound.tablesWellFormed {s : System} (h : s.Sound) (hp : p ∈ s.live) :
    s.kernel.TablesWellFormed p := by
  by_cases hu : p ∈ s.user
  · obtain ⟨us, ts, -, hts, hnodup, hused, hspace⟩ := h.fullSpace hu
    right
    rw [(hspace.pgd_ne_zero hused hts).1]
    exact hspace.wellFormed hused hts (by omega) (List.nodup_append.mp hnodup).2.1
  · exact .inl (h.owned.empty p hp hu).2.2

/-! ## A new table -/

/-- The page `b` has become a table without entries, which the entry `i` of `t` points to. -/
structure Kernel.TableAdded (k k' : Kernel Pointers) (t : Nat) (i : Fin PTRS_PER_TABLE) (b : Nat) :
    Prop where
  empty : k.memory.tables t i = 0
  fresh : ¬ k.memory.InUse b
  inUse : ∀ a, k'.memory.InUse a ↔ k.memory.InUse a ∨ a = b
  self : k'.memory.tables t = Function.update (k.memory.tables t) i (b ||| MM_TYPE_PAGE_TABLE)
  blank : k'.memory.tables b = fun _ ↦ 0
  other : ∀ c, c ≠ b → c ≠ t → k'.memory.tables c = k.memory.tables c

namespace Kernel.TableAdded

variable {i : Fin PTRS_PER_TABLE} (h : k.TableAdded k' t i b)
include h

theorem tables_of_ne {c : Nat} {j : Fin PTRS_PER_TABLE} (hcb : c ≠ b) (hne : c = t → j ≠ i) :
    k'.memory.tables c j = k.memory.tables c j := by
  by_cases hct : c = t
  · subst hct
    have hj : (j : Nat) ≠ i := fun hji ↦ hne rfl (Fin.ext hji)
    rw [h.self, Function.update_of_ne hj]
  · rw [h.other c hcb hct]

theorem child_new : k'.child t i = some b := by
  have hentry : k'.memory.tables t i = b ||| MM_TYPE_PAGE_TABLE := by
    rw [h.self, Function.update_self]
  exact follow_page ((h.inUse b).mpr (.inr rfl)) hentry (by decide) (by decide)

theorem child_blank (j : Fin PTRS_PER_TABLE) : k'.child b j = none :=
  child_of_zero (congrFun h.blank j)

theorem attached : TableTree.Attached k.child k'.child t i b where
  empty := child_of_zero h.empty
  entry := h.child_new
  blank := h.child_blank
  other _ _ hcb hne := child_congr (h.tables_of_ne hcb hne)

variable (hwf : k.WellFormed pgd) {path : List (Fin PTRS_PER_TABLE)}
  (hpath : TableTree.walk k.child pgd path = some t) (hlen : path.length < 3)
include hwf hpath hlen

theorem walk_new : TableTree.walk k'.child pgd (path ++ [i]) = some b :=
  h.attached.walk_new hwf.tree hpath hlen (hwf.not_node h.fresh)

theorem isNode_iff {c : Nat} :
    TableTree.IsNode k'.child pgd 3 c ↔ TableTree.IsNode k.child pgd 3 c ∨ c = b :=
  h.attached.isNode_iff hwf.tree hpath hlen (hwf.not_node h.fresh)

/-- The tables stay well formed. -/
theorem wellFormed : k'.WellFormed pgd := by
  refine ⟨fun c hc ↦ ?_, fun ρ c j hρ hwalk hne ↦ ?_, ?_⟩
  · rcases (h.isNode_iff hwf hpath hlen).mp hc with hold | rfl
    · exact (h.inUse c).mpr (.inl (hwf.inUse c hold))
    · exact (h.inUse c).mpr (.inr rfl)
  · have hcb : c ≠ b := by
      rintro rfl
      exact hne (congrFun h.blank j)
    by_cases hnew : c = t ∧ j = i
    · obtain ⟨rfl, rfl⟩ := hnew
      exact ⟨b, h.child_new⟩
    · have hother : c = t → j ≠ i := fun hct hji ↦ hnew ⟨hct, hji⟩
      have hold : TableTree.walk k.child pgd ρ = some c := by
        rw [h.attached.walk_eq hwf.tree hpath hlen (hwf.not_node h.fresh) hρ.le] at hwalk
        split_ifs at hwalk
        · exact absurd (Option.some.inj hwalk).symm hcb
        · exact hwalk
      rw [h.tables_of_ne hcb hother] at hne
      rw [child_congr (h.tables_of_ne hcb hother)]
      exact hwf.entry ρ c j hρ hold hne
  · exact h.attached.isTree hwf.tree hpath hlen (hwf.not_node h.fresh)

/-- No address has got a translation, or another one. -/
theorem leafEntry (virtualAddress : Nat) :
    k'.leafEntry pgd virtualAddress = k.leafEntry pgd virtualAddress := by
  have hdepth : (tablePath virtualAddress).length ≤ 3 := le_rfl
  rw [Kernel.leafEntry, Kernel.leafEntry, if_neg hwf.ne_zero, if_neg hwf.ne_zero,
    h.attached.walk_eq hwf.tree hpath hlen (hwf.not_node h.fresh) hdepth]
  split_ifs with hnew
  · -- the walk now reaches the new table, and used to end before it
    have hbefore : TableTree.walk k.child pgd (tablePath virtualAddress) = none := by
      rw [hnew, TableTree.walk_concat, hpath, Option.bind_some, h.attached.empty]
    rw [hbefore, Option.bind_some, h.blank, if_neg (by simp)]
    rfl
  · cases hwalk : TableTree.walk k.child pgd (tablePath virtualAddress) with
    | none => rfl
    | some c =>
        have hcb : c ≠ b := by
          rintro rfl
          exact hwf.not_node h.fresh _ hdepth hwalk
        have hct : c ≠ t := by
          rintro rfl
          have hsame := hwf.tree hdepth (by omega) hwalk hpath
          rw [← hsame] at hlen
          exact absurd hlen (by simp [tablePath])
        rw [Option.bind_some, Option.bind_some, h.other c hcb hct]

end Kernel.TableAdded

end

/-! ## Growing the tables of a process -/

/-- The process has tables, and its control block is in no free page. -/
structure Kernel.HasTables (p : PcbPtr) (pgd : Nat) (k : Kernel Pointers) : Prop where
  root : (k.pcb p).mm.pgd = pgd
  wellFormed : k.WellFormed pgd
  control : ∀ a, p.pageStart = some a → k.memory.InUse a

/-- The physical page 0, which does not belong to the allocator, is as before. -/
structure Kernel.NullKept (k k' : Kernel Pointers) : Prop where
  bytes : ∀ x < PAGE_SIZE, k'.memory.bytes x = k.memory.bytes x
  table : k'.memory.tables 0 = k.memory.tables 0

/-- From `k` to `k'` the process has got the new tables, and nothing else: they have been taken
from the free pages and entered in `kernel_pages`, and every walk ends where it ended before. -/
structure Kernel.Grown (p : PcbPtr) (new : List Nat) (k k' : Kernel Pointers) : Prop where
  leafEntry : ∀ virtualAddress, k'.leafEntry (k'.pcb p).mm.pgd virtualAddress =
    k.leafEntry (k.pcb p).mm.pgd virtualAddress
  table : ∀ t, k'.IsTable p t ↔ k.IsTable p t ∨ t ∈ new
  nodup : new.Nodup
  fresh : ∀ t ∈ new, ¬ k.IsTable p t
  kernelPages : (k'.pcb p).mm.kernelPageList = (k.pcb p).mm.kernelPageList ++ new
  userPages : (k'.pcb p).mm.userPageList = (k.pcb p).mm.userPageList
  room : new.length ≤ MAX_PROCESS_PAGES - (k.pcb p).mm.nKernelPages
  free : k'.memory.free + new.length = k.memory.free
  null : k.NullKept k'
  failures : k'.failures = k.failures

theorem Kernel.NullKept.trans {k k₁ k' : Kernel Pointers} (h : k.NullKept k₁)
    (h' : k₁.NullKept k') : k.NullKept k' where
  bytes x hx := (h'.bytes x hx).trans (h.bytes x hx)
  table := h'.table.trans h.table

/-- Pages of the allocator are behind page 0. -/
theorem Kernel.NullKept.clearPage (k : Kernel Pointers) (i : Nat) :
    k.NullKept (k.clearPage (pageAddress i)) where
  bytes x hx := by
    refine if_neg fun hin ↦ ?_
    unfold PAGE_SIZE at hx
    unfold pageAddress LOW_MEMORY at hin
    omega
  table := Function.update_of_ne (pageAddress_pos i).ne _ _

theorem Kernel.NullKept.takePage (k : Kernel Pointers) (i : Nat) : k.NullKept (k.takePage i) :=
  ⟨(clearPage (k.mapMemory (·.mark i true)) i).bytes,
    (clearPage (k.mapMemory (·.mark i true)) i).table⟩

namespace Kernel.Grown

variable {p : PcbPtr} {new new' : List Nat} {k k₁ k' : Kernel Pointers}

theorem refl (k : Kernel Pointers) : Kernel.Grown p [] k k where
  leafEntry _ := rfl
  table t := by simp
  nodup := List.nodup_nil
  fresh := nofun
  kernelPages := (List.append_nil _).symm
  userPages := rfl
  room := Nat.zero_le _
  free := Nat.add_zero _
  null := ⟨fun _ _ ↦ rfl, rfl⟩
  failures := rfl

/-- As many entries have been added to `kernel_pages` as there are new tables. -/
theorem nKernelPages (h : Kernel.Grown p new k k') :
    (k'.pcb p).mm.nKernelPages = (k.pcb p).mm.nKernelPages + new.length := by
  have hlengths := congrArg List.length h.kernelPages
  simpa [MmStruct.kernelPageList] using hlengths

theorem trans (h : Kernel.Grown p new k k₁) (h' : Kernel.Grown p new' k₁ k') :
    Kernel.Grown p (new ++ new') k k' where
  leafEntry virtualAddress := (h'.leafEntry virtualAddress).trans (h.leafEntry virtualAddress)
  table t := by
    rw [h'.table, h.table, List.mem_append, or_assoc]
  nodup := by
    refine List.nodup_append.mpr ⟨h.nodup, h'.nodup, ?_⟩
    rintro t ht _ ht' rfl
    exact h'.fresh t ht' ((h.table t).mpr (.inr ht))
  fresh t ht hold := by
    rcases List.mem_append.mp ht with ht | ht
    · exact h.fresh t ht hold
    · exact h'.fresh t ht ((h.table t).mpr (.inl hold))
  kernelPages := by rw [h'.kernelPages, h.kernelPages, List.append_assoc]
  userPages := h'.userPages.trans h.userPages
  room := by
    have hfirst := h.room
    have hsecond := h'.room
    have hcount := h.nKernelPages
    rw [List.length_append]
    omega
  free := by
    have hfirst := h.free
    have hsecond := h'.free
    rw [List.length_append]
    omega
  null := h.null.trans h'.null
  failures := h'.failures.trans h.failures

theorem nUserPages (h : Kernel.Grown p new k k') :
    (k'.pcb p).mm.nUserPages = (k.pcb p).mm.nUserPages := by
  have hlengths := congrArg List.length h.userPages
  simpa [MmStruct.userPageList] using hlengths

end Kernel.Grown

/-- There are free pages for `n` more tables of the process, and room for them in
`kernel_pages`. -/
structure Kernel.Affords (p : PcbPtr) (n : Nat) (k : Kernel Pointers) : Prop where
  enough : n ≤ k.memory.free
  room : n ≤ MAX_PROCESS_PAGES - (k.pcb p).mm.nKernelPages

theorem Kernel.Grown.affords {p : PcbPtr} {new : List Nat} {k k' : Kernel Pointers} {n : Nat}
    (h : Kernel.Grown p new k k') (hafford : k.Affords p (new.length + n)) : k'.Affords p n := by
  have hfree := h.free
  have hcount := h.nKernelPages
  have henough := hafford.enough
  have hroom := hafford.room
  exact ⟨by omega, by omega⟩

section

variable {k k' : Kernel Pointers} {p : PcbPtr} {pgd t b virtualAddress shift page : Nat}

theorem kernelPageList_append (mm : MmStruct) (page : Nat) :
    MmStruct.kernelPageList { mm with
      kernelPages := Function.update mm.kernelPages mm.nKernelPages page
      nKernelPages := mm.nKernelPages + 1 } = mm.kernelPageList ++ [page] := by
  rw [MmStruct.kernelPageList, MmStruct.kernelPageList, List.range_succ, List.map_append]
  dsimp only
  rw [List.map_singleton, Function.update_self]
  congr 1
  refine List.map_congr_left fun j hj ↦ Function.update_of_ne ?_ _ _
  exact (List.mem_range.mp hj).ne

theorem userPageList_append (mm : MmStruct) (page : UserPage) :
    MmStruct.userPageList { mm with
      userPages := Function.update mm.userPages mm.nUserPages page
      nUserPages := mm.nUserPages + 1 } = mm.userPageList ++ [page] := by
  rw [MmStruct.userPageList, MmStruct.userPageList, List.range_succ, List.map_append]
  dsimp only
  rw [List.map_singleton, Function.update_self]
  congr 1
  refine List.map_congr_left fun j hj ↦ Function.update_of_ne ?_ _ _
  exact (List.mem_range.mp hj).ne

/-- `kernel_pages` is entered behind its last page, as long as there is room. -/
theorem trackKernelPage_some (h : k.trackKernelPage p page = some k') :
    (k.pcb p).mm.nKernelPages < MAX_PROCESS_PAGES ∧ k' = k.modifyMm p fun mm ↦ { mm with
      kernelPages := Function.update mm.kernelPages mm.nKernelPages page
      nKernelPages := mm.nKernelPages + 1 } := by
  unfold Kernel.trackKernelPage at h
  split_ifs at h with hroom
  exact ⟨hroom, (Option.some.inj h).symm⟩

theorem modifyMm_mm (k : Kernel Pointers) (p : PcbPtr) (f : MmStruct → MmStruct) :
    ((k.modifyMm p f).pcb p).mm = f (k.pcb p).mm := by
  rw [Kernel.modifyMm, Kernel.mapGlobals_toGlobals, Globals.modifyPcb_pcb_self]

/-- A fresh page that is cleared once more. -/
theorem takePage_clear_pcb {i : Nat} (hi : i < N_PAGES) (hfree : k.memory.memoryPages i = false)
    (hcontrol : ∀ a, p.pageStart = some a → k.memory.InUse a) :
    ((k.takePage i).clearPage (pageAddress i)).pcb p = k.pcb p := by
  have hmem : pageAddress i ∈ ({pageAddress i} : Set Nat) := Set.mem_singleton _
  have hconfined : Confined {pageAddress i} ∅ k ((k.takePage i).clearPage (pageAddress i)) :=
    (Confined.takePage k hmem).trans (Confined.clearPage _ hmem)
  refine hconfined.pcb p (Set.notMem_empty p) ?_
  rintro a ha rfl
  exact Memory.not_inUse hi hfree (hcontrol _ ha)

/-- A level that has no entry, and gets a free page. -/
theorem createTable_added {path : List (Fin PTRS_PER_TABLE)} {j : Fin PTRS_PER_TABLE} {i : Nat}
    (h : k.HasTables p pgd) (hpath : TableTree.walk k.child pgd path = some t)
    (hlen : path.length < 3) (hempty : k.memory.tables t j = 0) (hi : i < N_PAGES)
    (hfree : k.memory.memoryPages i = false) {r : Nat × Kernel Pointers}
    (hrun : Kernel.createTable p t j (pageAddress i, k.takePage i) = some r) :
    r.1 = pageAddress i ∧ k.TableAdded r.2 t j (pageAddress i) ∧
      Kernel.Grown p [pageAddress i] k r.2 ∧ r.2.HasTables p pgd := by
  have hfresh : ¬ k.memory.InUse (pageAddress i) := by
    exact Memory.not_inUse hi hfree
  have hused : k.memory.InUse t := h.wellFormed.inUse t ⟨path, hlen.le, hpath⟩
  have hne : t ≠ pageAddress i := by
    rintro rfl
    exact hfresh hused
  obtain ⟨k', hk', rfl⟩ := Option.map_eq_some_iff.mp hrun
  obtain ⟨hroom, rfl⟩ := trackKernelPage_some hk'
  set k₁ := (k.takePage i).clearPage (pageAddress i) with hk₁
  set k₂ := k₁.mapMemory (·.writeEntry t j (pageAddress i ||| MM_TYPE_PAGE_TABLE)) with hk₂
  have hblank : k₁.memory.tables (pageAddress i) = fun _ ↦ 0 := Function.update_self ..
  have hold : ∀ c, c ≠ pageAddress i → k₁.memory.tables c = k.memory.tables c := by
    intro c hc
    exact (Function.update_of_ne hc _ _).trans (Function.update_of_ne hc _ _)
  have hadded : k.TableAdded (k₂.modifyMm p fun mm ↦ { mm with
      kernelPages := Function.update mm.kernelPages mm.nKernelPages (pageAddress i)
      nKernelPages := mm.nKernelPages + 1 }) t j (pageAddress i) := by
    refine ⟨hempty, hfresh, takePage_inUse hi, ?_, ?_, fun c hcb hct ↦ ?_⟩
    · show Function.update k₁.memory.tables t _ t = _
      rw [Function.update_self, hold t hne]
    · show Function.update k₁.memory.tables t _ (pageAddress i) = _
      rw [Function.update_of_ne hne.symm, hblank]
    · show Function.update k₁.memory.tables t _ c = _
      rw [Function.update_of_ne hct, hold c hcb]
  have hpcb : (k₂.pcb p).mm = (k.pcb p).mm :=
    congrArg PCB.mm (takePage_clear_pcb hi hfree h.control)
  refine ⟨rfl, hadded, ?_, ?_⟩
  · refine ⟨fun va ↦ ?_, fun c ↦ ?_, List.nodup_singleton _, ?_, ?_, ?_, ?_, ?_, ?_, rfl⟩
    · rw [modifyMm_mm, hpcb]
      dsimp only
      rw [h.root]
      exact hadded.leafEntry h.wellFormed hpath hlen va
    · rw [Kernel.IsTable, Kernel.IsTable, modifyMm_mm, hpcb]
      dsimp only
      rw [h.root, hadded.isNode_iff h.wellFormed hpath hlen, List.mem_singleton]
      have := h.wellFormed.ne_zero
      tauto
    · intro c hc hold
      rw [List.mem_singleton.mp hc, Kernel.IsTable, h.root] at hold
      exact hfresh (h.wellFormed.inUse _ hold.2)
    · rw [modifyMm_mm, hpcb, kernelPageList_append]
    · rw [modifyMm_mm, hpcb]
      rfl
    · have hroom : (k₂.pcb p).mm.nKernelPages < MAX_PROCESS_PAGES := hroom
      rw [hpcb] at hroom
      rw [List.length_singleton]
      omega
    · exact Kernel.takePage_free hi hfree
    · have hnull := (Kernel.NullKept.takePage k i).trans (.clearPage _ i)
      refine ⟨hnull.bytes, Eq.trans ?_ hnull.table⟩
      exact Function.update_of_ne hused.ne_zero.symm _ _
  · refine ⟨?_, hadded.wellFormed h.wellFormed hpath hlen, fun a ha ↦ ?_⟩
    · rw [modifyMm_mm, hpcb]
      exact h.root
    · exact (hadded.inUse a).mpr (.inl (h.control a ha))

/-! ## One level -/

section

variable {path rest : List (Fin PTRS_PER_TABLE)} {next : Nat} (h : k.HasTables p pgd)
  (hpath : TableTree.walk k.child pgd path = some t) (hlen : path.length < 3)
include h hpath hlen

/-- One level of the walk reaches the next table, and adds it if it was missing. -/
theorem mapLevel_grown (hrun : k.mapLevel p t shift virtualAddress = some (next, k'))
    (hfail : k'.failures = k.failures) :
    ∃ new, Kernel.Grown p new k k' ∧ k'.HasTables p pgd ∧
      TableTree.walk k'.child pgd (path ++ [Kernel.entryIndex shift virtualAddress]) = some next ∧
      ∀ rest, TableTree.missing k.child t (Kernel.entryIndex shift virtualAddress :: rest) =
        new.length + TableTree.missing k'.child next rest := by
  by_cases hentry : k.memory.tables t (Kernel.entryIndex shift virtualAddress) = 0
  · rw [mapLevel_create hentry] at hrun
    obtain ⟨i, hi, hfree, hpage⟩ | ⟨-, hpage⟩ := k.getFreePage_cases
    · rw [hpage] at hrun
      obtain ⟨rfl, hadded, hgrown, htables⟩ := createTable_added h hpath hlen hentry hi hfree hrun
      refine ⟨[pageAddress i], hgrown, htables, hadded.walk_new h.wellFormed hpath hlen, ?_⟩
      intro rest
      rw [TableTree.missing_of_none (child_of_zero hentry),
        TableTree.missing_of_blank hadded.child_blank, List.length_singleton, Nat.add_comm]
    · -- a failed allocation would have been counted
      have hcount := createTable_failures hrun
      rw [hpage] at hcount
      exact absurd hfail (Nat.ne_of_gt hcount)
  · obtain ⟨a, ha⟩ := h.wellFormed.entry path t _ hlen hpath hentry
    rw [mapLevel_follow hentry] at hrun
    obtain ⟨rfl, rfl⟩ := Prod.mk.inj (Option.some.inj hrun)
    have hnext : k.memory.tables t (tableIndex shift virtualAddress) &&& PAGE_MASK = a := by
      rw [Kernel.child, Kernel.follow] at ha
      split_ifs at ha
      exact Option.some.inj ha
    refine ⟨[], .refl k, h, ?_, fun rest ↦ ?_⟩
    · rw [TableTree.walk_concat, hpath, Option.bind_some, ha, hnext]
    · rw [TableTree.missing_of_some ha, hnext, List.length_nil, Nat.zero_add]

/-- It returns if the process affords the tables that are missing, and it then affords the rest of
them. -/
theorem mapLevel_returns (hafford : k.Affords p
      (TableTree.missing k.child t (Kernel.entryIndex shift virtualAddress :: rest))) :
    ∃ next k', k.mapLevel p t shift virtualAddress = some (next, k') ∧
      k'.failures = k.failures ∧ k'.HasTables p pgd ∧
      TableTree.walk k'.child pgd (path ++ [Kernel.entryIndex shift virtualAddress]) = some next ∧
      k'.Affords p (TableTree.missing k'.child next rest) := by
  have hreturns : ∃ r, k.mapLevel p t shift virtualAddress = some r ∧
      r.2.failures = k.failures := by
    by_cases hentry : k.memory.tables t (Kernel.entryIndex shift virtualAddress) = 0
    · have hmissing : TableTree.missing k.child t
          (Kernel.entryIndex shift virtualAddress :: rest) = rest.length + 1 :=
        TableTree.missing_of_none (child_of_zero hentry)
      have henough := hafford.enough
      have hroom := hafford.room
      rw [mapLevel_create hentry]
      obtain ⟨i, hi, hfree, hpage⟩ | ⟨hnone, -⟩ := k.getFreePage_cases
      · have hpcb := congrArg PCB.mm (takePage_clear_pcb hi hfree h.control)
        have hcount : ((((k.takePage i).clearPage (pageAddress i)).mapMemory (·.writeEntry t
            (tableIndex shift virtualAddress) (pageAddress i ||| MM_TYPE_PAGE_TABLE))).pcb
              p).mm.nKernelPages < MAX_PROCESS_PAGES := by
          show (((k.takePage i).clearPage (pageAddress i)).pcb p).mm.nKernelPages < _
          rw [hpcb]
          omega
        rw [hpage, Kernel.createTable]
        dsimp only
        rw [trackKernelPage_eq hcount]
        exact ⟨_, rfl, rfl⟩
      · omega
    · exact ⟨_, mapLevel_follow hentry, rfl⟩
  obtain ⟨⟨next, k'⟩, hrun, hfail⟩ := hreturns
  obtain ⟨new, hgrown, htables, hwalk, hneed⟩ := mapLevel_grown h hpath hlen hrun hfail
  refine ⟨next, k', hrun, hfail, htables, hwalk, hgrown.affords ?_⟩
  rw [← hneed rest]
  exact hafford

end

/-! ## The `PGD` -/

/-- A page without entries becomes the `PGD`. -/
theorem wellFormed_single (hblank : k.memory.tables b = fun _ ↦ 0) (hused : k.memory.InUse b) :
    k.WellFormed b := by
  have hchild : ∀ i, k.child b i = none := fun i ↦ child_of_zero (congrFun hblank i)
  refine ⟨fun t ht ↦ ?_, fun path t i _ hwalk hne ↦ ?_, .single hchild⟩
  · rw [(TableTree.isNode_single hchild).mp ht]
    exact hused
  · rw [(TableTree.walk_blank hchild hwalk).2] at hne
    exact absurd (congrFun hblank i) hne

theorem leafEntry_single (hblank : k.memory.tables b = fun _ ↦ 0) :
    k.leafEntry b virtualAddress = none := by
  have hchild : ∀ i, k.child b i = none := fun i ↦ child_of_zero (congrFun hblank i)
  rw [Kernel.leafEntry, Kernel.tablePath, TableTree.walk_cons, hchild]
  split_ifs <;> rfl

/-- A process without a `PGD` gets one in the given page. -/
def Kernel.createPgd (p : PcbPtr) (r : Nat × Kernel Pointers) : Option (Kernel Pointers) :=
  ((r.2.modifyMm p fun mm ↦ { mm with pgd := r.1 }).clearPage r.1).trackKernelPage p r.1

theorem ensurePgd_create (hpgd : (k.pcb p).mm.pgd = 0) :
    k.ensurePgd p = Kernel.createPgd p k.getFreePage := if_pos hpgd

theorem createPgd_failures {r : Nat × Kernel Pointers} (h : Kernel.createPgd p r = some k') :
    k'.failures = r.2.failures := by
  rw [Kernel.createPgd] at h
  have hsame := trackKernelPage_failures h
  exact hsame

section

variable (hcontrol : ∀ a, p.pageStart = some a → k.memory.InUse a)
include hcontrol

/-- The control block, after a free page has become the `PGD` and has been cleared. -/
theorem createPgd_mm {i : Nat} (hi : i < N_PAGES) (hfree : k.memory.memoryPages i = false) :
    ((((k.takePage i).modifyMm p fun mm ↦ { mm with pgd := pageAddress i }).clearPage
      (pageAddress i)).pcb p).mm = { (k.pcb p).mm with pgd := pageAddress i } := by
  have hmem : pageAddress i ∈ ({pageAddress i} : Set Nat) := Set.mem_singleton _
  have hout : p.Outside {pageAddress i} := by
    rintro a ha rfl
    exact Memory.not_inUse hi hfree (hcontrol _ ha)
  have htake : (k.takePage i).pcb p = k.pcb p :=
    (Confined.takePage (P := ∅) k hmem).pcb p (Set.notMem_empty p) hout
  have hclear := (Confined.clearPage (P := ∅)
    ((k.takePage i).modifyMm p fun mm ↦ { mm with pgd := pageAddress i }) hmem).pcb p
      (Set.notMem_empty p) hout
  rw [hclear, modifyMm_mm, htake]

theorem createPgd_grown {i : Nat} (hpgd : (k.pcb p).mm.pgd = 0) (hi : i < N_PAGES)
    (hfree : k.memory.memoryPages i = false)
    (hrun : Kernel.createPgd p (pageAddress i, k.takePage i) = some k') :
    Kernel.Grown p [pageAddress i] k k' ∧ k'.HasTables p (pageAddress i) ∧
      k'.memory.tables (pageAddress i) = fun _ ↦ 0 := by
  obtain ⟨hroom, rfl⟩ := trackKernelPage_some hrun
  have hmm := createPgd_mm hcontrol hi hfree
  rw [hmm] at hroom
  set k₂ := ((k.takePage i).modifyMm p fun mm ↦ { mm with pgd := pageAddress i }).clearPage
    (pageAddress i)
  set k₃ := k₂.modifyMm p fun mm ↦ { mm with
    kernelPages := Function.update mm.kernelPages mm.nKernelPages (pageAddress i)
    nKernelPages := mm.nKernelPages + 1 } with hk₃
  have hroot : (k₃.pcb p).mm.pgd = pageAddress i := by
    rw [hk₃, modifyMm_mm, hmm]
  have hblank : k₃.memory.tables (pageAddress i) = fun _ ↦ 0 := Function.update_self ..
  have hchild : ∀ j, k₃.child (pageAddress i) j = none := fun j ↦
    child_of_zero (congrFun hblank j)
  have hused : ∀ a, k₃.memory.InUse a ↔ k.memory.InUse a ∨ a = pageAddress i := takePage_inUse hi
  have hnot : ∀ t, ¬ k.IsTable p t := fun t ht ↦ ht.1 hpgd
  refine ⟨?_, ?_, hblank⟩
  · refine ⟨fun va ↦ ?_, fun t ↦ ?_, List.nodup_singleton _, fun t _ ↦ hnot t, ?_, ?_, ?_, ?_, ?_,
      rfl⟩
    · rw [hroot, hpgd, leafEntry_single hblank, leafEntry_zero]
    · have hne := (pageAddress_pos i).ne'
      have := hnot t
      rw [Kernel.IsTable, hroot, TableTree.isNode_single hchild, List.mem_singleton]
      tauto
    · rw [hk₃, modifyMm_mm, hmm, kernelPageList_append]
      rfl
    · rw [hk₃, modifyMm_mm, hmm]
      rfl
    · rw [List.length_singleton]
      exact Nat.sub_pos_of_lt hroom
    · exact Kernel.takePage_free hi hfree
    · have hnull := (Kernel.NullKept.takePage k i).trans (.clearPage _ i)
      exact ⟨hnull.bytes, hnull.table⟩
  · refine ⟨hroot, wellFormed_single hblank ((hused _).mpr (.inr rfl)), fun a ha ↦ ?_⟩
    exact (hused a).mpr (.inl (hcontrol a ha))

variable (hwf : k.TablesWellFormed p)

include hwf in
/-- The process has a `PGD` afterwards. -/
theorem ensurePgd_grown (hrun : k.ensurePgd p = some k') (hfail : k'.failures = k.failures) :
    ∃ new pgd, Kernel.Grown p new k k' ∧ k'.HasTables p pgd ∧ ∀ virtualAddress,
      k.tablesNeeded p virtualAddress =
        new.length + TableTree.missing k'.child pgd (Kernel.tablePath virtualAddress) := by
  by_cases hpgd : (k.pcb p).mm.pgd = 0
  · rw [ensurePgd_create hpgd] at hrun
    obtain ⟨i, hi, hfree, hpage⟩ | ⟨-, hpage⟩ := k.getFreePage_cases
    · rw [hpage] at hrun
      obtain ⟨hgrown, htables, hblank⟩ := createPgd_grown hcontrol hpgd hi hfree hrun
      refine ⟨[pageAddress i], pageAddress i, hgrown, htables, fun va ↦ ?_⟩
      rw [Kernel.tablesNeeded, if_pos hpgd,
        TableTree.missing_of_blank fun j ↦ child_of_zero (congrFun hblank j)]
      rfl
    · -- a failed allocation would have been counted
      have hcount := createPgd_failures hrun
      rw [hpage] at hcount
      rw [hcount] at hfail
      exact absurd hfail (Nat.succ_ne_self _)
  · rw [Kernel.ensurePgd, if_neg hpgd] at hrun
    obtain rfl := Option.some.inj hrun
    refine ⟨[], (k.pcb p).mm.pgd, .refl k, ⟨rfl, hwf.resolve_left hpgd, hcontrol⟩, fun va ↦ ?_⟩
    rw [Kernel.tablesNeeded, if_neg hpgd, List.length_nil, Nat.zero_add]

include hwf in
theorem ensurePgd_returns (hafford : k.Affords p (k.tablesNeeded p virtualAddress)) :
    ∃ k' pgd, k.ensurePgd p = some k' ∧ k'.failures = k.failures ∧ k'.HasTables p pgd ∧
      k'.Affords p (TableTree.missing k'.child pgd (Kernel.tablePath virtualAddress)) := by
  have hreturns : ∃ k', k.ensurePgd p = some k' ∧ k'.failures = k.failures := by
    by_cases hpgd : (k.pcb p).mm.pgd = 0
    · have hneed : k.tablesNeeded p virtualAddress = 4 := if_pos hpgd
      have henough := hafford.enough
      have hroom := hafford.room
      rw [ensurePgd_create hpgd]
      obtain ⟨i, hi, hfree, hpage⟩ | ⟨hnone, -⟩ := k.getFreePage_cases
      · have hmm := createPgd_mm hcontrol hi hfree
        have hcount : ((((k.takePage i).modifyMm p fun mm ↦
            { mm with pgd := pageAddress i }).clearPage (pageAddress i)).pcb p).mm.nKernelPages <
              MAX_PROCESS_PAGES := by
          rw [hmm]
          show (k.pcb p).mm.nKernelPages < _
          omega
        rw [hpage, Kernel.createPgd]
        dsimp only
        rw [trackKernelPage_eq hcount]
        exact ⟨_, rfl, rfl⟩
      · omega
    · exact ⟨k, if_neg hpgd, rfl⟩
  obtain ⟨k', hrun, hfail⟩ := hreturns
  obtain ⟨new, pgd, hgrown, htables, hneed⟩ := ensurePgd_grown hcontrol hwf hrun hfail
  refine ⟨k', pgd, hrun, hfail, htables, hgrown.affords ?_⟩
  rw [← hneed virtualAddress]
  exact hafford

end

/-! ## The way to the last table -/

/-- `map_page` up to the last table. -/
def Kernel.lastTable (p : PcbPtr) (virtualAddress : Nat) (k : Kernel Pointers) :
    Option (Nat × Kernel Pointers) :=
  (k.ensurePgd p).bind fun k ↦
  (k.mapLevel p (k.pcb p).mm.pgd PGD_SHIFT virtualAddress).bind fun r ↦
  (r.2.mapLevel p r.1 PUD_SHIFT virtualAddress).bind fun r ↦
  r.2.mapLevel p r.1 PMD_SHIFT virtualAddress

theorem mapPage_lastTable (k : Kernel Pointers) (p : PcbPtr) (virtualAddress page : Nat) :
    k.mapPage p virtualAddress page = (k.lastTable p virtualAddress).bind fun r ↦
      (r.2.mapTableEntry r.1 virtualAddress page).trackUserPage p ⟨page, virtualAddress⟩ := by
  rw [mapPage_eq, Kernel.lastTable]
  simp only [Option.bind_assoc]

section

variable (hwf : k.TablesWellFormed p) (hcontrol : ∀ a, p.pageStart = some a → k.memory.InUse a)
include hwf hcontrol

/-- Without a failed allocation the last table is reached, and the missing tables are new. -/
theorem lastTable_grown {pte : Nat} (hrun : k.lastTable p virtualAddress = some (pte, k'))
    (hfail : k'.failures = k.failures) :
    ∃ new pgd, Kernel.Grown p new k k' ∧ k'.HasTables p pgd ∧
      TableTree.walk k'.child pgd (Kernel.tablePath virtualAddress) = some pte ∧
      new.length = k.tablesNeeded p virtualAddress := by
  obtain ⟨k₁, hk₁, hrun⟩ := Option.bind_eq_some_iff.mp hrun
  obtain ⟨⟨pud, k₂⟩, hr₂, hrun⟩ := Option.bind_eq_some_iff.mp hrun
  obtain ⟨⟨pmd, k₃⟩, hr₃, hr₄⟩ := Option.bind_eq_some_iff.mp hrun
  have h₁ := ensurePgd_failures hk₁
  have h₂ : k₁.failures ≤ k₂.failures := mapLevel_failures hr₂
  have h₃ : k₂.failures ≤ k₃.failures := mapLevel_failures hr₃
  have h₄ : k₃.failures ≤ k'.failures := mapLevel_failures hr₄
  obtain ⟨new₁, pgd, hgrown₁, htables₁, hneed₁⟩ := ensurePgd_grown hcontrol hwf hk₁ (by omega)
  rw [htables₁.root] at hr₂
  have hroot : TableTree.walk k₁.child pgd [] = some pgd := rfl
  obtain ⟨new₂, hgrown₂, htables₂, hwalk₂, hneed₂⟩ :=
    mapLevel_grown htables₁ hroot (by decide) hr₂ (by omega)
  obtain ⟨new₃, hgrown₃, htables₃, hwalk₃, hneed₃⟩ :=
    mapLevel_grown htables₂ hwalk₂ (Nat.lt_of_sub_eq_succ rfl) hr₃ (by omega)
  obtain ⟨new₄, hgrown₄, htables₄, hwalk₄, hneed₄⟩ :=
    mapLevel_grown htables₃ hwalk₃ (Nat.lt_of_sub_eq_succ rfl) hr₄ (by omega)
  refine ⟨_, pgd, ((hgrown₁.trans hgrown₂).trans hgrown₃).trans hgrown₄, htables₄, hwalk₄, ?_⟩
  have hlast : TableTree.missing k'.child pte [] = 0 := rfl
  rw [hneed₁, Kernel.tablePath, hneed₂, hneed₃, hneed₄, hlast]
  simp only [List.length_append]
  omega

/-- It is reached if the process affords the missing tables. -/
theorem lastTable_returns (hafford : k.Affords p (k.tablesNeeded p virtualAddress)) :
    ∃ r, k.lastTable p virtualAddress = some r ∧ r.2.failures = k.failures := by
  obtain ⟨k₁, pgd, hk₁, hfail₁, htables₁, hafford₁⟩ := ensurePgd_returns hcontrol hwf hafford
  have hroot : TableTree.walk k₁.child pgd [] = some pgd := rfl
  obtain ⟨pud, k₂, hr₂, hfail₂, htables₂, hwalk₂, hafford₂⟩ :=
    mapLevel_returns htables₁ hroot (by decide) hafford₁
  obtain ⟨pmd, k₃, hr₃, hfail₃, htables₃, hwalk₃, hafford₃⟩ :=
    mapLevel_returns htables₂ hwalk₂ (Nat.lt_of_sub_eq_succ rfl) hafford₂
  obtain ⟨pte, k₄, hr₄, hfail₄, -⟩ :=
    mapLevel_returns htables₃ hwalk₃ (Nat.lt_of_sub_eq_succ rfl) hafford₃
  refine ⟨(pte, k₄), ?_, ((hfail₄.trans hfail₃).trans hfail₂).trans hfail₁⟩
  rw [Kernel.lastTable, hk₁, Option.bind_some, htables₁.root, hr₂, Option.bind_some, hr₃,
    Option.bind_some, hr₄]

end

/-! ## The entry -/

/-- Two virtual addresses agree in the bits 47 to 12. -/
def SamePage (va va' : Nat) : Prop := va / PAGE_SIZE % 2 ^ 36 = va' / PAGE_SIZE % 2 ^ 36

/-- Addresses of one virtual page use the same entries, and only they do. -/
theorem samePage_iff {va va' : Nat} : SamePage va va' ↔
    Kernel.tablePath va = Kernel.tablePath va' ∧
      tableIndex PAGE_SHIFT va = tableIndex PAGE_SHIFT va' := by
  simp only [Kernel.tablePath, Kernel.entryIndex, List.cons.injEq, Fin.mk.injEq, and_true,
    tableIndex_eq]
  unfold SamePage PGD_SHIFT PUD_SHIFT PMD_SHIFT PAGE_SHIFT PAGE_SIZE
  omega

/-- The flags of an entry sit below a page aligned address. -/
theorem aligned_or {page flags : Nat} (halign : page % PAGE_SIZE = 0) (hflags : flags < PAGE_SIZE) :
    page ||| flags = page + flags := by
  have hshift : page = (page / PAGE_SIZE) <<< 12 := by
    rw [Nat.shiftLeft_eq]
    unfold PAGE_SIZE at *
    omega
  rw [hshift]
  exact (Nat.shiftLeft_add_eq_or_of_lt hflags _).symm

/-- What the walk of the mapped address finds is a valid entry of the page. -/
theorem leaf_valid {page : Nat} (halign : page % PAGE_SIZE = 0) (hlt : page < 2 ^ 64) :
    (page ||| MMU_PTE_FLAGS) &&& 1 = 1 ∧ (page ||| MMU_PTE_FLAGS) &&& PAGE_MASK = page := by
  have hflags : MMU_PTE_FLAGS = 0x447 := by decide
  rw [aligned_or halign (by decide), hflags]
  unfold PAGE_SIZE at halign
  refine ⟨?_, ?_⟩
  · rw [Nat.and_one_is_mod]
    omega
  · rw [and_pageMask (by omega)]
    unfold PAGE_SIZE
    omega

section

variable {pte : Nat} (h : k.HasTables p pgd)
  (hwalk : TableTree.walk k.child pgd (Kernel.tablePath virtualAddress) = some pte)
  (htable : k'.memory.tables = Function.update k.memory.tables pte
    (Function.update (k.memory.tables pte) (tableIndex PAGE_SHIFT virtualAddress)
      (page ||| MMU_PTE_FLAGS)))
include h hwalk htable

/-- The way to the last tables does not lead through them. -/
theorem mapEntry_tables {path : List (Fin PTRS_PER_TABLE)} {t : Nat} (hlen : path.length < 3)
    (ht : TableTree.walk k.child pgd path = some t) : k'.memory.tables t = k.memory.tables t := by
  have hne : t ≠ pte := by
    rintro rfl
    have hsame := h.wellFormed.tree hlen.le le_rfl ht hwalk
    rw [hsame] at hlen
    exact absurd hlen (by simp [Kernel.tablePath])
  rw [htable, Function.update_of_ne hne]

theorem mapEntry_walk {path : List (Fin PTRS_PER_TABLE)} (hlen : path.length ≤ 3) :
    TableTree.walk k'.child pgd path = TableTree.walk k.child pgd path := by
  refine TableTree.walk_of_agree (fun ρ a i hρ ha ↦ child_congr ?_) hlen
  rw [mapEntry_tables h hwalk htable hρ ha]

theorem mapEntry_isNode {t : Nat} :
    TableTree.IsNode k'.child pgd 3 t ↔ TableTree.IsNode k.child pgd 3 t := by
  refine exists_congr fun path ↦ and_congr_right fun hlen ↦ ?_
  rw [mapEntry_walk h hwalk htable hlen]

theorem mapEntry_wellFormed (hused : ∀ a, k'.memory.InUse a ↔ k.memory.InUse a) :
    k'.WellFormed pgd := by
  refine ⟨fun t ht ↦ ?_, fun path t i hlen ht hne ↦ ?_, fun path path' a hlen hlen' ha ha' ↦ ?_⟩
  · exact (hused t).mpr (h.wellFormed.inUse t ((mapEntry_isNode h hwalk htable).mp ht))
  · rw [mapEntry_walk h hwalk htable hlen.le] at ht
    have hsame := mapEntry_tables h hwalk htable hlen ht
    rw [hsame] at hne
    rw [child_congr (congrFun hsame i)]
    exact h.wellFormed.entry path t i hlen ht hne
  · rw [mapEntry_walk h hwalk htable hlen] at ha
    rw [mapEntry_walk h hwalk htable hlen'] at ha'
    exact h.wellFormed.tree hlen hlen' ha ha'

/-- The walk of the address ends with the new entry, -/
theorem mapEntry_leafEntry (halign : page % PAGE_SIZE = 0) (hlt : page < 2 ^ 64) :
    k'.leafEntry pgd virtualAddress = some (page ||| MMU_PTE_FLAGS) := by
  rw [Kernel.leafEntry, if_neg h.wellFormed.ne_zero, mapEntry_walk h hwalk htable le_rfl, hwalk,
    Option.bind_some, htable, Function.update_self, Function.update_self,
    if_pos (leaf_valid halign hlt).1]

/-- and the walk of an address of another virtual page ends as before. -/
theorem mapEntry_leafEntry_of_ne {va : Nat} (hne : ¬ SamePage va virtualAddress) :
    k'.leafEntry pgd va = k.leafEntry pgd va := by
  have hdepth : (Kernel.tablePath va).length ≤ 3 := le_rfl
  rw [Kernel.leafEntry, Kernel.leafEntry, if_neg h.wellFormed.ne_zero, if_neg h.wellFormed.ne_zero,
    mapEntry_walk h hwalk htable hdepth]
  cases hold : TableTree.walk k.child pgd (Kernel.tablePath va) with
  | none => rfl
  | some t =>
      have hentry : k'.memory.tables t (tableIndex PAGE_SHIFT va) =
          k.memory.tables t (tableIndex PAGE_SHIFT va) := by
        by_cases ht : t = pte
        · subst ht
          have hpath := h.wellFormed.tree hdepth le_rfl hold hwalk
          have hindex : tableIndex PAGE_SHIFT va ≠ tableIndex PAGE_SHIFT virtualAddress :=
            fun hindex ↦ hne (samePage_iff.mpr ⟨hpath, hindex⟩)
          rw [htable, Function.update_self, Function.update_of_ne hindex]
        · rw [htable, Function.update_of_ne ht]
      rw [Option.bind_some, Option.bind_some, hentry]

end

/-! ## `map_page` -/

/-- From `k` to `k'` exactly one translation has been installed: the walk of the address ends with
an entry of the page, and the walks of the other virtual pages end as before.  The tables that had
to be created are at the end of `kernel_pages`, and the mapping is at the end of `user_pages`. -/
structure MapsOne (p : PcbPtr) (virtualAddress page : Nat) (k k' : Kernel Pointers) : Prop where
  leafEntry : k'.leafEntry (k'.pcb p).mm.pgd virtualAddress = some (page ||| MMU_PTE_FLAGS)
  translate : k'.translate p virtualAddress = some (page + virtualAddress % PAGE_SIZE)
  others : ∀ va, ¬ SamePage va virtualAddress →
    k'.leafEntry (k'.pcb p).mm.pgd va = k.leafEntry (k.pcb p).mm.pgd va ∧
      k'.translate p va = k.translate p va
  wellFormed : k'.TablesWellFormed p
  newTables : ∃ new, new.Nodup ∧ (∀ t, t ∈ new ↔ k'.IsTable p t ∧ ¬ k.IsTable p t) ∧
    new.length = k.tablesNeeded p virtualAddress ∧
    (k'.pcb p).mm.kernelPageList = (k.pcb p).mm.kernelPageList ++ new
  userPages : (k'.pcb p).mm.userPageList = (k.pcb p).mm.userPageList ++ [⟨page, virtualAddress⟩]

theorem trackUserPage_some {userPage : UserPage} (h : k.trackUserPage p userPage = some k') :
    (k.pcb p).mm.nUserPages < MAX_PROCESS_PAGES ∧ k' = k.modifyMm p fun mm ↦ { mm with
      userPages := Function.update mm.userPages mm.nUserPages userPage
      nUserPages := mm.nUserPages + 1 } := by
  unfold Kernel.trackUserPage at h
  split_ifs at h with hroom
  exact ⟨hroom, (Option.some.inj h).symm⟩

section

variable (hwf : k.TablesWellFormed p) (hcontrol : ∀ a, p.pageStart = some a → k.memory.InUse a)
include hwf hcontrol

/-- `map_page`, when no allocation fails. -/
theorem mapPage_grown (hrun : k.mapPage p virtualAddress page = some k')
    (hfail : k'.failures = k.failures) (halign : page % PAGE_SIZE = 0) (hlt : page < 2 ^ 64) :
    MapsOne p virtualAddress page k k' ∧ (k.pcb p).mm.nUserPages < MAX_PROCESS_PAGES ∧
      k.Affords p (k.tablesNeeded p virtualAddress) ∧ k.NullKept k' := by
  rw [mapPage_lastTable] at hrun
  obtain ⟨⟨pte, k₁⟩, hr, htrack⟩ := Option.bind_eq_some_iff.mp hrun
  have hmono : k₁.failures = k'.failures := (trackUserPage_failures htrack).symm
  obtain ⟨new, pgd, hgrown, htables, hwalk, hneed⟩ :=
    lastTable_grown hwf hcontrol hr (hmono.trans hfail)
  obtain ⟨hroom, rfl⟩ := trackUserPage_some htrack
  set k₂ := (k₁.mapTableEntry pte virtualAddress page).modifyMm p fun mm ↦ { mm with
    userPages := Function.update mm.userPages mm.nUserPages ⟨page, virtualAddress⟩
    nUserPages := mm.nUserPages + 1 } with hk₂
  have hmm : (k₂.pcb p).mm = { (k₁.pcb p).mm with
      userPages := Function.update (k₁.pcb p).mm.userPages (k₁.pcb p).mm.nUserPages
        ⟨page, virtualAddress⟩
      nUserPages := (k₁.pcb p).mm.nUserPages + 1 } := modifyMm_mm _ p _
  have hroot : (k₂.pcb p).mm.pgd = pgd := by
    rw [hmm]
    exact htables.root
  have hentry : k₂.memory.tables = Function.update k₁.memory.tables pte
      (Function.update (k₁.memory.tables pte) (tableIndex PAGE_SHIFT virtualAddress)
        (page ||| MMU_PTE_FLAGS)) := rfl
  have hleaf : k₂.leafEntry (k₂.pcb p).mm.pgd virtualAddress = some (page ||| MMU_PTE_FLAGS) := by
    rw [hroot]
    exact mapEntry_leafEntry htables hwalk hentry halign hlt
  have hothers : ∀ va, ¬ SamePage va virtualAddress →
      k₂.leafEntry (k₂.pcb p).mm.pgd va = k.leafEntry (k.pcb p).mm.pgd va := by
    intro va hne
    rw [hroot, mapEntry_leafEntry_of_ne htables hwalk hentry hne, ← hgrown.leafEntry, htables.root]
  have hkeep : ∀ t, k₂.IsTable p t ↔ k₁.IsTable p t := by
    intro t
    rw [Kernel.IsTable, Kernel.IsTable, hroot, htables.root, mapEntry_isNode htables hwalk hentry]
  have hcount := hgrown.nUserPages
  refine ⟨⟨hleaf, ?_, fun va hne ↦ ⟨hothers va hne, translate_congr (hothers va hne)⟩, ?_, ?_, ?_⟩,
    ?_, ⟨?_, ?_⟩, ?_⟩
  · rw [translate_eq, hleaf, Option.map_some, (leaf_valid halign hlt).2]
  · right
    rw [hroot]
    exact mapEntry_wellFormed htables hwalk hentry fun a ↦ Iff.rfl
  · refine ⟨new, hgrown.nodup, fun t ↦ ?_, hneed, ?_⟩
    · rw [hkeep, hgrown.table]
      have := hgrown.fresh t
      tauto
    · rw [hmm, ← hgrown.kernelPages]
      rfl
  · rw [hmm, userPageList_append, hgrown.userPages]
  · rw [← hcount]
    exact hroom
  · have hfree := hgrown.free
    omega
  · rw [← hneed]
    exact hgrown.room
  · have hpte := (htables.wellFormed.inUse pte ⟨_, le_rfl, hwalk⟩).ne_zero
    exact ⟨hgrown.null.bytes, (Function.update_of_ne hpte.symm _ _).trans hgrown.null.table⟩

/-- `map_page` returns if the process affords the missing tables, and if there is room for the
mapping in `user_pages`. -/
theorem mapPage_returns (hafford : k.Affords p (k.tablesNeeded p virtualAddress))
    (huser : (k.pcb p).mm.nUserPages < MAX_PROCESS_PAGES) :
    ∃ k', k.mapPage p virtualAddress page = some k' ∧ k'.failures = k.failures := by
  obtain ⟨⟨pte, k₁⟩, hr, hfail⟩ := lastTable_returns hwf hcontrol hafford
  obtain ⟨new, pgd, hgrown, -⟩ := lastTable_grown hwf hcontrol hr hfail
  have hcount := hgrown.nUserPages
  have hroom : ((k₁.mapTableEntry pte virtualAddress page).pcb p).mm.nUserPages <
      MAX_PROCESS_PAGES := by
    show (k₁.pcb p).mm.nUserPages < _
    omega
  rw [mapPage_lastTable, hr, Option.bind_some, trackUserPage_eq hroom]
  exact ⟨_, rfl, hfail⟩

end

/-- Where `user_pages` is full, the mapping would be written behind it. -/
theorem mapPage_full {k : Kernel Pointers} {p : PcbPtr} {virtualAddress page : Nat}
    (hwf : k.TablesWellFormed p) (hcontrol : ∀ a, p.pageStart = some a → k.memory.InUse a)
    (hafford : k.Affords p (k.tablesNeeded p virtualAddress))
    (hfull : MAX_PROCESS_PAGES ≤ (k.pcb p).mm.nUserPages) :
    k.mapPage p virtualAddress page = none := by
  obtain ⟨⟨pte, k₁⟩, hr, hfail⟩ := lastTable_returns hwf hcontrol hafford
  obtain ⟨new, pgd, hgrown, -⟩ := lastTable_grown hwf hcontrol hr hfail
  rw [mapPage_lastTable, hr, Option.bind_some]
  refine if_neg ?_
  show ¬ (k₁.pcb p).mm.nUserPages < _
  rw [hgrown.nUserPages]
  omega

/-- Mapping a page installs exactly one translation, as long as the arrays of the `mm_struct` have
room for what is entered. -/
theorem map_page (k : Kernel Pointers) (p : PcbPtr) (virtualAddress page : Nat)
    (hwf : k.TablesWellFormed p) (hcontrol : ∀ a, p.pageStart = some a → k.memory.InUse a)
    (halign : page % PAGE_SIZE = 0) (hlt : page < 2 ^ 64)
    (henough : k.tablesNeeded p virtualAddress ≤ k.memory.free)
    (hkernel : k.tablesNeeded p virtualAddress ≤ MAX_PROCESS_PAGES - (k.pcb p).mm.nKernelPages)
    (huser : (k.pcb p).mm.nUserPages < MAX_PROCESS_PAGES) :
    ∃ k', k.mapPage p virtualAddress page = some k' ∧ MapsOne p virtualAddress page k k' := by
  obtain ⟨k', hrun, hfail⟩ := mapPage_returns hwf hcontrol ⟨henough, hkernel⟩ huser
  exact ⟨k', hrun, (mapPage_grown hwf hcontrol hrun hfail halign hlt).1⟩

/-- A page is mapped for the first time in a process. -/
theorem map_page_init : let k := Kernel.boot .roundRobin fun _ ↦ 0
    ∃ k', k.mapPage .initProcess 0x12345678000 (pageAddress 7) = some k' ∧
      MapsOne .initProcess 0x12345678000 (pageAddress 7) k k' := by
  intro k
  have hfree : freeCells k.memory.memoryPages 4 ≤ k.memory.free := freeCells_mono (by decide)
  have hfour : freeCells k.memory.memoryPages 4 = 4 := by decide
  refine map_page k .initProcess _ _ (.inl rfl) nofun (pageAddress_mod 7) (by decide) ?_ ?_ ?_
  · exact (tablesNeeded_le k _ _).trans (hfour ▸ hfree)
  · exact (tablesNeeded_le k _ _).trans (by decide)
  · decide

/-- Every process in user mode has 16 pages: the mapping of one more is written behind
`user_pages`. -/
theorem map_page_false : ¬ ∀ (k : Kernel Pointers) (p : PcbPtr) (virtualAddress page : Nat),
    k.TablesWellFormed p → (∀ a, p.pageStart = some a → k.memory.InUse a) →
    page % PAGE_SIZE = 0 → page < 2 ^ 64 → k.tablesNeeded p virtualAddress ≤ k.memory.free →
    ∃ k', k.mapPage p virtualAddress page = some k' ∧ MapsOne p virtualAddress page k k' := by
  intro hall
  let _ := someCode
  obtain ⟨s, hreach, hu, -, hfree⟩ := userRun_free (le_refl 21)
  have hsound := hreach.sound
  have hlive := hsound.owned.users hu
  obtain ⟨us, ts, hus, hts, -, -, hspace⟩ := hsound.fullSpace hu
  have hwf := hsound.tablesWellFormed hlive
  have hcontrol := fun a ↦ hsound.control hlive (a := a)
  have hneed := tablesNeeded_le s.kernel s.kernel.currentProcess (16 * PAGE_SIZE)
  have henough : s.kernel.tablesNeeded s.kernel.currentProcess (16 * PAGE_SIZE) ≤
      s.kernel.memory.free := by omega
  have hcount := hspace.nKernelPages
  have hmax : MAX_PROCESS_PAGES = 16 := rfl
  obtain ⟨k', hrun, -⟩ := hall s.kernel _ (16 * PAGE_SIZE) (pageAddress 7) hwf hcontrol
    (pageAddress_mod 7) (by decide) henough
  rw [mapPage_full hwf hcontrol ⟨henough, by omega⟩ (hspace.nUserPages.trans hus).ge] at hrun
  cases hrun

end

end DemosOS
