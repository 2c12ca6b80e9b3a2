import DemosOS.Mem.AllOrNothing

/-!
# The image of a program

`copy_code` takes sixteen pages one after the other, maps each of them at the next virtual page
and copies a part of the buffer to it.  What has been done by then is `Imaged`: it holds of the
tables of any process, whatever else they translate, and one more round extends it.
-/

namespace DemosOS

open Lib Kernel

variable {k k₁ k' : Kernel Pointers} {p : PcbPtr} {virtualAddress page : Nat}

/-! ## Bytes that stay -/

/-- The byte is in no free page. -/
def Kernel.Settled (k : Kernel Pointers) (x : Nat) : Prop :=
  ∀ i < N_PAGES, pageAddress i ≤ x → x < pageAddress i + PAGE_SIZE → k.memory.memoryPages i = true

/-- From `k` to `k'` pages have been taken, and if no allocation has failed, only bytes in pages
that were free have been written. -/
structure Kernel.Spares (k k' : Kernel Pointers) : Prop where
  failures : k.failures ≤ k'.failures
  used : ∀ i, k.memory.memoryPages i = true → k'.memory.memoryPages i = true
  bytes : k'.failures = k.failures → ∀ x, k.Settled x → k'.memory.bytes x = k.memory.bytes x

/-- A page in use keeps its bytes. -/
theorem Kernel.settled_page {i x : Nat} (hused : k.memory.memoryPages i = true)
    (hx : x < PAGE_SIZE) : k.Settled (pageAddress i + x) := by
  intro j _ hle hlt
  rw [page_unique hle hlt (Nat.le_add_right _ x) (Nat.add_lt_add_left hx _)]
  exact hused

namespace Kernel.Spares

theorem refl (k : Kernel Pointers) : k.Spares k := ⟨le_rfl, fun _ h ↦ h, fun _ _ _ ↦ rfl⟩

theorem settled (h : k.Spares k') {x : Nat} (hx : k.Settled x) : k'.Settled x :=
  fun i hi hle hlt ↦ h.used i (hx i hi hle hlt)

theorem trans (h : k.Spares k₁) (h' : k₁.Spares k') : k.Spares k' where
  failures := h.failures.trans h'.failures
  used i hi := h'.used i (h.used i hi)
  bytes hfail x hx := by
    have hfirst := h.failures
    have hsecond := h'.failures
    exact (h'.bytes (by omega) x (h.settled hx)).trans (h.bytes (by omega) x hx)

/-- A free page is taken, and only this page is written. -/
theorem of_take {i : Nat} (hi : i < N_PAGES) (hfree : k.memory.memoryPages i = false)
    (hfail : k.failures ≤ k'.failures)
    (hused : ∀ j, (k.takePage i).memory.memoryPages j = true → k'.memory.memoryPages j = true)
    (hbytes : k'.failures = k.failures → ∀ x, k.Settled x →
      ¬ (pageAddress i ≤ x ∧ x < pageAddress i + PAGE_SIZE) →
      k'.memory.bytes x = k.memory.bytes x) : k.Spares k' where
  failures := hfail
  used j hj := by
    refine hused j ?_
    rw [takePage_marks]
    split_ifs
    · rfl
    · exact hj
  bytes hsame x hx := by
    refine hbytes hsame x hx fun hin ↦ ?_
    rw [hx i hi hin.1 hin.2] at hfree
    cases hfree

/-- The page is cleared, once or twice. -/
theorem of_cleared {i : Nat} (hi : i < N_PAGES) (hfree : k.memory.memoryPages i = false)
    (hfail : k'.failures = k.failures)
    (hmarks : k'.memory.memoryPages = (k.takePage i).memory.memoryPages)
    (hbytes : k'.memory.bytes = ((k.takePage i).clearPage (pageAddress i)).memory.bytes) :
    k.Spares k' := by
  refine .of_take hi hfree hfail.ge (fun j hj ↦ hmarks ▸ hj) fun _ x _ hout ↦ ?_
  rw [hbytes]
  exact (if_neg hout).trans (if_neg hout)

/-- An allocation has failed. -/
theorem of_failed (hfail : k'.failures = k.failures + 1)
    (hmarks : k'.memory.memoryPages = k.memory.memoryPages) : k.Spares k' where
  failures := hfail ▸ Nat.le_succ _
  used _ hi := hmarks ▸ hi
  bytes hsame := absurd (hsame.symm.trans hfail) (Nat.succ_ne_self _).symm

end Kernel.Spares

theorem takePage_spares {i : Nat} (hi : i < N_PAGES) (hfree : k.memory.memoryPages i = false) :
    k.Spares (k.takePage i) :=
  .of_take hi hfree le_rfl (fun _ h ↦ h) fun _ _ _ hout ↦ if_neg hout

theorem ensurePgd_spares (hrun : k.ensurePgd p = some k') : k.Spares k' := by
  by_cases hpgd : (k.pcb p).mm.pgd = 0
  · rw [ensurePgd_create hpgd] at hrun
    obtain ⟨i, hi, hfree, hpage⟩ | ⟨-, hpage⟩ := k.getFreePage_cases
    · rw [hpage, Kernel.createPgd] at hrun
      obtain ⟨-, rfl⟩ := trackKernelPage_some hrun
      exact .of_cleared hi hfree rfl rfl rfl
    · rw [hpage, Kernel.createPgd] at hrun
      obtain ⟨-, rfl⟩ := trackKernelPage_some hrun
      exact .of_failed rfl rfl
  · rw [Kernel.ensurePgd, if_neg hpgd] at hrun
    obtain rfl := Option.some.inj hrun
    exact .refl k

theorem mapLevel_spares {table shift : Nat} {r : Nat × Kernel Pointers}
    (hrun : k.mapLevel p table shift virtualAddress = some r) : k.Spares r.2 := by
  by_cases hentry : k.memory.tables table (tableIndex shift virtualAddress) = 0
  · rw [mapLevel_create hentry] at hrun
    obtain ⟨k', hk', rfl⟩ := Option.map_eq_some_iff.mp hrun
    obtain ⟨i, hi, hfree, hpage⟩ | ⟨-, hpage⟩ := k.getFreePage_cases
    · rw [hpage] at hk'
      obtain ⟨-, rfl⟩ := trackKernelPage_some hk'
      exact .of_cleared hi hfree rfl rfl rfl
    · rw [hpage] at hk'
      obtain ⟨-, rfl⟩ := trackKernelPage_some hk'
      exact .of_failed rfl rfl
  · rw [mapLevel_follow hentry] at hrun
    rw [← Option.some.inj hrun]
    exact .refl k

/-- `map_page` writes no bytes but those of the pages that become tables. -/
theorem mapPage_spares (hrun : k.mapPage p virtualAddress page = some k') : k.Spares k' := by
  rw [mapPage_eq] at hrun
  obtain ⟨k₁, hk₁, hrun⟩ := Option.bind_eq_some_iff.mp hrun
  obtain ⟨r₂, hr₂, hrun⟩ := Option.bind_eq_some_iff.mp hrun
  obtain ⟨r₃, hr₃, hrun⟩ := Option.bind_eq_some_iff.mp hrun
  obtain ⟨r₄, hr₄, htrack⟩ := Option.bind_eq_some_iff.mp hrun
  have h₂ := (ensurePgd_spares hk₁).trans (mapLevel_spares hr₂)
  have h₄ := (h₂.trans (mapLevel_spares hr₃)).trans (mapLevel_spares hr₄)
  obtain ⟨-, rfl⟩ := trackUserPage_some htrack
  exact ⟨h₄.failures, h₄.used, h₄.bytes⟩

/-- The pages that `map_page` takes are the missing tables. -/
theorem mapPage_free (hwf : k.TablesWellFormed p)
    (hcontrol : ∀ a, p.pageStart = some a → k.memory.InUse a)
    (hrun : k.mapPage p virtualAddress page = some k') (hfail : k'.failures = k.failures) :
    k'.memory.free + k.tablesNeeded p virtualAddress = k.memory.free := by
  rw [mapPage_lastTable] at hrun
  obtain ⟨⟨pte, k₁⟩, hr, htrack⟩ := Option.bind_eq_some_iff.mp hrun
  have hsame : k₁.failures = k'.failures := (trackUserPage_failures htrack).symm
  obtain ⟨new, pgd, hgrown, -, -, hneed⟩ := lastTable_grown hwf hcontrol hr (hsame.trans hfail)
  obtain ⟨-, rfl⟩ := trackUserPage_some htrack
  rw [← hneed]
  exact hgrown.free

/-! ## The pages so far -/

/-- The pages `us` are mapped at the first virtual pages of the process and hold the image of the
buffer as it was in `k₀`. -/
structure Imaged (p : PcbPtr) (buffer size : Nat) (k₀ : Kernel Pointers) (us : List Nat)
    (k : Kernel Pointers) : Prop where
  wellFormed : k.TablesWellFormed p
  control : ∀ a, p.pageStart = some a → k.memory.InUse a
  nUserPages : (k.pcb p).mm.nUserPages = us.length
  nodup : us.Nodup
  fresh : ∀ a ∈ us, ∃ i < N_PAGES, a = pageAddress i ∧ k₀.memory.memoryPages i = false ∧
    k.memory.memoryPages i = true
  leaf : ∀ j (h : j < us.length), k.leafEntry (k.pcb p).mm.pgd (j * PAGE_SIZE) =
    some (us[j] ||| MMU_PTE_FLAGS)
  others : ∀ va, (∀ j < us.length, ¬ SamePage va (j * PAGE_SIZE)) →
    k.leafEntry (k.pcb p).mm.pgd va = k₀.leafEntry (k₀.pcb p).mm.pgd va
  content : ∀ j (h : j < us.length), ∀ x < PAGE_SIZE,
    k.memory.bytes (us[j] + x) = image k₀ buffer size j x
  spares : k₀.Spares k
  failures : k.failures = k₀.failures

/-- The last table of the first virtual pages is the same. -/
theorem tablePath_page {j : Nat} (hj : j < 16) :
    Kernel.tablePath (j * PAGE_SIZE) = Kernel.tablePath (0 * PAGE_SIZE) := by
  simp only [Kernel.tablePath, Kernel.entryIndex, List.cons.injEq, Fin.mk.injEq, and_true,
    tableIndex_eq]
  unfold PGD_SHIFT PUD_SHIFT PMD_SHIFT PAGE_SIZE
  omega

theorem samePage_page {j j' : Nat} (hj : j < 16) (hj' : j' < 16) :
    SamePage (j * PAGE_SIZE) (j' * PAGE_SIZE) ↔ j = j' := by
  unfold SamePage PAGE_SIZE
  omega

/-- With a translation there are no missing tables. -/
theorem tablesNeeded_of_leaf {va va' e : Nat} (h : k.leafEntry (k.pcb p).mm.pgd va = some e)
    (hpath : Kernel.tablePath va' = Kernel.tablePath va) : k.tablesNeeded p va' = 0 := by
  rw [Kernel.leafEntry] at h
  split_ifs at h with hpgd
  obtain ⟨pte, hwalk, -⟩ := Option.bind_eq_some_iff.mp h
  rw [Kernel.tablesNeeded, if_neg hpgd, hpath]
  exact TableTree.missing_of_walk hwalk

namespace Imaged

variable {k₀ : Kernel Pointers} {buffer size : Nat} {us : List Nat}

/-- Before the first round. -/
theorem start (hwf : k.TablesWellFormed p) (hcontrol : ∀ a, p.pageStart = some a → k.memory.InUse a)
    (hnone : (k.pcb p).mm.nUserPages = 0) : Imaged p buffer size k [] k where
  wellFormed := hwf
  control := hcontrol
  nUserPages := hnone
  nodup := List.nodup_nil
  fresh := nofun
  leaf _ h := absurd h (Nat.not_lt_zero _)
  others _ _ := rfl
  content _ h := absurd h (Nat.not_lt_zero _)
  spares := .refl k
  failures := rfl

/-- The first round completes the tables. -/
theorem tablesNeeded (h : Imaged p buffer size k₀ us k) (hus : us ≠ []) {j : Nat} (hj : j < 16) :
    k.tablesNeeded p (j * PAGE_SIZE) = 0 :=
  tablesNeeded_of_leaf (h.leaf 0 (List.length_pos_iff.mpr hus)) (tablePath_page hj)

/-- One round: a page that was free is added. -/
theorem add (h : Imaged p buffer size k₀ us k) (hlt : us.length < 16)
    (hbuffer : ∀ x < size, k₀.Settled (buffer + x)) {i : Nat} (hi : i < N_PAGES)
    (hfree : k.memory.memoryPages i = false)
    (hmap : (k.takePage i).mapPage p (us.length * PAGE_SIZE) (pageAddress i) = some k₁)
    (hfail : k₁.failures = (k.takePage i).failures) :
    Imaged p buffer size k₀ (us ++ [pageAddress i]) (k₁.fillPage buffer size us.length i) := by
  obtain ⟨hwf, -⟩ := takePage_tables h.control hi hfree h.wellFormed
  have hcontrol : ∀ a, p.pageStart = some a → (k.takePage i).memory.InUse a := fun a ha ↦
    (takePage_inUse hi a).mpr (.inl (h.control a ha))
  have haddress := pageAddress_lt hi
  obtain ⟨hmaps, -, -, -⟩ := mapPage_grown hwf hcontrol hmap hfail (pageAddress_mod i)
    (by unfold HIGH_MEMORY at haddress; omega)
  have hmapped := mapPage_spares hmap
  have hround : k.Spares k₁ := (takePage_spares hi hfree).trans hmapped
  have hfailures : k₁.failures = k.failures := hfail
  have hused : k₁.memory.memoryPages i = true := by
    refine hmapped.used i ?_
    rw [takePage_marks, if_pos rfl]
  have hleaf : ∀ va, ¬ SamePage va (us.length * PAGE_SIZE) →
      k₁.leafEntry (k₁.pcb p).mm.pgd va = k.leafEntry (k.pcb p).mm.pgd va := fun va hne ↦
    (hmaps.others va hne).1.trans (takePage_leafEntry h.control hi hfree h.wellFormed va)
  have hzero : ∀ x < PAGE_SIZE, k₁.memory.bytes (pageAddress i + x) = 0 := by
    intro x hx
    have hsettled : (k.takePage i).Settled (pageAddress i + x) :=
      Kernel.settled_page (by rw [takePage_marks, if_pos rfl]) hx
    rw [hmapped.bytes hfail _ hsettled]
    exact if_pos ⟨Nat.le_add_right _ x, Nat.add_lt_add_left hx _⟩
  set k₂ := k₁.fillPage buffer size us.length i with hk₂
  obtain ⟨f, hf⟩ := fillPage_eq buffer size us.length i k₁
  rw [← hk₂] at hf
  have hspares : k.Spares k₂ := by
    refine .of_take hi hfree ?_ ?_ fun _ x hx hout ↦ ?_
    · rw [hf]
      exact hfailures.ge
    · rw [hf]
      exact hmapped.used
    · exact (fillPage_bytes_of_out hout).trans (hround.bytes hfailures x hx)
  have hfailures₂ : k₂.failures = k.failures := by
    rw [hf]
    exact hfailures
  have hlength : (us ++ [pageAddress i]).length = us.length + 1 := by simp
  refine ⟨?_, ?_, ?_, ?_, fun a ha ↦ ?_, fun j hj ↦ ?_, fun va hva ↦ ?_, fun j hj x hx ↦ ?_,
    h.spares.trans hspares, hfailures₂.trans h.failures⟩
  · rw [hf]
    exact hmaps.wellFormed.imp id fun hroot ↦ ⟨hroot.inUse, hroot.entry, hroot.tree⟩
  · rw [hf]
    exact (mapPage_records hcontrol hmap).control
  · have hcount := congrArg List.length hmaps.userPages
    rw [List.length_append, takePage_pcb h.control hi hfree] at hcount
    simp only [MmStruct.userPageList, List.length_map, List.length_range, List.length_singleton]
      at hcount
    rw [hf, hlength, ← h.nUserPages]
    exact hcount
  · refine List.nodup_append.mpr ⟨h.nodup, List.nodup_singleton _, fun a ha b hb ↦ ?_⟩
    obtain ⟨i', -, rfl, -, hin⟩ := h.fresh a ha
    rw [List.mem_singleton.mp hb]
    intro heq
    rw [pageAddress_inj.mp heq, hfree] at hin
    cases hin
  · rcases List.mem_append.mp ha with ha | ha
    · obtain ⟨i', hi', rfl, hfree', hin⟩ := h.fresh a ha
      exact ⟨i', hi', rfl, hfree', hspares.used i' hin⟩
    · refine ⟨i, hi, List.mem_singleton.mp ha, ?_, ?_⟩
      · cases hbefore : k₀.memory.memoryPages i with
        | false => rfl
        | true => exact absurd (hfree.symm.trans (h.spares.used i hbefore)) Bool.false_ne_true
      · rw [hf]
        exact hused
  · have hsame : k₂.leafEntry (k₂.pcb p).mm.pgd (j * PAGE_SIZE) =
        k₁.leafEntry (k₁.pcb p).mm.pgd (j * PAGE_SIZE) := by
      rw [hf]
      rfl
    rw [hsame]
    rcases Nat.lt_succ_iff_lt_or_eq.mp (hlength ▸ hj) with hj' | rfl
    · rw [hleaf _ fun hpage ↦ hj'.ne ((samePage_page (by omega) hlt).mp hpage), h.leaf j hj',
        List.getElem_append_left hj']
    · rw [hmaps.leafEntry, List.getElem_concat_length rfl]
  · have hsame : k₂.leafEntry (k₂.pcb p).mm.pgd va = k₁.leafEntry (k₁.pcb p).mm.pgd va := by
      rw [hf]
      rfl
    rw [hsame, hleaf va (hva us.length (by omega))]
    exact h.others va fun j hj ↦ hva j (by omega)
  · rcases Nat.lt_succ_iff_lt_or_eq.mp (hlength ▸ hj) with hj' | rfl
    · obtain ⟨i', -, haddr, -, hin⟩ := h.fresh us[j] (List.getElem_mem hj')
      rw [List.getElem_append_left hj', ← h.content j hj' x hx, haddr]
      exact hspares.bytes hfailures₂ _ (Kernel.settled_page hin hx)
    · rw [List.getElem_concat_length rfl, hk₂, fillPage_bytes hzero hx, image, image]
      split_ifs with hin
      · exact (h.spares.trans hround).bytes (hfailures.trans h.failures) _ (hbuffer _ hin)
      · rfl

/-- One round of `copy_code`, with a page for itself and pages for the missing tables. -/
theorem round (h : Imaged p buffer size k₀ us k) (hlt : us.length < 16)
    (hbuffer : ∀ x < size, k₀.Settled (buffer + x))
    (henough : k.tablesNeeded p (us.length * PAGE_SIZE) + 1 ≤ k.memory.free)
    (hroom : k.tablesNeeded p (us.length * PAGE_SIZE) ≤
      MAX_PROCESS_PAGES - (k.pcb p).mm.nKernelPages) (l : List Nat) :
    ∃ a k₂, k.copyCodePages p buffer size (us.length :: l) (min (us.length * PAGE_SIZE) size) =
        k₂.copyCodePages p buffer size l (min ((us.length + 1) * PAGE_SIZE) size) ∧
      Imaged p buffer size k₀ (us ++ [a]) k₂ ∧
      k₂.memory.free + (k.tablesNeeded p (us.length * PAGE_SIZE) + 1) = k.memory.free := by
  have huser : (k.pcb p).mm.nUserPages < MAX_PROCESS_PAGES := h.nUserPages ▸ hlt
  obtain ⟨i, hi, hfree, k₁, hmap, hfail, hrun⟩ :=
    allocateUserPage_maps h.wellFormed h.control henough hroom huser
  refine ⟨pageAddress i, k₁.fillPage buffer size us.length i, ?_,
    h.add hlt hbuffer hi hfree hmap hfail, ?_⟩
  · rw [copyCodePages_cons, hrun, Option.bind_some, copyCodeRound_fillPage]
  · obtain ⟨hwf, hneed⟩ := takePage_tables h.control hi hfree h.wellFormed
    have hcontrol : ∀ a, p.pageStart = some a → (k.takePage i).memory.InUse a := fun a ha ↦
      (takePage_inUse hi a).mpr (.inl (h.control a ha))
    have hpages := mapPage_free hwf hcontrol hmap hfail
    have hone := Kernel.takePage_free hi hfree
    obtain ⟨f, hf⟩ := fillPage_eq buffer size us.length i k₁
    have hcount : (k₁.fillPage buffer size us.length i).memory.free = k₁.memory.free := by
      rw [hf]
      rfl
    rw [hneed] at hpages
    omega

/-- The rounds after the first one need a page each. -/
theorem rounds (h : Imaged p buffer size k₀ us k) (hus : us ≠ []) {m : Nat}
    (hlt : us.length + m ≤ 16) (hbuffer : ∀ x < size, k₀.Settled (buffer + x))
    (henough : m ≤ k.memory.free) :
    ∃ us' k', us'.length = us.length + m ∧ Imaged p buffer size k₀ us' k' ∧
      k.copyCodePages p buffer size (List.range' us.length m) (min (us.length * PAGE_SIZE) size) =
        some k' := by
  induction m generalizing us k with
  | zero => exact ⟨us, k, rfl, h, rfl⟩
  | succ m ih =>
      have hneed := h.tablesNeeded hus (j := us.length) (by omega)
      obtain ⟨a, k₂, hrun, hnext, hcount⟩ := h.round (by omega) hbuffer (by omega)
        (hneed ▸ Nat.zero_le _) (List.range' (us.length + 1) m)
      have hlength : (us ++ [a]).length = us.length + 1 := by simp
      obtain ⟨us', k', hlength', himaged, hrest⟩ :=
        ih hnext (by simp) (by omega) (by omega)
      rw [hlength] at hlength' hrest
      refine ⟨us', k', by omega, himaged, ?_⟩
      rw [List.range'_succ, hrun, hrest]

end Imaged

/-! ## `copy_code` -/

/-- The buffer is in no page that `copy_code` writes: neither in a free page, nor in a table or the
control block of the process. -/
def Kernel.BufferApart (k : Kernel Pointers) (p : PcbPtr) (buffer size : Nat) : Prop :=
  ∀ x < size, ∀ i < N_PAGES, pageAddress i ≤ buffer + x → buffer + x < pageAddress i + PAGE_SIZE →
    k.memory.memoryPages i = true ∧ ¬ k.IsTable p (pageAddress i) ∧
      p.pageStart ≠ some (pageAddress i)

/-- From `k` to `k'` the process has been given the image of a program. -/
structure ImageBuilt (p : PcbPtr) (buffer size : Nat) (k k' : Kernel Pointers) : Prop where
  pages : ∃ us : List Nat, us.length = 16 ∧ us.Nodup ∧
    (∀ a ∈ us, ∃ i < N_PAGES, a = pageAddress i ∧ k.memory.memoryPages i = false ∧
      k'.memory.memoryPages i = true) ∧
    ∀ j (h : j < us.length), k'.translate p (j * PAGE_SIZE) = some us[j]
  content : ∀ virtualAddress < 16 * PAGE_SIZE, ∃ a, k'.translate p virtualAddress = some a ∧
    k'.memory.bytes a =
      if virtualAddress < size then k.memory.bytes (buffer + virtualAddress) else 0
  others : ∀ virtualAddress, (∀ j < 16, ¬ SamePage virtualAddress (j * PAGE_SIZE)) →
    k'.translate p virtualAddress = k.translate p virtualAddress
  failures : k'.failures = k.failures

/-- The translation of an address of one of the pages. -/
theorem Imaged.translate {k₀ : Kernel Pointers} {buffer size : Nat} {us : List Nat}
    (h : Imaged p buffer size k₀ us k) {va : Nat} (hva : va / PAGE_SIZE < us.length) :
    k.translate p va = some (us[va / PAGE_SIZE] + va % PAGE_SIZE) := by
  obtain ⟨i, hi, haddr, -⟩ := h.fresh us[va / PAGE_SIZE] (List.getElem_mem hva)
  have haddress := pageAddress_lt hi
  have hpage : SamePage va (va / PAGE_SIZE * PAGE_SIZE) := by
    unfold SamePage PAGE_SIZE
    omega
  obtain ⟨hpath, hindex⟩ := samePage_iff.mp hpage
  have hleaf : k.leafEntry (k.pcb p).mm.pgd va = some (us[va / PAGE_SIZE] ||| MMU_PTE_FLAGS) := by
    rw [← h.leaf _ hva, Kernel.leafEntry, Kernel.leafEntry, hpath, hindex]
  have halign : us[va / PAGE_SIZE] % PAGE_SIZE = 0 := haddr ▸ pageAddress_mod i
  have hmask := (leaf_valid halign (by rw [haddr]; unfold HIGH_MEMORY at haddress; omega)).2
  rw [translate_eq, hleaf, Option.map_some, hmask]

/-- `copy_code` builds the image of a program in the first sixteen virtual pages. -/
theorem copy_code (k : Kernel Pointers) (p : PcbPtr) (buffer size : Nat)
    (hwf : k.TablesWellFormed p) (hcontrol : ∀ a, p.pageStart = some a → k.memory.InUse a)
    (hnone : (k.pcb p).mm.nUserPages = 0) (hbuffer : k.BufferApart p buffer size)
    (henough : 16 + k.tablesNeeded p 0 ≤ k.memory.free)
    (hroom : k.tablesNeeded p 0 ≤ MAX_PROCESS_PAGES - (k.pcb p).mm.nKernelPages) :
    ∃ k', k.copyCode p buffer size = some k' ∧ ImageBuilt p buffer size k k' := by
  have hsettled : ∀ x < size, k.Settled (buffer + x) := fun x hx i hi hle hlt ↦
    (hbuffer x hx i hi hle hlt).1
  have hstart : Imaged p buffer size k [] k := .start hwf hcontrol hnone
  obtain ⟨a, k₁, hrun, hfirst, hcount⟩ := hstart.round (by decide) hsettled
    (by rw [List.length_nil, Nat.zero_mul]; omega)
    (by rwa [List.length_nil, Nat.zero_mul]) (List.range' 1 15)
  rw [List.length_nil, Nat.zero_mul] at hcount hrun
  obtain ⟨us, k', hlength, himaged, hrest⟩ := hfirst.rounds (by simp) (m := 15) le_rfl hsettled
    (by omega)
  have hus : us.length = 16 := hlength
  refine ⟨k', ?_, ⟨us, hus, himaged.nodup, himaged.fresh, fun j hj ↦ ?_⟩, fun va hva ↦ ?_,
    fun va hva ↦ ?_, himaged.failures⟩
  · rw [Kernel.copyCode, List.range_eq_range', List.range'_succ]
    rw [Nat.zero_min] at hrun
    exact hrun.trans hrest
  · have hdiv : j * PAGE_SIZE / PAGE_SIZE = j := Nat.mul_div_cancel j (by decide)
    have hpage : j * PAGE_SIZE / PAGE_SIZE < us.length := by rwa [hdiv]
    rw [himaged.translate hpage, Nat.mul_mod_left, Nat.add_zero]
    simp only [hdiv]
  · have hpage : va / PAGE_SIZE < us.length := by
      rw [hus]
      exact Nat.div_lt_of_lt_mul (by rwa [Nat.mul_comm])
    refine ⟨_, himaged.translate hpage, ?_⟩
    rw [himaged.content _ hpage _ (Nat.mod_lt _ (by decide)), image, Nat.div_add_mod']
  · rw [translate_congr (himaged.others va fun j hj ↦ hva j (hus ▸ hj))]

/-- A program of a page and a bit, from memory that belongs to no page. -/
theorem copy_code_init : let k := Kernel.boot .roundRobin fun _ ↦ 0
    ∃ k', k.copyCode .initProcess 0x80000 5000 = some k' ∧
      ImageBuilt .initProcess 0x80000 5000 k k' := by
  intro k
  have hfree : freeCells k.memory.memoryPages 20 ≤ k.memory.free := freeCells_mono (by decide)
  have htwenty : freeCells k.memory.memoryPages 20 = 20 := by decide
  have hneed := tablesNeeded_le k .initProcess 0
  refine copy_code k .initProcess _ _ (.inl rfl) nofun rfl ?_ (by omega)
    (hneed.trans (by decide))
  intro x hx i _ hle
  unfold pageAddress LOW_MEMORY at hle
  omega

/-- The first program of a process, in every state that requests lead to. -/
theorem System.Sound.moveToUserMode_image {s : System} (h : s.Sound)
    (hu : s.kernel.currentProcess ∉ s.user) (start size pc : Nat)
    (hbuffer : s.kernel.BufferApart s.kernel.currentProcess start size)
    (henough : 20 ≤ s.kernel.memory.free) :
    ∃ k', s.kernel.moveToUserMode start size pc = some (0, k') ∧
      ImageBuilt s.kernel.currentProcess start size s.kernel k' := by
  set k := s.kernel.mapGlobals fun g ↦ g.modifyPcb g.currentProcess fun b ↦
    { b with ptRegs := { PtRegs.zero with
      pstate := PSR_MODE_EL0t, pc := pc, sp := 16 * PAGE_SIZE } } with hk
  set p := s.kernel.currentProcess with hp
  have hmm : (k.pcb p).mm = (s.kernel.pcb p).mm := by
    rw [hk, Kernel.mapGlobals_toGlobals, hp, Globals.modifyPcb_pcb_self]
  obtain ⟨husers, htables, hpgd⟩ := h.owned.empty p h.current_live hu
  have hempty : (k.pcb p).mm.pgd = 0 := hmm ▸ hpgd
  have hneed := tablesNeeded_le k p 0
  obtain ⟨k', hrun, himage⟩ := copy_code k p start size (.inl hempty)
    (fun a ↦ h.control h.current_live) (hmm ▸ husers)
    (fun x hx i hi hle hlt ↦ ⟨(hbuffer x hx i hi hle hlt).1, fun htable ↦ htable.1 hempty,
      (hbuffer x hx i hi hle hlt).2.2⟩)
    (Nat.le_trans (Nat.add_le_add_left hneed 16) henough)
    (by rw [hmm, htables]; exact hneed.trans (by decide))
  refine ⟨k', ?_, himage.pages, himage.content, fun va hva ↦ ?_, himage.failures⟩
  · rw [Kernel.moveToUserMode]
    exact congrArg (Option.bind · fun k ↦ some (0, k)) hrun
  · rw [himage.others va hva, translate_eq, translate_eq, hempty, hpgd, leafEntry_zero,
      leafEntry_zero]

end DemosOS
