import DemosOS.Mem.Pages

/-!
# Building an address space

The pages of a process are mapped one after the other at the virtual addresses `0`,
`PAGE_SIZE`, …, so that its page tables are a chain: the `PGD`, and the single table of each
further level.  `AddressSpace` says what the `mm_struct` and the tables look like after some
user pages `us` and some tables `ts`, and `Building` follows a process while it is given more of
them.  `allocate_user_page` adds one user page, after it has completed the chain.

While `exec` re-fills an address space, the last table still has the entries of the old pages;
only the entries of the pages mapped so far are described.
-/

namespace DemosOS

open Lib Kernel

/-- The address space with the user pages `us` and the tables `ts`. -/
structure AddressSpace (m : Memory) (mm : MmStruct) (us ts : List Nat) : Prop where
  nUserPages : mm.nUserPages = us.length
  userPages : ∀ j (h : j < us.length), mm.userPages j = ⟨us[j], j * PAGE_SIZE⟩
  nKernelPages : mm.nKernelPages = ts.length
  kernelPages : ∀ l (h : l < ts.length), mm.kernelPages l = ts[l]
  pgd : mm.pgd = ts.headD 0
  link : ∀ l (h : l + 1 < ts.length),
    m.tables ts[l] = Function.update (fun _ ↦ 0) 0 (ts[l + 1] ||| MM_TYPE_PAGE_TABLE)
  blank : ∀ l (h : l < ts.length), l < 3 → l + 1 = ts.length → m.tables ts[l] = fun _ ↦ 0
  leaf : ∀ (h : 3 < ts.length) j (hj : j < us.length), m.tables ts[3] j = us[j] ||| MMU_PTE_FLAGS
  tail : ∀ (h : 3 < ts.length) j, MAX_PROCESS_PAGES ≤ j → m.tables ts[3] j = 0
  complete : us ≠ [] → ts.length = 4
  length_us : us.length ≤ MAX_PROCESS_PAGES
  length_ts : ts.length ≤ 4

/-- An address space that has not been set up. -/
def MmStruct.IsEmpty (mm : MmStruct) : Prop :=
  mm.nUserPages = 0 ∧ mm.nKernelPages = 0 ∧ mm.pgd = 0

theorem MmStruct.IsEmpty.addressSpace {m : Memory} {mm : MmStruct} (h : mm.IsEmpty) :
    AddressSpace m mm [] [] where
  nUserPages := h.1
  userPages := nofun
  nKernelPages := h.2.1
  kernelPages := nofun
  pgd := h.2.2
  link := nofun
  blank := nofun
  leaf := nofun
  tail := nofun
  complete h := absurd rfl h
  length_us := Nat.zero_le _
  length_ts := Nat.zero_le _

/-- A control block without its `mm_struct`. -/
def PCB.outsideMm (b : PCB) : PCB := { b with mm := PCB.zero.mm }

/-- Process `p` is being given pages: it has the user pages `us` and the tables `ts`, and the
pages in `transit` have been allocated for it.  Its tables and the free pages are in `T`; the
rest of its control block stays `b`. -/
structure Building (T : Set Nat) (p : PcbPtr) (b : PCB) (k : Kernel Pointers)
    (transit us ts : List Nat) : Prop where
  rest : (k.pcb p).outsideMm = b
  space : AddressSpace k.memory (k.pcb p).mm us ts
  nodup : (transit ++ us ++ ts).Nodup
  used : ∀ a ∈ transit ++ us ++ ts, k.memory.InUse a
  mem_ts : ∀ t ∈ ts, t ∈ T
  free : ∀ i < N_PAGES, k.memory.memoryPages i = false → pageAddress i ∈ T
  control : ∀ a, p.pageStart = some a → k.memory.InUse a ∧ a ∉ transit ++ us ++ ts

namespace AddressSpace

variable {m m' : Memory} {mm : MmStruct} {us ts : List Nat}

/-- Only the tables of the process matter. -/
theorem congr (h : AddressSpace m mm us ts) (htables : ∀ t ∈ ts, m'.tables t = m.tables t) :
    AddressSpace m' mm us ts where
  nUserPages := h.nUserPages
  userPages := h.userPages
  nKernelPages := h.nKernelPages
  kernelPages := h.kernelPages
  pgd := h.pgd
  link l hl := (htables _ (List.getElem_mem _)).trans (h.link l hl)
  blank l hl hl' hlast := (htables _ (List.getElem_mem _)).trans (h.blank l hl hl' hlast)
  leaf hl j hj := (congrFun (htables _ (List.getElem_mem _)) j).trans (h.leaf hl j hj)
  tail hl j hj := (congrFun (htables _ (List.getElem_mem _)) j).trans (h.tail hl j hj)
  complete := h.complete
  length_us := h.length_us
  length_ts := h.length_ts

/-- A chain that is not complete has no user pages. -/
theorem us_eq_nil (h : AddressSpace m mm us ts) (hts : ts.length < 4) : us = [] := by
  by_contra hus
  have := h.complete hus
  omega

/-- The first table is the `PGD`. -/
theorem firstTable (h : AddressSpace m mm us []) {a : Nat} (hblank : m.tables a = fun _ ↦ 0) :
    AddressSpace m { mm with
      pgd := a
      kernelPages := Function.update mm.kernelPages mm.nKernelPages a
      nKernelPages := mm.nKernelPages + 1 } us [a] where
  nUserPages := h.nUserPages
  userPages := h.userPages
  nKernelPages := congrArg (· + 1) h.nKernelPages
  kernelPages l hl := by
    obtain rfl : l = 0 := by simpa using hl
    have hcount : mm.nKernelPages = 0 := h.nKernelPages
    simp [hcount]
  pgd := rfl
  link l hl := absurd hl (by simp)
  blank l hl _ _ := by
    obtain rfl : l = 0 := by simpa using hl
    exact hblank
  leaf hl := absurd hl (by simp)
  tail hl := absurd hl (by simp)
  complete hus := absurd (h.us_eq_nil (by simp)) hus
  length_us := h.length_us
  length_ts := by simp

/-- A further table is linked to the last one. -/
theorem nextTable (h : AddressSpace m mm us ts) (hnodup : ts.Nodup) {l : Nat}
    (hl : ts.length = l + 1) (hl' : l < 3) {a : Nat} (ha : a ∉ ts)
    (hblank : m.tables a = fun _ ↦ 0) :
    AddressSpace (m.writeEntry ts[l] 0 (a ||| MM_TYPE_PAGE_TABLE)) { mm with
      kernelPages := Function.update mm.kernelPages mm.nKernelPages a
      nKernelPages := mm.nKernelPages + 1 } us (ts ++ [a]) := by
  have hus : us = [] := h.us_eq_nil (by omega)
  have htables : ∀ t, t ≠ ts[l] →
      (m.writeEntry ts[l] 0 (a ||| MM_TYPE_PAGE_TABLE)).tables t = m.tables t := fun t ht ↦
    Function.update_of_ne ht _ _
  have hnew : (m.writeEntry ts[l] 0 (a ||| MM_TYPE_PAGE_TABLE)).tables a = fun _ ↦ 0 := by
    rw [htables a fun he ↦ ha (he ▸ List.getElem_mem _), hblank]
  have hlast : ∀ h : l + 1 < (ts ++ [a]).length, (ts ++ [a])[l + 1] = a := by
    simp [hl]
  refine ⟨h.nUserPages, h.userPages, ?_, ?_, ?_, ?_, ?_, ?_, ?_, ?_, h.length_us, ?_⟩
  · simp [h.nKernelPages]
  · intro j hj
    dsimp only
    rw [h.nKernelPages]
    by_cases hj' : j < ts.length
    · rw [Function.update_of_ne hj'.ne, List.getElem_append_left hj', h.kernelPages j hj']
    · obtain rfl : j = ts.length := by simp at hj; omega
      simp
  · show mm.pgd = _
    rw [h.pgd]
    cases ts with
    | nil => simp at hl
    | cons t ts => rfl
  · intro j hj
    by_cases hj' : j + 1 < ts.length
    · rw [List.getElem_append_left (by omega), List.getElem_append_left hj', htables, h.link j hj']
      intro he
      have := (List.Nodup.getElem_inj_iff hnodup).mp he
      omega
    · obtain rfl : j = l := by simp at hj; omega
      rw [List.getElem_append_left (by omega), hlast]
      show Function.update m.tables _ _ _ = _
      rw [Function.update_self, h.blank j (by omega) hl' hl.symm]
  · intro j hj hj' hlast'
    obtain rfl : j = l + 1 := by simp at hlast'; omega
    rw [hlast, hnew]
  · subst hus
    nofun
  · intro hfull j hj
    obtain rfl : l = 2 := by simp at hfull; omega
    rw [hlast, hnew]
  · exact fun hne ↦ absurd hus hne
  · simp
    omega

/-- A page is entered in the last table and in the list. -/
theorem addPage (h : AddressSpace m mm us ts) (hnodup : ts.Nodup) (hts : ts.length = 4)
    (hus : us.length < MAX_PROCESS_PAGES) (a : Nat) :
    AddressSpace (m.writeEntry ts[3] us.length (a ||| MMU_PTE_FLAGS)) { mm with
      userPages := Function.update mm.userPages mm.nUserPages ⟨a, us.length * PAGE_SIZE⟩
      nUserPages := mm.nUserPages + 1 } (us ++ [a]) ts := by
  have hlink : ∀ l (_ : l < 3),
      (m.writeEntry ts[3] us.length (a ||| MMU_PTE_FLAGS)).tables ts[l] = m.tables ts[l] := by
    intro l hl
    refine Function.update_of_ne (fun he ↦ ?_) _ _
    have := (List.Nodup.getElem_inj_iff hnodup).mp he
    omega
  have hentry : (m.writeEntry ts[3] us.length (a ||| MMU_PTE_FLAGS)).tables ts[3] =
      Function.update (m.tables ts[3]) us.length (a ||| MMU_PTE_FLAGS) := Function.update_self ..
  refine ⟨?_, ?_, h.nKernelPages, h.kernelPages, h.pgd, ?_, ?_, ?_, ?_, fun _ ↦ hts, ?_,
    h.length_ts⟩
  · simp [h.nUserPages]
  · intro j hj
    dsimp only
    rw [h.nUserPages]
    by_cases hj' : j < us.length
    · rw [Function.update_of_ne hj'.ne, List.getElem_append_left hj', h.userPages j hj']
    · obtain rfl : j = us.length := by simp at hj; omega
      simp
  · intro l hl
    rw [hlink l (by omega), h.link l hl]
  · intro l hl hl' hlast
    omega
  · intro _ j hj
    rw [hentry]
    by_cases hj' : j < us.length
    · rw [Function.update_of_ne hj'.ne, List.getElem_append_left hj', h.leaf (by omega) j hj']
    · obtain rfl : j = us.length := by simp at hj; omega
      simp
  · intro hfull j hj
    rw [hentry, Function.update_of_ne (by omega), h.tail hfull j hj]
  · simp
    omega

end AddressSpace

/-- Writing the `mm_struct` leaves the rest of the control block alone. -/
theorem outsideMm_modifyMm (k : Kernel Pointers) (p : PcbPtr) (f : MmStruct → MmStruct) :
    ((k.modifyMm p f).pcb p).outsideMm = (k.pcb p).outsideMm := by
  rw [Kernel.modifyMm, Kernel.mapGlobals_toGlobals, Globals.modifyPcb_pcb_self]
  rfl

namespace Building

variable {T : Set Nat} {p : PcbPtr} {b : PCB} {k k' : Kernel Pointers} {transit us ts : List Nat}
    {a i : Nat}

/-- Pages change their roles. -/
theorem regroup (h : Building T p b k transit us ts) {transit' us' ts' : List Nat}
    (hperm : (transit' ++ us' ++ ts').Perm (transit ++ us ++ ts)) (hts : ∀ t ∈ ts', t ∈ T)
    (hspace : AddressSpace k'.memory (k'.pcb p).mm us' ts')
    (hrest : (k'.pcb p).outsideMm = (k.pcb p).outsideMm)
    (hmarks : k'.memory.memoryPages = k.memory.memoryPages) :
    Building T p b k' transit' us' ts' := by
  have hused : ∀ a, k'.memory.InUse a ↔ k.memory.InUse a := by
    intro a
    simp only [Memory.InUse, hmarks]
  refine ⟨hrest.trans h.rest, hspace, hperm.nodup_iff.mpr h.nodup, fun b hb ↦ ?_, hts,
    fun i hi hfree ↦ ?_, fun b hb ↦ ?_⟩
  · exact (hused b).mpr (h.used b (hperm.mem_iff.mp hb))
  · rw [hmarks] at hfree
    exact h.free i hi hfree
  · have hold := h.control b hb
    exact ⟨(hused b).mpr hold.1, fun hmem ↦ hold.2 (hperm.mem_iff.mp hmem)⟩

/-- The tables of the process and its control block matter, and which pages are in use. -/
theorem congr (h : Building T p b k transit us ts) (hpcb : k'.pcb p = k.pcb p)
    (htables : ∀ t ∈ ts, k'.memory.tables t = k.memory.tables t)
    (hmarks : k'.memory.memoryPages = k.memory.memoryPages) : Building T p b k' transit us ts := by
  refine h.regroup (List.Perm.refl _) h.mem_ts ?_ (congrArg PCB.outsideMm hpcb) hmarks
  rw [hpcb]
  exact h.space.congr htables

/-- A page is allocated for the process. -/
theorem takePage (h : Building T p b k transit us ts) (hi : i < N_PAGES)
    (hfree : k.memory.memoryPages i = false) :
    Building T p b (k.takePage i) (pageAddress i :: transit) us ts := by
  have hnot : ∀ a, k.memory.InUse a → a ≠ pageAddress i := by
    rintro a ha rfl
    exact Memory.not_inUse hi hfree ha
  have hconfined : Confined {pageAddress i} ∅ k (k.takePage i) :=
    Confined.takePage k (Set.mem_singleton _)
  have hpcb := hconfined.pcb p (Set.notMem_empty p) fun a ha ↦ hnot a (h.control a ha).1
  have hused : ∀ b, k.memory.InUse b → (k.takePage i).memory.InUse b := fun b hb ↦
    (hconfined.inUse (hnot b hb)).mpr hb
  have hnew : (k.takePage i).memory.InUse (pageAddress i) := by
    rw [Memory.inUse_page hi]
    exact Function.update_self ..
  refine ⟨(congrArg PCB.outsideMm hpcb).trans h.rest, ?_, ?_, ?_, h.mem_ts, ?_, ?_⟩
  · rw [hpcb]
    refine h.space.congr fun t ht ↦ hconfined.tables t ?_
    exact hnot t (h.used t (List.mem_append_right _ ht))
  · rw [List.cons_append, List.cons_append, List.nodup_cons]
    exact ⟨fun hmem ↦ hnot _ (h.used _ hmem) rfl, h.nodup⟩
  · intro b hb
    rw [List.cons_append, List.cons_append] at hb
    rcases List.mem_cons.mp hb with rfl | hb
    · exact hnew
    · exact hused b (h.used b hb)
  · intro j hj hfree'
    refine h.free j hj ?_
    have hmark : (k.takePage i).memory.memoryPages j =
        Function.update k.memory.memoryPages i true j := rfl
    rw [hmark, Function.update_apply] at hfree'
    split_ifs at hfree'
    exact hfree'
  · intro b hb
    refine ⟨hused b (h.control b hb).1, ?_⟩
    rw [List.cons_append, List.cons_append, List.mem_cons]
    rintro (rfl | hmem)
    · exact hnot _ (h.control _ hb).1 rfl
    · exact (h.control b hb).2 hmem

/-- A page that is not a table is cleared. -/
theorem clearPage (h : Building T p b k transit us ts) (ha : a ∈ transit ++ us) :
    Building T p b (k.clearPage a) transit us ts := by
  have hmem : a ∈ transit ++ us ++ ts := List.mem_append_left _ ha
  obtain ⟨i, -, rfl, -⟩ := h.used a hmem
  have hconfined : Confined {pageAddress i} ∅ k (k.clearPage (pageAddress i)) :=
    Confined.clearPage k (Set.mem_singleton _)
  refine h.congr ?_ ?_ rfl
  · refine hconfined.pcb p (Set.notMem_empty p) ?_
    rintro a ha rfl
    exact (h.control _ ha).2 hmem
  · intro t ht
    refine hconfined.tables t ?_
    rintro rfl
    have hdisjoint := (List.nodup_append.mp h.nodup).2.2
    exact hdisjoint _ ha _ ht rfl

theorem nodup_ts (h : Building T p b k transit us ts) : ts.Nodup :=
  (List.nodup_append.mp h.nodup).2.1

theorem notMem_ts (h : Building T p b k (a :: transit) us ts) : a ∉ ts := fun ha ↦
  (List.nodup_append.mp h.nodup).2.2 a (by simp) a ha rfl

/-- A page in transit becomes the `PGD`. -/
theorem firstTable (h : Building T p b k (a :: transit) us []) (ha : a ∈ T)
    (hblank : k.memory.tables a = fun _ ↦ 0) :
    Building T p b (k.modifyMm p fun mm ↦ { mm with
      pgd := a
      kernelPages := Function.update mm.kernelPages mm.nKernelPages a
      nKernelPages := mm.nKernelPages + 1 }) transit us [a] := by
  refine h.regroup ?_ (by simpa using ha) ?_ (outsideMm_modifyMm k p _) rfl
  · simpa using (List.perm_append_singleton a (transit ++ us))
  · have hspace := h.space.firstTable hblank
    rw [Kernel.modifyMm, Kernel.mapGlobals_toGlobals, Globals.modifyPcb_pcb_self]
    exact hspace

/-- A page in transit becomes the next table. -/
theorem nextTable (h : Building T p b k (a :: transit) us ts) (ha : a ∈ T) {l : Nat}
    (hl : ts.length = l + 1) (hl' : l < 3) (hblank : k.memory.tables a = fun _ ↦ 0) :
    Building T p b
      ((k.mapMemory (·.writeEntry ts[l] 0 (a ||| MM_TYPE_PAGE_TABLE))).modifyMm p fun mm ↦ { mm with
        kernelPages := Function.update mm.kernelPages mm.nKernelPages a
        nKernelPages := mm.nKernelPages + 1 }) transit us (ts ++ [a]) := by
  refine h.regroup ?_ ?_ ?_ (outsideMm_modifyMm _ p _) rfl
  · rw [← List.append_assoc]
    exact List.perm_append_singleton a (transit ++ us ++ ts)
  · intro t ht
    rcases List.mem_append.mp ht with ht | ht
    · exact h.mem_ts t ht
    · rwa [List.mem_singleton.mp ht]
  · have hspace := h.space.nextTable h.nodup_ts hl hl' h.notMem_ts hblank
    rw [Kernel.modifyMm, Kernel.mapGlobals_toGlobals, Globals.modifyPcb_pcb_self]
    exact hspace

/-- A page in transit is mapped. -/
theorem addPage (h : Building T p b k (a :: transit) us ts) (hts : ts.length = 4)
    (hus : us.length < MAX_PROCESS_PAGES) :
    Building T p b ((k.mapMemory (·.writeEntry ts[3] us.length (a ||| MMU_PTE_FLAGS))).modifyMm p
      fun mm ↦ { mm with
        userPages := Function.update mm.userPages mm.nUserPages ⟨a, us.length * PAGE_SIZE⟩
        nUserPages := mm.nUserPages + 1 }) transit (us ++ [a]) ts := by
  refine h.regroup ?_ h.mem_ts ?_ (outsideMm_modifyMm _ p _) rfl
  · rw [← List.append_assoc, List.append_assoc (transit ++ us)]
    exact List.perm_middle
  · have hspace := h.space.addPage h.nodup_ts hts hus a
    rw [Kernel.modifyMm, Kernel.mapGlobals_toGlobals, Globals.modifyPcb_pcb_self]
    exact hspace

end Building

/-! ## Mapping a page -/

section

variable {T : Set Nat} {p : PcbPtr} {b : PCB} {k k' : Kernel Pointers} {transit us ts : List Nat}

theorem tableIndex_page {n : Nat} (hn : n < MAX_PROCESS_PAGES) :
    tableIndex PAGE_SHIFT (n * PAGE_SIZE) = n := by
  rw [tableIndex_eq]
  unfold PAGE_SHIFT PAGE_SIZE
  unfold MAX_PROCESS_PAGES at hn
  omega

theorem tableIndex_table {n shift : Nat} (hn : n < MAX_PROCESS_PAGES) (hshift : PMD_SHIFT ≤ shift) :
    tableIndex shift (n * PAGE_SIZE) = 0 := by
  have hpow : 2 ^ PMD_SHIFT ≤ 2 ^ shift := Nat.pow_le_pow_right (by decide) hshift
  have hlt : n * PAGE_SIZE < 2 ^ PMD_SHIFT := by
    unfold PAGE_SIZE PMD_SHIFT
    unfold MAX_PROCESS_PAGES at hn
    omega
  rw [tableIndex_eq, Nat.div_eq_of_lt (hlt.trans_le hpow)]

theorem trackKernelPage_eq {page : Nat} (h : (k.pcb p).mm.nKernelPages < MAX_PROCESS_PAGES) :
    k.trackKernelPage p page = some (k.modifyMm p fun mm ↦ { mm with
      kernelPages := Function.update mm.kernelPages mm.nKernelPages page
      nKernelPages := mm.nKernelPages + 1 }) := if_pos h

theorem trackKernelPage_failures {page : Nat} (h : k.trackKernelPage p page = some k') :
    k'.failures = k.failures := by
  unfold Kernel.trackKernelPage at h
  split_ifs at h
  rw [← Option.some.inj h]
  rfl

theorem ensurePgd_failures (h : k.ensurePgd p = some k') : k.failures ≤ k'.failures := by
  unfold Kernel.ensurePgd at h
  split_ifs at h
  · have htrack := trackKernelPage_failures h
    have hpage := k.getFreePage_failures
    exact hpage.trans htrack.ge
  · exact (congrArg Kernel.failures (Option.some.inj h)).le

/-- A process has a `PGD` afterwards. -/
theorem Building.ensurePgd (h : Building T p b k transit us ts) :
    Takes (1 - ts.length) id k (k.ensurePgd p) fun k' ↦ ∃ ts', ts'.length = max 1 ts.length ∧
      Building T p b k' transit us ts' ∧ Confined T {p} k k' := by
  cases ts with
  | cons t rest =>
      have hpgd : (k.pcb p).mm.pgd ≠ 0 := by
        rw [h.space.pgd]
        exact (h.used t (List.mem_append_right _ List.mem_cons_self)).ne_zero
      have hrun : k.ensurePgd p = some k := if_neg hpgd
      have hlen : 1 - (t :: rest).length = 0 := by simp
      rw [hrun, hlen]
      exact .none_taken rfl rfl ⟨_, by simp, h, .refl k⟩
  | nil =>
      let f : Nat × Kernel Pointers → Option (Kernel Pointers) := fun r ↦
        Kernel.trackKernelPage p r.1 (Kernel.clearPage r.1 (r.2.modifyMm p fun mm ↦
          { mm with pgd := r.1 }))
      have hrun : k.ensurePgd p = f k.getFreePage := if_pos h.space.pgd
      refine Takes.getFreePage (m := 0) f hrun ?_ fun htrack ↦ (trackKernelPage_failures htrack).ge
      intro i hi hfree
      have htake := h.takePage hi hfree
      have hT : pageAddress i ∈ T := h.free i hi hfree
      have hclear : ∀ {k₁ : Kernel Pointers},
          (k₁.clearPage (pageAddress i)).pcb p = k₁.pcb p := by
        intro k₁
        refine (Confined.clearPage (T := {pageAddress i}) (P := ∅) k₁ rfl).pcb p
          (Set.notMem_empty p) ?_
        rintro b hb rfl
        exact (htake.control _ hb).2 (by simp)
      set k₁ := (k.takePage i).modifyMm p fun mm ↦ { mm with pgd := pageAddress i } with hk₁
      have hmm : ((k₁.clearPage (pageAddress i)).pcb p).mm =
          { ((k.takePage i).pcb p).mm with pgd := pageAddress i } := by
        rw [hclear, hk₁, Kernel.modifyMm, Kernel.mapGlobals_toGlobals, Globals.modifyPcb_pcb_self]
      have hcount : ((k₁.clearPage (pageAddress i)).pcb p).mm.nKernelPages < MAX_PROCESS_PAGES := by
        rw [hmm]
        show ((k.takePage i).pcb p).mm.nKernelPages < _
        rw [htake.space.nKernelPages]
        decide
      have hf : f (pageAddress i, k.takePage i) = some _ := trackKernelPage_eq hcount
      rw [hf]
      refine .none_taken rfl rfl ⟨[pageAddress i], by simp, ?_, ?_⟩
      · refine htake.regroup ?_ (by simpa using hT) ?_ ?_ rfl
        · simpa using (List.perm_append_singleton (pageAddress i) (transit ++ us))
        · have hspace := (htake.clearPage (a := pageAddress i) (by simp)).space.firstTable
            (a := pageAddress i) (Function.update_self ..)
          rw [hclear] at hspace
          rw [Kernel.modifyMm, Kernel.mapGlobals_toGlobals, Globals.modifyPcb_pcb_self, hmm]
          exact hspace
        · rw [outsideMm_modifyMm, hclear, outsideMm_modifyMm]
      · have hset : Confined T {p} (k.takePage i) k₁ := .modifyMm _ (Set.mem_singleton p) _
        exact (((Confined.takePage k hT).trans hset).trans (Confined.clearPage k₁ hT)).trans
          (.modifyMm _ (Set.mem_singleton p) _)

/-- A level without an entry gets a new table. -/
def Kernel.createTable (p : PcbPtr) (table index : Nat) (r : Nat × Kernel Pointers) :
    Option (Nat × Kernel Pointers) :=
  (((r.2.clearPage r.1).mapMemory
    (·.writeEntry table index (r.1 ||| MM_TYPE_PAGE_TABLE))).trackKernelPage p r.1).map (r.1, ·)

theorem mapLevel_create {table shift virtualAddress : Nat}
    (h : k.memory.tables table (tableIndex shift virtualAddress) = 0) :
    k.mapLevel p table shift virtualAddress =
      Kernel.createTable p table (tableIndex shift virtualAddress) k.getFreePage := by
  rw [Kernel.mapLevel, Kernel.mapTable]
  dsimp only
  rw [if_pos h]
  rfl

theorem mapLevel_follow {table shift virtualAddress : Nat}
    (h : k.memory.tables table (tableIndex shift virtualAddress) ≠ 0) :
    k.mapLevel p table shift virtualAddress =
      some (k.memory.tables table (tableIndex shift virtualAddress) &&& PAGE_MASK, k) := by
  rw [Kernel.mapLevel, Kernel.mapTable]
  dsimp only
  rw [if_neg h]

theorem createTable_failures {table index : Nat} {r s : Nat × Kernel Pointers}
    (h : Kernel.createTable p table index r = some s) : r.2.failures ≤ s.2.failures := by
  obtain ⟨k', hk', rfl⟩ := Option.map_eq_some_iff.mp h
  exact (trackKernelPage_failures hk').ge

theorem mapLevel_failures {table shift virtualAddress : Nat} {r : Nat × Kernel Pointers}
    (h : k.mapLevel p table shift virtualAddress = some r) : k.failures ≤ r.2.failures := by
  by_cases hentry : k.memory.tables table (tableIndex shift virtualAddress) = 0
  · rw [mapLevel_create hentry] at h
    exact k.getFreePage_failures.trans (createTable_failures h)
  · rw [mapLevel_follow hentry] at h
    rw [← Option.some.inj h]

/-- One level of the walk: it finds the next table, or adds it. -/
theorem Building.mapLevel (h : Building T p b k transit us ts) {l : Nat} (hl : l < ts.length)
    (hl' : l < 3) {n : Nat} (hn : n < MAX_PROCESS_PAGES) (shift : Nat)
    (hshift : PMD_SHIFT ≤ shift) :
    Takes (l + 2 - ts.length) Prod.snd k (k.mapLevel p ts[l] shift (n * PAGE_SIZE)) fun r ↦
      ∃ ts', ts'.length = max (l + 2) ts.length ∧ ts'[l + 1]? = some r.1 ∧
        Building T p b r.2 transit us ts' ∧ Confined T {p} k r.2 := by
  have hindex := tableIndex_table hn hshift
  by_cases hnext : l + 1 < ts.length
  · obtain ⟨i, hi, hpage, -⟩ := h.used ts[l + 1] (List.mem_append_right _ (List.getElem_mem _))
    have hentry : k.memory.tables ts[l] (tableIndex shift (n * PAGE_SIZE)) =
        ts[l + 1] ||| MM_TYPE_PAGE_TABLE := by
      rw [hindex, h.space.link l hnext, Function.update_self]
    have hvalue : (ts[l + 1] ||| MM_TYPE_PAGE_TABLE) &&& PAGE_MASK = ts[l + 1] := by
      rw [hpage]
      exact entry_page hi (by decide)
    have hne : k.memory.tables ts[l] (tableIndex shift (n * PAGE_SIZE)) ≠ 0 := by
      rw [hentry, hpage, pageAddress_or i (by decide)]
      have := pageAddress_pos i
      omega
    have hlen : l + 2 - ts.length = 0 := by omega
    rw [mapLevel_follow hne, hentry, hvalue, hlen]
    refine .none_taken rfl rfl ⟨ts, by omega, ?_, h, .refl k⟩
    exact List.getElem?_eq_getElem hnext
  · have hlast : ts.length = l + 1 := by omega
    have hentry : k.memory.tables ts[l] (tableIndex shift (n * PAGE_SIZE)) = 0 := by
      rw [hindex, h.space.blank l hl hl' hlast.symm]
    have hlen : l + 2 - ts.length = 0 + 1 := by omega
    rw [hlen]
    refine Takes.getFreePage _ (mapLevel_create hentry) ?_ createTable_failures
    intro i hi hfree
    rw [hindex]
    have htake := (h.takePage hi hfree).clearPage (a := pageAddress i) (by simp)
    have hT : pageAddress i ∈ T := h.free i hi hfree
    have hadd := htake.nextTable hT hlast hl' (Function.update_self ..)
    have hcount : ((((k.takePage i).clearPage (pageAddress i)).mapMemory
        (·.writeEntry ts[l] 0 (pageAddress i ||| MM_TYPE_PAGE_TABLE))).pcb p).mm.nKernelPages <
          MAX_PROCESS_PAGES := by
      have hn := htake.space.nKernelPages
      have hle := htake.space.length_ts
      have hmax : MAX_PROCESS_PAGES = 16 := rfl
      show (((k.takePage i).clearPage (pageAddress i)).pcb p).mm.nKernelPages < _
      omega
    rw [Kernel.createTable]
    dsimp only
    rw [trackKernelPage_eq hcount, Option.map_some]
    refine .none_taken rfl rfl ⟨ts ++ [pageAddress i], ?_, ?_, hadd, ?_⟩
    · rw [List.length_append, List.length_singleton]
      omega
    · rw [← hlast, List.getElem?_concat_length]
    · have hclear : Confined T {p} k ((k.takePage i).clearPage (pageAddress i)) :=
        (Confined.takePage k hT).trans (Confined.clearPage _ hT)
      have hwrite := Confined.writeEntry (P := {p}) ((k.takePage i).clearPage (pageAddress i))
        (h.mem_ts _ (List.getElem_mem hl)) 0 (pageAddress i ||| MM_TYPE_PAGE_TABLE)
      refine (hclear.trans hwrite).trans ?_
      dsimp only
      exact Confined.modifyMm _ (Set.mem_singleton p) _

theorem trackUserPage_eq {page : UserPage} (h : (k.pcb p).mm.nUserPages < MAX_PROCESS_PAGES) :
    k.trackUserPage p page = some (k.modifyMm p fun mm ↦ { mm with
      userPages := Function.update mm.userPages mm.nUserPages page
      nUserPages := mm.nUserPages + 1 }) := if_pos h

theorem trackUserPage_failures {page : UserPage} (h : k.trackUserPage p page = some k') :
    k'.failures = k.failures := by
  unfold Kernel.trackUserPage at h
  split_ifs at h
  rw [← Option.some.inj h]
  rfl

theorem mapPage_eq (virtualAddress page : Nat) :
    k.mapPage p virtualAddress page =
      (k.ensurePgd p).bind fun k ↦
      (k.mapLevel p (k.pcb p).mm.pgd PGD_SHIFT virtualAddress).bind fun r ↦
      (r.2.mapLevel p r.1 PUD_SHIFT virtualAddress).bind fun r ↦
      (r.2.mapLevel p r.1 PMD_SHIFT virtualAddress).bind fun r ↦
      (r.2.mapTableEntry r.1 virtualAddress page).trackUserPage p ⟨page, virtualAddress⟩ := rfl

section

variable {virtualAddress page table : Nat}

theorem mapTableEntry_failures
    (h : (k.mapTableEntry table virtualAddress page).trackUserPage p ⟨page, virtualAddress⟩ =
      some k') :
    k.failures ≤ k'.failures :=
  (trackUserPage_failures h).ge

theorem mapLevel₃_failures
    (h : ((k.mapLevel p table PMD_SHIFT virtualAddress).bind fun r ↦
      (r.2.mapTableEntry r.1 virtualAddress page).trackUserPage p
      ⟨page, virtualAddress⟩) = some k') :
    k.failures ≤ k'.failures := by
  obtain ⟨r, hr, h⟩ := Option.bind_eq_some_iff.mp h
  exact (mapLevel_failures hr).trans (mapTableEntry_failures h)

theorem mapLevel₂_failures
    (h : ((k.mapLevel p table PUD_SHIFT virtualAddress).bind fun r ↦
      (r.2.mapLevel p r.1 PMD_SHIFT virtualAddress).bind fun r ↦
      (r.2.mapTableEntry r.1 virtualAddress page).trackUserPage p
      ⟨page, virtualAddress⟩) = some k') :
    k.failures ≤ k'.failures := by
  obtain ⟨r, hr, h⟩ := Option.bind_eq_some_iff.mp h
  exact (mapLevel_failures hr).trans (mapLevel₃_failures h)

theorem mapLevel₁_failures
    (h : ((k.mapLevel p table PGD_SHIFT virtualAddress).bind fun r ↦
      (r.2.mapLevel p r.1 PUD_SHIFT virtualAddress).bind fun r ↦
      (r.2.mapLevel p r.1 PMD_SHIFT virtualAddress).bind fun r ↦
      (r.2.mapTableEntry r.1 virtualAddress page).trackUserPage p
      ⟨page, virtualAddress⟩) = some k') :
    k.failures ≤ k'.failures := by
  obtain ⟨r, hr, h⟩ := Option.bind_eq_some_iff.mp h
  exact (mapLevel_failures hr).trans (mapLevel₂_failures h)

theorem mapPage_failures (h : k.mapPage p virtualAddress page = some k') :
    k.failures ≤ k'.failures := by
  rw [mapPage_eq] at h
  obtain ⟨k₁, hk₁, h⟩ := Option.bind_eq_some_iff.mp h
  exact (ensurePgd_failures hk₁).trans (mapLevel₁_failures h)

end

/-- A page in transit is mapped at the next virtual address. -/
theorem Building.mapPage {a : Nat} (h : Building T p b k (a :: transit) us ts)
    (hus : us.length < MAX_PROCESS_PAGES) :
    Takes (4 - ts.length) id k (k.mapPage p (us.length * PAGE_SIZE) a) fun k' ↦
      ∃ ts', ts'.length = 4 ∧ Building T p b k' transit (us ++ [a]) ts' ∧ Confined T {p} k k' := by
  have hts := h.space.length_ts
  have hcount : 4 - ts.length = (1 - ts.length) + ((2 - max 1 ts.length) +
      ((3 - max 2 ts.length) + ((4 - max 3 ts.length) + 0))) := by omega
  rw [hcount, mapPage_eq]
  refine h.ensurePgd.bind ?_ mapLevel₁_failures
  rintro k₁ - ⟨ts₁, hlen₁, hb₁, hc₁⟩
  have hpgd : (k₁.pcb p).mm.pgd = ts₁[0] := by
    rw [hb₁.space.pgd, List.headD_eq_head?_getD, List.head?_eq_getElem?, List.getElem?_eq_getElem]
    rfl
  have hlevel₁ := hb₁.mapLevel (l := 0) (by omega) (by decide) hus PGD_SHIFT (by decide)
  have hneed₁ : 0 + 2 - ts₁.length = 2 - max 1 ts.length := by omega
  rw [hneed₁, ← hpgd] at hlevel₁
  refine hlevel₁.bind ?_ mapLevel₂_failures
  rintro ⟨pud, k₂⟩ - ⟨ts₂, hlen₂, hpud, hb₂, hc₂⟩
  have hlevel₂ := hb₂.mapLevel (l := 1) (by omega) (by decide) hus PUD_SHIFT (by decide)
  have hneed₂ : 1 + 2 - ts₂.length = 3 - max 2 ts.length := by omega
  have hpud : ts₂[1] = pud := by
    rw [List.getElem?_eq_getElem (by omega)] at hpud
    exact Option.some.inj hpud
  rw [hneed₂, hpud] at hlevel₂
  refine hlevel₂.bind ?_ mapLevel₃_failures
  rintro ⟨pmd, k₃⟩ - ⟨ts₃, hlen₃, hpmd, hb₃, hc₃⟩
  have hlevel₃ := hb₃.mapLevel (l := 2) (by omega) (by decide) hus PMD_SHIFT le_rfl
  have hneed₃ : 2 + 2 - ts₃.length = 4 - max 3 ts.length := by omega
  have hpmd : ts₃[2] = pmd := by
    rw [List.getElem?_eq_getElem (by omega)] at hpmd
    exact Option.some.inj hpmd
  rw [hneed₃, hpmd] at hlevel₃
  refine hlevel₃.bind ?_ mapTableEntry_failures
  rintro ⟨pte, k₄⟩ - ⟨ts₄, hlen₄, hpte, hb₄, hc₄⟩
  have hlen₄ : ts₄.length = 4 := by omega
  have hpte : ts₄[3] = pte := by
    rw [List.getElem?_eq_getElem (by omega)] at hpte
    exact Option.some.inj hpte
  have hroom : ((k₄.mapTableEntry pte (us.length * PAGE_SIZE) a).pcb p).mm.nUserPages <
      MAX_PROCESS_PAGES := by
    show (k₄.pcb p).mm.nUserPages < _
    rw [hb₄.space.nUserPages]
    exact hus
  dsimp only at hb₄ hc₄ ⊢
  rw [trackUserPage_eq hroom]
  refine .none_taken rfl rfl ⟨ts₄, hlen₄, ?_, ?_⟩
  · have hadd := hb₄.addPage hlen₄ hus
    rw [hpte] at hadd
    rw [mapTableEntry, tableIndex_page hus]
    exact hadd
  · have hmem : pte ∈ T := hpte ▸ hb₄.mem_ts _ (List.getElem_mem _)
    refine (((hc₁.trans hc₂).trans hc₃).trans hc₄).trans ?_
    have hwrite : Confined T {p} k₄ (k₄.mapTableEntry pte (us.length * PAGE_SIZE) a) :=
      Confined.writeEntry k₄ hmem _ _
    exact hwrite.trans (Confined.modifyMm _ (Set.mem_singleton p) _)

end

/-! ## Giving a process a page -/

/-- The pages that mapping a page can touch: the tables of the process and the free pages. -/
def Kernel.Reach (k : Kernel Pointers) (ts : List Nat) : Set Nat :=
  { a | a ∈ ts ∨ ∃ i < N_PAGES, a = pageAddress i ∧ k.memory.memoryPages i = false }

section

variable {T T' : Set Nat} {p : PcbPtr} {b : PCB} {k k' : Kernel Pointers} {transit us ts : List Nat}

theorem Building.mono (h : Building T p b k transit us ts) (hT : T ⊆ T') :
    Building T' p b k transit us ts :=
  ⟨h.rest, h.space, h.nodup, h.used, fun t ht ↦ hT (h.mem_ts t ht), fun i hi hfree ↦
    hT (h.free i hi hfree),
    h.control⟩

theorem Building.reach (h : Building T p b k transit us ts) :
    Building (k.Reach ts) p b k transit us ts :=
  ⟨h.rest, h.space, h.nodup, h.used, fun _ ht ↦ .inl ht, fun i hi hfree ↦ .inr ⟨i, hi, rfl, hfree⟩,
    h.control⟩

theorem Building.reach_subset (h : Building T p b k transit us ts) : k.Reach ts ⊆ T := by
  rintro a (ha | ⟨i, hi, rfl, hfree⟩)
  · exact h.mem_ts a ha
  · exact h.free i hi hfree

/-- A page that is in use and not a table is out of reach. -/
theorem Kernel.notMem_reach {a : Nat} (ha : k.memory.InUse a) (hts : a ∉ ts) : a ∉ k.Reach ts := by
  rintro (hmem | ⟨i, hi, rfl, hfree⟩)
  · exact hts hmem
  · exact Memory.not_inUse hi hfree ha

/-- The continuation of `allocate_user_page` once it has a page. -/
def Kernel.mapUserPage (p : PcbPtr) (virtualAddress : Nat) (r : Nat × Kernel Pointers) :
    Option (Nat × Kernel Pointers) :=
  if r.1 = 0 then some (0, r.2)
  else (r.2.mapPage p virtualAddress r.1).map fun k ↦ (r.1 + VA_START, k)

theorem allocateUserPage_eq (virtualAddress : Nat) :
    k.allocateUserPage p virtualAddress =
      Kernel.mapUserPage p virtualAddress k.getFreePage := rfl

theorem mapUserPage_failures {virtualAddress : Nat} {r s : Nat × Kernel Pointers}
    (h : Kernel.mapUserPage p virtualAddress r = some s) : r.2.failures ≤ s.2.failures := by
  unfold Kernel.mapUserPage at h
  split_ifs at h
  · rw [← Option.some.inj h]
  · obtain ⟨k', hk', rfl⟩ := Option.map_eq_some_iff.mp h
    exact mapPage_failures hk'

theorem allocateUserPage_failures {virtualAddress : Nat} {s : Nat × Kernel Pointers}
    (h : k.allocateUserPage p virtualAddress = some s) : k.failures ≤ s.2.failures := by
  rw [allocateUserPage_eq] at h
  exact k.getFreePage_failures.trans (mapUserPage_failures h)

theorem takePage_bytes {i x : Nat} (hx : pageAddress i ≤ x) (hx' : x < pageAddress i + PAGE_SIZE) :
    (k.takePage i).memory.bytes x = 0 := if_pos ⟨hx, hx'⟩

/-- What `allocate_user_page` has done when it returns the page `i`. -/
structure UserPageAdded (T : Set Nat) (p : PcbPtr) (b : PCB) (k : Kernel Pointers)
    (transit us ts : List Nat)
    (i : Nat) (ts' : List Nat) (k' : Kernel Pointers) : Prop where
  lt : i < N_PAGES
  free : k.memory.memoryPages i = false
  length : ts'.length = 4
  building : Building T p b k' transit (us ++ [pageAddress i]) ts'
  tables : ∀ t ∈ ts', t ∈ k.Reach ts
  confined : Confined (k.Reach ts) {p} k k'
  zero : ∀ x, pageAddress i ≤ x → x < pageAddress i + PAGE_SIZE → k'.memory.bytes x = 0

/-- The process gets a zeroed page, mapped at the next virtual address. -/
theorem Building.allocateUserPage (h : Building T p b k transit us ts)
    (hus : us.length < MAX_PROCESS_PAGES) :
    Takes (5 - ts.length) Prod.snd k (k.allocateUserPage p (us.length * PAGE_SIZE)) fun r ↦
      ∃ i ts', r.1 = pageAddress i + VA_START ∧ UserPageAdded T p b k transit us ts i ts' r.2 := by
  have hts := h.space.length_ts
  have hcount : 5 - ts.length = 4 - ts.length + 0 + 1 := by omega
  rw [hcount]
  refine Takes.getFreePage (m := 4 - ts.length + 0) _ (allocateUserPage_eq _) ?_
    mapUserPage_failures
  intro i hi hfree
  have htake := h.takePage hi hfree
  have hmem : pageAddress i ∈ k.Reach ts := .inr ⟨i, hi, rfl, hfree⟩
  have hsub : (k.takePage i).Reach ts ⊆ k.Reach ts := by
    rintro a (ha | ⟨j, hj, rfl, hfree'⟩)
    · exact .inl ha
    · refine .inr ⟨j, hj, rfl, ?_⟩
      have hmark : (k.takePage i).memory.memoryPages j =
          Function.update k.memory.memoryPages i true j := rfl
      rw [hmark, Function.update_apply] at hfree'
      split_ifs at hfree'
      exact hfree'
  -- the page itself is out of reach of the code that maps it
  have hout : pageAddress i ∉ (k.takePage i).Reach ts :=
    Kernel.notMem_reach (htake.used _ (by simp)) htake.notMem_ts
  have hne : (pageAddress i, k.takePage i).1 ≠ 0 := (pageAddress_pos i).ne'
  rw [Kernel.mapUserPage, if_neg hne, Option.map_eq_bind]
  refine (htake.reach.mapPage hus).bind ?_ ?_
  · rintro k' - ⟨ts', hlen, hb, hc⟩
    refine .none_taken rfl rfl ⟨i, ts', rfl, hi, hfree, hlen, hb.mono htake.reach_subset,
      ?_, ?_, ?_⟩
    · exact fun t ht ↦ hsub (hb.mem_ts t ht)
    · exact ((Confined.takePage k hmem).mono subset_rfl (Set.empty_subset _)).trans
        (hc.mono hsub subset_rfl)
    · intro x hx hx'
      exact (hc.bytes i hout x hx hx').trans (takePage_bytes hx hx')
  · intro k₁ s hs
    rw [← Option.some.inj hs]
    exact le_rfl

end

end DemosOS
