import DemosOS.Mem.Arguments
import DemosOS.Mem.Isolation

/-!
# A new image

What `syscall_exec` leaves in memory when it returns 0.  The file is staged in a page of the kernel
and copied from there to sixteen new pages.  The copy is right, and nobody else's page is written,
as long as the file fits into the staging page.
-/

namespace DemosOS

open Lib Kernel

variable {k k₁ k' : Kernel Pointers} {p : PcbPtr}

/-! ## The addresses of a full address space -/

section

variable {T : Set Nat} {b : PCB} {us ts : List Nat} (h : Building T p b k [] us ts)
  (hus : us.length = MAX_PROCESS_PAGES)
include h hus

theorem Building.length_ts : ts.length = 4 := by
  refine h.space.complete ?_
  rintro rfl
  exact absurd hus (by decide)

/-- The first sixteen pages of addresses are mapped to the user pages in order. -/
theorem Building.translate_page {va : Nat} (hva : va < 16 * PAGE_SIZE) :
    ∃ hj : va / PAGE_SIZE < us.length,
      k.translate p va = some (us[va / PAGE_SIZE] + va % PAGE_SIZE) := by
  have hused : ∀ a ∈ us ++ ts, k.memory.InUse a := h.used
  have hj : va / PAGE_SIZE < us.length := by
    rw [hus]
    exact Nat.div_lt_of_lt_mul (hva.trans_eq (Nat.mul_comm _ _))
  refine ⟨hj, (h.space.walk_eq_some hused (h.length_ts hus) hus).mpr ⟨_, hj, ?_, rfl⟩⟩
  unfold PAGE_SIZE at hva ⊢
  omega

/-- Different addresses are translated to different places. -/
theorem Building.translate_inj {va va' x : Nat} (hva : va < 16 * PAGE_SIZE)
    (hva' : va' < 16 * PAGE_SIZE) (hx : k.translate p va = some x)
    (hx' : k.translate p va' = some x) : va = va' := by
  obtain ⟨hj, htranslate⟩ := h.translate_page hus hva
  obtain ⟨hj', htranslate'⟩ := h.translate_page hus hva'
  obtain rfl := Option.some.inj (hx.symm.trans htranslate)
  have hsame := Option.some.inj (hx'.symm.trans htranslate')
  have hnodup : us.Nodup := (List.nodup_append.mp h.nodup).1
  obtain ⟨i, -, hi, -⟩ := h.used us[va / PAGE_SIZE] (List.mem_append_left _ (List.getElem_mem hj))
  obtain ⟨i', -, hi', -⟩ := h.used us[va' / PAGE_SIZE]
    (List.mem_append_left _ (List.getElem_mem hj'))
  have hlt := Nat.mod_lt va (show 0 < PAGE_SIZE by decide)
  have hlt' := Nat.mod_lt va' (show 0 < PAGE_SIZE by decide)
  rw [hi, hi'] at hsame
  have hpage : i = i' := page_unique (x := pageAddress i + va % PAGE_SIZE) (by omega) (by omega)
    (by omega) (by omega)
  have hindex : va / PAGE_SIZE = va' / PAGE_SIZE :=
    (List.Nodup.getElem_inj_iff hnodup).mp (hi.trans (hpage ▸ hi'.symm))
  rw [hpage] at hsame
  have hmod : va % PAGE_SIZE = va' % PAGE_SIZE := Nat.add_left_cancel hsame
  rw [← Nat.div_add_mod va PAGE_SIZE, ← Nat.div_add_mod va' PAGE_SIZE, hindex, hmod]

end

/-! ## The strings on the stack -/

/-- Bytes are written at the addresses of the list. -/
theorem storeBytes_kept {va x : Nat} {l : List (UInt8 × Nat)}
    (h : l.foldlM (fun (k : Kernel Pointers) (c, i) ↦ k.storeUserByte (va + i) c) k = some k')
    (hx : ∀ e ∈ l, k.translate k.currentProcess (va + e.2) ≠ some x) :
    k'.memory.bytes x = k.memory.bytes x ∧ ContentsOnly k k' := by
  induction l generalizing k with
  | nil =>
      rw [← Option.some.inj h]
      exact ⟨rfl, .refl k⟩
  | cons e l ih =>
      rw [List.foldlM_cons] at h
      obtain ⟨k₁, hk₁, h⟩ := Option.bind_eq_some_iff.mp h
      have hcontents := ContentsOnly.storeUserByte hk₁
      obtain ⟨hrest, hcontents'⟩ := ih h fun e' he' ↦ by
        rw [hcontents.translate, hcontents.currentProcess]
        exact hx e' (List.mem_cons_of_mem _ he')
      refine ⟨hrest.trans ?_, hcontents.trans hcontents'⟩
      obtain ⟨address, haddress, hstore⟩ := Option.bind_eq_some_iff.mp hk₁
      rw [← Option.some.inj hstore]
      refine if_neg fun hin ↦ hx e List.mem_cons_self ?_
      have hsame : x = address := by
        simp only [List.length_singleton] at hin
        omega
      rw [hsame]
      exact haddress

/-- Every byte is found where it was written, if the addresses are different places. -/
theorem storeBytes_spec {va : Nat} {l : List (UInt8 × Nat)}
    (h : l.foldlM (fun (k : Kernel Pointers) (c, i) ↦ k.storeUserByte (va + i) c) k = some k')
    (hinj : ∀ e ∈ l, ∀ e' ∈ l, ∀ x, k.translate k.currentProcess (va + e.2) = some x →
      k.translate k.currentProcess (va + e'.2) = some x → e = e') :
    ∀ e ∈ l, ∀ x, k.translate k.currentProcess (va + e.2) = some x → k'.memory.bytes x = e.1 := by
  induction l generalizing k with
  | nil => nofun
  | cons e l ih =>
      obtain ⟨c, i⟩ := e
      rw [List.foldlM_cons] at h
      obtain ⟨k₁, hk₁, h⟩ := Option.bind_eq_some_iff.mp h
      have hcontents := ContentsOnly.storeUserByte hk₁
      intro e' he' x hx
      by_cases hlater : e' ∈ l
      · refine ih h ?_ e' hlater x (by rwa [hcontents.translate, hcontents.currentProcess])
        intro a ha a' ha' y hy hy'
        rw [hcontents.translate, hcontents.currentProcess] at hy hy'
        exact hinj a (List.mem_cons_of_mem _ ha) a' (List.mem_cons_of_mem _ ha') y hy hy'
      · -- the byte is written now, and not overwritten later
        obtain rfl : e' = (c, i) := (List.mem_cons.mp he').resolve_right hlater
        have hnot : ∀ a ∈ l, k₁.translate k₁.currentProcess (va + a.2) ≠ some x := by
          intro a ha hy
          rw [hcontents.translate, hcontents.currentProcess] at hy
          exact hlater (hinj a (List.mem_cons_of_mem _ ha) (c, i) List.mem_cons_self x hy hx ▸ ha)
        obtain ⟨hkept, -⟩ := storeBytes_kept h hnot
        obtain ⟨address, haddress, hstore⟩ := Option.bind_eq_some_iff.mp hk₁
        obtain rfl := Option.some.inj (haddress.symm.trans hx)
        rw [hkept, ← Option.some.inj hstore]
        show (if _ then _ else _) = c
        rw [if_pos ⟨le_rfl, Nat.lt_succ_self address⟩, Nat.sub_self]
        rfl

/-- The first sixteen pages of addresses of the current process are different places. -/
def Kernel.Injective (k : Kernel Pointers) : Prop :=
  ∀ va va' x, va < 16 * PAGE_SIZE → va' < 16 * PAGE_SIZE →
    k.translate k.currentProcess va = some x → k.translate k.currentProcess va' = some x → va = va'

theorem ContentsOnly.injective (h : ContentsOnly k k') (hinj : k.Injective) : k'.Injective := by
  intro va va' x hva hva' hx hx'
  rw [h.translate, h.currentProcess] at hx hx'
  exact hinj va va' x hva hva' hx hx'

/-- A string is found where it was written, with its terminator. -/
theorem storeUserString_bytes {va : Nat} {body : List UInt8} (hinj : k.Injective)
    (h : k.storeUserString va body = some k') (hva : va + body.length < 16 * PAGE_SIZE) {j : Nat}
    (hj : j < (body ++ [0]).length) {x : Nat}
    (hx : k.translate k.currentProcess (va + j) = some x) :
    k'.memory.bytes x = (body ++ [0])[j] := by
  have hindex : ∀ e ∈ (body ++ [0]).zipIdx, va + e.2 < 16 * PAGE_SIZE := by
    intro e he
    have hlt := List.snd_lt_of_mem_zipIdx he
    simp only [List.length_append, List.length_singleton] at hlt
    omega
  have hmem : ((body ++ [0])[j], j) ∈ (body ++ [0]).zipIdx := by
    rw [List.mem_iff_getElem]
    exact ⟨j, by simpa using hj, by simp⟩
  refine storeBytes_spec h ?_ _ hmem x hx
  intro e he e' he' y hy hy'
  have hsame : va + e.2 = va + e'.2 := hinj _ _ y (hindex e he) (hindex e' he') hy hy'
  have hindices : e.2 = e'.2 := Nat.add_left_cancel hsame
  have hget := List.mem_zipIdx_iff_getElem?.mp he
  rw [hindices, List.mem_zipIdx_iff_getElem?.mp he'] at hget
  exact Prod.ext (Option.some.inj hget).symm hindices

/-- The loop that passes the arguments on writes each to its row. -/
theorem passArguments_bytes {i stackPointer : Nat} {arguments : List (List UInt8)}
    {r : Nat × Kernel Pointers} (h : k.passArguments i stackPointer arguments = some r)
    (hfits : Fits arguments) (hinj : k.Injective) (hi : i + arguments.length ≤ 33)
    (hsmall : stackPointer ≤ 16 * PAGE_SIZE)
    (hroom : arguments.length * SYSCALL_EXEC_ARGUMENT_DIMENSION ≤ stackPointer) {n : Nat}
    (hn : n < arguments.length) {j : Nat} (hj : j < (arguments[n] ++ [0]).length) {x : Nat}
    (hx : k.translate k.currentProcess
      (stackPointer - (n + 1) * SYSCALL_EXEC_ARGUMENT_DIMENSION + j) = some x) :
    r.2.memory.bytes x = (arguments[n] ++ [0])[j] := by
  induction arguments generalizing k i stackPointer n with
  | nil => exact absurd hn (Nat.not_lt_zero n)
  | cons argument rest ih =>
      have hpointer : (stackPointer + 2 ^ 64 - SYSCALL_EXEC_ARGUMENT_DIMENSION) % 2 ^ 64 =
          stackPointer - SYSCALL_EXEC_ARGUMENT_DIMENSION := by
        unfold SYSCALL_EXEC_ARGUMENT_DIMENSION at hroom ⊢
        unfold PAGE_SIZE at hsmall
        rw [List.length_cons] at hroom
        omega
      rw [Kernel.passArguments, hpointer] at h
      obtain ⟨k₁, hk₁, h⟩ := Option.bind_eq_some_iff.mp h
      rw [List.length_cons] at hi hroom
      have hlen := (hfits argument List.mem_cons_self).1
      have hdim : SYSCALL_EXEC_ARGUMENT_DIMENSION = 64 := rfl
      have hframe := Delivered.setTrapFrame ∅ (by omega : i + 1 < 34)
        (stackPointer - SYSCALL_EXEC_ARGUMENT_DIMENSION) k₁
      have hcontents := (ContentsOnly.storeUserString hk₁).trans hframe.contents
      rw [Nat.succ_mul] at hroom
      cases n with
      | zero =>
          rw [Nat.zero_add, Nat.one_mul] at hx
          -- the later arguments are below
          have hrest := Delivered.passArguments h (by omega) (by omega) (by omega)
            (A := { y | ∃ va, va < stackPointer - SYSCALL_EXEC_ARGUMENT_DIMENSION ∧
              k.translate k.currentProcess va = some y }) ?_
          · rw [hrest.bytes x ?_, hframe.bytes x (Set.notMem_empty x)]
            · exact storeUserString_bytes hinj hk₁ (by omega) hj hx
            · rintro ⟨va, hva, hy⟩
              have hjlen : j < argument.length + 1 := by simpa using hj
              have hsame := hinj _ _ x (by omega) (by omega) hx hy
              omega
          · intro m hm l hl y hy
            rw [hcontents.translate, hcontents.currentProcess] at hy
            refine ⟨_, ?_, hy⟩
            have hlen' := (hfits rest[m] (List.mem_cons_of_mem _ (List.getElem_mem hm))).1
            have hrow : (m + 1) * SYSCALL_EXEC_ARGUMENT_DIMENSION ≤
                rest.length * SYSCALL_EXEC_ARGUMENT_DIMENSION := Nat.mul_le_mul_right _ hm
            rw [Nat.succ_mul] at hrow ⊢
            omega
      | succ n =>
          have hn' : n < rest.length := Nat.lt_of_succ_lt_succ hn
          refine ih h (fun a ha ↦ hfits a (List.mem_cons_of_mem _ ha)) (hcontents.injective hinj)
            (by omega) (by omega) (by omega) hn' hj ?_
          rw [hcontents.translate, hcontents.currentProcess]
          rw [Nat.succ_mul (n + 1), Nat.add_comm ((n + 1) * _), ← Nat.sub_sub] at hx
          exact hx

/-- The strings are at the top of the stack when `syscall_exec` returns. -/
theorem passOn_bytes {arguments : List (List UInt8)} (h : k.passOn arguments = some k')
    (hfits : Fits arguments) (hinj : k.Injective) (hframe : arguments.length ≤ 33) {n : Nat}
    (hn : n < arguments.length) {j : Nat} (hj : j < (arguments[n] ++ [0]).length) {x : Nat}
    (hx : k.translate k.currentProcess
      (16 * PAGE_SIZE - (n + 1) * SYSCALL_EXEC_ARGUMENT_DIMENSION + j) = some x) :
    k'.memory.bytes x = (arguments[n] ++ [0])[j] := by
  obtain ⟨r, hr, h⟩ := Option.bind_eq_some_iff.mp h
  obtain rfl := Option.some.inj h
  have hfirst := Delivered.setTrapFrame ∅ (by decide : 0 < 34) arguments.length k
  have hroom : arguments.length * SYSCALL_EXEC_ARGUMENT_DIMENSION ≤ 16 * PAGE_SIZE := by
    unfold SYSCALL_EXEC_ARGUMENT_DIMENSION PAGE_SIZE
    omega
  have hpassed := passArguments_bytes (x := x) hr hfits (hfirst.contents.injective hinj) (by omega)
    le_rfl hroom hn hj (by rwa [hfirst.contents.translate, hfirst.contents.currentProcess])
  have hlast := ((Delivered.modifyCurrent ∅ r.2 (f := fun b ↦
    { b with cpuContext := { b.cpuContext with pc := 0, sp := r.1 } }) fun _ ↦ rfl).trans
      (.setTrapFrame _ (by decide : 31 < 34) r.1 _)).trans (.setTrapFrame _
        (by decide : 32 < 34) 0 _)
  rw [← hpassed]
  exact hlast.bytes x (Set.notMem_empty x)

/-! ## The new pages -/

/-- What the second half of `syscall_exec` has done, with the old user pages `us`, the tables `ts`
and the new user pages `us'`: `k₁` is the kernel without the old pages, `k₂` has the new ones. -/
structure ImageReplaced (s : System) (buffer size : Nat) (arguments : List (List UInt8))
    (us ts us' ts' : List Nat) (k₁ k₂ k' : Kernel Pointers) : Prop where
  space : AddressSpace s.kernel.memory (s.kernel.pcb s.kernel.currentProcess).mm us ts
  back : GivenBack s.kernel.currentProcess us s.kernel k₁
  extended : Extended (s.kernel.Reach (us ++ ts)) s.kernel.currentProcess
    (s.kernel.pcb s.kernel.currentProcess).outsideMm k₁ [] 16 us' ts' k₂
  filled : BufferOutside (s.kernel.Reach (us ++ ts)) buffer size →
    Filled (image k₁ buffer size) k₁ 0 us' k₂
  passed : k₂.passOn arguments = some k'

namespace ImageReplaced

variable {s : System} {buffer size : Nat} {arguments : List (List UInt8)}
  {us ts us' ts' : List Nat} {k₂ : Kernel Pointers}

/-- The pages are always replaced: the sixteen that have been given back suffice. -/
theorem of_sound (h : s.Sound) (hu : s.kernel.currentProcess ∈ s.user) (buffer size : Nat) :
    ∃ us ts us' ts' k₁ k₂, ∀ arguments,
      s.kernel.replaceImage buffer size arguments = k₂.passOn arguments ∧
      ∀ k', k₂.passOn arguments = some k' →
        ImageReplaced s buffer size arguments us ts us' ts' k₁ k₂ k' := by
  obtain ⟨us, ts, hus, hts, -, -, hspace⟩ := h.fullSpace hu
  obtain ⟨k₁, hk₁, hback, hbuilding⟩ := h.owned.release h.current_live hspace
  obtain ⟨k₂, hk₂, -, -, us', ts', hext, hfill⟩ := (hbuilding.copyCode buffer size).enough (by
    rw [hts, hback.free, hus]
    exact Nat.le_add_left _ _)
  refine ⟨us, ts, us', ts', k₁, k₂, fun arguments ↦
    ⟨?_, fun k' hpassed ↦ ⟨hspace, hback, hext, hfill, hpassed⟩⟩⟩
  rw [replaceImage_eq, hk₁, Option.bind_some, hback.confined.currentProcess, hk₂, Option.bind_some]

variable (h : ImageReplaced s buffer size arguments us ts us' ts' k₁ k₂ k')
include h

theorem currentProcess : k₂.currentProcess = s.kernel.currentProcess :=
  h.extended.confined.currentProcess.trans h.back.confined.currentProcess

theorem length : us'.length = MAX_PROCESS_PAGES := h.extended.length

theorem injective : k₂.Injective := by
  intro va va' x hva hva' hx hx'
  rw [h.currentProcess] at hx hx'
  exact h.extended.building.translate_inj h.length hva hva' hx hx'

theorem translate (va : Nat) : k'.translate s.kernel.currentProcess va =
    k₂.translate s.kernel.currentProcess va :=
  (ContentsOnly.passOn h.passed).translate _ va

/-- Pages that are in use and neither a user page nor a table of the caller are left alone. -/
theorem others (hframe : arguments.length ≤ 33) {a : Nat} (hused : s.kernel.memory.InUse a)
    (hout : a ∉ us ++ ts) {x : Nat} (hx : x < PAGE_SIZE) :
    k'.memory.bytes (a + x) = s.kernel.memory.bytes (a + x) := by
  obtain ⟨i, hi, rfl, hmark⟩ := hused
  have hused : s.kernel.memory.InUse (pageAddress i) := ⟨i, hi, rfl, hmark⟩
  have hreach := Kernel.notMem_reach hused hout
  have hback := h.back.confined.bytes_page ⟨i, rfl⟩ (fun hin ↦ hout (List.mem_append_left _ hin)) hx
  have hfill := h.extended.confined.bytes_page ⟨i, rfl⟩ hreach hx
  have hdelivered := Delivered.passOn h.passed hframe
  rw [← hback, ← hfill]
  refine hdelivered.bytes _ ?_
  rintro ⟨va, ⟨n, hn, hle, hlt⟩, htranslate⟩
  rw [h.currentProcess] at htranslate
  obtain ⟨j, hj, -, hsame⟩ := (h.extended.building.space.walk_eq_some
    h.extended.building.used (h.extended.building.length_ts h.length) h.length).mp htranslate
  have hfresh := h.extended.fresh j hj (Nat.zero_le j)
  obtain ⟨i', -, hi', -⟩ := h.extended.building.used us'[j]
    (List.mem_append_left _ (List.getElem_mem hj))
  have hmod := Nat.mod_lt va (show 0 < PAGE_SIZE by decide)
  rw [hi'] at hsame
  have hpage : i = i' := page_unique (x := pageAddress i + x) (by omega) (by omega) (by omega)
    (by omega)
  exact hreach (hpage ▸ hi' ▸ hfresh)

/-- The new image, outside of the argument strings. -/
theorem image_bytes (hout : BufferOutside (s.kernel.Reach (us ++ ts)) buffer size)
    (hfits : Fits arguments) (hframe : arguments.length ≤ 33) {va : Nat} (hva : va < 16 * PAGE_SIZE)
    (harg : ¬ InArgument arguments va) :
    ∃ x, k'.translate s.kernel.currentProcess va = some x ∧
      k'.memory.bytes x = image k₁ buffer size (va / PAGE_SIZE) (va % PAGE_SIZE) := by
  obtain ⟨hj, htranslate⟩ := h.extended.building.translate_page h.length hva
  refine ⟨_, (h.translate va).trans htranslate, ?_⟩
  have hmod := Nat.mod_lt va (show 0 < PAGE_SIZE by decide)
  rw [← (h.filled hout).bytes _ hj (Nat.zero_le _) _ hmod]
  refine (Delivered.passOn h.passed hframe).bytes _ ?_
  rintro ⟨va', hva', hx⟩
  rw [h.currentProcess] at hx
  have hin : va' < 16 * PAGE_SIZE := by
    obtain ⟨n, hn, -, hle⟩ := hva'
    have hlen := (hfits arguments[n] (List.getElem_mem hn)).1
    unfold SYSCALL_EXEC_ARGUMENT_DIMENSION PAGE_SIZE at *
    omega
  have hsame := h.extended.building.translate_inj h.length hva hin htranslate hx
  exact harg (hsame ▸ hva')

end ImageReplaced

/-! ## The staging page -/

/-- `k` is the kernel when the file has been read and closed: its bytes have been stored from the
page `i` on, which was free, and no page in use has changed otherwise. -/
structure Staged (s : System) (data : List UInt8) (i : Nat) (k : Kernel Pointers) : Prop where
  lt : i < N_PAGES
  fresh : ¬ s.kernel.memory.InUse (pageAddress i)
  sound : System.Sound ⟨k, s.held ++ [pageAddress i], s.user⟩
  currentProcess : k.currentProcess = s.kernel.currentProcess
  mm : (k.pcb s.kernel.currentProcess).mm = (s.kernel.pcb s.kernel.currentProcess).mm
  inUse : ∀ a, s.kernel.memory.InUse a → k.memory.InUse a
  staged : ∀ x < PAGE_SIZE, x < data.length → k.memory.bytes (pageAddress i + x) = data.getD x 0
  kept : ∀ a, s.kernel.memory.InUse a → ∀ x < PAGE_SIZE, k.memory.bytes (a + x) =
    (s.kernel.memory.store (pageAddress i) data).bytes (a + x)

section

variable {s : System} {fd fi fj i : Nat} {k₀ : Kernel Pointers} {data : List UInt8}

/-- The slot of an open file, after its contents have been stored in a fresh page. -/
theorem Opened.stored (h : s.Sound) (hop : Opened .file fd fi fj s.kernel k₀) (hi : i < N_PAGES)
    (hfree : k₀.memory.memoryPages i = false) (data : List UInt8) {k₁ : Kernel Pointers}
    (hk₁ : k₁ = (k₀.takePage i).mapMemory (·.store (pageAddress i) data)) :
    k₁.currentProcess = s.kernel.currentProcess ∧
    k₁.pcb s.kernel.currentProcess = { s.kernel.current with
      files := Function.update s.kernel.current.files fd (pageAddress fj + VA_START) } ∧
    k₁.memory.fatResources (pageAddress fj + VA_START) = ⟨.file, pageAddress fi + VA_START⟩ := by
  have htake := System.Sound.takePage_confined (k := k₀) i
  have hfj : pageAddress fj ≠ pageAddress i := by
    rintro he
    rw [pageAddress_inj] at he
    rw [← he, hop.j_used] at hfree
    cases hfree
  subst hk₁
  refine ⟨hop.confined.currentProcess, ?_, ?_⟩
  · refine Eq.trans ?_ hop.current
    refine htake.pcb _ (Set.notMem_empty _) ?_
    rintro a ha rfl
    have hused := h.control h.current_live ha
    have hold : pageAddress i ∉ ({pageAddress fi, pageAddress fj} : Set Nat) := by
      rintro (he | he)
      · rw [he, Memory.inUse_page hop.i_lt, hop.i_free] at hused
        cases hused
      · exact hfj he.symm
    exact Memory.not_inUse hi hfree ((hop.confined.inUse hold).mpr hused)
  · have hrecords : ((k₀.takePage i).mapMemory (·.store (pageAddress i) data)).memory.fatResources =
        (k₀.takePage i).memory.fatResources := rfl
    rw [hrecords, htake.records _ hfj, hop.record]

/-- Opening the file and taking the staging page has not touched the pages in use. -/
theorem Opened.staged (hop : Opened .file fd fi fj s.kernel k₀) (hi : i < N_PAGES)
    (hfree : k₀.memory.memoryPages i = false) :
    ¬ s.kernel.memory.InUse (pageAddress i) ∧ fi ≠ i ∧
    ∀ a, s.kernel.memory.InUse a → a ≠ pageAddress fi ∧ (k₀.takePage i).memory.InUse a ∧
      ∀ x < PAGE_SIZE, (k₀.takePage i).memory.bytes (a + x) = s.kernel.memory.bytes (a + x) := by
  have hold : ∀ a, s.kernel.memory.InUse a → a ∉ ({pageAddress fi, pageAddress fj} : Set Nat) := by
    rintro a ha (rfl | rfl)
    · exact Memory.not_inUse hop.i_lt hop.i_free ha
    · exact Memory.not_inUse hop.j_lt hop.j_free ha
  have hstill : ∀ a, s.kernel.memory.InUse a → k₀.memory.InUse a := fun a ha ↦
    (hop.confined.inUse (hold a ha)).mpr ha
  have hfresh : ¬ k₀.memory.InUse (pageAddress i) := by
    exact Memory.not_inUse hi hfree
  refine ⟨fun hused ↦ hfresh (hstill _ hused), ?_, fun a ha ↦ ⟨?_, ?_, fun x hx ↦ ?_⟩⟩
  · rintro rfl
    rw [hop.i_used] at hfree
    cases hfree
  · exact fun he ↦ hold a ha (.inl he)
  · exact (takePage_inUse hi a).mpr (.inl (hstill a ha))
  · have hne : a ∉ ({pageAddress i} : Set Nat) := by
      rintro rfl
      exact hfresh (hstill _ ha)
    rw [(System.Sound.takePage_confined i).bytes_page ha.isPage hne hx]
    exact hop.confined.bytes_page ha.isPage (hold a ha) hx

/-- Closing gives back the page of the structure, which is none of the pages in use before. -/
theorem Staged.of_confined (hop : Opened .file fd fi fj s.kernel k₀)
    (hi : i < N_PAGES) (hfree : k₀.memory.memoryPages i = false) {j : Nat}
    (hj : j = fi ∨ (k₀.takePage i).memory.memoryPages j = false)
    (hsound : System.Sound ⟨k', s.held ++ [pageAddress i], s.user⟩)
    (hmm : (k'.pcb s.kernel.currentProcess).mm = (s.kernel.pcb s.kernel.currentProcess).mm)
    (hconfined : Confined {pageAddress fi, pageAddress j} {s.kernel.currentProcess}
      ((k₀.takePage i).mapMemory (·.store (pageAddress i) data)) k') : Staged s data i k' := by
  obtain ⟨hfresh, hne, hstaged⟩ := hop.staged hi hfree
  set k₁ := (k₀.takePage i).mapMemory (·.store (pageAddress i) data) with hk₁
  have hmark : (k₀.takePage i).memory.memoryPages i = true := Function.update_self ..
  have hout : ∀ a, a ≠ pageAddress fi → (k₀.takePage i).memory.InUse a →
      a ∉ ({pageAddress fi, pageAddress j} : Set Nat) := by
    rintro a hne ha (rfl | rfl)
    · exact hne rfl
    · rcases hj with rfl | hj
      · exact hne rfl
      · obtain ⟨l, hl, hsame, hused⟩ := ha
        rw [← pageAddress_inj.mp hsame, hj] at hused
        cases hused
  have houti : pageAddress i ∉ ({pageAddress fi, pageAddress j} : Set Nat) :=
    hout _ (fun he ↦ hne (pageAddress_inj.mp he).symm) ((Memory.inUse_page hi).mpr hmark)
  refine ⟨hi, hfresh, hsound, ?_, hmm, fun a ha ↦ ?_, fun x hx hlt ↦ ?_, fun a ha x hx ↦ ?_⟩
  · exact hconfined.currentProcess.trans hop.confined.currentProcess
  · obtain ⟨hafi, hused, -⟩ := hstaged a ha
    exact (hconfined.inUse (hout a hafi hused)).mpr hused
  · rw [hconfined.bytes_page ⟨i, rfl⟩ houti hx]
    show (if _ then _ else _) = _
    rw [if_pos ⟨Nat.le_add_right _ _, Nat.add_lt_add_left hlt _⟩, Nat.add_sub_cancel_left]
  · obtain ⟨hafi, hused, hbytes⟩ := hstaged a ha
    rw [hconfined.bytes_page ha.isPage (hout a hafi hused) hx]
    show (if _ then _ else _) = (if _ then _ else _)
    rw [hbytes x hx]

/-- The file is closed again. -/
theorem Opened.closes (h : s.Sound) (hop : Opened .file fd fi fj s.kernel k₀) (hi : i < N_PAGES)
    (hfree : k₀.memory.memoryPages i = false) (data : List UInt8) (closeError : Int) :
    ∃ closed j, ((k₀.takePage i).mapMemory
        (·.store (pageAddress i) data)).syscallCloseFile fd closeError = .ok closed ∧
      (j = fi ∨ (k₀.takePage i).memory.memoryPages j = false) ∧
      (closed.kernel.pcb s.kernel.currentProcess).mm = (s.kernel.pcb s.kernel.currentProcess).mm ∧
      Confined {pageAddress fi, pageAddress j} {s.kernel.currentProcess}
        ((k₀.takePage i).mapMemory (·.store (pageAddress i) data)) closed.kernel := by
  obtain ⟨hcur, hpcb, hrecord⟩ := hop.stored h hi hfree data rfl
  obtain ⟨-, -, hstaged⟩ := hop.staged hi hfree
  set k₁ := (k₀.takePage i).mapMemory (·.store (pageAddress i) data) with hk₁
  have hcurrent : k₁.current = { s.kernel.current with
      files := Function.update s.kernel.current.files fd (pageAddress fj + VA_START) } := by
    rw [Globals.current, hcur, hpcb]
  have hfile : k₁.current.files fd = pageAddress fj + VA_START := by
    rw [hcurrent]
    exact Function.update_self ..
  have hptr : (k₁.memory.fatResources (k₁.current.files fd)).ptr = pageAddress fi + VA_START := by
    rw [hfile, hrecord]
  have hne₀ : k₁.current.files fd ≠ 0 := by
    rw [hfile]
    exact Kernel.address_ne_zero fj
  obtain ⟨-, hrun⟩ | ⟨-, j, hj, hjfree, hrun⟩ :=
    Kernel.syscallCloseFile_open (k := k₁) closeError hop.fd_lt hop.i_lt hne₀ hptr
  · refine ⟨_, fi, hrun, .inl rfl, ?_, .refl k₁⟩
    dsimp only
    rw [hpcb]
    rfl
  · have hout : k₁.currentProcess.Outside {pageAddress fi, pageAddress j} := by
      rw [hcur]
      rintro a ha (rfl | rfl)
      · exact (hstaged _ (h.control h.current_live ha)).1 rfl
      · obtain ⟨hne, hused, -⟩ := hstaged _ (h.control h.current_live ha)
        rcases hjfree with rfl | hjfree
        · exact hne rfl
        · have hmark : (k₀.takePage i).memory.memoryPages j = false := hjfree
          exact Memory.not_inUse hj hmark hused
    have hclosed := Closed.of_kernel hop.fd_lt hop.i_lt hj hjfree hout
    have hconfined := hclosed.confined
    rw [hcur] at hconfined
    refine ⟨_, j, hrun, hjfree, ?_, hconfined⟩
    have hmm := congrArg PCB.mm hclosed.current
    rw [hcur, hcurrent] at hmm
    exact hmm

/-- A successful open. -/
theorem Opened.of_run (h : s.Sound) {openError : Int} {opened : FileResult}
    (hopened : s.kernel.syscallOpenFile openError = .ok opened) (hvalue : opened.value ≠ -1) :
    ∃ fd fi fj : Nat, opened.value = (fd : Int) ∧ Opened .file fd fi fj s.kernel opened.kernel := by
  obtain ⟨-, rfl⟩ | ⟨fd, fi, hfd, hfi, hfifree, hcase⟩ := Kernel.openResource_cases hopened
  · exact absurd rfl hvalue
  obtain ⟨-, rfl⟩ | ⟨-, fj, hfj, hne, hfjfree, rfl⟩ := hcase
  · exact absurd rfl hvalue
  obtain ⟨hlt, hslot⟩ := Kernel.getFirstFreeFileDescriptor_eq_some hfd
  refine ⟨fd, fi, fj, rfl, .of_kernel .file hlt hslot hfi hfj hne hfifree hfjfree ?_⟩
  refine h.outside h.current_live ?_
  rintro b (rfl | rfl) hused
  · exact Memory.not_inUse hfi hfifree hused
  · exact Memory.not_inUse hfj hfjfree hused

/-- The file is opened, read into a fresh page, and closed. -/
theorem Staged.of_run (h : s.Sound) {openError closeError : Int} {opened closed : FileResult}
    (hopened : s.kernel.syscallOpenFile openError = .ok opened) (hvalue : opened.value ≠ -1)
    (hi : i < N_PAGES) (hfree : opened.kernel.memory.memoryPages i = false)
    (hclosed : ((opened.kernel.takePage i).mapMemory
      (·.store (pageAddress i) data)).syscallCloseFile opened.value closeError = .ok closed) :
    Staged s data i closed.kernel := by
  obtain ⟨hopen, -⟩ := h.openResource hopened
  have hheld : System.Sound ⟨opened.kernel.takePage i, s.held ++ [pageAddress i], s.user⟩ :=
    hopen.hold hi hfree (System.Sound.takePage_confined i) (.inr ⟨rfl, Function.update_self ..⟩)
  obtain ⟨hclose, -⟩ := (hheld.contents (.store _ (pageAddress i) data)).closeFile hclosed
  obtain ⟨fd, fi, fj, hfd, hop⟩ := Opened.of_run h hopened hvalue
  obtain ⟨closed', j, hrun, hj, hmm, hconfined⟩ := hop.closes h hi hfree data closeError
  rw [← hfd] at hrun
  obtain rfl := Except.ok.inj (hrun.symm.trans hclosed)
  exact .of_confined hop hi hfree hj hclose hmm hconfined

end

/-! ## The result of exec -/

/-- The new image of the caller: the bytes of the file from address 0 on, the argument strings at
the top of the stack, zeros elsewhere; and pages that are not in the address space of the caller
have kept their bytes. -/
structure Replaced (s : System) (data : List UInt8) (arguments : List (List UInt8))
    (k' : Kernel Pointers) : Prop where
  code : ∀ va (h : va < data.length), ∃ x,
    k'.translate s.kernel.currentProcess va = some x ∧ k'.memory.bytes x = data[va]
  zero : ∀ va, data.length ≤ va → va < 16 * PAGE_SIZE → ¬ InArgument arguments va → ∃ x,
    k'.translate s.kernel.currentProcess va = some x ∧ k'.memory.bytes x = 0
  arguments : ∀ n (hn : n < arguments.length) j (hj : j < (arguments[n] ++ [0]).length), ∃ x,
    k'.translate s.kernel.currentProcess
      (16 * PAGE_SIZE - (n + 1) * SYSCALL_EXEC_ARGUMENT_DIMENSION + j) = some x ∧
    k'.memory.bytes x = (arguments[n] ++ [0])[j]
  others : ∀ o a, s.Owns o a → (∀ j, o ≠ .userPage s.kernel.currentProcess j) →
    (∀ l, o ≠ .table s.kernel.currentProcess l) → ∀ x < PAGE_SIZE,
      k'.memory.bytes (a + x) = s.kernel.memory.bytes (a + x)

section

variable {s : System} {data : List UInt8} {arguments : List (List UInt8)} {i : Nat}

/-- A page of the address space of the caller belongs to it. -/
theorem Staged.owns (h : s.Sound) (hstaged : Staged s data i k) {us ts : List Nat}
    (hspace : AddressSpace k.memory (k.pcb s.kernel.currentProcess).mm us ts) {a : Nat}
    (ha : a ∈ us ++ ts) : ∃ o, s.Owns o a ∧
      ((∃ j, o = .userPage s.kernel.currentProcess j) ∨
        ∃ l, o = .table s.kernel.currentProcess l) := by
  rcases List.mem_append.mp ha with hmem | hmem
  · obtain ⟨j, hj⟩ := List.mem_iff_getElem?.mp hmem
    have hentry := hspace.userPage_iff.mpr hj
    rw [hstaged.mm] at hentry
    exact ⟨.userPage s.kernel.currentProcess j, ⟨h.current_live, hentry⟩, .inl ⟨j, rfl⟩⟩
  · obtain ⟨l, hl⟩ := List.mem_iff_getElem?.mp hmem
    have hentry := hspace.table_iff.mpr hl
    rw [hstaged.mm] at hentry
    exact ⟨.table s.kernel.currentProcess l, ⟨h.current_live, hentry⟩, .inr ⟨l, rfl⟩⟩

/-- The staging page is out of reach of the code that maps the new pages. -/
theorem Staged.notMem_reach (hstaged : Staged s data i k) {us ts : List Nat}
    (hspace : AddressSpace k.memory (k.pcb s.kernel.currentProcess).mm us ts) :
    pageAddress i ∉ k.Reach (us ++ ts) := by
  intro hmem
  have hheld : Kernel.Owns k (System.mk k (s.held ++ [pageAddress i]) s.user).live
      (s.held ++ [pageAddress i]) (.held s.held.length) (pageAddress i) := by
    show (s.held ++ [pageAddress i])[s.held.length]? = some _
    exact List.getElem?_concat_length
  have hlive := hstaged.sound.current_live
  have hcur := hstaged.currentProcess
  dsimp only at hlive
  rw [hcur] at hlive
  obtain ⟨j, hj⟩ | ⟨l, hl⟩ := hstaged.sound.owned.reach_owner hlive hspace hheld hmem
  · cases hj
  · cases hl

/-- Pages outside the address space of the caller are left alone by the second half of exec. -/
theorem Staged.others (h : s.Sound) (hstaged : Staged s data i k) {size : Nat}
    {us ts us' ts' : List Nat} {k₂ : Kernel Pointers}
    (hreplaced : ImageReplaced ⟨k, s.held ++ [pageAddress i], s.user⟩ (pageAddress i) size arguments
      us ts us' ts' k₁ k₂ k') (hframe : arguments.length ≤ 33) {o : Owner} {a : Nat}
    (ho : s.Owns o a) (huser : ∀ j, o ≠ .userPage s.kernel.currentProcess j)
    (htable : ∀ l, o ≠ .table s.kernel.currentProcess l) {x : Nat} (hx : x < PAGE_SIZE) :
    k'.memory.bytes (a + x) = (s.kernel.memory.store (pageAddress i) data).bytes (a + x) := by
  have hused := h.owned.exclusive.used ho
  have hspace := hreplaced.space
  dsimp only at hspace
  rw [hstaged.currentProcess] at hspace
  rw [← hstaged.kept a hused x hx]
  refine hreplaced.others hframe (hstaged.inUse a hused) ?_ hx
  intro hmem
  obtain ⟨o', ho', howner⟩ := hstaged.owns h hspace hmem
  have hsame : o = o' := h.owned.exclusive.unique ho ho'
  rcases howner with ⟨j, rfl⟩ | ⟨l, rfl⟩
  · exact huser j hsame
  · exact htable l hsame

/-- A file that fits into the staging page replaces the image as it should. -/
theorem Staged.replaced (h : s.Sound) (hu : s.kernel.currentProcess ∈ s.user)
    (hstaged : Staged s data i k) (hdata : data.length ≤ PAGE_SIZE) (hfits : Fits arguments)
    (hframe : arguments.length ≤ 33)
    (hrun : k.replaceImage (pageAddress i) data.length arguments = some k') :
    Replaced s data arguments k' := by
  have hcur := hstaged.currentProcess
  have hmode : k.currentProcess ∈ s.user := by rwa [hcur]
  obtain ⟨us, ts, us', ts', k₁, k₂, hways⟩ :=
    ImageReplaced.of_sound hstaged.sound hmode (pageAddress i) data.length
  obtain ⟨hpages, hreplaced⟩ := hways arguments
  replace hreplaced := hreplaced k' (hpages.symm.trans hrun)
  have hspace := hreplaced.space
  dsimp only at hspace
  rw [hcur] at hspace
  have hout := hstaged.notMem_reach hspace
  have hbuffer : BufferOutside (k.Reach (us ++ ts)) (pageAddress i) data.length := fun x hx ↦
    ⟨i, hout, Nat.le_add_right _ _, Nat.add_lt_add_left (hx.trans_le hdata) _⟩
  have himage : ∀ va, image k₁ (pageAddress i) data.length (va / PAGE_SIZE) (va % PAGE_SIZE) =
      if va < data.length then data.getD va 0 else 0 := by
    intro va
    have hva : va / PAGE_SIZE * PAGE_SIZE + va % PAGE_SIZE = va := by
      rw [Nat.mul_comm]
      exact Nat.div_add_mod va PAGE_SIZE
    have hback : pageAddress i ∉ ({ a | a ∈ us } : Set Nat) := fun hin ↦
      hout (.inl (List.mem_append_left _ hin))
    rw [image, hva]
    split_ifs with hlt
    · rw [hreplaced.back.confined.bytes_page ⟨i, rfl⟩ hback (hlt.trans_le hdata)]
      exact hstaged.staged va (hlt.trans_le hdata) hlt
    · rfl
  have htop : ∀ va, InArgument arguments va → 15 * PAGE_SIZE ≤ va := by
    rintro va ⟨n, hn, hle, -⟩
    unfold SYSCALL_EXEC_ARGUMENT_DIMENSION PAGE_SIZE at *
    omega
  refine ⟨fun va hva ↦ ?_, fun va hle hlt harg ↦ ?_, fun n hn j hj ↦ ?_, ?_⟩
  · have hsmall : va < 15 * PAGE_SIZE := by
      unfold PAGE_SIZE at *
      omega
    have hin : va < 16 * PAGE_SIZE := by omega
    obtain ⟨x, hx, hbyte⟩ := hreplaced.image_bytes hbuffer hfits hframe hin
      fun harg ↦ absurd (htop va harg) (by omega)
    dsimp only at hx
    rw [hcur] at hx
    refine ⟨x, hx, ?_⟩
    rw [hbyte, himage, if_pos hva, List.getD_eq_getElem?_getD, List.getElem?_eq_getElem hva,
      Option.getD_some]
  · obtain ⟨x, hx, hbyte⟩ := hreplaced.image_bytes hbuffer hfits hframe hlt harg
    dsimp only at hx
    rw [hcur] at hx
    refine ⟨x, hx, ?_⟩
    rw [hbyte, himage, if_neg (by omega)]
  · have hlen := (hfits arguments[n] (List.getElem_mem hn)).1
    have hj' : j < arguments[n].length + 1 := by simpa using hj
    have hva : 16 * PAGE_SIZE - (n + 1) * SYSCALL_EXEC_ARGUMENT_DIMENSION + j < 16 * PAGE_SIZE := by
      unfold SYSCALL_EXEC_ARGUMENT_DIMENSION PAGE_SIZE at *
      omega
    obtain ⟨hpage, htranslate⟩ :=
      hreplaced.extended.building.translate_page hreplaced.length hva
    have hk' := hreplaced.translate
      (16 * PAGE_SIZE - (n + 1) * SYSCALL_EXEC_ARGUMENT_DIMENSION + j)
    have hcur₂ := hreplaced.currentProcess
    dsimp only at htranslate hk' hcur₂
    rw [hcur] at htranslate hk' hcur₂
    refine ⟨_, hk'.trans htranslate, ?_⟩
    refine passOn_bytes hreplaced.passed hfits hreplaced.injective hframe hn hj ?_
    rw [hcur₂]
    exact htranslate
  · intro o a ho huser htable x hx
    rw [hstaged.others h hreplaced hframe ho huser htable hx]
    have hused := h.owned.exclusive.used ho
    refine if_neg fun hin ↦ ?_
    obtain ⟨l, hl, rfl, hmark⟩ := hused
    have hpage : i = l := page_unique (x := pageAddress l + x) hin.1 (by omega)
      (by omega) (by omega)
    exact hstaged.fresh (hpage ▸ h.owned.exclusive.used ho)

/-- The first half of a call that returns 0. -/
theorem Staged.of_exec (h : s.Sound) {file : FatFile} {r : ExecResult}
    (hrun : s.kernel.syscallExec file arguments = some r) (hzero : r.value = 0) :
    ∃ i k saved, Staged s file.delivered i k ∧ saveArguments arguments = some saved ∧
      k.replaceImage (pageAddress i) file.delivered.length saved = some r.kernel := by
  obtain ⟨opened, hopened, ⟨-, rfl⟩ | ⟨hvalue, i, hi, hfree, closed, hclosed, hcase⟩⟩ :=
    syscallExec_cases hrun
  · cases hzero
  obtain ⟨-, rfl⟩ | ⟨-, saved, k', hsaved, himage, rfl⟩ := hcase
  · cases hzero
  · exact ⟨i, closed.kernel, saved, .of_run h hopened hvalue hi hfree hclosed, hsaved, himage⟩

/-- A file is read as it is, up to sixteen pages. -/
theorem delivered_eq (file : FatFile) (hlen : file.data.length ≤ PAGE_SIZE * 16) :
    file.delivered = file.data := List.take_of_length_le hlen

/-- A program of one page replaces the image as it should. -/
theorem exec_small (h : s.Sound) (hu : s.kernel.currentProcess ∈ s.user) {file : FatFile}
    {r : ExecResult} (hdata : file.data.length ≤ PAGE_SIZE) (hfits : Fits arguments)
    (hframe : arguments.length ≤ 33) (hrun : s.kernel.syscallExec file arguments = some r)
    (hzero : r.value = 0) : Replaced s file.data arguments r.kernel := by
  obtain ⟨i, k, saved, hstaged, hsaved, himage⟩ := Staged.of_exec h hrun hzero
  rw [saveArguments_eq hfits] at hsaved
  obtain rfl := Option.some.inj hsaved
  rw [delivered_eq file (hdata.trans (Nat.le_mul_of_pos_right _ (by decide)))] at hstaged himage
  exact hstaged.replaced h hu hdata hfits hframe himage

/-! ## The overrun -/

/-- The call returns 0 once the file has been opened and read. -/
theorem exec_returns (h : s.Sound) (hu : s.kernel.currentProcess ∈ s.user) (file : FatFile)
    {opened read : FileResult} (hopened : s.kernel.syscallOpenFile file.openError = .ok opened)
    (hvalue : opened.value ≠ -1) (hi : i < N_PAGES)
    (hfree : opened.kernel.memory.memoryPages i = false)
    (hpage : opened.kernel.getFreePage = (pageAddress i, opened.kernel.takePage i))
    (hread : (opened.kernel.takePage i).syscallReadFile opened.value file.readError = .ok read)
    (hlen : file.data.length ≤ PAGE_SIZE * 15) :
    ∃ k k', Staged s file.data i k ∧
      k.replaceImage (pageAddress i) file.data.length [] = some k' ∧
      s.kernel.syscallExec file [] = some ⟨0, some (pageAddress i), k'⟩ := by
  have hall := delivered_eq file (hlen.trans (Nat.mul_le_mul_left _ (by decide)))
  obtain ⟨fd, fi, fj, hfd, hop⟩ := Opened.of_run h hopened hvalue
  obtain ⟨closed, j, hclosed, -⟩ := hop.closes h hi hfree file.data file.closeError
  rw [← hfd] at hclosed
  have hstaged := Staged.of_run h hopened hvalue hi hfree hclosed
  have hmode : closed.kernel.currentProcess ∈ s.user := by rwa [hstaged.currentProcess]
  obtain ⟨us, ts, us', ts', k₁, k₂, hways⟩ :=
    ImageReplaced.of_sound hstaged.sound hmode (pageAddress i) file.data.length
  obtain ⟨hpages, -⟩ := hways []
  have hpassed : ∃ k', k₂.passOn [] = some k' := ⟨_, rfl⟩
  obtain ⟨k', hk'⟩ := hpassed
  have himage := hpages.trans hk'
  refine ⟨closed.kernel, k', hstaged, himage, ?_⟩
  have halloc : opened.kernel.allocateKernelPage =
      (pageAddress i + VA_START, opened.kernel.takePage i) := by
    rw [Kernel.allocateKernelPage, hpage]
    exact if_neg (pageAddress_pos i).ne'
  have hignored :
      ignoring ((opened.kernel.takePage i).syscallReadFile opened.value file.readError) =
        some (opened.kernel.takePage i) := by
    rw [hread, ← syscallReadFile_kernel hread]
    rfl
  have hsize : ¬ file.data.length > PAGE_SIZE * 15 := Nat.not_lt.mpr hlen
  have hnone : saveArguments [] = some [] := saveArguments_eq fun _ h ↦ by cases h
  rw [syscallExec_eq hopened, if_neg hvalue, halloc]
  dsimp only
  rw [Kernel.loadFile, hignored, Option.bind_some, if_neg (Kernel.address_ne_zero i),
    Nat.add_sub_cancel, hall, hclosed]
  simp only [ignoring, Option.bind_some, if_neg hsize, hnone, himage]

/-- A longer file is stored behind the staging page. -/
theorem Staged.overrun (h : s.Sound) (hu : s.kernel.currentProcess ∈ s.user)
    (hstaged : Staged s data i k)
    (hrun : k.replaceImage (pageAddress i) data.length arguments = some k')
    (hframe : arguments.length ≤ 33) (hdata : PAGE_SIZE < data.length) {o : Owner}
    (ho : s.Owns o (pageAddress (i + 1))) (huser : ∀ j, o ≠ .userPage s.kernel.currentProcess j)
    (htable : ∀ l, o ≠ .table s.kernel.currentProcess l) :
    k'.memory.bytes (pageAddress (i + 1)) = data.getD PAGE_SIZE 0 := by
  have hmode : k.currentProcess ∈ s.user := by rwa [hstaged.currentProcess]
  obtain ⟨us, ts, us', ts', k₁, k₂, hways⟩ :=
    ImageReplaced.of_sound hstaged.sound hmode (pageAddress i) data.length
  obtain ⟨hpages, hreplaced⟩ := hways arguments
  have hbyte := hstaged.others h (hreplaced k' (hpages.symm.trans hrun)) hframe ho huser htable
    (show 0 < PAGE_SIZE by decide)
  have hnext : pageAddress (i + 1) = pageAddress i + PAGE_SIZE := by
    unfold pageAddress
    rw [Nat.succ_mul, Nat.add_assoc]
  rw [Nat.add_zero, hnext] at hbyte
  rw [hnext, hbyte]
  show (if _ then _ else _) = _
  rw [if_pos ⟨Nat.le_add_right _ _, Nat.add_lt_add_left hdata _⟩, Nat.add_sub_cancel_left]

end

/-- A process in user mode, when the page behind the next staging page has been given away. -/
theorem userRun_gap : let _ := someCode; ∃ s : System, s.Sound ∧
    s.kernel.currentProcess ∈ s.user ∧ s.Owns (.held 0) (pageAddress 24) ∧
    s.kernel.memory.bytes (pageAddress 24) = 0 ∧ ∃ opened read,
      s.kernel.syscallOpenFile 0 = .ok opened ∧ opened.value ≠ -1 ∧
      opened.kernel.memory.memoryPages 23 = false ∧
      opened.kernel.getFreePage = (pageAddress 23, opened.kernel.takePage 23) ∧
      (opened.kernel.takePage 23).syscallReadFile opened.value 0 = .ok read := by
  intro _
  have huser : userRun.map (fun k ↦ (k.currentProcess, k.memory.memoryPages 24,
      match (k.takePage 24).syscallOpenFile 0 with
      | .ok r => (decide (r.value = -1), r.kernel.getFreePage.1,
          match (r.kernel.takePage 23).syscallReadFile r.value 0 with
          | .ok _ => true
          | .error _ => false)
      | .error _ => (true, 0, false))) =
      some (.page 0, false, false, pageAddress 23, true) := by decide +kernel
  obtain ⟨s, hreach, hk, hheld, husers⟩ := userRun_spec
  rw [← hk] at huser
  obtain ⟨hcur, h⟩ := Prod.mk.inj (Option.some.inj huser)
  obtain ⟨hmark, h⟩ := Prod.mk.inj h
  have hused : (s.kernel.takePage 24).memory.memoryPages 24 = true := by
    rw [Kernel.takePage_marks, if_pos rfl]
  have hsound : System.Sound ⟨s.kernel.takePage 24, s.held ++ [pageAddress 24], s.user⟩ :=
    hreach.sound.hold (by decide) hmark (System.Sound.takePage_confined 24) (.inr ⟨rfl, hused⟩)
  rw [hheld, List.nil_append] at hsound
  refine ⟨⟨s.kernel.takePage 24, [pageAddress 24], s.user⟩, hsound, ?_, rfl, ?_, ?_⟩
  · rw [husers]
    exact hcur
  · exact takePage_bytes le_rfl (Nat.lt_add_of_pos_right (by decide))
  · cases hopened : (s.kernel.takePage 24).syscallOpenFile 0 with
    | error fault =>
        rw [hopened] at h
        cases h
    | ok opened =>
        rw [hopened] at h
        obtain ⟨hvalue, h⟩ := Prod.mk.inj h
        obtain ⟨hpage, h⟩ := Prod.mk.inj h
        obtain ⟨i, hi, hfree, hget⟩ | ⟨-, hget⟩ := opened.kernel.getFreePage_cases
        · rw [hget] at hpage
          obtain rfl := pageAddress_inj.mp hpage
          cases hread : (opened.kernel.takePage 23).syscallReadFile opened.value 0 with
          | error fault =>
              rw [hread] at h
              cases h
          | ok read => exact ⟨opened, read, rfl, of_decide_eq_false hvalue, hfree, hget, hread⟩
        · rw [hget] at hpage
          exact absurd hpage (pageAddress_pos 23).ne

/-- In that state a program of more than one page is written into the page behind. -/
theorem userRun_overrun {n : Nat} (hn : PAGE_SIZE < n) (hn' : n ≤ PAGE_SIZE * 15) :
    ∃ (s : System) (file : FatFile) (r : ExecResult), s.Sound ∧
      s.kernel.currentProcess ∈ s.user ∧ file.data.length = n ∧
      s.kernel.syscallExec file [] = some r ∧ r.value = 0 ∧ ¬ Replaced s file.data [] r.kernel := by
  let _ := someCode
  obtain ⟨s, hsound, hu, hheld, hzero, opened, read, hopened, hvalue, hfree, hpage, hread⟩ :=
    userRun_gap
  let file : FatFile := ⟨0, 0, List.replicate n 1, 0⟩
  have hlen : file.data.length = n := List.length_replicate
  obtain ⟨k, k', hstaged, himage, hrun⟩ := exec_returns hsound hu file hopened hvalue (by decide)
    hfree hpage hread (hlen.trans_le hn')
  refine ⟨s, file, _, hsound, hu, hlen, hrun, rfl, fun hreplaced ↦ ?_⟩
  have hbyte := hstaged.overrun hsound hu himage (by simp) (hn.trans_eq hlen.symm) hheld nofun nofun
  have hkept := hreplaced.others _ _ hheld nofun nofun 0 (by decide)
  rw [Nat.add_zero, hbyte, hzero, List.getD_eq_getElem?_getD,
    List.getElem?_replicate_of_lt hn] at hkept
  cases hkept

/-- `syscall_exec` replaces the image of its caller, and nothing else, whenever it returns 0 for a
program of `n` bytes. -/
def ReplacesImages (n : Nat) : Prop :=
  ∀ (s : System) (file : FatFile) (arguments : List (List UInt8)) (r : ExecResult), s.Sound →
    s.kernel.currentProcess ∈ s.user → file.data.length = n → Fits arguments →
    arguments.length ≤ 33 → s.kernel.syscallExec file arguments = some r → r.value = 0 →
    Replaced s file.data arguments r.kernel

end DemosOS
