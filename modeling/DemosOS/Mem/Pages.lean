import DemosOS.Kernel.Fork
import DemosOS.Lib.Ownership

/-!
# The page allocator

What `get_free_page` and `free_page` do, and what the code that uses them needs to know:
which pages a piece of code can have changed (`Confined`), and how many pages it takes from
the allocator (`Takes`).
-/

namespace DemosOS

open Lib

/-! ## Addresses -/

theorem pageAddress_inj {i j : Nat} : pageAddress i = pageAddress j ↔ i = j := by
  unfold pageAddress PAGE_SIZE
  omega

theorem pageAddress_pos (i : Nat) : 0 < pageAddress i := by
  unfold pageAddress LOW_MEMORY
  omega

theorem Kernel.address_ne_zero (i : Nat) : pageAddress i + VA_START ≠ 0 := by
  have := pageAddress_pos i
  omega

theorem pageAddress_mod (i : Nat) : pageAddress i % PAGE_SIZE = 0 := by
  unfold pageAddress LOW_MEMORY PAGE_SIZE
  omega

theorem pageAddress_lt {i : Nat} (hi : i < N_PAGES) : pageAddress i < HIGH_MEMORY := by
  unfold pageAddress
  unfold N_PAGES at hi
  unfold LOW_MEMORY HIGH_MEMORY PAGE_SIZE at *
  omega

/-- Pages do not overlap. -/
theorem page_unique {i j x : Nat} (hi : pageAddress i ≤ x) (hi' : x < pageAddress i + PAGE_SIZE)
    (hj : pageAddress j ≤ x) (hj' : x < pageAddress j + PAGE_SIZE) : i = j := by
  unfold pageAddress PAGE_SIZE at *
  omega

/-- The flags of an entry sit below the address. -/
theorem pageAddress_or (i : Nat) {flags : Nat} (h : flags < PAGE_SIZE) :
    pageAddress i ||| flags = pageAddress i + flags := by
  have haddress : pageAddress i = (1024 + i) <<< 12 := by
    rw [Nat.shiftLeft_eq]
    unfold pageAddress LOW_MEMORY PAGE_SIZE
    omega
  rw [haddress]
  exact (Nat.shiftLeft_add_eq_or_of_lt h _).symm

theorem and_pageMask {x : Nat} (hx : x < 2 ^ 64) : x &&& PAGE_MASK = x / PAGE_SIZE * PAGE_SIZE := by
  have hmask : PAGE_MASK = (2 ^ 52 - 1) <<< 12 := by decide
  have hsize : x / PAGE_SIZE * PAGE_SIZE = (x >>> 12) <<< 12 := by
    rw [Nat.shiftLeft_eq, Nat.shiftRight_eq_div_pow]
    rfl
  rw [hmask, hsize]
  apply Nat.eq_of_testBit_eq
  intro i
  simp only [Nat.testBit_and, Nat.testBit_shiftLeft, Nat.testBit_shiftRight,
    Nat.testBit_two_pow_sub_one]
  by_cases hi : 12 ≤ i
  · by_cases hi' : i < 64
    · have : i - 12 < 52 := by omega
      simp [hi, this, Nat.add_sub_cancel' hi]
    · have hbit : x.testBit i = false :=
        Nat.testBit_lt_two_pow (hx.trans_le (Nat.pow_le_pow_right (by omega) (by omega)))
      simp [hi, hbit, Nat.add_sub_cancel' hi]
  · simp [hi]

/-- The page of an entry is read back from it. -/
theorem entry_page {i flags : Nat} (hi : i < N_PAGES) (h : flags < PAGE_SIZE) :
    (pageAddress i ||| flags) &&& PAGE_MASK = pageAddress i := by
  have hlt := pageAddress_lt hi
  rw [pageAddress_or i h, and_pageMask (by unfold HIGH_MEMORY at hlt; unfold PAGE_SIZE at h; omega)]
  unfold pageAddress LOW_MEMORY PAGE_SIZE at *
  omega

/-- An entry with an odd type field is valid. -/
theorem entry_valid (i : Nat) {flags : Nat} (h : flags < PAGE_SIZE) (hodd : flags % 2 = 1) :
    (pageAddress i ||| flags) &&& 1 = 1 := by
  rw [pageAddress_or i h, Nat.and_one_is_mod]
  unfold pageAddress LOW_MEMORY PAGE_SIZE
  omega

theorem tableIndex_eq (shift virtualAddress : Nat) :
    tableIndex shift virtualAddress = virtualAddress / 2 ^ shift % 512 := by
  unfold tableIndex
  rw [Nat.shiftRight_eq_div_pow]
  exact Nat.and_two_pow_sub_one_eq_mod _ 9

theorem PcbPtr.atAddress_page (i : Nat) :
    PcbPtr.atAddress (pageAddress i + VA_START) = .page i := by
  unfold PcbPtr.atAddress pageAddress PAGE_SIZE
  congr 1
  omega

/-! ## Pages in use -/

namespace Memory

/-- `a` is the address of a page of the allocator that is in use. -/
def InUse (m : Memory) (a : Nat) : Prop := ∃ i < N_PAGES, a = pageAddress i ∧ m.memoryPages i = true

/-- The number of free pages. -/
def free (m : Memory) : Nat := freeCells m.memoryPages N_PAGES

variable {m : Memory}

theorem inUse_page {i : Nat} (hi : i < N_PAGES) :
    m.InUse (pageAddress i) ↔ m.memoryPages i = true := by
  constructor
  · rintro ⟨j, -, hij, hj⟩
    rwa [pageAddress_inj.mp hij]
  · exact fun h ↦ ⟨i, hi, rfl, h⟩

/-- A free page is not in use. -/
theorem not_inUse {i : Nat} (hi : i < N_PAGES) (hfree : m.memoryPages i = false) :
    ¬ m.InUse (pageAddress i) := by
  rw [inUse_page hi, hfree]
  exact Bool.false_ne_true

theorem InUse.isPage {a : Nat} (h : m.InUse a) : ∃ i, a = pageAddress i := by
  obtain ⟨i, -, rfl, -⟩ := h
  exact ⟨i, rfl⟩

theorem InUse.ne_zero {a : Nat} (h : m.InUse a) : a ≠ 0 := by
  obtain ⟨i, -, rfl, -⟩ := h
  exact (pageAddress_pos i).ne'

end Memory

/-! ## The search for a free page -/

/-- What the search finds is free and in its range, and where it finds nothing all is used. -/
theorem firstFree_spec (used : Nat → Bool) (n i : Nat) :
    match firstFree used n i with
    | none => ∀ j, i ≤ j → j < i + n → used j = true
    | some j => i ≤ j ∧ j < i + n ∧ used j = false := by
  induction n generalizing i with
  | zero =>
      intro j hj hj'
      omega
  | succ n ih =>
      rw [firstFree]
      by_cases hi : used i = true
      · rw [if_pos hi]
        have hrest := ih (i + 1)
        cases hfound : firstFree used n (i + 1) with
        | none =>
            rw [hfound] at hrest
            intro j hj hj'
            rcases Nat.eq_or_lt_of_le hj with rfl | hlt
            · exact hi
            · exact hrest j hlt (by omega)
        | some j =>
            rw [hfound] at hrest
            exact ⟨by omega, by omega, hrest.2.2⟩
      · rw [if_neg hi]
        exact ⟨le_rfl, by omega, by simpa using hi⟩

namespace Kernel

variable {k k' k₁ k₂ : Kernel Pointers}

/-- The kernel after page `i` has been handed out. -/
def takePage (i : Nat) (k : Kernel Pointers) : Kernel Pointers :=
  (k.mapMemory (·.mark i true)).clearPage (pageAddress i)

/-- `get_free_page` hands out a free page, or counts a failure if there is none. -/
theorem getFreePage_cases (k : Kernel Pointers) :
    (∃ i < N_PAGES, k.memory.memoryPages i = false ∧
      k.getFreePage = (pageAddress i, k.takePage i)) ∨
    (k.memory.free = 0 ∧ k.getFreePage = (0, k.mapMemory fun m ↦
      { m with failedAllocations := m.failedAllocations + 1 })) := by
  have hspec := firstFree_spec k.memory.memoryPages N_PAGES 0
  rw [getFreePage]
  cases hfound : firstFree k.memory.memoryPages N_PAGES 0 with
  | none =>
      rw [hfound] at hspec
      refine .inr ⟨freeCells_eq_zero.mpr fun i hi ↦ hspec i (Nat.zero_le i) ?_, rfl⟩
      rwa [Nat.zero_add]
  | some i =>
      rw [hfound] at hspec
      exact .inl ⟨i, by omega, hspec.2.2, rfl⟩

/-- `free_page` on the kernel address of a page. -/
theorem freePage_page {i : Nat} (hi : i < N_PAGES) (k : Kernel Pointers) :
    k.freePage (pageAddress i + VA_START) =
      some (0, (k.clearPage (pageAddress i)).mapMemory (·.mark i false)) := by
  have haligned : (pageAddress i + VA_START) % PAGE_SIZE = 0 := by
    unfold pageAddress VA_START LOW_MEMORY PAGE_SIZE
    omega
  have hindex : (pageAddress i + VA_START + 2 * 2 ^ 64 - VA_START - LOW_MEMORY) % 2 ^ 64 / PAGE_SIZE
      = i := by
    have hlt := pageAddress_lt hi
    unfold pageAddress HIGH_MEMORY at hlt
    unfold pageAddress VA_START
    unfold LOW_MEMORY PAGE_SIZE at *
    omega
  rw [freePage, if_neg (by simp [haligned]), hindex]
  simp only [if_pos hi]

end Kernel

/-! ## Confinement -/

/-- The control block is not in a page of `T`. -/
def PcbPtr.Outside (T : Set Nat) (p : PcbPtr) : Prop := ∀ a, p.pageStart = some a → a ∉ T

theorem PcbPtr.Outside.notMem {T : Set Nat} {j : Nat} (h : (PcbPtr.page j).Outside T) :
    pageAddress j ∉ T := h _ rfl

/-- From `k` to `k'` only pages of `T` and the control blocks of `P` have changed. -/
structure Confined (T : Set Nat) (P : Set PcbPtr) (k k' : Kernel Pointers) : Prop where
  rest : { k'.toGlobals with pcb := k.pcb, memory := k.memory } = k.toGlobals
  ends : k'.queues.ends = k.queues.ends
  pcb : ∀ p, p ∉ P → p.Outside T → k'.pcb p = k.pcb p
  next : ∀ p, p.Outside T → k'.queues.next p = k.queues.next p
  marks : ∀ i, pageAddress i ∉ T → k'.memory.memoryPages i = k.memory.memoryPages i
  tables : ∀ a ∉ T, k'.memory.tables a = k.memory.tables a
  records : ∀ a ∉ T, k'.memory.fatResources (a + VA_START) = k.memory.fatResources (a + VA_START)
  bytes : ∀ i, pageAddress i ∉ T → ∀ x, pageAddress i ≤ x → x < pageAddress i + PAGE_SIZE →
    k'.memory.bytes x = k.memory.bytes x

namespace Confined

variable {T T' : Set Nat} {P P' : Set PcbPtr} {k k₁ k₂ : Kernel Pointers} {i : Nat}

theorem refl (k : Kernel Pointers) : Confined T P k k where
  rest := rfl
  ends := rfl
  pcb _ _ _ := rfl
  next _ _ := rfl
  marks _ _ := rfl
  tables _ _ := rfl
  records _ _ := rfl
  bytes _ _ _ _ _ := rfl

theorem trans (h : Confined T P k k₁) (h' : Confined T P k₁ k₂) : Confined T P k k₂ where
  rest := by
    have hrest := congrArg (fun g : Globals ↦ { g with pcb := k.pcb, memory := k.memory }) h'.rest
    exact hrest.trans h.rest
  ends := h'.ends.trans h.ends
  pcb p hp hout := (h'.pcb p hp hout).trans (h.pcb p hp hout)
  next p hout := (h'.next p hout).trans (h.next p hout)
  marks i hi := (h'.marks i hi).trans (h.marks i hi)
  tables a ha := (h'.tables a ha).trans (h.tables a ha)
  records a ha := (h'.records a ha).trans (h.records a ha)
  bytes i hi x hx hx' := (h'.bytes i hi x hx hx').trans (h.bytes i hi x hx hx')

theorem mono (h : Confined T P k k₁) (hT : T ⊆ T') (hP : P ⊆ P') : Confined T' P' k k₁ where
  rest := h.rest
  ends := h.ends
  pcb p hp hout := h.pcb p (fun hp' ↦ hp (hP hp')) fun a ha ha' ↦ hout a ha (hT ha')
  next p hout := h.next p fun a ha ha' ↦ hout a ha (hT ha')
  marks i hi := h.marks i fun hi' ↦ hi (hT hi')
  tables a ha := h.tables a fun ha' ↦ ha (hT ha')
  records a ha := h.records a fun ha' ↦ ha (hT ha')
  bytes i hi := h.bytes i fun hi' ↦ hi (hT hi')

section

variable (h : Confined T P k k₁)
include h

theorem currentProcess : k₁.currentProcess = k.currentProcess := by
  have hcur := congrArg Globals.currentProcess h.rest
  exact hcur

theorem processes : k₁.processes = k.processes := by
  have hproc := congrArg Globals.processes h.rest
  exact hproc

theorem nProcesses : k₁.nProcesses = k.nProcesses := by
  have hn := congrArg Globals.nProcesses h.rest
  exact hn

theorem known (p : PcbPtr) : k₁.Known p ↔ k.Known p := by
  rw [Globals.Known, Globals.Known, h.processes]

theorem inUse {a : Nat} (ha : a ∉ T) : k₁.memory.InUse a ↔ k.memory.InUse a := by
  constructor
  · rintro ⟨i, hi, rfl, hused⟩
    exact ⟨i, hi, rfl, (h.marks i ha).symm.trans hused⟩
  · rintro ⟨i, hi, rfl, hused⟩
    exact ⟨i, hi, rfl, (h.marks i ha).trans hused⟩

end

/-- A control block is written. -/
theorem modifyPcb (k : Kernel Pointers) {p : PcbPtr} (hp : p ∈ P) (f : PCB → PCB) :
    Confined T P k (k.mapGlobals (·.modifyPcb p f)) where
  rest := rfl
  ends := rfl
  pcb _ hq _ := Globals.modifyPcb_pcb_of_ne _ _ fun hqp ↦ hq (hqp ▸ hp)
  next _ _ := rfl
  marks _ _ := rfl
  tables _ _ := rfl
  records _ _ := rfl
  bytes _ _ _ _ _ := rfl

theorem modifyMm (k : Kernel Pointers) {p : PcbPtr} (hp : p ∈ P) (f : MmStruct → MmStruct) :
    Confined T P k (k.modifyMm p f) :=
  modifyPcb k hp _

/-- The memory is written. -/
theorem mapMemory (k : Kernel Pointers) {f : Memory → Memory}
    (hmarks : ∀ i, pageAddress i ∉ T → (f k.memory).memoryPages i = k.memory.memoryPages i)
    (htables : ∀ a ∉ T, (f k.memory).tables a = k.memory.tables a)
    (hrecords : ∀ a ∉ T,
      (f k.memory).fatResources (a + VA_START) = k.memory.fatResources (a + VA_START))
    (hbytes : ∀ i, pageAddress i ∉ T → ∀ x, pageAddress i ≤ x → x < pageAddress i + PAGE_SIZE →
      (f k.memory).bytes x = k.memory.bytes x) : Confined T P k (k.mapMemory f) where
  rest := rfl
  ends := rfl
  pcb _ _ _ := rfl
  next _ _ := rfl
  marks := hmarks
  tables := htables
  records := hrecords
  bytes := hbytes

theorem mark (k : Kernel Pointers) (hi : pageAddress i ∈ T) (used : Bool) :
    Confined T P k (k.mapMemory (·.mark i used)) := by
  refine mapMemory k ?_ (fun _ _ ↦ rfl) (fun _ _ ↦ rfl) fun _ _ _ _ _ ↦ rfl
  intro j hj
  refine Function.update_of_ne ?_ _ _
  rintro rfl
  exact hj hi

theorem writeEntry (k : Kernel Pointers) {table : Nat} (ht : table ∈ T) (index entry : Nat) :
    Confined T P k (k.mapMemory (·.writeEntry table index entry)) := by
  refine mapMemory k (fun _ _ ↦ rfl) ?_ (fun _ _ ↦ rfl) fun _ _ _ _ _ ↦ rfl
  intro a ha
  refine Function.update_of_ne ?_ _ _
  rintro rfl
  exact ha ht

theorem setResource (k : Kernel Pointers) {a : Nat} (ha : a ∈ T) (record : FatResource) :
    Confined T P k (k.setResource (a + VA_START) record) := by
  refine mapMemory k (fun _ _ ↦ rfl) (fun _ _ ↦ rfl) ?_ fun _ _ _ _ _ ↦ rfl
  intro b hb
  have hne : b + VA_START ≠ a + VA_START := fun hab ↦ hb (Nat.add_right_cancel hab ▸ ha)
  dsimp only
  rw [Function.update_of_ne hne]

/-- Bytes are written inside a page. -/
theorem store (k : Kernel Pointers) {destination : Nat} {data : List UInt8}
    (hi : pageAddress i ∈ T) (hle : pageAddress i ≤ destination)
    (hlt : destination + data.length ≤ pageAddress i + PAGE_SIZE) :
    Confined T P k (k.mapMemory (·.store destination data)) := by
  refine mapMemory k (fun _ _ ↦ rfl) (fun _ _ ↦ rfl) (fun _ _ ↦ rfl) ?_
  intro j hj x hx hx'
  refine if_neg fun hin ↦ ?_
  have hij : i = j := page_unique (x := x) (by omega) (by omega) hx hx'
  exact hj (hij ▸ hi)

theorem memcpy (k : Kernel Pointers) {destination source count : Nat}
    (hi : pageAddress i ∈ T) (hle : pageAddress i ≤ destination)
    (hlt : destination + count ≤ pageAddress i + PAGE_SIZE) :
    Confined T P k (k.mapMemory (·.memcpy destination source count)) := by
  refine mapMemory k (fun _ _ ↦ rfl) (fun _ _ ↦ rfl) (fun _ _ ↦ rfl) ?_
  intro j hj x hx hx'
  refine if_neg fun hin ↦ ?_
  have hij : i = j := page_unique (x := x) (by omega) (by omega) hx hx'
  exact hj (hij ▸ hi)

/-- A page is cleared. -/
theorem clearPage (k : Kernel Pointers) (hi : pageAddress i ∈ T) :
    Confined T P k (k.clearPage (pageAddress i)) where
  rest := rfl
  ends := rfl
  pcb p _ hout := by
    cases p with
    | initProcess => rfl
    | page j =>
        have hne : pageAddress j ≠ pageAddress i := ne_of_mem_of_not_mem hi hout.notMem |>.symm
        exact if_neg hne
  next p hout := by
    cases p with
    | initProcess => rfl
    | page j =>
        have hne : pageAddress j ≠ pageAddress i := ne_of_mem_of_not_mem hi hout.notMem |>.symm
        exact if_neg hne
  marks _ _ := rfl
  tables a ha := by
    have hne : a ≠ pageAddress i := fun hai ↦ ha (hai ▸ hi)
    exact Function.update_of_ne hne _ _
  records a ha := by
    have hne : a + VA_START ≠ pageAddress i + VA_START :=
      fun hai ↦ ha (Nat.add_right_cancel hai ▸ hi)
    dsimp only [Kernel.clearPage, Memory.clear]
    rw [Function.update_of_ne hne]
  bytes j hj x hx hx' := by
    refine if_neg fun hin ↦ ?_
    exact hj (page_unique hin.1 hin.2 hx hx' ▸ hi)

theorem takePage (k : Kernel Pointers) (hi : pageAddress i ∈ T) :
    Confined T P k (k.takePage i) :=
  (mark k hi true).trans (clearPage _ hi)

theorem freePage (k : Kernel Pointers) (hi : pageAddress i ∈ T) :
    Confined T P k ((k.clearPage (pageAddress i)).mapMemory (·.mark i false)) :=
  (clearPage k hi).trans (mark _ hi false)

end Confined

/-! ## Counting allocations -/

namespace Kernel

variable {k : Kernel Pointers}

/-- The number of allocations that have failed so far. -/
def failures (k : Kernel Pointers) : Nat := k.memory.failedAllocations

/-- Code that starts in `k` and returns `o` takes `n` pages from the allocator: if there are as
many, it returns, no allocation fails, and `post` holds; if there are fewer and it returns
all the same, an allocation has failed. -/
structure Takes {R : Type} (n : Nat) (π : R → Kernel Pointers) (k : Kernel Pointers) (o : Option R)
    (post : R → Prop) : Prop where
  enough : n ≤ k.memory.free → ∃ r, o = some r ∧ (π r).failures = k.failures ∧
    (π r).memory.free + n = k.memory.free ∧ post r
  short : k.memory.free < n → ∀ r, o = some r → k.failures < (π r).failures

namespace Takes

variable {R S : Type} {n m : Nat} {π : R → Kernel Pointers} {π' : S → Kernel Pointers}
  {o : Option R} {post post' : R → Prop} {r : R}

/-- Code that does not allocate. -/
theorem none_taken (hmarks : (π r).memory.memoryPages = k.memory.memoryPages)
    (hfail : (π r).failures = k.failures) (hpost : post r) : Takes 0 π k (some r) post where
  enough _ := ⟨r, rfl, hfail, by rw [Nat.add_zero, Memory.free, Memory.free, hmarks], hpost⟩
  short h := absurd h (Nat.not_lt_zero _)

theorem weaken (h : Takes n π k o post) (hpost : ∀ r, o = some r → post r → post' r) :
    Takes n π k o post' where
  enough hn := by
    obtain ⟨r, hr, hfail, hfree, hpr⟩ := h.enough hn
    exact ⟨r, hr, hfail, hfree, hpost r hr hpr⟩
  short := h.short

/-- Only the free pages and the failures of the first state matter. -/
theorem from_state (h : Takes n π k o post) {k₀ : Kernel Pointers}
    (hmarks : k.memory.memoryPages = k₀.memory.memoryPages) (hfail : k.failures = k₀.failures) :
    Takes n π k₀ o post := by
  have hfree : k.memory.free = k₀.memory.free := by rw [Memory.free, Memory.free, hmarks]
  constructor
  · intro hn
    rw [← hfree] at hn ⊢
    rw [← hfail]
    exact h.enough hn
  · intro hn
    rw [← hfree] at hn
    rw [← hfail]
    exact h.short hn

/-- Code that did not fail has taken its pages. -/
theorem of_some (h : Takes n π k o post) (ho : o = some r) (hfail : (π r).failures = k.failures) :
    post r ∧ (π r).memory.free + n = k.memory.free := by
  by_cases hn : n ≤ k.memory.free
  · obtain ⟨r', hr', -, hfree, hpost⟩ := h.enough hn
    obtain rfl := Option.some.inj (hr'.symm.trans ho)
    exact ⟨hpost, hfree⟩
  · have := h.short (by omega) r ho
    omega

/-- One piece of code after another; the second may only add to the failures. -/
theorem bind (h : Takes n π k o post) {f : R → Option S} {post' : S → Prop}
    (hnext : ∀ r, o = some r → post r → Takes m π' (π r) (f r) post')
    (hmono : ∀ {r s}, f r = some s → (π r).failures ≤ (π' s).failures) :
    Takes (n + m) π' k (o.bind f) post' where
  enough hnm := by
    obtain ⟨r, hr, hfail, hfree, hpost⟩ := h.enough (by omega)
    obtain ⟨s, hs, hfail', hfree', hpost'⟩ := (hnext r hr hpost).enough (by omega)
    refine ⟨s, ?_, hfail'.trans hfail, by omega, hpost'⟩
    rw [hr]
    exact hs
  short hnm s hs := by
    obtain ⟨r, hr, hs⟩ := Option.bind_eq_some_iff.mp hs
    by_cases hn : n ≤ k.memory.free
    · obtain ⟨r', hr', hfail, hfree, hpost⟩ := h.enough hn
      obtain rfl := Option.some.inj (hr'.symm.trans hr)
      have := (hnext r' hr hpost).short (by omega) s hs
      omega
    · have hfirst := h.short (by omega) r hr
      exact hfirst.trans_le (hmono hs)

end Takes

theorem getFreePage_failures (k : Kernel Pointers) : k.failures ≤ k.getFreePage.2.failures := by
  obtain ⟨i, -, -, h⟩ | ⟨-, h⟩ := k.getFreePage_cases
  · rw [h]
    exact le_rfl
  · rw [h]
    exact Nat.le_succ _

theorem takePage_free {i : Nat} (hi : i < N_PAGES) (hfree : k.memory.memoryPages i = false) :
    (k.takePage i).memory.free + 1 = k.memory.free :=
  freeCells_take hi hfree

/-- Code that begins with `get_free_page`. -/
theorem Takes.getFreePage {S : Type} {m : Nat} {π : S → Kernel Pointers} {post : S → Prop}
    (f : Nat × Kernel Pointers → Option S) {o : Option S} (ho : o = f k.getFreePage)
    (hnext : ∀ i < N_PAGES, k.memory.memoryPages i = false →
      Takes m π (k.takePage i) (f (pageAddress i, k.takePage i)) post)
    (hmono : ∀ {r s}, f r = some s → r.2.failures ≤ (π s).failures) :
    Takes (m + 1) π k o post := by
  subst ho
  obtain ⟨i, hi, hfree, h⟩ | ⟨hfull, h⟩ := k.getFreePage_cases
  · have hone : Takes 1 Prod.snd k (some k.getFreePage) fun r ↦ r =
      (pageAddress i, k.takePage i) := by
      rw [h]
      refine ⟨fun _ ↦ ⟨_, rfl, rfl, takePage_free hi hfree, rfl⟩, fun hshort ↦ ?_⟩
      have := takePage_free hi hfree
      omega
    have hall : Takes (1 + m) π k ((some k.getFreePage).bind f) post := hone.bind ?_ hmono
    · rwa [Nat.add_comm] at hall
    · rintro r - rfl
      exact hnext i hi hfree
  · refine ⟨fun hn ↦ by omega, fun _ s hs ↦ ?_⟩
    have := hmono hs
    rw [h] at this
    exact this

end Kernel

/-- A page that has been taken is in use, and so are the pages that were. -/
theorem takePage_inUse {k : Kernel Pointers} {i : Nat} (hi : i < N_PAGES) (a : Nat) :
    (k.takePage i).memory.InUse a ↔ k.memory.InUse a ∨ a = pageAddress i := by
  have hmark : (k.takePage i).memory.memoryPages = Function.update k.memory.memoryPages i true :=
    rfl
  constructor
  · rintro ⟨j, hj, rfl, hused⟩
    rw [hmark, Function.update_apply] at hused
    split_ifs at hused with hji
    · exact .inr (hji ▸ rfl)
    · exact .inl ⟨j, hj, rfl, hused⟩
  · rintro (⟨j, hj, rfl, hused⟩ | rfl)
    · refine ⟨j, hj, rfl, ?_⟩
      rw [hmark, Function.update_apply]
      split_ifs
      · rfl
      · exact hused
    · exact ⟨i, hi, rfl, by rw [hmark, Function.update_self]⟩

end DemosOS
