import DemosOS.Mem.Tables

/-!
# Copying, filling and emptying an address space

The three loops over the pages of a process: `copy_virtual_memory` gives the child a copy of
every page of its parent, `copy_code` fills sixteen new pages from a buffer, and the loop of
`syscall_exec` gives the old pages back.
-/

namespace DemosOS

open Lib Kernel

/-- The pages taken for `m` user pages of a process that has `n` tables: the tables are completed
with the first page. -/
def pagesNeeded (m n : Nat) : Nat := if m = 0 then 0 else m + (4 - n)

theorem pagesNeeded_succ (m : Nat) {n : Nat} (hn : n ≤ 4) :
    pagesNeeded (m + 1) n = (5 - n) + pagesNeeded m 4 := by
  rw [pagesNeeded, pagesNeeded, if_neg (Nat.succ_ne_zero m)]
  split_ifs
  · omega
  · omega

section

variable {T : Set Nat} {p q : PcbPtr} {b : PCB} {k k' : Kernel Pointers} {us ts : List Nat}

theorem memcpy_bytes (m : Memory) (destination source : Nat) {count x : Nat} (hx : x < count) :
    (m.memcpy destination source count).bytes (destination + x) = m.bytes (source + x) := by
  show (if _ then _ else _) = _
  rw [if_pos ⟨Nat.le_add_right _ _, by omega⟩, Nat.add_sub_cancel_left]

theorem memcpy_bytes_of_le (m : Memory) {destination source count x : Nat} (hx : count ≤ x) :
    (m.memcpy destination source count).bytes (destination + x) = m.bytes (destination + x) := by
  show (if _ then _ else _) = _
  rw [if_neg (by omega)]

/-! ## Adding pages -/

/-- A page outside `T` keeps its bytes. -/
theorem Confined.bytes_page {P : Set PcbPtr} (h : Confined T P k k') {a x : Nat}
    (ha : ∃ i, a = pageAddress i) (haT : a ∉ T) (hx : x < PAGE_SIZE) :
    k'.memory.bytes (a + x) = k.memory.bytes (a + x) := by
  obtain ⟨i, rfl⟩ := ha
  exact h.bytes i haT _ (Nat.le_add_right _ x) (Nat.add_lt_add_left hx _)

/-- What one round of `copy_virtual_memory` or `copy_code` has done to the pages of the process:
a new page, and only that one, has been written. -/
structure PageFilled (T : Set Nat) (p : PcbPtr) (b : PCB) (k : Kernel Pointers)
    (us : List Nat) (i : Nat)
    (ts' : List Nat) (k' : Kernel Pointers) : Prop where
  mem : pageAddress i ∈ T
  length : ts'.length = 4
  building : Building T p b k' [] (us ++ [pageAddress i]) ts'
  confined : Confined T {p} k k'
  kept : ∀ a ∈ us, ∀ x < PAGE_SIZE, k'.memory.bytes (a + x) = k.memory.bytes (a + x)

/-- Writing into the page that has just been added. -/
theorem UserPageAdded.fill {i : Nat} {ts' : List Nat} (h : Building T p b k [] us ts)
    (hadded : UserPageAdded T p b k [] us ts i ts' k') {k'' : Kernel Pointers}
    (hbuilding : Building T p b k'' [] (us ++ [pageAddress i]) ts')
    (hconfined : Confined {pageAddress i} ∅ k' k'') : PageFilled T p b k us i ts' k'' := by
  have hmem : pageAddress i ∈ T := h.free i hadded.lt hadded.free
  refine ⟨hmem, hadded.length, hbuilding, ?_, ?_⟩
  · refine (hadded.confined.mono h.reach_subset subset_rfl).trans ?_
    exact hconfined.mono (Set.singleton_subset_iff.mpr hmem) (Set.empty_subset _)
  · intro a ha x hx
    have hused : k.memory.InUse a := h.used a (by simp [ha])
    obtain ⟨j, -, rfl, hmark⟩ := hused
    have hne : pageAddress j ≠ pageAddress i := by
      intro hij
      rw [pageAddress_inj.mp hij, hadded.free] at hmark
      cases hmark
    have hts : pageAddress j ∉ ts := fun hmem ↦
      (List.nodup_append.mp h.nodup).2.2 _ (by simpa using ha) _ hmem rfl
    rw [hconfined.bytes_page ⟨j, rfl⟩ hne hx]
    exact hadded.confined.bytes_page ⟨j, rfl⟩ (Kernel.notMem_reach (h.used _ (by simp [ha])) hts) hx

/-- The process has been given `m` more pages. -/
structure Extended (T : Set Nat) (p : PcbPtr) (b : PCB) (k : Kernel Pointers)
    (us : List Nat) (m : Nat)
    (us' ts' : List Nat) (k' : Kernel Pointers) : Prop where
  length : us'.length = us.length + m
  old : us <+: us'
  fresh : ∀ j (h : j < us'.length), us.length ≤ j → us'[j] ∈ T
  building : Building T p b k' [] us' ts'
  confined : Confined T {p} k k'

/-- The pages of `us'` from index `n` on hold `content`; the first `n` are as they were. -/
structure Filled (content : Nat → Nat → UInt8) (k : Kernel Pointers) (n : Nat) (us' : List Nat)
    (k' : Kernel Pointers) : Prop where
  bytes : ∀ j (h : j < us'.length), n ≤ j → ∀ x < PAGE_SIZE,
    k'.memory.bytes (us'[j] + x) = content j x
  kept : ∀ j (h : j < us'.length), j < n → ∀ x < PAGE_SIZE,
    k'.memory.bytes (us'[j] + x) = k.memory.bytes (us'[j] + x)

theorem Extended.refl (h : Building T p b k [] us ts) : Extended T p b k us 0 us ts k where
  length := rfl
  old := List.prefix_refl us
  fresh _ hj hj' := absurd hj (Nat.not_lt.mpr hj')
  building := h
  confined := .refl k

theorem Filled.refl (content : Nat → Nat → UInt8) (k : Kernel Pointers) (us : List Nat) :
    Filled content k us.length us k where
  bytes _ hj hj' := absurd hj (Nat.not_lt.mpr hj')
  kept _ _ _ _ _ := rfl

section

variable {i m : Nat} {us' ts' : List Nat} {k₁ : Kernel Pointers}

theorem getElem_extended (hadded : us ++ [pageAddress i] <+: us') (h : us.length < us'.length) :
    us'[us.length] = pageAddress i := by
  rw [← hadded.getElem (by simp)]
  simp

/-- One page, and then `m` more. -/
theorem Extended.cons (hfilled : PageFilled T p b k us i ts k₁)
    (h : Extended T p b k₁ (us ++ [pageAddress i]) m us' ts' k') :
    Extended T p b k us (m + 1) us' ts' k' where
  length := by
    rw [h.length]
    simp
    omega
  old := (List.prefix_append _ _).trans h.old
  fresh j hj hle := by
    rcases Nat.eq_or_lt_of_le hle with rfl | hlt
    · rw [getElem_extended h.old]
      exact hfilled.mem
    · refine h.fresh j hj ?_
      rw [List.length_append, List.length_singleton]
      exact hlt
  building := h.building
  confined := hfilled.confined.trans h.confined

/-- One page is filled, and then the others. -/
theorem Filled.cons {content : Nat → Nat → UInt8} (hfilled : PageFilled T p b k us i ts k₁)
    (hbytes : ∀ x < PAGE_SIZE, k₁.memory.bytes (pageAddress i + x) = content us.length x)
    (hadded : us ++ [pageAddress i] <+: us') (h : Filled content k₁ (us.length + 1) us' k') :
    Filled content k us.length us' k' where
  bytes j hj hle x hx := by
    rcases Nat.eq_or_lt_of_le hle with rfl | hlt
    · rw [h.kept _ hj (Nat.lt_succ_self _) x hx, getElem_extended hadded, hbytes x hx]
    · exact h.bytes j hj hlt x hx
  kept j hj hlt x hx := by
    have hold : us'[j] = us[j] := by
      rw [← hadded.getElem (by simp; omega), List.getElem_append_left hlt]
    rw [h.kept j hj (Nat.lt_succ_of_lt hlt) x hx, hold]
    exact hfilled.kept _ (List.getElem_mem hlt) x hx

theorem Filled.congr {content content' : Nat → Nat → UInt8} {n : Nat}
    (h : Filled content k n us' k')
    (hsame : ∀ j, n ≤ j → j < us'.length → ∀ x < PAGE_SIZE, content' j x = content j x) :
    Filled content' k n us' k' where
  bytes j hj hle x hx := (h.bytes j hj hle x hx).trans (hsame j hle hj x hx).symm
  kept := h.kept

end

/-! ## copy_virtual_memory -/

/-- The page at `page` becomes a copy of the page at `source`. -/
def Kernel.copyPage (source page : Nat) (k : Kernel Pointers) : Kernel Pointers :=
  (k.clearPage page).mapMemory (·.memcpy page source PAGE_SIZE)

theorem copyPage_failures (source page : Nat) : (k.copyPage source page).failures = k.failures :=
  rfl

/-- One round of `copy_virtual_memory`. -/
theorem copyPages_cons (i : Nat) (l : List Nat) :
    k.copyPages p q (i :: l) =
      (k.allocateUserPage p ((k.pcb q).mm.userPages i).virtualAddress).bind fun r ↦
        if r.1 = 0 then some (-1, r.2)
        else (r.2.copyPage (((r.2.clearPage (r.1 - VA_START)).pcb q).mm.userPages i).physicalAddress
          (r.1 - VA_START)).copyPages p q l := rfl

theorem copyPages_failures {l : List Nat} {r : Int × Kernel Pointers}
    (h : k.copyPages p q l = some r) : k.failures ≤ r.2.failures := by
  induction l generalizing k with
  | nil => rw [← Option.some.inj h]
  | cons i l ih =>
      rw [copyPages_cons] at h
      obtain ⟨⟨address, k₁⟩, hk₁, h⟩ := Option.bind_eq_some_iff.mp h
      have hfirst := allocateUserPage_failures hk₁
      split_ifs at h
      · rw [← Option.some.inj h]
        exact hfirst
      · have hrest := ih h
        rw [copyPage_failures] at hrest
        exact hfirst.trans hrest

/-- Writing a copy stays within the page. -/
theorem Confined.copyPage (k : Kernel Pointers) (source i : Nat) :
    Confined {pageAddress i} ∅ k (k.copyPage source (pageAddress i)) :=
  (Confined.clearPage k (Set.mem_singleton _)).trans
    (Confined.memcpy _ (Set.mem_singleton _) le_rfl le_rfl)

theorem copyPage_bytes (source page : Nat) {x : Nat} (hx : x < PAGE_SIZE) :
    (k.copyPage source page).memory.bytes (page + x) =
      (k.clearPage page).memory.bytes (source + x) := memcpy_bytes _ _ _ hx

/-- The user pages of `q` from the index `i` up to `n` are the pages `source j`, which are in use
and out of reach. -/
structure SourcePages (T : Set Nat) (q : PcbPtr) (k : Kernel Pointers) (source : Nat → Nat)
    (i n : Nat) : Prop where
  control : q.Outside T
  userPages : ∀ j, i ≤ j → j < n → (k.pcb q).mm.userPages j = ⟨source j, j * PAGE_SIZE⟩
  used : ∀ j, i ≤ j → j < n → k.memory.InUse (source j)
  out : ∀ j, i ≤ j → j < n → source j ∉ T

/-- Work on another process leaves the pages alone. -/
theorem SourcePages.later {source : Nat → Nat} {i i' n : Nat} (h : SourcePages T q k source i n)
    (hconfined : Confined T {p} k k') (hq : q ≠ p) (hi : i ≤ i') :
    SourcePages T q k' source i' n where
  control := h.control
  userPages j hj hj' := by
    rw [hconfined.pcb q hq h.control]
    exact h.userPages j (hi.trans hj) hj'
  used j hj hj' :=
    (hconfined.inUse (h.out j (hi.trans hj) hj')).mpr (h.used j (hi.trans hj) hj')
  out j hj hj' := h.out j (hi.trans hj) hj'

/-- The copy of `m` pages of process `q`, from the one after those that `p` already has. -/
theorem Building.copyPages (h : Building T p b k [] us ts) {m : Nat} {source : Nat → Nat}
    (hroom : us.length + m ≤ MAX_PROCESS_PAGES) (hq : q ≠ p)
    (hsource : SourcePages T q k source us.length (us.length + m)) :
    Takes (pagesNeeded m ts.length) Prod.snd k (k.copyPages p q (List.range' us.length m)) fun r ↦
      r.1 = 0 ∧ ∃ us' ts', Extended T p b k us m us' ts' r.2 ∧
        Filled (fun j x ↦ k.memory.bytes (source j + x)) k us.length us' r.2 := by
  induction m generalizing k us ts with
  | zero =>
      exact .none_taken rfl rfl ⟨rfl, us, ts, .refl h, .refl _ k us⟩
  | succ m ih =>
      have hlen : us.length < MAX_PROCESS_PAGES := by omega
      have hvirtual := hsource.userPages us.length le_rfl (by omega)
      rw [pagesNeeded_succ m h.space.length_ts, List.range'_succ, copyPages_cons, hvirtual]
      refine (h.allocateUserPage hlen).bind ?_ ?_
      · rintro ⟨address, k₁⟩ - ⟨i, ts₁, haddress, hadded⟩
        dsimp only at haddress hadded ⊢
        have hpage : address - VA_START = pageAddress i := by rw [haddress, Nat.add_sub_cancel]
        have hne : address ≠ 0 := by
          have := pageAddress_pos i
          omega
        rw [if_neg hne, hpage]
        have hi : pageAddress i ∈ T := h.free i hadded.lt hadded.free
        have hclear : Confined T {p} k (k₁.clearPage (pageAddress i)) :=
          (hadded.confined.mono h.reach_subset subset_rfl).trans (Confined.clearPage _ hi)
        have hpcb : (k₁.clearPage (pageAddress i)).pcb q = k.pcb q :=
          hclear.pcb q hq hsource.control
        rw [hpcb, hvirtual]
        dsimp only
        have hfilled : PageFilled T p b k us i ts₁
          (k₁.copyPage (source us.length) (pageAddress i)) := by
          refine hadded.fill h ?_ (.copyPage k₁ _ i)
          have hcleared := hadded.building.clearPage (a := pageAddress i) (by simp)
          exact hcleared.congr rfl (fun _ _ ↦ rfl) rfl
        have hbytes : ∀ x < PAGE_SIZE,
            (k₁.copyPage (source us.length) (pageAddress i)).memory.bytes (pageAddress i + x) =
              k.memory.bytes (source us.length + x) := by
          intro x hx
          rw [copyPage_bytes _ _ hx]
          exact hclear.bytes_page (hsource.used _ le_rfl (by omega)).isPage
            (hsource.out _ le_rfl (by omega)) hx
        have hlength : (us ++ [pageAddress i]).length = us.length + 1 := by simp
        have hend : us.length + 1 + m = us.length + (m + 1) := by omega
        have hnext := ih (k := k₁.copyPage (source us.length) (pageAddress i)) hfilled.building
          (by omega) (by
            rw [hlength, hend]
            exact hsource.later hfilled.confined hq (Nat.le_succ _))
        rw [hlength, hadded.length] at hnext
        have hrest : Takes (pagesNeeded m 4) Prod.snd k₁ _ _ := hnext.from_state rfl rfl
        refine hrest.weaken ?_
        rintro r - ⟨hr, us', ts', hext, hfill⟩
        refine ⟨hr, us', ts', .cons hfilled hext, .cons hfilled hbytes hext.old (hfill.congr ?_)⟩
        intro j hle hj x hx
        have hlt : j < us.length + (m + 1) := by
          have := hext.length
          omega
        exact (hfilled.confined.bytes_page (hsource.used j (Nat.le_of_succ_le hle) hlt).isPage
          (hsource.out j (Nat.le_of_succ_le hle) hlt) hx).symm
      · intro r s hs
        split_ifs at hs
        · rw [← Option.some.inj hs]
        · have hrest := copyPages_failures hs
          rwa [copyPage_failures] at hrest

/-! ## copy_code -/

/-- What one round of `copy_code` copies. -/
def bytesToCopy (size copiedBytes : Nat) : Nat :=
  if size - copiedBytes > PAGE_SIZE then PAGE_SIZE else size - copiedBytes

/-- The rest of a round of `copy_code`, with the address of the new page. -/
def Kernel.copyCodeRound (p : PcbPtr) (buffer size : Nat) (rest : List Nat) (copiedBytes : Nat)
    (r : Nat × Kernel Pointers) : Option (Kernel Pointers) :=
  if copiedBytes < size then
    if r.1 = 0 then none
    else (r.2.mapMemory (·.memcpy (r.1 - VA_START) (buffer + copiedBytes)
      (bytesToCopy size copiedBytes))).copyCodePages p buffer size rest
        (copiedBytes + bytesToCopy size copiedBytes)
  else r.2.copyCodePages p buffer size rest copiedBytes

theorem copyCodePages_cons (buffer size i copiedBytes : Nat) (l : List Nat) :
    k.copyCodePages p buffer size (i :: l) copiedBytes =
      (k.allocateUserPage p (i * PAGE_SIZE)).bind
        (Kernel.copyCodeRound p buffer size l copiedBytes) := rfl

theorem bytesToCopy_le (size copiedBytes : Nat) : bytesToCopy size copiedBytes ≤ PAGE_SIZE := by
  unfold bytesToCopy
  split_ifs
  · exact le_rfl
  · omega

/-- The bytes copied in the first rounds. -/
theorem min_add_bytesToCopy (size n : Nat) :
    min (n * PAGE_SIZE) size + bytesToCopy size (min (n * PAGE_SIZE) size) =
      min ((n + 1) * PAGE_SIZE) size := by
  unfold bytesToCopy
  have hsucc : (n + 1) * PAGE_SIZE = n * PAGE_SIZE + PAGE_SIZE := Nat.succ_mul n PAGE_SIZE
  split_ifs
  · omega
  · omega

theorem memcpy_failures (destination source count : Nat) (k : Kernel Pointers) :
    (k.mapMemory (·.memcpy destination source count)).failures = k.failures := rfl

theorem copyCodePages_failures {buffer size copiedBytes : Nat} {l : List Nat}
    (h : k.copyCodePages p buffer size l copiedBytes = some k') : k.failures ≤ k'.failures := by
  induction l generalizing k copiedBytes with
  | nil => rw [← Option.some.inj h]
  | cons i l ih =>
      rw [copyCodePages_cons] at h
      obtain ⟨r, hr, h⟩ := Option.bind_eq_some_iff.mp h
      have hfirst := allocateUserPage_failures hr
      unfold Kernel.copyCodeRound at h
      split_ifs at h
      · have hrest := ih h
        rw [memcpy_failures] at hrest
        exact hfirst.trans hrest
      · exact hfirst.trans (ih h)

/-- Every byte of the buffer is in a page outside `T`. -/
def BufferOutside (T : Set Nat) (buffer size : Nat) : Prop :=
  ∀ x < size, ∃ i, pageAddress i ∉ T ∧ pageAddress i ≤ buffer + x ∧
    buffer + x < pageAddress i + PAGE_SIZE

/-- The image of a program: its bytes, and zeros up to the end of the last page. -/
def image (k : Kernel Pointers) (buffer size j x : Nat) : UInt8 :=
  if j * PAGE_SIZE + x < size then k.memory.bytes (buffer + (j * PAGE_SIZE + x)) else 0

/-- The image is read from the same bytes later on. -/
theorem BufferOutside.image_eq {P : Set PcbPtr} {buffer size : Nat}
    (h : BufferOutside T buffer size)
    (hconfined : Confined T P k k') (j x : Nat) :
    image k' buffer size j x = image k buffer size j x := by
  unfold image
  split_ifs with hlt
  · obtain ⟨i, hi, hle, hlt'⟩ := h _ hlt
    exact hconfined.bytes i hi _ hle hlt'
  · rfl

/-- What one round copies to its page. -/
def Kernel.fillPage (buffer size n i : Nat) (k : Kernel Pointers) : Kernel Pointers :=
  if n * PAGE_SIZE < size then
    k.mapMemory (·.memcpy (pageAddress i) (buffer + n * PAGE_SIZE)
      (bytesToCopy size (n * PAGE_SIZE)))
  else k

/-- Everything but the bytes is as before. -/
theorem fillPage_eq (buffer size n i : Nat) (k : Kernel Pointers) :
    ∃ f, k.fillPage buffer size n i = k.mapMemory fun m ↦ { m with bytes := f } := by
  rw [Kernel.fillPage]
  split_ifs
  · exact ⟨_, rfl⟩
  · exact ⟨k.memory.bytes, rfl⟩

/-- Only bytes of the page are written. -/
theorem fillPage_bytes_of_out {buffer size n i x : Nat}
    (hx : ¬ (pageAddress i ≤ x ∧ x < pageAddress i + PAGE_SIZE)) :
    (k.fillPage buffer size n i).memory.bytes x = k.memory.bytes x := by
  rw [Kernel.fillPage]
  split_ifs
  · have hcount := bytesToCopy_le size (n * PAGE_SIZE)
    refine if_neg fun hin ↦ hx ⟨hin.1, ?_⟩
    omega
  · rfl

/-- A cleared page gets its part of the image. -/
theorem fillPage_bytes {buffer size n i : Nat}
    (hzero : ∀ x < PAGE_SIZE, k.memory.bytes (pageAddress i + x) = 0) {x : Nat}
    (hx : x < PAGE_SIZE) :
    (k.fillPage buffer size n i).memory.bytes (pageAddress i + x) = image k buffer size n x := by
  rw [Kernel.fillPage, image]
  by_cases hmore : n * PAGE_SIZE < size
  · rw [if_pos hmore]
    by_cases hin : n * PAGE_SIZE + x < size
    · have hcount : x < bytesToCopy size (n * PAGE_SIZE) := by
        unfold bytesToCopy
        split_ifs <;> omega
      rw [if_pos hin, ← Nat.add_assoc]
      exact memcpy_bytes k.memory _ _ hcount
    · have hcount : bytesToCopy size (n * PAGE_SIZE) ≤ x := by
        unfold bytesToCopy
        split_ifs <;> omega
      rw [if_neg hin]
      exact (memcpy_bytes_of_le k.memory hcount).trans (hzero x hx)
  · rw [if_neg hmore, if_neg (by omega)]
    exact hzero x hx

/-- A round of `copy_code` fills the page it has got. -/
theorem copyCodeRound_fillPage (p : PcbPtr) (buffer size n i : Nat) (l : List Nat)
    (k : Kernel Pointers) :
    Kernel.copyCodeRound p buffer size l (min (n * PAGE_SIZE) size) (pageAddress i + VA_START, k) =
      (k.fillPage buffer size n i).copyCodePages p buffer size l
        (min ((n + 1) * PAGE_SIZE) size) := by
  unfold Kernel.copyCodeRound Kernel.fillPage
  by_cases hmore : n * PAGE_SIZE < size
  · have hcopied : min (n * PAGE_SIZE) size = n * PAGE_SIZE := Nat.min_eq_left hmore.le
    have hne : (pageAddress i + VA_START, k).1 ≠ 0 := Kernel.address_ne_zero i
    rw [if_pos (hcopied.trans_lt hmore), if_neg hne, min_add_bytesToCopy, hcopied, if_pos hmore,
      Nat.add_sub_cancel]
  · have hdone : size ≤ n * PAGE_SIZE := Nat.le_of_not_lt hmore
    have hnext : size ≤ (n + 1) * PAGE_SIZE := hdone.trans (Nat.mul_le_mul_right _ (Nat.le_succ n))
    rw [Nat.min_eq_right hdone, Nat.min_eq_right hnext, if_neg (lt_irrefl size), if_neg hmore]

/-- Only the page is written. -/
theorem Confined.fillPage (k : Kernel Pointers) (buffer size n i : Nat) :
    Confined {pageAddress i} ∅ k (k.fillPage buffer size n i) := by
  rw [Kernel.fillPage]
  split_ifs
  · refine .memcpy k (Set.mem_singleton _) le_rfl ?_
    exact Nat.add_le_add_left (bytesToCopy_le _ _) _
  · exact .refl k

/-- What one round of `copy_code` does with the page `i` it has got. -/
theorem copyCodeRound_spec (h : Building T p b k [] us ts) (buffer size : Nat) {i : Nat}
    {ts₁ : List Nat} {l : List Nat} {k₁ : Kernel Pointers}
    (hadded : UserPageAdded T p b k [] us ts i ts₁ k₁) :
    ∃ k₂, Kernel.copyCodeRound p buffer size l (min (us.length * PAGE_SIZE) size)
        (pageAddress i + VA_START, k₁) =
          k₂.copyCodePages p buffer size l (min ((us.length + 1) * PAGE_SIZE) size) ∧
      PageFilled T p b k us i ts₁ k₂ ∧ k₂.memory.memoryPages = k₁.memory.memoryPages ∧
      k₂.failures = k₁.failures ∧ (BufferOutside T buffer size → ∀ x < PAGE_SIZE,
        k₂.memory.bytes (pageAddress i + x) = image k buffer size us.length x) := by
  have hzero : ∀ x < PAGE_SIZE, k₁.memory.bytes (pageAddress i + x) = 0 := fun x hx ↦
    hadded.zero _ (Nat.le_add_right _ x) (Nat.add_lt_add_left hx _)
  obtain ⟨f, hfill⟩ := fillPage_eq buffer size us.length i k₁
  refine ⟨k₁.fillPage buffer size us.length i, copyCodeRound_fillPage p buffer size _ i l k₁,
    ?_, ?_, ?_, fun hout x hx ↦ ?_⟩
  · refine hadded.fill h ?_ (.fillPage k₁ buffer size us.length i)
    rw [hfill]
    exact hadded.building.congr rfl (fun _ _ ↦ rfl) rfl
  · rw [hfill]
    rfl
  · rw [hfill]
    rfl
  · rw [fillPage_bytes hzero hx]
    exact hout.image_eq (hadded.confined.mono h.reach_subset subset_rfl) us.length x

/-- The process is given `m` more pages with the image of a program. -/
theorem Building.copyCodePages (h : Building T p b k [] us ts) {m : Nat} (buffer size : Nat)
    (hroom : us.length + m ≤ MAX_PROCESS_PAGES) :
    Takes (pagesNeeded m ts.length) id k (k.copyCodePages p buffer size
      (List.range' us.length m) (min (us.length * PAGE_SIZE) size)) fun k' ↦
      ∃ us' ts', Extended T p b k us m us' ts' k' ∧
        (BufferOutside T buffer size → Filled (image k buffer size) k us.length us' k') := by
  induction m generalizing k us ts with
  | zero => exact .none_taken rfl rfl ⟨us, ts, .refl h, fun _ ↦ .refl _ k us⟩
  | succ m ih =>
      have hlen : us.length < MAX_PROCESS_PAGES := by omega
      rw [pagesNeeded_succ m h.space.length_ts, List.range'_succ, copyCodePages_cons]
      refine (h.allocateUserPage hlen).bind ?_ ?_
      · rintro ⟨address, k₁⟩ - ⟨i, ts₁, rfl, hadded⟩
        obtain ⟨k₂, hround, hfilled, hmarks, hfail, hbytes⟩ :=
          copyCodeRound_spec h buffer size (l := List.range' (us.length + 1) m) hadded
        have hlength : (us ++ [pageAddress i]).length = us.length + 1 := by simp
        have hnext := ih hfilled.building (by omega)
        rw [hlength, hadded.length] at hnext
        have hrest : Takes (pagesNeeded m 4) id k₁ _ _ := hnext.from_state hmarks hfail
        rw [hround]
        refine hrest.weaken ?_
        rintro k' - ⟨us', ts', hext, hfill⟩
        refine ⟨us', ts', .cons hfilled hext, fun hout ↦ ?_⟩
        refine .cons hfilled (hbytes hout) hext.old ((hfill hout).congr ?_)
        exact fun j _ _ x _ ↦ (hout.image_eq hfilled.confined j x).symm
      · intro r s hs
        unfold Kernel.copyCodeRound at hs
        split_ifs at hs
        · have hrest := copyCodePages_failures hs
          rwa [memcpy_failures] at hrest
        · exact copyCodePages_failures hs

/-- `copy_code` fills an address space without user pages. -/
theorem Building.copyCode (h : Building T p b k [] [] ts) (buffer size : Nat) :
    Takes (pagesNeeded 16 ts.length) id k (k.copyCode p buffer size) fun k' ↦
      ∃ us' ts', Extended T p b k [] 16 us' ts' k' ∧
        (BufferOutside T buffer size → Filled (image k buffer size) k 0 us' k') := by
  have hpages := h.copyCodePages (m := 16) buffer size le_rfl
  rw [List.length_nil, Nat.zero_mul, Nat.zero_min, ← List.range_eq_range'] at hpages
  exact hpages

/-! ## Giving the old pages back -/

/-- The pages `vs` of process `p` have been given back, and its list of user pages is empty. -/
structure GivenBack (p : PcbPtr) (vs : List Nat) (k k' : Kernel Pointers) : Prop where
  confined : Confined { a | a ∈ vs } {p} k k'
  control : ∃ f, k'.pcb p = { k.pcb p with mm := { (k.pcb p).mm with
    nUserPages := 0
    userPages := f } }
  freed : ∀ i, pageAddress i ∈ vs → k'.memory.memoryPages i = false
  free : k'.memory.free = k.memory.free + vs.length
  failures : k'.failures = k.failures

/-- One round: a page is given back and its slot in the list is cleared. -/
def Kernel.releaseUserPage (p : PcbPtr) (i j : Nat) (k : Kernel Pointers) : Kernel Pointers :=
  ((k.clearPage (pageAddress i)).mapMemory (·.mark i false)).modifyMm p fun mm ↦
    { mm with
      nUserPages := mm.nUserPages - 1
      userPages := Function.update mm.userPages j ⟨0, 0⟩ }

theorem freeUserPages_cons {i j : Nat} {l : List Nat} (hi : i < N_PAGES)
    (hpage : ((k.pcb k.currentProcess).mm.userPages j).physicalAddress = pageAddress i) :
    k.freeUserPages (j :: l) =
      (k.releaseUserPage k.currentProcess i j).freeUserPages l := by
  rw [Kernel.freeUserPages, Globals.current, hpage, freePage_page hi]
  rfl

theorem releaseUserPage_pcb {i j : Nat} (hout : ∀ a, p.pageStart = some a → a ≠ pageAddress i) :
    (k.releaseUserPage p i j).pcb p = { k.pcb p with mm := { (k.pcb p).mm with
      nUserPages := (k.pcb p).mm.nUserPages - 1
      userPages := Function.update (k.pcb p).mm.userPages j ⟨0, 0⟩ } } := by
  have hsame : (k.clearPage (pageAddress i)).pcb p = k.pcb p :=
    (Confined.clearPage (P := ∅) k (Set.mem_singleton _)).pcb p (Set.notMem_empty p) hout
  rw [Kernel.releaseUserPage, Kernel.modifyMm, Kernel.mapGlobals_toGlobals,
    Globals.modifyPcb_pcb_self]
  exact congrArg (fun b : PCB ↦ { b with mm := { b.mm with
    nUserPages := b.mm.nUserPages - 1
    userPages := Function.update b.mm.userPages j ⟨0, 0⟩ } }) hsame

/-- The loop that gives the pages from index `j` on back. -/
theorem freeUserPages_spec {vs : List Nat} {j : Nat} (hp : k.currentProcess = p)
    (hpages : ∀ l (h : l < vs.length), ((k.pcb p).mm.userPages (j + l)).physicalAddress = vs[l])
    (hused : ∀ a ∈ vs, k.memory.InUse a) (hnodup : vs.Nodup)
    (hcount : (k.pcb p).mm.nUserPages = vs.length)
    (hcontrol : ∀ a, p.pageStart = some a → a ∉ vs) :
    ∃ k', k.freeUserPages (List.range' j vs.length) = some k' ∧ GivenBack p vs k k' := by
  induction vs generalizing k j with
  | nil =>
      refine ⟨k, rfl, .refl k, ⟨(k.pcb p).mm.userPages, ?_⟩, by simp, (Nat.add_zero _).symm, rfl⟩
      rw [← show (k.pcb p).mm.nUserPages = 0 from hcount]
  | cons v vs ih =>
      obtain ⟨i, hi, rfl, hmark⟩ := hused v List.mem_cons_self
      obtain ⟨hv, hnodup⟩ := List.nodup_cons.mp hnodup
      have hout : ∀ a, p.pageStart = some a → a ≠ pageAddress i := fun a ha he ↦
        hcontrol a ha (he ▸ List.mem_cons_self)
      have hconfined : Confined {pageAddress i} {p} k (k.releaseUserPage p i j) :=
        (Confined.freePage k (Set.mem_singleton _)).trans
          (Confined.modifyMm _ (Set.mem_singleton p) _)
      have hpcb := releaseUserPage_pcb (k := k) (j := j) hout
      have hfirst : ((k.pcb k.currentProcess).mm.userPages j).physicalAddress = pageAddress i := by
        rw [hp]
        exact hpages 0 (Nat.zero_lt_succ _)
      rw [List.length_cons, List.range'_succ, freeUserPages_cons hi hfirst, hp]
      have hlater : ∀ l (h : l < vs.length),
          (((k.releaseUserPage p i j).pcb p).mm.userPages (j + 1 + l)).physicalAddress = vs[l] := by
        intro l hl
        have hne : j + 1 + l ≠ j := by omega
        have hindex : j + 1 + l = j + (l + 1) := by omega
        rw [hpcb]
        dsimp only
        rw [Function.update_of_ne hne, hindex]
        exact hpages (l + 1) (Nat.succ_lt_succ hl)
      have hin : ∀ a ∈ vs, (k.releaseUserPage p i j).memory.InUse a := by
        intro a ha
        have hne : a ∉ ({pageAddress i} : Set Nat) := by
          rintro rfl
          exact hv ha
        exact (hconfined.inUse hne).mpr (hused a (List.mem_cons_of_mem _ ha))
      have hcount' : ((k.releaseUserPage p i j).pcb p).mm.nUserPages = vs.length := by
        rw [hpcb]
        dsimp only
        rw [hcount, List.length_cons, Nat.add_sub_cancel]
      obtain ⟨k', hk', hrest⟩ := ih (hconfined.currentProcess.trans hp) hlater hin hnodup hcount'
        fun a ha hmem ↦ hcontrol a ha (List.mem_cons_of_mem _ hmem)
      refine ⟨k', hk', ?_, ?_, ?_, ?_, ?_⟩
      · refine (hconfined.mono ?_ subset_rfl).trans (hrest.confined.mono ?_ subset_rfl)
        · exact Set.singleton_subset_iff.mpr List.mem_cons_self
        · exact fun a ha ↦ List.mem_cons_of_mem _ ha
      · obtain ⟨f, hf⟩ := hrest.control
        refine ⟨f, ?_⟩
        rw [hf, hpcb]
      · intro i' hi'
        rcases List.mem_cons.mp hi' with hsame | hlater
        · obtain rfl := pageAddress_inj.mp hsame
          rw [hrest.confined.marks i' hv]
          exact Function.update_self ..
        · exact hrest.freed i' hlater
      · have hone : (k.releaseUserPage p i j).memory.free = k.memory.free + 1 :=
          freeCells_release hi hmark
        rw [hrest.free, hone, List.length_cons]
        omega
      · exact hrest.failures

/-- A full address space whose user pages have been given back can be filled again. -/
theorem GivenBack.building (h : GivenBack p us k k')
    (hspace : AddressSpace k.memory (k.pcb p).mm us ts)
    (hnodup : (us ++ ts).Nodup) (hused : ∀ a ∈ us ++ ts, k.memory.InUse a)
    (hcontrol : ∀ a, p.pageStart = some a → k.memory.InUse a ∧ a ∉ us ++ ts)
    (hts : ∀ t ∈ ts, t ∈ T) (hT : ∀ a ∈ us, a ∈ T)
    (hfree : ∀ i < N_PAGES, k.memory.memoryPages i = false → pageAddress i ∈ T) :
    Building T p (k.pcb p).outsideMm k' [] [] ts := by
  obtain ⟨f, hf⟩ := h.control
  obtain ⟨-, hnodup_ts, hdisjoint⟩ := List.nodup_append.mp hnodup
  have hout : ∀ a ∈ ts, a ∉ us := fun a ha hus ↦ hdisjoint a hus a ha rfl
  refine ⟨by rw [hf]; rfl, ?_, hnodup_ts, ?_, hts, ?_, ?_⟩
  · have htables : ∀ t ∈ ts, k'.memory.tables t = k.memory.tables t := fun t ht ↦
      h.confined.tables t (hout t ht)
    have hkept := hspace.congr htables
    rw [hf]
    exact ⟨rfl, nofun, hkept.nKernelPages, hkept.kernelPages, hkept.pgd, hkept.link, hkept.blank,
      nofun, hkept.tail, fun hne ↦ absurd rfl hne, Nat.zero_le _, hkept.length_ts⟩
  · intro a ha
    exact (h.confined.inUse (hout a ha)).mpr (hused a (List.mem_append_right _ ha))
  · intro i hi hfree'
    by_cases hmem : pageAddress i ∈ us
    · exact hT _ hmem
    · rw [h.confined.marks i hmem] at hfree'
      exact hfree i hi hfree'
  · intro a ha
    obtain ⟨hin, hnot⟩ := hcontrol a ha
    refine ⟨(h.confined.inUse fun hmem ↦ hnot (List.mem_append_left _ hmem)).mpr hin, fun hmem ↦ ?_⟩
    exact hnot (List.mem_append_right _ hmem)

end

end DemosOS
