import DemosOS.Mem.Exec

/-!
# The arguments of a program

What `syscall_exec` does with the arguments: it copies them to the kernel stack, and from there
to the top of the stack of the new program, each to a row of its own.
-/

namespace DemosOS

open Lib Kernel

/-- Every argument is a string in a row of `SYSCALL_EXEC_ARGUMENT_DIMENSION` bytes. -/
def Fits (arguments : List (List UInt8)) : Prop :=
  ∀ argument ∈ arguments, argument.length < SYSCALL_EXEC_ARGUMENT_DIMENSION ∧ 0 ∉ argument

/-! ## Saving the arguments -/

/-- The row of an argument: the string, filled up with zeros. -/
def row (argument : List UInt8) : List UInt8 :=
  argument ++ List.replicate (SYSCALL_EXEC_ARGUMENT_DIMENSION - argument.length) 0

theorem length_row {argument : List UInt8}
    (h : argument.length < SYSCALL_EXEC_ARGUMENT_DIMENSION) :
    (row argument).length = SYSCALL_EXEC_ARGUMENT_DIMENSION := by
  rw [row, List.length_append, List.length_replicate]
  omega

/-- There is a zero after the string. -/
theorem row_eq {argument : List UInt8} (h : argument.length < SYSCALL_EXEC_ARGUMENT_DIMENSION) :
    row argument = argument ++
      0 :: List.replicate (SYSCALL_EXEC_ARGUMENT_DIMENSION - argument.length - 1) 0 := by
  rw [row, ← List.replicate_succ, Nat.sub_add_cancel (Nat.sub_pos_of_lt h)]

/-- A string is copied to a row of zeros. -/
theorem copyString_row (done rest : List UInt8) {argument : List UInt8}
    (h : argument.length < SYSCALL_EXEC_ARGUMENT_DIMENSION) :
    copyString done.length argument
      (done ++ (List.replicate SYSCALL_EXEC_ARGUMENT_DIMENSION 0 ++ rest)) =
      some (done ++ (row argument ++ rest)) := by
  have hroom : done.length + argument.length + 1 ≤
      (done ++ (List.replicate SYSCALL_EXEC_ARGUMENT_DIMENSION (0 : UInt8) ++ rest)).length := by
    rw [List.length_append, List.length_append, List.length_replicate]
    omega
  have hdrop : (done ++ (List.replicate SYSCALL_EXEC_ARGUMENT_DIMENSION (0 : UInt8) ++ rest)).drop
      (done.length + argument.length + 1) =
      List.replicate (SYSCALL_EXEC_ARGUMENT_DIMENSION - argument.length - 1) 0 ++ rest := by
    rw [Nat.add_assoc, ← List.drop_drop, List.drop_left, List.drop_append_of_le_length,
      List.drop_replicate]
    · rfl
    · rw [List.length_replicate]
      exact h
  rw [copyString, if_pos hroom, hdrop, List.take_left, row_eq h]
  simp

/-- The string of a row is read back. -/
theorem stringAt_row (done rest : List UInt8) {argument : List UInt8}
    (h : argument.length < SYSCALL_EXEC_ARGUMENT_DIMENSION) (hzero : 0 ∉ argument) :
    stringAt done.length (done ++ (row argument ++ rest)) = argument := by
  have hne : ∀ c ∈ argument, decide (c ≠ 0) = true := by
    rintro c hc
    exact decide_eq_true fun he ↦ hzero (he ▸ hc)
  rw [stringAt, List.drop_left, row_eq h, List.append_assoc, List.takeWhile_append_of_pos hne]
  simp

theorem length_rows {arguments : List (List UInt8)} (h : Fits arguments) :
    (arguments.map row).flatten.length = arguments.length * SYSCALL_EXEC_ARGUMENT_DIMENSION := by
  induction arguments with
  | nil => simp
  | cons argument rest ih =>
      rw [List.map_cons, List.flatten_cons, List.length_append,
        ih fun a ha ↦ h a (List.mem_cons_of_mem _ ha),
        length_row (h argument List.mem_cons_self).1, List.length_cons, Nat.succ_mul, Nat.add_comm]

/-- The loop fills one row after the other. -/
theorem saveRows {arguments : List (List UInt8)} (h : Fits arguments) (done : List UInt8) {n : Nat}
    (hdone : done.length = n * SYSCALL_EXEC_ARGUMENT_DIMENSION) :
    (arguments.zipIdx n).foldlM (fun rows (argument, i) ↦
      copyString (i * SYSCALL_EXEC_ARGUMENT_DIMENSION) argument rows)
      (done ++ List.replicate (arguments.length * SYSCALL_EXEC_ARGUMENT_DIMENSION) 0) =
      some (done ++ (arguments.map row).flatten) := by
  induction arguments generalizing done n with
  | nil => simp
  | cons argument rest ih =>
      have hfirst := (h argument List.mem_cons_self).1
      have hcopy := copyString_row done
        (List.replicate (rest.length * SYSCALL_EXEC_ARGUMENT_DIMENSION) 0) hfirst
      have hsplit : List.replicate ((argument :: rest).length * SYSCALL_EXEC_ARGUMENT_DIMENSION)
          (0 : UInt8) = List.replicate SYSCALL_EXEC_ARGUMENT_DIMENSION 0 ++
            List.replicate (rest.length * SYSCALL_EXEC_ARGUMENT_DIMENSION) 0 := by
        rw [List.replicate_append_replicate, List.length_cons, Nat.succ_mul, Nat.add_comm]
      have hnext : (done ++ row argument).length = (n + 1) * SYSCALL_EXEC_ARGUMENT_DIMENSION := by
        rw [List.length_append, hdone, length_row hfirst, Nat.succ_mul]
      rw [List.zipIdx_cons, List.foldlM_cons, hsplit]
      dsimp only
      rw [← hdone, hcopy, Option.bind_eq_bind, Option.bind_some, ← List.append_assoc,
        ih (fun a ha ↦ h a (List.mem_cons_of_mem _ ha)) _ hnext]
      simp

/-- Arguments that fit are saved as they are. -/
theorem saveArguments_eq {arguments : List (List UInt8)} (h : Fits arguments) :
    saveArguments arguments = some arguments := by
  have hrows := saveRows h [] (n := 0) (by simp)
  rw [List.nil_append, List.nil_append] at hrows
  rw [saveArguments, hrows]
  dsimp only [Option.bind_eq_bind, Option.bind_some]
  refine congrArg some (List.ext_getElem (by simp) fun i hi hi' ↦ ?_)
  rw [List.getElem_map, List.getElem_range]
  have hsplit : arguments = arguments.take i ++ arguments[i] :: arguments.drop (i + 1) := by
    rw [← List.drop_eq_getElem_cons hi', List.take_append_drop]
  have hlen : ((arguments.take i).map row).flatten.length =
    i * SYSCALL_EXEC_ARGUMENT_DIMENSION := by
    rw [length_rows fun a ha ↦ h a (List.mem_of_mem_take ha), List.length_take, Nat.min_eq_left]
    exact hi'.le
  obtain ⟨hfits, hzero⟩ := h arguments[i] (List.getElem_mem hi')
  have hread := stringAt_row ((arguments.take i).map row).flatten
    ((arguments.drop (i + 1)).map row).flatten hfits hzero
  rw [hlen] at hread
  refine Eq.trans ?_ hread
  have hall := congrArg (fun l ↦ (l.map row).flatten) hsplit
  rw [List.map_append, List.flatten_append, List.map_cons, List.flatten_cons] at hall
  rw [hall]

/-! ## Passing the arguments on -/

/-- Only the bytes at `A` and the registers of the current process have changed. -/
structure Delivered (A : Set Nat) (k k' : Kernel Pointers) : Prop where
  contents : ContentsOnly k k'
  bytes : ∀ x ∉ A, k'.memory.bytes x = k.memory.bytes x
  others : ∀ p ≠ k.currentProcess, k'.pcb p = k.pcb p

theorem ContentsOnly.translate {k k' : Kernel Pointers} (h : ContentsOnly k k') (p : PcbPtr)
    (virtualAddress : Nat) : k'.translate p virtualAddress = k.translate p virtualAddress := by
  rw [Kernel.translate, Kernel.translate, h.books.mm p]
  unfold Kernel.walk
  rw [h.books.tables]

namespace Delivered

variable {A B : Set Nat} {k k₁ k' : Kernel Pointers}

theorem refl (A : Set Nat) (k : Kernel Pointers) : Delivered A k k :=
  ⟨.refl k, fun _ _ ↦ rfl, fun _ _ ↦ rfl⟩

theorem trans (h : Delivered A k k₁) (h' : Delivered A k₁ k') : Delivered A k k' where
  contents := h.contents.trans h'.contents
  bytes x hx := (h'.bytes x hx).trans (h.bytes x hx)
  others p hp := (h'.others p (h.contents.currentProcess ▸ hp)).trans (h.others p hp)

theorem mono (h : Delivered A k k') (hAB : A ⊆ B) : Delivered B k k' :=
  ⟨h.contents, fun x hx ↦ h.bytes x fun hA ↦ hx (hAB hA), h.others⟩

theorem modifyCurrent (A : Set Nat) (k : Kernel Pointers) {f : PCB → PCB}
    (hf : ∀ b, (f b).withoutRegisters = b.withoutRegisters) :
    Delivered A k (k.mapGlobals fun g ↦ g.modifyPcb g.currentProcess f) :=
  ⟨.modifyPcb k _ hf, fun _ _ ↦ rfl, fun _ hp ↦ k.modifyPcb_pcb_of_ne f hp⟩

/-- A word inside of the trap frame. -/
theorem setTrapFrame (A : Set Nat) {i : Nat} (hi : i < 34) (value : Nat) (k : Kernel Pointers) :
    Delivered A k (k.setTrapFrame i value) := by
  rw [Kernel.setTrapFrame, if_pos hi]
  exact modifyCurrent A k fun _ ↦ rfl

theorem storeUserByte {virtualAddress : Nat} {c : UInt8}
    (h : k.storeUserByte virtualAddress c = some k')
    (hA : ∀ x, k.translate k.currentProcess virtualAddress = some x → x ∈ A) :
    Delivered A k k' := by
  have hcontents := ContentsOnly.storeUserByte h
  obtain ⟨address, haddress, h⟩ := Option.bind_eq_some_iff.mp h
  obtain rfl := Option.some.inj h
  refine ⟨hcontents, fun x hx ↦ if_neg ?_, fun _ _ ↦ rfl⟩
  rintro ⟨hle, hlt⟩
  have hx' : x = address := by
    simp only [List.length_singleton] at hlt
    omega
  exact hx (hx' ▸ hA address haddress)

/-- A string at a virtual address of the current process. -/
theorem storeUserString {virtualAddress : Nat} {body : List UInt8}
    (h : k.storeUserString virtualAddress body = some k')
    (hA : ∀ j ≤ body.length, ∀ x,
      k.translate k.currentProcess (virtualAddress + j) = some x → x ∈ A) : Delivered A k k' := by
  have hindex : ∀ c ∈ (body ++ [0]).zipIdx, c.2 ≤ body.length := by
    intro c hc
    have hlt := List.snd_lt_of_mem_zipIdx hc
    simp only [List.length_append, List.length_singleton] at hlt
    omega
  unfold Kernel.storeUserString at h
  generalize (body ++ [0]).zipIdx = l at h hindex
  induction l generalizing k with
  | nil =>
      rw [← Option.some.inj h]
      exact refl A k
  | cons c l ih =>
      rw [List.foldlM_cons] at h
      obtain ⟨k₁, hk₁, h⟩ := Option.bind_eq_some_iff.mp h
      have hfirst := storeUserByte hk₁ (hA c.2 (hindex c List.mem_cons_self))
      refine hfirst.trans (ih ?_ h fun c' hc' ↦ hindex c' (List.mem_cons_of_mem _ hc'))
      intro j hj x hx
      rw [hfirst.contents.translate, hfirst.contents.currentProcess] at hx
      exact hA j hj x hx

/-- The loop that passes the arguments on, as long as the frame has room for their addresses. -/
theorem passArguments {i stackPointer : Nat} {arguments : List (List UInt8)}
    {r : Nat × Kernel Pointers} (h : k.passArguments i stackPointer arguments = some r)
    (hi : i + arguments.length ≤ 33) (hsmall : stackPointer ≤ 16 * PAGE_SIZE)
    (hroom : arguments.length * SYSCALL_EXEC_ARGUMENT_DIMENSION ≤ stackPointer)
    (hA : ∀ (n : Nat) (hn : n < arguments.length), ∀ j ≤ arguments[n].length, ∀ x,
      k.translate k.currentProcess
        (stackPointer - (n + 1) * SYSCALL_EXEC_ARGUMENT_DIMENSION + j) = some x → x ∈ A) :
    Delivered A k r.2 := by
  induction arguments generalizing k i stackPointer with
  | nil =>
      rw [← Option.some.inj h]
      exact refl A k
  | cons argument rest ih =>
      have hpointer : (stackPointer + 2 ^ 64 - SYSCALL_EXEC_ARGUMENT_DIMENSION) % 2 ^ 64 =
          stackPointer - SYSCALL_EXEC_ARGUMENT_DIMENSION := by
        unfold SYSCALL_EXEC_ARGUMENT_DIMENSION at hroom ⊢
        unfold PAGE_SIZE at hsmall
        rw [List.length_cons] at hroom
        omega
      rw [Kernel.passArguments, hpointer] at h
      obtain ⟨k₁, hk₁, h⟩ := Option.bind_eq_some_iff.mp h
      rw [List.length_cons] at hi hroom
      have hstring : Delivered A k k₁ := by
        refine storeUserString hk₁ fun j hj x hx ↦ hA 0 (Nat.zero_lt_succ _) j hj x ?_
        rw [Nat.zero_add, Nat.one_mul]
        exact hx
      have hframe := setTrapFrame A (by omega : i + 1 < 34)
        (stackPointer - SYSCALL_EXEC_ARGUMENT_DIMENSION) k₁
      refine (hstring.trans hframe).trans (ih h (by omega) ?_ ?_ ?_)
      · omega
      · rw [Nat.succ_mul] at hroom
        omega
      · intro n hn j hj x hx
        rw [(hstring.trans hframe).contents.translate,
          (hstring.trans hframe).contents.currentProcess] at hx
        refine hA (n + 1) (Nat.succ_lt_succ hn) j hj x ?_
        rw [Nat.succ_mul (n + 1), Nat.add_comm ((n + 1) * _), ← Nat.sub_sub]
        exact hx

end Delivered

/-- The virtual address is in the string of an argument. -/
def InArgument (arguments : List (List UInt8)) (virtualAddress : Nat) : Prop :=
  ∃ n, ∃ h : n < arguments.length,
    16 * PAGE_SIZE - (n + 1) * SYSCALL_EXEC_ARGUMENT_DIMENSION ≤ virtualAddress ∧
    virtualAddress ≤ 16 * PAGE_SIZE - (n + 1) * SYSCALL_EXEC_ARGUMENT_DIMENSION +
      arguments[n].length

/-- The end of `syscall_exec` writes the arguments on the stack. -/
theorem Delivered.passOn {k k' : Kernel Pointers} {arguments : List (List UInt8)}
    (h : k.passOn arguments = some k') (hframe : arguments.length ≤ 33) :
    Delivered { x | ∃ virtualAddress, InArgument arguments virtualAddress ∧
      k.translate k.currentProcess virtualAddress = some x } k k' := by
  obtain ⟨r, hr, h⟩ := Option.bind_eq_some_iff.mp h
  obtain rfl := Option.some.inj h
  have hfirst := Delivered.setTrapFrame
    { x | ∃ virtualAddress, InArgument arguments virtualAddress ∧
      k.translate k.currentProcess virtualAddress = some x } (by decide : 0 < 34) arguments.length k
  have hroom : arguments.length * SYSCALL_EXEC_ARGUMENT_DIMENSION ≤ 16 * PAGE_SIZE := by
    unfold SYSCALL_EXEC_ARGUMENT_DIMENSION PAGE_SIZE
    omega
  have hpassed := hfirst.trans (Delivered.passArguments hr (by omega) le_rfl hroom ?_)
  · refine ((hpassed.trans ?_).trans (.setTrapFrame _ (by decide : 31 < 34) r.1 _)).trans
      (.setTrapFrame _ (by decide : 32 < 34) 0 _)
    refine .modifyCurrent _ r.2 ?_
    exact fun _ ↦ rfl
  · intro n hn j hj x hx
    rw [hfirst.contents.translate, hfirst.contents.currentProcess] at hx
    exact ⟨_, ⟨n, hn, Nat.le_add_right _ _, Nat.add_le_add_left hj _⟩, hx⟩

end DemosOS
