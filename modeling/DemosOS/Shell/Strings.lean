import Mathlib.Data.List.TakeWhile
import Mathlib.Data.UInt
import DemosOS.Console.Steps
import DemosOS.Lib.Buffer

/-!
# The string functions of the shell

`common/string.c`, and `memcpy` of `common/memory.S`, on arrays of characters.  A pointer
that is only read through is the part of its array from there on; one that is written through
is an index.  An access outside an array has no result.

The arrays of one call are different ones: the shell never splits, copies or appends a string
onto itself.
-/

namespace DemosOS.Shell

open Lib Buffer

/-! ## The functions -/

/-- The loop of `strlen`, `len` characters into the string. -/
def strlenLoop : List UInt8 → Nat → Option Nat
  | [], _ => none
  | c :: str, len => if c ≠ 0 then strlenLoop str (len + 1) else some len

def strlen (str : List UInt8) : Option Nat := strlenLoop str 0

/-- The loop that `strcat` and `strcpy` end with: characters up to the `NUL`, and a `NUL`. -/
def copyLoop (dest : List UInt8) (pointer : Nat) : List UInt8 → Option (List UInt8)
  | [] => none
  | c :: src =>
      if c ≠ 0 then do
        let dest ← store dest pointer c
        copyLoop dest (pointer + 1) src
      else store dest pointer 0

def strcat (dest src : List UInt8) : Option (List UInt8) := do
  -- the loop that looks for the end of `dest` is that of `strlen`
  let pointer ← strlenLoop dest 0
  copyLoop dest pointer src

def strcpy (dest src : List UInt8) : Option (List UInt8) := copyLoop dest 0 src

/-- A character at which `strsplit` stops. -/
def StopsSplit (c : UInt8) : Prop := c = 0 ∨ EndsLine c

instance (c : UInt8) : Decidable (StopsSplit c) := inferInstanceAs (Decidable (_ ∨ _))

/-- The inner loop of `strsplit`: the rest of the line goes to `dest2`. -/
def strsplitRest (dest2 : List UInt8) (j : Nat) : List UInt8 → Option (List UInt8)
  | [] => none
  | c :: pointer =>
      if ¬ StopsSplit c then do
        let dest2 ← store dest2 j c
        strsplitRest dest2 (j + 1) pointer
      else some dest2

/-- The outer loop of `strsplit`, `i` characters into `dest1`. -/
def strsplitLoop (delimiter : UInt8) (dest1 : List UInt8) (i : Nat) (dest2 : List UInt8) :
    List UInt8 → Option (List UInt8 × List UInt8)
  | [] => none
  | c :: pointer =>
      if ¬ StopsSplit c then
        if c = delimiter then do
          let dest1 ← store dest1 i 0
          -- the inner loop ends at a character that ends the outer one too
          let dest2 ← strsplitRest dest2 0 pointer
          some (dest1, dest2)
        else do
          let dest1 ← store dest1 i c
          strsplitLoop delimiter dest1 (i + 1) dest2 pointer
      else some (dest1, dest2)

def strsplit (src : List UInt8) (delimiter : UInt8) (dest1 dest2 : List UInt8) :
    Option (List UInt8 × List UInt8) :=
  strsplitLoop delimiter dest1 0 dest2 src

/-- The loop of `memcpy`, which copies `count` bytes. -/
def memcpyLoop (dest : List UInt8) (i : Nat) : Nat → List UInt8 → Option (List UInt8)
  | 0, _ => some dest
  | _ + 1, [] => none
  | count + 1, c :: src => do
      let dest ← store dest i c
      memcpyLoop dest (i + 1) count src

def memcpy (dest src : List UInt8) (count : Nat) : Option (List UInt8) :=
  memcpyLoop dest 0 count src

/-! ## Lengths and copies -/

section Copies

variable {dest src d s : List UInt8} {i n : Nat}

theorem strlenLoop_eq (hs : 0 ∉ s) (rest : List UInt8) (len : Nat) :
    strlenLoop (s ++ 0 :: rest) len = some (len + s.length) := by
  induction s generalizing len with
  | nil => rfl
  | cons c s ih =>
      rw [List.mem_cons, not_or] at hs
      rw [List.cons_append, strlenLoop, if_pos (Ne.symm hs.1), ih hs.2, List.length_cons]
      congr 1
      omega

theorem strlen_eq (h : Spells src s) : strlen src = some s.length := by
  obtain ⟨rest, rfl⟩ := h.eq
  rw [strlen, strlenLoop_eq h.clean, Nat.zero_add]

theorem copyLoop_eq (hs : 0 ∉ s) (rest dest : List UInt8) (i : Nat) :
    copyLoop dest i (s ++ 0 :: rest) = storeAll dest i (s ++ [0]) := by
  induction s generalizing dest i with
  | nil =>
      rw [List.nil_append, List.nil_append, copyLoop, if_neg (not_not_intro rfl), storeAll]
      cases store dest i 0 <;> rfl
  | cons c s ih =>
      rw [List.mem_cons, not_or] at hs
      rw [List.cons_append, List.cons_append, copyLoop, if_pos (Ne.symm hs.1), storeAll]
      exact congrArg _ (funext fun dest' ↦ ih hs.2 dest' (i + 1))

theorem strcpy_eq (h : Spells src s) : strcpy dest src = storeAll dest 0 (s ++ [0]) := by
  obtain ⟨rest, rfl⟩ := h.eq
  rw [strcpy, copyLoop_eq h.clean]

theorem strcat_eq (hd : Spells dest d) (hs : Spells src s) :
    strcat dest src = storeAll dest d.length (s ++ [0]) := by
  have hend : strlenLoop dest 0 = some d.length := strlen_eq hd
  obtain ⟨rest, rfl⟩ := hs.eq
  rw [strcat, hend]
  exact copyLoop_eq hs.clean rest dest d.length

/-- `strcat` stays inside the array if both strings and the `NUL` fit. -/
theorem strcat_of_lt (hd : Spells dest d) (hs : Spells src s)
    (h : d.length + s.length < dest.length) :
    ∃ dest', strcat dest src = some dest' ∧ Spells dest' (d ++ s) ∧
      dest'.length = dest.length := by
  have hroom : d.length + (s ++ [0]).length ≤ dest.length := by
    rw [List.length_append, List.length_singleton]
    omega
  refine ⟨splice dest d.length (s ++ [0]), ?_, ?_, splice_length hroom⟩
  · rw [strcat_eq hd hs, storeAll_of_le hroom]
  · have hclean : 0 ∉ dest.take d.length := hd.take.symm ▸ hd.clean
    have := spells_splice (i := d.length) hclean hs.clean
    rwa [hd.take] at this

/-- Otherwise it writes behind the array. -/
theorem strcat_of_le (hd : Spells dest d) (hs : Spells src s)
    (h : dest.length ≤ d.length + s.length) : strcat dest src = none := by
  rw [strcat_eq hd hs]
  refine storeAll_of_lt ?_ (List.append_ne_nil_of_right_ne_nil s (List.cons_ne_nil 0 []))
  rw [List.length_append, List.length_singleton]
  omega

theorem memcpyLoop_eq (dest src : List UInt8) (i : Nat) :
    memcpyLoop dest i src.length src = storeAll dest i src := by
  induction src generalizing dest i with
  | nil => rfl
  | cons c src ih => exact congrArg _ (funext fun dest' ↦ ih dest' (i + 1))

/-- A whole array is copied. -/
theorem memcpy_all (hdest : dest.length = n) (hsrc : src.length = n) :
    memcpy dest src n = some src := by
  subst hsrc
  rw [memcpy, memcpyLoop_eq, storeAll_of_le (by omega), splice, List.take_zero, List.nil_append,
    Nat.zero_add, ← hdest, List.drop_length, List.append_nil]

end Copies

/-! ## Splitting a line -/

section Split

variable {src s : List UInt8} {delimiter : UInt8} {n : Nat}

/-- What stands before the first delimiter. -/
def before (delimiter : UInt8) (s : List UInt8) : List UInt8 := s.takeWhile (· ≠ delimiter)

/-- What stands after the first delimiter. -/
def after (delimiter : UInt8) (s : List UInt8) : List UInt8 :=
  (s.dropWhile (· ≠ delimiter)).tail

theorem notMem_before (delimiter : UInt8) (s : List UInt8) : delimiter ∉ before delimiter s := by
  intro h
  have hne := List.mem_takeWhile_imp h
  exact of_decide_eq_true hne rfl

theorem before_append_after (h : delimiter ∈ s) :
    before delimiter s ++ delimiter :: after delimiter s = s := by
  induction s with
  | nil => exact absurd h List.not_mem_nil
  | cons c s ih =>
      by_cases hc : c = delimiter
      · subst hc
        simp [before, after]
      · have hs : delimiter ∈ s := (List.mem_cons.mp h).resolve_left (Ne.symm hc)
        simpa [before, after, hc] using ih hs

theorem before_of_notMem (h : delimiter ∉ s) : before delimiter s = s :=
  List.takeWhile_eq_self_iff.mpr fun c hc ↦
    decide_eq_true fun heq : c = delimiter ↦ h (heq ▸ hc)

theorem after_of_notMem (h : delimiter ∉ s) : after delimiter s = [] := by
  have hnil : s.dropWhile (· ≠ delimiter) = [] :=
    List.dropWhile_eq_nil_iff.mpr fun c hc ↦
      decide_eq_true fun heq : c = delimiter ↦ h (heq ▸ hc)
  rw [after, hnil, List.tail_nil]

theorem mem_of_mem_before {c : UInt8} (h : c ∈ before delimiter s) : c ∈ s :=
  List.takeWhile_subset _ h

theorem mem_of_mem_after {c : UInt8} (h : c ∈ after delimiter s) : c ∈ s :=
  List.dropWhile_subset _ (List.mem_of_mem_tail h)

theorem before_after_length (h : delimiter ∈ s) :
    (before delimiter s).length + (after delimiter s).length + 1 = s.length := by
  conv_rhs => rw [← before_append_after h]
  rw [List.length_append, List.length_cons]
  omega

theorem before_length_le (delimiter : UInt8) (s : List UInt8) :
    (before delimiter s).length ≤ s.length :=
  (List.takeWhile_sublist _).length_le

theorem after_length_le (delimiter : UInt8) (s : List UInt8) :
    (after delimiter s).length ≤ s.length :=
  ((List.tail_sublist _).trans (List.dropWhile_sublist _)).length_le

/-- A text without a character at which `strsplit` stops. -/
def Unbroken (s : List UInt8) : Prop := ∀ c ∈ s, ¬ StopsSplit c

instance (s : List UInt8) : Decidable (Unbroken s) := inferInstanceAs (Decidable (∀ c ∈ s, _))

theorem Unbroken.clean (h : Unbroken s) : 0 ∉ s := fun hmem ↦ h 0 hmem (.inl rfl)

theorem Unbroken.before (h : Unbroken s) (delimiter : UInt8) : Unbroken (before delimiter s) :=
  fun c hc ↦ h c (mem_of_mem_before hc)

theorem Unbroken.after (h : Unbroken s) (delimiter : UInt8) : Unbroken (after delimiter s) :=
  fun c hc ↦ h c (mem_of_mem_after hc)

theorem strsplitRest_eq (hs : Unbroken s) (rest dest2 : List UInt8) (j : Nat) :
    strsplitRest dest2 j (s ++ 0 :: rest) = storeAll dest2 j s := by
  induction s generalizing dest2 j with
  | nil => exact if_neg (not_not_intro (.inl rfl))
  | cons c s ih =>
      rw [List.cons_append, strsplitRest, if_pos (hs c List.mem_cons_self), storeAll]
      exact congrArg _ (funext fun dest' ↦ ih (fun c' h ↦ hs c' (List.mem_cons_of_mem _ h)) dest' _)

/-- The outer loop writes what stands before the delimiter and, if there is one, a `NUL`;
then the inner loop writes what stands after it. -/
theorem strsplitLoop_eq (hs : Unbroken s) (rest dest1 dest2 : List UInt8) (i : Nat) :
    strsplitLoop delimiter dest1 i dest2 (s ++ 0 :: rest) =
      (storeAll dest1 i (if delimiter ∈ s then before delimiter s ++ [0] else s)).bind fun d1 ↦
        (storeAll dest2 0 (after delimiter s)).bind fun d2 ↦ some (d1, d2) := by
  induction s generalizing dest1 i with
  | nil => exact if_neg (not_not_intro (.inl rfl))
  | cons c s ih =>
      have hs' : Unbroken s := fun c' h ↦ hs c' (List.mem_cons_of_mem _ h)
      rw [List.cons_append, strsplitLoop, if_pos (hs c List.mem_cons_self)]
      by_cases hc : c = delimiter
      · subst hc
        have hbefore : before c (c :: s) = [] := by simp [before]
        have hafter : after c (c :: s) = s := by simp [after]
        rw [if_pos rfl, if_pos List.mem_cons_self, hbefore, hafter, List.nil_append,
          strsplitRest_eq hs']
        simp only [storeAll, Option.bind_eq_bind, Option.bind_assoc, Option.bind_some]
      · have hbefore : before delimiter (c :: s) = c :: before delimiter s := by
          simp [before, hc]
        have hafter : after delimiter (c :: s) = after delimiter s := by simp [after, hc]
        have hmem : delimiter ∈ c :: s ↔ delimiter ∈ s := by simp [Ne.symm hc]
        have hwritten : (if delimiter ∈ c :: s then before delimiter (c :: s) ++ [0] else c :: s) =
            c :: if delimiter ∈ s then before delimiter s ++ [0] else s := by
          rw [hbefore]
          by_cases hin : delimiter ∈ s
          · rw [if_pos hin, if_pos (hmem.mpr hin), List.cons_append]
          · rw [if_neg hin, if_neg (hmem.not.mpr hin)]
        rw [if_neg hc, hwritten, hafter, storeAll, Option.bind_assoc]
        exact congrArg _ (funext fun d1 ↦ ih hs' d1 (i + 1))

/-- `strsplit` on arrays filled with zeros.  It writes no `NUL` after the second part, and
none after the first if there is no delimiter: the zeros do that. -/
theorem strsplit_eq (h : Spells src s) (hs : Unbroken s) (hlength : s.length < n) :
    strsplit src delimiter (filled n []) (filled n []) =
      some (filled n (before delimiter s), filled n (after delimiter s)) := by
  have hafter : storeAll (filled n []) 0 (after delimiter s) =
      some (filled n (after delimiter s)) := by
    have hle := after_length_le delimiter s
    have := storeAll_filled (s := []) (t := after delimiter s) (n := n)
      (by rw [List.length_nil]; omega)
    rwa [List.length_nil, List.nil_append] at this
  obtain ⟨rest, rfl⟩ := h.eq
  rw [strsplit, strsplitLoop_eq hs]
  have hle := before_length_le delimiter s
  have hbefore : storeAll (filled n []) 0
      (if delimiter ∈ s then before delimiter s ++ [0] else s) =
        some (filled n (before delimiter s)) := by
    split_ifs with hin
    · exact storeAll_filled_zero (s := []) (by rw [List.length_nil]; omega)
    · rw [before_of_notMem hin]
      exact storeAll_filled (s := []) (by rw [List.length_nil]; omega)
  rw [hbefore, Option.bind_some, hafter, Option.bind_some]

end Split

end DemosOS.Shell
