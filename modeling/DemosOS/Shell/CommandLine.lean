import DemosOS.Shell.Strings
import DemosOS.Kernel.Fork

/-!
# Command lines

How `handle_exec_from_bin` cuts a command line into the name of a program and its arguments.
`strsplit` takes off the name; a loop takes off the arguments, and copies what is left back
over what it came from.

`fields` says which arguments the loop finds; the arrays are shown to hold just these.
-/

namespace DemosOS.Shell

open Lib Buffer

def MAX_COMMAND_DIMENSION : Nat := 64

def MAX_EXEC_ARGUMENTS : Nat := 4

def SPACE : UInt8 := 0x20

/-! ## The loop -/

/-- The variables of the loop. -/
structure Tokenizer where
  argumentsRaw : List UInt8
  nArguments : Nat
  arguments : List (List UInt8)
deriving DecidableEq, Repr

namespace Tokenizer

/-- The state before the loop. -/
def start (argumentsRaw : List UInt8) : Tokenizer where
  argumentsRaw
  nArguments := 0
  arguments := List.replicate MAX_EXEC_ARGUMENTS (filled SYSCALL_EXEC_ARGUMENT_DIMENSION [])

/-- The body of the loop. -/
def next (s : Tokenizer) : Option Tokenizer := do
  let temp := filled SYSCALL_EXEC_ARGUMENT_DIMENSION []
  let argument ← s.arguments[s.nArguments]?
  let (argument, temp) ← strsplit s.argumentsRaw SPACE argument temp
  let argumentsRaw ← strcpy s.argumentsRaw temp
  some {
    argumentsRaw
    nArguments := s.nArguments + 1
    arguments := s.arguments.set s.nArguments argument }

/-- The loop.  The recursion is on `MAX_EXEC_ARGUMENTS - n_arguments`, so the test
`n_arguments < MAX_EXEC_ARGUMENTS` is that this is not zero. -/
def run : Nat → Tokenizer → Option Tokenizer
  | 0, s => do
      let _ ← strlen s.argumentsRaw
      some s
  | left + 1, s => do
      let length ← strlen s.argumentsRaw
      if 0 < length then
        let s ← s.next
        run left s
      else some s

end Tokenizer

/-- The loop of `handle_exec_from_bin`, on what follows the name of the program. -/
def splitArguments (argumentsRaw : List UInt8) : Option Tokenizer :=
  (Tokenizer.start argumentsRaw).run MAX_EXEC_ARGUMENTS

/-! ## The arguments of a text -/

/-- At most `left` arguments of the given text. -/
def fields : Nat → List UInt8 → List (List UInt8)
  | 0, _ => []
  | _ + 1, [] => []
  | left + 1, c :: text => before SPACE (c :: text) :: fields left (after SPACE (c :: text))

/-- Arguments joined by single spaces. -/
def join (arguments : List (List UInt8)) : List UInt8 := [SPACE].intercalate arguments

section Fields

variable {left : Nat} {text : List UInt8}

@[simp] theorem fields_nil (left : Nat) : fields left [] = [] := by cases left <;> rfl

theorem fields_of_ne_nil (left : Nat) (h : text ≠ []) :
    fields (left + 1) text = before SPACE text :: fields left (after SPACE text) := by
  cases text with
  | nil => exact absurd rfl h
  | cons c text => rfl

theorem fields_length_le (left : Nat) (text : List UInt8) : (fields left text).length ≤ left := by
  induction left generalizing text with
  | zero => exact Nat.le_refl 0
  | succ left ih =>
      cases text with
      | nil => exact Nat.zero_le _
      | cons c text => exact Nat.succ_le_succ (ih _)

theorem notMem_of_mem_fields {a : List UInt8} (h : a ∈ fields left text) : SPACE ∉ a := by
  induction left generalizing text with
  | zero => exact absurd h List.not_mem_nil
  | succ left ih =>
      cases text with
      | nil => exact absurd h List.not_mem_nil
      | cons c text =>
          rcases List.mem_cons.mp h with rfl | h
          · exact notMem_before SPACE _
          · exact ih h

theorem sublist_of_mem_fields {a : List UInt8} (h : a ∈ fields left text) : a.Sublist text := by
  induction left generalizing text with
  | zero => exact absurd h List.not_mem_nil
  | succ left ih =>
      cases text with
      | nil => exact absurd h List.not_mem_nil
      | cons c text =>
          rcases List.mem_cons.mp h with rfl | h
          · exact List.takeWhile_sublist _
          · exact (ih h).trans ((List.tail_sublist _).trans (List.dropWhile_sublist _))

/-- What joining the arguments gives back: the text, the text without a space at its end, or,
if no more arguments were allowed, the text up to some space. -/
theorem text_eq_join (hleft : left ≠ 0) (text : List UInt8) :
    text = join (fields left text) ∨
      text = join (fields left text) ++ [SPACE] ∨
      (fields left text).length = left ∧
        ∃ rest, text = join (fields left text) ++ SPACE :: rest := by
  induction left generalizing text with
  | zero => exact absurd rfl hleft
  | succ left ih =>
      by_cases htext : text = []
      · subst htext
        exact .inl rfl
      rw [fields_of_ne_nil left htext]
      by_cases hspace : SPACE ∈ text
      · have hsplit := before_append_after hspace
        by_cases hafter : after SPACE text = []
        · -- the space is the last character
          rw [hafter] at hsplit
          rw [hafter, fields_nil, join, List.intercalate_singleton]
          exact .inr (.inl hsplit.symm)
        cases left with
        | zero =>
            rw [fields, join, List.intercalate_singleton]
            exact .inr (.inr ⟨rfl, _, hsplit.symm⟩)
        | succ left =>
            have hne : fields (left + 1) (after SPACE text) ≠ [] := by
              rw [fields_of_ne_nil left hafter]
              exact List.cons_ne_nil _ _
            have hjoin : join (before SPACE text :: fields (left + 1) (after SPACE text)) =
                before SPACE text ++ SPACE :: join (fields (left + 1) (after SPACE text)) := by
              rw [join, List.intercalate_cons_of_ne_nil hne, List.append_assoc,
                List.singleton_append]
              rfl
            rw [hjoin]
            rcases ih (Nat.succ_ne_zero left) (after SPACE text) with h | h | ⟨hlength, rest, h⟩
            · refine .inl ?_
              rw [← h, hsplit]
            · refine .inr (.inl ?_)
              rw [List.append_assoc, List.cons_append, ← h, hsplit]
            · refine .inr (.inr ⟨congrArg Nat.succ hlength, rest, ?_⟩)
              rw [List.append_assoc, List.cons_append, ← h, hsplit]
      · rw [before_of_notMem hspace, after_of_notMem hspace, fields_nil, join,
          List.intercalate_singleton]
        exact .inl rfl

end Fields

/-! ## What the loop leaves behind -/

namespace Tokenizer

/-- The arguments found so far, and the text that is left. -/
structure Split (done : List (List UInt8)) (text : List UInt8) (left : Nat) (s : Tokenizer) :
    Prop where
  text_spells : Spells s.argumentsRaw text
  room : s.argumentsRaw.length = SYSCALL_EXEC_ARGUMENT_DIMENSION
  unbroken : Unbroken text
  count : s.nArguments = done.length
  rows : s.arguments = done.map (filled SYSCALL_EXEC_ARGUMENT_DIMENSION) ++
    List.replicate left (filled SYSCALL_EXEC_ARGUMENT_DIMENSION [])

variable {done : List (List UInt8)} {text : List UInt8} {left : Nat} {s : Tokenizer}

theorem Split.length_lt (h : Split done text left s) :
    text.length < SYSCALL_EXEC_ARGUMENT_DIMENSION := h.room ▸ h.text_spells.length_lt

/-- One argument is taken off the text. -/
theorem Split.next (h : Split done text (left + 1) s) :
    ∃ s', s.next = some s' ∧
      Split (done ++ [before SPACE text]) (after SPACE text) left s' := by
  have hrow : s.arguments[s.nArguments]? = some (filled SYSCALL_EXEC_ARGUMENT_DIMENSION []) := by
    have hcount : s.nArguments =
        (done.map (filled SYSCALL_EXEC_ARGUMENT_DIMENSION)).length := by
      rw [h.count, List.length_map]
    rw [h.rows, hcount, List.getElem?_append_right (Nat.le_refl _), Nat.sub_self,
      List.replicate_succ]
    rfl
  have hsplit : strsplit s.argumentsRaw SPACE _ _ = some (_, _) :=
    strsplit_eq h.text_spells h.unbroken h.length_lt
  have hlength : (after SPACE text).length < SYSCALL_EXEC_ARGUMENT_DIMENSION :=
    Nat.lt_of_le_of_lt (after_length_le SPACE text) h.length_lt
  have hclean := (h.unbroken.after SPACE).clean
  have hroom : 0 + (after SPACE text ++ [0]).length ≤ s.argumentsRaw.length := by
    rw [h.room, List.length_append, List.length_singleton]
    omega
  have hcopy : strcpy s.argumentsRaw
      (filled SYSCALL_EXEC_ARGUMENT_DIMENSION (after SPACE text)) =
        some (splice s.argumentsRaw 0 (after SPACE text ++ [0])) := by
    rw [strcpy_eq (spells_filled hlength hclean), storeAll_of_le hroom]
  refine ⟨⟨splice s.argumentsRaw 0 (after SPACE text ++ [0]), s.nArguments + 1,
    s.arguments.set s.nArguments
      (filled SYSCALL_EXEC_ARGUMENT_DIMENSION (before SPACE text))⟩, ?_, ?_⟩
  · simp only [Tokenizer.next, Option.bind_eq_bind, hrow, hsplit, hcopy, Option.bind_some]
  · exact {
      text_spells := spells_splice (i := 0) List.not_mem_nil hclean
      room := (splice_length hroom).trans h.room
      unbroken := h.unbroken.after SPACE
      count := by
        rw [List.length_append, List.length_singleton, ← h.count]
      rows := by
        rw [h.rows, h.count, List.map_append, List.map_singleton, List.append_assoc,
          List.replicate_succ, List.set_append_right _ _ (by rw [List.length_map]),
          List.length_map, Nat.sub_self]
        rfl }

/-- The loop ends, and has taken off the arguments of the text. -/
theorem Split.run (h : Split done text left s) :
    ∃ s' text', s.run left = some s' ∧
      Split (done ++ fields left text) text' (left - (fields left text).length) s' := by
  induction left generalizing done text s with
  | zero =>
      refine ⟨s, text, ?_, ?_⟩
      · rw [Tokenizer.run, strlen_eq h.text_spells]
        rfl
      · rwa [fields, List.append_nil]
  | succ left ih =>
      by_cases htext : text = []
      · subst htext
        refine ⟨s, [], ?_, ?_⟩
        · rw [Tokenizer.run, strlen_eq h.text_spells]
          rfl
        · rwa [fields_nil, List.append_nil]
      · obtain ⟨s', hnext, h'⟩ := h.next
        obtain ⟨s'', text', hrun, h''⟩ := ih h'
        refine ⟨s'', text', ?_, ?_⟩
        · have hpos : 0 < text.length := List.length_pos_iff.mpr htext
          rw [Tokenizer.run, strlen_eq h.text_spells, Option.bind_eq_bind, Option.bind_some,
            if_pos hpos, hnext]
          exact hrun
        · rw [fields_of_ne_nil left htext, List.length_cons, Nat.add_sub_add_right]
          rwa [List.append_assoc, List.singleton_append] at h''

end Tokenizer

section Arguments

variable {argumentsRaw text : List UInt8}

/-- The rows hold the arguments of the text, and the count is their number. -/
theorem splitArguments_eq (h : Spells argumentsRaw text) (hunbroken : Unbroken text)
    (hroom : argumentsRaw.length = SYSCALL_EXEC_ARGUMENT_DIMENSION) :
    ∃ s, splitArguments argumentsRaw = some s ∧
      s.nArguments = (fields MAX_EXEC_ARGUMENTS text).length ∧
      ∀ (i : Nat) (a : List UInt8), (fields MAX_EXEC_ARGUMENTS text)[i]? = some a →
        s.arguments[i]? = some (filled SYSCALL_EXEC_ARGUMENT_DIMENSION a) := by
  have hstart : (Tokenizer.start argumentsRaw).Split [] text MAX_EXEC_ARGUMENTS :=
    ⟨h, hroom, hunbroken, rfl, rfl⟩
  obtain ⟨s, text', hrun, hsplit⟩ := hstart.run
  refine ⟨s, hrun, hsplit.count, fun i a ha ↦ ?_⟩
  have hi : i < (fields MAX_EXEC_ARGUMENTS text).length := (List.getElem?_eq_some_iff.mp ha).1
  rw [hsplit.rows, List.nil_append, List.getElem?_append_left (by rwa [List.length_map]),
    List.getElem?_map, ha]
  rfl

/-- A command line is cut at its first space, and what follows is cut into at most four
arguments without spaces.  Joined by single spaces these give back the text they came from, up
to a space at its end, or, if there are four of them, what stands before some space of it. -/
theorem splitting_loses_nothing (src line : List UInt8) (hline : Unbroken line)
    (hlength : line.length < MAX_COMMAND_DIMENSION) (hsrc : Spells src line) :
    ∃ a b dest1 dest2,
      strsplit src SPACE (filled MAX_COMMAND_DIMENSION []) (filled MAX_COMMAND_DIMENSION []) =
        some (dest1, dest2) ∧
      Spells dest1 a ∧ Spells dest2 b ∧ SPACE ∉ a ∧
      (if SPACE ∈ line then a ++ [SPACE] ++ b = line else a = line ∧ b = []) ∧
      ∃ s arguments, splitArguments dest2 = some s ∧
        s.nArguments = arguments.length ∧ arguments.length ≤ MAX_EXEC_ARGUMENTS ∧
        (∀ (i : Nat) (argument : List UInt8), arguments[i]? = some argument →
          SPACE ∉ argument ∧ ∃ row, s.arguments[i]? = some row ∧ Spells row argument) ∧
        if arguments.length < MAX_EXEC_ARGUMENTS then
          b = join arguments ∨ b = join arguments ++ [SPACE]
        else b = join arguments ∨ ∃ rest, b = join arguments ++ SPACE :: rest := by
  have hbefore : (before SPACE line).length < MAX_COMMAND_DIMENSION :=
    Nat.lt_of_le_of_lt (before_length_le SPACE line) hlength
  have hafter : (after SPACE line).length < MAX_COMMAND_DIMENSION :=
    Nat.lt_of_le_of_lt (after_length_le SPACE line) hlength
  have hunbroken := hline.after SPACE
  have hdest2 : Spells (filled MAX_COMMAND_DIMENSION (after SPACE line)) (after SPACE line) :=
    spells_filled hafter hunbroken.clean
  obtain ⟨s, hs, hcount, hrows⟩ :=
    splitArguments_eq hdest2 hunbroken (filled_length (Nat.le_of_lt hafter))
  refine ⟨before SPACE line, after SPACE line, _, _, strsplit_eq hsrc hline hlength,
    spells_filled hbefore (hline.before SPACE).clean, hdest2, notMem_before SPACE line, ?_, s,
    fields MAX_EXEC_ARGUMENTS (after SPACE line), hs, hcount, fields_length_le _ _, ?_, ?_⟩
  · split_ifs with hspace
    · rw [List.append_assoc, List.singleton_append, before_append_after hspace]
    · exact ⟨before_of_notMem hspace, after_of_notMem hspace⟩
  · intro i argument hargument
    have hmem := List.mem_of_getElem? hargument
    have hle := (sublist_of_mem_fields hmem).length_le
    exact ⟨notMem_of_mem_fields hmem, _, hrows i argument hargument,
      spells_filled (Nat.lt_of_le_of_lt hle hafter)
        fun h ↦ hunbroken.clean ((sublist_of_mem_fields hmem).subset h)⟩
  · rcases text_eq_join (Nat.succ_ne_zero 3) (after SPACE line) with h | h | ⟨hfull, rest, h⟩
    · split_ifs
      · exact .inl h
      · exact .inl h
    · split_ifs
      · exact .inr h
      · exact .inr ⟨[], h⟩
    · rw [if_neg (hfull ▸ Nat.lt_irrefl _)]
      exact .inr ⟨rest, h⟩

/-- The line `ls a b`. -/
theorem splitting_loses_nothing_ls :
    ∃ a b dest1 dest2,
      strsplit [0x6C, 0x73, 0x20, 0x61, 0x20, 0x62, 0] SPACE (filled MAX_COMMAND_DIMENSION [])
        (filled MAX_COMMAND_DIMENSION []) = some (dest1, dest2) ∧
      Spells dest1 a ∧ Spells dest2 b ∧
      a ++ [SPACE] ++ b = [0x6C, 0x73, 0x20, 0x61, 0x20, 0x62] := by
  obtain ⟨a, b, dest1, dest2, hsplit, ha, hb, _, hline, _⟩ :=
    splitting_loses_nothing [0x6C, 0x73, 0x20, 0x61, 0x20, 0x62, 0]
      [0x6C, 0x73, 0x20, 0x61, 0x20, 0x62] (by decide +kernel) (by decide +kernel)
      ⟨by decide, [], rfl⟩
  rw [if_pos (by decide)] at hline
  exact ⟨a, b, dest1, dest2, hsplit, ha, hb, hline⟩

end Arguments

end DemosOS.Shell
