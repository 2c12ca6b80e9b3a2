import Mathlib.Data.List.DropRight
import Mathlib.Logic.Relation
import DemosOS.Shell.Strings

/-!
# Normalising a path

`normalize_path` of `shell.c` works inside one array with two cursors.  It reads from left to
right; a `.` before a slash or at the end is skipped together with the slash, a `..` there
takes the write cursor back, and every other character is copied.

What the function recognises depends on the text alone, so a text is a list of tokens, and
the function acts with them, one after the other, on the text kept so far.  The array
refines this: what is kept stands before the write cursor, what is left of the input at the
read cursor.
-/

namespace DemosOS.Shell

open Lib Buffer

@[match_pattern] abbrev DOT : UInt8 := 0x2E

@[match_pattern] abbrev SLASH : UInt8 := 0x2F

@[simp] theorem dot_ne_slash : DOT ≠ SLASH := by decide

@[simp] theorem dot_ne_zero : DOT ≠ 0 := by decide

@[simp] theorem zero_ne_slash : (0 : UInt8) ≠ SLASH := by decide

/-! ## The function -/

/-- The array and the two cursors. -/
structure Cursors where
  path : List UInt8
  read : Nat
  write : Int
deriving DecidableEq, Repr

def Cursors.start (path : List UInt8) : Cursors := ⟨path, 0, 0⟩

/-- A store at an `int` index. -/
def storeAt (path : List UInt8) (i : Int) (c : UInt8) : Option (List UInt8) :=
  if 0 ≤ i then store path i.toNat c else none

/-- The first test of the loop: `path[read]` is a `.`, with a slash or the end after it. -/
def atDot (path : List UInt8) (read : Nat) : Option Bool := do
  if (← path[read]?) ≠ DOT then return false
  let c ← path[read + 1]?
  return c = SLASH ∨ c = 0

/-- The second test of the loop: the same for `..`. -/
def atDotDot (path : List UInt8) (read : Nat) : Option Bool := do
  if (← path[read]?) ≠ DOT then return false
  if (← path[read + 1]?) ≠ DOT then return false
  let c ← path[read + 2]?
  return c = SLASH ∨ c = 0

/-- The loop that takes a positive write cursor back to a slash. -/
def dropName (path : List UInt8) : Nat → Option Nat
  | 0 => some 0
  | write + 1 => do
      if (← path[write]?) ≠ SLASH then dropName path write else some (write + 1)

/-- The write cursor after a `..`. -/
def stepBack (path : List UInt8) (write : Int) : Option Int :=
  let write := write - 1
  if 0 < write then (dropName path write.toNat).map Nat.cast else some write

/-- The body of the loop of `normalize_path`. -/
def normalizeStep (s : Cursors) : Option Cursors := do
  if ← atDot s.path s.read then
    let c ← s.path[s.read + 1]?
    some { s with read := s.read + if c = SLASH then 2 else 1 }
  else if ← atDotDot s.path s.read then
    let c ← s.path[s.read + 2]?
    let write ← stepBack s.path s.write
    some { s with read := s.read + (if c = SLASH then 3 else 2), write }
  else
    let c ← s.path[s.read]?
    let path ← storeAt s.path s.write c
    some { path, read := s.read + 1, write := s.write + 1 }

/-- The loop, for at most the given number of tests of its condition. -/
def normalizeLoop : Nat → Cursors → Option Cursors
  | 0, _ => none
  | fuel + 1, s => do
      if (← s.path[s.read]?) ≠ 0 then
        let s ← normalizeStep s
        normalizeLoop fuel s
      else some s

/-- `normalize_path`.  The read cursor advances in every step, so the length of the array
bounds the loop. -/
def normalizePath (path : List UInt8) : Option (List UInt8) := do
  let s ← normalizeLoop path.length (.start path)
  let path ← storeAt s.path s.write 0
  if s.write = 0 then
    let path ← storeAt path s.write SLASH
    storeAt path (s.write + 1) 0
  else some path

/-! ## Tokens -/

/-- What a part of the text makes the function do. -/
inductive Token
  | keep (c : UInt8)
  | skip
  | up
deriving DecidableEq, Repr

/-- The tokens of a text. -/
def tokens : List UInt8 → List Token
  | [] => []
  | [DOT] => [.skip]
  | DOT :: SLASH :: text => .skip :: tokens text
  | [DOT, DOT] => [.up]
  | DOT :: DOT :: SLASH :: text => .up :: tokens text
  | c :: text => .keep c :: tokens text

/-- How a text begins, and its first token. -/
theorem tokens_cases (text : List UInt8) (htext : text ≠ []) :
    (text = [DOT] ∧ tokens text = [.skip]) ∨
      (∃ text', text = DOT :: SLASH :: text' ∧ tokens text = .skip :: tokens text') ∨
      (text = [DOT, DOT] ∧ tokens text = [.up]) ∨
      (∃ text', text = DOT :: DOT :: SLASH :: text' ∧ tokens text = .up :: tokens text') ∨
      ∃ c text', text = c :: text' ∧ tokens text = .keep c :: tokens text' ∧
        (c = DOT → text' ≠ [] ∧ text'.head? ≠ some SLASH) ∧
        (c = DOT → text'.head? = some DOT → text'[1]? ≠ none ∧ text'[1]? ≠ some SLASH) := by
  fun_cases tokens text with
  | case1 => exact absurd rfl htext
  | case2 => exact .inl ⟨rfl, rfl⟩
  | case3 text' => exact .inr (.inl ⟨text', rfl, rfl⟩)
  | case4 => exact .inr (.inr (.inl ⟨rfl, rfl⟩))
  | case5 text' => exact .inr (.inr (.inr (.inl ⟨text', rfl, rfl⟩)))
  | case6 c text' h₁ h₂ h₃ h₄ =>
      refine .inr (.inr (.inr (.inr ⟨c, text', rfl, rfl, fun hc ↦ ⟨h₁ hc, fun hhead ↦ ?_⟩,
        fun hc hhead ↦ ?_⟩)))
      · obtain ⟨text, rfl⟩ := List.head?_eq_some_iff.mp hhead
        exact h₂ text hc rfl
      · obtain ⟨text, rfl⟩ := List.head?_eq_some_iff.mp hhead
        rw [List.getElem?_cons_succ, ← List.head?_eq_getElem?]
        refine ⟨fun hnone ↦ h₃ hc (congrArg _ (List.head?_eq_none_iff.mp hnone)), fun hsome ↦ ?_⟩
        obtain ⟨text, rfl⟩ := List.head?_eq_some_iff.mp hsome
        exact h₄ text hc rfl

/-- The kept text after a `..`: the last character goes, and what stands before it, back to a
slash. -/
def up (kept : List UInt8) : List UInt8 := kept.dropLast.rdropWhile (· ≠ SLASH)

/-- The kept text after a token.  A `..` needs something to take back. -/
def act (kept : List UInt8) : Token → Option (List UInt8)
  | .keep c => some (kept ++ [c])
  | .skip => some kept
  | .up => if kept = [] then none else some (up kept)

theorem up_isPrefix (kept : List UInt8) : up kept <+: kept :=
  ( List.rdropWhile_prefix _ _).trans ( List.dropLast_prefix kept)

section Steps

variable {path kept text rest : List UInt8} {s s' : Cursors} {n : Nat}

/-! ## What stands in the array -/

/-- The kept text stands before the write cursor, the rest of the input at the read cursor,
and the first has not overtaken the second. -/
structure Scan (kept text rest : List UInt8) (s : Cursors) : Prop where
  write_eq : s.write = kept.length
  take_eq : s.path.take kept.length = kept
  drop_eq : s.path.drop s.read = text ++ 0 :: rest
  le : kept.length ≤ s.read
  clean : 0 ∉ kept ++ text

namespace Scan

theorem start (htext : 0 ∉ text) (rest : List UInt8) :
    Scan [] text rest (.start (text ++ 0 :: rest)) :=
  ⟨rfl, rfl, rfl, Nat.le_refl 0, htext⟩

theorem clean_text (h : Scan kept text rest s) : 0 ∉ text :=
  fun hmem ↦ h.clean (List.mem_append_right kept hmem)

/-- The characters from the read cursor on. -/
theorem getElem? (h : Scan kept text rest s) (i : Nat) :
    s.path[s.read + i]? = (text ++ 0 :: rest)[i]? := by
  rw [← h.drop_eq, List.getElem?_drop]

theorem write_lt (h : Scan kept text rest s) : kept.length < s.path.length := by
  have hlength := congrArg List.length h.drop_eq
  rw [List.length_drop, List.length_append, List.length_cons] at hlength
  have := h.le
  omega

/-- The input that is left, after `n` more characters have been read. -/
theorem drop_add (h : Scan kept text rest s) {text' : List UInt8}
    (htext : (text ++ 0 :: rest).drop n = text' ++ 0 :: rest) :
    s.path.drop (s.read + n) = text' ++ 0 :: rest := by
  rw [← List.drop_drop, h.drop_eq, htext]

end Scan

theorem dropName_eq (hn : n ≤ path.length) (h : path.take n = kept) :
    dropName path n = some (kept.rdropWhile (· ≠ SLASH)).length := by
  induction n generalizing kept with
  | zero =>
      subst h
      rfl
  | succ n ih =>
      have hget : path[n]? = some path[n] := List.getElem?_eq_getElem hn
      have hkept : kept = path.take n ++ [path[n]] := by
        rw [← h, List.take_add_one, hget, Option.toList_some]
      rw [dropName, hget, Option.bind_eq_bind, Option.bind_some, hkept]
      by_cases hc : path[n] = SLASH
      · rw [if_neg (not_not_intro hc), List.rdropWhile_concat_neg _ _ _ (by simpa using hc),
          List.length_append, List.length_take, List.length_singleton,
          Nat.min_eq_left (Nat.le_of_succ_le hn)]
      · rw [if_pos hc, List.rdropWhile_concat_pos _ _ _ (by simpa using hc)]
        exact ih (Nat.le_of_succ_le hn) rfl

theorem stepBack_eq (h : Scan kept text rest s) (hkept : kept ≠ []) :
    stepBack s.path s.write = some ((up kept).length : Int) := by
  have hlength : (kept.length : Int) - 1 = ((kept.length - 1 : Nat) : Int) := by
    have := List.length_pos_iff.mpr hkept
    omega
  have htake : s.path.take (kept.length - 1) = kept.dropLast := by
    conv_rhs => rw [← h.take_eq]
    rw [List.dropLast_take h.write_lt]
  rw [stepBack, h.write_eq, hlength, Int.toNat_natCast, up]
  by_cases hpos : 0 < kept.length - 1
  · rw [if_pos (by exact_mod_cast hpos), dropName_eq (by have := h.write_lt; omega) htake]
    rfl
  · have hnil : kept.dropLast = [] :=
      List.eq_nil_of_length_eq_zero (by rw [List.length_dropLast]; omega)
    rw [if_neg (by exact_mod_cast hpos), hnil, List.rdropWhile_nil]
    exact congrArg _ (by simpa using Nat.eq_zero_of_not_pos hpos)

/-- A `..` when nothing is kept: the write cursor leaves the array. -/
theorem stepBack_nil (path : List UInt8) {write : Int} (h : write ≤ 0) :
    stepBack path write = some (write - 1) := if_neg (by omega)

namespace Scan

theorem getElem?_read (h : Scan kept text rest s) :
    s.path[s.read]? = (text ++ 0 :: rest)[0]? := h.getElem? 0

/-- A character is copied. -/
theorem keep {c : UInt8} (h : Scan kept (c :: text) rest s) :
    ∃ path, storeAt s.path s.write c = some path ∧
      Scan (kept ++ [c]) text rest ⟨path, s.read + 1, s.write + 1⟩ := by
  have hlt := h.write_lt
  refine ⟨s.path.set kept.length c, ?_, ?_⟩
  · rw [storeAt, h.write_eq, if_pos (Int.natCast_nonneg _), Int.toNat_natCast, store_of_lt hlt]
  · exact {
      write_eq := by
        rw [h.write_eq, List.length_append, List.length_singleton]
        rfl
      take_eq := by
        rw [List.length_append, List.length_singleton, List.take_add_one, List.take_set_of_le
          (Nat.le_refl _), h.take_eq, List.getElem?_set_self hlt, Option.toList_some]
      drop_eq := by
        rw [List.drop_set_of_lt (Nat.lt_succ_of_le h.le)]
        exact h.drop_add (n := 1) rfl
      le := by
        rw [List.length_append, List.length_singleton]
        exact Nat.succ_le_succ h.le
      clean := by
        rw [List.append_assoc]
        exact h.clean }

/-- Characters are skipped. -/
theorem skip (h : Scan kept text rest s) {text' : List UInt8} (hsuffix : text' <:+ text)
    (htext : (text ++ 0 :: rest).drop n = text' ++ 0 :: rest) :
    Scan kept text' rest { s with read := s.read + n } where
  write_eq := h.write_eq
  take_eq := h.take_eq
  drop_eq := h.drop_add htext
  le := Nat.le_trans h.le (Nat.le_add_right _ _)
  clean hmem := h.clean ((List.mem_append.mp hmem).elim (List.mem_append_left text)
    fun hmem ↦ List.mem_append_right kept (hsuffix.subset hmem))

/-- The write cursor goes back. -/
theorem back (h : Scan kept text rest s) {kept' : List UInt8} (hkept : kept' <+: kept) :
    Scan kept' text rest { s with write := kept'.length } where
  write_eq := rfl
  take_eq := by
    have htake := congrArg (List.take kept'.length) h.take_eq
    rw [List.take_take, Nat.min_eq_left hkept.length_le] at htake
    exact htake.trans (List.prefix_iff_eq_take.mp hkept).symm
  drop_eq := h.drop_eq
  le := Nat.le_trans hkept.length_le h.le
  clean hmem := h.clean ((List.mem_append.mp hmem).elim
    (fun hmem ↦ List.mem_append_left text (hkept.subset hmem)) (List.mem_append_right kept))

end Scan

/-! ## One round of the loop -/

/-- What a token leaves behind: the kept text after it or, if there was nothing to take back,
a write cursor outside the array. -/
def Acted (kept : List UInt8) (token : Token) (text rest : List UInt8) (s : Cursors) : Prop :=
  match act kept token with
  | some kept => Scan kept text rest s
  | none => s.write < 0

/-- A `..` moves the write cursor, whatever is kept. -/
theorem Scan.up (h : Scan kept text rest s) {text' : List UInt8} (hsuffix : text' <:+ text)
    (htext : (text ++ 0 :: rest).drop n = text' ++ 0 :: rest) :
    ∃ write, stepBack s.path s.write = some write ∧
      Acted kept .up text' rest ⟨s.path, s.read + n, write⟩ := by
  by_cases hkept : kept = []
  · have hzero : s.write ≤ 0 := by
      rw [h.write_eq, hkept]
      exact Int.le_refl 0
    refine ⟨_, stepBack_nil s.path hzero, ?_⟩
    rw [Acted, act, if_pos hkept]
    exact Int.sub_one_lt_of_le hzero
  · refine ⟨_, stepBack_eq h hkept, ?_⟩
    rw [Acted, act, if_neg hkept]
    exact (h.skip hsuffix htext).back (up_isPrefix kept)

/-- A character is copied unless it starts a `.` or `..` that is followed by a slash or the
end. -/
theorem Scan.round_keep {c : UInt8} (h : Scan kept (c :: text) rest s)
    (hdot : c = DOT → text ≠ [] ∧ text.head? ≠ some SLASH)
    (hdots : c = DOT → text.head? = some DOT → text[1]? ≠ none ∧ text[1]? ≠ some SLASH) :
    ∃ s', normalizeStep s = some s' ∧ Scan (kept ++ [c]) text rest s' := by
  have hread := h.getElem?
  have hread₀ := h.getElem?_read
  obtain ⟨path, hpath, hscan⟩ := h.keep
  refine ⟨_, ?_, hscan⟩
  have hatDot : atDot s.path s.read = some false := by
    by_cases hc : c = DOT
    · obtain ⟨d, text, rfl⟩ := List.exists_cons_of_ne_nil (hdot hc).1
      have hd : d ≠ SLASH := by simpa using (hdot hc).2
      have hd₀ : d ≠ 0 := fun hzero ↦ h.clean_text (hzero ▸ by simp)
      simp [atDot, hread, hread₀, hc, hd, hd₀]
    · simp [atDot, hread₀, hc]
  have hatDotDot : atDotDot s.path s.read = some false := by
    by_cases hc : c = DOT
    · obtain ⟨d, text, rfl⟩ := List.exists_cons_of_ne_nil (hdot hc).1
      by_cases hd : d = DOT
      · have hdots := hdots hc (by rw [hd]; rfl)
        obtain ⟨e, text, rfl⟩ := List.exists_cons_of_ne_nil (l := text)
          fun hnil ↦ hdots.1 (by rw [hnil]; rfl)
        have he : e ≠ SLASH := by simpa using hdots.2
        have he₀ : e ≠ 0 := fun hzero ↦ h.clean_text (hzero ▸ by simp)
        simp [atDotDot, hread, hread₀, hc, hd, he, he₀]
      · simp [atDotDot, hread, hread₀, hc, hd]
    · simp [atDotDot, hread₀, hc]
  simp [normalizeStep, hatDot, hatDotDot, hread₀, hpath]

/-- A round reads one token of the input, and does with the array what the token says. -/
theorem Scan.round (h : Scan kept text rest s) (htext : text ≠ []) :
    ∃ token text' s', tokens text = token :: tokens text' ∧ text'.length < text.length ∧
      normalizeStep s = some s' ∧ Acted kept token text' rest s' := by
  have hread := h.getElem?
  have hread₀ := h.getElem?_read
  rcases tokens_cases text htext with ⟨rfl, htokens⟩ | ⟨text', rfl, htokens⟩ |
    ⟨rfl, htokens⟩ | ⟨text', rfl, htokens⟩ | ⟨c, text', rfl, htokens, hdot, hdots⟩
  · refine ⟨.skip, [], _, htokens, Nat.one_pos, ?_, h.skip (n := 1) List.nil_suffix rfl⟩
    simp [normalizeStep, atDot, hread, hread₀]
  · have hsuffix : text' <:+ DOT :: SLASH :: text' := ⟨[DOT, SLASH], rfl⟩
    refine ⟨.skip, text', _, htokens, ?_, ?_, h.skip (n := 2) hsuffix rfl⟩
    · simp only [List.length_cons]
      omega
    · simp [normalizeStep, atDot, hread, hread₀]
  · have hnil : [] <:+ [DOT, DOT] := List.nil_suffix
    obtain ⟨write, hwrite, hacted⟩ := h.up (n := 2) hnil rfl
    refine ⟨.up, [], _, htokens, Nat.two_pos, ?_, hacted⟩
    simp [normalizeStep, atDot, atDotDot, hread, hread₀, hwrite]
  · have hsuffix : text' <:+ DOT :: DOT :: SLASH :: text' := ⟨[DOT, DOT, SLASH], rfl⟩
    obtain ⟨write, hwrite, hacted⟩ := h.up (n := 3) hsuffix rfl
    refine ⟨.up, text', _, htokens, ?_, ?_, hacted⟩
    · simp only [List.length_cons]
      omega
    · simp [normalizeStep, atDot, atDotDot, hread, hread₀, hwrite]
  · obtain ⟨s', hstep, hscan⟩ := h.round_keep hdot hdots
    exact ⟨.keep c, text', s', htokens, Nat.lt_succ_self _, hstep, hscan⟩

/-- What a round can do to the array and the write cursor. -/
theorem normalizeStep_cases (h : normalizeStep s = some s') :
    (s'.path = s.path ∧ (s'.write = s.write ∨ stepBack s.path s.write = some s'.write)) ∨
      ∃ c, storeAt s.path s.write c = some s'.path ∧ s'.write = s.write + 1 := by
  obtain ⟨dot, -, h⟩ := Option.bind_eq_some_iff.mp h
  split_ifs at h
  · obtain ⟨c, -, h⟩ := Option.bind_eq_some_iff.mp h
    rw [← Option.some.inj h]
    exact .inl ⟨rfl, .inl rfl⟩
  · obtain ⟨dots, -, h⟩ := Option.bind_eq_some_iff.mp h
    split_ifs at h
    · obtain ⟨c, -, h⟩ := Option.bind_eq_some_iff.mp h
      obtain ⟨write, hwrite, h⟩ := Option.bind_eq_some_iff.mp h
      rw [← Option.some.inj h]
      exact .inl ⟨rfl, .inr hwrite⟩
    · obtain ⟨c, -, h⟩ := Option.bind_eq_some_iff.mp h
      obtain ⟨path, hpath, h⟩ := Option.bind_eq_some_iff.mp h
      rw [← Option.some.inj h]
      exact .inr ⟨c, hpath, rfl⟩

theorem storeAt_length {i : Int} {c : UInt8} {path' : List UInt8}
    (h : storeAt path i c = some path') : path'.length = path.length := by
  unfold storeAt at h
  split_ifs at h
  exact store_length h

/-- The length of the array, and a write cursor outside it, stay: the next store fails. -/
theorem normalizeStep_keeps (h : normalizeStep s = some s') :
    s'.path.length = s.path.length ∧ (s.write < 0 → s'.write < 0) := by
  rcases normalizeStep_cases h with ⟨hpath, hwrite | hwrite⟩ | ⟨c, hpath, -⟩
  · exact ⟨congrArg _ hpath, fun hneg ↦ hwrite ▸ hneg⟩
  · refine ⟨congrArg _ hpath, fun hneg ↦ ?_⟩
    rw [stepBack_nil s.path (Int.le_of_lt hneg), Option.some.injEq] at hwrite
    omega
  · refine ⟨storeAt_length hpath, fun hneg ↦ ?_⟩
    rw [storeAt, if_neg (by omega)] at hpath
    exact absurd hpath (Option.some_ne_none _).symm

theorem normalizeLoop_keeps {fuel : Nat} (h : normalizeLoop fuel s = some s') :
    s'.path.length = s.path.length ∧ (s.write < 0 → s'.write < 0) := by
  induction fuel generalizing s with
  | zero => exact absurd h (by simp [normalizeLoop])
  | succ fuel ih =>
      obtain ⟨c, -, h⟩ := Option.bind_eq_some_iff.mp h
      split_ifs at h with hc
      · obtain ⟨s₁, hstep, h⟩ := Option.bind_eq_some_iff.mp h
        obtain ⟨hlength, hneg⟩ := normalizeStep_keeps hstep
        exact ⟨(ih h).1.trans hlength, fun hwrite ↦ (ih h).2 (hneg hwrite)⟩
      · exact Option.some.inj h ▸ ⟨rfl, id⟩

/-! ## The whole loop -/

/-- What is kept of a text, if the write cursor stays inside the array. -/
def keptText (text : List UInt8) : Option (List UInt8) := (tokens text).foldlM act []

/-- The loop reads all tokens and acts with them one after the other. -/
theorem Scan.loop {fuel : Nat} (h : Scan kept text rest s) (hfuel : text.length < fuel) :
    match (tokens text).foldlM act kept with
    | some kept => ∃ s', normalizeLoop fuel s = some s' ∧ Scan kept [] rest s'
    | none => ∀ s', normalizeLoop fuel s = some s' → s'.write < 0 := by
  induction fuel generalizing kept text s with
  | zero => omega
  | succ fuel ih =>
      by_cases htext : text = []
      · subst htext
        refine ⟨s, ?_, h⟩
        rw [normalizeLoop, h.getElem?_read]
        rfl
      · obtain ⟨token, text', s', htokens, hlength, hstep, hacted⟩ := h.round htext
        obtain ⟨c, hread, hc⟩ : ∃ c, s.path[s.read]? = some c ∧ c ≠ 0 := by
          obtain ⟨c, text, rfl⟩ := List.exists_cons_of_ne_nil htext
          exact ⟨c, h.getElem?_read, fun hzero ↦ h.clean_text (hzero ▸ List.mem_cons_self)⟩
        have hloop : normalizeLoop (fuel + 1) s = normalizeLoop fuel s' := by
          rw [normalizeLoop, hread, Option.bind_eq_bind, Option.bind_some, if_pos hc, hstep]
          rfl
        rw [htokens, List.foldlM_cons, hloop]
        unfold Acted at hacted
        cases hact : act kept token with
        | none =>
            rw [hact] at hacted
            exact fun s'' h ↦ (normalizeLoop_keeps h).2 hacted
        | some kept' =>
            rw [hact] at hacted
            exact ih hacted (by omega)

/-! ## The result -/

/-- The text that is left in the array: what is kept, or a single slash. -/
def normalized (text : List UInt8) : Option (List UInt8) :=
  (keptText text).map fun kept ↦ if kept = [] then [SLASH] else kept

theorem spells_set (hlt : kept.length < path.length) (htake : path.take kept.length = kept)
    (hclean : 0 ∉ kept) : Spells (path.set kept.length 0) kept where
  clean := hclean
  eq := ⟨path.drop (kept.length + 1), by
    rw [List.set_eq_take_append_cons_drop, if_pos hlt, htake]⟩

/-- The stores after the loop. -/
theorem Scan.terminate (h : Scan kept [] rest s) (hlength : 2 ≤ s.path.length) :
    ∃ path', (do
        let path ← storeAt s.path s.write 0
        if s.write = 0 then
          let path ← storeAt path s.write SLASH
          storeAt path (s.write + 1) 0
        else some path) = some path' ∧
      Spells path' (if kept = [] then [SLASH] else kept) ∧ path'.length = s.path.length := by
  have hlt := h.write_lt
  have hclean : 0 ∉ kept := fun hmem ↦ h.clean (List.mem_append_left [] hmem)
  have hend : storeAt s.path s.write 0 = some (s.path.set kept.length 0) := by
    rw [storeAt, h.write_eq, if_pos (Int.natCast_nonneg _), Int.toNat_natCast, store_of_lt hlt]
  rw [hend, Option.bind_eq_bind, Option.bind_some]
  by_cases hkept : kept = []
  · subst hkept
    obtain ⟨a, b, path, hpath⟩ : ∃ a b path, s.path = a :: b :: path := by
      match s.path, hlength with
      | a :: b :: path, _ => exact ⟨a, b, path, rfl⟩
    refine ⟨SLASH :: 0 :: path, ?_, ⟨by decide, path, rfl⟩, by rw [hpath]; rfl⟩
    rw [h.write_eq, hpath]
    rfl
  · have hwrite : s.write ≠ 0 := by
      rw [h.write_eq]
      exact_mod_cast fun hzero ↦ hkept (List.eq_nil_of_length_eq_zero hzero)
    rw [if_neg hwrite, if_neg hkept]
    exact ⟨_, rfl, spells_set hlt h.take_eq hclean, List.length_set⟩

/-- `normalize_path` leaves the normalised text in the array, or a store fails because the
write cursor is outside it. -/
theorem normalizePath_eq (htext : text ≠ []) (hclean : 0 ∉ text) (rest : List UInt8) :
    match normalized text with
    | some result => ∃ path', normalizePath (text ++ 0 :: rest) = some path' ∧
        Spells path' result ∧ path'.length = (text ++ 0 :: rest).length
    | none => normalizePath (text ++ 0 :: rest) = none := by
  have hlength : (text ++ 0 :: rest).length = text.length + 1 + rest.length := by
    rw [List.length_append, List.length_cons]
    omega
  have hpos := List.length_pos_iff.mpr htext
  have hfuel : text.length < (text ++ 0 :: rest).length := by omega
  have hloop := (Scan.start hclean rest).loop hfuel
  rw [normalized]
  change match keptText text with | some kept => _ | none => _ at hloop
  cases hkept : keptText text with
  | some kept =>
      rw [hkept] at hloop
      obtain ⟨s', hs', hscan⟩ := hloop
      have hlength' : s'.path.length = (text ++ 0 :: rest).length := (normalizeLoop_keeps hs').1
      obtain ⟨path', hpath', hspells, hlast⟩ := hscan.terminate (by rw [hlength']; omega)
      refine ⟨path', ?_, hspells, hlast.trans hlength'⟩
      rw [normalizePath, hs']
      exact hpath'
  | none =>
      rw [hkept] at hloop
      cases hs' : normalizeLoop (text ++ 0 :: rest).length (.start (text ++ 0 :: rest)) with
      | none =>
          rw [Option.map_none, normalizePath, hs']
          rfl
      | some s' =>
          have hstore : storeAt s'.path s'.write 0 = none :=
            if_neg (Int.not_le.mpr (hloop s' hs'))
          rw [Option.map_none, normalizePath, hs', Option.bind_eq_bind, Option.bind_some, hstore]
          rfl

end Steps

/-! ## How high a text climbs -/

/-- What decides whether a `..` has something to take back: the number of slashes kept,
whether something is kept after the last of them, and whether the kept text starts with one. -/
structure Height where
  slashes : Nat
  name : Bool
  rooted : Bool
deriving DecidableEq, Repr

namespace Height

/-- Nothing is kept. -/
def ground : Height := ⟨0, false, true⟩

/-- The height after a token. -/
def after (h : Height) : Token → Option Height
  | .keep c =>
      if c = SLASH then some ⟨h.slashes + 1, false, h.rooted⟩
      else some ⟨h.slashes, true, h.rooted && decide (0 < h.slashes)⟩
  | .skip => some h
  | .up =>
      if h.name then
        if h.slashes = 0 then some ground else some ⟨h.slashes, false, h.rooted⟩
      else if h.slashes = 0 then none
      else if h.slashes = 1 then some ground
      else some ⟨h.slashes - 1, false, h.rooted⟩

/-- The height of a kept text. -/
def ofText (kept : List UInt8) : Height where
  slashes := kept.count SLASH
  name := kept.getLast?.any (· ≠ SLASH)
  rooted := kept.head?.all (· = SLASH)

end Height

/-- The height of a text, if every `..` of it has something to take back. -/
def height (text : List UInt8) : Option Height := (tokens text).foldlM Height.after .ground

/-- Every `..` has something to take back, and what is kept at the end starts with a slash
if it is anything. -/
def StaysRooted (text : List UInt8) : Prop := (height text).any Height.rooted

instance (text : List UInt8) : Decidable (StaysRooted text) :=
  inferInstanceAs (Decidable (_ = true))

section Heights

variable {text kept : List UInt8}

theorem count_rdropWhile (kept : List UInt8) :
    (kept.rdropWhile (· ≠ SLASH)).count SLASH = kept.count SLASH := by
  have hnone : (kept.rtakeWhile (· ≠ SLASH)).count SLASH = 0 :=
    List.count_eq_zero.mpr fun hmem ↦ by simpa using List.mem_rtakeWhile_imp hmem
  conv_rhs => rw [← List.rdropWhile_append_rtakeWhile (p := (· ≠ SLASH)) (l := kept)]
  rw [List.count_append, hnone, Nat.add_zero]

/-- The text before the last slash, and the slash. -/
theorem ofText_rdropWhile (kept : List UInt8) :
    Height.ofText (kept.rdropWhile (· ≠ SLASH)) =
      if kept.count SLASH = 0 then .ground
      else ⟨kept.count SLASH, false, kept.head?.all (· = SLASH)⟩ := by
  have hcount := count_rdropWhile kept
  by_cases hnil : kept.rdropWhile (· ≠ SLASH) = []
  · rw [hnil, List.count_nil] at hcount
    rw [hnil, if_pos hcount.symm]
    rfl
  · have hlast : (kept.rdropWhile (· ≠ SLASH)).getLast? = some SLASH := by
      rw [List.getLast?_eq_some_getLast hnil]
      have hnot := List.rdropWhile_last_not _ kept hnil
      exact congrArg some (by simpa using hnot)
    have hmem : SLASH ∈ kept.rdropWhile (· ≠ SLASH) := List.mem_of_getLast? hlast
    have hpos : kept.count SLASH ≠ 0 := by
      rw [← hcount]
      exact Nat.ne_of_gt (List.count_pos_iff.mpr hmem)
    have hhead : (kept.rdropWhile (· ≠ SLASH)).head? = kept.head? := by
      obtain ⟨t, ht⟩ := List.rdropWhile_prefix (· ≠ SLASH) kept
      conv_rhs => rw [← ht, List.head?_append_of_ne_nil _ hnil]
    rw [if_neg hpos, Height.ofText, hcount, hlast, hhead]
    rfl

/-- Heights follow the kept text. -/
theorem ofText_act (kept : List UInt8) (token : Token) :
    (act kept token).map Height.ofText = (Height.ofText kept).after token := by
  cases token with
  | keep c =>
      have hlast : (kept ++ [c]).getLast? = some c := List.getLast?_concat
      by_cases hc : c = SLASH
      · subst hc
        have hrooted : (kept ++ [SLASH]).head?.all (· = SLASH) = kept.head?.all (· = SLASH) := by
          cases kept <;> simp
        simp only [act, Option.map_some, Height.after, Height.ofText, hlast, hrooted,
          List.count_append, List.count_singleton_self]
        rfl
      · -- a text that starts with a slash has one
        have hrooted : (kept ++ [c]).head?.all (· = SLASH) =
            (kept.head?.all (· = SLASH) && decide (0 < kept.count SLASH)) := by
          cases kept with
          | nil => simpa using hc
          | cons d kept =>
              by_cases hd : d = SLASH
              · simp [hd]
              · simp [hd]
        simp only [act, Option.map_some, Height.after, Height.ofText, hlast, hrooted,
          List.count_append, List.count_singleton, if_neg hc, beq_false_of_ne hc]
        simp [hc]
  | skip => rfl
  | up =>
      by_cases hkept : kept = []
      · subst hkept
        rfl
      obtain ⟨init, c, rfl⟩ := (List.eq_nil_or_concat' kept).resolve_left hkept
      rw [act, if_neg hkept, Option.map_some, up, List.dropLast_concat, ofText_rdropWhile]
      have hlast : (init ++ [c]).getLast? = some c := List.getLast?_concat
      have hhead (hcount : init.count SLASH ≠ 0) : (init ++ [c]).head? = init.head? := by
        refine List.head?_append_of_ne_nil _ ?_
        rintro rfl
        exact hcount rfl
      by_cases hcount : init.count SLASH = 0
      · by_cases hc : c = SLASH
        · simp [Height.after, Height.ofText, hcount, hc]
        · simp [Height.after, Height.ofText, hcount, hc]
      · by_cases hc : c = SLASH
        · subst hc
          simp [Height.after, Height.ofText, hcount, hhead hcount]
        · simp [Height.after, Height.ofText, hcount, hc, hhead hcount]

/-- The height of a text is that of what is kept of it. -/
theorem height_eq (text : List UInt8) : height text = (keptText text).map Height.ofText := by
  have hfold (kept : List UInt8) (l : List Token) :
      l.foldlM Height.after (Height.ofText kept) = (l.foldlM act kept).map Height.ofText := by
    induction l generalizing kept with
    | nil => rfl
    | cons token l ih =>
        rw [List.foldlM_cons, List.foldlM_cons, ← ofText_act]
        cases act kept token with
        | none => rfl
        | some kept' => exact ih kept'
  exact hfold [] (tokens text)

end Heights

/-! ## Staying inside the string -/

/-- One round of the loop on the array. -/
def Cursors.Next (s s' : Cursors) : Prop :=
  ∃ c, s.path[s.read]? = some c ∧ c ≠ 0 ∧ normalizeStep s = some s'

/-- `normalize_path` ends, on an array that is just the string and its `NUL`, with a text that
starts with a slash, and before and after every round the write cursor is between zero and
the read cursor. -/
structure NormalizesInside (text : List UInt8) : Prop where
  result : ∃ path', normalizePath (text ++ [0]) = some path' ∧ path'.head? = some SLASH
  cursors : ∀ s, Relation.ReflTransGen Cursors.Next (.start (text ++ [0])) s →
    0 ≤ s.write ∧ s.write ≤ s.read

section Inside

variable {text : List UInt8} {s : Cursors}

/-- In every state of the loop the array represents a text kept so far, and the tokens that
are left lead from it to the text that is kept in the end. -/
theorem scan_of_run (hclean : 0 ∉ text) {rest : List UInt8} (hkept : (keptText text).isSome)
    (hrun : Relation.ReflTransGen Cursors.Next (.start (text ++ 0 :: rest)) s) :
    ∃ kept text', Scan kept text' rest s ∧ (tokens text').foldlM act kept = keptText text := by
  induction hrun with
  | refl => exact ⟨[], text, Scan.start hclean rest, rfl⟩
  | @tail s s' _ hnext ih =>
      obtain ⟨kept, text', hscan, hfold⟩ := ih
      obtain ⟨c, hc, hc₀, hstep⟩ := hnext
      have htext' : text' ≠ [] := by
        rintro rfl
        rw [hscan.getElem?_read] at hc
        exact hc₀ (Option.some.inj hc).symm
      obtain ⟨token, text'', s'', htokens, -, hstep', hacted⟩ := hscan.round htext'
      obtain rfl := Option.some.inj (hstep.symm.trans hstep')
      rw [htokens, List.foldlM_cons] at hfold
      unfold Acted at hacted
      cases hact : act kept token with
      | none =>
          rw [hact] at hfold
          rw [← hfold] at hkept
          exact absurd hkept Bool.false_ne_true
      | some kept' =>
          rw [hact] at hfold hacted
          exact ⟨kept', text'', hacted, hfold⟩

/-- `normalize_path` stays inside a path, and its result starts with a slash, exactly if no
`..` finds nothing to take back and what is kept in the end starts with a slash. -/
theorem normalizesInside_iff (text : List UInt8) (hroot : text.head? = some SLASH)
    (hclean : 0 ∉ text) : NormalizesInside text ↔ StaysRooted text := by
  have htext : text ≠ [] := by
    rintro rfl
    exact absurd hroot (Option.some_ne_none _).symm
  have hpath := normalizePath_eq htext hclean []
  unfold StaysRooted
  rw [height_eq]
  cases hkept : keptText text with
  | none =>
      rw [normalized, hkept] at hpath
      refine ⟨fun h ↦ ?_, fun h ↦ absurd h Bool.false_ne_true⟩
      obtain ⟨path', hpath', -⟩ := h.result
      exact absurd (hpath.symm.trans hpath') (Option.some_ne_none _).symm
  | some kept =>
      rw [normalized, hkept, Option.map_some] at hpath
      obtain ⟨path', hpath', hspells, -⟩ := hpath
      have hhead : path'.head? = some SLASH ↔ (Height.ofText kept).rooted = true := by
        obtain ⟨rest, rfl⟩ := hspells.eq
        cases kept with
        | nil => exact iff_of_true rfl rfl
        | cons c kept => simp [Height.ofText]
      change _ ↔ (Height.ofText kept).rooted = true
      rw [← hhead]
      refine ⟨fun h ↦ ?_, fun h ↦ ⟨⟨path', hpath', h⟩, fun s hrun ↦ ?_⟩⟩
      · obtain ⟨path'', hpath'', h⟩ := h.result
        rwa [← Option.some.inj (hpath'.symm.trans hpath'')] at h
      · obtain ⟨kept', text', hscan, -⟩ :=
          scan_of_run hclean (by rw [hkept]; rfl) hrun
        rw [hscan.write_eq]
        exact ⟨Int.natCast_nonneg _, Int.ofNat_le.mpr hscan.le⟩

/-- The path `/a/../b`. -/
theorem normalizesInside_iff_ab :
    NormalizesInside [SLASH, 0x61, SLASH, DOT, DOT, SLASH, 0x62] :=
  (normalizesInside_iff _ rfl (by decide)).mpr (by decide)

/-- The path `/../..` climbs above the root. -/
theorem normalizesInside_false : ¬ ∀ text : List UInt8, text.head? = some SLASH → 0 ∉ text →
    NormalizesInside text := by
  intro h
  obtain ⟨path', hpath', -⟩ := (h [SLASH, DOT, DOT, SLASH, DOT, DOT] rfl (by decide)).result
  have hnone : normalizePath ([SLASH, DOT, DOT, SLASH, DOT, DOT] ++ [0]) = none := by decide
  exact absurd (hnone.symm.trans hpath') (Option.some_ne_none _).symm

end Inside

end DemosOS.Shell
