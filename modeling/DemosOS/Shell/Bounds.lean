import DemosOS.Console.Lines
import DemosOS.Shell.Handlers

/-!
# Which paths fit

Each handler of the shell puts together strings that are as long as its arrays, and checks
their lengths in its own way or not at all.  `Builds` says that a program puts a string into
an array if it fits, and writes behind the array otherwise; its rules follow the calls of
`strcat`.  From these the exact conditions under which a handler stays inside its arrays are
read off, for every command line and every working directory that earlier commands can leave.
-/

namespace DemosOS.Shell

open Lib Buffer

section Builds

variable {x : Option (List UInt8)} {b dest src d s t a : List UInt8}

/-! ## Programs that build a string -/

/-- The program leaves the string in an array of the shell, if it fits with its `NUL`. -/
def Builds (x : Option (List UInt8)) (s : List UInt8) : Prop :=
  if s.length < MAX_COMMAND_DIMENSION then
    ∃ b, x = some b ∧ Spells b s ∧ b.length = MAX_COMMAND_DIMENSION
  else x = none

/-- The first character, which is the `NUL` of an empty string. -/
theorem head_eq (h : Spells b s) : b[0]? = some (s.head?.getD 0) := by
  obtain ⟨rest, rfl⟩ := h.eq
  cases s <;> rfl

theorem head_eq_zero (h : Spells b s) : s.head?.getD 0 = 0 ↔ s = [] := by
  cases s with
  | nil => exact iff_of_true rfl rfl
  | cons c s =>
      refine iff_of_false (fun hzero ↦ h.clean ?_) (List.cons_ne_nil c s)
      exact (show c = 0 from hzero) ▸ List.mem_cons_self

theorem head_eq_slash (s : List UInt8) : s.head?.getD 0 = SLASH ↔ s.head? = some SLASH := by
  cases s <;> simp

theorem readString_eq (h : Spells b s) : readString b = some s := by
  rw [readString, strlen_eq h, Option.bind_eq_bind, Option.bind_some, h.take]

theorem spells_cleared : Spells cleared [] := spells_filled (by decide) List.not_mem_nil

theorem cleared_length : cleared.length = MAX_COMMAND_DIMENSION := rfl

theorem spells_slash : Spells [SLASH, 0] [SLASH] := ⟨by decide, [], rfl⟩

namespace Builds

theorem of_spells (h : Spells b s) (hlength : b.length = MAX_COMMAND_DIMENSION) :
    Builds (some b) s := by
  rw [Builds, if_pos (hlength ▸ h.length_lt)]
  exact ⟨b, rfl, h, hlength⟩

/-- `strcat` builds the two strings, one after the other. -/
theorem strcat (hdest : Spells dest d) (hlength : dest.length = MAX_COMMAND_DIMENSION)
    (hsrc : Spells src s) : Builds (strcat dest src) (d ++ s) := by
  unfold Builds
  split_ifs with h
  · rw [List.length_append] at h
    obtain ⟨dest', heq, hspells, hlength'⟩ := strcat_of_lt hdest hsrc (hlength ▸ h)
    exact ⟨dest', heq, hspells, hlength'.trans hlength⟩
  · rw [List.length_append] at h
    exact strcat_of_le hdest hsrc (by omega)

/-- A program that goes on from a string it has built to a longer one. -/
theorem bind (h : Builds x s) (hle : s.length ≤ t.length) {f : List UInt8 → Option (List UInt8)}
    (hf : ∀ b, Spells b s → b.length = MAX_COMMAND_DIMENSION → Builds (f b) t) :
    Builds (x.bind f) t := by
  unfold Builds at h
  split_ifs at h with hs
  · obtain ⟨b, rfl, hspells, hlength⟩ := h
    exact hf b hspells hlength
  · rw [h, Builds, if_neg (by omega), Option.bind_none]

end Builds

/-- A path fits if its array can hold it and no `..` of it climbs above the root. -/
def PathFits (s : List UInt8) : Prop :=
  s.length < MAX_COMMAND_DIMENSION ∧ (height s).isSome

instance (s : List UInt8) : Decidable (PathFits s) := inferInstanceAs (Decidable (_ ∧ _))

/-- What is left in the array of a path is a path. -/
theorem normalizePath_of_fits (h : Spells b s) (hne : s ≠ []) (hfits : (height s).isSome) :
    ∃ b' result, normalizePath b = some b' ∧ Spells b' result ∧ result ≠ [] ∧
      b'.length = b.length := by
  obtain ⟨rest, rfl⟩ := h.eq
  have hpath := normalizePath_eq hne h.clean rest
  rw [height_eq, Option.isSome_map] at hfits
  obtain ⟨kept, hkept⟩ := Option.isSome_iff_exists.mp hfits
  rw [normalized, hkept, Option.map_some] at hpath
  obtain ⟨b', hb', hspells, hlength⟩ := hpath
  refine ⟨b', _, hb', hspells, ?_, hlength⟩
  split_ifs with hnil
  · exact List.cons_ne_nil _ _
  · exact hnil

theorem normalizePath_of_not_fits (h : Spells b s) (hne : s ≠ []) (hfits : ¬ (height s).isSome) :
    normalizePath b = none := by
  obtain ⟨rest, rfl⟩ := h.eq
  have hpath := normalizePath_eq hne h.clean rest
  rw [height_eq, Option.isSome_map, Option.not_isSome_iff_eq_none] at hfits
  rwa [normalized, hfits] at hpath

/-- A program that builds a path and normalises it stays inside the array if the path fits. -/
theorem Builds.normalize_isSome {β : Type} {f : List UInt8 → Option β} (h : Builds x s)
    (hne : s ≠ [])
    (hf : ∀ b result, Spells b result → result ≠ [] → b.length = MAX_COMMAND_DIMENSION →
      (f b).isSome) :
    (x.bind fun b ↦ (normalizePath b).bind f).isSome ↔ PathFits s := by
  unfold Builds at h
  split_ifs at h with hs
  · obtain ⟨b, rfl, hspells, hlength⟩ := h
    rw [Option.bind_some, PathFits, and_iff_right hs]
    by_cases hfits : (height s).isSome
    · obtain ⟨b', result, hb', hspells', hne', hlength'⟩ := normalizePath_of_fits hspells hne hfits
      rw [hb', Option.bind_some]
      exact iff_of_true (hf b' result hspells' hne' (hlength'.trans hlength)) hfits
    · rw [normalizePath_of_not_fits hspells hne hfits, Option.bind_none]
      exact iff_of_false Bool.false_ne_true hfits
  · rw [h, Option.bind_none]
    exact iff_of_false Bool.false_ne_true fun hfits ↦ hs hfits.1

end Builds

/-! ## The paths of the handlers -/

/-- The argument of a command line: what stands after its first space. -/
def argument (buffer : List UInt8) : List UInt8 := after SPACE (text buffer)

/-- A directory of more than `n` characters, with a slash at its end. -/
def withSlash (n : Nat) (d : List UInt8) : List UInt8 :=
  if n < d.length ∧ d.getLast? ≠ some SLASH then d ++ [SLASH] else d

/-- The path of an argument: itself if it is absolute, and otherwise from the directory. -/
def target (n : Nat) (d a : List UInt8) : List UInt8 :=
  if a.head? = some SLASH then a else withSlash n d ++ a

section Rules

variable {temp wd dest d a s : List UInt8} {n : Nat}

theorem length_le_withSlash (n : Nat) (d : List UInt8) : d.length ≤ (withSlash n d).length := by
  unfold withSlash
  split_ifs
  · rw [List.length_append]
    omega
  · exact Nat.le_refl _

theorem loadAt_last (h : Spells temp d) (hne : d ≠ []) :
    loadAt temp ((d.length : Int) - 1) = some (d.getLast hne) := by
  have hpos := List.length_pos_iff.mpr hne
  have hindex : (d.length : Int) - 1 = ((d.length - 1 : Nat) : Int) := by omega
  rw [hindex, loadAt, if_pos (Int.natCast_nonneg _), Int.toNat_natCast,
    h.getElem? (by omega), List.getElem?_eq_getElem (by omega), List.getLast_eq_getElem]

/-- A slash is added by the test on the last character. -/
theorem addSlash_test (h : Spells temp d) (hlength : temp.length = MAX_COMMAND_DIMENSION)
    {add : Option (List UInt8)} (hadd : add = strcat temp [SLASH, 0]) :
    Builds (if n < d.length then
        (loadAt temp ((d.length : Int) - 1)).bind fun c ↦ if c ≠ SLASH then add else some temp
      else some temp) (withSlash n d) := by
  subst hadd
  by_cases hn : n < d.length
  · have hne : d ≠ [] := List.ne_nil_of_length_pos (Nat.zero_lt_of_lt hn)
    have hgetLast := List.getLast?_eq_some_getLast hne
    rw [if_pos hn, loadAt_last h hne, Option.bind_some, withSlash]
    by_cases hlast : d.getLast hne = SLASH
    · rw [if_neg (not_not_intro hlast), if_neg fun hand ↦ hand.2 (hlast ▸ hgetLast)]
      exact .of_spells h hlength
    · have hne' : d.getLast? ≠ some SLASH := fun heq ↦
        hlast (Option.some.inj (hgetLast.symm.trans heq))
      rw [if_pos hlast, if_pos ⟨hn, hne'⟩]
      exact .strcat h hlength spells_slash
  · rw [if_neg hn, withSlash, if_neg fun hand ↦ hn hand.1]
    exact .of_spells h hlength

theorem addSlash_builds (h : Spells temp d) (hlength : temp.length = MAX_COMMAND_DIMENSION) :
    Builds (addSlash temp) (withSlash 2 d) := by
  have hadd : ((store temp d.length SLASH).bind fun temp ↦ store temp (d.length + 1) 0) =
      strcat temp [SLASH, 0] := by
    rw [strcat_eq h spells_slash]
    simp only [List.singleton_append, storeAll]
    exact congrArg _ (funext fun b ↦ (Option.bind_fun_some _).symm)
  rw [addSlash, strlen_eq h]
  exact addSlash_test h hlength hadd

/-- Both kinds of paths are built as far as they fit. -/
theorem joinDestination_builds (hwd : Spells wd d) (hwdLength : wd.length = MAX_COMMAND_DIMENSION)
    (hdest : Spells dest a) (hdestLength : dest.length = MAX_COMMAND_DIMENSION) :
    Builds (joinDestination wd dest) (target 2 d a) := by
  rw [joinDestination, head_eq hdest, Option.bind_eq_bind, Option.bind_some, target]
  by_cases ha : a.head? = some SLASH
  · rw [if_pos ((head_eq_slash a).mpr ha), if_pos ha, memcpy_all cleared_length hdestLength]
    exact .of_spells hdest hdestLength
  · rw [if_neg fun heq ↦ ha ((head_eq_slash a).mp heq), if_neg ha,
      memcpy_all cleared_length hwdLength]
    exact (addSlash_builds hwd hwdLength).bind (by rw [List.length_append]; omega)
      fun b hb hlength ↦ .strcat hb hlength hdest

end Rules

/-! ## Command lines and working directories -/

/-- What `syscall_input` leaves in the cleared array of the shell: what the line editor makes
of the keys before the one that ends the line. -/
def Entered (buffer : List UInt8) : Prop :=
  ∃ keys, (∀ c ∈ keys, ¬ EndsLine c) ∧
    buffer = filled MAX_COMMAND_DIMENSION (editLine (MAX_COMMAND_DIMENSION - 1) keys)

/-- An array with a directory in it. -/
structure IsDirectory (wd d : List UInt8) : Prop where
  spells : Spells wd d
  length : wd.length = MAX_COMMAND_DIMENSION
  ne_nil : d ≠ []

theorem IsDirectory.length_lt {wd d : List UInt8} (h : IsDirectory wd d) :
    d.length < MAX_COMMAND_DIMENSION := h.length ▸ h.spells.length_lt

theorem mem_editLine {n : Nat} {keys : List UInt8} {c : UInt8} (h : c ∈ editLine n keys) :
    c ∈ keys := by
  induction keys using List.reverseRecOn with
  | nil => exact absurd h List.not_mem_nil
  | append_singleton keys k ih =>
      rw [editLine_concat, editKey] at h
      split_ifs at h
      · exact List.mem_append_left _ (ih (List.dropLast_subset _ h))
      · exact (List.mem_append.mp h).elim (fun h ↦ List.mem_append_left _ (ih h))
          (List.mem_append_right keys)
      · exact List.mem_append_left _ (ih h)

namespace Entered

variable {buffer : List UInt8}

theorem editLine_lt (keys : List UInt8) :
    (editLine (MAX_COMMAND_DIMENSION - 1) keys).length < MAX_COMMAND_DIMENSION :=
  Nat.lt_of_le_of_lt (editLine_length_le _ keys) (by decide)

theorem length_eq (h : Entered buffer) : buffer.length = MAX_COMMAND_DIMENSION := by
  obtain ⟨keys, -, rfl⟩ := h
  exact filled_length (Nat.le_of_lt (editLine_lt keys))

/-- The last character of the array is a `NUL`. -/
theorem getLast?_eq (h : Entered buffer) : buffer.getLast? = some 0 := by
  obtain ⟨keys, -, rfl⟩ := h
  have hpos : MAX_COMMAND_DIMENSION - (editLine (MAX_COMMAND_DIMENSION - 1) keys).length ≠ 0 := by
    have := editLine_lt keys
    omega
  rw [filled, List.getLast?_append_of_ne_nil _ (by simpa using hpos)]
  exact List.getLast?_replicate.trans (if_neg hpos)

theorem spells (h : Entered buffer) : Spells buffer (text buffer) :=
  spells_text (List.mem_of_getLast? h.getLast?_eq)

theorem length_lt (h : Entered buffer) : (text buffer).length < MAX_COMMAND_DIMENSION :=
  h.length_eq ▸ h.spells.length_lt

theorem unbroken (h : Entered buffer) : Unbroken (text buffer) := by
  intro c hc hstop
  rcases hstop with rfl | hends
  · exact h.spells.clean hc
  obtain ⟨keys, hkeys, rfl⟩ := h
  have hmem := List.takeWhile_subset _ hc
  rcases List.mem_append.mp hmem with hmem | hmem
  · exact hkeys c (mem_editLine hmem) hends
  · rw [List.eq_of_mem_replicate hmem] at hends
    exact absurd hends (by decide)

/-- The two parts of the command line. -/
theorem strsplit_eq (h : Entered buffer) :
    strsplit buffer SPACE cleared cleared =
      some (filled MAX_COMMAND_DIMENSION (before SPACE (text buffer)),
        filled MAX_COMMAND_DIMENSION (argument buffer)) :=
  Shell.strsplit_eq h.spells h.unbroken h.length_lt

theorem argument_lt (h : Entered buffer) : (argument buffer).length < MAX_COMMAND_DIMENSION :=
  Nat.lt_of_le_of_lt (after_length_le SPACE _) h.length_lt

theorem spells_argument (h : Entered buffer) :
    Spells (filled MAX_COMMAND_DIMENSION (argument buffer)) (argument buffer) :=
  spells_filled h.argument_lt (h.unbroken.after SPACE).clean

theorem spells_command (h : Entered buffer) :
    Spells (filled MAX_COMMAND_DIMENSION (before SPACE (text buffer)))
      (before SPACE (text buffer)) :=
  spells_filled (Nat.lt_of_le_of_lt (before_length_le SPACE _) h.length_lt)
    (h.unbroken.before SPACE).clean

end Entered

/-! ## Handler by handler -/

section Handlers

variable {calls : Calls} {buffer wd d : List UInt8}

theorem target_ne_nil {n : Nat} {a : List UInt8} (hd : d ≠ []) : target n d a ≠ [] := by
  unfold target
  split_ifs with ha
  · rintro rfl
    exact absurd ha (Option.some_ne_none _).symm
  · refine List.append_ne_nil_of_left_ne_nil (List.ne_nil_of_length_pos ?_) a
    exact Nat.lt_of_lt_of_le (List.length_pos_iff.mpr hd) (length_le_withSlash n d)

theorem handleShow_isSome (hwd : IsDirectory wd d) (h : Entered buffer) :
    (handleShow calls buffer wd).isSome ↔ PathFits (target 2 d (argument buffer)) := by
  have hbuilds := joinDestination_builds hwd.spells hwd.length h.spells_argument
    (filled_length (Nat.le_of_lt h.argument_lt))
  rw [handleShow, h.strsplit_eq, Option.bind_eq_bind, Option.bind_some]
  refine hbuilds.normalize_isSome (target_ne_nil hwd.ne_nil) fun b result hb _ _ ↦ ?_
  rw [readString_eq hb]
  rfl

/-- The destination of `handle_cd`, with a slash at its end. -/
def withFinalSlash (a : List UInt8) : List UInt8 :=
  if a.getLast? ≠ some SLASH then a ++ [SLASH] else a

/-- An argument never fills an array up: at least the space before it was taken off. -/
theorem Entered.argument_room (h : Entered buffer) (hne : argument buffer ≠ []) :
    (argument buffer).length + 1 < MAX_COMMAND_DIMENSION := by
  have hmem : SPACE ∈ text buffer := by
    by_contra hnot
    exact hne (after_of_notMem hnot)
  have hlength := before_after_length hmem
  have := h.length_lt
  rw [argument]
  omega

theorem Entered.closeDestination (h : Entered buffer) (hne : argument buffer ≠ []) :
    ∃ destination,
      closeDestination (filled MAX_COMMAND_DIMENSION (argument buffer)) = some destination ∧
      Spells destination (withFinalSlash (argument buffer)) ∧
      destination.length = MAX_COMMAND_DIMENSION := by
  have hroom := h.argument_room hne
  have hlength : (filled MAX_COMMAND_DIMENSION (argument buffer)).length = MAX_COMMAND_DIMENSION :=
    filled_length (Nat.le_of_lt h.argument_lt)
  have hgetLast := List.getLast?_eq_some_getLast hne
  rw [Shell.closeDestination, strlen_eq h.spells_argument, Option.bind_eq_bind, Option.bind_some,
    loadAt_last h.spells_argument hne, Option.bind_eq_bind, Option.bind_some, withFinalSlash,
    hgetLast]
  by_cases hlast : (argument buffer).getLast hne = SLASH
  · rw [if_neg (not_not_intro hlast), if_neg (not_not_intro (congrArg some hlast))]
    exact ⟨_, rfl, h.spells_argument, hlength⟩
  · have hlast' : some ((argument buffer).getLast hne) ≠ some SLASH :=
      fun heq ↦ hlast (Option.some.inj heq)
    rw [if_pos hlast, if_pos hlast']
    have hslash : Spells [SLASH, 0, 0] [SLASH] := ⟨by decide, [0], rfl⟩
    obtain ⟨b, hb, hspells, hblength⟩ :=
      strcat_of_lt h.spells_argument hslash (by rw [hlength]; exact hroom)
    exact ⟨b, hb, hspells, hblength.trans hlength⟩

/-- On an empty argument `handle_cd` reads the character in front of the array. -/
theorem Entered.closeDestination_nil (h : Entered buffer) (hnil : argument buffer = []) :
    Shell.closeDestination (filled MAX_COMMAND_DIMENSION (argument buffer)) = none := by
  rw [Shell.closeDestination, strlen_eq h.spells_argument, hnil]
  rfl

theorem handleCd_isSome (calls : Calls) (hwd : IsDirectory wd d) (h : Entered buffer) :
    (handleCd calls buffer wd).isSome ↔
      argument buffer ≠ [] ∧ PathFits (target 2 d (withFinalSlash (argument buffer))) := by
  simp only [handleCd, h.strsplit_eq, Option.bind_eq_bind, Option.bind_some]
  by_cases hne : argument buffer = []
  · rw [h.closeDestination_nil hne]
    exact iff_of_false Bool.false_ne_true fun hand ↦ hand.1 hne
  · obtain ⟨destination, hdestination, hspells, hlength⟩ := h.closeDestination hne
    rw [hdestination, Option.bind_some, and_iff_right hne]
    have hbuilds := joinDestination_builds hwd.spells hwd.length hspells hlength
    refine hbuilds.normalize_isSome (target_ne_nil hwd.ne_nil) fun b result hb _ hblength ↦ ?_
    rw [readString_eq hb, Option.bind_some]
    split_ifs
    · rfl
    · rw [memcpy_all hwd.length hblength]
      rfl

/-- The working directory after `handle_cd` is a directory again. -/
theorem handleCd_isDirectory (hwd : IsDirectory wd d) (h : Entered buffer) {outcome : Outcome}
    {wd' : List UInt8} (hcd : handleCd calls buffer wd = some (outcome, wd')) :
    ∃ d', IsDirectory wd' d' := by
  obtain ⟨hne, hlt, hfits⟩ := (handleCd_isSome calls hwd h).mp (by rw [hcd]; rfl)
  obtain ⟨destination, hdestination, hspells, hlength⟩ := h.closeDestination hne
  have hbuilds := joinDestination_builds hwd.spells hwd.length hspells hlength
  rw [Builds, if_pos hlt] at hbuilds
  obtain ⟨temp, htemp, htempSpells, htempLength⟩ := hbuilds
  obtain ⟨b, result, hb, hbSpells, hbne, hbLength⟩ :=
    normalizePath_of_fits htempSpells (target_ne_nil hwd.ne_nil) hfits
  simp only [handleCd, h.strsplit_eq, hdestination, htemp, hb, readString_eq hbSpells,
    memcpy_all hwd.length (hbLength.trans htempLength), Option.bind_eq_bind,
    Option.bind_some] at hcd
  split_ifs at hcd
  · exact ⟨d, (Prod.mk.inj (Option.some.inj hcd)).2 ▸ hwd⟩
  · exact ⟨result, (Prod.mk.inj (Option.some.inj hcd)).2 ▸
      ⟨hbSpells, hbLength.trans htempLength, hbne⟩⟩

/-- The path of `handle_tree`. -/
def treeTarget (d a : List UInt8) : List UInt8 := if a = [] then d else target 1 d a

theorem treePath_builds {dest a : List UInt8} (hwd : IsDirectory wd d) (hdest : Spells dest a)
    (hlength : dest.length = MAX_COMMAND_DIMENSION) :
    Builds (treePath wd dest) (treeTarget d a) := by
  simp only [treePath, head_eq hdest, Option.bind_eq_bind, Option.bind_some, treeTarget, target]
  by_cases hnil : a = []
  · rw [if_pos ((head_eq_zero hdest).mpr hnil), if_pos hnil, memcpy_all cleared_length hwd.length]
    exact .of_spells hwd.spells hwd.length
  rw [if_neg fun heq ↦ hnil ((head_eq_zero hdest).mp heq), if_neg hnil]
  by_cases ha : a.head? = some SLASH
  · rw [if_pos ((head_eq_slash a).mpr ha), if_pos ha, memcpy_all cleared_length hlength]
    exact .of_spells hdest hlength
  · rw [if_neg fun heq ↦ ha ((head_eq_slash a).mp heq), if_neg ha,
      memcpy_all cleared_length hwd.length, Option.bind_some, addTreeSlash, strlen_eq hwd.spells]
    exact (addSlash_test hwd.spells hwd.length rfl).bind (by rw [List.length_append]; omega)
      fun b hb hlength ↦ .strcat hb hlength hdest

/-- The loop of `print_tree` ends at its first test: the kernel never returns `1`. -/
theorem printTree_isSome (calls : Calls) {path : List UInt8} (hwd : Spells wd path) (fuel : Nat) :
    (printTree calls (fuel + 2) wd).isSome := by
  have hresult (fd : Int) : (calls.nextEntry fd 0).result ≠ 1 := by
    unfold Entry.result
    split_ifs <;> decide
  rw [printTree, readString_eq hwd, Option.bind_eq_bind, Option.bind_some]
  change (if calls.openDir path = -1 then some () else
    printEntries calls (calls.openDir path) 0 (fuel + 1) wd).isSome
  split_ifs
  · rfl
  · simp [printEntries, hresult]

theorem handleTree_isSome (hwd : IsDirectory wd d) (h : Entered buffer) (fuel : Nat) :
    (handleTree calls (fuel + 2) buffer wd).isSome ↔
      PathFits (treeTarget d (argument buffer)) := by
  have hbuilds := treePath_builds hwd h.spells_argument (filled_length (Nat.le_of_lt h.argument_lt))
  have hne : treeTarget d (argument buffer) ≠ [] := by
    unfold treeTarget
    split_ifs
    · exact hwd.ne_nil
    · exact target_ne_nil hwd.ne_nil
  simp only [handleTree, h.strsplit_eq, Option.bind_eq_bind, Option.bind_some]
  refine hbuilds.normalize_isSome hne fun b result hb _ _ ↦ ?_
  rw [readString_eq hb, Option.bind_some]
  split_ifs
  · rfl
  · obtain ⟨_, htree⟩ := Option.isSome_iff_exists.mp (printTree_isSome calls hb fuel)
    rw [htree]
    rfl

/-- The path of `handle_mkdir`. -/
def mkdirTarget (d a : List UInt8) : List UInt8 :=
  d ++ ((if a.head? = some SLASH then [] else [SLASH]) ++ a)

theorem mkdirPath_builds {dest a : List UInt8} (hwd : IsDirectory wd d) (hdest : Spells dest a) :
    Builds (mkdirPath wd dest) (mkdirTarget d a) := by
  have hfirst : Builds (strcat cleared wd) d := .strcat spells_cleared cleared_length hwd.spells
  simp only [mkdirPath, head_eq hdest, Option.bind_eq_bind, Option.bind_some, mkdirTarget]
  refine hfirst.bind (by rw [List.length_append]; omega) fun b hb hlength ↦ ?_
  by_cases ha : a.head? = some SLASH
  · rw [if_neg (not_not_intro ((head_eq_slash a).mpr ha)), if_pos ha, List.nil_append]
    exact .strcat hb hlength hdest
  · rw [if_pos fun heq ↦ ha ((head_eq_slash a).mp heq), if_neg ha, ← List.append_assoc]
    exact (Builds.strcat hb hlength spells_slash).bind (by simp) fun b hb hlength ↦
      .strcat hb hlength hdest

theorem handleMkdir_isSome (hwd : IsDirectory wd d) (h : Entered buffer) :
    (handleMkdir calls buffer wd).isSome ↔
      argument buffer = [] ∨
        (mkdirTarget d (argument buffer)).length < MAX_COMMAND_DIMENSION := by
  have hbuilds := mkdirPath_builds hwd h.spells_argument
  simp only [handleMkdir, h.strsplit_eq, Option.bind_eq_bind, Option.bind_some,
    head_eq h.spells_argument, strlen_eq hwd.spells]
  by_cases hnil : argument buffer = []
  · rw [if_pos ((head_eq_zero h.spells_argument).mpr hnil)]
    exact iff_of_true rfl (.inl hnil)
  rw [if_neg fun heq ↦ hnil ((head_eq_zero h.spells_argument).mp heq), if_pos hwd.length_lt,
    or_iff_right hnil]
  unfold Builds at hbuilds
  split_ifs at hbuilds with hfits
  · obtain ⟨b, hb, hspells, -⟩ := hbuilds
    rw [hb, Option.bind_some, readString_eq hspells]
    exact iff_of_true rfl hfits
  · rw [hbuilds]
    exact iff_of_false Bool.false_ne_true hfits

theorem handleExec_isSome (hwd : IsDirectory wd d) (h : Entered buffer) :
    (handleExec buffer wd).isSome ↔
      argument buffer = [] ∨ MAX_COMMAND_DIMENSION ≤ d.length + (argument buffer).length ∨
        (height (d ++ argument buffer)).isSome := by
  simp only [handleExec, h.strsplit_eq, Option.bind_eq_bind, Option.bind_some,
    strlen_eq h.spells_argument, strlen_eq hwd.spells]
  by_cases hnil : argument buffer = []
  · rw [if_pos (List.length_eq_zero_iff.mpr hnil)]
    exact iff_of_true rfl (.inl hnil)
  rw [if_neg fun heq ↦ hnil (List.length_eq_zero_iff.mp heq), or_iff_right hnil]
  by_cases hlong : MAX_COMMAND_DIMENSION ≤ d.length + (argument buffer).length
  · rw [if_pos hlong]
    exact iff_of_true rfl (.inl hlong)
  rw [if_neg hlong, or_iff_right hlong]
  have hfirst : Builds (strcat cleared wd) d := .strcat spells_cleared cleared_length hwd.spells
  have hbuilds : Builds ((strcat cleared wd).bind fun b ↦
      strcat b (filled MAX_COMMAND_DIMENSION (argument buffer))) (d ++ argument buffer) :=
    hfirst.bind (by rw [List.length_append]; omega) fun b hb hlength ↦
      .strcat hb hlength h.spells_argument
  have hfits := hbuilds.normalize_isSome (List.append_ne_nil_of_left_ne_nil hwd.ne_nil _)
    (f := fun b ↦ (readString b).bind fun path ↦ some (Outcome.built path))
    fun b result hb _ _ ↦ by rw [readString_eq hb]; rfl
  rw [Option.bind_assoc] at hfits
  rw [hfits, PathFits, List.length_append, and_iff_right (Nat.not_le.mp hlong)]

/-- The path of `handle_exec_from_bin`. -/
def binTarget (name : List UInt8) : List UInt8 := binDirectory ++ name ++ binSuffix

theorem handleExecFromBin_isSome (h : Entered buffer) :
    (handleExecFromBin buffer).isSome ↔
      MAX_COMMAND_DIMENSION ≤ (binTarget (before SPACE (text buffer))).length ∨
        (height (binTarget (before SPACE (text buffer)))).isSome := by
  have hdirectory : Spells (binDirectory ++ [0]) binDirectory := ⟨by decide, [], rfl⟩
  have hsuffix : Spells (binSuffix ++ [0]) binSuffix := ⟨by decide, [], rfl⟩
  simp only [handleExecFromBin, h.strsplit_eq, Option.bind_eq_bind, Option.bind_some,
    strlen_eq hdirectory, strlen_eq hsuffix, strlen_eq h.spells_command]
  have hlength : (binTarget (before SPACE (text buffer))).length =
      binDirectory.length + (before SPACE (text buffer)).length + binSuffix.length := by
    rw [binTarget, List.length_append, List.length_append]
  rw [hlength]
  by_cases hlong : MAX_COMMAND_DIMENSION ≤
      binDirectory.length + (before SPACE (text buffer)).length + binSuffix.length
  · rw [if_pos hlong]
    exact iff_of_true rfl (.inl hlong)
  rw [if_neg hlong, or_iff_right hlong]
  have hbuilds : Builds (((strcat cleared (binDirectory ++ [0])).bind fun b ↦
      strcat b (filled MAX_COMMAND_DIMENSION (before SPACE (text buffer)))).bind fun b ↦
        strcat b (binSuffix ++ [0])) (binTarget (before SPACE (text buffer))) := by
    refine Builds.bind (s := binDirectory ++ before SPACE (text buffer)) ?_ ?_ fun b hb hlength ↦
      .strcat hb hlength hsuffix
    · exact (Builds.strcat spells_cleared cleared_length hdirectory).bind
        (by rw [List.nil_append, List.length_append]; omega) fun b hb hlength ↦
        .strcat hb hlength h.spells_command
    · simp only [binTarget, List.length_append]
      omega
  obtain ⟨s, hs, -⟩ := splitArguments_eq h.spells_argument (h.unbroken.after SPACE)
    (filled_length (Nat.le_of_lt h.argument_lt))
  have hfits := hbuilds.normalize_isSome (List.cons_ne_nil _ _)
    (f := fun b ↦ (splitArguments (filled MAX_COMMAND_DIMENSION (argument buffer))).bind fun _ ↦
      (readString b).bind fun path ↦ some (Outcome.built path))
    fun b result hb _ _ ↦ by
      have hs' : splitArguments (filled MAX_COMMAND_DIMENSION (argument buffer)) = some s := hs
      rw [hs', Option.bind_some, readString_eq hb]
      rfl
  rw [Option.bind_assoc, Option.bind_assoc] at hfits
  rw [hfits, PathFits, hlength, and_iff_right (Nat.not_le.mp hlong)]

end Handlers

/-! ## The words of `handle_write` -/

section Words

variable {stops : UInt8 → Prop} [DecidablePred stops] {calls : Calls}
  {p buffer wd d dest : List UInt8} {i : Nat}

theorem skipUntil_eq (h : p.dropWhile (¬ stops ·) ≠ []) :
    skipUntil stops p = some (p.dropWhile (¬ stops ·)) := by
  induction p with
  | nil => exact absurd rfl h
  | cons c p ih =>
      by_cases hc : stops c
      · rw [skipUntil, if_neg (not_not_intro hc), List.dropWhile_cons_of_neg (by simpa)]
      · rw [List.dropWhile_cons_of_pos (by simpa)] at h ⊢
        rw [skipUntil, if_pos hc, ih h]

theorem copyUntil_eq (h : p.dropWhile (¬ stops ·) ≠ []) (dest : List UInt8) (i : Nat) :
    copyUntil stops dest i p = (storeAll dest i (p.takeWhile (¬ stops ·))).map
      fun dest ↦ (dest, i + (p.takeWhile (¬ stops ·)).length, p.dropWhile (¬ stops ·)) := by
  induction p generalizing dest i with
  | nil => exact absurd rfl h
  | cons c p ih =>
      by_cases hc : stops c
      · rw [copyUntil, if_neg (not_not_intro hc), List.dropWhile_cons_of_neg (by simpa),
          List.takeWhile_cons_of_neg (by simpa)]
        rfl
      · rw [List.dropWhile_cons_of_pos (by simpa)] at h ⊢
        rw [copyUntil, if_pos hc, List.takeWhile_cons_of_pos (by simpa), storeAll, Option.map_bind]
        refine congrArg _ (funext fun dest ↦ ?_)
        rw [ih h, List.length_cons, Nat.add_right_comm, Nat.add_assoc]
        rfl

/-- What follows the character at which a word ends. -/
def afterWord (p : List UInt8) : List UInt8 := (p.dropWhile (¬ EndsWord ·)).tail

theorem afterWord_suffix (p : List UInt8) : afterWord p <:+ p :=
  (List.tail_suffix _).trans (List.dropWhile_suffix _)

/-- A part of the command line that reaches to its end has the `NUL` that stands there. -/
theorem Entered.dropWhile_ne_nil (h : Entered buffer) (hp : p <:+ buffer) (hne : p ≠ [])
    (hstop : stops 0) : p.dropWhile (¬ stops ·) ≠ [] := by
  obtain ⟨front, rfl⟩ := hp
  have hlast := h.getLast?_eq
  rw [List.getLast?_append_of_ne_nil _ hne] at hlast
  have hmem := List.mem_of_getLast? hlast
  rw [Ne, List.dropWhile_eq_nil_iff]
  exact fun hall ↦ by simpa [hstop] using hall 0 hmem

/-- A word is copied to a cleared array, with a `NUL` after it. -/
theorem Entered.copyWord (stops : UInt8 → Prop) [DecidablePred stops] (h : Entered buffer)
    (hp : p <:+ buffer) (hlt : p.length < buffer.length)
    (hne : p ≠ []) (hstop : stops 0) :
    copyUntil stops cleared 0 p =
        some (filled MAX_COMMAND_DIMENSION (p.takeWhile (¬ stops ·)),
          (p.takeWhile (¬ stops ·)).length, p.dropWhile (¬ stops ·)) ∧
      store (filled MAX_COMMAND_DIMENSION (p.takeWhile (¬ stops ·)))
          (p.takeWhile (¬ stops ·)).length 0 =
        some (filled MAX_COMMAND_DIMENSION (p.takeWhile (¬ stops ·))) ∧
      (p.takeWhile (¬ stops ·)).length < MAX_COMMAND_DIMENSION := by
  have hword : (p.takeWhile (¬ stops ·)).length < MAX_COMMAND_DIMENSION := by
    have := (List.takeWhile_sublist (¬ stops ·) (l := p)).length_le
    have := h.length_eq
    omega
  have hcopy := storeAll_filled (s := []) (t := p.takeWhile (¬ stops ·))
    (n := MAX_COMMAND_DIMENSION) (by rw [List.length_nil]; omega)
  have hzero := storeAll_filled_zero (s := p.takeWhile (¬ stops ·)) (t := [])
    (n := MAX_COMMAND_DIMENSION) hword
  rw [List.append_nil, List.nil_append, storeAll] at hzero
  refine ⟨?_, (Option.bind_fun_some _).symm.trans hzero, hword⟩
  rw [copyUntil_eq (h.dropWhile_ne_nil hp hne hstop)]
  exact (congrArg _ hcopy).trans (by rw [Option.map_some, Nat.zero_add]; rfl)

/-- The name in a `write` command. -/
def fileName (buffer : List UInt8) : List UInt8 := (afterWord buffer).takeWhile (¬ EndsWord ·)

/-- The text in a `write` command. -/
def fileContent (buffer : List UInt8) : List UInt8 :=
  (afterWord (afterWord buffer)).takeWhile (¬ · = 0)

/-- The path of `handle_write`, which is empty if it would be too long. -/
def writeTarget (d name : List UInt8) : List UInt8 :=
  if d.length + name.length < MAX_COMMAND_DIMENSION then d ++ name else []

/-- The kernel is made to read more bytes than the array of the content has. -/
theorem writeFile_isSome {filePath content path : List UInt8} (tooBig : Bool)
    (hpath : Spells filePath path) (hcontent : content.length = MAX_COMMAND_DIMENSION) :
    (writeFile calls tooBig filePath content i).isSome ↔ calls.openFile path = -1 ∨ i = 0 := by
  have hread : readBytes content MAX_FILE_DIMENSION = none :=
    if_neg (by rw [hcontent]; decide)
  simp only [writeFile, readString_eq hpath, hread, Option.bind_eq_bind, Option.bind_some,
    Option.bind_none]
  by_cases hopen : calls.openFile path ≠ -1 ∧ 0 < i
  · rw [if_pos hopen]
    refine iff_of_false Bool.false_ne_true ?_
    rintro (hfd | hi)
    · exact hopen.1 hfd
    · exact Nat.ne_of_gt hopen.2 hi
  · rw [if_neg hopen]
    refine iff_of_true rfl ?_
    by_contra hnot
    obtain ⟨hfd, hi⟩ := not_or.mp hnot
    exact hopen ⟨hfd, Nat.pos_of_ne_zero hi⟩

theorem handleWrite_isSome (hwd : IsDirectory wd d) (h : Entered buffer) :
    (handleWrite calls buffer wd).isSome ↔ afterWord (afterWord buffer) ≠ [] ∧
      (calls.openFile (writeTarget d (fileName buffer)) = -1 ∨ fileContent buffer = []) := by
  have hne : buffer ≠ [] := by
    rintro rfl
    exact absurd h.length_eq (by decide)
  have hfirst : buffer.dropWhile (¬ EndsWord ·) ≠ [] :=
    h.dropWhile_ne_nil List.suffix_rfl hne (.inl rfl)
  have hlt : (afterWord buffer).length < buffer.length := by
    have hle := (List.dropWhile_suffix (¬ EndsWord ·) (l := buffer)).length_le
    have hpos := List.length_pos_iff.mpr hfirst
    rw [afterWord, List.length_tail]
    omega
  simp only [handleWrite, skipUntil_eq hfirst, Option.bind_eq_bind, Option.bind_some]
  change ((copyUntil EndsWord cleared 0 (afterWord buffer)).bind _).isSome ↔ _
  by_cases hname : afterWord buffer = []
  · -- the array ends with the character after the command
    rw [hname]
    exact iff_of_false Bool.false_ne_true fun hand ↦ hand.1 rfl
  obtain ⟨hcopy, hstore, hnameLength⟩ :=
    Entered.copyWord EndsWord h (afterWord_suffix buffer) hlt hname (.inl rfl)
  rw [← fileName] at hcopy hstore hnameLength
  simp only [hcopy, hstore, Option.bind_some]
  change ((copyUntil (· = 0) cleared 0 (afterWord (afterWord buffer))).bind _).isSome ↔ _
  by_cases hcontent : afterWord (afterWord buffer) = []
  · -- the array ends with the character after the name
    rw [hcontent]
    exact iff_of_false Bool.false_ne_true fun hand ↦ hand.1 rfl
  have hsuffix := (afterWord_suffix (afterWord buffer)).trans (afterWord_suffix buffer)
  have hlt' : (afterWord (afterWord buffer)).length < buffer.length :=
    Nat.lt_of_le_of_lt (afterWord_suffix _).length_le hlt
  obtain ⟨hcopy', hstore', hcontentLength⟩ :=
    Entered.copyWord (· = 0) h hsuffix hlt' hcontent rfl
  rw [← fileContent] at hcopy' hstore' hcontentLength
  have hfile : Spells (filled MAX_COMMAND_DIMENSION (fileName buffer)) (fileName buffer) := by
    refine spells_filled hnameLength fun hmem ↦ ?_
    have := List.mem_takeWhile_imp hmem
    simp [EndsWord] at this
  have hpathLength : (filled MAX_COMMAND_DIMENSION (fileContent buffer)).length =
      MAX_COMMAND_DIMENSION := filled_length (Nat.le_of_lt hcontentLength)
  simp only [hcopy', hstore', Option.bind_some, strlen_eq hwd.spells]
  rw [and_iff_right hcontent]
  change ((strlen (filled MAX_COMMAND_DIMENSION (fileName buffer))).bind _).isSome ↔ _
  rw [strlen_eq hfile, Option.bind_some, writeTarget]
  by_cases hfits : d.length + (fileName buffer).length < MAX_COMMAND_DIMENSION
  · have hdirectory : Builds (strcat cleared wd) d :=
      .strcat spells_cleared cleared_length hwd.spells
    have hbuilds : Builds (writePath wd (filled MAX_COMMAND_DIMENSION (fileName buffer)))
        (d ++ fileName buffer) :=
      hdirectory.bind (by rw [List.length_append]; omega) fun b hb hlength ↦
        .strcat hb hlength hfile
    rw [Builds, List.length_append, if_pos hfits] at hbuilds
    obtain ⟨filePath, hpath, hpathSpells, -⟩ := hbuilds
    rw [if_pos hfits, if_pos hfits, hpath, Option.bind_some,
      writeFile_isSome false hpathSpells hpathLength, List.length_eq_zero_iff]
  · rw [if_neg hfits, if_neg hfits, writeFile_isSome true spells_cleared hpathLength,
      List.length_eq_zero_iff]

end Words

/-! ## All handlers, after any history of commands -/

/-- The working directories that the shell can reach, whatever the kernel answers: `/` at the
start, and what `handle_cd` makes of one of them. -/
inductive WorkingDirectory : List UInt8 → Prop
  | start : WorkingDirectory (filled MAX_COMMAND_DIMENSION [SLASH])
  | cd {calls : Calls} {buffer wd wd' : List UInt8} {outcome : Outcome} :
      WorkingDirectory wd → Entered buffer →
      handleCd calls buffer wd = some (outcome, wd') → WorkingDirectory wd'

/-- A working directory is a string of at most `MAX_COMMAND_DIMENSION - 1` characters. -/
theorem WorkingDirectory.isDirectory {wd : List UInt8} (h : WorkingDirectory wd) :
    IsDirectory wd (text wd) := by
  have hexists : ∃ d, IsDirectory wd d := by
    induction h with
    | start => exact ⟨[SLASH], spells_filled (by decide) (by decide), rfl, by decide⟩
    | cd _ hentered hcd ih =>
        obtain ⟨d, hd⟩ := ih
        exact handleCd_isDirectory hd hentered hcd
  obtain ⟨d, hd⟩ := hexists
  rwa [hd.spells.text_eq]

/-- The handlers that build a path. -/
inductive Handler
  | mkdir
  | cd
  | show
  | tree
  | write
  | exec
  | execFromBin
deriving DecidableEq, Repr

/-- Run a handler on a command line. -/
def Handler.run (calls : Calls) (buffer wd : List UInt8) : Handler → Option Outcome
  | .mkdir => handleMkdir calls buffer wd
  | .cd => (handleCd calls buffer wd).map Prod.fst
  | .show => handleShow calls buffer wd
  -- the loop of `print_tree` ends at its first test
  | .tree => handleTree calls 2 buffer wd
  | .write => handleWrite calls buffer wd
  | .exec => handleExec buffer wd
  | .execFromBin => handleExecFromBin buffer

/-- When a handler reports an error or stays inside its arrays. -/
def Handler.Fits (calls : Calls) (buffer wd : List UInt8) : Handler → Prop
  | .mkdir => argument buffer = [] ∨
      (mkdirTarget (text wd) (argument buffer)).length < MAX_COMMAND_DIMENSION
  | .cd => argument buffer ≠ [] ∧
      PathFits (target 2 (text wd) (withFinalSlash (argument buffer)))
  | .show => PathFits (target 2 (text wd) (argument buffer))
  | .tree => PathFits (treeTarget (text wd) (argument buffer))
  | .write => afterWord (afterWord buffer) ≠ [] ∧
      (calls.openFile (writeTarget (text wd) (fileName buffer)) = -1 ∨ fileContent buffer = [])
  | .exec => argument buffer = [] ∨
      MAX_COMMAND_DIMENSION ≤ (text wd).length + (argument buffer).length ∨
      (height (text wd ++ argument buffer)).isSome
  | .execFromBin => MAX_COMMAND_DIMENSION ≤ (binTarget (before SPACE (text buffer))).length ∨
      (height (binTarget (before SPACE (text buffer)))).isSome

/-- After any history of commands, and for every command line, a handler accesses no array
outside exactly if its path fits as stated. -/
theorem handlers_inside_iff (calls : Calls) (handler : Handler) (buffer wd : List UInt8)
    (hbuffer : Entered buffer) (hwd : WorkingDirectory wd) :
    (handler.run calls buffer wd).isSome ↔ handler.Fits calls buffer wd := by
  have hdirectory := hwd.isDirectory
  cases handler with
  | mkdir => exact handleMkdir_isSome hdirectory hbuffer
  | cd =>
      rw [Handler.run, Option.isSome_map]
      exact handleCd_isSome calls hdirectory hbuffer
  | «show» => exact handleShow_isSome hdirectory hbuffer
  | tree => exact handleTree_isSome hdirectory hbuffer 0
  | write => exact handleWrite_isSome hdirectory hbuffer
  | exec => exact handleExec_isSome hdirectory hbuffer
  | execFromBin => exact handleExecFromBin_isSome hbuffer

/-- A kernel without files, where nothing can be opened. -/
def noFiles : Calls where
  openDir _ := -1
  createDir _ := -1
  openFile _ := -1
  nextEntry _ _ := ⟨true, [0], false⟩

/-- The command line `cd ..`, which climbs to the root itself. -/
theorem handlers_inside_iff_cd :
    (Handler.cd.run noFiles (filled MAX_COMMAND_DIMENSION [0x63, 0x64, SPACE, DOT, DOT])
      (filled MAX_COMMAND_DIMENSION [SLASH])).isSome :=
  (handlers_inside_iff noFiles .cd _ _
    ⟨[0x63, 0x64, SPACE, DOT, DOT], by decide +kernel, by decide +kernel⟩ .start).mpr
      ⟨by decide, by decide⟩

/-- `cd` without an argument reads the character in front of an array. -/
theorem handlers_inside_false : ¬ ∀ (calls : Calls) (handler : Handler) (buffer wd : List UInt8),
    Entered buffer → WorkingDirectory wd → (handler.run calls buffer wd).isSome := by
  intro h
  have hcd := h noFiles .cd (filled MAX_COMMAND_DIMENSION [0x63, 0x64])
    (filled MAX_COMMAND_DIMENSION [SLASH]) ⟨[0x63, 0x64], by decide +kernel, by decide +kernel⟩
    .start
  exact absurd hcd (by decide)

end DemosOS.Shell
