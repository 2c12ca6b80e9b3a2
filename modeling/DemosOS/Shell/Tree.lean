import DemosOS.Files.Listing
import DemosOS.Files.Opening
import DemosOS.Shell.Bounds
import DemosOS.Shell.Meaning

/-!
# Printing a directory tree

`print_tree` of `shell.c`, with the kernel under it and what it prints.  The loop is to go over
the entries of a directory and to call the function for each subdirectory, but it leaves as soon
as a call returns something other than `1`, and `syscall_get_next_entry` returns `0` for an entry.
So the first call ends the loop whatever it returns.

A tree is a directory chain whose subdirectories come with their own chains; it says what should
be printed.  The FAT library is seen through the chain that it finds at a path.
-/

namespace DemosOS.Shell

open Lib Buffer

/-! ## Trees -/

/-- A slot of a directory, or several with a long name, and everything below it. -/
inductive Node
  | free
  | /-- The entry of the directory itself or of its parent. -/
    dots (info : DirInfo) (named : IsDots info.name)
  | file (longSlots : Nat) (info : DirInfo) (named : ¬ IsDots info.name)
      (isFile : info.attr &&& FAT_ATTR_DIR = 0)
  | folder (longSlots : Nat) (info : DirInfo) (named : ¬ IsDots info.name)
      (isFolder : info.attr &&& FAT_ATTR_DIR ≠ 0) (nodes : List Node) (unused : Option (List Slot))

def Node.item : Node → Item
  | free => .free
  | dots info _ => .entry 0 info
  | file longSlots info _ _ => .entry longSlots info
  | folder longSlots info _ _ _ _ => .entry longSlots info

/-- A directory with everything below it, up to the end marker or to the end of the chain. -/
structure Folder where
  nodes : List Node
  unused : Option (List Slot)

namespace Folder

def items (t : Folder) : List Item := t.nodes.map Node.item

def endSlots (t : Folder) : List Slot :=
  match t.unused with
  | some slots => .last :: slots
  | none => []

/-- The chain of the directory. -/
def slots (t : Folder) : List Slot := t.items.flatMap Item.slots ++ t.endSlots

/-- The entries of the directory itself. -/
def entries (t : Folder) : List DirInfo := t.items.filterMap Item.info?

/-- The entries for which `syscall_get_next_entry` returns `0`. -/
def reported (t : Folder) : List DirInfo := listed t.items t.endSlots

end Folder

/-- The text of a path that is extended by a name. -/
def childText (text name : List UInt8) : List UInt8 :=
  if text.getLast? = some SLASH then text ++ name else text ++ SLASH :: name

mutual

/-- The directories below a directory with this path, with their paths and chains. -/
def Node.directories (text : List UInt8) : Node → List (List UInt8 × List Slot)
  | .free | .dots _ _ | .file _ _ _ _ => []
  | .folder _ info _ _ nodes unused =>
      (childText text info.name, (Folder.mk nodes unused).slots) ::
        nodesDirectories (childText text info.name) nodes

def nodesDirectories (text : List UInt8) : List Node → List (List UInt8 × List Slot)
  | [] => []
  | node :: nodes => node.directories text ++ nodesDirectories text nodes

end

mutual

/-- The entries of a tree. -/
def Node.infos : Node → List DirInfo
  | .free => []
  | .dots info _ | .file _ info _ _ => [info]
  | .folder _ info _ _ nodes _ => info :: nodesInfos nodes

def nodesInfos : List Node → List DirInfo
  | [] => []
  | node :: nodes => node.infos ++ nodesInfos nodes

end

/-- What `print_tree` writes before an entry. -/
def indentation (depth : Nat) : List UInt8 :=
  (List.replicate depth [SPACE, SPACE, SPACE]).flatten

/-- What `print_tree` writes around the name of a directory. -/
def folderLine (name : List UInt8) : List UInt8 :=
  [0x1B, 0x5B, 0x33, 0x34, 0x6D] ++ name ++ [SLASH, 0x1B, 0x5B, 0x30, 0x6D, LINE_FEED]

def fileLine (name : List UInt8) : List UInt8 := name ++ [LINE_FEED]

mutual

/-- The lines of a node: the entry, and one level deeper what is below it. -/
def Node.lines (depth : Nat) : Node → List UInt8
  | .free | .dots _ _ => []
  | .file _ info _ _ => indentation depth ++ fileLine info.name
  | .folder _ info _ _ nodes _ =>
      indentation depth ++ folderLine info.name ++ nodesLines (depth + 1) nodes

def nodesLines (depth : Nat) : List Node → List UInt8
  | [] => []
  | node :: nodes => node.lines depth ++ nodesLines depth nodes

end

namespace Folder

/-- The directory and those below it, with their paths and chains. -/
def directories (text : List UInt8) (t : Folder) : List (List UInt8 × List Slot) :=
  (text, t.slots) :: nodesDirectories text t.nodes

def infos (t : Folder) : List DirInfo := nodesInfos t.nodes

/-- What is to be printed for a directory. -/
def lines (depth : Nat) (t : Folder) : List UInt8 := nodesLines depth t.nodes

theorem entries_subset (t : Folder) : t.entries ⊆ t.infos := by
  obtain ⟨nodes, unused⟩ := t
  intro info h
  induction nodes with
  | nil => cases h
  | cons node nodes ih =>
      have hrest : info ∈ (nodes.map Node.item).filterMap Item.info? →
          info ∈ node.infos ++ nodesInfos nodes := fun h ↦ List.mem_append_right _ (ih h)
      cases node with
      | free => exact hrest h
      | dots info' _ | file _ info' _ _ | folder _ info' _ _ _ _ =>
          obtain rfl | h := List.mem_cons.mp h
          · exact List.mem_append_left _ List.mem_cons_self
          · exact hrest h

/-- Nothing is to be printed if all entries are those of the directory and its parent. -/
theorem lines_eq_nil_iff (t : Folder) (depth : Nat) :
    t.lines depth = [] ↔ ∀ info ∈ t.entries, IsDots info.name := by
  obtain ⟨nodes, unused⟩ := t
  change nodesLines depth nodes = [] ↔ ∀ info ∈ (nodes.map Node.item).filterMap Item.info?, _
  induction nodes with
  | nil => exact iff_of_true rfl nofun
  | cons node nodes ih =>
      rw [nodesLines, List.append_eq_nil_iff, ih]
      cases node with
      | free => exact and_iff_right rfl
      | dots info named =>
          simp [Node.lines, Node.item, Item.info?, named]
      | file longSlots info named isFile =>
          simp [Node.lines, fileLine, Node.item, Item.info?, named]
      | folder longSlots info named isFolder nodes' unused' =>
          simp [Node.lines, folderLine, Node.item, Item.info?, named]

end Folder

/-! ## The function -/

/-- The chain that the FAT library finds at a path. -/
abbrev Disk := List UInt8 → Option (List Slot)

/-- The kernel, the cursor of every open directory, what has been printed, and what
`syscall_get_next_entry` has returned so far. -/
structure Screen where
  kernel : Kernel Pointers
  cursors : Int → List Slot
  output : List UInt8
  results : List Int

/-- The variable `info` of `print_tree`, with nothing in `is_dir` before the first entry. -/
structure Info where
  name : List UInt8
  isDir : Option Bool

namespace Screen

/-- `syscall_open_dir` has returned. -/
def opened (r : FileResult) (slots : List Slot) (s : Screen) : Screen :=
  { s with kernel := r.kernel, cursors := Function.update s.cursors r.value slots }

def openDir (disk : Disk) (path : List UInt8) (s : Screen) : Option (Int × Screen) :=
  match disk path with
  | none => do
      let r ← (s.kernel.syscallOpenDir FatError.path.code).toOption
      some (r.value, { s with kernel := r.kernel })
  | some slots => do
      let r ← (s.kernel.syscallOpenDir 0).toOption
      some (r.value, s.opened r slots)

/-- `syscall_get_next_entry` has returned. -/
def returned (fd : Int) (r : FileResult) (cursor : List Slot) (s : Screen) : Screen :=
  { s with
    kernel := r.kernel
    cursors := Function.update s.cursors fd cursor
    results := s.results ++ [r.value] }

/-- `info.name` is cleared, and `syscall_get_next_entry` is called. -/
def getNextEntry (fd : Int) (s : Screen) : Option (Int × Info × Screen) := do
  let (entry, r, cursor) ← (s.kernel.nextEntry fd (s.cursors fd)).toOption
  let s := s.returned fd r cursor
  let cleared := filled FAT_MAX_NAME_SIZE []
  match entry with
  | none => some (r.value, ⟨cleared, none⟩, s)
  | some entry => do
      let name ← storeAll cleared 0 entry.name
      some (r.value, ⟨name, some entry.isDir⟩, s)

/-- `call_syscall_write`. -/
def write (text : List UInt8) (s : Screen) : Screen := { s with output := s.output ++ text }

end Screen

/-- `memcmp`. -/
def memcmp : List UInt8 → List UInt8 → Nat → Option Int
  | _, _, 0 => some 0
  | c :: src1, d :: src2, n + 1 => if c = d then memcmp src1 src2 n else some (c.toNat - d.toNat)
  | _, _, _ + 1 => none

/-- The test that ends the loop of `print_tree`. -/
def EndsListing (result : Int) : Prop := result ≠ 1

instance (result : Int) : Decidable (EndsListing result) := inferInstanceAs (Decidable (_ ≠ _))

namespace Disk

mutual

/-- `print_tree`, with a bound on the calls and rounds of the loop. -/
def printTree (disk : Disk) : Nat → List UInt8 → Nat → Screen → Option Screen
  | 0, _, _, _ => none
  | fuel + 1, path, depth, s => do
      let (fd, s) ← s.openDir disk (← readString path)
      if fd = -1 then some s else disk.printEntries fuel fd path depth s

/-- The loop of `print_tree`. -/
def printEntries (disk : Disk) : Nat → Int → List UInt8 → Nat → Screen → Option Screen
  | 0, _, _, _, _ => none
  | fuel + 1, fd, path, depth, s => do
      let (result, info, s) ← s.getNextEntry fd
      if EndsListing result then
        some s
      else if (← memcmp info.name [DOT, 0] 2) = 0 then
        disk.printEntries fuel fd path depth s
      else if (← memcmp info.name [DOT, DOT, 0] 3) = 0 then
        disk.printEntries fuel fd path depth s
      else
        let name ← readString info.name
        -- a call that delivers no entry has ended the loop
        let isDir ← info.isDir
        let s := s.write (indentation depth)
        if isDir then
          let s := s.write (folderLine name)
          let child ← childPath path info.name
          let s ← disk.printTree fuel child (depth + 1) s
          disk.printEntries fuel fd path depth s
        else
          disk.printEntries fuel fd path depth (s.write (fileLine name))

end

/-- What `handle_tree` writes if it cannot open the directory. -/
def cannotOpen (path : List UInt8) : List UInt8 :=
  "[SHELL] Error: cannot open directory '".toUTF8.toList ++ path ++ "'.\n".toUTF8.toList

/-- `handle_tree`. -/
def handleTree (disk : Disk) (fuel : Nat) (buffer workingDirectory : List UInt8) (s : Screen) :
    Option Screen := do
  let (_, target) ← strsplit buffer SPACE cleared cleared
  let fullpath ← treePath workingDirectory target
  let fullpath ← normalizePath fullpath
  let path ← readString fullpath
  let (fd, s) ← s.openDir disk path
  if fd = -1 then some (s.write (cannotOpen path))
  else disk.printTree fuel fullpath 0 ((s.write path).write [LINE_FEED])

end Disk

/-! ## What a call returns -/

section Calls

variable {k : Kernel Pointers} {fd : Int} {cursor cursor' : List Slot}
  {entry : Option FatEntryInfo} {r : FileResult}

theorem ok_of_toOption {ε α : Type} {x : Except ε α} {a : α} (h : x.toOption = some a) :
    x = .ok a := by
  cases x with
  | error e => cases h
  | ok b => exact congrArg _ (Option.some.inj h)

theorem exists_of_bind {ε α β : Type} {x : Except ε α} {f : α → Except ε β} {b : β}
    (h : (x >>= f) = .ok b) : ∃ a, x = .ok a ∧ f a = .ok b := by
  cases x with
  | error e => cases h
  | ok a => exact ⟨a, rfl, h⟩

/-- `syscall_get_next_entry` returns `0` or `-1`. -/
theorem syscallGetNextEntry_value {info : Except Int DirInfo} {nextError : Int}
    (h : k.syscallGetNextEntry fd info nextError = .ok (entry, r)) :
    r.value = 0 ∨ r.value = -1 := by
  obtain ⟨resource, -, h⟩ := exists_of_bind h
  obtain ⟨dir, -, h⟩ := exists_of_bind h
  by_cases hdir : dir = 0
  · rw [if_pos hdir] at h
    obtain ⟨-, rfl⟩ := Prod.mk.inj (Except.ok.inj h)
    exact Or.inr rfl
  · rw [if_neg hdir] at h
    cases info with
    | error error =>
        obtain ⟨-, rfl⟩ := Prod.mk.inj (Except.ok.inj h)
        exact Or.inr rfl
    | ok info =>
        obtain ⟨-, rfl⟩ := Prod.mk.inj (Except.ok.inj h)
        by_cases hnext : nextError ≠ 0
        · exact Or.inr (if_pos hnext)
        · exact Or.inl (if_neg hnext)

theorem nextEntry_value (h : k.nextEntry fd cursor = .ok (entry, r, cursor')) :
    r.value = 0 ∨ r.value = -1 := by
  have hcall : ∃ info nextError, k.syscallGetNextEntry fd info nextError = .ok (entry, r) := by
    unfold Kernel.nextEntry at h
    split at h
    · obtain ⟨p, hp, h⟩ := exists_of_bind h
      cases h
      exact ⟨_, _, hp⟩
    · split at h
      · obtain ⟨p, hp, h⟩ := exists_of_bind h
        cases h
        exact ⟨_, _, hp⟩
      · obtain ⟨p, hp, h⟩ := exists_of_bind h
        cases h
        exact ⟨_, _, hp⟩
  obtain ⟨info, nextError, hcall⟩ := hcall
  exact syscallGetNextEntry_value hcall

end Calls

namespace Screen

variable {s s' : Screen} {disk : Disk} {fd result : Int} {info : Info} {path : List UInt8}

theorem openDir_output (h : s.openDir disk path = some (fd, s')) :
    s'.output = s.output := by
  unfold openDir at h
  split at h
  · obtain ⟨r, -, h⟩ := Option.bind_eq_some_iff.mp h
    obtain ⟨-, rfl⟩ := Prod.mk.inj (Option.some.inj h)
    rfl
  · obtain ⟨r, -, h⟩ := Option.bind_eq_some_iff.mp h
    obtain ⟨-, rfl⟩ := Prod.mk.inj (Option.some.inj h)
    rfl

theorem openDir_eq_some_iff {slots : List Slot} (h : disk path = some slots) :
    s.openDir disk path = some (fd, s') ↔
      ∃ r, s.kernel.syscallOpenDir 0 = .ok r ∧ r.value = fd ∧ s.opened r slots = s' := by
  rw [openDir, h]
  constructor
  · intro hopen
    obtain ⟨r, hr, hopen⟩ := Option.bind_eq_some_iff.mp hopen
    obtain ⟨hfd, hs'⟩ := Prod.mk.inj (Option.some.inj hopen)
    exact ⟨r, ok_of_toOption hr, hfd, hs'⟩
  · rintro ⟨r, hr, rfl, rfl⟩
    simp only [hr]
    rfl

/-- No call returns what the loop of `print_tree` goes on with. -/
theorem getNextEntry_spec (h : s.getNextEntry fd = some (result, info, s')) :
    EndsListing result ∧ s'.output = s.output ∧ s'.results = s.results ++ [result] := by
  obtain ⟨⟨entry, r, cursor⟩, hr, h⟩ := Option.bind_eq_some_iff.mp h
  have hvalue : EndsListing r.value := by
    have hcases := nextEntry_value (ok_of_toOption hr)
    unfold EndsListing
    omega
  cases entry with
  | none =>
      cases h
      exact ⟨hvalue, rfl, rfl⟩
  | some entry =>
      obtain ⟨name, -, h⟩ := Option.bind_eq_some_iff.mp h
      cases h
      exact ⟨hvalue, rfl, rfl⟩

end Screen

namespace Disk

variable {disk : Disk} {s s' : Screen} {fd : Int} {path : List UInt8} {depth fuel : Nat}

/-- The loop of `print_tree` makes one call. -/
theorem printEntries_eq : disk.printEntries (fuel + 1) fd path depth s =
    (s.getNextEntry fd).map fun call ↦ call.2.2 := by
  rw [printEntries]
  cases hcall : s.getNextEntry fd with
  | none => rfl
  | some call =>
      obtain ⟨result, info, s'⟩ := call
      exact if_pos (Screen.getNextEntry_spec hcall).1

/-- `print_tree` prints nothing. -/
theorem printTree_output (h : disk.printTree fuel path depth s = some s') :
    s'.output = s.output := by
  obtain _ | fuel := fuel
  · cases h
  · rw [printTree] at h
    obtain ⟨directory, -, h⟩ := Option.bind_eq_some_iff.mp h
    obtain ⟨⟨fd, s₁⟩, hopen, h⟩ := Option.bind_eq_some_iff.mp h
    have hopened := Screen.openDir_output hopen
    dsimp only at h
    split_ifs at h
    · cases h
      exact hopened
    · obtain _ | fuel := fuel
      · cases h
      · rw [printEntries_eq] at h
        obtain ⟨⟨result, info, s₂⟩, hcall, rfl⟩ := Option.map_eq_some_iff.mp h
        exact (Screen.getNextEntry_spec hcall).2.1.trans hopened

end Disk

/-! ## The first call -/

section FirstCall

variable {k : Kernel Pointers} {fd : Int} {dir : Nat}

/-- A directory is opened if there are pages for its structure and its record. -/
theorem exists_syscallOpenDir_iff {slot : Nat}
    (hslot : k.getFirstFreeFileDescriptor k.currentProcess = some slot) :
    (∃ r, k.syscallOpenDir 0 = .ok r) ↔ 2 ≤ k.memory.free := by
  constructor
  · rintro ⟨r, h⟩
    obtain ⟨hnone, -⟩ | ⟨_, i, -, hi, hfree, herror | ⟨-, j, hj, hne, hfree', -⟩⟩ :=
      Kernel.openResource_cases h
    · cases hslot.symm.trans hnone
    · exact absurd rfl herror.1
    · have hcount := Kernel.takePage_free hi hfree
      have hmore : (k.takePage i).memory.free ≠ 0 := by
        intro hfull
        have hused := freeCells_eq_zero.mp hfull j hj
        rw [Kernel.takePage_marks, if_neg hne] at hused
        cases hused.symm.trans hfree'
      omega
  · intro hpages
    rw [Kernel.syscallOpenDir, Kernel.openResource, hslot]
    obtain ⟨i, hi, hfree, file, -, hfile, hpage⟩ | ⟨hfull, -⟩ := k.allocateKernelPage_cases
    · have hcount := Kernel.takePage_free hi hfree
      obtain ⟨j, -, -, resource, -, hresource, hpage'⟩ | ⟨hfull', -⟩ :=
        (k.takePage i).allocateKernelPage_cases
      · refine ⟨⟨slot, [.dirOpen file], ((k.takePage i).takePage j).setFile slot resource
          |>.setResource resource ⟨.folder, file⟩⟩, ?_⟩
        dsimp only
        rw [hpage]
        dsimp only
        rw [if_neg hfile, if_neg (not_not_intro rfl), hpage']
        dsimp only
        rw [if_neg hresource]
      · omega
    · omega

theorem syscallOpenDir_value {slot : Nat} {r : FileResult}
    (hslot : k.getFirstFreeFileDescriptor k.currentProcess = some slot)
    (h : k.syscallOpenDir 0 = .ok r) : r.value = slot := by
  obtain ⟨hnone, -⟩ | ⟨fd, _, hfd, -, -, herror | ⟨-, _, -, -, -, rfl⟩⟩ :=
    Kernel.openResource_cases h
  · cases hslot.symm.trans hnone
  · exact absurd rfl herror.1
  · exact congrArg _ (Option.some.inj (hfd.symm.trans hslot))

/-- An entry that is delivered is one of the directory. -/
theorem mem_of_fatDirRead {items : List Item} {endSlots rest : List Slot} {info : DirInfo}
    (hend : ∃ error, fatDirRead endSlots = .error error)
    (h : fatDirRead (items.flatMap Item.slots ++ endSlots) = .ok (info, rest)) :
    info ∈ items.filterMap Item.info? := by
  induction items with
  | nil =>
      obtain ⟨error, hend⟩ := hend
      cases hend.symm.trans h
  | cons item items ih =>
      rw [List.flatMap_cons, List.append_assoc] at h
      cases item with
      | free => exact ih h
      | entry longSlots info' =>
          rw [Item.slots, List.append_assoc, List.singleton_append, fatDirRead_entry] at h
          cases h
          exact List.mem_cons_self

theorem exists_nextEntry (h : k.LeadsTo fd dir) (cursor : List Slot) :
    ∃ entry r cursor', k.nextEntry fd cursor = .ok (entry, r, cursor') ∧
      ∀ delivered, entry = some delivered → ∃ info rest, fatDirRead cursor = .ok (info, rest) ∧
        delivered = Kernel.entryInfo info := by
  unfold Kernel.nextEntry
  cases hread : fatDirRead cursor with
  | error error =>
      obtain ⟨r, hr, -⟩ := Kernel.syscallGetNextEntry_error h error 0
      refine ⟨none, r, cursor, ?_, nofun⟩
      simp only [hr, bind, Except.bind]
  | ok p =>
      obtain ⟨info, rest⟩ := p
      cases hnext : fatDirNext rest with
      | error error =>
          obtain ⟨r, hr, -⟩ := Kernel.syscallGetNextEntry_ok h info error
          refine ⟨some (Kernel.entryInfo info), r, rest, ?_, ?_⟩
          · simp only [hnext, hr, bind, Except.bind]
          · exact fun delivered h ↦ ⟨info, rest, rfl, (Option.some.inj h).symm⟩
      | ok next =>
          obtain ⟨r, hr, -⟩ := Kernel.syscallGetNextEntry_ok h info 0
          refine ⟨some (Kernel.entryInfo info), r, next, ?_, ?_⟩
          · simp only [hnext, hr, bind, Except.bind]
          · exact fun delivered h ↦ ⟨info, rest, rfl, (Option.some.inj h).symm⟩

/-- A listing has an entry if the first call returns `0`. -/
theorem listing_eq_nil_iff {cursor cursor' : List Slot} {entry : Option FatEntryInfo}
    {r : FileResult} {n : Nat} {infos : List FatEntryInfo}
    (hcall : k.nextEntry fd cursor = .ok (entry, r, cursor'))
    (h : k.listing fd cursor (n + 1) = some infos) : r.value = 0 ↔ infos ≠ [] := by
  simp only [Kernel.listing, hcall] at h
  split_ifs at h with hvalue
  · cases h
    exact iff_of_false hvalue (not_not_intro rfl)
  · obtain ⟨info, -, h⟩ := Option.bind_eq_some_iff.mp h
    obtain ⟨rest, -, h⟩ := Option.bind_eq_some_iff.mp h
    cases h
    exact iff_of_true (not_not.mp hvalue) (List.cons_ne_nil info rest)

/-- The first call for a directory whose names fit. -/
theorem getNextEntry_reported {s : Screen} {t : Folder} (h : s.kernel.LeadsTo fd dir)
    (hcursor : s.cursors fd = t.slots)
    (hnames : ∀ info ∈ t.entries, info.name.length < FAT_MAX_NAME_SIZE) :
    ∃ result info s', s.getNextEntry fd = some (result, info, s') ∧
      (result = 0 ↔ t.reported ≠ []) := by
  obtain ⟨entry, r, cursor, hcall, hdelivered⟩ := exists_nextEntry h t.slots
  have hlisting : s.kernel.listing fd t.slots (t.slots.length + 1) =
      some (t.reported.map Kernel.entryInfo) :=
    Kernel.listing_eq h t.items t.unused rfl (Nat.lt_succ_self _)
  have hzero : r.value = 0 ↔ t.reported ≠ [] := by
    rw [listing_eq_nil_iff hcall hlisting, ne_eq, List.map_eq_nil_iff]
  cases entry with
  | none =>
      refine ⟨r.value, ⟨filled FAT_MAX_NAME_SIZE [], none⟩, s.returned fd r cursor,
        ?_, hzero⟩
      simp only [Screen.getNextEntry, hcursor, hcall]
      rfl
  | some delivered =>
      obtain ⟨info, rest, hread, rfl⟩ := hdelivered delivered rfl
      have hmem : info ∈ t.entries := by
        refine mem_of_fatDirRead ?_ hread
        unfold Folder.endSlots
        cases t.unused with
        | none => exact ⟨_, rfl⟩
        | some slots => exact ⟨_, rfl⟩
      have hroom : ([] : List UInt8).length + (Kernel.entryInfo info).name.length ≤
          FAT_MAX_NAME_SIZE := by
        have hlength := hnames info hmem
        rw [Kernel.entryInfo, List.length_take, List.length_nil]
        omega
      refine ⟨r.value, ⟨filled FAT_MAX_NAME_SIZE (Kernel.entryInfo info).name,
        some (Kernel.entryInfo info).isDir⟩, s.returned fd r cursor, ?_, hzero⟩
      simp only [Screen.getNextEntry, hcursor, hcall]
      have hstore := storeAll_filled hroom
      rw [List.length_nil, List.nil_append] at hstore
      simp only [Except.toOption, Option.bind_eq_bind, Option.bind_some, hstore]

end FirstCall

/-! ## The whole tree -/

/-- A process can print a tree: the path leads to it, the paths and the names fit the buffers of
`print_tree`, and there is a descriptor for every directory. -/
structure Listable (disk : Disk) (k : Kernel Pointers) (path text : List UInt8) (t : Folder) :
    Prop where
  spells : Spells path text
  holds : ∀ directory ∈ t.directories text, disk directory.1 = some directory.2
  paths : ∀ directory ∈ t.directories text, directory.1.length < MAX_COMMAND_DIMENSION
  names : ∀ info ∈ t.infos, info.name.length < FAT_MAX_NAME_SIZE ∧ info.name ≠ [] ∧
    0 ∉ info.name ∧ SLASH ∉ info.name
  descriptors : (t.directories text).length ≤
    (List.range MAX_FILES_PER_PROCESS).countP fun fd ↦ k.current.files fd = 0

/-- `print_tree(path, 0)` returns, has printed everything below the directory, and its loops have
ended where `syscall_get_next_entry` has returned something other than `0`. -/
def PrintsTree (disk : Disk) (k : Kernel Pointers) (cursors : Int → List Slot)
    (path : List UInt8) (t : Folder) : Prop :=
  ∃ fuel s', disk.printTree fuel path 0 ⟨k, cursors, [], []⟩ = some s' ∧
    s'.output = t.lines 0 ∧ ∀ result ∈ s'.results, EndsListing result ↔ result ≠ 0

namespace Listable

variable {disk : Disk} {k : Kernel Pointers} {path text : List UInt8} {t : Folder}
  {s s' : Screen} {depth fuel : Nat} {r : FileResult}

theorem chain (h : Listable disk k path text t) : disk text = some t.slots :=
  h.holds (text, t.slots) List.mem_cons_self

theorem exists_slot (h : Listable disk k path text t) :
    ∃ slot, k.getFirstFreeFileDescriptor k.currentProcess = some slot := by
  cases hslot : k.getFirstFreeFileDescriptor k.currentProcess with
  | some slot => exact ⟨slot, rfl⟩
  | none =>
      have hused := Kernel.getFirstFreeFileDescriptor_eq_none.mp hslot
      have hzero :
          ((List.range MAX_FILES_PER_PROCESS).countP fun fd ↦ k.current.files fd = 0) = 0 :=
        List.countP_eq_zero.mpr fun fd hfd hfree ↦
          hused fd (List.mem_range.mp hfd) (of_decide_eq_true hfree)
      have hdescriptors := h.descriptors
      rw [hzero, Folder.directories, List.length_cons] at hdescriptors
      omega

/-- `print_tree` returns only if it can open the directory. -/
theorem two_le_free (h : Listable disk s.kernel path text t)
    (hrun : disk.printTree fuel path depth s = some s') : 2 ≤ s.kernel.memory.free := by
  obtain ⟨slot, hslot⟩ := h.exists_slot
  obtain _ | fuel := fuel
  · cases hrun
  · rw [Disk.printTree, readString_eq h.spells, Option.bind_eq_bind, Option.bind_some] at hrun
    obtain ⟨⟨fd, s₁⟩, hopen, -⟩ := Option.bind_eq_some_iff.mp hrun
    obtain ⟨r, hr, -⟩ := (Screen.openDir_eq_some_iff h.chain).mp hopen
    exact (exists_syscallOpenDir_iff hslot).mp ⟨r, hr⟩

/-- If it can, it makes one call of `syscall_get_next_entry`. -/
theorem printTree_spec (h : Listable disk s.kernel path text t)
    (hpages : 2 ≤ s.kernel.memory.free) (depth : Nat) :
    ∃ s' result, disk.printTree 2 path depth s = some s' ∧
      (∀ fuel s'', disk.printTree fuel path depth s = some s'' → s'' = s') ∧
      s'.results = s.results ++ [result] ∧ EndsListing result ∧
      (result = 0 ↔ t.reported ≠ []) := by
  obtain ⟨slot, hslot⟩ := h.exists_slot
  obtain ⟨r, hr⟩ := (exists_syscallOpenDir_iff hslot).mpr hpages
  have hvalue : 0 ≤ r.value := by
    rw [syscallOpenDir_value hslot hr]
    exact Int.natCast_nonneg slot
  obtain ⟨dir, hleads⟩ := Kernel.leadsTo_of_open hr hvalue
  have hnames : ∀ info ∈ t.entries, info.name.length < FAT_MAX_NAME_SIZE :=
    fun info hinfo ↦ (h.names info (t.entries_subset hinfo)).1
  obtain ⟨result, info, s', hcall, hzero⟩ :=
    getNextEntry_reported (s := s.opened r t.slots) hleads (Function.update_self ..) hnames
  have hopen : s.openDir disk text = some (r.value, s.opened r t.slots) :=
    (Screen.openDir_eq_some_iff h.chain).mpr ⟨r, hr, rfl, rfl⟩
  have hloop : ∀ fuel, disk.printTree (fuel + 1) path depth s =
      disk.printEntries fuel r.value path depth (s.opened r t.slots) := by
    intro fuel
    have hfd : r.value ≠ -1 := by omega
    rw [Disk.printTree, readString_eq h.spells, Option.bind_eq_bind, Option.bind_some, hopen]
    exact if_neg hfd
  have hcalled : ∀ fuel, disk.printTree (fuel + 2) path depth s = some s' := by
    intro fuel
    rw [hloop, Disk.printEntries_eq, hcall]
    rfl
  obtain ⟨hends, -, hresults⟩ := Screen.getNextEntry_spec hcall
  refine ⟨s', result, hcalled 0, fun fuel s'' hrun ↦ ?_, hresults, hends, hzero⟩
  obtain _ | _ | fuel := fuel
  · cases hrun
  · rw [hloop] at hrun
    cases hrun
  · exact Option.some.inj (hrun.symm.trans (hcalled fuel))

end Listable

/-- `print_tree` prints a tree exactly if it can open the directory, nothing below it is to be
printed, and no call reports an entry. -/
theorem printsTree_iff {disk : Disk} {k : Kernel Pointers} {cursors : Int → List Slot}
    {path text : List UInt8} {t : Folder} (h : Listable disk k path text t) :
    PrintsTree disk k cursors path t ↔
      2 ≤ k.memory.free ∧ (∀ info ∈ t.entries, IsDots info.name) ∧ t.reported = [] := by
  rw [← t.lines_eq_nil_iff 0]
  constructor
  · rintro ⟨fuel, s', hrun, houtput, hresults⟩
    have hpages := Listable.two_le_free (s := ⟨k, cursors, [], []⟩) h hrun
    obtain ⟨_, result, -, hunique, hresult, hends, hzero⟩ :=
      h.printTree_spec (s := ⟨k, cursors, [], []⟩) hpages 0
    obtain rfl := hunique fuel s' hrun
    have hmem : result ∈ s'.results := hresult ▸ List.mem_singleton_self result
    have hne : result ≠ 0 := (hresults result hmem).mp hends
    rw [ne_eq, hzero, not_not] at hne
    exact ⟨hpages, houtput.symm.trans (Disk.printTree_output hrun), hne⟩
  · rintro ⟨hpages, hlines, hreported⟩
    obtain ⟨s', result, hrun, -, hresult, hends, hzero⟩ :=
      h.printTree_spec (s := ⟨k, cursors, [], []⟩) hpages 0
    have hne : result ≠ 0 := fun heq ↦ hzero.mp heq hreported
    refine ⟨2, s', hrun, (Disk.printTree_output hrun).trans hlines.symm, fun result' hmem ↦ ?_⟩
    rw [hresult] at hmem
    obtain rfl := List.mem_singleton.mp hmem
    exact iff_of_true hends hne

/-- A disk with a tree and nothing else. -/
def Folder.disk (text : List UInt8) (t : Folder) : Disk := fun path ↦
  ((t.directories text).find? (·.1 = path)).map Prod.snd

/-- The root directory is empty. -/
theorem printsTree_empty :
    PrintsTree (Folder.disk [SLASH] ⟨[], some []⟩) (Kernel.boot .roundRobin fun _ ↦ 0)
      (fun _ ↦ []) [SLASH, 0] ⟨[], some []⟩ := by
  have hlistable : Listable (Folder.disk [SLASH] ⟨[], some []⟩) (Kernel.boot .roundRobin fun _ ↦ 0)
      [SLASH, 0] [SLASH] ⟨[], some []⟩ :=
    ⟨⟨by decide, [], rfl⟩, by decide, by decide, by decide, by decide⟩
  exact (printsTree_iff hlistable).mpr ⟨two_le_boot_free _ _, nofun, rfl⟩

/-- The root directory with a directory in which there is a file. -/
def nested : Folder where
  nodes := [.folder 0 ⟨0x10, [0x64]⟩ (by decide) (by decide)
    [.dots ⟨0x10, [DOT]⟩ (.inl rfl), .dots ⟨0x10, [DOT, DOT]⟩ (.inr rfl),
      .file 0 ⟨0x20, [0x61]⟩ (by decide) (by decide)] (some [])]
  unused := some []

/-- Neither the directory nor the file is printed. -/
theorem printsTree_false : ¬ ∀ (disk : Disk) (k : Kernel Pointers) (cursors : Int → List Slot)
    (path text : List UInt8) (t : Folder), Listable disk k path text t → 2 ≤ k.memory.free →
      PrintsTree disk k cursors path t := by
  intro h
  have hlistable : Listable (nested.disk [SLASH]) (Kernel.boot .roundRobin fun _ ↦ 0)
      [SLASH, 0] [SLASH] nested :=
    ⟨⟨by decide, [], rfl⟩, by decide, by decide, by decide, by decide⟩
  obtain ⟨fuel, s', hrun, houtput, -⟩ := h _ _ (fun _ ↦ []) _ _ _ hlistable (two_le_boot_free _ _)
  have hlines : nested.lines 0 = [] := houtput.symm.trans (Disk.printTree_output hrun)
  exact absurd hlines (by decide)

/-- The command `tree` writes an error or the path, and no entry. -/
theorem Disk.handleTree_output {disk : Disk} {fuel : Nat} {buffer workingDirectory : List UInt8}
    {s s' : Screen} (h : disk.handleTree fuel buffer workingDirectory s = some s') :
    ∃ path, s'.output = s.output ++ cannotOpen path ∨
      s'.output = s.output ++ path ++ [LINE_FEED] := by
  obtain ⟨⟨_, target⟩, -, h⟩ := Option.bind_eq_some_iff.mp h
  obtain ⟨fullpath, -, h⟩ := Option.bind_eq_some_iff.mp h
  obtain ⟨fullpath', -, h⟩ := Option.bind_eq_some_iff.mp h
  obtain ⟨path, -, h⟩ := Option.bind_eq_some_iff.mp h
  obtain ⟨⟨fd, s₁⟩, hopen, h⟩ := Option.bind_eq_some_iff.mp h
  have hopened := Screen.openDir_output hopen
  refine ⟨path, ?_⟩
  dsimp only at h
  split_ifs at h
  · cases h
    exact Or.inl (congrArg (· ++ cannotOpen path) hopened)
  · refine Or.inr ((printTree_output h).trans ?_)
    exact congrArg (· ++ path ++ [LINE_FEED]) hopened

end DemosOS.Shell
