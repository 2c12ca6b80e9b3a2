import Mathlib.Data.UInt
import DemosOS.Files.Calls
import DemosOS.Files.Lifecycle
import DemosOS.Lib.Buffer

/-!
# Listing a directory

A directory of the FAT library is a chain of slots, cut into clusters.  A slot is free, or
a part of a long name, or it has a short name and the attributes of an entry, or it marks the
end.  `fat_dir_read` delivers the entry at the cursor and leaves the cursor on its slot with
the short name; `fat_dir_next` moves to the next slot, also into the next cluster, and reports
the end of the chain.

The system call makes both calls for each entry and fails if either does, although an entry
has then been delivered: the last slot of the chain is not listed.
-/

namespace DemosOS

open Lib

/-! ## Slots -/

/-- A slot of a directory.  The entry of a short name is what `fat_dir_read` delivers there,
with the long name if it has one. -/
inductive Slot
  | /-- A deleted or unused slot. -/
    free
  | /-- A part of the long name of the entry that follows. -/
    long
  | /-- The slot with the short name. -/
    short (info : DirInfo)
  | /-- The end marker. -/
    last
deriving DecidableEq, Repr

def FAT_ERR_EOF : Int := -6

def FAT_ERR_BROKEN : Int := -2

/-- What follows a part of a long name: further parts, and the short name. -/
def parseLfnName : List Slot → Except Int (DirInfo × List Slot)
  | .long :: cursor => parseLfnName cursor
  | .short info :: cursor => .ok (info, .short info :: cursor)
  | [] => .error FAT_ERR_EOF
  | _ :: _ => .error FAT_ERR_BROKEN

/-- `fat_dir_read`, on the slots from the cursor on. -/
def fatDirRead : List Slot → Except Int (DirInfo × List Slot)
  | [] => .error FAT_ERR_EOF
  | .last :: _ => .error FAT_ERR_EOF
  | .free :: cursor => fatDirRead cursor
  | .long :: cursor => parseLfnName cursor
  | .short info :: cursor => .ok (info, .short info :: cursor)

/-- `fat_dir_next`. -/
def fatDirNext : List Slot → Except Int (List Slot)
  | _ :: slot :: cursor => .ok (slot :: cursor)
  | _ => .error FAT_ERR_EOF

/-! ## The calls of a listing -/

namespace Kernel

/-- `syscall_get_next_entry` on an open directory, with the cursor of the library. -/
def nextEntry (fileDescriptor : Int) (cursor : List Slot) (k : Kernel Pointers) :
    Except Fault (Option FatEntryInfo × FileResult × List Slot) :=
  match fatDirRead cursor with
  | .error error => do
      let (entry, r) ← k.syscallGetNextEntry fileDescriptor (.error error) 0
      .ok (entry, r, cursor)
  | .ok (info, cursor) =>
      match fatDirNext cursor with
      | .error error => do
          let (entry, r) ← k.syscallGetNextEntry fileDescriptor (.ok info) error
          .ok (entry, r, cursor)
      | .ok cursor => do
          let (entry, r) ← k.syscallGetNextEntry fileDescriptor (.ok info) 0
          .ok (entry, r, cursor)

/-- Entries are read until a call returns something other than zero, as in `handle_ls`; the
last argument bounds the number of calls. -/
def listing (fileDescriptor : Int) (cursor : List Slot) (k : Kernel Pointers) :
    Nat → Option (List FatEntryInfo)
  | 0 => none
  | calls + 1 =>
      match k.nextEntry fileDescriptor cursor with
      | .error _ => none
      | .ok (entry, r, cursor) =>
          if r.value ≠ 0 then some []
          else do
            let info ← entry
            let infos ← listing fileDescriptor cursor r.kernel calls
            some (info :: infos)

end Kernel

/-! ## Directories -/

/-- A deleted slot, or an entry with the number of slots for its long name. -/
inductive Item
  | free
  | entry (longSlots : Nat) (info : DirInfo)
deriving DecidableEq, Repr

def Item.slots : Item → List Slot
  | .free => [.free]
  | .entry longSlots info => List.replicate longSlots .long ++ [.short info]

def Item.info? : Item → Option DirInfo
  | .free => none
  | .entry _ info => some info

/-- The content of a directory: deleted slots and entries in any order, and then the end
marker with unused slots behind it, or the end of the chain. -/
structure Directory where
  items : List Item
  unused : Option (List Slot)
  names : ∀ info ∈ items.filterMap Item.info?, info.name.length ≤ 255

namespace Directory

/-- The entries that are not deleted, as the caller is to see them. -/
def entries (d : Directory) : List FatEntryInfo :=
  (d.items.filterMap Item.info?).map fun info ↦ ⟨info.name, info.attr &&& FAT_ATTR_DIR ≠ 0⟩

/-- The slots behind the entries. -/
def endSlots (d : Directory) : List Slot :=
  match d.unused with
  | some slots => .last :: slots
  | none => []

/-- All slots of the chain. -/
def slots (d : Directory) : List Slot := d.items.flatMap Item.slots ++ d.endSlots

/-- The very last slot of the chain has an entry. -/
def EndsInEntry (d : Directory) : Prop :=
  d.unused = none ∧ d.items.getLast?.any (·.info?.isSome)

instance (d : Directory) : Decidable d.EndsInEntry := inferInstanceAs (Decidable (_ ∧ _))

end Directory

/-! ## What the library does -/

section Reading

variable {info : DirInfo} {cursor : List Slot} {k : Kernel Pointers}
  {fileDescriptor : Int} {n : Nat}

theorem parseLfnName_replicate (longSlots : Nat) (info : DirInfo) (cursor : List Slot) :
    parseLfnName (List.replicate longSlots .long ++ .short info :: cursor) =
      .ok (info, .short info :: cursor) := by
  induction longSlots with
  | zero => rfl
  | succ longSlots ih => exact ih

/-- An entry is delivered with the cursor on its last slot. -/
theorem fatDirRead_entry (longSlots : Nat) (info : DirInfo) (cursor : List Slot) :
    fatDirRead (List.replicate longSlots .long ++ .short info :: cursor) =
      .ok (info, .short info :: cursor) := by
  cases longSlots with
  | zero => rfl
  | succ longSlots => exact parseLfnName_replicate longSlots info cursor

/-- A descriptor that leads to a structure of the library. -/
def Kernel.LeadsTo (fileDescriptor : Int) (dir : Nat) (k : Kernel Pointers) : Prop :=
  dir ≠ 0 ∧ ∃ resource, k.fileSlot fileDescriptor = .ok resource ∧
    k.followResource resource = .ok dir

namespace Kernel

variable {dir : Nat}

theorem syscallGetNextEntry_error (h : k.LeadsTo fileDescriptor dir) (error nextError : Int) :
    ∃ r, k.syscallGetNextEntry fileDescriptor (.error error) nextError = .ok (none, r) ∧
      r.value = -1 := by
  obtain ⟨hdir, resource, hslot, hfollow⟩ := h
  refine ⟨⟨-1, [.dirRead dir], k⟩, ?_, rfl⟩
  simp only [syscallGetNextEntry, hslot, hfollow, bind, Except.bind, if_neg hdir]

theorem syscallGetNextEntry_ok (h : k.LeadsTo fileDescriptor dir) (info : DirInfo)
    (nextError : Int) :
    ∃ r, k.syscallGetNextEntry fileDescriptor (.ok info) nextError =
    .ok (some (entryInfo info), r) ∧
      r.value = (if nextError ≠ 0 then -1 else 0) ∧ r.kernel = k := by
  obtain ⟨hdir, resource, hslot, hfollow⟩ := h
  refine ⟨⟨if nextError ≠ 0 then -1 else 0, [.dirRead dir, .dirNext dir], k⟩, ?_, rfl, rfl⟩
  simp only [syscallGetNextEntry, hslot, hfollow, bind, Except.bind, if_neg hdir]

/-- At the end of the entries the listing ends. -/
theorem listing_end (h : k.LeadsTo fileDescriptor dir) {error : Int}
    (hread : fatDirRead cursor = .error error) :
    k.listing fileDescriptor cursor (n + 1) = some [] := by
  obtain ⟨r, hr, hvalue⟩ := syscallGetNextEntry_error h error 0
  simp only [listing, nextEntry, hread, hr, bind, Except.bind, hvalue]
  rfl

/-- An entry is listed if the chain goes on behind it. -/
theorem listing_entry (h : k.LeadsTo fileDescriptor dir) {slot : Slot} {rest : List Slot}
    (hread : fatDirRead cursor = .ok (info, .short info :: slot :: rest)) :
    k.listing fileDescriptor cursor (n + 1) =
      (k.listing fileDescriptor (slot :: rest) n).map (entryInfo info :: ·) := by
  obtain ⟨r, hr, hvalue, hkernel⟩ := syscallGetNextEntry_ok h info 0
  rw [if_neg (not_not_intro rfl)] at hvalue
  simp only [listing, nextEntry, hread, fatDirNext, hr, bind, Except.bind, hvalue, hkernel]
  cases k.listing fileDescriptor (slot :: rest) n <;> rfl

/-- An entry in the last slot is not listed. -/
theorem listing_last (h : k.LeadsTo fileDescriptor dir)
    (hread : fatDirRead cursor = .ok (info, [.short info])) :
    k.listing fileDescriptor cursor (n + 1) = some [] := by
  obtain ⟨r, hr, hvalue, -⟩ := syscallGetNextEntry_ok h info FAT_ERR_EOF
  simp only [listing, nextEntry, hread, fatDirNext, hr, bind, Except.bind, hvalue]
  rfl

/-- Slots that `fat_dir_read` passes over make no difference. -/
theorem listing_congr {cursor' : List Slot} (h : fatDirRead cursor = fatDirRead cursor')
    (hlast : ∀ error, fatDirRead cursor' = .error error → k.LeadsTo fileDescriptor dir) :
    k.listing fileDescriptor cursor n = k.listing fileDescriptor cursor' n := by
  cases n with
  | zero => rfl
  | succ n =>
      cases hread : fatDirRead cursor' with
      | error error =>
          have hleads := hlast error hread
          rw [listing_end hleads (h.trans hread), listing_end hleads hread]
      | ok p => simp only [listing, nextEntry, h, hread]

end Kernel

/-! ## The whole listing -/

/-- The entries that are listed: all of them but one in the very last slot. -/
def listed (items : List Item) (endSlots : List Slot) : List DirInfo :=
  if endSlots = [] ∧ items.getLast?.any (·.info?.isSome) then
    (items.filterMap Item.info?).dropLast
  else items.filterMap Item.info?

theorem listed_free (items : List Item) (endSlots : List Slot) :
    listed (.free :: items) endSlots = listed items endSlots := by
  have hfilter : (Item.free :: items).filterMap Item.info? = items.filterMap Item.info? :=
    List.filterMap_cons_none rfl
  cases items with
  | nil => simp [listed, Item.info?]
  | cons item items => rw [listed, listed, hfilter, List.getLast?_cons_cons]

theorem listed_entry (longSlots : Nat) (info : DirInfo) {items : List Item}
    {endSlots : List Slot} (h : items ≠ [] ∨ endSlots ≠ []) :
    listed (.entry longSlots info :: items) endSlots = info :: listed items endSlots := by
  have hfilter : (Item.entry longSlots info :: items).filterMap Item.info? =
      info :: items.filterMap Item.info? := List.filterMap_cons_some rfl
  cases items with
  | nil =>
      have hend := h.resolve_left (not_not_intro rfl)
      rw [listed, listed, if_neg fun hand ↦ hend hand.1, if_neg fun hand ↦ hend hand.1, hfilter]
  | cons item items =>
      rw [listed, listed, hfilter, List.getLast?_cons_cons]
      split_ifs with hlast
      · -- the last entry is one of those that follow
        have hmem : (item :: items).filterMap Item.info? ≠ [] := by
          obtain ⟨last, hget, hsome⟩ := (Option.any_eq_true _ _).mp hlast.2
          obtain ⟨info', hinfo⟩ := Option.isSome_iff_exists.mp hsome
          exact List.ne_nil_of_mem (List.mem_filterMap.mpr
            ⟨last, List.mem_of_getLast? hget, hinfo⟩)
        rw [List.dropLast_cons_of_ne_nil hmem]
      · rfl

theorem flatMap_slots_ne_nil {items : List Item} (h : items ≠ []) :
    items.flatMap Item.slots ≠ [] := by
  obtain ⟨item, items, rfl⟩ := List.exists_cons_of_ne_nil h
  cases item <;> simp [Item.slots]

/-- The listing of the given slots, for enough calls. -/
theorem Kernel.listing_eq {dir : Nat} (h : k.LeadsTo fileDescriptor dir) (items : List Item)
    (unused : Option (List Slot)) {endSlots : List Slot}
    (hend : endSlots = match unused with | some slots => .last :: slots | none => [])
    (hn : (items.flatMap Item.slots ++ endSlots).length < n) :
    k.listing fileDescriptor (items.flatMap Item.slots ++ endSlots) n =
      some ((listed items endSlots).map entryInfo) := by
  induction items generalizing n with
  | nil =>
      obtain ⟨n, rfl⟩ := Nat.exists_eq_succ_of_ne_zero (Nat.ne_of_gt (Nat.zero_lt_of_lt hn))
      have hread : fatDirRead endSlots = .error FAT_ERR_EOF := by
        rw [hend]
        cases unused <;> rfl
      rw [List.flatMap_nil, List.nil_append, listing_end h hread]
      simp [listed]
  | cons item items ih =>
      rw [List.flatMap_cons, List.append_assoc] at hn ⊢
      cases item with
      | free =>
          rw [listed_free]
          have hcongr : k.listing fileDescriptor
              (Item.free.slots ++ (items.flatMap Item.slots ++ endSlots)) n =
                k.listing fileDescriptor (items.flatMap Item.slots ++ endSlots) n :=
            listing_congr rfl fun _ _ ↦ h
          rw [hcongr]
          exact ih (by rw [List.length_append] at hn; omega)
      | entry longSlots info =>
          obtain ⟨n, rfl⟩ := Nat.exists_eq_succ_of_ne_zero (Nat.ne_of_gt (Nat.zero_lt_of_lt hn))
          have hread : fatDirRead ((Item.entry longSlots info).slots ++
              (items.flatMap Item.slots ++ endSlots)) =
                .ok (info, .short info :: (items.flatMap Item.slots ++ endSlots)) := by
            rw [Item.slots, List.append_assoc]
            exact fatDirRead_entry longSlots info _
          by_cases hlast : items = [] ∧ endSlots = []
          · obtain ⟨rfl, hnil⟩ := hlast
            rw [hnil] at hread ⊢
            rw [listing_last h hread]
            simp [listed, Item.info?]
          · have hmore : items ≠ [] ∨ endSlots ≠ [] := not_and_or.mp hlast
            have hne : items.flatMap Item.slots ++ endSlots ≠ [] := by
              rcases hmore with hitems | hslots
              · exact List.append_ne_nil_of_left_ne_nil (flatMap_slots_ne_nil hitems) _
              · exact List.append_ne_nil_of_right_ne_nil _ hslots
            obtain ⟨slot, rest, hslots⟩ := List.exists_cons_of_ne_nil hne
            have hlength : (items.flatMap Item.slots ++ endSlots).length < n := by
              rw [List.length_append, Item.slots, List.length_append, List.length_singleton] at hn
              omega
            have hrest := ih hlength
            rw [hslots] at hread hrest ⊢
            rw [listing_entry h hread, hrest, listed_entry longSlots info hmore]
            rfl

/-- A directory that has been opened can be followed through its descriptor. -/
theorem Kernel.leadsTo_of_open {r : FileResult} (h : k.syscallOpenDir 0 = .ok r)
    (hfd : 0 ≤ r.value) : ∃ dir, r.kernel.LeadsTo r.value dir := by
  obtain ⟨-, rfl⟩ | ⟨fd, i, hfree, -, -, herror | ⟨-, j, -, -, -, rfl⟩⟩ := openResource_cases h
  · exact absurd (show (0 : Int) ≤ -1 from hfd) (by decide)
  · exact absurd rfl herror.1
  · have hlt := (getFirstFreeFileDescriptor_eq_some hfree).1
    refine ⟨pageAddress i + VA_START, address_ne_zero i, pageAddress j + VA_START, ?_, ?_⟩
    · have hslot : (k.opened .folder fd i j).current.files fd = pageAddress j + VA_START := by
        have hset := Globals.modifyPcb_pcb_self (g := ((k.takePage i).takePage j).toGlobals)
          (p := ((k.takePage i).takePage j).currentProcess)
          (f := fun b ↦ { b with files := Function.update b.files fd (pageAddress j + VA_START) })
        exact (congrArg (fun b ↦ b.files fd) hset).trans (Function.update_self ..)
      refine (fileSlot_of_lt hlt _).trans (congrArg _ hslot)
    · rw [followResource, if_neg (address_ne_zero j)]
      exact congrArg (fun record ↦ Except.ok (FatResource.ptr record))
        (setResource_record _ _ _)

/-- The calls after `syscall_open_dir` yield the entries of the directory, each once and in
their order, exactly if the very last slot of the chain has none. -/
theorem listing_complete_iff (d : Directory) (k : Kernel Pointers) (r : FileResult) (calls : Nat)
    (hopen : k.syscallOpenDir 0 = .ok r) (hfd : 0 ≤ r.value) (hcalls : d.slots.length < calls) :
    r.kernel.listing r.value d.slots calls = some d.entries ↔ ¬ d.EndsInEntry := by
  obtain ⟨dir, hleads⟩ := Kernel.leadsTo_of_open hopen hfd
  have hentries : d.entries = (d.items.filterMap Item.info?).map Kernel.entryInfo :=
    List.map_congr_left fun info hinfo ↦ by
      rw [Kernel.entryInfo, List.take_of_length_le (d.names info hinfo)]
  have hlisting := Kernel.listing_eq hleads d.items d.unused rfl hcalls
  have hend : d.endSlots = [] ↔ d.unused = none := by
    unfold Directory.endSlots
    cases d.unused <;> simp
  have hlisted : r.kernel.listing r.value d.slots calls =
      some ((listed d.items d.endSlots).map Kernel.entryInfo) := hlisting
  rw [hlisted, hentries, Option.some.injEq, Directory.EndsInEntry, ← hend, listed]
  split_ifs with hlast
  · refine iff_of_false (fun heq ↦ ?_) (not_not_intro hlast)
    -- one entry is missing
    obtain ⟨last, hget, hsome⟩ := (Option.any_eq_true _ _).mp hlast.2
    obtain ⟨info, hinfo⟩ := Option.isSome_iff_exists.mp hsome
    have hmem := List.mem_filterMap.mpr ⟨last, List.mem_of_getLast? hget, hinfo⟩
    have hlength := congrArg List.length heq
    have hpos := List.length_pos_of_mem hmem
    rw [List.length_map, List.length_map, List.length_dropLast] at hlength
    omega
  · exact iff_of_true rfl hlast

/-- A kernel that has just been started opens a directory. -/
theorem exists_open : ∃ r, (Kernel.boot .roundRobin fun _ ↦ 0).syscallOpenDir 0 = .ok r ∧
    0 ≤ r.value := by
  have hrun : (((Kernel.boot .roundRobin fun _ ↦ 0).syscallOpenDir 0).toOption.any
      fun r ↦ 0 ≤ r.value) = true := by
    decide +kernel
  cases hr : (Kernel.boot .roundRobin fun _ ↦ 0).syscallOpenDir 0 with
  | error fault =>
      rw [hr] at hrun
      exact absurd hrun Bool.false_ne_true
  | ok r =>
      rw [hr] at hrun
      exact ⟨r, rfl, of_decide_eq_true hrun⟩

/-- A directory with a deleted slot, a folder with a long name, and an end marker. -/
theorem listing_complete_bin : ∃ r,
    (Kernel.boot .roundRobin fun _ ↦ 0).syscallOpenDir 0 = .ok r ∧
      r.kernel.listing r.value [.free, .long, .short ⟨0x10, [0x62, 0x69, 0x6E]⟩, .last] 5 =
        some [⟨[0x62, 0x69, 0x6E], true⟩] := by
  obtain ⟨r, hr, hfd⟩ := exists_open
  refine ⟨r, hr, ?_⟩
  exact (listing_complete_iff
    ⟨[.free, .entry 1 ⟨0x10, [0x62, 0x69, 0x6E]⟩], some [], by decide⟩ _ r 5 hr hfd
    (by decide)).mpr (by decide)

/-- A cluster that is full of entries: the last of them is not listed. -/
theorem listing_complete_false : ¬ ∀ (d : Directory) (k : Kernel Pointers) (r : FileResult)
    (calls : Nat), k.syscallOpenDir 0 = .ok r → 0 ≤ r.value → d.slots.length < calls →
      r.kernel.listing r.value d.slots calls = some d.entries := by
  intro h
  obtain ⟨r, hr, hfd⟩ := exists_open
  have hfull := h ⟨List.replicate 16 (.entry 0 ⟨0x20, [0x61]⟩), none, by decide⟩ _ r 17 hr hfd
    (by decide)
  exact absurd ((listing_complete_iff _ _ r 17 hr hfd (by decide)).mp hfull) (by decide)

end Reading

/-! ## The bytes of an entry -/

def FAT_MAX_NAME_SIZE : Nat := 64

/-- The offset of `name` in a `FatEntryInfo`, after the four bytes of `size`. -/
def nameOffset : Nat := 4

/-- The offset of `is_dir`, right after the name. -/
def isDirOffset : Nat := nameOffset + FAT_MAX_NAME_SIZE

/-- The size of a `FatEntryInfo`, which is a multiple of four. -/
def sizeofFatEntryInfo : Nat := 72

/-- The loop that copies a name, at character `i`: the addresses written, and the bytes. -/
def copyName (entryInfo i : Nat) : List UInt8 → List (Nat × UInt8)
  | [] => []
  | c :: name => (entryInfo + nameOffset + i, c) :: copyName entryInfo (i + 1) name

/-- What `syscall_get_next_entry` writes to the `FatEntryInfo` at the given address. -/
def entryWrites (entryInfo : Nat) (info : DirInfo) : List (Nat × UInt8) :=
  let size := if info.name.length < 255 then info.name.length else 255
  copyName entryInfo 0 (info.name.take size) ++
    [(entryInfo + isDirOffset, if info.attr &&& FAT_ATTR_DIR ≠ 0 then 1 else 0)]

/-- The memory after some bytes have been written. -/
def applyWrites (memory : Nat → UInt8) (writes : List (Nat × UInt8)) : Nat → UInt8 :=
  writes.foldl (fun memory write ↦ Function.update memory write.1 write.2) memory

/-- The bytes of the name in a `FatEntryInfo`. -/
def nameField (memory : Nat → UInt8) (entryInfo : Nat) : List UInt8 :=
  (List.range FAT_MAX_NAME_SIZE).map fun i ↦ memory (entryInfo + nameOffset + i)

/-- The entry has been written to where it belongs: nothing outside the `FatEntryInfo`, the
longest part of the name that fits with its `NUL`, and the attribute. -/
structure EntryFits (memory : Nat → UInt8) (entryInfo : Nat) (info : DirInfo) : Prop where
  inside : ∀ write ∈ entryWrites entryInfo info,
    entryInfo ≤ write.1 ∧ write.1 < entryInfo + sizeofFatEntryInfo
  name : Buffer.Spells (nameField (applyWrites memory (entryWrites entryInfo info)) entryInfo)
    (info.name.take (FAT_MAX_NAME_SIZE - 1))
  isDir : applyWrites memory (entryWrites entryInfo info) (entryInfo + isDirOffset) =
    if info.attr &&& FAT_ATTR_DIR ≠ 0 then 1 else 0

section Bytes

variable {memory : Nat → UInt8} {entryInfo i j address : Nat} {info : DirInfo}
  {name : List UInt8}

theorem applyWrites_append (memory : Nat → UInt8) (writes writes' : List (Nat × UInt8)) :
    applyWrites memory (writes ++ writes') = applyWrites (applyWrites memory writes) writes' :=
  List.foldl_append

/-- Addresses before and behind the characters keep their bytes. -/
theorem copyName_outside (h : address < entryInfo + nameOffset + i ∨
    entryInfo + nameOffset + i + name.length ≤ address) (memory : Nat → UInt8) :
    applyWrites memory (copyName entryInfo i name) address = memory address := by
  induction name generalizing i memory with
  | nil => rfl
  | cons c name ih =>
      rw [List.length_cons] at h
      have hne : address ≠ entryInfo + nameOffset + i := by omega
      refine (ih (by omega) (Function.update memory (entryInfo + nameOffset + i) c)).trans ?_
      exact Function.update_of_ne hne ..

/-- The characters are found where they were written. -/
theorem copyName_inside (h : j < name.length) (memory : Nat → UInt8) :
    applyWrites memory (copyName entryInfo i name) (entryInfo + nameOffset + i + j) = name[j] := by
  induction name generalizing i j memory with
  | nil => exact absurd h (Nat.not_lt_zero j)
  | cons c name ih =>
      cases j with
      | zero =>
          refine (copyName_outside (i := i + 1) (.inl (by omega)) _).trans ?_
          exact Function.update_self ..
      | succ j =>
          have hrest := ih (i := i + 1) (Nat.lt_of_succ_lt_succ h)
            (Function.update memory (entryInfo + nameOffset + i) c)
          rw [show entryInfo + nameOffset + (i + 1) + j = entryInfo + nameOffset + i + (j + 1) by
            omega] at hrest
          exact hrest

theorem mem_copyName {write : Nat × UInt8} (h : write ∈ copyName entryInfo i name) :
    entryInfo + nameOffset + i ≤ write.1 ∧
      write.1 < entryInfo + nameOffset + i + name.length := by
  induction name generalizing i with
  | nil => exact absurd h List.not_mem_nil
  | cons c name ih =>
      rw [List.length_cons]
      rcases List.mem_cons.mp h with rfl | h
      · exact ⟨Nat.le_refl _, by omega⟩
      · have := ih h
        omega

/-- The copied name and the attribute. -/
theorem entryWrites_eq (h : info.name.length ≤ 255) :
    entryWrites entryInfo info = copyName entryInfo 0 info.name ++
      [(entryInfo + isDirOffset, if info.attr &&& FAT_ATTR_DIR ≠ 0 then 1 else 0)] := by
  have hsize : (if info.name.length < 255 then info.name.length else 255) =
      info.name.length := by
    split_ifs <;> omega
  rw [entryWrites, hsize, List.take_length]

/-- A byte of the field afterwards: a character of the name, or the byte that was there. -/
theorem field_byte (hname : info.name.length ≤ 255) (hi : i < FAT_MAX_NAME_SIZE) :
    (nameField (applyWrites memory (entryWrites entryInfo info)) entryInfo)[i]? =
      some (info.name[i]?.getD (memory (entryInfo + nameOffset + i))) := by
  have hne : entryInfo + nameOffset + i ≠ entryInfo + isDirOffset := by
    rw [isDirOffset]
    omega
  rw [nameField, List.getElem?_map, List.getElem?_range hi, Option.map_some,
    entryWrites_eq hname, applyWrites_append]
  refine congrArg some ((Function.update_of_ne hne ..).trans ?_)
  by_cases hlt : i < info.name.length
  · rw [List.getElem?_eq_getElem hlt]
    exact copyName_inside (i := 0) hlt memory
  · rw [List.getElem?_eq_none (Nat.not_lt.mp hlt)]
    exact copyName_outside (.inr (by omega)) memory

/-- An entry is written to where it belongs exactly if its name is shorter than the field. -/
theorem entryFits_iff (memory : Nat → UInt8) (entryInfo : Nat) (info : DirInfo)
    (hname : info.name.length ≤ 255) (hclean : 0 ∉ info.name)
    (hcleared : ∀ i < FAT_MAX_NAME_SIZE, memory (entryInfo + nameOffset + i) = 0) :
    EntryFits memory entryInfo info ↔ info.name.length < FAT_MAX_NAME_SIZE := by
  constructor
  · intro h
    by_contra hlong
    -- the last byte of the field is a character of the name
    have hlast : (63 : Nat) < info.name.length := Nat.lt_of_lt_of_le (by decide)
      (Nat.not_lt.mp hlong)
    have hzero := h.name.getElem?_length
    have hlength : (info.name.take (FAT_MAX_NAME_SIZE - 1)).length = 63 := by
      rw [List.length_take]
      exact Nat.min_eq_left (Nat.le_of_lt hlast)
    rw [hlength, field_byte hname (by decide), List.getElem?_eq_getElem hlast] at hzero
    exact hclean (Option.some.inj hzero ▸ List.getElem_mem hlast)
  · intro h
    have htake : info.name.take (FAT_MAX_NAME_SIZE - 1) = info.name :=
      List.take_of_length_le (Nat.le_sub_one_of_lt h)
    refine ⟨fun write hwrite ↦ ?_, ?_, ?_⟩
    · rw [entryWrites_eq hname, List.mem_append, List.mem_singleton] at hwrite
      have hsizes : nameOffset + FAT_MAX_NAME_SIZE < sizeofFatEntryInfo := by decide
      rcases hwrite with hwrite | rfl
      · have := mem_copyName hwrite
        omega
      · exact ⟨Nat.le_add_right _ _, Nat.add_lt_add_left hsizes entryInfo⟩
    · have hfield : nameField (applyWrites memory (entryWrites entryInfo info)) entryInfo =
          Buffer.filled FAT_MAX_NAME_SIZE info.name := by
        refine List.ext_getElem? fun i ↦ ?_
        by_cases hi : i < FAT_MAX_NAME_SIZE
        · rw [field_byte hname hi, hcleared i hi, Buffer.filled]
          by_cases hlt : i < info.name.length
          · rw [List.getElem?_append_left hlt, List.getElem?_eq_getElem hlt]
            rfl
          · rw [List.getElem?_append_right (Nat.not_lt.mp hlt),
              List.getElem?_eq_none (Nat.not_lt.mp hlt), List.getElem?_replicate,
              if_pos (by omega)]
            rfl
        · rw [List.getElem?_eq_none (by rw [nameField, List.length_map, List.length_range]; omega),
            List.getElem?_eq_none (by rw [Buffer.filled_length (Nat.le_of_lt h)]; omega)]
      rw [hfield, htake]
      exact Buffer.spells_filled h hclean
    · rw [entryWrites_eq hname, applyWrites_append]
      exact Function.update_self ..

/-- An entry with a short name, in cleared memory. -/
theorem entryFits_iff_bin : EntryFits (fun _ ↦ 0) 0 ⟨0x10, [0x62, 0x69, 0x6E]⟩ :=
  (entryFits_iff _ 0 ⟨0x10, [0x62, 0x69, 0x6E]⟩ (by decide) (by decide) fun _ _ ↦ rfl).mpr
    (by decide)

/-- A name of 64 characters fills the field, and no `NUL` follows. -/
theorem entryFits_false : ¬ ∀ (memory : Nat → UInt8) (entryInfo : Nat) (info : DirInfo),
    info.name.length ≤ 255 → 0 ∉ info.name →
      (∀ i < FAT_MAX_NAME_SIZE, memory (entryInfo + nameOffset + i) = 0) →
        EntryFits memory entryInfo info := by
  intro h
  have hlong := h (fun _ ↦ 0) 0 ⟨0x20, List.replicate 64 0x61⟩ (by decide) (by decide)
    fun _ _ ↦ rfl
  exact absurd ((entryFits_iff _ 0 _ (by decide) (by decide) fun _ _ ↦ rfl).mp hlong) (by decide)

end Bytes

end DemosOS
