import DemosOS.Kernel.Memory

/-!
# File descriptors

The file system calls of `syscalls.c`.  A descriptor is an index of the array `files` of the
calling process; a slot holds `NULL` or the kernel address of a page with a `FatResource`
record, which points to a page with the `File` or `Dir` structure of the FAT library.

The library itself is seen through what it returns: every call of it takes the values it
will return as arguments, and leaves a `FatCall` that says which structure it was given.
What it writes into that structure is its own business.

A pointer that is followed although it is `NULL`, and an access outside the array, are a
`Fault`.  On the processor they read or write whatever the program of the caller has at that
address.
-/

namespace DemosOS

/-- A call of the FAT library, with the address of the structure it works on. -/
inductive FatCall
  | dirCreate (dir : Nat)
  | dirOpen (dir : Nat)
  | fileOpen (file : Nat)
  | fileClose (file : Nat)
  | fileWrite (file : Nat)
  | fileSeek (file : Nat)
  | fileRead (file : Nat)
  | dirRead (dir : Nat)
  | dirNext (dir : Nat)
deriving DecidableEq, Repr

/-- What a call does wrong. -/
inductive Fault
  | /-- The descriptor is not an index of `files`. -/
    slot (fileDescriptor : Int)
  | /-- `files[fd]` is followed, but it is `NULL`. -/
    nullResource
  | /-- The library is given a `NULL` structure. -/
    nullStructure
  | /-- `free_page` is given an address that is not a page of the allocator. -/
    notAPage (address : Nat)
deriving DecidableEq, Repr

/-- The result of a file system call: the value returned, the calls of the FAT library, and
the kernel afterwards. -/
structure FileResult where
  value : Int
  calls : List FatCall
  kernel : Kernel Pointers

/-- What `fat_dir_read` delivers in `DirInfo`. -/
structure DirInfo where
  attr : Nat
  name : List UInt8
deriving DecidableEq, Repr

/-- What `syscall_get_next_entry` writes into the `FatEntryInfo` of the caller. -/
structure FatEntryInfo where
  name : List UInt8
  isDir : Bool
deriving DecidableEq, Repr

def FAT_ATTR_DIR : Nat := 0x10

namespace Kernel

/-- `current_process->files[fd] = resource`. -/
def setFile (fd resource : Nat) (k : Kernel Pointers) : Kernel Pointers :=
  k.mapGlobals fun g ↦ g.modifyPcb g.currentProcess fun b ↦
    { b with files := Function.update b.files fd resource }

/-- Write the record at the kernel address `resource`. -/
def setResource (resource : Nat) (record : FatResource) (k : Kernel Pointers) : Kernel Pointers :=
  k.mapMemory fun m ↦ { m with fatResources := Function.update m.fatResources resource record }

/-- `get_first_free_file_descriptor`; `none` is `-1`. -/
def getFirstFreeFileDescriptor (process : PcbPtr) (k : Kernel Pointers) : Option Nat :=
  (List.range MAX_FILES_PER_PROCESS).find? fun i ↦ (k.pcb process).files i = 0

/-- `free_page`, called by a file system call that ignores its result. -/
def releasePage (address : Nat) (k : Kernel Pointers) : Except Fault (Kernel Pointers) :=
  match k.freePage address with
  | none => .error (.notAPage address)
  | some (_, k) => .ok k

/-! ## Opening -/

/-- The three calls that open something: the library fills a new structure (`call`), and on
success a record that points to it goes into the first free slot. -/
def openResource (resourceType : ResourceType) (call : Nat → FatCall) (onError : Int → Int)
    (error : Int) (k : Kernel Pointers) : Except Fault FileResult :=
  match k.getFirstFreeFileDescriptor k.currentProcess with
  | none => .ok ⟨-1, [], k⟩
  | some fileDescriptor =>
      match k.allocateKernelPage with
      | (file, k) =>
          if file = 0 then .error .nullStructure
          else if error ≠ 0 then do
            let k ← k.releasePage file
            .ok ⟨onError error, [call file], k⟩
          else
            match k.allocateKernelPage with
            | (resource, k) =>
                let k := k.setFile fileDescriptor resource
                if resource = 0 then .error .nullResource
                else
                  .ok ⟨fileDescriptor, [call file],
                    k.setResource resource ⟨resourceType, file⟩⟩

/-- `syscall_create_dir`. -/
def syscallCreateDir (error : Int) (k : Kernel Pointers) : Except Fault FileResult :=
  k.openResource .folder .dirCreate id error

/-- `syscall_open_dir`. -/
def syscallOpenDir (error : Int) (k : Kernel Pointers) : Except Fault FileResult :=
  k.openResource .folder .dirOpen (fun _ ↦ -1) error

/-- `syscall_open_file`. -/
def syscallOpenFile (error : Int) (k : Kernel Pointers) : Except Fault FileResult :=
  k.openResource .file .fileOpen (fun _ ↦ -1) error

/-! ## Closing, reading and writing -/

/-- The value of `current_process->files[fd]`. -/
def fileSlot (fileDescriptor : Int) (k : Kernel Pointers) : Except Fault Nat :=
  if 0 ≤ fileDescriptor ∧ fileDescriptor < MAX_FILES_PER_PROCESS then
    .ok (k.current.files fileDescriptor.toNat)
  else .error (.slot fileDescriptor)

/-- `resource->f`, or `resource->d`: the two share their place in the record. -/
def followResource (resource : Nat) (k : Kernel Pointers) : Except Fault Nat :=
  if resource = 0 then .error .nullResource else .ok (k.memory.fatResources resource).ptr

/-- The structure is given to the FAT library, which follows it. -/
def requireStructure (file : Nat) : Except Fault Unit :=
  if file = 0 then .error .nullStructure else .ok ()

/-- `syscall_close_file`. -/
def syscallCloseFile (fileDescriptor error : Int) (k : Kernel Pointers) :
    Except Fault FileResult :=
  if fileDescriptor < 0 ∨ fileDescriptor ≥ MAX_FILES_PER_PROCESS then .ok ⟨-1, [], k⟩
  else do
    let resource ← k.fileSlot fileDescriptor
    let file ← k.followResource resource
    requireStructure file
    if error ≠ 0 then .ok ⟨error, [.fileClose file], k⟩
    else
      let k ← k.releasePage file
      match k.allocateKernelPage with
      | (resource, k) =>
          let k := k.setFile fileDescriptor.toNat resource
          if resource = 0 then .error .nullResource
          else .ok ⟨0, [.fileClose file], k.setResource resource ⟨.file, 0⟩⟩

/-- `syscall_write_file`. -/
def syscallWriteFile (fileDescriptor error : Int) (k : Kernel Pointers) :
    Except Fault FileResult := do
  let resource ← k.fileSlot fileDescriptor
  if resource = 0 then .ok ⟨-1, [], k⟩
  else
    let file ← k.followResource resource
    requireStructure file
    .ok ⟨error, [.fileWrite file], k⟩

/-- `syscall_read_file`; the bytes read go to a buffer of the caller. -/
def syscallReadFile (fileDescriptor error : Int) (k : Kernel Pointers) :
    Except Fault FileResult := do
  let resource ← k.fileSlot fileDescriptor
  let file ← k.followResource resource
  requireStructure file
  .ok ⟨error, [.fileSeek file, .fileRead file], k⟩

/-- The part of a directory entry that `syscall_get_next_entry` copies. -/
def entryInfo (info : DirInfo) : FatEntryInfo :=
  ⟨info.name.take 255, info.attr &&& FAT_ATTR_DIR ≠ 0⟩

/-- `syscall_get_next_entry`, with the entry it copies to the caller, if any. -/
def syscallGetNextEntry (fileDescriptor : Int) (info : Except Int DirInfo) (nextError : Int)
    (k : Kernel Pointers) : Except Fault (Option FatEntryInfo × FileResult) := do
  let resource ← k.fileSlot fileDescriptor
  let dir ← k.followResource resource
  if dir = 0 then .ok (none, ⟨-1, [], k⟩)
  else
    match info with
    | .error _ => .ok (none, ⟨-1, [.dirRead dir], k⟩)
    | .ok info =>
        .ok (some (entryInfo info),
          ⟨if nextError ≠ 0 then -1 else 0, [.dirRead dir, .dirNext dir], k⟩)

/-- `syscall_malloc`. -/
def syscallMalloc (k : Kernel Pointers) : Int × Kernel Pointers :=
  match k.allocateKernelPage with
  | (address, k) => if address = 0 then (-1, k) else (address, k)

end Kernel

end DemosOS
