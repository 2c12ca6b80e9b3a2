import DemosOS.Kernel.State

/-!
# Pages and page tables

`mm.c`: the page allocator, and the mapping of pages in the four-level page tables of a
process.

A page of the allocator has an index below `N_PAGES`, a physical address (`pageAddress`)
and, in the kernel, the virtual address `VA_START` higher.  Its contents are kept in the
views that the kernel uses it through: as bytes, as a page table, as a `FatResource` record,
as a control block.  Clearing a page clears every view of it; a write through one view does
not show in the others, so that the model is faithful as long as no page is used in two
ways at once, which is what `DemosOS.Mem.Ownership` is about.

A write behind the arrays `user_pages` and `kernel_pages` is `none`, and so is the release
of an address that does not belong to the allocator.
-/

namespace DemosOS

open Lib

/-! ## Constants -/

def PAGE_SHIFT : Nat := 12
def PMD_SHIFT : Nat := 21
def PUD_SHIFT : Nat := 30
def PGD_SHIFT : Nat := 39
def PAGE_MASK : Nat := 0xfffffffffffff000
def PTRS_PER_TABLE : Nat := 512

def MM_TYPE_PAGE_TABLE : Nat := 0x3
def MM_TYPE_PAGE : Nat := 0x3
def MM_ACCESS : Nat := 0x1 <<< 10
def MM_ACCESS_PERMISSION : Nat := 0x01 <<< 6
def MT_NORMAL_NC : Nat := 0x1
def MMU_PTE_FLAGS : Nat :=
  MM_TYPE_PAGE ||| (MT_NORMAL_NC <<< 2) ||| MM_ACCESS ||| MM_ACCESS_PERMISSION

/-- The physical address of page `i` of the allocator. -/
def pageAddress (i : Nat) : Nat := LOW_MEMORY + i * PAGE_SIZE

/-- The index of a virtual address in a table of the level with the given shift. -/
def tableIndex (shift virtualAddress : Nat) : Nat :=
  (virtualAddress >>> shift) &&& (PTRS_PER_TABLE - 1)

/-! ## The page allocator -/

/-- The loop of `get_free_page`: the first of the `n` pages from `i` on that is free. -/
def firstFree (used : Nat → Bool) : Nat → Nat → Option Nat
  | 0, _ => none
  | n + 1, i => if used i then firstFree used n (i + 1) else some i

namespace Memory

/-- `memcpy` on physical addresses. -/
def memcpy (m : Memory) (destination source count : Nat) : Memory :=
  { m with bytes := fun x ↦
      if destination ≤ x ∧ x < destination + count then m.bytes (source + (x - destination))
      else m.bytes x }

/-- A buffer is written at a physical address. -/
def store (m : Memory) (destination : Nat) (data : List UInt8) : Memory :=
  { m with bytes := fun x ↦
      if destination ≤ x ∧ x < destination + data.length then data.getD (x - destination) 0
      else m.bytes x }

/-- `table[index] = entry`. -/
def writeEntry (m : Memory) (table index entry : Nat) : Memory :=
  { m with tables := Function.update m.tables table (Function.update (m.tables table) index entry) }

/-- `memory_pages[i] = used`. -/
def mark (m : Memory) (i : Nat) (used : Bool) : Memory :=
  { m with memoryPages := Function.update m.memoryPages i used }

/-- `memzero(page + VA_START, PAGE_SIZE)`, on the views kept in `Memory`. -/
def clear (m : Memory) (page : Nat) : Memory :=
  { m with
    bytes := fun x ↦ if page ≤ x ∧ x < page + PAGE_SIZE then 0 else m.bytes x
    tables := Function.update m.tables page fun _ ↦ 0
    fatResources := Function.update m.fatResources (page + VA_START) ⟨.file, 0⟩ }

end Memory

namespace Kernel

/-- Run code that only touches the memory. -/
def mapMemory (k : Kernel Pointers) (f : Memory → Memory) : Kernel Pointers :=
  k.mapGlobals fun g ↦ { g with memory := f g.memory }

/-- Rewrite the `mm_struct` of a process. -/
def modifyMm (k : Kernel Pointers) (process : PcbPtr) (f : MmStruct → MmStruct) : Kernel Pointers :=
  k.mapGlobals (·.modifyPcb process fun b ↦ { b with mm := f b.mm })

/-- `memzero(page + VA_START, PAGE_SIZE)`: a control block in the page is cleared with it. -/
def clearPage (page : Nat) (k : Kernel Pointers) : Kernel Pointers :=
  { toGlobals := { k.toGlobals with
      memory := k.memory.clear page
      pcb := fun
        | .initProcess => k.pcb .initProcess
        | .page i => if pageAddress i = page then PCB.zero else k.pcb (.page i) }
    queues := { k.queues with
      next := fun
        | .initProcess => k.queues.next .initProcess
        | .page i => if pageAddress i = page then none else k.queues.next (.page i) } }

/-- `get_free_page`. -/
def getFreePage (k : Kernel Pointers) : Nat × Kernel Pointers :=
  match firstFree k.memory.memoryPages N_PAGES 0 with
  | none =>
      (0, k.mapMemory fun m ↦ { m with failedAllocations := m.failedAllocations + 1 })
  | some i => (pageAddress i, (k.mapMemory (·.mark i true)).clearPage (pageAddress i))

/-- `allocate_kernel_page`. -/
def allocateKernelPage (k : Kernel Pointers) : Nat × Kernel Pointers :=
  match k.getFreePage with
  | (page, k) => if page = 0 then (0, k) else (page + VA_START, k)

/-- `free_page`.  The address is an `unsigned long`, and so is the difference that gives the
index. -/
def freePage (pageKernelAddress : Nat) (k : Kernel Pointers) : Option (Int × Kernel Pointers) :=
  if pageKernelAddress % PAGE_SIZE ≠ 0 then some (-1, k)
  else
    let i := (pageKernelAddress + 2 * 2 ^ 64 - VA_START - LOW_MEMORY) % 2 ^ 64 / PAGE_SIZE
    if i < N_PAGES then
      some (0, (k.clearPage (pageAddress i)).mapMemory (·.mark i false))
    else none

/-! ## Mapping -/

/-- `process->mm.kernel_pages[process->mm.n_kernel_pages++] = page`. -/
def trackKernelPage (process : PcbPtr) (page : Nat) (k : Kernel Pointers) :
    Option (Kernel Pointers) :=
  if (k.pcb process).mm.nKernelPages < MAX_PROCESS_PAGES then
    some (k.modifyMm process fun mm ↦
      { mm with
        kernelPages := Function.update mm.kernelPages mm.nKernelPages page
        nKernelPages := mm.nKernelPages + 1 })
  else none

/-- `process->mm.user_pages[process->mm.n_user_pages++] = page`. -/
def trackUserPage (process : PcbPtr) (page : UserPage) (k : Kernel Pointers) :
    Option (Kernel Pointers) :=
  if (k.pcb process).mm.nUserPages < MAX_PROCESS_PAGES then
    some (k.modifyMm process fun mm ↦
      { mm with
        userPages := Function.update mm.userPages mm.nUserPages page
        nUserPages := mm.nUserPages + 1 })
  else none

/-- `map_table`: the next table, and whether it has been created. -/
def mapTable (table shift virtualAddress : Nat) (k : Kernel Pointers) :
    Nat × Bool × Kernel Pointers :=
  let index := tableIndex shift virtualAddress
  if k.memory.tables table index = 0 then
    match k.getFreePage with
    | (nextLevelTable, k) =>
        let k := k.clearPage nextLevelTable
        (nextLevelTable, true,
          k.mapMemory (·.writeEntry table index (nextLevelTable ||| MM_TYPE_PAGE_TABLE)))
  else (k.memory.tables table index &&& PAGE_MASK, false, k)

/-- One level of `map_page`: the next table, tracked if it is new. -/
def mapLevel (process : PcbPtr) (table shift virtualAddress : Nat) (k : Kernel Pointers) :
    Option (Nat × Kernel Pointers) :=
  match k.mapTable table shift virtualAddress with
  | (next, true, k) => (k.trackKernelPage process next).map fun k ↦ (next, k)
  | (next, false, k) => some (next, k)

/-- The first lines of `map_page`: a process without a `PGD` gets one. -/
def ensurePgd (process : PcbPtr) (k : Kernel Pointers) : Option (Kernel Pointers) :=
  if (k.pcb process).mm.pgd = 0 then
    match k.getFreePage with
    | (page, k) =>
        let k := k.modifyMm process fun mm ↦ { mm with pgd := page }
        (k.clearPage page).trackKernelPage process page
  else some k

/-- `map_table_entry`. -/
def mapTableEntry (pte virtualAddress pagePhysicalAddress : Nat) (k : Kernel Pointers) :
    Kernel Pointers :=
  k.mapMemory (·.writeEntry pte (tableIndex PAGE_SHIFT virtualAddress)
    (pagePhysicalAddress ||| MMU_PTE_FLAGS))

/-- `map_page`. -/
def mapPage (process : PcbPtr) (virtualAddress pagePhysicalAddress : Nat) (k : Kernel Pointers) :
    Option (Kernel Pointers) := do
  let k ← k.ensurePgd process
  let (pud, k) ← k.mapLevel process (k.pcb process).mm.pgd PGD_SHIFT virtualAddress
  let (pmd, k) ← k.mapLevel process pud PUD_SHIFT virtualAddress
  let (pte, k) ← k.mapLevel process pmd PMD_SHIFT virtualAddress
  let k := k.mapTableEntry pte virtualAddress pagePhysicalAddress
  k.trackUserPage process ⟨pagePhysicalAddress, virtualAddress⟩

/-- `allocate_user_page`. -/
def allocateUserPage (process : PcbPtr) (virtualAddress : Nat) (k : Kernel Pointers) :
    Option (Nat × Kernel Pointers) :=
  match k.getFreePage with
  | (page, k) =>
      if page = 0 then some (0, k)
      else (k.mapPage process virtualAddress page).map fun k ↦ (page + VA_START, k)

/-- The loop of `copy_virtual_memory`, over the given indices of `user_pages`. -/
def copyPages (destination source : PcbPtr) : List Nat → Kernel Pointers →
    Option (Int × Kernel Pointers)
  | [], k => some (0, k)
  | i :: rest, k => do
      let (address, k) ← k.allocateUserPage destination
        ((k.pcb source).mm.userPages i).virtualAddress
      if address = 0 then some (-1, k)
      else
        let page := address - VA_START
        let k := k.clearPage page
        let k := k.mapMemory
          (·.memcpy page ((k.pcb source).mm.userPages i).physicalAddress PAGE_SIZE)
        copyPages destination source rest k

/-- `copy_virtual_memory`. -/
def copyVirtualMemory (destination : PcbPtr) (k : Kernel Pointers) :
    Option (Int × Kernel Pointers) :=
  k.copyPages destination k.currentProcess (List.range k.current.mm.nUserPages)

/-! ## Address translation -/

/-- The walk of the memory management unit: the physical address a virtual address is
translated to.  An entry is valid if its lowest bit is set. -/
def walk (k : Kernel Pointers) (pgd virtualAddress : Nat) : Option Nat := do
  let step (table shift : Nat) : Option Nat :=
    let entry := k.memory.tables table (tableIndex shift virtualAddress)
    if entry &&& 1 = 1 then some (entry &&& PAGE_MASK) else none
  if pgd = 0 then none
  else
    let pud ← step pgd PGD_SHIFT
    let pmd ← step pud PUD_SHIFT
    let pte ← step pmd PMD_SHIFT
    let page ← step pte PAGE_SHIFT
    some (page + virtualAddress % PAGE_SIZE)

/-- The translation of a virtual address of a process. -/
def translate (k : Kernel Pointers) (process : PcbPtr) (virtualAddress : Nat) : Option Nat :=
  k.walk (k.pcb process).mm.pgd virtualAddress

end Kernel

end DemosOS
