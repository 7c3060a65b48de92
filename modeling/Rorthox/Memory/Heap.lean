import Rorthox.Lib.Runs
import Rorthox.Status

/-!
# The kernel heap

`kernel/memory/heap/heap.c`: a table with one byte per 4 KiB block. The length of
an allocation is nowhere stored; it is the distance to the first entry without
the HAS_NEXT bit. Addresses and sizes are the 32-bit values of the source.
-/

namespace Rorthox.Memory

/-- `RORTHOX_HEAP_BLOCK_SIZE`. -/
def blockSize : Nat := 4096

def entryTaken : UInt8 := 0x01
def entryFree : UInt8 := 0x00
def blockHasNext : UInt8 := 0x80
def blockIsFirst : UInt8 := 0x40

/-- `struct heap_table`: the entries and how many of them there are. -/
structure HeapTable where
  entries : Nat → UInt8
  total : Nat

/-- `struct heap`: the table and the start of the data pool. -/
structure Heap where
  table : HeapTable
  saddr : Nat

def heapValidateTable (ptr endPtr : Nat) (table : HeapTable) : Except Errno Unit :=
  let tableSize := (endPtr + 2 ^ 32 - ptr) % 2 ^ 32
  let totalBlocks := tableSize / blockSize
  if table.total ≠ totalBlocks then throw .einvarg else pure ()

def heapValidateAlignment (ptr : Nat) : Bool := ptr % blockSize == 0

def heapCreate (ptr endPtr : Nat) (table : HeapTable) : Except Errno Heap :=
  if !heapValidateAlignment ptr || !heapValidateAlignment endPtr then throw .einvarg
  else do
    heapValidateTable ptr endPtr table
    pure { table := { table with
             entries := fun i => if i < table.total then entryFree else table.entries i },
           saddr := ptr }

def heapAlignValueToUpper (val : Nat) : Nat :=
  if val % blockSize == 0 then val
  else (val - val % blockSize + blockSize) % 2 ^ 32

def heapGetEntryType (entry : UInt8) : UInt8 := entry &&& 0x0f

/-- The scan of `heap_get_start_block` over the last `rem` entries: `bc` free
entries seen in a row, the first of them at `bs` (`none` for the source's -1). -/
def startBlockLoop (entries : Nat → UInt8) (totalBlocks : Nat) :
    Nat → Nat → Nat → Option Nat → Nat × Option Nat
  | 0, _, bc, bs => (bc, bs)
  | rem + 1, i, bc, bs =>
      if heapGetEntryType (entries i) ≠ entryFree then
        startBlockLoop entries totalBlocks rem (i + 1) 0 none
      else
        let bs := some (bs.getD i)
        let bc := bc + 1
        if bc = totalBlocks then (bc, bs)
        else startBlockLoop entries totalBlocks rem (i + 1) bc bs

def heapGetStartBlock (heap : Heap) (totalBlocks : Nat) : Except Errno Nat :=
  match startBlockLoop heap.table.entries totalBlocks heap.table.total 0 0 none with
  | (bc, some bs) => if bc ≠ totalBlocks then throw .enomem else pure bs
  | (_, none) => throw .enomem

def heapBlockToAddress (heap : Heap) (block : Nat) : Nat :=
  (heap.saddr + block * blockSize) % 2 ^ 32

/-- The marking loop from block `i` on, with `entry` computed by the last turn. -/
def markTakenLoop (endBlock : Int) : Nat → Nat → UInt8 → (Nat → UInt8) → Nat → UInt8
  | 0, _, _, entries => entries
  | rem + 1, i, entry, entries =>
      let entries := Function.update entries i entry
      let entry := if (i : Int) ≠ endBlock - 1 then entryTaken ||| blockHasNext else entryTaken
      markTakenLoop endBlock rem (i + 1) entry entries

def heapMarkBlocksTaken (heap : Heap) (startBlock totalBlocks : Nat) : Heap :=
  let endBlock : Int := ((startBlock : Int) + totalBlocks) - 1
  let entry := entryTaken ||| blockIsFirst
  let entry := if totalBlocks > 1 then entry ||| blockHasNext else entry
  { heap with table := { heap.table with
      entries := markTakenLoop endBlock totalBlocks startBlock entry heap.table.entries } }

/-- The source's NULL is `none`. -/
def heapMallocBlocks (heap : Heap) (totalBlocks : Nat) : Option Nat × Heap :=
  match heapGetStartBlock heap totalBlocks with
  | .error _ => (none, heap)
  | .ok startBlock =>
      (some (heapBlockToAddress heap startBlock), heapMarkBlocksTaken heap startBlock totalBlocks)

/-- The freeing loop over the `rem` entries from `i` to the end of the table. -/
def markFreeLoop : Nat → Nat → (Nat → UInt8) → Nat → UInt8
  | 0, _, entries => entries
  | rem + 1, i, entries =>
      let entry := entries i
      let entries := Function.update entries i entryFree
      if entry &&& blockHasNext = 0 then entries
      else markFreeLoop rem (i + 1) entries

def heapMarkBlocksFree (heap : Heap) (startingBlock : Nat) : Heap :=
  { heap with table := { heap.table with
      entries := markFreeLoop (heap.table.total - startingBlock) startingBlock
        heap.table.entries } }

def heapMalloc (heap : Heap) (size : Nat) : Option Nat × Heap :=
  if size > 2 ^ 32 - 1 - (blockSize - 1) then (none, heap)
  else
    let alignedSize := heapAlignValueToUpper size
    let totalBlocks := alignedSize / blockSize
    if totalBlocks = 0 then (none, heap) else heapMallocBlocks heap totalBlocks

def heapFree (heap : Heap) (ptr : Nat) : Heap :=
  if ptr = 0 || !heapValidateAlignment ptr then heap
  else if ptr < heap.saddr then heap
  else
    let block := (ptr - heap.saddr) / blockSize
    if block ≥ heap.table.total then heap
    else
      let entry := heap.table.entries block
      if heapGetEntryType entry ≠ entryTaken || entry &&& blockIsFirst = 0 then heap
      else heapMarkBlocksFree heap block

end Rorthox.Memory
