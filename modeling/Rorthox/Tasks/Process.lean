import Rorthox.Loader.Elf
import Rorthox.Memory.Paging

/-!
# Processes and what they own

`struct process` and the ownership test `process_user_span` of
`kernel/task/process.c`. Only exact bytes count as owned: the stack, the requested
bytes of live allocations, and the program's file bytes or segment bytes.
-/

namespace Rorthox.Tasks

open Loader Memory

def programVirtualAddress : Nat := 0x400000
def userProgramStackSize : Nat := 16384
def programVirtualStackAddressStart : Nat := 0x3FF000
def programVirtualStackAddressEnd : Nat := programVirtualStackAddressStart - userProgramStackSize
def maxProgramAllocations : Nat := 1024
def fileMaxOpen : Nat := 16

def processFiletypeElf : Nat := 0
def processFiletypeBinary : Nat := 1

structure ProcessAllocation where
  ptr : Nat
  size : Nat
  deriving DecidableEq, Repr

/-- `struct process` as far as its memory goes. `ptr` is the union of `ptr` and `elf_file`;
`elfFile` is the struct it points to when the file type is ELF. -/
structure Process where
  allocations : Nat → ProcessAllocation
  filetype : Nat
  ptr : Nat
  elfFile : ElfFile
  stack : Nat
  size : Nat

def processRegionSpan (address start size : Nat) : Except Errno Nat :=
  if address < start || address - start ≥ size then throw .einvarg
  else pure (size - (address - start))

/-- The loop over `allocations`, from index `i` on. -/
def allocationSpan (allocations : Nat → ProcessAllocation) (address : Nat) :
    Nat → Nat → Option Nat
  | 0, _ => none
  | rem + 1, i =>
      let allocation := allocations i
      match if allocation.ptr ≠ 0 then (processRegionSpan address allocation.ptr
            allocation.size).toOption else none with
      | some available => some available
      | none => allocationSpan allocations address rem (i + 1)

/-- The loop over the program headers, from index `i` on. -/
def segmentSpan (file : ElfFile) (address : Nat) (write : Bool) : Nat → Nat → Option Nat
  | 0, _ => none
  | rem + 1, i =>
      let phdr := file.elfProgramHeader i
      match if phdr.p_type = ptLoad ∧ file.segments i ≠ 0 ∧ (!write ∨ phdr.p_flags &&& pfW ≠ 0)
            then (processRegionSpan address phdr.p_vaddr phdr.p_memsz).toOption else none with
      | some available => some available
      | none => segmentSpan file address write rem (i + 1)

/-- The bytes the process still owns from `address` on, in the first region that has it. -/
def processUserSpan (process : Option Process) (address : Nat) (write : Bool) : Except Errno Nat :=
  match process with
  | none => throw .einvarg
  | some process =>
      if address = 0 then throw .einvarg
      else
        match if process.stack ≠ 0 then (processRegionSpan address programVirtualStackAddressEnd
                userProgramStackSize).toOption else none with
        | some available => pure available
        | none =>
            match allocationSpan process.allocations address maxProgramAllocations 0 with
            | some available => pure available
            | none =>
                if process.filetype = processFiletypeBinary then
                  processRegionSpan address programVirtualAddress process.size
                else if process.filetype = processFiletypeElf ∧ process.ptr ≠ 0 then
                  match segmentSpan process.elfFile address write process.elfFile.segmentCount
                    0 with
                  | some available => pure available
                  | none => throw .einvarg
                else throw .einvarg

/-! ## The owned regions as a list -/

/-- A region `(start, size)` holds an address. -/
def InRegion (address : Nat) (region : Nat × Nat) : Prop :=
  region.1 ≤ address ∧ address - region.1 < region.2

instance (address : Nat) (region : Nat × Nat) : Decidable (InRegion address region) :=
  inferInstanceAs (Decidable (_ ∧ _))

def stackRegions (process : Process) : List (Nat × Nat) :=
  if process.stack ≠ 0 then [(programVirtualStackAddressEnd, userProgramStackSize)] else []

def allocationRegions (process : Process) : List (Nat × Nat) :=
  (List.range maxProgramAllocations).filterMap fun i =>
    if (process.allocations i).ptr ≠ 0 then
      some ((process.allocations i).ptr, (process.allocations i).size)
    else none

def segmentRegions (file : ElfFile) (write : Bool) : List (Nat × Nat) :=
  (List.range file.segmentCount).filterMap fun i =>
    let phdr := file.elfProgramHeader i
    if phdr.p_type = ptLoad ∧ file.segments i ≠ 0 ∧ (!write ∨ phdr.p_flags &&& pfW ≠ 0) then
      some (phdr.p_vaddr, phdr.p_memsz)
    else none

def programRegions (process : Process) (write : Bool) : List (Nat × Nat) :=
  if process.filetype = processFiletypeBinary then [(programVirtualAddress, process.size)]
  else if process.filetype = processFiletypeElf ∧ process.ptr ≠ 0 then
    segmentRegions process.elfFile write
  else []

/-- Everything `process_user_span` looks at, in its order. -/
def ownedRegions (process : Process) (write : Bool) : List (Nat × Nat) :=
  stackRegions process ++ allocationRegions process ++ programRegions process write

theorem processRegionSpan_eq (address start size : Nat) :
    processRegionSpan address start size =
      if InRegion address (start, size) then .ok (size - (address - start)) else
        .error .einvarg := by
  have hb : (decide (address < start) || decide (address - start ≥ size)) = true ↔
      ¬ InRegion address (start, size) := by
    simp only [InRegion, Bool.or_eq_true, decide_eq_true_eq]
    omega
  unfold processRegionSpan
  by_cases h : InRegion address (start, size)
  · rw [if_pos h, if_neg (fun hn => hb.mp hn h)]
    rfl
  · rw [if_neg h, if_pos (hb.mpr h)]
    rfl

/-- What is left of the first region of a list that holds the address. -/
def firstSpan (address : Nat) (regions : List (Nat × Nat)) : Option Nat :=
  (regions.find? fun r => decide (InRegion address r)).map fun r => r.2 - (address - r.1)

theorem firstSpan_cons (address : Nat) (r : Nat × Nat) (rs : List (Nat × Nat)) :
    firstSpan address (r :: rs) =
      if InRegion address r then some (r.2 - (address - r.1)) else firstSpan address rs := by
  unfold firstSpan
  by_cases h : InRegion address r
  · simp [h]
  · simp [h]

theorem firstSpan_append (address : Nat) (rs ts : List (Nat × Nat)) :
    firstSpan address (rs ++ ts) = (firstSpan address rs).or (firstSpan address ts) := by
  unfold firstSpan
  rw [List.find?_append]
  cases rs.find? fun r => decide (InRegion address r) <;> simp

theorem regionSpan_toOption (address start size : Nat) :
    (processRegionSpan address start size).toOption = firstSpan address [(start, size)] := by
  rw [processRegionSpan_eq, firstSpan_cons]
  split <;> rfl

/-- A guarded scan over indices is the first span of the guarded regions. -/
theorem firstSpan_filterMap (address : Nat) (g : Nat → Option (Nat × Nat))
    (scan : Nat → Nat → Option Nat) (hzero : ∀ i, scan 0 i = none)
    (hsucc : ∀ n i, scan (n + 1) i = ((g i).bind fun r => firstSpan address [r]).or
      (scan n (i + 1))) :
    ∀ n i, scan n i = firstSpan address ((List.range' i n).filterMap g) := by
  intro n
  induction n with
  | zero => intro i; rw [hzero]; rfl
  | succ n ih =>
    intro i
    rw [hsucc, ih, List.range'_succ, List.filterMap_cons]
    cases g i with
    | none => rfl
    | some r =>
      exact (firstSpan_append address [r] _).symm

theorem allocationSpan_eq (process : Process) (address : Nat) :
    allocationSpan process.allocations address maxProgramAllocations 0 =
      firstSpan address (allocationRegions process) := by
  rw [allocationRegions, List.range_eq_range']
  refine firstSpan_filterMap address _ (allocationSpan process.allocations address) ?_ ?_ _ _
  · intro i
    rfl
  · intro n i
    rw [allocationSpan]
    simp only [regionSpan_toOption]
    by_cases h : (process.allocations i).ptr ≠ 0
    · simp only [if_pos h, Option.bind_some]
      cases firstSpan address [((process.allocations i).ptr, (process.allocations i).size)] <;> rfl
    · simp only [if_neg h]
      rfl

theorem segmentSpan_eq (file : ElfFile) (address : Nat) (write : Bool) :
    segmentSpan file address write file.segmentCount 0 =
      firstSpan address (segmentRegions file write) := by
  rw [segmentRegions, List.range_eq_range']
  refine firstSpan_filterMap address _ (segmentSpan file address write) ?_ ?_ _ _
  · intro i
    rfl
  · intro n i
    rw [segmentSpan]
    simp only [regionSpan_toOption]
    split_ifs with h
    · simp only [Option.bind_some]
      cases firstSpan address [((file.elfProgramHeader i).p_vaddr,
        (file.elfProgramHeader i).p_memsz)] <;> rfl
    · rfl

/-- The ownership test is a first match in the list of owned regions. -/
theorem processUserSpan_eq (process : Process) (address : Nat) (write : Bool) :
    processUserSpan (some process) address write =
      if address = 0 then .error .einvarg
      else match firstSpan address (ownedRegions process write) with
        | some available => .ok available
        | none => .error .einvarg := by
  unfold processUserSpan
  by_cases h0 : address = 0
  · simp only [if_pos h0]
    rfl
  · simp only [if_neg h0, ownedRegions, firstSpan_append, allocationSpan_eq, regionSpan_toOption]
    have hstack : (if process.stack ≠ 0 then firstSpan address
        [(programVirtualStackAddressEnd, userProgramStackSize)] else none) =
        firstSpan address (stackRegions process) := by
      unfold stackRegions
      split_ifs <;> rfl
    rw [hstack]
    cases firstSpan address (stackRegions process) with
    | some n => rfl
    | none =>
      cases firstSpan address (allocationRegions process) with
      | some n => rfl
      | none =>
        unfold programRegions
        by_cases hb : process.filetype = processFiletypeBinary
        · simp only [if_pos hb, Option.none_or]
          rw [← regionSpan_toOption, processRegionSpan_eq]
          split_ifs <;> rfl
        · simp only [if_neg hb, Option.none_or]
          by_cases he : process.filetype = processFiletypeElf ∧ process.ptr ≠ 0
          · simp only [if_pos he, segmentSpan_eq]
            cases firstSpan address (segmentRegions process.elfFile write) <;> rfl
          · simp only [if_neg he]
            rfl

end Rorthox.Tasks
