import Rorthox.Lib.Bits
import Rorthox.Status

/-!
# Two-level page tables

`kernel/memory/paging/paging.c`. The directory and its tables are 4 KiB blocks of
32-bit words; `Words` gives the word at an index of the block at an address. Every
index the source forms is below 1024, so two blocks at different page addresses
never share a word.
-/

namespace Rorthox.Memory

/-- Page-table memory: the word at an index of the block at an address. -/
abbrev Words := Nat → Nat → Nat

def pagingPageSizeFlag : Nat := 0b10000000
def pagingAccessFromAll : Nat := 0b00000100
def pagingIsWriteable : Nat := 0b00000010
def pagingIsPresent : Nat := 0b00000001
def pagingTotalEntriesPerTable : Nat := 1024
def pagingPageSize : Nat := 4096

def pagingIsAligned (addr : Nat) : Bool := addr % pagingPageSize == 0

def pagingGetIndexes (virtualAddress : Nat) : Except Errno (Nat × Nat) :=
  if !pagingIsAligned virtualAddress then throw .einvarg
  else pure (virtualAddress / (pagingTotalEntriesPerTable * pagingPageSize),
    virtualAddress % (pagingTotalEntriesPerTable * pagingPageSize) / pagingPageSize)

def setWord (words : Words) (base index value : Nat) : Words :=
  fun b i => if b = base ∧ i = index then value else words b i

/-- `currentDirectory` is the directory loaded in CR3, which the source refuses to change. -/
def pagingSet (currentDirectory : Nat) (words : Words) (directory virt val : Nat) :
    Except Errno Words :=
  if directory = currentDirectory || !pagingIsAligned virt then throw .einvarg
  else do
    let (directoryIndex, tableIndex) ← pagingGetIndexes virt
    let entry := words directory directoryIndex
    let user := pagingIsPresent ||| pagingAccessFromAll
    let table := entry &&& 0xFFFFF000
    if val &&& user = user then
      if entry &&& pagingIsPresent = 0 || entry &&& pagingPageSizeFlag ≠ 0 then throw .einvarg
      else
        let words := setWord words directory directoryIndex (entry ||| pagingAccessFromAll)
        pure (setWord words table tableIndex val)
    else pure (setWord words table tableIndex val)

def pagingMap (currentDirectory : Nat) (words : Words) (directory virt phys flags : Nat) :
    Except Errno Words :=
  if virt % pagingPageSize ≠ 0 || phys % pagingPageSize ≠ 0 then throw .einvarg
  else pagingSet currentDirectory words directory virt (phys ||| flags)

/-- Pages mapped before a failing one stay mapped, so the words come back either way. -/
def pagingMapRange (currentDirectory : Nat) (directory flags : Nat) :
    Nat → Nat → Nat → Words → Except Errno Unit × Words
  | 0, _, _, words => (pure (), words)
  | count + 1, virt, phys, words =>
      match pagingMap currentDirectory words directory virt phys flags with
      | .error e => (throw e, words)
      | .ok words =>
          pagingMapRange currentDirectory directory flags count
            ((virt + pagingPageSize) % 2 ^ 32) ((phys + pagingPageSize) % 2 ^ 32) words

def pagingMapTo (currentDirectory : Nat) (words : Words)
    (directory virt phys physEnd flags : Nat) : Except Errno Unit × Words :=
  if virt % pagingPageSize ≠ 0 then (throw .einvarg, words)
  else if phys % pagingPageSize ≠ 0 then (throw .einvarg, words)
  else if physEnd % pagingPageSize ≠ 0 then (throw .einvarg, words)
  else if physEnd < phys then (throw .einvarg, words)
  else
    let totalBytes := physEnd - phys
    let totalPages := totalBytes / pagingPageSize
    pagingMapRange currentDirectory directory flags totalPages virt phys words

/-- The bits a user access needs, in both levels. -/
def requiredBits (write : Bool) : Nat :=
  let required := pagingIsPresent ||| pagingAccessFromAll
  if write then required ||| pagingIsWriteable else required

/-- Both levels must permit the access; only 4 KiB page tables are supported. -/
def pagingUserTranslate (words : Words) (directory address : Nat) (write : Bool) :
    Except Errno Nat :=
  if directory = 0 then throw .einvarg
  else
    let required := requiredBits write
    let entry := words directory (address >>> 22)
    if entry &&& required ≠ required || entry &&& pagingPageSizeFlag ≠ 0 then throw .einvarg
    else
      let table := entry &&& 0xFFFFF000
      let entry := words table ((address >>> 12) &&& 0x3FF)
      if entry &&& required ≠ required then throw .einvarg
      else pure ((entry &&& 0xFFFFF000) ||| (address &&& (pagingPageSize - 1)))

/-- The indexes stay 0 when the address is not that of a page. -/
def pagingGet (words : Words) (directory virt : Nat) : Nat :=
  match pagingGetIndexes virt with
  | .ok (directoryIndex, tableIndex) =>
    words (words directory directoryIndex &&& 0xFFFFF000) tableIndex
  | .error _ => words (words directory 0 &&& 0xFFFFF000) 0

/-- Inside one page the translation is linear: the same answer at the same offset. -/
theorem pagingUserTranslate_add {words : Words} {directory address p : Nat} {write : Bool}
    (h : pagingUserTranslate words directory address write = .ok p) {i : Nat}
    (hi : address % pagingPageSize + i < pagingPageSize) :
    pagingUserTranslate words directory (address + i) write = .ok (p + i) := by
  unfold pagingPageSize at hi
  have h22 : (address + i) >>> 22 = address >>> 22 := by
    simp only [Nat.shiftRight_eq_div_pow]
    omega
  have h12 : (address + i) >>> 12 = address >>> 12 := by
    simp only [Nat.shiftRight_eq_div_pow]
    omega
  have hoff : ∀ a e : Nat, (e &&& 0xFFFFF000) ||| (a &&& (pagingPageSize - 1)) =
      (e &&& 0xFFFFF000) + a % 4096 := by
    intro a e
    rw [show pagingPageSize - 1 = 2 ^ 12 - 1 from rfl, Lib.land_low]
    exact Lib.lor_offset (Lib.land_page_mod e) (Nat.mod_lt _ (by decide))
  unfold pagingUserTranslate at h ⊢
  simp only [h22, h12, hoff] at h ⊢
  split at h
  · cases h
  · rename_i h0
    rw [if_neg h0]
    split at h
    · cases h
    · rename_i h1
      rw [if_neg h1]
      split at h
      · cases h
      · rename_i h2
        rw [if_neg h2]
        obtain rfl := Except.ok.inj h
        have hm : (address + i) % 4096 = address % 4096 + i := by omega
        rw [hm, Nat.add_assoc]
        rfl

end Rorthox.Memory
