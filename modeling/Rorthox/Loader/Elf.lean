import Rorthox.Lib.Bytes
import Rorthox.Status

/-!
# ELF headers

`kernel/loader/formats/elf.h` and the accessors of `elfloader.c`. The header and
the program headers are packed structs laid over the file bytes, so a field is a
little-endian read at its offset.
-/

namespace Rorthox.Loader

open Lib

def ptLoad : Nat := 1
def pfW : Nat := 0x02
def sizeofPhdr : Nat := 32

/-- `struct elf32_phdr`, without the fields that only the loading itself reads. -/
structure Phdr where
  p_type : Nat
  p_vaddr : Nat
  p_memsz : Nat
  p_flags : Nat

/-- `struct elf_file`: `segments` are the words of the array `segment_memory` points to,
`image` the bytes at `elf_memory`. -/
structure ElfFile where
  segments : Nat → Nat
  segmentCount : Nat
  image : Nat → UInt8

/-- The file as `kzalloc` leaves it. -/
def ElfFile.zero : ElfFile := ⟨fun _ => 0, 0, fun _ => 0⟩

namespace ElfFile

def e_phoff (f : ElfFile) : Nat := le32 f.image 28

/-- `elf_program_header`: entry `index` of the table at `e_phoff`. -/
def elfProgramHeader (f : ElfFile) (index : Nat) : Phdr :=
  let at_ := f.e_phoff + sizeofPhdr * index
  { p_type := le32 f.image at_
    p_vaddr := le32 f.image (at_ + 8)
    p_memsz := le32 f.image (at_ + 20)
    p_flags := le32 f.image (at_ + 24) }

end ElfFile

end Rorthox.Loader
