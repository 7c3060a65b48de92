import Rorthox.Disk.Streamer
import Rorthox.Memory.KHeap

/-!
# The structures of the FAT16 driver

The records of `kernel/fs/fat/fat16.c` and `kernel/fs/file.h` with the addresses
the heap gave them, and the state all file functions run over. A directory entry is
its 32 bytes; the header is the first 62 bytes of the disk.
-/

namespace Rorthox.Fat

open Lib Disk Memory

/-! ## Directory entries -/

/-- `struct fat_directory_item`. -/
abbrev DirItem := Fin 32 → UInt8

namespace DirItem

def byte (item : DirItem) (i : Nat) : UInt8 := if h : i < 32 then item ⟨i, h⟩ else 0

/-- The entry at offset `o` of a buffer. -/
def load (b : Bytes) (o : Nat) : DirItem := fun i => b (o + i)

/-- Store `bs` at offset `o` of an entry. -/
def put (item : DirItem) (o : Nat) (bs : List UInt8) : DirItem :=
  fun i => if o ≤ i.val ∧ i.val < o + bs.length then bs.getD (i.val - o) 0 else item i

def filename (item : DirItem) : List UInt8 := (List.range 8).map item.byte

def ext (item : DirItem) : List UInt8 := (List.range 3).map fun i => item.byte (8 + i)

def attrib (item : DirItem) : UInt8 := item.byte 11

def highFirstCluster (item : DirItem) : Nat := le16 item.byte 20

def lowFirstCluster (item : DirItem) : Nat := le16 item.byte 26

def filesize (item : DirItem) : Nat := le32 item.byte 28

def zero : DirItem := fun _ => 0

end DirItem

def fileReadOnly : UInt8 := 0x01
def fileVolumeLabel : UInt8 := 0x08
def fileSubdirectory : UInt8 := 0x10
def fileArchived : UInt8 := 0x20

/-! ## The header -/

/-- `struct fat_h`, packed. -/
def headerSize : Nat := 62

def bytePerSector (h : Bytes) : Nat := le16 h 11
def sectorsPerCluster (h : Bytes) : Nat := (h 13).toNat
def reservedSectors (h : Bytes) : Nat := le16 h 14
def fatCopies (h : Bytes) : Nat := (h 16).toNat
def rootDirEntries (h : Bytes) : Nat := le16 h 17
def numberOfSectors (h : Bytes) : Nat := le16 h 19
def sectorsPerFat (h : Bytes) : Nat := le16 h 22
def hiddenSectors (h : Bytes) : Nat := le32 h 28
def sectorsBig (h : Bytes) : Nat := le32 h 32
def signatur (h : Bytes) : UInt8 := h 38

/-! ## Directories, items, descriptors -/

/-- `struct fat_directory`; `itemAddr` is 0 when it has no entry array. -/
structure FatDirectory where
  addr : Nat
  itemAddr : Nat
  item : Nat → DirItem
  firstCluster : Nat
  total : Nat
  sectorPos : Nat
  endingSectorPos : Nat

/-- The union of `struct fat_item`. -/
inductive FatNode where
  | file (addr : Nat) (item : DirItem)
  | directory (dir : FatDirectory)

structure FatItem where
  addr : Nat
  node : FatNode
  entryPos : Nat

/-- `FILE_MODE`. -/
inductive FileMode where
  | read
  | write
  | append
  | invalid
  deriving DecidableEq

structure FatFileDescriptor where
  addr : Nat
  item : FatItem
  pos : Nat
  mode : FileMode

/-- `struct fat_private`. -/
structure FatPrivate where
  addr : Nat
  clusterReadStream : Nat
  fatReadStream : Nat
  directoryStream : Nat
  header : Bytes
  rootDirectory : FatDirectory
  descriptors : List FatFileDescriptor
  writeReady : Bool
  mutationDisabled : Bool
  maxWritable : Nat

/-- `struct file_descriptor`; `priv` is the address of the driver's descriptor. -/
structure FileDescriptor where
  addr : Nat
  index : Nat
  priv : Nat

/-- What the file functions run over: the heap, the drive, the mounted volume and
the table of descriptors. -/
structure FsState where
  heap : KHeap
  dev : Device
  /-- `disk->filesystem` is set. -/
  mounted : Bool
  vol : FatPrivate
  files : Nat → Option FileDescriptor

/-- A file-system function. -/
abbrev FsProg := Prog FsState Errno

def onDev {α : Type} (m : Prog Device Errno α) : FsProg α :=
  fun s => ((m s.dev).1, { s with dev := (m s.dev).2 })

/-- `kzalloc` whose caller gives up with `e` on null. -/
def kzalloc (e : Errno) (size : Nat) : FsProg Nat := fun s =>
  match kmalloc s.heap size with
  | (some p, k) => (.ok p, { s with heap := k })
  | (none, k) => (.error e, { s with heap := k })

def kfreeAt (p : Nat) (s : FsState) : FsState := { s with heap := kfree s.heap p }

def onVol (f : FatPrivate → FatPrivate) (s : FsState) : FsState := { s with vol := f s.vol }

end Rorthox.Fat
