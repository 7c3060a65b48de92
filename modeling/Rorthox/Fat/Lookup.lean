import Rorthox.Fat.Volume

/-!
# Reading the volume

The functions of `kernel/fs/fat/fat16.c` that look: cluster arithmetic, the FAT,
directories and lookup of a path. `int` positions that could overflow are taken
modulo 2^32; the streamer refuses the negative half.
-/

namespace Rorthox.Fat

open Lib Disk Memory

def badSector : Nat := 0xFFF7
def eocStart : Nat := 0xFFF8

def fat16SectorToAbsolute (sector : Nat) : Nat := sector * sectorSize % 2 ^ 32

/-- Bytes of a cluster. -/
def clusterBytes (v : FatPrivate) : Nat := sectorsPerCluster v.header * sectorSize

/-- The last cluster number of the volume, or 0 for a geometry that is not FAT16. -/
def fat16ClusterLimit (v : FatPrivate) : Nat :=
  let h := v.header
  let sectors := if numberOfSectors h ≠ 0 then numberOfSectors h else sectorsBig h
  let data := v.rootDirectory.endingSectorPos
  if sectorsPerCluster h = 0 ∨ sectors ≤ data then 0
  else
    let count := (sectors - data) / sectorsPerCluster h
    let entries := sectorsPerFat h * sectorSize / 2
    if count < 4085 ∨ 65525 ≤ count ∨ entries < count + 2 then 0 else count + 1

def fat16ValidCluster (v : FatPrivate) (cluster : Nat) : Prop :=
  2 ≤ cluster ∧ cluster ≤ fat16ClusterLimit v ∧ cluster ≠ badSector ∧ cluster < eocStart

instance (v : FatPrivate) (cluster : Nat) : Decidable (fat16ValidCluster v cluster) :=
  inferInstanceAs (Decidable (_ ∧ _))

def fat16ClusterToSector (v : FatPrivate) (cluster : Nat) : Nat :=
  v.rootDirectory.endingSectorPos + (cluster - 2) * sectorsPerCluster v.header

def fat16GetFirstFatSector (v : FatPrivate) : Nat := reservedSectors v.header

def fat16GetFirstCluster (item : DirItem) : Nat := item.lowFirstCluster

/-! ## The FAT -/

def fat16GetFatEntry (cluster : Nat) : FsProg Nat := do
  let v ← Prog.look (·.vol)
  let pos := (fat16GetFirstFatSector v * sectorSize + cluster * 2) % 2 ^ 32
  onDev (diskstreamerSeek pos)
  let result ← onDev (diskstreamerRead pos 2)
  pure (le16 result 0)

def clusterForOffsetLoop (v : FatPrivate) : Nat → Nat → FsProg Nat
  | 0, cluster => pure cluster
  | ahead + 1, cluster => do
      let next ← fat16GetFatEntry cluster
      Prog.refuse (¬ fat16ValidCluster v next) .eio
      clusterForOffsetLoop v ahead next

def fat16GetClusterForOffset (startingCluster offset : Nat) : FsProg Nat := do
  let v ← Prog.look (·.vol)
  Prog.refuse (clusterBytes v = 0 ∨ ¬ fat16ValidCluster v startingCluster) .eio
  Prog.refuse (fat16ClusterLimit v - 1 ≤ offset / clusterBytes v) .eio
  clusterForOffsetLoop v (offset / clusterBytes v) startingCluster

/-- What of a request lies in the current cluster. -/
def clusterPart (v : FatPrivate) (within total : Nat) : Nat :=
  if clusterBytes v - within > total then total else clusterBytes v - within

/-- The loop of `fat16_read_internal_from_stream`; `within` is the offset in the
current cluster. Every turn but the last reads to the end of a cluster. -/
def readInternalLoop (v : FatPrivate) :
    Nat → Nat → Nat → Nat → Nat → Nat → Bytes → FsProg Bytes
  | _, _, _, 0, _, _, out => pure out
  | 0, _, _, _ + 1, _, _, _ => Prog.raise .eio
  | fuel + 1, current, within, total + 1, traversed, done, out => do
      let part := clusterPart v within (total + 1)
      let pos := fat16ClusterToSector v current * sectorSize + within
      Prog.refuse (intMax < pos ∨ intMax - pos < part) .eio
      onDev (diskstreamerSeek pos)
      let buf ← onDev (diskstreamerRead pos part)
      if total + 1 - part = 0 then pure (memcpy out done buf 0 part)
      else do
        let next ← fat16GetFatEntry current
        Prog.refuse (¬ fat16ValidCluster v next ∨ fat16ClusterLimit v - 1 < traversed + 1) .eio
        readInternalLoop v fuel next 0 (total + 1 - part) (traversed + 1) (done + part)
          (memcpy out done buf 0 part)

def fat16ReadInternal (startingCluster offset total : Nat) : FsProg Bytes := do
  let v ← Prog.look (·.vol)
  Prog.refuse (intMax < offset ∨ intMax - offset < total ∨ clusterBytes v = 0) .eio
  let current ← fat16GetClusterForOffset startingCluster offset
  readInternalLoop v total current (offset % clusterBytes v) total (offset / clusterBytes v + 1) 0
    fun _ => 0

/-! ## Directories -/

/-- `struct fat_directory_cursor`. -/
structure DirectoryCursor where
  cluster : Nat
  sector : Nat
  slots : Nat
  index : Nat
  clusters : Nat
  loadedSector : Option Nat
  buffer : Bytes

def fat16DirectoryStart (cluster : Nat) : FsProg DirectoryCursor := do
  let v ← Prog.look (·.vol)
  if cluster ≠ 0 then do
    Prog.refuse (¬ fat16ValidCluster v cluster) .eio
    pure { cluster, sector := fat16ClusterToSector v cluster, slots := clusterBytes v / 32,
           index := 0, clusters := 1, loadedSector := none, buffer := fun _ => 0 }
  else
    pure { cluster, sector := v.rootDirectory.sectorPos, slots := rootDirEntries v.header,
           index := 0, clusters := 0, loadedSector := none, buffer := fun _ => 0 }

/-- Move on to the next cluster when this one is used up; `none` at the allocated end. -/
def cursorAdvance (v : FatPrivate) (cursor : DirectoryCursor) : FsProg (Option DirectoryCursor) :=
  if cursor.index ≠ cursor.slots then pure (some cursor)
  else if cursor.cluster = 0 then pure none
  else do
    let next ← fat16GetFatEntry cursor.cluster
    if eocStart ≤ next then pure none
    else do
      Prog.refuse (¬ fat16ValidCluster v next ∨ fat16ClusterLimit v - 1 < cursor.clusters + 1) .eio
      pure (some { cursor with
        cluster := next, sector := fat16ClusterToSector v next, index := 0,
        clusters := cursor.clusters + 1 })

/-- Where the slot before the cursor lies on the disk. -/
def DirectoryCursor.pos (cursor : DirectoryCursor) : Nat :=
  cursor.sector * sectorSize + cursor.index * 32

/-- Fetch the slot before the cursor, from the root array or through the sector buffer. -/
def fetchSlot (v : FatPrivate) (cursor : DirectoryCursor) :
    FsProg (Option (DirItem × Nat × DirectoryCursor)) := do
  Prog.refuse (intMax - 32 < cursor.pos) .eio
  if cursor.cluster = 0 then
    pure (some (v.rootDirectory.item cursor.index, cursor.pos,
      { cursor with index := cursor.index + 1 }))
  else if cursor.loadedSector ≠ some (cursor.pos / sectorSize) then do
    onDev (diskstreamerSeek (cursor.pos / sectorSize * sectorSize))
    let buffer ← onDev (diskstreamerRead (cursor.pos / sectorSize * sectorSize) sectorSize)
    pure (some (DirItem.load buffer (cursor.pos % sectorSize), cursor.pos,
      { cursor with
        index := cursor.index + 1, loadedSector := some (cursor.pos / sectorSize), buffer }))
  else
    pure (some (DirItem.load cursor.buffer (cursor.pos % sectorSize), cursor.pos,
      { cursor with index := cursor.index + 1 }))

/-- One raw slot with its position on the disk, or `none` at the allocated end. -/
def fat16DirectoryNext (cursor : DirectoryCursor) :
    FsProg (Option (DirItem × Nat × DirectoryCursor)) := do
  let v ← Prog.look (·.vol)
  let moved ← cursorAdvance v cursor
  match moved with
  | none => pure none
  | some cursor => fetchSlot v cursor

/-- More slots than any directory has: at most 65524 clusters of 255 sectors. -/
def directoryFuel : Nat := 2 ^ 28

def totalItemsLoop : Nat → DirectoryCursor → Nat → FsProg Nat
  | 0, _, _ => Prog.raise .eio
  | fuel + 1, cursor, total => do
      let next ← fat16DirectoryNext cursor
      match next with
      | none => pure total
      | some (item, _, cursor) =>
          if item.byte 0 = 0 then pure total
          else do
            Prog.refuse (total = intMax / 32) .eio
            totalItemsLoop fuel cursor (total + 1)

def fat16GetTotalItemsForDirectory (directoryStartSector : Nat) : FsProg Nat := do
  let v ← Prog.look (·.vol)
  let data := v.rootDirectory.endingSectorPos
  let sectors := sectorsPerCluster v.header
  Prog.refuse (sectors = 0 ∨ directoryStartSector < data ∨
    (directoryStartSector - data) % sectors ≠ 0) .eio
  let cluster := 2 + (directoryStartSector - data) / sectors
  Prog.refuse (¬ fat16ValidCluster v cluster) .eio
  let cursor ← fat16DirectoryStart cluster
  totalItemsLoop directoryFuel cursor 0

def fat16FreeDirectory (dir : FatDirectory) (s : FsState) : FsState :=
  kfreeAt dir.addr (if dir.itemAddr ≠ 0 then kfreeAt dir.itemAddr s else s)

def fat16FatItemFree (item : FatItem) (s : FsState) : FsState :=
  match item.node with
  | .directory dir => kfreeAt item.addr (fat16FreeDirectory dir s)
  | .file addr _ => kfreeAt item.addr (kfreeAt addr s)

/-- Fill slots `i`, `i + 1`, … of the entry array. -/
def loadItemsLoop : Nat → Nat → DirectoryCursor → (Nat → DirItem) → FsProg (Nat → DirItem)
  | 0, _, _, items => pure items
  | left + 1, i, cursor, items => do
      let next ← (fat16DirectoryNext cursor).recode fun _ => .eio
      match next with
      | none => Prog.raise .eio
      | some (item, _, cursor) => loadItemsLoop left (i + 1) cursor (Function.update items i item)

def fat16LoadFatDirectory (item : DirItem) : FsProg FatDirectory := do
  let v ← Prog.look (·.vol)
  Prog.refuse (item.attrib &&& fileSubdirectory = 0) .einvarg
  let addr ← kzalloc .enomem 20
  Prog.undo (m := do
    let cluster := fat16GetFirstCluster item
    Prog.refuse (¬ fat16ValidCluster v cluster) .eio
    let total ← fat16GetTotalItemsForDirectory (fat16ClusterToSector v cluster)
    Prog.refuse (0x7FFFFFFF / 32 < total) .eio
    if total = 0 then
      pure { addr, itemAddr := 0, item := fun _ => .zero, firstCluster := cluster, total,
             sectorPos := 0, endingSectorPos := 0 }
    else do
      let itemAddr ← kzalloc .enomem (total * 32)
      Prog.undo (m := do
        let cursor ← fat16DirectoryStart cluster
        let items ← loadItemsLoop total 0 cursor fun _ => .zero
        pure { addr, itemAddr, item := items, firstCluster := cluster, total,
               sectorPos := 0, endingSectorPos := 0 })
        (kfreeAt itemAddr))
    (kfreeAt addr)

/-- The source returns null whatever went wrong; `e` is what its caller makes of it. -/
def fat16NewFatItemForDirectoryItem (e : Errno) (item : DirItem) (entryPos : Nat) :
    FsProg FatItem := do
  let addr ← kzalloc e 12
  if item.attrib &&& fileSubdirectory ≠ 0 then
    Prog.undo (m := do
      let dir ← (fat16LoadFatDirectory item).recode fun _ => e
      pure { addr, node := .directory dir, entryPos })
      (kfreeAt addr)
  else
    Prog.undo (m := do
      let itemAddr ← kzalloc e 32
      pure { addr, node := .file itemAddr item, entryPos })
      (kfreeAt addr)

/-! ## Names -/

/-- `fat16_to_proper_string`: up to the first zero or blank, at most the whole field. -/
def fat16ToProperString (field : List UInt8) : List UInt8 :=
  field.takeWhile fun c => c ≠ 0 && c ≠ 0x20

def fat16GetFullRelativeFilename (item : DirItem) : List UInt8 :=
  fat16ToProperString item.filename ++
    (if item.byte 8 ≠ 0 ∧ item.byte 8 ≠ 0x20 then 0x2E :: fat16ToProperString item.ext else [])

def tolower (c : UInt8) : UInt8 := if 65 ≤ c ∧ c ≤ 90 then c + 32 else c

/-- `istrncmp(s1, s2, n) == 0`, the end of a list standing for the zero byte. -/
def istrncmp : List UInt8 → List UInt8 → Nat → Bool
  | _, _, 0 => true
  | s1, s2, n + 1 =>
      let u1 := s1.headD 0
      let u2 := s2.headD 0
      if u1 ≠ u2 ∧ tolower u1 ≠ tolower u2 then false
      else if u1 = 0 then true
      else istrncmp s1.tail s2.tail n

/-- `RORTHOX_MAX_PATH`. -/
def maxPath : Nat := 108

/-! ## Lookup -/

/-- Where slot `i` of a directory lies on the disk. -/
def slotPos (dir : FatDirectory) (i : Nat) : FsProg Nat := do
  let v ← Prog.look (·.vol)
  if dir.firstCluster ≠ 0 then do
    let cluster ← fat16GetClusterForOffset dir.firstCluster (i * 32)
    let location := fat16ClusterToSector v cluster * sectorSize + i * 32 % clusterBytes v
    Prog.refuse (intMax - 32 < location) .eio
    pure location
  else pure ((dir.sectorPos * sectorSize + i * 32) % 2 ^ 32)

/-- A lookup passes over deleted slots, long names and labels. -/
def Skipped (item : DirItem) : Prop :=
  item.byte 0 = 0xE5 ∨ item.attrib &&& fileVolumeLabel ≠ 0

instance (item : DirItem) : Decidable (Skipped item) := inferInstanceAs (Decidable (_ ∨ _))

def nameMatches (item : DirItem) (name : List UInt8) : Bool :=
  istrncmp (fat16GetFullRelativeFilename item) name maxPath

def findItemLoop (dir : FatDirectory) (name : List UInt8) : Nat → Nat → FsProg FatItem
  | 0, _ => Prog.raise .enoent
  | left + 1, i =>
      if (dir.item i).byte 0 = 0 then Prog.raise .enoent
      else if Skipped (dir.item i) then findItemLoop dir name left (i + 1)
      else if nameMatches (dir.item i) name then do
        let pos ← slotPos dir i
        fat16NewFatItemForDirectoryItem .eio (dir.item i) pos
      else findItemLoop dir name left (i + 1)

def fat16FindItemInDirectory (dir : FatDirectory) (name : List UInt8) : FsProg FatItem :=
  findItemLoop dir name dir.total 0

/-- The loop of `fat16_get_directory_entry` over the parts after the first. -/
def descend : FatItem → List (List UInt8) → FsProg FatItem
  | current, [] => pure current
  | current, part :: path =>
      match current.node with
      | .file _ _ => do
          Prog.change (fat16FatItemFree current)
          Prog.raise .eio
      | .directory dir => do
          let item ← Prog.finish (fat16FindItemInDirectory dir part) (fat16FatItemFree current)
          descend item path

/-- A parsed path has a first part; the empty list stands for none. -/
def fat16GetDirectoryEntry (path : List (List UInt8)) : FsProg FatItem := do
  let v ← Prog.look (·.vol)
  match path with
  | [] => Prog.raise .einvarg
  | part :: path => do
      let item ← fat16FindItemInDirectory v.rootDirectory part
      descend item path

end Rorthox.Fat
