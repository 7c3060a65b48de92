import Rorthox.Fat.Lookup

/-!
# Changing the volume

The functions of `kernel/fs/fat/fat16.c` that write: the check before the first
write of a mount, single writes and flushes, truncation, creation, allocation of
clusters and `fat16_write_bytes`.
-/

namespace Rorthox.Fat

open Lib Disk Memory

/-! ## Before the first write -/

/-- Sectors before the data area, as `fat16_prepare_write` computes them again. -/
def dataStart (h : Bytes) : Nat :=
  reservedSectors h + fatCopies h * sectorsPerFat h + (rootDirEntries h * 32 + 511) / 512

/-- `x & (x - 1)` is zero. -/
def powerOfTwo (x : Nat) : Prop := x &&& (x - 1) = 0

instance (x : Nat) : Decidable (powerOfTwo x) := inferInstanceAs (Decidable (_ = _))

/-- The geometry test of `fat16_prepare_write`. -/
def AcceptedGeometry (v : FatPrivate) (capacity : Nat) : Prop :=
  bytePerSector v.header = 512 ∧ sectorsPerCluster v.header ≠ 0 ∧
    powerOfTwo (sectorsPerCluster v.header) ∧ fatCopies v.header = 2 ∧
    reservedSectors v.header ≠ 0 ∧ sectorsPerFat v.header ≠ 0 ∧ rootDirEntries v.header ≠ 0 ∧
    hiddenSectors v.header = 0 ∧ fat16ClusterLimit v ≠ 0 ∧
    dataStart v.header = v.rootDirectory.endingSectorPos ∧ dataStart v.header ≤ capacity ∧
    dataStart v.header * 512 ≤ intMax

instance (v : FatPrivate) (capacity : Nat) : Decidable (AcceptedGeometry v capacity) :=
  inferInstanceAs (Decidable (_ ∧ _))

/-- The last cluster that lies inside the drive and below 2^31. -/
def writableLimit (v : FatPrivate) (capacity : Nat) : Nat :=
  let sectors := if intMax / 512 < capacity then intMax / 512 else capacity
  let sectors := if 0x10000000 < sectors then 0x10000000 else sectors
  let data := dataStart v.header
  let available := if data < sectors then (sectors - data) / sectorsPerCluster v.header else 0
  if available + 1 < fat16ClusterLimit v then available + 1 else fat16ClusterLimit v

def sectorsEqual (a b : Bytes) : Bool := (List.range sectorSize).all fun i => a i == b i

/-- Compare sector `i`, `i + 1`, … of the two FAT copies. -/
def compareFatsLoop (h : Bytes) : Nat → Nat → FsProg Unit
  | 0, _ => pure ()
  | left + 1, i => do
      let first ← onDev (diskReadBlock (reservedSectors h + i))
      let second ← onDev (diskReadBlock (reservedSectors h + sectorsPerFat h + i))
      Prog.refuse (¬ sectorsEqual first second) .eio
      compareFatsLoop h left (i + 1)

def fat16PrepareWrite : FsProg Unit := do
  let v ← Prog.look (·.vol)
  if v.mutationDisabled then Prog.raise .eio
  else if v.writeReady then pure ()
  else do
    let capacity ← onDev diskWriteCapacity
    Prog.refuse (¬ AcceptedGeometry v capacity) .eio
    Prog.change (onVol fun v => { v with maxWritable := writableLimit v capacity })
    compareFatsLoop v.header (sectorsPerFat v.header) 0
    Prog.change (onVol fun v => { v with writeReady := true })

/-! ## Single writes -/

def disableMutation : FsState → FsState := onVol fun v => { v with mutationDisabled := true }

/-- A refused request that sent no sector leaves the mount writable. -/
def fat16WriteAt (pos : Nat) (data : Bytes) (bytes : Nat) : FsProg Unit := fun s =>
  if intMax < pos then (.error .eio, disableMutation s)
  else
    match diskstreamerWrite pos data bytes s.dev with
    | (.ok (), dev) => (.ok (), { s with dev })
    | (.error (e, at'), dev) =>
        (.error .eio,
          if e ≠ .einvarg ∨ at' ≠ pos then disableMutation { s with dev } else { s with dev })

def fat16Flush : FsProg Unit := fun s =>
  match diskFlush s.dev with
  | (.ok (), dev) => (.ok (), { s with dev })
  | (.error _, dev) => (.error .eio, disableMutation { s with dev })

/-- Bytes of a list, zero past its end. -/
def ofList (l : List UInt8) : Bytes := fun i => l.getD i 0

/-- Where the entry of a cluster lies in a copy of the FAT. -/
def fatEntryPos (v : FatPrivate) (copy cluster : Nat) : Nat :=
  (reservedSectors v.header + copy * sectorsPerFat v.header) * sectorSize + cluster * 2

/-- `v` is the volume at the start of the operation; its header never changes. -/
def fat16SetEntry (v : FatPrivate) (copy cluster value : Nat) : FsProg Unit :=
  fat16WriteAt (fatEntryPos v copy cluster) (ofList (enc16 value)) 2

/-! ## Directory entries -/

def publishRoot (pos : Nat) (item : DirItem) (v : FatPrivate) : FatPrivate :=
  let root := v.rootDirectory
  let start := root.sectorPos * sectorSize
  if start ≤ pos ∧ pos - start < rootDirEntries v.header * 32 ∧ (pos - start) % 32 = 0 then
    let slot := (pos - start) / 32
    { v with rootDirectory := { root with
        item := Function.update root.item slot item
        total := if root.total ≤ slot then slot + 1 else root.total } }
  else v

/-- Renew the cached entry of a descriptor of the file at `pos`. -/
def publishDescriptor (pos : Nat) (item : DirItem) (desc : FatFileDescriptor) : FatFileDescriptor :=
  match desc.item.node with
  | .file addr _ =>
      if desc.item.entryPos = pos then
        { desc with item := { desc.item with node := .file addr item } }
      else desc
  | .directory _ => desc

def fat16Publish (pos : Nat) (item : DirItem) (v : FatPrivate) : FatPrivate :=
  let v := publishRoot pos item v
  { v with descriptors := v.descriptors.map (publishDescriptor pos item) }

def fat16CommitItem (pos : Nat) (item : DirItem) : FsProg Unit := do
  fat16WriteAt pos item.byte 32
  fat16Flush
  Prog.change (onVol (fat16Publish pos item))

def fat16Modified (item : DirItem) : DirItem :=
  (((item.put 11 [item.attrib ||| fileArchived]).put 24 (enc16 0x0021)).put 22 (enc16 0)).put 18
    (enc16 0x0021)

/-! ## Chains -/

/-- Clusters a file of `size` bytes needs. -/
def clustersFor (v : FatPrivate) (size : Nat) : Nat :=
  size / clusterBytes v + (if size % clusterBytes v ≠ 0 then 1 else 0)

/-- The loop of `fat16_collect_chain`; the bitmap `seen` marks what is listed already. -/
def collectLoop (v : FatPrivate) (capacity : Nat) : Nat → Nat → List Nat → FsProg (List Nat)
  | 0, _, _ => Prog.raise .eio
  | fuel + 1, current, chain => do
      Prog.refuse (¬ fat16ValidCluster v current ∨ v.maxWritable < current ∨
        capacity ≤ chain.length ∨ current ∈ chain) .eio
      let next ← fat16GetFatEntry current
      if eocStart ≤ next then pure (chain ++ [current])
      else do
        Prog.refuse (¬ fat16ValidCluster v next) .eio
        collectLoop v capacity fuel next (chain ++ [current])

/-- The clusters of a file and the address of their list, 0 when none was needed. -/
def fat16CollectChain (item : DirItem) : FsProg (List Nat × Nat) := do
  let v ← Prog.look (·.vol)
  Prog.refuse (item.highFirstCluster ≠ 0) .eio
  Prog.refuse (intMax < item.filesize) .efbig
  let capacity := v.maxWritable - 1
  let addr ← (if 0 < capacity then kzalloc .enomem (capacity * 2 + (v.maxWritable + 8) / 8)
    else pure 0)
  Prog.undo (m := do
    let chain ← (if item.lowFirstCluster = 0 then pure []
      else collectLoop v capacity (capacity + 1) item.lowFirstCluster [])
    Prog.refuse (chain.length < clustersFor v item.filesize) .eio
    pure (chain, addr))
    (kfreeAt addr)

def fat16CheckFileChain (item : DirItem) : FsProg Unit := do
  let v ← Prog.look (·.vol)
  let (chain, addr) ← fat16CollectChain item
  Prog.finish (m := Prog.refuse (chain.length ≠ clustersFor v item.filesize) .eio) (kfreeAt addr)

def setEntries (v : FatPrivate) (copy value : Nat) : List Nat → FsProg Unit
  | [] => pure ()
  | cluster :: chain => do
      fat16SetEntry v copy cluster value
      setEntries v copy value chain

/-- The entry a truncated file gets. -/
def emptied (item : DirItem) : DirItem :=
  fat16Modified ((item.put 26 (enc16 0)).put 28 (enc32 0))

/-- Give the clusters back, a copy at a time. -/
def freeChain (v : FatPrivate) (chain : List Nat) : FsProg Unit :=
  if chain ≠ [] then do
    setEntries v 0 0 chain
    fat16Flush
    setEntries v 1 0 chain
    fat16Flush
  else pure ()

/-- Truncate the file of `item` at `pos`; gives its new entry. -/
def fat16Truncate (item : DirItem) (pos : Nat) : FsProg DirItem := do
  let v ← Prog.look (·.vol)
  let (chain, addr) ← fat16CollectChain item
  Prog.finish (m := do
    fat16CommitItem pos (emptied item)
    freeChain v chain
    pure (emptied item))
    (kfreeAt addr)

/-! ## Creation -/

def fat16IsLfn (item : DirItem) : Bool :=
  item.byte 0 ≠ 0 && item.byte 0 ≠ 0xE5 && item.attrib &&& 0x3F = 0x0F

/-- The directory of the last part of a path, with the item that holds it. -/
def createParent : FatDirectory → Option FatItem → List (List UInt8) →
    FsProg (FatDirectory × Option FatItem × List UInt8)
  | _, parent, [] => do
      Prog.change fun s => parent.elim s (fat16FatItemFree · s)
      Prog.raise .einvarg
  | dir, parent, [last] => pure (dir, parent, last)
  | dir, parent, part :: next :: path => do
      let item ← Prog.finish (fat16FindItemInDirectory dir part)
        fun s => parent.elim s (fat16FatItemFree · s)
      match item.node with
      | .file _ _ => do
          Prog.change (fat16FatItemFree item)
          Prog.raise .einvarg
      | .directory dir => createParent dir (some item) (next :: path)

/-- Look for a slot: the first deleted one that does not follow a long name, or
the end of the directory with nothing behind it. -/
def findSlotLoop : Nat → DirectoryCursor → Option Nat → Bool → FsProg Nat
  | 0, _, _, _ => Prog.raise .eio
  | fuel + 1, cursor, slot, previousLfn => do
      let next ← fat16DirectoryNext cursor
      match next with
      | none =>
          match slot with
          | none => Prog.raise .enospc
          | some slot => pure slot
      | some (entry, pos, cursor) =>
          if entry.byte 0 = 0 then
            match slot with
            | some slot => pure slot
            | none => do
                Prog.refuse previousLfn .eio
                let after ← (fat16DirectoryNext cursor).recode fun _ => .eio
                match after with
                | none => pure pos
                | some (entry, _, _) => do
                    Prog.refuse (entry.byte 0 ≠ 0) .eio
                    pure pos
          else
            findSlotLoop fuel cursor
              (if slot = none ∧ entry.byte 0 = 0xE5 ∧ entry.attrib ≠ 0x0F ∧ ¬ previousLfn then
                some pos else slot)
              (fat16IsLfn entry)

def toUpper (c : UInt8) : UInt8 := if 0x61 ≤ c ∧ c ≤ 0x7A then c - 0x61 + 0x41 else c

/-- Split a name at its dot into the two fields; they may not overflow. -/
def shortName : List UInt8 → Bool → List UInt8 → List UInt8 → Except Errno (List UInt8 × List UInt8)
  | [], _, base, ext => .ok (base, ext)
  | c :: name, dot, base, ext =>
      if c = 0x2E then shortName name true base ext
      else if (!dot && decide (8 ≤ base.length)) || (dot && decide (3 ≤ ext.length)) then
        .error .einvarg
      else if dot then shortName name dot base (ext ++ [toUpper c])
      else shortName name dot (base ++ [toUpper c]) ext

/-- The entry of a new file. -/
def newEntry (base ext : List UInt8) : DirItem :=
  fat16Modified ((((DirItem.zero.put 0 (List.replicate 11 0x20)).put 0 base).put 8 ext).put 16
    (enc16 0x0021))

def fat16Create (path : List (List UInt8)) : FsProg FatItem := do
  let v ← Prog.look (·.vol)
  let (dir, parent, last) ← createParent v.rootDirectory none path
  Prog.finish (m := do
    let cursor ← fat16DirectoryStart dir.firstCluster
    let slot ← findSlotLoop directoryFuel cursor none false
    match shortName last false [] [] with
    | .error e => Prog.raise e
    | .ok (base, ext) => do
        let result ← fat16NewFatItemForDirectoryItem .enomem (newEntry base ext) slot
        Prog.undo (m := do
          fat16CommitItem slot (newEntry base ext)
          pure result)
          (fat16FatItemFree result))
    (fun s => parent.elim s (fat16FatItemFree · s))

/-! ## Writing -/

/-- One sector of both copies of the FAT. -/
def fatSectors (v : FatPrivate) (sector : Nat) : FsProg (Bytes × Bytes) := do
  let first ← onDev (diskReadBlock (reservedSectors v.header + sector))
  let second ← onDev (diskReadBlock (reservedSectors v.header + sectorsPerFat v.header + sector))
  pure (first, second)

/-- The same, unless it is the sector at hand. -/
def cachedFatSectors (v : FatPrivate) (loaded : Option (Nat × Bytes × Bytes)) (sector : Nat) :
    FsProg (Bytes × Bytes) :=
  match loaded with
  | some (s, first, second) => if s = sector then pure (first, second) else fatSectors v sector
  | none => fatSectors v sector

/-- Search clusters `cluster`, … up to `maxWritable` that are free in both copies,
until `chain` has `wanted` of them; `loaded` is the FAT sector at hand. -/
def allocateLoop (v : FatPrivate) (wanted : Nat) :
    Nat → Nat → Option (Nat × Bytes × Bytes) → List Nat → FsProg (List Nat)
  | 0, _, _, chain => pure chain
  | left + 1, cluster, loaded, chain =>
      if wanted ≤ chain.length then pure chain
      else do
        let (first, second) ← cachedFatSectors v loaded (cluster / 256)
        allocateLoop v wanted left (cluster + 1) (some (cluster / 256, first, second))
          (if le16 first (cluster % 256 * 2) = 0 ∧ le16 second (cluster % 256 * 2) = 0 then
            chain ++ [cluster] else chain)

/-- The clusters to add to a chain of `oldCount`; the source appends them to it. -/
def fat16Allocate (oldCount needed : Nat) : FsProg (List Nat) := do
  let v ← Prog.look (·.vol)
  Prog.refuse (v.maxWritable - 1 < needed) .enospc
  let fresh ← allocateLoop v (needed - oldCount) (v.maxWritable - 1) 2 none []
  Prog.refuse (oldCount + fresh.length ≠ needed) .enospc
  pure fresh

/-- Zero the sectors of one cluster. -/
def zeroSectors (pos : Nat) : Nat → FsProg Unit
  | 0 => pure ()
  | left + 1 => do
      fat16WriteAt pos (fun _ => 0) sectorSize
      zeroSectors (pos + sectorSize) left

def zeroClusters (v : FatPrivate) : List Nat → FsProg Unit
  | [] => pure ()
  | cluster :: clusters => do
      zeroSectors (fat16ClusterToSector v cluster * sectorSize) (sectorsPerCluster v.header)
      zeroClusters v clusters

/-- Write `left` bytes of `data`, from its byte `done` on, at file position `position`. -/
def writeDataLoop (v : FatPrivate) (chain : List Nat) (data : Bytes) :
    Nat → Nat → Nat → Nat → FsProg Unit
  | _, _, 0, _ => pure ()
  | 0, _, _ + 1, _ => Prog.raise .eio
  | fuel + 1, position, left + 1, done => do
      let part := clusterPart v (position % clusterBytes v) (left + 1)
      fat16WriteAt
        (fat16ClusterToSector v (chain.getD (position / clusterBytes v) 0) * sectorSize +
          position % clusterBytes v)
        (fun i => data (done + i)) part
      writeDataLoop v chain data fuel (position + part) (left + 1 - part) (done + part)

/-- Link the new clusters to one another in one copy; the last one ends the chain. -/
def linkClusters (v : FatPrivate) (copy : Nat) : List Nat → FsProg Unit
  | [] => pure ()
  | cluster :: clusters => do
      fat16SetEntry v copy cluster (clusters.headD 0xFFFF)
      linkClusters v copy clusters

/-- The entry after a write: first cluster, size and the modification marks. -/
def rewritten (item : DirItem) (first size : Nat) : DirItem :=
  fat16Modified ((item.put 26 (enc16 first)).put 28 (enc32 size))

/-- Hang the new clusters on the old last one, a copy at a time. -/
def attachTail (v : FatPrivate) (old fresh : List Nat) : FsProg Unit :=
  if old ≠ [] then do
    fat16SetEntry v 0 (old.getLastD 0) (fresh.headD 0)
    fat16Flush
    fat16SetEntry v 1 (old.getLastD 0) (fresh.headD 0)
    fat16Flush
  else pure ()

/-- The extension must be durable in both copies before the old tail points to it. -/
def extendChain (v : FatPrivate) (old fresh : List Nat) : FsProg Unit :=
  if fresh ≠ [] then do
    linkClusters v 0 fresh
    fat16Flush
    linkClusters v 1 fresh
    fat16Flush
    attachTail v old fresh
  else pure ()

/-- From the first sector write on: new clusters, data, links, entry. -/
def storeBytes (v : FatPrivate) (item : DirItem) (entryPos : Nat) (old fresh : List Nat)
    (start : Nat) (data : Bytes) (count size : Nat) : FsProg Unit := do
  zeroClusters v fresh
  writeDataLoop v (old ++ fresh) data count start count 0
  fat16Flush
  extendChain v old fresh
  fat16CommitItem entryPos (rewritten item ((old ++ fresh).headD 0) size)

def findDescriptor (v : FatPrivate) (desc : Nat) : Option FatFileDescriptor :=
  v.descriptors.find? fun d => d.addr = desc

def setPos (desc pos : Nat) (v : FatPrivate) : FatPrivate :=
  { v with descriptors := v.descriptors.map fun d => if d.addr = desc then { d with pos } else d }

/-- `fat16_write_bytes` after the checks of the handle: `v` is the volume, ready for writing. -/
def writeRest (v : FatPrivate) (desc : Nat) (d : FatFileDescriptor) (item : DirItem) (data : Bytes)
    (count : Nat) : FsProg Nat := do
  let start := if d.mode = .append then item.filesize else d.pos
  Prog.refuse (item.filesize < start) .einvarg
  Prog.refuse (intMax < start ∨ intMax - start < count) .efbig
  let size := if item.filesize < start + count then start + count else item.filesize
  let (old, addr) ← fat16CollectChain item
  Prog.finish (m := do
    Prog.refuse (old.length ≠ clustersFor v item.filesize) .eio
    let fresh ← fat16Allocate old.length (clustersFor v size)
    storeBytes v item d.item.entryPos old fresh start data count size
    Prog.change (onVol (setPos desc (start + count)))
    pure count)
    (kfreeAt addr)

/-- `desc` is the address of a live descriptor; descriptors for writing are files. -/
def fat16WriteBytes (desc : Nat) (data : Bytes) (count : Nat) : FsProg Nat := do
  let v ← Prog.look (·.vol)
  match findDescriptor v desc with
  | none => Prog.raise .ebadf
  | some d =>
      match d.item.node with
      | .directory _ => Prog.raise .ebadf
      | .file _ item =>
          if d.mode = .read then Prog.raise .ebadf
          else if count = 0 then pure 0
          else do
            fat16PrepareWrite
            let v ← Prog.look (·.vol)
            writeRest v desc d item data count

end Rorthox.Fat
