import Rorthox.Fat.Mutate

/-!
# The driver's interface

Mounting, and the functions of `struct filesystem` that the descriptor layer calls:
open, close, stat, the two reads and the two seeks.
-/

namespace Rorthox.Fat

open Lib Disk Memory

/-! ## Mounting -/

/-- `diskstreamer_new`: a stream is 8 bytes of heap. -/
def diskstreamerNew : FsProg Nat := kzalloc .enomem 8

def rootTotal (items : Nat → DirItem) : Nat → Nat → Nat
  | 0, i => i
  | left + 1, i => if (items i).byte 0 = 0 then i else rootTotal items left (i + 1)

def fat16GetRootDirectory (header : Bytes) : FsProg FatDirectory := do
  let sectorPos := fatCopies header * sectorsPerFat header + reservedSectors header
  let entries := rootDirEntries header
  let size := entries * 32
  let totalSectors := size / sectorSize + (if size % sectorSize ≠ 0 then 1 else 0)
  let dir ← kzalloc .enomem size
  Prog.undo (m := do
    (onDev (diskstreamerSeek (fat16SectorToAbsolute sectorPos))).recode fun _ => .eio
    let buf ← (onDev (diskstreamerRead (fat16SectorToAbsolute sectorPos) size)).recode fun _ => .eio
    let items := fun i => DirItem.load buf (i * 32)
    pure { addr := 0, itemAddr := dir, item := items, firstCluster := 0,
           total := rootTotal items entries 0, sectorPos, endingSectorPos :=
             sectorPos + totalSectors })
    (kfreeAt dir)

/-- The part of `fat16_resolve` that needs the extra stream. -/
def resolveVolume : FsProg (Bytes × FatDirectory) := do
  let stream ← diskstreamerNew
  Prog.finish (m := do
    let header ← (onDev (diskstreamerRead 0 headerSize)).recode fun _ => .eio
    Prog.refuse (signatur header ≠ 0x29) .efsnotus
    let root ← (fat16GetRootDirectory header).recode fun _ => .eio
    pure (header, root))
    (kfreeAt stream)

/-- The private data of a new mount; what was allocated goes when a later step fails. -/
def resolvePrivate : FsProg FatPrivate := do
  let addr ← kzalloc .enomem 112
  Prog.undo (m := do
    let clusterReadStream ← diskstreamerNew
    Prog.undo (m := do
      let fatReadStream ← diskstreamerNew
      Prog.undo (m := do
        let directoryStream ← diskstreamerNew
        Prog.undo (m := do
          let (header, rootDirectory) ← resolveVolume
          pure { addr, clusterReadStream, fatReadStream, directoryStream, header, rootDirectory,
                 descriptors := [], writeReady := false, mutationDisabled := false,
                 maxWritable := 0 })
          (kfreeAt directoryStream))
        (kfreeAt fatReadStream))
      (kfreeAt clusterReadStream))
    (kfreeAt addr)

/-- Mount the volume on the disk. -/
def fat16Resolve : FsProg Unit := do
  let vol ← resolvePrivate
  Prog.change fun s => { s with mounted := true, vol }

/-! ## Opening -/

/-- A file that is there, opened for writing or appending. -/
def openExisting (mode : FileMode) (item : FatItem) : FsProg FatItem :=
  match item.node with
  | .directory _ => Prog.raise .einvarg
  | .file addr entry => do
      Prog.refuse (entry.attrib &&& fileReadOnly ≠ 0) .erdonly
      if mode = .write then do
        let entry ← fat16Truncate entry item.entryPos
        pure { item with node := .file addr entry }
      else do
        fat16CheckFileChain entry
        pure item

/-- The item a descriptor is to hold. -/
def openItem (path : List (List UInt8)) (mode : FileMode) : FsProg FatItem := do
  let found ← Prog.attempt (fat16GetDirectoryEntry path)
  match found with
  | .error e => if e = .enoent ∧ mode ≠ .read then fat16Create path else Prog.raise e
  | .ok item =>
      if mode ≠ .read then Prog.undo (openExisting mode item) (fat16FatItemFree item)
      else pure item

def FatItem.filesize (item : FatItem) : Nat :=
  match item.node with
  | .file _ entry => entry.filesize
  | .directory _ => 0

/-- Gives the address of the new descriptor. -/
def fat16Open (path : List (List UInt8)) (mode : FileMode) : FsProg Nat := do
  Prog.refuse (mode = .invalid) .einvarg
  (if mode ≠ .read then fat16PrepareWrite else pure ())
  let addr ← kzalloc .enomem 20
  Prog.undo (m := do
    let item ← openItem path mode
    Prog.change (onVol fun v => { v with
      descriptors :=
        { addr, item, pos := if mode = .append then item.filesize else 0, mode } :: v.descriptors })
    pure addr)
    (kfreeAt addr)

/-! ## Using a descriptor -/

/-- `fat16_close`; it cannot fail. -/
def fat16Close (desc : Nat) (s : FsState) : FsState :=
  match findDescriptor s.vol desc with
  | none => s
  | some d =>
      kfreeAt desc (fat16FatItemFree d.item
        (onVol (fun v => { v with descriptors := v.descriptors.filter fun d => d.addr ≠ desc }) s))

structure FileStat where
  flags : Nat
  filesize : Nat

def fat16Stat (desc : Nat) : FsProg FileStat := do
  let v ← Prog.look (·.vol)
  match findDescriptor v desc with
  | none => Prog.raise .einvarg
  | some d =>
      match d.item.node with
      | .directory _ => Prog.raise .einvarg
      | .file _ item =>
          pure { filesize := item.filesize,
                 flags := if item.attrib &&& fileReadOnly ≠ 0 then 1 else 0 }

/-- The loop of `fat16_read` over the items still wanted: how many are whole and the
bytes read so far. -/
def readItemsLoop (desc size : Nat) (item : DirItem) :
    Nat → Nat → Nat → Nat → Bytes → FsProg (Nat × Bytes)
  | 0, count, _, _, out => pure (count, out)
  | left + 1, count, pos, done, out =>
      if item.filesize - pos = 0 then pure (count, out)
      else do
        let bytes := if size < item.filesize - pos then size else item.filesize - pos
        Prog.refuse (intMax < pos ∨ intMax - pos < bytes) .eio
        let buf ← fat16ReadInternal (fat16GetFirstCluster item) pos bytes
        Prog.change (onVol (setPos desc (pos + bytes)))
        if bytes ≠ size then pure (count, memcpy out done buf 0 bytes)
        else
          readItemsLoop desc size item left (count + 1) (pos + bytes) (done + bytes)
            (memcpy out done buf 0 bytes)

def fat16Read (desc size nmemb : Nat) : FsProg (Nat × Bytes) := do
  let v ← Prog.look (·.vol)
  match findDescriptor v desc with
  | none => Prog.raise .einvarg
  | some d =>
      match d.item.node with
      | .directory _ => Prog.raise .einvarg
      | .file _ item => do
          Prog.refuse (item.filesize < d.pos) .eio
          readItemsLoop desc size item nmemb 0 d.pos 0 fun _ => 0

/-- How many bytes were read, and the bytes. -/
def fat16ReadBytes (desc count : Nat) : FsProg (Nat × Bytes) := do
  let v ← Prog.look (·.vol)
  match findDescriptor v desc with
  | none => Prog.raise .ebadf
  | some d => do
      Prog.refuse (d.mode ≠ .read) .ebadf
      match d.item.node with
      | .directory _ => Prog.raise .einvarg
      | .file _ item =>
          if count = 0 ∨ item.filesize ≤ d.pos then pure (0, fun _ => 0)
          else do
            let count := if item.filesize - d.pos < count then item.filesize - d.pos else count
            Prog.refuse (intMax < d.pos ∨ intMax - d.pos < count) .eio
            let buf ← fat16ReadInternal (fat16GetFirstCluster item) d.pos count
            Prog.change (onVol (setPos desc (d.pos + count)))
            pure (count, buf)

/-- `FILE_SEEK_MODE`. -/
inductive SeekMode where
  | set
  | cur
  | fromEnd
  | other

def fat16Seek (desc offset : Nat) (whence : SeekMode) : FsProg Unit := do
  let v ← Prog.look (·.vol)
  match findDescriptor v desc with
  | none => Prog.raise .einvarg
  | some d =>
      match d.item.node with
      | .directory _ => Prog.raise .einvarg
      | .file _ item =>
          match whence with
          | .set => do
              Prog.refuse (item.filesize < offset) .eio
              Prog.change (onVol (setPos desc offset))
          | .cur => do
              Prog.refuse (item.filesize < d.pos ∨ item.filesize - d.pos < offset) .eio
              Prog.change (onVol (setPos desc (d.pos + offset)))
          | .fromEnd => Prog.raise .eunimp
          | .other => Prog.raise .einvarg

def fat16SeekSigned (desc : Nat) (offset : Int) (whence : SeekMode) : FsProg Nat := do
  let v ← Prog.look (·.vol)
  match findDescriptor v desc with
  | none => Prog.raise .einvarg
  | some d =>
      match d.item.node with
      | .directory _ => Prog.raise .einvarg
      | .file _ item => do
          let base ← (match whence with
            | .set => pure 0
            | .cur => pure d.pos
            | .fromEnd => pure item.filesize
            | .other => Prog.raise .einvarg)
          let pos := (base : Int) + offset
          Prog.refuse (pos < 0 ∨ (intMax : Int) < pos ∨ (item.filesize : Int) < pos) .einvarg
          Prog.change (onVol (setPos desc pos.toNat))
          pure pos.toNat

end Rorthox.Fat
