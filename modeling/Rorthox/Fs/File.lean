import Rorthox.Fs.Path

/-!
# The file interface

`kernel/fs/file.c`: descriptors 1 to 512 over the driver. An `int` descriptor that
is out of range is refused by each function with its own code.
-/

namespace Rorthox.Fs

open Lib Fat

/-- `RORTHOX_MAX_FILE_DESCRIPTORS`. -/
def maxFileDescriptors : Nat := 512

def setFile (i : Nat) (desc : Option FileDescriptor) (s : FsState) : FsState :=
  { s with files := Function.update s.files i desc }

def fileFreeDescriptor (desc : FileDescriptor) (s : FsState) : FsState :=
  kfreeAt desc.addr (setFile (desc.index - 1) none s)

/-- The first free slot from `i` on. -/
def freeSlot (files : Nat → Option FileDescriptor) : Nat → Nat → Option Nat
  | 0, _ => none
  | left + 1, i => if (files i).isNone then some i else freeSlot files left (i + 1)

def fileNewDescriptor : FsProg FileDescriptor := do
  let files ← Prog.look (·.files)
  match freeSlot files maxFileDescriptors 0 with
  | none => Prog.raise .enomem
  | some i => do
      let addr ← kzalloc .enomem 16
      let desc : FileDescriptor := { addr, index := i + 1, priv := 0 }
      Prog.change (setFile i (some desc))
      pure desc

def fileGetDescriptor (s : FsState) (fd : Int) : Option FileDescriptor :=
  if fd ≤ 0 ∨ (maxFileDescriptors : Int) < fd then none else s.files (fd.toNat - 1)

/-- Only the first character of a mode string counts. -/
def fileGetModeByString (str : List UInt8) : FileMode :=
  match str with
  | 0x72 :: _ => .read
  | 0x77 :: _ => .write
  | 0x61 :: _ => .append
  | _ => .invalid

/-- From the driver's `open` on. A file that is to be written gets its descriptor first. -/
def openOnDisk (path : List (List UInt8)) (mode : FileMode) : FsProg Nat :=
  if mode ≠ .read then do
    let desc ← fileNewDescriptor
    Prog.undo (m := do
      let priv ← fat16Open path mode
      Prog.change (setFile (desc.index - 1) (some { desc with priv }))
      pure desc.index)
      (fileFreeDescriptor desc)
  else do
    let priv ← fat16Open path mode
    let desc ← Prog.undo fileNewDescriptor (fat16Close priv)
    Prog.change (setFile (desc.index - 1) (some { desc with priv }))
    pure desc.index

def fopenStatus (filename modeStr : List UInt8) : FsProg Nat := do
  let mode := fileGetModeByString modeStr
  Prog.refuse (mode ≠ .read ∧ ¬ fileValidatePath filename) .einvarg
  let root ← pathparserParse filename
  Prog.finish (m := do
    Prog.refuse (root.parts = []) .einvarg
    Prog.refuse (root.driveNo ≠ 0) .eio
    let mounted ← Prog.look (·.mounted)
    Prog.refuse (¬ mounted) .eio
    Prog.refuse (mode = .invalid) .einvarg
    openOnDisk (root.parts.map (·.part)) mode)
    (pathparserFree root)

def fstat (fd : Int) : FsProg FileStat := fun s =>
  match fileGetDescriptor s fd with
  | none => (.error .eio, s)
  | some desc => fat16Stat desc.priv s

def fclose (fd : Int) : FsProg Unit := fun s =>
  match fileGetDescriptor s fd with
  | none => (.error .eio, s)
  | some desc => (.ok (), fileFreeDescriptor desc (fat16Close desc.priv s))

/-- `fopen` of the kernel: 0 instead of a negative status. -/
def fopen (filename modeStr : List UInt8) : FsProg Nat := fun s =>
  match fopenStatus filename modeStr s with
  | (.ok fd, s) => (.ok fd, s)
  | (.error _, s) => (.ok 0, s)

/-- The string `file_open` passes for a mode. -/
def modeString : FileMode → List UInt8
  | .read => [0x72]
  | .write => [0x77]
  | .append => [0x61]
  | .invalid => []

def fileOpen (filename : List UInt8) (mode : FileMode) : FsProg Nat := do
  Prog.refuse (mode = .invalid ∨ ¬ fileValidatePath filename) .einvarg
  let fd ← fopenStatus filename (modeString mode)
  let _ ← Prog.undo (fstat fd) fun s => (fclose fd s).2
  pure fd

def fileRead (fd : Int) (count : Nat) : FsProg (Nat × Bytes) := fun s =>
  match fileGetDescriptor s fd with
  | none => (.error .ebadf, s)
  | some desc =>
      if 0x7FFFFFFF < count then (.error .einvarg, s) else fat16ReadBytes desc.priv count s

def fileWrite (fd : Int) (data : Bytes) (count : Nat) : FsProg Nat := fun s =>
  match fileGetDescriptor s fd with
  | none => (.error .ebadf, s)
  | some desc =>
      if 0x7FFFFFFF < count then (.error .einvarg, s) else fat16WriteBytes desc.priv data count s

def fileSeek (fd offset : Int) (whence : SeekMode) : FsProg Nat := fun s =>
  match fileGetDescriptor s fd with
  | none => (.error .ebadf, s)
  | some desc => fat16SeekSigned desc.priv offset whence s

def fseek (fd : Int) (offset : Nat) (whence : SeekMode) : FsProg Unit := fun s =>
  match fileGetDescriptor s fd with
  | none => (.error .eio, s)
  | some desc => fat16Seek desc.priv offset whence s

def fread (size nmemb : Nat) (fd : Int) : FsProg (Nat × Bytes) := fun s =>
  if size = 0 ∨ nmemb = 0 ∨ fd < 1 then (.error .einvarg, s)
  else
    match fileGetDescriptor s fd with
    | none => (.error .einvarg, s)
    | some desc => fat16Read desc.priv size nmemb s

end Rorthox.Fs
