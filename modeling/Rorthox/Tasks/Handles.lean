import Rorthox.Fs.Handles
import Rorthox.Tasks.Process

/-!
# The files of processes

`process_open_file`, `process_close_file` and the files of `process_terminate`
(`kernel/task/process.c`) over the table of descriptors and the driver's list. The rest of a
process is its memory: the blocks a load takes from the heap and `process_terminate` gives back.
-/

namespace Rorthox.Tasks

open Lib Fat Fs Memory

/-- `RORTHOX_MAX_PROCESSES`. -/
def maxProcesses : Nat := 12

/-- A process as far as its files go: `files` of `struct process`, and its heap blocks. -/
structure Holder where
  files : Nat → Int
  blocks : List Nat

structure Kernel where
  fs : FsState
  processes : Nat → Option Holder

/-- `process->files[h] = fd`. -/
def Kernel.setHandle (k : Kernel) (p : Nat) (process : Holder) (h : Nat) (fd : Int) : Kernel :=
  { k with
    processes := Function.update k.processes p
      (some { process with files := Function.update process.files h fd }) }

/-- The first free handle from `h` on. -/
def freeHandle (files : Nat → Int) : Nat → Nat → Option Nat
  | 0, _ => none
  | left + 1, h => if files h ≠ 0 then freeHandle files left (h + 1) else some h

def processOpenFile (p : Nat) (path : List UInt8) (mode : FileMode) (k : Kernel) :
    Except Errno Nat × Kernel :=
  match k.processes p with
  | none => (.error .einvarg, k)
  | some process =>
      match freeHandle process.files fileMaxOpen 0 with
      | none => (.error .emfile, k)
      | some h =>
          -- reserved while the open runs
          let k := k.setHandle p process h (-1)
          match fileOpen path mode k.fs with
          | (.error e, fs) => (.error e, { k with fs }.setHandle p process h 0)
          | (.ok fd, fs) => (.ok (h + 1), { k with fs }.setHandle p process h fd)

def processFileDescriptor (process : Option Holder) (handle : Int) : Except Errno Int :=
  match process with
  | none => .error .ebadf
  | some process =>
      if handle < 1 ∨ (fileMaxOpen : Int) < handle ∨ process.files (handle - 1).toNat ≤ 0 then
        .error .ebadf
      else .ok (process.files (handle - 1).toNat)

def processCloseFile (p : Nat) (handle : Int) (k : Kernel) : Except Errno Unit × Kernel :=
  match k.processes p with
  | none => (.error .ebadf, k)
  | some process =>
      match processFileDescriptor (some process) handle with
      | .error e => (.error e, k)
      | .ok fd =>
          let k := k.setHandle p process (handle - 1).toNat 0
          ((fclose fd k.fs).1, { k with fs := (fclose fd k.fs).2 })

/-- One turn of `process_close_files`. -/
def closeHandle (p h : Nat) (k : Kernel) : Kernel :=
  match k.processes p with
  | none => k
  | some process =>
      let fd := process.files h
      let k := k.setHandle p process h 0
      if 0 < fd then { k with fs := (fclose fd k.fs).2 } else k

/-- The handles from `h` on. -/
def closeFilesLoop (p : Nat) : Nat → Nat → Kernel → Kernel
  | 0, _, k => k
  | left + 1, h, k => closeFilesLoop p left (h + 1) (closeHandle p h k)

def processCloseFiles (p : Nat) (k : Kernel) : Kernel := closeFilesLoop p fileMaxOpen 0 k

def freeBlocks (blocks : List Nat) (s : FsState) : FsState :=
  blocks.foldl (fun s b => kfreeAt b s) s

/-- `process_free` keeps a block whose mapping it cannot change back: those are `leaks`. The file
type of a loaded process is one of the two that `process_free_program_data` knows. -/
def processTerminate (p : Nat) (leaks : Nat → Bool) (k : Kernel) : Kernel :=
  let k := processCloseFiles p k
  match k.processes p with
  | none => k
  | some process =>
      { k with
        fs := freeBlocks (process.blocks.filter fun b => !leaks b) k.fs
        processes := Function.update k.processes p none }

/-- `kzalloc` for every size, or nothing if one is refused. -/
def takeBlocks : List Nat → List Nat → FsState → Option (List Nat) × FsState
  | [], taken, s => (some taken, s)
  | size :: sizes, taken, s =>
      match kzalloc .enomem size s with
      | (.ok b, s) => takeBlocks sizes (b :: taken) s
      | (.error _, s) => (none, freeBlocks taken s)

/-- A load as far as the tables go: the first free process slot gets a process with no files and
the blocks the load took. The file it reads is opened and closed by the kernel on its own. -/
def loadProcess (p : Nat) (sizes : List Nat) (k : Kernel) : Kernel :=
  if p < maxProcesses ∧ (k.processes p).isNone then
    match takeBlocks sizes [] k.fs with
    | (none, fs) => { k with fs }
    | (some blocks, fs) =>
        { k with
          fs, processes := Function.update k.processes p (some { files := fun _ => 0, blocks }) }
  else k

/-- `fopen`, any use of open files, `fclose`. -/
def kernelFile (filename modeStr : List UInt8) (uses : List FileOp) (k : Kernel) : Kernel :=
  match fopen filename modeStr k.fs with
  | (.ok fd, fs) =>
      let fs := uses.foldl (fun s op => (op.run s).2) fs
      if fd = 0 then { k with fs } else { k with fs := (fclose fd fs).2 }
  | (.error _, fs) => { k with fs }

inductive HandleOp where
  | openFile (p : Nat) (path : List UInt8) (mode : FileMode)
  | closeFile (p : Nat) (handle : Int)
  | terminate (p : Nat) (leaks : Nat → Bool)
  | kernelFile (filename modeStr : List UInt8) (uses : List FileOp)
  | use (op : FileOp)
  | load (p : Nat) (sizes : List Nat)

def HandleOp.run : HandleOp → Kernel → Kernel
  | .openFile p path mode, k => (processOpenFile p path mode k).2
  | .closeFile p handle, k => (processCloseFile p handle k).2
  | .terminate p leaks, k => processTerminate p leaks k
  | .kernelFile filename modeStr uses, k => Tasks.kernelFile filename modeStr uses k
  | .use op, k => { k with fs := (op.run k.fs).2 }
  | .load p sizes, k => loadProcess p sizes k

/-- Files are opened and closed by the operations for it only. -/
def HandleOp.Allowed : HandleOp → Prop
  | .kernelFile _ _ uses => ∀ op ∈ uses, op.Uses
  | .use op => op.Uses
  | _ => True

/-- The states after a mount. -/
inductive Reached : Kernel → Prop where
  | mounted (heap : KHeap) (dev : Disk.Device) (vol : FatPrivate)
      (h : (fat16Resolve { heap, dev, mounted := false, vol, files := fun _ => none }).1 = .ok ()) :
      Reached { fs := (fat16Resolve { heap, dev, mounted := false, vol, files := fun _ => none }).2
                processes := fun _ => none }
  | step {k : Kernel} (h : Reached k) (op : HandleOp) (hop : op.Allowed) : Reached (op.run k)

/-! ## The ledger of all tables -/

/-- The descriptor number that handle `n % 16` of process `n / 16` names. -/
def names (processes : Nat → Option Holder) (n : Nat) : Option Nat :=
  (processes (n / fileMaxOpen)).bind fun process =>
    if 0 < process.files (n % fileMaxOpen) then some (process.files (n % fileMaxOpen)).toNat else
      none

def handleCount : Nat := maxProcesses * fileMaxOpen

def slots (s : FsState) : List FileDescriptor := live maxFileDescriptors s.files

def blocksOf (processes : Nat → Option Holder) : Multiset Nat :=
  ((live maxProcesses processes).map fun p => (p.blocks : Multiset Nat)).sum

/-- What the tables account for. -/
def ledger (k : Kernel) : Multiset Nat :=
  ((slots k.fs).map FileDescriptor.addr : Multiset Nat) + slipMemory (slips k.fs.vol) +
    blocksOf k.processes

structure Good (k : Kernel) : Prop where
  sane : Sane k.fs
  mounted : k.fs.mounted = true
  index : ∀ i d, k.fs.files i = some d → d.index = i + 1
  inside : ∀ i d, k.fs.files i = some d → i < maxFileDescriptors
  few : ∀ p process, k.processes p = some process → p < maxProcesses
  whole : ∀ p process h, k.processes p = some process → 0 ≤ process.files h
  handles : (live handleCount (names k.processes)).Perm ((slots k.fs).map FileDescriptor.index)
  privates : ((slots k.fs).map FileDescriptor.priv).Perm ((slips k.fs.vol).map Prod.fst)
  memory : ∃ base rest, Owns base (ledger k + rest) k.fs.heap

end Rorthox.Tasks
