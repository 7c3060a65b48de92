import Rorthox.Disk.Device

/-!
# The ATA driver

`kernel/disk/disk.c` at its ports. What a port read gives is up to the drive: `reply n`
is any word, a byte read takes its low half. The log holds every port access and a mark
where a wait has given up.
-/

namespace Rorthox.Ata

open Lib
open Disk (sectorSize)

/-- The ports of the primary channel. -/
inductive Port where
  | data
  | error
  | sectorCount
  | lbaLow
  | lbaMid
  | lbaHigh
  | driveHead
  /-- 0x1F7: the status when it is read, the command when it is written. -/
  | command
  | altStatus
  deriving DecidableEq

inductive Access where
  | read (port : Port) (value : UInt16)
  | write (port : Port) (value : UInt16)
  /-- A wait has failed. -/
  | gaveUp
  deriving DecidableEq

/-- The drive's answers to come, what was done at the ports, and the driver's own state. -/
structure Bus where
  reply : Nat → UInt16
  /-- Newest first. -/
  log : List Access
  /-- `write_checked`, `write_status` and `write_sectors`: what IDENTIFY gave, once asked. -/
  verdict : Option (Except Errno UInt32)

abbrev AtaProg := Prog Bus Errno

def Bus.note (a : Bus) (x : Access) : Bus := { a with log := x :: a.log }

def insw (port : Port) : AtaProg UInt16 := fun a =>
  let value := a.reply a.log.length
  (.ok value, a.note (.read port value))

def insb (port : Port) : AtaProg UInt8 := fun a =>
  let value := (a.reply a.log.length).toUInt8
  (.ok value, a.note (.read port value.toUInt16))

def outw (port : Port) (value : UInt16) : AtaProg Unit :=
  Prog.change (Bus.note · (.write port value))

def outb (port : Port) (value : UInt8) : AtaProg Unit := outw port value.toUInt16

def srErr : UInt8 := 0x01
def srDrq : UInt8 := 0x08
def srDf : UInt8 := 0x20
def srDrdy : UInt8 := 0x40
def srBsy : UInt8 := 0x80
def erAbrt : UInt8 := 0x04

def cmdReadSectors : UInt8 := 0x20
def cmdWriteSectors : UInt8 := 0x30
def cmdFlushCache : UInt8 := 0xE7
def cmdIdentify : UInt8 := 0xEC
def driveMasterLba : UInt8 := 0xE0
def ataLba28Limit : Nat := 0x10000000
def ataMaxSectors : Nat := 256
def ataPollLimit : Nat := 1000000
def ataFlushPollLimit : Nat := 100000000
def ataLba28Sectors : UInt32 := 0x0FFFFFFF

/-! ## Waiting -/

/-- What a status says to a wait. -/
inductive Signal where
  | good
  | bad
  | again

/-- Read the status at most `limit` times. -/
def poll (signal : UInt8 → Signal) : Nat → AtaProg Unit
  | 0 => do
      Prog.change (Bus.note · .gaveUp)
      Prog.raise .eio
  | limit + 1 => do
      let status ← insb .command
      match signal status with
      | .good => pure ()
      | .bad => do
          Prog.change (Bus.note · .gaveUp)
          Prog.raise .eio
      | .again => poll signal limit

def idleSignal (status : UInt8) : Signal :=
  if status &&& (srBsy ||| srDrq) = 0 then .good else .again

def dataSignal (status : UInt8) : Signal :=
  if status &&& srBsy ≠ 0 then .again
  else if status &&& (srErr ||| srDf) ≠ 0 then .bad
  else if status &&& srDrq ≠ 0 then .good
  else .again

def endSignal (status : UInt8) : Signal :=
  if status &&& srBsy ≠ 0 then .again
  else if status &&& (srErr ||| srDf ||| srDrq) ≠ 0 then .bad
  else .good

def readySignal (status : UInt8) : Signal :=
  if status &&& (srBsy ||| srDrq) = 0 ∧ status &&& srDrdy ≠ 0 then .good else .again

def ataWaitIdle : AtaProg Unit := poll idleSignal ataPollLimit
def ataWaitData : AtaProg Unit := poll dataSignal ataPollLimit
def ataWaitEnd (limit : Nat) : AtaProg Unit := poll endSignal limit
def ataWaitDone : AtaProg Unit := ataWaitEnd ataPollLimit
def ataWaitReady : AtaProg Unit := poll readySignal ataPollLimit

def ataPause : AtaProg Unit := do
  let _ ← insb .altStatus
  let _ ← insb .altStatus
  let _ ← insb .altStatus
  let _ ← insb .altStatus
  pure ()

/-! ## Commands -/

def headByte (lba : UInt32) : UInt8 := driveMasterLba ||| ((lba >>> 24) &&& 0x0F).toUInt8

def ataSelect (lba : UInt32) : AtaProg Unit := do
  ataWaitIdle
  outb .driveHead (headByte lba)
  ataPause
  ataWaitReady

/-- The registers of a command with data, and the command. -/
def taskFile (lba : UInt32) (total : Nat) (command : UInt8) : AtaProg Unit := do
  outb .sectorCount (UInt8.ofNat total)
  outb .lbaLow (lba &&& 0xFF).toUInt8
  outb .lbaMid ((lba >>> 8) &&& 0xFF).toUInt8
  outb .lbaHigh ((lba >>> 16) &&& 0xFF).toUInt8
  outb .command command
  ataPause

def readWords : Nat → AtaProg (List UInt16)
  | 0 => pure []
  | n + 1 => do
      let word ← insw .data
      let words ← readWords n
      pure (word :: words)

/-- One turn of the loop in `disk_read_sector`. -/
def readSector : AtaProg (List UInt16) := do
  ataWaitData
  let words ← readWords (sectorSize / 2)
  ataPause
  pure words

def readSectors : Nat → AtaProg (List UInt16)
  | 0 => pure []
  | n + 1 => do
      let words ← readSector
      let rest ← readSectors n
      pure (words ++ rest)

/-- A count outside 1..256 or a sector past 28 bits. -/
def BadRange (lba : UInt32) (total : Int) : Prop :=
  (total < 1 ∨ total > ataMaxSectors) ∨
    (lba.toNat ≥ ataLba28Limit ∨ total.toNat - 1 > ataLba28Limit - 1 - lba.toNat)

instance (lba : UInt32) (total : Int) : Decidable (BadRange lba total) :=
  inferInstanceAs (Decidable ((_ ∨ _) ∨ (_ ∨ _)))

/-- `disk_read_sector` behind its checks. -/
def readCommand (lba : UInt32) (total : Nat) : AtaProg (List UInt16) := do
  ataWaitIdle
  outb .driveHead (headByte lba)
  ataPause
  ataWaitIdle
  taskFile lba total cmdReadSectors
  let words ← readSectors total
  ataWaitDone
  pure words

/-- The words that come to stand in `buf`, which is given as null or not. -/
def diskReadSector (lba : UInt32) (total : Int) (buf : Bool) : AtaProg (List UInt16) := do
  Prog.refuse (buf = false ∨ BadRange lba total) .einvarg
  readCommand lba total.toNat

/-- The end of `ata_identify`: the sectors that can be written, from the 256 words. -/
def identifySectors (words : List UInt16) : Except Errno UInt32 :=
  let general := words.getD 0 0
  let capabilities := words.getD 49 0
  let sectors := (words.getD 60 0).toUInt32 ||| ((words.getD 61 0).toUInt32 <<< 16)
  let commandSet := words.getD 83 0
  let sectorSize := words.getD 106 0
  let size := (words.getD 117 0).toUInt32 ||| ((words.getD 118 0).toUInt32 <<< 16)
  if general &&& 0x8004 ≠ 0 ∨ capabilities &&& 0x0200 = 0 then .error .erdonly
  else if sectors = 0 then .error .erdonly
  else if commandSet &&& 0xC000 ≠ 0x4000 ∨ commandSet &&& 0x1000 = 0 then .error .erdonly
  else if sectorSize &&& 0xC000 = 0x4000 ∧ sectorSize &&& 0x1000 ≠ 0 ∧ size ≠ 256 then
    .error .erdonly
  else .ok (if sectors > ataLba28Sectors then ataLba28Sectors else sectors)

/-- End with a result that is there. -/
def answer {α : Type} (r : Except Errno α) : AtaProg α := fun a => (r, a)

/-- The answer to an IDENTIFY that brought no data. -/
def identifyRefused (e : Errno) : AtaProg UInt32 := do
  let status ← insb .altStatus
  if status &&& (srBsy ||| srDf ||| srErr) = srErr then do
    let error ← insb .error
    if error &&& erAbrt ≠ 0 then Prog.raise .erdonly else Prog.raise e
  else Prog.raise e

def ataIdentify : AtaProg UInt32 := do
  ataWaitIdle
  outb .driveHead driveMasterLba
  ataPause
  let status ← insb .command
  Prog.refuse (status = 0x00 ∨ status = 0xFF) .erdonly
  ataWaitReady
  outb .command cmdIdentify
  ataPause
  let res ← Prog.attempt ataWaitData
  match res with
  | .error e => identifyRefused e
  | .ok () => do
      let words ← readWords (sectorSize / 2)
      ataPause
      ataWaitDone
      answer (identifySectors words)

def writeWords (buf : Nat → UInt8) (position : Nat) : Nat → AtaProg Unit
  | 0 => pure ()
  | n + 1 => do
      outw .data ((buf position).toUInt16 ||| ((buf (position + 1)).toUInt16 <<< 8))
      writeWords buf (position + 2) n

/-- One turn of the loop in `ata_write_sectors`. -/
def writeSector (buf : Nat → UInt8) (position : Nat) : AtaProg Unit := do
  ataWaitData
  writeWords buf position (sectorSize / 2)
  ataPause

def writeSectors (buf : Nat → UInt8) (position : Nat) : Nat → AtaProg Unit
  | 0 => pure ()
  | n + 1 => do
      writeSector buf position
      writeSectors buf (position + sectorSize) n

def ataWriteSectors (lba : UInt32) (total : Nat) (buf : Nat → UInt8) : AtaProg Unit := do
  ataSelect lba
  taskFile lba total cmdWriteSectors
  writeSectors buf 0 total
  ataWaitDone

/-! ## Entry points -/

/-- IDENTIFY once, and keep the answer. -/
def diskCheckWritable : AtaProg UInt32 := fun a =>
  match a.verdict with
  | some v => (v, a)
  | none => ((ataIdentify a).1, { (ataIdentify a).2 with verdict := some (ataIdentify a).1 })

/-- What the kernel asks of the driver. `own` tells whether the disk is the one there is. -/
inductive Request where
  | read (own : Bool) (lba : UInt32) (total : Int) (buf : Bool)
  | write (own : Bool) (lba : UInt32) (total : Int) (buf : Option (Nat → UInt8))
  | flush (own : Bool)
  | capacity (own : Bool) (sectors : Bool)

def diskReadBlock (own : Bool) (lba : UInt32) (total : Int) (buf : Bool) :
    AtaProg (List UInt16) := do
  Prog.refuse (own = false) .eio
  diskReadSector lba total buf

def diskWriteCapacity (own sectors : Bool) : AtaProg UInt32 := do
  Prog.refuse (own = false) .eio
  Prog.refuse (sectors = false) .einvarg
  diskCheckWritable

def diskWriteBlock (own : Bool) (lba : UInt32) (total : Int) (buf : Option (Nat → UInt8)) :
    AtaProg Unit := do
  Prog.refuse (own = false) .eio
  match buf with
  | none => Prog.raise .einvarg
  | some buf => do
      Prog.refuse (BadRange lba total) .einvarg
      let sectors ← diskCheckWritable
      Prog.refuse (lba ≥ sectors ∨ total.toNat > (sectors - lba).toNat) .einvarg
      ataWriteSectors lba total.toNat buf

/-- `disk_flush` behind its checks. -/
def flushCommand : AtaProg Unit := do
  ataSelect 0
  outb .command cmdFlushCache
  ataPause
  ataWaitEnd ataFlushPollLimit

def diskFlush (own : Bool) : AtaProg Unit := do
  Prog.refuse (own = false) .eio
  let _ ← diskCheckWritable
  flushCommand

def Request.run : Request → AtaProg Unit
  | .read own lba total buf => do
      let _ ← diskReadBlock own lba total buf
      pure ()
  | .write own lba total buf => diskWriteBlock own lba total buf
  | .flush own => diskFlush own
  | .capacity own sectors => do
      let _ ← diskWriteCapacity own sectors
      pure ()

end Rorthox.Ata
