import Rorthox.Disk.Ata

/-!
# The driver and the command protocol

Each part of the driver follows a script: the writes it makes when it succeeds, of which
it makes a beginning when it fails. `Proper` says when a write may be made at all: never
after a wait has given up, and a command that is not a read only when the last status read
showed the drive ready.
-/

namespace Rorthox.Ata

open Lib Lib.Prog
open Disk (sectorSize)

/-! ## Logs -/

def Access.output : Access → Option (Port × UInt16)
  | .write port value => some (port, value)
  | _ => none

/-- The writes of a log, oldest first. -/
def writesOf (log : List Access) : List (Port × UInt16) := log.reverse.filterMap Access.output

theorem writesOf_append (new old : List Access) : writesOf (new ++ old) =
    writesOf old ++ writesOf new := by
  unfold writesOf
  rw [List.reverse_append, List.filterMap_append]

def Access.input : Access → Option UInt16
  | .read .data value => some value
  | _ => none

/-- The words read from the data port, oldest first. -/
def dataWords (log : List Access) : List UInt16 := log.reverse.filterMap Access.input

theorem dataWords_append (new old : List Access) :
    dataWords (new ++ old) = dataWords old ++ dataWords new := by
  unfold dataWords
  rw [List.reverse_append, List.filterMap_append]

/-- How many there are. -/
def wordsIn (log : List Access) : Nat := (dataWords log).length

theorem wordsIn_append (new old : List Access) : wordsIn (new ++ old) =
    wordsIn new + wordsIn old := by
  unfold wordsIn
  rw [dataWords_append, List.length_append, Nat.add_comm]

/-- The status read last. -/
def lastStatus : List Access → Option UInt8
  | [] => none
  | .read .command value :: _ => some value.toUInt8
  | _ :: log => lastStatus log

/-- The last status was good for a wait. -/
def Shown (signal : UInt8 → Signal) (log : List Access) : Prop :=
  ∃ status, lastStatus log = some status ∧ signal status = .good

/-- BSY and DRQ clear, DRDY set. -/
abbrev Ready (log : List Access) : Prop := Shown readySignal log

/-- The new accesses of a call, on top of the log `old`. -/
def Proper (old : List Access) : List Access → Prop
  | [] => True
  | x :: new =>
      ((∀ command, x = .write .command command → command ≠ cmdReadSectors.toUInt16 →
        Ready (new ++ old)) ∧
        (∀ port value, x = .write port value → .gaveUp ∉ new)) ∧ Proper old new

theorem Proper.append {old mid new : List Access} (hmid : Proper old mid) (hno : .gaveUp ∉ mid)
    (hnew : Proper (mid ++ old) new) : Proper old (new ++ mid) := by
  induction new with
  | nil => exact hmid
  | cons x new ih =>
    obtain ⟨⟨h1, h2⟩, h3⟩ := hnew
    refine ⟨⟨?_, ?_⟩, ih h3⟩
    · intro command hx hne
      show Ready (new ++ mid ++ old)
      rw [List.append_assoc]
      exact h1 command hx hne
    · intro port value hx hm
      rcases List.mem_append.mp hm with hm | hm
      · exact h2 port value hx hm
      · exact hno hm

/-! ## Scripts -/

/-- From a log with `P`, the program makes the writes `script` and reads `words` data words
and leaves a log with `Q`; when it fails, it has made a beginning of the writes and its code is
one of `C`. -/
def Follows {α : Type} (C : Errno → Prop) (P : List Access → Prop) (m : AtaProg α)
    (script : List (Port × UInt16)) (words : Nat) (Q : List Access → Prop) : Prop :=
  ∀ a, P a.log → Ends m a fun r a' => a'.reply = a.reply ∧ a'.verdict = a.verdict ∧
    ∃ new, a'.log = new ++ a.log ∧ Proper a.log new ∧
      match r with
      | .ok _ => writesOf new = script ∧ wordsIn new = words ∧ .gaveUp ∉ new ∧ Q a'.log
      | .error e => writesOf new <+: script ∧ C e

/-- -EIO and no other code. -/
def OnlyIO (e : Errno) : Prop := e = .eio

def AnyCode (_ : Errno) : Prop := True

theorem onlyIO : OnlyIO .eio := rfl

theorem anyCode (e : Errno) : AnyCode e := trivial

variable {α β : Type} {C : Errno → Prop} {P Q R : List Access → Prop}
  {script rest : List (Port × UInt16)} {words more : Nat}

theorem Follows.pure (v : α) : Follows C P (pure v) [] 0 P := by
  intro a ha
  exact ⟨rfl, rfl, [], rfl, trivial, rfl, rfl, List.not_mem_nil, ha⟩

theorem Follows.bind {m : AtaProg α} {f : α → AtaProg β} (hm : Follows C P m script words Q)
    (hf : ∀ v, Follows C Q (f v) rest more R) : Follows C P (m >>= f) (script ++ rest)
      (words + more) R := by
  intro a ha
  refine Ends.bind (hm a ha) ?_ ?_
  · rintro v a1 ⟨hr1, hv1, mid, hlog1, hp1, hw1, hn1, hno1, hq1⟩
    refine (hf v a1 hq1).mono ?_
    rintro r a2 ⟨hr2, hv2, new, hlog2, hp2, hcase⟩
    rw [hlog1] at hp2
    refine ⟨hr2.trans hr1, hv2.trans hv1, new ++ mid, ?_, hp1.append hno1 hp2, ?_⟩
    · rw [hlog2, hlog1, List.append_assoc]
    · rw [writesOf_append, wordsIn_append, hw1, hn1]
      cases r with
      | ok w =>
        obtain ⟨hw2, hn2, hno2, hq2⟩ := hcase
        refine ⟨by rw [hw2], by rw [hn2, Nat.add_comm], ?_, hq2⟩
        rw [List.mem_append]
        exact fun hm => hm.elim hno2 hno1
      | error e => exact ⟨(List.prefix_append_right_inj script).mpr hcase.1, hcase.2⟩
  · rintro e a1 ⟨hr1, hv1, new, hlog1, hp1, hpre, hcode⟩
    exact ⟨hr1, hv1, new, hlog1, hp1, hpre.trans (List.prefix_append _ _), hcode⟩

theorem Follows.mono {m : AtaProg α} {P' Q' : List Access → Prop}
    (hm : Follows C P m script words Q)
    (hp : ∀ log, P' log → P log) (hq : ∀ log, Q log → Q' log) : Follows C P' m script words Q' := by
  intro a ha
  refine (hm a (hp _ ha)).mono ?_
  rintro r a' ⟨hr, hv, new, hlog, hproper, hcase⟩
  refine ⟨hr, hv, new, hlog, hproper, ?_⟩
  cases r with
  | ok v => exact ⟨hcase.1, hcase.2.1, hcase.2.2.1, hq _ hcase.2.2.2⟩
  | error e => exact hcase

/-- Whatever the codes are. -/
theorem Follows.any {m : AtaProg α} (hm : Follows C P m script words Q) :
    Follows AnyCode P m script words Q := by
  intro a ha
  refine (hm a ha).mono ?_
  rintro r a' ⟨hr, hv, new, hlog, hproper, hcase⟩
  refine ⟨hr, hv, new, hlog, hproper, ?_⟩
  cases r with
  | ok v => exact hcase
  | error e => exact ⟨hcase.1, trivial⟩

theorem Follows.code {m : AtaProg α} (hm : Follows C P m script words Q) {a : Bus} {e : Errno}
    (ha : P a.log) (he : (m a).1 = .error e) : C e := by
  obtain ⟨-, -, new, -, -, hcase⟩ := ends_iff.mp (hm a ha)
  rw [he] at hcase
  exact hcase.2

/-- Nothing but a status read changes what holds. -/
def Stable (P : List Access → Prop) : Prop :=
  ∀ x log, (∀ value, x ≠ .read .command value) → P log → P (x :: log)

theorem stable_true : Stable fun _ => True := fun _ _ _ _ => trivial

theorem lastStatus_cons {x : Access} (hx : ∀ value, x ≠ .read .command value) (log : List Access) :
    lastStatus (x :: log) = lastStatus log := by
  cases x with
  | write _ _ | gaveUp => rfl
  | read port value =>
    cases port with
    | command => exact absurd rfl (hx value)
    | _ => rfl

theorem stable_shown (signal : UInt8 → Signal) : Stable (Shown signal) := by
  rintro x log hx ⟨status, hs, hg⟩
  exact ⟨status, (lastStatus_cons hx log).trans hs, hg⟩

/-! ## Ports -/

theorem follows_insb {port : Port} (hP : Stable P) (hport : port ≠ .command)
    (hdata : port ≠ .data) : Follows C P (insb port) [] 0 P := by
  intro a ha
  refine ⟨rfl, rfl, [.read port (a.reply a.log.length).toUInt8.toUInt16], rfl,
    ⟨⟨fun _ h => (by cases h), fun _ _ h => (by cases h)⟩, trivial⟩, rfl, ?_, ?_, ?_⟩
  · cases port with
    | data => exact absurd rfl hdata
    | _ => rfl
  · exact fun h => (by cases List.mem_singleton.mp h)
  · refine hP _ _ (fun value h => ?_) ha
    exact hport (Access.read.inj h).1

theorem follows_insw (hP : Stable P) : Follows C P (insw .data) [] 1 P := by
  intro a ha
  refine ⟨rfl, rfl, [.read .data (a.reply a.log.length)], rfl,
    ⟨⟨fun _ h => (by cases h), fun _ _ h => (by cases h)⟩, trivial⟩, rfl, rfl, ?_, ?_⟩
  · exact fun h => (by cases List.mem_singleton.mp h)
  · exact hP _ _ (fun value h => (by cases h)) ha

theorem follows_outw (port : Port) (value : UInt16) (hP : Stable P)
    (hready : port = .command → value ≠ cmdReadSectors.toUInt16 → ∀ log, P log → Ready log) :
    Follows C P (outw port value) [(port, value)] 0 P := by
  intro a ha
  refine ⟨rfl, rfl, [.write port value], rfl, ⟨⟨?_, ?_⟩, trivial⟩, rfl, rfl, ?_, ?_⟩
  · intro command h hne
    obtain ⟨hp, hv⟩ := Access.write.inj h
    exact hready hp (hv ▸ hne) _ ha
  · exact fun _ _ _ => List.not_mem_nil
  · exact fun h => (by cases List.mem_singleton.mp h)
  · exact hP _ _ (fun v h => (by cases h)) ha

theorem follows_outb (port : Port) (value : UInt8) (hP : Stable P)
    (hready : port = .command → value ≠ cmdReadSectors → ∀ log, P log → Ready log) :
    Follows C P (outb port value) [(port, value.toUInt16)] 0 P :=
  follows_outw port value.toUInt16 hP fun hp hv => hready hp fun he => hv (he ▸ rfl)

/-- A register that is not the command. -/
theorem follows_register (port : Port) (value : UInt8) (hP : Stable P) (hport : port ≠ .command) :
    Follows C P (outb port value) [(port, value.toUInt16)] 0 P :=
  follows_outb port value hP fun hp => absurd hp hport

theorem follows_pause (hP : Stable P) : Follows C P ataPause [] 0 P := by
  have hread : Follows C P (insb .altStatus) [] 0 P := follows_insb hP (by decide) (by decide)
  exact hread.bind fun _ => hread.bind fun _ => hread.bind fun _ => hread.bind fun _ => .pure ()

/-! ## Waits -/

/-- Giving up makes no write. -/
theorem follows_giveUp (hC : C .eio) (Q : List Access → Prop) :
    Follows C P (do Prog.change (Bus.note · .gaveUp); Prog.raise .eio : AtaProg Unit) [] 0 Q := by
  intro a _
  exact ⟨rfl, rfl, [.gaveUp], rfl, ⟨⟨fun _ h => (by cases h), fun _ _ h => (by cases h)⟩, trivial⟩,
    List.prefix_refl _, hC⟩

/-- A status read, with what it showed. -/
theorem follows_status {f : UInt8 → AtaProg α}
    (hf : ∀ v, Follows C (fun log => lastStatus log = some v) (f v) script words Q) :
    Follows C P (insb .command >>= f) script words Q := by
  intro a _
  have hsame : ((a.reply a.log.length).toUInt8.toUInt16).toUInt8 = (a.reply a.log.length).toUInt8 :=
    UInt8.toUInt8_toUInt16 _
  have hlast : lastStatus (a.note (.read .command (a.reply a.log.length).toUInt8.toUInt16)).log =
      some (a.reply a.log.length).toUInt8 := congrArg some hsame
  refine Ends.bind (R := fun r a1 => r = .ok (a.reply a.log.length).toUInt8 ∧
    a1 = a.note (.read .command (a.reply a.log.length).toUInt8.toUInt16)) ⟨rfl, rfl⟩ ?_
    fun e a1 h => (by cases h.1)
  rintro v a1 ⟨hv, rfl⟩
  obtain rfl := Except.ok.inj hv
  refine (hf _ _ hlast).mono ?_
  rintro r a' ⟨hr, hv, new, hlog, hproper, hcase⟩
  refine ⟨hr, hv, new ++ [.read .command (a.reply a.log.length).toUInt8.toUInt16], ?_, ?_, ?_⟩
  · rw [hlog, List.append_assoc]
    rfl
  · refine Proper.append ?_ ?_ hproper
    · exact ⟨⟨fun _ h => (by cases h), fun _ _ h => (by cases h)⟩, trivial⟩
    · exact fun h => (by cases List.mem_singleton.mp h)
  · rw [writesOf_append, wordsIn_append]
    cases r with
    | ok v =>
      obtain ⟨h1, h2, h3, h4⟩ := hcase
      refine ⟨h1, h2, fun h => ?_, h4⟩
      rcases List.mem_append.mp h with h | h
      · exact h3 h
      · cases List.mem_singleton.mp h
    | error e => exact hcase

/-- A wait makes no write and ends well only on a good status. -/
theorem follows_poll (hC : C .eio) (signal : UInt8 → Signal) (limit : Nat) :
    Follows C P (poll signal limit) [] 0 (Shown signal) := by
  induction limit generalizing P with
  | zero => exact follows_giveUp hC _
  | succ limit ih =>
    refine follows_status fun v => ?_
    cases hs : signal v with
    | good => exact (Follows.pure ()).mono (fun _ h => h) fun log hl => ⟨v, hl, hs⟩
    | bad => exact follows_giveUp hC _
    | again => exact ih

/-! ## Commands -/

theorem follows_select (lba : UInt32) :
    Follows OnlyIO P (ataSelect lba) [(.driveHead, (headByte lba).toUInt16)] 0 Ready := by
  have hidle := stable_shown idleSignal
  have h := (follows_poll (P := P) onlyIO idleSignal ataPollLimit).bind fun _ =>
    (follows_register .driveHead (headByte lba) hidle (by decide)).bind fun _ =>
    (follows_pause hidle).bind fun _ => follows_poll onlyIO readySignal ataPollLimit
  exact h

/-- The writes of `taskFile`. -/
def taskFileWrites (lba : UInt32) (total : Nat) (command : UInt8) : List (Port × UInt16) :=
  [(.sectorCount, (UInt8.ofNat total).toUInt16), (.lbaLow, (lba &&& 0xFF).toUInt8.toUInt16),
    (.lbaMid, ((lba >>> 8) &&& 0xFF).toUInt8.toUInt16),
    (.lbaHigh, ((lba >>> 16) &&& 0xFF).toUInt8.toUInt16), (.command, command.toUInt16)]

theorem follows_taskFile (lba : UInt32) (total : Nat) (command : UInt8) (hP : Stable P)
    (hready : command ≠ cmdReadSectors → ∀ log, P log → Ready log) :
    Follows C P (taskFile lba total command) (taskFileWrites lba total command) 0 P := by
  have h := (follows_register (C := C) .sectorCount (UInt8.ofNat total) hP (by decide)).bind
    fun _ => (follows_register .lbaLow ((lba &&& 0xFF).toUInt8) hP (by decide)).bind
    fun _ => (follows_register .lbaMid (((lba >>> 8) &&& 0xFF).toUInt8) hP
      (by decide)).bind
    fun _ => (follows_register .lbaHigh (((lba >>> 16) &&& 0xFF).toUInt8) hP
      (by decide)).bind
    fun _ => (follows_outb .command command hP fun _ => hready).bind
    fun _ => follows_pause hP
  exact h

theorem follows_readWords (hP : Stable P) (n : Nat) : Follows C P (readWords n) [] n P := by
  induction n with
  | zero => exact .pure []
  | succ n ih =>
    have h := (follows_insw (C := C) hP).bind fun word => ih.bind fun words =>
      Follows.pure (word :: words)
    have hn : 1 + (n + 0) = n + 1 := by omega
    rw [hn] at h
    exact h

theorem follows_readSector (hP : ∀ log, P log) : Follows OnlyIO Q readSector []
    (sectorSize / 2) P := by
  have hdata := stable_shown dataSignal
  have h := (follows_poll (P := Q) onlyIO dataSignal ataPollLimit).bind fun _ =>
    (follows_readWords hdata (sectorSize / 2)).bind fun words =>
    ((follows_pause hdata).mono (fun _ h => h) fun log _ => hP log).bind fun _ => Follows.pure words
  have hn : 0 + (sectorSize / 2 + (0 + 0)) = sectorSize / 2 := by omega
  rw [hn] at h
  exact h

theorem follows_readSectors (n : Nat) :
    Follows OnlyIO (fun _ => True) (readSectors n) [] (sectorSize / 2 * n) fun _ => True := by
  induction n with
  | zero => exact .pure []
  | succ n ih =>
    have h := (follows_readSector (Q := fun _ => True) fun _ => trivial).bind fun words =>
      ih.bind fun rest => Follows.pure (words ++ rest)
    have hn : sectorSize / 2 + (sectorSize / 2 * n + 0) = sectorSize / 2 * (n + 1) := by ring
    rw [hn] at h
    exact h

/-- The data word number `i` of a buffer. -/
def bufWord (buf : Nat → UInt8) (i : Nat) : UInt16 :=
  (buf (2 * i)).toUInt16 ||| ((buf (2 * i + 1)).toUInt16 <<< 8)

def dataWrites (buf : Nat → UInt8) (start n : Nat) : List (Port × UInt16) :=
  (List.range' start n).map fun i => (.data, bufWord buf i)

theorem dataWrites_append (buf : Nat → UInt8) (start m n : Nat) :
    dataWrites buf start m ++ dataWrites buf (start + m) n = dataWrites buf start (m + n) := by
  unfold dataWrites
  rw [← List.map_append, List.range'_append_1]

theorem follows_writeWords (hP : Stable P) (buf : Nat → UInt8) (n : Nat) :
    ∀ start, Follows C P (writeWords buf (2 * start) n) (dataWrites buf start n) 0 P := by
  induction n with
  | zero => exact fun start => .pure ()
  | succ n ih =>
    intro start
    have h := (follows_outw (C := C) .data (bufWord buf start) hP
      (fun hp => (by cases hp))).bind fun _ => ih (start + 1)
    exact h

theorem follows_writeSector (hP : ∀ log, P log) (buf : Nat → UInt8) (start : Nat) :
    Follows OnlyIO Q (writeSector buf (2 * start)) (dataWrites buf start (sectorSize / 2)) 0 P := by
  have hdata := stable_shown dataSignal
  have h := (follows_poll (P := Q) onlyIO dataSignal ataPollLimit).bind fun _ =>
    (follows_writeWords hdata buf (sectorSize / 2) start).bind fun _ =>
    (follows_pause hdata).mono (fun _ h => h) fun log _ => hP log
  rw [List.append_nil] at h
  exact h

theorem follows_writeSectors (buf : Nat → UInt8) (n : Nat) : ∀ start, Follows OnlyIO (fun _ => True)
    (writeSectors buf (2 * start) n) (dataWrites buf start (sectorSize / 2 * n)) 0 fun _ =>
      True := by
  induction n with
  | zero => exact fun start => .pure ()
  | succ n ih =>
    intro start
    have hposition : 2 * start + sectorSize = 2 * (start + sectorSize / 2) := by
      unfold sectorSize
      omega
    have h := (follows_writeSector (Q := fun _ => True) (fun _ => trivial) buf start).bind fun _ =>
      ih (start + sectorSize / 2)
    have hn : sectorSize / 2 + sectorSize / 2 * n = sectorSize / 2 * (n + 1) := by ring
    rw [dataWrites_append, hn] at h
    rw [writeSectors, hposition]
    exact h

/-! ## Whole commands -/

/-- The writes of READ SECTORS. -/
def readScript (lba : UInt32) (total : Nat) : List (Port × UInt16) :=
  (.driveHead, (headByte lba).toUInt16) :: taskFileWrites lba total cmdReadSectors

/-- The writes of WRITE SECTORS. -/
def writeScript (lba : UInt32) (total : Nat) (buf : Nat → UInt8) : List (Port × UInt16) :=
  (.driveHead, (headByte lba).toUInt16) :: taskFileWrites lba total cmdWriteSectors ++
    dataWrites buf 0 (sectorSize / 2 * total)

def flushScript : List (Port × UInt16) :=
  [(.driveHead, driveMasterLba.toUInt16), (.command, cmdFlushCache.toUInt16)]

def identifyScript : List (Port × UInt16) :=
  [(.driveHead, driveMasterLba.toUInt16), (.command, cmdIdentify.toUInt16)]

theorem follows_write (lba : UInt32) (total : Nat) (buf : Nat → UInt8) :
    Follows OnlyIO (fun _ => True)
    (ataWriteSectors lba total buf) (writeScript lba total buf) 0 (Shown endSignal) := by
  have hready := stable_shown readySignal
  have h := (follows_select (P := fun _ => True) lba).bind fun _ =>
    ((follows_taskFile lba total cmdWriteSectors hready fun _ _ h => h).mono
      (fun _ h => h) fun _ _ => trivial).bind fun _ =>
    (follows_writeSectors buf total 0).bind fun _ => follows_poll onlyIO endSignal ataPollLimit
  rw [List.append_nil] at h
  exact h

theorem follows_read (lba : UInt32) (total : Nat) : Follows OnlyIO (fun _ => True)
    (readCommand lba total) (readScript lba total) (sectorSize / 2 * total) (Shown endSignal) := by
  have hidle := stable_shown idleSignal
  have h := (follows_poll (P := fun _ => True) onlyIO idleSignal ataPollLimit).bind fun _ =>
    (follows_register .driveHead (headByte lba) hidle (by decide)).bind fun _ =>
    (follows_pause hidle).bind fun _ => (follows_poll onlyIO idleSignal ataPollLimit).bind fun _ =>
    ((follows_taskFile lba total cmdReadSectors hidle fun h => absurd rfl h).mono
      (fun _ h => h) fun _ _ => trivial).bind fun _ =>
    (follows_readSectors total).bind fun words => (follows_poll onlyIO endSignal ataPollLimit).bind
      fun _ =>
    Follows.pure words
  have hn : 0 + (0 + (0 + (0 + (0 + (sectorSize / 2 * total + (0 + 0)))))) =
      sectorSize / 2 * total := by ring
  rw [hn] at h
  exact h

theorem follows_flush :
    Follows OnlyIO (fun _ => True) flushCommand flushScript 0 (Shown endSignal) := by
  have hready := stable_shown readySignal
  have h := (follows_select (P := fun _ => True) 0).bind fun _ =>
    (follows_outb .command cmdFlushCache hready fun _ _ _ h => h).bind fun _ =>
    (follows_pause hready).bind fun _ => follows_poll onlyIO endSignal ataFlushPollLimit
  exact h

/-! ## IDENTIFY -/

/-- The program ends with an error and makes no more than reads. -/
def Silent (m : AtaProg α) : Prop :=
  ∀ a, Ends m a fun r a' => a'.reply = a.reply ∧ a'.verdict = a.verdict ∧ (∃ e, r = .error e) ∧
    ∃ new, a'.log = new ++ a.log ∧ ∀ x ∈ new, ∃ port value, x = .read port value

theorem silent_raise (e : Errno) : Silent (Prog.raise e : AtaProg α) := by
  intro a
  exact ⟨rfl, rfl, ⟨e, rfl⟩, [], rfl, fun x hx => (by cases hx)⟩

theorem Silent.insb {port : Port} {f : UInt8 → AtaProg α} (hf : ∀ v, Silent (f v)) :
    Silent (insb port >>= f) := by
  intro a
  refine Ends.bind (R := fun r a1 => ∃ v, r = .ok v ∧ a1 = a.note (.read port v.toUInt16))
    ⟨_, rfl, rfl⟩ ?_ (by rintro e a1 ⟨v, h, -⟩; cases h)
  rintro v a1 ⟨w, -, rfl⟩
  refine (hf v _).mono ?_
  rintro r a' ⟨hr, hv, he, new, hlog, hreads⟩
  refine ⟨hr, hv, he, new ++ [.read port w.toUInt16], ?_, ?_⟩
  · rw [hlog, List.append_assoc]
    rfl
  · intro x hx
    rcases List.mem_append.mp hx with hx | hx
    · exact hreads x hx
    · exact ⟨port, w.toUInt16, List.mem_singleton.mp hx⟩

theorem silent_ite {c : Prop} [Decidable c] {f g : AtaProg α} (hf : Silent f) (hg : Silent g) :
    Silent (if c then f else g) := by
  by_cases h : c
  · rw [if_pos h]
    exact hf
  · rw [if_neg h]
    exact hg

theorem identifyRefused_silent (e : Errno) : Silent (identifyRefused e) :=
  Silent.insb fun _ => silent_ite (Silent.insb fun _ =>
    silent_ite (silent_raise _) (silent_raise _)) (silent_raise _)

theorem reads_writesOf {new : List Access} (h : ∀ x ∈ new, ∃ port value, x = .read port value) :
    writesOf new = [] := by
  unfold writesOf
  refine List.filterMap_eq_nil_iff.mpr fun x hx => ?_
  obtain ⟨port, value, rfl⟩ := h x (List.mem_reverse.mp hx)
  rfl

theorem Proper.reads {old mid new : List Access} (hmid : Proper old mid)
    (h : ∀ x ∈ new, ∃ port value, x = .read port value) : Proper old (new ++ mid) := by
  induction new with
  | nil => exact hmid
  | cons x new ih =>
    obtain ⟨port, value, rfl⟩ := h x List.mem_cons_self
    exact ⟨⟨fun _ h => (by cases h), fun _ _ h => (by cases h)⟩,
      ih fun y hy => h y (List.mem_cons_of_mem _ hy)⟩

/-- A program whose failure is looked into by reads alone. -/
theorem Follows.rescue {m : AtaProg α} {f : Except Errno α → AtaProg β}
    (hm : Follows AnyCode P m script words Q) (hok : ∀ v, Follows AnyCode Q (f (.ok v)) rest more R)
    (herr : ∀ e, Silent (f (.error e))) :
    Follows AnyCode P (Prog.attempt m >>= f) (script ++ rest) (words + more) R := by
  intro a ha
  cases hr : m a with
  | mk r a1 =>
    have hatt : Prog.attempt m a = (.ok r, a1) := by
      rw [Prog.attempt_apply, hr]
    have h1 := hm a ha
    unfold Ends at h1
    rw [hr] at h1
    cases r with
    | ok v =>
      -- as in a plain sequence
      have hseq := (hm.bind hok) a ha
      unfold Ends at hseq ⊢
      rw [Prog.bind_ok hr] at hseq
      rw [Prog.bind_ok hatt]
      exact hseq
    | error e =>
      obtain ⟨hr1, hv1, mid, hlog1, hp1, hpre, -⟩ := h1
      have h2 := herr e a1
      unfold Ends at h2 ⊢
      rw [Prog.bind_ok hatt]
      obtain ⟨hr2, hv2, ⟨e', he'⟩, new, hlog2, hreads⟩ := h2
      refine ⟨hr2.trans hr1, hv2.trans hv1, new ++ mid, ?_, hp1.reads hreads, ?_⟩
      · rw [hlog2, hlog1, List.append_assoc]
      · rw [he', writesOf_append, reads_writesOf hreads, List.append_nil]
        exact ⟨hpre.trans (List.prefix_append _ _), trivial⟩

theorem follows_answer (r : Except Errno α) : Follows AnyCode P (answer r) [] 0 P := by
  intro a ha
  refine ⟨rfl, rfl, [], rfl, trivial, ?_⟩
  cases r with
  | ok v => exact ⟨rfl, rfl, List.not_mem_nil, ha⟩
  | error e => exact ⟨List.prefix_refl _, trivial⟩

theorem follows_refuse (c : Prop) [Decidable c] (e : Errno) :
    Follows AnyCode P (Prog.refuse c e) [] 0 P := by
  unfold Prog.refuse
  by_cases h : c
  · rw [if_pos h]
    exact follows_answer (.error e)
  · rw [if_neg h]
    exact .pure ()

/-- `ata_identify` up to the command. -/
def identifyCommand : AtaProg Unit := do
  ataWaitIdle
  outb .driveHead driveMasterLba
  ataPause
  let status ← insb .command
  Prog.refuse (status = 0x00 ∨ status = 0xFF) .erdonly
  ataWaitReady
  outb .command cmdIdentify
  ataPause

/-- The data of `ata_identify`. -/
def identifyWords : AtaProg (List UInt16) := do
  let words ← readWords (sectorSize / 2)
  ataPause
  ataWaitDone
  pure words

/-- What `ata_identify` does once the drive has answered. -/
def identifyAnswer : Except Errno Unit → AtaProg UInt32
  | .error e => identifyRefused e
  | .ok () => identifyWords >>= fun words => answer (identifySectors words)

theorem ataIdentify_eq :
    ataIdentify = identifyCommand >>= fun _ => Prog.attempt ataWaitData >>= identifyAnswer := by
  have hanswer : identifyAnswer = fun res => (match res with
      | .error e => identifyRefused e
      | .ok () => do
          let words ← readWords (sectorSize / 2)
          ataPause
          ataWaitDone
          answer (identifySectors words)) := by
    funext res
    cases res with
    | error e => rfl
    | ok u =>
      unfold identifyAnswer identifyWords
      simp only [bind_assoc, pure_bind]
  have hcommand (k : Unit → AtaProg UInt32) : identifyCommand >>= k = (do
      ataWaitIdle
      outb .driveHead driveMasterLba
      ataPause
      let status ← insb .command
      Prog.refuse (status = 0x00 ∨ status = 0xFF) .erdonly
      ataWaitReady
      outb .command cmdIdentify
      ataPause
      k ()) := by
    unfold identifyCommand
    simp only [bind_assoc]
  rw [hcommand, hanswer]
  rfl

theorem follows_identifyCommand : Follows AnyCode (fun _ => True) identifyCommand identifyScript 0
    Ready := by
  have hidle := stable_shown idleSignal
  have hready := stable_shown readySignal
  have h := (follows_poll (P := fun _ => True) (anyCode _) idleSignal ataPollLimit).bind fun _ =>
    (follows_register .driveHead driveMasterLba hidle (by decide)).bind fun _ =>
    (follows_pause hidle).bind fun _ => follows_status fun status =>
    (follows_refuse (status = 0x00 ∨ status = 0xFF) .erdonly).bind fun _ =>
    (follows_poll (anyCode _) readySignal ataPollLimit).bind fun _ =>
    (follows_outb .command cmdIdentify hready fun _ _ _ h => h).bind fun _ => follows_pause hready
  exact h

theorem follows_identifyWords :
    Follows AnyCode (fun _ => True) identifyWords [] (sectorSize / 2) (Shown endSignal) := by
  have h : Follows AnyCode (fun _ => True) (do
      let words ← readWords (sectorSize / 2)
      ataPause
      ataWaitDone
      pure words) [] (sectorSize / 2 + (0 + (0 + 0))) (Shown endSignal) :=
    (follows_readWords stable_true (sectorSize / 2)).bind fun words =>
      (follows_pause stable_true).bind fun _ => (follows_poll (anyCode _) endSignal
        ataPollLimit).bind fun _ =>
      Follows.pure words
  have hn : sectorSize / 2 + (0 + (0 + 0)) = sectorSize / 2 := by omega
  rw [hn] at h
  exact h

theorem follows_identify :
    Follows AnyCode (fun _ => True) ataIdentify identifyScript (sectorSize / 2)
      (Shown endSignal) := by
  have hanswer := ((follows_poll (P := Ready) (anyCode _) dataSignal ataPollLimit).mono
    (fun _ h => h) fun _ _ => trivial).rescue (f := identifyAnswer)
    (fun _ => follows_identifyWords.bind fun words => follows_answer (identifySectors words))
    identifyRefused_silent
  rw [ataIdentify_eq]
  exact follows_identifyCommand.bind fun _ => hanswer

end Rorthox.Ata
