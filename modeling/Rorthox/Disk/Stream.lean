import Rorthox.Disk.Streamer
import Rorthox.Lib.Loop

/-!
# Streams

`kernel/disk/streamer.c` with the stream itself: its position and the caller's buffer stay as
a failure leaves them. A request goes piece by piece, one for each sector it meets, and every
piece takes one sector operation, or two where a write covers only a part of the sector.
-/

namespace Rorthox.Disk

open Lib

/-- The drive, the position of the stream and the buffer a read fills. -/
structure Stream where
  dev : Device
  pos : Nat
  out : Bytes

def onDrive {α : Type} (m : Prog Device Errno α) : Prog Stream Errno α := fun s =>
  ((m s.dev).1, { s with dev := (m s.dev).2 })

def streamSeek (pos : Int) : Prog Stream Errno Unit := do
  Prog.refuse (pos < 0) .einvarg
  Prog.change fun s => { s with pos := pos.toNat }

def readPiece (total done : Nat) : Prog Stream Errno Unit := do
  let pos ← Prog.look (·.pos)
  let buf ← onDrive (diskReadBlock (pos / sectorSize))
  Prog.change fun s =>
    { s with
      pos := pos + sectorPart pos total
      out := memcpy s.out done buf (pos % sectorSize) (sectorPart pos total) }

def streamReadLoop : Nat → Nat → Nat → Prog Stream Errno Unit
  | _, 0, _ => pure ()
  | 0, _ + 1, _ => Prog.raise .eio
  | fuel + 1, total + 1, done => do
      let pos ← Prog.look (·.pos)
      readPiece (total + 1) done
      streamReadLoop fuel (total + 1 - sectorPart pos (total + 1))
        (done + sectorPart pos (total + 1))

def streamRead (total : Int) : Prog Stream Errno Unit := do
  let pos ← Prog.look (·.pos)
  Prog.refuse (total < 0 ∨ intMax - pos < total) .einvarg
  streamReadLoop total.toNat total.toNat 0

def writePiece (data : Bytes) (total done : Nat) : Prog Stream Errno Unit := do
  let pos ← Prog.look (·.pos)
  let block ← onDrive (blockFor data pos total done)
  onDrive (diskWriteBlock (pos / sectorSize) block)
  Prog.change fun s => { s with pos := pos + sectorPart pos total }

def streamWriteLoop (data : Bytes) : Nat → Nat → Nat → Prog Stream Errno Unit
  | _, 0, _ => pure ()
  | 0, _ + 1, _ => Prog.raise .eio
  | fuel + 1, total + 1, done => do
      let pos ← Prog.look (·.pos)
      writePiece data (total + 1) done
      streamWriteLoop data fuel (total + 1 - sectorPart pos (total + 1))
        (done + sectorPart pos (total + 1))

/-- `buffer` is `none` for a null pointer. -/
def streamWrite (buffer : Option Bytes) (total : Int) : Prog Stream Errno Unit := do
  let pos ← Prog.look (·.pos)
  Prog.refuse (total < 0 ∨ intMax - pos < total ∨ (total ≠ 0 ∧ buffer.isNone)) .einvarg
  streamWriteLoop (buffer.getD fun _ => 0) total.toNat total.toNat 0

/-! ## The position passed along -/

variable {s : Stream} {d d' d1 dev : Device} {done j k lba m n : Nat}

section Positions

variable {α β : Type}

theorem onDrive_ok {m : Prog Device Errno α} {a : α} (h : m s.dev = (.ok a, d)) :
    onDrive m s = (.ok a, { s with dev := d }) := by
  rw [onDrive, h]

theorem onDrive_error {m : Prog Device Errno α} {e : Errno} (h : m s.dev = (.error e, d)) :
    onDrive m s = (.error e, { s with dev := d }) := by
  rw [onDrive, h]

theorem recode_ok {m : Prog Device Errno α} {f : Errno → β} {a : α} (h : m d = (.ok a, d')) :
    m.recode f d = (.ok a, d') := by
  rw [Prog.recode, h]

theorem recode_error {m : Prog Device Errno α} {f : Errno → β} {e : Errno}
    (h : m d = (.error e, d')) : m.recode f d = (.error (f e), d') := by
  rw [Prog.recode, h]

/-- What a write with its position passed along says of the stream. -/
def Stream.wrote (s : Stream) (total : Nat) : Except (Errno × Nat) Unit × Device →
    Except Errno Unit × Stream
  | (.ok (), dev) => (.ok (), { s with dev, pos := s.pos + total })
  | (.error (e, pos), dev) => (.error e, { s with dev, pos })

theorem wrote_congr {pos : Nat} (h : pos + n = s.pos + m) {r : Except (Errno × Nat) Unit × Device} :
    Stream.wrote { s with dev, pos } n r = s.wrote m r := by
  obtain ⟨_ | u, d⟩ := r
  · rfl
  · simp only [Stream.wrote, h]

theorem streamWriteLoop_eq (data : Bytes) (fuel : Nat) : ∀ (total done : Nat) (s : Stream),
    streamWriteLoop data fuel total done s = s.wrote total
      (writeLoop data fuel s.pos total done s.dev) := by
  induction fuel with
  | zero =>
    intro total done s
    cases total with
    | zero | succ _ => rfl
  | succ fuel ih =>
    intro total done s
    cases total with
    | zero => rfl
    | succ total =>
      have hle := sectorPart_le s.pos (total + 1)
      rw [streamWriteLoop, writeLoop, Prog.bind_ok (Prog.look_apply _ _), writePiece, bind_assoc,
        Prog.bind_ok (Prog.look_apply _ _), bind_assoc]
      cases hblock : blockFor data s.pos (total + 1) done s.dev with
      | mk r d1 =>
        cases r with
        | error e =>
          have hcode := recode_error (f := fun e => (e, s.pos)) hblock
          rw [Prog.bind_error (onDrive_error hblock), Prog.bind_error hcode]
          rfl
        | ok block =>
          have hcode := recode_ok (f := fun e => (e, s.pos)) hblock
          rw [Prog.bind_ok (onDrive_ok hblock), Prog.bind_ok hcode, bind_assoc]
          cases hwrite : diskWriteBlock (s.pos / sectorSize) block d1 with
          | mk r d2 =>
            cases r with
            | error e =>
              have hcode := recode_error (f := fun e => (e, s.pos)) hwrite
              rw [Prog.bind_error (onDrive_error (s := { s with dev := d1 }) hwrite),
                Prog.bind_error hcode]
              rfl
            | ok u =>
              have hcode := recode_ok (f := fun e => (e, s.pos)) hwrite
              rw [Prog.bind_ok (onDrive_ok (s := { s with dev := d1 }) hwrite), Prog.bind_ok hcode,
                Prog.bind_ok (Prog.change_apply _ _), ih]
              exact wrote_congr (s := s) (by omega)

/-- `diskstreamer_write` with the stream is the write with its position passed along. -/
theorem streamWrite_eq (data : Bytes) (total : Nat) (s : Stream) (hpos : s.pos ≤ intMax) :
    streamWrite (some data) total s = s.wrote total (diskstreamerWrite s.pos data total s.dev) := by
  rw [streamWrite, Prog.bind_ok (Prog.look_apply _ _), diskstreamerWrite]
  by_cases h : intMax - s.pos < total
  · rw [Prog.refuse_of (Or.inr (Or.inl (by omega))), Prog.refuse_of (Or.inr h)]
    rfl
  · rw [Prog.refuse_of_not (by simp; omega), Prog.refuse_of_not (by omega), pure_bind, pure_bind,
      Int.toNat_natCast]
    exact streamWriteLoop_eq data total total 0 s

/-- What a read with its position passed along says of the stream. -/
def Stream.got (s : Stream) (total : Nat) : Except Errno Bytes × Device →
    Except Errno Unit × Stream → Prop
  | (.ok bytes, dev), r => r = (.ok (), ⟨dev, s.pos + total, bytes⟩)
  | (.error e, dev), r => r.1 = .error e ∧ r.2.dev = dev

theorem got_congr {out : Bytes} {pos : Nat} (h : pos + n = s.pos + m)
    {r : Except Errno Bytes × Device} {r' : Except Errno Unit × Stream}
    (hr : Stream.got ⟨dev, pos, out⟩ n r r') : s.got m r r' := by
  obtain ⟨_ | bytes, d⟩ := r
  · exact hr
  · simpa only [Stream.got, h] using hr

theorem streamReadLoop_got (fuel : Nat) : ∀ (total done : Nat) (s : Stream),
    s.got total (readLoop fuel s.pos total done s.out s.dev)
      (streamReadLoop fuel total done s) := by
  induction fuel with
  | zero =>
    intro total done s
    cases total with
    | zero => rfl
    | succ total => exact ⟨rfl, rfl⟩
  | succ fuel ih =>
    intro total done s
    cases total with
    | zero => rfl
    | succ total =>
      have hle := sectorPart_le s.pos (total + 1)
      rw [streamReadLoop, readLoop, Prog.bind_ok (Prog.look_apply _ _), readPiece, bind_assoc,
        Prog.bind_ok (Prog.look_apply _ _), bind_assoc]
      cases hread : diskReadBlock (s.pos / sectorSize) s.dev with
      | mk r d1 =>
        cases r with
        | error e =>
          rw [Prog.bind_error (onDrive_error hread), Prog.bind_error hread]
          exact ⟨rfl, rfl⟩
        | ok buf =>
          rw [Prog.bind_ok (onDrive_ok hread), Prog.bind_ok hread,
            Prog.bind_ok (Prog.change_apply _ _)]
          exact got_congr (s := s) (by omega) (ih _ _ _)

/-- `diskstreamer_read` with the stream, into a buffer of zeros, is the read with its position
passed along. -/
theorem streamRead_got (total : Nat) (s : Stream) (hpos : s.pos ≤ intMax)
    (hout : s.out = fun _ => 0) :
    s.got total (diskstreamerRead s.pos total s.dev) (streamRead total s) := by
  rw [streamRead, Prog.bind_ok (Prog.look_apply _ _), diskstreamerRead]
  by_cases h : intMax - s.pos < total
  · rw [Prog.refuse_of (c := intMax < s.pos ∨ _) (Or.inr h),
      Prog.refuse_of (c := (total : Int) < 0 ∨ _) (Or.inr (by omega))]
    exact ⟨rfl, rfl⟩
  · rw [Prog.refuse_of_not (by omega), Prog.refuse_of_not (by omega), pure_bind, pure_bind,
      Int.toNat_natCast, ← hout]
    exact streamReadLoop_got total total 0 s

end Positions

/-! ## Sector operations -/

/-- The pieces of a request: where each begins and how many bytes it has. -/
def pieces : Nat → Nat → Nat → List (Nat × Nat)
  | _, _, 0 => []
  | 0, _, _ + 1 => []
  | fuel + 1, pos, total + 1 =>
      (pos, sectorPart pos (total + 1)) ::
        pieces fuel (pos + sectorPart pos (total + 1)) (total + 1 - sectorPart pos (total + 1))

theorem pieces_ge {fuel : Nat} : ∀ {pos total : Nat} {p : Nat × Nat}, p ∈ pieces fuel pos total →
    pos ≤ p.1 := by
  induction fuel with
  | zero =>
    intro pos total p h
    cases total with
    | zero | succ _ => simp [pieces] at h
  | succ fuel ih =>
    intro pos total p h
    cases total with
    | zero => simp [pieces] at h
    | succ total =>
      rw [pieces, List.mem_cons] at h
      rcases h with rfl | h
      · exact le_rfl
      · exact (Nat.le_add_right _ _).trans (ih h)

/-- A sector operation, by the position of the stream at which it is made. -/
inductive SectorOp where
  | read (pos : Nat)
  | write (pos : Nat)
  deriving DecidableEq

def SectorOp.pos : SectorOp → Nat
  | .read pos => pos
  | .write pos => pos

/-- The operations of a read, in order. -/
def readOps (pos total : Nat) : List SectorOp := (pieces total pos total).map fun p => .read p.1

/-- A piece that is no whole sector is read first. -/
def pieceOps (p : Nat × Nat) : List SectorOp :=
  if p.1 % sectorSize ≠ 0 ∨ p.2 ≠ sectorSize then [.read p.1, .write p.1] else [.write p.1]

/-- The operations of a write, in order. -/
def writeOps (pos total : Nat) : List SectorOp := (pieces total pos total).flatMap pieceOps

/-- Operation `k` is the first one the drive lets fail. -/
def FailsAt (d : Device) (k : Nat) : Prop :=
  (∀ j, j < k → d.fates (d.calls + j) = .done) ∧ d.fates (d.calls + k) ≠ .done

theorem diskReadBlock_done (h : lba < lbaLimit) (hf : d.fates d.calls = .done) :
    diskReadBlock lba d = (.ok fun i => d.image (lba * sectorSize + i), d.tick) := by
  rw [diskReadBlock, if_neg (by omega), hf]

theorem diskReadBlock_failed (h : lba < lbaLimit) (hf : d.fates d.calls ≠ .done) :
    diskReadBlock lba d = (.error .eio, d.tick.note (.readFailed lba)) := by
  rw [diskReadBlock, if_neg (by omega)]
  cases hfate : d.fates d.calls with
  | done => exact absurd hfate hf
  | lost | stored => rfl

theorem diskWriteBlock_run (h : lba < lbaLimit) (hid : d.identify = .ok n) (hn : lba < n)
    (data : Bytes) : diskWriteBlock lba data d =
      (if d.fates d.calls = .done then .ok () else .error .eio,
        d.tick.note (.wrote lba data (d.fates d.calls))) := by
  rw [diskWriteBlock, if_neg (by omega), hid]
  simp only [if_neg (show ¬ lba ≥ n by omega)]

/-! ## Reading -/

/-- The state after `k` reads that went well. -/
def Device.ticks (d : Device) (k : Nat) : Device := { d with calls := d.calls + k }

theorem memcpy_sector {out : Bytes} (image : Bytes) {pos : Nat}
    (h : pos % sectorSize + n ≤ sectorSize) :
    memcpy out done (fun i => image (pos / sectorSize * sectorSize + i)) (pos % sectorSize) n =
      memcpy out done image pos n := by
  funext p
  unfold memcpy
  by_cases hp : done ≤ p ∧ p < done + n
  · rw [if_pos hp, if_pos hp]
    exact congrArg image (sector_split pos (p - done) (by omega)).1
  · rw [if_neg hp, if_neg hp]

/-- A piece that is read. -/
theorem readPiece_done {pos : Nat} (hpos : pos ≤ intMax) (hf : dev.fates dev.calls = .done)
    (total done : Nat) (out : Bytes) : readPiece total done ⟨dev, pos, out⟩ =
      (.ok (), ⟨dev.tick, pos + sectorPart pos total, memcpy out done dev.image pos
        (sectorPart pos total)⟩) := by
  have hread := onDrive_ok (s := ⟨dev, pos, out⟩) (diskReadBlock_done (lba_lt hpos) hf)
  rw [readPiece, Prog.bind_ok (Prog.look_apply _ _), Prog.bind_ok hread, Prog.change_apply]
  simp only [memcpy_sector dev.image (sectorPart_fits pos total)]

/-- The piece that fails. -/
theorem readPiece_failed {pos : Nat} (hpos : pos ≤ intMax) (hf : dev.fates dev.calls ≠ .done)
    (total done : Nat) (out : Bytes) : readPiece total done ⟨dev, pos, out⟩ =
      (.error .eio, ⟨dev.tick.note (.readFailed (pos / sectorSize)), pos, out⟩) := by
  have hread := onDrive_error (s := ⟨dev, pos, out⟩) (diskReadBlock_failed (lba_lt hpos) hf)
  rw [readPiece, Prog.bind_ok (Prog.look_apply _ _), Prog.bind_error hread]

theorem fates_next (h : dev.fates (dev.calls + (j + k)) = .done) :
    dev.fates (dev.calls + k + j) = .done := by
  rwa [Nat.add_comm j k, ← Nat.add_assoc] at h

/-- A read whose first `k` pieces go well: it is over, or fails at the next one. -/
theorem streamReadLoop_run (fuel : Nat) : ∀ (total done : Nat) (dev : Device) (pos : Nat)
    (out : Bytes),
    total ≤ fuel → pos + total ≤ intMax → ∀ k, (∀ j, j < k → dev.fates (dev.calls + j) = .done) →
    (k = (pieces fuel pos total).length →
      streamReadLoop fuel total done ⟨dev, pos, out⟩ =
        (.ok (), ⟨dev.ticks k, pos + total, memcpy out done dev.image pos total⟩)) ∧
    ∀ p, (pieces fuel pos total)[k]? = some p → dev.fates (dev.calls + k) ≠ .done →
      streamReadLoop fuel total done ⟨dev, pos, out⟩ =
        (.error .eio, ⟨(dev.ticks (k + 1)).note (.readFailed (p.1 / sectorSize)), p.1,
          memcpy out done dev.image pos (p.1 - pos)⟩) := by
  induction fuel with
  | zero =>
    intro total done dev pos out hf hint k hgood
    obtain rfl : total = 0 := by omega
    refine ⟨fun hk => ?_, fun p hp => (by simp [pieces] at hp)⟩
    obtain rfl : k = 0 := hk
    rw [memcpy_zero]
    rfl
  | succ fuel ih =>
    intro total done dev pos out hf hint k hgood
    cases total with
    | zero =>
      refine ⟨fun hk => ?_, fun p hp => (by simp [pieces] at hp)⟩
      obtain rfl : k = 0 := hk
      rw [memcpy_zero]
      rfl
    | succ total =>
      have hle := sectorPart_le pos (total + 1)
      have hpart : 0 < sectorPart pos (total + 1) := sectorPart_pos pos (Nat.succ_pos total)
      rw [streamReadLoop, Prog.bind_ok (Prog.look_apply _ _), pieces]
      simp only
      cases k with
      | zero =>
        refine ⟨fun hk => (by cases hk), fun p hp hfail => ?_⟩
        obtain rfl := Option.some.inj hp
        rw [Prog.bind_error (readPiece_failed (by omega) hfail _ done out), Nat.sub_self,
          memcpy_zero]
        rfl
      | succ k =>
        have hfirst : dev.fates dev.calls = .done := hgood 0 (Nat.succ_pos k)
        rw [Prog.bind_ok (readPiece_done (by omega) hfirst _ done out)]
        set n := sectorPart pos (total + 1)
        have hrest := ih (total + 1 - n) (done + n) dev.tick (pos + n)
          (memcpy out done dev.image pos n) (by omega)
          (by omega) k fun j hj => fates_next (k := 1) (hgood (j + 1) (Nat.succ_lt_succ hj))
        have hticks : ∀ j, dev.tick.ticks j = dev.ticks (j + 1) := fun j => by
          rw [Device.ticks, Device.ticks, Device.tick, Nat.add_comm j 1, ← Nat.add_assoc]
        refine ⟨fun hk => ?_, fun p hp hfail => ?_⟩
        · rw [hrest.1 (Nat.succ.inj hk), hticks, Nat.add_assoc pos, Nat.add_sub_cancel' hle]
          show (_, Stream.mk _ _ (memcpy _ _ dev.image _ _)) = _
          rw [memcpy_append, Nat.add_sub_cancel' hle]
        · have hge := pieces_ge (List.mem_of_getElem? hp)
          rw [Nat.add_comm k 1, ← Nat.add_assoc] at hfail
          rw [hrest.2 p hp hfail, hticks]
          show (_, Stream.mk _ _ (memcpy _ _ dev.image _ _)) = _
          rw [memcpy_append, show n + (p.1 - (pos + n)) = p.1 - pos by omega]

/-! ## Writing -/

/-- After `k` operations that went well: `bytes` bytes from `pos` on are on the disk. -/
structure Wrote (data : Bytes) (pos done bytes k : Nat) (dev dev' : Device) : Prop where
  image : dev'.image = memcpy dev.image pos data done bytes
  calls : dev'.calls = dev.calls + k
  same : dev.Same dev'

/-- The write broke off at operation `k`: the bytes before it are on the disk. A sector write
that fails with an error may have reached its own sector all the same. -/
structure BrokeOff (data : Bytes) (pos done : Nat) (op : SectorOp) (k : Nat) (dev dev' : Device) :
    Prop where
  image : op = .read op.pos ∨ dev.fates (dev.calls + k) = .lost →
    dev'.image = memcpy dev.image pos data done (op.pos - pos)
  outside : ∀ q, q / sectorSize ≠ op.pos / sectorSize →
    dev'.image q = memcpy dev.image pos data done (op.pos - pos) q
  calls : dev'.calls = dev.calls + k + 1
  same : dev.Same dev'

theorem Wrote.broken {data : Bytes} {pos : Nat} {op : SectorOp} (h : Wrote data pos done n j dev d1)
    (h' : BrokeOff data (pos + n) (done + n) op k d1 d') (hop : pos + n ≤ op.pos) :
    BrokeOff data pos done op (j + k) dev d' := by
  have hlen : n + (op.pos - (pos + n)) = op.pos - pos := by omega
  refine ⟨fun hclean => ?_, fun q hq => ?_, ?_, h.same.trans h'.same⟩
  · rw [← Nat.add_assoc, ← h.calls, ← h.same.fates] at hclean
    rw [h'.image hclean, h.image, memcpy_append, hlen]
  · rw [h'.outside q hq, h.image, memcpy_append, hlen]
  · rw [h'.calls, h.calls, Nat.add_assoc dev.calls]

theorem Wrote.append {data : Bytes} {pos : Nat} (h : Wrote data pos done n j dev d1)
    (h' : Wrote data (pos + n) (done + n) m k d1 d') :
    Wrote data pos done (n + m) (j + k) dev d' := by
  refine ⟨?_, ?_, h.same.trans h'.same⟩
  · rw [h'.image, h.image, memcpy_append]
  · rw [h'.calls, h.calls, Nat.add_assoc]

section Piece

variable (data : Bytes) {pos : Nat} (total done : Nat) {dev : Device}

/-- The sector to send, when the drive reads the old one if it has to. -/
theorem blockFor_done (hpos : pos ≤ intMax)
    (hgood : (pieceOps (pos, sectorPart pos total)).length = 2 → dev.fates dev.calls = .done) :
    blockFor data pos total done dev = (.ok (blockOf dev.image data pos total done),
      dev.ticks ((pieceOps (pos, sectorPart pos total)).length - 1)) := by
  by_cases hpart : pos % sectorSize ≠ 0 ∨ sectorPart pos total ≠ sectorSize
  · rw [pieceOps, if_pos hpart] at hgood ⊢
    rw [blockFor, if_pos hpart, blockOf, if_pos hpart, Prog.bind_ok
      (diskReadBlock_done (lba_lt hpos) (hgood rfl))]
    rfl
  · rw [pieceOps, if_neg hpart, blockFor, if_neg hpart, blockOf, if_neg hpart]
    rfl

variable {data total done} in
theorem writePiece_block {block : Bytes} (out : Bytes)
    (hblock : blockFor data pos total done dev = (.ok block, d1)) :
    writePiece data total done ⟨dev, pos, out⟩ =
      (onDrive (diskWriteBlock (pos / sectorSize) block) >>= fun _ =>
        Prog.change fun s => { s with pos := pos + sectorPart pos total }) ⟨d1, pos, out⟩ := by
  rw [writePiece, Prog.bind_ok (Prog.look_apply _ _), Prog.bind_ok
    (onDrive_ok (s := ⟨dev, pos, out⟩) hblock)]

theorem image_ticks (d : Device) (k : Nat) : (d.ticks k).image = d.image := rfl

/-- A piece that is written. -/
theorem writePiece_done (hpos : pos ≤ intMax) (hid : dev.identify = .ok n)
    (hn : pos / sectorSize < n)
    (hgood : ∀ j, j < (pieceOps (pos, sectorPart pos total)).length →
      dev.fates (dev.calls + j) = .done)
    (out : Bytes) : ∃ dev', writePiece data total done ⟨dev, pos, out⟩ =
        (.ok (), ⟨dev', pos + sectorPart pos total, out⟩) ∧
      Wrote data pos done (sectorPart pos total) (pieceOps (pos, sectorPart pos total)).length dev
        dev' := by
  have hops : 0 < (pieceOps (pos, sectorPart pos total)).length := by
    unfold pieceOps
    split <;> simp
  have hblock := blockFor_done data total done hpos fun h => hgood 0 (by omega)
  have hfate : dev.fates (dev.calls + ((pieceOps (pos, sectorPart pos total)).length - 1)) =
    .done :=
    hgood _ (by omega)
  have hwrite := diskWriteBlock_run (d := dev.ticks ((pieceOps (pos, sectorPart pos total)).length -
    1)) (lba_lt hpos) hid hn (blockOf dev.image data pos total done)
  rw [show (dev.ticks _).fates (dev.ticks _).calls = .done from hfate, if_pos rfl] at hwrite
  refine ⟨(dev.ticks ((pieceOps (pos, sectorPart pos total)).length - 1)).tick.note
    (.wrote (pos / sectorSize) (blockOf dev.image data pos total done) .done), ?_, ?_⟩
  · rw [writePiece_block out hblock]
    exact Prog.bind_ok (onDrive_ok hwrite)
  · refine ⟨putSector_blockOf dev.image data pos done total, ?_, ⟨rfl, rfl, rfl⟩⟩
    show dev.calls + _ + 1 = _
    omega

theorem writePiece_unread (hpos : pos ≤ intMax) (hpart : pos % sectorSize ≠ 0 ∨
    sectorPart pos total ≠ sectorSize) (hfail : dev.fates dev.calls ≠ .done) (out : Bytes) :
    ∃ dev', writePiece data total done ⟨dev, pos, out⟩ = (.error .eio, ⟨dev', pos, out⟩) ∧
      BrokeOff data pos done (.read pos) 0 dev dev' := by
  have hblock : blockFor data pos total done dev = (.error .eio,
      dev.tick.note (.readFailed (pos / sectorSize))) := by
    rw [blockFor, if_pos hpart, Prog.bind_error (diskReadBlock_failed (lba_lt hpos) hfail)]
  refine ⟨dev.tick.note (.readFailed (pos / sectorSize)), ?_, fun _ => ?_, fun q _ => ?_, rfl,
    ⟨rfl, rfl, rfl⟩⟩
  · rw [writePiece, Prog.bind_ok (Prog.look_apply _ _),
      Prog.bind_error (onDrive_error (s := ⟨dev, pos, out⟩) hblock)]
  · rw [SectorOp.pos, Nat.sub_self, memcpy_zero]
    rfl
  · rw [SectorOp.pos, Nat.sub_self, memcpy_zero]
    rfl

variable {data total done} in
theorem writePiece_unwritten {block : Bytes} (hpos : pos ≤ intMax) (hid : dev.identify = .ok n)
    (hn : pos / sectorSize < n)
    (hblock : blockFor data pos total done dev = (.ok block, dev.ticks k))
    (hfail : dev.fates (dev.calls + k) ≠ .done) (out : Bytes) :
    ∃ dev', writePiece data total done ⟨dev, pos, out⟩ = (.error .eio, ⟨dev', pos, out⟩) ∧
      BrokeOff data pos done (.write pos) k dev dev' := by
  have hwrite := diskWriteBlock_run (d := dev.ticks k) (lba_lt hpos) hid hn block
  rw [if_neg (show (dev.ticks k).fates (dev.ticks k).calls ≠ .done from hfail)] at hwrite
  refine ⟨(dev.ticks k).tick.note (.wrote (pos / sectorSize) block (dev.fates (dev.calls + k))), ?_,
    fun hclean => ?_, fun q hq => ?_, rfl, ⟨rfl, rfl, rfl⟩⟩
  · rw [writePiece_block out hblock]
    exact Prog.bind_error (onDrive_error hwrite)
  · have hlost : dev.fates (dev.calls + k) = .lost := hclean.resolve_left (by simp)
    rw [SectorOp.pos, Nat.sub_self, memcpy_zero]
    show Event.apply (.wrote _ _ (dev.fates (dev.calls + k))) dev.image = _
    rw [hlost]
    rfl
  · rw [SectorOp.pos, Nat.sub_self, memcpy_zero]
    show Event.apply (.wrote _ _ (dev.fates (dev.calls + k))) dev.image q = _
    cases dev.fates (dev.calls + k) with
    | done => exact if_neg hq
    | lost => rfl
    | stored => exact if_neg hq

/-- The piece that fails, at its read or at its write. -/
theorem writePiece_failed {op : SectorOp} (hpos : pos ≤ intMax) (hid : dev.identify = .ok n)
    (hn : pos / sectorSize < n) (hop : (pieceOps (pos, sectorPart pos total))[k]? = some op)
    (hfail : FailsAt dev k) (out : Bytes) :
    op.pos = pos ∧ ∃ dev', writePiece data total done ⟨dev, pos, out⟩ =
      (.error .eio, ⟨dev', pos, out⟩) ∧ BrokeOff data pos done op k dev dev' := by
  have hblock := @blockFor_done data pos total done dev hpos
  by_cases hpart : pos % sectorSize ≠ 0 ∨ sectorPart pos total ≠ sectorSize
  · rw [pieceOps, if_pos hpart] at hop hblock
    match k with
    | 0 =>
      obtain rfl := Option.some.inj hop
      exact ⟨rfl, writePiece_unread data total done hpos hpart hfail.2 out⟩
    | 1 =>
      obtain rfl := Option.some.inj hop
      exact ⟨rfl, writePiece_unwritten hpos hid hn (hblock fun _ => hfail.1 0 Nat.one_pos)
        hfail.2 out⟩
    | k + 2 => simp at hop
  · rw [pieceOps, if_neg hpart] at hop hblock
    match k with
    | 0 =>
      obtain rfl := Option.some.inj hop
      exact ⟨rfl, writePiece_unwritten hpos hid hn (hblock fun h => by simp at h) hfail.2 out⟩
    | k + 1 => simp at hop

end Piece

/-- The operations from a position on. -/
def opsFrom (fuel pos total : Nat) : List SectorOp := (pieces fuel pos total).flatMap pieceOps

theorem opsFrom_succ (fuel pos total : Nat) : opsFrom (fuel + 1) pos (total + 1) =
    pieceOps (pos, sectorPart pos (total + 1)) ++
      opsFrom fuel (pos + sectorPart pos (total + 1)) (total + 1 - sectorPart pos (total + 1)) :=
        rfl

theorem opsFrom_zero (fuel pos : Nat) : opsFrom fuel pos 0 = [] := by
  cases fuel <;> rfl

theorem opsFrom_ge {fuel pos total : Nat} {op : SectorOp} (h : op ∈ opsFrom fuel pos total) :
    pos ≤ op.pos := by
  obtain ⟨p, hp, hop⟩ := List.mem_flatMap.mp h
  have hpos : op.pos = p.1 := by
    unfold pieceOps at hop
    split at hop
    · simp only [List.mem_cons, List.not_mem_nil, or_false] at hop
      rcases hop with rfl | rfl <;> rfl
    · simp only [List.mem_cons, List.not_mem_nil, or_false] at hop
      subst hop
      rfl
  rw [hpos]
  exact pieces_ge hp

/-- A write with enough operations that go well. -/
theorem streamWriteLoop_done (data out : Bytes) (fuel : Nat) :
    ∀ (total done : Nat) (dev : Device) (pos : Nat),
    total ≤ fuel → pos + total ≤ intMax → dev.identify = .ok n → pos + total ≤ n * sectorSize →
    (∀ j, j < (opsFrom fuel pos total).length → dev.fates (dev.calls + j) = .done) →
    ∃ dev', streamWriteLoop data fuel total done ⟨dev, pos, out⟩ =
      (.ok (), ⟨dev', pos + total, out⟩) ∧
      Wrote data pos done total (opsFrom fuel pos total).length dev dev' := by
  induction fuel with
  | zero =>
    intro total done dev pos hf _ _ _ _
    obtain rfl : total = 0 := by omega
    exact ⟨dev, rfl, (memcpy_zero _ _ _ _).symm, rfl, .refl dev⟩
  | succ fuel ih =>
    intro total done dev pos hf hint hid hn hgood
    cases total with
    | zero => exact ⟨dev, rfl, (memcpy_zero _ _ _ _).symm, rfl, .refl dev⟩
    | succ total =>
      have hle := sectorPart_le pos (total + 1)
      have hpart : 0 < sectorPart pos (total + 1) := sectorPart_pos pos (Nat.succ_pos total)
      rw [opsFrom_succ, List.length_append] at hgood ⊢
      have hlba : pos / sectorSize < n := Nat.div_lt_of_lt_mul (by rw [Nat.mul_comm]; omega)
      obtain ⟨d1, hrun, hfirst⟩ := writePiece_done data (total + 1) done
        (show pos ≤ intMax by omega) hid hlba (fun j hj => hgood j (by omega)) out
      obtain ⟨d2, hloop, hrest⟩ := ih (total + 1 - sectorPart pos (total + 1))
        (done + sectorPart pos (total + 1))
        d1 (pos + sectorPart pos (total + 1)) (by omega) (by omega) (hfirst.same.identify.trans hid)
          (by omega)
        fun j hj => by
          rw [hfirst.same.fates, hfirst.calls, Nat.add_assoc]
          exact hgood _ (by omega)
      refine ⟨d2, ?_, ?_⟩
      · rw [streamWriteLoop, Prog.bind_ok (Prog.look_apply _ _), Prog.bind_ok hrun, hloop,
          Nat.add_assoc pos, Nat.add_sub_cancel' hle]
      · have happend := hfirst.append hrest
        rwa [Nat.add_sub_cancel' hle] at happend

/-- A write whose operation `k` is the first to fail. -/
theorem streamWriteLoop_failed (data out : Bytes) {op : SectorOp} (fuel : Nat) :
    ∀ (total done : Nat) (dev : Device) (pos k : Nat),
    total ≤ fuel → pos + total ≤ intMax → dev.identify = .ok n → pos + total ≤ n * sectorSize →
    (opsFrom fuel pos total)[k]? = some op → FailsAt dev k →
    ∃ dev', streamWriteLoop data fuel total done ⟨dev, pos, out⟩ =
      (.error .eio, ⟨dev', op.pos, out⟩) ∧ BrokeOff data pos done op k dev dev' := by
  induction fuel with
  | zero =>
    intro total done dev pos k hf _ _ _ hop _
    obtain rfl : total = 0 := by omega
    rw [opsFrom_zero] at hop
    simp at hop
  | succ fuel ih =>
    intro total done dev pos k hf hint hid hn hop hfail
    cases total with
    | zero =>
      rw [opsFrom_zero] at hop
      simp at hop
    | succ total =>
      have hle := sectorPart_le pos (total + 1)
      have hpart : 0 < sectorPart pos (total + 1) := sectorPart_pos pos (Nat.succ_pos total)
      have hlba : pos / sectorSize < n := Nat.div_lt_of_lt_mul (by rw [Nat.mul_comm]; omega)
      rw [opsFrom_succ] at hop
      by_cases hk : k < (pieceOps (pos, sectorPart pos (total + 1))).length
      · rw [List.getElem?_append_left hk] at hop
        obtain ⟨hpos, d1, hrun, hbroke⟩ := writePiece_failed data (total + 1) done
          (show pos ≤ intMax by omega) hid hlba hop hfail out
        refine ⟨d1, ?_, hbroke⟩
        rw [streamWriteLoop, Prog.bind_ok (Prog.look_apply _ _), Prog.bind_error hrun, hpos]
      · rw [List.getElem?_append_right (by omega)] at hop
        obtain ⟨d1, hrun, hfirst⟩ := writePiece_done data (total + 1) done
          (show pos ≤ intMax by omega) hid hlba (fun j hj => hfail.1 j (by omega)) out
        have hlater : FailsAt d1 (k - (pieceOps (pos, sectorPart pos (total + 1))).length) := by
          refine ⟨fun j hj => ?_, ?_⟩
          · rw [hfirst.same.fates, hfirst.calls, Nat.add_assoc]
            exact hfail.1 _ (by omega)
          · rw [hfirst.same.fates, hfirst.calls, Nat.add_assoc, Nat.add_sub_cancel' (by omega)]
            exact hfail.2
        obtain ⟨d2, hloop, hrest⟩ := ih (total + 1 - sectorPart pos (total + 1))
          (done + sectorPart pos (total + 1))
          d1 (pos + sectorPart pos (total + 1)) _ (by omega) (by omega)
            (hfirst.same.identify.trans hid) (by omega)
          hop hlater
        refine ⟨d2, ?_, ?_⟩
        · rw [streamWriteLoop, Prog.bind_ok (Prog.look_apply _ _), Prog.bind_ok hrun, hloop]
        · have hbroke := hfirst.broken hrest (opsFrom_ge (List.mem_of_getElem? hop))
          rwa [Nat.add_sub_cancel' (by omega)] at hbroke

/-! ## The streamer -/

theorem streamRead_run (total : Nat) (h : s.pos + total ≤ intMax) :
    streamRead total s = streamReadLoop total total 0 s := by
  rw [streamRead, Prog.bind_ok (Prog.look_apply _ _), Prog.refuse_of_not (by omega), pure_bind,
    Int.toNat_natCast]

theorem streamWrite_run (data : Bytes) (total : Nat) (h : s.pos + total ≤ intMax) :
    streamWrite (some data) total s = streamWriteLoop data total total 0 s := by
  rw [streamWrite, Prog.bind_ok (Prog.look_apply _ _), Prog.refuse_of_not (by simp; omega),
    pure_bind, Int.toNat_natCast, Option.getD_some]

theorem streamSeek_run (pos : Nat) (s : Stream) : streamSeek pos s = (.ok (), { s with pos }) := by
  rw [streamSeek, Prog.refuse_of_not (by omega), pure_bind, Prog.change_apply, Int.toNat_natCast]

/-- A read with good operations. -/
theorem streamRead_done {total : Nat} (h : s.pos + total ≤ intMax)
    (hgood : ∀ j, j < (readOps s.pos total).length → s.dev.fates (s.dev.calls + j) = .done) :
    streamRead total s = (.ok (), ⟨s.dev.ticks (readOps s.pos total).length, s.pos + total,
      memcpy s.out 0 s.dev.image s.pos total⟩) := by
  rw [streamRead_run total h]
  have hlen : (readOps s.pos total).length = (pieces total s.pos total).length := List.length_map _
  exact (streamReadLoop_run total total 0 s.dev s.pos s.out le_rfl h _ hgood).1 hlen

/-- The streamer is a byte-addressed view of the sectors.

A request inside the drive and below 2^31 stores or returns exactly its bytes and moves the
position past them; so a read after a write gives what was written wherever the two meet. When
operation `k` is the first to fail, its error is returned, the position is that of its piece,
the bytes before it have been stored or copied out and no operation follows it. A negative
length or an end past 2^31 - 1 changes nothing. -/
theorem byte_streamer (s : Stream) :
    (∀ total : Int, total < 0 ∨ intMax < s.pos + total →
      streamRead total s = (.error .einvarg, s) ∧
      ∀ buffer, streamWrite buffer total s = (.error .einvarg, s)) ∧
    (∀ total : Nat, s.pos + total ≤ intMax →
      ((∀ j, j < (readOps s.pos total).length → s.dev.fates (s.dev.calls + j) = .done) →
        streamRead total s = (.ok (), ⟨s.dev.ticks (readOps s.pos total).length, s.pos + total,
          memcpy s.out 0 s.dev.image s.pos total⟩)) ∧
      ∀ k op, (readOps s.pos total)[k]? = some op → FailsAt s.dev k →
        streamRead total s = (.error .eio, ⟨(s.dev.ticks (k + 1)).note
          (.readFailed (op.pos / sectorSize)), op.pos,
          memcpy s.out 0 s.dev.image s.pos (op.pos - s.pos)⟩)) ∧
    ∀ data sectors (total : Nat), s.dev.identify = .ok sectors →
      s.pos + total ≤ sectors * sectorSize → s.pos + total ≤ intMax →
      ((∀ j, j < (writeOps s.pos total).length → s.dev.fates (s.dev.calls + j) = .done) →
        ∃ dev, streamWrite (some data) total s = (.ok (), ⟨dev, s.pos + total, s.out⟩) ∧
          Wrote data s.pos 0 total (writeOps s.pos total).length s.dev dev ∧
          -- a later read, anywhere
          ∀ q n : Nat, q + n ≤ intMax → (∀ j, j < (readOps q n).length →
            dev.fates (dev.calls + j) = .done) →
            (streamSeek q >>= fun _ => streamRead n) ⟨dev, s.pos + total, s.out⟩ =
              (.ok (), ⟨dev.ticks (readOps q n).length, q + n,
                memcpy s.out 0 (memcpy s.dev.image s.pos data 0 total) q n⟩)) ∧
      ∀ k op, (writeOps s.pos total)[k]? = some op → FailsAt s.dev k →
        ∃ dev, streamWrite (some data) total s = (.error .eio, ⟨dev, op.pos, s.out⟩) ∧
          BrokeOff data s.pos 0 op k s.dev dev := by
  refine ⟨fun total hbad => ⟨?_, fun buffer => ?_⟩, fun total hfit => ⟨streamRead_done hfit, ?_⟩,
    fun data sectors total hid hcap hfit => ⟨fun hgood => ?_, ?_⟩⟩
  · rw [streamRead, Prog.bind_ok (Prog.look_apply _ _), Prog.refuse_of (by omega)]
    rfl
  · have hrefused : total < 0 ∨ (intMax : Int) - s.pos < total ∨ (total ≠ 0 ∧ buffer.isNone) := by
      rcases hbad with h | h
      · exact Or.inl h
      · exact Or.inr (Or.inl (by omega))
    rw [streamWrite, Prog.bind_ok (Prog.look_apply _ _), Prog.refuse_of hrefused]
    rfl
  · intro k op hop hfail
    rw [readOps, List.getElem?_map] at hop
    obtain ⟨p, hp, rfl⟩ := Option.map_eq_some_iff.mp hop
    rw [streamRead_run total hfit]
    exact (streamReadLoop_run total total 0 s.dev s.pos s.out le_rfl hfit k hfail.1).2 p hp hfail.2
  · obtain ⟨dev, hrun, hwrote⟩ := streamWriteLoop_done data s.out total total 0 s.dev s.pos le_rfl
      hfit hid hcap hgood
    refine ⟨dev, (streamWrite_run data total hfit).trans hrun, hwrote, fun q n hq hread => ?_⟩
    rw [Prog.bind_ok (streamSeek_run q _), streamRead_done hq hread, hwrote.image]
  · intro k op hop hfail
    rw [streamWrite_run data total hfit]
    exact streamWriteLoop_failed data s.out total total 0 s.dev s.pos k le_rfl hfit hid
      hcap hop hfail

/-- A drive of eight sectors whose third operation fails. -/
def shakyStream : Stream where
  dev :=
    { origin := fun _ => 0, log := [], fates := fun n => if n = 2 then .lost else .done, calls := 0
      identify := .ok 8 }
  pos := 500
  out := fun _ => 0

/-- The write of 600 bytes from 500 on reads and writes the first sector; the second one, a
whole sector, is not written any more. -/
theorem byte_streamer_shaky : ∃ dev, streamWrite (some fun _ => 1) 600 shakyStream =
    (.error .eio, ⟨dev, 512, shakyStream.out⟩) ∧ dev.image = memcpy (fun _ => 0) 500 (fun _ => 1)
      0 12 := by
  have hops : (writeOps shakyStream.pos 600)[2]? = some (.write 512) := by decide
  have hfail : FailsAt shakyStream.dev 2 := by
    exact ⟨fun j hj => if_neg (show 0 + j ≠ 2 by omega), by decide⟩
  obtain ⟨dev, hrun, hbroke⟩ := ((byte_streamer shakyStream).2.2 (fun _ => 1) 8 600 rfl (by decide)
    (by decide)).2 2 (.write 512) hops hfail
  exact ⟨dev, hrun, hbroke.image (Or.inr rfl)⟩

end Rorthox.Disk
