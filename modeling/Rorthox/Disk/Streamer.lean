import Rorthox.Disk.Device

/-!
# The byte streamer

`kernel/disk/streamer.c`. Every use of a stream begins with a seek, so a stream is
passed as its position. A write reads back the sectors it covers in part; its error
comes with the position the stream had reached.
-/

namespace Rorthox.Disk

open Lib

/-- `INT_MAX`. -/
def intMax : Nat := 2 ^ 31 - 1

/-- A position is an `int`; the source refuses a negative one. -/
def diskstreamerSeek (pos : Nat) : Prog Device Errno Unit := Prog.refuse (intMax < pos) .einvarg

/-- What of the sector at `pos` belongs to a request of `total` bytes. -/
def sectorPart (pos total : Nat) : Nat :=
  if sectorSize - pos % sectorSize > total then total else sectorSize - pos % sectorSize

def readLoop : Nat → Nat → Nat → Nat → Bytes → Prog Device Errno Bytes
  | _, _, 0, _, out => pure out
  | 0, _, _ + 1, _, _ => Prog.raise .eio
  | fuel + 1, pos, total + 1, done, out => do
      let buf ← diskReadBlock (pos / sectorSize)
      readLoop fuel (pos + sectorPart pos (total + 1)) (total + 1 - sectorPart pos (total + 1))
        (done + sectorPart pos (total + 1))
        (memcpy out done buf (pos % sectorSize) (sectorPart pos (total + 1)))

/-- Every turn reads at least one byte, so `total` turns are enough. -/
def diskstreamerRead (pos total : Nat) : Prog Device Errno Bytes := do
  Prog.refuse (intMax < pos ∨ intMax - pos < total) .einvarg
  readLoop total pos total 0 fun _ => 0

/-- The sector a write sends: the caller's bytes, or the old sector with some of them. -/
def blockFor (data : Bytes) (pos total done : Nat) : Prog Device Errno Bytes :=
  if pos % sectorSize ≠ 0 ∨ sectorPart pos total ≠ sectorSize then do
    let buf ← diskReadBlock (pos / sectorSize)
    pure (memcpy buf (pos % sectorSize) data done (sectorPart pos total))
  else pure fun i => data (done + i)

def writeLoop (data : Bytes) : Nat → Nat → Nat → Nat → Prog Device (Errno × Nat) Unit
  | _, _, 0, _ => pure ()
  | 0, pos, _ + 1, _ => Prog.raise (.eio, pos)
  | fuel + 1, pos, total + 1, done => do
      let block ← (blockFor data pos (total + 1) done).recode fun e => (e, pos)
      (diskWriteBlock (pos / sectorSize) block).recode fun e => (e, pos)
      writeLoop data fuel (pos + sectorPart pos (total + 1))
        (total + 1 - sectorPart pos (total + 1)) (done + sectorPart pos (total + 1))

def diskstreamerWrite (pos : Nat) (data : Bytes) (total : Nat) :
    Prog Device (Errno × Nat) Unit := do
  Prog.refuse (intMax < pos ∨ intMax - pos < total) (.einvarg, pos)
  writeLoop data total pos total 0

/-! ## Reading -/

theorem sectorPart_cases (pos total : Nat) :
    (sectorPart pos total = total ∧ total ≤ sectorSize - pos % sectorSize) ∨
      (sectorPart pos total = sectorSize - pos % sectorSize ∧
        sectorSize - pos % sectorSize ≤ total) := by
  unfold sectorPart
  split <;> omega

theorem sectorPart_le (pos total : Nat) : sectorPart pos total ≤ total := by
  unfold sectorPart
  split <;> omega

variable {done pos total : Nat}

theorem sectorPart_pos (pos : Nat) (h : 0 < total) : 0 < sectorPart pos total := by
  have h1 := Nat.mod_lt pos (show 0 < sectorSize by decide)
  unfold sectorPart
  split <;> omega

theorem sectorPart_fits (pos total : Nat) :
    pos % sectorSize + sectorPart pos total ≤ sectorSize := by
  have h1 := Nat.mod_lt pos (show 0 < sectorSize by decide)
  unfold sectorPart
  split <;> omega

/-- What is left after a part starts at a sector. -/
theorem sectorPart_next (h : 0 < total - sectorPart pos total) :
    (pos + sectorPart pos total) / sectorSize = pos / sectorSize + 1 ∧
      (pos + sectorPart pos total) % sectorSize = 0 := by
  have he : sectorPart pos total = sectorSize - pos % sectorSize := by
    unfold sectorPart at *
    split at h
    · omega
    · rw [if_neg (by assumption)]
  rw [he]
  unfold sectorSize
  omega

theorem sector_split (pos i : Nat) (h : pos % sectorSize + i < sectorSize) :
    pos / sectorSize * sectorSize + (pos % sectorSize + i) = pos + i ∧
      (pos + i) / sectorSize = pos / sectorSize ∧ (pos + i) % sectorSize =
        pos % sectorSize + i := by
  unfold sectorSize at *
  omega

theorem lba_lt (h : pos ≤ intMax) : pos / sectorSize < lbaLimit := by
  unfold intMax at h
  unfold sectorSize lbaLimit
  omega

theorem readLoop_spec (img : Bytes) (fuel : Nat) :
    ∀ pos total done out (d : Device), total ≤ fuel → pos + total ≤ intMax → d.image = img →
      Prog.Ends (readLoop fuel pos total done out) d
        (ReadBy (.ok (memcpy out done img pos total)) d) := by
  induction fuel with
  | zero =>
    intro pos total done out d hf _ _
    obtain rfl : total = 0 := by omega
    rw [memcpy_zero]
    exact readBy_pure
  | succ fuel ih =>
    intro pos total done out d hf hfit himg
    cases total with
    | zero => rw [memcpy_zero]; exact readBy_pure
    | succ total =>
      have hn := sectorPart_le pos (total + 1)
      have hpos := sectorPart_pos pos (Nat.succ_pos total)
      have hin := sectorPart_fits pos (total + 1)
      set n := sectorPart pos (total + 1) with hdef
      have hstep := ReadBy.bind (diskReadBlock_spec (lba_lt (show pos ≤ intMax by omega)) d)
        (f := fun buf => readLoop fuel (pos + n) (total + 1 - n) (done + n)
          (memcpy out done buf (pos % sectorSize) n))
        (g := fun _ => .ok (memcpy out done img pos (total + 1))) ?_
      · exact hstep
      · intro buf d' himg' hbuf
        have hcopy : memcpy out done buf (pos % sectorSize) n = memcpy out done img pos n := by
          cases hbuf
          funext p
          unfold memcpy
          by_cases hp : done ≤ p ∧ p < done + n
          · rw [if_pos hp, if_pos hp, himg]
            show img (pos / sectorSize * sectorSize + (pos % sectorSize + (p - done))) = _
            rw [(sector_split pos (p - done) (by omega)).1]
          · rw [if_neg hp, if_neg hp]
        rw [hcopy]
        have h := ih (pos + n) (total + 1 - n) (done + n) (memcpy out done img pos n) d'
          (by omega) (by omega) (himg'.trans himg)
        rwa [memcpy_append, show n + (total + 1 - n) = total + 1 by omega] at h

/-- A read gives the bytes of the disk, or the drive fails. -/
theorem diskstreamerRead_spec (h : pos + total ≤ intMax) (d : Device) :
    Prog.Ends (diskstreamerRead pos total) d
      (ReadBy (.ok (memcpy (fun _ => 0) 0 d.image pos total)) d) := by
  have hno : ¬ (intMax < pos ∨ intMax - pos < total) := by omega
  have hstep := ReadBy.bind (m := Prog.refuse (intMax < pos ∨ intMax - pos < total) Errno.einvarg)
    (f := fun _ => readLoop total pos total 0 fun _ => 0)
    (g := fun _ => .ok (memcpy (fun _ => 0) 0 d.image pos total))
    (readBy_refuse (d := d)) ?_
  · rw [if_neg hno] at hstep
    exact hstep
  · intro _ d' himg _
    exact readLoop_spec d.image total pos total 0 _ d' le_rfl h himg

/-- A request that would pass 2^31 is refused. -/
theorem diskstreamerRead_refused (h : intMax < pos ∨ intMax - pos < total) (d : Device) :
    diskstreamerRead pos total d = (.error .einvarg, d) := by
  unfold diskstreamerRead Prog.refuse
  rw [if_pos h]
  rfl

/-! ## Writing -/

/-- A sector write that belongs to storing `data`, from its byte `done` on, over
`[pos, pos + total)`: it sends the sector as it is with those bytes in place. -/
def PartOf (pos : Nat) (data : Bytes) (done total : Nat) (image : Bytes) : Event → Prop
  | .wrote lba block _ => pos / sectorSize ≤ lba ∧ lba * sectorSize < pos + total ∧
      ∀ i, i < sectorSize → block i = memcpy image pos data done total (lba * sectorSize + i)
  | .flushed _ => False
  | _ => True

/-- A command that took effect. -/
def Event.Good : Event → Prop
  | .wrote _ _ fate => fate = .done
  | .flushed good => good = true
  | _ => False

def blockOf (image data : Bytes) (pos total done : Nat) : Bytes :=
  if pos % sectorSize ≠ 0 ∨ sectorPart pos total ≠ sectorSize then
    memcpy (fun i => image (pos / sectorSize * sectorSize + i)) (pos % sectorSize) data done
      (sectorPart pos total)
  else fun i => data (done + i)

theorem blockFor_spec (data : Bytes) (h : pos ≤ intMax) (d : Device) :
    Prog.Ends (blockFor data pos total done) d
      (ReadBy (.ok (blockOf d.image data pos total done)) d) := by
  unfold blockFor blockOf
  split
  · refine ReadBy.bind (g := fun buf => .ok (memcpy buf (pos % sectorSize) data done
      (sectorPart pos total))) (diskReadBlock_spec (lba_lt h) d) ?_
    intro buf d' _ _
    exact readBy_pure
  · exact readBy_pure

theorem blockOf_apply (image data : Bytes) (pos done : Nat) {i : Nat} (hi : i < sectorSize) :
    blockOf image data pos total done i =
      memcpy image pos data done total (pos / sectorSize * sectorSize + i) := by
  have hdiv := Nat.div_add_mod pos sectorSize
  rw [Nat.mul_comm] at hdiv
  have hmod := Nat.mod_lt pos (show 0 < sectorSize by decide)
  set base := pos / sectorSize * sectorSize with hbase
  set o := pos % sectorSize with ho
  have hpart := sectorPart_cases pos total
  rw [← ho] at hpart
  unfold blockOf
  split
  · rw [← hbase, ← ho]
    by_cases hin : o ≤ i ∧ i < o + sectorPart pos total
    · rw [memcpy_of_lt hin.1 hin.2, memcpy_of_lt]
      · congr 1
        omega
      · omega
      · rcases hpart with hpart | hpart <;> omega
    · rw [memcpy_outside (by omega), memcpy_outside]
      rcases hpart with hpart | hpart <;> omega
  · rename_i hfull
    rw [not_or, not_not, not_not] at hfull
    rw [memcpy_of_lt]
    · congr 1
      omega
    · omega
    · rcases hpart with hpart | hpart <;> omega

/-- The sector a write sends holds the next part of the data and nothing new besides. -/
theorem putSector_blockOf (image data : Bytes) (pos done total : Nat) :
    putSector image (pos / sectorSize) (blockOf image data pos total done) =
      memcpy image pos data done (sectorPart pos total) := by
  funext p
  have hdiv := Nat.div_add_mod pos sectorSize
  have hdivp := Nat.div_add_mod p sectorSize
  have hmod := Nat.mod_lt pos (show 0 < sectorSize by decide)
  have hmodp := Nat.mod_lt p (show 0 < sectorSize by decide)
  have hpart := sectorPart_cases pos total
  rw [putSector_apply]
  split
  · rename_i hp
    rw [hp] at hdivp
    rw [blockOf_apply image data pos done hmodp, Nat.mul_comm, hdivp]
    by_cases hin : pos ≤ p ∧ p < pos + sectorPart pos total
    · rw [memcpy_of_lt hin.1 hin.2, memcpy_of_lt hin.1]
      have h1 := sectorPart_le pos total
      omega
    · rw [memcpy_outside (by omega), memcpy_outside]
      rcases hpart with hpart | hpart <;> omega
  · rename_i hp
    have hne : p / sectorSize < pos / sectorSize ∨ pos / sectorSize < p / sectorSize := by omega
    rw [memcpy_outside]
    have h1 := sectorPart_fits pos total
    rcases hne with hlt | hlt
    · have h2 := Nat.mul_le_mul_left sectorSize (Nat.succ_le_of_lt hlt)
      rw [Nat.mul_succ] at h2
      omega
    · have h2 := Nat.mul_le_mul_left sectorSize (Nat.succ_le_of_lt hlt)
      rw [Nat.mul_succ] at h2
      omega

/-- The later sectors of a write belong to the whole of it. -/
theorem PartOf.tail {data image : Bytes} {e : Event} (hleft : 0 < total - sectorPart pos total)
    (h : PartOf (pos + sectorPart pos total) data (done + sectorPart pos total)
      (total - sectorPart pos total) image e) :
    PartOf pos data done total image e := by
  cases e with
  | wrote lba block fate =>
    obtain ⟨h1, h2, h3⟩ := h
    have hle := sectorPart_le pos total
    obtain ⟨hnext, hzero⟩ := sectorPart_next hleft
    have hdiv := Nat.div_add_mod (pos + sectorPart pos total) sectorSize
    refine ⟨by omega, by omega, ?_⟩
    intro i hi
    rw [h3 i hi]
    have hge : pos + sectorPart pos total ≤ lba * sectorSize + i := by
      have h4 := Nat.mul_le_mul_left sectorSize h1
      rw [Nat.mul_comm sectorSize lba] at h4
      omega
    by_cases hin : lba * sectorSize + i < pos + total
    · rw [memcpy_of_lt hge (by omega), memcpy_of_lt (by omega) hin]
      congr 1
      omega
    · rw [memcpy_outside (by omega), memcpy_outside (by omega)]
  | flushed good => exact h
  | readFailed _ | refused _ => trivial

/-- How a streamed write ends: all bytes are on the disk; a sector past the capacity
was refused; or the drive failed. Only good writes came before. -/
structure Streamed (pos : Nat) (data : Bytes) (done total : Nat) (d : Device)
    (r : Except (Errno × Nat) Unit) (d' : Device) : Prop where
  same : d.Same d'
  steps : Steps (PartOf pos data done total) d.origin d.log d'.log
  outcome :
    (r = .ok () ∧ d'.image = memcpy d.image pos data done total ∧
      Steps (fun _ e => e.Good) d.origin d.log d'.log) ∨
    (∃ p lba log, r = .error (.einvarg, p) ∧ d'.log = .refused lba :: log ∧
      Steps (fun _ e => e.Good) d.origin d.log log ∧ pos ≤ p ∧ (p = pos → log = d.log) ∧
      (p = pos ∨ pos / sectorSize < lba) ∧ pos / sectorSize ≤ lba ∧ lba * sectorSize < pos + total ∧
      ∀ n, d.identify = .ok n → n ≤ lba) ∨
    (∃ p e log, r = .error (.eio, p) ∧ d'.log = e :: log ∧ e.Failed ∧
      Steps (fun _ e => e.Good) d.origin d.log log ∧ ∃ n, d.fates n ≠ .done)
  within : r = .ok () → 0 < total → ∀ n, d.identify = .ok n → pos + total ≤ n * sectorSize

theorem Streamed.nothing (pos : Nat) (data : Bytes) (done : Nat) (d : Device) :
    Streamed pos data done 0 d (.ok ()) d :=
  ⟨.refl d, .refl, Or.inl ⟨rfl, (memcpy_zero _ _ _ _).symm, .refl⟩, fun _ h => absurd h (by decide)⟩

/-- The first sector went well and the rest of the write followed. -/
theorem Streamed.cons {data : Bytes} {d d1 d' : Device} {r : Except (Errno × Nat) Unit}
    (hpos : 0 < total) (hsame : d.Same d1)
    (hlog : d1.log = .wrote (pos / sectorSize) (blockOf d.image data pos total done) .done :: d.log)
    (hin : ∀ n, d.identify = .ok n → pos / sectorSize < n)
    (h : Streamed (pos + sectorPart pos total) data (done + sectorPart pos total)
      (total - sectorPart pos total) d1 r d')
    (hend : total - sectorPart pos total = 0 → d'.log = d1.log) :
    Streamed pos data done total d r d' := by
  have hle := sectorPart_le pos total
  have hpart := sectorPart_pos pos hpos
  have himg : d1.image = memcpy d.image pos data done (sectorPart pos total) := by
    unfold Device.image
    rw [hlog, hsame.origin]
    exact putSector_blockOf _ _ _ _ _
  have hgood1 : Steps (fun _ e => e.Good) d.origin d.log d1.log := by
    rw [hlog]
    exact Steps.refl.snoc rfl
  have hfirst : Steps (PartOf pos data done total) d.origin d.log d1.log := by
    rw [hlog]
    refine Steps.refl.snoc ⟨le_rfl, ?_, fun i hi => blockOf_apply _ _ _ _ hi⟩
    have h1 := Nat.div_mul_le_self pos sectorSize
    omega
  have hrest : Steps (PartOf pos data done total) d.origin d1.log d'.log := by
    have hs := h.steps
    rw [hsame.origin] at hs
    by_cases hleft : 0 < total - sectorPart pos total
    · exact hs.mono fun image e he => he.tail hleft
    · rw [hend (by omega)]
      exact .refl
  refine ⟨hsame.trans h.same, hfirst.trans hrest, ?_, fun hr _ n hn => ?_⟩
  swap
  · -- the last sector decides: it is this one, or one of the rest
    by_cases hleft : 0 < total - sectorPart pos total
    · have hrest := h.within hr hleft n (hsame.identify.trans hn)
      omega
    · have hlast := Nat.mul_le_mul_right sectorSize (Nat.succ_le_of_lt (hin n hn))
      have hfits := sectorPart_fits pos total
      have hdiv := Nat.div_add_mod pos sectorSize
      rw [Nat.mul_comm] at hdiv
      rw [Nat.succ_mul] at hlast
      omega
  rcases h.outcome with ⟨hr, himg', hgood⟩ | ⟨p, lba, log, hr, hlog', hgood, hp, -, -, hlo,
    hhi, hid⟩ | ⟨p, e, log, hr, hlog', hfail, hgood, n, hn⟩
  · refine Or.inl ⟨hr, ?_, hgood1.trans (hsame.origin ▸ hgood)⟩
    rw [himg', himg, memcpy_append, show sectorPart pos total + (total - sectorPart pos total) =
      total by omega]
  · refine Or.inr (Or.inl ⟨p, lba, log, hr, hlog', hgood1.trans (hsame.origin ▸ hgood), by omega,
      fun he => ?_, Or.inr ?_, ?_, by omega, fun n hn => hid n (hsame.identify.trans hn)⟩)
    · omega
    · by_cases hleft : 0 < total - sectorPart pos total
      · have h1 := (sectorPart_next hleft).1
        omega
      · -- a write that is complete asks for nothing more
        have h1 := congrArg List.length (hlog'.symm.trans (hend (by omega)))
        have h2 := hgood.suffix.length_le
        simp only [List.length_cons] at h1
        omega
    · exact le_trans (Nat.div_le_div_right (by omega)) hlo
  · exact Or.inr (Or.inr ⟨p, e, log, hr, hlog', hfail, hgood1.trans (hsame.origin ▸ hgood), n,
      hsame.fates ▸ hn⟩)

theorem writeLoop_zero (data : Bytes) (fuel pos done : Nat) :
    writeLoop data fuel pos 0 done = pure () := by cases fuel <;> rfl

theorem writeLoop_spec (data : Bytes) {n : Nat} (fuel : Nat) :
    ∀ pos total done (d : Device), total ≤ fuel → pos + total ≤ intMax → d.identify = .ok n →
      Prog.Ends (writeLoop data fuel pos total done) d (Streamed pos data done total d) := by
  induction fuel with
  | zero =>
    intro pos total done d hf _ _
    obtain rfl : total = 0 := by omega
    exact .nothing pos data done d
  | succ fuel ih =>
    intro pos total done d hf hfit hid
    cases total with
    | zero => exact .nothing pos data done d
    | succ total =>
      have hpart : 0 < sectorPart pos (total + 1) := sectorPart_pos pos (Nat.succ_pos total)
      have hle := sectorPart_le pos (total + 1)
      have hlba := lba_lt (show pos ≤ intMax by omega)
      have hstart := Nat.div_mul_le_self pos sectorSize
      refine Prog.Ends.bind (R := fun r d1 => d.Same d1 ∧
        ((r = .ok (blockOf d.image data pos (total + 1) done) ∧ d1.log = d.log) ∨
          (r = .error (.eio, pos) ∧ (∃ lba, d1.log = .readFailed lba :: d.log) ∧
            ∃ n, d.fates n ≠ .done))) ?_ ?_ ?_
      · refine (blockFor_spec data (by omega) d).recode ?_ ?_
        · intro block d1 h
          rcases h.outcome with ⟨hlog, hr⟩ | ⟨-, hr, -⟩
          · cases hr
            exact ⟨h.same, Or.inl ⟨rfl, hlog⟩⟩
          · cases hr
        · intro e d1 h
          rcases h.outcome with ⟨-, hr⟩ | ⟨hlog, hr, hn⟩
          · cases hr
          · cases hr
            exact ⟨h.same, Or.inr ⟨rfl, hlog, hn⟩⟩
      · rintro block d1 ⟨hsame1, ⟨hr, hlog1⟩ | ⟨hr, -⟩⟩
        · cases hr
          refine Prog.Ends.bind (R := fun r d2 => d.Same d2 ∧
            ((r = .ok () ∧ (∀ n, d.identify = .ok n → pos / sectorSize < n) ∧ d2.log =
                .wrote (pos / sectorSize) (blockOf d.image data pos (total + 1) done) .done ::
                  d.log) ∨
              (∃ e, r = .error (e, pos) ∧
                Streamed pos data done (total + 1) d (.error (e, pos)) d2))) ?_ ?_ ?_
          · refine (diskWriteBlock_spec (hsame1.identify.trans hid)).recode ?_ ?_
            · intro _ d2 h
              rcases h.outcome with ⟨hr, -⟩ | ⟨-, hlog, hin⟩ | ⟨hr, -⟩
              · cases hr
              · exact ⟨hsame1.trans h.same, Or.inl ⟨rfl,
                  fun n hn => hin n (hsame1.identify.trans hn), by rw [hlog, hlog1]⟩⟩
              · cases hr
            · intro e d2 h
              have hsame := hsame1.trans h.same
              refine ⟨hsame, Or.inr ⟨e, rfl, hsame, ?_, ?_, fun hr => (by cases hr)⟩⟩
              · rcases h.outcome with ⟨-, hlog, -⟩ | ⟨hr, -⟩ | ⟨-, fate, -, hlog, -⟩
                · rw [hlog, hlog1]
                  exact Steps.refl.snoc trivial
                · cases hr
                · rw [hlog, hlog1]
                  exact Steps.refl.snoc ⟨le_rfl, by omega, fun i hi => blockOf_apply _ _ _ _ hi⟩
              · rcases h.outcome with ⟨hr, hlog, hcap⟩ | ⟨hr, -⟩ | ⟨hr, fate, hfate, hlog, k, hk⟩
                · cases hr
                  refine Or.inr (Or.inl ⟨pos, pos / sectorSize, d.log,
                    rfl, by rw [hlog, hlog1], .refl,
                    le_rfl, fun _ => rfl, Or.inl rfl, le_rfl, by omega, fun m hm => ?_⟩)
                  rcases hcap m (hsame1.identify.trans hm) with hcap | hcap <;> omega
                · cases hr
                · cases hr
                  exact Or.inr (Or.inr ⟨pos, .wrote _ _ fate, d.log,
                    rfl, by rw [hlog, hlog1], hfate, .refl, k, hsame1.fates ▸ hk⟩)
          · rintro _ d2 ⟨hsame2, ⟨-, hin, hlog2⟩ | ⟨e, hr, -⟩⟩
            · by_cases hleft : total + 1 - sectorPart pos (total + 1) = 0
              · rw [hleft, writeLoop_zero]
                refine Streamed.cons (Nat.succ_pos total) hsame2 hlog2 hin ?_ fun _ => rfl
                rw [hleft]
                exact .nothing _ _ _ _
              · refine (ih (pos + sectorPart pos (total + 1))
                  (total + 1 - sectorPart pos (total + 1))
                  (done + sectorPart pos (total + 1)) d2 (by omega) (by omega)
                  (hsame2.identify.trans hid)).mono ?_
                intro r d' h
                exact h.cons (Nat.succ_pos total) hsame2 hlog2 hin fun h0 => absurd h0 hleft
            · cases hr
          · rintro e d2 ⟨-, ⟨hr, -⟩ | ⟨e', hr, h⟩⟩
            · cases hr
            · cases hr
              exact h
        · cases hr
      · rintro e d1 ⟨hsame1, ⟨hr, -⟩ | ⟨hr, ⟨lba, hlog⟩, hn⟩⟩
        · cases hr
        · cases hr
          refine ⟨hsame1, ?_, Or.inr (Or.inr ⟨pos, _, d.log, rfl, hlog, trivial, .refl, hn⟩),
            fun hr => (by cases hr)⟩
          rw [hlog]
          exact Steps.refl.snoc trivial

theorem diskstreamerWrite_spec {n : Nat} (data : Bytes) (h : pos + total ≤ intMax) {d : Device}
    (hid : d.identify = .ok n) :
    Prog.Ends (diskstreamerWrite pos data total) d (Streamed pos data 0 total d) := by
  refine Prog.Ends.bind (R := fun r d' => r = .ok () ∧ d' = d) ?_ ?_ ?_
  · refine Prog.ends_refuse (fun hc => ?_) fun _ => ⟨rfl, rfl⟩
    omega
  · rintro _ d' ⟨-, rfl⟩
    exact writeLoop_spec data total pos total 0 d' le_rfl h hid
  · rintro e d' ⟨hr, -⟩
    cases hr

end Rorthox.Disk
