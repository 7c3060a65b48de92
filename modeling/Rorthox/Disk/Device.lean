import Rorthox.Lib.Bytes
import Rorthox.Lib.Prog
import Rorthox.Status

/-!
# The disk

`kernel/disk/disk.c` as the file system sees it: single sectors are read and
written, and a flush makes the writes before it stay. The drive is kept as its
content at boot and the log of what was asked of it, so every intermediate content
of a run is the replay of a part of the log. A device call can fail whenever
`fates` says so, and a write that fails may or may not have reached the medium.
-/

namespace Rorthox.Disk

open Lib

/-- `RORTHOX_SECTOR_SIZE`. -/
def sectorSize : Nat := 512

/-- `ATA_LBA28_LIMIT`. -/
def lbaLimit : Nat := 0x10000000

/-- How a command ends: well, or with an error before or after it took effect. -/
inductive Fate where
  | done
  | lost
  | stored
  deriving DecidableEq

/-- What was asked of the drive. Reads that succeed leave no trace. -/
inductive Event where
  | readFailed (lba : Nat)
  | wrote (lba : Nat) (data : Bytes) (fate : Fate)
  | refused (lba : Nat)
  | flushed (good : Bool)

structure Device where
  origin : Bytes
  /-- Newest first. -/
  log : List Event
  fates : Nat → Fate
  calls : Nat
  /-- What IDENTIFY gave: the sectors that can be written, or why none can. -/
  identify : Except Errno Nat

def putSector (image : Bytes) (lba : Nat) (data : Bytes) : Bytes :=
  fun p => if p / sectorSize = lba then data (p % sectorSize) else image p

/-- The content after one more event. -/
def Event.apply (e : Event) (image : Bytes) : Bytes :=
  match e with
  | .wrote lba data .done => putSector image lba data
  | .wrote lba data .stored => putSector image lba data
  | _ => image

def replay (origin : Bytes) : List Event → Bytes
  | [] => origin
  | e :: log => e.apply (replay origin log)

/-- What a read sees now. -/
def Device.image (d : Device) : Bytes := replay d.origin d.log

def Device.tick (d : Device) : Device := { d with calls := d.calls + 1 }

def Device.note (d : Device) (e : Event) : Device := { d with log := e :: d.log }

def diskReadBlock (lba : Nat) : Prog Device Errno Bytes := fun d =>
  if lba ≥ lbaLimit then (.error .einvarg, d)
  else
    match d.fates d.calls with
    | .done => (.ok fun i => d.image (lba * sectorSize + i), d.tick)
    | _ => (.error .eio, d.tick.note (.readFailed lba))

def diskWriteCapacity : Prog Device Errno Nat := fun d => (d.identify, d)

def diskWriteBlock (lba : Nat) (data : Bytes) : Prog Device Errno Unit := fun d =>
  if lba ≥ lbaLimit then (.error .einvarg, d.note (.refused lba))
  else
    match d.identify with
    | .error e => (.error e, d.note (.refused lba))
    | .ok sectors =>
        if lba ≥ sectors then (.error .einvarg, d.note (.refused lba))
        else
          let fate := d.fates d.calls
          (if fate = .done then .ok () else .error .eio, d.tick.note (.wrote lba data fate))

def diskFlush : Prog Device Errno Unit := fun d =>
  match d.identify with
  | .error e => (.error e, d)
  | .ok _ =>
      if d.fates d.calls = .done then (.ok (), d.tick.note (.flushed true))
      else (.error .eio, d.tick.note (.flushed false))

/-! ## Events -/

/-- A command that ended with an error of the drive. -/
def Event.Failed : Event → Prop
  | .readFailed _ => True
  | .wrote _ _ fate => fate ≠ .done
  | .refused _ => False
  | .flushed good => good = false

/-- A sector write or a flush was asked for. -/
def Event.Mutates : Event → Prop
  | .readFailed _ => False
  | _ => True

theorem putSector_apply (image : Bytes) (lba : Nat) (data : Bytes) (p : Nat) :
    putSector image lba data p =
      if p / sectorSize = lba then data (p % sectorSize) else image p := rfl

/-- Every new event satisfies `P` on the content it met. -/
inductive Steps (P : Bytes → Event → Prop) (origin : Bytes) (old : List Event) :
    List Event → Prop where
  | refl : Steps P origin old old
  | snoc {log : List Event} {e : Event} (h : Steps P origin old log)
      (he : P (replay origin log) e) : Steps P origin old (e :: log)

namespace Steps

variable {P Q : Bytes → Event → Prop} {origin : Bytes} {old mid new : List Event}

theorem trans (h1 : Steps P origin old mid) (h2 : Steps P origin mid new) :
    Steps P origin old new := by
  induction h2 with
  | refl => exact h1
  | snoc _ he ih => exact ih.snoc he

section

variable (h : Steps P origin old new)
include h

theorem mono (himp : ∀ image e, P image e → Q image e) : Steps Q origin old new := by
  induction h with
  | refl => exact .refl
  | snoc _ he ih => exact ih.snoc (himp _ _ he)

theorem suffix : old <:+ new := by
  induction h with
  | refl => exact List.suffix_refl _
  | snoc _ _ ih => exact ih.trans (List.suffix_cons _ _)

/-- Each single new event was such a step. -/
theorem event {later : List Event} {e : Event} (hnew : new = later ++ e :: (mid ++ old)) :
    ∃ image, P image e := by
  induction h generalizing later with
  | refl =>
    have hlen := congrArg List.length hnew
    simp only [List.length_append, List.length_cons] at hlen
    omega
  | snoc _ he ih =>
    cases later with
    | nil =>
      obtain ⟨rfl, -⟩ := List.cons_eq_cons.mp hnew
      exact ⟨_, he⟩
    | cons x later => exact ih (List.cons_eq_cons.mp hnew).2

/-- What holds at first and is kept by every event holds at every point between. -/
theorem along {I : List Event → Prop} (h0 : I old)
    (hstep : ∀ log e, old <:+ log → I log → P (replay origin log) e → I (e :: log)) :
    ∀ log, old <:+ log → log <:+ new → I log := by
  induction h with
  | refl =>
    intro log h1 h2
    rw [List.suffix_iff_eq_append] at h1 h2
    have hle1 := congrArg List.length h1
    have hle2 := congrArg List.length h2
    simp only [List.length_append, List.length_take] at hle1 hle2
    have he : log.length = old.length := by omega
    rw [← he, Nat.sub_self, List.take_zero, List.nil_append] at h1
    rwa [← h1]
  | snoc h he ih =>
    rename_i mid e
    intro log h1 h2
    rcases List.suffix_cons_iff.mp h2 with rfl | h2
    · exact hstep mid e h.suffix (ih mid h.suffix (List.suffix_refl _)) he
    · exact ih log h1 h2

end

end Steps

/-! ## Single commands -/

/-- Nothing but the log and the count of commands moves. -/
structure Device.Same (d d' : Device) : Prop where
  origin : d'.origin = d.origin
  fates : d'.fates = d.fates
  identify : d'.identify = d.identify

theorem Device.Same.refl (d : Device) : d.Same d := ⟨rfl, rfl, rfl⟩

variable {d : Device} {α : Type}

theorem Device.Same.trans {d' d'' : Device} (h : d.Same d') (h' : d'.Same d'') : d.Same d'' :=
  ⟨h'.1.trans h.1, h'.2.trans h.2, h'.3.trans h.3⟩

/-- A reading program: it gives `den`, or a read failed and it gives up at once. -/
structure ReadBy {α : Type} (den : Except Errno α) (d : Device) (r : Except Errno α)
    (d' : Device) : Prop where
  same : d.Same d'
  outcome : (d'.log = d.log ∧ r = den) ∨
    ((∃ lba, d'.log = .readFailed lba :: d.log) ∧ r = .error .eio ∧ ∃ n, d.fates n ≠ .done)

theorem ReadBy.image {den r : Except Errno α} {d' : Device} (h : ReadBy den d r d') :
    d'.image = d.image := by
  unfold Device.image
  rw [h.same.origin]
  rcases h.outcome with ⟨he, -⟩ | ⟨⟨lba, he⟩, -⟩
  · rw [he]
  · rw [he]; rfl

theorem readBy_pure {a : α} : ReadBy (.ok a) d (.ok a) d :=
  ⟨.refl d, Or.inl ⟨rfl, rfl⟩⟩

/-- Reading programs in a row. -/
theorem ReadBy.bind {β : Type} {m : Prog Device Errno α} {f : α → Prog Device Errno β}
    {den : Except Errno α} {g : α → Except Errno β} (h : Prog.Ends m d (ReadBy den d))
    (hf : ∀ a d', d'.image = d.image → den = .ok a → Prog.Ends (f a) d' (ReadBy (g a) d')) :
    Prog.Ends (m >>= f) d (ReadBy (den >>= g) d) := by
  refine Prog.Ends.bind h ?_ ?_
  · intro a d' h1
    have himg := h1.image
    rcases h1.outcome with ⟨hlog, hr⟩ | ⟨-, hr, -⟩
    · refine (hf a d' himg hr.symm).mono ?_
      intro r d'' h2
      refine ⟨h1.same.trans h2.same, ?_⟩
      rw [← hr]
      rcases h2.outcome with ⟨hlog', hr'⟩ | ⟨⟨lba, hlog'⟩, hr', n, hn⟩
      · exact Or.inl ⟨hlog'.trans hlog, hr'⟩
      · exact Or.inr ⟨⟨lba, by rw [hlog', hlog]⟩, hr', n, by rw [← h1.same.fates]; exact hn⟩
    · cases hr
  · intro e d' h1
    refine ⟨h1.same, ?_⟩
    rcases h1.outcome with ⟨hlog, hr⟩ | ⟨hlog, hr, hn⟩
    · exact Or.inl ⟨hlog, by rw [← hr]; rfl⟩
    · exact Or.inr ⟨hlog, by cases hr; rfl, hn⟩

theorem readBy_refuse {c : Prop} [Decidable c] {e : Errno} :
    Prog.Ends (Prog.refuse c e) d (ReadBy (if c then .error e else .ok ()) d) := by
  refine Prog.ends_refuse (fun h => ?_) (fun h => ?_)
  · rw [if_pos h]; exact ⟨.refl d, Or.inl ⟨rfl, rfl⟩⟩
  · rw [if_neg h]; exact readBy_pure

theorem diskReadBlock_spec {lba : Nat} (h : lba < lbaLimit) (d : Device) :
    Prog.Ends (diskReadBlock lba) d
      (ReadBy (.ok fun i => d.image (lba * sectorSize + i)) d) := by
  unfold Prog.Ends diskReadBlock
  rw [if_neg (by omega)]
  cases hf : d.fates d.calls with
  | done => exact ⟨⟨rfl, rfl, rfl⟩, Or.inl ⟨rfl, rfl⟩⟩
  | lost | stored => exact ⟨⟨rfl, rfl, rfl⟩, Or.inr ⟨⟨lba, rfl⟩, rfl, d.calls, by rw [hf]; decide⟩⟩

/-- What one sector write does: the request is refused, the write ends well, or the
drive reports an error. -/
structure WroteBlock (lba : Nat) (data : Bytes) (d : Device) (r : Except Errno Unit)
    (d' : Device) : Prop where
  same : d.Same d'
  outcome :
    (r = .error .einvarg ∧ d'.log = .refused lba :: d.log ∧
      ∀ n, d.identify = .ok n → n ≤ lba ∨ lbaLimit ≤ lba) ∨
    (r = .ok () ∧ d'.log = .wrote lba data .done :: d.log ∧ ∀ n, d.identify = .ok n → lba < n) ∨
    (r = .error .eio ∧ ∃ fate, fate ≠ .done ∧ d'.log = .wrote lba data fate :: d.log ∧
      ∃ n, d.fates n ≠ .done)

theorem diskWriteBlock_spec {lba : Nat} {data : Bytes} {n : Nat} (hid : d.identify = .ok n) :
    Prog.Ends (diskWriteBlock lba data) d (WroteBlock lba data d) := by
  unfold Prog.Ends diskWriteBlock
  by_cases h1 : lba ≥ lbaLimit
  · rw [if_pos h1]
    exact ⟨⟨rfl, rfl, rfl⟩, Or.inl ⟨rfl, rfl, fun _ _ => Or.inr h1⟩⟩
  · rw [if_neg h1, hid]
    by_cases h2 : lba ≥ n
    · simp only [if_pos h2]
      refine ⟨⟨rfl, rfl, rfl⟩, Or.inl ⟨rfl, rfl, fun m hm => Or.inl ?_⟩⟩
      rw [hid] at hm
      cases hm
      exact h2
    · simp only [if_neg h2]
      by_cases hf : d.fates d.calls = .done
      · refine ⟨⟨rfl, rfl, rfl⟩, Or.inr (Or.inl ⟨if_pos hf, ?_, fun m hm => ?_⟩)⟩
        · rw [hf]
          rfl
        · rw [hid] at hm
          cases hm
          exact Nat.not_le.mp h2
      · exact ⟨⟨rfl, rfl, rfl⟩, Or.inr (Or.inr ⟨if_neg hf, _, hf, rfl, d.calls, hf⟩)⟩

theorem diskFlush_spec {n : Nat} (hid : d.identify = .ok n) :
    Prog.Ends diskFlush d (fun r d' => d.Same d' ∧
      ((r = .ok () ∧ d'.log = .flushed true :: d.log) ∨
        (r = .error .eio ∧ d'.log = .flushed false :: d.log ∧ ∃ n, d.fates n ≠ .done))) := by
  unfold Prog.Ends diskFlush
  rw [hid]
  dsimp only
  by_cases hf : d.fates d.calls = .done
  · rw [if_pos hf]
    exact ⟨⟨rfl, rfl, rfl⟩, Or.inl ⟨rfl, rfl⟩⟩
  · rw [if_neg hf]
    exact ⟨⟨rfl, rfl, rfl⟩, Or.inr ⟨rfl, rfl, d.calls, hf⟩⟩

end Rorthox.Disk
