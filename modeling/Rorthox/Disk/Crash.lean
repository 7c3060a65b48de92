import Rorthox.Disk.Streamer

/-!
# What a crash can leave

A flush makes the writes before it durable. After a crash every sector holds its
durable content or the content of some write issued to it since the last flush.
-/

namespace Rorthox.Disk

open Lib

/-- The content at the last successful flush. -/
def durable (origin : Bytes) : List Event → Bytes
  | [] => origin
  | .flushed true :: log => replay origin log
  | _ :: log => durable origin log

/-- The sector writes issued since then. -/
def pending : List Event → List (Nat × Bytes)
  | [] => []
  | .flushed true :: _ => []
  | .wrote lba data _ :: log => (lba, data) :: pending log
  | _ :: log => pending log

/-- `c` and `img` hold the same sector `x`. -/
def SameSector (x : Nat) (c img : Bytes) : Prop :=
  ∀ i, i < sectorSize → c (x * sectorSize + i) = img (x * sectorSize + i)

/-- `c` is a content a crash at `log` can leave. -/
def CrashImage (origin : Bytes) (log : List Event) (c : Bytes) : Prop :=
  ∀ x, SameSector x c (durable origin log) ∨
    ∃ data, (x, data) ∈ pending log ∧ ∀ i, i < sectorSize → c (x * sectorSize + i) = data i

/-- Everything that was written has been flushed. -/
def Settled (origin : Bytes) (log : List Event) : Prop :=
  durable origin log = replay origin log ∧ pending log = []

/-- `base` is durable and every sector under way is one of an image of the family `F`. -/
structure Midway (origin : Bytes) (log : List Event) (base : Bytes) (F : Bytes → Prop) : Prop where
  durable_eq : durable origin log = base
  pending_of : ∀ x data, (x, data) ∈ pending log →
    ∃ img, F img ∧ ∀ i, i < sectorSize → data i = img (x * sectorSize + i)

variable {base origin : Bytes} {log : List Event} {F : Bytes → Prop}

/-- Sector by sector, a crash leaves one of the images on the way. -/
theorem Midway.crash {c : Bytes} (h : Midway origin log base F) (hb : F base)
    (hc : CrashImage origin log c) (x : Nat) : ∃ img, F img ∧ SameSector x c img := by
  rcases hc x with hd | ⟨data, hmem, hd⟩
  · exact ⟨base, hb, h.durable_eq ▸ hd⟩
  · obtain ⟨img, hF, himg⟩ := h.pending_of x data hmem
    exact ⟨img, hF, fun i hi => (hd i hi).trans (himg i hi)⟩

theorem Settled.midway (h : Settled origin log) (F : Bytes → Prop) :
    Midway origin log (replay origin log) F :=
  ⟨h.1, fun x data hmem => by rw [h.2] at hmem; cases hmem⟩

theorem Midway.mono {G : Bytes → Prop} (h : Midway origin log base F)
    (himp : ∀ img, F img → G img) : Midway origin log base G := by
  refine ⟨h.durable_eq, fun x data hmem => ?_⟩
  obtain ⟨img, hF, himg⟩ := h.pending_of x data hmem
  exact ⟨img, himp img hF, himg⟩

theorem settled_flush (origin : Bytes) (log : List Event) : Settled origin (.flushed true :: log) :=
  ⟨rfl, rfl⟩

theorem Midway.flushFailed (h : Midway origin log base F) :
    Midway origin (.flushed false :: log) base F :=
  ⟨h.durable_eq, h.pending_of⟩

/-- The bytes of a store outside its range never change. -/
theorem PartOf.outside {pos done total : Nat} {data image : Bytes} {e : Event}
    (h : PartOf pos data done total image e) {p : Nat} (hp : p < pos ∨ pos + total ≤ p) :
    e.apply image p = image p := by
  have hdiv := Nat.div_add_mod p sectorSize
  have hmod := Nat.mod_lt p (show 0 < sectorSize by decide)
  have hput : ∀ lba block, (∀ i, i < sectorSize →
      block i = memcpy image pos data done total (lba * sectorSize + i)) →
      putSector image lba block p = image p := by
    intro lba block hb
    rw [putSector_apply]
    split
    · rename_i hx
      rw [hb _ hmod, ← hx, Nat.mul_comm, hdiv, memcpy_outside hp]
    · rfl
  cases e with
  | wrote lba block fate =>
    cases fate with
    | done | stored => exact hput lba block h.2.2
    | lost => rfl
  | flushed _ | readFailed _ | refused _ => rfl

/-- While a store is under way only its own range moves, and every sector it sends is
one of the image it leads to. -/
theorem midway_store {old new : List Event} {pos total : Nat} {data : Bytes}
    (h : Steps (PartOf pos data 0 total) origin old new) (hm : Midway origin old base F)
    (hF : F (memcpy (replay origin old) pos data 0 total)) :
    ∀ log, old <:+ log → log <:+ new → Midway origin log base F := by
  have hall := h.along (I := fun log => Midway origin log base F ∧
    ∀ p, p < pos ∨ pos + total ≤ p → replay origin log p = replay origin old p)
    ⟨hm, fun _ _ => rfl⟩ ?_
  · exact fun log h1 h2 => (hall log h1 h2).1
  · rintro log e - ⟨hmid, hout⟩ he
    refine ⟨?_, fun p hp => (he.outside hp).trans (hout p hp)⟩
    cases e with
    | wrote lba block fate =>
      refine ⟨hmid.durable_eq, fun x d hmem => ?_⟩
      rcases List.mem_cons.mp hmem with heq | hmem
      · cases heq
        refine ⟨_, hF, fun i hi => ?_⟩
        rw [he.2.2 i hi]
        by_cases hin : pos ≤ lba * sectorSize + i ∧ lba * sectorSize + i < pos + total
        · rw [memcpy_of_lt hin.1 hin.2, memcpy_of_lt hin.1 hin.2]
        · rw [memcpy_outside (by omega), memcpy_outside (by omega), hout _ (by omega)]
      · exact hmid.pending_of x d hmem
    | flushed good => exact absurd he id
    | readFailed _ | refused _ => exact ⟨hmid.durable_eq, hmid.pending_of⟩

end Rorthox.Disk
