import Rorthox.Fat.Plans

/-!
# What depends on the layout alone

Chains, free clusters and the bytes of a file depend on the header, the start of the
data area and the limit of the writable clusters, never on cached entries, descriptors
or flags. So they stay the same while a mount goes on.
-/

namespace Rorthox.Fat

open Lib Disk

structure SameLayout (v w : FatPrivate) : Prop where
  header : w.header = v.header
  data : w.rootDirectory.endingSectorPos = v.rootDirectory.endingSectorPos
  max : w.maxWritable = v.maxWritable

namespace SameLayout

variable {u v w : FatPrivate}

theorem refl (v : FatPrivate) : SameLayout v v := ⟨rfl, rfl, rfl⟩

theorem trans (h : SameLayout u v) (h' : SameLayout v w) : SameLayout u w :=
  ⟨h'.1.trans h.1, h'.2.trans h.2, h'.3.trans h.3⟩

section

variable (h : SameLayout v w)
include h

theorem clusterBytes : Fat.clusterBytes w = Fat.clusterBytes v := by
  unfold Fat.clusterBytes
  rw [h.header]

theorem limit : fat16ClusterLimit w = fat16ClusterLimit v := by
  unfold fat16ClusterLimit
  rw [h.header, h.data]

theorem valid (c : Nat) : fat16ValidCluster w c ↔ fat16ValidCluster v c := by
  unfold fat16ValidCluster
  rw [h.limit]

theorem toSector (c : Nat) : fat16ClusterToSector w c = fat16ClusterToSector v c := by
  unfold fat16ClusterToSector
  rw [h.header, h.data]

theorem part (within total : Nat) : clusterPart w within total = clusterPart v within total := by
  unfold clusterPart
  rw [h.clusterBytes]

theorem entryPos (copy c : Nat) : fatEntryPos w copy c = fatEntryPos v copy c := by
  unfold fatEntryPos
  rw [h.header]

theorem fatAt (img : Bytes) (copy c : Nat) : Fat.fatAt w img copy c = Fat.fatAt v img copy c := by
  unfold Fat.fatAt
  rw [h.entryPos]

theorem clusterWalk (img : Bytes) (n : Nat) : ∀ c,
    Fat.clusterWalk w img n c = Fat.clusterWalk v img n c := by
  induction n with
  | zero => intro c; rfl
  | succ n ih =>
    intro c
    unfold Fat.clusterWalk
    simp only [h.fatAt, h.valid, ih]

theorem clusterAt (img : Bytes) (start offset : Nat) :
    Fat.clusterAt w img start offset = Fat.clusterAt v img start offset := by
  unfold Fat.clusterAt
  simp only [h.clusterBytes, h.valid, h.limit, h.clusterWalk]

theorem readWalk (img : Bytes) (fuel : Nat) : ∀ current within total traversed done out,
      Fat.readWalk w img fuel current within total traversed done out =
        Fat.readWalk v img fuel current within total traversed done out := by
  induction fuel with
  | zero => intro current within total traversed done out; cases total <;> rfl
  | succ fuel ih =>
    intro current within total traversed done out
    cases total with
    | zero => rfl
    | succ total =>
      unfold Fat.readWalk
      simp only [h.part, h.toSector, h.fatAt, h.valid, h.limit, ih]

theorem readAt (img : Bytes) (start offset total : Nat) :
    Fat.readAt w img start offset total = Fat.readAt v img start offset total := by
  unfold Fat.readAt
  simp only [h.clusterBytes, h.clusterAt, h.readWalk]

theorem freeCluster (img : Bytes) (c : Nat) : FreeCluster w img c ↔ FreeCluster v img c := by
  unfold FreeCluster
  rw [h.fatAt, h.fatAt]

theorem fitted {n : Nat} (hf : Fitted v n) : Fitted w n := by
  obtain ⟨hg, hm⟩ := hf
  refine ⟨?_, ?_⟩
  · unfold AcceptedGeometry at hg ⊢
    rw [h.header, h.data, h.limit]
    exact hg
  · rw [h.max, hm]
    unfold writableLimit
    rw [h.header, h.limit]

end

end SameLayout

end Rorthox.Fat
