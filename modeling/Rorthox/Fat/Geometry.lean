import Rorthox.Fat.Acting

/-!
# Where things lie on an accepted volume

`fat16_prepare_write` admits a geometry and bounds the clusters a mutation may touch.
From its tests: the two copies of the FAT, the root directory and the clusters follow
one another, and all of them lie inside the drive and below 2^31.
-/

namespace Rorthox.Fat

open Lib Disk

/-- The volume passed `fat16_prepare_write` on a drive of `n` writable sectors. -/
structure Fitted (v : FatPrivate) (n : Nat) : Prop where
  accepted : AcceptedGeometry v n
  max_eq : v.maxWritable = writableLimit v n

/-- A volume with clusters has an entry for each of them in its FAT. -/
theorem limit_cases (v : FatPrivate) : fat16ClusterLimit v = 0 ∨
    (fat16ClusterLimit v ≤ 65525 ∧
      2 * fat16ClusterLimit v + 2 ≤ sectorsPerFat v.header * sectorSize) := by
  unfold fat16ClusterLimit
  simp only
  generalize (if numberOfSectors v.header ≠ 0 then numberOfSectors v.header
    else sectorsBig v.header) = sectors
  split
  · exact Or.inl rfl
  · split
    · exact Or.inl rfl
    · refine Or.inr ⟨?_, ?_⟩ <;> omega

theorem limit_le (v : FatPrivate) : fat16ClusterLimit v ≤ 65525 := by
  rcases limit_cases v with h | h
  · omega
  · exact h.1

theorem capped_le (a b : Nat) : (if a < b then a else b) ≤ a ∧ (if a < b then a else b) ≤ b := by
  split <;> omega

/-- The limit comes from the sectors the drive takes below 2^31. -/
theorem writableLimit_spec (v : FatPrivate) (n : Nat) :
    writableLimit v n ≤ fat16ClusterLimit v ∧
      ∃ sectors, sectors ≤ n ∧ sectors ≤ intMax / 512 ∧
        writableLimit v n ≤ (if dataStart v.header < sectors then
          (sectors - dataStart v.header) / sectorsPerCluster v.header else 0) + 1 := by
  unfold writableLimit
  simp only
  have h1 := capped_le (intMax / 512) n
  generalize (if intMax / 512 < n then intMax / 512 else n) = low at h1 ⊢
  have h2 := capped_le 0x10000000 low
  generalize (if 0x10000000 < low then 0x10000000 else low) = sectors at h2 ⊢
  have h3 := capped_le ((if dataStart v.header < sectors then
    (sectors - dataStart v.header) / sectorsPerCluster v.header else 0) + 1) (fat16ClusterLimit v)
  exact ⟨h3.2, sectors, h2.2.trans h1.2, h2.2.trans h1.1, h3.1⟩

variable {v : FatPrivate} {n : Nat}

/-- The data area begins where the root directory ends. -/
theorem AcceptedGeometry.data_eq (h : AcceptedGeometry v n) :
    dataStart v.header = v.rootDirectory.endingSectorPos :=
  h.2.2.2.2.2.2.2.2.2.1

namespace Fitted

section

variable (h : Fitted v n)
include h

theorem spc_pos : 0 < sectorsPerCluster v.header :=
  Nat.pos_of_ne_zero h.accepted.2.1

theorem clusterBytes_pos : 0 < clusterBytes v :=
  Nat.mul_pos h.spc_pos (by decide)

theorem copies : fatCopies v.header = 2 := h.accepted.2.2.2.1

theorem data_eq : dataStart v.header = v.rootDirectory.endingSectorPos :=
  h.accepted.data_eq

theorem data_le : dataStart v.header ≤ n := h.accepted.2.2.2.2.2.2.2.2.2.2.1

theorem data_int : dataStart v.header * sectorSize ≤ intMax :=
  h.accepted.2.2.2.2.2.2.2.2.2.2.2

theorem limit_ne : fat16ClusterLimit v ≠ 0 := h.accepted.2.2.2.2.2.2.2.2.1

theorem max_le : v.maxWritable ≤ fat16ClusterLimit v := by
  rw [h.max_eq]
  exact (writableLimit_spec v n).1

theorem max_lt : v.maxWritable < 2 ^ 16 := by
  have h1 := h.max_le
  have h2 := limit_le v
  omega

/-- A writable cluster lies inside the drive and below 2^31. -/
theorem cluster_end {c : Nat} (h2 : 2 ≤ c) (hc : c ≤ v.maxWritable) :
    (fat16ClusterToSector v c + sectorsPerCluster v.header) * sectorSize ≤ n * sectorSize ∧
      (fat16ClusterToSector v c + sectorsPerCluster v.header) * sectorSize ≤ intMax := by
  obtain ⟨-, sectors, hn, hint, havail⟩ := writableLimit_spec v n
  rw [← h.max_eq] at havail
  have hdata : dataStart v.header < sectors := by
    by_contra hd
    rw [if_neg hd] at havail
    omega
  rw [if_pos hdata] at havail
  have h3 : (c - 2 + 1) * sectorsPerCluster v.header ≤ sectors - dataStart v.header :=
    (Nat.mul_le_mul_right _ (by omega)).trans (Nat.div_mul_le_self _ _)
  rw [Nat.add_mul, Nat.one_mul] at h3
  have h4 : fat16ClusterToSector v c + sectorsPerCluster v.header ≤ sectors := by
    unfold fat16ClusterToSector
    rw [← h.data_eq]
    omega
  have h6 := Nat.div_mul_le_self intMax 512
  constructor
  · exact Nat.mul_le_mul_right _ (h4.trans hn)
  · exact (Nat.mul_le_mul_right _ (h4.trans hint)).trans h6

/-- The entry of a cluster lies in its copy of the FAT. -/
theorem entry_end {c copy : Nat} (hc : c ≤ v.maxWritable) : fatEntryPos v copy c + 2 ≤
      (reservedSectors v.header + (copy + 1) * sectorsPerFat v.header) * sectorSize := by
  have h1 := (limit_cases v).resolve_left h.limit_ne
  have h2 := h.max_le
  have h3 : (reservedSectors v.header + (copy + 1) * sectorsPerFat v.header) * sectorSize =
      (reservedSectors v.header + copy * sectorsPerFat v.header) * sectorSize +
        sectorsPerFat v.header * sectorSize := by ring
  unfold fatEntryPos
  omega

theorem fats_end {copy : Nat} (hcopy : copy ≤ 1) :
    (reservedSectors v.header + (copy + 1) * sectorsPerFat v.header) * sectorSize ≤
      (reservedSectors v.header + fatCopies v.header * sectorsPerFat v.header) * sectorSize := by
  rw [h.copies]
  exact Nat.mul_le_mul_right _ (Nat.add_le_add_left (Nat.mul_le_mul_right _ (by omega)) _)

end

theorem root_end (v : FatPrivate) :
    (reservedSectors v.header + fatCopies v.header * sectorsPerFat v.header) * sectorSize +
      rootDirEntries v.header * 32 ≤ dataStart v.header * sectorSize := by
  unfold dataStart sectorSize
  omega

theorem data_bound (h : Fitted v n) : dataStart v.header * sectorSize ≤ n * sectorSize :=
  Nat.mul_le_mul_right _ h.data_le

end Fitted

/-! ## Clusters -/

/-- Byte `p` of the disk lies in the cluster. -/
def InCluster (v : FatPrivate) (cluster p : Nat) : Prop :=
  fat16ClusterToSector v cluster * sectorSize ≤ p ∧
    p < fat16ClusterToSector v cluster * sectorSize + clusterBytes v

instance (v : FatPrivate) (cluster p : Nat) : Decidable (InCluster v cluster p) :=
  inferInstanceAs (Decidable (_ ∧ _))

theorem InCluster.unique {c c' p : Nat} (h : InCluster v c p) (h' : InCluster v c' p) (h2 : 2 ≤ c)
    (h2' : 2 ≤ c') : c = c' := by
  have hlt : ∀ {a b : Nat}, 2 ≤ a → a < b → fat16ClusterToSector v a * sectorSize + clusterBytes v ≤
      fat16ClusterToSector v b * sectorSize := by
    intro a b ha hab
    unfold fat16ClusterToSector clusterBytes
    rw [← Nat.add_mul, Nat.add_assoc]
    refine Nat.mul_le_mul_right _ (Nat.add_le_add_left ?_ _)
    calc (a - 2) * sectorsPerCluster v.header + sectorsPerCluster v.header
        = (a - 2 + 1) * sectorsPerCluster v.header := by rw [Nat.add_mul, Nat.one_mul]
      _ ≤ (b - 2) * sectorsPerCluster v.header := Nat.mul_le_mul_right _ (by omega)
  rcases Nat.lt_trichotomy c c' with hc | hc | hc
  · have h1 := hlt h2 hc
    have h3 := h.2
    have h4 := h'.1
    omega
  · exact hc
  · have h1 := hlt h2' hc
    have h3 := h'.2
    have h4 := h.1
    omega

theorem cluster_start (v : FatPrivate) (c : Nat) :
    v.rootDirectory.endingSectorPos * sectorSize ≤ fat16ClusterToSector v c * sectorSize :=
  Nat.mul_le_mul_right _ (Nat.le_add_right _ _)

/-! ## Places of directory entries -/

/-- First sector of the root directory. -/
def rootSector (h : Bytes) : Nat := fatCopies h * sectorsPerFat h + reservedSectors h

/-- A slot of the root directory or of a cluster begins at `pos`. -/
def EntryAt (v : FatPrivate) (pos : Nat) : Prop :=
  (∃ i, i < rootDirEntries v.header ∧ pos = rootSector v.header * sectorSize + i * 32) ∨
    ∃ c i, fat16ValidCluster v c ∧ i < slotsPerCluster v ∧
      pos = fat16ClusterToSector v c * sectorSize + i * 32

theorem EntryAt.aligned {pos : Nat} (h : EntryAt v pos) : pos % 32 = 0 := by
  rcases h with ⟨i, -, rfl⟩ | ⟨c, i, -, -, rfl⟩ <;>
  · unfold sectorSize
    omega

theorem EntryAt.congr {w : FatPrivate} (hh : w.header = v.header)
    (hd : w.rootDirectory.endingSectorPos = v.rootDirectory.endingSectorPos) {pos : Nat}
    (h : EntryAt v pos) : EntryAt w pos := by
  unfold EntryAt slotsPerCluster fat16ValidCluster fat16ClusterLimit fat16ClusterToSector
    clusterBytes at *
  rw [hh, hd]
  exact h

end Rorthox.Fat
