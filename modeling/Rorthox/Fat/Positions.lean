import Rorthox.Lib.CInt
import Rorthox.Fat.Allocate
import Rorthox.Fat.Slots

/-!
# Where a mutation may write

The `int` expressions with which `fat16_set_entry`, `fat16_cluster_to_sector` and
`fat16_write_bytes` form byte positions, and the clusters for which none of them overflows
and every position lies where it belongs. `max_writable` is the last of them.
-/

namespace Rorthox.Fat

open Lib Disk

/-! ## The expressions -/

/-- `(h->reserved_sectors + copy * h->sectors_per_fat) * disk->sector_size + cluster * 2`. -/
def setEntryExpr (v : FatPrivate) (copy cluster : Nat) : IntExpr :=
  .add
    (.mul (.add (.val (reservedSectors v.header)) (.mul (.val copy)
      (.val (sectorsPerFat v.header)))) (.val sectorSize))
    (.mul (.val cluster) (.val (2 : Nat)))

/-- `ending_sector_pos + ((cluster - 2) * sectors_per_cluster)`. -/
def clusterToSectorExpr (v : FatPrivate) (cluster : Nat) : IntExpr :=
  .add (.val v.rootDirectory.endingSectorPos)
    (.mul (.sub (.val cluster) (.val (2 : Nat))) (.val (sectorsPerCluster v.header)))

/-- `sectors_per_cluster * disk->sector_size`. -/
def clusterBytesExpr (v : FatPrivate) : IntExpr :=
  .mul (.val (sectorsPerCluster v.header)) (.val sectorSize)

/-- `fat16_cluster_to_sector(private, cluster) * disk->sector_size + offset`. -/
def writePosExpr (v : FatPrivate) (cluster offset : Nat) : IntExpr :=
  .add (.mul (clusterToSectorExpr v cluster) (.val sectorSize)) (.val offset)

/-! ## Places -/

/-- A mutation may use cluster `c` on a drive of `n` writable sectors. -/
structure WritableAt (v : FatPrivate) (n c : Nat) : Prop where
  /-- The cluster's sectors follow the data start and end inside the drive and the ints. -/
  after : dataStart v.header ≤ fat16ClusterToSector v c
  drive : fat16ClusterToSector v c + sectorsPerCluster v.header ≤ n
  range : fat16ClusterToSector v c + sectorsPerCluster v.header ≤ intMax / 512
  /-- Its entries lie in the first and in the second copy of the FAT, before the root directory. -/
  entry : ∀ copy, copy ≤ 1 →
    (reservedSectors v.header + copy * sectorsPerFat v.header) * sectorSize ≤ fatEntryPos v copy c ∧
    fatEntryPos v copy c + 2 ≤ (reservedSectors v.header + (copy + 1) * sectorsPerFat v.header) *
      sectorSize ∧
    fatEntryPos v copy c + 2 ≤ rootSector v.header * sectorSize
  /-- No expression overflows, nor does a position with the length of what is written there. -/
  entryInt : ∀ copy, copy ≤ 1 → (setEntryExpr v copy c).Computes (fatEntryPos v copy c) ∧
    (IntExpr.add (setEntryExpr v copy c) (.val (2 : Nat))).Computes (fatEntryPos v copy c + 2)
  sectorInt : (clusterToSectorExpr v c).Computes (fat16ClusterToSector v c)
  bytesInt : (clusterBytesExpr v).Computes (clusterBytes v)
  posInt : ∀ offset part, offset + part ≤ clusterBytes v →
    (writePosExpr v c offset).Computes (fat16ClusterToSector v c * sectorSize + offset) ∧
    (IntExpr.add (writePosExpr v c offset) (.val part)).Computes
      (fat16ClusterToSector v c * sectorSize + offset + part)

theorem intMax_lt {x : Nat} (h : x ≤ intMax) : x < 2 ^ 31 := by
  unfold intMax at h
  omega

theorem fats_root (v : FatPrivate) :
    (reservedSectors v.header + fatCopies v.header * sectorsPerFat v.header) * sectorSize =
      rootSector v.header * sectorSize := by
  rw [rootSector, Nat.add_comm]

namespace Fitted

variable {v : FatPrivate} {n c : Nat}

section

variable (h : Fitted v n)
include h

/-- The FATs end before the root directory, and that before 2^31. -/
theorem entry_below (hc : c ≤ v.maxWritable) {copy : Nat} (hcopy : copy ≤ 1) :
    fatEntryPos v copy c + 2 ≤ rootSector v.header * sectorSize :=
  (h.entry_end hc).trans ((h.fats_end hcopy).trans (fats_root v).le)

theorem root_int : rootSector v.header * sectorSize ≤ intMax := by
  have h1 := root_end v
  have h2 := h.data_int
  rw [fats_root] at h1
  omega

theorem setEntry_computes (hc : c ≤ v.maxWritable) {copy : Nat} (hcopy : copy ≤ 1) :
    (setEntryExpr v copy c).Computes (fatEntryPos v copy c) := by
  have hpos := intMax_lt ((h.entry_below hc hcopy).trans h.root_int)
  rw [fatEntryPos] at hpos
  have hspf : sectorsPerFat v.header < 2 ^ 16 := le16_lt _ _
  have hreserved : reservedSectors v.header < 2 ^ 16 := le16_lt _ _
  have hsectors : reservedSectors v.header + copy * sectorsPerFat v.header < 2 ^ 31 := by
    rw [sectorSize] at hpos
    omega
  have hfats := (IntExpr.computes_val (n := copy) (by omega)).mul
    (IntExpr.computes_val (n := sectorsPerFat v.header) (by omega)) (by omega)
  have hsector := (IntExpr.computes_val (n := reservedSectors v.header) (by omega)).add
    hfats hsectors
  have hbase := hsector.mul (IntExpr.computes_val (n := sectorSize) (by decide)) (by omega)
  have hoffset := (IntExpr.computes_val (n := c) (by omega)).mul
    (IntExpr.computes_val (n := 2) (by decide)) (by omega)
  exact hbase.add hoffset (by omega)

theorem sector_range (h2 : 2 ≤ c) (hc : c ≤ v.maxWritable) :
    fat16ClusterToSector v c + sectorsPerCluster v.header ≤ n ∧
      fat16ClusterToSector v c + sectorsPerCluster v.header ≤ intMax / 512 := by
  obtain ⟨hdrive, hint⟩ := h.cluster_end h2 hc
  rw [sectorSize] at hdrive hint
  constructor
  · omega
  · omega

theorem clusterToSector_computes (h2 : 2 ≤ c) (hc : c ≤ v.maxWritable) :
    (clusterToSectorExpr v c).Computes (fat16ClusterToSector v c) := by
  have hrange := (h.sector_range h2 hc).2
  have hmax : intMax / 512 < 2 ^ 31 := by decide
  have hclus := h.max_lt
  have hspc : sectorsPerCluster v.header < 2 ^ 8 := UInt8.toNat_lt _
  rw [fat16ClusterToSector] at hrange
  have hahead := (IntExpr.computes_val (n := c) (by omega)).sub
    (IntExpr.computes_val (n := 2) (by decide)) h2 (by omega)
  have hsectors := hahead.mul (IntExpr.computes_val (n := sectorsPerCluster v.header) (by omega))
    (by omega)
  exact (IntExpr.computes_val (by omega)).add hsectors (by omega)

theorem writePos_computes (h2 : 2 ≤ c) (hc : c ≤ v.maxWritable) {offset part : Nat}
    (hpart : offset + part ≤ clusterBytes v) :
    (writePosExpr v c offset).Computes (fat16ClusterToSector v c * sectorSize + offset) ∧
      (IntExpr.add (writePosExpr v c offset) (.val part)).Computes
        (fat16ClusterToSector v c * sectorSize + offset + part) := by
  have hend := intMax_lt (h.cluster_end h2 hc).2
  rw [Nat.add_mul] at hend
  rw [clusterBytes] at hpart
  have hstart := (h.clusterToSector_computes h2 hc).mul
    (IntExpr.computes_val (n := sectorSize) (by decide)) (by omega)
  have hpos := hstart.add (IntExpr.computes_val (n := offset) (by omega)) (by omega)
  exact ⟨hpos, hpos.add (IntExpr.computes_val (by omega)) (by omega)⟩

theorem writableAt (h2 : 2 ≤ c) (hc : c ≤ v.maxWritable) : WritableAt v n c where
  after := by
    rw [h.data_eq, fat16ClusterToSector]
    exact Nat.le_add_right _ _
  drive := (h.sector_range h2 hc).1
  range := (h.sector_range h2 hc).2
  entry := fun copy hcopy => ⟨Nat.le_add_right _ _, h.entry_end hc, h.entry_below hc hcopy⟩
  entryInt := fun copy hcopy => ⟨h.setEntry_computes hc hcopy,
    (h.setEntry_computes hc hcopy).add (IntExpr.computes_val (by decide))
      (intMax_lt ((h.entry_below hc hcopy).trans h.root_int))⟩
  sectorInt := h.clusterToSector_computes h2 hc
  bytesInt := by
    have hspc : sectorsPerCluster v.header < 2 ^ 8 := UInt8.toNat_lt _
    exact (IntExpr.computes_val (by omega)).mul (IntExpr.computes_val (by decide))
      (by rw [sectorSize]; omega)
  posInt := fun offset part hpart => h.writePos_computes h2 hc hpart

end

end Fitted

/-! ## The largest one -/

/-- A limit below that of the volume comes from the sectors. -/
theorem writableLimit_lt {v : FatPrivate} {n : Nat} (h : writableLimit v n < fat16ClusterLimit v) :
    (min n (intMax / 512) - dataStart v.header) / sectorsPerCluster v.header + 1 ≤
      writableLimit v n := by
  have hsectors : (if 0x10000000 < (if intMax / 512 < n then intMax / 512 else n) then 0x10000000
      else (if intMax / 512 < n then intMax / 512 else n)) = min n (intMax / 512) := by
    have hmax : intMax / 512 = 4194303 := by decide
    rw [hmax]
    split_ifs <;> omega
  unfold writableLimit at h ⊢
  simp only [hsectors] at h ⊢
  by_cases hdata : dataStart v.header < min n (intMax / 512)
  · rw [if_pos hdata] at h ⊢
    split_ifs at h ⊢ with hlim
    · exact le_rfl
    · exact absurd h (Nat.lt_irrefl _)
  · rw [if_neg hdata] at h ⊢
    have hzero : min n (intMax / 512) - dataStart v.header = 0 := by omega
    rw [hzero, Nat.zero_div]
    split_ifs at h ⊢ with hlim
    · exact le_rfl
    · exact absurd h (Nat.lt_irrefl _)

theorem Fitted.largest {v : FatPrivate} {n m : Nat} (h : Fitted v n)
    (hlimit : m ≤ fat16ClusterLimit v)
    (hall : ∀ c, 2 ≤ c → c ≤ m → WritableAt v n c) : m ≤ v.maxWritable := by
  by_contra hlt
  have hpos : 1 ≤ v.maxWritable := h.max_eq ▸ writableLimit_pos h.limit_ne n
  have hnext := hall (v.maxWritable + 1) (by omega) (by omega)
  have hdrive := hnext.drive
  have hrange := hnext.range
  have hbelow := writableLimit_lt (v := v) (n := n) (by rw [← h.max_eq]; omega)
  rw [← h.max_eq] at hbelow
  -- the sectors of that cluster would make one more available cluster
  have hmore : v.maxWritable ≤ (min n (intMax / 512) - dataStart v.header) / sectorsPerCluster
      v.header := by
    rw [Nat.le_div_iff_mul_le h.spc_pos]
    rw [fat16ClusterToSector, ← h.data_eq] at hdrive hrange
    have hmul : v.maxWritable * sectorsPerCluster v.header =
        (v.maxWritable + 1 - 2) * sectorsPerCluster v.header + sectorsPerCluster v.header := by
      rw [← Nat.succ_mul]
      congr 1
      omega
    omega
  omega

/-- Write positions stay on the drive and in range.

When `fat16_prepare_write` succeeds, every cluster up to `max_writable` lies behind the data
start, inside the drive and below 2^31 bytes, no two share a sector, their FAT entries lie in
their copy before the root directory, and no position is computed with an overflow. No larger
number of the volume's clusters has this property. -/
theorem write_positions {s : FsState}
    (hfirst : s.vol.writeReady = true → ∃ n, s.dev.identify = .ok n ∧ Fitted s.vol n)
    (hok : (fat16PrepareWrite s).1 = .ok ()) {v : FatPrivate}
    (hv : (fat16PrepareWrite s).2.vol = v) :
    ∃ n, s.dev.identify = .ok n ∧
      (∀ c, 2 ≤ c → c ≤ v.maxWritable → WritableAt v n c) ∧
      (∀ c c', 2 ≤ c → c < c' →
        fat16ClusterToSector v c + sectorsPerCluster v.header ≤ fat16ClusterToSector v c') ∧
      v.maxWritable ≤ fat16ClusterLimit v ∧
      ∀ m, m ≤ fat16ClusterLimit v → (∀ c, 2 ≤ c → c ≤ m → WritableAt v n c) →
        m ≤ v.maxWritable := by
  have hspec := Prog.ends_iff.mp (prepareWrite_spec s)
  have hready := (hspec.ready hok).2
  have hvol := hspec.vol
  rw [hv] at hready hvol
  obtain ⟨n, hid, hf⟩ : ∃ n, s.dev.identify = .ok n ∧ Fitted v n := by
    rcases hvol with rfl | ⟨n, b, hid, hg, -, rfl⟩
    · exact hfirst hready
    · exact ⟨n, hid, hg, rfl⟩
  refine ⟨n, hid, fun c h2 hc => hf.writableAt h2 hc, fun c c' h2 hlt => ?_, hf.max_le,
    fun m hlimit hall => hf.largest hlimit hall⟩
  rw [fat16ClusterToSector, fat16ClusterToSector, Nat.add_assoc, ← Nat.succ_mul]
  exact Nat.add_le_add_left (Nat.mul_le_mul_right _ (by omega)) _

/-- The small volume before its first write. -/
def freshState : FsState :=
  { plainState with vol := { sampleVolume with writeReady := false, maxWritable := 0 } }

theorem write_positions_fresh : (fat16PrepareWrite freshState).1 = .ok () ∧
    (fat16PrepareWrite freshState).2.vol.maxWritable = 4165 ∧
    ∃ n, freshState.dev.identify = .ok n ∧ WritableAt (fat16PrepareWrite freshState).2.vol n
      4165 := by
  have hok : (fat16PrepareWrite freshState).1 = .ok () := by decide +kernel
  have hmax : (fat16PrepareWrite freshState).2.vol.maxWritable = 4165 := by decide +kernel
  obtain ⟨n, hid, hwritable, -⟩ := write_positions (fun h => by cases h) hok rfl
  exact ⟨hok, hmax, n, hid, hwritable 4165 (by decide) hmax.ge⟩

end Rorthox.Fat
