import Rorthox.Fs.Failure
import Rorthox.Fat.Positions

/-!
# Where a boot sector puts things

What the fields of a header mean, in natural numbers: where the FAT, the root directory and the
clusters begin. A mount and the reads after it compute the same positions in `int`, but for one
product: `fat16_sector_to_absolute` multiplies the root sector by 512 without a look at its size.
-/

namespace Rorthox.Fs

open Lib Fat Disk Memory

/-! ## The meaning of a header -/

section

variable (h img : Bytes)

def rootStart : Nat := 512 * (reservedSectors h + fatCopies h * sectorsPerFat h)

def entryStart (cluster : Nat) : Nat := 512 * reservedSectors h + 2 * cluster

def clusterSector (cluster : Nat) : Nat :=
  reservedSectors h + fatCopies h * sectorsPerFat h + (32 * rootDirEntries h + 511) / 512 +
    (cluster - 2) * sectorsPerCluster h

/-- Cluster number `k` of the chain that begins at `start`. -/
def chainCluster (start : Nat) : Nat → Nat
  | 0 => start
  | k + 1 => le16 img (entryStart h (chainCluster start k))

/-- Byte `q` of a chain. -/
def byteStart (start q : Nat) : Nat :=
  512 * clusterSector h (chainCluster h img start (q / (512 * sectorsPerCluster h))) +
    q % (512 * sectorsPerCluster h)

/-- The item stands for a directory entry: it holds the entry, or the directory it leads to. -/
def StandsFor (item : FatItem) (entry : DirItem) : Prop :=
  match item.node with
  | .file _ e => e = entry
  | .directory dir => dir.firstCluster = fat16GetFirstCluster entry

end

/-! ## The expressions of the driver -/

/-- `(h->fat_copies * h->sectors_per_fat + h->reserved_sectors) * disk->sector_size`. -/
def rootSeekExpr (h : Bytes) : IntExpr :=
  .mul (.add (.mul (.val (fatCopies h)) (.val (sectorsPerFat h))) (.val (reservedSectors h)))
    (.val sectorSize)

/-- `fat16_get_first_fat_sector(private) * disk->sector_size + cluster * 2`. -/
def entrySeekExpr (h : Bytes) (cluster : Nat) : IntExpr :=
  .add (.mul (.val (reservedSectors h)) (.val sectorSize)) (.mul (.val cluster) (.val (2 : Nat)))

/-- `directory->sector_pos * disk->sector_size + i * 32`. -/
def rootSlotExpr (v : FatPrivate) (i : Nat) : IntExpr :=
  .add (.mul (.val v.rootDirectory.sectorPos) (.val sectorSize)) (.mul (.val i) (.val (32 : Nat)))

/-- No position the driver computes for a read on the volume `v` is a product of overflow. -/
structure Exact (h : Bytes) (v : FatPrivate) : Prop where
  root : (rootSeekExpr h).Computes (rootStart h)
  entry : ∀ cluster, cluster < 2 ^ 16 → (entrySeekExpr h cluster).Computes (entryStart h cluster)
  sector : ∀ cluster, fat16ValidCluster v cluster → (clusterToSectorExpr v cluster).Computes
    (clusterSector h cluster)
  /-- Positions in clusters are formed in 64 bits and cut to an `int` when they are one. -/
  wide : ∀ cluster, fat16ValidCluster v cluster → 512 * clusterSector h cluster + 512 *
    sectorsPerCluster h < 2 ^ 64
  scan : ∀ pos, pos ≤ intMax - 32 →
    (IntExpr.mul (.val (pos / sectorSize : Nat)) (.val sectorSize)).Computes
      (pos / sectorSize * sectorSize)
  slot : ∀ i, i < rootDirEntries h → (rootSlotExpr v i).Computes (rootStart h + 32 * i)

/-- What the reading functions return in state `t` stands where the header says. -/
structure ReadsExactly (h : Bytes) (t : FsState) : Prop where
  entry : ∀ cluster n, cluster < 2 ^ 16 → (fat16GetFatEntry cluster t).1 = .ok n →
    n = le16 t.dev.image (entryStart h cluster)
  root : ∀ i item pos cursor, (directorySlot 0 i t).1 = .ok (some (item, pos, cursor)) →
    i < rootDirEntries h ∧ pos = rootStart h + 32 * i ∧ item = t.vol.rootDirectory.item i
  scan : ∀ start i item pos cursor, start ≠ 0 → (directorySlot start i t).1 =
    .ok (some (item, pos, cursor)) →
    pos = byteStart h t.dev.image start (32 * i) ∧ item = DirItem.load t.dev.image pos
  lookup : ∀ path item, (fat16GetDirectoryEntry path t).1 = .ok item →
    (∃ i, i < rootDirEntries h ∧ item.entryPos = rootStart h + 32 * i ∧
      StandsFor item (t.vol.rootDirectory.item i)) ∨
    ∃ start i, item.entryPos = byteStart h t.dev.image start (32 * i) ∧
      StandsFor item (DirItem.load t.dev.image item.entryPos)
  file : ∀ start offset total buf, (fat16ReadInternal start offset total t).1 = .ok buf →
    ∀ i, i < total → buf i = t.dev.image (byteStart h t.dev.image start (offset + i))

/-! ## A volume on its ground -/

/-- A mounted volume with this header, whose root directory ends below 2^31. -/
structure Grounded (h : Bytes) (v : FatPrivate) : Prop where
  header : v.header = h
  data : v.rootDirectory.endingSectorPos =
    reservedSectors h + fatCopies h * sectorsPerFat h + (32 * rootDirEntries h + 511) / 512
  rooted : Rooted v
  bound : rootStart h + 32 * rootDirEntries h ≤ intMax

namespace Grounded

variable {h img : Bytes} {v : FatPrivate}

section

variable (hg : Grounded h v)
include hg

theorem rootPos : v.rootDirectory.sectorPos * sectorSize = rootStart h := by
  rw [hg.rooted.pos, hg.header, rootSector, rootStart, sectorSize]
  ring

theorem toSector (c : Nat) : fat16ClusterToSector v c = clusterSector h c := by
  rw [fat16ClusterToSector, hg.data, hg.header, clusterSector]

theorem fatAt_eq (c : Nat) : fatAt v img 0 c = le16 img (entryStart h c) := by
  have hpos : fatEntryPos v 0 c = entryStart h c := by
    rw [fatEntryPos, hg.header, entryStart, sectorSize]
    ring
  rw [fatAt, hpos]

theorem link_eq (start k : Nat) : link v img start k = chainCluster h img start k := by
  induction k with
  | zero => rfl
  | succ k ih => rw [link_succ, ih, hg.fatAt_eq, chainCluster]

theorem clusterBytes_eq : clusterBytes v = 512 * sectorsPerCluster h := by
  rw [clusterBytes, hg.header, sectorSize, Nat.mul_comm]

/-- The place of byte `q` by the links of a chain. -/
theorem filePlace_eq (start q : Nat) :
    filePlace v (link v img start (q / clusterBytes v)) q = byteStart h img start q := by
  rw [filePlace, hg.toSector, hg.link_eq, hg.clusterBytes_eq, byteStart, sectorSize, Nat.mul_comm]

theorem linkedPlace_eq (start i : Nat) :
    linkedPlace v img start i = byteStart h img start (32 * i) := by
  have hdiv : 32 * i / clusterBytes v = i / slotsPerCluster v := by
    rw [← slots_bytes, Nat.mul_comm, Nat.mul_div_mul_right _ _ (by decide : 0 < 32)]
  have hmod : 32 * i % clusterBytes v = i % slotsPerCluster v * 32 := by
    rw [← slots_bytes, Nat.mul_comm 32 i, Nat.mul_mod_mul_right]
  rw [← hg.filePlace_eq, filePlace, hdiv, hmod, linkedPlace]

end

end Grounded

/-! ## Sizes -/

theorem clusterSector_lt (h : Bytes) {c : Nat} (hc : c < 2 ^ 16) :
    clusterSector h c + sectorsPerCluster h < 2 ^ 26 := by
  have hreserved : reservedSectors h < 2 ^ 16 := le16_lt _ _
  have hentries : rootDirEntries h < 2 ^ 16 := le16_lt _ _
  have hspc : sectorsPerCluster h < 2 ^ 8 := UInt8.toNat_lt _
  have hfats : fatCopies h * sectorsPerFat h ≤ 2 ^ 8 * 2 ^ 16 :=
    Nat.mul_le_mul (UInt8.toNat_lt _).le (le16_lt _ _).le
  have hahead : (c - 2) * sectorsPerCluster h ≤ 2 ^ 16 * 2 ^ 8 := Nat.mul_le_mul (by omega) hspc.le
  rw [clusterSector]
  omega

theorem rootStart_lt (h : Bytes) : fatCopies h * sectorsPerFat h + reservedSectors h < 2 ^ 31 := by
  have hreserved : reservedSectors h < 2 ^ 16 := le16_lt _ _
  have hfats : fatCopies h * sectorsPerFat h ≤ 2 ^ 8 * 2 ^ 16 :=
    Nat.mul_le_mul (UInt8.toNat_lt _).le (le16_lt _ _).le
  omega

namespace Grounded

variable {h img : Bytes} {v : FatPrivate}

theorem root_computes (hg : Grounded h v) : (rootSeekExpr h).Computes (rootStart h) := by
  have hbound := intMax_lt ((Nat.le_add_right _ _).trans hg.bound)
  have hsum := rootStart_lt h
  have hreserved : reservedSectors h < 2 ^ 16 := le16_lt _ _
  have hspf : sectorsPerFat h < 2 ^ 16 := le16_lt _ _
  have hcopies : fatCopies h < 2 ^ 8 := UInt8.toNat_lt _
  have heq : rootStart h = (fatCopies h * sectorsPerFat h + reservedSectors h) * sectorSize := by
    rw [rootStart, sectorSize]
    ring
  rw [heq] at hbound ⊢
  have hfats := (IntExpr.computes_val (n := fatCopies h) (by omega)).mul
    (IntExpr.computes_val (n := sectorsPerFat h) (by omega)) (by omega)
  have hsector := hfats.add (IntExpr.computes_val (n := reservedSectors h) (by omega)) hsum
  exact hsector.mul (IntExpr.computes_val (n := sectorSize) (by decide)) hbound

theorem slot_computes (hg : Grounded h v) {i : Nat} (hi : i < rootDirEntries h) :
    (rootSlotExpr v i).Computes (rootStart h + 32 * i) := by
  have hbound := intMax_lt hg.bound
  have hpos := hg.rootPos
  have hsector : v.rootDirectory.sectorPos < 2 ^ 31 := by
    rw [hg.rooted.pos, hg.header]
    exact rootStart_lt h
  have hstart := (IntExpr.computes_val hsector).mul (IntExpr.computes_val (n := sectorSize)
    (by decide)) (by omega)
  have hoffset := (IntExpr.computes_val (n := i) (by omega)).mul
    (IntExpr.computes_val (n := 32) (by decide)) (by omega)
  have hslot := hstart.add hoffset (by omega)
  rwa [hpos, Nat.mul_comm i] at hslot

theorem sector_computes (hg : Grounded h v) {c : Nat} (hc : fat16ValidCluster v c) :
    (clusterToSectorExpr v c).Computes (clusterSector h c) := by
  have hlt := clusterSector_lt h (valid_lt hc)
  have hclus := valid_lt hc
  have hspc : sectorsPerCluster h < 2 ^ 8 := UInt8.toNat_lt _
  rw [clusterToSectorExpr, hg.data, hg.header]
  rw [clusterSector] at hlt ⊢
  have hahead := (IntExpr.computes_val (n := c) (by omega)).sub
    (IntExpr.computes_val (n := 2) (by decide)) hc.1 (by omega)
  have hsectors := hahead.mul (IntExpr.computes_val (n := sectorsPerCluster h) (by omega))
    (by omega)
  exact (IntExpr.computes_val (by omega)).add hsectors (by omega)

theorem exact (hg : Grounded h v) : Exact h v where
  root := hg.root_computes
  entry := fun c hc => by
    have hreserved : reservedSectors h < 2 ^ 16 := le16_lt _ _
    have htable := (IntExpr.computes_val (n := reservedSectors h) (by omega)).mul
      (IntExpr.computes_val (n := sectorSize) (by decide)) (by rw [sectorSize]; omega)
    have hoffset := (IntExpr.computes_val (n := c) (by omega)).mul
      (IntExpr.computes_val (n := 2) (by decide)) (by omega)
    have hpos := htable.add hoffset (by rw [sectorSize]; omega)
    rwa [sectorSize, Nat.mul_comm _ 512, Nat.mul_comm c] at hpos
  sector := fun c hc => hg.sector_computes hc
  wide := fun c hc => by
    have hlt := clusterSector_lt h (valid_lt hc)
    omega
  scan := fun pos hpos => by
    have hle := Nat.div_mul_le_self pos sectorSize
    have hsector := Nat.div_le_self pos sectorSize
    rw [intMax] at hpos
    exact (IntExpr.computes_val (by omega)).mul (IntExpr.computes_val (n := sectorSize) (by decide))
      (by omega)
  slot := fun i hi => hg.slot_computes hi

end Grounded

/-! ## Lookup -/

variable {dir : FatDirectory} {item : FatItem} {i pos start j : Nat} {cursor : DirectoryCursor}
  {s boot s1 : FsState} {path : List (List UInt8)} {vol : FatPrivate}

section

variable {v : FatPrivate} {img : Bytes}

/-- A directory a lookup searches: the root, or one loaded for an entry. -/
inductive Searched (v : FatPrivate) (img : Bytes) : FatDirectory → Prop where
  | root : Searched v img v.rootDirectory
  | loaded {entry : DirItem} {dir : FatDirectory} (h : dirOf v img entry = .ok dir) :
    Searched v img dir

/-- An item as `fat16_find_item_in_directory` makes it. -/
structure FoundIn (v : FatPrivate) (img : Bytes) (item : FatItem) (dir : FatDirectory) (j : Nat) :
    Prop where
  searched : Searched v img dir
  lt : j < dir.total
  place : slotPosOf v img dir j = .ok item.entryPos
  made : itemOf v img .eio (dir.item j) item.entryPos = .ok item

theorem foundIn {name : List UInt8} (hdir : Searched v img dir)
    (h : findIn v img dir name dir.total 0 = .ok item) : ∃ j, FoundIn v img item dir j := by
  obtain ⟨j, -, hlt, -, -, -, hplace, hmade⟩ := findIn_ok h
  rw [Nat.zero_add] at hlt
  exact ⟨j, hdir, hlt, hplace, hmade⟩

/-- The directory of a found item was loaded for its entry. -/
theorem FoundIn.loaded {sub : FatDirectory} (h : FoundIn v img item dir j)
    (hnode : item.node = .directory sub) : dirOf v img (dir.item j) = .ok sub := by
  have hmade := h.made
  rw [itemOf] at hmade
  split at hmade
  · obtain ⟨loaded, hload, hitem⟩ := except_bind_ok.mp hmade
    rw [← Except.ok.inj hitem] at hnode
    cases hnode
    exact except_mapError_ok.mp hload
  · rw [← Except.ok.inj hmade] at hnode
    cases hnode

theorem FoundIn.standsFor (h : FoundIn v img item dir j) : StandsFor item (dir.item j) := by
  rw [StandsFor]
  split
  · rename_i addr entry hnode
    have hmade := h.made
    rw [itemOf] at hmade
    split at hmade
    · obtain ⟨loaded, -, hitem⟩ := except_bind_ok.mp hmade
      rw [← Except.ok.inj hitem] at hnode
      cases hnode
    · rw [← Except.ok.inj hmade] at hnode
      cases hnode
      rfl
  · rename_i sub hnode
    exact (dirOf_ok (h.loaded hnode)).2.1

theorem descendTo_found (path : List (List UInt8)) : ∀ {current item : FatItem},
    (∃ dir j, FoundIn v img current dir j) → descendTo v img current path = .ok item →
      ∃ dir j, FoundIn v img item dir j := by
  induction path with
  | nil =>
    intro current item hfound h
    rwa [← Except.ok.inj h]
  | cons part path ih =>
    rintro current item ⟨dir, j, hfound⟩ h
    rw [descendTo] at h
    split at h
    · cases h
    · rename_i sub hnode
      obtain ⟨next, hnext, h⟩ := except_bind_ok.mp h
      exact ih ⟨sub, foundIn (.loaded (hfound.loaded hnode)) hnext⟩ h

theorem lookup_found (h : lookup v img path = .ok item) : ∃ dir j, FoundIn v img item dir j := by
  cases path with
  | nil => cases h
  | cons part path =>
    obtain ⟨first, hfirst, h⟩ := except_bind_ok.mp h
    exact descendTo_found path ⟨_, foundIn .root hfirst⟩ h

/-- The position a lookup keeps for a slot of a loaded directory. -/
theorem slotPosOf_linked (hv : fat16ValidCluster v dir.firstCluster)
    (h : slotPosOf v img dir i = .ok pos) : pos = linkedPlace v img dir.firstCluster i := by
  rw [slotPosOf, if_pos (valid_ne_zero hv)] at h
  obtain ⟨c, hc, h⟩ := except_bind_ok.mp h
  obtain ⟨-, -, -, rfl⟩ := clusterAt_ok_iff.mp hc
  obtain ⟨-, h⟩ := except_guard_ok.mp h
  have hdiv : i * 32 / clusterBytes v = i / slotsPerCluster v := by
    rw [← slots_bytes, Nat.mul_div_mul_right _ _ (by decide : 0 < 32)]
  rw [← Except.ok.inj h, cluster_slot, hdiv, linkedPlace]

end

/-! ## Reads -/

section

variable {h : Bytes} {t : FsState}

theorem reads_entry (hg : Grounded h t.vol) {cluster n : Nat} (hc : cluster < 2 ^ 16)
    (hn : (fat16GetFatEntry cluster t).1 = .ok n) : n =
      le16 t.dev.image (entryStart h cluster) := by
  have hread := (reading_fatEntry hc).ran (s := t)
  rw [← hg.fatAt_eq]
  exact (Except.ok.inj (hread.ok_view hn)).symm

/-- A scan that starts at all starts in the root or in a cluster of the volume. -/
theorem directorySlot_valid {x : Option (DirItem × Nat × DirectoryCursor)}
    (hx : (directorySlot start i t).1 = .ok x) (h0 : start ≠ 0) :
    fat16ValidCluster t.vol start := by
  by_contra hv
  have hread := Prog.ends_iff.mp
    ((reading_directoryStart start : Reading t.vol t.dev.image 0 0 _ _ _) t rfl rfl)
  rw [if_pos ⟨h0, hv⟩] at hread
  cases hs : fat16DirectoryStart start t with
  | mk r t1 =>
    cases r with
    | error e =>
      rw [directorySlot, Prog.bind_error hs] at hx
      cases hx
    | ok cursor => cases hread.ok_view (congrArg Prod.fst hs)

theorem reads_slot {d : DirRef} (hd : d.Valid t.vol) {item : DirItem}
    (hx : (directorySlot d.start i t).1 = .ok (some (item, pos, cursor))) :
    slotOf t.vol t.dev.image d.start i = .ok (some (item, pos)) := by
  have hread : ReadsTo 0 0 (.slot t.vol t.dev.image d.start i 0)
    (stepOf t.vol t.dev.image d.start i 0) t
      (directorySlot d.start i t).1 (directorySlot d.start i t).2 :=
    Prog.ends_iff.mp (reading_directorySlot hd i t rfl rfl)
  have hslot := stepOf_some (hread.ok_view hx)
  rwa [Nat.zero_add] at hslot

section

variable (hg : Grounded h t.vol)
include hg

theorem reads_root {item : DirItem}
    (hx : (directorySlot 0 i t).1 = .ok (some (item, pos, cursor))) :
    i < rootDirEntries h ∧ pos = rootStart h + 32 * i ∧ item = t.vol.rootDirectory.item i := by
  have hslot := reads_slot (d := .root) trivial hx
  rw [DirRef.start, slotOf, if_pos rfl, hg.header, hg.rootPos] at hslot
  split at hslot
  · cases hslot
  · rename_i hi
    obtain ⟨-, hslot⟩ := except_guard_ok.mp hslot
    cases hslot
    exact ⟨Nat.not_le.mp hi, by rw [Nat.mul_comm], rfl⟩

theorem reads_scan {item : DirItem} (h0 : start ≠ 0)
    (hx : (directorySlot start i t).1 = .ok (some (item, pos, cursor))) :
    pos = byteStart h t.dev.image start (32 * i) ∧ item = DirItem.load t.dev.image pos := by
  have hv := directorySlot_valid hx h0
  obtain ⟨hat, hitem⟩ := (slotOf_sub_some_iff hv).mp (reads_slot (d := .sub start) hv hx)
  exact ⟨hat.pos_eq.trans (hg.linkedPlace_eq start i), hitem⟩

theorem reads_lookup (hx : (fat16GetDirectoryEntry path t).1 = .ok item) :
    (∃ i, i < rootDirEntries h ∧ item.entryPos = rootStart h + 32 * i ∧
      StandsFor item (t.vol.rootDirectory.item i)) ∨
    ∃ start i, item.entryPos = byteStart h t.dev.image start (32 * i) ∧
      StandsFor item (DirItem.load t.dev.image item.entryPos) := by
  have hread := Prog.ends_iff.mp
    ((reading_directoryEntry path : Reading t.vol t.dev.image 0 0 _ _ _) t rfl rfl)
  have hplain : ∀ entry, StandsFor item.plain entry → StandsFor item entry := by
    intro entry
    cases item with
    | mk addr node entryPos => cases node <;> exact id
  obtain ⟨dir, j, hfound⟩ := lookup_found (hread.ok_view hx)
  have hstands := hplain _ hfound.standsFor
  have hplace : slotPosOf t.vol t.dev.image dir j = .ok item.entryPos := hfound.place
  cases hfound.searched with
  | root =>
    have hj : j < rootDirEntries h := hg.header ▸ hfound.lt.trans_le hg.rooted.total
    refine Or.inl ⟨j, hj, ?_, hstands⟩
    have hbound := hg.bound
    have hsmall : intMax < 2 ^ 32 := by decide
    rw [slotPosOf, if_neg (not_not.mpr hg.rooted.first), hg.rootPos,
      Nat.mod_eq_of_lt (by omega)] at hplace
    rw [← Except.ok.inj hplace, Nat.mul_comm 32]
  | loaded hload =>
    obtain ⟨hv, -, hslots⟩ := dirOf_ok hload
    obtain ⟨pos, hslot⟩ := hslots j hfound.lt
    obtain ⟨hat, hitem⟩ := (slotOf_sub_some_iff hv).mp hslot
    have hpos := slotPosOf_linked hv hplace
    rw [hitem, hat.pos_eq, ← hpos] at hstands
    exact Or.inr ⟨dir.firstCluster, j, hpos.trans (hg.linkedPlace_eq _ _), hstands⟩

theorem reads_file {offset total : Nat} {buf : Bytes}
    (hx : (fat16ReadInternal start offset total t).1 = .ok buf) (hi : i < total) :
    buf i = t.dev.image (byteStart h t.dev.image start (offset + i)) := by
  have hread := Prog.ends_iff.mp
    ((reading_readInternal start offset total : Reading t.vol t.dev.image 0 0 _ _ _) t rfl rfl)
  obtain ⟨-, -, hbyte⟩ := fileByte_eq (readAt_bytes (hread.ok_view hx) hi)
  rw [← hg.filePlace_eq]
  exact hbyte

theorem Grounded.reads : ReadsExactly h t where
  entry _ _ hc hn := reads_entry hg hc hn
  root _ _ _ _ hx := reads_root hg hx
  scan _ _ _ _ _ h0 hx := reads_scan hg h0 hx
  lookup _ _ hx := reads_lookup hg hx
  file _ _ _ _ hx _ hi := reads_file hg hx hi

end

end

/-! ## Mounting -/

theorem mounted_bound {img : Bytes} (h : ReadsTo 0 0 .mount (mountOf img) s (.ok vol) s1) :
    fat16SectorToAbsolute (rootSector (headerOf img)) + rootDirEntries (headerOf img) * 32 ≤
      intMax := by
  obtain ⟨p, hp, -⟩ := except_map_ok.mp (h.ok_view rfl)
  obtain ⟨-, hp⟩ := except_guard_ok.mp hp
  split at hp
  · rename_i hfit
    exact hfit
  · cases hp

theorem rootSector_start (h : Bytes) : rootSector h * sectorSize = rootStart h := by
  rw [rootSector, rootStart, sectorSize]
  ring

/-- A started sector of root entries counts whole. -/
theorem roundUp_sectors (n : Nat) :
    n * 32 / sectorSize + (if n * 32 % sectorSize ≠ 0 then 1 else 0) = (32 * n + 511) / 512 := by
  rw [sectorSize]
  by_cases hrest : n * 32 % 512 ≠ 0
  · rw [if_pos hrest]
    omega
  · rw [if_neg hrest]
    omega

/-- A root sector whose byte position fits 32 bits is where the driver looks for it. -/
theorem mounted_grounded {img : Bytes} (h : ReadsTo 0 0 .mount (mountOf img) s (.ok vol) s1)
    (hwhen : rootStart (headerOf img) < 2 ^ 32) : Grounded (headerOf img) vol := by
  obtain ⟨hheader, hroot, -, -, -⟩ := mounted_plain h
  have hbound := mounted_bound h
  rw [fat16SectorToAbsolute, rootSector_start, Nat.mod_eq_of_lt hwhen, Nat.mul_comm] at hbound
  refine ⟨hheader, ?_, (mounted_tidy (.ok 0) h).rooted, hbound⟩
  change vol.rootDirectory.plain.endingSectorPos = _
  rw [hroot, rootOf]
  change rootSector (headerOf img) + _ = _
  rw [roundUp_sectors, rootSector, Nat.add_comm (fatCopies _ * _)]

/-- The cached root entries, by the position they are read from. -/
theorem mount_items (hmount : (fat16Resolve boot).1 = .ok ()) :
    ∀ i, i < rootDirEntries (headerOf boot.dev.image) →
      (fat16Resolve boot).2.vol.rootDirectory.item i = DirItem.load boot.dev.image
        (fat16SectorToAbsolute (rootSector (headerOf boot.dev.image)) + 32 * i) := by
  have hcourse := Prog.ends_iff.mp (fat16Resolve_spec boot)
  generalize fat16Resolve boot = p at *
  intro i hi
  cases hcourse with
  | failed _ hr =>
    rw [hmount] at hr
    cases hr
  | mounted h _ hstate =>
    rw [hstate]
    rw [mounted_items h, rootItems_load _ _ hi, Nat.mul_comm i]

theorem Later.ground {t : FsState} (h : Later s t) (hs : Sane s) :
    Sane t ∧ t.mounted = s.mounted ∧ SameGround s.vol t.vol := by
  induction h with
  | refl => exact ⟨hs, rfl, .refl _⟩
  | op _ op ih =>
    obtain ⟨hsane, hmounted, hground⟩ := ih
    have hk := op.kept hsane
    exact ⟨hk.sane hsane, hk.mounted.trans hmounted, hground.trans hk.ground⟩
  | others _ heap ih =>
    obtain ⟨hsane, hmounted, hground⟩ := ih
    exact ⟨⟨hsane.tidy, hsane.closed⟩, hmounted, hground⟩

/-- What the header of a mounted volume says about its positions: the cached root entries are those
of the root directory, and in no later state of the mount is a position formed by overflow or does
a FAT read, a scan, a lookup or a file read return anything that stands elsewhere. -/
structure MountedExactly (boot : FsState) : Prop where
  root : ∀ i, i < rootDirEntries (headerOf boot.dev.image) →
    (fat16Resolve boot).2.vol.rootDirectory.item i =
      DirItem.load boot.dev.image (rootStart (headerOf boot.dev.image) + 32 * i)
  later : ∀ t, Later (fat16Resolve boot).2 t →
    Exact (headerOf boot.dev.image) t.vol ∧ ReadsExactly (headerOf boot.dev.image) t

/-- The root sector comes out as a byte position only when that fits 32 bits. -/
theorem sectorToAbsolute_iff (h : Bytes) :
    fat16SectorToAbsolute (rootSector h) = rootStart h ↔ rootStart h < 2 ^ 32 := by
  rw [fat16SectorToAbsolute, rootSector_start]
  constructor
  · intro hwrap
    have hlt := Nat.mod_lt (rootStart h) (Nat.two_pow_pos 32)
    omega
  · exact Nat.mod_eq_of_lt

theorem Exact.small {h : Bytes} {v : FatPrivate} (he : Exact h v) : rootStart h < 2 ^ 31 := by
  obtain ⟨⟨-, -, -, hlt⟩, hvalue⟩ := he.root
  have hint : (rootStart h : Int) < 2 ^ 31 := hvalue ▸ hlt
  exact_mod_cast hint

theorem mounted_exactly (hunmounted : boot.mounted = false) (hfiles : ∀ i, boot.files i = none)
    (hmount : (fat16Resolve boot).1 = .ok ())
    (hwhen : rootStart (headerOf boot.dev.image) < 2 ^ 32) : MountedExactly boot := by
  have hsane : Sane boot :=
    ⟨fun hm => absurd (hunmounted.symm.trans hm) (by decide), fun _ => hfiles⟩
  have hcourse := Prog.ends_iff.mp (fat16Resolve_spec boot)
  have hsane' := sane_mount hcourse hsane
  have hroot := mount_items hmount
  rw [(sectorToAbsolute_iff _).mpr hwhen] at hroot
  refine ⟨hroot, fun t ht => ?_⟩
  obtain ⟨hsane'', hmounted, hground⟩ := ht.ground hsane'
  generalize fat16Resolve boot = p at *
  cases hcourse with
  | failed _ hr =>
    rw [hmount] at hr
    cases hr
  | @mounted vol s1 h _ hstate =>
    have hg := mounted_grounded h hwhen
    rw [hstate] at hmounted hground
    have hg' : Grounded (headerOf boot.dev.image) t.vol :=
      ⟨hground.header.trans hg.header, hground.data.trans hg.data,
        (hsane''.tidy hmounted).rooted, hg.bound⟩
    exact ⟨hg'.exact, hg'.reads⟩

/-- A mount caches the root entries from where `fat16_sector_to_absolute` puts the root sector. That
is where the header has it, and all positions of the mount are exact, just when the root directory
begins below 2^32. -/
theorem mount_exact (boot : FsState) (hunmounted : boot.mounted = false)
    (hfiles : ∀ i, boot.files i = none) (hmount : (fat16Resolve boot).1 = .ok ()) :
    (∀ i, i < rootDirEntries (headerOf boot.dev.image) →
      (fat16Resolve boot).2.vol.rootDirectory.item i = DirItem.load boot.dev.image
        (fat16SectorToAbsolute (rootSector (headerOf boot.dev.image)) + 32 * i)) ∧
    (fat16SectorToAbsolute (rootSector (headerOf boot.dev.image)) =
      rootStart (headerOf boot.dev.image) ↔ rootStart (headerOf boot.dev.image) < 2 ^ 32) ∧
    (MountedExactly boot ↔ rootStart (headerOf boot.dev.image) < 2 ^ 32) := by
  refine ⟨mount_items hmount, sectorToAbsolute_iff _, fun h => ?_, ?_⟩
  · -- the product in the seek argument is an `int` of that value
    have hsmall := (h.later _ .refl).1.small
    omega
  · exact mounted_exactly hunmounted hfiles hmount

/-- The entry of cluster 2 of the small volume, read after its mount. -/
theorem mount_exact_small : (fat16GetFatEntry 2 (fat16Resolve (smallBoot fun _ => .done)).2).1 =
    .ok 0xFFFF ∧
    le16 (fat16Resolve (smallBoot fun _ => .done)).2.dev.image (entryStart (headerOf smallDisk) 2) =
      0xFFFF := by
  have hread : (fat16GetFatEntry 2 (fat16Resolve (smallBoot fun _ => .done)).2).1 = .ok 0xFFFF := by
    decide +kernel
  have hmount : (fat16Resolve (smallBoot fun _ => .done)).1 = .ok () := by decide +kernel
  have hwhen : rootStart (headerOf smallDisk) < 2 ^ 32 := by decide +kernel
  have hexact := (mount_exact (smallBoot fun _ => .done) rfl (fun _ => rfl) hmount).2.2.mpr hwhen
  have hentry := (hexact.later (fat16Resolve (smallBoot fun _ => .done)).2 .refl).2.entry
  exact ⟨hread, (hentry 2 0xFFFF (by decide) hread).symm⟩

/-! ### A root sector of 2^23

128 reserved sectors and 128 FATs of 65535 sectors put the root directory at byte 2^32. The
product in `int` is 0, and the mount caches the boot sector as the root directory. -/

def wrapHeader : List (Nat × UInt8) :=
  [(0, 0xEB), (12, 2), (13, 1), (14, 128), (16, 128), (17, 16), (22, 0xFF), (23, 0xFF), (38, 0x29)]

def wrapDisk : Bytes := fun p => if p < 64 then (wrapHeader.lookup p).getD 0 else 0

def wrapBoot : FsState :=
  { smallBoot fun _ => .done with
    dev := { origin := wrapDisk, log := [], fates := fun _ => .done, calls := 0,
             identify := .ok 4200 } }

theorem mount_wraps : (fat16Resolve wrapBoot).1 = .ok () ∧ rootStart (headerOf wrapDisk) = 2 ^ 32 ∧
    ¬ ∀ i, i < rootDirEntries (headerOf wrapDisk) → (fat16Resolve wrapBoot).2.vol.rootDirectory.item
      i = DirItem.load wrapDisk (rootStart (headerOf wrapDisk) + 32 * i) := by
  refine ⟨by decide +kernel, by decide +kernel, fun hall => ?_⟩
  have hitem := hall 0 (by decide +kernel)
  have hcached : ((fat16Resolve wrapBoot).2.vol.rootDirectory.item 0).byte 0 = 0xEB := by
    decide +kernel
  rw [hitem] at hcached
  exact absurd hcached (by decide +kernel)

end Rorthox.Fs
