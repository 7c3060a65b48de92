import Rorthox.Fat.Folders
import Rorthox.Fat.DriverSpec

/-!
# Cached entries

The driver keeps the root directory and one entry per open file in memory. They stay the
entries on the disk as long as data and links are stored where no directory lies and every
entry that is stored is published.
-/

namespace Rorthox.Fat

open Lib Disk

/-- Nothing cached is stale. -/
structure Cached (a : Allotment) (v : FatPrivate) (img : Bytes) :
    Prop extends Readable a v img where
  descriptors : ∀ d ∈ v.descriptors, ∀ addr item, d.item.node = .file addr item →
    a.Holds v img d.item.entryPos item

/-! ## What depends on the header and the data area -/

variable {c copy i j k pos q : Nat} {f : Folder} {entry item : DirItem} {w : FatPrivate}
  {img : Bytes} {st : Store} {phases : List Phase}

section

variable {a : Allotment} {v w : FatPrivate} {img img' : Bytes}

theorem Linked.congr {chain : List Nat} (h : ∀ c ∈ chain, fatAt w img' copy c = fatAt v img copy c)
    (hl : Linked v img copy chain) : Linked w img' copy chain := by
  induction chain with
  | nil => trivial
  | cons c chain ih =>
    have hc := h c List.mem_cons_self
    cases chain with
    | nil =>
      change eocStart ≤ _
      rw [hc]
      exact hl
    | cons d chain =>
      refine ⟨hc.trans hl.1, ih (fun e he => h e (List.mem_cons_of_mem _ he)) hl.2⟩

variable (hh : w.header = v.header)
  (hd : w.rootDirectory.endingSectorPos = v.rootDirectory.endingSectorPos)

include hh

theorem rootFolder_congr : rootFolder w = rootFolder v := by
  unfold rootFolder
  rw [hh]

theorem fatAt_congr (img : Bytes) (copy c : Nat) : fatAt w img copy c = fatAt v img copy c := by
  unfold fatAt fatEntryPos
  rw [hh]

include hd

theorem valid_congr (c : Nat) : fat16ValidCluster w c ↔ fat16ValidCluster v c := by
  unfold fat16ValidCluster fat16ClusterLimit
  rw [hh, hd]

theorem chainFolder_congr (chain : List Nat) : chainFolder w chain = chainFolder v chain := by
  unfold chainFolder slotsPerCluster clusterBytes fat16ClusterToSector
  rw [hh, hd]

theorem Allotment.At.congr {first : Nat} (h : a.At v first f) : a.At w first f := by
  cases h with
  | root =>
    rw [← rootFolder_congr hh]
    exact .root
  | sub hc =>
    rw [← chainFolder_congr hh hd]
    exact .sub hc

theorem Allotment.Fits.congr (h : a.Fits v img) : a.Fits w img := by
  have hvalid := valid_congr hh hd
  have hfat := fatAt_congr hh img
  constructor
  · intro first chain hc
    obtain ⟨h1, h2, h3, h4, h5⟩ := h.chained first chain hc
    exact ⟨h1, h2, h3.congr fun c _ => hfat 0 c, fun c hm => (hvalid c).mpr (h4 c hm), h5⟩
  · exact h.apart
  · exact h.reserved
  · intro c hc h1 h2
    rw [hfat] at h2 ⊢
    exact h.links c hc ((hvalid c).mp h1) ((hvalid _).mp h2)
  · intro first f i hat hlive hshown hv
    exact h.entries first f i (hat.congr hh.symm hd.symm) hlive hshown ((hvalid _).mp hv)

theorem Allotment.Holds.congr (h : a.Holds v img pos entry) : a.Holds w img pos entry := by
  obtain ⟨⟨first, f, i, hat, hlive, hpos⟩, h2, h3, h4⟩ := h
  exact ⟨⟨first, f, i, hat.congr hh hd, hlive, hpos⟩, h2, h3, h4⟩

theorem Room.congr (h : Room a v img pos) : Room a w img pos := by
  obtain ⟨first, f, i, hat, hrest⟩ := h.place
  exact ⟨first, f, i, hat.congr hh hd, hrest⟩

end

/-- A volume with the same root directory, and only descriptors of open entries. -/
theorem Cached.of_root {a : Allotment} {v : FatPrivate} (h : Cached a v img)
    (hh : w.header = v.header) (hr : w.rootDirectory = v.rootDirectory)
    (hdesc : ∀ d ∈ w.descriptors, ∀ addr item, d.item.node = .file addr item →
      a.Holds v img d.item.entryPos item) : Cached a w img := by
  have hd : w.rootDirectory.endingSectorPos = v.rootDirectory.endingSectorPos := by rw [hr]
  refine ⟨⟨h.fits.congr hh hd, ?_, ?_, ?_⟩, fun d hm addr item hn =>
    (hdesc d hm addr item hn).congr hh hd⟩
  · constructor
    · rw [hr]
      exact h.rooted.first
    · rw [hr, hh]
      exact h.rooted.pos
    · rw [hr, hh]
      exact h.rooted.total
  · obtain ⟨h1, h2, h3, h4⟩ := h.cached
    constructor
    · rw [hh, hr, rootFolder_congr hh]
      exact h1
    · rw [hh, hr]
      exact h2
    · rw [hr, rootFolder_congr hh]
      exact h3
    · rw [hr, hh, rootFolder_congr hh]
      exact h4
  · rw [hh]
    exact h.bound

/-! ## Stores of data and links -/

/-- Data in a cluster of files, or the link of such a cluster to another one. -/
inductive Harmless (a : Allotment) (v : FatPrivate) : Store → Prop where
  | data {st : Store} {c : Nat} (hc : a.files c) (h2 : 2 ≤ c)
      (hlo : fat16ClusterToSector v c * sectorSize ≤ st.pos)
      (hhi : st.pos + st.len ≤ fat16ClusterToSector v c * sectorSize + clusterBytes v) :
        Harmless a v st
  | link {copy c value : Nat} (hcopy : copy ≤ 1) (hc : a.files c) (hmax : c ≤ v.maxWritable)
      (hlt : value < 2 ^ 16) (hvalue : fat16ValidCluster v value → a.files value) :
      Harmless a v (fatStore v copy c value)

section

variable {a : Allotment} {v : FatPrivate} {img : Bytes} {n : Nat}

theorem Store.apply_outside {p : Nat} (h : p < st.pos ∨ st.pos + st.len ≤ p) :
    st.apply img p = img p := memcpy_outside h

theorem Store.apply_inside (st : Store) (h : k < st.len) :
    st.apply img (st.pos + k) = st.data k := by
  change memcpy img st.pos st.data 0 st.len (st.pos + k) = _
  rw [memcpy_of_lt (Nat.le_add_right _ _) (Nat.add_lt_add_left h _), Nat.zero_add,
    Nat.add_sub_cancel_left]

/-- Every cluster has its entry before the root directory. -/
theorem Fitted.fat_end (hf : Fitted v n) (hcopy : copy ≤ 1) (hc : c ≤ fat16ClusterLimit v) :
    fatEntryPos v copy c + 2 ≤ (reservedSectors v.header + (copy + 1) * sectorsPerFat v.header) *
      sectorSize ∧ fatEntryPos v copy c + 2 ≤ rootSector v.header * sectorSize ∧
      fatEntryPos v copy c + 2 ≤ v.rootDirectory.endingSectorPos * sectorSize := by
  have h1 := (limit_cases v).resolve_left hf.limit_ne
  have h2 := hf.fats_end hcopy
  have h3 := Fitted.root_end v
  rw [hf.data_eq] at h3
  have h4 : (reservedSectors v.header + (copy + 1) * sectorsPerFat v.header) * sectorSize =
      (reservedSectors v.header + copy * sectorsPerFat v.header) * sectorSize +
        sectorsPerFat v.header * sectorSize := by ring
  have h5 : fatEntryPos v copy c + 2 ≤
      (reservedSectors v.header + (copy + 1) * sectorsPerFat v.header) * sectorSize := by
    unfold fatEntryPos
    omega
  refine ⟨h5, ?_, by omega⟩
  rw [rootSector, Nat.add_comm (fatCopies v.header * sectorsPerFat v.header)]
  exact h5.trans h2

/-- Directories have valid clusters, each its own. -/
structure Allotment.Distinct (a : Allotment) (v : FatPrivate) : Prop where
  valid : ∀ first chain, a.chain first = some chain → ∀ c ∈ chain, fat16ValidCluster v c
  nodup : ∀ first chain, a.chain first = some chain → chain.Nodup
  apart : ∀ first first' chain chain' c, a.chain first = some chain → a.chain first' = some chain' →
    c ∈ chain → c ∈ chain' → first = first'

theorem Allotment.Fits.distinct (h : a.Fits v img) : a.Distinct v :=
  ⟨fun first chain hc => (h.chained first chain hc).valid, fun first chain hc =>
    (h.chained first chain hc).nodup, h.apart⟩

/-- A slot of a directory lies behind the FATs, in no cluster outside the directories. -/
theorem Allotment.Distinct.slot_apart (h : a.Distinct v) (hf : Fitted v n) {first : Nat}
    (hat : a.At v first f) (hi : i < f.count) : rootSector v.header * sectorSize ≤ f.place i ∧
      ∀ c, (∀ first chain, a.chain first = some chain → c ∉ chain) → 2 ≤ c →
        f.place i + 32 ≤ fat16ClusterToSector v c * sectorSize ∨
          fat16ClusterToSector v c * sectorSize + clusterBytes v ≤ f.place i := by
  cases hat with
  | root =>
    refine ⟨Nat.le_add_right _ _, fun c _ _ => Or.inl ?_⟩
    exact (rootFolder_end hf.accepted hi).trans (cluster_start v c)
  | @sub first chain hc =>
    obtain ⟨d, hd, hlo, hhi⟩ := chainFolder_place hi
    have hstart := cluster_start v d
    constructor
    · have h1 := Fitted.root_end v
      rw [hf.data_eq] at h1
      rw [rootSector, Nat.add_comm (fatCopies v.header * sectorsPerFat v.header)]
      omega
    · intro c hout h2
      by_contra hno
      -- a byte in both clusters
      have hsame : c = d := by
        apply InCluster.unique (v := v)
          (p := max ((chainFolder v chain).place i) (fat16ClusterToSector v c * sectorSize))
        · constructor <;> omega
        · constructor <;> omega
        · exact h2
        · exact (h.valid _ _ hc d hd).1
      exact hout _ _ hc (hsame ▸ hd)

theorem Harmless.slot (hst : Harmless a v st) (h : a.Fits v img) (hf : Fitted v n) {first p : Nat}
    (hat : a.At v first f) (hi : i < f.count) (h1 : f.place i ≤ p) (h2 : p < f.place i + 32) :
    st.apply img p = img p := by
  obtain ⟨hlo, hapart⟩ := h.distinct.slot_apart hf hat hi
  apply Store.apply_outside
  cases hst with
  | data hc hc2 hpos hend =>
    rcases hapart _ (fun _ _ hch hm => h.reserved _ _ _ hch hm hc) hc2 with hb | hb
    · exact Or.inl (by omega)
    · exact Or.inr (by omega)
  | link hcopy hc hmax =>
    have hfat := (hf.fat_end hcopy (hmax.trans hf.max_le)).2.1
    exact Or.inr (by change fatEntryPos v _ _ + 2 ≤ p; omega)

theorem Harmless.load (hst : Harmless a v st) (h : a.Fits v img) (hf : Fitted v n) {first : Nat}
    (hat : a.At v first f) (hi : i < f.count) :
    DirItem.load (st.apply img) (f.place i) = DirItem.load img (f.place i) := by
  funext k
  exact hst.slot h hf hat hi (Nat.le_add_right _ _) (Nat.add_lt_add_left k.isLt _)

theorem Harmless.first (hst : Harmless a v st) (h : a.Fits v img) (hf : Fitted v n) {first : Nat}
    (hat : a.At v first f) (hi : i < f.count) : st.apply img (f.place i) = img (f.place i) :=
  hst.slot h hf hat hi le_rfl (by omega)

theorem fatStore_fatAt {value : Nat} (hlt : value < 2 ^ 16) :
    fatAt v ((fatStore v copy c value).apply img) copy c = value := by
  have hin : ∀ k, k < 2 → (fatStore v copy c value).apply img (fatEntryPos v copy c + k) =
      ofList (enc16 value) k := fun k hk => (fatStore v copy c value).apply_inside hk
  have h0 := hin 0 (by decide)
  have h1 := hin 1 (by decide)
  rw [Nat.add_zero] at h0
  unfold fatAt
  exact le16_enc16 (h0.trans rfl) (h1.trans rfl) hlt

theorem fatAt_outside (h : fatEntryPos v k c + 2 ≤ st.pos ∨ st.pos + st.len ≤ fatEntryPos v k c) :
    fatAt v (st.apply img) k c = fatAt v img k c := by
  apply le16_congr
  · exact Store.apply_outside (by omega)
  · exact Store.apply_outside (by omega)

/-- Different entries of the FATs do not overlap. -/
theorem fatEntry_apart (hf : Fitted v n) {d : Nat} (hcopy : copy ≤ 1) (hd : d ≤ fat16ClusterLimit v)
    (hk : k ≤ 1) (hc : c ≤ fat16ClusterLimit v) (hne : ¬ (copy = k ∧ d = c)) :
    fatEntryPos v k c + 2 ≤ fatEntryPos v copy d ∨ fatEntryPos v copy d + 2 ≤
      fatEntryPos v k c := by
  have h1 := (hf.fat_end hk hc).1
  have h2 := (hf.fat_end hcopy hd).1
  have hlater : ∀ {x y : Nat}, x < y → ∀ e,
      (reservedSectors v.header + (x + 1) * sectorsPerFat v.header) * sectorSize ≤
        fatEntryPos v y e := by
    intro x y hxy e
    exact (Nat.mul_le_mul_right _ (Nat.add_le_add_left (Nat.mul_le_mul_right _ hxy) _)).trans
      (Nat.le_add_right _ _)
  rcases Nat.lt_trichotomy k copy with hlt | rfl | hlt
  · exact Or.inl (h1.trans (hlater hlt d))
  · unfold fatEntryPos
    omega
  · exact Or.inr (h2.trans (hlater hlt c))

theorem fatAt_store_ne (hf : Fitted v n) {d : Nat} (hcopy : copy ≤ 1) (hd : d ≤ fat16ClusterLimit v)
    (hk : k ≤ 1) (hc : c ≤ fat16ClusterLimit v) (hne : ¬ (copy = k ∧ d = c)) (value : Nat) :
    fatAt v ((fatStore v copy d value).apply img) k c = fatAt v img k c :=
  fatAt_outside (fatEntry_apart hf hcopy hd hk hc hne)

/-- A harmless store leaves the first FAT alone or links a cluster of files. -/
theorem Harmless.fat (hst : Harmless a v st) (img : Bytes) (hf : Fitted v n)
    (hc : fat16ValidCluster v c) : fatAt v (st.apply img) 0 c = fatAt v img 0 c ∨
      (a.files c ∧ (fat16ValidCluster v (fatAt v (st.apply img) 0 c) →
        a.files (fatAt v (st.apply img) 0 c))) := by
  cases hst with
  | @data st d hd h2 hlo hhi =>
    left
    apply fatAt_outside
    have h1 := (hf.fat_end (Nat.zero_le 1) hc.2.1).2.2
    have h3 := cluster_start v d
    exact Or.inl (by omega)
  | @link copy d value hcopy hd hmax hlt hvalue =>
    by_cases hsame : copy = 0 ∧ d = c
    · right
      obtain ⟨rfl, rfl⟩ := hsame
      rw [fatStore_fatAt hlt]
      exact ⟨hd, hvalue⟩
    · exact Or.inl (fatAt_store_ne hf hcopy (hmax.trans hf.max_le) (Nat.zero_le 1) hc.2.1
        hsame value)

theorem Folder.Live.congr {img' : Bytes} (h : ∀ j, j < f.count → img' (f.place j) = img (f.place j))
    (hl : f.Live img i) : f.Live img' i := by
  refine ⟨hl.lt, fun j hj => ?_⟩
  rw [h j (hj.trans_lt hl.lt)]
  exact hl.used j hj

theorem Allotment.Fits.harmless (h : a.Fits v img) (hf : Fitted v n) (hst : Harmless a v st) :
    a.Fits v (st.apply img) := by
  constructor
  · intro first chain hc
    obtain ⟨h1, h2, h3, h4, h5⟩ := h.chained first chain hc
    refine ⟨h1, h2, h3.congr fun c hm => ?_, h4, h5⟩
    rcases hst.fat img hf (h4 c hm) with he | ⟨hfile, -⟩
    · exact he
    · exact absurd hfile (h.reserved first chain c hc hm)
  · exact h.apart
  · exact h.reserved
  · intro c hc hv hv'
    rcases hst.fat img hf hv with he | ⟨-, hnew⟩
    · rw [he] at hv' ⊢
      exact h.links c hc hv hv'
    · exact hnew hv'
  · intro first f i hat hlive
    have hold : f.Live img i := hlive.congr fun j hj => (hst.first h hf hat hj).symm
    rw [hst.load h hf hat hlive.lt]
    exact h.entries first f i hat hold

theorem Allotment.Holds.harmless (hh : a.Holds v img pos entry) (h : a.Fits v img) (hf : Fitted v n)
    (hst : Harmless a v st) : a.Holds v (st.apply img) pos entry := by
  obtain ⟨⟨first, f, i, hat, hlive, rfl⟩, h2, h3, h4⟩ := hh
  refine ⟨⟨first, f, i, hat, hlive.congr fun j hj => hst.first h hf hat hj, rfl⟩, ?_, h3, h4⟩
  rw [hst.load h hf hat hlive.lt]
  exact h2

theorem Cached.harmless (h : Cached a v img) (hf : Fitted v n) (hst : Harmless a v st) :
    Cached a v (st.apply img) := by
  have hfirst : ∀ i, i < rootDirEntries v.header →
      st.apply img ((rootFolder v).place i) = img ((rootFolder v).place i) := fun i hi =>
    hst.first (f := rootFolder v) h.fits hf .root hi
  refine ⟨⟨h.fits.harmless hf hst, h.rooted, ?_, h.bound⟩, fun d hd addr item hn =>
    (h.descriptors d hd addr item hn).harmless h.fits hf hst⟩
  constructor
  · intro i hi
    rw [h.cached.item i hi]
    exact (hst.load (f := rootFolder v) h.fits hf .root hi).symm
  · exact h.cached.total_le
  · intro i hi
    rw [hfirst i (hi.trans_le h.cached.total_le)]
    exact h.cached.used i hi
  · intro hlt
    rw [hfirst _ hlt]
    exact h.cached.free hlt

theorem Cached.harmless_all (hf : Fitted v n) (stores : List Store) : ∀ {img : Bytes},
    Cached a v img → (∀ st ∈ stores, Harmless a v st) → Cached a v (applyStores stores img) := by
  induction stores with
  | nil => intro img h _; exact h
  | cons st stores ih =>
    intro img h hst
    exact ih (h.harmless hf (hst st List.mem_cons_self)) fun s hs =>
      hst s (List.mem_cons_of_mem _ hs)

/-- Harmless stores do not change what directories hold. -/
theorem Allotment.Fits.harmless_all (hf : Fitted v n) (stores : List Store) : ∀ {img : Bytes},
    a.Fits v img → (∀ st ∈ stores, Harmless a v st) →
      a.Fits v (applyStores stores img) ∧
        ∀ pos entry, a.Holds v img pos entry → a.Holds v (applyStores stores img) pos entry := by
  induction stores with
  | nil => intro img h _; exact ⟨h, fun _ _ hh => hh⟩
  | cons st stores ih =>
    intro img h hst
    have hhere := hst st List.mem_cons_self
    obtain ⟨h1, h2⟩ := ih (h.harmless hf hhere) fun s hs => hst s (List.mem_cons_of_mem _ hs)
    exact ⟨h1, fun pos entry hh => h2 pos entry (hh.harmless h hf hhere)⟩

/-! ## Stores of entries -/

/-- A file entry that may go to `pos`. -/
structure Commits (a : Allotment) (v : FatPrivate) (img : Bytes) (pos : Nat) (item : DirItem) :
    Prop where
  room : Room a v img pos
  used : item.byte 0 ≠ 0
  shown : ¬ Skipped item
  file : item.attrib &&& fileSubdirectory = 0
  first : fat16ValidCluster v item.lowFirstCluster → a.files item.lowFirstCluster

theorem Room.aligned (h : Room a v img pos) : pos % 32 = 0 := by
  obtain ⟨first, f, i, hat, -, rfl, -⟩ := h.place
  exact hat.aligned i

theorem entryStore_load (item : DirItem) (pos : Nat) :
    DirItem.load ((entryStore pos item).apply img) pos = item := by
  funext k
  exact ((entryStore pos item).apply_inside k.isLt).trans (DirItem.byte_of_lt item k.isLt)

theorem entryStore_first (item : DirItem) (pos : Nat) :
    (entryStore pos item).apply img pos = item.byte 0 :=
  (entryStore pos item).apply_inside (k := 0) (by decide : 0 < 32)

theorem entryStore_other (hp : pos % 32 = 0) (hq : q % 32 = 0) (hne : q ≠ pos) (hk : k < 32) :
    (entryStore pos item).apply img (q + k) = img (q + k) := by
  apply Store.apply_outside
  change q + k < pos ∨ pos + 32 ≤ q + k
  omega

theorem entryStore_load_other (hp : pos % 32 = 0) (hq : q % 32 = 0) (hne : q ≠ pos) :
    DirItem.load ((entryStore pos item).apply img) q = DirItem.load img q := by
  funext k
  exact entryStore_other hp hq hne k.isLt

theorem entryStore_first_other (hp : pos % 32 = 0) (hq : q % 32 = 0) (hne : q ≠ pos) :
    (entryStore pos item).apply img q = img q :=
  entryStore_other hp hq hne (k := 0) (by decide)

/-- A place belongs to one directory. -/
theorem Allotment.Distinct.same_folder (h : a.Distinct v) (hf : Fitted v n) {first first' : Nat}
    {f' : Folder} (hat : a.At v first f) (hat' : a.At v first' f') (hi : i < f.count)
    (hj : j < f'.count) (he : f.place i = f'.place j) : f = f' := by
  cases hat with
  | root =>
    cases hat' with
    | root => rfl
    | sub hc =>
      obtain ⟨c, -, hlo, -⟩ := chainFolder_place hj
      have h1 := rootFolder_end hf.accepted hi
      have h2 := cluster_start v c
      omega
  | sub hc =>
    cases hat' with
    | root =>
      obtain ⟨c, -, hlo, -⟩ := chainFolder_place hi
      have h1 := rootFolder_end hf.accepted hj
      have h2 := cluster_start v c
      omega
    | sub hc' =>
      obtain ⟨c, hmem, hmem'⟩ := chainFolder_meet (h.valid _ _ hc) (h.valid _ _ hc') hi hj he
      have hfirst := h.apart _ _ _ _ c hc hc' hmem hmem'
      rw [hfirst, hc'] at hc
      rw [Option.some.inj hc]

/-- Different slots have different places. -/
theorem Allotment.Distinct.place_inj (h : a.Distinct v) {first : Nat} (hat : a.At v first f)
    (hi : i < f.count) (hj : j < f.count) (he : f.place i = f.place j) : i = j := by
  cases hat with
  | root => exact rootFolder_inj he
  | sub hc => exact chainFolder_inj (h.valid _ _ hc) (h.nodup _ _ hc) hi hj he

theorem Room.fat (hr : Room a v img pos) (item : DirItem) (h : a.Distinct v) (hf : Fitted v n)
    (hk : k ≤ 1) (hv : fat16ValidCluster v c) :
    fatAt v ((entryStore pos item).apply img) k c = fatAt v img k c := by
  obtain ⟨first, f, i, hat, hi, rfl, -⟩ := hr.place
  apply fatAt_outside
  have h1 := (h.slot_apart hf hat hi).1
  have h2 := (hf.fat_end hk hv.2.1).2.1
  exact Or.inl (h2.trans h1)

/-- The slots in use after the store are those before it and the one stored. -/
theorem Room.live (hr : Room a v img pos) (h : a.Distinct v) (hf : Fitted v n) {first : Nat}
    (hat : a.At v first f) (hl : f.Live ((entryStore pos item).apply img) j) :
    f.Live img j ∨ f.place j = pos := by
  have hp := hr.aligned
  obtain ⟨first', g, i, hat', hi, rfl, hbefore, hend⟩ := hr.place
  by_cases hpos : f.place j = g.place i
  · exact Or.inr hpos
  have hold : ∀ k, k ≤ j → f.place k ≠ g.place i → img (f.place k) ≠ 0 := by
    intro k hk hne
    have h1 := hl.used k hk
    rwa [entryStore_first_other hp (hat.aligned k) hne] at h1
  by_cases hin : ∃ k, k ≤ j ∧ f.place k = g.place i
  · obtain ⟨k, hk, hplace⟩ := hin
    have hkc : k < f.count := hk.trans_lt hl.lt
    obtain rfl := h.same_folder hf hat hat' hkc hi hplace
    obtain rfl := h.place_inj hat hkc hi hplace
    have hkj : k < j := lt_of_le_of_ne hk fun he => hpos (he ▸ hplace)
    rcases hend with hused | hlast | hzero
    · refine Or.inl ⟨hl.lt, fun m hm => ?_⟩
      by_cases hmk : f.place m = f.place k
      · rw [hmk]
        exact hused
      · exact hold m hm hmk
    · have := hl.lt
      omega
    · have hlt : k + 1 < f.count := by
        have := hl.lt
        omega
      have hne : f.place (k + 1) ≠ f.place k := fun he =>
        absurd (h.place_inj hat hlt hkc he) (by omega)
      exact absurd hzero (hold (k + 1) hkj hne)
  · exact Or.inl ⟨hl.lt, fun k hk => hold k hk fun he => hin ⟨k, hk, he⟩⟩

section

variable (hc : Commits a v img pos item)
include hc

theorem Commits.fits (h : a.Fits v img) (hf : Fitted v n) :
    a.Fits v ((entryStore pos item).apply img) := by
  constructor
  · intro first chain hchain
    obtain ⟨h1, h2, h3, h4, h5⟩ := h.chained first chain hchain
    exact ⟨h1, h2, h3.congr fun c hm => hc.room.fat item h.distinct hf (Nat.zero_le 1) (h4 c hm),
      h4, h5⟩
  · exact h.apart
  · exact h.reserved
  · intro c hfile hv hv'
    rw [hc.room.fat item h.distinct hf (Nat.zero_le 1) hv] at hv' ⊢
    exact h.links c hfile hv hv'
  · intro first f i hat hlive
    by_cases hpos : f.place i = pos
    · rw [hpos, entryStore_load]
      intro _ hv
      rw [if_neg (not_not.mpr hc.file)]
      exact hc.first hv
    · rw [entryStore_load_other hc.room.aligned (hat.aligned i) hpos]
      exact h.entries first f i hat ((hc.room.live h.distinct hf hat hlive).resolve_right hpos)

/-- What was in use stays in use. -/
theorem Commits.keeps {first : Nat} (hat : a.At v first f) (hl : f.Live img i) :
    f.Live ((entryStore pos item).apply img) i := by
  refine ⟨hl.lt, fun j hj => ?_⟩
  by_cases hpos : f.place j = pos
  · rw [hpos, entryStore_first]
    exact hc.used
  · rw [entryStore_first_other hc.room.aligned (hat.aligned j) hpos]
    exact hl.used j hj

/-- The stored entry is held, and so is every other one as before. -/
theorem Commits.stored : a.Holds v ((entryStore pos item).apply img) pos item := by
  refine ⟨?_, (entryStore_load item pos).symm, hc.shown, hc.file⟩
  have hp := hc.room.aligned
  obtain ⟨first, f, i, hat, hi, hpos, hbefore, -⟩ := hc.room.place
  refine ⟨first, f, i, hat, ⟨hi, fun j hj => ?_⟩, hpos⟩
  by_cases hj' : f.place j = pos
  · rw [hj', entryStore_first]
    exact hc.used
  · rw [entryStore_first_other hp (hat.aligned j) hj']
    exact hbefore j (lt_of_le_of_ne hj fun he => hj' (by rw [he, hpos]))

theorem Commits.others (hq : q ≠ pos) (h : a.Holds v img q entry) :
    a.Holds v ((entryStore pos item).apply img) q entry := by
  obtain ⟨⟨first, f, i, hat, hlive, rfl⟩, h2, h3, h4⟩ := h
  refine ⟨⟨first, f, i, hat, hc.keeps hat hlive, rfl⟩, ?_, h3, h4⟩
  rw [entryStore_load_other hc.room.aligned (hat.aligned i) hq]
  exact h2

end

/-! ## Publishing -/

/-- What publishing does to the root directory when the entry is in it. -/
theorem publishRoot_in (hr : Rooted v) (hi : i < (rootFolder v).count) (item : DirItem) :
    (publishRoot ((rootFolder v).place i) item v).rootDirectory =
      { v.rootDirectory with
        item := Function.update v.rootDirectory.item i item
        total := if v.rootDirectory.total ≤ i then i + 1 else v.rootDirectory.total } := by
  change i < rootDirEntries v.header at hi
  have hoff : (rootFolder v).place i - v.rootDirectory.sectorPos * sectorSize = i * 32 := by
    rw [hr.pos]
    exact Nat.add_sub_cancel_left _ _
  have hle : v.rootDirectory.sectorPos * sectorSize ≤ (rootFolder v).place i := by
    rw [hr.pos]
    exact Nat.le_add_right _ _
  unfold publishRoot
  dsimp only
  rw [hoff, if_pos ⟨hle, by omega, by omega⟩, Nat.mul_div_cancel i (by decide)]

theorem publishRoot_out (hr : Rooted v) (hp : pos % 32 = 0)
    (h : ∀ i, i < (rootFolder v).count → (rootFolder v).place i ≠ pos) (item : DirItem) :
    publishRoot pos item v = v := by
  refine if_neg fun hin => ?_
  rw [hr.pos] at hin
  obtain ⟨h1, h2, h3⟩ := hin
  refine h ((pos - rootSector v.header * sectorSize) / 32) ?_ ?_
  · change _ < rootDirEntries v.header
    omega
  · change rootSector v.header * sectorSize + _ * 32 = pos
    omega

theorem publish_root (pos : Nat) (item : DirItem) (v : FatPrivate) :
    (fat16Publish pos item v).rootDirectory = (publishRoot pos item v).rootDirectory := rfl

theorem publishRoot_same (pos : Nat) (item : DirItem) (v : FatPrivate) :
    (publishRoot pos item v).header = v.header ∧
      (publishRoot pos item v).rootDirectory.endingSectorPos = v.rootDirectory.endingSectorPos ∧
      (publishRoot pos item v).rootDirectory.sectorPos = v.rootDirectory.sectorPos ∧
      (publishRoot pos item v).rootDirectory.firstCluster = v.rootDirectory.firstCluster ∧
      (publishRoot pos item v).descriptors = v.descriptors := by
  unfold publishRoot
  dsimp only
  split <;> exact ⟨rfl, rfl, rfl, rfl, rfl⟩

/-- Every cached slot of the root directory is the one on the disk. -/
def RootItems (v : FatPrivate) (img : Bytes) : Prop := ∀ i, i < rootDirEntries v.header →
  v.rootDirectory.item i = DirItem.load img ((rootFolder v).place i)

theorem RootItems.publish (h : RootItems v img) (hr : Rooted v) (hp : pos % 32 = 0) :
    RootItems (fat16Publish pos item v) ((entryStore pos item).apply img) := by
  have hhead : (fat16Publish pos item v).header = v.header := (publishRoot_same pos item v).1
  intro j hj
  rw [hhead] at hj
  rw [rootFolder_congr hhead]
  by_cases hin : ∃ i, i < (rootFolder v).count ∧ (rootFolder v).place i = pos
  · obtain ⟨i, hi, hpos⟩ := hin
    have hroot := publishRoot_in hr hi item
    rw [hpos, ← publish_root] at hroot
    have hitems : (fat16Publish pos item v).rootDirectory.item =
        Function.update v.rootDirectory.item i item := by rw [hroot]
    rw [hitems]
    by_cases hji : j = i
    · rw [hji, Function.update_self, hpos, entryStore_load]
    · rw [Function.update_of_ne hji, h j hj]
      refine (entryStore_load_other hp (rootFolder_aligned v j) fun he => ?_).symm
      exact hji (rootFolder_inj (he.trans hpos.symm))
  · rw [publish_root, publishRoot_out hr hp (fun i hi he => hin ⟨i, hi, he⟩), h j hj]
    exact (entryStore_load_other hp (rootFolder_aligned v j) fun he => hin ⟨j, hj, he⟩).symm

/-- A used entry stored in a slot of the root that lies before the end mark, or on it with none
or a free slot behind, is cached with the rest. -/
theorem RootCached.publish (h : RootCached v img) (hr : Rooted v) (hp : pos % 32 = 0)
    (hitem0 : item.byte 0 ≠ 0)
    (hroom : ∀ i, i < (rootFolder v).count → (rootFolder v).place i = pos →
      (∀ j, j < i → img ((rootFolder v).place j) ≠ 0) ∧
        (img pos ≠ 0 ∨ i + 1 = (rootFolder v).count ∨ img ((rootFolder v).place (i + 1)) = 0)) :
    RootCached (fat16Publish pos item v) ((entryStore pos item).apply img) := by
  have hhead : (fat16Publish pos item v).header = v.header := (publishRoot_same pos item v).1
  have hfold : rootFolder (fat16Publish pos item v) = rootFolder v := rootFolder_congr hhead
  obtain ⟨hitem, htotal, hused, hfree⟩ := h
  have hnew : RootItems (fat16Publish pos item v) _ := RootItems.publish hitem hr hp
  have hother : ∀ j, (rootFolder v).place j ≠ pos →
      (entryStore pos item).apply img ((rootFolder v).place j) = img ((rootFolder v).place j) :=
        fun j hj =>
    entryStore_first_other hp (rootFolder_aligned v j) hj
  by_cases hin : ∃ i, i < (rootFolder v).count ∧ (rootFolder v).place i = pos
  · obtain ⟨i, hi, hpos⟩ := hin
    have hroot := publishRoot_in hr hi item
    rw [hpos, ← publish_root] at hroot
    have htot : (fat16Publish pos item v).rootDirectory.total =
        if v.rootDirectory.total ≤ i then i + 1 else v.rootDirectory.total := by rw [hroot]
    have hne : ∀ j, j ≠ i → (rootFolder v).place j ≠ pos := fun j hj he =>
      hj (rootFolder_inj (he.trans hpos.symm))
    -- where the slot lies against the end mark
    have hplace := hroom i hi hpos
    have hi' : i < rootDirEntries v.header := hi
    have hle : i ≤ v.rootDirectory.total := by
      by_contra hlt
      exact hplace.1 _ (by omega) (hfree (by omega))
    refine ⟨hnew, ?_, ?_, ?_⟩
    · rw [htot, hhead]
      split <;> omega
    · intro j hj
      rw [htot] at hj
      rw [hfold]
      by_cases hji : j = i
      · rw [hji, hpos, entryStore_first]
        exact hitem0
      · rw [hother j (hne j hji)]
        apply hused
        split at hj <;> omega
    · intro hlt
      rw [htot, hhead] at hlt
      rw [hfold, htot]
      by_cases hcase : v.rootDirectory.total ≤ i
      · rw [if_pos hcase] at hlt ⊢
        rw [hother _ (hne _ (by omega))]
        have heq : v.rootDirectory.total = i := by omega
        rcases hplace.2 with hu | hlast | hzero
        · rw [← hpos, ← heq] at hu
          exact absurd (hfree (by omega)) hu
        · exact absurd hlast (Nat.ne_of_lt hlt)
        · exact hzero
      · rw [if_neg hcase] at hlt ⊢
        rw [hother _ (hne _ (by omega))]
        exact hfree hlt
  · have hout : publishRoot pos item v = v := publishRoot_out hr hp
      (fun i hi he => hin ⟨i, hi, he⟩) item
    have hroot : (fat16Publish pos item v).rootDirectory = v.rootDirectory := by
      rw [publish_root, hout]
    have hne : ∀ j, j < rootDirEntries v.header → (rootFolder v).place j ≠ pos := fun j hj he =>
      hin ⟨j, hj, he⟩
    refine ⟨hnew, ?_, ?_, ?_⟩
    · rw [hroot, hhead]
      exact htotal
    · intro j hj
      rw [hroot] at hj
      rw [hfold, hother j (hne j (hj.trans_le htotal))]
      exact hused j hj
    · intro hlt
      rw [hroot, hhead] at hlt
      rw [hfold, hroot, hother _ (hne _ hlt)]
      exact hfree hlt

theorem Commits.root (hc : Commits a v img pos item) (h : Cached a v img) (hf : Fitted v n) :
    RootCached (fat16Publish pos item v) ((entryStore pos item).apply img) := by
  refine h.cached.publish h.rooted hc.room.aligned hc.used fun i hi hpos => ?_
  obtain ⟨first, f, k, hat, hk, hpos', hbefore, hend⟩ := hc.room.place
  obtain rfl := h.fits.distinct.same_folder hf (Allotment.At.root (a := a)) hat hi hk
    (hpos.trans hpos')
  obtain rfl := rootFolder_inj (hpos.trans hpos')
  exact ⟨hbefore, hend⟩

theorem publishDescriptor_file {d : FatFileDescriptor} {addr : Nat}
    (h : (publishDescriptor pos item d).item.node = .file addr entry) :
    (publishDescriptor pos item d).item.entryPos = d.item.entryPos ∧
      ((d.item.entryPos = pos ∧ entry = item) ∨
        (d.item.entryPos ≠ pos ∧ d.item.node = .file addr entry)) := by
  unfold publishDescriptor at h ⊢
  cases hnode : d.item.node with
  | directory dir =>
    simp only [hnode] at h
    cases h
  | file addr' entry' =>
    simp only [hnode] at h
    dsimp only
    by_cases hpos : d.item.entryPos = pos
    · rw [if_pos hpos] at h ⊢
      cases h
      exact ⟨rfl, Or.inl ⟨hpos, rfl⟩⟩
    · rw [if_neg hpos] at h ⊢
      rw [hnode] at h
      exact ⟨rfl, Or.inr ⟨hpos, h⟩⟩

/-- Storing an entry and publishing it keeps the caches in step with the disk. -/
theorem Cached.commit (h : Cached a v img) (hf : Fitted v n) (hc : Commits a v img pos item) :
    Cached a (fat16Publish pos item v) ((entryStore pos item).apply img) := by
  obtain ⟨hhead, hdata, hsector, hfirst, hdesc⟩ := publishRoot_same pos item v
  have hhead' : (fat16Publish pos item v).header = v.header := hhead
  have hdata' : (fat16Publish pos item v).rootDirectory.endingSectorPos =
      v.rootDirectory.endingSectorPos := hdata
  have hroot := hc.root h hf
  refine ⟨⟨(hc.fits h.fits hf).congr hhead' hdata', ?_, hroot, ?_⟩, ?_⟩
  · constructor
    · exact hfirst.trans h.rooted.first
    · rw [hhead']
      exact hsector.trans h.rooted.pos
    · exact hroot.total_le
  · rw [hhead']
    exact h.bound
  · intro d hd addr entry hn
    obtain ⟨d', hd', rfl⟩ := List.mem_map.mp hd
    obtain ⟨hpos, hcase⟩ := publishDescriptor_file hn
    rw [hpos]
    refine Allotment.Holds.congr hhead' hdata' ?_
    rcases hcase with ⟨he, rfl⟩ | ⟨hne, hn'⟩
    · rw [he]
      exact hc.stored
    · exact hc.others hne (h.descriptors d' (hdesc ▸ hd') addr entry hn')

end

/-! ## Phases -/

/-- Phases that keep the caches in step, on a disk with the content `img`. -/
inductive Fine (a : Allotment) (v : FatPrivate) : Bytes → List Phase → Prop where
  | nil {img : Bytes} : Fine a v img []
  | plain {img : Bytes} {stores : List Store} {phases : List Phase}
      (hst : ∀ st ∈ stores, Harmless a v st) (h : Fine a v (applyStores stores img) phases) :
      Fine a v img (.plain stores :: phases)
  | commit {img : Bytes} {pos : Nat} {item : DirItem} {phases : List Phase}
      (hc : Commits a v img pos item) (h : Fine a v ((entryStore pos item).apply img) phases) :
      Fine a v img (commitPhase pos item :: phases)

/-- Phases of harmless stores. -/
def Unseen (a : Allotment) (v : FatPrivate) (phases : List Phase) : Prop :=
  ∀ ph ∈ phases, ∃ stores, ph = .plain stores ∧ ∀ st ∈ stores, Harmless a v st

section

variable {a : Allotment} {v : FatPrivate} {n : Nat}

theorem Unseen.fine (rest : List Phase) : ∀ (img : Bytes), Unseen a v phases →
    Fine a v (applyPhases phases img) rest → Fine a v img (phases ++ rest) := by
  induction phases with
  | nil => intro img _ h; exact h
  | cons ph phases ih =>
    intro img hu h
    obtain ⟨stores, rfl, hst⟩ := hu ph List.mem_cons_self
    exact .plain hst (ih _ (fun p hp => hu p (List.mem_cons_of_mem _ hp)) h)

theorem Unseen.holds (hf : Fitted v n) : ∀ {img : Bytes}, Unseen a v phases →
    a.Fits v img → ∀ pos entry, a.Holds v img pos entry →
      a.Holds v (applyPhases phases img) pos entry := by
  induction phases with
  | nil => intro img _ _ pos entry hh; exact hh
  | cons ph phases ih =>
    intro img hu h pos entry hh
    obtain ⟨stores, rfl, hst⟩ := hu ph List.mem_cons_self
    obtain ⟨h1, h2⟩ := h.harmless_all hf stores hst
    exact ih (fun p hp => hu p (List.mem_cons_of_mem _ hp)) h1 pos entry (h2 pos entry hh)

theorem Harmless.congr (hl : SameLayout v w) (h : Harmless a v st) : Harmless a w st := by
  cases h with
  | data hc h2 hlo hhi =>
    apply Harmless.data hc h2
    · rw [hl.toSector]
      exact hlo
    · rw [hl.toSector, hl.clusterBytes]
      exact hhi
  | @link copy c value hcopy hc hmax hlt hvalue =>
    have hsame : fatStore v copy c value = fatStore w copy c value := by
      unfold fatStore
      rw [hl.entryPos]
    rw [hsame]
    exact .link hcopy hc (hl.max.symm ▸ hmax) hlt fun hv => hvalue ((hl.valid value).mp hv)

theorem Commits.congr (hl : SameLayout v w) (h : Commits a v img pos item) :
    Commits a w img pos item :=
  ⟨h.room.congr hl.header hl.data, h.used, h.shown, h.file, fun hv => h.first ((hl.valid _).mp hv)⟩

/-- However far the phases get, the caches are in step. -/
theorem Fine.cached (hf : Fitted v n) (h : Fine a v img phases) :
    ∀ {w : FatPrivate}, SameLayout v w → Cached a w img → ∀ k,
      Cached a (afterPhases (phases.take k) w) (applyPhases (phases.take k) img) := by
  induction h with
  | nil => intro w _ hc k; rw [List.take_nil]; exact hc
  | @plain img stores phases hst _ ih =>
    intro w hl hc k
    cases k with
    | zero => exact hc
    | succ k =>
      exact ih hl (hc.harmless_all (hl.fitted hf) stores fun st hm => (hst st hm).congr hl) k
  | @commit img pos item phases hcommit _ ih =>
    intro w hl hc k
    cases k with
    | zero => exact hc
    | succ k =>
      exact ih (hl.trans (publish_layout pos item w))
        (hc.commit (hl.fitted hf) (hcommit.congr hl)) k

end

end Rorthox.Fat
