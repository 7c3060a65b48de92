import Rorthox.Fat.PlanSpec
import Rorthox.Fat.Layout

/-!
# The directories of a volume

A directory is a run of slots: those of the root, or those of the clusters of a chain.
Over this view stands what a lookup can find, and where a new entry can go.
-/

namespace Rorthox.Fat

open Lib Disk

/-- The slots of a directory: how many there are and where each begins on the disk. -/
structure Folder where
  count : Nat
  place : Nat → Nat

def rootFolder (v : FatPrivate) : Folder :=
  ⟨rootDirEntries v.header, fun i => rootSector v.header * sectorSize + i * 32⟩

def chainFolder (v : FatPrivate) (chain : List Nat) : Folder :=
  ⟨chain.length * slotsPerCluster v, fun i =>
    fat16ClusterToSector v (chain.getD (i / slotsPerCluster v) 0) * sectorSize +
      i % slotsPerCluster v * 32⟩

/-- Slot `i` lies before the end of the directory. -/
structure Folder.Live (f : Folder) (img : Bytes) (i : Nat) : Prop where
  lt : i < f.count
  used : ∀ j, j ≤ i → img (f.place j) ≠ 0

/-- The clusters of a directory, up to the end mark in the first FAT. -/
structure DirChain (v : FatPrivate) (img : Bytes) (first : Nat) (chain : List Nat) : Prop where
  head : chain.headD 0 = first
  nonempty : chain ≠ []
  linked : Linked v img 0 chain
  valid : ∀ c ∈ chain, fat16ValidCluster v c
  nodup : chain.Nodup

/-- Which clusters belong to directories, by first cluster, and which may belong to files. -/
structure Allotment where
  chain : Nat → Option (List Nat)
  files : Nat → Prop

namespace Allotment

variable (a : Allotment) (v : FatPrivate)

/-- The slots of the directory with first cluster `first`, 0 for the root. -/
inductive At : Nat → Folder → Prop where
  | root : At 0 (rootFolder v)
  | sub {first : Nat} {chain : List Nat} (h : a.chain first = some chain) :
      At first (chainFolder v chain)

/-- An entry leads to a known directory or to clusters of files. -/
def Admits (entry : DirItem) : Prop :=
  ¬ Skipped entry → fat16ValidCluster v entry.lowFirstCluster →
    if entry.attrib &&& fileSubdirectory ≠ 0 then ∃ chain, a.chain entry.lowFirstCluster =
      some chain
    else a.files entry.lowFirstCluster

/-- The disk keeps to the allotment. -/
structure Fits (img : Bytes) : Prop where
  chained : ∀ first chain, a.chain first = some chain → DirChain v img first chain
  apart : ∀ first first' chain chain' c, a.chain first = some chain → a.chain first' = some chain' →
    c ∈ chain → c ∈ chain' → first = first'
  reserved : ∀ first chain c, a.chain first = some chain → c ∈ chain → ¬ a.files c
  links : ∀ c, a.files c → fat16ValidCluster v c → fat16ValidCluster v (fatAt v img 0 c) →
    a.files (fatAt v img 0 c)
  entries : ∀ first f i, a.At v first f → f.Live img i → a.Admits v (DirItem.load img (f.place i))

/-- A file entry before the end of a directory; `entry` is what the disk holds there. -/
structure Holds (img : Bytes) (pos : Nat) (entry : DirItem) : Prop where
  place : ∃ first f i, a.At v first f ∧ f.Live img i ∧ pos = f.place i
  load : entry = DirItem.load img pos
  shown : ¬ Skipped entry
  file : entry.attrib &&& fileSubdirectory = 0

end Allotment

/-- The cached root directory is the one on the disk. -/
structure RootCached (v : FatPrivate) (img : Bytes) : Prop where
  item : ∀ i, i < rootDirEntries v.header →
    v.rootDirectory.item i = DirItem.load img ((rootFolder v).place i)
  total_le : v.rootDirectory.total ≤ rootDirEntries v.header
  used : ∀ i, i < v.rootDirectory.total → img ((rootFolder v).place i) ≠ 0
  free : v.rootDirectory.total < rootDirEntries v.header →
    img ((rootFolder v).place v.rootDirectory.total) = 0

/-! ## Places -/

variable {chain : List Nat} {first i j : Nat} {f : Folder} {dir : FatDirectory}

section

variable {v : FatPrivate} {img : Bytes} {a : Allotment}

theorem load_first (img : Bytes) (pos : Nat) : (DirItem.load img pos).byte 0 = img pos :=
  DirItem.load_byte img pos (by decide)

theorem slots_bytes (v : FatPrivate) : slotsPerCluster v * 32 = clusterBytes v := by
  unfold slotsPerCluster clusterBytes sectorSize
  omega

/-- A slot of a chain lies in a cluster of the chain. -/
theorem chainFolder_place (hi : i < (chainFolder v chain).count) :
    ∃ c ∈ chain, fat16ClusterToSector v c * sectorSize ≤ (chainFolder v chain).place i ∧
      (chainFolder v chain).place i + 32 ≤ fat16ClusterToSector v c * sectorSize +
        clusterBytes v := by
  change i < chain.length * slotsPerCluster v at hi
  have hpos : 0 < slotsPerCluster v := Nat.pos_of_lt_mul_left hi
  have hq : i / slotsPerCluster v < chain.length := Nat.div_lt_of_lt_mul (by rwa [Nat.mul_comm])
  have hm := Nat.mod_lt i hpos
  have hb := slots_bytes v
  refine ⟨_, getD_mem hq, Nat.le_add_right _ _, ?_⟩
  change _ + i % slotsPerCluster v * 32 + 32 ≤ _
  omega

theorem chainFolder_aligned (v : FatPrivate) (chain : List Nat) (i : Nat) :
    (chainFolder v chain).place i % 32 = 0 := by
  change (_ * sectorSize + _ * 32) % 32 = 0
  unfold sectorSize
  omega

theorem rootFolder_aligned (v : FatPrivate) (i : Nat) : (rootFolder v).place i % 32 = 0 := by
  change (_ * sectorSize + _ * 32) % 32 = 0
  unfold sectorSize
  omega

theorem Allotment.At.aligned (h : a.At v first f) (i : Nat) : f.place i % 32 = 0 := by
  cases h with
  | root => exact rootFolder_aligned v i
  | sub _ => exact chainFolder_aligned v _ i

theorem rootFolder_inj (h : (rootFolder v).place i = (rootFolder v).place j) : i = j := by
  change _ + i * 32 = _ + j * 32 at h
  omega

/-- The root ends before the clusters begin. -/
theorem rootFolder_end {n : Nat} (hgeo : AcceptedGeometry v n) (hi : i < (rootFolder v).count) :
    (rootFolder v).place i + 32 ≤ v.rootDirectory.endingSectorPos * sectorSize := by
  have h1 := Fitted.root_end v
  rw [hgeo.data_eq] at h1
  change i < rootDirEntries v.header at hi
  change rootSector v.header * sectorSize + i * 32 + 32 ≤ _
  rw [rootSector, Nat.add_comm (fatCopies v.header * sectorsPerFat v.header)]
  omega

/-- Chains that share a slot share a cluster. -/
theorem chainFolder_meet {chain' : List Nat} (hv : ∀ c ∈ chain, fat16ValidCluster v c)
    (hv' : ∀ c ∈ chain', fat16ValidCluster v c) (hi : i < (chainFolder v chain).count)
    (hj : j < (chainFolder v chain').count)
    (he : (chainFolder v chain).place i = (chainFolder v chain').place j) :
    ∃ c ∈ chain, c ∈ chain' := by
  obtain ⟨c, hmem, hlo, hhi⟩ := chainFolder_place hi
  obtain ⟨c', hmem', hlo', hhi'⟩ := chainFolder_place hj
  have hsame : c = c' := by
    apply InCluster.unique (v := v) (p := (chainFolder v chain).place i)
    · constructor <;> omega
    · rw [he]
      constructor <;> omega
    · exact (hv c hmem).1
    · exact (hv' c' hmem').1
  exact ⟨c, hmem, hsame ▸ hmem'⟩

theorem getD_inj {l : List Nat} (hn : l.Nodup) (hi : i < l.length) (hj : j < l.length)
    (h : l.getD i 0 = l.getD j 0) : i = j := by
  rw [List.getD_eq_getElem l 0 hi, List.getD_eq_getElem l 0 hj] at h
  exact (List.Nodup.getElem_inj_iff hn).mp h

theorem chainFolder_inj (hv : ∀ c ∈ chain, fat16ValidCluster v c) (hn : chain.Nodup)
    (hi : i < (chainFolder v chain).count) (hj : j < (chainFolder v chain).count)
    (h : (chainFolder v chain).place i = (chainFolder v chain).place j) : i = j := by
  change i < chain.length * slotsPerCluster v at hi
  change j < chain.length * slotsPerCluster v at hj
  have hpos : 0 < slotsPerCluster v := Nat.pos_of_lt_mul_left hi
  have hqi : i / slotsPerCluster v < chain.length := Nat.div_lt_of_lt_mul (by rwa [Nat.mul_comm])
  have hqj : j / slotsPerCluster v < chain.length := Nat.div_lt_of_lt_mul (by rwa [Nat.mul_comm])
  have hb := slots_bytes v
  have hmi := Nat.mod_lt i hpos
  have hmj := Nat.mod_lt j hpos
  change fat16ClusterToSector v (chain.getD (i / slotsPerCluster v) 0) * sectorSize +
    i % slotsPerCluster v * 32 = fat16ClusterToSector v (chain.getD (j / slotsPerCluster v) 0) *
      sectorSize +
    j % slotsPerCluster v * 32 at h
  have hsame : chain.getD (i / slotsPerCluster v) 0 = chain.getD (j / slotsPerCluster v) 0 := by
    apply InCluster.unique (v := v) (p := fat16ClusterToSector v
      (chain.getD (i / slotsPerCluster v) 0) * sectorSize + i % slotsPerCluster v * 32)
    · constructor <;> omega
    · rw [h]
      constructor <;> omega
    · exact (hv _ (getD_mem hqi)).1
    · exact (hv _ (getD_mem hqj)).1
  have hq := getD_inj hn hqi hqj hsame
  rw [hsame] at h
  have h1 := Nat.div_add_mod i (slotsPerCluster v)
  have h2 := Nat.div_add_mod j (slotsPerCluster v)
  rw [hq] at h1
  omega

/-! ## Chains -/

theorem Linked.getD (h : Linked v img 0 chain) : ∀ {k : Nat}, k < chain.length →
    (k + 1 < chain.length ∧ fatAt v img 0 (chain.getD k 0) = chain.getD (k + 1) 0) ∨
      (k + 1 = chain.length ∧ eocStart ≤ fatAt v img 0 (chain.getD k 0)) := by
  induction chain with
  | nil => intro k hk; cases hk
  | cons c chain ih =>
    intro k hk
    cases k with
    | zero =>
      cases chain with
      | nil => exact Or.inr ⟨rfl, h⟩
      | cons d chain => exact Or.inl ⟨by simp, h.1⟩
    | succ k =>
      rcases ih h.tail (Nat.lt_of_succ_lt_succ hk) with ⟨h1, h2⟩ | ⟨h1, h2⟩
      · exact Or.inl ⟨Nat.succ_lt_succ h1, h2⟩
      · exact Or.inr ⟨congrArg Nat.succ h1, h2⟩

section

variable (h : DirChain v img first chain)
include h

theorem DirChain.first_eq : chain.getD 0 0 = first ∧ 0 < chain.length := by
  cases chain with
  | nil => exact absurd rfl h.nonempty
  | cons c chain => exact ⟨h.head, Nat.succ_pos _⟩

theorem DirChain.first_valid : fat16ValidCluster v first := by
  obtain ⟨h1, h2⟩ := h.first_eq
  rw [← h1]
  exact h.valid _ (getD_mem h2)

theorem DirChain.cluster (k : Nat) :
    (∀ c, dirCluster v img first k = .ok (some c) → k < chain.length ∧ c = chain.getD k 0) ∧
      (dirCluster v img first k = .ok none → chain.length ≤ k) := by
  obtain ⟨hfirst, hlen⟩ := h.first_eq
  induction k with
  | zero =>
    constructor
    · intro c hc
      cases hc
      exact ⟨hlen, hfirst.symm⟩
    · intro hc
      cases hc
  | succ k ih =>
    unfold dirCluster
    cases hk : dirCluster v img first k with
    | error e => exact ⟨fun c hc => (by cases hc), fun hc => (by cases hc)⟩
    | ok o =>
      cases o with
      | none =>
        have hle := ih.2 hk
        exact ⟨fun c hc => (by cases hc), fun _ => by omega⟩
      | some c =>
        obtain ⟨hlt, rfl⟩ := ih.1 c hk
        dsimp only
        rcases h.linked.getD hlt with ⟨h1, h2⟩ | ⟨h1, h2⟩
        · have hv := h.valid _ (getD_mem h1)
          rw [h2, if_neg fun he => eoc_not_valid he hv]
          constructor
          · intro d hd
            obtain ⟨-, hd⟩ := except_guard_ok.mp hd
            cases hd
            exact ⟨h1, rfl⟩
          · intro hd
            obtain ⟨-, hd⟩ := except_guard_ok.mp hd
            cases hd
        · rw [if_pos h2]
          exact ⟨fun d hd => (by cases hd), fun _ => h1.ge⟩

theorem DirChain.walk (n : Nat) :
    ∀ {k c : Nat}, k < chain.length → clusterWalk v img n (chain.getD k 0) = .ok c →
      k + n < chain.length ∧ c = chain.getD (k + n) 0 := by
  induction n with
  | zero =>
    intro k c hk hc
    cases hc
    exact ⟨hk, rfl⟩
  | succ n ih =>
    intro k c hk hc
    unfold clusterWalk at hc
    obtain ⟨hv, hc⟩ := except_guard_ok.mp hc
    rcases h.linked.getD hk with ⟨h1, h2⟩ | ⟨h1, h2⟩
    · rw [h2] at hc
      have hr := ih h1 hc
      rwa [Nat.add_assoc, Nat.add_comm 1 n] at hr
    · exact absurd (not_not.mp hv) (eoc_not_valid h2)

end

/-! ## Slots as the driver finds them -/

theorem slotOf_root (hr : Rooted v) (hc : RootCached v img) (i : Nat) :
    (∀ item pos, slotOf v img 0 i = .ok (some (item, pos)) →
      i < (rootFolder v).count ∧ pos = (rootFolder v).place i ∧ item = DirItem.load img pos) ∧
    (slotOf v img 0 i = .ok none → (rootFolder v).count ≤ i) := by
  unfold slotOf
  rw [if_pos rfl]
  by_cases hi : rootDirEntries v.header ≤ i
  · rw [if_pos hi]
    exact ⟨fun item pos h => (by cases h), fun _ => hi⟩
  · rw [if_neg hi]
    constructor
    · intro item pos h
      obtain ⟨-, h⟩ := except_guard_ok.mp h
      cases h
      rw [hr.pos]
      exact ⟨by change i < rootDirEntries v.header; omega, rfl, hc.item i (by omega)⟩
    · intro h
      obtain ⟨-, h⟩ := except_guard_ok.mp h
      cases h

theorem slotOf_chain (h : DirChain v img first chain) (i : Nat) :
    (∀ item pos, slotOf v img first i = .ok (some (item, pos)) →
      i < (chainFolder v chain).count ∧ pos = (chainFolder v chain).place i ∧
        item = DirItem.load img pos) ∧
    (slotOf v img first i = .ok none → (chainFolder v chain).count ≤ i) := by
  have hv := h.first_valid
  have hpos := slotsPerCluster_pos hv
  have h0 : first ≠ 0 := by
    have h2 := hv.1
    omega
  obtain ⟨hsome, hnone⟩ := h.cluster (i / slotsPerCluster v)
  unfold slotOf
  rw [if_neg h0]
  cases hk : dirCluster v img first (i / slotsPerCluster v) with
  | error e => exact ⟨fun item pos he => (by cases he), fun he => (by cases he)⟩
  | ok o =>
    cases o with
    | none =>
      refine ⟨fun item pos he => (by cases he), fun _ => ?_⟩
      exact (Nat.le_div_iff_mul_le hpos).mp (hnone hk)
    | some c =>
      obtain ⟨hlt, rfl⟩ := hsome c hk
      dsimp only
      constructor
      · intro item pos he
        obtain ⟨-, he⟩ := except_guard_ok.mp he
        obtain ⟨-, he⟩ := except_guard_ok.mp he
        cases he
        exact ⟨(Nat.div_lt_iff_lt_mul hpos).mp hlt, rfl, rfl⟩
      · intro he
        obtain ⟨-, he⟩ := except_guard_ok.mp he
        obtain ⟨-, he⟩ := except_guard_ok.mp he
        cases he

end

/-! ## Lookups -/

/-- What a lookup needs of a volume: its disk keeps to the allotment and its root is in order. -/
structure Readable (a : Allotment) (v : FatPrivate) (img : Bytes) : Prop where
  fits : a.Fits v img
  rooted : Rooted v
  cached : RootCached v img
  bound : rootSector v.header * sectorSize + rootDirEntries v.header * 32 ≤ intMax

section

variable {a : Allotment} {v : FatPrivate} {img : Bytes}

theorem Readable.slot (h : Readable a v img) (hat : a.At v first f) (i : Nat) :
    (∀ item pos, slotOf v img first i = .ok (some (item, pos)) →
      i < f.count ∧ pos = f.place i ∧ item = DirItem.load img pos) ∧
    (slotOf v img first i = .ok none → f.count ≤ i) := by
  cases hat with
  | root => exact slotOf_root h.rooted h.cached i
  | sub hc => exact slotOf_chain (h.fits.chained _ _ hc) i

/-- The entries of a directory in memory are those on the disk. -/
structure Loaded (a : Allotment) (v : FatPrivate) (img : Bytes) (dir : FatDirectory) (f : Folder) :
    Prop where
  slots : a.At v dir.firstCluster f
  root : dir.firstCluster = 0 → dir.sectorPos = rootSector v.header
  total_le : dir.total ≤ f.count
  item : ∀ i, i < dir.total → dir.item i = DirItem.load img (f.place i)

theorem Readable.root (h : Readable a v img) : Loaded a v img v.rootDirectory (rootFolder v) := by
  have hat : a.At v v.rootDirectory.firstCluster (rootFolder v) := by
    rw [h.rooted.first]
    exact .root
  exact ⟨hat, fun _ => h.rooted.pos, h.cached.total_le, fun i hi =>
    h.cached.item i (hi.trans_le h.cached.total_le)⟩

theorem Readable.slotPos (h : Readable a v img) (hl : Loaded a v img dir f) {pos : Nat}
    (hi : i < dir.total) (hp : slotPosOf v img dir i = .ok pos) : pos = f.place i := by
  have hat := hl.slots
  have hroot := hl.root
  have hcount := hi.trans_le hl.total_le
  unfold slotPosOf at hp
  generalize dir.firstCluster = first at hat hroot hp
  cases hat with
  | root =>
    rw [if_neg (not_not.mpr rfl)] at hp
    cases hp
    rw [hroot rfl]
    change i < rootDirEntries v.header at hcount
    have h1 := h.bound
    have h2 : intMax < 2 ^ 32 := by decide
    exact Nat.mod_eq_of_lt (by omega)
  | sub hc =>
    have hchain := h.fits.chained _ _ hc
    have hv := hchain.first_valid
    have h0 : first ≠ 0 := by
      have h2 := hv.1
      omega
    rw [if_pos h0] at hp
    obtain ⟨c, hwalk, hp⟩ := except_bind_ok.mp hp
    obtain ⟨-, hp⟩ := except_guard_ok.mp hp
    cases hp
    unfold clusterAt at hwalk
    obtain ⟨-, hwalk⟩ := except_guard_ok.mp hwalk
    obtain ⟨-, hwalk⟩ := except_guard_ok.mp hwalk
    obtain ⟨hfirst, hlen⟩ := hchain.first_eq
    rw [← hfirst] at hwalk
    obtain ⟨-, rfl⟩ := hchain.walk _ hlen hwalk
    have hdiv : i * 32 / clusterBytes v = i / slotsPerCluster v := by
      rw [← slots_bytes, Nat.mul_div_mul_right _ _ (by decide : 0 < 32)]
    rw [Nat.zero_add, hdiv, cluster_slot]
    rfl

theorem loadSlots_ok {start left : Nat} : ∀ {i : Nat} {items out : Nat → DirItem},
    loadSlots v img start left i items = .ok out →
      (∀ j, j < i → out j = items j) ∧
        ∀ j, i ≤ j → j < i + left → ∃ pos, slotOf v img start j = .ok (some (out j, pos)) := by
  induction left with
  | zero =>
    intro i items out h
    cases h
    exact ⟨fun _ _ => rfl, fun j h1 h2 => absurd h2 (by omega)⟩
  | succ left ih =>
    intro i items out h
    obtain ⟨slot, hslot, h⟩ := except_bind_ok.mp h
    have hslot' := except_mapError_ok.mp hslot
    match slot, h with
    | some (item, pos), h =>
      obtain ⟨h1, h2⟩ := ih h
      have hi : out i = item := by rw [h1 i (Nat.lt_succ_self i), Function.update_self]
      constructor
      · intro j hj
        rw [h1 j (by omega), Function.update_of_ne (by omega)]
      · intro j hj1 hj2
        rcases Nat.lt_or_ge i j with hlt | hge
        · exact h2 j hlt (by omega)
        · obtain rfl : j = i := by omega
          rw [hi]
          exact ⟨pos, hslot'⟩

theorem Readable.dirOf (h : Readable a v img) {entry : DirItem} (hadmits : a.Admits v entry)
    (hshown : ¬ Skipped entry) (hd : dirOf v img entry = .ok dir) : ∃ f, Loaded a v img dir f := by
  obtain ⟨hsub, hd⟩ := except_guard_ok.mp hd
  obtain ⟨hv, hd⟩ := except_guard_ok.mp hd
  obtain ⟨total, -, hd⟩ := except_bind_ok.mp hd
  obtain ⟨-, hd⟩ := except_guard_ok.mp hd
  obtain ⟨items, hitems, hd⟩ := except_bind_ok.mp hd
  cases hd
  have hchain := hadmits hshown (not_not.mp hv)
  rw [if_pos hsub] at hchain
  obtain ⟨chain, hchain⟩ := hchain
  have hat : a.At v (fat16GetFirstCluster entry) (chainFolder v chain) := .sub hchain
  obtain ⟨-, hslots⟩ := loadSlots_ok hitems
  have hload : ∀ i, i < total → i < (chainFolder v chain).count ∧
      items i = DirItem.load img ((chainFolder v chain).place i) := by
    intro i hi
    obtain ⟨pos, hpos⟩ := hslots i (Nat.zero_le i) (by omega)
    obtain ⟨h1, rfl, h3⟩ := (h.slot hat i).1 _ _ hpos
    exact ⟨h1, h3⟩
  refine ⟨chainFolder v chain, hat, fun h0 => ?_, ?_, fun i hi => (hload i hi).2⟩
  · have h2 := (not_not.mp hv).1
    change fat16GetFirstCluster entry = 0 at h0
    omega
  · change total ≤ _
    cases total with
    | zero => exact Nat.zero_le _
    | succ k => exact (hload k (Nat.lt_succ_self k)).1

/-- What a lookup found: a directory whose entries are those on the disk, or a file with
the entry on the disk. -/
def Allotment.Found (a : Allotment) (v : FatPrivate) (img : Bytes) (item : FatItem) : Prop :=
  match item.node with
  | .file _ entry => a.Holds v img item.entryPos entry
  | .directory dir => ∃ f, Loaded a v img dir f

theorem Readable.findIn (h : Readable a v img) (hl : Loaded a v img dir f) {name : List UInt8}
    {left : Nat} : ∀ {i : Nat} {item : FatItem},
    i + left ≤ dir.total → (∀ j, j < i → img (f.place j) ≠ 0) →
      findIn v img dir name left i = .ok item → a.Found v img item := by
  induction left with
  | zero => intro i item _ _ hf; cases hf
  | succ left ih =>
    intro i item hle hused hf
    unfold Fat.findIn at hf
    have hitem := hl.item i (by omega)
    obtain ⟨h0, hf⟩ := except_guard_ok.mp hf
    rw [hitem, load_first] at h0
    have hused' : ∀ j, j < i + 1 → img (f.place j) ≠ 0 := by
      intro j hj
      rcases Nat.lt_or_ge j i with hlt | hge
      · exact hused j hlt
      · obtain rfl : j = i := by omega
        exact h0
    split at hf
    · exact ih (by omega) hused' hf
    · rename_i hshown
      split at hf
      · obtain ⟨pos, hpos, hf⟩ := except_bind_ok.mp hf
        obtain rfl := h.slotPos hl (by omega) hpos
        have hlive : f.Live img i :=
          ⟨by have h1 := hl.total_le; omega, fun j hj => hused' j (by omega)⟩
        have hadmits := h.fits.entries _ f i hl.slots hlive
        rw [← hitem] at hadmits
        unfold itemOf at hf
        by_cases hsub : (dir.item i).attrib &&& fileSubdirectory ≠ 0
        · rw [if_pos hsub] at hf
          obtain ⟨sub, hsub', hf⟩ := except_bind_ok.mp hf
          cases hf
          exact h.dirOf hadmits hshown (except_mapError_ok.mp hsub')
        · rw [if_neg hsub] at hf
          cases hf
          exact ⟨⟨_, f, i, hl.slots, hlive, rfl⟩, hitem, hshown, not_not.mp hsub⟩
      · exact ih (by omega) hused' hf

theorem Readable.descendTo (h : Readable a v img) (path : List (List UInt8)) :
    ∀ {current item : FatItem}, a.Found v img current → descendTo v img current path = .ok item →
      a.Found v img item := by
  induction path with
  | nil => intro current item hc hd; cases hd; exact hc
  | cons part path ih =>
    intro current item hc hd
    unfold Fat.descendTo at hd
    cases hnode : current.node with
    | file addr entry =>
      rw [hnode] at hd
      cases hd
    | directory dir =>
      rw [hnode] at hd
      obtain ⟨next, hfind, hd⟩ := except_bind_ok.mp hd
      unfold Allotment.Found at hc
      rw [hnode] at hc
      obtain ⟨f, hl⟩ := hc
      exact ih (h.findIn hl (by omega) (fun j hj => absurd hj (by omega)) hfind) hd

theorem Readable.lookup (h : Readable a v img) {path : List (List UInt8)} {item : FatItem}
    (hl : lookup v img path = .ok item) : a.Found v img item := by
  cases path with
  | nil => cases hl
  | cons part path =>
    obtain ⟨next, hfind, hl⟩ := except_bind_ok.mp hl
    exact h.descendTo path (h.findIn h.root (by omega) (fun j hj => absurd hj (by omega)) hfind) hl

/-! ## Room for a new entry -/

/-- A new entry at `pos` keeps the directory in order: the slots before it are used, and
if it takes the end mark, the slot behind it is one. -/
structure Room (a : Allotment) (v : FatPrivate) (img : Bytes) (pos : Nat) : Prop where
  place : ∃ first f i, a.At v first f ∧ i < f.count ∧ pos = f.place i ∧
    (∀ j, j < i → img (f.place j) ≠ 0) ∧
    (img pos ≠ 0 ∨ i + 1 = f.count ∨ img (f.place (i + 1)) = 0)

theorem Allotment.Holds.room {pos : Nat} {entry : DirItem} (h : a.Holds v img pos entry) :
    Room a v img pos := by
  obtain ⟨first, f, i, hat, hlive, rfl⟩ := h.place
  exact ⟨first, f, i, hat, hlive.lt, rfl, fun j hj => hlive.used j hj.le,
    Or.inl (hlive.used i le_rfl)⟩

theorem Readable.parentOf (h : Readable a v img) (path : List (List UInt8)) :
    ∀ {dir : FatDirectory} {f : Folder} {start : Nat} {last : List UInt8}, Loaded a v img dir f →
      parentOf v img dir path = .ok (start, last) → (∃ f', a.At v start f') ∧ last ∈ path := by
  induction path with
  | nil => intro dir f start last _ hp; cases hp
  | cons part path ih =>
    intro dir f start last hl hp
    cases path with
    | nil =>
      cases hp
      exact ⟨⟨f, hl.slots⟩, List.mem_singleton_self _⟩
    | cons next path =>
      obtain ⟨item, hfind, hp⟩ := except_bind_ok.mp hp
      have hfound := h.findIn hl (by omega) (fun j hj => absurd hj (by omega)) hfind
      unfold Allotment.Found at hfound
      cases hnode : item.node with
      | file addr entry =>
        rw [hnode] at hp
        cases hp
      | directory sub =>
        rw [hnode] at hp hfound
        obtain ⟨f', hl'⟩ := hfound
        obtain ⟨hat, hmem⟩ := ih hl' hp
        exact ⟨hat, List.mem_cons_of_mem _ hmem⟩

theorem Readable.roomFrom (h : Readable a v img) {start : Nat} (hat : a.At v start f) {fuel : Nat} :
    ∀ {i : Nat} {slot : Option Nat} {lfn : Bool} {pos : Nat},
      (∀ j, j < i → img (f.place j) ≠ 0) → (∀ p, slot = some p → Room a v img p) →
        roomFrom v img start fuel i slot lfn = .ok pos → Room a v img pos := by
  induction fuel with
  | zero => intro i slot lfn pos _ _ hr; cases hr
  | succ fuel ih =>
    intro i slot lfn pos hused hslot hr
    rcases roomFrom_ok hr with hpos | ⟨entry, hn, -, hafter⟩ | ⟨entry, p, hn, h0, hlater⟩
    · exact hslot pos hpos
    · obtain ⟨hi, hp, -⟩ := (h.slot hat i).1 _ _ hn
      refine ⟨start, f, i, hat, hi, hp, hused, Or.inr ?_⟩
      rcases hafter with hend | ⟨next, q, hnext, hzero⟩
      · have hend := (h.slot hat (i + 1)).2 hend
        exact Or.inl (by omega)
      · obtain ⟨-, hq, hentry⟩ := (h.slot hat (i + 1)).1 _ _ hnext
        rw [hentry, load_first, hq] at hzero
        exact Or.inr hzero
    · obtain ⟨hi, hp, hentry⟩ := (h.slot hat i).1 _ _ hn
      rw [hentry, load_first, hp] at h0
      refine ih (fun j hj => ?_) (fun q hq => ?_) hlater
      · rcases Nat.lt_or_ge j i with hlt | hge
        · exact hused j hlt
        · obtain rfl : j = i := by omega
          exact h0
      · split at hq
        · cases hq
          exact ⟨start, f, i, hat, hi, hp, hused, Or.inl (by rw [hp]; exact h0)⟩
        · exact hslot q hq

end

end Rorthox.Fat
