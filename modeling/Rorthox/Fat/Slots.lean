import Rorthox.Fat.Cached
import Rorthox.Fat.Mount
import Rorthox.Fat.ReadChain

/-!
# Where the slots of a directory lie

The cursor steps from slot to slot; a lookup divides the index of a slot by the size of a
cluster and walks the chain. Both routes come to the place that the links of the first FAT
give the slot.
-/

namespace Rorthox.Fat

open Lib Disk Memory

/-- The root, or the subdirectory whose first cluster is `start`. -/
inductive DirRef where
  | root
  | sub (start : Nat)

/-- As the cursor takes it. -/
def DirRef.start : DirRef → Nat
  | .root => 0
  | .sub start => start

section

variable (v : FatPrivate) (img : Bytes)

/-- A directory the cursor can start in. -/
def DirRef.Valid : DirRef → Prop
  | .root => True
  | .sub start => fat16ValidCluster v start

/-- The place of slot `i` of a subdirectory by its links. -/
def linkedPlace (start i : Nat) : Nat :=
  fat16ClusterToSector v (link v img start (i / slotsPerCluster v)) * sectorSize +
    i % slotsPerCluster v * 32

/-- Slot `i` of a directory lies at a position. -/
inductive SlotAt : DirRef → Nat → Nat → Prop where
  | root {i : Nat} (hi : i < rootDirEntries v.header) :
      SlotAt .root i (rootSector v.header * sectorSize + i * 32)
  | sub {start i : Nat}
      (hvalid : ∀ k, k ≤ i / slotsPerCluster v → fat16ValidCluster v (link v img start k))
      (hcount : i / slotsPerCluster v < fat16ClusterLimit v - 1)
      (hbelow : (linkedPlace v img start i / sectorSize + 1) * sectorSize < 2 ^ 31) :
      SlotAt (.sub start) i (linkedPlace v img start i)

/-- A directory ends before slot `i`. -/
inductive EndsAt : DirRef → Nat → Prop where
  | root {i : Nat} (hi : rootDirEntries v.header ≤ i) : EndsAt .root i
  | sub {start i : Nat} (k : Nat) (hk : 0 < k) (hle : k ≤ i / slotsPerCluster v)
      (hvalid : ∀ j, j < k → fat16ValidCluster v (link v img start j))
      (hcount : k ≤ fat16ClusterLimit v - 1) (heoc : eocStart ≤ link v img start k) :
      EndsAt (.sub start) i

/-- On the way to slot `i` of a subdirectory stands a value that is no cluster of the volume
and no end mark, or there are more clusters than the volume has, or the slot lies in a sector
that does not end below 2^31. -/
inductive BadAt (start i : Nat) : Prop where
  | cluster (k : Nat) (hk : k ≤ i / slotsPerCluster v)
      (hvalid : ∀ j, j < k → fat16ValidCluster v (link v img start j))
      (hbad : ¬ fat16ValidCluster v (link v img start k))
      (hend : k = 0 ∨ link v img start k < eocStart)
  | count (hle : fat16ClusterLimit v - 1 ≤ i / slotsPerCluster v)
      (hvalid : ∀ k, k ≤ fat16ClusterLimit v - 1 → fat16ValidCluster v (link v img start k))
  | place (hvalid : ∀ k, k ≤ i / slotsPerCluster v → fat16ValidCluster v (link v img start k))
      (hcount : i / slotsPerCluster v < fat16ClusterLimit v - 1)
      (habove : 2 ^ 31 ≤ (linkedPlace v img start i / sectorSize + 1) * sectorSize)

/-- The root directory lies below 2^31 and is cached as it stands on the disk. -/
structure RootServed : Prop where
  rooted : Rooted v
  cached : RootCached v img
  bound : rootSector v.header * sectorSize + rootDirEntries v.header * 32 ≤ intMax

end

variable {v : FatPrivate} {img : Bytes} {n : Nat}

/-! ## Clusters of a directory -/

variable {c i j k pos : Nat} {e : Errno} {item : DirItem} {d : DirRef} {dir : FatDirectory}
  {s : FsState} {chain : List Nat} {f : Folder}

theorem valid_limit (h : fat16ValidCluster v c) : 0 < fat16ClusterLimit v - 1 := by
  have h2 := h.1
  have hle := h.2.1
  omega

theorem valid_ne_zero (h : fat16ValidCluster v c) : c ≠ 0 := by
  have h2 := h.1
  omega

/-- One more cluster, by its link. -/
theorem dirCluster_succ {start : Nat}
    (h : dirCluster v img start k = .ok (some (link v img start k))) :
    dirCluster v img start (k + 1) =
      if eocStart ≤ link v img start (k + 1) then .ok none
      else if ¬ fat16ValidCluster v (link v img start (k + 1)) ∨ fat16ClusterLimit v - 1 <
        k + 2 then
        .error .eio
      else .ok (some (link v img start (k + 1))) := by
  rw [dirCluster, h, link_succ]

theorem dirCluster_some_iff {start : Nat} (hv : fat16ValidCluster v start) :
    dirCluster v img start k = .ok (some c) ↔
      (∀ j, j ≤ k → fat16ValidCluster v (link v img start j)) ∧ k < fat16ClusterLimit v - 1 ∧
        c = link v img start k := by
  induction k generalizing c with
  | zero =>
    constructor
    · intro h
      refine ⟨fun j hj => ?_, valid_limit hv, (Option.some.inj (Except.ok.inj h)).symm⟩
      obtain rfl := Nat.le_zero.mp hj
      exact hv
    · rintro ⟨-, -, rfl⟩
      rfl
  | succ k ih =>
    constructor
    · intro h
      have hprev : dirCluster v img start k = .ok (some (link v img start k)) := by
        rw [dirCluster] at h
        cases hk : dirCluster v img start k with
        | error e => rw [hk] at h; cases h
        | ok o =>
          cases o with
          | none => rw [hk] at h; cases h
          | some d => rw [(ih.mp hk).2.2]
      obtain ⟨hall, -, -⟩ := ih.mp hprev
      rw [dirCluster_succ hprev] at h
      split at h
      · cases h
      · obtain ⟨hok, h⟩ := except_guard_ok.mp h
        push Not at hok
        refine ⟨fun j hj => ?_, by omega, (Option.some.inj (Except.ok.inj h)).symm⟩
        rcases Nat.le_succ_iff.mp hj with hj | rfl
        · exact hall j hj
        · exact hok.1
    · rintro ⟨hall, hlt, rfl⟩
      have hprev := ih.mpr ⟨fun j hj => hall j (Nat.le_succ_of_le hj), Nat.lt_of_succ_lt hlt, rfl⟩
      have hnext := hall (k + 1) le_rfl
      rw [dirCluster_succ hprev, if_neg fun he => eoc_not_valid he hnext, if_neg]
      rw [not_or, not_not]
      exact ⟨hnext, by omega⟩

theorem dirCluster_none_iff {start : Nat} (hv : fat16ValidCluster v start) :
    dirCluster v img start k = .ok none ↔
      ∃ m, 0 < m ∧ m ≤ k ∧ (∀ j, j < m → fat16ValidCluster v (link v img start j)) ∧
        m ≤ fat16ClusterLimit v - 1 ∧ eocStart ≤ link v img start m := by
  induction k with
  | zero =>
    constructor
    · intro h
      cases h
    · rintro ⟨m, hm, hle, -⟩
      omega
  | succ k ih =>
    constructor
    · intro h
      cases hk : dirCluster v img start k with
      | error e => rw [dirCluster, hk] at h; cases h
      | ok o =>
        cases o with
        | none =>
          obtain ⟨m, hm, hle, hrest⟩ := ih.mp hk
          exact ⟨m, hm, Nat.le_succ_of_le hle, hrest⟩
        | some d =>
          obtain ⟨hall, hlt, rfl⟩ := (dirCluster_some_iff hv).mp hk
          rw [dirCluster_succ hk] at h
          split at h
          · rename_i heoc
            exact ⟨k + 1, Nat.succ_pos k, le_rfl, fun j hj => hall j (Nat.lt_succ_iff.mp hj),
              hlt, heoc⟩
          · obtain ⟨-, h⟩ := except_guard_ok.mp h
            cases h
    · rintro ⟨m, hm, hle, hall, hcount, heoc⟩
      rcases Nat.le_succ_iff.mp hle with hle | rfl
      · rw [dirCluster, ih.mpr ⟨m, hm, hle, hall, hcount, heoc⟩]
      · have hprev : dirCluster v img start k = .ok (some (link v img start k)) :=
          (dirCluster_some_iff hv).mpr ⟨fun j hj => hall j (Nat.lt_succ_of_le hj), hcount, rfl⟩
        rw [dirCluster_succ hprev, if_pos heoc]

/-- Following the links, the volume runs out of clusters or a link is none. -/
theorem dirCluster_error {start : Nat} (hv : fat16ValidCluster v start)
    (h : dirCluster v img start k = .error e) :
    (∃ m, m ≤ k ∧ (∀ j, j < m → fat16ValidCluster v (link v img start j)) ∧
      ¬ fat16ValidCluster v (link v img start m) ∧ link v img start m < eocStart) ∨
    (fat16ClusterLimit v - 1 ≤ k ∧
      ∀ j, j ≤ fat16ClusterLimit v - 1 → fat16ValidCluster v (link v img start j)) := by
  induction k with
  | zero => cases h
  | succ k ih =>
    cases hk : dirCluster v img start k with
    | error e' =>
      rw [dirCluster, hk] at h
      rcases ih (hk.trans h) with ⟨m, hle, hrest⟩ | ⟨hle, hrest⟩
      · exact Or.inl ⟨m, Nat.le_succ_of_le hle, hrest⟩
      · exact Or.inr ⟨Nat.le_succ_of_le hle, hrest⟩
    | ok o =>
      cases o with
      | none => rw [dirCluster, hk] at h; cases h
      | some d =>
        obtain ⟨hall, hlt, rfl⟩ := (dirCluster_some_iff hv).mp hk
        rw [dirCluster_succ hk] at h
        split at h
        · cases h
        · rename_i heoc
          by_cases hnext : fat16ValidCluster v (link v img start (k + 1))
          · -- every link so far is a cluster, so their number is at the limit
            have hcount : fat16ClusterLimit v - 1 < k + 2 := by
              by_contra hc
              rw [if_neg (not_or.mpr ⟨not_not.mpr hnext, hc⟩)] at h
              cases h
            refine Or.inr ⟨by omega, fun j hj => ?_⟩
            rcases Nat.le_succ_iff.mp (show j ≤ k + 1 by omega) with hj | rfl
            · exact hall j hj
            · exact hnext
          · exact Or.inl ⟨k + 1, le_rfl, fun j hj => hall j (Nat.lt_succ_iff.mp hj),
              hnext, by omega⟩

/-! ## Slots -/

theorem linkedPlace_aligned (start i : Nat) : linkedPlace v img start i % 32 = 0 := by
  rw [linkedPlace, sectorSize]
  omega

/-- The two tests of a position: that of the cursor and that of the streamer. -/
theorem below_iff (h : pos % 32 = 0) :
    ¬ intMax - 32 < pos ∧ ¬ intMax - pos / sectorSize * sectorSize < sectorSize ↔
      (pos / sectorSize + 1) * sectorSize < 2 ^ 31 := by
  rw [intMax, sectorSize]
  omega

theorem slotOf_sub {start : Nat} (hv : fat16ValidCluster v start) (i : Nat) :
    slotOf v img start i =
      match dirCluster v img start (i / slotsPerCluster v) with
      | .error e => .error e
      | .ok none => .ok none
      | .ok (some cluster) =>
          let pos := fat16ClusterToSector v cluster * sectorSize + i % slotsPerCluster v * 32
          if intMax - 32 < pos then .error .eio
          else if intMax - pos / sectorSize * sectorSize < sectorSize then .error .einvarg
          else .ok (some (DirItem.load img pos, pos)) := by
  rw [slotOf]
  exact if_neg (valid_ne_zero hv)

theorem slotOf_linked {start : Nat} (hv : fat16ValidCluster v start)
    (hall : ∀ k, k ≤ i / slotsPerCluster v → fat16ValidCluster v (link v img start k))
    (hcount : i / slotsPerCluster v < fat16ClusterLimit v - 1) : slotOf v img start i =
      if intMax - 32 < linkedPlace v img start i then .error .eio
      else if intMax - linkedPlace v img start i / sectorSize * sectorSize < sectorSize then
        .error .einvarg
      else .ok (some (DirItem.load img (linkedPlace v img start i),
        linkedPlace v img start i)) := by
  rw [slotOf_sub hv, (dirCluster_some_iff hv).mpr ⟨hall, hcount, rfl⟩]
  rfl

theorem slotOf_sub_some_iff {start : Nat} (hv : fat16ValidCluster v start) :
    slotOf v img start i = .ok (some (item, pos)) ↔
      SlotAt v img (.sub start) i pos ∧ item = DirItem.load img pos := by
  constructor
  · intro h
    have h' := h
    rw [slotOf_sub hv] at h'
    split at h'
    · cases h'
    · cases h'
    · rename_i cluster hk
      obtain ⟨hall, hcount, rfl⟩ := (dirCluster_some_iff hv).mp hk
      rw [slotOf_linked hv hall hcount] at h
      obtain ⟨h1, h⟩ := except_guard_ok.mp h
      obtain ⟨h2, h⟩ := except_guard_ok.mp h
      cases h
      exact ⟨.sub hall hcount ((below_iff (linkedPlace_aligned start i)).mp ⟨h1, h2⟩), rfl⟩
  · rintro ⟨_ | ⟨hall, hcount, hbelow⟩, rfl⟩
    obtain ⟨h1, h2⟩ := (below_iff (linkedPlace_aligned start i)).mpr hbelow
    rw [slotOf_linked hv hall hcount, if_neg h1, if_neg h2]

theorem slotOf_some_iff (hs : RootServed v img) (hd : d.Valid v) :
    slotOf v img d.start i = .ok (some (item, pos)) ↔
      SlotAt v img d i pos ∧ item = DirItem.load img pos := by
  cases d with
  | root =>
    constructor
    · intro h
      obtain ⟨hi, rfl, hitem⟩ := (slotOf_root hs.rooted hs.cached i).1 item pos h
      exact ⟨.root hi, hitem⟩
    · rintro ⟨⟨hi⟩, rfl⟩
      have hbound := hs.bound
      rw [DirRef.start, slotOf, if_pos rfl, if_neg (Nat.not_le.mpr hi), hs.rooted.pos,
        if_neg (by omega), hs.cached.item i hi]
      rfl
  | sub start => exact slotOf_sub_some_iff hd

theorem slotOf_none_iff (hd : d.Valid v) :
    slotOf v img d.start i = .ok none ↔ EndsAt v img d i := by
  cases d with
  | root =>
    rw [DirRef.start, slotOf, if_pos rfl]
    constructor
    · intro h
      by_cases hi : rootDirEntries v.header ≤ i
      · exact .root hi
      · rw [if_neg hi] at h
        obtain ⟨-, h⟩ := except_guard_ok.mp h
        cases h
    · rintro ⟨hi⟩
      rw [if_pos hi]
  | sub start =>
    have hv : fat16ValidCluster v start := hd
    change slotOf v img start i = _ ↔ _
    rw [slotOf_sub hv]
    constructor
    · intro h
      split at h
      · cases h
      · rename_i hk
        obtain ⟨m, hm, hle, hall, hcount, heoc⟩ := (dirCluster_none_iff hv).mp hk
        exact .sub m hm hle hall hcount heoc
      · obtain ⟨-, h⟩ := except_guard_ok.mp h
        obtain ⟨-, h⟩ := except_guard_ok.mp h
        cases h
    · rintro (_ | ⟨m, hm, hle, hall, hcount, heoc⟩)
      rw [(dirCluster_none_iff hv).mpr ⟨m, hm, hle, hall, hcount, heoc⟩]

theorem slotOf_error {start : Nat} (hv : fat16ValidCluster v start)
    (h : slotOf v img start i = .error e) : BadAt v img start i := by
  have h' := h
  rw [slotOf_sub hv] at h'
  split at h'
  · rename_i hk
    rcases dirCluster_error hv hk with ⟨m, hle, hall, hbad, hlt⟩ | ⟨hle, hall⟩
    · exact .cluster m hle hall hbad (Or.inr hlt)
    · exact .count hle hall
  · cases h'
  · rename_i cluster hk
    obtain ⟨hall, hcount, rfl⟩ := (dirCluster_some_iff hv).mp hk
    refine .place hall hcount (Nat.le_of_not_lt fun hbelow => ?_)
    obtain ⟨h1, h2⟩ := (below_iff (linkedPlace_aligned start i)).mpr hbelow
    rw [slotOf_linked hv hall hcount, if_neg h1, if_neg h2] at h
    cases h

/-! A slot is there, or the directory ends before it, or the way to it is bad. -/

theorem SlotAt.not_bad {start : Nat} (h : SlotAt v img (.sub start) i pos) :
    ¬ BadAt v img start i := by
  cases h with
  | sub hall hcount hbelow =>
    rintro (⟨k, hk, -, hbad, -⟩ | ⟨hle, -⟩ | ⟨-, -, habove⟩)
    · exact hbad (hall k hk)
    · omega
    · omega

theorem EndsAt.not_bad {start : Nat} (h : EndsAt v img (.sub start) i) : ¬ BadAt v img start i := by
  cases h with
  | sub k hk hle hall hcount heoc =>
    rintro (⟨m, -, hall', hbad, hend⟩ | ⟨-, hall'⟩ | ⟨hall', -, -⟩)
    · rcases Nat.lt_trichotomy k m with hlt | rfl | hlt
      · exact eoc_not_valid heoc (hall' k hlt)
      · omega
      · exact hbad (hall m hlt)
    · exact eoc_not_valid heoc (hall' k hcount)
    · exact eoc_not_valid heoc (hall' k hle)

theorem SlotAt.not_end (h : SlotAt v img d i pos) : ¬ EndsAt v img d i := by
  cases h with
  | root hi =>
    rintro ⟨hle⟩
    omega
  | sub hall hcount hbelow =>
    rintro (_ | ⟨k, hk, hle, -, -, heoc⟩)
    exact eoc_not_valid heoc (hall k hle)

theorem SlotAt.unique {pos' : Nat} (h : SlotAt v img d i pos) (h' : SlotAt v img d i pos') :
    pos = pos' := by
  cases h <;> cases h' <;> rfl

theorem SlotAt.pos_eq {start : Nat} (h : SlotAt v img (.sub start) i pos) :
    pos = linkedPlace v img start i := by
  cases h with
  | sub _ _ _ => rfl

theorem SlotAt.cluster {start : Nat} (h : SlotAt v img (.sub start) i pos) :
    fat16ValidCluster v (link v img start (i / slotsPerCluster v)) := by
  cases h with
  | sub hall _ _ => exact hall _ le_rfl

theorem SlotAt.valid (h : SlotAt v img d i pos) : d.Valid v := by
  cases h with
  | root hi => trivial
  | sub hall _ _ => exact hall 0 (Nat.zero_le _)

theorem EndsAt.valid (h : EndsAt v img d i) : d.Valid v := by
  cases h with
  | root hi => trivial
  | sub k hk _ hall _ _ => exact hall 0 hk

/-- The index arithmetic of a lookup comes to the place of the slot. -/
theorem SlotAt.slotPosOf (hs : RootServed v img) (h : SlotAt v img d i pos)
    (hfirst : dir.firstCluster = d.start)
    (hroot : dir.firstCluster = 0 → dir.sectorPos = rootSector v.header) :
    slotPosOf v img dir i = .ok pos := by
  rw [Fat.slotPosOf, hfirst]
  cases h with
  | root hi =>
    have hbound := hs.bound
    have hsmall : intMax < 2 ^ 32 := by decide
    rw [hroot hfirst, DirRef.start, if_neg (not_not.mpr rfl), Nat.mod_eq_of_lt (by omega)]
  | @sub start _ hall hcount hbelow =>
    have hv : fat16ValidCluster v start := hall 0 (Nat.zero_le _)
    have hdiv : i * 32 / clusterBytes v = i / slotsPerCluster v := by
      rw [← slots_bytes, Nat.mul_div_mul_right _ _ (by decide : 0 < 32)]
    have hpos : 0 < clusterBytes v := by
      have := slotsPerCluster_pos hv
      rw [← slots_bytes]
      omega
    have hcluster : clusterAt v img start (i * 32) = .ok
        (link v img start (i / slotsPerCluster v)) := by
      rw [clusterAt_ok_iff, hdiv]
      exact ⟨hpos, hcount, hall, rfl⟩
    obtain ⟨hfit, -⟩ := (below_iff (linkedPlace_aligned start i)).mpr hbelow
    rw [DirRef.start, if_pos (valid_ne_zero hv), hcluster]
    change (if intMax - 32 < _ + i * 32 % clusterBytes v then _ else _) = _
    rw [cluster_slot]
    exact if_neg hfit

/-- Mounting caches the root as it stands on the disk, unless its position does not fit. -/
theorem mounted_served {s1 : FsState} {vol : FatPrivate}
    (h : ReadsTo 0 0 .mount (mountOf img) s (.ok vol) s1)
    (hbound : rootSector vol.header * sectorSize + rootDirEntries vol.header * 32 ≤ intMax) :
    RootServed vol img := by
  obtain ⟨hheader, hroot, -, -, -⟩ := mounted_plain h
  have hitem : vol.rootDirectory.item = rootItems vol.header img := by
    rw [hheader]
    exact mounted_items h
  have htotal : vol.rootDirectory.total =
      rootTotal vol.rootDirectory.item (rootDirEntries vol.header) 0 := by
    rw [hitem, hheader]
    exact congrArg FatDirectory.total hroot
  have habs : fat16SectorToAbsolute (rootSector vol.header) = rootSector vol.header *
      sectorSize := by
    have h2 : intMax < 2 ^ 32 := by decide
    exact Nat.mod_eq_of_lt (by omega)
  have hload : ∀ i, i < rootDirEntries vol.header →
      vol.rootDirectory.item i = DirItem.load img ((rootFolder vol).place i) := by
    intro i hi
    rw [hitem, rootItems_load vol.header img hi, habs]
    rfl
  obtain ⟨-, h2, h3, h4⟩ := rootTotal_bounds vol.rootDirectory.item (rootDirEntries vol.header) 0
  rw [← htotal, Nat.zero_add] at h2
  rw [← htotal] at h3 h4
  refine ⟨(mounted_tidy (.ok 0) h).rooted, ⟨hload, h2, fun i hi => ?_, fun hlt => ?_⟩, hbound⟩
  · have hne := h3 i (Nat.zero_le i) hi
    rwa [hload i (hi.trans_le h2), load_first] at hne
  · have hz := h4 (by omega)
    rwa [hload _ hlt, load_first] at hz

theorem resolve_served (hok : (fat16Resolve s).1 = .ok ())
    (hbound : rootSector (fat16Resolve s).2.vol.header * sectorSize +
      rootDirEntries (fat16Resolve s).2.vol.header * 32 ≤ intMax) :
    RootServed (fat16Resolve s).2.vol (fat16Resolve s).2.dev.image := by
  cases Prog.ends_iff.mp (fat16Resolve_spec s) with
  | failed _ hres =>
    rw [hok] at hres
    cases hres
  | mounted h _ hstate =>
    rw [hstate] at hbound ⊢
    have hserved := mounted_served h hbound
    rw [← h.quiet.image] at hserved
    exact hserved

/-- An accepted geometry keeps the root below 2^31. -/
theorem accepted_root {capacity : Nat} (h : AcceptedGeometry v capacity) :
    rootSector v.header * sectorSize + rootDirEntries v.header * 32 ≤ intMax := by
  have h1 := Fitted.root_end v
  have h2 : dataStart v.header * 512 ≤ intMax := h.2.2.2.2.2.2.2.2.2.2.2
  rw [rootSector, Nat.add_comm (fatCopies v.header * sectorsPerFat v.header)]
  exact h1.trans h2

/-! ## Chains as folders -/

variable (v img) in
/-- The slots of a directory whose chain is in order; the root has no clusters. -/
inductive DirFolder : DirRef → List Nat → Folder → Prop where
  | root : DirFolder .root [] (rootFolder v)
  | sub {first : Nat} {chain : List Nat} (h : DirChain v img first chain) :
      DirFolder (.sub first) chain (chainFolder v chain)

theorem DirChain.link_eq {first : Nat} (h : DirChain v img first chain) (hk : k < chain.length) :
    link v img first k = chain.getD k 0 := by
  induction k with
  | zero => exact h.first_eq.1.symm
  | succ k ih =>
    rw [link_succ, ih (Nat.lt_of_succ_lt hk)]
    rcases h.linked.getD (Nat.lt_of_succ_lt hk) with ⟨-, hnext⟩ | ⟨hend, -⟩
    · exact hnext
    · omega

theorem DirChain.length_le {first : Nat} (h : DirChain v img first chain) :
    chain.length ≤ fat16ClusterLimit v - 1 := by
  have hall : ∀ k, k < chain.length → fat16ValidCluster v (chain.getD k 0) := fun k hk =>
    h.valid _ (getD_mem hk)
  refine distinct_le hall fun j k hjk hk he => ?_
  exact Nat.ne_of_lt hjk (getD_inj h.nodup (hjk.trans hk) hk he)

section

variable (h : DirFolder v img d chain f)
include h

/-- The slots of such a directory are where its folder has them. -/
theorem DirFolder.slotAt (hi : i < f.count)
    (hbelow : (f.place i / sectorSize + 1) * sectorSize < 2 ^ 31) :
    SlotAt v img d i (f.place i) := by
  cases h with
  | root => exact .root hi
  | @sub first _ hchain =>
    have hq : i / slotsPerCluster v < chain.length := by
      refine Nat.div_lt_of_lt_mul ?_
      rw [Nat.mul_comm]
      exact hi
    have hplace : (chainFolder v chain).place i = linkedPlace v img first i := by
      rw [linkedPlace, hchain.link_eq hq]
      rfl
    rw [hplace] at hbelow ⊢
    refine .sub (fun k hk => ?_) (hq.trans_le hchain.length_le) hbelow
    rw [hchain.link_eq (hk.trans_lt hq)]
    exact hchain.valid _ (getD_mem (hk.trans_lt hq))

theorem DirFolder.of_slot (hslot : SlotAt v img d i pos) : i < f.count ∧ pos = f.place i := by
  cases h with
  | root =>
    cases hslot with
    | root hi => exact ⟨hi, rfl⟩
  | @sub first _ hchain =>
    cases hslot with
    | sub hall hcount hbelow =>
      have hpos := slotsPerCluster_pos (hall 0 (Nat.zero_le _))
      have hq : i / slotsPerCluster v < chain.length := by
        by_contra hge
        -- the link behind the last cluster is an end mark
        have hlen := hchain.first_eq.2
        obtain ⟨m, hm⟩ : ∃ m, m + 1 = chain.length := ⟨chain.length - 1, by omega⟩
        rcases hchain.linked.getD (show m < chain.length by omega) with ⟨hlt, -⟩ | ⟨-, heoc⟩
        · omega
        · rw [← hchain.link_eq (by omega), ← link_succ] at heoc
          exact eoc_not_valid heoc (hall (m + 1) (by omega))
      refine ⟨(Nat.div_lt_iff_lt_mul hpos).mp hq, ?_⟩
      rw [linkedPlace, hchain.link_eq hq]
      rfl

theorem DirFolder.aligned (i : Nat) : f.place i % 32 = 0 := by
  cases h with
  | root => exact rootFolder_aligned v i
  | sub _ => exact chainFolder_aligned v _ i

theorem DirFolder.inj (hi : i < f.count) (hj : j < f.count) (he : f.place i = f.place j) :
    i = j := by
  cases h with
  | root => exact rootFolder_inj he
  | sub hchain => exact chainFolder_inj hchain.valid hchain.nodup hi hj he

end

/-- The clusters of a subdirectory lie behind the root. -/
theorem chain_behind_root (hgeo : AcceptedGeometry v n) (hi : i < (rootFolder v).count)
    (hj : j < (chainFolder v chain).count) :
    (rootFolder v).place i < (chainFolder v chain).place j := by
  obtain ⟨c, -, hlo, -⟩ := chainFolder_place hj
  have h1 := rootFolder_end hgeo hi
  have h2 := cluster_start v c
  omega

theorem DirFolder.apart (hgeo : AcceptedGeometry v n) {d' : DirRef} {chain' : List Nat}
    {f' : Folder} (h : DirFolder v img d chain f) (h' : DirFolder v img d' chain' f') (hne : d ≠ d')
    (hdisj : List.Disjoint chain chain') (hi : i < f.count) (hj : j < f'.count) :
    f.place i ≠ f'.place j := by
  cases h with
  | root =>
    cases h' with
    | root => exact absurd rfl hne
    | sub _ => exact Nat.ne_of_lt (chain_behind_root hgeo hi hj)
  | sub hchain =>
    cases h' with
    | root => exact Nat.ne_of_gt (chain_behind_root hgeo hj hi)
    | sub hchain' =>
      intro he
      obtain ⟨c, hmem, hmem'⟩ := chainFolder_meet hchain.valid hchain'.valid hi hj he
      exact hdisj hmem hmem'

/-! ## The cursor, step by step -/

/-- The slot that the cursor gives in step `i` from here, if none of its steps fails. -/
def directoryStep : Nat → DirectoryCursor → FsProg (Option (DirItem × Nat × DirectoryCursor))
  | 0, cursor => fat16DirectoryNext cursor
  | i + 1, cursor => do
      let next ← fat16DirectoryNext cursor
      match next with
      | none => pure none
      | some (_, _, cursor) => directoryStep i cursor

def directorySlot (start i : Nat) : FsProg (Option (DirItem × Nat × DirectoryCursor)) :=
  fat16DirectoryStart start >>= directoryStep i

variable (v img) in
def stepOf (start : Nat) : Nat → Nat → Except Errno (Option (DirItem × Nat))
  | 0, i => slotOf v img start i
  | k + 1, i => do
      let slot ← slotOf v img start i
      match slot with
      | none => .ok none
      | some _ => stepOf start k (i + 1)

theorem reading_directoryStep {held : Multiset Nat} {start : Nat} (k : Nat) :
    ∀ {i : Nat} {cursor : DirectoryCursor}, CursorAt v img start i cursor →
      Reading v img held held (.slot v img start (i + k) held) (stepOf v img start k i)
        (directoryStep k cursor) := by
  induction k with
  | zero => exact fun h => reading_directoryNext h
  | succ k ih =>
    intro i cursor h
    refine (reading_directoryNext h).bind fun o hgood _ => ?_
    cases o with
    | none => exact reading_pure rfl rfl fun _ _ _ he => (by cases he)
    | some o =>
      obtain ⟨item, pos, cursor'⟩ := o
      have hnext := ih (hgood item pos cursor' rfl)
      rw [Nat.add_right_comm] at hnext
      exact hnext

theorem reading_directorySlot {held : Multiset Nat} (hd : d.Valid v) (i : Nat) :
    Reading v img held held (.slot v img d.start i held) (stepOf v img d.start i 0)
      (directorySlot d.start i) := by
  have hstart : ¬ (d.start ≠ 0 ∧ ¬ fat16ValidCluster v d.start) := by
    cases d with
    | root => exact fun h => h.1 rfl
    | sub start => exact fun h => h.2 hd
  refine (Reading.congr (reading_directoryStart d.start) (if_neg hstart)).andThen fun cursor hc _ =>
    ?_
  have hstep : Reading v img held held (.slot v img d.start (0 + i) held) _ _ :=
    reading_directoryStep i hc
  rw [Nat.zero_add] at hstep
  exact hstep

theorem stepOf_some {start : Nat} {x : DirItem × Nat} : ∀ {i : Nat},
    stepOf v img start k i = .ok (some x) → slotOf v img start (i + k) = .ok (some x) := by
  induction k with
  | zero => exact fun h => h
  | succ k ih =>
    intro i h
    obtain ⟨slot, -, h⟩ := except_bind_ok.mp h
    cases slot with
    | none => cases h
    | some _ =>
      have hnext := ih h
      rwa [Nat.add_right_comm] at hnext

theorem stepOf_of {start : Nat} : ∀ {i : Nat},
    (∀ j, j < k → ∃ x, slotOf v img start (i + j) = .ok (some x)) →
      stepOf v img start k i = slotOf v img start (i + k) := by
  induction k with
  | zero => exact fun _ => rfl
  | succ k ih =>
    intro i h
    obtain ⟨x, hx⟩ := h 0 (Nat.succ_pos k)
    rw [Nat.add_zero] at hx
    have hnext : stepOf v img start k (i + 1) = slotOf v img start (i + 1 + k) := by
      refine ih fun j hj => ?_
      rw [Nat.add_right_comm]
      exact h (j + 1) (Nat.succ_lt_succ hj)
    rw [Nat.add_assoc, Nat.add_comm 1 k] at hnext
    rw [stepOf, hx, ← hnext]
    rfl

/-! ## The two routes -/

theorem itemOf_pos {f : FatItem} (h : itemOf v img e item pos = .ok f) : f.entryPos = pos := by
  rw [itemOf] at h
  split at h
  · obtain ⟨dir, -, h⟩ := except_bind_ok.mp h
    cases h
    rfl
  · cases h
    rfl

/-- A lookup takes the first slot that shows the name. -/
theorem findIn_ok {name : List UInt8} {left : Nat} : ∀ {i : Nat} {item : FatItem},
    findIn v img dir name left i = .ok item → ∃ j, i ≤ j ∧ j < i + left ∧ ¬ Skipped (dir.item j) ∧
      nameMatches (dir.item j) name ∧
      (∀ k, i ≤ k → k < j → Skipped (dir.item k) ∨ ¬ nameMatches (dir.item k) name) ∧
      slotPosOf v img dir j = .ok item.entryPos ∧
      itemOf v img .eio (dir.item j) item.entryPos = .ok item := by
  induction left with
  | zero => intro i item h; cases h
  | succ left ih =>
    intro i item h
    rw [findIn] at h
    obtain ⟨-, h⟩ := except_guard_ok.mp h
    have hlater : Skipped (dir.item i) ∨ ¬ nameMatches (dir.item i) name →
        findIn v img dir name left (i + 1) = .ok item → ∃ j, i ≤ j ∧ j < i + (left + 1) ∧
          ¬ Skipped (dir.item j) ∧ nameMatches (dir.item j) name ∧
          (∀ k, i ≤ k → k < j → Skipped (dir.item k) ∨ ¬ nameMatches (dir.item k) name) ∧
          slotPosOf v img dir j = .ok item.entryPos ∧
          itemOf v img .eio (dir.item j) item.entryPos = .ok item := by
      intro hi h
      obtain ⟨j, hle, hlt, hshown, hname, hbefore, hmade⟩ := ih h
      refine ⟨j, by omega, by omega, hshown, hname, fun k hk hkj => ?_, hmade⟩
      rcases Nat.eq_or_lt_of_le hk with rfl | hk
      · exact hi
      · exact hbefore k hk hkj
    split at h
    · rename_i hskip
      exact hlater (Or.inl hskip) h
    · rename_i hshown
      split at h
      · rename_i hname
        obtain ⟨pos, hpos, h⟩ := except_bind_ok.mp h
        rw [itemOf_pos h]
        exact ⟨i, le_rfl, by omega, hshown, hname, fun k hk hki => absurd hki (by omega), hpos, h⟩
      · rename_i hname
        exact hlater (Or.inr hname) h

/-- What a loaded subdirectory holds. -/
theorem dirOf_ok {entry : DirItem} (h : dirOf v img entry = .ok dir) :
    fat16ValidCluster v dir.firstCluster ∧ dir.firstCluster = fat16GetFirstCluster entry ∧
      ∀ i, i < dir.total → ∃ pos, slotOf v img dir.firstCluster i =
        .ok (some (dir.item i, pos)) := by
  obtain ⟨-, h⟩ := except_guard_ok.mp h
  obtain ⟨hv, h⟩ := except_guard_ok.mp h
  obtain ⟨total, -, h⟩ := except_bind_ok.mp h
  obtain ⟨-, h⟩ := except_guard_ok.mp h
  obtain ⟨items, hitems, h⟩ := except_bind_ok.mp h
  cases h
  refine ⟨not_not.mp hv, rfl, fun i hi => (loadSlots_ok hitems).2 i (Nat.zero_le i) ?_⟩
  rw [Nat.zero_add]
  exact hi

/-- A directory as mounting or loading left it in memory. -/
inductive InMemory (s : FsState) : DirRef → FatDirectory → Prop where
  | root : InMemory s .root s.vol.rootDirectory
  | sub {s₀ : FsState} {entry : DirItem} {dir : FatDirectory} (hvol : s₀.vol = s.vol)
      (himg : s₀.dev.image = s.dev.image) (h : (fat16LoadFatDirectory entry s₀).1 = .ok dir) :
      InMemory s (.sub dir.firstCluster) dir

theorem InMemory.first (h : InMemory s d dir) (hr : Rooted s.vol) : dir.firstCluster = d.start ∧
      (dir.firstCluster = 0 → dir.sectorPos = rootSector s.vol.header) := by
  cases h with
  | root => exact ⟨hr.first, fun _ => hr.pos⟩
  | @sub s₀ entry _ hvol himg h =>
    refine ⟨rfl, fun h0 => ?_⟩
    have hdir := loadDirectory_ok h
    exact absurd h0 (valid_ne_zero (dirOf_ok hdir).1)

theorem InMemory.slot (h : InMemory s d dir) (hs : RootServed s.vol s.dev.image)
    (hi : i < dir.total) :
    ∃ pos, SlotAt s.vol s.dev.image d i pos ∧ dir.item i = DirItem.load s.dev.image pos := by
  cases h with
  | root =>
    have hlt := hi.trans_le hs.cached.total_le
    exact ⟨_, .root hlt, hs.cached.item i hlt⟩
  | @sub s₀ entry _ hvol himg h =>
    have hdir := loadDirectory_ok h
    rw [hvol, himg] at hdir
    obtain ⟨hv, -, hslots⟩ := dirOf_ok hdir
    obtain ⟨pos, hpos⟩ := hslots i hi
    exact ⟨pos, (slotOf_some_iff hs (d := .sub dir.firstCluster) hv).mp hpos⟩

/-- The two routes to a slot of a directory, on an accepted volume.

The position a lookup stores for slot `i`, the position the cursor reports in its step `i`
and the place of the 32 bytes that were loaded as item `i` are one; it is a multiple of 32
inside a sector, no two slots share it, and publishing an entry there reaches the cached root
for the slots of the root alone. -/
theorem slot_positions {s : FsState} {n : Nat} (hgeo : AcceptedGeometry s.vol n) (hr : Rooted s.vol)
    (hc : RootCached s.vol s.dev.image) {d : DirRef} {chain : List Nat} {f : Folder}
    (hdir : DirFolder s.vol s.dev.image d chain f) :
    (∀ i, i < f.count → (f.place i / 512 + 1) * 512 < 2 ^ 31 →
      (∀ dir, InMemory s d dir → Calm s (slotPos dir i s).2 → (slotPos dir i s).1 =
        .ok (f.place i)) ∧
      ((∀ j, j < i → (f.place j / 512 + 1) * 512 < 2 ^ 31) → Calm s (directorySlot d.start i s).2 →
        ∃ cursor, (directorySlot d.start i s).1 =
          .ok (some (DirItem.load s.dev.image (f.place i), f.place i, cursor))) ∧
      f.place i % 32 = 0 ∧ f.place i / 512 = (f.place i + 31) / 512 ∧
      ∀ item, (fat16Publish (f.place i) item s.vol).rootDirectory =
        match d with
        | .root =>
            { s.vol.rootDirectory with
              item := Function.update s.vol.rootDirectory.item i item
              total := if s.vol.rootDirectory.total ≤ i then i + 1 else s.vol.rootDirectory.total }
        | .sub _ => s.vol.rootDirectory) ∧
    (∀ i item pos cursor, (directorySlot d.start i s).1 = .ok (some (item, pos, cursor)) →
      i < f.count ∧ pos = f.place i ∧ item = DirItem.load s.dev.image pos) ∧
    (∀ dir, InMemory s d dir →
      (∀ i, i < dir.total → i < f.count ∧ dir.item i = DirItem.load s.dev.image (f.place i)) ∧
      ∀ name item, (fat16FindItemInDirectory dir name s).1 = .ok item →
        ∃ i, i < dir.total ∧ item.entryPos = f.place i ∧ ¬ Skipped (dir.item i) ∧
          nameMatches (dir.item i) name ∧
          ∀ j, j < i → Skipped (dir.item j) ∨ ¬ nameMatches (dir.item j) name) ∧
    (∀ i j, i < f.count → j < f.count → f.place i = f.place j → i = j) ∧
    (∀ d' chain' f', DirFolder s.vol s.dev.image d' chain' f' → d ≠ d' →
      List.Disjoint chain chain' → ∀ i j, i < f.count → j < f'.count → f.place i ≠ f'.place j) ∧
    ∀ s₀ capacity, (fat16Resolve s₀).1 = .ok () → AcceptedGeometry (fat16Resolve s₀).2.vol
      capacity → Rooted (fat16Resolve s₀).2.vol ∧
        RootCached (fat16Resolve s₀).2.vol (fat16Resolve s₀).2.dev.image := by
  have hs : RootServed s.vol s.dev.image := ⟨hr, hc, accepted_root hgeo⟩
  have hvalid : d.Valid s.vol := by
    cases hdir with
    | root => trivial
    | sub hchain => exact hchain.first_valid
  have hslot : ∀ {i pos : Nat} {item : DirItem}, slotOf s.vol s.dev.image d.start i =
    .ok (some (item, pos)) →
      i < f.count ∧ pos = f.place i ∧ item = DirItem.load s.dev.image pos := by
    intro i pos item h
    obtain ⟨hat, hitem⟩ := (slotOf_some_iff hs hvalid).mp h
    obtain ⟨hi, hpos⟩ := hdir.of_slot hat
    exact ⟨hi, hpos, hitem⟩
  have hthere : ∀ {i : Nat}, i < f.count → (f.place i / 512 + 1) * 512 < 2 ^ 31 →
      slotOf s.vol s.dev.image d.start i =
        .ok (some (DirItem.load s.dev.image (f.place i), f.place i)) :=
    fun hi hbelow => (slotOf_some_iff hs hvalid).mpr ⟨hdir.slotAt hi hbelow, rfl⟩
  have hcursor : ∀ i, ReadsTo 0 0 (.slot s.vol s.dev.image d.start i 0)
      (stepOf s.vol s.dev.image d.start i 0) s (directorySlot d.start i s).1
        (directorySlot d.start i s).2 :=
    fun i => (reading_directorySlot hvalid i).ran
  refine ⟨fun i hi hbelow => ⟨fun dir hmem hcalm => ?_, fun hbefore hcalm => ?_, hdir.aligned i, ?_,
    fun item => ?_⟩, fun i item pos cursor h => ?_, fun dir hmem =>
      ⟨fun i hi => ?_, fun name item h => ?_⟩,
    fun i j hi hj he => hdir.inj hi hj he,
    fun d' chain' f' h' hne hdisj i j hi hj => hdir.apart hgeo h' hne hdisj hi hj,
    fun s₀ capacity hok hgeo => ?_⟩
  · obtain ⟨hfirst, hroot⟩ := hmem.first hr
    have hread := (reading_slotPos dir i).ran (s := s)
    have hval := hread.calm_ok hcalm
    rw [(hdir.slotAt hi hbelow).slotPosOf hs hfirst hroot] at hval
    obtain ⟨pos, hpos, rfl⟩ := except_map_ok.mp hval
    exact hpos
  · have hstep : stepOf s.vol s.dev.image d.start i 0 =
        .ok (some (DirItem.load s.dev.image (f.place i), f.place i)) := by
      rw [stepOf_of fun j hj => ?_, Nat.zero_add, hthere hi hbelow]
      rw [Nat.zero_add]
      exact ⟨_, hthere (hj.trans hi) (hbefore j hj)⟩
    have hval := (hcursor i).calm_ok hcalm
    rw [hstep] at hval
    obtain ⟨o, ho, hview⟩ := except_map_ok.mp hval
    cases o with
    | none => cases hview
    | some o =>
      obtain ⟨item, pos, cursor⟩ := o
      obtain ⟨rfl, rfl⟩ := Prod.mk.inj (Option.some.inj hview)
      exact ⟨cursor, ho⟩
  · have h32 := hdir.aligned i
    omega
  · rw [publish_root]
    cases hdir with
    | root => exact publishRoot_in hr hi item
    | sub hchain =>
      rw [publishRoot_out hr (chainFolder_aligned _ _ i) fun j hj =>
        Nat.ne_of_lt (chain_behind_root hgeo hj hi)]
  · have hview := (hcursor i).ok_view h
    have hstep := stepOf_some hview
    rw [Nat.zero_add] at hstep
    exact hslot hstep
  · obtain ⟨pos, hat, hitem⟩ := hmem.slot hs hi
    obtain ⟨hlt, rfl⟩ := hdir.of_slot hat
    exact ⟨hlt, hitem⟩
  · have hread := (reading_findLoop dir name dir.total 0).ran (s := s)
    obtain ⟨i, -, hlt, hshown, hname, hbefore, hpos, -⟩ := findIn_ok (hread.ok_view h)
    rw [Nat.zero_add] at hlt
    obtain ⟨hfirst, hroot⟩ := hmem.first hr
    obtain ⟨pos, hat, -⟩ := hmem.slot hs hlt
    rw [hat.slotPosOf hs hfirst hroot] at hpos
    obtain ⟨-, hplace⟩ := hdir.of_slot hat
    refine ⟨i, hlt, ?_, hshown, hname, fun j hj => hbefore j (Nat.zero_le j) hj⟩
    exact (Except.ok.inj hpos).symm.trans hplace
  · have hserved := resolve_served hok (accepted_root hgeo)
    exact ⟨hserved.rooted, hserved.cached⟩

/-- The same volume with an empty root and empty clusters. -/
def plainDisk : Bytes := fun p =>
  if p / 512 = 1 ∨ p / 512 = 18 then [0xF8, 0xFF, 0xFF, 0xFF, 0x03, 0x00, 0xFF, 0xFF].getD
    (p % 512) 0
  else 0

def plainState : FsState := { sampleState with dev := { sampleState.dev with origin := plainDisk } }

theorem plain_folder : DirFolder sampleVolume plainDisk (.sub 2) [2, 3]
    (chainFolder sampleVolume [2, 3]) :=
  .sub ⟨rfl, by decide, ⟨by decide +kernel, show eocStart ≤ fatAt _ _ _ _ by decide +kernel⟩,
    by decide +kernel, by decide⟩

theorem plain_root : RootCached sampleVolume plainDisk := by
  have hentries : rootDirEntries sampleVolume.header = 16 := by decide +kernel
  have hsector : rootSector sampleVolume.header = 35 := by decide +kernel
  have hplace : ∀ i, (rootFolder sampleVolume).place i = 35 * 512 + i * 32 := by
    intro i
    change rootSector sampleVolume.header * 512 + i * 32 = _
    rw [hsector]
  have hzero : ∀ i k, i < 16 → k < 32 → plainDisk ((rootFolder sampleVolume).place i + k) = 0 := by
    intro i k hi hk
    rw [hplace]
    exact if_neg (by omega)
  refine ⟨fun i hi => ?_, Nat.zero_le _, fun i hi => absurd hi (Nat.not_lt_zero i), fun _ => ?_⟩
  · rw [hentries] at hi
    funext k
    exact (hzero i k hi k.isLt).symm
  · exact hzero 0 0 (by decide) (by decide)

/-- Slot 17 is the second slot of the second cluster. -/
theorem slot_positions_plain : ∃ cursor, (directorySlot 2 17 plainState).1 =
    .ok (some (DirItem.load plainDisk 18976, 18976, cursor)) := by
  have hgeo : AcceptedGeometry plainState.vol 4200 := by decide +kernel
  have hr : Rooted plainState.vol := ⟨rfl, by decide +kernel, Nat.zero_le _⟩
  have hplace : ∀ i, i ≤ 17 →
      ((chainFolder sampleVolume [2, 3]).place i / 512 + 1) * 512 < 2 ^ 31 := by decide +kernel
  have hcalm : Calm plainState (directorySlot 2 17 plainState).2 :=
    ⟨List.isEmpty_iff.mp (by decide +kernel), by decide +kernel⟩
  have h := (slot_positions hgeo hr plain_root plain_folder).1 17 (by decide +kernel)
    (hplace 17 le_rfl)
  have hpos : (chainFolder sampleVolume [2, 3]).place 17 = 18976 := by decide +kernel
  rw [hpos] at h
  exact h.2.1 (fun j hj => hplace j hj.le) hcalm

end Rorthox.Fat
