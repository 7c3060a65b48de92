import Rorthox.Fat.Image

/-!
# The reading functions compute what the bytes say

Each function of `Lookup` against its value in `Image`. Loops are followed turn by
turn; the cursor over a directory is tied to the index of the next slot.
-/

namespace Rorthox.Fat

open Lib Disk Memory

variable {v : FatPrivate} {img : Bytes} {held : Multiset Nat}

theorem le16_memcpy (out : Bytes) (pos : Nat) {n o : Nat} (h : o + 2 ≤ n) :
    le16 (memcpy out 0 img pos n) o = le16 img (pos + o) := by
  unfold le16
  rw [memcpy_of_lt (by omega) (by omega), memcpy_of_lt (by omega) (by omega)]
  rfl

variable {cluster i pos start total : Nat} {c : DirectoryCursor}

theorem reading_seek (h : pos ≤ intMax) :
    Reading v img held held (.val held) (.ok ()) (onDev (diskstreamerSeek pos)) := by
  refine reading_onDev fun d _ => ?_
  unfold diskstreamerSeek
  refine Prog.ends_refuse (fun hc => ?_) fun _ => readBy_pure
  omega

theorem reading_stream (h : pos + total ≤ intMax) :
    Reading v img held held (.val held) (.ok (memcpy (fun _ => 0) 0 img pos total))
      (onDev (diskstreamerRead pos total)) := by
  refine reading_onDev fun d hd => ?_
  rw [← hd]
  exact diskstreamerRead_spec h d

theorem reading_block {lba : Nat} (h : lba < lbaLimit) :
    Reading v img held held (.val held) (.ok fun i => img (lba * sectorSize + i))
      (onDev (diskReadBlock lba)) := by
  refine reading_onDev fun d hd => ?_
  rw [← hd]
  exact diskReadBlock_spec h d

theorem fatEntryPos_lt (v : FatPrivate) (h : cluster < 2 ^ 16) :
    fatEntryPos v 0 cluster + 2 ≤ intMax := by
  have h1 := le16_lt v.header 14
  unfold fatEntryPos reservedSectors intMax sectorSize
  omega

/-- A FAT entry is read as the two bytes that stand there. -/
theorem reading_fatEntry (h : cluster < 2 ^ 16) :
    Reading v img held held (.val held) (.ok (fatAt v img 0 cluster))
      (fat16GetFatEntry cluster) := by
  have hpos := fatEntryPos_lt v h
  have heq : (fat16GetFirstFatSector v * sectorSize + cluster * 2) % 2 ^ 32 =
      fatEntryPos v 0 cluster := by
    unfold fat16GetFirstFatSector fatEntryPos at *
    unfold intMax at hpos
    simp only [Nat.zero_mul, Nat.add_zero] at *
    omega
  refine Reading.lookVol ?_
  simp only [heq]
  refine (reading_seek (by omega)).andThen fun _ _ _ => ?_
  refine (reading_stream hpos).andThen fun buf _ hbuf => ?_
  obtain rfl : buf = _ := hbuf
  have hentry : le16 (memcpy (fun _ => 0) 0 img (fatEntryPos v 0 cluster) 2) 0 =
      fatAt v img 0 cluster := by
    rw [le16_memcpy _ _ le_rfl, Nat.add_zero]
    rfl
  rw [hentry]
  exact reading_pure rfl rfl trivial

theorem valid_lt (h : fat16ValidCluster v cluster) : cluster < 2 ^ 16 := by
  have h1 := h.2.2.2
  unfold eocStart at h1
  omega

theorem reading_clusterLoop (n : Nat) : ∀ {cluster : Nat}, cluster < 2 ^ 16 →
    Reading v img held held (.val held) (clusterWalk v img n cluster)
      (clusterForOffsetLoop v n cluster) := by
  induction n with
  | zero =>
    intro cluster _
    exact reading_pure rfl rfl trivial
  | succ n ih =>
    intro cluster hc
    refine (reading_fatEntry hc).andThen fun next _ hnext => ?_
    obtain rfl : next = _ := hnext
    refine Reading.guard fun hvalid => ih ?_
    exact valid_lt (not_not.mp hvalid)

theorem reading_clusterForOffset (start offset : Nat) :
    Reading v img held held (.val held) (clusterAt v img start offset)
      (fat16GetClusterForOffset start offset) := by
  refine Reading.lookVol ?_
  refine Reading.guard fun h1 => Reading.guard fun _ => reading_clusterLoop _ ?_
  rw [not_or, not_not] at h1
  exact valid_lt h1.2

theorem clusterWalk_valid (n : Nat) : ∀ {cluster c : Nat}, fat16ValidCluster v cluster →
    clusterWalk v img n cluster = .ok c → fat16ValidCluster v c := by
  induction n with
  | zero =>
    intro cluster c hv h
    cases h
    exact hv
  | succ n ih =>
    intro cluster c hv h
    unfold clusterWalk at h
    split at h
    · cases h
    · rename_i hn
      exact ih (not_not.mp hn) h

theorem clusterAt_valid {offset c : Nat} (h : clusterAt v img start offset = .ok c) :
    fat16ValidCluster v c := by
  unfold clusterAt at h
  split at h
  · cases h
  · rename_i hs
    rw [not_or, not_not] at hs
    split at h
    · cases h
    · exact clusterWalk_valid _ hs.2 h

theorem memcpy_memcpy (out : Bytes) (d : Nat) (z : Bytes) (pos n : Nat) :
    memcpy out d (memcpy z 0 img pos n) 0 n = memcpy out d img pos n := by
  funext p
  by_cases h : d ≤ p ∧ p < d + n
  · rw [memcpy_of_lt h.1 h.2, memcpy_of_lt h.1 h.2, memcpy_of_lt (by omega) (by omega)]
    congr 1
    omega
  · rw [memcpy_outside (by omega), memcpy_outside (by omega)]

theorem clusterPart_pos {within : Nat} (h : within < clusterBytes v) (ht : 0 < total) :
    0 < clusterPart v within total := by
  unfold clusterPart
  split <;> omega

theorem clusterPart_le (v : FatPrivate) (within total : Nat) :
    clusterPart v within total ≤ total := by
  unfold clusterPart
  split <;> omega

theorem clusterPart_end (within total : Nat) (h : within < clusterBytes v) :
    within + clusterPart v within total ≤ clusterBytes v := by
  unfold clusterPart
  split <;> omega

theorem reading_readLoop (fuel : Nat) :
    ∀ {current : Nat} (within total traversed done : Nat) (out : Bytes), current < 2 ^ 16 →
      Reading v img held held (.val held)
        (readWalk v img fuel current within total traversed done out)
        (readInternalLoop v fuel current within total traversed done out) := by
  induction fuel with
  | zero =>
    intro current within total traversed done out _
    cases total with
    | zero => exact reading_pure rfl rfl trivial
    | succ total => exact reading_raise rfl
  | succ fuel ih =>
    intro current within total traversed done out hc
    cases total with
    | zero => exact reading_pure rfl rfl trivial
    | succ total =>
      refine Reading.guard fun hfit => ?_
      refine (reading_seek (by omega)).andThen fun _ _ _ => ?_
      refine (reading_stream ?_).andThen fun buf _ hbuf => ?_
      · omega
      · obtain rfl : buf = _ := hbuf
        rw [memcpy_memcpy]
        by_cases hlast : total + 1 - clusterPart v within (total + 1) = 0
        · rw [if_pos hlast, if_pos hlast]
          exact reading_pure rfl rfl trivial
        · rw [if_neg hlast, if_neg hlast]
          refine (reading_fatEntry hc).andThen fun next _ hnext => ?_
          obtain rfl : next = _ := hnext
          refine Reading.guard fun hnext => ih _ _ _ _ _ ?_
          rw [not_or, not_not] at hnext
          exact valid_lt hnext.1

theorem reading_readInternal (start offset total : Nat) :
    Reading v img held held (.val held) (readAt v img start offset total)
      (fat16ReadInternal start offset total) := by
  refine Reading.lookVol (Reading.guard fun _ => ?_)
  refine (reading_clusterForOffset start offset).bind fun current _ hc => ?_
  exact reading_readLoop _ _ _ _ _ _ (valid_lt (clusterAt_valid hc))

/-! ## The cursor -/

theorem limit_pos_spc (h : fat16ValidCluster v cluster) : 0 < sectorsPerCluster v.header := by
  have h1 := h.1
  have h2 := h.2.1
  by_contra h0
  have h3 : sectorsPerCluster v.header = 0 := by omega
  unfold fat16ClusterLimit at h2
  simp only [h3, true_or, if_true] at h2
  omega

theorem slotsPerCluster_pos (h : fat16ValidCluster v cluster) : 0 < slotsPerCluster v := by
  have h1 := limit_pos_spc h
  unfold slotsPerCluster clusterBytes sectorSize
  omega

/-- Where the cursor stands before slot `i`: in the root, or in cluster `k` of the
directory with `index` slots of it behind it. -/
structure CursorAt (v : FatPrivate) (img : Bytes) (start i : Nat) (cursor : DirectoryCursor) :
    Prop where
  place :
    (start = 0 ∧ cursor.cluster = 0 ∧ cursor.sector = v.rootDirectory.sectorPos ∧
      cursor.slots = rootDirEntries v.header ∧ cursor.index = i ∧ i ≤ rootDirEntries v.header) ∨
    (start ≠ 0 ∧ ∃ k, dirCluster v img start k = .ok (some cursor.cluster) ∧
      fat16ValidCluster v cursor.cluster ∧
      cursor.sector = fat16ClusterToSector v cursor.cluster ∧ cursor.slots = slotsPerCluster v ∧
      cursor.clusters = k + 1 ∧ cursor.index ≤ cursor.slots ∧ i = k * cursor.slots + cursor.index)
  cache : ∀ sector, cursor.loadedSector = some sector → sector * sectorSize + sectorSize ≤ intMax ∧
    ∀ j, j < sectorSize → cursor.buffer j = img (sector * sectorSize + j)

theorem reading_directoryStart (start : Nat) :
    Reading v img held held
      (⟨fun _ => held, CursorAt v img start 0, fun _ => ()⟩ : Shape DirectoryCursor Unit)
      (if start ≠ 0 ∧ ¬ fat16ValidCluster v start then .error .eio else .ok ())
      (fat16DirectoryStart start) := by
  refine Reading.lookVol ?_
  by_cases h0 : start = 0
  · rw [if_neg (by simp [h0]), if_neg (by simp [h0])]
    exact reading_pure rfl rfl ⟨Or.inl ⟨h0, h0, rfl, rfl, rfl, Nat.zero_le _⟩,
      fun sector h => (by cases h)⟩
  · rw [if_pos h0]
    refine Reading.congr (Reading.guard (c := ¬ fat16ValidCluster v start) fun hv => ?_)
      (if_congr (by simp [h0]) rfl rfl)
    exact reading_pure rfl rfl ⟨Or.inr ⟨h0, 0, rfl, not_not.mp hv, rfl, rfl, rfl, Nat.zero_le _,
      by simp⟩, fun sector h => (by cases h)⟩

/-- Slot `i` exists, or the directory ends before it. -/
def reachSlot (v : FatPrivate) (img : Bytes) (start i : Nat) : Except Errno (Option Unit) :=
  if start = 0 then .ok (if rootDirEntries v.header ≤ i then none else some ())
  else (dirCluster v img start (i / slotsPerCluster v)).map (Option.map fun _ => ())

theorem map_guard {α β : Type} {c : Prop} [Decidable c] {e : Errno} {a : α} (f : α → β) :
    (if c then Except.error e else Except.ok a).map f = if c then .error e else .ok (f a) := by
  split_ifs <;> rfl

theorem reading_cursorAdvance {cursor : DirectoryCursor} (h : CursorAt v img start i cursor) :
    Reading v img held held
      (⟨fun _ => held, fun o => ∀ c, o = some c → CursorAt v img start i c ∧ c.index < c.slots,
        Option.map fun _ => ()⟩ : Shape (Option DirectoryCursor) (Option Unit))
      (reachSlot v img start i) (cursorAdvance v cursor) := by
  unfold cursorAdvance reachSlot
  rcases h.place with ⟨h0, hc, hsec, hslots, hidx, hle⟩ |
    ⟨h0, k, hk, hvalid, hsec, hslots, hcl, hle, hi⟩
  · rw [if_pos h0]
    by_cases hend : cursor.index ≠ cursor.slots
    · rw [if_pos hend, if_neg (by omega)]
      refine reading_pure rfl rfl fun c he => ?_
      cases he
      exact ⟨h, by omega⟩
    · rw [if_neg hend, if_pos hc, if_pos (by omega)]
      exact reading_pure rfl rfl fun c he => (by cases he)
  · have hpos := slotsPerCluster_pos hvalid
    rw [if_neg h0]
    by_cases hend : cursor.index ≠ cursor.slots
    · have hdiv : i / slotsPerCluster v = k := by
        rw [hi, hslots, Nat.mul_comm, Nat.mul_add_div hpos, Nat.div_eq_of_lt (by omega),
          Nat.add_zero]
      rw [if_pos hend, hdiv, hk]
      refine reading_pure rfl rfl fun c he => ?_
      cases he
      exact ⟨h, by omega⟩
    · have hdiv : i / slotsPerCluster v = k + 1 := by
        have h1 : i = (k + 1) * slotsPerCluster v := by
          rw [hi, Nat.succ_mul, hslots]
          omega
        rw [h1, Nat.mul_div_cancel _ hpos]
      have hc : cursor.cluster ≠ 0 := by
        have h1 := hvalid.1
        omega
      rw [if_neg hend, if_neg hc, hdiv, dirCluster, hk]
      refine (reading_fatEntry (valid_lt hvalid)).andThen fun next _ hnext => ?_
      obtain rfl : next = _ := hnext
      dsimp only
      by_cases heoc : eocStart ≤ fatAt v img 0 cursor.cluster
      · rw [if_pos heoc, if_pos heoc]
        exact reading_pure rfl rfl fun c he => (by cases he)
      · rw [if_neg heoc, if_neg heoc, hcl]
        rw [map_guard]
        refine Reading.guard fun hbad => ?_
        refine reading_pure rfl rfl fun c he => ?_
        cases he
        refine ⟨⟨Or.inr ⟨h0, k + 1, ?_, ?_, rfl, hslots, rfl, Nat.zero_le _, ?_⟩, h.cache⟩, ?_⟩
        · rw [dirCluster, hk]
          dsimp only
          rw [if_neg heoc, if_neg hbad]
        · rw [not_or, not_not] at hbad
          exact hbad.1
        · show i = (k + 1) * cursor.slots + 0
          rw [hi, Nat.succ_mul]
          omega
        · show 0 < cursor.slots
          omega

def Shape.slot (v : FatPrivate) (img : Bytes) (start i : Nat) (h : Multiset Nat) :
    Shape (Option (DirItem × Nat × DirectoryCursor)) (Option (DirItem × Nat)) :=
  ⟨fun _ => h, fun o => ∀ item pos c, o = some (item, pos, c) → CursorAt v img start (i + 1) c,
    Option.map fun o => (o.1, o.2.1)⟩

theorem load_memcpy (z : Bytes) (h : pos % 32 = 0) :
    DirItem.load (memcpy z 0 img (pos / sectorSize * sectorSize) sectorSize) (pos % sectorSize) =
      DirItem.load img pos := by
  funext i
  have hi := i.isLt
  have hdiv := Nat.div_add_mod pos sectorSize
  unfold DirItem.load
  unfold sectorSize at *
  rw [memcpy_of_lt (by omega) (by omega)]
  congr 1
  omega

theorem load_cached {buffer : Bytes} (h : pos % 32 = 0)
    (hb : ∀ j, j < sectorSize → buffer j = img (pos / sectorSize * sectorSize + j)) :
    DirItem.load buffer (pos % sectorSize) = DirItem.load img pos := by
  funext i
  have hi := i.isLt
  have hdiv := Nat.div_add_mod pos sectorSize
  unfold DirItem.load
  rw [hb _ (by unfold sectorSize; omega)]
  congr 1
  unfold sectorSize at *
  omega

/-- The cursor moves one slot on. -/
theorem CursorAt.next {c' : DirectoryCursor} (h : CursorAt v img start i c)
    (hlt : c.index < c.slots) (hidx : c'.index = c.index + 1) (hcl : c'.cluster = c.cluster)
    (hsec : c'.sector = c.sector) (hslots : c'.slots = c.slots) (hn : c'.clusters = c.clusters)
    (hcache : ∀ sector, c'.loadedSector = some sector → sector * sectorSize + sectorSize ≤ intMax ∧
      ∀ j, j < sectorSize → c'.buffer j = img (sector * sectorSize + j)) :
    CursorAt v img start (i + 1) c' := by
  refine ⟨?_, hcache⟩
  rw [hidx, hcl, hsec, hslots, hn]
  rcases h.place with ⟨h1, h2, h3, h4, h5, h6⟩ | ⟨h1, k, h2, h3, h4, h5, h6, h7, h8⟩
  · exact Or.inl ⟨h1, h2, h3, h4, by omega, by omega⟩
  · exact Or.inr ⟨h1, k, h2, h3, h4, h5, h6, by omega, by omega⟩

theorem reading_stream_refused (h : intMax < pos ∨ intMax - pos < total) :
    Reading v img held held (.val held) (.error .einvarg) (onDev (diskstreamerRead pos total)) := by
  refine reading_onDev fun d _ => ?_
  unfold Prog.Ends
  rw [diskstreamerRead_refused h]
  exact ⟨.refl d, Or.inl ⟨rfl, rfl⟩⟩

theorem CursorAt.slot_eq (h : CursorAt v img start i c) (hlt : c.index < c.slots) :
    slotOf v img start i =
      if intMax - 32 < c.pos then .error .eio
      else if c.cluster = 0 then .ok (some (v.rootDirectory.item c.index, c.pos))
      else if intMax - c.pos / sectorSize * sectorSize < sectorSize then .error .einvarg
      else .ok (some (DirItem.load img c.pos, c.pos)) := by
  unfold slotOf DirectoryCursor.pos
  rcases h.place with ⟨h1, h2, h3, h4, h5, h6⟩ | ⟨h1, k, h2, h3, h4, h5, h6, h7, h8⟩
  · rw [if_pos h1, if_neg (by omega), if_pos h2, h3, h5]
  · have hpos := slotsPerCluster_pos h3
    have hdiv : i / slotsPerCluster v = k := by
      rw [h8, h5, Nat.mul_comm, Nat.mul_add_div hpos, Nat.div_eq_of_lt (by omega), Nat.add_zero]
    have hmod : i % slotsPerCluster v = c.index := by
      rw [h8, h5, Nat.mul_comm, Nat.mul_add_mod, Nat.mod_eq_of_lt (by omega)]
    have hc0 : c.cluster ≠ 0 := by
      have h9 := h3.1
      omega
    rw [if_neg h1, hdiv, h2, hmod, if_neg hc0, h4]

theorem reading_fetchSlot (h : CursorAt v img start i c) (hlt : c.index < c.slots) :
    Reading v img held held (.slot v img start i held) (slotOf v img start i) (fetchSlot v c) := by
  have halign : c.pos % 32 = 0 := by
    unfold DirectoryCursor.pos sectorSize
    omega
  rw [h.slot_eq hlt]
  refine Reading.guard fun hfit => ?_
  by_cases h0 : c.cluster = 0
  · rw [if_pos h0, if_pos h0]
    refine reading_pure rfl rfl fun item pos c' he => ?_
    cases he
    exact h.next hlt rfl rfl rfl rfl rfl h.cache
  · rw [if_neg h0, if_neg h0]
    by_cases hload : c.loadedSector ≠ some (c.pos / sectorSize)
    · rw [if_pos hload]
      have hle := Nat.div_mul_le_self c.pos sectorSize
      refine (reading_seek (by omega)).andThen fun _ _ _ => ?_
      by_cases hend : intMax - c.pos / sectorSize * sectorSize < sectorSize
      · rw [if_pos hend]
        exact (reading_stream_refused (Or.inr hend)).bind (g := fun _ => .error .einvarg)
          fun _ _ he => (by cases he)
      · rw [if_neg hend]
        refine (reading_stream (by omega)).andThen fun buffer _ hbuf => ?_
        obtain rfl : buffer = _ := hbuf
        rw [load_memcpy _ halign]
        refine reading_pure rfl rfl fun item pos c' he => ?_
        cases he
        refine h.next hlt rfl rfl rfl rfl rfl fun sector hs => ?_
        cases hs
        refine ⟨by omega, fun j hj => ?_⟩
        show memcpy (fun _ => 0) 0 img (c.pos / sectorSize * sectorSize) sectorSize j = _
        rw [memcpy_of_lt (by omega) (by omega)]
        rfl
    · rw [if_neg hload]
      rw [not_not] at hload
      obtain ⟨hin, hbuf⟩ := h.cache _ hload
      rw [if_neg (by omega), load_cached halign hbuf]
      refine reading_pure rfl rfl fun item pos c' he => ?_
      cases he
      exact h.next hlt rfl rfl rfl rfl rfl h.cache

theorem reachSlot_bind (v : FatPrivate) (img : Bytes) (start i : Nat) :
    (reachSlot v img start i >>= fun o => if o = none then .ok none else slotOf v img start i) =
      slotOf v img start i := by
  by_cases h0 : start = 0
  · unfold reachSlot
    rw [if_pos h0]
    by_cases hle : rootDirEntries v.header ≤ i
    · rw [if_pos hle]
      show Except.ok none = _
      unfold slotOf
      rw [if_pos h0, if_pos hle]
    · rw [if_neg hle]
      rfl
  · unfold reachSlot
    rw [if_neg h0]
    cases hd : dirCluster v img start (i / slotsPerCluster v) with
    | error e =>
      show Except.error e = _
      unfold slotOf
      rw [if_neg h0, hd]
    | ok o =>
      cases o with
      | none =>
        show Except.ok none = _
        unfold slotOf
        rw [if_neg h0, hd]
      | some c => rfl

/-- One call of `fat16_directory_next` gives slot `i` and leaves the cursor before slot
`i + 1`. -/
theorem reading_directoryNext {cursor : DirectoryCursor} (h : CursorAt v img start i cursor) :
    Reading v img held held (.slot v img start i held) (slotOf v img start i)
      (fat16DirectoryNext cursor) := by
  refine Reading.lookVol ?_
  rw [← reachSlot_bind]
  refine (reading_cursorAdvance h).bind ?_
  intro o hgood _
  cases o with
  | none => exact reading_pure rfl rfl fun _ _ _ he => (by cases he)
  | some c => exact reading_fetchSlot (hgood c rfl).1 (hgood c rfl).2

/-! ## Loading a directory -/

theorem reading_totalLoop (fuel : Nat) : ∀ {i : Nat} {cursor : DirectoryCursor},
    CursorAt v img start i cursor →
      Reading v img held held (.val held) (countSlots v img start fuel i)
        (totalItemsLoop fuel cursor i) := by
  induction fuel with
  | zero => intro i cursor _; exact reading_raise rfl
  | succ fuel ih =>
    intro i cursor h
    refine (reading_directoryNext h).bind fun o hgood _ => ?_
    cases o with
    | none => exact reading_pure rfl rfl trivial
    | some o =>
      obtain ⟨item, pos, cursor'⟩ := o
      show Reading v img held held _ (if item.byte 0 = 0 then _ else _)
        (if item.byte 0 = 0 then _ else _)
      by_cases h0 : item.byte 0 = 0
      · rw [if_pos h0, if_pos h0]
        exact reading_pure rfl rfl trivial
      · rw [if_neg h0, if_neg h0]
        exact Reading.guard fun _ => ih (hgood _ _ _ rfl)

theorem reading_totalItems (h : fat16ValidCluster v cluster) :
    Reading v img held held (.val held) (countSlots v img cluster directoryFuel 0)
      (fat16GetTotalItemsForDirectory (fat16ClusterToSector v cluster)) := by
  have hspc := limit_pos_spc h
  have h2 := h.1
  have hoff : fat16ClusterToSector v cluster - v.rootDirectory.endingSectorPos =
      (cluster - 2) * sectorsPerCluster v.header := by
    unfold fat16ClusterToSector
    omega
  have hback : 2 + (cluster - 2) * sectorsPerCluster v.header / sectorsPerCluster v.header =
      cluster := by
    rw [Nat.mul_div_cancel _ hspc]
    omega
  refine Reading.lookVol ?_
  dsimp only
  rw [hoff, hback]
  refine Reading.pass ?_ (Reading.pass (not_not.mpr h) ?_)
  · rw [not_or, not_or]
    refine ⟨by omega, ?_, ?_⟩
    · unfold fat16ClusterToSector
      omega
    · rw [not_not, Nat.mul_mod_left]
  · refine (Reading.congr (reading_directoryStart cluster) (if_neg ?_)).andThen fun cursor hc _ =>
      ?_
    · exact fun hbad => hbad.2 h
    · exact reading_totalLoop _ hc

theorem reading_loadLoop (left : Nat) :
    ∀ {i : Nat} {cursor : DirectoryCursor} (items : Nat → DirItem), CursorAt v img start i cursor →
      Reading v img held held (.val held) (loadSlots v img start left i items)
        (loadItemsLoop left i cursor items) := by
  induction left with
  | zero => intro i cursor items _; exact reading_pure rfl rfl trivial
  | succ left ih =>
    intro i cursor items h
    refine ((reading_directoryNext h).recode fun e _ => (by decide)).bind fun o hgood _ => ?_
    cases o with
    | none => exact reading_raise rfl
    | some o => exact ih _ (hgood _ _ _ rfl)

theorem reading_loadDirectory (item : DirItem) :
    Reading v img held held (.dir held) (dirOf v img item) (fat16LoadFatDirectory item) := by
  refine Reading.lookVol (Reading.guard fun _ => ?_)
  refine (reading_kzalloc (by decide) 20).andThen fun addr _ _ => ?_
  refine Reading.undo (frees_kfreeAt addr) ?_
  refine Reading.guard fun hvalid => ?_
  rw [not_not] at hvalid
  refine (reading_totalItems hvalid).bind fun total _ _ => ?_
  refine Reading.guard fun _ => ?_
  by_cases h0 : total = 0
  · rw [if_pos h0]
    subst h0
    refine reading_pure rfl ?_ trivial
    show {addr} + 0 + held = {addr} + held
    rw [add_zero]
  · rw [if_neg h0]
    refine (reading_kzalloc (by decide) (total * 32)).andThen fun itemAddr haddr _ => ?_
    refine Reading.undo (frees_kfreeAt itemAddr) ?_
    refine (Reading.congr (reading_directoryStart _) (if_neg fun hbad => hbad.2 hvalid)).andThen
      fun cursor hc _ => ?_
    refine (reading_loadLoop total _ hc).bind fun items _ _ => ?_
    refine reading_pure rfl ?_ trivial
    have haddr : itemAddr ≠ 0 := haddr
    show {addr} + (if itemAddr ≠ 0 then {itemAddr} else 0) + held = {itemAddr} + ({addr} + held)
    rw [if_pos haddr, ← add_assoc, add_comm ({addr} : Multiset Nat)]

/-- A directory that was loaded is the one the entry names. -/
theorem loadDirectory_ok {s : FsState} {entry : DirItem} {dir : FatDirectory}
    (h : (fat16LoadFatDirectory entry s).1 = .ok dir) :
    dirOf s.vol s.dev.image entry = .ok dir.plain :=
  ((reading_loadDirectory entry).ran (s := s)).ok_view h

theorem reading_newItem {e : Errno} (he : e ≠ .enoent) (item : DirItem) (pos : Nat) :
    Reading v img held held (.item held) (itemOf v img e item pos)
      (fat16NewFatItemForDirectoryItem e item pos) := by
  refine (reading_kzalloc he 12).andThen fun addr _ _ => ?_
  unfold itemOf
  by_cases hdir : item.attrib &&& fileSubdirectory ≠ 0
  · rw [if_pos hdir, if_pos hdir]
    refine Reading.undo (frees_kfreeAt addr) ?_
    refine ((reading_loadDirectory item).recode fun _ _ => he).bind fun dir _ _ => ?_
    refine reading_pure rfl ?_ trivial
    show {addr} + dir.owned + held = dir.owned + ({addr} + held)
    rw [← add_assoc, add_comm ({addr} : Multiset Nat)]
  · rw [if_neg hdir, if_neg hdir]
    refine Reading.undo (frees_kfreeAt addr) ?_
    refine (reading_kzalloc he 32).andThen fun itemAddr _ _ => ?_
    refine reading_pure rfl ?_ trivial
    show {addr} + {itemAddr} + held = {itemAddr} + ({addr} + held)
    rw [← add_assoc, add_comm ({addr} : Multiset Nat)]

/-! ## Lookup -/

theorem reading_slotPos (dir : FatDirectory) (i : Nat) :
    Reading v img held held (.val held) (slotPosOf v img dir i) (slotPos dir i) := by
  refine Reading.lookVol ?_
  unfold slotPosOf
  by_cases h0 : dir.firstCluster ≠ 0
  · rw [if_pos h0, if_pos h0]
    refine (reading_clusterForOffset _ _).bind fun cluster _ _ => Reading.guard fun _ => ?_
    exact reading_pure rfl rfl trivial
  · rw [if_neg h0, if_neg h0]
    exact reading_pure rfl rfl trivial

theorem reading_findLoop (dir : FatDirectory) (name : List UInt8) (left : Nat) : ∀ i,
    Reading v img held held (.item held) (findIn v img dir name left i)
      (findItemLoop dir name left i) := by
  induction left with
  | zero => intro i; exact reading_raise rfl
  | succ left ih =>
    intro i
    unfold findIn findItemLoop
    by_cases h0 : (dir.item i).byte 0 = 0
    · rw [if_pos h0, if_pos h0]
      exact reading_raise rfl
    · rw [if_neg h0, if_neg h0]
      by_cases hs : Skipped (dir.item i)
      · rw [if_pos hs, if_pos hs]
        exact ih (i + 1)
      · rw [if_neg hs, if_neg hs]
        by_cases hn : nameMatches (dir.item i) name = true
        · rw [if_pos hn, if_pos hn]
          exact (reading_slotPos dir i).bind fun pos _ _ => reading_newItem (by decide) _ pos
        · rw [if_neg hn, if_neg hn]
          exact ih (i + 1)

theorem findIn_plain (v : FatPrivate) (img : Bytes) (dir : FatDirectory) (name : List UInt8)
    (left : Nat) : ∀ i, findIn v img dir.plain name left i = findIn v img dir name left i := by
  induction left with
  | zero => intro i; rfl
  | succ left ih =>
    intro i
    unfold findIn
    rw [ih]
    rfl

/-- The addresses of a plain item do not matter to a descent. -/
theorem descendTo_cons (v : FatPrivate) (img : Bytes) (item : FatItem) (part : List UInt8)
    (path : List (List UInt8)) :
    descendTo v img item.plain (part :: path) =
      match item.node with
      | .file _ _ => .error .eio
      | .directory dir =>
          findIn v img dir part dir.total 0 >>= fun item => descendTo v img item path := by
  rw [descendTo]
  unfold FatItem.plain
  cases item.node with
  | file addr entry => rfl
  | directory dir =>
    show (findIn v img dir.plain part dir.total 0 >>= _) = _
    rw [findIn_plain]

theorem reading_descend (path : List (List UInt8)) : ∀ item : FatItem,
    Reading v img (item.owned + held) held (.item held) (descendTo v img item.plain path)
      (descend item path) := by
  induction path with
  | nil =>
    intro item
    exact reading_pure rfl rfl trivial
  | cons part path ih =>
    intro item
    rw [descendTo_cons]
    unfold descend
    cases hn : item.node with
    | file addr entry =>
      intro s hv himg
      have hfree := frees_item item
      refine ⟨hfree.quiet s, fun base m h => ?_, fun a ha => (by cases ha),
        Or.inl ⟨hfree.calm s, rfl⟩⟩
      rw [add_assoc] at h
      exact (hfree s).2.2.2.2.2 base _ h
    | directory dir =>
      have hfind : Reading v img (item.owned + held) held (.item held)
          (findIn v img dir part dir.total 0)
          (Prog.finish (fat16FindItemInDirectory dir part) (fat16FatItemFree item)) := by
        refine Reading.finish (frees_item item) ?_
        refine (reading_findLoop dir part dir.total 0).reown fun next => ?_
        show item.owned + (next.owned + held) = next.owned + (item.owned + held)
        rw [add_left_comm]
      exact hfind.bind fun next _ _ => ih next

theorem reading_directoryEntry (path : List (List UInt8)) :
    Reading v img held held (.item held) (lookup v img path) (fat16GetDirectoryEntry path) := by
  refine Reading.lookVol ?_
  cases path with
  | nil => exact reading_raise rfl
  | cons part path =>
    exact (reading_findLoop _ part _ 0).bind fun item _ _ => reading_descend path item

end Rorthox.Fat
