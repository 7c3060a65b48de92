import Rorthox.Fat.Plans
import Rorthox.Fat.Entry

/-!
# The driver carries out its plans

Every entry a lookup or a search for room can give lies where a directory entry can
lie, so the phases of the plans are within bounds; each mutating function of the
driver then acts as its plan says.
-/

namespace Rorthox.Fat

open Lib Disk Memory

/-- The root directory as mounting leaves it. -/
structure Rooted (v : FatPrivate) : Prop where
  first : v.rootDirectory.firstCluster = 0
  pos : v.rootDirectory.sectorPos = rootSector v.header
  total : v.rootDirectory.total ≤ rootDirEntries v.header

variable {v : FatPrivate} {img : Bytes} {n : Nat} {held : Multiset Nat}

theorem Rooted.end_le (hr : Rooted v) (hf : Fitted v n) :
    v.rootDirectory.sectorPos * sectorSize + rootDirEntries v.header * 32 ≤ intMax := by
  have h1 := Fitted.root_end v
  have h2 := hf.data_int
  rw [hr.pos, rootSector, Nat.add_comm (fatCopies v.header * sectorsPerFat v.header)]
  omega

/-! ## Places of entries -/

/-- What the slots of a directory need for their places to make sense. -/
def Placed (v : FatPrivate) (dir : FatDirectory) : Prop :=
  dir.firstCluster ≠ 0 ∨ (dir.sectorPos = rootSector v.header ∧ dir.total ≤
    rootDirEntries v.header ∧ dir.sectorPos * sectorSize + dir.total * 32 ≤ intMax)

theorem cluster_slot (v : FatPrivate) (i : Nat) :
    i * 32 % clusterBytes v = i % slotsPerCluster v * 32 := by
  have h : clusterBytes v = slotsPerCluster v * 32 := by
    unfold slotsPerCluster clusterBytes sectorSize
    omega
  rw [h, Nat.mul_mod_mul_right]

variable {dir : FatDirectory} {pos start : Nat} {item : DirItem}

theorem slotPosOf_slot {i : Nat} (hd : Placed v dir) (hi : i < dir.total)
    (h : slotPosOf v img dir i = .ok pos) : SlotPos v pos := by
  have h1 : 32 ≤ intMax := by decide
  have h2 : intMax < 2 ^ 32 := by decide
  unfold slotPosOf at h
  by_cases h0 : dir.firstCluster ≠ 0
  · rw [if_pos h0] at h
    obtain ⟨cluster, hc, h⟩ := except_bind_ok.mp h
    obtain ⟨hle, h⟩ := except_guard_ok.mp h
    cases h
    have hv := clusterAt_valid hc
    refine ⟨Or.inr ⟨cluster, i % slotsPerCluster v, hv, Nat.mod_lt _ (slotsPerCluster_pos hv), ?_⟩,
      by omega⟩
    rw [cluster_slot]
  · rw [if_neg h0] at h
    obtain ⟨hpos, htotal, hfit⟩ := hd.resolve_left h0
    cases h
    have hlt : dir.sectorPos * sectorSize + i * 32 < 2 ^ 32 := by omega
    rw [Nat.mod_eq_of_lt hlt]
    exact ⟨Or.inl ⟨i, by omega, by rw [hpos]⟩, by omega⟩

theorem dirCluster_valid (hs : fat16ValidCluster v start) (k : Nat) :
    ∀ {c : Nat}, dirCluster v img start k = .ok (some c) → fat16ValidCluster v c := by
  induction k with
  | zero =>
    intro c h
    cases h
    exact hs
  | succ k ih =>
    intro c h
    unfold dirCluster at h
    split at h
    · split at h
      · cases h
      · obtain ⟨hv, h⟩ := except_guard_ok.mp h
        cases h
        rw [not_or, not_not] at hv
        exact hv.1
    · exact ih h

theorem slotOf_slot (hr : Rooted v) {i : Nat} (hs : start ≠ 0 → fat16ValidCluster v start)
    (h : slotOf v img start i = .ok (some (item, pos))) : SlotPos v pos := by
  have h1 : 32 ≤ intMax := by decide
  unfold slotOf at h
  by_cases h0 : start = 0
  · rw [if_pos h0] at h
    split at h
    · cases h
    · obtain ⟨hle, h⟩ := except_guard_ok.mp h
      cases h
      exact ⟨Or.inl ⟨i, by omega, by rw [hr.pos]⟩, by omega⟩
  · rw [if_neg h0] at h
    split at h
    · cases h
    · cases h
    · rename_i cluster hc
      obtain ⟨hle, h⟩ := except_guard_ok.mp h
      obtain ⟨-, h⟩ := except_guard_ok.mp h
      cases h
      have hv := dirCluster_valid (hs h0) _ hc
      exact ⟨Or.inr ⟨cluster, _, hv, Nat.mod_lt _ (slotsPerCluster_pos hv), rfl⟩, by omega⟩

section

variable {start fuel i : Nat} {lfn : Bool}

theorem roomFrom_end (h : slotOf v img start i = .ok none) (slot : Option Nat) :
    roomFrom v img start (fuel + 1) i slot lfn = slot.elim (.error .enospc) .ok := by
  unfold roomFrom
  rw [h]
  cases slot <;> rfl

section

variable (h : slotOf v img start i = .ok (some (item, pos)))
include h

theorem roomFrom_used (hused : item.byte 0 ≠ 0) (slot : Option Nat) :
    roomFrom v img start (fuel + 1) i slot lfn =
      roomFrom v img start fuel (i + 1)
        (if slot = none ∧ item.byte 0 = 0xE5 ∧ item.attrib ≠ 0x0F ∧ ¬ lfn then some pos else slot)
        (fat16IsLfn item) := by
  rw [roomFrom.eq_def]
  simp only [h]
  exact if_neg hused

theorem roomFrom_kept (hfree : item.byte 0 = 0) (slot : Nat) :
    roomFrom v img start (fuel + 1) i (some slot) lfn = .ok slot := by
  unfold roomFrom
  rw [h]
  exact if_pos hfree

theorem roomFrom_free (hfree : item.byte 0 = 0) : roomFrom v img start (fuel + 1) i none lfn =
      (if lfn = true then .error .eio
      else do
        let after ← (slotOf v img start (i + 1)).mapError fun _ => Errno.eio
        match after with
        | none => .ok pos
        | some (entry, _) => if entry.byte 0 ≠ 0 then .error .eio else .ok pos) := by
  unfold roomFrom
  rw [h]
  exact if_pos hfree

end

/-- One turn of the search for a slot that succeeds: the directory ends here, this is its first free
slot, or the entry is passed. -/
theorem roomFrom_ok {slot : Option Nat} (h : roomFrom v img start (fuel + 1) i slot lfn = .ok pos) :
    slot = some pos ∨
    (∃ entry, slotOf v img start i = .ok (some (entry, pos)) ∧ entry.byte 0 = 0 ∧
      (slotOf v img start (i + 1) = .ok none ∨
        ∃ next p, slotOf v img start (i + 1) = .ok (some (next, p)) ∧ next.byte 0 = 0)) ∨
    ∃ entry p, slotOf v img start i = .ok (some (entry, p)) ∧ entry.byte 0 ≠ 0 ∧
      roomFrom v img start fuel (i + 1)
        (if slot = none ∧ entry.byte 0 = 0xE5 ∧ entry.attrib ≠ 0x0F ∧ ¬ lfn then some p else slot)
        (fat16IsLfn entry) = .ok pos := by
  cases hn : slotOf v img start i with
  | error e =>
    unfold roomFrom at h
    rw [hn] at h
    cases h
  | ok next =>
    cases next with
    | none =>
      rw [roomFrom_end hn] at h
      cases slot with
      | none => cases h
      | some p => exact Or.inl (congrArg some (Except.ok.inj h))
    | some e =>
      obtain ⟨entry, p⟩ := e
      by_cases h0 : entry.byte 0 = 0
      · cases slot with
        | some q =>
          rw [roomFrom_kept hn h0] at h
          exact Or.inl (congrArg some (Except.ok.inj h))
        | none =>
          rw [roomFrom_free hn h0] at h
          obtain ⟨-, h⟩ := except_guard_ok.mp h
          obtain ⟨after, hafter, h⟩ := except_bind_ok.mp h
          have hafter' := except_mapError_ok.mp hafter
          cases after with
          | none =>
            cases h
            exact Or.inr (Or.inl ⟨entry, rfl, h0, Or.inl hafter'⟩)
          | some e =>
            obtain ⟨next, q⟩ := e
            obtain ⟨hzero, h⟩ := except_guard_ok.mp h
            cases h
            exact Or.inr (Or.inl ⟨entry, rfl, h0, Or.inr ⟨next, q, hafter', not_not.mp hzero⟩⟩)
      · rw [roomFrom_used hn h0] at h
        exact Or.inr (Or.inr ⟨entry, p, rfl, h0, h⟩)

end

theorem roomFrom_slot (hr : Rooted v) {fuel : Nat} (hs : start ≠ 0 → fat16ValidCluster v start) :
    ∀ {i : Nat} {slot : Option Nat} {lfn : Bool} {pos : Nat},
      (∀ p, slot = some p → SlotPos v p) → roomFrom v img start fuel i slot lfn = .ok pos →
      SlotPos v pos := by
  induction fuel with
  | zero => intro i slot lfn pos _ h; cases h
  | succ fuel ih =>
    intro i slot lfn pos hslot h
    rcases roomFrom_ok h with hpos | ⟨entry, hn, -⟩ | ⟨entry, p, hn, -, hlater⟩
    · exact hslot pos hpos
    · exact slotOf_slot hr hs hn
    · refine ih (fun q hq => ?_) hlater
      split at hq
      · cases hq
        exact slotOf_slot hr hs hn
      · exact hslot q hq

theorem dirOf_valid (h : dirOf v img item = .ok dir) : fat16ValidCluster v dir.firstCluster := by
  obtain ⟨-, h⟩ := except_guard_ok.mp h
  obtain ⟨hv, h⟩ := except_guard_ok.mp h
  obtain ⟨total, -, h⟩ := except_bind_ok.mp h
  obtain ⟨-, h⟩ := except_guard_ok.mp h
  obtain ⟨items, -, h⟩ := except_bind_ok.mp h
  cases h
  exact not_not.mp hv

/-- An item from a lookup: where its entry lies, and the entry of a file. -/
structure Located (v : FatPrivate) (item : FatItem) : Prop where
  slot : SlotPos v item.entryPos
  dir : ∀ dir, item.node = .directory dir → fat16ValidCluster v dir.firstCluster

theorem itemOf_located {e : Errno} {entry : DirItem} {item : FatItem} (hs : SlotPos v pos)
    (h : itemOf v img e entry pos = .ok item) : Located v item := by
  unfold itemOf at h
  split at h
  · obtain ⟨dir, hd, h⟩ := except_bind_ok.mp h
    cases h
    refine ⟨hs, fun dir' he => ?_⟩
    cases he
    exact dirOf_valid (except_mapError_ok.mp hd)
  · cases h
    exact ⟨hs, fun dir he => (by cases he)⟩

theorem findIn_located {name : List UInt8} (hd : Placed v dir) {left : Nat} :
    ∀ {i : Nat} {item : FatItem}, i + left ≤ dir.total → findIn v img dir name left i = .ok item →
      Located v item := by
  induction left with
  | zero => intro i item _ h; cases h
  | succ left ih =>
    intro i item hle h
    unfold findIn at h
    split at h
    · cases h
    · split at h
      · exact ih (by omega) h
      · split at h
        · obtain ⟨pos, hp, h⟩ := except_bind_ok.mp h
          exact itemOf_located (slotPosOf_slot hd (by omega) hp) h
        · exact ih (by omega) h

theorem descendTo_located (path : List (List UInt8)) : ∀ {current item : FatItem},
    Located v current → descendTo v img current path = .ok item → Located v item := by
  induction path with
  | nil => intro current item hc h; cases h; exact hc
  | cons part path ih =>
    intro current item hc h
    unfold descendTo at h
    split at h
    · cases h
    · rename_i dir hdir
      obtain ⟨next, hf, h⟩ := except_bind_ok.mp h
      have hplaced : Placed v dir := by
        have h1 := (hc.dir dir hdir).1
        exact Or.inl (by omega)
      exact ih (findIn_located hplaced (by omega) hf) h

theorem Rooted.placed (hr : Rooted v) (hf : Fitted v n) : Placed v v.rootDirectory := by
  have h1 := hr.end_le hf
  have h2 := hr.total
  exact Or.inr ⟨hr.pos, h2, by omega⟩

theorem lookup_located (hr : Rooted v) (hf : Fitted v n) {path : List (List UInt8)} {item : FatItem}
    (h : lookup v img path = .ok item) : Located v item := by
  cases path with
  | nil => cases h
  | cons part path =>
    obtain ⟨next, hfind, h⟩ := except_bind_ok.mp h
    exact descendTo_located path (findIn_located (hr.placed hf) (by omega) hfind) h

/-! ## Carrying out the plans -/

theorem acting_truncate (hf : Fitted v n) (hs : SlotPos v pos) (item : DirItem) :
    Acting v img n held held (.val held) id (truncatePlan v img item pos)
      (fat16Truncate item pos) := by
  refine Acting.lookVol ((reading_collectChain item).act fun c _ hc => ?_)
  obtain ⟨chain, addr⟩ := c
  have hchain := ((chainOf_ok_iff item chain).mp hc).2.2.1
  refine Acting.finish (frees_chain addr) ?_
  have hrun : Acting v img n (listMem addr + held) (listMem addr + held)
      ⟨fun _ => listMem addr + held, fun _ => True, id⟩ id
      (.ok (truncatePhases v item pos chain, emptied item))
      (runPhases (truncatePhases v item pos chain) >>= fun _ => pure (emptied item)) :=
    acting_phases (truncatePhases_allowed hf hs item hchain.writable) rfl trivial
  rw [truncatePhases, runPhases, ← commitItem_eq, ← freeChain_eq, bind_assoc] at hrun
  exact hrun

theorem acting_existing (hf : Fitted v n) (mode : FileMode) (item : FatItem)
    (hs : SlotPos v item.entryPos) :
    Acting v img n (item.owned + held) (item.owned + held) (.item held) id
      (existingPlan v img mode item.plain) (openExisting mode item) := by
  unfold openExisting existingPlan FatItem.plain
  cases hnode : item.node with
  | directory dir => exact acting_raise rfl
  | file addr entry =>
    refine Acting.guard fun _ => ?_
    by_cases hw : mode = .write
    · rw [if_pos hw, if_pos hw]
      refine (acting_truncate hf hs entry).map (g := fun e => fileItem e item.entryPos)
        (fun _ => rfl) (fun e => ?_) fun _ _ => trivial
      show FatItem.owned _ + held = item.owned + held
      unfold FatItem.owned
      rw [hnode]
    · rw [if_neg hw, if_neg hw]
      have hread : Reading v img (item.owned + held) (item.owned + held) (.item held)
          ((checkChain v img entry).map fun _ => fileItem entry item.entryPos)
          (fat16CheckFileChain entry >>= fun _ => pure item) := by
        refine ((reading_checkChain entry).bind (g := fun _ => .ok (fileItem entry item.entryPos))
          fun u _ _ => ?_).congr ?_
        · refine reading_pure ?_ rfl trivial
          show FatItem.plain item = _
          unfold FatItem.plain
          rw [hnode]
          rfl
        · cases checkChain v img entry <;> rfl
      refine hread.acting.congr ?_
      cases checkChain v img entry <;> rfl

/-- The item of a new entry; only the heap can be in the way. -/
theorem itemOf_new {base ext : List UInt8} (hb : base.length ≤ 8) (he : ext.length ≤ 3)
    (slot : Nat) :
    itemOf v img .enomem (newEntry base ext) slot = .ok (fileItem (newEntry base ext) slot) := by
  unfold itemOf
  rw [if_neg]
  · rfl
  · rw [newEntry_attrib hb he]
    decide

theorem acting_create (hr : Rooted v) (path : List (List UInt8)) :
    Acting v img n held held (.item held) id (createPlan v img path) (fat16Create path) := by
  refine Acting.lookVol ?_
  have hparent : Reading v img held held (.parent held) (parentOf v img v.rootDirectory path)
      (createParent v.rootDirectory none path) := by
    have h : Reading v img (ownedParent none + held) held (.parent held)
        (parentOf v img v.rootDirectory path) (createParent v.rootDirectory none path) :=
      reading_createParent path v.rootDirectory none
    rwa [show ownedParent none + held = held from zero_add held] at h
  refine hparent.act fun p _ _ => ?_
  obtain ⟨dir, parent, last⟩ := p
  refine Acting.finish (frees_parent parent) ?_
  refine ((reading_directoryStart dir.firstCluster).act (g := fun _ => do
    let slot ← roomFrom v img dir.firstCluster directoryFuel 0 none false
    let name ← shortName last false [] []
    .ok ([commitPhase slot (newEntry name.1 name.2)], fileItem (newEntry name.1 name.2) slot))
    fun cursor hcur hstart => ?_).congr ?_
  · have hvalid := (except_guard_ok.mp hstart).1
    refine (reading_findSlot directoryFuel none false hcur).act fun slot _ hslot => ?_
    have hs : SlotPos v slot := roomFrom_slot hr (fun h0 => not_not.mp fun hv => hvalid ⟨h0, hv⟩)
      (fun p hp => (by cases hp)) hslot
    show Acting v img n _ _ _ _ (shortName last false [] [] >>= _) _
    cases hname : shortName last false [] [] with
    | error e => exact acting_raise rfl
    | ok name =>
      obtain ⟨base, ext⟩ := name
      obtain ⟨hb, he⟩ := shortName_lengths last (Nat.zero_le _) (Nat.zero_le _) hname
      have hitem : Reading v img (ownedParent parent + held) (ownedParent parent + held)
          (.item (ownedParent parent + held)) (itemOf v img .enomem (newEntry base ext) slot)
          (fat16NewFatItemForDirectoryItem .enomem (newEntry base ext) slot) :=
        reading_newItem (by decide) (newEntry base ext) slot
      rw [itemOf_new hb he] at hitem
      refine hitem.act (g := fun i => .ok ([commitPhase slot (newEntry base ext)], i))
        fun item _ _ => ?_
      refine Acting.undo (frees_item item) ?_
      rw [commitItem_eq, ← runPhases_singleton]
      refine acting_phases ?_ ?_ trivial
      · intro ph hph
        rw [List.mem_singleton.mp hph]
        exact allowed_commit hs _
      · show ownedParent parent + (item.owned + held) = item.owned + (ownedParent parent + held)
        rw [add_left_comm]
  · show _ = (if dir.firstCluster ≠ 0 ∧ ¬ fat16ValidCluster v dir.firstCluster then _ else _)
    split <;> rfl

/-- What opening does with the outcome of the lookup. -/
def foundPlan (v : FatPrivate) (img : Bytes) (path : List (List UInt8)) (mode : FileMode) :
    Except Errno FatItem → Except Errno (List Phase × FatItem)
  | .error e => if e = .enoent ∧ mode ≠ .read then createPlan v img path else .error e
  | .ok item => if mode ≠ .read then existingPlan v img mode item else .ok ([], item)

theorem openPlan_eq (v : FatPrivate) (img : Bytes) (path : List (List UInt8)) (mode : FileMode) :
    openPlan v img path mode = foundPlan v img path mode (lookup v img path) := by
  unfold openPlan
  cases lookup v img path <;> rfl

theorem acting_openItem (hr : Rooted v) (hf : Fitted v n) (path : List (List UInt8))
    {mode : FileMode} (hmode : mode ≠ .read) :
    Acting v img n held held (.item held) id (openPlan v img path mode) (openItem path mode) := by
  rw [openPlan_eq]
  refine (reading_directoryEntry path).attemptAct (g := foundPlan v img path mode)
    (fun item _ hitem => ?_) (fun e he => ?_) fun e he => ?_
  · rw [hitem]
    show Acting v img n _ _ _ _ (if mode ≠ .read then existingPlan v img mode item.plain else _)
      (if mode ≠ .read then _ else _)
    rw [if_pos hmode, if_pos hmode]
    have hloc := lookup_located hr hf hitem
    exact Acting.undo (frees_item item) (acting_existing hf mode item hloc.slot)
  · rw [he]
    show Acting v img n _ _ _ _ (if e = .enoent ∧ mode ≠ .read then _ else _)
      (if e = .enoent ∧ mode ≠ .read then _ else _)
    by_cases hc : e = .enoent ∧ mode ≠ .read
    · rw [if_pos hc, if_pos hc]
      exact acting_create hr path
    · rw [if_neg hc, if_neg hc]
      exact acting_raise rfl
  · exact if_neg fun h => he h.1

theorem le_sizeAfter (item : DirItem) (stop : Nat) : stop ≤ sizeAfter item stop := by
  unfold sizeAfter
  split <;> omega

theorem alloc_writable (hf : Fitted v n) {oldCount needed : Nat} {fresh : List Nat}
    (h : allocOf v img oldCount needed = .ok fresh) : ∀ c ∈ fresh, Writable v c := by
  intro c hc
  obtain ⟨⟨h2, hmax⟩, -⟩ := alloc_mem h c hc
  exact hf.writable h2 hmax

theorem acting_write (hf : Fitted v n) (desc : Nat) (d : FatFileDescriptor) (item : DirItem)
    (hs : SlotPos v d.item.entryPos) (data : Bytes) (count : Nat) :
    Acting v img n held held (.val held) (setPos desc (writeStart d item + count))
      (writePlan v img d item data count) (writeRest v desc d item data count) := by
  refine Acting.guard fun _ => Acting.guard fun _ => ?_
  refine (reading_collectChain item).act fun c _ hc => ?_
  obtain ⟨old, addr⟩ := c
  have hchain := ((chainOf_ok_iff item old).mp hc).2.2.1
  refine Acting.finish (frees_chain addr) (Acting.guard fun _ => ?_)
  refine (reading_allocate hf.max_lt _ _).act fun fresh _ hfresh => ?_
  obtain ⟨-, hlen, -⟩ := (allocOf_ok_iff _ _ fresh).mp hfresh
  show Acting v img n _ _ _ _ _ (storeBytes v item d.item.entryPos old fresh (writeStart d item)
    data count (sizeAfter item (writeStart d item + count)) >>= _)
  rw [storeBytes_eq hf.clusterBytes_pos]
  refine acting_run ?_ rfl trivial
  refine writePhases_allowed hf hs item hchain.writable (alloc_writable hf hfresh) data ?_
    (le_sizeAfter item _)
  rw [List.length_append]
  exact hlen

end Rorthox.Fat
