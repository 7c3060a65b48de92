import Rorthox.Fat.PlanSpec
import Rorthox.Fat.Layout

/-!
# What the driver's functions do

One statement for each function of `struct filesystem`: how it can end from any
tidy state, in terms of the plans and of the values read off the disk.
-/

namespace Rorthox.Fat

open Lib Disk Memory

variable {v : FatPrivate} {img : Bytes} {held : Multiset Nat}

/-! ## The check before a mutation -/

/-- Sector `i` of both copies of the FAT. -/
def fatSectorsEqual (h img : Bytes) (i : Nat) : Bool :=
  sectorsEqual (fun j => img ((reservedSectors h + i) * sectorSize + j))
    fun j => img ((reservedSectors h + sectorsPerFat h + i) * sectorSize + j)

/-- The two copies of the FAT are the same bytes. -/
def FatsEqual (h img : Bytes) : Prop :=
  ∀ i, i < sectorsPerFat h * sectorSize →
    img (reservedSectors h * sectorSize + i) =
      img ((reservedSectors h + sectorsPerFat h) * sectorSize + i)

/-- What the comparison of the sectors from `i` on gives. -/
def compareOf (h img : Bytes) (left i : Nat) : Except Errno Unit :=
  if ∀ j, j < left → fatSectorsEqual h img (i + j) = true then .ok () else .error .eio

theorem sectorsEqual_iff (a b : Bytes) :
    sectorsEqual a b = true ↔ ∀ i, i < sectorSize → a i = b i := by
  unfold sectorsEqual
  rw [List.all_eq_true]
  constructor
  · intro h i hi
    exact eq_of_beq (h i (List.mem_range.mpr hi))
  · intro h i hi
    exact beq_iff_eq.mpr (h i (List.mem_range.mp hi))

theorem compareOf_all {h : Bytes} :
    (compareOf h img (sectorsPerFat h) 0 = .ok ()) ↔ FatsEqual h img := by
  unfold compareOf
  constructor
  · intro hc i hi
    split at hc
    · rename_i hall
      have hdiv : i / sectorSize < sectorsPerFat h := Nat.div_lt_of_lt_mul (by rwa [Nat.mul_comm])
      have hmod := Nat.mod_lt i (show 0 < sectorSize by decide)
      have h1 := (sectorsEqual_iff _ _).mp (hall _ hdiv) _ hmod
      have h2 : ∀ a, (a + (0 + i / sectorSize)) * sectorSize + i % sectorSize =
          a * sectorSize + i := by
        intro a
        have h3 := Nat.div_add_mod i sectorSize
        rw [Nat.zero_add, Nat.add_mul, Nat.mul_comm (i / sectorSize)]
        omega
      rw [h2, h2] at h1
      exact h1
    · cases hc
  · intro he
    refine if_pos fun j hj => (sectorsEqual_iff _ _).mpr fun i hi => ?_
    have h1 := he (j * sectorSize + i) ?_
    · rw [Nat.zero_add, Nat.add_mul, Nat.add_mul _ j, Nat.add_assoc, Nat.add_assoc]
      exact h1
    · have h2 := Nat.mul_le_mul_right sectorSize (Nat.succ_le_of_lt hj)
      rw [Nat.succ_mul] at h2
      omega

theorem reading_compareFats (h : Bytes) (left : Nat) : ∀ i, i + left ≤ 2 ^ 16 →
    Reading v img held held (.val held) (compareOf h img left i) (compareFatsLoop h left i) := by
  have h1 := le16_lt h 14
  have h2 := le16_lt h 22
  induction left with
  | zero =>
    intro i _
    have hpure : Reading v img held held (.val held) (.ok ()) (pure () : FsProg Unit) :=
      reading_pure rfl rfl trivial
    exact hpure.congr (if_pos fun j hj => absurd hj (by omega)).symm
  | succ left ih =>
    intro i hi
    refine (reading_block ?_).andThen fun first _ hfirst => ?_
    · unfold reservedSectors lbaLimit
      omega
    refine (reading_block ?_).andThen fun second _ hsecond => ?_
    · unfold reservedSectors sectorsPerFat lbaLimit
      omega
    obtain rfl : first = _ := hfirst
    obtain rfl : second = _ := hsecond
    refine (Reading.guard fun _ => ih (i + 1) (by omega)).congr ?_
    show (if ¬ fatSectorsEqual h img i = true then Except.error Errno.eio
      else compareOf h img left (i + 1)) = compareOf h img (left + 1) i
    by_cases he : fatSectorsEqual h img i = true
    · rw [if_neg (not_not.mpr he)]
      unfold compareOf
      refine if_congr ?_ rfl rfl
      constructor
      · intro hall j hj
        cases j with
        | zero => exact he
        | succ j => rw [Nat.add_comm j 1, ← Nat.add_assoc]; exact hall j (by omega)
      · intro hall j hj
        rw [Nat.add_assoc, Nat.add_comm 1 j]
        exact hall (j + 1) (by omega)
    · rw [if_pos he]
      exact (if_neg fun hall => he (hall 0 (Nat.succ_pos _))).symm

theorem keeps_compareFats (h : Bytes) (left : Nat) : ∀ i,
    Prog.Keeps FsState.heap (compareFatsLoop h left i) := by
  induction left with
  | zero => exact fun _ => .pure _
  | succ left ih =>
    exact fun _ => .bind (keeps_onDev _) fun _ => .bind (keeps_onDev _) fun _ =>
      .bind (.refuse _ _) fun _ => ih _

/-- What the check can change of a volume: its first success fixes the limit. -/
def Checked (d : Device) (v w : FatPrivate) : Prop :=
  w = v ∨ ∃ n b, d.identify = .ok n ∧ AcceptedGeometry v n ∧ v.writeReady = false ∧
    w = { v with maxWritable := writableLimit v n, writeReady := b }

/-- The verdict of `fat16_prepare_write`. -/
def prepareOf (v : FatPrivate) (identify : Except Errno Nat) (img : Bytes) : Except Errno Unit :=
  if v.mutationDisabled then .error .eio
  else if v.writeReady then .ok ()
  else do
    let capacity ← identify
    if ¬ AcceptedGeometry v capacity then .error .eio
    else compareOf v.header img (sectorsPerFat v.header) 0

/-- The volume passed the check before, or its two FATs are equal. -/
def Vetted (s : FsState) : Prop := s.vol.writeReady = true ∨ FatsEqual s.vol.header s.dev.image

structure PreparedTo (s : FsState) (r : Except Errno Unit) (s' : FsState) : Prop where
  still : Still s s'
  heap : s'.heap = s.heap
  image : s'.dev.image = s.dev.image
  vol : Checked s.dev s.vol s'.vol
  ready : r = .ok () → s.vol.mutationDisabled = false ∧ s'.vol.writeReady = true
  outcome : (Calm s s' ∧ r = prepareOf s.vol s.dev.identify s.dev.image) ∨
    (Trouble s s' ∧ ∃ e, r = .error e)
  vetted : s'.vol.writeReady = true → Vetted s

theorem prepareWrite_spec (s : FsState) : Prog.Ends fat16PrepareWrite s (PreparedTo s) := by
  unfold Prog.Ends fat16PrepareWrite
  rw [Prog.bind_ok (Prog.look_apply _ s)]
  by_cases hd : s.vol.mutationDisabled = true
  · rw [if_pos hd]
    exact ⟨.refl s, rfl, rfl, Or.inl rfl, fun h => (by cases h),
      Or.inl ⟨⟨rfl, rfl⟩, (if_pos hd).symm⟩, Or.inl⟩
  rw [if_neg hd]
  have hd' : s.vol.mutationDisabled = false := by simpa using hd
  by_cases hw : s.vol.writeReady = true
  · rw [if_pos hw]
    refine ⟨.refl s, rfl, rfl, Or.inl rfl, fun _ => ⟨hd', hw⟩, Or.inl ⟨⟨rfl, rfl⟩, ?_⟩, Or.inl⟩
    unfold prepareOf
    rw [if_neg hd, if_pos hw]
    rfl
  rw [if_neg hw]
  have hw' : s.vol.writeReady = false := by simpa using hw
  have hden : prepareOf s.vol s.dev.identify s.dev.image = s.dev.identify >>= fun capacity =>
      if ¬ AcceptedGeometry s.vol capacity then .error .eio
      else compareOf s.vol.header s.dev.image (sectorsPerFat s.vol.header) 0 := by
    unfold prepareOf
    rw [if_neg hd, if_neg hw]
  cases hid : s.dev.identify with
  | error e =>
    rw [Prog.bind_error (show onDev diskWriteCapacity s = (.error e, s) by
      unfold onDev diskWriteCapacity; rw [hid])]
    refine ⟨.refl s, rfl, rfl, Or.inl rfl, fun h => (by cases h), Or.inl ⟨⟨rfl, rfl⟩, ?_⟩, Or.inl⟩
    rw [hden, hid]
    rfl
  | ok n =>
    rw [Prog.bind_ok (show onDev diskWriteCapacity s = (.ok n, s) by
      unfold onDev diskWriteCapacity; rw [hid])]
    by_cases hg : AcceptedGeometry s.vol n
    · have hno : (Prog.refuse (¬ AcceptedGeometry s.vol n) Errno.eio : FsProg Unit) s =
        (.ok (), s) := by
        unfold Prog.refuse
        rw [if_neg (not_not.mpr hg)]
        rfl
      rw [Prog.bind_ok hno, Prog.bind_ok (Prog.change_apply _ s)]
      set s1 := onVol (fun v => { v with maxWritable := writableLimit v n }) s with hs1
      have hspf : sectorsPerFat s.vol.header < 2 ^ 16 := le16_lt _ _
      have hcmp : Prog.Ends (compareFatsLoop s.vol.header (sectorsPerFat s.vol.header) 0) s1
          (ReadsTo 0 0 (.val 0)
            (compareOf s.vol.header s.dev.image (sectorsPerFat s.vol.header) 0) s1) :=
        reading_compareFats s.vol.header (sectorsPerFat s.vol.header) 0 (by omega) s1 rfl rfl
      have hverdict : prepareOf s.vol s.dev.identify s.dev.image =
          compareOf s.vol.header s.dev.image (sectorsPerFat s.vol.header) 0 := by
        rw [hden, hid]
        exact if_neg (not_not.mpr hg)
      have hboth : Prog.Ends (compareFatsLoop s.vol.header (sectorsPerFat s.vol.header) 0) s1
          fun r s' => ReadsTo 0 0 (.val 0)
            (compareOf s.vol.header s.dev.image (sectorsPerFat s.vol.header) 0) s1 r s' ∧
              s'.heap = s1.heap :=
        Prog.ends_iff.mpr ⟨Prog.ends_iff.mp hcmp, Prog.ends_iff.mp (keeps_compareFats _ _ _ s1)⟩
      refine hboth.bind ?_ ?_
      · rintro ⟨⟩ s2 ⟨h2, hheap⟩
        have hq := h2.quiet
        rcases h2.outcome with ⟨hcalm, hr⟩ | ⟨-, e, hr, -⟩
        · refine ⟨⟨hq.mounted, hq.files, hq.same⟩, hheap, hq.image,
            Or.inr ⟨n, true, hid, hg, hw', ?_⟩, fun _ => ⟨hd', rfl⟩, Or.inl ⟨hcalm, ?_⟩,
            fun _ => Or.inr (compareOf_all.mp hr.symm)⟩
          · show { s2.vol with writeReady := true } = _
            rw [hq.vol]
            rfl
          · rw [hverdict, ← hr]
            rfl
        · cases hr
      · rintro e s2 ⟨h2, hheap⟩
        have hq := h2.quiet
        refine ⟨⟨hq.mounted, hq.files, hq.same⟩, hheap, hq.image,
          Or.inr ⟨n, false, hid, hg, hw', ?_⟩, fun h => (by cases h), ?_, fun h => ?_⟩
        · rw [hq.vol, ← hw']
          rfl
        · rcases h2.outcome with ⟨hcalm, hr⟩ | ⟨ht, -⟩
          · refine Or.inl ⟨hcalm, ?_⟩
            rw [hverdict, ← hr]
            rfl
          · refine Or.inr ⟨?_, e, rfl⟩
            cases ht with
            | heap hlog hr => exact .heap hlog hr
            | read lba m hlog hm => exact .read lba m hlog hm
        · rw [hq.vol] at h
          exact Or.inl h
    · have hyes : (Prog.refuse (¬ AcceptedGeometry s.vol n) Errno.eio : FsProg Unit) s =
          (.error .eio, s) := by
        unfold Prog.refuse
        rw [if_pos hg]
        rfl
      rw [Prog.bind_error hyes]
      refine ⟨.refl s, rfl, rfl, Or.inl rfl, fun h => (by cases h), Or.inl ⟨⟨rfl, rfl⟩, ?_⟩, Or.inl⟩
      rw [hden, hid]
      exact (if_pos hg).symm

/-! ## Volumes in order -/

/-- A descriptor for writing holds a file whose entry has a proper place. -/
def DescriptorFit (v : FatPrivate) (d : FatFileDescriptor) : Prop :=
  d.mode ≠ .read → SlotPos v d.item.entryPos ∧ ∃ addr item, d.item.node = .file addr item

variable {v w : FatPrivate} {d : FatFileDescriptor} {identify : Except Errno Nat} {item : DirItem}
  {phases : List Phase} {path : List (List UInt8)}

theorem DescriptorFit.congr (hh : w.header = v.header)
    (hd : w.rootDirectory.endingSectorPos = v.rootDirectory.endingSectorPos)
    (h : DescriptorFit v d) : DescriptorFit w d := fun hm =>
  ⟨⟨(h hm).1.place.congr hh hd, (h hm).1.fits⟩, (h hm).2⟩

/-- What every mounted volume keeps to. -/
structure Tidy (identify : Except Errno Nat) (v : FatPrivate) : Prop where
  rooted : Rooted v
  ready : v.writeReady = true → ∃ n, identify = .ok n ∧ Fitted v n
  descriptors : ∀ d ∈ v.descriptors, DescriptorFit v d

theorem Checked.fitted {d : Device} (h : Checked d v w) (ht : Tidy d.identify v)
    (hw : w.writeReady = true) : ∃ n, d.identify = .ok n ∧ Fitted w n := by
  rcases h with rfl | ⟨n, b, hid, hg, -, rfl⟩
  · exact ht.ready hw
  · exact ⟨n, hid, hg, rfl⟩

theorem Checked.tidy {d : Device} (h : Checked d v w) (ht : Tidy d.identify v) :
    Tidy d.identify w := by
  refine ⟨?_, h.fitted ht, ?_⟩
  · rcases h with rfl | ⟨n, b, -, -, -, rfl⟩
    · exact ht.rooted
    · exact ⟨ht.rooted.first, ht.rooted.pos, ht.rooted.total⟩
  · rcases h with rfl | ⟨n, b, -, -, -, rfl⟩
    · exact ht.descriptors
    · intro d hd
      refine DescriptorFit.congr (v := v) ?_ ?_ (ht.descriptors d hd)
      · rfl
      · rfl

/-- Another volume with the same layout and a root directory in bounds. -/
theorem Tidy.of_layout (ht : Tidy identify v) (hl : SameLayout v w)
    (hready : w.writeReady = v.writeReady)
    (hfirst : w.rootDirectory.firstCluster = v.rootDirectory.firstCluster)
    (hpos : w.rootDirectory.sectorPos = v.rootDirectory.sectorPos)
    (htotal : w.rootDirectory.total ≤ rootDirEntries v.header)
    (hdesc : ∀ d ∈ w.descriptors, DescriptorFit v d) : Tidy identify w := by
  refine ⟨⟨hfirst.trans ht.rooted.first, ?_, ?_⟩, fun hw => ?_, fun d hd =>
    (hdesc d hd).congr hl.header hl.data⟩
  · rw [hpos, ht.rooted.pos, hl.header]
  · rw [hl.header]
    exact htotal
  · obtain ⟨n, hid, hf⟩ := ht.ready (hready ▸ hw)
    exact ⟨n, hid, hl.fitted hf⟩

theorem Tidy.disabled (ht : Tidy identify v) : Tidy identify (disabled v) :=
  ht.of_layout ⟨rfl, rfl, rfl⟩ rfl rfl rfl ht.rooted.total ht.descriptors

theorem Tidy.descs (ht : Tidy identify v) {l : List FatFileDescriptor}
    (hl : ∀ d ∈ l, DescriptorFit v d) : Tidy identify { v with descriptors := l } :=
  ht.of_layout ⟨rfl, rfl, rfl⟩ rfl rfl rfl ht.rooted.total hl

theorem publishDescriptor_fit {pos : Nat} (h : DescriptorFit v d) :
    DescriptorFit v (publishDescriptor pos item d) := by
  unfold publishDescriptor
  split
  · split
    · exact fun hm => ⟨(h hm).1, _, _, rfl⟩
    · exact h
  · exact h

theorem Tidy.publishRoot (ht : Tidy identify v) (pos : Nat) (item : DirItem) :
    Tidy identify (publishRoot pos item v) := by
  unfold Fat.publishRoot
  dsimp only
  split
  · rename_i hin
    refine ht.of_layout ⟨rfl, rfl, rfl⟩ rfl rfl rfl ?_ ht.descriptors
    have h1 := ht.rooted.total
    have h2 := hin.2.1
    show (if v.rootDirectory.total ≤ _ then _ else _) ≤ _
    split
    · have h3 : (pos - v.rootDirectory.sectorPos * sectorSize) / 32 < rootDirEntries v.header :=
        Nat.div_lt_of_lt_mul (by omega)
      omega
    · exact h1
  · exact ht

theorem publish_descriptors (pos : Nat) (item : DirItem) (v : FatPrivate) :
    (fat16Publish pos item v).descriptors = v.descriptors.map (publishDescriptor pos item) := by
  unfold fat16Publish Fat.publishRoot
  dsimp only
  split <;> rfl

theorem Tidy.publish (ht : Tidy identify v) (pos : Nat) (item : DirItem) :
    Tidy identify (fat16Publish pos item v) := by
  refine (ht.publishRoot pos item).descs fun d hd => ?_
  obtain ⟨d', hd', rfl⟩ := List.mem_map.mp hd
  exact publishDescriptor_fit ((ht.publishRoot pos item).descriptors d' hd')

/-- A phase publishes one entry or nothing. -/
def Phase.Publishes (ph : Phase) : Prop :=
  ph.after = id ∨ ∃ pos item, ph.after = fat16Publish pos item

/-- What every published entry keeps is kept by phases that publish. -/
theorem afterPhases_keep {M : FatPrivate → Prop} (phases : List Phase)
    (hpub : ∀ pos item v, M v → M (fat16Publish pos item v)) :
    ∀ {v : FatPrivate}, M v → (∀ ph ∈ phases, ph.Publishes) → M (afterPhases phases v) := by
  induction phases with
  | nil => exact fun h _ => h
  | cons ph phases ih =>
    intro v h hp
    refine ih (v := ph.after v) ?_ fun p h => hp p (List.mem_cons_of_mem _ h)
    rcases hp ph List.mem_cons_self with he | ⟨pos, item, he⟩
    · rw [he]
      exact h
    · rw [he]
      exact hpub pos item v h

theorem Tidy.afterPhases (phases : List Phase) (ht : Tidy identify v)
    (hp : ∀ ph ∈ phases, ph.Publishes) : Tidy identify (afterPhases phases v) :=
  afterPhases_keep phases (fun pos item _ h => h.publish pos item) ht hp

theorem publish_layout (pos : Nat) (item : DirItem) (v : FatPrivate) :
    SameLayout v (fat16Publish pos item v) := by
  unfold fat16Publish Fat.publishRoot
  dsimp only
  split <;> exact ⟨rfl, rfl, rfl⟩

theorem afterPhases_layout (phases : List Phase) (hp : ∀ ph ∈ phases, ph.Publishes) :
    SameLayout v (afterPhases phases v) :=
  afterPhases_keep phases (fun pos item w h => h.trans (publish_layout pos item w)) (.refl v) hp

theorem Tidy.setPos (ht : Tidy identify v) (desc pos : Nat) :
    Tidy identify (setPos desc pos v) := by
  refine ht.descs fun d hd => ?_
  obtain ⟨d', hd', rfl⟩ := List.mem_map.mp hd
  split
  · exact ht.descriptors d' hd'
  · exact ht.descriptors d' hd'

theorem plain_publishes (stores : List Store) : (Phase.plain stores).Publishes := Or.inl rfl

theorem commit_publishes (pos : Nat) (item : DirItem) : (commitPhase pos item).Publishes :=
  Or.inr ⟨pos, item, rfl⟩

theorem extendPhases_publish (v : FatPrivate) (old fresh : List Nat) :
    ∀ ph ∈ extendPhases v old fresh, ph.Publishes := by
  intro ph hph
  obtain ⟨copy, -, rfl | ⟨-, -, rfl⟩⟩ := mem_extendPhases hph
  · exact plain_publishes _
  · exact plain_publishes _

theorem writePhases_publish (v : FatPrivate) (item : DirItem) (entryPos : Nat)
    (old fresh : List Nat) (start : Nat) (data : Bytes) (count size : Nat) :
    ∀ ph ∈ writePhases v item entryPos old fresh start data count size, ph.Publishes := by
  intro ph hph
  rcases List.mem_cons.mp hph with rfl | hph
  · exact plain_publishes _
  · rcases List.mem_append.mp hph with hph | hph
    · exact extendPhases_publish v old fresh ph hph
    · rw [List.mem_singleton.mp hph]
      exact commit_publishes _ _

theorem truncatePhases_publish (v : FatPrivate) (item : DirItem) (pos : Nat) (chain : List Nat) :
    ∀ ph ∈ truncatePhases v item pos chain, ph.Publishes := by
  intro ph hph
  rcases List.mem_cons.mp hph with rfl | hph
  · exact commit_publishes _ _
  · obtain ⟨copy, -, rfl⟩ := mem_freePhases hph
    exact plain_publishes _

/-- What a write is going to do, if it is going to do anything. -/
theorem writePlan_ok {data : Bytes} {count : Nat} {b : Nat}
    (h : writePlan v img d item data count = .ok (phases, b)) :
    b = count ∧ writeStart d item ≤ item.filesize ∧ writeStart d item + count ≤ intMax ∧
      ∃ old fresh, chainOf v img item = .ok old ∧ old.length = clustersFor v item.filesize ∧
        allocOf v img old.length (clustersFor v (sizeAfter item (writeStart d item + count))) =
          .ok fresh ∧
        phases = writePhases v item d.item.entryPos old fresh (writeStart d item) data count
          (sizeAfter item (writeStart d item + count)) := by
  obtain ⟨h1, h⟩ := except_guard_ok.mp h
  obtain ⟨h2, h⟩ := except_guard_ok.mp h
  obtain ⟨old, hold, h⟩ := except_bind_ok.mp h
  obtain ⟨h3, h⟩ := except_guard_ok.mp h
  obtain ⟨fresh, hfresh, h⟩ := except_bind_ok.mp h
  cases h
  exact ⟨rfl, by omega, by omega, old, fresh, hold, not_not.mp h3, hfresh, rfl⟩

theorem writePlan_publish {data : Bytes} {count : Nat} {b : Nat}
    (h : writePlan v img d item data count = .ok (phases, b)) : ∀ ph ∈ phases, ph.Publishes := by
  obtain ⟨-, -, -, old, fresh, -, -, -, rfl⟩ := writePlan_ok h
  exact writePhases_publish _ _ _ _ _ _ _ _ _

/-- What opening for writing is going to do: create an entry, empty a file, or nothing. -/
theorem openPlan_ok {mode : FileMode} (hmode : mode ≠ .read) {item : FatItem}
    (h : openPlan v img path mode = .ok (phases, item)) :
    (lookup v img path = .error .enoent ∧ createPlan v img path = .ok (phases, item)) ∨
    (∃ found addr entry, lookup v img path = .ok found ∧ found.node = .file addr entry ∧
      entry.attrib &&& fileReadOnly = 0 ∧
      ((mode = .write ∧ ∃ chain, chainOf v img entry = .ok chain ∧
          phases = truncatePhases v entry found.entryPos chain ∧
          item = fileItem (emptied entry) found.entryPos) ∨
        (mode ≠ .write ∧ checkChain v img entry = .ok () ∧ phases = [] ∧ item = found))) := by
  unfold openPlan at h
  cases hl : lookup v img path with
  | error e =>
    rw [hl] at h
    by_cases hc : e = .enoent ∧ mode ≠ .read
    · exact Or.inl ⟨by rw [hc.1], (if_pos hc).symm.trans h⟩
    · cases (if_neg hc).symm.trans h
  | ok found =>
    rw [hl] at h
    have h1 : existingPlan v img mode found = .ok (phases, item) := (if_pos hmode).symm.trans h
    unfold existingPlan at h1
    cases hnode : found.node with
    | directory dir => rw [hnode] at h1; cases h1
    | file addr entry =>
      rw [hnode] at h1
      obtain ⟨hro, h1⟩ := except_guard_ok.mp h1
      refine Or.inr ⟨found, addr, entry, rfl, hnode, not_not.mp hro, ?_⟩
      by_cases hw : mode = .write
      · rw [if_pos hw] at h1
        obtain ⟨p, hp, he⟩ := except_map_ok.mp h1
        obtain ⟨chain, hchain, hp⟩ := except_bind_ok.mp hp
        cases hp
        cases he
        exact Or.inl ⟨hw, chain, hchain, rfl, rfl⟩
      · rw [if_neg hw] at h1
        obtain ⟨u, hu, he⟩ := except_map_ok.mp h1
        cases he
        exact Or.inr ⟨hw, hu, rfl, rfl⟩

/-- What creation is going to do. -/
theorem createPlan_ok {item : FatItem} (h : createPlan v img path = .ok (phases, item)) :
    ∃ start last slot base ext, parentOf v img v.rootDirectory path = .ok (start, last) ∧
      (start ≠ 0 → fat16ValidCluster v start) ∧
      roomFrom v img start directoryFuel 0 none false = .ok slot ∧
      shortName last false [] [] = .ok (base, ext) ∧
      phases = [commitPhase slot (newEntry base ext)] ∧
      item = fileItem (newEntry base ext) slot := by
  obtain ⟨⟨start, last⟩, hp, h⟩ := except_bind_ok.mp h
  obtain ⟨hv, h⟩ := except_guard_ok.mp h
  obtain ⟨slot, hslot, h⟩ := except_bind_ok.mp h
  obtain ⟨⟨base, ext⟩, hname, h⟩ := except_bind_ok.mp h
  cases h
  exact ⟨start, last, slot, base, ext, hp, fun h0 => not_not.mp fun hn => hv ⟨h0, hn⟩, hslot, hname,
    rfl, rfl⟩

theorem openPlan_publish {mode : FileMode} (hmode : mode ≠ .read) {item : FatItem}
    (h : openPlan v img path mode = .ok (phases, item)) : ∀ ph ∈ phases, ph.Publishes := by
  rcases openPlan_ok hmode h with ⟨-, hc⟩ | ⟨found, addr, entry, -, -, -,
    ⟨-, chain, -, rfl, -⟩ | ⟨-, -, rfl, -⟩⟩
  · obtain ⟨_, _, slot, base, ext, -, -, -, -, rfl, -⟩ := createPlan_ok hc
    intro ph hph
    rw [List.mem_singleton.mp hph]
    exact commit_publishes _ _
  · exact truncatePhases_publish _ _ _ _
  · intro ph hph
    cases hph

end Rorthox.Fat
