import Rorthox.Fs.FileSpec
import Rorthox.Fat.Mount

/-!
# Operations and reachable states

The functions of `kernel/fs/file.h` as one type of operations, and the states a boot, a
mount and any sequence of operations can lead to. The rest of the kernel may do with
the heap what it likes in between.
-/

namespace Rorthox.Fs

open Lib Fat Disk Memory

inductive FileOp where
  | open (filename : List UInt8) (mode : FileMode)
  | fopen (filename modeStr : List UInt8)
  | read (fd : Int) (count : Nat)
  | write (fd : Int) (data : Bytes) (count : Nat)
  | seek (fd offset : Int) (whence : SeekMode)
  | stat (fd : Int)
  | close (fd : Int)
  | fseek (fd : Int) (offset : Nat) (whence : SeekMode)
  | fread (size nmemb : Nat) (fd : Int)

inductive Reply where
  | number (n : Nat)
  | bytes (n : Nat) (buffer : Bytes)
  | stat (st : FileStat)
  | done

def FileOp.run : FileOp → FsProg Reply
  | .open filename mode => fileOpen filename mode >>= fun fd => pure (.number fd)
  | .fopen filename modeStr => Fs.fopen filename modeStr >>= fun fd => pure (.number fd)
  | .read fd count => fileRead fd count >>= fun p => pure (.bytes p.1 p.2)
  | .write fd data count => fileWrite fd data count >>= fun n => pure (.number n)
  | .seek fd offset whence => fileSeek fd offset whence >>= fun n => pure (.number n)
  | .stat fd => fstat fd >>= fun st => pure (.stat st)
  | .close fd => fclose fd >>= fun _ => pure .done
  | .fseek fd offset whence => Fs.fseek fd offset whence >>= fun _ => pure .done
  | .fread size nmemb fd => Fs.fread size nmemb fd >>= fun p => pure (.bytes p.1 p.2)

/-- The states a boot can lead to. -/
inductive Reachable : FsState → Prop where
  | boot (heap : KHeap) (dev : Device) (vol : FatPrivate) :
      Reachable { heap, dev, mounted := false, vol, files := fun _ => none }
  | mount {s : FsState} (h : Reachable s) (hm : s.mounted = false) : Reachable (fat16Resolve s).2
  | op {s : FsState} (h : Reachable s) (op : FileOp) : Reachable (op.run s).2
  | others {s : FsState} (h : Reachable s) (heap : KHeap) : Reachable { s with heap }

/-! ## Handles -/

/-- Address, position and mode of every handle. -/
def handlesOf (v : FatPrivate) : List (Nat × Nat × FileMode) :=
  v.descriptors.map fun d => (d.addr, d.pos, d.mode)

theorem handlesOf_publish (pos : Nat) (item : DirItem) (v : FatPrivate) :
    handlesOf (fat16Publish pos item v) = handlesOf v := by
  unfold handlesOf
  rw [publish_descriptors, List.map_map]
  refine List.map_congr_left fun d _ => ?_
  show ((publishDescriptor pos item d).addr, (publishDescriptor pos item d).pos,
    (publishDescriptor pos item d).mode) = _
  unfold publishDescriptor
  split
  · split <;> rfl
  · rfl

theorem handlesOf_after (phases : List Phase) {v : FatPrivate} (hp : ∀ ph ∈ phases, ph.Publishes) :
    handlesOf (afterPhases phases v) = handlesOf v ∧
      (afterPhases phases v).mutationDisabled = v.mutationDisabled := by
  refine afterPhases_keep (M := fun w => handlesOf w = handlesOf v ∧ w.mutationDisabled =
    v.mutationDisabled)
    phases (fun pos item w h => ⟨(handlesOf_publish pos item w).trans h.1, ?_⟩) ⟨rfl, rfl⟩ hp
  rw [← h.2]
  unfold fat16Publish publishRoot
  dsimp only
  split <;> rfl

variable {s s' : FsState} {r : Except Errno Nat} {v : FatPrivate} {desc : Nat}
  {path : List (List UInt8)} {mode : FileMode}

theorem handles_prepared {r : Except Errno Unit} (h : PreparedTo s r s') :
    handlesOf s'.vol = handlesOf s.vol := by
  unfold handlesOf
  rw [h.vol.same.1]

/-- A mounted volume is tidy, and nothing is open without one. -/
structure Sane (s : FsState) : Prop where
  tidy : s.mounted = true → Tidy s.dev.identify s.vol
  closed : s.mounted = false → ∀ i, s.files i = none

/-- The header and the start of the data area, which a mount keeps to its end. -/
structure SameGround (v w : FatPrivate) : Prop where
  header : w.header = v.header
  data : w.rootDirectory.endingSectorPos = v.rootDirectory.endingSectorPos

theorem SameGround.refl (v : FatPrivate) : SameGround v v := ⟨rfl, rfl⟩

theorem SameGround.trans {u w : FatPrivate} (h : SameGround u v) (h' : SameGround v w) :
    SameGround u w :=
  ⟨h'.header.trans h.header, h'.data.trans h.data⟩

variable {phases : List Phase} {α : Type} {count : Nat} {item : FatItem} {filename : List UInt8}

theorem sameGround_phases (h : ∀ ph ∈ phases, ph.Publishes) (v : FatPrivate) :
    SameGround v (afterPhases phases v) :=
  ⟨(afterPhases_layout phases h).header, (afterPhases_layout phases h).data⟩

/-- From `s` to `s'` the mount, the drive and the order of the volume are kept. -/
structure Kept (s s' : FsState) : Prop where
  mounted : s'.mounted = s.mounted
  same : s.dev.Same s'.dev
  ground : SameGround s.vol s'.vol
  tidy : Tidy s.dev.identify s.vol → Tidy s.dev.identify s'.vol
  closed : s.mounted = false → (∀ i, s.files i = none) → ∀ i, s'.files i = none

theorem Kept.refl (s : FsState) : Kept s s := ⟨rfl, .refl _, .refl _, id, fun _ => id⟩

theorem Kept.trans {s'' : FsState} (h : Kept s s') (h' : Kept s' s'') : Kept s s'' := by
  refine ⟨h'.mounted.trans h.mounted, h.same.trans h'.same, h.ground.trans h'.ground, fun ht => ?_,
    fun hm hf =>
    h'.closed (h.mounted.trans hm) (h.closed hm hf)⟩
  have h1 := h'.tidy (by rw [h.same.identify]; exact h.tidy ht)
  rwa [h.same.identify] at h1

theorem Kept.sane (h : Kept s s') (hs : Sane s) : Sane s' := by
  refine ⟨fun hm => ?_, fun hm => ?_⟩
  · rw [h.same.identify]
    exact h.tidy (hs.tidy (h.mounted ▸ hm))
  · rw [h.mounted] at hm
    exact h.closed hm (hs.closed hm)

/-- Nothing but the heap, the log and the table of a mount moved. -/
theorem Kept.of_vol (hm : s'.mounted = s.mounted) (hd : s.dev.Same s'.dev) (hv : s'.vol = s.vol)
    (hf : s.mounted = false → s'.files = s.files) : Kept s s' :=
  ⟨hm, hd, hv ▸ .refl _, fun ht => hv ▸ ht, fun h0 hfiles => by rw [hf h0]; exact hfiles⟩

/-- Only the volume moved. -/
theorem Kept.of_files (hm : s'.mounted = s.mounted) (hd : s.dev.Same s'.dev)
    (hf : s'.files = s.files) (hg : SameGround s.vol s'.vol)
    (ht : Tidy s.dev.identify s.vol → Tidy s.dev.identify s'.vol) :
    Kept s s' := ⟨hm, hd, hg, ht, fun _ hfiles => by rw [hf]; exact hfiles⟩

theorem kept_quiet (h : Quiet s s') : Kept s s' :=
  .of_vol h.mounted h.same h.vol fun _ => h.files

theorem kept_prepared {r : Except Errno Unit} (h : PreparedTo s r s') : Kept s s' := by
  refine .of_files h.still.mounted h.still.same h.still.files ?_ fun ht => h.vol.tidy ht
  rcases h.vol with hv | ⟨n, b, -, -, -, hv⟩
  · rw [hv]
    exact .refl _
  · rw [hv]
    exact ⟨rfl, rfl⟩

theorem kept_acts {β : Type} {held err : Multiset Nat} {sh : Shape α β}
    {post : FatPrivate → FatPrivate} {plan : Except Errno (List Phase × β)} {r : Except Errno α}
    (h : ActsTo held err sh post plan s r s')
    (hplan : ∀ phases b, plan = .ok (phases, b) → ∀ ph ∈ phases, ph.Publishes)
    (hground : ∀ w, SameGround w (post w))
    (hpost : ∀ identify w, Tidy identify w → Tidy identify (post w)) : Kept s s' := by
  have hg : SameGround s.vol s'.vol := by
    rcases h.ends hplan with ⟨phases, b, hp, -, hv, -⟩ | ⟨-, phases, -, hpub, hv | hv⟩
    · rw [hv]
      exact (sameGround_phases (hplan phases b hp) s.vol).trans (hground _)
    · rw [hv]
      exact sameGround_phases hpub s.vol
    · rw [hv]
      exact (sameGround_phases hpub s.vol).trans ⟨rfl, rfl⟩
  refine .of_files h.still.mounted h.still.same h.still.files hg fun ht => ?_
  rcases h.outcome with ⟨hv, -⟩ | ⟨-, phases, b, r0, v1, hp, hran, hend⟩
  · rw [hv]
    exact ht
  · have hpub := hplan phases b hp
    have htake : ∀ k, Tidy s.dev.identify (afterPhases (phases.take k) s.vol) := fun k =>
      ht.afterPhases (phases.take k) fun ph hph => hpub ph (List.mem_of_mem_take hph)
    have hv1 : Tidy s.dev.identify v1 := by
      rcases hran.outcome with ⟨-, hv, -⟩ | ⟨-, k, -, hf⟩ | ⟨-, k, st, -, -, -, hv, -⟩
      · rw [show v1 = afterPhases phases s.vol from hv]
        exact ht.afterPhases phases hpub
      · rw [show v1 = disabled (afterPhases (phases.take k) s.vol) from hf.vol]
        exact (htake k).disabled
      · rw [show v1 = afterPhases (phases.take k) s.vol from hv]
        exact htake k
    rcases hend with ⟨-, -, hv⟩ | ⟨-, -, -, hv⟩
    · rw [hv]
      exact hpost _ _ hv1
    · rw [hv]
      exact hv1

theorem kept_write {data : Bytes} (h : WriteCourse desc data count s r s') : Kept s s' := by
  cases h with
  | untargeted _ _ hs => exact hs ▸ .refl s
  | nothing _ _ _ hs => exact hs ▸ .refl s
  | unprepared _ _ hp _ => exact kept_prepared hp
  | acted _ _ hp _ _ hact =>
    exact (kept_prepared hp).trans (kept_acts hact (fun phases b h => writePlan_publish h)
      (fun w => ⟨rfl, rfl⟩) fun identify w hw => hw.setPos _ _)

theorem openPlan_fit {img : Bytes} {n : Nat} (hr : Rooted v) (hf : Fitted v n)
    (hmode : mode ≠ .read) (h : openPlan v img path mode = .ok (phases, item)) :
    SlotPos v item.entryPos ∧ ∃ addr entry, item.node = .file addr entry := by
  rcases openPlan_ok hmode h with ⟨-, hc⟩ | ⟨found, addr, entry, hl, hn, -,
    ⟨-, chain, -, -, rfl⟩ | ⟨-, -, -, rfl⟩⟩
  · obtain ⟨start, last, slot, base, ext, -, hv, hslot, -, -, rfl⟩ := createPlan_ok hc
    exact ⟨roomFrom_slot hr hv (fun p hp => (by cases hp)) hslot, _, _, rfl⟩
  · exact ⟨(lookup_located hr hf hl).slot, _, _, rfl⟩
  · exact ⟨(lookup_located hr hf hl).slot, addr, entry, hn⟩

/-- The address-free form keeps what matters to a descriptor for writing. -/
theorem plain_fit
    (h : SlotPos v item.plain.entryPos ∧ ∃ addr entry, item.plain.node = .file addr entry) :
    SlotPos v item.entryPos ∧ ∃ addr entry, item.node = .file addr entry := by
  refine ⟨h.1, ?_⟩
  obtain ⟨addr, entry, hn⟩ := h.2
  unfold FatItem.plain at hn
  cases hnode : item.node with
  | file a e => exact ⟨a, e, rfl⟩
  | directory dir =>
    simp only [hnode] at hn
    cases hn

theorem tidy_addDescriptor {identify : Except Errno Nat} (ht : Tidy identify v) (mode : FileMode)
    (p : Nat × FatItem)
    (h : mode ≠ .read → SlotPos v p.2.entryPos ∧ ∃ addr entry, p.2.node = .file addr entry) :
    Tidy identify (addDescriptor mode p v) := by
  refine ht.descs fun d hd => ?_
  rcases List.mem_cons.mp hd with rfl | hd
  · exact h
  · exact ht.descriptors d hd

theorem kept_publish {r0 : Except Errno (Nat × FatItem)} (hend : (r, s') = publishOpened mode r0 s)
    (h : ∀ p, r0 = .ok p → mode ≠ .read → SlotPos s.vol p.2.entryPos ∧
      ∃ addr entry, p.2.node = .file addr entry) :
    Kept s s' := by
  cases r0 with
  | error e =>
    obtain ⟨-, rfl⟩ : r = .error e ∧ s' = s := Prod.ext_iff.mp hend
    exact .refl s'
  | ok p =>
    obtain ⟨-, rfl⟩ : r = .ok p.1 ∧ s' = onVol (addDescriptor mode p) s := Prod.ext_iff.mp hend
    exact .of_files rfl (.refl _) rfl ⟨rfl, rfl⟩ fun ht => tidy_addDescriptor ht mode p (h p rfl)

theorem kept_open (ht : Tidy s.dev.identify s.vol) (h : OpenCourse path mode s r s') :
    Kept s s' := by
  cases h with
  | invalid _ _ hs => exact hs ▸ .refl s
  | looked hm hread hend =>
    exact (kept_quiet hread.quiet).trans (kept_publish hend fun _ _ hne => absurd hm hne)
  | unprepared _ hp _ => exact kept_prepared hp
  | acted hm hv hp hid hfit hact hend =>
    refine (kept_prepared hp).trans ((kept_acts hact (fun phases b h => openPlan_publish hm h)
      .refl fun _ _ hw => hw).trans (kept_publish hend fun p hr _ => ?_))
    rcases hact.outcome with ⟨-, -, ⟨-, e, he, -⟩ | ⟨-, e, he, -⟩⟩ |
      ⟨-, phases, b, r0, v1, hplan, hran, ⟨h0, hview, hv2⟩ | ⟨e, -, he, -⟩⟩
    · rw [hr] at he
      cases he
    · rw [hr] at he
      cases he
    · rw [hr] at hview
      have hb : p.2.plain = b := Except.ok.inj hview
      have hvol := hv2.trans (hran.ended h0).1
      refine plain_fit ?_
      obtain ⟨hslot, hfile⟩ := openPlan_fit (hp.tidy ht).rooted hfit hm hplan
      rw [hb, hvol]
      refine ⟨⟨hslot.place.congr ?_ ?_, hslot.fits⟩, hfile⟩
      · exact (afterPhases_layout phases (openPlan_publish hm hplan)).header
      · exact (afterPhases_layout phases (openPlan_publish hm hplan)).data
    · rw [hr] at he
      cases he

theorem kept_new {r : Except Errno FileDescriptor} (hmount : s.mounted = true)
    (h : NewCourse s r s') : Kept s s' := by
  obtain ⟨hd, hv, hm⟩ := h.state
  exact .of_vol hm (hd ▸ .refl _) hv fun h0 => absurd (hmount.symm.trans h0) (by decide)

theorem kept_frees {q : Multiset Nat} {f : FsState → FsState} (h : Frees q f) (s : FsState) :
    Kept s (f s) := kept_quiet (h.quiet s)

theorem kept_close (desc : Nat) (s : FsState) : Kept s (fat16Close desc s) := by
  obtain ⟨hdev, hm, hfiles, rest, hrest, hvol⟩ := close_spec desc s
  refine .of_files hm (hdev ▸ .refl _) hfiles ?_ fun ht => ?_
  · rw [hvol]
    exact ⟨rfl, rfl⟩
  · rw [hvol]
    exact ht.descs fun d hd => ht.descriptors d (hrest d hd)

theorem kept_disk (hm : s.mounted = true) (ht : Tidy s.dev.identify s.vol)
    (h : DiskCourse path mode s r s') : Kept s s' := by
  have hafter : ∀ {s1 : FsState}, Kept s s1 → Tidy s1.dev.identify s1.vol := fun hk => by
    rw [hk.same.identify]
    exact hk.tidy ht
  have htable : ∀ {s1 : FsState}, Kept s s1 → ∀ i desc, Kept s1 (setFile i desc s1) :=
    fun hk i desc =>
    .of_vol rfl (.refl _) rfl fun h0 => absurd ((hk.mounted.trans hm).symm.trans h0) (by decide)
  cases h with
  | noDescriptor _ hnew _ => exact kept_new hm hnew
  | dropped _ hnew hopen _ hs =>
    have hk := (kept_new hm hnew).trans (kept_open (hafter (kept_new hm hnew)) hopen)
    rw [hs]
    exact (hk.trans (htable hk _ none)).trans (kept_frees (frees_kfreeAt _) _)
  | written _ hnew hopen _ hs =>
    have hk := (kept_new hm hnew).trans (kept_open (hafter (kept_new hm hnew)) hopen)
    rw [hs]
    exact hk.trans (htable hk _ _)
  | refused _ hopen _ => exact kept_open ht hopen
  | closed _ hopen hnew _ hs =>
    have hk := kept_open ht hopen
    rw [hs]
    exact (hk.trans (kept_new (hk.mounted.trans hm) hnew)).trans (kept_close _ _)
  | read _ hopen hnew _ hs =>
    have hk := kept_open ht hopen
    have hk' := hk.trans (kept_new (hk.mounted.trans hm) hnew)
    rw [hs]
    exact hk'.trans (htable hk' _ _)

theorem kept_fopen (hs : Sane s) (h : FopenCourse filename mode s r s') : Kept s s' := by
  cases h with
  | badPath _ _ _ he => exact he ▸ .refl s
  | unparsed hparse _ => exact kept_quiet hparse.quiet
  | stopped hparse _ _ he =>
    rw [he]
    exact (kept_quiet hparse.quiet).trans (kept_frees (frees_root _) _)
  | went hparse hgo _ hdisk he =>
    have hk := kept_quiet hparse.quiet
    have hm : s.mounted = true := by
      by_contra hm
      exact hgo (Or.inr (Or.inr (Or.inl (by simpa using hm))))
    rw [he]
    refine (hk.trans (kept_disk (hk.mounted.trans hm) ?_ hdisk)).trans (kept_frees (frees_root _) _)
    rw [hk.same.identify]
    exact hk.tidy (hs.tidy hm)

/-- A live descriptor belongs to a mounted volume. -/
theorem Sane.mounted (hs : Sane s) {fd : Int} {desc : FileDescriptor}
    (h : fileGetDescriptor s fd = some desc) : s.mounted = true := by
  by_contra hm
  unfold fileGetDescriptor at h
  split at h
  · cases h
  · rw [hs.closed (by simpa using hm)] at h
    cases h

theorem kept_fclose (fd : Int) (hs : Sane s) : Kept s (fclose fd s).2 := by
  unfold fclose
  cases hd : fileGetDescriptor s fd with
  | none => exact .refl s
  | some desc =>
    have hm := hs.mounted hd
    have hk := kept_close desc.priv s
    refine (hk.trans ?_).trans (kept_frees (frees_kfreeAt desc.addr) _)
    exact .of_vol rfl (.refl _) rfl fun h0 => absurd ((hk.mounted.trans hm).symm.trans h0)
      (by decide)

theorem kept_fileOpen (hs : Sane s) (h : FileOpenCourse filename mode s r s') : Kept s s' := by
  cases h with
  | bad _ _ he => exact he ▸ .refl s
  | failed _ hopen _ => exact kept_fopen hs hopen
  | closed _ hopen _ _ he =>
    rw [he]
    exact (kept_fopen hs hopen).trans (kept_fclose _ ((kept_fopen hs hopen).sane hs))
  | opened _ hopen _ _ => exact kept_fopen hs hopen

theorem kept_setPos (desc pos : Nat) (s : FsState) : Kept s (onVol (setPos desc pos) s) :=
  .of_files rfl (.refl _) rfl ⟨rfl, rfl⟩ fun ht => ht.setPos desc pos

theorem kept_read {r : Except Errno (Nat × Bytes)} (h : ReadCourse desc count s r s') :
    Kept s s' := by
  cases h with
  | untargeted _ _ _ hs => exact hs ▸ .refl s
  | nothing _ _ _ hs => exact hs ▸ .refl s
  | got _ _ _ hread _ hs =>
    rw [hs]
    exact (kept_quiet hread.quiet).trans (kept_setPos _ _ _)
  | failed _ _ _ hread _ => exact kept_quiet hread.quiet

theorem kept_items {size nmemb : Nat} {r : Except Errno (Nat × Bytes)}
    (h : ItemsCourse desc size nmemb s r s') : Kept s s' := by
  cases h with
  | stopped _ hs => exact hs ▸ .refl s
  | ran _ _ _ h =>
    obtain ⟨p, -, hv, -⟩ := h.vol
    refine .of_files h.still.mounted h.still.same h.still.files ?_ fun ht => ?_
    · rw [hv]
      unfold moved
      split <;> exact ⟨rfl, rfl⟩
    · rw [hv]
      unfold moved
      split
      · exact ht
      · exact ht.setPos _ _

theorem sane_mount {r : Except Errno Unit} (h : MountCourse s r s') (hs : Sane s) : Sane s' := by
  cases h with
  | failed h _ => exact (kept_quiet h.quiet).sane hs
  | mounted h _ he =>
    rw [he]
    exact ⟨fun _ => mounted_tidy _ h, fun hm => (by cases hm)⟩

/-! ## What an operation can do -/

/-- The value of `m` is only packed into a reply. -/
theorem reply_eq {α : Type} (m : FsProg α) (f : α → Reply) (s : FsState) :
    (m >>= fun a => pure (f a)) s = ((m s).1.map f, (m s).2) := by
  rw [Prog.bind_apply]
  cases m s with
  | mk r s1 => cases r <;> rfl

/-- The status as `fopen` gives it. -/
def fopenFd : Except Errno Nat → Nat
  | .ok fd => fd
  | .error _ => 0

theorem fopen_reply (filename modeStr : List UInt8) (s : FsState) :
    (FileOp.fopen filename modeStr).run s =
      (.ok (.number (fopenFd (fopenStatus filename modeStr s).1)),
        (fopenStatus filename modeStr s).2) := by
  rw [FileOp.run, reply_eq]
  unfold Fs.fopen
  cases fopenStatus filename modeStr s with
  | mk r s1 => cases r <;> rfl

/-- What an operation can reply and lead to. -/
inductive OpCourse (s : FsState) : FileOp → Except Errno Reply → FsState → Prop where
  | refused (op : FileOp) (e : Errno) : OpCourse s op (.error e) s
  | looked {fd : Int} {r : Except Errno Reply} : OpCourse s (.stat fd) r s
  | opened {filename : List UInt8} {mode : FileMode} {r : Except Errno Nat} {s' : FsState}
      (h : FileOpenCourse filename mode s r s') : OpCourse s (.open filename mode)
        (r.map .number) s'
  | fopened {filename modeStr : List UInt8} {r : Except Errno Nat} {s' : FsState}
      (h : FopenCourse filename (fileGetModeByString modeStr) s r s') :
      OpCourse s (.fopen filename modeStr) (.ok (.number (fopenFd r))) s'
  | read {fd : Int} {desc count : Nat} {r : Except Errno (Nat × Bytes)} {s' : FsState}
      (h : ReadCourse desc count s r s') :
      OpCourse s (.read fd count) (r.map fun p => .bytes p.1 p.2) s'
  | wrote {fd : Int} {desc : FileDescriptor} {count : Nat} {data : Bytes} {r : Except Errno Nat}
      {s' : FsState} (hd : fileGetDescriptor s fd = some desc)
      (h : WriteCourse desc.priv data count s r s') : OpCourse s (.write fd data count)
        (r.map .number) s'
  | sought {fd offset : Int} {whence : SeekMode} {r : Except Errno Reply} (desc pos : Nat) :
      OpCourse s (.seek fd offset whence) r (onVol (setPos desc pos) s)
  | fsought {fd : Int} {offset : Nat} {whence : SeekMode} {r : Except Errno Reply}
      (desc pos : Nat) : OpCourse s (.fseek fd offset whence) r (onVol (setPos desc pos) s)
  | closed {fd : Int} {r : Except Errno Reply} : OpCourse s (.close fd) r (fclose fd s).2
  | items {size nmemb : Nat} {fd : Int} {desc : FileDescriptor} {r : Except Errno (Nat × Bytes)}
      {s' : FsState} (hd : fileGetDescriptor s fd = some desc)
      (h : ItemsCourse desc.priv size nmemb s r s') :
      OpCourse s (.fread size nmemb fd) (r.map fun p => .bytes p.1 p.2) s'

theorem FileOp.runs (op : FileOp) (hs : Sane s) : OpCourse s op (op.run s).1 (op.run s).2 := by
  cases op with
  | «open» filename mode =>
    rw [FileOp.run, reply_eq]
    exact .opened (fileOpen_spec hs.tidy filename mode)
  | fopen filename modeStr =>
    rw [fopen_reply]
    exact .fopened (fopenStatus_spec hs.tidy filename modeStr)
  | read fd count =>
    rw [FileOp.run, reply_eq]
    unfold fileRead
    split
    · exact .refused _ _
    · split
      · exact .refused _ _
      · exact .read (fat16ReadBytes_spec _ _ s)
  | write fd data count =>
    rw [FileOp.run, reply_eq]
    unfold fileWrite
    split
    · exact .refused _ _
    · rename_i desc hd
      split
      · exact .refused _ _
      · exact .wrote hd (fat16WriteBytes_spec (hs.tidy (hs.mounted hd)) desc.priv data count)
  | seek fd offset whence =>
    rw [FileOp.run, reply_eq]
    unfold fileSeek
    split
    · exact .refused _ _
    · rw [fat16SeekSigned_eq]
      split
      · exact .sought _ _
      · exact .refused _ _
  | stat fd =>
    rw [FileOp.run, reply_eq, fstat_state]
    exact .looked
  | close fd =>
    rw [FileOp.run, reply_eq]
    exact .closed
  | fseek fd offset whence =>
    rw [FileOp.run, reply_eq]
    unfold Fs.fseek
    split
    · exact .refused _ _
    · rcases fat16Seek_cases _ offset whence s with ⟨h, e, he⟩ | ⟨pos, h⟩
      · rw [h, he]
        exact .refused _ _
      · rw [h]
        exact .fsought _ _
  | fread size nmemb fd =>
    rw [FileOp.run, reply_eq]
    unfold Fs.fread
    split
    · exact .refused _ _
    · split
      · exact .refused _ _
      · rename_i desc hd
        exact .items hd (fat16Read_spec desc.priv (by omega) nmemb s)

/-- Every operation keeps a mounted volume in order. -/
theorem FileOp.kept (op : FileOp) (hs : Sane s) : Kept s (op.run s).2 := by
  have hruns := op.runs hs
  generalize (op.run s).1 = r, (op.run s).2 = s' at hruns
  cases hruns with
  | refused | looked => exact .refl s
  | opened h => exact kept_fileOpen hs h
  | fopened h => exact kept_fopen hs h
  | read h => exact kept_read h
  | wrote _ h => exact kept_write h
  | sought | fsought => exact kept_setPos _ _ _
  | closed => exact kept_fclose _ hs
  | items _ h => exact kept_items h

theorem Reachable.sane (h : Reachable s) : Sane s := by
  induction h with
  | boot heap dev vol => exact ⟨fun hm => (by cases hm), fun _ _ => rfl⟩
  | mount _ _ ih => exact sane_mount (fat16Resolve_spec _) ih
  | op _ op ih => exact (op.kept ih).sane ih
  | others _ heap ih => exact ⟨ih.tidy, ih.closed⟩

/-! ## A small volume

The smallest FAT16 volume the driver writes to: two FATs of 17 sectors, one sector of
root entries, clusters of one sector, and the file `A` of two bytes in cluster 2. -/

def smallHeader : List (Nat × UInt8) :=
  [(12, 2), (13, 1), (14, 1), (16, 2), (17, 16), (19, 0x68), (20, 0x10), (22, 17), (38, 0x29)]

def smallEntry : List UInt8 :=
  0x41 :: List.replicate 10 0x20 ++ 0x20 :: List.replicate 14 0 ++ [2, 0, 2]

def smallFat : List UInt8 := [0xF8, 0xFF, 0xFF, 0xFF, 0xFF, 0xFF]

/-- The FATs start at sectors 1 and 18, the root directory is sector 35. -/
def smallDisk : Bytes := fun p =>
  if p / 512 % 17 = 1 then
    if p / 512 = 35 then smallEntry.getD (p % 512) 0 else smallFat.getD (p % 512) 0
  else if p < 64 then (smallHeader.lookup p).getD 0
  else 0

/-- What the private data holds before the first mount. -/
def noVolume : FatPrivate :=
  { addr := 0, clusterReadStream := 0, fatReadStream := 0, directoryStream := 0
    header := fun _ => 0
    rootDirectory :=
      { addr := 0, itemAddr := 0, item := fun _ => .zero, firstCluster := 0, total := 0
        sectorPos := 0, endingSectorPos := 0 }
    descriptors := [], writeReady := false, mutationDisabled := false, maxWritable := 0 }

/-- The volume on a drive of 4200 sectors whose commands end as `fates` says. -/
def smallBoot (fates : Nat → Fate) : FsState :=
  { heap := bootHeap
    dev := { origin := smallDisk, log := [], fates, calls := 0, identify := .ok 4200 }
    mounted := false, vol := noVolume, files := fun _ => none }

def smallMount (fates : Nat → Fate) : FsState := (fat16Resolve (smallBoot fates)).2

/-- `0:/A`. -/
def smallPath : List UInt8 := [0x30, 0x3A, 0x2F, 0x41]

theorem smallMount_reachable (fates : Nat → Fate) : Reachable (smallMount fates) :=
  .mount (.boot bootHeap _ noVolume) rfl

end Rorthox.Fs
