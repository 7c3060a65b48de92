import Rorthox.Fs.Ops

/-!
# Device failures

A device call that fails is the last one of its operation, the operation fails, and
once a sector was on its way to the disk the mount takes no more mutations.
-/

namespace Rorthox.Fs

open Lib Fat Disk Memory

/-- The newest event ended the operation. -/
inductive Broken (s s' : FsState) : Prop where
  | read (lba : Nat) (hlog : s'.dev.log = .readFailed lba :: s.dev.log)
      (hd : s'.vol.mutationDisabled = s.vol.mutationDisabled)
  | refused (lba : Nat) (log : List Event) (hlog : s'.dev.log = .refused lba :: log)
      (hgood : Steps (fun _ e => e.Good) s.dev.origin s.dev.log log)
      (hd : s'.vol.mutationDisabled = s.vol.mutationDisabled)
  | failed (e : Event) (log : List Event) (hlog : s'.dev.log = e :: log) (he : e.Failed)
      (hgood : Steps (fun _ e => e.Good) s.dev.origin s.dev.log log)
      (hd : s'.vol.mutationDisabled = true)

/-- Every device call went well, or `bad` holds and the newest event is what went wrong. -/
def Course (s : FsState) (bad : Prop) (s' : FsState) : Prop :=
  (Steps (fun _ e => e.Good) s.dev.origin s.dev.log s'.dev.log ∧
    s'.vol.mutationDisabled = s.vol.mutationDisabled) ∨ (bad ∧ Broken s s')

/-- No device call showed, and the switch is where it was. -/
structure Hushed (s s' : FsState) : Prop where
  same : s.dev.Same s'.dev
  log : s'.dev.log = s.dev.log
  switch : s'.vol.mutationDisabled = s.vol.mutationDisabled

theorem Hushed.refl (s : FsState) : Hushed s s := ⟨.refl _, rfl, rfl⟩

variable {s s' s1 : FsState} {bad : Prop} {α : Type} {count desc : Nat} {r : Except Errno Nat}
  {mode : FileMode}

theorem Hushed.trans {s'' : FsState} (h : Hushed s s') (h' : Hushed s' s'') : Hushed s s'' :=
  ⟨h.same.trans h'.same, h'.log.trans h.log, h'.switch.trans h.switch⟩

theorem Hushed.course (h : Hushed s s') : Course s bad s' :=
  Or.inl ⟨by rw [h.log]; exact .refl, h.switch⟩

theorem Course.before (h : Hushed s s1) (hc : Course s1 bad s') : Course s bad s' := by
  unfold Course at hc ⊢
  rw [h.same.origin, h.log, h.switch] at hc
  refine hc.imp_right fun ⟨hb, hbroken⟩ => ⟨hb, ?_⟩
  cases hbroken with
  | read lba hlog hd => exact .read lba (hlog.trans (by rw [h.log])) (hd.trans h.switch)
  | refused lba log hlog hgood hd =>
    rw [h.same.origin, h.log] at hgood
    exact .refused lba log hlog hgood (hd.trans h.switch)
  | failed e log hlog he hgood hd =>
    rw [h.same.origin, h.log] at hgood
    exact .failed e log hlog he hgood hd

variable {bad' : Prop} {β : Type} {err held : Multiset Nat} {r0 : Except Errno (Nat × FatItem)}
  {path : List (List UInt8)} {filename : List UInt8}

theorem Course.after (hc : Course s bad s1) (h : Hushed s1 s') (hbad : bad → bad') :
    Course s bad' s' := by
  rcases hc with ⟨hsteps, hd⟩ | ⟨hb, hbroken⟩
  · exact Or.inl ⟨by rw [h.log]; exact hsteps, h.switch.trans hd⟩
  · refine Or.inr ⟨hbad hb, ?_⟩
    cases hbroken with
    | read lba hlog hd => exact .read lba (h.log.trans hlog) (h.switch.trans hd)
    | refused lba log hlog hgood hd =>
      exact .refused lba log (h.log.trans hlog) hgood (h.switch.trans hd)
    | failed e log hlog he hgood hd =>
      exact .failed e log (h.log.trans hlog) he hgood (h.switch.trans hd)

theorem Course.mono (hc : Course s bad s') (hbad : bad → bad') :
    Course s bad' s' := hc.after (.refl s') hbad

theorem hushed_calm (hq : Quiet s s') (hc : Calm s s') : Hushed s s' :=
  ⟨hq.same, hc.1, by rw [hq.vol]⟩

theorem hushed_frees {q : Multiset Nat} {f : FsState → FsState} (h : Frees q f) (s : FsState) :
    Hushed s (f s) := hushed_calm (h.quiet s) (h.calm s)

theorem course_trouble (h : Trouble s s') (hb : bad)
    (hd : s'.vol.mutationDisabled = s.vol.mutationDisabled) : Course s bad s' := by
  cases h with
  | heap hlog hr => exact Or.inl ⟨by rw [hlog]; exact .refl, hd⟩
  | read lba n hlog hn => exact Or.inr ⟨hb, .read lba hlog hd⟩

theorem course_reads {sh : Shape α β} {den : Except Errno β} {r : Except Errno α}
    (h : ReadsTo held err sh den s r s') : Course s (∃ e, r = .error e) s' := by
  rcases h.outcome with ⟨hc, -⟩ | ⟨ht, e, hr, -⟩
  · exact (hushed_calm h.quiet hc).course
  · exact course_trouble ht ⟨e, hr⟩ (by rw [h.quiet.vol])

theorem course_prepared {r : Except Errno Unit} (h : PreparedTo s r s') :
    Course s (∃ e, r = .error e) s' := by
  have hd := h.vol.same.2.2.2
  rcases h.outcome with ⟨hc, -⟩ | ⟨ht, he⟩
  · exact Or.inl ⟨by rw [hc.1]; exact .refl, hd⟩
  · exact course_trouble ht he hd

/-- The call failed and every handle is where it was. -/
def Refused {α : Type} (s : FsState) (r : Except Errno α) (s' : FsState) : Prop :=
  (∃ e, r = .error e) ∧ handlesOf s'.vol = handlesOf s.vol

/-- A plan that breaks off leaves the handles where they were. -/
theorem course_acts {sh : Shape α β} {post : FatPrivate → FatPrivate}
    {plan : Except Errno (List Phase × β)} {r : Except Errno α}
    (h : ActsTo held err sh post plan s r s')
    (hplan : ∀ phases b, plan = .ok (phases, b) → ∀ ph ∈ phases, ph.Publishes)
    (hpost : ∀ w, (post w).mutationDisabled = w.mutationDisabled) :
    Course s (Refused s r s') s' := by
  rcases h.outcome with ⟨hv, -, ⟨hc, -⟩ | ⟨ht, e, hr, -⟩⟩ | ⟨-, phases, b, r0, v1, hp, hran, hend⟩
  · exact Or.inl ⟨by rw [hc.1]; exact .refl, by rw [hv]⟩
  · exact course_trouble ht ⟨⟨e, hr⟩, by rw [hv]⟩ (by rw [hv])
  · have hpub := hplan phases b hp
    have htake : ∀ k, handlesOf (afterPhases (phases.take k) s.vol) = handlesOf s.vol ∧
        (afterPhases (phases.take k) s.vol).mutationDisabled = s.vol.mutationDisabled := fun k =>
      handlesOf_after (phases.take k) fun ph hph => hpub ph (List.mem_of_mem_take hph)
    rcases hran.outcome with ⟨h0, hv, -, -, hgood⟩ | ⟨h0, k, -, hf⟩ |
      ⟨h0, k, st, -, -, -, hv, -, -, lba, log, hlog, hgood⟩
    · rcases hend with ⟨-, -, hv'⟩ | ⟨e, he, -⟩
      · refine Or.inl ⟨hgood, ?_⟩
        rw [hv', hpost, show v1 = afterPhases phases s.vol from hv, (handlesOf_after phases hpub).2]
      · rw [h0] at he
        cases he
    · rcases hend with ⟨he, -⟩ | ⟨e, -, hr, hv'⟩
      · rw [h0] at he
        cases he
      · have hv1 : v1 = disabled (afterPhases (phases.take k) s.vol) := hf.vol
        obtain ⟨ev, log, hlog, hfail, hgood⟩ := hf.event
        refine Or.inr ⟨⟨⟨e, hr⟩, ?_⟩, .failed ev log hlog hfail hgood ?_⟩
        · rw [hv', hv1]
          exact (htake k).1
        · rw [hv', hv1]
          rfl
    · rcases hend with ⟨he, -⟩ | ⟨e, -, hr, hv'⟩
      · rw [h0] at he
        cases he
      · have hv1 : v1 = afterPhases (phases.take k) s.vol := hv
        refine Or.inr ⟨⟨⟨e, hr⟩, ?_⟩, .refused lba log hlog hgood ?_⟩
        · rw [hv', hv1]
          exact (htake k).1
        · rw [hv', hv1]
          exact (htake k).2

/-! ## The calls of the driver -/

theorem hushed_prepared (h : PreparedTo s (.ok ()) s') : Hushed s s' :=
  ⟨h.still.same, h.calm.1, h.vol.same.2.2.2⟩

theorem course_write {data : Bytes} (h : WriteCourse desc data count s r s') :
    Course s (Refused s r s') s' := by
  cases h with
  | untargeted _ _ hs => rw [hs]; exact (Hushed.refl s).course
  | nothing _ _ _ hs => rw [hs]; exact (Hushed.refl s).course
  | unprepared _ _ hp hr => exact (course_prepared hp).mono fun _ => ⟨⟨_, hr⟩, handles_prepared hp⟩
  | acted _ _ hp _ _ hact =>
    have hc := course_acts hact (fun phases b h => writePlan_publish h) fun _ => rfl
    exact (hc.before (hushed_prepared hp)).mono fun hb => ⟨hb.1, hb.2.trans (handles_prepared hp)⟩

theorem publishOpened_cases (h : (r, s') = publishOpened mode r0 s) :
    (∃ e, r0 = .error e ∧ r = .error e ∧ s' = s) ∨
      ∃ p, r0 = .ok p ∧ r = .ok p.1 ∧ s' = onVol (addDescriptor mode p) s := by
  cases r0 with
  | error e => exact Or.inl ⟨e, rfl, Prod.ext_iff.mp h⟩
  | ok p => exact Or.inr ⟨p, rfl, Prod.ext_iff.mp h⟩

/-- Opening publishes a handle only when all went well. -/
theorem course_publish (hend : (r, s') = publishOpened mode r0 s1)
    (h : Course s (Refused s r0 s1) s1) : Course s (Refused s r s') s' := by
  rcases publishOpened_cases hend with ⟨e, rfl, hr, rfl⟩ | ⟨p, rfl, hr, rfl⟩
  · exact h.mono fun hb => ⟨⟨e, hr⟩, hb.2⟩
  · refine h.after ⟨.refl _, rfl, rfl⟩ fun ⟨⟨e, he⟩, _⟩ => (by cases he)

theorem course_open (h : OpenCourse path mode s r s') : Course s (Refused s r s') s' := by
  cases h with
  | invalid _ _ hs => rw [hs]; exact (Hushed.refl s).course
  | looked hm hread hend =>
    exact course_publish hend ((course_reads hread).mono fun he =>
      ⟨he, by rw [hread.quiet.vol]⟩)
  | unprepared _ hp hr => exact (course_prepared hp).mono fun _ => ⟨⟨_, hr⟩, handles_prepared hp⟩
  | acted hm hv hp hid hfit hact hend =>
    have hc := course_acts hact (fun phases b h => openPlan_publish hm h) fun _ => rfl
    exact course_publish hend ((hc.before (hushed_prepared hp)).mono fun hb =>
      ⟨hb.1, hb.2.trans (handles_prepared hp)⟩)

theorem course_read {r : Except Errno (Nat × Bytes)} (h : ReadCourse desc count s r s') :
    Course s (Refused s r s') s' := by
  cases h with
  | untargeted _ _ _ hs => rw [hs]; exact (Hushed.refl s).course
  | nothing _ _ _ hs => rw [hs]; exact (Hushed.refl s).course
  | got _ _ _ hread _ hs =>
    rw [hs]
    exact (course_reads hread).after ⟨.refl _, rfl, rfl⟩ fun ⟨e, he⟩ => (by cases he)
  | failed _ _ _ hread hr =>
    exact (course_reads hread).mono fun _ => ⟨⟨_, hr⟩, by rw [hread.quiet.vol]⟩

/-! ## The file functions -/

theorem hushed_new {r : Except Errno FileDescriptor} (h : NewCourse s r s') : Hushed s s' := by
  obtain ⟨hd, hv, -⟩ := h.state
  exact ⟨hd ▸ .refl _, by rw [hd], by rw [hv]⟩

theorem hushed_close (desc : Nat) (s : FsState) : Hushed s (fat16Close desc s) := by
  obtain ⟨hdev, -, -, rest, -, hvol⟩ := close_spec desc s
  exact ⟨hdev ▸ .refl _, by rw [hdev], by rw [hvol]⟩

theorem hushed_fclose (fd : Int) (s : FsState) : Hushed s (fclose fd s).2 := by
  unfold fclose
  cases fileGetDescriptor s fd with
  | none => exact .refl s
  | some desc => exact (hushed_close desc.priv s).trans ⟨.refl _, rfl, rfl⟩

theorem course_disk (h : DiskCourse path mode s r s') : Course s (Refused s r s') s' := by
  cases h with
  | noDescriptor _ hnew _ => exact (hushed_new hnew).course
  | dropped _ hnew hopen hr hs =>
    obtain ⟨-, hv, -⟩ := hnew.state
    rw [hs]
    refine ((course_open hopen).before (hushed_new hnew)).after ⟨.refl _, rfl, rfl⟩ fun hb =>
      ⟨⟨_, hr⟩, ?_⟩
    rw [← hv]
    exact hb.2
  | written _ hnew hopen _ hs =>
    rw [hs]
    exact ((course_open hopen).before (hushed_new hnew)).after ⟨.refl _, rfl, rfl⟩
      fun ⟨⟨e, he⟩, _⟩ => (by cases he)
  | refused _ hopen hr => exact (course_open hopen).mono fun hb => ⟨⟨_, hr⟩, hb.2⟩
  | closed _ hopen hnew _ hs =>
    rw [hs]
    exact (course_open hopen).after ((hushed_new hnew).trans (hushed_close _ _))
      fun ⟨⟨e, he⟩, _⟩ => (by cases he)
  | read _ hopen hnew _ hs =>
    rw [hs]
    exact (course_open hopen).after ((hushed_new hnew).trans ⟨.refl _, rfl, rfl⟩)
      fun ⟨⟨e, he⟩, _⟩ => (by cases he)

theorem course_fopen (h : FopenCourse filename mode s r s') : Course s (Refused s r s') s' := by
  have hcalm : ∀ {root : PathRoot} {s1 : FsState},
      ReadsTo 0 0 (Shape.root 0) (parseOf filename) s (.ok root) s1 → Hushed s s1 := by
    intro root s1 hp
    rcases hp.outcome with ⟨hc, -⟩ | ⟨-, e, he, -⟩
    · exact hushed_calm hp.quiet hc
    · cases he
  cases h with
  | badPath _ _ _ he => rw [he]; exact (Hushed.refl s).course
  | unparsed hparse hr =>
    exact (course_reads hparse).mono fun _ => ⟨⟨_, hr⟩, by rw [hparse.quiet.vol]⟩
  | stopped hparse _ _ he =>
    rw [he]
    exact ((hcalm hparse).trans (hushed_frees (frees_root _) _)).course
  | went hparse _ _ hdisk he =>
    rw [he]
    refine ((course_disk hdisk).before (hcalm hparse)).after (hushed_frees (frees_root _) _)
      fun hb =>
      ⟨hb.1, ?_⟩
    rw [((frees_root _).quiet _).vol, ← hparse.quiet.vol]
    exact hb.2

theorem course_fileOpen (h : FileOpenCourse filename mode s r s') :
    Course s (Refused s r s') s' := by
  cases h with
  | bad _ _ he => rw [he]; exact (Hushed.refl s).course
  | failed _ hopen hr => exact (course_fopen hopen).mono fun hb => ⟨⟨_, hr⟩, hb.2⟩
  | closed _ hopen _ _ he =>
    rw [he]
    exact (course_fopen hopen).after (hushed_fclose _ _) fun ⟨⟨e, he⟩, _⟩ => (by cases he)
  | opened _ hopen _ _ => exact (course_fopen hopen).mono fun ⟨⟨e, he⟩, _⟩ => (by cases he)

theorem hushed_setPos (desc pos : Nat) (s : FsState) : Hushed s (onVol (setPos desc pos) s) :=
  ⟨.refl _, rfl, rfl⟩

/-- The handle at `desc` stands behind the whole items read before the call failed. -/
def Advanced (desc size nmemb : Nat) (s s' : FsState) : Prop :=
  ∃ d k, findDescriptor s.vol desc = some d ∧ k < nmemb ∧
    s'.vol = moved desc d.pos (d.pos + k * size) s.vol

theorem course_items {size nmemb : Nat} {r : Except Errno (Nat × Bytes)}
    (h : ItemsCourse desc size nmemb s r s') :
    Course s ((∃ e, r = .error e) ∧ Advanced desc size nmemb s s') s' := by
  cases h with
  | stopped _ hs => rw [hs]; exact (Hushed.refl s).course
  | @ran d _ _ hd _ _ h =>
    obtain ⟨p, -, hv, hp⟩ := h.vol
    have hswitch : s'.vol.mutationDisabled = s.vol.mutationDisabled := by
      rw [hv]
      unfold moved
      split <;> rfl
    rcases h.outcome with ⟨hc, -⟩ | ⟨ht, e, hr⟩
    · exact (⟨h.still.same, hc.1, hswitch⟩ : Hushed s s').course
    · obtain ⟨k, hk, hpk⟩ := hp e hr
      exact course_trouble ht ⟨⟨e, hr⟩, d, k, hd, hk, hpk ▸ hv⟩ hswitch

/-! ## Operations -/

/-- The call reports a failure; `fopen` has only the descriptor 0 for that. -/
def FileOp.Failing : FileOp → Except Errno Reply → Prop
  | .fopen _ _, r => r = .ok (.number 0)
  | _, r => ∃ e, r = .error e

/-- Where a failing call leaves the positions. -/
def FileOp.Positions (op : FileOp) (s s' : FsState) : Prop :=
  match op with
  | .fread size nmemb fd =>
      ∃ desc, fileGetDescriptor s fd = some desc ∧ Advanced desc.priv size nmemb s s'
  | _ => handlesOf s'.vol = handlesOf s.vol

theorem Refused.reply {r : Except Errno α} (h : Refused s r s') (f : α → Reply) :
    (∃ e, r.map f = .error e) ∧ handlesOf s'.vol = handlesOf s.vol := by
  obtain ⟨⟨e, rfl⟩, hpos⟩ := h
  exact ⟨⟨e, rfl⟩, hpos⟩

/-- Every operation goes well or stops at the first device call that does not. -/
theorem FileOp.course (op : FileOp) (hs : Sane s) :
    Course s (op.Failing (op.run s).1 ∧ op.Positions s (op.run s).2) (op.run s).2 := by
  have hruns := op.runs hs
  generalize (op.run s).1 = r, (op.run s).2 = s' at hruns
  cases hruns with
  | refused | looked => exact (Hushed.refl s).course
  | opened h => exact (course_fileOpen h).mono fun hb => hb.reply _
  | fopened h => exact (course_fopen h).mono fun ⟨⟨e, he⟩, hpos⟩ => ⟨by rw [he]; rfl, hpos⟩
  | read h => exact (course_read h).mono fun hb => hb.reply _
  | wrote _ h => exact (course_write h).mono fun hb => hb.reply _
  | sought | fsought => exact (hushed_setPos _ _ s).course
  | closed => exact (hushed_fclose _ s).course
  | items hd h =>
    exact (course_items h).mono fun ⟨⟨e, he⟩, hadv⟩ => ⟨⟨e, by rw [he]; rfl⟩, _, hd, hadv⟩

/-! ## After a failure -/

/-- The states further operations on the mount can lead to. -/
inductive Later (s : FsState) : FsState → Prop where
  | refl : Later s s
  | op {s1 : FsState} (h : Later s s1) (op : FileOp) : Later s (op.run s1).2
  | others {s1 : FsState} (h : Later s s1) (heap : KHeap) : Later s { s1 with heap }

/-- The outcome of opening a file for reading when `found` is what the path leads to. -/
def OpenedAs (found : Except Errno FatItem) (s : FsState) (r : Except Errno Nat) (s' : FsState) :
    Prop :=
  match found with
  | .error e => r = .error e ∧ s'.vol = s.vol
  | .ok item => ∃ addr got, r = .ok addr ∧ got.plain = item ∧
      s'.vol.descriptors = { addr, item := got, pos := 0, mode := .read } :: s.vol.descriptors

/-- Nothing is written any more, and everything can still be read. -/
structure Frozen (s : FsState) : Prop where
  open_refused : ∀ path mode, mode = .write ∨ mode = .append →
    fat16Open path mode s = (.error .eio, s)
  write_refused : ∀ desc d item data count, WriteTarget s.vol desc d item → 0 < count →
    fat16WriteBytes desc data count s = (.error .eio, s)
  open_read : ∀ path, Prog.Ends (fat16Open path .read) s fun r s' =>
    (Calm s s' ∧ OpenedAs (lookup s.vol s.dev.image path) s r s') ∨
      (Trouble s s' ∧ ∃ e, r = .error e)
  read : ∀ desc count, Prog.Ends (fat16ReadBytes desc count) s fun r s' =>
    (Calm s s' ∧ r = readOf s.vol s.dev.image desc count) ∨ (Trouble s s' ∧ ∃ e, r = .error e)
  read_items : ∀ desc size nmemb d addr item, 0 < size → findDescriptor s.vol desc = some d →
    d.item.node = .file addr item → d.pos ≤ item.filesize →
    Prog.Ends (fat16Read desc size nmemb) s fun r s' =>
      (Calm s s' ∧ r = itemsOf s.vol s.dev.image size item nmemb 0 d.pos 0 fun _ => 0) ∨
        (Trouble s s' ∧ ∃ e, r = .error e)

theorem readOf_target {v : FatPrivate} {img : Bytes} {d : FatFileDescriptor} {item : DirItem}
    (h : ReadTarget v desc d item) : readOf v img desc count =
      if count = 0 ∨ item.filesize ≤ d.pos then .ok (0, fun _ => 0)
      else readAt v img (fat16GetFirstCluster item) d.pos (readLen item d.pos count) >>= fun buf =>
        .ok (readLen item d.pos count, buf) := by
  obtain ⟨addr, hn⟩ := h.file
  unfold readOf
  rw [h.found]
  dsimp only
  rw [if_neg (not_not.mpr h.mode), hn]

/-- A read gives what the cached entry and the FAT lead to, unless a device read or an
allocation fails. -/
theorem readCourse_value {r : Except Errno (Nat × Bytes)} (h : ReadCourse desc count s r s') :
    (Calm s s' ∧ r = readOf s.vol s.dev.image desc count) ∨ (Trouble s s' ∧ ∃ e, r = .error e) := by
  cases h with
  | untargeted _ hr he hs => exact Or.inl ⟨hs ▸ ⟨rfl, rfl⟩, hr.trans he.symm⟩
  | nothing ht h0 hr hs =>
    rw [readOf_target ht, if_pos h0]
    exact Or.inl ⟨hs ▸ ⟨rfl, rfl⟩, hr⟩
  | got ht h0 h1 hread hr hs =>
    rw [readOf_target ht, if_neg (by omega)]
    rcases hread.outcome with ⟨hc, hden⟩ | ⟨-, e, he, -⟩
    · refine Or.inl ⟨hs ▸ hc, ?_⟩
      rw [← hden]
      exact hr
    · cases he
  | failed ht h0 h1 hread hr =>
    rw [readOf_target ht, if_neg (by omega)]
    rcases hread.outcome with ⟨hc, hden⟩ | ⟨htr, e, he, -⟩
    · refine Or.inl ⟨hc, ?_⟩
      rw [← hden]
      exact hr
    · exact Or.inr ⟨htr, _, hr⟩

theorem openRead_value (path : List (List UInt8)) (s : FsState) :
    Prog.Ends (fat16Open path .read) s fun r s' =>
      (Calm s s' ∧ OpenedAs (lookup s.vol s.dev.image path) s r s') ∨
        (Trouble s s' ∧ ∃ e, r = .error e) := by
  have hread : Prog.Ends (openPair path .read) s (ReadsTo 0 0 .opened
    (lookup s.vol s.dev.image path) s) :=
    reading_openPair path s rfl rfl
  have hend : ((fat16Open path .read s).1, (fat16Open path .read s).2) =
      publishOpened .read (openPair path .read s).1 (openPair path .read s).2 :=
        fat16Open_eq path .read s
  unfold Prog.Ends at hread ⊢
  rcases publishOpened_cases hend with ⟨e, h0, hr, hs⟩ | ⟨p, h0, hr, hs⟩
  · rw [hr, hs]
    rcases hread.outcome with ⟨hc, hden⟩ | ⟨htr, -⟩
    · refine Or.inl ⟨hc, ?_⟩
      rw [← hden, h0]
      exact ⟨rfl, hread.quiet.vol⟩
    · exact Or.inr ⟨htr, e, rfl⟩
  · rw [hr, hs]
    rcases hread.outcome with ⟨hc, hden⟩ | ⟨-, e, he, -⟩
    · refine Or.inl ⟨hc, ?_⟩
      rw [← hden, h0]
      refine ⟨p.1, p.2, rfl, rfl, ?_⟩
      show _ :: (openPair path .read s).2.vol.descriptors = _
      rw [hread.quiet.vol]
      rfl
    · rw [h0] at he
      cases he

/-- A mount whose switch is set does no more than read. -/
theorem frozen_disabled (h : s.vol.mutationDisabled = true) : Frozen s := by
  have hprep : fat16PrepareWrite s = (.error .eio, s) := by
    unfold fat16PrepareWrite
    rw [Prog.bind_ok (Prog.look_apply _ s), if_pos h]
    rfl
  refine ⟨fun path mode hmode => ?_, fun desc d item data count ht h0 => ?_,
    fun path => openRead_value path s, fun desc count =>
      readCourse_value (fat16ReadBytes_spec desc count s),
    fun desc size nmemb d addr item hsize hd hf hle => ?_⟩
  · rw [fat16Open_eq, if_neg (by rcases hmode with rfl | rfl <;> decide),
      if_pos (by rcases hmode with rfl | rfl <;> decide), hprep]
  · obtain ⟨addr, hn⟩ := ht.file
    unfold fat16WriteBytes
    rw [Prog.bind_ok (Prog.look_apply _ s), ht.found]
    dsimp only
    rw [hn]
    dsimp only
    rw [if_neg ht.mode, if_neg (by omega), Prog.bind_error hprep]
  · have hitems := (readItems_spec desc hsize item nmemb 0 d.pos 0 (fun _ => 0) s).outcome
    unfold Prog.Ends
    rw [fat16Read_target hd hf hle]
    exact hitems

/-- The switch never goes back. -/
theorem Course.disabled (h : Course s bad s') (hd : s.vol.mutationDisabled = true) :
    s'.vol.mutationDisabled = true := by
  rcases h with ⟨-, h⟩ | ⟨-, hb⟩
  · exact h.trans hd
  · cases hb with
    | read _ _ h => exact h.trans hd
    | refused _ _ _ _ h => exact h.trans hd
    | failed _ _ _ _ _ h => exact h

theorem Later.disabled (h : Later s s') (hs : Sane s) (hd : s.vol.mutationDisabled = true) :
    Sane s' ∧ s'.vol.mutationDisabled = true := by
  induction h with
  | refl => exact ⟨hs, hd⟩
  | op _ op ih => exact ⟨(op.kept ih.1).sane ih.1, (op.course ih.1).disabled ih.2⟩
  | others _ heap ih => exact ⟨⟨ih.1.tidy, ih.1.closed⟩, ih.2⟩

/-- The first failing event is the last one, and it set the switch unless it was a read
before the first sector write. -/
theorem Course.failing (h : Course s bad s') {later mid : List Event} {e : Event}
    (hlog : s'.dev.log = later ++ e :: (mid ++ s.dev.log)) (he : e.Failed) :
    bad ∧ later = [] ∧ (e.Mutates ∨ mid ≠ [] → s'.vol.mutationDisabled = true) := by
  have hgood : ∀ {log later}, Steps (fun _ e => e.Good) s.dev.origin s.dev.log log →
      log ≠ later ++ e :: (mid ++ s.dev.log) := by
    intro log later hsteps heq
    obtain ⟨-, hg⟩ := hsteps.event heq
    cases e with
    | readFailed lba => exact hg
    | wrote lba data fate => exact he hg
    | refused lba => exact hg
    | flushed good => exact absurd (he.symm.trans hg) (by decide)
  rcases h with ⟨hsteps, -⟩ | ⟨hb, hbroken⟩
  · exact absurd hlog (hgood hsteps)
  refine ⟨hb, ?_⟩
  have hsplit : ∀ {x log}, s'.dev.log = x :: log →
      Steps (fun _ e => e.Good) s.dev.origin s.dev.log log → later = [] ∧ x = e ∧
        log = mid ++ s.dev.log := by
    intro x log hx hsteps
    rw [hx] at hlog
    cases later with
    | nil => exact ⟨rfl, List.cons_eq_cons.mp hlog⟩
    | cons y later => exact absurd (List.cons_eq_cons.mp hlog).2 (hgood hsteps)
  cases hbroken with
  | read lba hx hd =>
    obtain ⟨h1, rfl, h2⟩ := hsplit hx .refl
    refine ⟨h1, fun hm => ?_⟩
    rcases hm with hm | hm
    · exact absurd hm id
    · exact absurd (List.append_left_eq_self.mp h2.symm) hm
  | refused lba log hx hsteps hd =>
    obtain ⟨-, rfl, -⟩ := hsplit hx hsteps
    exact absurd he id
  | failed x log hx _ hsteps hd => exact ⟨(hsplit hx hsteps).1, fun _ => hd⟩

/-- A device call that fails is the last of its operation: the operation reports a failure
and the handles stay where they were, an item read behind its whole items. Was the call
a write or a flush, or came it after a sector write, then for good nothing is written and
everything can be read. -/
theorem device_failure {s : FsState} (h : Reachable s) (op : FileOp) {later mid : List Event}
    {e : Event} (hlog : (op.run s).2.dev.log = later ++ e :: (mid ++ s.dev.log)) (he : e.Failed) :
    op.Failing (op.run s).1 ∧ op.Positions s (op.run s).2 ∧ later = [] ∧
      (e.Mutates ∨ (∃ lba data fate, Event.wrote lba data fate ∈ mid) →
        ∀ s', Later (op.run s).2 s' → Frozen s') := by
  have hsane := h.sane
  obtain ⟨⟨hfail, hpos⟩, hlast, hswitch⟩ := (op.course hsane).failing hlog he
  refine ⟨hfail, hpos, hlast, fun hm s' hlater => ?_⟩
  have hd : (op.run s).2.vol.mutationDisabled = true := by
    apply hswitch
    refine hm.imp_right fun ⟨lba, data, fate, hmem⟩ => ?_
    exact List.ne_nil_of_mem hmem
  exact frozen_disabled (hlater.disabled ((op.kept hsane).sane hsane) hd).2

/-- The drive fails the command with number `n`. -/
def failingAt (n : Nat) : Nat → Fate := fun i => if i = n then .lost else .done

/-- The sector of a read that failed. -/
def Event.failedRead : Event → Option Nat
  | .readFailed lba => some lba
  | _ => none

theorem log_failedRead {log : List Event} {lba : Nat} (h : log.map Event.failedRead = [some lba]) :
    log = [.readFailed lba] := by
  obtain ⟨e, rfl, he⟩ := List.map_eq_singleton_iff.mp h
  cases e with
  | readFailed x => cases he; rfl
  | wrote _ _ _ | refused _ | flushed _ => cases he

instance : DecidablePred Event.Mutates := fun e => by
  cases e <;> unfold Event.Mutates <;> infer_instance

/-- The small volume with `A` open for appending, on a drive that fails command 40. -/
def smallAppend : FsState := ((FileOp.open smallPath .append).run (smallMount (failingAt 40))).2

/-- Appending three bytes writes a sector, and then the flush fails. -/
theorem device_failure_write : ∃ e mid, Reachable smallAppend ∧ e.Failed ∧ e.Mutates ∧
    ((FileOp.write 1 (fun _ => 7) 3).run smallAppend).2.dev.log =
      e :: (mid ++ smallAppend.dev.log) ∧
    (∃ err, ((FileOp.write 1 (fun _ => 7) 3).run smallAppend).1 = .error err) ∧
    ∀ s', Later ((FileOp.write 1 (fun _ => 7) 3).run smallAppend).2 s' → Frozen s' := by
  have hreach : Reachable smallAppend := .op (smallMount_reachable _) _
  have hrun : ((FileOp.write 1 (fun _ => 7) 3).run smallAppend).2.dev.log.head?.any
      (fun e => decide e.Mutates) = true ∧ smallAppend.vol.mutationDisabled = false ∧
      ((FileOp.write 1 (fun _ => 7) 3).run smallAppend).2.vol.mutationDisabled = true := by
    decide +kernel
  obtain ⟨hhead, hbefore, hafter⟩ := hrun
  have hswitch : ∀ {b : Bool}, ((FileOp.write 1 (fun _ => 7) 3).run
      smallAppend).2.vol.mutationDisabled = b → b = smallAppend.vol.mutationDisabled → False := by
    intro b h1 h2
    rw [hafter] at h1
    rw [← h1, hbefore] at h2
    cases h2
  rcases (FileOp.write 1 (fun _ => 7) 3).course hreach.sane with ⟨-, h⟩ | ⟨-, hbroken⟩
  · exact (hswitch h rfl).elim
  cases hbroken with
  | read _ _ h => exact (hswitch h rfl).elim
  | refused _ _ _ _ h => exact (hswitch h rfl).elim
  | failed e log hlog he hgood _ =>
    obtain ⟨mid, rfl⟩ := hgood.suffix
    have hm : e.Mutates := by
      rw [hlog] at hhead
      exact of_decide_eq_true hhead
    have hlog' : ((FileOp.write 1 (fun _ => 7) 3).run smallAppend).2.dev.log =
        [] ++ e :: (mid ++ smallAppend.dev.log) := hlog
    obtain ⟨hfail, -, -, hfrozen⟩ := device_failure hreach (.write 1 (fun _ => 7) 3) hlog' he
    exact ⟨e, mid, hreach, he, hm, hlog, hfail, hfrozen (Or.inl hm)⟩

/-- A read of two items that fails in the second one has moved on by the first, and
`fopen` gives 0 for a failed read. -/
theorem fread_fopen_failure :
    (∃ s op lba, Reachable s ∧ (FileOp.run op s).2.dev.log = .readFailed lba :: s.dev.log ∧
      handlesOf (FileOp.run op s).2.vol ≠ handlesOf s.vol) ∧
    (∃ s op lba, Reachable s ∧ (FileOp.run op s).2.dev.log = .readFailed lba :: s.dev.log ∧
      (FileOp.run op s).1 = .ok (.number 0)) := by
  constructor
  · -- mounting takes two reads, opening none, the first item one
    refine ⟨((FileOp.open smallPath .read).run (smallMount (failingAt 3))).2, .fread 1 2 1, 36,
      .op (smallMount_reachable _) _, ?_, by decide +kernel⟩
    rw [List.map_eq_nil_iff.mp (show (((FileOp.open smallPath .read).run
      (smallMount (failingAt 3))).2.dev.log.map Event.failedRead) = [] by decide +kernel)]
    exact log_failedRead (by decide +kernel)
  · refine ⟨smallMount (failingAt 2), .fopen smallPath [0x77], 1, smallMount_reachable _, ?_, ?_⟩
    · rw [List.map_eq_nil_iff.mp (show ((smallMount (failingAt 2)).dev.log.map Event.failedRead) =
        [] by decide +kernel)]
      exact log_failedRead (by decide +kernel)
    · rw [fopen_reply, show (fopenStatus smallPath [0x77] (smallMount (failingAt 2))).1 =
        .error .eio by decide +kernel]
      rfl

end Rorthox.Fs
