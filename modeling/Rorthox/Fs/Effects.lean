import Rorthox.Fs.Failure

/-!
# What an operation sends to the drive

Every operation carries out at most one plan. Whatever comes before and after it sends nothing
to the drive, so the effect of an operation on the disk is that of its plan.
-/

namespace Rorthox.Fs

open Lib Fat Disk Memory

/-- The cached root directory, the header and the switch are as before. -/
structure SameRoot (v w : FatPrivate) : Prop where
  root : w.rootDirectory = v.rootDirectory
  header : w.header = v.header
  switch : w.mutationDisabled = v.mutationDisabled

theorem SameRoot.refl (v : FatPrivate) : SameRoot v v := ⟨rfl, rfl, rfl⟩

variable {v w : FatPrivate} {s s' : FsState} {r : Except Errno Nat} {mode : FileMode}
  {path : List (List UInt8)}

theorem SameRoot.trans {u : FatPrivate} (h : SameRoot u v) (h' : SameRoot v w) : SameRoot u w :=
  ⟨h'.root.trans h.root, h'.header.trans h.header, h'.switch.trans h.switch⟩

theorem SameRoot.of_eq (h : w = v) : SameRoot v w := h ▸ .refl v

theorem SameRoot.checked {d : Device} (h : Checked d v w) : SameRoot v w :=
  ⟨h.same.2.1, h.same.2.2.1, h.same.2.2.2⟩

/-- Nothing was sent to the drive. -/
structure Silent (s s' : FsState) : Prop where
  same : s.dev.Same s'.dev
  steps : Steps (fun _ e => ∃ lba, e = .readFailed lba) s.dev.origin s.dev.log s'.dev.log
  root : SameRoot s.vol s'.vol
  vetted : s'.vol.writeReady = true → Vetted s

theorem Silent.of_log (hd : s.dev.Same s'.dev) (hl : s'.dev.log = s.dev.log)
    (hr : SameRoot s.vol s'.vol) (hw : s'.vol.writeReady = true → Vetted s) : Silent s s' :=
  ⟨hd, by rw [hl]; exact .refl, hr, hw⟩

theorem Silent.refl (s : FsState) : Silent s s := .of_log (.refl _) rfl (.refl _) Or.inl

/-- Nothing sent, nothing changed. -/
theorem Silent.replay (h : Silent s s') : ∀ log, s.dev.log <:+ log → log <:+ s'.dev.log →
    Disk.replay s.dev.origin log = s.dev.image := by
  refine h.steps.along (I := fun log => Disk.replay s.dev.origin log = s.dev.image) rfl ?_
  rintro log e - hlog ⟨lba, rfl⟩
  exact hlog

theorem Silent.image (h : Silent s s') : s'.dev.image = s.dev.image := by
  have hend := h.replay s'.dev.log h.steps.suffix (List.suffix_refl _)
  rw [← hend]
  unfold Device.image
  rw [h.same.origin]

theorem Silent.trans {s'' : FsState} (h : Silent s s') (h' : Silent s' s'') : Silent s s'' := by
  refine ⟨h.same.trans h'.same, h.steps.trans ?_, h.root.trans h'.root, fun hw => ?_⟩
  · have hs := h'.steps
    rwa [h.same.origin] at hs
  · rcases h'.vetted hw with hready | hequal
    · exact h.vetted hready
    · rw [h.root.header, h.image] at hequal
      exact Or.inr hequal

theorem Silent.of_dev (hd : s'.dev = s.dev) (hr : SameRoot s.vol s'.vol)
    (hw : s'.vol.writeReady = s.vol.writeReady) : Silent s s' :=
  .of_log (hd ▸ .refl _) (by rw [hd]) hr fun h => Or.inl (hw ▸ h)

theorem silent_trouble (hd : s.dev.Same s'.dev) (hr : SameRoot s.vol s'.vol)
    (hw : s'.vol.writeReady = true → Vetted s) (h : Trouble s s') : Silent s s' := by
  cases h with
  | heap hlog _ => exact .of_log hd hlog hr hw
  | read lba _ hlog _ => exact ⟨hd, by rw [hlog]; exact .snoc .refl ⟨lba, rfl⟩, hr, hw⟩

/-- Nothing sent, and the volume is as before. -/
theorem Silent.of_vol (hd : s.dev.Same s'.dev) (hv : s'.vol = s.vol)
    (h : s'.dev.log = s.dev.log ∨ Trouble s s') : Silent s s' := by
  have hw : s'.vol.writeReady = true → Vetted s := fun hr => Or.inl (hv ▸ hr)
  rcases h with hl | ht
  · exact .of_log hd hl (.of_eq hv) hw
  · exact silent_trouble hd (.of_eq hv) hw ht

theorem silent_reads {α β : Type} {held err : Multiset Nat} {sh : Shape α β} {den : Except Errno β}
    {r : Except Errno α} (h : ReadsTo held err sh den s r s') : Silent s s' := by
  refine .of_vol h.quiet.same h.quiet.vol ?_
  rcases h.outcome with ⟨hc, -⟩ | ⟨ht, -⟩
  · exact Or.inl hc.1
  · exact Or.inr ht

theorem silent_prepared {r : Except Errno Unit} (h : PreparedTo s r s') : Silent s s' := by
  have hr := SameRoot.checked h.vol
  rcases h.outcome with ⟨hc, -⟩ | ⟨ht, -⟩
  · exact .of_log h.still.same hc.1 hr h.vetted
  · exact silent_trouble h.still.same hr h.vetted ht

theorem silent_frees {q : Multiset Nat} {f : FsState → FsState} (h : Frees q f) (s : FsState) :
    Silent s (f s) :=
  .of_vol (h.quiet s).same (h.quiet s).vol (Or.inl (h.calm s).1)

theorem silent_new {r : Except Errno FileDescriptor} (h : NewCourse s r s') : Silent s s' :=
  .of_dev h.state.1 (.of_eq h.state.2.1) (by rw [h.state.2.1])

/-! ## One plan -/

/-- At most one plan was carried out, one that `P` allows on the checked volume; one to its end if
`done`. -/
inductive Acted (P : FatPrivate → List Phase → Prop) (done : Prop) (s s' : FsState) : Prop where
  | silent (h : Silent s s') (hno : ¬ done)
  | ran {s1 s2 : FsState} {n : Nat} {phases : List Phase} {r : Except Errno Unit}
    (hsame : s.dev.Same s1.dev)
      (hlog : s1.dev.log = s.dev.log) (hon : s.vol.mutationDisabled = false)
      (hchecked : Checked s.dev s.vol s1.vol) (hid : s1.dev.identify = .ok n)
      (hfit : Fitted s1.vol n) (hplan : P s1.vol phases) (hran : RanPhases phases s1 r s2)
      (hend : done → r = .ok ()) (hdev : s'.dev = s2.dev) (hroot : SameRoot s2.vol s'.vol)
        (hvetted : Vetted s)

namespace Acted

variable {P Q : FatPrivate → List Phase → Prop} {done : Prop} {s s0 s1 s' : FsState}

theorem after (h : Acted P done s s1) (hd : s'.dev = s1.dev) (hr : SameRoot s1.vol s'.vol)
    (hw : s'.vol.writeReady = s1.vol.writeReady) : Acted P done s s' := by
  cases h with
  | silent h hno => exact .silent (h.trans (.of_dev hd hr hw)) hno
  | ran hsame hlog hon hchecked hid hfit hplan hran hend hdev hroot hvetted =>
    exact .ran hsame hlog hon hchecked hid hfit hplan hran hend (hd.trans hdev)
      (hroot.trans hr) hvetted

theorem before (hd : s.dev.Same s0.dev) (hl : s0.dev.log = s.dev.log) (hv : s0.vol = s.vol)
    (h : Acted P done s0 s') : Acted P done s s' := by
  cases h with
  | silent h hno => exact .silent ((Silent.of_vol hd hv (Or.inl hl)).trans h) hno
  | ran hsame hlog hon hchecked hid hfit hplan hran hend hdev hroot hvetted =>
    refine .ran (hd.trans hsame) (hlog.trans hl) (hv ▸ hon) ?_ hid hfit hplan hran hend
      hdev hroot ?_
    · unfold Checked at hchecked ⊢
      rwa [hd.identify, hv] at hchecked
    · unfold Vetted at hvetted ⊢
      rwa [hv, image_of_log hd hl] at hvetted

theorem mono (h : Acted P done s s') (himp : ∀ v phases, P v phases → Q v phases) :
    Acted Q done s s' := by
  cases h with
  | silent h hno => exact .silent h hno
  | ran hsame hlog hon hchecked hid hfit hplan hran hend hdev hroot hvetted =>
    exact .ran hsame hlog hon hchecked hid hfit (himp _ _ hplan) hran hend hdev hroot hvetted

theorem suffix (h : Acted P done s s') : s.dev.log <:+ s'.dev.log := by
  cases h with
  | silent h _ => exact h.steps.suffix
  | ran _ hlog _ _ _ _ _ hran _ hdev _ =>
    rw [hdev, ← hlog]
    exact hran.steps.suffix

theorem imp {done' : Prop} (h : Acted P done s s') (himp : done' → done) : Acted P done' s s' := by
  cases h with
  | silent h hno => exact .silent h fun hd => hno (himp hd)
  | ran hsame hlog hon hchecked hid hfit hplan hran hend hdev hroot hvetted =>
    exact .ran hsame hlog hon hchecked hid hfit hplan hran (fun hd => hend (himp hd)) hdev
      hroot hvetted

end Acted

theorem Silent.acted {P : FatPrivate → List Phase → Prop} (h : Silent s s') :
    Acted P False s s' := .silent h id

/-- What a call does once the check has passed. -/
theorem acted_plan {α β : Type} {held err : Multiset Nat} {sh : Shape α β}
    {post : FatPrivate → FatPrivate} {plan : FatPrivate → Except Errno (List Phase × β)}
    {done : Prop} {s1 : FsState} {r : Except Errno α} {n : Nat} (hp : PreparedTo s (.ok ()) s1)
    (hid : s1.dev.identify = .ok n) (hfit : Fitted s1.vol n)
    (hact : ActsTo held err sh post (plan s1.vol) s1 r s') (hpost : ∀ w, SameRoot w (post w))
    (hdone : done → ∀ e, r ≠ .error e) :
    Acted (fun v phases => ∃ b, plan v = .ok (phases, b)) done s s' := by
  have hstart := silent_prepared hp
  rcases hact.outcome with ⟨hv, -, ⟨hc, e, hr, -⟩ | ⟨ht, e, hr, -⟩⟩ |
    ⟨-, phases, b, r0, v1, hplan, hran, hend⟩
  · exact .silent (hstart.trans (.of_vol hact.still.same hv (Or.inl hc.1))) fun hd => hdone hd e hr
  · exact .silent (hstart.trans (.of_vol hact.still.same hv (Or.inr ht))) fun hd => hdone hd e hr
  · rcases hend with ⟨hr0, -, hv⟩ | ⟨e, -, hr, hv⟩
    · refine .ran hp.still.same hp.calm.1 (hp.ready rfl).1 hp.vol hid hfit ⟨b, hplan⟩ hran
        (fun _ => hr0) rfl ?_ (hp.vetted (hp.ready rfl).2)
      rw [hv]
      exact hpost v1
    · exact .ran hp.still.same hp.calm.1 (hp.ready rfl).1 hp.vol hid hfit ⟨b, hplan⟩ hran
        (fun hd => absurd hr (hdone hd e)) rfl (.of_eq hv) (hp.vetted (hp.ready rfl).2)

theorem acted_write {desc count : Nat} {data : Bytes} (h : WriteCourse desc data count s r s') :
    Acted (fun v phases => ∃ d item b, WriteTarget s.vol desc d item ∧ 0 < count ∧
      writePlan v s.dev.image d item data count = .ok (phases, b)) (0 < count ∧ ∃ m, r = .ok m)
        s s' := by
  have hfailed : ∀ {e}, r = .error e → ¬ (0 < count ∧ ∃ m, r = .ok m) := by
    rintro e hr ⟨-, m, hm⟩
    rw [hr] at hm
    cases hm
  cases h with
  | untargeted _ hr hs => exact .silent (hs ▸ .refl s) (hfailed hr)
  | nothing _ h0 _ hs => exact .silent (hs ▸ .refl s) fun hd => absurd h0 (Nat.ne_of_gt hd.1)
  | unprepared _ _ hp hr => exact .silent (silent_prepared hp) (hfailed hr)
  | @acted d item ht h0 s1 n hp hid hfit hact =>
    rw [hp.image] at hact
    have hplan : Acted (fun v phases => ∃ b, writePlan v s.dev.image d item data count =
        .ok (phases, b)) (0 < count ∧ ∃ m, r = .ok m) s s' :=
      acted_plan hp hid hfit hact (fun w => ⟨rfl, rfl, rfl⟩) fun hd e he => hfailed he hd
    refine hplan.mono fun v phases hplan => ?_
    obtain ⟨b, hb⟩ := hplan
    exact ⟨d, item, b, ht, h0, hb⟩

theorem sameRoot_publish {r0 : Except Errno (Nat × FatItem)}
    (h : (r, s') = publishOpened mode r0 s) : s'.dev = s.dev ∧ SameRoot s.vol s'.vol ∧
      s'.vol.writeReady = s.vol.writeReady := by
  rcases publishOpened_cases h with ⟨e, -, -, rfl⟩ | ⟨p, -, -, rfl⟩
  · exact ⟨rfl, .refl _, rfl⟩
  · exact ⟨rfl, ⟨rfl, rfl, rfl⟩, rfl⟩

/-- The plans of an open for writing, on the content `img`. -/
def OpenPlans (img : Bytes) (path : List (List UInt8)) (mode : FileMode) (v : FatPrivate)
    (phases : List Phase) : Prop :=
  mode ≠ .read ∧ ∃ item, openPlan v img path mode = .ok (phases, item)

theorem acted_open (h : OpenCourse path mode s r s') :
    Acted (OpenPlans s.dev.image path mode) False s s' := by
  cases h with
  | invalid _ _ hs => exact Silent.acted (hs ▸ .refl s)
  | looked _ hread hend =>
    obtain ⟨hd, hr, hw⟩ := sameRoot_publish hend
    exact Silent.acted ((silent_reads hread).trans (.of_dev hd hr hw))
  | unprepared _ hp _ => exact Silent.acted (silent_prepared hp)
  | @acted hm _ s1 n hp hid hfit _ s2 hact hend =>
    obtain ⟨hd, hr, hw⟩ := sameRoot_publish hend
    rw [hp.image] at hact
    have hplan : Acted (fun v phases => ∃ item, openPlan v s.dev.image path mode =
      .ok (phases, item)) False s s2 :=
      acted_plan hp hid hfit hact .refl False.elim
    exact (hplan.mono fun v phases h => ⟨hm, h⟩).after hd hr hw

theorem silent_close (desc : Nat) (s : FsState) : Silent s (fat16Close desc s) := by
  obtain ⟨hdev, -, -, rest, -, hvol⟩ := close_spec desc s
  refine .of_dev hdev ?_ (by rw [hvol])
  rw [hvol]
  exact ⟨rfl, rfl, rfl⟩

/-- A closed file: the device and the root are as before. -/
theorem fclose_keeps (fd : Int) (s : FsState) : (fclose fd s).2.dev = s.dev ∧
    SameRoot s.vol (fclose fd s).2.vol ∧ (fclose fd s).2.vol.writeReady = s.vol.writeReady := by
  unfold fclose
  cases fileGetDescriptor s fd with
  | none => exact ⟨rfl, .refl _, rfl⟩
  | some desc =>
    obtain ⟨hdev, -, -, rest, -, hvol⟩ := close_spec desc.priv s
    have hclosed : (fileFreeDescriptor desc (fat16Close desc.priv s)).vol =
      { s.vol with descriptors := rest } := hvol
    refine ⟨hdev, ?_, by rw [hclosed]⟩
    rw [hclosed]
    exact ⟨rfl, rfl, rfl⟩

/-- Opening for reading sends nothing. -/
theorem silent_open (h : OpenCourse path .read s r s') : Silent s s' := by
  cases h with
  | invalid _ _ hs => exact hs ▸ .refl s
  | looked _ hread hend =>
    obtain ⟨hd, hr, hw⟩ := sameRoot_publish hend
    exact (silent_reads hread).trans (.of_dev hd hr hw)
  | unprepared _ hp _ => exact silent_prepared hp
  | acted hm => exact absurd rfl hm

theorem acted_disk (h : DiskCourse path mode s r s') :
    Acted (OpenPlans s.dev.image path mode) False s s' := by
  have hopened : ∀ {s1 s2 : FsState} {d : Except Errno FileDescriptor} {r : Except Errno Nat},
      NewCourse s d s1 → OpenCourse path mode s1 r s2 →
        Acted (OpenPlans s.dev.image path mode) False s s2 := by
    intro s1 s2 d r hnew hopen
    obtain ⟨hd, hv, -⟩ := hnew.state
    have hacted := acted_open hopen
    rw [hd] at hacted
    exact hacted.before (hd ▸ .refl _) (by rw [hd]) hv
  cases h with
  | noDescriptor _ hnew _ => exact Silent.acted (silent_new hnew)
  | dropped _ hnew hopen _ hs =>
    rw [hs]
    exact (hopened hnew hopen).after rfl (.refl _) rfl
  | written _ hnew hopen _ hs =>
    rw [hs]
    exact (hopened hnew hopen).after rfl (.refl _) rfl
  | refused _ hopen _ => exact acted_open hopen
  | closed hm hopen hnew _ hs =>
    subst hm
    rw [hs]
    exact Silent.acted (((silent_open hopen).trans (silent_new hnew)).trans (silent_close _ _))
  | read hm hopen hnew _ hs =>
    subst hm
    rw [hs]
    exact Silent.acted (((silent_open hopen).trans (silent_new hnew)).trans
      (.of_dev rfl (.refl _) rfl))

/-- The plans of opening a file by its name. -/
def NamePlans (s : FsState) (filename : List UInt8) (mode : FileMode) (v : FatPrivate)
    (phases : List Phase) : Prop :=
  s.mounted = true ∧ ∃ drive path, parseOf filename = .ok (drive, path) ∧
    OpenPlans s.dev.image path mode v phases

theorem acted_fopen {filename : List UInt8} (h : FopenCourse filename mode s r s') :
    Acted (NamePlans s filename mode) False s s' := by
  cases h with
  | badPath _ _ _ he => exact Silent.acted (he ▸ .refl s)
  | unparsed hparse _ => exact Silent.acted (silent_reads hparse)
  | stopped hparse _ _ he =>
    rw [he]
    exact Silent.acted ((silent_reads hparse).trans (silent_frees (frees_root _) _))
  | @went root s1 s2 hparse hgo _ hdisk he =>
    have hq := hparse.quiet
    have hlog : s1.dev.log = s.dev.log := by
      rcases hparse.outcome with ⟨hc, -⟩ | ⟨-, e, hr, -⟩
      · exact hc.1
      · cases hr
    have hmounted : s.mounted = true :=
      Bool.eq_true_of_not_eq_false fun hm => hgo (Or.inr (Or.inr (Or.inl hm)))
    have hacted := acted_disk hdisk
    rw [hq.image] at hacted
    have hnamed := (hacted.before hq.same hlog hq.vol).mono fun v phases h =>
      (⟨hmounted, root.driveNo, _, hparse.ok_view rfl, h⟩ : NamePlans s filename mode v phases)
    obtain ⟨hdev, hvol, -⟩ := frees_root root s2
    rw [he]
    exact hnamed.after hdev (.of_eq hvol) (by rw [hvol])

theorem acted_fileOpen {filename : List UInt8} (h : FileOpenCourse filename mode s r s') :
    Acted (NamePlans s filename mode) False s s' := by
  cases h with
  | bad _ _ he => exact Silent.acted (he ▸ .refl s)
  | failed _ hopen _ => exact acted_fopen hopen
  | @closed fd _ s1 _ hopen _ _ he =>
    obtain ⟨hdev, hroot, hready⟩ := fclose_keeps fd s1
    rw [he]
    exact (acted_fopen hopen).after hdev hroot hready
  | opened _ hopen _ _ => exact acted_fopen hopen

/-- The plans an operation can carry out in `s`. -/
def FileOp.Plans (op : FileOp) (s : FsState) (v : FatPrivate) (phases : List Phase) : Prop :=
  match op with
  | .open filename mode => NamePlans s filename mode v phases
  | .fopen filename modeStr => NamePlans s filename (fileGetModeByString modeStr) v phases
  | .write fd data count => ∃ desc d item b, fileGetDescriptor s fd = some desc ∧
      WriteTarget s.vol desc.priv d item ∧ 0 < count ∧
      writePlan v s.dev.image d item data count = .ok (phases, b)
  | _ => False

/-- The operation changed its file as it was asked to. -/
def FileOp.Completed (op : FileOp) (r : Except Errno Reply) : Prop :=
  match op with
  | .write _ _ count => 0 < count ∧ ∃ m, r = .ok m
  | _ => False

theorem silent_read {desc count : Nat} {r : Except Errno (Nat × Bytes)}
    (h : ReadCourse desc count s r s') : Silent s s' := by
  cases h with
  | untargeted _ _ _ he => exact he ▸ .refl s
  | nothing _ _ _ he => exact he ▸ .refl s
  | got _ _ _ hread _ he =>
    rw [he]
    exact (silent_reads hread).trans (.of_dev rfl ⟨rfl, rfl, rfl⟩ rfl)
  | failed _ _ _ hread _ => exact silent_reads hread

theorem silent_items {desc size nmemb : Nat} {r : Except Errno (Nat × Bytes)}
    (h : ItemsCourse desc size nmemb s r s') : Silent s s' := by
  cases h with
  | stopped _ he => exact he ▸ .refl s
  | ran _ _ _ h =>
    obtain ⟨p, -, hv, -⟩ := h.vol
    have hroot : SameRoot s.vol s'.vol ∧ s'.vol.writeReady = s.vol.writeReady := by
      rw [hv]
      unfold moved
      split <;> exact ⟨⟨rfl, rfl, rfl⟩, rfl⟩
    have hw : s'.vol.writeReady = true → Vetted s := fun h => Or.inl (hroot.2 ▸ h)
    rcases h.outcome with ⟨hc, -⟩ | ⟨ht, -⟩
    · exact .of_log h.still.same hc.1 hroot.1 hw
    · exact silent_trouble h.still.same hroot.1 hw ht

theorem FileOp.acted (op : FileOp) (hs : Sane s) :
    Acted (op.Plans s) (op.Completed (op.run s).1) s (op.run s).2 := by
  have hruns := op.runs hs
  generalize (op.run s).1 = r, (op.run s).2 = s' at hruns
  cases hruns with
  | refused op e =>
    refine .silent (.refl s) fun hdone => ?_
    cases op with
    | write fd data count => cases hdone.2.choose_spec
    | _ => exact hdone
  | looked => exact Silent.acted (.refl s)
  | opened h => exact acted_fileOpen h
  | fopened h => exact acted_fopen h
  | read h => exact Silent.acted (silent_read h)
  | @wrote fd desc count data r s' hd h =>
    refine ((acted_write h).mono fun v phases hplan => ?_).imp fun hdone => ⟨hdone.1, ?_⟩
    · obtain ⟨d, item, b, hplan⟩ := hplan
      exact ⟨desc, d, item, b, hd, hplan⟩
    · obtain ⟨-, m, hm⟩ := hdone
      obtain ⟨k, hk, -⟩ := except_map_ok.mp hm
      exact ⟨k, hk⟩
  | sought | fsought => exact Silent.acted (.of_dev rfl ⟨rfl, rfl, rfl⟩ rfl)
  | closed =>
    obtain ⟨hdev, hroot, hready⟩ := fclose_keeps _ s
    exact Silent.acted (.of_dev hdev hroot hready)
  | items _ h => exact Silent.acted (silent_items h)

end Rorthox.Fs
