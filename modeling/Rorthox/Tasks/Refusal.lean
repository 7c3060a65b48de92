import Rorthox.Fat.Admission
import Rorthox.Tasks.HandleSpec

/-!
# Refused mutations

On a drive that fails no command and turns away only writes behind its capacity, everything is
looked up and reserved before the first sector goes out, and of the stores only that of a directory
entry can lie behind the capacity. An open stores the entry first, so a refused open has changed
nothing. A write stores it last: it is refused with something changed just when it passes every
check, its entry lies behind the capacity, and what comes before the entry shows on the drive.
-/

namespace Rorthox.Tasks

open Lib Fat Fs Memory Disk

/-- The drive content, the open files and the heap are as before. -/
structure Unchanged (s s' : FsState) : Prop where
  image : s'.dev.image = s.dev.image
  files : s'.files = s.files
  /-- Positions and cached entries included. -/
  descriptors : s'.vol.descriptors = s.vol.descriptors
  heap : s'.heap.heap = s.heap.heap

theorem Unchanged.refl (s : FsState) : Unchanged s s := ⟨rfl, rfl, rfl, rfl⟩

/-- The disk and the driver's list; the tables around them are settled by `Neutral`. -/
structure Undone (s s' : FsState) : Prop where
  image : s'.dev.image = s.dev.image
  descriptors : s'.vol.descriptors = s.vol.descriptors

theorem Undone.refl (s : FsState) : Undone s s := ⟨rfl, rfl⟩

variable {s s' : FsState} {phases : List Phase} {e : Errno} {n : Nat} {path : List (List UInt8)}
  {mode : FileMode} {filename : List UInt8}

theorem Undone.trans {s'' : FsState} (h : Undone s s') (h' : Undone s' s'') : Undone s s'' :=
  ⟨h'.image.trans h.image, h'.descriptors.trans h.descriptors⟩

theorem undone_quiet (h : Quiet s s') : Undone s s' := ⟨h.image, by rw [h.vol]⟩

theorem undone_prepared {r : Except Errno Unit} (h : PreparedTo s r s') : Undone s s' :=
  ⟨h.image, h.vol.same.1⟩

theorem undone_new {r : Except Errno FileDescriptor} (h : NewCourse s r s') : Undone s s' := by
  obtain ⟨hdev, hvol, -⟩ := h.state
  exact ⟨by rw [hdev], by rw [hvol]⟩

theorem unchanged_of (hn : Neutral s s') (hu : Undone s s') : Unchanged s s' := by
  have howns := hn.heap s.heap 0 (by rw [add_zero]; exact .refl _)
  rw [add_zero] at howns
  exact ⟨hu.image, hn.files, hu.descriptors, howns.done⟩

/-! ## Phases -/

/-- Every store behind the first phase lies below the capacity. -/
def SafeTail (n : Nat) (phases : List Phase) : Prop :=
  ∀ ph ∈ phases.tail, ∀ st ∈ ph.stores, st.pos + st.len ≤ n * sectorSize

theorem phaseStores_tail {k : Nat} {st : Store} (h : st ∈ phaseStores phases (k + 1)) :
    ∃ ph ∈ phases.tail, st ∈ ph.stores := by
  cases phases with
  | nil => cases h
  | cons ph phases =>
    rw [phaseStores, List.getElem?_cons_succ] at h
    cases hk : phases[k]? with
    | none =>
      rw [hk] at h
      cases h
    | some ph' =>
      rw [hk] at h
      exact ⟨ph', List.mem_of_getElem? hk, h⟩

/-- A run that ends early ends before its first sector. -/
theorem RanPhases.undone (h : RanPhases phases s (.error e) s') (hdone : Faultless s)
    (hid : s.dev.identify = .ok n) (htail : SafeTail n phases) :
    s'.vol = s.vol ∧ s'.dev.image = s.dev.image := by
  rcases h.outcome with ⟨hr, -⟩ | ⟨-, k, -, hf⟩ | ⟨-, k, st, hst, hk, hcap, hvol, himg, -⟩
  · cases hr
  · obtain ⟨i, hi⟩ := hf.fate
    exact absurd (hdone i) hi
  · cases k with
    | zero => exact ⟨hvol, himg⟩
    | succ k =>
      obtain ⟨ph, hph, hmem⟩ := phaseStores_tail (k := k) (hst ▸ List.mem_singleton_self st)
      have hin := htail ph hph st hmem
      have hout := hcap n hid
      omega

theorem ActsTo.undone {α β : Type} {held err : Multiset Nat} {sh : Shape α β}
    {post : FatPrivate → FatPrivate} {plan : Except Errno (List Phase × β)}
    (h : ActsTo held err sh post plan s (.error e) s') (hdone : Faultless s)
    (hid : s.dev.identify = .ok n)
    (htail : ∀ phases b, plan = .ok (phases, b) → SafeTail n phases) : Undone s s' := by
  rcases h.outcome with ⟨hvol, himg, -⟩ | ⟨-, phases, b, r0, v1, hplan, hran,
    ⟨-, hview, -⟩ | ⟨e', hr0, -, hvol⟩⟩
  · exact ⟨himg, by rw [hvol]⟩
  · cases hview
  · rw [hr0] at hran
    obtain ⟨hv1, himg⟩ := RanPhases.undone hran hdone hid (htail phases b hplan)
    have hv : v1 = s.vol := hv1
    exact ⟨himg, by rw [hvol, hv]⟩

/-! ## Opening -/

theorem openPlan_safe {v : FatPrivate} {img : Bytes} (hf : Fitted v n) (hmode : mode ≠ .read)
    {item : FatItem} (h : openPlan v img path mode = .ok (phases, item)) : SafeTail n phases := by
  rcases openPlan_ok hmode h with ⟨-, hc⟩ | ⟨found, addr, entry, -, -, -,
    ⟨-, chain, hchain, rfl, -⟩ | ⟨-, -, rfl, -⟩⟩
  · obtain ⟨start, last, slot, base, ext, -, -, -, -, rfl, -⟩ := createPlan_ok hc
    intro ph hph
    cases hph
  · -- the entry is the first phase; the rest frees clusters of the chain
    intro ph hph st hst
    have hw : ∀ c ∈ chain, Writable v c := ((chainOf_ok_iff entry chain).mp hchain).2.2.1.writable
    obtain ⟨copy, hcopy, rfl⟩ := mem_freePhases hph
    exact (setStores_bound hf 0 hw hcopy st hst).1
  · intro ph hph
    cases hph

section

variable (hmode : mode ≠ .read)
include hmode

theorem undone_open (hdone : Faultless s) (h : OpenCourse path mode s (.error e) s') :
    Undone s s' := by
  cases h with
  | invalid _ _ hs => exact hs ▸ .refl s
  | looked hm => exact absurd hm hmode
  | unprepared _ hp _ => exact undone_prepared hp
  | @acted _ _ s1 n hp hid hfit r0 s2 hact hend =>
    cases r0 with
    | ok p => cases congrArg Prod.fst hend
    | error e' =>
      obtain rfl : s' = s2 := congrArg Prod.snd hend
      refine (undone_prepared hp).trans (ActsTo.undone hact (hdone.of_same hp.still.same) hid
        fun phases b hplan => ?_)
      exact openPlan_safe hfit hmode hplan

theorem undone_disk (hdone : Faultless s) (h : DiskCourse path mode s (.error e) s') :
    Undone s s' := by
  cases h with
  | noDescriptor _ hnew _ => exact undone_new hnew
  | dropped _ hnew hopen _ hs =>
    rw [hs]
    exact (undone_new hnew).trans
      ((undone_open hmode (hdone.of_same (hnew.state.1 ▸ .refl _)) hopen).trans ⟨rfl, rfl⟩)
  | written _ _ _ hr _ => cases hr
  | refused hm => exact absurd hm hmode
  | closed hm => exact absurd hm hmode
  | read hm => exact absurd hm hmode

theorem undone_fopen (hdone : Faultless s) (h : FopenCourse filename mode s (.error e) s') :
    Undone s s' := by
  cases h with
  | badPath _ _ _ hs => exact hs ▸ .refl s
  | unparsed hparse _ => exact undone_quiet hparse.quiet
  | stopped hparse _ _ hs =>
    rw [hs]
    exact (undone_quiet hparse.quiet).trans (undone_quiet ((frees_root _).quiet _))
  | went hparse _ _ hdisk hs =>
    rw [hs]
    have hopen := undone_disk hmode (hdone.of_same hparse.quiet.same) hdisk
    exact (undone_quiet hparse.quiet).trans (hopen.trans (undone_quiet ((frees_root _).quiet _)))

/-- What is open for writing is a file, so it can be asked for its size. -/
theorem fstat_written {fd : Nat} (hs : Sane s) (h : FopenCourse filename mode s (.ok fd) s') :
    ∃ st, (fstat fd s').1 = .ok st := by
  have hkept := kept_fopen hs h
  cases h with
  | badPath _ _ hr _ => cases hr
  | unparsed _ hr => cases hr
  | stopped _ _ hr _ => cases hr
  | @went root s1 s2 hparse hgo _ hdisk he =>
    have hmounted : s.mounted = true := by
      by_contra hm
      exact hgo (Or.inr (Or.inr (Or.inl (by simpa using hm))))
    have htidy := hkept.tidy (hs.tidy hmounted)
    have hq := (frees_root root).quiet s2
    rw [← he] at hq
    cases hdisk with
    | noDescriptor _ _ hr => cases hr
    | dropped _ _ _ hr => cases hr
    | refused hm => exact absurd hm hmode
    | closed hm => exact absurd hm hmode
    | read hm => exact absurd hm hmode
    | @written _ i addr s3 s4 priv hnew hopen hr hs2 =>
      obtain rfl : fd = i + 1 := Except.ok.inj hr
      have hi := (freeSlot_spec _ (new_effect hnew).1).2.2.1
      rw [Nat.zero_add] at hi
      have hslot : s'.files i = some { addr, index := i + 1, priv } := by
        rw [hq.files, hs2]
        exact Function.update_self _ _ _
      obtain ⟨d, hfound, hdmode⟩ : ∃ d, findDescriptor s'.vol priv = some d ∧ d.mode = mode := by
        rw [hq.vol, hs2]
        cases hopen with
        | invalid _ hr _ => cases hr
        | looked hm => exact absurd hm hmode
        | unprepared _ _ hr => cases hr
        | @acted _ _ _ _ _ _ _ r0 s5 _ hend =>
          cases r0 with
          | error e => cases congrArg Prod.fst hend
          | ok p =>
            obtain rfl : priv = p.1 := Except.ok.inj (congrArg Prod.fst hend)
            obtain rfl : s4 = onVol (addDescriptor mode p) s5 := congrArg Prod.snd hend
            exact ⟨_, List.find?_cons_of_pos (by simp), rfl⟩
      obtain ⟨-, a, entry, hnode⟩ := htidy.descriptors d (findDescriptor_mem hfound).1
        (hdmode ▸ hmode)
      rw [fstat, getDescriptor_slot hi, hslot]
      change ∃ st, (fat16Stat priv s').1 = .ok st
      rw [fat16Stat, Prog.bind_ok (Prog.look_apply _ s'), hfound]
      simp only [hnode]
      exact ⟨_, rfl⟩

theorem undone_fileOpen (hs : Sane s) (hdone : Faultless s)
    (h : FileOpenCourse filename mode s (.error e) s') : Undone s s' := by
  cases h with
  | bad _ _ he => exact he ▸ .refl s
  | failed _ hopen hr => exact undone_fopen hmode hdone (Except.error.inj hr ▸ hopen)
  | closed _ hopen hstat _ _ =>
    obtain ⟨st, hst⟩ := fstat_written hmode hs hopen
    rw [hst] at hstat
    cases hstat
  | opened _ _ _ hr => cases hr

end

/-! ## The calls -/

/-- A refused open for writing leaves the drive, the handles and descriptors with their positions
and cached entries, and the heap table as they were. A refused write does so exactly if it is not
one that passes all checks up to the first store and is exposed: its entry behind the capacity of
the drive, with a new cluster or a changed byte before it. -/
theorem refused_mutation {k : Kernel} (hk : Reached k) (hdone : ∀ i, k.fs.dev.fates i = .done) :
    (∀ p path mode e, mode ≠ .read → (processOpenFile p path mode k).1 = .error e →
      (processOpenFile p path mode k).2.processes = k.processes ∧
        Unchanged k.fs (processOpenFile p path mode k).2.fs) ∧
    ∀ fd data count,
      (∀ e, (fileWrite fd data count k.fs).1 = .error e →
        Unchanged k.fs (fileWrite fd data count k.fs).2) ↔
        ∀ desc d item n old, fileGetDescriptor k.fs fd = some desc →
          Admitted k.fs desc.priv count d item n old → ¬ Exposed k.fs data count d item n old := by
  have hg := hk.good
  refine ⟨fun p path mode e hmode herr => ?_, fun fd data count => ?_⟩
  · cases (processOpenFile_spec (p := p) hg path mode).1 with
    | opened _ _ _ _ _ _ _ _ hr =>
      rw [herr] at hr
      cases hr
    | refused _ hprocs hn =>
      refine ⟨hprocs, unchanged_of hn ?_⟩
      revert herr
      unfold processOpenFile
      cases hp : k.processes p with
      | none => exact fun _ => .refl _
      | some process =>
        dsimp only
        cases freeHandle process.files fileMaxOpen 0 with
        | none => exact fun _ => .refl _
        | some h =>
          dsimp only
          have hcourse := Prog.ends_iff.mp (fileOpen_spec hg.sane.tidy path mode)
          have hfs : (k.setHandle p process h (-1)).fs = k.fs := rfl
          rw [hfs]
          cases hrun : fileOpen path mode k.fs with
          | mk r fs =>
            rw [hrun] at hcourse
            cases r with
            | ok fd => exact fun herr => (by cases herr)
            | error e' => exact fun _ => undone_fileOpen hmode hg.sane hdone hcourse
  · unfold fileWrite
    cases hd : fileGetDescriptor k.fs fd with
    | none => exact iff_of_true (fun _ _ => .refl _) fun _ _ _ _ _ h => (by cases h)
    | some desc =>
      dsimp only
      split
      · refine iff_of_true (fun _ _ => .refl _) fun desc' d item n old he ha => ?_
        have hsize := ha.size
        unfold intMax at hsize
        omega
      · have htidy := hg.sane.tidy hg.mounted
        have hcourse := Prog.ends_iff.mp (fat16WriteBytes_spec htidy desc.priv data count)
        have hn := neutral_write hcourse
        have hiff := write_undone_iff htidy hdone hcourse
        constructor
        · intro hun desc' d item n old he
          cases he
          exact hiff.mp (fun e he => ⟨(hun e he).image, (hun e he).descriptors⟩) d item n old
        · intro hsafe e he
          obtain ⟨himg, hdesc⟩ := hiff.mpr (fun d item n old => hsafe desc d item n old rfl) e he
          exact unchanged_of hn ⟨himg, hdesc⟩

/-! ### A directory behind the capacity

The directory `D` has cluster 100, which is sector 134; the drive reports 100 sectors. `D` holds
the file `A` of two bytes, and `A` lies in cluster 2. -/

def farFolder : List UInt8 :=
  0x44 :: List.replicate 10 0x20 ++ 0x10 :: List.replicate 14 0 ++ [100]

def farFat (i : Nat) : UInt8 := if i < 6 then smallFat.getD i 0 else if i / 2 = 100 then 0xFF else 0

def farDisk : Bytes := fun p =>
  if p < 64 then (smallHeader.lookup p).getD 0
  else if p / 512 = 1 ∨ p / 512 = 18 then farFat (p % 512)
  else if p / 512 = 35 then farFolder.getD (p % 512) 0
  else if p / 512 = 134 then smallEntry.getD (p % 512) 0
  else 0

def farBoot : FsState :=
  { heap := bootHeap
    dev := { origin := farDisk, log := [], fates := fun _ => .done, calls := 0,
             identify := .ok 100 }
    mounted := false, vol := noVolume, files := fun _ => none }

def farKernel : Kernel :=
  loadProcess 0 [] { fs := (fat16Resolve farBoot).2, processes := fun _ => none }

/-- `0:/D/A`. -/
def farPath : List UInt8 := [0x30, 0x3A, 0x2F, 0x44, 0x2F, 0x41]

theorem farKernel_reached : Reached farKernel := by
  have hmount : (fat16Resolve farBoot).1 = .ok () := by decide +kernel
  exact .step (.mounted _ _ _ hmount) (.load 0 []) trivial

theorem resolve_same (s : FsState) : s.dev.Same (fat16Resolve s).2.dev := by
  cases Prog.ends_iff.mp (fat16Resolve_spec s) with
  | failed h _ => exact h.quiet.same
  | mounted h _ hs =>
    rw [hs]
    exact h.quiet.same

theorem loadProcess_nothing (p : Nat) (k : Kernel) : (loadProcess p [] k).fs = k.fs := by
  unfold loadProcess
  split <;> rfl

theorem farKernel_done (i : Nat) : farKernel.fs.dev.fates i = .done := by
  rw [farKernel, loadProcess_nothing, (resolve_same farBoot).fates, farBoot]

/-- A new file in `D` is refused before anything is written. -/
theorem refused_mutation_create :
    (processOpenFile 0 [0x30, 0x3A, 0x2F, 0x44, 0x2F, 0x42] .write farKernel).1 = .error .eio ∧
      Unchanged farKernel.fs (processOpenFile 0 [0x30, 0x3A, 0x2F, 0x44, 0x2F, 0x42] .write
        farKernel).2.fs := by
  have hrefused : (processOpenFile 0 [0x30, 0x3A, 0x2F, 0x44, 0x2F, 0x42] .write farKernel).1 =
      .error .eio := by
    decide +kernel
  exact ⟨hrefused, ((refused_mutation farKernel_reached farKernel_done).1 0 _ .write .eio
    (by decide) hrefused).2⟩

/-- `A` open for appending. -/
def farOpen : Kernel := (HandleOp.openFile 0 farPath .append).run farKernel

/-- Appending a byte to `A` is refused when its entry is written, and by then the byte is on the
drive. -/
theorem append_behind_capacity : Reached farOpen ∧ (∀ i, farOpen.fs.dev.fates i = .done) ∧
    (fileWrite 1 (fun _ => 0x58) 1 farOpen.fs).1 = .error .eio ∧
      ¬ Unchanged farOpen.fs (fileWrite 1 (fun _ => 0x58) 1 farOpen.fs).2 := by
  have hkept := (processOpenFile_spec (p := 0) farKernel_reached.good farPath .append).2
  have hrun : (fileWrite 1 (fun _ => 0x58) 1 farOpen.fs).1 = .error .eio ∧
      (fileWrite 1 (fun _ => 0x58) 1 farOpen.fs).2.dev.image 18434 ≠
        farOpen.fs.dev.image 18434 := by
    decide +kernel
  refine ⟨.step farKernel_reached (.openFile 0 farPath .append) trivial, fun i => ?_, hrun.1,
    fun h => ?_⟩
  · rw [farOpen, HandleOp.run, hkept.same.fates]
    exact farKernel_done i
  · exact hrun.2 (congrFun h.image 18434)

end Rorthox.Tasks
