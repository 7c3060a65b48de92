import Rorthox.Fs.File
import Rorthox.Fs.PathSpec
import Rorthox.Fat.Calls

/-!
# How the file functions can go

Opening goes through the parser, the table of descriptors and the driver; the other
functions find a descriptor and call the driver. Each statement lists the ways through.
-/

namespace Rorthox.Fs

open Lib Fat Disk Memory

variable {files : Nat → Option FileDescriptor} {s s' : FsState}

theorem freeSlot_spec (left : Nat) : ∀ {i j : Nat},
    freeSlot files left i = some j →
      files j = none ∧ i ≤ j ∧ j < i + left ∧ ∀ k, i ≤ k → k < j → files k ≠ none := by
  induction left with
  | zero => intro i j h; cases h
  | succ left ih =>
    intro i j h
    unfold freeSlot at h
    split at h
    · rename_i hnone
      cases h
      exact ⟨Option.isNone_iff_eq_none.mp hnone, le_rfl, by omega, fun k h1 h2 =>
        absurd h1 (by omega)⟩
    · rename_i hsome
      obtain ⟨h1, h2, h3, h4⟩ := ih h
      refine ⟨h1, by omega, by omega, fun k hk hkj => ?_⟩
      rcases Nat.lt_or_ge i k with hlt | hge
      · exact h4 k (by omega) hkj
      · obtain rfl : k = i := by omega
        exact fun hn => hsome (Option.isNone_iff_eq_none.mpr hn)

theorem freeSlot_none (left : Nat) : ∀ {i : Nat},
    freeSlot files left i = none → ∀ k, i ≤ k → k < i + left → files k ≠ none := by
  induction left with
  | zero => intro i _ k h1 h2; omega
  | succ left ih =>
    intro i h k h1 h2
    unfold freeSlot at h
    split at h
    · cases h
    · rename_i hsome
      rcases Nat.lt_or_ge i k with hlt | hge
      · exact ih h k (by omega) (by omega)
      · obtain rfl : k = i := by omega
        exact fun hn => hsome (Option.isNone_iff_eq_none.mpr hn)

/-- A descriptor that has just been taken. -/
def blankDescriptor (i addr : Nat) : FileDescriptor := { addr, index := i + 1, priv := 0 }

inductive NewCourse (s : FsState) (r : Except Errno FileDescriptor) (s' : FsState) : Prop where
  | full (h : freeSlot s.files maxFileDescriptors 0 = none) (hr : r = .error .enomem) (hs : s' = s)
  | noMemory {i : Nat} (h : freeSlot s.files maxFileDescriptors 0 = some i)
      (hk : (kmalloc s.heap 16).1 = none) (hr : r = .error .enomem)
      (hs : s' = { s with heap := (kmalloc s.heap 16).2 })
  | made {i addr : Nat} (h : freeSlot s.files maxFileDescriptors 0 = some i)
      (hk : (kmalloc s.heap 16).1 = some addr) (hr : r = .ok (blankDescriptor i addr))
      (hs : s' = setFile i (some (blankDescriptor i addr)) { s with heap := (kmalloc s.heap 16).2 })

theorem fileNewDescriptor_spec (s : FsState) : Prog.Ends fileNewDescriptor s (NewCourse s) := by
  unfold Prog.Ends fileNewDescriptor
  rw [Prog.bind_ok (Prog.look_apply _ s)]
  cases hfree : freeSlot s.files maxFileDescriptors 0 with
  | none => exact .full hfree rfl rfl
  | some i =>
    dsimp only
    cases hk : kmalloc s.heap 16 with
    | mk o k =>
      cases o with
      | none =>
        rw [Prog.bind_error (show kzalloc .enomem 16 s = (.error .enomem, { s with heap := k }) by
          unfold kzalloc; rw [hk])]
        refine .noMemory hfree ?_ rfl ?_
        · rw [hk]
        · rw [hk]
      | some addr =>
        rw [Prog.bind_ok (show kzalloc .enomem 16 s = (.ok addr, { s with heap := k }) by
          unfold kzalloc; rw [hk])]
        exact .made hfree (show (kmalloc s.heap 16).1 = some addr by rw [hk]) rfl (by rw [hk]; rfl)

/-! ## Opening on the disk -/

/-- The table with a descriptor in place. -/
def attach (i addr priv : Nat) : FsState → FsState :=
  setFile i (some { addr, index := i + 1, priv })

inductive DiskCourse (path : List (List UInt8)) (mode : FileMode) (s : FsState)
    (r : Except Errno Nat) (s' : FsState) : Prop where
  /-- No descriptor for a file that is to be written. -/
  | noDescriptor (hm : mode ≠ .read) {e : Errno} (hnew : NewCourse s (.error e) s')
      (hr : r = .error e)
  /-- The driver refused; the descriptor taken beforehand is given back. -/
  | dropped (hm : mode ≠ .read) {i addr : Nat} {s1 s2 : FsState} {e : Errno}
      (hnew : NewCourse s (.ok (blankDescriptor i addr)) s1)
      (hopen : OpenCourse path mode s1 (.error e) s2) (hr : r = .error e)
      (hs : s' = fileFreeDescriptor (blankDescriptor i addr) s2)
  | written (hm : mode ≠ .read) {i addr : Nat} {s1 s2 : FsState} {priv : Nat}
      (hnew : NewCourse s (.ok (blankDescriptor i addr)) s1)
      (hopen : OpenCourse path mode s1 (.ok priv) s2) (hr : r = .ok (i + 1))
      (hs : s' = attach i addr priv s2)
  | refused (hm : mode = .read) {e : Errno} (hopen : OpenCourse path mode s (.error e) s')
      (hr : r = .error e)
  /-- Open for reading, but there is no descriptor for it. -/
  | closed (hm : mode = .read) {s1 s2 : FsState} {priv : Nat} {e : Errno}
      (hopen : OpenCourse path mode s (.ok priv) s1) (hnew : NewCourse s1 (.error e) s2)
      (hr : r = .error e) (hs : s' = fat16Close priv s2)
  | read (hm : mode = .read) {i addr : Nat} {s1 s2 : FsState} {priv : Nat}
      (hopen : OpenCourse path mode s (.ok priv) s1)
      (hnew : NewCourse s1 (.ok (blankDescriptor i addr)) s2) (hr : r = .ok (i + 1))
      (hs : s' = attach i addr priv s2)

theorem NewCourse.blank {desc : FileDescriptor} (h : NewCourse s (.ok desc) s') :
    ∃ i addr, desc = blankDescriptor i addr := by
  cases h with
  | full _ hr _ => cases hr
  | noMemory _ _ hr _ => cases hr
  | made _ _ hr _ => exact ⟨_, _, Except.ok.inj hr⟩

theorem NewCourse.state {r : Except Errno FileDescriptor} (h : NewCourse s r s') :
    s'.dev = s.dev ∧ s'.vol = s.vol ∧ s'.mounted = s.mounted := by
  cases h with
  | full _ _ hs => rw [hs]; exact ⟨rfl, rfl, rfl⟩
  | noMemory _ _ _ hs => rw [hs]; exact ⟨rfl, rfl, rfl⟩
  | made _ _ _ hs => rw [hs]; exact ⟨rfl, rfl, rfl⟩

theorem openOnDisk_spec (ht : Tidy s.dev.identify s.vol) (path : List (List UInt8))
    (mode : FileMode) : Prog.Ends (openOnDisk path mode) s (DiskCourse path mode s) := by
  unfold openOnDisk
  by_cases hm : mode ≠ .read
  · rw [if_pos hm]
    refine (fileNewDescriptor_spec s).bind (fun desc s1 hnew => ?_) fun e s1 hnew =>
      .noDescriptor hm hnew rfl
    obtain ⟨i, addr, rfl⟩ := hnew.blank
    obtain ⟨hdev, hvol, -⟩ := hnew.state
    have ht1 : Tidy s1.dev.identify s1.vol := by rw [hdev, hvol]; exact ht
    have hopen : Prog.Ends (fat16Open path mode >>= fun priv => do
        Prog.change (setFile i (some { blankDescriptor i addr with priv }))
        pure (i + 1)) s1 fun r s2 =>
          (∃ e, r = .error e ∧ OpenCourse path mode s1 (.error e) s2) ∨
          (∃ priv s3, r = .ok (i + 1) ∧ OpenCourse path mode s1 (.ok priv) s3 ∧
            s2 = attach i addr priv s3) :=
      (fat16Open_spec ht1 path mode).bind
        (fun priv s2 h => Or.inr ⟨priv, s2, rfl, h, rfl⟩) fun e s2 h => Or.inl ⟨e, rfl, h⟩
    refine hopen.undo (fun a s2 h => ?_) fun e s2 h => ?_
    · rcases h with ⟨e, he, -⟩ | ⟨priv, s3, hr, h, hs⟩
      · cases he
      · exact .written hm hnew h hr hs
    · rcases h with ⟨e', he, h⟩ | ⟨priv, s3, hr, -⟩
      · cases he
        exact .dropped hm hnew h rfl rfl
      · cases hr
  · rw [if_neg hm]
    have hread : mode = .read := not_not.mp hm
    refine (fat16Open_spec ht path mode).bind (fun priv s1 hopen => ?_) fun e s1 hopen =>
      .refused hread hopen rfl
    have hnew : Prog.Ends (Prog.undo fileNewDescriptor (fat16Close priv)) s1 fun r s2 =>
        (∃ e s3, r = .error e ∧ NewCourse s1 (.error e) s3 ∧ s2 = fat16Close priv s3) ∨
        (∃ desc, r = .ok desc ∧ NewCourse s1 (.ok desc) s2) :=
      (fileNewDescriptor_spec s1).undo (fun desc s2 h => Or.inr ⟨desc, rfl, h⟩)
        fun e s2 h => Or.inl ⟨e, s2, rfl, h, rfl⟩
    refine hnew.bind (fun desc s2 h => ?_) fun e s2 h => ?_
    · rcases h with ⟨e, s3, he, -⟩ | ⟨desc', hr, h⟩
      · cases he
      · cases hr
        obtain ⟨i, addr, rfl⟩ := h.blank
        exact .read hread hopen h rfl rfl
    · rcases h with ⟨e', s3, he, h, hs⟩ | ⟨desc', hr, -⟩
      · cases he
        exact .closed hread hopen h rfl hs
      · cases hr

/-! ## Opening by name -/

/-- What keeps a parsed path from being opened. -/
def Unopenable (s : FsState) (mode : FileMode) (parsed : Nat × List (List UInt8)) : Prop :=
  parsed.2 = [] ∨ parsed.1 ≠ 0 ∨ s.mounted = false ∨ mode = .invalid

inductive FopenCourse (filename : List UInt8) (mode : FileMode) (s : FsState)
    (r : Except Errno Nat) (s' : FsState) : Prop where
  | badPath (hm : mode ≠ .read) (hpath : fileValidatePath filename = false)
      (hr : r = .error .einvarg) (hs : s' = s)
  | unparsed {e : Errno} (hparse : ReadsTo 0 0 (Shape.root 0) (parseOf filename) s (.error e) s')
      (hr : r = .error e)
  | stopped {root : PathRoot} {s1 : FsState} {e : Errno}
      (hparse : ReadsTo 0 0 (Shape.root 0) (parseOf filename) s (.ok root) s1)
      (hstop : Unopenable s mode (root.driveNo, root.parts.map PathPart.part)) (hr : r = .error e)
      (hs : s' = pathparserFree root s1)
  | went {root : PathRoot} {s1 s2 : FsState}
      (hparse : ReadsTo 0 0 (Shape.root 0) (parseOf filename) s (.ok root) s1)
      (hgo : ¬ Unopenable s mode (root.driveNo, root.parts.map PathPart.part))
      (hpath : mode ≠ .read → fileValidatePath filename = true)
      (hdisk : DiskCourse (root.parts.map PathPart.part) mode s1 r s2)
      (hs : s' = pathparserFree root s2)

theorem fopenStatus_spec (ht : s.mounted = true → Tidy s.dev.identify s.vol)
    (filename modeStr : List UInt8) : Prog.Ends (fopenStatus filename modeStr) s
      (FopenCourse filename (fileGetModeByString modeStr) s) := by
  unfold fopenStatus
  generalize fileGetModeByString modeStr = mode
  refine Prog.ends_guard (fun h => .badPath h.1 (by simpa using h.2) rfl rfl) fun hok => ?_
  have hparse : Prog.Ends (pathparserParse filename) s
      (ReadsTo 0 0 (Shape.root 0) (parseOf filename) s) := reading_parse filename s rfl rfl
  refine hparse.bind (fun root s2 hp => ?_) fun e s2 hp => .unparsed hp rfl
  have hq := hp.quiet
  refine Prog.Ends.finish (R := fun r s3 =>
    (Unopenable s mode (root.driveNo, root.parts.map PathPart.part) ∧ s3 = s2 ∧ ∃ e, r = .error e) ∨
    (¬ Unopenable s mode (root.driveNo, root.parts.map PathPart.part) ∧
      DiskCourse (root.parts.map PathPart.part) mode s2 r s3)) ?_ ?_
  · have hparts : root.parts.map PathPart.part = [] ↔ root.parts = [] := List.map_eq_nil_iff
    refine Prog.ends_guard (fun h1 => Or.inl ⟨Or.inl (hparts.mpr h1), rfl, _, rfl⟩) fun h1 => ?_
    refine Prog.ends_guard (fun h2 => Or.inl ⟨Or.inr (Or.inl h2), rfl, _, rfl⟩) fun h2 => ?_
    refine Prog.ends_look (Prog.ends_guard (fun h3 => ?_) fun h3 => ?_)
    · refine Or.inl ⟨Or.inr (Or.inr (Or.inl ?_)), rfl, _, rfl⟩
      rw [← hq.mounted]
      simpa using h3
    refine Prog.ends_guard (fun h4 => Or.inl ⟨Or.inr (Or.inr (Or.inr h4)), rfl, _, rfl⟩) fun h4 =>
      ?_
    have hm : s.mounted = true := by
      rw [← hq.mounted]
      simpa using h3
    have ht2 : Tidy s2.dev.identify s2.vol := by
      rw [hq.same.identify, hq.vol]
      exact ht hm
    refine (openOnDisk_spec ht2 (root.parts.map PathPart.part) mode).mono fun r s3 h =>
      Or.inr ⟨?_, h⟩
    rintro (h | h | h | h)
    · exact h1 (hparts.mp h)
    · exact h2 h
    · rw [hm] at h
      cases h
    · exact h4 h
  · rintro r s3 (⟨hstop, rfl, e, rfl⟩ | ⟨hgo, hd⟩)
    · exact .stopped hp hstop rfl rfl
    · refine .went hp hgo (fun hm => ?_) hd rfl
      by_contra hv
      exact hok ⟨hm, hv⟩

inductive FileOpenCourse (filename : List UInt8) (mode : FileMode) (s : FsState)
    (r : Except Errno Nat) (s' : FsState) : Prop where
  | bad (h : mode = .invalid ∨ fileValidatePath filename = false) (hr : r = .error .einvarg)
      (hs : s' = s)
  | failed {e : Errno} (hvalid : fileValidatePath filename = true)
      (hopen : FopenCourse filename mode s (.error e) s') (hr : r = .error e)
  /-- It is open but it cannot be asked for its size: a directory. -/
  | closed {fd : Nat} {e : Errno} {s1 : FsState} (hvalid : fileValidatePath filename = true)
      (hopen : FopenCourse filename mode s (.ok fd) s1) (hstat : (fstat fd s1).1 = .error e)
      (hr : r = .error e) (hs : s' = (fclose fd s1).2)
  | opened {fd : Nat} {st : FileStat} (hvalid : fileValidatePath filename = true)
      (hopen : FopenCourse filename mode s (.ok fd) s') (hstat : (fstat fd s').1 = .ok st)
      (hr : r = .ok fd)

theorem modeString_mode {mode : FileMode} : fileGetModeByString (modeString mode) = mode := by
  cases mode <;> rfl

theorem fat16Stat_state (desc : Nat) (s : FsState) : (fat16Stat desc s).2 = s := by
  unfold fat16Stat
  rw [Prog.bind_ok (Prog.look_apply _ s)]
  cases findDescriptor s.vol desc with
  | none => rfl
  | some d =>
    dsimp only
    cases d.item.node <;> rfl

theorem fstat_state (fd : Int) (s : FsState) : (fstat fd s).2 = s := by
  unfold fstat
  cases fileGetDescriptor s fd with
  | none => rfl
  | some desc => exact fat16Stat_state desc.priv s

theorem fileOpen_spec (ht : s.mounted = true → Tidy s.dev.identify s.vol) (filename : List UInt8)
    (mode : FileMode) : Prog.Ends (fileOpen filename mode) s (FileOpenCourse filename mode s) := by
  refine Prog.ends_guard (fun h => .bad (h.imp_right fun h => by simpa using h) rfl rfl) fun hok =>
    ?_
  have hvalid : fileValidatePath filename = true := by
    by_contra h
    exact hok (Or.inr h)
  have hopen := fopenStatus_spec ht filename (modeString mode)
  rw [modeString_mode] at hopen
  refine hopen.bind (fun fd s1 h1 => ?_) fun e s1 h1 => .failed hvalid h1 rfl
  have hstat : Prog.Ends (Prog.undo (fstat fd) fun s => (fclose fd s).2) s1 fun r s2 =>
      (∃ e, r = .error e ∧ (fstat fd s1).1 = .error e ∧ s2 = (fclose fd s1).2) ∨
      (∃ st, r = .ok st ∧ (fstat fd s1).1 = .ok st ∧ s2 = s1) := by
    have hst : Prog.Ends (fstat fd) s1 fun r s2 => r = (fstat fd s1).1 ∧ s2 = s1 :=
      ⟨rfl, fstat_state fd s1⟩
    refine hst.undo (fun st s2 h => Or.inr ⟨st, rfl, h.1.symm, h.2⟩) fun e s2 h =>
      Or.inl ⟨e, rfl, h.1.symm, by rw [h.2]⟩
  refine hstat.bind ?_ ?_
  · rintro st s2 (⟨e, hr, -⟩ | ⟨st', -, hst, rfl⟩)
    · cases hr
    · exact .opened hvalid h1 hst rfl
  · rintro e s2 (⟨e', hr, hst, rfl⟩ | ⟨st', hr, -⟩)
    · cases hr
      exact .closed hvalid h1 hst rfl rfl
    · cases hr

end Rorthox.Fs
