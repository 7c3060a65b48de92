import Rorthox.Fat.Coherence
import Rorthox.Fat.Slots
import Rorthox.Fs.Failure

/-!
# No stale entries

On a volume whose directories and files have chains of their own, and with a drive that does
what it is told, every cached entry is the one on the disk after any operations on the mount.
-/

namespace Rorthox.Fs

open Lib Fat Disk Memory

/-! ## Names that pass the strict check -/

theorem validateParts_rest (path : List UInt8) : ∀ {base ext : Nat} {dot : Bool},
    validateParts path base ext dot = true →
      (path.dropWhile (· ≠ slash)).drop 1 = [] ∨
        validateParts ((path.dropWhile (· ≠ slash)).drop 1) 0 0 false = true := by
  induction path with
  | nil => intro base ext dot _; exact Or.inl rfl
  | cons c path ih =>
    intro base ext dot h
    unfold validateParts at h
    by_cases hc : c = slash
    · rw [if_pos hc] at h
      simp only [Bool.and_eq_true] at h
      right
      rw [List.dropWhile_cons_of_neg (by simp [hc])]
      exact h.2
    · rw [if_neg hc] at h
      rw [List.dropWhile_cons_of_pos (by simpa using hc)]
      split at h
      · simp only [Bool.and_eq_true] at h
        exact ih h.2
      · split at h
        · cases h
        · split at h
          · simp only [Bool.and_eq_true] at h
            exact ih h.2
          · simp only [Bool.and_eq_true] at h
            exact ih h.2

theorem validateParts_first {c : UInt8} {path : List UInt8} (hc : c ≠ slash)
    (h : validateParts (c :: path) 0 0 false = true) : c ≠ 0x2E ∧ 0x20 < c ∧ c < 0x7F := by
  unfold validateParts at h
  rw [if_neg hc] at h
  by_cases hdot : c = 0x2E
  · rw [if_pos hdot] at h
    simp at h
  · rw [if_neg hdot] at h
    by_cases hbad : c ≤ 0x20 ∨ 0x7F ≤ c ∨ c ∈ forbidden
    · rw [if_pos hbad] at h
      cases h
    · rw [not_or, not_or, UInt8.not_le, UInt8.not_le] at hbad
      exact ⟨hdot, hbad.1, hbad.2.1⟩

theorem partsOf_proper (fuel : Nat) : ∀ {path : List UInt8} {parts out : List (List UInt8)},
    (path = [] ∨ validateParts path 0 0 false = true) → (∀ p ∈ parts, ProperName p) →
      partsOf fuel path parts = .ok out → ∀ p ∈ out, ProperName p := by
  induction fuel with
  | zero =>
    intro path parts out _ hparts h
    cases h
    exact hparts
  | succ fuel ih =>
    intro path parts out hvalid hparts h
    obtain ⟨next, hnext, hout⟩ := except_bind_ok.mp h
    cases path with
    | nil =>
      cases hnext
      cases hout
      exact hparts
    | cons c path =>
      have hv : validateParts (c :: path) 0 0 false = true :=
        hvalid.resolve_left (List.cons_ne_nil _ _)
      unfold partOf at hnext
      dsimp only at hnext
      by_cases hc : c = slash
      · rw [if_pos hc] at hnext
        cases hnext
        cases hout
        exact hparts
      · rw [if_neg hc] at hnext
        obtain ⟨-, hnext⟩ := except_guard_ok.mp hnext
        cases hnext
        refine ih (validateParts_rest _ hv) (fun p hp => ?_) hout
        rcases List.mem_append.mp hp with hp | hp
        · exact hparts p hp
        · rw [List.mem_singleton.mp hp, List.takeWhile_cons_of_pos (by simpa using hc)]
          exact ⟨c, _, rfl, validateParts_first hc hv⟩

variable {filename : List UInt8} {s s' : FsState} {mode : FileMode} {r : Except Errno Nat}

theorem parseOf_proper {drive : Nat} {parts : List (List UInt8)}
    (hv : fileValidatePath filename = true) (h : parseOf filename = .ok (drive, parts)) :
    ∀ p ∈ parts, ProperName p := by
  obtain ⟨-, h⟩ := except_guard_ok.mp h
  obtain ⟨-, h⟩ := except_guard_ok.mp h
  obtain ⟨found, hfound, h⟩ := except_bind_ok.mp h
  cases h
  unfold fileValidatePath at hv
  rw [Bool.and_eq_true] at hv
  exact partsOf_proper _ (Or.inr hv.2) (fun p hp => (by cases hp)) (except_mapError_ok.mp hfound)

/-! ## Operations -/

section

variable {dirs : Nat → Option (List Nat)}

theorem coherent_new {r : Except Errno FileDescriptor} (hs : CoherentIn dirs s)
    (h : NewCourse s r s') : CoherentIn dirs s' := by
  obtain ⟨hd, hv, -⟩ := h.state
  exact hs.of_vol hv (by rw [hd])

theorem coherent_frees {q : Multiset Nat} {f : FsState → FsState} (hf : Frees q f)
    (hs : CoherentIn dirs s) :
    CoherentIn dirs (f s) := hs.of_vol (hf.quiet s).vol (hf.quiet s).image

theorem coherent_disk {path : List (List UInt8)}
    (hnames : mode ≠ .read → ∀ name ∈ path, ProperName name) (hdone : Faultless s)
    (hs : CoherentIn dirs s) (h : DiskCourse path mode s r s') : CoherentIn dirs s' := by
  have hopened : ∀ {s1 s2 : FsState} {d : Except Errno FileDescriptor} {r : Except Errno Nat},
      NewCourse s d s1 → OpenCourse path mode s1 r s2 → CoherentIn dirs s2 := by
    intro s1 s2 d r hnew hopen
    exact coherent_open hnames (hdone.of_same (hnew.state.1 ▸ .refl _)) (coherent_new hs hnew) hopen
  cases h with
  | noDescriptor _ hnew _ => exact coherent_new hs hnew
  | dropped _ hnew hopen _ he =>
    rw [he]
    exact (hopened hnew hopen).of_vol rfl rfl
  | written _ hnew hopen _ he =>
    rw [he]
    exact (hopened hnew hopen).of_vol rfl rfl
  | refused _ hopen _ => exact coherent_open hnames hdone hs hopen
  | closed _ hopen hnew _ he =>
    rw [he]
    exact coherent_close _ (coherent_new (coherent_open hnames hdone hs hopen) hnew)
  | read _ hopen hnew _ he =>
    rw [he]
    exact (coherent_new (coherent_open hnames hdone hs hopen) hnew).of_vol rfl rfl

theorem coherent_fopen (hdone : Faultless s) (hs : CoherentIn dirs s)
    (h : FopenCourse filename mode s r s') : CoherentIn dirs s' := by
  have hparsed : ∀ {r : Except Errno PathRoot} {s1 : FsState},
      ReadsTo 0 0 (Shape.root 0) (parseOf filename) s r s1 → CoherentIn dirs s1 := fun hp =>
    hs.of_vol hp.quiet.vol hp.quiet.image
  cases h with
  | badPath _ _ _ he => exact he ▸ hs
  | unparsed hparse _ => exact hparsed hparse
  | stopped hparse _ _ he =>
    rw [he]
    exact coherent_frees (frees_root _) (hparsed hparse)
  | @went root s1 s2 hparse _ hpath hdisk he =>
    rw [he]
    refine coherent_frees (frees_root root) ?_
    refine coherent_disk (fun hm => ?_) (hdone.of_same hparse.quiet.same) (hparsed hparse) hdisk
    rcases hparse.outcome with ⟨-, hden⟩ | ⟨-, e, he', -⟩
    · have hparts : parseOf filename = .ok (root.driveNo, root.parts.map PathPart.part) := hden.symm
      exact parseOf_proper (hpath hm) hparts
    · cases he'

theorem coherent_fclose (fd : Int) (hs : CoherentIn dirs s) : CoherentIn dirs (fclose fd s).2 := by
  unfold fclose
  cases fileGetDescriptor s fd with
  | none => exact hs
  | some desc => exact (coherent_close desc.priv hs).of_vol rfl rfl

theorem coherent_fileOpen (hdone : Faultless s) (hs : CoherentIn dirs s)
    (h : FileOpenCourse filename mode s r s') : CoherentIn dirs s' := by
  cases h with
  | bad _ _ he => exact he ▸ hs
  | failed _ hopen _ => exact coherent_fopen hdone hs hopen
  | closed _ hopen _ _ he =>
    rw [he]
    exact coherent_fclose _ (coherent_fopen hdone hs hopen)
  | opened _ hopen _ _ => exact coherent_fopen hdone hs hopen

/-- An operation leaves nothing stale. -/
theorem FileOp.coherent (op : FileOp) (hsane : Sane s) (hdone : Faultless s)
    (hs : CoherentIn dirs s) : CoherentIn dirs (op.run s).2 := by
  have hruns := op.runs hsane
  generalize (op.run s).1 = r, (op.run s).2 = s' at hruns
  cases hruns with
  | refused | looked => exact hs
  | opened h => exact coherent_fileOpen hdone hs h
  | fopened h => exact coherent_fopen hdone hs h
  | read h => exact coherent_read hs h
  | wrote _ h => exact coherent_write hdone hs h
  | sought | fsought => exact coherent_setPos _ _ hs
  | closed => exact coherent_fclose _ hs
  | items _ h => exact coherent_items hs h

/-- Whatever happens on a mount, its directories stay the same. -/
theorem Later.coherentIn (h : Later s s') (hsane : Sane s) (hdone : Faultless s)
    (hs : CoherentIn dirs s) : Sane s' ∧ Faultless s' ∧ CoherentIn dirs s' := by
  induction h with
  | refl => exact ⟨hsane, hdone, hs⟩
  | op _ op ih =>
    obtain ⟨h1, h2, h3⟩ := ih
    have hk := op.kept h1
    exact ⟨hk.sane h1, h2.of_same hk.same, op.coherent h1 h2 h3⟩
  | others _ heap ih =>
    obtain ⟨h1, h2, h3⟩ := ih
    exact ⟨⟨h1.tidy, h1.closed⟩, h2, h3⟩

end

theorem Later.coherent (h : Later s s') (hsane : Sane s) (hdone : Faultless s) (hs : Coherent s) :
    Sane s' ∧ Faultless s' ∧ Coherent s' := by
  obtain ⟨a, ha⟩ := hs
  obtain ⟨h1, h2, b, -, hb⟩ := h.coherentIn hsane hdone ⟨a, rfl, ha⟩
  exact ⟨h1, h2, b, hb⟩

/-! ## Volumes with disjoint chains -/

/-- A slot that a lookup shows. -/
structure Shown (img : Bytes) (f : Folder) (i : Nat) : Prop where
  live : f.Live img i
  shown : ¬ Skipped (DirItem.load img (f.place i))

/-- The directories of a volume: the root, and the chains its directory entries lead to. -/
inductive Directory (v : FatPrivate) (img : Bytes) : Folder → Prop where
  | root : Directory v img (rootFolder v)
  | sub {f : Folder} {i : Nat} {chain : List Nat} (h : Directory v img f) (hi : Shown img f i)
      (hd : (DirItem.load img (f.place i)).attrib &&& fileSubdirectory ≠ 0)
      (hc : DirChain v img (DirItem.load img (f.place i)).lowFirstCluster chain) :
      Directory v img (chainFolder v chain)

/-- An entry of the volume leads to the directory with this chain. -/
def DirectoryAt (v : FatPrivate) (img : Bytes) (first : Nat) (chain : List Nat) : Prop :=
  DirChain v img first chain ∧ ∃ f i, Directory v img f ∧ Shown img f i ∧
    (DirItem.load img (f.place i)).attrib &&& fileSubdirectory ≠ 0 ∧
    (DirItem.load img (f.place i)).lowFirstCluster = first

/-- The cluster is on the chain of a file. -/
def OnFile (v : FatPrivate) (img : Bytes) (c : Nat) : Prop :=
  ∃ f i k, Directory v img f ∧ Shown img f i ∧
    (DirItem.load img (f.place i)).attrib &&& fileSubdirectory = 0 ∧
    fat16ValidCluster v (DirItem.load img (f.place i)).lowFirstCluster ∧
    clusterWalk v img k (DirItem.load img (f.place i)).lowFirstCluster = .ok c

/-- Directories have chains, and no cluster of one is on the chain of another directory or of
a file. The entries `.` and `..` lead to a directory that is there already. -/
structure DisjointChains (v : FatPrivate) (img : Bytes) : Prop where
  chained : ∀ f i, Directory v img f → Shown img f i →
    (DirItem.load img (f.place i)).attrib &&& fileSubdirectory ≠ 0 →
    fat16ValidCluster v (DirItem.load img (f.place i)).lowFirstCluster →
    ∃ chain, DirChain v img (DirItem.load img (f.place i)).lowFirstCluster chain
  directories : ∀ first first' chain chain' c, DirectoryAt v img first chain →
    DirectoryAt v img first' chain' → c ∈ chain → c ∈ chain' → first = first'
  files : ∀ first chain c, DirectoryAt v img first chain → c ∈ chain → ¬ OnFile v img c

section

variable {v : FatPrivate} {img : Bytes}

open Classical in
/-- What the entries of a volume say about its clusters. -/
noncomputable def allotmentOf (v : FatPrivate) (img : Bytes) : Allotment where
  chain first := if h : ∃ chain, DirectoryAt v img first chain then some h.choose else none
  files := OnFile v img

theorem allotmentOf_chain {first : Nat} {chain : List Nat}
    (h : (allotmentOf v img).chain first = some chain) : DirectoryAt v img first chain := by
  unfold allotmentOf at h
  dsimp only at h
  split at h
  · rename_i hex
    cases h
    exact hex.choose_spec
  · cases h

theorem allotmentOf_at {first : Nat} {f : Folder} (h : (allotmentOf v img).At v first f) :
    Directory v img f := by
  cases h with
  | root => exact .root
  | sub hc =>
    obtain ⟨hchain, g, i, hg, hi, hd, rfl⟩ := allotmentOf_chain hc
    exact .sub hg hi hd hchain

theorem DisjointChains.fits (h : DisjointChains v img) : (allotmentOf v img).Fits v img := by
  constructor
  · intro first chain hc
    exact (allotmentOf_chain hc).1
  · intro first first' chain chain' c hc hc' hm hm'
    exact h.directories first first' chain chain' c (allotmentOf_chain hc) (allotmentOf_chain hc')
      hm hm'
  · intro first chain c hc hm
    exact h.files first chain c (allotmentOf_chain hc) hm
  · rintro c ⟨f, i, k, hf, hi, hd, hv, hwalk⟩ - hnext
    exact ⟨f, i, k + 1, hf, hi, hd, hv, clusterWalk_succ hwalk hnext⟩
  · intro first f i hat hlive hshown hv
    have hf := allotmentOf_at hat
    have hi : Shown img f i := ⟨hlive, hshown⟩
    by_cases hd : (DirItem.load img (f.place i)).attrib &&& fileSubdirectory ≠ 0
    · rw [if_pos hd]
      obtain ⟨chain, hchain⟩ := h.chained f i hf hi hd hv
      have hex : ∃ chain, DirectoryAt v img (DirItem.load img (f.place i)).lowFirstCluster chain :=
        ⟨chain, hchain, f, i, hf, hi, hd, rfl⟩
      exact ⟨hex.choose, dif_pos hex⟩
    · rw [if_neg hd]
      exact ⟨f, i, 0, hf, hi, not_not.mp hd, hv, rfl⟩

end

/-- What a mount caches is on the disk. -/
theorem mounted_cached {s1 : FsState} {vol : FatPrivate} {img : Bytes} {n : Nat}
    (h : ReadsTo 0 0 .mount (mountOf img) s (.ok vol) s1) (hgeo : AcceptedGeometry vol n)
    (hc : DisjointChains vol img) : Cached (allotmentOf vol img) vol img := by
  obtain ⟨-, -, hdesc, -, -⟩ := mounted_plain h
  have hs := mounted_served h (accepted_root hgeo)
  refine ⟨⟨hc.fits, hs.rooted, hs.cached, hs.bound⟩, fun d hd => ?_⟩
  rw [hdesc] at hd
  cases hd

/-- After any operations on a volume with disjoint chains and a drive without faults, the cached
root directory is the one on the disk, with its end where the disk has it, and every open file
has the entry that is on the disk. -/
theorem cached_entries (boot : FsState) {s : FsState} {n : Nat} (hunmounted : boot.mounted = false)
    (hfiles : ∀ i, boot.files i = none) (hmount : (fat16Resolve boot).1 = .ok ())
    (hgeo : AcceptedGeometry (fat16Resolve boot).2.vol n)
    (hchains : DisjointChains (fat16Resolve boot).2.vol boot.dev.image)
    (hdone : ∀ i, boot.dev.fates i = .done) (hs : Later (fat16Resolve boot).2 s) :
    (∀ i, i < rootDirEntries s.vol.header → s.vol.rootDirectory.item i =
      DirItem.load s.dev.image (s.vol.rootDirectory.sectorPos * sectorSize + i * 32)) ∧
    s.vol.rootDirectory.total ≤ rootDirEntries s.vol.header ∧
    (∀ i, i < s.vol.rootDirectory.total → (s.vol.rootDirectory.item i).byte 0 ≠ 0) ∧
    (s.vol.rootDirectory.total < rootDirEntries s.vol.header →
      (s.vol.rootDirectory.item s.vol.rootDirectory.total).byte 0 = 0) ∧
    (∀ d ∈ s.vol.descriptors, ∀ addr item, d.item.node = .file addr item →
      item = DirItem.load s.dev.image d.item.entryPos) ∧
    (∀ d ∈ s.vol.descriptors, ∀ d' ∈ s.vol.descriptors, ∀ addr addr' item item',
      d.item.node = .file addr item → d'.item.node = .file addr' item' →
      d.item.entryPos = d'.item.entryPos →
      item.filesize = item'.filesize ∧ item.lowFirstCluster = item'.lowFirstCluster) := by
  have hspec := fat16Resolve_spec boot
  rw [Prog.ends_iff] at hspec
  have hsane0 : Sane boot := ⟨fun hm => absurd (hunmounted.symm.trans hm) (by decide),
    fun _ => hfiles⟩
  have hsane := sane_mount hspec hsane0
  generalize (fat16Resolve boot).2 = s0 at *
  rw [hmount] at hspec
  have hstart : Faultless s0 ∧ Coherent s0 := by
    cases hspec with
    | failed _ hr => cases hr
    | @mounted vol' s1 h _ he =>
      subst he
      refine ⟨fun i => ?_, allotmentOf vol' boot.dev.image, ?_⟩
      · change s1.dev.fates i = .done
        rw [h.quiet.same.fates]
        exact hdone i
      · change Cached _ vol' s1.dev.image
        rw [h.quiet.image]
        exact mounted_cached h hgeo hchains
  obtain ⟨-, -, a, ha⟩ := hs.coherent hsane hstart.1 hstart.2
  have hplace : ∀ i, s.vol.rootDirectory.sectorPos * sectorSize + i * 32 =
      (rootFolder s.vol).place i := by
    intro i
    rw [ha.rooted.pos]
    rfl
  have hentry : ∀ d ∈ s.vol.descriptors, ∀ addr item, d.item.node = .file addr item →
      item = DirItem.load s.dev.image d.item.entryPos := fun d hd addr item hn =>
    (ha.descriptors d hd addr item hn).load
  refine ⟨fun i hi => ?_, ha.cached.total_le, fun i hi => ?_, fun hlt => ?_, hentry, ?_⟩
  · rw [hplace]
    exact ha.cached.item i hi
  · rw [ha.cached.item i (hi.trans_le ha.cached.total_le), load_first]
    exact ha.cached.used i hi
  · rw [ha.cached.item _ hlt, load_first]
    exact ha.cached.free hlt
  · intro d hd d' hd' addr addr' item item' hn hn' hpos
    rw [hentry d hd addr item hn, hentry d' hd' addr' item' hn', hpos]
    exact ⟨rfl, rfl⟩

/-- The root of the small volume has one entry, the file `A`. -/
theorem small_shown {v : FatPrivate} (hv : v.header = headerOf smallDisk) {i : Nat}
    (h : Shown smallDisk (rootFolder v) i) :
    (DirItem.load smallDisk ((rootFolder v).place i)).attrib &&& fileSubdirectory = 0 := by
  have hplace : ∀ i, (rootFolder v).place i = 17920 + i * 32 := by
    intro i
    change rootSector v.header * sectorSize + i * 32 = _
    rw [hv, show rootSector (headerOf smallDisk) = 35 by decide]
    rfl
  have hzero : i = 0 := by
    by_contra hne
    have hused := h.live.used 1 (by omega)
    rw [hplace] at hused
    exact hused (by decide)
  rw [hzero, hplace]
  decide

theorem small_disjoint {v : FatPrivate} (hv : v.header = headerOf smallDisk) :
    DisjointChains v smallDisk := by
  have honly : ∀ f, Directory v smallDisk f → f = rootFolder v := by
    intro f hf
    induction hf with
    | root => rfl
    | sub _ hi hd _ ih =>
      subst ih
      exact absurd (small_shown hv hi) hd
  have hnone : ∀ f i, Directory v smallDisk f → Shown smallDisk f i →
      (DirItem.load smallDisk (f.place i)).attrib &&& fileSubdirectory = 0 := by
    intro f i hf hi
    obtain rfl := honly f hf
    exact small_shown hv hi
  constructor
  · intro f i hf hi hd
    exact absurd (hnone f i hf hi) hd
  · rintro _ _ _ _ _ ⟨-, f, i, hf, hi, hd, -⟩
    exact absurd (hnone f i hf hi) hd
  · rintro _ _ _ ⟨-, f, i, hf, hi, hd, -⟩
    exact absurd (hnone f i hf hi) hd

theorem small_header : (fat16Resolve (smallBoot fun _ => .done)).2.vol.header =
    headerOf smallDisk := by
  have hspec := fat16Resolve_spec (smallBoot fun _ => .done)
  rw [Prog.ends_iff] at hspec
  have hok : (fat16Resolve (smallBoot fun _ => .done)).1 = .ok () := by decide +kernel
  generalize fat16Resolve (smallBoot fun _ => .done) = p at hspec hok
  obtain ⟨r, s'⟩ := p
  dsimp only at hspec hok ⊢
  subst hok
  cases hspec with
  | failed _ hr => cases hr
  | mounted h _ he =>
    rw [he]
    exact (mounted_plain h).1

/-- On the small volume with `A` truncated, the one open entry is that on the disk. -/
theorem cached_entries_small :
    ((FileOp.open smallPath .write).run
      (fat16Resolve (smallBoot fun _ => .done)).2).2.vol.descriptors.length = 1 ∧
    ∀ d ∈ ((FileOp.open smallPath .write).run
      (fat16Resolve (smallBoot fun _ => .done)).2).2.vol.descriptors, ∀ addr item,
      d.item.node = .file addr item →
      item = DirItem.load ((FileOp.open smallPath .write).run
        (fat16Resolve (smallBoot fun _ => .done)).2).2.dev.image d.item.entryPos := by
  refine ⟨by decide +kernel, ?_⟩
  have himg : (smallBoot fun _ => .done).dev.image = smallDisk := rfl
  have hchains : DisjointChains (fat16Resolve (smallBoot fun _ => .done)).2.vol
      (smallBoot fun _ => .done).dev.image := by
    rw [himg]
    exact small_disjoint small_header
  have hlater : Later (fat16Resolve (smallBoot fun _ => .done)).2
      ((FileOp.open smallPath .write).run (fat16Resolve (smallBoot fun _ => .done)).2).2 :=
        .op .refl _
  have hgeo : AcceptedGeometry (fat16Resolve (smallBoot fun _ => .done)).2.vol 4200 := by
    decide +kernel
  have hall := cached_entries (smallBoot fun _ => .done) rfl (fun _ => rfl) (by decide +kernel) hgeo
    hchains (fun _ => rfl) hlater
  exact hall.2.2.2.2.1

end Rorthox.Fs
