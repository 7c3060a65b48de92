import Rorthox.Fs.Effects
import Rorthox.Fat.Footprint

/-!
# Mutations touch only their own bytes

Which bytes of the disk each operation may change, at every point between its start and its end and
however it ends.
-/

namespace Rorthox.Fs

open Lib Fat Disk Memory

/-! ## The bytes of an operation -/

/-- The bytes that opening a file by its name may change. -/
def NameTouches (v : FatPrivate) (img : Bytes) (filename : List UInt8) (mode : FileMode) (p : Nat) :
    Prop :=
  mode ≠ .read ∧ ∃ drive path, parseOf filename = .ok (drive, path) ∧ OpenTouches v img path mode p

/-- The directory entry that opening a file by its name may change. -/
def NameEntry (v : FatPrivate) (img : Bytes) (filename : List UInt8) (mode : FileMode) (pos : Nat) :
    Prop :=
  mode ≠ .read ∧ ∃ drive path, parseOf filename = .ok (drive, path) ∧ OpenEntry v img path mode pos

/-- The handle is for writing the file of `item`, as `d` has it. -/
def Targets (s : FsState) (fd : Int) (d : FatFileDescriptor) (item : DirItem) : Prop :=
  ∃ desc, fileGetDescriptor s fd = some desc ∧ WriteTarget s.vol desc.priv d item

namespace FileOp

/-- The bytes an operation may change. -/
def Touches (op : FileOp) (s : FsState) (v : FatPrivate) (p : Nat) : Prop :=
  match op with
  | .open filename mode => NameTouches v s.dev.image filename mode p
  | .fopen filename modeStr => NameTouches v s.dev.image filename (fileGetModeByString modeStr) p
  | .write fd _ count => ∃ d item, Targets s fd d item ∧
      WriteTouches v s.dev.image d.item.entryPos item (writeStart d item) count p
  | _ => False

/-- The directory entry an operation may change. -/
def ChangesEntry (op : FileOp) (s : FsState) (v : FatPrivate) (pos : Nat) : Prop :=
  match op with
  | .open filename mode => NameEntry v s.dev.image filename mode pos
  | .fopen filename modeStr => NameEntry v s.dev.image filename (fileGetModeByString modeStr) pos
  | .write fd _ _ => ∃ d item, Targets s fd d item ∧ d.item.entryPos = pos
  | _ => False

/-- The cluster belongs to the file an operation writes to. -/
def OwnCluster (op : FileOp) (s : FsState) (v : FatPrivate) (c : Nat) : Prop :=
  match op with
  | .write fd _ _ =>
    ∃ d item chain, Targets s fd d item ∧ chainOf v s.dev.image item = .ok chain ∧ c ∈ chain
  | _ => False

/-- The cluster is one that an operation takes for the file it writes to. -/
def NewCluster (op : FileOp) (s : FsState) (v : FatPrivate) (c : Nat) : Prop :=
  match op with
  | .write fd _ count => ∃ d item new, Targets s fd d item ∧
      NewClusters v s.dev.image item (writeStart d item) count new ∧ c ∈ new
  | _ => False

theorem NewCluster.free {op : FileOp} {s : FsState} {v : FatPrivate} {c : Nat}
    (h : op.NewCluster s v c) : FreeCluster v s.dev.image c := by
  cases op with
  | write fd data count =>
    obtain ⟨d, item, new, -, hnew, hc⟩ := h
    exact hnew.free c hc
  | _ => exact h.elim

end FileOp

/-! ## Plans -/

/-- What a plan needs of the volume it is carried out on. -/
structure PlanGround (s : FsState) (v : FatPrivate) (n : Nat) : Prop where
  fitted : Fitted v n
  tidy : Tidy s.dev.identify v
  descriptors : v.descriptors = s.vol.descriptors

variable {s s2 : FsState} {v : FatPrivate} {n p c desc : Nat} {filename : List UInt8}
  {mode : FileMode} {op : FileOp} {phases : List Phase} {d : FatFileDescriptor} {item : DirItem}
  {ph : Phase} {st : Store} {img : Bytes} {r : Except Errno Unit}

theorem PlanGround.slot (h : PlanGround s v n) (ht : WriteTarget s.vol desc d item) :
    SlotPos v d.item.entryPos := by
  refine (h.tidy.descriptors d ?_ ht.mode).1
  rw [h.descriptors]
  exact (findDescriptor_mem ht.found).1

section

variable {s : FsState} {v : FatPrivate} {n : Nat} {phases : List Phase}

theorem NamePlans.touches (h : PlanGround s v n) (hroot : RootItems v s.dev.image)
    (hplan : NamePlans s filename mode v phases) (hph : ph ∈ phases) (hst : st ∈ ph.stores)
    (hp : Span st.pos st.len p) : NameTouches v s.dev.image filename mode p := by
  obtain ⟨-, drive, path, hparse, hm, item, hplan⟩ := hplan
  exact ⟨hm, drive, path, hparse, openPlan_touches h.tidy.rooted hroot hm hplan hph hst hp⟩

theorem NamePlans.safe (h : PlanGround s v n) (hplan : NamePlans s filename mode v phases) :
    (∀ ph ∈ phases, RootSafe v ph) ∧ ∀ ph ∈ phases, ph.Publishes := by
  obtain ⟨-, drive, path, -, hm, item, hplan⟩ := hplan
  exact ⟨openPlan_rootSafe h.tidy.rooted h.fitted hm hplan, openPlan_publish hm hplan⟩

/-- The stores of the plans of an operation are among its bytes. -/
theorem FileOp.plans_touches (h : PlanGround s v n) (hroot : RootItems v s.dev.image)
    (hplan : op.Plans s v phases) (hph : ph ∈ phases) (hst : st ∈ ph.stores)
    (hp : Span st.pos st.len p) : op.Touches s v p := by
  cases op with
  | «open» filename mode => exact NamePlans.touches h hroot hplan hph hst hp
  | fopen filename modeStr => exact NamePlans.touches h hroot hplan hph hst hp
  | write fd data count =>
    obtain ⟨desc, d, item, b, hd, ht, -, hplan⟩ := hplan
    exact ⟨d, item, ⟨desc, hd, ht⟩, writePlan_touches h.fitted hplan hph hst hp⟩
  | read _ _ | seek _ _ _ | stat _ | close _ | fseek _ _ _ | fread _ _ _ => exact hplan.elim

theorem FileOp.plans_safe (h : PlanGround s v n) (hplan : op.Plans s v phases) :
    (∀ ph ∈ phases, RootSafe v ph) ∧ ∀ ph ∈ phases, ph.Publishes := by
  cases op with
  | «open» filename mode => exact NamePlans.safe h hplan
  | fopen filename modeStr => exact NamePlans.safe h hplan
  | write fd data count =>
    obtain ⟨desc, d, item, b, -, ht, -, hplan⟩ := hplan
    exact ⟨writePlan_rootSafe h.fitted (h.slot ht) hplan, writePlan_publish hplan⟩
  | read _ _ | seek _ _ _ | stat _ | close _ | fseek _ _ _ | fread _ _ _ => exact hplan.elim

theorem FileOp.plans_mounted (hs : Sane s) (hplan : op.Plans s v phases) : s.mounted = true := by
  cases op with
  | «open» filename mode => exact hplan.1
  | fopen filename modeStr => exact hplan.1
  | write fd data count =>
    obtain ⟨desc, d, item, b, hd, -⟩ := hplan
    exact hs.mounted hd
  | read _ _ | seek _ _ _ | stat _ | close _ | fseek _ _ _ | fread _ _ _ => exact hplan.elim

/-- No operation reaches the boot sector or the rest of the reserved area. -/
theorem FileOp.touches_reserved (h : PlanGround s v n) (ht : op.Touches s v p) :
    reservedSectors v.header * sectorSize ≤ p := by
  cases op with
  | «open» filename mode =>
    obtain ⟨-, drive, path, -, ht⟩ := ht
    exact ht.reserved h.tidy.rooted h.fitted
  | fopen filename modeStr =>
    obtain ⟨-, drive, path, -, ht⟩ := ht
    exact ht.reserved h.tidy.rooted h.fitted
  | write fd data count =>
    obtain ⟨d, item, ⟨desc, -, htarget⟩, ht⟩ := ht
    exact ht.reserved h.fitted (h.slot htarget)
  | read _ _ | seek _ _ _ | stat _ | close _ | fseek _ _ _ | fread _ _ _ => exact ht.elim

theorem NameTouches.cluster (h : PlanGround s v n) (ht : NameTouches v s.dev.image filename mode p)
    (hin : InCluster v c p) : ∃ pos, NameEntry v s.dev.image filename mode pos ∧ Span pos 32 p := by
  obtain ⟨hm, drive, path, hparse, ht⟩ := ht
  obtain ⟨pos, hpos, hp⟩ := ht.cluster h.fitted hin
  exact ⟨pos, ⟨hm, drive, path, hparse, hpos⟩, hp⟩

/-- The clusters an operation changes are its new ones, its own, and the one with its entry. -/
theorem FileOp.touches_cluster (h : PlanGround s v n) (ht : op.Touches s v p)
    (hc : fat16ValidCluster v c) (hin : InCluster v c p) :
    op.NewCluster s v c ∨ op.OwnCluster s v c ∨ ∃ pos, op.ChangesEntry s v pos ∧ Span pos 32 p := by
  cases op with
  | «open» filename mode => exact Or.inr (Or.inr (NameTouches.cluster h ht hin))
  | fopen filename modeStr => exact Or.inr (Or.inr (NameTouches.cluster h ht hin))
  | write fd data count =>
    obtain ⟨d, item, htarget, ht⟩ := ht
    rcases ht.cluster h.fitted hc hin with ⟨new, hnew, hmem⟩ | ⟨chain, hchain, hmem⟩ | hp
    · exact Or.inl ⟨d, item, new, htarget, hnew, hmem⟩
    · exact Or.inr (Or.inl ⟨d, item, chain, htarget, hchain, hmem⟩)
    · exact Or.inr (Or.inr ⟨_, ⟨d, item, htarget, rfl⟩, hp⟩)
  | read _ _ | seek _ _ _ | stat _ | close _ | fseek _ _ _ | fread _ _ _ => exact ht.elim

end

/-! ## The cached root directory -/

/-- While the volume can be written, the cached root directory is the one on the disk. -/
def RootKept (s : FsState) : Prop :=
  s.mounted = true → s.vol.mutationDisabled = false →
    rootSector s.vol.header * sectorSize + rootDirEntries s.vol.header * 32 ≤ intMax →
      RootItems s.vol s.dev.image

theorem SameRoot.items {w : FatPrivate} (h : SameRoot v w) (hi : RootItems v img) :
    RootItems w img := by
  unfold RootItems at hi ⊢
  rw [h.root, h.header, rootFolder_congr h.header]
  exact hi

section

variable {op : FileOp} {s s1 : FsState}

theorem Checked.ground (hs : Tidy s.dev.identify s.vol) (hchecked : Checked s.dev s.vol s1.vol)
    (hfit : Fitted s1.vol n) : PlanGround s s1.vol n :=
  ⟨hfit, hchecked.tidy hs, hchecked.same.1⟩

theorem rootItems_ran (h : PlanGround s s1.vol n) (hplan : op.Plans s s1.vol phases)
    (hran : RanPhases phases s1 r s2) (hi : RootItems s1.vol s1.dev.image)
    (hswitch : s2.vol.mutationDisabled = false) : RootItems s2.vol s2.dev.image := by
  obtain ⟨hsafe, hpub⟩ := FileOp.plans_safe h hplan
  rcases hran.outcome with ⟨-, hv, himg, -⟩ | ⟨-, k, -, hf⟩ | ⟨-, k, st, -, -, -, hv, himg, -⟩
  · rw [hv, himg]
    exact hi.phases h.fitted phases hsafe (.refl _) h.tidy hpub
  · rw [hf.vol] at hswitch
    cases hswitch
  · rw [hv, himg]
    exact hi.phases h.fitted (phases.take k) (fun ph hph => hsafe ph (List.mem_of_mem_take hph))
      (.refl _) h.tidy fun ph hph => hpub ph (List.mem_of_mem_take hph)

theorem rootKept_op (op : FileOp) (hs : Sane s) (h : RootKept s) : RootKept (op.run s).2 := by
  intro hm hswitch hbound
  have hkept := op.kept hs
  rw [hkept.mounted] at hm
  rw [hkept.ground.header] at hbound
  have hacted := op.acted hs
  generalize (op.run s).2 = s' at *
  cases hacted with
  | silent hsil _ =>
    rw [hsil.image]
    exact hsil.root.items (h hm (hsil.root.switch ▸ hswitch) hbound)
  | @ran s1 s2 n phases r hsame hlog hon hchecked _ hfit hplan hran _ hdev hroot =>
    have hground := Checked.ground (hs.tidy hm) hchecked hfit
    have hswitch2 : s2.vol.mutationDisabled = false := hroot.switch ▸ hswitch
    have hi : RootItems s1.vol s1.dev.image := by
      rw [image_of_log hsame hlog]
      exact (SameRoot.checked hchecked).items (h hm hon hbound)
    rw [hdev]
    exact hroot.items (rootItems_ran hground hplan hran hi hswitch2)

end

theorem rootKept_mount (s : FsState) (hm : s.mounted = false) : RootKept (fat16Resolve s).2 := by
  have hspec := fat16Resolve_spec s
  rw [Prog.ends_iff] at hspec
  generalize fat16Resolve s = p at hspec
  obtain ⟨r, s'⟩ := p
  intro hmounted _ hbound
  cases hspec with
  | failed h _ =>
    rw [h.quiet.mounted, hm] at hmounted
    cases hmounted
  | @mounted vol s1 h _ he =>
    dsimp only at he hbound ⊢
    subst he
    change RootItems vol s1.dev.image
    rw [h.quiet.image]
    exact (mounted_served h hbound).cached.item

theorem Reachable.rootKept (h : Reachable s) : RootKept s := by
  induction h with
  | boot heap dev vol => intro hm; cases hm
  | @mount s _ hm _ => exact rootKept_mount s hm
  | op h op ih => exact rootKept_op op h.sane ih
  | others _ _ ih => exact ih

/-! ## Operations -/

/-- The disk at a point of an operation against the disk at its start: only bytes of the operation
have changed, none in the reserved area, and none in a cluster that is neither its own nor a new one
of it, but for its directory entry. The new ones were free. -/
structure Confined (op : FileOp) (s : FsState) (v : FatPrivate) (log : List Event) : Prop where
  bytes : ∀ p, replay s.dev.origin log p ≠ s.dev.image p → op.Touches s v p
  reserved : ∀ p, p < reservedSectors v.header * sectorSize → replay s.dev.origin log p =
    s.dev.image p
  fresh : ∀ c, op.NewCluster s v c → FreeCluster v s.dev.image c
  clusters : ∀ c p, fat16ValidCluster v c → InCluster v c p → ¬ op.NewCluster s v c →
    ¬ op.OwnCluster s v c → (∀ pos, op.ChangesEntry s v pos → ¬ Span pos 32 p) →
    replay s.dev.origin log p = s.dev.image p

theorem Confined.same {log : List Event} (h : replay s.dev.origin log = s.dev.image) :
    Confined op s v log :=
  ⟨fun p hp => absurd (congrFun h p) hp, fun p _ => congrFun h p, fun _ => FileOp.NewCluster.free,
    fun _ p _ _ _ _ _ => congrFun h p⟩

theorem confined_ran {s1 : FsState} (hsame : s.dev.Same s1.dev) (hlog : s1.dev.log = s.dev.log)
    (h : PlanGround s s1.vol n) (hroot : RootItems s1.vol s.dev.image)
    (hplan : op.Plans s s1.vol phases) (hran : RanPhases phases s1 r s2) :
    ∀ log, s.dev.log <:+ log → log <:+ s2.dev.log → Confined op s s1.vol log := by
  intro log h1 h2
  have hbytes : ∀ p, replay s.dev.origin log p ≠ s.dev.image p → op.Touches s s1.vol p := by
    intro p hne
    by_contra hno
    refine hne ?_
    have hkeep := hran.untouched (p := p) (fun ph hph st hst hp =>
      hno (FileOp.plans_touches h hroot hplan hph hst hp)) log (hlog.symm ▸ h1) h2
    rwa [hsame.origin, image_of_log hsame hlog] at hkeep
  refine ⟨hbytes, fun p hp => ?_, fun _ => FileOp.NewCluster.free,
    fun c p hc hin hold hown hentry => ?_⟩
  · by_contra hne
    have := FileOp.touches_reserved h (hbytes p hne)
    omega
  · by_contra hne
    rcases FileOp.touches_cluster h (hbytes p hne) hc hin with hnew | hmem | ⟨pos, hpos, hp⟩
    · exact hold hnew
    · exact hown hmem
    · exact hentry pos hpos hp

/-- The new clusters of a write of `count` bytes: they were free, and behind the end of the file
they hold zeros, but for the directory entry should it lie there. -/
def ZeroTail (s : FsState) (v : FatPrivate) (img' : Bytes) (d : FatFileDescriptor) (item : DirItem)
    (count : Nat) : Prop :=
  (DirItem.load img' d.item.entryPos).filesize = sizeAfter item (writeStart d item + count) ∧
    ∀ q, (DirItem.load img' d.item.entryPos).filesize ≤ q → clustersFor v item.filesize ≤
      q / clusterBytes v →
      q / clusterBytes v < clustersFor v (DirItem.load img' d.item.entryPos).filesize →
      ∃ c, FreeCluster v s.dev.image c ∧
        clusterAt v img' (DirItem.load img' d.item.entryPos).lowFirstCluster q = .ok c ∧
        (img' (filePlace v c q) = 0 ∨ Span d.item.entryPos 32 (filePlace v c q))

theorem zeroTail_ran {s1 : FsState} {count b : Nat} {data : Bytes} (h : PlanGround s s1.vol n)
    (ht : WriteTarget s.vol desc d item) (himg : s1.dev.image = s.dev.image)
    (hplan : writePlan s1.vol s.dev.image d item data count = .ok (phases, b))
    (hran : RanPhases phases s1 (.ok ()) s2) : ZeroTail s s1.vol s2.dev.image d item count := by
  obtain ⟨first, hload, hfirst, hzero⟩ := writePlan_zero h.fitted (h.slot ht) hplan
  obtain ⟨-, -, hle, old, -, hold, -⟩ := writePlan_ok hplan
  have hold_le := ((chainOf_ok_iff item old).mp hold).2.1
  have hsize : sizeAfter item (writeStart d item + count) ≤ intMax := by
    unfold sizeAfter
    split <;> assumption
  have himg2 : s2.dev.image = applyPhases phases s.dev.image := by
    rw [(hran.ended rfl).2, himg]
  have hint : intMax < 2 ^ 32 := by decide
  rw [himg2]
  unfold ZeroTail
  rw [hload, rewritten_filesize _ _ (hsize.trans_lt hint), rewritten_first _ _ hfirst]
  exact ⟨rfl, hzero⟩

/-- Whatever becomes of an operation, at each of its points the disk differs from the disk before it
in bytes of the operation only, and a completed write leaves zeros in its new clusters behind the
end of the file. -/
theorem mutation_footprint {s : FsState} (h : Reachable s) (op : FileOp) :
    ∃ v, Checked s.dev s.vol v ∧
      (∀ log, s.dev.log <:+ log → log <:+ (op.run s).2.dev.log → Confined op s v log) ∧
      ∀ fd data count d item, op = .write fd data count → 0 < count → Targets s fd d item →
        (∃ m, (op.run s).1 = .ok m) → ZeroTail s v (op.run s).2.dev.image d item count := by
  have hs := h.sane
  have hacted := op.acted hs
  generalize op.run s = p at *
  cases hacted with
  | silent hsil hno =>
    refine ⟨s.vol, Or.inl rfl, fun log h1 h2 => .same (hsil.replay log h1 h2), ?_⟩
    rintro fd data count d item rfl h0 - hm
    exact absurd ⟨h0, hm⟩ hno
  | @ran s1 s2 n phases r hsame hlog hon hchecked hid hfit hplan hran hend hdev hroot =>
    have hmounted := FileOp.plans_mounted hs hplan
    have hground := Checked.ground (hs.tidy hmounted) hchecked hfit
    have hbound := accepted_root hfit.accepted
    rw [hchecked.same.2.2.1] at hbound
    have hitems : RootItems s1.vol s.dev.image :=
      (SameRoot.checked hchecked).items (h.rootKept hmounted hon hbound)
    refine ⟨s1.vol, hchecked, ?_, ?_⟩
    · rw [hdev]
      exact confined_ran hsame hlog hground hitems hplan hran
    · rintro fd data count d item rfl h0 ⟨desc, hd, ht⟩ hm
      obtain ⟨desc', d', item', b, hd', ht', -, hwrite⟩ := hplan
      obtain rfl : desc' = desc := Option.some.inj (hd'.symm.trans hd)
      obtain rfl : d' = d := Option.some.inj (ht'.found.symm.trans ht.found)
      obtain ⟨addr, hnode⟩ := ht.file
      obtain ⟨addr', hnode'⟩ := ht'.file
      cases hnode.symm.trans hnode'
      obtain rfl := hend ⟨h0, hm⟩
      rw [hdev]
      exact zeroTail_ran hground ht (image_of_log hsame hlog) hwrite hran

/-- The small volume with `A` open for appending. -/
def smallAppending : Subtype Reachable :=
  ⟨_, .op (smallMount_reachable fun _ => .done) (.open smallPath .append)⟩

/-- Appending three bytes to `A` leaves the boot sector as it was. -/
theorem mutation_footprint_boot : Reachable smallAppending.1 ∧
    ((FileOp.write 1 (fun _ => 7) 3).run smallAppending.1).1.toBool = true ∧
    ∀ p, p < 512 → ((FileOp.write 1 (fun _ => 7) 3).run smallAppending.1).2.dev.image p =
      smallAppending.1.dev.image p := by
  have hrun : ((FileOp.write 1 (fun _ => 7) 3).run smallAppending.1).1.toBool = true ∧
      reservedSectors smallAppending.1.vol.header = 1 := by decide +kernel
  have hboot : ∀ (s : FsState) (op : FileOp), Reachable s → reservedSectors s.vol.header = 1 →
      ∀ p, p < 512 → (op.run s).2.dev.image p = s.dev.image p := by
    intro s op hreach hres p hp
    obtain ⟨v, hv, hconf, -⟩ := mutation_footprint hreach op
    have hend := hconf _ (op.acted hreach.sane).suffix (List.suffix_refl _)
    have hsame := hend.reserved p (by rw [hv.same.2.2.1, hres]; exact hp)
    rwa [← (op.kept hreach.sane).same.origin] at hsame
  exact ⟨smallAppending.2, hrun.1, hboot _ _ smallAppending.2 hrun.2⟩

/-! ## A cluster of two files -/

/-- The small volume with a second file `B` whose entry leads to the cluster of `A`. -/
def sharedDisk : Bytes := fun p =>
  if p = 17952 then 0x42
  else if 17952 < p ∧ p < 17984 then smallEntry.getD (p - 17952) 0
  else smallDisk p

def sharedDrive : Device :=
  { origin := sharedDisk, log := [], fates := fun _ => .done, calls := 0, identify := .ok 4200 }

/-- `A` is open for appending. -/
def sharedAppending : Subtype Reachable :=
  ⟨_, .op (.mount (.boot bootHeap sharedDrive noVolume) rfl) (.open smallPath .append)⟩

/-- Where the entry of a file lies and which clusters it has. -/
def placeAndChain (v : FatPrivate) (img : Bytes) (path : List (List UInt8)) :
    Option (Nat × List Nat) :=
  match lookup v img path with
  | .error _ => none
  | .ok found =>
      match found.node with
      | .directory _ => none
      | .file _ entry => (chainOf v img entry).toOption.map fun chain => (found.entryPos, chain)

theorem placeAndChain_some {path : List (List UInt8)} {pos : Nat} {chain : List Nat}
    (h : placeAndChain v img path = some (pos, chain)) :
    ∃ found addr entry, lookup v img path = .ok found ∧
      found.node = .file addr entry ∧ found.entryPos = pos ∧ chainOf v img entry = .ok chain := by
  unfold placeAndChain at h
  cases hl : lookup v img path with
  | error e =>
    rw [hl] at h
    cases h
  | ok found =>
    rw [hl] at h
    dsimp only at h
    cases hn : found.node with
    | directory dir =>
      rw [hn] at h
      cases h
    | file addr entry =>
      rw [hn] at h
      dsimp only at h
      cases hc : chainOf v img entry with
      | error e =>
        rw [hc] at h
        cases h
      | ok l =>
        rw [hc] at h
        cases h
        exact ⟨found, addr, entry, rfl, hn, rfl, hc⟩

theorem shared_run : placeAndChain sharedAppending.1.vol sharedAppending.1.dev.image [[0x42]] =
    some (17952, [2]) ∧ ((fileGetDescriptor sharedAppending.1 1).bind fun desc =>
      (findDescriptor sharedAppending.1.vol desc.priv).map fun d => d.item.entryPos) = some 17920 ∧
    InCluster sharedAppending.1.vol 2 18434 ∧
    ((FileOp.write 1 (fun _ => 7) 3).run sharedAppending.1).2.dev.image 18434 ≠
      sharedAppending.1.dev.image 18434 := by decide +kernel

/-- On a volume whose files `A` and `B` share a cluster, appending to `A` changes a byte in the
cluster of `B`. -/
theorem shared_cluster_changes : ∃ s op found addr entry chain c p, Reachable s ∧
    lookup s.vol s.dev.image [[0x42]] = .ok found ∧ found.node = .file addr entry ∧
    ¬ FileOp.ChangesEntry op s s.vol found.entryPos ∧ chainOf s.vol s.dev.image entry = .ok chain ∧
      c ∈ chain ∧
    InCluster s.vol c p ∧ (FileOp.run op s).2.dev.image p ≠ s.dev.image p := by
  obtain ⟨hplace, hhandle, hin, hchange⟩ := shared_run
  have hreach := sharedAppending.2
  generalize sharedAppending.1 = s at *
  obtain ⟨found, addr, entry, hl, hn, hpos, hchain⟩ := placeAndChain_some hplace
  refine ⟨s, .write 1 (fun _ => 7) 3, found, addr, entry, [2], 2, 18434, hreach, hl, hn, ?_, hchain,
    List.mem_singleton_self 2, hin, hchange⟩
  rintro ⟨d, item, ⟨desc, hd, ht⟩, he⟩
  rw [hd, Option.bind_some, ht.found, Option.map_some, he, hpos] at hhandle
  exact absurd (Option.some.inj hhandle) (by decide)

end Rorthox.Fs
