import Rorthox.Fat.Calls

/-!
# What mounting gives

The header and the root directory are read once; a mounted volume is tidy and its
cached root entries are those on the disk.
-/

namespace Rorthox.Fat

open Lib Disk Memory

/-- The header as `fat16_resolve` reads it. -/
def headerOf (img : Bytes) : Bytes := memcpy (fun _ => 0) 0 img 0 headerSize

/-- The entries of the root directory as they are read. -/
def rootItems (h img : Bytes) (i : Nat) : DirItem :=
  DirItem.load (memcpy (fun _ => 0) 0 img (fat16SectorToAbsolute (rootSector h))
    (rootDirEntries h * 32)) (i * 32)

/-- The root entries are those at the position `fat16_sector_to_absolute` gives. -/
theorem rootItems_load (h img : Bytes) {i : Nat} (hi : i < rootDirEntries h) :
    rootItems h img i = DirItem.load img (fat16SectorToAbsolute (rootSector h) + i * 32) := by
  funext k
  have hk := k.isLt
  change memcpy (fun _ => 0) 0 img (fat16SectorToAbsolute (rootSector h)) (rootDirEntries h * 32)
    (i * 32 + k) = img (fat16SectorToAbsolute (rootSector h) + i * 32 + k)
  rw [memcpy_of_lt (Nat.zero_le _) (by omega), Nat.sub_zero, Nat.add_assoc]

def rootOf (h img : Bytes) : FatDirectory :=
  { addr := 0, itemAddr := 0, item := rootItems h img, firstCluster := 0,
    total := rootTotal (rootItems h img) (rootDirEntries h) 0, sectorPos := rootSector h,
    endingSectorPos := rootSector h + (rootDirEntries h * 32 / sectorSize +
      if rootDirEntries h * 32 % sectorSize ≠ 0 then 1 else 0) }

theorem rootTotal_bounds (items : Nat → DirItem) (left : Nat) : ∀ i,
    i ≤ rootTotal items left i ∧ rootTotal items left i ≤ i + left ∧
      (∀ j, i ≤ j → j < rootTotal items left i → (items j).byte 0 ≠ 0) ∧
      (rootTotal items left i < i + left → (items (rootTotal items left i)).byte 0 = 0) := by
  induction left with
  | zero => intro i; exact ⟨le_rfl, le_rfl, fun j h1 h2 => absurd h2 (by
      show ¬ j < i; omega), fun h => absurd h (by show ¬ i < i + 0; omega)⟩
  | succ left ih =>
    intro i
    unfold rootTotal
    by_cases h0 : (items i).byte 0 = 0
    · rw [if_pos h0]
      exact ⟨le_rfl, by omega, fun j h1 h2 => absurd h2 (by omega), fun _ => h0⟩
    · rw [if_neg h0]
      obtain ⟨h1, h2, h3, h4⟩ := ih (i + 1)
      refine ⟨by omega, by omega, fun j hj1 hj2 => ?_, fun h => h4 (by omega)⟩
      rcases Nat.lt_or_ge i j with hlt | hge
      · exact h3 j hlt hj2
      · obtain rfl : j = i := by omega
        exact h0

variable {v : FatPrivate} {img : Bytes} {held : Multiset Nat}

/-- What a root directory owns while it is being mounted: its entry array. -/
def Shape.rootDir (h : Multiset Nat) : Shape FatDirectory FatDirectory :=
  ⟨fun d => {d.itemAddr} + h, fun _ => True, FatDirectory.plain⟩

theorem reading_rootDirectory (h : Bytes) :
    Reading v img held held (Shape.rootDir held)
      (if fat16SectorToAbsolute (rootSector h) + rootDirEntries h * 32 ≤ intMax then
        .ok (rootOf h img) else .error .eio)
      (fat16GetRootDirectory h) := by
  refine (reading_kzalloc (by decide) _).andThen fun addr _ _ => ?_
  refine Reading.undo (frees_kfreeAt addr) ?_
  show Reading v img _ _ _ _ ((onDev (diskstreamerSeek (fat16SectorToAbsolute
    (rootSector h)))).recode (fun _ => Errno.eio) >>= fun _ => _)
  generalize hpos : fat16SectorToAbsolute (rootSector h) = pos
  by_cases hseek : pos ≤ intMax
  · have hpass : Reading v img ({addr} + held) ({addr} + held) (.val ({addr} + held)) (.ok ())
        ((onDev (diskstreamerSeek pos)).recode fun _ => Errno.eio) :=
      (reading_seek hseek).recode fun _ _ => (by decide)
    refine hpass.andThen fun _ _ _ => ?_
    show Reading v img _ _ _ _ ((onDev (diskstreamerRead (fat16SectorToAbsolute (rootSector h))
      (rootDirEntries h * 32))).recode (fun _ => Errno.eio) >>= fun buf => _)
    rw [hpos]
    by_cases hfit : pos + rootDirEntries h * 32 ≤ intMax
    · rw [if_pos hfit]
      have hread : Reading v img ({addr} + held) ({addr} + held) (.val ({addr} + held))
          (.ok (memcpy (fun _ => 0) 0 img pos (rootDirEntries h * 32)))
          ((onDev (diskstreamerRead pos (rootDirEntries h * 32))).recode fun _ => Errno.eio) :=
        (reading_stream hfit).recode fun _ _ => (by decide)
      refine hread.andThen fun buf _ hbuf => ?_
      obtain rfl : buf = _ := hbuf
      refine reading_pure ?_ rfl trivial
      unfold rootOf rootItems
      rw [hpos]
      rfl
    · rw [if_neg hfit]
      have hread : Reading v img ({addr} + held) ({addr} + held) (.val ({addr} + held))
          (.error .eio : Except Errno Bytes)
          ((onDev (diskstreamerRead pos (rootDirEntries h * 32))).recode fun _ => Errno.eio) :=
        (reading_stream_refused (by omega)).recode fun _ _ => (by decide)
      exact hread.bind (g := fun _ => .error .eio) fun _ _ hd => (by cases hd)
  · rw [if_neg (by omega)]
    have hr : Reading v img ({addr} + held) ({addr} + held) (.val ({addr} + held))
        (.error .einvarg : Except Errno Unit) (onDev (diskstreamerSeek pos)) := by
      refine reading_onDev fun d _ => ?_
      unfold diskstreamerSeek
      exact Prog.ends_refuse (fun _ => ⟨.refl d, Or.inl ⟨rfl, rfl⟩⟩) fun hc => absurd hc (by omega)
    have hr' : Reading v img ({addr} + held) ({addr} + held) (.val ({addr} + held))
        (.error .eio : Except Errno Unit) ((onDev (diskstreamerSeek pos)).recode fun _ =>
          Errno.eio) :=
      hr.recode fun _ _ => (by decide)
    exact hr'.bind (g := fun _ => .error .eio) fun _ _ hd => (by cases hd)

/-- Header and root directory of the volume on a disk. -/
def volumeOf (img : Bytes) : Except Errno (Bytes × FatDirectory) :=
  if signatur (headerOf img) ≠ 0x29 then .error .efsnotus
  else if fat16SectorToAbsolute (rootSector (headerOf img)) + rootDirEntries (headerOf img) * 32 ≤
    intMax
  then .ok (headerOf img, rootOf (headerOf img) img) else .error .eio

theorem reading_volume :
    Reading v img held held
      (⟨fun p => {p.2.itemAddr} + held, fun _ => True, fun p => (p.1, p.2.plain)⟩ :
        Shape (Bytes × FatDirectory) (Bytes × FatDirectory))
      (volumeOf img) resolveVolume := by
  refine (reading_kzalloc (by decide) 8).andThen fun stream _ _ => ?_
  refine Reading.finish (frees_kfreeAt stream) ?_
  have hheader : Reading v img ({stream} + held) ({stream} + held) (.val ({stream} + held))
      (.ok (headerOf img)) ((onDev (diskstreamerRead 0 headerSize)).recode fun _ => Errno.eio) :=
    (reading_stream (by decide)).recode fun _ _ => (by decide)
  refine hheader.andThen fun header _ hh => ?_
  obtain rfl : header = headerOf img := hh
  refine Reading.guard fun _ => ?_
  have hroot : Reading v img ({stream} + held) ({stream} + held) (Shape.rootDir ({stream} + held)) _
      ((fat16GetRootDirectory (headerOf img)).recode fun _ => Errno.eio) :=
    (reading_rootDirectory (headerOf img)).recode fun _ _ => (by decide)
  refine (hroot.bind (g := fun d => .ok (headerOf img, d)) fun root _ _ => ?_).congr ?_
  · refine reading_pure rfl ?_ trivial
    show {stream} + ({root.itemAddr} + held) = {root.itemAddr} + ({stream} + held)
    rw [add_left_comm]
  · split <;> rfl

/-- What a mounted volume owns besides its descriptors. -/
def FatPrivate.base (v : FatPrivate) : Multiset Nat :=
  {v.addr} + ({v.clusterReadStream} + ({v.fatReadStream} + ({v.directoryStream} +
    {v.rootDirectory.itemAddr})))

/-- The volume a mount gives, without addresses. -/
def mountOf (img : Bytes) : Except Errno FatPrivate :=
  (volumeOf img).map fun p =>
    { addr := 0, clusterReadStream := 0, fatReadStream := 0, directoryStream := 0, header := p.1,
      rootDirectory := p.2, descriptors := [], writeReady := false, mutationDisabled := false,
      maxWritable := 0 }

def FatPrivate.plain (v : FatPrivate) : FatPrivate :=
  { v with
    addr := 0
    clusterReadStream := 0
    fatReadStream := 0
    directoryStream := 0
    rootDirectory := v.rootDirectory.plain }

def Shape.mount : Shape FatPrivate FatPrivate := ⟨FatPrivate.base, fun _ => True, FatPrivate.plain⟩

theorem reading_private : Reading v img 0 0 .mount (mountOf img) resolvePrivate := by
  refine (reading_kzalloc (by decide) 112).andThen fun addr _ _ => ?_
  refine Reading.undo (frees_kfreeAt addr) ?_
  refine (reading_kzalloc (by decide) 8).andThen fun stream1 _ _ => ?_
  refine Reading.undo (frees_kfreeAt stream1) ?_
  refine (reading_kzalloc (by decide) 8).andThen fun stream2 _ _ => ?_
  refine Reading.undo (frees_kfreeAt stream2) ?_
  refine (reading_kzalloc (by decide) 8).andThen fun stream3 _ _ => ?_
  refine Reading.undo (frees_kfreeAt stream3) ?_
  refine (reading_volume.bind (g := fun p => .ok
    { addr := 0, clusterReadStream := 0, fatReadStream := 0, directoryStream := 0, header := p.1,
      rootDirectory := p.2, descriptors := [], writeReady := false, mutationDisabled := false,
      maxWritable := 0 }) fun p _ _ => ?_).congr ?_
  · obtain ⟨header, root⟩ := p
    refine reading_pure rfl ?_ trivial
    show ({addr} : Multiset Nat) + ({stream1} + ({stream2} + ({stream3} + {root.itemAddr}))) =
      {root.itemAddr} + ({stream3} + ({stream2} + ({stream1} + ({addr} + 0))))
    abel
  · unfold mountOf
    cases volumeOf img <;> rfl

inductive MountCourse (s : FsState) (r : Except Errno Unit) (s' : FsState) : Prop where
  | failed {e : Errno} (h : ReadsTo 0 0 .mount (mountOf s.dev.image) s (.error e) s')
      (hr : r = .error e)
  | mounted {vol : FatPrivate} {s1 : FsState}
      (h : ReadsTo 0 0 .mount (mountOf s.dev.image) s (.ok vol) s1) (hr : r = .ok ())
      (hs : s' = { s1 with mounted := true, vol })

theorem fat16Resolve_spec (s : FsState) : Prog.Ends fat16Resolve s (MountCourse s) := by
  have h : Prog.Ends resolvePrivate s (ReadsTo 0 0 .mount (mountOf s.dev.image) s) :=
    reading_private s rfl rfl
  exact h.bind (fun vol s1 h1 => .mounted h1 rfl rfl) fun e s1 h1 => .failed h1 rfl

variable {s s1 : FsState} {vol : FatPrivate} {img : Bytes}

/-- The volume a mount gave. -/
theorem mounted_plain (h : ReadsTo 0 0 .mount (mountOf img) s (.ok vol) s1) :
    vol.header = headerOf img ∧ vol.rootDirectory.plain = rootOf (headerOf img) img ∧
      vol.descriptors = [] ∧ vol.writeReady = false ∧ vol.mutationDisabled = false := by
  rcases h.outcome with ⟨-, hd⟩ | ⟨-, e, hr, -⟩
  · obtain ⟨p, hp, he⟩ := except_map_ok.mp hd.symm
    obtain ⟨-, hp⟩ := except_guard_ok.mp hp
    split at hp
    · cases hp
      have he' : FatPrivate.plain vol = _ := he.symm
      refine ⟨congrArg FatPrivate.header he', congrArg FatPrivate.rootDirectory he',
        congrArg FatPrivate.descriptors he', congrArg FatPrivate.writeReady he',
        congrArg FatPrivate.mutationDisabled he'⟩
    · cases hp
  · cases hr

theorem mounted_items (h : ReadsTo 0 0 .mount (mountOf img) s (.ok vol) s1) :
    vol.rootDirectory.item = rootItems (headerOf img) img :=
  congrArg FatDirectory.item (mounted_plain h).2.1

theorem mounted_tidy (identify : Except Errno Nat)
    (h : ReadsTo 0 0 .mount (mountOf img) s (.ok vol) s1) : Tidy identify vol := by
  obtain ⟨hheader, hroot, hdesc, hready, -⟩ := mounted_plain h
  have hitems := rootTotal_bounds (rootItems (headerOf img) img) (rootDirEntries (headerOf img)) 0
  refine ⟨⟨congrArg FatDirectory.firstCluster hroot, ?_, ?_⟩, fun hw => ?_, fun d hd => ?_⟩
  · rw [hheader]
    exact congrArg FatDirectory.sectorPos hroot
  · have htotal : vol.rootDirectory.total =
        rootTotal (rootItems (headerOf img) img) (rootDirEntries (headerOf img)) 0 :=
      congrArg FatDirectory.total hroot
    rw [htotal, hheader]
    omega
  · rw [hready] at hw
    cases hw
  · rw [hdesc] at hd
    cases hd

end Rorthox.Fat
