import Rorthox.Fat.Guarded
import Rorthox.Fs.Coherence
import Rorthox.Fs.Footprint

/-!
# Losses of power

The power can go at any point of any operation, any number of times. What is then on the disk
is a sound volume, whatever a completed operation did is there, and an operation that was
broken off concerns no file but its own.
-/

namespace Rorthox.Fs

open Lib Fat Disk Memory

/-- The machine before a mount: the drive holds `img`, takes `n` sectors and does what it is told.
-/
structure PoweredOn (n : Nat) (img : Bytes) (s : FsState) : Prop where
  unmounted : s.mounted = false
  files : ∀ i, s.files i = none
  origin : s.dev.origin = img
  log : s.dev.log = []
  identify : s.dev.identify = .ok n
  faultless : ∀ i, s.dev.fates i = .done

/-- The volume of `img` is mounted, operations follow, and at some point of one of them the power
goes: `c` is what the disk can hold then. -/
structure Outage (n : Nat) (img c : Bytes) : Prop where
  course : ∃ boot s op log, PoweredOn n img boot ∧ (fat16Resolve boot).1 = .ok () ∧
    Later (fat16Resolve boot).2 s ∧
    s.dev.log <:+ log ∧ log <:+ (FileOp.run op s).2.dev.log ∧ CrashImage s.dev.origin log c

/-- Both copies of the FAT are sound, with the same directories. -/
def SoundIn (dirs : Nat → Option (List Nat)) (v : FatPrivate) (img : Bytes) : Prop :=
  ∃ T : Nat → Tenancy, (∀ copy, (T copy).dir = dirs) ∧ Both T v img

/-- `v` is a volume with the layout that the header of `img` gives. -/
structure LaidOut (v : FatPrivate) (img : Bytes) : Prop where
  header : v.header = headerOf img
  data : v.rootDirectory.endingSectorPos = (rootOf (headerOf img) img).endingSectorPos

/-! ## The small volume -/

def smallVolume : FatPrivate :=
  { noVolume with
    header := headerOf smallDisk, rootDirectory := rootOf (headerOf smallDisk) smallDisk }

/-- The file `A` has cluster 2. -/
def smallTenancy : Tenancy := ⟨fun _ => none, fun pos => if pos = 17920 then [2] else []⟩

theorem small_accepted : LaidOut smallVolume smallDisk ∧ AcceptedGeometry smallVolume 4200 :=
  ⟨⟨rfl, rfl⟩, by decide +kernel⟩

theorem small_poweredOn : PoweredOn 4200 smallDisk (smallBoot fun _ => .done) :=
  ⟨rfl, fun _ => rfl, rfl, rfl, rfl, fun _ => rfl⟩

theorem small_mounts : (fat16Resolve (smallBoot fun _ => .done)).1 = .ok () := by decide +kernel

/-- `A` is open for appending. -/
def smallOpened : FsState :=
  ((FileOp.open smallPath .append).run (fat16Resolve (smallBoot fun _ => .done)).2).2

theorem small_opened : Later (fat16Resolve (smallBoot fun _ => .done)).2 smallOpened := .op .refl _

theorem small_sound : SoundIn (fun _ => none) smallVolume smallDisk := by
  refine ⟨fun _ => smallTenancy, fun _ => rfl, fun copy hcopy => ?_⟩
  have hmem : ∀ pos c, c ∈ smallTenancy.file pos → pos = 17920 := by
    intro pos c hc
    by_contra hne
    rw [show smallTenancy.file pos = [] from if_neg hne] at hc
    cases hc
  refine ⟨fun first chain hc => (by cases hc), fun pos => ?_, fun first first' chain chain' c hc =>
    (by cases hc),
    fun pos pos' c hc hc' => (hmem pos c hc).trans (hmem pos' c hc').symm,
      fun first chain pos c hc => (by cases hc), ?_⟩
  · change Threaded _ _ _ (if pos = 17920 then [2] else [])
    split
    · refine ⟨?_, fun c hc => ?_, List.nodup_singleton 2⟩
      · rcases Nat.le_one_iff_eq_zero_or_eq_one.mp hcopy with rfl | rfl
        · exact (by decide +kernel : eocStart ≤ fatAt smallVolume smallDisk 0 2)
        · exact (by decide +kernel : eocStart ≤ fatAt smallVolume smallDisk 1 2)
      · rw [List.mem_singleton.mp hc]
        decide +kernel
    · exact threaded_nil _ _ _
  · intro first f i hat hlive
    cases hat with
    | sub hc => cases hc
    | root =>
      have hzero : i = 0 := by
        by_contra hne
        exact hlive.used 1 (by omega) (by decide +kernel)
      subst hzero
      intro _
      rw [if_neg (by decide +kernel)]
      exact (by decide +kernel :
        (DirItem.load smallDisk ((rootFolder smallVolume).place 0)).lowFirstCluster = 2 ∧
          (DirItem.load smallDisk ((rootFolder smallVolume).place 0)).filesize ≤
            1 * clusterBytes smallVolume)

/-! ## Nothing under way -/

variable {c img : Bytes} {boot s s' : FsState} {n : Nat} {v w : FatPrivate} {phases : List Phase}

theorem settled_crash {origin : Bytes} {log : List Event} (h : Settled origin log)
    (hc : CrashImage origin log c) : c = replay origin log := by
  funext p
  rcases hc (p / sectorSize) with hsame | ⟨data, hmem, -⟩
  · have h1 := hsame (p % sectorSize) (Nat.mod_lt p (by decide))
    rwa [h.1, Nat.mul_comm, Nat.div_add_mod] at h1
  · rw [h.2] at hmem
    cases hmem

theorem Silent.settled (h : Silent s s') (hset : Settled s.dev.origin s.dev.log) :
    ∀ log, s.dev.log <:+ log → log <:+ s'.dev.log → Settled s.dev.origin log := by
  refine h.steps.along (I := fun log => Settled s.dev.origin log) hset ?_
  rintro log e - hlog ⟨lba, rfl⟩
  exact hlog

theorem Silent.vetted_before (h : Silent s s') (hvet : Vetted s') : Vetted s := by
  rcases hvet with hready | hequal
  · exact h.vetted hready
  · rw [h.root.header, h.image] at hequal
    exact Or.inr hequal

/-- An operation ends with nothing under way. -/
theorem FileOp.settled (op : FileOp) (hsane : Sane s) (hdone : Faultless s)
    (hset : Settled s.dev.origin s.dev.log) : Settled s.dev.origin (op.run s).2.dev.log := by
  have hacted := op.acted hsane
  generalize op.run s = p at *
  cases hacted with
  | silent h _ => exact h.settled hset _ h.steps.suffix (List.suffix_refl _)
  | ran hsame hlog _ _ _ _ _ hran _ hdev _ _ =>
    rw [hdev, ← hsame.origin]
    rw [← hsame.origin, ← hlog] at hset
    rcases hran.outcome with ⟨-, -, -, h, -⟩ | ⟨-, k, -, hfail⟩ | ⟨-, k, st, -, -, -, -, -, h, -⟩
    · exact h hset
    · obtain ⟨i, hi⟩ := hfail.fate
      rw [hsame.fates] at hi
      exact absurd (hdone i) hi
    · exact h hset

theorem Later.same (h : Later s s') (hs : Sane s) : Sane s' ∧ s.dev.Same s'.dev := by
  induction h with
  | refl => exact ⟨hs, .refl _⟩
  | op _ op ih => exact ⟨(op.kept ih.1).sane ih.1, ih.2.trans (op.kept ih.1).same⟩
  | others _ heap ih => exact ⟨⟨ih.1.tidy, ih.1.closed⟩, ih.2⟩

theorem Later.settled (h : Later s s') (hsane : Sane s) (hdone : Faultless s)
    (hset : Settled s.dev.origin s.dev.log) : Settled s'.dev.origin s'.dev.log := by
  induction h with
  | refl => exact hset
  | op hprev op ih =>
    obtain ⟨hsane', hsame⟩ := hprev.same hsane
    rw [(op.kept hsane').same.origin]
    exact op.settled hsane' (hdone.of_same hsame) ih
  | others _ heap ih => exact ih

theorem PoweredOn.sane (h : PoweredOn n img s) : Sane s :=
  ⟨fun hm => absurd (h.unmounted.symm.trans hm) (by decide), fun _ => h.files⟩

/-- What a mount of a machine that was just switched on gives. -/
theorem PoweredOn.mounted (h : PoweredOn n img boot) (hmount : (fat16Resolve boot).1 = .ok ()) :
    Sane (fat16Resolve boot).2 ∧ Faultless (fat16Resolve boot).2 ∧
      (fat16Resolve boot).2.dev.origin = img ∧ (fat16Resolve boot).2.dev.log = [] ∧
      ∃ s1, ReadsTo 0 0 .mount (mountOf img) boot (.ok (fat16Resolve boot).2.vol) s1 := by
  have hspec := fat16Resolve_spec boot
  rw [Prog.ends_iff] at hspec
  have hsane := sane_mount hspec h.sane
  have himg : boot.dev.image = img := by
    unfold Device.image
    rw [h.log, h.origin]
    rfl
  generalize (fat16Resolve boot).2 = s at *
  rw [hmount] at hspec
  cases hspec with
  | failed _ hr => cases hr
  | @mounted vol s1 hread _ he =>
    subst he
    rw [himg] at hread
    have hsame := hread.quiet.same
    refine ⟨hsane, fun i => ?_, hsame.origin.trans h.origin, ?_, s1, hread⟩
    · change s1.dev.fates i = .done
      rw [hsame.fates]
      exact h.faultless i
    · rcases hread.outcome with ⟨hc, -⟩ | ⟨-, e, he, -⟩
      · exact hc.1.trans h.log
      · cases he

theorem PoweredOn.settled (h : PoweredOn n img boot) (hmount : (fat16Resolve boot).1 = .ok ())
    (hrun : Later (fat16Resolve boot).2 s) : Settled s.dev.origin s.dev.log := by
  obtain ⟨hsane, hdone, -, hlog, -⟩ := h.mounted hmount
  exact hrun.settled hsane hdone (by rw [hlog]; exact ⟨rfl, rfl⟩)

/-- What completed operations left on the disk is there after a loss of power. -/
theorem completed_durable (h : PoweredOn n img boot) (hmount : (fat16Resolve boot).1 = .ok ())
    (hrun : Later (fat16Resolve boot).2 s) (hc : CrashImage s.dev.origin s.dev.log c) :
    c = s.dev.image :=
  settled_crash (h.settled hmount hrun) hc

/-- A byte that was appended to `A` is there. -/
theorem completed_durable_small : ∀ c,
    CrashImage ((FileOp.write 1 (fun _ => 7) 3).run smallOpened).2.dev.origin
      ((FileOp.write 1 (fun _ => 7) 3).run smallOpened).2.dev.log c → c 18434 = 7 := by
  have hlast : ((FileOp.write 1 (fun _ => 7) 3).run smallOpened).2.dev.image 18434 = 7 := by
    decide +kernel
  intro c hc
  rw [completed_durable small_poweredOn small_mounts (.op small_opened _) hc]
  exact hlast

/-! ## Operations -/

section

variable {dirs : Nat → Option (List Nat)}

theorem Both.of_ground {T : Nat → Tenancy} (h : Both T v img) (hg : SameGround v w) :
    Both T w img := fun copy hcopy => (h copy hcopy).of_layout hg.header hg.data

theorem SameGround.symm (h : SameGround v w) : SameGround w v := ⟨h.header.symm, h.data.symm⟩

theorem Spares.of_ground {t : Tenancy} {pos : Nat} {item : DirItem} {img' : Bytes}
    (h : t.Spares v pos item img img') (hg : SameGround v w) : t.Spares w pos item img img' := by
  refine ⟨fun first f i hat => h.entries first f i (hat.congr hg.header.symm hg.data.symm), ?_⟩
  have hbytes := h.bytes
  unfold InCluster fat16ClusterToSector clusterBytes at hbytes ⊢
  rwa [hg.header, hg.data]

/-- What holds on a mount of a sound volume, between operations. The copies of the FAT have one
tenancy, unless they differ and nothing is ever written. -/
structure Steady (dirs : Nat → Option (List Nat)) (s : FsState) : Prop where
  sane : Sane s
  faultless : Faultless s
  settled : Settled s.dev.origin s.dev.log
  coherent : CoherentIn dirs s
  header : headerOf s.dev.image = s.vol.header
  reserved : reservedSectors s.vol.header ≠ 0
  sound : (∃ t, t.dir = dirs ∧ Both (fun _ => t) s.vol s.dev.image) ∨
    (¬ Vetted s ∧ SoundIn dirs s.vol s.dev.image)

theorem FileOp.guarded {op : FileOp} (hplan : op.Plans s v phases) (hfit : Fitted v n)
    (hdesc : v.descriptors = s.vol.descriptors) {a : Allotment} {t : Tenancy} (ha : a.chain = t.dir)
    (hc : Cached a v s.dev.image) (hs : Both (fun _ => t) v s.dev.image) :
    ∃ pos item, Guarded v n pos item (fun _ => t) s.dev.image phases := by
  have hname : ∀ {filename mode}, NamePlans s filename mode v phases →
      ∃ pos item, Guarded v n pos item (fun _ => t) s.dev.image phases := by
    rintro filename mode ⟨-, drive, path, -, hm, item, hplan⟩
    exact guarded_open hfit hs ha hc.toReadable hm hplan
  cases op with
  | «open» filename mode => exact hname hplan
  | fopen filename modeStr => exact hname hplan
  | write fd data count =>
    obtain ⟨desc, d, item, b, -, ht, -, hplan⟩ := hplan
    have hmem : d ∈ v.descriptors := by
      rw [hdesc]
      exact (findDescriptor_mem ht.found).1
    obtain ⟨addr, hnode⟩ := ht.file
    have hholds := (hc.descriptors d hmem addr item hnode).of_chain t.folders ha.symm
    obtain ⟨entry, h⟩ := guarded_write hfit hs hholds hplan
    exact ⟨_, entry, h⟩
  | read _ _ | seek _ _ _ | stat _ | close _ | fseek _ _ _ | fread _ _ _ => exact hplan.elim

/-- Wherever the power goes during an operation: both copies of the FAT are sound, and no other file
has another entry, another chain or other bytes than before. -/
def Withstands (dirs : Nat → Option (List Nat)) (op : FileOp) (s : FsState) : Prop :=
  ∃ T pos item, (∀ copy, (T copy).dir = dirs) ∧ Both T s.vol s.dev.image ∧
    ∀ log c, s.dev.log <:+ log → log <:+ (op.run s).2.dev.log → CrashImage s.dev.origin log c →
      (∃ T', SameBut pos T T' ∧ Both T' s.vol c) ∧ (T 0).Spares s.vol pos item s.dev.image c ∧
        ∀ p, p < reservedSectors s.vol.header * sectorSize → c p = s.dev.image p

theorem mem_phaseStores {k : Nat} {st : Store} (h : st ∈ phaseStores phases k) :
    ∃ ph ∈ phases, st ∈ ph.stores := by
  unfold phaseStores at h
  cases hk : phases[k]? with
  | none =>
    rw [hk] at h
    cases h
  | some ph =>
    rw [hk] at h
    exact ⟨ph, List.mem_of_getElem? hk, h⟩

theorem Checked.sameGround {d : Device} (h : Checked d v w) : SameGround v w :=
  ⟨h.same.2.2.1, by rw [h.same.2.1]⟩

theorem Steady.soundIn (h : Steady dirs s) : SoundIn dirs s.vol s.dev.image := by
  rcases h.sound with ⟨t, hdir, hboth⟩ | ⟨-, hsound⟩
  · exact ⟨fun _ => t, fun _ => hdir, hboth⟩
  · exact hsound

/-- The plans that are carried out on a sound volume are guarded. -/
theorem Steady.planned {s1 : FsState} (h : Steady dirs s) {op : FileOp} (hvetted : Vetted s)
    (hchecked : Checked s.dev s.vol s1.vol) (hfit : Fitted s1.vol n)
    (hplan : op.Plans s s1.vol phases) :
    ∃ t pos item, t.dir = dirs ∧ Both (fun _ => t) s1.vol s.dev.image ∧
      Guarded s1.vol n pos item (fun _ => t) s.dev.image phases := by
  obtain ⟨t, hdir, hboth⟩ := h.sound.resolve_right fun hno => hno.1 hvetted
  obtain ⟨a, ha, hcached⟩ := h.coherent
  obtain ⟨hdesc, hroot, hhead, -⟩ := hchecked.same
  have hcached1 : Cached a s1.vol s.dev.image :=
    hcached.of_root hhead hroot (by rw [hdesc]; exact hcached.descriptors)
  have hboth1 := Both.of_ground hboth (Checked.sameGround hchecked)
  obtain ⟨pos, item, hguard⟩ := FileOp.guarded hplan hfit hdesc (ha.trans hdir.symm) hcached1 hboth1
  exact ⟨t, pos, item, hdir, hboth1, hguard⟩

theorem Steady.withstands (h : Steady dirs s) (op : FileOp) : Withstands dirs op s := by
  have hacted := op.acted h.sane
  unfold Withstands
  generalize op.run s = q at *
  cases hacted with
  | silent hsil _ =>
    obtain ⟨T, hdir, hboth⟩ := h.soundIn
    refine ⟨T, 0, DirItem.zero, hdir, hboth, fun log c h1 h2 hc => ?_⟩
    obtain rfl : c = s.dev.image :=
      (settled_crash (hsil.settled h.settled log h1 h2) hc).trans (hsil.replay log h1 h2)
    exact ⟨⟨T, .refl _ _, hboth⟩, ⟨fun _ _ _ _ _ => Or.inl rfl, fun _ _ _ _ _ _ => rfl⟩,
      fun _ _ => rfl⟩
  | @ran s1 s2 n phases r hsame hlog hon hchecked hid hfit hplan hran hend hdev hroot hvetted =>
    obtain ⟨t, pos, item, hdir, hboth, hguard⟩ := h.planned hvetted hchecked hfit hplan
    have hback := (Checked.sameGround hchecked).symm
    refine ⟨fun _ => t, pos, item, fun _ => hdir, Both.of_ground hboth hback, fun log c h1 h2 hc =>
      ?_⟩
    rw [hdev] at h2
    have hin := hran.inPhase (by rw [hsame.origin, hlog]; exact h.settled) log (hlog ▸ h1) h2
    rw [hsame.origin, image_of_log hsame hlog] at hin
    obtain ⟨k, -, htorn⟩ := hin.torn hc
    obtain ⟨T', hbut, hspares, hboth'⟩ := hguard.torn hfit hboth htorn
    refine ⟨⟨T', hbut, Both.of_ground hboth' hback⟩, Spares.of_ground hspares hback, fun p hp => ?_⟩
    -- no store reaches the reserved area
    have hmounted := FileOp.plans_mounted h.sane hplan
    have hground := Checked.ground (h.sane.tidy hmounted) hchecked hfit
    obtain ⟨a, -, hcached⟩ := h.coherent
    have hitems : RootItems s1.vol s.dev.image := (SameRoot.checked hchecked).items
      hcached.cached.item
    have hout : ∀ ph ∈ phases, ∀ st ∈ ph.stores, p < st.pos ∨ st.pos + st.len ≤ p := by
      intro ph hph st hst
      by_contra hin
      have htouch := FileOp.plans_touches hground hitems hplan hph hst (p := p) ⟨by omega, by omega⟩
      have hres := FileOp.touches_reserved hground htouch
      rw [hchecked.same.2.2.1] at hres
      omega
    rw [htorn.outside p, applyPhases_outside]
    · exact fun ph hph => hout ph (List.mem_of_mem_take hph)
    · intro st hst
      obtain ⟨ph, hph, hst⟩ := mem_phaseStores hst
      exact hout ph hph st hst

theorem headerOf_congr {img' : Bytes} (h : ∀ p, p < headerSize → img' p = img p) :
    headerOf img' = headerOf img := by
  funext p
  unfold headerOf
  by_cases hp : p < headerSize
  · rw [memcpy_of_lt (Nat.zero_le _) (by omega), memcpy_of_lt (Nat.zero_le _) (by omega)]
    exact h _ (by omega)
  · rw [memcpy_outside (by omega), memcpy_outside (by omega)]

/-- The header lies in the reserved area. -/
theorem Steady.header_kept (h : Steady dirs s)
    (hc : ∀ p, p < reservedSectors s.vol.header * sectorSize → c p = s.dev.image p) :
    headerOf c = s.vol.header := by
  rw [← h.header]
  refine headerOf_congr fun p hp => hc p ?_
  have h1 := Nat.mul_le_mul_right sectorSize (Nat.pos_of_ne_zero h.reserved)
  have h2 : headerSize ≤ 1 * sectorSize := by decide
  exact hp.trans_le (h2.trans h1)

theorem Steady.run (h : Steady dirs s) (op : FileOp) : Steady dirs (op.run s).2 := by
  have hkept := op.kept h.sane
  have hset := op.settled h.sane h.faultless h.settled
  have hsuffix := (op.acted h.sane).suffix
  have himage : (op.run s).2.dev.image = replay s.dev.origin (op.run s).2.dev.log := by
    unfold Device.image
    rw [hkept.same.origin]
  refine ⟨hkept.sane h.sane, h.faultless.of_same hkept.same, by rw [hkept.same.origin]; exact hset,
    op.coherent h.sane h.faultless h.coherent, ?_, by rw [hkept.ground.header]; exact h.reserved,
      ?_⟩
  · obtain ⟨T, pos, item, -, -, hall⟩ := h.withstands op
    have hcrash : CrashImage s.dev.origin (op.run s).2.dev.log (op.run s).2.dev.image := by
      rw [himage, ← hset.1]
      exact fun x => Or.inl fun i hi => rfl
    rw [hkept.ground.header]
    exact h.header_kept (hall _ _ hsuffix (List.suffix_refl _) hcrash).2.2
  · have hacted := op.acted h.sane
    have hground := hkept.ground
    clear hset hsuffix himage hkept
    generalize (op.run s).2 = s' at *
    cases hacted with
    | silent hsil _ =>
      rw [hsil.image]
      rcases h.sound with ⟨t, hdir, hboth⟩ | ⟨hno, T, hdir, hboth⟩
      · exact Or.inl ⟨t, hdir, Both.of_ground hboth hground⟩
      · exact Or.inr ⟨fun hvet => hno (hsil.vetted_before hvet), T, hdir,
          Both.of_ground hboth hground⟩
    | @ran s1 s2 n phases r hsame hlog hon hchecked hid hfit hplan hran hend hdev hroot hvetted =>
      obtain ⟨t, pos, item, hdir, hboth, hguard⟩ := h.planned hvetted hchecked hfit hplan
      have hvol := (Checked.sameGround hchecked).symm.trans hground
      left
      have hends : ∃ k, s2.dev.image = applyPhases (phases.take k) s.dev.image ∧
          (phases.length ≤ k ∨ ∃ st, phaseStores phases k = [st] ∧ n * sectorSize <
            st.pos + st.len) := by
        rcases hran.outcome with ⟨-, -, himg, -⟩ | ⟨-, k, -, hfail⟩ |
          ⟨-, k, st, hst, -, hcap, -, himg, -⟩
        · refine ⟨phases.length, ?_, Or.inl le_rfl⟩
          rw [himg, List.take_length, image_of_log hsame hlog]
        · obtain ⟨i, hi⟩ := hfail.fate
          rw [hsame.fates] at hi
          exact absurd (h.faultless i) hi
        · exact ⟨k, by rw [himg, image_of_log hsame hlog], Or.inr ⟨st, hst, hcap n hid⟩⟩
      obtain ⟨k, himg, hk⟩ := hends
      obtain ⟨t', hbut, hboth'⟩ := hguard.even hfit hboth hk
      refine ⟨t', (hbut.dir 0).trans hdir, ?_⟩
      rw [hdev, himg]
      exact Both.of_ground hboth' hvol

theorem Later.steady (h : Later s s') (hs : Steady dirs s) :
    SameGround s.vol s'.vol ∧ Steady dirs s' := by
  induction h with
  | refl => exact ⟨.refl _, hs⟩
  | op _ op ih => exact ⟨ih.1.trans (op.kept ih.2.sane).ground, ih.2.run op⟩
  | others _ heap ih =>
    obtain ⟨hg, h⟩ := ih
    exact ⟨hg, ⟨h.sane.tidy, h.sane.closed⟩, h.faultless, h.settled, h.coherent, h.header,
      h.reserved, h.sound⟩

/-! ## Mounts -/

theorem fatAt_mirror (h : FatsEqual v.header img) {c : Nat} (hc : fat16ValidCluster v c) :
    fatAt v img 1 c = fatAt v img 0 c := by
  have hlimit : 2 * fat16ClusterLimit v + 2 ≤ sectorsPerFat v.header * sectorSize :=
    ((limit_cases v).resolve_left (by have h1 := hc.1; have h2 := hc.2.1; omega)).2
  have hle := hc.2.1
  have h0 := h (c * 2) (by omega)
  have h1 := h (c * 2 + 1) (by omega)
  rw [← Nat.add_assoc, ← Nat.add_assoc] at h1
  unfold fatAt fatEntryPos le16
  rw [Nat.one_mul, Nat.zero_mul, ← h0, ← h1]
  rfl

theorem PoweredOn.steady (h : PoweredOn n img boot) (hmount : (fat16Resolve boot).1 = .ok ())
    (hlay : LaidOut v img) (hgeo : AcceptedGeometry v n) (hs : SoundIn dirs v img) :
    SameGround v (fat16Resolve boot).2.vol ∧ Steady dirs (fat16Resolve boot).2 := by
  obtain ⟨hsane, hfaultless, horigin, hlog, s1, hread⟩ := h.mounted hmount
  generalize (fat16Resolve boot).2 = s at *
  obtain ⟨hheader, hroot, hdesc, hready, -⟩ := mounted_plain hread
  have hground : SameGround v s.vol :=
    ⟨hheader.trans hlay.header.symm, (congrArg FatDirectory.endingSectorPos hroot).trans
      hlay.data.symm⟩
  have hgeo' : AcceptedGeometry s.vol n := by
    unfold AcceptedGeometry fat16ClusterLimit at hgeo ⊢
    rwa [hground.header, hground.data]
  have himg : s.dev.image = img := by
    unfold Device.image
    rw [hlog, horigin]
    rfl
  obtain ⟨T, hdir, hboth⟩ := hs
  have hboth' : Both T s.vol s.dev.image := by
    rw [himg]
    exact Both.of_ground hboth hground
  refine ⟨hground, hsane, hfaultless, by rw [hlog]; exact ⟨rfl, rfl⟩,
    ⟨⟨dirs, fun c => ∃ pos, c ∈ (T 0).file pos⟩, rfl, ?_⟩, by rw [himg, hheader],
      hgeo'.2.2.2.2.1, ?_⟩
  · have hserved := mounted_served hread (accepted_root hgeo')
    have hfits := (hboth' 0 (Nat.zero_le 1)).fits
    rw [hdir 0] at hfits
    rw [← himg] at hserved
    refine ⟨⟨hfits, hserved.rooted, hserved.cached, hserved.bound⟩, fun d hd => ?_⟩
    rw [hdesc] at hd
    cases hd
  · by_cases hvet : Vetted s
    · left
      have hequal : FatsEqual s.vol.header s.dev.image := hvet.resolve_left (by rw [hready]; decide)
      refine ⟨T 0, hdir 0, fun copy hcopy => ?_⟩
      rcases Nat.le_one_iff_eq_zero_or_eq_one.mp hcopy with rfl | rfl
      · exact hboth' 0 (Nat.zero_le 1)
      · exact (hboth' 0 (Nat.zero_le 1)).mirror fun c hc => fatAt_mirror hequal hc
    · exact Or.inr ⟨hvet, T, hdir, hboth'⟩

/-- After any number of losses of power, at whatever points of whatever operations, the header and
the clusters of the directories are the same and both copies of the FAT are sound. -/
theorem outages_sound (hlay : LaidOut v img) (hgeo : AcceptedGeometry v n) (hs : SoundIn dirs v img)
    (h : Relation.ReflTransGen (Outage n) img c) : LaidOut v c ∧ SoundIn dirs v c := by
  induction h with
  | refl => exact ⟨hlay, hs⟩
  | tail _ hout ih =>
    obtain ⟨boot, s, op, log, hboot, hmount, hrun, h1, h2, hc⟩ := hout.course
    obtain ⟨hground, hstart⟩ := hboot.steady hmount ih.1 hgeo ih.2
    obtain ⟨hlater, hsteady⟩ := hrun.steady hstart
    have hkept := hground.trans hlater
    obtain ⟨T, pos, item, hdir, -, hall⟩ := hsteady.withstands op
    obtain ⟨⟨T', hbut, hboth⟩, -, hres⟩ := hall log _ h1 h2 hc
    have hheader := hsteady.header_kept hres
    refine ⟨⟨?_, ?_⟩, T', fun copy => (hbut.dir copy).trans (hdir copy),
      Both.of_ground hboth hkept.symm⟩
    · rw [hheader, hkept.header]
    · rw [ih.1.data, hheader, hkept.header, ih.1.header]
      rfl

/-- The power goes before the entry of `A` is written: its bytes are on the disk, its size is the
old one. -/
theorem outages_sound_small : ∃ c, Outage 4200 smallDisk c ∧ c 18434 = 7 ∧ c 17948 = 2 ∧
    SoundIn (fun _ => none) smallVolume c := by
  have hbytes : smallOpened.dev.log.length = 0 ∧
      durable smallDisk (((FileOp.write 1 (fun _ => 7) 3).run smallOpened).2.dev.log.drop 1) 18434 =
        7 ∧
      durable smallDisk (((FileOp.write 1 (fun _ => 7) 3).run smallOpened).2.dev.log.drop 1) 17948 =
        2 := by
    decide +kernel
  have horigin : smallOpened.dev.origin = smallDisk := by
    obtain ⟨hsane, -, horigin, -⟩ := small_poweredOn.mounted small_mounts
    exact (small_opened.same hsane).2.origin.trans horigin
  have h : Outage 4200 smallDisk (durable smallDisk (((FileOp.write 1 (fun _ => 7) 3).run
      smallOpened).2.dev.log.drop 1)) := by
    refine ⟨_, smallOpened, .write 1 (fun _ => 7) 3, _, small_poweredOn, small_mounts,
      small_opened, ?_, List.drop_suffix 1 _, ?_⟩
    · rw [List.length_eq_zero_iff.mp hbytes.1]
      exact List.nil_suffix
    · rw [horigin]
      exact fun x => Or.inl fun i hi => rfl
  exact ⟨_, h, hbytes.2.1, hbytes.2.2,
    (outages_sound small_accepted.1 small_accepted.2 small_sound (.single h)).2⟩

/-- At whatever point of an operation the power goes, on a mount of a sound volume: both copies of
the FAT are sound, at most one directory entry has changed, all of it, and no other file has another
chain or other bytes. -/
theorem outage_spares (hlay : LaidOut v img) (hgeo : AcceptedGeometry v n) (hs : SoundIn dirs v img)
    (hboot : PoweredOn n img boot) (hmount : (fat16Resolve boot).1 = .ok ())
    (hrun : Later (fat16Resolve boot).2 s) (op : FileOp) : Withstands dirs op s :=
  (hrun.steady (hboot.steady hmount hlay hgeo hs).2).2.withstands op

theorem outage_spares_append : Withstands (fun _ => none) (.write 1 (fun _ => 7) 3) smallOpened :=
  outage_spares small_accepted.1 small_accepted.2 small_sound small_poweredOn small_mounts
    small_opened _

end

/-! ## Copies that differ -/

theorem Later.unvetted (h : Later s s') (hs : Sane s) (hno : ¬ Vetted s) :
    ¬ Vetted s' ∧ s'.dev.image = s.dev.image ∧
      Steps (fun _ e => ∃ lba, e = .readFailed lba) s.dev.origin s.dev.log s'.dev.log := by
  induction h with
  | refl => exact ⟨hno, rfl, .refl⟩
  | op hprev op ih =>
    obtain ⟨hstill, himg, hreads⟩ := ih
    obtain ⟨hsane, hsame⟩ := hprev.same hs
    have hacted := op.acted hsane
    generalize (op.run _).2 = s' at *
    cases hacted with
    | silent hsil _ =>
      have hsteps := hsil.steps
      rw [hsame.origin] at hsteps
      exact ⟨fun hvet => hstill (hsil.vetted_before hvet), hsil.image.trans himg,
        hreads.trans hsteps⟩
    | ran _ _ _ _ _ _ _ _ _ _ _ hvetted => exact absurd hvetted hstill
  | others _ heap ih => exact ih

/-- Where the two copies of the FAT differ, as a loss of power can leave them, no operation on the
mount sends a write to the drive. -/
theorem unequal_fats_unwritten (hunmounted : boot.mounted = false)
    (hfiles : ∀ i, boot.files i = none) (hmount : (fat16Resolve boot).1 = .ok ())
    (hfats : ¬ FatsEqual (headerOf boot.dev.image) boot.dev.image)
    (hrun : Later (fat16Resolve boot).2 s) : s.dev.image = boot.dev.image ∧
      Steps (fun _ e => ∃ lba, e = .readFailed lba) boot.dev.origin boot.dev.log s.dev.log := by
  have hspec := fat16Resolve_spec boot
  rw [Prog.ends_iff] at hspec
  have hsane := sane_mount hspec ⟨fun hm => absurd (hunmounted.symm.trans hm) (by decide),
    fun _ => hfiles⟩
  generalize (fat16Resolve boot).2 = s0 at *
  rw [hmount] at hspec
  cases hspec with
  | failed _ hr => cases hr
  | @mounted vol s1 hread _ he =>
    subst he
    obtain ⟨hheader, -, -, hready, -⟩ := mounted_plain hread
    have hno : ¬ Vetted { s1 with mounted := true, vol } := by
      rintro (hw | hequal)
      · exact absurd (hready.symm.trans hw) (by decide)
      · refine hfats ?_
        change FatsEqual vol.header s1.dev.image at hequal
        rwa [hheader, hread.quiet.image] at hequal
    obtain ⟨-, himg, hsteps⟩ := hrun.unvetted hsane hno
    have hfirst := (silent_reads hread).steps
    refine ⟨himg.trans hread.quiet.image, hfirst.trans ?_⟩
    rwa [← hread.quiet.same.origin]

/-- The small volume with an entry of the second FAT that the first one has not. -/
def unequalBoot : FsState :=
  { heap := bootHeap, mounted := false, vol := noVolume, files := fun _ => none,
    dev := { origin := fun p => if p = 9224 then 1 else smallDisk p, log := [],
             fates := fun _ => .done, calls := 0, identify := .ok 4200 } }

/-- `A` cannot be opened for appending, and the disk keeps its bytes. -/
theorem unequal_fats_unwritten_append :
    ((FileOp.open smallPath .append).run (fat16Resolve unequalBoot).2).1.toBool = false ∧
      ((FileOp.open smallPath .append).run (fat16Resolve unequalBoot).2).2.dev.image =
        unequalBoot.dev.image := by
  have hfats : ¬ FatsEqual (headerOf unequalBoot.dev.image) unequalBoot.dev.image := fun h =>
    absurd (h 8 (by decide +kernel)) (by decide +kernel)
  exact ⟨by decide +kernel,
    (unequal_fats_unwritten rfl (fun _ => rfl) (by decide +kernel) hfats (.op .refl _)).1⟩

end Rorthox.Fs
