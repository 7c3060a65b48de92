import Rorthox.Fat.Cached
import Rorthox.Fat.Calls

/-!
# The plans keep the caches in step

Writing, truncating and creating store data and links in clusters of files only, and every
entry they store is published. So the driver's functions leave nothing cached stale.
-/

namespace Rorthox.Fat

open Lib Disk Memory

/-! ## More clusters for files -/

/-- Files get the clusters of a list too. -/
def Allotment.add (a : Allotment) (fresh : List Nat) : Allotment :=
  { a with files := fun c => a.files c ∨ c ∈ fresh }

variable {count desc pos copy size : Nat} {entry : DirItem} {chain : List Nat} {data : Bytes}
  {mode : FileMode} {s s' : FsState} {r : Except Errno Nat} {base ext name : List UInt8}
  {phases : List Phase} {path : List (List UInt8)} {item : FatItem}

section

variable {a : Allotment} {v : FatPrivate} {img : Bytes} {n : Nat} {fresh : List Nat}

theorem Allotment.At.of_chain {first : Nat} {f : Folder} (h : a.At v first f) (b : Allotment)
    (hb : b.chain = a.chain) : b.At v first f := by
  cases h with
  | root => exact .root
  | sub hc => exact .sub (by rw [hb]; exact hc)

theorem Allotment.Holds.of_chain (h : a.Holds v img pos entry) (b : Allotment)
    (hb : b.chain = a.chain) : b.Holds v img pos entry := by
  obtain ⟨⟨first, f, i, hat, hrest⟩, h2, h3, h4⟩ := h
  exact ⟨⟨first, f, i, hat.of_chain b hb, hrest⟩, h2, h3, h4⟩

/-- A cluster of a directory has a link or an end mark. -/
theorem DirChain.not_free {first c : Nat} (h : DirChain v img first chain) (hc : c ∈ chain) :
    ¬ FreeCluster v img c := by
  exact fun hfree => h.linked.entry_ne h.valid c hc hfree.1

theorem Cached.add (h : Cached a v img) (hfree : ∀ c ∈ fresh, FreeCluster v img c) :
    Cached (a.add fresh) v img := by
  refine ⟨⟨?_, h.rooted, h.cached, h.bound⟩, fun d hd addr item hn =>
    (h.descriptors d hd addr item hn).of_chain (a.add fresh) rfl⟩
  constructor
  · exact h.fits.chained
  · exact h.fits.apart
  · intro first chain c hc hm hfile
    rcases hfile with hfile | hfile
    · exact h.fits.reserved first chain c hc hm hfile
    · exact (h.fits.chained first chain hc).not_free hm (hfree c hfile)
  · intro c hfile hv hv'
    rcases hfile with hfile | hfile
    · exact Or.inl (h.fits.links c hfile hv hv')
    · rw [(hfree c hfile).1] at hv'
      exact absurd hv'.1 (by omega)
  · intro first f i hat hlive hshown hv
    have hadmits := h.fits.entries first f i (hat.of_chain a rfl) hlive hshown hv
    split at hadmits
    · rename_i hsub
      rw [if_pos hsub]
      exact hadmits
    · rename_i hsub
      rw [if_neg hsub]
      exact Or.inl hadmits

/-- The clusters of a file belong to files. -/
theorem Allotment.Fits.chain_files (h : a.Fits v img) (hl : Linked v img 0 chain)
    (hv : ∀ c ∈ chain, fat16ValidCluster v c) (hfirst : chain ≠ [] → a.files (chain.headD 0)) :
    ∀ c ∈ chain, a.files c := by
  induction chain with
  | nil => intro c hc; cases hc
  | cons d chain ih =>
    have hd : a.files d := hfirst (List.cons_ne_nil _ _)
    intro c hc
    rcases List.mem_cons.mp hc with rfl | hc
    · exact hd
    · refine ih hl.tail (fun e he => hv e (List.mem_cons_of_mem _ he)) (fun hne => ?_) c hc
      cases chain with
      | nil => exact absurd rfl hne
      | cons e chain =>
        have hlink : fatAt v img 0 d = e := hl.1
        have he := hv e (List.mem_cons_of_mem _ List.mem_cons_self)
        have hfile := h.links d hd (hv d List.mem_cons_self) (by rw [hlink]; exact he)
        rw [hlink] at hfile
        exact hfile

theorem Allotment.Holds.first_file (hh : a.Holds v img pos entry) (h : a.Fits v img)
    (hv : fat16ValidCluster v entry.lowFirstCluster) : a.files entry.lowFirstCluster := by
  obtain ⟨⟨first, f, i, hat, hlive, rfl⟩, h2, h3, h4⟩ := hh
  have hadmits := h.entries first f i hat hlive
  rw [← h2] at hadmits
  have hfile := hadmits h3 hv
  rwa [if_neg (not_not.mpr h4)] at hfile

theorem Allotment.Holds.chain_files (hh : a.Holds v img pos entry) (h : a.Fits v img)
    (hc : chainOf v img entry = .ok chain) : ∀ c ∈ chain, a.files c := by
  obtain ⟨-, -, hchain, -⟩ := (chainOf_ok_iff entry chain).mp hc
  apply h.chain_files hchain.linked fun c hm => (hchain.writable c hm).1
  intro hne
  rw [hchain.head]
  apply hh.first_file h
  rw [← hchain.head]
  cases chain with
  | nil => exact absurd rfl hne
  | cons c chain => exact (hchain.writable c List.mem_cons_self).1

/-! ## The entries that are stored -/

theorem archived_marks : ∀ x : UInt8, (x ||| fileArchived) &&& fileVolumeLabel =
    x &&& fileVolumeLabel ∧ (x ||| fileArchived) &&& fileSubdirectory = x &&& fileSubdirectory := by
  decide +kernel

theorem rewritten_skipped (item : DirItem) (first size : Nat) :
    Skipped (rewritten item first size) ↔ Skipped item := by
  unfold Skipped
  rw [rewritten_byte item first size (by decide) (by decide), rewritten_attrib,
    (archived_marks item.attrib).1]

/-- The entry of an open file with another first cluster and size. -/
theorem Allotment.Holds.commits (hh : a.Holds v img pos entry) (first : Nat) (hlt : first < 2 ^ 16)
    (hfile : fat16ValidCluster v first → a.files first) (size : Nat) :
    Commits a v img pos (rewritten entry first size) := by
  constructor
  · exact hh.room
  · rw [rewritten_byte entry first size (by decide) (by decide), hh.load, load_first]
    obtain ⟨_, f, i, _, hlive, rfl⟩ := hh.place
    exact hlive.used i le_rfl
  · rw [rewritten_skipped]
    exact hh.shown
  · rw [rewritten_attrib, (archived_marks entry.attrib).2]
    exact hh.file
  · rw [rewritten_first entry size hlt]
    exact hfile

/-- A name whose first character makes a proper entry. -/
def ProperName (name : List UInt8) : Prop :=
  ∃ c rest, name = c :: rest ∧ c ≠ 0x2E ∧ 0x20 < c ∧ c < 0x7F

theorem toUpper_proper : ∀ c : UInt8, 0x20 < c → c < 0x7F → toUpper c ≠ 0 ∧ toUpper c ≠ 0xE5 := by
  decide +kernel

theorem shortName_base (name : List UInt8) : ∀ {dot : Bool} {base ext b e : List UInt8},
    shortName name dot base ext = .ok (b, e) → ∃ t, b = base ++ t := by
  induction name with
  | nil =>
    intro dot base ext b e h
    cases h
    exact ⟨[], (List.append_nil _).symm⟩
  | cons c name ih =>
    intro dot base ext b e h
    unfold shortName at h
    split at h
    · exact ih h
    · obtain ⟨-, h⟩ := except_guard_ok.mp h
      split at h
      · exact ih h
      · obtain ⟨t, rfl⟩ := ih h
        exact ⟨toUpper c :: t, by rw [List.append_assoc]; rfl⟩

theorem ProperName.first (hn : ProperName name) (h : shortName name false [] [] = .ok (base, ext)) :
    (newEntry base ext).byte 0 ≠ 0 ∧ (newEntry base ext).byte 0 ≠ 0xE5 := by
  obtain ⟨c, rest, rfl, hdot, hlo, hhi⟩ := hn
  unfold shortName at h
  rw [if_neg hdot] at h
  obtain ⟨-, h⟩ := except_guard_ok.mp h
  rw [if_neg Bool.false_ne_true] at h
  obtain ⟨t, rfl⟩ := shortName_base rest h
  have hbyte : (newEntry ([] ++ [toUpper c] ++ t) ext).byte 0 = toUpper c := by
    unfold newEntry
    rw [modified_byte _ (by decide) (by decide), DirItem.put_out _ (by decide),
      DirItem.put_out _ (by omega), DirItem.put_in _ (by decide) le_rfl (by simp)]
    rfl
  rw [hbyte]
  exact toUpper_proper c hlo hhi

theorem commits_new (hroom : Room a v img pos) (hn : ProperName name)
    (h : shortName name false [] [] = .ok (base, ext)) :
    Commits a v img pos (newEntry base ext) := by
  obtain ⟨hb, he⟩ := shortName_lengths name (Nat.zero_le _) (Nat.zero_le _) h
  obtain ⟨hused, hdel⟩ := hn.first h
  constructor
  · exact hroom
  · exact hused
  · rintro (hs | hs)
    · exact hdel hs
    · rw [newEntry_attrib hb he] at hs
      exact hs (by decide)
  · rw [newEntry_attrib hb he]
    decide
  · rw [newEntry_first hb he]
    intro hv
    exact absurd hv.1 (by decide)

/-! ## Phases of links and data -/

theorem harmless_set (hcopy : copy ≤ 1) (hfile : ∀ c ∈ chain, a.files c)
    (hw : ∀ c ∈ chain, Writable v c) : ∀ st ∈ setStores v copy 0 chain, Harmless a v st := by
  intro st hst
  obtain ⟨c, hc, rfl⟩ := List.mem_map.mp hst
  exact .link hcopy (hfile c hc) (hw c hc).2 (by decide) fun hv => absurd hv.1 (by omega)

theorem harmless_links (hcopy : copy ≤ 1) (chain : List Nat) : (∀ c ∈ chain, a.files c) →
    (∀ c ∈ chain, Writable v c) → ∀ st ∈ linkStores v copy chain, Harmless a v st := by
  induction chain with
  | nil => intro _ _ st hst; cases hst
  | cons c chain ih =>
    intro hfile hw st hst
    rcases List.mem_cons.mp hst with rfl | hst
    · have hc := List.mem_cons_self (a := c) (l := chain)
      cases chain with
      | nil =>
        exact .link hcopy (hfile c hc) (hw c hc).2 (by decide) fun hv =>
          absurd hv (eoc_not_valid (by decide))
      | cons d chain =>
        have hd : d ∈ c :: d :: chain := List.mem_cons_of_mem _ List.mem_cons_self
        exact .link hcopy (hfile c hc) (hw c hc).2 (valid_lt (hw d hd).1) fun _ => hfile d hd
    · exact ih (fun d hd => hfile d (List.mem_cons_of_mem _ hd))
        (fun d hd => hw d (List.mem_cons_of_mem _ hd)) st hst

theorem harmless_zero (hfile : ∀ c ∈ chain, a.files c) (hw : ∀ c ∈ chain, Writable v c) :
    ∀ st ∈ zeroStores v chain, Harmless a v st := by
  intro st hst
  obtain ⟨c, hc, -, -, hlo, hhi⟩ := mem_zeroStores hst
  apply Harmless.data (hfile c hc) (hw c hc).1.1 hlo
  rwa [Nat.add_mul] at hhi

theorem harmless_data (hf : Fitted v n) {start : Nat} (hfile : ∀ c ∈ chain, a.files c)
    (hw : ∀ c ∈ chain, Writable v c) (hlen : chain.length = clustersFor v size)
    (hsize : start + count ≤ size) :
    ∀ st ∈ dataStores v chain data count start count 0, Harmless a v st := by
  intro st hst
  obtain ⟨q, h1, h2, h3, h4, h5, -⟩ := mem_dataStores hf.clusterBytes_pos hst
  have hidx : q / clusterBytes v < chain.length := by
    rw [hlen]
    exact lt_clustersFor v (by omega)
  have hc := getD_mem hidx
  exact .data (hfile _ hc) (hw _ hc).1.1 (by omega) (by omega)

/-! ## Plans -/

theorem unseen_free (hfile : ∀ c ∈ chain, a.files c) (hw : ∀ c ∈ chain, Writable v c) :
    Unseen a v (freePhases v chain) := by
  intro ph hph
  obtain ⟨copy, hcopy, rfl⟩ := mem_freePhases hph
  exact ⟨_, rfl, harmless_set hcopy hfile hw⟩

theorem unseen_extend {old : List Nat} (hold : ∀ c ∈ old, a.files c)
    (hfresh : ∀ c ∈ fresh, a.files c) (hwo : ∀ c ∈ old, Writable v c)
    (hwf : ∀ c ∈ fresh, Writable v c) : Unseen a v (extendPhases v old fresh) := by
  intro ph hph
  obtain ⟨copy, hcopy, rfl | ⟨hlast, hhead, rfl⟩⟩ := mem_extendPhases hph
  · exact ⟨_, rfl, harmless_links hcopy fresh hfresh hwf⟩
  · refine ⟨_, rfl, fun st hst => ?_⟩
    rw [List.mem_singleton.mp hst]
    exact .link hcopy (hold _ hlast) (hwo _ hlast).2 (valid_lt (hwf _ hhead).1)
      fun _ => hfresh _ hhead

/-- A truncation; after it the entry on the disk is the empty one. -/
theorem fine_truncate (hf : Fitted v n) (hh : a.Holds v img pos entry) (h : a.Fits v img)
    (hc : chainOf v img entry = .ok chain) : Fine a v img (truncatePhases v entry pos chain) ∧
      a.Holds v (applyPhases (truncatePhases v entry pos chain) img) pos (emptied entry) := by
  have hchain := ((chainOf_ok_iff entry chain).mp hc).2.2.1
  have hcommit : Commits a v img pos (emptied entry) :=
    hh.commits 0 (by decide) (fun hv => absurd hv.1 (by decide)) 0
  have hfree : Unseen a v (freePhases v chain) := unseen_free (hh.chain_files h hc) hchain.writable
  constructor
  · have hrest := Unseen.fine [] ((entryStore pos (emptied entry)).apply img) hfree .nil
    rw [List.append_nil] at hrest
    exact .commit hcommit hrest
  · exact hfree.holds hf (hcommit.fits h hf) pos _ hcommit.stored

/-- A write, with its new clusters among those of files. -/
theorem fine_write (hf : Fitted v n) {d : FatFileDescriptor} {item : DirItem} {b : Nat}
    (hp : writePlan v img d item data count = .ok (phases, b))
    (hh : a.Holds v img d.item.entryPos item) (h : Cached a v img) :
    ∃ fresh, Cached (a.add fresh) v img ∧ Fine (a.add fresh) v img phases := by
  obtain ⟨-, -, -, old, fresh, hold, -, halloc, rfl⟩ := writePlan_ok hp
  obtain ⟨-, hlen, -⟩ := (allocOf_ok_iff _ _ fresh).mp halloc
  have hcached := h.add fun c hc => (alloc_mem halloc c hc).2
  refine ⟨fresh, hcached, ?_⟩
  have hwf := alloc_writable hf halloc
  have hchain := ((chainOf_ok_iff item old).mp hold).2.2.1
  have hwo := hchain.writable
  have hh' := hh.of_chain (a.add fresh) rfl
  have hfo : ∀ c ∈ old, (a.add fresh).files c := fun c hc =>
    Or.inl (hh.chain_files h.fits hold c hc)
  have hff : ∀ c ∈ fresh, (a.add fresh).files c := fun c hc => Or.inr hc
  have hfall : ∀ c ∈ old ++ fresh, (a.add fresh).files c := fun c hc =>
    (List.mem_append.mp hc).elim (hfo c) (hff c)
  have hwall : ∀ c ∈ old ++ fresh, Writable v c := fun c hc =>
    (List.mem_append.mp hc).elim (hwo c) (hwf c)
  have hunseen : Unseen (a.add fresh) v
      (.plain (zeroStores v fresh ++ dataStores v (old ++ fresh) data count (writeStart d item)
        count 0) :: extendPhases v old fresh) := by
    intro ph hph
    rcases List.mem_cons.mp hph with rfl | hph
    · refine ⟨_, rfl, fun st hst => ?_⟩
      rcases List.mem_append.mp hst with hst | hst
      · exact harmless_zero hff hwf st hst
      · refine harmless_data hf hfall hwall ?_ (le_sizeAfter item _) st hst
        rw [List.length_append]
        exact hlen
    · exact unseen_extend hfo hff hwo hwf ph hph
  apply Unseen.fine [commitPhase d.item.entryPos _] img hunseen
  apply Fine.commit _ .nil
  apply (hunseen.holds hf hcached.fits _ _ hh').commits
  · cases hl : old ++ fresh with
    | nil => decide
    | cons c rest => exact valid_lt (hwall c (hl ▸ List.mem_cons_self)).1
  · intro hv
    cases hl : old ++ fresh with
    | nil =>
      rw [hl] at hv
      exact absurd hv.1 (by decide)
    | cons c rest => exact hfall c (hl ▸ List.mem_cons_self)

/-- Opening for writing; at its end the disk holds the entry of the item. -/
theorem fine_open (hf : Fitted v n) (h : Cached a v img) (hnames : ∀ name ∈ path, ProperName name)
    (hmode : mode ≠ .read) (hp : openPlan v img path mode = .ok (phases, item)) :
    Fine a v img phases ∧ ∃ addr entry, item.node = .file addr entry ∧
      a.Holds v (applyPhases phases img) item.entryPos entry := by
  rcases openPlan_ok hmode hp with ⟨-, hc⟩ |
    ⟨found, addr, entry, hl, hn, -, ⟨-, chain, hchain, rfl, rfl⟩ | ⟨-, -, rfl, rfl⟩⟩
  · obtain ⟨start, last, slot, base, ext, hparent, -, hslot, hname, rfl, rfl⟩ := createPlan_ok hc
    obtain ⟨⟨f, hat⟩, hlast⟩ := h.toReadable.parentOf path h.root hparent
    have hroom := h.toReadable.roomFrom hat (fun j hj => absurd hj (by omega))
      (fun p hp => (by cases hp)) hslot
    have hcommit := commits_new hroom (hnames last hlast) hname
    exact ⟨.commit hcommit .nil, 0, _, rfl, hcommit.stored⟩
  · have hfound := h.toReadable.lookup hl
    unfold Allotment.Found at hfound
    rw [hn] at hfound
    obtain ⟨h1, h2⟩ := fine_truncate hf hfound h.fits hchain
    exact ⟨h1, 0, _, rfl, h2⟩
  · have hfound := h.toReadable.lookup hl
    unfold Allotment.Found at hfound
    rw [hn] at hfound
    exact ⟨.nil, addr, entry, hn, hfound⟩

end

/-! ## Calls -/

/-- The drive does what it is told. -/
def Faultless (s : FsState) : Prop := ∀ i, s.dev.fates i = .done

theorem Faultless.of_same (h : Faultless s) (hs : s.dev.Same s'.dev) : Faultless s' :=
  fun i => by rw [hs.fates]; exact h i

/-- Nothing cached is stale in a state. -/
def Coherent (s : FsState) : Prop := ∃ a, Cached a s.vol s.dev.image

/-- The same, with the directories given. -/
def CoherentIn (dirs : Nat → Option (List Nat)) (s : FsState) : Prop :=
  ∃ a, a.chain = dirs ∧ Cached a s.vol s.dev.image

section

variable {dirs : Nat → Option (List Nat)}

theorem CoherentIn.of_vol (h : CoherentIn dirs s) (hv : s'.vol = s.vol)
    (hi : s'.dev.image = s.dev.image) : CoherentIn dirs s' := by
  obtain ⟨a, hdirs, ha⟩ := h
  exact ⟨a, hdirs, by rw [hv, hi]; exact ha⟩

theorem CoherentIn.prepared {r : Except Errno Unit} (h : CoherentIn dirs s)
    (hp : PreparedTo s r s') : CoherentIn dirs s' := by
  obtain ⟨a, hdirs, ha⟩ := h
  obtain ⟨hdesc, hroot, hhead, -⟩ := hp.vol.same
  refine ⟨a, hdirs, ?_⟩
  rw [hp.image]
  exact ha.of_root hhead hroot (by rw [hdesc]; exact ha.descriptors)

/-- A drive without faults carries out a plan whose phases are fine, or refuses one of them. -/
theorem acts_coherent {α β : Type} {held err : Multiset Nat} {sh : Shape α β}
    {post : FatPrivate → FatPrivate} {plan : Except Errno (List Phase × β)} {r : Except Errno α}
    {n : Nat} (h : ActsTo held err sh post plan s r s') (hf : Fitted s.vol n) (hdone : Faultless s)
    (hs : CoherentIn dirs s) {Q : Allotment → List Phase → β → Prop}
    (hplan : ∀ phases b, plan = .ok (phases, b) → ∃ a, a.chain = dirs ∧
      Cached a s.vol s.dev.image ∧ Fine a s.vol s.dev.image phases ∧ Q a phases b) :
    (CoherentIn dirs s' ∧ ∃ e, r = .error e) ∨
      ∃ phases b a, plan = .ok (phases, b) ∧ r.map sh.view = .ok b ∧
        s'.vol = post (afterPhases phases s.vol) ∧ s'.dev.image = applyPhases phases s.dev.image ∧
        a.chain = dirs ∧ Cached a (afterPhases phases s.vol) (applyPhases phases s.dev.image) ∧
          Q a phases b := by
  rcases h.outcome with ⟨hv, hi, ⟨-, e, he, -⟩ | ⟨-, e, he, -⟩⟩ |
    ⟨-, phases, b, r0, v1, hp, hran, hend⟩
  · exact Or.inl ⟨hs.of_vol hv hi, e, he⟩
  · exact Or.inl ⟨hs.of_vol hv hi, e, he⟩
  · obtain ⟨a, hdirs, hcached, hfine, hq⟩ := hplan phases b hp
    have htake := hfine.cached hf (.refl _) hcached
    rcases hran.outcome with ⟨h0, hv, hi, -⟩ | ⟨-, k, -, hfail⟩ | ⟨h0, k, st, -, -, -, hv, hi, -⟩
    · rcases hend with ⟨-, hview, hvol⟩ | ⟨e, he, -⟩
      · right
        refine ⟨phases, b, a, hp, hview, hvol.trans (congrArg post hv), hi, hdirs, ?_, hq⟩
        have hall := htake phases.length
        rwa [List.take_length] at hall
      · rw [h0] at he
        cases he
    · obtain ⟨i, hi⟩ := hfail.fate
      exact absurd (hdone i) hi
    · rcases hend with ⟨he, -⟩ | ⟨e, -, hr, hvol⟩
      · rw [h0] at he
        cases he
      · left
        have hi' : s'.dev.image = applyPhases (phases.take k) s.dev.image := hi
        refine ⟨⟨a, hdirs, ?_⟩, e, hr⟩
        rw [hvol, show v1 = afterPhases (phases.take k) s.vol from hv, hi']
        exact htake k

theorem Cached.setPos {a : Allotment} {v : FatPrivate} {img : Bytes} (h : Cached a v img)
    (desc pos : Nat) : Cached a (setPos desc pos v) img := by
  refine h.of_root (w := Fat.setPos desc pos v) rfl rfl fun d hd addr item hn => ?_
  obtain ⟨d', hd', rfl⟩ := List.mem_map.mp hd
  split at hn
  · rename_i he
    rw [if_pos he]
    exact h.descriptors d' hd' addr item hn
  · rename_i he
    rw [if_neg he]
    exact h.descriptors d' hd' addr item hn

theorem coherent_write (hdone : Faultless s) (hs : CoherentIn dirs s)
    (h : WriteCourse desc data count s r s') : CoherentIn dirs s' := by
  cases h with
  | untargeted _ _ he => exact he ▸ hs
  | nothing _ _ _ he => exact he ▸ hs
  | unprepared _ _ hp _ => exact hs.prepared hp
  | @acted d item ht _ s1 n hp hid hfit hact =>
    have hs1 := hs.prepared hp
    have hdone1 := hdone.of_same hp.still.same
    obtain ⟨a, hdirs, ha⟩ := hs1
    have hmem : d ∈ s1.vol.descriptors := by
      rw [hp.vol.same.1]
      exact (findDescriptor_mem ht.found).1
    obtain ⟨addr, hnode⟩ := ht.file
    have hholds := ha.descriptors d hmem addr item hnode
    have hplan : ∀ phases b, writePlan s1.vol s1.dev.image d item data count = .ok (phases, b) →
        ∃ a', a'.chain = dirs ∧ Cached a' s1.vol s1.dev.image ∧ Fine a' s1.vol s1.dev.image phases ∧
          True := by
      intro phases b hp'
      obtain ⟨fresh, h1, h2⟩ := fine_write hfit hp' hholds ha
      exact ⟨a.add fresh, hdirs, h1, h2, trivial⟩
    rcases acts_coherent hact hfit hdone1 ⟨a, hdirs, ha⟩ hplan with
      ⟨h1, -⟩ | ⟨phases, b, a', -, -, hv, hi, hdirs', hc, -⟩
    · exact h1
    · refine ⟨a', hdirs', ?_⟩
      rw [hv, hi]
      exact hc.setPos _ _

theorem plain_file {addr : Nat} (h : item.node = .file addr entry) :
    item.plain.node = .file 0 entry := by
  unfold FatItem.plain
  simp only [h]

/-- A new descriptor whose item is the one on the disk. -/
theorem CoherentIn.published {r0 : Except Errno (Nat × FatItem)} {a : Allotment}
    (hend : (r, s') = publishOpened mode r0 s) (hdirs : a.chain = dirs)
    (h : Cached a s.vol s.dev.image)
    (hitem : ∀ p, r0 = .ok p → ∀ entry, p.2.plain.node = .file 0 entry →
      a.Holds s.vol s.dev.image p.2.entryPos entry) : CoherentIn dirs s' := by
  cases r0 with
  | error e =>
    obtain ⟨-, rfl⟩ : r = .error e ∧ s' = s := Prod.ext_iff.mp hend
    exact ⟨a, hdirs, h⟩
  | ok p =>
    obtain ⟨-, rfl⟩ : r = .ok p.1 ∧ s' = onVol (addDescriptor mode p) s := Prod.ext_iff.mp hend
    refine ⟨a, hdirs, h.of_root (w := addDescriptor mode p s.vol) rfl rfl fun d hd addr item hn =>
      ?_⟩
    rcases List.mem_cons.mp hd with rfl | hd
    · exact hitem p rfl item (plain_file hn)
    · exact h.descriptors d hd addr item hn

theorem coherent_open (hnames : mode ≠ .read → ∀ name ∈ path, ProperName name) (hdone : Faultless s)
    (hs : CoherentIn dirs s) (h : OpenCourse path mode s r s') : CoherentIn dirs s' := by
  cases h with
  | invalid _ _ he => exact he ▸ hs
  | @looked hm r0 s2 hread hend =>
    obtain ⟨a, hdirs, ha⟩ := hs
    have ha2 : Cached a s2.vol s2.dev.image := by
      rw [hread.quiet.vol, hread.quiet.image]
      exact ha
    refine CoherentIn.published hend hdirs ha2 fun p hp entry hn => ?_
    rcases hread.outcome with ⟨-, hden⟩ | ⟨-, e, he, -⟩
    · rw [hp] at hden
      have hlook : lookup s.vol s.dev.image path = .ok p.2.plain := hden.symm
      have hfound := ha.toReadable.lookup hlook
      unfold Allotment.Found at hfound
      rw [hn] at hfound
      rw [hread.quiet.vol, hread.quiet.image]
      exact hfound
    · rw [hp] at he
      cases he
  | unprepared _ hp _ => exact hs.prepared hp
  | @acted hm _ s1 n hp hid hfit r0 s2 hact hend =>
    have hdone1 := hdone.of_same hp.still.same
    obtain ⟨a, hdirs, ha⟩ := hs.prepared hp
    rcases acts_coherent (Q := fun a phases b => ∃ addr entry, b.node = .file addr entry ∧
        a.Holds s1.vol (applyPhases phases s1.dev.image) b.entryPos entry) hact hfit hdone1
          ⟨a, hdirs, ha⟩
      (fun phases b hplan => by
        obtain ⟨h1, h2⟩ := fine_open hfit ha (hnames hm) hm hplan
        exact ⟨a, hdirs, ha, h1, h2⟩) with ⟨⟨a', hdirs', ha'⟩, e, he⟩ |
      ⟨phases, b, a', hplan, hview, hv, hi, hdirs', hc, haddr, entry, hn, hheld⟩
    · exact CoherentIn.published hend hdirs' ha' fun p hp' => (by rw [he] at hp'; cases hp')
    · have hlay := afterPhases_layout (v := s1.vol) phases (openPlan_publish hm hplan)
      refine CoherentIn.published (a := a') hend hdirs' (by rw [hv, hi]; exact hc)
        fun p hp' entry' hn' => ?_
      rw [hp'] at hview
      have hb : p.2.plain = b := Except.ok.inj hview
      rw [hb, hn] at hn'
      cases hn'
      have hpos : p.2.entryPos = b.entryPos := by
        rw [← hb]
        rfl
      rw [hpos, hv, hi]
      exact hheld.congr hlay.header hlay.data

theorem coherent_close (desc : Nat) (hs : CoherentIn dirs s) :
    CoherentIn dirs (fat16Close desc s) := by
  obtain ⟨a, hdirs, ha⟩ := hs
  obtain ⟨hdev, -, -, rest, hrest, hvol⟩ := close_spec desc s
  refine ⟨a, hdirs, ?_⟩
  rw [hdev, hvol]
  exact ha.of_root rfl rfl fun d hd => ha.descriptors d (hrest d hd)

theorem coherent_setPos (desc pos : Nat) (hs : CoherentIn dirs s) :
    CoherentIn dirs (onVol (setPos desc pos) s) := by
  obtain ⟨a, hdirs, ha⟩ := hs
  exact ⟨a, hdirs, ha.setPos desc pos⟩

theorem coherent_read {r : Except Errno (Nat × Bytes)} (hs : CoherentIn dirs s)
    (h : ReadCourse desc count s r s') : CoherentIn dirs s' := by
  cases h with
  | untargeted _ _ _ he => exact he ▸ hs
  | nothing _ _ _ he => exact he ▸ hs
  | got _ _ _ hread _ he =>
    rw [he]
    exact coherent_setPos _ _ (hs.of_vol hread.quiet.vol hread.quiet.image)
  | failed _ _ _ hread _ => exact hs.of_vol hread.quiet.vol hread.quiet.image

theorem coherent_items {nmemb : Nat} {r : Except Errno (Nat × Bytes)} (hs : CoherentIn dirs s)
    (h : ItemsCourse desc size nmemb s r s') : CoherentIn dirs s' := by
  cases h with
  | stopped _ he => exact he ▸ hs
  | ran _ _ _ h =>
    obtain ⟨a, hdirs, ha⟩ := hs
    obtain ⟨p, -, hv, -⟩ := h.vol
    refine ⟨a, hdirs, ?_⟩
    rw [hv, h.image]
    unfold moved
    split
    · exact ha
    · exact ha.setPos _ _

end

end Rorthox.Fat
