import Rorthox.Fat.Allocate

/-!
# When a write reaches the disk

`fat16_write_bytes` checks the handle, the volume, the start, the size, its memory, the chain and
the free clusters before it stores a byte. On a drive without faults the stores are made just when
all of that passes, and then only the last one, the directory entry, can be turned away.
-/

namespace Rorthox.Fat

open Lib Disk Memory

/-- The volume once `fat16_prepare_write` has passed on a drive of `n` sectors. -/
def readied (v : FatPrivate) (n : Nat) : FatPrivate :=
  { v with maxWritable := writableLimit v n, writeReady := true }

/-- The next allocation gets `size` bytes; for 0 bytes none is made. -/
def Granted (k : KHeap) (size : Nat) : Prop := size = 0 ∨ (kmalloc k size).1 ≠ none

/-- The checks of a write of `count` bytes, in the order of the source; `old` is the chain of the
file. -/
structure Admitted (s : FsState) (desc count : Nat) (d : FatFileDescriptor)
    (item : DirItem) (n : Nat) (old : List Nat) : Prop where
  target : WriteTarget s.vol desc d item
  some : 0 < count
  enabled : s.vol.mutationDisabled = false
  drive : s.dev.identify = .ok n
  volume : s.vol.writeReady = true ∨ AcceptedGeometry s.vol n ∧ FatsEqual s.vol.header s.dev.image
  start : writeStart d item ≤ item.filesize
  size : writeStart d item + count ≤ intMax
  high : item.highFirstCluster = 0
  fits : item.filesize ≤ intMax
  memory : Granted s.heap (chainSize (readied s.vol n))
  chain : Chain (readied s.vol n) s.dev.image 0 item.lowFirstCluster old
  exact : old.length = clustersFor s.vol item.filesize
  room : clustersFor s.vol (sizeAfter item (writeStart d item + count)) ≤
    old.length + (freeClusters (readied s.vol n) s.dev.image).length

/-! ## Memory -/

theorem kzalloc_heap (e : Errno) (size : Nat) (s : FsState) :
    (kzalloc e size s).2.heap = (kmalloc s.heap size).2 := by
  unfold kzalloc
  rcases kmalloc s.heap size with ⟨_ | p, k⟩ <;> rfl

theorem kmalloc_granted {k : KHeap} {size : Nat} (h : 0 < size) :
    (kmalloc k size).2.refusals = k.refusals ↔ Granted k size := by
  rcases kmalloc_cases k size with ⟨hnone, -, hrefused⟩ | ⟨s, -, -, hsome, -, -, hkept⟩
  · refine iff_of_false (by omega) ?_
    rintro (h0 | hne)
    · omega
    · exact hne hnone
  · exact iff_of_true hkept (Or.inr (by rw [hsome]; exact Option.some_ne_none _))

variable {v : FatPrivate} {item : DirItem} {s s' : FsState} {count desc : Nat}

theorem keeps_collectLoop (capacity fuel : Nat) : ∀ current chain,
    Prog.Keeps FsState.heap (collectLoop v capacity fuel current chain) := by
  induction fuel with
  | zero => exact fun _ _ => .raise _
  | succ fuel ih =>
    exact fun _ _ => .bind (.refuse _ _) fun _ => .bind (keeps_fatEntry _) fun _ =>
      .ite (.pure _) (.bind (.refuse _ _) fun _ => ih _ _)

/-- Collecting a chain makes one allocation, and it is refused just when the heap refuses it. -/
theorem collectChain_granted (hhigh : item.highFirstCluster = 0) (hfits : item.filesize ≤ intMax)
    (s : FsState) : (fat16CollectChain item s).2.heap.refusals = s.heap.refusals ↔
      Granted s.heap (chainSize s.vol) := by
  have hfree : ∀ addr (s : FsState), (kfreeAt addr s).heap.refusals = s.heap.refusals :=
    fun _ _ => rfl
  unfold fat16CollectChain
  rw [Prog.bind_ok (Prog.look_apply _ s), Prog.refuse_of_not (not_not.mpr hhigh), pure_bind,
    Prog.refuse_of_not (Nat.not_lt.mpr hfits), pure_bind,
    Prog.Keeps.after (f := fun s : FsState => s.heap.refusals)]
  · -- the allocation itself
    by_cases hcap : 0 < s.vol.maxWritable - 1
    · rw [if_pos hcap, kzalloc_heap, chainSize, if_pos hcap]
      exact kmalloc_granted (by omega)
    · rw [if_neg hcap]
      exact iff_of_true rfl (Or.inl (if_neg hcap))
  · intro addr
    refine .undo (.bind ?_ fun _ => .bind (.refuse _ _) fun _ => .pure _) (hfree addr)
    exact .ite (.pure _) ((keeps_collectLoop _ _ _ _).read KHeap.refusals)

/-- Of a write only the list of the chain can be refused. -/
theorem writeRest_granted (hb : 0 < clusterBytes s.vol) {d : FatFileDescriptor} (data : Bytes)
    (hstart : writeStart d item ≤ item.filesize) (hsize : writeStart d item + count ≤ intMax)
    (hhigh : item.highFirstCluster = 0) (hfits : item.filesize ≤ intMax) :
    (writeRest s.vol desc d item data count s).2.heap.refusals = s.heap.refusals ↔
      Granted s.heap (chainSize s.vol) := by
  rw [← collectChain_granted hhigh hfits]
  unfold writeStart at hstart hsize
  unfold writeRest
  rw [Prog.refuse_of_not (Nat.not_lt.mpr hstart), pure_bind, Prog.refuse_of_not (by omega),
    pure_bind, Prog.Keeps.after (f := fun s : FsState => s.heap.refusals)]
  rintro ⟨old, addr⟩
  refine .finish (.bind (.refuse _ _) fun _ => .bind ((keeps_allocate _ _).read KHeap.refusals)
    fun _ =>
    .bind ?_ fun _ => .bind (.change fun _ => rfl) fun _ => .pure _) fun _ => rfl
  rw [storeBytes_eq hb]
  exact fun s1 => Prog.ends_iff.mpr (congrArg KHeap.refusals (runPhases_heap _ s1))

/-! ## The checks -/

theorem prepareOf_ok {n : Nat} {img : Bytes} :
    prepareOf v (.ok n) img = .ok () ↔ v.mutationDisabled = false ∧
      (v.writeReady = true ∨ AcceptedGeometry v n ∧ FatsEqual v.header img) := by
  unfold prepareOf
  cases hd : v.mutationDisabled with
  | true => simp
  | false =>
    cases hw : v.writeReady with
    | true => exact iff_of_true rfl ⟨rfl, Or.inl rfl⟩
    | false =>
      change (if ¬ AcceptedGeometry v n then Except.error Errno.eio
        else compareOf v.header img (sectorsPerFat v.header) 0) = .ok () ↔ _
      rw [except_guard_ok, not_not, compareOf_all]
      simp

/-- What a volume is after the check, whether the check was made before or just now. -/
theorem PreparedTo.readied {s1 : FsState} {n : Nat} (h : PreparedTo s (.ok ()) s1)
    (ht : Tidy s.dev.identify s.vol) (hid : s.dev.identify = .ok n) : s1.vol = readied s.vol n := by
  have hready := (h.ready rfl).2
  rcases h.vol with he | ⟨m, b, hm, -, -, he⟩
  · rw [he] at hready ⊢
    obtain ⟨m, hm, hfit⟩ := ht.ready hready
    obtain rfl : m = n := Except.ok.inj (hm.symm.trans hid)
    rw [Fat.readied, ← hfit.max_eq, ← hready]
  · obtain rfl : m = n := Except.ok.inj (hm.symm.trans hid)
    rw [he] at hready ⊢
    obtain rfl : b = true := hready
    rfl

theorem clustersFor_mono (hb : 0 < clusterBytes v) {a b : Nat} (h : a ≤ b) :
    clustersFor v a ≤ clustersFor v b := by
  rw [clustersFor_eq hb, clustersFor_eq hb]
  exact Nat.div_le_div_right (by omega)

theorem WriteTarget.item_eq {d : FatFileDescriptor} {item' : DirItem}
    (h : WriteTarget v desc d item) (h' : WriteTarget v desc d item') : item = item' := by
  obtain ⟨addr, hnode⟩ := h.file
  obtain ⟨addr', hnode'⟩ := h'.file
  rw [hnode] at hnode'
  exact (FatNode.file.inj hnode').2

namespace Admitted

variable {s : FsState} {desc count n : Nat} {d : FatFileDescriptor} {item : DirItem}
  {old : List Nat}

section

variable (h : Admitted s desc count d item n old)
include h

theorem chain_ok : chainOf (readied s.vol n) s.dev.image item = .ok old :=
  (chainOf_ok_iff item old).mpr ⟨h.high, h.fits, h.chain, Nat.le_of_eq h.exact.symm⟩

/-- A call is admitted in one way only. -/
theorem unique {d' : FatFileDescriptor} {item' : DirItem} {n' : Nat} {old' : List Nat}
    (h' : Admitted s desc count d' item' n' old') :
    d' = d ∧ item' = item ∧ n' = n ∧ old' = old := by
  obtain rfl : d' = d := Option.some.inj (h'.target.found.symm.trans h.target.found)
  obtain rfl : n' = n := Except.ok.inj (h'.drive.symm.trans h.drive)
  obtain rfl : item' = item := h'.target.item_eq h.target
  exact ⟨rfl, rfl, rfl, Except.ok.inj (h'.chain_ok.symm.trans h.chain_ok)⟩

/-- An admitted call has a plan. -/
theorem plan (hf : Fitted (readied s.vol n) n) (data : Bytes) :
    ∃ phases, writePlan (readied s.vol n) s.dev.image d item data count = .ok (phases, count) := by
  have hold : old.length ≤ clustersFor s.vol (sizeAfter item (writeStart d item + count)) := by
    rw [h.exact]
    refine clustersFor_mono hf.clusterBytes_pos ?_
    unfold sizeAfter
    split <;> omega
  have hroom := h.room
  have hstart := h.start
  have hsize := h.size
  have halloc := allocOf_eq hf h.chain hold
  rw [if_pos (by omega)] at halloc
  generalize (freeClusters (readied s.vol n) s.dev.image).take _ = fresh at halloc
  refine ⟨writePhases (readied s.vol n) item d.item.entryPos old fresh (writeStart d item)
    data count (sizeAfter item (writeStart d item + count)), ?_⟩
  refine except_guard_ok.mpr ⟨by omega, except_guard_ok.mpr ⟨by omega, ?_⟩⟩
  refine except_bind_ok.mpr ⟨old, h.chain_ok, except_guard_ok.mpr ⟨not_not.mpr h.exact, ?_⟩⟩
  exact except_bind_ok.mpr ⟨fresh, halloc, rfl⟩

end

end Admitted

/-- How a write ends on a drive without faults: turned away with nothing done, or with the phases
of its plan run on the checked volume. -/
theorem write_ends {data : Bytes} {r : Except Errno Nat} (ht : Tidy s.dev.identify s.vol)
    (hdone : Faultless s) (h : WriteCourse desc data count s r s') :
    (s'.dev.image = s.dev.image ∧ s'.vol.descriptors = s.vol.descriptors ∧
      ∀ d item n old, ¬ Admitted s desc count d item n old) ∨
    ∃ d item n old s1, Admitted s desc count d item n old ∧ Fitted (readied s.vol n) n ∧
      PreparedTo s (.ok ()) s1 ∧ s1.vol = readied s.vol n ∧
      Ran (.val 0) (setPos desc (writeStart d item + count))
        (writePlan (readied s.vol n) s.dev.image d item data count) s1 r s' := by
  cases h with
  | untargeted hno _ hs =>
    subst hs
    exact Or.inl ⟨rfl, rfl, fun d item _ _ ha => hno d item ha.target⟩
  | nothing _ h0 _ hs =>
    subst hs
    exact Or.inl ⟨rfl, rfl, fun _ _ _ _ ha => absurd ha.some (by omega)⟩
  | unprepared _ _ hp _ =>
    refine Or.inl ⟨hp.image, hp.vol.same.1, fun d item n old ha => ?_⟩
    rcases hp.outcome with ⟨-, hr⟩ | ⟨htrouble, -⟩
    · rw [ha.drive, prepareOf_ok.mpr ⟨ha.enabled, ha.volume⟩] at hr
      cases hr
    · cases htrouble with
      | heap _ hlt =>
        rw [hp.heap] at hlt
        exact Nat.lt_irrefl _ hlt
      | read _ i _ hi => exact hi (hdone i)
  | @acted d item htarget h0 s1 n hp hid hfit hact hrun =>
    have hdrive : s.dev.identify = .ok n := hp.still.same.identify.symm.trans hid
    have hvol := hp.readied ht hdrive
    rw [hvol] at hfit hrun hact
    rw [hp.image] at hact
    have hgrant : writeStart d item ≤ item.filesize → writeStart d item + count ≤ intMax →
        item.highFirstCluster = 0 → item.filesize ≤ intMax →
        (s'.heap.refusals = s1.heap.refusals ↔ Granted s.heap (chainSize (readied s.vol n))) := by
      intro hstart hsize hhigh hfits
      have hg : (writeRest s1.vol desc d item data count s1).2.heap.refusals = s1.heap.refusals ↔
        _ :=
        writeRest_granted (by rw [hvol]; exact hfit.clusterBytes_pos) data hstart hsize hhigh hfits
      rw [hvol, hrun] at hg
      rw [← hp.heap]
      exact hg
    rcases hact.outcome with ⟨hsame, himg, hstop⟩ | hran
    · refine Or.inl ⟨himg.trans hp.image, by rw [hsame, hp.vol.same.1], fun d' item' n' old ha =>
        ?_⟩
      obtain rfl : d' = d := Option.some.inj (ha.target.found.symm.trans htarget.found)
      obtain rfl : item' = item := ha.target.item_eq htarget
      obtain rfl : n' = n := Except.ok.inj (ha.drive.symm.trans hdrive)
      rcases hstop with ⟨-, e, -, hplan⟩ | ⟨htrouble, -⟩
      · obtain ⟨phases, hok⟩ := ha.plan hfit data
        rw [hok] at hplan
        cases hplan
      · cases htrouble with
        | heap _ hlt =>
          have hkept := (hgrant ha.start ha.size ha.high ha.fits).mpr ha.memory
          omega
        | read _ i _ hi => exact hi (hdone.of_same hp.still.same i)
    · obtain ⟨href, phases, b, r0, v1, hplan, -⟩ := id hran
      obtain ⟨-, hstart, hsize, old, fresh, hold, hexact, halloc, -⟩ := writePlan_ok hplan
      obtain ⟨hhigh, hfits, hchain, -⟩ := (chainOf_ok_iff item old).mp hold
      obtain ⟨-, hlen, htake⟩ := (allocOf_ok_iff _ _ _).mp halloc
      have hprep : prepareOf s.vol (.ok n) s.dev.image = .ok () := by
        rcases hp.outcome with ⟨-, hr⟩ | ⟨-, e, hr⟩
        · rw [← hdrive]
          exact hr.symm
        · cases hr
      obtain ⟨henabled, hvolume⟩ := prepareOf_ok.mp hprep
      refine Or.inr ⟨d, item, n, old, s1, ⟨htarget, h0, henabled, hdrive, hvolume, hstart, hsize,
        hhigh, hfits,
        (hgrant hstart hsize hhigh hfits).mp href, hchain, hexact, ?_⟩, hfit, hp, hvol, hran⟩
      have hfresh : fresh.length ≤ (freeClusters (readied s.vol n) s.dev.image).length := by
        rw [htake]
        exact List.length_take_le' _ _
      change clustersFor (readied s.vol n) _ ≤ _
      omega

/-! ## Up to the entry -/

/-- What a write does before it stores the entry. -/
def bytesPhases (v : FatPrivate) (old fresh : List Nat) (start : Nat) (data : Bytes) (count : Nat) :
    List Phase :=
  .plain (zeroStores v fresh ++ dataStores v (old ++ fresh) data count start count 0) ::
    extendPhases v old fresh

section

variable {v : FatPrivate} {img : Bytes} {n : Nat} {old fresh : List Nat} {start count size : Nat}
  (data : Bytes)

theorem writePhases_split (item : DirItem) (entryPos size : Nat) :
    writePhases v item entryPos old fresh start data count size =
      bytesPhases v old fresh start data count ++
        [commitPhase entryPos (rewritten item ((old ++ fresh).headD 0) size)] := rfl

theorem bytesPhases_bound (hf : Fitted v n) (hw : ∀ c ∈ old ++ fresh, Writable v c)
    (hlen : (old ++ fresh).length = clustersFor v size) (hsize : start + count ≤ size) :
    ∀ ph ∈ bytesPhases v old fresh start data count, ∀ st ∈ ph.stores,
      st.pos + st.len ≤ n * sectorSize := by
  intro ph hph st hst
  rcases List.mem_cons.mp hph with rfl | hph
  · rcases List.mem_append.mp hst with hst | hst
    · exact (zeroStores_bound hf (fun c hc => hw c (List.mem_append_right _ hc)) st hst).1
    · exact (dataStores_bound hf hw hlen hsize st hst).1
  · obtain ⟨copy, stores, hcopy, rfl, hstores⟩ := extend_stores ph hph
    obtain ⟨c, hc, value, rfl⟩ := hstores st hst
    exact (fatStore_bound hf value (hw c hc).2 hcopy).1

theorem bytesPhases_vol (w : FatPrivate) : afterPhases (bytesPhases v old fresh start data count)
    w = w :=
  afterPhases_extend old fresh w

theorem bytesPhases_apply : applyPhases (bytesPhases v old fresh start data count) img =
    applyPhases (extendPhases v old fresh)
      (applyStores (zeroStores v fresh ++ dataStores v (old ++ fresh) data count start count 0)
        img) := rfl

theorem bytesPhases_old : applyPhases (bytesPhases v old [] start data count) img =
    applyStores (dataStores v old data count start count 0) img := by
  rw [bytesPhases_apply, List.append_nil]
  rfl

/-- The phases before the entry leave the disk as it is just when they link no cluster and write
the bytes that are there. -/
theorem bytesPhases_same (hf : Fitted v n) (hn : (old ++ fresh).Nodup)
    (hw : ∀ c ∈ old ++ fresh, Writable v c)
    (hl : Linked v img 0 old) (hfree : ∀ c ∈ fresh, FreeCluster v img c)
    (hin : ∀ q, q < start + count → q / clusterBytes v < (old ++ fresh).length) :
    applyPhases (bytesPhases v old fresh start data count) img = img ↔
      fresh = [] ∧ ∀ i, i < count → data i = img (chainPlace v old (start + i)) := by
  have hb := hf.clusterBytes_pos
  constructor
  · intro hsame
    have hnone : fresh = [] := by
      cases fresh with
      | nil => rfl
      | cons c rest =>
        -- the entry of a new cluster was 0 and is part of a chain now
        have hbytes : Linked v (applyStores (zeroStores v (c :: rest) ++
            dataStores v (old ++ c :: rest) data count start count 0) img) 0 old :=
          hl.congr fun e he =>
            fatAt_behind hf (hw e (List.mem_append_left _ he)).1.2.1 (bytes_behind hf _ _ _ _ _ _ _)
        have hlinked := extend_linked hf hn hw hbytes
        rw [← bytesPhases_apply, hsame] at hlinked
        have hc : c ∈ old ++ c :: rest := List.mem_append_right _ List.mem_cons_self
        exact absurd (hfree c List.mem_cons_self).1 (hlinked.entry_ne (fun e he => (hw e he).1) c
          hc)
    subst hnone
    refine ⟨rfl, fun i hi => ?_⟩
    have hbyte := dataStores_byte hb hn hw data count start count 0 i img le_rfl hin hi
    rw [List.append_nil, Nat.zero_add] at hbyte
    rw [← hbyte, ← bytesPhases_old, hsame]
  · rintro ⟨rfl, hdata⟩
    rw [List.append_nil] at hn hw hin
    rw [bytesPhases_old]
    funext p
    by_cases hp : ∃ i, i < count ∧ p = chainPlace v old (start + i)
    · obtain ⟨i, hi, rfl⟩ := hp
      rw [dataStores_byte hb hn hw data count start count 0 i img le_rfl hin hi, Nat.zero_add,
        hdata i hi]
    · refine dataStores_outside hb fun q h1 h2 he => hp ⟨q - start, by omega, ?_⟩
      rw [he]
      congr 1
      omega

/-- Only the entry can be refused, and by then the rest is done. -/
theorem write_refused (hf : Fitted v n) (hw : ∀ c ∈ old ++ fresh, Writable v c)
    (hlen : (old ++ fresh).length = clustersFor v size) (hsize : start + count ≤ size)
    {entryPos : Nat} {e : Errno} (hdone : Faultless s) (hid : s.dev.identify = .ok n)
    (h : RanPhases (writePhases v item entryPos old fresh start data count size) s (.error e) s') :
    n * sectorSize < entryPos + 32 ∧ s'.vol = s.vol ∧
      s'.dev.image = applyPhases (bytesPhases v old fresh start data count) s.dev.image := by
  have hbound := bytesPhases_bound data hf hw hlen hsize
  have hvol : afterPhases (bytesPhases v old fresh start data count) s.vol = s.vol :=
    bytesPhases_vol data s.vol
  rw [writePhases_split] at h
  generalize bytesPhases v old fresh start data count = front at *
  rcases h.outcome with ⟨hr, -⟩ | ⟨-, k, -, hf⟩ | ⟨-, k, st, hst, hk, hcap, hv, himg, -⟩
  · cases hr
  · obtain ⟨i, hi⟩ := hf.fate
    exact absurd (hdone i) hi
  · have hout := hcap n hid
    rcases Nat.lt_or_ge k front.length with hlt | hge
    · have hone : front[k].stores = [st] := by
        rw [phaseStores, List.getElem?_append_left hlt, List.getElem?_eq_getElem hlt] at hst
        exact hst
      have hmem : st ∈ front[k].stores := hone ▸ List.mem_singleton_self st
      have hin := hbound _ (List.getElem_mem hlt) st hmem
      omega
    · rw [List.length_append, List.length_singleton] at hk
      obtain rfl : k = front.length := by omega
      rw [List.take_left] at hv himg
      refine ⟨?_, hv.trans hvol, himg⟩
      rw [phaseStores, List.getElem?_append_right le_rfl, Nat.sub_self] at hst
      obtain rfl := List.head_eq_of_cons_eq hst
      exact hout

end

/-! ## Refused writes -/

/-- The entry of the file lies behind the drive, and before it comes something that shows: a new
cluster, or a byte that is another one now. -/
def Exposed (s : FsState) (data : Bytes) (count : Nat) (d : FatFileDescriptor)
    (item : DirItem) (n : Nat) (old : List Nat) : Prop :=
  n ≤ d.item.entryPos / sectorSize ∧
    (clustersFor s.vol (sizeAfter item (writeStart d item + count)) ≠ old.length ∨
      ∃ i, i < count ∧ data i ≠ s.dev.image (chainPlace s.vol old (writeStart d item + i)))

/-- A refused write has changed something just when its checks passed and its entry lies behind the
drive. -/
theorem write_undone_iff {data : Bytes} {r : Except Errno Nat} (ht : Tidy s.dev.identify s.vol)
    (hdone : Faultless s) (h : WriteCourse desc data count s r s') :
    (∀ e, r = .error e → s'.dev.image = s.dev.image ∧ s'.vol.descriptors = s.vol.descriptors) ↔
      ∀ d item n old, Admitted s desc count d item n old → ¬ Exposed s data count d item n old := by
  rcases write_ends ht hdone h with ⟨himg, hdesc, hno⟩ |
    ⟨d, item, n, old, s1, ha, hf, hp, hvol, hran⟩
  · exact iff_of_true (fun _ _ => ⟨himg, hdesc⟩) fun d item n old ha => absurd ha (hno d item n old)
  obtain ⟨-, phases, b, r0, v1, hplan, hphases, hend⟩ := hran
  obtain ⟨rfl, -, -, old', fresh, hold, -, halloc, rfl⟩ := writePlan_ok hplan
  obtain rfl : old' = old := Except.ok.inj (hold.symm.trans ha.chain_ok)
  obtain ⟨hfree, hn, hw⟩ := alloc_apart hold hf halloc
  obtain ⟨-, hlen, -⟩ := (allocOf_ok_iff _ _ _).mp halloc
  rw [← List.length_append] at hlen
  have hid : s1.dev.identify = .ok n := hp.still.same.identify.trans ha.drive
  have halign := (ht.descriptors d (findDescriptor_mem ha.target.found).1
    ha.target.mode).1.place.aligned
  have hcover := le_sizeAfter item (writeStart d item + b)
  have hsame := bytesPhases_same data hf hn hw ha.chain.linked hfree fun q hq =>
    hlen ▸ lt_clustersFor _ (hq.trans_le hcover)
  have hnone : clustersFor s.vol (sizeAfter item (writeStart d item + b)) = old'.length ↔
      fresh = [] := by
    rw [List.length_append] at hlen
    change clustersFor (readied s.vol n) _ = _ ↔ _
    rw [← List.length_eq_zero_iff]
    omega
  rcases hend with ⟨rfl, hok, -⟩ | ⟨e, rfl, hr, hsvol⟩
  · -- every store went through, so the entry lies below the capacity
    rw [writePhases_split] at hphases
    have hentry : d.item.entryPos + 32 ≤ n * sectorSize := hphases.within rfl _
      (List.mem_append_right _ (List.mem_singleton_self _)) _ (List.mem_singleton_self _)
        (Nat.succ_pos 31) n hid
    refine iff_of_true (fun e he => ?_) fun d' item' n' old ha' hex => ?_
    · rw [he] at hok
      cases hok
    · obtain ⟨rfl, rfl, rfl, rfl⟩ := ha.unique ha'
      have hbehind := hex.1
      rw [sectorSize] at hbehind hentry
      omega
  · obtain ⟨hbehind, hkept, himg⟩ :=
      write_refused data hf hw hlen hcover (hdone.of_same hp.still.same) hid hphases
    have hbytes : s'.dev.image = s.dev.image ↔ clustersFor s.vol
      (sizeAfter item (writeStart d item + b)) =
        old'.length ∧ ∀ i, i < b → data i = s.dev.image
          (chainPlace s.vol old' (writeStart d item + i)) := by
      have himg' : s'.dev.image = _ := himg
      rw [himg', hp.image, hsame, hnone]
      rfl
    have hdesc : s'.vol.descriptors = s.vol.descriptors := by
      have hv1 : v1 = s1.vol := hkept
      rw [hsvol, hv1, hp.vol.same.1]
    constructor
    · rintro hun d' item' n' old ha' ⟨-, hshows⟩
      obtain ⟨rfl, rfl, rfl, rfl⟩ := ha.unique ha'
      obtain ⟨hclusters, hdata⟩ := hbytes.mp (hun e hr).1
      rcases hshows with hne | ⟨i, hi, hne⟩
      · exact hne hclusters
      · exact hne (hdata i hi)
    · intro hno _ _
      have hbehind' : n ≤ d.item.entryPos / sectorSize := by
        rw [sectorSize] at hbehind ⊢
        omega
      have hkeeps := not_and.mp (hno d item n old' ha) hbehind'
      push Not at hkeeps
      exact ⟨hbytes.mpr hkeeps, hdesc⟩

end Rorthox.Fat
