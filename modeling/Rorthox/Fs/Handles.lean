import Rorthox.Fs.Ops
import Rorthox.Lib.Table

/-!
# What opening and closing do to the tables

A descriptor of the driver and a slot of `file_descriptors` come and go together, each with
its memory. Every other file function leaves both tables and the heap's table alone.
-/

namespace Rorthox.Fs

open Lib Fat Disk Memory

/-- The driver's descriptors: the address of each and the memory of its item. -/
def slips (v : FatPrivate) : List (Nat × Multiset Nat) :=
  v.descriptors.map fun d => (d.addr, d.item.owned)

theorem slips_map {v w : FatPrivate} {f : FatFileDescriptor → FatFileDescriptor}
    (hw : w.descriptors = v.descriptors.map f)
    (hf : ∀ d, (f d).addr = d.addr ∧ (f d).item.owned = d.item.owned) : slips w = slips v := by
  unfold slips
  rw [hw, List.map_map]
  refine List.map_congr_left fun d _ => ?_
  exact Prod.ext (hf d).1 (hf d).2

theorem slips_publish (pos : Nat) (item : DirItem) (v : FatPrivate) :
    slips (fat16Publish pos item v) = slips v := by
  refine slips_map (publish_descriptors pos item v) fun d => ?_
  unfold publishDescriptor
  split
  · rename_i addr entry hnode
    split
    · refine ⟨rfl, ?_⟩
      simp only [FatItem.owned, hnode]
    · exact ⟨rfl, rfl⟩
  · exact ⟨rfl, rfl⟩

theorem slips_after (phases : List Phase) {v : FatPrivate} (hp : ∀ ph ∈ phases, ph.Publishes) :
    slips (afterPhases phases v) = slips v :=
  afterPhases_keep (M := fun w => slips w = slips v) phases
    (fun pos item w h => (slips_publish pos item w).trans h) rfl hp

theorem slips_setPos (desc pos : Nat) (v : FatPrivate) : slips (setPos desc pos v) = slips v := by
  refine slips_map rfl fun d => ?_
  split <;> exact ⟨rfl, rfl⟩

/-- From `s` to `s'` the memory `loss` was given back and `gain` taken. -/
def Trades (loss gain : Multiset Nat) (s s' : FsState) : Prop :=
  ∀ base m, Owns base (loss + m) s.heap → Owns base (gain + m) s'.heap

theorem Trades.refl (s : FsState) : Trades 0 0 s s := fun _ _ h => h

variable {s s' s'' s1 s2 : FsState} {mode : FileMode} {r : Except Errno Nat}
  {own a b q : Multiset Nat} {desc i count : Nat} {f : FsState → FsState}
  {l : List (Nat × Multiset Nat)} {path : List (List UInt8)} {filename : List UInt8}
  {d : FileDescriptor}

theorem Trades.trans {c : Multiset Nat} (h : Trades a b s s') (h' : Trades b c s' s'') :
    Trades a c s s'' := fun base m ho => h' base m (h base m ho)

theorem Trades.frame (h : Trades a b s s') (q : Multiset Nat) : Trades (a + q) (b + q) s s' := by
  intro base m ho
  rw [add_assoc] at ho ⊢
  exact h base (q + m) ho

/-- Neither table changed and no memory was taken or given back. -/
structure Neutral (s s' : FsState) : Prop where
  files : s'.files = s.files
  slips : slips s'.vol = slips s.vol
  heap : Trades 0 0 s s'

theorem Neutral.refl (s : FsState) : Neutral s s := ⟨rfl, rfl, .refl s⟩

theorem Neutral.trans (h : Neutral s s') (h' : Neutral s' s'') : Neutral s s'' :=
  ⟨h'.files.trans h.files, h'.slips.trans h.slips, h.heap.trans h'.heap⟩

theorem trades_frees (h : Frees q f) (s : FsState) : Trades q 0 s (f s) := by
  intro base m ho
  rw [zero_add]
  exact (h s).2.2.2.2.2 base m ho

theorem neutral_prepared {r : Except Errno Unit} (h : PreparedTo s r s') : Neutral s s' := by
  refine ⟨h.still.files, ?_, fun base m ho => ?_⟩
  · unfold Fs.slips
    rw [h.vol.same.1]
  · rw [h.heap]
    exact ho

theorem slips_acts {α β : Type} {held err : Multiset Nat} {sh : Shape α β}
    {post : FatPrivate → FatPrivate} {plan : Except Errno (List Phase × β)} {r : Except Errno α}
    (h : ActsTo held err sh post plan s r s')
    (hplan : ∀ phases b, plan = .ok (phases, b) → ∀ ph ∈ phases, ph.Publishes)
    (hpost : ∀ w, slips (post w) = slips w) : slips s'.vol = slips s.vol := by
  rcases h.ends hplan with ⟨phases, b, hp, -, hv, -⟩ | ⟨-, phases, -, hpub, hv | hv⟩
  · rw [hv, hpost]
    exact slips_after phases (hplan phases b hp)
  · rw [hv]
    exact slips_after phases hpub
  · rw [hv]
    exact slips_after phases hpub

/-- All the memory of the driver's descriptors. -/
def slipMemory (l : List (Nat × Multiset Nat)) : Multiset Nat :=
  (l.map fun p => {p.1} + p.2).sum

theorem slipMemory_cons (p : Nat × Multiset Nat) (l : List (Nat × Multiset Nat)) :
    slipMemory (p :: l) = {p.1} + p.2 + slipMemory l := rfl

theorem mem_slipMemory {p : Nat × Multiset Nat} (h : p ∈ l) : p.1 ∈ slipMemory l := by
  induction l with
  | nil => cases h
  | cons q l ih =>
    rw [slipMemory_cons]
    rcases List.mem_cons.mp h with rfl | h
    · simp
    · exact Multiset.mem_add.mpr (Or.inr (ih h))

theorem slips_nodup (h : (slipMemory l).Nodup) : (l.map Prod.fst).Nodup := by
  induction l with
  | nil => exact List.nodup_nil
  | cons p l ih =>
    rw [slipMemory_cons, add_assoc, Multiset.singleton_add, Multiset.nodup_cons] at h
    refine List.nodup_cons.mpr ⟨fun hmem => ?_, ih ?_⟩
    · obtain ⟨q, hq, he⟩ := List.mem_map.mp hmem
      exact h.1 (Multiset.mem_add.mpr (Or.inr (he ▸ mem_slipMemory hq)))
    · exact (Multiset.nodup_add.mp h.2).2.1

/-- The memory of the driver's descriptors is allocated, each piece once. -/
def Accounted (s : FsState) : Prop := ∃ base m, Owns base (slipMemory (slips s.vol) + m) s.heap

theorem Accounted.nodup (h : Accounted s) : ((slips s.vol).map Prod.fst).Nodup := by
  obtain ⟨base, m, ho⟩ := h
  exact slips_nodup (Multiset.nodup_add.mp ho.nodup).1

/-! ## The driver -/

/-- An open of the driver: a new descriptor at the head of the list, or nothing. -/
inductive DriverOpened (s : FsState) (r : Except Errno Nat) (s' : FsState) : Prop where
  | refused {e : Errno} (hr : r = .error e) (h : Neutral s s')
  | opened (priv : Nat) (own : Multiset Nat) (hr : r = .ok priv) (hfiles : s'.files = s.files)
      (hslips : slips s'.vol = (priv, own) :: slips s.vol)
      (hheap : Trades 0 ({priv} + own) s s')

theorem DriverOpened.ok {priv : Nat} (h : DriverOpened s (.ok priv) s') :
    ∃ own, s'.files = s.files ∧ slips s'.vol = (priv, own) :: slips s.vol ∧
      Trades 0 ({priv} + own) s s' := by
  cases h with
  | refused hr => cases hr
  | opened _ own hr hfiles hslips hheap =>
    obtain rfl := Except.ok.inj hr
    exact ⟨own, hfiles, hslips, hheap⟩

theorem publish_opened {r0 : Except Errno (Nat × FatItem)}
    (hend : (r, s') = publishOpened mode r0 s1) (hfiles : s1.files = s.files)
    (hslips : slips s1.vol = slips s.vol) (hheap : Trades 0 (Shape.opened.owned 0 r0) s s1) :
    DriverOpened s r s' := by
  cases r0 with
  | error e =>
    obtain ⟨hr, rfl⟩ : r = .error e ∧ s' = s1 := Prod.ext_iff.mp hend
    exact .refused hr ⟨hfiles, hslips, hheap⟩
  | ok p =>
    obtain ⟨hr, rfl⟩ : r = .ok p.1 ∧ s' = onVol (addDescriptor mode p) s1 := Prod.ext_iff.mp hend
    refine .opened p.1 p.2.owned hr hfiles ?_ hheap
    show (p.1, p.2.owned) :: slips s1.vol = _
    rw [hslips]

theorem open_effect (h : OpenCourse path mode s r s') : DriverOpened s r s' := by
  cases h with
  | invalid _ hr hs => exact .refused hr (hs ▸ .refl s)
  | looked _ hread hend =>
    exact publish_opened hend hread.quiet.files (by rw [hread.quiet.vol]) hread.heap
  | unprepared _ hp hr => exact .refused hr (neutral_prepared hp)
  | acted hm _ hp _ _ hact hend =>
    have hn := neutral_prepared hp
    refine publish_opened hend (hact.still.files.trans hn.files) ?_ (hn.heap.trans hact.heap)
    exact (slips_acts hact (fun phases b h => openPlan_publish hm h) fun _ => rfl).trans hn.slips

/-- Closing takes the descriptor out of the list and gives its memory back. -/
theorem close_effect {priv : Nat} (hmem : (priv, own) ∈ slips s.vol)
    (hnodup : ((slips s.vol).map Prod.fst).Nodup) : (fat16Close priv s).files = s.files ∧
      slips (fat16Close priv s).vol = (slips s.vol).filter (fun p => p.1 ≠ priv) ∧
      Trades ({priv} + own) 0 s (fat16Close priv s) := by
  obtain ⟨d, hd, hpair⟩ := List.mem_map.mp hmem
  obtain ⟨haddr, hown⟩ := Prod.mk.inj hpair
  have hfind : findDescriptor s.vol priv = some d := by
    obtain ⟨d', hd'⟩ : ∃ d', findDescriptor s.vol priv = some d' := by
      cases hf : findDescriptor s.vol priv with
      | some d' => exact ⟨d', rfl⟩
      | none => exact absurd haddr (by simpa using List.find?_eq_none.mp hf d hd)
    obtain ⟨hmem', haddr'⟩ := findDescriptor_mem hd'
    -- the addresses of the list are all different
    have hinj : ∀ x ∈ s.vol.descriptors, ∀ y ∈ s.vol.descriptors, x.addr = y.addr → x = y := by
      have hn : (s.vol.descriptors.map FatFileDescriptor.addr).Nodup := by
        simpa [slips, List.map_map, Function.comp_def] using hnodup
      exact fun x hx y hy he => List.inj_on_of_nodup_map hn hx hy he
    rw [hd', hinj d' hmem' d hd (haddr'.trans haddr.symm)]
  unfold fat16Close
  rw [hfind]
  dsimp only
  generalize hcut : onVol (fun v => { v with
    descriptors := v.descriptors.filter fun d => d.addr ≠ priv }) s = cut
  have hq := (frees_item d.item).quiet cut
  refine ⟨?_, ?_, ?_⟩
  · show (fat16FatItemFree d.item cut).files = _
    rw [hq.files, ← hcut]
    rfl
  · show slips (fat16FatItemFree d.item cut).vol = _
    rw [hq.vol, ← hcut]
    unfold slips
    rw [List.filter_map]
    rfl
  · have hheap : s.heap = cut.heap := by rw [← hcut]; rfl
    have hitem := (trades_frees (frees_item d.item) cut).frame {priv}
    have hdesc := trades_frees (frees_kfreeAt priv) (fat16FatItemFree d.item cut)
    intro base m ho
    rw [hheap, ← hown, add_comm ({priv} : Multiset Nat)] at ho
    exact hdesc base m (by simpa using hitem base m ho)

/-! ## The table of descriptors -/

theorem new_effect {addr : Nat} (h : NewCourse s (.ok (blankDescriptor i addr)) s') :
    freeSlot s.files maxFileDescriptors 0 = some i ∧
      s'.files = Function.update s.files i (some (blankDescriptor i addr)) ∧
      slips s'.vol = slips s.vol ∧ Trades 0 {addr} s s' := by
  cases h with
  | full _ hr _ => cases hr
  | noMemory _ _ hr _ => cases hr
  | @made j p hfree hk hr hs =>
    have hdesc : blankDescriptor i addr = blankDescriptor j p := Except.ok.inj hr
    obtain rfl : addr = p := congrArg FileDescriptor.addr hdesc
    obtain rfl : i = j := Nat.succ.inj (congrArg FileDescriptor.index hdesc)
    refine ⟨hfree, by rw [hs]; rfl, by rw [hs]; rfl, fun base m ho => ?_⟩
    rcases kmalloc_cases s.heap 16 with ⟨hnone, -⟩ | ⟨b, hv, -, hsome, hheap, hruns, -⟩
    · rw [hnone] at hk
      cases hk
    · rw [hsome] at hk
      obtain rfl := Option.some.inj hk
      rw [zero_add] at ho
      rw [Multiset.singleton_add, hs]
      exact ho.malloc hv hheap hruns

theorem new_refused {e : Errno} (h : NewCourse s (.error e) s') : Neutral s s' := by
  cases h with
  | full _ _ hs => exact hs ▸ .refl s
  | made _ _ hr _ => cases hr
  | noMemory _ hk _ hs =>
    rw [hs]
    refine ⟨rfl, rfl, fun base m ho => ?_⟩
    rcases kmalloc_cases s.heap 16 with ⟨-, hheap, -⟩ | ⟨b, -, -, hsome, -⟩
    · exact ho.of_heap hheap
    · rw [hsome] at hk
      cases hk

/-- Opening a file: one slot and one descriptor of the driver more, or nothing. -/
inductive FileOpened (s : FsState) (r : Except Errno Nat) (s' : FsState) : Prop where
  | refused {e : Errno} (hr : r = .error e) (h : Neutral s s')
  | opened (i addr priv : Nat) (own : Multiset Nat) (hr : r = .ok (i + 1))
      (hfree : freeSlot s.files maxFileDescriptors 0 = some i)
      (hfiles : s'.files = Function.update s.files i (some { addr, index := i + 1, priv }))
      (hslips : slips s'.vol = (priv, own) :: slips s.vol)
      (hheap : Trades 0 ({addr} + ({priv} + own)) s s')

theorem FileOpened.after (h : FileOpened s r s1) (hn : Neutral s1 s2) : FileOpened s r s2 := by
  cases h with
  | refused hr hn' => exact .refused hr (hn'.trans hn)
  | opened i addr priv own hr hfree hfiles hslips hheap =>
    refine .opened i addr priv own hr hfree (hn.files.trans hfiles) (hn.slips.trans hslips) ?_
    have h1 := hn.heap.frame ({addr} + ({priv} + own))
    rw [zero_add] at h1
    exact hheap.trans h1

/-- A slot that was taken and is given back. -/
theorem files_restored {files : Nat → Option FileDescriptor} (d : FileDescriptor)
    (h : freeSlot files maxFileDescriptors 0 = some i) :
    Function.update (Function.update files i (some d)) i none = files := by
  rw [Function.update_idem, ← (freeSlot_spec _ h).1, Function.update_eq_self]

theorem disk_effect (ha : Accounted s) (h : DiskCourse path mode s r s') : FileOpened s r s' := by
  cases h with
  | noDescriptor _ hnew hr => exact .refused hr (new_refused hnew)
  | @dropped _ i addr s1 s2 e hnew hopen hr hs =>
    obtain ⟨hfree, hfiles, hslips, hheap⟩ := new_effect hnew
    cases open_effect hopen with
    | opened _ _ hr' => cases hr'
    | refused _ hn =>
      rw [hs]
      refine .refused hr ⟨?_, hn.slips.trans hslips, ?_⟩
      · show Function.update s2.files (i + 1 - 1) none = _
        rw [hn.files, hfiles, Nat.add_sub_cancel, files_restored _ hfree]
      · have h1 := hheap.trans (by simpa using hn.heap.frame {addr})
        exact h1.trans (trades_frees (frees_kfreeAt addr) (setFile (i + 1 - 1) none s2))
  | @written _ i addr s1 s2 priv hnew hopen hr hs =>
    obtain ⟨hfree, hfiles, hslips, hheap⟩ := new_effect hnew
    obtain ⟨own, hfiles', hslips', hheap'⟩ := (open_effect hopen).ok
    rw [hs]
    refine .opened i addr priv own hr hfree ?_ (hslips'.trans (by rw [hslips])) ?_
    · show Function.update s2.files i _ = _
      rw [hfiles', hfiles, Function.update_idem]
    · have h1 := hheap'.frame {addr}
      rw [zero_add, add_comm _ ({addr} : Multiset Nat)] at h1
      exact hheap.trans h1
  | refused _ hopen hr =>
    cases open_effect hopen with
    | opened _ _ hr' => cases hr'
    | refused _ hn => exact .refused hr hn
  | @closed _ s1 s2 priv e hopen hnew hr hs =>
    obtain ⟨own, hfiles', hslips', hheap'⟩ := (open_effect hopen).ok
    have hn := new_refused hnew
    -- the descriptor just made is at the head of the list, and nowhere else in it
    have hslips2 : slips s2.vol = (priv, own) :: slips s.vol := hn.slips.trans hslips'
    have ha2 : Accounted s2 := by
      obtain ⟨base, m, ho⟩ := ha
      refine ⟨base, m, ?_⟩
      rw [hslips2, slipMemory_cons, add_assoc]
      have h1 := hheap' base _ (by rwa [zero_add])
      rw [← zero_add (_ + _)]
      exact hn.heap base _ (by rwa [zero_add])
    have hnodup := ha2.nodup
    obtain ⟨hcf, hcs, hch⟩ := close_effect (by rw [hslips2]; exact List.mem_cons_self) hnodup
    rw [hs]
    refine .refused hr ⟨hcf.trans (hn.files.trans hfiles'), ?_, ?_⟩
    · rw [hslips2, List.map_cons, List.nodup_cons] at hnodup
      rw [hcs, hslips2, List.filter_cons_of_neg (by simp)]
      refine List.filter_eq_self.mpr fun p hp => ?_
      exact decide_eq_true fun he => hnodup.1 (List.mem_map.mpr ⟨p, hp, he⟩)
    · have h1 := hn.heap.frame ({priv} + own)
      rw [zero_add] at h1
      exact (hheap'.trans h1).trans hch
  | @read _ i addr s1 s2 priv hopen hnew hr hs =>
    obtain ⟨hfree, hfiles, hslips, hheap⟩ := new_effect hnew
    obtain ⟨own, hfiles', hslips', hheap'⟩ := (open_effect hopen).ok
    rw [hs]
    rw [hfiles'] at hfree hfiles
    refine .opened i addr priv own hr hfree ?_ (hslips.trans hslips') ?_
    · show Function.update s2.files i _ = _
      rw [hfiles, Function.update_idem]
    · have h1 := hheap.frame ({priv} + own)
      rw [zero_add] at h1
      exact hheap'.trans h1

theorem neutral_quiet (hq : Quiet s s') (hheap : Trades 0 0 s s') : Neutral s s' :=
  ⟨hq.files, by rw [hq.vol], hheap⟩

/-- Memory that is held around an open shows nowhere. -/
theorem FileOpened.around (hq : Quiet s s1) (hheap : Trades 0 q s s1) (h : FileOpened s1 r s2)
    (hf : Frees q f) : FileOpened s r (f s2) := by
  have hend := hf.quiet s2
  have hback := trades_frees hf s2
  cases h with
  | refused hr hn =>
    refine .refused hr ⟨hend.files.trans (hn.files.trans hq.files), ?_, ?_⟩
    · rw [hend.vol, hn.slips, hq.vol]
    · have h1 := hn.heap.frame q
      rw [zero_add] at h1
      exact (hheap.trans h1).trans hback
  | opened i addr priv own hr hfree hfiles hslips hopen =>
    rw [hq.files] at hfree hfiles
    refine .opened i addr priv own hr hfree (hend.files.trans hfiles) ?_ ?_
    · rw [hend.vol, hslips, hq.vol]
    · have h1 := hopen.frame q
      have h2 := hback.frame ({addr} + ({priv} + own))
      rw [zero_add] at h1 h2
      rw [add_comm q] at h2
      exact (hheap.trans h1).trans h2

theorem fopen_effect (ha : Accounted s) (h : FopenCourse filename mode s r s') :
    FileOpened s r s' := by
  cases h with
  | badPath _ _ hr hs => exact .refused hr (hs ▸ .refl s)
  | unparsed hparse hr => exact .refused hr (neutral_quiet hparse.quiet hparse.heap)
  | @stopped root s1 e hparse _ hr hs =>
    rw [hs]
    have hheap : Trades 0 (root.owned + 0) s s1 := hparse.heap
    rw [add_zero] at hheap
    exact .refused hr (neutral_quiet (hparse.quiet.trans ((frees_root root).quiet s1))
      (hheap.trans (trades_frees (frees_root root) s1)))
  | @went root s1 s2 hparse _ _ hdisk hs =>
    have hheap : Trades 0 root.owned s s1 := by
      have h1 : Trades 0 (root.owned + 0) s s1 := hparse.heap
      rwa [add_zero] at h1
    have ha1 : Accounted s1 := by
      obtain ⟨base, m, ho⟩ := ha
      refine ⟨base, root.owned + m, ?_⟩
      have h1 := hheap base _ (by rwa [zero_add])
      rw [hparse.quiet.vol, add_left_comm]
      exact h1
    rw [hs]
    exact (disk_effect ha1 hdisk).around hparse.quiet hheap (frees_root root)

theorem getDescriptor_slot (hi : i < maxFileDescriptors) :
    fileGetDescriptor s ((i + 1 : Nat) : Int) = s.files i := by
  unfold fileGetDescriptor
  rw [if_neg (by omega)]
  rfl

/-- Closing a descriptor empties its slot and drops its descriptor of the driver. -/
structure FileClosed (s : FsState) (i : Nat) (d : FileDescriptor) (own : Multiset Nat)
    (s' : FsState) : Prop where
  files : s'.files = Function.update s.files i none
  slips : slips s'.vol = (slips s.vol).filter fun p => p.1 ≠ d.priv
  heap : Trades ({d.addr} + ({d.priv} + own)) 0 s s'

theorem fclose_effect (hi : i < maxFileDescriptors) (hd : s.files i = some d)
    (hindex : d.index = i + 1) (hmem : (d.priv, own) ∈ slips s.vol) (ha : Accounted s) :
    (fclose ((i + 1 : Nat) : Int) s).1 = .ok () ∧
      FileClosed s i d own (fclose ((i + 1 : Nat) : Int) s).2 := by
  obtain ⟨hfiles, hslips, hheap⟩ := close_effect hmem ha.nodup
  unfold fclose
  rw [getDescriptor_slot hi, hd]
  refine ⟨rfl, ?_, hslips, ?_⟩
  · show Function.update (fat16Close d.priv s).files (d.index - 1) none = _
    rw [hfiles, hindex, Nat.add_sub_cancel]
  · have h1 := hheap.frame {d.addr}
    rw [zero_add, add_comm _ ({d.addr} : Multiset Nat)] at h1
    exact h1.trans (trades_frees (frees_kfreeAt d.addr)
      (setFile (d.index - 1) none (fat16Close d.priv s)))

/-- Opening and closing again leaves no trace. -/
theorem opened_closed (ha : Accounted s) (h : FileOpened s (.ok (i + 1)) s1) :
    Neutral s (fclose ((i + 1 : Nat) : Int) s1).2 := by
  cases h with
  | refused hr => cases hr
  | opened j addr priv own hr hfree hfiles hslips hheap =>
    obtain rfl : i = j := Nat.succ.inj (Except.ok.inj hr)
    have ha1 : Accounted s1 := by
      obtain ⟨base, m, ho⟩ := ha
      refine ⟨base, {addr} + m, ?_⟩
      have h1 := hheap base _ (by rwa [zero_add])
      rw [hslips, slipMemory_cons]
      convert h1 using 1
      simp only [add_assoc, add_left_comm]
    have hi := (freeSlot_spec _ hfree).2.2.1
    rw [Nat.zero_add] at hi
    have hslot : s1.files i = some { addr, index := i + 1, priv } := by
      rw [hfiles, Function.update_self]
    have hmem : (priv, own) ∈ slips s1.vol := by rw [hslips]; exact List.mem_cons_self
    obtain ⟨-, hc⟩ := fclose_effect hi hslot rfl hmem ha1
    have hnodup := ha1.nodup
    rw [hslips, List.map_cons, List.nodup_cons] at hnodup
    refine ⟨?_, ?_, hheap.trans hc.heap⟩
    · rw [hc.files, hfiles, files_restored _ hfree]
    · rw [hc.slips, hslips, List.filter_cons_of_neg (by simp)]
      exact List.filter_eq_self.mpr fun p hp =>
        decide_eq_true fun he => hnodup.1 (List.mem_map.mpr ⟨p, hp, he⟩)

theorem fileOpen_effect (ha : Accounted s) (h : FileOpenCourse filename mode s r s') :
    FileOpened s r s' := by
  cases h with
  | bad _ hr hs => exact .refused hr (hs ▸ .refl s)
  | failed _ hopen hr => exact hr ▸ fopen_effect ha hopen
  | opened _ hopen _ hr => exact hr ▸ fopen_effect ha hopen
  | closed _ hopen _ hr hs =>
    have h1 := fopen_effect ha hopen
    rw [hs]
    cases h1 with
    | refused hr' => cases hr'
    | opened i addr priv own hr' hfree hfiles hslips hheap =>
      obtain rfl := Except.ok.inj hr'
      exact .refused hr (opened_closed ha (.opened i addr priv own rfl hfree hfiles hslips hheap))

/-- The slots of `S` were closed, and no others. -/
structure Emptied (S : Nat → Prop) (s s' : FsState) : Prop where
  gone : ∀ j, S j → s'.files j = none
  kept : ∀ j, ¬ S j → s'.files j = s.files j
  privates : ∀ a, a ∈ (slips s'.vol).map Prod.fst ↔ a ∈ (slips s.vol).map Prod.fst ∧
    ¬ ∃ j d, S j ∧ s.files j = some d ∧ d.priv = a

theorem Emptied.of_neutral (h : Neutral s s') : Emptied (fun _ => False) s s' := by
  refine ⟨fun _ h => h.elim, fun j _ => by rw [h.files], fun a => ?_⟩
  rw [h.slips]
  simp

theorem Emptied.trans {S S' : Nat → Prop} (h : Emptied S s s') (h' : Emptied S' s' s'') :
    Emptied (fun j => S j ∨ S' j) s s'' := by
  refine ⟨fun j hj => ?_, fun j hj => ?_, fun a => ?_⟩
  · by_cases hS' : S' j
    · exact h'.gone j hS'
    · rw [h'.kept j hS']
      exact h.gone j (hj.resolve_right hS')
  · rw [h'.kept j fun hS' => hj (Or.inr hS'), h.kept j fun hS => hj (Or.inl hS)]
  · rw [h'.privates, h.privates, and_assoc]
    refine and_congr_right fun _ => ⟨fun ⟨h1, h2⟩ => ?_, fun hno => ⟨?_, ?_⟩⟩
    · rintro ⟨j, d, hj, hd, ha⟩
      by_cases hS : S j
      · exact h1 ⟨j, d, hS, hd, ha⟩
      · exact h2 ⟨j, d, hj.resolve_left hS, by rw [h.kept j hS]; exact hd, ha⟩
    · rintro ⟨j, d, hj, hd, ha⟩
      exact hno ⟨j, d, Or.inl hj, hd, ha⟩
    · rintro ⟨j, d, hj, hd, ha⟩
      have hS : ¬ S j := fun hS => by rw [h.gone j hS] at hd; cases hd
      exact hno ⟨j, d, Or.inr hj, by rw [← h.kept j hS]; exact hd, ha⟩

theorem FileClosed.emptied (h : FileClosed s i d own s') (hd : s.files i = some d) :
    Emptied (· = i) s s' := by
  refine ⟨fun j hj => ?_, fun j hj => ?_, fun a => ?_⟩
  · rw [h.files, hj, Function.update_self]
  · rw [h.files, Function.update_of_ne hj]
  · rw [h.slips]
    constructor
    · intro hmem
      obtain ⟨q, hq, rfl⟩ := List.mem_map.mp hmem
      obtain ⟨hin, hne⟩ := List.mem_filter.mp hq
      refine ⟨List.mem_map_of_mem hin, ?_⟩
      rintro ⟨j, e, rfl, he, ha⟩
      rw [hd] at he
      cases he
      exact of_decide_eq_true hne ha.symm
    · rintro ⟨hmem, hno⟩
      obtain ⟨q, hq, rfl⟩ := List.mem_map.mp hmem
      refine List.mem_map_of_mem (List.mem_filter.mpr ⟨hq, decide_eq_true fun he => ?_⟩)
      exact hno ⟨i, d, rfl, hd, he.symm⟩

/-! ## The other functions -/

theorem neutral_setPos (desc pos : Nat) (s : FsState) : Neutral s (onVol (setPos desc pos) s) :=
  ⟨rfl, slips_setPos desc pos s.vol, .refl s⟩

theorem neutral_write {data : Bytes} (h : WriteCourse desc data count s r s') : Neutral s s' := by
  cases h with
  | untargeted _ _ hs => exact hs ▸ .refl s
  | nothing _ _ _ hs => exact hs ▸ .refl s
  | unprepared _ _ hp _ => exact neutral_prepared hp
  | acted _ _ hp _ _ hact =>
    refine (neutral_prepared hp).trans ⟨hact.still.files, ?_, ?_⟩
    · exact slips_acts hact (fun phases b h => writePlan_publish h) fun w => slips_setPos _ _ w
    · cases r <;> exact hact.heap

theorem neutral_read {r : Except Errno (Nat × Bytes)} (h : ReadCourse desc count s r s') :
    Neutral s s' := by
  cases h with
  | untargeted _ _ _ hs => exact hs ▸ .refl s
  | nothing _ _ _ hs => exact hs ▸ .refl s
  | got _ _ _ hread _ hs =>
    rw [hs]
    exact (neutral_quiet hread.quiet hread.heap).trans (neutral_setPos _ _ _)
  | failed _ _ _ hread _ => exact neutral_quiet hread.quiet hread.heap

theorem neutral_items {size nmemb : Nat} {r : Except Errno (Nat × Bytes)}
    (h : ItemsCourse desc size nmemb s r s') : Neutral s s' := by
  cases h with
  | stopped _ hs => exact hs ▸ .refl s
  | ran _ _ _ h =>
    obtain ⟨p, -, hv, -⟩ := h.vol
    refine ⟨h.still.files, ?_, fun base m ho => ?_⟩
    · rw [hv]
      unfold moved
      split
      · rfl
      · exact slips_setPos _ _ _
    · rw [zero_add] at ho ⊢
      exact h.heap base m ho

/-- The functions that neither open nor close. -/
def FileOp.Uses : FileOp → Prop
  | .open _ _ | .fopen _ _ | .close _ => False
  | _ => True

theorem FileOp.neutral {op : FileOp} (hop : op.Uses) (hs : Sane s) : Neutral s (op.run s).2 := by
  have hruns := op.runs hs
  generalize (op.run s).1 = r, (op.run s).2 = s' at hruns
  cases hruns with
  | refused | looked => exact .refl s
  | opened | fopened | closed => exact hop.elim
  | read h => exact neutral_read h
  | wrote _ h => exact neutral_write h
  | sought | fsought => exact neutral_setPos _ _ _
  | items _ h => exact neutral_items h

end Rorthox.Fs
