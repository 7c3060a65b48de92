import Rorthox.Tasks.Handles

/-!
# The tables stay in step

Every operation keeps the invariant `Good`, so in every state after a mount the handles of the
processes, the slots of `file_descriptors` and the descriptors of the driver correspond one to one.
-/

namespace Rorthox.Tasks

open Lib Fat Fs Memory

variable {fd : Int} {fs : FsState} {own : Multiset Nat} {k : Kernel}

section

variable {k : Kernel} {p h : Nat} {process : Holder}

theorem freeHandle_spec {files : Nat → Int} (left : Nat) : ∀ {i j : Nat},
    freeHandle files left i = some j →
      files j = 0 ∧ i ≤ j ∧ j < i + left ∧ ∀ n, i ≤ n → n < j → files n ≠ 0 := by
  induction left with
  | zero => intro i j h; cases h
  | succ left ih =>
    intro i j h
    unfold freeHandle at h
    split at h
    · rename_i hne
      obtain ⟨h1, h2, h3, h4⟩ := ih h
      refine ⟨h1, by omega, by omega, fun n hn hnj => ?_⟩
      rcases Nat.lt_or_ge i n with hlt | hge
      · exact h4 n (by omega) hnj
      · obtain rfl : n = i := by omega
        exact hne
    · rename_i hz
      cases h
      exact ⟨not_not.mp hz, le_rfl, by omega, fun n h1 h2 => absurd h1 (by omega)⟩

theorem handle_index (p : Nat) (hh : h < fileMaxOpen) :
    (p * fileMaxOpen + h) / fileMaxOpen = p ∧ (p * fileMaxOpen + h) % fileMaxOpen = h := by
  simp only [fileMaxOpen] at hh ⊢
  omega

section

variable (hp : k.processes p = some process)
include hp

theorem names_set (hh : h < fileMaxOpen) (fd : Int) : names (k.setHandle p process h fd).processes =
      Function.update (names k.processes) (p * fileMaxOpen + h)
        (if 0 < fd then some fd.toNat else none) := by
  funext n
  obtain ⟨hdiv, hmod⟩ := handle_index p hh
  by_cases hn : n = p * fileMaxOpen + h
  · subst hn
    rw [Function.update_self]
    simp only [names, Kernel.setHandle, hdiv, hmod, Function.update_self, Option.bind_some]
  · rw [Function.update_of_ne hn]
    simp only [names, Kernel.setHandle]
    by_cases hq : n / fileMaxOpen = p
    · have hmod' : n % fileMaxOpen ≠ h := by
        intro he
        apply hn
        rw [← Nat.div_add_mod' n fileMaxOpen, hq, he]
      rw [hq, Function.update_self, hp]
      simp only [Option.bind_some, Function.update_of_ne hmod']
    · rw [Function.update_of_ne hq]

theorem names_handle (hh : h < fileMaxOpen) : names k.processes (p * fileMaxOpen + h) =
      if 0 < process.files h then some (process.files h).toNat else none := by
  obtain ⟨hdiv, hmod⟩ := handle_index p hh
  simp only [names, hdiv, hmod, hp, Option.bind_some]

theorem blocksOf_set (fd : Int) :
    blocksOf (k.setHandle p process h fd).processes = blocksOf k.processes := by
  unfold blocksOf
  rw [map_live, map_live]
  congr 1
  refine live_congr fun i _ => ?_
  simp only [Kernel.setHandle]
  by_cases hi : i = p
  · subst hi
    rw [Function.update_self, hp]
    rfl
  · rw [Function.update_of_ne hi]

/-- A process whose handle is set to what it is. -/
theorem setHandle_same {fd' : Int} (hfd : process.files h = fd') :
    ((k.setHandle p process h fd).setHandle p process h fd').processes = k.processes := by
  simp only [Kernel.setHandle]
  rw [Function.update_idem, ← hfd, Function.update_eq_self, ← hp, Function.update_eq_self]

theorem setHandle_few (hfew : ∀ q r, k.processes q = some r → q < maxProcesses) :
    ∀ q r, ({ k with fs }.setHandle p process h fd).processes q = some r → q < maxProcesses := by
  intro q r hq
  by_cases he : q = p
  · exact he ▸ hfew p process hp
  · change Function.update k.processes p _ q = some r at hq
    rw [Function.update_of_ne he] at hq
    exact hfew q r hq

theorem setHandle_whole (hfd : 0 ≤ fd) (hwhole : ∀ q r n, k.processes q = some r → 0 ≤ r.files n) :
    ∀ q r n, ({ k with fs }.setHandle p process h fd).processes q = some r → 0 ≤ r.files n := by
  intro q r n hq
  change Function.update k.processes p _ q = some r at hq
  by_cases he : q = p
  · subst he
    rw [Function.update_self] at hq
    cases hq
    by_cases hn : n = h
    · subst hn
      simpa using hfd
    · simpa [Function.update_of_ne hn] using hwhole q process n hp
  · rw [Function.update_of_ne he] at hq
    exact hwhole q r n hq

end

theorem handle_lt (hp : p < maxProcesses) (hh : h < fileMaxOpen) :
    p * fileMaxOpen + h < handleCount := by
  simp only [handleCount, maxProcesses, fileMaxOpen] at *
  omega

/-! ## What the invariant gives -/

theorem Good.accounted (hg : Good k) : Accounted k.fs := by
  obtain ⟨base, rest, ho⟩ := hg.memory
  refine ⟨base, ((slots k.fs).map FileDescriptor.addr : Multiset Nat) + blocksOf k.processes + rest,
    ?_⟩
  convert ho using 1
  unfold ledger
  simp only [add_assoc, add_left_comm]

theorem Good.privates_nodup (hg : Good k) : ((slots k.fs).map FileDescriptor.priv).Nodup :=
  hg.privates.nodup_iff.mpr hg.accounted.nodup

theorem Good.indices_nodup (hg : Good k) : ((slots k.fs).map FileDescriptor.index).Nodup := by
  have hlist : (slots k.fs).map FileDescriptor.index =
      live maxFileDescriptors fun i => (k.fs.files i).map fun _ => i + 1 := by
    rw [slots, map_live]
    refine live_congr fun i _ => ?_
    cases hd : k.fs.files i with
    | none => rfl
    | some d => exact congrArg some (hg.index i d hd)
  rw [hlist, live]
  refine (List.nodup_range).filterMap fun i j n hi hj => ?_
  obtain ⟨d, -, hd⟩ := Option.map_eq_some_iff.mp hi
  obtain ⟨d', -, hd'⟩ := Option.map_eq_some_iff.mp hj
  omega

/-- The slot and the driver's descriptor behind a handle. -/
theorem Good.slot (hg : Good k) {n fd : Nat} (hn : n < handleCount)
    (hname : names k.processes n = some fd) :
    ∃ i d own, fd = i + 1 ∧ i < maxFileDescriptors ∧ k.fs.files i = some d ∧ d.index = i + 1 ∧
      (d.priv, own) ∈ slips k.fs.vol := by
  have hmem : fd ∈ (slots k.fs).map FileDescriptor.index :=
    hg.handles.mem_iff.mp (mem_live.mpr ⟨n, hn, hname⟩)
  obtain ⟨d, hd, hindex⟩ := List.mem_map.mp hmem
  obtain ⟨i, hi, hfile⟩ := mem_live.mp hd
  have hpriv : d.priv ∈ (slips k.fs.vol).map Prod.fst :=
    hg.privates.mem_iff.mp (List.mem_map_of_mem hd)
  obtain ⟨q, hq, he⟩ := List.mem_map.mp hpriv
  have hidx := hg.index i d hfile
  exact ⟨i, d, q.2, hindex.symm.trans hidx, hi, hfile, hidx, by rw [← he]; exact hq⟩

/-! ## Steps -/

theorem addrs_cons {l l' : List FileDescriptor} {d : FileDescriptor} (hl : l.Perm (d :: l')) :
    ((l.map FileDescriptor.addr : List Nat) : Multiset Nat) =
      {d.addr} + (l'.map FileDescriptor.addr : List Nat) := by
  rw [Multiset.singleton_add, Multiset.cons_coe, ← List.map_cons]
  exact Multiset.coe_eq_coe.mpr (hl.map FileDescriptor.addr)

/-- The tables of the file functions are as they were, and so are the processes. -/
theorem Good.neutral (hg : Good k) (hk : Kept k.fs fs) (hn : Neutral k.fs fs) :
    Good { k with fs } := by
  refine ⟨hk.sane hg.sane, hk.mounted.trans hg.mounted, ?_, ?_, hg.few, hg.whole, ?_, ?_, ?_⟩
  · rw [hn.files]; exact hg.index
  · rw [hn.files]; exact hg.inside
  · simp only [slots, hn.files]; exact hg.handles
  · simp only [slots, hn.files, hn.slips]; exact hg.privates
  · obtain ⟨base, rest, ho⟩ := hg.memory
    refine ⟨base, rest, ?_⟩
    have h1 := hn.heap base (ledger k + rest) (by rwa [zero_add])
    rw [zero_add] at h1
    simpa only [ledger, slots, hn.files, hn.slips] using h1

/-- A new slot, named by a handle that was free. -/
theorem Good.opened (hg : Good k) (hp : k.processes p = some process) (hh : h < fileMaxOpen)
    (hzero : process.files h = 0) (hk : Kept k.fs fs) {i addr priv : Nat}
    (hfree : freeSlot k.fs.files maxFileDescriptors 0 = some i)
    (hfiles : fs.files = Function.update k.fs.files i (some { addr, index := i + 1, priv }))
    (hslips : slips fs.vol = (priv, own) :: slips k.fs.vol)
    (hheap : Trades 0 ({addr} + ({priv} + own)) k.fs fs) :
    Good ({ k with fs }.setHandle p process h ((i + 1 : Nat) : Int)) := by
  obtain ⟨hnone, -, hi, -⟩ := freeSlot_spec _ hfree
  rw [Nat.zero_add] at hi
  have hpl := hg.few p process hp
  have hslots : (slots fs).Perm ({ addr, index := i + 1, priv } :: slots k.fs) := by
    unfold slots
    rw [hfiles]
    exact live_fill hi hnone
  have hname : names k.processes (p * fileMaxOpen + h) = none := by
    rw [names_handle hp hh, hzero]
    rfl
  refine ⟨hk.sane hg.sane, hk.mounted.trans hg.mounted, ?_, ?_, ?_, ?_, ?_, ?_, ?_⟩
  · intro j d hd
    change fs.files j = some d at hd
    rw [hfiles] at hd
    by_cases hj : j = i
    · subst hj
      rw [Function.update_self] at hd
      cases hd
      rfl
    · rw [Function.update_of_ne hj] at hd
      exact hg.index j d hd
  · intro j d hd
    change fs.files j = some d at hd
    rw [hfiles] at hd
    by_cases hj : j = i
    · exact hj ▸ hi
    · rw [Function.update_of_ne hj] at hd
      exact hg.inside j d hd
  · exact setHandle_few hp hg.few
  · exact setHandle_whole hp (by omega) hg.whole
  · have hnames := names_set (k := { k with fs }) hp hh ((i + 1 : Nat) : Int)
    rw [if_pos (by omega), Int.toNat_natCast] at hnames
    show (live handleCount (names ({ k with fs }.setHandle p process h _).processes)).Perm
      ((slots fs).map FileDescriptor.index)
    rw [hnames]
    refine (live_fill (handle_lt hpl hh) hname).trans ?_
    exact (hg.handles.cons (i + 1)).trans (hslots.map FileDescriptor.index).symm
  · show ((slots fs).map FileDescriptor.priv).Perm ((slips fs.vol).map Prod.fst)
    rw [hslips]
    exact (hslots.map FileDescriptor.priv).trans (hg.privates.cons priv)
  · obtain ⟨base, rest, ho⟩ := hg.memory
    refine ⟨base, rest, ?_⟩
    have h1 := hheap base (ledger k + rest) (by rwa [zero_add])
    have hb := blocksOf_set (k := { k with fs }) (h := h) hp ((i + 1 : Nat) : Int)
    have ha : (((slots fs).map FileDescriptor.addr : List Nat) : Multiset Nat) =
        {addr} + ((slots k.fs).map FileDescriptor.addr : List Nat) :=
      addrs_cons hslots
    show Owns base (((slots fs).map FileDescriptor.addr : List Nat) + slipMemory (slips fs.vol) +
      blocksOf ({ k with fs }.setHandle p process h _).processes + rest) fs.heap
    rw [hb, ha, hslips, slipMemory_cons]
    convert h1 using 1
    simp only [ledger, add_assoc, add_left_comm]

theorem slipMemory_filter {l : List (Nat × Multiset Nat)} {priv : Nat} (hmem : (priv, own) ∈ l)
    (hnodup : (l.map Prod.fst).Nodup) :
    slipMemory l = {priv} + own + slipMemory (l.filter fun q => q.1 ≠ priv) := by
  induction l with
  | nil => cases hmem
  | cons q l ih =>
    rw [List.map_cons, List.nodup_cons] at hnodup
    by_cases hq : q.1 = priv
    · have hother : ∀ r ∈ l, r.1 ≠ priv := fun r hr he =>
        hnodup.1 (hq ▸ he ▸ List.mem_map_of_mem (f := Prod.fst) hr)
      obtain rfl : (priv, own) = q := by
        rcases List.mem_cons.mp hmem with he | hl
        · exact he
        · exact absurd rfl (hother _ hl)
      rw [List.filter_cons_of_neg (by simp), slipMemory_cons,
        List.filter_eq_self.mpr fun r hr => decide_eq_true (hother r hr)]
    · have hl : (priv, own) ∈ l := by
        rcases List.mem_cons.mp hmem with he | hl
        · exact absurd (congrArg Prod.fst he).symm hq
        · exact hl
      rw [List.filter_cons_of_pos (by simpa using hq), slipMemory_cons, slipMemory_cons,
        ih hl hnodup.2]
      simp only [add_assoc, add_left_comm]

/-- A handle, its slot and its descriptor of the driver go together. -/
theorem Good.closed (hg : Good k) (hp : k.processes p = some process) (hh : h < fileMaxOpen)
    (hk : Kept k.fs fs) {i : Nat} {d : FileDescriptor}
    (hfd : process.files h = ((i + 1 : Nat) : Int)) (hi : i < maxFileDescriptors)
    (hd : k.fs.files i = some d) (hmem : (d.priv, own) ∈ slips k.fs.vol)
    (hc : FileClosed k.fs i d own fs) : Good ({ k with fs }.setHandle p process h 0) := by
  have hpl := hg.few p process hp
  have hindex := hg.index i d hd
  have hslots : (slots k.fs).Perm (d :: slots fs) := by
    unfold slots
    rw [hc.files]
    exact live_clear hi hd
  have hname : names k.processes (p * fileMaxOpen + h) = some (i + 1) := by
    rw [names_handle hp hh, hfd, if_pos (by omega), Int.toNat_natCast]
  have hnodup := hg.accounted.nodup
  refine ⟨hk.sane hg.sane, hk.mounted.trans hg.mounted, ?_, ?_, setHandle_few hp hg.few,
    setHandle_whole hp le_rfl hg.whole, ?_, ?_, ?_⟩
  · intro j e he
    change fs.files j = some e at he
    rw [hc.files] at he
    by_cases hj : j = i
    · rw [hj, Function.update_self] at he
      cases he
    · rw [Function.update_of_ne hj] at he
      exact hg.index j e he
  · intro j e he
    change fs.files j = some e at he
    rw [hc.files] at he
    by_cases hj : j = i
    · exact hj ▸ hi
    · rw [Function.update_of_ne hj] at he
      exact hg.inside j e he
  · have hnames := names_set (k := { k with fs }) hp hh 0
    rw [if_neg (lt_irrefl 0)] at hnames
    show (live handleCount (names ({ k with fs }.setHandle p process h 0).processes)).Perm
      ((slots fs).map FileDescriptor.index)
    rw [hnames]
    have hleft := live_clear (handle_lt hpl hh) hname
    have hright := hslots.map FileDescriptor.index
    rw [List.map_cons, hindex] at hright
    exact (hleft.symm.trans (hg.handles.trans hright)).cons_inv
  · have hright := (hslots.map FileDescriptor.priv).symm.trans hg.privates
    rw [List.map_cons] at hright
    show ((slots fs).map FileDescriptor.priv).Perm ((slips fs.vol).map Prod.fst)
    rw [hc.slips]
    have herase : ((slips k.fs.vol).filter fun q => q.1 ≠ d.priv).map Prod.fst =
        ((slips k.fs.vol).map Prod.fst).erase d.priv := by
      rw [hnodup.erase_eq_filter, List.filter_map]
      congr 1
      refine List.filter_congr fun q _ => ?_
      rw [Bool.eq_iff_iff]
      simp
    rw [herase]
    have h1 := hright.erase d.priv
    rwa [List.erase_cons_head] at h1
  · obtain ⟨base, rest, ho⟩ := hg.memory
    refine ⟨base, rest, ?_⟩
    have hb := blocksOf_set (k := { k with fs }) (h := h) hp 0
    have ha : (((slots k.fs).map FileDescriptor.addr : List Nat) : Multiset Nat) =
        {d.addr} + ((slots fs).map FileDescriptor.addr : List Nat) :=
      addrs_cons hslots
    show Owns base (((slots fs).map FileDescriptor.addr : List Nat) + slipMemory (slips fs.vol) +
      blocksOf ({ k with fs }.setHandle p process h 0).processes + rest) fs.heap
    rw [hb, hc.slips, ← zero_add (_ + rest)]
    apply hc.heap
    convert ho using 1
    rw [ledger, ha, slipMemory_filter hmem hnodup]
    simp only [add_assoc, add_left_comm]

/-! ## The operations -/

/-- How `process_open_file` ends. -/
inductive ProcessOpened (p : Nat) (k : Kernel) (r : Except Errno Nat) (k' : Kernel) : Prop where
  | refused {e : Errno} (hr : r = .error e) (hp : k'.processes = k.processes)
      (hn : Neutral k.fs k'.fs)
  | opened (process : Holder) (h i addr priv : Nat) (own : Multiset Nat)
      (hp : k.processes p = some process) (hh : freeHandle process.files fileMaxOpen 0 = some h)
      (hr : r = .ok (h + 1)) (hfree : freeSlot k.fs.files maxFileDescriptors 0 = some i)
      (hfiles : k'.fs.files = Function.update k.fs.files i (some { addr, index := i + 1, priv }))
      (hslips : slips k'.fs.vol = (priv, own) :: slips k.fs.vol)
      (hheap : Trades 0 ({addr} + ({priv} + own)) k.fs k'.fs)
      (hset : k' = { k with fs := k'.fs }.setHandle p process h ((i + 1 : Nat) : Int))

theorem processOpenFile_spec (hg : Good k) (path : List UInt8) (mode : FileMode) :
    ProcessOpened p k (processOpenFile p path mode k).1 (processOpenFile p path mode k).2 ∧
      Kept k.fs (processOpenFile p path mode k).2.fs := by
  unfold processOpenFile
  cases hp : k.processes p with
  | none => exact ⟨.refused rfl rfl (.refl _), .refl _⟩
  | some process =>
    dsimp only
    cases hh : freeHandle process.files fileMaxOpen 0 with
    | none => exact ⟨.refused rfl rfl (.refl _), .refl _⟩
    | some h =>
      dsimp only
      have hzero := (freeHandle_spec _ hh).1
      have hcourse := fileOpen_spec hg.sane.tidy path mode
      have hkept := kept_fileOpen hg.sane hcourse
      have heffect := fileOpen_effect hg.accounted hcourse
      have hfs : (k.setHandle p process h (-1)).fs = k.fs := rfl
      rw [hfs]
      cases hrun : fileOpen path mode k.fs with
      | mk r fs =>
        rw [hrun] at hkept heffect
        cases heffect with
        | refused hr hn =>
          cases hr
          refine ⟨.refused rfl ?_ hn, hkept⟩
          exact setHandle_same hp hzero
        | opened i addr priv own hr hfree hfiles hslips hheap =>
          cases hr
          refine ⟨.opened process h i addr priv own hp hh rfl hfree hfiles hslips hheap ?_, hkept⟩
          simp only [Kernel.setHandle, Function.update_idem]

theorem Good.openFile (hg : Good k) (path : List UInt8) (mode : FileMode) :
    Good (processOpenFile p path mode k).2 := by
  obtain ⟨hopened, hkept⟩ := processOpenFile_spec (p := p) hg path mode
  cases hopened with
  | refused _ hp hn =>
    have hk : (processOpenFile p path mode k).2 =
        { k with fs := (processOpenFile p path mode k).2.fs } := by
      rw [← hp]
    rw [hk]
    exact hg.neutral hkept hn
  | opened process h i addr priv own hp hh _ hfree hfiles hslips hheap hset =>
    obtain ⟨hzero, -, hlt, -⟩ := freeHandle_spec _ hh
    rw [Nat.zero_add] at hlt
    rw [hset]
    exact hg.opened hp hlt hzero hkept hfree hfiles hslips hheap

/-- One handle closed, if it was open. -/
theorem closeHandle_spec (hg : Good k) (hp : k.processes p = some process) (hh : h < fileMaxOpen) :
    Good (closeHandle p h k) ∧
      (closeHandle p h k).processes = (k.setHandle p process h 0).processes ∧
      Emptied (fun j => process.files h = ((j + 1 : Nat) : Int)) k.fs (closeHandle p h k).fs := by
  unfold closeHandle
  rw [hp]
  dsimp only
  have hnonneg := hg.whole p process h hp
  by_cases hpos : 0 < process.files h
  · rw [if_pos hpos]
    have hname : names k.processes (p * fileMaxOpen + h) = some (process.files h).toNat := by
      rw [names_handle hp hh, if_pos hpos]
    obtain ⟨i, d, own, hfd, hi, hd, hindex, hmem⟩ := hg.slot (handle_lt (hg.few p process hp) hh)
      hname
    have hfd' : process.files h = ((i + 1 : Nat) : Int) := by omega
    obtain ⟨-, hc⟩ := fclose_effect hi hd hindex hmem hg.accounted
    have hkept := kept_fclose ((i + 1 : Nat) : Int) hg.sane
    rw [hfd']
    refine ⟨hg.closed hp hh hkept hfd' hi hd hmem hc, rfl, ?_⟩
    have hsame : (fun j => (((i + 1 : Nat) : Int)) = ((j + 1 : Nat) : Int)) = (· = i) := by
      funext j
      exact propext ⟨fun he => by omega, fun he => by omega⟩
    rw [hsame]
    exact hc.emptied hd
  · rw [if_neg hpos]
    have hzero : process.files h = 0 := by omega
    have hset : k.setHandle p process h 0 = k := by
      simp only [Kernel.setHandle, ← hzero, Function.update_eq_self, ← hp]
    rw [hset]
    refine ⟨hg, rfl, ?_⟩
    have hnone : (fun j => process.files h = ((j + 1 : Nat) : Int)) = fun _ => False := by
      funext j
      exact propext ⟨fun he => by omega, False.elim⟩
    rw [hnone]
    exact .of_neutral (.refl _)

/-- The handles of a process from `h` on. -/
def HandleFrom (process : Holder) (h j : Nat) : Prop :=
  ∃ n, h ≤ n ∧ n < fileMaxOpen ∧ process.files n = ((j + 1 : Nat) : Int)

theorem closeFilesLoop_spec (left : Nat) : ∀ {k : Kernel} {h : Nat} {process : Holder}, Good k →
    k.processes p = some process → h + left = fileMaxOpen →
    Good (closeFilesLoop p left h k) ∧
      (∃ closed : Holder, (closeFilesLoop p left h k).processes =
          Function.update k.processes p (some closed) ∧
        (∀ n, h ≤ n → n < fileMaxOpen → closed.files n = 0) ∧
        ∀ n, n < h → closed.files n = process.files n) ∧
      Emptied (HandleFrom process h) k.fs (closeFilesLoop p left h k).fs := by
  induction left with
  | zero =>
    intro k h process hg hp hh
    refine ⟨hg, ⟨process, ?_, fun n h1 h2 => absurd h1 (by omega), fun _ _ => rfl⟩, ?_⟩
    · rw [← hp, Function.update_eq_self]
      rfl
    · have hnone : HandleFrom process h = fun _ => False := by
        funext j
        refine propext ⟨?_, False.elim⟩
        rintro ⟨n, h1, h2, -⟩
        omega
      rw [hnone]
      exact .of_neutral (.refl _)
  | succ left ih =>
    intro k h process hg hp hh
    obtain ⟨hg1, hp1, he1⟩ := closeHandle_spec hg hp (show h < fileMaxOpen by omega)
    have hp1' : (closeHandle p h k).processes p =
        some { process with files := Function.update process.files h 0 } := by
      rw [hp1]
      exact Function.update_self _ _ _
    obtain ⟨hg2, ⟨closed, hp2, hzero, hsame⟩, he2⟩ := ih hg1 hp1' (h := h + 1) (by omega)
    refine ⟨hg2, ⟨closed, ?_, fun n h1 h2 => ?_, fun n hn => ?_⟩, ?_⟩
    · rw [closeFilesLoop, hp2, hp1]
      simp only [Kernel.setHandle, Function.update_idem]
    · rcases Nat.lt_or_ge h n with hlt | hge
      · exact hzero n (by omega) h2
      · obtain rfl : n = h := by omega
        rw [hsame n (Nat.lt_succ_self n)]
        exact Function.update_self _ _ _
    · rw [hsame n (by omega)]
      exact Function.update_of_ne (by omega) _ _
    · have hunion : HandleFrom process h = fun j => process.files h = ((j + 1 : Nat) : Int) ∨
          HandleFrom { process with files := Function.update process.files h 0 } (h + 1) j := by
        funext j
        refine propext ⟨?_, ?_⟩
        · rintro ⟨n, h1, h2, hn⟩
          rcases Nat.lt_or_ge h n with hlt | hge
          · refine Or.inr ⟨n, by omega, h2, ?_⟩
            simpa [Function.update_of_ne (show n ≠ h by omega)] using hn
          · obtain rfl : n = h := by omega
            exact Or.inl hn
        · rintro (hn | ⟨n, h1, h2, hn⟩)
          · exact ⟨h, le_rfl, by omega, hn⟩
          · refine ⟨n, by omega, h2, ?_⟩
            simpa [Function.update_of_ne (show n ≠ h by omega)] using hn
      rw [hunion]
      exact he1.trans he2

theorem processCloseFiles_spec (hg : Good k) (hp : k.processes p = some process) :
    Good (processCloseFiles p k) ∧
      (∃ closed : Holder, (processCloseFiles p k).processes = Function.update k.processes p
        (some closed) ∧ ∀ n, 0 ≤ n → n < fileMaxOpen → closed.files n = 0) ∧
      Emptied (HandleFrom process 0) k.fs (processCloseFiles p k).fs := by
  obtain ⟨hg1, ⟨closed, hp1, hzero, -⟩, he⟩ :=
    closeFilesLoop_spec fileMaxOpen hg hp (Nat.zero_add _)
  exact ⟨hg1, ⟨closed, hp1, hzero⟩, he⟩

theorem freeBlocks_frees (blocks : List Nat) : Frees (blocks : Multiset Nat)
    (freeBlocks blocks) := by
  induction blocks with
  | nil => exact frees_nothing
  | cons b blocks ih =>
    have h := ih.comp (frees_kfreeAt b)
    rw [add_comm, Multiset.singleton_add, Multiset.cons_coe] at h
    exact h

theorem names_none (p : Nat) (processes : Nat → Option Holder) (process : Holder)
    (hp : ∀ h, h < fileMaxOpen → process.files h = 0) {a b : Option Holder}
    (ha : a = none ∨ a = some process) (hb : b = none ∨ b = some process) :
    names (Function.update processes p a) = names (Function.update processes p b) := by
  have hno : ∀ c : Option Holder, c = none ∨ c = some process → ∀ n, n / fileMaxOpen = p →
      names (Function.update processes p c) n = none := by
    intro c hc n hn
    simp only [names, hn, Function.update_self]
    rcases hc with rfl | rfl
    · rfl
    · have hz := hp (n % fileMaxOpen) (Nat.mod_lt n (by decide))
      simp [hz]
  funext n
  by_cases hn : n / fileMaxOpen = p
  · rw [hno a ha n hn, hno b hb n hn]
  · simp only [names, Function.update_of_ne hn]

theorem processCloseFiles_none (hp : k.processes p = none) : processCloseFiles p k = k := by
  have hloop : ∀ left h, closeFilesLoop p left h k = k := by
    intro left
    induction left with
    | zero => intro h; rfl
    | succ left ih =>
      intro h
      rw [closeFilesLoop, closeHandle, hp]
      exact ih (h + 1)
  exact hloop fileMaxOpen 0

/-- Memory of a process without files comes or goes; `fs` differs in the heap only. -/
theorem Good.memory_moved (hg : Good k) (hq : Quiet k.fs fs) {processes : Nat → Option Holder}
    (hnames : names processes = names k.processes)
    (hfew : ∀ q r, processes q = some r → q < maxProcesses)
    (hwhole : ∀ q r n, processes q = some r → 0 ≤ r.files n)
    (hmemory : ∀ base rest m, Owns base (m + blocksOf k.processes + rest) k.fs.heap →
      ∃ rest', Owns base (m + blocksOf processes + rest') fs.heap) :
    Good { fs, processes } := by
  refine ⟨(kept_quiet hq).sane hg.sane, hq.mounted.trans hg.mounted, ?_, ?_, hfew, hwhole,
    ?_, ?_, ?_⟩
  · rw [hq.files]; exact hg.index
  · rw [hq.files]; exact hg.inside
  · simp only [slots, hq.files, hnames]; exact hg.handles
  · simp only [slots, hq.files, hq.vol]; exact hg.privates
  · obtain ⟨base, rest, ho⟩ := hg.memory
    obtain ⟨rest', ho'⟩ := hmemory base rest _ ho
    refine ⟨base, rest', ?_⟩
    simpa only [ledger, slots, hq.files, hq.vol] using ho'

theorem processTerminate_spec (hg : Good k) (hp : k.processes p = some process)
    (leaks : Nat → Bool) :
    Good (processTerminate p leaks k) ∧
      (processTerminate p leaks k).processes = Function.update k.processes p none ∧
      Emptied (HandleFrom process 0) k.fs (processTerminate p leaks k).fs := by
  obtain ⟨hg1, ⟨closed, hp1, hzero⟩, he⟩ := processCloseFiles_spec hg hp
  have hp1' : (processCloseFiles p k).processes p = some closed := by
    rw [hp1, Function.update_self]
  have hpl := hg1.few p closed hp1'
  unfold processTerminate
  simp only [hp1']
  have hfrees := freeBlocks_frees (closed.blocks.filter fun b => !leaks b)
  have hq := hfrees.quiet (processCloseFiles p k).fs
  refine ⟨hg1.memory_moved hq ?_ ?_ ?_ ?_, ?_, ?_⟩
  · have hn := names_none p (processCloseFiles p k).processes closed
      (fun h hh => hzero h (Nat.zero_le h) hh) (Or.inl rfl) (Or.inr rfl)
    rw [hn, ← hp1', Function.update_eq_self]
  · intro q r hr
    by_cases hqp : q = p
    · exact hqp ▸ hpl
    · rw [Function.update_of_ne hqp] at hr
      exact hg1.few q r hr
  · intro q r n hr
    by_cases hqp : q = p
    · rw [hqp, Function.update_self] at hr
      cases hr
    · rw [Function.update_of_ne hqp] at hr
      exact hg1.whole q r n hr
  · intro base rest m ho
    have hlive := (live_clear hpl hp1').map fun r : Holder => (r.blocks : Multiset Nat)
    have hsum : blocksOf (processCloseFiles p k).processes =
        (closed.blocks : Multiset Nat) +
          blocksOf (Function.update (processCloseFiles p k).processes p none) := by
      unfold blocksOf
      rw [hlive.sum_eq, List.map_cons, List.sum_cons]
    -- what is not freed stays allocated and belongs to nobody
    have hpart : (closed.blocks : Multiset Nat) =
        (closed.blocks.filter fun b => !leaks b : List Nat) +
          (closed.blocks.filter leaks : List Nat) := by
      rw [Multiset.coe_add]
      refine Multiset.coe_eq_coe.mpr ((List.filter_append_perm leaks closed.blocks).symm.trans ?_)
      exact List.perm_append_comm
    refine ⟨(closed.blocks.filter leaks : List Nat) + rest, ?_⟩
    have h1 := trades_frees hfrees (processCloseFiles p k).fs base
      (m + blocksOf (Function.update (processCloseFiles p k).processes p none) +
        ((closed.blocks.filter leaks : List Nat) + rest)) (by
          convert ho using 1
          rw [hsum, hpart]
          simp only [add_assoc, add_left_comm])
    rwa [zero_add] at h1
  · rw [hp1, Function.update_idem]
  · have hlast : Emptied (fun _ => False) (processCloseFiles p k).fs
        (freeBlocks (closed.blocks.filter fun b => !leaks b) (processCloseFiles p k).fs) :=
      ⟨fun _ h => h.elim, fun j _ => by rw [hq.files], fun a => by rw [hq.vol]; simp⟩
    have h2 := he.trans hlast
    simp only [or_false] at h2
    exact h2

theorem takeBlocks_spec (sizes : List Nat) : ∀ (taken : List Nat) (s : FsState),
    Quiet s (takeBlocks sizes taken s).2 ∧
      match (takeBlocks sizes taken s).1 with
      | none => Trades (taken : Multiset Nat) 0 s (takeBlocks sizes taken s).2
      | some blocks => Trades (taken : Multiset Nat) (blocks : Multiset Nat) s
        (takeBlocks sizes taken s).2 := by
  induction sizes with
  | nil => intro taken s; exact ⟨.refl s, fun _ _ h => h⟩
  | cons size sizes ih =>
    intro taken s
    have halloc : Prog.Ends (kzalloc .enomem size) s
        (ReadsTo 0 0 (.addr 0) (.ok ()) s) :=
      reading_kzalloc (by decide) size s rfl rfl
    rw [Prog.ends_iff] at halloc
    rw [takeBlocks]
    cases hk : kzalloc .enomem size s with
    | mk r s1 =>
      rw [hk] at halloc
      cases r with
      | error e =>
        dsimp only
        refine ⟨halloc.quiet.trans ((freeBlocks_frees taken).quiet s1), ?_⟩
        have h1 : Trades 0 0 s s1 := halloc.heap
        have h2 := h1.frame (taken : Multiset Nat)
        rw [zero_add] at h2
        exact h2.trans (trades_frees (freeBlocks_frees taken) s1)
      | ok b =>
        dsimp only
        obtain ⟨hq, hrest⟩ := ih (b :: taken) s1
        have h1 : Trades 0 ({b} + 0) s s1 := halloc.heap
        have h2 := h1.frame (taken : Multiset Nat)
        rw [zero_add, add_zero, Multiset.singleton_add, Multiset.cons_coe] at h2
        refine ⟨halloc.quiet.trans hq, ?_⟩
        cases htake : (takeBlocks sizes (b :: taken) s1).1 with
        | none | some _ => rw [htake] at hrest; exact h2.trans hrest

theorem Good.load (hg : Good k) (p : Nat) (sizes : List Nat) : Good (loadProcess p sizes k) := by
  unfold loadProcess
  split
  · rename_i hfree
    obtain ⟨hpl, hnone⟩ := hfree
    rw [Option.isNone_iff_eq_none] at hnone
    obtain ⟨hq, htrade⟩ := takeBlocks_spec sizes [] k.fs
    cases htake : takeBlocks sizes [] k.fs with
    | mk r fs =>
      rw [htake] at hq htrade
      cases r with
      | none =>
        dsimp only at htrade ⊢
        exact hg.neutral (kept_quiet hq) (neutral_quiet hq htrade)
      | some blocks =>
        dsimp only at htrade ⊢
        refine hg.memory_moved hq ?_ ?_ ?_ ?_
        · have hn := names_none p k.processes { files := fun _ => 0, blocks } (fun _ _ => rfl)
            (Or.inr rfl) (Or.inl rfl)
          rw [hn, ← hnone, Function.update_eq_self]
        · intro q r hr
          by_cases hqp : q = p
          · exact hqp ▸ hpl
          · rw [Function.update_of_ne hqp] at hr
            exact hg.few q r hr
        · intro q r n hr
          by_cases hqp : q = p
          · rw [hqp, Function.update_self] at hr
            cases hr
            exact le_rfl
          · rw [Function.update_of_ne hqp] at hr
            exact hg.whole q r n hr
        · intro base rest m ho
          refine ⟨rest, ?_⟩
          have hlive := (live_fill (a := { files := fun _ => 0, blocks }) hpl hnone).map
            fun r : Holder => (r.blocks : Multiset Nat)
          have hsum : blocksOf (Function.update k.processes p
            (some { files := fun _ => 0, blocks })) =
              (blocks : Multiset Nat) + blocksOf k.processes := by
            unfold blocksOf
            rw [hlive.sum_eq, List.map_cons, List.sum_cons]
          have h1 := htrade base (m + blocksOf k.processes + rest) (by
            rw [Multiset.coe_nil, zero_add]
            exact ho)
          convert h1 using 1
          rw [hsum]
          simp only [add_assoc, add_left_comm]
  · exact hg

theorem processCloseFile_eq (hp : k.processes p = some process) (handle : Int)
    (hlow : 1 ≤ handle) (hhigh : handle ≤ fileMaxOpen) (hfd : 0 <
      process.files (handle - 1).toNat) :
    (processCloseFile p handle k).2 = closeHandle p (handle - 1).toNat k ∧
      (processCloseFile p handle k).1 = (fclose (process.files (handle - 1).toNat) k.fs).1 := by
  have hok : ¬ (handle < 1 ∨ (fileMaxOpen : Int) < handle ∨ process.files (handle - 1).toNat ≤
      0) := by
    omega
  unfold processCloseFile closeHandle
  simp only [hp, processFileDescriptor, if_neg hok, if_pos hfd, true_and]
  rfl

theorem Good.closeFile (hg : Good k) (p : Nat) (handle : Int) :
    Good (processCloseFile p handle k).2 := by
  cases hp : k.processes p with
  | none =>
    unfold processCloseFile
    rw [hp]
    exact hg
  | some process =>
    by_cases hbad : handle < 1 ∨ (fileMaxOpen : Int) < handle ∨ process.files (handle - 1).toNat ≤ 0
    · unfold processCloseFile
      simp only [hp, processFileDescriptor, if_pos hbad]
      exact hg
    · rw [(processCloseFile_eq hp handle (by omega) (by omega) (by omega)).1]
      exact (closeHandle_spec hg hp (by omega)).1

theorem Good.terminate (hg : Good k) (p : Nat) (leaks : Nat → Bool) :
    Good (processTerminate p leaks k) := by
  cases hp : k.processes p with
  | none =>
    unfold processTerminate
    simp only [processCloseFiles_none hp, hp]
    exact hg
  | some process => exact (processTerminate_spec hg hp leaks).1

/-- Any use of open files between two states. -/
theorem uses_neutral (uses : List FileOp) : ∀ {s : FsState}, Sane s → (∀ op ∈ uses, op.Uses) →
    Neutral s (uses.foldl (fun s op => (op.run s).2) s) ∧
      Kept s (uses.foldl (fun s op => (op.run s).2) s) := by
  induction uses with
  | nil => intro s _ _; exact ⟨.refl s, .refl s⟩
  | cons op uses ih =>
    intro s hs huses
    have hn := FileOp.neutral (huses op List.mem_cons_self) hs
    have hk := op.kept hs
    obtain ⟨hn', hk'⟩ := ih (hk.sane hs) fun o ho => huses o (List.mem_cons_of_mem op ho)
    exact ⟨hn.trans hn', hk.trans hk'⟩

theorem Good.kernelFile (hg : Good k) (filename modeStr : List UInt8) {uses : List FileOp}
    (huses : ∀ op ∈ uses, op.Uses) : Good (kernelFile filename modeStr uses k) := by
  have hcourse := fopenStatus_spec hg.sane.tidy filename modeStr
  rw [Prog.ends_iff] at hcourse
  have hkept := kept_fopen hg.sane hcourse
  have heffect := fopen_effect hg.accounted hcourse
  unfold Tasks.kernelFile fopen
  cases hrun : fopenStatus filename modeStr k.fs with
  | mk r fs =>
    rw [hrun] at hkept heffect
    obtain ⟨hn, hk⟩ := uses_neutral uses (hkept.sane hg.sane) huses
    cases heffect with
    | refused hr hn0 =>
      cases hr
      exact hg.neutral (hkept.trans hk) (hn0.trans hn)
    | opened i addr priv own hr hfree hfiles hslips hheap =>
      cases hr
      simp only [Nat.add_eq_zero_iff, one_ne_zero, and_false, if_false]
      have hopen : FileOpened k.fs (.ok (i + 1)) fs :=
        .opened i addr priv own rfl hfree hfiles hslips hheap
      exact hg.neutral ((hkept.trans hk).trans (kept_fclose _ ((hkept.trans hk).sane hg.sane)))
        (opened_closed hg.accounted (hopen.after hn))

theorem HandleOp.good {op : HandleOp} (hop : op.Allowed) (hg : Good k) : Good (op.run k) := by
  cases op with
  | openFile p path mode => exact hg.openFile path mode
  | closeFile p handle => exact hg.closeFile p handle
  | terminate p leaks => exact hg.terminate p leaks
  | kernelFile filename modeStr uses => exact hg.kernelFile filename modeStr hop
  | use op => exact hg.neutral (op.kept hg.sane) (FileOp.neutral hop hg.sane)
  | load p sizes => exact hg.load p sizes

end

theorem live_none {α : Type} (n : Nat) {f : Nat → Option α} (h : ∀ i, f i = none) :
    live n f = [] := by
  refine List.eq_nil_iff_forall_not_mem.mpr fun a ha => ?_
  obtain ⟨i, -, hi⟩ := mem_live.mp ha
  rw [h i] at hi
  cases hi

/-- A mount leaves all tables empty. -/
theorem good_mounted {s s' : FsState} (hc : MountCourse s (.ok ()) s') (hf : ∀ i, s.files i = none)
    (hs : Sane s) : Good { fs := s', processes := fun _ => none } := by
  have hsane := sane_mount hc hs
  cases hc with
  | failed _ hr => cases hr
  | @mounted vol s1 h _ he =>
    have hdesc : vol.descriptors = [] := (mounted_plain h).2.2.1
    have hfiles : ∀ i, s'.files i = none := fun i => by
      rw [he]
      exact (congrFun h.quiet.files i).trans (hf i)
    have hslots : slots s' = [] := live_none _ hfiles
    have hslips : slips s'.vol = [] := by
      rw [he]
      simp [slips, hdesc]
    refine ⟨hsane, by rw [he], fun i d hd => ?_, fun i d hd => ?_, fun p r hr => (by cases hr),
      fun p r n hr => (by cases hr), ?_, ?_, s'.heap, 0, ?_⟩
    · change s'.files i = some d at hd
      rw [hfiles i] at hd
      cases hd
    · change s'.files i = some d at hd
      rw [hfiles i] at hd
      cases hd
    · rw [show live handleCount (names fun _ => none) = [] from live_none _ fun _ => rfl]
      simp only [hslots]
      exact List.Perm.nil
    · simp only [hslots, hslips]
      exact List.Perm.nil
    · have hblocks : blocksOf (fun _ => none) = 0 := by
        rw [blocksOf, live_none _ fun _ => rfl]
        rfl
      simp only [ledger, hslots, hslips, hblocks]
      exact Owns.refl _

theorem Reached.good (hk : Reached k) : Good k := by
  induction hk with
  | mounted heap dev vol h =>
    have hc := fat16Resolve_spec { heap, dev, mounted := false, vol, files := fun _ => none }
    rw [Prog.ends_iff, h] at hc
    exact good_mounted hc (fun _ => rfl) ⟨fun hm => (by cases hm), fun _ _ => rfl⟩
  | step _ op hop ih => exact HandleOp.good hop ih

/-! ## The bijection -/

def driverAddrs (s : FsState) : List Nat := s.vol.descriptors.map FatFileDescriptor.addr

theorem slips_addrs (s : FsState) : (slips s.vol).map Prod.fst = driverAddrs s := by
  simp [slips, driverAddrs, Function.comp_def]

/-- The tables of a state. -/
structure InStep (k : Kernel) : Prop where
  slot : ∀ i d, k.fs.files i = some d →
    i < maxFileDescriptors ∧ d.index = i + 1 ∧ (driverAddrs k.fs).count d.priv = 1
  owner : ∀ f ∈ k.fs.vol.descriptors, ∃! i, ∃ d, k.fs.files i = some d ∧ d.priv = f.addr
  handle : ∀ p process h, k.processes p = some process → h < fileMaxOpen → 0 < process.files h →
    ∃ i d, process.files h = ((i + 1 : Nat) : Int) ∧ k.fs.files i = some d
  single : ∀ p process h q other g, k.processes p = some process → k.processes q = some other →
    h < fileMaxOpen → g < fileMaxOpen → 0 < process.files h → process.files h = other.files g →
    p = q ∧ h = g
  named : ∀ i d, k.fs.files i = some d → ∃ p process h, k.processes p = some process ∧
    h < fileMaxOpen ∧ process.files h = ((i + 1 : Nat) : Int)
  room : freeSlot k.fs.files maxFileDescriptors 0 ≠ none

/-- What an open puts in the tables: the lowest free slot, the handle that names it, and a
descriptor of the driver behind it. -/
structure Entered (p h i : Nat) (process : Holder) (k k' : Kernel) : Prop where
  lowest : freeSlot k.fs.files maxFileDescriptors 0 = some i
  handle : k'.processes = (k.setHandle p process h ((i + 1 : Nat) : Int)).processes
  slot : ∃ addr priv, k'.fs.files = Function.update k.fs.files i
    (some { addr, index := i + 1, priv }) ∧ driverAddrs k'.fs = priv :: driverAddrs k.fs

theorem Good.single (hg : Good k) {n m fd : Nat} (hn : n < handleCount) (hm : m < handleCount)
    (hfn : names k.processes n = some fd) (hfm : names k.processes m = some fd) : n = m := by
  have hnodup : ((live handleCount (names k.processes)).map id).Nodup := by
    rw [List.map_id]
    exact hg.handles.nodup_iff.mpr hg.indices_nodup
  exact live_slot id hnodup hn hm hfn hfm rfl

/-- The handle behind a slot. -/
theorem Good.named (hg : Good k) {i : Nat} {d : FileDescriptor} (hd : k.fs.files i = some d) :
    ∃ p process h, k.processes p = some process ∧ h < fileMaxOpen ∧
      process.files h = ((i + 1 : Nat) : Int) := by
  have hmem : i + 1 ∈ (slots k.fs).map FileDescriptor.index := by
    rw [← hg.index i d hd]
    exact List.mem_map_of_mem (mem_live.mpr ⟨i, hg.inside i d hd, hd⟩)
  obtain ⟨n, -, hname⟩ := mem_live.mp (hg.handles.mem_iff.mpr hmem)
  obtain ⟨process, hp, hname⟩ := Option.bind_eq_some_iff.mp hname
  refine ⟨n / fileMaxOpen, process, n % fileMaxOpen, hp, Nat.mod_lt n (by decide), ?_⟩
  split at hname
  · have hfd := Option.some.inj hname
    omega
  · cases hname

/-- Every slot has a handle, and the processes have 192 of them. -/
theorem Good.room (hg : Good k) : freeSlot k.fs.files maxFileDescriptors 0 ≠ none := by
  intro hfull
  have hlive : (slots k.fs).length = maxFileDescriptors :=
    live_length_full fun i hi => freeSlot_none _ hfull i (Nat.zero_le i) (by omega)
  have hlen := hg.handles.length_eq
  rw [List.length_map, hlive] at hlen
  have hle := live_length_le handleCount (names k.processes)
  rw [hlen] at hle
  exact absurd hle (by decide)

theorem Good.inStep (hg : Good k) : InStep k := by
  have hnodup := hg.accounted.nodup
  rw [slips_addrs] at hnodup
  have hperm := hg.privates
  rw [slips_addrs] at hperm
  refine ⟨fun i d hd => ?_, fun f hf => ?_, fun p process h hp hh hfd => ?_, ?_,
    fun i d hd => hg.named hd, hg.room⟩
  · have hi := hg.inside i d hd
    refine ⟨hi, hg.index i d hd, List.count_eq_one_of_mem hnodup (hperm.mem_iff.mp ?_)⟩
    exact List.mem_map_of_mem (mem_live.mpr ⟨i, hi, hd⟩)
  · have hmem : f.addr ∈ (slots k.fs).map FileDescriptor.priv :=
      hperm.mem_iff.mpr (List.mem_map_of_mem hf)
    obtain ⟨d, hd, hpriv⟩ := List.mem_map.mp hmem
    obtain ⟨i, hi, hfile⟩ := mem_live.mp hd
    refine ⟨i, ⟨d, hfile, hpriv⟩, ?_⟩
    rintro j ⟨e, he, hpriv'⟩
    exact live_slot FileDescriptor.priv hg.privates_nodup (hg.inside j e he) hi he hfile
      (hpriv'.trans hpriv.symm)
  · have hname : names k.processes (p * fileMaxOpen + h) = some (process.files h).toNat := by
      rw [names_handle hp hh, if_pos hfd]
    obtain ⟨i, d, -, hfd', -, hd, -⟩ := hg.slot (handle_lt (hg.few p process hp) hh) hname
    exact ⟨i, d, by omega, hd⟩
  · intro p process h q other g hp hq hh hg' hfd heq
    have hn : names k.processes (p * fileMaxOpen + h) = some (process.files h).toNat := by
      rw [names_handle hp hh, if_pos hfd]
    have hm : names k.processes (q * fileMaxOpen + g) = some (process.files h).toNat := by
      rw [names_handle hq hg', ← heq, if_pos hfd]
    have hsame := hg.single (handle_lt (hg.few p process hp) hh) (handle_lt (hg.few q other hq) hg')
      hn hm
    simp only [fileMaxOpen] at hsame hh hg'
    omega

/-- In every state after a mount the handles, the slots and the driver's descriptors correspond
one to one; an open takes the lowest free handle and the lowest free slot and adds one entry to each
of the three tables, and closing takes exactly what belongs to the handle. -/
theorem handle_tables {k : Kernel} (hk : Reached k) :
    InStep k ∧
      (∀ path mode, freeSlot (fat16Open path mode k.fs).2.files maxFileDescriptors 0 ≠ none) ∧
      (∀ p path mode n, (processOpenFile p path mode k).1 = .ok n →
        ∃ process, k.processes p = some process ∧ 1 ≤ n ∧ n ≤ fileMaxOpen ∧
          process.files (n - 1) = 0 ∧ (∀ g, g < n - 1 → process.files g ≠ 0) ∧
          ∃ i, Entered p (n - 1) i process k (processOpenFile p path mode k).2) ∧
      (∀ p process h i, k.processes p = some process → h < fileMaxOpen →
        process.files h = ((i + 1 : Nat) : Int) →
        (processCloseFile p ((h + 1 : Nat) : Int) k).1 = .ok () ∧
          (processCloseFile p ((h + 1 : Nat) : Int) k).2.processes =
            (k.setHandle p process h 0).processes ∧
          Emptied (· = i) k.fs (processCloseFile p ((h + 1 : Nat) : Int) k).2.fs) ∧
      (∀ p process leaks, k.processes p = some process →
        (processTerminate p leaks k).processes = Function.update k.processes p none ∧
          Emptied (HandleFrom process 0) k.fs (processTerminate p leaks k).fs) := by
  have hg := hk.good
  refine ⟨hg.inStep, fun path mode => ?_, fun p path mode n hn => ?_,
    fun p process h i hp hh hfd => ?_, fun p process leaks hp =>
      (processTerminate_spec hg hp leaks).2⟩
  · have hcourse := fat16Open_spec (hg.sane.tidy hg.mounted) path mode
    rw [Prog.ends_iff] at hcourse
    have hfiles : (fat16Open path mode k.fs).2.files = k.fs.files := by
      cases open_effect hcourse with
      | refused _ hn => exact hn.files
      | opened _ _ _ hfiles => exact hfiles
    rw [hfiles]
    exact hg.room
  · cases (processOpenFile_spec (p := p) hg path mode).1 with
    | refused hr =>
      rw [hr] at hn
      cases hn
    | opened process h i addr priv own hp hh hr hfree hfiles hslips _ hset =>
      rw [hr] at hn
      cases hn
      obtain ⟨hzero, -, hlt, hlow⟩ := freeHandle_spec _ hh
      have hdriver := congrArg (List.map Prod.fst) hslips
      rw [List.map_cons, slips_addrs, slips_addrs] at hdriver
      have hprocesses := congrArg Kernel.processes hset
      exact ⟨process, hp, by omega, by omega, hzero, fun g hgl => hlow g (Nat.zero_le g) hgl, i,
        hfree, hprocesses, addr, priv, hfiles, hdriver⟩
  · have hnat : (((h + 1 : Nat) : Int) - 1).toNat = h := by omega
    obtain ⟨hstate, hreply⟩ := processCloseFile_eq hp ((h + 1 : Nat) : Int)
      (by omega) (by omega) (by rw [hnat]; omega)
    rw [hnat] at hstate hreply
    obtain ⟨-, hprocs, hemptied⟩ := closeHandle_spec hg hp hh
    have hname : names k.processes (p * fileMaxOpen + h) = some (i + 1) := by
      rw [names_handle hp hh, hfd, if_pos (by omega), Int.toNat_natCast]
    obtain ⟨j, d, own, hj, hjl, hd, hindex, hmem⟩ := hg.slot (handle_lt (hg.few p process hp) hh)
      hname
    obtain rfl : i = j := by omega
    have hset : (fun j => process.files h = ((j + 1 : Nat) : Int)) = (· = i) := by
      funext j
      rw [hfd]
      exact propext ⟨fun he => by omega, fun he => by omega⟩
    rw [hset] at hemptied
    refine ⟨?_, by rw [hstate]; exact hprocs, by rw [hstate]; exact hemptied⟩
    rw [hreply, hfd]
    exact (fclose_effect hjl hd hindex hmem hg.accounted).1

/-- A process on the small volume. -/
def oneProcess : Kernel :=
  loadProcess 0 [4096] { fs := smallMount fun _ => .done, processes := fun _ => none }

theorem oneProcess_reached : Reached oneProcess := by
  have hmount : (fat16Resolve (smallBoot fun _ => .done)).1 = .ok () := by decide +kernel
  exact .step (.mounted _ _ _ hmount) (.load 0 [4096]) trivial

/-- Its first open gives handle 1, and the tables are in step after it. -/
theorem handle_tables_open :
    (processOpenFile 0 smallPath .read oneProcess).1 = .ok 1 ∧
      InStep (processOpenFile 0 smallPath .read oneProcess).2 := by
  refine ⟨by decide +kernel, ?_⟩
  exact (handle_tables (.step oneProcess_reached (.openFile 0 smallPath .read) trivial)).1

end Rorthox.Tasks
