import Rorthox.Fat.Tenancy

/-!
# Mutations against a loss of power

A loss of power in a phase leaves its stores done, undone or done in part. Either they concern
no tenant, or the phase is one store within a sector and leads from one tenancy to the next.
So both copies of the FAT are sound wherever the power goes.
-/

namespace Rorthox.Fat

open Lib Disk

/-! ## Torn phases -/

/-- What a loss of power during these stores can leave of `base`. -/
structure Torn (stores : List Store) (base c : Bytes) : Prop where
  outside : ∀ p, (∀ st ∈ stores, p < st.pos ∨ st.pos + st.len ≤ p) → c p = base p
  single : ∀ st, stores = [st] → st.Single → c = base ∨ c = st.apply base

variable {c : Bytes} {chain : List Nat} {entry : DirItem}

theorem InPhase.torn {origin img : Bytes} {phases : List Phase} {log : List Event}
    (h : InPhase origin phases img log) (hc : CrashImage origin log c) :
    ∃ k, k ≤ phases.length ∧ Torn (phaseStores phases k) (applyPhases (phases.take k) img) c := by
  obtain ⟨k, hk, hm⟩ := h
  have hsector : ∀ p, ∃ j, ∀ q, q / sectorSize = p / sectorSize →
      c q = applyStores ((phaseStores phases k).take j) (applyPhases (phases.take k) img) q := by
    intro p
    obtain ⟨im, ⟨j, rfl⟩, hsame⟩ := hm.crash ⟨0, rfl⟩ hc (p / sectorSize)
    refine ⟨j, fun q hq => ?_⟩
    have h1 := hsame (q % sectorSize) (Nat.mod_lt q (by decide))
    rwa [← hq, Nat.mul_comm, Nat.div_add_mod] at h1
  have hout : ∀ p, (∀ st ∈ phaseStores phases k, p < st.pos ∨ st.pos + st.len ≤ p) →
      c p = applyPhases (phases.take k) img p := by
    intro p hp
    obtain ⟨j, hj⟩ := hsector p
    rw [hj p rfl, applyStores_outside fun st hst => hp st (List.mem_of_mem_take hst)]
  refine ⟨k, hk, hout, fun st hone hsingle => ?_⟩
  rw [hone] at hsector hout
  -- the store stays in one sector, so the other sectors are as before
  have hrange : ∀ p, p / sectorSize ≠ st.pos / sectorSize → p < st.pos ∨ st.pos + st.len ≤ p := by
    intro p hp
    unfold Store.Single at hsingle
    unfold sectorSize at hsingle hp
    omega
  have helse : ∀ p, p / sectorSize ≠ st.pos / sectorSize →
    c p = applyPhases (phases.take k) img p :=
    fun p hp => hout p fun st' hst' => by rw [List.mem_singleton.mp hst']; exact hrange p hp
  obtain ⟨j, hj⟩ := hsector st.pos
  cases j with
  | zero =>
    refine Or.inl (funext fun p => ?_)
    by_cases hp : p / sectorSize = st.pos / sectorSize
    · exact hj p hp
    · exact helse p hp
  | succ j =>
    refine Or.inr (funext fun p => ?_)
    by_cases hp : p / sectorSize = st.pos / sectorSize
    · rw [hj p hp, List.take_of_length_le (by simp)]
      rfl
    · rw [helse p hp, Store.apply_outside (hrange p hp)]

/-! ## Guarded phases -/

/-- Each copy of the FAT is sound for its tenancy. -/
def Both (T : Nat → Tenancy) (v : FatPrivate) (img : Bytes) : Prop :=
  ∀ copy, copy ≤ 1 → (T copy).Sound v img copy

/-- Only the file at `pos` has another chain. -/
structure SameBut (pos : Nat) (T T' : Nat → Tenancy) : Prop where
  dir : ∀ copy, (T' copy).dir = (T copy).dir
  file : ∀ copy q, q ≠ pos → (T' copy).file q = (T copy).file q

theorem SameBut.refl (pos : Nat) (T : Nat → Tenancy) : SameBut pos T T :=
  ⟨fun _ => rfl, fun _ _ _ => rfl⟩

theorem SameBut.trans {pos : Nat} {T T' T'' : Nat → Tenancy} (h : SameBut pos T T')
    (h' : SameBut pos T' T'') : SameBut pos T T'' :=
  ⟨fun copy => (h'.dir copy).trans (h.dir copy), fun copy q hq =>
    (h'.file copy q hq).trans (h.file copy q hq)⟩

theorem sameBut_set (t : Tenancy) (pos : Nat) (chain : List Nat)
    (k : Nat → Prop) [DecidablePred k] :
    SameBut pos (fun _ => t) (fun copy => if k copy then t.set pos chain else t) := by
  refine ⟨fun copy => by split <;> rfl, fun copy q hq => ?_⟩
  split
  · exact Function.update_of_ne hq _ _
  · rfl

/-- Phases that store `item` at `pos` and lead from tenancy to tenancy. The copies of the FAT have
one tenancy at the end, and wherever the drive, which takes `n` sectors, can refuse a store. -/
inductive Guarded (v : FatPrivate) (n pos : Nat) (item : DirItem) :
    (Nat → Tenancy) → Bytes → List Phase → Prop where
  | done {t : Tenancy} {img : Bytes} : Guarded v n pos item (fun _ => t) img []
  | idle {t : Tenancy} {img : Bytes} {ph : Phase} {phases : List Phase}
    (hst : ∀ st ∈ ph.stores, t.Idle v pos st)
      (h : Guarded v n pos item (fun _ => t) (applyStores ph.stores img) phases) :
      Guarded v n pos item (fun _ => t) img (ph :: phases)
  | step {T T' : Nat → Tenancy} {img : Bytes} {ph : Phase} {st : Store} {phases : List Phase}
      (hone : ph.stores = [st]) (hsingle : st.Single)
      (hin : (∃ t, T = fun _ => t) ∨ st.pos + st.len ≤ n * sectorSize) (hsame : SameBut pos T T')
      (hspares : (T 0).Spares v pos item img (st.apply img)) (hnext : Both T' v (st.apply img))
      (h : Guarded v n pos item T' (st.apply img) phases) :
        Guarded v n pos item T img (ph :: phases)

section

variable {t : Tenancy} {T : Nat → Tenancy} {v : FatPrivate} {img : Bytes} {n pos : Nat}
  {item : DirItem} {phases : List Phase}

theorem Both.stores (hs : Both (fun _ => t) v img) (hf : Fitted v n) {stores : List Store}
    (hst : ∀ st ∈ stores, t.Idle v pos st) :
    Both (fun _ => t) v (applyStores stores img) ∧ t.SameSlots v img (applyStores stores img) := by
  have hkeep : ∀ {copy p}, copy ≤ 1 → t.Reads v copy p → applyStores stores img p = img p :=
    fun hcopy hp =>
    applyStores_outside fun st hm => (hst st hm).outside (hs _ hcopy) hf hcopy hp
  exact ⟨fun copy hcopy => (hs copy hcopy).congr fun p hp => hkeep hcopy hp,
    fun first f i k hat hi hk => hkeep (Nat.zero_le 1) (.slot hat hi hk)⟩

/-- A loss of power among idle stores. -/
theorem Both.torn (hs : Both (fun _ => t) v img) (hf : Fitted v n) (item : DirItem)
    {stores : List Store} (hst : ∀ st ∈ stores, t.Idle v pos st) (hc : Torn stores img c) :
    Both (fun _ => t) v c ∧ t.Spares v pos item img c := by
  have hkeep : ∀ {copy p}, copy ≤ 1 → t.Reads v copy p → c p = img p := fun hcopy hp =>
    hc.outside _ fun st hm => (hst st hm).outside (hs _ hcopy) hf hcopy hp
  refine ⟨fun copy hcopy => (hs copy hcopy).congr fun p hp => hkeep hcopy hp,
    .of_outside (fun first f i k hat hi hk => hkeep (Nat.zero_le 1) (.slot hat hi hk))
      fun q d p hq hd hp => ?_⟩
  exact hc.outside _ fun st hm => (hst st hm).others (hs 0 (Nat.zero_le 1)) hf hq hd hp

theorem torn_stores (stores : List Store) (img : Bytes) :
    Torn stores img (applyStores stores img) := by
  refine ⟨fun p hp => applyStores_outside hp, fun st hone _ => Or.inr ?_⟩
  rw [hone]
  rfl

theorem Guarded.drop (hf : Fitted v n) (h : Guarded v n pos item T img phases) :
    ∀ (k : Nat), Both T v img →
    ∃ T', SameBut pos T T' ∧ (T 0).Spares v pos item img (applyPhases (phases.take k) img) ∧
      Both T' v (applyPhases (phases.take k) img) ∧
      Guarded v n pos item T' (applyPhases (phases.take k) img) (phases.drop k) := by
  have hrefl : ∀ (t : Tenancy) im, t.Spares v pos item im im := fun t im =>
    ⟨fun _ _ _ _ _ => Or.inl rfl, fun _ _ _ _ _ _ => rfl⟩
  induction h with
  | done =>
    intro k hs
    rw [List.take_nil, List.drop_nil]
    exact ⟨_, .refl _ _, hrefl _ _, hs, .done⟩
  | @idle t img ph phases hst h ih =>
    intro k hs
    cases k with
    | zero => exact ⟨_, .refl _ _, hrefl _ _, hs, .idle hst h⟩
    | succ k =>
      obtain ⟨hs', hspares⟩ := hs.torn hf item hst (torn_stores ph.stores img)
      obtain ⟨T', hsame, hspares', hrest⟩ := ih k hs'
      exact ⟨T', hsame, hspares.trans hspares' rfl fun _ _ => rfl, hrest⟩
  | @step T T' img ph st phases hone hsingle hin hsame hspares hnext h ih =>
    intro k hs
    cases k with
    | zero => exact ⟨_, .refl _ _, hrefl _ _, hs, .step hone hsingle hin hsame hspares hnext h⟩
    | succ k =>
      obtain ⟨T'', hsame', hspares', hrest⟩ := ih k hnext
      have himg : applyPhases ((ph :: phases).take (k + 1)) img =
          applyPhases (phases.take k) (st.apply img) := by
        change applyPhases (phases.take k) (applyStores ph.stores img) = _
        rw [hone]
        rfl
      rw [himg]
      exact ⟨T'', hsame.trans hsame', hspares.trans hspares' (hsame.dir 0) (hsame.file 0), hrest⟩

theorem phaseStores_drop (phases : List Phase) (k : Nat) :
    phaseStores phases k = phaseStores (phases.drop k) 0 := by
  unfold phaseStores
  rw [List.getElem?_drop, Nat.add_zero]

/-- Wherever the power goes, both copies are sound and the other files are spared. -/
theorem Guarded.torn (hf : Fitted v n) (h : Guarded v n pos item T img phases) (hs : Both T v img)
    {k : Nat} (hc : Torn (phaseStores phases k) (applyPhases (phases.take k) img) c) :
    ∃ T', SameBut pos T T' ∧ (T 0).Spares v pos item img c ∧ Both T' v c := by
  obtain ⟨T', hsame, hspares, hs', hrest⟩ := h.drop hf k hs
  rw [phaseStores_drop] at hc
  generalize applyPhases (phases.take k) img = base at *
  generalize phases.drop k = rest at hrest hc
  cases hrest with
  | done =>
    obtain rfl : c = base := funext fun p => hc.outside p fun st hst => (by cases hst)
    exact ⟨_, hsame, hspares, hs'⟩
  | idle hst _ =>
    obtain ⟨hs'', hspares'⟩ := hs'.torn hf item hst hc
    exact ⟨_, hsame, hspares.trans hspares' (hsame.dir 0) (hsame.file 0), hs''⟩
  | @step _ T'' _ ph st rest hone hsingle _ hsame' hspares' hnext _ =>
    rcases hc.single st hone hsingle with rfl | rfl
    · exact ⟨T', hsame, hspares, hs'⟩
    · exact ⟨T'', hsame.trans hsame', hspares.trans hspares' (hsame.dir 0) (hsame.file 0), hnext⟩

/-- At the end, and where a store is refused, the copies have one tenancy. -/
theorem Guarded.even (hf : Fitted v n) (h : Guarded v n pos item T img phases) (hs : Both T v img)
    {k : Nat}
    (hk : phases.length ≤ k ∨ ∃ st, phaseStores phases k = [st] ∧ n * sectorSize <
      st.pos + st.len) :
    ∃ t, SameBut pos T (fun _ => t) ∧ Both (fun _ => t) v (applyPhases (phases.take k) img) := by
  obtain ⟨T', hsame, -, hs', hrest⟩ := h.drop hf k hs
  have hone : ∃ t, T' = fun _ => t := by
    rw [phaseStores_drop, ← List.drop_eq_nil_iff] at hk
    generalize phases.drop k = rest at hrest hk
    cases hrest with
    | done | idle _ _ => exact ⟨_, rfl⟩
    | @step _ _ _ ph st rest hone _ hin _ _ _ _ =>
      refine hin.resolve_right fun hle => ?_
      rcases hk with hnil | ⟨st', hst', hlt⟩
      · cases hnil
      · have he : [st] = [st'] := hone.symm.trans hst'
        obtain rfl : st = st' := List.singleton_inj.mp he
        omega
  obtain ⟨t, rfl⟩ := hone
  exact ⟨t, hsame, hs'⟩

/-! ## The phases of the driver -/

theorem threaded_nil (v : FatPrivate) (img : Bytes) (copy : Nat) : Threaded v img copy [] :=
  ⟨trivial, fun c hm => (by cases hm), List.nodup_nil⟩

theorem fatStore_single (v : FatPrivate) (copy c value : Nat) :
    (fatStore v copy c value).Single := by
  unfold Store.Single fatStore fatEntryPos sectorSize
  dsimp only
  omega

theorem Both.commit (hs : Both (fun _ => t) v img) (hf : Fitted v n) (hr : Room t.folders v img pos)
    (hnew : ∀ copy, copy ≤ 1 → Threaded v img copy chain)
    (hown : ∀ c ∈ chain, c ∈ t.file pos ∨ ¬ t.Claims c)
    (hadmits : (t.set pos chain).Admits v pos item)
    (h : Guarded v n pos item (fun _ => t.set pos chain) ((entryStore pos item).apply img) phases) :
    Guarded v n pos item (fun _ => t) img (commitPhase pos item :: phases) := by
  have hsame : SameBut pos (fun _ => t) (fun _ => t.set pos chain) :=
    ⟨fun _ => rfl, fun _ _ hq => Function.update_of_ne hq _ _⟩
  refine .step rfl ?_ (Or.inl ⟨t, rfl⟩) hsame ((hs 0 (Nat.zero_le 1)).spares_commit hf hr item)
    (fun copy hcopy => (hs copy hcopy).commit hf hcopy hr (hnew copy hcopy) hown hadmits) h
  have hp := hr.aligned
  change pos % sectorSize + 32 ≤ sectorSize
  unfold sectorSize
  omega

/-- A chain is given by its head. -/
theorem Linked.unique {copy : Nat} {a : List Nat} : ∀ {b : List Nat}, Linked v img copy a →
    Linked v img copy b →
    (∀ c ∈ a, fat16ValidCluster v c) → (∀ c ∈ b, fat16ValidCluster v c) → a.headD 0 = b.headD 0 →
      a = b := by
  induction a with
  | nil =>
    intro b _ _ _ hb hh
    cases b with
    | nil => rfl
    | cons d b =>
      have h1 := (hb d List.mem_cons_self).1
      have h2 : 0 = d := hh
      omega
  | cons c a ih =>
    intro b hla hlb ha hb hh
    cases b with
    | nil =>
      have h1 := (ha c List.mem_cons_self).1
      have h2 : c = 0 := hh
      omega
    | cons d b =>
      obtain rfl : c = d := hh
      congr 1
      have ha' : ∀ e ∈ a, fat16ValidCluster v e := fun e he => ha e (List.mem_cons_of_mem _ he)
      have hb' : ∀ e ∈ b, fat16ValidCluster v e := fun e he => hb e (List.mem_cons_of_mem _ he)
      apply ih hla.tail hlb.tail ha' hb'
      cases a with
      | nil =>
        cases b with
        | nil => rfl
        | cons e b => exact absurd (hlb.1 ▸ hb' e List.mem_cons_self) (eoc_not_valid hla)
      | cons e a =>
        cases b with
        | nil => exact absurd (hla.1 ▸ ha' e List.mem_cons_self) (eoc_not_valid hlb)
        | cons e' b => exact hla.1.symm.trans hlb.1

/-- The chain the driver collects is the one of the tenancy. -/
theorem Tenancy.Sound.chain_eq (h : t.Sound v img 0) (hh : t.folders.Holds v img pos entry)
    (hc : chainOf v img entry = .ok chain) : t.file pos = chain := by
  obtain ⟨⟨first, f, i, hat, hlive, rfl⟩, hload, hshown, hfile⟩ := hh
  have hadmits := h.entries first f i hat hlive
  rw [← hload] at hadmits
  have hbacked := hadmits hshown
  rw [if_neg (not_not.mpr hfile)] at hbacked
  have hchain := ((chainOf_ok_iff entry chain).mp hc).2.2.1
  exact (h.files _).linked.unique hchain.linked (h.files _).valid
    (fun c hm => (hchain.writable c hm).1) (hbacked.1.symm.trans hchain.head.symm)

/-- The entry of a file with another first cluster and size. -/
theorem Tenancy.admits_rewritten (t : Tenancy) {size : Nat}
    (hfile : entry.attrib &&& fileSubdirectory = 0) (hv : ∀ c ∈ chain, fat16ValidCluster v c)
    (hlt : size < 2 ^ 32) (hsize : size ≤ chain.length * clusterBytes v) :
    (t.set pos chain).Admits v pos (rewritten entry (chain.headD 0) size) := by
  intro _
  have hfirst : chain.headD 0 < 2 ^ 16 := by
    cases chain with
    | nil => decide
    | cons c chain => exact valid_lt (hv c List.mem_cons_self)
  have hset : (t.set pos chain).file pos = chain := Function.update_self _ _ _
  rw [rewritten_attrib, (archived_marks entry.attrib).2, if_neg (not_not.mpr hfile),
    rewritten_first _ _ hfirst, rewritten_filesize _ _ hlt, hset]
  exact ⟨rfl, hsize⟩

/-- Truncation: first the entry, then the entries of the clusters it led to. -/
theorem guarded_truncate (hf : Fitted v n) (hs : Both (fun _ => t) v img)
    (hh : t.folders.Holds v img pos entry) (hc : chainOf v img entry = .ok chain) :
    Guarded v n pos (emptied entry) (fun _ => t) img (truncatePhases v entry pos chain) := by
  have h0 := hs 0 (Nat.zero_le 1)
  have hfile : t.file pos = chain := h0.chain_eq hh hc
  have hfree : ∀ c ∈ chain, ¬ (t.set pos []).Claims c := by
    rintro c hm (⟨first, ch, hd, hm'⟩ | ⟨q, hm'⟩)
    · exact h0.apart first ch pos c hd hm' (hfile ▸ hm)
    · rcases Tenancy.mem_set.mp hm' with ⟨-, hnil⟩ | ⟨hq, hm'⟩
      · cases hnil
      · exact hq (h0.files_apart q pos c hm' (hfile ▸ hm))
  have hidle : ∀ copy, copy ≤ 1 → ∀ st ∈ (Phase.plain (setStores v copy 0 chain)).stores,
      (t.set pos []).Idle v pos st := by
    intro copy hcopy st hst
    obtain ⟨c, hm, rfl⟩ := List.mem_map.mp hst
    have hlimit : c ≤ fat16ClusterLimit v := ((h0.files pos).valid c (hfile ▸ hm)).2.1
    exact .link hcopy hlimit (hfree c hm)
  refine hs.commit hf hh.room (fun _ _ => threaded_nil _ _ _) (fun c hm => (by cases hm))
    (t.admits_rewritten hh.file (fun c hm => (by cases hm)) (by decide) (Nat.zero_le _)) ?_
  unfold freePhases
  split
  · exact .idle (hidle 0 (Nat.zero_le 1)) (.idle (hidle 1 le_rfl) .done)
  · exact .done

theorem Room.of_chain {a : Allotment} (h : Room a v img pos) (b : Allotment)
    (hb : b.chain = a.chain) : Room b v img pos := by
  obtain ⟨first, f, i, hat, hrest⟩ := h.place
  exact ⟨first, f, i, hat.of_chain b hb, hrest⟩

/-- Creation: an empty file. -/
theorem guarded_create (hf : Fitted v n) (hs : Both (fun _ => t) v img)
    (hr : Room t.folders v img pos)
    {name base ext : List UInt8} (hname : shortName name false [] [] = .ok (base, ext)) :
    Guarded v n pos (newEntry base ext) (fun _ => t) img [commitPhase pos (newEntry base ext)] := by
  obtain ⟨hb, he⟩ := shortName_lengths name (Nat.zero_le _) (Nat.zero_le _) hname
  refine hs.commit hf hr (fun _ _ => threaded_nil _ _ _) (fun c hm => (by cases hm))
    (fun _ => ?_) .done
  have hset : (t.set pos []).file pos = [] := Function.update_self _ _ _
  rw [newEntry_attrib hb he, if_neg (by decide), newEntry_first hb he, newEntry_filesize hb he,
    hset]
  exact ⟨rfl, Nat.zero_le _⟩

/-- More clusters for a file: their links in both copies, then the link to the first of them in one
copy after the other. -/
theorem guarded_extend (hf : Fitted v n) (hs : Both (fun _ => t) v img) {old fresh : List Nat}
    (hold : t.file pos = old) (hn : (old ++ fresh).Nodup) (hw : ∀ c ∈ old ++ fresh, Writable v c)
    (hfree : ∀ c ∈ fresh, ¬ t.Claims c) {rest : List Phase}
    (hrest : ∀ t' img', t'.dir = t.dir → Both (fun _ => t') v img' →
      (∀ copy, copy ≤ 1 → Threaded v img' copy (old ++ fresh)) →
      (∀ c ∈ old ++ fresh, c ∈ t'.file pos ∨ ¬ t'.Claims c) → t.SameSlots v img img' →
      Guarded v n pos item (fun _ => t') img' rest) :
    Guarded v n pos item (fun _ => t) img (extendPhases v old fresh ++ rest) := by
  unfold extendPhases tailPhases
  by_cases hfresh : fresh ≠ []
  swap
  · obtain rfl : fresh = [] := not_not.mp hfresh
    rw [List.append_nil] at hrest
    refine hrest t img rfl hs (fun copy hcopy => hold ▸ (hs copy hcopy).files pos)
      (fun c hc => Or.inl (hold ▸ hc)) fun _ _ _ _ _ _ _ => rfl
  rw [if_pos hfresh]
  have hlimit : ∀ c ∈ old ++ fresh, c ≤ fat16ClusterLimit v := fun c hc => (hw c hc).1.2.1
  have hlimit' : ∀ c ∈ fresh, c ≤ fat16ClusterLimit v :=
    fun c hc => hlimit c (List.mem_append_right _ hc)
  have hwf : ∀ c ∈ fresh, Writable v c := fun c hc => hw c (List.mem_append_right _ hc)
  have hnf : fresh.Nodup := (List.nodup_append.mp hn).2.1
  have hidle : ∀ copy, copy ≤ 1 → ∀ st ∈ (Phase.plain (linkStores v copy fresh)).stores,
      t.Idle v pos st := by
    intro copy hcopy st hst
    obtain ⟨c, hc, value, rfl⟩ := fatStores_link copy fresh st hst
    exact .link hcopy (hlimit' c hc) (hfree c hc)
  obtain ⟨hs1, hslots1⟩ := hs.stores hf (hidle 0 (Nat.zero_le 1))
  obtain ⟨hs2, hslots2⟩ := hs1.stores hf (hidle 1 le_rfl)
  have hnew : ∀ copy, copy ≤ 1 → Linked v (applyStores (linkStores v 1 fresh)
      (applyStores (linkStores v 0 fresh) img)) copy fresh := by
    intro copy hcopy
    rcases Nat.le_one_iff_eq_zero_or_eq_one.mp hcopy with rfl | rfl
    · exact (linked_fresh hf hcopy fresh img hnf hwf).congr fun c hc =>
        (fatStores_link 1 fresh).other hf le_rfl hlimit' hcopy (hlimit' c hc) fun h =>
          absurd h (by decide)
    · exact linked_fresh hf hcopy fresh _ hnf hwf
  refine .idle (hidle 0 (Nat.zero_le 1)) (.idle (hidle 1 le_rfl) ?_)
  have hslots := hslots1.trans hslots2
  change t.SameSlots v img (applyStores (linkStores v 1 fresh)
    (applyStores (linkStores v 0 fresh) img)) at hslots
  change Guarded v n pos item _ (applyStores (linkStores v 1 fresh)
    (applyStores (linkStores v 0 fresh) img)) _
  change Both _ v (applyStores (linkStores v 1 fresh)
    (applyStores (linkStores v 0 fresh) img)) at hs2
  generalize applyStores (linkStores v 1 fresh) (applyStores (linkStores v 0 fresh) img) = img2 at *
  by_cases ho : old ≠ []
  swap
  · obtain rfl : old = [] := not_not.mp ho
    rw [if_neg ho]
    exact hrest t img2 rfl hs2 (fun copy hcopy => ⟨hnew copy hcopy, fun c hc => (hwf c hc).1, hnf⟩)
      (fun c hc => Or.inr (hfree c hc)) hslots
  rw [if_pos ho]
  have hlast := hw _ (List.mem_append_left _ (getLastD_mem ho))
  have hbelow : ∀ copy, copy ≤ 1 → fatEntryPos v copy (old.getLastD 0) + 2 ≤ rootSector v.header *
    sectorSize :=
    fun copy hcopy => (hf.fat_end hcopy hlast.1.2.1).2.1
  -- the first copy has the longer chain, the second one still the old one
  have hs3 := (hs2 0 (Nat.zero_le 1)).tail hf (Nat.zero_le 1) hold ho hfresh hn hw hfree
    (hnew 0 (Nat.zero_le 1))
  have hs3' : t.Sound v ((fatStore v 0 (old.getLastD 0) (fresh.headD 0)).apply img2) 1 :=
    (hs2 1 le_rfl).congr fun p hp => Store.apply_outside
      (hp.fatStore (hs2 1 le_rfl) hf le_rfl (Nat.zero_le 1) hlast.1.2.1 fun h =>
        absurd h (by decide))
  have hslots3 := (hs2 0 (Nat.zero_le 1)).sameSlots hf
    (fatStore v 0 (old.getLastD 0) (fresh.headD 0)) (hbelow 0 (Nat.zero_le 1)) img2
  have hnew3 : Linked v ((fatStore v 0 (old.getLastD 0) (fresh.headD 0)).apply img2) 1 fresh :=
    (hnew 1 le_rfl).congr fun c hc => fatAt_store_ne hf (Nat.zero_le 1) hlast.1.2.1 le_rfl
      (hlimit' c hc) (fun h => absurd h.1 (by decide)) _
  -- both have it
  have hs4 := hs3'.tail hf le_rfl hold ho hfresh hn hw hfree hnew3
  have hs4' : (t.set pos (old ++ fresh)).Sound v ((fatStore v 1 (old.getLastD 0)
    (fresh.headD 0)).apply
      ((fatStore v 0 (old.getLastD 0) (fresh.headD 0)).apply img2)) 0 := hs3.congr fun p hp =>
        Store.apply_outside
    (hp.fatStore hs3 hf (Nat.zero_le 1) le_rfl hlast.1.2.1 fun h => absurd h (by decide))
  have hslots4 := hs3'.sameSlots hf (fatStore v 1 (old.getLastD 0) (fresh.headD 0))
    (hbelow 1 le_rfl) ((fatStore v 0 (old.getLastD 0) (fresh.headD 0)).apply img2)
  have hboth : Both (fun _ => t.set pos (old ++ fresh)) v
    ((fatStore v 1 (old.getLastD 0) (fresh.headD 0)).apply
      ((fatStore v 0 (old.getLastD 0) (fresh.headD 0)).apply img2)) := by
    intro copy hcopy
    rcases Nat.le_one_iff_eq_zero_or_eq_one.mp hcopy with rfl | rfl
    · exact hs4'
    · exact hs4
  have hset : (t.set pos (old ++ fresh)).file pos = old ++ fresh := Function.update_self _ _ _
  have hstep := sameBut_set t pos (old ++ fresh) (· = 0)
  have hstep' : SameBut pos (fun copy => if copy = 0 then t.set pos (old ++ fresh) else t)
      (fun _ => t.set pos (old ++ fresh)) :=
    ⟨fun copy => (hstep.dir copy).symm, fun copy q hq =>
      (Function.update_of_ne hq _ _).trans (hstep.file copy q hq).symm⟩
  refine .step rfl (fatStore_single _ _ _ _) (Or.inl ⟨t, rfl⟩) hstep
    ((hs2 0 (Nat.zero_le 1)).spares_link hf (Nat.zero_le 1) hlast.1.2.1 _ _ _ _) ?_
    (.step rfl (fatStore_single _ _ _ _) (Or.inr (fatStore_bound hf _ hlast.2 le_rfl).1) hstep'
      (hs3.spares_link hf le_rfl hlast.1.2.1 _ _ _ _) hboth
      (hrest _ _ rfl hboth (fun copy hcopy => hset ▸ (hboth copy hcopy).files pos)
        (fun c hc => Or.inl (by rw [hset]; exact hc)) ((hslots.trans hslots3).trans hslots4)))
  intro copy hcopy
  rcases Nat.le_one_iff_eq_zero_or_eq_one.mp hcopy with rfl | rfl
  · exact hs3
  · exact hs3'

theorem le_clustersFor (hb : 0 < clusterBytes v) (size : Nat) :
    size ≤ clustersFor v size * clusterBytes v := by
  cases size with
  | zero => exact Nat.zero_le _
  | succ q =>
    exact Nat.succ_le_of_lt ((Nat.div_lt_iff_lt_mul hb).mp (lt_clustersFor v (Nat.lt_succ_self q)))

/-- Writing: the bytes, the links, the entry. -/
theorem guarded_write (hf : Fitted v n) (hs : Both (fun _ => t) v img) {d : FatFileDescriptor}
    {data : Bytes} {count b : Nat} (hh : t.folders.Holds v img d.item.entryPos item)
    (hp : writePlan v img d item data count = .ok (phases, b)) :
    ∃ entry, Guarded v n d.item.entryPos entry (fun _ => t) img phases := by
  obtain ⟨-, -, hint, old, fresh, hold, -, halloc, rfl⟩ := writePlan_ok hp
  obtain ⟨hfree, hn, hw⟩ := alloc_apart hold hf halloc
  obtain ⟨-, hlen, -⟩ := (allocOf_ok_iff _ _ fresh).mp halloc
  have hold_le := ((chainOf_ok_iff item old).mp hold).2.1
  have h0 := hs 0 (Nat.zero_le 1)
  have hfile := h0.chain_eq hh hold
  have hnone : ∀ c ∈ fresh, ¬ t.Claims c := fun c hc hclaim => (h0.claims hclaim).2 (hfree c hc).1
  have hout : ∀ c ∈ old ++ fresh, ∀ first chain, t.dir first = some chain → c ∉ chain := by
    intro c hc first chain hd hm
    rcases List.mem_append.mp hc with hc | hc
    · exact h0.apart first chain _ c hd hm (hfile ▸ hc)
    · exact hnone c hc (Or.inl ⟨first, chain, hd, hm⟩)
  have hmine : ∀ c ∈ old ++ fresh, ∀ q, q ≠ d.item.entryPos → c ∉ t.file q := by
    intro c hc q hq hm
    rcases List.mem_append.mp hc with hc | hc
    · exact hq (h0.files_apart q _ c hm (hfile ▸ hc))
    · exact hnone c hc (Or.inr ⟨q, hm⟩)
  generalize hsize : sizeAfter item (writeStart d item + count) = size at *
  have hroom : size ≤ (old ++ fresh).length * clusterBytes v := by
    rw [List.length_append, hlen]
    exact le_clustersFor hf.clusterBytes_pos size
  have hlt : size < 2 ^ 32 := by
    have hmax : intMax < 2 ^ 32 := by decide
    rw [← hsize]
    unfold sizeAfter
    split <;> omega
  have hbytes : ∀ st ∈ (Phase.plain (zeroStores v fresh ++
      dataStores v (old ++ fresh) data count (writeStart d item) count 0)).stores,
      t.Idle v d.item.entryPos st := by
    intro st hst
    rcases List.mem_append.mp hst with hst | hst
    · obtain ⟨c, hc, -, -, hlo, hhi⟩ := mem_zeroStores hst
      have hmem := List.mem_append_right old hc
      refine .data (hout c hmem) (hmine c hmem) (hw c hmem).1.1 hlo ?_
      rwa [Nat.add_mul] at hhi
    · obtain ⟨q, h1, h2, h3, h4, h5, -⟩ := mem_dataStores hf.clusterBytes_pos hst
      have hidx : q / clusterBytes v < (old ++ fresh).length := by
        rw [List.length_append, hlen, ← hsize]
        exact lt_clustersFor v (by have := le_sizeAfter item (writeStart d item + count); omega)
      have hc := getD_mem hidx
      exact .data (hout _ hc) (hmine _ hc) (hw _ hc).1.1 (by omega) (by omega)
  obtain ⟨hs1, hslots1⟩ := hs.stores hf hbytes
  refine ⟨rewritten item ((old ++ fresh).headD 0) size,
    .idle hbytes (guarded_extend hf hs1 hfile hn hw hnone ?_)⟩
  intro t' img' hdir hs' hthread hown hslots
  have hroot : t'.folders = t.folders := congrArg (Allotment.mk · _) hdir
  refine hs'.commit hf ?_ hthread hown (t'.admits_rewritten hh.file (fun c hc => (hw c hc).1) hlt
    hroom) .done
  rw [hroot]
  exact (hslots1.trans hslots).room hh.room

/-- Opening for writing: creation, truncation, or nothing. -/
theorem guarded_open (hf : Fitted v n) (hs : Both (fun _ => t) v img) {a : Allotment}
    (ha : a.chain = t.dir)
    (h : Readable a v img) {path : List (List UInt8)} {mode : FileMode} (hmode : mode ≠ .read)
    {item : FatItem}
    (hp : openPlan v img path mode = .ok (phases, item)) :
    ∃ pos entry, Guarded v n pos entry (fun _ => t) img phases := by
  rcases openPlan_ok hmode hp with ⟨-, hc⟩ |
    ⟨found, addr, entry, hl, hnode, -, ⟨-, chain, hchain, rfl, rfl⟩ | ⟨-, -, rfl, rfl⟩⟩
  · obtain ⟨start, last, slot, base, ext, hparent, -, hslot, hname, rfl, rfl⟩ := createPlan_ok hc
    obtain ⟨⟨f, hat⟩, -⟩ := h.parentOf path h.root hparent
    have hroom := h.roomFrom hat (fun j hj => absurd hj (by omega)) (fun p hp => (by cases hp))
      hslot
    exact ⟨_, _, guarded_create hf hs (hroom.of_chain t.folders ha.symm) hname⟩
  · have hfound := h.lookup hl
    unfold Allotment.Found at hfound
    rw [hnode] at hfound
    exact ⟨_, _, guarded_truncate hf hs (hfound.of_chain t.folders ha.symm) hchain⟩
  · exact ⟨0, DirItem.zero, .done⟩

end

end Rorthox.Fat
