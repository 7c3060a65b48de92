import Rorthox.Fat.Content

/-!
# Who has which clusters

A volume is sound when every directory and every file has a chain of its own and every entry
leads to the chain of its tenant. Soundness is a matter of one copy of the FAT: while a
mutation is under way the two copies differ.
-/

namespace Rorthox.Fat

open Lib Disk

/-- The clusters of directories by their first cluster, those of files by the place of their entry.
-/
structure Tenancy where
  dir : Nat → Option (List Nat)
  file : Nat → List Nat

/-- A copy of the FAT leads through different clusters to an end mark. -/
structure Threaded (v : FatPrivate) (img : Bytes) (copy : Nat) (chain : List Nat) : Prop where
  linked : Linked v img copy chain
  valid : ∀ c ∈ chain, fat16ValidCluster v c
  nodup : chain.Nodup

theorem Threaded.congr {v : FatPrivate} {img img' : Bytes} {copy : Nat} {chain : List Nat}
    (h : Threaded v img copy chain) (hfat : ∀ c ∈ chain, fatAt v img' copy c = fatAt v img copy c) :
    Threaded v img' copy chain :=
  ⟨h.linked.congr hfat, h.valid, h.nodup⟩

namespace Tenancy

section

variable (t : Tenancy) (v : FatPrivate)

/-- The directories, as places of entries. -/
def folders : Allotment := ⟨t.dir, fun _ => False⟩

/-- The cluster has a tenant. -/
def Claims (c : Nat) : Prop :=
  (∃ first chain, t.dir first = some chain ∧ c ∈ chain) ∨ ∃ pos, c ∈ t.file pos

/-- The entry at `pos` leads to a directory that is there, or to the chain of its file, and
the bytes of the file fit into it. -/
def Admits (pos : Nat) (entry : DirItem) : Prop :=
  ¬ Skipped entry →
    if entry.attrib &&& fileSubdirectory ≠ 0 then
      entry.lowFirstCluster = 0 ∨ ∃ chain, t.dir entry.lowFirstCluster = some chain
    else entry.lowFirstCluster = (t.file pos).headD 0 ∧
      entry.filesize ≤ (t.file pos).length * clusterBytes v

/-- A copy of the FAT and the directories keep to the tenancy. -/
structure Sound (img : Bytes) (copy : Nat) : Prop where
  dirs : ∀ first chain, t.dir first = some chain →
    chain ≠ [] ∧ chain.headD 0 = first ∧ Threaded v img copy chain
  files : ∀ pos, Threaded v img copy (t.file pos)
  dirs_apart : ∀ first first' chain chain' c, t.dir first = some chain →
    t.dir first' = some chain' → c ∈ chain → c ∈ chain' → first = first'
  files_apart : ∀ pos pos' c, c ∈ t.file pos → c ∈ t.file pos' → pos = pos'
  apart : ∀ first chain pos c, t.dir first = some chain → c ∈ chain → c ∉ t.file pos
  entries : ∀ first f i, t.folders.At v first f → f.Live img i →
    t.Admits v (f.place i) (DirItem.load img (f.place i))

/-- The file at `pos` gets another chain. -/
def set (pos : Nat) (chain : List Nat) : Tenancy :=
  { t with file := Function.update t.file pos chain }

/-- The bytes on which the soundness of a copy rests. -/
inductive Reads (copy : Nat) : Nat → Prop where
  | link {c k : Nat} (hc : t.Claims c) (hk : k < 2) : Reads copy (fatEntryPos v copy c + k)
  | slot {first i k : Nat} {f : Folder} (hat : t.folders.At v first f) (hi : i < f.count)
      (hk : k < 32) : Reads copy (f.place i + k)

/-- Both images hold the same in the directories. -/
def SameSlots (img img' : Bytes) : Prop :=
  ∀ first f i k, t.folders.At v first f → i < f.count → k < 32 → img' (f.place i + k) =
    img (f.place i + k)

/-- A store that concerns no chain: bytes in a cluster of the file at `pos` or of nobody, or the
entry of a cluster of nobody. -/
inductive Idle (pos : Nat) : Store → Prop where
  | data {st : Store} {c : Nat} (hdir : ∀ first chain, t.dir first = some chain → c ∉ chain)
      (hfile : ∀ q, q ≠ pos → c ∉ t.file q) (h2 : 2 ≤ c)
      (hlo : fat16ClusterToSector v c * sectorSize ≤ st.pos)
      (hhi : st.pos + st.len ≤ fat16ClusterToSector v c * sectorSize + clusterBytes v) : Idle pos st
  | link {copy c value : Nat} (hcopy : copy ≤ 1) (hlimit : c ≤ fat16ClusterLimit v)
      (hc : ¬ t.Claims c) : Idle pos (fatStore v copy c value)

/-- From `img` to `img'` at most the entry at `pos` changed, all of it, and no cluster of another
file. -/
structure Spares (pos : Nat) (item : DirItem) (img img' : Bytes) : Prop where
  entries : ∀ first f i, t.folders.At v first f → i < f.count →
    DirItem.load img' (f.place i) = DirItem.load img (f.place i) ∨
      (f.place i = pos ∧ DirItem.load img' (f.place i) = item)
  bytes : ∀ q c p, q ≠ pos → c ∈ t.file q → InCluster v c p → img' p = img p

end

variable {t : Tenancy} {v : FatPrivate} {img img' img'' : Bytes} {copy n c p pos first i k q : Nat}
  {f : Folder} {st : Store} {item : DirItem}

theorem mem_set {chain : List Nat} :
    c ∈ (t.set pos chain).file q ↔ (q = pos ∧ c ∈ chain) ∨ (q ≠ pos ∧ c ∈ t.file q) := by
  change c ∈ Function.update t.file pos chain q ↔ _
  rw [Function.update_apply]
  split <;> simp [*]

/-! ## Same directories -/

section

variable (h : t.SameSlots v img img')
include h

theorem SameSlots.live (hat : t.folders.At v first f) (hl : f.Live img' i) : f.Live img i :=
  hl.congr fun j hj => (h first f j 0 hat hj (by decide)).symm

theorem SameSlots.load (hat : t.folders.At v first f) (hi : i < f.count) :
    DirItem.load img' (f.place i) = DirItem.load img (f.place i) :=
  funext fun k => h first f i k hat hi k.isLt

theorem SameSlots.trans (h' : t.SameSlots v img' img'') :
    t.SameSlots v img img'' := fun first f i k hat hi hk =>
  (h' first f i k hat hi hk).trans (h first f i k hat hi hk)

theorem SameSlots.room (hr : Room t.folders v img pos) : Room t.folders v img' pos := by
  obtain ⟨first, f, i, hat, hi, rfl, hbefore, hend⟩ := hr.place
  have hsame : ∀ j, j < f.count → img' (f.place j) = img (f.place j) := fun j hj =>
    h first f j 0 hat hj (by decide)
  refine ⟨first, f, i, hat, hi, rfl, fun j hj => by rw [hsame j (hj.trans hi)]; exact hbefore j hj,
    ?_⟩
  rw [hsame i hi]
  rcases hend with hused | hlast | hzero
  · exact Or.inl hused
  · exact Or.inr (Or.inl hlast)
  · by_cases hlt : i + 1 < f.count
    · exact Or.inr (Or.inr ((hsame _ hlt).trans hzero))
    · exact Or.inr (Or.inl (by omega))

end

namespace Sound

theorem distinct (h : t.Sound v img copy) : t.folders.Distinct v :=
  ⟨fun first chain hc => (h.dirs first chain hc).2.2.valid,
    fun first chain hc => (h.dirs first chain hc).2.2.nodup, h.dirs_apart⟩

theorem claims (h : t.Sound v img copy) (hc : t.Claims c) :
    fat16ValidCluster v c ∧ fatAt v img copy c ≠ 0 := by
  have hin : ∀ {chain}, Threaded v img copy chain → c ∈ chain → fat16ValidCluster v c ∧
    fatAt v img copy c ≠ 0 :=
    fun ht hm => ⟨ht.valid c hm, ht.linked.entry_ne ht.valid c hm⟩
  rcases hc with ⟨first, chain, hd, hm⟩ | ⟨pos, hm⟩
  · exact hin (h.dirs first chain hd).2.2 hm
  · exact hin (h.files pos) hm

/-- What the driver needs to find its way. -/
theorem fits (h : t.Sound v img 0) : (Allotment.mk t.dir fun c => ∃ pos, c ∈ t.file pos).Fits
    v img := by
  constructor
  · intro first chain hc
    obtain ⟨h1, h2, h3⟩ := h.dirs first chain hc
    exact ⟨h2, h1, h3.linked, h3.valid, h3.nodup⟩
  · exact h.dirs_apart
  · rintro first chain c hc hm ⟨pos, hpos⟩
    exact h.apart first chain pos c hc hm hpos
  · rintro c ⟨pos, hm⟩ - hv
    obtain ⟨k, hk, rfl⟩ := List.getElem_of_mem hm
    rw [← List.getD_eq_getElem _ 0 hk] at hv ⊢
    rcases (h.files pos).linked.getD hk with ⟨h1, h2⟩ | ⟨-, h2⟩
    · rw [h2]
      exact ⟨pos, getD_mem h1⟩
    · exact absurd hv (eoc_not_valid h2)
  · intro first f i hat hlive hshown hv
    have hadmits := h.entries first f i (hat.of_chain t.folders rfl) hlive hshown
    split at hadmits
    · rename_i hsub
      rw [if_pos hsub]
      rcases hadmits with h0 | hdir
      · rw [h0] at hv
        exact absurd hv.1 (by decide)
      · exact hdir
    · rename_i hsub
      rw [if_neg hsub]
      refine ⟨f.place i, ?_⟩
      rw [hadmits.1] at hv ⊢
      cases hchain : t.file (f.place i) with
      | nil =>
        rw [hchain] at hv
        exact absurd hv.1 (by decide)
      | cons c chain => exact List.mem_cons_self

/-- A volume with the same layout. -/
theorem of_layout {w : FatPrivate} (h : t.Sound v img copy) (hh : w.header = v.header)
    (hd : w.rootDirectory.endingSectorPos = v.rootDirectory.endingSectorPos) :
    t.Sound w img copy := by
  have hthread : ∀ {chain}, Threaded v img copy chain → Threaded w img copy chain := fun ht =>
    ⟨ht.linked.congr fun c _ => fatAt_congr hh img copy c, fun c hc =>
      (valid_congr hh hd c).mpr (ht.valid c hc), ht.nodup⟩
  refine ⟨fun first chain hc => ?_, fun pos => hthread (h.files pos), h.dirs_apart, h.files_apart,
    h.apart, ?_⟩
  · obtain ⟨h1, h2, h3⟩ := h.dirs first chain hc
    exact ⟨h1, h2, hthread h3⟩
  · intro first f i hat hlive
    have hentry := h.entries first f i (hat.congr hh.symm hd.symm) hlive
    unfold Admits clusterBytes at hentry ⊢
    rwa [hh]

/-- The other copy, when it has the same entries. -/
theorem mirror (h : t.Sound v img 0) (heq : ∀ c, fat16ValidCluster v c → fatAt v img 1 c =
    fatAt v img 0 c) : t.Sound v img 1 := by
  have hlinked : ∀ {chain}, (∀ c ∈ chain, fat16ValidCluster v c) → Linked v img 0 chain →
      Linked v img 1 chain := by
    intro chain
    induction chain with
    | nil => intro _ _; trivial
    | cons c chain ih =>
      intro hv hl
      have hc := heq c (hv c List.mem_cons_self)
      cases chain with
      | nil =>
        change eocStart ≤ _
        rw [hc]
        exact hl
      | cons d chain =>
        exact ⟨hc.trans hl.1, ih (fun e he => hv e (List.mem_cons_of_mem _ he)) hl.2⟩
  have hthread : ∀ {chain}, Threaded v img 0 chain → Threaded v img 1 chain := fun ht =>
    ⟨hlinked ht.valid ht.linked, ht.valid, ht.nodup⟩
  refine ⟨fun first chain hc => ?_, fun pos => hthread (h.files pos), h.dirs_apart, h.files_apart,
    h.apart, h.entries⟩
  obtain ⟨h1, h2, h3⟩ := h.dirs first chain hc
  exact ⟨h1, h2, hthread h3⟩

/-! ## Changes -/

section

variable (h : t.Sound v img copy)
include h

theorem congr (hread : ∀ p, t.Reads v copy p → img' p = img p) : t.Sound v img' copy := by
  have hfat : ∀ c, t.Claims c → fatAt v img' copy c = fatAt v img copy c := by
    intro c hc
    have hfirst := hread _ (.link (k := 0) hc (by decide))
    have hsecond := hread _ (.link (k := 1) hc (by decide))
    rw [Nat.add_zero] at hfirst
    exact le16_congr hfirst hsecond
  have hslots : t.SameSlots v img img' := fun first f i k hat hi hk => hread _ (.slot hat hi hk)
  refine ⟨fun first chain hc => ?_, fun pos => (h.files pos).congr fun c hm =>
    hfat c (Or.inr ⟨pos, hm⟩), h.dirs_apart, h.files_apart, h.apart, fun first f i hat hl => ?_⟩
  · obtain ⟨h1, h2, h3⟩ := h.dirs first chain hc
    exact ⟨h1, h2, h3.congr fun c hm => hfat c (Or.inl ⟨first, chain, hc, hm⟩)⟩
  · rw [hslots.load hat hl.lt]
    exact h.entries first f i hat (hslots.live hat hl)

/-- One file gets another chain: its own clusters, or ones without a tenant. -/
theorem update {chain : List Nat}
    (hfat : ∀ c, t.Claims c → c ∉ t.file pos → fatAt v img' copy c = fatAt v img copy c)
    (hnew : Threaded v img' copy chain) (hown : ∀ c ∈ chain, c ∈ t.file pos ∨ ¬ t.Claims c)
    (hslot : ∀ first f i, t.folders.At v first f → f.Live img' i → f.place i ≠ pos → f.Live img i ∧
      DirItem.load img' (f.place i) = DirItem.load img (f.place i))

    (hentry : ∀ first f i, t.folders.At v first f → f.Live img' i → f.place i = pos →
      (t.set pos chain).Admits v pos (DirItem.load img' pos)) :
    (t.set pos chain).Sound v img' copy := by
  have hothers : ∀ q c, q ≠ pos → c ∈ t.file q → c ∉ chain := by
    intro q c hq hm hc
    rcases hown c hc with hmine | hfree
    · exact hq (h.files_apart q pos c hm hmine)
    · exact hfree (Or.inr ⟨q, hm⟩)
  refine ⟨fun first ch hc => ?_, fun q => ?_, h.dirs_apart, fun q q' c hm hm' => ?_,
    fun first ch q c hc hm hm' => ?_, fun first f i hat hl => ?_⟩
  · obtain ⟨h1, h2, h3⟩ := h.dirs first ch hc
    exact ⟨h1, h2, h3.congr fun c hm => hfat c (Or.inl ⟨first, ch, hc, hm⟩)
      (h.apart first ch pos c hc hm)⟩
  · change Threaded v img' copy (Function.update t.file pos chain q)
    by_cases hq : q = pos
    · rw [hq, Function.update_self]
      exact hnew
    · rw [Function.update_of_ne hq]
      exact (h.files q).congr fun c hm => hfat c (Or.inr ⟨q, hm⟩) fun hm' =>
        hq (h.files_apart q pos c hm hm')
  · rcases mem_set.mp hm with ⟨rfl, hc⟩ | ⟨hq, hc⟩
    · rcases mem_set.mp hm' with ⟨rfl, -⟩ | ⟨hq', hc'⟩
      · rfl
      · exact absurd hc (hothers q' c hq' hc')
    · rcases mem_set.mp hm' with ⟨rfl, hc'⟩ | ⟨-, hc'⟩
      · exact absurd hc' (hothers q c hq hc)
      · exact h.files_apart q q' c hc hc'
  · rcases mem_set.mp hm' with ⟨-, hc'⟩ | ⟨-, hc'⟩
    · rcases hown c hc' with hmine | hfree
      · exact h.apart first ch pos c hc hm hmine
      · exact hfree (Or.inl ⟨first, ch, hc, hm⟩)
    · exact h.apart first ch q c hc hm hc'
  · by_cases hpos : f.place i = pos
    · rw [hpos]
      exact hentry first f i hat hl hpos
    · obtain ⟨hold, hload⟩ := hslot first f i hat hl hpos
      have hkept := h.entries first f i hat hold
      rw [hload]
      unfold Admits at hkept ⊢
      change _ → if _ then _ else _ = (Function.update t.file pos chain (f.place i)).headD 0 ∧
        _ ≤ (Function.update t.file pos chain (f.place i)).length * _
      rwa [Function.update_of_ne hpos]

/-- Stores below the root directory leave the directories alone. -/
theorem sameSlots (hf : Fitted v n) (st : Store)
    (hst : st.pos + st.len ≤ rootSector v.header * sectorSize) (im : Bytes) :
    t.SameSlots v im (st.apply im) := by
  intro first f i k hat hi _
  have hlo := (h.distinct.slot_apart hf hat hi).1
  exact Store.apply_outside (Or.inr (by omega))

/-- The last cluster of a file is led on to new ones. -/
theorem tail (hf : Fitted v n) (hcopy : copy ≤ 1) {old fresh : List Nat} (hold : t.file pos = old)
    (ho : old ≠ []) (hfresh : fresh ≠ []) (hn : (old ++ fresh).Nodup)
    (hw : ∀ c ∈ old ++ fresh, Writable v c) (hfree : ∀ c ∈ fresh, ¬ t.Claims c)
    (hnew : Linked v img copy fresh) : (t.set pos (old ++ fresh)).Sound v
      ((fatStore v copy (old.getLastD 0) (fresh.headD 0)).apply img) copy := by
  have hlast := hw _ (List.mem_append_left _ (getLastD_mem ho))
  have hslots := h.sameSlots hf (fatStore v copy (old.getLastD 0) (fresh.headD 0))
    (hf.fat_end hcopy hlast.1.2.1).2.1 img
  have hlinked : Linked v img copy old := hold ▸ (h.files pos).linked
  refine h.update (fun c hc hout => ?_) ⟨hlinked.join hf hcopy hn hw ho hfresh hnew, fun c hc =>
    (hw c hc).1, hn⟩
    (fun c hc => ?_) (fun first f i hat hl _ => ⟨hslots.live hat hl, hslots.load hat hl.lt⟩)
    fun first f i hat hl hpos => ?_
  · refine fatAt_store_ne hf hcopy hlast.1.2.1 hcopy (h.claims hc).1.2.1 (fun he => hout ?_) _
    rw [hold, ← he.2]
    exact getLastD_mem ho
  · rw [hold]
    exact (List.mem_append.mp hc).imp_right (hfree c)
  · have hentry := h.entries first f i hat (hslots.live hat hl)
    rw [← hslots.load hat hl.lt, hpos] at hentry
    unfold Admits at hentry ⊢
    change _ → if _ then _ else _ = (Function.update t.file pos (old ++ fresh) pos).headD 0 ∧
      _ ≤ (Function.update t.file pos (old ++ fresh) pos).length * _
    rw [hold] at hentry
    intro hshown
    have hkept := hentry hshown
    rw [Function.update_self]
    split at hkept
    · rename_i hsub
      rwa [if_pos hsub]
    · rename_i hsub
      rw [if_neg hsub]
      obtain ⟨c, rest, rfl⟩ := List.exists_cons_of_ne_nil ho
      refine ⟨hkept.1, hkept.2.trans (Nat.mul_le_mul_right _ ?_)⟩
      rw [List.length_append]
      exact Nat.le_add_right _ _

/-- An entry is stored and its file gets the chain that the entry leads to. -/
theorem commit (hf : Fitted v n) (hcopy : copy ≤ 1) (hr : Room t.folders v img pos)
    {chain : List Nat} (hnew : Threaded v img copy chain)
    (hown : ∀ c ∈ chain, c ∈ t.file pos ∨ ¬ t.Claims c)
    (hadmits : (t.set pos chain).Admits v pos item) :
    (t.set pos chain).Sound v ((entryStore pos item).apply img) copy := by
  refine h.update (fun c hc _ => hr.fat item h.distinct hf hcopy (h.claims hc).1)
    (hnew.congr fun c hc => hr.fat item h.distinct hf hcopy (hnew.valid c hc)) hown
    (fun first f i hat hl hne => ⟨(hr.live h.distinct hf hat hl).resolve_right hne,
      entryStore_load_other hr.aligned (hat.aligned i) hne⟩) fun _ _ _ _ _ _ => ?_
  rw [entryStore_load]
  exact hadmits

end

end Sound

/-- The entry of a cluster without a tenant, or any entry of the other copy. -/
theorem Reads.fatStore (hp : t.Reads v copy p) (h : t.Sound v img copy) (hf : Fitted v n)
    (hcopy : copy ≤ 1) (hk : k ≤ 1) (hlimit : c ≤ fat16ClusterLimit v)
    (hfree : k = copy → ¬ t.Claims c) : p < fatEntryPos v k c ∨ fatEntryPos v k c + 2 ≤ p := by
  cases hp with
  | link hc hlt =>
    have h1 := fatEntry_apart hf hk hlimit hcopy (h.claims hc).1.2.1 fun he =>
      hfree he.1 (he.2 ▸ hc)
    omega
  | slot hat hi hlt =>
    have h1 := (h.distinct.slot_apart hf hat hi).1
    have h2 := (hf.fat_end hk hlimit).2.1
    exact Or.inr (by omega)

theorem Idle.outside (hst : t.Idle v pos st) (h : t.Sound v img copy) (hf : Fitted v n)
    (hcopy : copy ≤ 1) (hp : t.Reads v copy p) : p < st.pos ∨ st.pos + st.len ≤ p := by
  cases hst with
  | link hk hlimit hfree => exact hp.fatStore h hf hcopy hk hlimit fun _ => hfree
  | @data _ d hout _ h2 hlo hhi =>
    cases hp with
    | link hc hlt =>
      have h1 := (hf.fat_end hcopy (h.claims hc).1.2.1).2.2
      have h3 := cluster_start v d
      exact Or.inl (by omega)
    | slot hat hi hlt =>
      have h1 := (h.distinct.slot_apart hf hat hi).2 d hout h2
      omega

/-- No cluster of another file is reached. -/
theorem Idle.others (hst : t.Idle v pos st) (h : t.Sound v img copy) (hf : Fitted v n)
    (hq : q ≠ pos) (hc : c ∈ t.file q) (hp : InCluster v c p) :
    p < st.pos ∨ st.pos + st.len ≤ p := by
  cases hst with
  | link hk hlimit hfree =>
    have h1 := (hf.fat_end hk hlimit).2.2
    have h2 := cluster_start v c
    exact Or.inr (by change fatEntryPos v _ _ + 2 ≤ p; have := hp.1; omega)
  | @data _ d _ hother h2 hlo hhi =>
    by_contra hin
    have hsame : c = d := hp.unique ⟨by omega, by omega⟩ ((h.files q).valid c hc).1 h2
    exact hother q hq (hsame ▸ hc)

/-- Only bytes outside the directories and the clusters of other files changed. -/
theorem Spares.of_outside (hslots : t.SameSlots v img img')
    (hbytes : ∀ q c p, q ≠ pos → c ∈ t.file q → InCluster v c p → img' p = img p) :
    t.Spares v pos item img img' :=
  ⟨fun _ _ _ hat hi => Or.inl (hslots.load hat hi), hbytes⟩

theorem Spares.trans {u : Tenancy} (h : t.Spares v pos item img img')
    (h' : u.Spares v pos item img' img'') (hdir : u.dir = t.dir)
    (hfile : ∀ q, q ≠ pos → u.file q = t.file q) : t.Spares v pos item img img'' := by
  refine ⟨fun first f i hat hi => ?_, fun q c p hq hc hp => ?_⟩
  · rcases h'.entries first f i (hat.of_chain u.folders hdir) hi with hsame | hnew
    · rw [hsame]
      exact h.entries first f i hat hi
    · exact Or.inr hnew
  · rw [h'.bytes q c p hq (by rw [hfile q hq]; exact hc) hp]
    exact h.bytes q c p hq hc hp

/-- An entry in a directory. -/
theorem Sound.spares_commit (h : t.Sound v img copy) (hf : Fitted v n)
    (hr : Room t.folders v img pos) (item : DirItem) :
    t.Spares v pos item img ((entryStore pos item).apply img) := by
  refine ⟨fun first f i hat hi => ?_, fun q c p _ hc hp => Store.apply_outside ?_⟩
  · by_cases hpos : f.place i = pos
    · exact Or.inr ⟨hpos, by rw [hpos, entryStore_load]⟩
    · exact Or.inl (entryStore_load_other hr.aligned (hat.aligned i) hpos)
  · obtain ⟨first, f, i, hat, hi, rfl, -⟩ := hr.place
    have h1 := (h.distinct.slot_apart hf hat hi).2 c (fun _ _ hd hm => h.apart _ _ q c hd hm hc)
      ((h.files q).valid c hc).1
    have h2 := hp.1
    have h3 := hp.2
    change p < f.place i ∨ f.place i + 32 ≤ p
    omega

/-- The entry of a cluster in the FAT. -/
theorem Sound.spares_link (h : t.Sound v img copy) (hf : Fitted v n) (hk : k ≤ 1)
    (hlimit : c ≤ fat16ClusterLimit v) (value pos : Nat) (item : DirItem) (im : Bytes) :
    t.Spares v pos item im ((fatStore v k c value).apply im) := by
  refine .of_outside (h.sameSlots hf _ (hf.fat_end hk hlimit).2.1 im) fun q d p _ _ hp => ?_
  have h1 := (hf.fat_end hk hlimit).2.2
  have h2 := cluster_start v d
  exact Store.apply_outside (Or.inr (by change fatEntryPos v _ _ + 2 ≤ p; have := hp.1; omega))

end Tenancy

end Rorthox.Fat
