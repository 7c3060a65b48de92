import Rorthox.Fat.Coherence
import Rorthox.Fat.ReadChain

/-!
# The bytes of files

What the plan of a write leaves behind, byte by byte.
-/

namespace Rorthox.Fat

open Lib Disk

/-- Where byte `q` of a file lies whose clusters are `chain`. -/
def chainPlace (v : FatPrivate) (chain : List Nat) (q : Nat) : Nat :=
  filePlace v (chain.getD (q / clusterBytes v) 0) q

variable {v : FatPrivate} {img : Bytes} {n : Nat}

/-! ## The places of a chain -/

theorem chainPlace_in (hb : 0 < clusterBytes v) (chain : List Nat) (q : Nat) :
    InCluster v (chain.getD (q / clusterBytes v) 0) (chainPlace v chain q) :=
  ⟨Nat.le_add_right _ _, Nat.add_lt_add_left (Nat.mod_lt q hb) _⟩

variable {chain clusters fresh old : List Nat} {c copy count p q : Nat} {stores : List Store}
  {data : Bytes} {w : FatPrivate}

theorem chainPlace_add {i : Nat} (h : q % clusterBytes v + i < clusterBytes v) :
    chainPlace v chain (q + i) = chainPlace v chain q + i := by
  unfold chainPlace filePlace
  rw [(block_add h).1, (block_add h).2, Nat.add_assoc]

/-- Different bytes of a file lie in different places. -/
theorem chainPlace_inj (hb : 0 < clusterBytes v) (hn : chain.Nodup) (hw : ∀ c ∈ chain, Writable v c)
    {q' : Nat} (hq : q / clusterBytes v < chain.length) (hq' : q' / clusterBytes v < chain.length)
    (h : chainPlace v chain q = chainPlace v chain q') : q = q' := by
  have hc : chain.getD (q / clusterBytes v) 0 = chain.getD (q' / clusterBytes v) 0 := by
    apply InCluster.unique (chainPlace_in hb chain q)
    · rw [h]
      exact chainPlace_in hb chain q'
    · exact (hw _ (getD_mem hq)).1.1
    · exact (hw _ (getD_mem hq')).1.1
  have hdiv : q / clusterBytes v = q' / clusterBytes v := by
    rw [List.getD_eq_getElem _ _ hq, List.getD_eq_getElem _ _ hq'] at hc
    exact (hn.getElem_inj_iff).mp hc
  have hmod : q % clusterBytes v = q' % clusterBytes v := by
    unfold chainPlace filePlace at h
    rw [hc] at h
    omega
  rw [← Nat.div_add_mod q (clusterBytes v), hdiv, hmod]
  exact Nat.div_add_mod q' (clusterBytes v)

/-! ## Stores -/

theorem applyStores_cons (st : Store) (stores : List Store) (img : Bytes) :
    applyStores (st :: stores) img = applyStores stores (st.apply img) := rfl

theorem applyStores_append (a b : List Store) (img : Bytes) :
    applyStores (a ++ b) img = applyStores b (applyStores a img) := List.foldl_append

theorem applyStores_outside : ∀ {img : Bytes},
    (∀ st ∈ stores, p < st.pos ∨ st.pos + st.len ≤ p) → applyStores stores img p = img p := by
  induction stores with
  | nil => intro img _; rfl
  | cons st stores ih =>
    intro img h
    rw [applyStores_cons, ih fun st' hst => h st' (List.mem_cons_of_mem _ hst)]
    exact Store.apply_outside (h st List.mem_cons_self)

theorem applyPhases_outside {phases : List Phase} : ∀ {img : Bytes},
    (∀ ph ∈ phases, ∀ st ∈ ph.stores, p < st.pos ∨ st.pos + st.len ≤ p) →
      applyPhases phases img p = img p := by
  induction phases with
  | nil => intro img _; rfl
  | cons ph phases ih =>
    intro img h
    change applyPhases phases (applyStores ph.stores img) p = _
    rw [ih fun ph' hph => h ph' (List.mem_cons_of_mem _ hph)]
    exact applyStores_outside (h ph List.mem_cons_self)

/-- The data stores of bytes `position` to `position + left` write nothing else. -/
theorem dataStores_outside (hb : 0 < clusterBytes v) {fuel position left done : Nat}
    (h : ∀ q, position ≤ q → q < position + left → p ≠ chainPlace v chain q) :
    applyStores (dataStores v chain data fuel position left done) img p = img p := by
  apply applyStores_outside
  intro st hst
  obtain ⟨q, h1, h2, -, hpos, hlen, -⟩ := mem_dataStores hb hst
  by_contra hin
  push Not at hin
  apply h (q + (p - st.pos)) (by omega) (by omega)
  rw [chainPlace_add (by omega)]
  change p = filePlace v _ q + _
  unfold filePlace
  omega

/-- Each byte of the data reaches its place. -/
theorem dataStores_byte (hb : 0 < clusterBytes v) (hn : chain.Nodup)
    (hw : ∀ c ∈ chain, Writable v c) (data : Bytes) (fuel : Nat) :
    ∀ (position left done i : Nat) (img : Bytes), left ≤ fuel →
      (∀ q, q < position + left → q / clusterBytes v < chain.length) → i < left →
      applyStores (dataStores v chain data fuel position left done) img
        (chainPlace v chain (position + i)) = data (done + i) := by
  induction fuel with
  | zero => intro position left done i img hle _ hi; omega
  | succ fuel ih =>
    intro position left done i img hle hlen hi
    cases left with
    | zero => omega
    | succ left =>
      have hmod := Nat.mod_lt position hb
      have hpos := clusterPart_pos hmod (Nat.succ_pos left)
      have hend := clusterPart_end (v := v) (position % clusterBytes v) (left + 1) hmod
      have hpart := clusterPart_le v (position % clusterBytes v) (left + 1)
      unfold dataStores
      dsimp only
      rw [applyStores_cons]
      generalize clusterPart v (position % clusterBytes v) (left + 1) = part at *
      rcases Nat.lt_or_ge i part with hlt | hge
      · -- in the first store; no later one goes there
        rw [dataStores_outside hb, chainPlace_add (by omega)]
        · exact Store.apply_inside _ hlt
        · intro q h1 h2 he
          have := chainPlace_inj hb hn hw (hlen _ (by omega)) (hlen _ (by omega)) he
          omega
      · have h1 := fun img => ih (position + part) (left + 1 - part) (done + part) (i - part) img
          (by omega) (fun q hq => hlen q (by omega)) (by omega)
        rw [show position + part + (i - part) = position + i by omega,
          show done + part + (i - part) = done + i by omega] at h1
        exact h1 _

theorem zeroStores_outside (h : ∀ c ∈ fresh, ¬ InCluster v c p) :
    applyStores (zeroStores v fresh) img p = img p := by
  apply applyStores_outside
  intro st hst
  obtain ⟨c, hc, -, hlen, hlo, hhi⟩ := mem_zeroStores hst
  rw [Nat.add_mul] at hhi
  by_contra hin
  push Not at hin
  apply h c hc
  constructor
  · omega
  · unfold clusterBytes
    omega

/-! ## Linking -/

/-- Stores of one copy of the FAT, for these clusters. -/
def FatStores (v : FatPrivate) (copy : Nat) (clusters : List Nat) (stores : List Store) : Prop :=
  ∀ st ∈ stores, ∃ c ∈ clusters, ∃ value, st = fatStore v copy c value

theorem fatStores_link (copy : Nat) (clusters : List Nat) :
    FatStores v copy clusters (linkStores v copy clusters) := by
  induction clusters with
  | nil => intro st hst; cases hst
  | cons c clusters ih =>
    intro st hst
    rcases List.mem_cons.mp hst with rfl | hst
    · exact ⟨c, List.mem_cons_self, _, rfl⟩
    · obtain ⟨d, hd, hvalue⟩ := ih st hst
      exact ⟨d, List.mem_cons_of_mem _ hd, hvalue⟩

theorem FatStores.other (hf : Fitted v n) {k : Nat} (hcopy : copy ≤ 1)
    (hlimit : ∀ d ∈ clusters, d ≤ fat16ClusterLimit v) (hk : k ≤ 1) (hc : c ≤ fat16ClusterLimit v)
    (hne : copy = k → c ∉ clusters) : ∀ {img : Bytes}, FatStores v copy clusters stores →
      fatAt v (applyStores stores img) k c = fatAt v img k c := by
  induction stores with
  | nil => intro img _; rfl
  | cons st stores ih =>
    intro img h
    rw [applyStores_cons, ih fun st' hst => h st' (List.mem_cons_of_mem _ hst)]
    obtain ⟨d, hd, value, rfl⟩ := h st List.mem_cons_self
    apply fatAt_store_ne hf hcopy (hlimit d hd) hk hc
    rintro ⟨hcopies, rfl⟩
    exact hne hcopies hd

theorem FatStores.below (hf : Fitted v n) (hcopy : copy ≤ 1) (hw : ∀ c ∈ clusters, Writable v c)
    (h : FatStores v copy clusters stores) :
    ∀ st ∈ stores, st.pos + st.len ≤ rootSector v.header * sectorSize := by
  intro st hst
  obtain ⟨c, hc, value, rfl⟩ := h st hst
  exact (hf.fat_end hcopy (hw c hc).1.2.1).2.1

/-- The new clusters are linked one after another. -/
theorem linked_fresh (hf : Fitted v n) (hcopy : copy ≤ 1) (fresh : List Nat) :
    ∀ (img : Bytes), fresh.Nodup → (∀ c ∈ fresh, Writable v c) →
      Linked v (applyStores (linkStores v copy fresh) img) copy fresh := by
  induction fresh with
  | nil => intro img _ _; exact trivial
  | cons c fresh ih =>
    intro img hn hw
    have hlater := ih ((fatStore v copy c (fresh.headD 0xFFFF)).apply img) (List.nodup_cons.mp hn).2
      fun d hd => hw d (List.mem_cons_of_mem _ hd)
    have hkeep : ∀ im, fatAt v (applyStores (linkStores v copy fresh) im) copy c =
      fatAt v im copy c :=
      fun im => (fatStores_link copy fresh).other hf hcopy
        (fun d hd => (hw d (List.mem_cons_of_mem _ hd)).1.2.1) hcopy (hw c List.mem_cons_self).1.2.1
        fun _ => (List.nodup_cons.mp hn).1
    change Linked v (applyStores (linkStores v copy fresh) _) copy _
    cases fresh with
    | nil =>
      change eocStart ≤ fatAt v _ copy c
      rw [hkeep, fatStore_fatAt (by decide)]
      decide
    | cons d fresh =>
      refine ⟨?_, hlater⟩
      rw [hkeep, fatStore_fatAt]
      · rfl
      · exact (hw d (List.mem_cons_of_mem _ List.mem_cons_self)).2.trans_lt hf.max_lt

/-- Two chains become one once the end of the first leads to the second. -/
theorem Linked.append {a b : List Nat} (hb : b ≠ []) :
    ∀ {img' : Bytes}, Linked v img copy a → (∀ c ∈ a.dropLast,
      fatAt v img' copy c = fatAt v img copy c) →
      (a ≠ [] → fatAt v img' copy (a.getLastD 0) = b.headD 0) → Linked v img' copy b →
        Linked v img' copy (a ++ b) := by
  induction a with
  | nil => intro img' _ _ _ h; exact h
  | cons c a ih =>
    intro img' ha hkeep hjoin h
    cases a with
    | nil =>
      obtain ⟨d, b, rfl⟩ := List.exists_cons_of_ne_nil hb
      exact ⟨hjoin (by simp), h⟩
    | cons d a =>
      refine ⟨?_, ih ha.2 (fun e he => hkeep e ?_) (fun _ => ?_) h⟩
      · rw [hkeep c (by simp)]
        exact ha.1
      · exact List.mem_cons_of_mem _ he
      · have := hjoin (by simp)
        simpa using this

theorem fatStores_one (copy value : Nat) (h : c ∈ clusters) :
    FatStores v copy clusters [fatStore v copy c value] := fun _ hst =>
  ⟨c, h, value, List.mem_singleton.mp hst⟩

/-- Extending a chain stores the links of the new clusters, or that of the old last one. -/
theorem extend_clusters : ∀ ph ∈ extendPhases v old fresh, ∃ copy stores, copy ≤ 1 ∧
    ph = .plain stores ∧
      (FatStores v copy fresh stores ∨ (old ≠ [] ∧ FatStores v copy [old.getLastD 0] stores)) := by
  intro ph hph
  obtain ⟨copy, hcopy, rfl | ⟨hlast, -, rfl⟩⟩ := mem_extendPhases hph
  · exact ⟨copy, _, hcopy, rfl, Or.inl (fatStores_link copy fresh)⟩
  · exact ⟨copy, _, hcopy, rfl,
      Or.inr ⟨List.ne_nil_of_mem hlast, fatStores_one copy _ (List.mem_singleton_self _)⟩⟩

theorem FatStores.mono {clusters' : List Nat} (h : FatStores v copy clusters stores)
    (hsub : ∀ c ∈ clusters, c ∈ clusters') : FatStores v copy clusters' stores := by
  intro st hst
  obtain ⟨c, hc, hvalue⟩ := h st hst
  exact ⟨c, hsub c hc, hvalue⟩

theorem extend_stores : ∀ ph ∈ extendPhases v old fresh, ∃ copy stores, copy ≤ 1 ∧
    ph = .plain stores ∧ FatStores v copy (old ++ fresh) stores := by
  intro ph hph
  obtain ⟨copy, stores, hcopy, hplain, hnew | ⟨ho, hlast⟩⟩ := extend_clusters ph hph
  · exact ⟨copy, stores, hcopy, hplain, hnew.mono fun c hc => List.mem_append_right _ hc⟩
  · refine ⟨copy, stores, hcopy, hplain, hlast.mono fun c hc => ?_⟩
    rw [List.mem_singleton.mp hc]
    exact List.mem_append_left _ (getLastD_mem ho)

/-- Freeing a chain stores entries of its clusters. -/
theorem free_stores : ∀ ph ∈ freePhases v chain, ∃ copy stores, copy ≤ 1 ∧
    ph = .plain stores ∧ FatStores v copy chain stores := by
  intro ph hph
  obtain ⟨copy, hcopy, rfl⟩ := mem_freePhases hph
  refine ⟨copy, _, hcopy, rfl, fun st hst => ?_⟩
  obtain ⟨c, hc, rfl⟩ := List.mem_map.mp hst
  exact ⟨c, hc, 0, rfl⟩

section

variable (hf : Fitted v n)
include hf

/-- The store that joins two chains. -/
theorem Linked.join (hcopy : copy ≤ 1) (hn : (old ++ fresh).Nodup)
    (hw : ∀ c ∈ old ++ fresh, Writable v c) (ho : old ≠ []) (hfresh : fresh ≠ [])
    (hl : Linked v img copy old) (hnew : Linked v img copy fresh) :
    Linked v ((fatStore v copy (old.getLastD 0) (fresh.headD 0)).apply img) copy
      (old ++ fresh) := by
  obtain ⟨hno, -, hapart⟩ := List.nodup_append.mp hn
  have hlimit : ∀ c ∈ old ++ fresh, c ≤ fat16ClusterLimit v := fun c hc => (hw c hc).1.2.1
  have hlast := getLastD_mem ho
  have hkeep : ∀ c ∈ old ++ fresh, c ≠ old.getLastD 0 →
      fatAt v ((fatStore v copy (old.getLastD 0) (fresh.headD 0)).apply img) copy c =
        fatAt v img copy c :=
    fun c hc hne => fatAt_store_ne hf hcopy (hlimit _ (List.mem_append_left _ hlast)) hcopy
      (hlimit c hc) (fun h => hne h.2.symm) _
  apply hl.append hfresh
  · intro c hc
    refine hkeep c (List.mem_append_left _ (List.mem_of_mem_dropLast hc)) fun he => ?_
    rw [← List.dropLast_append_getLast ho] at hno
    refine (List.nodup_append.mp hno).2.2 c hc c (List.mem_singleton.mpr ?_) rfl
    rw [he, List.getLastD_eq_getLast?, List.getLast?_eq_some_getLast ho]
    rfl
  · intro _
    apply fatStore_fatAt
    obtain ⟨c, rest, rfl⟩ := List.exists_cons_of_ne_nil hfresh
    exact (hw c (List.mem_append_right _ List.mem_cons_self)).2.trans_lt hf.max_lt
  · exact hnew.congr fun c hc =>
      hkeep c (List.mem_append_right _ hc) fun he => hapart _ hlast c hc he.symm

theorem extend_linked (hn : (old ++ fresh).Nodup) (hw : ∀ c ∈ old ++ fresh, Writable v c)
    (hl : Linked v img 0 old) :
    Linked v (applyPhases (extendPhases v old fresh) img) 0 (old ++ fresh) := by
  obtain ⟨-, hnf, hapart⟩ := List.nodup_append.mp hn
  have hlimit : ∀ c ∈ old ++ fresh, c ≤ fat16ClusterLimit v := fun c hc => (hw c hc).1.2.1
  have hlimit' : ∀ c ∈ fresh, c ≤ fat16ClusterLimit v :=
    fun c hc => hlimit c (List.mem_append_right _ hc)
  unfold extendPhases tailPhases
  by_cases hfresh : fresh ≠ []
  · rw [if_pos hfresh]
    -- after both copies of the new links
    let img2 := applyStores (linkStores v 1 fresh) (applyStores (linkStores v 0 fresh) img)
    have hsecond : ∀ c ∈ old ++ fresh, fatAt v img2 0 c =
        fatAt v (applyStores (linkStores v 0 fresh) img) 0 c := fun c hc =>
      (fatStores_link 1 fresh).other hf le_rfl hlimit' (Nat.zero_le 1) (hlimit c hc) fun h =>
        absurd h (by decide)
    have hnew : Linked v img2 0 fresh :=
      (linked_fresh hf (Nat.zero_le 1) fresh _ hnf fun c hc =>
        hw c (List.mem_append_right _ hc)).congr fun c hc => hsecond c (List.mem_append_right _ hc)
    have hkept : Linked v img2 0 old := hl.congr fun c hc => by
      rw [hsecond c (List.mem_append_left _ hc)]
      exact (fatStores_link 0 fresh).other hf (Nat.zero_le 1) hlimit' (Nat.zero_le 1)
        (hlimit c (List.mem_append_left _ hc)) fun _ hm => hapart c hc c hm rfl
    by_cases ho : old ≠ []
    · rw [if_pos ho]
      refine (hkept.join hf (Nat.zero_le 1) hn hw ho hfresh hnew).congr fun c hc => ?_
      exact fatAt_store_ne hf le_rfl (hlimit _ (List.mem_append_left _ (getLastD_mem ho)))
        (Nat.zero_le 1) (hlimit c hc) (fun h => absurd h.1 (by decide)) _
    · rw [if_neg ho]
      obtain rfl : old = [] := not_not.mp ho
      exact hnew
  · rw [if_neg hfresh]
    obtain rfl : fresh = [] := not_not.mp hfresh
    rw [List.append_nil]
    exact hl

/-! ## Behind the FATs -/

theorem fatAt_behind (hc : c ≤ fat16ClusterLimit v)
    (h : ∀ st ∈ stores, rootSector v.header * sectorSize ≤ st.pos) :
    fatAt v (applyStores stores img) 0 c = fatAt v img 0 c := by
  have hend := (hf.fat_end (Nat.zero_le 1) hc).2.1
  apply le16_congr
  · exact applyStores_outside fun st hst => Or.inl (by have := h st hst; omega)
  · exact applyStores_outside fun st hst => Or.inl (by have := h st hst; omega)

theorem root_before :
    rootSector v.header * sectorSize ≤ v.rootDirectory.endingSectorPos * sectorSize := by
  have h1 := Fitted.root_end v
  rw [hf.data_eq] at h1
  rw [rootSector, Nat.add_comm (fatCopies v.header * sectorsPerFat v.header)]
  omega

theorem cluster_behind (c : Nat) :
    rootSector v.header * sectorSize ≤ fat16ClusterToSector v c * sectorSize :=
  (root_before hf).trans (cluster_start v c)

theorem EntryAt.behind {pos : Nat} (h : EntryAt v pos) :
    rootSector v.header * sectorSize ≤ pos := by
  rcases h with ⟨i, -, rfl⟩ | ⟨c, i, -, -, rfl⟩
  · exact Nat.le_add_right _ _
  · exact (cluster_behind hf c).trans (Nat.le_add_right _ _)

/-- A linked chain is the one the reader walks. -/
theorem clusterAt_linked (hl : Linked v img 0 chain) (hn : chain.Nodup)
    (hw : ∀ c ∈ chain, Writable v c) (hq : q / clusterBytes v < chain.length) :
    clusterAt v img (chain.headD 0) q = .ok (chain.getD (q / clusterBytes v) 0) := by
  have hlen := writable_length hw hn
  have hmax := hf.max_le
  have hb := hf.clusterBytes_pos
  have hwalk : ∀ k, k < chain.length → clusterWalk v img k (chain.headD 0) =
      .ok (chain.getD k 0) := by
    intro k
    induction k with
    | zero =>
      intro _
      cases chain <;> rfl
    | succ k ih =>
      intro hk
      rcases hl.getD (Nat.lt_of_succ_lt hk) with ⟨-, hnext⟩ | ⟨hend, -⟩
      · have h1 := clusterWalk_succ (ih (Nat.lt_of_succ_lt hk))
        rw [hnext] at h1
        exact h1 (hw _ (getD_mem hk)).1
      · omega
  have hhead : fat16ValidCluster v (chain.headD 0) := by
    cases chain with
    | nil => exact absurd hq (Nat.not_lt_zero _)
    | cons c chain => exact (hw c List.mem_cons_self).1
  unfold clusterAt
  rw [if_neg (by rintro (h | h); omega; exact h hhead), if_neg (by omega)]
  exact hwalk _ hq

end

/-! ## Writing -/

/-- What a write of `count` bytes at `start` leaves behind. The commit comes last, so where a
volume has the entry of a file among the bytes of that file the entry is what stays. -/
structure Written (v : FatPrivate) (img img' : Bytes) (entryPos first start count : Nat)
    (data : Bytes) : Prop where
  bytes : ∀ i, i < count → ∃ c, clusterAt v img' first (start + i) = .ok c ∧
    (img' (filePlace v c (start + i)) = data i ∨
      (entryPos ≤ filePlace v c (start + i) ∧ filePlace v c (start + i) < entryPos + 32))
  rest : ∀ p, v.rootDirectory.endingSectorPos * sectorSize ≤ p →
    (p < entryPos ∨ entryPos + 32 ≤ p) →
    (∀ c, fat16ValidCluster v c → FreeCluster v img c → ¬ InCluster v c p) →
    (∀ i c, i < count → clusterAt v img' first (start + i) = .ok c →
      p ≠ filePlace v c (start + i)) →
    img' p = img p

theorem afterPhases_extend (old fresh : List Nat) (w : FatPrivate) :
    afterPhases (extendPhases v old fresh) w = w := by
  unfold extendPhases tailPhases
  split
  · split <;> rfl
  · rfl

/-- The new clusters of a write are none of the old ones. -/
theorem alloc_apart {item : DirItem} {needed : Nat} (hold : chainOf v img item = .ok old)
    (hf : Fitted v n) (halloc : allocOf v img old.length needed = .ok fresh) :
    (∀ c ∈ fresh, FreeCluster v img c) ∧ (old ++ fresh).Nodup ∧ ∀ c ∈ old ++ fresh,
      Writable v c := by
  have hchain := ((chainOf_ok_iff item old).mp hold).2.2.1
  obtain ⟨-, -, htake⟩ := (allocOf_ok_iff _ _ fresh).mp halloc
  have hfree : ∀ c ∈ fresh, FreeCluster v img c := fun c hc => (alloc_mem halloc c hc).2
  refine ⟨hfree, List.nodup_append.mpr ⟨hchain.nodup, ?_, ?_⟩, fun c hc => ?_⟩
  · rw [htake]
    exact (freeClusters_nodup v img).sublist (List.take_sublist _ _)
  · rintro c hc _ hm rfl
    exact hchain.linked.entry_ne (fun c hc => (hchain.writable c hc).1) c hc (hfree c hm).1
  · exact (List.mem_append.mp hc).elim (hchain.writable c) (alloc_writable hf halloc c)

/-! The three parts of a write: the bytes, the links, the entry. -/

theorem writePhases_apply (item : DirItem) (entryPos : Nat) (old fresh : List Nat) (start : Nat)
    (data : Bytes) (count size : Nat) :
    applyPhases (writePhases v item entryPos old fresh start data count size) img =
      (entryStore entryPos (rewritten item ((old ++ fresh).headD 0) size)).apply
        (applyPhases (extendPhases v old fresh)
          (applyStores (zeroStores v fresh ++ dataStores v (old ++ fresh) data count start count 0)
            img)) := by
  unfold writePhases applyPhases
  rw [List.foldl_cons, List.foldl_append]
  rfl

section

variable {entryPos : Nat} {old fresh : List Nat} (item : DirItem) (start : Nat) (data : Bytes)
  (count size : Nat)

/-- Behind the FATs a write leaves its bytes and its entry. -/
theorem writePhases_behind (hf : Fitted v n) (hw : ∀ c ∈ old ++ fresh, Writable v c)
    (hp : rootSector v.header * sectorSize ≤ p) (hent : p < entryPos ∨ entryPos + 32 ≤ p) :
    applyPhases (writePhases v item entryPos old fresh start data count size) img p =
      applyStores (dataStores v (old ++ fresh) data count start count 0)
        (applyStores (zeroStores v fresh) img) p := by
  rw [writePhases_apply, Store.apply_outside hent, applyPhases_outside, applyStores_append]
  intro ph hph st hst
  obtain ⟨copy, stores, hcopy, rfl, hstores⟩ := extend_stores ph hph
  exact Or.inr ((hstores.below hf hcopy hw st hst).trans hp)

/-- The bytes of a write do not reach the FATs. -/
theorem bytes_behind (hf : Fitted v n) (chain fresh : List Nat) (data : Bytes)
    (fuel position left done : Nat) :
    ∀ st ∈ zeroStores v fresh ++ dataStores v chain data fuel position left done,
      rootSector v.header * sectorSize ≤ st.pos := by
  intro st hst
  rcases List.mem_append.mp hst with hst | hst
  · obtain ⟨e, -, -, -, hlo, -⟩ := mem_zeroStores hst
    exact (cluster_behind hf e).trans hlo
  · obtain ⟨q, -, -, -, hpos, -, -⟩ := mem_dataStores hf.clusterBytes_pos hst
    rw [hpos]
    exact (cluster_behind hf _).trans (Nat.le_add_right _ _)

/-- Afterwards the old and the new clusters are one chain. -/
theorem writePhases_linked (hf : Fitted v n) (hs : SlotPos v entryPos) (hn : (old ++ fresh).Nodup)
    (hw : ∀ c ∈ old ++ fresh, Writable v c) (hl : Linked v img 0 old) :
    Linked v (applyPhases (writePhases v item entryPos old fresh start data count size) img) 0
      (old ++ fresh) := by
  have hbytes : Linked v (applyStores (zeroStores v fresh ++
      dataStores v (old ++ fresh) data count start count 0) img) 0 old :=
    hl.congr fun c hc => fatAt_behind hf (hw c (List.mem_append_left _ hc)).1.2.1
      (bytes_behind hf _ _ _ _ _ _ _)
  have hlinks := extend_linked hf hn hw hbytes
  rw [writePhases_apply]
  refine hlinks.congr fun c hc => ?_
  have hentry : ∀ st ∈ [entryStore entryPos (rewritten item ((old ++ fresh).headD 0) size)],
      rootSector v.header * sectorSize ≤ st.pos := by
    intro st hst
    rw [List.mem_singleton.mp hst]
    exact hs.place.behind hf
  exact fatAt_behind hf (hw c hc).1.2.1 hentry

end

theorem writePlan_written (hf : Fitted v n) {d : FatFileDescriptor} {item : DirItem}
    (hs : SlotPos v d.item.entryPos) (h0 : 0 < count) {phases : List Phase} {b : Nat}
    (hp : writePlan v img d item data count = .ok (phases, b)) :
    b = count ∧ ∃ first, fat16ValidCluster v first ∧
      (∀ w, afterPhases phases w = fat16Publish d.item.entryPos
        (rewritten item first (sizeAfter item (writeStart d item + count))) w) ∧
      Written v img (applyPhases phases img) d.item.entryPos first (writeStart d item) count
        data := by
  obtain ⟨hb, -, -, old, fresh, hold, -, halloc, rfl⟩ := writePlan_ok hp
  obtain ⟨hfree, hn, hw⟩ := alloc_apart hold hf halloc
  have hlinked := ((chainOf_ok_iff item old).mp hold).2.2.1.linked
  obtain ⟨-, hlen, -⟩ := (allocOf_ok_iff _ _ fresh).mp halloc
  have hbytes := hf.clusterBytes_pos
  generalize hstart : writeStart d item = start at *
  generalize hsize : sizeAfter item (start + count) = size at *
  have hlink := writePhases_linked item start data count size hf hs hn hw hlinked
  have hin : ∀ q, q < start + count → q / clusterBytes v < (old ++ fresh).length := by
    intro q hq
    rw [List.length_append, hlen]
    exact lt_clustersFor v (hq.trans_le (hsize ▸ le_sizeAfter item (start + count)))
  have hfirst : fat16ValidCluster v ((old ++ fresh).headD 0) := by
    cases hc : old ++ fresh with
    | nil =>
      have h1 := hin start (by omega)
      rw [hc] at h1
      exact absurd h1 (Nat.not_lt_zero _)
    | cons c rest => exact (hw c (hc ▸ List.mem_cons_self)).1
  have hat := fun i (hi : i < count) => clusterAt_linked hf hlink hn hw (hin (start + i) (by omega))
  refine ⟨hb, (old ++ fresh).headD 0, hfirst, fun w => ?_, fun i hi => ⟨_, hat i hi, ?_⟩, ?_⟩
  · change afterPhases (extendPhases v old fresh ++ [commitPhase d.item.entryPos _]) w = _
    unfold afterPhases
    rw [List.foldl_append]
    change fat16Publish _ _ (afterPhases (extendPhases v old fresh) w) = _
    rw [afterPhases_extend]
  · change applyPhases _ img (chainPlace v (old ++ fresh) (start + i)) = _ ∨ _
    by_cases hent : d.item.entryPos ≤ chainPlace v (old ++ fresh) (start + i) ∧
        chainPlace v (old ++ fresh) (start + i) < d.item.entryPos + 32
    · exact Or.inr hent
    · left
      have hplace : rootSector v.header * sectorSize ≤ chainPlace v (old ++ fresh) (start + i) :=
        (cluster_behind hf _).trans (Nat.le_add_right _ _)
      rw [writePhases_behind item start data count size hf hw hplace (by omega),
        dataStores_byte hbytes hn hw data count start count 0 i _ le_rfl hin hi, Nat.zero_add]
  · intro p hdata hent hno hplace
    rw [writePhases_behind item start data count size hf hw ((root_before hf).trans hdata) hent,
      dataStores_outside hbytes]
    · apply zeroStores_outside
      intro c hc
      exact hno c (hw c (List.mem_append_right _ hc)).1 (hfree c hc)
    · intro q h1 h2
      have h3 := hplace (q - start) _ (by omega) (hat (q - start) (by omega))
      rwa [show start + (q - start) = q by omega] at h3

theorem SameLayout.filePlace (h : SameLayout v w) (cluster q : Nat) :
    Fat.filePlace w cluster q = Fat.filePlace v cluster q := by
  unfold Fat.filePlace
  rw [h.toSector, h.clusterBytes]

theorem SameLayout.inCluster (h : SameLayout v w) (cluster p : Nat) :
    InCluster w cluster p ↔ InCluster v cluster p := by
  unfold InCluster
  rw [h.toSector, h.clusterBytes]

theorem Written.congr {img' : Bytes} {entryPos first start : Nat}
    (h : Written v img img' entryPos first start count data) (hl : SameLayout v w) :
    Written w img img' entryPos first start count data := by
  constructor
  · simp only [hl.clusterAt, hl.filePlace]
    exact h.bytes
  · simp only [hl.clusterAt, hl.filePlace, hl.data, hl.valid, hl.freeCluster, hl.inCluster]
    exact h.rest

theorem Written.of_data {img' data' : Bytes} {entryPos first start : Nat}
    (h : Written v img img' entryPos first start count data)
    (hd : ∀ i, i < count → data i = data' i) :
    Written v img img' entryPos first start count data' := by
  refine ⟨fun i hi => ?_, h.rest⟩
  rw [← hd i hi]
  exact h.bytes i hi

/-- The volume and the disk after a write of `count` bytes that succeeded. -/
structure WriteDone (desc : Nat) (d : FatFileDescriptor) (item : DirItem) (data : Bytes)
    (count : Nat) (s s' : FsState) (first : Nat) : Prop where
  first_lt : first < 2 ^ 16
  size_le : sizeAfter item (writeStart d item + count) ≤ intMax
  vol : ∃ v1 : FatPrivate, v1.descriptors = s.vol.descriptors ∧
    s'.vol = setPos desc (writeStart d item + count)
      (fat16Publish d.item.entryPos (rewritten item first
        (sizeAfter item (writeStart d item + count))) v1)
  written : Written s'.vol s.dev.image s'.dev.image d.item.entryPos first (writeStart d item)
    count data

theorem write_done {desc m : Nat} {s s' : FsState} (ht : Tidy s.dev.identify s.vol)
    (h : WriteCourse desc data count s (.ok m) s') :
    m = count ∧ ∃ d item, WriteTarget s.vol desc d item ∧
      ((count = 0 ∧ s' = s) ∨ (0 < count ∧ ∃ first, WriteDone desc d item data count s s'
        first)) := by
  cases h with
  | untargeted _ hr _ => cases hr
  | @nothing d item htarget h0 hr hs =>
    cases hr
    exact ⟨h0.symm, d, item, htarget, Or.inl ⟨h0, hs⟩⟩
  | unprepared _ _ _ hr => cases hr
  | @acted d item htarget h0 s1 n hp hid hfit hact =>
    rcases hact.ends fun phases b h => writePlan_publish h with
      ⟨phases, b, hplan, hview, hvol, himg⟩ | ⟨e, phases, hr, -⟩
    · have hmem : d ∈ s1.vol.descriptors := by
        rw [hp.vol.same.1]
        exact (findDescriptor_mem htarget.found).1
      have hslot := ((hp.tidy ht).descriptors d hmem htarget.mode).1
      obtain ⟨rfl, first, hvalid, hafter, hwritten⟩ := writePlan_written hfit hslot h0 hplan
      obtain ⟨-, -, hle, old, -, hold, -⟩ := writePlan_ok hplan
      have hold_le := ((chainOf_ok_iff item old).mp hold).2.1
      refine ⟨Except.ok.inj hview, d, item, htarget, Or.inr
        ⟨h0, first, valid_lt hvalid, ?_, ⟨s1.vol, ?_, ?_⟩, ?_⟩⟩
      · unfold sizeAfter
        split <;> assumption
      · exact hp.vol.same.1
      · rw [hvol, hafter]
      · rw [himg, hvol, ← hp.image]
        exact hwritten.congr ((afterPhases_layout phases (writePlan_publish hplan)).trans
          ⟨rfl, rfl, rfl⟩)
    · cases hr

end Rorthox.Fat
