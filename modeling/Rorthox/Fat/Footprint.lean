import Rorthox.Fat.Content
import Rorthox.Fat.Slots

/-!
# The bytes a mutation can change

The stores of a plan lie in the clusters it owns or takes, in the entries of these in the
FATs, and in one directory entry. Whatever happens on the way, no other byte moves.
-/

namespace Rorthox.Fat

open Lib Disk Memory

/-- Byte `p` is one of the `len` bytes from `pos` on. -/
def Span (pos len p : Nat) : Prop := pos ≤ p ∧ p < pos + len

instance (pos len p : Nat) : Decidable (Span pos len p) := inferInstanceAs (Decidable (_ ∧ _))

variable {b c count p : Nat} {st : Store} {fresh : List Nat} {data : Bytes} {d : FatFileDescriptor}
  {item : DirItem} {ph : Phase}

/-- A byte that no store of the phases covers is the same at every point of their run. -/
theorem RanPhases.untouched {phases : List Phase} {s s' : FsState} {r : Except Errno Unit}
    (h : RanPhases phases s r s') (hp : ∀ ph ∈ phases, ∀ st ∈ ph.stores, ¬ Span st.pos st.len p) :
    ∀ log, s.dev.log <:+ log → log <:+ s'.dev.log → replay s.dev.origin log p = s.dev.image p := by
  refine h.steps.along (I := fun log => replay s.dev.origin log p = s.dev.image p) rfl ?_
  intro log e _ hlog he
  refine Eq.trans ?_ hlog
  change e.apply (replay s.dev.origin log) p = _
  rcases he with ⟨ph, hph, st, hst, hpart⟩ | ⟨good, rfl⟩
  · refine hpart.outside ?_
    have hout := hp ph hph st hst
    unfold Span at hout
    omega
  · rfl

/-! ## Writing -/

/-- Byte `p` belongs to the entry of the cluster in one of the FATs. -/
def FatByte (v : FatPrivate) (c p : Nat) : Prop :=
  ∃ copy, copy ≤ 1 ∧ Span (fatEntryPos v copy c) 2 p

/-- The clusters that a write of `count` bytes at `start` hangs behind the chain of its file. -/
def NewClusters (v : FatPrivate) (img : Bytes) (item : DirItem) (start count : Nat)
    (new : List Nat) : Prop :=
  ∃ old, chainOf v img item = .ok old ∧
    allocOf v img old.length (clustersFor v (sizeAfter item (start + count))) = .ok new

/-- The bytes that a write of `count` bytes at `start` may change: those bytes of the file in its
own clusters, its new clusters, which were free, and their entries, the entry of its last cluster,
and its directory entry. -/
inductive WriteTouches (v : FatPrivate) (img : Bytes) (entryPos : Nat) (item : DirItem)
    (start count p : Nat) : Prop where
  | data {chain : List Nat} {q : Nat} (hc : chainOf v img item = .ok chain)
      (hq : q / clusterBytes v < chain.length) (hstart : start ≤ q) (hend : q < start + count)
      (hp : p = chainPlace v chain q)
  | fresh {new : List Nat} {c : Nat} (hnew : NewClusters v img item start count new) (hc : c ∈ new)
      (hfree : FreeCluster v img c) (hp : InCluster v c p)
  | link {new : List Nat} {c : Nat} (hnew : NewClusters v img item start count new) (hc : c ∈ new)
      (hfree : FreeCluster v img c) (hp : FatByte v c p)
  | last {chain : List Nat} (hc : chainOf v img item = .ok chain) (hne : chain ≠ [])
      (hp : FatByte v (chain.getLastD 0) p)
  | entry (hp : Span entryPos 32 p)

variable {copy pos : Nat} {chain clusters : List Nat} {stores : List Store}

section

variable {v : FatPrivate} {img : Bytes} {n : Nat}

section

variable {item : DirItem} {start count : Nat} {new : List Nat}

theorem NewClusters.free (h : NewClusters v img item start count new) :
    ∀ c ∈ new, FreeCluster v img c := by
  obtain ⟨old, -, halloc⟩ := h
  exact fun c hc => (alloc_mem halloc c hc).2

theorem NewClusters.writable (hf : Fitted v n) (h : NewClusters v img item start count new) :
    ∀ c ∈ new, Writable v c := by
  obtain ⟨old, -, halloc⟩ := h
  exact alloc_writable hf halloc

end

theorem FatStores.byte (hcopy : copy ≤ 1) (h : FatStores v copy clusters stores) (hst : st ∈ stores)
    (hp : Span st.pos st.len p) : ∃ c ∈ clusters, FatByte v c p := by
  obtain ⟨c, hc, value, rfl⟩ := h st hst
  exact ⟨c, hc, copy, hcopy, hp⟩

theorem zeroStores_span (hst : st ∈ zeroStores v fresh) (hp : Span st.pos st.len p) :
    ∃ c ∈ fresh, InCluster v c p := by
  obtain ⟨c, hc, -, -, hlo, hhi⟩ := mem_zeroStores hst
  rw [Nat.add_mul] at hhi
  obtain ⟨h1, h2⟩ := hp
  refine ⟨c, hc, by omega, ?_⟩
  unfold clusterBytes
  omega

theorem dataStores_span (hb : 0 < clusterBytes v) {fuel position left done : Nat}
    (hst : st ∈ dataStores v chain data fuel position left done) (hp : Span st.pos st.len p) :
    ∃ q, position ≤ q ∧ q < position + left ∧ p = chainPlace v chain q := by
  obtain ⟨q, h1, h2, -, hpos, hlen, -⟩ := mem_dataStores hb hst
  obtain ⟨h3, h4⟩ := hp
  refine ⟨q + (p - st.pos), by omega, by omega, ?_⟩
  rw [chainPlace_add (by omega)]
  unfold chainPlace filePlace
  omega

/-- A byte of the clusters of a file behind a write is one of its old clusters or of a new one. -/
theorem chainPlace_append (hb : 0 < clusterBytes v) {old : List Nat} {q : Nat}
    (hq : q / clusterBytes v < (old ++ fresh).length) :
    (q / clusterBytes v < old.length ∧ chainPlace v (old ++ fresh) q = chainPlace v old q) ∨
      (old.length ≤ q / clusterBytes v ∧ ∃ c ∈ fresh, (old ++ fresh).getD (q / clusterBytes v) 0 =
        c ∧ InCluster v c (chainPlace v (old ++ fresh) q)) := by
  rcases Nat.lt_or_ge (q / clusterBytes v) old.length with hlt | hge
  · refine Or.inl ⟨hlt, ?_⟩
    unfold chainPlace
    rw [List.getD_append _ _ _ _ hlt]
  · have hin := chainPlace_in hb (old ++ fresh) q
    have hget : (old ++ fresh).getD (q / clusterBytes v) 0 =
      fresh.getD (q / clusterBytes v - old.length) 0 :=
      List.getD_append_right _ _ _ _ hge
    rw [List.length_append] at hq
    refine Or.inr ⟨hge, _, getD_mem (by omega), hget, ?_⟩
    rwa [hget] at hin

/-- Every byte that the plan of a write stores is one the write may change. -/
theorem writePlan_touches (hf : Fitted v n) {phases : List Phase}
    (h : writePlan v img d item data count = .ok (phases, b)) (hph : ph ∈ phases)
    (hst : st ∈ ph.stores) (hp : Span st.pos st.len p) :
    WriteTouches v img d.item.entryPos item (writeStart d item) count p := by
  obtain ⟨-, -, -, old, fresh, hold, -, halloc, rfl⟩ := writePlan_ok h
  have hnew : NewClusters v img item (writeStart d item) count fresh := ⟨old, hold, halloc⟩
  obtain ⟨-, hlen, -⟩ := (allocOf_ok_iff _ _ fresh).mp halloc
  have hb := hf.clusterBytes_pos
  rcases List.mem_cons.mp hph with rfl | hph
  · rcases List.mem_append.mp hst with hst | hst
    · obtain ⟨c, hc, hin⟩ := zeroStores_span hst hp
      exact .fresh hnew hc (hnew.free c hc) hin
    · obtain ⟨q, hlo, hhi, rfl⟩ := dataStores_span hb hst hp
      have hq : q / clusterBytes v < (old ++ fresh).length := by
        rw [List.length_append, hlen]
        exact lt_clustersFor v (hhi.trans_le (le_sizeAfter item _))
      rcases chainPlace_append hb hq with ⟨hlt, heq⟩ | ⟨-, c, hc, -, hin⟩
      · exact .data hold hlt hlo hhi heq
      · exact .fresh hnew hc (hnew.free c hc) hin
  · rcases List.mem_append.mp hph with hph | hph
    · obtain ⟨copy, stores, hcopy, rfl, hstores | ⟨hne, hstores⟩⟩ := extend_clusters ph hph
      · obtain ⟨c, hc, hbyte⟩ := hstores.byte hcopy hst hp
        exact .link hnew hc (hnew.free c hc) hbyte
      · obtain ⟨c, hc, hbyte⟩ := hstores.byte hcopy hst hp
        rw [List.mem_singleton.mp hc] at hbyte
        exact .last hold hne hbyte
    · obtain rfl := List.mem_singleton.mp hph
      rw [List.mem_singleton.mp hst] at hp
      exact .entry hp

/-! ## New clusters -/

theorem zeroRun_byte (left : Nat) : ∀ (pos : Nat) (img : Bytes) {p : Nat},
    Span pos (left * sectorSize) p → applyStores (zeroRun pos left) img p = 0 := by
  induction left with
  | zero =>
    intro pos img p hp
    obtain ⟨h1, h2⟩ := hp
    omega
  | succ left ih =>
    intro pos img p hp
    obtain ⟨h1, h2⟩ := hp
    rw [Nat.add_mul, Nat.one_mul] at h2
    unfold zeroRun
    rw [applyStores_cons]
    rcases Nat.lt_or_ge p (pos + sectorSize) with hlt | hge
    · rw [applyStores_outside]
      · obtain ⟨k, rfl⟩ := Nat.exists_eq_add_of_le h1
        exact Store.apply_inside _ (Nat.lt_of_add_lt_add_left hlt)
      · intro st hst
        obtain ⟨-, -, h3, -⟩ := mem_zeroRun hst
        exact Or.inl (by omega)
    · exact ih _ _ ⟨hge, by omega⟩

theorem zeroStores_byte (hn : fresh.Nodup) (hw : ∀ c ∈ fresh, Writable v c) (hp : InCluster v c p) :
    ∀ (img : Bytes), c ∈ fresh → applyStores (zeroStores v fresh) img p = 0 := by
  induction fresh with
  | nil => intro img hc; cases hc
  | cons d fresh ih =>
    intro img hc
    unfold zeroStores
    rw [applyStores_append]
    by_cases hmem : c ∈ fresh
    · exact ih (List.nodup_cons.mp hn).2 (fun e he => hw e (List.mem_cons_of_mem _ he)) _ hmem
    · obtain rfl : c = d := (List.mem_cons.mp hc).resolve_right hmem
      rw [zeroStores_outside]
      · exact zeroRun_byte _ _ _ hp
      · intro e he hin
        have heq := hp.unique hin (hw c List.mem_cons_self).1.1
          (hw e (List.mem_cons_of_mem _ he)).1.1
        exact hmem (heq ▸ he)

/-- The bytes of the new clusters behind the end of the file are zero. -/
theorem writePlan_zero (hf : Fitted v n) (hs : SlotPos v d.item.entryPos) {phases : List Phase}
    (h : writePlan v img d item data count = .ok (phases, b)) :
    ∃ first, DirItem.load (applyPhases phases img) d.item.entryPos =
        rewritten item first (sizeAfter item (writeStart d item + count)) ∧ first < 2 ^ 16 ∧
      ∀ q, sizeAfter item (writeStart d item + count) ≤ q → clustersFor v item.filesize ≤
        q / clusterBytes v →
        q / clusterBytes v < clustersFor v (sizeAfter item (writeStart d item + count)) →
        ∃ c, FreeCluster v img c ∧ clusterAt v (applyPhases phases img) first q = .ok c ∧
          (applyPhases phases img (filePlace v c q) = 0 ∨
            Span d.item.entryPos 32 (filePlace v c q)) := by
  obtain ⟨-, -, -, old, fresh, hold, hcount, halloc, rfl⟩ := writePlan_ok h
  obtain ⟨hfree, hn, hw⟩ := alloc_apart hold hf halloc
  have hlinked := ((chainOf_ok_iff item old).mp hold).2.2.1.linked
  obtain ⟨-, hlen, -⟩ := (allocOf_ok_iff _ _ fresh).mp halloc
  have hb := hf.clusterBytes_pos
  have hend := le_sizeAfter item (writeStart d item + count)
  generalize writeStart d item = start at *
  generalize sizeAfter item (start + count) = size at *
  have hlink := writePhases_linked item start data count size hf hs hn hw hlinked
  refine ⟨(old ++ fresh).headD 0, ?_, ?_, fun q hq hold' hnew => ?_⟩
  · rw [writePhases_apply]
    exact entryStore_load _ _
  · cases hc : old ++ fresh with
    | nil => exact Nat.two_pow_pos 16
    | cons c rest => exact (hw c (hc ▸ List.mem_cons_self)).2.trans_lt hf.max_lt
  · have hidx : q / clusterBytes v < (old ++ fresh).length := by
      rw [List.length_append, hlen]
      exact hnew
    rcases chainPlace_append hb hidx with ⟨hlt, -⟩ | ⟨-, c, hc, hget, hin⟩
    · omega
    · refine ⟨c, hfree c hc, by rw [clusterAt_linked hf hlink hn hw hidx, hget], ?_⟩
      have hplace : filePlace v c q = chainPlace v (old ++ fresh) q := by
        unfold chainPlace
        rw [hget]
      rw [hplace]
      by_cases hent : Span d.item.entryPos 32 (chainPlace v (old ++ fresh) q)
      · exact Or.inr hent
      · left
        unfold Span at hent
        rw [writePhases_behind item start data count size hf hw
          ((cluster_behind hf c).trans hin.1) (by omega), dataStores_outside hb]
        · exact zeroStores_byte (List.nodup_append.mp hn).2.1
            (fun e he => hw e (List.mem_append_right _ he)) hin _ hc
        · intro q' _ h2 he
          have hidx' : q' / clusterBytes v < (old ++ fresh).length := by
            rw [List.length_append, hlen]
            exact lt_clustersFor v (h2.trans_le hend)
          have := chainPlace_inj hb hn hw hidx hidx' he
          omega

/-! ## Opening -/

/-- The directory entry at `pos` is the one an open for writing changes: that of the file it
empties, or the slot of a new file, which is deleted or behind the end of its directory. -/
inductive OpenEntry (v : FatPrivate) (img : Bytes) (path : List (List UInt8)) (mode : FileMode)
    (pos : Nat) : Prop where
  | existing {found : FatItem} {addr : Nat} {entry : DirItem} (hm : mode = .write)
      (hl : lookup v img path = .ok found) (hn : found.node = .file addr entry)
        (hp : found.entryPos = pos)
  | slot {start : Nat} {last : List UInt8} (hl : lookup v img path = .error .enoent)
      (hparent : parentOf v img v.rootDirectory path = .ok (start, last))
      (hstart : start ≠ 0 → fat16ValidCluster v start)
      (hroom : roomFrom v img start directoryFuel 0 none false = .ok pos)
        (hvacant : img pos = 0xE5 ∨ img pos = 0)

/-- The bytes that an open for writing may change: its entry, and the FAT entries of the chain it
frees. -/
inductive OpenTouches (v : FatPrivate) (img : Bytes) (path : List (List UInt8)) (mode : FileMode)
    (p : Nat) : Prop where
  | entry {pos : Nat} (h : OpenEntry v img path mode pos) (hp : Span pos 32 p)
  | freed {found : FatItem} {addr : Nat} {entry : DirItem} {chain : List Nat} {c : Nat}
      (hm : mode = .write) (hl : lookup v img path = .ok found) (hn : found.node = .file addr entry)
      (hc : chainOf v img entry = .ok chain) (hmem : c ∈ chain) (hp : FatByte v c p)

/-- The first byte of a slot is the one on the disk. -/
theorem slotOf_first (hr : Rooted v) (h : RootItems v img) {start i : Nat}
    (hslot : slotOf v img start i = .ok (some (item, pos))) : item.byte 0 = img pos := by
  unfold slotOf at hslot
  by_cases h0 : start = 0
  · rw [if_pos h0] at hslot
    split at hslot
    · cases hslot
    · rename_i hi
      obtain ⟨-, hslot⟩ := except_guard_ok.mp hslot
      cases hslot
      rw [h i (by omega), load_first, hr.pos]
      rfl
  · rw [if_neg h0] at hslot
    split at hslot
    · cases hslot
    · cases hslot
    · obtain ⟨-, hslot⟩ := except_guard_ok.mp hslot
      obtain ⟨-, hslot⟩ := except_guard_ok.mp hslot
      cases hslot
      exact load_first _ _

/-- The slot of a new entry is deleted or free. -/
theorem roomFrom_vacant (hr : Rooted v) (h : RootItems v img) {start : Nat} (fuel : Nat) :
    ∀ {i : Nat} {slot : Option Nat} {lfn : Bool} {pos : Nat}, (∀ p, slot = some p → img p = 0xE5) →
      roomFrom v img start fuel i slot lfn = .ok pos → img pos = 0xE5 ∨ img pos = 0 := by
  induction fuel with
  | zero => intro i slot lfn pos _ hroom; cases hroom
  | succ fuel ih =>
    intro i slot lfn pos hslot hroom
    rcases roomFrom_ok hroom with hpos | ⟨entry, hn, h0, -⟩ | ⟨entry, p, hn, -, hlater⟩
    · exact Or.inl (hslot pos hpos)
    · rw [slotOf_first hr h hn] at h0
      exact Or.inr h0
    · refine ih (fun q hq => ?_) hlater
      split at hq
      · rename_i hdel
        cases hq
        rw [← slotOf_first hr h hn]
        exact hdel.2.1
      · exact hslot q hq

theorem openPlan_touches (hr : Rooted v) (hroot : RootItems v img) {path : List (List UInt8)}
    {mode : FileMode} (hm : mode ≠ .read) {phases : List Phase} {item : FatItem}
    (h : openPlan v img path mode = .ok (phases, item)) (hph : ph ∈ phases) (hst : st ∈ ph.stores)
    (hp : Span st.pos st.len p) : OpenTouches v img path mode p := by
  rcases openPlan_ok hm h with ⟨hl, hc⟩ |
    ⟨found, addr, entry, hl, hn, -, ⟨hw, chain, hchain, rfl, -⟩ | ⟨-, -, rfl, -⟩⟩
  · obtain ⟨start, last, slot, base, ext, hparent, hstart, hslot, -, rfl, -⟩ := createPlan_ok hc
    obtain rfl := List.mem_singleton.mp hph
    rw [List.mem_singleton.mp hst] at hp
    have hvacant := roomFrom_vacant hr hroot directoryFuel (fun q hq => (by cases hq)) hslot
    exact .entry (.slot hl hparent hstart hslot hvacant) hp
  · rcases List.mem_cons.mp hph with rfl | hph
    · rw [List.mem_singleton.mp hst] at hp
      exact .entry (.existing hw hl hn rfl) hp
    · obtain ⟨copy, stores, hcopy, rfl, hstores⟩ := free_stores ph hph
      obtain ⟨c, hc, hbyte⟩ := hstores.byte hcopy hst hp
      exact .freed hw hl hn hchain hc hbyte
  · cases hph

/-! ## Where these bytes lie -/

theorem FatByte.bounds (hf : Fitted v n) (hc : c ≤ fat16ClusterLimit v) (h : FatByte v c p) :
    reservedSectors v.header * sectorSize ≤ p ∧ p < rootSector v.header * sectorSize := by
  obtain ⟨copy, hcopy, hlo, hhi⟩ := h
  have hend := (hf.fat_end hcopy hc).2.1
  refine ⟨?_, by omega⟩
  unfold fatEntryPos at hlo
  rw [Nat.add_mul] at hlo
  omega

theorem reserved_root (v : FatPrivate) :
    reservedSectors v.header * sectorSize ≤ rootSector v.header * sectorSize :=
  Nat.mul_le_mul_right _ (Nat.le_add_left _ _)

/-- No byte of the FATs lies in a cluster. -/
theorem FatByte.apart (hf : Fitted v n) {d : Nat} (hc : c ≤ fat16ClusterLimit v)
    (h : FatByte v c p) : ¬ InCluster v d p := fun hin => by
  have h1 := (h.bounds hf hc).2
  have h2 := cluster_behind hf d
  have h3 := hin.1
  omega

theorem chainOf_writable (h : chainOf v img item = .ok chain) :
    ∀ c ∈ chain, Writable v c := ((chainOf_ok_iff item chain).mp h).2.2.1.writable

section

variable {entryPos start count p : Nat} {item : DirItem}

/-- A write stays behind the boot sector and the rest of the reserved area. -/
theorem WriteTouches.reserved (hf : Fitted v n) (hs : SlotPos v entryPos)
    (h : WriteTouches v img entryPos item start count p) :
    reservedSectors v.header * sectorSize ≤ p := by
  have hcluster : ∀ {c}, InCluster v c p → reservedSectors v.header * sectorSize ≤ p :=
    fun {c} hin =>
    (reserved_root v).trans ((cluster_behind hf c).trans hin.1)
  cases h with
  | @data chain q hc hq _ _ hp =>
    rw [hp] at hcluster ⊢
    exact hcluster (chainPlace_in hf.clusterBytes_pos chain q)
  | fresh _ _ _ hp => exact hcluster hp
  | link hnew hc _ hp => exact (hp.bounds hf (hnew.writable hf _ hc).1.2.1).1
  | last hc hne hp => exact (hp.bounds hf (chainOf_writable hc _ (getLastD_mem hne)).1.2.1).1
  | entry hp => exact (reserved_root v).trans ((hs.place.behind hf).trans hp.1)

/-- The clusters a write changes are its new ones, its own, and the one with its entry. -/
theorem WriteTouches.cluster (hf : Fitted v n) (h : WriteTouches v img entryPos item start count p)
    (hc : fat16ValidCluster v c) (hin : InCluster v c p) :
    (∃ new, NewClusters v img item start count new ∧ c ∈ new) ∨
      (∃ chain, chainOf v img item = .ok chain ∧ c ∈ chain) ∨ Span entryPos 32 p := by
  cases h with
  | @data chain q hchain hq _ _ hp =>
    have hmem := getD_mem hq
    have hplace := chainPlace_in hf.clusterBytes_pos chain q
    rw [← hp] at hplace
    have heq := hin.unique hplace hc.1 (chainOf_writable hchain _ hmem).1.1
    exact Or.inr (Or.inl ⟨chain, hchain, heq ▸ hmem⟩)
  | @fresh new d hnew hd _ hp =>
    have heq := hin.unique hp hc.1 (hnew.writable hf d hd).1.1
    exact Or.inl ⟨new, hnew, heq ▸ hd⟩
  | link hnew hd _ hp => exact absurd hin (hp.apart hf (hnew.writable hf _ hd).1.2.1)
  | last hchain hne hp =>
    exact absurd hin (hp.apart hf (chainOf_writable hchain _ (getLastD_mem hne)).1.2.1)
  | entry hp => exact Or.inr (Or.inr hp)

end

section

variable {path : List (List UInt8)} {mode : FileMode} {p : Nat}

theorem OpenEntry.place (hr : Rooted v) (hf : Fitted v n) (h : OpenEntry v img path mode pos) :
    SlotPos v pos := by
  cases h with
  | existing _ hl _ hp =>
    rw [← hp]
    exact (lookup_located hr hf hl).slot
  | slot _ _ hstart hroom _ => exact roomFrom_slot hr hstart (fun q hq => (by cases hq)) hroom

theorem OpenTouches.reserved (hr : Rooted v) (hf : Fitted v n) (h : OpenTouches v img path mode p) :
    reservedSectors v.header * sectorSize ≤ p := by
  cases h with
  | entry h hp => exact (reserved_root v).trans (((h.place hr hf).place.behind hf).trans hp.1)
  | freed _ _ _ hc hmem hp => exact (hp.bounds hf (chainOf_writable hc _ hmem).1.2.1).1

/-- In the clusters an open changes nothing but its entry. -/
theorem OpenTouches.cluster (hf : Fitted v n) (h : OpenTouches v img path mode p)
    (hin : InCluster v c p) : ∃ pos, OpenEntry v img path mode pos ∧ Span pos 32 p := by
  cases h with
  | entry h hp => exact ⟨_, h, hp⟩
  | freed _ _ _ hc hmem hp => exact absurd hin (hp.apart hf (chainOf_writable hc _ hmem).1.2.1)

end

/-! ## The cached root directory -/

/-- The phase stores one directory entry and publishes it, or stores nothing in the root directory.
-/
inductive RootSafe (v : FatPrivate) : Phase → Prop where
  | commit {pos : Nat} (item : DirItem) (h : EntryAt v pos) : RootSafe v (commitPhase pos item)
  | plain {stores : List Store} (h : ∀ st ∈ stores, st.pos + st.len ≤ rootSector v.header *
    sectorSize ∨
      v.rootDirectory.endingSectorPos * sectorSize ≤ st.pos) : RootSafe v (.plain stores)

theorem RootItems.phase (hf : Fitted v n) (hr : Rooted v) (hph : RootSafe v ph)
    (h : RootItems v img) : RootItems (ph.after v) (applyStores ph.stores img) := by
  cases hph with
  | commit item hpos => exact h.publish hr hpos.aligned
  | @plain stores hst =>
    intro i hi
    change v.rootDirectory.item i = DirItem.load (applyStores stores img) _
    rw [h i hi]
    have hend := rootFolder_end hf.accepted hi
    funext k
    have hk := k.isLt
    change img ((rootFolder v).place i + k) = applyStores stores img ((rootFolder v).place i + k)
    have hlo : rootSector v.header * sectorSize ≤ (rootFolder v).place i := Nat.le_add_right _ _
    rw [applyStores_outside]
    intro st hm
    rcases hst st hm with hb | hb
    · exact Or.inr (by omega)
    · exact Or.inl (by omega)

theorem RootSafe.congr {w : FatPrivate} (hl : SameLayout v w) (h : RootSafe v ph) :
    RootSafe w ph := by
  cases h with
  | commit item h => exact .commit item (h.congr hl.header hl.data)
  | plain h =>
    refine .plain fun st hst => ?_
    rw [hl.header, hl.data]
    exact h st hst

theorem RootItems.phases {identify : Except Errno Nat} (hf : Fitted v n) (phases : List Phase)
    (hsafe : ∀ ph ∈ phases, RootSafe v ph) : ∀ {w : FatPrivate} {img : Bytes}, SameLayout v w →
      Tidy identify w → (∀ ph ∈ phases, ph.Publishes) → RootItems w img →
      RootItems (afterPhases phases w) (applyPhases phases img) := by
  induction phases with
  | nil => intro w img _ _ _ h; exact h
  | cons ph phases ih =>
    intro w img hl ht hpub h
    have hone : ∀ p ∈ [ph], p.Publishes := fun p hp =>
      hpub p (by rw [List.mem_singleton.mp hp]; exact List.mem_cons_self)
    refine ih (fun p hp => hsafe p (List.mem_cons_of_mem _ hp)) (w := ph.after w)
      (hl.trans (afterPhases_layout [ph] hone)) (ht.afterPhases [ph] hone)
      (fun p hp => hpub p (List.mem_cons_of_mem _ hp)) ?_
    exact h.phase (hl.fitted hf) ht.rooted ((hsafe ph List.mem_cons_self).congr hl)

theorem rootSafe_fat (hf : Fitted v n) (hcopy : copy ≤ 1) (hw : ∀ c ∈ clusters, Writable v c)
    (h : FatStores v copy clusters stores) : RootSafe v (.plain stores) :=
  .plain fun st hst => Or.inl (h.below hf hcopy hw st hst)

theorem writePlan_rootSafe (hf : Fitted v n) (hs : SlotPos v d.item.entryPos) {phases : List Phase}
    (h : writePlan v img d item data count = .ok (phases, b)) : ∀ ph ∈ phases, RootSafe v ph := by
  obtain ⟨-, -, -, old, fresh, hold, -, halloc, rfl⟩ := writePlan_ok h
  obtain ⟨-, -, hw⟩ := alloc_apart hold hf halloc
  intro ph hph
  rcases List.mem_cons.mp hph with rfl | hph
  · refine .plain fun st hst => Or.inr ?_
    rcases List.mem_append.mp hst with hst | hst
    · obtain ⟨c, -, -, -, hlo, -⟩ := mem_zeroStores hst
      exact (cluster_start v c).trans hlo
    · obtain ⟨q, -, -, -, hpos, -, -⟩ := mem_dataStores hf.clusterBytes_pos hst
      rw [hpos]
      exact (cluster_start v _).trans (Nat.le_add_right _ _)
  · rcases List.mem_append.mp hph with hph | hph
    · obtain ⟨copy, stores, hcopy, rfl, hstores⟩ := extend_stores ph hph
      exact rootSafe_fat hf hcopy hw hstores
    · rw [List.mem_singleton.mp hph]
      exact .commit _ hs.place

theorem openPlan_rootSafe (hr : Rooted v) (hf : Fitted v n) {path : List (List UInt8)}
    {mode : FileMode}
    (hm : mode ≠ .read) {phases : List Phase} {item : FatItem}
    (h : openPlan v img path mode = .ok (phases, item)) :
    ∀ ph ∈ phases, RootSafe v ph := by
  rcases openPlan_ok hm h with ⟨-, hc⟩ |
    ⟨found, addr, entry, hl, -, -, ⟨-, chain, hchain, rfl, -⟩ | ⟨-, -, rfl, -⟩⟩
  · obtain ⟨start, last, slot, base, ext, -, hstart, hslot, -, rfl, -⟩ := createPlan_ok hc
    intro ph hph
    rw [List.mem_singleton.mp hph]
    exact .commit _ (roomFrom_slot hr hstart (fun q hq => (by cases hq)) hslot).place
  · intro ph hph
    rcases List.mem_cons.mp hph with rfl | hph
    · exact .commit _ (lookup_located hr hf hl).slot.place
    · obtain ⟨copy, stores, hcopy, rfl, hstores⟩ := free_stores ph hph
      exact rootSafe_fat hf hcopy (chainOf_writable hchain) hstores
  · intro ph hph
    cases hph

end

end Rorthox.Fat
