import Rorthox.Fat.Chains
import Rorthox.Fat.ReadChain

/-!
# Collecting a chain

`fat16_collect_chain` with the one allocation that holds the array of 16-bit cluster
numbers and, behind it, the bitmap of those seen. Every access is checked against the
size of the allocation; a null pointer has size 0. The loop over lists of `Mutate` does
the same, never leaves the allocation and ends.
-/

namespace Rorthox.Fat

open Lib Disk Memory

/-! ## The shared allocation -/

/-- The byte of the bitmap for a cluster, behind an array of `capacity` numbers. -/
def seenIndex (capacity cluster : Nat) : Nat := capacity * 2 + cluster / 8

def seenMask (cluster : Nat) : UInt8 := 1 <<< UInt8.ofNat (cluster % 8)

def SeenBit (buf : Bytes) (capacity cluster : Nat) : Prop :=
  buf (seenIndex capacity cluster) &&& seenMask cluster ≠ 0

instance (buf : Bytes) (capacity cluster : Nat) : Decidable (SeenBit buf capacity cluster) :=
  inferInstanceAs (Decidable (_ ≠ _))

def markSeen (capacity cluster : Nat) (buf : Bytes) : Bytes :=
  Function.update buf (seenIndex capacity cluster)
    (buf (seenIndex capacity cluster) ||| seenMask cluster)

/-- `chain[i] = cluster`. -/
def storeCluster (i cluster : Nat) (buf : Bytes) : Bytes :=
  memcpy buf (i * 2) (ofList (enc16 cluster)) 0 2

/-- What the allocation holds when these clusters have been collected. -/
def chainBuffer (capacity : Nat) (chain : List Nat) : Bytes :=
  chain.zipIdx.foldl (fun buf c => storeCluster c.2 c.1 (markSeen capacity c.1 buf)) fun _ => 0

theorem chainBuffer_append (capacity : Nat) (chain : List Nat) (c : Nat) :
    chainBuffer capacity (chain ++ [c]) =
      storeCluster chain.length c (markSeen capacity c (chainBuffer capacity chain)) := by
  rw [chainBuffer, List.zipIdx_append, List.foldl_append, Nat.zero_add]
  rfl

theorem mask_or (x : UInt8) (j k : Fin 8) :
    (x ||| 1 <<< UInt8.ofNat k.val) &&& 1 <<< UInt8.ofNat j.val ≠ 0 ↔
      x &&& 1 <<< UInt8.ofNat j.val ≠ 0 ∨ j = k := by
  have hmask : ∀ j k : Fin 8,
      ((1 <<< UInt8.ofNat k.val : UInt8) &&& 1 <<< UInt8.ofNat j.val = 0) ↔ j ≠ k := by
    decide
  have hsplit : (x ||| 1 <<< UInt8.ofNat k.val) &&& 1 <<< UInt8.ofNat j.val = 0 ↔
      x &&& 1 <<< UInt8.ofNat j.val = 0 ∧
        (1 <<< UInt8.ofNat k.val : UInt8) &&& 1 <<< UInt8.ofNat j.val = 0 := by
    simp only [← UInt8.toBitVec_inj, UInt8.toBitVec_and, UInt8.toBitVec_or,
      BitVec.and_or_distrib_right]
    exact BitVec.or_eq_zero_iff
  rw [ne_eq, hsplit, hmask, not_and_or, not_not]

theorem seenMask_or (x : UInt8) (c d : Nat) :
    (x ||| seenMask c) &&& seenMask d ≠ 0 ↔ x &&& seenMask d ≠ 0 ∨ d % 8 = c % 8 := by
  have h := mask_or x ⟨d % 8, Nat.mod_lt d (by decide)⟩ ⟨c % 8, Nat.mod_lt c (by decide)⟩
  rw [Fin.mk.injEq] at h
  exact h

/-- Marking a cluster sets its bit and no other. -/
theorem seenBit_mark (capacity c d : Nat) (buf : Bytes) :
    SeenBit (markSeen capacity c buf) capacity d ↔ SeenBit buf capacity d ∨ d = c := by
  rw [SeenBit, SeenBit, markSeen]
  by_cases hbyte : seenIndex capacity d = seenIndex capacity c
  · rw [hbyte, Function.update_self, seenMask_or]
    have hdiv : d / 8 = c / 8 := Nat.add_left_cancel hbyte
    refine or_congr_right ⟨fun hmod => ?_, fun h => by rw [h]⟩
    rw [← Nat.div_add_mod d 8, ← Nat.div_add_mod c 8, hdiv, hmod]
  · rw [Function.update_of_ne hbyte]
    have hne : d ≠ c := fun h => hbyte (by rw [h])
    exact (or_iff_left hne).symm

variable {c capacity : Nat} {chain l : List Nat}

/-- A number in the array does not reach the bitmap. -/
theorem seenBit_store {i : Nat} (hi : i < capacity) (c d : Nat) (buf : Bytes) :
    SeenBit (storeCluster i c buf) capacity d ↔ SeenBit buf capacity d := by
  have hout : storeCluster i c buf (seenIndex capacity d) = buf (seenIndex capacity d) :=
    memcpy_outside (Or.inr (by rw [seenIndex]; omega))
  rw [SeenBit, SeenBit, hout]

theorem seenBit_iff (hlen : chain.length ≤ capacity) (d : Nat) :
    SeenBit (chainBuffer capacity chain) capacity d ↔ d ∈ chain := by
  induction chain using List.reverseRecOn with
  | nil => exact iff_of_false (fun h => h (by simp [chainBuffer])) List.not_mem_nil
  | append_singleton chain c ih =>
    rw [List.length_append, List.length_singleton] at hlen
    rw [chainBuffer_append, seenBit_store hlen, seenBit_mark, ih (by omega), List.mem_append,
      List.mem_singleton]

/-- The array at the start of the buffer reads as the list. -/
def Holds (buf : Bytes) (l : List Nat) : Prop := ∀ i c, l[i]? = some c → le16 buf (i * 2) = c

theorem Holds.store {buf : Bytes} (h : Holds buf l) (hc : c < 2 ^ 16) :
    Holds (storeCluster l.length c buf) (l ++ [c]) := by
  intro i d hi
  rcases Nat.lt_or_ge i l.length with hlt | hge
  · rw [List.getElem?_append_left hlt] at hi
    rw [← h i d hi]
    exact le16_congr (memcpy_outside (Or.inl (by omega))) (memcpy_outside (Or.inl (by omega)))
  · have hlt := (List.getElem?_eq_some_iff.mp hi).1
    rw [List.length_append, List.length_singleton] at hlt
    obtain rfl : i = l.length := by omega
    rw [List.getElem?_concat_length] at hi
    obtain rfl := Option.some.inj hi
    have hstore : ∀ o, o < 2 → storeCluster l.length c buf (l.length * 2 + o) =
        ofList (enc16 c) o := by
      intro o ho
      rw [storeCluster, memcpy_of_lt (by omega) (by omega)]
      congr 1
      omega
    exact le16_enc16 (hstore 0 (by decide)) (hstore 1 (by decide)) hc

/-- The bitmap lies behind the array. -/
theorem Holds.mark {buf : Bytes} (h : Holds buf l) (hlen : l.length ≤ capacity) (c : Nat) :
    Holds (markSeen capacity c buf) l := by
  intro i d hi
  have hlt := (List.getElem?_eq_some_iff.mp hi).1
  have hkeep : ∀ o, o < capacity * 2 → markSeen capacity c buf o = buf o := by
    intro o ho
    rw [markSeen, Function.update_of_ne]
    rw [seenIndex]
    omega
  rw [← h i d hi]
  exact le16_congr (hkeep _ (by omega)) (hkeep _ (by omega))

theorem chainBuffer_holds (hlen : chain.length ≤ capacity) (hsmall : ∀ c ∈ chain, c < 2 ^ 16) :
    Holds (chainBuffer capacity chain) chain := by
  induction chain using List.reverseRecOn with
  | nil => intro i c hi; cases hi
  | append_singleton chain last ih =>
    rw [List.length_append, List.length_singleton] at hlen
    rw [chainBuffer_append]
    have hprev := ih (by omega) fun d hd => hsmall d (List.mem_append_left _ hd)
    exact (hprev.mark (by omega) last).store
      (hsmall last (List.mem_append_right _ (List.mem_singleton_self last)))

/-! ## The function on its memory -/

/-- How it can end: with a code, or by an access outside the allocation or a division by
zero, which the source does not check. -/
inductive MemError where
  | code (e : Errno)
  | fault

structure CollectTurn where
  current : Nat
  count : Nat
  buf : Bytes

/-- `while (current)`, over an allocation of `size` bytes. -/
def collectTurn (v : FatPrivate) (size capacity : Nat) (t : CollectTurn) :
    Prog FsState MemError (CollectTurn ⊕ Bytes × Nat) :=
  if t.current = 0 then pure (.inr (t.buf, t.count))
  else do
    Prog.refuse (¬ fat16ValidCluster v t.current ∨ v.maxWritable < t.current ∨ capacity ≤ t.count)
      (.code .eio)
    Prog.refuse (size ≤ seenIndex capacity t.current) .fault
    Prog.refuse (SeenBit t.buf capacity t.current) (.code .eio)
    let buf := markSeen capacity t.current t.buf
    Prog.refuse (size < t.count * 2 + 2) .fault
    let buf := storeCluster t.count t.current buf
    let next ← (fat16GetFatEntry t.current).recode .code
    if eocStart ≤ next then pure (.inr (buf, t.count + 1))
    else do
      Prog.refuse (¬ fat16ValidCluster v next) (.code .eio)
      pure (.inl ⟨next, t.count + 1, buf⟩)

/-- The size of the allocation, 0 for none. -/
def chainSize (v : FatPrivate) : Nat :=
  if 0 < v.maxWritable - 1 then (v.maxWritable - 1) * 2 + (v.maxWritable + 8) / 8 else 0

/-- The address, the content and the number of clusters. -/
def collectChainIn (stuck : CollectTurn → Prog FsState MemError (Bytes × Nat)) (item : DirItem) :
    Prog FsState MemError (Nat × Bytes × Nat) := do
  let v ← Prog.look (·.vol)
  Prog.refuse (item.highFirstCluster ≠ 0) (.code .eio)
  Prog.refuse (intMax < item.filesize) (.code .efbig)
  let capacity := v.maxWritable - 1
  let addr ← (if 0 < capacity then (kzalloc .enomem (chainSize v)).recode .code else pure 0)
  Prog.undo (m := do
    let (buf, count) ← Prog.loop stuck (collectTurn v (chainSize v) capacity) (capacity + 1)
      ⟨item.lowFirstCluster, 0, fun _ => 0⟩
    Prog.refuse (clusterBytes v = 0) .fault
    Prog.refuse (count < clustersFor v item.filesize) (.code .eio)
    pure (addr, buf, count))
    (kfreeAt addr)

variable {v : FatPrivate} {img : Bytes}

theorem seenIndex_lt (hcap : 0 < v.maxWritable - 1) (hc : c ≤ v.maxWritable) :
    seenIndex (v.maxWritable - 1) c < chainSize v := by
  rw [chainSize, if_pos hcap, seenIndex]
  omega

theorem array_le {count : Nat} (h : count < v.maxWritable - 1) : count * 2 + 2 ≤ chainSize v := by
  rw [chainSize, if_pos (by omega)]
  omega

/-- By induction on the numbers that still fit in the array. -/
theorem collectLoop_is (fuel : Nat) : ∀ (current : Nat) (chain : List Nat), current ≠ 0 →
    chain.length ≤ v.maxWritable - 1 → chain.length + fuel = v.maxWritable - 1 + 1 →
    Prog.LoopIs (collectTurn v (chainSize v) (v.maxWritable - 1)) fuel
      ⟨current, chain.length, chainBuffer (v.maxWritable - 1) chain⟩
      ((collectLoop v (v.maxWritable - 1) fuel current chain).recode .code >>= fun l =>
        pure (chainBuffer (v.maxWritable - 1) l, l.length)) := by
  induction fuel with
  | zero =>
    intro current chain _ hlen hfuel
    omega
  | succ fuel ih =>
    intro current chain hne hlen hfuel stuck
    rw [Prog.loop, collectTurn, if_neg hne, collectLoop]
    simp only [Prog.recode_bind, Prog.recode_refuse, bind_assoc]
    by_cases hbad : ¬ fat16ValidCluster v current ∨ v.maxWritable < current ∨
        v.maxWritable - 1 ≤ chain.length
    · have hstop : ¬ fat16ValidCluster v current ∨ v.maxWritable < current ∨
          v.maxWritable - 1 ≤ chain.length ∨ current ∈ chain := by tauto
      rw [Prog.refuse_of hbad, Prog.raise_bind, Prog.refuse_of hstop, Prog.raise_bind]
    · push Not at hbad
      obtain ⟨hvalid, hmax, hroom⟩ := hbad
      rw [Prog.refuse_of_not (by push Not; exact ⟨hvalid, hmax, hroom⟩), pure_bind,
        Prog.refuse_of_not (Nat.not_le.mpr (seenIndex_lt (by omega) hmax)), pure_bind]
      by_cases hseen : current ∈ chain
      · have hstop : ¬ fat16ValidCluster v current ∨ v.maxWritable < current ∨
            v.maxWritable - 1 ≤ chain.length ∨ current ∈ chain := Or.inr (Or.inr (Or.inr hseen))
        rw [Prog.refuse_of ((seenBit_iff hlen current).mpr hseen), Prog.raise_bind,
          Prog.refuse_of hstop, Prog.raise_bind]
      · have hgo : ¬ (¬ fat16ValidCluster v current ∨ v.maxWritable < current ∨
            v.maxWritable - 1 ≤ chain.length ∨ current ∈ chain) := by
          push Not
          exact ⟨hvalid, hmax, hroom, hseen⟩
        rw [Prog.refuse_of_not (mt (seenBit_iff hlen current).mp hseen), pure_bind,
          Prog.refuse_of_not (Nat.not_lt.mpr (array_le hroom)), pure_bind, Prog.refuse_of_not hgo,
            pure_bind,
          ← chainBuffer_append]
        congr 1
        funext next
        by_cases heoc : eocStart ≤ next
        · rw [if_pos heoc, if_pos heoc, Prog.recode_pure, pure_bind, pure_bind, List.length_append,
            List.length_singleton]
          rfl
        · rw [if_neg heoc, if_neg heoc]
          simp only [Prog.recode_bind, Prog.recode_refuse, bind_assoc]
          by_cases hnext : fat16ValidCluster v next
          · rw [Prog.refuse_of_not (not_not.mpr hnext)]
            simp only [pure_bind]
            have hzero : next ≠ 0 := by
              have h2 := hnext.1
              omega
            have h := ih next (chain ++ [current]) hzero
              (by rw [List.length_append, List.length_singleton]; omega)
              (by rw [List.length_append, List.length_singleton]; omega) stuck
            rw [List.length_append, List.length_singleton] at h
            exact h
          · rw [Prog.refuse_of hnext, Prog.raise_bind, Prog.raise_bind]

/-- The loop from its start. -/
theorem collect_is (first : Nat) : Prog.LoopIs (collectTurn v (chainSize v) (v.maxWritable - 1))
    (v.maxWritable - 1 + 1) ⟨first, 0, fun _ => 0⟩
    ((if first = 0 then (pure [] : FsProg (List Nat))
      else collectLoop v (v.maxWritable - 1) (v.maxWritable - 1 + 1) first []).recode .code >>=
        fun l =>
        pure (chainBuffer (v.maxWritable - 1) l, l.length)) := by
  by_cases h : first = 0
  · intro stuck
    rw [if_pos h, Prog.loop, collectTurn, if_pos h]
    rfl
  · rw [if_neg h]
    exact collectLoop_is _ first [] h (Nat.zero_le _) (Nat.zero_add _)

/-- The function on its memory is that over lists: it ends, whatever would come after its
turns, and touches nothing but its allocation. -/
theorem collectChainIn_eq (stuck : CollectTurn → Prog FsState MemError (Bytes × Nat))
    (item : DirItem) (s : FsState) (hb : 0 < clusterBytes s.vol) :
    collectChainIn stuck item s = ((fat16CollectChain item).recode .code >>= fun c =>
      pure (c.2, chainBuffer (s.vol.maxWritable - 1) c.1, c.1.length)) s := by
  rw [collectChainIn, fat16CollectChain, Prog.recode_bind, bind_assoc, Prog.recode_look]
  refine Prog.look_congr ?_
  simp only [Prog.recode_bind, Prog.recode_refuse, bind_assoc, Prog.recode_undo,
    Prog.undo_bind_pure]
  congr 1
  funext _
  congr 1
  funext _
  congr 1
  · rw [chainSize]
    split
    · rfl
    · rfl
  · funext addr
    rw [collect_is item.lowFirstCluster stuck]
    simp only [bind_assoc, pure_bind, Prog.refuse_of_not (Nat.ne_of_gt hb), Prog.recode_pure]

/-! ## The walk -/

/-- The links from `first` on lead through these clusters to an end mark; through none from 0. -/
def WalkOf (v : FatPrivate) (img : Bytes) (first : Nat) (chain : List Nat) : Prop :=
  if first = 0 then chain = []
  else ∃ n, chain = (List.range (n + 1)).map (link v img first) ∧
    eocStart ≤ link v img first (n + 1)

theorem linked_iff : Linked v img 0 (c :: l) ↔
    c :: l = (List.range (l.length + 1)).map (link v img c) ∧
      eocStart ≤ link v img c (l.length + 1) := by
  induction l generalizing c with
  | nil => exact (and_iff_right rfl).symm
  | cons d l ih =>
    have hmap : (List.range ((d :: l).length + 1)).map (link v img c) =
        c :: (List.range (l.length + 1)).map (link v img (fatAt v img 0 c)) := by
      rw [List.length_cons, List.range_succ_eq_map, List.map_cons, List.map_map]
      rfl
    have hend : link v img c ((d :: l).length + 1) = link v img (fatAt v img 0 c) (l.length + 1) :=
      rfl
    rw [hmap, hend, List.cons.injEq, eq_self, true_and]
    constructor
    · rintro ⟨rfl, hrest⟩
      exact ih.mp hrest
    · rintro ⟨hl, heoc⟩
      have hd : fatAt v img 0 c = d := by
        rw [List.range_succ_eq_map, List.map_cons] at hl
        exact (List.cons.inj hl).1.symm
      rw [hd] at hl heoc
      exact ⟨hd, ih.mpr ⟨hl, heoc⟩⟩

theorem walkOf_iff {first : Nat} (h0 : 0 ∉ chain) :
    chain.headD 0 = first ∧ Linked v img 0 chain ↔ WalkOf v img first chain := by
  rw [WalkOf]
  cases chain with
  | nil =>
    by_cases hfirst : first = 0
    · rw [if_pos hfirst]
      exact iff_of_true ⟨hfirst.symm, trivial⟩ rfl
    · rw [if_neg hfirst]
      refine iff_of_false (fun h => hfirst h.1.symm) ?_
      rintro ⟨n, hn, -⟩
      rw [List.range_succ_eq_map, List.map_cons] at hn
      exact List.cons_ne_nil _ _ hn.symm
  | cons c l =>
    have hc : c ≠ 0 := fun h => h0 (h ▸ List.mem_cons_self)
    by_cases hfirst : first = 0
    · rw [if_pos hfirst]
      exact iff_of_false (fun h => hc (h.1.trans hfirst)) (List.cons_ne_nil c l)
    · rw [if_neg hfirst, linked_iff]
      constructor
      · rintro ⟨rfl, hl, heoc⟩
        exact ⟨l.length, hl, heoc⟩
      · rintro ⟨n, hn, heoc⟩
        have hlen : l.length = n := by
          have h1 := congrArg List.length hn
          rw [List.length_map, List.length_range, List.length_cons] at h1
          exact Nat.succ.inj h1
        have hhead : c = first := by
          rw [List.range_succ_eq_map, List.map_cons] at hn
          exact (List.cons.inj hn).1
        subst hlen hhead
        exact ⟨rfl, hn, heoc⟩

/-- Below the volume's last cluster number every number from 2 on is one of a cluster. -/
theorem writable_iff (hmax : v.maxWritable ≤ fat16ClusterLimit v) (c : Nat) :
    Writable v c ↔ 2 ≤ c ∧ c ≤ v.maxWritable := by
  have hlimit := limit_le v
  constructor
  · exact fun h => ⟨h.1.1, h.2⟩
  · rintro ⟨h2, hc⟩
    refine ⟨⟨h2, by omega, ?_, ?_⟩, hc⟩
    · rw [badSector]
      omega
    · rw [eocStart]
      omega

theorem chain_iff {first : Nat} : Chain v img 0 first chain ↔
    WalkOf v img first chain ∧ chain.Nodup ∧ ∀ c ∈ chain, Writable v c := by
  have hzero : (∀ c ∈ chain, Writable v c) → 0 ∉ chain := fun hall h =>
    absurd (hall 0 h).1.1 (by decide)
  constructor
  · intro h
    exact ⟨(walkOf_iff (hzero h.writable)).mp ⟨h.head, h.linked⟩, h.nodup, h.writable⟩
  · rintro ⟨hwalk, hnodup, hall⟩
    obtain ⟨hhead, hlinked⟩ := (walkOf_iff (hzero hall)).mpr hwalk
    exact ⟨hhead, hlinked, hall, hnodup⟩

/-- The number of clusters for a size is the quotient rounded up. -/
theorem clustersFor_eq (hb : 0 < clusterBytes v) (size : Nat) :
    clustersFor v size = (size + clusterBytes v - 1) / clusterBytes v := by
  rw [clustersFor]
  have hdiv := Nat.div_add_mod size (clusterBytes v)
  have hmod := Nat.mod_lt size hb
  symm
  split
  · refine Nat.div_eq_of_lt_le ?_ ?_
    · rw [Nat.add_mul, Nat.mul_comm]
      omega
    · rw [Nat.add_mul, Nat.add_mul, Nat.mul_comm]
      omega
  · refine Nat.div_eq_of_lt_le ?_ ?_
    · rw [Nat.add_zero, Nat.mul_comm]
      omega
    · rw [Nat.add_zero, Nat.add_mul, Nat.mul_comm]
      omega

/-! ## What is collected -/

theorem collected_chain {item : DirItem} {s : FsState} {addr : Nat}
    (h : (fat16CollectChain item s).1 = .ok (chain, addr)) :
    chainOf s.vol s.dev.image item = .ok chain :=
  ((reading_collectChain item).ran (s := s)).ok_view h

/-- The chains that are collected, and where they are stored.

`collectChainIn` ends and never faults. With the heap and the reads succeeding a list is
returned exactly if it is the walk from the first cluster through different writable
clusters, long enough for the size; the array holds it in order. An error leaves nothing
allocated, and the check of a file's chain asks for just the clusters of its size. The
writable clusters are those from 2 to a limit within the volume, as all limits are that
`fat16_prepare_write` sets. -/
theorem collect_chain (item : DirItem) (s : FsState) (hb : 0 < clusterBytes s.vol) :
    (∀ stuck, collectChainIn stuck item s = ((fat16CollectChain item).recode .code >>= fun c =>
      pure (c.2, chainBuffer (s.vol.maxWritable - 1) c.1, c.1.length)) s) ∧
    (Calm s (fat16CollectChain item s).2 → ∀ chain,
      (∃ addr, (fat16CollectChain item s).1 = .ok (chain, addr)) ↔
        item.highFirstCluster = 0 ∧ item.filesize ≤ 2 ^ 31 - 1 ∧
          WalkOf s.vol s.dev.image item.lowFirstCluster chain ∧ chain.Nodup ∧
          (∀ c ∈ chain, Writable s.vol c) ∧
          (item.filesize + clusterBytes s.vol - 1) / clusterBytes s.vol ≤ chain.length) ∧
    (∀ chain addr, (fat16CollectChain item s).1 = .ok (chain, addr) → ∀ i c, chain[i]? = some c →
      le16 (chainBuffer (s.vol.maxWritable - 1) chain) (i * 2) = c) ∧
    (∀ e, (fat16CollectChain item s).1 = .error e → ∀ base m, Owns base m s.heap →
      Owns base m (fat16CollectChain item s).2.heap) ∧
    (Calm s (fat16CheckFileChain item s).2 → ((fat16CheckFileChain item s).1 = .ok () ↔
      ∃ chain, item.highFirstCluster = 0 ∧ item.filesize ≤ 2 ^ 31 - 1 ∧
        WalkOf s.vol s.dev.image item.lowFirstCluster chain ∧ chain.Nodup ∧
        (∀ c ∈ chain, Writable s.vol c) ∧
        chain.length = (item.filesize + clusterBytes s.vol - 1) / clusterBytes s.vol)) ∧
    (s.vol.maxWritable ≤ fat16ClusterLimit s.vol →
      ∀ c, Writable s.vol c ↔ 2 ≤ c ∧ c ≤ s.vol.maxWritable) ∧
    ∀ capacity, writableLimit s.vol capacity ≤ fat16ClusterLimit s.vol := by
  have hread := (reading_collectChain item).ran (s := s)
  have hcheck := (reading_checkChain item).ran (s := s)
  have hchain : ∀ chain, chainOf s.vol s.dev.image item = .ok chain ↔
      item.highFirstCluster = 0 ∧ item.filesize ≤ 2 ^ 31 - 1 ∧
        WalkOf s.vol s.dev.image item.lowFirstCluster chain ∧ chain.Nodup ∧
        (∀ c ∈ chain, Writable s.vol c) ∧
        (item.filesize + clusterBytes s.vol - 1) / clusterBytes s.vol ≤ chain.length := by
    intro chain
    rw [chainOf_ok_iff, chain_iff, clustersFor_eq hb, and_assoc, and_assoc]
    rfl
  refine ⟨fun stuck => collectChainIn_eq stuck item s hb, fun hcalm chain => ?_, ?_, ?_,
    fun hcalm => ?_,
    fun hmax c => writable_iff hmax c, fun capacity => (writableLimit_spec s.vol capacity).1⟩
  · rw [← hchain]
    constructor
    · rintro ⟨addr, hok⟩
      exact collected_chain hok
    · intro h
      rw [← hread.calm_ok hcalm] at h
      obtain ⟨⟨l, addr⟩, hok, rfl⟩ := except_map_ok.mp h
      exact ⟨addr, hok⟩
  · intro chain addr hok i c hi
    obtain ⟨-, -, -, hnodup, hall, -⟩ := (hchain chain).mp (collected_chain hok)
    exact chainBuffer_holds (writable_length hall hnodup) (fun c hc => valid_lt (hall c hc).1) i c
      hi
  · intro e he base m ho
    have h := hread.heap base m (by rwa [zero_add])
    rw [he] at h
    change Owns base (0 + m) _ at h
    rwa [zero_add] at h
  · have hval : (fat16CheckFileChain item s).1 = checkChain s.vol s.dev.image item := by
      have h := hcheck.calm_ok hcalm
      rw [← h]
      cases (fat16CheckFileChain item s).1 <;> rfl
    rw [hval, checkChain, except_bind_ok]
    refine exists_congr fun chain => ?_
    rw [hchain, except_guard_ok, clustersFor_eq hb, not_not]
    constructor
    · rintro ⟨⟨h1, h2, h3, h4, h5, -⟩, hlen, -⟩
      exact ⟨h1, h2, h3, h4, h5, hlen⟩
    · rintro ⟨h1, h2, h3, h4, h5, hlen⟩
      exact ⟨⟨h1, h2, h3, h4, h5, Nat.le_of_eq hlen.symm⟩, hlen, rfl⟩

instance (v : FatPrivate) (c : Nat) : Decidable (Writable v c) :=
  inferInstanceAs (Decidable (_ ∧ _))

/-- An entry of 600 bytes from cluster 2 on. -/
def sampleItem : DirItem := (DirItem.zero.put 26 [2, 0]).put 28 [0x58, 0x02]

theorem collect_chain_sample :
    (∃ addr, (fat16CollectChain sampleItem sampleState).1 = .ok ([2, 3], addr)) ∧
      WalkOf sampleVolume sampleDisk 2 [2, 3] := by
  have hwalk : WalkOf sampleVolume sampleDisk 2 [2, 3] := ⟨1, by decide +kernel, by decide +kernel⟩
  refine ⟨?_, hwalk⟩
  have hcalm : Calm sampleState (fat16CollectChain sampleItem sampleState).2 :=
    ⟨List.isEmpty_iff.mp (by decide +kernel), by decide +kernel⟩
  have h := (collect_chain sampleItem sampleState (by decide +kernel)).2.1 hcalm [2, 3]
  exact h.mpr ⟨by decide +kernel, by decide +kernel, hwalk, by decide, by decide +kernel,
    by decide +kernel⟩

end Rorthox.Fat
