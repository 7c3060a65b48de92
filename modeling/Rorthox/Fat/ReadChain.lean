import Rorthox.Fat.LookupSpec

/-!
# Following a chain

What a read gives, byte by byte: byte `q` of a file lies in the cluster that
`q / clusterBytes v` links of the first FAT lead to.
-/

namespace Rorthox.Fat

open Lib Disk

section

variable (v : FatPrivate) (img : Bytes)

/-- Where byte `q` of a file lies in the cluster that holds it. -/
def filePlace (cluster q : Nat) : Nat :=
  fat16ClusterToSector v cluster * sectorSize + q % clusterBytes v

/-- Byte `q` of the file whose first cluster is `first`. -/
def fileByte (first q : Nat) : Except Errno UInt8 :=
  (clusterAt v img first q).map fun cluster => img (filePlace v cluster q)

end

/-! ## Blocks -/

variable {d first i q start : Nat}

theorem block_add {b : Nat} (h : q % b + i < b) :
    (q + i) / b = q / b ∧ (q + i) % b = q % b + i := by
  have hsplit : q + i = q % b + i + b * (q / b) := by
    have h1 := Nat.div_add_mod q b
    omega
  constructor
  · rw [hsplit, Nat.add_mul_div_left _ _ (by omega), Nat.div_eq_of_lt h, Nat.zero_add]
  · rw [hsplit, Nat.add_mul_mod_self_left, Nat.mod_eq_of_lt h]

theorem block_next {b p : Nat} (hb : 0 < b) (h : q % b + p = b) :
    (q + p) / b = q / b + 1 ∧ (q + p) % b = 0 := by
  have hsplit : q + p = b * (q / b + 1) := by
    have h1 := Nat.div_add_mod q b
    rw [Nat.mul_add, Nat.mul_one]
    omega
  rw [hsplit]
  exact ⟨Nat.mul_div_cancel_left _ hb, Nat.mul_mod_right _ _⟩

variable {v : FatPrivate} {img : Bytes} {n : Nat}

/-! ## Reading -/

/-- One link more. -/
theorem clusterWalk_step (k c : Nat) : clusterWalk v img (k + 1) c = (do
    let d ← clusterWalk v img k c
    if ¬ fat16ValidCluster v (fatAt v img 0 d) then .error .eio else .ok (fatAt v img 0 d)) := by
  induction k generalizing c with
  | zero => rfl
  | succ k ih =>
    rw [clusterWalk]
    by_cases hc : ¬ fat16ValidCluster v (fatAt v img 0 c)
    · rw [if_pos hc, clusterWalk, if_pos hc]
      rfl
    · rw [if_neg hc, ih, clusterWalk, if_neg hc]

theorem clusterWalk_succ {k c : Nat} (h : clusterWalk v img k c = .ok d)
    (hv : fat16ValidCluster v (fatAt v img 0 d)) :
    clusterWalk v img (k + 1) c = .ok (fatAt v img 0 d) := by
  rw [clusterWalk_step, h]
  exact if_neg (not_not.mpr hv)

/-- Bytes of one cluster are found alike. -/
theorem clusterAt_add (first : Nat) (h : q % clusterBytes v + i < clusterBytes v) :
    clusterAt v img first (q + i) = clusterAt v img first q := by
  unfold clusterAt
  rw [(block_add h).1]

theorem clusterAt_next {part : Nat} (hb : 0 < clusterBytes v) (h : clusterAt v img first q = .ok d)
    (hpart : q % clusterBytes v + part = clusterBytes v)
    (hv : fat16ValidCluster v (fatAt v img 0 d))
    (hmax : q / clusterBytes v + 2 ≤ fat16ClusterLimit v - 1) :
    clusterAt v img first (q + part) = .ok (fatAt v img 0 d) := by
  unfold clusterAt at h ⊢
  rw [(block_next hb hpart).1]
  split at h
  · cases h
  · rename_i hstart
    rw [if_neg hstart, if_neg (by omega)]
    split at h
    · cases h
    · exact clusterWalk_succ h hv

theorem fileByte_add (h : clusterAt v img first q = .ok d)
    (hi : q % clusterBytes v + i < clusterBytes v) :
    fileByte v img first (q + i) = .ok (img (filePlace v d q + i)) := by
  unfold fileByte filePlace
  rw [clusterAt_add first hi, h, (block_add hi).2, Nat.add_assoc]
  rfl

/-- The walk from byte `q` on gives the bytes of the file and keeps what it has. -/
theorem readWalk_bytes (hb : 0 < clusterBytes v) (fuel : Nat) :
    ∀ {current q total done : Nat} {out buf : Bytes}, clusterAt v img first q = .ok current →
      readWalk v img fuel current (q % clusterBytes v) total (q / clusterBytes v + 1) done out =
        .ok buf →
      (∀ i, i < done → buf i = out i) ∧
        ∀ i, i < total → fileByte v img first (q + i) = .ok (buf (done + i)) := by
  induction fuel with
  | zero =>
    intro current q total done out buf _ h
    cases total with
    | zero =>
      obtain rfl := Except.ok.inj h
      exact ⟨fun _ _ => rfl, fun i hi => absurd hi (Nat.not_lt_zero i)⟩
    | succ total => cases h
  | succ fuel ih =>
    intro current q total done out buf hat h
    cases total with
    | zero =>
      obtain rfl := Except.ok.inj h
      exact ⟨fun _ _ => rfl, fun i hi => absurd hi (Nat.not_lt_zero i)⟩
    | succ total =>
      have hmod := Nat.mod_lt q hb
      have hend := clusterPart_end (v := v) (q % clusterBytes v) (total + 1) hmod
      have hle := clusterPart_le v (q % clusterBytes v) (total + 1)
      unfold readWalk at h
      generalize hpart : clusterPart v (q % clusterBytes v) (total + 1) = part at h hend hle
      dsimp only at h
      -- what one turn puts into the buffer
      have hturn : ∀ i, i < part → fileByte v img first (q + i) =
          .ok (memcpy out done img (filePlace v current q) part (done + i)) := by
        intro i hi
        rw [fileByte_add hat (by omega), memcpy_of_lt (by omega) (by omega)]
        congr 3
        omega
      split at h
      · cases h
      split at h
      · rename_i hlast
        obtain rfl := Except.ok.inj h
        refine ⟨fun i hi => memcpy_outside (Or.inl hi), fun i hi => hturn i (by omega)⟩
      split at h
      · cases h
      rename_i hbound hmore hlink
      push Not at hlink
      obtain ⟨hv, hmax⟩ := hlink
      have hwhole : q % clusterBytes v + part = clusterBytes v := by
        unfold clusterPart at hpart
        split at hpart <;> omega
      obtain ⟨hdiv, hzero⟩ := block_next hb hwhole
      have hat' := clusterAt_next hb hat hwhole hv (by omega)
      obtain ⟨hkeep, hrest⟩ := ih (q := q + part) hat' (by rw [hdiv, hzero]; exact h)
      constructor
      · intro i hi
        rw [hkeep i (by omega)]
        exact memcpy_outside (Or.inl hi)
      · intro i hi
        rcases Nat.lt_or_ge i part with hlt | hge
        · rw [hturn i hlt, hkeep (done + i) (by omega)]
          rfl
        · have h1 := hrest (i - part) (by omega)
          rw [show q + part + (i - part) = q + i by omega,
            show done + part + (i - part) = done + i by omega] at h1
          exact h1

/-- What a read gives are the bytes of the file. -/
theorem readAt_bytes {offset total : Nat} {buf : Bytes}
    (h : readAt v img first offset total = .ok buf) (hi : i < total) :
    fileByte v img first (offset + i) = .ok (buf i) := by
  unfold readAt at h
  split at h
  · cases h
  · rename_i hbound
    have hb : 0 < clusterBytes v := by omega
    cases hat : clusterAt v img first offset with
    | error e =>
      rw [hat] at h
      cases h
    | ok current =>
      rw [hat] at h
      have h1 := (readWalk_bytes hb total hat h).2 i hi
      rwa [Nat.zero_add] at h1

/-! ## Where links lead -/

/-- The cluster that `k` links of the first FAT lead to. -/
def link (v : FatPrivate) (img : Bytes) (start k : Nat) : Nat := (fatAt v img 0)^[k] start

theorem link_succ (start k : Nat) : link v img start (k + 1) = fatAt v img 0 (link v img start k) :=
  Function.iterate_succ_apply' _ _ _

theorem clusterWalk_ok_iff {k : Nat} : clusterWalk v img k start = .ok d ↔
    (∀ j, j < k → fat16ValidCluster v (link v img start (j + 1))) ∧ d = link v img start k := by
  induction k generalizing d with
  | zero =>
    constructor
    · intro h
      exact ⟨fun j hj => absurd hj (Nat.not_lt_zero j), (Except.ok.inj h).symm⟩
    · rintro ⟨-, rfl⟩
      rfl
  | succ k ih =>
    rw [clusterWalk_step]
    constructor
    · intro h
      obtain ⟨c, hk, h⟩ := except_bind_ok.mp h
      obtain ⟨hall, rfl⟩ := ih.mp hk
      rw [← link_succ] at h
      obtain ⟨hv, h⟩ := except_guard_ok.mp h
      refine ⟨fun j hj => ?_, (Except.ok.inj h).symm⟩
      rcases Nat.lt_succ_iff_lt_or_eq.mp hj with hlt | rfl
      · exact hall j hlt
      · exact not_not.mp hv
    · rintro ⟨hall, rfl⟩
      rw [ih.mpr ⟨fun j hj => hall j (Nat.lt_succ_of_lt hj), rfl⟩, link_succ]
      have hv := hall k (Nat.lt_succ_self k)
      rw [link_succ] at hv
      exact if_neg (not_not.mpr hv)

/-- Which cluster holds byte `q`: all links up to it have to be clusters of the volume. -/
theorem clusterAt_ok_iff : clusterAt v img start q = .ok d ↔
    0 < clusterBytes v ∧ q / clusterBytes v < fat16ClusterLimit v - 1 ∧
      (∀ k, k ≤ q / clusterBytes v → fat16ValidCluster v (link v img start k)) ∧
      d = link v img start (q / clusterBytes v) := by
  rw [clusterAt]
  constructor
  · intro h
    split at h
    · cases h
    · rename_i hstart
      push Not at hstart
      split at h
      · cases h
      · rename_i hcap
        obtain ⟨hall, rfl⟩ := clusterWalk_ok_iff.mp h
        refine ⟨Nat.pos_of_ne_zero hstart.1, Nat.lt_of_not_le hcap, fun k hk => ?_, rfl⟩
        cases k with
        | zero => exact hstart.2
        | succ k => exact hall k hk
  · rintro ⟨hb, hcap, hall, rfl⟩
    have hstart : fat16ValidCluster v start := hall 0 (Nat.zero_le _)
    rw [if_neg (not_or.mpr ⟨Nat.ne_of_gt hb, not_not.mpr hstart⟩),
      if_neg (Nat.not_le.mpr hcap)]
    exact clusterWalk_ok_iff.mpr ⟨fun j hj => hall (j + 1) hj, rfl⟩

/-- Different clusters of the volume are at most as many as it has. -/
theorem distinct_le {walk : Nat → Nat} (hall : ∀ k, k < n → fat16ValidCluster v (walk k))
    (hne : ∀ j k, j < k → k < n → walk j ≠ walk k) : n ≤ fat16ClusterLimit v - 1 := by
  have hmaps : ∀ k ∈ Finset.range n, walk k ∈ Finset.Icc 2 (fat16ClusterLimit v) := fun k hk =>
    Finset.mem_Icc.mpr ⟨(hall k (Finset.mem_range.mp hk)).1, (hall k (Finset.mem_range.mp hk)).2.1⟩
  have hinj : Set.InjOn walk (Finset.range n) := by
    intro j hj k hk h
    have hj' := Finset.mem_range.mp hj
    have hk' := Finset.mem_range.mp hk
    rcases Nat.lt_trichotomy j k with hlt | heq | hlt
    · exact absurd h (hne j k hlt hk')
    · exact heq
    · exact absurd h.symm (hne k j hlt hj')
  have hcard := Finset.card_le_card_of_injOn walk hmaps hinj
  rw [Finset.card_range, Nat.card_Icc] at hcard
  omega

/-- The walk from byte `q` on goes through when every cluster it needs is one of the volume,
their number is below the cap, and the bytes lie where the streamer reaches. -/
theorem readWalk_ok (hb : 0 < clusterBytes v) (fuel : Nat) :
    ∀ (q total done : Nat) (out : Bytes), total ≤ fuel →
      (∀ k, k * clusterBytes v < q + total → fat16ValidCluster v (link v img start k)) →
      (∀ k, k * clusterBytes v < q + total → k < fat16ClusterLimit v - 1) →
      (∀ p, q ≤ p → p < q + total →
        filePlace v (link v img start (p / clusterBytes v)) p < intMax) →
      ∃ buf, readWalk v img fuel (link v img start (q / clusterBytes v)) (q % clusterBytes v) total
        (q / clusterBytes v + 1) done out = .ok buf := by
  induction fuel with
  | zero =>
    intro q total done out hfuel _ _ _
    obtain rfl := Nat.le_zero.mp hfuel
    exact ⟨out, rfl⟩
  | succ fuel ih =>
    intro q total done out hfuel hvalid hcap hplace
    cases total with
    | zero => exact ⟨out, rfl⟩
    | succ total =>
      have hmod := Nat.mod_lt q hb
      have hpos := clusterPart_pos (v := v) hmod (Nat.succ_pos total)
      have hend := clusterPart_end (v := v) (q % clusterBytes v) (total + 1) hmod
      have hle := clusterPart_le v (q % clusterBytes v) (total + 1)
      rw [readWalk]
      generalize hpart : clusterPart v (q % clusterBytes v) (total + 1) = part at hpos hend hle
      -- the last byte of the part is in reach, so the whole part is
      have hlast := hplace (q + (part - 1)) (by omega) (by omega)
      obtain ⟨hdiv, hrem⟩ := block_add (b := clusterBytes v) (q := q) (i := part - 1) (by omega)
      rw [filePlace, hdiv, hrem] at hlast
      rw [if_neg (by omega)]
      by_cases hdone : total + 1 - part = 0
      · exact ⟨_, if_pos hdone⟩
      · have hwhole : q % clusterBytes v + part = clusterBytes v := by
          unfold clusterPart at hpart
          split at hpart <;> omega
        obtain ⟨hdiv', hrem'⟩ := block_next hb hwhole
        have hneeded : (q / clusterBytes v + 1) * clusterBytes v < q + (total + 1) := by
          have h1 := Nat.div_add_mod q (clusterBytes v)
          rw [Nat.add_mul, Nat.one_mul, Nat.mul_comm]
          omega
        have hv := hvalid _ hneeded
        have hc := hcap _ hneeded
        rw [link_succ] at hv
        rw [if_neg hdone, if_neg (by
          rw [not_or, not_not]
          exact ⟨hv, by omega⟩), ← link_succ]
        have hrest := ih (q + part) (total + 1 - part) (done + part)
          (memcpy out done img (fat16ClusterToSector v (link v img start (q / clusterBytes v)) *
            sectorSize + q % clusterBytes v) part) (by omega)
          (fun k hk => hvalid k (by omega)) (fun k hk => hcap k (by omega))
          (fun p h1 h2 => hplace p (by omega) (by omega))
        rw [hdiv', hrem'] at hrest
        exact hrest

/-! ## The loops -/

/-- The state of the loop of `diskstreamer_read`. -/
structure StreamTurn where
  pos : Nat
  total : Nat
  done : Nat
  out : Bytes

def streamTurn (t : StreamTurn) : Prog Device Errno (StreamTurn ⊕ Bytes) :=
  if t.total = 0 then pure (.inr t.out)
  else do
    let buf ← diskReadBlock (t.pos / sectorSize)
    let part := sectorPart t.pos t.total
    pure (.inl ⟨t.pos + part, t.total - part, t.done + part,
      memcpy t.out t.done buf (t.pos % sectorSize) part⟩)

/-- Every turn reads a byte at least. -/
theorem readLoop_is (fuel : Nat) : ∀ (pos total done : Nat) (out : Bytes), total ≤ fuel →
    Prog.LoopIs streamTurn (fuel + 1) ⟨pos, total, done, out⟩
      (readLoop fuel pos total done out) := by
  induction fuel with
  | zero =>
    intro pos total done out hfuel stuck
    obtain rfl := Nat.le_zero.mp hfuel
    rfl
  | succ fuel ih =>
    intro pos total done out hfuel stuck
    cases total with
    | zero => rfl
    | succ total =>
      have hpos : 0 < sectorPart pos (total + 1) := sectorPart_pos pos (Nat.succ_pos total)
      have hless : total + 1 - sectorPart pos (total + 1) ≤ fuel := by omega
      rw [Prog.loop, streamTurn, if_neg (Nat.succ_ne_zero total), bind_assoc, readLoop]
      congr 1
      funext buf
      exact ih _ _ _ _ hless stuck

/-- The state of the loop of `fat16_read_internal_from_stream`. -/
structure ReadTurn where
  current : Nat
  within : Nat
  total : Nat
  traversed : Nat
  done : Nat
  out : Bytes

def readTurn (v : FatPrivate) (t : ReadTurn) : FsProg (ReadTurn ⊕ Bytes) :=
  if t.total = 0 then pure (.inr t.out)
  else do
    let part := clusterPart v t.within t.total
    let pos := fat16ClusterToSector v t.current * sectorSize + t.within
    Prog.refuse (intMax < pos ∨ intMax - pos < part) .eio
    onDev (diskstreamerSeek pos)
    let buf ← onDev (diskstreamerRead pos part)
    let out := memcpy t.out t.done buf 0 part
    if t.total - part = 0 then
      pure (.inl { t with within := 0, total := 0, done := t.done + part, out })
    else do
      let next ← fat16GetFatEntry t.current
      Prog.refuse (¬ fat16ValidCluster v next ∨ fat16ClusterLimit v - 1 < t.traversed + 1) .eio
      pure (.inl ⟨next, 0, t.total - part, t.traversed + 1, t.done + part, out⟩)

theorem readInternalLoop_is (hb : 0 < clusterBytes v) (fuel : Nat) :
    ∀ (current within total traversed done : Nat) (out : Bytes), total ≤ fuel →
      within < clusterBytes v →
      Prog.LoopIs (readTurn v) (fuel + 1) ⟨current, within, total, traversed, done, out⟩
        (readInternalLoop v fuel current within total traversed done out) := by
  induction fuel with
  | zero =>
    intro current within total traversed done out hfuel _ stuck
    obtain rfl := Nat.le_zero.mp hfuel
    rfl
  | succ fuel ih =>
    intro current within total traversed done out hfuel hwithin stuck
    cases total with
    | zero => rfl
    | succ total =>
      have hpos : 0 < clusterPart v within (total + 1) :=
        clusterPart_pos hwithin (Nat.succ_pos total)
      have hless : total + 1 - clusterPart v within (total + 1) ≤ fuel := by omega
      rw [Prog.loop, readTurn, if_neg (Nat.succ_ne_zero total), readInternalLoop]
      simp only [bind_assoc]
      congr 1
      funext _
      congr 1
      funext _
      congr 1
      funext buf
      by_cases hdone : total + 1 - clusterPart v within (total + 1) = 0
      · rw [if_pos hdone, if_pos hdone]
        rfl
      · rw [if_neg hdone, if_neg hdone]
        simp only [bind_assoc]
        congr 1
        funext next
        congr 1
        funext _
        exact ih _ _ _ _ _ _ hless hb stuck

/-! ## On the disk alone -/

theorem keeps_clusterLoop (ahead : Nat) : ∀ cluster,
    Prog.Keeps FsState.heap (clusterForOffsetLoop v ahead cluster) := by
  induction ahead with
  | zero => exact fun _ => .pure _
  | succ ahead ih =>
    exact fun _ => .bind (keeps_fatEntry _) fun _ => .bind (.refuse _ _) fun _ => ih _

theorem keeps_readLoop (fuel : Nat) : ∀ (current within total traversed done : Nat) (out : Bytes),
    Prog.Keeps FsState.heap (readInternalLoop v fuel current within total traversed done out) := by
  induction fuel with
  | zero =>
    intro current within total traversed done out
    cases total with
    | zero => exact .pure _
    | succ total => exact .raise _
  | succ fuel ih =>
    intro current within total traversed done out
    cases total with
    | zero => exact .pure _
    | succ total =>
      refine .bind (.refuse _ _) fun _ => .bind (keeps_onDev _) fun _ =>
        .bind (keeps_onDev _) fun _ => ?_
      refine .ite (.pure _) (.bind (keeps_fatEntry _) fun _ => .bind (.refuse _ _) fun _ =>
        ih _ _ _ _ _ _)

theorem keeps_readInternal (start offset total : Nat) :
    Prog.Keeps FsState.heap (fat16ReadInternal start offset total) := by
  refine .bind (.look _) fun v => .bind (.refuse _ _) fun _ => .bind ?_ fun _ =>
    keeps_readLoop _ _ _ _ _ _ _
  exact .bind (.look _) fun _ => .bind (.refuse _ _) fun _ => .bind (.refuse _ _) fun _ =>
    keeps_clusterLoop _ _

/-- A read gives what the disk says unless the device fails it. -/
theorem readInternal_cases (start offset total : Nat) (s : FsState) :
    (fat16ReadInternal start offset total s).1 = readAt s.vol s.dev.image start offset total ∨
      (∃ lba, (fat16ReadInternal start offset total s).2.dev.log = .readFailed lba :: s.dev.log) ∧
        ∃ e, (fat16ReadInternal start offset total s).1 = .error e := by
  have h := (reading_readInternal start offset total).ran (s := s)
  rcases h.outcome with ⟨-, hview⟩ | ⟨htrouble, e, he, -⟩
  · left
    rw [← hview]
    cases (fat16ReadInternal start offset total s).1 <;> rfl
  · refine Or.inr ⟨?_, e, he⟩
    cases htrouble with
    | heap _ hlt =>
      rw [Prog.ends_iff.mp (keeps_readInternal start offset total s)] at hlt
      exact absurd hlt (Nat.lt_irrefl _)
    | read lba n hlog _ => exact ⟨lba, hlog⟩

theorem fileByte_eq {x : UInt8} (h : fileByte v img start q = .ok x) :
    0 < clusterBytes v ∧ (∀ k, k ≤ q / clusterBytes v → fat16ValidCluster v (link v img start k)) ∧
      x = img (filePlace v (link v img start (q / clusterBytes v)) q) := by
  obtain ⟨c, hc, rfl⟩ := except_map_ok.mp h
  obtain ⟨hb, -, hall, rfl⟩ := clusterAt_ok_iff.mp hc
  exact ⟨hb, hall, rfl⟩

theorem readAt_ok {offset total : Nat} (htotal : 1 ≤ total) (hrange : offset + total ≤ intMax)
    (hcover : offset + total ≤ n * clusterBytes v)
    (hvalid : ∀ k, k < n → fat16ValidCluster v (link v img start k))
    (hne : ∀ j k, j < k → k < n → link v img start j ≠ link v img start k)

    (hplace : ∀ q, offset ≤ q → q < offset + total → filePlace v
      (link v img start (q / clusterBytes v)) q < intMax) :
    ∃ buf, readAt v img start offset total = .ok buf := by
  have hb : 0 < clusterBytes v := by
    rcases Nat.eq_zero_or_pos (clusterBytes v) with h | h
    · rw [h, Nat.mul_zero] at hcover
      omega
    · exact h
  have hcount := distinct_le hvalid hne
  have hneeded : ∀ k, k * clusterBytes v < offset + total → k < n := fun k hk =>
    Nat.lt_of_mul_lt_mul_right (Nat.lt_of_lt_of_le hk hcover)
  have hfirst : offset / clusterBytes v < n :=
    hneeded _ (Nat.lt_of_le_of_lt (Nat.div_mul_le_self _ _) (by omega))
  have hat : clusterAt v img start offset = .ok (link v img start (offset / clusterBytes v)) :=
    clusterAt_ok_iff.mpr ⟨hb, by omega, fun k hk => hvalid k (by omega), rfl⟩
  rw [readAt, if_neg (by omega), hat]
  exact readWalk_ok hb total _ _ _ _ le_rfl (fun k hk => hvalid k (hneeded k hk))
    (fun k hk => Nat.lt_of_lt_of_le (hneeded k hk) hcount) hplace

/-! ## Reading follows the chain -/

/-- A read ends after `total` turns of its loop at the latest, and so does every stream
read in it. Where `n` links lead to different clusters of the volume that cover the range,
with its bytes in reach of the streamer and no device error, it gives the bytes of these
clusters; where a link that the range needs leads out of the volume, it fails. -/
theorem read_follows_chain (start offset total : Nat) (htotal : 1 ≤ total)
    (hrange : offset + total ≤ intMax) :
    (∀ stuck stuck', fat16ReadInternal start offset total = (do
      let v ← Prog.look (·.vol)
      Prog.refuse (intMax < offset ∨ intMax - offset < total ∨ clusterBytes v = 0) .eio
      let current ← fat16GetClusterForOffset start offset
      Prog.loop stuck (readTurn v) (total + 1)
        ⟨current, offset % clusterBytes v, total, offset / clusterBytes v + 1, 0, fun _ => 0⟩) ∧
      ∀ pos part, diskstreamerRead pos part = (do
        Prog.refuse (intMax < pos ∨ intMax - pos < part) .einvarg
        Prog.loop stuck' streamTurn (part + 1) ⟨pos, part, 0, fun _ => 0⟩)) ∧
    ∀ s : FsState,
      (∀ n, offset + total ≤ n * clusterBytes s.vol →
        (∀ k, k < n → fat16ValidCluster s.vol (link s.vol s.dev.image start k)) →
        (∀ j k, j < k → k < n → link s.vol s.dev.image start j ≠ link s.vol s.dev.image start k) →
        (∀ q, offset ≤ q → q < offset + total →
          filePlace s.vol (link s.vol s.dev.image start (q / clusterBytes s.vol)) q < intMax) →
        (fat16ReadInternal start offset total s).2.dev.log = s.dev.log →
        ∃ buf, (fat16ReadInternal start offset total s).1 = .ok buf ∧ ∀ i, i < total →
          buf i = s.dev.image (filePlace s.vol
            (link s.vol s.dev.image start ((offset + i) / clusterBytes s.vol)) (offset + i))) ∧
      ((∃ k, k * clusterBytes s.vol < offset + total ∧
          ¬ fat16ValidCluster s.vol (link s.vol s.dev.image start k)) →
        ∃ e, (fat16ReadInternal start offset total s).1 = .error e) := by
  refine ⟨fun stuck stuck' => ⟨?_, fun pos part => ?_⟩, fun s => ⟨?_, ?_⟩⟩
  · rw [fat16ReadInternal]
    congr 1
    funext v
    by_cases hb : 0 < clusterBytes v
    · congr 1
      funext _
      congr 1
      funext current
      exact (readInternalLoop_is hb total _ _ _ _ _ _ le_rfl (Nat.mod_lt _ hb) stuck).symm
    · rw [Prog.refuse, if_pos (Or.inr (Or.inr (Nat.eq_zero_of_not_pos hb)))]
      rfl
  · rw [diskstreamerRead]
    congr 1
    funext _
    exact (readLoop_is part _ _ _ _ le_rfl stuck').symm
  · intro n hcover hvalid hne hplace hlog
    obtain ⟨buf, hbuf⟩ := readAt_ok htotal hrange hcover hvalid hne hplace
    rcases readInternal_cases start offset total s with hread | ⟨⟨lba, hfail⟩, -⟩
    · refine ⟨buf, hread.trans hbuf, fun i hi => ?_⟩
      exact (fileByte_eq (readAt_bytes hbuf hi)).2.2
    · rw [hlog] at hfail
      exact absurd hfail.symm (List.cons_ne_self _ _)
  · rintro ⟨k, hk, hbad⟩
    cases hres : (fat16ReadInternal start offset total s).1 with
    | error e => exact ⟨e, rfl⟩
    | ok buf =>
      exfalso
      rcases readInternal_cases start offset total s with hread | ⟨-, e, he⟩
      · have hlast : total - 1 < total := Nat.sub_lt htotal Nat.one_pos
        obtain ⟨hb, hall, -⟩ := fileByte_eq (readAt_bytes (hread.symm.trans hres) hlast)
        exact hbad (hall k ((Nat.le_div_iff_mul_le hb).mpr (by omega)))
      · rw [hres] at he
        cases he

/-! ### A sample

Two FATs of 17 sectors, a sector of root entries and 4164 clusters of one sector. Cluster 2
is linked to cluster 3, which is the last one. -/

def sampleHeader : Bytes := fun p =>
  ([(12, 2), (13, 1), (14, 1), (16, 2), (17, 16), (19, 0x68), (20, 0x10), (22, 17)].lookup p).getD 0

def sampleVolume : FatPrivate :=
  { addr := 0, clusterReadStream := 0, fatReadStream := 0, directoryStream := 0
    header := sampleHeader
    rootDirectory :=
      { addr := 0, itemAddr := 0, item := fun _ => .zero, firstCluster := 0, total := 0
        sectorPos := 35, endingSectorPos := 36 }
    descriptors := [], writeReady := true, mutationDisabled := false, maxWritable := 4165 }

def sampleDisk : Bytes := fun p =>
  if p / 512 = 1 ∨ p / 512 = 18 then [0xF8, 0xFF, 0xFF, 0xFF, 0x03, 0x00, 0xFF, 0xFF].getD
    (p % 512) 0
  else UInt8.ofNat (p / 512)

def sampleState : FsState :=
  { heap := Memory.bootHeap
    dev := { origin := sampleDisk, log := [], fates := fun _ => .done, calls := 0,
             identify := .ok 4200 }
    mounted := true, vol := sampleVolume, files := fun _ => none }

/-- The last byte of the first cluster and the first of the second. -/
theorem read_follows_chain_sample : ∃ buf, (fat16ReadInternal 2 511 2 sampleState).1 = .ok buf ∧
    ∀ i, i < 2 → buf i = sampleDisk
      (filePlace sampleVolume (link sampleVolume sampleDisk 2 ((511 + i) / 512)) (511 + i)) := by
  have hne : ∀ j k, j < k → k < 2 → link sampleVolume sampleDisk 2 j ≠
      link sampleVolume sampleDisk 2 k := by
    intro j k hjk hk
    obtain ⟨rfl, rfl⟩ : j = 0 ∧ k = 1 := by omega
    decide +kernel
  exact ((read_follows_chain 2 511 2 (by decide) (by decide)).2 sampleState).1 2 (by decide +kernel)
    (by decide +kernel) hne (by decide +kernel) (List.isEmpty_iff.mp (by decide +kernel))

end Rorthox.Fat
