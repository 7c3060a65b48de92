import Rorthox.Disk.Cost
import Rorthox.Fat.Calls
import Rorthox.Fat.ReadChain

/-!
# The two ways to read a file

`fat16_read` reads item by item and starts the walk along the chain again for every item;
`fat16_read_bytes` reads in one go. A range can be read exactly when each of its bytes can, so
the items go through when the whole does, and the walks of the items take at least as many
commands of the drive as the single walk.
-/

namespace Rorthox.Fat

open Lib Disk Memory

variable {v : FatPrivate} {img : Bytes}

/-! ## Which ranges can be read -/

/-- The byte `q` of the file lies in a cluster of the chain and in reach of the streamer. -/
def Reaches (v : FatPrivate) (img : Bytes) (start q : Nat) : Prop :=
  ∃ c, clusterAt v img start q = .ok c ∧ filePlace v c q < intMax

variable {n offset pos size start total : Nat} {s : FsState} {buf : Bytes} {item : DirItem}

theorem readWalk_reaches (hb : 0 < clusterBytes v) (fuel : Nat) :
    ∀ {current q total done : Nat} {out buf : Bytes}, clusterAt v img start q = .ok current →
      readWalk v img fuel current (q % clusterBytes v) total (q / clusterBytes v + 1) done out =
        .ok buf →
      ∀ i, i < total → Reaches v img start (q + i) := by
  induction fuel with
  | zero =>
    intro current q total done out buf _ h
    cases total with
    | zero => exact fun i hi => absurd hi (Nat.not_lt_zero i)
    | succ total => cases h
  | succ fuel ih =>
    intro current q total done out buf hat h
    cases total with
    | zero => exact fun i hi => absurd hi (Nat.not_lt_zero i)
    | succ total =>
      have hmod := Nat.mod_lt q hb
      have hend := clusterPart_end (q % clusterBytes v) (total + 1) hmod
      rw [readWalk] at h
      generalize hpart : clusterPart v (q % clusterBytes v) (total + 1) = part at h hend
      obtain ⟨hfit, h⟩ := except_guard_ok.mp h
      -- the bytes of this turn share its cluster
      have hturn : ∀ i, i < part → Reaches v img start (q + i) := by
        intro i hi
        refine ⟨current, by rw [clusterAt_add start (by omega), hat], ?_⟩
        rw [filePlace, (block_add (show q % clusterBytes v + i < clusterBytes v by omega)).2]
        omega
      by_cases hlast : total + 1 - part = 0
      · exact fun i hi => hturn i (by omega)
      · rw [if_neg hlast] at h
        obtain ⟨hlink, h⟩ := except_guard_ok.mp h
        rw [not_or, not_not] at hlink
        have hwhole : q % clusterBytes v + part = clusterBytes v := by
          unfold clusterPart at hpart
          split at hpart <;> omega
        obtain ⟨hdiv, hzero⟩ := block_next hb hwhole
        have hat' := clusterAt_next hb hat hwhole hlink.1 (by omega)
        have hmore := ih (q := q + part) hat' (by rw [hdiv, hzero]; exact h)
        intro i hi
        by_cases hlt : i < part
        · exact hturn i hlt
        · have hrest := hmore (i - part) (by omega)
          rwa [show q + part + (i - part) = q + i by omega] at hrest

/-- A range can be read exactly when each of its bytes can. -/
theorem readAt_ok_iff (htotal : 0 < total) : (∃ buf, readAt v img start offset total = .ok buf) ↔
      offset + total ≤ intMax ∧ ∀ q, offset ≤ q → q < offset + total → Reaches v img start q := by
  constructor
  · rintro ⟨buf, h⟩
    obtain ⟨hrange, h⟩ := except_guard_ok.mp h
    obtain ⟨current, hat, h⟩ := except_bind_ok.mp h
    refine ⟨by omega, fun q hlo hhi => ?_⟩
    have hq := readWalk_reaches (by omega) total hat h (q - offset) (by omega)
    rwa [Nat.add_sub_cancel' hlo] at hq
  · rintro ⟨hrange, hall⟩
    obtain ⟨c, hlast, -⟩ := hall (offset + total - 1) (by omega) (by omega)
    obtain ⟨hb, hcap, hvalid, -⟩ := clusterAt_ok_iff.mp hlast
    have hindex : ∀ k, k * clusterBytes v < offset + total →
        k ≤ (offset + total - 1) / clusterBytes v := by
      intro k hk
      rw [Nat.le_div_iff_mul_le hb]
      omega
    obtain ⟨c0, hfirst, -⟩ := hall offset le_rfl (by omega)
    have hplace : ∀ q, offset ≤ q → q < offset + total →
        filePlace v (link v img start (q / clusterBytes v)) q < intMax := by
      intro q hlo hhi
      obtain ⟨c, hc, hfit⟩ := hall q hlo hhi
      obtain ⟨-, -, -, rfl⟩ := clusterAt_ok_iff.mp hc
      exact hfit
    obtain ⟨-, -, -, rfl⟩ := clusterAt_ok_iff.mp hfirst
    rw [readAt, if_neg (by omega), hfirst]
    exact readWalk_ok hb total _ _ _ _ le_rfl (fun k hk => hvalid k (hindex k hk))
      (fun k hk => Nat.lt_of_le_of_lt (hindex k hk) hcap) hplace

/-! ## What a read takes -/

def FsState.after (s : FsState) (n : Nat) : FsState := { s with dev := s.dev.ticks n }

theorem Costs.onDev {α : Type} {m : Prog Device Errno α} {a : α}
    (h : Costs id m n s.dev a (s.dev.ticks n)) : Costs FsState.dev (onDev m) n s a (s.after n) where
  ticks := rfl
  steady hs := by rw [Fat.onDev, h.steady hs, FsState.after]
  broken hs := by
    obtain ⟨e, t, hm⟩ := h.broken hs
    exact ⟨e, { s with dev := t }, by rw [Fat.onDev, hm]⟩

theorem FsState.after_after (s : FsState) (n k : Nat) : (s.after n).after k = s.after (n + k) := by
  rw [FsState.after, FsState.after, Device.ticks_ticks, FsState.after]

/-- A seek in reach takes no command. -/
theorem onDev_seek (h : pos ≤ intMax) (s : FsState) :
    onDev (diskstreamerSeek pos) s = (.ok (), s) := by
  rw [onDev, diskstreamerSeek, Prog.refuse_of_not (by omega)]
  rfl

theorem costs_fatEntry {cluster : Nat} (h : cluster < 2 ^ 16) (s : FsState) :
    Costs FsState.dev (fat16GetFatEntry cluster) 1 s (fatAt s.vol s.dev.image 0 cluster)
      (s.after 1) := by
  have hpos := fatEntryPos_lt s.vol h
  have heq : (fat16GetFirstFatSector s.vol * sectorSize + cluster * 2) % 2 ^ 32 =
      fatEntryPos s.vol 0 cluster := by
    unfold fat16GetFirstFatSector fatEntryPos at *
    unfold intMax at hpos
    simp only [Nat.zero_mul, Nat.add_zero] at *
    omega
  have hone : sectorsOf (fatEntryPos s.vol 0 cluster) 2 = 1 := by
    unfold sectorsOf fatEntryPos sectorSize
    rw [if_neg (by decide)]
    omega
  have hread := Costs.onDev (s := s) (costs_read hpos s.dev)
  rw [hone] at hread
  refine Costs.look ?_
  simp only [heq]
  refine Costs.after ?_ (onDev_seek (by omega) s) rfl
  have hentry : le16 (memcpy (fun _ => 0) 0 s.dev.image (fatEntryPos s.vol 0 cluster) 2) 0 =
      fatAt s.vol s.dev.image 0 cluster := by
    rw [le16_memcpy _ _ le_rfl, Nat.add_zero]
    rfl
  exact hread.bind (k := 0) (costs_free (by rw [hentry]; rfl) rfl)

theorem costs_clusterLoop (n : Nat) : ∀ {cluster d : Nat} {s : FsState}, s.vol = v →
    s.dev.image = img → cluster < 2 ^ 16 → clusterWalk v img n cluster = .ok d →
    Costs FsState.dev (clusterForOffsetLoop v n cluster) n s d (s.after n) := by
  induction n with
  | zero =>
    intro cluster d s _ _ _ h
    cases h
    exact costs_free rfl rfl
  | succ n ih =>
    intro cluster d s hv himg hc h
    obtain ⟨hvalid, h⟩ := except_guard_ok.mp h
    have hentry := costs_fatEntry hc s
    have hrest := ih (s := s.after 1) hv himg (valid_lt (not_not.mp hvalid)) h
    rw [FsState.after_after] at hrest
    rw [hv, himg] at hentry
    rw [clusterForOffsetLoop, Nat.add_comm n 1]
    exact hentry.bind (Costs.refuse hvalid hrest)

theorem costs_clusterForOffset {d : Nat} (hv : s.vol = v) (himg : s.dev.image = img)
    (h : clusterAt v img start offset = .ok d) :
    Costs FsState.dev (fat16GetClusterForOffset start offset) (offset / clusterBytes v) s d
      (s.after (offset / clusterBytes v)) := by
  obtain ⟨h1, h⟩ := except_guard_ok.mp h
  obtain ⟨h2, h⟩ := except_guard_ok.mp h
  refine Costs.look ?_
  rw [hv]
  refine Costs.refuse h1 (Costs.refuse h2 (costs_clusterLoop _ hv himg ?_ h))
  rw [not_or, not_not] at h1
  exact valid_lt h1.2

/-- The links and the sectors that `total` bytes from `q` on need, from their first cluster on. -/
def walkCost (v : FatPrivate) (q total : Nat) : Nat :=
  (q + total - 1) / clusterBytes v - q / clusterBytes v + sectorsOf q total

theorem cluster_sector (v : FatPrivate) (q : Nat) : q % clusterBytes v % sectorSize =
    q % sectorSize :=
  Nat.mod_mul_left_mod q (sectorsPerCluster v.header) sectorSize

theorem walkCost_split {q part : Nat} (hb : 0 < clusterBytes v)
    (hwhole : q % clusterBytes v + part = clusterBytes v) (hlt : part < total) :
    walkCost v q total = sectorsOf q part + (1 + walkCost v (q + part) (total - part)) := by
  obtain ⟨hdiv, hzero⟩ := block_next hb hwhole
  have hcut : (q + part) % sectorSize = 0 := by
    rw [← cluster_sector v, hzero]
    rfl
  have hsum := sectorsOf_cut hcut (total - part)
  have hmono : (q + part) / clusterBytes v ≤ (q + total - 1) / clusterBytes v :=
    Nat.div_le_div_right (by omega)
  rw [Nat.add_sub_cancel' hlt.le] at hsum
  rw [walkCost, walkCost, show q + part + (total - part) - 1 = q + total - 1 by omega]
  omega

theorem costs_readInternalLoop (hb : 0 < clusterBytes v) (fuel : Nat) :
    ∀ {current q total done traversed : Nat} {out buf : Bytes} {s : FsState}, s.vol = v →
      s.dev.image = img → current < 2 ^ 16 → 0 < total →
      readWalk v img fuel current (q % clusterBytes v) total traversed done out = .ok buf →
      Costs FsState.dev (readInternalLoop v fuel current (q % clusterBytes v) total
        traversed done out) (walkCost v q total) s buf (s.after (walkCost v q total)) := by
  induction fuel with
  | zero =>
    intro current q total done traversed out buf s _ _ _ htotal h
    obtain ⟨total, rfl⟩ := Nat.exists_eq_succ_of_ne_zero (Nat.ne_of_gt htotal)
    cases h
  | succ fuel ih =>
    intro current q total done traversed out buf s hv himg hc htotal h
    obtain ⟨total, rfl⟩ := Nat.exists_eq_succ_of_ne_zero (Nat.ne_of_gt htotal)
    have hmod := Nat.mod_lt q hb
    have hend := clusterPart_end (q % clusterBytes v) (total + 1) hmod
    have hle := clusterPart_le v (q % clusterBytes v) (total + 1)
    rw [Nat.succ_eq_add_one, readWalk] at h
    rw [Nat.succ_eq_add_one, readInternalLoop]
    generalize hpart : clusterPart v (q % clusterBytes v) (total + 1) = part at h hend hle ⊢
    obtain ⟨hfit, h⟩ := except_guard_ok.mp h
    refine Costs.refuse hfit (Costs.after ?_ (onDev_seek (by omega) s) rfl)
    have hread := Costs.onDev (s := s) (costs_read (show fat16ClusterToSector v current *
      sectorSize + q % clusterBytes v + part ≤ intMax by omega) s.dev)
    have hsectors : sectorsOf (fat16ClusterToSector v current * sectorSize + q % clusterBytes v)
        part = sectorsOf q part := by
      refine sectorsOf_shift ?_ part
      rw [Nat.mul_add_mod_self_right, cluster_sector]
    rw [hsectors, himg] at hread
    by_cases hlast : total + 1 - part = 0
    · obtain rfl : part = total + 1 := by omega
      have hstay : (q + (total + 1) - 1) / clusterBytes v = q / clusterBytes v :=
        (block_add (show q % clusterBytes v + total < clusterBytes v by omega)).1
      have hcost : walkCost v q (total + 1) = sectorsOf q (total + 1) := by
        rw [walkCost, hstay, Nat.sub_self, Nat.zero_add]
      rw [if_pos hlast] at h
      cases h
      rw [hcost]
      refine hread.bind (k := 0) ?_
      rw [if_pos hlast, memcpy_memcpy]
      exact costs_free rfl rfl
    · rw [if_neg hlast] at h
      obtain ⟨hlink, h⟩ := except_guard_ok.mp h
      have hvalid : fat16ValidCluster v (fatAt v img 0 current) := by
        rw [not_or, not_not] at hlink
        exact hlink.1
      have hwhole : q % clusterBytes v + part = clusterBytes v := by
        unfold clusterPart at hpart
        split at hpart <;> omega
      have hzero := (block_next hb hwhole).2
      have hentry := costs_fatEntry hc (s.after (sectorsOf q part))
      have hrest := ih (q := q + part) (s := (s.after (sectorsOf q part)).after 1) hv himg
        (valid_lt hvalid) (show 0 < total + 1 - part by omega) (by rw [hzero]; exact h)
      rw [show (s.after (sectorsOf q part)).vol = v from hv,
        show (s.after (sectorsOf q part)).dev.image = img from himg] at hentry
      have hafter : ∀ n, ((s.after (sectorsOf q part)).after 1).after n =
          s.after (sectorsOf q part + (1 + n)) := by
        intro n
        rw [FsState.after_after, FsState.after_after]
      rw [hzero, hafter] at hrest
      rw [walkCost_split hb hwhole (by omega)]
      refine hread.bind ?_
      rw [if_neg hlast, memcpy_memcpy]
      exact hentry.bind (Costs.refuse hlink hrest)

/-- The links and the sectors of a whole read. -/
def readCost (v : FatPrivate) (offset total : Nat) : Nat :=
  (offset + total - 1) / clusterBytes v + sectorsOf offset total

theorem costs_readInternal (hv : s.vol = v) (himg : s.dev.image = img) (htotal : 0 < total)
    (h : readAt v img start offset total = .ok buf) :
    Costs FsState.dev (fat16ReadInternal start offset total) (readCost v offset total) s buf
      (s.after (readCost v offset total)) := by
  obtain ⟨hrange, h⟩ := except_guard_ok.mp h
  obtain ⟨current, hat, h⟩ := except_bind_ok.mp h
  have hmono : offset / clusterBytes v ≤ (offset + total - 1) / clusterBytes v :=
    Nat.div_le_div_right (by omega)
  have hcost : readCost v offset total = offset / clusterBytes v + walkCost v offset total := by
    rw [readCost, walkCost]
    omega
  have hloop := costs_readInternalLoop (by omega) total (s := s.after (offset / clusterBytes v)) hv
    himg (valid_lt (clusterAt_valid hat)) htotal h
  rw [FsState.after_after] at hloop
  rw [hcost]
  refine Costs.look ?_
  rw [hv]
  exact Costs.refuse hrange ((costs_clusterForOffset hv himg hat).bind hloop)

variable {desc first k left rest : Nat} {d : FatFileDescriptor}

/-- Two reads in a row take at least as much as one. -/
theorem readCost_le (hk : 0 < k) :
    readCost v pos (n + k) ≤ readCost v pos n + readCost v (pos + n) k := by
  have hsum := sectorsOf_le pos n k
  rw [readCost, readCost, readCost, show pos + n + k - 1 = pos + (n + k) - 1 by omega]
  generalize (pos + n - 1) / clusterBytes v = links
  omega

/-! ## Items -/

/-- How many bytes `left` items give when `rest` bytes are left of the file. -/
def itemsLen (size left rest : Nat) : Nat := min (size * left) rest

theorem itemsLen_part (h : rest < size) : itemsLen size (left + 1) rest = rest := by
  rw [itemsLen, Nat.mul_succ]
  omega

theorem itemsLen_whole (h : size ≤ rest) :
    itemsLen size (left + 1) rest = size + itemsLen size left (rest - size) := by
  rw [itemsLen, itemsLen, Nat.mul_succ]
  omega

/-- What the items read so far and the ones to come are. -/
structure ItemsRead (v : FatPrivate) (img : Bytes) (first pos length : Nat) (done : Nat)
    (out out' : Bytes) : Prop where
  outside : ∀ p, p < done ∨ done + length ≤ p → out' p = out p
  byte : ∀ i, i < length → fileByte v img first (pos + i) = .ok (out' (done + i))
  reach : ∀ q, pos ≤ q → q < pos + length → Reaches v img first q
  fits : 0 < length → pos + length ≤ intMax

theorem itemsRead_none (first pos done : Nat) (out : Bytes) :
    ItemsRead v img first pos 0 done out out where
  outside _ _ := rfl
  byte _ h := absurd h (Nat.not_lt_zero _)
  reach q h h' := by omega
  fits h := absurd h (Nat.lt_irrefl 0)

theorem itemsRead_one (hn : 0 < n) (h : readAt v img first pos n = .ok buf) (done : Nat)
    (out : Bytes) : ItemsRead v img first pos n done out (memcpy out done buf 0 n) where
  outside _ hp := memcpy_outside hp
  byte i hi := by
    rw [readAt_bytes h hi, memcpy_of_lt (by omega) (by omega), Nat.add_sub_cancel_left,
      Nat.zero_add]
  reach := ((readAt_ok_iff hn).mp ⟨buf, h⟩).2
  fits _ := ((readAt_ok_iff hn).mp ⟨buf, h⟩).1

theorem ItemsRead.append {done : Nat} {out mid out' : Bytes}
    (h : ItemsRead v img first pos n done out mid)
    (h' : ItemsRead v img first (pos + n) k (done + n) mid out') :
    ItemsRead v img first pos (n + k) done out out' where
  outside p hp := (h'.outside p (by omega)).trans (h.outside p (by omega))
  byte i hi := by
    by_cases hlt : i < n
    · rw [h.byte i hlt, h'.outside _ (by omega)]
    · obtain ⟨j, rfl⟩ := Nat.exists_eq_add_of_le (Nat.le_of_not_lt hlt)
      rw [← Nat.add_assoc, ← Nat.add_assoc]
      exact h'.byte j (by omega)
  reach q hlo hhi := by
    by_cases hlt : q < pos + n
    · exact h.reach q hlo hlt
    · exact h'.reach q (by omega) (by omega)
  fits hpos := by
    by_cases hk : 0 < k
    · have := h'.fits hk
      omega
    · have := h.fits (by omega)
      omega

theorem readLen_part (h : item.filesize - pos < size) :
    readLen item pos size = item.filesize - pos := if_pos h

theorem readLen_whole (h : size ≤ item.filesize - pos) : readLen item pos size = size :=
  if_neg (by omega)

theorem itemsOf_read (hsize : 0 < size) (left : Nat) :
    ∀ {count pos done : Nat} {out : Bytes} {r : Nat × Bytes},
      itemsOf v img size item left count pos done out = .ok r →
      r.1 = count + itemsLen size left (item.filesize - pos) / size ∧
        ItemsRead v img (fat16GetFirstCluster item) pos (itemsLen size left (item.filesize - pos))
          done out r.2 := by
  induction left with
  | zero =>
    intro count pos done out r h
    cases h
    rw [itemsLen, Nat.mul_zero, Nat.zero_min, Nat.zero_div]
    exact ⟨rfl, itemsRead_none _ _ _ _⟩
  | succ left ih =>
    intro count pos done out r h
    rw [itemsOf] at h
    by_cases h0 : item.filesize - pos = 0
    · rw [if_pos h0] at h
      cases h
      rw [h0, itemsLen, Nat.min_zero, Nat.zero_div]
      exact ⟨rfl, itemsRead_none _ _ _ _⟩
    · rw [if_neg h0] at h
      obtain ⟨buf, hread, h⟩ := except_bind_ok.mp h
      by_cases hpart : item.filesize - pos < size
      · rw [readLen_part hpart] at hread h
        rw [if_pos (by omega)] at h
        cases h
        rw [itemsLen_part hpart, Nat.div_eq_of_lt hpart]
        exact ⟨rfl, itemsRead_one (Nat.pos_of_ne_zero h0) hread done out⟩
      · have hwhole : size ≤ item.filesize - pos := Nat.le_of_not_lt hpart
        rw [readLen_whole hwhole] at hread h
        rw [if_neg (not_not_intro rfl)] at h
        obtain ⟨hcount, hrest⟩ := ih h
        rw [Nat.sub_add_eq] at hcount hrest
        rw [itemsLen_whole hwhole, Nat.add_div_left _ hsize, hcount]
        exact ⟨by omega, (itemsRead_one hsize hread done out).append hrest⟩

theorem readItems_costs (desc : Nat) (hsize : 0 < size) (left : Nat) :
    ∀ {count pos done : Nat} {out : Bytes} {r : Nat × Bytes} {s : FsState}, SameLayout v s.vol →
      s.dev.image = img → itemsOf v img size item left count pos done out = .ok r →
      ∃ n, (0 < itemsLen size left (item.filesize - pos) →
        readCost v pos (itemsLen size left (item.filesize - pos)) ≤ n) ∧
        Costs FsState.dev (readItemsLoop desc size item left count pos done out) n s r
          (onVol (moved desc pos (pos + itemsLen size left (item.filesize - pos)))
            (s.after n)) := by
  have hstay : ∀ (pos : Nat) (s : FsState), onVol (moved desc pos (pos + 0)) (s.after 0) = s := by
    intro pos s
    rw [onVol, moved, if_pos (Nat.add_zero pos)]
    rfl
  induction left with
  | zero =>
    intro count pos done out r s _ _ h
    cases h
    rw [itemsLen, Nat.mul_zero, Nat.zero_min]
    exact ⟨0, fun h => absurd h (Nat.lt_irrefl 0), costs_free (by rw [hstay]; rfl) rfl⟩
  | succ left ih =>
    intro count pos done out r s hlay himg h
    rw [itemsOf] at h
    rw [readItemsLoop]
    by_cases h0 : item.filesize - pos = 0
    · rw [if_pos h0] at h ⊢
      cases h
      rw [h0, itemsLen, Nat.min_zero]
      exact ⟨0, fun h => absurd h (Nat.lt_irrefl 0), costs_free (by rw [hstay]; rfl) rfl⟩
    · rw [if_neg h0] at h ⊢
      obtain ⟨buf, hread, h⟩ := except_bind_ok.mp h
      have hbytes : (if size < item.filesize - pos then size else item.filesize - pos) =
          readLen item pos size := by
        unfold readLen
        split <;> split <;> omega
      have hlen : 0 < readLen item pos size := by
        unfold readLen
        split <;> omega
      have hfits := ((readAt_ok_iff hlen).mp ⟨buf, hread⟩).1
      rw [← hlay.readAt] at hread
      have hone := costs_readInternal rfl himg hlen hread
      rw [show readCost s.vol pos (readLen item pos size) =
        readCost v pos (readLen item pos size) by
        rw [readCost, hlay.clusterBytes, readCost]] at hone
      generalize (if size < item.filesize - pos then size else item.filesize - pos) =
        bytes at hbytes ⊢
      subst hbytes
      by_cases hpart : item.filesize - pos < size
      · rw [readLen_part hpart] at hone h hfits ⊢
        rw [if_pos (by omega)] at h
        cases h
        rw [itemsLen_part hpart]
        refine ⟨_, fun _ => le_rfl, Costs.refuse (by omega) (hone.bind (k := 0) ?_)⟩
        refine Costs.after ?_ (Prog.change_apply _ _) rfl
        rw [if_pos (by omega)]
        refine costs_free ?_ rfl
        rw [onVol, onVol, moved, if_neg (by omega)]
        rfl
      · have hwhole : size ≤ item.filesize - pos := Nat.le_of_not_lt hpart
        rw [readLen_whole hwhole] at hone h hfits ⊢
        rw [if_neg (not_not_intro rfl)] at h
        obtain ⟨n, hn, hrest⟩ := ih (s := onVol (setPos desc (pos + size))
          (s.after (readCost v pos size))) (hlay.trans ⟨rfl, rfl, rfl⟩) himg h
        rw [Nat.sub_add_eq] at hn hrest
        rw [itemsLen_whole hwhole]
        refine ⟨readCost v pos size + n, fun _ => ?_, Costs.refuse (by omega) (hone.bind ?_)⟩
        · by_cases hk : 0 < itemsLen size left (item.filesize - pos - size)
          · exact (readCost_le hk).trans (Nat.add_le_add_left (hn hk) _)
          · rw [Nat.eq_zero_of_not_pos hk, Nat.add_zero]
            exact Nat.le_add_right _ _
        · refine Costs.after ?_ (Prog.change_apply _ _) rfl
          rw [if_neg (not_not_intro rfl)]
          have hend : onVol (moved desc (pos + size) (pos + size + itemsLen size left
            (item.filesize - pos - size)))
              ((onVol (setPos desc (pos + size)) (s.after (readCost v pos size))).after n) =
              onVol (moved desc pos (pos + (size + itemsLen size left
                (item.filesize - pos - size)))) (s.after (readCost v pos size + n)) := by
            rw [← FsState.after_after, ← Nat.add_assoc]
            exact congrArg (fun w => { (s.after (readCost v pos size)).after n with vol := w })
              (moved_moved s.vol (Nat.lt_add_of_pos_right hsize) (Nat.le_add_right _ _))
          rwa [hend] at hrest

/-! ## Both ways -/

/-- The single read, when the range can be read and the drive does its part. -/
theorem fat16ReadBytes_run {count : Nat} (ht : ReadTarget s.vol desc d item) (hcount : 0 < count)
    (hpos : d.pos < item.filesize)
    (hread : readAt s.vol s.dev.image (fat16GetFirstCluster item) d.pos (readLen item d.pos count) =
      .ok buf)
    (hsteady : s.dev.Steady (readCost s.vol d.pos (readLen item d.pos count))) :
    fat16ReadBytes desc count s = (.ok (readLen item d.pos count, buf),
      onVol (setPos desc (d.pos + readLen item d.pos count))
        (s.after (readCost s.vol d.pos (readLen item d.pos count)))) := by
  obtain ⟨addr, hnode⟩ := ht.file
  have hlen : 0 < readLen item d.pos count := by
    unfold readLen
    split <;> omega
  have hfits := ((readAt_ok_iff hlen).mp ⟨buf, hread⟩).1
  have hmode : ¬ d.mode ≠ .read := not_not_intro ht.mode
  have hmore : ¬ (count = 0 ∨ item.filesize ≤ d.pos) := by omega
  have hin : ¬ (intMax < d.pos ∨ intMax - d.pos < readLen item d.pos count) := by omega
  have hrun := (costs_readInternal rfl rfl hlen hread).steady hsteady
  rw [fat16ReadBytes, Prog.bind_ok (Prog.look_apply _ s), ht.found]
  simp only [Prog.refuse_of_not hmode, pure_bind, hnode, if_neg hmore]
  rw [← readLen, Prog.refuse_of_not hin, pure_bind, Prog.bind_ok hrun,
    Prog.bind_ok (Prog.change_apply _ _), Prog.pure_apply]

theorem moved_pos {p : Nat} (h : findDescriptor v desc = some d) :
    findDescriptor (moved desc d.pos p v) desc = some { d with pos := p } := by
  rw [moved]
  split
  next hp =>
    rw [h, hp]
  next =>
    rw [findDescriptor_setPos, h, Option.map_some, if_pos (findDescriptor_mem h).2]

/-- The item interface and the byte interface read the same.

When `fat16_read` goes through, it gives the bytes of the file from the position on, as many
as the items have and the file still holds, moves the position by that number and returns the
number of whole items. Then `fat16_read_bytes` of as many bytes goes through from the same
state, whatever the fate of later commands of the drive, and does the same. -/
theorem read_interfaces_agree {s : FsState} {desc : Nat} {d : FatFileDescriptor} {item : DirItem}
    (ht : ReadTarget s.vol desc d item) (hpos : d.pos ≤ item.filesize) {size nmemb : Nat}
    (hsize : 1 ≤ size)
    {n : Nat} {out : Bytes} (hok : (fat16Read desc size nmemb s).1 = .ok (n, out)) :
    let length := min (size * nmemb) (item.filesize - d.pos)
    n = length / size ∧
    (∀ i, i < length → fileByte s.vol s.dev.image (fat16GetFirstCluster item) (d.pos + i) =
      .ok (out i)) ∧
    (∀ i, length ≤ i → out i = 0) ∧
    findDescriptor (fat16Read desc size nmemb s).2.vol desc =
      some { d with pos := d.pos + length } ∧
    (size * nmemb < 2 ^ 31 → ∃ buf, (fat16ReadBytes desc (size * nmemb) s).1 = .ok (length, buf) ∧
      (∀ i, i < length → buf i = out i) ∧
      (fat16ReadBytes desc (size * nmemb) s).2.vol = (fat16Read desc size nmemb s).2.vol) := by
  obtain ⟨addr, hnode⟩ := ht.file
  rw [fat16Read_target ht.found hnode hpos] at hok ⊢
  -- the run that went through gives what the bytes of the disk say
  have hitems : itemsOf s.vol s.dev.image size item nmemb 0 d.pos 0 (fun _ => 0) =
      .ok (n, out) := by
    have hrun := Prog.ends_iff.mp (readItems_spec desc hsize item nmemb 0 d.pos 0 (fun _ => 0) s)
    rw [hok] at hrun
    rcases hrun.outcome with ⟨-, h⟩ | ⟨-, e, he⟩
    · exact h.symm
    · cases he
  obtain ⟨hcount, hread⟩ := itemsOf_read hsize nmemb hitems
  obtain ⟨k, hk, hcosts⟩ := readItems_costs desc hsize nmemb (.refl s.vol) rfl hitems
  obtain ⟨hsteady, hrun⟩ := hcosts.of_ok hok
  rw [hrun]
  change n = 0 + min (size * nmemb) (item.filesize - d.pos) / size at hcount
  rw [show itemsLen size nmemb (item.filesize - d.pos) =
    min (size * nmemb) (item.filesize - d.pos) from rfl] at hread hk ⊢
  intro length
  refine ⟨hcount.trans (Nat.zero_add _), fun i hi => ?_, fun i hi =>
    hread.outside i (Or.inr ((Nat.zero_add _).trans_le hi)), moved_pos ht.found, fun _ => ?_⟩
  · rw [hread.byte i hi, Nat.zero_add]
  · by_cases hzero : size * nmemb = 0 ∨ item.filesize ≤ d.pos
    · have hnone : min (size * nmemb) (item.filesize - d.pos) = 0 := by omega
      have hstop : fat16ReadBytes desc (size * nmemb) s = (.ok (0, fun _ => 0), s) := by
        rw [fat16ReadBytes, Prog.bind_ok (Prog.look_apply _ s), ht.found]
        simp only [Prog.refuse_of_not (not_not_intro ht.mode), pure_bind, hnode, if_pos hzero,
          Prog.pure_apply]
      rw [hstop]
      refine ⟨fun _ => 0, by rw [show length = 0 from hnone], fun i hi => ?_, ?_⟩
      · rw [show length = 0 from hnone] at hi
        omega
      · rw [hnone]
        exact (if_pos rfl).symm
    · have hlen : readLen item d.pos (size * nmemb) = min (size * nmemb)
        (item.filesize - d.pos) := by
        unfold readLen
        split <;> omega
      have hlength : 0 < min (size * nmemb) (item.filesize - d.pos) := by omega
      obtain ⟨buf, hbuf⟩ := (readAt_ok_iff hlength).mpr ⟨hread.fits hlength, hread.reach⟩
      have hbytes := fat16ReadBytes_run ht (show 0 < size * nmemb by omega) (by omega)
        (by rw [hlen]; exact hbuf) (by rw [hlen]; exact hsteady.le (hk hlength))
      rw [hbytes, hlen]
      refine ⟨buf, rfl, fun i hi => ?_, ?_⟩
      · have h1 := readAt_bytes hbuf hi
        rw [hread.byte i hi, Nat.zero_add] at h1
        exact (Except.ok.inj h1).symm
      · show setPos _ _ s.vol = moved _ _ _ s.vol
        rw [moved, if_neg (by omega)]

/-! A file of 600 bytes in the two clusters of the sample, open at byte 500. -/

def readSampleItem : DirItem := (DirItem.zero.put 26 [2, 0]).put 28 [0x58, 0x02, 0, 0]

def openSample : FsState :=
  { sampleState with
    vol := { sampleVolume with
      descriptors := [⟨100, ⟨104, .file 108 readSampleItem, 0⟩, 500, .read⟩] } }

/-- One whole item and a part of the second. -/
theorem read_interfaces_agree_sample : ∃ out buf, (fat16Read 100 64 2 openSample).1 = .ok (1, out) ∧
    (fat16ReadBytes 100 128 openSample).1 = .ok (100, buf) ∧ ∀ i, i < 100 → buf i = out i := by
  have htarget : ReadTarget openSample.vol 100 ⟨100, ⟨104, .file 108 readSampleItem, 0⟩, 500, .read⟩
    readSampleItem :=
    ⟨rfl, ⟨108, rfl⟩, rfl⟩
  have hsize : readSampleItem.filesize = 600 := by decide +kernel
  have hgood : (fat16Read 100 64 2 openSample).1.toBool = true := by decide +kernel
  cases hok : (fat16Read 100 64 2 openSample).1 with
  | error e =>
    rw [hok] at hgood
    cases hgood
  | ok r =>
    obtain ⟨hn, -, -, -, hbytes⟩ := read_interfaces_agree htarget (by decide +kernel)
      (by decide) hok
    simp only [hsize] at hn hbytes
    obtain ⟨buf, hbuf, hsame, -⟩ := hbytes (by decide)
    exact ⟨r.2, buf, congrArg Except.ok (Prod.ext hn rfl), hbuf, hsame⟩

end Rorthox.Fat
