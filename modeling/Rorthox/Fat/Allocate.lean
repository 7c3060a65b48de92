import Rorthox.Fat.Collect
import Rorthox.Fat.Content

/-!
# Allocating clusters

`fat16_allocate` on the array that `fat16_collect_chain` left: new numbers go behind the old
ones, with every index checked against the array and every FAT sector against its copy.
-/

namespace Rorthox.Fat

open Lib Disk Memory

/-! ## The function on its memory -/

/-- The turns for `cluster`, … up to `maxWritable`, with `count` numbers in the array. -/
def allocateTurns (v : FatPrivate) (needed : Nat) :
    Nat → Nat → Option (Nat × Bytes × Bytes) → Bytes → Nat → Prog FsState MemError (Bytes × Nat)
  | 0, _, _, buf, count => pure (buf, count)
  | left + 1, cluster, loaded, buf, count =>
      if needed ≤ count then pure (buf, count)
      else do
        Prog.refuse (sectorsPerFat v.header ≤ cluster / 256) .fault
        let fats ← (cachedFatSectors v loaded (cluster / 256)).recode .code
        if le16 fats.1 (cluster % 256 * 2) = 0 ∧ le16 fats.2 (cluster % 256 * 2) = 0 then do
          Prog.refuse (v.maxWritable - 1 ≤ count) .fault
          allocateTurns v needed left (cluster + 1) (some (cluster / 256, fats))
            (storeCluster count cluster buf) (count + 1)
        else allocateTurns v needed left (cluster + 1) (some (cluster / 256, fats)) buf count

def allocateIn (oldCount needed : Nat) (buf : Bytes) : Prog FsState MemError Bytes := do
  let v ← Prog.look (·.vol)
  Prog.refuse (v.maxWritable - 1 < needed) (.code .enospc)
  let (buf, count) ← allocateTurns v needed (v.maxWritable - 1) 2 none buf oldCount
  Prog.refuse (count ≠ needed) (.code .enospc)
  pure buf

/-- The array with these numbers from index `i` on. -/
def storeAll (i : Nat) (clusters : List Nat) (buf : Bytes) : Bytes :=
  (clusters.zipIdx i).foldl (fun buf c => storeCluster c.2 c.1 buf) buf

theorem storeAll_append (i : Nat) (clusters : List Nat) (c : Nat) (buf : Bytes) :
    storeAll i (clusters ++ [c]) buf = storeCluster (i + clusters.length) c
      (storeAll i clusters buf) := by
  rw [storeAll, List.zipIdx_append, List.foldl_append]
  rfl

variable {v : FatPrivate} {img : Bytes} {n : Nat}

/-- The FAT has a sector for the entry of every cluster of the volume. -/
theorem sector_inside {c : Nat} (h2 : 2 ≤ c) (hc : c ≤ fat16ClusterLimit v) :
    c / 256 < sectorsPerFat v.header := by
  rcases limit_cases v with h0 | ⟨-, hfat⟩
  · omega
  · rw [sectorSize] at hfat
    omega

variable {needed oldCount : Nat} {old : List Nat}

theorem allocateTurns_eq (buf : Bytes) (hmax : v.maxWritable ≤ fat16ClusterLimit v)
    (hold : oldCount ≤ needed) (hneeded : needed ≤ v.maxWritable - 1) (left : Nat) :
    ∀ (cluster : Nat) (loaded : Option (Nat × Bytes × Bytes)) (fresh : List Nat), 2 ≤ cluster →
      cluster + left = v.maxWritable + 1 →
      allocateTurns v needed left cluster loaded (storeAll oldCount fresh buf)
        (oldCount + fresh.length) =
        (allocateLoop v (needed - oldCount) left cluster loaded fresh).recode .code >>= fun l =>
          pure (storeAll oldCount l buf, oldCount + l.length) := by
  induction left with
  | zero => intro cluster loaded fresh _ _; rfl
  | succ left ih =>
    intro cluster loaded fresh h2 hleft
    rw [allocateTurns, allocateLoop]
    by_cases hdone : needed ≤ oldCount + fresh.length
    · rw [if_pos hdone, if_pos (by omega)]
      rfl
    · rw [if_neg hdone, if_neg (by omega), Prog.recode_bind, bind_assoc,
        Prog.refuse_of_not (Nat.not_le.mpr (sector_inside h2 (by omega))), pure_bind]
      congr 1
      funext ⟨first, second⟩
      by_cases hfree : le16 first (cluster % 256 * 2) = 0 ∧ le16 second (cluster % 256 * 2) = 0
      · have hnext := ih (cluster + 1) (some (cluster / 256, first, second)) (fresh ++ [cluster])
          (by omega) (by omega)
        rw [storeAll_append, List.length_append, List.length_singleton, ← Nat.add_assoc] at hnext
        simp only [if_pos hfree]
        rw [Prog.refuse_of_not (by omega), pure_bind]
        exact hnext
      · simp only [if_neg hfree]
        exact ih _ _ _ (by omega) (by omega)

/-- On its memory the function does what it does over lists, and faults nowhere. -/
theorem allocateIn_eq (buf : Bytes) (s : FsState)
    (hmax : s.vol.maxWritable ≤ fat16ClusterLimit s.vol) (hold : oldCount ≤ needed)
    (hpos : 1 ≤ s.vol.maxWritable) :
    allocateIn oldCount needed buf s = ((fat16Allocate oldCount needed).recode .code >>=
      fun fresh =>
      pure (storeAll oldCount fresh buf)) s := by
  rw [allocateIn, fat16Allocate, Prog.recode_bind, bind_assoc, Prog.recode_look]
  refine Prog.look_congr ?_
  simp only [Prog.recode_bind, Prog.recode_refuse, bind_assoc]
  by_cases hroom : s.vol.maxWritable - 1 < needed
  · rw [Prog.refuse_of hroom, Prog.raise_bind, Prog.raise_bind]
  · have hturns := allocateTurns_eq buf hmax hold (Nat.le_of_not_lt hroom) (s.vol.maxWritable - 1) 2
      none [] le_rfl (by omega)
    rw [Prog.refuse_of_not hroom, pure_bind, pure_bind]
    change allocateTurns s.vol needed (s.vol.maxWritable - 1) 2 none buf oldCount = _ at hturns
    rw [hturns]
    simp only [bind_assoc, pure_bind, Prog.recode_pure]

theorem storeAll_holds {buf : Bytes} (h : Holds buf old) {fresh : List Nat}
    (hsmall : ∀ c ∈ fresh, c < 2 ^ 16) : Holds (storeAll old.length fresh buf) (old ++ fresh) := by
  induction fresh using List.reverseRecOn with
  | nil =>
    rw [List.append_nil]
    exact h
  | append_singleton fresh c ih =>
    have hprev := ih fun d hd => hsmall d (List.mem_append_left _ hd)
    have hstore := hprev.store (hsmall c (List.mem_append_right _ (List.mem_singleton_self c)))
    rw [List.length_append, List.append_assoc] at hstore
    rw [storeAll_append]
    exact hstore

/-! ## What is allocated -/

theorem keeps_cachedFatSectors (loaded : Option (Nat × Bytes × Bytes)) (sector : Nat) :
    Prog.Keeps FsState.heap (cachedFatSectors v loaded sector) := by
  have hload : Prog.Keeps FsState.heap (fatSectors v sector) :=
    .bind (keeps_onDev _) fun _ => .bind (keeps_onDev _) fun _ => .pure _
  rcases loaded with - | ⟨at', fats⟩
  · exact hload
  · exact .ite (.pure _) hload

theorem keeps_allocateLoop (wanted left : Nat) : ∀ cluster loaded chain,
    Prog.Keeps FsState.heap (allocateLoop v wanted left cluster loaded chain) := by
  induction left with
  | zero => exact fun _ _ _ => .pure _
  | succ left ih =>
    exact fun _ _ _ => .ite (.pure _) (.bind (keeps_cachedFatSectors _ _) fun _ => ih _ _ _)

theorem keeps_allocate (oldCount needed : Nat) : Prog.Keeps FsState.heap
    (fat16Allocate oldCount needed) :=
  .bind (.look _) fun _ => .bind (.refuse _ _) fun _ =>
    .bind (keeps_allocateLoop _ _ _ _ _) fun _ =>
    .bind (.refuse _ _) fun _ => .pure _

theorem allocOf_error {e : Errno} (h : allocOf v img oldCount needed = .error e) : e = .enospc := by
  rw [allocOf] at h
  split at h
  · cases h
    rfl
  · dsimp only at h
    split at h
    · cases h
      rfl
    · cases h

/-- A chain and the free clusters share the writable ones. -/
theorem free_room (hf : Fitted v n) {first : Nat} (h : Chain v img 0 first old) :
    old.length + (freeClusters v img).length ≤ v.maxWritable - 1 := by
  have hnodup : (old ++ freeClusters v img).Nodup := by
    refine List.nodup_append.mpr ⟨h.nodup, freeClusters_nodup v img, ?_⟩
    rintro c hc _ hm rfl
    exact h.linked.entry_ne (fun c hc => (h.writable c hc).1) c hc (mem_freeClusters.mp hm).2.1
  have hwritable : ∀ c ∈ old ++ freeClusters v img, Writable v c := by
    intro c hc
    rcases List.mem_append.mp hc with hc | hc
    · exact h.writable c hc
    · obtain ⟨⟨h2, hmax⟩, -⟩ := mem_freeClusters.mp hc
      exact hf.writable h2 hmax
  have hlen := writable_length hwritable hnodup
  rwa [List.length_append] at hlen

/-- The request is met just when enough clusters are free. -/
theorem allocOf_eq (hf : Fitted v n) {first : Nat} (h : Chain v img 0 first old)
    (hold : old.length ≤ needed) : allocOf v img old.length needed =
      if needed - old.length ≤ (freeClusters v img).length then
        .ok ((freeClusters v img).take (needed - old.length))
      else .error .enospc := by
  have hroom := free_room hf h
  split
  · rename_i hle
    refine (allocOf_ok_iff _ _ _).mpr ⟨by omega, ?_, rfl⟩
    rw [List.length_take]
    omega
  · rename_i hgt
    cases hres : allocOf v img old.length needed with
    | error e => rw [allocOf_error hres]
    | ok fresh =>
      obtain ⟨-, hlen, htake⟩ := (allocOf_ok_iff _ _ _).mp hres
      rw [htake, List.length_take] at hlen
      omega

theorem writableLimit_pos (h : fat16ClusterLimit v ≠ 0) (n : Nat) : 1 ≤ writableLimit v n := by
  unfold writableLimit
  extract_lets
  split <;> omega

theorem freeClusters_increasing (v : FatPrivate) (img : Bytes) :
    (freeClusters v img).Pairwise (· < ·) := by
  rw [freeClusters]
  exact List.Pairwise.filter _ List.pairwise_lt_range'

/-- Allocation on an accepted volume, behind a chain that was collected from it.

On its memory the function meets no fault: no index reaches the end of the array and no
FAT sector lies outside its copy. It succeeds just when enough clusters are free in both
copies, and then the array holds the old chain and the lowest of them. -/
theorem allocate_fresh {s₀ s : FsState} {n : Nat} (hf : Fitted s.vol n) {item : DirItem}
    {old : List Nat} {addr : Nat} (hold : (fat16CollectChain item s₀).1 = .ok (old, addr))
    (hvol : s₀.vol = s.vol) (himg : s₀.dev.image = s.dev.image) {needed : Nat}
    (hneeded : old.length ≤ needed) :
    (∀ buf, allocateIn old.length needed buf s =
      ((fat16Allocate old.length needed).recode .code >>= fun fresh =>
        pure (storeAll old.length fresh buf)) s) ∧
    ((fat16Allocate old.length needed s).2.dev.log = s.dev.log →
      (fat16Allocate old.length needed s).1 =
        if needed - old.length ≤ (freeClusters s.vol s.dev.image).length then
          .ok ((freeClusters s.vol s.dev.image).take (needed - old.length))
        else .error .enospc) ∧
    ((∀ c, c ∈ freeClusters s.vol s.dev.image ↔ (2 ≤ c ∧ c ≤ s.vol.maxWritable) ∧
        fatAt s.vol s.dev.image 0 c = 0 ∧ fatAt s.vol s.dev.image 1 c = 0) ∧
      (freeClusters s.vol s.dev.image).Pairwise (· < ·)) ∧
    ∀ fresh, (fat16Allocate old.length needed s).1 = .ok fresh →
      fresh = (freeClusters s.vol s.dev.image).take (needed - old.length) ∧
      old.length + fresh.length = needed ∧
      (∀ i c, (old ++ fresh)[i]? = some c →
        le16 (storeAll old.length fresh (chainBuffer (s.vol.maxWritable - 1) old)) (i * 2) = c) ∧
      (old ++ fresh).Nodup ∧
      ∀ c ∈ fresh, FreeCluster s.vol s.dev.image c ∧ 2 ≤ c ∧ c ≤ s.vol.maxWritable ∧
        (fat16ClusterToSector s.vol c + sectorsPerCluster s.vol.header) * 512 ≤ n * 512 := by
  have hcollect : chainOf s.vol s.dev.image item = .ok old := by
    rw [← hvol, ← himg]
    exact collected_chain hold
  have hchain := ((chainOf_ok_iff item old).mp hcollect).2.2.1
  have hread := (reading_allocate hf.max_lt old.length needed).ran (s := s)
  have hpos : 1 ≤ s.vol.maxWritable := hf.max_eq ▸ writableLimit_pos hf.limit_ne n
  refine ⟨fun buf => allocateIn_eq buf s hf.max_le hneeded hpos, fun hlog => ?_,
    ⟨fun c => mem_freeClusters, freeClusters_increasing _ _⟩, fun fresh hok => ?_⟩
  · have hheap := Prog.ends_iff.mp (keeps_allocate old.length needed s)
    rw [← allocOf_eq hf hchain hneeded, ← hread.calm_ok ⟨hlog, by rw [hheap]⟩]
    cases (fat16Allocate old.length needed s).1 <;> rfl
  · have halloc : allocOf s.vol s.dev.image old.length needed = .ok fresh := hread.ok_view hok
    obtain ⟨-, hlen, htake⟩ := (allocOf_ok_iff _ _ _).mp halloc
    obtain ⟨hfree, hnodup, hwritable⟩ := alloc_apart hcollect hf halloc
    have hsmall : ∀ c ∈ old ++ fresh, c < 2 ^ 16 := fun c hc => valid_lt (hwritable c hc).1
    have holds := chainBuffer_holds (writable_length hchain.writable hchain.nodup)
      fun c hc => hsmall c (List.mem_append_left _ hc)
    refine ⟨htake, hlen, storeAll_holds holds fun c hc => hsmall c (List.mem_append_right _ hc),
      hnodup, fun c hc => ?_⟩
    obtain ⟨⟨h2, -⟩, hmax⟩ := hwritable c (List.mem_append_right _ hc)
    exact ⟨hfree c hc, h2, hmax, (hf.cluster_end h2 hmax).1⟩

theorem allocate_fresh_sample :
    (fat16Allocate 2 4 sampleState).1 = .ok [4, 5] ∧ [2, 3, 4, 5].Nodup ∧
      FreeCluster sampleVolume sampleDisk 4 := by
  have hf : Fitted sampleState.vol 4200 := ⟨by decide +kernel, by decide +kernel⟩
  have hmap : (fat16CollectChain sampleItem sampleState).1.map Prod.fst = .ok [2, 3] := by
    decide +kernel
  obtain ⟨⟨old, addr⟩, hold, rfl⟩ := except_map_ok.mp hmap
  have hok : (fat16Allocate 2 4 sampleState).1 = .ok [4, 5] := by decide +kernel
  have hneeded : [2, 3].length ≤ 4 := by decide
  obtain ⟨-, -, -, hnodup, hfree⟩ := (allocate_fresh hf hold rfl rfl hneeded).2.2.2 [4, 5] hok
  exact ⟨hok, hnodup, (hfree 4 (by decide)).1⟩

end Rorthox.Fat
