import Rorthox.Fat.Geometry

/-!
# Chains of clusters

What the driver takes for the chain of a file is a list of different writable clusters
that the FAT links from one to the next up to an end marker, and every such list is
taken. Likewise for the clusters it allocates.
-/

namespace Rorthox.Fat

open Lib Disk

section

variable (v : FatPrivate) (img : Bytes)

/-- A copy of the FAT leads through the list to an end marker. -/
def Linked (copy : Nat) : List Nat → Prop
  | [] => True
  | [c] => eocStart ≤ fatAt v img copy c
  | c :: d :: l => fatAt v img copy c = d ∧ Linked copy (d :: l)

/-- A cluster mutations may touch. -/
def Writable (c : Nat) : Prop := fat16ValidCluster v c ∧ c ≤ v.maxWritable

/-- The chain from `first` on, empty for 0, as a list of different clusters. -/
structure Chain (copy first : Nat) (chain : List Nat) : Prop where
  head : chain.headD 0 = first
  linked : Linked v img copy chain
  writable : ∀ c ∈ chain, Writable v c
  nodup : chain.Nodup

end

variable {v : FatPrivate} {img : Bytes} {c capacity copy : Nat} {l : List Nat}

theorem Linked.tail (h : Linked v img copy (c :: l)) : Linked v img copy l := by
  cases l with
  | nil => trivial
  | cons d l => exact h.2

/-- The entry of a cluster of a chain is not free. -/
theorem Linked.entry_ne (h : Linked v img copy l) (hv : ∀ c ∈ l, fat16ValidCluster v c) :
    ∀ c ∈ l, fatAt v img copy c ≠ 0 := by
  induction l with
  | nil => intro c hc; cases hc
  | cons d l ih =>
    intro c hc
    rcases List.mem_cons.mp hc with rfl | hc
    · cases l with
      | nil =>
        intro h0
        have heoc : eocStart ≤ fatAt v img copy c := h
        rw [h0] at heoc
        exact absurd heoc (by decide)
      | cons d l =>
        have hd := (hv d (List.mem_cons_of_mem _ List.mem_cons_self)).1
        rw [h.1]
        omega
    · exact ih h.tail (fun c hc => hv c (List.mem_cons_of_mem _ hc)) c hc

theorem eoc_not_valid (h : eocStart ≤ c) : ¬ fat16ValidCluster v c := fun hv =>
  absurd hv.2.2.2 (by omega)

theorem collectWalk_sound (fuel : Nat) : ∀ {current : Nat} {chain out : List Nat},
    collectWalk v img capacity fuel current chain = .ok out → chain.Nodup →
      ∃ tail, out = chain ++ current :: tail ∧ Linked v img 0 (current :: tail) ∧
        (∀ c ∈ current :: tail, Writable v c) ∧ out.Nodup ∧ out.length ≤ capacity := by
  induction fuel with
  | zero => intro current chain out h; cases h
  | succ fuel ih =>
    intro current chain out h hnodup
    unfold collectWalk at h
    split at h
    · cases h
    · rename_i hok
      push Not at hok
      obtain ⟨hvalid, hmax, hlen, hnew⟩ := hok
      have hnodup' : (chain ++ [current]).Nodup := by
        rw [List.nodup_append]
        refine ⟨hnodup, List.nodup_singleton _, fun a ha b hb => ?_⟩
        rw [List.mem_singleton.mp hb]
        exact fun he => hnew (he ▸ ha)
      split at h
      · rename_i heoc
        cases h
        refine ⟨[], rfl, heoc, ?_, hnodup', ?_⟩
        · intro c hc
          rw [List.mem_singleton.mp hc]
          exact ⟨hvalid, hmax⟩
        · rw [List.length_append, List.length_singleton]
          omega
      · split at h
        · cases h
        · obtain ⟨tail, rfl, hlinked, hw, hnd, hcap⟩ := ih h hnodup'
          refine ⟨fatAt v img 0 current :: tail, ?_, ⟨rfl, hlinked⟩, ?_, hnd, hcap⟩
          · rw [List.append_assoc]
            rfl
          · intro c hc
            rcases List.mem_cons.mp hc with rfl | hc
            · exact ⟨hvalid, hmax⟩
            · exact hw c hc

theorem collectWalk_complete (fuel : Nat) : ∀ {current : Nat} {chain tail : List Nat},
    Linked v img 0 (current :: tail) → (∀ c ∈ current :: tail, Writable v c) →
      (chain ++ current :: tail).Nodup → (chain ++ current :: tail).length ≤ capacity →
      tail.length < fuel →
      collectWalk v img capacity fuel current chain = .ok (chain ++ current :: tail) := by
  induction fuel with
  | zero => intro current chain tail _ _ _ _ h; omega
  | succ fuel ih =>
    intro current chain tail hlinked hw hnodup hlen hfuel
    have hcur := hw current List.mem_cons_self
    have hnew : current ∉ chain := fun hmem =>
      (List.nodup_append.mp hnodup).2.2 current hmem current List.mem_cons_self rfl
    rw [List.length_append, List.length_cons] at hlen
    unfold collectWalk
    rw [if_neg (by push Not; exact ⟨hcur.1, hcur.2, by omega, hnew⟩)]
    cases tail with
    | nil => rw [if_pos (show eocStart ≤ fatAt v img 0 current from hlinked)]
    | cons next tail =>
      obtain ⟨hnext, hrest⟩ := hlinked
      have hvalid := (hw next (List.mem_cons_of_mem _ List.mem_cons_self)).1
      have hassoc : chain ++ current :: next :: tail = chain ++ [current] ++ next :: tail := by
        rw [List.append_assoc]
        rfl
      rw [hnext, if_neg (fun he => eoc_not_valid he hvalid), if_neg (not_not.mpr hvalid), hassoc]
      rw [hassoc] at hnodup
      rw [List.length_cons] at hfuel hlen
      refine ih hrest (fun c hc => hw c (List.mem_cons_of_mem _ hc)) hnodup ?_ (by omega)
      rw [List.length_append, List.length_append, List.length_singleton, List.length_cons]
      omega

/-- Different writable clusters are fewer than the limit. -/
theorem writable_length {chain : List Nat} (hw : ∀ c ∈ chain, Writable v c) (hn : chain.Nodup) :
    chain.length ≤ v.maxWritable - 1 := by
  have hsub : chain.toFinset ⊆ Finset.Icc 2 v.maxWritable := by
    intro c hc
    have h1 := hw c (List.mem_toFinset.mp hc)
    exact Finset.mem_Icc.mpr ⟨h1.1.1, h1.2⟩
  have hcard := Finset.card_le_card hsub
  rw [List.toFinset_card_of_nodup hn, Nat.card_Icc] at hcard
  omega

/-- The driver takes exactly the chains that cover the size of the file. -/
theorem chainOf_ok_iff (item : DirItem) (chain : List Nat) :
    chainOf v img item = .ok chain ↔
      item.highFirstCluster = 0 ∧ item.filesize ≤ intMax ∧
        Chain v img 0 item.lowFirstCluster chain ∧ clustersFor v item.filesize ≤ chain.length := by
  unfold chainOf
  by_cases hhigh : item.highFirstCluster ≠ 0
  · rw [if_pos hhigh]
    exact ⟨fun h => (by cases h), fun h => absurd h.1 hhigh⟩
  rw [if_neg hhigh]
  by_cases hsize : intMax < item.filesize
  · rw [if_pos hsize]
    exact ⟨fun h => (by cases h), fun h => absurd h.2.1 (by omega)⟩
  rw [if_neg hsize]
  have hwalk : ∀ out, (if item.lowFirstCluster = 0 then (.ok [] : Except Errno (List Nat))
      else collectWalk v img (v.maxWritable - 1) (v.maxWritable - 1 + 1) item.lowFirstCluster []) =
        .ok out ↔ Chain v img 0 item.lowFirstCluster out := by
    intro out
    by_cases h0 : item.lowFirstCluster = 0
    · rw [if_pos h0, h0]
      constructor
      · intro h
        cases h
        exact ⟨rfl, trivial, fun c hc => (by cases hc), List.nodup_nil⟩
      · intro h
        cases out with
        | nil => rfl
        | cons c l =>
          have h1 := (h.writable c List.mem_cons_self).1.1
          have h2 : c = 0 := h.head
          omega
    · rw [if_neg h0]
      constructor
      · intro h
        obtain ⟨tail, rfl, hl, hw, hn, -⟩ := collectWalk_sound _ h List.nodup_nil
        exact ⟨rfl, hl, hw, hn⟩
      · intro h
        cases out with
        | nil => exact absurd h.head.symm h0
        | cons c l =>
          obtain rfl : c = item.lowFirstCluster := h.head
          have hlen := writable_length h.writable h.nodup
          refine collectWalk_complete _ h.linked h.writable h.nodup hlen ?_
          rw [List.length_cons] at hlen
          omega
  generalize (if item.lowFirstCluster = 0 then (.ok [] : Except Errno (List Nat))
    else collectWalk v img (v.maxWritable - 1) (v.maxWritable - 1 + 1) item.lowFirstCluster []) =
    walk at hwalk ⊢
  have hfacts : item.highFirstCluster = 0 ∧ item.filesize ≤ intMax := ⟨by omega, by omega⟩
  cases walk with
  | error e =>
    exact ⟨fun h => (by cases h), fun h => (by cases (hwalk chain).mpr h.2.2.1)⟩
  | ok out =>
    show (if out.length < clustersFor v item.filesize then Except.error Errno.eio else .ok out) =
      .ok chain ↔ _
    constructor
    · intro h
      split at h
      · cases h
      · cases h
        exact ⟨hfacts.1, hfacts.2, (hwalk _).mp rfl, by omega⟩
    · rintro ⟨-, -, hchain, hle⟩
      cases (hwalk chain).mpr hchain
      rw [if_neg (by omega)]

/-! ## Free clusters -/

variable (v img) in
/-- The writable clusters that are free in both copies, in order. -/
def freeClusters : List Nat :=
  (List.range' 2 (v.maxWritable - 1)).filter fun c => FreeCluster v img c

theorem freeFrom_eq (wanted left : Nat) : ∀ (cluster : Nat) (chain : List Nat),
    freeFrom v img wanted left cluster chain = chain ++
      ((List.range' cluster left).filter fun c => FreeCluster v img c).take
        (wanted - chain.length) := by
  induction left with
  | zero =>
    intro cluster chain
    rw [List.range'_zero, List.filter_nil, List.take_nil, List.append_nil]
    rfl
  | succ left ih =>
    intro cluster chain
    unfold freeFrom
    by_cases hw : wanted ≤ chain.length
    · rw [if_pos hw, Nat.sub_eq_zero_of_le hw, List.take_zero, List.append_nil]
    · rw [if_neg hw, ih, List.range'_succ]
      by_cases hf : FreeCluster v img cluster
      · rw [if_pos hf, List.filter_cons_of_pos (by simpa using hf), List.length_append,
          List.length_singleton, List.append_assoc]
        obtain ⟨k, hk⟩ : ∃ k, wanted - chain.length = k + 1 := ⟨wanted - chain.length - 1, by omega⟩
        rw [hk, List.take_succ_cons, show wanted - (chain.length + 1) = k by omega]
        rfl
      · rw [if_neg hf, List.filter_cons_of_neg (by simpa using hf)]

theorem allocOf_ok_iff (oldCount needed : Nat) (fresh : List Nat) :
    allocOf v img oldCount needed = .ok fresh ↔
      needed ≤ v.maxWritable - 1 ∧ oldCount + fresh.length = needed ∧
        fresh = (freeClusters v img).take (needed - oldCount) := by
  unfold allocOf
  rw [freeFrom_eq, List.nil_append, List.length_nil, Nat.sub_zero]
  show (if _ then _ else (if oldCount + ((freeClusters v img).take (needed - oldCount)).length ≠
    needed then _ else Except.ok ((freeClusters v img).take (needed - oldCount)))) = _ ↔ _
  split
  · exact ⟨fun h => (by cases h), fun h => absurd h.1 (by omega)⟩
  · split
    · rename_i h1 h2
      refine ⟨fun h => (by cases h), fun h => absurd ?_ h2⟩
      rw [← h.2.2]
      exact h.2.1
    · rename_i h1 h2
      constructor
      · intro h
        cases h
        exact ⟨by omega, not_not.mp h2, rfl⟩
      · intro h
        rw [h.2.2]

theorem mem_freeClusters :
    c ∈ freeClusters v img ↔ (2 ≤ c ∧ c ≤ v.maxWritable) ∧ FreeCluster v img c := by
  unfold freeClusters
  rw [List.mem_filter, List.mem_range'_1, decide_eq_true_eq]
  refine and_congr_left fun _ => ?_
  omega

theorem alloc_mem {oldCount needed : Nat} {fresh : List Nat}
    (h : allocOf v img oldCount needed = .ok fresh) :
    ∀ c ∈ fresh, (2 ≤ c ∧ c ≤ v.maxWritable) ∧ FreeCluster v img c := by
  intro c hc
  rw [((allocOf_ok_iff oldCount needed fresh).mp h).2.2] at hc
  exact mem_freeClusters.mp (List.mem_of_mem_take hc)

theorem freeClusters_nodup (v : FatPrivate) (img : Bytes) : (freeClusters v img).Nodup :=
  List.Nodup.filter _ (List.nodup_range' ..)

end Rorthox.Fat
