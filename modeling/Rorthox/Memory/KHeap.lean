import Rorthox.Memory.HeapHistory

/-!
# The kernel's heap and who owns its blocks

`kernel/memory/heap/kheap.c` over the one kernel heap, 25600 blocks from 16 MiB
on. A value of `KHeap` is a heap whose table shows a collection of runs, so every
state of it is one some history of calls can leave. `refuse` lets any chosen
allocation fail. `Owns` is the bookkeeping of a function that allocates: which
addresses it still has to give back before the table is the one it started from.
-/

namespace Rorthox.Memory

open Lib

/-- `RORTHOX_HEAP_ADDRESS`. -/
def heapAddress : Nat := 0x01000000

/-- Blocks of the kernel heap. -/
def heapBlocks : Nat := 25600

/-- A heap where the kernel puts its own, with a table that shows some runs. -/
structure Heap.Sound (h : Heap) : Prop where
  start : h.saddr = heapAddress
  shown : ∃ R : Runs heapBlocks, Represents h R

variable {h : Heap} {s : Nat} {m : Multiset Nat}

theorem Heap.Sound.placed (hs : h.Sound) : Placed h := by
  obtain ⟨R, hr⟩ := hs.shown
  refine ⟨?_, ?_, ?_⟩
  · rw [hs.start]; decide
  · rw [hs.start]; decide
  · rw [hs.start, hr.total_eq]; decide

theorem Heap.Sound.taken (hs : h.Sound) {R : Runs heapBlocks} (hr : Represents h R) {n : Nat}
    (hv : R.Vacant s n) : (heapMarkBlocksTaken h s n).Sound :=
  ⟨hs.start, _, represents_taken hr hv⟩

theorem heapMalloc_sound (hs : h.Sound) (size : Nat) : (heapMalloc h size).2.Sound := by
  obtain ⟨R, hr⟩ := hs.shown
  rcases heapMalloc_cases hr hs.placed size with ⟨he, -⟩ | ⟨s, hv, -, -, -, he⟩
  · rw [he]; exact hs
  · rw [he]; exact hs.taken hr hv

theorem heapFree_sound (hs : h.Sound) (ptr : Nat) : (heapFree h ptr).Sound := by
  obtain ⟨R, hr⟩ := hs.shown
  rcases heapFree_cases hr hs.placed ptr with ⟨s, hl, -, he⟩ | ⟨-, he⟩
  · rw [he]; exact ⟨hs.start, _, represents_freed hr hl⟩
  · rw [he]; exact hs

/-- The kernel heap with the allocations that are to fail. -/
structure KHeap where
  heap : Heap
  sound : heap.Sound
  refuse : Nat → Bool
  calls : Nat
  /-- How many allocations have returned null. -/
  refusals : Nat

def kmalloc (k : KHeap) (size : Nat) : Option Nat × KHeap :=
  if k.refuse k.calls then
    (none, { k with calls := k.calls + 1, refusals := k.refusals + 1 })
  else
    ((heapMalloc k.heap size).1,
      { k with
        heap := (heapMalloc k.heap size).2
        sound := heapMalloc_sound k.sound size
        calls := k.calls + 1
        refusals := if (heapMalloc k.heap size).1 = none then k.refusals + 1 else k.refusals })

def kfree (k : KHeap) (ptr : Nat) : KHeap :=
  { k with heap := heapFree k.heap ptr, sound := heapFree_sound k.sound ptr }

/-! ## The runs of the table -/

/-- A table shows one collection of runs only. -/
theorem Represents.unique {total : Nat} {R R' : Runs total} (hr : Represents h R)
    (hr' : Represents h R') : R = R' := by
  have hle : ∀ {A B : Runs total}, Represents h A → Represents h B → ∀ s, A.len s ≠ 0 →
      B.len s ≠ 0 ∧ B.len s ≤ A.len s := by
    intro A B ha hb s hs
    have hstart := ha.taken s s (Runs.holds_start hs)
    have hin := A.inside s hs
    have hcov : B.Covered s := by
      by_contra hc
      rw [hb.free s (by omega) hc] at hstart
      have h1 := runEntry_type (s == s) (decide (s + 1 < s + A.len s))
      rw [← hstart] at h1
      exact absurd h1 (by decide)
    obtain ⟨t, ht⟩ := hcov
    have hts : t = s := by
      have h1 := hb.taken t s ht
      rw [hstart] at h1
      have h2 := (runEntry_first (s == s) (decide (s + 1 < s + A.len s))).not
      rw [h1, runEntry_first] at h2
      by_contra hne
      have h3 : (s == t) = false := beq_eq_false_iff_ne.mpr (Ne.symm hne)
      simp [h3] at h2
    subst hts
    refine ⟨ht.len_ne, ?_⟩
    by_contra hlt
    have h1 := ha.taken t (t + A.len t - 1) ⟨by omega, by omega⟩
    have h2 := hb.taken t (t + A.len t - 1) ⟨by omega, by omega⟩
    have h3 := (runEntry_next (t + A.len t - 1 == t) (decide
      (t + A.len t - 1 + 1 < t + A.len t))).mpr (by simp only [decide_eq_false_iff_not]; omega)
    rw [← h1, h2, runEntry_next] at h3
    simp only [decide_eq_false_iff_not] at h3
    omega
  ext s
  by_cases hs : R.len s = 0
  · by_contra hne
    exact (hle hr' hr s (by omega)).1 hs
  · obtain ⟨h1, h2⟩ := hle hr hr' s hs
    obtain ⟨-, h4⟩ := hle hr' hr s h1
    omega

noncomputable def KHeap.runs (k : KHeap) : Runs heapBlocks := k.sound.shown.choose

theorem KHeap.represents (k : KHeap) : Represents k.heap k.runs := k.sound.shown.choose_spec

theorem KHeap.runs_eq {k : KHeap} {R : Runs heapBlocks} (h : Represents k.heap R) : k.runs = R :=
  k.represents.unique h

theorem KHeap.runs_congr {k k' : KHeap} (h : k'.heap = k.heap) : k'.runs = k.runs :=
  KHeap.runs_eq (h ▸ k.represents)

/-- The address of a block. -/
def blockAddr (s : Nat) : Nat := heapAddress + s * blockSize

theorem blockAddr_inj {t : Nat} (h : blockAddr s = blockAddr t) : s = t := address_inj h

theorem blockAddr_ne_zero (s : Nat) : blockAddr s ≠ 0 := by
  unfold blockAddr heapAddress
  omega

/-- What `kmalloc` does: nothing to the table, or one more run. -/
theorem kmalloc_cases (k : KHeap) (size : Nat) :
    ((kmalloc k size).1 = none ∧ (kmalloc k size).2.heap = k.heap ∧
      (kmalloc k size).2.refusals = k.refusals + 1) ∨
    (∃ s, ∃ hv : k.runs.Vacant s (blocksFor size), 0 < size ∧
      (kmalloc k size).1 = some (blockAddr s) ∧
      (kmalloc k size).2.heap = heapMarkBlocksTaken k.heap s (blocksFor size) ∧
      (kmalloc k size).2.runs = k.runs.insert s (blocksFor size) hv ∧
      (kmalloc k size).2.refusals = k.refusals) := by
  unfold kmalloc
  by_cases hc : k.refuse k.calls = true
  · rw [if_pos hc]
    exact Or.inl ⟨rfl, rfl, rfl⟩
  · rw [if_neg hc]
    rcases heapMalloc_cases k.represents k.sound.placed size with ⟨he, -⟩ | ⟨s, hv, hpos, -, -, he⟩
    · refine Or.inl ⟨?_, ?_, ?_⟩
      · simp only [he]
      · simp only [he]
      · simp only [he, if_true]
    · refine Or.inr ⟨s, hv, hpos, ?_, ?_, ?_, ?_⟩
      · simp only [he, k.sound.start, blockAddr]
      · simp only [he]
      · refine KHeap.runs_eq ?_
        simp only [he]
        exact represents_taken k.represents hv
      · simp only [he]
        rfl

@[simp] theorem kmalloc_refuse (k : KHeap) (size : Nat) : (kmalloc k size).2.refuse = k.refuse := by
  unfold kmalloc
  split <;> rfl

/-- What `kfree` does: one run less, or nothing at all. -/
theorem kfree_cases (k : KHeap) (ptr : Nat) :
    (∃ s, k.runs.len s ≠ 0 ∧ ptr = blockAddr s ∧
      (kfree k ptr).heap = heapMarkBlocksFree k.heap s ∧ (kfree k ptr).runs = k.runs.erase s) ∨
    ((∀ s, k.runs.len s ≠ 0 → ptr ≠ blockAddr s) ∧ (kfree k ptr).heap = k.heap) := by
  have hst := k.sound.start
  rcases heapFree_cases k.represents k.sound.placed ptr with ⟨s, hs, hp, he⟩ | ⟨hno, he⟩
  · refine Or.inl ⟨s, hs, by rw [hp, hst]; rfl, he, KHeap.runs_eq ?_⟩
    show Represents (heapFree k.heap ptr) _
    rw [he]
    exact represents_freed k.represents hs
  · refine Or.inr ⟨fun s hs hp => hno s hs ?_, he⟩
    rw [hp, hst]
    rfl

theorem kfree_null (k : KHeap) : (kfree k 0).heap = k.heap := rfl

/-! ## Ownership -/

/-- The table is that of `base` with one more run at every address of `m`. -/
structure Owns (base : KHeap) (m : Multiset Nat) (k : KHeap) : Prop where
  nodup : m.Nodup
  kept : ∀ s, blockAddr s ∉ m → k.runs.len s = base.runs.len s
  fresh : ∀ p ∈ m, ∃ s, p = blockAddr s ∧ base.runs.len s = 0 ∧ k.runs.len s ≠ 0
  rest : ∀ i, heapBlocks ≤ i → k.heap.table.entries i = base.heap.table.entries i

theorem Owns.refl (k : KHeap) : Owns k 0 k :=
  ⟨Multiset.nodup_zero, fun _ _ => rfl, fun _ h => absurd h (Multiset.notMem_zero _),
    fun _ _ => rfl⟩

theorem Owns.of_heap {base k k' : KHeap} (h : Owns base m k) (he : k'.heap = k.heap) :
    Owns base m k' := by
  have hruns := KHeap.runs_congr he
  refine ⟨h.nodup, ?_, ?_, ?_⟩
  · rw [hruns]; exact h.kept
  · rw [hruns]; exact h.fresh
  · rw [he]; exact h.rest

/-- With nothing left to give back the table is the old one. -/
theorem Owns.done {base k : KHeap} (h : Owns base 0 k) : k.heap = base.heap := by
  have hruns : k.runs = base.runs := by
    ext s
    exact h.kept s (Multiset.notMem_zero _)
  have hentries : k.heap.table.entries = base.heap.table.entries := by
    funext i
    by_cases hi : i < heapBlocks
    · by_cases hc : k.runs.Covered i
      · obtain ⟨s, hs⟩ := hc
        rw [k.represents.taken s i hs, base.represents.taken s i (hruns ▸ hs), hruns]
      · rw [k.represents.free i hi hc, base.represents.free i hi (hruns ▸ hc)]
    · exact h.rest i (by omega)
  have htotal := k.represents.total_eq.trans base.represents.total_eq.symm
  have hstart := k.sound.start.trans base.sound.start.symm
  cases hk : k.heap with
  | mk table saddr =>
    cases hb : base.heap with
    | mk table' saddr' =>
      cases table
      cases table'
      simp only [hk, hb] at hentries htotal hstart
      simp only [hentries, htotal, hstart]

theorem Owns.malloc {base k : KHeap} (h : Owns base m k) {n : Nat} {k' : KHeap}
    (hv : k.runs.Vacant s n) (hh : k'.heap = heapMarkBlocksTaken k.heap s n)
    (hr : k'.runs = k.runs.insert s n hv) : Owns base (blockAddr s ::ₘ m) k' := by
  have hzero := hv.no_run le_rfl hv.start_lt
  have hnew : blockAddr s ∉ m := by
    intro hmem
    obtain ⟨t, ht, -, hlen⟩ := h.fresh _ hmem
    rw [← blockAddr_inj ht] at hlen
    exact hlen hzero
  refine ⟨Multiset.nodup_cons.mpr ⟨hnew, h.nodup⟩, ?_, ?_, ?_⟩
  · intro t ht
    rw [Multiset.mem_cons, not_or] at ht
    rw [hr, Runs.insert_len, if_neg (fun he : t = s => ht.1 (by rw [he]))]
    exact h.kept t ht.2
  · intro p hp
    rcases Multiset.mem_cons.mp hp with rfl | hp
    · refine ⟨s, rfl, ?_, ?_⟩
      · rw [← h.kept s hnew]; exact hzero
      · rw [hr, Runs.insert_len, if_pos rfl]
        exact Nat.pos_iff_ne_zero.mp hv.1
    · obtain ⟨t, rfl, h0, hlen⟩ := h.fresh p hp
      refine ⟨t, rfl, h0, ?_⟩
      rw [hr, Runs.insert_len, if_neg]
      · exact hlen
      · intro he
        exact hnew (he ▸ hp)
  · intro i hi
    rw [hh, heapMarkBlocksTaken_entries k.heap hv.1, if_neg]
    · exact h.rest i hi
    · have h2 := hv.2.1
      omega

/-- An owned address is given back, and only that one. -/
theorem Owns.free {base k : KHeap} {p : Nat} (h : Owns base (p ::ₘ m) k) :
    Owns base m (kfree k p) := by
  obtain ⟨s, rfl, h0, hlen⟩ := h.fresh p (Multiset.mem_cons_self p m)
  obtain ⟨hnew, hnodup⟩ := Multiset.nodup_cons.mp h.nodup
  rcases kfree_cases k (blockAddr s) with ⟨t, ht, hp, hh, hr⟩ | ⟨hno, -⟩
  · obtain rfl := blockAddr_inj hp
    refine ⟨hnodup, ?_, ?_, ?_⟩
    · intro t ht
      rw [hr, Runs.erase_len]
      by_cases hts : t = s
      · rw [if_pos hts, hts, h0]
      · rw [if_neg hts]
        refine h.kept t fun hmem => ?_
        rcases Multiset.mem_cons.mp hmem with he | hmem
        · exact hts (blockAddr_inj he)
        · exact ht hmem
    · intro p hp
      obtain ⟨t, rfl, hb, hk⟩ := h.fresh p (Multiset.mem_cons_of_mem hp)
      refine ⟨t, rfl, hb, ?_⟩
      rw [hr, Runs.erase_len, if_neg]
      · exact hk
      · intro he
        exact hnew (he ▸ hp)
    · intro i hi
      rw [hh, heapMarkBlocksFree_entries k.represents hlen, if_neg]
      · exact h.rest i hi
      · intro hin
        have h1 := hin.lt_total
        omega
  · exact absurd rfl (hno s hlen)

/-- `kheap_init` leaves an empty table. -/
theorem kernelHeap_sound : kernelHeap.Sound := by
  obtain ⟨R, ha⟩ := (agrees_create kheapInit (by decide) (by decide) (by decide)).run []
  exact ⟨rfl, R, ha.shown⟩

/-- The heap the kernel starts with; no allocation is made to fail. -/
def bootHeap : KHeap :=
  { heap := kernelHeap, sound := kernelHeap_sound, refuse := fun _ => false, calls := 0,
    refusals := 0 }

end Rorthox.Memory
