import Rorthox.Memory.HeapLedger

/-!
# Histories of heap calls

A ledger of live allocations is kept beside the heap from the calls and their
results alone. The table shows exactly the ledger after every history, whatever
sizes were asked for and whatever pointers were freed.
-/

namespace Rorthox.Memory

open Lib

inductive HeapCall where
  | malloc (size : UInt32)
  | free (ptr : UInt32)

/-- The heap and the live allocations, as (address, requested size). -/
structure HeapRun where
  heap : Heap
  live : List (Nat × Nat)

def HeapRun.step (r : HeapRun) : HeapCall → HeapRun
  | .malloc size =>
      match heapMalloc r.heap size.toNat with
      | (some ptr, heap) => ⟨heap, (ptr, size.toNat) :: r.live⟩
      | (none, heap) => ⟨heap, r.live⟩
  | .free ptr => ⟨heapFree r.heap ptr.toNat, r.live.filter fun a => a.1 ≠ ptr.toNat⟩

def HeapRun.run (r : HeapRun) (calls : List HeapCall) : HeapRun := calls.foldl HeapRun.step r

/-- The ledger and the runs of the table name the same allocations. -/
structure Agrees {total : Nat} (r : HeapRun) (R : Runs total) : Prop where
  shown : Represents r.heap R
  placed : Placed r.heap
  live : ∀ ptr size, (ptr, size) ∈ r.live →
    ∃ s, ptr = r.heap.saddr + s * blockSize ∧ R.len s = blocksFor size ∧ 0 < size
  listed : ∀ s, R.len s ≠ 0 → ∃ size, (r.heap.saddr + s * blockSize, size) ∈ r.live
  single : r.live.Pairwise fun a b => a.1 ≠ b.1

variable {s total : Nat} {h : Heap} {r : HeapRun}

theorem address_inj {a t : Nat} (h : a + s * blockSize = a + t * blockSize) : s = t := by
  simp only [blockSize] at h
  omega

theorem agrees_create {ptr endPtr : Nat} {table : HeapTable}
    (hc : heapCreate ptr endPtr table = .ok h) (hpos : 0 < ptr) (hle : ptr ≤ endPtr)
    (hend : endPtr < 2 ^ 32) : Agrees ⟨h, []⟩ (Runs.empty h.table.total) := by
  unfold heapCreate heapValidateTable at hc
  split at hc
  · cases hc
  · rename_i hal
    simp only [Bool.or_eq_true, Bool.not_eq_true', not_or, Bool.not_eq_false] at hal
    by_cases ht : table.total ≠ (endPtr + 2 ^ 32 - ptr) % 2 ^ 32 / blockSize
    · rw [if_pos ht] at hc
      cases hc
    · rw [if_neg ht] at hc
      obtain rfl := Except.ok.inj hc
      refine ⟨⟨rfl, ?_, ?_⟩, ⟨?_, hpos, ?_⟩, ?_, ?_, List.Pairwise.nil⟩
      · intro i hi _
        exact if_pos hi
      · intro s i hs
        exact absurd rfl hs.len_ne
      · simpa [heapValidateAlignment] using hal.1
      · have h1 := hal.1
        have h2 := hal.2
        simp only [heapValidateAlignment, beq_iff_eq, blockSize] at *
        omega
      · intro p size h
        cases h
      · intro s h
        exact absurd rfl h

theorem Placed.taken (hp : Placed h) (s n : Nat) : Placed (heapMarkBlocksTaken h s n) := by
  obtain ⟨h1, h2, h3⟩ := hp
  exact ⟨h1, h2, h3⟩

theorem Placed.freed (hp : Placed h) (s : Nat) : Placed (heapMarkBlocksFree h s) := by
  obtain ⟨h1, h2, h3⟩ := hp
  exact ⟨h1, h2, h3⟩

theorem Agrees.malloc {R : Runs total} (ha : Agrees r R) {size : Nat}
    (hv : R.Vacant s (blocksFor size)) (hsize : 0 < size) :
    Agrees ⟨heapMarkBlocksTaken r.heap s (blocksFor size),
      (r.heap.saddr + s * blockSize, size) :: r.live⟩ (R.insert s (blocksFor size) hv) := by
  refine ⟨represents_taken ha.shown hv, ha.placed.taken _ _, ?_, ?_, ?_⟩
  · intro ptr n hmem
    rcases List.mem_cons.mp hmem with he | hold
    · rw [Prod.mk.injEq] at he
      refine ⟨s, he.1, ?_, ?_⟩
      · rw [Runs.insert_len, if_pos rfl, he.2]
      · rw [he.2]; exact hsize
    · obtain ⟨t, hp, hlen, hn⟩ := ha.live ptr n hold
      have hts : t ≠ s := by
        rintro rfl
        have h0 := hv.no_run le_rfl hv.start_lt
        have h1 := blocksFor_pos hn
        omega
      exact ⟨t, hp, by rw [Runs.insert_len, if_neg hts, hlen], hn⟩
  · intro t ht
    rw [Runs.insert_len] at ht
    by_cases hts : t = s
    · exact ⟨size, by rw [hts]; exact List.mem_cons_self⟩
    · rw [if_neg hts] at ht
      obtain ⟨n, hn⟩ := ha.listed t ht
      exact ⟨n, List.mem_cons_of_mem _ hn⟩
  · refine List.Pairwise.cons ?_ ha.single
    rintro ⟨ptr, n⟩ hmem he
    obtain ⟨t, hp, hlen, hn⟩ := ha.live ptr n hmem
    obtain rfl := address_inj (he.trans hp)
    have h0 := hv.no_run le_rfl hv.start_lt
    have h1 := blocksFor_pos hn
    omega

theorem Agrees.free {R : Runs total} (ha : Agrees r R) (hs : R.len s ≠ 0) :
    Agrees ⟨heapMarkBlocksFree r.heap s,
      r.live.filter fun a => a.1 ≠ r.heap.saddr + s * blockSize⟩ (R.erase s) := by
  refine ⟨represents_freed ha.shown hs, ha.placed.freed _, ?_, ?_, ha.single.filter _⟩
  · intro ptr n hmem
    obtain ⟨hold, hne⟩ := List.mem_filter.mp hmem
    obtain ⟨t, hp, hlen, hn⟩ := ha.live ptr n hold
    have hts : t ≠ s := by
      rintro rfl
      exact of_decide_eq_true hne hp
    exact ⟨t, hp, by rw [Runs.erase_len, if_neg hts, hlen], hn⟩
  · intro t ht
    rw [Runs.erase_len] at ht
    by_cases hts : t = s
    · rw [if_pos hts] at ht
      exact absurd rfl ht
    · rw [if_neg hts] at ht
      obtain ⟨n, hn⟩ := ha.listed t ht
      refine ⟨n, List.mem_filter.mpr ⟨hn, decide_eq_true ?_⟩⟩
      intro he
      exact hts (address_inj he)

/-- A pointer no live allocation starts at is not in the ledger either. -/
theorem Agrees.filter_other {R : Runs total} (ha : Agrees r R) {ptr : Nat}
    (hno : ∀ s, R.len s ≠ 0 → ptr ≠ r.heap.saddr + s * blockSize) :
    (r.live.filter fun a => a.1 ≠ ptr) = r.live := by
  rw [List.filter_eq_self]
  rintro ⟨p, n⟩ hmem
  obtain ⟨s, hp, hlen, hn⟩ := ha.live p n hmem
  have hne := hno s (by have h1 := blocksFor_pos hn; omega)
  exact decide_eq_true fun he => hne (he.symm.trans hp)

/-- One call of either kind keeps ledger and table together. -/
theorem Agrees.step {R : Runs total} (ha : Agrees r R) (c : HeapCall) :
    ∃ R' : Runs total, Agrees (r.step c) R' := by
  cases c with
  | malloc size =>
    rcases heapMalloc_cases ha.shown ha.placed size.toNat with ⟨he, -⟩ | ⟨s, hv, hsize, -, -, he⟩
    · have hs : r.step (.malloc size) = r := by simp only [HeapRun.step, he]
      rw [hs]
      exact ⟨R, ha⟩
    · have hr : r.step (.malloc size) = ⟨heapMarkBlocksTaken r.heap s (blocksFor size.toNat),
          (r.heap.saddr + s * blockSize, size.toNat) :: r.live⟩ := by
        simp only [HeapRun.step, he]
      rw [hr]
      exact ⟨_, ha.malloc hv hsize⟩
  | free ptr =>
    rcases heapFree_cases ha.shown ha.placed ptr.toNat with ⟨s, hs, hp, he⟩ | ⟨hno, he⟩
    · have hr : r.step (.free ptr) = ⟨heapMarkBlocksFree r.heap s,
          r.live.filter fun a => a.1 ≠ r.heap.saddr + s * blockSize⟩ := by
        rw [← hp, ← he]; rfl
      rw [hr]
      exact ⟨_, ha.free hs⟩
    · have hr : r.step (.free ptr) = r := by
        simp only [HeapRun.step, he, ha.filter_other hno]
      rw [hr]
      exact ⟨R, ha⟩

theorem Agrees.run {R : Runs total} (ha : Agrees r R) (calls : List HeapCall) :
    ∃ R' : Runs total, Agrees (r.run calls) R' := by
  induction calls generalizing r R with
  | nil => exact ⟨R, ha⟩
  | cons c calls ih =>
    obtain ⟨R', ha'⟩ := ha.step c
    exact ih ha'

/-- Freeing a list of pointers that contains every live one empties the table. -/
theorem Agrees.free_all (ptrs : List Nat) :
    ∀ {r : HeapRun} {R : Runs total}, Agrees r R → (∀ a ∈ r.live, a.1 ∈ ptrs) →
      ∀ i, i < total → (ptrs.foldl heapFree r.heap).table.entries i = entryFree := by
  induction ptrs with
  | nil =>
    intro r R ha hall i hi
    have hempty : ¬ R.Covered i := by
      rintro ⟨s, hs⟩
      obtain ⟨n, hn⟩ := ha.listed s hs.len_ne
      exact absurd (hall _ hn) List.not_mem_nil
    exact ha.shown.free i hi hempty
  | cons ptr ptrs ih =>
    intro r R ha hall i hi
    have hrest : ∀ a ∈ r.live, a.1 ≠ ptr → a.1 ∈ ptrs := by
      intro a hmem hne
      rcases List.mem_cons.mp (hall a hmem) with he | ht
      · exact absurd he hne
      · exact ht
    rw [List.foldl_cons]
    rcases heapFree_cases ha.shown ha.placed ptr with ⟨s, hs, hp, he⟩ | ⟨hno, he⟩
    · rw [he]
      refine ih (ha.free hs) ?_ i hi
      intro a hmem
      obtain ⟨hold, hne⟩ := List.mem_filter.mp hmem
      exact hrest a hold (by rw [hp]; exact of_decide_eq_true hne)
    · rw [he]
      refine ih ha ?_ i hi
      intro a hmem
      rw [← ha.filter_other hno] at hmem
      obtain ⟨hold, hne⟩ := List.mem_filter.mp hmem
      exact hrest a hold (of_decide_eq_true hne)

/-- What every caller of the heap may rely on in a state with ledger `r.live`. -/
structure HeapContract (r : HeapRun) : Prop where
  /-- The table is a sequence of free entries and well-formed runs, and the runs are
  the live allocations with `ceil(size / 4096)` blocks each. -/
  table : ∃ (total : Nat) (R : Runs total), Represents r.heap R ∧
    ∀ s n, 0 < n → (R.len s = n ↔
      ∃ size, (r.heap.saddr + s * blockSize, size) ∈ r.live ∧ 0 < size ∧ n = blocksFor size)
  disjoint : r.live.Pairwise fun a b =>
    a.1 + blocksFor a.2 * blockSize ≤ b.1 ∨ b.1 + blocksFor b.2 * blockSize ≤ a.1
  malloc_null : ∀ size : UInt32, (heapMalloc r.heap size.toNat).1 = none ↔
    size.toNat = 0 ∨ 2 ^ 32 - 4096 < size.toNat ∨ ∀ s, ¬ FreeRun r.heap s (blocksFor size.toNat)
  malloc_lowest : ∀ (size : UInt32) (ptr : Nat), (heapMalloc r.heap size.toNat).1 = some ptr →
    ∃ s, ptr = r.heap.saddr + s * blockSize ∧ FreeRun r.heap s (blocksFor size.toNat) ∧
      ∀ t, t < s → ¬ FreeRun r.heap t (blocksFor size.toNat)
  malloc_refused : ∀ size : UInt32, (heapMalloc r.heap size.toNat).1 = none →
    (heapMalloc r.heap size.toNat).2 = r.heap
  free_live : ∀ ptr size, (ptr, size) ∈ r.live → ∃ s, ptr = r.heap.saddr + s * blockSize ∧
    ∀ j, (heapFree r.heap ptr).table.entries j =
      if s ≤ j ∧ j < s + blocksFor size then entryFree else r.heap.table.entries j
  free_other : ∀ ptr : UInt32, (∀ size, (ptr.toNat, size) ∉ r.live) →
    heapFree r.heap ptr.toNat = r.heap
  free_all : ∀ ptrs : List Nat, (∀ a ∈ r.live, a.1 ∈ ptrs) →
    ∀ i, i < r.heap.table.total → (ptrs.foldl heapFree r.heap).table.entries i = entryFree

theorem Agrees.len_iff {R : Runs total} (ha : Agrees r R) {n : Nat} (hn : 0 < n) : R.len s = n ↔
      ∃ size, (r.heap.saddr + s * blockSize, size) ∈ r.live ∧ 0 < size ∧ n = blocksFor size := by
  constructor
  · intro hlen
    obtain ⟨size, hmem⟩ := ha.listed s (by omega)
    obtain ⟨t, hp, hl, hsz⟩ := ha.live _ _ hmem
    obtain rfl := address_inj hp
    exact ⟨size, hmem, hsz, by omega⟩
  · rintro ⟨size, hmem, -, rfl⟩
    obtain ⟨t, hp, hl, -⟩ := ha.live _ _ hmem
    obtain rfl := address_inj hp
    exact hl

theorem Agrees.disjoint {R : Runs total} (ha : Agrees r R) : r.live.Pairwise fun a b =>
      a.1 + blocksFor a.2 * blockSize ≤ b.1 ∨ b.1 + blocksFor b.2 * blockSize ≤ a.1 := by
  have hsingle := ha.single
  refine List.Pairwise.imp_of_mem ?_ hsingle
  rintro ⟨p, m⟩ ⟨q, n⟩ hp hq hne
  obtain ⟨s, rfl, hs, hm⟩ := ha.live p m hp
  obtain ⟨t, rfl, ht, hn⟩ := ha.live q n hq
  have h1 := blocksFor_pos hm
  have h2 := blocksFor_pos hn
  rcases Nat.lt_trichotomy s t with h | h | h
  · have h3 := R.apart s t h (by omega) (by omega)
    left
    simp only [blockSize, hs] at *
    omega
  · exact absurd (by rw [h]) hne
  · have h3 := R.apart t s h (by omega) (by omega)
    right
    simp only [blockSize, ht] at *
    omega

theorem Agrees.contract {R : Runs total} (ha : Agrees r R) : HeapContract r where
  table := ⟨total, R, ha.shown, fun _ _ hn => ha.len_iff hn⟩
  disjoint := ha.disjoint
  malloc_null := by
    intro size
    rcases heapMalloc_cases ha.shown ha.placed size.toNat with
      ⟨he, hwhy⟩ | ⟨s, hv, hsize, hbig, -, he⟩
    · rw [he]
      refine ⟨fun _ => ?_, fun _ => rfl⟩
      rcases hwhy with h | h | h
      · exact Or.inl h
      · exact Or.inr (Or.inl h)
      · by_cases hz : size.toNat = 0
        · exact Or.inl hz
        · have hn := blocksFor_pos (Nat.pos_of_ne_zero hz)
          exact Or.inr (Or.inr fun t ht => h t ((ha.shown.vacant_iff hn).mp ht))
    · rw [he]
      simp only [blockSize] at hbig
      constructor
      · intro h
        cases h
      · rintro (h | h | h)
        · omega
        · omega
        · exact absurd ((ha.shown.vacant_iff hv.1).mpr hv) (h s)
  malloc_lowest := by
    intro size ptr hptr
    rcases heapMalloc_cases ha.shown ha.placed size.toNat with ⟨he, -⟩ | ⟨s, hv, -, -, hlow, he⟩
    · rw [he] at hptr
      cases hptr
    · rw [he] at hptr
      obtain rfl := Option.some.inj hptr
      refine ⟨s, rfl, (ha.shown.vacant_iff hv.1).mpr hv, fun t ht hf => ?_⟩
      exact hlow t ht ((ha.shown.vacant_iff hv.1).mp hf)
  malloc_refused := by
    intro size hnone
    rcases heapMalloc_cases ha.shown ha.placed size.toNat with ⟨he, -⟩ | ⟨s, -, -, -, -, he⟩
    · rw [he]
    · rw [he] at hnone
      cases hnone
  free_live := by
    intro ptr size hmem
    obtain ⟨s, hp, hlen, hsize⟩ := ha.live ptr size hmem
    have hne : R.len s ≠ 0 := by have h1 := blocksFor_pos hsize; omega
    refine ⟨s, hp, fun j => ?_⟩
    rcases heapFree_cases ha.shown ha.placed ptr with ⟨t, ht, hpt, he⟩ | ⟨hno, -⟩
    · obtain rfl := address_inj (hpt.symm.trans hp)
      rw [he, heapMarkBlocksFree_entries ha.shown ht]
      simp only [Runs.Holds, hlen]
    · exact absurd hp (hno s hne)
  free_other := by
    intro ptr hno
    rcases heapFree_cases ha.shown ha.placed ptr.toNat with ⟨s, hs, hp, -⟩ | ⟨-, he⟩
    · obtain ⟨n, hn⟩ := ha.listed s hs
      exact absurd (hp ▸ hn) (hno n)
    · exact he
  free_all := fun ptrs hall i hi => Agrees.free_all ptrs ha hall i (ha.shown.total_eq ▸ hi)

/-- From `heap_create` on, every history of calls leaves the heap in a state that
keeps the whole contract. The pool is a region `[ptr, end)` of the address space. -/
theorem heap_history {ptr endPtr : Nat} {table : HeapTable} {h : Heap}
    (hc : heapCreate ptr endPtr table = .ok h) (hpos : 0 < ptr) (hle : ptr ≤ endPtr)
    (hend : endPtr < 2 ^ 32) (calls : List HeapCall) :
    HeapContract (HeapRun.run ⟨h, []⟩ calls) := by
  obtain ⟨R, ha⟩ := (agrees_create hc hpos hle hend).run calls
  exact ha.contract

/-- The pool of `kheap_init`: 100 MiB at 0x01000000. -/
def kernelHeapTable : HeapTable := ⟨fun _ => 0, 104857600 / 4096⟩

def kernelHeap : Heap :=
  ⟨⟨fun i => if i < kernelHeapTable.total then entryFree else 0, kernelHeapTable.total⟩, 0x01000000⟩

theorem kheapInit : heapCreate 0x01000000 (0x01000000 + 104857600) kernelHeapTable =
    .ok kernelHeap :=
  rfl

theorem heap_history_kernel :
    HeapContract (HeapRun.run ⟨kernelHeap, []⟩ [.malloc 5000, .free 0x01001000, .malloc 1]) :=
  heap_history kheapInit (by decide) (by decide) (by decide) _

end Rorthox.Memory
