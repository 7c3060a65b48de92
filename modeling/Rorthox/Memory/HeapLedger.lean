import Rorthox.Memory.Heap

/-!
# What the heap table says

The table is read back as a collection of disjoint runs. Every loop of the heap
gets one lemma in terms of entries, and `heap_malloc` and `heap_free` then add
and remove exactly one run.
-/

namespace Rorthox.Memory

open Lib

/-- The entry of a taken block: first of its run or not, followed or not. -/
def runEntry (first next : Bool) : UInt8 :=
  entryTaken ||| (if first then blockIsFirst else 0) ||| (if next then blockHasNext else 0)

theorem runEntry_type (first next : Bool) : heapGetEntryType (runEntry first next) =
    entryTaken := by
  cases first <;> cases next <;> decide

theorem runEntry_first (first next : Bool) : runEntry first next &&& blockIsFirst = 0 ↔
    first = false := by
  cases first <;> cases next <;> decide

theorem runEntry_next (first next : Bool) : runEntry first next &&& blockHasNext = 0 ↔
    next = false := by
  cases first <;> cases next <;> decide

/-- The table shows exactly the runs of `R`: a block outside every run is FREE, and
a block inside one carries IS_FIRST at the start and HAS_NEXT before the last. -/
structure Represents {total : Nat} (h : Heap) (R : Runs total) : Prop where
  total_eq : h.table.total = total
  free : ∀ i, i < total → ¬ R.Covered i → h.table.entries i = entryFree
  taken : ∀ s i, R.Holds s i →
    h.table.entries i = runEntry (i == s) (decide (i + 1 < s + R.len s))

variable {n s total : Nat} {h : Heap}

theorem Represents.type_free_iff {R : Runs total} (hr : Represents h R) {i : Nat} (hi : i < total) :
    heapGetEntryType (h.table.entries i) = entryFree ↔ ¬ R.Covered i := by
  constructor
  · rintro ht ⟨s, hs⟩
    rw [hr.taken s i hs, runEntry_type] at ht
    exact absurd ht (by decide)
  · intro hc
    rw [hr.free i hi hc]
    decide

/-! ## First fit -/

/-- `[s, s + n)` is free in the table and inside it. -/
def FreeRun (h : Heap) (s n : Nat) : Prop :=
  s + n ≤ h.table.total ∧
    ∀ i, s ≤ i → i < s + n → heapGetEntryType (h.table.entries i) = entryFree

/-- The scan keeps: the last `bc` entries are free and start at `bs`, fewer than
wanted, and no wanted run starts before them. -/
structure ScanInv (entries : Nat → UInt8) (n total i bc : Nat) (bs : Option Nat) : Prop where
  short : bc < n
  start : ∀ s, bs = some s → s + bc = i ∧ 0 < bc
  none : bs = none → bc = 0
  free : ∀ j, i - bc ≤ j → j < i → heapGetEntryType (entries j) = entryFree
  below : bc ≤ i
  before : ∀ s, s < i - bc → ∃ j, s ≤ j ∧ j < s + n ∧ j < i ∧ heapGetEntryType (entries j) ≠
    entryFree

theorem startBlockLoop_spec (entries : Nat → UInt8) (n total : Nat) :
    ∀ (rem i bc : Nat) (bs : Option Nat), i + rem = total → ScanInv entries n total i bc bs →
      (∃ s, startBlockLoop entries n rem i bc bs = (n, some s) ∧ s + n ≤ total ∧
          (∀ j, s ≤ j → j < s + n → heapGetEntryType (entries j) = entryFree) ∧
          ∀ t, t < s → ∃ j, t ≤ j ∧ j < t + n ∧ heapGetEntryType (entries j) ≠ entryFree) ∨
      ((startBlockLoop entries n rem i bc bs).1 ≠ n ∧
          ∀ t, t + n ≤ total → ∃ j, t ≤ j ∧ j < t + n ∧ heapGetEntryType (entries j) ≠
            entryFree) := by
  intro rem
  induction rem with
  | zero =>
    intro i bc bs hi inv
    refine Or.inr ⟨Nat.ne_of_lt inv.short, fun t ht => ?_⟩
    have hs := inv.short
    obtain ⟨j, h1, h2, -, h4⟩ := inv.before t (by omega)
    exact ⟨j, h1, h2, h4⟩
  | succ rem ih =>
    intro i bc bs hi inv
    have hshort := inv.short
    have hbelow := inv.below
    by_cases ht : heapGetEntryType (entries i) = entryFree
    · have hstart : i - bc = bs.getD i := by
        cases hb : bs with
        | none => simp [inv.none hb]
        | some s => have h := (inv.start s hb).1; simp; omega
      by_cases hn : bc + 1 = n
      · refine Or.inl ⟨bs.getD i, ?_, by omega, fun j h1 h2 => ?_, fun t h => ?_⟩
        · simp [startBlockLoop, ht, hn]
        · by_cases hj : j = i
          · exact hj ▸ ht
          · exact inv.free j (by omega) (by omega)
        · obtain ⟨j, h1, h2, -, h4⟩ := inv.before t (by omega)
          exact ⟨j, h1, h2, h4⟩
      · have hstep : startBlockLoop entries n (rem + 1) i bc bs =
            startBlockLoop entries n rem (i + 1) (bc + 1) (some (bs.getD i)) := by
          simp [startBlockLoop, ht, hn]
        rw [hstep]
        refine ih (i + 1) (bc + 1) _ (by omega) ⟨by omega, ?_, by simp, ?_, by omega, ?_⟩
        · intro s hs
          obtain rfl := Option.some.inj hs
          omega
        · intro j h1 h2
          by_cases hj : j = i
          · exact hj ▸ ht
          · exact inv.free j (by omega) (by omega)
        · intro s h
          obtain ⟨j, h1, h2, h3, h4⟩ := inv.before s (by omega)
          exact ⟨j, h1, h2, by omega, h4⟩
    · have hstep : startBlockLoop entries n (rem + 1) i bc bs =
          startBlockLoop entries n rem (i + 1) 0 none := by
        simp [startBlockLoop, ht]
      rw [hstep]
      refine ih (i + 1) 0 none (by omega) ⟨by omega, by simp, by simp, by omega, by omega, ?_⟩
      -- a wanted run that starts at or before the taken entry would contain it
      intro s h
      by_cases hs : i < s + n
      · exact ⟨i, by omega, hs, by omega, ht⟩
      · obtain ⟨j, h1, h2, h3, h4⟩ := inv.before s (by omega)
        exact ⟨j, h1, h2, by omega, h4⟩

theorem scanInv_init (entries : Nat → UInt8) (total : Nat) (hn : 0 < n) :
    ScanInv entries n total 0 0 none :=
  ⟨hn, by simp, by simp, by omega, by omega, by omega⟩

/-- The scan finds the lowest free run of the wanted length, or there is none. -/
theorem heapGetStartBlock_spec (h : Heap) (hn : 0 < n) :
    (∃ s, heapGetStartBlock h n = .ok s ∧ FreeRun h s n ∧ ∀ t, t < s → ¬ FreeRun h t n) ∨
    (heapGetStartBlock h n = .error .enomem ∧ ∀ t, ¬ FreeRun h t n) := by
  rcases startBlockLoop_spec h.table.entries n h.table.total h.table.total 0 0 none (by omega)
    (scanInv_init _ _ hn) with ⟨s, he, hle, hfree, hlow⟩ | ⟨hne, hno⟩
  · refine Or.inl ⟨s, by simp [heapGetStartBlock, he]; rfl, ⟨hle, hfree⟩, ?_⟩
    rintro t ht ⟨-, hf⟩
    obtain ⟨j, h1, h2, h3⟩ := hlow t ht
    exact h3 (hf j h1 h2)
  · refine Or.inr ⟨?_, ?_⟩
    · unfold heapGetStartBlock
      split
      · rename_i bc bs he
        rw [he] at hne
        rw [if_pos hne]; rfl
      · rfl
    · rintro t ⟨hle, hf⟩
      obtain ⟨j, h1, h2, h3⟩ := hno t hle
      exact h3 (hf j h1 h2)

/-! ## Marking -/

/-- The loop writes the pending entry first, then inner entries up to the last. -/
theorem markTakenLoop_apply (n : Nat) :
    ∀ (i : Nat) (entry : UInt8) (entries : Nat → UInt8) (j : Nat),
      markTakenLoop ((i : Int) + n - 1) n i entry entries j =
        if j = i ∧ 0 < n then entry
        else if i < j ∧ j < i + n then runEntry false (decide (j + 1 < i + n))
        else entries j := by
  induction n with
  | zero =>
    intro i entry entries j
    have h : ¬ (i < j ∧ j < i + 0) := by omega
    simp only [markTakenLoop, Nat.lt_irrefl, and_false, if_false, if_neg h]
  | succ n ih =>
    intro i entry entries j
    have he : ((i : Int) + (n + 1 : Nat) - 1) = ((i + 1 : Nat) : Int) + n - 1 := by push_cast; omega
    rw [markTakenLoop, he, ih]
    by_cases hj : j = i
    · subst hj
      rw [if_neg (by omega), if_neg (by omega), if_pos ⟨rfl, by omega⟩, Function.update_self]
    · by_cases hj1 : j = i + 1
      · subst hj1
        by_cases hn : 0 < n
        · have h1 : (i : Int) ≠ ((i + 1 : Nat) : Int) + n - 1 - 1 ↔ i + 1 + 1 < i + (n + 1) := by
            push_cast; omega
          have h2 : ¬ (i + 1 = i ∧ 0 < n + 1) := by omega
          have h3 : i < i + 1 ∧ i + 1 < i + (n + 1) := by omega
          rw [if_pos ⟨rfl, hn⟩, if_neg h2, if_pos h3]
          by_cases hl : i + 1 + 1 < i + (n + 1)
          · rw [if_pos (h1.mpr hl), decide_eq_true hl]; rfl
          · rw [if_neg (fun h => hl (h1.mp h)), decide_eq_false hl]; rfl
        · rw [if_neg (by omega), if_neg (by omega), if_neg (by omega), if_neg (by omega),
            Function.update_of_ne hj]
      · have h1 : (i + 1 < j ∧ j < i + (n + 1)) = (i < j ∧ j < i + (n + 1)) := by
          rw [eq_iff_iff]; omega
        have h2 : i + 1 + n = i + (n + 1) := by omega
        have h3 : ¬ (j = i + 1 ∧ 0 < n) := by omega
        have h4 : ¬ (j = i ∧ 0 < n + 1) := by omega
        rw [if_neg h3, if_neg h4, Function.update_of_ne hj]
        simp only [h2, h1]

theorem heapMarkBlocksTaken_entries (h : Heap) (hn : 0 < n) (j : Nat) :
    (heapMarkBlocksTaken h s n).table.entries j =
      if s ≤ j ∧ j < s + n then runEntry (j == s) (decide (j + 1 < s + n))
      else h.table.entries j := by
  unfold heapMarkBlocksTaken
  simp only
  rw [markTakenLoop_apply]
  by_cases hj : j = s
  · subst hj
    have h1 : j ≤ j ∧ j < j + n := ⟨le_rfl, by omega⟩
    simp only [hn, and_self, if_true, h1, beq_self_eq_true]
    by_cases hm : n > 1
    · have h2 : j + 1 < j + n := by omega
      simp only [hm, h2, if_true, decide_true]
      decide
    · have h2 : ¬ (j + 1 < j + n) := by omega
      simp only [hm, h2, if_false, decide_false]
      decide
  · have h1 : (s < j ∧ j < s + n) ↔ (s ≤ j ∧ j < s + n) := by omega
    have h2 : (j == s) = false := by simpa using hj
    simp only [hj, false_and, if_false, h1, h2]

/-- The freeing loop clears one run: it stops at the first entry without HAS_NEXT. -/
theorem markFreeLoop_apply (m : Nat) :
    ∀ (rem i : Nat) (entries : Nat → UInt8), 0 < m → m ≤ rem →
      (∀ j, i ≤ j → j < i + m → (entries j &&& blockHasNext = 0 ↔ ¬ (j + 1 < i + m))) →
      ∀ j, markFreeLoop rem i entries j =
        if i ≤ j ∧ j < i + m then entryFree else entries j := by
  induction m with
  | zero => intro rem i entries h; omega
  | succ m ih =>
    intro rem i entries _ hrem hnext j
    obtain ⟨rem, rfl⟩ : ∃ r, rem = r + 1 := ⟨rem - 1, by omega⟩
    have hi := hnext i le_rfl (by omega)
    rw [markFreeLoop]
    by_cases hm : m = 0
    · subst hm
      rw [if_pos (hi.mpr (by omega)), Function.update_apply]
      have h1 : j = i ↔ (i ≤ j ∧ j < i + (0 + 1)) := by omega
      simp only [h1]
    · have hlast : ¬ (entries i &&& blockHasNext = 0) := by rw [hi]; omega
      rw [if_neg hlast, ih rem (i + 1) _ (by omega) (by omega) _ j]
      · rw [Function.update_apply]
        by_cases hj : j = i
        · subst hj
          simp
        · have h1 : (i + 1 ≤ j ∧ j < i + 1 + m) ↔ (i ≤ j ∧ j < i + (m + 1)) := by omega
          simp only [h1, hj, if_false]
      · intro k h1 h2
        rw [Function.update_of_ne (by omega), hnext k (by omega) (by omega)]
        omega

/-! ## One call -/

/-- Address of a block of a pool that does not wrap. -/
structure Placed (h : Heap) : Prop where
  aligned : h.saddr % blockSize = 0
  positive : 0 < h.saddr
  fits : h.saddr + h.table.total * blockSize ≤ 2 ^ 32

theorem Placed.address (hp : Placed h) (hs : s < h.table.total) :
    heapBlockToAddress h s = h.saddr + s * blockSize := by
  have hf := hp.fits
  have hm := Nat.mul_le_mul_right blockSize (Nat.succ_le_of_lt hs)
  unfold heapBlockToAddress
  simp only [blockSize] at *
  apply Nat.mod_eq_of_lt
  omega

/-- Blocks a request needs: `ceil(size / 4096)`. -/
def blocksFor (size : Nat) : Nat := (size + (blockSize - 1)) / blockSize

theorem align_div {size : Nat} (h : size ≤ 2 ^ 32 - blockSize) :
    heapAlignValueToUpper size / blockSize = blocksFor size := by
  unfold heapAlignValueToUpper blocksFor blockSize at *
  split <;> simp_all <;> omega

theorem blocksFor_pos {size : Nat} (h : 0 < size) : 0 < blocksFor size := by
  unfold blocksFor blockSize
  omega

theorem Represents.vacant_iff {R : Runs total} (hr : Represents h R) (hn : 0 < n) :
    FreeRun h s n ↔ R.Vacant s n := by
  have ht := hr.total_eq
  constructor
  · rintro ⟨hle, hf⟩
    exact ⟨hn, by omega, fun i h1 h2 => (hr.type_free_iff (by omega)).mp (hf i h1 h2)⟩
  · rintro ⟨-, hle, hf⟩
    exact ⟨by omega, fun i h1 h2 => (hr.type_free_iff (by omega)).mpr (hf i h1 h2)⟩

theorem represents_taken {R : Runs total} (hr : Represents h R) (hv : R.Vacant s n) :
    Represents (heapMarkBlocksTaken h s n) (R.insert s n hv) := by
  refine ⟨hr.total_eq, ?_, ?_⟩
  · intro i hi hc
    have hout := not_or.mp (mt (R.insert_covered hv i).mpr hc)
    rw [heapMarkBlocksTaken_entries h hv.1, if_neg hout.1]
    exact hr.free i hi hout.2
  · intro t i ht
    rw [heapMarkBlocksTaken_entries h hv.1, Runs.insert_len]
    rcases (R.insert_holds hv t i).mp ht with ⟨rfl, hi⟩ | ⟨hne, hi⟩
    · rw [if_pos hi, if_pos rfl]
    · have hout : ¬ (s ≤ i ∧ i < s + n) := fun h => hv.2.2 i h.1 h.2 hi.covered
      rw [if_neg hout, if_neg hne]
      exact hr.taken t i hi

theorem heapMarkBlocksFree_entries {R : Runs total} (hr : Represents h R) (hs : R.len s ≠ 0)
    (j : Nat) : (heapMarkBlocksFree h s).table.entries j =
      if R.Holds s j then entryFree else h.table.entries j := by
  have hin := R.inside s hs
  have htot := hr.total_eq
  have hnext : ∀ k, s ≤ k → k < s + R.len s →
      (h.table.entries k &&& blockHasNext = 0 ↔ ¬ (k + 1 < s + R.len s)) := by
    intro k h1 h2
    rw [hr.taken s k ⟨h1, h2⟩, runEntry_next, decide_eq_false_iff_not]
  exact markFreeLoop_apply (R.len s) _ s h.table.entries (by omega) (by omega) hnext j

theorem represents_freed {R : Runs total} (hr : Represents h R) (hs : R.len s ≠ 0) :
    Represents (heapMarkBlocksFree h s) (R.erase s) := by
  refine ⟨hr.total_eq, ?_, ?_⟩
  · intro i hi hc
    rw [heapMarkBlocksFree_entries hr hs]
    split
    · rfl
    · rename_i hne
      exact hr.free i hi (fun hcov => hc ((R.erase_covered s i).mpr ⟨hcov, hne⟩))
  · intro t i ht
    obtain ⟨hne, hi⟩ := (R.erase_holds s t i).mp ht
    rw [heapMarkBlocksFree_entries hr hs, if_neg (fun h => hne (hi.unique h)), Runs.erase_len,
      if_neg hne]
    exact hr.taken t i hi

/-- What `heap_malloc` does: refuse and change nothing, or take the lowest vacant
run of the requested length. -/
theorem heapMalloc_cases {R : Runs total} (hr : Represents h R) (hp : Placed h) (size : Nat) :
    (heapMalloc h size = (none, h) ∧
      (size = 0 ∨ 2 ^ 32 - blockSize < size ∨ ∀ s, ¬ R.Vacant s (blocksFor size))) ∨
    (∃ s, R.Vacant s (blocksFor size) ∧ 0 < size ∧ size ≤ 2 ^ 32 - blockSize ∧
      (∀ t, t < s → ¬ R.Vacant t (blocksFor size)) ∧
      heapMalloc h size =
        (some (h.saddr + s * blockSize), heapMarkBlocksTaken h s (blocksFor size))) := by
  by_cases hbig : size > 2 ^ 32 - 1 - (blockSize - 1)
  · refine Or.inl ⟨by simp only [heapMalloc, if_pos hbig], Or.inr (Or.inl ?_)⟩
    simp only [blockSize] at *
    omega
  have hle : size ≤ 2 ^ 32 - blockSize := by simp only [blockSize] at *; omega
  by_cases hzero : size = 0
  · refine Or.inl ⟨?_, Or.inl hzero⟩
    subst hzero
    rfl
  have hn : 0 < blocksFor size := blocksFor_pos (by omega)
  have hm : heapMalloc h size = heapMallocBlocks h (blocksFor size) := by
    simp only [heapMalloc, if_neg hbig, align_div hle]
    rw [if_neg (by omega)]
  rcases heapGetStartBlock_spec h hn with ⟨s, he, hf, hlow⟩ | ⟨he, hno⟩
  · have hv := (hr.vacant_iff hn).mp hf
    refine Or.inr ⟨s, hv, by omega, hle, ?_, ?_⟩
    · intro t ht hvt
      exact hlow t ht ((hr.vacant_iff hn).mpr hvt)
    · have hs : s < h.table.total := by
        have h1 := hv.1
        have h2 := hv.2.1
        have h3 := hr.total_eq
        omega
      rw [hm]
      simp only [heapMallocBlocks, he, hp.address hs]
  · refine Or.inl ⟨?_, Or.inr (Or.inr fun s hv => hno s ((hr.vacant_iff hn).mpr hv))⟩
    rw [hm]
    simp only [heapMallocBlocks, he]

/-- What `heap_free` does: clear the run that starts at the pointer, or nothing. -/
theorem heapFree_cases {R : Runs total} (hr : Represents h R) (hp : Placed h) (ptr : Nat) :
    (∃ s, R.len s ≠ 0 ∧ ptr = h.saddr + s * blockSize ∧
      heapFree h ptr = heapMarkBlocksFree h s) ∨
    ((∀ s, R.len s ≠ 0 → ptr ≠ h.saddr + s * blockSize) ∧ heapFree h ptr = h) := by
  have hal := hp.aligned
  have hpos := hp.positive
  by_cases hrun : ∃ s, R.len s ≠ 0 ∧ ptr = h.saddr + s * blockSize
  · obtain ⟨s, hs, rfl⟩ := hrun
    refine Or.inl ⟨s, hs, rfl, ?_⟩
    have hin := R.inside s hs
    have htot := hr.total_eq
    have hstart := Runs.holds_start hs
    have hblock : (h.saddr + s * blockSize - h.saddr) / blockSize = s := by
      simp only [blockSize]; omega
    have halign : heapValidateAlignment (h.saddr + s * blockSize) = true := by
      simp only [heapValidateAlignment, beq_iff_eq, blockSize] at *
      omega
    have hentry := hr.taken s s hstart
    have htype : heapGetEntryType (h.table.entries s) = entryTaken := by
      rw [hentry, runEntry_type]
    have hfirst : ¬ (h.table.entries s &&& blockIsFirst = 0) := by
      rw [hentry, runEntry_first]; simp
    have hne : h.saddr + s * blockSize ≠ 0 := by omega
    unfold heapFree
    simp only [halign, hblock, hne, htype, hfirst]
    rw [if_neg (by simp), if_neg (by omega), if_neg (by omega), if_neg (by simp)]
  · refine Or.inr ⟨fun s hs he => hrun ⟨s, hs, he⟩, ?_⟩
    unfold heapFree
    split
    · rfl
    · rename_i h0
      simp only [Bool.or_eq_true, decide_eq_true_eq, Bool.not_eq_true', not_or,
        Bool.not_eq_false] at h0
      split
      · rfl
      · rename_i h1
        simp only
        split
        · rfl
        · rename_i h2
          split
          · rfl
          · rename_i h3
            exfalso
            set b := (ptr - h.saddr) / blockSize with hb
            have hptr : ptr = h.saddr + b * blockSize := by
              have h4 := h0.2
              simp only [heapValidateAlignment, beq_iff_eq, blockSize] at *
              omega
            simp only [Bool.or_eq_true, decide_eq_true_eq, not_or, not_not] at h3
            -- the entry is TAKEN and IS_FIRST, so a run starts at this block
            by_cases hc : R.Covered b
            · obtain ⟨s, hs⟩ := hc
              have he := hr.taken s b hs
              have hf := h3.2
              rw [he, runEntry_first] at hf
              have hbs : b = s := by simpa using hf
              exact hrun ⟨b, by rw [hbs]; exact hs.len_ne, hptr⟩
            · have htot := hr.total_eq
              have he := hr.free b (by omega) hc
              have ht := h3.1
              rw [he] at ht
              exact absurd ht (by decide)

end Rorthox.Memory
