import Mathlib

/-!
# Disjoint runs in a bounded range

A finite collection of non-empty intervals of naturals below a bound, no two of
which meet. A run is stored under its first element with its length; length zero
means that no run starts there. The two bounds are fields, so an overlapping or
overhanging collection cannot be built.
-/

namespace Rorthox.Lib

/-- Pairwise disjoint non-empty intervals `[s, s + len s)` below `total`. -/
@[ext] structure Runs (total : Nat) where
  len : Nat → Nat
  inside : ∀ s, len s ≠ 0 → s + len s ≤ total
  apart : ∀ s t, s < t → len s ≠ 0 → len t ≠ 0 → s + len s ≤ t

namespace Runs

variable {total : Nat}

/-- Element `i` lies in the run that starts at `s`. -/
def Holds (R : Runs total) (s i : Nat) : Prop := s ≤ i ∧ i < s + R.len s

def Covered (R : Runs total) (i : Nat) : Prop := ∃ s, R.Holds s i

/-- A non-empty interval `[s, s + n)` below the bound that no run meets. -/
def Vacant (R : Runs total) (s n : Nat) : Prop :=
  0 < n ∧ s + n ≤ total ∧ ∀ i, s ≤ i → i < s + n → ¬ R.Covered i

instance (R : Runs total) (s i : Nat) : Decidable (R.Holds s i) :=
  inferInstanceAs (Decidable (_ ∧ _))

/-- A covered element lies below the bound, so only starts up to it matter. -/
theorem covered_iff (R : Runs total) (i : Nat) :
    R.Covered i ↔ ∃ s ∈ List.range (i + 1), R.Holds s i := by
  constructor
  · rintro ⟨s, h⟩
    exact ⟨s, List.mem_range.mpr (Nat.lt_succ_of_le h.1), h⟩
  · rintro ⟨s, -, h⟩
    exact ⟨s, h⟩

instance (R : Runs total) (i : Nat) : Decidable (R.Covered i) :=
  decidable_of_iff _ (R.covered_iff i).symm

variable {i n s : Nat}

theorem Holds.len_ne {R : Runs total} (h : R.Holds s i) : R.len s ≠ 0 := by
  have h1 := h.1
  have h2 := h.2
  omega

theorem Holds.lt_total {R : Runs total} (h : R.Holds s i) : i < total :=
  Nat.lt_of_lt_of_le h.2 (R.inside s h.len_ne)

/-- Two runs that share an element are the same run. -/
theorem Holds.unique {R : Runs total} {t : Nat} (hs : R.Holds s i) (ht : R.Holds t i) : s = t := by
  rcases Nat.lt_trichotomy s t with h | h | h
  · have ha := R.apart s t h hs.len_ne ht.len_ne
    have h1 := hs.2
    have h2 := ht.1
    omega
  · exact h
  · have ha := R.apart t s h ht.len_ne hs.len_ne
    have h1 := ht.2
    have h2 := hs.1
    omega

theorem holds_start {R : Runs total} (h : R.len s ≠ 0) : R.Holds s s :=
  ⟨le_rfl, by omega⟩

theorem Holds.covered {R : Runs total} (h : R.Holds s i) : R.Covered i := ⟨s, h⟩

/-- The collection without any run. -/
def empty (total : Nat) : Runs total where
  len := fun _ => 0
  inside := fun _ h => absurd rfl h
  apart := fun _ _ _ h => absurd rfl h

/-- Forget the run that starts at `s`, if there is one. -/
def erase (R : Runs total) (s : Nat) : Runs total where
  len := Function.update R.len s 0
  inside := by
    intro t h
    by_cases ht : t = s
    · subst ht; simp at h
    · rw [Function.update_of_ne ht] at h ⊢
      exact R.inside t h
  apart := by
    intro t u htu h1 h2
    by_cases ht : t = s
    · subst ht; simp at h1
    · by_cases hu : u = s
      · subst hu; simp at h2
      · rw [Function.update_of_ne ht] at h1 ⊢
        rw [Function.update_of_ne hu] at h2
        exact R.apart t u htu h1 h2

@[simp] theorem erase_len (R : Runs total) (s t : Nat) :
    (R.erase s).len t = if t = s then 0 else R.len t := by
  simp [erase, Function.update_apply]

theorem Vacant.start_lt {R : Runs total} (h : R.Vacant s n) : s < s + n :=
  Nat.lt_add_of_pos_right h.1

theorem Vacant.no_run {R : Runs total} {t : Nat} (h : R.Vacant s n) (h1 : s ≤ t) (h2 : t < s + n) :
    R.len t = 0 := by
  by_contra hne
  exact h.2.2 t h1 h2 (holds_start hne).covered

/-- Add the run `[s, s + n)` where nothing stands in its way. -/
def insert (R : Runs total) (s n : Nat) (h : R.Vacant s n) : Runs total where
  len := Function.update R.len s n
  inside := by
    intro t ht
    by_cases he : t = s
    · subst he; simpa using h.2.1
    · rw [Function.update_of_ne he] at ht ⊢
      exact R.inside t ht
  apart := by
    intro t u htu h1 h2
    by_cases ht : t = s
    · have hu : u ≠ s := by omega
      subst ht
      rw [Function.update_self] at h1 ⊢
      rw [Function.update_of_ne hu] at h2
      by_contra hlt
      exact h2 (h.no_run (by omega) (by omega))
    · rw [Function.update_of_ne ht] at h1 ⊢
      by_cases hu : u = s
      · subst hu
        rw [Function.update_self] at h2
        by_contra hlt
        exact h.2.2 u le_rfl h.start_lt ⟨t, by omega, by omega⟩
      · rw [Function.update_of_ne hu] at h2
        exact R.apart t u htu h1 h2

@[simp] theorem insert_len (R : Runs total) (s n t : Nat) (h : R.Vacant s n) :
    (R.insert s n h).len t = if t = s then n else R.len t := by
  simp [insert, Function.update_apply]

theorem insert_holds (R : Runs total) (h : R.Vacant s n) (t i : Nat) :
    (R.insert s n h).Holds t i ↔ (t = s ∧ s ≤ i ∧ i < s + n) ∨ (t ≠ s ∧ R.Holds t i) := by
  unfold Holds
  by_cases ht : t = s
  · subst ht; simp
  · simp [ht]

theorem insert_covered (R : Runs total) (h : R.Vacant s n) (i : Nat) :
    (R.insert s n h).Covered i ↔ (s ≤ i ∧ i < s + n) ∨ R.Covered i := by
  constructor
  · rintro ⟨t, ht⟩
    rcases (R.insert_holds h t i).mp ht with ⟨-, hi⟩ | ⟨-, hi⟩
    · exact Or.inl hi
    · exact Or.inr ⟨t, hi⟩
  · rintro (hi | ⟨t, ht⟩)
    · exact ⟨s, (R.insert_holds h s i).mpr (Or.inl ⟨rfl, hi⟩)⟩
    · by_cases he : t = s
      · subst he
        exact absurd (h.no_run le_rfl h.start_lt) ht.len_ne
      · exact ⟨t, (R.insert_holds h t i).mpr (Or.inr ⟨he, ht⟩)⟩

theorem erase_holds (R : Runs total) (s t i : Nat) :
    (R.erase s).Holds t i ↔ t ≠ s ∧ R.Holds t i := by
  unfold Holds
  by_cases ht : t = s
  · subst ht; simp
  · simp [ht]

/-- Erasing a run uncovers its own elements and no others. -/
theorem erase_covered (R : Runs total) (s i : Nat) :
    (R.erase s).Covered i ↔ R.Covered i ∧ ¬ R.Holds s i := by
  constructor
  · rintro ⟨t, ht⟩
    obtain ⟨hne, hi⟩ := (R.erase_holds s t i).mp ht
    exact ⟨hi.covered, fun hs => hne (hi.unique hs)⟩
  · rintro ⟨⟨t, ht⟩, hs⟩
    have hne : t ≠ s := fun he => hs (he ▸ ht)
    exact ⟨t, (R.erase_holds s t i).mpr ⟨hne, ht⟩⟩

end Runs

end Rorthox.Lib
