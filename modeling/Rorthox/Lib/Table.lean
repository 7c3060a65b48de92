import Mathlib.Data.List.Perm.Basic
import Mathlib.Data.List.Nodup
import Mathlib.Data.List.Range
import Mathlib.Logic.Function.Basic

/-!
# Tables with free slots

A table is a function from slot numbers to what stands in the slot, or nothing. `live` lists
what stands in its first `n` slots; filling and emptying a slot add and remove one element.
-/

namespace Rorthox.Lib

variable {α β : Type}

def live (n : Nat) (f : Nat → Option α) : List α := (List.range n).filterMap f

theorem live_succ (n : Nat) (f : Nat → Option α) : live (n + 1) f = live n f ++ (f n).toList := by
  rw [live, List.range_succ, List.filterMap_append, live]
  cases h : f n <;> simp [h]

theorem mem_live {n : Nat} {f : Nat → Option α} {a : α} :
    a ∈ live n f ↔ ∃ i, i < n ∧ f i = some a := by
  simp [live, List.mem_filterMap]

theorem live_congr {n : Nat} {f g : Nat → Option α} (h : ∀ i, i < n → f i = g i) :
    live n f = live n g :=
  List.filterMap_congr fun i hi => h i (List.mem_range.mp hi)

theorem map_live (n : Nat) (f : Nat → Option α) (g : α → β) :
    (live n f).map g = live n fun i => (f i).map g := by
  rw [live, live, List.map_filterMap]

theorem live_length_le (n : Nat) (f : Nat → Option α) : (live n f).length ≤ n :=
  (List.length_filterMap_le f _).trans (List.length_range).le

/-- A full table has an element for every slot. -/
theorem live_length_full {n : Nat} {f : Nat → Option α} (h : ∀ i, i < n → f i ≠ none) :
    (live n f).length = n := by
  induction n with
  | zero => rfl
  | succ n ih =>
    obtain ⟨a, ha⟩ := Option.ne_none_iff_exists'.mp (h n (Nat.lt_succ_self n))
    rw [live_succ, ha, List.length_append, ih fun i hi => h i (Nat.lt_succ_of_lt hi)]
    rfl

theorem live_fill {n i : Nat} {f : Nat → Option α} {a : α} (hi : i < n)
    (h : f i = none) : (live n (Function.update f i (some a))).Perm (a :: live n f) := by
  induction n with
  | zero => exact absurd hi (Nat.not_lt_zero i)
  | succ n ih =>
    rw [live_succ, live_succ]
    by_cases hn : i = n
    · subst hn
      rw [Function.update_self, h, live_congr fun j hj =>
        Function.update_of_ne (Nat.ne_of_lt hj) _ _]
      simp
    · rw [Function.update_of_ne (Ne.symm hn)]
      exact (ih (by omega)).append_right _

theorem live_clear {n i : Nat} {f : Nat → Option α} {a : α} (hi : i < n) (h : f i = some a) :
    (live n f).Perm (a :: live n (Function.update f i none)) := by
  induction n with
  | zero => exact absurd hi (Nat.not_lt_zero i)
  | succ n ih =>
    rw [live_succ, live_succ]
    by_cases hn : i = n
    · subst hn
      rw [Function.update_self, h,
        live_congr (f := Function.update f i none) fun j hj =>
          Function.update_of_ne (Nat.ne_of_lt hj) _ _]
      simp
    · rw [Function.update_of_ne (Ne.symm hn)]
      exact (ih (by omega)).append_right _

/-- Where nothing is listed twice, the slot of an element is the only one. -/
theorem live_slot {n i j : Nat} {f : Nat → Option α} (g : α → β) {a b : α}
    (hnodup : ((live n f).map g).Nodup) (hi : i < n) (hj : j < n) (ha : f i = some a)
    (hb : f j = some b) (he : g a = g b) : i = j := by
  by_contra hne
  have hclear := (live_clear hi ha).map g
  have hb' : b ∈ live n (Function.update f i none) :=
    mem_live.mpr ⟨j, hj, by rw [Function.update_of_ne (Ne.symm hne)]; exact hb⟩
  have hcons : (g a :: (live n (Function.update f i none)).map g).Nodup := by
    simpa using hclear.nodup_iff.mp hnodup
  exact (List.nodup_cons.mp hcons).1 (he ▸ List.mem_map_of_mem hb')

end Rorthox.Lib
