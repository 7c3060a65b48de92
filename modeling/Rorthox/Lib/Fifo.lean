import Mathlib.Data.Int.ModEq
import Mathlib.Data.List.Basic
import Mathlib.Logic.Function.Basic
import Mathlib.Tactic.Common

/-!
# A queue in a ring of cells

A list lies in `cap` cells from cell `head % cap` on, wrapping at the end; every other
cell holds a mark that no element equals. The list is then empty exactly when the cell
at the head holds the mark.
-/

namespace Rorthox.Lib

variable {α : Type}

structure Queued (mark : α) (cap head : Nat) (cells : Nat → α) (l : List α) : Prop where
  fits : l.length ≤ cap
  used : ∀ i x, l[i]? = some x → cells ((head + i) % cap) = x
  free : ∀ i, l.length ≤ i → i < cap → cells ((head + i) % cap) = mark
  unmarked : mark ∉ l

/-- Fewer than `cap` steps apart the cells differ. -/
theorem ring_ne {cap i j : Nat} (head : Nat) (hij : i < j) (hj : j < i + cap) :
    (head + i) % cap ≠ (head + j) % cap := by
  intro h
  have hdvd : cap ∣ (head + j) - (head + i) := (Nat.modEq_iff_dvd' (by omega)).mp h
  have hle := Nat.le_of_dvd (by omega) hdvd
  omega

namespace Queued

variable {mark : α} {cap head : Nat} {cells : Nat → α} {l : List α}

theorem empty (mark : α) (cap head : Nat) {cells : Nat → α} (h : ∀ i, cells i = mark) :
    Queued mark cap head cells [] :=
  ⟨Nat.zero_le _, fun _ _ hx => (by cases hx), fun i _ _ => h _, List.not_mem_nil⟩

/-- Only the cell of the head counts. -/
theorem of_head {head' : Nat} (h : Queued mark cap head cells l) (hh : head' % cap = head % cap) :
    Queued mark cap head' cells l := by
  have hcell : ∀ i, (head' + i) % cap = (head + i) % cap := by
    intro i
    rw [Nat.add_mod, hh, ← Nat.add_mod]
  refine ⟨h.fits, fun i x hx => ?_, fun i h1 h2 => ?_, h.unmarked⟩
  · rw [hcell]
    exact h.used i x hx
  · rw [hcell]
    exact h.free i h1 h2

theorem push (h : Queued mark cap head cells l) (hroom : l.length < cap) {x : α} (hx : x ≠ mark) :
    Queued mark cap head (Function.update cells ((head + l.length) % cap) x) (l ++ [x]) := by
  constructor
  · rw [List.length_append, List.length_singleton]
    omega
  · intro i y hy
    rcases Nat.lt_or_ge i l.length with hi | hi
    · rw [List.getElem?_append_left hi] at hy
      rw [Function.update_of_ne (ring_ne head hi (by omega))]
      exact h.used i y hy
    · have hlt := (List.getElem?_eq_some_iff.mp hy).1
      rw [List.length_append, List.length_singleton] at hlt
      obtain rfl : i = l.length := by omega
      rw [List.getElem?_concat_length] at hy
      rw [Function.update_self]
      exact Option.some.inj hy
  · intro i h1 h2
    rw [List.length_append, List.length_singleton] at h1
    rw [Function.update_of_ne (ring_ne head (by omega) (by omega)).symm]
    exact h.free i (by omega) h2
  · intro hm
    rcases List.mem_append.mp hm with hm | hm
    · exact h.unmarked hm
    · exact hx (List.mem_singleton.mp hm).symm

theorem front {x : α} (h : Queued mark cap head cells (x :: l)) : cells (head % cap) = x :=
  h.used 0 x rfl

theorem pop {x : α} (h : Queued mark cap head cells (x :: l)) :
    Queued mark cap (head + 1) (Function.update cells (head % cap) mark) l := by
  have hfits := h.fits
  rw [List.length_cons] at hfits
  have hstep : ∀ i, (head + 1 + i) % cap = (head + (i + 1)) % cap := fun i => by
    rw [Nat.add_assoc, Nat.add_comm 1 i]
  have hfront : ∀ i, i + 1 < cap → (head + (i + 1)) % cap ≠ head % cap := fun i hi =>
    (ring_ne (i := 0) head (Nat.succ_pos i) (by omega)).symm
  constructor
  · omega
  · intro i y hy
    have hi := (List.getElem?_eq_some_iff.mp hy).1
    rw [hstep, Function.update_of_ne (hfront i (by omega))]
    exact h.used (i + 1) y hy
  · intro i h1 h2
    rw [hstep]
    rcases Nat.lt_or_ge (i + 1) cap with hlt | hge
    · rw [Function.update_of_ne (hfront i hlt)]
      exact h.free (i + 1) (by rw [List.length_cons]; omega) hlt
    · -- once round: the cell that was the front
      obtain rfl : cap = i + 1 := by omega
      rw [Nat.add_mod_right, Function.update_self]
  · exact fun hm => h.unmarked (List.mem_cons_of_mem _ hm)

theorem isEmpty (h : Queued mark cap head cells l) (hcap : 0 < cap) :
    cells (head % cap) = mark ↔ l = [] := by
  cases l with
  | nil => exact ⟨fun _ => rfl, fun _ => h.free 0 (Nat.zero_le _) hcap⟩
  | cons x l =>
    refine ⟨fun hm => absurd ?_ h.unmarked, fun hl => (by cases hl)⟩
    rw [← hm, h.front]
    exact List.mem_cons_self

end Queued

end Rorthox.Lib
