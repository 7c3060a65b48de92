import Mathlib

/-!
# Going round a list

A list of different elements taken as a ring: `ring l c` starts behind `c`, wraps from
the end of the list to its start and ends with `c` itself. The rules say how the ring
turns when another element becomes the current one and when the current one leaves.
-/

namespace Rorthox.Lib

variable {α : Type} [DecidableEq α]

/-- The elements of `l` in cyclic order from the one behind `c` on, `c` last. -/
def ring (l : List α) (c : α) : List α :=
  (l.dropWhile fun x => x ≠ c).tail ++ (l.takeWhile fun x => x ≠ c) ++ [c]

theorem ring_split {a b : List α} {c : α} (h : c ∉ a) : ring (a ++ c :: b) c = b ++ a ++ [c] := by
  have hall : ∀ x ∈ a, decide (x ≠ c) = true := fun x hx =>
    decide_eq_true fun he => h (he ▸ hx)
  unfold ring
  rw [List.dropWhile_append_of_pos hall, List.takeWhile_append_of_pos hall,
    List.dropWhile_cons_of_neg (by simp), List.takeWhile_cons_of_neg (by simp), List.append_nil]
  rfl

omit [DecidableEq α] in
/-- A list of different elements around one of them. -/
theorem exists_split {l : List α} {c : α} (hn : l.Nodup) (hc : c ∈ l) :
    ∃ a b, l = a ++ c :: b ∧ c ∉ a ∧ c ∉ b := by
  obtain ⟨a, b, rfl⟩ := List.append_of_mem hc
  have h := List.nodup_middle.mp hn
  obtain ⟨h1, -⟩ := List.nodup_cons.mp h
  rw [List.mem_append, not_or] at h1
  exact ⟨a, b, rfl, h1.1, h1.2⟩

/-- There is only one way to split a list at the first `d`. -/
theorem split_unique {x y x' y' : List α} {d : α} (h : x ++ d :: y = x' ++ d :: y') (hx : d ∉ x)
    (hx' : d ∉ x') : x = x' ∧ y = y' := by
  have htake : ∀ {u w : List α}, d ∉ u → (u ++ d :: w).takeWhile (fun z => z ≠ d) = u := by
    intro u w hu
    have hall : ∀ z ∈ u, decide (z ≠ d) = true := fun z hz =>
      decide_eq_true fun he => hu (he ▸ hz)
    rw [List.takeWhile_append_of_pos hall,
      List.takeWhile_cons_of_neg (by simp), List.append_nil]
  have hxx : x = x' := by rw [← htake (w := y) hx, h, htake hx']
  subst hxx
  exact ⟨rfl, (List.cons.inj (List.append_cancel_left h)).2⟩

theorem ring_perm {l : List α} {c : α} (hn : l.Nodup) (hc : c ∈ l) : (ring l c).Perm l := by
  obtain ⟨a, b, rfl, ha, -⟩ := exists_split hn hc
  rw [ring_split ha, List.append_assoc]
  refine List.perm_append_comm.trans ?_
  rw [List.append_assoc]
  rfl

theorem mem_ring {l : List α} {c : α} (hn : l.Nodup) (hc : c ∈ l) {x : α} : x ∈ ring l c ↔ x ∈ l :=
  (ring_perm hn hc).mem_iff

theorem ring_nodup {l : List α} {c : α} (hn : l.Nodup) (hc : c ∈ l) : (ring l c).Nodup :=
  (ring_perm hn hc).nodup_iff.mpr hn

/-- The ring behind a later element: what comes after it, then what was passed. -/
theorem ring_turn {l : List α} {c d : α} (hn : l.Nodup) (hc : c ∈ l) {x y : List α}
    (h : ring l c = x ++ d :: y) : ring l d = y ++ x ++ [d] := by
  have hx : d ∉ x := by
    have h1 := ring_nodup hn hc
    rw [h] at h1
    exact fun hm => (List.nodup_cons.mp (List.nodup_middle.mp h1)).1 (List.mem_append_left _ hm)
  have hd : d ∈ l := (mem_ring hn hc).mp (h ▸ List.mem_append_right _ List.mem_cons_self)
  obtain ⟨a, b, rfl, ha, hb⟩ := exists_split hn hc
  rw [ring_split ha] at h
  have hnot : ∀ {u w z : List α}, (u ++ d :: w ++ z).Nodup → d ∉ u := by
    intro u w z hnd hm
    rw [List.append_assoc, List.cons_append] at hnd
    exact (List.nodup_cons.mp (List.nodup_middle.mp hnd)).1 (List.mem_append_left _ hm)
  rcases List.mem_append.mp hd with hda | hdb
  · -- `d` stands before `c` in the list
    obtain ⟨a1, a2, rfl⟩ := List.append_of_mem hda
    have h1 : d ∉ a1 := hnot (w := a2) (z := c :: b) hn
    have hb1 : d ∉ b ++ a1 := by
      intro hm
      rcases List.mem_append.mp hm with hm | hm
      · have h2 := (List.nodup_append.mp hn).2.2 d hda d (List.mem_cons_of_mem _ hm)
        exact h2 rfl
      · exact h1 hm
    obtain ⟨rfl, rfl⟩ := split_unique (x := b ++ a1) (y := a2 ++ [c]) (by
      rw [← h]
      simp only [List.append_assoc, List.cons_append]) hb1 hx
    rw [List.append_assoc, List.cons_append, ring_split h1]
    simp only [List.append_assoc, List.cons_append, List.nil_append]
  · rcases List.mem_cons.mp hdb with rfl | hdb
    · have hba : d ∉ b ++ a := fun hm => (List.mem_append.mp hm).elim hb ha
      obtain ⟨rfl, rfl⟩ := split_unique (x := b ++ a) (y := []) h hba hx
      rw [ring_split ha, List.nil_append]
    · -- `d` stands behind `c`
      obtain ⟨b1, b2, rfl⟩ := List.append_of_mem hdb
      have hac : d ∉ a ++ c :: b1 := by
        refine hnot (w := b2) (z := []) ?_
        rw [List.append_nil, List.append_assoc, List.cons_append]
        exact hn
      have h1 : d ∉ b1 := fun hm => hac (List.mem_append_right _ (List.mem_cons_of_mem _ hm))
      obtain ⟨rfl, rfl⟩ := split_unique (x := b1) (y := b2 ++ a ++ [c]) (by
        rw [← h]
        simp only [List.append_assoc, List.cons_append]) h1 hx
      rw [show a ++ c :: (b1 ++ d :: b2) = a ++ c :: b1 ++ d :: b2 by
        simp only [List.append_assoc, List.cons_append], ring_split hac]
      simp only [List.append_assoc, List.cons_append, List.nil_append]

/-- The current element leaves and the one behind it takes its place. -/
theorem ring_erase {l : List α} {c s : α} (hn : l.Nodup) (hc : c ∈ l) {r : List α}
    (h : ring l c = s :: r ++ [c]) : ring (l.erase c) s = r ++ [s] := by
  obtain ⟨a, b, rfl, ha, hb⟩ := exists_split hn hc
  rw [ring_split ha] at h
  have h1 : b ++ a = s :: r := List.append_cancel_right h
  rw [List.erase_append_right _ ha, List.erase_cons_head]
  have hsplit : (b ++ a).Nodup := by
    have h2 := (List.nodup_cons.mp (List.nodup_middle.mp hn)).2
    exact (List.perm_append_comm.nodup_iff).mp h2
  cases b with
  | nil =>
    obtain rfl : a = s :: r := h1
    rw [List.append_nil]
    have h2 := ring_split (a := []) (b := r) (c := s) List.not_mem_nil
    rwa [List.append_nil] at h2
  | cons t b =>
    rw [List.cons_append] at h1 hsplit
    obtain ⟨rfl, rfl⟩ := List.cons.inj h1
    refine ring_split fun hm => ?_
    exact (List.nodup_cons.mp hsplit).1 (List.mem_append_right _ hm)

end Rorthox.Lib
