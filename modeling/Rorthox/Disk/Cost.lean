import Rorthox.Disk.Stream

/-!
# Commands a program needs

A reading program that gets through sends a number of commands to the drive that its request
fixes. It goes through exactly when that many commands end well from now on, so two programs
can be compared by their counts although each single command may fail.
-/

namespace Rorthox.Disk

open Lib

/-- The next `n` commands end well. -/
def Device.Steady (d : Device) (n : Nat) : Prop := ∀ i, i < n → d.fates (d.calls + i) = .done

theorem Device.Steady.le {d : Device} {n k : Nat} (h : d.Steady n) (hk : k ≤ n) : d.Steady k :=
  fun i hi => h i (Nat.lt_of_lt_of_le hi hk)

theorem Device.steady_zero (d : Device) : d.Steady 0 := fun _ hi => absurd hi (Nat.not_lt_zero _)

theorem Device.steady_add {d : Device} {n k : Nat} : d.Steady (n + k) ↔ d.Steady n ∧
    (d.ticks n).Steady k := by
  constructor
  · intro h
    refine ⟨h.le (Nat.le_add_right n k), fun i hi => ?_⟩
    rw [Device.ticks, Nat.add_assoc]
    exact h (n + i) (by omega)
  · rintro ⟨h1, h2⟩ i hi
    by_cases hlt : i < n
    · exact h1 i hlt
    · obtain ⟨j, rfl⟩ := Nat.exists_eq_add_of_le (Nat.le_of_not_lt hlt)
      rw [← Nat.add_assoc]
      exact h2 j (by omega)

theorem Device.ticks_ticks (d : Device) (n k : Nat) : (d.ticks n).ticks k = d.ticks (n + k) := by
  simp only [Device.ticks, Nat.add_assoc]

/-! ## The rules -/

/-- With `n` good commands the program gives `a` and leaves `s'`; without, it fails. -/
structure Costs {σ α : Type} (dev : σ → Device) (m : Prog σ Errno α) (n : Nat) (s : σ) (a : α)
    (s' : σ) : Prop where
  ticks : dev s' = (dev s).ticks n
  steady : (dev s).Steady n → m s = (.ok a, s')
  broken : ¬ (dev s).Steady n → ∃ e t, m s = (.error e, t)

section Rules

variable {σ α β : Type} {dev : σ → Device} {m : Prog σ Errno α} {f : α → Prog σ Errno β} {n k : Nat}
  {s s' s'' : σ} {a : α} {b : β}

theorem costs_free (h : m s = (.ok a, s')) (hdev : dev s' = dev s) : Costs dev m 0 s a s' where
  ticks := hdev
  steady _ := h
  broken hbad := absurd (dev s).steady_zero hbad

theorem Costs.bind (h : Costs dev m n s a s') (hf : Costs dev (f a) k s' b s'') :
    Costs dev (m >>= f) (n + k) s b s'' where
  ticks := by rw [hf.ticks, h.ticks, Device.ticks_ticks]
  steady hs := by
    obtain ⟨h1, h2⟩ := Device.steady_add.mp hs
    rw [Prog.bind_ok (h.steady h1)]
    exact hf.steady (h.ticks ▸ h2)
  broken hs := by
    by_cases h1 : (dev s).Steady n
    · rw [Prog.bind_ok (h.steady h1)]
      exact hf.broken fun h2 => hs (Device.steady_add.mpr ⟨h1, h.ticks ▸ h2⟩)
    · obtain ⟨e, t, hm⟩ := h.broken h1
      exact ⟨e, t, Prog.bind_error hm⟩

/-- A step that needs no command. -/
theorem Costs.after (hf : Costs dev (f a) n s' b s'') (h : m s = (.ok a, s'))
    (hdev : dev s' = dev s) : Costs dev (m >>= f) n s b s'' :=
  Nat.zero_add n ▸ (costs_free h hdev).bind hf

theorem Costs.look {g : σ → α} (h : Costs dev (f (g s)) n s b s'') :
    Costs dev (Prog.look g >>= f) n s b s'' :=
  h.after (Prog.look_apply g s) rfl

theorem Costs.refuse {c : Prop} [Decidable c] {e : Errno} {f : Unit → Prog σ Errno β} (hc : ¬ c)
    (h : Costs dev (f ()) n s b s'') : Costs dev (Prog.refuse c e >>= f) n s b s'' := by
  rwa [Prog.refuse_of_not hc, pure_bind]

/-- A program that went through had its commands. -/
theorem Costs.of_ok (h : Costs dev m n s a s') {x : α} (hok : (m s).1 = .ok x) :
    (dev s).Steady n ∧ m s = (.ok a, s') := by
  by_cases hs : (dev s).Steady n
  · exact ⟨hs, h.steady hs⟩
  · obtain ⟨e, t, hm⟩ := h.broken hs
    rw [hm] at hok
    cases hok

end Rules

/-! ## The streamer -/

/-- The sectors that a range of bytes meets. -/
def sectorsOf (pos total : Nat) : Nat :=
  if total = 0 then 0 else (pos + total - 1) / sectorSize - pos / sectorSize + 1

theorem sectorsOf_step (pos total : Nat) : sectorsOf pos (total + 1) =
    1 + sectorsOf (pos + sectorPart pos (total + 1)) (total + 1 - sectorPart pos (total + 1)) := by
  have hcases := sectorPart_cases pos (total + 1)
  generalize sectorPart pos (total + 1) = part at hcases
  rw [sectorsOf, if_neg (Nat.succ_ne_zero total), sectorsOf]
  unfold sectorSize at *
  split_ifs <;> omega

/-- The count depends on the offset in the first sector only. -/
theorem sectorsOf_shift {p q : Nat} (h : p % sectorSize = q % sectorSize) (total : Nat) :
    sectorsOf p total = sectorsOf q total := by
  unfold sectorsOf
  unfold sectorSize at *
  split_ifs <;> omega

/-- A range that is cut at a sector. -/
theorem sectorsOf_cut {pos n : Nat} (h : (pos + n) % sectorSize = 0) (k : Nat) :
    sectorsOf pos n + sectorsOf (pos + n) k = sectorsOf pos (n + k) := by
  unfold sectorsOf
  unfold sectorSize at *
  split_ifs <;> omega

/-- Cutting a range elsewhere only adds a sector. -/
theorem sectorsOf_le (pos n k : Nat) : sectorsOf pos (n + k) ≤ sectorsOf pos n +
    sectorsOf (pos + n) k := by
  unfold sectorsOf sectorSize
  split_ifs <;> omega

theorem costs_readBlock {lba : Nat} (h : lba < lbaLimit) (d : Device) :
    Costs id (diskReadBlock lba) 1 d (fun i => d.image (lba * sectorSize + i)) (d.ticks 1) where
  ticks := rfl
  steady hs := diskReadBlock_done h (hs 0 Nat.one_pos)
  broken hs := by
    refine ⟨.eio, _, diskReadBlock_failed h fun hdone => hs fun i hi => ?_⟩
    obtain rfl : i = 0 := by omega
    exact hdone

theorem costs_readLoop (fuel : Nat) : ∀ (pos total done : Nat) (out : Bytes) (d : Device),
    total ≤ fuel → pos + total ≤ intMax →
    Costs id (readLoop fuel pos total done out) (sectorsOf pos total) d
      (memcpy out done d.image pos total) (d.ticks (sectorsOf pos total)) := by
  induction fuel with
  | zero =>
    intro pos total done out d hf _
    obtain rfl := Nat.le_zero.mp hf
    rw [memcpy_zero]
    exact costs_free rfl rfl
  | succ fuel ih =>
    intro pos total done out d hf hfit
    cases total with
    | zero =>
      rw [memcpy_zero]
      exact costs_free rfl rfl
    | succ total =>
      have hle := sectorPart_le pos (total + 1)
      have hpos : 0 < sectorPart pos (total + 1) := sectorPart_pos pos (Nat.succ_pos total)
      have hin := sectorPart_fits pos (total + 1)
      have hrest := ih (pos + sectorPart pos (total + 1)) (total + 1 - sectorPart pos (total + 1))
        (done + sectorPart pos (total + 1)) (memcpy out done d.image pos
          (sectorPart pos (total + 1))) (d.ticks 1)
        (by omega) (by omega)
      rw [Device.ticks_ticks, ← sectorsOf_step, image_ticks, memcpy_append,
        Nat.add_sub_cancel' hle] at hrest
      rw [sectorsOf_step] at hrest ⊢
      refine (costs_readBlock (lba_lt (show pos ≤ intMax by omega)) d).bind ?_
      rwa [memcpy_sector d.image hin]

theorem costs_read {pos total : Nat} (h : pos + total ≤ intMax) (d : Device) :
    Costs id (diskstreamerRead pos total) (sectorsOf pos total) d
      (memcpy (fun _ => 0) 0 d.image pos total) (d.ticks (sectorsOf pos total)) :=
  Costs.refuse (by omega) (costs_readLoop total pos total 0 _ d le_rfl h)

end Rorthox.Disk
