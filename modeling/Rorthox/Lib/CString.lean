import Rorthox.Lib.Bytes

/-!
# NUL-terminated strings in buffers

`strnlen`, `strcpy` and `strncpy` loop by loop, and what they do on buffers that hold a
string: each is one splice of the string with its terminator.
-/

namespace Rorthox.Lib

/-- The bytes of a string, without the terminator. -/
structure CString where
  bytes : List UInt8
  clean : (0 : UInt8) ∉ bytes

/-- The buffer holds the string, with its terminator. -/
structure HoldsString (buffer : Bytes) (l : List UInt8) : Prop where
  byte : ∀ i (h : i < l.length), buffer i = l[i]
  clean : (0 : UInt8) ∉ l
  zero : buffer l.length = 0

/-- The buffer of a string literal. -/
def CString.buffer (s : CString) : Bytes := fun i => s.bytes.getD i 0

theorem CString.holds (s : CString) : HoldsString s.buffer s.bytes where
  byte i h := by rw [CString.buffer, List.getD_eq_getElem _ _ h]
  clean := s.clean
  zero := by rw [CString.buffer, List.getD_eq_default _ _ le_rfl]

variable {l : List UInt8} {s : Bytes}

theorem HoldsString.nonzero {buffer : Bytes} (h : HoldsString buffer l) {i : Nat}
    (hi : i < l.length) : buffer i ≠ 0 := by
  rw [h.byte i hi]
  exact fun h0 => h.clean (h0 ▸ List.getElem_mem hi)

/-- The `k` bytes from `address` on. -/
def textAt (content : Bytes) (address k : Nat) : List UInt8 :=
  (List.range k).map fun i => content (address + i)

theorem textAt_length (content : Bytes) (address k : Nat) :
    (textAt content address k).length = k := by simp [textAt]

theorem textAt_holds {content buffer : Bytes} {address k : Nat}
    (hne : ∀ i, i < k → content (address + i) ≠ 0)
    (hbyte : ∀ i, i < k → buffer i = content (address + i)) (hzero : buffer k = 0) :
    HoldsString buffer (textAt content address k) where
  byte i h := by
    rw [textAt_length] at h
    simp [textAt, hbyte i h]
  clean := by
    simp only [textAt, List.mem_map, List.mem_range, not_exists, not_and]
    exact hne
  zero := by rwa [textAt_length]

/-! ## strnlen -/

def strnlenLoop (s : Bytes) : Nat → Nat → Nat
  | 0, i => i
  | left + 1, i => if s i = 0 then i else strnlenLoop s left (i + 1)

def strnlen (s : Bytes) (max : Nat) : Nat := strnlenLoop s max 0

theorem strnlenLoop_holds (h : HoldsString s l) (left : Nat) : ∀ {i : Nat}, i ≤ l.length →
    strnlenLoop s left i = min l.length (i + left) := by
  induction left with
  | zero =>
    intro i hi
    rw [strnlenLoop]
    omega
  | succ left ih =>
    intro i hi
    rw [strnlenLoop]
    by_cases hlt : i < l.length
    · rw [if_neg (h.nonzero hlt), ih hlt]
      omega
    · obtain rfl : i = l.length := by omega
      rw [if_pos h.zero]
      omega

theorem strnlen_holds (h : HoldsString s l) (max : Nat) : strnlen s max = min l.length max := by
  rw [strnlen, strnlenLoop_holds h max (Nat.zero_le _), Nat.zero_add]

theorem strnlenLoop_stops (left : Nat) : ∀ {i : Nat}, (∀ j, j < i → s j ≠ 0) →
    (∀ j, j < strnlenLoop s left i → s j ≠ 0) ∧ strnlenLoop s left i ≤ i + left ∧
      (strnlenLoop s left i ≠ i + left → s (strnlenLoop s left i) = 0) := by
  induction left with
  | zero =>
    intro i hi
    exact ⟨hi, le_rfl, fun h => absurd rfl h⟩
  | succ left ih =>
    intro i hi
    rw [strnlenLoop]
    split
    next hzero => exact ⟨hi, by omega, fun _ => hzero⟩
    next hne =>
      have hnext : ∀ j, j < i + 1 → s j ≠ 0 := by
        intro j hj
        rcases Nat.lt_succ_iff_lt_or_eq.mp hj with hj | rfl
        · exact hi j hj
        · exact hne
      obtain ⟨h1, h2, h3⟩ := ih hnext
      exact ⟨h1, by omega, fun h => h3 (by omega)⟩

/-- A buffer that is not full of text holds a string. -/
theorem holds_of_strnlen {max : Nat} (h : strnlen s max ≠ max) :
    ∃ l, HoldsString s l ∧ l.length = strnlen s max ∧ l.length < max := by
  obtain ⟨hne, hle, hzero⟩ := strnlenLoop_stops max (s := s) (i := 0)
    (fun j hj => absurd hj (Nat.not_lt_zero j))
  rw [Nat.zero_add] at hle hzero
  change strnlen s max ≤ max at hle
  refine ⟨textAt s 0 (strnlen s max), textAt_holds (fun i hi => ?_) (fun i _ => ?_) (hzero h),
    textAt_length _ _ _, ?_⟩
  · rw [Nat.zero_add]
    exact hne i hi
  · rw [Nat.zero_add]
  · rw [textAt_length]
    omega

/-! ## Copies -/

/-- The buffer with `l` from `start` on. -/
def splice (dest : Bytes) (start : Nat) (l : List UInt8) : Bytes :=
  fun p => if start ≤ p ∧ p < start + l.length then l.getD (p - start) 0 else dest p

theorem splice_nil (dest : Bytes) (start : Nat) : splice dest start [] = dest := by
  funext p
  exact if_neg (by simp)

theorem splice_cons (dest : Bytes) (start : Nat) (c : UInt8) (l : List UInt8) :
    splice (Function.update dest start c) (start + 1) l = splice dest start (c :: l) := by
  funext p
  unfold splice
  by_cases hp : p = start
  · subst hp
    rw [if_neg (by omega), Function.update_self, if_pos (by simp), Nat.sub_self]
    rfl
  · rw [Function.update_of_ne hp]
    by_cases hin : start + 1 ≤ p ∧ p < start + 1 + l.length
    · rw [if_pos hin, if_pos (by simp; omega)]
      obtain ⟨k, rfl⟩ := Nat.exists_eq_add_of_le hin.1
      rw [Nat.add_sub_cancel_left, Nat.add_assoc, Nat.add_sub_cancel_left, Nat.add_comm 1 k,
        List.getD_cons_succ]
    · rw [if_neg hin, if_neg (by simp; omega)]

theorem splice_outside {dest : Bytes} {start p : Nat} (h : p < start ∨ start + l.length ≤ p) :
    splice dest start l p = dest p := if_neg (by omega)

theorem splice_inside (dest : Bytes) (start : Nat) {i : Nat} (h : i < l.length) :
    splice dest start l (start + i) = l[i] := by
  rw [splice, if_pos (by omega), Nat.add_sub_cancel_left, List.getD_eq_getElem _ _ h]

/-- `strcpy` of a string, to `dest + start`. -/
def strcpy (dest : Bytes) (start : Nat) : List UInt8 → Bytes
  | [] => Function.update dest start 0
  | c :: src => strcpy (Function.update dest start c) (start + 1) src

theorem strcpy_eq (src : List UInt8) : ∀ (dest : Bytes) (start : Nat), strcpy dest start src =
    splice dest start (src ++ [0]) := by
  induction src with
  | nil =>
    intro dest start
    rw [strcpy, List.nil_append, ← splice_cons, splice_nil]
  | cons c src ih =>
    intro dest start
    rw [strcpy, ih, splice_cons, List.cons_append]

/-- The loop of `strncpy`, with `left` turns to go, and the terminator behind it. -/
def strncpyLoop (src : Bytes) (start : Nat) : Nat → Nat → Bytes → Bytes
  | 0, i, dest => Function.update dest (start + i) 0
  | left + 1, i, dest =>
      if src i = 0 then Function.update dest (start + i) 0
      else strncpyLoop src start left (i + 1) (Function.update dest (start + i) (src i))

/-- `strncpy` of `count` bytes, to `dest + start`. -/
def strncpy (dest : Bytes) (start : Nat) (src : Bytes) (count : Nat) : Bytes :=
  strncpyLoop src start (count - 1) 0 dest

theorem strncpyLoop_holds {src : Bytes} (h : HoldsString src l) (start left : Nat) :
    ∀ {i : Nat} (dest : Bytes), i ≤ l.length →
      strncpyLoop src start left i dest = splice dest (start + i)
        ((l.drop i).take left ++ [0]) := by
  induction left with
  | zero =>
    intro i dest _
    rw [strncpyLoop, List.take_zero, List.nil_append, ← splice_cons, splice_nil]
  | succ left ih =>
    intro i dest hi
    rw [strncpyLoop]
    by_cases hlt : i < l.length
    · rw [if_neg (h.nonzero hlt), ih _ hlt, List.drop_eq_getElem_cons hlt, List.take_succ_cons,
        List.cons_append, ← splice_cons, h.byte i hlt, Nat.add_assoc]
    · obtain rfl : i = l.length := by omega
      rw [if_pos h.zero, List.drop_length, List.take_nil, List.nil_append, ← splice_cons,
        splice_nil]

/-- `strncpy` cuts the string to `count - 1` bytes and terminates it. -/
theorem strncpy_holds {src : Bytes} (h : HoldsString src l) (dest : Bytes) (start count : Nat) :
    strncpy dest start src count = splice dest start (l.take (count - 1) ++ [0]) := by
  rw [strncpy, strncpyLoop_holds h start (count - 1) dest (Nat.zero_le _), List.drop_zero,
    Nat.add_zero]

/-- A string behind another one makes a string. -/
theorem holds_append {dest : Bytes} {a b : List UInt8} (ha : (0 : UInt8) ∉ a)
    (hb : (0 : UInt8) ∉ b) :
    HoldsString (splice (splice dest 0 (a ++ [0])) a.length (b ++ [0])) (a ++ b) where
  byte i h := by
    by_cases hi : i < a.length
    · rw [splice_outside (Or.inl hi), List.getElem_append_left hi]
      have hin : i < (a ++ [0]).length := by simp; omega
      have h0 := splice_inside dest 0 hin
      rw [Nat.zero_add] at h0
      rw [h0, List.getElem_append_left hi]
    · rw [List.length_append] at h
      obtain ⟨k, rfl⟩ := Nat.exists_eq_add_of_le (Nat.le_of_not_lt hi)
      have hk : k < b.length := by omega
      have hin : k < (b ++ [0]).length := by simp; omega
      rw [splice_inside _ _ hin, List.getElem_append_left hk, List.getElem_append_right (by omega)]
      simp
  clean := by
    rw [List.mem_append, not_or]
    exact ⟨ha, hb⟩
  zero := by
    have hin : b.length < (b ++ [0]).length := by simp
    rw [List.length_append, splice_inside _ _ hin]
    simp

end Rorthox.Lib
