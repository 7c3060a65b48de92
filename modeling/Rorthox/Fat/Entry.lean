import Rorthox.Fat.Mutate

/-!
# Directory entries field by field

What the driver's changes to an entry leave in its fields. A change of first cluster
and size keeps the name; a new entry is an empty file.
-/

namespace Rorthox.Fat

open Lib

namespace DirItem

variable {i n o : Nat} {bs : List UInt8}

theorem byte_of_lt (item : DirItem) (h : i < 32) : item.byte i = item ⟨i, h⟩ := dif_pos h

theorem load_byte (b : Bytes) (o : Nat) (h : i < 32) : (load b o).byte i = b (o + i) :=
  byte_of_lt _ h

theorem put_in (item : DirItem) (h32 : i < 32) (h1 : o ≤ i) (h2 : i < o + bs.length) :
    (item.put o bs).byte i = bs.getD (i - o) 0 := by
  rw [byte_of_lt _ h32]
  exact if_pos ⟨h1, h2⟩

theorem put_out (item : DirItem) (h : i < o ∨ o + bs.length ≤ i) :
    (item.put o bs).byte i = item.byte i := by
  by_cases h32 : i < 32
  · rw [byte_of_lt _ h32, byte_of_lt _ h32]
    exact if_neg (by simp only; omega)
  · unfold byte
    rw [dif_neg h32, dif_neg h32]

theorem le16_put (item : DirItem) (ho : o + 1 < 32) (hn : n < 2 ^ 16) :
    le16 (item.put o (enc16 n)).byte o = n := by
  refine le16_enc16 ?_ ?_ hn
  · rw [put_in item (by omega) le_rfl (by simp [enc16]), Nat.sub_self]
    rfl
  · rw [put_in item ho (by omega) (by simp [enc16]), Nat.add_sub_cancel_left]
    rfl

theorem le32_put (item : DirItem) (ho : o + 3 < 32) (hn : n < 2 ^ 32) :
    le32 (item.put o (enc32 n)).byte o = n := by
  have hin : ∀ k, k < 4 → (item.put o (enc32 n)).byte (o + k) = (enc32 n).getD k 0 := by
    intro k hk
    rw [put_in item (by omega) (by omega) (by simp [enc32, enc16]; omega), Nat.add_sub_cancel_left]
  have h0 := hin 0 (by omega)
  have h1 := hin 1 (by omega)
  have h2 := hin 2 (by omega)
  have h3 := hin 3 (by omega)
  unfold le32 le16
  rw [Nat.add_zero] at h0
  rw [h0, h1, h2, Nat.add_assoc o 2 1, h3]
  show (UInt8.ofNat n).toNat + 256 * (UInt8.ofNat (n / 256)).toNat +
    65536 * ((UInt8.ofNat (n / 65536)).toNat + 256 * (UInt8.ofNat (n / 65536 / 256)).toNat) = n
  simp only [UInt8.toNat_ofNat']
  omega

end DirItem

open DirItem

section

variable (item : DirItem)

/-- The bytes a modification leaves alone. -/
theorem modified_byte {i : Nat} (h11 : i ≠ 11) (h : i < 18 ∨ 26 ≤ i ∨ i = 20 ∨ i = 21) :
    (fat16Modified item).byte i = item.byte i := by
  unfold fat16Modified
  have hlen : ∀ n, (enc16 n).length = 2 := fun _ => rfl
  rw [put_out _ (by rw [hlen]; omega), put_out _ (by rw [hlen]; omega),
    put_out _ (by rw [hlen]; omega), put_out _ (by rw [List.length_singleton]; omega)]

theorem modified_attrib : (fat16Modified item).attrib = item.attrib ||| fileArchived := by
  unfold attrib fat16Modified
  have hlen : ∀ n, (enc16 n).length = 2 := fun _ => rfl
  rw [put_out _ (by rw [hlen]; omega), put_out _ (by rw [hlen]; omega),
    put_out _ (by rw [hlen]; omega), put_in _ (by omega) le_rfl (by simp)]
  rfl

theorem rewritten_byte (first size : Nat) {i : Nat} (h11 : i ≠ 11) (h : i < 18 ∨ i = 20 ∨ i = 21) :
    (rewritten item first size).byte i = item.byte i := by
  unfold rewritten
  rw [modified_byte _ h11 (by omega), put_out _ (by simp only [enc32, enc16]; omega),
    put_out _ (by simp only [enc16]; omega)]

theorem rewritten_attrib (first size : Nat) :
    (rewritten item first size).attrib = item.attrib ||| fileArchived := by
  unfold rewritten
  rw [modified_attrib]
  unfold attrib
  rw [put_out _ (by simp only [enc32, enc16]; omega), put_out _ (by simp only [enc16]; omega)]

theorem rewritten_filesize (first : Nat) {size : Nat} (h : size < 2 ^ 32) :
    (rewritten item first size).filesize = size := by
  have hmod : (rewritten item first size).filesize =
      le32 ((item.put 26 (enc16 first)).put 28 (enc32 size)).byte 28 := by
    unfold filesize le32 rewritten
    rw [le16_congr (modified_byte _ (by omega) (by omega)) (modified_byte _ (by omega) (by omega)),
      le16_congr (modified_byte _ (by omega) (by omega)) (modified_byte _ (by omega) (by omega))]
  rw [hmod, le32_put _ (by omega) h]

theorem rewritten_first {first : Nat} (size : Nat) (h : first < 2 ^ 16) :
    (rewritten item first size).lowFirstCluster = first := by
  have hmod : (rewritten item first size).lowFirstCluster =
      le16 (item.put 26 (enc16 first)).byte 26 := by
    unfold lowFirstCluster rewritten
    refine le16_congr ?_ ?_
    · rw [modified_byte _ (by omega) (by omega), put_out _ (by omega)]
    · rw [modified_byte _ (by omega) (by omega), put_out _ (by omega)]
  rw [hmod, le16_put _ (by omega) h]

end

/-! ## New entries -/

theorem shortName_lengths (name : List UInt8) : ∀ {dot : Bool} {base ext b e : List UInt8},
    base.length ≤ 8 → ext.length ≤ 3 → shortName name dot base ext = .ok (b, e) →
      b.length ≤ 8 ∧ e.length ≤ 3 := by
  induction name with
  | nil => intro dot base ext b e hb he h; cases h; exact ⟨hb, he⟩
  | cons c name ih =>
    intro dot base ext b e hb he h
    unfold shortName at h
    split at h
    · exact ih hb he h
    · split at h
      · cases h
      · rename_i hfull
        simp only [Bool.or_eq_true, Bool.and_eq_true, decide_eq_true_eq, Bool.not_eq_true'] at hfull
        split at h
        · rename_i hdot
          refine ih hb ?_ h
          rw [List.length_append, List.length_singleton]
          have : ¬ 3 ≤ ext.length := fun hl => hfull (Or.inr ⟨hdot, hl⟩)
          omega
        · rename_i hdot
          refine ih ?_ he h
          rw [List.length_append, List.length_singleton]
          have : ¬ 8 ≤ base.length := fun hl => hfull (Or.inl ⟨by simpa using hdot, hl⟩)
          omega

section

variable {base ext : List UInt8}

section

variable (hb : base.length ≤ 8) (he : ext.length ≤ 3)
include hb he

/-- Behind the name, a new entry is blank but for the marks. -/
theorem newEntry_byte {i : Nat} (h1 : 12 ≤ i) (h2 : i < 16 ∨ 26 ≤ i ∨ i = 20 ∨ i = 21) :
    (newEntry base ext).byte i = 0 := by
  unfold newEntry
  have hzero : DirItem.zero.byte i = 0 := by
    unfold DirItem.byte
    split <;> rfl
  rw [modified_byte _ (by omega) (by omega), put_out _ (by simp only [enc16]; simp; omega),
    put_out _ (by omega), put_out _ (by omega), put_out _ (by simp; omega), hzero]

theorem newEntry_attrib : (newEntry base ext).attrib = fileArchived := by
  unfold newEntry
  rw [modified_attrib]
  unfold attrib
  rw [put_out _ (by omega), put_out _ (by omega), put_out _ (by omega), put_out _ (by simp)]
  decide

theorem newEntry_filesize : (newEntry base ext).filesize = 0 := by
  unfold filesize le32 le16
  rw [newEntry_byte hb he (by omega) (by omega), newEntry_byte hb he (by omega) (by omega),
    newEntry_byte hb he (by omega) (by omega), newEntry_byte hb he (by omega) (by omega)]
  rfl

theorem newEntry_first : (newEntry base ext).lowFirstCluster = 0 := by
  unfold lowFirstCluster le16
  rw [newEntry_byte hb he (by omega) (by omega), newEntry_byte hb he (by omega) (by omega)]
  rfl

theorem newEntry_high : (newEntry base ext).highFirstCluster = 0 := by
  unfold highFirstCluster le16
  rw [newEntry_byte hb he (by omega) (by omega), newEntry_byte hb he (by omega) (by omega)]
  rfl

end

end

end Rorthox.Fat
