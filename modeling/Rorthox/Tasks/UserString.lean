import Rorthox.Lib.Loop
import Rorthox.Tasks.UserCopy

/-!
# Strings from a program

`task_copy_path_from_user` and `copy_string_from_task` of `kernel/task/task.c`. Both walk the
fragments of user memory and stop at the first NUL; they differ in what they do at a byte that
is not the program's and at the end of the buffer. A physical byte that is not there faults,
so a copy that comes through with the program's bytes alone reads no others.
-/

namespace Rorthox.Tasks

open Lib Memory

inductive CopyStop where
  | code (e : Errno)
  | fault
  deriving DecidableEq

/-- A copy into the kernel's buffer. -/
abbrev CopyProg := Prog Bytes CopyStop

/-- `out[position] = c`. -/
def putByte (position : Nat) (c : UInt8) : CopyProg Unit :=
  Prog.change fun out => Function.update out position c

def getByte (memory : Nat → Option UInt8) (p : Nat) : CopyProg UInt8 :=
  match memory p with
  | some c => pure c
  | none => Prog.raise .fault

/-- The loop over the bytes of a fragment; whether it met the NUL. -/
def fragmentLoop (memory : Nat → Option UInt8) : Nat → Nat → Nat → CopyProg Bool
  | 0, _, _ => pure false
  | left + 1, physical, position => do
      let c ← getByte memory physical
      putByte position c
      if c = 0 then pure true else fragmentLoop memory left (physical + 1) (position + 1)

/-- The loop of both copies. They give what happens at the end of the buffer, at a fragment that
is refused and at the end of the address space. Every fragment has at least one byte, so
`size` turns are enough. -/
def stringLoop (process : Option Process) (words : Words) (directory : Nat)
    (memory : Nat → Option UInt8)
    (full : Nat → CopyProg Unit) (refused : Nat → Errno → CopyProg Unit)
    (wrapped : Nat → CopyProg Unit) :
    Nat → Nat → Nat → Nat → CopyProg Unit
  | _, 0, _, position => full position
  | 0, _ + 1, _, _ => Prog.raise .fault
  | fuel + 1, size + 1, address, position =>
      match taskUserFragment process words directory address (size + 1) false with
      | .error e => refused position e
      | .ok (physical, fragment) => do
          let ended ← fragmentLoop memory fragment physical position
          if ended then pure ()
          else if 2 ^ 32 - 1 - address < fragment then wrapped position
          else
            stringLoop process words directory memory full refused wrapped fuel
              (size + 1 - fragment) (address + fragment) (position + fragment)

def taskCopyPathFromUser (task : Option UserTask) (words : Words) (memory : Nat → Option UInt8)
    (address size : Nat) : CopyProg Unit :=
  match task with
  | some ⟨some process, some directory⟩ => do
      Prog.refuse (address = 0 ∨ size = 0) (.code .einvarg)
      stringLoop (some process) words directory memory (fun _ => Prog.raise (.code .einvarg))
        (fun _ e => Prog.raise (.code e)) (fun _ => Prog.raise (.code .einvarg)) size size address 0
  | _ => Prog.raise (.code .einvarg)

/-- The limit is an `int`, and the last byte is kept for the NUL. -/
def copyStringFromTask (task : Option UserTask) (words : Words) (memory : Nat → Option UInt8)
    (address : Nat) (max : Int) : CopyProg Unit :=
  match task with
  | some ⟨some process, some directory⟩ => do
      Prog.refuse (max ≤ 0 ∨ address = 0) (.code .einvarg)
      let remaining := max.toNat - 1
      stringLoop (some process) words directory memory (fun position => putByte position 0)
        (fun position e => do
          putByte position 0
          Prog.raise (.code e))
        (fun position => putByte position 0) remaining remaining address 0
  | _ => Prog.raise (.code .einvarg)

/-! ## The bytes of a fragment -/

theorem putByte_memcpy (out content : Bytes) (position address n : Nat) :
    Function.update (memcpy out position content address n) (position + n) (content (address + n)) =
      memcpy out position content address (n + 1) := by
  funext p
  by_cases hp : p = position + n
  · rw [hp, Function.update_self, memcpy_of_lt (by omega) (by omega), Nat.add_sub_cancel_left]
  · rw [Function.update_of_ne hp]
    unfold memcpy
    by_cases hin : position ≤ p ∧ p < position + n
    · rw [if_pos hin, if_pos (by omega)]
    · rw [if_neg hin, if_neg (by omega)]

theorem memcpy_first (out content : Bytes) (position address n : Nat) :
    memcpy (Function.update out position (content address)) (position + 1) content (address + 1) n =
      memcpy out position content address (n + 1) := by
  have hone : Function.update out position (content address) =
      memcpy out position content address 1 := by
    have h := putByte_memcpy out content position address 0
    rwa [memcpy_zero] at h
  rw [hone, memcpy_append, Nat.add_comm]

variable {address directory k : Nat} {words : Words} {content : Bytes} {process : Option Process}

section Fragment

variable {memory : Nat → Option UInt8} {content : Bytes}

theorem getByte_ok {p : Nat} {c : UInt8} (h : memory p = some c) (out : Bytes) :
    getByte memory p out = (.ok c, out) := by
  rw [getByte, h]
  rfl

theorem fragmentLoop_succ {physical : Nat} (h : memory physical = some (content address))
    (n position : Nat) (out : Bytes) : fragmentLoop memory (n + 1) physical position out =
      if content address = 0 then (.ok true, Function.update out position (content address))
      else fragmentLoop memory n (physical + 1) (position + 1)
        (Function.update out position (content address)) := by
  rw [fragmentLoop, Prog.bind_ok (getByte_ok h out), putByte, Prog.bind_ok (Prog.change_apply _ _)]
  split <;> rfl

/-- The fragment ends before a NUL. -/
theorem fragmentLoop_clear (n : Nat) : ∀ (physical address position : Nat) (out : Bytes),
    (∀ i, i < n → memory (physical + i) = some (content (address + i)) ∧
      content (address + i) ≠ 0) →
    fragmentLoop memory n physical position out = (.ok false,
      memcpy out position content address n) := by
  induction n with
  | zero =>
    intro physical address position out _
    rw [memcpy_zero]
    rfl
  | succ n ih =>
    intro physical address position out h
    obtain ⟨hbyte, hne⟩ : memory physical = some (content address) ∧ content address ≠ 0 :=
      h 0 (Nat.succ_pos n)
    rw [fragmentLoop_succ hbyte, if_neg hne, ih _ (address + 1), memcpy_first]
    intro i hi
    rw [Nat.add_right_comm physical, Nat.add_right_comm address]
    exact h (i + 1) (Nat.succ_lt_succ hi)

/-- The fragment holds the first NUL. -/
theorem fragmentLoop_ended (k : Nat) : ∀ (n physical address position : Nat) (out : Bytes), k < n →
    (∀ i, i ≤ k → memory (physical + i) = some (content (address + i))) →
    (∀ i, i < k → content (address + i) ≠ 0) → content (address + k) = 0 →
    fragmentLoop memory n physical position out = (.ok true,
      memcpy out position content address (k + 1)) := by
  induction k with
  | zero =>
    intro n physical address position out hn hmem _ hzero
    obtain ⟨n, rfl⟩ := Nat.exists_eq_succ_of_ne_zero (Nat.ne_of_gt hn)
    have hbyte : memory physical = some (content address) := hmem 0 le_rfl
    have hend : content address = 0 := hzero
    rw [fragmentLoop_succ hbyte, if_pos hend, ← memcpy_first, memcpy_zero]
  | succ k ih =>
    intro n physical address position out hn hmem hne hzero
    obtain ⟨n, rfl⟩ := Nat.exists_eq_succ_of_ne_zero (Nat.ne_of_gt (Nat.zero_lt_of_lt hn))
    have hbyte : memory physical = some (content address) := hmem 0 (Nat.zero_le _)
    have hfirst : content address ≠ 0 := hne 0 (Nat.succ_pos k)
    rw [fragmentLoop_succ hbyte, if_neg hfirst, ← memcpy_first]
    refine ih n _ (address + 1) _ _ (Nat.lt_of_succ_lt_succ hn) (fun i hi => ?_) (fun i hi => ?_) ?_
    · rw [Nat.add_right_comm physical, Nat.add_right_comm address]
      exact hmem (i + 1) (Nat.succ_le_succ hi)
    · rw [Nat.add_right_comm]
      exact hne (i + 1) (Nat.succ_lt_succ hi)
    · rw [Nat.add_right_comm]
      exact hzero

end Fragment

/-! ## The loop -/

section Loop

variable {process : Option Process} {words : Words} {directory : Nat} {memory : Nat → Option UInt8}
  {content : Bytes}
  {full : Nat → CopyProg Unit} {refused : Nat → Errno → CopyProg Unit}
    {wrapped : Nat → CopyProg Unit}

/-- The bytes of the program as they are in physical memory. -/
def Backed (process : Option Process) (words : Words) (directory : Nat)
    (memory : Nat → Option UInt8) (content : Bytes) : Prop :=
  ∀ a, UserByte process words directory false a → memory (physicalOf words directory false a) =
    some (content a)

/-- `k` owned bytes from `address` on, none of them a NUL. -/
def Clear (process : Option Process) (words : Words) (directory : Nat) (content : Bytes)
    (address k : Nat) : Prop :=
  ∀ i, i < k → UserByte process words directory false (address + i) ∧ content (address + i) ≠ 0

variable (hmem : Backed process words directory memory content)

include hmem

/-- One turn: the fragment holds the first NUL, or the loop goes on behind it. -/
theorem stringLoop_turn (hb : UserByte process words directory false address) (size : Nat) :
    ∃ n, 0 < n ∧ n ≤ size + 1 ∧ (∀ i, i < n → UserByte process words directory false
      (address + i)) ∧ ∀ (fuel position : Nat) (out : Bytes),
        (∀ k, k < n → (∀ i, i < k → content (address + i) ≠ 0) → content (address + k) = 0 →
          stringLoop process words directory memory full refused wrapped (fuel + 1) (size + 1)
            address position out = (.ok (), memcpy out position content address (k + 1))) ∧
        ((∀ i, i < n → content (address + i) ≠ 0) → address + n < 2 ^ 32 →
          stringLoop process words directory memory full refused wrapped (fuel + 1) (size + 1)
            address position out =
            stringLoop process words directory memory full refused wrapped fuel (size + 1 - n)
              (address + n) (position + n) (memcpy out position content address n)) := by
  obtain ⟨n, hrun, hpos, hle, hpage, hown⟩ := taskUserFragment_ok (Nat.succ_pos size) hb
  have hbytes : ∀ i, i < n → memory (physicalOf words directory false address + i) =
      some (content (address + i)) := by
    intro i hi
    rw [← physicalOf_add hb.2 (by omega)]
    exact hmem _ (hown i hi)
  refine ⟨n, hpos, hle, hown, fun fuel position out => ⟨fun k hk hne hzero => ?_,
    fun hne hspace => ?_⟩⟩
  · have hend := fragmentLoop_ended k n _ address position out hk (fun i hi => hbytes i (by omega))
      hne hzero
    simp only [stringLoop, hrun, Prog.bind_ok hend, if_true, Prog.pure_apply]
  · have hwrap : ¬ 2 ^ 32 - 1 - address < n := by omega
    have hgo := fragmentLoop_clear n _ address position out fun i hi => ⟨hbytes i hi, hne i hi⟩
    simp only [stringLoop, hrun, Prog.bind_ok hgo, Bool.false_eq_true, if_false, if_neg hwrap]

omit hmem in
theorem Clear.later {n : Nat} (h : Clear process words directory content address k) (hn : n ≤ k) :
    Clear process words directory content (address + n) (k - n) := by
  intro i hi
  rw [Nat.add_assoc]
  exact h _ (by omega)

/-- The string ends inside the buffer. -/
theorem stringLoop_ended (fuel : Nat) : ∀ (size address position k : Nat) (out : Bytes),
    size ≤ fuel → k < size →
    Clear process words directory content address k → UserByte process words directory false
      (address + k) →
    content (address + k) = 0 → (0 < k → address + k < 2 ^ 32) →
    stringLoop process words directory memory full refused wrapped fuel size address position out =
      (.ok (), memcpy out position content address (k + 1)) := by
  induction fuel with
  | zero =>
    intro size address position k out hf hk
    omega
  | succ fuel ih =>
    intro size address position k out hf hk hclear hlast hzero hspace
    obtain ⟨size, rfl⟩ := Nat.exists_eq_succ_of_ne_zero (Nat.ne_of_gt (Nat.zero_lt_of_lt hk))
    have hb : UserByte process words directory false address := by
      by_cases h0 : k = 0
      · rwa [h0] at hlast
      · exact (hclear 0 (Nat.pos_of_ne_zero h0)).1
    obtain ⟨n, hpos, hle, hown, hturn⟩ := stringLoop_turn hmem hb size
    by_cases hkn : k < n
    · exact (hturn fuel position out).1 k hkn (fun i hi => (hclear i hi).2) hzero
    · have hshift : address + n + (k - n) = address + k := by omega
      have hin : address + k < 2 ^ 32 := hspace (by omega)
      rw [(hturn fuel position out).2 (fun i hi => (hclear i (by omega)).2) (by omega),
        ih _ _ _ (k - n) _ (by omega) (by omega) (hclear.later (by omega)) (hshift ▸ hlast)
          (hshift ▸ hzero)
          (fun _ => hshift ▸ hin), memcpy_append, show n + (k - n + 1) = k + 1 by omega]

/-- The string meets a byte that is not the program's. -/
theorem stringLoop_refused (fuel : Nat) : ∀ (size address position k : Nat) (out : Bytes),
    size ≤ fuel → k < size →
    Clear process words directory content address k → ¬ UserByte process words directory false
      (address + k) →
    (0 < k → address + k < 2 ^ 32) →
    ∃ e, stringLoop process words directory memory full refused wrapped fuel size address
      position out = refused (position + k) e (memcpy out position content address k) := by
  induction fuel with
  | zero =>
    intro size address position k out hf hk
    omega
  | succ fuel ih =>
    intro size address position k out hf hk hclear hbad hspace
    obtain ⟨size, rfl⟩ := Nat.exists_eq_succ_of_ne_zero (Nat.ne_of_gt (Nat.zero_lt_of_lt hk))
    by_cases h0 : k = 0
    · subst h0
      have hfirst : ¬ UserByte process words directory false address := hbad
      obtain ⟨e, he⟩ := taskUserFragment_error (size + 1) hfirst
      refine ⟨e, ?_⟩
      simp only [stringLoop, he, memcpy_zero, Nat.add_zero]
    · have hb : UserByte process words directory false address :=
        (hclear 0 (Nat.pos_of_ne_zero h0)).1
      obtain ⟨n, hpos, hle, hown, hturn⟩ := stringLoop_turn hmem hb size
      have hkn : n ≤ k := by
        by_contra hlt
        exact hbad (hown k (by omega))
      have hshift : address + n + (k - n) = address + k := by omega
      have hin : address + k < 2 ^ 32 := hspace (Nat.pos_of_ne_zero h0)
      obtain ⟨e, he⟩ := ih (size + 1 - n) (address + n) (position + n) (k - n)
        (memcpy out position content address n) (by omega) (by omega) (hclear.later hkn)
          (hshift ▸ hbad)
        (fun _ => hshift ▸ hin)
      refine ⟨e, ?_⟩
      rw [(hturn fuel position out).2 (fun i hi => (hclear i (by omega)).2) (by omega), he,
        memcpy_append, Nat.add_assoc, Nat.add_sub_cancel' hkn]

/-- There is no NUL in the bytes that fit. -/
theorem stringLoop_full (fuel : Nat) : ∀ (size address position : Nat) (out : Bytes), size ≤ fuel →
    Clear process words directory content address size → (0 < size → address + size < 2 ^ 32) →
    stringLoop process words directory memory full refused wrapped fuel size address position out =
      full (position + size) (memcpy out position content address size) := by
  induction fuel with
  | zero =>
    intro size address position out hf hclear hspace
    obtain rfl : size = 0 := by omega
    rw [memcpy_zero]
    rfl
  | succ fuel ih =>
    intro size address position out hf hclear hspace
    cases size with
    | zero =>
      rw [memcpy_zero]
      rfl
    | succ size =>
      have hb : UserByte process words directory false address := (hclear 0 (Nat.succ_pos size)).1
      obtain ⟨n, hpos, hle, hown, hturn⟩ := stringLoop_turn hmem hb size
      have hin := hspace (Nat.succ_pos size)
      rw [(hturn fuel position out).2 (fun i hi => (hclear i (by omega)).2) (by omega),
        ih (size + 1 - n) (address + n) (position + n) _ (by omega) (hclear.later hle) (by omega),
          memcpy_append, Nat.add_assoc,
        Nat.add_sub_cancel' hle]

omit hmem in
/-- What a copy of up to `size` bytes meets first. -/
theorem clear_cases (process : Option Process) (words : Words) (directory : Nat) (content : Bytes)
    (address size : Nat) : (∃ k, k < size ∧ Clear process words directory content address k ∧
      UserByte process words directory false (address + k) ∧ content (address + k) = 0) ∨
    (∃ k, k < size ∧ Clear process words directory content address k ∧
      ¬ UserByte process words directory false (address + k)) ∨
    Clear process words directory content address size := by
  induction size with
  | zero => exact Or.inr (Or.inr fun i hi => absurd hi (Nat.not_lt_zero i))
  | succ size ih =>
    rcases ih with ⟨k, hk, h⟩ | ⟨k, hk, h⟩ | h
    · exact Or.inl ⟨k, Nat.lt_succ_of_lt hk, h⟩
    · exact Or.inr (Or.inl ⟨k, Nat.lt_succ_of_lt hk, h⟩)
    · by_cases hb : UserByte process words directory false (address + size)
      · by_cases hzero : content (address + size) = 0
        · exact Or.inl ⟨size, Nat.lt_succ_self size, h, hb, hzero⟩
        · refine Or.inr (Or.inr fun i hi => ?_)
          rcases Nat.lt_succ_iff_lt_or_eq.mp hi with hi | rfl
          · exact h i hi
          · exact ⟨hb, hzero⟩
      · exact Or.inr (Or.inl ⟨size, Nat.lt_succ_self size, h, hb⟩)

end Loop

/-! ## The two copies -/

/-- The bytes of a program whose regions end before the last page. -/
theorem owned_low {process : Process}
    (h : ∀ r ∈ ownedRegions process false, r.1 + r.2 ≤ 2 ^ 32 - pagingPageSize) {a : Nat}
    (ha : UserByte (some process) words directory false a) : a < 2 ^ 32 - pagingPageSize := by
  obtain ⟨⟨n, hn⟩, -⟩ := ha
  rw [processUserSpan_eq] at hn
  by_cases h0 : a = 0
  · rw [if_pos h0] at hn
    cases hn
  · rw [if_neg h0] at hn
    cases hs : firstSpan a (ownedRegions process false) with
    | none => rw [hs] at hn; cases hn
    | some k =>
      obtain ⟨r, hmem, hin, -⟩ := firstSpan_some hs
      have hend := h r hmem
      unfold InRegion at hin
      omega

/-- Such bytes do not reach the end of the address space. -/
theorem Clear.space {process : Process} (h : Clear (some process) words directory content address k)
    (hregions : ∀ r ∈ ownedRegions process false, r.1 + r.2 ≤ 2 ^ 32 - pagingPageSize)
    (hk : 0 < k) : address + k < 2 ^ 32 := by
  have hlast := owned_low hregions (h (k - 1) (by omega)).1
  have hpagesize : pagingPageSize = 4096 := rfl
  omega

/-- The first NUL from `address` on, with owned bytes up to it, is `k` bytes on. -/
def EndsAt (process : Option Process) (words : Words) (directory : Nat) (content : Bytes)
    (address k : Nat) : Prop :=
  (∀ i, i ≤ k → UserByte process words directory false (address + i)) ∧
    (∀ i, i < k → content (address + i) ≠ 0) ∧ content (address + k) = 0

theorem endsAt_iff :
    EndsAt process words directory content address k ↔ Clear process words directory content
      address k ∧
      UserByte process words directory false (address + k) ∧ content (address + k) = 0 := by
  constructor
  · rintro ⟨hown, hne, hzero⟩
    exact ⟨fun i hi => ⟨hown i hi.le, hne i hi⟩, hown k le_rfl, hzero⟩
  · rintro ⟨hclear, hlast, hzero⟩
    refine ⟨fun i hi => ?_, fun i hi => (hclear i hi).2, hzero⟩
    rcases Nat.lt_or_eq_of_le hi with hi | rfl
    · exact (hclear i hi).1
    · exact hlast

/-- Nothing stops a copy at two places. -/
theorem Clear.not_ends {j : Nat} (h : Clear process words directory content address k)
    (hj : EndsAt process words directory content address j) : k ≤ j := by
  by_contra hlt
  exact (h j (by omega)).2 hj.2.2

theorem EndsAt.unique {j : Nat} (hk : EndsAt process words directory content address k)
    (hj : EndsAt process words directory content address j) : k = j :=
  Nat.le_antisymm ((endsAt_iff.mp hk).1.not_ends hj) ((endsAt_iff.mp hj).1.not_ends hk)

section Copies

variable {process : Process} {words : Words} {directory : Nat} {memory : Nat → Option UInt8}
  {content : Bytes} {address : Nat}
  (hregions : ∀ r ∈ ownedRegions process false, r.1 + r.2 ≤ 2 ^ 32 - pagingPageSize)
  (hmem : Backed (some process) words directory memory content) (haddress : address ≠ 0)

include hregions hmem haddress

/-- How a path copy ends. -/
theorem taskCopyPathFromUser_cases {size : Nat} (hsize : 1 ≤ size) (out : Bytes) :
    (∃ k, k < size ∧ EndsAt (some process) words directory content address k ∧
      taskCopyPathFromUser (some ⟨process, directory⟩) words memory address size out =
        (.ok (), memcpy out 0 content address (k + 1))) ∨
    (¬ (∃ k, k < size ∧ EndsAt (some process) words directory content address k) ∧ ∃ e out',
      taskCopyPathFromUser (some ⟨process, directory⟩) words memory address size out =
        (.error (.code e), out')) := by
  have hno : ¬ (address = 0 ∨ size = 0) := by omega
  simp only [taskCopyPathFromUser, Prog.refuse_of_not hno, pure_bind]
  rcases clear_cases (some process) words directory content address size with
    ⟨k, hk, hend⟩ | ⟨k, hk, hclear, hbad⟩ | hclear
  · exact Or.inl ⟨k, hk, endsAt_iff.mpr hend,
      stringLoop_ended hmem size size address 0 k out le_rfl hk hend.1 hend.2.1 hend.2.2
        (hend.1.space hregions)⟩
  · refine Or.inr ⟨fun ⟨j, hj, hends⟩ => hbad (hends.1 k (hclear.not_ends hends)), ?_⟩
    obtain ⟨e, he⟩ := stringLoop_refused hmem size size address 0 k out le_rfl hk hclear hbad
      (hclear.space hregions)
    exact ⟨e, _, he⟩
  · refine Or.inr ⟨fun ⟨j, hj, hends⟩ => ?_, .einvarg, _,
      stringLoop_full hmem size size address 0 out le_rfl hclear (hclear.space hregions)⟩
    have hle := hclear.not_ends hends
    omega

/-- How the other copy ends. -/
theorem copyStringFromTask_cases {max : Nat} (hmax : 1 ≤ max) (out : Bytes) :
    (∃ k, k < max - 1 ∧ EndsAt (some process) words directory content address k ∧
      copyStringFromTask (some ⟨process, directory⟩) words memory address max out =
        (.ok (), memcpy out 0 content address (k + 1))) ∨
    (∃ k e, k < max - 1 ∧ Clear (some process) words directory content address k ∧
      ¬ UserByte (some process) words directory false (address + k) ∧
      copyStringFromTask (some ⟨process, directory⟩) words memory address max out =
        (.error (.code e), Function.update (memcpy out 0 content address k) k 0)) ∨
    (Clear (some process) words directory content address (max - 1) ∧
      copyStringFromTask (some ⟨process, directory⟩) words memory address max out =
        (.ok (), Function.update (memcpy out 0 content address (max - 1)) (max - 1) 0)) := by
  have hno : ¬ ((max : Int) ≤ 0 ∨ address = 0) := by omega
  simp only [copyStringFromTask, Prog.refuse_of_not hno, pure_bind, Int.toNat_natCast]
  rcases clear_cases (some process) words directory content address (max - 1) with
    ⟨k, hk, hend⟩ | ⟨k, hk, hclear, hbad⟩ | hclear
  · exact Or.inl ⟨k, hk, endsAt_iff.mpr hend,
      stringLoop_ended hmem _ _ address 0 k out le_rfl hk hend.1 hend.2.1 hend.2.2
        (hend.1.space hregions)⟩
  · obtain ⟨e, he⟩ := stringLoop_refused hmem _ _ address 0 k out le_rfl hk hclear hbad
      (hclear.space hregions)
    refine Or.inr (Or.inl ⟨k, e, hk, hclear, hbad, he.trans ?_⟩)
    rw [putByte, Prog.bind_ok (Prog.change_apply _ _), Nat.zero_add, Prog.raise_apply]
  · refine Or.inr (Or.inr ⟨hclear, (stringLoop_full hmem _ _ address 0 out le_rfl hclear
      (hclear.space hregions)).trans ?_⟩)
    rw [putByte, Prog.change_apply, Nat.zero_add]

/-- String copies from user memory are exact.

A path copy succeeds exactly when there is a NUL among the first `size` bytes and all bytes up
to the first one are owned and mapped; it then writes that string and nothing past its NUL. The
other copy succeeds exactly when this holds of the first `max - 1` bytes or these are all
owned and mapped without a NUL; it leaves those bytes with a NUL behind them. Where it meets a
byte that is not the program's it puts the NUL there. The physical memory need hold nothing
but the program's bytes, and neither copy faults. -/
theorem user_strings (out : Bytes) :
    (∀ size, 1 ≤ size →
      let r := taskCopyPathFromUser (some ⟨process, directory⟩) words memory address size out
      (r.1 = .ok () ↔ ∃ k, k < size ∧ EndsAt (some process) words directory content address k) ∧
      (∀ k, k < size → EndsAt (some process) words directory content address k →
        r.2 = memcpy out 0 content address (k + 1)) ∧
      r.1 ≠ .error .fault) ∧
    ∀ max : Nat, 1 ≤ max →
      let r := copyStringFromTask (some ⟨process, directory⟩) words memory address max out
      (r.1 = .ok () ↔ (∃ k, k < max - 1 ∧ EndsAt (some process) words directory content address k) ∨
        Clear (some process) words directory content address (max - 1)) ∧
      (∀ k, k < max - 1 → EndsAt (some process) words directory content address k →
        r.2 = memcpy out 0 content address (k + 1)) ∧
      (Clear (some process) words directory content address (max - 1) →
        r.2 = Function.update (memcpy out 0 content address (max - 1)) (max - 1) 0) ∧
      (r.1 ≠ .ok () → ∃ k, k < max - 1 ∧ Clear (some process) words directory content address k ∧
        ¬ UserByte (some process) words directory false (address + k) ∧
        r.2 = Function.update (memcpy out 0 content address k) k 0) ∧
      r.1 ≠ .error .fault := by
  refine ⟨fun size hsize => ?_, fun max hmax => ?_⟩
  · rcases taskCopyPathFromUser_cases hregions hmem haddress hsize out with ⟨k, hk, hend, hrun⟩ |
      ⟨hnone, e, out', hrun⟩
    · rw [hrun]
      refine ⟨⟨fun _ => ⟨k, hk, hend⟩, fun _ => rfl⟩, fun j _ hj => ?_, by simp⟩
      rw [hend.unique hj]
    · rw [hrun]
      exact ⟨⟨fun h => (by cases h), fun h => absurd h hnone⟩, fun j hj hends =>
        absurd ⟨j, hj, hends⟩ hnone, by simp⟩
  · rcases copyStringFromTask_cases hregions hmem haddress hmax out with
      ⟨k, hk, hend, hrun⟩ | ⟨k, e, hk, hclear, hbad, hrun⟩ | ⟨hclear, hrun⟩
    · rw [hrun]
      refine ⟨⟨fun _ => Or.inl ⟨k, hk, hend⟩, fun _ => rfl⟩, fun j _ hj => ?_, fun hall => ?_,
        fun h => absurd rfl h, by simp⟩
      · rw [hend.unique hj]
      · have hle := hall.not_ends hend
        omega
    · rw [hrun]
      have hno : ∀ j, ¬ EndsAt (some process) words directory content address j := fun j hj =>
        hbad (hj.1 k (hclear.not_ends hj))
      refine ⟨⟨fun h => (by cases h), ?_⟩, fun j _ hj => absurd hj (hno j), fun hall =>
        absurd (hall k hk).1 hbad, fun _ => ⟨k, hk, hclear, hbad, rfl⟩, by simp⟩
      rintro (⟨j, -, hj⟩ | hall)
      · exact absurd hj (hno j)
      · exact absurd (hall k hk).1 hbad
    · rw [hrun]
      refine ⟨⟨fun _ => Or.inr hclear, fun _ => rfl⟩, fun j hj hends => ?_, fun _ => rfl, fun h =>
        absurd rfl h, by simp⟩
      have hle := hclear.not_ends hends
      omega

end Copies

/-! A raw program of three bytes, "hi" with its NUL, at the end of what it owns. -/

def hiProcess : Process where
  allocations := fun _ => ⟨0, 0⟩
  filetype := processFiletypeBinary
  ptr := 12288
  elfFile := .zero
  stack := 0
  size := 3

def hiWords : Words := fun base _ => if base = 4096 then 8192 ||| 7 else 12288 ||| 7

def hiMemory : Nat → Option UInt8 := fun p => [(12288, 104), (12289, 105), (12290, 0)].lookup p

def hiContent : Bytes := fun a => if a = 0x400000 then 104 else if a = 0x400001 then 105 else 0

theorem hi_regions : ownedRegions hiProcess false = [(0x400000, 3)] := by
  have hnone : allocationRegions hiProcess = [] := List.filterMap_eq_nil_iff.mpr fun i _ => rfl
  rw [ownedRegions, hnone]
  rfl

theorem hi_backed : Backed (some hiProcess) hiWords 4096 hiMemory hiContent := by
  intro a ha
  obtain ⟨⟨n, hn⟩, -⟩ := ha
  rw [processUserSpan_eq, hi_regions] at hn
  have hin : InRegion a (0x400000, 3) := by
    by_contra hout
    have hnone : firstSpan a [(0x400000, 3)] = none := by simp [firstSpan, hout]
    rw [hnone] at hn
    split at hn <;> cases hn
  unfold InRegion at hin
  obtain rfl | rfl | rfl : a = 0x400000 ∨ a = 0x400001 ∨ a = 0x400002 := by omega
  all_goals decide

theorem user_strings_hi : ((taskCopyPathFromUser (some ⟨hiProcess, some 4096⟩) hiWords hiMemory
      0x400000 3) fun _ => 7).1 = .ok () ∧
    ((copyStringFromTask (some ⟨hiProcess, some 4096⟩) hiWords hiMemory 0x400000 3) fun _ => 7).2 =
      Function.update (memcpy (fun _ => 7) 0 hiContent 0x400000 2) 2 0 := by
  have hregions : ∀ r ∈ ownedRegions hiProcess false, r.1 + r.2 ≤ 2 ^ 32 - pagingPageSize := by
    rw [hi_regions]
    simp [pagingPageSize]
  have howned : ∀ i, i ≤ 2 → UserByte (some hiProcess) hiWords 4096 false (0x400000 + i) := by
    intro i hi
    have hspan : processUserSpan (some hiProcess) (0x400000 + i) false = .ok (3 - i) := by
      rw [processUserSpan_eq, hi_regions]
      obtain rfl | rfl | rfl : i = 0 ∨ i = 1 ∨ i = 2 := by omega
      all_goals rfl
    refine ⟨⟨_, hspan⟩, 12288 + i, ?_⟩
    obtain rfl | rfl | rfl : i = 0 ∨ i = 1 ∨ i = 2 := by omega
    all_goals rfl
  have h := user_strings hregions hi_backed (by decide : (0x400000 : Nat) ≠ 0) fun _ => 7
  refine ⟨((h.1 3 (by decide)).1).mpr ⟨2, by decide, howned, by decide, by decide⟩,
    (h.2 3 (by decide)).2.2.1 ?_⟩
  intro i hi
  obtain rfl | rfl : i = 0 ∨ i = 1 := by omega
  · exact ⟨howned 0 (by decide), by decide⟩
  · exact ⟨howned 1 (by decide), by decide⟩

end Rorthox.Tasks
