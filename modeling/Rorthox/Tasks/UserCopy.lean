import Rorthox.Tasks.Process

/-!
# Checked copies between the kernel and a program

`task_user_fragment`, `task_copy_user` and `task_validate_user_span` of
`kernel/task/task.c`. The copier walks page fragments twice, the validator walks
owned regions; both accept exactly the spans whose every byte is owned and mapped.
Page tables, ownership tables and the kernel buffer are apart from the bytes a
copy moves.
-/

namespace Rorthox.Tasks

open Lib Memory

/-- A task as the checked copies read it: its process and its directory. -/
structure UserTask where
  process : Option Process
  pageDirectory : Option Nat

/-- The physical address of a fragment and its length. -/
def taskUserFragment (process : Option Process) (words : Words) (directory address remaining : Nat)
    (write : Bool) : Except Errno (Nat × Nat) := do
  let available ← processUserSpan process address write
  let physical ← pagingUserTranslate words directory address write
  let pageRemaining := pagingPageSize - (address &&& (pagingPageSize - 1))
  let size := remaining
  let size := if size > available then available else size
  let size := if size > pageRemaining then pageRemaining else size
  pure (physical, size)

/-- What a copy may change: user memory and the kernel buffer. -/
structure CopyState where
  memory : Bytes
  buffer : Bytes

/-- One pass of `task_copy_user`; `copy` is false in the preflight. Every fragment
has at least one byte, so `remaining` turns are enough. -/
def copyPass (process : Option Process) (words : Words) (directory : Nat) (write copy : Bool) :
    Nat → Nat → Nat → Nat → CopyState → Except Errno Unit × CopyState
  | _, 0, _, _, st => (.ok (), st)
  | 0, _ + 1, _, _, st => (.error .einvarg, st)
  | fuel + 1, remaining + 1, current, position, st =>
      match taskUserFragment process words directory current (remaining + 1) write with
      | .error e => (.error e, st)
      | .ok (physical, fragment) =>
          let st :=
            if copy then
              if write then
                { st with memory := memcpy st.memory physical st.buffer position fragment }
              else { st with buffer := memcpy st.buffer position st.memory physical fragment }
            else st
          copyPass process words directory write copy fuel (remaining + 1 - fragment)
            ((current + fragment) % 2 ^ 32) (position + fragment) st

/-- `size - 1 > UINT32_MAX - address` without the subtraction of zero. -/
def spanRefused (address size : Nat) : Bool :=
  address = 0 || size = 0 || size - 1 > 2 ^ 32 - 1 - address

def taskCopyUser (task : Option UserTask) (words : Words) (address size : Nat) (write : Bool)
    (st : CopyState) : Except Errno Unit × CopyState :=
  match task with
  | some ⟨some process, some directory⟩ =>
      if spanRefused address size then (.error .einvarg, st)
      else
        match copyPass (some process) words directory write false size size address 0 st with
        | (.error e, st) => (.error e, st)
        | (.ok (), st) => copyPass (some process) words directory write true size size address 0 st
  | _ => (.error .einvarg, st)

/-- The inner loop of the validator over one region: what is left of the request
and where it goes on. -/
def validateRegion (words : Words) (directory : Nat) (write : Bool) :
    Nat → Nat → Nat → Nat → Except Errno (Nat × Nat)
  | _, 0, size, address => .ok (size, address)
  | 0, _ + 1, _, _ => .error .einvarg
  | fuel + 1, available + 1, size, address =>
      match pagingUserTranslate words directory address write with
      | .error e => .error e
      | .ok _ =>
          let fragment := pagingPageSize - (address &&& (pagingPageSize - 1))
          let fragment := if fragment > available + 1 then available + 1 else fragment
          let size := size - fragment
          let address := if size ≠ 0 then (address + fragment) % 2 ^ 32 else address
          validateRegion words directory write fuel (available + 1 - fragment) size address

def validateLoop (process : Option Process) (words : Words) (directory : Nat) (write : Bool) :
    Nat → Nat → Nat → Except Errno Unit
  | _, 0, _ => .ok ()
  | 0, _ + 1, _ => .error .einvarg
  | fuel + 1, size + 1, address =>
      match processUserSpan process address write with
      | .error e => .error e
      | .ok available =>
          let available := if available > size + 1 then size + 1 else available
          match validateRegion words directory write available available (size + 1) address with
          | .error e => .error e
          | .ok (size, address) => validateLoop process words directory write fuel size address

def taskValidateUserSpan (task : Option UserTask) (words : Words) (address size : Nat)
    (write : Bool) : Except Errno Unit :=
  match task with
  | some ⟨some process, some directory⟩ =>
      if spanRefused address size then .error .einvarg
      else validateLoop (some process) words directory write size size address
  | _ => .error .einvarg

/-! ## One byte -/

/-- The byte at `address` is owned and mapped for the access. -/
def UserByte (process : Option Process) (words : Words) (directory : Nat) (write : Bool)
    (address : Nat) : Prop :=
  (∃ n, processUserSpan process address write = .ok n) ∧
    ∃ p, pagingUserTranslate words directory address write = .ok p

/-- Where the byte at `address` lies in physical memory. -/
def physicalOf (words : Words) (directory : Nat) (write : Bool) (address : Nat) : Nat :=
  match pagingUserTranslate words directory address write with
  | .ok p => p
  | .error _ => 0

variable {address directory n : Nat} {process : Option Process} {write : Bool} {words : Words}

theorem firstSpan_some {regions : List (Nat × Nat)} (h : firstSpan address regions = some n) :
    ∃ r ∈ regions, InRegion address r ∧ n = r.2 - (address - r.1) := by
  unfold firstSpan at h
  rw [Option.map_eq_some_iff] at h
  obtain ⟨r, hf, rfl⟩ := h
  have hin : decide (InRegion address r) = true :=
    List.find?_some (p := fun r => decide (InRegion address r)) hf
  exact ⟨r, List.mem_of_find?_eq_some hf, of_decide_eq_true hin, rfl⟩

theorem firstSpan_of_mem {r : Nat × Nat} {regions : List (Nat × Nat)} (hmem : r ∈ regions)
    (h : InRegion address r) : ∃ n, firstSpan address regions = some n := by
  unfold firstSpan
  cases hf : regions.find? fun r => decide (InRegion address r) with
  | some q => exact ⟨_, rfl⟩
  | none =>
    rw [List.find?_eq_none] at hf
    exact absurd (decide_eq_true h) (hf r hmem)

/-- A span the ownership test reports is owned byte by byte. -/
theorem processUserSpan_add (h : processUserSpan process address write = .ok n) :
    0 < n ∧ ∀ i, i < n → ∃ m, processUserSpan process (address + i) write = .ok m := by
  cases process with
  | none => cases h
  | some process =>
    rw [processUserSpan_eq] at h
    by_cases h0 : address = 0
    · rw [if_pos h0] at h
      cases h
    · rw [if_neg h0] at h
      cases hs : firstSpan address (ownedRegions process write) with
      | none => rw [hs] at h; cases h
      | some k =>
        rw [hs] at h
        obtain rfl := Except.ok.inj h
        obtain ⟨r, hmem, hin, rfl⟩ := firstSpan_some hs
        unfold InRegion at hin
        refine ⟨by omega, fun i hi => ?_⟩
        have hin' : InRegion (address + i) r := by unfold InRegion; omega
        obtain ⟨m, hm⟩ := firstSpan_of_mem hmem hin'
        refine ⟨m, ?_⟩
        rw [processUserSpan_eq, if_neg (by omega), hm]

theorem physicalOf_add (h : ∃ p, pagingUserTranslate words directory address write = .ok p)
    {i : Nat} (hi : address % pagingPageSize + i < pagingPageSize) :
    physicalOf words directory write (address + i) = physicalOf words directory write address +
      i := by
  obtain ⟨p, hp⟩ := h
  unfold physicalOf
  rw [hp, pagingUserTranslate_add hp hi]

theorem page_offset (address : Nat) :
    address &&& (pagingPageSize - 1) = address % pagingPageSize := Lib.land_low address 12

theorem page_room (address : Nat) : 0 < pagingPageSize - address % pagingPageSize := by
  have h := Nat.mod_lt address (show 0 < pagingPageSize by decide)
  omega

/-! ## Fragments -/

/-- A fragment starts at the translation of its address and is good throughout. -/
theorem taskUserFragment_ok {remaining : Nat} (hr : 0 < remaining)
    (hb : UserByte process words directory write address) :
    ∃ n, taskUserFragment process words directory address remaining write =
        .ok (physicalOf words directory write address, n) ∧
      0 < n ∧ n ≤ remaining ∧ address % pagingPageSize + n ≤ pagingPageSize ∧
      ∀ i, i < n → UserByte process words directory write (address + i) := by
  obtain ⟨⟨k, hk⟩, ⟨p, hp⟩⟩ := hb
  obtain ⟨hkpos, hown⟩ := processUserSpan_add hk
  have hroom := page_room address
  have hphys : physicalOf words directory write address = p := by unfold physicalOf; rw [hp]
  refine ⟨min (min remaining k) (pagingPageSize - address % pagingPageSize), ?_, ?_, ?_, ?_, ?_⟩
  · unfold taskUserFragment
    simp only [hk, hp, page_offset, hphys]
    show Except.ok _ = Except.ok _
    congr 2
    split_ifs <;> omega
  · omega
  · omega
  · omega
  · intro i hi
    exact ⟨hown i (by omega), _, pagingUserTranslate_add hp (by omega)⟩

theorem taskUserFragment_error (remaining : Nat)
    (hb : ¬ UserByte process words directory write address) :
    ∃ e, taskUserFragment process words directory address remaining write = .error e := by
  unfold taskUserFragment
  cases hs : processUserSpan process address write with
  | error e => exact ⟨e, rfl⟩
  | ok n =>
    cases ht : pagingUserTranslate words directory address write with
    | error e => exact ⟨e, rfl⟩
    | ok p => exact absurd ⟨⟨n, hs⟩, p, ht⟩ hb

/-! ## What a copy leaves behind -/

/-- The first `n` bytes of the buffer, stored one after another at their places. -/
def storeBytes (place : Nat → Nat) (buffer : Bytes) : Nat → Bytes → Bytes
  | 0, memory => memory
  | n + 1, memory => Function.update (storeBytes place buffer n memory) (place n) (buffer n)

theorem storeBytes_memcpy (place : Nat → Nat) (buffer memory : Bytes) (k p : Nat) :
    ∀ n, (∀ i, i < n → place (k + i) = p + i) →
      storeBytes place buffer (k + n) memory = memcpy (storeBytes place buffer k memory) p
        buffer k n := by
  intro n
  induction n with
  | zero =>
    intro _
    funext q
    rw [memcpy, if_neg (by omega)]
    rfl
  | succ n ih =>
    intro hplace
    have hn := hplace n (by omega)
    rw [show k + (n + 1) = (k + n) + 1 by omega, storeBytes, ih fun i hi => hplace i (by omega), hn]
    funext q
    unfold memcpy
    by_cases hq : q = p + n
    · subst hq
      rw [Function.update_self, if_pos (by omega)]
      congr 1
      omega
    · rw [Function.update_of_ne hq]
      by_cases hin : p ≤ q ∧ q < p + n
      · rw [if_pos hin, if_pos (by omega)]
      · rw [if_neg hin, if_neg (by omega)]

/-- The buffer after its first `n` bytes were fetched from their places. -/
def fetchBytes (place : Nat → Nat) (memory : Bytes) (n : Nat) (buffer : Bytes) : Bytes :=
  fun i => if i < n then memory (place i) else buffer i

theorem fetchBytes_memcpy (place : Nat → Nat) (memory buffer : Bytes) (k p n : Nat)
    (hplace : ∀ i, i < n → place (k + i) = p + i) :
    fetchBytes place memory (k + n) buffer = memcpy (fetchBytes place memory k buffer) k
      memory p n := by
  funext q
  simp only [fetchBytes, memcpy]
  by_cases hin : k ≤ q ∧ q < k + n
  · rw [if_pos hin, if_pos (by omega)]
    have h := hplace (q - k) (by omega)
    rw [show k + (q - k) = q by omega] at h
    rw [h]
  · rw [if_neg hin]
    by_cases hq : q < k
    · rw [if_pos hq, if_pos (by omega)]
    · rw [if_neg hq, if_neg (by omega)]

/-- The state once the first `n` bytes of the span at `address` have been moved. -/
def movedBytes (words : Words) (directory : Nat) (write : Bool) (address n : Nat)
    (st : CopyState) : CopyState :=
  let place := fun i => physicalOf words directory write (address + i)
  if write then { st with memory := storeBytes place st.buffer n st.memory }
  else { st with buffer := fetchBytes place st.memory n st.buffer }

theorem movedBytes_zero (words : Words) (directory : Nat) (write : Bool) (address : Nat)
    (st : CopyState) : movedBytes words directory write address 0 st = st := by
  cases write
  · have h : fetchBytes (fun i => physicalOf words directory false (address + i)) st.memory 0
        st.buffer = st.buffer := by
      funext q
      rw [fetchBytes, if_neg (by omega)]
    simp only [movedBytes, h]
    rfl
  · rfl

/-- Moving one fragment more is one `memcpy`, whichever way the bytes go. -/
theorem movedBytes_fragment {k : Nat} (st : CopyState)
    (hp : ∃ p, pagingUserTranslate words directory (address + k) write = .ok p)
    (hn : (address + k) % pagingPageSize + n ≤ pagingPageSize) :
    movedBytes words directory write address (k + n) st =
      if write then { movedBytes words directory write address k st with
        memory := memcpy (movedBytes words directory write address k st).memory
          (physicalOf words directory write (address + k))
          (movedBytes words directory write address k st).buffer k n }
      else { movedBytes words directory write address k st with
        buffer := memcpy (movedBytes words directory write address k st).buffer k
          (movedBytes words directory write address k st).memory
          (physicalOf words directory write (address + k)) n } := by
  have hplace : ∀ i, i < n → physicalOf words directory write (address + (k + i)) =
      physicalOf words directory write (address + k) + i := by
    intro i hi
    rw [← Nat.add_assoc]
    exact physicalOf_add hp (by omega)
  cases write
  · simp only [movedBytes, Bool.false_eq_true, if_false]
    rw [fetchBytes_memcpy _ _ _ k _ n hplace]
  · simp only [movedBytes, if_true]
    rw [storeBytes_memcpy _ _ _ k _ n hplace]

/-! ## The copier -/

section Passes

variable {process : Option Process} {words : Words} {directory : Nat} {write : Bool}

/-- The state of a pass after `k` bytes: untouched in the preflight. -/
def passState (words : Words) (directory : Nat) (write copy : Bool) (address k : Nat)
    (st : CopyState) : CopyState :=
  if copy then movedBytes words directory write address k st else st

theorem copyPass_ok (copy : Bool) (address : Nat) (st : CopyState) :
    ∀ fuel remaining k, remaining ≤ fuel → address + k + remaining ≤ 2 ^ 32 →
      (∀ i, i < remaining → UserByte process words directory write (address + k + i)) →
      copyPass process words directory write copy fuel remaining ((address + k) % 2 ^ 32) k
          (passState words directory write copy address k st) =
        (.ok (), passState words directory write copy address (k + remaining) st) := by
  intro fuel
  induction fuel with
  | zero =>
    intro remaining k hf _ _
    obtain rfl : remaining = 0 := by omega
    rfl
  | succ fuel ih =>
    intro remaining k hf hwrap hgood
    cases remaining with
    | zero => rfl
    | succ remaining =>
      have hcur : (address + k) % 2 ^ 32 = address + k := Nat.mod_eq_of_lt (by omega)
      have hfirst := hgood 0 (by omega)
      rw [Nat.add_zero] at hfirst
      obtain ⟨n, he, hn, hle, hpage, -⟩ := taskUserFragment_ok
        (Nat.succ_pos remaining) hfirst
      have hstep : passState words directory write copy address (k + n) st =
          if copy then
            if write then { passState words directory write copy address k st with
              memory := memcpy (passState words directory write copy address k st).memory
                (physicalOf words directory write (address + k))
                (passState words directory write copy address k st).buffer k n }
            else { passState words directory write copy address k st with
              buffer := memcpy (passState words directory write copy address k st).buffer k
                (passState words directory write copy address k st).memory
                (physicalOf words directory write (address + k)) n }
          else passState words directory write copy address k st := by
        cases copy
        · rfl
        · exact movedBytes_fragment st hfirst.2 hpage
      rw [copyPass, hcur, he]
      simp only
      rw [← hstep, Nat.add_assoc address k n, ih (remaining + 1 - n) (k + n) (by omega) (by omega)]
      · rw [show k + n + (remaining + 1 - n) = k + (remaining + 1) by omega]
      · intro i hi
        have h := hgood (n + i) (by omega)
        rwa [show address + k + (n + i) = address + (k + n) + i by omega] at h

theorem copyPass_error (address : Nat) (st : CopyState) :
    ∀ fuel remaining k, remaining ≤ fuel → address + k + remaining ≤ 2 ^ 32 →
      (∃ i, i < remaining ∧ ¬ UserByte process words directory write (address + k + i)) →
      ∃ e, copyPass process words directory write false fuel remaining ((address + k) % 2 ^ 32) k
        st = (.error e, st) := by
  intro fuel
  induction fuel with
  | zero =>
    intro remaining k hf _ hbad
    obtain ⟨i, hi, -⟩ := hbad
    omega
  | succ fuel ih =>
    intro remaining k hf hwrap hbad
    obtain ⟨i, hi, hbad⟩ := hbad
    obtain ⟨remaining, rfl⟩ : ∃ r, remaining = r + 1 := ⟨remaining - 1, by omega⟩
    have hcur : (address + k) % 2 ^ 32 = address + k := Nat.mod_eq_of_lt (by omega)
    by_cases hfirst : UserByte process words directory write (address + k)
    · obtain ⟨n, he, hn, hle, -, hall⟩ := taskUserFragment_ok
        (Nat.succ_pos remaining) hfirst
      have hin : n ≤ i := by
        by_contra hlt
        exact hbad (hall i (by omega))
      rw [copyPass, hcur, he]
      simp only [Bool.false_eq_true, if_false]
      rw [Nat.add_assoc address k n]
      refine ih (remaining + 1 - n) (k + n) (by omega) (by omega) ⟨i - n, by omega, ?_⟩
      rwa [show address + (k + n) + (i - n) = address + k + i by omega]
    · obtain ⟨e, he⟩ := taskUserFragment_error (remaining + 1) hfirst
      refine ⟨e, ?_⟩
      rw [copyPass, hcur, he]

/-! ## The validator -/

theorem validateRegion_ok :
    ∀ fuel available size address, available ≤ fuel → available ≤ size → address + size ≤ 2 ^ 32 →
      (∀ i, i < available → ∃ p, pagingUserTranslate words directory (address + i) write = .ok p) →
      ∃ next, validateRegion words directory write fuel available size address =
          .ok (size - available, next) ∧ (size - available ≠ 0 → next = address + available) := by
  intro fuel
  induction fuel with
  | zero =>
    intro available size address hf _ _ _
    obtain rfl : available = 0 := by omega
    exact ⟨address, rfl, fun _ => rfl⟩
  | succ fuel ih =>
    intro available size address hf hle hwrap hgood
    cases available with
    | zero => exact ⟨address, rfl, fun _ => rfl⟩
    | succ available =>
      obtain ⟨p, hp⟩ := hgood 0 (by omega)
      rw [Nat.add_zero] at hp
      have hroom := page_room address
      set n := if pagingPageSize - address % pagingPageSize > available + 1 then available + 1
        else pagingPageSize - address % pagingPageSize with hn
      have hnpos : 0 < n := by rw [hn]; split_ifs <;> omega
      have hnle : n ≤ available + 1 := by rw [hn]; split_ifs <;> omega
      rw [validateRegion, hp]
      simp only [page_offset, ← hn]
      by_cases hsz : size - n ≠ 0
      · rw [if_pos hsz, Nat.mod_eq_of_lt (by omega)]
        obtain ⟨next, he, hnext⟩ := ih (available + 1 - n) (size - n) (address + n) (by omega)
          (by omega) (by omega) (by
            intro i hi
            have h := hgood (n + i) (by omega)
            rwa [← Nat.add_assoc] at h)
        refine ⟨next, ?_, fun h => ?_⟩
        · rw [he, show size - n - (available + 1 - n) = size - (available + 1) by omega]
        · rw [hnext (by omega)]
          omega
      · rw [if_neg hsz, show available + 1 - n = 0 by omega]
        refine ⟨address, ?_, fun h => ?_⟩
        · cases fuel <;> simp only [validateRegion] <;> congr 2 <;> omega
        · omega

theorem validateRegion_error :
    ∀ fuel available size address, available ≤ fuel → available ≤ size → address + size ≤ 2 ^ 32 →
      (∃ i, i < available ∧
        ¬ ∃ p, pagingUserTranslate words directory (address + i) write = .ok p) →
      ∃ e, validateRegion words directory write fuel available size address = .error e := by
  intro fuel
  induction fuel with
  | zero =>
    intro available size address hf _ _ hbad
    obtain ⟨i, hi, -⟩ := hbad
    omega
  | succ fuel ih =>
    intro available size address hf hle hwrap hbad
    obtain ⟨i, hi, hbad⟩ := hbad
    obtain ⟨available, rfl⟩ : ∃ r, available = r + 1 := ⟨available - 1, by omega⟩
    cases hp : pagingUserTranslate words directory address write with
    | error e => exact ⟨e, by rw [validateRegion, hp]⟩
    | ok p =>
      have hroom := page_room address
      set n := if pagingPageSize - address % pagingPageSize > available + 1 then available + 1
        else pagingPageSize - address % pagingPageSize with hn
      have hnle : n ≤ available + 1 := by rw [hn]; split_ifs <;> omega
      have hnpos : 0 < n := by rw [hn]; split_ifs <;> omega
      have hnpage : address % pagingPageSize + n ≤ pagingPageSize := by
        rw [hn]; split_ifs <;> omega
      -- the bytes of this fragment are mapped with its first one
      have hin : n ≤ i := by
        by_contra hlt
        exact hbad ⟨_, pagingUserTranslate_add hp (by omega)⟩
      rw [validateRegion, hp]
      simp only [page_offset, ← hn]
      rw [if_pos (by omega : size - n ≠ 0), Nat.mod_eq_of_lt (by omega)]
      refine ih (available + 1 - n) (size - n) (address + n) (by omega) (by omega) (by omega)
        ⟨i - n, by omega, ?_⟩
      rwa [show address + n + (i - n) = address + i by omega]

theorem validateLoop_iff :
    ∀ fuel size address, size ≤ fuel → address + size ≤ 2 ^ 32 →
      (validateLoop process words directory write fuel size address = .ok () ↔
        ∀ i, i < size → UserByte process words directory write (address + i)) := by
  intro fuel
  induction fuel with
  | zero =>
    intro size address hf _
    obtain rfl : size = 0 := by omega
    exact ⟨fun _ i hi => absurd hi (Nat.not_lt_zero i), fun _ => rfl⟩
  | succ fuel ih =>
    intro size address hf hwrap
    cases size with
    | zero => exact ⟨fun _ i hi => absurd hi (Nat.not_lt_zero i), fun _ => rfl⟩
    | succ size =>
      rw [validateLoop]
      cases hs : processUserSpan process address write with
      | error e =>
        constructor
        · intro h
          cases h
        · intro h
          obtain ⟨⟨n, hn⟩, -⟩ := h 0 (by omega)
          rw [Nat.add_zero, hs] at hn
          cases hn
      | ok available =>
        obtain ⟨hpos, hown⟩ := processUserSpan_add hs
        simp only
        set n := if available > size + 1 then size + 1 else available with hn
        have hnle : n ≤ size + 1 ∧ n ≤ available ∧ 0 < n := by rw [hn]; split_ifs <;> omega
        by_cases hmap : ∀ i, i < n → ∃ p, pagingUserTranslate words directory (address + i) write =
          .ok p
        · obtain ⟨next, he, hnext⟩ := validateRegion_ok n n (size + 1) address le_rfl
            hnle.1 hwrap hmap
          rw [he]
          simp only
          have hleft : validateLoop process words directory write fuel (size + 1 - n) next =
            .ok () ↔
              ∀ i, i < size + 1 - n → UserByte process words directory write (address + n + i) := by
            by_cases h0 : size + 1 - n = 0
            · rw [h0]
              exact ⟨fun _ i hi => absurd hi (Nat.not_lt_zero i), fun _ => by cases fuel <;> rfl⟩
            · rw [hnext h0]
              exact ih (size + 1 - n) (address + n) (by omega) (by omega)
          rw [hleft]
          constructor
          · intro h i hi
            by_cases hin : i < n
            · exact ⟨hown i (by omega), hmap i hin⟩
            · have h1 := h (i - n) (by omega)
              rwa [show address + n + (i - n) = address + i by omega] at h1
          · intro h i hi
            have h1 := h (n + i) (by omega)
            rwa [← Nat.add_assoc] at h1
        · push Not at hmap
          obtain ⟨i, hi, hbad⟩ := hmap
          obtain ⟨e, he⟩ := validateRegion_error n n (size + 1) address le_rfl
            hnle.1 hwrap ⟨i, hi, fun ⟨p, hp⟩ => hbad p hp⟩
          rw [he]
          constructor
          · intro h
            cases h
          · intro h
            obtain ⟨-, p, hp⟩ := h i (by omega)
            exact absurd hp (hbad p)

end Passes

/-! ## Both agree -/

/-- Every byte of the span is owned by the task and mapped for the access. -/
def SpanOwned (task : Option UserTask) (words : Words) (address size : Nat) (write : Bool) : Prop :=
  match task with
  | some ⟨process, some directory⟩ =>
      0 < size ∧ 0 < address ∧ address + size - 1 ≤ 2 ^ 32 - 1 ∧
        ∀ b, address ≤ b → b < address + size → UserByte process words directory write b
  | _ => False

theorem spanRefused_false {size : Nat} (ha : address < 2 ^ 32) :
    spanRefused address size = false ↔ 0 < size ∧ 0 < address ∧ address + size - 1 ≤
      2 ^ 32 - 1 := by
  unfold spanRefused
  simp only [Bool.or_eq_false_iff, decide_eq_false_iff_not]
  omega

theorem bytes_from {P : Nat → Prop} {size : Nat} :
    (∀ b, address ≤ b → b < address + size → P b) ↔ ∀ i, i < size → P (address + i) := by
  constructor
  · intro h i hi
    exact h (address + i) (by omega) (by omega)
  · intro h b h1 h2
    have h3 := h (b - address) (by omega)
    rwa [show address + (b - address) = b by omega] at h3

theorem taskValidateUserSpan_iff (task : Option UserTask) (words : Words) (size : Nat)
    (ha : address < 2 ^ 32) (write : Bool) :
    taskValidateUserSpan task words address size write = .ok () ↔
      SpanOwned task words address size write := by
  match task with
  | none => exact ⟨fun h => (by cases h), fun h => h.elim⟩
  | some ⟨none, none⟩ => exact ⟨fun h => (by cases h), fun h => h.elim⟩
  | some ⟨some _, none⟩ => exact ⟨fun h => (by cases h), fun h => h.elim⟩
  | some ⟨none, some _⟩ =>
    refine ⟨fun h => (by cases h), fun h => ?_⟩
    obtain ⟨⟨n, hn⟩, -⟩ := h.2.2.2 address le_rfl (by have h1 := h.1; omega)
    cases hn
  | some ⟨some process, some directory⟩ =>
    simp only [taskValidateUserSpan, SpanOwned]
    cases hr : spanRefused address size with
    | true =>
      simp only [if_true]
      refine ⟨fun h => (by cases h), fun h => ?_⟩
      have hf := (spanRefused_false ha).mpr ⟨h.1, h.2.1, h.2.2.1⟩
      rw [hr] at hf
      cases hf
    | false =>
      obtain ⟨h1, h2, h3⟩ := (spanRefused_false ha).mp hr
      simp only [Bool.false_eq_true, if_false]
      rw [validateLoop_iff size size address le_rfl (by omega), bytes_from]
      exact ⟨fun h => ⟨h1, h2, h3, h⟩, fun h => h.2.2.2⟩

/-- A copy succeeds on exactly the owned spans, moves exactly their bytes, and
changes nothing when it fails. -/
theorem taskCopyUser_spec (task : Option UserTask) (words : Words) (size : Nat)
    (ha : address < 2 ^ 32) (write : Bool) (st : CopyState) :
    (SpanOwned task words address size write ∧ ∃ process directory,
        task = some ⟨process, some directory⟩ ∧ taskCopyUser task words address size write st =
          (.ok (), movedBytes words directory write address size st)) ∨
    (¬ SpanOwned task words address size write ∧
        ∃ e, taskCopyUser task words address size write st = (.error e, st)) := by
  match task with
  | none => exact Or.inr ⟨fun h => h.elim, .einvarg, rfl⟩
  | some ⟨none, none⟩ => exact Or.inr ⟨fun h => h.elim, .einvarg, rfl⟩
  | some ⟨some _, none⟩ => exact Or.inr ⟨fun h => h.elim, .einvarg, rfl⟩
  | some ⟨none, some _⟩ =>
    refine Or.inr ⟨fun h => ?_, .einvarg, rfl⟩
    obtain ⟨⟨n, hn⟩, -⟩ := h.2.2.2 address le_rfl (by have h1 := h.1; omega)
    cases hn
  | some ⟨some process, some directory⟩ =>
    simp only [taskCopyUser, SpanOwned]
    cases hr : spanRefused address size with
    | true =>
      refine Or.inr ⟨fun h => ?_, .einvarg, by simp⟩
      have hf := (spanRefused_false ha).mpr ⟨h.1, h.2.1, h.2.2.1⟩
      rw [hr] at hf
      cases hf
    | false =>
      obtain ⟨h1, h2, h3⟩ := (spanRefused_false ha).mp hr
      have hcur : (address + 0) % 2 ^ 32 = address := by rw [Nat.add_zero, Nat.mod_eq_of_lt ha]
      rw [bytes_from]
      by_cases hall : ∀ i, i < size → UserByte (some process) words directory write (address + i)
      · refine Or.inl ⟨⟨h1, h2, h3, hall⟩, some process, directory, rfl, ?_⟩
        have hpre := copyPass_ok false address st size size 0 le_rfl (by omega) hall
        have hcopy := copyPass_ok true address st size size 0 le_rfl (by omega) hall
        simp only [passState, Bool.false_eq_true, if_false, if_true, Nat.zero_add, hcur,
          movedBytes_zero] at hpre hcopy
        simp only [Bool.false_eq_true, if_false, hpre, hcopy]
      · push Not at hall
        refine Or.inr ⟨fun h => ?_, ?_⟩
        · obtain ⟨i, hi, hbad⟩ := hall
          exact hbad (h.2.2.2 i hi)
        · obtain ⟨e, he⟩ := copyPass_error address st size size 0 le_rfl (by omega) hall
          rw [hcur] at he
          exact ⟨e, by simp only [Bool.false_eq_true, if_false, he]⟩

/-- The validator, the copier and the byte-wise test accept the same spans; a copy
that succeeds moves byte `i` to or from the translation of `address + i` and touches
nothing else, and one that fails changes nothing. -/
theorem user_copy_exact (task : Option UserTask) (words : Words) (address size : UInt32)
    (write : Bool) (st : CopyState) :
    (taskValidateUserSpan task words address.toNat size.toNat write = .ok () ↔
      SpanOwned task words address.toNat size.toNat write) ∧
    ((taskCopyUser task words address.toNat size.toNat write st).1 = .ok () ↔
      SpanOwned task words address.toNat size.toNat write) ∧
    (taskValidateUserSpan task words address.toNat size.toNat write = .ok () →
      ∀ n, 0 < n → n ≤ size.toNat → ∀ st',
        (taskCopyUser task words address.toNat n write st').1 = .ok ()) ∧
    ((taskCopyUser task words address.toNat size.toNat write st).1 = .ok () →
      ∃ process directory, task = some ⟨process, some directory⟩ ∧
        (taskCopyUser task words address.toNat size.toNat write st).2 =
          let place := fun i => physicalOf words directory write (address.toNat + i)
          if write then { st with memory := storeBytes place st.buffer size.toNat st.memory }
          else { st with buffer := fetchBytes place st.memory size.toNat st.buffer }) ∧
    ((taskCopyUser task words address.toNat size.toNat write st).1 ≠ .ok () →
      (taskCopyUser task words address.toNat size.toNat write st).2 = st) := by
  have ha := address.toNat_lt
  have hv := taskValidateUserSpan_iff task words size.toNat ha write
  have hcopy : ∀ n st', (taskCopyUser task words address.toNat n write st').1 = .ok () ↔
      SpanOwned task words address.toNat n write := by
    intro n st'
    rcases taskCopyUser_spec task words n ha write st' with ⟨ho, p, d, -, he⟩ | ⟨hno, e, he⟩
    · rw [he]
      exact ⟨fun _ => ho, fun _ => rfl⟩
    · rw [he]
      exact ⟨fun h => (by cases h), fun h => absurd h hno⟩
  refine ⟨hv, hcopy _ _, fun h n hn hle st' => ?_, fun h => ?_, fun h => ?_⟩
  · rw [hcopy]
    have ho := hv.mp h
    match task with
    | none => exact ho.elim
    | some ⟨_, none⟩ => exact ho.elim
    | some ⟨_, some _⟩ =>
      obtain ⟨h1, h2, h3, h4⟩ := ho
      exact ⟨hn, h2, by omega, fun b hb1 hb2 => h4 b hb1 (by omega)⟩
  · rcases taskCopyUser_spec task words size.toNat ha write st with ⟨-, p, d, ht, he⟩ | ⟨-, e, he⟩
    · exact ⟨p, d, ht, by rw [he]; rfl⟩
    · rw [he] at h
      cases h
  · rcases taskCopyUser_spec task words size.toNat ha write st with ⟨-, p, d, -, he⟩ | ⟨-, e, he⟩
    · rw [he] at h
      exact absurd rfl h
    · rw [he]

end Rorthox.Tasks
