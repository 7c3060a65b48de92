import Rorthox.Lib.Prog

/-!
# The user library's strtok

`programs/stdlib/src/string.c`: `strtok` over the program's memory and the pointer that it
keeps between calls. A byte the program has not got faults, so a call that comes through in
every memory with the bytes of its strings touches no others.
-/

namespace Rorthox.Programs

open Lib (Prog)
open Lib.Prog

/-- The bytes of the program, and `sp` of `string.c`. -/
structure Strings where
  mem : Nat → Option UInt8
  sp : Nat

inductive Stop where
  | fault
  | fuel

def Strings.set (s : Strings) (p : Nat) (b : UInt8) : Strings :=
  { s with mem := Function.update s.mem p (some b) }

def readByte (p : Nat) : Prog Strings Stop UInt8 := fun s =>
  match s.mem p with
  | some b => (.ok b, s)
  | none => (.error .fault, s)

def writeByte (p : Nat) (b : UInt8) : Prog Strings Stop Unit := fun s =>
  match s.mem p with
  | some _ => (.ok (), s.set p b)
  | none => (.error .fault, s)

def strlen : Nat → Nat → Nat → Prog Strings Stop Nat
  | 0, _, _ => raise .fuel
  | fuel + 1, ptr, i => do
      let c ← readByte ptr
      if c = 0 then pure i else strlen fuel (ptr + 1) (i + 1)

/-- The `for` loops over the delimiters: `i` at the `break`, or after the last turn. -/
def delimiterLoop (p delimiters : Nat) : Nat → Nat → Prog Strings Stop Nat
  | 0, i => pure i
  | left + 1, i => do
      let c ← readByte p
      let d ← readByte (delimiters + i)
      if c = d then pure i else delimiterLoop p delimiters left (i + 1)

/-- `while (1)`, moving `p_start`. -/
def skipLoop (delimiters len : Nat) : Nat → Nat → Prog Strings Stop Nat
  | 0, _ => raise .fuel
  | fuel + 1, pStart => do
      let i ← delimiterLoop pStart delimiters len 0
      if i = len then pure pStart else skipLoop delimiters len fuel (pStart + 1)

/-- `while (*sp != '\0')`, moving `sp`. -/
def cutLoop (delimiters len : Nat) : Nat → Prog Strings Stop Unit
  | 0 => raise .fuel
  | fuel + 1 => do
      let sp ← look (·.sp)
      let c ← readByte sp
      if c = 0 then pure () else do
        let i ← delimiterLoop sp delimiters len 0
        if i < len then writeByte sp 0
        change fun s => { s with sp := sp + 1 }
        if i < len then pure () else cutLoop delimiters len fuel

def strtok (fuel str delimiters : Nat) : Prog Strings Stop Nat := do
  let len ← strlen fuel delimiters 0
  let sp ← look (·.sp)
  if str = 0 ∧ sp = 0 then pure 0 else do
    let pStart ← skipLoop delimiters len fuel (if str ≠ 0 then str else sp)
    change fun s => { s with sp := pStart }
    let c ← readByte pStart
    if c = 0 then do
      change fun s => { s with sp := 0 }
      pure 0
    else do
      cutLoop delimiters len fuel
      pure pStart

/-! ## Strings in memory -/

/-- The NUL-terminated string at `p` is `l`. -/
def Spells (mem : Nat → Option UInt8) : Nat → List UInt8 → Prop
  | p, [] => mem p = some 0
  | p, c :: l => mem p = some c ∧ c ≠ 0 ∧ Spells mem (p + 1) l

instance (mem : Nat → Option UInt8) : ∀ p l, Decidable (Spells mem p l)
  | _, [] => inferInstanceAs (Decidable (_ = _))
  | p, _ :: l =>
      have : Decidable (Spells mem (p + 1) l) := instDecidableSpells mem (p + 1) l
      inferInstanceAs (Decidable (_ ∧ _ ∧ _))

namespace Spells

variable {mem : Nat → Option UInt8} {p : Nat} {l : List UInt8}

section

variable (h : Spells mem p l)
include h

theorem nonzero : 0 ∉ l := by
  induction l generalizing p with
  | nil => simp
  | cons c l ih =>
    simp only [List.mem_cons, not_or]
    exact ⟨fun h0 => h.2.1 h0.symm, ih h.2.2⟩

theorem first : mem p = some (l.headD 0) := by
  cases l with
  | nil => exact h
  | cons c l => exact h.1

theorem drop : ∀ {n : Nat}, n ≤ l.length → Spells mem (p + n) (l.drop n) := by
  intro n hn
  induction n with
  | zero => exact h
  | succ n ih =>
    have hlt : n < l.length := hn
    have h' := ih hlt.le
    rw [List.drop_eq_getElem_cons hlt] at h'
    exact h'.2.2

theorem dropWhile (f : UInt8 → Bool) : Spells mem (p + (l.takeWhile f).length) (l.dropWhile f) := by
  have hdrop : (l.takeWhile f ++ l.dropWhile f).drop (l.takeWhile f).length = l.dropWhile f :=
    List.drop_left
  rw [List.takeWhile_append_dropWhile] at hdrop
  rw [← hdrop]
  exact h.drop (List.takeWhile_sublist f).length_le

theorem unique {l' : List UInt8} (h' : Spells mem p l') : l = l' := by
  induction l generalizing p l' with
  | nil =>
    cases l' with
    | nil => rfl
    | cons c l' =>
      exact absurd (Option.some.inj (h'.1.symm.trans h)) h'.2.1
  | cons c l ih =>
    cases l' with
    | nil =>
      exact absurd (Option.some.inj (h.1.symm.trans h')) h.2.1
    | cons d l' =>
      rw [ih h.2.2 h'.2.2, Option.some.inj (h.1.symm.trans h'.1)]

/-- A NUL stored somewhere leaves a string where there was one. -/
theorem cut (q : Nat) : ∃ l', Spells (Function.update mem q (some 0)) p l' := by
  induction l generalizing p with
  | nil =>
    refine ⟨[], ?_⟩
    by_cases hq : p = q
    · simp [Spells, hq]
    · simpa [Spells, Function.update_of_ne hq] using h
  | cons c l ih =>
    by_cases hq : p = q
    · exact ⟨[], by simp [Spells, hq]⟩
    · obtain ⟨l', hl'⟩ := ih h.2.2
      exact ⟨c :: l', by rw [Function.update_of_ne hq, h.1], h.2.1, hl'⟩

end

end Spells

/-! ## The standard function -/

/-- What a call gives: the token's address, the byte that is cut, and where the next one goes on. -/
structure Cut where
  token : Nat
  cut : Option Nat
  saved : Nat

/-- Standard `strtok` on the string `str` at `p`: the leading delimiters are skipped, and the
token ends at the next one. -/
def cutString (p : Nat) (str delimiters : List UInt8) : Cut :=
  let lead := (str.takeWhile (· ∈ delimiters)).length
  let rest := str.dropWhile (· ∈ delimiters)
  let token := (rest.takeWhile (· ∉ delimiters)).length
  if rest = [] then ⟨0, none, 0⟩
  else if token < rest.length then ⟨p + lead, some (p + lead + token), p + lead + token + 1⟩
  else ⟨p + lead, none, p + lead + token⟩

open Classical in
/-- The string at `p`. -/
noncomputable def stringAt (mem : Nat → Option UInt8) (p : Nat) : List UInt8 :=
  if h : ∃ l, Spells mem p l then h.choose else []

variable {p : Nat} {l str : List UInt8} {s : Strings} {c : UInt8}

theorem Spells.stringAt_eq {mem : Nat → Option UInt8} (h : Spells mem p l) :
    stringAt mem p = l := by
  have hex : ∃ l, Spells mem p l := ⟨l, h⟩
  rw [stringAt, dif_pos hex]
  exact hex.choose_spec.unique h

/-- Where a call starts. -/
def Strings.start (s : Strings) (str : Nat) : Nat := if str ≠ 0 then str else s.sp

/-- `strtok` as the standard has it. -/
noncomputable def standardStrtok (str delimiters : Nat) (s : Strings) : Nat × Strings :=
  if s.start str = 0 then (0, s) else
    let r := cutString (s.start str) (stringAt s.mem (s.start str)) (stringAt s.mem delimiters)
    (r.token, { r.cut.elim s (s.set · 0) with sp := r.saved })

/-! ## The loops -/

theorem readByte_ok (h : s.mem p = some c) : readByte p s = (.ok c, s) := by
  rw [readByte, h]

theorem writeByte_ok (h : s.mem p = some c) (b : UInt8) :
    writeByte p b s = (.ok (), s.set p b) := by
  rw [writeByte, h]

theorem strlen_ok : ∀ {fuel ptr : Nat} (i : Nat), Spells s.mem ptr l →
    l.length < fuel → strlen fuel ptr i s = (.ok (i + l.length), s) := by
  induction l with
  | nil =>
    intro fuel ptr i h hf
    obtain ⟨fuel, rfl⟩ := Nat.exists_eq_succ_of_ne_zero (Nat.ne_of_gt hf)
    simp [strlen, bind_ok (readByte_ok h)]
  | cons c l ih =>
    intro fuel ptr i h hf
    obtain ⟨fuel, rfl⟩ := Nat.exists_eq_succ_of_ne_zero (Nat.ne_of_gt (Nat.zero_lt_of_lt hf))
    simp only [strlen, bind_ok (readByte_ok h.1), if_neg h.2.1]
    rw [ih (i + 1) h.2.2 (Nat.lt_of_succ_lt_succ hf), List.length_cons]
    congr 2
    omega

/-- The `for` loop finds the first delimiter that the byte is, if it is one. -/
theorem delimiterLoop_ok {delimiters : Nat} (hc : s.mem p = some c) {ds : List UInt8} :
    ∀ {i : Nat}, Spells s.mem (delimiters + i) ds →
    delimiterLoop p delimiters ds.length i s = (.ok (i + ds.idxOf c), s) := by
  induction ds with
  | nil =>
    intro i _
    rfl
  | cons d ds ih =>
    intro i h
    simp only [List.length_cons, delimiterLoop, bind_ok (readByte_ok hc), bind_ok (readByte_ok h.1)]
    by_cases hd : c = d
    · rw [if_pos hd, List.idxOf_cons_eq _ hd.symm]
      rfl
    · rw [if_neg hd, ih h.2.2, List.idxOf_cons_ne _ (Ne.symm hd)]
      congr 2
      omega

section Loops

variable {s : Strings} {delimiters : Nat} {ds : List UInt8} (hds : Spells s.mem delimiters ds)

include hds

theorem delimiterLoop_zero (hc : s.mem p = some c) :
    delimiterLoop p delimiters ds.length 0 s = (.ok (ds.idxOf c), s) := by
  rw [delimiterLoop_ok hc (i := 0) hds, Nat.zero_add]

/-- The first loop stops at the first byte that is no delimiter, the terminator at the latest. -/
theorem skipLoop_ok : ∀ {fuel p : Nat}, Spells s.mem p str → str.length < fuel →
    skipLoop delimiters ds.length fuel p s = (.ok (p + (str.takeWhile (· ∈ ds)).length), s) := by
  induction str with
  | nil =>
    intro fuel p h hf
    obtain ⟨fuel, rfl⟩ := Nat.exists_eq_succ_of_ne_zero (Nat.ne_of_gt hf)
    have hlast : ds.idxOf 0 = ds.length := List.idxOf_eq_length hds.nonzero
    simp [skipLoop, bind_ok (delimiterLoop_zero hds h), hlast]
  | cons c str ih =>
    intro fuel p h hf
    obtain ⟨fuel, rfl⟩ := Nat.exists_eq_succ_of_ne_zero (Nat.ne_of_gt (Nat.zero_lt_of_lt hf))
    simp only [skipLoop, bind_ok (delimiterLoop_zero hds h.1)]
    by_cases hc : c ∈ ds
    · rw [if_neg (Nat.ne_of_lt (List.idxOf_lt_length_of_mem hc)),
        ih h.2.2 (Nat.lt_of_succ_lt_succ hf),
        List.takeWhile_cons_of_pos (by simpa using hc), List.length_cons]
      congr 2
      omega
    · rw [if_pos (List.idxOf_eq_length hc), List.takeWhile_cons_of_neg (by simpa using hc)]
      rfl

/-- The second loop ends the token at the first delimiter, or at the end of the string. -/
theorem cutLoop_ok : ∀ {fuel p : Nat}, Spells s.mem p str → str.length < fuel →
    cutLoop delimiters ds.length fuel { s with sp := p } =
      (.ok (), if (str.takeWhile (· ∉ ds)).length < str.length then
          { s.set (p + (str.takeWhile (· ∉ ds)).length) 0 with
            sp := p + (str.takeWhile (· ∉ ds)).length + 1 }
        else { s with sp := p + (str.takeWhile (· ∉ ds)).length }) := by
  induction str with
  | nil =>
    intro fuel p h hf
    obtain ⟨fuel, rfl⟩ := Nat.exists_eq_succ_of_ne_zero (Nat.ne_of_gt hf)
    simp [cutLoop, bind_ok (look_apply _ _), bind_ok (readByte_ok (s := { s with sp := p }) h)]
  | cons c str ih =>
    intro fuel p h hf
    obtain ⟨fuel, rfl⟩ := Nat.exists_eq_succ_of_ne_zero (Nat.ne_of_gt (Nat.zero_lt_of_lt hf))
    have hread := readByte_ok (s := { s with sp := p }) h.1
    have hfind := delimiterLoop_zero (s := { s with sp := p }) hds h.1
    simp only [cutLoop, bind_ok (look_apply _ _), bind_ok hread, if_neg h.2.1, bind_ok hfind]
    by_cases hc : c ∈ ds
    · have hlt : ds.idxOf c < ds.length := List.idxOf_lt_length_of_mem hc
      rw [List.takeWhile_cons_of_neg (by simpa using hc)]
      simp only [if_pos hlt, bind_ok (writeByte_ok (s := { s with sp := p }) h.1 0),
        bind_ok (change_apply _ _)]
      simp [Strings.set]
    · have hlt : ¬ ds.idxOf c < ds.length := by
        rw [List.idxOf_eq_length hc]
        exact Nat.lt_irrefl _
      rw [List.takeWhile_cons_of_pos (by simpa using hc)]
      simp only [if_neg hlt, bind_ok (change_apply _ _)]
      rw [ih h.2.2 (Nat.lt_of_succ_lt_succ hf)]
      simp only [List.length_cons, Nat.add_lt_add_iff_right, Nat.add_assoc, Nat.add_comm 1]

end Loops

/-- One call. -/
theorem strtok_call {str delimiters : Nat} {ds : List UInt8}
    (hstr : s.start str ≠ 0 → Spells s.mem (s.start str) l) (hds : Spells s.mem delimiters ds)
    {fuel : Nat} (hl : l.length < fuel) (hfuel : ds.length < fuel) :
    strtok fuel str delimiters s = (.ok (standardStrtok str delimiters s).1,
      (standardStrtok str delimiters s).2) := by
  have hlen : strlen fuel delimiters 0 s = (.ok ds.length, s) := by
    rw [strlen_ok 0 hds hfuel, Nat.zero_add]
  simp only [strtok, bind_ok hlen, bind_ok (look_apply _ _)]
  by_cases hnull : s.start str = 0
  · have hboth : str = 0 ∧ s.sp = 0 := by
      by_cases h0 : str = 0
      · exact ⟨h0, by simpa [Strings.start, h0] using hnull⟩
      · simp [Strings.start, h0] at hnull
    rw [if_pos hboth, standardStrtok, if_pos hnull]
    rfl
  · have hspell := hstr hnull
    have hboth : ¬ (str = 0 ∧ s.sp = 0) := fun h => hnull (by simp [Strings.start, h.1, h.2])
    have hskip := skipLoop_ok hds hspell hl
    have hstart : (if str ≠ 0 then str else s.sp) = s.start str := rfl
    rw [if_neg hboth, hstart, bind_ok hskip, bind_ok (change_apply _ _), standardStrtok,
      if_neg hnull, hspell.stringAt_eq, hds.stringAt_eq]
    have hrest := hspell.dropWhile (· ∈ ds)
    have hread := readByte_ok (s := { s with sp := s.start str + (l.takeWhile (· ∈ ds)).length })
      hrest.first
    rw [bind_ok hread]
    cases hcase : l.dropWhile (· ∈ ds) with
    | nil => simp [cutString, hcase, bind_ok (change_apply _ _)]
    | cons c rest =>
      rw [hcase] at hrest
      have hshort : (c :: rest).length < fuel := by
        rw [← hcase]
        exact Nat.lt_of_le_of_lt (List.dropWhile_sublist _).length_le hl
      rw [List.headD_cons, if_neg hrest.2.1, bind_ok (cutLoop_ok hds hrest hshort),
        cutString, hcase, if_neg (List.cons_ne_nil c rest)]
      by_cases hcut : ((c :: rest).takeWhile (· ∉ ds)).length < (c :: rest).length
      · rw [if_pos hcut, if_pos hcut]
        rfl
      · rw [if_neg hcut, if_neg hcut]
        rfl

/-! ## Histories -/

/-- What a program does: calls, and stores of its own in between. -/
inductive Event where
  | call (str delimiters : Nat)
  | store (p : Nat) (b : UInt8)

/-- The tokens of the calls. -/
def runs (fuel : Nat) : List Event → Prog Strings Stop (List Nat)
  | [] => pure []
  | .store p b :: events => do
      change (·.set p b)
      runs fuel events
  | .call str delimiters :: events => do
      let token ← strtok fuel str delimiters
      let tokens ← runs fuel events
      pure (token :: tokens)

/-- The same with the standard function. -/
noncomputable def standardRuns : List Event → Strings → List Nat × Strings
  | [], s => ([], s)
  | .store p b :: events, s => standardRuns events (s.set p b)
  | .call str delimiters :: events, s =>
      let r := standardStrtok str delimiters s
      let rest := standardRuns events r.2
      (r.1 :: rest.1, rest.2)

/-- Every call is made with NUL-terminated strings: the delimiters, and the new string or what
is left of the old one. -/
def Proper : List Event → Strings → Prop
  | [], _ => True
  | .store p b :: events, s => Proper events (s.set p b)
  | .call str delimiters :: events, s =>
      (s.start str ≠ 0 → ∃ l, Spells s.mem (s.start str) l) ∧ (∃ ds, Spells s.mem delimiters ds) ∧
        Proper events (standardStrtok str delimiters s).2

theorem runs_standard {events : List Event} (h : Proper events s) : ∃ n, ∀ fuel, n ≤ fuel →
      runs fuel events s = (.ok (standardRuns events s).1, (standardRuns events s).2) := by
  induction events generalizing s with
  | nil => exact ⟨0, fun fuel _ => rfl⟩
  | cons e events ih =>
    cases e with
    | store p b =>
      obtain ⟨n, hn⟩ := ih h
      refine ⟨n, fun fuel hfuel => ?_⟩
      rw [runs, bind_ok (change_apply _ _), hn fuel hfuel, standardRuns]
    | call str delimiters =>
      obtain ⟨hstr, ⟨ds, hds⟩, hrest⟩ := h
      obtain ⟨n, hn⟩ := ih hrest
      obtain ⟨l, hl⟩ : ∃ l, s.start str ≠ 0 → Spells s.mem (s.start str) l := by
        by_cases h0 : s.start str = 0
        · exact ⟨[], fun h => absurd h0 h⟩
        · obtain ⟨l, hl⟩ := hstr h0
          exact ⟨l, fun _ => hl⟩
      refine ⟨max n (max l.length ds.length + 1), fun fuel hfuel => ?_⟩
      have hcall := strtok_call hl hds (show l.length < fuel by omega) (by omega)
      rw [runs, bind_ok hcall, bind_ok (hn fuel (by omega)), standardRuns]
      rfl

/-- What is left of the string is a string. -/
theorem cutString_saved {mem : Nat → Option UInt8} (h : Spells mem p str) (ds : List UInt8) :
    (cutString p str ds).saved ≠ 0 → ∃ l, Spells mem (cutString p str ds).saved l := by
  have hrest := h.dropWhile (· ∈ ds)
  have htoken : ((str.dropWhile (· ∈ ds)).takeWhile (· ∉ ds)).length ≤
    (str.dropWhile (· ∈ ds)).length :=
    (List.takeWhile_sublist _).length_le
  intro hsaved
  simp only [cutString] at hsaved ⊢
  split_ifs at hsaved ⊢ with hnil hcut
  · exact absurd rfl hsaved
  · exact ⟨_, hrest.drop hcut⟩
  · exact ⟨_, hrest.drop htoken⟩

/-- A call leaves strings where there were some. -/
theorem standardStrtok_spells (str delimiters : Nat) {q : Nat} (h : ∃ l, Spells s.mem q l) :
    ∃ l, Spells (standardStrtok str delimiters s).2.mem q l := by
  obtain ⟨l, hl⟩ := h
  rw [standardStrtok]
  split
  · exact ⟨l, hl⟩
  · generalize cutString _ _ _ = r
    obtain ⟨token, cut, saved⟩ := r
    cases cut with
    | none => exact ⟨l, hl⟩
    | some e => exact hl.cut e

/-- Strings that are there from the beginning serve in any number of calls. -/
theorem proper_calls {events : List Event}
    (hevents : ∀ e ∈ events, ∃ str delimiters, e = .call str delimiters ∧
      (str ≠ 0 → ∃ l, Spells s.mem str l) ∧ ∃ ds, Spells s.mem delimiters ds)
    (hsp : s.sp ≠ 0 → ∃ l, Spells s.mem s.sp l) : Proper events s := by
  induction events generalizing s with
  | nil => trivial
  | cons e events ih =>
    obtain ⟨str, delimiters, rfl, hstr, hds⟩ := hevents e List.mem_cons_self
    have hstart : s.start str ≠ 0 → ∃ l, Spells s.mem (s.start str) l := by
      by_cases h0 : str = 0
      · simpa [Strings.start, h0] using hsp
      · simpa [Strings.start, h0] using hstr h0
    refine ⟨hstart, hds, ih (fun e he => ?_) fun hne => ?_⟩
    · obtain ⟨str', delimiters', rfl, hstr', hds'⟩ := hevents e (List.mem_cons_of_mem _ he)
      exact ⟨str', delimiters', rfl, fun h0 => standardStrtok_spells _ _ (hstr' h0),
        standardStrtok_spells _ _ hds'⟩
    · refine standardStrtok_spells _ _ ?_
      rw [standardStrtok] at hne ⊢
      split at hne
      · next h0 =>
        rw [if_pos h0]
        exact hsp hne
      · next h0 =>
        rw [if_neg h0]
        obtain ⟨l, hl⟩ := hstart h0
        rw [hl.stringAt_eq] at hne ⊢
        exact cutString_saved hl _ hne

/-- The library's `strtok` is the standard one, over every history.

With enough turns for the strings every call ends without a fault, and the tokens, all bytes of
the memory and the saved pointer are those of the standard function. The memory need have no
byte but those of the strings up to their terminators. Without stores in between it is enough
that the strings are NUL-terminated in the beginning. -/
theorem strtok_standard (events : List Event) (s : Strings) :
    (Proper events s → ∃ n, ∀ fuel, n ≤ fuel →
      runs fuel events s = (.ok (standardRuns events s).1, (standardRuns events s).2)) ∧
    ((∀ e ∈ events, ∃ str delimiters, e = .call str delimiters ∧
        (str ≠ 0 → ∃ l, Spells s.mem str l) ∧ ∃ ds, Spells s.mem delimiters ds) →
      (s.sp ≠ 0 → ∃ l, Spells s.mem s.sp l) → Proper events s) :=
  ⟨runs_standard, proper_calls⟩

/-- The bytes of "a b" and of " ", and none besides. -/
def sampleStrings : Strings where
  mem p := [(8, 97), (9, 32), (10, 98), (11, 0), (16, 32), (17, 0)].lookup p
  sp := 0

/-- Two tokens, and no third one. -/
theorem strtok_standard_sample :
    ∃ n, ∀ fuel, n ≤ fuel → runs fuel [.call 8 16, .call 0 16, .call 0 16] sampleStrings =
      (.ok (standardRuns [.call 8 16, .call 0 16, .call 0 16] sampleStrings).1,
        (standardRuns [.call 8 16, .call 0 16, .call 0 16] sampleStrings).2) := by
  have h := strtok_standard [.call 8 16, .call 0 16, .call 0 16] sampleStrings
  have hdelims : ∃ ds, Spells sampleStrings.mem 16 ds := ⟨[32], by decide⟩
  refine h.1 (h.2 (fun e he => ?_) fun h0 => absurd rfl h0)
  simp only [List.mem_cons, List.not_mem_nil, or_false] at he
  rcases he with rfl | rfl | rfl
  · exact ⟨8, 16, rfl, fun _ => ⟨[97, 32, 98], by decide⟩, hdelims⟩
  · exact ⟨0, 16, rfl, fun h0 => absurd rfl h0, hdelims⟩
  · exact ⟨0, 16, rfl, fun h0 => absurd rfl h0, hdelims⟩

end Rorthox.Programs
