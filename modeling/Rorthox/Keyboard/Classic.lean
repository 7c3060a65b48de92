import Rorthox.Keyboard.Queue

/-!
# The PS/2 decoder

`kernel/keyboard/classic.c`: one scancode byte per interrupt. A byte means a key, or is the
one behind an E0, or one of the two behind an E1; Shift, Caps Lock and Num Lock change what
a key gives.
-/

namespace Rorthox.Keyboard

/-! ## The tables -/

def chr (c : Char) : UInt8 := UInt8.ofNat c.toNat

def regularScancodes : List (UInt8 × Char) :=
  [(0x01, '\x1b'),
    (0x02, '1'), (0x03, '2'), (0x04, '3'), (0x05, '4'), (0x06, '5'), (0x07, '6'), (0x08, '7'),
    (0x09, '8'), (0x0A, '9'), (0x0B, '0'), (0x0C, '-'), (0x0D, '='), (0x0E, '\x08'), (0x0F, '\t'),
    (0x10, 'q'), (0x11, 'w'), (0x12, 'e'), (0x13, 'r'), (0x14, 't'), (0x15, 'y'), (0x16, 'u'),
    (0x17, 'i'), (0x18, 'o'), (0x19, 'p'), (0x1A, '['), (0x1B, ']'), (0x1C, '\r'), (0x1E, 'a'),
    (0x1F, 's'), (0x20, 'd'), (0x21, 'f'), (0x22, 'g'), (0x23, 'h'), (0x24, 'j'), (0x25, 'k'),
    (0x26, 'l'), (0x27, ';'), (0x28, '\x27'), (0x29, '\x60'), (0x2B, '\x5c'), (0x2C, 'z'),
    (0x2D, 'x'), (0x2E, 'c'), (0x2F, 'v'), (0x30, 'b'), (0x31, 'n'), (0x32, 'm'), (0x33, ','),
    (0x34, '.'), (0x35, '/'), (0x37, '*'), (0x39, ' '), (0x47, '7'), (0x48, '8'), (0x49, '9'),
    (0x4A, '-'), (0x4B, '4'), (0x4C, '5'), (0x4D, '6'), (0x4E, '+'), (0x4F, '1'), (0x50, '2'),
    (0x51, '3'), (0x52, '0'), (0x53, '.')]

def uppercaseScancodes : List (UInt8 × Char) :=
  [(0x01, '\x1b'),
    (0x02, '1'), (0x03, '2'), (0x04, '3'), (0x05, '4'), (0x06, '5'), (0x07, '6'), (0x08, '7'),
    (0x09, '8'), (0x0A, '9'), (0x0B, '0'), (0x0C, '-'), (0x0D, '='), (0x0E, '\x08'), (0x0F, '\t'),
    (0x10, 'Q'), (0x11, 'W'), (0x12, 'E'), (0x13, 'R'), (0x14, 'T'), (0x15, 'Y'), (0x16, 'U'),
    (0x17, 'I'), (0x18, 'O'), (0x19, 'P'), (0x1A, '['), (0x1B, ']'), (0x1C, '\r'), (0x1E, 'A'),
    (0x1F, 'S'), (0x20, 'D'), (0x21, 'F'), (0x22, 'G'), (0x23, 'H'), (0x24, 'J'), (0x25, 'K'),
    (0x26, 'L'), (0x27, ';'), (0x28, '\x27'), (0x29, '\x60'), (0x2B, '\x5c'), (0x2C, 'Z'),
    (0x2D, 'X'), (0x2E, 'C'), (0x2F, 'V'), (0x30, 'B'), (0x31, 'N'), (0x32, 'M'), (0x33, ','),
    (0x34, '.'), (0x35, '/'), (0x37, '*'), (0x39, ' '), (0x47, '7'), (0x48, '8'), (0x49, '9'),
    (0x4A, '-'), (0x4B, '4'), (0x4C, '5'), (0x4D, '6'), (0x4E, '+'), (0x4F, '1'), (0x50, '2'),
    (0x51, '3'), (0x52, '0'), (0x53, '.')]

def shiftModifiedScancodes : List (UInt8 × Char) :=
  [(0x01, '\x1b'),
    (0x02, '!'), (0x03, '@'), (0x04, '#'), (0x05, '$'), (0x06, '%'), (0x07, '^'), (0x08, '&'),
    (0x09, '*'), (0x0A, '('), (0x0B, ')'), (0x0C, '_'), (0x0D, '+'), (0x0E, '\x08'), (0x0F, '\t'),
    (0x10, 'Q'), (0x11, 'W'), (0x12, 'E'), (0x13, 'R'), (0x14, 'T'), (0x15, 'Y'), (0x16, 'U'),
    (0x17, 'I'), (0x18, 'O'), (0x19, 'P'), (0x1A, '\x7b'), (0x1B, '\x7d'), (0x1C, '\r'),
    (0x1E, 'A'), (0x1F, 'S'), (0x20, 'D'), (0x21, 'F'), (0x22, 'G'), (0x23, 'H'), (0x24, 'J'),
    (0x25, 'K'), (0x26, 'L'), (0x27, ':'), (0x28, '\x22'), (0x29, '~'), (0x2B, '|'), (0x2C, 'Z'),
    (0x2D, 'X'), (0x2E, 'C'), (0x2F, 'V'), (0x30, 'B'), (0x31, 'N'), (0x32, 'M'), (0x33, '<'),
    (0x34, '>'), (0x35, '?'), (0x37, '*'), (0x39, ' '), (0x47, '7'), (0x48, '8'), (0x49, '9'),
    (0x4A, '-'), (0x4B, '4'), (0x4C, '5'), (0x4D, '6'), (0x4E, '+'), (0x4F, '1'), (0x50, '2'),
    (0x51, '3'), (0x52, '0'), (0x53, '.')]

/-! The values of the navigation keys, as `config.mk` sets them. -/

def keyUp : UInt16 := 0x100
def keyDown : UInt16 := 0x101
def keyLeft : UInt16 := 0x102
def keyRight : UInt16 := 0x103
def keyHome : UInt16 := 0x104
def keyEnd : UInt16 := 0x105
def keyInsert : UInt16 := 0x106
def keyDelete : UInt16 := 0x107
def keyPageUp : UInt16 := 0x108
def keyPageDown : UInt16 := 0x109

/-- Keys that only exist behind an E0. -/
def extendedScancodes : List (UInt8 × UInt16) :=
  [(0x1C, 0x0D), (0x35, (chr '/').toUInt16), (0x48, keyUp), (0x50, keyDown), (0x4B, keyLeft),
    (0x4D, keyRight), (0x47, keyHome), (0x4F, keyEnd), (0x52, keyInsert), (0x53, keyDelete),
    (0x49, keyPageUp), (0x51, keyPageDown)]

/-! ## The decoder -/

def capslockCode : UInt8 := 0x3A
def lshiftCode : UInt8 := 0x2A
def rshiftCode : UInt8 := 0x36
def numlockCode : UInt8 := 0x45
def extendedCode : UInt8 := 0xE0
def pauseCode : UInt8 := 0xE1

/-- `CLASSIC_KEYBOARD_KEY_RELEASED`. -/
def released : UInt8 := 0x80

/-- The driver's own state. -/
structure Classic where
  capslock : Bool
  lshift : Bool
  rshift : Bool
  extended : Bool
  pauseBytesLeft : Nat
  numlock : Bool
  numlockDown : Bool

/-- As `classic_keyboard_init` leaves it. -/
def classicKeyboardInit : Classic := ⟨false, false, false, false, 0, true, false⟩

def classicKeyboardScancodeToChar (s : Classic) (scancode : UInt8) : UInt8 :=
  let shift := s.lshift || s.rshift
  let table := if shift then shiftModifiedScancodes
    else if s.capslock then uppercaseScancodes else regularScancodes
  match table.lookup scancode with
  | none => 0
  | some c => if shift ∧ s.capslock ∧ 'A' ≤ c ∧ c ≤ 'Z' then chr c + 32 else chr c

def classicKeyboardIsKeypadDigit (scancode : UInt8) : Bool :=
  0x47 ≤ scancode && scancode ≤ 0x53 && scancode ≠ 0x4A && scancode ≠ 0x4E

/-- The keys pushed for the byte behind an E0. -/
def classicKeyboardHandleExtended (scancode : UInt8) : List UInt16 :=
  if scancode &&& released ≠ 0 then [] else (extendedScancodes.lookup scancode).toList

/-- The `switch` over the lock and Shift keys. -/
def classicKeyboardModify (scancode : UInt8) (s : Classic) : Classic :=
  if scancode = numlockCode then
    { s with numlock := if s.numlockDown then s.numlock else !s.numlock, numlockDown := true }
  else if scancode = 0xC5 then { s with numlockDown := false }
  else if scancode = capslockCode then { s with capslock := !s.capslock }
  else if scancode = lshiftCode then { s with lshift := true }
  else if scancode = 0xAA then { s with lshift := false }
  else if scancode = rshiftCode then { s with rshift := true }
  else if scancode = 0xB6 then { s with rshift := false }
  else s

/-- The byte of a key, with the keys that are pushed for it. -/
def classicKeyboardKey (scancode : UInt8) (s : Classic) : List UInt16 :=
  let suppressed := !s.numlock && classicKeyboardIsKeypadDigit scancode
  if scancode &&& released = 0 ∧ ¬ suppressed then
    let c := classicKeyboardScancodeToChar s scancode
    if c ≠ 0 then [c.toUInt16] else []
  else []

/-- One interrupt: the state afterwards and the keys that were pushed. -/
def classicKeyboardHandleInterrupt (scancode : UInt8) (s : Classic) : Classic × List UInt16 :=
  if 0 < s.pauseBytesLeft then ({ s with pauseBytesLeft := s.pauseBytesLeft - 1 }, [])
  else if s.extended then ({ s with extended := false }, classicKeyboardHandleExtended scancode)
  else if scancode = extendedCode then ({ s with extended := true }, [])
  else if scancode = pauseCode then ({ s with pauseBytesLeft := 2 }, [])
  else
    let s := classicKeyboardModify scancode s
    (s, classicKeyboardKey scancode s)

/-- The interrupts for a list of bytes. -/
def interrupts : List UInt8 → Classic → Classic × List UInt16
  | [], s => (s, [])
  | b :: bytes, s =>
      let first := classicKeyboardHandleInterrupt b s
      let rest := interrupts bytes first.1
      (rest.1, first.2 ++ rest.2)

/-- The same with the queues: every key goes to `keyboard_push`. -/
def keyboardInterrupt (scancode : UInt8) (s : Classic × Keyboards) : Classic × Keyboards :=
  let r := classicKeyboardHandleInterrupt scancode s.1
  (r.1, r.2.foldl (fun q c => keyboardPush c q) s.2)

theorem keyboardInterrupt_run (bytes : List UInt8) : ∀ (s : Classic) (q : Keyboards),
    bytes.foldl (fun s b => keyboardInterrupt b s) (s, q) =
      ((interrupts bytes s).1, (interrupts bytes s).2.foldl (fun q c => keyboardPush c q) q) := by
  induction bytes with
  | nil => intro s q; rfl
  | cons b bytes ih =>
    intro s q
    rw [List.foldl_cons, keyboardInterrupt, ih, interrupts, List.foldl_append]

theorem interrupts_append (a b : List UInt8) : ∀ s : Classic,
    interrupts (a ++ b) s =
      ((interrupts b (interrupts a s).1).1, (interrupts a s).2 ++
        (interrupts b (interrupts a s).1).2) := by
  induction a with
  | nil => intro s; rfl
  | cons c a ih =>
    intro s
    rw [List.cons_append, interrupts, ih, interrupts, List.append_assoc]

/-! ## Sequences -/

/-- A well-formed sequence: the byte of a key, an E0 with a byte, or an E1 with two. -/
inductive Sequence where
  | key (b : UInt8) (hb : b ≠ extendedCode ∧ b ≠ pauseCode)
  | extended (b : UInt8)
  | pause (b c : UInt8)

def Sequence.bytes : Sequence → List UInt8
  | .key b _ => [b]
  | .extended b => [extendedCode, b]
  | .pause b c => [pauseCode, b, c]

/-- Out of any prefix. -/
def Classic.Ready (s : Classic) : Prop := s.extended = false ∧ s.pauseBytesLeft = 0

/-- What a sequence does to the modifiers. -/
def Sequence.modify : Sequence → Classic → Classic
  | .key b _, s => classicKeyboardModify b s
  | _, s => s

/-- The keys of a sequence, by the state before it. -/
def Sequence.keys : Sequence → Classic → List UInt16
  | .key b _, s => classicKeyboardKey b (classicKeyboardModify b s)
  | .extended b, _ => classicKeyboardHandleExtended b
  | .pause _ _, _ => []

theorem modify_ready {s : Classic} (h : s.Ready) (b : UInt8) :
    (classicKeyboardModify b s).Ready := by
  unfold classicKeyboardModify
  repeat' split
  all_goals exact h

/-- A sequence goes through as a whole. -/
theorem Sequence.run (q : Sequence) {s : Classic} (h : s.Ready) :
    interrupts q.bytes s = (q.modify s, q.keys s) ∧ (q.modify s).Ready := by
  obtain ⟨capslock, lshift, rshift, extended, left, numlock, down⟩ := s
  obtain ⟨rfl, rfl⟩ := h
  cases q with
  | key b hb =>
    refine ⟨?_, modify_ready ⟨rfl, rfl⟩ b⟩
    simp [Sequence.bytes, interrupts, classicKeyboardHandleInterrupt, hb.1, hb.2, Sequence.modify,
      Sequence.keys]
  | extended b =>
    refine ⟨?_, rfl, rfl⟩
    simp [Sequence.bytes, interrupts, classicKeyboardHandleInterrupt, Sequence.modify,
      Sequence.keys]
  | pause b c =>
    refine ⟨?_, rfl, rfl⟩
    simp [Sequence.bytes, interrupts, classicKeyboardHandleInterrupt, Sequence.modify,
      Sequence.keys, pauseCode, extendedCode]

/-- The state after some sequences. -/
def after (s : Classic) (h : List Sequence) : Classic := h.foldl (fun s q => q.modify s) s

theorem after_append (s : Classic) (h : List Sequence) (q : Sequence) :
    after s (h ++ [q]) = q.modify (after s h) := by
  simp [after]

theorem after_ready {s : Classic} (hs : s.Ready) (h : List Sequence) : (after s h).Ready := by
  induction h using List.reverseRecOn with
  | nil => exact hs
  | append_singleton h q ih =>
    rw [after_append]
    exact (q.run ih).2

/-- The keys of a stream, sequence by sequence. -/
theorem interrupts_sequences {s : Classic} (hs : s.Ready) (h : List Sequence) :
    interrupts (h.flatMap Sequence.bytes) s =
      (after s h, h.zipIdx.flatMap fun x => x.1.keys (after s (h.take x.2))) := by
  induction h using List.reverseRecOn with
  | nil => rfl
  | append_singleton h q ih =>
    have hlast := (q.run (after_ready hs h)).1
    have hkeys : ∀ x ∈ h.zipIdx, (h ++ [q]).take x.2 = h.take x.2 := by
      intro x hx
      have hlt := List.snd_lt_of_mem_zipIdx hx
      rw [Nat.add_zero] at hlt
      rw [List.take_append_of_le_length hlt.le]
    rw [List.flatMap_append, interrupts_append, ih, List.flatMap_singleton, hlast, after_append,
      List.zipIdx_append, List.flatMap_append]
    congr 2
    · exact List.flatMap_congr fun x hx => by rw [hkeys x hx]
    · simp

/-! ## Makes and breaks -/

/-- The make or break of a key in a sequence; behind a prefix it is none. -/
def Sequence.event (code : UInt8) : Sequence → Option Bool
  | .key b _ => if b = code then some true else if b = code ||| released then some false else none
  | _ => none

/-- The makes (`true`) and breaks of a key. -/
def keyEvents (code : UInt8) (h : List Sequence) : List Bool := h.filterMap (Sequence.event code)

/-- Makes that follow no make: held keys repeat theirs. `down` is whether the key is held before. -/
def presses : Bool → List Bool → Nat
  | _, [] => 0
  | down, make :: events => (if make && !down then 1 else 0) + presses make events

theorem presses_append (down : Bool) (events : List Bool) (make : Bool) :
    presses down (events ++ [make]) =
      presses down events + if make && !(events.getLastD down) then 1 else 0 := by
  induction events generalizing down with
  | nil => simp [presses]
  | cons e events ih =>
    rw [List.cons_append, presses, ih, presses, Nat.add_assoc, List.getLastD_cons]

theorem keyEvents_append (code : UInt8) (h : List Sequence) (q : Sequence) :
    keyEvents code (h ++ [q]) = keyEvents code h ++ (q.event code).toList := by
  rw [keyEvents, List.filterMap_append, keyEvents]
  cases hq : q.event code <;> simp [hq]

theorem lshift_break : lshiftCode ||| released = 0xAA := rfl
theorem rshift_break : rshiftCode ||| released = 0xB6 := rfl
theorem numlock_break : numlockCode ||| released = 0xC5 := rfl

/-- A sequence changes the modifiers by its makes and breaks alone. -/
theorem Sequence.modify_eq (q : Sequence) (s : Classic) :
    q.modify s =
      { s with
        lshift := (q.event lshiftCode).getD s.lshift
        rshift := (q.event rshiftCode).getD s.rshift
        numlockDown := (q.event numlockCode).getD s.numlockDown
        numlock := if q.event numlockCode = some true ∧ s.numlockDown =
          false then !s.numlock else s.numlock
        capslock := if q.event capslockCode = some true then !s.capslock else s.capslock } := by
  cases q with
  | key b hb =>
    simp only [Sequence.modify, classicKeyboardModify, Sequence.event, lshift_break, rshift_break,
      numlock_break]
    split_ifs <;> simp_all [lshiftCode, rshiftCode, numlockCode, capslockCode]
  | extended _ | pause _ _ => simp [Sequence.modify, Sequence.event]

/-- The modifiers after a stream, by the makes and breaks in it. -/
structure Tracks (s₀ : Classic) (h : List Sequence) (s : Classic) : Prop where
  lshift : s.lshift = (keyEvents lshiftCode h).getLastD s₀.lshift
  rshift : s.rshift = (keyEvents rshiftCode h).getLastD s₀.rshift
  numlockDown : s.numlockDown = (keyEvents numlockCode h).getLastD s₀.numlockDown
  numlock : s.numlock = (not^[presses s₀.numlockDown (keyEvents numlockCode h)]) s₀.numlock
  capslock : s.capslock = (not^[(keyEvents capslockCode h).count true]) s₀.capslock

theorem getLastD_toList (l : List Bool) (o : Option Bool) (d : Bool) :
    (l ++ o.toList).getLastD d = o.getD (l.getLastD d) := by
  cases o <;> simp [List.getLastD_eq_getLast?]

theorem after_tracks (s : Classic) (h : List Sequence) : Tracks s h (after s h) := by
  induction h using List.reverseRecOn with
  | nil => exact ⟨rfl, rfl, rfl, rfl, rfl⟩
  | append_singleton h q ih =>
    rw [after_append, q.modify_eq]
    constructor
    · simp only [keyEvents_append, getLastD_toList, ih.lshift]
    · simp only [keyEvents_append, getLastD_toList, ih.rshift]
    · simp only [keyEvents_append, getLastD_toList, ih.numlockDown]
    · simp only [keyEvents_append, ih.numlock, ih.numlockDown]
      cases hq : q.event numlockCode with
      | none => simp
      | some make =>
        simp only [Option.toList_some, presses_append]
        cases make <;> cases (keyEvents numlockCode h).getLastD s.numlockDown <;>
          simp [Function.iterate_succ_apply']
    · simp only [keyEvents_append, ih.capslock]
      cases hq : q.event capslockCode with
      | none => simp
      | some make => cases make <;> simp [Function.iterate_succ_apply']

/-! ## What a key gives -/

/-- The character of a key: letters are capital when exactly one of Shift and Caps Lock is on,
Shift alone changes the others, and the keypad's digits need Num Lock. -/
def translate (shift caps num : Bool) (scancode : UInt8) : Option Char :=
  if classicKeyboardIsKeypadDigit scancode ∧ ¬ num then none
  else
    match regularScancodes.lookup scancode with
    | none => none
    | some c =>
        if c.isLower then some (if shift ≠ caps then c.toUpper else c)
        else if shift then shiftModifiedScancodes.lookup scancode
        else some c

/-- The keys of a sequence with the modifiers as they are. -/
def Sequence.meaning (shift caps num : Bool) : Sequence → List UInt16
  | .key b _ =>
    if b &&& released = 0 then ((translate shift caps num b).map fun c =>
      (chr c).toUInt16).toList else []
  | .extended b => if b &&& released = 0 then (extendedScancodes.lookup b).toList else []
  | .pause _ _ => []

theorem key_table : ∀ (b : UInt8) (caps lshift rshift num : Bool),
    classicKeyboardKey b ⟨caps, lshift, rshift, false, 0, num, false⟩ =
      if b &&& released = 0 then
        ((translate (lshift || rshift) caps num b).map fun c => (chr c).toUInt16).toList else
          [] := by
  decide +kernel

/-- The bytes of the modifiers give no key, so the state before them serves as well. -/
theorem modifier_silent : ∀ b ∈ ([0x45, 0xC5, 0x3A, 0x2A, 0xAA, 0x36, 0xB6] : List UInt8),
    ∀ shift caps num : Bool, (if b &&& released = 0 then
      ((translate shift caps num b).map fun c => (chr c).toUInt16).toList else []) = [] := by
  decide +kernel

theorem Sequence.keys_eq (q : Sequence) (s : Classic) :
    q.keys s = q.meaning (s.lshift || s.rshift) s.capslock s.numlock := by
  cases q with
  | key b hb =>
    have htable : ∀ t : Classic, classicKeyboardKey b t = Sequence.meaning (t.lshift || t.rshift)
      t.capslock t.numlock
        (.key b hb) := fun t => key_table b t.capslock t.lshift t.rshift t.numlock
    rw [Sequence.keys, htable]
    by_cases hmem : b ∈ ([0x45, 0xC5, 0x3A, 0x2A, 0xAA, 0x36, 0xB6] : List UInt8)
    · rw [Sequence.meaning, modifier_silent b hmem, Sequence.meaning, modifier_silent b hmem]
    · have hsame : classicKeyboardModify b s = s := by
        simp only [List.mem_cons, List.not_mem_nil, or_false, not_or] at hmem
        simp [classicKeyboardModify, numlockCode, capslockCode, lshiftCode, rshiftCode, hmem]
      rw [hsame]
  | extended b =>
    by_cases hb : b &&& released = 0
    · simp [Sequence.keys, Sequence.meaning, classicKeyboardHandleExtended, hb]
    · simp [Sequence.keys, Sequence.meaning, classicKeyboardHandleExtended, hb]
  | pause b c => rfl

/-! ## Streams -/

/-- The driver after a stream from its initialisation. -/
def stateAfter (h : List Sequence) : Classic :=
  (interrupts (h.flatMap Sequence.bytes) classicKeyboardInit).1

/-- The last make or break of the key was a make. -/
def held (code : UInt8) (h : List Sequence) : Bool := (keyEvents code h).getLastD false

/-- Num Lock is on at first and flipped with every press. -/
def numAfter (h : List Sequence) : Bool := (not^[presses false (keyEvents numlockCode h)]) true

/-- Framing of the scancodes.

After every stream of well-formed sequences the decoder is out of any prefix, a Shift counts
as held when its last unprefixed make or break was a make, Num Lock has been flipped once per
press, and the queues have been given the keys of the sequences in order: those of unprefixed
makes by the modifiers as they were then, those behind an E0 whatever they were. -/
theorem scancode_framing (h : List Sequence) (queues : Keyboards) :
    (stateAfter h).Ready ∧
    (stateAfter h).lshift = held lshiftCode h ∧ (stateAfter h).rshift = held rshiftCode h ∧
    (stateAfter h).numlock = numAfter h ∧
    (interrupts (h.flatMap Sequence.bytes) classicKeyboardInit).2 =
      (h.zipIdx.flatMap fun x =>
        x.1.meaning (held lshiftCode (h.take x.2) || held rshiftCode (h.take x.2))
          (stateAfter (h.take x.2)).capslock (numAfter (h.take x.2))) ∧
    ((h.flatMap Sequence.bytes).foldl (fun s b => keyboardInterrupt b s)
      (classicKeyboardInit, queues)) = (stateAfter h,
        (interrupts (h.flatMap Sequence.bytes) classicKeyboardInit).2.foldl
          (fun q c => keyboardPush c q) queues) := by
  have hready : classicKeyboardInit.Ready := ⟨rfl, rfl⟩
  have hstate : ∀ l, stateAfter l = after classicKeyboardInit l := fun l => by
    rw [stateAfter, interrupts_sequences hready]
  have htracks := after_tracks classicKeyboardInit
  refine ⟨?_, ?_, ?_, ?_, ?_, keyboardInterrupt_run _ _ _⟩
  · rw [hstate]
    exact after_ready hready h
  · rw [hstate]
    exact (htracks h).lshift
  · rw [hstate]
    exact (htracks h).rshift
  · rw [hstate]
    exact (htracks h).numlock
  · rw [interrupts_sequences hready]
    refine List.flatMap_congr fun x _ => ?_
    rw [Sequence.keys_eq, hstate, (htracks _).lshift, (htracks _).rshift, (htracks _).numlock]
    rfl

/-- Left Shift, `a`, a fake break of left Shift, `a`, the break, up, `a`: only the real break
counts. -/
theorem scancode_framing_shift :
    (interrupts [0x2A, 0x1E, 0xE0, 0xAA, 0x1E, 0xAA, 0xE0, 0x48, 0x1E] classicKeyboardInit).2 =
      [65, 65, keyUp, 97] := by
  have h := (scancode_framing [.key 0x2A (by decide), .key 0x1E (by decide), .extended 0xAA,
    .key 0x1E (by decide), .key 0xAA (by decide), .extended 0x48,
      .key 0x1E (by decide)] Session.boot.state).2.2.2.2.1
  exact h.trans (by decide +kernel)

/-! ## Lock keys -/

/-- No make follows a make. -/
def Unrepeated (events : List Bool) : Prop := events.IsChain fun a b => ¬ (a = true ∧ b = true)

instance (events : List Bool) : Decidable (Unrepeated events) :=
  inferInstanceAs (Decidable (events.IsChain fun a b => ¬ (a = true ∧ b = true)))

theorem presses_count (events : List Bool) : ∀ {down : Bool}, Unrepeated (down :: events) →
    presses down events = events.count true := by
  induction events with
  | nil => intro down _; rfl
  | cons make events ih =>
    intro down h
    obtain ⟨hfirst, hrest⟩ := List.isChain_cons_cons.mp h
    rw [presses, ih hrest]
    cases make with
    | false => simp
    | true => cases down <;> simp_all [Nat.add_comm]

theorem unrepeated_append (events : List Bool) (make : Bool) :
    Unrepeated (events ++ [make]) ↔
      Unrepeated events ∧ ¬ (events.getLastD false = true ∧ make = true) := by
  unfold Unrepeated
  rw [List.isChain_append]
  cases h : events.getLast? <;> simp [List.getLastD_eq_getLast?, h]

theorem Unrepeated.presses {events : List Bool} (h : Unrepeated events) :
    presses false events = events.count true := by
  refine presses_count events ?_
  cases events with
  | nil => exact List.isChain_singleton _
  | cons make events => exact List.isChain_cons_cons.mpr ⟨by simp, h⟩

/-- Flipping once per make and once per press agree in every beginning of a stream only if no make
repeats: the first that does is counted once too often. -/
theorem unrepeated_iff (code : UInt8) (on : Bool) (h : List Sequence) :
    (∀ k, (not^[(keyEvents code (h.take k)).count true]) on =
      (not^[presses false (keyEvents code (h.take k))]) on) ↔ Unrepeated (keyEvents code h) := by
  induction h using List.reverseRecOn with
  | nil => simp [keyEvents, Keyboard.presses, Unrepeated]
  | append_singleton h q ih =>
    have hall : (∀ k, (not^[(keyEvents code ((h ++ [q]).take k)).count true]) on =
          (not^[presses false (keyEvents code ((h ++ [q]).take k))]) on) ↔
        (not^[(keyEvents code (h ++ [q])).count true]) on =
          (not^[presses false (keyEvents code (h ++ [q]))]) on ∧ Unrepeated (keyEvents code h) := by
      rw [← ih]
      refine ⟨fun hk => ⟨?_, fun k => ?_⟩, fun ⟨hq, hk⟩ k => ?_⟩
      · have hwhole := hk (h ++ [q]).length
        rwa [List.take_length] at hwhole
      · have hcut := hk (min k h.length)
        rwa [List.take_append_of_le_length (Nat.min_le_right _ _), ← List.take_eq_take_min] at hcut
      · rcases Nat.lt_or_ge h.length k with hlt | hge
        · rwa [List.take_of_length_le (by simpa using hlt)]
        · rw [List.take_append_of_le_length hge]
          exact hk k
    rw [hall, keyEvents_append]
    cases hq : q.event code with
    | none =>
      rw [Option.toList_none, List.append_nil, and_iff_right_iff_imp]
      exact fun hu => by rw [hu.presses]
    | some make =>
      rw [Option.toList_some, unrepeated_append, and_comm]
      refine and_congr_right fun hu => ?_
      rw [presses_append, hu.presses, List.count_append]
      cases make <;> cases (keyEvents code h).getLastD false <;> simp [Function.iterate_succ_apply']

/-- Num Lock is flipped once per press, however long it is held. Caps Lock is flipped by every
make, so the same holds for it, in a stream and all its beginnings, exactly when it does not
repeat. -/
theorem lock_keys {s : Classic} (hs : s.Ready) (hdown : s.numlockDown = false) (h : List Sequence) :
    (interrupts (h.flatMap Sequence.bytes) s).1.numlock =
      (not^[presses false (keyEvents numlockCode h)]) s.numlock ∧
    ((∀ k, (interrupts ((h.take k).flatMap Sequence.bytes) s).1.capslock =
        (not^[presses false (keyEvents capslockCode (h.take k))]) s.capslock) ↔
      Unrepeated (keyEvents capslockCode h)) := by
  refine ⟨?_, ?_⟩
  · rw [interrupts_sequences hs, ← hdown]
    exact (after_tracks s h).numlock
  · rw [← unrepeated_iff capslockCode s.capslock h]
    refine forall_congr' fun k => ?_
    rw [interrupts_sequences hs, (after_tracks s (h.take k)).capslock]

/-- One press of each, with Num Lock held long enough to repeat. -/
theorem lock_keys_once :
    (interrupts [0x3A, 0xBA, 0x45, 0x45, 0xC5] classicKeyboardInit).1.numlock = false ∧
      (interrupts [0x3A, 0xBA, 0x45, 0x45, 0xC5] classicKeyboardInit).1.capslock = true := by
  have h := lock_keys (s := classicKeyboardInit) ⟨rfl, rfl⟩ rfl
    [.key 0x3A (by decide), .key 0xBA (by decide), .key 0x45 (by decide), .key 0x45 (by decide),
      .key 0xC5 (by decide)]
  exact ⟨h.1, h.2.mpr (by decide) 5⟩

/-- Caps Lock held until it repeats once: one press, and it is off again. -/
theorem capslock_repeats : ¬ ∀ h : List Sequence, (stateAfter h).capslock =
    (not^[presses false (keyEvents capslockCode h)]) classicKeyboardInit.capslock := by
  intro hall
  have h := hall [.key 0x3A (by decide), .key 0x3A (by decide), .key 0xBA (by decide)]
  exact absurd h (by decide)

end Rorthox.Keyboard
