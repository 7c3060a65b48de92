import Rorthox.Term.Terminal

/-!
# Reading a line

`rorthox_terminal_readline` of `programs/stdlib/src/rorthox.c`, over the list of values
that `rorthox_getkey` returns, and the plain string editor that it implements.
-/

namespace Rorthox.Term

def keyLeft : Int := 0x102
def keyRight : Int := 0x103
def keyHome : Int := 0x104
def keyEnd : Int := 0x105
def keyDelete : Int := 0x107
def readlineEchoLimit : Nat := 1023

/-- The caller's buffer, and one more than the highest index stored to. -/
structure Buffer where
  bytes : Nat → UInt8
  extent : Nat

def Buffer.set (b : Buffer) (i : Nat) (c : UInt8) : Buffer :=
  { bytes := Function.update b.bytes i c, extent := max b.extent (i + 1) }

structure Editor where
  out : Buffer
  length : Nat
  position : Nat
  /-- The terminal calls made so far. -/
  calls : List Call

/-- `n` turns of `out[i] = out[i + 1]`, upwards from `i`. -/
def closeGap (b : Buffer) (i : Nat) : Nat → Buffer
  | 0 => b
  | n + 1 => closeGap (b.set i (b.bytes (i + 1))) (i + 1) n

/-- `n` turns of `out[i] = out[i - 1]`, downwards from `i`. -/
def openGap (b : Buffer) (i : Nat) : Nat → Buffer
  | 0 => b
  | n + 1 => openGap (b.set i (b.bytes (i - 1))) (i - 1) n

/-- The `rorthox_putchar` calls for `out[position .. length - 1]`. -/
def redraw (b : Buffer) (position length : Nat) : List Call :=
  (List.range' position (length - position)).map fun i => .putchar (b.bytes i)

def Editor.say (e : Editor) (echo : Bool) (calls : List Call) : Editor :=
  if echo then { e with calls := e.calls ++ calls } else e

def nextPosition (key : Int) (e : Editor) : Nat :=
  if key = keyLeft then (if e.position > 0 then e.position - 1 else e.position)
  else if key = keyRight then (if e.position < e.length then e.position + 1 else e.position)
  else if key = keyHome then 0
  else if key = keyEnd then e.length
  else e.position

def moveTo (echo : Bool) (next : Nat) (e : Editor) : Editor :=
  if next ≠ e.position then
    { e.say echo [.moveCursor ((next : Int) - e.position)] with position := next }
  else e

/-- Backspace and Delete, once the position is that of the byte to go. -/
def eraseHere (echo : Bool) (e : Editor) : Editor :=
  if e.position = e.length then e
  else
    let out := closeGap e.out e.position (e.length - e.position)
    let length := e.length - 1
    Editor.say { e with out := out, length := length } echo
      (redraw out e.position length ++
        [.putchar 0x20, .moveCursor ((e.position : Int) - length - 1)])

def insertHere (echo : Bool) (c : UInt8) (e : Editor) : Editor :=
  let out := (openGap e.out e.length (e.length - e.position)).set e.position c
  let length := e.length + 1
  let out := out.set length 0
  let e := Editor.say { e with out := out, length := length } echo (redraw out e.position length)
  let e := { e with position := e.position + 1 }
  if e.position < e.length then e.say echo [.moveCursor ((e.position : Int) - e.length)] else e

/-- The loop's body for a key other than CR. -/
def readlineKey (echo : Bool) (key : Int) (e : Editor) : Editor :=
  let e := moveTo echo (nextPosition key e) e
  if key = 0x08 then
    if e.position = 0 then e
    else eraseHere echo { e.say echo [.moveCursor (-1)] with position := e.position - 1 }
  else if key = keyDelete then eraseHere echo e
  else if key ≤ 0 ∨ key > 255 ∨ key = 0x0A then e
  else insertHere echo (UInt8.ofNat key.toNat) e

/-- Out of keys, or past the loop with the keys it left. -/
inductive Progress (α : Type) where
  | waiting (x : α)
  | ended (x : α) (rest : List Int)
  deriving DecidableEq

def readlineLoop (echo : Bool) (capacity : Nat) : List Int → Editor → Progress Editor
  | [], e => if e.length < capacity then .waiting e else .ended e []
  | key :: keys, e =>
    if e.length < capacity then
      -- `rorthox_getkeyblock` asks again
      if key = 0 then readlineLoop echo capacity keys e
      else if key = 13 then .ended e keys
      else readlineLoop echo capacity keys (readlineKey echo key e)
    else .ended e (key :: keys)

/-- The cursor goes to the line's end. -/
def readlineFinish (echo : Bool) (e : Editor) : Editor :=
  if e.position < e.length then e.say echo [.moveCursor ((e.length : Int) - e.position)] else e

def readlineCapacity (size : Int) (echo : Bool) : Nat :=
  let capacity := (size - 1).toNat
  if echo = true ∧ capacity > readlineEchoLimit then readlineEchoLimit else capacity

def readlineStart (bytes : Nat → UInt8) : Editor :=
  { out := (Buffer.mk bytes 0).set 0 0, length := 0, position := 0, calls := [] }

/-- A null `out` is `none`; the result is `none` where the function returns at once. -/
def rorthoxTerminalReadline (out : Option (Nat → UInt8)) (size : Int) (echo : Bool)
    (keys : List Int) : Option (Progress Editor) :=
  match out with
  | none => none
  | some bytes =>
    if size ≤ 0 then none
    else
      match readlineLoop echo (readlineCapacity size echo) keys (readlineStart bytes) with
      | .waiting e => some (.waiting e)
      | .ended e rest => some (.ended (readlineFinish echo e) rest)

/-! ## The string editor -/

structure Line where
  text : List UInt8
  cursor : Nat
  deriving DecidableEq

def Line.key (key : Int) (l : Line) : Line :=
  if key = keyLeft then { l with cursor := l.cursor - 1 }
  else if key = keyRight then { l with cursor := min (l.cursor + 1) l.text.length }
  else if key = keyHome then { l with cursor := 0 }
  else if key = keyEnd then { l with cursor := l.text.length }
  else if key = 0x08 then
    if l.cursor = 0 then l else ⟨l.text.eraseIdx (l.cursor - 1), l.cursor - 1⟩
  else if key = keyDelete then { l with text := l.text.eraseIdx l.cursor }
  else if 1 ≤ key ∧ key ≤ 255 ∧ key ≠ 0x0A then
    ⟨l.text.insertIdx l.cursor (UInt8.ofNat key.toNat), l.cursor + 1⟩
  else l

theorem byte_not_motion {key : Int} (h : key ≤ 255) :
    key ≠ keyLeft ∧ key ≠ keyRight ∧ key ≠ keyHome ∧ key ≠ keyEnd := by
  simp only [keyLeft, keyRight, keyHome, keyEnd]
  omega

theorem Line.key_backspace (l : Line) :
    l.key 0x08 = if l.cursor = 0 then l else ⟨l.text.eraseIdx (l.cursor - 1), l.cursor - 1⟩ := by
  simp [Line.key, keyLeft, keyRight, keyHome, keyEnd]

theorem Line.key_delete (l : Line) :
    l.key keyDelete = { l with text := l.text.eraseIdx l.cursor } := by
  simp [Line.key, keyLeft, keyRight, keyHome, keyEnd, keyDelete]

theorem Line.key_text (l : Line) {key : Int} (htext : 1 ≤ key ∧ key ≤ 255 ∧ key ≠ 0x0A)
    (hbs : key ≠ 0x08) :
    l.key key = ⟨l.text.insertIdx l.cursor (UInt8.ofNat key.toNat), l.cursor + 1⟩ := by
  obtain ⟨hleft, hright, hhome, hend⟩ := byte_not_motion htext.2.1
  have hdel : key ≠ keyDelete := by simp only [keyDelete]; omega
  simp only [Line.key, if_neg hbs, if_neg hdel, if_pos htext, if_neg hleft, if_neg hright,
    if_neg hhome, if_neg hend]

theorem Line.key_zero (l : Line) : l.key 0 = l := by
  simp [Line.key, keyLeft, keyRight, keyHome, keyEnd, keyDelete]

def Line.read (capacity : Nat) : List Int → Line → Progress Line
  | [], l => if l.text.length < capacity then .waiting l else .ended l []
  | key :: keys, l =>
    if l.text.length < capacity then
      if key = 13 then .ended l keys else Line.read capacity keys (l.key key)
    else .ended l (key :: keys)

/-- On return the cursor is behind the line. -/
def Line.readline (capacity : Nat) (keys : List Int) : Progress Line :=
  match Line.read capacity keys ⟨[], 0⟩ with
  | .waiting l => .waiting l
  | .ended l rest => .ended { l with cursor := l.text.length } rest

/-! The terminal calls of the code, read off the line: the text is drawn again from the
place of the change, and the cursor moved back. -/

def Line.redrawn (text : List UInt8) (p : Nat) : List Call :=
  (text.drop p).map .putchar

def Line.erased (text : List UInt8) (p : Nat) : List Call :=
  if p = text.length then []
  else
    Line.redrawn (text.eraseIdx p) p ++
      [.putchar 0x20, .moveCursor ((p : Int) - (text.length - 1 : Nat) - 1)]

def Line.inserted (text : List UInt8) (p : Nat) (c : UInt8) : List Call :=
  Line.redrawn (text.insertIdx p c) p ++
    if p < text.length then [.moveCursor ((p : Int) - text.length)] else []

def Line.moved (l : Line) (next : Nat) : List Call :=
  if next ≠ l.cursor then [.moveCursor ((next : Int) - l.cursor)] else []

def Line.drawn (key : Int) (l : Line) : List Call :=
  if key = 0x08 then
    if l.cursor = 0 then [] else .moveCursor (-1) :: Line.erased l.text (l.cursor - 1)
  else if key = keyDelete then Line.erased l.text l.cursor
  else if 1 ≤ key ∧ key ≤ 255 ∧ key ≠ 0x0A then
    Line.inserted l.text l.cursor (UInt8.ofNat key.toNat)
  else l.moved (l.key key).cursor

/-! ## The buffer holds the line -/

structure Stores (capacity : Nat) (e : Editor) (l : Line) : Prop where
  length : e.length = l.text.length
  position : e.position = l.cursor
  inside : l.cursor ≤ l.text.length
  room : l.text.length ≤ capacity
  bytes : ∀ i, i < l.text.length → l.text[i]? = some (e.out.bytes i)
  terminated : e.out.bytes l.text.length = 0
  extent : e.out.extent ≤ capacity + 1

theorem closeGap_bytes (b : Buffer) (i n j : Nat) :
    (closeGap b i n).bytes j = if i ≤ j ∧ j < i + n then b.bytes (j + 1) else b.bytes j := by
  -- each turn reads the byte after the one it stores to, not yet stored to
  induction n generalizing b i with
  | zero => simp only [closeGap]; rw [if_neg (by omega)]
  | succ n ih =>
    rw [closeGap, ih]
    simp only [Buffer.set, Function.update_apply]
    split_ifs <;> first | rfl | omega | (subst_vars; rfl)

theorem closeGap_extent (b : Buffer) (i n : Nat) {limit : Nat} (hb : b.extent ≤ limit)
    (hn : i + n ≤ limit) : (closeGap b i n).extent ≤ limit := by
  induction n generalizing b i with
  | zero => exact hb
  | succ n ih =>
    apply ih
    · simp only [Buffer.set]; omega
    · omega

theorem openGap_bytes (b : Buffer) (i n j : Nat) (hn : n ≤ i) :
    (openGap b i n).bytes j = if i - n < j ∧ j ≤ i then b.bytes (j - 1) else b.bytes j := by
  induction n generalizing b i with
  | zero => simp only [openGap]; rw [if_neg (by omega)]
  | succ n ih =>
    rw [openGap, ih _ _ (by omega)]
    simp only [Buffer.set, Function.update_apply]
    split_ifs <;> first | rfl | omega | (subst_vars; rfl)

theorem openGap_extent (b : Buffer) (i n : Nat) {limit : Nat} (hb : b.extent ≤ limit)
    (hi : i < limit) : (openGap b i n).extent ≤ limit := by
  induction n generalizing b i with
  | zero => exact hb
  | succ n ih =>
    apply ih
    · simp only [Buffer.set]; omega
    · omega

theorem redraw_eq {b : Buffer} {text : List UInt8}
    (hb : ∀ i, i < text.length → text[i]? = some (b.bytes i)) (p : Nat) :
    redraw b p text.length = Line.redrawn text p := by
  apply List.ext_getElem?
  intro i
  simp only [redraw, Line.redrawn, List.getElem?_map, List.getElem?_drop]
  by_cases hi : p + i < text.length
  · rw [hb _ hi, List.getElem?_range' (by omega)]
    simp
  · rw [List.getElem?_eq_none (by simp; omega), List.getElem?_eq_none (by omega)]
    rfl

@[simp] theorem Editor.say_out (e : Editor) (echo : Bool) (cs : List Call) :
    (e.say echo cs).out = e.out := by
  cases echo <;> rfl

@[simp] theorem Editor.say_length (e : Editor) (echo : Bool) (cs : List Call) :
    (e.say echo cs).length = e.length := by
  cases echo <;> rfl

@[simp] theorem Editor.say_position (e : Editor) (echo : Bool) (cs : List Call) :
    (e.say echo cs).position = e.position := by
  cases echo <;> rfl

@[simp] theorem Editor.say_calls (e : Editor) (echo : Bool) (cs : List Call) :
    (e.say echo cs).calls = e.calls ++ if echo then cs else [] := by
  cases echo <;> simp [Editor.say]

/-- `e'` is `e` after the calls `cs`, which only an echoing editor makes. -/
def Tells (echo : Bool) (e e' : Editor) (cs : List Call) : Prop :=
  e'.calls = e.calls ++ if echo then cs else []

theorem Tells.refl (echo : Bool) (e : Editor) : Tells echo e e [] := by
  simp [Tells]

theorem Tells.trans {echo : Bool} {e e' e'' : Editor} {cs ds : List Call} (h : Tells echo e e' cs)
    (h' : Tells echo e' e'' ds) : Tells echo e e'' (cs ++ ds) := by
  unfold Tells at *
  rw [h', h]
  cases echo <;> simp

section Keys

variable {capacity : Nat} {echo : Bool} {e : Editor} {l : Line}

theorem moveTo_self (echo : Bool) (e : Editor) : moveTo echo e.position e = e := by
  simp [Term.moveTo]

section

variable (h : Stores capacity e l)
include h

theorem Stores.of_eq {e' : Editor} (hout : e'.out = e.out) (hlength : e'.length = e.length)
    (hposition : e'.position = e.position) : Stores capacity e' l :=
  ⟨hlength.trans h.length, hposition.trans h.position, h.inside, h.room, hout ▸ h.bytes,
    hout ▸ h.terminated, hout ▸ h.extent⟩

theorem Stores.moveTo {next : Nat} (hnext : next ≤ l.text.length) :
    Stores capacity (moveTo echo next e) { l with cursor := next } ∧
      Tells echo e (Term.moveTo echo next e) (l.moved next) := by
  unfold Term.moveTo Line.moved
  rw [h.position]
  by_cases heq : next = l.cursor
  · rw [if_neg (by simpa using heq), if_neg (by simpa using heq)]
    refine ⟨?_, Tells.refl echo e⟩
    subst heq
    exact h
  · rw [if_pos heq, if_pos heq]
    refine ⟨⟨?_, rfl, hnext, h.room, ?_, ?_, ?_⟩, ?_⟩
    · simpa using h.length
    · simpa using h.bytes
    · simpa using h.terminated
    · simpa using h.extent
    · simp [Tells]

theorem Stores.eraseHere :
    Stores capacity (eraseHere echo e) { l with text := l.text.eraseIdx l.cursor } ∧
      Tells echo e (Term.eraseHere echo e) (Line.erased l.text l.cursor) := by
  unfold Term.eraseHere Line.erased
  rw [h.position, h.length]
  by_cases hend : l.cursor = l.text.length
  · rw [if_pos hend, if_pos hend, List.eraseIdx_of_length_le hend.ge]
    exact ⟨h, Tells.refl echo e⟩
  · have hlt : l.cursor < l.text.length := lt_of_le_of_ne h.inside hend
    have hlen : (l.text.eraseIdx l.cursor).length = l.text.length - 1 :=
      List.length_eraseIdx_of_lt hlt
    have hbytes : ∀ i, i < (l.text.eraseIdx l.cursor).length →
        (l.text.eraseIdx l.cursor)[i]? =
          some ((closeGap e.out l.cursor (l.text.length - l.cursor)).bytes i) := by
      intro i hi
      rw [closeGap_bytes, List.getElem?_eraseIdx]
      by_cases hlow : i < l.cursor
      · rw [if_pos hlow, if_neg (by omega), h.bytes i (by omega)]
      · rw [if_neg hlow, if_pos (by omega), h.bytes (i + 1) (by omega)]
    rw [if_neg hend, if_neg hend]
    refine ⟨⟨?_, ?_, ?_, ?_, ?_, ?_, ?_⟩, ?_⟩
    · simp [hlen]
    · simp
    · show l.cursor ≤ _
      rw [hlen]; omega
    · rw [hlen]; have hroom := h.room; omega
    · simpa using hbytes
    · rw [Editor.say_out, closeGap_bytes, hlen, if_pos (by omega),
        show l.text.length - 1 + 1 = l.text.length by omega]
      exact h.terminated
    · rw [Editor.say_out]
      have hroom := h.room
      exact closeGap_extent _ _ _ h.extent (by omega)
    · unfold Tells
      rw [Editor.say_calls, ← hlen, redraw_eq hbytes]

theorem Stores.insertHere (hroom : l.text.length < capacity) (c : UInt8) :
    Stores capacity (insertHere echo c e) ⟨l.text.insertIdx l.cursor c, l.cursor + 1⟩ ∧
      Tells echo e (Term.insertHere echo c e) (Line.inserted l.text l.cursor c) := by
  have hin := h.inside
  have hlen : (l.text.insertIdx l.cursor c).length = l.text.length + 1 :=
    List.length_insertIdx_of_le_length hin c
  have hbytes : ∀ i, i < (l.text.insertIdx l.cursor c).length →
      (l.text.insertIdx l.cursor c)[i]? =
        some ((((openGap e.out l.text.length (l.text.length - l.cursor)).set l.cursor c).set
          (l.text.length + 1) 0).bytes i) := by
    intro i hi
    rw [List.getElem?_insertIdx]
    simp only [Buffer.set, Function.update_apply]
    rw [if_neg (show i ≠ l.text.length + 1 by omega), openGap_bytes _ _ _ _ (by omega)]
    -- before, at and behind the new byte
    rcases Nat.lt_trichotomy i l.cursor with hlow | hat | hhigh
    · rw [if_pos hlow, if_neg (by omega), if_neg (by omega), h.bytes i (by omega)]
    · rw [if_neg (by omega), if_pos hat, if_pos hat, if_pos (by omega)]
    · rw [if_neg (by omega), if_neg (by omega), if_neg (by omega), if_pos (by omega),
        h.bytes (i - 1) (by omega)]
  have hredraw := redraw_eq hbytes l.cursor
  rw [hlen] at hredraw
  unfold Term.insertHere Line.inserted
  simp only [h.position, h.length, Editor.say_length, Editor.say_position, Nat.add_lt_add_iff_right,
    hredraw]
  have hgap := openGap_extent e.out l.text.length (l.text.length - l.cursor) h.extent (by omega)
  have hnew : Stores capacity
      { out := ((openGap e.out l.text.length (l.text.length - l.cursor)).set l.cursor c).set
          (l.text.length + 1) 0
        length := l.text.length + 1, position := l.cursor + 1, calls := e.calls }
      ⟨l.text.insertIdx l.cursor c, l.cursor + 1⟩ := by
    refine ⟨hlen.symm, rfl, ?_, ?_, hbytes, ?_, ?_⟩
    · show l.cursor + 1 ≤ _
      rw [hlen]; omega
    · rw [hlen]; omega
    · rw [hlen]; simp [Buffer.set]
    · simp only [Buffer.set]; omega
  by_cases hback : l.cursor < l.text.length
  · rw [if_pos hback, if_pos hback]
    refine ⟨hnew.of_eq (by simp) (by simp) (by simp), ?_⟩
    simp only [Tells, Editor.say_calls, List.append_assoc]
    cases echo <;> simp
  · rw [if_neg hback, if_neg hback]
    refine ⟨hnew.of_eq (by simp) (by simp) (by simp), ?_⟩
    simp only [Tells, Editor.say_calls, List.append_nil]

/-- One turn of the loop is one key of the string editor. -/
theorem Stores.readlineKey (hroom : l.text.length < capacity) (key : Int) :
    Stores capacity (readlineKey echo key e) (l.key key) ∧
      Tells echo e (Term.readlineKey echo key e) (l.drawn key) := by
  by_cases hbs : key = 0x08
  · subst hbs
    have hstay : nextPosition 0x08 e = e.position := by
      simp [nextPosition, keyLeft, keyRight, keyHome, keyEnd]
    simp only [Term.readlineKey, hstay, moveTo_self, Line.key_backspace, Line.drawn, if_true]
    rw [h.position]
    by_cases hzero : l.cursor = 0
    · simp only [if_pos hzero]
      exact ⟨h, Tells.refl echo e⟩
    · simp only [if_neg hzero]
      have hin := h.inside
      have hleft : Stores capacity
          { e.say echo [.moveCursor (-1)] with position := l.cursor - 1 }
          { l with cursor := l.cursor - 1 } :=
        ⟨by simpa using h.length, rfl, by simp only; omega, h.room, by simpa using h.bytes,
          by simpa using h.terminated, by simpa using h.extent⟩
      have hfirst : Tells echo e
          { e.say echo [.moveCursor (-1)] with position := l.cursor - 1 } [.moveCursor (-1)] := by
        simp [Tells]
      exact ⟨hleft.eraseHere.1, hfirst.trans hleft.eraseHere.2⟩
  by_cases hdel : key = keyDelete
  · subst hdel
    have hstay : nextPosition keyDelete e = e.position := by
      simp [nextPosition, keyLeft, keyRight, keyHome, keyEnd, keyDelete]
    simp only [Term.readlineKey, hstay, moveTo_self, Line.key_delete, Line.drawn,
      if_neg hbs, if_true]
    exact h.eraseHere
  by_cases htext : 1 ≤ key ∧ key ≤ 255 ∧ key ≠ 0x0A
  · obtain ⟨hleft, hright, hhome, hend⟩ := byte_not_motion htext.2.1
    have hstay : nextPosition key e = e.position := by
      simp only [nextPosition, if_neg hleft, if_neg hright, if_neg hhome, if_neg hend]
    simp only [Term.readlineKey, hstay, moveTo_self, l.key_text htext hbs, Line.drawn, if_neg hbs,
      if_neg hdel, if_pos htext]
    rw [if_neg (by omega)]
    exact h.insertHere hroom _
  · -- the keys that only move, and those that do nothing
    have hkey : l.key key = { l with cursor := nextPosition key e } := by
      simp only [Line.key, nextPosition, if_neg hbs, if_neg hdel, if_neg htext,
        h.position, h.length]
      have hin := h.inside
      split_ifs <;> first | rfl | (congr 1; omega)
    have hnext : nextPosition key e ≤ l.text.length := by
      simp only [nextPosition, h.position, h.length]
      have hin := h.inside
      split_ifs <;> omega
    simp only [Term.readlineKey, hkey, Line.drawn, if_neg hbs, if_neg hdel, if_neg htext]
    rw [if_pos (by omega)]
    exact h.moveTo hnext

end

end Keys

/-! ## The loop -/

def Progress.Agree {α β : Type} (R : α → β → Prop) : Progress α → Progress β → Prop
  | .waiting x, .waiting y => R x y
  | .ended x rest, .ended y rest' => R x y ∧ rest = rest'
  | _, _ => False

/-- What one key keeps, the loop keeps, with the same keys taken as the string editor. -/
theorem readlineLoop_agree {echo : Bool} {capacity : Nat} {R : Editor → Line → Prop}
    (hlength : ∀ e l, R e l → e.length = l.text.length)
    (hstep : ∀ e l key, R e l → l.text.length < capacity → R (readlineKey echo key e) (l.key key))
    (keys : List Int) {e : Editor} {l : Line} (h : R e l) :
    (readlineLoop echo capacity keys e).Agree R (Line.read capacity keys l) := by
  induction keys generalizing e l with
  | nil =>
    simp only [readlineLoop, Line.read, hlength e l h]
    split_ifs
    · exact h
    · exact ⟨h, rfl⟩
  | cons key keys ih =>
    simp only [readlineLoop, Line.read, hlength e l h]
    by_cases hroom : l.text.length < capacity
    · rw [if_pos hroom, if_pos hroom]
      by_cases hzero : key = 0
      · subst hzero
        rw [if_pos rfl, if_neg (by decide), Line.key_zero]
        exact ih h
      · rw [if_neg hzero]
        by_cases hcr : key = 13
        · rw [if_pos hcr, if_pos hcr]
          exact ⟨h, rfl⟩
        · rw [if_neg hcr, if_neg hcr]
          exact ih (hstep e l key h hroom)
    · rw [if_neg hroom, if_neg hroom]
      exact ⟨h, rfl⟩

end Rorthox.Term
