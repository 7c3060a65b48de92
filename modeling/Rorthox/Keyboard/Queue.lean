import Mathlib
import Rorthox.Lib.Fifo

/-!
# The key queues

`kernel/keyboard/keyboard.c`: every process has a ring of 1024 keys with a counter of
the keys taken in and one of the keys read. Keys go to the process that owns the
keyboard, `process_current`, and are read by the process of the running task. The
counters are `int`s that go round; the kernel is built at `-O0`, so their difference is
the one of 32-bit words.
-/

namespace Rorthox.Keyboard

open Lib

def keyboardBufferSize : Nat := 1024

/-- `struct keyboard_buffer`. -/
structure KeyboardBuffer where
  buffer : Nat → UInt16
  tail : BitVec 32
  head : BitVec 32

/-- A process as `process_load` leaves it: `kzalloc`ed. -/
def KeyboardBuffer.zero : KeyboardBuffer := ⟨fun _ => 0, 0, 0⟩

def keyboardBufferIndex (counter : BitVec 32) : Nat := counter.toNat % keyboardBufferSize

def maxProcesses : Nat := 12

/-- What the queue reads of the kernel. A process stands for itself, not for its address:
a later process at the same place is another one. -/
structure Keyboards where
  processes : Nat → Option Nat
  /-- `current_process`, the owner of the keyboard. -/
  current : Option Nat
  /-- The process of `task_current()`. -/
  task : Option Nat
  keyboard : Nat → KeyboardBuffer

namespace Keyboards

def setKeyboard (s : Keyboards) (p : Nat) (k : KeyboardBuffer) : Keyboards :=
  { s with keyboard := Function.update s.keyboard p k }

@[simp] theorem setKeyboard_self (s : Keyboards) (p : Nat) (k : KeyboardBuffer) :
    (s.setKeyboard p k).keyboard p = k :=
  Function.update_self ..

theorem setKeyboard_of_ne (s : Keyboards) {p q : Nat} (hne : q ≠ p) (k : KeyboardBuffer) :
    (s.setKeyboard p k).keyboard q = s.keyboard q :=
  Function.update_of_ne hne ..

end Keyboards

def keyboardPush (c : UInt16) (s : Keyboards) : Keyboards :=
  match s.current with
  | none => s
  | some process =>
    let k := s.keyboard process
    if c = 0 then s
    else if (k.tail - k.head).toInt ≥ keyboardBufferSize then s
    else
      s.setKeyboard process
        { k with
          buffer := Function.update k.buffer (keyboardBufferIndex k.tail) c
          tail := k.tail + 1 }

def keyboardPop (s : Keyboards) : UInt16 × Keyboards :=
  match s.task with
  | none => (0, s)
  | some process =>
    let k := s.keyboard process
    let c := k.buffer (keyboardBufferIndex k.head)
    if c = 0 then (0, s)
    else
      (c, s.setKeyboard process
        { k with
          buffer := Function.update k.buffer (keyboardBufferIndex k.head) 0
          head := k.head + 1 })

def processSwitch (process : Nat) (s : Keyboards) : Keyboards := { s with current := some process }

/-- The first process of the table; with none the kernel halts in `PANIC`. -/
def processSwitchToAny (s : Keyboards) : Option Keyboards :=
  ((List.range maxProcesses).findSome? s.processes).map (processSwitch · s)

def processUnlink (id process : Nat) (s : Keyboards) : Option Keyboards :=
  let s := { s with processes := Function.update s.processes id none }
  if s.current = some process then processSwitchToAny s else some s

/-! ### Runs -/

inductive KeyEvent where
  | push (c : UInt16)
  | pop
  /-- A new process in the table. -/
  | publish (id process : Nat)
  | switch (process : Nat)
  | unlink (id process : Nat)
  /-- Another task runs, or none. -/
  | taskSwitch (process : Option Nat)

/-- The kernel and, for every process, the keys that were taken in for it and those
that its pops returned. -/
structure Session where
  state : Keyboards
  accepted : Nat → List UInt16
  popped : Nat → List UInt16

def Session.boot : Session :=
  ⟨⟨fun _ => none, none, none, fun _ => KeyboardBuffer.zero⟩, fun _ => [], fun _ => []⟩

namespace Session

/-- The record of a push goes by the history only: a key counts when it is none of the
ignored zeros and its owner has fewer than 1024 unread ones. -/
def push (c : UInt16) (h : Session) : Session :=
  { h with
    state := keyboardPush c h.state
    accepted :=
      match h.state.current with
      | none => h.accepted
      | some p =>
        if c ≠ 0 ∧ (h.accepted p).length - (h.popped p).length < keyboardBufferSize then
          Function.update h.accepted p (h.accepted p ++ [c])
        else h.accepted }

def pop (h : Session) : Session :=
  { h with
    state := (keyboardPop h.state).2
    popped :=
      match h.state.task with
      | none => h.popped
      | some p =>
        if (keyboardPop h.state).1 = 0 then h.popped
        else Function.update h.popped p (h.popped p ++ [(keyboardPop h.state).1]) }

def step (h : Session) : KeyEvent → Option Session
  | .push c => some (h.push c)
  | .pop => some h.pop
  | .publish id p =>
    some { h with state := { h.state with
      processes := Function.update h.state.processes id (some p) } }
  | .switch p => some { h with state := processSwitch p h.state }
  | .unlink id p => (processUnlink id p h.state).map fun s => { h with state := s }
  | .taskSwitch p => some { h with state := { h.state with task := p } }

/-- A run ends early where the kernel halts. -/
def run (h : Session) : List KeyEvent → Option Session
  | [] => some h
  | e :: es => (h.step e).bind fun h => h.run es

end Session

/-! ### One queue

The counters go round at a multiple of the ring's size, so the cell of a counter is the
cell of the number of keys it has counted. -/

theorem keyboardBufferIndex_lt (counter : BitVec 32) :
    keyboardBufferIndex counter < keyboardBufferSize :=
  Nat.mod_lt _ (by decide)

theorem keyboardBufferIndex_add (counter : BitVec 32) (n : Nat) :
    keyboardBufferIndex (counter + BitVec.ofNat 32 n) = (counter.toNat + n) %
      keyboardBufferSize := by
  simp only [keyboardBufferIndex, keyboardBufferSize, BitVec.toNat_add, BitVec.toNat_ofNat]
  omega

/-- The ring holds these keys, and nothing behind its 1024 cells was ever written. -/
structure Unread (k : KeyboardBuffer) (unread : List UInt16) : Prop where
  queued : Queued 0 keyboardBufferSize k.head.toNat k.buffer unread
  counted : k.tail = k.head + BitVec.ofNat 32 unread.length
  beyond : ∀ i, keyboardBufferSize ≤ i → k.buffer i = 0

namespace Unread

variable {k : KeyboardBuffer} {unread : List UInt16}

theorem zero : Unread KeyboardBuffer.zero [] :=
  ⟨Queued.empty _ _ _ fun _ => rfl, by decide, fun _ _ => rfl⟩

section

variable (h : Unread k unread)
include h

theorem tail_index :
    keyboardBufferIndex k.tail = (k.head.toNat + unread.length) % keyboardBufferSize := by
  rw [h.counted, keyboardBufferIndex_add]

/-- The signed difference of the counters is the number of unread keys wherever the
counters stand. -/
theorem difference : (k.tail - k.head).toInt = unread.length := by
  have hfits : unread.length ≤ 1024 := h.queued.fits
  have hdiff : k.tail - k.head = BitVec.ofNat 32 unread.length := by
    rw [h.counted, BitVec.add_comm, BitVec.add_sub_cancel]
  rw [hdiff, BitVec.toInt_ofNat', Int.bmod_eq_of_le (by omega) (by omega)]

theorem full_iff :
    (k.tail - k.head).toInt ≥ keyboardBufferSize ↔ keyboardBufferSize ≤ unread.length := by
  rw [h.difference]
  exact Int.ofNat_le

theorem push (hroom : unread.length < keyboardBufferSize) {c : UInt16} (hc : c ≠ 0) :
    Unread { k with buffer := Function.update k.buffer (keyboardBufferIndex k.tail) c
                    tail := k.tail + 1 } (unread ++ [c]) := by
  constructor
  · rw [h.tail_index]
    exact h.queued.push hroom hc
  · change k.tail + 1 = k.head + BitVec.ofNat 32 (unread ++ [c]).length
    rw [h.counted, List.length_append, List.length_singleton, BitVec.ofNat_add, ← BitVec.add_assoc]
    rfl
  · intro i hi
    have hne : i ≠ keyboardBufferIndex k.tail :=
      Nat.ne_of_gt (Nat.lt_of_lt_of_le (keyboardBufferIndex_lt _) hi)
    exact (Function.update_of_ne hne _ _).trans (h.beyond i hi)

theorem empty_iff : k.buffer (keyboardBufferIndex k.head) = 0 ↔ unread = [] :=
  h.queued.isEmpty (by decide)

end

theorem pop {c : UInt16} (h : Unread k (c :: unread)) :
    Unread { k with buffer := Function.update k.buffer (keyboardBufferIndex k.head) 0
                    head := k.head + 1 } unread := by
  constructor
  · exact h.queued.pop.of_head (keyboardBufferIndex_add k.head 1)
  · change k.tail = k.head + 1 + BitVec.ofNat 32 unread.length
    rw [h.counted, List.length_cons, Nat.add_comm, BitVec.ofNat_add, ← BitVec.add_assoc]
    rfl
  · intro i hi
    have hne : i ≠ keyboardBufferIndex k.head :=
      Nat.ne_of_gt (Nat.lt_of_lt_of_le (keyboardBufferIndex_lt _) hi)
    exact (Function.update_of_ne hne _ _).trans (h.beyond i hi)

end Unread

/-! ### All queues over a run -/

/-- Of every process, what was taken in is what was read and then what lies in its ring. -/
def Faithful (h : Session) : Prop :=
  ∀ p, ∃ unread, h.accepted p = h.popped p ++ unread ∧ Unread (h.state.keyboard p) unread

namespace Faithful

variable {h : Session}

theorem boot : Faithful Session.boot := fun _ => ⟨[], rfl, Unread.zero⟩

/-- What one step does to the queues alone. -/
theorem of_keyboard (hf : Faithful h) {s : Keyboards} (hs : s.keyboard = h.state.keyboard) :
    Faithful { h with state := s } := by
  intro p
  obtain ⟨unread, hsplit, hq⟩ := hf p
  refine ⟨unread, hsplit, ?_⟩
  change Unread (s.keyboard p) unread
  rw [hs]
  exact hq

/-- A push that is recorded enters the ring; any other leaves the kernel as it is. -/
theorem push_cases (hf : Faithful h) (c : UInt16) :
    (h.push c = h) ∨
      ∃ p unread, h.state.current = some p ∧ c ≠ 0 ∧ unread.length < keyboardBufferSize ∧
        h.accepted p = h.popped p ++ unread ∧ Unread (h.state.keyboard p) unread ∧
        h.push c =
          { h with
            state := h.state.setKeyboard p
              { h.state.keyboard p with
                buffer := Function.update (h.state.keyboard p).buffer
                  (keyboardBufferIndex (h.state.keyboard p).tail) c
                tail := (h.state.keyboard p).tail + 1 }
            accepted := Function.update h.accepted p (h.accepted p ++ [c]) } := by
  cases hcur : h.state.current with
  | none =>
    left
    simp only [Session.push, keyboardPush, hcur]
  | some p =>
    obtain ⟨unread, hsplit, hq⟩ := hf p
    have hlen : (h.accepted p).length - (h.popped p).length = unread.length := by
      rw [hsplit, List.length_append, Nat.add_sub_cancel_left]
    by_cases hc : c = 0
    · left
      simp only [Session.push, keyboardPush, hcur, ne_eq, hc, not_true_eq_false, false_and, if_true,
        if_false]
    · by_cases hfull : keyboardBufferSize ≤ unread.length
      · left
        simp only [Session.push, keyboardPush, hcur, if_neg hc, if_pos (hq.full_iff.mpr hfull),
          hlen,
          if_neg (fun h : c ≠ 0 ∧ unread.length < keyboardBufferSize => Nat.not_lt.mpr hfull h.2)]
      · right
        refine ⟨p, unread, rfl, hc, Nat.lt_of_not_le hfull, hsplit, hq, ?_⟩
        simp only [Session.push, keyboardPush, hcur, if_neg hc, if_neg (mt hq.full_iff.mp hfull),
          hlen,
          if_pos (show c ≠ 0 ∧ unread.length < keyboardBufferSize from
            ⟨hc, Nat.lt_of_not_le hfull⟩)]

theorem push (hf : Faithful h) (c : UInt16) : Faithful (h.push c) := by
  rcases hf.push_cases c with hsame | ⟨p, unread, hcur, hc, hroom, hsplit, hq, heq⟩
  · rw [hsame]
    exact hf
  · rw [heq]
    intro q
    dsimp only
    rcases eq_or_ne q p with rfl | hne
    · refine ⟨unread ++ [c], ?_, ?_⟩
      · rw [Function.update_self, hsplit, List.append_assoc]
      · rw [Keyboards.setKeyboard_self]
        exact hq.push hroom hc
    · rw [Keyboards.setKeyboard_of_ne _ hne, Function.update_of_ne hne]
      exact hf q

/-- A pop by a process with these unread keys. -/
theorem keyboardPop_eq {s : Keyboards} {p : Nat} (hcur : s.task = some p) {unread : List UInt16}
    (hq : Unread (s.keyboard p) unread) :
    (keyboardPop s).1 = unread.headD 0 ∧ ((keyboardPop s).1 = 0 ↔ unread = []) := by
  cases unread with
  | nil =>
    have hzero := hq.empty_iff.mpr rfl
    simp only [keyboardPop, hcur, hzero, if_true, List.headD_nil, and_self]
  | cons c rest =>
    have hfront : (s.keyboard p).buffer (keyboardBufferIndex (s.keyboard p).head) = c :=
      hq.queued.front
    have hc : c ≠ 0 := fun hc => hq.queued.unmarked (hc ▸ List.mem_cons_self)
    simp only [keyboardPop, hcur, hfront, hc, if_false, List.headD_cons, true_and, reduceCtorEq]

theorem pop (hf : Faithful h) : Faithful h.pop := by
  cases hcur : h.state.task with
  | none =>
    have hsame : h.pop = h := by simp only [Session.pop, keyboardPop, hcur]
    rw [hsame]
    exact hf
  | some p =>
    obtain ⟨unread, hsplit, hq⟩ := hf p
    cases unread with
    | nil =>
      have hsame : h.pop = h := by
        simp only [Session.pop, keyboardPop, hcur, hq.empty_iff.mpr rfl, if_true]
      rw [hsame]
      exact hf
    | cons c rest =>
      have hfront : (h.state.keyboard p).buffer
          (keyboardBufferIndex (h.state.keyboard p).head) = c := hq.queued.front
      have hc : c ≠ 0 := fun hc => hq.queued.unmarked (hc ▸ List.mem_cons_self)
      intro q
      simp only [Session.pop, keyboardPop, hcur, hfront, if_neg hc]
      rcases eq_or_ne q p with rfl | hne
      · refine ⟨rest, ?_, ?_⟩
        · rw [Function.update_self, hsplit, List.append_assoc, List.singleton_append]
        · rw [Keyboards.setKeyboard_self]
          exact hq.pop
      · rw [Keyboards.setKeyboard_of_ne _ hne, Function.update_of_ne hne]
        exact hf q

theorem processUnlink_keyboard {id p : Nat} {s s' : Keyboards}
    (h : processUnlink id p s = some s') : s'.keyboard = s.keyboard := by
  rw [processUnlink] at h
  split at h
  · obtain ⟨q, -, rfl⟩ := Option.map_eq_some_iff.mp h
    rfl
  · obtain rfl := Option.some.inj h
    rfl

theorem step (hf : Faithful h) {e : KeyEvent} {h' : Session} (hs : h.step e = some h') :
    Faithful h' := by
  cases e with
  | push c => exact Option.some.inj hs ▸ hf.push c
  | pop => exact Option.some.inj hs ▸ hf.pop
  | publish _ _ | switch _ => exact Option.some.inj hs ▸ hf.of_keyboard rfl
  | unlink id p =>
    obtain ⟨s, hunlink, rfl⟩ := Option.map_eq_some_iff.mp hs
    exact hf.of_keyboard (processUnlink_keyboard hunlink)
  | taskSwitch p => exact Option.some.inj hs ▸ hf.of_keyboard rfl

theorem run (hf : Faithful h) {es : List KeyEvent} {h' : Session} (hr : h.run es = some h') :
    Faithful h' := by
  induction es generalizing h with
  | nil => exact Option.some.inj hr ▸ hf
  | cons e es ih =>
    obtain ⟨h₁, hstep, hrest⟩ := Option.bind_eq_some_iff.mp hr
    exact ih (hf.step hstep) hrest

end Faithful

/-- The key queues are first-in first-out queues of 1024 keys over every run from boot:
of every process, the keys it has read are the first of those taken in for it and at most
1024 are left; the next pop returns the first that is left, or 0 exactly when none is; a
push with 1024 left changes nothing; and no cell but the 1024 of a ring is read or written. -/
theorem key_queue (es : List KeyEvent) (h : Session) (hrun : Session.boot.run es = some h) :
    (∀ p, ∃ unread, h.accepted p = h.popped p ++ unread ∧ unread.length ≤ keyboardBufferSize ∧
      (h.state.task = some p →
        (keyboardPop h.state).1 = unread.headD 0 ∧ ((keyboardPop h.state).1 = 0 ↔ unread = [])) ∧
      (h.state.current = some p → unread.length = keyboardBufferSize →
        ∀ c, keyboardPush c h.state = h.state) ∧
      ∀ i, keyboardBufferSize ≤ i → (h.state.keyboard p).buffer i = 0) ∧
    ∀ p, keyboardBufferIndex (h.state.keyboard p).head < keyboardBufferSize ∧
      keyboardBufferIndex (h.state.keyboard p).tail < keyboardBufferSize := by
  have hf := Faithful.boot.run hrun
  refine ⟨fun p => ?_, fun p => ⟨keyboardBufferIndex_lt _, keyboardBufferIndex_lt _⟩⟩
  obtain ⟨unread, hsplit, hq⟩ := hf p
  refine ⟨unread, hsplit, hq.queued.fits, fun ht => Faithful.keyboardPop_eq ht hq, ?_, hq.beyond⟩
  intro hcur hfull c
  have hge := hq.full_iff.mpr (Nat.le_of_eq hfull.symm)
  simp only [keyboardPush, hcur, if_pos hge, ite_self]

/-- Two processes, one key each, read after the keyboard has changed hands. -/
theorem key_queue_two : ∃ h, Session.boot.run
      [.switch 1, .push 65, .switch 2, .push 0x1e0, .taskSwitch (some 1), .pop,
        .taskSwitch (some 2)] = some h ∧
    h.popped 1 = [65] ∧ (keyboardPop h.state).1 = 0x1e0 ∧
    ∀ p, ∃ unread, h.accepted p = h.popped p ++ unread := by
  refine ⟨_, rfl, by decide +kernel, by decide +kernel, fun p => ?_⟩
  obtain ⟨unread, hsplit, -⟩ := (key_queue
    [.switch 1, .push 65, .switch 2, .push 0x1e0, .taskSwitch (some 1), .pop, .taskSwitch (some 2)]
    _ rfl).1 p
  exact ⟨unread, hsplit⟩

end Rorthox.Keyboard
