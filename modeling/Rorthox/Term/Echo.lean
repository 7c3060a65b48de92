import Rorthox.Term.Readline

/-!
# The echoed line on the screen

The terminal calls of a key, carried out by the terminal, turn the line on the tape into
the line after the key. A line of at most 1023 bytes never leaves the page, so no cursor
move is refused.
-/

namespace Rorthox.Term

theorem Terminal.calls_append (t : Terminal) (cs ds : List Call) :
    t.calls (cs ++ ds) = (t.calls cs).bind fun t => t.calls ds := by
  induction cs generalizing t with
  | nil => rfl
  | cons c cs ih =>
    simp only [List.cons_append, Terminal.calls, Option.bind_assoc]
    congr 1
    funext t'
    exact ih t'

/-- `T'` is `T` after the characters `cs`. -/
structure Wrote (T T' : Tape) (color : UInt8) (cs : List UInt8) : Prop where
  cursor : T'.cursor = T.cursor + cs.length
  written : ∀ i (hi : i < cs.length), T'.cells (T.cursor + i) = ⟨cs[i], color⟩
  kept : ∀ j, j < T.cursor ∨ T.cursor + cs.length ≤ j → T'.cells j = T.cells j
  /-- A row leaves the page only when the cursor has passed the page's last cell. -/
  seen : ∀ s, T.top * vgaWidth ≤ s → T.cursor + cs.length ≤ s + (vgaHeight - 1) * vgaWidth →
    T'.top * vgaWidth ≤ s

theorem Wrote.nil (T : Tape) (color : UInt8) : Wrote T T color [] :=
  ⟨rfl, fun i hi => absurd hi (Nat.not_lt_zero i), fun _ _ => rfl, fun _ h _ => h⟩

variable {T : Tape} {t : Terminal} {l : Line} {capacity : Nat} {size : Int} {echo : Bool}
  {e : Editor}

theorem Wrote.cons {T' : Tape} {color c : UInt8} {cs : List UInt8}
    (h : Wrote (T.put ⟨c, color⟩) T' color cs) : Wrote T T' color (c :: cs) := by
  constructor
  · rw [h.cursor]
    simp only [Tape.put, List.length_cons]; omega
  · intro i hi
    cases i with
    | zero =>
      rw [h.kept _ (Or.inl (by simp [Tape.put]))]
      simp [Tape.put]
    | succ i =>
      have hw := h.written i (by simpa using hi)
      simp only [Tape.put] at hw
      rw [List.getElem_cons_succ, ← hw]
      congr 1
      omega
  · intro j hj
    simp only [List.length_cons] at hj
    rw [h.kept j (by simp only [Tape.put]; omega)]
    simp only [Tape.put]
    rw [Function.update_of_ne (by omega)]
  · intro s hs hfar
    apply h.seen s
    · by_cases htop : T.cursor + 1 = (T.top + vgaHeight) * vgaWidth
      · simp only [Tape.put, if_pos htop]
        simp only [vgaWidth, vgaHeight, List.length_cons] at htop hfar ⊢
        omega
      · simp only [Tape.put, if_neg htop]
        exact hs
    · simp only [Tape.put, List.length_cons] at hfar ⊢
      omega

/-- Characters that neither end the row nor erase. -/
def Plain (c : UInt8) : Prop := c ≠ 0x0A ∧ c ≠ 0x08

theorem Window.puts (h : Window t T) {cs : List UInt8} (hcs : ∀ c ∈ cs, Plain c) :
    ∃ t' T', t.calls (cs.map .putchar) = some t' ∧ Window t' T' ∧
      t'.background = t.background ∧ Wrote T T' (vgaEntryColor 15 t.background) cs := by
  induction cs generalizing t T with
  | nil => exact ⟨t, T, rfl, h, rfl, Wrote.nil T _⟩
  | cons c cs ih =>
    obtain ⟨hn, hb⟩ := hcs c List.mem_cons_self
    have hput : Window (terminalWritechar c 15 t) _ := h.put hn hb
    have hbg := terminalWritechar_background c 15 t
    obtain ⟨t', T', hcalls, hwindow, hback, hwrote⟩ :=
      ih hput fun d hd => hcs d (List.mem_cons_of_mem c hd)
    rw [hbg] at hback hwrote
    exact ⟨t', T', hcalls, hwindow, hback, hwrote.cons⟩

/-- The tape holds the text from cell `start` on, blanks behind it and what it held before. -/
structure Drawn (before : Nat → Cell) (start : Nat) (color : UInt8) (blank : Set UInt8) (T : Tape)
    (text : List UInt8) : Prop where
  before : ∀ i, i < start → T.cells i = before i
  line : ∀ i (hi : i < text.length), T.cells (start + i) = ⟨text[i], color⟩
  after : ∀ i, start + text.length ≤ i → (T.cells i).char ∈ blank
  seen : T.top * vgaWidth ≤ start
  fits : start + text.length < (T.top + vgaHeight) * vgaWidth

section Draw

variable {before : Nat → Cell} {start : Nat} {color : UInt8} {blank : Set UInt8} {T T' : Tape}
  {text : List UInt8}

/-- Drawing a changed text again from the place of the change, with blanks where the old
text was longer. -/
theorem Drawn.redraw (h : Drawn before start color blank T text) {text' fill : List UInt8} {p : Nat}
    (hcursor : T.cursor = start + p) (hp : p ≤ text.length) (hp' : p ≤ text'.length)
    (hsame : ∀ i, i < p → text'[i]? = text[i]?)
    (hwrote : Wrote T T' color (text'.drop p ++ fill)) (hin : T'.cursor <
      (T'.top + vgaHeight) * vgaWidth)
    (hfill : ∀ c ∈ fill, c ∈ blank) (hcover : text.length ≤ text'.length + fill.length)
    (hsmall : text'.length + fill.length ≤ (vgaHeight - 1) * vgaWidth) :
    Drawn before start color blank T' text' := by
  have hlen : (text'.drop p ++ fill).length = text'.length - p + fill.length := by simp
  have hend : T'.cursor = start + text'.length + fill.length := by
    rw [hwrote.cursor, hlen, hcursor]; omega
  constructor
  · intro i hi
    rw [hwrote.kept i (Or.inl (by omega)), h.before i hi]
  · intro i hi
    by_cases hlow : i < p
    · have heq := hsame i hlow
      rw [List.getElem?_eq_getElem hi, List.getElem?_eq_getElem (by omega)] at heq
      rw [hwrote.kept _ (Or.inl (by omega)), h.line i (by omega), Option.some.inj heq]
    · have hw := hwrote.written (i - p) (by omega)
      rw [hcursor, show start + p + (i - p) = start + i by omega] at hw
      rw [hw, List.getElem_append_left (by simp; omega), List.getElem_drop]
      congr 2
      omega
  · intro i hi
    by_cases hhigh : T.cursor + (text'.drop p ++ fill).length ≤ i
    · rw [hwrote.kept i (Or.inr hhigh)]
      exact h.after i (by omega)
    · have hw := hwrote.written (i - T.cursor) (by omega)
      rw [show T.cursor + (i - T.cursor) = i by omega] at hw
      rw [hw, List.getElem_append_right (by simp; omega)]
      exact hfill _ (List.getElem_mem _)
  · exact hwrote.seen start h.seen (by omega)
  · omega

theorem Drawn.cursor_at (h : Drawn before start color blank T text) (place : Nat) :
    Drawn before start color blank { T with cursor := place } text :=
  ⟨h.before, h.line, h.after, h.seen, h.fits⟩

end Draw

theorem Window.inside (h : Window t T) : T.cursor < (T.top + vgaHeight) * vgaWidth := by
  obtain ⟨hrow, hcol, hcursor, -, -⟩ := h
  simp only [vgaWidth, vgaHeight] at *
  omega

/-- The terminal `t` shows the line: what is known of it between two keys. -/
structure Seen (before : Nat → Cell) (start : Nat) (background : UInt8) (blank : Set UInt8)
    (t : Terminal) (T : Tape) (l : Line) : Prop where
  window : Window t T
  cursor : T.cursor = start + l.cursor
  drawn : Drawn before start (vgaEntryColor 15 background) blank T l.text
  background : t.background = background
  inside : l.cursor ≤ l.text.length
  plain : ∀ c ∈ l.text, Plain c

section Keys

variable {before : Nat → Cell} {start : Nat} {background : UInt8} {blank : Set UInt8}
  {t : Terminal} {T : Tape} {l : Line}

section

variable (h : Seen before start background blank t T l)
include h

/-- A cursor move to a place of the line is carried out. -/
theorem Seen.move (next : Nat) (delta : Int) (hnext : next ≤ l.text.length)
    (hdelta : delta = (next : Int) - l.cursor) : ∃ t' T', t.calls [.moveCursor delta] = some t' ∧
      Seen before start background blank t' T' { l with cursor := next } := by
  have hcursor := h.cursor
  have hseen := h.drawn.seen
  have hfits := h.drawn.fits
  obtain ⟨t', hcall, hwindow, hback⟩ :=
    h.window.move delta (start + next) (by omega) (by omega) (by omega)
  refine ⟨t', { T with cursor := start + next }, ?_, hwindow, rfl, h.drawn.cursor_at _,
    hback.trans h.background, hnext, h.plain⟩
  simp only [Terminal.calls, Terminal.call, hcall, Option.bind_some]

theorem Seen.moved {next : Nat} (hnext : next ≤ l.text.length) :
    ∃ t' T', t.calls (l.moved next) = some t' ∧
      Seen before start background blank t' T' { l with cursor := next } := by
  unfold Line.moved
  by_cases heq : next = l.cursor
  · subst heq
    rw [if_neg (by simp)]
    exact ⟨t, T, rfl, h⟩
  · rw [if_pos heq]
    exact h.move next _ hnext rfl

/-- A changed text drawn from the cursor on, over the end of the old one. -/
theorem Seen.draw (text' fill : List UInt8) (hp' : l.cursor ≤ text'.length)
    (hsame : ∀ i, i < l.cursor → text'[i]? = l.text[i]?) (hplain : ∀ c ∈ text', Plain c)
    (hfill : ∀ c ∈ fill, Plain c ∧ c ∈ blank) (hcover : l.text.length ≤ text'.length + fill.length)
    (hsmall : text'.length + fill.length ≤ (vgaHeight - 1) * vgaWidth) :
    ∃ t' T', t.calls ((text'.drop l.cursor ++ fill).map .putchar) = some t' ∧ Window t' T' ∧
      t'.background = background ∧ T'.cursor = start + text'.length + fill.length ∧
      Drawn before start (vgaEntryColor 15 background) blank T' text' := by
  have hcs : ∀ c ∈ text'.drop l.cursor ++ fill, Plain c := by
    intro c hc
    rcases List.mem_append.mp hc with hc | hc
    · exact hplain c (List.mem_of_mem_drop hc)
    · exact (hfill c hc).1
  obtain ⟨t', T', hcalls, hwindow, hback, hwrote⟩ := h.window.puts hcs
  rw [h.background] at hback hwrote
  refine ⟨t', T', hcalls, hwindow, hback, ?_, ?_⟩
  · rw [hwrote.cursor, h.cursor]
    simp only [List.length_append, List.length_drop]
    omega
  · exact h.drawn.redraw h.cursor h.inside hp' hsame hwrote hwindow.inside
      (fun c hc => (hfill c hc).2) hcover hsmall

theorem Seen.erased (hblank : 0x20 ∈ blank) (hsmall : l.text.length ≤ (vgaHeight - 1) * vgaWidth) :
    ∃ t' T', t.calls (Line.erased l.text l.cursor) = some t' ∧
      Seen before start background blank t' T' { l with text := l.text.eraseIdx l.cursor } := by
  have hin := h.inside
  unfold Line.erased
  by_cases hend : l.cursor = l.text.length
  · rw [if_pos hend, List.eraseIdx_of_length_le hend.ge]
    exact ⟨t, T, rfl, h⟩
  · have hlen : (l.text.eraseIdx l.cursor).length = l.text.length - 1 :=
      List.length_eraseIdx_of_lt (by omega)
    have hplain : ∀ c ∈ l.text.eraseIdx l.cursor, Plain c :=
      fun c hc => h.plain c (List.mem_of_mem_eraseIdx hc)
    obtain ⟨t', T', hcalls, hwindow, hback, hcursor, hdrawn⟩ :=
      h.draw (l.text.eraseIdx l.cursor) [0x20] (by omega)
        (fun i hi => List.getElem?_eraseIdx_of_lt hi) hplain
        (by simp [Plain, hblank]) (by simp; omega) (by simp; omega)
    have hseen := hdrawn.seen
    have hfits := hdrawn.fits
    simp only [List.length_singleton] at hcursor
    obtain ⟨t'', hcall, hwindow', hback'⟩ :=
      hwindow.move ((l.cursor : Int) - (l.text.length - 1 : Nat) - 1)
        (start + l.cursor) (by omega) (by omega) (by omega)
    refine ⟨t'', { T' with cursor := start + l.cursor }, ?_, hwindow', rfl, hdrawn.cursor_at _,
      hback'.trans hback, by simp only; omega, hplain⟩
    rw [if_neg hend, Line.redrawn]
    rw [List.map_append] at hcalls
    rw [show ∀ m : Call, [Call.putchar 0x20, m] = [Call.putchar 0x20] ++ [m] from fun _ => rfl,
      ← List.append_assoc, Terminal.calls_append]
    rw [show List.map Call.putchar [0x20] = [Call.putchar 0x20] from rfl] at hcalls
    rw [hcalls]
    simp only [Terminal.calls, Terminal.call, hcall, Option.bind_some]

theorem Seen.inserted {c : UInt8} (hc : Plain c)
    (hsmall : l.text.length < (vgaHeight - 1) * vgaWidth) :
    ∃ t' T', t.calls (Line.inserted l.text l.cursor c) = some t' ∧
      Seen before start background blank t' T' ⟨l.text.insertIdx l.cursor c, l.cursor + 1⟩ := by
  have hin := h.inside
  have hlen : (l.text.insertIdx l.cursor c).length = l.text.length + 1 :=
    List.length_insertIdx_of_le_length hin c
  have hplain : ∀ d ∈ l.text.insertIdx l.cursor c, Plain d := by
    intro d hd
    rcases (List.mem_insertIdx hin).mp hd with rfl | hd
    · exact hc
    · exact h.plain d hd
  obtain ⟨t', T', hcalls, hwindow, hback, hcursor, hdrawn⟩ :=
    h.draw (l.text.insertIdx l.cursor c) [] (by omega)
      (fun i hi => List.getElem?_insertIdx_of_lt hi) hplain
      (by simp) (by simp; omega) (by simp; omega)
  rw [List.append_nil] at hcalls
  -- the line is on the screen with the cursor behind it
  have hfull : Seen before start background blank t' T'
      ⟨l.text.insertIdx l.cursor c, l.text.length + 1⟩ :=
    ⟨hwindow, by rw [hcursor, hlen]; simp, hdrawn, hback, by simp only; omega, hplain⟩
  unfold Line.inserted Line.redrawn
  by_cases hmid : l.cursor < l.text.length
  · rw [if_pos hmid]
    obtain ⟨t'', T'', hmove, hseen⟩ := hfull.move (l.cursor + 1)
      ((l.cursor : Int) - l.text.length) (by simp only; omega) (by push_cast; omega)
    refine ⟨t'', T'', ?_, hseen⟩
    rw [Terminal.calls_append, hcalls, Option.bind_some, hmove]
  · rw [if_neg hmid, List.append_nil]
    have hat : l.cursor = l.text.length := by omega
    rw [← hat] at hfull
    exact ⟨t', T', hcalls, hfull⟩

end

theorem plain_of_key {key : Int} (htext : 1 ≤ key ∧ key ≤ 255 ∧ key ≠ 0x0A) (hbs : key ≠ 0x08) :
    Plain (UInt8.ofNat key.toNat) := by
  obtain ⟨hlow, hhigh, hlf⟩ := htext
  constructor
  · intro heq
    have hnat := congrArg UInt8.toNat heq
    simp at hnat
    omega
  · intro heq
    have hnat := congrArg UInt8.toNat heq
    simp at hnat
    omega

/-- A key's calls are all carried out, and the screen then shows the line after the key. -/
theorem Seen.key (h : Seen before start background blank t T l) (hblank : 0x20 ∈ blank)
    (hsmall : l.text.length < (vgaHeight - 1) * vgaWidth) (key : Int) :
    ∃ t' T', t.calls (l.drawn key) = some t' ∧
      Seen before start background blank t' T' (l.key key) := by
  have hin := h.inside
  unfold Line.drawn
  by_cases hbs : key = 0x08
  · rw [if_pos hbs, hbs, Line.key_backspace]
    by_cases hzero : l.cursor = 0
    · rw [if_pos hzero, if_pos hzero]
      exact ⟨t, T, rfl, h⟩
    · rw [if_neg hzero, if_neg hzero]
      obtain ⟨t', T', hmove, hleft⟩ := h.move (l.cursor - 1) (-1) (by omega) (by omega)
      obtain ⟨t'', T'', herase, hseen⟩ := hleft.erased hblank hsmall.le
      refine ⟨t'', T'', ?_, hseen⟩
      rw [← List.singleton_append, Terminal.calls_append, hmove]
      exact herase
  rw [if_neg hbs]
  by_cases hdel : key = keyDelete
  · rw [if_pos hdel, hdel, Line.key_delete]
    exact h.erased hblank hsmall.le
  rw [if_neg hdel]
  by_cases htext : 1 ≤ key ∧ key ≤ 255 ∧ key ≠ 0x0A
  · rw [if_pos htext, l.key_text htext hbs]
    exact h.inserted (plain_of_key htext hbs) hsmall
  · have hkey : l.key key = { l with cursor := (l.key key).cursor } ∧
        (l.key key).cursor ≤ l.text.length := by
      simp only [Line.key, if_neg hbs, if_neg hdel, if_neg htext]
      split_ifs <;> simp <;> omega
    rw [if_neg htext, hkey.1]
    exact h.moved hkey.2

end Keys

/-! ## The line on the page -/

def Terminal.place (t : Terminal) : Nat := t.row * vgaWidth + t.col

/-- A cursor on the page, and nothing but blanks from it on. -/
structure Ready (t : Terminal) (blank : Set UInt8) : Prop where
  row : t.row < vgaHeight
  col : t.col < vgaWidth
  space : 0x20 ∈ blank
  ahead : ∀ i, t.place ≤ i → i < vgaHeight * vgaWidth → (t.cells i).char ∈ blank

/-- `t` shows the line that was begun at the cursor of `t₀`, now `n` rows further up. -/
structure OnScreen (t₀ t : Terminal) (blank : Set UInt8) (l : Line) (n : Nat) : Prop where
  row : t.row < vgaHeight
  col : t.col < vgaWidth
  seen : n * vgaWidth ≤ t₀.place
  cursor : t.place + n * vgaWidth = t₀.place + l.cursor
  before : ∀ i, i + n * vgaWidth < t₀.place → t.cells i = t₀.cells (i + n * vgaWidth)
  line : ∀ i (hi : i < l.text.length), t.cells (t₀.place - n * vgaWidth + i) =
    ⟨l.text[i], vgaEntryColor 15 t₀.background⟩
  fits : t₀.place - n * vgaWidth + l.text.length < vgaHeight * vgaWidth
  after : ∀ i, t₀.place - n * vgaWidth + l.text.length ≤ i → i < vgaHeight * vgaWidth →
    (t.cells i).char ∈ blank

/-- The tape whose first page is the screen. -/
def Terminal.tape (t : Terminal) : Tape :=
  { cells := fun i => if i < vgaHeight * vgaWidth then t.cells i else ⟨0x20, t.color⟩
    cursor := t.place
    top := 0 }

theorem Ready.seen {blank : Set UInt8} (h : Ready t blank) :
    Seen t.tape.cells t.place t.background blank t t.tape ⟨[], 0⟩ := by
  obtain ⟨hrow, hcol, hspace, hahead⟩ := h
  have hplace : t.place < vgaHeight * vgaWidth := by
    simp only [Terminal.place, vgaWidth, vgaHeight] at *
    omega
  refine ⟨⟨hrow, hcol, ?_, ?_, ?_⟩, rfl, ⟨fun _ _ => rfl, ?_, ?_, ?_, ?_⟩, rfl, le_rfl, ?_⟩
  · simp [Terminal.tape, Terminal.place]
  · intro i hi
    simp [Terminal.tape, hi]
  · intro i hi
    simp only [Terminal.tape, Nat.zero_add] at hi ⊢
    exact if_neg (Nat.not_lt.mpr hi)
  · intro i hi
    exact absurd hi (Nat.not_lt_zero i)
  · intro i hi
    by_cases hpage : i < vgaHeight * vgaWidth
    · simpa [Terminal.tape, hpage] using hahead i hi hpage
    · simpa [Terminal.tape, hpage] using hspace
  · simp [Terminal.tape]
  · simpa [Terminal.tape] using hplace
  · intro c hc
    cases hc

theorem Seen.onScreen {t₀ : Terminal} {blank : Set UInt8}
    (h : Seen t₀.tape.cells t₀.place t₀.background blank t T l) (h₀ : Ready t₀ blank) :
    OnScreen t₀ t blank l T.top := by
  obtain ⟨hwindow, hcursor, hdrawn, -, -, -⟩ := h
  obtain ⟨hbefore, hline, hafter, hseen, hfits⟩ := hdrawn
  have hplace : t₀.place < vgaHeight * vgaWidth := by
    have hrow := h₀.row
    have hcol := h₀.col
    simp only [Terminal.place, vgaWidth, vgaHeight] at *
    omega
  have hat := hwindow.cursor
  rw [Nat.add_mul] at hfits
  refine ⟨hwindow.row, hwindow.col, hseen, ?_, ?_, ?_, by omega, ?_⟩
  · simp only [Terminal.place] at *
    omega
  · intro i hi
    rw [hwindow.cells i (by omega), Nat.add_comm _ i, hbefore _ hi]
    exact if_pos (by omega)
  · intro i hi
    rw [hwindow.cells _ (by omega), ← hline i hi]
    congr 1
    omega
  · intro i hi hpage
    rw [hwindow.cells i hpage]
    exact hafter _ (by omega)

/-! ## The whole call -/

/-- What the caller and the screen see of a line. -/
structure Holds (size : Int) (echo : Bool) (e : Editor) (l : Line) : Prop where
  bytes : ∀ i, i < l.text.length → l.text[i]? = some (e.out.bytes i)
  terminated : e.out.bytes l.text.length = 0
  extent : (e.out.extent : Int) ≤ size
  silent : echo = false → e.calls = []
  screen : echo = true → ∀ t₀ blank, Ready t₀ blank →
    ∃ t n, t₀.calls e.calls = some t ∧ OnScreen t₀ t blank l n

/-- `Holds` with what the next key needs. -/
structure Keeps (capacity : Nat) (echo : Bool) (e : Editor) (l : Line) : Prop where
  stores : Stores capacity e l
  silent : echo = false → e.calls = []
  screen : echo = true → ∀ t₀ blank, Ready t₀ blank →
    ∃ t T, t₀.calls e.calls = some t ∧ Seen t₀.tape.cells t₀.place t₀.background blank t T l

theorem Keeps.holds (h : Keeps capacity echo e l) (hsize : (capacity : Int) + 1 ≤ size) :
    Holds size echo e l := by
  refine ⟨h.stores.bytes, h.stores.terminated, ?_, h.silent, ?_⟩
  · have hextent := h.stores.extent
    omega
  · intro hecho t₀ blank h₀
    obtain ⟨t, T, hcalls, hseen⟩ := h.screen hecho t₀ blank h₀
    exact ⟨t, T.top, hcalls, hseen.onScreen h₀⟩

theorem Keeps.key (h : Keeps capacity echo e l)
    (hlimit : echo = true → capacity ≤ readlineEchoLimit) (hroom : l.text.length < capacity)
    (key : Int) : Keeps capacity echo (readlineKey echo key e) (l.key key) := by
  obtain ⟨hstores, htells⟩ : _ ∧ Tells echo e _ _ := h.stores.readlineKey hroom key
  refine ⟨hstores, ?_, ?_⟩
  · intro hecho
    rw [htells, h.silent hecho, hecho]
    rfl
  · intro hecho t₀ blank h₀
    obtain ⟨t, T, hcalls, hseen⟩ := h.screen hecho t₀ blank h₀
    have hsmall : l.text.length < (vgaHeight - 1) * vgaWidth := by
      have hcap := hlimit hecho
      simp only [readlineEchoLimit, vgaHeight, vgaWidth] at hcap ⊢
      omega
    obtain ⟨t', T', hcalls', hseen'⟩ := hseen.key h₀.space hsmall key
    refine ⟨t', T', ?_, hseen'⟩
    rw [htells, hecho, if_pos rfl, Terminal.calls_append, hcalls]
    exact hcalls'

theorem Keeps.start (capacity : Nat) (echo : Bool) (bytes : Nat → UInt8) :
    Keeps capacity echo (readlineStart bytes) ⟨[], 0⟩ := by
  refine ⟨⟨rfl, rfl, le_rfl, Nat.zero_le _, ?_, ?_, ?_⟩, fun _ => rfl, ?_⟩
  · intro i hi
    exact absurd hi (Nat.not_lt_zero i)
  · simp [readlineStart, Buffer.set]
  · simp [readlineStart, Buffer.set]
  · intro _ t₀ blank h₀
    exact ⟨t₀, t₀.tape, rfl, h₀.seen⟩

theorem Keeps.finish (h : Keeps capacity echo e l) (hsize : (capacity : Int) + 1 ≤ size) :
    Holds size echo (readlineFinish echo e) { l with cursor := l.text.length } := by
  have hin := h.stores.inside
  have hh := h.holds hsize
  unfold readlineFinish
  rw [h.stores.position, h.stores.length]
  by_cases hmid : l.cursor < l.text.length
  · rw [if_pos hmid]
    refine ⟨by simpa using hh.bytes, by simpa using hh.terminated, by simpa using hh.extent, ?_, ?_⟩
    · intro hecho
      rw [Editor.say_calls, hh.silent hecho, hecho]
      rfl
    · intro hecho t₀ blank h₀
      obtain ⟨t, T, hcalls, hseen⟩ := h.screen hecho t₀ blank h₀
      obtain ⟨t', T', hmove, hseen'⟩ := hseen.move l.text.length _ le_rfl rfl
      refine ⟨t', T'.top, ?_, hseen'.onScreen h₀⟩
      rw [Editor.say_calls, hecho, if_pos rfl, Terminal.calls_append, hcalls]
      exact hmove
  · rw [if_neg hmid, ← show l.cursor = l.text.length by omega]
    exact hh

theorem readlineCapacity_fits (hsize : 1 ≤ size) (echo : Bool) :
    (readlineCapacity size echo : Int) + 1 ≤ size := by
  simp only [readlineCapacity]
  split_ifs with h
  · have hbig := h.2
    omega
  · omega

theorem readlineCapacity_echo (size : Int) : readlineCapacity size true ≤ readlineEchoLimit := by
  simp only [readlineCapacity, true_and]
  split_ifs with h
  · exact le_rfl
  · exact Nat.not_lt.mp h

/-- The length at which a line is full. -/
def lineLimit (size : Int) (echo : Bool) : Nat :=
  if echo then min (size - 1).toNat 1023 else (size - 1).toNat

theorem readlineCapacity_eq (size : Int) (echo : Bool) :
    readlineCapacity size echo = lineLimit size echo := by
  cases echo with
  | false => simp [readlineCapacity, lineLimit]
  | true =>
    simp only [readlineCapacity, lineLimit, readlineEchoLimit, true_and, if_true]
    split_ifs with h
    · omega
    · omega

/-- The buffer, the keys taken and the screen are those of the string editor, after every
key and on return. -/
theorem readline_agrees (bytes : Nat → UInt8) (size : Int) (hsize : 1 ≤ size) (echo : Bool)
    (keys : List Int) :
    (readlineLoop echo (readlineCapacity size echo) keys (readlineStart bytes)).Agree
        (Holds size echo) (Line.read (lineLimit size echo) keys ⟨[], 0⟩) ∧
      ∃ p, rorthoxTerminalReadline (some bytes) size echo keys = some p ∧
        p.Agree (Holds size echo) (Line.readline (lineLimit size echo) keys) := by
  have hfits := readlineCapacity_fits hsize echo
  have hlimit : echo = true → readlineCapacity size echo ≤ readlineEchoLimit := by
    rintro rfl
    exact readlineCapacity_echo size
  have hloop := readlineLoop_agree (R := Keeps (readlineCapacity size echo) echo)
    (fun _ _ h => h.stores.length)
    (fun _ _ key h hroom => Keeps.key h hlimit hroom key) keys
    (Keeps.start (readlineCapacity size echo) echo bytes)
  rw [readlineCapacity_eq] at hloop hfits ⊢
  simp only [rorthoxTerminalReadline, if_neg (show ¬ size ≤ 0 by omega), Line.readline,
    readlineCapacity_eq]
  revert hloop
  cases readlineLoop echo (lineLimit size echo) keys (readlineStart bytes) with
  | waiting e =>
    cases Line.read (lineLimit size echo) keys ⟨[], 0⟩ with
    | waiting l =>
      intro h
      exact ⟨h.holds hfits, _, rfl, h.holds hfits⟩
    | ended l rest => exact False.elim
  | ended e rest =>
    cases Line.read (lineLimit size echo) keys ⟨[], 0⟩ with
    | waiting l => exact False.elim
    | ended l rest' =>
      intro h
      exact ⟨⟨h.1.holds hfits, h.2⟩, _, rfl, h.1.finish hfits, h.2⟩

/-- `AB`, Left, `C`, CR and a key that is left: the line is `ACB`. -/
theorem readline_agrees_insert :
    Line.readline (lineLimit 8 true) [65, 66, keyLeft, 67, 13, 68] = .ended ⟨[65, 67, 66], 3⟩ [68] ∧
      ∃ p, rorthoxTerminalReadline (some fun _ => 0xFF) 8 true [65, 66, keyLeft, 67, 13, 68] =
        some p ∧
        p.Agree (Holds 8 true) (Line.readline (lineLimit 8 true) [65, 66, keyLeft, 67, 13, 68]) :=
  ⟨by decide, (readline_agrees (fun _ => 0xFF) 8 (by decide) true [65, 66, keyLeft, 67, 13, 68]).2⟩

end Rorthox.Term
