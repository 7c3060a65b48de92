import Rorthox.Term.Terminal

/-!
# The terminal as a window on an endless page

Everything that writes to the terminal, from `terminal_initialize` on, against a page
without an end: characters land under an absolute cursor, and the 25 rows on the screen
are those from row `top` on.
-/

namespace Rorthox.Term

/-! ## What the kernel calls -/

/-- The line that `terminal_initialize` leaves on the first row, with its final zero. -/
def banner : List UInt8 :=
  [0x43, 0x6F, 0x70, 0x79, 0x72, 0x69, 0x67, 0x68, 0x74, 0x20, 0x28, 0x43, 0x29, 0x20, 0x52, 0x20,
   0x43, 0x20, 0x4E, 0x2C, 0x20, 0x47, 0x50, 0x4C, 0x2D, 0x32, 0x2E, 0x30, 0x00]

/-- The body of the loops of `terminal_initialize`. -/
def initCell (y : Nat) (t : Terminal) (x : Nat) : Terminal :=
  let index := y * vgaWidth + x
  let t := { t with cells := Function.update t.cells index ⟨0x00, t.color⟩ }
  if x < banner.length ∧ y = 0 then
    { t with cells := Function.update t.cells index ⟨banner.getD x 0, t.color⟩, col := t.col + 1 }
  else if x ≤ banner.length ∧ y = 0 then { t with col := 0, row := t.row + 1 }
  else t

def initRow (t : Terminal) (y : Nat) : Terminal := (List.range vgaWidth).foldl (initCell y) t

def terminalInitialize (bgColour : UInt8) (t : Terminal) : Terminal :=
  (List.range vgaHeight).foldl initRow
    { t with row := 0, col := 0, background := bgColour, color := vgaEntryColor 15 bgColour }

def print (str : List UInt8) (t : Terminal) : Terminal :=
  str.foldl (fun t c => terminalWritechar c 15 t) t

/-- The colour reaches `terminal_writechar` as a `char`. -/
def printc (str : List UInt8) (color : UInt32) (t : Terminal) : Terminal :=
  str.foldl (fun t c => terminalWritechar c color.toUInt8 t) t

def percent : UInt8 := 0x25

/-- `vprintf` on the characters before a conversion, with the number of them it has
counted; `none` at a conversion. A percent sign at the very end is a character. -/
def vprintfText : List UInt8 → Nat → Terminal → Option (Nat × Terminal)
  | [], count, t => some (count, t)
  | c :: rest, count, t =>
      if c ≠ percent ∨ rest = [] then
        if c = 0x0A then vprintfText rest count (checkIndent { t with row := t.row + 1, col := 0 })
        else
          let t := terminalPutchar t.col t.row c 15 t
          vprintfText rest (count + 1) (checkIndent { t with col := t.col + 1 })
      else none

inductive TermOp where
  | writechar (c colour : UInt8)
  | print (str : List UInt8)
  | printc (str : List UInt8) (color : UInt32)
  | backspace
  | moveCursor (delta : Int)
  /-- Text without a conversion. -/
  | vprintf (text : List UInt8) (literal : percent ∉ text.dropLast)

/-- A refused move leaves the terminal as it is. -/
def Terminal.op (t : Terminal) : TermOp → Terminal
  | .writechar c colour => terminalWritechar c colour t
  | .print str => Term.print str t
  | .printc str color => Term.printc str color t
  | .backspace => terminalBackspace t
  | .moveCursor delta => (terminalMoveCursor delta t).getD t
  | .vprintf text _ => ((vprintfText text 0 t).map Prod.snd).getD t

/-! ## The page -/

namespace Tape

def blank (bg : UInt8) : Cell := ⟨0x20, vgaEntryColor 15 bg⟩

/-- To the next multiple of the width. -/
def newline (T : Tape) : Tape :=
  let cursor := (T.cursor / vgaWidth + 1) * vgaWidth
  { T with
    cursor := cursor
    top := if cursor = (T.top + vgaHeight) * vgaWidth then T.top + 1 else T.top }

def backspace (bg : UInt8) (T : Tape) : Tape :=
  if T.cursor = T.top * vgaWidth then T
  else { T with cells := Function.update T.cells (T.cursor - 1) (blank bg), cursor := T.cursor - 1 }

/-- Inside the window the cursor may go anywhere. -/
def move (delta : Int) (T : Tape) : Option Tape :=
  if (T.top * vgaWidth : Int) ≤ T.cursor + delta ∧
      (T.cursor + delta : Int) < (T.top + vgaHeight) * vgaWidth then
    some { T with cursor := (T.cursor + delta).toNat }
  else none

theorem move_isSome (delta : Int) (T : Tape) : (T.move delta).isSome ↔
    (T.top * vgaWidth : Int) ≤ T.cursor + delta ∧
      (T.cursor + delta : Int) < (T.top + vgaHeight) * vgaWidth := by
  rw [move]
  split
  · exact iff_of_true rfl ‹_›
  · exact iff_of_false Bool.false_ne_true ‹_›

/-- A character that is printed as it stands, a newline apart. -/
def text (bg colour : UInt8) (T : Tape) (c : UInt8) : Tape :=
  if c = 0x0A then T.newline else T.put ⟨c, vgaEntryColor colour bg⟩

def char (bg colour : UInt8) (T : Tape) (c : UInt8) : Tape :=
  if c = 0x08 then T.backspace bg else T.text bg colour c

def op (bg : UInt8) (T : Tape) : TermOp → Tape
  | .writechar c colour => T.char bg colour c
  | .print str => str.foldl (char bg 15) T
  | .printc str color => str.foldl (char bg color.toUInt8) T
  | .backspace => T.backspace bg
  | .moveCursor delta => (T.move delta).getD T
  | .vprintf s _ => s.foldl (text bg 15) T

/-- The page under the screen that `terminal_initialize` leaves: the cursor on the second
row, and blanks from the end of the screen on. -/
def boot (bg : UInt8) (screen : Nat → Cell) : Tape :=
  { cells := fun i => if i < vgaHeight * vgaWidth then screen i else blank bg
    cursor := vgaWidth
    top := 0 }

end Tape

/-! ## What every call leaves alone -/

/-- The colours, and all memory behind the 2000 cells. -/
structure Kept (t t' : Terminal) : Prop where
  background : t'.background = t.background
  color : t'.color = t.color
  outside : ∀ i, vgaHeight * vgaWidth ≤ i → t'.cells i = t.cells i

namespace Kept

theorem refl (t : Terminal) : Kept t t := ⟨rfl, rfl, fun _ _ => rfl⟩

theorem trans {t t' t'' : Terminal} (h : Kept t t') (h' : Kept t' t'') : Kept t t'' :=
  ⟨h'.background.trans h.background, h'.color.trans h.color,
    fun i hi => (h'.outside i hi).trans (h.outside i hi)⟩

theorem place (t : Terminal) (row col : Nat) : Kept t { t with row := row, col := col } :=
  ⟨rfl, rfl, fun _ _ => rfl⟩

theorem scroll (t : Terminal) : Kept t (terminalScroll t) := by
  refine ⟨rfl, rfl, fun i hi => ?_⟩
  have hlow : ¬ i < (vgaHeight - 1) * vgaWidth := by
    simp only [vgaHeight, vgaWidth] at hi ⊢
    omega
  simp only [terminalScroll, if_neg hlow, if_neg (Nat.not_lt.mpr hi)]

theorem checkIndent (t : Terminal) : Kept t (checkIndent t) := by
  have hwrap : Kept t (if t.col ≥ vgaWidth then { t with col := 0, row := t.row + 1 } else t) := by
    split
    · exact ⟨rfl, rfl, fun _ _ => rfl⟩
    · exact refl t
  refine hwrap.trans ?_
  rw [Term.checkIndent]
  generalize (if t.col ≥ vgaWidth then { t with col := 0, row := t.row + 1 } else t) = t'
  split
  · exact scroll t'
  · exact refl t'

theorem putchar (x y : Nat) (c colour : UInt8) (t : Terminal) :
    Kept t (terminalPutchar x y c colour t) := by
  rw [terminalPutchar]
  split
  · exact refl t
  · refine ⟨rfl, rfl, fun i hi => Function.update_of_ne ?_ _ _⟩
    simp only [vgaHeight, vgaWidth] at *
    omega

theorem backspace (t : Terminal) : Kept t (terminalBackspace t) := by
  rw [terminalBackspace]
  split
  · exact refl t
  · refine trans ?_ (putchar _ _ _ _ _)
    split
    · exact ⟨rfl, rfl, fun _ _ => rfl⟩
    · exact ⟨rfl, rfl, fun _ _ => rfl⟩

end Kept

/-! ## One call -/

/-- The screen shows the page, in the colours of the boot, over memory that was `before`. -/
structure Shows (bg : UInt8) (before : Nat → Cell) (t : Terminal) (T : Tape) : Prop where
  window : Window t T
  background : t.background = bg
  color : t.color = vgaEntryColor 15 bg
  outside : ∀ i, vgaHeight * vgaWidth ≤ i → t.cells i = before i

theorem Shows.of_kept {bg : UInt8} {before : Nat → Cell} {t t' : Terminal} {T T' : Tape}
    (h : Shows bg before t T) (hkept : Kept t t') (hwindow : Window t' T') :
    Shows bg before t' T' :=
  ⟨hwindow, hkept.background.trans h.background, hkept.color.trans h.color,
    fun i hi => (hkept.outside i hi).trans (h.outside i hi)⟩

theorem Window.newline {t : Terminal} {T : Tape} (h : Window t T) :
    Window (checkIndent { t with row := t.row + 1, col := 0 }) T.newline := by
  obtain ⟨hrow, hcol, hcursor, hcells, hbelow⟩ := h
  have hnext : (T.cursor / vgaWidth + 1) * vgaWidth = T.top * vgaWidth +
      ((t.row + 1) * vgaWidth + 0) := by
    simp only [vgaWidth] at hcol hcursor ⊢
    omega
  refine Window.settle (T := { T with cursor := (T.cursor / vgaWidth + 1) * vgaWidth }) ?_ hnext
    hcells hbelow
  rcases Nat.lt_or_eq_of_le (Nat.succ_le_of_lt hrow) with hlt | heq
  · exact Or.inl ⟨hlt, Nat.zero_le _⟩
  · exact Or.inr ⟨heq, rfl⟩

/-- Blanks are of one colour, whether a row comes in or a cell is erased. -/
theorem vgaEntryColor_blank (bg : UInt8) :
    vgaEntryColor (vgaEntryColor 15 bg) bg = vgaEntryColor 15 bg := by
  rw [vgaEntryColor, vgaEntryColor, UInt8.or_assoc, UInt8.or_self]

theorem Window.erase {t : Terminal} {T : Tape} (h : Window t T) {bg : UInt8}
    (hbg : t.background = bg)
    (hcolor : t.color = vgaEntryColor 15 bg) : Window (terminalBackspace t) (T.backspace bg) := by
  obtain ⟨hrow, hcol, hcursor, hcells, hbelow⟩ := h
  by_cases hfirst : t.row = 0 ∧ t.col = 0
  · have hstart : T.cursor = T.top * vgaWidth := by
      rw [hcursor, hfirst.1, hfirst.2, Nat.zero_mul, Nat.add_zero]
    rw [terminalBackspace, if_pos hfirst, Tape.backspace, if_pos hstart]
    exact ⟨hrow, hcol, hcursor, hcells, hbelow⟩
  · -- one place back, across the row's start or not, is one place back on the page
    obtain ⟨t', ht', hrow', hcol', hplace, hcells', hcolors⟩ :
        ∃ t' : Terminal, terminalBackspace t = terminalPutchar t'.col t'.row 0x20 t'.color t' ∧
          t'.row < vgaHeight ∧ t'.col < vgaWidth ∧
          t'.row * vgaWidth + t'.col + 1 = t.row * vgaWidth + t.col ∧ t'.cells = t.cells ∧
          t'.color = t.color ∧ t'.background = t.background := by
      rw [terminalBackspace, if_neg hfirst]
      by_cases hzero : t.col = 0
      · refine ⟨{ t with row := t.row - 1, col := vgaWidth - 1 }, by rw [if_pos hzero], ?_, ?_, ?_,
          rfl, rfl, rfl⟩
        · exact Nat.lt_of_le_of_lt (Nat.sub_le _ _) hrow
        · exact Nat.lt_succ_self 79
        · simp only [vgaWidth]
          omega
      · refine ⟨{ t with col := t.col - 1 }, by rw [if_neg hzero], hrow, ?_, ?_, rfl, rfl, rfl⟩
        · exact Nat.lt_of_le_of_lt (Nat.sub_le _ _) hcol
        · dsimp only
          omega
    have hstart : ¬ T.cursor = T.top * vgaWidth := by omega
    have hcursor' : T.cursor - 1 = T.top * vgaWidth + (t'.row * vgaWidth + t'.col) := by omega
    have hinside : ¬ (t'.col ≥ vgaWidth ∨ t'.row ≥ vgaHeight) := by omega
    have hcell : (⟨0x20, vgaEntryColor t'.color t'.background⟩ : Cell) = Tape.blank bg := by
      rw [hcolors.1, hcolors.2, hcolor, hbg, vgaEntryColor_blank]
      rfl
    rw [ht', Tape.backspace, if_neg hstart, terminalPutchar, if_neg hinside, hcell, hcells']
    refine ⟨hrow', hcol', hcursor', shown hcursor' hcells, ?_⟩
    rw [hcolors.1]
    refine below_update hbelow ?_ le_rfl
    simp only [vgaWidth, vgaHeight] at hrow' hcol' hcursor'
    omega

theorem Kept.moveCursor {delta : Int} {t t' : Terminal} (h : terminalMoveCursor delta t = some t') :
    Kept t t' := by
  rw [terminalMoveCursor] at h
  split at h
  · cases h
  · obtain rfl := Option.some.inj h
    exact ⟨rfl, rfl, fun _ _ => rfl⟩

/-- A move is refused on the screen exactly when it is on the page. -/
theorem Window.moved {t : Terminal} {T : Tape} (h : Window t T) (delta : Int) :
    (∃ t' T', terminalMoveCursor delta t = some t' ∧ T.move delta = some T' ∧ Window t' T') ∨
      terminalMoveCursor delta t = none ∧ T.move delta = none := by
  by_cases hin : (T.top * vgaWidth : Int) ≤ T.cursor + delta ∧
      (T.cursor + delta : Int) < (T.top + vgaHeight) * vgaWidth
  · left
    have hnat : ((T.cursor + delta).toNat : Int) = T.cursor + delta :=
      Int.toNat_of_nonneg (Int.le_trans (by positivity) hin.1)
    obtain ⟨t', hmove, hwindow, -⟩ := h.move delta _ hnat (by zify; omega) (by zify; omega)
    exact ⟨t', _, hmove, if_pos hin, hwindow⟩
  · right
    have hcursor : (T.cursor : Int) = T.top * vgaWidth + (t.row * vgaWidth + t.col) := by
      exact_mod_cast h.cursor
    refine ⟨?_, if_neg hin⟩
    rw [terminalMoveCursor]
    refine if_pos ?_
    by_contra hok
    push Not at hok
    refine hin ⟨by linarith, ?_⟩
    rw [add_mul]
    linarith [mul_comm (vgaWidth : Int) vgaHeight]

variable {bg : UInt8} {before : Nat → Cell} {t : Terminal} {T : Tape}

namespace Shows

section

variable (h : Shows bg before t T)
include h

theorem newline :
    Shows bg before (checkIndent { t with row := t.row + 1, col := 0 }) T.newline := by
  exact h.of_kept ((Kept.place t _ _).trans (Kept.checkIndent _)) h.window.newline

theorem put (c colour : UInt8) : Shows bg before
      (checkIndent { terminalPutchar t.col t.row c colour t with
        col := (terminalPutchar t.col t.row c colour t).col + 1 })
      (T.put ⟨c, vgaEntryColor colour bg⟩) := by
  have hwindow := h.window.put_cell c colour
  rw [h.background] at hwindow
  refine h.of_kept ((Kept.putchar t.col t.row c colour t).trans ?_) hwindow
  exact (Kept.place (terminalPutchar t.col t.row c colour t) _ _).trans (Kept.checkIndent _)

theorem backspace : Shows bg before (terminalBackspace t) (T.backspace bg) :=
  h.of_kept (Kept.backspace t) (h.window.erase h.background h.color)

theorem writechar (c colour : UInt8) :
    Shows bg before (terminalWritechar c colour t) (T.char bg colour c) := by
  rw [terminalWritechar, Tape.char, Tape.text]
  by_cases hn : c = 0x0A
  · rw [if_pos hn, if_neg (by rw [hn]; decide), if_pos hn]
    exact h.newline
  · by_cases hb : c = 0x08
    · rw [if_neg hn, if_pos hb, if_pos hb]
      exact h.backspace
    · rw [if_neg hn, if_neg hb, if_neg hb, if_neg hn]
      exact h.put c colour

theorem moveCursor (delta : Int) :
    Shows bg before ((terminalMoveCursor delta t).getD t) ((T.move delta).getD T) := by
  rcases h.window.moved delta with ⟨t', T', hmove, hpage, hwindow⟩ | ⟨hmove, hpage⟩
  · rw [hmove, hpage]
    exact h.of_kept (Kept.moveCursor hmove) hwindow
  · rw [hmove, hpage]
    exact h

theorem string (colour : UInt8) (str : List UInt8) :
    Shows bg before (str.foldl (fun t c => terminalWritechar c colour t) t)
      (str.foldl (Tape.char bg colour) T) := by
  induction str generalizing t T with
  | nil => exact h
  | cons c str ih => exact ih (h.writechar c colour)

/-- Text without a conversion goes through to its end, a backspace in it as a character. -/
theorem text (count : Nat) {s : List UInt8} (hs : percent ∉ s.dropLast) :
    ∃ n t', vprintfText s count t = some (n, t') ∧ Shows bg before t'
      (s.foldl (Tape.text bg 15) T) := by
  induction s generalizing t T count with
  | nil => exact ⟨count, t, rfl, h⟩
  | cons c rest ih =>
    have hplain : c ≠ percent ∨ rest = [] := by
      rcases eq_or_ne rest [] with hrest | hrest
      · exact Or.inr hrest
      · rw [List.dropLast_cons_of_ne_nil hrest] at hs
        exact Or.inl fun hc => hs (hc ▸ List.mem_cons_self)
    have hrest : percent ∉ rest.dropLast := by
      rcases eq_or_ne rest [] with rfl | hrest
      · exact List.not_mem_nil
      · rw [List.dropLast_cons_of_ne_nil hrest] at hs
        exact fun hc => hs (List.mem_cons_of_mem _ hc)
    rw [vprintfText, if_pos hplain, List.foldl_cons, Tape.text]
    by_cases hn : c = 0x0A
    · rw [if_pos hn, if_pos hn]
      exact ih h.newline count hrest
    · rw [if_neg hn, if_neg hn]
      exact ih (h.put c 15) (count + 1) hrest

theorem op (o : TermOp) : Shows bg before (t.op o) (T.op bg o) := by
  cases o with
  | writechar c colour => exact h.writechar c colour
  | print str => exact h.string 15 str
  | printc str color => exact h.string color.toUInt8 str
  | backspace => exact h.backspace
  | moveCursor delta => exact h.moveCursor delta
  | vprintf s literal =>
    obtain ⟨n, t', hrun, hshows⟩ := h.text 0 literal
    rw [Terminal.op, hrun]
    exact hshows

theorem ops (os : List TermOp) :
    Shows bg before (os.foldl Terminal.op t) (os.foldl (Tape.op bg) T) := by
  induction os generalizing t T with
  | nil => exact h
  | cons o os ih => exact ih (h.op o)

end

end Shows

/-! ## From the start -/

theorem kept_initCell {y x : Nat} (hy : y < vgaHeight) (hx : x < vgaWidth) (t : Terminal) :
    Kept t (initCell y t x) := by
  have hcell : ∀ i, vgaHeight * vgaWidth ≤ i → i ≠ y * vgaWidth + x := by
    simp only [vgaHeight, vgaWidth] at hy hx ⊢
    omega
  rw [initCell]
  split
  · refine ⟨rfl, rfl, fun i hi => ?_⟩
    exact (Function.update_of_ne (hcell i hi) _ _).trans (Function.update_of_ne (hcell i hi) _ _)
  · split
    · exact ⟨rfl, rfl, fun i hi => Function.update_of_ne (hcell i hi) _ _⟩
    · exact ⟨rfl, rfl, fun i hi => Function.update_of_ne (hcell i hi) _ _⟩

/-- A loop whose steps keep what they must keep keeps it. -/
theorem kept_foldl (step : Terminal → Nat → Terminal) (n : Nat) (t : Terminal)
    (h : ∀ k < n, ∀ t, Kept t (step t k)) : Kept t ((List.range n).foldl step t) := by
  induction n with
  | zero => exact .refl t
  | succ n ih =>
    rw [List.range_succ, List.foldl_append]
    exact (ih fun k hk => h k (Nat.lt_succ_of_lt hk)).trans (h n (Nat.lt_succ_self n) _)

theorem kept_initRow {y : Nat} (hy : y < vgaHeight) (t : Terminal) : Kept t (initRow t y) :=
  kept_foldl (initCell y) vgaWidth t fun _ hx t => kept_initCell hy hx t

/-- The column counts along the line on the first row, and goes to the next row behind it. -/
theorem initRow_first (n : Nat) (t : Terminal) (hrow : t.row = 0) (hcol : t.col = 0) :
    ((List.range n).foldl (initCell 0) t).row = (if n ≤ banner.length then 0 else 1) ∧
      ((List.range n).foldl (initCell 0) t).col = if n ≤ banner.length then n else 0 := by
  induction n with
  | zero => exact ⟨hrow, hcol⟩
  | succ n ih =>
    rw [List.range_succ, List.foldl_append, List.foldl_cons, List.foldl_nil]
    generalize (List.range n).foldl (initCell 0) t = t' at ih
    obtain ⟨hrow', hcol'⟩ := ih
    have hlen : banner.length = 29 := rfl
    rw [hlen] at hrow' hcol' ⊢
    rw [initCell, hlen]
    rcases Nat.lt_trichotomy n 29 with h | h | h
    · rw [if_pos ⟨h, rfl⟩]
      rw [if_pos (by omega)] at hrow' hcol'
      rw [if_pos (by omega), if_pos (by omega)]
      exact ⟨hrow', congrArg (· + 1) hcol'⟩
    · rw [if_neg (by omega), if_pos ⟨by omega, rfl⟩, if_neg (by omega), if_neg (by omega)]
      rw [if_pos (by omega)] at hrow'
      exact ⟨congrArg (· + 1) hrow', rfl⟩
    · rw [if_neg (by omega), if_neg (by omega), if_neg (by omega), if_neg (by omega)]
      rw [if_neg (by omega)] at hrow' hcol'
      exact ⟨hrow', hcol'⟩

theorem initRow_later {y : Nat} (hy : y ≠ 0) (t : Terminal) :
    (initRow t y).row = t.row ∧ (initRow t y).col = t.col := by
  rw [initRow]
  induction vgaWidth with
  | zero => exact ⟨rfl, rfl⟩
  | succ n ih =>
    rw [List.range_succ, List.foldl_append, List.foldl_cons, List.foldl_nil, initCell,
      if_neg (fun h => hy h.2), if_neg (fun h => hy h.2)]
    exact ih

theorem initialized_place (bg : UInt8) (t : Terminal) :
    (terminalInitialize bg t).row = 1 ∧ (terminalInitialize bg t).col = 0 := by
  have hrows : ∀ (n : Nat) (t : Terminal), t.row = 0 → t.col = 0 →
      ((List.range (n + 1)).foldl initRow t).row = 1 ∧ ((List.range (n + 1)).foldl initRow t).col =
        0 := by
    intro n t hrow hcol
    induction n with
    | zero =>
      obtain ⟨hr, hc⟩ := initRow_first vgaWidth t hrow hcol
      rw [if_neg (by decide)] at hr hc
      rw [Nat.zero_add, List.range_one, List.foldl_cons, List.foldl_nil, initRow]
      exact ⟨hr, hc⟩
    | succ n ih =>
      rw [List.range_succ, List.foldl_append, List.foldl_cons, List.foldl_nil]
      obtain ⟨hr, hc⟩ := initRow_later (Nat.succ_ne_zero n) ((List.range (n + 1)).foldl initRow t)
      exact ⟨hr.trans ih.1, hc.trans ih.2⟩
  rw [terminalInitialize, vgaHeight]
  exact hrows 24 _ rfl rfl

theorem shows_initialized (bg : UInt8) (t : Terminal) :
    Shows bg t.cells (terminalInitialize bg t) (Tape.boot bg (terminalInitialize bg t).cells) := by
  obtain ⟨hrow, hcol⟩ := initialized_place bg t
  have hkept := kept_foldl initRow vgaHeight
    { t with row := 0, col := 0, background := bg, color := vgaEntryColor 15 bg }
    fun _ hy t => kept_initRow hy t
  refine ⟨⟨?_, ?_, ?_, ?_, ?_⟩, hkept.background, hkept.color, hkept.outside⟩
  · rw [hrow]
    decide
  · rw [hcol]
    decide
  · rw [hrow, hcol]
    rfl
  · intro i hi
    change _ = if 0 * vgaWidth + i < vgaHeight * vgaWidth then _ else _
    rw [Nat.zero_mul, Nat.zero_add, if_pos hi]
    change _ = (terminalInitialize bg t).cells (0 * vgaWidth + i)
    rw [Nat.zero_mul, Nat.zero_add]
  · intro i hi
    change (if i < vgaHeight * vgaWidth then _ else Tape.blank bg) = _
    have hout : ¬ i < vgaHeight * vgaWidth := by
      rw [Tape.boot, Nat.zero_add] at hi
      exact Nat.not_lt.mpr hi
    rw [if_neg hout, terminalInitialize, hkept.color]
    rfl

/-- After any calls, the screen shows the 25 rows of the page from row `top` on, with the
place of the next character at the page's cursor; the page goes on in blanks below; a
move succeeds exactly inside the window; and nothing but the 2000 cells has been written. -/
theorem terminal_page (bg : UInt8) (boot : Terminal) (os : List TermOp) :
    let t := os.foldl Terminal.op (terminalInitialize bg boot)
    let T := os.foldl (Tape.op bg) (Tape.boot bg (terminalInitialize bg boot).cells)
    (∀ i < 2000, t.cells i = T.cells (T.top * 80 + i)) ∧
    t.row * 80 + t.col + T.top * 80 = T.cursor ∧ t.row * 80 + t.col < 2000 ∧ t.col < 80 ∧
    (∀ i, (T.top + 25) * 80 ≤ i → T.cells i = Tape.blank bg) ∧
    (∀ delta : Int, (terminalMoveCursor delta t).isSome ↔
      (T.top * 80 : Int) ≤ T.cursor + delta ∧ (T.cursor + delta : Int) < (T.top + 25) * 80) ∧
    ∀ i, 2000 ≤ i → t.cells i = boot.cells i := by
  intro t T
  have h : Shows bg boot.cells t T := (shows_initialized bg boot).ops os
  obtain ⟨hrow, hcol, hcursor, hcells, hbelow⟩ := h.window
  simp only [vgaWidth, vgaHeight] at hrow hcol hcursor
  refine ⟨hcells, by omega, by omega, hcol, fun i hi => ?_, fun delta => ?_, h.outside⟩
  · rw [hbelow i hi, h.color]
    rfl
  · have hsame : (terminalMoveCursor delta t).isSome = (T.move delta).isSome := by
      rcases h.window.moved delta with ⟨t', T', hscreen, hpage, -⟩ | ⟨hscreen, hpage⟩
      · rw [hscreen, hpage]
        rfl
      · rw [hscreen, hpage]
        rfl
    rw [hsame]
    exact T.move_isSome delta

end Rorthox.Term
