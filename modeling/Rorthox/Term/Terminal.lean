import Mathlib

/-!
# The text terminal

`kernel/arch/i686/tty.c`: the 80 x 25 cells of the VGA text page, the place of the next
character, and what writing a character and moving the cursor do to them. The cursor
that the hardware shows follows that place and is not modelled.
-/

namespace Rorthox.Term

def vgaWidth : Nat := 80
def vgaHeight : Nat := 25

/-- A 16-bit cell of the page. -/
structure Cell where
  char : UInt8
  color : UInt8
  deriving DecidableEq

structure Terminal where
  /-- `video_mem`. -/
  cells : Nat → Cell
  row : Nat
  col : Nat
  color : UInt8
  background : UInt8

def vgaEntryColor (fg bg : UInt8) : UInt8 := fg ||| (bg <<< 4)

def terminalPutchar (x y : Nat) (c colour : UInt8) (t : Terminal) : Terminal :=
  if x ≥ vgaWidth ∨ y ≥ vgaHeight then t
  else { t with
    cells := Function.update t.cells (y * vgaWidth + x) ⟨c, vgaEntryColor colour t.background⟩ }

def terminalBackspace (t : Terminal) : Terminal :=
  if t.row = 0 ∧ t.col = 0 then t
  else
    let t := if t.col = 0 then { t with row := t.row - 1, col := vgaWidth - 1 }
      else { t with col := t.col - 1 }
    terminalPutchar t.col t.row 0x20 t.color t

/-- Every row one up, the last one blank. -/
def terminalScroll (t : Terminal) : Terminal :=
  { t with
    cells := fun i =>
      if i < (vgaHeight - 1) * vgaWidth then t.cells (i + vgaWidth)
      else if i < vgaHeight * vgaWidth then ⟨0x20, t.color⟩
      else t.cells i
    row := vgaHeight - 1 }

def checkIndent (t : Terminal) : Terminal :=
  let t := if t.col ≥ vgaWidth then { t with col := 0, row := t.row + 1 } else t
  if t.row ≥ vgaHeight then terminalScroll t else t

variable {t : Terminal}

theorem checkIndent_inside (hcol : t.col < vgaWidth) (hrow : t.row < vgaHeight) :
    checkIndent t = t := by
  simp only [checkIndent, if_neg (Nat.not_le.mpr hcol), if_neg (Nat.not_le.mpr hrow)]

theorem checkIndent_wrap (hcol : vgaWidth ≤ t.col) (hrow : t.row + 1 < vgaHeight) :
    checkIndent t = { t with col := 0, row := t.row + 1 } := by
  have hwrap : t.col ≥ vgaWidth := hcol
  simp only [checkIndent, if_pos hwrap]
  exact if_neg (Nat.not_le.mpr hrow)

theorem checkIndent_scroll (hcol : vgaWidth ≤ t.col) (hrow : vgaHeight ≤ t.row + 1) :
    checkIndent t = terminalScroll { t with col := 0, row := t.row + 1 } := by
  have hwrap : t.col ≥ vgaWidth := hcol
  simp only [checkIndent, if_pos hwrap]
  exact if_pos hrow

def terminalWritechar (c colour : UInt8) (t : Terminal) : Terminal :=
  if c = 0x0A then checkIndent { t with row := t.row + 1, col := 0 }
  else if c = 0x08 then terminalBackspace t
  else
    let t := terminalPutchar t.col t.row c colour t
    checkIndent { t with col := t.col + 1 }

/-- `none` is `-EINVARG`, with the cursor where it was. -/
def terminalMoveCursor (delta : Int) (t : Terminal) : Option Terminal :=
  let position : Int := t.row * vgaWidth + t.col
  if delta < -position ∨ delta > vgaWidth * vgaHeight - 1 - position then none
  else
    let place := (position + delta).toNat
    some { t with row := place / vgaWidth, col := place % vgaWidth }

/-- The terminal calls of a program, as the kernel carries them out. -/
inductive Call where
  | putchar (c : UInt8)
  | moveCursor (delta : Int)
  deriving DecidableEq

def Terminal.call (t : Terminal) : Call → Option Terminal
  | .putchar c => some (terminalWritechar c 15 t)
  | .moveCursor delta => terminalMoveCursor delta t

/-- `none` if a move is refused. -/
def Terminal.calls (t : Terminal) : List Call → Option Terminal
  | [] => some t
  | c :: cs => (t.call c).bind fun t => t.calls cs

/-! ## The page as a window

The page shows 25 rows of an endless tape of cells; scrolling moves the window on by a
row, and the tape below it is blank. -/

structure Tape where
  cells : Nat → Cell
  cursor : Nat
  /-- Rows that have left the page. -/
  top : Nat

structure Window (t : Terminal) (T : Tape) : Prop where
  row : t.row < vgaHeight
  col : t.col < vgaWidth
  cursor : T.cursor = T.top * vgaWidth + (t.row * vgaWidth + t.col)
  cells : ∀ i, i < vgaHeight * vgaWidth → t.cells i = T.cells (T.top * vgaWidth + i)
  below : ∀ i, (T.top + vgaHeight) * vgaWidth ≤ i → T.cells i = ⟨0x20, t.color⟩

def Tape.put (T : Tape) (cell : Cell) : Tape :=
  { cells := Function.update T.cells T.cursor cell
    cursor := T.cursor + 1
    top := if T.cursor + 1 = (T.top + vgaHeight) * vgaWidth then T.top + 1 else T.top }

/-- Writing one cell of the page and the same cell of the tape. -/
theorem shown {cells tape : Nat → Cell} {top place cursor : Nat} {x : Cell}
    (hat : cursor = top * 80 + place)
    (h : ∀ i, i < 25 * 80 → cells i = tape (top * 80 + i)) :
    ∀ i, i < vgaHeight * vgaWidth →
      Function.update cells place x i = Function.update tape cursor x (top * vgaWidth + i) := by
  intro i hi
  simp only [vgaWidth, vgaHeight] at hi ⊢
  by_cases heq : i = place
  · rw [heq, hat, Function.update_self, Function.update_self]
  · rw [Function.update_of_ne heq, Function.update_of_ne (by omega), h i hi]

/-- The tape below the page stays blank when a cell of the page is written. -/
theorem below_update {tape : Nat → Cell} {top top' place : Nat} {blank cell : Cell}
    (h : ∀ i, (top + 25) * 80 ≤ i → tape i = blank) (hplace : place < (top + 25) * 80)
    (htop : top ≤ top') :
    ∀ i, (top' + vgaHeight) * vgaWidth ≤ i → Function.update tape place cell i = blank := by
  intro i hi
  simp only [vgaWidth, vgaHeight] at hi
  rw [Function.update_of_ne (by omega), h _ (by omega)]

theorem terminalScroll_col (hcol : t.col = 0) :
    terminalScroll t = terminalScroll { t with col := 0 } := by
  rw [← hcol]

/-- The window moves on a row. -/
theorem Window.scroll {T : Tape} (hend : T.cursor = (T.top + vgaHeight) * vgaWidth)
    (hcells : ∀ i, i < vgaHeight * vgaWidth → t.cells i = T.cells (T.top * vgaWidth + i))
    (hbelow : ∀ i, (T.top + vgaHeight) * vgaWidth ≤ i → T.cells i = ⟨0x20, t.color⟩) :
    Window (terminalScroll { t with col := 0 }) { T with top := T.top + 1 } := by
  simp only [vgaWidth, vgaHeight] at hend hcells hbelow
  constructor
  · exact Nat.lt_succ_self 24
  · exact Nat.succ_pos 79
  · simp only [terminalScroll, vgaWidth, vgaHeight, hend]
    omega
  · intro i hi
    simp only [terminalScroll]
    by_cases hlow : i < (vgaHeight - 1) * vgaWidth
    · rw [if_pos hlow, Nat.add_mul, Nat.one_mul, Nat.add_assoc, Nat.add_comm vgaWidth i]
      exact hcells _ (Nat.add_lt_add_right hlow 80)
    · rw [if_neg hlow, if_pos hi]
      simp only [vgaWidth, vgaHeight] at hlow ⊢
      rw [hbelow _ (by omega)]
  · intro i hi
    simp only [vgaWidth, vgaHeight] at hi
    exact hbelow i (Nat.le_trans (Nat.mul_le_mul_right 80 (by omega)) hi)

/-- `checkIndent` where the place of the next character has run over a row or the page:
the window moves on a row when the cursor has left it. -/
theorem Window.settle {T : Tape}
    (hplace : t.row < vgaHeight ∧ t.col ≤ vgaWidth ∨ t.row = vgaHeight ∧ t.col = 0)
    (hcursor : T.cursor = T.top * vgaWidth + (t.row * vgaWidth + t.col))
    (hcells : ∀ i, i < vgaHeight * vgaWidth → t.cells i = T.cells (T.top * vgaWidth + i))
    (hbelow : ∀ i, (T.top + vgaHeight) * vgaWidth ≤ i → T.cells i = ⟨0x20, t.color⟩) :
    Window (checkIndent t)
      { T with top := if T.cursor = (T.top + vgaHeight) * vgaWidth then T.top + 1 else T.top } := by
  by_cases hend : T.cursor = (T.top + vgaHeight) * vgaWidth
  · have hscroll : checkIndent t = terminalScroll { t with col := 0 } := by
      simp only [vgaWidth, vgaHeight] at hplace hcursor hend
      rcases hplace with ⟨hrow, hcol⟩ | ⟨hrow, hcol⟩
      · exact checkIndent_scroll (by simp only [vgaWidth]; omega) (by simp only [vgaHeight]; omega)
      · have hwrap : ¬ t.col ≥ vgaWidth := by simp only [vgaWidth]; omega
        have hlow : t.row ≥ vgaHeight := by simp only [vgaHeight]; omega
        simp only [checkIndent, if_neg hwrap, if_pos hlow]
        exact terminalScroll_col hcol
    rw [if_pos hend, hscroll]
    exact Window.scroll hend hcells hbelow
  · rw [if_neg hend]
    have hrow : t.row < vgaHeight := by
      simp only [vgaWidth, vgaHeight] at hplace hcursor hend ⊢
      omega
    by_cases hwrap : t.col < vgaWidth
    · rw [checkIndent_inside hwrap hrow]
      exact ⟨hrow, hwrap, hcursor, hcells, hbelow⟩
    · have hnext : t.row + 1 < vgaHeight := by
        simp only [vgaWidth, vgaHeight] at hplace hcursor hend hwrap ⊢
        omega
      rw [checkIndent_wrap (Nat.le_of_not_lt hwrap) hnext]
      refine ⟨hnext, Nat.succ_pos 79, ?_, hcells, hbelow⟩
      simp only [vgaWidth, vgaHeight] at hplace hcursor hwrap ⊢
      omega

/-- A cell under the cursor, and the cursor behind it: what `terminal_putchar` and the
step that follows it do. -/
theorem Window.put_cell {T : Tape} (h : Window t T) (c colour : UInt8) : Window (checkIndent
        { terminalPutchar t.col t.row c colour t with
          col := (terminalPutchar t.col t.row c colour t).col + 1 })
      (T.put ⟨c, vgaEntryColor colour t.background⟩) := by
  obtain ⟨hrow, hcol, hcursor, hcells, hbelow⟩ := h
  have hplace : ¬ (t.col ≥ vgaWidth ∨ t.row ≥ vgaHeight) := by omega
  simp only [terminalPutchar, if_neg hplace]
  have hin : T.cursor < (T.top + 25) * 80 := by
    simp only [vgaWidth, vgaHeight] at hrow hcol hcursor
    omega
  refine Window.settle (T := { T with
    cells := Function.update T.cells T.cursor ⟨c, vgaEntryColor colour t.background⟩
    cursor := T.cursor + 1 }) (Or.inl ⟨hrow, hcol⟩) ?_ (shown hcursor hcells)
      (below_update hbelow hin le_rfl)
  simp only [hcursor]
  omega

/-- A plain character lands under the cursor. -/
theorem Window.put {T : Tape} (h : Window t T) {c colour : UInt8} (hn : c ≠ 0x0A) (hb : c ≠ 0x08) :
    Window (terminalWritechar c colour t) (T.put ⟨c, vgaEntryColor colour t.background⟩) := by
  simp only [terminalWritechar, if_neg hn, if_neg hb]
  exact h.put_cell c colour

theorem terminalWritechar_background (c colour : UInt8) (t : Terminal) :
    (terminalWritechar c colour t).background = t.background := by
  simp only [terminalWritechar, terminalBackspace, terminalPutchar, checkIndent, terminalScroll]
  split_ifs <;> rfl

/-- A move inside the window is never refused. -/
theorem Window.move {T : Tape} (h : Window t T) (delta : Int) (place : Nat)
    (hplace : (place : Int) = T.cursor + delta) (hlow : T.top * vgaWidth ≤ place)
    (hhigh : place < (T.top + vgaHeight) * vgaWidth) :
    ∃ t', terminalMoveCursor delta t = some t' ∧ Window t' { T with cursor := place } ∧
      t'.background = t.background := by
  obtain ⟨hrow, hcol, hcursor, hcells, hbelow⟩ := h
  have hok : ¬ (delta < -((t.row * vgaWidth + t.col : Nat) : Int) ∨
      delta > vgaWidth * vgaHeight - 1 - ((t.row * vgaWidth + t.col : Nat) : Int)) := by
    simp only [vgaWidth, vgaHeight] at *
    omega
  have hto : (((t.row * vgaWidth + t.col : Nat) : Int) + delta).toNat =
      place - T.top * vgaWidth := by
    simp only [vgaWidth, vgaHeight] at *
    omega
  push_cast at hok hto
  refine ⟨{ t with row := (place - T.top * vgaWidth) / vgaWidth,
                   col := (place - T.top * vgaWidth) % vgaWidth }, ?_, ?_, rfl⟩
  · simp only [terminalMoveCursor, if_neg hok, hto]
  · constructor
    · simp only [vgaWidth, vgaHeight] at *; omega
    · simp only [vgaWidth, vgaHeight] at *; omega
    · simp only [vgaWidth, vgaHeight] at *; omega
    · exact hcells
    · exact hbelow

end Rorthox.Term
