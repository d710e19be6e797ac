import Cleonos.Lib.Text
import Cleonos.Lib.Lines

/-!
# The terminal

The state of `terminal.c` and what a byte of output does to it.
-/

namespace Cleonos.Terminal

open List

section

def termLines : ℕ := 128
def termLineMax : ℕ := 160
def termAnsiMax : ℕ := 95
def maxValues : ℕ := 16

def colorBg : UInt32 := 0x000C0C0C
def colorDefault : UInt32 := 0x00DCDCDC

/-- `ansi_state`: 0, 1 and 2. -/
inductive AnsiState
  | text
  | escape
  | csi
  deriving DecidableEq, Repr

/-- The part of `term_app` that the output changes; of `ansi_buf` the first `ansi_len` bytes. -/
structure TermApp where
  lines : ℕ → ℕ → UInt8
  cellFg : ℕ → ℕ → UInt32
  cellBg : ℕ → ℕ → UInt32
  cellStyle : ℕ → ℕ → UInt8
  lineCount : ℕ
  cursorRow : ℕ
  cursorCol : ℕ
  savedRow : ℕ
  savedCol : ℕ
  currentFg : UInt32
  currentBg : UInt32
  currentStyle : UInt8
  ansiBold : Bool
  ansiUnderline : Bool
  ansiInverse : Bool
  ansiState : AnsiState
  ansiBuf : List UInt8

/-! ## Attributes -/

/-- `term_ansi_palette`. -/
def ansiPalette (index : ℕ) : UInt32 :=
  [0x00000000, 0x00CD3131, 0x000DBC79, 0x00E5E510, 0x002472C8, 0x00BC3FBC, 0x0011A8CD, 0x00E5E5E5,
    0x00666666, 0x00F14C4C, 0x0023D18B, 0x00F5F543, 0x003B8EEA, 0x00D670D6, 0x0029B8DB,
    0x00FFFFFF].getD index colorDefault

/-- `term_ansi_clamp_255`. -/
def ansiClamp255 (value : ℕ) : UInt32 := if value > 255 then 255 else UInt32.ofNat value

def ansiSteps : List UInt32 := [0, 95, 135, 175, 215, 255]

/-- `term_ansi_color_from_256`. -/
def ansiColorFrom256 (index : ℕ) : UInt32 :=
  if index < 16 then ansiPalette index
  else if index ≤ 231 then
    let n := index - 16
    (ansiSteps.getD (n / 36) 0 <<< 16) ||| (ansiSteps.getD (n / 6 % 6) 0 <<< 8) |||
      ansiSteps.getD (n % 6) 0
  else if index ≤ 255 then
    let gray := UInt32.ofNat (8 + (index - 232) * 10)
    (gray <<< 16) ||| (gray <<< 8) ||| gray
  else colorDefault

/-- `term_reset_style`. -/
def resetStyle (app : TermApp) : TermApp :=
  { app with
    currentFg := colorDefault
    currentBg := colorBg
    currentStyle := 0
    ansiBold := false
    ansiUnderline := false
    ansiInverse := false }

/-- `term_effective_fg`. -/
def effectiveFg (app : TermApp) : UInt32 :=
  if app.ansiInverse then app.currentBg else app.currentFg

/-- `term_effective_bg`. -/
def effectiveBg (app : TermApp) : UInt32 :=
  if app.ansiInverse then app.currentFg else app.currentBg

/-- `term_effective_style`. -/
def effectiveStyle (app : TermApp) : UInt8 :=
  (if app.ansiBold then 1 else 0) ||| (if app.ansiUnderline then 2 else 0) ||| app.currentStyle

section Cells

variable {α : Type}

/-- An array of arrays with one cell written. -/
def setAt (f : ℕ → ℕ → α) (row col : ℕ) (a : α) : ℕ → ℕ → α :=
  Function.update f row (Function.update (f row) col a)

end Cells

/-- `app->lines[row][col]`. -/
def getLine (app : TermApp) (row col : ℕ) : Option UInt8 :=
  if row < termLines ∧ col < termLineMax then some (app.lines row col) else none

/-- `app->lines[row][col] = ch`. -/
def setLine (app : TermApp) (row col : ℕ) (ch : UInt8) : Option TermApp :=
  if row < termLines ∧ col < termLineMax then some { app with lines := setAt app.lines row col ch }
  else none

/-- A character with the attributes of the moment. -/
def setCell (app : TermApp) (row col : ℕ) (ch : UInt8) : Option TermApp :=
  (setLine app row col ch).map fun app =>
    { app with
      cellFg := setAt app.cellFg row col (effectiveFg app)
      cellBg := setAt app.cellBg row col (effectiveBg app)
      cellStyle := setAt app.cellStyle row col (effectiveStyle app) }

/-- `term_clear_cell`. -/
def clearCell (app : TermApp) (row col : ℕ) : Option TermApp :=
  if row ≥ termLines ∨ col ≥ termLineMax then some app else setCell app row col 32

/-- The loop of `term_trim_line`, from the column in front of `col` down. -/
def trimFrom (app : TermApp) (row : ℕ) : ℕ → Option TermApp
  | 0 => some app
  | col + 1 => do
      let ch ← getLine app row col
      if ch ≠ 32 ∧ ch ≠ 0 then setLine app row (col + 1) 0
      else
        let app ← setLine app row col 0
        trimFrom app row col

/-- `term_trim_line`. -/
def trimLine (app : TermApp) (row : ℕ) : Option TermApp :=
  if row ≥ termLines then some app
  else do
    let app ← setLine app row (termLineMax - 1) 0
    trimFrom app row (termLineMax - 1)

/-- The loop of `term_clear_line_range`, over `n` columns. -/
def clearCells (app : TermApp) (row col : ℕ) : ℕ → Option TermApp
  | 0 => some app
  | n + 1 => do
      let app ← clearCell app row col
      clearCells app row (col + 1) n

/-- `term_clear_line_range`. -/
def clearLineRange (app : TermApp) (row startCol endCol : ℕ) : Option TermApp :=
  if row ≥ termLines then some app
  else do
    let endCol := min endCol (termLineMax - 1)
    let app ← clearCells app row startCol (endCol - startCol)
    trimLine app row

/-- The loops of `term_clear_line_range` over `n` whole rows. -/
def clearRows (app : TermApp) (row : ℕ) : ℕ → Option TermApp
  | 0 => some app
  | n + 1 => do
      let app ← clearLineRange app row 0 (termLineMax - 1)
      clearRows app (row + 1) n

def termClear (app : TermApp) : TermApp :=
  { app with
    lines := fun _ _ => 0
    cellFg := fun _ _ => effectiveFg app
    cellBg := fun _ _ => effectiveBg app
    cellStyle := fun _ _ => effectiveStyle app
    lineCount := 0
    cursorRow := 0
    cursorCol := 0 }

/-- The loop of `term_ensure_row`, for `n` rows. -/
def ensureRows (app : TermApp) : ℕ → Option TermApp
  | 0 => some app
  | n + 1 => do
      let app ← setCell app app.lineCount 0 0
      ensureRows { app with lineCount := app.lineCount + 1 } n

/-- `term_ensure_row`. -/
def ensureRow (app : TermApp) (row : ℕ) : Option TermApp :=
  ensureRows app (min row (termLines - 1) + 1 - app.lineCount)

/-- The number of characters in front of the first zero, at most `n`. -/
def strnlen (line : ℕ → UInt8) : ℕ → ℕ
  | 0 => 0
  | n + 1 => if line 0 = 0 then 0 else strnlen (fun c => line (c + 1)) n + 1

/-- A row of the size of a line that `ush_copy` has filled. -/
def copyLine (line : ℕ → UInt8) : ℕ → UInt8 := fun col =>
  if col < strnlen line (termLineMax - 1) then line col else 0

/-- `term_shift_lines`. -/
def shiftLines (app : TermApp) : TermApp :=
  { app with
    lines := fun row =>
      if row + 1 < termLines then copyLine (app.lines (row + 1))
      else if row + 1 = termLines then Function.update (app.lines row) 0 0 else app.lines row
    cellFg := fun row =>
      if row + 1 < termLines then app.cellFg (row + 1) else fun _ => effectiveFg app
    cellBg := fun row =>
      if row + 1 < termLines then app.cellBg (row + 1) else fun _ => effectiveBg app
    cellStyle := fun row =>
      if row + 1 < termLines then app.cellStyle (row + 1) else fun _ => effectiveStyle app }

/-- `term_newline`. -/
def newline (app : TermApp) : Option TermApp := do
  let app ← ensureRow app app.cursorRow
  let app := { app with cursorCol := 0 }
  if app.cursorRow + 1 ≥ termLines then some { shiftLines app with lineCount := termLines }
  else ensureRow { app with cursorRow := app.cursorRow + 1 } (app.cursorRow + 1)

/-- `ush_strlen` of a row. -/
def lineLen (app : TermApp) (row : ℕ) : Option ℕ :=
  if row < termLines ∧ strnlen (app.lines row) termLineMax < termLineMax then
    some (strnlen (app.lines row) termLineMax)
  else none

/-- The loop of `term_append_char` that fills a row up to the cursor, over `n` columns. -/
def padCells (app : TermApp) (row col : ℕ) : ℕ → Option TermApp
  | 0 => some app
  | n + 1 => do
      let app ← setCell app row col 32
      padCells app row (col + 1) n

/-- The test of `term_append_char` for a full row. -/
def wrapCursor (app : TermApp) : Option TermApp :=
  if app.cursorCol + 1 ≥ termLineMax then newline app else some app

/-- The last test of `term_append_char`; it writes the zero that it has found. -/
def keepZero (app : TermApp) : Option TermApp := do
  let next ← getLine app app.cursorRow (app.cursorCol + 1)
  if next = 0 then setLine app app.cursorRow (app.cursorCol + 1) 0 else some app

/-- The end of `term_append_char`, behind the tests for control characters. -/
def putChar (app : TermApp) (ch : UInt8) : Option TermApp := do
  let app ← wrapCursor app
  let app ← ensureRow app app.cursorRow
  let len ← lineLen app app.cursorRow
  let app ← padCells app app.cursorRow len (min app.cursorCol (termLineMax - 1) - len)
  let app ← setCell app app.cursorRow app.cursorCol (if ch < 32 ∨ ch > 126 then 63 else ch)
  let app ← keepZero app
  some { app with cursorCol := app.cursorCol + 1 }

/-- `term_append_char`; a tab is four blanks. -/
def appendChar (app : TermApp) (ch : UInt8) : Option TermApp :=
  if ch = 13 then some { app with cursorCol := 0 }
  else if ch = 10 then newline app
  else if ch = 9 then do
    let app ← putChar app 32
    let app ← putChar app 32
    let app ← putChar app 32
    putChar app 32
  else putChar app ch

/-- The numbers that have been read, and the one that is being read. -/
structure ParamScan where
  values : List ℕ
  value : ℕ
  hasDigit : Bool

def ParamScan.push (scan : ParamScan) : ParamScan :=
  { values :=
      if scan.values.length < maxValues then
        scan.values ++ [if scan.hasDigit then scan.value else 0]
      else scan.values
    value := 0
    hasDigit := false }

/-- The loop of `term_ansi_parse_params`, for a character in front of the end. -/
def ParamScan.step (scan : ParamScan) (ch : UInt8) : ParamScan :=
  if ch ≥ 48 ∧ ch ≤ 57 then
    { scan with value := (scan.value * 10 + (ch.toNat - 48)) % 2 ^ 64, hasDigit := true }
  else if ch = 59 then scan.push
  else scan

/-- `term_ansi_parse_params`. -/
def parseParams (params : List UInt8) : List ℕ :=
  if params = [] then [0] else (params.foldl ParamScan.step ⟨[], 0, false⟩).push.values

/-- `term_ansi_param_or_default`; `none` for an access out of bounds. -/
def paramOrDefault (params : List ℕ) (index defaultValue : ℕ) : Option ℕ :=
  if index ≥ params.length then some defaultValue
  else params[index]?.map fun value => if value = 0 then defaultValue else value

/-- `(count == 0ULL) ? 0ULL : values[0]`. -/
def firstParam (params : List ℕ) : Option ℕ := if params.length = 0 then some 0 else params[0]?

/-- The codes of `term_apply_sgr` that stand alone. -/
def applySgrCode (app : TermApp) (code : ℕ) : TermApp :=
  if code = 0 then resetStyle app
  else if code = 1 then { app with ansiBold := true }
  else if code = 4 then { app with ansiUnderline := true }
  else if code = 7 then { app with ansiInverse := true }
  else if code = 21 ∨ code = 22 then { app with ansiBold := false }
  else if code = 24 then { app with ansiUnderline := false }
  else if code = 27 then { app with ansiInverse := false }
  else if code = 39 then { app with currentFg := colorDefault }
  else if code = 49 then { app with currentBg := colorBg }
  else if code ≥ 30 ∧ code ≤ 37 then
    { app with currentFg := ansiPalette (code - 30 + if app.ansiBold then 8 else 0) }
  else if code ≥ 90 ∧ code ≤ 97 then { app with currentFg := ansiPalette (code - 90 + 8) }
  else if code ≥ 40 ∧ code ≤ 47 then { app with currentBg := ansiPalette (code - 40) }
  else if code ≥ 100 ∧ code ≤ 107 then { app with currentBg := ansiPalette (code - 100 + 8) }
  else app

/-- The colour is set that the code names. -/
def setColor (app : TermApp) (code : ℕ) (color : UInt32) : TermApp :=
  if code = 38 then { app with currentFg := color } else { app with currentBg := color }

/-- The loop of `term_apply_sgr` from the parameter `i` on, in at most `n` rounds. -/
def applySgrFrom (values : List ℕ) (app : TermApp) (i : ℕ) : ℕ → Option TermApp
  | 0 => some app
  | n + 1 =>
    if i < values.length then do
      let code ← values[i]?
      if (code = 38 ∨ code = 48) ∧ i + 1 < values.length then
        let mode ← values[i + 1]?
        if mode = 5 ∧ i + 2 < values.length then
          let index ← values[i + 2]?
          applySgrFrom values (setColor app code (ansiColorFrom256 index)) (i + 3) n
        else if mode = 2 ∧ i + 4 < values.length then
          let r ← values[i + 2]?
          let g ← values[i + 3]?
          let b ← values[i + 4]?
          let color := (ansiClamp255 r <<< 16) ||| (ansiClamp255 g <<< 8) ||| ansiClamp255 b
          applySgrFrom values (setColor app code color) (i + 5) n
        else applySgrFrom values app (i + 1) n
      else applySgrFrom values (applySgrCode app code) (i + 1) n
    else some app

/-- `term_apply_sgr`; each round takes at least one parameter. -/
def applySgr (app : TermApp) (params : List UInt8) : Option TermApp :=
  applySgrFrom (parseParams params) app 0 (parseParams params).length

/-- The row that a motion ends in. -/
def clampRow (row : ℕ) : ℕ := if row ≥ termLines then termLines - 1 else row

/-- The column that a motion ends in. -/
def clampCol (col : ℕ) : ℕ := if col ≥ termLineMax - 1 then termLineMax - 2 else col

/-- The end of a motion that makes sure of its row. -/
def moveTo (app : TermApp) (row col : ℕ) : Option TermApp :=
  ensureRow { app with cursorRow := row, cursorCol := col } row

/-- The cursor is put back to where it was saved. -/
def restoreCursor (app : TermApp) : Option TermApp :=
  moveTo app (clampRow app.savedRow) (clampCol app.savedCol)

/-- The sequence `J` of `term_apply_ansi`. -/
def eraseDisplay (app : TermApp) (mode : ℕ) : Option TermApp :=
  if mode = 0 then do
    let app ← clearLineRange app app.cursorRow app.cursorCol (termLineMax - 1)
    clearRows app (app.cursorRow + 1) (termLines - (app.cursorRow + 1))
  else if mode = 1 then do
    let app ← clearRows app 0 (min app.cursorRow termLines)
    clearLineRange app app.cursorRow 0 (app.cursorCol + 1)
  else if mode = 2 ∨ mode = 3 then some (termClear app)
  else some app

/-- The sequence `K` of `term_apply_ansi`. -/
def eraseLine (app : TermApp) (mode : ℕ) : Option TermApp :=
  if mode = 0 then clearLineRange app app.cursorRow app.cursorCol (termLineMax - 1)
  else if mode = 1 then clearLineRange app app.cursorRow 0 (app.cursorCol + 1)
  else clearLineRange app app.cursorRow 0 (termLineMax - 1)

/-- The sequences of `term_apply_ansi`, by their last character. -/
def applyFinal (app : TermApp) (values : List ℕ) (finalCh : UInt8) : Option TermApp :=
  if finalCh = 109 then applySgr app app.ansiBuf
  else if finalCh = 74 then do
    let mode ← firstParam values
    eraseDisplay app mode
  else if finalCh = 75 then do
    let mode ← firstParam values
    eraseLine app mode
  else if finalCh = 72 ∨ finalCh = 102 then do
    let row ← paramOrDefault values 0 1
    let col ← paramOrDefault values 1 1
    moveTo app (clampRow (row - 1)) (clampCol (col - 1))
  else if finalCh = 65 then do
    let n ← paramOrDefault values 0 1
    some { app with cursorRow := app.cursorRow - n }
  else if finalCh = 66 then do
    let n ← paramOrDefault values 0 1
    moveTo app (clampRow ((app.cursorRow + n) % 2 ^ 64)) app.cursorCol
  else if finalCh = 67 then do
    let n ← paramOrDefault values 0 1
    some { app with cursorCol := clampCol ((app.cursorCol + n) % 2 ^ 64) }
  else if finalCh = 68 then do
    let n ← paramOrDefault values 0 1
    some { app with cursorCol := app.cursorCol - n }
  else if finalCh = 69 then do
    let n ← paramOrDefault values 0 1
    moveTo app (clampRow ((app.cursorRow + n) % 2 ^ 64)) 0
  else if finalCh = 70 then do
    let n ← paramOrDefault values 0 1
    moveTo app (app.cursorRow - n) 0
  else if finalCh = 71 then do
    let col ← paramOrDefault values 0 1
    some { app with cursorCol := clampCol (col - 1) }
  else if finalCh = 100 then do
    let row ← paramOrDefault values 0 1
    moveTo app (clampRow (row - 1)) app.cursorCol
  else if finalCh = 115 then
    some { app with savedRow := app.cursorRow, savedCol := app.cursorCol }
  else if finalCh = 117 then restoreCursor app
  else some app

/-- `term_apply_ansi`. -/
def applyAnsi (app : TermApp) (finalCh : UInt8) : Option TermApp :=
  if app.ansiBuf.length < termAnsiMax then do
    let app ← applyFinal app (parseParams app.ansiBuf) finalCh
    some { app with ansiState := .text, ansiBuf := [] }
  else none

/-- `term_append_ansi_char`. -/
def appendAnsiChar (app : TermApp) (ch : UInt8) : Option TermApp :=
  match app.ansiState with
  | .escape =>
    if ch = 91 then some { app with ansiState := .csi, ansiBuf := [] }
    else if ch = 55 then
      some { app with
        savedRow := app.cursorRow, savedCol := app.cursorCol, ansiState := .text, ansiBuf := [] }
    else if ch = 56 then do
      let app ← restoreCursor app
      some { app with ansiState := .text, ansiBuf := [] }
    else some { app with ansiState := .text, ansiBuf := [] }
  | .csi =>
    if (ch ≥ 48 ∧ ch ≤ 57) ∨ ch = 59 ∨ ch = 63 ∨ ch = 61 then
      if app.ansiBuf.length + 1 < termAnsiMax then some { app with ansiBuf := app.ansiBuf ++ [ch] }
      else some app
    else applyAnsi app ch
  | .text =>
    if ch = 27 then some { app with ansiState := .escape, ansiBuf := [] }
    else appendChar app ch

/-- Bytes given to `term_append_ansi_char` one by one. -/
def appendBytes (app : TermApp) (bytes : List UInt8) : Option TermApp :=
  bytes.foldlM appendAnsiChar app

/-- `term_append_text`. -/
def appendText (app : TermApp) (text : List UInt8) : Option TermApp := appendBytes app (cstr text)

/-- The bytes of a read of `term_drain_fd`. -/
def readSize : ℕ := 192

/-- What `term_drain_fd` does with a read. -/
def drainRead (app : TermApp) (buf : List UInt8) : Option TermApp :=
  if buf.length < readSize then appendText app buf else appendBytes app buf

/-- `term_drain_fd` in at most `guard` rounds, with what its reads return: nothing, or bytes.
The reads that are left over are returned as well. -/
def drainFd (app : TermApp) : ℕ → List (Option (List UInt8)) → Option (TermApp × List (Option (List UInt8)))
  | 0, reads => some (app, reads)
  | _ + 1, [] => some (app, [])
  | _ + 1, none :: reads => some (app, reads)
  | guard + 1, some buf :: reads => do
      let app ← drainRead app buf
      drainFd app guard reads

/-- The terminal that `cleonos_terminal_run` clears first. -/
def cleared : TermApp :=
  termClear (resetStyle
    { lines := fun _ _ => 0
      cellFg := fun _ _ => 0
      cellBg := fun _ _ => 0
      cellStyle := fun _ _ => 0
      lineCount := 0
      cursorRow := 0
      cursorCol := 0
      savedRow := 0
      savedCol := 0
      currentFg := 0
      currentBg := 0
      currentStyle := 0
      ansiBold := false
      ansiUnderline := false
      ansiInverse := false
      ansiState := .text
      ansiBuf := [] })

end

/-! ## Rows of a text -/

open Split (splitOn_append_sep exists_splitOn splitOn_append_of_ne)

def columns : ℕ := termLineMax - 1

/-- A line behind what is already in its row. -/
def wrapRow (row : List UInt8) : List UInt8 → List (List UInt8)
  | [] => [row]
  | c :: line => if row.length < columns then wrapRow (row ++ [c]) line else row :: wrapRow [c] line

/-- The rows of a text; a newline starts a row, and so does a character behind a full row. -/
def wrapText (text : List UInt8) : List (List UInt8) := (text.splitOn 10).flatMap (wrapRow [])

theorem exists_wrapRow (row line : List UInt8) :
    ∃ front last, wrapRow row line = front ++ [last] := by
  induction line generalizing row with
  | nil => exact ⟨[], row, rfl⟩
  | cons c line ih =>
    rw [wrapRow]
    split
    · exact ih _
    · obtain ⟨front, last, h⟩ := ih [c]
      exact ⟨row :: front, last, by rw [h, cons_append]⟩

theorem wrapRow_append {row line last : List UInt8} {front : List (List UInt8)}
    (h : wrapRow row line = front ++ [last]) (c : UInt8) :
    wrapRow row (line ++ [c]) =
      if last.length < columns then front ++ [last ++ [c]] else front ++ [last] ++ [[c]] := by
  induction line generalizing row front with
  | nil =>
    have hone : [] ++ [row] = front ++ [last] := h
    obtain ⟨rfl, hlast⟩ := append_inj' hone rfl
    cases hlast
    rw [nil_append, wrapRow]
    rfl
  | cons d line ih =>
    rw [wrapRow] at h
    rw [cons_append, wrapRow]
    split at h
    case isTrue hroom =>
      rw [if_pos hroom]
      exact ih h
    case isFalse hfull =>
      obtain ⟨front', last', hrest⟩ := exists_wrapRow [d] line
      rw [hrest, ← cons_append] at h
      obtain ⟨rfl, hlast⟩ := append_inj' h rfl
      cases hlast
      rw [if_neg hfull, ih hrest]
      split <;> rfl

theorem wrapText_newline (text : List UInt8) : wrapText (text ++ [10]) = wrapText text ++ [[]] := by
  rw [wrapText, splitOn_append_sep, flatMap_append, flatMap_singleton]
  rfl

theorem wrapText_append {text last : List UInt8} {front : List (List UInt8)}
    (h : wrapText text = front ++ [last]) {c : UInt8} (hc : c ≠ 10) :
    wrapText (text ++ [c]) =
      if last.length < columns then front ++ [last ++ [c]] else front ++ [last] ++ [[c]] := by
  obtain ⟨lines, line, hsplit⟩ := exists_splitOn 10 text
  obtain ⟨front', last', hrow⟩ := exists_wrapRow [] line
  rw [wrapText, hsplit, flatMap_append, flatMap_singleton, hrow, ← append_assoc] at h
  obtain ⟨rfl, hlast⟩ := append_inj' h rfl
  cases hlast
  rw [wrapText, splitOn_append_of_ne hsplit hc, flatMap_append, flatMap_singleton,
    wrapRow_append hrow]
  split <;> simp only [append_assoc]

/-- A row written over another one. -/
def overlay (old row : List UInt8) : List UInt8 := row ++ old.drop row.length

/-- What the rows leave in the last line, which the rows from number 127 on are written to. -/
def slotTail (rows : List (List UInt8)) : List UInt8 :=
  (rows.drop (termLines - 1)).foldl overlay []

/-- A row over what is left in its line; an empty row ends at its first column. -/
def shownRow (tail row : List UInt8) : List UInt8 := if row = [] then [] else overlay tail row

variable {rows : List (List UInt8)} {tail row : List UInt8}

theorem slotTail_of_short (h : rows.length ≤ termLines - 1) : slotTail rows = [] := by
  rw [slotTail, drop_eq_nil_of_le h]
  rfl

theorem slotTail_append (h : termLines - 1 ≤ rows.length) (row : List UInt8) :
    slotTail (rows ++ [row]) = overlay (slotTail rows) row := by
  rw [slotTail, drop_append_of_le_length h, foldl_append]
  rfl

@[simp] theorem nil_overlay (old : List UInt8) : overlay old [] = old := rfl

theorem getElem?_overlay_of_ge {j : ℕ} (h : row.length ≤ j) :
    (overlay tail row)[j]? = tail[j]? := by
  rw [overlay, List.getElem?_append_right h, List.getElem?_drop, Nat.add_sub_cancel' h]

theorem getElem?_overlay_of_lt {j : ℕ} (h : j < row.length) : (overlay tail row)[j]? = row[j]? := by
  rw [overlay, List.getElem?_append_left h]

theorem mem_overlay {c : UInt8} (h : c ∈ overlay tail row) : c ∈ tail ∨ c ∈ row := by
  rcases mem_append.1 h with h | h
  · exact .inr h
  · exact .inl (mem_of_mem_drop h)

theorem length_overlay (tail row : List UInt8) :
    (overlay tail row).length = max tail.length row.length := by
  rw [overlay, length_append, length_drop]
  omega

/-- A row without its trailing blanks. -/
def trimBlanks (row : List UInt8) : List UInt8 := row.rdropWhile (· = 32)

/-- What is left in the line does not show behind a row. -/
def NoTail (rows : List (List UInt8)) (i : ℕ) : Prop :=
  rows.getD i [] = [] ∨
    ∀ c ∈ (slotTail (rows.take i)).drop (rows.getD i []).length, c = (32 : UInt8)

theorem trimBlanks_append_iff (row tail : List UInt8) :
    trimBlanks (row ++ tail) = trimBlanks row ↔ ∀ c ∈ tail, c = 32 := by
  induction tail using List.reverseRecOn with
  | nil => simp
  | append_singleton tail c ih =>
    rw [← append_assoc]
    by_cases hc : c = 32
    · rw [trimBlanks, rdropWhile_concat_pos _ _ _ (by simpa using hc)]
      refine ih.trans ⟨fun h d hd => ?_, fun h d hd => h d (mem_append_left _ hd)⟩
      rcases mem_append.1 hd with hd | hd
      · exact h d hd
      · rw [mem_singleton.1 hd, hc]
    · refine ⟨fun h => ?_, fun h => absurd (h c (by simp)) hc⟩
      have hshort := (List.rdropWhile_prefix (· = (32 : UInt8)) (l := row)).length_le
      rw [trimBlanks, rdropWhile_concat_neg _ _ _ (by simpa using hc)] at h
      have hlen := congrArg List.length h
      rw [length_append, length_append, length_singleton] at hlen
      rw [trimBlanks] at hlen
      omega

theorem trimBlanks_shownRow_iff (tail row : List UInt8) :
    trimBlanks (shownRow tail row) = trimBlanks row ↔
      row = [] ∨ ∀ c ∈ tail.drop row.length, c = 32 := by
  rw [shownRow]
  by_cases hrow : row = []
  · rw [if_pos hrow, hrow]
    exact ⟨fun _ => .inl rfl, fun _ => rfl⟩
  · rw [if_neg hrow, overlay, trimBlanks_append_iff]
    exact ⟨.inr, fun h => h.resolve_left hrow⟩

end Cleonos.Terminal
