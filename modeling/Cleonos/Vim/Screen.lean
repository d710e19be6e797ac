import Cleonos.Vim.Model

/-!
# The screen of the editor

What `vim_main.c` writes to the terminal.
-/

namespace Cleonos.Vim

open Buffer (slice)
open Libc (decimal)

def viewCols : ℕ := 72
def uiCols : ℕ := 5 + viewCols
def rowHeader : ℕ := 1
def rowPos : ℕ := 2
def rowTopSeparator : ℕ := 3
def rowTextBase : ℕ := 4
def rowBottomSeparator : ℕ := rowTextBase + viewRows
def rowFooter : ℕ := rowBottomSeparator + 1

/-- The rows of the terminal, and its cursor; none while it is hidden. -/
@[ext]
structure Screen where
  row : ℕ → List UInt8
  cursor : Option (ℕ × ℕ)

/-- `ush_vim_goto` to the first column of a row, and a text written there. -/
def Screen.put (s : Screen) (row : ℕ) (text : List UInt8) : Screen :=
  { s with row := Function.update s.row row text }

/-- `\x1b[?25l`. -/
def Screen.hide (s : Screen) : Screen := { s with cursor := none }

/-! ## Characters -/

/-- `ush_vim_utf8_decode_at`: the code point and the bytes that it takes. -/
def utf8DecodeAt (text : ℕ → UInt8) (len pos : ℕ) : ℕ × ℕ :=
  if pos ≥ len then (0, 0)
  else
    let part (i mask : ℕ) : ℕ := (text (pos + i)).toNat &&& mask
    let adv := utf8CharLenAt text len pos
    let cp :=
      if adv = 1 then (text pos).toNat
      else if adv = 2 then (part 0 0x1F <<< 6) ||| part 1 0x3F
      else if adv = 3 then (part 0 0x0F <<< 12) ||| (part 1 0x3F <<< 6) ||| part 2 0x3F
      else
        (part 0 0x07 <<< 18) ||| (part 1 0x3F <<< 12) ||| (part 2 0x3F <<< 6) ||| part 3 0x3F
    (cp, adv)

/-- `ush_vim_codepoint_width`. -/
def codepointWidth (cp : ℕ) : ℕ :=
  if cp = 0 then 0
  else if (cp ≥ 0x0300 ∧ cp ≤ 0x036F) ∨ (cp ≥ 0xFE00 ∧ cp ≤ 0xFE0F) then 0
  else if (cp ≥ 0x1100 ∧ cp ≤ 0x115F) ∨ (cp ≥ 0x2E80 ∧ cp ≤ 0xA4CF) ∨
      (cp ≥ 0xAC00 ∧ cp ≤ 0xD7A3) ∨ (cp ≥ 0xF900 ∧ cp ≤ 0xFAFF) ∨
      (cp ≥ 0xFE10 ∧ cp ≤ 0xFE19) ∨ (cp ≥ 0xFE30 ∧ cp ≤ 0xFE6F) ∨
      (cp ≥ 0xFF00 ∧ cp ≤ 0xFF60) ∨ (cp ≥ 0xFFE0 ∧ cp ≤ 0xFFE6) ∨
      (cp ≥ 0x20000 ∧ cp ≤ 0x3FFFD) then 2
  else 1

/-- The loop of `ush_vim_utf8_visual_width_n`. -/
def visualWidthLoop (text : ℕ → UInt8) (len : ℕ) : ℕ → ℕ → ℕ → ℕ
  | 0, _, cols => cols
  | fuel + 1, pos, cols =>
    if pos ≥ len then cols
    else
      let r := utf8DecodeAt text len pos
      if r.2 = 0 then cols
      else visualWidthLoop text len fuel (pos + r.2) (cols + codepointWidth r.1)

/-- `ush_vim_utf8_visual_width_n`; every round takes a byte at least. -/
def utf8VisualWidthN (text : ℕ → UInt8) (len : ℕ) : ℕ := visualWidthLoop text len len 0 0

/-- `ush_vim_line_cursor_visual_col`. -/
def lineCursorVisualCol (line : VimLine) (cursorCol : ℕ) : ℕ :=
  utf8VisualWidthN line.text (backOverConts line.text (min cursorCol line.len))

/-- `ush_vim_write_padded_line_no_newline`. -/
def padded (text : List UInt8) : List UInt8 := text ++ List.replicate (uiCols - text.length) 32

/-- `ush_vim_write_separator_no_newline`. -/
def separator : List UInt8 := List.replicate uiCols 45

/-- The loop of `ush_vim_render_line_no_newline`, with the column where it stops. -/
def shownLoop (line : VimLine) : ℕ → ℕ → ℕ → List UInt8 × ℕ
  | 0, _, col => ([], col)
  | fuel + 1, pos, col =>
    if pos < line.len ∧ col < viewCols then
      let r := utf8DecodeAt line.text line.len pos
      if r.2 = 0 then ([], col)
      else
        let width := if codepointWidth r.1 = 0 then 1 else codepointWidth r.1
        if col + width > viewCols then ([], col)
        else
          let rest := shownLoop line fuel (pos + r.2) (col + width)
          (slice line.text pos r.2 ++ rest.1, rest.2)
    else ([], col)

/-- A line behind its number. -/
def lineText (index : ℕ) (line : VimLine) : List UInt8 :=
  let number := decimal (index + 1)
  let shown := shownLoop line line.len 0 0
  List.replicate (4 - number.length) 32 ++ number ++ [32] ++ shown.1 ++
    List.replicate (viewCols - shown.2) 32

/-- `ush_vim_render_line_no_newline`. -/
def rowText (ed : VimEditor) (index : ℕ) : List UInt8 :=
  if index ≥ ed.lineCount then 126 :: List.replicate (uiCols - 1) 32
  else lineText index (ed.lines index)

/-- `ush_vim_mode_text`. -/
def modeText : Mode → List UInt8
  | .insert => lit "INSERT"
  | .command => lit "COMMAND"
  | .normal => lit "NORMAL"

def headerText (ed : VimEditor) : List UInt8 :=
  padded ((lit "vim clone | " ++ (if ed.filePath = [] then lit "[No Name]" else ed.filePath) ++
    lit " | " ++ modeText ed.mode ++ (if ed.modified then lit " [+]" else [])).take 255)

def posText (ed : VimEditor) : List UInt8 :=
  padded ((lit "line " ++ decimal (ed.cursorLine + 1) ++ lit "/" ++ decimal ed.lineCount ++
    lit " col " ++ decimal (ed.cursorCol + 1)).take 127)

def footerText (ed : VimEditor) : List UInt8 :=
  match ed.mode with
  | .command => padded (58 :: ushCopy (cmdMax + 1) ed.command)
  | _ => padded ed.status

/-- Where `ush_vim_place_terminal_cursor` puts the cursor. -/
def cursorAt (ed : VimEditor) : ℕ × ℕ :=
  match ed.mode with
  | .command => (rowFooter, min (2 + ed.command.length) uiCols)
  | _ =>
    let visualCol :=
      if ed.cursorLine < ed.lineCount then lineCursorVisualCol ed.line ed.cursorCol else 0
    (rowTextBase + min (ed.cursorLine - ed.scrollTop) (viewRows - 1),
      6 + min visualCol (viewCols - 1))

def placeTerminalCursor (ed : VimEditor) (s : Screen) : Screen :=
  { s with cursor := some (cursorAt ed) }

/-- `ush_vim_render_visual_line_at`. -/
def renderVisualLineAt (ed : VimEditor) (visualRow : ℕ) (s : Screen) : Screen :=
  if visualRow ≥ viewRows then s
  else s.put (rowTextBase + visualRow) (rowText ed (ed.scrollTop + visualRow))

/-- `ush_vim_render`. -/
def render (ed : VimEditor) (s : Screen) : Screen :=
  let s := s.hide
  let s := s.put rowHeader (headerText ed)
  let s := s.put rowPos (posText ed)
  let s := s.put rowTopSeparator separator
  let s := (List.range viewRows).foldl (fun s row => renderVisualLineAt ed row s) s
  let s := s.put rowBottomSeparator separator
  let s := s.put rowFooter (footerText ed)
  placeTerminalCursor ed s

/-- `ush_vim_render_partial`. -/
def renderPartial (ed : VimEditor) (headerDirty posDirty footerDirty lineDirty : Bool)
    (lineIndex : ℕ) (s : Screen) : Screen :=
  let s := s.hide
  let s := if headerDirty then s.put rowHeader (headerText ed) else s
  let s := if posDirty then s.put rowPos (posText ed) else s
  let s :=
    if lineDirty ∧ lineIndex ≥ ed.scrollTop ∧ lineIndex < ed.scrollTop + viewRows then
      renderVisualLineAt ed (lineIndex - ed.scrollTop) s
    else s
  let s := if footerDirty then s.put rowFooter (footerText ed) else s
  placeTerminalCursor ed s

def headerDirty (old ed : VimEditor) : Bool :=
  decide (old.mode ≠ ed.mode) || decide (old.modified ≠ ed.modified)

def posDirty (old ed : VimEditor) : Bool :=
  decide (old.cursorLine ≠ ed.cursorLine) || decide (old.cursorCol ≠ ed.cursorCol) ||
    decide (old.lineCount ≠ ed.lineCount)

def footerDirty (old ed : VimEditor) : Bool :=
  decide (old.mode ≠ ed.mode) || decide (old.status ≠ ed.status) ||
    decide (old.mode = .command) || decide (ed.mode = .command)

/-- `edit_key_dirty`. -/
def editKey (mode : Mode) (key : ℕ) : Bool :=
  match mode with
  | .insert => decide (key = keyBackspace ∨ key = keyDel ∨ key = 9 ∨ (key ≥ 32 ∧ key ≤ 255))
  | .normal => decide (key = 120)
  | .command => false

def lineDirty (key : ℕ) (old ed : VimEditor) : Bool :=
  decide (old.cursorLine ≠ ed.cursorLine) || decide (old.cursorCol ≠ ed.cursorCol) ||
    decide (old.modified ≠ ed.modified) || editKey old.mode key

def fullDirty (key : ℕ) (old ed : VimEditor) : Bool :=
  decide (old.scrollTop ≠ ed.scrollTop) || decide (old.lineCount ≠ ed.lineCount) ||
    decide (key = keyEnter) || decide (key = 10)

/-- The end of a round of the loop of `ush_cmd_vim`, behind a key that has led from one state to
another. -/
def redraw (key : ℕ) (old ed : VimEditor) (s : Screen) : Screen :=
  if fullDirty key old ed then render ed s
  else
    let dirtyLine := min old.cursorLine ed.cursorLine
    let s := renderPartial ed (headerDirty old ed) (posDirty old ed) (footerDirty old ed)
      (lineDirty key old ed) dirtyLine s
    if lineDirty key old ed ∧ old.cursorLine ≠ ed.cursorLine then
      renderPartial ed false false false true ed.cursorLine s
    else s

end Cleonos.Vim
