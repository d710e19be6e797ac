import Cleonos.Libc.Stdlib

/-!
# The screen library

`termbox2_main.c`: a back buffer that the program draws in, a front buffer that tells what has
been written to the terminal, and the sequences by which `tb_present` turns the one into the
other.
-/

namespace Cleonos.Termbox

open List

section

open Libc (decimal)

structure TbCell where
  ch : UInt32
  fg : UInt64
  bg : UInt64
  deriving DecidableEq, Repr

/-- What `calloc` and `memset` leave in a cell. -/
def TbCell.zero : TbCell := ⟨0, 0, 0⟩

/-- The return values: the codes, and the two event types. -/
inductive TbCode
  | ok
  | err
  | errInitAlready
  | errMem
  | errNoEvent
  | errNotInit
  | errOutOfBounds
  | eventKey
  | eventResize
  deriving DecidableEq, Repr

/-- `struct tb_state`; the input mode, the output mode and the last error play no part. -/
structure TbState where
  initialized : Bool
  width : ℕ
  height : ℕ
  cursorX : ℤ
  cursorY : ℤ
  clearFg : UInt64
  clearBg : UInt64
  back : Option (List TbCell)
  front : Option (List TbCell)
  deriving DecidableEq, Repr

/-- The state of a program that has just been loaded, and after `memset`. -/
def TbState.zero : TbState := ⟨false, 0, 0, 0, 0, 0, 0, none, none⟩

/-- The state that `tb_init` begins with. -/
def TbState.start : TbState := ⟨false, 0, 0, -1, -1, 0, 0, none, none⟩

structure TbEvent where
  type : UInt8
  mod : UInt8
  key : UInt16
  ch : UInt32
  w : ℤ
  h : ℤ
  x : ℤ
  y : ℤ
  deriving DecidableEq, Repr

def TbEvent.zero : TbEvent := ⟨0, 0, 0, 0, 0, 0, 0, 0⟩

/-- A terminal: what a string written to it does, the size of its grid, and what a cell shows, by
column and row. -/
structure Tty (σ γ : Type) where
  write : σ → List UInt8 → σ
  cols : σ → ℕ
  rows : σ → ℕ
  shown : σ → ℕ → ℕ → γ

/-! ## Sequences -/

/-- `tb_append_dec`. -/
def appendDec (outSize : ℕ) (value : ℤ) : List UInt8 :=
  ((if value < 0 then [45] else []) ++ decimal value.natAbs).take (outSize - 1)

/-- `tb_color_to_ansi`. -/
def colorToAnsi (attr : UInt64) (background : Bool) : ℤ :=
  let base := if background then 40 else 30
  let color := (attr &&& 0xFF).toNat
  if color = 0 then (if background then 49 else 39)
  else base + ((if color > 8 then 8 else color) - 1 : ℕ)

/-- `tb_emit_move`. -/
def moveSeq (x y : ℤ) : List UInt8 :=
  let x := if x < 0 then 0 else x
  let y := if y < 0 then 0 else y
  let seq := [27, 91]
  let seq := seq ++ appendDec (32 - seq.length) (y + 1) ++ [59]
  seq ++ appendDec (32 - seq.length) (x + 1) ++ [72]

def tbBold : UInt64 := 0x100
def tbUnderline : UInt64 := 0x200
def tbReverse : UInt64 := 0x400

/-- `tb_emit_style`. -/
def styleSeq (fg bg : UInt64) : List UInt8 :=
  let seq := [27, 91, 48]
  let seq := if fg &&& tbBold ≠ 0 then seq ++ [59, 49] else seq
  let seq := if fg &&& tbUnderline ≠ 0 then seq ++ [59, 52] else seq
  let seq := if fg &&& tbReverse ≠ 0 ∨ bg &&& tbReverse ≠ 0 then seq ++ [59, 55] else seq
  let seq := seq ++ [59]
  let seq := seq ++ appendDec (64 - seq.length) (colorToAnsi fg false) ++ [59]
  seq ++ appendDec (64 - seq.length) (colorToAnsi bg true) ++ [109]

/-- `tb_utf8_unicode_to_char`. -/
def unicodeToChar (c : UInt32) : List UInt8 :=
  let lead (mark : UInt32) (shift : UInt32) (mask : UInt32) : UInt8 :=
    (mark ||| ((c >>> shift) &&& mask)).toUInt8
  if c < 0x80 then [c.toUInt8]
  else if c < 0x800 then [lead 0xC0 6 0x1F, lead 0x80 0 0x3F]
  else if c < 0x10000 then [lead 0xE0 12 0x0F, lead 0x80 6 0x3F, lead 0x80 0 0x3F]
  else [lead 0xF0 18 0x07, lead 0x80 12 0x3F, lead 0x80 6 0x3F, lead 0x80 0 0x3F]

/-- `tb_utf8_char_to_unicode`, on the rest of a string: the character and its length; length 0 at
the end of the string. -/
def charToUnicode (c : List UInt8) : UInt32 × ℕ :=
  let at_ := fun i => (c.getD i 0).toUInt32
  if at_ 0 = 0 then (0, 0)
  else if at_ 0 < 0x80 then (at_ 0, 1)
  else if at_ 0 &&& 0xE0 = 0xC0 ∧ at_ 1 ≠ 0 then
    (((at_ 0 &&& 0x1F) <<< 6) ||| (at_ 1 &&& 0x3F), 2)
  else if at_ 0 &&& 0xF0 = 0xE0 ∧ at_ 1 ≠ 0 ∧ at_ 2 ≠ 0 then
    (((at_ 0 &&& 0x0F) <<< 12) ||| ((at_ 1 &&& 0x3F) <<< 6) ||| (at_ 2 &&& 0x3F), 3)
  else if at_ 0 &&& 0xF8 = 0xF0 ∧ at_ 1 ≠ 0 ∧ at_ 2 ≠ 0 ∧ at_ 3 ≠ 0 then
    (((at_ 0 &&& 0x07) <<< 18) ||| ((at_ 1 &&& 0x3F) <<< 12) ||| ((at_ 2 &&& 0x3F) <<< 6) |||
      (at_ 3 &&& 0x3F), 4)
  else (0xFFFD, 1)

/-- `tb_free_buffers`. -/
def freeBuffers (s : TbState) : TbState := { s with back := none, front := none }

/-- `calloc` of so many cells, when it succeeds. -/
def callocCells (succeeds : Bool) (count : ℕ) : Option (List TbCell) :=
  if succeeds then some (List.replicate count TbCell.zero) else none

/-- `tb_alloc_buffers`; whether the first and the second allocation succeed is an argument. -/
def allocBuffers (s : TbState) (w h : ℤ) (backOk frontOk : Bool) : TbCode × TbState :=
  if w ≤ 0 ∨ h ≤ 0 then (.err, s)
  else
    let count := w.toNat * h.toNat
    let s : TbState := { freeBuffers s with
      back := callocCells backOk count, front := callocCells frontOk count }
    if s.back.isNone ∨ s.front.isNone then (.errMem, freeBuffers s)
    else (.ok, { s with width := w.toNat, height := h.toNat })

/-- A cell of a buffer is read. -/
def load (buffer : Option (List TbCell)) (index : ℕ) : Option TbCell :=
  buffer.bind fun cells => cells[index]?

/-- A cell of a buffer is written. -/
def store (buffer : Option (List TbCell)) (index : ℕ) (cell : TbCell) :
    Option (Option (List TbCell)) :=
  buffer.bind fun cells =>
    if index < cells.length then some (some (cells.set index cell)) else none

/-- The first cells of a buffer are written. -/
def fillCells (buffer : Option (List TbCell)) (count : ℕ) (cell : TbCell) :
    Option (Option (List TbCell)) :=
  (List.range count).foldlM (fun buffer i => store buffer i cell) buffer

variable {σ γ : Type} (tty : Tty σ γ)

/-- The library and the terminal. -/
structure World (σ : Type) where
  tb : TbState
  term : σ

/-- `(int)` of a 64-bit number. -/
def toInt (n : ℕ) : ℤ := (n : ℤ).bmod (2 ^ 32)

/-- `tb_query_grid`; whether the system call succeeds is an argument. -/
def queryGrid (term : σ) (works : Bool) : Option (ℤ × ℤ) :=
  if works = false ∨ tty.cols term = 0 ∨ tty.rows term = 0 then none
  else some (toInt (tty.cols term), toInt (tty.rows term))

def hideCursor : List UInt8 := [27, 91, 63, 50, 53, 108]
def showCursor : List UInt8 := [27, 91, 63, 50, 53, 104]
def clearScreen : List UInt8 := [27, 91, 50, 74, 27, 91, 72]
def leaveScreen : List UInt8 := [27, 91, 48, 109, 27, 91, 63, 50, 53, 104, 10]

/-- What the outside decides in a call that may allocate: whether the grid can be read, and whether
the two allocations succeed. -/
structure Reply where
  works : Bool
  backOk : Bool
  frontOk : Bool
  deriving DecidableEq, Repr

def tbInit (w : World σ) (reply : Reply) : TbCode × World σ :=
  if w.tb.initialized then (.errInitAlready, w)
  else
    match queryGrid tty w.term reply.works with
    | none => (.err, ⟨.start, w.term⟩)
    | some (width, height) =>
      match allocBuffers .start width height reply.backOk reply.frontOk with
      | (.ok, s) =>
        (.ok, ⟨{ s with initialized := true },
          tty.write (tty.write w.term hideCursor) clearScreen⟩)
      | (_, s) => (.errMem, ⟨s, w.term⟩)

def tbShutdown (w : World σ) : TbCode × World σ :=
  if w.tb.initialized = false then (.errNotInit, w)
  else (.ok, ⟨TbState.zero, tty.write w.term leaveScreen⟩)

def tbClear (w : World σ) : Option (TbCode × World σ) :=
  if w.tb.initialized = false then some (.errNotInit, w)
  else
    (fillCells w.tb.back (w.tb.width * w.tb.height) ⟨32, w.tb.clearFg, w.tb.clearBg⟩).map
      fun back => (.ok, { w with tb := { w.tb with back := back } })

def tbSetClearAttrs (w : World σ) (fg bg : UInt64) : TbCode × World σ :=
  (.ok, { w with tb := { w.tb with clearFg := fg, clearBg := bg } })

/-- The cells of a grid, in the order in which `tb_present` visits them. -/
def cellsOf (width height : ℕ) : List (ℕ × ℕ) :=
  (List.range height).flatMap fun y => (List.range width).map fun x => (x, y)

/-- One cell is drawn: move, style and character. -/
def drawCell (term : σ) (p : ℕ × ℕ) (cell : TbCell) : σ :=
  let term := tty.write term (moveSeq p.1 p.2)
  let term := tty.write term (styleSeq cell.fg cell.bg)
  tty.write term (unicodeToChar (if cell.ch ≠ 0 then cell.ch else 32))

/-- One round of the loops of `tb_present`, on the front buffer and the terminal. -/
def presentCell (s : TbState) (r : Option (List TbCell) × σ) (p : ℕ × ℕ) :
    Option (Option (List TbCell) × σ) := do
  let index := p.2 * s.width + p.1
  let back ← load s.back index
  let front ← load r.1 index
  if back = front then some r
  else do
    let buffer ← store r.1 index back
    some (buffer, drawCell tty r.2 p back)

/-- The end of `tb_present`. -/
def placeCursor (s : TbState) (term : σ) : σ :=
  if s.cursorX ≥ 0 ∧ s.cursorY ≥ 0 then
    tty.write (tty.write term showCursor) (moveSeq s.cursorX s.cursorY)
  else tty.write term hideCursor

def tbPresent (w : World σ) : Option (TbCode × World σ) :=
  if w.tb.initialized = false then some (.errNotInit, w)
  else
    ((cellsOf w.tb.width w.tb.height).foldlM (presentCell tty w.tb) (w.tb.front, w.term)).map
      fun r => (.ok, ⟨{ w.tb with front := r.1 }, placeCursor tty w.tb r.2⟩)

def tbInvalidate (w : World σ) : Option (TbCode × World σ) :=
  if w.tb.initialized = false then some (.errNotInit, w)
  else
    (fillCells w.tb.front (w.tb.width * w.tb.height) TbCell.zero).map fun front =>
      (.ok, { w with tb := { w.tb with front := front } })

def tbSetCursor (w : World σ) (cx cy : ℤ) : TbCode × World σ :=
  if w.tb.initialized = false then (.errNotInit, w)
  else (.ok, { w with tb := { w.tb with cursorX := cx, cursorY := cy } })

def tbHideCursor (w : World σ) : TbCode × World σ := tbSetCursor w (-1) (-1)

def tbSetCell (w : World σ) (x y : ℤ) (cell : TbCell) : Option (TbCode × World σ) :=
  if w.tb.initialized = false then some (.errNotInit, w)
  else if x < 0 ∨ y < 0 ∨ x ≥ w.tb.width ∨ y ≥ w.tb.height then some (.errOutOfBounds, w)
  else
    (store w.tb.back (y.toNat * w.tb.width + x.toNat) cell).map fun back =>
      (.ok, { w with tb := { w.tb with back := back } })

/-- The loop of `tb_print`, on the rest of the string; each round takes at least one byte. -/
def printLoop (fg bg : UInt64) (w : World σ) (x y : ℤ) (str : List UInt8) :
    Option (TbCode × World σ) :=
  if hend : str.headD 0 = 0 then some (.ok, w)
  else
    let decoded := charToUnicode str
    let len := max decoded.2 1
    let ch := if decoded.2 = 0 then 63 else decoded.1
    if ch = 10 then printLoop fg bg w 0 ((y + 1).bmod (2 ^ 32)) (str.drop len)
    else if x ≥ 0 ∧ y ≥ 0 ∧ x < w.tb.width ∧ y < w.tb.height then do
      let r ← tbSetCell w x y ⟨ch, fg, bg⟩
      printLoop fg bg r.2 ((x + 1).bmod (2 ^ 32)) y (str.drop len)
    else printLoop fg bg w ((x + 1).bmod (2 ^ 32)) y (str.drop len)
termination_by str.length
decreasing_by
  all_goals
    have hpos : 0 < str.length := by
      cases str with
      | nil => simp at hend
      | cons c cs => simp
    simp only [List.length_drop]
    omega

/-- `tb_print`; a null string is `none`. -/
def tbPrint (w : World σ) (x y : ℤ) (fg bg : UInt64) (str : Option (List UInt8)) :
    Option (TbCode × World σ) :=
  if w.tb.initialized = false then some (.errNotInit, w)
  else
    match str with
    | none => some (.ok, w)
    | some str => printLoop fg bg w x y str

/-- `tb_refresh_size_if_needed`. -/
def refreshSize (w : World σ) (event : TbEvent) (reply : Reply) : TbCode × TbState × TbEvent :=
  match queryGrid tty w.term reply.works with
  | none => (.err, w.tb, event)
  | some (width, height) =>
    if width = w.tb.width ∧ height = w.tb.height then (.ok, w.tb, event)
    else
      match allocBuffers w.tb width height reply.backOk reply.frontOk with
      | (.ok, s) => (.ok, s, { TbEvent.zero with type := 2, w := width, h := height })
      | (_, s) => (.errMem, s, event)

/-- The keys that `tb_map_escape_sequence` knows; `TB_KEY_ESC` for all other sequences. -/
def escapeKey (seq : List UInt8) : UInt16 :=
  match seq with
  | [27, 91, 65] => 0xFFFF - 18
  | [27, 91, 66] => 0xFFFF - 19
  | [27, 91, 67] => 0xFFFF - 21
  | [27, 91, 68] => 0xFFFF - 20
  | [27, 91, 72] => 0xFFFF - 14
  | [27, 91, 70] => 0xFFFF - 15
  | [27, 91, 50, 126] => 0xFFFF - 12
  | [27, 91, 51, 126] => 0xFFFF - 13
  | [27, 91, 53, 126] => 0xFFFF - 16
  | [27, 91, 54, 126] => 0xFFFF - 17
  | _ => 0x1B

/-- `tb_read_byte_blocking`: the next byte, or none in time, and the bytes that come later. -/
def readByte : List (Option UInt8) → Option UInt8 × List (Option UInt8)
  | [] => (none, [])
  | c :: input => (c, input)

/-- The loop of `tb_peek_event` behind an escape, with room for `n` more bytes. -/
def readSequence (seq : List UInt8) (ch : UInt8) (input : List (Option UInt8)) :
    ℕ → List UInt8
  | 0 => seq
  | n + 1 =>
    if (ch ≥ 65 ∧ ch ≤ 90) ∨ ch = 126 then seq
    else
      match readByte input with
      | (none, _) => seq
      | (some ch, input) => readSequence (seq ++ [ch]) ch input n

/-- The end of `tb_peek_event`: the event of the next bytes. -/
def readEvent (input : List (Option UInt8)) : TbCode × TbEvent :=
  match readByte input with
  | (none, _) => (.errNoEvent, TbEvent.zero)
  | (some ch, input) =>
    if ch = 27 then
      match readByte input with
      | (none, _) => (.eventKey, { TbEvent.zero with type := 1, key := 0x1B })
      | (some ch, input) =>
        (.eventKey, { TbEvent.zero with
          type := 1, key := escapeKey (readSequence [27, ch] ch input 14) })
    else if ch < 32 ∨ ch = 127 then
      (.eventKey, { TbEvent.zero with type := 1, key := ch.toUInt16 })
    else (.eventKey, { TbEvent.zero with type := 1, ch := ch.toUInt32 })

/-- `tb_peek_event`; the event that the caller passes in is read before it is written.  A null
pointer is `none`. -/
def tbPeekEvent (w : World σ) (event : Option TbEvent) (reply : Reply)
    (input : List (Option UInt8)) : TbCode × Option TbEvent × World σ :=
  if w.tb.initialized = false then (.errNotInit, event, w)
  else
    match event with
    | none => (.err, none, w)
    | some event =>
      let r := refreshSize tty w event reply
      let w := { w with tb := r.2.1 }
      if r.1 = .ok ∧ r.2.2.type = 2 then (.eventResize, some r.2.2, w)
      else ((readEvent input).1, some (readEvent input).2, w)

end

/-! ## The terminal under the screen library -/

open Libc (decimal decimal_eq digit_of_mem_decimal length_decimal_le_iff)

variable {σ γ : Type} (tty : Tty σ γ)

/-- The character that is written for a cell. -/
def TbCell.char (cell : TbCell) : UInt32 := if cell.ch ≠ 0 then cell.ch else 32

/-- What the repository's description of its terminal says about the sequences of the library: they
leave the size of the grid, a plain character appears in the cell that the cursor was moved to and
nowhere else, and the sequences for the cursor show nothing.  Which characters are plain is a matter
of the terminal: a control character is not, nor is one that takes two cells. -/
structure Documented (glyph : List UInt8 → UInt32 → γ) (plain : UInt32 → Prop) : Prop where
  cols : ∀ term text, tty.cols (tty.write term text) = tty.cols term
  rows : ∀ term text, tty.rows (tty.write term text) = tty.rows term
  put : ∀ term (x y : ℕ) fg bg ch, plain ch → x < tty.cols term → y < tty.rows term →
    ∀ col row, col < tty.cols term → row < tty.rows term →
      tty.shown (tty.write (tty.write (tty.write term (moveSeq x y)) (styleSeq fg bg))
        (unicodeToChar ch)) col row =
        if col = x ∧ row = y then glyph (styleSeq fg bg) ch else tty.shown term col row
  cursor : ∀ term text, text = showCursor ∨ text = hideCursor ∨ (∃ x y, text = moveSeq x y) →
    tty.shown (tty.write term text) = tty.shown term

def look (glyph : List UInt8 → UInt32 → γ) (cell : TbCell) : γ :=
  glyph (styleSeq cell.fg cell.bg) cell.char

/-- The state of the terminal; a glyph is the style sequence and the character. -/
structure Screen where
  cols : ℕ
  rows : ℕ
  cols_lt : cols < 2 ^ 31
  rows_lt : rows < 2 ^ 31
  col : ℕ
  row : ℕ
  style : List UInt8
  cells : ℕ → ℕ → List UInt8 × UInt32

namespace Screen

open List

/-- The value of a parameter. -/
def number (text : List UInt8) : ℕ := text.foldl (fun value c => value * 10 + (c.toNat - 48)) 0

/-- One character at the cursor. -/
def putChar (s : Screen) (c : UInt8) : Screen :=
  { s with
    cells := fun col row =>
      if col = s.col ∧ row = s.row then (s.style, c.toUInt32) else s.cells col row
    col := min (s.col + 1) (s.cols - 1) }

/-- A sequence with its parameters and its last character. -/
def apply (s : Screen) (text params : List UInt8) (last : UInt8) : Screen :=
  if last = 72 then
    { s with
      row := min (number (params.takeWhile (· ≠ 59)) - 1) (s.rows - 1)
      col := min (number ((params.dropWhile (· ≠ 59)).drop 1) - 1) (s.cols - 1) }
  else if last = 109 then { s with style := text }
  else s

/-- A string is written: the clear of the whole screen, a character, or a sequence. -/
def write (s : Screen) (text : List UInt8) : Screen :=
  if text = clearScreen then
    { s with cells := fun _ _ => (styleSeq 0 0, 32), col := 0, row := 0 }
  else
    match text with
    | [c] => if 32 ≤ c ∧ c < 127 then putChar s c else s
    | 27 :: 91 :: rest => apply s text rest.dropLast (rest.getLastD 0)
    | _ => s

end Screen

def screenTty : Tty Screen (List UInt8 × UInt32) := ⟨Screen.write, Screen.cols, Screen.rows,
  Screen.cells⟩

/-- The characters that it shows. -/
def printable (c : UInt32) : Prop := 32 ≤ c ∧ c < 127

instance : DecidablePred printable := fun c => inferInstanceAs (Decidable (32 ≤ c ∧ c < 127))

section Screen

variable {s : Screen} {text rest : List UInt8} {x y : ℕ} {c : UInt8} {ch : UInt32} {fg bg : UInt64}

theorem size_apply (params : List UInt8) (last : UInt8) :
    (s.apply text params last).cols = s.cols ∧ (s.apply text params last).rows = s.rows := by
  rw [Screen.apply]
  split
  · exact ⟨rfl, rfl⟩
  · split <;> exact ⟨rfl, rfl⟩

theorem size_write : (s.write text).cols = s.cols ∧ (s.write text).rows = s.rows := by
  unfold Screen.write
  split
  · exact ⟨rfl, rfl⟩
  · split
    · split <;> exact ⟨rfl, rfl⟩
    · exact size_apply _ _
    · exact ⟨rfl, rfl⟩

theorem write_sequence (hclear : 74 ∉ rest) :
    s.write (27 :: 91 :: rest) = s.apply (27 :: 91 :: rest) rest.dropLast (rest.getLastD 0) := by
  have hne : (27 :: 91 :: rest) ≠ clearScreen := by
    intro h
    have hrest : rest = [50, 74, 27, 91, 72] := by simpa [clearScreen] using h
    exact hclear (by simp [hrest])
  rw [Screen.write, if_neg hne]

theorem cells_apply (params : List UInt8) (last : UInt8) :
    (s.apply text params last).cells = s.cells := by
  rw [Screen.apply]
  split
  · rfl
  · split <;> rfl

theorem mem_appendDec {room : ℕ} {value : ℤ} (h : c ∈ appendDec room value) :
    c = 45 ∨ 48 ≤ c ∧ c ≤ 57 := by
  have hmem := mem_of_mem_take h
  rcases mem_append.1 hmem with hmem | hmem
  · left
    split at hmem
    · exact mem_singleton.1 hmem
    · exact absurd hmem not_mem_nil
  · exact Or.inr (digit_of_mem_decimal hmem)

/-- A sequence without the last character of a clear. -/
def Sequence (text : List UInt8) : Prop := ∃ rest, text = 27 :: 91 :: rest ∧ 74 ∉ rest

theorem exists_moveSeq (x y : ℤ) : Sequence (moveSeq x y) := by
  refine ⟨_, by rw [moveSeq, append_assoc, append_assoc, append_assoc]; rfl, ?_⟩
  intro h
  change 74 ∈ _ ++ ([59] ++ (_ ++ [72])) at h
  simp only [mem_append, mem_cons, not_mem_nil, or_false] at h
  rcases h with h | h | h | h
  · rcases mem_appendDec h with h | h <;> exact absurd h (by decide)
  · exact absurd h (by decide)
  · rcases mem_appendDec h with h | h <;> exact absurd h (by decide)
  · exact absurd h (by decide)

theorem appendDec_eq {room n : ℕ} (h : n < 10 ^ 10) (hroom : 11 ≤ room) :
    appendDec room n = decimal n := by
  have hlen := (length_decimal_le_iff (by decide)).2 h
  rw [appendDec, if_neg (by omega), nil_append, Int.natAbs_natCast,
    take_of_length_le (by omega)]

theorem moveSeq_eq (hx : x < 2 ^ 31) (hy : y < 2 ^ 31) :
    moveSeq x y = 27 :: 91 :: (decimal (y + 1) ++ 59 :: (decimal (x + 1) ++ [72])) := by
  have hrow : appendDec 30 ((y : ℤ) + 1) = decimal (y + 1) :=
    appendDec_eq (n := y + 1) (by omega) (by decide)
  have hlen : (decimal (y + 1)).length ≤ 10 :=
    (length_decimal_le_iff (by decide)).2 (by omega)
  have hcol : appendDec (32 - ([27, 91] ++ decimal (y + 1) ++ [59]).length) ((x : ℤ) + 1) =
      decimal (x + 1) := by
    refine appendDec_eq (n := x + 1) (by omega) ?_
    simp only [length_append, length_cons, length_nil]
    omega
  rw [moveSeq, if_neg (by omega), if_neg (by omega)]
  rw [show 32 - [(27 : UInt8), 91].length = 30 from rfl, hrow, hcol]
  simp

theorem number_append (l : List UInt8) (c : UInt8) :
    Screen.number (l ++ [c]) = Screen.number l * 10 + (c.toNat - 48) := by
  rw [Screen.number, Screen.number, foldl_append]
  rfl

theorem number_decimal (n : ℕ) : Screen.number (decimal n) = n := by
  have hdigit : ∀ d < 10, (UInt8.ofNat (48 + d)).toNat = 48 + d := by decide
  induction n using Nat.strong_induction_on with
  | _ n ih =>
    rw [decimal_eq]
    split
    case isTrue h =>
      rw [← nil_append [_], number_append, hdigit n h]
      simp [Screen.number]
    case isFalse h =>
      rw [number_append, ih (n / 10) (by omega), hdigit _ (Nat.mod_lt _ (by decide))]
      omega

theorem ne_of_mem_decimal {n : ℕ} (h : c ∈ decimal n) : c ≠ 59 := by
  rintro rfl
  exact absurd (digit_of_mem_decimal h) (by decide)

theorem write_move (hx : x < s.cols) (hy : y < s.rows) :
    s.write (moveSeq x y) = { s with row := y, col := x } := by
  have hxlt : x < 2 ^ 31 := hx.trans s.cols_lt
  have hylt : y < 2 ^ 31 := hy.trans s.rows_lt
  obtain ⟨rest, hrest, hclear⟩ := exists_moveSeq x y
  have hparams : rest = (decimal (y + 1) ++ 59 :: decimal (x + 1)) ++ [72] := by
    have heq := hrest.symm.trans (moveSeq_eq hxlt hylt)
    simpa using heq
  have hrow : (decimal (y + 1) ++ 59 :: decimal (x + 1)).takeWhile (· ≠ 59) = decimal (y + 1) := by
    rw [takeWhile_append_of_pos fun c hc => by simpa using ne_of_mem_decimal hc]
    simp
  have hcol : (decimal (y + 1) ++ 59 :: decimal (x + 1)).dropWhile (· ≠ 59) =
      59 :: decimal (x + 1) := by
    rw [dropWhile_append_of_pos fun c hc => by simpa using ne_of_mem_decimal hc]
    simp
  rw [hrest, write_sequence hclear, hparams, dropLast_concat, getLastD_concat,
    Screen.apply, if_pos rfl, hrow, hcol, drop_one, tail_cons, number_decimal,
    number_decimal, Nat.add_sub_cancel, Nat.add_sub_cancel, Nat.min_eq_left (by omega),
    Nat.min_eq_left (by omega)]

theorem Sequence.append (h : Sequence text) (hrest : 74 ∉ rest) : Sequence (text ++ rest) := by
  obtain ⟨front, rfl, hfront⟩ := h
  refine ⟨front ++ rest, rfl, fun hmem => ?_⟩
  rcases mem_append.1 hmem with hmem | hmem
  · exact hfront hmem
  · exact hrest hmem

theorem Sequence.ite {p : Prop} [Decidable p] (h : Sequence text) (hrest : 74 ∉ rest) :
    Sequence (if p then text ++ rest else text) := by
  split
  · exact h.append hrest
  · exact h

theorem Sequence.cells_write (h : Sequence text) : (s.write text).cells = s.cells := by
  obtain ⟨rest, rfl, hclear⟩ := h
  rw [write_sequence hclear, cells_apply]

theorem notMem_appendDec (room : ℕ) (value : ℤ) : 74 ∉ appendDec room value := by
  intro h
  rcases mem_appendDec h with h | h <;> exact absurd h (by decide)

theorem exists_styleSeq (fg bg : UInt64) :
    ∃ rest, styleSeq fg bg = rest ++ [109] ∧ Sequence rest := by
  refine ⟨_, rfl, .append (.append (.append (.append ?_ ?_) (notMem_appendDec _ _)) ?_)
    (notMem_appendDec _ _)⟩
  · have hstart : Sequence [27, 91, 48] := ⟨[48], rfl, by decide⟩
    exact ((hstart.ite (by decide)).ite (by decide)).ite (by decide)
  · decide
  · decide

theorem write_style : s.write (styleSeq fg bg) = { s with style := styleSeq fg bg } := by
  obtain ⟨rest, hseq, front, rfl, hclear⟩ := exists_styleSeq fg bg
  rw [hseq, cons_append, cons_append, write_sequence, getLastD_concat, Screen.apply]
  · rfl
  · intro h
    rcases mem_append.1 h with h | h
    · exact hclear h
    · exact absurd h (by decide)

theorem write_char (hch : printable ch) :
    s.write (unicodeToChar ch) = s.putChar ch.toUInt8 ∧ ch.toUInt8.toUInt32 = ch := by
  obtain ⟨hlow, hhigh⟩ := hch
  rw [UInt32.le_iff_toNat_le] at hlow
  rw [UInt32.lt_iff_toNat_lt] at hhigh
  have h80 : ch < 0x80 := UInt32.lt_iff_toNat_lt.2 (hhigh.trans (by decide))
  have hnat : ch.toUInt8.toNat = ch.toNat := by
    rw [UInt32.toNat_toUInt8]
    exact Nat.mod_eq_of_lt (hhigh.trans (by decide))
  constructor
  · rw [unicodeToChar, if_pos h80, Screen.write, if_neg (by simp [clearScreen])]
    refine if_pos ⟨?_, ?_⟩
    · rw [UInt8.le_iff_toNat_le, hnat]
      exact hlow
    · rw [UInt8.lt_iff_toNat_lt, hnat]
      exact hhigh
  · rw [← UInt32.toNat_inj, UInt8.toNat_toUInt32, hnat]

theorem documented_screen : Documented screenTty (fun style ch => (style, ch)) printable := by
  refine ⟨fun s text => size_write.1, fun s text => size_write.2, ?_, ?_⟩
  · intro s x y fg bg ch hch hx hy col row _ _
    change ((((s.write (moveSeq x y)).write (styleSeq fg bg)).write (unicodeToChar ch))).cells col row =
      if col = x ∧ row = y then (styleSeq fg bg, ch) else s.cells col row
    rw [write_move hx hy, write_style, (write_char hch).1, Screen.putChar]
    simp only [(write_char (s := s) hch).2]
  · rintro s text (rfl | rfl | ⟨x, y, rfl⟩)
    · exact Sequence.cells_write ⟨[63, 50, 53, 104], rfl, by decide⟩
    · exact Sequence.cells_write ⟨[63, 50, 53, 108], rfl, by decide⟩
    · exact Sequence.cells_write (exists_moveSeq x y)

end Screen

end Cleonos.Termbox
