import Mathlib.Data.List.DropRight
import Cleonos.Libc.Stdlib
import Cleonos.Path.Model

/-!
# The editor

The state of `vim_main.c`, what its keys do to it, and how it is opened and left.
-/

namespace Cleonos.Vim

open Buffer (slice store moveUp moveDown)
open Path (ushResolvePath)
open Libc (isspace)
open Function (update)

def maxLines : ℕ := 2048
def maxLineLen : ℕ := 512
def statusMax : ℕ := 160
def cmdMax : ℕ := 128
def pathMax : ℕ := 192
def viewRows : ℕ := 20

inductive Mode
  | normal
  | insert
  | command
  deriving DecidableEq, Repr

def keyEsc : ℕ := 27
def keyEnter : ℕ := 13
def keyBackspace : ℕ := 8
def keyDel : ℕ := 127
def keyUp : ℕ := 1001
def keyDown : ℕ := 1002
def keyLeft : ℕ := 1003
def keyRight : ℕ := 1004
def keyHome : ℕ := 1005
def keyEnd : ℕ := 1006

/-- `ush_vim_line`. -/
structure VimLine where
  text : ℕ → UInt8
  len : ℕ

def zeroLine : VimLine := ⟨fun _ => 0, 0⟩

/-- The bytes of a line, as far as its length. -/
def VimLine.bytes (line : VimLine) : List UInt8 := slice line.text 0 line.len

/-- `ush_vim_editor`; the strings up to their zero byte, and `command` up to `command_len`. -/
structure VimEditor where
  lines : ℕ → VimLine
  lineCount : ℕ
  cursorLine : ℕ
  cursorCol : ℕ
  scrollTop : ℕ
  mode : Mode
  modified : Bool
  quitRequested : Bool
  pendingDd : Bool
  pendingGg : Bool
  pendingJj : Bool
  filePath : List UInt8
  status : List UInt8
  command : List UInt8

/-- `ed->lines[ed->cursor_line]`. -/
def VimEditor.line (ed : VimEditor) : VimLine := ed.lines ed.cursorLine

def ushCopy (n : ℕ) (src : List UInt8) : List UInt8 := (cstr src).take (n - 1)

/-- `ush_vim_set_status`. -/
def setStatus (ed : VimEditor) (text : List UInt8) : VimEditor :=
  { ed with status := ushCopy statusMax text }

/-! ## Characters -/

/-- `ush_vim_utf8_is_cont`. -/
def utf8IsCont (c : UInt8) : Bool := c ≥ 0x80 && c ≤ 0xBF

/-- `ush_vim_utf8_len_from_lead`. -/
def utf8LenFromLead (lead : UInt8) : ℕ :=
  if lead < 0x80 then 1
  else if lead ≥ 0xC2 ∧ lead ≤ 0xDF then 2
  else if lead ≥ 0xE0 ∧ lead ≤ 0xEF then 3
  else if lead ≥ 0xF0 ∧ lead ≤ 0xF4 then 4
  else 1

/-- `ush_vim_utf8_char_len_at`. -/
def utf8CharLenAt (text : ℕ → UInt8) (len pos : ℕ) : ℕ :=
  if pos ≥ len then 0
  else
    let need := utf8LenFromLead (text pos)
    if need = 1 ∨ pos + need > len then 1
    else if (slice text (pos + 1) (need - 1)).all utf8IsCont then need else 1

/-- The loop of `ush_vim_utf8_prev_boundary`. -/
def backOverConts (text : ℕ → UInt8) : ℕ → ℕ
  | 0 => 0
  | pos + 1 => if utf8IsCont (text (pos + 1)) then backOverConts text pos else pos + 1

/-- `ush_vim_utf8_prev_boundary`. -/
def utf8PrevBoundary (text : ℕ → UInt8) (len pos : ℕ) : ℕ :=
  if pos = 0 then 0 else backOverConts text (min pos len - 1)

/-- `ush_vim_utf8_next_boundary`. -/
def utf8NextBoundary (text : ℕ → UInt8) (len pos : ℕ) : ℕ :=
  if pos ≥ len then len
  else
    let adv := utf8CharLenAt text len pos
    let adv := if adv = 0 then 1 else adv
    if pos + adv > len then len else pos + adv

/-- The bytes that `ush_vim_collect_utf8` reads behind the first one, and the rest of the
input; `none` while it waits. The byte that ends the character early is kept. -/
def collectMore : ℕ → List UInt8 → Option (List UInt8 × List UInt8)
  | 0, input => some ([], input)
  | _ + 1, [] => none
  | need + 1, next :: input =>
    if utf8IsCont next = false then some ([next], input)
    else (collectMore need input).map fun r => (next :: r.1, r.2)

/-- `ush_vim_collect_utf8`, into a buffer of four bytes. -/
def collectUtf8 (first : UInt8) (input : List UInt8) : Option (List UInt8 × List UInt8) :=
  (collectMore (min (utf8LenFromLead first) 4 - 1) input).map fun r => (first :: r.1, r.2)

/-- The last loop of `ush_vim_keep_cursor_valid`. -/
def backToChar (text : ℕ → UInt8) (len : ℕ) : ℕ → ℕ
  | 0 => 0
  | col + 1 =>
    if col + 1 < len ∧ utf8IsCont (text (col + 1)) then backToChar text len col else col + 1

/-- `ush_vim_keep_cursor_valid`. -/
def keepCursorValid (ed : VimEditor) : VimEditor :=
  if ed.lineCount = 0 then ed
  else
    let ed := if ed.cursorLine ≥ ed.lineCount then { ed with cursorLine := ed.lineCount - 1 } else ed
    let col := if ed.cursorCol > ed.line.len then ed.line.len else ed.cursorCol
    { ed with cursorCol := backToChar ed.line.text ed.line.len col }

/-- `ush_vim_ensure_cursor_visible`. -/
def ensureCursorVisible (ed : VimEditor) : VimEditor :=
  if ed.cursorLine < ed.scrollTop then { ed with scrollTop := ed.cursorLine }
  else if ed.cursorLine ≥ ed.scrollTop + viewRows then
    { ed with scrollTop := ed.cursorLine - viewRows + 1 }
  else ed

/-- `ush_vim_move_left`. -/
def moveLeft (ed : VimEditor) : VimEditor :=
  if ed.cursorCol > 0 then
    { ed with cursorCol := utf8PrevBoundary ed.line.text ed.line.len ed.cursorCol }
  else if ed.cursorLine > 0 then
    { ed with cursorLine := ed.cursorLine - 1, cursorCol := (ed.lines (ed.cursorLine - 1)).len }
  else ed

/-- `ush_vim_move_right`. -/
def moveRight (ed : VimEditor) : VimEditor :=
  if ed.cursorCol < ed.line.len then
    { ed with cursorCol := utf8NextBoundary ed.line.text ed.line.len ed.cursorCol }
  else if ed.cursorLine + 1 < ed.lineCount then
    { ed with cursorLine := ed.cursorLine + 1, cursorCol := 0 }
  else ed

/-- `ush_vim_move_up`. -/
def moveUpward (ed : VimEditor) : VimEditor :=
  keepCursorValid
    (if ed.cursorLine > 0 then { ed with cursorLine := ed.cursorLine - 1 } else ed)

/-- `ush_vim_move_down`. -/
def moveDownward (ed : VimEditor) : VimEditor :=
  keepCursorValid
    (if ed.cursorLine + 1 < ed.lineCount then { ed with cursorLine := ed.cursorLine + 1 } else ed)

/-- The loop that opens a gap behind a line, and the clearing of the line in it. -/
def openLine (lines : ℕ → VimLine) (lineCount lineIndex : ℕ) : ℕ → VimLine :=
  update (moveDown lines (lineIndex + 2) (lineIndex + 1) (lineCount - (lineIndex + 1)))
    (lineIndex + 1) zeroLine

/-- `ush_vim_insert_line_after`, with its result. -/
def insertLineAfter (ed : VimEditor) (lineIndex : ℕ) : Bool × VimEditor :=
  if lineIndex ≥ ed.lineCount then (false, ed)
  else if ed.lineCount ≥ maxLines then (false, setStatus ed (lit "line limit reached"))
  else
    (true, { ed with
      lines := openLine ed.lines ed.lineCount lineIndex, lineCount := ed.lineCount + 1 })

/-- The line with bytes put in at a column. -/
def VimLine.insertAt (line : VimLine) (col : ℕ) (bytes : List UInt8) : VimLine :=
  let text :=
    if col < line.len then store line.text (col + bytes.length) (slice line.text col (line.len - col))
    else line.text
  let text := store text col bytes
  ⟨update text (line.len + bytes.length) 0, line.len + bytes.length⟩

/-- `ush_vim_insert_bytes`. -/
def insertBytes (ed : VimEditor) (bytes : List UInt8) : VimEditor :=
  if bytes.length = 0 then ed
  else if bytes.headD 0 < 0x20 ∨ bytes.headD 0 = 10 ∨ bytes.headD 0 = 13 then ed
  else if ed.line.len + bytes.length ≥ maxLineLen then setStatus ed (lit "line too long")
  else { ed with
    lines := update ed.lines ed.cursorLine (ed.line.insertAt ed.cursorCol bytes)
    cursorCol := ed.cursorCol + bytes.length
    modified := true }

/-- `ush_vim_insert_char`. -/
def insertChar (ed : VimEditor) (ch : UInt8) : VimEditor := insertBytes ed [ch]

def VimLine.cutAt (line : VimLine) (col : ℕ) : VimLine :=
  ⟨update line.text col 0, col⟩

/-- A line of zeros to which the tail of a line behind a column is copied. -/
def VimLine.tailFrom (line : VimLine) (col : ℕ) : VimLine :=
  let tailLen := line.len - col
  ⟨update (store (fun _ => 0) 0 (slice line.text col tailLen)) tailLen 0, tailLen⟩

/-- `ush_vim_split_line`. -/
def splitLine (ed : VimEditor) : VimEditor :=
  let r := insertLineAfter ed ed.cursorLine
  if r.1 = false then r.2
  else
    let ed := r.2
    let line := ed.line
    let lines :=
      if line.len - ed.cursorCol > 0 then
        let lines := update ed.lines (ed.cursorLine + 1) (line.tailFrom ed.cursorCol)
        update lines ed.cursorLine (line.cutAt ed.cursorCol)
      else ed.lines
    { ed with
      lines := lines, cursorLine := ed.cursorLine + 1, cursorCol := 0, modified := true }

/-- The line shorter by `deleteLen`, with the bytes from `src` on moved to `start`. -/
def VimLine.delete (line : VimLine) (start src deleteLen : ℕ) : VimLine :=
  let text :=
    if src < line.len then store line.text start (slice line.text src (line.len - src))
    else line.text
  ⟨update text (line.len - deleteLen) 0, line.len - deleteLen⟩

/-- The line with another one copied behind it. -/
def VimLine.join (line other : VimLine) : VimLine :=
  ⟨update (store line.text line.len (slice other.text 0 other.len))
    (line.len + other.len) 0, line.len + other.len⟩

/-- The loop that closes the gap of a line, and the clearing of the last line. -/
def removeLine (lines : ℕ → VimLine) (lineCount index : ℕ) : ℕ → VimLine :=
  update (moveUp lines index (index + 1) (lineCount - (index + 1))) (lineCount - 1) zeroLine

/-- `ush_vim_backspace`. -/
def backspace (ed : VimEditor) : VimEditor :=
  let line := ed.line
  if ed.cursorCol > 0 then
    let deleteStart := utf8PrevBoundary line.text line.len ed.cursorCol
    let deleteLen := ed.cursorCol - deleteStart
    let deleteLen := if deleteLen = 0 then 1 else deleteLen
    { ed with
      lines := update ed.lines ed.cursorLine (line.delete deleteStart ed.cursorCol deleteLen)
      cursorCol := deleteStart
      modified := true }
  else if ed.cursorLine = 0 then ed
  else
    let prev := ed.lines (ed.cursorLine - 1)
    if prev.len + line.len ≥ maxLineLen then
      setStatus ed (lit "merge would exceed line length")
    else { ed with
      lines := removeLine (update ed.lines (ed.cursorLine - 1) (prev.join line))
        ed.lineCount ed.cursorLine
      lineCount := ed.lineCount - 1
      cursorLine := ed.cursorLine - 1
      cursorCol := prev.len
      modified := true }

/-- `ush_vim_delete_char`. -/
def deleteChar (ed : VimEditor) : VimEditor :=
  let line := ed.line
  if ed.cursorCol ≥ line.len then ed
  else
    let next := utf8NextBoundary line.text line.len ed.cursorCol
    let deleteLen := next - ed.cursorCol
    let deleteLen := if deleteLen = 0 then 1 else deleteLen
    { ed with
      lines := update ed.lines ed.cursorLine
        (line.delete ed.cursorCol (ed.cursorCol + deleteLen) deleteLen)
      modified := true }

/-- `ush_vim_delete_line`. -/
def deleteLine (ed : VimEditor) : VimEditor :=
  if ed.lineCount = 0 then ed
  else if ed.lineCount = 1 then
    { ed with
      lines := update ed.lines 0 ((ed.lines 0).cutAt 0)
      cursorLine := 0
      cursorCol := 0
      modified := true }
  else
    let ed := { ed with
      lines := removeLine ed.lines ed.lineCount ed.cursorLine, lineCount := ed.lineCount - 1 }
    let ed := if ed.cursorLine ≥ ed.lineCount then { ed with cursorLine := ed.lineCount - 1 } else ed
    { keepCursorValid ed with modified := true }

/-- `ush_vim_open_below_insert`. -/
def openBelowInsert (ed : VimEditor) : VimEditor :=
  let r := insertLineAfter ed ed.cursorLine
  if r.1 = false then r.2
  else { r.2 with
    cursorLine := ed.cursorLine + 1, cursorCol := 0, mode := .insert, modified := true }

/-- What `ush_vim_read_key` makes of a byte. -/
def readKey (ch : UInt8) : ℕ :=
  if ch = 13 then keyEnter
  else if ch = 8 ∨ ch = 127 then keyBackspace
  else if ch = 1 then keyLeft
  else if ch = 2 then keyRight
  else if ch = 3 then keyUp
  else if ch = 4 then keyDown
  else if ch = 5 then keyHome
  else if ch = 6 then keyEnd
  else if ch = 7 then keyDel
  else ch.toNat

/-- The bytes of a typed character, and the rest of the input. -/
def collectKey (key : ℕ) (input : List UInt8) : Option (List UInt8 × List UInt8) :=
  if key ≥ 0x80 then collectUtf8 (UInt8.ofNat key) input else some ([UInt8.ofNat key], input)

/-- The `j` that was held back is put in. -/
def insertPending (ed : VimEditor) : VimEditor :=
  if ed.pendingJj then { insertChar ed 106 with pendingJj := false } else ed

/-- The end of `ush_vim_handle_insert_mode`, behind the test of the pending `j`. -/
def pressInsert (ed : VimEditor) (key : ℕ) (input : List UInt8) : Option (VimEditor × List UInt8) :=
  if key = 106 then some ({ ed with pendingJj := true }, input)
  else if key = keyLeft then some (moveLeft ed, input)
  else if key = keyRight then some (moveRight ed, input)
  else if key = keyUp then some (moveUpward ed, input)
  else if key = keyDown then some (moveDownward ed, input)
  else if key = keyHome then some ({ ed with cursorCol := 0 }, input)
  else if key = keyEnd then some ({ ed with cursorCol := ed.line.len }, input)
  else if key = keyEnter ∨ key = 10 then some (splitLine ed, input)
  else if key = keyBackspace ∨ key = keyDel then some (backspace ed, input)
  else if key = 9 then
    some (insertChar (insertChar (insertChar (insertChar ed 32) 32) 32) 32, input)
  else if key ≥ 32 ∧ key ≤ 255 then
    (collectKey key input).map fun r => (insertBytes ed r.1, r.2)
  else some (ed, input)

/-- `ush_vim_handle_insert_mode`, and the rest of the input. -/
def handleInsertMode (ed : VimEditor) (key : ℕ) (input : List UInt8) :
    Option (VimEditor × List UInt8) :=
  if key = keyEsc then
    let ed := { ed with mode := .normal, pendingDd := false, pendingGg := false, pendingJj := false }
    some (setStatus ed (lit "-- NORMAL --"), input)
  else if ed.pendingJj ∧ key = 106 then
    let ed := { ed with pendingJj := false, mode := .normal, pendingDd := false, pendingGg := false }
    some (setStatus ed (lit "-- NORMAL -- (jj)"), input)
  else pressInsert (insertPending ed) key input

/-- The end of `ush_vim_handle_normal_mode`, behind the tests of what is pending. -/
def pressNormal (ed : VimEditor) (key : ℕ) : VimEditor :=
  if key = keyLeft ∨ key = 104 then moveLeft ed
  else if key = keyRight ∨ key = 108 then moveRight ed
  else if key = keyUp ∨ key = 107 then moveUpward ed
  else if key = keyDown ∨ key = 106 then moveDownward ed
  else if key = keyHome ∨ key = 48 then { ed with cursorCol := 0 }
  else if key = keyEnd ∨ key = 36 then { ed with cursorCol := ed.line.len }
  else if key = 71 then keepCursorValid { ed with cursorLine := ed.lineCount - 1 }
  else if key = 103 then { ed with pendingGg := true }
  else if key = 105 then setStatus { ed with mode := .insert, pendingJj := false } (lit "-- INSERT --")
  else if key = 97 then
    let ed :=
      if ed.cursorCol < ed.line.len then
        { ed with cursorCol := utf8NextBoundary ed.line.text ed.line.len ed.cursorCol }
      else ed
    setStatus { ed with mode := .insert, pendingJj := false } (lit "-- INSERT --")
  else if key = 111 then setStatus { openBelowInsert ed with pendingJj := false } (lit "-- INSERT --")
  else if key = 120 then deleteChar ed
  else if key = 100 then { ed with pendingDd := true }
  else if key = 58 then { ed with mode := .command, command := [] }
  else ed

/-- `ush_vim_handle_normal_mode`. -/
def handleNormalMode (ed : VimEditor) (key : ℕ) : VimEditor :=
  if ed.pendingDd then
    let ed := if key = 100 then setStatus (deleteLine ed) (lit "line deleted") else ed
    { ed with pendingDd := false }
  else if ed.pendingGg then
    let ed := if key = 103 then { ed with cursorLine := 0, cursorCol := 0 } else ed
    { ed with pendingGg := false }
  else pressNormal ed key

/-- The answers to the calls that write a file: whether it could be opened, and whether the
writes were done. -/
structure SaveAnswers where
  opened : Bool
  wrote : ℕ → Bool

/-- What `ush_vim_save_file` writes, one item a call of `ush_vim_fd_write_all`. -/
def savedChunks (ed : VimEditor) : List (List UInt8) :=
  (List.range ed.lineCount).flatMap fun i =>
    (if (ed.lines i).len > 0 then [(ed.lines i).bytes] else []) ++
      (if i + 1 < ed.lineCount then [[10]] else [])

/-- `ush_vim_save_file`. -/
def saveFile (answers : SaveAnswers) (ed : VimEditor) (path : List UInt8) : Bool × VimEditor :=
  if path = [] then (false, ed)
  else if answers.opened = false then (false, setStatus ed (lit "write failed: cannot open target"))
  else if (List.range (savedChunks ed).length).all answers.wrote = false then
    (false, setStatus ed (lit "write failed: io error"))
  else
    let ed := { ed with filePath := ushCopy pathMax path, modified := false }
    let bytes := ((savedChunks ed).map List.length).sum
    (true, setStatus ed (lit "written bytes=" ++ Libc.decimal bytes))

/-- What `ush_vim_load_file` finds. -/
inductive LoadAnswer
  | notFound
  | failed
  | data (bytes : List UInt8)

/-- The lines that are loaded so far. -/
structure Loading where
  lines : ℕ → VimLine
  lineIndex : ℕ
  truncated : Bool

/-- The loop of `ush_vim_load_file`, for one byte. -/
def loadByte (st : Loading) (ch : UInt8) : Loading :=
  let line := st.lines st.lineIndex
  if ch = 13 then st
  else if ch = 10 then
    if st.lineIndex + 1 < maxLines then { st with lineIndex := st.lineIndex + 1 }
    else { st with truncated := true }
  else if line.len + 1 < maxLineLen then
    let text := update (update line.text line.len ch) (line.len + 1) 0
    { st with lines := update st.lines st.lineIndex ⟨text, line.len + 1⟩ }
  else { st with truncated := true }

/-- `ush_vim_init`. -/
def init : VimEditor :=
  { lines := fun _ => zeroLine
    lineCount := 1
    cursorLine := 0
    cursorCol := 0
    scrollTop := 0
    mode := .normal
    modified := false
    quitRequested := false
    pendingDd := false
    pendingGg := false
    pendingJj := false
    filePath := []
    status := ushCopy statusMax
      (lit "Ready. Press i to insert (jj => NORMAL), :w to save, :q to quit.")
    command := [] }

/-- `ush_vim_load_file`; `none` for 0. -/
def loadFile (answer : LoadAnswer) (ed : VimEditor) (path : List UInt8) : Option VimEditor :=
  match answer with
  | .notFound => some (setStatus { ed with filePath := ushCopy pathMax path } (lit "new file"))
  | .failed => none
  | .data bytes =>
    let st := bytes.foldl loadByte ⟨fun _ => zeroLine, 0, false⟩
    let ed := { ed with
      lines := st.lines
      lineCount := st.lineIndex + 1
      cursorLine := 0
      cursorCol := 0
      scrollTop := 0
      modified := false
      filePath := ushCopy pathMax path }
    some (setStatus ed
      (if st.truncated then lit "file loaded with truncation" else lit "file loaded"))

def ushTrimLine (line : List UInt8) : List UInt8 :=
  ((cstr line).dropWhile isspace).rdropWhile isspace

/-- `ush_split_first_and_rest`; `none` for 0. -/
def ushSplitFirstAndRest (arg : List UInt8) (n : ℕ) : Option (List UInt8 × List UInt8) :=
  let text := (cstr arg).dropWhile isspace
  if n = 0 ∨ text = [] then none
  else
    some ((text.takeWhile (! isspace ·)).take (n - 1),
      (text.dropWhile (! isspace ·)).dropWhile isspace)

/-- The target of the command `w`; `none` with the status for a failure. -/
def writeTarget (cwd : List UInt8) (ed : VimEditor) (rest : List UInt8) :
    Except (List UInt8) (List UInt8) :=
  if rest = [] then
    if ed.filePath = [] then .error (lit "No file name") else .ok (ushCopy pathMax ed.filePath)
  else
    match ushResolvePath cwd rest (fun _ => 0) pathMax with
    | none => .error (lit "invalid path")
    | some path => .ok (ushCopy pathMax path)

/-- `ush_vim_run_command`, behind the trimming of the command. -/
def runCommand (cwd : List UInt8) (answers : SaveAnswers) (ed : VimEditor) (cmd : List UInt8) :
    VimEditor :=
  if cmd = [] then ed
  else if cmd = lit "q" then
    if ed.modified then setStatus ed (lit "No write since last change (add ! to override)")
    else { ed with quitRequested := true }
  else if cmd = lit "q!" then { ed with quitRequested := true }
  else if cmd = lit "wq" ∨ cmd = lit "x" then
    if ed.filePath = [] then setStatus ed (lit "No file name")
    else
      let r := saveFile answers ed ed.filePath
      if r.1 = false then r.2 else { r.2 with quitRequested := true }
  else
    match (ushSplitFirstAndRest cmd pathMax).filter (·.1 = lit "w") with
    | some r =>
      match writeTarget cwd ed r.2 with
      | .error text => setStatus ed text
      | .ok target => (saveFile answers ed target).2
    | none =>
      if cmd = lit "help" then
        setStatus ed (lit "normal: h j k l i a o x dd gg G : | cmd: w q q! wq")
      else setStatus ed (lit "unknown command")

/-- `ush_vim_handle_command_mode`, and the rest of the input. -/
def handleCommandMode (cwd : List UInt8) (answers : SaveAnswers) (ed : VimEditor) (key : ℕ)
    (input : List UInt8) : Option (VimEditor × List UInt8) :=
  if key = keyEsc then some ({ ed with mode := .normal, command := [] }, input)
  else if key = keyBackspace ∨ key = keyDel then
    some ({ ed with command := ed.command.dropLast }, input)
  else if key = keyEnter ∨ key = 10 then
    let ed := runCommand cwd answers ed (ushTrimLine ed.command)
    some ({ ed with mode := .normal, command := [] }, input)
  else if key ≥ 32 ∧ key ≤ 255 then
    (collectKey key input).map fun r =>
      (if ed.command.length + r.1.length < cmdMax then { ed with command := ed.command ++ r.1 }
        else ed, r.2)
  else some (ed, input)

/-! ## The loop -/

/-- `ush_vim_parse_start_path`; `none` for 0. -/
def parseStartPath (cwd arg : List UInt8) : Option (List UInt8) :=
  if arg.headD 0 = 0 then some []
  else
    (ushSplitFirstAndRest arg pathMax).bind fun r =>
      ushResolvePath cwd r.1 (fun _ => 0) pathMax

/-- The editor of `ush_cmd_vim` when its loop starts; `none` where it does not. -/
def vimOpen (cwd arg : List UInt8) (answer : LoadAnswer) : Option VimEditor :=
  (parseStartPath cwd arg).bind fun path =>
    (if path = [] then some init else loadFile answer init path).map fun ed =>
      ensureCursorVisible (keepCursorValid ed)

/-- What a round of the loop reads: a byte, the input behind it, and the answers to the calls
that write a file. -/
structure KeyEvent where
  ch : UInt8
  input : List UInt8
  answers : SaveAnswers

/-- The mode decides what a key does. -/
def handleKey (cwd : List UInt8) (ed : VimEditor) (e : KeyEvent) :
    Option (VimEditor × List UInt8) :=
  match ed.mode with
  | .insert => handleInsertMode ed (readKey e.ch) e.input
  | .command => handleCommandMode cwd e.answers ed (readKey e.ch) e.input
  | .normal => some (handleNormalMode ed (readKey e.ch), e.input)

/-- One round of the loop of `ush_cmd_vim`; `none` where the loop has ended, or waits for
input. -/
def step (cwd : List UInt8) (ed : VimEditor) (e : KeyEvent) : Option VimEditor :=
  if ed.quitRequested then none
  else
    (handleKey cwd ed e).map fun r =>
      if r.1.quitRequested then r.1 else ensureCursorVisible (keepCursorValid r.1)

end Cleonos.Vim
