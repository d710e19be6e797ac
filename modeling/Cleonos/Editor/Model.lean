import Mathlib.Data.List.DropRight
import Cleonos.Shell.Pipeline

/-!
# The state of the line editor

`types.rs`, `utf8.rs`, `editing.rs` and `history.rs`: the fields of the shell that the line editor
reads and writes, and the operations on them.
-/

namespace Cleonos.Editor

section

open Shell (isSpace copyBytes lineMax pathMax)
open Buffer (slice store moveUp moveDown)

def historyMax : ℕ := 16
def historyDataMax : ℕ := 4096

/-- The fields of `ShellState` that editing a line uses. -/
structure EditorState where
  line : ℕ → UInt8
  lineLen : ℕ
  cursor : ℕ
  cwd : List UInt8
  history : List (List UInt8)
  historyNav : Option ℕ
  navSavedLine : ℕ → UInt8
  navSavedLen : ℕ
  navSavedCursor : ℕ
  clipboard : List UInt8
  selStart : ℕ
  selEnd : ℕ
  selActive : Bool
  selAnchor : ℕ
  selAnchorValid : Bool

def EditorState.text (s : EditorState) : List UInt8 := slice s.line 0 s.lineLen

/-- The bytes of the line that browsing the history keeps. -/
def EditorState.savedText (s : EditorState) : List UInt8 := slice s.navSavedLine 0 s.navSavedLen

/-- The string in a buffer of a line. -/
def bufString (buf : ℕ → UInt8) : List UInt8 := cstr (slice buf 0 lineMax)

/-! ## utf8.rs -/

def utf8IsCont (ch : UInt8) : Bool := ch ≥ 0x80 && ch ≤ 0xBF

def utf8LenFromLead (lead : UInt8) : ℕ :=
  if lead < 0x80 then 1
  else if lead ≥ 0xC2 ∧ lead ≤ 0xDF then 2
  else if lead ≥ 0xE0 ∧ lead ≤ 0xEF then 3
  else if lead ≥ 0xF0 ∧ lead ≤ 0xF4 then 4
  else 1

def utf8CharLenAt (text : List UInt8) (pos : ℕ) : ℕ :=
  if pos ≥ text.length then 0
  else
    let need := utf8LenFromLead (text.getD pos 0)
    if need = 1 ∨ pos + need > text.length then 1
    else if ((text.drop (pos + 1)).take (need - 1)).all utf8IsCont then need
    else 1

/-- The loop of `utf8_prev_boundary`. -/
def backOverConts (text : List UInt8) : ℕ → ℕ
  | 0 => 0
  | pos + 1 => if utf8IsCont (text.getD (pos + 1) 0) then backOverConts text pos else pos + 1

def utf8PrevBoundary (text : List UInt8) (pos : ℕ) : ℕ :=
  if pos = 0 then 0 else backOverConts text (min pos text.length - 1)

def utf8NextBoundary (text : List UInt8) (pos : ℕ) : ℕ :=
  if pos ≥ text.length then text.length
  else
    let adv := utf8CharLenAt text pos
    if adv = 0 ∨ pos + adv > text.length then text.length else pos + adv

/-- The loop of `collect_utf8`, for so many more bytes; `none` while it waits for input. -/
def collectMore : ℕ → List UInt8 → Option (List UInt8 × List UInt8)
  | 0, input => some ([], input)
  | _ + 1, [] => none
  | n + 1, next :: input =>
    if utf8IsCont next then (collectMore n input).map fun r => (next :: r.1, r.2)
    else some ([next], input)

/-- `collect_utf8`: the bytes of a character, and the rest of the input. -/
def collectUtf8 (first : UInt8) (input : List UInt8) : Option (List UInt8 × List UInt8) :=
  (collectMore (utf8LenFromLead first - 1) input).map fun r => (first :: r.1, r.2)

def selectionClear (s : EditorState) : EditorState :=
  { s with selActive := false, selStart := 0, selEnd := 0, selAnchor := 0, selAnchorValid := false }

def resetLine (s : EditorState) : EditorState :=
  selectionClear { s with lineLen := 0, cursor := 0, line := fun _ => 0 }

def insertText (s : EditorState) (text : List UInt8) : EditorState :=
  if text = [] then s
  else
    let cursor := min s.cursor s.lineLen
    let textLen := min text.length (lineMax - 1 - s.lineLen)
    if textLen = 0 then { s with cursor := cursor }
    else
      let line := moveDown s.line (cursor + textLen) cursor (s.lineLen + 1 - cursor)
      let line := store line cursor (text.take textLen)
      { s with
        line := Function.update line (s.lineLen + textLen) 0
        lineLen := s.lineLen + textLen
        cursor := cursor + textLen }

def deleteRange (s : EditorState) (start stop : ℕ) : EditorState :=
  if start ≥ stop ∨ start ≥ s.lineLen then selectionClear s
  else
    let stop := min stop s.lineLen
    let delta := stop - start
    let lineLen := s.lineLen - delta
    let cursor := if s.cursor > stop then s.cursor - delta else min s.cursor start
    selectionClear { s with
      line := moveUp s.line start stop (s.lineLen + 1 - stop)
      lineLen := lineLen
      cursor := min cursor lineLen }

def selectionSelectAll (s : EditorState) : EditorState :=
  if s.lineLen = 0 then selectionClear s
  else
    { s with
      selActive := true, selStart := 0, selEnd := s.lineLen, selAnchor := 0, selAnchorValid := true }

def selectionUpdateFromAnchor (s : EditorState) : EditorState :=
  if s.selAnchorValid = false then { s with selActive := false }
  else
    let anchor := min s.selAnchor s.lineLen
    if s.cursor = anchor then { s with selActive := false, selStart := anchor, selEnd := anchor }
    else if s.cursor < anchor then
      { s with selActive := true, selStart := s.cursor, selEnd := anchor }
    else { s with selActive := true, selStart := anchor, selEnd := s.cursor }

def selectionRange (s : EditorState) : Option (ℕ × ℕ) :=
  if s.selActive = false then none
  else
    let start := min s.selStart s.lineLen
    let stop := min s.selEnd s.lineLen
    if start = stop then none else some (min start stop, max start stop)

def copySelection (s : EditorState) : EditorState :=
  match selectionRange s with
  | none => s
  | some (start, stop) => { s with clipboard := slice s.line start (min (stop - start) (lineMax - 1)) }

/-- `delete_selection`, and whether there was one. -/
def deleteSelection (s : EditorState) : Bool × EditorState :=
  match selectionRange s with
  | none => (false, s)
  | some (start, stop) => (true, deleteRange s start stop)

def cutRangeToClipboard (s : EditorState) (start stop : ℕ) : EditorState :=
  if start ≥ stop ∨ start ≥ s.lineLen then s
  else
    let stop := min stop s.lineLen
    let len := min (stop - start) (lineMax - 1)
    deleteRange { s with clipboard := slice s.line start len } start stop

/-- One of the loops of `prev_word_boundary`, which goes on while `p` holds of the character
before the position; each round steps back. -/
def backWhile (p : UInt8 → Bool) (text : List UInt8) : ℕ → ℕ → ℕ
  | 0, pos => pos
  | fuel + 1, pos =>
    if pos = 0 then pos
    else
      let prev := utf8PrevBoundary text pos
      if prev = pos ∨ p (text.getD prev 0) = false then pos else backWhile p text fuel prev

def prevWordBoundary (text : List UInt8) (pos : ℕ) : ℕ :=
  let pos := min pos text.length
  let pos := backWhile isSpace text pos pos
  backWhile (! isSpace ·) text pos pos

/-- Where `line_needs_continuation` and `remove_continuation_marker` stop. -/
def backOverSpaces (text : List UInt8) : ℕ → ℕ
  | 0 => 0
  | pos + 1 => if isSpace (text.getD pos 0) then backOverSpaces text pos else pos + 1

def backslash : UInt8 := 92

def lineNeedsContinuation (text : List UInt8) : Bool :=
  let pos := backOverSpaces text text.length
  pos > 0 && text.getD (pos - 1) 0 == backslash

def removeContinuationMarker (s : EditorState) : EditorState :=
  let pos := backOverSpaces s.text s.lineLen
  if pos > 0 ∧ s.text.getD (pos - 1) 0 = backslash then
    let s := deleteRange s (pos - 1) pos
    { s with cursor := s.lineLen }
  else s

def historyCancelNav (s : EditorState) : EditorState :=
  { s with historyNav := none, navSavedLen := 0, navSavedCursor := 0, navSavedLine := fun _ => 0 }

def lineHasNonSpace (line : List UInt8) : Bool := (cstr line).any (! isSpace ·)

def historyPushMemory (history : List (List UInt8)) (line : List UInt8) : List (List UInt8) :=
  if lineHasNonSpace line = false then history
  else if history.getLast? = some (cstr line) then history
  else if history.length < historyMax then history ++ [copyBytes lineMax line]
  else history.tail ++ [copyBytes lineMax line]

/-- A line of the history file, without the end of line of other systems. -/
def historyPushLoaded (history : List (List UInt8)) (line : List UInt8) : List (List UInt8) :=
  let line := if line.getLast? = some 13 then line.dropLast else line
  if line = [] then history else historyPushMemory history (copyBytes lineMax line)

/-- The loop of `history_load`; the byte behind the data is zero. -/
def historyLoadLoop : List UInt8 → List UInt8 → List (List UInt8) → List (List UInt8)
  | [], line, history => historyPushLoaded history line
  | c :: data, line, history =>
    if c = 10 ∨ c = 0 then historyLoadLoop data [] (historyPushLoaded history line)
    else historyLoadLoop data (line ++ [c]) history

/-- `history_load`, of what the file holds; nothing is read where there is no file. -/
def historyLoad (s : EditorState) (file : List UInt8) : EditorState :=
  let data := file.take (historyDataMax - 1)
  if data = [] then s
  else historyCancelNav { s with history := historyLoadLoop data [] [] }

/-- One entry in the data of `history_save`. -/
def historySaveEntry (data entry : List UInt8) : List UInt8 :=
  let data := data ++ entry.take (historyDataMax - 2 - data.length)
  if data.length + 1 < historyDataMax then data ++ [10] else data

/-- What `history_save` writes to the file. -/
def historySave (s : EditorState) : List UInt8 := s.history.foldl historySaveEntry []

/-- `history_push`; the file is written where the history changes. -/
def historyPush (s : EditorState) (line : List UInt8) : EditorState :=
  if lineHasNonSpace line = false then historyCancelNav s
  else if s.history.getLast? = some (cstr line) then historyCancelNav s
  else historyCancelNav { s with history := historyPushMemory s.history line }

def loadLine (s : EditorState) (entry : List UInt8) : EditorState :=
  let entry := copyBytes lineMax entry
  let line := Function.update (store s.line 0 entry) entry.length 0
  let lineLen := (bufString line).length
  { s with line := line, lineLen := lineLen, cursor := lineLen }

def historyApplyCurrent (s : EditorState) : EditorState :=
  match s.historyNav with
  | some nav => loadLine s (s.history.getD nav [])
  | none =>
    let lineLen := min s.navSavedLen (lineMax - 1)
    let line := if s.navSavedLen > lineMax - 1 then Function.update s.navSavedLine lineLen 0
      else s.navSavedLine
    { s with line := line, lineLen := lineLen, cursor := min s.navSavedCursor lineLen }

/-- The position in the history that `history_up` goes to. -/
def navUp (s : EditorState) : ℕ :=
  match s.historyNav with
  | none => s.history.length - 1
  | some nav => nav - 1

def historyUp (s : EditorState) : EditorState :=
  if s.history.length = 0 then s
  else
    let s := match s.historyNav with
      | none =>
        { s with
          navSavedLine := s.line, navSavedLen := s.lineLen, navSavedCursor := s.cursor
          historyNav := some (navUp s) }
      | some _ => { s with historyNav := some (navUp s) }
    historyApplyCurrent s

def historyDown (s : EditorState) : EditorState :=
  match s.historyNav with
  | none => s
  | some nav =>
    historyApplyCurrent
      { s with historyNav := if nav + 1 < s.history.length then some (nav + 1) else none }

end

open Shell (isSpace copyBytes appendBytes hasSuffix containsByte lineMax pathMax bar gt)
open Path (resolvePath)
open LexicalPath (slash)
open Buffer (slice store moveUp)

def fsNameMax : ℕ := 96
def matchMax : ℕ := 48
def fsTypeDir : ℕ := 2

/-- The answers of `FS_STAT_TYPE`, `FS_CHILD_COUNT` and `FS_GET_CHILD_NAME`; `none` where the
last one fails. -/
structure Dirs where
  statType : List UInt8 → ℕ
  childCount : List UInt8 → ℕ
  childName : List UInt8 → ℕ → Option (List UInt8)

/-- The name of a child, as its buffer holds it. -/
def Dirs.name (dirs : Dirs) (dir : List UInt8) (i : ℕ) : Option (List UInt8) :=
  (dirs.childName dir i).map fun name => cstr (name.take fsNameMax)

def commands : List (List UInt8) :=
  [".", "ansi", "ansitest", "append", "args", "bdt", "benchmark", "bg", "bmpview", "bootargs",
    "browser", "calc", "calendar", "cat", "cd", "chinese", "clear", "clksd", "cls", "color",
    "contacts", "control", "cp", "cut", "devtest", "dir", "diskinfo", "dltest", "dmesg", "doom",
    "drvctl", "emoji", "exec", "exit", "fastfetch", "fdtest", "fg", "file_explorer", "fsckfat32",
    "fsstat", "grep", "hbos", "head", "hello", "help", "httpd", "httpget", "ifconfig", "imgview",
    "install2disk", "jobs", "kbdstat", "kdbg", "kill", "leonfetch", "libctest", "libdemo",
    "locale", "logout", "ls", "lua", "memstat", "mkdir", "mkfsfat32", "mount", "mv", "note",
    "nslookup", "partctl", "passwd", "pid", "ping", "pinyin", "pkg", "pkg_gui", "pngtest",
    "poweroff", "procstat", "ps", "pwd", "qrcode", "reboot", "resolution", "restart", "rm",
    "romaji", "rsh", "rshd", "run", "shell", "shstat", "shutdown", "sleep", "sort", "source",
    "spawn", "spin", "sqlitetest", "stardust_helloworld", "stardust_layout", "stats", "stbtest",
    "symbols", "sysinfo", "sysstat", "systemctl", "tail", "taskmgr", "taskstat", "tcc",
    "terminal", "termbox2", "termboxdemo", "timertest", "todo", "top", "touch", "ttftest", "tty",
    "tui", "tuitest", "uname", "uniq", "unzip", "usc-agent", "useradd", "userdel", "usermod",
    "users", "userstat", "uwm", "uwm_uilib", "vim", "vmtest", "wait", "wavplay", "wc",
    "webconsole", "wget", "whoami", "write", "yield", "zip", "zlibtest"].map lit

/-- `join_path`; `none` for `false`. -/
def joinPath (dirPath name : List UInt8) : Option (List UInt8) :=
  if dirPath = [] ∨ name = [] then none
  else
    let out :=
      if dirPath = [slash] then appendBytes pathMax [] [slash]
      else
        let out := appendBytes pathMax [] dirPath
        if out.1 then appendBytes pathMax out.2 [slash] else out
    if out.1 then
      let out := appendBytes pathMax out.2 name
      if out.1 then some out.2 else none
    else none

def hasPrefixToken (text pre : List UInt8) : Bool :=
  text.length ≥ pre.length && text.take pre.length == pre

def containsSubstr (text needle : List UInt8) : Bool := needle <:+: text

def matchAdd (items : List (List UInt8)) (text : List UInt8) : List (List UInt8) :=
  if text = [] ∨ items.length ≥ matchMax then items
  else if text ∈ items then items
  else items ++ [copyBytes pathMax text]

def completeCommands (token : List UInt8) (items : List (List UInt8)) : List (List UInt8) :=
  commands.foldl (fun items command =>
    if hasPrefixToken command token then matchAdd items command else items) items

/-- The loop over the children of a directory, while there is room for matches. -/
def addChildren (dirs : Dirs) (dir : List UInt8) (add : List (List UInt8) → List UInt8 →
    List (List UInt8)) (items : List (List UInt8)) : List (List UInt8) :=
  (List.range (dirs.childCount dir)).foldl (fun items i =>
    if items.length ≥ matchMax then items
    else
      match dirs.name dir i with
      | none => items
      | some name => add items name) items

/-- The body of the loop of `complete_elf_dir`. -/
def addElf (token : List UInt8) (items : List (List UInt8)) (name : List UInt8) :
    List (List UInt8) :=
  if name.length > 4 ∧ hasSuffix name (lit ".elf") then
    let command := copyBytes pathMax (name.take (name.length - 4))
    if hasPrefixToken command token then matchAdd items command else items
  else items

def completeElfDir (dirs : Dirs) (dir token : List UInt8) (items : List (List UInt8)) :
    List (List UInt8) :=
  if dirs.statType dir ≠ fsTypeDir then items
  else addChildren dirs dir (addElf token) items

def completeExternalCommands (dirs : Dirs) (token : List UInt8) (items : List (List UInt8)) :
    List (List UInt8) :=
  let items := completeElfDir dirs (lit "/shell/apps") token items
  let items := completeElfDir dirs (lit "/shell/apps/uwm") token items
  completeElfDir dirs (lit "/shell/apps/inputm") token items

/-- `base_off`: the position behind the last slash. -/
def baseOff (token : List UInt8) : ℕ := token.length - (token.rtakeWhile (· ≠ slash)).length

/-- `split_path_token`: the directory, and the start of the name. -/
def splitPathToken (cwd token : List UInt8) : Option (List UInt8 × List UInt8) :=
  if baseOff token = 0 then some (copyBytes pathMax cwd, copyBytes pathMax token)
  else
    let slashPos := baseOff token - 1
    let name := copyBytes pathMax (token.drop (slashPos + 1))
    if slashPos = 0 then some ([slash], name)
    else
      (resolvePath cwd (copyBytes pathMax (token.take slashPos)) pathMax).map fun dir => (dir, name)

/-- What `complete_path` offers for a child, in front of the slash for a directory. -/
def childText (token child name : List UInt8) : List UInt8 :=
  if token.head? = some slash then copyBytes pathMax child
  else (appendBytes pathMax (copyBytes pathMax (token.take (baseOff token))) name).2

/-- The body of the loop of `complete_path`. -/
def addPath (dirs : Dirs) (token dir pre : List UInt8) (items : List (List UInt8))
    (name : List UInt8) : List (List UInt8) :=
  if hasPrefixToken name pre then
    match joinPath dir name with
    | none => items
    | some child =>
      let completion := childText token child name
      let completion :=
        if dirs.statType child = fsTypeDir then (appendBytes pathMax completion [slash]).2
        else completion
      matchAdd items completion
  else items

def completePath (dirs : Dirs) (cwd token : List UInt8) (items : List (List UInt8)) :
    List (List UInt8) :=
  match splitPathToken cwd token with
  | none => items
  | some (dir, pre) =>
    if dirs.statType dir ≠ fsTypeDir then items
    else addChildren dirs dir (addPath dirs token dir pre) items

def lt : UInt8 := 60
def semicolon : UInt8 := 59

/-- The bytes in front of which a token starts. -/
def isDelim (c : UInt8) : Bool := isSpace c || c == bar || c == gt || c == lt

/-- Where the token starts that ends at a position. -/
def tokenStart (text : List UInt8) : ℕ → ℕ
  | 0 => 0
  | pos + 1 => if isDelim (text.getD pos 0) then pos + 1 else tokenStart text pos

/-- Whether a token behind this text is a command. -/
def commandToken (text : List UInt8) : Bool :=
  text.foldl (fun command c =>
    if c = bar ∨ c = semicolon then true
    else if isSpace c = false ∧ c ≠ gt ∧ c ≠ lt then false
    else command) true

/-- What `find_completion_token` returns; the token ends at the cursor. -/
structure CompletionToken where
  start : ℕ
  stop : ℕ
  token : List UInt8
  command : Bool

def findCompletionToken (s : EditorState) : CompletionToken :=
  let stop := min s.cursor s.lineLen
  let start := tokenStart s.text stop
  ⟨start, stop, copyBytes pathMax ((s.text.take stop).drop start), commandToken (s.text.take start)⟩

/-- The matches for the token before the cursor. -/
def completionMatches (dirs : Dirs) (s : EditorState) : List (List UInt8) :=
  let tok := findCompletionToken s
  let items :=
    if tok.command && ! containsByte tok.token slash then
      completeExternalCommands dirs tok.token (completeCommands tok.token [])
    else []
  completePath dirs s.cwd tok.token items

/-- The bytes of a replacement for which the line has room. -/
def replacementLen (s : EditorState) (start stop : ℕ) (replacement : List UInt8) : ℕ :=
  let replLen := (cstr replacement).length
  let tailLen := s.lineLen - stop
  if start + replLen + tailLen ≥ lineMax then
    if lineMax - 1 > start + tailLen then lineMax - 1 - start - tailLen else 0
  else replLen

/-- `replace_range_raw`; the tail is moved from its first byte on. -/
def replaceRangeRaw (s : EditorState) (start stop : ℕ) (replacement : List UInt8) : EditorState :=
  if start > stop ∨ stop > s.lineLen then s
  else
    let replLen := replacementLen s start stop replacement
    let tailLen := s.lineLen - stop
    let line := moveUp s.line (start + replLen) stop (tailLen + 1)
    let line := store line start (replacement.take replLen)
    selectionClear { s with
      line := Function.update line (start + replLen + tailLen) 0
      lineLen := start + replLen + tailLen
      cursor := start + replLen }

/-- The start that two matches have in common. -/
def commonStart : List UInt8 → List UInt8 → List UInt8
  | c :: s, d :: t => if c = d then c :: commonStart s t else []
  | _, _ => []

def commonPrefix : List (List UInt8) → List UInt8
  | [] => []
  | item :: items => items.foldl commonStart item

def completeNone : ℕ := 0
def completeEdited : ℕ := 1
def completeListed : ℕ := 2

/-- `linenoise_complete`, with its result. -/
def linenoiseComplete (dirs : Dirs) (s : EditorState) : EditorState × ℕ :=
  let tok := findCompletionToken s
  match completionMatches dirs s with
  | [] => (s, completeNone)
  | [item] =>
    let s := replaceRangeRaw s tok.start tok.stop item
    let s :=
      if item ≠ [] ∧ item.getLast? ≠ some slash ∧ s.lineLen + 1 < lineMax then
        replaceRangeRaw s s.cursor s.cursor [32]
      else s
    (s, completeEdited)
  | items =>
    let common := commonPrefix items
    if common.length > tok.token.length then
      (replaceRangeRaw s tok.start tok.stop common, completeEdited)
    else (s, completeListed)

/-! ## Reverse search -/

/-- The latest entry that holds the query. -/
def searchHistory (s : EditorState) (query : List UInt8) : Option (List UInt8) :=
  s.history.reverse.find? (containsSubstr · query)

/-- The end of `linenoise_reverse_search`. -/
def loadFound (s : EditorState) (query : List UInt8) : EditorState :=
  if query = [] then s
  else
    match searchHistory s query with
    | none => s
    | some entry => loadLine s entry

def isPrintable (ch : UInt8) : Bool := (ch ≥ 0x20 && ch < 0x7f) || ch ≥ 0x80

def keyDelete : UInt8 := 0x07
def keyReverseSearch : UInt8 := 0x17

/-- The loop of `linenoise_reverse_search`: the query with which enter ends it, `none` where it
is given up, and the rest of the input. -/
def searchQuery : List UInt8 → List UInt8 → Option (Option (List UInt8) × List UInt8)
  | _, [] => none
  | query, ch :: input =>
    if ch = 13 then searchQuery query input
    else if ch = 10 then some (some query, input)
    else if ch = 27 ∨ ch = keyReverseSearch then some (none, input)
    else if ch = 8 ∨ ch = 127 ∨ ch = keyDelete then searchQuery query.dropLast input
    else if isPrintable ch ∧ query.length + 1 < lineMax then searchQuery (query ++ [ch]) input
    else searchQuery query input

/-- `linenoise_reverse_search`, and the rest of the input. -/
def linenoiseReverseSearch (s : EditorState) (input : List UInt8) :
    Option (EditorState × List UInt8) :=
  (searchQuery [] input).map fun r =>
    match r.1 with
    | none => (s, r.2)
    | some query => (loadFound s query, r.2)

end Cleonos.Editor
