import Cleonos.Editor.Spec

/-!
# The loop of the line editor

`input.rs`: each round of the loop of `read_interactive_line` reads a byte, and more where the
byte starts a character or a search.
-/

namespace Cleonos.Editor

open List

section

open Shell (isSpace copyBytes lineMax pathMax)

/-! ## Keys -/

/-- What a byte of the input is taken for, in the order in which `read_interactive_line` asks. -/
inductive Key
  | ret
  | newline
  | selectAll
  | copy
  | paste
  | shiftLeft
  | shiftRight
  | shiftHome
  | shiftEnd
  | lineStart
  | lineEnd
  | killBefore
  | killAfter
  | killWordBefore
  | clearScreen
  | eofOrDelete
  | reverseSearch
  | up
  | down
  | left
  | right
  | tab
  | backspace
  | delete
  | text
  | other
  deriving DecidableEq, Repr

/-- The bytes of the keys, `KEY_HOME` next to `KEY_LINE_START` and `KEY_END` next to
`KEY_LINE_END`. -/
def keyOf (ch : UInt8) : Key :=
  if ch = 13 then .ret
  else if ch = 10 then .newline
  else if ch = 0x10 then .selectAll
  else if ch = 0x11 then .copy
  else if ch = 0x12 then .paste
  else if ch = 0x13 then .shiftLeft
  else if ch = 0x14 then .shiftRight
  else if ch = 0x15 then .shiftHome
  else if ch = 0x16 then .shiftEnd
  else if ch = 0x18 ∨ ch = 0x05 then .lineStart
  else if ch = 0x19 ∨ ch = 0x06 then .lineEnd
  else if ch = 0x1A then .killBefore
  else if ch = 0x1C then .killAfter
  else if ch = 0x1D then .killWordBefore
  else if ch = 0x1E then .clearScreen
  else if ch = 0x1F then .eofOrDelete
  else if ch = keyReverseSearch then .reverseSearch
  else if ch = 0x03 then .up
  else if ch = 0x04 then .down
  else if ch = 0x01 then .left
  else if ch = 0x02 then .right
  else if ch = 9 then .tab
  else if ch = 8 ∨ ch = 127 then .backspace
  else if ch = keyDelete then .delete
  else if isPrintable ch then .text
  else .other

/-- What a round leaves: the editor, the line where it was ended, and the rest of the input. -/
structure Round where
  state : EditorState
  submitted : Option (List UInt8)
  input : List UInt8

/-- A round that goes on with the same line. -/
def goOn (s : EditorState) (input : List UInt8) : Option Round := some ⟨s, none, input⟩

/-- Enter: the line goes on behind a backslash, or is ended. -/
def pressEnter (s : EditorState) : EditorState × Option (List UInt8) :=
  if lineNeedsContinuation s.text then
    let s := removeContinuationMarker (selectionClear (historyCancelNav s))
    (if s.lineLen + 1 < lineMax then insertText s [32] else s, none)
  else
    let s := { s with line := Function.update s.line s.lineLen 0 }
    let out := copyBytes lineMax s.text
    (resetLine (historyPush s (bufString s.line)), some out)

/-- Paste in place of the selection. -/
def pressPaste (s : EditorState) : EditorState :=
  if s.clipboard.length > 0 then
    let s := (deleteSelection (historyCancelNav s)).2
    insertText s s.clipboard
  else s

/-- A move of the cursor that keeps the anchor of the selection. -/
def pressShift (s : EditorState) (cursor : ℕ) : EditorState :=
  let s := if s.selAnchorValid = false then { s with selAnchor := s.cursor, selAnchorValid := true }
    else s
  selectionUpdateFromAnchor { s with cursor := cursor }

/-- A move of the cursor that gives the selection up. -/
def pressMove (s : EditorState) (cursor : ℕ) : EditorState :=
  { selectionClear s with cursor := cursor }

def pressKillBefore (s : EditorState) : EditorState :=
  if s.cursor > 0 then cutRangeToClipboard (historyCancelNav s) 0 s.cursor else s

def pressKillAfter (s : EditorState) : EditorState :=
  if s.cursor < s.lineLen then cutRangeToClipboard (historyCancelNav s) s.cursor s.lineLen else s

def pressKillWordBefore (s : EditorState) : EditorState :=
  if s.cursor > 0 then
    let start := prevWordBoundary s.text s.cursor
    if start < s.cursor then cutRangeToClipboard (historyCancelNav s) start s.cursor else s
  else s

/-- The character behind the cursor is deleted, or an empty line ends the shell. -/
def pressEofOrDelete (s : EditorState) : EditorState × Option (List UInt8) :=
  if s.lineLen = 0 then (resetLine s, some (lit "exit"))
  else if s.cursor < s.lineLen then
    (deleteRange (historyCancelNav s) s.cursor (utf8NextBoundary s.text s.cursor), none)
  else (s, none)

def pressTab (dirs : Dirs) (s : EditorState) : EditorState :=
  let r := linenoiseComplete dirs s
  if r.2 = completeEdited ∨ r.2 = completeListed then historyCancelNav r.1 else r.1

def pressBackspace (s : EditorState) : EditorState :=
  let r := deleteSelection s
  if r.1 then historyCancelNav r.2
  else if s.cursor > 0 ∧ s.lineLen > 0 then
    let start := utf8PrevBoundary s.text s.cursor
    deleteRange (selectionClear (historyCancelNav s)) start s.cursor
  else s

def pressDelete (s : EditorState) : EditorState :=
  let r := deleteSelection s
  if r.1 then historyCancelNav r.2
  else if s.cursor < s.lineLen then
    let next := utf8NextBoundary s.text s.cursor
    deleteRange (selectionClear (historyCancelNav s)) s.cursor next
  else s

/-- The bytes of the character that is typed. -/
def collectText (ch : UInt8) (input : List UInt8) : Option (List UInt8 × List UInt8) :=
  if ch ≥ 0x80 then collectUtf8 ch input else some ([ch], input)

/-- The editor before a typed character is collected. -/
def beforeText (s : EditorState) : EditorState := (deleteSelection (historyCancelNav s)).2

/-- The character is inserted where the line has room for it. -/
def pressText (s : EditorState) (ch : UInt8) (input : List UInt8) : Option Round :=
  let s := beforeText s
  if s.lineLen + 1 ≥ lineMax then goOn s input
  else
    (collectText ch input).bind fun r =>
      if s.lineLen + r.1.length ≥ lineMax then goOn s r.2 else goOn (insertText s r.1) r.2

/-- A round of the loop of `read_interactive_line` that reads the byte `ch`. -/
def readKey (dirs : Dirs) (s : EditorState) (ch : UInt8) (input : List UInt8) : Option Round :=
  match keyOf ch with
  | .ret => goOn s input
  | .newline => some ⟨(pressEnter s).1, (pressEnter s).2, input⟩
  | .selectAll =>
    let s := selectionSelectAll s
    goOn { s with cursor := s.lineLen } input
  | .copy => goOn (copySelection s) input
  | .paste => goOn (pressPaste s) input
  | .shiftLeft =>
    goOn (pressShift s (if s.cursor > 0 then utf8PrevBoundary s.text s.cursor else s.cursor)) input
  | .shiftRight =>
    goOn (pressShift s (if s.cursor < s.lineLen then utf8NextBoundary s.text s.cursor
      else s.cursor)) input
  | .shiftHome => goOn (pressShift s 0) input
  | .shiftEnd => goOn (pressShift s s.lineLen) input
  | .lineStart => goOn (pressMove s 0) input
  | .lineEnd => goOn (pressMove s s.lineLen) input
  | .killBefore => goOn (pressKillBefore s) input
  | .killAfter => goOn (pressKillAfter s) input
  | .killWordBefore => goOn (pressKillWordBefore s) input
  | .clearScreen => goOn s input
  | .eofOrDelete => some ⟨(pressEofOrDelete s).1, (pressEofOrDelete s).2, input⟩
  | .reverseSearch =>
    (linenoiseReverseSearch s input).bind fun r => goOn r.1 r.2
  | .up => goOn (historyUp (selectionClear s)) input
  | .down => goOn (historyDown (selectionClear s)) input
  | .left =>
    goOn (pressMove s (if s.cursor > 0 then utf8PrevBoundary s.text s.cursor else s.cursor)) input
  | .right =>
    goOn (pressMove s (if s.cursor < s.lineLen then utf8NextBoundary s.text s.cursor
      else s.cursor)) input
  | .tab => goOn (pressTab dirs s) input
  | .backspace => goOn (pressBackspace s) input
  | .delete => goOn (pressDelete s) input
  | .text => pressText s ch input
  | .other => goOn s input

/-- What happens to the editor: `read_interactive_line` is called, after commands have changed
the current directory, or a key is read. -/
inductive Event
  | start (cwd : List UInt8)
  | key (dirs : Dirs) (ch : UInt8) (input : List UInt8)

/-- The start of `read_interactive_line`. -/
def startLine (s : EditorState) (cwd : List UInt8) : EditorState :=
  historyCancelNav (resetLine { s with cwd := cwd })

/-- The editor afterwards; `none` while it waits for input. -/
def step (s : EditorState) : Event → Option EditorState
  | .start cwd => some (startLine s cwd)
  | .key dirs ch input => (readKey dirs s ch input).map Round.state

/-- The editor of `shell_main_impl`, before the history is loaded. -/
def newState (cwd : List UInt8) : EditorState :=
  ⟨fun _ => 0, 0, 0, cwd, [], none, fun _ => 0, 0, 0, [], 0, 0, false, 0, false⟩

/-- The editor of a shell that has loaded its history. -/
def Initial (s : EditorState) : Prop := ∃ cwd file, s = historyLoad (newState cwd) file

/-- A file system without directories. -/
def noDirs : Dirs := ⟨fun _ => 0, fun _ => 0, fun _ _ => none⟩

end

open Shell (lineMax)
open Buffer

variable {s s' : EditorState} {start stop d dst src : ℕ} {tail replacement : List UInt8}

/-- The bytes for which the line has room, next to what is in front of a range and behind it. -/
def roomBetween (s : EditorState) (start stop : ℕ) : ℕ := lineMax - 1 - (start + (s.lineLen - stop))

/-- The part of the string in a replacement for which the line has room. -/
def keptPart (s : EditorState) (start stop : ℕ) (replacement : List UInt8) : List UInt8 :=
  (cstr replacement).take (roomBetween s start stop)

/-- The range is replaced: what is in front of it and behind it stays, and the cursor is behind the
replacement. -/
structure Replaced (s : EditorState) (start stop : ℕ) (replacement : List UInt8)
    (s' : EditorState) : Prop where
  text : s'.text = s.text.take start ++ keptPart s start stop replacement ++ s.text.drop stop
  len : s'.lineLen = start + (keptPart s start stop replacement).length + (s.lineLen - stop)
  room : s'.lineLen < lineMax
  term : s'.line s'.lineLen = 0
  cursor : s'.cursor = start + (keptPart s start stop replacement).length

/-- Every byte is the same as the one at this distance behind it. -/
def RepeatsEvery (d : ℕ) (t : List UInt8) : Prop :=
  ∀ j, j + d < t.length → t.getD (j + d) 0 = t.getD j 0

instance (d : ℕ) (t : List UInt8) : Decidable (RepeatsEvery d t) :=
  decidable_of_iff (∀ j < t.length, j + d < t.length → t.getD (j + d) 0 = t.getD j 0)
    ⟨fun h j hj => h j (by omega) hj, fun h j _ hj => h j hj⟩

theorem repeatsEvery_zero (t : List UInt8) : RepeatsEvery 0 t := fun _ _ => rfl

theorem RepeatsEvery.getD_mod (h : RepeatsEvery d tail) (hd : 0 < d) (j : ℕ)
    (hj : j < tail.length) : tail.getD (j % d) 0 = tail.getD j 0 := by
  induction j using Nat.strong_induction_on with
  | _ j ih =>
    by_cases hlt : j < d
    · rw [Nat.mod_eq_of_lt hlt]
    · have hback : j - d + d = j := Nat.sub_add_cancel (Nat.le_of_not_lt hlt)
      have hsame := h (j - d) (by rwa [hback])
      rw [hback] at hsame
      rw [Nat.mod_eq_sub_mod (Nat.le_of_not_lt hlt), ih (j - d) (by omega) (by omega), hsame]

theorem movedTail_eq_iff : movedTail tail dst src = tail ↔ RepeatsEvery (dst - src) tail := by
  by_cases hle : dst ≤ src
  · rw [movedTail, if_pos hle, Nat.sub_eq_zero_of_le hle]
    exact iff_of_true rfl (repeatsEvery_zero tail)
  rw [movedTail, if_neg hle]
  have hd : 0 < dst - src := by omega
  have hcell : ∀ j < tail.length, ((List.range tail.length).map
      fun j => tail.getD (j % (dst - src)) 0).getD j 0 = tail.getD (j % (dst - src)) 0 := by
    intro j hj
    rw [getD_eq_getElem _ _ (by simpa using hj)]
    simp
  constructor
  · intro heq j hj
    have hfirst := hcell j (by omega)
    have hsecond := hcell (j + (dst - src)) hj
    rw [heq] at hfirst hsecond
    rw [hsecond, hfirst, Nat.add_mod_right]
  · intro hrepeats
    refine ext_getElem (by simp) fun j hj hj' => ?_
    have hsame := hrepeats.getD_mod hd j hj'
    rw [← hcell j hj', getD_eq_getElem _ _ hj, getD_eq_getElem _ _ hj'] at hsame
    exact hsame

theorem replacementLen_eq (s : EditorState) (start stop : ℕ) (replacement : List UInt8) :
    replacementLen s start stop replacement = (keptPart s start stop replacement).length := by
  rw [keptPart, length_take, roomBetween]
  simp only [replacementLen]
  split
  · split
    · omega
    · omega
  · omega

theorem take_replacementLen (s : EditorState) (start stop : ℕ) (replacement : List UInt8) :
    replacement.take (replacementLen s start stop replacement) =
      keptPart s start stop replacement := by
  have hstring : replacement.take (cstr replacement).length = cstr replacement :=
    prefix_iff_eq_take.1 (List.takeWhile_prefix _) |>.symm
  have hle : replacementLen s start stop replacement ≤ (cstr replacement).length := by
    rw [replacementLen_eq, keptPart]
    exact length_take_le' _ _
  have htake : replacement.take (replacementLen s start stop replacement) =
      (cstr replacement).take (replacementLen s start stop replacement) := by
    rw [← hstring, take_take, Nat.min_eq_left hle]
  rw [htake, replacementLen_eq, keptPart, length_take, take_eq_take_iff]
  omega

/-- The range is replaced exactly where the tail does not move to the back, or repeats itself at the
distance by which it moves. -/
theorem replaced_iff (hlen : s.lineLen < lineMax) (hle : start ≤ stop) (hstop : stop ≤ s.lineLen) :
    Replaced s start stop replacement (replaceRangeRaw s start stop replacement) ↔
      RepeatsEvery (start + (keptPart s start stop replacement).length - stop)
        (s.text.drop stop) := by
  have htext := text_replaceRangeRaw hle hstop replacement
  have hcursor := cursor_replaceRangeRaw hle hstop replacement
  rw [take_replacementLen, replacementLen_eq] at htext
  rw [replacementLen_eq] at hcursor
  have hlength : (replaceRangeRaw s start stop replacement).lineLen =
      start + (keptPart s start stop replacement).length + (s.lineLen - stop) := by
    rw [replaceRangeRaw, if_neg (by omega), ← replacementLen_eq]
    rfl
  have hroom : (keptPart s start stop replacement).length ≤ roomBetween s start stop := by
    rw [keptPart]
    exact length_take_le _ _
  rw [← movedTail_eq_iff]
  constructor
  · intro h
    have hsame := h.text
    rw [htext] at hsame
    exact append_cancel_left hsame
  · intro htail
    refine ⟨by rw [htext, htail], hlength, ?_, ?_, hcursor⟩
    · rw [roomBetween] at hroom
      omega
    · rw [hlength, replaceRangeRaw, if_neg (by omega), ← replacementLen_eq]
      exact Function.update_self _ _ _

/-- An editor in which a line has been typed. -/
def withLine (t : List UInt8) : EditorState := insertText (newState [47]) t

/-- The first word of `c x` is completed to `cat`; the tail is shorter than the move. -/
theorem replaced_cat : Replaced (withLine (lit "c x")) 0 1 (lit "cat")
    (replaceRangeRaw (withLine (lit "c x")) 0 1 (lit "cat")) :=
  (replaced_iff (by decide) (by decide) (by decide)).2 (by decide)

/-- The line `c xyz` becomes `cat x x`. -/
theorem replaceRangeRaw_loses_tail : ¬ ∀ s start stop replacement, s.lineLen < lineMax →
    start ≤ stop → stop ≤ s.lineLen →
    Replaced s start stop replacement (replaceRangeRaw s start stop replacement) := by
  intro h
  have hline := (h (withLine (lit "c xyz")) 0 1 (lit "cat") (by decide) (by decide) (by decide)).text
  exact absurd hline (by decide)

end Cleonos.Editor
