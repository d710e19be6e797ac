import Cleonos.Files.Model

/-!
# The note

`note_main.c` over its file, and the reader of typed lines of `user_cmd_common.h`.
-/

namespace Cleonos.Note

open List
open Libc (isspace)
open Vim (ushCopy ushSplitFirstAndRest)
open Words (word behind)

/-! ## The source -/

/-- `NOTE_LINE_MAX`. -/
def lineMax : ℕ := 512

/-- `USH_ARG_MAX`. -/
def argMax : ℕ := 160

/-- `ush_is_printable`. -/
def isPrintable (ch : UInt8) : Bool := (32 ≤ ch && ch ≤ 126) || 128 ≤ ch

/-- `ucmd_read_line_internal` into a buffer of `n` bytes, behind what is in it already: the line, if
there is one, and the keys behind it. -/
def readLine (n : ℕ) : List UInt8 → List UInt8 → Option (List UInt8) × List UInt8
  | [], line => (if line = [] then none else some line, [])
  | ch :: keys, line =>
    if ch = 13 ∨ ch = 10 then (some line, keys)
    else if ch = 8 ∨ ch = 127 then readLine n keys line.dropLast
    else if isPrintable ch = false then readLine n keys line
    else if n ≤ line.length + 1 then readLine n keys line
    else readLine n keys (line ++ [ch])

/-- A read of the file while it is shown, and the writes of what it delivers: how many bytes each of
them takes, and `none` where it fails. -/
structure ShowRound where
  read : Option ℕ
  writes : List (Option ℕ)
deriving DecidableEq, Repr

/-- What a read delivers of the bytes that are left: at least one, unless there are none. -/
def readPiece (k : ℕ) (left : List UInt8) : List UInt8 := left.take (min (max 1 k) lineMax)

/-- The loop that writes `got` bytes of the buffer: whether it succeeds, and what is written. -/
def writeLoop : List (Option ℕ) → List UInt8 → Bool × List UInt8
  | _, [] => (true, [])
  | some (k + 1) :: writes, buf =>
    let r := writeLoop writes (buf.drop (k + 1))
    (r.1, buf.take (k + 1) ++ r.2)
  | _, _ => (false, [])

/-- The buffer behind `buf[got < sizeof(buf) ? got : sizeof(buf) - 1] = '\0'`, as far as it is
written. -/
def terminated (got : List UInt8) : List UInt8 :=
  if got.length < lineMax then got else got.set (lineMax - 1) 0

/-- The loop of `note_show_file`, for the bytes that are left of the file. -/
def showLoop : List ShowRound → List UInt8 → Bool × List UInt8
  | [], _ => (false, [])
  | round :: rounds, left =>
    match round.read with
    | none => (false, [])
    | some k =>
      let got := readPiece k left
      if got = [] then (true, [])
      else
        let w := writeLoop round.writes (terminated got)
        if w.1 = false then w
        else
          let r := showLoop rounds (left.drop got.length)
          (r.1, w.2 ++ r.2)

/-- `note_show_file`: whether it succeeds, and what it prints of the note. -/
def noteShowFile (rounds : List ShowRound) (file : Option (List UInt8)) : Bool × List UInt8 :=
  match file with
  | none => (true, [])
  | some text => showLoop rounds text

/-- What a command leaves: whether it succeeds, the file, and how many calls of the file system it
has made. -/
structure Done where
  ok : Bool
  file : Option (List UInt8)
  calls : ℕ

variable (answers : ℕ → Bool)

/-- `note_write_text`; `answers` tells which calls of the file system succeed. -/
def noteWriteText (calls : ℕ) (file : Option (List UInt8)) (text : List UInt8) (append : Bool) :
    Done :=
  if append then
    if answers calls = false then ⟨false, file, calls + 1⟩
    else
      let file := file.getD [] ++ text
      if text.getLast? ≠ some 10 then
        if answers (calls + 1) = false then ⟨false, some file, calls + 2⟩
        else ⟨true, some (file ++ [10]), calls + 2⟩
      else ⟨true, some file, calls + 1⟩
  else if answers calls then ⟨true, some text, calls + 1⟩
  else ⟨false, file, calls + 1⟩

/-- The loop of `note_edit_interactive`; every round but the last takes a key. -/
def editLoop : ℕ → List UInt8 → ℕ → Option (List UInt8) → Done
  | 0, _, calls, file => ⟨false, file, calls⟩
  | fuel + 1, keys, calls, file =>
    match readLine lineMax keys [] with
    | (none, _) => ⟨true, file, calls⟩
    | (some line, keys) =>
      if line = [] ∨ line = [46] then ⟨true, file, calls⟩
      else
        let r := noteWriteText answers calls file line true
        if r.ok = false then r else editLoop fuel keys r.calls r.file

def noteEditInteractive (keys : List UInt8) (file : Option (List UInt8)) : Done :=
  if answers 0 = false then ⟨false, file, 1⟩ else editLoop answers (keys.length + 1) keys 1 (some [])

/-- What the program is started with: the argument, which fits its buffer in the context, the text
of the pipe, which may be empty, what is typed, and which calls of the file system succeed. -/
structure Call where
  arg : List UInt8
  pipe : List UInt8
  keys : List UInt8
  answers : ℕ → Bool
  arg_lt : arg.length < argMax

/-- `note_handle_action` for the actions that change the file, and those that leave it. -/
def noteHandleAction (c : Call) (cmd rest : List UInt8) (file : Option (List UInt8)) : Done :=
  if cmd = [] ∨ cmd = lit "show" ∨ cmd = lit "view" then ⟨true, file, 0⟩
  else if cmd = lit "path" then ⟨true, file, 0⟩
  else if cmd = lit "clear" then
    if c.answers 0 then ⟨true, some [], 1⟩ else ⟨false, file, 1⟩
  else if cmd = lit "edit" then noteEditInteractive c.answers c.keys file
  else if cmd = lit "add" ∨ cmd = lit "set" then
    let append := cmd == lit "add"
    if rest ≠ [] then noteWriteText c.answers 0 file rest append
    else if cstr c.pipe ≠ [] then noteWriteText c.answers 0 file (cstr c.pipe) append
    else
      match (readLine lineMax c.keys []).1 with
      | none => ⟨false, file, 0⟩
      | some tmp => noteWriteText c.answers 0 file tmp append
  else ⟨false, file, 0⟩

/-- `cleonos_app_main`. -/
def noteMain (c : Call) (file : Option (List UInt8)) : Done :=
  let arg := ushCopy argMax c.arg
  match ushSplitFirstAndRest arg 32 with
  | none => noteHandleAction c [] [] file
  | some (cmd, payload) => noteHandleAction c cmd (ushCopy argMax payload) file

/-- A change of the note. -/
inductive Command
  | add (text : List UInt8)
  | set (text : List UInt8)
  | edit (lines : List (List UInt8))
  | clear
deriving DecidableEq, Repr

/-- A text that is added ends its line. -/
def ended (text : List UInt8) : List UInt8 := if text.getLast? = some 10 then text else text ++ [10]

/-- The note behind a change. -/
def Command.apply : Command → List UInt8 → List UInt8
  | add text, note => note ++ ended text
  | set text, _ => text
  | edit lines, _ => lines.flatMap (· ++ [10])
  | clear, _ => []

/-- The lines that are entered, up to an empty one, a single full stop, or the end. -/
def enteredLines : ℕ → List UInt8 → List (List UInt8)
  | 0, _ => []
  | fuel + 1, keys =>
    match readLine lineMax keys [] with
    | (none, _) => []
    | (some line, keys) => if line = [] ∨ line = [46] then [] else line :: enteredLines fuel keys

/-- The text of `add` and `set`: what is behind the command, what comes through the pipe, or a line
that is typed. -/
def Call.text (c : Call) : Option (List UInt8) :=
  if behind isspace (cstr c.arg) ≠ [] then some (behind isspace (cstr c.arg))
  else if cstr c.pipe ≠ [] then some (cstr c.pipe)
  else (readLine lineMax c.keys []).1

/-- What a call asks for, if it asks for a change. -/
def Call.command (c : Call) : Option Command :=
  let name := word isspace (cstr c.arg)
  if name = lit "add" then c.text.map .add
  else if name = lit "set" then c.text.map .set
  else if name = lit "edit" then some (.edit (enteredLines (c.keys.length + 1) c.keys))
  else if name = lit "clear" then some .clear
  else none

/-- Calls that succeed, one after the other, with what they ask for and the file they leave. -/
inductive Runs (start : Option (List UInt8)) : List Call → List Command → Option (List UInt8) → Prop
  | nil : Runs start [] [] start
  | snoc {calls : List Call} {commands : List Command} {file : Option (List UInt8)} {c : Call}
      {command : Command} (h : Runs start calls commands file) (hc : c.command = some command)
      (hok : (noteMain c file).ok = true) :
      Runs start (calls ++ [c]) (commands ++ [command]) (noteMain c file).file

/-- The bytes of a file, as its reads deliver them while it is shown. -/
def pieces : List ShowRound → List UInt8 → List (List UInt8)
  | [], _ => []
  | round :: rounds, left =>
    match round.read with
    | none => []
    | some k =>
      let got := readPiece k left
      if got = [] then [] else got :: pieces rounds (left.drop got.length)

variable {answers} {c : Call} {file start : Option (List UInt8)} {calls : ℕ} {keys line : List UInt8}

theorem readLine_printable (n : ℕ) (keys line : List UInt8)
    (hline : ∀ ch ∈ line, isPrintable ch = true) (out : List UInt8)
    (h : (readLine n keys line).1 = some out) : ∀ ch ∈ out, isPrintable ch = true := by
  induction keys generalizing line with
  | nil =>
    rw [readLine] at h
    dsimp only at h
    split at h
    · cases h
    · cases h
      exact hline
  | cons key keys ih =>
    rw [readLine] at h
    split at h
    · cases h
      exact hline
    · split at h
      · exact ih line.dropLast (fun ch hch => hline ch (mem_of_mem_dropLast hch)) h
      · split at h
        · exact ih line hline h
        · split at h
          · exact ih line hline h
          · next hprint _ =>
              refine ih (line ++ [key]) ?_ h
              intro ch hch
              rcases mem_append.1 hch with hch | hch
              · exact hline ch hch
              · rw [mem_singleton.1 hch]
                simpa using hprint

theorem noteWriteText_add {text : List UInt8}
    (hok : (noteWriteText answers calls file text true).ok = true) :
    (noteWriteText answers calls file text true).file = some (file.getD [] ++ ended text) := by
  rw [noteWriteText, if_pos rfl] at hok ⊢
  split at hok
  · cases hok
  · next hfirst =>
      rw [if_neg hfirst]
      dsimp only at hok ⊢
      by_cases hlast : text.getLast? = some 10
      · rw [if_neg (not_not.2 hlast), ended, if_pos hlast]
      · rw [if_pos hlast] at hok ⊢
        split at hok
        · cases hok
        · next hsecond => rw [if_neg hsecond, ended, if_neg hlast, append_assoc]

theorem noteWriteText_set {text : List UInt8}
    (hok : (noteWriteText answers calls file text false).ok = true) :
    (noteWriteText answers calls file text false).file = some text := by
  rw [noteWriteText, if_neg Bool.false_ne_true] at hok ⊢
  split at hok
  · next hwrite => rw [if_pos hwrite]
  · cases hok

theorem editLoop_eq (fuel : ℕ) (keys : List UInt8) (calls : ℕ) (note : List UInt8)
    (hok : (editLoop answers fuel keys calls (some note)).ok = true) :
    (editLoop answers fuel keys calls (some note)).file =
      some (note ++ (enteredLines fuel keys).flatMap (· ++ [10])) := by
  induction fuel generalizing keys calls note with
  | zero => cases hok
  | succ fuel ih =>
    rw [editLoop] at hok ⊢
    rw [enteredLines]
    have hprint := readLine_printable lineMax keys [] (by simp)
    generalize readLine lineMax keys [] = r at hok hprint ⊢
    obtain ⟨line, rest⟩ := r
    cases line with
    | none => rw [flatMap_nil, append_nil]
    | some line =>
      dsimp only at hok ⊢
      by_cases hstop : line = [] ∨ line = [46]
      · rw [if_pos hstop, if_pos hstop, flatMap_nil, append_nil]
      · rw [if_neg hstop] at hok ⊢
        rw [if_neg hstop]
        split at hok
        · next hfalse =>
            rw [hfalse] at hok
            cases hok
        · next htrue =>
            have hwritten := noteWriteText_add (by simpa using htrue)
            have hended : ended line = line ++ [10] := by
              rw [ended, if_neg]
              intro hlast
              have hbad := hprint line rfl 10 (mem_of_getLast? hlast)
              cases hbad
            rw [hended] at hwritten
            rw [if_neg htrue]
            rw [hwritten] at hok ⊢
            rw [ih rest _ _ hok, flatMap_cons, Option.getD_some, append_assoc]

theorem noteMain_word (c : Call) (file : Option (List UInt8)) {name : List UInt8}
    (hname : word isspace (cstr c.arg) = name) (hne : name ≠ []) (hlen : name.length < 32) :
    noteMain c file = noteHandleAction c name (behind isspace (cstr c.arg)) file := by
  have hshort : (cstr c.arg).length ≤ argMax - 1 := by
    have hle : (cstr c.arg).length ≤ c.arg.length := (List.takeWhile_prefix _).length_le
    have hlt := c.arg_lt
    omega
  have harg : ushCopy argMax c.arg = cstr c.arg := take_of_length_le hshort
  have hnul : (0 : UInt8) ∉ behind isspace (cstr c.arg) := fun hmem =>
    notMem_cstr _ (Words.behind_subset hmem)
  have hrest : ushCopy argMax (behind isspace (cstr c.arg)) = behind isspace (cstr c.arg) := by
    rw [ushCopy, cstr_of_notMem hnul]
    exact take_of_length_le ((Words.length_behind_le _ _).trans hshort)
  rw [noteMain, harg, Files.ushSplitFirstAndRest_any, cstr_cstr, hname, if_neg (by simp [hne])]
  dsimp only
  rw [hrest, take_of_length_le (by omega)]

theorem noteHandleAction_text {name : List UInt8} (hname : name = lit "add" ∨ name = lit "set")
    (hok : (noteHandleAction c name (behind isspace (cstr c.arg)) file).ok = true) :
    ∃ text, c.text = some text ∧ noteHandleAction c name (behind isspace (cstr c.arg)) file =
      noteWriteText c.answers 0 file text (name == lit "add") := by
  have hother : ¬ (name = [] ∨ name = lit "show" ∨ name = lit "view") ∧ name ≠ lit "path" ∧
      name ≠ lit "clear" ∧ name ≠ lit "edit" := by
    rcases hname with rfl | rfl
    · decide
    · decide
  rw [noteHandleAction, if_neg hother.1, if_neg hother.2.1, if_neg hother.2.2.1,
    if_neg hother.2.2.2, if_pos hname] at hok ⊢
  rw [Call.text]
  by_cases hrest : behind isspace (cstr c.arg) = []
  · rw [if_neg (not_not.2 hrest)] at hok ⊢
    rw [if_neg (not_not.2 hrest)]
    by_cases hpipe : cstr c.pipe = []
    · rw [if_neg (not_not.2 hpipe)] at hok ⊢
      rw [if_neg (not_not.2 hpipe)]
      cases hline : (readLine lineMax c.keys []).1 with
      | none =>
        rw [hline] at hok
        cases hok
      | some tmp => exact ⟨tmp, rfl, rfl⟩
    · rw [if_pos hpipe, if_pos hpipe]
      exact ⟨_, rfl, rfl⟩
  · rw [if_pos hrest, if_pos hrest]
    exact ⟨_, rfl, rfl⟩

theorem noteMain_eq {command : Command} (hc : c.command = some command)
    (hok : (noteMain c file).ok = true) :
    (noteMain c file).file = some (command.apply (file.getD [])) := by
  rw [Call.command] at hc
  split at hc
  case isTrue hname =>
    rw [noteMain_word c file hname (by decide) (by decide)] at hok ⊢
    obtain ⟨text, htext, hdone⟩ := noteHandleAction_text (.inl rfl) hok
    rw [htext] at hc
    cases hc
    rw [hdone] at hok ⊢
    exact noteWriteText_add hok
  case isFalse =>
    split at hc
    case isTrue hname =>
      rw [noteMain_word c file hname (by decide) (by decide)] at hok ⊢
      obtain ⟨text, htext, hdone⟩ := noteHandleAction_text (.inr rfl) hok
      rw [htext] at hc
      cases hc
      rw [hdone] at hok ⊢
      exact noteWriteText_set hok
    case isFalse =>
      split at hc
      case isTrue hname =>
        cases hc
        rw [noteMain_word c file hname (by decide) (by decide)] at hok ⊢
        have hedit (rest : List UInt8) :
            noteHandleAction c (lit "edit") rest file = noteEditInteractive c.answers c.keys file :=
          rfl
        rw [hedit, noteEditInteractive] at hok ⊢
        split at hok
        · cases hok
        · next hwrite =>
            rw [if_neg hwrite]
            exact editLoop_eq _ _ _ _ hok
      case isFalse =>
        split at hc
        case isTrue hname =>
          cases hc
          rw [noteMain_word c file hname (by decide) (by decide)] at hok ⊢
          have hclear (rest : List UInt8) : noteHandleAction c (lit "clear") rest file =
              if c.answers 0 then ⟨true, some [], 1⟩ else ⟨false, file, 1⟩ := rfl
          rw [hclear] at hok ⊢
          split at hok
          · next hwrite =>
              rw [if_pos hwrite]
              rfl
          · cases hok
        case isFalse => cases hc

theorem Runs.note {cs : List Call} {commands : List Command} (h : Runs start cs commands file) :
    file.getD [] = commands.foldl (fun note command => command.apply note) (start.getD []) := by
  induction h with
  | nil => rfl
  | snoc h hc hok ih =>
    rw [noteMain_eq hc hok, ih, foldl_append]
    rfl

theorem writeLoop_eq (writes : List (Option ℕ)) (buf : List UInt8)
    (hok : (writeLoop writes buf).1 = true) : (writeLoop writes buf).2 = buf := by
  induction writes generalizing buf with
  | nil =>
    cases buf with
    | nil => rfl
    | cons ch buf => cases hok
  | cons w writes ih =>
    cases buf with
    | nil =>
      rw [writeLoop]
    | cons ch buf =>
      match w with
      | some (k + 1) =>
        simp only [writeLoop] at hok ⊢
        rw [ih _ hok, take_append_drop]
      | some 0 => cases hok
      | none => cases hok

theorem terminated_eq_iff {got : List UInt8} (hlen : got.length ≤ lineMax) :
    terminated got = got ↔ (got.length = lineMax → got.getLast? = some 0) := by
  rw [terminated]
  by_cases hlt : got.length < lineMax
  · rw [if_pos hlt]
    exact iff_of_true rfl fun heq => absurd heq (Nat.ne_of_lt hlt)
  · have hfull : got.length = lineMax := by omega
    rw [if_neg hlt, List.getLast?_eq_getElem?, hfull]
    have hin : lineMax - 1 < got.length := by rw [hfull]; decide
    constructor
    · intro heq _
      conv_lhs => rw [← heq]
      exact List.getElem?_set_self hin
    · intro h
      have hzero := h rfl
      rw [List.getElem?_eq_getElem hin] at hzero
      conv_rhs => rw [← set_getElem_self hin, Option.some.inj hzero]

theorem showLoop_eq_iff (rounds : List ShowRound) (left : List UInt8)
    (hok : (showLoop rounds left).1 = true) : (showLoop rounds left).2 = left ↔
      ∀ piece ∈ pieces rounds left, piece.length = lineMax → piece.getLast? = some 0 := by
  induction rounds generalizing left with
  | nil => cases hok
  | cons round rounds ih =>
    rw [showLoop] at hok ⊢
    rw [pieces]
    cases hread : round.read with
    | none =>
      rw [hread] at hok
      cases hok
    | some k =>
      rw [hread] at hok
      dsimp only at hok ⊢
      by_cases hgot : readPiece k left = []
      · rw [if_pos hgot, if_pos hgot]
        have hleft : left = [] := by
          rw [readPiece, take_eq_nil_iff] at hgot
          refine hgot.resolve_left ?_
          rw [lineMax]
          omega
        simp [hleft]
      · have hlen : (readPiece k left).length ≤ lineMax :=
          (length_take_le _ _).trans (Nat.min_le_right _ _)
        have hleft : readPiece k left ++ left.drop (readPiece k left).length = left :=
          prefix_iff_eq_append.1 (List.take_prefix _ left)
        rw [if_neg hgot] at hok ⊢
        rw [if_neg hgot]
        split at hok
        · next hfalse =>
            rw [hfalse] at hok
            cases hok
        · next htrue =>
            have hwritten := writeLoop_eq _ _ (by simpa using htrue)
            rw [if_neg htrue, hwritten, forall_mem_cons, ← ih _ hok,
              ← terminated_eq_iff hlen]
            conv_lhs => rhs; rw [← hleft]
            have hsame : (terminated (readPiece k left)).length = (readPiece k left).length := by
              rw [terminated]
              split
              · rfl
              · rw [length_set]
            constructor
            · intro heq
              exact append_inj heq hsame
            · intro h
              exact congrArg₂ (· ++ ·) h.1 h.2

/-- `note clear`. -/
def clearCall : Call := ⟨lit "clear", [], [], fun _ => true, by decide⟩

/-- `note set`, with 512 letters from a pipe. -/
def pipeCall : Call := ⟨lit "set", List.replicate 512 97, [], fun _ => true, by decide⟩

end Cleonos.Note
