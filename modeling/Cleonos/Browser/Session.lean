import Cleonos.Browser.Url
import Cleonos.Vim.Model

/-!
# A session of the browser

The loop of `ush_browser_run_session` as a machine: it loads what is pending, and then takes
command lines until one of them asks for another load.
-/

namespace Cleonos.Browser

open Buffer (slice)
open Vim (ushTrimLine ushSplitFirstAndRest)

def formBodyMax : ℕ := 8192
def formValueMax : ℕ := 128
def formActionMax : ℕ := 192
def historyMax : ℕ := 16
def inputMax : ℕ := 256

/-! ## browser_form.c -/

/-- `ush_browser_form`, as far as a submission reads it. -/
structure Form where
  method : List UInt8
  action : List UInt8
  deriving DecidableEq, Repr

/-- `ush_browser_form_field`. -/
structure Field where
  formIndex : ℕ
  name : List UInt8
  value : List UInt8
  successful : Bool
  deriving DecidableEq, Repr

/-- What the renderer leaves of a page: the targets of its links, its forms and their fields. -/
structure Page where
  links : List (List UInt8)
  forms : List Form
  fields : List Field
  deriving DecidableEq, Repr

/-- `ush_browser_form_is_unreserved`. -/
def isUnreserved (ch : UInt8) : Bool :=
  (97 ≤ ch && ch ≤ 122) || (65 ≤ ch && ch ≤ 90) || (48 ≤ ch && ch ≤ 57) ||
    ch == 45 || ch == 95 || ch == 46 || ch == 126

/-- `ush_browser_form_hex`. -/
def formHex (value : UInt8) : UInt8 :=
  let value := value &&& 0x0F
  if value < 10 then 48 + value else 65 + (value - 10)

/-- What stands for a byte in a body. -/
def encode (ch : UInt8) : List UInt8 :=
  if isUnreserved ch then [ch]
  else if ch = 32 then [43]
  else [37, formHex (ch >>> 4), formHex ch]

/-- Bytes appended to a body, if there is room for them; the error is the body that stays. -/
def appendBody (cap : ℕ) (out bytes : List UInt8) : Except (List UInt8) (List UInt8) :=
  if out.length + bytes.length ≥ cap then .error out else .ok (out ++ bytes)

/-- `ush_browser_form_urlenc_append`. -/
def urlencAppend (cap : ℕ) (out text : List UInt8) : Except (List UInt8) (List UInt8) :=
  text.foldlM (fun out ch => appendBody cap out (encode ch)) out

/-- One field of a form, behind those that are in the body already. -/
def appendField (cap : ℕ) (out : List UInt8 × Bool) (field : Field) :
    Except (List UInt8) (List UInt8 × Bool) := do
  let body ← appendBody cap out.1 (if out.2 then [] else [38])
  let body ← urlencAppend cap body field.name
  let body ← appendBody cap body [61]
  let body ← urlencAppend cap body field.value
  return (body, false)

/-- `ush_browser_form_build_body`; the error is what is in the body when there is no room. -/
def buildBody (page : Page) (formIndex : ℕ) : Except (List UInt8) (List UInt8) :=
  ((page.fields.filter fun field =>
      field.formIndex = formIndex ∧ field.successful ∧ field.name ≠ []).foldlM
    (appendField formBodyMax) ([], true)).map Prod.fst

/-- `ush_browser_form_join_get_url`. -/
def joinGetUrl (baseUrl query : List UInt8) (size : ℕ) : Option (List UInt8) :=
  if baseUrl.length = 0 ∨ baseUrl.length + query.length + 2 > size then none
  else if query.length = 0 then some (cut size baseUrl)
  else some (cut size (baseUrl ++ [if baseUrl.contains 63 then 38 else 63] ++ query))

/-- `ush_browser_form_set_value`; `none` for 0. -/
def formSetValue (page : Page) (fieldNumber : ℕ) (value : List UInt8) : Option Page :=
  if fieldNumber = 0 then none
  else
    match page.fields[fieldNumber - 1]? with
    | none => none
    | some field =>
      if field.successful = false ∨ field.name = [] then none
      else
        some { page with
          fields := page.fields.set (fieldNumber - 1)
            { field with value := cut formValueMax value } }

/-- The URL that a form is sent to. -/
def formAction (baseSource : List UInt8) (form : Form) : Option (List UInt8) :=
  if form.action ≠ [] then resolveHref baseSource form.action formActionMax
  else some (cut formActionMax baseSource)

/-- Whether a form is sent with POST. -/
def isPost (form : Form) : Bool := form.method.headD 0 = 112 || form.method.headD 0 = 80

/-- What a submission leaves in `*out_body_len`, and the next URL, the body and whether it is
a POST, unless it failed. -/
structure Submission where
  bodyLen : ℕ
  result : Option (List UInt8 × List UInt8 × Bool)

/-- `ush_browser_form_submit`. -/
def formSubmit (page : Page) (baseSource : List UInt8) (formNumber bodyLen : ℕ) : Submission :=
  if formNumber = 0 then ⟨bodyLen, none⟩
  else
    match page.forms[formNumber - 1]? with
    | none => ⟨bodyLen, none⟩
    | some form =>
      match formAction baseSource form with
      | none => ⟨0, none⟩
      | some action =>
        match buildBody page (formNumber - 1) with
        | .error part => ⟨part.length, none⟩
        | .ok body =>
          if isPost form then ⟨body.length, some (cut sourceMax action, body, true)⟩
          else
            ⟨body.length,
              (joinGetUrl action body sourceMax).map fun url => (url, body, false)⟩

/-- Whether the loop is about to load, waits for a command, or has returned. -/
inductive Phase
  | loading
  | prompt
  | over
  deriving DecidableEq, Repr

/-- The variables of `ush_browser_run_session`. `pending_body` is a buffer, and what stands
behind its string is what was there before. -/
structure Session where
  phase : Phase
  currentSource : List UInt8
  history : List (List UInt8)
  pendingBody : ℕ → UInt8
  pendingBodyLen : ℕ
  pendingPost : Bool
  loadedOnce : Bool
  sourceMode : Bool
  page : Page

/-- A call of `ush_browser_load_request`. -/
structure Request where
  source : List UInt8
  post : Bool
  body : List UInt8
  deriving DecidableEq, Repr

/-- The request that is issued for what is pending. -/
def request (s : Session) : Request :=
  ⟨s.currentSource, s.pendingPost, slice s.pendingBody 0 s.pendingBodyLen⟩

/-- What a load answers: that it failed, or a page, and whether it could be rendered. -/
inductive LoadAnswer
  | failed
  | loaded (renders : Bool) (page : Page)
  deriving DecidableEq, Repr

/-- The pending request cleared. -/
def clearPending (s : Session) : Session :=
  { s with
    pendingPost := false, pendingBodyLen := 0
    pendingBody := Function.update s.pendingBody 0 0 }

/-- `ush_browser_push_history`; the last entry stands at the end. -/
def pushHistory (history : List (List UInt8)) (source : List UInt8) : List (List UInt8) :=
  if source = [] ∨ history.getLast? = some source then history
  else
    (if history.length ≥ historyMax then history.tail else history) ++ [cut sourceMax source]

/-- `ush_browser_pop_history`. -/
def popHistory (s : Session) : Option Session :=
  s.history.getLast?.map fun source =>
    { s with currentSource := cut sourceMax source, history := s.history.dropLast }

/-- Back to the page before, or the end of the session where there is none. -/
def returnToPrevious (s : Session) : Session :=
  if s.loadedOnce = false then { s with phase := .over }
  else
    match popHistory s with
    | none => { s with phase := .over }
    | some s => s

/-- One round of the outer loop, up to the first prompt. -/
def load (s : Session) : LoadAnswer → Session
  | .failed =>
    let s := returnToPrevious s
    if s.phase = .over then s else clearPending s
  | .loaded renders page =>
    let s := clearPending s
    if s.sourceMode then { s with loadedOnce := true, phase := .prompt }
    else
      let s := { s with page := page }
      if renders = false then returnToPrevious s
      else { s with loadedOnce := true, phase := .prompt }

/-- `ush_browser_parse_link_index`; the value is a word. -/
def parseLinkIndex (text : List UInt8) : Option ℕ :=
  if text = [] ∨ text.all isDigit = false then none
  else
    let value := text.foldl (fun value c => (value * 10 + (c.toNat - 48)) % 2 ^ 64) 0
    if value = 0 then none else some (value - 1)

/-- The number of the form that a line submits: 1 where none is given; `none` where it is no
number. -/
def submitNumber (payload : List UInt8) : Option ℕ :=
  let payload := payload.dropWhile (· = 32)
  if payload = [] then some 1
  else (ushSplitFirstAndRest payload inputMax).bind fun p => parseU64Dec p.1

/-- What stands behind a word at the start of a line, where the line is the word alone or a
blank follows. -/
def behindWord (word line : List UInt8) : Option (List UInt8) :=
  if word.isPrefixOf line ∧ (line.drop word.length = [] ∨ (line.drop word.length).headD 0 = 32) then
    some (line.drop word.length)
  else none

/-- What stands behind a prefix of a line. -/
def behindPrefix (word line : List UInt8) : Option (List UInt8) :=
  if word.isPrefixOf line then some (line.drop word.length) else none

/-- The commands that ask for the same page in another view. -/
def isView (line : List UInt8) : Bool :=
  line = lit "v" || line = lit "view" || line = lit "source" || line = lit "html" ||
    line = lit "render" || line = lit "page"

/-- The commands that change nothing that a session keeps. -/
def isInert (line : List UInt8) : Bool :=
  line = lit "h" || line = lit "help" || line = lit "forms" || line = lit "fields" ||
    line = lit "cookies" || line = lit "cookie" || line = lit "auth" ||
    line = lit "cookie clear" || line = lit "cookies clear" ||
    (lit "token ").isPrefixOf line || (lit "auth ").isPrefixOf line

/-- `v` and `render`. -/
def view (s : Session) (line : List UInt8) : Session :=
  if line = lit "render" ∨ line = lit "page" then { s with sourceMode := false, phase := .loading }
  else { s with sourceMode := !s.sourceMode, phase := .loading }

/-- `set`. -/
def setCommand (s : Session) (payload : List UInt8) : Session :=
  if s.sourceMode then s
  else
    match ushSplitFirstAndRest payload 32 with
    | none => s
    | some (fieldArg, value) =>
      match parseU64Dec fieldArg with
      | none => s
      | some fieldNumber =>
        match formSetValue s.page fieldNumber (value.dropWhile (· = 32)) with
        | none => s
        | some page => { s with page := page }

/-- `ush_copy` into `pending_body`: what is left of the buffer is filled with zeros. -/
def copyBody (body : List UInt8) (buffer : ℕ → UInt8) : ℕ → UInt8 := fun i =>
  if i < formBodyMax then (body.take (formBodyMax - 1)).getD i 0 else buffer i

/-- `submit`. -/
def submitCommand (s : Session) (payload : List UInt8) : Session :=
  match submitNumber payload with
  | none => s
  | some formNumber =>
    if s.sourceMode then s
    else
      let sub := formSubmit s.page s.currentSource formNumber s.pendingBodyLen
      let s := { s with pendingBodyLen := sub.bodyLen }
      match sub.result with
      | none => s
      | some (nextSource, body, post) =>
        let s :=
          if post then
            { s with pendingBody := copyBody body s.pendingBody, pendingPost := true }
          else clearPending s
        { s with
          history := pushHistory s.history s.currentSource, currentSource := nextSource
          sourceMode := false, phase := .loading }

/-- The target of a line that opens something; `none` where the line says so in vain. -/
def target (s : Session) (line : List UInt8) : Option (List UInt8) :=
  match (behindPrefix (lit "o ") line).or (behindPrefix (lit "open ") line) with
  | some payload => some (cut sourceMax (payload.dropWhile (· = 32)))
  | none =>
    match parseLinkIndex line with
    | none => some (cut sourceMax line)
    | some linkIndex =>
      if s.sourceMode then none
      else
        match s.page.links[linkIndex]? with
        | none => none
        | some href => resolveHref s.currentSource href sourceMax

/-- A target that is no URL and no path from the root, made one. -/
def absoluteTarget (cwd : List UInt8) (s : Session) (next : List UInt8) : List UInt8 :=
  if isHttpUrl next = false ∧ isHttpsUrl next = false ∧ next.headD 0 ≠ 47 then
    match resolveHref s.currentSource next sourceMax with
    | some resolved => cut sourceMax resolved
    | none =>
      match Path.ushResolvePath cwd next (fun _ => 0) sourceMax with
      | some resolved => cut sourceMax resolved
      | none => next
  else next

/-- A line that opens a link, a URL or a path. -/
def openCommand (cwd : List UInt8) (s : Session) (line : List UInt8) : Session :=
  match target s line with
  | none => s
  | some next =>
    if next = [] then s
    else
      let next := absoluteTarget cwd s next
      if next = s.currentSource then s
      else
        clearPending { s with
          history := pushHistory s.history s.currentSource, currentSource := cut sourceMax next
          sourceMode := false, phase := .loading }

/-- The line that submits a form, without its first word. -/
def submitPayload (line : List UInt8) : Option (List UInt8) :=
  (behindWord (lit "submit") line).or (behindWord (lit "post") line)

/-- One command line, trimmed. -/
def command (cwd : List UInt8) (s : Session) (line : List UInt8) : Session :=
  if line = [] then s
  else if line = lit "q" ∨ line = lit "quit" ∨ line = lit "exit" then { s with phase := .over }
  else if line = lit "r" ∨ line = lit "reload" then
    { clearPending s with phase := .loading }
  else if isView line then view s line
  else if line = lit "b" ∨ line = lit "back" then
    match popHistory s with
    | none => s
    | some s => { clearPending s with phase := .loading }
  else if isInert line then s
  else
    match (behindPrefix (lit "set ") line).or (behindPrefix (lit "edit ") line) with
    | some payload => setCommand s payload
    | none =>
      match submitPayload line with
      | some payload => submitCommand s payload
      | none => openCommand cwd s line

/-- What the session is given: the answer to a load, a line, or the end of the input. -/
inductive Event
  | loaded (answer : LoadAnswer)
  | line (text : List UInt8)
  | eof
  deriving DecidableEq, Repr

/-- One step of the session; `none` where it does not wait for this. -/
def step (cwd : List UInt8) (s : Session) : Event → Option Session
  | .loaded answer => if s.phase = .loading then some (load s answer) else none
  | .line text =>
    if s.phase = .prompt then some (command cwd s (ushTrimLine (cut inputMax text))) else none
  | .eof => if s.phase = .prompt then some { s with phase := .over } else none

/-- The session at its first load. What is in the buffer behind its first byte is left from
before. -/
def start (source : List UInt8) (sourceMode : Bool) (buffer : ℕ → UInt8) : Session where
  phase := .loading
  currentSource := source
  history := []
  pendingBody := Function.update buffer 0 0
  pendingBodyLen := 0
  pendingPost := false
  loadedOnce := false
  sourceMode := sourceMode
  page := ⟨[], [], []⟩

end Cleonos.Browser
