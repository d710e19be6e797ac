import Cleonos.Browser.Chunked
import Cleonos.Libc.Stdio

/-!
# The download

`wget_main.c` from the first byte of the response on: the header buffer, the header lines, the
chunks, and the receive loop.
-/

namespace Cleonos.Wget

open Stdio (Device)

/-! ## Header lines -/

/-- `ush_wget_ascii_lower`. -/
def asciiLower (ch : UInt8) : UInt8 := if ch ≥ 65 ∧ ch ≤ 90 then ch - 65 + 97 else ch

/-- `ush_wget_header_name_match_icase`. -/
def headerNameMatch : List UInt8 → List UInt8 → Bool
  | line, [] => line.headD 0 = 58
  | [], _ :: _ => false
  | c :: line, n :: name => asciiLower c = asciiLower n && headerNameMatch line name

/-- The token at the start of a value, in any case. -/
def tokenAt : List UInt8 → List UInt8 → Bool
  | _, [] => true
  | [], _ :: _ => false
  | c :: value, t :: token => asciiLower c = asciiLower t && tokenAt value token

/-- A character that may stand in front of a token. -/
def beforeToken (c : UInt8) : Bool := c = 44 || c = 32 || c = 9

/-- A character that may stand behind a token. -/
def afterToken (c : UInt8) : Bool := c = 44 || c = 32 || c = 9 || c = 59

/-- The loop of `ush_wget_line_has_token_icase`, on the rest of the value; the flag tells whether a
token may begin here. -/
def hasTokenLoop (token : List UInt8) : List UInt8 → Bool → Bool
  | [], _ => false
  | c :: value, mayBegin =>
    (mayBegin && tokenAt (c :: value) token &&
      (((c :: value).drop token.length = []) ||
        afterToken (((c :: value).drop token.length).headD 0))) ||
    hasTokenLoop token value (beforeToken c)

/-- `ush_wget_line_has_token_icase`. -/
def lineHasToken (value token : List UInt8) : Bool := token ≠ [] && hasTokenLoop token value true

def isBlank (c : UInt8) : Bool := c = 32 || c = 9

def isDigit (c : UInt8) : Bool := 48 ≤ c && c ≤ 57

/-- The loop over the digits in `ush_wget_parse_content_length`, in 64 bits; the test for an
overflow is whether the number has become smaller. -/
def contentLengthLoop : List UInt8 → ℕ → Bool → Option (ℕ × Bool)
  | [], acc, hasDigit => some (acc, hasDigit)
  | c :: value, acc, hasDigit =>
    if isDigit c then
      let next := (acc * 10 + (c.toNat - 48)) % 2 ^ 64
      if next < acc then none else contentLengthLoop value next true
    else some (acc, hasDigit)

/-- `ush_wget_parse_content_length`. -/
def parseContentLength (value : List UInt8) : Option ℕ :=
  match contentLengthLoop (value.dropWhile isBlank) 0 false with
  | some (acc, true) => some acc
  | _ => none

/-- `"Transfer-Encoding"`. -/
def transferEncoding : List UInt8 :=
  [84, 114, 97, 110, 115, 102, 101, 114, 45, 69, 110, 99, 111, 100, 105, 110, 103]

/-- `"Content-Length"`. -/
def contentLengthName : List UInt8 :=
  [67, 111, 110, 116, 101, 110, 116, 45, 76, 101, 110, 103, 116, 104]

/-- `"chunked"`. -/
def chunkedToken : List UInt8 := [99, 104, 117, 110, 107, 101, 100]

/-- How the body is framed: whether in chunks, and the announced length. -/
structure Framing where
  isChunked : Bool
  contentLength : Option ℕ
  deriving DecidableEq, Repr

/-- One header line; how a length is read is an argument. -/
def headerLine (parseLength : List UInt8 → Option ℕ) (f : Framing) (line : List UInt8) : Framing :=
  if headerNameMatch line transferEncoding then
    let value := (line.drop (transferEncoding.length + 1)).dropWhile isBlank
    if lineHasToken value chunkedToken then { f with isChunked := true } else f
  else if headerNameMatch line contentLengthName then
    match parseLength (line.drop (contentLengthName.length + 1)) with
    | some n => { f with contentLength := some n }
    | none => f
  else f

def inLine (c : UInt8) : Bool := c ≠ 13 && c ≠ 10

/-- What is behind the end of a line. -/
def afterLine (rest : List UInt8) : List UInt8 :=
  let rest := if rest.headD 0 = 13 then rest.drop 1 else rest
  if rest.headD 0 = 10 then rest.drop 1 else rest

/-- The lines up to the first empty one; the budget is the number of bytes. -/
def headerLines : ℕ → List UInt8 → List (List UInt8)
  | 0, _ => []
  | fuel + 1, header =>
    let line := header.takeWhile inLine
    if line = [] then []
    else line :: headerLines fuel (afterLine (header.dropWhile inLine))

/-- The loop of `ush_wget_parse_http_headers`. -/
def framing (parseLength : List UInt8 → Option ℕ) (header : List UInt8) : Framing :=
  (headerLines header.length header).foldl (headerLine parseLength) ⟨false, none⟩

/-- `ush_wget_parse_http_headers`. -/
def parseHttpHeaders (header : List UInt8) : Framing := framing parseContentLength header

/-- The end of the first place where the pattern stands. -/
def patternEnd (pattern : List UInt8) : List UInt8 → Option ℕ
  | [] => none
  | c :: rest =>
    if (c :: rest).take pattern.length = pattern then some pattern.length
    else (patternEnd pattern rest).map (· + 1)

/-- The first loop of `ush_wget_find_header_end`. -/
def crlfcrlfEnd (data : List UInt8) : Option ℕ := patternEnd [13, 10, 13, 10] data

/-- The second loop of `ush_wget_find_header_end`. -/
def lflfEnd (data : List UInt8) : Option ℕ := patternEnd [10, 10] data

/-- `ush_wget_find_header_end`. -/
def findHeaderEnd (data : List UInt8) : Option ℕ :=
  match crlfcrlfEnd data with
  | some i => some i
  | none => lflfEnd data

/-- `ush_wget_status_code`. -/
def statusCode (header : List UInt8) : ℕ :=
  if header.length < 12 ∨ header.take 4 ≠ [72, 84, 84, 80] then 0
  else
    match (header.dropWhile (· ≠ 32)).dropWhile (· = 32) with
    | a :: b :: c :: _ =>
      if isDigit a ∧ isDigit b ∧ isDigit c then
        (a.toNat - 48) * 100 + (b.toNat - 48) * 10 + (c.toNat - 48)
      else 0
    | _ => 0

/-- The values of `ush_wget_chunk_state.state`. -/
inductive ChunkPhase
  | size
  | sizeLf
  | data
  | dataLf
  | trailer
  | trailerLf
  deriving DecidableEq, Repr

/-- `ush_wget_chunk_state`. -/
structure ChunkState where
  remaining : ℕ
  sizeAcc : ℕ
  trailerLineLen : ℕ
  state : ChunkPhase
  hasDigit : Bool
  inExtension : Bool
  done : Bool
  deriving DecidableEq, Repr

def ChunkState.zero : ChunkState := ⟨0, 0, 0, .size, false, false, false⟩

/-- So many bytes of data have been read. -/
def ChunkState.advance (s : ChunkState) (n : ℕ) : ChunkState :=
  { s with remaining := s.remaining - n, state := if s.remaining - n = 0 then .dataLf else .data }

/-- `ush_wget_chunk_finish_size_line`. -/
def finishSizeLine (s : ChunkState) : Option ChunkState :=
  if s.hasDigit = false then none
  else
    let s := { s with remaining := s.sizeAcc, sizeAcc := 0, hasDigit := false, inExtension := false }
    if s.remaining = 0 then some { s with trailerLineLen := 0, state := .trailer }
    else some { s with state := .data }

/-- The largest number that another hexadecimal digit may follow. -/
def sizeMax : ℕ := (2 ^ 64 - 1) / 2 ^ 4

/-- One byte outside of the data of a chunk, in `ush_wget_chunked_write_feed`. -/
def framingByte (s : ChunkState) (ch : UInt8) : Option ChunkState :=
  match s.state with
  | .data => none
  | .size =>
    if ch = 13 then some { s with state := .sizeLf }
    else if ch = 10 then finishSizeLine s
    else if ch = 59 then if s.hasDigit = false then none else some { s with inExtension := true }
    else if s.inExtension ∨ ch = 32 ∨ ch = 9 then some s
    else
      match Browser.hexValue ch with
      | none => none
      | some v =>
        if s.sizeAcc > sizeMax then none
        else some { s with sizeAcc := (s.sizeAcc * 2 ^ 4 + v) % 2 ^ 64, hasDigit := true }
  | .sizeLf => if ch ≠ 10 then none else finishSizeLine s
  | .dataLf =>
    if ch = 13 then some s else if ch ≠ 10 then none else some { s with state := .size }
  | .trailer =>
    if ch = 13 then some { s with state := .trailerLf }
    else if ch = 10 then
      if s.trailerLineLen = 0 then some { s with done := true }
      else some { s with trailerLineLen := 0 }
    else some { s with trailerLineLen := s.trailerLineLen + 1 }
  | .trailerLf =>
    if ch ≠ 10 then none
    else if s.trailerLineLen = 0 then some { s with done := true }
    else some { s with trailerLineLen := 0, state := .trailer }

/-- `ush_wget_write_all`, the same loop as the one of the C library. -/
def writeAll (out : Device) (bytes : List UInt8) : Device × Bool := Stdio.writeAll out bytes

/-- The number of saved bytes is a word. -/
def addSaved (saved n : ℕ) : ℕ := (saved + n) % 2 ^ 64

/-- What `ush_wget_chunked_write_feed` changes. -/
structure Feed where
  chunk : ChunkState
  out : Device
  saved : ℕ

/-- The loop of `ush_wget_chunked_write_feed`; a round takes bytes, or goes from data to the end of
the line behind them. -/
def feedLoop : ℕ → Feed → List UInt8 → Bool × Feed
  | 0, f, _ => (true, f)
  | _ + 1, f, [] => (true, f)
  | fuel + 1, f, ch :: data =>
    if f.chunk.done then (true, f)
    else if f.chunk.state = .data then
      let n := min f.chunk.remaining (ch :: data).length
      if n = 0 then
        feedLoop fuel { f with chunk := { f.chunk with state := .dataLf } } (ch :: data)
      else
        let wrote := writeAll f.out ((ch :: data).take n)
        if wrote.2 = false then (false, { f with out := wrote.1 })
        else
          feedLoop fuel ⟨f.chunk.advance n, wrote.1, addSaved f.saved n⟩ ((ch :: data).drop n)
    else
      match framingByte f.chunk ch with
      | none => (false, f)
      | some chunk => feedLoop fuel { f with chunk := chunk } data

/-- `ush_wget_chunked_write_feed`. -/
def chunkedWriteFeed (f : Feed) (data : List UInt8) : Bool × Feed :=
  feedLoop (2 * data.length + 1) f data

/-- What a read returns: bytes; nothing, in time or after the deadline; the end of a TLS connection
that the peer has closed; the failure of a TLS read. -/
inductive Recv
  | data (bytes : List UInt8)
  | quiet (expired : Bool)
  | eof
  | fail
  deriving DecidableEq, Repr

/-- The variables of the receive loop. -/
structure Transfer where
  out : Device
  header : List UInt8
  headerDone : Bool
  saved : ℕ
  framing : Framing
  chunk : ChunkState

def Transfer.start (out : Device) : Transfer :=
  ⟨out, [], false, 0, ⟨false, none⟩, ChunkState.zero⟩

/-- The loop goes on, or it has ended with this return value. -/
inductive Flow
  | go (t : Transfer)
  | stop (ok : Bool) (t : Transfer)

/-- `USH_WGET_HEADER_MAX`. -/
def headerMax : ℕ := 4096

/-- `USH_WGET_RECV_CHUNK`. -/
def recvChunk : ℕ := 2048

/-- The `break`: the code behind the loop. -/
def finish (t : Transfer) : Flow := .stop t.headerDone t

/-- A part of the body is written, and the loop goes on unless the write fails. -/
def saveBytes (t : Transfer) (bytes : List UInt8) : Flow :=
  let wrote := writeAll t.out bytes
  if wrote.2 = false then .stop false { t with out := wrote.1 }
  else .go { t with out := wrote.1, saved := addSaved t.saved bytes.length }

def saveChunked (t : Transfer) (bytes : List UInt8) : Flow :=
  let r := chunkedWriteFeed ⟨t.chunk, t.out, t.saved⟩ bytes
  let t := { t with chunk := r.2.chunk, out := r.2.out, saved := r.2.saved }
  if r.1 = false then .stop false t else if r.2.chunk.done then finish t else .go t

/-- The bytes of the body that came with the end of the header. -/
def firstBody (t : Transfer) (bytes : List UInt8) : Flow :=
  if bytes = [] then .go t
  else if t.framing.isChunked then saveChunked t bytes
  else
    match t.framing.contentLength with
    | some n =>
      let part := if bytes.length > n then bytes.take n else bytes
      if part.length > 0 ∧ (writeAll t.out part).2 = false then
        .stop false { t with out := (writeAll t.out part).1 }
      else
        let t := { t with out := (writeAll t.out part).1, saved := addSaved t.saved part.length }
        if t.saved ≥ n then finish t else .go t
    | none => saveBytes t bytes

/-- Bytes of the body that come later. -/
def laterBody (t : Transfer) (bytes : List UInt8) : Flow :=
  if t.framing.isChunked then saveChunked t bytes
  else
    match t.framing.contentLength with
    | some n =>
      let got := if bytes.length > n - t.saved then n - t.saved else bytes.length
      if got = 0 ∨ addSaved t.saved got ≥ n then
        let part := bytes.take got
        if part.length > 0 ∧ (writeAll t.out part).2 = false then
          .stop false { t with out := (writeAll t.out part).1 }
        else
          finish { t with
            out := (writeAll t.out part).1, saved := addSaved t.saved part.length }
      else saveBytes t (bytes.take got)
    | none => saveBytes t bytes

/-- Bytes while the header is not complete. -/
def onHeader (t : Transfer) (bytes : List UInt8) : Flow :=
  if t.header.length + bytes.length > headerMax then .stop false t
  else
    let t := { t with header := t.header ++ bytes }
    match findHeaderEnd t.header with
    | none => .go t
    | some bodyOffset =>
      let t := { t with headerDone := true }
      if statusCode t.header ≥ 400 then .stop false t
      else
        firstBody { t with framing := parseHttpHeaders (t.header.take bodyOffset) }
          (t.header.drop bodyOffset)

def onQuiet (t : Transfer) (expired : Bool) : Flow :=
  if t.headerDone ∧ t.framing.isChunked = false ∧
      t.framing.contentLength.any (fun n => t.saved ≥ n) then finish t
  else if t.headerDone ∧ t.framing.isChunked ∧ t.chunk.done then finish t
  else if expired then
    if t.headerDone ∧ t.saved > 0 ∧ t.framing.contentLength = none ∧
        t.framing.isChunked = false then finish t
    else .stop false t
  else .go t

/-- One round of the receive loop. -/
def onRecv (t : Transfer) : Recv → Flow
  | .data bytes => if t.headerDone then laterBody t bytes else onHeader t bytes
  | .quiet expired => onQuiet t expired
  | .eof => finish t
  | .fail => .stop false t

/-- The receive loop on what the reads return. -/
def receive (t : Transfer) : List Recv → Flow
  | [] => .go t
  | r :: reads =>
    match onRecv t r with
    | .stop ok t => .stop ok t
    | .go t => receive t reads

end Cleonos.Wget
