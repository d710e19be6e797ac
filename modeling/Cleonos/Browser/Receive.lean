import Cleonos.Browser.Cookie
import Cleonos.Lib.Message
import Cleonos.Lib.Run

/-!
# The receive loop

`ush_browser_parse_http_headers`, and the loop of `browser_fetch.c` that takes the bytes of a
response until it has all of them.
-/

namespace Cleonos.Browser

open List Option
open Message (number number_append)

/-! ## The length -/

/-- The loop over the digits of a length. -/
def lengthLoop : List UInt8 → ℕ → Bool → Option (ℕ × Bool)
  | [], acc, hasDigit => some (acc, hasDigit)
  | c :: value, acc, hasDigit =>
    if isDigit c then
      let next := (acc * 10 + (c.toNat - 48)) % 2 ^ 64
      if next < acc then none else lengthLoop value next true
    else some (acc, hasDigit)

def isBlank (c : UInt8) : Bool := c = 32 || c = 9

/-- `ush_browser_parse_content_length`. -/
def parseContentLength (value : List UInt8) : Option ℕ :=
  match lengthLoop (value.dropWhile isBlank) 0 false with
  | some (acc, true) => some acc
  | _ => none

/-- `ush_browser_header_name_match_icase`. -/
def headerNameMatchIcase : List UInt8 → List UInt8 → Bool
  | line, [] => line.headD 0 = 58
  | [], _ :: _ => false
  | c :: line, d :: name => asciiTolower c = asciiTolower d && headerNameMatchIcase line name

/-- `ush_browser_line_has_token_icase`. -/
def lineHasTokenIcase (line token : List UInt8) : Bool :=
  token ≠ [] && line.tails.any fun rest => startsWithIcase rest token

/-- What `ush_browser_parse_http_headers` finds. -/
structure Headers where
  bodyOff : ℕ
  chunked : Bool
  contentLen : ℕ
  hasContentLen : Bool
  compressed : Bool

/-- The value behind the name of a line. -/
def fieldValue (name line : List UInt8) : List UInt8 :=
  (line.drop (name.length + 1)).dropWhile isBlank

def headerField (h : Headers) (line : List UInt8) : Headers :=
  if line = [] then h
  else if headerNameMatchIcase line (lit "Transfer-Encoding") then
    if lineHasTokenIcase (fieldValue (lit "Transfer-Encoding") line) (lit "chunked") then
      { h with chunked := true }
    else h
  else if headerNameMatchIcase line (lit "Content-Encoding") then
    let value := fieldValue (lit "Content-Encoding") line
    if lineHasTokenIcase value (lit "gzip") || lineHasTokenIcase value (lit "deflate") ||
        lineHasTokenIcase value (lit "br") then { h with compressed := true }
    else h
  else if headerNameMatchIcase line (lit "Content-Length") then
    match parseContentLength (fieldValue (lit "Content-Length") line) with
    | none => h
    | some parsed => { h with contentLen := parsed, hasContentLen := true }
  else h

/-- The lines of the header of a response. -/
def linesOf (header : List UInt8) : List (List UInt8) := headerLines (header.length + 1) header

/-- `ush_browser_parse_http_headers`. -/
def parseHttpHeaders (raw : List UInt8) : Option Headers :=
  (headerPart raw).map fun header =>
    (linesOf header).foldl headerField ⟨header.length, false, 0, false, false⟩

def htmlBufCap : ℕ := 256 * 1024 + 1
def recvChunk : ℕ := 2048
def recvIdleLoops : ℕ := 160

/-- The answer to a call that receives: it fails, there is nothing, with the end of a connection
over TLS or without it, or there are bytes. -/
inductive Recv
  | failed (text : List UInt8)
  | nothing (eof : Bool)
  | data (bytes : List UInt8) (fits : bytes.length ≤ recvChunk)

/-- The loop before a round: the bytes in the buffer, what their header says, and the rounds
without bytes. -/
structure Receiving where
  raw : List UInt8
  headers : Option Headers
  idle : ℕ

/-- How a round ends: the loop goes on; it ends, and whether that is because the response is
complete; or the fetch fails. -/
inductive Round
  | again (s : Receiving)
  | over (s : Receiving) (complete : Bool)
  | error (text : List UInt8)

/-- `raw_len >= body_off + content_length`. -/
def lengthReached (h : Headers) (rawLen : ℕ) : Bool :=
  decide (rawLen ≥ (h.bodyOff + h.contentLen) % 2 ^ 64)

/-- Whether a response is complete, `none` if it is invalid; the verdict on a chunked body is that
of `ush_browser_is_chunked_body_complete`. -/
def responseComplete (verdict : List UInt8 → Verdict) (h : Headers) (raw : List UInt8) :
    Option Bool :=
  if h.chunked = false then some (h.hasContentLen && lengthReached h raw.length)
  else
    match verdict (raw.drop h.bodyOff) with
    | .complete => some true
    | .incomplete => some false
    | .invalid => none

/-- The header is read as soon as it is there. -/
def readHeaders (s : Receiving) : Except (List UInt8) Receiving :=
  match s.headers with
  | some _ => .ok s
  | none =>
    match parseHttpHeaders s.raw with
    | none => .ok s
    | some h =>
      if h.compressed then .error (lit "compressed HTTP response is not supported")
      else .ok { s with headers := some h }

def idleRound (s : Receiving) : Round :=
  let s := { s with idle := s.idle + 1 }
  if s.idle ≥ recvIdleLoops then .over s false else .again s

/-- The end of a round: `next` is what happens where the response is not complete. -/
def endRound (verdict : List UInt8 → Verdict) (s : Receiving) (next : Round) : Round :=
  match s.headers with
  | none => next
  | some h =>
    match responseComplete verdict h s.raw with
    | none => .error (lit "invalid chunked HTTP response")
    | some true => .over s true
    | some false => next

/-- A round of the receive loop of `ush_browser_fetch_http_request`. -/
def receiveRound (verdict : List UInt8 → Verdict) (s : Receiving) : Recv → Round
  | .failed text => .error text
  | .nothing eof => if eof then .over s false else endRound verdict s (idleRound s)
  | .data bytes _ =>
    if bytes = [] then endRound verdict s (idleRound s)
    else
      let got := bytes.take (htmlBufCap - 1 - s.raw.length)
      match readHeaders { s with raw := s.raw ++ got, idle := 0 } with
      | .error text => .error text
      | .ok s => endRound verdict s (.again s)

/-- One round leads to the next while there is room in the buffer. -/
def Receives (verdict : List UInt8 → Verdict) (s s' : Receiving) : Prop :=
  s.raw.length + 1 < htmlBufCap ∧ ∃ answer, receiveRound verdict s answer = .again s'

/-- The loop before its first round. -/
def notReceived : Receiving := ⟨[], none, 0⟩

def lengthDigits (value : List UInt8) : List UInt8 := (value.dropWhile isBlank).takeWhile isDigit

/-- A line that is taken for one with a length. -/
def isLengthLine (line : List UInt8) : Bool :=
  line ≠ [] && ! headerNameMatchIcase line (lit "Transfer-Encoding") &&
    ! headerNameMatchIcase line (lit "Content-Encoding") &&
    headerNameMatchIcase line (lit "Content-Length")

/-- The values of the lines with a length. -/
def lengthFields (raw : List UInt8) : List (List UInt8) :=
  match headerPart raw with
  | none => []
  | some header =>
    ((linesOf header).filter isLengthLine).map (fieldValue (lit "Content-Length"))

/-- At some digit the value in a word falls below that of the digits in front of it. -/
def Falls (digits : List UInt8) : Prop :=
  ∃ n < digits.length, number (digits.take (n + 1)) % 2 ^ 64 < number (digits.take n) % 2 ^ 64

instance (digits : List UInt8) : Decidable (Falls digits) :=
  inferInstanceAs (Decidable (∃ n < digits.length, _))

/-- The value of a line is taken for a length. -/
def isLength (value : List UInt8) : Bool :=
  lengthDigits value ≠ [] && ! decide (Falls (lengthDigits value))

/-- The length that is taken from a header, as it is written: that of the last line. -/
def writtenLength (raw : List UInt8) : Option ℕ :=
  (((lengthFields raw).filter isLength).getLast?).map fun value => number (lengthDigits value)

/-- The length of a line is the number that is written, or none; and a response is complete when its
header and as many bytes are there. -/
structure LengthsExact (raw : List UInt8) : Prop where
  parsed : ∀ value ∈ lengthFields raw, ∀ parsed, parseContentLength value = some parsed →
    parsed = number (lengthDigits value)
  reached : ∀ h, parseHttpHeaders raw = some h → h.hasContentLen = true →
    ∀ n, h.bodyOff ≤ n → n < 2 ^ 64 → (lengthReached h n = true ↔ h.bodyOff + h.contentLen ≤ n)

/-- The lengths in a header fit into a word, or the fall of the value in a word shows that they do
not; and the length that is taken fits into a word with the header. -/
structure LengthsFit (raw : List UInt8) : Prop where
  parsed : ∀ value ∈ lengthFields raw, number (lengthDigits value) < 2 ^ 64 ∨
    Falls (lengthDigits value)
  sum : ∀ header written, headerPart raw = some header → writtenLength raw = some written →
    header.length + written < 2 ^ 64

variable {value line raw more digits front : List UInt8} {h : Headers}

theorem falls_cons (front : List UInt8) (c : UInt8) (digits : List UInt8) :
    (∃ n < (c :: digits).length, number (front ++ (c :: digits).take (n + 1)) % 2 ^ 64 <
        number (front ++ (c :: digits).take n) % 2 ^ 64) ↔
      number (front ++ [c]) % 2 ^ 64 < number front % 2 ^ 64 ∨
        ∃ n < digits.length, number ((front ++ [c]) ++ digits.take (n + 1)) % 2 ^ 64 <
          number ((front ++ [c]) ++ digits.take n) % 2 ^ 64 := by
  constructor
  · intro h
    obtain ⟨n, hn, hfall⟩ := h
    cases n with
    | zero =>
      left
      simpa using hfall
    | succ n =>
      right
      refine ⟨n, by simpa using hn, ?_⟩
      simpa using hfall
  · intro h
    rcases h with hfall | ⟨n, hn, hfall⟩
    · exact ⟨0, by simp, by simpa using hfall⟩
    · refine ⟨n + 1, by simpa using hn, ?_⟩
      simpa using hfall

theorem lengthLoop_eq (value front : List UInt8) (hasDigit : Bool) :
    lengthLoop value (number front % 2 ^ 64) hasDigit =
      if ∃ n < (value.takeWhile isDigit).length,
          number (front ++ (value.takeWhile isDigit).take (n + 1)) % 2 ^ 64 <
            number (front ++ (value.takeWhile isDigit).take n) % 2 ^ 64 then none
      else some (number (front ++ value.takeWhile isDigit) % 2 ^ 64,
        hasDigit || decide (value.takeWhile isDigit ≠ [])) := by
  induction value generalizing front hasDigit with
  | nil => simp [lengthLoop]
  | cons c value ih =>
    rw [lengthLoop]
    by_cases hdigit : isDigit c = true
    · have hnext : (number front % 2 ^ 64 * 10 + (c.toNat - 48)) % 2 ^ 64 =
          number (front ++ [c]) % 2 ^ 64 := by
        rw [number_append]
        omega
      rw [if_pos hdigit, hnext, takeWhile_cons_of_pos hdigit]
      simp only [falls_cons]
      by_cases hfall : number (front ++ [c]) % 2 ^ 64 < number front % 2 ^ 64
      · rw [if_pos hfall, if_pos (.inl hfall)]
      · rw [if_neg hfall, ih (front ++ [c]) true]
        simp only [hfall, false_or, Bool.true_or]
        simp
    · rw [if_neg hdigit, takeWhile_cons_of_neg hdigit]
      simp

theorem parseContentLength_eq (value : List UInt8) : parseContentLength value =
    if isLength value then some (number (lengthDigits value) % 2 ^ 64) else none := by
  have hloop := lengthLoop_eq (value.dropWhile isBlank) [] false
  have hstart : number [] % 2 ^ 64 = 0 := rfl
  rw [hstart] at hloop
  simp only [nil_append] at hloop
  rw [parseContentLength, isLength]
  by_cases hfalls : Falls (lengthDigits value)
  · have hnone : lengthLoop (value.dropWhile isBlank) 0 false = none := by
      rw [hloop]
      exact if_pos hfalls
    simp [hnone, hfalls]
  · have hsome : lengthLoop (value.dropWhile isBlank) 0 false =
        some (number (lengthDigits value) % 2 ^ 64, decide (lengthDigits value ≠ [])) := by
      rw [hloop]
      exact if_neg hfalls
    rw [hsome]
    by_cases hnil : lengthDigits value = []
    · simp [hnil]
    · simp [hnil, hfalls]

/-- What the loop over the lines keeps of their lengths. -/
structure Keeps (lengths : List (List UInt8)) (h : Headers) : Prop where
  has : h.hasContentLen = ((lengths.filter isLength).getLast?).isSome
  len : ∀ value, (lengths.filter isLength).getLast? = some value →
    h.contentLen = number (lengthDigits value) % 2 ^ 64

theorem headerField_of_not_length (hline : isLengthLine line = false) :
    (headerField h line).hasContentLen = h.hasContentLen ∧
      (headerField h line).contentLen = h.contentLen ∧
      (headerField h line).bodyOff = h.bodyOff := by
  rw [headerField]
  by_cases hnil : line = []
  · rw [if_pos hnil]
    exact ⟨rfl, rfl, rfl⟩
  rw [if_neg hnil]
  by_cases htransfer : headerNameMatchIcase line (lit "Transfer-Encoding") = true
  · rw [if_pos htransfer]
    split
    · exact ⟨rfl, rfl, rfl⟩
    · exact ⟨rfl, rfl, rfl⟩
  rw [if_neg htransfer]
  by_cases hencoding : headerNameMatchIcase line (lit "Content-Encoding") = true
  · rw [if_pos hencoding]
    simp only
    split
    · exact ⟨rfl, rfl, rfl⟩
    · exact ⟨rfl, rfl, rfl⟩
  rw [if_neg hencoding]
  by_cases hlength : headerNameMatchIcase line (lit "Content-Length") = true
  · simp [isLengthLine, hnil, htransfer, hencoding, hlength] at hline
  · rw [if_neg hlength]
    exact ⟨rfl, rfl, rfl⟩

theorem headerField_of_length (hline : isLengthLine line = true) :
    headerField h line = match parseContentLength (fieldValue (lit "Content-Length") line) with
      | none => h
      | some parsed => { h with contentLen := parsed, hasContentLen := true } := by
  simp only [isLengthLine, Bool.and_eq_true, Bool.not_eq_true', decide_eq_true_eq] at hline
  obtain ⟨⟨⟨hnil, htransfer⟩, hencoding⟩, hlength⟩ := hline
  rw [headerField, if_neg hnil, if_neg (by simp [htransfer]), if_neg (by simp [hencoding]),
    if_pos hlength]

theorem keeps_headerField {lengths : List (List UInt8)} (hkeeps : Keeps lengths h) (line : List UInt8) :
    Keeps (lengths ++ ([line].filter isLengthLine).map (fieldValue (lit "Content-Length")))
      (headerField h line) ∧ (headerField h line).bodyOff = h.bodyOff := by
  cases hline : isLengthLine line with
  | false =>
    obtain ⟨hhas, hlen, hoff⟩ := @headerField_of_not_length line h hline
    rw [filter_cons_of_neg (by simp [hline]), filter_nil, map_nil, append_nil]
    exact ⟨⟨by rw [hhas, hkeeps.has], fun value hvalue => by rw [hlen, hkeeps.len value hvalue]⟩, hoff⟩
  | true =>
    have hfield := @headerField_of_length line h hline
    rw [parseContentLength_eq] at hfield
    rw [filter_cons_of_pos hline, filter_nil, map_singleton]
    by_cases hlength : isLength (fieldValue (lit "Content-Length") line) = true
    · rw [if_pos hlength] at hfield
      rw [hfield]
      have hlast : ((lengths ++ [fieldValue (lit "Content-Length") line]).filter isLength).getLast? =
          some (fieldValue (lit "Content-Length") line) := by
        simp [filter_append, hlength]
      refine ⟨⟨by rw [hlast]; rfl, fun value hvalue => ?_⟩, rfl⟩
      rw [hlast] at hvalue
      cases hvalue
      rfl
    · rw [if_neg hlength] at hfield
      rw [hfield]
      have hsame : (lengths ++ [fieldValue (lit "Content-Length") line]).filter isLength =
          lengths.filter isLength := by
        simp [filter_append, hlength]
      refine ⟨⟨by rw [hsame, hkeeps.has], fun value hvalue => ?_⟩, rfl⟩
      rw [hsame] at hvalue
      exact hkeeps.len value hvalue

theorem keeps_foldl (lines : List (List UInt8)) {lengths : List (List UInt8)}
    (hkeeps : Keeps lengths h) :
    Keeps (lengths ++ (lines.filter isLengthLine).map (fieldValue (lit "Content-Length")))
      (lines.foldl headerField h) ∧ (lines.foldl headerField h).bodyOff = h.bodyOff := by
  induction lines generalizing h lengths with
  | nil =>
    simpa using hkeeps
  | cons line lines ih =>
    have hone := keeps_headerField hkeeps line
    have hrest := ih hone.1
    rw [foldl_cons]
    refine ⟨?_, hrest.2.trans hone.2⟩
    have hsplit : (line :: lines).filter isLengthLine =
        [line].filter isLengthLine ++ lines.filter isLengthLine := by
      rw [← filter_append, singleton_append]
    rw [hsplit, map_append, ← append_assoc]
    exact hrest.1

theorem parseHttpHeaders_spec (hparse : parseHttpHeaders raw = some h) :
    ∃ header, headerPart raw = some header ∧ h.bodyOff = header.length ∧
      h.hasContentLen = (writtenLength raw).isSome ∧
      ∀ written, writtenLength raw = some written → h.contentLen = written % 2 ^ 64 := by
  obtain ⟨header, hheader, rfl⟩ := map_eq_some_iff.1 hparse
  have hkeeps := @keeps_foldl ⟨header.length, false, 0, false, false⟩ (linesOf header) []
    ⟨rfl, fun value hvalue => by cases hvalue⟩
  have hfields : lengthFields raw =
      [] ++ ((linesOf header).filter isLengthLine).map (fieldValue (lit "Content-Length")) := by
    rw [lengthFields, hheader, nil_append]
  rw [← hfields] at hkeeps
  refine ⟨header, hheader, hkeeps.2, ?_, ?_⟩
  · rw [hkeeps.1.has, writtenLength, isSome_map]
  · intro written hwritten
    obtain ⟨value, hvalue, rfl⟩ := map_eq_some_iff.1 hwritten
    exact hkeeps.1.len value hvalue

theorem length_headerPart_le {header : List UInt8} (hheader : headerPart raw = some header) :
    header.length ≤ raw.length := by
  induction raw generalizing header with
  | nil => cases hheader
  | cons c raw ih =>
    rw [headerPart] at hheader
    split at hheader
    · next hblank =>
      cases hheader
      exact (List.isPrefixOf_iff_prefix.1 hblank).length_le
    · obtain ⟨rest, hrest, rfl⟩ := map_eq_some_iff.1 hheader
      exact Nat.succ_le_succ (ih hrest)

theorem lengthsExact_iff (hlen : raw.length < 2 ^ 64) : LengthsExact raw ↔ LengthsFit raw := by
  have hparsed : (∀ value ∈ lengthFields raw, ∀ parsed, parseContentLength value = some parsed →
      parsed = number (lengthDigits value)) ↔
      ∀ value ∈ lengthFields raw, number (lengthDigits value) < 2 ^ 64 ∨
        Falls (lengthDigits value) := by
    refine forall₂_congr fun value _ => ?_
    rw [parseContentLength_eq]
    by_cases hfalls : Falls (lengthDigits value)
    · have hno : isLength value = false := by simp [isLength, hfalls]
      rw [hno, if_neg (by simp)]
      exact iff_of_true (fun parsed hsome => by cases hsome) (.inr hfalls)
    by_cases hnil : lengthDigits value = []
    · have hno : isLength value = false := by simp [isLength, hnil]
      rw [hno, if_neg (by simp)]
      refine iff_of_true (fun parsed hsome => by cases hsome) (.inl ?_)
      rw [hnil]
      exact Nat.two_pow_pos 64
    · have hyes : isLength value = true := by simp [isLength, hnil, hfalls]
      rw [hyes, if_pos rfl]
      constructor
      · intro hall
        have heq := hall _ rfl
        left
        rw [← heq]
        exact Nat.mod_lt _ (Nat.two_pow_pos 64)
      · intro hfits parsed hsome
        cases hsome
        exact Nat.mod_eq_of_lt (hfits.resolve_right hfalls)
  constructor
  · intro h
    refine ⟨hparsed.1 h.parsed, fun header written hheader hwritten => ?_⟩
    have hparse : parseHttpHeaders raw =
        some ((linesOf header).foldl headerField ⟨header.length, false, 0, false, false⟩) := by
      rw [parseHttpHeaders, hheader]
      rfl
    generalize (linesOf header).foldl headerField _ = found at hparse
    obtain ⟨header', hheader', hoff, hhas, hcontent⟩ := parseHttpHeaders_spec hparse
    rw [hheader] at hheader'
    cases hheader'
    have hwrittenlt : written < 2 ^ 64 := by
      obtain ⟨value, hlast, rfl⟩ := map_eq_some_iff.1 hwritten
      have hmem := mem_filter.1 (mem_of_getLast? hlast)
      have hfalls : ¬ Falls (lengthDigits value) := by
        intro hfalls
        simp [isLength, hfalls] at hmem
      exact (hparsed.1 h.parsed value hmem.1).resolve_right hfalls
    have hsum := hcontent written hwritten
    rw [Nat.mod_eq_of_lt hwrittenlt] at hsum
    have hle := length_headerPart_le hheader
    have hreached := h.reached found hparse (by rw [hhas, hwritten]; rfl) found.bodyOff le_rfl
      (by omega)
    by_contra hwraps
    -- the sum in a word is less than the header
    have hword : (found.bodyOff + found.contentLen) % 2 ^ 64 ≤ found.bodyOff := by omega
    have hzero := hreached.1 (by simpa [lengthReached] using hword)
    omega
  · intro h
    refine ⟨hparsed.2 h.parsed, fun found hparse hhas n _ _ => ?_⟩
    obtain ⟨header, hheader, hoff, hsome, hcontent⟩ := parseHttpHeaders_spec hparse
    rw [hhas] at hsome
    obtain ⟨written, hwritten⟩ := isSome_iff_exists.1 hsome.symm
    have hsum := h.sum header written hheader hwritten
    have hlength := hcontent written hwritten
    rw [Nat.mod_eq_of_lt (by omega)] at hlength
    rw [lengthReached, decide_eq_true_eq, hoff, hlength, Nat.mod_eq_of_lt hsum]

theorem four_le_headerPart {header : List UInt8} (hheader : headerPart raw = some header) :
    4 ≤ header.length := by
  induction raw generalizing header with
  | nil => cases hheader
  | cons c raw ih =>
    rw [headerPart] at hheader
    split at hheader
    · cases hheader
      decide
    · obtain ⟨rest, hrest, rfl⟩ := map_eq_some_iff.1 hheader
      exact (ih hrest).trans (Nat.le_succ _)

theorem headerPart_append {header : List UInt8} (hheader : headerPart raw = some header)
    (more : List UInt8) : headerPart (raw ++ more) = some header := by
  induction raw generalizing header with
  | nil => cases hheader
  | cons c raw ih =>
    rw [headerPart] at hheader
    rw [cons_append, headerPart]
    split at hheader
    · next hblank =>
      have hprefix : [13, 10, 13, 10] <+: c :: (raw ++ more) :=
        (List.isPrefixOf_iff_prefix.1 hblank).trans (prefix_append (c :: raw) more)
      rw [if_pos (List.isPrefixOf_iff_prefix.2 hprefix)]
      exact hheader
    · next hno =>
      obtain ⟨rest, hrest, rfl⟩ := map_eq_some_iff.1 hheader
      have hfour := (four_le_headerPart hrest).trans (length_headerPart_le hrest)
      have hno' : ¬ [13, 10, 13, 10].isPrefixOf (c :: (raw ++ more)) = true := by
        intro hblank
        refine hno (List.isPrefixOf_iff_prefix.2 ?_)
        refine prefix_of_prefix_length_le (List.isPrefixOf_iff_prefix.1 hblank)
          (prefix_append (c :: raw) more) ?_
        simp only [length_cons, length_nil]
        omega
      rw [if_neg hno', ih hrest]
      rfl

theorem parseHttpHeaders_append (hparse : parseHttpHeaders raw = some h) (more : List UInt8) :
    parseHttpHeaders (raw ++ more) = some h := by
  obtain ⟨header, hheader, hmap⟩ := map_eq_some_iff.1 hparse
  rw [parseHttpHeaders, headerPart_append hheader more, ← hmap]
  rfl

section Loop

variable {verdict : List UInt8 → Verdict} {s s' : Receiving}

/-- The header says how long the body is, and no chunks are announced. -/
def LengthFramed (h : Headers) : Prop := h.chunked = false ∧ h.hasContentLen = true

/-- All bytes of the header and of the body have arrived. -/
def Arrived (h : Headers) (raw : List UInt8) : Prop := h.bodyOff + h.contentLen ≤ raw.length

instance (h : Headers) (raw : List UInt8) : Decidable (Arrived h raw) :=
  inferInstanceAs (Decidable (_ ≤ _))

/-- The header has been read if it is there. -/
structure HeaderRead (s : Receiving) : Prop where
  room : s.raw.length < htmlBufCap
  unread : s.headers = none → parseHttpHeaders s.raw = none
  read : ∀ h, s.headers = some h → parseHttpHeaders s.raw = some h

/-- Before every round, something is missing. -/
structure Waiting (s : Receiving) : Prop extends HeaderRead s where
  missing : ∀ h, s.headers = some h → LengthFramed h → LengthsFit s.raw → ¬ Arrived h s.raw

/-- The state that a round leaves. -/
def Leaves (r : Round) (s : Receiving) : Prop := r = .again s ∨ ∃ complete, r = .over s complete

/-- The round says that the response is complete just where all of it has arrived. -/
def Exact (r : Round) (s : Receiving) : Prop :=
  ∀ h, s.headers = some h → LengthFramed h → LengthsFit s.raw → (r = .over s true ↔ Arrived h s.raw)

theorem responseComplete_of_plain (hplain : LengthFramed h) (hparse : parseHttpHeaders raw = some h)
    (hlen : raw.length < 2 ^ 64) (hfit : LengthsFit raw) :
    responseComplete verdict h raw = some (decide (Arrived h raw)) := by
  obtain ⟨header, hheader, hoff, -, -⟩ := parseHttpHeaders_spec hparse
  have hle := length_headerPart_le hheader
  have hreached := ((lengthsExact_iff hlen).2 hfit).reached h hparse hplain.2 raw.length (by omega) hlen
  rw [responseComplete, if_pos hplain.1, hplain.2, Bool.true_and]
  refine congrArg some ?_
  by_cases harrived : Arrived h raw
  · rw [hreached.2 harrived, decide_eq_true harrived]
  · rw [decide_eq_false harrived, Bool.eq_false_iff]
    exact fun hyes => harrived (hreached.1 hyes)

/-- What does not end the loop as complete. -/
def Passes (s : Receiving) (next : Round) : Prop :=
  ∃ t : Receiving, t.raw = s.raw ∧ t.headers = s.headers ∧ (next = .again t ∨ next = .over t false)

theorem passes_idleRound (s : Receiving) : Passes s (idleRound s) := by
  rw [idleRound]
  refine ⟨{ s with idle := s.idle + 1 }, rfl, rfl, ?_⟩
  simp only
  split
  · exact .inr rfl
  · exact .inl rfl

theorem exact_endRound (hread : HeaderRead s) {next : Round} (hnext : Passes s next)
    (hleaves : Leaves (endRound verdict s next) s') :
    HeaderRead s' ∧ Exact (endRound verdict s next) s' := by
  obtain ⟨t, hraw, hheaders, hpass⟩ := hnext
  have hroom : s.raw.length < 2 ^ 64 := by
    have hcap := hread.room
    simp only [htmlBufCap] at hcap
    omega
  have hkept : HeaderRead t := by
    refine ⟨by rw [hraw]; exact hread.room, fun hnone => ?_, fun h hsome => ?_⟩
    · rw [hraw]
      exact hread.unread (hheaders ▸ hnone)
    · rw [hraw]
      exact hread.read h (hheaders ▸ hsome)
  have hpassed : Leaves next s' → s' = t := by
    intro hleft
    rcases hpass with hpass | hpass
    · rw [hpass] at hleft
      rcases hleft with hleft | ⟨c, hleft⟩
      · cases hleft
        rfl
      · cases hleft
    · rw [hpass] at hleft
      rcases hleft with hleft | ⟨c, hleft⟩
      · cases hleft
      · cases hleft
        rfl
  have hnever : next ≠ .over t true := by
    rcases hpass with hpass | hpass
    · simp [hpass]
    · simp [hpass]
  cases hsome : s.headers with
  | none =>
    have hend : endRound verdict s next = next := by rw [endRound, hsome]
    rw [hend] at hleaves ⊢
    cases hpassed hleaves
    refine ⟨hkept, fun h hh => ?_⟩
    rw [hheaders, hsome] at hh
    cases hh
  | some h =>
    have hparse := hread.read h hsome
    cases hcomplete : responseComplete verdict h s.raw with
    | none =>
      have hend : endRound verdict s next = .error (lit "invalid chunked HTTP response") := by
        rw [endRound, hsome]
        simp only [hcomplete]
      rw [hend] at hleaves
      rcases hleaves with hleft | ⟨c, hleft⟩
      · cases hleft
      · cases hleft
    | some complete =>
      have hexact : ∀ h', s.headers = some h' → LengthFramed h' → LengthsFit s.raw →
          (complete = true ↔ Arrived h' s.raw) := by
        intro h' hh hplain hfit
        rw [hsome] at hh
        cases hh
        rw [responseComplete_of_plain hplain hparse hroom hfit] at hcomplete
        cases hcomplete
        rw [decide_eq_true_eq]
      cases complete with
      | true =>
        have hend : endRound verdict s next = .over s true := by
          rw [endRound, hsome]
          simp only [hcomplete]
        rw [hend] at hleaves ⊢
        have hsame : s' = s := by
          rcases hleaves with hleft | ⟨c, hleft⟩
          · cases hleft
          · cases hleft
            rfl
        subst hsame
        refine ⟨hread, fun h' hh hplain hfit => ?_⟩
        exact iff_of_true rfl ((hexact h' hh hplain hfit).1 rfl)
      | false =>
        have hend : endRound verdict s next = next := by
          rw [endRound, hsome]
          simp only [hcomplete]
        rw [hend] at hleaves ⊢
        cases hpassed hleaves
        refine ⟨hkept, fun h' hh hplain hfit => ?_⟩
        rw [hraw] at hfit ⊢
        rw [hheaders] at hh
        refine iff_of_false hnever fun harrived => ?_
        have hno := (hexact h' hh hplain hfit).2 harrived
        cases hno

theorem headerRead_readHeaders (hroom : s.raw.length < htmlBufCap)
    (hread : ∀ h, s.headers = some h → parseHttpHeaders s.raw = some h)
    (hrun : readHeaders s = .ok s') : HeaderRead s' ∧ s'.raw = s.raw := by
  rw [readHeaders] at hrun
  cases hsome : s.headers with
  | some h =>
    rw [hsome] at hrun
    cases hrun
    refine ⟨⟨hroom, fun hnone => ?_, hread⟩, rfl⟩
    rw [hsome] at hnone
    cases hnone
  | none =>
    rw [hsome] at hrun
    simp only at hrun
    cases hparse : parseHttpHeaders s.raw with
    | none =>
      rw [hparse] at hrun
      cases hrun
      exact ⟨⟨hroom, fun _ => hparse, hread⟩, rfl⟩
    | some h =>
      rw [hparse] at hrun
      simp only at hrun
      split at hrun
      · cases hrun
      · cases hrun
        refine ⟨⟨hroom, fun hnone => ?_, fun h' hh => ?_⟩, rfl⟩
        · cases hnone
        · cases hh
          exact hparse

theorem exact_receiveRound (hwait : Waiting s) {answer : Recv}
    (hleaves : Leaves (receiveRound verdict s answer) s') :
    HeaderRead s' ∧ Exact (receiveRound verdict s answer) s' := by
  cases answer with
  | failed text =>
    rcases hleaves with hleft | ⟨c, hleft⟩
    · cases hleft
    · cases hleft
  | nothing eof =>
    rw [receiveRound] at hleaves ⊢
    cases eof with
    | true =>
      rw [if_pos rfl] at hleaves ⊢
      have hsame : s' = s := by
        rcases hleaves with hleft | ⟨c, hleft⟩
        · cases hleft
        · cases hleft
          rfl
      subst hsame
      refine ⟨hwait.toHeaderRead, fun h hh hplain hfit => iff_of_false (by simp) ?_⟩
      exact hwait.missing h hh hplain hfit
    | false =>
      rw [if_neg (by simp)] at hleaves ⊢
      exact exact_endRound hwait.toHeaderRead (passes_idleRound s) hleaves
  | data bytes fits =>
    rw [receiveRound] at hleaves ⊢
    by_cases hnil : bytes = []
    · rw [if_pos hnil] at hleaves ⊢
      exact exact_endRound hwait.toHeaderRead (passes_idleRound s) hleaves
    · rw [if_neg hnil] at hleaves ⊢
      simp only at hleaves ⊢
      cases hrun : readHeaders { s with
          raw := s.raw ++ bytes.take (htmlBufCap - 1 - s.raw.length), idle := 0 } with
      | error text =>
        rw [hrun] at hleaves
        rcases hleaves with hleft | ⟨c, hleft⟩
        · cases hleft
        · cases hleft
      | ok t =>
        rw [hrun] at hleaves
        simp only at hleaves ⊢
        have hroom : (s.raw ++ bytes.take (htmlBufCap - 1 - s.raw.length)).length < htmlBufCap := by
          have hcap := hwait.room
          rw [length_append, length_take]
          omega
        have ht := @headerRead_readHeaders { s with
            raw := s.raw ++ bytes.take (htmlBufCap - 1 - s.raw.length), idle := 0 } t hroom
          (fun h hh => parseHttpHeaders_append (hwait.read h hh) _) hrun
        exact exact_endRound ht.1 ⟨t, rfl, rfl, .inl rfl⟩ hleaves

theorem waiting_of_reachable (hrun : Reachable (· = notReceived) (Receives verdict) s) :
    Waiting s := by
  refine hrun.invariant (I := Waiting) ?_ ?_
  · intro s hs
    subst hs
    refine ⟨⟨by decide, fun _ => rfl, fun h hh => ?_⟩, fun h hh => ?_⟩
    · cases hh
    · cases hh
  · intro s s' hwait hstep
    obtain ⟨-, answer, hround⟩ := hstep
    obtain ⟨hread, hexact⟩ := exact_receiveRound hwait (.inl hround)
    refine ⟨hread, fun h hh hplain hfit harrived => ?_⟩
    have hover := (hexact h hh hplain hfit).2 harrived
    rw [hround] at hover
    cases hover

end Loop

/-- The lengths that are taken from a header are those that are written, and none of the sums goes
past the end of a word, exactly if they fit; and where they do, every run of the loop takes a
response for complete just when its header and as many bytes have arrived. -/
theorem content_length_exact_iff (hlen : raw.length < 2 ^ 64) :
    (LengthsExact raw ↔ LengthsFit raw) ∧
      ∀ (verdict : List UInt8 → Verdict) (s s' : Receiving) (answer : Recv),
        Reachable (· = notReceived) (Receives verdict) s →
        Leaves (receiveRound verdict s answer) s' → Exact (receiveRound verdict s answer) s' :=
  ⟨lengthsExact_iff hlen, fun _ _ _ _ hrun hleaves =>
    (exact_receiveRound (waiting_of_reachable hrun) hleaves).2⟩

def lengthHeader (digits : List UInt8) : List UInt8 :=
  lit "HTTP/1.1 200 OK\r\nContent-Length: " ++ digits ++ lit "\r\n\r\n"

theorem content_length_exact_five : LengthsExact (lengthHeader (lit "5")) := by
  refine (content_length_exact_iff (by decide)).1.2 ⟨?_, ?_⟩
  · intro value hmem
    have hfields : lengthFields (lengthHeader (lit "5")) = [lit "5"] := by decide
    rw [hfields] at hmem
    rw [mem_singleton.1 hmem]
    decide
  · intro header written hheader hwritten
    have hpart : headerPart (lengthHeader (lit "5")) = some (lengthHeader (lit "5")) := by decide
    have hfive : writtenLength (lengthHeader (lit "5")) = some 5 := by decide
    rw [hpart] at hheader
    rw [hfive] at hwritten
    cases hheader
    cases hwritten
    decide

/-- A length is taken for another one. -/
theorem content_length_wraps : ¬ ∀ raw : List UInt8, raw.length < 2 ^ 64 → LengthsExact raw := by
  intro h
  have hexact := h (lengthHeader (lit "30000000000000000000")) (by decide)
  have hparsed := hexact.parsed (lit "30000000000000000000") (by decide) 11553255926290448384
    (by decide)
  exact absurd hparsed (by decide)

end Cleonos.Browser
