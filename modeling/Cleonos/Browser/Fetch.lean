import Cleonos.Browser.Selection
import Cleonos.Lib.Message

/-!
# A fetch of the browser

`browser_fetch.c`, up to the bytes that are sent: the request is put together from the URL, the
token, the cookies and the length of the body, and the body follows it.
-/

namespace Cleonos.Browser

open List

section

open Libc (decimal)

def tokenMax : ℕ := 192
def fetchErrorMax : ℕ := 160
def requestMax : ℕ := 1024
def dnsPacketMax : ℕ := 512

/-- `ush_browser_bearer_token`: a text that fits into its buffer. -/
structure Token where
  text : List UInt8
  fits : text.length < tokenMax
  deriving DecidableEq, Repr

/-- `ush_browser_cookie_clear_token`. -/
def clearToken : Token := ⟨[], by decide⟩

/-- What the surroundings answer: whether the buffers can be allocated, the network is there, the
connection for a URL can be allocated and is taken by an address, and why TLS fails; and the address
that a name of the DNS has. -/
structure Net where
  buffers : Bool
  available : Bool
  resolves : List UInt8 → Option ℕ
  allocates : Bool
  connects : Url → ℕ → Bool
  tlsError : List UInt8

/-! ## The address -/

/-- The loop of `ush_browser_parse_ipv4_be`. -/
def parseIpv4Loop : List UInt8 → ℕ → ℕ → ℕ → Bool → Option ℕ
  | [], acc, value, parts, hasDigit =>
    if hasDigit = false ∨ parts ≠ 3 then none else some ((acc * 256 + value) % 2 ^ 32)
  | ch :: text, acc, value, parts, hasDigit =>
    if isDigit ch then
      let value := value * 10 + (ch.toNat - 48)
      if value > 255 then none else parseIpv4Loop text acc value parts true
    else if ch = 46 then
      if hasDigit = false ∨ parts ≥ 3 then none
      else parseIpv4Loop text (acc * 256 + value) 0 (parts + 1) false
    else none

/-- `ush_browser_parse_ipv4_be`. -/
def parseIpv4Be (text : List UInt8) : Option ℕ := parseIpv4Loop text 0 0 0 false

/-- The labels of a name; nothing need stand behind its last dot. -/
def labels (host : List UInt8) : List (List UInt8) :=
  let ls := host.splitOn 46
  if ls.getLast? = some [] then ls.dropLast else ls

/-- `ush_browser_dns_encode_qname`. -/
def dnsEncodeQname (host : List UInt8) : Option (List UInt8) :=
  if host = [] then none
  else
    ((labels host).foldlM (fun out label =>
      if label.length = 0 ∨ label.length > 63 then none
      else if out.length + 1 + label.length + 1 > dnsPacketMax - 12 then none
      else some (out ++ UInt8.ofNat label.length :: label)) []).map (· ++ [0])

/-- `ush_browser_dns_resolve_ipv4`. -/
def dnsResolveIpv4 (net : Net) (host : List UInt8) : Option ℕ :=
  (dnsEncodeQname host).bind fun qname =>
    if 12 + qname.length + 4 > dnsPacketMax then none else net.resolves qname

def addressOf (net : Net) (host : List UInt8) : Option ℕ :=
  (parseIpv4Be host).or (dnsResolveIpv4 net host)

/-- `http_method`: whether it is POST. -/
def isPostMethod (method : List UInt8) : Bool := method.headD 0 = 80 || method.headD 0 = 112

def httpMethod (method : List UInt8) : List UInt8 :=
  if isPostMethod method then lit "POST" else lit "GET"

def authHeader (token : Token) : List UInt8 :=
  if token.text = [] then []
  else cut (tokenMax + 32) (lit "Authorization: Bearer " ++ (token.text ++ lit "\r\n"))

/-- The host in a request; the port stands behind it where the scheme does not imply it. -/
def hostText (url : Url) : List UInt8 :=
  if (url.tls = false ∧ url.port = 80) ∨ (url.tls = true ∧ url.port = 443) then url.host
  else url.host ++ 58 :: decimal url.port

/-- The lines that are the same in all requests, behind the host. -/
def fixedFields : List UInt8 :=
  lit "\r\nUser-Agent: cleonos-browser/1.0\r\nAccept: text/html,*/*\r\n" ++
    lit "Accept-Encoding: identity\r\n"

def cookieField (cookieHeader : List UInt8) : List UInt8 :=
  if cookieHeader = [] then [] else lit "Cookie: " ++ (cookieHeader ++ lit "\r\n")

/-- The lines that a POST has beside those of a GET. -/
def postFields (method : List UInt8) (bodyLen : ℕ) : List UInt8 :=
  if isPostMethod method then
    lit "Content-Type: application/x-www-form-urlencoded\r\nContent-Length: " ++
      (decimal bodyLen ++ lit "\r\n")
  else []

/-- The text of `request`. -/
def requestHead (token : Token) (cookieHeader : List UInt8) (url : Url) (method : List UInt8)
    (bodyLen : ℕ) : List UInt8 :=
  httpMethod method ++ (lit " " ++ (url.path ++ (lit " HTTP/1.1\r\nHost: " ++ (hostText url ++
    (fixedFields ++ (authHeader token ++ (cookieField cookieHeader ++ (postFields method bodyLen ++
      lit "Connection: close\r\n\r\n"))))))))

/-- What `ush_browser_fetch_error_set_tls` leaves. -/
def tlsFailure (net : Net) (start : List UInt8) : List UInt8 :=
  cut fetchErrorMax (start ++ lit ": " ++ net.tlsError)

/-- `ush_browser_fetch_http_request`, up to the bytes that are sent; the error is the text that
`ush_browser_fetch_error_set` leaves. -/
def fetch (net : Net) (token : Token) (table : List Cookie) (urlText method body : List UInt8) :
    Except (List UInt8) (List UInt8) :=
  if net.buffers = false then .error (lit "browser buffer allocation failed")
  else if net.available = false then .error (lit "network unavailable")
  else
    match parseUrl urlText with
    | none => .error (lit "invalid URL")
    | some url =>
      let cookieHeader := buildHeader url table cookieHeaderMax
      match addressOf net url.host with
      | none => .error (cut fetchErrorMax (lit "DNS resolve failed for " ++ url.host))
      | some address =>
        if url.tls = true ∧ net.allocates = false then .error (lit "TLS allocation failed")
        else if net.connects url address = false then
          .error (if url.tls then tlsFailure net (lit "TLS connect failed")
            else lit "TCP connect failed")
        else
          let request := requestHead token cookieHeader url method body.length
          if request.length ≥ requestMax then .error (lit "HTTP request build failed")
          else .ok (request ++ body)

end

open Libc (decimal)
open Message (Request Word Unbroken bodyLength number number_append lengthField)

/-- The lines that the source lists. -/
def listedLines (token : Token) (cookieHeader : List UInt8) (url : Url) (method : List UInt8)
    (bodyLen : ℕ) : List (List UInt8) :=
  [lit "Host: " ++ hostText url, lit "User-Agent: cleonos-browser/1.0", lit "Accept: text/html,*/*",
    lit "Accept-Encoding: identity"] ++
  (if token.text = [] then [] else [lit "Authorization: Bearer " ++ token.text]) ++
  (if cookieHeader = [] then [] else [lit "Cookie: " ++ cookieHeader]) ++
  (if isPostMethod method then
    [lit "Content-Type: application/x-www-form-urlencoded",
      lit "Content-Length: " ++ decimal bodyLen] else []) ++
  [lit "Connection: close"]

variable {net : Net} {token : Token} {table : List Cookie} {urlText method body : List UInt8}
  {url : Url}

/-- A fetch sends something, for the URL that its text stands for. -/
structure Issues (net : Net) (token : Token) (table : List Cookie)
    (urlText method body : List UInt8) (url : Url) : Prop where
  buffers : net.buffers = true
  available : net.available = true
  parses : parseUrl urlText = some url
  connects : ∃ address, addressOf net url.host = some address ∧ net.connects url address = true
  allocates : url.tls = true → net.allocates = true
  fits : (requestHead token (buildHeader url table cookieHeaderMax) url method body.length).length <
    requestMax

/-- What a fetch sends, if it sends something, reads as one request with the lines that are listed:
no space, line end or zero byte in its target, and a body as long as the lines say. -/
def Integral (net : Net) (token : Token) (table : List Cookie) (urlText method body : List UInt8) :
    Prop :=
  ∀ bytes, fetch net token table urlText method body = .ok bytes →
    ∃ url, parseUrl urlText = some url ∧ ∃ r : Request, r.WellFormed ∧
      r.lines = listedLines token (buildHeader url table cookieHeaderMax) url method body.length ∧
      r.bytes = bytes

theorem fetch_eq_ok_iff (bytes : List UInt8) :
    fetch net token table urlText method body = .ok bytes ↔
      ∃ url, Issues net token table urlText method body url ∧ bytes =
        requestHead token (buildHeader url table cookieHeaderMax) url method body.length ++ body := by
  constructor
  · intro h
    rw [fetch] at h
    split at h
    · cases h
    split at h
    · cases h
    rename_i hbuffers havailable
    cases hparse : parseUrl urlText with
    | none =>
      rw [hparse] at h
      cases h
    | some url =>
      rw [hparse] at h
      dsimp only at h
      cases haddress : addressOf net url.host with
      | none =>
        rw [haddress] at h
        cases h
      | some address =>
        rw [haddress] at h
        dsimp only at h
        split at h
        · cases h
        split at h
        · cases h
        split at h
        · cases h
        rename_i hallocates hconnects hlen
        refine ⟨url, ⟨by simpa using hbuffers, by simpa using havailable, hparse,
          ⟨address, haddress, by simpa using hconnects⟩, fun htls => ?_, by omega⟩,
          (Except.ok.inj h).symm⟩
        by_contra hnot
        exact hallocates ⟨htls, by simpa using hnot⟩
  · rintro ⟨url, h, rfl⟩
    obtain ⟨address, haddress, hconnects⟩ := h.connects
    have hallocates : ¬(url.tls = true ∧ net.allocates = false) := fun hnot => by
      rw [h.allocates hnot.1] at hnot
      exact Bool.false_ne_true hnot.2.symm
    have hfits := h.fits
    rw [fetch, if_neg (by simp [h.buffers]), if_neg (by simp [h.available]), h.parses]
    dsimp only
    rw [haddress]
    dsimp only
    rw [if_neg hallocates, if_neg (by simp [hconnects]), if_neg (by omega)]

theorem authHeader_eq (token : Token) : authHeader token =
    if token.text = [] then [] else lit "Authorization: Bearer " ++ (token.text ++ Message.crlf) := by
  rw [authHeader]
  split
  · rfl
  · refine take_of_length_le ?_
    have hfits := token.fits
    have hstart : (lit "Authorization: Bearer ").length = 22 := by decide
    have hend : (lit "\r\n").length = 2 := by decide
    simp only [length_append, hstart, hend, tokenMax] at hfits ⊢
    omega

theorem requestHead_eq (token : Token) (cookieHeader : List UInt8) (url : Url)
    (method body : List UInt8) :
    requestHead token cookieHeader url method body.length ++ body =
      (⟨httpMethod method, url.path, listedLines token cookieHeader url method body.length, body⟩ :
        Request).bytes := by
  have hhost : lit " HTTP/1.1\r\nHost: " = Message.version ++ lit "Host: " := rfl
  have hfixed : fixedFields = Message.crlf ++ (lit "User-Agent: cleonos-browser/1.0" ++
      (Message.crlf ++ (lit "Accept: text/html,*/*" ++
        (Message.crlf ++ (lit "Accept-Encoding: identity" ++ Message.crlf))))) := rfl
  have hpost : lit "Content-Type: application/x-www-form-urlencoded\r\nContent-Length: " =
      lit "Content-Type: application/x-www-form-urlencoded" ++
        (Message.crlf ++ lit "Content-Length: ") := rfl
  have hlast : lit "Connection: close\r\n\r\n" =
      lit "Connection: close" ++ (Message.crlf ++ Message.crlf) := rfl
  have hend : lit "\r\n" = Message.crlf := rfl
  have hspace : lit " " = [32] := rfl
  have hlines : fixedFields ++ (authHeader token ++ (cookieField cookieHeader ++
      (postFields method body.length ++ lit "Connection: close\r\n\r\n"))) =
        Message.crlf ++ Message.headerBytes
          (listedLines token cookieHeader url method body.length).tail := by
    rw [hfixed, authHeader_eq, cookieField, postFields, hpost, hlast, hend, listedLines]
    split <;> split <;> split <;> simp [Message.headerBytes]
  rw [requestHead, hlines, hhost, hspace]
  simp [Request.bytes, listedLines, Message.headerBytes]

theorem digit_value : ∀ digit < 10, (UInt8.ofNat (48 + digit)).toNat - 48 = digit := by decide

theorem number_decimal (n : ℕ) : number (decimal n) = n := by
  induction n using Nat.strong_induction_on with
  | _ n ih =>
    rw [Libc.decimal_eq]
    split
    case isTrue h => 
      rw [number, foldl_cons, foldl_nil, digit_value n h, Nat.zero_mul, Nat.zero_add]
    case isFalse h =>
      rw [number_append, ih (n / 10) (by omega), digit_value _ (Nat.mod_lt _ (by decide))]
      omega

theorem bodyLength_listedLines (token : Token) (cookieHeader : List UInt8) (url : Url)
    (method : List UInt8) (bodyLen : ℕ) :
    bodyLength (listedLines token cookieHeader url method bodyLen) =
      if isPostMethod method then bodyLen else 0 := by
  have hfind : (listedLines token cookieHeader url method bodyLen).find? lengthField.isPrefixOf =
      if isPostMethod method then some (lengthField ++ decimal bodyLen) else none := by
    rw [listedLines]
    split <;> split <;> split <;> rfl
  rw [bodyLength, hfind]
  cases isPostMethod method
  · rfl
  · rw [if_pos rfl, if_pos rfl]
    dsimp only
    rw [drop_left, number_decimal]

theorem ne_nil_of_mem_listedLines {cookieHeader line : List UInt8} {bodyLen : ℕ}
    (h : line ∈ listedLines token cookieHeader url method bodyLen) : line ≠ [] := by
  have hnil : [] ∉ listedLines token cookieHeader url method bodyLen := by
    rw [listedLines]
    split <;> split <;> split <;> simp [lit]
  exact fun hline => hnil (hline ▸ h)

theorem unbroken_hostText (url : Url) : Unbroken (hostText url) ↔ Unbroken url.host := by
  have hport : Unbroken (58 :: decimal url.port) := by
    intro c hc
    rcases mem_cons.1 hc with rfl | hc
    · decide
    · obtain ⟨hlow, -⟩ := Libc.digit_of_mem_decimal hc
      exact ⟨fun h => absurd (h ▸ hlow) (by decide), fun h => absurd (h ▸ hlow) (by decide)⟩
  rw [hostText]
  split
  · rfl
  · rw [Message.unbroken_append_iff, and_iff_left hport]

theorem unbroken_listedLines (token : Token) (cookieHeader : List UInt8) (url : Url)
    (method : List UInt8) (bodyLen : ℕ) :
    (∀ line ∈ listedLines token cookieHeader url method bodyLen, Unbroken line) ↔
      Unbroken url.host ∧ Unbroken token.text ∧ Unbroken cookieHeader := by
  have hnumber : Unbroken (decimal bodyLen) := fun c hc => by
    obtain ⟨hlow, -⟩ := Libc.digit_of_mem_decimal hc
    exact ⟨fun h => absurd (h ▸ hlow) (by decide), fun h => absurd (h ▸ hlow) (by decide)⟩
  have hauth : (∀ line ∈ (if token.text = [] then []
      else [lit "Authorization: Bearer " ++ token.text]), Unbroken line) ↔ Unbroken token.text := by
    split
    case isTrue h => simp [h, Unbroken]
    case isFalse =>
      have hstart : Unbroken (lit "Authorization: Bearer ") := by decide
      simp [hstart]
  have hcookie : (∀ line ∈ (if cookieHeader = [] then [] else [lit "Cookie: " ++ cookieHeader]),
      Unbroken line) ↔ Unbroken cookieHeader := by
    split
    case isTrue h => simp [h, Unbroken]
    case isFalse =>
      have hstart : Unbroken (lit "Cookie: ") := by decide
      simp [hstart]
  have hpost : ∀ line ∈ (if isPostMethod method then
      [lit "Content-Type: application/x-www-form-urlencoded",
        lit "Content-Length: " ++ decimal bodyLen] else []), Unbroken line := by
    have htype : Unbroken (lit "Content-Type: application/x-www-form-urlencoded") := by decide
    have hlength : Unbroken (lit "Content-Length: ") := by decide
    split
    · simp [htype, hlength, hnumber]
    · simp
  have hfirst : Unbroken (lit "Host: ") ∧ Unbroken (lit "User-Agent: cleonos-browser/1.0") ∧
      Unbroken (lit "Accept: text/html,*/*") ∧ Unbroken (lit "Accept-Encoding: identity") ∧
      Unbroken (lit "Connection: close") := by decide
  obtain ⟨hhost, hagent, haccept, hencoding, hconnection⟩ := hfirst
  rw [listedLines]
  simp only [forall_mem_append, forall_mem_cons, not_mem_nil, hauth, hcookie,
    iff_true_intro hpost, Message.unbroken_append_iff, unbroken_hostText, hhost, hagent, haccept,
    hencoding, hconnection, true_and, and_true, and_assoc, IsEmpty.forall_iff, implies_true]

/-- Nothing that a request is put together from has a separator in it, and nothing but a POST has a
body. -/
structure Clean (token : Token) (run : List Response) (method body : List UInt8) (url : Url) :
    Prop where
  path : Word url.path
  host : Unbroken url.host
  token : Unbroken token.text
  cookies : ∀ e ∈ sent url cookieHeaderMax (jarAfter run),
    Unbroken e.cookie.name ∧ Unbroken e.cookie.value
  body : isPostMethod method = true ∨ body = []

theorem word_httpMethod (method : List UInt8) : Word (httpMethod method) := by
  have hpost : Word (lit "POST") := by decide
  have hget : Word (lit "GET") := by decide
  rw [httpMethod]
  split
  · exact hpost
  · exact hget

theorem request_iff_clean (token : Token) (run : List Response) (method body : List UInt8)
    (url : Url) :
    (∃ r : Request, r.WellFormed ∧
        r.lines = listedLines token (buildHeader url (tableAfter run) cookieHeaderMax) url method
          body.length ∧
        r.bytes = requestHead token (buildHeader url (tableAfter run) cookieHeaderMax) url method
          body.length ++ body) ↔
      Clean token run method body url := by
  have hlen := bodyLength_listedLines token (buildHeader url (tableAfter run) cookieHeaderMax) url
    method body.length
  rw [requestHead_eq, Message.exists_request_iff (word_httpMethod method)
    (fun line => ne_nil_of_mem_listedLines) ?_, unbroken_listedLines, hlen]
  · have hcookies : Unbroken (buildHeader url (tableAfter run) cookieHeaderMax) ↔
        ∀ e ∈ sent url cookieHeaderMax (jarAfter run),
          Unbroken e.cookie.name ∧ Unbroken e.cookie.value := by
      rw [buildHeader_eq]
      refine (line_headerOf_iff _).trans ?_
      simp only [forall_mem_map, forall_mem_append]
      rfl
    have hbody : body.length = (if isPostMethod method then body.length else 0) ↔
        isPostMethod method = true ∨ body = [] := by
      cases isPostMethod method <;> simp
    rw [hcookies, hbody]
    exact ⟨fun ⟨hpath, ⟨hhost, htoken, hcookies⟩, hbody⟩ => ⟨hpath, hhost, htoken, hcookies, hbody⟩,
      fun h => ⟨h.path, ⟨h.host, h.token, h.cookies⟩, h.body⟩⟩
  · rw [hlen]
    split
    · exact le_rfl
    · exact Nat.zero_le _

/-- For every URL, method and body, and the cookies that any responses stored: what a fetch sends is
one request exactly if it sends nothing, or what it is put together from is clean. -/
theorem integral_iff (net : Net) (token : Token) (run : List Response)
    (urlText method body : List UInt8) :
    Integral net token (tableAfter run) urlText method body ↔
      ∀ url, Issues net token (tableAfter run) urlText method body url →
        Clean token run method body url := by
  constructor
  · intro h url hissues
    obtain ⟨url', hparse, r, hr, hlines, hbytes⟩ := h _ ((fetch_eq_ok_iff _).2 ⟨url, hissues, rfl⟩)
    obtain rfl : url = url' := Option.some.inj (hissues.parses.symm.trans hparse)
    exact (request_iff_clean token run method body url).1 ⟨r, hr, hlines, hbytes⟩
  · intro h bytes hbytes
    obtain ⟨url, hissues, rfl⟩ := (fetch_eq_ok_iff bytes).1 hbytes
    obtain ⟨r, hr, hlines, hbytes⟩ := (request_iff_clean token run method body url).2 (h url hissues)
    exact ⟨url, hissues.parses, r, hr, hlines, hbytes⟩

/-- A network on which everything succeeds. -/
def openNet : Net := ⟨true, true, fun _ => some 1, true, fun _ _ => true, []⟩

/-- A link with a space in it: the request line has a space in its target. -/
theorem not_integral :
    ∃ urlText, resolveHref (lit "http://h/") (lit "/a b") sourceMax = some urlText ∧
      ¬ Integral openNet clearToken (tableAfter []) urlText (lit "GET") [] := by
  have hissues : Issues openNet clearToken (tableAfter []) (lit "http://h/a b") (lit "GET") []
      ⟨lit "h", lit "/a b", 80, false⟩ :=
    ⟨rfl, rfl, by decide, ⟨1, by decide, rfl⟩, fun _ => rfl, by decide +kernel⟩
  refine ⟨lit "http://h/a b", by decide, fun h => ?_⟩
  obtain ⟨url, hparse, r, hr, hlines, hbytes⟩ := h _ ((fetch_eq_ok_iff _).2 ⟨_, hissues, rfl⟩)
  obtain rfl := Option.some.inj (hissues.parses.symm.trans hparse)
  have hclean := (request_iff_clean clearToken [] (lit "GET") [] _).1 ⟨r, hr, hlines, hbytes⟩
  exact absurd hclean.path (by decide)

end Cleonos.Browser
