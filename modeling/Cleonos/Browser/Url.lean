import Cleonos.Libc.Stdlib
import Mathlib.Data.List.DropRight

/-!
# URLs of the browser

`browser_url_parse.c` and `browser_url.c`: how a URL is taken apart, and how the target of a link
is found from the page that it is on.
-/

namespace Cleonos.Browser

open Libc (isspace decimal)

def sourceMax : ℕ := 256
def hostMax : ℕ := 128
def pathMax : ℕ := 256
def hrefMax : ℕ := 192
def segMax : ℕ := 32
def segLenMax : ℕ := 63
def ushPathMax : ℕ := 192

/-- The string in a buffer of `size` bytes after `ush_copy`, or after `snprintf` with this
text. -/
def cut (size : ℕ) (text : List UInt8) : List UInt8 := text.take (size - 1)

/-! ## browser_url_parse.c -/

/-- `ush_browser_is_http_url`. -/
def isHttpUrl (text : List UInt8) : Bool := (lit "http://").isPrefixOf text

/-- `ush_browser_is_https_url`. -/
def isHttpsUrl (text : List UInt8) : Bool := (lit "https://").isPrefixOf text

def isDigit (c : UInt8) : Bool := 48 ≤ c && c ≤ 57

/-- The loop of `ush_parse_u64_dec`. -/
def parseU64Loop : List UInt8 → ℕ → Option ℕ
  | [], value => some value
  | c :: text, value =>
    if isDigit c = false then none
    else
      let digit := c.toNat - 48
      if value > (2 ^ 64 - 1 - digit) / 10 then none else parseU64Loop text (value * 10 + digit)

/-- `ush_parse_u64_dec`. -/
def parseU64Dec (text : List UInt8) : Option ℕ := if text = [] then none else parseU64Loop text 0

/-- `ush_browser_url`. -/
structure Url where
  host : List UInt8
  path : List UInt8
  port : ℕ
  tls : Bool
  deriving DecidableEq, Repr

/-- The host and the port of the part in front of the path; the first colon parts them. -/
def parseHost (host : List UInt8) (port : ℕ) : Option (List UInt8 × ℕ) :=
  let name := host.takeWhile (· ≠ 58)
  if name.length = host.length then some (host, port)
  else if name.length = 0 ∨ name.length + 1 ≥ host.length then none
  else
    match parseU64Dec (host.drop (name.length + 1)) with
    | none => none
    | some parsed => if parsed = 0 ∨ parsed > 65535 then none else some (name, parsed)

/-- `ush_browser_parse_url`. -/
def parseUrl (url : List UInt8) : Option Url :=
  let scheme : Option (Bool × ℕ × ℕ) :=
    if isHttpUrl url then some (false, 80, 7)
    else if isHttpsUrl url then some (true, 443, 8)
    else none
  match scheme with
  | none => none
  | some (tls, port, schemeLen) =>
    let p := url.drop schemeLen
    let host := p.takeWhile (· ≠ 47)
    if host.length = 0 ∨ host.length ≥ hostMax then none
    else
      match parseHost host port with
      | none => none
      | some (name, port) =>
        if name = [] then none
        else
          let rest := p.dropWhile (· ≠ 47)
          let path := if rest = [] then [47] else rest
          if path.length ≥ pathMax then none else some ⟨name, path, port, tls⟩

/-- `ush_browser_strip_fragment`. -/
def stripFragment (text : List UInt8) (size : ℕ) : Option (List UInt8) :=
  let out := text.takeWhile (· ≠ 35)
  if out.length ≥ size then none else some out

/-- `ush_browser_copy_until_query_or_fragment`. -/
def copyUntilQueryOrFragment (text : List UInt8) (size : ℕ) : Option (List UInt8) :=
  let out := text.takeWhile fun c => c ≠ 63 ∧ c ≠ 35
  if out.length ≥ size then none else some out

/-- One segment of a path, behind those in `segments`. -/
def pushSegment (segments : List (List UInt8)) (segment : List UInt8) :
    Option (List (List UInt8)) :=
  if segment = [46] then some segments
  else if segment = [46, 46] then some segments.dropLast
  else if segment.length > segLenMax ∨ segments.length ≥ segMax then none
  else some (segments ++ [segment])

/-- The loop that writes the segments behind `out`. -/
def writeSegments (size : ℕ) : List UInt8 → List (List UInt8) → Option (List UInt8)
  | out, [] => some out
  | out, segment :: segments =>
    if out.length + segment.length + 1 ≥ size then none
    else writeSegments size (out ++ segment ++ (if segments = [] then [] else [47])) segments

/-- `ush_browser_normalize_slash_path`: its first loop takes what stands between slashes. -/
def normalizeSlashPath (path : List UInt8) (size : ℕ) : Option (List UInt8) :=
  if size < 2 then none
  else
    (((path.splitOn 47).filter (· ≠ [])).foldlM pushSegment []).bind fun segments =>
      writeSegments size [47] segments

/-- `ush_browser_join_relative_path`. -/
def joinRelativePath (basePath hrefPath : List UInt8) (size : ℕ) : Option (List UInt8) :=
  if hrefPath.headD 0 = 47 then normalizeSlashPath hrefPath size
  else
    (copyUntilQueryOrFragment basePath pathMax).bind fun baseClean =>
      if baseClean.contains 47 = false then
        normalizeSlashPath (cut (pathMax * 2) (47 :: hrefPath)) size
      else
        let dir := baseClean.rdropWhile (· ≠ 47)
        if dir.length + hrefPath.length + 1 > pathMax * 2 then none
        else normalizeSlashPath (dir ++ hrefPath) size

/-- `ush_copy` of a result, and whether it is not empty. -/
def copied (size : ℕ) (text : List UInt8) : Option (List UInt8) :=
  if cut size text = [] then none else some (cut size text)

/-- The scheme, host and port in front of a path. -/
def origin (base : Url) : List UInt8 :=
  let scheme := if base.tls then lit "https" else lit "http"
  let defaultPort := if base.tls then 443 else 80
  scheme ++ lit "://" ++ base.host ++
    (if base.port = defaultPort then [] else 58 :: decimal base.port)

/-- `ush_browser_resolve_http_href`. -/
def resolveHttpHref (baseSource href : List UInt8) (size : ℕ) : Option (List UInt8) :=
  (stripFragment href hrefMax).bind fun hrefNoFrag =>
    if hrefNoFrag = [] then copied size baseSource
    else if isHttpUrl hrefNoFrag ∨ isHttpsUrl hrefNoFrag then copied size hrefNoFrag
    else
      (parseUrl baseSource).bind fun base =>
        if hrefNoFrag.headD 0 = 47 ∧ hrefNoFrag.getD 1 0 = 47 then
          some (cut size ((if base.tls then lit "https" else lit "http") ++ lit ":" ++ hrefNoFrag))
        else if hrefNoFrag.headD 0 = 63 then
          (copyUntilQueryOrFragment base.path pathMax).map fun path =>
            cut size (origin base ++ path ++ hrefNoFrag)
        else
          (joinRelativePath base.path hrefNoFrag pathMax).map fun path =>
            cut size (origin base ++ path)

/-- `ush_browser_resolve_local_href`. -/
def resolveLocalHref (baseSource href : List UInt8) (size : ℕ) : Option (List UInt8) :=
  (stripFragment href hrefMax).bind fun hrefNoFrag =>
    if hrefNoFrag = [] then copied size baseSource
    else if hrefNoFrag.headD 0 = 47 then
      (normalizeSlashPath hrefNoFrag ushPathMax).bind (copied size)
    else
      let baseAbs := (normalizeSlashPath baseSource ushPathMax).getD (cut ushPathMax baseSource)
      if hrefNoFrag.headD 0 = 63 then copied size baseAbs
      else (joinRelativePath baseAbs hrefNoFrag ushPathMax).bind (copied size)

/-- `ush_browser_resolve_href`. -/
def resolveHref (baseSource href : List UInt8) (size : ℕ) : Option (List UInt8) :=
  if size = 0 then none
  else if isHttpUrl href ∨ isHttpsUrl href then copied size href
  else if isHttpUrl baseSource ∨ isHttpsUrl baseSource then resolveHttpHref baseSource href size
  else resolveLocalHref baseSource href size

end Cleonos.Browser
