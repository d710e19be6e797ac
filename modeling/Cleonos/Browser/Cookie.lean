import Mathlib.Data.List.GetD
import Cleonos.Browser.Chunked
import Cleonos.Browser.Url
import Cleonos.Lib.Keyed

/-!
# The cookie table of the browser

`browser_cookie.c`: which cookies a response stores, in which slot of the table, and the `Cookie`
header of a request.
-/

namespace Cleonos.Browser

section

open List

section

def cookieMax : ℕ := 24
def cookieNameMax : ℕ := 48
def cookieValueMax : ℕ := 128
def cookieDomainMax : ℕ := 128
def cookiePathMax : ℕ := 96
def cookieHeaderMax : ℕ := 512

/-- `ush_browser_ascii_tolower`. -/
def asciiTolower (ch : UInt8) : UInt8 := if 65 ≤ ch ∧ ch ≤ 90 then ch - 65 + 97 else ch

/-- `ush_browser_cookie_streq_icase`. -/
def streqIcase : List UInt8 → List UInt8 → Bool
  | [], [] => true
  | c :: left, d :: right => asciiTolower c = asciiTolower d && streqIcase left right
  | _, _ => false

/-- `ush_browser_cookie_starts_with_icase`. -/
def startsWithIcase : List UInt8 → List UInt8 → Bool
  | _, [] => true
  | [], _ :: _ => false
  | c :: text, d :: start => asciiTolower c = asciiTolower d && startsWithIcase text start

/-- What is taken off at both ends of a text. -/
def isTrimmed (c : UInt8) : Bool := c = 32 || c = 9 || c = 13 || c = 10

/-- The string that `ush_browser_cookie_copy_trimmed` leaves in a buffer of `size` bytes. -/
def copyTrimmed (size : ℕ) (text : List UInt8) : List UInt8 :=
  cstr (cut size ((text.dropWhile isTrimmed).rdropWhile isTrimmed))

/-- A domain without its leading dot. -/
def stripDot (domain : List UInt8) : List UInt8 :=
  if domain.headD 0 = 46 then domain.drop 1 else domain

/-- `ush_browser_cookie_domain_matches`. -/
def domainMatches (host domain : List UInt8) : Bool :=
  if host = [] ∨ domain = [] then false
  else if streqIcase host domain then true
  else
    let name := stripDot domain
    if name = [] ∨ host.length ≤ name.length then false
    else if host.getD (host.length - name.length - 1) 0 ≠ 46 then false
    else streqIcase (host.drop (host.length - name.length)) name

/-- `ush_browser_cookie_path_matches`. -/
def pathMatches (requestPath cookiePath : List UInt8) : Bool :=
  cookiePath ≠ [] && cookiePath.isPrefixOf requestPath

/-- `ush_browser_cookie_default_path`. -/
def defaultPath (requestPath : List UInt8) (size : ℕ) : List UInt8 :=
  if requestPath.headD 0 ≠ 47 then [47]
  else
    let i := (requestPath.rdropWhile (· ≠ 47)).length
    cut size (requestPath.take (if i = 1 then 1 else i - 1))

/-- `ush_browser_cookie`. -/
structure Cookie where
  name : List UInt8
  value : List UInt8
  domain : List UInt8
  path : List UInt8
  secure : Bool
  deriving DecidableEq, Repr

/-! ## Storing -/

/-- An attribute behind the pair of name and value that is not ignored. -/
inductive Attribute
  | secure
  | domain (text : List UInt8)
  | path (text : List UInt8)
  deriving DecidableEq, Repr

/-- What stands behind the `=` of an attribute. -/
def attributeValue (attr : List UInt8) : List UInt8 := (attr.dropWhile (· ≠ 61)).drop 1

/-- One round of the attribute loop of `ush_browser_cookie_store_one`. -/
def parseAttribute (attr : List UInt8) : Option Attribute :=
  if streqIcase attr (lit "secure") then some .secure
  else if startsWithIcase attr (lit "domain=") then
    if attributeValue attr = [] then none
    else some (.domain (copyTrimmed cookieDomainMax (attributeValue attr)))
  else if startsWithIcase attr (lit "path=") then
    if attributeValue attr = [] then none
    else some (.path (copyTrimmed cookiePathMax (attributeValue attr)))
  else none

/-- The attributes of a `Set-Cookie` value: what stands between its semicolons. -/
def attributes (value : List UInt8) : List Attribute :=
  (((value.splitOn 59).drop 1).map (copyTrimmed 128)).filterMap fun attr =>
    if attr = [] then none else parseAttribute attr

/-- What the attributes decide. -/
structure Scope where
  domain : List UInt8
  path : List UInt8
  secure : Bool
  deriving DecidableEq, Repr

/-- A later attribute of one kind takes the place of an earlier one. -/
def Scope.set (scope : Scope) : Attribute → Scope
  | .secure => { scope with secure := true }
  | .domain text => { scope with domain := text }
  | .path text => { scope with path := text }

/-- The scope of a cookie that comes from this URL. -/
def scopeOf (url : Url) (attrs : List Attribute) : Scope :=
  attrs.foldl Scope.set ⟨cut cookieDomainMax url.host, defaultPath url.path cookiePathMax, false⟩

/-- `ush_browser_cookie_store_one`, up to the slot. -/
def parseCookie (url : Url) (value : List UInt8) : Option Cookie :=
  let pair := copyTrimmed (cookieNameMax + cookieValueMax + 8) (value.takeWhile (· ≠ 59))
  let eqPos := (pair.takeWhile (· ≠ 61)).length
  if pair.getD eqPos 0 ≠ 61 ∨ eqPos = 0 then none
  else
    let name := copyTrimmed cookieNameMax (pair.take eqPos)
    let text := copyTrimmed cookieValueMax (pair.drop (eqPos + 1))
    let scope := scopeOf url (attributes value)
    if name = [] ∨ scope.domain = [] ∨ scope.path = [] then none
    else some ⟨name, text, scope.domain, scope.path, scope.secure⟩

/-- Whether a cookie stands in the slot of `c`. -/
def sameSlot (c cookie : Cookie) : Bool :=
  streqIcase cookie.name c.name && streqIcase cookie.domain c.domain && cookie.path = c.path

/-- `ush_browser_cookie_find_slot`, and `c` written into the slot. -/
def storeAt (table : List Cookie) (c : Cookie) : List Cookie :=
  match table.findIdx? (sameSlot c) with
  | some i => table.set i c
  | none => if table.length < cookieMax then table ++ [c] else table.set (cookieMax - 1) c

/-- `ush_browser_cookie_store_one`. -/
def storeOne (url : Url) (table : List Cookie) (value : List UInt8) : List Cookie :=
  match parseCookie url value with
  | none => table
  | some c => storeAt table c

/-- The bytes of a response up to and with its first blank line. -/
def headerPart : List UInt8 → Option (List UInt8)
  | [] => none
  | c :: raw =>
    if [13, 10, 13, 10].isPrefixOf (c :: raw) then some [13, 10, 13, 10]
    else (headerPart raw).map (c :: ·)

/-- The lines of the header; the budget is one more than its length. -/
def headerLines : ℕ → List UInt8 → List (List UInt8)
  | 0, _ => []
  | fuel + 1, rest =>
    match crlfIndex rest with
    | none => []
    | some i => rest.take i :: headerLines fuel (rest.drop (i + 2))

/-- The values of the `Set-Cookie` lines of a response. -/
def setCookieValues (raw : List UInt8) : List (List UInt8) :=
  match headerPart raw with
  | none => []
  | some header =>
    ((headerLines (header.length + 1) header).filter fun line =>
      line.length > 11 && startsWithIcase line (lit "Set-Cookie:")).map (·.drop 11)

/-- `ush_browser_cookie_store_from_response`. -/
def storeFromResponse (table : List Cookie) (url : Url) (raw : List UInt8) : List Cookie :=
  (setCookieValues raw).foldl (storeOne url) table

/-- The loop of `ush_browser_cookie_build_header`. What is added fits behind `out`. -/
def headerLoop (url : Url) (size : ℕ) : List Cookie → Bool → List UInt8 → List UInt8
  | [], _, out => out
  | cookie :: table, first, out =>
    if cookie.name = [] ∨ cookie.value = [] then headerLoop url size table first out
    else if cookie.secure = true ∧ url.tls = false then headerLoop url size table first out
    else if domainMatches url.host cookie.domain = false ∨
        pathMatches url.path cookie.path = false then headerLoop url size table first out
    else
      let need := cookie.name.length + cookie.value.length + (if first then 2 else 4)
      if out.length + need + 1 > size then out
      else headerLoop url size table false
        (out ++ (if first then [] else lit "; ") ++ cookie.name ++ [61] ++ cookie.value)

/-- `ush_browser_cookie_build_header`, for a buffer of `size` bytes. -/
def buildHeader (url : Url) (table : List Cookie) (size : ℕ) : List UInt8 :=
  headerLoop url size table true []

end

variable {c d : Cookie} {host host' domain domain' left right : List UInt8} {table : List Cookie}

def lower (text : List UInt8) : List UInt8 := text.map asciiTolower

@[simp] theorem length_lower (text : List UInt8) : (lower text).length = text.length :=
  length_map _

@[simp] theorem lower_eq_nil_iff {text : List UInt8} : lower text = [] ↔ text = [] :=
  map_eq_nil_iff

theorem asciiTolower_eq_dot_iff (ch : UInt8) : asciiTolower ch = 46 ↔ ch = 46 := by
  rw [asciiTolower]
  grind

theorem streqIcase_iff : streqIcase left right = true ↔ lower left = lower right := by
  induction left generalizing right with
  | nil => cases right <;> simp [streqIcase, lower]
  | cons c left ih =>
    cases right with
    | nil => simp [streqIcase, lower]
    | cons d right =>
      rw [streqIcase, Bool.and_eq_true, decide_eq_true_iff, ih]
      exact cons_eq_cons.symm

theorem lower_stripDot (domain : List UInt8) :
    lower (stripDot domain) = stripDot (lower domain) := by
  cases domain with
  | nil => rfl
  | cons c domain =>
    have hdot := asciiTolower_eq_dot_iff c
    by_cases hc : c = 46
    · have hc' : asciiTolower c = 46 := hdot.2 hc
      simp only [stripDot, lower, map_cons, headD_cons, if_pos hc, if_pos hc',
        drop_one, tail_cons]
    · have hc' : asciiTolower c ≠ 46 := fun h => hc (hdot.1 h)
      simp [stripDot, lower, hc, hc']

theorem suffix_iff (name : List UInt8) :
    (¬ host.length ≤ name.length ∧ host.getD (host.length - name.length - 1) 0 = 46 ∧
      streqIcase (host.drop (host.length - name.length)) name = true) ↔
      46 :: lower name <:+ lower host := by
  rw [streqIcase_iff]
  constructor
  · rintro ⟨hlen, hdot, hname⟩
    have hlt : host.length - name.length - 1 < host.length := by omega
    have hsub : host.length - name.length = host.length - name.length - 1 + 1 := by omega
    rw [getD_eq_getElem _ _ hlt] at hdot
    have hdrop : host.drop (host.length - name.length - 1) =
        46 :: host.drop (host.length - name.length) := by
      rw [drop_eq_getElem_cons hlt, hdot, ← hsub]
    have hlower : 46 :: lower name = lower (host.drop (host.length - name.length - 1)) := by
      rw [hdrop, ← hname]
      rfl
    rw [hlower, lower, lower, map_drop]
    exact drop_suffix _ _
  · intro h
    obtain ⟨front, hfront⟩ := h
    have hlen := congrArg List.length hfront
    rw [length_append, length_cons, length_lower, length_lower] at hlen
    have hlt : host.length - name.length - 1 < host.length := by omega
    have hsub : host.length - name.length - 1 = front.length := by omega
    have hsub' : host.length - name.length = front.length + 1 := by omega
    refine ⟨by omega, ?_, ?_⟩
    · rw [getD_eq_getElem _ _ hlt, ← asciiTolower_eq_dot_iff]
      have hget : (lower host)[host.length - name.length - 1]? = some 46 := by
        rw [← hfront, hsub]
        simp
      rw [lower, List.getElem?_map, List.getElem?_eq_getElem hlt, Option.map_some] at hget
      exact Option.some.inj hget
    · rw [lower, map_drop, ← lower, ← hfront, hsub']
      simp

theorem domainMatches_iff :
    domainMatches host domain = true ↔
      host ≠ [] ∧ domain ≠ [] ∧ (lower host = lower domain ∨
        stripDot domain ≠ [] ∧ 46 :: lower (stripDot domain) <:+ lower host) := by
  rw [← suffix_iff, ← streqIcase_iff, domainMatches]
  by_cases hempty : host = [] ∨ domain = []
  · rw [if_pos hempty]
    simp only [Bool.false_eq_true, false_iff]
    rintro ⟨hhost, hdomain, -⟩
    exact hempty.elim hhost hdomain
  rw [if_neg hempty]
  rw [not_or] at hempty
  by_cases hsame : streqIcase host domain = true
  · rw [if_pos hsame]
    exact iff_of_true rfl ⟨hempty.1, hempty.2, .inl hsame⟩
  rw [if_neg hsame]
  simp only [hempty.1, hempty.2, hsame, ne_eq, not_false_eq_true, true_and, Bool.false_eq_true,
    false_or]
  split
  case isTrue hname =>
    simp only [Bool.false_eq_true, false_iff]
    rintro ⟨hne, hlen, -⟩
    exact hname.elim hne hlen
  case isFalse hname =>
    rw [not_or] at hname
    split
    case isTrue hdot =>
      simp only [Bool.false_eq_true, false_iff]
      rintro ⟨-, -, hdot', -⟩
      exact hdot hdot'
    case isFalse hdot =>
      rw [not_not] at hdot
      exact ⟨fun h => ⟨hname.1, hname.2, hdot, h⟩, fun h => h.2.2.2⟩

theorem domainMatches_congr_domain (h : lower domain = lower domain') :
    domainMatches host domain = domainMatches host domain' := by
  have hnil : domain = [] ↔ domain' = [] := by rw [← lower_eq_nil_iff, h, lower_eq_nil_iff]
  have hstrip : lower (stripDot domain) = lower (stripDot domain') := by
    rw [lower_stripDot, lower_stripDot, h]
  have hstrip' : stripDot domain = [] ↔ stripDot domain' = [] := by
    rw [← lower_eq_nil_iff, hstrip, lower_eq_nil_iff]
  rw [Bool.eq_iff_iff, domainMatches_iff, domainMatches_iff, h, hstrip, ne_eq, ne_eq, ne_eq, ne_eq,
    hnil, hstrip']

theorem domainMatches_congr_host (h : lower host = lower host') :
    domainMatches host domain = domainMatches host' domain := by
  have hnil : host = [] ↔ host' = [] := by rw [← lower_eq_nil_iff, h, lower_eq_nil_iff]
  rw [Bool.eq_iff_iff, domainMatches_iff, domainMatches_iff, h, ne_eq, ne_eq, hnil]

theorem getLast?_of_domainMatches (h : domainMatches host domain = true) :
    (lower domain).getLast? = (lower host).getLast? := by
  obtain ⟨-, -, hsame | ⟨hne, front, hfront⟩⟩ := domainMatches_iff.1 h
  · rw [hsame]
  · have hlower : lower (stripDot domain) ≠ [] := by simpa using hne
    have hdomain : (lower domain).getLast? = (lower (stripDot domain)).getLast? := by
      rw [stripDot] at hne ⊢
      split at hne
      case isFalse hdot => rw [if_neg hdot]
      case isTrue hdot =>
        rw [if_pos hdot]
        cases domain with
        | nil => rfl
        | cons c domain =>
          rw [drop_one, tail_cons] at hne ⊢
          rw [lower, map_cons, List.getLast?_cons_of_ne_nil (by simpa using hne), lower]
    rw [hdomain, ← hfront, List.getLast?_append_of_ne_nil _ (cons_ne_nil _ _),
      List.getLast?_cons_of_ne_nil hlower]

/-- What finds the slot of a cookie. -/
def Cookie.key (c : Cookie) : List UInt8 × List UInt8 × List UInt8 :=
  (lower c.name, lower c.domain, c.path)

theorem sameSlot_iff : sameSlot c d = true ↔ d.key = c.key := by
  simp only [sameSlot, Cookie.key, Bool.and_eq_true, streqIcase_iff, decide_eq_true_eq,
    Prod.mk.injEq, and_assoc]

theorem storeAt_eq_put : storeAt table c = Keyed.put Cookie.key cookieMax c table := by
  rw [storeAt, Keyed.put]
  cases hidx : table.findIdx? (sameSlot c) with
  | some i =>
    have hset := Keyed.set_findIdx? (p := sameSlot c) (fun _ => sameSlot_iff) hidx
    have hfits : Keyed.Fits Cookie.key cookieMax c table := .inl hset.1
    rw [if_pos hfits]
    exact hset.2
  | none =>
    have hkey : c.key ∉ table.map Cookie.key := by
      rw [mem_map]
      rintro ⟨d, hd, hkey⟩
      have hne := List.findIdx?_eq_none_iff.1 hidx d hd
      exact Bool.false_ne_true (hne.symm.trans (sameSlot_iff.2 hkey))
    by_cases hlen : table.length < cookieMax
    · have hfits : Keyed.Fits Cookie.key cookieMax c table := .inr hlen
      rw [if_pos hlen, if_pos hfits, Keyed.upsert_of_notMem hkey]
    · have hfull : ¬ Keyed.Fits Cookie.key cookieMax c table := not_or.2 ⟨hkey, hlen⟩
      rw [if_neg hlen, if_neg hfull]

/-- A response and the URL that was asked for it. -/
structure Response where
  url : Url
  raw : List UInt8

/-- A response of a host to a request for its root, with a line of the header for each cookie. -/
def responseOf (host : String) (cookies : List String) : Response :=
  ⟨⟨lit host, lit "/", 80, false⟩,
    lit "HTTP/1.1 200 OK\r\n" ++ (cookies.flatMap fun cookie => lit "Set-Cookie: " ++ lit cookie ++
      lit "\r\n") ++ lit "\r\n"⟩

/-- The cookies that a response stores. -/
def setCookies (response : Response) : List Cookie :=
  (setCookieValues response.raw).filterMap (parseCookie response.url)

/-- The table behind responses, from the empty one. -/
def tableAfter (run : List Response) : List Cookie :=
  run.foldl (fun table response => storeFromResponse table response.url response.raw) []

theorem storeFromResponse_eq (table : List Cookie) (response : Response) :
    storeFromResponse table response.url response.raw =
      Keyed.runFrom Cookie.key cookieMax table (setCookies response) := by
  rw [storeFromResponse, setCookies, Keyed.runFrom, foldl_filterMap]
  congr 1
  funext table value
  rw [storeOne]
  cases parseCookie response.url value with
  | none => rfl
  | some c => exact storeAt_eq_put

theorem tableAfter_eq (run : List Response) :
    tableAfter run = Keyed.runFrom Cookie.key cookieMax [] (run.flatMap setCookies) := by
  rw [tableAfter, Keyed.runFrom, foldl_flatMap]
  congr 1
  funext table response
  exact storeFromResponse_eq table response

end

/-! ## Cookies of two sites -/

open List

/-- Responses, with a mark on those that the second browser does not get. -/
abbrev Marked := List (Bool × Response)

/-- The cookies that the responses store, with the marks. -/
def stores (run : Marked) : List (Bool × Cookie) :=
  run.flatMap fun e => (setCookies e.2).map fun c => (e.1, c)

/-- The marked responses come from `host`. -/
def MarkedFrom (host : List UInt8) (run : Marked) : Prop :=
  ∀ e ∈ run, e.1 = true → streqIcase e.2.url.host host = true

/-- No marked response stores a cookie for a domain that `host` matches and its own host does
not. -/
def NoForeign (host : List UInt8) (run : Marked) : Prop :=
  ∀ e ∈ run, e.1 = true → ∀ c ∈ setCookies e.2,
    domainMatches host c.domain = true → domainMatches e.2.url.host c.domain = true

/-- From the first cookie of a marked response on, no cookie comes to a full table without a
slot of its own there. -/
def HasRoom (run : Marked) : Prop := Keyed.Room Cookie.key cookieMax false [] (stores run)

/-- The two browsers send the same cookies to `host`, after every number of responses. -/
def Isolated (host : List UInt8) (run : Marked) : Prop :=
  ∀ (n : ℕ) (url : Url) (size : ℕ), streqIcase url.host host = true →
    buildHeader url (tableAfter ((run.take n).map Prod.snd)) size =
      buildHeader url (tableAfter (Keyed.kept (run.take n))) size

instance (host : List UInt8) (run : Marked) : Decidable (MarkedFrom host run) :=
  inferInstanceAs (Decidable (∀ _ ∈ _, _))

instance (host : List UInt8) (run : Marked) : Decidable (NoForeign host run) :=
  inferInstanceAs (Decidable (∀ _ ∈ _, _))

instance (run : Marked) : Decidable (HasRoom run) :=
  inferInstanceAs (Decidable (Keyed.Room _ _ _ _ _))

variable {a b : List UInt8} {run : Marked}

theorem stores_take (n : ℕ) (run : Marked) :
    stores run = stores (run.take n) ++ stores (run.drop n) := by
  rw [stores, stores, stores, ← flatMap_append, take_append_drop]

theorem map_stores (run : Marked) :
    (stores run).map Prod.snd = (run.map Prod.snd).flatMap setCookies := by
  induction run with
  | nil => rfl
  | cons e run ih =>
    have hhead : stores (e :: run) = (setCookies e.2).map (fun c => (e.1, c)) ++ stores run := rfl
    rw [hhead, map_append, ih, map_map, map_cons, flatMap_cons]
    simp [Function.comp_def]

theorem kept_stores (run : Marked) :
    Keyed.kept (stores run) = (Keyed.kept run).flatMap setCookies := by
  induction run with
  | nil => rfl
  | cons e run ih =>
    have hhead : stores (e :: run) = (setCookies e.2).map (fun c => (e.1, c)) ++ stores run := rfl
    obtain ⟨marked, response⟩ := e
    rw [hhead, Keyed.kept_append, ih]
    cases marked with
    | true => simp [Keyed.kept]
    | false => simp [Keyed.kept, filter_map, Function.comp_def]

theorem headerLoop_filter (url : Url) (size : ℕ) (table : List Cookie) (first : Bool)
    (out : List UInt8) :
    headerLoop url size (table.filter fun c => domainMatches url.host c.domain) first out =
      headerLoop url size table first out := by
  induction table generalizing first out with
  | nil => rfl
  | cons c table ih =>
    cases hc : domainMatches url.host c.domain with
    | true =>
      rw [filter_cons_of_pos (by exact hc), headerLoop, headerLoop]
      simp only [ih]
    | false =>
      have hskip : domainMatches url.host c.domain = false ∨
          pathMatches url.path c.path = false := .inl hc
      rw [filter_cons_of_neg (by simp [hc]), ih, headerLoop]
      simp only [if_pos hskip, ite_self]

theorem not_matches_of_mem_stores (hab : ∀ d, domainMatches a d = true → domainMatches b d = false)
    (hmarked : MarkedFrom a run) (hforeign : NoForeign b run) {e : Bool × Cookie}
    (he : e ∈ stores run) (hout : e.1 = true) : domainMatches b e.2.domain = false := by
  obtain ⟨response, hresponse, he⟩ := mem_flatMap.1 he
  obtain ⟨c, hc, rfl⟩ := mem_map.1 he
  have hhost := streqIcase_iff.1 (hmarked response hresponse hout)
  have hown := hforeign response hresponse hout c hc
  rw [domainMatches_congr_host hhost] at hown
  cases hb : domainMatches b c.domain with
  | false => rfl
  | true => exact hb.symm.trans (hab _ (hown hb))

theorem matches_eq_of_key (host : List UInt8) (c d : Cookie) (h : c.key = d.key) :
    domainMatches host c.domain = domainMatches host d.domain :=
  domainMatches_congr_domain (congrArg (fun key => key.2.1) h)

theorem HasRoom.take (n : ℕ) (h : HasRoom run) : HasRoom (run.take n) := by
  rw [HasRoom, stores_take n] at h
  exact h.of_append

theorem no_common_domain (h : (lower a).getLast? ≠ (lower b).getLast?) (d : List UInt8)
    (ha : domainMatches a d = true) : domainMatches b d = false := by
  cases hb : domainMatches b d with
  | false => rfl
  | true =>
    have hsame := (getLast?_of_domainMatches ha).symm.trans (getLast?_of_domainMatches hb)
    exact absurd hsame h

/-- Cookie isolation of a site: what another host stores changes no header for this one, in any
run in which the other host keeps to its own domains and the table has a slot for each cookie. -/
theorem cookies_isolated (hab : ∀ d, domainMatches a d = true → domainMatches b d = false)
    (hmarked : MarkedFrom a run) (hforeign : NoForeign b run) (hroom : HasRoom run) :
    Isolated b run := by
  intro n url size hurl
  have hmem : ∀ e ∈ stores (run.take n), e.1 = true → domainMatches b e.2.domain = false := by
    intro e he hout
    have hrun : e ∈ stores run := by
      rw [stores_take n]
      exact mem_append_left _ he
    exact not_matches_of_mem_stores hab hmarked hforeign hrun hout
  have hfilter := Keyed.filter_runs (P := fun c => domainMatches b c.domain)
    (matches_eq_of_key b) hmem (hroom.take n)
  have hhost : (fun c : Cookie => domainMatches b c.domain) =
      fun c => domainMatches url.host c.domain := by
    funext c
    exact domainMatches_congr_host (streqIcase_iff.1 hurl).symm
  rw [map_stores, kept_stores, ← tableAfter_eq, ← tableAfter_eq, hhost] at hfilter
  rw [buildHeader, ← headerLoop_filter, hfilter, headerLoop_filter, buildHeader]

theorem responses_isolated :
    Isolated (lit "b.org") [(false, responseOf "b.org" ["t=2"]),
      (true, responseOf "www.a.com" ["s=1; Domain=.a.com", "s=2"]),
      (false, responseOf "c.b.org" ["u=3; Domain=B.ORG"])] :=
  cookies_isolated (a := lit "www.a.com") (no_common_domain (by decide +kernel))
    (by decide +kernel) (by decide +kernel) (by decide +kernel)

/-- In the first run `a.com` stores a cookie for `b.org`. In the second one it stores one of its
own, over the last of the 24 cookies of `b.org`. -/
theorem foreign_not_isolated :
    (∀ d, domainMatches (lit "a.com") d = true → domainMatches (lit "b.org") d = false) ∧
      MarkedFrom (lit "a.com") [(true, responseOf "a.com" ["s=1; Domain=b.org"])] ∧
      ¬ Isolated (lit "b.org") [(true, responseOf "a.com" ["s=1; Domain=b.org"])] ∧
      MarkedFrom (lit "a.com") [(false, responseOf "b.org" ["a=1", "b=1", "c=1", "d=1", "e=1",
        "f=1", "g=1", "h=1", "i=1", "j=1", "k=1", "l=1", "m=1", "n=1", "o=1", "p=1", "q=1", "r=1",
        "s=1", "t=1", "u=1", "v=1", "w=1", "x=1"]), (true, responseOf "a.com" ["s=1"])] ∧
      ¬ Isolated (lit "b.org") [(false, responseOf "b.org" ["a=1", "b=1", "c=1", "d=1", "e=1",
        "f=1", "g=1", "h=1", "i=1", "j=1", "k=1", "l=1", "m=1", "n=1", "o=1", "p=1", "q=1", "r=1",
        "s=1", "t=1", "u=1", "v=1", "w=1", "x=1"]), (true, responseOf "a.com" ["s=1"])] := by
  refine ⟨no_common_domain (by decide +kernel), by decide +kernel, fun h => ?_, by decide +kernel,
    fun h => ?_⟩
  · exact absurd (h 1 ⟨lit "b.org", lit "/", 80, false⟩ 512 (by decide +kernel)) (by decide +kernel)
  · exact absurd (h 2 ⟨lit "b.org", lit "/", 80, false⟩ 512 (by decide +kernel)) (by decide +kernel)

end Cleonos.Browser
