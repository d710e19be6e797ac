import Cleonos.Browser.Cookie
import Cleonos.Lib.Collect
import Cleonos.Lib.Lines

/-!
# Which cookies are sent

The rules of RFC 6265 for the cookies of a request, beside those of
`ush_browser_cookie_build_header`.
-/

namespace Cleonos.Browser

open List

/-! ## The table -/

/-- A cookie of the table, and whether its `Set-Cookie` line was without a domain. -/
structure Stored where
  cookie : Cookie
  hostOnly : Bool
  deriving DecidableEq

/-- Whether a `Set-Cookie` value is without a domain. -/
def isHostOnly (value : List UInt8) : Bool :=
  (attributes value).all fun
    | .domain _ => false
    | _ => true

def parseStored (url : Url) (value : List UInt8) : Option Stored :=
  (parseCookie url value).map fun c => ⟨c, isHostOnly value⟩

def setStored (response : Response) : List Stored :=
  (setCookieValues response.raw).filterMap (parseStored response.url)

/-- The table behind responses, from the empty one. -/
def jarAfter (run : List Response) : List Stored :=
  Keyed.runFrom (fun e => e.cookie.key) cookieMax [] (run.flatMap setStored)

variable {url : Url} {run : List Response} {e : Stored} {front : List Stored} {size : ℕ}

theorem map_setStored (response : Response) :
    (setStored response).map Stored.cookie = setCookies response := by
  rw [setStored, map_filterMap, setCookies]
  congr 1
  funext value
  rw [parseStored, Option.map_map]
  exact Option.map_id'

theorem map_jarAfter (run : List Response) : (jarAfter run).map Stored.cookie = tableAfter run := by
  rw [jarAfter, Keyed.runFrom_map, tableAfter_eq, map_flatMap, map_nil]
  simp only [map_setStored]

theorem nodup_jarAfter (run : List Response) :
    ((jarAfter run).map fun e => e.cookie.key).Nodup :=
  (Keyed.WellKeyed.nil.runFrom _).nodup

variable {c : Cookie} {host domain : List UInt8}

theorem parseCookie_eq_some {value : List UInt8} (h : parseCookie url value = some c) :
    c.name ≠ [] ∧ c.domain ≠ [] ∧ c.path ≠ [] := by
  rw [parseCookie] at h
  split at h
  · cases h
  · dsimp only at h
    split at h
    case isTrue => cases h
    case isFalse hempty =>
      cases h
      rw [not_or, not_or] at hempty
      exact hempty

theorem mem_jarAfter (h : e ∈ jarAfter run) :
    e.cookie.name ≠ [] ∧ e.cookie.domain ≠ [] ∧ e.cookie.path ≠ [] := by
  obtain h | h := Keyed.mem_runFrom h
  · cases h
  · obtain ⟨response, -, hstored⟩ := mem_flatMap.1 h
    obtain ⟨value, -, hparse⟩ := mem_filterMap.1 hstored
    obtain ⟨c, hc, rfl⟩ := Option.map_eq_some_iff.1 hparse
    exact parseCookie_eq_some hc

/-- The text of a cookie in a header. -/
def Cookie.text (c : Cookie) : List UInt8 := c.name ++ [61] ++ c.value

/-- The header with these cookies. -/
def headerOf (cookies : List Cookie) : List UInt8 :=
  (lit "; ").intercalate (cookies.map Cookie.text)

/-- What `ush_browser_cookie_build_header` asks of a cookie, but for the room in the header. -/
def sends (url : Url) (c : Cookie) : Bool :=
  c.name ≠ [] && c.value ≠ [] && (!c.secure || url.tls) && domainMatches url.host c.domain &&
    pathMatches url.path c.path

/-- There is room for these cookies. -/
def hasRoom (size : ℕ) (cookies : List Cookie) : Bool := (headerOf cookies).length + 2 ≤ size

/-- The cookies that are sent. -/
def sent (url : Url) (size : ℕ) (jar : List Stored) : List Stored :=
  Collect.collect (fun e => sends url e.cookie)
    (fun taken => hasRoom size (taken.map Stored.cookie)) [] jar

theorem headerOf_append (cookies : List Cookie) (c : Cookie) :
    headerOf (cookies ++ [c]) =
      headerOf cookies ++ (if cookies = [] then [] else lit "; ") ++ c.name ++ [61] ++ c.value := by
  rw [headerOf, map_append, map_singleton]
  by_cases hc : cookies = []
  · simp [hc, headerOf, Cookie.text]
  · have hmap : cookies.map Cookie.text ≠ [] := by simpa using hc
    rw [Split.intercalate_append_last _ _ hmap, if_neg hc, headerOf, Cookie.text]
    simp only [append_assoc]

theorem length_headerOf_append (cookies : List Cookie) (c : Cookie) :
    (headerOf (cookies ++ [c])).length + 1 =
      (headerOf cookies).length +
        (c.name.length + c.value.length + (if cookies = [] then 2 else 4)) := by
  have hsep : (lit "; ").length = 2 := rfl
  rw [headerOf_append]
  split
  · simp only [length_append, length_cons, length_nil]
    omega
  · simp only [length_append, length_cons, length_nil, hsep]
    omega

theorem hasRoom_of_append (cookies more : List Cookie)
    (h : hasRoom size (cookies ++ more) = true) : hasRoom size cookies = true := by
  induction more using List.reverseRecOn with
  | nil => rwa [append_nil] at h
  | append_singleton more c ih =>
    refine ih ?_
    have hlen := length_headerOf_append (cookies ++ more) c
    rw [hasRoom, decide_eq_true_iff] at h ⊢
    rw [← append_assoc] at h
    split at hlen <;> omega

theorem sends_iff (c : Cookie) :
    sends url c = true ↔ c.name ≠ [] ∧ c.value ≠ [] ∧ (c.secure = true → url.tls = true) ∧
      domainMatches url.host c.domain = true ∧ pathMatches url.path c.path = true := by
  simp only [sends, Bool.and_eq_true, Bool.or_eq_true, decide_eq_true_eq, and_assoc, ne_eq,
    Bool.not_eq_true', imp_iff_not_or, Bool.not_eq_true]

theorem headerLoop_of_sends (h : sends url c = true) (table : List Cookie)
    (first : Bool) (out : List UInt8) : headerLoop url size (c :: table) first out =
      if out.length + (c.name.length + c.value.length + (if first then 2 else 4)) + 1 > size then
        out else headerLoop url size table false
        (out ++ (if first then [] else lit "; ") ++ c.name ++ [61] ++ c.value) := by
  obtain ⟨hname, hvalue, hsecure, hdomain, hpath⟩ := (sends_iff c).1 h
  rw [headerLoop, if_neg (not_or.2 ⟨hname, hvalue⟩), if_neg, if_neg]
  · simp [hdomain, hpath]
  · rintro ⟨htrue, hfalse⟩
    exact Bool.false_ne_true (hfalse.symm.trans (hsecure htrue))

theorem headerLoop_of_not_sends (h : ¬ sends url c = true) (table : List Cookie)
    (first : Bool) (out : List UInt8) :
    headerLoop url size (c :: table) first out = headerLoop url size table first out := by
  rw [headerLoop]
  by_cases hempty : c.name = [] ∨ c.value = []
  · rw [if_pos hempty]
  by_cases hsecure : c.secure = true ∧ url.tls = false
  · rw [if_neg hempty, if_pos hsecure]
  by_cases hmatch : domainMatches url.host c.domain = false ∨ pathMatches url.path c.path = false
  · rw [if_neg hempty, if_neg hsecure, if_pos hmatch]
  rw [not_or] at hempty hmatch
  refine absurd ((sends_iff c).2 ⟨hempty.1, hempty.2, fun htrue => ?_, ?_, ?_⟩) h
  · cases htls : url.tls with
    | true => rfl
    | false => exact absurd ⟨htrue, htls⟩ hsecure
  · exact eq_true_of_ne_false hmatch.1
  · exact eq_true_of_ne_false hmatch.2

theorem headerLoop_eq (taken jar : List Stored) :
    headerLoop url size (jar.map Stored.cookie) (taken = []) (headerOf (taken.map Stored.cookie)) =
      headerOf ((Collect.collect (fun e => sends url e.cookie)
        (fun taken => hasRoom size (taken.map Stored.cookie)) taken jar).map Stored.cookie) := by
  induction jar generalizing taken with
  | nil => rfl
  | cons e jar ih =>
    rw [Collect.collect, map_cons]
    by_cases hsends : sends url e.cookie = true
    · have hlen := length_headerOf_append (taken.map Stored.cookie) e.cookie
      have hempty : taken.map Stored.cookie = [] ↔ taken = [] := map_eq_nil_iff
      have hmap : (taken ++ [e]).map Stored.cookie = taken.map Stored.cookie ++ [e.cookie] :=
        map_append
      rw [headerLoop_of_sends hsends, if_pos hsends]
      simp only [hempty] at hlen
      simp only [decide_eq_true_eq]
      by_cases hroom : hasRoom size ((taken ++ [e]).map Stored.cookie) = true
      · have hnext := ih (taken ++ [e])
        rw [hmap, headerOf_append] at hnext
        simp only [hempty] at hnext
        have hle := hroom
        rw [hasRoom, decide_eq_true_iff, hmap] at hle
        rw [if_neg (by omega), if_pos hroom, ← hnext]
        simp
      · have hgt := hroom
        rw [hasRoom, decide_eq_true_iff, hmap] at hgt
        rw [if_pos (by omega), if_neg hroom]
    · rw [headerLoop_of_not_sends hsends, if_neg hsends, ih]

theorem buildHeader_eq (url : Url) (run : List Response) (size : ℕ) :
    buildHeader url (tableAfter run) size =
      headerOf ((sent url size (jarAfter run)).map Stored.cookie) := by
  rw [← map_jarAfter]
  exact headerLoop_eq [] (jarAfter run)

/-- The path of a request, without the query. -/
def requestPath (path : List UInt8) : List UInt8 := path.takeWhile fun c => c ≠ 63 && c ≠ 35

def isIpv4 (host : List UInt8) : Bool :=
  (host.splitOn 46).length = 4 && (host.splitOn 46).all fun octet =>
    match parseU64Dec octet with
    | some value => value ≤ 255
    | none => false

/-- A host domain-matches a domain without a leading dot. -/
def rfcDomainMatches (host domain : List UInt8) : Bool :=
  lower host = lower domain || ((46 :: lower domain).isSuffixOf (lower host) && !isIpv4 host)

/-- A request path path-matches a cookie path. -/
def rfcPathMatches (request cookiePath : List UInt8) : Bool :=
  request = cookiePath || (cookiePath.isPrefixOf request &&
    (cookiePath.getLast? = some 47 || (request.drop cookiePath.length).head? = some 47))

/-- The cookies that a request selects: those for its host or, with a domain, for a domain that
it is in; for its path; and without TLS only those that are not secure. -/
def rfcSelects (url : Url) (e : Stored) : Bool :=
  (!e.cookie.secure || url.tls) &&
    (if e.hostOnly then decide (lower url.host = lower e.cookie.domain)
      else stripDot e.cookie.domain ≠ [] && rfcDomainMatches url.host (stripDot e.cookie.domain)) &&
    rfcPathMatches (requestPath url.path) e.cookie.path

/-- The header of a request has the cookies that the rules select, each one once, and is one
line. -/
structure SelectsAsRfc (run : List Response) (url : Url) (size : ℕ) : Prop where
  header : buildHeader url (tableAfter run) size =
    headerOf ((sent url size (jarAfter run)).map Stored.cookie)
  selected : sent url size (jarAfter run) = (jarAfter run).filter (rfcSelects url)
  once : ((sent url size (jarAfter run)).map fun e => e.cookie.key).Nodup
  line : ∀ ch ∈ buildHeader url (tableAfter run) size, ch ≠ 13 ∧ ch ≠ 10

/-- Nothing that `ush_browser_cookie_domain_matches` and `ush_browser_cookie_path_matches` let
pass is against the rules: a cookie without a domain goes to its host alone, a domain is more
than a dot, nothing but its own address goes to an address, and the path ends where a segment
does. -/
structure Proper (url : Url) (e : Stored) : Prop where
  hostOnly : e.hostOnly = true → lower url.host = lower e.cookie.domain
  domain : e.hostOnly = false → stripDot e.cookie.domain ≠ []
  address : e.hostOnly = false → isIpv4 url.host = true →
    lower url.host = lower (stripDot e.cookie.domain)
  path : rfcPathMatches (requestPath url.path) e.cookie.path = true

/-- Nothing keeps a selected cookie back: it has a value, its domain is not the host behind a
dot, and it has room behind what is sent of the table in front of it. -/
structure Deliverable (url : Url) (size : ℕ) (front : List Stored) (e : Stored) : Prop where
  value : e.cookie.value ≠ []
  dot : e.hostOnly = false → lower e.cookie.domain ≠ 46 :: lower url.host
  room : hasRoom size (((front ++ [e]).filter fun e => sends url e.cookie).map Stored.cookie) = true

/-- The tables and requests for which the rules are met. -/
structure Meets (run : List Response) (url : Url) (size : ℕ) : Prop where
  proper : ∀ front e back, jarAfter run = front ++ e :: back → sends url e.cookie = true →
    hasRoom size (((front ++ [e]).filter fun e => sends url e.cookie).map Stored.cookie) = true →
      Proper url e
  deliverable : ∀ front e back, jarAfter run = front ++ e :: back → rfcSelects url e = true →
    Deliverable url size front e
  line : ∀ e ∈ jarAfter run, rfcSelects url e = true →
    ∀ ch ∈ e.cookie.name ++ e.cookie.value, ch ≠ 13 ∧ ch ≠ 10

theorem rfcSelects_iff :
    rfcSelects url e = true ↔ (e.cookie.secure = true → url.tls = true) ∧
      (e.hostOnly = true → lower url.host = lower e.cookie.domain) ∧
      (e.hostOnly = false → stripDot e.cookie.domain ≠ [] ∧
        (lower url.host = lower (stripDot e.cookie.domain) ∨
          46 :: lower (stripDot e.cookie.domain) <:+ lower url.host ∧ ¬ isIpv4 url.host = true)) ∧
      rfcPathMatches (requestPath url.path) e.cookie.path = true := by
  cases hhost : e.hostOnly <;>
    simp [rfcSelects, rfcDomainMatches, hhost, and_assoc, imp_iff_not_or]

theorem pathMatches_of_rfcPathMatches {path cookiePath : List UInt8} (hne : cookiePath ≠ [])
    (h : rfcPathMatches (requestPath path) cookiePath = true) :
    pathMatches path cookiePath = true := by
  have hfront : cookiePath <+: requestPath path := by
    simp only [rfcPathMatches, Bool.or_eq_true, Bool.and_eq_true, decide_eq_true_eq,
      isPrefixOf_iff_prefix] at h
    obtain rfl | ⟨hfront, -⟩ := h
    · exact prefix_rfl
    · exact hfront
  rw [pathMatches, Bool.and_eq_true, isPrefixOf_iff_prefix]
  exact ⟨by simpa using hne, hfront.trans (List.takeWhile_prefix _)⟩

theorem stripDot_or (domain : List UInt8) :
    stripDot domain = domain ∨ domain = 46 :: stripDot domain := by
  cases domain with
  | nil => exact .inl rfl
  | cons c domain =>
    by_cases hc : c = 46
    · refine .inr ?_
      simp [stripDot, hc]
    · refine .inl ?_
      simp [stripDot, hc]

theorem domainMatches_of_rfc (hne : stripDot domain ≠ []) (hdot : lower domain ≠ 46 :: lower host)
    (h : lower host = lower (stripDot domain) ∨ 46 :: lower (stripDot domain) <:+ lower host) :
    domainMatches host domain = true := by
  have hdomain : domain ≠ [] := by
    rintro rfl
    exact hne rfl
  obtain hsame | hsuffix := h
  · have hhost : host ≠ [] := by
      rw [Ne, ← lower_eq_nil_iff, hsame, lower_eq_nil_iff]
      exact hne
    obtain hstrip | hstrip := stripDot_or domain
    · rw [hstrip] at hsame
      exact domainMatches_iff.2 ⟨hhost, hdomain, .inl hsame⟩
    · refine absurd ?_ hdot
      rw [hsame, hstrip]
      rfl
  · have hhost : host ≠ [] := by
      rintro rfl
      exact absurd hsuffix.length_le (by simp)
    exact domainMatches_iff.2 ⟨hhost, hdomain, .inr ⟨hne, hsuffix⟩⟩

theorem rfc_of_domainMatches (h : domainMatches host domain = true) :
    lower host = lower (stripDot domain) ∨ 46 :: lower (stripDot domain) <:+ lower host := by
  obtain ⟨-, -, hsame | hsuffix⟩ := domainMatches_iff.1 h
  · obtain hstrip | hstrip := stripDot_or domain
    · rw [hstrip]
      exact .inl hsame
    · have hlower : 46 :: lower (stripDot domain) = lower host := by
        calc
          46 :: lower (stripDot domain) = lower (46 :: stripDot domain) := rfl
          _ = lower host := by rw [← hstrip, hsame]
      rw [hlower]
      exact .inr suffix_rfl
  · exact .inr hsuffix.2

theorem sends_of_rfcSelects (hname : e.cookie.name ≠ []) (hdomain : e.cookie.domain ≠ [])
    (hpath : e.cookie.path ≠ []) (hvalue : e.cookie.value ≠ [])
    (hdot : e.hostOnly = false → lower e.cookie.domain ≠ 46 :: lower url.host)
    (h : rfcSelects url e = true) : sends url e.cookie = true := by
  obtain ⟨hsecure, honly, hwide, hmatch⟩ := rfcSelects_iff.1 h
  refine (sends_iff _).2 ⟨hname, hvalue, hsecure, ?_, pathMatches_of_rfcPathMatches hpath hmatch⟩
  cases hhost : e.hostOnly with
  | true =>
    have hsame := honly hhost
    have hne : url.host ≠ [] := by
      rw [Ne, ← lower_eq_nil_iff, hsame, lower_eq_nil_iff]
      exact hdomain
    exact domainMatches_iff.2 ⟨hne, hdomain, .inl hsame⟩
  | false =>
    obtain ⟨hne, hrfc⟩ := hwide hhost
    exact domainMatches_of_rfc hne (hdot hhost) (hrfc.imp_right And.left)

theorem rfcSelects_of_sends (h : sends url e.cookie = true) (hproper : Proper url e) :
    rfcSelects url e = true := by
  obtain ⟨-, -, hsecure, hdomain, -⟩ := (sends_iff _).1 h
  refine rfcSelects_iff.2 ⟨hsecure, hproper.hostOnly, fun hhost => ?_, hproper.path⟩
  refine ⟨hproper.domain hhost, ?_⟩
  by_cases haddress : isIpv4 url.host = true
  · exact .inl (hproper.address hhost haddress)
  · exact (rfc_of_domainMatches hdomain).imp_right fun hsuffix => ⟨hsuffix, haddress⟩

theorem proper_of_rfcSelects (h : rfcSelects url e = true) : Proper url e := by
  obtain ⟨-, honly, hwide, hmatch⟩ := rfcSelects_iff.1 h
  refine ⟨honly, fun hhost => (hwide hhost).1, fun hhost haddress => ?_, hmatch⟩
  exact (hwide hhost).2.resolve_right fun hsuffix => hsuffix.2 haddress

theorem dot_of_domainMatches (h : domainMatches host domain = true) :
    lower domain ≠ 46 :: lower host := by
  intro hdot
  have hlen := congrArg List.length hdot
  rw [length_cons, length_lower, length_lower] at hlen
  obtain ⟨-, -, hsame | ⟨-, hsuffix⟩⟩ := domainMatches_iff.1 h
  · have hlen' := congrArg List.length hsame
    rw [length_lower, length_lower] at hlen'
    omega
  · have hle := hsuffix.length_le
    rw [length_cons, length_lower, length_lower, stripDot] at hle
    split at hle
    · rw [length_drop] at hle
      omega
    · omega

theorem line_headerOf_iff (cookies : List Cookie) :
    (∀ ch ∈ headerOf cookies, ch ≠ 13 ∧ ch ≠ 10) ↔
      ∀ c ∈ cookies, ∀ ch ∈ c.name ++ c.value, ch ≠ 13 ∧ ch ≠ 10 := by
  induction cookies using List.reverseRecOn with
  | nil => simp [headerOf]
  | append_singleton cookies c ih =>
    have hsep : ∀ ch ∈ (if cookies = [] then [] else lit "; "), ch ≠ 13 ∧ ch ≠ 10 := by
      have hlit : lit "; " = [59, 32] := rfl
      split <;> simp [hlit]
    rw [headerOf_append]
    simp only [forall_mem_append, forall_mem_singleton, ih]
    constructor
    · rintro ⟨⟨⟨⟨hfront, -⟩, hname⟩, -⟩, hvalue⟩
      exact ⟨hfront, hname, hvalue⟩
    · rintro ⟨hfront, hname, hvalue⟩
      exact ⟨⟨⟨⟨hfront, hsep⟩, hname⟩, by simp⟩, hvalue⟩

theorem once_sent (run : List Response) (url : Url) (size : ℕ) :
    ((sent url size (jarAfter run)).map fun e => e.cookie.key).Nodup := by
  obtain ⟨more, hmore, hsub⟩ := Collect.exists_collect (fun e : Stored => sends url e.cookie)
    (fun taken => hasRoom size (taken.map Stored.cookie)) [] (jarAfter run)
  rw [sent, hmore, nil_append]
  exact (nodup_jarAfter run).sublist (hsub.map _)

theorem sent_eq_iff (run : List Response) (url : Url) (size : ℕ) :
    sent url size (jarAfter run) = (jarAfter run).filter (rfcSelects url) ↔
      ∀ front e back, jarAfter run = front ++ e :: back →
        ((sends url e.cookie = true ∧
          hasRoom size (((front ++ [e]).filter fun e => sends url e.cookie).map Stored.cookie) =
            true) ↔ rfcSelects url e = true) := by
  refine Collect.collect_eq_filter_iff (fun cookies more h => ?_) (nodup_jarAfter run).of_map
  rw [map_append] at h
  exact hasRoom_of_append _ _ h

/-- `ush_browser_cookie_build_header` meets the rules exactly for these tables and requests. -/
theorem selects_iff (run : List Response) (url : Url) (size : ℕ) :
    SelectsAsRfc run url size ↔ Meets run url size := by
  have hmem : ∀ {front e back}, jarAfter run = front ++ e :: back → e ∈ jarAfter run := by
    intro front e back hsplit
    rw [hsplit]
    exact mem_append_right _ mem_cons_self
  have hlines : sent url size (jarAfter run) = (jarAfter run).filter (rfcSelects url) →
      ((∀ ch ∈ buildHeader url (tableAfter run) size, ch ≠ 13 ∧ ch ≠ 10) ↔
        ∀ e ∈ jarAfter run, rfcSelects url e = true →
          ∀ ch ∈ e.cookie.name ++ e.cookie.value, ch ≠ 13 ∧ ch ≠ 10) := by
    intro hsent
    rw [buildHeader_eq, hsent, line_headerOf_iff]
    simp only [forall_mem_map, mem_filter, and_imp]
  constructor
  · rintro ⟨-, hselected, -, hline⟩
    have hiff := (sent_eq_iff run url size).1 hselected
    refine ⟨fun front e back hsplit hsends hroom => ?_, fun front e back hsplit hrfc => ?_,
      (hlines hselected).1 hline⟩
    · exact proper_of_rfcSelects ((hiff front e back hsplit).1 ⟨hsends, hroom⟩)
    · obtain ⟨hsends, hroom⟩ := (hiff front e back hsplit).2 hrfc
      obtain ⟨-, hvalue, -, hdomain, -⟩ := (sends_iff _).1 hsends
      exact ⟨hvalue, fun _ => dot_of_domainMatches hdomain, hroom⟩
  · rintro ⟨hproper, hdeliverable, hline⟩
    have hselected : sent url size (jarAfter run) = (jarAfter run).filter (rfcSelects url) := by
      refine (sent_eq_iff run url size).2 fun front e back hsplit => ⟨?_, fun hrfc => ?_⟩
      · rintro ⟨hsends, hroom⟩
        exact rfcSelects_of_sends hsends (hproper front e back hsplit hsends hroom)
      · obtain ⟨hvalue, hdot, hroom⟩ := hdeliverable front e back hsplit hrfc
        obtain ⟨hname, hdomain, hpath⟩ := mem_jarAfter (hmem hsplit)
        exact ⟨sends_of_rfcSelects hname hdomain hpath hvalue hdot hrfc, hroom⟩
    exact ⟨buildHeader_eq url run size, hselected, once_sent run url size,
      (hlines hselected).2 hline⟩

/-- The path `/foo` is taken for a part of `/foobar`, a cookie of `a.com` goes to a host under
it, and a line feed in a value goes into the header. -/
theorem not_selects :
    ¬ SelectsAsRfc [responseOf "a.com" ["s=1; Path=/foo"]] ⟨lit "a.com", lit "/foobar", 80, false⟩
        cookieHeaderMax ∧
      ¬ SelectsAsRfc [responseOf "a.com" ["s=1"]] ⟨lit "www.a.com", lit "/", 80, false⟩
        cookieHeaderMax ∧
      ¬ SelectsAsRfc [responseOf "a.com" ["s=1\nX: 1"]] ⟨lit "a.com", lit "/", 80, false⟩
        cookieHeaderMax := by
  refine ⟨fun h => ?_, fun h => ?_, fun h => ?_⟩
  · exact absurd h.selected (by decide +kernel)
  · exact absurd h.selected (by decide +kernel)
  · exact absurd h.line (by decide +kernel)

end Cleonos.Browser
