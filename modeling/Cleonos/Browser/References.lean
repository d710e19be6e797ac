import Cleonos.Browser.Url
import Cleonos.Lib.DotSegments
import Mathlib.Data.List.GetD

/-!
# Relative references

Where a link leads by RFC 3986, beside `ush_browser_resolve_href`.
-/

namespace Cleonos.Browser

open List Option
open Libc (decimal decimal_eq decimal_ne_nil)
open LexicalPath (slash slashed components normalise normStep render removeDotSegments closing
  Settled Plain IsDots)

/-! ## The rules -/

/-- A reference without its fragment. -/
def withoutFragment (href : List UInt8) : List UInt8 := href.takeWhile (· ≠ 35)

/-- The path of a reference, and the authority in front of it. -/
def pathOf (ref : List UInt8) : List UInt8 := ref.takeWhile (· ≠ 63)

/-- The query with its question mark, or nothing. -/
def queryOf (ref : List UInt8) : List UInt8 := ref.dropWhile (· ≠ 63)

/-- A reference without a scheme: no colon stands in its first segment. -/
def IsRelative (href : List UInt8) : Prop := 58 ∉ href.takeWhile fun c => c ≠ 47 ∧ c ≠ 63 ∧ c ≠ 35

instance (href : List UInt8) : Decidable (IsRelative href) := inferInstanceAs (Decidable (_ ∉ _))

def basePath (base : Url) : List UInt8 := base.path.takeWhile fun c => c ≠ 63 ∧ c ≠ 35

/-- The path of a reference behind the base path up to its last slash. -/
def mergePaths (base : Url) (ref : List UInt8) : List UInt8 :=
  if (pathOf ref).headD 0 = 47 then pathOf ref
  else (basePath base).rdropWhile (· ≠ 47) ++ pathOf ref

/-- Path and query of the target. -/
def targetPath (base : Url) (ref : List UInt8) : List UInt8 :=
  if pathOf ref = [] then
    basePath base ++ (if queryOf ref = [] then queryOf (withoutFragment base.path) else queryOf ref)
  else removeDotSegments (mergePaths base ref) ++ queryOf ref

/-- The reference begins with an authority. -/
def IsNetwork (ref : List UInt8) : Prop := ref.headD 0 = 47 ∧ ref.getD 1 0 = 47

instance (ref : List UInt8) : Decidable (IsNetwork ref) := inferInstanceAs (Decidable (_ ∧ _))

def schemeOf (base : Url) : List UInt8 := if base.tls then lit "https" else lit "http"

/-- The authority of a reference that begins with one, and the path behind it. -/
def networkAuthority (ref : List UInt8) : List UInt8 := ((pathOf ref).drop 2).takeWhile (· ≠ 47)
def networkPath (ref : List UInt8) : List UInt8 := ((pathOf ref).drop 2).dropWhile (· ≠ 47)

/-- The target of a reference that begins with an authority. -/
def targetNetwork (base : Url) (ref : List UInt8) : List UInt8 :=
  schemeOf base ++ lit "://" ++ networkAuthority ref ++ removeDotSegments (networkPath ref) ++
    queryOf ref

/-- The parts of a URL of any length. -/
def readUrl (url : List UInt8) : Option Url :=
  let scheme : Option (Bool × ℕ × ℕ) :=
    if isHttpUrl url then some (false, 80, 7)
    else if isHttpsUrl url then some (true, 443, 8)
    else none
  match scheme with
  | none => none
  | some (tls, port, schemeLen) =>
    let rest := (url.drop schemeLen).dropWhile (· ≠ 47)
    (parseHost ((url.drop schemeLen).takeWhile (· ≠ 47)) port).map fun parsed =>
      ⟨parsed.1, if rest = [] then [47] else rest, parsed.2, tls⟩

/-- A text is the target of a reference. -/
def IsTarget (base : Url) (ref : List UInt8) (text : List UInt8) : Prop :=
  if IsNetwork ref then text = targetNetwork base ref
  else readUrl text = some { base with path := targetPath base ref }

instance (base : Url) (ref text : List UInt8) : Decidable (IsTarget base ref text) :=
  inferInstanceAs (Decidable (if IsNetwork ref then _ else _))

/-- Resolving fails, or finds the target, and then finds the same with more room. -/
def Resolves (base : Url) (baseSource href : List UInt8) (size : ℕ) : Prop :=
  ∀ text, resolveHref baseSource href size = some text →
    IsTarget base (withoutFragment href) text ∧
      ∀ more, size ≤ more → resolveHref baseSource href more = some text

/-- The normaliser and the RFC make the same of a path and a query behind it: the last piece of
the path is kept and no empty piece makes a difference, or nothing is left of the path; with
a query, its pieces behind a slash are plain too. -/
def SamePath (path query : List UInt8) : Prop :=
  let pieces := (path.drop 1).splitOn slash
  if query = [] then
    Plain (pieces.getLastD []) ∧ Settled pieces.dropLast ∨ removeDotSegments path = [slash]
  else
    ¬ IsDots (pieces.getLastD []) ∧ Settled pieces.dropLast ∧
      ∀ piece ∈ (query.splitOn slash).drop 1, Plain piece

/-- The references that are resolved by the RFC, or with which resolving fails. -/
def Resolvable (base : Url) (baseSource ref : List UInt8) (size : ℕ) : Prop :=
  size = 0 ∨ hrefMax ≤ ref.length ∨
    if ref = [] then size = 1 ∨ 35 ∉ base.path ∧ baseSource.length < size
    else if IsNetwork ref then
      (schemeOf base ++ lit ":" ++ ref).length < size ∧
        ∀ piece ∈ (networkPath ref).splitOn slash, ¬ IsDots piece
    else if ref.headD 0 = 63 then (origin base ++ basePath base ++ ref).length < size
    else
      normalizeSlashPath (mergePaths base ref ++ queryOf ref) pathMax = none ∨
        (origin base ++ targetPath base ref).length < size ∧
          SamePath (mergePaths base ref) (queryOf ref)

instance (path query : List UInt8) : Decidable (SamePath path query) :=
  inferInstanceAs (Decidable (if query = [] then _ else _))

instance (base : Url) (baseSource ref : List UInt8) (size : ℕ) :
    Decidable (Resolvable base baseSource ref size) :=
  inferInstanceAs (Decidable (size = 0 ∨ hrefMax ≤ ref.length ∨ if ref = [] then _ else _))

variable {base : Url} {baseSource href ref text path : List UInt8} {size : ℕ}

theorem parseU64Loop_concat (text : List UInt8) (c : UInt8) (value : ℕ) :
    parseU64Loop (text ++ [c]) value =
      (parseU64Loop text value).bind fun value => parseU64Loop [c] value := by
  induction text generalizing value with
  | nil => rfl
  | cons d text ih =>
    rw [cons_append, parseU64Loop, parseU64Loop]
    split
    · rfl
    · dsimp only
      split
      · rfl
      · exact ih _

theorem parseU64Loop_digit {digit value : ℕ} (h : digit < 10)
    (hvalue : value * 10 + digit < 2 ^ 64) :
    parseU64Loop [UInt8.ofNat (48 + digit)] value = some (value * 10 + digit) := by
  have hdigits : ∀ digit < 10, isDigit (UInt8.ofNat (48 + digit)) = true ∧
      (UInt8.ofNat (48 + digit)).toNat = 48 + digit := by decide
  obtain ⟨hdigit, hnat⟩ := hdigits digit h
  rw [parseU64Loop, if_neg fun hfalse => Bool.false_ne_true (hfalse.symm.trans hdigit)]
  simp only [hnat, Nat.add_sub_cancel_left]
  rw [if_neg (by omega), parseU64Loop]

theorem parseU64Loop_decimal {value : ℕ} (h : value < 2 ^ 64) :
    parseU64Loop (decimal value) 0 = some value := by
  induction value using Nat.strong_induction_on with
  | _ value ih =>
    rw [decimal_eq]
    split
    case isTrue hlt =>
      rw [parseU64Loop_digit hlt (by omega), Nat.zero_mul, Nat.zero_add]
    case isFalse hge =>
      rw [parseU64Loop_concat, ih (value / 10) (by omega) (by omega), bind_some,
        parseU64Loop_digit (Nat.mod_lt _ (by omega)) (by omega), Nat.div_add_mod']

theorem parseU64Dec_decimal {value : ℕ} (h : value < 2 ^ 64) :
    parseU64Dec (decimal value) = some value := by
  rw [parseU64Dec, if_neg (decimal_ne_nil value), parseU64Loop_decimal h]

theorem slash_notMem_decimal (value : ℕ) : (47 : UInt8) ∉ decimal value :=
  fun h => absurd (Libc.digit_of_mem_decimal h) (by decide)

theorem parseHost_eq_some {host name : List UInt8} {port parsed : ℕ}
    (h : parseHost host port = some (name, parsed)) :
    58 ∉ name ∧ name ⊆ host ∧ (parsed = port ∨ 0 < parsed ∧ parsed ≤ 65535) := by
  have hcolon : (58 : UInt8) ∉ host.takeWhile (· ≠ 58) := by
    intro hmem
    simpa using mem_takeWhile_imp hmem
  have hinit := takeWhile_prefix (l := host) (fun c => decide (c ≠ 58))
  rw [parseHost] at h
  split at h
  case isTrue hlen =>
    cases h
    rw [hinit.eq_of_length hlen] at hcolon
    exact ⟨hcolon, List.Subset.refl _, .inl rfl⟩
  case isFalse hlen =>
    split at h
    · cases h
    · split at h
      · cases h
      · split at h
        · cases h
        case isFalse hport =>
          cases h
          exact ⟨hcolon, hinit.subset, .inr (by omega)⟩

/-- What holds of a base that the browser takes. -/
structure Accepted (base : Url) (baseSource : List UInt8) : Prop where
  read : readUrl baseSource = some base
  http : isHttpUrl baseSource = true ∨ isHttpsUrl baseSource = true
  path : base.path.head? = some 47
  length_path : base.path.length < pathMax
  host : base.host ≠ []
  colon : 58 ∉ base.host
  slash : 47 ∉ base.host
  port : 0 < base.port ∧ base.port ≤ 65535

theorem head?_dropWhile_slash (text : List UInt8) :
    (if text.dropWhile (· ≠ 47) = [] then [47] else text.dropWhile (· ≠ 47)).head? = some 47 := by
  have hhead := List.head?_dropWhile_not (· ≠ (47 : UInt8)) text
  cases hrest : text.dropWhile (· ≠ 47) with
  | nil => rfl
  | cons c rest =>
    rw [hrest] at hhead
    simpa using hhead

theorem parseUrl_eq_some (h : parseUrl baseSource = some base) : Accepted base baseSource := by
  cases hscheme : (if isHttpUrl baseSource then some (false, 80, 7)
      else if isHttpsUrl baseSource then some (true, 443, 8) else none : Option (Bool × ℕ × ℕ)) with
  | none =>
    rw [parseUrl, hscheme] at h
    cases h
  | some scheme =>
    obtain ⟨tls, port, schemeLen⟩ := scheme
    have hhttp : (isHttpUrl baseSource = true ∨ isHttpsUrl baseSource = true) ∧
        (0 < port ∧ port ≤ 65535) := by
      split at hscheme
      · cases hscheme
        exact ⟨.inl ‹_›, by omega⟩
      · split at hscheme
        · cases hscheme
          exact ⟨.inr ‹_›, by omega⟩
        · cases hscheme
    rw [parseUrl, hscheme] at h
    dsimp only at h
    split at h
    case isTrue => cases h
    cases hhost : parseHost ((baseSource.drop schemeLen).takeWhile (· ≠ 47)) port with
    | none =>
      rw [hhost] at h
      cases h
    | some parsed =>
      obtain ⟨name, parsed⟩ := parsed
      obtain ⟨hcolon, hsub, hport⟩ := parseHost_eq_some hhost
      have hread : readUrl baseSource = some ⟨name,
          if (baseSource.drop schemeLen).dropWhile (· ≠ 47) = [] then [47]
          else (baseSource.drop schemeLen).dropWhile (· ≠ 47), parsed, tls⟩ := by
        rw [readUrl, hscheme]
        dsimp only
        rw [hhost]
        rfl
      have hhead := head?_dropWhile_slash (baseSource.drop schemeLen)
      rw [hhost] at h
      dsimp only at h
      split at h
      case isTrue => cases h
      case isFalse hname =>
        generalize (if (baseSource.drop schemeLen).dropWhile (· ≠ 47) = [] then [47]
          else (baseSource.drop schemeLen).dropWhile (· ≠ 47)) = path at h hhead hread
        split at h
        case isTrue => cases h
        case isFalse hlen =>
          cases h
          refine ⟨hread, hhttp.1, hhead, Nat.not_le.1 hlen, hname, hcolon, ?_, ?_⟩
          · intro hmem
            simpa using mem_takeWhile_imp (hsub hmem)
          · obtain rfl | hport := hport
            · exact hhttp.2
            · exact hport

theorem lit_http : lit "http://" = [104, 116, 116, 112, 58, 47, 47] := by decide

theorem lit_https : lit "https://" = [104, 116, 116, 112, 115, 58, 47, 47] := by decide

theorem readUrl_http (rest : List UInt8) :
    readUrl (lit "http://" ++ rest) = (parseHost (rest.takeWhile (· ≠ 47)) 80).map fun parsed =>
      ⟨parsed.1, if rest.dropWhile (· ≠ 47) = [] then [47] else rest.dropWhile (· ≠ 47),
        parsed.2, false⟩ := by
  have h : isHttpUrl (lit "http://" ++ rest) = true := by simp [isHttpUrl]
  rw [readUrl, if_pos h]
  rfl

theorem readUrl_https (rest : List UInt8) :
    readUrl (lit "https://" ++ rest) = (parseHost (rest.takeWhile (· ≠ 47)) 443).map fun parsed =>
      ⟨parsed.1, if rest.dropWhile (· ≠ 47) = [] then [47] else rest.dropWhile (· ≠ 47),
        parsed.2, true⟩ := by
  have h : ¬ isHttpUrl (lit "https://" ++ rest) = true := by simp [isHttpUrl, lit_http, lit_https]
  have h' : isHttpsUrl (lit "https://" ++ rest) = true := by simp [isHttpsUrl]
  rw [readUrl, if_neg h, if_pos h']
  rfl

theorem parseHost_origin {host : List UInt8} (hcolon : 58 ∉ host) (hhost : host ≠ []) {port : ℕ}
    (hport : 0 < port ∧ port ≤ 65535) (defaultPort : ℕ) :
    parseHost (host ++ (if port = defaultPort then [] else 58 :: decimal port)) defaultPort =
      some (host, port) := by
  by_cases hdefault : port = defaultPort
  · rw [if_pos hdefault, append_nil, parseHost, hdefault]
    have htake : host.takeWhile (· ≠ 58) = host :=
      takeWhile_eq_self_iff.2 fun c hc => by simpa using ne_of_mem_of_not_mem hc hcolon
    simp only [htake, if_true]
  · have htake : (host ++ 58 :: decimal port).takeWhile (· ≠ 58) = host := by
      rw [takeWhile_append_of_pos fun c hc => by simpa using ne_of_mem_of_not_mem hc hcolon]
      simp
    have hdrop : (host ++ 58 :: decimal port).drop (host.length + 1) = decimal port := by
      rw [← drop_drop, drop_left]
      rfl
    have hpos := length_pos_of_ne_nil hhost
    have hpos' := length_pos_of_ne_nil (decimal_ne_nil port)
    rw [if_neg hdefault, parseHost]
    simp only [htake, hdrop, length_append, length_cons]
    rw [if_neg (by omega), if_neg (by omega), parseU64Dec_decimal (by omega)]
    dsimp only
    rw [if_neg (by omega)]

theorem readUrl_origin (h : Accepted base baseSource) (hpath : path.head? = some 47) :
    readUrl (origin base ++ path) = some { base with path := path } := by
  obtain ⟨path, rfl⟩ := List.head?_eq_some_iff.1 hpath
  have hread : ∀ defaultPort : ℕ,
      let host := base.host ++ (if base.port = defaultPort then [] else 58 :: decimal base.port)
      (host ++ 47 :: path).takeWhile (· ≠ 47) = host ∧
        (host ++ 47 :: path).dropWhile (· ≠ 47) = 47 :: path := by
    intro defaultPort host
    have hfree : ∀ c ∈ host, decide (c ≠ 47) = true := by
      intro c hc
      have hslash : (47 : UInt8) ∉ host := by
        rw [mem_append, not_or]
        refine ⟨h.slash, ?_⟩
        split
        · exact not_mem_nil
        · rw [mem_cons, not_or]
          exact ⟨by decide, slash_notMem_decimal _⟩
      simpa using ne_of_mem_of_not_mem hc hslash
    rw [takeWhile_append_of_pos hfree, dropWhile_append_of_pos hfree]
    simp
  cases htls : base.tls with
  | false =>
    have htext : origin base ++ 47 :: path = lit "http://" ++ (base.host ++
        (if base.port = 80 then [] else 58 :: decimal base.port) ++ 47 :: path) := by
      rw [origin, htls]
      simp [lit]
    rw [htext, readUrl_http, (hread 80).1, (hread 80).2, if_neg (cons_ne_nil _ _),
      parseHost_origin h.colon h.host h.port, map_some]
  | true =>
    have htext : origin base ++ 47 :: path = lit "https://" ++ (base.host ++
        (if base.port = 443 then [] else 58 :: decimal base.port) ++ 47 :: path) := by
      rw [origin, htls]
      simp [lit]
    rw [htext, readUrl_https, (hread 443).1, (hread 443).2, if_neg (cons_ne_nil _ _),
      parseHost_origin h.colon h.host h.port, map_some]

/-! ## What the source does -/

theorem foldlM_pushSegment {segments segments' : List (List UInt8)} {pieces : List (List UInt8)}
    (h : pieces.foldlM pushSegment segments = some segments') :
    segments' = pieces.foldl normStep segments := by
  induction pieces generalizing segments with
  | nil =>
    cases h
    rfl
  | cons piece pieces ih =>
    rw [foldlM_cons] at h
    obtain ⟨next, hpush, hrest⟩ := bind_eq_some_iff.1 h
    have hnext : next = normStep segments piece := by
      rw [pushSegment] at hpush
      rw [normStep]
      split at hpush
      · cases hpush
        rw [if_pos ‹_›]
      · split at hpush
        · cases hpush
          rw [if_neg ‹_›, if_pos ‹_›]
        · split at hpush
          · cases hpush
          · cases hpush
            rw [if_neg ‹_›, if_neg ‹_›]
    rw [ih hrest, hnext, foldl_cons]

theorem writeSegments_eq_some {out text : List UInt8} {segment : List UInt8}
    {segments : List (List UInt8)} (h : writeSegments size out (segment :: segments) = some text) :
    text = out ++ segment ++ slashed segments := by
  induction segments generalizing out segment with
  | nil =>
    rw [writeSegments] at h
    split at h
    · cases h
    · cases h
      rfl
  | cons next segments ih =>
    rw [writeSegments] at h
    split at h
    · cases h
    · rw [ih h, if_neg (cons_ne_nil _ _), LexicalPath.slashed_cons]
      simp [slash]

theorem normalizeSlashPath_eq_some (h : normalizeSlashPath path size = some text) :
    text = render (normalise (components path)) := by
  rw [normalizeSlashPath] at h
  split at h
  · cases h
  · obtain ⟨segments, hfold, hwrite⟩ := bind_eq_some_iff.1 h
    have hsegments : segments = normalise (components path) := foldlM_pushSegment hfold
    rw [← hsegments]
    cases segments with
    | nil =>
      cases hwrite
      rfl
    | cons segment segments =>
      rw [writeSegments_eq_some hwrite, LexicalPath.render_of_ne_nil (cons_ne_nil _ _),
        LexicalPath.slashed_cons]
      rfl

theorem pathOf_append_queryOf (ref : List UInt8) : pathOf ref ++ queryOf ref = ref :=
  takeWhile_append_dropWhile

theorem headD_pathOf_iff : (pathOf ref).headD 0 = 47 ↔ ref.headD 0 = 47 := by
  cases ref with
  | nil => rfl
  | cons c ref =>
    by_cases hc : c = 63
    · simp [pathOf, hc]
    · simp [pathOf, hc]

theorem head?_basePath (h : Accepted base baseSource) : (basePath base).head? = some 47 := by
  obtain ⟨path, hpath⟩ := List.head?_eq_some_iff.1 h.path
  rw [basePath, hpath]
  simp

theorem joinRelativePath_eq (h : Accepted base baseSource) (href : ref.length < hrefMax) :
    joinRelativePath base.path ref pathMax =
      normalizeSlashPath (mergePaths base ref ++ queryOf ref) pathMax := by
  rw [joinRelativePath, mergePaths]
  by_cases hslash : ref.headD 0 = 47
  · rw [if_pos hslash, if_pos (headD_pathOf_iff.2 hslash), pathOf_append_queryOf]
  · have hlen : (basePath base).length < pathMax :=
      lt_of_le_of_lt (List.takeWhile_prefix _).length_le h.length_path
    have hcopy : copyUntilQueryOrFragment base.path pathMax = some (basePath base) := by
      rw [copyUntilQueryOrFragment]
      exact if_neg (Nat.not_le.2 hlen)
    have hcontains : (basePath base).contains 47 = true := by
      rw [contains_iff_mem]
      exact mem_of_mem_head? (head?_basePath h)
    have hdir : ((basePath base).rdropWhile (· ≠ 47)).length ≤ (basePath base).length :=
      (List.rdropWhile_prefix _ _).length_le
    have hpathMax : pathMax = 256 := rfl
    have hhrefMax : hrefMax = 192 := rfl
    rw [if_neg hslash, if_neg fun hp => hslash (headD_pathOf_iff.1 hp), hcopy, bind_some,
      hcontains, if_neg (by simp), append_assoc, pathOf_append_queryOf]
    exact if_neg (by omega)

theorem not_isRelative_of_http (h : isHttpUrl href = true ∨ isHttpsUrl href = true) :
    ¬ IsRelative href := by
  obtain h | h := h
  · obtain ⟨rest, rfl⟩ := isPrefixOf_iff_prefix.1 h
    simp [IsRelative, lit_http]
  · obtain ⟨rest, rfl⟩ := isPrefixOf_iff_prefix.1 h
    simp [IsRelative, lit_https]

theorem isRelative_withoutFragment (h : IsRelative href) : IsRelative (withoutFragment href) := by
  rw [IsRelative, withoutFragment, takeWhile_takeWhile]
  refine fun hmem => h ?_
  convert hmem using 3
  simp

theorem resolveHref_eq (hbase : parseUrl baseSource = some base) (hrel : IsRelative href)
    (hsize : size ≠ 0) (hlen : (withoutFragment href).length < hrefMax) :
    resolveHref baseSource href size =
      let ref := withoutFragment href
      if ref = [] then copied size baseSource
      else if IsNetwork ref then some (cut size (schemeOf base ++ lit ":" ++ ref))
      else if ref.headD 0 = 63 then some (cut size (origin base ++ basePath base ++ ref))
      else (normalizeSlashPath (mergePaths base ref ++ queryOf ref) pathMax).map fun path =>
        cut size (origin base ++ path) := by
  have hacc := parseUrl_eq_some hbase
  have hfrag : stripFragment href hrefMax = some (withoutFragment href) := by
    rw [stripFragment]
    exact if_neg (Nat.not_le.2 hlen)
  have hhref : ¬ (isHttpUrl href = true ∨ isHttpsUrl href = true) := fun h =>
    not_isRelative_of_http h hrel
  have href' : ¬ (isHttpUrl (withoutFragment href) = true ∨
      isHttpsUrl (withoutFragment href) = true) := fun h =>
    not_isRelative_of_http h (isRelative_withoutFragment hrel)
  rw [resolveHref, if_neg hsize, if_neg hhref, if_pos hacc.http, resolveHttpHref, hfrag,
    bind_some]
  rw [if_neg href', hbase, bind_some]
  by_cases hempty : withoutFragment href = []
  · rw [if_pos hempty, if_pos hempty]
  rw [if_neg hempty, if_neg hempty]
  by_cases hnet : IsNetwork (withoutFragment href)
  · rw [if_pos hnet]
    exact if_pos hnet
  rw [if_neg hnet]
  refine (if_neg hnet).trans ?_
  by_cases hquery : (withoutFragment href).headD 0 = 63
  · have hcopy : copyUntilQueryOrFragment base.path pathMax = some (basePath base) := by
      rw [copyUntilQueryOrFragment]
      exact if_neg (Nat.not_le.2 (lt_of_le_of_lt (List.takeWhile_prefix _).length_le
        hacc.length_path))
    rw [if_pos hquery, if_pos hquery, hcopy, map_some]
  · rw [if_neg hquery, if_neg hquery, joinRelativePath_eq hacc hlen]

theorem resolveHref_long (hbase : parseUrl baseSource = some base) (hrel : IsRelative href)
    (hlen : hrefMax ≤ (withoutFragment href).length) : resolveHref baseSource href size = none := by
  have hacc := parseUrl_eq_some hbase
  have hfrag : stripFragment href hrefMax = none := by
    rw [stripFragment]
    exact if_pos hlen
  have hhref : ¬ (isHttpUrl href = true ∨ isHttpsUrl href = true) := fun h =>
    not_isRelative_of_http h hrel
  rw [resolveHref, if_neg hhref, if_pos hacc.http, resolveHttpHref, hfrag, bind_none,
    ite_self]

theorem cut_eq_self_iff (hsize : size ≠ 0) : cut size text = text ↔ text.length < size := by
  rw [cut, take_eq_self_iff]
  omega

theorem resolves_of_text (hsize : size ≠ 0)
    (htext : ∀ more, size ≤ more → resolveHref baseSource href more = some (cut more text)) :
    Resolves base baseSource href size ↔
      text.length < size ∧ IsTarget base (withoutFragment href) text := by
  constructor
  · intro h
    obtain ⟨htarget, hmore⟩ := h _ (htext size le_rfl)
    have hroom := hmore (size + text.length) (Nat.le_add_right _ _)
    have hwide : cut (size + text.length) text = text := (cut_eq_self_iff (by omega)).2 (by omega)
    rw [htext _ (Nat.le_add_right _ _), hwide, Option.some.injEq] at hroom
    rw [← hroom] at htarget
    exact ⟨(cut_eq_self_iff hsize).1 hroom.symm, htarget⟩
  · rintro ⟨hlen, htarget⟩ found hfound
    rw [htext size le_rfl, (cut_eq_self_iff hsize).2 hlen, Option.some.injEq] at hfound
    subst hfound
    refine ⟨htarget, fun more hmore => ?_⟩
    rw [htext more hmore, (cut_eq_self_iff (by omega)).2 (by omega)]

theorem resolves_of_none (h : resolveHref baseSource href size = none) :
    Resolves base baseSource href size := by
  intro text htext
  rw [h] at htext
  cases htext

theorem samePath_iff (hpath : path.head? = some 47) {query : List UInt8}
    (hquery : query = [] ∨ query.head? = some 63) :
    render (normalise (components (path ++ query))) = removeDotSegments path ++ query ↔
      SamePath path query := by
  obtain ⟨rest, rfl⟩ := List.head?_eq_some_iff.1 hpath
  obtain ⟨s, more, hsplit, hrest, hs, hmore⟩ := LexicalPath.exists_splitOn_slash rest
  have hall : ∀ d ∈ s :: more, slash ∉ d := forall_mem_cons.2 ⟨hs, hmore⟩
  obtain ⟨pieces, t, hpieces⟩ : ∃ pieces t, s :: more = pieces ++ [t] :=
    ⟨_, _, (dropLast_concat_getLast (cons_ne_nil s more)).symm⟩
  have htext : 47 :: rest = slashed (pieces ++ [t]) := by
    rw [← hpieces, LexicalPath.slashed_cons, hrest]
    rfl
  rw [hpieces, forall_mem_append, forall_mem_singleton] at hall
  have hclosing : removeDotSegments (47 :: rest) = slashed (closing (normalise pieces) t) := by
    rw [htext, LexicalPath.removeDotSegments_slashed hall.1 hall.2]
  have hlast : ((47 :: rest).drop 1).splitOn slash = pieces ++ [t] := hsplit.trans hpieces
  rw [SamePath, hlast, getLastD_concat, dropLast_concat, hclosing]
  obtain rfl | hquery := hquery
  · -- Without a query.
    have hfree := LexicalPath.notMem_closing
      (@LexicalPath.notMem_foldl_normStep [] pieces (by simp) hall.1) hall.2
    have hroot : slashed (closing (normalise pieces) t) = [slash] ↔
        closing (normalise pieces) t = [[]] := by
      constructor
      · exact fun h => @LexicalPath.slashed_inj _ [[]] hfree (by simp) h
      · intro h
        rw [h]
        rfl
    rw [append_nil, append_nil, if_pos rfl, hroot, htext,
      LexicalPath.components_slashed_filter, LexicalPath.render_eq_iff hall.1 hall.2]
    rw [forall_mem_append, forall_mem_singleton]
    exact hall
  · obtain ⟨rest', rfl⟩ := List.head?_eq_some_iff.1 hquery
    obtain ⟨q, more', hsplit', hrest', hq, hmore'⟩ := LexicalPath.exists_splitOn_slash (63 :: rest')
    -- The first piece of the query begins with its question mark.
    obtain ⟨q', rfl⟩ : ∃ q', q = 63 :: q' := by
      cases q with
      | nil => cases more' <;> cases hrest'
      | cons c q =>
        rw [cons_append, List.cons.injEq] at hrest'
        exact ⟨q, by rw [hrest'.1]⟩
    have hjoin : 47 :: rest ++ 63 :: rest' = slashed (pieces ++ (t ++ 63 :: q') :: more') := by
      rw [htext, hrest', LexicalPath.slashed_append, LexicalPath.slashed_append,
        LexicalPath.slashed_singleton, LexicalPath.slashed_cons]
      simp only [append_assoc, cons_append]
    rw [if_neg (cons_ne_nil _ _), hjoin, hsplit', drop_one, tail_cons, hrest',
      LexicalPath.components_slashed_filter,
      LexicalPath.render_append_iff hall.1 hall.2 hq hmore' (by simp [LexicalPath.dot])
        (cons_ne_nil _ _), IsDots, not_or]
    rw [forall_mem_append, forall_mem_cons]
    exact ⟨hall.1, by simpa [hall.2] using hq, hmore'⟩

theorem withoutFragment_eq_self_iff (path : List UInt8) :
    withoutFragment path = path ↔ 35 ∉ path := by
  rw [withoutFragment, takeWhile_eq_self_iff]
  simp only [decide_eq_true_eq]
  exact ⟨fun h hmem => h 35 hmem rfl, fun h c hc => ne_of_mem_of_not_mem hc h⟩

theorem targetPath_nil (base : Url) : targetPath base [] = withoutFragment base.path := by
  have hbase : basePath base = pathOf (withoutFragment base.path) := by
    rw [basePath, pathOf, withoutFragment, takeWhile_takeWhile]
    simp only [decide_eq_true_eq]
  calc
    targetPath base [] = basePath base ++ queryOf (withoutFragment base.path) := rfl
    _ = withoutFragment base.path := by rw [hbase, pathOf_append_queryOf]

theorem resolves_empty (hbase : parseUrl baseSource = some base) (hrel : IsRelative href)
    (hsize : size ≠ 0) (hempty : withoutFragment href = []) :
    Resolves base baseSource href size ↔
      size = 1 ∨ 35 ∉ base.path ∧ baseSource.length < size := by
  have hacc := parseUrl_eq_some hbase
  have hfound : ∀ more, more ≠ 0 → resolveHref baseSource href more = copied more baseSource := by
    intro more hmore
    rw [resolveHref_eq hbase hrel hmore (by rw [hempty]; decide)]
    exact if_pos hempty
  by_cases hone : size = 1
  · refine iff_of_true (resolves_of_none ?_) (.inl hone)
    rw [hfound size hsize, hone]
    rfl
  · have hne : baseSource ≠ [] := by
      rintro rfl
      cases hbase
    have hcopied : ∀ more, size ≤ more →
        resolveHref baseSource href more = some (cut more baseSource) := by
      intro more hmore
      rw [hfound more (by omega), copied, if_neg]
      rw [cut, take_eq_nil_iff, not_or]
      exact ⟨by omega, hne⟩
    have htarget : IsTarget base [] baseSource ↔ 35 ∉ base.path := by
      rw [IsTarget, if_neg (by decide), hacc.read, targetPath_nil, ← withoutFragment_eq_self_iff,
        Option.some.injEq, Url.mk.injEq]
      simp [eq_comm]
    rw [resolves_of_text hsize hcopied, hempty, htarget, and_comm]
    simp only [hone, false_or]

theorem splitOn_networkPath (ref : List UInt8) :
    ∃ pieces, (networkPath ref).splitOn slash = [] :: pieces ∧ networkPath ref = slashed pieces ∧
      ∀ piece ∈ pieces, slash ∉ piece := by
  obtain ⟨s, pieces, hsplit, htext, hs, hpieces⟩ :=
    LexicalPath.exists_splitOn_slash (networkPath ref)
  have hhead := List.head?_dropWhile_not (· ≠ (47 : UInt8)) ((pathOf ref).drop 2)
  cases s with
  | nil => exact ⟨pieces, hsplit, htext, hpieces⟩
  | cons c s =>
    rw [← networkPath, htext] at hhead
    have hc : c = 47 := by simpa using hhead
    exact absurd (hc ▸ mem_cons_self) hs

theorem resolves_network (hbase : parseUrl baseSource = some base) (hrel : IsRelative href)
    (hsize : size ≠ 0) (hlen : (withoutFragment href).length < hrefMax)
    (hnet : IsNetwork (withoutFragment href)) :
    Resolves base baseSource href size ↔
      (schemeOf base ++ lit ":" ++ withoutFragment href).length < size ∧
        ∀ piece ∈ (networkPath (withoutFragment href)).splitOn slash, ¬ IsDots piece := by
  have hne : withoutFragment href ≠ [] := by
    intro hnil
    rw [hnil] at hnet
    exact absurd hnet (by decide)
  have hfound : ∀ more, size ≤ more → resolveHref baseSource href more =
      some (cut more (schemeOf base ++ lit ":" ++ withoutFragment href)) := by
    intro more hmore
    rw [resolveHref_eq hbase hrel (by omega) hlen]
    exact (if_neg hne).trans (if_pos hnet)
  rw [resolves_of_text hsize hfound, IsTarget, if_pos hnet]
  refine and_congr_right fun _ => ?_
  generalize withoutFragment href = ref at *
  obtain ⟨pieces, hsplit, hpath, hpieces⟩ := splitOn_networkPath ref
  have href : ref = lit "//" ++ networkAuthority ref ++ networkPath ref ++ queryOf ref := by
    obtain ⟨rest, rfl⟩ : ∃ rest, ref = 47 :: 47 :: rest := by
      obtain ⟨hfirst, hsecond⟩ := hnet
      match ref, hfirst, hsecond with
      | _ :: _ :: rest, rfl, rfl => exact ⟨rest, rfl⟩
    have hparts : networkAuthority (47 :: 47 :: rest) ++ networkPath (47 :: 47 :: rest) =
        pathOf rest := takeWhile_append_dropWhile
    rw [append_assoc, append_assoc, ← append_assoc (networkAuthority _), hparts]
    exact congrArg (lit "//" ++ ·) (pathOf_append_queryOf rest).symm
  have hdots : (∀ piece ∈ (networkPath ref).splitOn slash, ¬ IsDots piece) ↔
      removeDotSegments (networkPath ref) = networkPath ref := by
    rw [hsplit, forall_mem_cons, and_iff_right (by decide), hpath,
      LexicalPath.removeDotSegments_eq_self_iff hpieces]
  have hscheme : lit "://" = lit ":" ++ lit "//" := by decide
  rw [hdots, targetNetwork, hscheme]
  nth_rewrite 1 [href]
  simp only [append_assoc, append_right_inj, append_left_inj]
  exact eq_comm

theorem resolves_query (hbase : parseUrl baseSource = some base) (hrel : IsRelative href)
    (hsize : size ≠ 0) (hlen : (withoutFragment href).length < hrefMax)
    (hquery : (withoutFragment href).headD 0 = 63) :
    Resolves base baseSource href size ↔
      (origin base ++ basePath base ++ withoutFragment href).length < size := by
  have hacc := parseUrl_eq_some hbase
  have hfound : ∀ more, size ≤ more → resolveHref baseSource href more =
      some (cut more (origin base ++ basePath base ++ withoutFragment href)) := by
    intro more hmore
    rw [resolveHref_eq hbase hrel (by omega) hlen]
    have hne : withoutFragment href ≠ [] := by
      intro hnil
      rw [hnil] at hquery
      exact absurd hquery (by decide)
    have hnet : ¬ IsNetwork (withoutFragment href) := by
      intro hnet
      exact absurd (hquery.symm.trans hnet.1) (by decide)
    exact (if_neg hne).trans ((if_neg hnet).trans (if_pos hquery))
  rw [resolves_of_text hsize hfound, and_iff_left]
  generalize withoutFragment href = ref at *
  obtain ⟨query, rfl⟩ : ∃ query, ref = 63 :: query := by
    cases ref with
    | nil => exact absurd hquery (by decide)
    | cons c query => exact ⟨query, by rw [← hquery]; rfl⟩
  have htarget : targetPath base (63 :: query) = basePath base ++ 63 :: query := rfl
  have hhead : (basePath base ++ 63 :: query).head? = some 47 := by
    obtain ⟨path, hpath⟩ := List.head?_eq_some_iff.1 (head?_basePath hacc)
    rw [hpath]
    rfl
  rw [IsTarget, if_neg fun hnet => absurd hnet.1 (by simp), append_assoc,
    readUrl_origin hacc hhead, htarget]

theorem head?_mergePaths (h : Accepted base baseSource) (ref : List UInt8) :
    (mergePaths base ref).head? = some 47 := by
  rw [mergePaths]
  split
  case isTrue hslash =>
    cases hpath : pathOf ref with
    | nil =>
      rw [hpath] at hslash
      exact absurd hslash (by decide)
    | cons c path =>
      rw [hpath] at hslash
      exact congrArg some hslash
  case isFalse =>
    have hbase := head?_basePath h
    have hne : (basePath base).rdropWhile (· ≠ 47) ≠ [] := by
      intro hnil
      have hall := rdropWhile_eq_nil_iff.1 hnil 47 (mem_of_mem_head? hbase)
      simp at hall
    obtain ⟨rest, hrest⟩ :=
      rdropWhile_prefix (fun c : UInt8 => decide (c ≠ 47)) (basePath base)
    have hhead := congrArg List.head? hrest
    rw [List.head?_append_of_ne_nil _ hne, hbase] at hhead
    rw [List.head?_append_of_ne_nil _ hne, hhead]

theorem head?_queryOf (ref : List UInt8) : queryOf ref = [] ∨ (queryOf ref).head? = some 63 := by
  have hhead := List.head?_dropWhile_not (· ≠ (63 : UInt8)) ref
  rw [← queryOf] at hhead
  cases hquery : queryOf ref with
  | nil => exact .inl rfl
  | cons c query =>
    rw [hquery] at hhead
    exact .inr (by simpa using hhead)

theorem resolves_path (hbase : parseUrl baseSource = some base) (hrel : IsRelative href)
    (hsize : size ≠ 0) (hlen : (withoutFragment href).length < hrefMax)
    (hempty : withoutFragment href ≠ []) (hnet : ¬ IsNetwork (withoutFragment href))
    (hquery : (withoutFragment href).headD 0 ≠ 63) :
    Resolves base baseSource href size ↔
      normalizeSlashPath (mergePaths base (withoutFragment href) ++
          queryOf (withoutFragment href)) pathMax = none ∨
        (origin base ++ targetPath base (withoutFragment href)).length < size ∧
          SamePath (mergePaths base (withoutFragment href)) (queryOf (withoutFragment href)) := by
  have hacc := parseUrl_eq_some hbase
  have hfound : ∀ more, size ≤ more → resolveHref baseSource href more =
      (normalizeSlashPath (mergePaths base (withoutFragment href) ++
        queryOf (withoutFragment href)) pathMax).map
          fun path => cut more (origin base ++ path) := by
    intro more hmore
    rw [resolveHref_eq hbase hrel (by omega) hlen]
    exact (if_neg hempty).trans ((if_neg hnet).trans (if_neg hquery))
  generalize hhref : withoutFragment href = ref at *
  cases hnorm : normalizeSlashPath (mergePaths base ref ++ queryOf ref) pathMax with
  | none =>
    refine iff_of_true (resolves_of_none ?_) (.inl rfl)
    rw [hfound size le_rfl, hnorm, map_none]
  | some path =>
    have hpath := normalizeSlashPath_eq_some hnorm
    have hfound' : ∀ more, size ≤ more →
        resolveHref baseSource href more = some (cut more (origin base ++ path)) := by
      intro more hmore
      rw [hfound more hmore, hnorm, map_some]
    have hhead : path.head? = some 47 := by
      rw [hpath]
      exact LexicalPath.head?_render _
    have hpathOf : pathOf ref ≠ [] := by
      cases ref with
      | nil => exact absurd rfl hempty
      | cons c ref =>
        have hc : c ≠ 63 := hquery
        simp [pathOf, hc]
    have htarget : IsTarget base ref (origin base ++ path) ↔ path = targetPath base ref := by
      rw [IsTarget, if_neg hnet, readUrl_origin hacc hhead, Option.some.injEq, Url.mk.injEq]
      simp
    have hsame : path = targetPath base ref ↔
        SamePath (mergePaths base ref) (queryOf ref) := by
      rw [hpath, targetPath, if_neg hpathOf, samePath_iff (head?_mergePaths hacc ref)
        (head?_queryOf ref)]
    rw [resolves_of_text hsize hfound', hhref, htarget]
    constructor
    · rintro ⟨hlt, heq⟩
      exact .inr ⟨by rwa [← heq], hsame.1 heq⟩
    · rintro (h | ⟨hlt, h⟩)
      · cases h
      · exact ⟨by rwa [hsame.2 h], hsame.2 h⟩

/-- Relative references are resolved by the RFC exactly when they are of these kinds. -/
theorem resolves_iff (hbase : parseUrl baseSource = some base) (hrel : IsRelative href)
    (size : ℕ) :
    Resolves base baseSource href size ↔
      Resolvable base baseSource (withoutFragment href) size := by
  rw [Resolvable]
  by_cases hsize : size = 0
  · refine iff_of_true (resolves_of_none ?_) (.inl hsize)
    rw [resolveHref, if_pos hsize]
  by_cases hlen : hrefMax ≤ (withoutFragment href).length
  · exact iff_of_true (resolves_of_none (resolveHref_long hbase hrel hlen)) (.inr (.inl hlen))
  have hlt := Nat.not_le.1 hlen
  simp only [hsize, hlen, false_or]
  by_cases hempty : withoutFragment href = []
  · rw [if_pos hempty]
    exact resolves_empty hbase hrel hsize hempty
  rw [if_neg hempty]
  by_cases hnet : IsNetwork (withoutFragment href)
  · rw [if_pos hnet]
    exact resolves_network hbase hrel hsize hlt hnet
  rw [if_neg hnet]
  by_cases hquery : (withoutFragment href).headD 0 = 63
  · rw [if_pos hquery]
    exact resolves_query hbase hrel hsize hlt hquery
  · rw [if_neg hquery]
    exact resolves_path hbase hrel hsize hlt hempty hnet hquery

theorem dots_resolved :
    Resolves ⟨lit "h", lit "/a/b?r", 8080, false⟩ (lit "http://h:8080/a/b?r")
      (lit ".././c//../../d?q=/e#f") sourceMax :=
  (resolves_iff (by decide +kernel) (by decide +kernel) sourceMax).2 (by decide +kernel)

/-- The slash behind `c` is taken off, a slash of a query is dropped, and a URL of 290 bytes is
shortened. -/
theorem slash_not_resolved :
    (parseUrl (lit "http://h/a/b") = some ⟨lit "h", lit "/a/b", 80, false⟩ ∧
      IsRelative (lit "c/") ∧
      ¬ Resolves ⟨lit "h", lit "/a/b", 80, false⟩ (lit "http://h/a/b") (lit "c/") sourceMax) ∧
    (IsRelative (lit "c?u=x//y") ∧
      ¬ Resolves ⟨lit "h", lit "/a/b", 80, false⟩ (lit "http://h/a/b") (lit "c?u=x//y")
        sourceMax) ∧
    (let host := List.replicate 100 104
      let ref := (List.replicate 3 (List.replicate 60 120)).flatMap fun piece => piece ++ [47]
      parseUrl (lit "http://" ++ host) = some ⟨host, lit "/", 80, false⟩ ∧
        IsRelative ref.dropLast ∧
        ¬ Resolves ⟨host, lit "/", 80, false⟩ (lit "http://" ++ host) ref.dropLast sourceMax) := by
  refine ⟨⟨by decide +kernel, by decide +kernel, fun h => ?_⟩,
    ⟨by decide +kernel, fun h => ?_⟩, by decide +kernel, by decide +kernel, fun h => ?_⟩
  · have htarget := (h (lit "http://h/a/c") (by decide +kernel)).1
    revert htarget
    decide +kernel
  · have htarget := (h (lit "http://h/a/c?u=x/y") (by decide +kernel)).1
    revert htarget
    decide +kernel
  · obtain ⟨text, htext⟩ := isSome_iff_exists.1 (by decide +kernel :
      (resolveHref (lit "http://" ++ List.replicate 100 104)
        (((List.replicate 3 (List.replicate 60 120)).flatMap fun piece => piece ++ [47]).dropLast)
        sourceMax).isSome = true)
    have hmore := (h text htext).2 512 (by decide)
    rw [← htext] at hmore
    exact absurd hmore (by decide +kernel)

end Cleonos.Browser
