import Cleonos.Browser.References
import Cleonos.Browser.Session
import Cleonos.Lib.Message
import Cleonos.Lib.Run

/-!
# Forms that are sent

What a receiver reads in a body, and in the query of a URL, that `browser_form.c` has put
together.
-/

namespace Cleonos.Browser

open List
open FormData (Escapes encodePair encodePairs hexDigit parseForm unescape)

variable {page : Page} {body url baseUrl baseSource action : List UInt8} {n cap : ℕ}

/-- The names and values of the successful fields of a form. -/
def successfulPairs (page : Page) (formIndex : ℕ) : List (List UInt8 × List UInt8) :=
  (page.fields.filter fun field =>
    field.formIndex = formIndex ∧ field.successful ∧ field.name ≠ []).map fun field =>
      (field.name, field.value)

/-- The text behind the first `?`, up to a fragment. -/
def urlQuery (url : List UInt8) : List UInt8 := (queryOf (withoutFragment url)).drop 1

/-! ## The encoder -/

theorem mem_encode {b c : UInt8} (h : b ∈ encode c) :
    isUnreserved b = true ∨ b = 43 ∨ b = 37 := by
  have hhex : ∀ k < 256, isUnreserved (formHex (UInt8.ofNat k)) = true := by
    decide +kernel
  have hany (value : UInt8) : isUnreserved (formHex value) = true := by
    rw [← UInt8.ofNat_toNat (x := value)]
    exact hhex _ (UInt8.toNat_lt _)
  unfold encode at h
  split at h
  case isTrue hc =>
    rw [mem_singleton.1 h]
    exact .inl hc
  case isFalse =>
    split at h
    · exact .inr (.inl (mem_singleton.1 h))
    · simp only [mem_cons, not_mem_nil, or_false] at h
      obtain rfl | rfl | rfl := h
      · exact .inr (.inr rfl)
      · exact .inl (hany _)
      · exact .inl (hany _)

theorem notMem_encode {b : UInt8} (hreserved : isUnreserved b = false) (hplus : b ≠ 43)
    (hpercent : b ≠ 37) (c : UInt8) : b ∉ encode c := by
  intro hmem
  obtain h | h | h := mem_encode hmem
  · rw [hreserved] at h
    cases h
  · exact hplus h
  · exact hpercent h

theorem hexDigit_formHex (c : UInt8) : hexDigit (formHex (c >>> 4)) = some (c / 16) ∧
    hexDigit (formHex c) = some (c % 16) := by
  have hall : ∀ k < 256, hexDigit (formHex (UInt8.ofNat k >>> 4)) = some (UInt8.ofNat k / 16) ∧
      hexDigit (formHex (UInt8.ofNat k)) = some (UInt8.ofNat k % 16) := by decide +kernel
  rw [← UInt8.ofNat_toNat (x := c)]
  exact hall _ (UInt8.toNat_lt _)

theorem escapes_encode : Escapes encode where
  unescape_append c rest := by
    unfold encode
    split
    case isTrue hc =>
      apply FormData.unescape_cons
      · intro h
        rw [h] at hc
        cases hc
      · intro h
        rw [h] at hc
        cases hc
    case isFalse =>
      split
      case isTrue hspace =>
        rw [hspace]
        rfl
      case isFalse =>
        have hdigits := hexDigit_formHex c
        have hsum : c / 16 * 16 + c % 16 = c := by
          apply UInt8.toNat_inj.1
          have hlt := c.toNat_lt
          simp only [UInt8.toNat_add, UInt8.toNat_mul, UInt8.toNat_div, UInt8.toNat_mod,
            UInt8.reduceToNat]
          omega
        exact (FormData.unescape_percent hdigits.1 hdigits.2 rest).trans (by rw [hsum])
  clean c :=
    ⟨notMem_encode rfl (by decide) (by decide) c, notMem_encode rfl (by decide) (by decide) c⟩

/-- A text is appended when there is room for all of it. -/
def Appends (cap : ℕ) (f : List UInt8 → Except (List UInt8) (List UInt8)) (bytes : List UInt8) :
    Prop :=
  ∀ out, out.length < cap → ∀ out', f out = .ok out' ↔ out' = out ++ bytes ∧ out'.length < cap

theorem appends_appendBody (cap : ℕ) (bytes : List UInt8) :
    Appends cap (fun out => appendBody cap out bytes) bytes := by
  intro out _ out'
  simp only [appendBody]
  split
  case isTrue hfull =>
    constructor
    · intro h
      cases h
    · rintro ⟨rfl, hlen⟩
      rw [length_append] at hlen
      omega
  case isFalse hfits =>
    constructor
    · intro h
      cases h
      rw [length_append]
      exact ⟨rfl, by omega⟩
    · rintro ⟨rfl, -⟩
      rfl

theorem Appends.bind {f g : List UInt8 → Except (List UInt8) (List UInt8)}
    {bytes bytes' : List UInt8} (hf : Appends cap f bytes) (hg : Appends cap g bytes') :
    Appends cap (fun out => f out >>= g) (bytes ++ bytes') := by
  intro out hout out'
  rw [bind_eq_ok_iff]
  constructor
  · rintro ⟨mid, hmid, hout'⟩
    obtain ⟨rfl, hlen⟩ := (hf out hout mid).1 hmid
    rw [← append_assoc]
    exact (hg _ hlen out').1 hout'
  · rintro ⟨rfl, hlen⟩
    rw [← append_assoc] at hlen ⊢
    have hmid : (out ++ bytes).length < cap := by
      rw [length_append] at hlen
      omega
    exact ⟨_, (hf out hout _).2 ⟨rfl, hmid⟩, (hg _ hmid _).2 ⟨rfl, hlen⟩⟩

theorem appends_urlencAppend (cap : ℕ) (text : List UInt8) :
    Appends cap (fun out => urlencAppend cap out text) (text.flatMap encode) := by
  induction text with
  | nil =>
    intro out hout out'
    rw [flatMap_nil, append_nil]
    constructor
    · intro h
      cases h
      exact ⟨rfl, hout⟩
    · rintro ⟨rfl, -⟩
      rfl
  | cons ch text ih =>
    rw [flatMap_cons]
    exact (appends_appendBody cap (encode ch)).bind ih

/-- The pieces that a list of fields adds. -/
def fieldPieces (first : Bool) (pairs : List (List UInt8 × List UInt8)) : List UInt8 :=
  if first then encodePairs encode pairs
  else pairs.flatMap fun pair => 38 :: encodePair encode pair

theorem appendField_ok_iff {out : List UInt8} (hout : out.length < cap) (first : Bool)
    (field : Field) (out' : List UInt8 × Bool) :
    appendField cap (out, first) field = .ok out' ↔
      out' = (out ++ ((if first then [] else [38]) ++
        encodePair encode (field.name, field.value)), false) ∧ out'.1.length < cap := by
  have happends := (appends_appendBody cap (if first then [] else [38])).bind
    ((appends_urlencAppend cap field.name).bind
      ((appends_appendBody cap [61]).bind (appends_urlencAppend cap field.value)))
  have hrun : appendField cap (out, first) field =
      (appendBody cap out (if first then [] else [38]) >>= fun body =>
        urlencAppend cap body field.name >>= fun body => appendBody cap body [61] >>= fun body =>
          urlencAppend cap body field.value) >>= fun body => .ok (body, false) := by
    simp only [bind_assoc]
    rfl
  rw [hrun, bind_eq_ok_iff]
  constructor
  · rintro ⟨body, hbody, h⟩
    cases h
    obtain ⟨rfl, hlen⟩ := (happends out hout body).1 hbody
    exact ⟨rfl, hlen⟩
  · rintro ⟨rfl, hlen⟩
    exact ⟨_, (happends out hout _).2 ⟨rfl, hlen⟩, rfl⟩

theorem foldlM_appendField_ok_iff {out : List UInt8} (hout : out.length < cap) (first : Bool)
    (fields : List Field) (body : List UInt8) :
    (fields.foldlM (appendField cap) (out, first)).map Prod.fst = .ok body ↔
      body = out ++ fieldPieces first (fields.map fun field => (field.name, field.value)) ∧
        body.length < cap := by
  induction fields generalizing out first with
  | nil =>
    have hpieces : fieldPieces first [] = [] := by cases first <;> rfl
    rw [map_nil, hpieces, append_nil]
    constructor
    · intro h
      cases h
      exact ⟨rfl, hout⟩
    · rintro ⟨rfl, -⟩
      rfl
  | cons field fields ih =>
    have hpieces : fieldPieces first ((field.name, field.value) ::
        fields.map fun field => (field.name, field.value)) =
        (if first then [] else [38]) ++ encodePair encode (field.name, field.value) ++
          fieldPieces false (fields.map fun field => (field.name, field.value)) := by
      cases first
      · rfl
      · exact FormData.encodePairs_cons encode _ _
    rw [map_cons, hpieces, foldlM_cons]
    cases hfield : appendField cap (out, first) field with
    | error part =>
      constructor
      · intro h
        cases h
      · rintro ⟨rfl, hlen⟩
        simp only [length_append] at hlen
        have hok := (appendField_ok_iff hout first field _).2 ⟨rfl, by
          simp only [length_append]
          omega⟩
        rw [hfield] at hok
        cases hok
    | ok out' =>
      obtain ⟨rfl, hlen⟩ := (appendField_ok_iff hout first field out').1 hfield
      have hrest := ih hlen false
      rw [append_assoc] at hrest
      exact hrest

theorem buildBody_ok_iff : buildBody page n = .ok body ↔
    body = encodePairs encode (successfulPairs page n) ∧ body.length < formBodyMax := by
  have hout : ([] : List UInt8).length < formBodyMax := by decide
  rw [buildBody, foldlM_appendField_ok_iff hout true, nil_append]
  rfl

theorem notMem_encodePairs {b : UInt8} (hb : ∀ c, b ∉ encode c) (hsep : b ≠ 38) (heq : b ≠ 61)
    (pairs : List (List UInt8 × List UInt8)) : b ∉ encodePairs encode pairs := by
  have htext (text : List UInt8) : b ∉ text.flatMap encode := by
    intro hmem
    obtain ⟨c, -, hc⟩ := mem_flatMap.1 hmem
    exact hb c hc
  have hpair (pair : List UInt8 × List UInt8) : b ∉ encodePair encode pair := by
    rw [encodePair, mem_append, mem_cons]
    rintro (h | h | h)
    · exact htext _ h
    · exact heq h
    · exact htext _ h
  induction pairs with
  | nil => exact not_mem_nil
  | cons pair pairs ih =>
    rw [FormData.encodePairs_cons, mem_append, mem_flatMap]
    rintro (h | ⟨next, -, h⟩)
    · exact hpair _ h
    · cases mem_cons.1 h with
      | inl h => exact hsep h
      | inr h => exact hpair _ h

theorem withoutFragment_eq_self (h : 35 ∉ url) : withoutFragment url = url := by
  apply takeWhile_eq_self_iff.2
  intro c hc
  rw [decide_eq_true_eq]
  intro heq
  exact h (heq ▸ hc)

theorem urlQuery_append_mark {query : List UInt8} (hmark : 63 ∉ baseUrl) (hfragment : 35 ∉ baseUrl)
    (hquery : 35 ∉ query) : urlQuery (baseUrl ++ 63 :: query) = query := by
  have hclean : 35 ∉ baseUrl ++ 63 :: query := by
    rw [mem_append, mem_cons]
    rintro (h | h | h)
    · exact hfragment h
    · cases h
    · exact hquery h
  have hall : ∀ c ∈ baseUrl, (c ≠ 63 : Bool) = true := by
    intro c hc
    rw [decide_eq_true_eq]
    intro heq
    exact hmark (heq ▸ hc)
  rw [urlQuery, withoutFragment_eq_self hclean, queryOf, dropWhile_append_of_pos hall,
    dropWhile_cons_of_neg (by simp)]
  rfl

theorem urlQuery_append {query : List UInt8} (hmark : 63 ∈ baseUrl) (hfragment : 35 ∉ baseUrl)
    (hquery : 35 ∉ query) : urlQuery (baseUrl ++ query) = urlQuery baseUrl ++ query := by
  obtain ⟨front, back, rfl, hfront⟩ := eq_append_cons_of_mem hmark
  rw [mem_append, mem_cons] at hfragment
  simp only [not_or] at hfragment
  obtain ⟨hclean, -, hback⟩ := hfragment
  have hall : 35 ∉ back ++ query := by
    rw [mem_append]
    exact fun h => h.elim hback hquery
  rw [append_assoc, cons_append, urlQuery_append_mark hfront hclean hall,
    urlQuery_append_mark hfront hclean hback]

theorem urlQuery_of_no_mark (hmark : 63 ∉ baseUrl) : urlQuery baseUrl = [] := by
  have hnone : (withoutFragment baseUrl).dropWhile (· ≠ 63) = [] := by
    rw [dropWhile_eq_nil_iff]
    intro c hc
    rw [decide_eq_true_eq]
    intro heq
    exact hmark (heq ▸ (takeWhile_sublist _).subset hc)
  rw [urlQuery, queryOf, hnone]
  rfl

variable {size : ℕ}

theorem parseForm_joinGetUrl (hbody : buildBody page n = .ok body)
    (hurl : joinGetUrl baseUrl body size = some url) (hfragment : 35 ∉ baseUrl) : baseUrl <+: url ∧
      parseForm (urlQuery url) = parseForm (urlQuery baseUrl) ++ successfulPairs page n := by
  obtain ⟨rfl, -⟩ := buildBody_ok_iff.1 hbody
  have hpairs := escapes_encode.parseForm_encodePairs (successfulPairs page n)
  have hclean : 35 ∉ encodePairs encode (successfulPairs page n) :=
    notMem_encodePairs (notMem_encode rfl (by decide) (by decide)) (by decide) (by decide) _
  rw [joinGetUrl] at hurl
  split at hurl
  case isTrue => cases hurl
  case isFalse hfits =>
    have hsize : size ≠ 0 := by omega
    split at hurl
    case isTrue hempty =>
      cases hurl
      rw [length_eq_zero_iff.1 hempty] at hpairs
      rw [(cut_eq_self_iff hsize).2 (by omega), ← hpairs, FormData.parseForm_nil, append_nil]
      exact ⟨prefix_rfl, rfl⟩
    case isFalse =>
      cases hurl
      rw [(cut_eq_self_iff hsize).2 (by
        simp only [length_append, length_singleton]
        omega), append_assoc]
      refine ⟨prefix_append _ _, ?_⟩
      by_cases hmark : 63 ∈ baseUrl
      · rw [if_pos (by simpa using hmark), urlQuery_append hmark hfragment, singleton_append,
          FormData.parseForm_append, hpairs]
        rw [singleton_append, mem_cons]
        rintro (h | h)
        · cases h
        · exact hclean h
      · rw [if_neg (by simpa using hmark), singleton_append,
          urlQuery_append_mark hmark hfragment hclean, urlQuery_of_no_mark hmark, hpairs]
        rfl

theorem length_cut_lt (hsize : size ≠ 0) (text : List UInt8) : (cut size text).length < size := by
  have hle := length_take_le (size - 1) text
  rw [← cut] at hle
  omega

theorem length_copied (hsize : size ≠ 0) {text text' : List UInt8}
    (h : copied size text = some text') : text'.length < size := by
  rw [copied] at h
  split at h
  · cases h
  · cases h
    exact length_cut_lt hsize text

theorem length_resolveHref {href text : List UInt8}
    (h : resolveHref baseSource href size = some text) : text.length < size := by
  rw [resolveHref] at h
  split at h
  case isTrue => cases h
  case isFalse hsize =>
    split at h
    · exact length_copied hsize h
    split at h
    · obtain ⟨ref, -, h⟩ := Option.bind_eq_some_iff.1 h
      split at h
      · exact length_copied hsize h
      split at h
      · exact length_copied hsize h
      obtain ⟨base, -, h⟩ := Option.bind_eq_some_iff.1 h
      split at h
      · cases h
        exact length_cut_lt hsize _
      split at h
      · obtain ⟨path, -, rfl⟩ := Option.map_eq_some_iff.1 h
        exact length_cut_lt hsize _
      · obtain ⟨path, -, rfl⟩ := Option.map_eq_some_iff.1 h
        exact length_cut_lt hsize _
    · obtain ⟨ref, -, h⟩ := Option.bind_eq_some_iff.1 h
      split at h
      · exact length_copied hsize h
      split at h
      · obtain ⟨path, -, h⟩ := Option.bind_eq_some_iff.1 h
        exact length_copied hsize h
      split at h
      · exact length_copied hsize h
      · obtain ⟨path, -, h⟩ := Option.bind_eq_some_iff.1 h
        exact length_copied hsize h

theorem length_formAction {form : Form} (h : formAction baseSource form = some action) :
    action.length < formActionMax := by
  rw [formAction] at h
  split at h
  · exact length_resolveHref h
  · cases h
    exact length_cut_lt (by decide) _

theorem parseForm_buildBody (h : buildBody page n = .ok body) :
    parseForm body = successfulPairs page n := by
  rw [(buildBody_ok_iff.1 h).1]
  exact escapes_encode.parseForm_encodePairs _

theorem formSubmit_eq_some {number bodyLen : ℕ} {post : Bool}
    (h : (formSubmit page baseSource number bodyLen).result = some (url, body, post)) :
    ∃ form action, page.forms[number - 1]? = some form ∧ formAction baseSource form = some action ∧
      buildBody page (number - 1) = .ok body ∧ post = isPost form ∧
      if post then url = action else joinGetUrl action body sourceMax = some url := by
  rw [formSubmit] at h
  split at h
  case isTrue => cases h
  case isFalse =>
    cases hform : page.forms[number - 1]? with
    | none =>
      rw [hform] at h
      cases h
    | some form =>
      rw [hform] at h
      dsimp only at h
      cases haction : formAction baseSource form with
      | none =>
        rw [haction] at h
        cases h
      | some action =>
        rw [haction] at h
        cases hbody : buildBody page (number - 1) with
        | error part =>
          rw [hbody] at h
          cases h
        | ok built =>
          rw [hbody] at h
          dsimp only at h
          have hlen := length_formAction haction
          refine ⟨form, action, rfl, haction, ?_⟩
          split at h
          case isTrue hpost =>
            cases h
            have hcut : cut sourceMax action = action :=
              (cut_eq_self_iff (by decide)).2 (hlen.trans (by decide))
            exact ⟨rfl, hpost.symm, hcut⟩
          case isFalse hpost =>
            obtain ⟨joined, hjoined, hurl⟩ := Option.map_eq_some_iff.1 h
            cases hurl
            rw [Bool.not_eq_true] at hpost
            exact ⟨rfl, hpost.symm, hjoined⟩

/-- What is sent is the whole list: in the body, and for a GET in the query too, behind what is
in the query of the action. -/
def SendsAll (page : Page) (number : ℕ) (action url body : List UInt8) (post : Bool) : Prop :=
  parseForm body = successfulPairs page (number - 1) ∧
    if post then url = action
    else 35 ∉ action → action <+: url ∧
      parseForm (urlQuery url) = parseForm (urlQuery action) ++ successfulPairs page (number - 1)

/-- Whether a form with this action fits: its body, and for a GET its URL. -/
def Fits (page : Page) (number : ℕ) (action : List UInt8) (post : Bool) : Prop :=
  (encodePairs encode (successfulPairs page (number - 1))).length < formBodyMax ∧
    (post = false →
      action.length + (encodePairs encode (successfulPairs page (number - 1))).length + 2 ≤
        sourceMax)

theorem formSubmit_complete {number bodyLen : ℕ} {post : Bool}
    (h : (formSubmit page baseSource number bodyLen).result = some (url, body, post)) :
    ∃ form action, page.forms[number - 1]? = some form ∧ formAction baseSource form = some action ∧
      post = isPost form ∧ Fits page number action post ∧
      SendsAll page number action url body post := by
  obtain ⟨form, action, hform, haction, hbody, hpost, hurl⟩ := formSubmit_eq_some h
  refine ⟨form, action, hform, haction, hpost, ?_, parseForm_buildBody hbody, ?_⟩
  · obtain ⟨rfl, hlen⟩ := buildBody_ok_iff.1 hbody
    refine ⟨hlen, ?_⟩
    intro hget
    rw [hget, if_neg Bool.false_ne_true, joinGetUrl] at hurl
    split at hurl
    case isTrue => cases hurl
    case isFalse hfits => omega
  · cases post
    · exact parseForm_joinGetUrl hbody hurl
    · exact hurl

def oneField (value : List UInt8) : Page := ⟨[], [⟨[], []⟩], [⟨0, lit "q", value, true⟩]⟩

end Cleonos.Browser
