import Cleonos.Browser.Css

/-!
# Which elements are hidden

What declarations say about the visibility of an element, and when the browser takes it so: it keeps
one flag for four properties, and each declaration that writes it takes the place of the one before.
-/

namespace Cleonos.Browser.Css

open List Option

/-! ## Values -/

/-- The value in small letters, without an `!important` at its end. -/
def keyword (value : List UInt8) : List UInt8 :=
  let v := value.map asciiTolower
  if (lit "important").isSuffixOf v then
    let front := (v.take (v.length - 9)).rdropWhile isSpace
    if front.getLast? = some 33 then front.dropLast.rdropWhile isSpace else v
  else v

/-- A value without a sign in front. -/
def dropSign (v : List UInt8) : List UInt8 :=
  if v.head? = some 43 ∨ v.head? = some 45 then v.drop 1 else v

/-- A number that is zero, or a percentage: all digits in front of the exponent are 0. -/
def isZeroNumber (v : List UInt8) : Bool :=
  let s := dropSign v
  let whole := s.takeWhile isDigit
  let point := s.dropWhile isDigit
  let frac := if point.head? = some 46 then (point.drop 1).takeWhile isDigit else []
  let behind := if point.head? = some 46 then (point.drop 1).dropWhile isDigit else point
  let exponent := dropSign (behind.drop 1)
  let rest := if behind.head? = some 101 ∧ exponent.takeWhile isDigit ≠ [] then
    exponent.dropWhile isDigit else behind
  (whole ++ frac) ≠ [] && (whole ++ frac).all (· == 48) && (rest == [] || rest == [37])

/-- The values: anything without separators and braces, and strings in quotes. -/
inductive IsValue : List UInt8 → Prop
  | nil : IsValue []
  | plain (c : UInt8) {v : List UInt8} (hc : c ∉ [(59 : UInt8), 123, 125, 34, 39])
      (h : IsValue v) : IsValue (c :: v)
  | quoted (q : UInt8) (body : List UInt8) {v : List UInt8} (hq : q = 34 ∨ q = 39)
      (hbody : q ∉ body) (h : IsValue v) : IsValue (q :: body ++ q :: v)

def Spaces (s : List UInt8) : Prop := ∀ c ∈ s, isSpace c = true

/-- A letter, a digit, a hyphen, an underscore or a byte behind ASCII. -/
def isIdent (c : UInt8) : Bool :=
  (97 ≤ c && c ≤ 122) || (65 ≤ c && c ≤ 90) || (48 ≤ c && c ≤ 57) || c == 45 || c == 95 || 128 ≤ c

/-- A declaration, with the spaces around its name and its value. -/
structure Declaration where
  name : List UInt8
  value : List UInt8
  before : List UInt8
  behindName : List UInt8
  beforeValue : List UInt8
  after : List UInt8
  name_ne_nil : name ≠ []
  name_ident : ∀ c ∈ name, isIdent c = true
  value_text : IsValue value
  value_trimmed : trim value = value
  before_spaces : Spaces before
  behindName_spaces : Spaces behindName
  beforeValue_spaces : Spaces beforeValue
  after_spaces : Spaces after

/-- The text of a declaration. -/
def Declaration.text (d : Declaration) : List UInt8 :=
  d.before ++ d.name ++ d.behindName ++ 58 :: (d.beforeValue ++ d.value ++ d.after)

/-- A list of declarations is written with a semicolon behind each; the last one may lack it. -/
def Written (ds : List Declaration) (s : List UInt8) : Prop :=
  s = Lines.unlines 59 (ds.map Declaration.text) ∨
    s ++ [59] = Lines.unlines 59 (ds.map Declaration.text)

/-- The value of the last declaration of a property. -/
def lastValue (property : String) (ds : List Declaration) : Option (List UInt8) :=
  (ds.filter fun d => nameEq d.name property).getLast?.map Declaration.value

/-- The last declaration of one of the four properties hides the element. -/
def hidden (ds : List Declaration) : Bool :=
  (lastValue "display" ds).any (fun v => keyword v == lit "none") ||
  (lastValue "visibility" ds).any (fun v => keyword v == lit "hidden") ||
  (lastValue "content" ds).any (fun v => keyword v == lit "none") ||
  (lastValue "opacity" ds).any fun v => isZeroNumber (keyword v)

/-- What the splitter makes of a declaration. -/
def Declaration.parts (d : Declaration) : List (List UInt8 × List UInt8) := declsOf d.text

/-- The flag says whether the element is hidden. -/
def VisibilityLaw (colors : Colors) (ds : List Declaration) (s : List UInt8) : Prop :=
  (applyDeclarations colors s Delta.reset).displayNone = some true ↔ hidden ds = true

/-- If the element is hidden, some declaration sets the flag, and none behind it clears it; and if
not, each declaration that sets the flag has one behind it that clears it. -/
def Decided (ds : List Declaration) : Prop :=
  (hidden ds = true → ∃ l p r, ds.flatMap Declaration.parts = l ++ p :: r ∧
    writes p = some true ∧ ∀ q ∈ r, writes q ≠ some false) ∧
  (hidden ds = false → ∀ l p r, ds.flatMap Declaration.parts = l ++ p :: r →
    writes p = some true → ∃ q ∈ r, writes q = some false)

variable {colors : Colors} {ds : List Declaration} {s : List UInt8} {c : UInt8}

theorem declsOf_unlines (ds : List Declaration) :
    declsOf (Lines.unlines 59 (ds.map Declaration.text)) = ds.flatMap Declaration.parts := by
  induction ds with
  | nil => exact declsOf_nil
  | cons d ds ih =>
    rw [map_cons, flatMap_cons, ← ih, Declaration.parts, ← declsOf_append,
      Lines.unlines_cons]

theorem declsOf_written (h : Written ds s) : declsOf s = ds.flatMap Declaration.parts := by
  rw [← declsOf_unlines]
  rcases h with h | h
  · rw [← h]
  · have happ := declsOf_append s []
    rw [h, declsOf_nil, append_nil] at happ
    exact happ.symm

theorem foldl_displayNone (ps : List (List UInt8 × List UInt8)) (d : Delta) :
    (ps.foldl (applyDeclaration colors) d).displayNone = some true ↔
      (∃ l p r, ps = l ++ p :: r ∧ writes p = some true ∧ ∀ q ∈ r, writes q ≠ some false) ∨
      d.displayNone = some true ∧ ∀ q ∈ ps, writes q ≠ some false := by
  induction ps generalizing d with
  | nil => simp
  | cons p ps ih =>
    rw [foldl_cons, ih, applyDeclaration_displayNone]
    constructor
    · intro h
      rcases h with ⟨l, q, r, rfl, hq, hr⟩ | ⟨hset, hr⟩
      · exact .inl ⟨p :: l, q, r, rfl, hq, hr⟩
      · cases hp : writes p with
        | none =>
          rw [hp, none_or] at hset
          refine .inr ⟨hset, ?_⟩
          intro q hq
          rcases mem_cons.1 hq with rfl | hq
          · rw [hp]
            exact fun h => by cases h
          · exact hr q hq
        | some b =>
          rw [hp, some_or] at hset
          exact .inl ⟨[], p, ps, rfl, hp.trans hset, hr⟩
    · intro h
      rcases h with ⟨l, q, r, heq, hq, hr⟩ | ⟨hset, hr⟩
      · cases l with
        | nil =>
          cases heq
          rw [hq, some_or]
          exact .inr ⟨rfl, hr⟩
        | cons k l =>
          cases heq
          exact .inl ⟨l, q, r, rfl, hq, hr⟩
      · refine .inr ⟨?_, fun q hq => hr q (mem_cons_of_mem p hq)⟩
        cases hp : writes p with
        | none => exact hset
        | some b =>
          have hne := hr p mem_cons_self
          rw [hp] at hne
          cases b with
          | false => exact absurd rfl hne
          | true => rfl

/-- For every list of declarations, the flag is right exactly if the list is decided. -/
theorem visibilityLaw_iff (colors : Colors) (ds : List Declaration) (s : List UInt8)
    (h : Written ds s) : VisibilityLaw colors ds s ↔ Decided ds := by
  rw [VisibilityLaw, applyDeclarations_eq, declsOf_written h, foldl_displayNone, Decided]
  have hreset : ¬ (Delta.reset.displayNone = some true ∧
      ∀ q ∈ ds.flatMap Declaration.parts, writes q ≠ some false) := fun hset => by cases hset.1
  rw [or_iff_left hreset]
  constructor
  · intro hlaw
    constructor
    · exact hlaw.2
    · intro hshown l p r hsplit hp
      by_contra hclear
      push Not at hclear
      have hhidden := hlaw.1 ⟨l, p, r, hsplit, hp, hclear⟩
      rw [hshown] at hhidden
      cases hhidden
  · intro hdecided
    constructor
    · intro hset
      obtain ⟨l, p, r, hsplit, hp, hr⟩ := hset
      by_contra hshown
      obtain ⟨q, hq, hclear⟩ :=
        hdecided.2 (Bool.eq_false_iff.2 hshown) l p r hsplit hp
      exact hr q hq hclear
    · exact hdecided.1

/-- A declaration without spaces around its parts. -/
def Declaration.bare (name value : List UInt8) (hne : name ≠ [])
    (hname : ∀ c ∈ name, isIdent c = true) (htext : IsValue value) (htrim : trim value = value) :
    Declaration :=
  ⟨name, value, [], [], [], [], hne, hname, htext, htrim, by simp [Spaces], by simp [Spaces],
    by simp [Spaces], by simp [Spaces]⟩

theorem isValue_of_plain {v : List UInt8} (h : ∀ c ∈ v, c ∉ [(59 : UInt8), 123, 125, 34, 39]) :
    IsValue v := by
  induction v with
  | nil => exact IsValue.nil
  | cons c v ih =>
    exact IsValue.plain c (h c mem_cons_self) (ih fun d hd => h d (mem_cons_of_mem c hd))

/-- `display:none`. -/
def displayNoneDecl : Declaration :=
  .bare (lit "display") (lit "none") (by decide +kernel) (by decide +kernel)
    (isValue_of_plain (by decide +kernel)) (by decide)

/-- `opacity:0.5`. -/
def opacityHalf : Declaration :=
  .bare (lit "opacity") (lit "0.5") (by decide +kernel) (by decide +kernel)
    (isValue_of_plain (by decide +kernel)) (by decide)

/-- `display:none` hides the element, and the flag says so. -/
theorem visibilityLaw_display_none :
    Written [displayNoneDecl] (lit "display:none") ∧
      (VisibilityLaw ⟨fun _ => none, fun _ => none⟩ [displayNoneDecl] (lit "display:none") ↔
        Decided [displayNoneDecl]) :=
  ⟨.inr (by decide), visibilityLaw_iff ⟨fun _ => none, fun _ => none⟩ [displayNoneDecl]
    (lit "display:none") (.inr (by decide))⟩

/-- `opacity:0.5` does not hide the element, and the flag is set. -/
theorem not_visibilityLaw :
    Written [opacityHalf] (lit "opacity:0.5") ∧
      ¬ VisibilityLaw ⟨fun _ => none, fun _ => none⟩ [opacityHalf] (lit "opacity:0.5") := by
  refine ⟨.inr (by decide), ?_⟩
  have hset : (applyDeclarations ⟨fun _ => none, fun _ => none⟩ (lit "opacity:0.5")
      Delta.reset).displayNone = some true := by decide +kernel
  have hshown : hidden [opacityHalf] = false := by decide +kernel
  intro hlaw
  have hhidden := hlaw.1 hset
  rw [hshown] at hhidden
  cases hhidden

end Cleonos.Browser.Css
