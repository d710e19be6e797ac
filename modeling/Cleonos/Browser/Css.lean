import Cleonos.Browser.Receive
import Cleonos.Lib.Lines

/-!
# Declarations of a style

`ush_browser_css_apply_declarations` of `browser_css.c`: a list of declarations is taken apart at
its semicolons, and each property that the browser knows changes a delta.
-/

namespace Cleonos.Browser.Css

open List

/-! ## The source -/

/-- The functions that read a colour. -/
structure Colors where
  parseColorValue : List UInt8 → Option UInt32
  parseFirstColorToken : List UInt8 → Option UInt32

/-- The values of `text-transform`. -/
inductive TextTransform
  | none | uppercase | lowercase | capitalize
deriving DecidableEq, Repr

/-- `ush_browser_style_delta`; a field is `none` if its `set` flag is 0. -/
structure Delta where
  fgRgb : Option UInt32
  bgRgb : Option UInt32
  bold : Option Bool
  italic : Option Bool
  dim : Option Bool
  underline : Option Bool
  strike : Option Bool
  displayNone : Option Bool
  whiteSpacePre : Option Bool
  textTransform : Option TextTransform
  fontScale : Option ℕ
deriving DecidableEq, Repr

/-- `ush_browser_style_delta_reset`. -/
def Delta.reset : Delta := ⟨none, none, none, none, none, none, none, none, none, none, none⟩

/-- `ush_browser_css_is_space`. -/
def isSpace (ch : UInt8) : Bool :=
  ch == 32 || ch == 9 || ch == 13 || ch == 10 || ch == 12 || ch == 11

/-- `ush_browser_css_name_eq`. -/
def nameEq (name : List UInt8) (literal : String) : Bool :=
  name.map asciiTolower == (lit literal).map asciiTolower

/-- What is left without the spaces at both ends. -/
def trim (s : List UInt8) : List UInt8 := (s.dropWhile isSpace).rdropWhile isSpace

/-- `ush_browser_css_value_is_keyword`. -/
def valueIsKeyword (value : List UInt8) (keyword : String) : Bool :=
  (trim value).map asciiTolower == (lit keyword).map asciiTolower

/-- `ush_browser_line_has_token_icase` for a literal. -/
def hasToken (value : List UInt8) (token : String) : Bool := lineHasTokenIcase value (lit token)

/-- The branch of `text-decoration`. -/
def textDecoration (value : List UInt8) (d : Delta) : Delta :=
  let d := if hasToken value "none" then { d with underline := some false, strike := some false }
    else d
  let d := if hasToken value "underline" then { d with underline := some true } else d
  if hasToken value "line-through" then { d with strike := some true } else d

/-- The branch of `font-weight`. -/
def fontWeight (value : List UInt8) (d : Delta) : Delta :=
  if hasToken value "bold" || hasToken value "600" || hasToken value "700" ||
      hasToken value "800" || hasToken value "900" then { d with bold := some true }
  else if hasToken value "normal" || hasToken value "100" || hasToken value "200" ||
      hasToken value "300" || hasToken value "400" || hasToken value "500" then
    { d with bold := some false }
  else d

/-- The branch of `font-style`. -/
def fontStyle (value : List UInt8) (d : Delta) : Delta :=
  if hasToken value "italic" || hasToken value "oblique" then { d with italic := some true }
  else if hasToken value "normal" then { d with italic := some false }
  else d

/-- The branch of `font-size`. -/
def fontSize (value : List UInt8) (d : Delta) : Delta :=
  if hasToken value "small" || hasToken value "0." || hasToken value "8px" ||
      hasToken value "9px" then { d with dim := some true }
  else if hasToken value "large" || hasToken value "x-large" || hasToken value "xx-large" ||
      hasToken value "2em" || hasToken value "32px" then
    { d with
      bold := some true
      fontScale := some (if hasToken value "xx-large" || hasToken value "32px" then 3 else 2) }
  else d

/-- The branch of `opacity`. -/
def opacity (value : List UInt8) (d : Delta) : Delta :=
  if hasToken value "0" then { d with displayNone := some true }
  else if hasToken value "." then { d with dim := some true }
  else d

/-- The branch of `text-transform`. -/
def textTransform (value : List UInt8) (d : Delta) : Delta :=
  { d with textTransform := some (
      if hasToken value "uppercase" then .uppercase
      else if hasToken value "lowercase" then .lowercase
      else if hasToken value "capitalize" then .capitalize
      else .none) }

/-- The branch of `display`. -/
def display (value : List UInt8) (d : Delta) : Delta :=
  if hasToken value "none" then { d with displayNone := some true }
  else { d with displayNone := some false }

/-- The branch of `visibility`. -/
def visibility (value : List UInt8) (d : Delta) : Delta :=
  if hasToken value "hidden" then { d with displayNone := some true }
  else if hasToken value "visible" then { d with displayNone := some false }
  else d

/-- The branch of `content`. -/
def content (value : List UInt8) (d : Delta) : Delta :=
  if valueIsKeyword value "none" then { d with displayNone := some true } else d

variable (colors : Colors)

/-- The branches for a property that has been found. -/
def applyDeclaration (d : Delta) (decl : List UInt8 × List UInt8) : Delta :=
  let name := decl.1
  let value := decl.2
  if nameEq name "text-decoration" || nameEq name "text-decoration-line" then
    textDecoration value d
  else if nameEq name "color" then
    match colors.parseColorValue value with
    | some rgb => { d with fgRgb := some rgb }
    | none => d
  else if nameEq name "background-color" || nameEq name "background" then
    match colors.parseFirstColorToken value with
    | some rgb => { d with bgRgb := some rgb }
    | none => d
  else if nameEq name "border-color" || nameEq name "border-top-color" ||
      nameEq name "border-right-color" || nameEq name "border-bottom-color" ||
      nameEq name "border-left-color" || nameEq name "outline-color" then
    match colors.parseFirstColorToken value with
    | some rgb => { d with fgRgb := some rgb }
    | none => d
  else if nameEq name "font-weight" then fontWeight value d
  else if nameEq name "font-style" then fontStyle value d
  else if nameEq name "font-size" then fontSize value d
  else if nameEq name "opacity" then opacity value d
  else if nameEq name "text-transform" then textTransform value d
  else if nameEq name "white-space" then { d with whiteSpacePre := some (hasToken value "pre") }
  else if nameEq name "display" then display value d
  else if nameEq name "visibility" then visibility value d
  else if nameEq name "content" then content value d
  else d

/-- A byte of a name: the loop over the name ends at the others. -/
def inName (ch : UInt8) : Bool := !(ch == 58 || ch == 59 || ch == 125)

/-- A byte of a value: the loop over the value ends at the others. -/
def inValue (ch : UInt8) : Bool := !(ch == 59 || ch == 125)

/-- The loop of `ush_browser_css_apply_declarations`, with what is behind `pos`; every round takes a
byte, and has one unit of fuel. -/
def applyLoop : ℕ → List UInt8 → Delta → Delta
  | 0, _, d => d
  | fuel + 1, decl, d =>
    let start := decl.dropWhile fun ch => isSpace ch || ch == 59
    if start = [] then d
    else
      let name := (start.takeWhile inName).rdropWhile isSpace
      let rest := start.dropWhile inName
      if rest.head? = some 58 then
        let value := trim ((rest.drop 1).takeWhile inValue)
        let behind := (rest.drop 1).dropWhile inValue
        applyLoop fuel (if behind.head? = some 59 then behind.drop 1 else behind)
          (if name ≠ [] then applyDeclaration colors d (name, value) else d)
      else applyLoop fuel ((rest.dropWhile (· != 59)).drop 1) d

/-- `ush_browser_css_apply_declarations`. -/
def applyDeclarations (decl : List UInt8) (d : Delta) : Delta :=
  applyLoop colors decl.length decl d

/-- The declaration in a text without semicolons, if there is one. -/
def segmentDecl (segment : List UInt8) : Option (List UInt8 × List UInt8) :=
  let start := segment.dropWhile isSpace
  let name := (start.takeWhile inName).rdropWhile isSpace
  let rest := start.dropWhile inName
  if rest.head? = some 58 ∧ name ≠ [] then some (name, trim ((rest.drop 1).takeWhile inValue))
  else none

/-- The declarations that the function finds. -/
def declsOf (decl : List UInt8) : List (List UInt8 × List UInt8) :=
  (decl.splitOn 59).filterMap segmentDecl

variable {colors} {decl segment rest : List UInt8} {ch : UInt8} {d : Delta}

theorem declsOf_append (segment rest : List UInt8) :
    declsOf (segment ++ 59 :: rest) = declsOf segment ++ declsOf rest := by
  rw [declsOf, splitOn_append_cons_self, filterMap_append]
  rfl

theorem declsOf_nil : declsOf [] = [] := by decide

theorem declsOf_of_notMem (h : 59 ∉ segment) : declsOf segment = (segmentDecl segment).toList := by
  rw [declsOf, splitOn_eq_singleton h]
  cases hdecl : segmentDecl segment with
  | none => simp [hdecl]
  | some p => simp [hdecl]

theorem declsOf_skip (decl : List UInt8) :
    declsOf (decl.dropWhile fun ch => isSpace ch || ch == 59) = declsOf decl := by
  induction decl with
  | nil => rfl
  | cons ch decl ih =>
    rw [dropWhile_cons]
    split
    case isFalse => rfl
    case isTrue hskip =>
      rw [ih]
      rw [Bool.or_eq_true] at hskip
      rcases hskip with hspace | hsemi
      · rw [declsOf, declsOf, splitOn_cons_eq_if_modifyHead]
        have hne : ch ≠ 59 := by
          rintro rfl
          exact absurd hspace (by decide)
        rw [if_neg (by simpa using hne)]
        obtain ⟨first, segments, hsplit⟩ := exists_cons_of_ne_nil
          (splitOn_ne_nil 59 decl)
        rw [hsplit, modifyHead_cons, filterMap_cons, filterMap_cons]
        have hfirst : segmentDecl (ch :: first) = segmentDecl first := by
          rw [segmentDecl, segmentDecl, dropWhile_cons_of_pos hspace]
        rw [hfirst]
      · rw [beq_iff_eq.1 hsemi]
        have happ := declsOf_append [] decl
        rw [nil_append, declsOf_nil, nil_append] at happ
        exact happ.symm

theorem span_segment {p : UInt8 → Bool} (hp : p 59 = false) {tail : List UInt8}
    (htail : tail = [] ∨ ∃ t, tail = 59 :: t) (s : List UInt8) :
    (s ++ tail).takeWhile p = s.takeWhile p ∧ (s ++ tail).dropWhile p = s.dropWhile p ++ tail := by
  induction s with
  | nil =>
    rcases htail with rfl | ⟨t, rfl⟩
    · exact ⟨rfl, rfl⟩
    · simp [hp]
  | cons c s ih =>
    rw [cons_append, takeWhile_cons, dropWhile_cons, takeWhile_cons,
      dropWhile_cons, ih.1, ih.2]
    split
    · exact ⟨rfl, rfl⟩
    · exact ⟨rfl, rfl⟩

theorem declsOf_segment {tail : List UInt8} (htail : tail = [] ∨ ∃ t, tail = 59 :: t)
    (hsegment : 59 ∉ segment) :
    declsOf (segment ++ tail) = (segmentDecl segment).toList ++ declsOf (tail.drop 1) := by
  rcases htail with rfl | ⟨t, rfl⟩
  · rw [append_nil, declsOf_of_notMem hsegment, drop_nil, declsOf_nil, append_nil]
  · rw [declsOf_append, declsOf_of_notMem hsegment]
    rfl

theorem segmentDecl_eq (hspace : ∀ c ∈ segment.head?, isSpace c = false) : segmentDecl segment =
    if (segment.dropWhile inName).head? = some 58 ∧
        (segment.takeWhile inName).rdropWhile isSpace ≠ [] then
      some ((segment.takeWhile inName).rdropWhile isSpace,
        trim (((segment.dropWhile inName).drop 1).takeWhile inValue))
    else none := by
  have hskip : segment.dropWhile isSpace = segment := by
    cases segment with
    | nil => rfl
    | cons c segment => exact dropWhile_cons_of_neg (by rw [hspace c rfl]; decide)
  rw [segmentDecl, hskip]

theorem applyLoop_eq (fuel : ℕ) (decl : List UInt8) (d : Delta) (hfuel : decl.length ≤ fuel) :
    applyLoop colors fuel decl d = (declsOf decl).foldl (applyDeclaration colors) d := by
  induction fuel generalizing decl d with
  | zero =>
    rw [length_eq_zero_iff.1 (Nat.le_zero.1 hfuel), declsOf_nil]
    rfl
  | succ fuel ih =>
    rw [applyLoop, ← declsOf_skip]
    have hle : (decl.dropWhile fun ch => isSpace ch || ch == 59).length ≤ decl.length :=
      (dropWhile_suffix _).length_le
    have hhead := List.head?_dropWhile_not (fun ch => isSpace ch || ch == 59) decl
    generalize (decl.dropWhile fun ch => isSpace ch || ch == 59) = start at hle hhead
    dsimp only
    split
    case isTrue hnil =>
      rw [hnil, declsOf_nil]
      rfl
    case isFalse hne =>
      have hstart : start.takeWhile (· != 59) ++ start.dropWhile (· != 59) = start :=
        takeWhile_append_dropWhile
      have hno : 59 ∉ start.takeWhile (· != 59) := by
        intro hmem
        simpa using mem_takeWhile_imp hmem
      have hends : start.dropWhile (· != 59) = [] ∨ ∃ t, start.dropWhile (· != 59) = 59 :: t := by
        cases htail : start.dropWhile (· != 59) with
        | nil => exact .inl rfl
        | cons c t =>
          have hstop := List.head?_dropWhile_not (· != 59) start
          rw [htail] at hstop
          exact .inr ⟨t, by simpa using hstop⟩
      have hspace : ∀ c ∈ (start.takeWhile (· != 59)).head?, isSpace c = false := by
        intro c hc
        have hmem : c ∈ start.head? := by
          rw [← hstart, List.head?_append, hc]
          rfl
        rw [Option.mem_def.1 hmem] at hhead
        exact ((Bool.or_eq_false_iff).1 hhead).1
      have hlen : 0 < (start.takeWhile (· != 59)).length := by
        cases start with
        | nil => exact absurd rfl hne
        | cons c start =>
          have hc : (c != 59) = true := by
            simpa using ((Bool.or_eq_false_iff).1 hhead).2
          rw [takeWhile_cons_of_pos (p := (· != 59)) hc]
          exact Nat.succ_pos _
      generalize start.takeWhile (· != 59) = segment at hstart hno hspace hlen
      generalize start.dropWhile (· != 59) = tail at hstart hends
      subst hstart
      rw [length_append] at hle
      rw [declsOf_segment hends hno, foldl_append, segmentDecl_eq hspace,
        (span_segment rfl hends segment).1, (span_segment rfl hends segment).2]
      -- behind the segment, and behind the semicolon that ends it
      have hnext : ∀ d', applyLoop colors fuel (tail.drop 1) d' =
          (declsOf (tail.drop 1)).foldl (applyDeclaration colors) d' := by
        intro d'
        apply ih
        rw [length_drop]
        omega
      have hskip (w : List UInt8) (hw : 59 ∉ w) :
          ((w ++ tail).dropWhile (· != 59)).drop 1 = tail.drop 1 := by
        have hall : w.dropWhile (· != 59) = [] := by
          rw [dropWhile_eq_nil_iff]
          intro c hc
          simpa using ne_of_mem_of_not_mem hc hw
        rw [(span_segment rfl hends w).2, hall, nil_append]
      have hrest : 59 ∉ segment.dropWhile inName := fun hmem =>
        hno ((dropWhile_suffix inName).subset hmem)
      have hrestLen := (dropWhile_suffix inName (l := segment)).length_le
      generalize segment.dropWhile inName = rest at hrest hrestLen
      by_cases hcolon : rest.head? = some 58
      · cases rest with
        | nil => cases hcolon
        | cons c w =>
          have hw : 59 ∉ w := fun hmem => hrest (mem_cons_of_mem c hmem)
          rw [if_pos (show (c :: w ++ tail).head? = some 58 from hcolon), cons_append,
            drop_one, tail_cons, (span_segment rfl hends w).1,
            (span_segment rfl hends w).2]
          generalize (segment.takeWhile inName).rdropWhile isSpace = name
          have hone : ((if (c :: w).head? = some 58 ∧ name ≠ [] then
              some (name, trim (((c :: w).drop 1).takeWhile inValue)) else none).toList.foldl
                (applyDeclaration colors) d) =
              if name ≠ [] then applyDeclaration colors d (name, trim (w.takeWhile inValue))
              else d := by
            by_cases hname : name = []
            · rw [if_neg fun h => h.2 hname, if_neg (not_not.2 hname)]
              rfl
            · rw [if_pos ⟨hcolon, hname⟩, if_pos hname]
              rfl
          rw [hone]
          generalize (if name ≠ [] then
            applyDeclaration colors d (name, trim (w.takeWhile inValue)) else d) = d'
          have hvalue := List.head?_dropWhile_not inValue w
          have hin : 59 ∉ w.dropWhile inValue := fun hmem =>
            hw ((dropWhile_suffix inValue).subset hmem)
          have hvalueLen := (dropWhile_suffix inValue (l := w)).length_le
          cases hbehind : w.dropWhile inValue with
          | nil =>
            rcases hends with rfl | ⟨t, rfl⟩
            · exact hnext d'
            · exact hnext d'
          | cons k v =>
            rw [hbehind] at hvalue hin hvalueLen
            -- the value has ended at a brace, and the loop goes on in front of it
            have hk : k = 125 := by
              have hne : k ≠ 59 := fun heq => hin (heq ▸ mem_cons_self)
              simpa [inValue, hne] using hvalue
            have hnone : segmentDecl (k :: v) = none := by
              rw [hk]
              rfl
            have hhead : ¬ (k :: v ++ tail).head? = some 59 := by
              rw [hk]
              exact fun h => by cases h
            rw [if_neg hhead, ih, declsOf_segment hends hin, hnone]
            · rfl
            · rw [length_cons] at hrestLen hvalueLen
              rw [length_append, length_cons]
              omega
      · have hnot : ¬ (rest ++ tail).head? = some 58 := by
          rw [List.head?_append]
          cases rest with
          | nil =>
            rcases hends with rfl | ⟨t, rfl⟩
            · exact fun h => by cases h
            · exact fun h => by cases h
          | cons c w => exact hcolon
        rw [if_neg hnot, if_neg fun h => hcolon h.1, hskip rest hrest]
        exact hnext d

theorem applyDeclarations_eq (decl : List UInt8) (d : Delta) :
    applyDeclarations colors decl d = (declsOf decl).foldl (applyDeclaration colors) d :=
  applyLoop_eq decl.length decl d le_rfl

/-! ## What is written of the visibility -/

/-- The value of `display_none` that a declaration writes. -/
def writes (decl : List UInt8 × List UInt8) : Option Bool :=
  if nameEq decl.1 "opacity" then if hasToken decl.2 "0" then some true else none
  else if nameEq decl.1 "display" then some (hasToken decl.2 "none")
  else if nameEq decl.1 "visibility" then
    if hasToken decl.2 "hidden" then some true
    else if hasToken decl.2 "visible" then some false
    else none
  else if nameEq decl.1 "content" then
    if valueIsKeyword decl.2 "none" then some true else none
  else none

/-- The properties that write it. -/
def writers : List String := ["opacity", "display", "visibility", "content"]

theorem writes_of_other {name value : List UInt8} {other : String} (h : nameEq name other = true)
    (hother : writers.all (fun w => (lit w).map asciiTolower != (lit other).map asciiTolower)) :
    writes (name, value) = none := by
  have hno {w : String} (hw : w ∈ writers) : ¬ nameEq name w = true := by
    intro hname
    have hne := all_eq_true.1 hother w hw
    rw [nameEq, beq_iff_eq] at h hname
    rw [← h, ← hname] at hne
    simp at hne
  rw [writes, if_neg (hno (by decide)), if_neg (hno (by decide)), if_neg (hno (by decide)),
    if_neg (hno (by decide))]

variable (value : List UInt8)

theorem textDecoration_displayNone (d : Delta) :
    (textDecoration value d).displayNone = d.displayNone := by
  rw [textDecoration]
  split <;> split <;> split <;> rfl

theorem fontWeight_displayNone (d : Delta) : (fontWeight value d).displayNone = d.displayNone := by
  rw [fontWeight]
  split
  · rfl
  · split <;> rfl

theorem fontStyle_displayNone (d : Delta) : (fontStyle value d).displayNone = d.displayNone := by
  rw [fontStyle]
  split
  · rfl
  · split <;> rfl

theorem fontSize_displayNone (d : Delta) : (fontSize value d).displayNone = d.displayNone := by
  rw [fontSize]
  split
  · rfl
  · split <;> rfl

theorem applyDeclaration_displayNone (d : Delta) (decl : List UInt8 × List UInt8) :
    (applyDeclaration colors d decl).displayNone = (writes decl).or d.displayNone := by
  obtain ⟨name, value⟩ := decl
  have hother {other : String} (h : nameEq name other = true)
      (hne : writers.all (fun w => (lit w).map asciiTolower != (lit other).map asciiTolower)) :
      (writes (name, value)).or d.displayNone = d.displayNone := by
    rw [writes_of_other h hne]
    rfl
  rw [applyDeclaration]
  by_cases h : (nameEq name "text-decoration" || nameEq name "text-decoration-line") = true
  · rw [if_pos h, textDecoration_displayNone]
    rw [Bool.or_eq_true] at h
    rcases h with h | h
    · exact (hother h (by decide)).symm
    · exact (hother h (by decide)).symm
  rw [if_neg h]
  by_cases h : nameEq name "color" = true
  · rw [if_pos h, hother h (by decide)]
    cases colors.parseColorValue value <;> rfl
  rw [if_neg h]
  by_cases h : (nameEq name "background-color" || nameEq name "background") = true
  · have hkept : (writes (name, value)).or d.displayNone = d.displayNone := by
      rw [Bool.or_eq_true] at h
      rcases h with h | h
      · exact hother h (by decide)
      · exact hother h (by decide)
    rw [if_pos h, hkept]
    cases colors.parseFirstColorToken value <;> rfl
  rw [if_neg h]
  by_cases h : (nameEq name "border-color" || nameEq name "border-top-color" ||
      nameEq name "border-right-color" || nameEq name "border-bottom-color" ||
      nameEq name "border-left-color" || nameEq name "outline-color") = true
  · have hkept : (writes (name, value)).or d.displayNone = d.displayNone := by
      simp only [Bool.or_eq_true] at h
      rcases h with ((((h | h) | h) | h) | h) | h
      all_goals exact hother h (by decide)
    rw [if_pos h, hkept]
    cases colors.parseFirstColorToken value <;> rfl
  rw [if_neg h]
  by_cases h : nameEq name "font-weight" = true
  · rw [if_pos h, hother h (by decide), fontWeight_displayNone]
  rw [if_neg h]
  by_cases h : nameEq name "font-style" = true
  · rw [if_pos h, hother h (by decide), fontStyle_displayNone]
  rw [if_neg h]
  by_cases h : nameEq name "font-size" = true
  · rw [if_pos h, hother h (by decide), fontSize_displayNone]
  rw [if_neg h, writes]
  by_cases hopacity : nameEq name "opacity" = true
  · rw [if_pos hopacity, if_pos hopacity, opacity]
    by_cases hzero : hasToken value "0" = true
    · rw [if_pos hzero, if_pos hzero]
      rfl
    · rw [if_neg hzero, if_neg hzero]
      by_cases hpoint : hasToken value "." = true
      · rw [if_pos hpoint]
        rfl
      · rw [if_neg hpoint]
        rfl
  rw [if_neg hopacity, if_neg hopacity]
  by_cases h : nameEq name "text-transform" = true
  · have hkept := hother h (by decide)
    rw [writes, if_neg hopacity] at hkept
    rw [if_pos h, hkept]
    rfl
  rw [if_neg h]
  by_cases h : nameEq name "white-space" = true
  · have hkept := hother h (by decide)
    rw [writes, if_neg hopacity] at hkept
    rw [if_pos h, hkept]
  rw [if_neg h]
  by_cases hdisplay : nameEq name "display" = true
  · rw [if_pos hdisplay, if_pos hdisplay, display]
    cases hasToken value "none"
    · rfl
    · rfl
  rw [if_neg hdisplay, if_neg hdisplay]
  by_cases hvisibility : nameEq name "visibility" = true
  · rw [if_pos hvisibility, if_pos hvisibility, visibility]
    by_cases hhidden : hasToken value "hidden" = true
    · rw [if_pos hhidden, if_pos hhidden]
      rfl
    · rw [if_neg hhidden, if_neg hhidden]
      by_cases hvisible : hasToken value "visible" = true
      · rw [if_pos hvisible, if_pos hvisible]
        rfl
      · rw [if_neg hvisible, if_neg hvisible]
        rfl
  rw [if_neg hvisibility, if_neg hvisibility]
  by_cases hcontent : nameEq name "content" = true
  · rw [if_pos hcontent, if_pos hcontent, content]
    by_cases hnone : valueIsKeyword value "none" = true
    · rw [if_pos hnone, if_pos hnone]
      rfl
    · rw [if_neg hnone, if_neg hnone]
      rfl
  rw [if_neg hcontent, if_neg hcontent]
  rfl

end Cleonos.Browser.Css
