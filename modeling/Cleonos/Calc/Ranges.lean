import Cleonos.Calc.Strtod
import Cleonos.Lib.Words

/-!
# The ranges of a plot

`calc_try_take_plot_ranges` of `calc_main.c`: the last four words of a command line are the ranges
of a plot, if all of them are numbers and an expression is in front of them.
-/

namespace Cleonos.Calc

open List
open LastWords (IsWord IsGap Spaced EndsWord)

variable {D : Type*} (ops : Doubles D)

/-! ## The source -/

/-- The blanks of the function. -/
def isBlank (c : UInt8) : Bool := c == 32 || c == 9

def calcParseFullDouble (text : List UInt8) : Option D :=
  if text = [] then none
  else
    let r := strtod ops text
    if r.2 = text then none
    else if r.2.dropWhile isBlank ≠ [] then none
    else some r.1

/-- The four variables. -/
structure Ranges (D : Type*) where
  xmin : D
  xmax : D
  ymin : D
  ymax : D
deriving DecidableEq, Repr

def Ranges.toList {D : Type*} (r : Ranges D) : List D := [r.xmin, r.xmax, r.ymin, r.ymax]

def calcExprMax : ℕ := 256

/-- The loop over `i`, with the rounds that are left: what is in front of `end`, and the tokens. -/
def tokenLoop : ℕ → List UInt8 → List (List UInt8) → Option (List UInt8 × List (List UInt8))
  | 0, work, tokens => some (work, tokens)
  | i + 1, work, tokens =>
    let token := work.rtakeWhile fun c => !isBlank c
    if token = [] then none
    else
      let front := (work.rdropWhile fun c => !isBlank c).rdropWhile isBlank
      if i > 0 ∧ front = [] then none else tokenLoop i front (token :: tokens)

/-- The four tokens of a text, and what is in front of them. -/
def splitWords (work : List UInt8) : Option (List UInt8 × List (List UInt8)) :=
  tokenLoop 4 (work.rdropWhile isBlank) []

/-- The four calls of `calc_parse_full_double`. -/
def storeRanges (t0 t1 t2 t3 : List UInt8) (r : Ranges D) : Bool × Ranges D :=
  match calcParseFullDouble ops t0 with
  | none => (false, r)
  | some xmin =>
    match calcParseFullDouble ops t1 with
    | none => (false, { r with xmin := xmin })
    | some xmax =>
      match calcParseFullDouble ops t2 with
      | none => (false, { r with xmin := xmin, xmax := xmax })
      | some ymin =>
        match calcParseFullDouble ops t3 with
        | none => (false, { r with xmin := xmin, xmax := xmax, ymin := ymin })
        | some ymax => (true, ⟨xmin, xmax, ymin, ymax⟩)

/-- `calc_try_take_plot_ranges`: what it returns, the text and the variables. -/
def calcTryTakePlotRanges (text : List UInt8) (r : Ranges D) : Bool × List UInt8 × Ranges D :=
  match splitWords (text.take (calcExprMax - 1)) with
  | some (work, [t0, t1, t2, t3]) =>
    let stored := storeRanges ops t0 t1 t2 t3 r
    if stored.1 = false then (false, text, stored.2)
    else if work.rdropWhile isBlank = [] then (false, text, stored.2)
    else (true, work.rdropWhile isBlank, stored.2)
  | _ => (false, text, r)

/-- Either nothing has changed, or the text was the new text and four words behind it that `strtod`
reads to their ends, with the new values. -/
def TakeLaw (text : List UInt8) (r : Ranges D) (result : Bool × List UInt8 × Ranges D) : Prop :=
  if result.1 then
    (∃ tail words blanks, text = result.2.1 ++ tail ++ blanks ∧ Spaced isBlank tail words ∧
      (∀ c ∈ blanks, isBlank c = true) ∧
      words.map (strtod ops) = result.2.2.toList.map fun v => (v, [])) ∧
      ∃ c ∈ result.2.1, isBlank c = false
  else result.2 = (text, r)

/-- Where the first 255 bytes end with four words: if these are numbers behind an expression, the
whole text ends with numbers of the same values behind the same expression; and if not, the numbers
in front of the first word that is none are the ranges that there are. -/
def Undisturbed (text : List UInt8) (r : Ranges D) : Prop :=
  ∀ work tokens, splitWords (text.take (calcExprMax - 1)) = some (work, tokens) →
    if work ≠ [] ∧ ∀ t ∈ tokens, calcParseFullDouble ops t ≠ none then
      ∃ tokens', splitWords text = some (work, tokens') ∧
        tokens'.map (calcParseFullDouble ops) = tokens.map (calcParseFullDouble ops)
    else (tokens.map (calcParseFullDouble ops)).takeWhile Option.isSome <+: r.toList.map some

variable {ops} {work front text tail : List UInt8} {tokens words : List (List UInt8)}

theorem tokenLoop_of_spaced (hfront : EndsWord isBlank front) (h : Spaced isBlank tail words)
    (tokens : List (List UInt8)) :
    tokenLoop words.length (front ++ tail) tokens = some (front, words ++ tokens) := by
  induction h generalizing tokens with
  | nil => rw [append_nil, length_nil, tokenLoop, nil_append]
  | @snoc tail words b t h hb ht ih =>
    obtain ⟨htake, hdrop⟩ := LastWords.peel_word (front ++ tail) hb ht
    have hends := h.endsWord hfront
    rw [length_append, length_singleton, tokenLoop, ← append_assoc,
      ← append_assoc, htake, hdrop, LastWords.trim_blanks hends hb.isBlank]
    rw [if_neg ht.ne_nil, if_neg (fun hnil => hends.ne_nil hnil.2), ih (t :: tokens),
      append_assoc, singleton_append]

theorem spaced_of_tokenLoop (n : ℕ) (hwork : EndsWord isBlank work) (hfront : front ≠ [])
    (h : tokenLoop n work tokens = some (front, words)) : ∃ tail found,
      work = front ++ tail ∧ Spaced isBlank tail found ∧ words = found ++ tokens ∧
        found.length = n ∧ EndsWord isBlank front := by
  induction n generalizing work tokens with
  | zero =>
    rw [tokenLoop, Option.some.injEq, Prod.mk.injEq] at h
    obtain ⟨rfl, rfl⟩ := h
    exact ⟨[], [], (append_nil _).symm, .nil, rfl, rfl, hwork⟩
  | succ n ih =>
    rw [tokenLoop] at h
    dsimp only at h
    split at h
    case isTrue => cases h
    case isFalse =>
      split at h
      case isTrue => cases h
      case isFalse hleft =>
        have hne : (work.rdropWhile fun c => !isBlank c).rdropWhile isBlank ≠ [] := by
          intro hnil
          cases n with
          | zero =>
            rw [tokenLoop, Option.some.injEq, Prod.mk.injEq] at h
            exact hfront (h.1.symm.trans hnil)
          | succ n => exact hleft ⟨Nat.succ_pos n, hnil⟩
        obtain ⟨b, hb, ht, hsplit⟩ := LastWords.exists_last_word hwork hne
        obtain ⟨tail, found, htail, hspaced, hwords, hlen, hends⟩ :=
          ih (LastWords.endsWord_of_trimmed hne) h
        refine ⟨_, _, ?_, hspaced.snoc hb ht, ?_, ?_, hends⟩
        · rw [← append_assoc, ← append_assoc, ← htail]
          exact hsplit
        · rw [hwords, append_assoc, singleton_append]
        · rw [length_append, length_singleton, hlen]

theorem splitWords_iff (hfront : front ≠ []) : splitWords text = some (front, words) ↔
    EndsWord isBlank front ∧ words.length = 4 ∧ ∃ tail blanks, text = front ++ tail ++ blanks ∧
      Spaced isBlank tail words ∧ ∀ c ∈ blanks, isBlank c = true := by
  constructor
  · intro h
    rw [splitWords] at h
    obtain ⟨hwhole, hblanks⟩ := LastWords.trim_append isBlank text
    have hne : text.rdropWhile isBlank ≠ [] := by
      intro hnil
      rw [hnil] at h
      cases h
    obtain ⟨tail, found, htail, hspaced, hwords, hlen, hends⟩ :=
      spaced_of_tokenLoop 4 (LastWords.endsWord_of_trimmed hne) hfront h
    rw [append_nil] at hwords
    subst hwords
    refine ⟨hends, hlen, tail, _, ?_, hspaced, hblanks⟩
    rw [← htail, hwhole]
  · intro h
    obtain ⟨hends, hlen, tail, blanks, rfl, hspaced, hblanks⟩ := h
    rw [splitWords, LastWords.trim_blanks (hspaced.endsWord hends) hblanks, ← hlen,
      tokenLoop_of_spaced hends hspaced, append_nil]

theorem length_of_tokenLoop {n : ℕ} (h : tokenLoop n work tokens = some (front, words)) :
    words.length = n + tokens.length := by
  induction n generalizing work tokens with
  | zero =>
    rw [tokenLoop, Option.some.injEq, Prod.mk.injEq] at h
    rw [← h.2, Nat.zero_add]
  | succ n ih =>
    rw [tokenLoop] at h
    dsimp only at h
    split at h
    case isTrue => cases h
    case isFalse =>
      split at h
      case isTrue => cases h
      case isFalse =>
        rw [ih h, length_cons]
        omega

theorem calcParseFullDouble_iff {t : List UInt8} (ht : IsWord isBlank t) (v : D) :
    calcParseFullDouble ops t = some v ↔ strtod ops t = (v, []) := by
  have hblank : ∀ c ∈ (strtod ops t).2, isBlank c = false :=
    fun c hc => ht.notBlank c ((strtod_suffix t).subset hc)
  have hdrop : (strtod ops t).2.dropWhile isBlank = (strtod ops t).2 := by
    cases hrest : (strtod ops t).2 with
    | nil => rfl
    | cons c rest =>
      have hc : ¬ isBlank c = true := by
        rw [hblank c (hrest ▸ mem_cons_self)]
        decide
      exact dropWhile_cons_of_neg hc
  rw [calcParseFullDouble, if_neg ht.ne_nil]
  dsimp only
  rw [hdrop]
  constructor
  · intro h
    split at h
    case isTrue => cases h
    case isFalse =>
      split at h
      case isTrue => cases h
      case isFalse hnil =>
        rw [← Option.some.inj h, ← not_not.1 hnil]
  · intro h
    rw [h, if_neg ht.ne_nil.symm, if_neg (not_not.2 rfl)]

theorem map_calcParseFullDouble_iff (hwords : ∀ t ∈ words, IsWord isBlank t) (vs : List D) :
    words.map (strtod ops) = vs.map (fun v => (v, [])) ↔
      words.map (calcParseFullDouble ops) = vs.map some := by
  induction words generalizing vs with
  | nil => simp
  | cons t words ih =>
    cases vs with
    | nil => simp
    | cons v vs =>
      rw [map_cons, map_cons, map_cons, map_cons, List.cons.injEq,
        List.cons.injEq, ih fun t ht => hwords t (mem_cons_of_mem _ ht),
        calcParseFullDouble_iff (hwords t mem_cons_self)]

theorem storeRanges_cases (t0 t1 t2 t3 : List UInt8) (r : Ranges D) :
    (∃ r' : Ranges D, storeRanges ops t0 t1 t2 t3 r = (true, r') ∧
      [t0, t1, t2, t3].map (calcParseFullDouble ops) = r'.toList.map some) ∨
    ((∃ t ∈ [t0, t1, t2, t3], calcParseFullDouble ops t = none) ∧
      (storeRanges ops t0 t1 t2 t3 r).1 = false ∧
      ((storeRanges ops t0 t1 t2 t3 r).2 = r ↔
        ([t0, t1, t2, t3].map (calcParseFullDouble ops)).takeWhile Option.isSome <+:
          r.toList.map some)) := by
  obtain ⟨xmin, xmax, ymin, ymax⟩ := r
  rw [storeRanges]
  cases h0 : calcParseFullDouble ops t0 with
  | none => simp [h0]
  | some v0 =>
    cases h1 : calcParseFullDouble ops t1 with
    | none => simp [h0, h1, Ranges.toList]
    | some v1 =>
      cases h2 : calcParseFullDouble ops t2 with
      | none => simp [h0, h1, h2, Ranges.toList]
      | some v2 =>
        cases h3 : calcParseFullDouble ops t3 with
        | none => simp [h0, h1, h2, h3, Ranges.toList, and_assoc]
        | some v3 => simp [h0, h1, h2, h3, Ranges.toList]

variable {r : Ranges D}

theorem Ranges.takeWhile_prefix_iff {r' : Ranges D} :
    (r'.toList.map some).takeWhile Option.isSome <+: r.toList.map some ↔ r' = r := by
  obtain ⟨xmin, xmax, ymin, ymax⟩ := r
  obtain ⟨xmin', xmax', ymin', ymax'⟩ := r'
  simp [Ranges.toList]

theorem takeLaw_false {r' : Ranges D} : TakeLaw ops text r (false, text, r') ↔ r' = r := by
  simp [TakeLaw]

theorem undisturbed_iff (h : splitWords (text.take (calcExprMax - 1)) = some (work, tokens)) :
    Undisturbed ops text r ↔ if work ≠ [] ∧ ∀ t ∈ tokens, calcParseFullDouble ops t ≠ none then
        ∃ tokens', splitWords text = some (work, tokens') ∧
          tokens'.map (calcParseFullDouble ops) = tokens.map (calcParseFullDouble ops)
      else (tokens.map (calcParseFullDouble ops)).takeWhile Option.isSome <+:
        r.toList.map some := by
  constructor
  · intro hlaw
    exact hlaw work tokens h
  · intro hlaw work' tokens' h'
    rw [h, Option.some.injEq, Prod.mk.injEq] at h'
    rw [← h'.1, ← h'.2]
    exact hlaw

theorem exists_words_iff (hends : EndsWord isBlank work) (r : Ranges D) :
    ((∃ tail words blanks, text = work ++ tail ++ blanks ∧ Spaced isBlank tail words ∧
      (∀ c ∈ blanks, isBlank c = true) ∧ words.map (strtod ops) = r.toList.map fun v => (v, [])) ∧
      ∃ c ∈ work, isBlank c = false) ↔
    ∃ tokens, splitWords text = some (work, tokens) ∧
      tokens.map (calcParseFullDouble ops) = r.toList.map some := by
  constructor
  · intro h
    obtain ⟨⟨tail, words, blanks, htext, hspaced, hblanks, hmap⟩, -⟩ := h
    rw [map_calcParseFullDouble_iff fun t ht => hspaced.isWord ht] at hmap
    have hlen : words.length = 4 := by
      simpa [Ranges.toList] using congrArg List.length hmap
    exact ⟨words, (splitWords_iff hends.ne_nil).2 ⟨hends, hlen, tail, blanks, htext, hspaced,
      hblanks⟩, hmap⟩
  · intro h
    obtain ⟨tokens, hsplit, hmap⟩ := h
    obtain ⟨-, -, tail, blanks, htext, hspaced, hblanks⟩ := (splitWords_iff hends.ne_nil).1 hsplit
    rw [← map_calcParseFullDouble_iff fun t ht => hspaced.isWord ht] at hmap
    obtain ⟨u, c, hu, hc⟩ := hends
    exact ⟨⟨tail, tokens, blanks, htext, hspaced, hblanks, hmap⟩, c, by rw [hu]; simp, hc⟩

/-- Taking the ranges is all or nothing on exactly these inputs. -/
theorem takeLaw_iff (ops : Doubles D) (text : List UInt8) (r : Ranges D) :
    TakeLaw ops text r (calcTryTakePlotRanges ops text r) ↔ Undisturbed ops text r := by
  cases hsplit : splitWords (text.take (calcExprMax - 1)) with
  | none =>
    rw [calcTryTakePlotRanges, hsplit]
    refine iff_of_true rfl ?_
    intro work tokens h
    rw [hsplit] at h
    cases h
  | some found =>
    obtain ⟨work, tokens⟩ := found
    rw [undisturbed_iff hsplit]
    obtain ⟨t0, t1, t2, t3, rfl⟩ : ∃ t0 t1 t2 t3, tokens = [t0, t1, t2, t3] := by
      have hlen : tokens.length = 4 := length_of_tokenLoop hsplit
      match tokens, hlen with
      | [t0, t1, t2, t3], _ => exact ⟨t0, t1, t2, t3, rfl⟩
    rw [calcTryTakePlotRanges, hsplit]
    dsimp only
    rcases storeRanges_cases t0 t1 t2 t3 r with ⟨r', hstore, hmap⟩ | ⟨hnone, hfalse, hkept⟩
    · have hall : ∀ t ∈ [t0, t1, t2, t3], calcParseFullDouble ops t ≠ none := by
        intro t ht hnone
        have hmem : none ∈ r'.toList.map some := hmap ▸ mem_map.2 ⟨t, ht, hnone⟩
        simp at hmem
      have htrue : ¬ (true, r').1 = false := fun h => by cases h
      rw [hstore, if_neg htrue]
      by_cases hwork : work = []
      · have hnot : ¬ (work ≠ [] ∧ ∀ t ∈ [t0, t1, t2, t3],
            calcParseFullDouble ops t ≠ none) := fun h => h.1 hwork
        rw [if_neg hnot, hmap, Ranges.takeWhile_prefix_iff, hwork, rdropWhile_nil,
          if_pos rfl]
        exact takeLaw_false
      · have hends : EndsWord isBlank work := ((splitWords_iff hwork).1 hsplit).1
        have htrim : work.rdropWhile isBlank = work := by
          simpa using LastWords.trim_blanks hends (forall_mem_nil _)
        rw [htrim, if_neg hwork, if_pos ⟨hwork, hall⟩, hmap, ← exists_words_iff hends]
        rfl
    · have hnot : ¬ (work ≠ [] ∧ ∀ t ∈ [t0, t1, t2, t3], calcParseFullDouble ops t ≠ none) := by
        intro h
        obtain ⟨t, ht, hnone⟩ := hnone
        exact h.2 t ht hnone
      rw [if_pos hfalse, if_neg hnot, ← hkept]
      exact takeLaw_false

/-- The fourth word is no number, and two of the ranges have changed. -/
theorem not_takeLaw : ¬ TakeLaw rationals (lit "x 1 2 y 4") ⟨-10, 10, -5, 5⟩
    (calcTryTakePlotRanges rationals (lit "x 1 2 y 4") ⟨-10, 10, -5, 5⟩) := by
  have hresult : calcTryTakePlotRanges rationals (lit "x 1 2 y 4") ⟨-10, 10, -5, 5⟩ =
      (false, lit "x 1 2 y 4", ⟨1, 2, -5, 5⟩) := by decide +kernel
  rw [hresult, takeLaw_false]
  decide

end Cleonos.Calc
