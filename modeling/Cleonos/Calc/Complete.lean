import Cleonos.Calc.Sound
import Mathlib.Data.List.DropRight

/-!
# Every expression is accepted

A text that is an expression is read to its end, with the value of the expression, unless an
operation fails.
-/

namespace Cleonos.Calc

open List Option

variable {D : Type*} (ops : Doubles D) (x : D)

/-- No name and no number goes on, and none of the marks is the next byte that is not blank. -/
structure Stops (marks r : List UInt8) : Prop where
  name : ∀ c ∈ r.head?, isNameByte c = false
  point : r.head? ≠ some 46
  next : ∀ c ∈ (r.dropWhile isWs).head?, c ∉ marks

/-- What a level does with an expression.  The levels that group to the left end in their loops. -/
def CompleteFor (level : Level) (s : List UInt8) (es : List Tree) (r : List UInt8) : Prop :=
  match level with
  | .primary => ∀ e v n, es = [e] → e.eval ops x = some v → Stops [] r → 8 * s.length + 1 ≤ n →
      calcParsePrimary ops x n ⟨s, none⟩ = some (v, ⟨r, none⟩)
  | .unary => ∀ e v n, es = [e] → e.eval ops x = some v → Stops [] r → 8 * s.length + 2 ≤ n →
      calcParseUnary ops x n ⟨s, none⟩ = some (v, ⟨r, none⟩)
  | .power => ∀ e v n, es = [e] → e.eval ops x = some v → Stops [94] r → 8 * s.length + 3 ≤ n →
      calcParsePower ops x n ⟨s, none⟩ = some (v, ⟨r.dropWhile isWs, none⟩)
  | .product => ∀ e v n, es = [e] → e.eval ops x = some v → Stops [94] r → 8 * s.length + 5 ≤ n →
      ∃ m, 8 * r.length + 4 ≤ m ∧
        calcParseMul ops x n ⟨s, none⟩ = mulLoop ops x m v ⟨r.dropWhile isWs, none⟩
  | .sum => ∀ e v n, es = [e] → e.eval ops x = some v → Stops [94, 42, 47, 37] r →
      8 * s.length + 7 ≤ n → ∃ m, 8 * r.length + 6 ≤ m ∧
        calcParseExpr ops x n ⟨s, none⟩ = exprLoop ops x m v ⟨r.dropWhile isWs, none⟩
  | .arguments => ∀ vs n args, Tree.evals ops x es = some vs →
      Stops [94, 42, 47, 37, 43, 45, 44] r → args.length + es.length ≤ 3 → 8 * s.length + 8 ≤ n →
      argsLoop ops x n ⟨s, none⟩ args = some (some (args ++ vs), ⟨r.dropWhile isWs, none⟩)

variable {ops x} {s t u r : List UInt8} {marks : List UInt8} {c : UInt8} {v : D}

/-! ## Bytes -/

/-- The marks of the grammar. -/
def punctuation : List UInt8 := [37, 40, 41, 42, 43, 44, 45, 47, 94]

theorem isNameByte_of_blank (hc : isWs c = true) : isNameByte c = false ∧ c ≠ 46 := by
  simp only [isWs, Bool.or_eq_true, beq_iff_eq] at hc
  rcases hc with ((rfl | rfl) | rfl) | rfl
  all_goals exact ⟨rfl, by decide⟩

theorem of_mem_punctuation (hc : c ∈ punctuation) :
    isWs c = false ∧ isNameByte c = false ∧ c ≠ 46 := by
  have hall : punctuation.all (fun c => !isWs c && !isNameByte c && c != 46) = true := by decide
  have h := all_eq_true.1 hall c hc
  simpa [and_assoc] using h

theorem isNameStart_cases (hc : isNameStart c = true) :
    isDigit c = false ∧ isWs c = false ∧ c ∉ punctuation ∧ c ≠ 46 := by
  have hall : ∀ k < 256, isNameStart (UInt8.ofNat k) = true → isDigit (UInt8.ofNat k) = false ∧
      isWs (UInt8.ofNat k) = false ∧ UInt8.ofNat k ∉ punctuation ∧ UInt8.ofNat k ≠ 46 := by
    decide +kernel
  have h := hall c.toNat c.toNat_lt
  rw [UInt8.ofNat_toNat] at h
  exact h hc

theorem isDigit_cases (hc : isDigit c = true ∨ c = 46) : isWs c = false ∧ c ∉ punctuation := by
  have hall : ∀ k < 256, isDigit (UInt8.ofNat k) = true ∨ UInt8.ofNat k = 46 →
      isWs (UInt8.ofNat k) = false ∧ UInt8.ofNat k ∉ punctuation := by
    decide +kernel
  have h := hall c.toNat c.toNat_lt
  rw [UInt8.ofNat_toNat] at h
  exact h hc

theorem Stops.mono {marks' : List UInt8} (h : Stops marks r) (hsub : marks' ⊆ marks) :
    Stops marks' r :=
  ⟨h.name, h.point, fun c hc hmem => h.next c hc (hsub hmem)⟩

theorem Stops.tokenEnd (h : Stops marks r) : TokenEnd r := by
  intro c hc
  have hname := h.name c hc
  rw [isNameByte, Bool.or_eq_false_iff] at hname
  refine ⟨hname.2, ?_, ?_, ?_⟩
  · rintro rfl
    exact h.point hc
  · rintro rfl
    exact absurd hname.1 (by decide)
  · rintro rfl
    exact absurd hname.1 (by decide)

theorem stops_of_blank (h : Ws r []) (marks : List UInt8) : Stops marks r := by
  obtain ⟨b, hb, hr⟩ := h
  rw [append_nil] at hr
  subst hr
  have hhead : ∀ c ∈ r.head?, isWs c = true := fun c hc => hb c (mem_of_mem_head? hc)
  refine ⟨fun c hc => (isNameByte_of_blank (hhead c hc)).1, ?_, ?_⟩
  · intro hpoint
    exact (isNameByte_of_blank (hhead 46 hpoint)).2 rfl
  · intro c hc
    rw [dropWhile_eq_nil_iff.2 hb] at hc
    cases hc

theorem stops_of_mark (h : Ws t (c :: u)) (hc : c ∈ punctuation) (hmarks : c ∉ marks) :
    Stops marks t := by
  obtain ⟨hblank, hname, hpoint⟩ := of_mem_punctuation hc
  have hnext := h.dropWhile_cons hblank
  obtain ⟨b, hb, rfl⟩ := h
  have hhead : ∀ d ∈ (b ++ c :: u).head?, isNameByte d = false ∧ d ≠ 46 := by
    intro d hd
    cases b with
    | nil =>
      cases hd
      exact ⟨hname, hpoint⟩
    | cons k b =>
      rw [cons_append, List.head?_cons, mem_some_iff] at hd
      rw [← hd]
      exact isNameByte_of_blank (hb k mem_cons_self)
  refine ⟨fun d hd => (hhead d hd).1, fun h => (hhead 46 h).2 rfl, ?_⟩
  intro d hd
  rw [hnext] at hd
  cases hd
  exact hmarks

theorem dropWhile_isWs_twice (s : List UInt8) :
    (s.dropWhile isWs).dropWhile isWs = s.dropWhile isWs := dropWhile_idempotent isWs s

theorem calcMatch_true {p : Parser} (h : p.rest.dropWhile isWs = c :: t) :
    calcMatch p c = (true, ⟨t, p.error⟩) := by
  rw [calcMatch, calcSkipWs_rest, h]
  dsimp only
  rw [if_pos rfl]

theorem calcMatch_false {p : Parser} (h : (p.rest.dropWhile isWs).head? ≠ some c) :
    calcMatch p c = (false, calcSkipWs p) := by
  rcases calcMatch_cases p c with ⟨rest, -, -⟩ | hfalse
  · rw [calcMatch]
    split
    case h_1 => rfl
    case h_2 d rest' hrest =>
      rw [calcSkipWs_rest] at hrest
      rw [hrest, List.head?_cons, ne_eq, Option.some.injEq] at h
      rw [if_neg h]
  · exact hfalse

theorem calcSkipWs_twice (p : Parser) : calcSkipWs (calcSkipWs p) = calcSkipWs p := by
  rw [calcSkipWs, calcSkipWs, dropWhile_isWs_twice]

theorem calcMatch_skip (p : Parser) (c : UInt8) : calcMatch (calcSkipWs p) c = calcMatch p c := by
  rw [calcMatch, calcMatch, calcSkipWs_twice]
  rfl

theorem Stops.not_next (h : Stops marks r) (hc : c ∈ marks) :
    (r.dropWhile isWs).head? ≠ some c := fun hnext => h.next c hnext hc

theorem calcParsePrimary_skip (n : ℕ) (p : Parser) :
    calcParsePrimary ops x n (calcSkipWs p) = calcParsePrimary ops x n p := by
  cases n with
  | zero => rfl
  | succ n => rw [calcParsePrimary, calcParsePrimary, calcSkipWs_twice]

theorem calcParseUnary_skip (n : ℕ) (p : Parser) :
    calcParseUnary ops x n (calcSkipWs p) = calcParseUnary ops x n p := by
  cases n with
  | zero => rfl
  | succ n => rw [calcParseUnary, calcParseUnary, calcMatch_skip]

theorem calcParsePower_skip (n : ℕ) (p : Parser) :
    calcParsePower ops x n (calcSkipWs p) = calcParsePower ops x n p := by
  cases n with
  | zero => rfl
  | succ n => rw [calcParsePower, calcParsePower, calcParseUnary_skip]

theorem calcParseMul_skip (n : ℕ) (p : Parser) :
    calcParseMul ops x n (calcSkipWs p) = calcParseMul ops x n p := by
  cases n with
  | zero => rfl
  | succ n => rw [calcParseMul, calcParseMul, calcParsePower_skip]

theorem calcParseExpr_skip (n : ℕ) (p : Parser) :
    calcParseExpr ops x n (calcSkipWs p) = calcParseExpr ops x n p := by
  cases n with
  | zero => rfl
  | succ n => rw [calcParseExpr, calcParseExpr, calcParseMul_skip]

theorem argsLoop_skip (n : ℕ) (p : Parser) (args : List D) :
    argsLoop ops x n (calcSkipWs p) args = argsLoop ops x n p args := by
  cases n with
  | zero => rfl
  | succ n => rw [argsLoop, argsLoop, calcParseExpr_skip]

theorem Numeral.head (n : Numeral) (r : List UInt8) :
    ∃ c t, n.text ++ r = c :: t ∧ (isDigit c = true ∨ c = 46) := by
  obtain ⟨whole, frac, exponent, hdigits, hfrac, hne⟩ := n
  cases whole with
  | cons c whole => exact ⟨c, _, rfl, .inl hdigits.cons.1⟩
  | nil =>
    cases frac with
    | some ds => exact ⟨46, ds ++ exponent.elim [] Exponent.text ++ r, by simp [Numeral.text],
        .inr rfl⟩
    | none =>
      rcases hne with hne | ⟨ds, hds, -⟩
      · exact absurd rfl hne
      · cases hds

theorem Name.head (name : Name) (r : List UInt8) :
    ∃ c t, name.text ++ r = c :: t ∧ isNameStart c = true := by
  obtain ⟨text, -, start⟩ := name
  obtain ⟨c, hc, hstart⟩ := start
  cases text with
  | nil => cases hc
  | cons d text =>
    rw [List.head?_cons, mem_some_iff] at hc
    rw [← hc] at hstart
    exact ⟨d, text ++ r, rfl, hstart⟩

theorem Reads.head_primary {e : Tree} (h : Reads .primary s [e] r) :
    ∃ c rest, s.dropWhile isWs = c :: rest ∧ (c = 40 ∨ c ∉ punctuation) := by
  cases h with
  | number n hn =>
    obtain ⟨c, rest, htext, hc⟩ := n.head r
    rw [htext] at hn
    obtain ⟨hblank, hmark⟩ := isDigit_cases hc
    exact ⟨c, rest, hn.dropWhile_cons hblank, .inr hmark⟩
  | const name hname hc =>
    obtain ⟨c, rest, htext, hstart⟩ := name.head r
    rw [htext] at hname
    obtain ⟨-, hblank, hmark, -⟩ := isNameStart_cases hstart
    exact ⟨c, rest, hname.dropWhile_cons hblank, .inr hmark⟩
  | paren hopen h hclose => exact ⟨40, _, hopen.dropWhile_cons rfl, .inl rfl⟩
  | @call _ t _ _ _ _ _ name hname hf hopen h harity hclose =>
    obtain ⟨c, rest, htext, hstart⟩ := name.head t
    rw [htext] at hname
    obtain ⟨-, hblank, hmark, -⟩ := isNameStart_cases hstart
    exact ⟨c, rest, hname.dropWhile_cons hblank, .inr hmark⟩

theorem Reads.not_close {level : Level} {es : List Tree} (h : Reads level s es r) :
    (s.dropWhile isWs).head? ≠ some 41 := by
  have hprimary {s r : List UInt8} {e : Tree} (h : Reads .primary s [e] r) :
      (s.dropWhile isWs).head? ≠ some 41 := by
    obtain ⟨c, rest, hs, hc⟩ := h.head_primary
    rw [hs, List.head?_cons, ne_eq, Option.some.injEq]
    rintro rfl
    rcases hc with hc | hc
    · exact absurd hc (by decide)
    · exact hc (by decide)
  have hsign {s t : List UInt8} {c : UInt8} (h : Ws s (c :: t)) (hc : isWs c = false)
      (hne : c ≠ 41) : (s.dropWhile isWs).head? ≠ some 41 := by
    rw [h.dropWhile_cons hc, List.head?_cons, ne_eq, Option.some.injEq]
    exact hne
  induction h with
  | number n hn => exact hprimary (.number n hn)
  | const name hname hc => exact hprimary (.const name hname hc)
  | paren hopen h hclose _ => exact hprimary (.paren hopen h hclose)
  | call name hname hf hopen h harity hclose _ =>
    exact hprimary (.call name hname hf hopen h harity hclose)
  | argument h ih => exact ih
  | arguments h hcomma hs ih _ => exact ih
  | operand h ih => exact ih
  | plus hws h _ => exact hsign hws rfl (by decide)
  | minus hws h _ => exact hsign hws rfl (by decide)
  | base h ih => exact ih
  | pow ha hhat hb iha _ => exact iha
  | factor h ih => exact ih
  | product ha hop hc hb iha _ => exact iha
  | summand h ih => exact ih
  | sum ha hop hc hb iha _ => exact iha

theorem nameLoop_append {name : List UInt8} (hname : ∀ c ∈ name, isNameByte c = true)
    (hr : ∀ c ∈ r.head?, isNameByte c = false) (len : ℕ) (hlen : len + name.length < calcIdentMax) :
    nameLoop (name ++ r) len = (name.map toLower, r) := by
  induction name generalizing len with
  | nil =>
    cases r with
    | nil => rfl
    | cons c r =>
      have hc : ¬ (isNameByte c = true ∧ len + 1 < calcIdentMax) := by
        rw [hr c rfl]
        exact fun h => Bool.false_ne_true h.1
      rw [nil_append, nameLoop, if_neg hc]
      rfl
  | cons c name ih =>
    rw [length_cons] at hlen
    have hc : isNameByte c = true ∧ len + 1 < calcIdentMax :=
      ⟨hname c mem_cons_self, by omega⟩
    rw [cons_append, nameLoop, if_pos hc,
      ih (fun d hd => hname d (mem_cons_of_mem c hd)) (len + 1) (by omega)]
    rfl

theorem Const.length_le {name : List UInt8} {k : Const} (h : Const.ofName name = some k) :
    name.length ≤ 5 := by
  rw [Const.ofName] at h
  split at h
  case isTrue heq =>
    rw [heq]
    decide
  case isFalse =>
    split at h
    case isTrue heq =>
      rw [heq]
      decide
    case isFalse =>
      split at h
      case isTrue heq =>
        rw [heq]
        decide
      case isFalse =>
        split at h
        case isTrue heq =>
          rw [heq]
          decide
        case isFalse => cases h

theorem Func.name_cases {name : List UInt8} {f : Func} (h : Func.ofName name = some f) :
    name.length ≤ 5 ∧ Const.ofName name = none := by
  rw [Func.ofName, map_eq_some_iff] at h
  obtain ⟨entry, hfind, -⟩ := h
  have hall : funcNames.all (fun entry => decide ((lit entry.1).length ≤ 5) &&
      decide (Const.ofName (lit entry.1) = none)) = true := by decide
  have hentry := all_eq_true.1 hall entry (mem_of_find?_eq_some hfind)
  have hname : lit entry.1 = name := by
    simpa using List.find?_some hfind
  rw [hname] at hentry
  simpa using hentry

theorem nameLoop_name (name : Name) (hr : ∀ c ∈ r.head?, isNameByte c = false)
    (hlen : name.lower.length ≤ 5) : nameLoop (name.text ++ r) 0 = (name.lower, r) := by
  rw [Name.lower, length_map] at hlen
  have hmax : 0 + name.text.length < calcIdentMax := by
    rw [calcIdentMax]
    omega
  exact nameLoop_append name.nameBytes hr 0 hmax

theorem complete_number (n : Numeral) (hn : Ws s (n.text ++ r)) :
    CompleteFor ops x .primary s [.num n] r := by
  intro e v k he heval hstop hk
  cases he
  rw [Tree.eval, Option.some.injEq] at heval
  obtain ⟨c, rest, htext, hc⟩ := n.head r
  obtain ⟨hblank, hmark⟩ := isDigit_cases hc
  have hstrtod := @strtod_numeral _ ops _ n hstop.tokenEnd
  have hread : r ≠ n.text ++ r := by
    intro heq
    have hlen := congrArg List.length heq
    rw [htext] at heq
    have hnil : n.text = [] := by
      rw [← length_eq_zero_iff]
      rw [length_append] at hlen
      omega
    rw [hnil, nil_append] at htext
    exact absurd (hstop.tokenEnd c (by rw [htext]; rfl)) (by rcases hc with hc | hc <;> simp [hc])
  rw [htext] at hn hstrtod hread
  have hopen : c ≠ 40 := by
    rintro rfl
    exact hmark (by decide)
  cases k with
  | zero => omega
  | succ k =>
    rw [calcParsePrimary]
    rw [calcSkipWs_rest, hn.dropWhile_cons hblank]
    dsimp only
    rw [if_neg hopen, if_pos hc, hstrtod]
    rw [if_neg hread, heval]
    rfl

theorem calcParsePrimary_name (name : Name) (hname : Ws s (name.text ++ t))
    (ht : ∀ c ∈ t.head?, isNameByte c = false) (hlen : name.lower.length ≤ 5) (k : ℕ) :
    calcParsePrimary ops x (k + 1) ⟨s, none⟩ =
      match Const.ofName name.lower with
      | some c => some (c.value ops x, ⟨t, none⟩)
      | none =>
        let opened := calcMatch ⟨t, none⟩ 40
        if opened.1 then calcParseCall ops x k name.lower (calcSkipWs opened.2)
        else some (ops.nan, calcSetError opened.2 "unknown identifier") := by
  obtain ⟨c, rest, htext, hstart⟩ := name.head t
  obtain ⟨hdigit, hblank, hmark, hpoint⟩ := isNameStart_cases hstart
  have hloop := nameLoop_name name ht hlen
  rw [htext] at hname hloop
  have hopen : c ≠ 40 := by
    rintro rfl
    exact hmark (by decide)
  have hnumber : ¬ (isDigit c = true ∨ c = 46) := by
    rw [hdigit, not_or]
    exact ⟨Bool.false_ne_true, hpoint⟩
  rw [calcParsePrimary]
  rw [calcSkipWs_rest, hname.dropWhile_cons hblank]
  dsimp only
  rw [if_neg hopen, if_neg hnumber, if_pos hstart, hloop]
  rfl

theorem complete_const {k : Const} (name : Name) (hname : Ws s (name.text ++ r))
    (hk : Const.ofName name.lower = some k) : CompleteFor ops x .primary s [.const k] r := by
  intro e v n he heval hstop hn
  cases he
  rw [Tree.eval, Option.some.injEq] at heval
  cases n with
  | zero => omega
  | succ n =>
    rw [calcParsePrimary_name name hname hstop.name (Const.length_le hk), hk]
    dsimp only
    rw [heval]

theorem Stops.no_match (h : Stops marks r) (hc : c ∈ marks) :
    calcMatch ⟨r.dropWhile isWs, none⟩ c = (false, ⟨r.dropWhile isWs, none⟩) := by
  have hskip : calcSkipWs ⟨r.dropWhile isWs, none⟩ = ⟨r.dropWhile isWs, none⟩ :=
    calcSkipWs_twice ⟨r, none⟩
  rw [calcMatch_false, hskip]
  rw [dropWhile_isWs_twice]
  exact h.not_next hc

theorem mulLoop_stop {n : ℕ} (h : Stops marks r) (hstar : 42 ∈ marks) (hslash : 47 ∈ marks)
    (hpercent : 37 ∈ marks) (hn : 0 < n) (v : D) :
    mulLoop ops x n v ⟨r.dropWhile isWs, none⟩ = some (v, ⟨r.dropWhile isWs, none⟩) := by
  cases n with
  | zero => exact absurd hn (Nat.lt_irrefl 0)
  | succ n =>
    rw [mulLoop, if_neg (not_not.2 rfl)]
    rw [h.no_match hstar, if_neg Bool.false_ne_true, h.no_match hslash,
      if_neg Bool.false_ne_true, h.no_match hpercent, if_neg Bool.false_ne_true]

theorem exprLoop_stop {n : ℕ} (h : Stops marks r) (hplus : 43 ∈ marks) (hminus : 45 ∈ marks)
    (hn : 0 < n) (v : D) :
    exprLoop ops x n v ⟨r.dropWhile isWs, none⟩ = some (v, ⟨r.dropWhile isWs, none⟩) := by
  cases n with
  | zero => exact absurd hn (Nat.lt_irrefl 0)
  | succ n =>
    rw [exprLoop, if_neg (not_not.2 rfl)]
    rw [h.no_match hplus, if_neg Bool.false_ne_true, h.no_match hminus, if_neg Bool.false_ne_true]

theorem CompleteFor.expr {e : Tree} {n : ℕ} (h : CompleteFor ops x .sum s [e] r)
    (heval : e.eval ops x = some v) (hstop : Stops [94, 42, 47, 37, 43, 45] r)
    (hn : 8 * s.length + 7 ≤ n) :
    calcParseExpr ops x n ⟨s, none⟩ = some (v, ⟨r.dropWhile isWs, none⟩) := by
  obtain ⟨m, hm, hrun⟩ := h e v n rfl heval (hstop.mono (by decide)) hn
  rw [hrun, exprLoop_stop hstop (by decide) (by decide) (by omega)]

theorem Ws.length_lt (h : Ws s (c :: t)) : t.length < s.length :=
  Nat.lt_of_lt_of_le (Nat.lt_succ_self _) h.suffix.length_le

theorem complete_paren {e : Tree} (hopen : Ws s (40 :: t)) (hclose : Ws u (41 :: r))
    (ih : CompleteFor ops x .sum t [e] u) : CompleteFor ops x .primary s [e] r := by
  intro e' v n he heval _ hn
  cases he
  have hlt := hopen.length_lt
  cases n with
  | zero => omega
  | succ n =>
    have hrun := ih.expr heval (stops_of_mark hclose (by decide) (by decide))
      (show 8 * t.length + 7 ≤ n by omega)
    rw [calcParsePrimary]
    rw [calcSkipWs_rest, hopen.dropWhile_cons rfl]
    dsimp only
    rw [if_pos rfl]
    have hrun' : calcParseExpr ops x n { calcSkipWs ⟨s, none⟩ with rest := t } = _ := hrun
    rw [hrun', map_some, calcMatch_true (t := r)]
    · rfl
    · rw [dropWhile_isWs_twice]
      exact hclose.dropWhile_cons rfl

theorem complete_call {f : Func} {es : List Tree} {w : List UInt8} (name : Name)
    (hname : Ws s (name.text ++ t)) (hf : Func.ofName name.lower = some f)
    (hopen : Ws t (40 :: u)) (h : Reads .arguments u es w) (harity : es.length = f.arity)
    (hclose : Ws w (41 :: r)) (ih : CompleteFor ops x .arguments u es w) :
    CompleteFor ops x .primary s [.call f es] r := by
  intro e v n he heval _ hn
  cases he
  rw [Tree.eval, map_eq_some_iff] at heval
  obtain ⟨vs, hvs, hv⟩ := heval
  obtain ⟨hlen, hconst⟩ := Func.name_cases hf
  have harity3 : ([] : List D).length + es.length ≤ 3 := by
    rw [harity, length_nil, Nat.zero_add]
    cases f <;> decide
  have hlt := hopen.length_lt
  have hname' : t.length < s.length := by
    obtain ⟨c, rest, htext, -⟩ := name.head []
    have hle := hname.suffix.length_le
    have hpos := congrArg List.length htext
    rw [append_nil, length_cons] at hpos
    rw [length_append] at hle
    omega
  cases n with
  | zero => omega
  | succ n =>
    rw [calcParsePrimary_name name hname (stops_of_mark hopen (by decide) not_mem_nil).name
      hlen, hconst]
    rw [calcMatch_true (t := u)]
    swap
    · exact hopen.dropWhile_cons rfl
    rw [if_pos rfl]
    cases n with
    | zero => omega
    | succ n =>
      have hargs := ih vs n [] hvs (stops_of_mark hclose (by decide) (by decide)) harity3
        (by omega)
      have hskip : argsLoop ops x n (calcSkipWs ⟨u, none⟩) [] = _ :=
        (argsLoop_skip n ⟨u, none⟩ []).trans hargs
      have hcount : ([] ++ vs).length = f.arity := by
        rw [nil_append, length_evals hvs, harity]
      rw [calcParseCall, calcSkipWs_rest, if_pos h.not_close]
      rw [hskip, map_some]
      dsimp only
      rw [calcMatch_true (t := r)]
      swap
      · rw [dropWhile_isWs_twice]
        exact hclose.dropWhile_cons rfl
      rw [if_pos rfl, calcCallFunc, hf]
      dsimp only
      rw [if_pos hcount, nil_append, hv]

/-! ## Signs and powers -/

theorem complete_operand {e : Tree} (h : Reads .primary s [e] r)
    (ih : CompleteFor ops x .primary s [e] r) : CompleteFor ops x .unary s [e] r := by
  intro e' v n he heval hstop hn
  cases he
  obtain ⟨c, rest, hs, hc⟩ := h.head_primary
  have hno {k : UInt8} (hk : k ∈ punctuation) (hne : k ≠ 40) : (s.dropWhile isWs).head? ≠ some k := by
    rw [hs, List.head?_cons, ne_eq, Option.some.injEq]
    rintro rfl
    rcases hc with hc | hc
    · exact hne hc
    · exact hc hk
  cases n with
  | zero => omega
  | succ n =>
    rw [calcParseUnary, calcMatch_false (hno (by decide) (by decide))]
    rw [if_neg Bool.false_ne_true, calcMatch_skip, calcMatch_false (hno (by decide) (by decide))]
    rw [if_neg Bool.false_ne_true, calcParsePrimary_skip]
    exact ih e v n rfl heval hstop (by omega)

theorem complete_plus {e : Tree} (hsign : Ws s (43 :: t)) (ih : CompleteFor ops x .unary t [e] r) :
    CompleteFor ops x .unary s [e] r := by
  intro e' v n he heval hstop hn
  cases he
  have hlt := hsign.length_lt
  cases n with
  | zero => omega
  | succ n =>
    rw [calcParseUnary, calcMatch_true (hsign.dropWhile_cons rfl)]
    rw [if_pos rfl]
    exact ih e v n rfl heval hstop (by omega)

theorem complete_minus {e : Tree} (hsign : Ws s (45 :: t)) (ih : CompleteFor ops x .unary t [e] r) :
    CompleteFor ops x .unary s [.neg e] r := by
  intro e' v n he heval hstop hn
  cases he
  rw [Tree.eval, map_eq_some_iff] at heval
  obtain ⟨w, hw, hv⟩ := heval
  have hlt := hsign.length_lt
  have hplus : (s.dropWhile isWs).head? ≠ some 43 := by
    rw [hsign.dropWhile_cons rfl, List.head?_cons, ne_eq, Option.some.injEq]
    decide
  cases n with
  | zero => omega
  | succ n =>
    rw [calcParseUnary, calcMatch_false hplus]
    rw [if_neg Bool.false_ne_true, calcMatch_skip, calcMatch_true (hsign.dropWhile_cons rfl)]
    rw [if_pos rfl, ih e w n rfl hw hstop (by omega), map_some, hv]

theorem complete_base {e : Tree} (ih : CompleteFor ops x .unary s [e] r) :
    CompleteFor ops x .power s [e] r := by
  intro e' v n he heval hstop hn
  cases he
  cases n with
  | zero => omega
  | succ n =>
    rw [calcParsePower, ih e v n rfl heval (hstop.mono (nil_subset _)) (by omega),
      bind_some, calcMatch_false (hstop.not_next mem_cons_self)]
    rw [if_neg Bool.false_ne_true]
    rfl

theorem complete_pow {a b : Tree} (ha : Reads .unary s [a] t) (hhat : Ws t (94 :: u))
    (iha : CompleteFor ops x .unary s [a] t) (ihb : CompleteFor ops x .power u [b] r) :
    CompleteFor ops x .power s [.bin .pow a b] r := by
  intro e v n he heval hstop hn
  cases he
  rw [Tree.eval, bind_eq_some_iff] at heval
  obtain ⟨va, hva, heval⟩ := heval
  rw [bind_eq_some_iff] at heval
  obtain ⟨vb, hvb, heval⟩ := heval
  cases heval
  have hle := ha.suffix.length_le
  have hlt := hhat.length_lt
  cases n with
  | zero => omega
  | succ n =>
    rw [calcParsePower, iha a va n rfl hva (stops_of_mark hhat (by decide) not_mem_nil)
      (by omega), bind_some, calcMatch_true (hhat.dropWhile_cons rfl)]
    rw [if_pos rfl, ihb b vb n rfl hvb hstop (by omega), map_some]

theorem complete_factor {e : Tree} (h : Reads .power s [e] r)
    (ih : CompleteFor ops x .power s [e] r) : CompleteFor ops x .product s [e] r := by
  intro e' v n he heval hstop hn
  cases he
  have hle := h.suffix.length_le
  cases n with
  | zero => omega
  | succ n =>
    refine ⟨n, by omega, ?_⟩
    rw [calcParseMul, ih e v n rfl heval hstop (by omega), bind_some]

theorem complete_summand {e : Tree} (h : Reads .product s [e] r)
    (ih : CompleteFor ops x .product s [e] r) : CompleteFor ops x .sum s [e] r := by
  intro e' v n he heval hstop hn
  cases he
  have hle := h.suffix.length_le
  cases n with
  | zero => omega
  | succ n =>
    obtain ⟨m, hm, hrun⟩ := ih e v n rfl heval (hstop.mono (by decide)) (by omega)
    refine ⟨n, by omega, ?_⟩
    rw [calcParseExpr, hrun, mulLoop_stop hstop (by decide) (by decide) (by decide) (by omega),
      bind_some]

theorem mulLoop_op {op : Op} {a b w : D} {m : ℕ} (hop : IsOp .product op c)
    (hc : t.dropWhile isWs = c :: u) (hw : op.apply ops a b = some w)
    (hcall : calcParsePower ops x m ⟨u, none⟩ = some (b, ⟨r, none⟩)) :
    mulLoop ops x (m + 1) a ⟨t, none⟩ = mulLoop ops x m w ⟨r, none⟩ := by
  have hno {k : UInt8} (hk : c ≠ k) : (t.dropWhile isWs).head? ≠ some k := by
    rw [hc, List.head?_cons, ne_eq, Option.some.injEq]
    exact hk
  rw [mulLoop, if_neg (not_not.2 rfl)]
  cases hop with
  | mul =>
    cases hw
    rw [calcMatch_true hc]
    rw [if_pos rfl, hcall, bind_some]
  | div =>
    rw [calcMatch_false (hno (by decide))]
    rw [if_neg Bool.false_ne_true, calcMatch_skip, calcMatch_true hc]
    rw [if_pos rfl, hcall, bind_some]
    rw [Op.apply] at hw
    split at hw
    case isTrue => cases hw
    case isFalse hzero =>
      cases hw
      rw [if_neg hzero]
  | mod =>
    cases hw
    rw [calcMatch_false (hno (by decide))]
    rw [if_neg Bool.false_ne_true, calcMatch_skip, calcMatch_false (hno (by decide))]
    rw [if_neg Bool.false_ne_true, calcMatch_skip, calcMatch_true hc]
    rw [if_pos rfl, hcall, bind_some]

theorem exprLoop_op {op : Op} {a b w : D} {m : ℕ} (hop : IsOp .sum op c)
    (hc : t.dropWhile isWs = c :: u) (hw : op.apply ops a b = some w)
    (hcall : calcParseMul ops x m ⟨u, none⟩ = some (b, ⟨r, none⟩)) :
    exprLoop ops x (m + 1) a ⟨t, none⟩ = exprLoop ops x m w ⟨r, none⟩ := by
  have hno {k : UInt8} (hk : c ≠ k) : (t.dropWhile isWs).head? ≠ some k := by
    rw [hc, List.head?_cons, ne_eq, Option.some.injEq]
    exact hk
  rw [exprLoop, if_neg (not_not.2 rfl)]
  cases hop with
  | add =>
    cases hw
    rw [calcMatch_true hc]
    rw [if_pos rfl, hcall, bind_some]
  | sub =>
    cases hw
    rw [calcMatch_false (hno (by decide))]
    rw [if_neg Bool.false_ne_true, calcMatch_skip, calcMatch_true hc]
    rw [if_pos rfl, hcall, bind_some]

theorem IsOp.cases_product {op : Op} (h : IsOp .product op c) :
    isWs c = false ∧ c ∈ punctuation ∧ c ∉ [(94 : UInt8)] := by
  cases h <;> decide

theorem IsOp.cases_sum {op : Op} (h : IsOp .sum op c) :
    isWs c = false ∧ c ∈ punctuation ∧ c ∉ [(94 : UInt8), 42, 47, 37] := by
  cases h <;> decide

theorem complete_product {a b : Tree} {op : Op} (hop : IsOp .product op c) (hc : Ws t (c :: u))
    (hb : Reads .power u [b] r) (iha : CompleteFor ops x .product s [a] t)
    (ihb : CompleteFor ops x .power u [b] r) : CompleteFor ops x .product s [.bin op a b] r := by
  intro e v n he heval hstop hn
  cases he
  rw [Tree.eval, bind_eq_some_iff] at heval
  obtain ⟨va, hva, heval⟩ := heval
  rw [bind_eq_some_iff] at heval
  obtain ⟨vb, hvb, heval⟩ := heval
  obtain ⟨hblank, hmark, hne⟩ := hop.cases_product
  have hlt := hc.length_lt
  have hle := hb.suffix.length_le
  obtain ⟨m, hm, hrun⟩ := iha a va n rfl hva (stops_of_mark hc hmark hne) hn
  cases m with
  | zero => omega
  | succ m =>
    refine ⟨m, by omega, ?_⟩
    rw [hrun]
    apply mulLoop_op hop _ heval (ihb b vb m rfl hvb hstop (by omega))
    rw [dropWhile_isWs_twice]
    exact hc.dropWhile_cons hblank

theorem complete_sum {a b : Tree} {op : Op} (hop : IsOp .sum op c) (hc : Ws t (c :: u))
    (hb : Reads .product u [b] r) (iha : CompleteFor ops x .sum s [a] t)
    (ihb : CompleteFor ops x .product u [b] r) : CompleteFor ops x .sum s [.bin op a b] r := by
  intro e v n he heval hstop hn
  cases he
  rw [Tree.eval, bind_eq_some_iff] at heval
  obtain ⟨va, hva, heval⟩ := heval
  rw [bind_eq_some_iff] at heval
  obtain ⟨vb, hvb, heval⟩ := heval
  obtain ⟨hblank, hmark, hne⟩ := hop.cases_sum
  have hlt := hc.length_lt
  have hle := hb.suffix.length_le
  obtain ⟨m, hm, hrun⟩ := iha a va n rfl hva (stops_of_mark hc hmark hne) hn
  cases m with
  | zero => omega
  | succ m =>
    obtain ⟨k, hk, hmul⟩ := ihb b vb m rfl hvb (hstop.mono (by decide)) (by omega)
    rw [mulLoop_stop hstop (by decide) (by decide) (by decide) (by omega)] at hmul
    refine ⟨m, by omega, ?_⟩
    rw [hrun]
    apply exprLoop_op hop _ heval hmul
    rw [dropWhile_isWs_twice]
    exact hc.dropWhile_cons hblank

theorem complete_argument {e : Tree} (ih : CompleteFor ops x .sum s [e] r) :
    CompleteFor ops x .arguments s [e] r := by
  intro vs n args hvs hstop _ hn
  rw [Tree.evals, bind_eq_some_iff] at hvs
  obtain ⟨v, hv, hvs⟩ := hvs
  rw [Tree.evals, map_some, Option.some.injEq] at hvs
  subst hvs
  cases n with
  | zero => omega
  | succ n =>
    have hcomma : ((r.dropWhile isWs).dropWhile isWs).head? ≠ some 44 := by
      rw [dropWhile_isWs_twice]
      exact hstop.not_next (by decide)
    rw [argsLoop, ih.expr hv (hstop.mono (by decide)) (by omega), bind_some,
      if_neg (not_not.2 rfl), calcMatch_false hcomma]
    rw [if_pos rfl, calcSkipWs, dropWhile_isWs_twice]

theorem complete_arguments {e : Tree} {es : List Tree} (h : Reads .sum s [e] t)
    (hcomma : Ws t (44 :: u)) (hs : Reads .arguments u es r) (ih : CompleteFor ops x .sum s [e] t)
    (ihs : CompleteFor ops x .arguments u es r) : CompleteFor ops x .arguments s (e :: es) r := by
  intro vs n args hvs hstop hcount hn
  rw [Tree.evals, bind_eq_some_iff] at hvs
  obtain ⟨v, hv, hvs⟩ := hvs
  rw [map_eq_some_iff] at hvs
  obtain ⟨ws, hws, hvs⟩ := hvs
  subst hvs
  have hlt := hcomma.length_lt
  have hle := h.suffix.length_le
  have hpos : 0 < es.length := by
    cases hs with
    | argument h => exact Nat.zero_lt_one
    | arguments h hcomma hs => exact Nat.succ_pos _
  rw [length_cons] at hcount
  cases n with
  | zero => omega
  | succ n =>
    have hmore : (args ++ [v]).length < 3 := by
      rw [length_append, length_singleton]
      omega
    rw [argsLoop, ih.expr hv (stops_of_mark hcomma (by decide) (by decide)) (by omega),
      bind_some, if_neg (not_not.2 rfl), calcMatch_true (t := u)]
    swap
    · rw [dropWhile_isWs_twice]
      exact hcomma.dropWhile_cons rfl
    rw [if_neg (fun h => by cases h), if_pos hmore, ihs ws n (args ++ [v]) hws hstop
      (by rw [length_append, length_singleton]; omega) (by omega), append_assoc,
      singleton_append]

theorem complete {level : Level} {es : List Tree} (h : Reads level s es r) :
    CompleteFor ops x level s es r := by
  induction h with
  | number n hn => exact complete_number n hn
  | const name hname hc => exact complete_const name hname hc
  | paren hopen h hclose ih => exact complete_paren hopen hclose ih
  | call name hname hf hopen h harity hclose ih =>
    exact complete_call name hname hf hopen h harity hclose ih
  | argument h ih => exact complete_argument ih
  | arguments h hcomma hs ih ihs => exact complete_arguments h hcomma hs ih ihs
  | operand h ih => exact complete_operand h ih
  | plus hsign h ih => exact complete_plus hsign ih
  | minus hsign h ih => exact complete_minus hsign ih
  | base h ih => exact complete_base ih
  | pow ha hhat hb iha ihb => exact complete_pow ha hhat iha ihb
  | factor h ih => exact complete_factor h ih
  | product ha hop hc hb iha ihb => exact complete_product hop hc hb iha ihb
  | summand h ih => exact complete_summand h ih
  | sum ha hop hc hb iha ihb => exact complete_sum hop hc hb iha ihb

theorem calcEval_of_derives {text : List UInt8} {e : Tree} (h : Derives text e)
    (heval : e.eval ops x = some v) (hbad : ops.isBad v = false) :
    calcEval ops x text = some (.ok v) := by
  obtain ⟨r, hreads, hblank⟩ := h
  have hrun := (complete hreads).expr heval (stops_of_blank hblank _)
    (show 8 * text.length + 7 ≤ calcFuel text by rw [calcFuel]; omega)
  have hend : r.dropWhile isWs = [] := hblank.dropWhile
  have hnone : ¬ ((calcSkipWs ⟨r.dropWhile isWs, none⟩).error = none ∧
      (calcSkipWs ⟨r.dropWhile isWs, none⟩).rest ≠ []) := by
    rw [calcSkipWs_rest, hend]
    exact fun h => h.2 rfl
  have hgood : ¬ ((calcSkipWs ⟨r.dropWhile isWs, none⟩).error ≠ none ∨ ops.isBad v = true) := by
    rw [hbad, not_or]
    exact ⟨not_not.2 rfl, Bool.false_ne_true⟩
  rw [calcEval, hrun, map_some]
  dsimp only
  rw [if_neg hnone, if_neg hgood]

/-- The evaluator implements the grammar: where no comma stands in front of a closing parenthesis, a
text that is accepted is an expression with this value, and every expression is accepted unless an
operation fails. -/
theorem calcEval_correct (ops : Doubles D) (x : D) (text : List UInt8) :
    (∀ v, calcEval ops x text = some (.ok v) → NoDangling text →
      ops.isBad v = false ∧ ∃ e, Derives text e ∧ e.eval ops x = some v) ∧
    ∀ e v, Derives text e → e.eval ops x = some v → ops.isBad v = false →
      calcEval ops x text = some (.ok v) :=
  ⟨fun _ h hdangling => derives_of_calcEval h hdangling,
    fun _ _ h heval hbad => calcEval_of_derives h heval hbad⟩

theorem noDangling_of_notMem {text : List UInt8} (h : 44 ∉ text) : NoDangling text := by
  intro s t r htext _
  rw [htext] at h
  exact h (mem_append_right s mem_cons_self)

theorem calcEval_minus_two_squared : ∃ e, Derives (lit "-2^2") e ∧ e.eval rationals 0 = some 4 :=
  ((calcEval_correct rationals 0 (lit "-2^2")).1 4 (by decide +kernel)
    (noDangling_of_notMem (by decide))).2

def two : Tree := .num
  { whole := [50], frac := none, exponent := none, digits := by simp [Digits, isDigit],
    fracDigits := by simp, ne_nil := .inl (List.cons_ne_nil 50 []) }

/-- The sign belongs to the operand: the value is not that of the tree in which `^` binds tighter.
And a comma behind the third argument is passed over. -/
theorem sign_before_power : calcEval rationals 0 (lit "-2^2") = some (.ok 4) ∧
    (Tree.neg (.bin .pow two two)).eval rationals 0 = some (-4) ∧
    calcEval rationals 0 (lit "clamp(1,2,3,)") = some (.ok 1) :=
  ⟨by decide +kernel, by decide +kernel, by decide +kernel⟩

end Cleonos.Calc
