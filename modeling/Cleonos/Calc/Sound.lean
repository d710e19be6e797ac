import Cleonos.Calc.Parser

/-!
# What the calculator accepts

If the evaluator succeeds, the text is an expression, and the value is that of the expression.
-/

namespace Cleonos.Calc

open List Option

variable {D : Type*} (ops : Doubles D) (x : D)

/-- The text starts with an expression of a level that has a value; blanks may be missing in what
is left. -/
def Value (level : Level) (s : List UInt8) (v : D) (r : List UInt8) : Prop :=
  ∃ e t, Reads level s [e] t ∧ Ws t r ∧ e.eval ops x = some v

/-- Without an error at the end there was none, and an expression has been read. -/
def SoundFor (level : Level) (parse : Parser → Option (D × Parser)) : Prop :=
  ∀ p v p', parse p = some (v, p') → p'.error = none →
    p.error = none ∧ (NoDangling p.rest → Value ops x level p.rest v p'.rest)

/-- The same of a loop that goes on behind an expression. -/
def SoundLoop (level : Level) (loop : D → Parser → Option (D × Parser)) : Prop :=
  ∀ value p v p', loop value p = some (v, p') → p'.error = none → p.error = none ∧
    ∀ s, NoDangling s → Value ops x level s value p.rest → Value ops x level s v p'.rest

/-- The arguments that have been read, possibly with a comma behind them. -/
def SoundArgs (loop : Parser → List D → Option (Option (List D) × Parser)) : Prop :=
  ∀ p args result p', loop p args = some (result, p') → p'.error = none →
    p.error = none ∧ ∃ vs, result = some (args ++ vs) ∧ (NoDangling p.rest →
      ∃ es t, Reads .arguments p.rest es t ∧ Tree.evals ops x es = some vs ∧
        (Ws t p'.rest ∨ Ws t (44 :: p'.rest)))

/-- A call that has been read. -/
def SoundCall (call : List UInt8 → Parser → Option (D × Parser)) : Prop :=
  ∀ name p v p', call name p = some (v, p') → p'.error = none →
    p.error = none ∧ (NoDangling p.rest → ∃ f es t vs, Func.ofName name = some f ∧
      Reads .arguments p.rest es t ∧ es.length = f.arity ∧ Ws t (41 :: p'.rest) ∧
      Tree.evals ops x es = some vs ∧ v = f.apply ops vs)

/-- All functions of the evaluator. -/
structure Sound (n : ℕ) : Prop where
  primary : SoundFor ops x .primary (calcParsePrimary ops x n)
  call : SoundCall ops x (calcParseCall ops x n)
  args : SoundArgs ops x (argsLoop ops x n)
  unary : SoundFor ops x .unary (calcParseUnary ops x n)
  power : SoundFor ops x .power (calcParsePower ops x n)
  mulLoop : SoundLoop ops x .product (mulLoop ops x n)
  mul : SoundFor ops x .product (calcParseMul ops x n)
  exprLoop : SoundLoop ops x .sum (exprLoop ops x n)
  expr : SoundFor ops x .sum (calcParseExpr ops x n)

variable {ops x} {n : ℕ} {p q : Parser} {v : D} {s : List UInt8} {ch : UInt8}

/-! ## Small steps -/

@[simp] theorem calcSetError_ne (p : Parser) (message : String) :
    (calcSetError p message).error ≠ none := by
  rw [calcSetError]
  split
  case isTrue h => exact h
  case isFalse => exact some_ne_none message

@[simp] theorem calcSkipWs_rest (p : Parser) : (calcSkipWs p).rest = p.rest.dropWhile isWs := rfl

@[simp] theorem calcSkipWs_error (p : Parser) : (calcSkipWs p).error = p.error := rfl

theorem calcMatch_cases (p : Parser) (ch : UInt8) :
    (∃ rest, Ws p.rest (ch :: rest) ∧ calcMatch p ch = (true, ⟨rest, p.error⟩)) ∨
      calcMatch p ch = (false, calcSkipWs p) := by
  have hskip := ws_dropWhile p.rest
  rw [calcMatch]
  split
  case h_1 => exact .inr rfl
  case h_2 c rest hrest =>
    rw [calcSkipWs_rest] at hrest
    rw [hrest] at hskip
    split
    case isTrue heq =>
      rw [heq] at hskip
      exact .inl ⟨rest, hskip, rfl⟩
    case isFalse => exact .inr rfl

variable {level : Level} {r : List UInt8}

theorem Value.suffix (h : Value ops x level s v r) : r <:+ s := by
  obtain ⟨e, t, hreads, hws, -⟩ := h
  exact hws.suffix.trans hreads.suffix

theorem Value.ws {t : List UInt8} (h : Value ops x level s v r) (hr : Ws r t) :
    Value ops x level s v t := by
  obtain ⟨e, u, hreads, hws, heval⟩ := h
  exact ⟨e, u, hreads, hws.trans hr, heval⟩

theorem Value.op {left level operand : Level} {op : Op} {c : UInt8} {a b : D}
    {r t u : List UInt8}
    (hlevel : ∀ {s t u r : List UInt8} {a b : Tree}, Reads left s [a] t → Ws t (c :: u) →
      Reads operand u [b] r → Reads level s [.bin op a b] r)
    (ha : Value ops x left s a t) (hc : Ws t (c :: u)) (hb : Value ops x operand u b r)
    (hv : op.apply ops a b = some v) : Value ops x level s v r := by
  obtain ⟨ea, ta, hreadsA, hwsA, hevalA⟩ := ha
  obtain ⟨eb, tb, hreadsB, hwsB, hevalB⟩ := hb
  refine ⟨.bin op ea eb, tb, hlevel hreadsA (hwsA.trans hc) hreadsB, hwsB, ?_⟩
  rw [Tree.eval, hevalA, bind_some, hevalB, bind_some, hv]

theorem NoDangling.behind (h : NoDangling s) (hr : r <:+ s) {t : List UInt8}
    (hws : Ws r (ch :: t)) : NoDangling t :=
  h.of_suffix (((suffix_cons ch t).trans hws.suffix).trans hr)

theorem nameLoop_split (s : List UInt8) (len : ℕ) : ∃ name : List UInt8,
    (∀ c ∈ name, isNameByte c = true) ∧ s = name ++ (nameLoop s len).2 ∧
      (nameLoop s len).1 = name.map toLower := by
  induction s generalizing len with
  | nil => exact ⟨[], forall_mem_nil _, rfl, rfl⟩
  | cons c s ih =>
    rw [nameLoop]
    split
    case isTrue hc =>
      obtain ⟨name, hname, hs, hlower⟩ := ih (len + 1)
      refine ⟨c :: name, ?_, ?_, ?_⟩
      · intro d hd
        rcases mem_cons.1 hd with rfl | hd
        · exact hc.1
        · exact hname d hd
      · rw [cons_append, ← hs]
      · rw [map_cons, ← hlower]
    case isFalse => exact ⟨[], forall_mem_nil _, rfl, rfl⟩

theorem exists_name {rest : List UInt8} (hch : isNameStart ch = true) : ∃ name : Name,
    ch :: rest = name.text ++ (nameLoop (ch :: rest) 0).2 ∧
      (nameLoop (ch :: rest) 0).1 = name.lower := by
  obtain ⟨name, hname, hs, hlower⟩ := nameLoop_split (ch :: rest) 0
  have hstart : ∃ c ∈ name.head?, isNameStart c = true := by
    cases name with
    | nil =>
      rw [nameLoop, if_pos ⟨by rw [isNameByte, hch]; rfl, by decide⟩] at hlower
      cases hlower
    | cons c name =>
      rw [cons_append, List.cons.injEq] at hs
      refine ⟨c, rfl, ?_⟩
      rw [← hs.1]
      exact hch
  exact ⟨⟨name, hname, hstart⟩, hs, hlower⟩

theorem sound_unary (ih : Sound ops x n) :
    SoundFor ops x .unary (calcParseUnary ops x (n + 1)) := by
  intro p v p' h herror
  rw [calcParseUnary] at h
  rcases calcMatch_cases p 43 with ⟨t, hplus, hmatch⟩ | hplus
  · rw [hmatch, if_pos rfl] at h
    obtain ⟨hnone, hvalue⟩ := ih.unary _ v p' h herror
    refine ⟨hnone, fun hdangling => ?_⟩
    obtain ⟨e, u, hreads, hws, heval⟩ := hvalue (hdangling.behind (suffix_refl _) hplus)
    exact ⟨e, u, .plus hplus hreads, hws, heval⟩
  · rw [hplus, if_neg Bool.false_ne_true] at h
    have hskip := ws_dropWhile p.rest
    rcases calcMatch_cases (calcSkipWs p) 45 with ⟨t, hminus, hmatch⟩ | hminus
    · have hminus := hskip.trans hminus
      rw [hmatch, if_pos rfl, map_eq_some_iff] at h
      obtain ⟨⟨w, p₁⟩, hcall, hv⟩ := h
      cases hv
      obtain ⟨hnone, hvalue⟩ := ih.unary _ w p₁ hcall herror
      refine ⟨hnone, fun hdangling => ?_⟩
      obtain ⟨e, u, hreads, hws, heval⟩ := hvalue (hdangling.behind (suffix_refl _) hminus)
      refine ⟨.neg e, u, .minus hminus hreads, hws, ?_⟩
      rw [Tree.eval, heval, map_some]
    · rw [hminus, if_neg Bool.false_ne_true] at h
      have hskip := hskip.trans (ws_dropWhile (p.rest.dropWhile isWs))
      obtain ⟨hnone, hvalue⟩ := ih.primary _ v p' h herror
      refine ⟨hnone, fun hdangling => ?_⟩
      obtain ⟨e, u, hreads, hws, heval⟩ := hvalue (hdangling.of_suffix hskip.suffix)
      exact ⟨e, u, .operand (hreads.ws hskip), hws, heval⟩

theorem sound_power (ih : Sound ops x n) :
    SoundFor ops x .power (calcParsePower ops x (n + 1)) := by
  intro p v p' h herror
  rw [calcParsePower, bind_eq_some_iff] at h
  obtain ⟨⟨a, p₁⟩, hleft, h⟩ := h
  dsimp only at h
  rcases calcMatch_cases p₁ 94 with ⟨t, hhat, hmatch⟩ | hhat
  · rw [hmatch, if_pos rfl, map_eq_some_iff] at h
    obtain ⟨⟨b, p₂⟩, hright, hv⟩ := h
    cases hv
    obtain ⟨hnone₁, hb⟩ := ih.power _ b p₂ hright herror
    obtain ⟨hnone, ha⟩ := ih.unary p a p₁ hleft hnone₁
    refine ⟨hnone, fun hdangling => ?_⟩
    have ha := ha hdangling
    exact ha.op .pow hhat (hb (hdangling.behind ha.suffix hhat)) rfl
  · rw [hhat, if_neg Bool.false_ne_true] at h
    cases h
    obtain ⟨hnone, hvalue⟩ := ih.unary p v p₁ hleft herror
    refine ⟨hnone, fun hdangling => ?_⟩
    obtain ⟨e, u, hreads, hws, heval⟩ := hvalue hdangling
    exact ⟨e, u, .base hreads, hws.trans (ws_dropWhile p₁.rest), heval⟩

theorem soundLoop_step {operand : Level} {op : Op} {loop : D → Parser → Option (D × Parser)}
    {parse : Parser → Option (D × Parser)} (hloop : SoundLoop ops x level loop)
    (hparse : SoundFor ops x operand parse)
    (hlevel : ∀ {s t u r : List UInt8} {a b : Tree}, Reads level s [a] t → Ws t (ch :: u) →
      Reads operand u [b] r → Reads level s [.bin op a b] r)
    {value b w v : D} {rest : List UInt8} {p₁ p' : Parser} (hws : Ws p.rest (ch :: rest))
    (hcall : parse ⟨rest, p.error⟩ = some (b, p₁)) (hw : op.apply ops value b = some w)
    (h : loop w p₁ = some (v, p')) (herror : p'.error = none) :
    p.error = none ∧ ∀ s, NoDangling s → Value ops x level s value p.rest →
      Value ops x level s v p'.rest := by
  obtain ⟨hnone₁, hrest⟩ := hloop w p₁ v p' h herror
  obtain ⟨hnone, hb⟩ := hparse _ b p₁ hcall hnone₁
  refine ⟨hnone, ?_⟩
  intro s hdangling ha
  exact hrest s hdangling (ha.op hlevel hws (hb (hdangling.behind ha.suffix hws)) hw)

theorem sound_mulLoop (ih : Sound ops x n) :
    SoundLoop ops x .product (mulLoop ops x (n + 1)) := by
  intro value p v p' h herror
  rw [mulLoop] at h
  split at h
  case isTrue hfailed =>
    cases h
    exact absurd herror hfailed
  case isFalse =>
    rcases calcMatch_cases p 42 with ⟨t, hstar, hmatch⟩ | hstar
    · rw [hmatch, if_pos rfl, bind_eq_some_iff] at h
      obtain ⟨⟨b, p₁⟩, hcall, h⟩ := h
      exact soundLoop_step ih.mulLoop ih.power (fun ha => .product ha .mul) hstar hcall rfl h herror
    · rw [hstar, if_neg Bool.false_ne_true] at h
      have hskip := ws_dropWhile p.rest
      rcases calcMatch_cases (calcSkipWs p) 47 with ⟨t, hslash, hmatch⟩ | hslash
      · rw [hmatch, if_pos rfl, bind_eq_some_iff] at h
        obtain ⟨⟨b, p₁⟩, hcall, h⟩ := h
        split at h
        case isTrue =>
          cases h
          exact absurd herror (calcSetError_ne _ _)
        case isFalse hzero =>
          have hdiv : Op.div.apply ops value b = some (ops.div value b) := if_neg hzero
          exact soundLoop_step ih.mulLoop ih.power (fun ha => .product ha .div)
            (hskip.trans hslash) hcall hdiv h herror
      · rw [hslash, if_neg Bool.false_ne_true] at h
        have hskip := hskip.trans (ws_dropWhile (p.rest.dropWhile isWs))
        rcases calcMatch_cases (calcSkipWs (calcSkipWs p)) 37 with
          ⟨t, hpercent, hmatch⟩ | hpercent
        · rw [hmatch, if_pos rfl, bind_eq_some_iff] at h
          obtain ⟨⟨b, p₁⟩, hcall, h⟩ := h
          exact soundLoop_step ih.mulLoop ih.power (fun ha => .product ha .mod)
            (hskip.trans hpercent) hcall rfl h herror
        · rw [hpercent, if_neg Bool.false_ne_true] at h
          cases h
          refine ⟨herror, ?_⟩
          intro s _ ha
          exact ha.ws (hskip.trans (ws_dropWhile ((p.rest.dropWhile isWs).dropWhile isWs)))

theorem sound_exprLoop (ih : Sound ops x n) :
    SoundLoop ops x .sum (exprLoop ops x (n + 1)) := by
  intro value p v p' h herror
  rw [exprLoop] at h
  split at h
  case isTrue hfailed =>
    cases h
    exact absurd herror hfailed
  case isFalse =>
    rcases calcMatch_cases p 43 with ⟨t, hplus, hmatch⟩ | hplus
    · rw [hmatch, if_pos rfl, bind_eq_some_iff] at h
      obtain ⟨⟨b, p₁⟩, hcall, h⟩ := h
      exact soundLoop_step ih.exprLoop ih.mul (fun ha => .sum ha .add) hplus hcall rfl h herror
    · rw [hplus, if_neg Bool.false_ne_true] at h
      have hskip := ws_dropWhile p.rest
      rcases calcMatch_cases (calcSkipWs p) 45 with ⟨t, hminus, hmatch⟩ | hminus
      · rw [hmatch, if_pos rfl, bind_eq_some_iff] at h
        obtain ⟨⟨b, p₁⟩, hcall, h⟩ := h
        exact soundLoop_step ih.exprLoop ih.mul (fun ha => .sum ha .sub) (hskip.trans hminus) hcall
          rfl h herror
      · rw [hminus, if_neg Bool.false_ne_true] at h
        cases h
        refine ⟨herror, ?_⟩
        intro s _ ha
        exact ha.ws (hskip.trans (ws_dropWhile (p.rest.dropWhile isWs)))

theorem soundFor_bind {operand : Level} {loop : D → Parser → Option (D × Parser)}
    {parse : Parser → Option (D × Parser)} (hloop : SoundLoop ops x level loop)
    (hparse : SoundFor ops x operand parse)
    (hlevel : ∀ {s r : List UInt8} {e : Tree}, Reads operand s [e] r → Reads level s [e] r) :
    SoundFor ops x level fun p => (parse p).bind fun r => loop r.1 r.2 := by
  intro p v p' h herror
  rw [bind_eq_some_iff] at h
  obtain ⟨⟨a, p₁⟩, hcall, h⟩ := h
  obtain ⟨hnone₁, hrest⟩ := hloop a p₁ v p' h herror
  obtain ⟨hnone, hvalue⟩ := hparse p a p₁ hcall hnone₁
  refine ⟨hnone, fun hdangling => ?_⟩
  obtain ⟨e, t, hreads, hws, heval⟩ := hvalue hdangling
  exact hrest p.rest hdangling ⟨e, t, hlevel hreads, hws, heval⟩

theorem sound_args (ih : Sound ops x n) : SoundArgs ops x (argsLoop ops x (n + 1)) := by
  intro p args result p' h herror
  rw [argsLoop, bind_eq_some_iff] at h
  obtain ⟨⟨a, p₁⟩, hcall, h⟩ := h
  split at h
  case isTrue hfailed =>
    cases h
    exact absurd herror hfailed
  case isFalse hok =>
    obtain ⟨hnone, hvalue⟩ := ih.expr p a p₁ hcall (not_not.1 hok)
    have hone {e : Tree} (heval : e.eval ops x = some a) : Tree.evals ops x [e] = some [a] := by
      rw [Tree.evals, heval, bind_some, Tree.evals, map_some]
    refine ⟨hnone, ?_⟩
    rcases calcMatch_cases p₁ 44 with ⟨u, hcomma, hmatch⟩ | hcomma
    · rw [hmatch, if_neg (fun h => by cases h)] at h
      split at h
      case isTrue =>
        obtain ⟨-, vs, hresult, hmore⟩ := ih.args _ _ result p' h herror
        refine ⟨a :: vs, ?_, fun hdangling => ?_⟩
        · rw [hresult, append_assoc, singleton_append]
        · obtain ⟨e, t, hreads, hws, heval⟩ := hvalue hdangling
          have hcomma := hws.trans hcomma
          obtain ⟨es, r, hreadsEs, hevals, hend⟩ :=
            hmore (hdangling.behind hreads.suffix hcomma)
          refine ⟨e :: es, r, .arguments hreads hcomma hreadsEs, ?_, hend⟩
          rw [Tree.evals, heval, bind_some, hevals, map_some]
      case isFalse =>
        cases h
        refine ⟨[a], rfl, fun hdangling => ?_⟩
        obtain ⟨e, t, hreads, hws, heval⟩ := hvalue hdangling
        exact ⟨[e], t, .argument hreads, hone heval, .inr (hws.trans hcomma)⟩
    · rw [hcomma, if_pos rfl] at h
      cases h
      refine ⟨[a], rfl, fun hdangling => ?_⟩
      obtain ⟨e, t, hreads, hws, heval⟩ := hvalue hdangling
      exact ⟨[e], t, .argument hreads, hone heval, .inl (hws.trans (ws_dropWhile p₁.rest))⟩

theorem length_evals {es : List Tree} {vs : List D} (h : Tree.evals ops x es = some vs) :
    vs.length = es.length := by
  induction es generalizing vs with
  | nil =>
    rw [Tree.evals, Option.some.injEq] at h
    rw [← h]
    rfl
  | cons e es ih =>
    rw [Tree.evals, bind_eq_some_iff] at h
    obtain ⟨v, -, h⟩ := h
    rw [map_eq_some_iff] at h
    obtain ⟨vs', hvs, rfl⟩ := h
    rw [length_cons, length_cons, ih hvs]

theorem arity_pos (f : Func) : 0 < f.arity := by
  cases f <;> decide

theorem calcCallFunc_cases {name : List UInt8} {args : List D} {p' : Parser}
    (h : calcCallFunc ops p name args = (v, p')) (herror : p'.error = none) :
    p' = p ∧ ∃ f, Func.ofName name = some f ∧ args.length = f.arity ∧ v = f.apply ops args := by
  rw [calcCallFunc] at h
  split at h
  case h_1 f hf =>
    split at h
    case isTrue hlen =>
      cases h
      exact ⟨rfl, f, hf, hlen, rfl⟩
    case isFalse =>
      cases h
      exact absurd herror (calcSetError_ne _ _)
  case h_2 =>
    cases h
    exact absurd herror (calcSetError_ne _ _)

theorem sound_call (ih : Sound ops x n) : SoundCall ops x (calcParseCall ops x (n + 1)) := by
  intro name p v p' h herror
  rw [calcParseCall, map_eq_some_iff] at h
  obtain ⟨⟨result, p₁⟩, hargs, h⟩ := h
  -- without an error the arguments have been read, and the call is closed
  have hcalled : ∀ args, result = some args → ∃ rest, Ws p₁.rest (41 :: rest) ∧
      p' = ⟨rest, p₁.error⟩ ∧ ∃ f, Func.ofName name = some f ∧ args.length = f.arity ∧
        v = f.apply ops args := by
    rintro args rfl
    dsimp only at h
    rcases calcMatch_cases p₁ 41 with ⟨rest, hclose, hmatch⟩ | hclose
    · rw [hmatch, if_pos rfl] at h
      obtain ⟨hp, hf⟩ := calcCallFunc_cases h herror
      exact ⟨rest, hclose, hp, hf⟩
    · rw [hclose, if_neg Bool.false_ne_true] at h
      cases h
      exact absurd herror (calcSetError_ne _ _)
  split at hargs
  case isTrue =>
    have hfailed : p₁.error = none := by
      cases result with
      | none =>
        cases h
        exact herror
      | some args =>
        obtain ⟨rest, -, rfl, -⟩ := hcalled args rfl
        exact herror
    obtain ⟨hnone, vs, hresult, hreads⟩ := ih.args p [] result p₁ hargs hfailed
    rw [nil_append] at hresult
    refine ⟨hnone, fun hdangling => ?_⟩
    obtain ⟨es, t, hreads, hevals, hend⟩ := hreads hdangling
    obtain ⟨rest, hclose, rfl, f, hf, hlen, hv⟩ := hcalled vs hresult
    refine ⟨f, es, t, vs, hf, hreads, ?_, ?_, hevals, hv⟩
    · rw [← length_evals hevals, hlen]
    · rcases hend with hend | hend
      · exact hend.trans hclose
      · -- the comma behind the last argument stands in front of the parenthesis
        obtain ⟨b, -, hb⟩ := hend
        obtain ⟨front, hfront⟩ := hreads.suffix
        refine absurd hclose (hdangling (front ++ b) p₁.rest rest ?_)
        rw [← hfront, hb, append_assoc]
  case isFalse =>
    cases hargs
    obtain ⟨-, -, -, f, -, hlen, -⟩ := hcalled [] rfl
    have hpos := arity_pos f
    rw [← hlen] at hpos
    exact absurd hpos (Nat.lt_irrefl 0)

theorem sound_primary (ih : Sound ops x n) :
    SoundFor ops x .primary (calcParsePrimary ops x (n + 1)) := by
  intro p v p' h herror
  have hskip := ws_dropWhile p.rest
  rw [calcParsePrimary] at h
  dsimp only at h
  split at h
  case h_1 =>
    cases h
    exact absurd herror (calcSetError_ne _ _)
  case h_2 ch rest hrest =>
    rw [calcSkipWs_rest] at hrest
    rw [hrest] at hskip
    split at h
    case isTrue hopen =>
      rw [map_eq_some_iff] at h
      obtain ⟨⟨a, p₁⟩, hcall, h⟩ := h
      rcases calcMatch_cases p₁ 41 with ⟨u, hclose, hmatch⟩ | hclose
      · rw [hmatch, if_pos rfl] at h
        cases h
        obtain ⟨hnone, hvalue⟩ := ih.expr _ _ p₁ hcall herror
        refine ⟨hnone, fun hdangling => ?_⟩
        obtain ⟨e, t, hreads, hws, heval⟩ :=
          hvalue (hdangling.behind (suffix_refl _) hskip)
        rw [hopen] at hskip
        exact ⟨e, u, .paren hskip hreads (hws.trans hclose), ws_refl u, heval⟩
      · rw [hclose, if_neg Bool.false_ne_true] at h
        cases h
        exact absurd herror (calcSetError_ne _ _)
    case isFalse =>
      split at h
      case isTrue hdigit =>
        rw [calcSkipWs_rest, hrest] at h
        generalize hstrtod : strtod ops (ch :: rest) = number at h
        obtain ⟨w, r⟩ := number
        split at h
        case isTrue =>
          cases h
          exact absurd herror (calcSetError_ne _ _)
        case isFalse hread =>
          cases h
          obtain ⟨m, htext, hvalue⟩ := exists_numeral hdigit hstrtod hread
          refine ⟨herror, fun _ => ⟨.num m, _, .number m ?_, ws_refl _, ?_⟩⟩
          · rw [← htext]
            exact hskip
          · rw [Tree.eval, hvalue]
      case isFalse =>
        split at h
        case isFalse =>
          cases h
          exact absurd herror (calcSetError_ne _ _)
        case isTrue hstart =>
          obtain ⟨name, htext, hlower⟩ := @exists_name ch rest hstart
          rw [calcSkipWs_rest, hrest, hlower] at h
          have hname := hskip
          rw [htext] at hname
          split at h
          case h_1 c hc =>
            cases h
            exact ⟨herror, fun _ => ⟨.const c, _, .const name hname hc, ws_refl _, rfl⟩⟩
          case h_2 =>
            rcases calcMatch_cases ⟨(nameLoop (ch :: rest) 0).2, p.error⟩ 40 with
              ⟨u, hopen, hmatch⟩ | hopen
            · rw [calcSkipWs_error, hmatch, if_pos rfl] at h
              obtain ⟨hnone, hcalled⟩ := ih.call _ _ v p' h herror
              refine ⟨hnone, fun hdangling => ?_⟩
              have hopen := hopen.trans (ws_refl _)
              have hskipped := ws_dropWhile u
              have hsuffix : u.dropWhile isWs <:+ p.rest := hskipped.suffix.trans
                (((suffix_cons _ _).trans hopen.suffix).trans
                  ((suffix_append _ _).trans hname.suffix))
              obtain ⟨f, es, t, vs, hf, hreads, hlen, hclose, hevals, hv⟩ :=
                hcalled (hdangling.of_suffix hsuffix)
              refine ⟨.call f es, _, .call name hname hf hopen (hreads.ws hskipped) hlen hclose,
                ws_refl _, ?_⟩
              rw [Tree.eval, hevals, map_some, hv]
            · rw [calcSkipWs_error, hopen, if_neg Bool.false_ne_true] at h
              cases h
              exact absurd herror (calcSetError_ne _ _)

/-! ## Runs -/

theorem sound (ops : Doubles D) (x : D) (n : ℕ) : Sound ops x n := by
  induction n with
  | zero =>
    -- no call returns without fuel
    constructor
    · intro _ _ _ h
      cases h
    · intro _ _ _ _ h
      cases h
    · intro _ _ _ _ h
      cases h
    · intro _ _ _ h
      cases h
    · intro _ _ _ h
      cases h
    · intro _ _ _ _ h
      cases h
    · intro _ _ _ h
      cases h
    · intro _ _ _ _ h
      cases h
    · intro _ _ _ h
      cases h
  | succ n ih =>
    exact ⟨sound_primary ih, sound_call ih, sound_args ih, sound_unary ih, sound_power ih,
      sound_mulLoop ih, soundFor_bind ih.mulLoop ih.power .factor, sound_exprLoop ih,
      soundFor_bind ih.exprLoop ih.mul .summand⟩

theorem derives_of_calcEval {text : List UInt8} (h : calcEval ops x text = some (.ok v))
    (hdangling : NoDangling text) :
    ops.isBad v = false ∧ ∃ e, Derives text e ∧ e.eval ops x = some v := by
  rw [calcEval, map_eq_some_iff] at h
  obtain ⟨⟨w, p⟩, hcall, h⟩ := h
  dsimp only at h
  by_cases hend : (calcSkipWs p).error = none ∧ (calcSkipWs p).rest ≠ []
  · rw [if_pos hend, if_pos (.inl (calcSetError_ne _ _))] at h
    cases h
  · rw [if_neg hend] at h
    by_cases hgood : (calcSkipWs p).error ≠ none ∨ ops.isBad w
    · rw [if_pos hgood] at h
      cases h
    · rw [if_neg hgood] at h
      cases h
      rw [not_or, not_not] at hgood
      obtain ⟨herror, hbad⟩ := hgood
      have hrest : p.rest.dropWhile isWs = [] := by
        by_contra hne
        exact hend ⟨herror, hne⟩
      obtain ⟨-, hvalue⟩ := (sound ops x (calcFuel text)).expr _ v p hcall herror
      obtain ⟨e, t, hreads, hws, heval⟩ := hvalue hdangling
      have hws := hws.trans (ws_dropWhile p.rest)
      rw [hrest] at hws
      exact ⟨Bool.eq_false_iff.2 hbad, e, ⟨t, hreads, hws⟩, heval⟩

end Cleonos.Calc
