import Cleonos.Calc.Strtod

/-!
# The evaluator of the calculator

`calc_eval` of `calc_main.c`: a descent parser that evaluates while it parses.
-/

namespace Cleonos.Calc

open List

section

variable {D : Type*} (ops : Doubles D) (x : D)

/-! ## The source -/

/-- `calc_parser`: the text from `pos` on, and `error` if `failed` is set. -/
structure Parser where
  rest : List UInt8
  error : Option String
deriving DecidableEq, Repr

def calcSetError (p : Parser) (message : String) : Parser :=
  if p.error ≠ none then p else { p with error := some message }

/-- The bytes that `calc_skip_ws` skips. -/
def isWs (c : UInt8) : Bool := c == 32 || c == 9 || c == 13 || c == 10

def calcSkipWs (p : Parser) : Parser := { p with rest := p.rest.dropWhile isWs }

def calcMatch (p : Parser) (ch : UInt8) : Bool × Parser :=
  match (calcSkipWs p).rest with
  | [] => (false, calcSkipWs p)
  | c :: rest => if c = ch then (true, { p with rest := rest }) else (false, calcSkipWs p)

/-- The first byte of a name. -/
def isNameStart (c : UInt8) : Bool := (97 ≤ c && c ≤ 122) || (65 ≤ c && c ≤ 90) || c == 95

def isNameByte (c : UInt8) : Bool := isNameStart c || isDigit c

/-- A capital letter becomes a small one. -/
def toLower (c : UInt8) : UInt8 := if 65 ≤ c ∧ c ≤ 90 then c - 65 + 97 else c

def calcIdentMax : ℕ := 32

/-- The loop that reads a name: the name, and what is behind it. -/
def nameLoop : List UInt8 → ℕ → List UInt8 × List UInt8
  | [], _ => ([], [])
  | c :: rest, len =>
    if isNameByte c ∧ len + 1 < calcIdentMax then
      let r := nameLoop rest (len + 1)
      (toLower c :: r.1, r.2)
    else ([], c :: rest)

/-- The names that are values. -/
inductive Const
  | pi | tau | e | x
deriving DecidableEq, Repr

def Const.ofName (name : List UInt8) : Option Const :=
  if name = lit "pi" then some .pi
  else if name = lit "tau" then some .tau
  else if name = lit "e" then some .e
  else if name = lit "x" then some .x
  else none

def Const.value : Const → D
  | .pi => ops.pi
  | .tau => ops.tau
  | .e => ops.e
  | .x => x

/-- The names in `calc_call_func`. -/
def funcNames : List (String × Func) :=
  [("sin", .sin), ("cos", .cos), ("tan", .tan), ("asin", .asin), ("acos", .acos), ("atan", .atan),
    ("sqrt", .sqrt), ("sqr", .sqrt), ("abs", .abs), ("exp", .exp), ("ln", .ln), ("log", .ln),
    ("log10", .log10), ("floor", .floor), ("ceil", .ceil), ("round", .round), ("sign", .sign),
    ("min", .min), ("max", .max), ("pow", .pow), ("clamp", .clamp)]

def Func.ofName (name : List UInt8) : Option Func :=
  (funcNames.find? fun entry => lit entry.1 = name).map Prod.snd

def Func.arity : Func → ℕ
  | .min | .max | .pow => 2
  | .clamp => 3
  | _ => 1

/-- The value of a call; the function `pow` is the one of the operator. -/
def Func.apply (f : Func) (args : List D) : D :=
  match f, args with
  | .pow, [base, exponent] => ops.pow base exponent
  | f, args => ops.call f args

def calcCallFunc (p : Parser) (name : List UInt8) (args : List D) : D × Parser :=
  match Func.ofName name with
  | some f =>
    if args.length = f.arity then (f.apply ops args, p)
    else (ops.nan, calcSetError p "unknown function or wrong argument count")
  | none => (ops.nan, calcSetError p "unknown function or wrong argument count")

mutual

def calcParsePrimary : ℕ → Parser → Option (D × Parser)
  | 0, _ => none
  | n + 1, p₀ =>
    let p := calcSkipWs p₀
    match p.rest with
    | [] => some (ops.nan, calcSetError p "expected number, name, or '('")
    | ch :: rest =>
      if ch = 40 then
        (calcParseExpr n { p with rest := rest }).map fun r =>
          let closed := calcMatch r.2 41
          (r.1, if closed.1 then closed.2 else calcSetError closed.2 "missing ')'")
      else if isDigit ch ∨ ch = 46 then
        let r := strtod ops p.rest
        if r.2 = p.rest then some (ops.nan, calcSetError p "bad number")
        else some (r.1, { p with rest := r.2 })
      else if isNameStart ch then
        let name := nameLoop p.rest 0
        match Const.ofName name.1 with
        | some c => some (c.value ops x, { p with rest := name.2 })
        | none =>
          let opened := calcMatch { p with rest := name.2 } 40
          if opened.1 then calcParseCall n name.1 (calcSkipWs opened.2)
          else some (ops.nan, calcSetError opened.2 "unknown identifier")
      else some (ops.nan, calcSetError p "expected number, name, or '('")

/-- The part of `calc_parse_primary` behind a name and an opening parenthesis. -/
def calcParseCall : ℕ → List UInt8 → Parser → Option (D × Parser)
  | 0, _, _ => none
  | n + 1, name, p =>
    (if p.rest.head? ≠ some 41 then argsLoop n p [] else some (some [], p)).map fun r =>
      match r.1 with
      | none => (ops.nan, r.2)
      | some args =>
        let closed := calcMatch r.2 41
        if closed.1 then calcCallFunc ops closed.2 name args
        else (ops.nan, calcSetError closed.2 "missing ')' after function")

/-- The loop over the arguments; `none` in front of the parser is the early return. -/
def argsLoop : ℕ → Parser → List D → Option (Option (List D) × Parser)
  | 0, _, _ => none
  | n + 1, p, args =>
    (calcParseExpr n p).bind fun r =>
      if r.2.error ≠ none then some (none, r.2)
      else
        let comma := calcMatch r.2 44
        if comma.1 = false then some (some (args ++ [r.1]), comma.2)
        else if (args ++ [r.1]).length < 3 then argsLoop n comma.2 (args ++ [r.1])
        else some (some (args ++ [r.1]), comma.2)

def calcParseUnary : ℕ → Parser → Option (D × Parser)
  | 0, _ => none
  | n + 1, p =>
    let plus := calcMatch p 43
    if plus.1 then calcParseUnary n plus.2
    else
      let minus := calcMatch plus.2 45
      if minus.1 then (calcParseUnary n minus.2).map fun r => (ops.neg r.1, r.2)
      else calcParsePrimary n minus.2

def calcParsePower : ℕ → Parser → Option (D × Parser)
  | 0, _ => none
  | n + 1, p =>
    (calcParseUnary n p).bind fun left =>
      let hat := calcMatch left.2 94
      if hat.1 then (calcParsePower n hat.2).map fun right => (ops.pow left.1 right.1, right.2)
      else some (left.1, hat.2)

/-- The loop of `calc_parse_mul`. -/
def mulLoop : ℕ → D → Parser → Option (D × Parser)
  | 0, _, _ => none
  | n + 1, value, p =>
    if p.error ≠ none then some (value, p)
    else
      let star := calcMatch p 42
      if star.1 then
        (calcParsePower n star.2).bind fun right => mulLoop n (ops.mul value right.1) right.2
      else
        let slash := calcMatch star.2 47
        if slash.1 then
          (calcParsePower n slash.2).bind fun right =>
            if ops.isZero right.1 then some (ops.nan, calcSetError right.2 "division by zero")
            else mulLoop n (ops.div value right.1) right.2
        else
          let percent := calcMatch slash.2 37
          if percent.1 then
            (calcParsePower n percent.2).bind fun right =>
              mulLoop n (ops.mod value right.1) right.2
          else some (value, percent.2)

def calcParseMul : ℕ → Parser → Option (D × Parser)
  | 0, _ => none
  | n + 1, p => (calcParsePower n p).bind fun r => mulLoop n r.1 r.2

/-- The loop of `calc_parse_expr`. -/
def exprLoop : ℕ → D → Parser → Option (D × Parser)
  | 0, _, _ => none
  | n + 1, value, p =>
    if p.error ≠ none then some (value, p)
    else
      let plus := calcMatch p 43
      if plus.1 then
        (calcParseMul n plus.2).bind fun right => exprLoop n (ops.add value right.1) right.2
      else
        let minus := calcMatch plus.2 45
        if minus.1 then
          (calcParseMul n minus.2).bind fun right => exprLoop n (ops.sub value right.1) right.2
        else some (value, minus.2)

def calcParseExpr : ℕ → Parser → Option (D × Parser)
  | 0, _ => none
  | n + 1, p => (calcParseMul n p).bind fun r => exprLoop n r.1 r.2

end

/-- A fuel that is enough for a text. -/
def calcFuel (text : List UInt8) : ℕ := 9 * text.length + 9

/-- `calc_eval`: the value, or the error. -/
def calcEval (text : List UInt8) : Option (Except String D) :=
  (calcParseExpr ops x (calcFuel text) ⟨text, none⟩).map fun r =>
    let p := calcSkipWs r.2
    let p := if p.error = none ∧ p.rest ≠ [] then calcSetError p "trailing characters" else p
    if p.error ≠ none ∨ ops.isBad r.1 then .error (p.error.getD "invalid result") else .ok r.1

end

variable {D : Type*} (ops : Doubles D) (x : D)

/-- The operators. -/
inductive Op
  | add | sub | mul | div | mod | pow
deriving DecidableEq, Repr

/-- Expressions. -/
inductive Tree
  | num (n : Numeral)
  | const (c : Const)
  | call (f : Func) (args : List Tree)
  | neg (e : Tree)
  | bin (op : Op) (a b : Tree)

/-- An operation fails where a divisor is zero. -/
def Op.apply (op : Op) (a b : D) : Option D :=
  match op with
  | .add => some (ops.add a b)
  | .sub => some (ops.sub a b)
  | .mul => some (ops.mul a b)
  | .div => if ops.isZero b then none else some (ops.div a b)
  | .mod => some (ops.mod a b)
  | .pow => some (ops.pow a b)

mutual

/-- The value of an expression, if no operation fails. -/
def Tree.eval : Tree → Option D
  | .num n => some (n.value ops)
  | .const c => some (c.value ops x)
  | .call f args => (Tree.evals args).map (f.apply ops)
  | .neg e => e.eval.map ops.neg
  | .bin op a b => a.eval.bind fun a => b.eval.bind fun b => op.apply ops a b

def Tree.evals : List Tree → Option (List D)
  | [] => some []
  | e :: es => e.eval.bind fun v => (Tree.evals es).map (v :: ·)

end

def Ws (s r : List UInt8) : Prop := ∃ b, (∀ c ∈ b, isWs c = true) ∧ s = b ++ r

/-- A name: letters, digits and underscores, the first of them no digit. -/
structure Name where
  text : List UInt8
  nameBytes : ∀ c ∈ text, isNameByte c = true
  start : ∃ c ∈ text.head?, isNameStart c = true

/-- Names are the same in capitals. -/
def Name.lower (name : Name) : List UInt8 := name.text.map toLower

/-- The levels of the grammar. -/
inductive Level
  | primary | unary | power | product | sum | arguments
deriving DecidableEq, Repr

/-- The operators of a level that groups to the left, with their bytes. -/
inductive IsOp : Level → Op → UInt8 → Prop
  | add : IsOp .sum .add 43
  | sub : IsOp .sum .sub 45
  | mul : IsOp .product .mul 42
  | div : IsOp .product .div 47
  | mod : IsOp .product .mod 37

/-- A text starts with an expression of a level (or with arguments), and `r` is left. -/
inductive Reads : Level → List UInt8 → List Tree → List UInt8 → Prop
  | number {s r : List UInt8} (n : Numeral) (hn : Ws s (n.text ++ r)) :
      Reads .primary s [.num n] r
  | const {s r : List UInt8} {c : Const} (name : Name) (hname : Ws s (name.text ++ r))
      (hc : Const.ofName name.lower = some c) : Reads .primary s [.const c] r
  | paren {s t u r : List UInt8} {e : Tree} (hopen : Ws s (40 :: t)) (h : Reads .sum t [e] u)
      (hclose : Ws u (41 :: r)) : Reads .primary s [e] r
  | call {s t u v r : List UInt8} {f : Func} {es : List Tree} (name : Name)
      (hname : Ws s (name.text ++ t)) (hf : Func.ofName name.lower = some f)
      (hopen : Ws t (40 :: u)) (h : Reads .arguments u es v) (harity : es.length = f.arity)
      (hclose : Ws v (41 :: r)) : Reads .primary s [.call f es] r
  | argument {s r : List UInt8} {e : Tree} (h : Reads .sum s [e] r) : Reads .arguments s [e] r
  | arguments {s t u r : List UInt8} {e : Tree} {es : List Tree} (h : Reads .sum s [e] t)
      (hcomma : Ws t (44 :: u)) (hs : Reads .arguments u es r) : Reads .arguments s (e :: es) r
  | operand {s r : List UInt8} {e : Tree} (h : Reads .primary s [e] r) : Reads .unary s [e] r
  | plus {s t r : List UInt8} {e : Tree} (hsign : Ws s (43 :: t)) (h : Reads .unary t [e] r) :
      Reads .unary s [e] r
  | minus {s t r : List UInt8} {e : Tree} (hsign : Ws s (45 :: t)) (h : Reads .unary t [e] r) :
      Reads .unary s [.neg e] r
  | base {s r : List UInt8} {e : Tree} (h : Reads .unary s [e] r) : Reads .power s [e] r
  | pow {s t u r : List UInt8} {a b : Tree} (ha : Reads .unary s [a] t) (hhat : Ws t (94 :: u))
      (hb : Reads .power u [b] r) : Reads .power s [.bin .pow a b] r
  | factor {s r : List UInt8} {e : Tree} (h : Reads .power s [e] r) : Reads .product s [e] r
  | product {s t u r : List UInt8} {a b : Tree} {op : Op} {c : UInt8}
      (ha : Reads .product s [a] t) (hop : IsOp .product op c) (hc : Ws t (c :: u))
      (hb : Reads .power u [b] r) : Reads .product s [.bin op a b] r
  | summand {s r : List UInt8} {e : Tree} (h : Reads .product s [e] r) : Reads .sum s [e] r
  | sum {s t u r : List UInt8} {a b : Tree} {op : Op} {c : UInt8} (ha : Reads .sum s [a] t)
      (hop : IsOp .sum op c) (hc : Ws t (c :: u)) (hb : Reads .product u [b] r) :
      Reads .sum s [.bin op a b] r

/-- The whole text is an expression. -/
def Derives (text : List UInt8) (e : Tree) : Prop := ∃ r, Reads .sum text [e] r ∧ Ws r []

/-- No comma stands in front of a closing parenthesis. -/
def NoDangling (text : List UInt8) : Prop :=
  ∀ s t r, text = s ++ 44 :: t → ¬ Ws t (41 :: r)

variable {s t u r : List UInt8} {c : UInt8}

/-! ## Blanks -/

theorem ws_refl (s : List UInt8) : Ws s s := ⟨[], forall_mem_nil _, rfl⟩

theorem ws_dropWhile (s : List UInt8) : Ws s (s.dropWhile isWs) :=
  ⟨s.takeWhile isWs, fun _ h => mem_takeWhile_imp h, takeWhile_append_dropWhile.symm⟩

theorem Ws.trans (h : Ws s t) (h' : Ws t u) : Ws s u := by
  obtain ⟨b, hb, rfl⟩ := h
  obtain ⟨b', hb', rfl⟩ := h'
  refine ⟨b ++ b', ?_, (append_assoc b b' u).symm⟩
  intro c hc
  rcases mem_append.1 hc with hc | hc
  · exact hb c hc
  · exact hb' c hc

theorem Ws.suffix (h : Ws s t) : t <:+ s := by
  obtain ⟨b, -, rfl⟩ := h
  exact suffix_append b t

theorem Ws.dropWhile (h : Ws s t) : s.dropWhile isWs = t.dropWhile isWs := by
  obtain ⟨b, hb, rfl⟩ := h
  induction b with
  | nil => rfl
  | cons c b ih =>
    rw [cons_append, dropWhile_cons_of_pos (hb c mem_cons_self)]
    exact ih fun d hd => hb d (mem_cons_of_mem c hd)

theorem Ws.dropWhile_cons (h : Ws s (c :: t)) (hc : isWs c = false) :
    s.dropWhile isWs = c :: t := by
  rw [h.dropWhile, dropWhile_cons_of_neg (by rw [hc]; decide)]

theorem Reads.suffix {level : Level} {es : List Tree} (h : Reads level s es r) : r <:+ s := by
  induction h with
  | number n hn => exact (suffix_append _ _).trans hn.suffix
  | const name hname hc => exact (suffix_append _ _).trans hname.suffix
  | paren hopen h hclose ih =>
    have hopen' := (suffix_cons _ _).trans hopen.suffix
    have hclose' := (suffix_cons _ _).trans hclose.suffix
    exact hclose'.trans (ih.trans hopen')
  | call name hname hf hopen h harity hclose ih =>
    have hname' := (suffix_append _ _).trans hname.suffix
    have hopen' := (suffix_cons _ _).trans hopen.suffix
    have hclose' := (suffix_cons _ _).trans hclose.suffix
    exact hclose'.trans (ih.trans (hopen'.trans hname'))
  | argument h ih => exact ih
  | arguments h hcomma hs ih ihs =>
    exact ihs.trans (((suffix_cons _ _).trans hcomma.suffix).trans ih)
  | operand h ih => exact ih
  | plus hsign h ih => exact ih.trans ((suffix_cons _ _).trans hsign.suffix)
  | minus hsign h ih => exact ih.trans ((suffix_cons _ _).trans hsign.suffix)
  | base h ih => exact ih
  | pow ha hhat hb iha ihb =>
    exact ihb.trans (((suffix_cons _ _).trans hhat.suffix).trans iha)
  | factor h ih => exact ih
  | product ha hop hc hb iha ihb =>
    exact ihb.trans (((suffix_cons _ _).trans hc.suffix).trans iha)
  | summand h ih => exact ih
  | sum ha hop hc hb iha ihb =>
    exact ihb.trans (((suffix_cons _ _).trans hc.suffix).trans iha)

theorem Reads.ws {level : Level} {es : List Tree} (h : Reads level t es r) (hws : Ws s t) :
    Reads level s es r := by
  induction h generalizing s with
  | number n hn => exact .number n (hws.trans hn)
  | const name hname hc => exact .const name (hws.trans hname) hc
  | paren hopen h hclose _ => exact .paren (hws.trans hopen) h hclose
  | call name hname hf hopen h harity hclose _ =>
    exact .call name (hws.trans hname) hf hopen h harity hclose
  | argument h ih => exact .argument (ih hws)
  | arguments h hcomma hs ih _ => exact .arguments (ih hws) hcomma hs
  | operand h ih => exact .operand (ih hws)
  | plus hsign h _ => exact .plus (hws.trans hsign) h
  | minus hsign h _ => exact .minus (hws.trans hsign) h
  | base h ih => exact .base (ih hws)
  | pow ha hhat hb iha _ => exact .pow (iha hws) hhat hb
  | factor h ih => exact .factor (ih hws)
  | product ha hop hc hb iha _ => exact .product (iha hws) hop hc hb
  | summand h ih => exact .summand (ih hws)
  | sum ha hop hc hb iha _ => exact .sum (iha hws) hop hc hb

theorem NoDangling.of_suffix (h : NoDangling s) (hsuffix : t <:+ s) : NoDangling t := by
  obtain ⟨b, rfl⟩ := hsuffix
  intro p q r htext
  exact h (b ++ p) q r (by rw [htext, append_assoc])

end Cleonos.Calc
