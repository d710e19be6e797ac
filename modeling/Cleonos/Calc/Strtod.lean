import Mathlib.Algebra.Order.Ring.Unbundled.Rat
import Cleonos.Lib.Text

/-!
# Numbers of the calculator

`strtod` of `libc_stdlib.c`, over whatever the operations on a `double` are.
-/

namespace Cleonos.Calc

open List Option

section

/-- The functions of the calculator. -/
inductive Func
  | sin | cos | tan | asin | acos | atan | sqrt | abs | exp | ln | log10 | floor | ceil | round
  | sign | min | max | pow | clamp
deriving DecidableEq, Repr

/-- What the calculator does with a `double`: `ofNat` is a cast, `tenth` is 0.1, and `pow` and `mod`
are `calc_pow` and `calc_mod`. -/
structure Doubles (D : Type*) where
  ofNat : ℕ → D
  tenth : D
  nan : D
  pi : D
  tau : D
  e : D
  neg : D → D
  add : D → D → D
  sub : D → D → D
  mul : D → D → D
  div : D → D → D
  mod : D → D → D
  pow : D → D → D
  isZero : D → Bool
  isBad : D → Bool
  call : Func → List D → D

variable {D : Type*} (ops : Doubles D)

/-! ## The source -/

def isDigit (c : UInt8) : Bool := 48 ≤ c && c ≤ 57

def isSpace (c : UInt8) : Bool :=
  c == 32 || c == 9 || c == 13 || c == 10 || c == 11 || c == 12

def digit (c : UInt8) : D := ops.ofNat (c.toNat - 48)

/-- The digits in front of the point: the value, whether there are any, and what is behind. -/
def wholeLoop : List UInt8 → D → Bool → D × Bool × List UInt8
  | [], value, any => (value, any, [])
  | c :: p, value, any =>
    if isDigit c then
      wholeLoop p (ops.add (ops.mul value (ops.ofNat 10)) (digit ops c)) true
    else (value, any, c :: p)

/-- The digits behind the point. -/
def fracLoop : List UInt8 → D → D → Bool → D × Bool × List UInt8
  | [], _, value, any => (value, any, [])
  | c :: p, scale, value, any =>
    if isDigit c then
      fracLoop p (ops.mul scale ops.tenth)
        (ops.add value (ops.mul (digit ops c) (ops.mul scale ops.tenth))) true
    else (value, any, c :: p)

/-- The digits of the exponent. -/
def expLoop : List UInt8 → ℕ → ℕ × List UInt8
  | [], expValue => (expValue, [])
  | c :: p, expValue =>
    if isDigit c then
      expLoop p (if expValue < 308 then expValue * 10 + (c.toNat - 48) else expValue)
    else (expValue, c :: p)

/-- The loop over the exponent. -/
def scaleLoop (expNegative : Bool) : ℕ → D → D
  | 0, value => value
  | n + 1, value =>
    scaleLoop expNegative n
      (if expNegative then ops.mul value ops.tenth else ops.mul value (ops.ofNat 10))

def takeSign : List UInt8 → Bool × List UInt8
  | [] => (false, [])
  | c :: p => if c = 43 ∨ c = 45 then (c = 45, p) else (false, c :: p)

/-- The point and the digits behind it. -/
def fracPart (whole : D × Bool × List UInt8) : D × Bool × List UInt8 :=
  match whole.2.2 with
  | [] => whole
  | c :: p => if c = 46 then fracLoop ops p (ops.ofNat 1) whole.1 whole.2.1 else whole

/-- The exponent: it counts only if there are digits. -/
def expPart (value : D) : List UInt8 → D × List UInt8
  | [] => (value, [])
  | c :: p =>
    if c = 101 ∨ c = 69 then
      match (takeSign p).2 with
      | [] => (value, c :: p)
      | d :: q =>
        if isDigit d then
          let exponent := expLoop (d :: q) 0
          (scaleLoop ops (takeSign p).1 exponent.1 value, exponent.2)
        else (value, c :: p)
    else (value, c :: p)

/-- `strtod`: the value and `*out_end`. -/
def strtod (text : List UInt8) : D × List UInt8 :=
  let signed := takeSign (text.dropWhile isSpace)
  let mantissa := fracPart ops (wholeLoop ops signed.2 (ops.ofNat 0) false)
  if mantissa.2.1 then
    let r := expPart ops mantissa.1 mantissa.2.2
    (if signed.1 then ops.neg r.1 else r.1, r.2)
  else (ops.ofNat 0, text)

variable {ops}

theorem wholeLoop_suffix (p : List UInt8) (value : D) (any : Bool) :
    (wholeLoop ops p value any).2.2 <:+ p := by
  induction p generalizing value any with
  | nil => exact suffix_refl []
  | cons c p ih =>
    rw [wholeLoop]
    split
    · exact (ih _ _).trans (suffix_cons c p)
    · exact suffix_refl _

theorem fracLoop_suffix (p : List UInt8) (scale value : D) (any : Bool) :
    (fracLoop ops p scale value any).2.2 <:+ p := by
  induction p generalizing scale value any with
  | nil => exact suffix_refl []
  | cons c p ih =>
    rw [fracLoop]
    split
    · exact (ih _ _ _).trans (suffix_cons c p)
    · exact suffix_refl _

theorem expLoop_suffix (p : List UInt8) (expValue : ℕ) : (expLoop p expValue).2 <:+ p := by
  induction p generalizing expValue with
  | nil => exact suffix_refl []
  | cons c p ih =>
    rw [expLoop]
    split
    · exact (ih _).trans (suffix_cons c p)
    · exact suffix_refl _

theorem takeSign_suffix (p : List UInt8) : (takeSign p).2 <:+ p := by
  cases p with
  | nil => exact suffix_refl []
  | cons c p =>
    rw [takeSign]
    split
    · exact suffix_cons c p
    · exact suffix_refl _

theorem fracPart_suffix (whole : D × Bool × List UInt8) : (fracPart ops whole).2.2 <:+ whole.2.2 := by
  rw [fracPart]
  split
  case h_1 => exact suffix_refl _
  case h_2 c p hp =>
    split
    · rw [hp]
      exact (fracLoop_suffix _ _ _ _).trans (suffix_cons c p)
    · exact suffix_refl _

theorem expPart_suffix (value : D) (p : List UInt8) : (expPart ops value p).2 <:+ p := by
  cases p with
  | nil => exact suffix_refl []
  | cons c p =>
    rw [expPart]
    split
    case isFalse => exact suffix_refl _
    case isTrue =>
      split
      case h_1 => exact suffix_refl _
      case h_2 d q hsign =>
        split
        case isFalse => exact suffix_refl _
        case isTrue =>
          have hq : d :: q <:+ p := hsign ▸ takeSign_suffix p
          exact ((expLoop_suffix _ _).trans hq).trans (suffix_cons c p)

theorem strtod_suffix (text : List UInt8) : (strtod ops text).2 <:+ text := by
  rw [strtod]
  split
  case isFalse => exact suffix_refl _
  case isTrue =>
    have hmantissa : (fracPart ops (wholeLoop ops (takeSign (text.dropWhile isSpace)).2
        (ops.ofNat 0) false)).2.2 <:+ (takeSign (text.dropWhile isSpace)).2 :=
      (fracPart_suffix _).trans (wholeLoop_suffix _ _ _)
    have hsign := (takeSign_suffix (text.dropWhile isSpace)).trans (dropWhile_suffix isSpace)
    exact ((expPart_suffix _ _).trans hmantissa).trans hsign

/-- A calculator with rational numbers, and integers as exponents. -/
def rationals : Doubles ℚ where
  ofNat n := n
  tenth := 1 / 10
  nan := 0
  pi := 355 / 113
  tau := 710 / 113
  e := 193 / 71
  neg := Neg.neg
  add := (· + ·)
  sub := (· - ·)
  mul := (· * ·)
  div := (· / ·)
  mod a b := a - b * (a / b).num.tdiv (a / b).den
  pow a b := a ^ b.num
  isZero a := a == 0
  isBad a := a > 10 ^ 100 || a < -10 ^ 100
  call _ args := args.headD 0

end

variable {D : Type*} (ops : Doubles D)

def Digits (ds : List UInt8) : Prop := ∀ c ∈ ds, isDigit c = true

def NoDigit (s : List UInt8) : Prop := ∀ c ∈ s.head?, isDigit c = false

/-- The exponent of a number: the letter, the sign and the digits. -/
structure Exponent where
  mark : UInt8
  sign : List UInt8
  ds : List UInt8
  mark_eq : mark = 101 ∨ mark = 69
  sign_eq : sign = [] ∨ sign = [43] ∨ sign = [45]
  digits : Digits ds
  ne_nil : ds ≠ []

/-- A number without a sign: digits, a point with digits behind it, and an exponent; there is a
digit in front of the exponent. -/
structure Numeral where
  whole : List UInt8
  frac : Option (List UInt8)
  exponent : Option Exponent
  digits : Digits whole
  fracDigits : ∀ ds ∈ frac, Digits ds
  ne_nil : whole ≠ [] ∨ ∃ ds ∈ frac, ds ≠ []

def Exponent.text (e : Exponent) : List UInt8 := e.mark :: (e.sign ++ e.ds)

def Numeral.text (n : Numeral) : List UInt8 :=
  n.whole ++ (n.frac.elim [] fun ds => 46 :: ds) ++ n.exponent.elim [] Exponent.text

/-- The digits in front of the point, on a value. -/
def wholeValue (ds : List UInt8) (value : D) : D :=
  ds.foldl (fun value c => ops.add (ops.mul value (ops.ofNat 10)) (digit ops c)) value

/-- The digits behind the point, on a value; each is a tenth of the one before. -/
def fracValue (ds : List UInt8) (scale value : D) : D :=
  match ds with
  | [] => value
  | c :: ds =>
    fracValue ds (ops.mul scale ops.tenth)
      (ops.add value (ops.mul (digit ops c) (ops.mul scale ops.tenth)))

/-- The digits of the exponent, on an exponent; from 308 on they are passed over. -/
def expDigits (ds : List UInt8) (expValue : ℕ) : ℕ :=
  ds.foldl (fun n c => if n < 308 then n * 10 + (c.toNat - 48) else n) expValue

def Exponent.apply (e : Exponent) (value : D) : D :=
  scaleLoop ops (e.sign = [45]) (expDigits e.ds 0) value

def Numeral.value (n : Numeral) : D :=
  let value := n.frac.elim (wholeValue ops n.whole (ops.ofNat 0)) fun ds =>
    fracValue ops ds (ops.ofNat 1) (wholeValue ops n.whole (ops.ofNat 0))
  n.exponent.elim value fun e => e.apply ops value

variable {ops} {s r p q ds : List UInt8}

theorem Digits.cons {c : UInt8} (h : Digits (c :: ds)) : isDigit c = true ∧ Digits ds :=
  ⟨h c mem_cons_self, fun d hd => h d (mem_cons_of_mem c hd)⟩

theorem NoDigit.cons {c : UInt8} (h : NoDigit (c :: s)) : isDigit c = false := h c rfl

variable {c : UInt8}

theorem ne_of_isDigit {k : UInt8} (hc : isDigit c = true) (hk : isDigit k = false) : c ≠ k := by
  intro heq
  rw [heq, hk] at hc
  cases hc

theorem isSpace_of_isDigit (hc : isDigit c = true) : isSpace c = false := by
  simp only [isSpace, Bool.or_eq_false_iff, beq_eq_false_iff_ne]
  exact ⟨⟨⟨⟨⟨ne_of_isDigit hc rfl, ne_of_isDigit hc rfl⟩, ne_of_isDigit hc rfl⟩,
    ne_of_isDigit hc rfl⟩, ne_of_isDigit hc rfl⟩, ne_of_isDigit hc rfl⟩

theorem not_sign_of_isDigit (hc : isDigit c = true) : ¬ (c = 43 ∨ c = 45) :=
  not_or.2 ⟨ne_of_isDigit hc rfl, ne_of_isDigit hc rfl⟩

theorem exists_digits (s : List UInt8) : ∃ ds q, s = ds ++ q ∧ Digits ds ∧ NoDigit q := by
  refine ⟨s.takeWhile isDigit, s.dropWhile isDigit, takeWhile_append_dropWhile.symm, ?_, ?_⟩
  · intro c hc
    exact mem_takeWhile_imp hc
  · intro c hc
    have hstop := List.head?_dropWhile_not isDigit s
    rw [mem_def.1 hc] at hstop
    exact hstop

theorem wholeLoop_append (hds : Digits ds) (hq : NoDigit q) (value : D) (any : Bool) :
    wholeLoop ops (ds ++ q) value any = (wholeValue ops ds value, any || decide (ds ≠ []), q) := by
  induction ds generalizing value any with
  | nil =>
    cases q with
    | nil => simp [wholeLoop, wholeValue]
    | cons c q => simp [wholeLoop, wholeValue, hq.cons]
  | cons c ds ih =>
    rw [cons_append, wholeLoop, if_pos hds.cons.1, ih hds.cons.2]
    simp [wholeValue]

theorem fracLoop_append (hds : Digits ds) (hq : NoDigit q) (scale value : D) (any : Bool) :
    fracLoop ops (ds ++ q) scale value any =
      (fracValue ops ds scale value, any || decide (ds ≠ []), q) := by
  induction ds generalizing scale value any with
  | nil =>
    cases q with
    | nil => simp [fracLoop, fracValue]
    | cons c q => simp [fracLoop, fracValue, hq.cons]
  | cons c ds ih =>
    rw [cons_append, fracLoop, if_pos hds.cons.1, ih hds.cons.2]
    simp [fracValue]

theorem expLoop_append (hds : Digits ds) (hq : NoDigit q) (expValue : ℕ) :
    expLoop (ds ++ q) expValue = (expDigits ds expValue, q) := by
  induction ds generalizing expValue with
  | nil =>
    cases q with
    | nil => rfl
    | cons c q => simp [expLoop, expDigits, hq.cons]
  | cons c ds ih =>
    rw [cons_append, expLoop, if_pos hds.cons.1, ih hds.cons.2]
    rfl

theorem takeSign_of_digit (hc : isDigit c = true) (p : List UInt8) :
    takeSign (c :: p) = (false, c :: p) := by
  rw [takeSign, if_neg (not_sign_of_isDigit hc)]

theorem expPart_exponent (e : Exponent) (hr : NoDigit r) (value : D) :
    expPart ops value (e.text ++ r) = (e.apply ops value, r) := by
  obtain ⟨mark, sign, ds, hmark, hsign, hdigits, hne⟩ := e
  obtain ⟨d, ds, rfl⟩ := exists_cons_of_ne_nil hne
  have hd := hdigits.cons.1
  have hloop := expLoop_append hdigits hr 0
  rw [cons_append] at hloop
  have htake : takeSign (sign ++ d :: ds ++ r) = (decide (sign = [45]), d :: (ds ++ r)) := by
    rcases hsign with rfl | rfl | rfl
    · exact takeSign_of_digit hd (ds ++ r)
    · rfl
    · rfl
  rw [Exponent.text, cons_append, expPart, if_pos hmark, htake]
  dsimp only
  rw [if_pos hd, hloop, Exponent.apply]

/-- What must not be next behind a number. -/
def TokenEnd (r : List UInt8) : Prop :=
  ∀ c ∈ r.head?, isDigit c = false ∧ c ≠ 46 ∧ c ≠ 101 ∧ c ≠ 69

theorem TokenEnd.noDigit (h : TokenEnd r) : NoDigit r := fun c hc => (h c hc).1

theorem expPart_end (hr : TokenEnd r) (value : D) : expPart ops value r = (value, r) := by
  cases r with
  | nil => rfl
  | cons c r =>
    obtain ⟨-, -, he, hE⟩ := hr c rfl
    rw [expPart, if_neg (not_or.2 ⟨he, hE⟩)]

theorem expPart_elim (e : Option Exponent) (hr : TokenEnd r) (value : D) :
    expPart ops value (e.elim [] Exponent.text ++ r) =
      (e.elim value fun e => e.apply ops value, r) := by
  cases e with
  | none => exact expPart_end hr value
  | some e => exact expPart_exponent e hr.noDigit value

theorem noDigit_elim (e : Option Exponent) (hr : TokenEnd r) :
    NoDigit (e.elim [] Exponent.text ++ r) ∧ (e.elim [] Exponent.text ++ r).head? ≠ some 46 := by
  cases e with
  | none => exact ⟨hr.noDigit, fun h => (hr 46 h).2.1 rfl⟩
  | some e =>
    obtain ⟨mark, sign, ds, hmark, hsign, hdigits, hne⟩ := e
    constructor
    · intro c hc
      rw [elim_some, Exponent.text, cons_append, List.head?_cons] at hc
      cases hc
      rcases hmark with rfl | rfl
      · rfl
      · rfl
    · intro h
      rw [elim_some, Exponent.text, cons_append, List.head?_cons,
        Option.some.injEq] at h
      subst h
      rcases hmark with h | h
      · cases h
      · cases h

theorem fracPart_numeral (n : Numeral) (hr : NoDigit r) (hpoint : r.head? ≠ some 46) :
    fracPart ops (wholeLoop ops (n.whole ++ (n.frac.elim [] fun ds => 46 :: ds) ++ r)
      (ops.ofNat 0) false) =
    (n.frac.elim (wholeValue ops n.whole (ops.ofNat 0)) fun ds =>
      fracValue ops ds (ops.ofNat 1) (wholeValue ops n.whole (ops.ofNat 0)), true, r) := by
  obtain ⟨whole, frac, exponent, hdigits, hfrac, hne⟩ := n
  cases frac with
  | none =>
    have hwhole : whole ≠ [] := by
      rcases hne with hne | ⟨ds, hds, -⟩
      · exact hne
      · cases hds
    rw [elim_none, elim_none, append_nil, wholeLoop_append hdigits hr, fracPart]
    split
    case h_1 hnil =>
      simp [hwhole]
    case h_2 c q hq =>
      have hq : r = c :: q := hq
      have hc : c ≠ 46 := by
        rintro rfl
        rw [hq] at hpoint
        exact hpoint rfl
      rw [if_neg hc]
      simp [hwhole]
  | some ds =>
    have hds : Digits ds := hfrac ds rfl
    have hstop : NoDigit (46 :: ds ++ r) := by
      intro c hc
      cases hc
      rfl
    have hany : (decide (whole ≠ []) || decide (ds ≠ [])) = true := by
      rcases hne with hne | ⟨ds', hds', hne⟩
      · simp [hne]
      · cases hds'
        simp [hne]
    rw [elim_some, elim_some, append_assoc, wholeLoop_append hdigits hstop,
      fracPart]
    rw [cons_append]
    dsimp only
    rw [if_pos rfl, fracLoop_append hds hr, Bool.false_or, hany]

theorem takeSign_skip (n : Numeral) (r : List UInt8) :
    takeSign ((n.text ++ r).dropWhile isSpace) = (false, n.text ++ r) := by
  have hstart : ∃ c t, n.text ++ r = c :: t ∧ isSpace c = false ∧ ¬ (c = 43 ∨ c = 45) := by
    obtain ⟨whole, frac, exponent, hdigits, hfrac, hne⟩ := n
    cases whole with
    | nil =>
      cases frac with
      | none =>
        rcases hne with hne | ⟨ds, hds, -⟩
        · exact absurd rfl hne
        · cases hds
      | some ds =>
        exact ⟨46, ds ++ exponent.elim [] Exponent.text ++ r, by simp [Numeral.text],
          by decide, by decide⟩
    | cons c whole =>
      have hc := hdigits.cons.1
      exact ⟨c, _, rfl, isSpace_of_isDigit hc, not_sign_of_isDigit hc⟩
  obtain ⟨c, t, htext, hspace, hsign⟩ := hstart
  rw [htext, dropWhile_cons_of_neg (by rw [hspace]; decide), takeSign, if_neg hsign]

theorem strtod_numeral (n : Numeral) (hr : TokenEnd r) :
    strtod ops (n.text ++ r) = (n.value ops, r) := by
  obtain ⟨hdigit, hpoint⟩ := noDigit_elim n.exponent hr
  have hmantissa := @fracPart_numeral _ ops _ n hdigit hpoint
  rw [← append_assoc, ← Numeral.text] at hmantissa
  rw [strtod, takeSign_skip]
  rw [hmantissa]
  rw [if_pos rfl, expPart_elim n.exponent hr]
  rfl

theorem exists_exponent (s : List UInt8) (value : D) : ∃ (e : Option Exponent) (r : List UInt8),
    s = e.elim [] Exponent.text ++ r ∧
      expPart ops value s = (e.elim value fun e => e.apply ops value, r) := by
  cases s with
  | nil => exact ⟨none, [], rfl, rfl⟩
  | cons c p =>
    rw [expPart]
    split
    case isFalse => exact ⟨none, c :: p, rfl, rfl⟩
    case isTrue hc =>
      obtain ⟨sign, hsign, hp⟩ : ∃ sign, (sign = [] ∨ sign = [43] ∨ sign = [45]) ∧
          p = sign ++ (takeSign p).2 ∧ (takeSign p).1 = decide (sign = [45]) := by
        cases p with
        | nil => exact ⟨[], Or.inl rfl, rfl, rfl⟩
        | cons d p =>
          rw [takeSign]
          split
          case isTrue hd =>
            refine ⟨[d], ?_, rfl, ?_⟩
            · rcases hd with rfl | rfl
              · exact Or.inr (Or.inl rfl)
              · exact Or.inr (Or.inr rfl)
            · simp
          case isFalse => exact ⟨[], Or.inl rfl, rfl, rfl⟩
      split
      case h_1 => exact ⟨none, c :: p, rfl, rfl⟩
      case h_2 d q hrest =>
        split
        case isFalse => exact ⟨none, c :: p, rfl, rfl⟩
        case isTrue hd =>
          obtain ⟨ds, r, hq, hds, hr⟩ := exists_digits q
          have hdigits : Digits (d :: ds) := by
            intro k hk
            rcases mem_cons.1 hk with rfl | hk
            · exact hd
            · exact hds k hk
          refine ⟨some ⟨c, sign, d :: ds, hc, hsign, hdigits, cons_ne_nil d ds⟩, r, ?_, ?_⟩
          · rw [hp.1, hrest, hq]
            simp [Exponent.text]
          · have hloop := expLoop_append hdigits hr 0
            rw [cons_append, ← hq] at hloop
            rw [hloop, hp.2]
            rfl

theorem exists_numeral {v : D} (hc : isDigit c = true ∨ c = 46)
    (h : strtod ops (c :: s) = (v, r)) (hr : r ≠ c :: s) :
    ∃ n : Numeral, c :: s = n.text ++ r ∧ v = n.value ops := by
  obtain ⟨whole, q, hwhole, hdigits, hq⟩ := exists_digits (c :: s)
  have hstart : takeSign ((c :: s).dropWhile isSpace) = (false, c :: s) := by
    have hspace : isSpace c = false ∧ ¬ (c = 43 ∨ c = 45) := by
      rcases hc with hc | rfl
      · exact ⟨isSpace_of_isDigit hc, not_sign_of_isDigit hc⟩
      · exact ⟨rfl, by decide⟩
    rw [dropWhile_cons_of_neg (by rw [hspace.1]; decide), takeSign, if_neg hspace.2]
  obtain ⟨frac, q', hfrac, hq', hmantissa⟩ : ∃ (frac : Option (List UInt8)) (q' : List UInt8),
      (∀ ds ∈ frac, Digits ds) ∧ q = (frac.elim [] fun ds => 46 :: ds) ++ q' ∧
        fracPart ops (wholeLoop ops (c :: s) (ops.ofNat 0) false) =
          (frac.elim (wholeValue ops whole (ops.ofNat 0)) fun ds =>
            fracValue ops ds (ops.ofNat 1) (wholeValue ops whole (ops.ofNat 0)),
            decide (whole ≠ [] ∨ ∃ ds ∈ frac, ds ≠ []), q') := by
    rw [hwhole, wholeLoop_append hdigits hq, fracPart]
    dsimp only
    split
    case h_1 =>
      refine ⟨none, [], ?_, rfl, ?_⟩
      · intro ds hds
        cases hds
      · simp
    case h_2 d t =>
      split
      case isFalse hd =>
        refine ⟨none, d :: t, ?_, rfl, ?_⟩
        · intro ds hds
          cases hds
        · simp
      case isTrue hd =>
        obtain ⟨ds, r, ht, hds, hr⟩ := exists_digits t
        refine ⟨some ds, r, ?_, ?_, ?_⟩
        · intro ds' hds'
          cases hds'
          exact hds
        · rw [hd, ht]
          rfl
        · rw [ht, fracLoop_append hds hr]
          simp
  rw [strtod, hstart] at h
  rw [hmantissa] at h
  split at h
  case isFalse => exact absurd (congrArg Prod.snd h).symm hr
  case isTrue hany =>
    obtain ⟨e, r', hexp, happly⟩ := @exists_exponent _ ops q'
      (frac.elim (wholeValue ops whole (ops.ofNat 0)) fun ds =>
        fracValue ops ds (ops.ofNat 1) (wholeValue ops whole (ops.ofNat 0)))
    rw [happly] at h
    cases h
    refine ⟨⟨whole, frac, e, hdigits, hfrac, of_decide_eq_true hany⟩, ?_, rfl⟩
    rw [hwhole, hq', hexp, Numeral.text, append_assoc, append_assoc]

end Cleonos.Calc
