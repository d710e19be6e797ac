import Cleonos.Libc.Stdlib

/-!
# What `strtol` and `strtoul` read

The standard has them read the longest prefix of the text that is a numeral, behind blanks and a
sign.
-/

namespace Cleonos.Libc

open List Option
open Longest
open Stdio (spell le_spell strtoulLoop_eq)

variable {base limit value magnitude : ℕ} {text p q body : List UInt8} {c x : UInt8}

/-- `strtoul`: `strtoull` only casts its result. -/
abbrev strtoulBase (text : List UInt8) (base : ℕ) : Option (ℕ × List UInt8) := strtoull text base

/-- `strtol`: `strtoll` only casts its result. -/
abbrev strtol (text : List UInt8) (base : ℕ) : Option (ℤ × List UInt8) := strtoll text base

/-! ## Numerals -/

def isDigit (base : ℕ) (c : UInt8) : Bool := (clibDigitValue c).any (· < base)

def digitValue (c : UInt8) : ℕ := (clibDigitValue c).getD 0

/-- The number that digits stand for. -/
def numberIn (base : ℕ) (digits : List UInt8) : ℕ := spell base 0 (digits.map digitValue)

/-- At least one digit, and nothing else. -/
def Digits (base : ℕ) (digits : List UInt8) : Prop := digits ≠ [] ∧ ∀ c ∈ digits, isDigit base c

/-- The letter of the prefix of a hexadecimal number. -/
def IsX (c : UInt8) : Prop := c = 120 ∨ c = 88

/-- The expected form behind the sign: digits, with a prefix if they may have one, and a constant
of the language if the base is zero. -/
inductive Numeral : ℕ → List UInt8 → ℕ → Prop
  | digits {base : ℕ} {d : List UInt8} (hlow : 2 ≤ base) (hhigh : base ≤ 36)
      (hd : Digits base d) : Numeral base d (numberIn base d)
  | hexadecimal {x : UInt8} {d : List UInt8} (hx : IsX x) (hd : Digits 16 d) :
      Numeral 16 (48 :: x :: d) (numberIn 16 d)
  | decimalConstant {d : List UInt8} (hd : Digits 10 d) (hfirst : d.head? ≠ some 48) :
      Numeral 0 d (numberIn 10 d)
  | octalConstant {d : List UInt8} (hd : Digits 8 (48 :: d)) :
      Numeral 0 (48 :: d) (numberIn 8 (48 :: d))
  | hexadecimalConstant {x : UInt8} {d : List UInt8} (hx : IsX x) (hd : Digits 16 d) :
      Numeral 0 (48 :: x :: d) (numberIn 16 d)

/-- Some number is written like this. -/
def IsNumeral (base : ℕ) (body : List UInt8) : Prop := ∃ value, Numeral base body value

/-- The part of the text behind the blanks and the sign. -/
def unsignedPart (text : List UInt8) : List UInt8 := (sign (text.dropWhile isspace)).2

/-- There is a minus sign in front of the number. -/
def isNegative (text : List UInt8) : Bool := (sign (text.dropWhile isspace)).1

/-- The text starts with a number that stands for `magnitude`. -/
structure Subject (base : ℕ) (text body : List UInt8) (magnitude : ℕ) : Prop where
  longest : IsLongest (IsNumeral base) (unsignedPart text) body
  value : Numeral base body magnitude

/-- The prescribed result, where `convert` is what becomes of a number and its sign: the number
and the text behind it, or nothing. -/
def Reads {α : Type} (convert : Bool → ℕ → α) (base : ℕ) (text : List UInt8) :
    Option (α × List UInt8) → Prop
  | none => ∀ body, body <+: unsignedPart text → ¬ IsNumeral base body
  | some (value, rest) => ∃ body magnitude, Subject base text body magnitude ∧
      value = convert (isNegative text) magnitude ∧ unsignedPart text = body ++ rest

/-- A number and its sign in an `unsigned long`. -/
def toUnsignedLong (negative : Bool) (magnitude : ℕ) : ℕ :=
  if magnitude > ulongMax then ulongMax
  else if negative then (2 ^ 64 - magnitude) % 2 ^ 64 else magnitude

/-- A number and its sign in a `long`. -/
def toLong (negative : Bool) (magnitude : ℕ) : ℤ :=
  if negative then max (-2 ^ 63) (-magnitude) else min (2 ^ 63 - 1) magnitude

/-- A hexadecimal number has a prefix and no digits. -/
def BarePrefix (base : ℕ) (p : List UInt8) : Prop :=
  base = 16 ∧ p.headD 0 = 48 ∧ IsX (p.getD 1 0) ∧ isxdigit (p.getD 2 0) = false

/-- A number with a minus sign does not fit. -/
def NegativeOverflow (base : ℕ) (text : List UInt8) : Prop :=
  isNegative text = true ∧ ∃ body magnitude, Subject base text body magnitude ∧
    ulongMax < magnitude

theorem isxdigit_iff (c : UInt8) : isxdigit c = isDigit 16 c := by
  have hall : ∀ n < 256, isxdigit (UInt8.ofNat n) = isDigit 16 (UInt8.ofNat n) := by
    decide +kernel
  simpa using hall c.toNat c.toNat_lt

theorem filter_digit (base : ℕ) (c : UInt8) :
    (clibDigitValue c).filter (· < base) =
      if isDigit base c then some (digitValue c) else none := by
  rw [isDigit, digitValue]
  cases clibDigitValue c with
  | none => rfl
  | some digit =>
    rw [any_some, getD_some, filter_some]

theorem digitValue_lt (h : isDigit base c = true) : digitValue c < base := by
  rw [isDigit] at h
  rw [digitValue]
  cases hc : clibDigitValue c with
  | none => rw [hc] at h; cases h
  | some digit =>
    rw [hc] at h
    simpa using h

theorem strtolLoop_overflow (hbase : 2 ≤ base) (hlimit : 0 < limit) (p : List UInt8) :
    strtolLoop limit base p limit true = (limit, true, p.dropWhile (isDigit base)) := by
  induction p with
  | nil => rfl
  | cons c p ih =>
    rw [strtolLoop, filter_digit]
    by_cases hc : isDigit base c = true
    · have hover : limit > (limit - digitValue c) / base := by
        calc
          (limit - digitValue c) / base ≤ limit / base :=
            Nat.div_le_div_right (Nat.sub_le _ _)
          _ < limit := Nat.div_lt_self hlimit hbase
      rw [if_pos hc]
      dsimp only
      rw [if_pos hover, ih, dropWhile_cons_of_pos hc]
    · rw [if_neg hc, dropWhile_cons_of_neg hc]

theorem strtolLoop_eq (hbase : 2 ≤ base) (hlimit : base ≤ limit) (p : List UInt8)
    (hvalue : value ≤ limit) :
    strtolLoop limit base p value false =
      (min (spell base value ((p.takeWhile (isDigit base)).map digitValue)) limit,
        decide (limit < spell base value ((p.takeWhile (isDigit base)).map digitValue)),
        p.dropWhile (isDigit base)) := by
  induction p generalizing value with
  | nil => simp [strtolLoop, spell, hvalue]
  | cons c p ih =>
    rw [strtolLoop, filter_digit]
    by_cases hc : isDigit base c = true
    · have hdigit := digitValue_lt hc
      have hspell : spell base value (((c :: p).takeWhile (isDigit base)).map digitValue) =
          spell base (value * base + digitValue c)
            ((p.takeWhile (isDigit base)).map digitValue) := by
        rw [takeWhile_cons_of_pos hc]
        rfl
      have hfits : value > (limit - digitValue c) / base ↔
          limit < value * base + digitValue c := by
        rw [gt_iff_lt, Nat.div_lt_iff_lt_mul (by omega)]
        omega
      rw [if_pos hc, dropWhile_cons_of_pos hc, hspell]
      dsimp only
      by_cases hover : limit < value * base + digitValue c
      · have hlarge : limit < spell base (value * base + digitValue c)
            ((p.takeWhile (isDigit base)).map digitValue) :=
          hover.trans_le (le_spell (by omega) _ _)
        rw [if_pos (hfits.2 hover), strtolLoop_overflow hbase (by omega),
          min_eq_right hlarge.le, decide_eq_true hlarge]
      · rw [if_neg (fun h => hover (hfits.1 h)), if_pos rfl, ih (Nat.not_lt.1 hover)]
    · rw [if_neg hc, takeWhile_cons_of_neg hc, dropWhile_cons_of_neg hc]
      simp [spell, hvalue]

theorem not_isDigit_of_isX (hx : IsX x) (hbase : base ≤ 16) : ¬ isDigit base x = true := by
  have h120 : clibDigitValue 120 = some 33 := by decide
  have h88 : clibDigitValue 88 = some 33 := by decide
  rcases hx with rfl | rfl
  · simp only [isDigit, h120, any_some, decide_eq_true_eq]
    omega
  · simp only [isDigit, h88, any_some, decide_eq_true_eq]
    omega

theorem Numeral.ne_nil (h : Numeral base body value) : body ≠ [] := by
  cases h with
  | digits _ _ hd => exact hd.1
  | hexadecimal => exact cons_ne_nil _ _
  | decimalConstant hd => exact hd.1
  | octalConstant => exact cons_ne_nil _ _
  | hexadecimalConstant => exact cons_ne_nil _ _

theorem Numeral.unique {value' : ℕ} (h : Numeral base body value)
    (h' : Numeral base body value') : value = value' := by
  cases h with
  | digits hlow _ hd =>
    cases h' with
    | digits => rfl
    | hexadecimal hx => exact absurd (hd.2 _ (by simp)) (not_isDigit_of_isX hx (by omega))
    | decimalConstant => omega
    | octalConstant => omega
    | hexadecimalConstant => omega
  | hexadecimal hx hd =>
    cases h' with
    | digits _ _ hd' => exact absurd (hd'.2 _ (by simp)) (not_isDigit_of_isX hx (by omega))
    | hexadecimal => rfl
  | decimalConstant hd hfirst =>
    cases h' with
    | digits hlow => omega
    | decimalConstant => rfl
    | octalConstant => exact absurd rfl hfirst
    | hexadecimalConstant => exact absurd rfl hfirst
  | octalConstant hd =>
    cases h' with
    | digits hlow => omega
    | decimalConstant _ hfirst => exact absurd rfl hfirst
    | octalConstant => rfl
    | hexadecimalConstant hx => exact absurd (hd.2 _ (by simp)) (not_isDigit_of_isX hx (by omega))
  | hexadecimalConstant hx hd =>
    cases h' with
    | digits hlow => omega
    | decimalConstant _ hfirst => exact absurd rfl hfirst
    | octalConstant hd' => exact absurd (hd'.2 _ (by simp)) (not_isDigit_of_isX hx (by omega))
    | hexadecimalConstant => rfl

/-- What is left of a text behind the prefix of a number, and what a numeral is made of then:
nothing but the prefix and digits in the base that was found. -/
structure Prefixed (base : ℕ) (p front : List UInt8) (b : ℕ) (q : List UInt8) : Prop where
  split : p = front ++ q
  low : 2 ≤ b
  high : b ≤ 36
  numeral : ∀ d, d <+: q → Digits b d → Numeral base (front ++ d) (numberIn b d)
  only : ∀ other, other <+: front ++ q → IsNumeral base other →
    other.length ≤ front.length ∨ ∃ d, other = front ++ d ∧ ∀ c ∈ d, isDigit b c = true
  some_digit : front ≠ [] → q.takeWhile (isDigit b) ≠ []

theorem Prefixed.plain (hlow : 2 ≤ base) (hhigh : base ≤ 36)
    (h : ¬ (base = 16 ∧ p.headD 0 = 48 ∧ IsX (p.getD 1 0))) : Prefixed base p [] base p := by
  refine ⟨rfl, hlow, hhigh, fun d _ hd => .digits hlow hhigh hd, ?_, fun h => absurd rfl h⟩
  rintro other hother ⟨value, hvalue⟩
  cases hvalue with
  | digits _ _ hd => exact .inr ⟨other, rfl, hd.2⟩
  | hexadecimal hx hd =>
    obtain ⟨rest, hrest⟩ := hother
    rw [nil_append] at hrest
    exact absurd ⟨rfl, by simp [← hrest], by simpa [← hrest] using hx⟩ h
  | decimalConstant => omega
  | octalConstant => omega
  | hexadecimalConstant => omega

theorem Prefixed.hexadecimal (hbase : base = 16 ∨ base = 0) (hx : IsX x)
    (hc : isDigit 16 c = true) :
    Prefixed base (48 :: x :: c :: q) [48, x] 16 (c :: q) := by
  refine ⟨rfl, by omega, by omega, fun d _ hd => ?_, ?_, fun _ => by simp [hc]⟩
  · rcases hbase with rfl | rfl
    · exact .hexadecimal hx hd
    · exact .hexadecimalConstant hx hd
  · -- digits alone end at the letter of the prefix
    have hshort : ∀ b d, b ≤ 16 → d <+: [48, x] ++ c :: q → Digits b d → d.length ≤ 2 := by
      intro b d hb hd hdigits
      match d, hd with
      | [], _ => exact Nat.zero_le _
      | [_], _ => exact Nat.le_succ 1
      | _ :: y :: d, hd =>
        have hyx : y = x := by
          simp only [cons_append, nil_append, cons_prefix_cons] at hd
          exact hd.2.1
        exact absurd (hdigits.2 y (by simp)) (not_isDigit_of_isX (hyx ▸ hx) hb)
    have hletter : ∀ y d, IsX y → Digits 16 d → 48 :: y :: d <+: [48, x] ++ c :: q →
        ∃ d', 48 :: y :: d = [48, x] ++ d' ∧ ∀ c ∈ d', isDigit 16 c = true := by
      intro y d _ hd hfront
      simp only [cons_append, nil_append, cons_prefix_cons] at hfront
      exact ⟨d, by rw [hfront.2.1]; rfl, hd.2⟩
    rintro other hother ⟨value, hvalue⟩
    cases hvalue with
    | digits _ _ hd => exact .inl (hshort _ _ (by omega) hother hd)
    | hexadecimal hy hd => exact .inr (hletter _ _ hy hd hother)
    | decimalConstant hd => exact .inl (hshort _ _ (by omega) hother hd)
    | octalConstant hd => exact .inl (hshort _ _ (by omega) hother hd)
    | hexadecimalConstant hy hd => exact .inr (hletter _ _ hy hd hother)

theorem Prefixed.octal (hp : p.headD 0 = 48)
    (h : ¬ (IsX (p.getD 1 0) ∧ isxdigit (p.getD 2 0) = true)) : Prefixed 0 p [] 8 p := by
  refine ⟨rfl, by omega, by omega, fun d hd hdigits => ?_, ?_, fun h => absurd rfl h⟩
  · cases d with
    | nil => exact absurd rfl hdigits.1
    | cons c d =>
      have hc : c = 48 := by
        obtain ⟨rest, rfl⟩ := hd
        simpa using hp
      subst hc
      exact .octalConstant hdigits
  · rintro other hother ⟨value, hvalue⟩
    rw [nil_append] at hother
    obtain ⟨rest, rfl⟩ := hother
    cases hvalue with
    | digits hlow => omega
    | decimalConstant hd hfirst =>
      cases other with
      | nil => exact absurd rfl hd.1
      | cons c d => exact absurd (by simpa using hp) hfirst
    | octalConstant hd => exact .inr ⟨_, rfl, hd.2⟩
    | @hexadecimalConstant x d hx hd =>
      cases d with
      | nil => exact absurd rfl hd.1
      | cons c d =>
        have hc := hd.2 c (by simp)
        rw [← isxdigit_iff] at hc
        exact absurd ⟨by simpa using hx, by simpa using hc⟩ h

theorem Prefixed.decimal (hp : p.headD 0 ≠ 48) : Prefixed 0 p [] 10 p := by
  refine ⟨rfl, by omega, by omega, fun d hd hdigits => .decimalConstant hdigits ?_, ?_,
    fun h => absurd rfl h⟩
  · intro hfirst
    cases d with
    | nil => cases hfirst
    | cons c d =>
      obtain ⟨rest, rfl⟩ := hd
      exact hp (by simpa using hfirst)
  · rintro other hother ⟨value, hvalue⟩
    rw [nil_append] at hother
    obtain ⟨rest, rfl⟩ := hother
    cases hvalue with
    | digits hlow => omega
    | decimalConstant hd => exact .inr ⟨_, rfl, hd.2⟩
    | octalConstant => exact absurd rfl hp
    | hexadecimalConstant => exact absurd rfl hp

theorem prefixed (hbase : base = 0 ∨ 2 ≤ base ∧ base ≤ 36) (p : List UInt8)
    (hbare : ¬ BarePrefix base p) :
    ∃ front, Prefixed base p front (basePrefix base p).1 (basePrefix base p).2 := by
  have hhex : ∀ hx : IsX (p.getD 1 0), isxdigit (p.getD 2 0) = true → p.headD 0 = 48 →
      base = 16 ∨ base = 0 → Prefixed base p [48, p.getD 1 0] 16 (p.drop 2) := by
    intro hx hdigit hhead hbase
    match p, hhead, hx, hdigit with
    | [], hhead, _, _ => exact absurd hhead (by decide)
    | [_], _, hx, _ => exact absurd (show (0 : UInt8) = 120 ∨ (0 : UInt8) = 88 from hx) (by decide)
    | [_, _], _, _, hdigit => exact absurd (show isxdigit 0 = true from hdigit) (by decide)
    | a :: x :: c :: q, hhead, hx, hdigit =>
      obtain rfl : a = 48 := hhead
      exact .hexadecimal hbase hx (by rw [← isxdigit_iff]; exact hdigit)
  rw [basePrefix]
  split
  case isTrue h0 =>
    subst h0
    rw [detectBase]
    split
    case isTrue hhead =>
      split
      case isTrue h => exact ⟨_, hhex h.1 h.2 hhead (.inr rfl)⟩
      case isFalse h => exact ⟨_, .octal hhead h⟩
    case isFalse hhead => exact ⟨_, .decimal hhead⟩
  case isFalse h0 =>
    split
    case isTrue h =>
      refine ⟨_, hhex h.2.2 ?_ h.2.1 (.inl h.1)⟩
      by_contra hdigit
      exact hbare ⟨h.1, h.2.1, h.2.2, by simpa using hdigit⟩
    case isFalse h => exact ⟨_, .plain (by omega) (by omega) h⟩

section
variable {front : List UInt8} {b : ℕ}

theorem Prefixed.isLongest (h : Prefixed base p front b q) (hne : q.takeWhile (isDigit b) ≠ []) :
    IsLongest (IsNumeral base) p (front ++ q.takeWhile (isDigit b)) ∧
      Numeral base (front ++ q.takeWhile (isDigit b)) (numberIn b (q.takeWhile (isDigit b))) := by
  have hnumeral := h.numeral _ (List.takeWhile_prefix _)
    ⟨hne, fun c hc => mem_takeWhile_imp hc⟩
  rw [h.split]
  exact ⟨isLongest_append_takeWhile ⟨_, hnumeral⟩ h.only, hnumeral⟩

theorem Prefixed.not_numeral (h : Prefixed base p front b q)
    (hnil : q.takeWhile (isDigit b) = []) (other : List UInt8) (hother : other <+: p) :
    ¬ IsNumeral base other := by
  intro hnumeral
  have hfront : front = [] := by
    by_contra hne
    exact h.some_digit hne hnil
  subst hfront
  rw [h.split] at hother
  have hlen : other.length ≤ 0 := by
    rcases h.only other hother hnumeral with hlen | ⟨d, rfl, hd⟩
    · exact hlen
    · have hle := length_le_takeWhile ((prefix_append_right_inj []).1 hother) hd
      rwa [hnil] at hle
  obtain ⟨value, hvalue⟩ := hnumeral
  exact hvalue.ne_nil (eq_nil_of_length_eq_zero (Nat.le_zero.1 hlen))

end

theorem numeral_zero : Numeral 16 [48] 0 := by
  have hdigit : isDigit 16 48 := by decide
  have hdigits : Digits 16 [48] := by
    constructor
    · simp
    · intro c hc
      rw [mem_singleton.1 hc]
      exact hdigit
  exact .digits (by omega) (by omega) hdigits

theorem BarePrefix.isLongest (h : BarePrefix base p) :
    IsLongest (IsNumeral base) p [48] ∧ Numeral base [48] 0 := by
  obtain ⟨rfl, hhead, hx, hdigit⟩ := h
  have hzero : Numeral 16 [48] 0 := numeral_zero
  match p, hhead, hx with
  | [], hhead, _ => exact absurd hhead (by decide)
  | [_], _, hx => exact absurd (show (0 : UInt8) = 120 ∨ (0 : UInt8) = 88 from hx) (by decide)
  | a :: x :: q, hhead, hx =>
    obtain rfl : a = 48 := hhead
    refine ⟨⟨⟨x :: q, rfl⟩, ⟨0, hzero⟩, ?_⟩, hzero⟩
    rintro other ⟨rest, hrest⟩ ⟨value, hvalue⟩
    cases hvalue with
    | digits _ _ hd =>
      match other, hrest with
      | [], _ => exact Nat.zero_le _
      | [_], _ => exact le_rfl
      | _ :: y :: d, hrest =>
        have hyx : y = x := by
          simp only [cons_append, List.cons.injEq] at hrest
          exact hrest.2.1
        exact absurd (hd.2 y (by simp)) (not_isDigit_of_isX (hyx ▸ hx) (by omega))
    | @hexadecimal y d hy hd =>
      cases d with
      | nil => exact absurd rfl hd.1
      | cons c d =>
        simp only [cons_append, List.cons.injEq] at hrest
        have hc := hd.2 c (by simp)
        rw [← isxdigit_iff] at hc
        rw [← hrest.2.2] at hdigit
        exact absurd (hc.symm.trans hdigit) (by decide)

/-! ## The two functions -/

theorem length_dropWhile_eq_iff (d : UInt8 → Bool) (q : List UInt8) :
    (q.dropWhile d).length = q.length ↔ q.takeWhile d = [] := by
  have hlen := congrArg List.length (@takeWhile_append_dropWhile _ d q)
  rw [length_append] at hlen
  rw [← length_eq_zero_iff]
  omega

/-- What both functions return: nothing without a digit, and the number of the digits converted
otherwise. -/
def readResult {α : Type} (convert : Bool → ℕ → α) (base : ℕ) (text : List UInt8) :
    Option (α × List UInt8) :=
  if ((basePrefix base (unsignedPart text)).2.takeWhile
      (isDigit (basePrefix base (unsignedPart text)).1)) = [] then none
  else some (convert (isNegative text) (numberIn (basePrefix base (unsignedPart text)).1
      ((basePrefix base (unsignedPart text)).2.takeWhile
        (isDigit (basePrefix base (unsignedPart text)).1))),
    (basePrefix base (unsignedPart text)).2.dropWhile
      (isDigit (basePrefix base (unsignedPart text)).1))

theorem basePrefix_bounds (hbase : base = 0 ∨ 2 ≤ base ∧ base ≤ 36) (p : List UInt8) :
    2 ≤ (basePrefix base p).1 ∧ (basePrefix base p).1 ≤ 36 := by
  rw [basePrefix, detectBase]
  split_ifs <;> dsimp only <;> omega

/-- What `strtoul` makes of a number and its sign. -/
def wrapUnsigned (negative : Bool) (magnitude : ℕ) : ℕ :=
  if negative then (2 ^ 64 - min magnitude ulongMax) % 2 ^ 64 else min magnitude ulongMax

theorem strtoulBase_eq (hbase : base = 0 ∨ 2 ≤ base ∧ base ≤ 36) (text : List UInt8) :
    strtoulBase text base = readResult wrapUnsigned base text := by
  rw [strtoulBase, strtoull, readResult, isNegative, unsignedPart]
  generalize sign (text.dropWhile isspace) = s
  obtain ⟨hlow, hhigh⟩ := basePrefix_bounds hbase s.2
  generalize basePrefix base s.2 = b at *
  have hlimit : b.1 ≤ ulongMax := hhigh.trans (by decide)
  simp only [strtoulLoop_eq, strtolLoop_eq hlow hlimit b.2 (Nat.zero_le _),
    length_dropWhile_eq_iff, numberIn, wrapUnsigned]
  rw [if_neg (by omega)]

theorem strtol_eq (hbase : base = 0 ∨ 2 ≤ base ∧ base ≤ 36) (text : List UInt8) :
    strtol text base = readResult toLong base text := by
  rw [strtol, strtoll, readResult, isNegative, unsignedPart]
  generalize sign (text.dropWhile isspace) = s
  obtain ⟨hlow, hhigh⟩ := basePrefix_bounds hbase s.2
  generalize basePrefix base s.2 = b at *
  have hlimit : b.1 ≤ if s.1 then 2 ^ 63 else 2 ^ 63 - 1 := by split <;> omega
  simp only [strtolLoop_eq hlow hlimit b.2 (Nat.zero_le _), length_dropWhile_eq_iff, numberIn,
    toLong, decide_eq_true_eq]
  rw [if_neg (by omega)]
  congr 2
  cases s.1 <;> simp <;> split_ifs <;> omega

theorem Subject.unique {body' : List UInt8} {magnitude' : ℕ} (h : Subject base text body magnitude)
    (h' : Subject base text body' magnitude') : body = body' ∧ magnitude = magnitude' := by
  obtain rfl := h.longest.unique h'.longest
  exact ⟨rfl, h.value.unique h'.value⟩

/-- A result is the prescribed one, unless a prefix has no digit behind it or the number is
converted in another way. -/
theorem reads_readResult_iff {α : Type} (convert convert' : Bool → ℕ → α)
    (hbase : base = 0 ∨ 2 ≤ base ∧ base ≤ 36) (text : List UInt8) :
    Reads convert base text (readResult convert' base text) ↔
      ¬ BarePrefix base (unsignedPart text) ∧ ∀ body magnitude, Subject base text body magnitude →
        convert' (isNegative text) magnitude = convert (isNegative text) magnitude := by
  by_cases hbare : BarePrefix base (unsignedPart text)
  · -- the prefix is skipped, and nothing is behind it
    have hnil : (basePrefix base (unsignedPart text)).2.takeWhile
        (isDigit (basePrefix base (unsignedPart text)).1) = [] := by
      obtain ⟨rfl, hhead, hx, hdigit⟩ := hbare
      rw [basePrefix, if_neg (by omega), if_pos ⟨rfl, hhead, hx⟩]
      rw [getD_eq_getElem?_getD] at hdigit
      cases hrest : (unsignedPart text).drop 2 with
      | nil => rfl
      | cons c q =>
        have hc : (unsignedPart text)[2]? = some c := by
          rw [← List.head?_drop, hrest, List.head?_cons]
        rw [hc, getD_some, isxdigit_iff] at hdigit
        exact takeWhile_cons_of_neg (by simp [hdigit])
    rw [readResult, if_pos hnil]
    constructor
    · intro h
      exact absurd hbare.isLongest.1.form (h _ hbare.isLongest.1.front)
    · intro h
      exact absurd hbare h.1
  · obtain ⟨front, hfront⟩ := prefixed hbase (unsignedPart text) hbare
    rw [readResult]
    split
    case isTrue hnil =>
      refine iff_of_true (hfront.not_numeral hnil) ⟨hbare, fun body magnitude h => ?_⟩
      exact absurd h.longest.form (hfront.not_numeral hnil _ h.longest.front)
    case isFalse hne =>
      obtain ⟨hlongest, hnumeral⟩ := hfront.isLongest hne
      have hsubject : Subject base text _ _ := ⟨hlongest, hnumeral⟩
      constructor
      · rintro ⟨body, magnitude, h, hvalue, -⟩
        refine ⟨hbare, fun body' magnitude' h' => ?_⟩
        rw [← (h.unique h').2, ← hvalue, (h.unique hsubject).2]
      · intro h
        refine ⟨_, _, hsubject, h.2 _ _ hsubject, ?_⟩
        rw [append_assoc, takeWhile_append_dropWhile]
        exact hfront.split

/-- Both functions read what the standard says, except for the prefix of a hexadecimal number
with no digit behind it, and, with `strtoul`, for a number that is too large and has a minus
sign. -/
theorem reads_iff (hbase : base = 0 ∨ 2 ≤ base ∧ base ≤ 36) (text : List UInt8) :
    (Reads toUnsignedLong base text (strtoulBase text base) ↔
      ¬ BarePrefix base (unsignedPart text) ∧ ¬ NegativeOverflow base text) ∧
    (Reads toLong base text (strtol text base) ↔ ¬ BarePrefix base (unsignedPart text)) := by
  constructor
  · rw [strtoulBase_eq hbase, reads_readResult_iff _ _ hbase]
    refine and_congr_right fun _ => ?_
    have hconvert : ∀ negative magnitude,
        wrapUnsigned negative magnitude = toUnsignedLong negative magnitude ↔
          ¬ (negative = true ∧ ulongMax < magnitude) := by
      intro negative magnitude
      simp only [wrapUnsigned, toUnsignedLong, ulongMax]
      cases negative <;> simp <;> split_ifs <;> omega
    rw [NegativeOverflow]
    constructor
    · rintro h ⟨hnegative, body, magnitude, hsubject, hlarge⟩
      exact (hconvert _ _).1 (h body magnitude hsubject) ⟨hnegative, hlarge⟩
    · intro h body magnitude hsubject
      exact (hconvert _ _).2 fun hover => h ⟨hover.1, body, magnitude, hsubject, hover.2⟩
  · rw [strtol_eq hbase, reads_readResult_iff _ _ hbase]
    exact and_iff_left fun _ _ _ => rfl

/-- A number with a prefix and a sign. -/
theorem reads_hexadecimal : Reads toLong 16 (lit " -0x1fg") (strtol (lit " -0x1fg") 16) :=
  (reads_iff (by decide) _).2.2 fun h => absurd h.2.2.2 (by decide)

/-- The prefix is taken for no number at all, where the zero is one. -/
theorem not_reads_bare_prefix :
    ¬ (Reads toUnsignedLong 16 (lit "0xg") (strtoulBase (lit "0xg") 16) ∧
      Reads toLong 16 (lit "0xg") (strtol (lit "0xg") 16)) := by
  rintro ⟨-, h⟩
  have hnone : strtol (lit "0xg") 16 = none := by decide +kernel
  rw [hnone] at h
  exact h [48] ⟨lit "xg", rfl⟩ ⟨0, numeral_zero⟩

end Cleonos.Libc
