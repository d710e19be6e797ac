import Cleonos.Lua.Format
import Cleonos.Libc.Stdlib

/-!
# Integer conversions of the C standard

A directive is what stands behind the `%` of an integer conversion, with the lengths that
`cleonos_lua_sprintf` accepts.
-/

namespace Cleonos.Lua.Format

open List Option

section

open Lib (layout)
open Stdio (digitChar spell)

/-- `-`, `+`, a space, `#` and `0`. -/
inductive Flag
  | minus
  | plus
  | space
  | hash
  | zero
  deriving DecidableEq, Repr

def Flag.byte : Flag → UInt8
  | .minus => 45
  | .plus => 43
  | .space => 32
  | .hash => 35
  | .zero => 48

inductive Conv
  | d
  | i
  | u
  | x
  | X
  | o
  deriving DecidableEq, Repr

def Conv.byte : Conv → UInt8
  | .d => 100
  | .i => 105
  | .u => 117
  | .x => 120
  | .X => 88
  | .o => 111

def Conv.signed : Conv → Bool
  | .d | .i => true
  | _ => false

def Conv.base : Conv → ℕ
  | .d | .i | .u => 10
  | .x | .X => 16
  | .o => 8

def Length.bytes : Length → List UInt8
  | .default => []
  | .l => [108]
  | .ll => [108, 108]
  | .z => [122]
  | .L => [76]

/-- An integer conversion.  A width does not start with a zero: that is a flag. -/
structure Directive where
  flags : List Flag
  width : List (Fin 10)
  width_head : width.head? ≠ some 0
  precision : Option (List (Fin 10))
  length : Length
  conv : Conv

def decimal (digits : List (Fin 10)) : List UInt8 := digits.map fun digit => digitChar false digit

/-- The number that decimal digits spell; zero if there are none. -/
def numeral (digits : List (Fin 10)) : ℕ := spell 10 0 (digits.map Fin.val)

namespace Directive

open List Option

variable (d : Directive) (w : UInt64)

/-- `.` and the digits of the precision. -/
def precisionBytes : List UInt8 :=
  match d.precision with
  | none => []
  | some digits => 46 :: decimal digits

/-- What stands behind the `%`. -/
def bytes : List UInt8 :=
  d.flags.map Flag.byte ++ decimal d.width ++ d.precisionBytes ++ d.length.bytes ++ [d.conv.byte]

/-- The standard leaves `#` undefined except for octal and hexadecimal, and the length `L` for
integers. -/
def Defined : Prop :=
  (.hash ∈ d.flags → d.conv = .x ∨ d.conv = .X ∨ d.conv = .o) ∧ d.length ≠ .L

/-- The number that is written: the argument, as the type that the conversion and the length
give it. -/
def value : ℤ :=
  if d.conv.signed then signedArg d.length w else unsignedArg d.length w

/-- The precision; one if there is none. -/
def minDigits : ℕ := (d.precision.map numeral).getD 1

/-- A number in the base of the conversion, without leading zeros; no digits for zero. -/
def digits : List UInt8 :=
  (Nat.digits d.conv.base (d.value w).natAbs).reverse.map (digitChar (d.conv = .X))

/-- At least as many digits as the precision says, and for `%#o` the first of them a zero. -/
def body : List UInt8 :=
  let expanded := List.replicate (d.minDigits - (d.digits w).length) 48 ++ d.digits w
  if .hash ∈ d.flags ∧ d.conv = .o ∧ expanded.head? ≠ some 48 then 48 :: expanded else expanded

/-- The sign of a signed conversion; `0x` or `0X` in front of a number that is not zero. -/
def lead : List UInt8 :=
  if d.conv.signed then
    if d.value w < 0 then [45]
    else if .plus ∈ d.flags then [43]
    else if .space ∈ d.flags then [32]
    else []
  else if .hash ∈ d.flags ∧ d.value w ≠ 0 then
    match d.conv with
    | .x => [48, 120]
    | .X => [48, 88]
    | _ => []
  else []

/-- The text of a conversion.  A `-` overrides a `0`, and so does a precision. -/
def text : List UInt8 :=
  layout 32 48 (.minus ∈ d.flags) (.zero ∈ d.flags ∧ d.precision = none) (numeral d.width)
    (d.lead w) (d.body w)

end Directive

/-! ## What the formatter does -/

section

variable {δ : Type} (luaFmtFloat : δ → UInt8 → FmtState → List UInt8)

/-- `cleonos_lua_sprintf` writes a text. -/
def Writes (fmt : List UInt8) (args : List (Arg δ)) (text : List UInt8) : Prop :=
  luaSprintf luaFmtFloat true (some fmt) args = some (.text text (int32 text.length))

/-- In every format the conversion adds the text of the standard. -/
def Directive.Follows (d : Directive) (w : UInt64) : Prop :=
  ∀ rest args text, Writes luaFmtFloat rest args text →
    Writes luaFmtFloat (37 :: d.bytes ++ rest) (.word w :: args) (d.text w ++ text)

/-- `tmp` has room for the number: for its width, and for its lead and its precision. -/
def Directive.Fits (d : Directive) (w : UInt64) : Prop :=
  let room := if d.conv.signed then 127 else 159
  numeral d.width ≤ room ∧ (d.lead w).length + d.minDigits ≤ room

/-- `%#o` with a precision that puts a zero in front already, or that leaves no digit of a zero. -/
def Directive.OctalSlip (d : Directive) (w : UInt64) : Prop :=
  .hash ∈ d.flags ∧ d.conv = .o ∧
    (d.value w ≠ 0 ∧ d.value w < 8 ^ (d.minDigits - 1) ∨ d.value w = 0 ∧ d.minDigits = 0)

end

end

open Stdio (digitChar spell isDigit)

variable {d : Directive} {w : UInt64} {p rest : List UInt8} {st : FmtState}

theorem int32_mul_add (n k : ℤ) : int32 (int32 n * 10 + k) = int32 (n * 10 + k) := by
  rw [int32, int32, int32, ← Int.bmod_add_bmod, Int.bmod_mul_bmod, Int.bmod_add_bmod]

theorem isDigit_digitChar (digit : Fin 10) : isDigit (digitChar false digit) = true := by
  have hall : ∀ digit : Fin 10, isDigit (digitChar false digit) = true := by decide
  exact hall digit

theorem toNat_digitChar (digit : Fin 10) : (digitChar false digit).toNat = 48 + digit := by
  have hall : ∀ digit : Fin 10, (digitChar false digit).toNat = 48 + digit := by decide
  exact hall digit

/-- A text goes on with a byte that is not one of these. -/
def Stops (stop : UInt8 → Prop) (p : List UInt8) : Prop :=
  ∀ c ∈ p.head?, ¬ stop c

def IsFlag (c : UInt8) : Prop := c = 45 ∨ c = 43 ∨ c = 32 ∨ c = 35 ∨ c = 48

instance : DecidablePred IsFlag := fun _ => inferInstanceAs (Decidable (_ ∨ _ ∨ _ ∨ _ ∨ _))

theorem stops_length (len : Length) (conv : Conv) (rest : List UInt8) :
    Stops (fun c => IsFlag c ∨ isDigit c = true ∨ c = 46 ∨ c = 37)
      (len.bytes ++ conv.byte :: rest) := by
  intro c hc
  cases len <;> cases conv <;> cases hc <;> decide

theorem stops_precision (d : Directive) (rest : List UInt8) :
    Stops (fun c => IsFlag c ∨ isDigit c = true ∨ c = 37)
      (d.precisionBytes ++ (d.length.bytes ++ d.conv.byte :: rest)) := by
  intro c hc
  rw [Directive.precisionBytes] at hc
  cases hp : d.precision with
  | none =>
    rw [hp] at hc
    intro h
    apply stops_length d.length d.conv rest c hc
    rcases h with h | h | h
    · exact .inl h
    · exact .inr (.inl h)
    · exact .inr (.inr (.inr h))
  | some digits =>
    rw [hp] at hc
    cases hc
    decide

theorem stops_width (d : Directive) (rest : List UInt8) :
    Stops (fun c => IsFlag c ∨ c = 37)
      (decimal d.width ++ (d.precisionBytes ++ (d.length.bytes ++ d.conv.byte :: rest))) := by
  intro c hc
  cases hw : d.width with
  | nil =>
    rw [hw] at hc
    intro h
    apply stops_precision d rest c hc
    rcases h with h | h
    · exact .inl h
    · exact .inr (.inr h)
  | cons digit digits =>
    have hne : digit ≠ 0 := by
      intro h
      apply d.width_head
      rw [hw, h]
      rfl
    have hall : ∀ digit : Fin 10, digit ≠ 0 →
        ¬ (IsFlag (digitChar false digit) ∨ digitChar false digit = 37) := by decide
    rw [hw] at hc
    cases hc
    exact hall digit hne

theorem flags_of_stops (h : Stops IsFlag p) (st : FmtState) : flags p st = (st, p) := by
  cases p with
  | nil => rfl
  | cons c p =>
    have hc := h c rfl
    simp only [IsFlag, not_or] at hc
    simp [flags, hc]

/-- The state with some flags more. -/
def FmtState.addFlags (st : FmtState) (fs : List Flag) : FmtState :=
  { st with
    left := st.left || .minus ∈ fs
    plus := st.plus || .plus ∈ fs
    space := st.space || .space ∈ fs
    alt := st.alt || .hash ∈ fs
    zero := st.zero || .zero ∈ fs }

theorem flags_bytes (fs : List Flag) (hp : Stops IsFlag p) (st : FmtState) :
    flags (fs.map Flag.byte ++ p) st = (st.addFlags fs, p) := by
  induction fs generalizing st with
  | nil =>
    rw [map_nil, nil_append, flags_of_stops hp]
    simp [FmtState.addFlags]
  | cons f fs ih =>
    rw [map_cons, cons_append, flags]
    cases f <;> simp [Flag.byte, ih, FmtState.addFlags]

theorem number_decimal (digits : List (Fin 10)) (hp : Stops (isDigit · = true) p) (n : ℕ) :
    number (decimal digits ++ p) (int32 n) = (int32 (spell 10 n (digits.map Fin.val) : ℕ), p) := by
  induction digits generalizing n with
  | nil =>
    cases p with
    | nil => rfl
    | cons c p =>
      have hc := hp c rfl
      change number (c :: p) (int32 n) = _
      rw [number, if_neg hc]
      rfl
  | cons digit digits ih =>
    have hstep : int32 (int32 n * 10 + ((digitChar false digit).toNat - 48)) =
        int32 (n * 10 + digit : ℕ) := by
      rw [toNat_digitChar, int32_mul_add]
      congr 1
      omega
    change number (digitChar false digit :: (decimal digits ++ p)) (int32 n) = _
    rw [number, if_pos (isDigit_digitChar digit), hstep, ih]
    rfl

theorem number_decimal_zero (digits : List (Fin 10)) (hp : Stops (isDigit · = true) p) :
    number (decimal digits ++ p) 0 = (int32 (numeral digits), p) := by
  have h := number_decimal digits hp 0
  exact h

/-- What is read of a directive. -/
def Directive.state (d : Directive) : FmtState where
  left := .minus ∈ d.flags
  plus := .plus ∈ d.flags
  space := .space ∈ d.flags
  alt := .hash ∈ d.flags
  zero := .zero ∈ d.flags
  width := int32 (numeral d.width)
  precision := int32 ((d.precision.map numeral).getD 0 : ℕ)
  precisionSet := d.precision.isSome
  upper := false

theorem precision_bytes (d : Directive) (st : FmtState) (rest : List UInt8) :
    precision (d.precisionBytes ++ (d.length.bytes ++ d.conv.byte :: rest))
        { st with precision := 0, precisionSet := false } =
      ({ st with
          precision := int32 ((d.precision.map numeral).getD 0 : ℕ)
          precisionSet := d.precision.isSome }, d.length.bytes ++ d.conv.byte :: rest) := by
  have hstops := stops_length d.length d.conv rest
  rw [Directive.precisionBytes]
  cases hp : d.precision with
  | none =>
    cases htail : d.length.bytes ++ d.conv.byte :: rest with
    | nil => rfl
    | cons c p =>
      rw [htail] at hstops
      have hc := hstops c rfl
      simp only [not_or] at hc
      rw [nil_append, precision, if_neg hc.2.2.1]
      rfl
  | some digits =>
    have hdigits : Stops (isDigit · = true) (d.length.bytes ++ d.conv.byte :: rest) := by
      intro c hc h
      exact hstops c hc (.inr (.inl h))
    rw [cons_append, precision, if_pos rfl, number_decimal_zero digits hdigits]
    simp only [map_some, getD_some, isSome_some]

theorem length_bytes (len : Length) (conv : Conv) (rest : List UInt8) :
    length (len.bytes ++ conv.byte :: rest) = (len, conv.byte :: rest) := by
  cases len <;> cases conv <;> rfl

theorem Directive.bytes_append (d : Directive) (rest : List UInt8) :
    d.bytes ++ rest = d.flags.map Flag.byte ++
      (decimal d.width ++ (d.precisionBytes ++ (d.length.bytes ++ d.conv.byte :: rest))) := by
  simp [Directive.bytes]

theorem directive_bytes (d : Directive) (rest : List UInt8) :
    directive (d.bytes ++ rest) = (d.state, d.length, d.conv.byte :: rest) := by
  have hflags : Stops IsFlag
      (decimal d.width ++ (d.precisionBytes ++ (d.length.bytes ++ d.conv.byte :: rest))) := by
    intro c hc h
    exact stops_width d rest c hc (.inl h)
  have hdigits : Stops (isDigit · = true)
      (d.precisionBytes ++ (d.length.bytes ++ d.conv.byte :: rest)) := by
    intro c hc h
    exact stops_precision d rest c hc (.inr (.inl h))
  have hwidth : width (decimal d.width ++
      (d.precisionBytes ++ (d.length.bytes ++ d.conv.byte :: rest)))
      (FmtState.init.addFlags d.flags) =
      ({ FmtState.init.addFlags d.flags with width := int32 (numeral d.width) },
        d.precisionBytes ++ (d.length.bytes ++ d.conv.byte :: rest)) := by
    have hzero : (FmtState.init.addFlags d.flags).width = 0 := rfl
    rw [width, hzero, number_decimal_zero d.width hdigits]
  rw [directive, Directive.bytes_append, flags_bytes d.flags hflags]
  simp only [hwidth]
  have hprecision := precision_bytes d
    { FmtState.init.addFlags d.flags with width := int32 (numeral d.width) } rest
  simp only [FmtState.addFlags, FmtState.init, Bool.false_or] at hprecision ⊢
  rw [hprecision, length_bytes]
  rfl

section

variable {δ : Type} {luaFmtFloat : δ → UInt8 → FmtState → List UInt8} {args : List (Arg δ)}

/-- What the formatter makes of a directive. -/
def Directive.written (d : Directive) (w : UInt64) : Option (List UInt8) :=
  let st := { d.state with upper := d.conv = .X }
  if d.conv.signed then luaFmtSigned (signedArg d.length w) st
  else luaFmtUnsigned (unsignedArg d.length w) d.conv.base st

theorem writes_iff {fmt text : List UInt8} :
    Writes luaFmtFloat fmt args text ↔ formatLoop luaFmtFloat fmt args = some text := by
  rw [Writes, luaSprintf]
  simp only [Bool.true_eq_false, if_false, map_eq_some_iff]
  constructor
  · intro h
    obtain ⟨text', htext, heq⟩ := h
    cases heq
    exact htext
  · intro h
    exact ⟨text, h, rfl⟩

theorem conversion_conv (d : Directive) (w : UInt64) (args : List (Arg δ)) :
    conversion luaFmtFloat d.conv.byte d.length
        { d.state with upper := 65 ≤ d.conv.byte && d.conv.byte ≤ 90 } (.word w :: args) =
      (d.written w).map (·, args) := by
  rw [Directive.written]
  cases hc : d.conv <;> rfl

theorem formatLoop_directive (d : Directive) (w : UInt64) (rest : List UInt8)
    (args : List (Arg δ)) :
    formatLoop luaFmtFloat (37 :: d.bytes ++ rest) (.word w :: args) =
      (d.written w).bind fun text => (formatLoop luaFmtFloat rest args).map (text ++ ·) := by
  have hhead : (d.bytes ++ rest).headD 0 ≠ 37 := by
    rw [Directive.bytes_append]
    cases hf : d.flags with
    | nil =>
      have hstops := stops_width d rest
      intro h
      rw [map_nil, nil_append] at h
      cases htail : decimal d.width ++
          (d.precisionBytes ++ (d.length.bytes ++ d.conv.byte :: rest)) with
      | nil =>
        rw [htail] at h
        exact absurd h (by decide)
      | cons c p =>
        rw [htail] at h hstops
        exact hstops c rfl (.inr h)
    | cons f fs =>
      cases f <;> simp [Flag.byte]
  have hzero : d.conv.byte ≠ 0 := by
    cases d.conv <;> decide
  rw [cons_append, formatLoop, if_neg (by decide), if_neg (by decide), if_neg hhead]
  split
  · next h =>
      rw [directive_bytes] at h
      cases h
  · next spec rest' h =>
      rw [directive_bytes] at h
      cases h
      rw [if_neg hzero, directive_bytes]
      simp only
      rw [conversion_conv]
      cases d.written w with
      | none => rfl
      | some text => rfl

theorem follows_iff : d.Follows luaFmtFloat w ↔ d.written w = some (d.text w) := by
  constructor
  · intro h
    have hempty : Writes luaFmtFloat [] [] [] := by
      rw [writes_iff, formatLoop]
    have hone := h [] [] [] hempty
    rw [writes_iff, formatLoop_directive, formatLoop] at hone
    simpa [bind_eq_some_iff] using hone
  · intro h rest args text htext
    rw [writes_iff] at htext ⊢
    rw [formatLoop_directive, h, htext]
    rfl

end

end Cleonos.Lua.Format
