import Cleonos.Lib.Layout
import Cleonos.Libc.Stdio

/-!
# The formatter of Lua

`lua_cleonos_compat.c`, `cleonos_lua_sprintf`: numbers are put together in a buffer `tmp` on the
stack, and copied from there.
-/

namespace Cleonos.Lua.Format

open Lib (appendUpTo)
open Stdio (baseLoop isDigit nullText)

/-! ## Numbers -/

/-- An `int`. -/
def int32 (x : ℤ) : ℤ := x.bmod (2 ^ 32)

def luaFmtU64 (value base : ℕ) (upper : Bool) : List UInt8 :=
  if base < 2 ∨ 16 < base then []
  else if value = 0 then [48]
  else (baseLoop base upper 64 value).reverse

/-- `lua_fmt_state`. -/
structure FmtState where
  left : Bool
  plus : Bool
  space : Bool
  alt : Bool
  zero : Bool
  width : ℤ
  precision : ℤ
  precisionSet : Bool
  upper : Bool
  deriving DecidableEq, Repr

def FmtState.init : FmtState := ⟨false, false, false, false, false, 0, 0, false, false⟩

def luaFmtApplyWidth (text : List UInt8) (st : FmtState) : List UInt8 :=
  let len := int32 text.length
  let pad := if st.width > len then int32 (st.width - len) else 0
  let blanks := List.replicate pad.toNat 32
  if st.left then text ++ blanks else blanks ++ text

/-- The digits that are left of a number: none for a zero with precision zero. -/
def shownDigits (st : FmtState) (mag base : ℕ) (upper : Bool) : List UInt8 :=
  if st.precisionSet ∧ st.precision = 0 ∧ mag = 0 then [] else luaFmtU64 mag base upper

/-- `zeros`: what the precision adds. -/
def leadingZeros (st : FmtState) (digits : List UInt8) : ℤ :=
  if st.precisionSet ∧ st.precision > digits.length then int32 (st.precision - digits.length)
  else 0

/-- `pad`: what the width adds. -/
def padding (st : FmtState) (zeros : ℤ) (lead digits : List UInt8) : ℤ :=
  let totalLen := int32 (digits.length + zeros + lead.length)
  if st.width > totalLen then int32 (st.width - totalLen) else 0

/-- What `lua_fmt_signed` and `lua_fmt_unsigned` do with `tmp`, which has `size` bytes: padding and
zeros stop one byte before its end, the digits do not.  The lead stops there, too, if it is guarded.
There is no text if the terminator is written past the end. -/
def assemble (size : ℕ) (guarded : Bool) (st : FmtState) (pad zeros : ℤ)
    (lead digits : List UInt8) : Option (List UInt8) :=
  let early := !st.left && st.zero && !st.precisionSet
  let tmp :=
    if early then appendUpTo (size - 1) 48 pad.toNat lead
    else if st.left = false then appendUpTo (size - 1) 32 pad.toNat []
    else []
  let lead := if early then [] else lead
  let tmp := if guarded ∧ size - 1 ≤ tmp.length then tmp else tmp ++ lead
  let tmp := appendUpTo (size - 1) 48 zeros.toNat tmp ++ digits
  let tmp := if st.left then appendUpTo (size - 1) 32 pad.toNat tmp else tmp
  if tmp.length < size then some tmp else none

/-- `sign`, none for zero. -/
def signOf (value : ℤ) (st : FmtState) : List UInt8 :=
  if value < 0 then [45]
  else if st.plus then [43]
  else if st.space then [32]
  else []

def luaFmtSigned (value : ℤ) (st : FmtState) : Option (List UInt8) :=
  let mag := if value < 0 then (-(value + 1)).toNat + 1 else value.toNat
  let sign := signOf value st
  let digits := shownDigits st mag 10 false
  let zeros := leadingZeros st digits
  assemble 128 true st (padding st zeros sign digits) zeros sign digits

/-- `prefix`. -/
def altPrefix (value base : ℕ) (st : FmtState) : List UInt8 :=
  if st.alt ∧ value ≠ 0 then
    if base = 16 then (if st.upper then [48, 88] else [48, 120])
    else if base = 8 then [48]
    else []
  else []

def luaFmtUnsigned (value base : ℕ) (st : FmtState) : Option (List UInt8) :=
  let digits := shownDigits st value base st.upper
  let pre := altPrefix value base st
  let zeros := leadingZeros st digits
  assemble 160 false st (padding st zeros pre digits) zeros pre digits

/-- `length`, from 0 to 4. -/
inductive Length
  | default
  | l
  | ll
  | z
  | L
  deriving DecidableEq, Repr

def flags : List UInt8 → FmtState → FmtState × List UInt8
  | [], st => (st, [])
  | c :: p, st =>
    if c = 45 then flags p { st with left := true }
    else if c = 43 then flags p { st with plus := true }
    else if c = 32 then flags p { st with space := true }
    else if c = 35 then flags p { st with alt := true }
    else if c = 48 then flags p { st with zero := true }
    else (st, c :: p)

/-- The digits of a width or a precision. -/
def number : List UInt8 → ℤ → ℤ × List UInt8
  | [], n => (n, [])
  | c :: p, n => if isDigit c then number p (int32 (n * 10 + (c.toNat - 48))) else (n, c :: p)

def width (p : List UInt8) (st : FmtState) : FmtState × List UInt8 :=
  let n := number p st.width
  ({ st with width := n.1 }, n.2)

def precision : List UInt8 → FmtState → FmtState × List UInt8
  | [], st => (st, [])
  | c :: p, st =>
    if c = 46 then
      let n := number p 0
      ({ st with precisionSet := true, precision := n.1 }, n.2)
    else (st, c :: p)

def length : List UInt8 → Length × List UInt8
  | [] => (.default, [])
  | c :: p =>
    if c = 108 then
      if p.headD 0 = 108 then (.ll, p.tail) else (.l, p)
    else if c = 122 then (.z, p)
    else if c = 76 then (.L, p)
    else (.default, c :: p)

/-- What stands between a `%` and its conversion, and what follows. -/
def directive (p : List UInt8) : FmtState × Length × List UInt8 :=
  let f := flags p FmtState.init
  let w := width f.2 f.1
  let r := precision w.2 w.1
  let m := length r.2
  (r.1, m.1, m.2)

section

variable {δ : Type}

/-- A variable argument: a word, a string or a null pointer, or a floating-point number. -/
inductive Arg (δ : Type)
  | word (w : UInt64)
  | text (t : Option (List UInt8))
  | real (x : δ)

/-- The argument of `%d`: an `int` without a length. -/
def signedArg (length : Length) (w : UInt64) : ℤ :=
  match length with
  | .ll | .z | .l => w.toInt64.toInt
  | .default | .L => w.toUInt32.toInt32.toInt

/-- The argument of `%u`: an `unsigned int` without a length. -/
def unsignedArg (length : Length) (w : UInt64) : ℕ :=
  match length with
  | .ll | .z | .l => w.toNat
  | .default | .L => w.toUInt32.toNat

/-- The base of `%u`, `%x`, `%X` and `%o`. -/
def baseOf (spec : UInt8) : ℕ :=
  if spec = 111 then 8 else if spec = 117 then 10 else 16

/-- `f`, `F`, `e`, `E`, `g`, `G`, `a` and `A`. -/
def isFloat (spec : UInt8) : Bool := spec ∈ [102, 70, 101, 69, 103, 71, 97, 65]

/-- The text of one conversion, and the arguments that are left.  There is none if an argument is
missing, or not of the kind that the conversion reads. -/
def conversion (luaFmtFloat : δ → UInt8 → FmtState → List UInt8) (spec : UInt8) (length : Length)
    (st : FmtState) (args : List (Arg δ)) : Option (List UInt8 × List (Arg δ)) :=
  if spec = 100 ∨ spec = 105 then
    match args with
    | .word w :: args => (luaFmtSigned (signedArg length w) st).map (·, args)
    | _ => none
  else if spec = 117 ∨ spec = 120 ∨ spec = 88 ∨ spec = 111 then
    match args with
    | .word w :: args => (luaFmtUnsigned (unsignedArg length w) (baseOf spec) st).map (·, args)
    | _ => none
  else if spec = 112 then
    match args with
    | .word w :: args => (luaFmtUnsigned w.toNat 16 { st with alt := true }).map (·, args)
    | _ => none
  else if spec = 115 then
    match args with
    | .text t :: args =>
      let text := t.getD nullText
      if st.precisionSet ∧ st.precision < int32 text.length then
        -- a precision that wrapped is a length far past the end of the string
        if st.precision < 0 then none
        else some (luaFmtApplyWidth (text.take st.precision.toNat) st, args)
      else some (luaFmtApplyWidth text st, args)
    | _ => none
  else if spec = 99 then
    match args with
    | .word w :: args => some (luaFmtApplyWidth [w.toUInt8] st, args)
    | _ => none
  else if isFloat spec then
    match args with
    | .real x :: args => some (luaFmtFloat x spec st, args)
    | _ => none
  else some ([37, spec], args)

theorem length_flags (p : List UInt8) (st : FmtState) : (flags p st).2.length ≤ p.length := by
  induction p generalizing st with
  | nil => simp [flags]
  | cons c p ih =>
    rw [flags]
    split_ifs <;> first | exact (ih _).trans (Nat.le_succ _) | exact le_rfl

theorem length_number (p : List UInt8) (n : ℤ) : (number p n).2.length ≤ p.length := by
  induction p generalizing n with
  | nil => simp [number]
  | cons c p ih =>
    rw [number]
    split
    · exact (ih _).trans (Nat.le_succ _)
    · exact le_rfl

theorem length_precision (p : List UInt8) (st : FmtState) :
    (precision p st).2.length ≤ p.length := by
  cases p with
  | nil => simp [precision]
  | cons c p =>
    rw [precision]
    split
    · exact (length_number p 0).trans (Nat.le_succ _)
    · exact le_rfl

theorem length_length (p : List UInt8) : (length p).2.length ≤ p.length := by
  cases p with
  | nil => simp [length]
  | cons c p =>
    rw [length]
    split_ifs <;> simp <;> omega

theorem length_directive (p : List UInt8) : (directive p).2.2.length ≤ p.length :=
  calc
    _ ≤ (precision (width (flags p .init).2 (flags p .init).1).2 _).2.length := length_length _
    _ ≤ (width (flags p .init).2 (flags p .init).1).2.length := length_precision _ _
    _ ≤ (flags p .init).2.length := length_number _ _
    _ ≤ p.length := length_flags _ _

/-- The loop of `cleonos_lua_sprintf`: the text that it writes. -/
def formatLoop (luaFmtFloat : δ → UInt8 → FmtState → List UInt8) (p : List UInt8)
    (args : List (Arg δ)) : Option (List UInt8) :=
  match p with
  | [] => some []
  | c :: p =>
    if c = 0 then some []
    else if c ≠ 37 then (formatLoop luaFmtFloat p args).map (c :: ·)
    else if p.headD 0 = 37 then (formatLoop luaFmtFloat p.tail args).map (37 :: ·)
    else
      match hd : (directive p).2.2 with
      | [] => some []
      | spec :: rest =>
        if spec = 0 then some []
        else
          let st := { (directive p).1 with upper := 65 ≤ spec && spec ≤ 90 }
          match conversion luaFmtFloat spec (directive p).2.1 st args with
          | none => none
          | some (text, args) => (formatLoop luaFmtFloat rest args).map (text ++ ·)
termination_by p.length
decreasing_by
  · simp
  · simp only [List.length_tail, List.length_cons]
    omega
  · have h := length_directive p
    rw [hd] at h
    simp only [List.length_cons] at h ⊢
    omega

/-- What `cleonos_lua_sprintf` returns, and the text at `out`. -/
inductive Printed
  | einval
  | text (text : List UInt8) (count : ℤ)
  deriving DecidableEq, Repr

/-- `cleonos_lua_sprintf`; `out` is a null pointer or not. -/
def luaSprintf (luaFmtFloat : δ → UInt8 → FmtState → List UInt8) (out : Bool)
    (fmt : Option (List UInt8)) (args : List (Arg δ)) : Option Printed :=
  match fmt with
  | none => some .einval
  | some fmt =>
    if out = false then some .einval
    else (formatLoop luaFmtFloat fmt args).map fun text => .text text (int32 text.length)

end

end Cleonos.Lua.Format
