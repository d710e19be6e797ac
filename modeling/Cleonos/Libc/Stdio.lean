import Cleonos.Lib.Buffer
import Mathlib.Data.Int.Notation

/-!
# Formatted output

The formatter behind `snprintf` and `dprintf`: one loop over the format string, and a sink that is
a file descriptor or a buffer with a size.
-/

namespace Cleonos.Stdio

/-! ## Sinks -/

inductive Mode
  | fd
  | buf
  deriving DecidableEq, Repr

/-- An open file: `answers k` is what `cleonos_sys_fd_write` returns to the call number `k`,
and `sent` is what it has taken so far. -/
structure Device where
  fd : ℤ
  answers : ℕ → UInt64
  calls : ℕ
  sent : List UInt8

/-- `struct clio_sink`. The buffer is the memory from its first byte on, `none` for a null
pointer. -/
structure Sink where
  mode : Mode
  device : Device
  buffer : Option (ℕ → UInt8)
  capacity : ℕ
  count : ℕ
  failed : Bool

/-- The loop of `clio_write_all_fd`: whether everything was written. -/
def writeAll (device : Device) (text : List UInt8) : Device × Bool :=
  if h : text = [] then (device, true)
  else
    let wrote := device.answers device.calls
    let device := { device with calls := device.calls + 1 }
    if _hfail : wrote = 0 ∨ wrote = UInt64.ofNat (2 ^ 64 - 1) then (device, false)
    else
      let progressed := if wrote.toNat > text.length then text.length else wrote.toNat
      writeAll { device with sent := device.sent ++ text.take progressed } (text.drop progressed)
  termination_by text.length
  decreasing_by
    have hpos : 0 < text.length := List.length_pos_of_ne_nil h
    have hwrote : wrote.toNat ≠ 0 := fun h0 => _hfail (.inl (UInt64.toNat_inj.1 h0))
    simp only [wrote] at hwrote
    rw [List.length_drop]
    split <;> omega

/-- `clio_write_all_fd`; `false` for `EOF`. -/
def writeAllFd (device : Device) (text : List UInt8) : Device × Bool :=
  if device.fd < 0 then (device, false) else writeAll device text

/-- The loop of `clio_sink_emit` that fills the buffer; the index is a word. -/
def fill (buffer : ℕ → UInt8) (start : ℕ) : List UInt8 → ℕ → UInt8
  | [] => buffer
  | c :: text => fill (Function.update buffer (start % 2 ^ 64) c) (start + 1) text

/-- How many bytes of the buffer are left for text. -/
def writable (capacity start : ℕ) : ℕ :=
  if (start + 1) % 2 ^ 64 < capacity then (capacity - 1 + 2 ^ 64 - start) % 2 ^ 64 else 0

/-- `clio_sink_emit`; the error is the sink when the call returns 0. -/
def emit (sink : Sink) (text : List UInt8) : Except Sink Sink :=
  if text = [] then .ok sink
  else
    match sink.mode with
    | .fd =>
      let written := writeAllFd sink.device text
      if written.2 = false then .error { sink with device := written.1, failed := true }
      else .ok { sink with
        device := written.1, count := (sink.count + text.length) % 2 ^ 64 }
    | .buf =>
      .ok { sink with
        buffer := sink.buffer.map fun buffer =>
          if sink.capacity > 0 then
            fill buffer sink.count (text.take (writable sink.capacity sink.count))
          else buffer
        count := (sink.count + text.length) % 2 ^ 64 }

/-- `clio_emit_repeat`. -/
def emitRepeat (ch : UInt8) : ℕ → Sink → Except Sink Sink
  | 0, sink => .ok sink
  | count + 1, sink => do
      let sink ← emit sink [ch]
      emitRepeat ch count sink

/-- The bytes that fill a field up to its width, where they are due. -/
def emitPadding (due : Bool) (ch : UInt8) (width length : ℕ) (sink : Sink) : Except Sink Sink :=
  if due ∧ width > length then emitRepeat ch (width - length) sink else .ok sink

/-- `clio_emit_with_width`. -/
def emitWithWidth (text : List UInt8) (leftAlign : Bool) (padChar : UInt8) (width : ℕ)
    (sink : Sink) : Except Sink Sink := do
  let sink ← emitPadding (!leftAlign) padChar width text.length sink
  let sink ← emit sink text
  emitPadding leftAlign 32 width text.length sink

/-- `clio_sink_finalize_buffer`. -/
def finalizeBuffer (sink : Sink) : Sink :=
  if sink.mode ≠ .buf ∨ sink.capacity = 0 then sink
  else if sink.count < sink.capacity then
    { sink with buffer := sink.buffer.map fun buffer => Function.update buffer sink.count 0 }
  else
    { sink with
      buffer := sink.buffer.map fun buffer => Function.update buffer (sink.capacity - 1) 0 }

def digitChar (uppercase : Bool) (digit : ℕ) : UInt8 :=
  if digit < 10 then UInt8.ofNat (48 + digit)
  else UInt8.ofNat ((if uppercase then 65 else 97) + (digit - 10))

/-- The loop of `clio_u64_to_base`: `tmp`, which has room for so many digits more, the last
digit of the number first. -/
def baseLoop (base : ℕ) (uppercase : Bool) : ℕ → ℕ → List UInt8
  | 0, _ => []
  | room + 1, value =>
    if value = 0 then []
    else digitChar uppercase (value % base) :: baseLoop base uppercase room (value / base)

/-- `clio_u64_to_base`; no digits for 0. -/
def u64ToBase (value base : ℕ) (uppercase : Bool) (outSize : ℕ) : List UInt8 :=
  if outSize < 2 ∨ base < 2 ∨ 16 < base then []
  else if value = 0 then [48]
  else
    let tmp := baseLoop base uppercase 64 value
    if tmp.length + 1 > outSize then [] else tmp.reverse

/-- `clio_i64_to_dec`; no digits for 0. -/
def i64ToDec (value : ℤ) (outSize : ℕ) : List UInt8 :=
  if outSize < 2 then []
  else if value < 0 then
    if outSize < 3 then []
    else
      let digits := u64ToBase ((-(value + 1)).toNat + 1) 10 false (outSize - 1)
      if digits = [] then [] else 45 :: digits
  else u64ToBase value.toNat 10 false outSize

/-- `length_mode`. -/
inductive Length
  | default
  | l
  | ll
  | z
  deriving DecidableEq, Repr

/-- What stands between a `%` and its conversion. -/
structure Directive where
  leftAlign : Bool
  zeroPad : Bool
  width : ℕ
  precision : Option ℕ
  length : Length
  deriving DecidableEq, Repr

def flags : List UInt8 → Bool → Bool → Bool × Bool × List UInt8
  | [], leftAlign, zeroPad => (leftAlign, zeroPad, [])
  | c :: cursor, leftAlign, zeroPad =>
    if c = 45 then flags cursor true zeroPad
    else if c = 48 then flags cursor leftAlign true
    else (leftAlign, zeroPad, c :: cursor)

/-- `clio_is_digit`. -/
def isDigit (c : UInt8) : Bool := 48 ≤ c && c ≤ 57

/-- The digits of a width or a precision, in a word. -/
def number : List UInt8 → ℕ → ℕ × List UInt8
  | [], n => (n, [])
  | c :: cursor, n =>
    if isDigit c then number cursor ((n * 10 + (c.toNat - 48)) % 2 ^ 64) else (n, c :: cursor)

def precision : List UInt8 → Option ℕ × List UInt8
  | [] => (none, [])
  | c :: cursor =>
    if c = 46 then
      let n := number cursor 0
      (some n.1, n.2)
    else (none, c :: cursor)

def lengthMode : List UInt8 → Length × List UInt8
  | [] => (.default, [])
  | c :: cursor =>
    if c = 108 then
      if cursor.headD 0 = 108 then (.ll, cursor.tail) else (.l, cursor)
    else if c = 122 then (.z, cursor)
    else (.default, c :: cursor)

/-- What stands between a `%` and its conversion, and what follows. -/
def directive (cursor : List UInt8) : Directive × List UInt8 :=
  let f := flags cursor false false
  let w := number f.2.2 0
  let p := precision w.2
  let m := lengthMode p.2
  (⟨f.1, f.2.1, w.1, p.1, m.1⟩, m.2)

/-- The memory of the caller: the string at an address, up to its terminator, and an `int`
stored to one. -/
structure Memory (M : Type) where
  text : M → UInt64 → List UInt8
  storeInt : M → UInt64 → ℕ → M

/-- The argument of `%d`. -/
def signedArg (length : Length) (word : UInt64) : ℤ :=
  match length with
  | .default => word.toUInt32.toInt32.toInt
  | _ => word.toInt64.toInt

/-- The argument of `%u`. -/
def unsignedArg (length : Length) (word : UInt64) : ℕ :=
  match length with
  | .default => word.toUInt32.toNat
  | _ => word.toNat

/-- `(null)`. -/
def nullText : List UInt8 := [40, 110, 117, 108, 108, 41]

/-- The digits that are left of a number: none for a zero with precision zero. -/
def shownDigits (d : Directive) (value : ℤ) (digits : List UInt8) : List UInt8 :=
  if d.precision = some 0 ∧ value = 0 then [] else digits

/-- The zeros that the precision adds. -/
def leadingZeros (d : Directive) (digits : List UInt8) : ℕ := d.precision.getD 0 - digits.length

/-- `%s`. -/
def stringField (d : Directive) (text : List UInt8) (sink : Sink) : Except Sink Sink :=
  emitWithWidth (match d.precision with
    | some n => text.take n
    | none => text) d.leftAlign 32 d.width sink

/-- The padding in front of a `%d`, and whether the sign was written before it. -/
def signedPadding (d : Directive) (signChar : List UInt8) (coreLen : ℕ) (sink : Sink) :
    Except Sink (Sink × Bool) :=
  if d.leftAlign = false ∧ d.width > coreLen then
    if d.zeroPad ∧ d.precision = none then do
      let sink ← emit sink signChar
      let sink ← emitRepeat 48 (d.width - coreLen) sink
      return (sink, true)
    else do
      let sink ← emitRepeat 32 (d.width - coreLen) sink
      return (sink, false)
  else .ok (sink, false)

/-- `%d`. -/
def signedField (d : Directive) (value : ℤ) (sink : Sink) : Except Sink Sink :=
  let numberBuf := i64ToDec value 96
  if numberBuf = [] then .error sink
  else do
    let negative := numberBuf.headD 0 = 45
    let signChar := if negative then [45] else []
    let digits := shownDigits d value (if negative then numberBuf.tail else numberBuf)
    let zeros := leadingZeros d digits
    let coreLen := (digits.length + zeros + signChar.length) % 2 ^ 64
    let (sink, signEmitted) ← signedPadding d signChar coreLen sink
    let sink ← emit sink (if signEmitted then [] else signChar)
    let sink ← emitRepeat 48 zeros sink
    let sink ← emit sink digits
    emitPadding d.leftAlign 32 d.width coreLen sink

/-- `%u`, `%x` and `%X`. -/
def unsignedField (d : Directive) (value base : ℕ) (upper : Bool) (sink : Sink) :
    Except Sink Sink :=
  let numberBuf := u64ToBase value base upper 96
  if numberBuf = [] then .error sink
  else do
    let digits := shownDigits d value numberBuf
    let zeros := leadingZeros d digits
    let coreLen := (digits.length + zeros) % 2 ^ 64
    let padChar := if d.zeroPad ∧ d.precision = none ∧ d.leftAlign = false then 48 else 32
    let sink ← emitPadding (!d.leftAlign) padChar d.width coreLen sink
    let sink ← emitRepeat 48 zeros sink
    let sink ← emit sink digits
    emitPadding d.leftAlign 32 d.width coreLen sink

/-- `%p`. -/
def pointerField (d : Directive) (value : ℕ) (sink : Sink) : Except Sink Sink :=
  let numberBuf := u64ToBase value 16 false 96
  if numberBuf = [] then .error sink
  else do
    let digits := shownDigits d value numberBuf
    let zeros := leadingZeros d digits
    let coreLen := (2 + zeros + digits.length) % 2 ^ 64
    let sink ← emitPadding (!d.leftAlign) 32 d.width coreLen sink
    let sink ← emit sink [48, 120]
    let sink ← emitRepeat 48 zeros sink
    let sink ← emit sink digits
    emitPadding d.leftAlign 32 d.width coreLen sink

def intMax : ℕ := 2 ^ 31 - 1

section

variable {M : Type} (mem : Memory M)

/-- The text of a `%s`. -/
def stringArg (memory : M) (word : UInt64) : List UInt8 :=
  if word = 0 then nullText else mem.text memory word

/-- `%n`. -/
def storeCount (sink : Sink) (word : UInt64) (memory : M) : M :=
  if word = 0 then memory else mem.storeInt memory word (min sink.count intMax)

/-- One conversion: the sink, the arguments that are left, and the memory. -/
def conversion (d : Directive) (spec : UInt8) (args : List UInt64) (memory : M) (sink : Sink) :
    Except Sink (Sink × List UInt64 × M) :=
  let word := args.headD 0
  let field (f : Sink → Except Sink Sink) := (f sink).map fun sink => (sink, args.tail, memory)
  if spec = 115 then field (stringField d (stringArg mem memory word))
  else if spec = 99 then field (emitWithWidth [word.toUInt8] d.leftAlign 32 d.width)
  else if spec = 100 ∨ spec = 105 then field (signedField d (signedArg d.length word))
  else if spec = 117 ∨ spec = 120 ∨ spec = 88 then
    field (unsignedField d (unsignedArg d.length word) (if spec = 117 then 10 else 16) (spec = 88))
  else if spec = 112 then field (pointerField d word.toNat)
  else if spec = 110 then .ok (sink, args.tail, storeCount mem sink word memory)
  else do
    let sink ← emit sink [37]
    let sink ← emit sink [spec]
    return (sink, args, memory)

theorem length_flags (cursor : List UInt8) (l z : Bool) :
    (flags cursor l z).2.2.length ≤ cursor.length := by
  induction cursor generalizing l z with
  | nil => exact Nat.le_refl _
  | cons c cursor ih =>
    rw [flags]
    split
    · exact Nat.le_succ_of_le (ih _ _)
    · split
      · exact Nat.le_succ_of_le (ih _ _)
      · exact Nat.le_refl _

theorem length_number (cursor : List UInt8) (n : ℕ) :
    (number cursor n).2.length ≤ cursor.length := by
  induction cursor generalizing n with
  | nil => exact Nat.le_refl _
  | cons c cursor ih =>
    rw [number]
    split
    · exact Nat.le_succ_of_le (ih _)
    · exact Nat.le_refl _

theorem length_precision (cursor : List UInt8) : (precision cursor).2.length ≤ cursor.length := by
  cases cursor with
  | nil => exact Nat.le_refl _
  | cons c cursor =>
    rw [precision]
    split
    · exact Nat.le_succ_of_le (length_number _ _)
    · exact Nat.le_refl _

theorem length_lengthMode (cursor : List UInt8) :
    (lengthMode cursor).2.length ≤ cursor.length := by
  cases cursor with
  | nil => exact Nat.le_refl _
  | cons c cursor =>
    rw [lengthMode]
    split
    · split <;> simp
      omega
    · split <;> simp

theorem length_directive (cursor : List UInt8) : (directive cursor).2.length ≤ cursor.length :=
  calc
    _ ≤ (precision (number (flags cursor false false).2.2 0).2).2.length := length_lengthMode _
    _ ≤ (number (flags cursor false false).2.2 0).2.length := length_precision _
    _ ≤ (flags cursor false false).2.2.length := length_number _ _
    _ ≤ cursor.length := length_flags _ _ _

/-- The loop of `clio_vformat`. -/
def formatLoop (cursor : List UInt8) (args : List UInt64) (memory : M) (sink : Sink) :
    Except Sink (Sink × M) :=
  match cursor with
  | [] => .ok (sink, memory)
  | c :: cursor =>
    if c ≠ 37 then do
      let sink ← emit sink [c]
      formatLoop cursor args memory sink
    else if cursor.headD 0 = 37 then do
      let sink ← emit sink [37]
      formatLoop cursor.tail args memory sink
    else
      match _h : directive cursor with
      | (_, []) => .ok (sink, memory)
      | (d, spec :: rest) => do
          let (sink, args, memory) ← conversion mem d spec args memory sink
          formatLoop rest args memory sink
  termination_by cursor.length
  decreasing_by
    · simp
    · rw [List.length_tail, List.length_cons]
      omega
    · have hlen := length_directive cursor
      simp only [_h, List.length_cons] at hlen ⊢
      omega

/-- What a call returns, the sink it leaves, and the memory unless it failed. -/
structure Printed (M : Type) where
  rc : ℤ
  sink : Sink
  memory : Option M

/-- `clio_vformat`. -/
def vformat (fmt : List UInt8) (args : List UInt64) (memory : M) (sink : Sink) : Printed M :=
  match formatLoop mem fmt args memory sink with
  | .error sink => ⟨-1, sink, none⟩
  | .ok (sink, memory) =>
    let sink := if sink.mode = .buf then finalizeBuffer sink else sink
    if sink.failed then ⟨-1, sink, some memory⟩
    else ⟨(min sink.count intMax : ℕ), sink, some memory⟩

/-- `clio_sink_init_buffer`. -/
def initBuffer (out : Option (ℕ → UInt8)) (outSize : ℕ) : Sink where
  mode := .buf
  device := ⟨-1, fun _ => 0, 0, []⟩
  buffer := out.map fun out => if outSize > 0 then Function.update out 0 0 else out
  capacity := outSize
  count := 0
  failed := false

/-- `clio_sink_init_fd`. -/
def initFd (device : Device) : Sink where
  mode := .fd
  device := device
  buffer := none
  capacity := 0
  count := 0
  failed := false

def vsnprintf (out : Option (ℕ → UInt8)) (outSize : ℕ) (fmt : List UInt8) (args : List UInt64)
    (memory : M) : Printed M :=
  vformat mem fmt args memory (initBuffer out outSize)

def vdprintf (device : Device) (fmt : List UInt8) (args : List UInt64) (memory : M) : Printed M :=
  vformat mem fmt args memory (initFd device)

end

end Cleonos.Stdio
