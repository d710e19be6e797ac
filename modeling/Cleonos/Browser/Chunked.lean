import Cleonos.Lib.Text

/-!
# Chunked bodies

The two readers of `browser_http.c`: `ush_browser_is_chunked_body_complete`, which the receive
loop asks after each read, and `ush_browser_decode_chunked_body`.
-/

namespace Cleonos.Browser

/-- The offset of the first line end. -/
def crlfIndex : List UInt8 → Option ℕ
  | [] => none
  | c :: rest =>
    if c = 13 ∧ rest.headD 0 = 10 then some 0 else (crlfIndex rest).map (· + 1)

/-- The value of a hexadecimal digit. -/
def hexValue (ch : UInt8) : Option ℕ :=
  if 48 ≤ ch ∧ ch ≤ 57 then some (ch.toNat - 48)
  else if 97 ≤ ch ∧ ch ≤ 102 then some (ch.toNat - 97 + 10)
  else if 65 ≤ ch ∧ ch ≤ 70 then some (ch.toNat - 65 + 10)
  else none

theorem hexValue_lt {ch : UInt8} {v : ℕ} (h : hexValue ch = some v) : v < 16 := by
  simp only [hexValue] at h
  split at h
  · next hdigit =>
    have hhigh : ch.toNat ≤ 57 := hdigit.2
    cases h
    omega
  split at h
  · next hlower =>
    have hhigh : ch.toNat ≤ 102 := hlower.2
    cases h
    omega
  split at h
  · next hupper =>
    have hhigh : ch.toNat ≤ 70 := hupper.2
    cases h
    omega
  · cases h

/-- The largest size that another digit may follow. -/
def sizeMax : ℕ := (2 ^ 64 - 1) / 2 ^ 4

/-- The loop over the digits of a size: the size and whether there was a digit; `none` for the
return of -1. -/
def sizeLoop : List UInt8 → ℕ → Bool → Option (ℕ × Bool)
  | [], size, hasDigit => some (size, hasDigit)
  | ch :: line, size, hasDigit =>
    if ch = 59 then some (size, hasDigit)
    else if ch = 32 ∨ ch = 9 then
      if hasDigit then some (size, hasDigit) else sizeLoop line size hasDigit
    else
      match hexValue ch with
      | none => none
      | some v => if size > sizeMax then none else sizeLoop line (size * 2 ^ 4 + v) true

/-- The size of a chunk, as `ush_browser_is_chunked_body_complete` reads it. -/
def chunkSize (line : List UInt8) : Option ℕ :=
  match sizeLoop line 0 false with
  | some (size, true) => some size
  | _ => none

/-- The same loop in `ush_browser_decode_chunked_body`, which only stops at what is no digit. -/
def decodeSizeLoop : List UInt8 → ℕ → Bool → ℕ × Bool
  | [], size, hasDigit => (size, hasDigit)
  | ch :: line, size, hasDigit =>
    if ch = 59 then (size, hasDigit)
    else if ch = 32 ∨ ch = 9 then
      if hasDigit then (size, hasDigit) else decodeSizeLoop line size hasDigit
    else
      match hexValue ch with
      | none => (size, hasDigit)
      | some v =>
        if size > sizeMax then (size, hasDigit)
        else decodeSizeLoop line (size * 2 ^ 4 + v) true

/-- The size of a chunk, as `ush_browser_decode_chunked_body` reads it. -/
def decodeSize (line : List UInt8) : Option ℕ :=
  match decodeSizeLoop line 0 false with
  | (size, true) => some size
  | _ => none

/-- What `ush_browser_is_chunked_body_complete` returns: 1, 0 or -1. -/
inductive Verdict
  | complete
  | incomplete
  | invalid
  deriving DecidableEq, Repr

/-- The loop over the lines behind the last chunk; its budget is one more than the number of
bytes that are left. -/
def trailerLoop : ℕ → List UInt8 → Verdict
  | 0, _ => .incomplete
  | fuel + 1, rest =>
    match crlfIndex rest with
    | none => .incomplete
    | some 0 => .complete
    | some (i + 1) => trailerLoop fuel (rest.drop (i + 3))

/-- A byte at an offset from the start of the body; the memory around it holds `outside`. -/
def byteAt (body : List UInt8) (outside : ℕ → UInt8) (i : ℕ) : UInt8 := body.getD i (outside i)

/-- The loop of `ush_browser_is_chunked_body_complete` from an offset, for so many rounds at
most; `none` when it has not returned by then. -/
def completeFrom (body : List UInt8) (outside : ℕ → UInt8) : ℕ → ℕ → Option Verdict
  | 0, _ => none
  | fuel + 1, off =>
    if off ≥ body.length then some .incomplete
    else
      match crlfIndex (body.drop off) with
      | none => some .incomplete
      | some i =>
        match chunkSize ((body.drop off).take i) with
        | none => some .invalid
        | some size =>
          let off := off + i + 2
          if size = 0 then some (trailerLoop (body.length + 1) (body.drop off))
          else if (off + size + 2) % 2 ^ 64 > body.length then some .incomplete
          else if byteAt body outside ((off + size) % 2 ^ 64) ≠ 13 ∨
              byteAt body outside ((off + size + 1) % 2 ^ 64) ≠ 10 then some .invalid
          else completeFrom body outside fuel ((off + size + 2) % 2 ^ 64)

/-- `ush_browser_is_chunked_body_complete` returns this verdict. -/
def Reports (body : List UInt8) (outside : ℕ → UInt8) (v : Verdict) : Prop :=
  ∃ fuel, completeFrom body outside fuel 0 = some v

/-- The loop of `ush_browser_decode_chunked_body`, on what is left of the body and behind what
was decoded. -/
def decodeLoop (cap : ℕ) : ℕ → List UInt8 → List UInt8 → List UInt8
  | 0, _, out => out
  | fuel + 1, rest, out =>
    match crlfIndex rest with
    | none => out
    | some i =>
      match decodeSize (rest.take i) with
      | none => out
      | some size =>
        let rest := rest.drop (i + 2)
        if size = 0 ∨ rest = [] then out
        else
          let size := min size rest.length
          let size := if out.length + size + 1 > cap then cap - 1 - out.length else size
          if size = 0 then out
          else
            let out := out ++ rest.take size
            let rest := rest.drop size
            if rest.headD 0 = 13 ∧ rest.getD 1 0 = 10 then
              decodeLoop cap fuel (rest.drop 2) out
            else out

/-- `ush_browser_decode_chunked_body`; `none` for 0. -/
def decodeBody (cap : ℕ) (body : List UInt8) : Option (List UInt8) :=
  if cap = 0 then none
  else
    let out := decodeLoop cap (body.length + 1) body []
    if out = [] then none else some out

end Cleonos.Browser
