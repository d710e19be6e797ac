import Mathlib.Data.Nat.Digits.Lemmas
import Cleonos.Lib.Text
import Cleonos.Libc.Stdio

/-!
# Numbers in text

`isspace`, `strtoul` and the decimal numbers of `snprintf`, on a string without its terminating
zero.
-/

namespace Cleonos.Libc

open List

def isspace (c : UInt8) : Bool :=
  c == 32 || c == 9 || c == 13 || c == 10 || c == 11 || c == 12

def isxdigit (c : UInt8) : Bool :=
  (48 ≤ c && c ≤ 57) || (97 ≤ c && c ≤ 102) || (65 ≤ c && c ≤ 70)

/-- `clib_digit_value`; `none` for `-1`. -/
def clibDigitValue (c : UInt8) : Option ℕ :=
  if 48 ≤ c ∧ c ≤ 57 then some (c.toNat - 48)
  else if 97 ≤ c ∧ c ≤ 122 then some (10 + (c.toNat - 97))
  else if 65 ≤ c ∧ c ≤ 90 then some (10 + (c.toNat - 65))
  else none

def ulongMax : ℕ := 2 ^ 64 - 1

/-- The loop of `strtoul`: the value and the rest. -/
def strtoulLoop (base : ℕ) : List UInt8 → ℕ → Bool → ℕ × List UInt8
  | [], value, _ => (value, [])
  | c :: p, value, overflow =>
    match (clibDigitValue c).filter (· < base) with
    | none => (value, c :: p)
    | some digit =>
      if value > (ulongMax - digit) / base then strtoulLoop base p ulongMax true
      else if overflow = false then strtoulLoop base p (value * base + digit) false
      else strtoulLoop base p value overflow

/-- The sign in front of a number: whether it is negative, and the rest. -/
def sign : List UInt8 → Bool × List UInt8
  | c :: p => if c = 43 ∨ c = 45 then (decide (c = 45), p) else (false, c :: p)
  | [] => (false, [])

/-- The base of a number with base 0, and the digits. -/
def detectBase (p : List UInt8) : ℕ × List UInt8 :=
  if p.headD 0 = 48 then
    if (p.getD 1 0 = 120 ∨ p.getD 1 0 = 88) ∧ isxdigit (p.getD 2 0) then (16, p.drop 2) else (8, p)
  else (10, p)

/-- `strtoul` with base 0. -/
def strtoul (text : List UInt8) : Option (ℕ × List UInt8) :=
  let s := sign (text.dropWhile isspace)
  let b := detectBase s.2
  let r := strtoulLoop b.1 b.2 0 false
  if r.2.length = b.2.length then none
  else some (if s.1 then (2 ^ 64 - r.1) % 2 ^ 64 else r.1, r.2)

/-- The prefix of a number in a given base, and the digits. -/
def basePrefix (base : ℕ) (p : List UInt8) : ℕ × List UInt8 :=
  if base = 0 then detectBase p
  else if base = 16 ∧ p.headD 0 = 48 ∧ (p.getD 1 0 = 120 ∨ p.getD 1 0 = 88) then (16, p.drop 2)
  else (base, p)

/-- The loop of `strtol`: the value, whether it went over the limit, and the rest. -/
def strtolLoop (limit base : ℕ) : List UInt8 → ℕ → Bool → ℕ × Bool × List UInt8
  | [], value, overflow => (value, overflow, [])
  | c :: p, value, overflow =>
    match (clibDigitValue c).filter (· < base) with
    | none => (value, overflow, c :: p)
    | some digit =>
      if value > (limit - digit) / base then strtolLoop limit base p limit true
      else if overflow = false then strtolLoop limit base p (value * base + digit) false
      else strtolLoop limit base p value overflow

/-- `strtoull`: `strtoul` with any base. -/
def strtoull (text : List UInt8) (base : ℕ) : Option (ℕ × List UInt8) :=
  let s := sign (text.dropWhile isspace)
  let b := basePrefix base s.2
  if b.1 < 2 ∨ 36 < b.1 then none
  else
    let r := strtoulLoop b.1 b.2 0 false
    if r.2.length = b.2.length then none
    else some (if s.1 then (2 ^ 64 - r.1) % 2 ^ 64 else r.1, r.2)

def strtoll (text : List UInt8) (base : ℕ) : Option (ℤ × List UInt8) :=
  let s := sign (text.dropWhile isspace)
  let b := basePrefix base s.2
  if b.1 < 2 ∨ 36 < b.1 then none
  else
    let limit := if s.1 then 2 ^ 63 else 2 ^ 63 - 1
    let r := strtolLoop limit b.1 b.2 0 false
    if r.2.2.length = b.2.length then none
    else
      let value : ℤ :=
        if r.2.1 then (if s.1 then -2 ^ 63 else 2 ^ 63 - 1)
        else if s.1 then (if r.1 = 2 ^ 63 then -2 ^ 63 else -r.1)
        else r.1
      some (value, r.2.2)

/-- A number as `%llu` prints it. -/
def decimal (value : ℕ) : List UInt8 :=
  (Nat.toDigits 10 value).map fun c => UInt8.ofNat c.toNat

theorem digitChar_byte :
    ∀ digit < 10, UInt8.ofNat (Nat.digitChar digit).toNat = UInt8.ofNat (48 + digit) := by
  decide

theorem decimal_eq (value : ℕ) :
    decimal value = if value < 10 then [UInt8.ofNat (48 + value)]
      else decimal (value / 10) ++ [UInt8.ofNat (48 + value % 10)] := by
  rw [decimal]
  split
  case isTrue h =>
    rw [Nat.toDigits_of_lt_base h, map_singleton, digitChar_byte _ h]
  case isFalse h =>
    rw [Nat.toDigits_of_base_le (by omega) (by omega), map_append, map_singleton,
      digitChar_byte _ (Nat.mod_lt _ (by omega)), decimal]

theorem decimal_ne_nil (value : ℕ) : decimal value ≠ [] := by
  rw [decimal_eq]
  split <;> simp

theorem digit_of_mem_decimal {value : ℕ} {c : UInt8} (h : c ∈ decimal value) :
    48 ≤ c ∧ c ≤ 57 := by
  obtain ⟨d, hd, rfl⟩ := mem_map.1 h
  have hdigit := Nat.isDigit_of_mem_toDigits (by decide) (by decide) hd
  rw [Char.isDigit, Bool.and_eq_true, decide_eq_true_iff, decide_eq_true_iff, ge_iff_le,
    UInt32.le_iff_toNat_le, UInt32.le_iff_toNat_le] at hdigit
  have hlow : 48 ≤ d.toNat := hdigit.1
  have hhigh : d.toNat ≤ 57 := hdigit.2
  rw [UInt8.le_iff_toNat_le, UInt8.le_iff_toNat_le, UInt8.toNat_ofNat']
  change 48 ≤ _ ∧ _ ≤ 57
  omega

theorem length_decimal_le_iff {value k : ℕ} (hk : 0 < k) :
    (decimal value).length ≤ k ↔ value < 10 ^ k := by
  rw [decimal, length_map, Nat.length_toDigits_le_iff (by decide) hk]

theorem length_decimal_le {value : ℕ} (h : value < 2 ^ 64) : (decimal value).length ≤ 20 :=
  (length_decimal_le_iff (by decide)).2 (by omega)

end Cleonos.Libc

/-! ## Digits there and back -/

namespace Cleonos.Stdio

open List
open Libc

variable {base value limit : ℕ} {upper : Bool}

theorem baseLoop_eq (hbase : 2 ≤ base) {room : ℕ} (h : (Nat.digits base value).length ≤ room) :
    baseLoop base upper room value = (Nat.digits base value).map (digitChar upper) := by
  induction room generalizing value with
  | zero =>
    rw [eq_nil_of_length_eq_zero (Nat.le_zero.1 h)]
    rfl
  | succ room ih =>
    rw [baseLoop]
    by_cases hv : value = 0
    · rw [if_pos hv, hv, Nat.digits_zero]
      rfl
    · rw [if_neg hv]
      rw [Nat.digits_def' (by omega) (Nat.pos_of_ne_zero hv)] at h ⊢
      rw [map_cons, ih (by simpa using h)]

variable {outSize : ℕ}

theorem u64ToBase_eq (hbase : 2 ≤ base) (hbase' : base ≤ 16) (hv : value < 2 ^ 64)
    (hpos : value ≠ 0) (hsize : 65 ≤ outSize) : u64ToBase value base upper outSize =
      (Nat.digits base value).reverse.map (digitChar upper) := by
  have hroom : (Nat.digits base value).length ≤ 64 :=
    (Nat.digits_length_le_iff (by omega) value).2 <|
      hv.trans_le (Nat.pow_le_pow_left hbase 64)
  rw [u64ToBase, if_neg (by omega), if_neg hpos, baseLoop_eq hbase hroom]
  simp only [length_map, gt_iff_lt]
  rw [if_neg (by omega), map_reverse]

theorem u64ToBase_zero (hbase : 2 ≤ base) (hbase' : base ≤ 16)
    (hsize : 65 ≤ outSize) : u64ToBase 0 base upper outSize = [48] := by
  rw [u64ToBase, if_neg (by omega), if_pos rfl]

theorem length_baseLoop (room value : ℕ) : (baseLoop base upper room value).length ≤ room := by
  induction room generalizing value with
  | zero => exact Nat.le_refl 0
  | succ room ih =>
    rw [baseLoop]
    split
    · exact Nat.zero_le _
    · exact Nat.succ_le_succ (ih _)

theorem u64ToBase_ne_nil {outSize : ℕ} (hbase : 2 ≤ base) (hbase' : base ≤ 16)
    (hsize : 65 ≤ outSize) : u64ToBase value base upper outSize ≠ [] := by
  rw [u64ToBase, if_neg (by omega)]
  by_cases hv : value = 0
  · rw [if_pos hv]
    exact cons_ne_nil _ _
  · have hroom := @length_baseLoop base upper 64 value
    rw [if_neg hv]
    simp only [gt_iff_lt]
    rw [if_neg (by omega), baseLoop, if_neg hv]
    simp

theorem i64ToDec_ne_nil (value : ℤ) : i64ToDec value 96 ≠ [] := by
  rw [i64ToDec, if_neg (by omega)]
  split
  · rw [if_neg (by omega)]
    simp only
    rw [if_neg (u64ToBase_ne_nil (by omega) (by omega) (by omega))]
    exact cons_ne_nil _ _
  · exact u64ToBase_ne_nil (by omega) (by omega) (by omega)

theorem clibDigitValue_digitChar {digit : ℕ} (h : digit < 16) :
    clibDigitValue (digitChar upper digit) = some digit := by
  have hall : ∀ digit < 16, ∀ upper, clibDigitValue (digitChar upper digit) = some digit := by
    decide
  exact hall digit h upper

/-- The number that digits spell behind a number that was read before them. -/
def spell (base value : ℕ) (digits : List ℕ) : ℕ :=
  digits.foldl (fun value digit => value * base + digit) value

theorem le_spell (hbase : 0 < base) (digits : List ℕ) (value : ℕ) :
    value ≤ spell base value digits := by
  induction digits generalizing value with
  | nil => exact le_rfl
  | cons digit digits ih =>
    calc
      value ≤ value * base := Nat.le_mul_of_pos_right _ hbase
      _ ≤ value * base + digit := Nat.le_add_right _ _
      _ ≤ spell base value (digit :: digits) := ih _

theorem spell_digits (base value : ℕ) :
    spell base 0 (Nat.digits base value).reverse = value := by
  rw [spell, foldl_reverse]
  calc
    _ = Nat.ofDigits base (Nat.digits base value) := by
      rw [Nat.ofDigits_eq_foldr]
      refine foldr_ext _ _ _ fun digit _ acc => ?_
      rw [Nat.mul_comm, Nat.add_comm]
      rfl
    _ = value := Nat.ofDigits_digits base value

theorem strtolLoop_digits (hbase : 2 ≤ base) (hbase' : base ≤ 16) {digits : List ℕ}
    (hdigits : ∀ digit ∈ digits, digit < base) (h : spell base value digits ≤ limit) :
    strtolLoop limit base (digits.map (digitChar upper)) value false =
      (spell base value digits, false, []) := by
  induction digits generalizing value with
  | nil => rfl
  | cons digit digits ih =>
    have hlt : digit < base := hdigits digit (mem_cons_self)
    have hvalue : value * base + digit ≤ limit := (le_spell (by omega) digits _).trans h
    have hroom : ¬ value > (limit - digit) / base := by
      rw [Nat.not_lt, Nat.le_div_iff_mul_le (by omega)]
      omega
    rw [map_cons, strtolLoop, clibDigitValue_digitChar (by omega)]
    simp only [Option.filter_some, hlt, decide_true, if_true, if_neg hroom]
    exact ih (fun digit hd => hdigits digit (mem_cons_of_mem _ hd)) h

theorem strtoulLoop_eq (base : ℕ) (p : List UInt8) (value : ℕ) (overflow : Bool) :
    strtoulLoop base p value overflow =
      ((strtolLoop ulongMax base p value overflow).1,
        (strtolLoop ulongMax base p value overflow).2.2) := by
  induction p generalizing value overflow with
  | nil => rfl
  | cons c p ih =>
    rw [strtoulLoop, strtolLoop]
    cases (clibDigitValue c).filter (· < base) with
    | none => rfl
    | some digit =>
      simp only [ih]
      split
      · rfl
      · split <;> rfl

/-- The digits of a number, as they are written. -/
def spelling (base value : ℕ) : List ℕ :=
  if value = 0 then [0] else (Nat.digits base value).reverse

theorem u64ToBase_spelling (hbase : 2 ≤ base) (hbase' : base ≤ 16) (hv : value < 2 ^ 64) (hsize : 65 ≤ outSize) :
    u64ToBase value base upper outSize = (spelling base value).map (digitChar upper) := by
  by_cases hpos : value = 0
  · subst hpos
    rw [u64ToBase_zero hbase hbase' hsize]
    rfl
  · rw [u64ToBase_eq hbase hbase' hv hpos hsize, spelling, if_neg hpos]

theorem spell_spelling (base value : ℕ) : spell base 0 (spelling base value) = value := by
  by_cases hpos : value = 0
  · subst hpos
    simp [spelling, spell]
  · rw [spelling, if_neg hpos, spell_digits]

theorem spelling_lt (hbase : 1 < base) {digit : ℕ} (h : digit ∈ spelling base value) :
    digit < base := by
  by_cases hpos : value = 0
  · rw [spelling, if_pos hpos, mem_singleton] at h
    omega
  · rw [spelling, if_neg hpos, mem_reverse] at h
    exact Nat.digits_lt_base hbase h

theorem length_spelling_pos (base value : ℕ) : 0 < (spelling base value).length := by
  refine length_pos_of_ne_nil ?_
  rw [spelling]
  split
  · exact cons_ne_nil _ _
  · rw [Ne, reverse_eq_nil_iff]
    exact Nat.digits_ne_nil_iff_ne_zero.2 ‹_›

theorem digitChar_plain {digit : ℕ} (h : digit < 16) :
    isspace (digitChar upper digit) = false ∧
      ¬ (digitChar upper digit = 43 ∨ digitChar upper digit = 45) ∧
      ¬ (digitChar upper digit = 120 ∨ digitChar upper digit = 88) := by
  have hall : ∀ digit < 16, ∀ upper, isspace (digitChar upper digit) = false ∧
      ¬ (digitChar upper digit = 43 ∨ digitChar upper digit = 45) ∧
      ¬ (digitChar upper digit = 120 ∨ digitChar upper digit = 88) := by
    decide
  exact hall digit h upper

/-- Neither `strtol` nor `strtoul` finds anything but digits in a number that was written. -/
theorem plain_spelling (hbase : base = 10 ∨ base = 16) (value : ℕ) (upper : Bool) :
    let text := (spelling base value).map (digitChar upper)
    text.dropWhile isspace = text ∧ sign text = (false, text) ∧
      basePrefix base text = (base, text) := by
  have hlt : ∀ digit ∈ spelling base value, digit < 16 := fun digit h =>
    (spelling_lt (by omega) h).trans_le (by omega)
  obtain ⟨first, rest, hsp⟩ : ∃ first rest, spelling base value = first :: rest :=
    exists_cons_of_length_pos (length_spelling_pos base value)
  rw [hsp] at hlt ⊢
  obtain ⟨hblank, hsign, -⟩ := @digitChar_plain upper first (hlt first mem_cons_self)
  have hletter : ¬ ((rest.map (digitChar upper)).headD 0 = 120 ∨
      (rest.map (digitChar upper)).headD 0 = 88) := by
    cases rest with
    | nil => simp
    | cons second rest => exact (digitChar_plain (hlt second (by simp))).2.2
  refine ⟨?_, ?_, ?_⟩
  · rw [map_cons, dropWhile_cons, hblank]
    rfl
  · rw [map_cons, sign, if_neg hsign]
  · rw [basePrefix, if_neg (by omega), map_cons, if_neg]
    rintro ⟨-, -, h⟩
    cases rest with
    | nil => exact hletter h
    | cons second rest => exact hletter h

theorem strtoull_u64ToBase (hbase : base = 10 ∨ base = 16) (hv : value < 2 ^ 64) :
    strtoull (u64ToBase value base upper 96) base = some (value, []) := by
  obtain ⟨hblank, hsign, hprefix⟩ := plain_spelling hbase value upper
  have hloop := @strtolLoop_digits base 0 ulongMax upper (by omega) (by omega)
    (spelling base value) (fun _ => spelling_lt (by omega)) (by
      rw [spell_spelling]
      exact Nat.le_sub_one_of_lt hv)
  rw [u64ToBase_spelling (by omega) (by omega) hv (by omega), strtoull]
  simp only [hblank, hsign, hprefix, strtoulLoop_eq, hloop, spell_spelling]
  have hpos := length_spelling_pos base value
  rw [if_neg (by omega), if_neg (by simp; omega)]
  rfl

theorem strtoll_i64ToDec {value : ℤ} (h : -2 ^ 63 ≤ value) (h' : value < 2 ^ 63) :
    strtoll (i64ToDec value 96) 10 = some (value, []) := by
  have hread : ∀ magnitude limit : ℕ, magnitude ≤ limit →
      strtolLoop limit 10 ((spelling 10 magnitude).map (digitChar false)) 0 false =
        (magnitude, false, []) := by
    intro magnitude limit hle
    rw [strtolLoop_digits (by omega) (by omega) (fun _ => spelling_lt (by omega)) (by
      rwa [spell_spelling]), spell_spelling]
  rw [i64ToDec, if_neg (by omega)]
  by_cases hneg : value < 0
  · obtain ⟨n, hn⟩ : ∃ n : ℕ, value = -((n : ℤ) + 1) := ⟨(-(value + 1)).toNat, by omega⟩
    have hmag : (-(value + 1)).toNat + 1 = n + 1 := by omega
    have hpos := length_spelling_pos 10 (n + 1)
    obtain ⟨-, -, hprefix⟩ := plain_spelling (.inl rfl) (n + 1) false
    have hsign : sign (List.dropWhile isspace
        (45 :: (spelling 10 (n + 1)).map (digitChar false))) =
          (true, (spelling 10 (n + 1)).map (digitChar false)) := rfl
    rw [if_pos hneg, if_neg (by omega), hmag,
      u64ToBase_spelling (by omega) (by omega) (by omega) (by omega)]
    simp only
    rw [if_neg (by simpa using ne_nil_of_length_pos hpos), strtoll]
    simp only [hsign, hprefix, if_true, hread (n + 1) (2 ^ 63) (by omega)]
    rw [if_neg (by omega), if_neg (by simp; omega), if_neg Bool.false_ne_true]
    -- `LONG_MIN` has a branch of its own
    split <;> simp only [Option.some.injEq, Prod.mk.injEq, and_true] <;> omega
  · obtain ⟨n, rfl⟩ := Int.eq_ofNat_of_zero_le (Int.not_lt.1 hneg)
    have hpos := length_spelling_pos 10 n
    obtain ⟨hblank, hsign, hprefix⟩ := plain_spelling (.inl rfl) n false
    rw [if_neg hneg, Int.toNat_natCast,
      u64ToBase_spelling (by omega) (by omega) (by omega) (by omega), strtoll]
    simp only [hblank, hsign, hprefix, Bool.false_eq_true, if_false,
      hread n (2 ^ 63 - 1) (by omega)]
    rw [if_neg (by omega), if_neg (by simp; omega)]

end Cleonos.Stdio
