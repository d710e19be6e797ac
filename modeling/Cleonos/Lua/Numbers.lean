import Cleonos.Lua.C99

/-!
# Numbers in the buffer

A number that fits into `tmp` is laid out in its field, with the zeros of the precision in front of
its digits.
-/

namespace Cleonos.Lua.Format

open List Option
open Lib (appendUpTo appendUpTo_of_le length_appendUpTo layout)
open Stdio (digitChar baseLoop_eq)

variable {d : Directive} {w : UInt64} {st : FmtState} {size : ℕ} {guarded : Bool} {pad zeros : ℤ}
  {lead digits : List UInt8}

/-! ## The buffer -/

theorem put_lead (tmp : List UInt8) (h : tmp.length + lead.length < size) :
    (if guarded = true ∧ size - 1 ≤ tmp.length then tmp else tmp ++ lead) = tmp ++ lead := by
  split
  · next hguard =>
      have hlen : lead.length = 0 := by omega
      rw [eq_nil_of_length_eq_zero hlen, append_nil]
  · rfl

theorem assemble_eq {width : ℕ}
    (hpad : pad.toNat = width - (lead.length + (zeros.toNat + digits.length)))
    (hsize : max width (lead.length + (zeros.toNat + digits.length)) < size) :
    assemble size guarded st pad zeros lead digits =
      some (layout 32 48 st.left (st.zero && !st.precisionSet) width lead
        (List.replicate zeros.toNat 48 ++ digits)) := by
  have hpadded (a : UInt8) : appendUpTo (size - 1) a pad.toNat [] = List.replicate pad.toNat a := by
    rw [appendUpTo_of_le, nil_append]
    simp only [length_nil]
    omega
  have hzeros (tmp : List UInt8) (h : tmp.length + zeros.toNat ≤ size - 1) :
      appendUpTo (size - 1) 48 zeros.toNat tmp = tmp ++ List.replicate zeros.toNat 48 :=
    appendUpTo_of_le h
  have hlen : (List.replicate zeros.toNat 48 ++ digits).length = zeros.toNat + digits.length := by
    simp
  rw [assemble, layout, hlen, ← hpad]
  cases hleft : st.left with
  | true =>
    simp only [Bool.not_true, Bool.false_and, if_true, if_false, Bool.false_eq_true,
      Bool.true_eq_false]
    rw [put_lead [] (by simp; omega), nil_append, hzeros lead (by omega),
      appendUpTo_of_le (by simp; omega), if_pos (by simp; omega)]
    simp only [append_assoc]
  | false =>
    cases hearly : st.zero && !st.precisionSet with
    | true =>
      simp only [Bool.not_false, Bool.true_and, hearly, if_true, if_false, Bool.false_eq_true]
      have hlead : appendUpTo (size - 1) 48 pad.toNat lead =
          lead ++ List.replicate pad.toNat 48 := appendUpTo_of_le (by omega)
      rw [hlead]
      simp only [append_nil, ite_self]
      rw [hzeros _ (by simp; omega), if_pos (by simp; omega)]
      simp only [append_assoc]
    | false =>
      simp only [Bool.not_false, Bool.true_and, hearly, if_true, if_false, Bool.false_eq_true]
      rw [hpadded, put_lead _ (by simp; omega), hzeros _ (by simp; omega),
        if_pos (by simp; omega)]
      simp only [append_assoc]

theorem length_lt_of_assemble {tmp : List UInt8}
    (h : assemble size guarded st pad zeros lead digits = some tmp) : tmp.length < size := by
  rw [assemble] at h
  simp only [ite_none_right_eq_some, Option.some.injEq] at h
  exact h.2 ▸ h.1

theorem assemble_none (hdigits : digits ≠ []) (hguarded : guarded = false)
    (hsize : size ≤ lead.length + (zeros.toNat + digits.length)) :
    assemble size guarded st pad zeros lead digits = none := by
  have hpos := length_pos_iff.2 hdigits
  subst hguarded
  rw [assemble]
  cases hleft : st.left with
  | true =>
    simp only [Bool.not_true, Bool.false_and, if_true, if_false, Bool.false_eq_true,
      Bool.true_eq_false, false_and]
    apply if_neg
    simp only [length_appendUpTo, length_append, length_nil]
    omega
  | false =>
    cases hearly : st.zero && !st.precisionSet with
    | true =>
      simp only [Bool.not_false, Bool.true_and, hearly, if_true, if_false,
        Bool.false_eq_true, false_and]
      apply if_neg
      simp only [length_appendUpTo, length_append, length_nil]
      omega
    | false =>
      simp only [Bool.not_false, Bool.true_and, hearly, if_true, if_false,
        Bool.false_eq_true, false_and]
      apply if_neg
      simp only [length_appendUpTo, length_append, length_nil]
      omega

theorem int32_eq {x : ℤ} (h0 : 0 ≤ x) (h : x < 2 ^ 31) : int32 x = x := by
  rw [int32, Int.bmod_eq_of_le] <;> omega

theorem luaFmtU64_eq {n base : ℕ} {upper : Bool} (hbase : 2 ≤ base) (hbase' : base ≤ 16)
    (hn : n < 2 ^ 64) (hpos : n ≠ 0) :
    luaFmtU64 n base upper = (Nat.digits base n).reverse.map (digitChar upper) := by
  have hroom : (Nat.digits base n).length ≤ 64 :=
    (Nat.digits_length_le_iff (by omega) n).2 <| hn.trans_le (Nat.pow_le_pow_left hbase 64)
  rw [luaFmtU64, if_neg (by omega), if_neg hpos, baseLoop_eq hbase hroom, map_reverse]

/-- What the state says of a precision. -/
structure HasPrecision (st : FmtState) (prec : Option ℕ) : Prop where
  set : st.precisionSet = prec.isSome
  eq : st.precision = (prec.getD 0 : ℕ)
  small : prec.getD 0 < 2 ^ 31

theorem leadingZeros_some {p : ℕ} (h : HasPrecision st (some p)) :
    (leadingZeros st digits).toNat = p - digits.length := by
  have hset : st.precisionSet = true := h.set
  have heq : st.precision = (p : ℤ) := h.eq
  have hsmall : p < 2 ^ 31 := h.small
  rw [leadingZeros, heq]
  by_cases hmore : (p : ℤ) > digits.length
  · rw [if_pos ⟨hset, hmore⟩, int32_eq (by omega) (by omega)]
    omega
  · rw [if_neg (by simp [hmore])]
    omega

theorem leadingZeros_none (h : HasPrecision st none) : leadingZeros st digits = 0 := by
  have hset : st.precisionSet = false := h.set
  rw [leadingZeros, if_neg (by simp [hset])]

theorem leadingZeros_nonneg {prec : Option ℕ} (h : HasPrecision st prec) :
    0 ≤ leadingZeros st digits := by
  cases prec with
  | none => rw [leadingZeros_none h]
  | some p =>
    have heq : st.precision = (p : ℤ) := h.eq
    have hsmall : p < 2 ^ 31 := h.small
    rw [leadingZeros, heq]
    split
    · rw [int32_eq (by omega) (by omega)]
      omega
    · exact Int.le_refl 0

theorem expanded_eq {n base : ℕ} {prec : Option ℕ} (upper : Bool) (h : HasPrecision st prec)
    (hbase : 2 ≤ base) (hbase' : base ≤ 16) (hn : n < 2 ^ 64) :
    List.replicate (leadingZeros st (shownDigits st n base upper)).toNat 48 ++
        shownDigits st n base upper =
      List.replicate (prec.getD 1 - (Nat.digits base n).length) 48 ++
        (Nat.digits base n).reverse.map (digitChar upper) := by
  have hzero : luaFmtU64 0 base upper = [48] := by
    rw [luaFmtU64, if_neg (by omega), if_pos rfl]
  cases prec with
  | none =>
    have hset : st.precisionSet = false := h.set
    rw [leadingZeros_none h, shownDigits, if_neg (by simp [hset])]
    by_cases hpos : n = 0
    · rw [hpos, hzero]
      simp
    · have hlen : (Nat.digits base n).length ≠ 0 := by
        simp [Nat.digits_ne_nil_iff_ne_zero.2 hpos]
      have hnone : 1 - (Nat.digits base n).length = 0 := by omega
      rw [luaFmtU64_eq hbase hbase' hn hpos, getD_none, hnone]
      rfl
  | some p =>
    have hset : st.precisionSet = true := h.set
    have heq : st.precision = (p : ℤ) := h.eq
    rw [leadingZeros_some h, shownDigits, heq]
    by_cases hpos : n = 0
    · subst hpos
      cases p with
      | zero =>
        rw [if_pos (by simp [hset])]
        simp
      | succ p =>
        rw [if_neg (by simp; omega), hzero, getD_some, Nat.digits_zero,
          length_nil, Nat.sub_zero, replicate_succ']
        simp
    · rw [if_neg (by simp [hpos]), luaFmtU64_eq hbase hbase' hn hpos]
      simp

theorem padding_eq {width : ℕ} (hwidth : st.width = (width : ℤ)) (hsmall : width < 2 ^ 31)
    (hzeros : 0 ≤ zeros) (htotal : lead.length + (zeros.toNat + digits.length) < 2 ^ 31) :
    (padding st zeros lead digits).toNat =
      width - (lead.length + (zeros.toNat + digits.length)) := by
  rw [padding, hwidth, int32_eq (by omega) (by omega)]
  split
  · rw [int32_eq (by omega) (by omega)]
    omega
  · omega

/-- The state that a number is written with. -/
def Directive.full (d : Directive) : FmtState := { d.state with upper := d.conv = .X }

/-- The sign or the prefix that is written. -/
def Directive.pre (d : Directive) (w : UInt64) : List UInt8 :=
  if d.conv.signed then signOf (d.value w) d.full
  else altPrefix (d.value w).natAbs d.conv.base d.full

/-- The digits that are written. -/
def Directive.shown (d : Directive) (w : UInt64) : List UInt8 :=
  shownDigits d.full (d.value w).natAbs d.conv.base (d.conv = .X)

theorem signedArg_bounds (len : Length) (w : UInt64) :
    -2 ^ 63 ≤ signedArg len w ∧ signedArg len w < 2 ^ 63 := by
  have h64 := w.toInt64.le_toInt
  have h64' := w.toInt64.toInt_lt
  have h32 := w.toUInt32.toInt32.le_toInt
  have h32' := w.toUInt32.toInt32.toInt_lt
  cases len <;> simp only [signedArg] <;> constructor <;> omega

theorem unsignedArg_lt (len : Length) (w : UInt64) : unsignedArg len w < 2 ^ 64 := by
  have h64 := w.toNat_lt
  have h32 := w.toUInt32.toNat_lt
  cases len <;> simp only [unsignedArg] <;> omega

theorem natAbs_value_lt (d : Directive) (w : UInt64) : (d.value w).natAbs < 2 ^ 64 := by
  have hs := signedArg_bounds d.length w
  have hu := unsignedArg_lt d.length w
  rw [Directive.value]
  split <;> omega

theorem base_bounds (c : Conv) : 2 ≤ c.base ∧ c.base ≤ 16 := by
  cases c <;> decide

theorem length_digits_le (d : Directive) (w : UInt64) :
    (Nat.digits d.conv.base (d.value w).natAbs).length ≤ 64 :=
  (Nat.digits_length_le_iff (base_bounds d.conv).1 _).2 <|
    (natAbs_value_lt d w).trans_le (Nat.pow_le_pow_left (base_bounds d.conv).1 64)

theorem written_eq (d : Directive) (w : UInt64) :
    d.written w =
      assemble (if d.conv.signed then 128 else 160) d.conv.signed d.full
        (padding d.full (leadingZeros d.full (d.shown w)) (d.pre w) (d.shown w))
        (leadingZeros d.full (d.shown w)) (d.pre w) (d.shown w) := by
  rw [Directive.written, Directive.shown, Directive.pre, Directive.value]
  cases hc : d.conv.signed with
  | true =>
    have hbase : d.conv.base = 10 ∧ decide (d.conv = .X) = false := by
      cases h : d.conv <;> rw [h] at hc <;> first | exact ⟨rfl, rfl⟩ | cases hc
    have hmag (value : ℤ) :
        (if value < 0 then (-(value + 1)).toNat + 1 else value.toNat) = value.natAbs := by
      split <;> omega
    simp only [if_true]
    rw [luaFmtSigned, hmag, hbase.1, hbase.2]
    rfl
  | false =>
    simp only [Bool.false_eq_true, if_false, Int.natAbs_natCast]
    rw [luaFmtUnsigned]
    rfl

theorem length_pre_le (d : Directive) (w : UInt64) : (d.pre w).length ≤ 2 := by
  rw [Directive.pre, signOf, altPrefix]
  split_ifs <;> simp

/-- The zeros of the precision and the digits. -/
def Directive.expanded (d : Directive) (w : UInt64) : List UInt8 :=
  List.replicate (d.minDigits - (d.digits w).length) 48 ++ d.digits w

theorem length_expanded (d : Directive) (w : UInt64) :
    (d.expanded w).length = max d.minDigits (d.digits w).length := by
  simp only [Directive.expanded, length_append, length_replicate]
  omega

theorem Directive.hasPrecision (hsmall : d.minDigits < 2 ^ 31) :
    HasPrecision d.full (d.precision.map numeral) := by
  cases hp : d.precision with
  | none => exact ⟨by rw [Directive.full, Directive.state, hp]; rfl,
      by rw [Directive.full, Directive.state, hp]; rfl, by decide⟩
  | some digits =>
    have hlt : numeral digits < 2 ^ 31 := by
      simpa [Directive.minDigits, hp] using hsmall
    refine ⟨?_, ?_, hlt⟩
    · simp [Directive.full, Directive.state, hp]
    · simp only [Directive.full, Directive.state, hp, map_some, getD_some]
      rw [int32_eq (by omega) (by omega)]

theorem expanded_shown (hsmall : d.minDigits < 2 ^ 31) :
    List.replicate (leadingZeros d.full (d.shown w)).toNat 48 ++ d.shown w = d.expanded w := by
  have hbase := base_bounds d.conv
  have h := expanded_eq (d.conv = .X) (d.hasPrecision hsmall) hbase.1 hbase.2
    (natAbs_value_lt d w)
  rw [Directive.shown, h, Directive.expanded, Directive.digits, Directive.minDigits]
  simp

theorem length_shown (hsmall : d.minDigits < 2 ^ 31) :
    (leadingZeros d.full (d.shown w)).toNat + (d.shown w).length =
      max d.minDigits (d.digits w).length := by
  rw [← length_expanded, ← expanded_shown hsmall]
  simp

/-- `tmp`. -/
def Directive.room (d : Directive) : ℕ := if d.conv.signed then 128 else 160

theorem written_laid (hwidth : numeral d.width < d.room)
    (hbody : (d.pre w).length + max d.minDigits (d.digits w).length < d.room) :
    d.written w = some (layout 32 48 (.minus ∈ d.flags) (.zero ∈ d.flags ∧ d.precision = none)
      (numeral d.width) (d.pre w) (d.expanded w)) := by
  have hroom : d.room ≤ 160 := by
    rw [Directive.room]
    split <;> omega
  have hsmall : d.minDigits < 2 ^ 31 := by omega
  have hlen := @length_shown d w hsmall
  have hstate : d.full.width = (numeral d.width : ℤ) := by
    have hint : int32 (numeral d.width : ℕ) = (numeral d.width : ℤ) :=
      int32_eq (by omega) (by omega)
    simp only [Directive.full, Directive.state]
    exact hint
  have hinside : (d.full.zero && !d.full.precisionSet) =
      decide (.zero ∈ d.flags ∧ d.precision = none) := by
    cases hp : d.precision <;> simp [Directive.full, Directive.state, hp]
  have hzeros := @leadingZeros_nonneg d.full (d.shown w) _ (d.hasPrecision hsmall)
  have hpad := @padding_eq d.full _ (d.pre w) (d.shown w) _ hstate (by omega) hzeros (by omega)
  rw [written_eq, assemble_eq hpad (by rw [hlen]; exact max_lt hwidth hbody), hinside,
    expanded_shown hsmall]
  rfl

end Cleonos.Lua.Format
