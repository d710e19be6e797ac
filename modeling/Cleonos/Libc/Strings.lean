import Cleonos.Lib.Lexicographic
import Cleonos.Lib.Text

/-!
# The order of strings

`memcmp`, `strcmp` and `strncmp`.
-/

namespace Cleonos.Libc

open List
open Lexicographic
open Std (LawfulEqCmp TransCmp)

/-- `memcmp`, on two objects of at least `size` bytes. -/
def memcmp : List UInt8 → List UInt8 → ℕ → ℤ
  | a :: left, b :: right, size + 1 =>
    if a ≠ b then (if a < b then -1 else 1) else memcmp left right size
  | _, _, _ => 0

/-- The value of a `char`. -/
def charValue (c : UInt8) : ℤ := c.toInt8.toInt

/-- The end of `strcmp`, where one of the strings is over. -/
def strcmpEnd (left right : List UInt8) : ℤ :=
  if left.headD 0 = right.headD 0 then 0
  else if charValue (left.headD 0) < charValue (right.headD 0) then -1 else 1

def strcmp : List UInt8 → List UInt8 → ℤ
  | a :: left, b :: right =>
    if a ≠ b then (if charValue a < charValue b then -1 else 1) else strcmp left right
  | left, right => strcmpEnd left right

def strncmp : List UInt8 → List UInt8 → ℕ → ℤ
  | _, _, 0 => 0
  | a :: left, b :: right, size + 1 =>
    if a ≠ b then (if charValue a < charValue b then -1 else 1) else strncmp left right size
  | left, right, _ + 1 => strcmpEnd left right

theorem strncmp_nil (right : List UInt8) (size : ℕ) :
    strncmp [] right (size + 1) = strcmpEnd [] right := rfl

theorem strncmp_nil_right (left : List UInt8) (size : ℕ) :
    strncmp left [] (size + 1) = strcmpEnd left [] := by
  cases left <;> rfl

/-- A string, without its terminating zero. -/
structure CString where
  bytes : List UInt8
  nul : (0 : UInt8) ∉ bytes

/-- The bytes of a string in memory. -/
def CString.text (s : CString) : List UInt8 := s.bytes ++ [0]

/-- The bytes of two strings up to the end of the shorter one. -/
def span (l r : CString) : ℕ := min l.text.length r.text.length

/-! ## The verdict on a difference -/

/-- What the functions return about the two bytes at the first difference. -/
def verdict (value : UInt8 → ℤ) (difference : Option (UInt8 × UInt8)) : ℤ :=
  difference.elim 0 fun p => if value p.1 < value p.2 then -1 else 1

/-- The value of an `unsigned char`. -/
def byteValue (c : UInt8) : ℤ := c.toNat

theorem charValue_eq (c : UInt8) : charValue c = if c.toNat < 128 then (c.toNat : ℤ)
    else c.toNat - 256 := by
  have hc := c.toNat_lt
  change (BitVec.toInt c.toBitVec) = _
  rw [BitVec.toInt_eq_toNat_cond]
  change (if 2 * c.toNat < 2 ^ 8 then (c.toNat : ℤ) else c.toNat - ((2 ^ 8 : ℕ) : ℤ)) = _
  split <;> split <;> omega

theorem charValue_injective {a b : UInt8} (h : charValue a = charValue b) : a = b := by
  have ha := a.toNat_lt
  have hb := b.toNat_lt
  rw [charValue_eq, charValue_eq] at h
  refine UInt8.toNat_inj.1 ?_
  split at h <;> split at h <;> omega

theorem verdict_eq_zero_iff {value : UInt8 → ℤ} {difference : Option (UInt8 × UInt8)} :
    verdict value difference = 0 ↔ difference = none := by
  cases difference with
  | none => exact iff_of_true rfl rfl
  | some p =>
    rw [verdict, Option.elim_some]
    split <;> simp

theorem sign_verdict (value : UInt8 → ℤ) (difference : Option (UInt8 × UInt8)) :
    (verdict value difference).sign = verdict value difference := by
  cases difference with
  | none => rfl
  | some p =>
    rw [verdict, Option.elim_some]
    split <;> rfl

theorem memcmp_eq (a b : List UInt8) (n : ℕ) :
    memcmp a b n = verdict byteValue (firstDifference (a.take n) (b.take n)) := by
  induction n generalizing a b with
  | zero => cases a <;> cases b <;> rfl
  | succ n ih =>
    cases a with
    | nil => rfl
    | cons c a =>
      cases b with
      | nil => rfl
      | cons d b =>
        rw [memcmp, take_succ_cons, take_succ_cons]
        by_cases hcd : c = d
        · rw [if_neg (by simp [hcd]), hcd, firstDifference_cons_self, ih]
        · rw [if_pos hcd, firstDifference_cons_of_ne hcd]
          simp [verdict, byteValue, UInt8.lt_iff_toNat_lt]

theorem strcmpEnd_eq {l r : List UInt8} (hl : (0 : UInt8) ∉ l) (hr : (0 : UInt8) ∉ r)
    (hend : l = [] ∨ r = []) (n : ℕ) :
    strcmpEnd l r =
      verdict charValue (firstDifference ((l ++ [0]).take (n + 1)) ((r ++ [0]).take (n + 1))) := by
  cases l with
  | nil =>
    cases r with
    | nil => simp [strcmpEnd, firstDifference_cons_self, verdict]
    | cons b r =>
      have hb : (0 : UInt8) ≠ b := fun h => hr (by simp [h])
      simp [strcmpEnd, hb, firstDifference_cons_of_ne, verdict]
  | cons a l =>
    have ha : a ≠ (0 : UInt8) := fun h => hl (by simp [h])
    cases hend.resolve_left (cons_ne_nil a l)
    simp [strcmpEnd, ha, firstDifference_cons_of_ne, verdict]

theorem strncmp_eq {l r : List UInt8} (hl : (0 : UInt8) ∉ l) (hr : (0 : UInt8) ∉ r) (n : ℕ) :
    strncmp l r n =
      verdict charValue (firstDifference ((l ++ [0]).take n) ((r ++ [0]).take n)) := by
  induction n generalizing l r with
  | zero => rw [strncmp, take_zero, take_zero]; rfl
  | succ n ih =>
    cases l with
    | nil => rw [strncmp_nil, strcmpEnd_eq hl hr (.inl rfl)]
    | cons a l =>
      cases r with
      | nil => rw [strncmp_nil_right, strcmpEnd_eq hl hr (.inr rfl)]
      | cons b r =>
        rw [strncmp, cons_append, cons_append, take_succ_cons,
          take_succ_cons]
        by_cases hab : a = b
        · subst hab
          rw [if_neg (by simp), firstDifference_cons_self]
          exact ih (fun h => hl (by simp [h])) (fun h => hr (by simp [h]))
        · rw [if_pos hab, firstDifference_cons_of_ne hab]
          rfl

theorem strcmp_eq_strncmp {l r : List UInt8} (hl : (0 : UInt8) ∉ l) (hr : (0 : UInt8) ∉ r) :
    strcmp l r = strncmp l r (min l.length r.length + 1) := by
  induction l generalizing r with
  | nil => simp [strcmp, strncmp_nil]
  | cons a l ih =>
    cases r with
    | nil => simp [strcmp, strncmp_nil_right]
    | cons b r =>
      rw [strcmp, length_cons, length_cons, Nat.add_min_add_right, strncmp]
      by_cases hab : a = b
      · rw [if_neg (by simp [hab]), if_neg (by simp [hab])]
        exact ih (fun h => hl (by simp [h])) (fun h => hr (by simp [h]))
      · rw [if_pos hab, if_pos hab]

theorem CString.ext_bytes {l r : CString} (h : l.bytes = r.bytes) : l = r := by
  cases l
  cases r
  cases h
  rfl

theorem eq_of_firstDifference_zero {l r : List UInt8} (hl : (0 : UInt8) ∉ l)
    (hr : (0 : UInt8) ∉ r) (h : firstDifference (l ++ [0]) (r ++ [0]) = none) : l = r := by
  induction l generalizing r with
  | nil =>
    cases r with
    | nil => rfl
    | cons b r =>
      have hb : (0 : UInt8) ≠ b := fun hb => hr (by simp [hb])
      simp [firstDifference_cons_of_ne hb] at h
  | cons a l ih =>
    cases r with
    | nil =>
      have ha : a ≠ (0 : UInt8) := fun ha => hl (by simp [ha])
      simp [firstDifference_cons_of_ne ha] at h
    | cons b r =>
      by_cases hab : a = b
      · subst hab
        rw [cons_append, cons_append, firstDifference_cons_self] at h
        rw [ih (fun h0 => hl (by simp [h0])) (fun h0 => hr (by simp [h0])) h]
      · simp [firstDifference_cons_of_ne hab] at h

variable (l : CString)

/-- Two strings that differ nowhere are equal: the shorter one ends with a zero. -/
theorem firstDifference_text_eq_none_iff (r : CString) :
    firstDifference l.text r.text = none ↔ l = r := by
  constructor
  · intro h
    exact CString.ext_bytes (eq_of_firstDifference_zero l.nul r.nul h)
  · rintro rfl
    exact firstDifference_self l.text

theorem span_eq (r : CString) : span l r = min l.bytes.length r.bytes.length + 1 := by
  simp [span, CString.text, Nat.add_min_add_right]

theorem strcmp_eq (r : CString) :
    strcmp l.bytes r.bytes = verdict charValue (firstDifference l.text r.text) := by
  have hmin := firstDifference_take_min (l.text.length + r.text.length) l.text r.text
  rw [strcmp_eq_strncmp l.nul r.nul, ← span_eq, strncmp_eq l.nul r.nul]
  change verdict charValue (firstDifference (l.text.take (span l r)) (r.text.take (span l r))) = _
  rw [min_eq_right (by omega)] at hmin
  rw [span, hmin, take_of_length_le (Nat.le_add_right _ _),
    take_of_length_le (Nat.le_add_left _ _)]

theorem memcmp_span_eq (r : CString) (n : ℕ) : memcmp l.text r.text (min n (span l r)) =
      verdict byteValue (firstDifference (l.text.take n) (r.text.take n)) := by
  rw [memcmp_eq, span, firstDifference_take_min]

instance : LawfulEqCmp (compareOn charValue) where
  compare_self := Std.ReflCmp.compare_self
  eq_of_compare h := charValue_injective (Std.LawfulEqOrd.eq_of_compare h)

theorem strcmp_nonpos_iff (l r : CString) :
    strcmp l.bytes r.bytes ≤ 0 ↔ (l.text.compareLex (compareOn charValue) r.text).isLE := by
  rw [strcmp_eq, Lexicographic.compareLex_eq]
  cases hdiff : firstDifference l.text r.text with
  | none =>
    rw [firstDifference_text_eq_none_iff] at hdiff
    subst hdiff
    simp [verdict]
  | some p =>
    have hne : charValue p.1 ≠ charValue p.2 := fun h =>
      ne_of_firstDifference hdiff (charValue_injective h)
    simp only [verdict, Option.elim_some, compareOn, Std.isLE_compare]
    split <;> omega

theorem strcmp_trans {l m r : CString} (h : strcmp l.bytes m.bytes ≤ 0)
    (h' : strcmp m.bytes r.bytes ≤ 0) : strcmp l.bytes r.bytes ≤ 0 := by
  rw [strcmp_nonpos_iff] at *
  exact TransCmp.isLE_trans h h'

theorem strcmp_antisymm (l r : CString) : strcmp r.bytes l.bytes = -strcmp l.bytes r.bytes := by
  rw [strcmp_eq, strcmp_eq, firstDifference_swap l.text r.text]
  cases hdiff : firstDifference l.text r.text with
  | none => rfl
  | some p =>
    have hne : charValue p.1 ≠ charValue p.2 := fun h =>
      ne_of_firstDifference hdiff (charValue_injective h)
    simp only [verdict, Option.map_some, Option.elim_some, Prod.fst_swap, Prod.snd_swap]
    split <;> split <;> omega

theorem strcmp_eq_zero_iff (r : CString) : strcmp l.bytes r.bytes = 0 ↔ l = r := by
  rw [strcmp_eq, verdict_eq_zero_iff, firstDifference_text_eq_none_iff]

/-- Two bytes, of which both or none have the sign bit set. -/
def SameHalf (a b : UInt8) : Prop := a.toNat < 128 ↔ b.toNat < 128

theorem verdict_eq_iff {a b : UInt8} (h : a ≠ b) :
    verdict charValue (some (a, b)) = verdict byteValue (some (a, b)) ↔ SameHalf a b := by
  have ha := a.toNat_lt
  have hb := b.toNat_lt
  simp only [verdict, Option.elim_some, byteValue, charValue_eq, SameHalf]
  split_ifs <;> omega

/-- `strcmp` and `strncmp` order two strings by their bytes, as `memcmp` does, and `strcmp` is a
total order. -/
structure UnsignedOrder (l r : CString) : Prop where
  strcmp_sign : (strcmp l.bytes r.bytes).sign = (memcmp l.text r.text (span l r)).sign
  strncmp_sign : ∀ n,
    (strncmp l.bytes r.bytes n).sign = (memcmp l.text r.text (min n (span l r))).sign
  antisymm : strcmp r.bytes l.bytes = -strcmp l.bytes r.bytes
  eq_zero : strcmp l.bytes r.bytes = 0 ↔ l = r
  trans : ∀ m : CString, strcmp l.bytes m.bytes ≤ 0 → strcmp m.bytes r.bytes ≤ 0 →
    strcmp l.bytes r.bytes ≤ 0

/-- The order of two strings is that of their bytes exactly if the first bytes in which they
differ lie on one side of 128. -/
theorem unsignedOrder_iff (l r : CString) :
    UnsignedOrder l r ↔
      ∀ a b, firstDifference l.text r.text = some (a, b) → SameHalf a b := by
  have hcmp : memcmp l.text r.text (span l r) =
      verdict byteValue (firstDifference l.text r.text) := by
    have hspan := memcmp_span_eq l r (l.text.length + r.text.length)
    rw [take_of_length_le (Nat.le_add_right _ _),
      take_of_length_le (Nat.le_add_left _ _), min_eq_right] at hspan
    · exact hspan
    · rw [span]
      omega
  constructor
  · intro h a b hdiff
    have hsign := h.strcmp_sign
    rw [strcmp_eq, hcmp, sign_verdict, sign_verdict, hdiff] at hsign
    exact (verdict_eq_iff (ne_of_firstDifference hdiff)).1 hsign
  · intro h
    have hagree : ∀ difference, (∀ a b, difference = some (a, b) →
        firstDifference l.text r.text = some (a, b)) →
        verdict charValue difference = verdict byteValue difference := by
      intro difference hdiff
      cases difference with
      | none => rfl
      | some p =>
        have hp := hdiff p.1 p.2 rfl
        exact (verdict_eq_iff (ne_of_firstDifference hp)).2 (h _ _ hp)
    refine ⟨?_, ?_, strcmp_antisymm l r, strcmp_eq_zero_iff l r, fun m => strcmp_trans⟩
    · rw [strcmp_eq, hcmp, sign_verdict, sign_verdict]
      exact hagree _ fun a b hab => hab
    · intro n
      rw [strncmp_eq l.nul r.nul, memcmp_span_eq, sign_verdict, sign_verdict]
      exact hagree _ fun a b hab => firstDifference_take hab

/-- The byte 128 against the byte 1. -/
theorem not_unsignedOrder :
    ¬ UnsignedOrder ⟨[128], by decide⟩ ⟨[1], by decide⟩ := by
  intro h
  exact absurd h.strcmp_sign (by decide)

end Cleonos.Libc
