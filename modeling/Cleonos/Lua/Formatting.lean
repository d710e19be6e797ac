import Cleonos.Lua.Numbers

/-!
# Numbers as the standard prescribes

A number that fits is written as the standard says except for `%#o`: the prefix is written in front
of the zeros of the precision, and none in front of an empty number.
-/

namespace Cleonos.Lua.Format

open List
open Lib (append_eq_of_layout_eq layout layout_append_singleton length_layout)
open Stdio (digitChar)

variable {d : Directive} {w : UInt64}

/-! ## What the standard says -/

theorem length_digits (d : Directive) (w : UInt64) :
    (d.digits w).length = (Nat.digits d.conv.base (d.value w).natAbs).length := by
  simp [Directive.digits]

theorem pre_eq_lead (h : ¬ (.hash ∈ d.flags ∧ d.conv = .o ∧ d.value w ≠ 0)) :
    d.pre w = d.lead w := by
  rw [Directive.pre, Directive.lead]
  cases hc : d.conv.signed with
  | true =>
    simp only [if_true, signOf, Directive.full, Directive.state, decide_eq_true_eq]
  | false =>
    simp only [Bool.false_eq_true, if_false, altPrefix, Directive.full, Directive.state,
      decide_eq_true_eq, ne_eq, Int.natAbs_eq_zero]
    split
    · next hz =>
        cases hd : d.conv with
        | o => exact absurd ⟨hz.1, hd, hz.2⟩ h
        | d => rw [hd] at hc; cases hc
        | i => rw [hd] at hc; cases hc
        | u => rfl
        | x => rfl
        | X => rfl
    · rfl

theorem body_eq_expanded
    (h : ¬ (.hash ∈ d.flags ∧ d.conv = .o ∧ (d.expanded w).head? ≠ some 48)) :
    d.body w = d.expanded w := by
  rw [Directive.body]
  exact if_neg h

theorem body_eq_cons (h : .hash ∈ d.flags ∧ d.conv = .o ∧ (d.expanded w).head? ≠ some 48) :
    d.body w = 48 :: d.expanded w := by
  rw [Directive.body]
  exact if_pos h

theorem head_expanded (h : (d.digits w).length < d.minDigits) :
    (d.expanded w).head? = some 48 := by
  have hpos : d.minDigits - (d.digits w).length ≠ 0 := by omega
  obtain ⟨k, hk⟩ := Nat.exists_eq_succ_of_ne_zero hpos
  rw [Directive.expanded, hk]
  rfl

theorem head_digits (d : Directive) (w : UInt64) : (d.digits w).head? ≠ some 48 := by
  intro h
  rw [Directive.digits, map_reverse, List.head?_reverse, List.getLast?_map,
    Option.map_eq_some_iff] at h
  obtain ⟨digit, hlast, hchar⟩ := h
  have hmem := mem_of_getLast? hlast
  have hbase := base_bounds d.conv
  have hlt : digit < 16 := (Nat.digits_lt_base hbase.1 hmem).trans_le hbase.2
  have hall : ∀ digit < 16, ∀ upper, digitChar upper digit = 48 → digit = 0 := by decide
  have hne := ne_nil_of_mem hmem
  have hpos : (d.value w).natAbs ≠ 0 := by
    intro h0
    apply hne
    rw [h0, Nat.digits_zero]
  apply Nat.getLast_digit_ne_zero d.conv.base hpos
  rw [List.getLast?_eq_some_getLast hne] at hlast
  rw [Option.some.inj hlast, hall digit hlt _ hchar]

theorem fits_iff :
    d.Fits w ↔ numeral d.width < d.room ∧ (d.lead w).length + d.minDigits < d.room := by
  rw [Directive.Fits, Directive.room]
  cases d.conv.signed <;> simp <;> omega

theorem fits_of_length_lt (h : (d.text w).length < d.room) : d.Fits w := by
  have hbody : d.minDigits ≤ (d.body w).length := by
    have hlen := length_expanded d w
    by_cases hhash : .hash ∈ d.flags ∧ d.conv = .o ∧ (d.expanded w).head? ≠ some 48
    · rw [body_eq_cons hhash, length_cons]
      omega
    · rw [body_eq_expanded hhash]
      omega
  rw [Directive.text, length_layout] at h
  rw [fits_iff]
  omega

theorem octalSlip_iff : d.OctalSlip w ↔ .hash ∈ d.flags ∧ d.conv = .o ∧
    (d.value w ≠ 0 ∧ (d.digits w).length < d.minDigits ∨ d.value w = 0 ∧ d.minDigits = 0) := by
  rw [Directive.OctalSlip]
  refine and_congr_right fun _ => and_congr_right fun hconv => or_congr_left ?_
  refine and_congr_right fun hne => ?_
  have hnonneg : 0 ≤ d.value w := by
    rw [Directive.value, hconv]
    exact Int.natCast_nonneg _
  have hpos : (Nat.digits 8 (d.value w).natAbs).length ≠ 0 := by
    simp [hne]
  have hle := Nat.digits_length_le_iff (b := 8) (by decide) (k := d.minDigits - 1)
    (d.value w).natAbs
  rw [length_digits, hconv]
  change _ ↔ (Nat.digits 8 _).length < _
  constructor
  · intro h
    have hlt : (d.value w).natAbs < 8 ^ (d.minDigits - 1) := by
      zify
      rwa [abs_of_nonneg hnonneg]
    have := hle.2 hlt
    omega
  · intro h
    have hlt := hle.1 (by omega)
    zify at hlt
    rwa [abs_of_nonneg hnonneg] at hlt

theorem lead_octal (h : d.conv = .o) : d.lead w = [] := by
  rw [Directive.lead, h]
  simp [Conv.signed]

theorem room_octal (h : d.conv = .o) : d.room = 160 := by
  rw [Directive.room, h]
  rfl

theorem room_bounds (d : Directive) : 128 ≤ d.room ∧ d.room ≤ 160 := by
  rw [Directive.room]
  split <;> omega

theorem written_of_fits (hfits : d.Fits w) (hslip : ¬ d.OctalSlip w) :
    d.written w = some (d.text w) := by
  have hroom := room_bounds d
  have hpre := length_pre_le d w
  have hdigits := length_digits_le d w
  rw [← length_digits] at hdigits
  rw [fits_iff] at hfits
  rw [octalSlip_iff] at hslip
  rw [Directive.text]
  by_cases hoctal : .hash ∈ d.flags ∧ d.conv = .o ∧ d.value w ≠ 0
  · obtain ⟨hhash, hconv, hne⟩ := hoctal
    have hmin : d.minDigits ≤ (d.digits w).length := by
      by_contra hlt
      exact hslip ⟨hhash, hconv, .inl ⟨hne, by omega⟩⟩
    have hexpanded : d.expanded w = d.digits w := by
      rw [Directive.expanded, Nat.sub_eq_zero_of_le hmin]
      rfl
    have hpre' : d.pre w = [48] := by
      simp [Directive.pre, altPrefix, hconv, Conv.signed, Conv.base, Directive.full,
        Directive.state, hhash, hne]
    rw [written_laid hfits.1 (by omega), body_eq_cons ⟨hhash, hconv, hexpanded ▸ head_digits d w⟩,
      lead_octal hconv, hpre']
    exact congrArg some (@layout_append_singleton _ _ 48 _ [] _ _ _)
  · have hbody : d.body w = d.expanded w := by
      apply body_eq_expanded
      intro h
      have hzero : d.value w = 0 := by
        by_contra hne
        exact hoctal ⟨h.1, h.2.1, hne⟩
      have hnil : d.digits w = [] := by
        simp [Directive.digits, hzero]
      apply h.2.2
      apply head_expanded
      by_contra hmin
      apply hslip
      rw [hnil] at hmin
      exact ⟨h.1, h.2.1, .inr ⟨hzero, by simpa using hmin⟩⟩
    have hlead := pre_eq_lead hoctal
    rw [written_laid hfits.1 (by rw [hlead] at hpre ⊢; omega), hbody, hlead]

theorem digit_ne_blank (d : Directive) (w : UInt64) : 32 ∉ d.digits w := by
  intro h
  rw [Directive.digits, mem_map] at h
  obtain ⟨digit, hmem, hchar⟩ := h
  have hbase := base_bounds d.conv
  have hlt : digit < 16 :=
    (Nat.digits_lt_base hbase.1 (mem_reverse.1 hmem)).trans_le hbase.2
  have hall : ∀ digit < 16, ∀ upper, digitChar upper digit ≠ 32 := by decide
  exact hall digit hlt _ hchar

theorem expanded_ne_blank (d : Directive) (w : UInt64) : 32 ∉ d.expanded w := by
  intro h
  rw [Directive.expanded, mem_append] at h
  rcases h with h | h
  · exact absurd (eq_of_mem_replicate h) (by decide)
  · exact digit_ne_blank d w h

theorem inside_of_slip (h : d.OctalSlip w) :
    decide (.zero ∈ d.flags ∧ d.precision = none) = false := by
  obtain ⟨-, hconv, hvalue⟩ := h
  have hnonneg : 0 ≤ d.value w := by
    rw [Directive.value, hconv]
    exact Int.natCast_nonneg _
  simp only [decide_eq_false_iff_not, not_and]
  intro _ hnone
  have hone : d.minDigits = 1 := by
    rw [Directive.minDigits, hnone]
    rfl
  rw [hone] at hvalue
  simp only [Nat.sub_self, pow_zero, Nat.one_ne_zero, and_false, or_false] at hvalue
  omega

theorem written_ne_of_laid (hconv : d.conv = .o)
    (hinside : decide (.zero ∈ d.flags ∧ d.precision = none) = false)
    (hpre : 32 ∉ d.pre w) (hbody : 32 ∉ d.body w)
    (hlaid : d.written w = some (layout 32 48 (.minus ∈ d.flags)
      (.zero ∈ d.flags ∧ d.precision = none) (numeral d.width) (d.pre w) (d.expanded w)))
    (hne : d.pre w ++ d.expanded w ≠ d.body w) :
    d.written w ≠ some (d.text w) := by
  intro h
  apply hne
  rw [h, Directive.text, hinside, lead_octal hconv] at hlaid
  exact append_eq_of_layout_eq hpre (expanded_ne_blank d w) (by simp) hbody
    (Option.some.inj hlaid).symm

theorem written_of_slip (hfits : d.Fits w) (hslip : d.OctalSlip w) :
    d.written w ≠ some (d.text w) := by
  have hinside := inside_of_slip hslip
  have hwidth := (fits_iff.1 hfits).1
  rw [octalSlip_iff] at hslip
  obtain ⟨hhash, hconv, ⟨hne, hmin⟩ | ⟨hzero, hmin⟩⟩ := hslip
  · have hroom := room_octal hconv
    have hhead := head_expanded hmin
    have hbody : d.body w = d.expanded w := body_eq_expanded (by simp [hhead])
    have hpre : d.pre w = [48] := by
      simp [Directive.pre, altPrefix, hconv, Conv.signed, Conv.base, Directive.full,
        Directive.state, hhash, hne]
    by_cases hlong : 160 ≤ 1 + d.minDigits
    · intro h
      have hfits' := fits_iff.1 hfits
      rw [lead_octal hconv, hroom] at hfits'
      have hsmall : d.minDigits < 2 ^ 31 := by
        have := hfits'.2
        simp only [length_nil] at this
        omega
      have hlen := @length_shown d w hsmall
      have hshown : d.shown w ≠ [] := by
        intro hnil
        rw [Directive.shown, shownDigits, if_neg (by simp [hne]),
          luaFmtU64_eq (base_bounds _).1 (base_bounds _).2 (natAbs_value_lt d w) (by simpa using hne)] at hnil
        simp only [map_eq_nil_iff, reverse_eq_nil_iff] at hnil
        exact Nat.digits_ne_nil_iff_ne_zero.2 (Int.natAbs_ne_zero.2 hne) hnil
      have hsigned : d.conv.signed = false := by
        rw [hconv]
        rfl
      rw [written_eq, assemble_none hshown hsigned] at h
      · cases h
      · rw [hsigned, hpre, hlen]
        simp only [Bool.false_eq_true, if_false, length_singleton]
        omega
    · apply written_ne_of_laid hconv hinside (by simp [hpre]) (hbody ▸ expanded_ne_blank d w)
      · apply written_laid hwidth
        rw [hpre, hroom]
        simp only [length_singleton]
        omega
      · rw [hpre, hbody]
        intro h
        have hlen := congrArg List.length h
        simp at hlen
  · have hnil : d.digits w = [] := by
      simp [Directive.digits, hzero]
    have hexpanded : d.expanded w = [] := by
      rw [Directive.expanded, hmin, hnil]
      rfl
    have hbody : d.body w = [48] := by
      rw [body_eq_cons ⟨hhash, hconv, by simp [hexpanded]⟩, hexpanded]
    have hpre : d.pre w = [] := by
      simp [Directive.pre, altPrefix, hconv, Conv.signed, hzero]
    apply written_ne_of_laid hconv hinside (by simp [hpre]) (by simp [hbody])
    · apply written_laid hwidth
      rw [hpre, hmin, hnil, room_octal hconv]
      decide
    · rw [hpre, hexpanded, hbody]
      decide

theorem written_eq_iff : d.written w = some (d.text w) ↔ d.Fits w ∧ ¬ d.OctalSlip w := by
  constructor
  · intro h
    have hlt : (d.text w).length < d.room := by
      rw [written_eq] at h
      exact length_lt_of_assemble h
    have hfits := fits_of_length_lt hlt
    exact ⟨hfits, fun hslip => written_of_slip hfits hslip h⟩
  · intro h
    exact written_of_fits h.1 h.2

section

variable {δ : Type}

/-- A directive that the standard defines follows it in every format exactly if the number fits
into the buffer, and the prefix of `%#o` is not beside the precision. -/
theorem sprintf_follows_iff (luaFmtFloat : δ → UInt8 → FmtState → List UInt8) (d : Directive)
    (w : UInt64) :
    (d.Defined → d.Follows luaFmtFloat w) ↔ (d.Defined → d.Fits w ∧ ¬ d.OctalSlip w) := by
  rw [follows_iff, written_eq_iff]

/-- `%#.3o`. -/
def octalThree : Directive := ⟨[.hash], [], by decide, some [3], .default, .o⟩

/-- `%#.3o` of 8 is `0010`, not `010`. -/
theorem octal_prefix_twice :
    ¬ ∀ (d : Directive) (w : UInt64), d.Defined → d.Follows (fun (_ : Unit) _ _ => []) w := by
  intro h
  have hdefined : octalThree.Defined := by
    constructor
    · intro _
      exact .inr (.inr rfl)
    · decide
  have hwritten : octalThree.written 8 = some [48, 48, 49, 48] := by decide
  have htext : octalThree.text 8 = [48, 49, 48] := by
    have hdigits : octalThree.digits 8 = [49, 48] := by
      have hvalue : octalThree.value 8 = 8 := by decide
      rw [Directive.digits, hvalue]
      simp [octalThree, Conv.base]
      decide
    have hmin : octalThree.minDigits = 3 := by decide
    rw [Directive.text, Directive.body, hdigits, hmin]
    decide
  have hfollows := follows_iff.1 (h octalThree 8 hdefined)
  rw [hwritten, htext] at hfollows
  exact absurd hfollows (by decide)

/-! ## Whole formats -/

/-- `%d`. -/
def decimalOnly : Directive := ⟨[], [], by decide, none, .default, .d⟩

/-- A byte of the text, `%%`, or a number. -/
inductive Item
  | byte (c : UInt8) (text : c ≠ 0) (plain : c ≠ 37)
  | percent
  | number (d : Directive) (w : UInt64)

def Item.bytes : Item → List UInt8
  | .byte c _ _ => [c]
  | .percent => [37, 37]
  | .number d _ => 37 :: d.bytes

def Item.args : Item → List (Arg δ)
  | .byte _ _ _ | .percent => []
  | .number _ w => [.word w]

def Item.text : Item → List UInt8
  | .byte c _ _ => [c]
  | .percent => [37]
  | .number d w => d.text w

/-- The number fits, and its prefix is in its precision. -/
def Item.Good : Item → Prop
  | .byte _ _ _ | .percent => True
  | .number d w => d.Fits w ∧ ¬ d.OctalSlip w

/-- A format of good items is written as the standard says. -/
theorem writes_format (luaFmtFloat : δ → UInt8 → FmtState → List UInt8) (items : List Item)
    (h : ∀ item ∈ items, item.Good) :
    Writes luaFmtFloat (items.flatMap Item.bytes) (items.flatMap Item.args)
      (items.flatMap Item.text) := by
  induction items with
  | nil =>
    rw [writes_iff]
    simp [formatLoop]
  | cons item items ih =>
    have hrest := ih fun item hitem => h item (mem_cons_of_mem _ hitem)
    have hgood := h item mem_cons_self
    rw [flatMap_cons, flatMap_cons, flatMap_cons]
    cases item with
    | byte c hzero hplain =>
      rw [writes_iff] at hrest ⊢
      change formatLoop luaFmtFloat (c :: items.flatMap Item.bytes)
        (items.flatMap Item.args) = _
      rw [formatLoop, if_neg hzero, if_pos hplain, hrest]
      rfl
    | percent =>
      rw [writes_iff] at hrest ⊢
      change formatLoop luaFmtFloat (37 :: 37 :: items.flatMap Item.bytes)
        (items.flatMap Item.args) = _
      rw [formatLoop, if_neg (by decide), if_neg (by decide), if_pos (by simp),
        tail_cons, hrest]
      rfl
    | number d w =>
      have hfollows : d.Follows luaFmtFloat w := follows_iff.2 (written_eq_iff.2 hgood)
      exact hfollows _ _ _ hrest

/-- `x%%%d` of 7. -/
theorem writes_seven : Writes (fun (_ : Unit) _ _ => [])
    ([.byte 120 (by decide) (by decide), .percent, .number decimalOnly 7].flatMap Item.bytes)
    [.word 7] ([.byte 120 (by decide) (by decide), .percent, .number decimalOnly 7].flatMap
      Item.text) :=
  writes_format _ _ (by
    simp only [mem_cons, not_mem_nil, or_false, forall_eq_or_imp, forall_eq]
    exact ⟨trivial, trivial, by rw [Directive.Fits]; decide, fun h => not_mem_nil h.1⟩)

end

end Cleonos.Lua.Format
