import Mathlib.Data.List.GetD
import Mathlib.Tactic.Common

/-!
# UTF-8 texts

A byte string is valid when it is the encoding of a list of characters.
-/

namespace Cleonos.Utf8

open List

def isCont (c : UInt8) : Bool := c ≥ 0x80 && c ≤ 0xBF

/-- The number of bytes of a character with this first byte. -/
def leadLen (c : UInt8) : ℕ :=
  if c < 0x80 then 1
  else if c ≥ 0xC2 ∧ c ≤ 0xDF then 2
  else if c ≥ 0xE0 ∧ c ≤ 0xEF then 3
  else if c ≥ 0xF0 ∧ c ≤ 0xF4 then 4
  else 1

/-- The bytes encode a list of characters. -/
def Valid (t : List UInt8) : Prop := ∃ cs : List Char, t = cs.flatMap String.utf8EncodeChar

/-- The position is between two characters. -/
structure Boundary (t : List UInt8) (i : ℕ) : Prop where
  le : i ≤ t.length
  take : Valid (t.take i)
  drop : Valid (t.drop i)

/-! ## Characters -/

/-- The bytes are a lead and the continuations it announces. -/
structure IsChar (t : List UInt8) (lead : UInt8) (conts : List UInt8) : Prop where
  eq : t = lead :: conts
  notCont : isCont lead = false
  len : leadLen lead = conts.length + 1
  conts : ∀ d ∈ conts, isCont d = true

theorem isCont_ofNat (v : ℕ) : isCont (UInt8.ofNat (v % 64 + 128)) = true := by
  simp [isCont, UInt8.le_iff_toNat_le]
  omega

theorem notCont_ofNat {v : ℕ} (h : v < 128 ∨ 192 ≤ v) (hv : v < 256) :
    isCont (UInt8.ofNat v) = false := by
  simp [isCont, UInt8.le_iff_toNat_le]
  omega

theorem leadLen_ofNat {v n : ℕ} (hv : v < 256)
    (h : n = 1 ∧ v < 0x80 ∨ n = 2 ∧ 0xC2 ≤ v ∧ v ≤ 0xDF ∨ n = 3 ∧ 0xE0 ≤ v ∧ v ≤ 0xEF ∨
      n = 4 ∧ 0xF0 ≤ v ∧ v ≤ 0xF4) : leadLen (UInt8.ofNat v) = n := by
  simp only [leadLen, ge_iff_le, UInt8.lt_iff_toNat_lt, UInt8.le_iff_toNat_le,
    UInt8.toNat_ofNat', UInt8.toNat_ofNat]
  simp only [Nat.reducePow, Nat.reduceMod, Nat.mod_eq_of_lt hv]
  repeat' split
  all_goals omega

theorem isChar_encode (c : Char) :
    ∃ lead conts, IsChar (String.utf8EncodeChar c) lead conts := by
  have hmax : c.val.toNat ≤ 0x10ffff := by
    have hvalid := c.valid
    simp only [UInt32.isValidChar, Nat.isValidChar] at hvalid
    omega
  unfold String.utf8EncodeChar
  generalize c.val.toNat = v at hmax
  simp only
  split
  · exact ⟨_, _, rfl, notCont_ofNat (by omega) (by omega),
      leadLen_ofNat (n := 1) (by omega) (by omega), by simp⟩
  split
  · refine ⟨_, _, rfl, notCont_ofNat (by omega) (by omega),
      leadLen_ofNat (n := 2) (by omega) (by omega), ?_⟩
    exact forall_mem_cons.2 ⟨isCont_ofNat _, by simp⟩
  split
  · refine ⟨_, _, rfl, notCont_ofNat (by omega) (by omega),
      leadLen_ofNat (n := 3) (by omega) (by omega), ?_⟩
    exact forall_mem_cons.2 ⟨isCont_ofNat _, forall_mem_cons.2
      ⟨isCont_ofNat _, by simp⟩⟩
  · refine ⟨_, _, rfl, notCont_ofNat (by omega) (by omega),
      leadLen_ofNat (n := 4) (by omega) (by omega), ?_⟩
    exact forall_mem_cons.2 ⟨isCont_ofNat _, forall_mem_cons.2
      ⟨isCont_ofNat _, forall_mem_cons.2 ⟨isCont_ofNat _, by simp⟩⟩⟩

variable {c : UInt8} {i : ℕ} {t s : List UInt8}

theorem IsChar.eq_of_append {t' s' : List UInt8} {lead lead' : UInt8}
    {conts conts' : List UInt8} (h : IsChar t lead conts) (h' : IsChar t' lead' conts')
    (heq : t ++ s = t' ++ s') : t = t' ∧ s = s' := by
  have hlead : lead = lead' := by
    rw [h.eq, h'.eq, cons_append, cons_append] at heq
    exact (List.cons.inj heq).1
  have hlen : t.length = t'.length := by
    rw [h.eq, h'.eq, length_cons, length_cons, ← h.len, ← h'.len, hlead]
  exact append_inj heq hlen

theorem valid_nil : Valid [] := ⟨[], rfl⟩

theorem valid_encode (c : Char) : Valid (String.utf8EncodeChar c) := ⟨[c], by simp⟩

theorem Valid.append (hs : Valid s) (ht : Valid t) : Valid (s ++ t) := by
  obtain ⟨cs, rfl⟩ := hs
  obtain ⟨ds, rfl⟩ := ht
  exact ⟨cs ++ ds, flatMap_append.symm⟩

theorem valid_singleton (hc : c < 0x80) : Valid [c] := by
  have hlt : c.toNat < 128 := UInt8.lt_iff_toNat_lt.1 hc
  obtain ⟨ch, hval⟩ : ∃ ch : Char, ch.val.toNat = c.toNat :=
    ⟨Char.ofNatAux c.toNat (.inl (by omega)), rfl⟩
  refine ⟨[ch], ?_⟩
  simp [String.utf8EncodeChar, hval, show c.toNat ≤ 127 by omega]

theorem valid_of_ascii {t : List UInt8} (h : ∀ c ∈ t, c < 0x80) : Valid t := by
  induction t with
  | nil => exact valid_nil
  | cons c t ih =>
    exact (valid_singleton (h c (by simp))).append (ih fun d hd => h d (by simp [hd]))

theorem Valid.exists_char {t : List UInt8} (h : Valid t) (hne : t ≠ []) :
    ∃ c s lead conts, t = c ++ s ∧ IsChar c lead conts ∧ Valid c ∧ Valid s := by
  obtain ⟨cs, rfl⟩ := h
  cases cs with
  | nil => exact absurd rfl hne
  | cons c cs =>
    obtain ⟨lead, conts, hc⟩ := isChar_encode c
    exact ⟨_, _, lead, conts, flatMap_cons, hc, valid_encode c, cs, rfl⟩

theorem Valid.of_append {s t : List UInt8} (hs : Valid s) (h : Valid (s ++ t)) : Valid t := by
  obtain ⟨cs, rfl⟩ := hs
  induction cs with
  | nil => simpa using h
  | cons c cs ih =>
    obtain ⟨lead, conts, hc⟩ := isChar_encode c
    rw [flatMap_cons, append_assoc] at h
    have hne : String.utf8EncodeChar c ++ (cs.flatMap String.utf8EncodeChar ++ t) ≠ [] := by
      rw [hc.eq]
      exact cons_ne_nil _ _
    obtain ⟨c', s', lead', conts', heq, hc', -, hs'⟩ := h.exists_char hne
    rw [(hc.eq_of_append hc' heq).2] at ih
    exact ih hs'

theorem Valid.head_notCont (h : Valid (c :: t)) : isCont c = false := by
  obtain ⟨ch, s, lead, conts, heq, hc, -, -⟩ := h.exists_char (cons_ne_nil _ _)
  rw [hc.eq, cons_append] at heq
  rw [(List.cons.inj heq).1]
  exact hc.notCont

theorem Valid.isCont_second {c d : UInt8} {t : List UInt8} (h : Valid (c :: d :: t))
    (hlead : 2 ≤ leadLen c) : isCont d = true := by
  obtain ⟨ch, s, lead, conts, heq, hc, -, -⟩ := h.exists_char (cons_ne_nil _ _)
  rw [hc.eq, cons_append] at heq
  obtain ⟨rfl, hrest⟩ := List.cons.inj heq
  have hlen := hc.len
  cases conts with
  | nil =>
    rw [length_nil] at hlen
    omega
  | cons e conts =>
    rw [cons_append] at hrest
    rw [(List.cons.inj hrest).1]
    exact hc.conts e mem_cons_self

theorem Boundary.valid (h : Boundary t i) : Valid t := by
  rw [← take_append_drop i t]
  exact h.take.append h.drop

theorem boundary_append (hs : Valid s) (ht : Valid t) : Boundary (s ++ t) s.length :=
  ⟨by simp, by rwa [take_left], by rwa [drop_left]⟩

theorem boundary_zero (h : Valid t) : Boundary t 0 :=
  ⟨Nat.zero_le _, valid_nil, h⟩

theorem boundary_length (h : Valid t) : Boundary t t.length :=
  ⟨Nat.le_refl _, by rwa [take_length], by rw [drop_length]; exact valid_nil⟩

theorem boundary_of_getD {t : List UInt8} {i : ℕ} (h : Valid t) (hi : i ≤ t.length)
    (hcont : isCont (t.getD i 0) = false) : Boundary t i := by
  obtain ⟨cs, rfl⟩ := h
  induction cs generalizing i with
  | nil =>
    have h0 : i = 0 := by simpa using hi
    subst h0
    exact boundary_zero valid_nil
  | cons c cs ih =>
    obtain ⟨lead, conts, hc⟩ := isChar_encode c
    have hrest : Valid (cs.flatMap String.utf8EncodeChar) := ⟨cs, rfl⟩
    rw [flatMap_cons] at hi hcont ⊢
    by_cases h0 : i = 0
    · subst h0
      exact boundary_zero ((valid_encode c).append hrest)
    by_cases hlt : i < (String.utf8EncodeChar c).length
    · -- inside a character stand continuation bytes only
      have hmem : (String.utf8EncodeChar c)[i] ∈ conts := by
        obtain ⟨j, rfl⟩ := Nat.exists_eq_succ_of_ne_zero h0
        simp only [hc.eq, getElem_cons_succ]
        exact getElem_mem _
      have hget : (String.utf8EncodeChar c ++ cs.flatMap String.utf8EncodeChar).getD i 0 =
          (String.utf8EncodeChar c)[i] := by
        rw [getD_append _ _ _ _ hlt, getD_eq_getElem _ _ hlt]
      rw [hget, hc.conts _ hmem] at hcont
      cases hcont
    · obtain ⟨j, rfl⟩ := Nat.exists_eq_add_of_le (Nat.not_lt.1 hlt)
      rw [length_append] at hi
      rw [getD_append_right _ _ _ _ (by omega), Nat.add_sub_cancel_left] at hcont
      have hj := ih (i := j) (by omega) hcont
      refine ⟨by rw [length_append]; omega, ?_, ?_⟩
      · rw [take_append, take_of_length_le (by omega), Nat.add_sub_cancel_left]
        exact (valid_encode c).append hj.take
      · rw [drop_append, drop_of_length_le (by omega), Nat.add_sub_cancel_left,
          nil_append]
        exact hj.drop

theorem Boundary.exists_char (h : Boundary t i) (hi : i < t.length) :
    ∃ c s lead conts, t.drop i = c ++ s ∧ IsChar c lead conts ∧ Boundary t (i + c.length) := by
  have hne : t.drop i ≠ [] := by
    rw [Ne, drop_eq_nil_iff]
    omega
  obtain ⟨c, s, lead, conts, heq, hc, hvalid, hs⟩ := h.drop.exists_char hne
  refine ⟨c, s, lead, conts, heq, hc, ?_⟩
  have ht : t = (t.take i ++ c) ++ s := by
    rw [append_assoc, ← heq, take_append_drop]
  have hlen : (t.take i ++ c).length = i + c.length := by
    rw [length_append, length_take, Nat.min_eq_left h.le]
  have hb := boundary_append (h.take.append hvalid) hs
  rwa [← ht, hlen] at hb

theorem Boundary.between {j : ℕ} (hi : Boundary t i) (hj : Boundary t j)
    (hij : i ≤ j) : Valid ((t.take j).drop i) := by
  refine hi.take.of_append ?_
  have htake : t.take i = (t.take j).take i := by rw [take_take, Nat.min_eq_left hij]
  rw [htake, take_append_drop]
  exact hj.take

theorem Valid.split_ascii (h : Valid (s ++ c :: t)) (hc : c < 0x80) : Valid s ∧ Valid t := by
  have hcont : isCont c = false := by
    have hlt : c.toNat < 128 := UInt8.lt_iff_toNat_lt.1 hc
    simp [isCont, UInt8.le_iff_toNat_le]
    omega
  have hb : Boundary (s ++ c :: t) s.length :=
    boundary_of_getD h (by simp) (by simpa using hcont)
  have htake := hb.take
  have hdrop := hb.drop
  rw [take_left] at htake
  rw [drop_left, ← singleton_append] at hdrop
  exact ⟨htake, (valid_singleton hc).of_append hdrop⟩

end Cleonos.Utf8
