import Mathlib.Data.List.TakeWhile
import Mathlib.Tactic.Common
import Mathlib.Algebra.Order.Ring.Nat

/-!
# Byte strings

A string is a list of bytes; where it stands for memory, it ends at its first zero
byte or at the end of the list.
-/

namespace Cleonos

open List

/-- The bytes of an ASCII literal. -/
def lit (s : String) : List UInt8 := s.toList.map fun c => UInt8.ofNat c.toNat

/-- The bytes of a string, up to its first zero byte. -/
def cstr (s : List UInt8) : List UInt8 := s.takeWhile (· ≠ 0)

theorem cstr_eq_nil_iff (s : List UInt8) : cstr s = [] ↔ s.headD 0 = 0 := by
  cases s with
  | nil => simp [cstr]
  | cons c s =>
    by_cases hc : c = 0
    · simp [cstr, hc]
    · simp [cstr, hc]

variable (s : List UInt8)

theorem notMem_cstr : (0 : UInt8) ∉ cstr s := by
  intro h
  simpa using mem_takeWhile_imp h

theorem cstr_of_notMem {s : List UInt8} (h : (0 : UInt8) ∉ s) : cstr s = s := by
  refine takeWhile_eq_self_iff.2 fun c hc => ?_
  simpa using ne_of_mem_of_not_mem hc h

@[simp] theorem cstr_cstr : cstr (cstr s) = cstr s :=
  cstr_of_notMem (notMem_cstr s)

theorem cstr_append_nul (s t : List UInt8) : cstr (s ++ ([0] ++ t)) = cstr s := by
  induction s with
  | nil => simp [cstr]
  | cons c s ih =>
    by_cases hc : c = 0
    · simp [cstr, hc]
    · simp only [cstr, cons_append] at ih ⊢
      rw [takeWhile_cons_of_pos (by simpa using hc), ih,
        takeWhile_cons_of_pos (by simpa using hc)]

theorem length_cstr_le : (cstr s).length ≤ s.length :=
  (List.takeWhile_prefix _).length_le

end Cleonos

/-! ## The longest prefix of a form -/

namespace Cleonos.Longest

open List

universe u
variable {α : Type u} {P : List α → Prop} {text body other front : List α} {q : α → Bool}

/-- `body` is the longest prefix of `text` with the form `P`. -/
structure IsLongest (P : List α → Prop) (text body : List α) : Prop where
  front : body <+: text
  form : P body
  longest : ∀ other, other <+: text → P other → other.length ≤ body.length

theorem IsLongest.unique (h : IsLongest P text body) (h' : IsLongest P text other) :
    body = other := by
  have hlen := Nat.le_antisymm (h'.longest body h.front h.form) (h.longest other h'.front h'.form)
  exact (prefix_of_prefix_length_le h.front h'.front hlen.le).eq_of_length hlen

theorem length_le_takeWhile (h : body <+: text) (hall : ∀ c ∈ body, q c = true) :
    body.length ≤ (text.takeWhile q).length := by
  obtain ⟨rest, rfl⟩ := h
  rw [takeWhile_append_of_pos hall, length_append]
  exact Nat.le_add_right _ _

theorem isLongest_append_takeWhile
    (hform : P (front ++ text.takeWhile q))
    (h : ∀ other, other <+: front ++ text → P other →
      other.length ≤ front.length ∨ ∃ body, other = front ++ body ∧ ∀ c ∈ body, q c = true) :
    IsLongest P (front ++ text) (front ++ text.takeWhile q) := by
  refine ⟨(prefix_append_right_inj front).2 (List.takeWhile_prefix q), hform,
    fun other hother hP => ?_⟩
  rw [length_append]
  rcases h other hother hP with hlen | ⟨body, rfl, hall⟩
  · exact hlen.trans (Nat.le_add_right _ _)
  · have hbody := length_le_takeWhile ((prefix_append_right_inj front).1 hother) hall
    rw [length_append]
    exact Nat.add_le_add_left hbody _

end Cleonos.Longest
