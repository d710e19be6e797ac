import Mathlib.Data.List.Basic
import Mathlib.Algebra.Order.Group.Nat

/-!
# Text laid out in a field

A text that is shorter than its field is padded: behind it, in front of it, or between a lead,
such as the sign of a number, and the rest.
-/

namespace Cleonos.Lib

open List

variable {α : Type*} {a blank zero : α} {room n width : ℕ} {text lead body : List α}
  {left inside : Bool}

/-! ## Padding with a limit -/

/-- Appends `n` copies, and stops at the length `room`. -/
def appendUpTo (room : ℕ) (a : α) : ℕ → List α → List α
  | 0, text => text
  | n + 1, text => if text.length < room then appendUpTo room a n (text ++ [a]) else text

@[simp] theorem appendUpTo_zero : appendUpTo room a 0 text = text := rfl

theorem appendUpTo_of_le (h : text.length + n ≤ room) :
    appendUpTo room a n text = text ++ List.replicate n a := by
  induction n generalizing text with
  | zero => simp
  | succ n ih =>
    rw [appendUpTo, if_pos (by omega), ih (by simp; omega)]
    simp [replicate_succ]

theorem length_appendUpTo (n : ℕ) (text : List α) :
    (appendUpTo room a n text).length = max text.length (min (text.length + n) room) := by
  induction n generalizing text with
  | zero => simp
  | succ n ih =>
    rw [appendUpTo]
    split
    · rw [ih]
      simp only [length_append, length_singleton]
      omega
    · omega

/-- A lead and a body in a field: padded behind both on the left, else between them or in front. -/
def layout (blank zero : α) (left inside : Bool) (width : ℕ) (lead body : List α) : List α :=
  let pad := width - (lead.length + body.length)
  if left then lead ++ body ++ List.replicate pad blank
  else if inside then lead ++ List.replicate pad zero ++ body
  else List.replicate pad blank ++ lead ++ body

@[simp] theorem length_layout :
    (layout blank zero left inside width lead body).length =
      max width (lead.length + body.length) := by
  rw [layout]
  split_ifs <;> simp <;> omega

theorem filter_layout [DecidableEq α] (hlead : blank ∉ lead) (hbody : blank ∉ body) :
    (layout blank zero left false width lead body).filter (· ≠ blank) = lead ++ body := by
  have hkeep : ∀ text : List α, blank ∉ text → text.filter (· ≠ blank) = text := by
    intro text h
    apply filter_eq_self.2
    intro x hx
    have hne : x ≠ blank := by
      intro heq
      exact h (heq ▸ hx)
    simpa using hne
  rw [layout]
  simp only [Bool.false_eq_true, if_false]
  split <;> simp only [filter_append, filter_replicate, hkeep lead hlead,
    hkeep body hbody] <;> simp

theorem append_eq_of_layout_eq [DecidableEq α] {lead' body' : List α} {width' : ℕ}
    (hlead : blank ∉ lead) (hbody : blank ∉ body) (hlead' : blank ∉ lead') (hbody' : blank ∉ body')
    (h : layout blank zero left false width lead body =
      layout blank zero left false width' lead' body') :
    lead ++ body = lead' ++ body' := by
  rw [← filter_layout hlead hbody, h, filter_layout hlead' hbody']

/-- It makes no difference whether a last element of the lead is the first one of the body, if the
padding between them consists of it. -/
theorem layout_append_singleton :
    layout blank zero left inside width (lead ++ [zero]) body =
      layout blank zero left inside width lead (zero :: body) := by
  have hlen : (lead ++ [zero]).length + body.length = lead.length + (zero :: body).length := by
    simp only [length_append, length_cons, length_nil]
    omega
  have hswap (n : ℕ) : zero :: List.replicate n zero = List.replicate n zero ++ [zero] := by
    rw [← replicate_succ, replicate_succ']
  rw [layout, layout, hlen]
  split_ifs
  · simp
  · simp only [append_assoc, singleton_append, append_cancel_left_eq]
    rw [hswap, append_assoc]
    rfl
  · simp

end Cleonos.Lib
