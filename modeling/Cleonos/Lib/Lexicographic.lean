import Mathlib.Tactic.Common

/-!
# Comparing lists at their first difference

A lexicographic comparison looks at the first place where two lists differ, and at nothing else
when neither list goes on behind the other.
-/

namespace Cleonos.Lexicographic

open List
open Std (ReflCmp LawfulEqCmp)

universe u
variable {α : Type u} [DecidableEq α] {cmp : α → α → Ordering} {a b : α} {l r : List α}

/-- The elements at the first place where both lists have one and they differ. -/
def firstDifference (l r : List α) : Option (α × α) := (l.zip r).find? fun p => p.1 ≠ p.2

@[simp] theorem firstDifference_nil_left (r : List α) : firstDifference [] r = none := rfl

@[simp] theorem firstDifference_nil_right (l : List α) : firstDifference l [] = none := by
  rw [firstDifference, zip_nil_right, List.find?_nil]

theorem firstDifference_cons_self (a : α) (l r : List α) :
    firstDifference (a :: l) (a :: r) = firstDifference l r := by
  simp [firstDifference]

theorem firstDifference_cons_of_ne (h : a ≠ b) (l r : List α) :
    firstDifference (a :: l) (b :: r) = some (a, b) := by
  simp [firstDifference, h]

theorem ne_of_firstDifference (h : firstDifference l r = some (a, b)) : a ≠ b := by
  simpa using List.find?_some h

theorem firstDifference_self (l : List α) : firstDifference l l = none := by
  induction l with
  | nil => rfl
  | cons a l ih => rw [firstDifference_cons_self, ih]

theorem firstDifference_swap (l r : List α) :
    firstDifference r l = (firstDifference l r).map Prod.swap := by
  induction l generalizing r with
  | nil => simp
  | cons a l ih =>
    cases r with
    | nil => simp
    | cons b r =>
      by_cases h : a = b
      · rw [h, firstDifference_cons_self, firstDifference_cons_self, ih]
      · rw [firstDifference_cons_of_ne h, firstDifference_cons_of_ne (Ne.symm h)]
        rfl

theorem firstDifference_take (h : firstDifference (l.take n) (r.take n) = some (a, b)) :
    firstDifference l r = some (a, b) := by
  induction n generalizing l r with
  | zero => cases h
  | succ n ih =>
    cases l with
    | nil => cases h
    | cons c l =>
      cases r with
      | nil => simp at h
      | cons d r =>
        rw [take_succ_cons, take_succ_cons] at h
        by_cases hcd : c = d
        · subst hcd
          rw [firstDifference_cons_self] at h ⊢
          exact ih h
        · rw [firstDifference_cons_of_ne hcd] at h ⊢
          exact h

theorem firstDifference_take_min (n : ℕ) (l r : List α) :
    firstDifference (l.take (min n (min l.length r.length)))
        (r.take (min n (min l.length r.length))) = firstDifference (l.take n) (r.take n) := by
  induction n generalizing l r with
  | zero => simp
  | succ n ih =>
    cases l with
    | nil => simp
    | cons c l =>
      cases r with
      | nil => simp
      | cons d r =>
        rw [length_cons, length_cons, Nat.add_min_add_right,
          Nat.add_min_add_right, take_succ_cons, take_succ_cons,
          take_succ_cons, take_succ_cons]
        by_cases hcd : c = d
        · rw [hcd, firstDifference_cons_self, firstDifference_cons_self, ih]
        · rw [firstDifference_cons_of_ne hcd, firstDifference_cons_of_ne hcd]

/-- A lexicographic comparison compares at the first difference, and the lengths where there
is none. -/
theorem compareLex_eq [LawfulEqCmp cmp] (l r : List α) :
    l.compareLex cmp r =
      (firstDifference l r).elim (compare l.length r.length) fun p => cmp p.1 p.2 := by
  induction l generalizing r with
  | nil =>
    cases r with
    | nil => rfl
    | cons b r => simp [List.compareLex_nil_cons, Nat.compare_eq_ite_lt]
  | cons a l ih =>
    cases r with
    | nil => simp [List.compareLex_cons_nil, Nat.compare_eq_ite_lt]
    | cons b r =>
      rw [List.compareLex_cons_cons]
      by_cases hab : a = b
      · subst hab
        rw [@ReflCmp.compare_self _ cmp _ a, Ordering.eq_then, ih, firstDifference_cons_self]
        simp [Nat.compare_eq_ite_lt]
      · have hne : cmp a b ≠ .eq := fun h => hab (LawfulEqCmp.eq_of_compare h)
        rw [firstDifference_cons_of_ne hab, Option.elim_some]
        cases hcmp : cmp a b
        · rfl
        · exact absurd hcmp hne
        · rfl

end Cleonos.Lexicographic
