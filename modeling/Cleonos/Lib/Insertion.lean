import Mathlib.Data.List.Destutter
import Mathlib.Data.List.DropRight
import Mathlib.Data.List.Chain
import Mathlib.Data.List.Count
import Mathlib.Order.Lattice

/-!
# Sorting by insertion and by exchanges

An insertion sort that moves the greater elements of a sorted prefix one place to the right, and
the removal of neighbours that are equal.
-/

namespace Cleonos.Insertion

open List

variable {α β : Type*} [LinearOrder β] {value : α → β} {key x : α} {u v l : List α}

/-- `key` behind the elements of `u`, before those at its end that `p` moves. -/
def placeBy (p : α → Bool) (key : α) (u : List α) : List α :=
  u.rdropWhile p ++ key :: u.rtakeWhile p

/-- `key` behind the elements of `u`, before the greater ones at its end. -/
def place (value : α → β) (key : α) (u : List α) : List α :=
  u.rdropWhile (fun x => value key < value x) ++ key ::
    u.rtakeWhile fun x => value key < value x

/-- All elements of `v` placed, one by one. -/
def insertAll (value : α → β) (u : List α) : List α → List α
  | [] => u
  | key :: v => insertAll value (place value key u) v

/-- In increasing order of the values. -/
def Sorted (value : α → β) (l : List α) : Prop := l.Pairwise fun x y => value x ≤ value y

/-! ## One element -/

section
variable {p : α → Bool}

theorem placeBy_concat_pos (h : p x = true) (u : List α) :
    placeBy p key (u ++ [x]) = placeBy p key u ++ [x] := by
  rw [placeBy, rdropWhile_concat, rtakeWhile_concat, if_pos h, if_pos h, placeBy,
    append_assoc, cons_append]

theorem placeBy_concat_neg (h : p x = false) (u : List α) :
    placeBy p key (u ++ [x]) = u ++ [x, key] := by
  have hneg : ¬ p x = true := by rw [h]; exact Bool.false_ne_true
  rw [placeBy, rdropWhile_concat, rtakeWhile_concat, if_neg hneg, if_neg hneg,
    append_assoc, singleton_append]

theorem placeBy_perm (key : α) (u : List α) : (placeBy p key u).Perm (key :: u) := by
  have hwhole : u.rdropWhile p ++ u.rtakeWhile p = u := rdropWhile_append_rtakeWhile
  rw [placeBy]
  exact perm_middle.trans (by rw [hwhole])

end

theorem place_concat_of_lt (h : value key < value x) (u : List α) :
    place value key (u ++ [x]) = place value key u ++ [x] :=
  placeBy_concat_pos (p := fun y => decide (value key < value y)) (decide_eq_true h) u

theorem place_concat_of_not_lt (h : ¬ value key < value x) (u : List α) :
    place value key (u ++ [x]) = u ++ [x, key] :=
  placeBy_concat_neg (p := fun y => decide (value key < value y)) (decide_eq_false h) u

theorem place_perm (key : α) (u : List α) : (place value key u).Perm (key :: u) :=
  placeBy_perm key u

theorem length_place (key : α) (u : List α) : (place value key u).length = u.length + 1 :=
  (place_perm key u).length_eq

theorem place_sorted (key : α) (h : Sorted value u) : Sorted value (place value key u) := by
  induction u using List.reverseRecOn with
  | nil => exact pairwise_singleton _ key
  | append_singleton u x ih =>
    obtain ⟨hu, -, hlast⟩ := pairwise_append.1 h
    by_cases hlt : value key < value x
    · rw [place_concat_of_lt hlt, Sorted, pairwise_append]
      refine ⟨ih hu, pairwise_singleton _ x, ?_⟩
      intro y hy z hz
      rw [mem_singleton.1 hz]
      rcases mem_cons.1 ((place_perm key u).mem_iff.1 hy) with rfl | hmem
      · exact le_of_lt hlt
      · exact hlast y hmem x mem_cons_self
    · -- `x` is the greatest of `u`, and it is not greater than `key`
      have hle : ∀ y ∈ u ++ [x], value y ≤ value key := by
        intro y hy
        rcases mem_append.1 hy with hmem | hmem
        · exact le_trans (hlast y hmem x mem_cons_self) (not_lt.1 hlt)
        · rw [mem_singleton.1 hmem]
          exact not_lt.1 hlt
      have hcat : u ++ [x, key] = (u ++ [x]) ++ [key] := by
        rw [append_assoc, singleton_append]
      rw [place_concat_of_not_lt hlt, Sorted, hcat, pairwise_append]
      refine ⟨h, pairwise_singleton _ key, ?_⟩
      intro y hy z hz
      rw [mem_singleton.1 hz]
      exact hle y hy

theorem insertAll_perm (u v : List α) : (insertAll value u v).Perm (u ++ v) := by
  induction v generalizing u with
  | nil => rw [insertAll, append_nil]
  | cons key v ih =>
    rw [insertAll]
    have hplace : (place value key u ++ v).Perm (key :: u ++ v) :=
      (place_perm key u).append_right v
    exact (ih (place value key u)).trans (hplace.trans perm_middle.symm)

theorem insertAll_sorted (h : Sorted value u) (v : List α) :
    Sorted value (insertAll value u v) := by
  induction v generalizing u with
  | nil => exact h
  | cons key v ih => exact ih (place_sorted key h)

variable [DecidableEq α]

omit [LinearOrder β] in
theorem mem_destutter'_ne (a : α) (l : List α) : x ∈ l.destutter' (· ≠ ·) a ↔ x ∈ a :: l := by
  induction l generalizing a with
  | nil => rfl
  | cons b l ih =>
    by_cases h : a = b
    · subst h
      rw [destutter'_cons_neg _ (not_not.2 rfl), ih]
      simp
    · rw [destutter'_cons_pos _ h, mem_cons, ih,
        mem_cons (b := a)]

omit [LinearOrder β] in
theorem mem_destutter_ne : x ∈ l.destutter (· ≠ ·) ↔ x ∈ l := by
  cases l with
  | nil => rfl
  | cons a l => exact mem_destutter'_ne a l

theorem nodup_destutter_ne (hvalue : Function.Injective value) (h : Sorted value l) :
    (l.destutter (· ≠ ·)).Nodup := by
  have hsorted : Sorted value (l.destutter (· ≠ ·)) := h.sublist (destutter_sublist _ l)
  have hchain : (l.destutter (· ≠ ·)).IsChain fun x y => value x < value y := by
    have hne : (l.destutter (· ≠ ·)).IsChain (· ≠ ·) := isChain_destutter _ l
    rw [isChain_iff_getElem] at hne ⊢
    intro i hi
    have hle := pairwise_iff_getElem.1 hsorted i (i + 1) (by omega) hi (Nat.lt_succ_self i)
    exact lt_of_le_of_ne hle fun heq => hne i hi (hvalue heq)
  have hlt : (l.destutter (· ≠ ·)).Pairwise fun x y => value x < value y :=
    hchain.pairwise
  exact hlt.imp fun hxy heq => absurd (congrArg value heq) (ne_of_lt hxy)

end Cleonos.Insertion

namespace Cleonos.Bubble

open List

variable {α : Type*}

/-- On the elements with `P`, not to come after one another is a total preorder. -/
structure Preordered (after : α → α → Bool) (P : α → Prop) : Prop where
  total : ∀ x y, P x → P y → after x y = false ∨ after y x = false
  trans : ∀ x y z, P x → P y → P z → after x y = false → after y z = false → after x z = false

/-- Neither comes after the other. -/
def alike (after : α → α → Bool) (x y : α) : Bool := !after x y && !after y x

/-- Two neighbours in the wrong order are swapped. -/
inductive Exchange (after : α → α → Bool) : List α → List α → Prop
  | swap (u v : List α) {x y : α} (h : after x y = true) : Exchange after (u ++ x :: y :: v) (u ++ y :: x :: v)

/-- The pairs in the wrong order. -/
def inversions (after : α → α → Bool) : List α → ℕ
  | [] => 0
  | x :: l => l.countP (after x) + inversions after l

variable {after : α → α → Bool} {P : α → Prop} {l l' : List α} {x y : α}

theorem Exchange.perm (h : Exchange after l l') : l'.Perm l := by
  cases h with
  | swap u v h => exact (List.Perm.swap _ _ v).append_left u

theorem inversions_append_lt (u : List α) (hperm : l'.Perm l)
    (h : inversions after l' < inversions after l) :
    inversions after (u ++ l') < inversions after (u ++ l) := by
  induction u with
  | nil => exact h
  | cons z u ih =>
    have hcount : (u ++ l').countP (after z) = (u ++ l).countP (after z) :=
      (hperm.append_left u).countP_eq (after z)
    rw [cons_append, cons_append, inversions, inversions, hcount]
    exact Nat.add_lt_add_left ih _

theorem inversions_exchange (hpre : Preordered after P) (hP : ∀ x ∈ l, P x)
    (h : Exchange after l l') : inversions after l' < inversions after l := by
  cases h with
  | @swap u v x y h =>
    have hx : P x := hP x (mem_append_right u mem_cons_self)
    have hy : P y := hP y (mem_append_right u (mem_cons_of_mem x mem_cons_self))
    have hyx : after y x = false := by
      rcases hpre.total x y hx hy with hxy | hyx
      · rw [h] at hxy
        cases hxy
      · exact hyx
    apply inversions_append_lt u (List.Perm.swap x y v)
    have hleft : (y :: v).countP (after x) = v.countP (after x) + 1 := by
      rw [countP_cons, if_pos h]
    have hright : (x :: v).countP (after y) = v.countP (after y) := by
      rw [countP_cons, hyx]
      simp
    simp only [inversions, hleft, hright]
    omega

theorem inversions_le (after : α → α → Bool) (l : List α) :
    inversions after l ≤ l.length * l.length := by
  induction l with
  | nil => exact Nat.le_refl 0
  | cons x l ih =>
    have hcount : l.countP (after x) ≤ l.length := countP_le_length
    have hsquare : (l.length + 1) * (l.length + 1) = l.length * l.length + l.length + l.length + 1 := by
      rw [Nat.add_mul, Nat.mul_add, Nat.one_mul, Nat.mul_one]
      omega
    rw [inversions, length_cons, hsquare]
    omega

theorem Exchange.filter_alike (hpre : Preordered after P) (hP : ∀ x ∈ l, P x) (hx : P x)
    (h : Exchange after l l') : l'.filter (alike after x) = l.filter (alike after x) := by
  cases h with
  | @swap u v a b h =>
    have ha : P a := hP a (mem_append_right u mem_cons_self)
    have hb : P b := hP b (mem_append_right u (mem_cons_of_mem a mem_cons_self))
    -- not both of the two can be like `x`, since then they were like each other
    have hnot : alike after x a = false ∨ alike after x b = false := by
      rw [← Bool.not_eq_true, ← Bool.not_eq_true, ← not_and_or]
      intro hboth
      simp only [alike, Bool.and_eq_true, Bool.not_eq_true'] at hboth
      have hab : after a b = false := hpre.trans a x b ha hx hb hboth.1.2 hboth.2.1
      rw [h] at hab
      cases hab
    rw [filter_append, filter_append]
    congr 1
    rcases hnot with hno | hno
    · simp only [filter_cons, hno, Bool.false_eq_true, if_false]
    · simp only [filter_cons, hno, Bool.false_eq_true, if_false]

theorem pairwise_of_settled (hpre : Preordered after P) (hP : ∀ x ∈ l, P x)
    (h : l.IsChain fun x y => after x y = false) : l.Pairwise fun x y => after x y = false := by
  induction l with
  | nil => exact List.Pairwise.nil
  | cons x l ih =>
    have hPl : ∀ y ∈ l, P y := fun y hy => hP y (mem_cons_of_mem x hy)
    have hsorted := ih hPl h.tail
    apply List.Pairwise.cons _ hsorted
    intro y hy
    cases l with
    | nil => cases hy
    | cons z l =>
      have hxz : after x z = false := (isChain_cons_cons.1 h).1
      rcases mem_cons.1 hy with rfl | hmem
      · exact hxz
      · exact hpre.trans x z y (hP x mem_cons_self) (hPl z mem_cons_self) (hPl y hy)
          hxz (rel_of_pairwise_cons hsorted hmem)

theorem keeps_of_exchanges (hpre : Preordered after P) (hP : ∀ x ∈ l, P x)
    (h : Relation.ReflTransGen (Exchange after) l l') : l'.Perm l ∧
      inversions after l' ≤ inversions after l ∧
      ∀ x, P x → l'.filter (alike after x) = l.filter (alike after x) := by
  induction h with
  | refl => exact ⟨List.Perm.refl l, le_rfl, fun _ _ => rfl⟩
  | tail _ hstep ih =>
    obtain ⟨hperm, hinv, hfilter⟩ := ih
    have hP' : ∀ x ∈ _, P x := fun x hx => hP x (hperm.mem_iff.1 hx)
    refine ⟨hstep.perm.trans hperm, ?_, ?_⟩
    · exact Nat.le_trans (Nat.le_of_lt (inversions_exchange hpre hP' hstep)) hinv
    · intro x hx
      rw [hstep.filter_alike hpre hP' hx, hfilter x hx]

end Cleonos.Bubble
