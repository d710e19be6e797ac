import Mathlib.Data.List.Nodup

/-!
# Collecting what is selected while there is room

A loop over a list takes what it selects, and stops at the first selected element without
room behind those taken.
-/

namespace Cleonos.Collect

open List

universe u
variable {α : Type u}

/-- What the loop has taken, behind `taken`. -/
def collect (sel : α → Bool) (room : List α → Bool) : List α → List α → List α
  | taken, [] => taken
  | taken, x :: xs =>
    if sel x then
      if room (taken ++ [x]) then collect sel room (taken ++ [x]) xs else taken
    else collect sel room taken xs

variable {sel want : α → Bool} {room : List α → Bool} {taken xs : List α} {x : α}

theorem exists_collect (sel : α → Bool) (room : List α → Bool) (taken xs : List α) :
    ∃ more, collect sel room taken xs = taken ++ more ∧ more.Sublist xs := by
  induction xs generalizing taken with
  | nil => exact ⟨[], (append_nil taken).symm, List.Sublist.slnil⟩
  | cons x xs ih =>
    rw [collect]
    split
    · split
      · obtain ⟨more, hmore, hsub⟩ := ih (taken ++ [x])
        exact ⟨x :: more, by rw [hmore, append_assoc, singleton_append],
          hsub.cons_cons x⟩
      · exact ⟨[], (append_nil taken).symm, nil_sublist _⟩
    · obtain ⟨more, hmore, hsub⟩ := ih taken
      exact ⟨more, hmore, hsub.cons x⟩

theorem forall_split_cons {Q : List α → α → Prop} :
    (∀ front y back, x :: xs = front ++ y :: back → Q front y) ↔
      Q [] x ∧ ∀ front y back, xs = front ++ y :: back → Q (x :: front) y := by
  constructor
  · intro h
    exact ⟨h [] x xs rfl, fun front y back hxs => h (x :: front) y back (by rw [hxs]; rfl)⟩
  · rintro ⟨hx, hxs⟩ front y back heq
    cases front with
    | nil =>
      cases heq
      exact hx
    | cons z front =>
      rw [cons_append] at heq
      cases heq
      exact hxs front y back rfl

theorem split_unique {a b front back : List α} {y : α} (ha : ∀ z ∈ a, sel z = false)
    (hb : ∀ z ∈ b, sel z = false) (hy : sel y = true) (h : a ++ x :: b = front ++ y :: back) :
    front = a ∧ y = x ∧ back = b := by
  induction a generalizing front with
  | nil =>
    cases front with
    | nil =>
      cases h
      exact ⟨rfl, rfl, rfl⟩
    | cons z front =>
      rw [nil_append, cons_append, List.cons.injEq] at h
      have hmem : y ∈ b := by
        rw [h.2]
        exact mem_append_right _ mem_cons_self
      rw [hb y hmem] at hy
      exact Bool.noConfusion hy
  | cons z a ih =>
    cases front with
    | nil =>
      rw [cons_append, nil_append, List.cons.injEq] at h
      rw [← h.1, ha z mem_cons_self] at hy
      exact Bool.noConfusion hy
    | cons w front =>
      rw [cons_append, cons_append, List.cons.injEq] at h
      obtain ⟨hfront, hrest⟩ := ih (fun u hu => ha u (mem_cons_of_mem z hu)) h.2
      exact ⟨by rw [hfront, h.1], hrest⟩

theorem filter_eq_nil_iff_split :
    xs.filter want = [] ↔ ∀ front y back, xs = front ++ y :: back → ¬ want y = true := by
  rw [filter_eq_nil_iff]
  constructor
  · intro h front y back hxs
    exact h y (by rw [hxs]; exact mem_append_right _ mem_cons_self)
  · intro h y hy
    obtain ⟨front, back, hxs⟩ := append_of_mem hy
    exact h front y back hxs

/-- The loop takes what is wanted when it selects and has room for just that. An element counts
with all that is selected in front of it, also behind the place where the loop has stopped. -/
theorem collect_eq_append_filter_iff (hroom : ∀ l m, room (l ++ m) = true → room l = true)
    (hxs : xs.Nodup) :
    collect sel room taken xs = taken ++ xs.filter want ↔
      ∀ front x back, xs = front ++ x :: back →
        ((sel x = true ∧ room (taken ++ (front ++ [x]).filter sel) = true) ↔ want x = true) := by
  induction xs generalizing taken with
  | nil => simp [collect]
  | cons x xs ih =>
    rw [nodup_cons] at hxs
    rw [forall_split_cons, collect]
    by_cases hsel : sel x = true
    · have hone : ∀ front : List α, taken ++ (x :: front).filter sel =
          taken ++ [x] ++ front.filter sel := by
        intro front
        rw [filter_cons_of_pos hsel, append_assoc, singleton_append]
      by_cases hfits : room (taken ++ [x]) = true
      · rw [if_pos hsel, if_pos hfits]
        by_cases hwant : want x = true
        · have hhead := @ih (taken ++ [x]) hxs.2
          simp only [filter_cons_of_pos hwant, nil_append, cons_append, hone,
            filter_nil, append_nil, hsel, hfits, hwant, true_and]
          rw [← hhead, append_assoc, singleton_append]
        · refine iff_of_false (fun heq => ?_) fun h => ?_
          · obtain ⟨more, hmore, -⟩ := exists_collect sel room (taken ++ [x]) xs
            rw [filter_cons_of_neg hwant, hmore, append_assoc,
              append_right_inj, singleton_append] at heq
            have hmem : x ∈ xs.filter want := by
              rw [← heq]
              exact mem_cons_self
            exact hxs.1 (mem_filter.1 hmem).1
          · refine hwant (h.1.1 ⟨hsel, ?_⟩)
            rwa [nil_append, hone, filter_nil, append_nil]
      · rw [if_pos hsel, if_neg hfits]
        -- The loop stops, and what is behind has no room either.
        have hnone : ∀ front : List α, ¬ room (taken ++ (x :: front).filter sel) = true := by
          intro front hfront
          rw [hone] at hfront
          exact hfits (hroom _ _ hfront)
        have hleft : taken = taken ++ (x :: xs).filter want ↔ (x :: xs).filter want = [] := by
          constructor
          · intro h
            exact append_right_eq_self.1 h.symm
          · intro h
            rw [h, append_nil]
        rw [hleft, filter_eq_nil_iff_split, forall_split_cons]
        simp only [nil_append, cons_append, hnone, Bool.false_eq_true, and_false,
          false_iff]
    · rw [if_neg hsel]
      have hskip : ∀ front : List α, (x :: front).filter sel = front.filter sel :=
        fun front => filter_cons_of_neg hsel
      by_cases hwant : want x = true
      · refine iff_of_false (fun heq => ?_) fun h => hsel (h.1.2 hwant).1
        obtain ⟨more, hmore, hsub⟩ := exists_collect sel room taken xs
        rw [filter_cons_of_pos hwant, hmore, append_right_inj] at heq
        exact hxs.1 (hsub.mem (by rw [heq]; exact mem_cons_self))
      · simp only [filter_cons_of_neg hwant, nil_append, cons_append, hskip, hsel,
          hwant, Bool.false_eq_true, false_and, true_and]
        exact ih hxs.2

theorem collect_eq_filter_iff (hroom : ∀ l m, room (l ++ m) = true → room l = true)
    (hxs : xs.Nodup) :
    collect sel room [] xs = xs.filter want ↔
      ∀ front x back, xs = front ++ x :: back →
        ((sel x = true ∧ room ((front ++ [x]).filter sel) = true) ↔ want x = true) :=
  @collect_eq_append_filter_iff α sel want room [] xs hroom hxs

/-! ## A table without repetitions -/

section Table

variable [BEq α] [LawfulBEq α] {cap : ℕ}

/-- The table with an element, if there is room for it and it is not in the table. -/
def addNew (cap : ℕ) (taken : List α) (x : α) : List α :=
  if taken.length ≥ cap then taken
  else if x ∈ taken then taken
  else taken ++ [x]

theorem length_addNew_le (h : taken.length ≤ cap) (x : α) : (addNew cap taken x).length ≤ cap := by
  rw [addNew]
  split
  · exact h
  split
  · exact h
  · rw [length_append, length_singleton]
    omega

/-- The table holds the first elements of a list without repetitions, behind those in it. -/
theorem foldl_addNew (h : taken.length ≤ cap) (xs : List α) :
    xs.foldl (addNew cap) taken =
      (taken ++ (xs.filter fun x => decide (x ∉ taken)).eraseDups).take cap := by
  induction xs generalizing taken with
  | nil => simp [take_of_length_le h]
  | cons x xs ih =>
    rw [foldl_cons, ih (length_addNew_le h x), addNew]
    by_cases hfull : taken.length ≥ cap
    · have hlen : taken.length = cap := Nat.le_antisymm h hfull
      rw [if_pos hfull, take_append_of_le_length (Nat.le_of_eq hlen.symm),
        take_append_of_le_length (Nat.le_of_eq hlen.symm)]
    rw [if_neg hfull]
    by_cases hmem : x ∈ taken
    · rw [if_pos hmem, filter_cons_of_neg (by simpa using hmem)]
    · have hrest : (xs.filter fun y => decide (y ∉ taken ++ [x])) =
          (xs.filter fun y => decide (y ∉ taken)).filter fun y => !y == x := by
        rw [filter_filter]
        refine filter_congr fun y _ => ?_
        by_cases hy : y = x
        · simp [hy]
        · simp [hy]
      rw [if_neg hmem, filter_cons_of_pos (by simpa using hmem), eraseDups_cons, hrest,
        append_assoc, singleton_append]

end Table

end Cleonos.Collect
