import Cleonos.Lib.LexicalPath
import Mathlib.Data.List.DropRight

/-!
# Removal of dot segments

The algorithm of RFC 3986 for the dot segments of a path, and how it compares with the
normalisation of a lexical path.
-/

namespace Cleonos.LexicalPath

open List

variable {s t w rest q : List UInt8} {stack pieces : List (List UInt8)}

/-! ## The algorithm -/

/-- A path without its last segment and the slash in front of that. -/
def dropSegment (out : List UInt8) : List UInt8 := (out.rdropWhile (· ≠ slash)).dropLast

/-- The first segment, with the slash in front of it. -/
def firstSegment (input : List UInt8) : List UInt8 :=
  if input.head? = some slash then slash :: (input.drop 1).takeWhile (· ≠ slash)
  else input.takeWhile (· ≠ slash)

/-- The loop; its budget is one more than the length of the input. -/
def removeLoop : ℕ → List UInt8 → List UInt8 → List UInt8
  | 0, _, out => out
  | fuel + 1, input, out =>
    if input = [] then out
    else if [dot, dot, slash].isPrefixOf input then removeLoop fuel (input.drop 3) out
    else if [dot, slash].isPrefixOf input then removeLoop fuel (input.drop 2) out
    else if [slash, dot, slash].isPrefixOf input then removeLoop fuel (input.drop 2) out
    else if input = [slash, dot] then removeLoop fuel [slash] out
    else if [slash, dot, dot, slash].isPrefixOf input then
      removeLoop fuel (input.drop 3) (dropSegment out)
    else if input = [slash, dot, dot] then removeLoop fuel [slash] (dropSegment out)
    else if input = [dot] ∨ input = [dot, dot] then out
    else
      removeLoop fuel (input.drop (firstSegment input).length) (out ++ firstSegment input)

def removeDotSegments (path : List UInt8) : List UInt8 := removeLoop (path.length + 1) path []

/-- The last piece on the stack machine: a dot segment leaves a slash at the end. -/
def closing (stack : List (List UInt8)) (t : List UInt8) : List (List UInt8) :=
  if t = [dot] then stack ++ [[]]
  else if t = [dot, dot] then stack.dropLast ++ [[]]
  else stack ++ [t]

/-- The rest of a path behind a piece. -/
def Ends (rest : List UInt8) : Prop := rest = [] ∨ rest.head? = some slash

theorem ends_slashed (pieces : List (List UInt8)) : Ends (slashed pieces) := by
  cases pieces with
  | nil => exact .inl rfl
  | cons s pieces => exact .inr rfl

theorem slashed_singleton (t : List UInt8) : slashed [t] = slash :: t := by
  rw [slashed_cons, slashed_nil, append_nil]

theorem prefix_piece_iff (hw : slash ∉ w) (hs : slash ∉ s) (hrest : Ends rest) :
    w ++ [slash] <+: s ++ rest ↔ s = w ∧ rest ≠ [] := by
  induction w generalizing s with
  | nil =>
    cases s with
    | nil =>
      obtain rfl | hrest := hrest
      · simp
      · obtain ⟨rest, rfl⟩ := List.head?_eq_some_iff.1 hrest
        simp
    | cons a s =>
      have ha : slash ≠ a := fun h => hs (by rw [h]; exact mem_cons_self)
      simp [ha]
  | cons b w ih =>
    have hb : b ≠ slash := fun h => hw (by rw [h]; exact mem_cons_self)
    have hw' : slash ∉ w := fun h => hw (mem_cons_of_mem b h)
    cases s with
    | nil =>
      obtain rfl | hrest := hrest
      · simp
      · obtain ⟨rest, rfl⟩ := List.head?_eq_some_iff.1 hrest
        simp [hb]
    | cons a s =>
      have hs' : slash ∉ s := fun h => hs (mem_cons_of_mem a h)
      rw [cons_append, cons_append, cons_prefix_cons, ih hw' hs',
        List.cons.injEq, and_assoc, eq_comm]

theorem takeWhile_piece (hs : slash ∉ s) (hrest : Ends rest) :
    (s ++ rest).takeWhile (· ≠ slash) = s := by
  have hall : ∀ b ∈ s, decide (b ≠ slash) = true := by
    intro b hb
    simpa using ne_of_mem_of_not_mem hb hs
  rw [takeWhile_append_of_pos hall]
  obtain rfl | hrest := hrest
  · simp
  · obtain ⟨rest, rfl⟩ := List.head?_eq_some_iff.1 hrest
    simp

theorem rdropWhile_piece (front : List UInt8) (hs : slash ∉ s) :
    (front ++ slash :: s).rdropWhile (· ≠ slash) = front ++ [slash] := by
  induction s using List.reverseRecOn with
  | nil => exact rdropWhile_concat_neg _ _ _ (by simp)
  | append_singleton s b ih =>
    rw [mem_append, not_or, mem_singleton] at hs
    have hb : decide (b ≠ slash) = true := by simpa using Ne.symm hs.2
    rw [← cons_append, ← append_assoc, 
      rdropWhile_concat_pos (fun b => decide (b ≠ slash)) _ _ hb, ih hs.1]

theorem dropSegment_slashed (h : ∀ s ∈ stack, slash ∉ s) :
    dropSegment (slashed stack) = slashed stack.dropLast := by
  induction stack using List.reverseRecOn with
  | nil => rfl
  | append_singleton stack s _ =>
    have hs : slash ∉ s := h s (mem_append_right _ (mem_singleton.2 rfl))
    rw [dropSegment, slashed_append, slashed_singleton, rdropWhile_piece _ hs,
      dropLast_concat, dropLast_concat]

theorem notMem_normStep (h : ∀ s ∈ stack, slash ∉ s) (hs : slash ∉ s) :
    ∀ d ∈ normStep stack s, slash ∉ d := by
  intro d hd
  rw [normStep] at hd
  split at hd
  · exact h d hd
  · split at hd
    · exact h d (mem_of_mem_dropLast hd)
    · obtain hd | hd := mem_append.1 hd
      · exact h d hd
      · rwa [mem_singleton.1 hd]

variable (fuel : ℕ)

/-- A path that begins with a slash has none of the relative dot segments in front. -/
theorem removeLoop_slash (input out : List UInt8) : removeLoop (fuel + 1) (slash :: input) out =
      if [dot, slash] <+: input then removeLoop fuel (input.drop 1) out
      else if input = [dot] then removeLoop fuel [slash] out
      else if [dot, dot, slash] <+: input then removeLoop fuel (input.drop 2) (dropSegment out)
      else if input = [dot, dot] then removeLoop fuel [slash] (dropSegment out) else
        removeLoop fuel (input.drop (input.takeWhile (· ≠ slash)).length)
          (out ++ slash :: input.takeWhile (· ≠ slash)) := by
  have hne : slash ≠ dot := by decide
  rw [removeLoop]
  simp [firstSegment, isPrefixOf_iff_prefix, hne, Ne.symm hne]

theorem notMem_dot : slash ∉ [dot] := by decide

theorem notMem_dotdot : slash ∉ [dot, dot] := by decide

theorem drop_takeWhile_piece (hs : slash ∉ s) (hrest : Ends rest) :
    (s ++ rest).drop ((s ++ rest).takeWhile (· ≠ slash)).length = rest := by
  rw [takeWhile_piece hs hrest, drop_left]

theorem removeLoop_piece (hstack : ∀ s ∈ stack, slash ∉ s) (hs : slash ∉ s)
    (hrest : rest.head? = some slash) :
    removeLoop (fuel + 1) (slash :: (s ++ rest)) (slashed stack) =
      removeLoop fuel rest (slashed (normStep stack s)) := by
  have hends : Ends rest := .inr hrest
  have hne : rest ≠ [] := by
    rintro rfl
    cases hrest
  have hmem : slash ∈ s ++ rest := mem_append_right _ (mem_of_mem_head? hrest)
  have hdot : ¬ s ++ rest = [dot] := fun h => notMem_dot (h ▸ hmem)
  have hdotdot : ¬ s ++ rest = [dot, dot] := fun h => notMem_dotdot (h ▸ hmem)
  have hpre : [dot, slash] <+: s ++ rest ↔ s = [dot] :=
    (prefix_piece_iff notMem_dot hs hends).trans (and_iff_left hne)
  have hpre' : [dot, dot, slash] <+: s ++ rest ↔ s = [dot, dot] :=
    (prefix_piece_iff notMem_dotdot hs hends).trans (and_iff_left hne)
  rw [removeLoop_slash, if_neg hdot, if_neg hdotdot, normStep]
  by_cases h1 : s = [dot]
  · rw [if_pos (hpre.2 h1), if_pos h1, h1]
    rfl
  rw [if_neg fun h => h1 (hpre.1 h), if_neg h1]
  by_cases h2 : s = [dot, dot]
  · rw [if_pos (hpre'.2 h2), if_pos h2, dropSegment_slashed hstack, h2]
    rfl
  rw [if_neg fun h => h2 (hpre'.1 h), if_neg h2, drop_takeWhile_piece hs hends,
    takeWhile_piece hs hends, slashed_append, slashed_singleton]

theorem removeLoop_nil (out : List UInt8) : removeLoop fuel [] out = out := by
  cases fuel <;> rfl

theorem removeLoop_root (out : List UInt8) :
    removeLoop (fuel + 1) [slash] out = out ++ [slash] := by
  rw [removeLoop_slash]
  simp [removeLoop_nil]

theorem removeLoop_last (hstack : ∀ s ∈ stack, slash ∉ s) (ht : slash ∉ t)
    (hfuel : t.length + 1 ≤ fuel) :
    removeLoop (fuel + 1) (slash :: t) (slashed stack) = slashed (closing stack t) := by
  obtain ⟨fuel, rfl⟩ := Nat.exists_eq_add_of_le' (show 1 ≤ fuel by omega)
  have hroot : slashed [[]] = [slash] := rfl
  have hpre : ¬ [dot, slash] <+: t := fun h => ht (h.subset (by simp))
  have hpre' : ¬ [dot, dot, slash] <+: t := fun h => ht (h.subset (by simp))
  rw [removeLoop_slash, if_neg hpre, if_neg hpre', closing]
  by_cases h1 : t = [dot]
  · rw [if_pos h1, if_pos h1, removeLoop_root, slashed_append, hroot]
  rw [if_neg h1, if_neg h1]
  by_cases h2 : t = [dot, dot]
  · rw [if_pos h2, if_pos h2, dropSegment_slashed hstack, removeLoop_root, slashed_append, hroot]
  have htake : t.takeWhile (· ≠ slash) = t := by
    simpa using takeWhile_piece ht (.inl (rfl : ([] : List UInt8) = []))
  rw [if_neg h2, if_neg h2, htake, drop_length, removeLoop_nil, slashed_append,
    slashed_singleton]

theorem removeLoop_slashed (fuel : ℕ) (hstack : ∀ s ∈ stack, slash ∉ s)
    (hpieces : ∀ s ∈ pieces, slash ∉ s) (ht : slash ∉ t)
    (hfuel : (slashed (pieces ++ [t])).length ≤ fuel) :
    removeLoop (fuel + 1) (slashed (pieces ++ [t])) (slashed stack) =
      slashed (closing (pieces.foldl normStep stack) t) := by
  induction pieces generalizing fuel stack with
  | nil =>
    rw [nil_append, slashed_singleton] at hfuel ⊢
    exact removeLoop_last fuel hstack ht hfuel
  | cons s pieces ih =>
    have hs : slash ∉ s := hpieces s mem_cons_self
    rw [cons_append, slashed_cons, cons_append] at hfuel ⊢
    rw [removeLoop_piece fuel hstack hs, foldl_cons]
    · rw [length_cons, length_append] at hfuel
      obtain ⟨fuel, rfl⟩ := Nat.exists_eq_add_of_le' (show 1 ≤ fuel by omega)
      exact ih fuel (notMem_normStep hstack hs)
        (fun d hd => hpieces d (mem_cons_of_mem s hd)) (by omega)
    · cases pieces <;> rfl

/-- The algorithm runs the stack machine over the pieces of an absolute path, and closes it with
the last one. -/
theorem removeDotSegments_slashed (hpieces : ∀ s ∈ pieces, slash ∉ s) (ht : slash ∉ t) :
    removeDotSegments (slashed (pieces ++ [t])) = slashed (closing (normalise pieces) t) :=
  @removeLoop_slashed t [] pieces _ (by simp) hpieces ht le_rfl

def IsDots (s : List UInt8) : Prop := s = [dot] ∨ s = [dot, dot]

instance (s : List UInt8) : Decidable (IsDots s) := inferInstanceAs (Decidable (_ ∨ _))

theorem normStep_of_not_isDots (h : ¬ IsDots s) : normStep stack s = stack ++ [s] := by
  rw [IsDots, not_or] at h
  rw [normStep, if_neg h.1, if_neg h.2]

theorem closing_of_not_isDots (h : ¬ IsDots t) : closing stack t = stack ++ [t] := by
  rw [IsDots, not_or] at h
  rw [closing, if_neg h.1, if_neg h.2]

theorem not_isDots_foldl_normStep (hstack : ∀ s ∈ stack, ¬ IsDots s) :
    ∀ d ∈ pieces.foldl normStep stack, ¬ IsDots d := by
  refine foldl_normStep_induction (I := fun stack => ∀ d ∈ stack, ¬ IsDots d) hstack
    fun stack hstack c _ d hd => ?_
  by_cases hc : IsDots c
  · obtain rfl | rfl := hc
    · exact hstack d hd
    · exact hstack d (mem_of_mem_dropLast hd)
  · rw [normStep_of_not_isDots hc] at hd
    obtain hd | hd := mem_append.1 hd
    · exact hstack d hd
    · rwa [mem_singleton.1 hd]

theorem foldl_normStep_of_not_isDots (h : ∀ s ∈ pieces, ¬ IsDots s) :
    pieces.foldl normStep stack = stack ++ pieces := by
  induction pieces generalizing stack with
  | nil => rw [foldl_nil, append_nil]
  | cons s pieces ih =>
    rw [foldl_cons, normStep_of_not_isDots (h s mem_cons_self),
      ih fun d hd => h d (mem_cons_of_mem s hd), append_assoc, singleton_append]

/-- No piece is empty, from some place on at which the stack is empty. -/
def Settled (pieces : List (List UInt8)) : Prop :=
  ∃ n < pieces.length + 1, normalise (pieces.take n) = [] ∧ [] ∉ pieces.drop n

instance (pieces : List (List UInt8)) : Decidable (Settled pieces) :=
  inferInstanceAs (Decidable (∃ n < pieces.length + 1, _))

theorem normalise_concat (pieces : List (List UInt8)) (s : List UInt8) :
    normalise (pieces ++ [s]) = normStep (normalise pieces) s :=
  foldl_concat _ _ _ _

theorem settled_concat :
    Settled (pieces ++ [s]) ↔ s ≠ [] ∧ Settled pieces ∨ normalise (pieces ++ [s]) = [] := by
  constructor
  · rintro ⟨n, hn, hstack, hrest⟩
    rw [length_append, length_singleton] at hn
    by_cases hlast : n = pieces.length + 1
    · refine .inr ?_
      rwa [take_of_length_le (by simp [hlast])] at hstack
    · have hle : n ≤ pieces.length := by omega
      rw [take_append_of_le_length hle] at hstack
      rw [drop_append_of_le_length hle, mem_append, not_or, mem_singleton] at hrest
      exact .inl ⟨Ne.symm hrest.2, n, by omega, hstack, hrest.1⟩
  · rintro (⟨hs, n, hn, hstack, hrest⟩ | hstack)
    · have hle : n ≤ pieces.length := by omega
      refine ⟨n, by simp; omega, ?_, ?_⟩
      · rwa [take_append_of_le_length hle]
      · rw [drop_append_of_le_length hle, mem_append, not_or, mem_singleton]
        exact ⟨hrest, Ne.symm hs⟩
    · refine ⟨(pieces ++ [s]).length, by omega, ?_, by simp⟩
      rwa [take_length]

theorem normStep_of_ne (h1 : s ≠ [dot]) (h2 : s ≠ [dot, dot]) : normStep stack s = stack ++ [s] :=
  normStep_of_not_isDots (not_or.2 ⟨h1, h2⟩)

theorem normalise_filter (pieces : List (List UInt8)) :
    Settled pieces ∧ normalise (pieces.filter (· ≠ [])) = normalise pieces ∨
      ¬ Settled pieces ∧
        (normalise (pieces.filter (· ≠ []))).length < (normalise pieces).length := by
  induction pieces using List.reverseRecOn with
  | nil => exact .inl ⟨⟨0, by simp, rfl, by simp⟩, rfl⟩
  | append_singleton pieces s ih =>
    rw [settled_concat, filter_append]
    by_cases hs : s = []
    · -- An empty piece is pushed on one of the stacks only.
      subst hs
      have hpush : normalise (pieces ++ [[]]) = normalise pieces ++ [[]] := normalise_concat _ _
      have hle : (normalise (pieces.filter (· ≠ []))).length ≤ (normalise pieces).length := by
        obtain ⟨-, h⟩ | ⟨-, h⟩ := ih
        · rw [h]
        · exact h.le
      refine .inr ⟨by simp [hpush], ?_⟩
      rw [hpush, filter_singleton, length_append, length_singleton]
      simpa using Nat.lt_succ_of_le hle
    · have hone : [s].filter (· ≠ []) = [s] := by simp [hs]
      rw [hone, normalise_concat, normalise_concat]
      obtain ⟨hsettled, heq⟩ | ⟨hsettled, hlt⟩ := ih
      · exact .inl ⟨.inl ⟨hs, hsettled⟩, by rw [heq]⟩
      · simp only [hsettled, and_false, false_or]
        generalize normalise (pieces.filter (· ≠ [])) = short at *
        generalize normalise pieces = long at *
        by_cases h1 : s = [dot]
        · have hlong : long ≠ [] := ne_nil_of_length_pos (by omega)
          rw [normStep, normStep, if_pos h1, if_pos h1]
          exact .inr ⟨hlong, hlt⟩
        by_cases h2 : s = [dot, dot]
        · rw [normStep, normStep, if_neg h1, if_pos h2, if_neg h1, if_pos h2]
          by_cases hempty : long.dropLast = []
          · refine .inl ⟨hempty, ?_⟩
            have hlen := congrArg List.length hempty
            rw [length_dropLast, length_nil] at hlen
            rw [hempty]
            exact eq_nil_of_length_eq_zero (by rw [length_dropLast]; omega)
          · refine .inr ⟨hempty, ?_⟩
            have hlen := length_pos_of_ne_nil hempty
            rw [length_dropLast] at hlen
            rw [length_dropLast, length_dropLast]
            omega
        · rw [normStep_of_ne h1 h2, normStep_of_ne h1 h2]
          exact .inr ⟨by simp, by simpa using hlt⟩

theorem normalise_filter_iff :
    normalise (pieces.filter (· ≠ [])) = normalise pieces ↔ Settled pieces := by
  obtain ⟨hsettled, heq⟩ | ⟨hsettled, hlt⟩ := normalise_filter pieces
  · exact iff_of_true heq hsettled
  · refine iff_of_false (fun heq => ?_) hsettled
    rw [heq] at hlt
    exact lt_irrefl _ hlt

theorem length_normalise_filter_le (pieces : List (List UInt8)) :
    (normalise (pieces.filter (· ≠ []))).length ≤ (normalise pieces).length := by
  obtain ⟨-, heq⟩ | ⟨-, hlt⟩ := normalise_filter pieces
  · rw [heq]
  · exact hlt.le

theorem slashed_inj {xs ys : List (List UInt8)} (hxs : ∀ s ∈ xs, slash ∉ s)
    (hys : ∀ s ∈ ys, slash ∉ s) (h : slashed xs = slashed ys) : xs = ys := by
  induction xs generalizing ys with
  | nil =>
    cases ys with
    | nil => rfl
    | cons y ys => cases h
  | cons x xs ih =>
    cases ys with
    | nil => cases h
    | cons y ys =>
      rw [slashed_cons, slashed_cons, cons_append, cons_append,
        cons_inj_right] at h
      have hx := takeWhile_piece (hxs x mem_cons_self) (ends_slashed xs)
      rw [h, takeWhile_piece (hys y mem_cons_self) (ends_slashed ys)] at hx
      subst hx
      rw [ih (fun s hs => hxs s (mem_cons_of_mem _ hs))
        (fun s hs => hys s (mem_cons_of_mem _ hs)) (append_cancel_left h)]

theorem plain_normalise_filter (h : ∀ s ∈ pieces, slash ∉ s) :
    ∀ d ∈ normalise (pieces.filter (· ≠ [])), Plain d := by
  refine foldl_normStep_induction (I := fun stack => ∀ d ∈ stack, Plain d) (by simp)
    fun stack hstack c hc => ?_
  obtain ⟨hmem, hne⟩ := mem_filter.1 hc
  exact plain_normStep hstack (by simpa using hne) (h c hmem)

theorem notMem_foldl_normStep (hstack : ∀ s ∈ stack, slash ∉ s) (h : ∀ s ∈ pieces, slash ∉ s) :
    ∀ d ∈ pieces.foldl normStep stack, slash ∉ d :=
  foldl_normStep_induction (I := fun stack => ∀ d ∈ stack, slash ∉ d) hstack
    fun _ hstack c hc => notMem_normStep hstack (h c hc)

theorem closing_cases (stack : List (List UInt8)) (t : List UInt8) :
    ∃ front last, closing stack t = front ++ [last] ∧
      (t ≠ [dot] ∧ t ≠ [dot, dot] ∧ front = stack ∧ last = t ∨
        t = [dot] ∧ front = stack ∧ last = [] ∨
        t = [dot, dot] ∧ front = stack.dropLast ∧ last = []) := by
  by_cases h1 : t = [dot]
  · exact ⟨stack, [], by rw [closing, if_pos h1], .inr (.inl ⟨h1, rfl, rfl⟩)⟩
  by_cases h2 : t = [dot, dot]
  · exact ⟨stack.dropLast, [], by rw [closing, if_neg h1, if_pos h2],
      .inr (.inr ⟨h2, rfl, rfl⟩)⟩
  · exact ⟨stack, t, by rw [closing, if_neg h1, if_neg h2], .inl ⟨h1, h2, rfl, rfl⟩⟩

theorem notMem_closing (hstack : ∀ s ∈ stack, slash ∉ s) (ht : slash ∉ t) :
    ∀ s ∈ closing stack t, slash ∉ s := by
  obtain ⟨front, last, hclosing, hcases⟩ := closing_cases stack t
  intro s hs
  rw [hclosing] at hs
  obtain hs | hs := mem_append.1 hs
  · obtain ⟨-, -, rfl, -⟩ | ⟨-, rfl, -⟩ | ⟨-, rfl, -⟩ := hcases
    · exact hstack s hs
    · exact hstack s hs
    · exact hstack s (mem_of_mem_dropLast hs)
  · rw [mem_singleton.1 hs]
    obtain ⟨-, -, -, rfl⟩ | ⟨-, -, rfl⟩ | ⟨-, -, rfl⟩ := hcases
    · exact ht
    · exact not_mem_nil
    · exact not_mem_nil

theorem filter_concat_nil (pieces : List (List UInt8)) :
    (pieces ++ [[]]).filter (· ≠ []) = pieces.filter (· ≠ []) := by
  rw [filter_append, filter_singleton]
  simp

theorem filter_append_cons (pieces more : List (List UInt8)) (hs : s ≠ []) :
    (pieces ++ s :: more).filter (· ≠ []) =
      pieces.filter (· ≠ []) ++ s :: more.filter (· ≠ []) := by
  rw [filter_append, filter_cons_of_pos (by simpa using hs)]

/-- When nothing is left of a path, nothing is left of it without the empty pieces. -/
theorem normalise_eq_nil_of_closing (h : closing (normalise pieces) t = [[]]) :
    normalise ((pieces ++ [t]).filter (· ≠ [])) = [] := by
  have hle := length_normalise_filter_le pieces
  obtain ⟨front, last, hclosing, hcases⟩ := closing_cases (normalise pieces) t
  rw [hclosing] at h
  obtain ⟨rfl, hlast⟩ := @append_inj' _ front [last] [] [[]] h rfl
  obtain ⟨-, -, hempty, rfl⟩ | ⟨rfl, hempty, -⟩ | ⟨rfl, hempty, -⟩ := hcases
  · rw [← hempty, length_nil] at hle
    rw [singleton_inj.1 hlast, filter_concat_nil]
    exact eq_nil_of_length_eq_zero (by omega)
  · rw [← hempty, length_nil] at hle
    rw [filter_append_cons _ _ (by simp), filter_nil, normalise_concat, normStep, if_pos rfl]
    exact eq_nil_of_length_eq_zero (by omega)
  · have hlen := congrArg List.length hempty
    rw [length_dropLast, length_nil] at hlen
    rw [filter_append_cons _ _ (by simp), filter_nil, normalise_concat, normStep,
      if_neg (by simp), if_pos rfl]
    exact eq_nil_of_length_eq_zero (length_dropLast.trans (by omega))

section

variable (hpieces : ∀ s ∈ pieces, slash ∉ s)
include hpieces

/-- Without a query: the last piece is kept and no empty piece makes a difference, or
nothing is left of the path. -/
theorem render_eq_iff (ht : slash ∉ t) :
    render (normalise ((pieces ++ [t]).filter (· ≠ []))) = slashed (closing (normalise pieces) t) ↔
      Plain t ∧ Settled pieces ∨ closing (normalise pieces) t = [[]] := by
  have hall : ∀ s ∈ pieces ++ [t], slash ∉ s := by
    rw [forall_mem_append, forall_mem_singleton]
    exact ⟨hpieces, ht⟩
  have hplain := plain_normalise_filter hall
  have hfree : ∀ s ∈ closing (normalise pieces) t, slash ∉ s :=
    notMem_closing (notMem_foldl_normStep (by simp) hpieces) ht
  constructor
  · intro h
    by_cases hnil : normalise ((pieces ++ [t]).filter (· ≠ [])) = []
    · rw [hnil] at h
      exact .inr (@slashed_inj [[]] _ (by simp) hfree h).symm
    · rw [render_of_ne_nil hnil] at h
      have heq := slashed_inj (fun s hs => (hplain s hs).no_slash) hfree h
      obtain ⟨front, last, hclosing, hcases⟩ := closing_cases (normalise pieces) t
      have hlast : Plain last := hplain last (by rw [heq, hclosing]; simp)
      obtain ⟨-, -, rfl, rfl⟩ | ⟨-, -, rfl⟩ | ⟨-, -, rfl⟩ := hcases
      · rw [hclosing, filter_append_cons _ _ hlast.ne_nil, filter_nil, normalise_concat,
          normStep_of_ne hlast.ne_dot hlast.ne_dotdot, append_left_inj,
          normalise_filter_iff] at heq
        exact .inl ⟨hlast, heq⟩
      · exact absurd rfl hlast.ne_nil
      · exact absurd rfl hlast.ne_nil
  · rintro (⟨hlast, hsettled⟩ | hclosing)
    · rw [filter_append_cons _ _ hlast.ne_nil, filter_nil, normalise_concat,
        normalise_filter_iff.2 hsettled, normStep_of_ne hlast.ne_dot hlast.ne_dotdot, closing,
        if_neg hlast.ne_dot, if_neg hlast.ne_dotdot, render_of_ne_nil (by simp)]
    · rw [normalise_eq_nil_of_closing hclosing, hclosing]
      rfl

/-- With a query: the last piece of the path is no dot segment, no empty piece makes a
difference, and every piece of the query behind its first slash is plain. -/
theorem render_append_iff {more : List (List UInt8)}
    (ht : slash ∉ t) (hq : slash ∉ q) (hmore : ∀ s ∈ more, slash ∉ s)
    (hhead : ∀ b ∈ q.head?, b ≠ dot) (hne : q ≠ []) :
    render (normalise ((pieces ++ (t ++ q) :: more).filter (· ≠ []))) =
        slashed (closing (normalise pieces) t) ++ (q ++ slashed more) ↔
      (t ≠ [dot] ∧ t ≠ [dot, dot]) ∧ Settled pieces ∧ ∀ s ∈ more, Plain s := by
  have htq : t ++ q ≠ [] := by simp [hne]
  have htq' : slash ∉ t ++ q := by simp [ht, hq]
  have hall : ∀ s ∈ pieces ++ (t ++ q) :: more, slash ∉ s := by
    rw [forall_mem_append, forall_mem_cons]
    exact ⟨hpieces, htq', hmore⟩
  have hplain := plain_normalise_filter hall
  -- No text of dots ends in a query.
  have hdots : ∀ dots : List UInt8, (∀ b ∈ dots, b = dot) → t ++ q ≠ dots := by
    rintro dots hdots rfl
    obtain ⟨b, q, rfl⟩ := exists_cons_of_ne_nil hne
    exact hhead b rfl (hdots b (by simp))
  have h1 : t ++ q ≠ [dot] := hdots _ (by simp)
  have h2 : t ++ q ≠ [dot, dot] := hdots _ (by simp)
  obtain ⟨front, last, hclosing, hcases⟩ := closing_cases (normalise pieces) t
  have hfree : ∀ s ∈ front ++ (last ++ q) :: more, slash ∉ s := by
    have hfront := notMem_closing (@notMem_foldl_normStep [] pieces (by simp) hpieces) ht
    rw [normalise] at hclosing
    rw [hclosing, forall_mem_append, forall_mem_singleton] at hfront
    rw [forall_mem_append, forall_mem_cons]
    exact ⟨hfront.1, by simp [hfront.2, hq], hmore⟩
  have htext : slashed (closing (normalise pieces) t) ++ (q ++ slashed more) =
      slashed (front ++ (last ++ q) :: more) := by
    rw [hclosing, slashed_append, slashed_append, slashed_singleton, slashed_cons]
    simp only [append_assoc, cons_append]
  have hrun : (∀ s ∈ more, Plain s) →
      normalise ((pieces ++ (t ++ q) :: more).filter (· ≠ [])) =
        normalise (pieces.filter (· ≠ [])) ++ (t ++ q) :: more := by
    intro hplain
    have hmore : more.filter (· ≠ []) = more :=
      filter_eq_self.2 fun s hs => by simpa using (hplain s hs).ne_nil
    rw [filter_append_cons _ _ htq, hmore, normalise, foldl_append, foldl_cons,
      normStep_of_ne h1 h2, foldl_normStep_of_plain hplain, append_assoc,
      singleton_append, normalise]
  rw [htext]
  constructor
  · intro h
    by_cases hnil : normalise ((pieces ++ (t ++ q) :: more).filter (· ≠ [])) = []
    · rw [hnil] at h
      have heq := @slashed_inj [[]] _ (by simp) hfree h
      have hmem : last ++ q ∈ [[]] := by
        rw [heq]
        simp
      exact absurd (mem_singleton.1 hmem) (by simp [hne])
    · rw [render_of_ne_nil hnil] at h
      have heq := slashed_inj (fun s hs => (hplain s hs).no_slash) hfree h
      have hmore' : ∀ s ∈ more, Plain s := fun s hs => hplain s (by rw [heq]; simp [hs])
      rw [hrun hmore'] at heq
      obtain ⟨hfront, hlast⟩ := append_inj' heq rfl
      rw [List.cons.injEq, append_left_inj] at hlast
      obtain ⟨h1, h2, rfl, -⟩ | ⟨rfl, -, rfl⟩ | ⟨rfl, -, rfl⟩ := hcases
      · exact ⟨⟨h1, h2⟩, normalise_filter_iff.1 hfront, hmore'⟩
      · exact absurd hlast.1 (by simp)
      · exact absurd hlast.1 (by simp)
  · rintro ⟨⟨h1, h2⟩, hsettled, hmore'⟩
    obtain ⟨-, -, rfl, rfl⟩ | ⟨h, -⟩ | ⟨h, -⟩ := hcases
    · rw [hrun hmore', normalise_filter_iff.2 hsettled, render_of_ne_nil (by simp)]
    · exact absurd h h1
    · exact absurd h h2

theorem removeDotSegments_eq_self_iff :
    removeDotSegments (slashed pieces) = slashed pieces ↔ ∀ s ∈ pieces, ¬ IsDots s := by
  induction pieces using List.reverseRecOn with
  | nil => simp [removeDotSegments, removeLoop]
  | append_singleton pieces t _ =>
    have hall := hpieces
    rw [forall_mem_append, forall_mem_singleton] at hpieces
    rw [removeDotSegments_slashed hpieces.1 hpieces.2]
    constructor
    · intro h
      have hnorm := @notMem_foldl_normStep [] pieces (by simp) hpieces.1
      have hfree := notMem_closing hnorm hpieces.2
      have heq := slashed_inj hfree hall h
      intro s hs
      rw [← heq] at hs
      have hstack : ∀ d ∈ normalise pieces, ¬ IsDots d := not_isDots_foldl_normStep (by simp)
      obtain ⟨front, last, hclosing, hcases⟩ := closing_cases (normalise pieces) t
      rw [normalise] at hclosing hstack
      rw [hclosing, mem_append, mem_singleton] at hs
      have hnil : ¬ IsDots [] := by decide
      obtain ⟨h1, h2, rfl, rfl⟩ | ⟨-, rfl, rfl⟩ | ⟨-, rfl, rfl⟩ := hcases
      · obtain hs | rfl := hs
        · exact hstack s hs
        · exact not_or.2 ⟨h1, h2⟩
      · obtain hs | rfl := hs
        · exact hstack s hs
        · exact hnil
      · obtain hs | rfl := hs
        · exact hstack s (mem_of_mem_dropLast hs)
        · exact hnil
    · intro h
      rw [forall_mem_append, forall_mem_singleton] at h
      rw [normalise, foldl_normStep_of_not_isDots h.1, closing_of_not_isDots h.2, nil_append]

end

/-! ## Splitting -/

theorem intercalate_eq_slashed (s : List UInt8) (pieces : List (List UInt8)) :
    [slash].intercalate (s :: pieces) = s ++ slashed pieces := by
  induction pieces generalizing s with
  | nil => simp
  | cons d pieces ih =>
    rw [intercalate_cons_of_ne_nil (cons_ne_nil d pieces), ih, slashed_cons]
    simp

theorem exists_splitOn_slash (text : List UInt8) :
    ∃ s pieces, text.splitOn slash = s :: pieces ∧ text = s ++ slashed pieces ∧ slash ∉ s ∧
      ∀ d ∈ pieces, slash ∉ d := by
  obtain ⟨s, pieces, hsplit⟩ := exists_cons_of_ne_nil (splitOn_ne_nil slash text)
  have hfree : ∀ d ∈ s :: pieces, slash ∉ d := by
    intro d hd
    rw [← hsplit] at hd
    exact (of_mem_splitOn hd).1
  refine ⟨s, pieces, hsplit, ?_, hfree s mem_cons_self,
    fun d hd => hfree d (mem_cons_of_mem s hd)⟩
  rw [← intercalate_eq_slashed, ← hsplit, intercalate_splitOn]

theorem components_slashed_filter (h : ∀ s ∈ pieces, slash ∉ s) :
    components (slashed pieces) = pieces.filter (· ≠ []) := by
  rw [components, ← nil_append (slashed pieces), ← intercalate_eq_slashed,
    splitOn_intercalate slash _ (cons_ne_nil [] pieces)]
  · rfl
  · intro d hd
    obtain rfl | hd := mem_cons.1 hd
    · exact not_mem_nil
    · exact h d hd

end Cleonos.LexicalPath
