import Mathlib.Data.List.DropRight
import Mathlib.Tactic.Common
import Mathlib.Algebra.Order.Ring.Nat

/-!
# Lines

A text as a list of lines, each ended by a separator, and what is left behind the last.
-/

namespace Cleonos.Lines

open List

universe u
variable {α : Type u} [DecidableEq α] {sep : α} {s t l : List α} {ls : List (List α)}

/-- The lines, each with its separator. -/
def unlines (sep : α) (ls : List (List α)) : List α := ls.flatMap fun l => l ++ [sep]

/-- What is behind the last separator. -/
def lastLine (sep : α) (s : List α) : List α := s.rtakeWhile (· ≠ sep)

omit [DecidableEq α] in
@[simp] theorem unlines_nil : unlines sep ([] : List (List α)) = [] := rfl

omit [DecidableEq α] in
@[simp] theorem unlines_cons : unlines sep (l :: ls) = l ++ sep :: unlines sep ls := by
  simp [unlines]

omit [DecidableEq α] in
@[simp] theorem unlines_append {ls' : List (List α)} :
    unlines sep (ls ++ ls') = unlines sep ls ++ unlines sep ls' := by
  simp [unlines]

theorem splitOn_line (h : sep ∉ l) : (l ++ sep :: t).splitOn sep = l :: t.splitOn sep := by
  rw [splitOn_append_cons_self, splitOn_eq_singleton h, singleton_append]

theorem splitOn_head (h : sep ∉ s) :
    ∃ first rest, (s ++ t).splitOn sep = (s ++ first) :: rest := by
  by_cases ht : sep ∈ t
  · obtain ⟨l, t', rfl, hl⟩ := eq_append_cons_of_mem ht
    refine ⟨l, t'.splitOn sep, ?_⟩
    rw [← append_assoc, splitOn_line (by simp [h, hl])]
  · exact ⟨t, [], splitOn_eq_singleton (by simp [h, ht])⟩

theorem splitOn_append_of_notMem (h : sep ∉ s) :
    (s ++ t).splitOn sep = (t.splitOn sep).modifyHead (s ++ ·) := by
  induction s with
  | nil => exact (congrFun modifyHead_id (t.splitOn sep)).symm
  | cons a s ih =>
    have ha : ¬ (a == sep) = true := by
      rw [beq_iff_eq]
      exact fun heq => h (heq ▸ mem_cons_self)
    rw [cons_append, splitOn_cons_eq_if_modifyHead, if_neg ha,
      ih fun hmem => h (mem_cons_of_mem a hmem), modifyHead_modifyHead]
    rfl

theorem splitOn_unlines_append (h : ∀ l ∈ ls, sep ∉ l) :
    (unlines sep ls ++ t).splitOn sep = ls ++ t.splitOn sep := by
  induction ls with
  | nil => rfl
  | cons l ls ih =>
    rw [unlines_cons, append_assoc, cons_append, splitOn_line (h l (by simp)),
      ih fun l hl => h l (by simp [hl]), cons_append]

theorem lastLine_append_of_notMem (h : sep ∉ t) : lastLine sep (s ++ t) = lastLine sep s ++ t := by
  induction t using List.reverseRecOn with
  | nil => simp
  | append_singleton t c ih =>
    have hc : c ≠ sep := fun hc => h (by simp [hc])
    have ht : sep ∉ t := fun ht => h (by simp [ht])
    rw [← append_assoc, lastLine, rtakeWhile_concat_pos _ _ _ (by simpa using hc)]
    have ih := ih ht
    rw [lastLine] at ih
    rw [ih, append_assoc]

theorem lastLine_concat_sep : lastLine sep (s ++ [sep]) = [] :=
  rtakeWhile_concat_neg _ _ _ (by simp)

theorem exists_lines (sep : α) (s : List α) : ∃ ls, (∀ l ∈ ls, sep ∉ l) ∧
    s = unlines sep ls ++ lastLine sep s ∧ sep ∉ lastLine sep s := by
  induction s using List.reverseRecOn with
  | nil => exact ⟨[], by simp, rfl, by simp [lastLine]⟩
  | append_singleton s c ih =>
    obtain ⟨ls, hls, hs, hlast⟩ := ih
    by_cases hc : c = sep
    · subst hc
      refine ⟨ls ++ [lastLine c s], ?_, ?_, ?_⟩
      · intro l hl
        rcases mem_append.1 hl with hl | hl
        · exact hls l hl
        · rw [mem_singleton.1 hl]
          exact hlast
      · rw [lastLine_concat_sep, unlines_append, append_nil, unlines_cons, unlines_nil,
          ← append_assoc, ← hs]
      · rw [lastLine_concat_sep]
        exact not_mem_nil
    · have hlast' : lastLine sep (s ++ [c]) = lastLine sep s ++ [c] :=
        lastLine_append_of_notMem (by simpa using Ne.symm hc)
      refine ⟨ls, hls, ?_, ?_⟩
      · rw [hlast', ← append_assoc, ← hs]
      · rw [hlast']
        simp [hlast, Ne.symm hc]

theorem mem_of_mem_splitOn {a : α} (hl : l ∈ s.splitOn sep) (ha : a ∈ l) : a ∈ s := by
  obtain ⟨ls, hls, hs, hlast⟩ := exists_lines sep s
  generalize lastLine sep s = last at hs hlast
  subst hs
  rw [splitOn_unlines_append hls, splitOn_eq_singleton hlast] at hl
  rcases mem_append.1 hl with hl | hl
  · exact mem_append_left _ (mem_flatMap.2 ⟨l, hl, mem_append_left _ ha⟩)
  · rw [mem_singleton.1 hl] at ha
    exact mem_append_right _ ha

theorem notMem_of_mem_splitOn (hl : l ∈ s.splitOn sep) : sep ∉ l := by
  obtain ⟨ls, hls, hs, hlast⟩ := exists_lines sep s
  generalize lastLine sep s = last at hs hlast
  subst hs
  rw [splitOn_unlines_append hls, splitOn_eq_singleton hlast] at hl
  rcases mem_append.1 hl with hl | hl
  · exact hls l hl
  · rw [mem_singleton.1 hl]
    exact hlast

/-! ## Texts written one behind the other -/

theorem length_splitOn (s : List α) : (s.splitOn sep).length = s.count sep + 1 := by
  induction s with
  | nil => rfl
  | cons a s ih =>
    rw [splitOn_cons_eq_if_modifyHead, count_cons]
    split
    · rw [length_cons, ih]
    · rw [length_modifyHead, ih, Nat.add_zero]

theorem sum_length_splitOn (s : List α) :
    ((s.splitOn sep).map fun l => l.length + 1).sum = s.length + 1 := by
  induction s with
  | nil => rfl
  | cons a s ih =>
    obtain ⟨first, rest, hsplit⟩ := exists_cons_of_ne_nil (splitOn_ne_nil sep s)
    rw [hsplit, map_cons, sum_cons] at ih
    rw [splitOn_cons_eq_if_modifyHead, hsplit, length_cons]
    split
    · rw [map_cons, map_cons, sum_cons, sum_cons, length_nil]
      omega
    · rw [modifyHead_cons, map_cons, sum_cons, length_cons]
      omega

theorem splitOn_concat_sep (s : List α) : (s ++ [sep]).splitOn sep = s.splitOn sep ++ [[]] := by
  rw [splitOn_append_cons_self]
  rfl

/-- A text with at most one separator, at its end. -/
def AtMostLine (sep : α) (w : List α) : Prop := sep ∉ w ∨ ∃ l, sep ∉ l ∧ w = l ++ [sep]

theorem AtMostLine.count_le {w : List α} (h : AtMostLine sep w) : w.count sep ≤ 1 := by
  rcases h with h | ⟨l, hl, rfl⟩
  · rw [count_eq_zero.2 h]
    exact Nat.zero_le 1
  · rw [count_append, count_eq_zero.2 hl]
    simp

theorem count_flatMap_le {ws : List (List α)} (h : ∀ w ∈ ws, AtMostLine sep w) :
    (ws.flatMap id).count sep ≤ ws.length := by
  induction ws with
  | nil => simp
  | cons w ws ih =>
    have hw := (h w (by simp)).count_le
    have hws := ih fun w hw => h w (by simp [hw])
    rw [flatMap_cons, count_append, length_cons, id]
    omega

/-- Texts of at most a line each have the given lines exactly when each but the last is a given
line with its separator, and the last a given line without one. -/
theorem splitOn_flatMap_iff {init : List (List α × List α)} {last : List α × List α}
    (hw : ∀ p ∈ init ++ [last], AtMostLine sep p.1) (he : ∀ p ∈ init ++ [last], sep ∉ p.2)
    (hnil : last.2 = [] → last.1 = []) :
    (init.flatMap Prod.fst ++ last.1).splitOn sep = init.map Prod.snd ++ [last.2] ↔
      (∀ p ∈ init, p.1 = p.2 ++ [sep]) ∧ last.1 = last.2 := by
  induction init with
  | nil =>
    simp only [flatMap_nil, nil_append, map_nil, not_mem_nil, false_implies,
      implies_true, true_and]
    rcases hw last (by simp) with hlast | ⟨l, -, hlast⟩
    · rw [splitOn_eq_singleton hlast, List.cons.injEq]
      simp
    · rw [hlast, splitOn_concat_sep]
      constructor
      · intro h
        have hlen := congrArg List.length h
        simp [length_splitOn] at hlen
      · intro h
        have hsep := he last (by simp)
        rw [← h] at hsep
        simp at hsep
  | cons p init ih =>
    have ih := ih (fun q hq => hw q (mem_cons_of_mem _ hq))
      fun q hq => he q (mem_cons_of_mem _ hq)
    rw [flatMap_cons, append_assoc, map_cons, cons_append]
    rcases hw p (by simp) with hp | ⟨l, hl, hp⟩
    · -- one separator is missing, so the last text has to end with one
      constructor
      · intro h
        exfalso
        have hlen := congrArg List.length h
        have hcount : (init.flatMap Prod.fst).count sep ≤ init.length := by
          have hle := @count_flatMap_le _ _ sep (init.map Prod.fst) fun w hw' => by
            obtain ⟨q, hq, rfl⟩ := mem_map.1 hw'
            exact hw q (by simp [hq])
          rwa [flatMap_map, length_map] at hle
        rw [length_splitOn, count_append, count_append, count_eq_zero.2 hp,
          length_cons, length_append, length_map, length_singleton] at hlen
        rcases hw last (by simp) with hlast | ⟨l, -, hlast⟩
        · rw [count_eq_zero.2 hlast] at hlen
          omega
        · rw [hlast, ← append_assoc, ← append_assoc, splitOn_concat_sep] at h
          have hends := congrArg List.getLast? h
          rw [List.getLast?_concat, ← cons_append, List.getLast?_concat,
            Option.some.injEq] at hends
          rw [hnil hends.symm] at hlast
          simp at hlast
      · intro h
        have hsep := h.1 p (by simp)
        rw [hsep] at hp
        simp at hp
    · rw [hp, append_assoc, singleton_append, splitOn_line hl, List.cons.injEq, ih]
      simp [hp, and_assoc]

/-- The lines with their separators; the last line may lack it. -/
def rows (sep : α) : List α → List (List α)
  | [] => []
  | a :: s =>
    if a = sep then [a] :: rows sep s
    else
      match rows sep s with
      | [] => [[a]]
      | r :: rs => (a :: r) :: rs

/-- The lines without their separators. -/
def lines (sep : α) : List α → List (List α)
  | [] => []
  | a :: s =>
    if a = sep then [] :: lines sep s
    else
      match lines sep s with
      | [] => [[a]]
      | l :: ls => (a :: l) :: ls

@[simp] theorem rows_nil : rows sep ([] : List α) = [] := rfl

@[simp] theorem lines_nil : lines sep ([] : List α) = [] := rfl

theorem rows_sep_cons (s : List α) : rows sep (sep :: s) = [sep] :: rows sep s := by
  rw [rows, if_pos rfl]

theorem lines_sep_cons (s : List α) : lines sep (sep :: s) = [] :: lines sep s := by
  rw [lines, if_pos rfl]

theorem rows_cons_of_ne {a : α} (h : a ≠ sep) (s : List α) :
    (rows sep s = [] ∧ rows sep (a :: s) = [[a]]) ∨
      ∃ r rs, rows sep s = r :: rs ∧ rows sep (a :: s) = (a :: r) :: rs := by
  rw [rows, if_neg h]
  cases rows sep s with
  | nil => exact .inl ⟨rfl, rfl⟩
  | cons r rs => exact .inr ⟨r, rs, rfl, rfl⟩

theorem lines_cons_of_ne {a : α} (h : a ≠ sep) (s : List α) :
    (lines sep s = [] ∧ lines sep (a :: s) = [[a]]) ∨
      ∃ l ls, lines sep s = l :: ls ∧ lines sep (a :: s) = (a :: l) :: ls := by
  rw [lines, if_neg h]
  cases lines sep s with
  | nil => exact .inl ⟨rfl, rfl⟩
  | cons l ls => exact .inr ⟨l, ls, rfl, rfl⟩

theorem take_rows_cons_of_ne {a : α} (h : a ≠ sep) (s : List α) (n : ℕ) :
    ((rows sep (a :: s)).take (n + 1)).flatten = a :: ((rows sep s).take (n + 1)).flatten := by
  rcases rows_cons_of_ne h s with ⟨hnil, hcons⟩ | ⟨r, rs, hrows, hcons⟩
  · rw [hnil, hcons, take_succ_cons, take_nil, take_nil]
    rfl
  · rw [hrows, hcons, take_succ_cons, take_succ_cons, flatten_cons,
      flatten_cons, cons_append]

theorem flatten_rows (sep : α) (s : List α) : (rows sep s).flatten = s := by
  induction s with
  | nil => rfl
  | cons a s ih =>
    by_cases h : a = sep
    · subst h
      rw [rows_sep_cons, flatten_cons, ih, singleton_append]
    · rcases rows_cons_of_ne h s with ⟨hnil, hcons⟩ | ⟨r, rs, hrows, hcons⟩
      · rw [hnil] at ih
        rw [hcons, ← ih]
        rfl
      · rw [hrows] at ih
        rw [hcons, flatten_cons, cons_append, ← flatten_cons, ih]

theorem rows_eq_nil_iff : rows sep s = [] ↔ s = [] := by
  constructor
  · intro h
    rw [← flatten_rows sep s, h, flatten_nil]
  · intro h
    rw [h, rows_nil]

theorem lines_eq_nil_iff : lines sep s = [] ↔ s = [] := by
  cases s with
  | nil => exact iff_of_true rfl rfl
  | cons a s =>
    refine iff_of_false ?_ (cons_ne_nil a s)
    by_cases h : a = sep
    · subst h
      rw [lines_sep_cons]
      exact cons_ne_nil _ _
    · rcases lines_cons_of_ne h s with ⟨-, hcons⟩ | ⟨l, ls, -, hcons⟩
      · rw [hcons]
        exact cons_ne_nil _ _
      · rw [hcons]
        exact cons_ne_nil _ _

theorem rows_of_notMem (h : sep ∉ s) (hne : s ≠ []) : rows sep s = [s] := by
  induction s with
  | nil => exact absurd rfl hne
  | cons a s ih =>
    have ha : a ≠ sep := fun heq => h (heq ▸ mem_cons_self)
    rcases rows_cons_of_ne ha s with ⟨hnil, hcons⟩ | ⟨r, rs, hrows, hcons⟩
    · rw [hcons, rows_eq_nil_iff.1 hnil]
    · have hs : s ≠ [] := by
        intro hnil
        rw [hnil, rows_nil] at hrows
        cases hrows
      rw [ih (fun hmem => h (mem_cons_of_mem a hmem)) hs] at hrows
      cases hrows
      exact hcons

theorem lines_of_notMem (h : sep ∉ s) (hne : s ≠ []) : lines sep s = [s] := by
  induction s with
  | nil => exact absurd rfl hne
  | cons a s ih =>
    have ha : a ≠ sep := fun heq => h (heq ▸ mem_cons_self)
    rcases lines_cons_of_ne ha s with ⟨hnil, hcons⟩ | ⟨l, ls, hlines, hcons⟩
    · rw [hcons, lines_eq_nil_iff.1 hnil]
    · have hs : s ≠ [] := by
        intro hnil
        rw [hnil, lines_nil] at hlines
        cases hlines
      rw [ih (fun hmem => h (mem_cons_of_mem a hmem)) hs] at hlines
      cases hlines
      exact hcons

theorem lines_line_append (h : sep ∉ l) : lines sep (l ++ sep :: t) = l :: lines sep t := by
  induction l with
  | nil => exact lines_sep_cons t
  | cons a l ih =>
    have hne : a ≠ sep := fun heq => h (heq ▸ mem_cons_self)
    have ih := ih fun hmem => h (mem_cons_of_mem a hmem)
    rw [cons_append]
    rcases lines_cons_of_ne hne (l ++ sep :: t) with ⟨hnil, -⟩ | ⟨k, ks, hlines, hcons⟩
    · rw [ih] at hnil
      cases hnil
    · rw [ih] at hlines
      cases hlines
      exact hcons

theorem lines_unlines (h : ∀ l ∈ ls, sep ∉ l) : lines sep (unlines sep ls) = ls := by
  induction ls with
  | nil => rfl
  | cons l ls ih =>
    rw [unlines_cons, lines_line_append (h l mem_cons_self),
      ih fun l hl => h l (mem_cons_of_mem _ hl)]

theorem mem_of_mem_lines (hl : l ∈ lines sep s) : sep ∉ l ∧ ∀ a ∈ l, a ∈ s := by
  induction s generalizing l with
  | nil => cases hl
  | cons a s ih =>
    by_cases h : a = sep
    · subst h
      rw [lines_sep_cons] at hl
      rcases mem_cons.1 hl with rfl | hmem
      · exact ⟨not_mem_nil, fun b hb => absurd hb not_mem_nil⟩
      · exact ⟨(ih hmem).1, fun b hb => mem_cons_of_mem _ ((ih hmem).2 b hb)⟩
    · rcases lines_cons_of_ne h s with ⟨-, hcons⟩ | ⟨k, ks, hlines, hcons⟩
      · rw [hcons, mem_singleton] at hl
        subst hl
        constructor
        · intro hmem
          exact h (mem_singleton.1 hmem).symm
        · intro b hb
          rw [mem_singleton.1 hb]
          exact mem_cons_self
      · rw [hcons] at hl
        rw [hlines] at ih
        rcases mem_cons.1 hl with rfl | hmem
        · obtain ⟨hsep, hin⟩ := ih mem_cons_self
          constructor
          · intro hmem
            rcases mem_cons.1 hmem with heq | hmem
            · exact h heq.symm
            · exact hsep hmem
          · intro b hb
            rcases mem_cons.1 hb with rfl | hmem
            · exact mem_cons_self
            · exact mem_cons_of_mem _ (hin b hmem)
        · obtain ⟨hsep, hin⟩ := ih (mem_cons_of_mem k hmem)
          exact ⟨hsep, fun b hb => mem_cons_of_mem _ (hin b hb)⟩

end Cleonos.Lines

namespace Cleonos.Split

open List

universe u
variable {α : Type u} [BEq α] [LawfulBEq α] {sep c : α} {xs last : List α} {front : List (List α)}

theorem splitOn_append_sep (sep : α) (xs : List α) :
    (xs ++ [sep]).splitOn sep = xs.splitOn sep ++ [[]] := by
  rw [splitOn_append_cons_self]
  rfl

omit [LawfulBEq α] in
theorem exists_splitOn (sep : α) (xs : List α) :
    ∃ front last, xs.splitOn sep = front ++ [last] :=
  ⟨_, _, (dropLast_concat_getLast (splitOn_ne_nil sep xs)).symm⟩

theorem splitOn_append_of_ne (h : xs.splitOn sep = front ++ [last]) (hc : c ≠ sep) :
    (xs ++ [c]).splitOn sep = front ++ [last ++ [c]] := by
  induction xs generalizing front last with
  | nil =>
    have hone : ([] : List α) :: [] = front ++ [last] := h
    cases front with
    | nil =>
      cases hone
      exact splitOn_eq_singleton (by simpa using hc.symm)
    | cons first front => simp at hone
  | cons first xs ih =>
    rw [cons_append, splitOn_cons_eq_if_modifyHead] at *
    obtain ⟨front', last', hsplit⟩ := exists_splitOn sep xs
    rw [hsplit] at h
    rw [ih hsplit]
    split
    case isTrue hfirst =>
      rw [if_pos hfirst, ← cons_append] at h
      obtain ⟨rfl, hlast⟩ := append_inj' h rfl
      cases hlast
      rfl
    case isFalse hfirst =>
      rw [if_neg hfirst] at h
      cases front' with
      | nil =>
        rw [nil_append, modifyHead_cons, ← nil_append [first :: last']] at h
        obtain ⟨rfl, hlast⟩ := append_inj' h rfl
        cases hlast
        rfl
      | cons head front' =>
        rw [cons_append, modifyHead_cons, ← cons_append] at h
        obtain ⟨rfl, hlast⟩ := append_inj' h rfl
        cases hlast
        rfl

omit [BEq α] [LawfulBEq α] in
theorem intercalate_append_last (xs last : List α) (h : front ≠ []) :
    xs.intercalate (front ++ [last]) = xs.intercalate front ++ (xs ++ last) := by
  induction front with
  | nil => exact absurd rfl h
  | cons first front ih =>
    cases front with
    | nil => simp
    | cons second front =>
      have hne : second :: front ≠ [] := cons_ne_nil _ _
      have hne' : second :: front ++ [last] ≠ [] := cons_ne_nil _ _
      rw [cons_append, intercalate_cons_of_ne_nil hne', ih hne,
        intercalate_cons_of_ne_nil hne]
      simp only [append_assoc]

theorem sum_length_splitOn (sep : α) (xs : List α) :
    ((xs.splitOn sep).map fun piece => piece.length + 1).sum = xs.length + 1 := by
  induction xs with
  | nil => rfl
  | cons x xs ih =>
    rw [splitOn_cons_eq_if_modifyHead]
    split
    · rw [map_cons, sum_cons, ih, length_cons, length_nil]
      omega
    · cases hsplit : xs.splitOn sep with
      | nil => exact absurd hsplit (splitOn_ne_nil sep xs)
      | cons first rest =>
        rw [hsplit, map_cons, sum_cons] at ih
        rw [modifyHead_cons, map_cons, sum_cons, length_cons,
          length_cons]
        omega

end Cleonos.Split
