import Mathlib.Data.List.DropRight

/-!
# Words

The first word of a text and what is behind it, where `sp` tells the spaces.
-/

namespace Cleonos.Words

open List Option

universe u
variable {α : Type u} {sp : α → Bool} {s : List α} {c : α}

/-- The first word of a text. -/
def word (sp : α → Bool) (s : List α) : List α := (s.dropWhile sp).takeWhile (! sp ·)

/-- The text behind the first word and the spaces that end it. -/
def behind (sp : α → Bool) (s : List α) : List α :=
  ((s.dropWhile sp).dropWhile (! sp ·)).dropWhile sp

/-- The words of a text: the pieces between the spaces that are not empty. -/
def words (sp : α → Bool) (s : List α) : List (List α) := (s.splitOnP sp).filter (! ·.isEmpty)

theorem of_mem_word (h : c ∈ word sp s) : sp c = false := by
  have hc := mem_takeWhile_imp h
  simpa using hc

theorem word_subset (h : c ∈ word sp s) : c ∈ s :=
  (dropWhile_suffix _).subset ((List.takeWhile_prefix _).subset h)

theorem behind_subset (h : c ∈ behind sp s) : c ∈ s :=
  (dropWhile_suffix _).subset ((dropWhile_suffix _).subset
    ((dropWhile_suffix _).subset h))

theorem length_word_le (sp : α → Bool) (s : List α) : (word sp s).length ≤ s.length :=
  (List.takeWhile_prefix _).length_le.trans (dropWhile_suffix _).length_le

theorem length_behind_le (sp : α → Bool) (s : List α) : (behind sp s).length ≤ s.length :=
  (dropWhile_suffix _).length_le.trans
    ((dropWhile_suffix _).length_le.trans (dropWhile_suffix _).length_le)

theorem word_ne_nil_iff : word sp s ≠ [] ↔ s.dropWhile sp ≠ [] := by
  constructor
  · intro h hnil
    rw [word, hnil] at h
    exact h rfl
  · intro h
    obtain ⟨c, t, hc⟩ := exists_cons_of_ne_nil h
    have hspace := head_dropWhile_not sp h
    simp only [hc, head_cons] at hspace
    simp [word, hc, hspace]

theorem dropWhile_behind (sp : α → Bool) (s : List α) :
    (behind sp s).dropWhile sp = behind sp s :=
  dropWhile_idempotent _ _

theorem word_dropWhile (sp : α → Bool) (s : List α) : word sp (s.dropWhile sp) = word sp s := by
  rw [word, dropWhile_idempotent]
  rfl

theorem word_rdropWhile (h : s.dropWhile sp = s) : word sp (s.rdropWhile sp) = word sp s := by
  have hsplit := @rdropWhile_append_rtakeWhile _ sp s
  have hspaces : ∀ c ∈ s.rtakeWhile sp, sp c = true := fun c hc => mem_rtakeWhile_imp hc
  have hhead : (s.rdropWhile sp).dropWhile sp = s.rdropWhile sp := by
    cases hfront : s.rdropWhile sp with
    | nil => rfl
    | cons c t =>
      rw [hfront] at hsplit
      rw [← hsplit, cons_append] at h
      refine dropWhile_cons_of_neg fun hc => ?_
      have hlen := congrArg List.length h
      rw [dropWhile_cons_of_pos hc] at hlen
      have hle := (dropWhile_suffix (l := t ++ s.rtakeWhile sp) sp).length_le
      simp only [length_cons] at hlen
      omega
  rw [word, word, hhead, h]
  generalize s.rdropWhile sp = front at *
  generalize s.rtakeWhile sp = back at *
  rw [← hsplit]
  clear hsplit hhead h
  induction front with
  | nil =>
    cases back with
    | nil => rfl
    | cons c back => simp [hspaces c]
  | cons c front ih =>
    by_cases hc : sp c = true
    · simp [hc]
    · simp [hc, ih]

/-- A text is a word, spaces in front of it and behind it, and a rest that does not start with a
space; there are spaces between the word and the rest. -/
def Splits (sp : α → Bool) (s w rest : List α) : Prop :=
  ∃ lead gap, s = lead ++ w ++ gap ++ rest ∧ (∀ c ∈ lead, sp c = true) ∧ w ≠ [] ∧
    (∀ c ∈ w, sp c = false) ∧ (∀ c ∈ gap, sp c = true) ∧ (∀ c ∈ rest.head?, sp c = false) ∧
      (rest ≠ [] → gap ≠ [])

theorem dropWhile_of_head {rest : List α} (h : ∀ c ∈ rest.head?, sp c = false) :
    rest.dropWhile sp = rest := by
  cases rest with
  | nil => rfl
  | cons c rest => exact dropWhile_cons_of_neg (by rw [h c rfl]; exact Bool.false_ne_true)

/-- A text is split into its first word and what is behind it, and in no other way. -/
theorem splits_iff {w rest : List α} :
    Splits sp s w rest ↔ w = word sp s ∧ rest = behind sp s ∧ w ≠ [] := by
  constructor
  · rintro ⟨lead, gap, rfl, hlead, hne, hw, hgap, hrest, hsep⟩
    have hstart : (lead ++ w ++ gap ++ rest).dropWhile sp = w ++ (gap ++ rest) := by
      rw [append_assoc, append_assoc, dropWhile_append_of_pos hlead]
      apply dropWhile_of_head
      intro c hc
      cases w with
      | nil => exact absurd rfl hne
      | cons a w =>
        rw [cons_append, List.head?_cons, mem_some_iff] at hc
        rw [← hc]
        exact hw a mem_cons_self
    have hstop : ∀ c ∈ (gap ++ rest).head?, (! sp c) = false := by
      intro c hc
      cases gap with
      | nil =>
        cases rest with
        | nil => cases hc
        | cons a rest => exact absurd rfl (hsep (cons_ne_nil a rest))
      | cons a gap =>
        rw [cons_append, List.head?_cons, mem_some_iff] at hc
        rw [← hc, hgap a mem_cons_self]
        rfl
    have hword : ∀ c ∈ w, (! sp c) = true := fun c hc => by rw [hw c hc]; rfl
    refine ⟨?_, ?_, hne⟩
    · rw [word, hstart, takeWhile_append_of_pos hword]
      cases htail : gap ++ rest with
      | nil => rw [takeWhile_nil, append_nil]
      | cons c t =>
        rw [htail] at hstop
        rw [takeWhile_cons_of_neg (by rw [hstop c rfl]; exact Bool.false_ne_true),
          append_nil]
    · rw [behind, hstart, dropWhile_append_of_pos hword, dropWhile_of_head hstop,
        dropWhile_append_of_pos hgap, dropWhile_of_head hrest]
  · rintro ⟨rfl, rfl, hne⟩
    refine ⟨s.takeWhile sp, ((s.dropWhile sp).dropWhile (! sp ·)).takeWhile sp, ?_,
      fun c hc => mem_takeWhile_imp hc, hne, fun c hc => of_mem_word hc,
      fun c hc => mem_takeWhile_imp hc, ?_, ?_⟩
    · rw [behind, append_assoc, takeWhile_append_dropWhile, word, append_assoc,
        takeWhile_append_dropWhile, takeWhile_append_dropWhile]
    · intro c hc
      have hnot := List.head?_dropWhile_not sp ((s.dropWhile sp).dropWhile (! sp ·))
      rw [behind] at hc
      rw [mem_def.1 hc] at hnot
      exact hnot
    · intro hrest hnil
      -- behind the first word the text goes on with a space
      rw [behind] at hrest
      have hnot := List.head?_dropWhile_not (! sp ·) (s.dropWhile sp)
      cases htail : (s.dropWhile sp).dropWhile (! sp ·) with
      | nil =>
        rw [htail] at hrest
        exact hrest rfl
      | cons c t =>
        rw [htail] at hnil hnot
        have hc : sp c = true := by simpa using hnot
        rw [takeWhile_cons_of_pos hc] at hnil
        cases hnil

/-! ## All the words -/

theorem words_cons (hc : sp c = true) : words sp (c :: s) = words sp s := by
  rw [words, splitOnP_cons_eq_if_modifyHead, if_pos hc, filter_cons_of_neg (by simp)]
  rfl

theorem words_dropWhile (sp : α → Bool) (s : List α) : words sp (s.dropWhile sp) = words sp s := by
  induction s with
  | nil => rfl
  | cons c s ih =>
    by_cases hc : sp c = true
    · rw [dropWhile_cons_of_pos hc, words_cons hc, ih]
    · rw [dropWhile_cons_of_neg hc]

theorem words_eq_nil (h : word sp s = []) : words sp s = [] := by
  have hspaces : s.dropWhile sp = [] := by
    by_contra hne
    exact word_ne_nil_iff.2 hne h
  rw [← words_dropWhile, hspaces]
  rfl

theorem words_eq_cons (h : word sp s ≠ []) : words sp s = word sp s :: words sp (behind sp s) := by
  have hword : ∀ c ∈ word sp s, sp c = false := fun c hc => of_mem_word hc
  have hsplit : word sp s ++ (s.dropWhile sp).dropWhile (! sp ·) = s.dropWhile sp :=
    takeWhile_append_dropWhile
  have hend := List.head?_dropWhile_not (! sp ·) (s.dropWhile sp)
  have hfilter (L : List (List α)) : (word sp s :: L).filter (! ·.isEmpty) =
      word sp s :: L.filter (! ·.isEmpty) := filter_cons_of_pos (by simpa using h)
  rw [behind, words_dropWhile, ← words_dropWhile sp s]
  generalize (s.dropWhile sp).dropWhile (! sp ·) = tail at hsplit hend ⊢
  rw [← hsplit]
  cases tail with
  | nil =>
    rw [append_nil, words, splitOnP_eq_singleton hword, hfilter]
    rfl
  | cons c t =>
    have hc : sp c = true := by simpa using hend
    rw [words, splitOnP_append_cons_of_forall_mem hword c hc, hfilter, words_cons hc]
    rfl

end Cleonos.Words

namespace Cleonos.LastWords

open List

variable {α : Type*} {blank : α → Bool} {s t b tail : List α} {ws : List (List α)}

/-- No blanks, and not empty. -/
structure IsWord (blank : α → Bool) (t : List α) : Prop where
  ne_nil : t ≠ []
  notBlank : ∀ a ∈ t, blank a = false

/-- Nothing but blanks, and not empty. -/
structure IsGap (blank : α → Bool) (b : List α) : Prop where
  ne_nil : b ≠ []
  isBlank : ∀ a ∈ b, blank a = true

/-- Words, each with blanks in front of it. -/
inductive Spaced (blank : α → Bool) : List α → List (List α) → Prop
  | nil : Spaced blank [] []
  | snoc {tail : List α} {ws : List (List α)} {b t : List α} (h : Spaced blank tail ws)
      (hb : IsGap blank b) (ht : IsWord blank t) : Spaced blank (tail ++ b ++ t) (ws ++ [t])

/-- The last element is not blank. -/
def EndsWord (blank : α → Bool) (s : List α) : Prop := ∃ u a, s = u ++ [a] ∧ blank a = false

theorem EndsWord.ne_nil (h : EndsWord blank s) : s ≠ [] := by
  obtain ⟨u, a, rfl, -⟩ := h
  exact append_ne_nil_of_right_ne_nil u (cons_ne_nil a [])

theorem IsWord.endsWord (h : IsWord blank t) (s : List α) : EndsWord blank (s ++ t) := by
  have hlast : t.dropLast ++ [t.getLast h.ne_nil] = t := dropLast_append_getLast h.ne_nil
  refine ⟨s ++ t.dropLast, t.getLast h.ne_nil, ?_, h.notBlank _ (getLast_mem h.ne_nil)⟩
  rw [append_assoc, hlast]

theorem Spaced.endsWord (h : Spaced blank tail ws) (hs : EndsWord blank s) :
    EndsWord blank (s ++ tail) := by
  cases h with
  | nil => rwa [append_nil]
  | snoc h hb ht =>
    rw [← append_assoc]
    exact ht.endsWord _

theorem Spaced.isWord (h : Spaced blank tail ws) (ht : t ∈ ws) : IsWord blank t := by
  induction h with
  | nil => cases ht
  | snoc h hb hword ih =>
    rcases mem_append.1 ht with hmem | hmem
    · exact ih hmem
    · rw [mem_singleton.1 hmem]
      exact hword

/-- What is in front of a word ends with a blank, so that the word comes off as a whole. -/
theorem peel_word (s : List α) (hb : IsGap blank b) (ht : IsWord blank t) :
    (s ++ b ++ t).rtakeWhile (fun a => !blank a) = t ∧
      (s ++ b ++ t).rdropWhile (fun a => !blank a) = s ++ b := by
  have hlast : b.dropLast ++ [b.getLast hb.ne_nil] = b := dropLast_append_getLast hb.ne_nil
  have hstop : ¬ (!blank (b.getLast hb.ne_nil)) = true := by
    rw [hb.isBlank _ (getLast_mem hb.ne_nil)]
    decide
  have hgap : (s ++ b).rtakeWhile (fun a => !blank a) = [] ∧
      (s ++ b).rdropWhile (fun a => !blank a) = s ++ b := by
    rw [← hlast, ← append_assoc]
    exact ⟨rtakeWhile_concat_neg _ _ _ hstop, rdropWhile_concat_neg _ _ _ hstop⟩
  have hnot := ht.notBlank
  clear ht
  induction t using List.reverseRecOn with
  | nil =>
    rw [append_nil]
    exact hgap
  | append_singleton t a ih =>
    have ha : (!blank a) = true := by
      rw [hnot a (mem_append_right t mem_cons_self)]
      rfl
    obtain ⟨htake, hdrop⟩ := ih fun x hx => hnot x (mem_append_left [a] hx)
    rw [← append_assoc, rtakeWhile_concat, rdropWhile_concat, if_pos ha,
      if_pos ha, htake, hdrop]
    exact ⟨rfl, rfl⟩

theorem trim_blanks (hs : EndsWord blank s) (hb : ∀ a ∈ b, blank a = true) :
    (s ++ b).rdropWhile blank = s := by
  induction b using List.reverseRecOn with
  | nil =>
    obtain ⟨u, a, rfl, ha⟩ := hs
    rw [append_nil]
    exact rdropWhile_concat_neg _ _ _ (by simp [ha])
  | append_singleton b a ih =>
    have ha : blank a = true := hb a (mem_append_right b mem_cons_self)
    rw [← append_assoc, rdropWhile_concat, if_pos ha]
    exact ih fun x hx => hb x (mem_append_left [a] hx)

theorem endsWord_of_trimmed (hs : s.rdropWhile blank ≠ []) :
    EndsWord blank (s.rdropWhile blank) := by
  have hlast : (s.rdropWhile blank).dropLast ++ [(s.rdropWhile blank).getLast hs] =
      s.rdropWhile blank := dropLast_append_getLast hs
  refine ⟨_, _, hlast.symm, ?_⟩
  simpa using rdropWhile_last_not blank s hs

theorem trim_append (blank : α → Bool) (s : List α) :
    s.rdropWhile blank ++ s.rtakeWhile blank = s ∧ ∀ a ∈ s.rtakeWhile blank, blank a = true :=
  ⟨rdropWhile_append_rtakeWhile, fun _ h => mem_rtakeWhile_imp h⟩

theorem exists_last_word (hs : EndsWord blank s)
    (hleft : (s.rdropWhile (fun a => !blank a)).rdropWhile blank ≠ []) :
    ∃ b, IsGap blank b ∧ IsWord blank (s.rtakeWhile fun a => !blank a) ∧
      s = (s.rdropWhile fun a => !blank a).rdropWhile blank ++ b ++
        s.rtakeWhile fun a => !blank a := by
  have hsplit := trim_append (fun a => !blank a) s
  have hword : s.rtakeWhile (fun a => !blank a) ≠ [] := by
    obtain ⟨u, a, rfl, ha⟩ := hs
    rw [rtakeWhile_concat_pos _ _ _ (by simp [ha])]
    exact append_ne_nil_of_right_ne_nil _ (cons_ne_nil a [])
  generalize hfront : s.rdropWhile (fun a => !blank a) = front at hleft hsplit
  have hfrontSplit := trim_append blank front
  refine ⟨front.rtakeWhile blank, ⟨?_, hfrontSplit.2⟩, ⟨hword, ?_⟩, ?_⟩
  · -- what is in front of the word ends with a blank
    intro hnil
    rw [hnil, append_nil] at hfrontSplit
    obtain ⟨u, a, hends, ha⟩ := endsWord_of_trimmed hleft
    rw [hfrontSplit.1] at hends
    have hne : s.rdropWhile (fun a => !blank a) ≠ [] := by
      rw [hfront, hends]
      exact append_ne_nil_of_right_ne_nil u (cons_ne_nil a [])
    have hlast := rdropWhile_last_not (fun a => !blank a) s hne
    simp only [hfront, hends, getLast_concat, ha] at hlast
    exact hlast rfl
  · intro a ha
    simpa using hsplit.2 a ha
  · rw [hfrontSplit.1, hsplit.1]

end Cleonos.LastWords
