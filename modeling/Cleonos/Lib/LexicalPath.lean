import Mathlib.Data.List.Infix
import Mathlib.Data.List.TakeWhile

/-!
# Lexical normalisation of paths

A path is a byte string; its components are the maximal nonempty pieces between slashes.
-/

namespace Cleonos.LexicalPath

open List

def slash : UInt8 := 47
def dot : UInt8 := 46

/-- Components are compared byte by byte. -/
instance lawfulBEq_component : LawfulBEq (List UInt8) := inferInstance

/-- The nonempty pieces between slashes, in order. -/
def components (s : List UInt8) : List (List UInt8) :=
  (s.splitOn slash).filter (· ≠ [])

/-- One component on the stack machine; the last component is the last of the list. -/
def normStep (stack : List (List UInt8)) (c : List UInt8) : List (List UInt8) :=
  if c = [dot] then stack
  else if c = [dot, dot] then stack.dropLast
  else stack ++ [c]

/-- The stack after all components. -/
def normalise (cs : List (List UInt8)) : List (List UInt8) := cs.foldl normStep []

/-- Each component behind a slash. -/
def slashed (stack : List (List UInt8)) : List UInt8 := stack.flatMap fun c => slash :: c

/-- The absolute path of a stack. -/
def render (stack : List (List UInt8)) : List UInt8 :=
  if stack = [] then [slash] else slashed stack

/-- The path that a relative or absolute argument denotes, before normalisation. -/
def join (cwd arg : List UInt8) : List UInt8 :=
  if arg.head? = some slash then arg else cwd ++ slash :: arg

/-- Every intermediate path, from this stack on, is shorter than `size`. -/
def Fits (size : ℕ) (stack cs : List (List UInt8)) : Prop :=
  ∀ p ∈ cs.inits, (render (p.foldl normStep stack)).length < size

instance (size : ℕ) (stack cs : List (List UInt8)) : Decidable (Fits size stack cs) :=
  inferInstanceAs (Decidable (∀ p ∈ cs.inits, _))

/-- A component that normalisation keeps. -/
structure Plain (c : List UInt8) : Prop where
  ne_nil : c ≠ []
  ne_dot : c ≠ [dot]
  ne_dotdot : c ≠ [dot, dot]
  no_slash : slash ∉ c

instance (c : List UInt8) : Decidable (Plain c) :=
  decidable_of_iff (c ≠ [] ∧ c ≠ [dot] ∧ c ≠ [dot, dot] ∧ slash ∉ c)
    ⟨fun h => ⟨h.1, h.2.1, h.2.2.1, h.2.2.2⟩, fun h => ⟨h.1, h.2, h.3, h.4⟩⟩

/-! ## Components -/

@[simp] theorem components_nil : components [] = [] := rfl

theorem components_append_slash (p q : List UInt8) :
    components (p ++ slash :: q) = components p ++ components q := by
  rw [components, splitOn_append_cons_self, filter_append]
  rfl

@[simp] theorem components_slash_cons (q : List UInt8) : components (slash :: q) = components q :=
  components_append_slash [] q

variable {stack cs ds : List (List UInt8)} {size : ℕ} {c : List UInt8}

theorem components_of_notMem (hc : c ≠ []) (hs : slash ∉ c) : components c = [c] := by
  rw [components, splitOn_eq_singleton hs]
  simp [hc]

theorem components_dropWhile (s : List UInt8) :
    components (s.dropWhile (· = slash)) = components s := by
  induction s with
  | nil => rfl
  | cons c s ih =>
    by_cases hc : c = slash
    · subst hc
      simpa using ih
    · simp [hc]

theorem components_eq_cons {s : List UInt8} (h : s.takeWhile (· ≠ slash) ≠ []) :
    components s = s.takeWhile (· ≠ slash) :: components (s.dropWhile (· ≠ slash)) := by
  have hns : slash ∉ s.takeWhile (· ≠ slash) := fun hm => by simpa using mem_takeWhile_imp hm
  have hsplit := takeWhile_append_dropWhile (p := (· ≠ slash)) (l := s)
  generalize s.takeWhile (· ≠ slash) = c at *
  cases hd : s.dropWhile (· ≠ slash) with
  | nil =>
    rw [hd, append_nil] at hsplit
    rw [← hsplit, components_of_notMem h hns]
    rfl
  | cons d ds =>
    have hds : d = slash := by
      have hhead := List.head?_dropWhile_not (· ≠ slash) s
      rw [hd] at hhead
      simpa using hhead
    subst hds
    rw [hd] at hsplit
    rw [← hsplit, components_append_slash, components_of_notMem h hns, components_slash_cons]
    rfl

theorem mem_components_iff {s t : List UInt8} (hs : s ≠ []) : s ∈ components t ↔ s ∈ t.splitOn slash := by
  rw [components, mem_filter]
  simp [hs]

theorem splitOn_cons_of_ne {c : UInt8} {s h : List UInt8} {tl : List (List UInt8)} (hc : c ≠ slash) (hs : s.splitOn slash = h :: tl) :
    (c :: s).splitOn slash = (c :: h) :: tl := by
  rw [splitOn_cons_eq_if_modifyHead, if_neg (by simpa using hc), hs]
  rfl

theorem splitOn_slash_cons (s : List UInt8) : (slash :: s).splitOn slash = [] :: s.splitOn slash := by
  rw [splitOn_cons_eq_if_modifyHead, if_pos (by simp)]

/-- Pieces of a split consist of bytes of the string, none of them the separator. -/
theorem of_mem_splitOn {s c : List UInt8} (h : c ∈ s.splitOn slash) :
    slash ∉ c ∧ ∀ b ∈ c, b ∈ s := by
  induction s generalizing c with
  | nil =>
    have hc : c = [] := by simpa using h
    simp [hc]
  | cons x s ih =>
    rw [splitOn_cons_eq_if_modifyHead] at h
    by_cases hx : (x == slash) = true
    · rw [if_pos hx, mem_cons] at h
      rcases h with rfl | h
      · simp
      · exact ⟨(ih h).1, fun b hb => mem_cons_of_mem _ ((ih h).2 b hb)⟩
    · rw [if_neg hx] at h
      obtain ⟨d, ds, hd⟩ := exists_cons_of_ne_nil (splitOn_ne_nil slash s)
      rw [hd, modifyHead_cons, mem_cons] at h
      have hmem : ∀ e ∈ d :: ds, slash ∉ e ∧ ∀ b ∈ e, b ∈ s := fun e he => ih (hd ▸ he)
      rcases h with rfl | h
      · obtain ⟨hns, hsub⟩ := hmem d (by simp)
        have hxs : slash ≠ x := fun he => hx (by simp [he])
        exact ⟨by simp [hxs, hns], fun b hb => by
          rcases mem_cons.1 hb with rfl | hb
          · simp
          · exact mem_cons_of_mem _ (hsub b hb)⟩
      · obtain ⟨hns, hsub⟩ := hmem c (by simp [h])
        exact ⟨hns, fun b hb => mem_cons_of_mem _ (hsub b hb)⟩

theorem of_mem_components {s : List UInt8} (h : c ∈ components s) :
    c ≠ [] ∧ slash ∉ c ∧ ∀ b ∈ c, b ∈ s := by
  obtain ⟨hmem, hne⟩ := mem_filter.1 h
  exact ⟨by simpa using hne, of_mem_splitOn hmem⟩

theorem mem_normStep {d : List UInt8} (hd : d ∈ normStep stack c) :
    d ∈ stack ∨ d = c ∧ c ≠ [dot] ∧ c ≠ [dot, dot] := by
  rw [normStep] at hd
  by_cases h1 : c = [dot]
  · rw [if_pos h1] at hd
    exact .inl hd
  by_cases h2 : c = [dot, dot]
  · rw [if_neg h1, if_pos h2] at hd
    exact .inl (mem_of_mem_dropLast hd)
  · rw [if_neg h1, if_neg h2, mem_append, mem_singleton] at hd
    exact hd.imp_right fun hc => ⟨hc, h1, h2⟩

theorem plain_normStep (h : ∀ d ∈ stack, Plain d)
    (hc : c ≠ []) (hs : slash ∉ c) : ∀ d ∈ normStep stack c, Plain d := by
  intro d hd
  rcases mem_normStep hd with hd | ⟨rfl, h1, h2⟩
  · exact h d hd
  · exact ⟨hc, h1, h2, hs⟩

theorem bytes_normStep {P : UInt8 → Prop} (h : ∀ d ∈ stack, ∀ b ∈ d, P b) (hc : ∀ b ∈ c, P b) :
    ∀ d ∈ normStep stack c, ∀ b ∈ d, P b := by
  intro d hd
  rcases mem_normStep hd with hd | ⟨rfl, -⟩
  · exact h d hd
  · exact hc

theorem foldl_normStep_induction {I : List (List UInt8) → Prop} {cs stack : List (List UInt8)}
    (h0 : I stack) (hstep : ∀ stack, I stack → ∀ c ∈ cs, I (normStep stack c)) :
    I (cs.foldl normStep stack) := by
  induction cs generalizing stack with
  | nil => exact h0
  | cons c cs ih =>
    exact ih (hstep stack h0 c (by simp)) fun st hst d hd => hstep st hst d (by simp [hd])

theorem plain_normalise (s : List UInt8) : ∀ d ∈ normalise (components s), Plain d := by
  refine foldl_normStep_induction (I := fun st => ∀ d ∈ st, Plain d) (by simp) ?_
  intro st hst c hc
  obtain ⟨hne, hns, -⟩ := of_mem_components hc
  exact plain_normStep hst hne hns

theorem foldl_normStep_of_no_dotdot {cs : List (List UInt8)} (h : [dot, dot] ∉ cs)
    (stack : List (List UInt8)) :
    cs.foldl normStep stack = stack ++ cs.filter (· ≠ [dot]) := by
  induction cs generalizing stack with
  | nil => simp
  | cons c cs ih =>
    rw [mem_cons, not_or] at h
    rw [foldl_cons, ih h.2, normStep]
    by_cases hc : c = [dot]
    · simp [hc]
    · rw [if_neg hc, if_neg (Ne.symm h.1)]
      simp [hc]

theorem normalise_of_no_dotdot (h : [dot, dot] ∉ cs) : normalise cs = cs.filter (· ≠ [dot]) :=
  (foldl_normStep_of_no_dotdot h []).trans (nil_append _)

theorem normalise_append_of_no_dotdot (h : [dot, dot] ∉ ds) :
    normalise (cs ++ ds) = normalise cs ++ normalise ds := by
  rw [normalise, foldl_append, foldl_normStep_of_no_dotdot h, normalise_of_no_dotdot h,
    normalise]

theorem foldl_normStep_of_plain {cs stack : List (List UInt8)} (h : ∀ c ∈ cs, Plain c) :
    cs.foldl normStep stack = stack ++ cs := by
  induction cs generalizing stack with
  | nil => simp
  | cons c cs ih =>
    have hc := h c (by simp)
    rw [foldl_cons, normStep, if_neg hc.ne_dot, if_neg hc.ne_dotdot,
      ih fun d hd => h d (by simp [hd])]
    simp

theorem normalise_of_plain (h : ∀ c ∈ cs, Plain c) : normalise cs = cs :=
  (foldl_normStep_of_plain h).trans (nil_append cs)

@[simp] theorem slashed_nil : slashed [] = [] := rfl

@[simp] theorem slashed_cons (c : List UInt8) (cs : List (List UInt8)) :
    slashed (c :: cs) = slash :: c ++ slashed cs := rfl

theorem slashed_append (cs ds : List (List UInt8)) :
    slashed (cs ++ ds) = slashed cs ++ slashed ds := by
  simp [slashed]

@[simp] theorem render_nil : render [] = [slash] := rfl

theorem render_of_ne_nil (h : cs ≠ []) : render cs = slashed cs :=
  if_neg h

/-- A pushed component stands behind a slash, except that the root has one already. -/
theorem render_concat (cs : List (List UInt8)) (c : List UInt8) :
    render (cs ++ [c]) = slashed cs ++ slash :: c := by
  rw [render_of_ne_nil (by simp), slashed_append]
  simp

theorem forall_mem_render {P : UInt8 → Prop} (hslash : P slash)
    (h : ∀ c ∈ cs, ∀ b ∈ c, P b) : ∀ b ∈ render cs, P b := by
  intro b hb
  by_cases hcs : cs = []
  · subst hcs
    exact mem_singleton.1 hb ▸ hslash
  · rw [render_of_ne_nil hcs, slashed, mem_flatMap] at hb
    obtain ⟨c, hc, hbc⟩ := hb
    rcases mem_cons.1 hbc with rfl | hbc
    · exact hslash
    · exact h c hc b hbc

theorem components_slashed {cs : List (List UInt8)} (h : ∀ c ∈ cs, Plain c) :
    components (slashed cs) = cs := by
  induction cs with
  | nil => rfl
  | cons c cs ih =>
    have hc := h c (by simp)
    have hcs := ih fun d hd => h d (by simp [hd])
    cases cs with
    | nil => simpa using components_of_notMem hc.ne_nil hc.no_slash
    | cons d ds =>
      have hsep : slashed (c :: d :: ds) = slash :: (c ++ slash :: (d ++ slashed ds)) := by simp
      have htail : components (d ++ slashed ds) = d :: ds := by
        rw [← hcs, slashed_cons, cons_append, components_slash_cons]
      rw [hsep, components_slash_cons, components_append_slash,
        components_of_notMem hc.ne_nil hc.no_slash, htail]
      rfl

theorem components_render (h : ∀ c ∈ cs, Plain c) : components (render cs) = cs := by
  by_cases hcs : cs = []
  · subst hcs
    rfl
  · rw [render_of_ne_nil hcs, components_slashed h]

theorem head?_render (cs : List (List UInt8)) : (render cs).head? = some slash := by
  cases cs with
  | nil => rfl
  | cons c cs => rw [render_of_ne_nil (by simp), slashed_cons]; rfl

theorem length_slashed_le_of_prefix (h : cs <+: ds) :
    (slashed cs).length ≤ (slashed ds).length := by
  obtain ⟨es, rfl⟩ := h
  rw [slashed_append, length_append]
  exact Nat.le_add_right _ _

theorem length_render_le_of_isPrefix (h : cs <+: ds) : (render cs).length ≤ (render ds).length := by
  by_cases hcs : cs = []
  · subst hcs
    cases ds with
    | nil => exact le_rfl
    | cons d ds => rw [render_of_ne_nil (cons_ne_nil d ds)]; simp
  · have hds : ds ≠ [] := fun hds => hcs (by simpa [hds] using h)
    rw [render_of_ne_nil hcs, render_of_ne_nil hds]
    exact length_slashed_le_of_prefix h

theorem fits_nil : Fits size stack [] ↔ (render stack).length < size := by
  simp [Fits]

theorem fits_cons : Fits size stack (c :: cs) ↔
      (render stack).length < size ∧ Fits size (normStep stack c) cs := by
  simp [Fits]

theorem Fits.length_lt (h : Fits size stack cs) : (render stack).length < size := h [] (by simp)

theorem fits_append {size : ℕ} {stack cs ds : List (List UInt8)} :
    Fits size stack (cs ++ ds) ↔
      Fits size stack cs ∧ Fits size (cs.foldl normStep stack) ds := by
  induction cs generalizing stack with
  | nil =>
    rw [nil_append, fits_nil]
    exact ⟨fun h => ⟨h.length_lt, h⟩, fun h => h.2⟩
  | cons c cs ih => rw [cons_append, fits_cons, fits_cons, ih, and_assoc]; rfl

theorem fits_of_plain (h : ∀ c ∈ cs, Plain c)
    (hsize : (render cs).length < size) : Fits size [] cs := by
  intro p hp
  have hpre := mem_inits p cs |>.1 hp
  rw [foldl_normStep_of_plain fun c hc => h c (hpre.subset hc), nil_append]
  exact lt_of_le_of_lt (length_render_le_of_isPrefix hpre) hsize

end Cleonos.LexicalPath
