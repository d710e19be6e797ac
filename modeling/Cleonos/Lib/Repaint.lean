import Mathlib.Data.List.Basic
import Mathlib.Data.Int.Order.Basic

/-!
# Rectangles and what is painted over

A display shows a picture at each position.
-/

namespace Cleonos.Repaint

open List

variable {ι C G S : Type} [DecidableEq ι]

/-- Drawing any of these positions with one of these cells shows the cell there, and leaves the
other positions alone. -/
def Draws (draw : S → ι → C → S) (shown : S → ι → G) (look : C → G) (ps : List ι)
    (ok : C → Prop) (good : S → Prop) : Prop :=
  ∀ s, good s → ∀ p ∈ ps, ∀ c, ok c → good (draw s p c) ∧
    ∀ q ∈ ps, shown (draw s p c) q = if q = p then look c else shown s q

/-- Draw the positions at which the buffers differ. -/
def repaint [DecidableEq C] (draw : S → ι → C → S) (back front : ι → C) (s : S) (ps : List ι) : S :=
  ps.foldl (fun s p => if back p = front p then s else draw s p (back p)) s

def redraw (draw : S → ι → C → S) (back : ι → C) (s : S) (ps : List ι) : S :=
  ps.foldl (fun s p => draw s p (back p)) s

variable {draw : S → ι → C → S} {shown : S → ι → G} {look : C → G} {ps qs : List ι} {p q : ι}
  {ok : C → Prop} {good : S → Prop} {back front : ι → C} {s : S}

omit [DecidableEq ι] in
theorem repaint_congr [DecidableEq C] {front' : ι → C} (h : ∀ p ∈ ps, front p = front' p) :
    repaint draw back front s ps = repaint draw back front' s ps := by
  refine foldl_ext _ _ _ fun s p hp => ?_
  rw [h p hp]

/-- What drawing a sublist of the positions leaves behind, for any choice of what is skipped. -/
theorem shown_fold (hdraw : Draws draw shown look ps ok good) (skip : ι → Prop)
    [DecidablePred skip] (hsub : ∀ p ∈ qs, p ∈ ps) (hok : ∀ p ∈ qs, ¬ skip p → ok (back p))
    (hs : good s) :
    good (qs.foldl (fun s p => if skip p then s else draw s p (back p)) s) ∧
      ∀ q ∈ ps, shown (qs.foldl (fun s p => if skip p then s else draw s p (back p)) s) q =
        if q ∈ qs ∧ ¬ skip q then look (back q) else shown s q := by
  induction qs generalizing s with
  | nil => exact ⟨hs, fun q _ => by simp⟩
  | cons p qs ih =>
    have hp : p ∈ ps := hsub p mem_cons_self
    have hsub' : ∀ p ∈ qs, p ∈ ps := fun r hr => hsub r (mem_cons_of_mem p hr)
    have hok' : ∀ p ∈ qs, ¬ skip p → ok (back p) :=
      fun r hr => hok r (mem_cons_of_mem p hr)
    rw [foldl_cons]
    by_cases hskip : skip p
    · rw [if_pos hskip]
      obtain ⟨hgood, hshown⟩ := ih hsub' hok' hs
      refine ⟨hgood, fun q hq => ?_⟩
      rw [hshown q hq]
      by_cases hqp : q = p
      · subst hqp
        simp [hskip]
      · simp [hqp]
    · rw [if_neg hskip]
      obtain ⟨hgood, heff⟩ := hdraw s hs p hp (back p) (hok p mem_cons_self hskip)
      obtain ⟨hgood', hshown⟩ := ih hsub' hok' hgood
      refine ⟨hgood', fun q hq => ?_⟩
      rw [hshown q hq, heff q hq]
      by_cases hqp : q = p
      · subst hqp
        simp [hskip]
      · simp [hqp]

theorem shown_repaint [DecidableEq C] (front : ι → C) (hdraw : Draws draw shown look ps ok good)
    (hok : ∀ p ∈ ps, ok (back p)) (hs : good s) :
    good (repaint draw back front s ps) ∧
      ∀ q ∈ ps, shown (repaint draw back front s ps) q =
        if back q = front q then shown s q else look (back q) := by
  obtain ⟨hgood, hshown⟩ := shown_fold hdraw (fun p => back p = front p) (fun _ h => h)
    (fun p hp _ => hok p hp) hs
  refine ⟨hgood, fun q hq => ?_⟩
  rw [repaint, hshown q hq]
  by_cases heq : back q = front q <;> simp [heq, hq]

theorem shown_redraw (hdraw : Draws draw shown look ps ok good)
    (hok : ∀ p ∈ ps, ok (back p)) (hs : good s) :
    good (redraw draw back s ps) ∧
      ∀ q ∈ ps, shown (redraw draw back s ps) q = look (back q) := by
  obtain ⟨hgood, hshown⟩ := shown_fold hdraw (fun _ => False) (fun _ h => h)
    (fun p hp _ => hok p hp) hs
  simp only [if_false] at hgood hshown
  exact ⟨hgood, fun q hq => by rw [redraw, hshown q hq, if_pos ⟨hq, not_false⟩]⟩

/-- The two loops end in the same pictures exactly when what is skipped is already shown. -/
theorem repaint_eq_redraw_iff [DecidableEq C] (front : ι → C) (hdraw : Draws draw shown look ps ok good)
    (hok : ∀ p ∈ ps, ok (back p)) (hs : good s) :
    (∀ q ∈ ps, shown (repaint draw back front s ps) q = shown (redraw draw back s ps) q) ↔
      ∀ q ∈ ps, back q = front q → shown s q = look (back q) := by
  have hpaint : ∀ q ∈ ps, shown (repaint draw back front s ps) q =
      if back q = front q then shown s q else look (back q) := (shown_repaint front hdraw hok hs).2
  have hfull := (shown_redraw hdraw hok hs).2
  constructor
  · intro h q hq heq
    have hboth := h q hq
    rwa [hpaint q hq, hfull q hq, if_pos heq] at hboth
  · intro h q hq
    rw [hpaint q hq, hfull q hq]
    split
    · exact h q hq ‹_›
    · rfl

end Cleonos.Repaint

/-! ## Rectangles that are drawn and tested -/

namespace Cleonos.Lib

open List

structure Rect where
  x : ℤ
  y : ℤ
  w : ℤ
  h : ℤ
deriving DecidableEq, Repr

/-- The lower and the right edge are outside. -/
def Rect.Contains (r : Rect) (px py : ℤ) : Prop :=
  r.x ≤ px ∧ px < r.x + r.w ∧ r.y ≤ py ∧ py < r.y + r.h

instance (r : Rect) (px py : ℤ) : Decidable (r.Contains px py) :=
  inferInstanceAs (Decidable (_ ∧ _ ∧ _ ∧ _))

/-- A rectangle that is drawn, and what a click on it does. -/
structure Shown (α : Type*) where
  rect : Rect
  effect : α
deriving DecidableEq, Repr

variable {α : Type*} {items items' : List (Shown α)} {b : Shown α} {px py : ℤ} {result : Option α}

/-- The point is in none of the rectangles. -/
def Outside (items : List (Shown α)) (px py : ℤ) : Prop := ∀ b ∈ items, ¬ b.rect.Contains px py

instance (items : List (Shown α)) (px py : ℤ) : Decidable (Outside items px py) :=
  inferInstanceAs (Decidable (∀ b ∈ items, ¬ b.rect.Contains px py))

/-- The outcome at a point is what every rectangle around it does, and nothing where there is
none. -/
structure Answers (items : List (Shown α)) (px py : ℤ) (result : Option α) : Prop where
  inside : ∀ b ∈ items, b.rect.Contains px py → result = some b.effect
  outside : Outside items px py → result = none

theorem outside_nil : Outside ([] : List (Shown α)) px py := by
  intro b hb
  cases hb

theorem outside_cons (hb : ¬ b.rect.Contains px py) (h : Outside items px py) :
    Outside (b :: items) px py := by
  intro c hc
  rcases mem_cons.mp hc with rfl | hmem
  · exact hb
  · exact h c hmem

theorem outside_append (h : Outside items px py) (h' : Outside items' px py) :
    Outside (items ++ items') px py := by
  intro c hc
  rcases mem_append.mp hc with hmem | hmem
  · exact h c hmem
  · exact h' c hmem

theorem answers_of_outside (h : Outside items px py) : Answers items px py none :=
  ⟨fun b hb hin => absurd hin (h b hb), fun _ => rfl⟩

theorem answers_cons (hb : b.rect.Contains px py) (h : Outside items px py) :
    Answers (b :: items) px py (some b.effect) := by
  constructor
  · intro c hc hin
    rcases mem_cons.mp hc with rfl | hmem
    · rfl
    · exact absurd hin (h c hmem)
  · intro hnone
    exact absurd hb (hnone b mem_cons_self)

theorem answers_append_left (h : Outside items px py) (h' : Answers items' px py result) :
    Answers (items ++ items') px py result := by
  constructor
  · intro c hc hin
    rcases mem_append.mp hc with hmem | hmem
    · exact absurd hin (h c hmem)
    · exact h'.inside c hmem hin
  · intro hnone
    exact h'.outside fun c hc => hnone c (mem_append_right _ hc)

theorem answers_append_right (h : Answers items px py result) (h' : Outside items' px py) :
    Answers (items ++ items') px py result := by
  constructor
  · intro c hc hin
    rcases mem_append.mp hc with hmem | hmem
    · exact h.inside c hmem hin
    · exact absurd hin (h' c hmem)
  · intro hnone
    exact h.outside fun c hc => hnone c (mem_append_left _ hc)

end Cleonos.Lib
