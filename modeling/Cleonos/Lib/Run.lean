import Mathlib.Tactic.Common
import Mathlib.Order.Defs.Unbundled

/-!
# Runs of steps and of calls

The states a system can reach, from a set of initial states by a step relation, and
the induction over them: what holds initially and is preserved by a step holds of
every reachable state.
-/

namespace Cleonos

section

section

universe u
variable {σ : Type u}

/-- Some run that starts in `init` and follows `step` ends in this state. -/
inductive Reachable (init : σ → Prop) (step : σ → σ → Prop) : σ → Prop
  | start {s : σ} (h : init s) : Reachable init step s
  | next {s s' : σ} (hs : Reachable init step s) (h : step s s') : Reachable init step s'

namespace Reachable

variable {init : σ → Prop} {step step' : σ → σ → Prop} {s : σ}

theorem invariant {I : σ → Prop} (h0 : ∀ s, init s → I s)
    (hstep : ∀ s s', I s → step s s' → I s') (h : Reachable init step s) : I s := by
  induction h with
  | start hi => exact h0 _ hi
  | next _ hs ih => exact hstep _ _ ih hs

/-- What can be reached from a state is the state, or can be reached from a next one. -/
theorem from_iff {a t : σ} : Reachable (· = a) step t ↔
    t = a ∨ ∃ b, step a b ∧ Reachable (· = b) step t := by
  constructor
  · intro h
    induction h with
    | start hs => exact Or.inl hs
    | next hs hstep ih =>
      right
      rcases ih with rfl | ⟨b, hab, hb⟩
      · exact ⟨_, hstep, .start rfl⟩
      · exact ⟨b, hab, .next hb hstep⟩
  · rintro (rfl | ⟨b, hab, hb⟩)
    · exact .start rfl
    · induction hb with
      | start hs => exact hs ▸ .next (.start rfl) hab
      | next _ hstep ih => exact .next ih hstep

end Reachable

end

/-! ## Attempts -/

universe u

/-- Whether it succeeds, and the state it leaves. -/
abbrev Attempt (σ : Type u) : Type u := σ → Bool × σ

namespace Attempt

variable {σ : Type u} {s s' : σ} {f g : Attempt σ} {R : σ → σ → Prop} {b : Bool}

def succeed : Attempt σ := fun s => (true, s)

/-- Succeeds if `b`. -/
def check (b : Bool) : Attempt σ := fun s => (b, s)

/-- The second attempt is made if the first one succeeds. -/
def andThen (f g : Attempt σ) : Attempt σ := fun s => if (f s).1 then g (f s).2 else (false, (f s).2)

theorem succeed_eq_true : succeed s = (true, s') ↔ s' = s := by
  simp [succeed, eq_comm]

theorem check_eq_true : check b s = (true, s') ↔ b = true ∧ s' = s := by
  simp [check, eq_comm]

theorem andThen_eq_true :
    f.andThen g s = (true, s') ↔ ∃ mid, f s = (true, mid) ∧ g mid = (true, s') := by
  rw [andThen]
  constructor
  · intro h
    by_cases hf : (f s).1 = true
    · rw [if_pos hf] at h
      exact ⟨(f s).2, Prod.ext hf rfl, h⟩
    · rw [if_neg hf] at h
      exact absurd h (by simp)
  · rintro ⟨mid, hf, hg⟩
    rw [hf, if_pos rfl, hg]

theorem eq_of_fst (h : (f s).1 = b) : f s = (b, (f s).2) := Prod.ext h rfl

/-- Every state leads to one that is related to it. -/
def Keeps (R : σ → σ → Prop) (f : Attempt σ) : Prop := ∀ s, R s (f s).2

theorem Keeps.of_eq (hf : Keeps R f) (h : f s = (b, s')) : R s s' := by
  have hs := hf s
  rwa [h] at hs

variable [IsPreorder σ R]

theorem keeps_succeed : Keeps R succeed := refl_of R

theorem keeps_check : Keeps R (check b) := refl_of R

theorem Keeps.andThen (hf : Keeps R f) (hg : Keeps R g) : Keeps R (f.andThen g) := by
  intro s
  rw [Attempt.andThen]
  split
  · exact trans_of R (hf s) (hg _)
  · exact hf s

theorem keeps_ite {p : Prop} [Decidable p] (hf : p → Keeps R f) (hg : ¬ p → Keeps R g) :
    Keeps R (if p then f else g) := by
  split
  · exact hf ‹_›
  · exact hg ‹_›

end Attempt

end

universe u v
variable {α : Type u} {β : Type u} {γ : Type v}

/-- The computation does not fail, and its result has the property. -/
def Succeeds (o : Option α) (P : α → Prop) : Prop := ∃ a, o = some a ∧ P a

namespace Succeeds

variable {o : Option α} {P P' : α → Prop} {Q : β → Prop} {f : α → Option β} {a : α}

theorem of_some (h : P a) : Succeeds (some a) P := ⟨a, rfl, h⟩

theorem mono (h : Succeeds o P) (hP : ∀ a, P a → P' a) : Succeeds o P' := by
  obtain ⟨a, ho, ha⟩ := h
  exact ⟨a, ho, hP a ha⟩

theorem bind (h : Succeeds o P) (hf : ∀ a, P a → Succeeds (f a) Q) : Succeeds (o >>= f) Q := by
  obtain ⟨a, rfl, ha⟩ := h
  exact hf a ha

theorem map {g : α → β} (h : Succeeds o P) (hg : ∀ a, P a → Q (g a)) : Succeeds (o.map g) Q := by
  obtain ⟨a, rfl, ha⟩ := h
  exact ⟨g a, rfl, hg a ha⟩

theorem ite {c : Prop} [Decidable c] {o' : Option α} (h : c → Succeeds o P)
    (h' : ¬ c → Succeeds o' P) : Succeeds (if c then o else o') P := by
  split
  · exact h ‹_›
  · exact h' ‹_›

theorem foldlM {f : α → γ → Option α} {xs : List γ} (hf : ∀ a x, P a → Succeeds (f a x) P)
    (h : P a) : Succeeds (xs.foldlM f a) P := by
  induction xs generalizing a with
  | nil => exact of_some h
  | cons x xs ih => exact bind (hf a x h) fun a ha => ih ha

end Succeeds

theorem bind_eq_ok_iff {ε : Type v} {x : Except ε α} {f : α → Except ε β} {b : β} :
    x >>= f = .ok b ↔ ∃ a, x = .ok a ∧ f a = .ok b := by
  cases x with
  | error e =>
    refine ⟨(fun h => nomatch h), ?_⟩
    rintro ⟨a, h, -⟩
    cases h
  | ok a =>
    refine ⟨fun h => ⟨a, rfl, h⟩, ?_⟩
    rintro ⟨a', h, h'⟩
    cases h
    exact h'

end Cleonos
