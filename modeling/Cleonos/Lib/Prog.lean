import Mathlib.Tactic.Common
import Mathlib.Data.List.Basic

/-!
# Programs and what they emit

A program is a tree of calls to its environment.
-/

namespace Cleonos

section

open List

/-- A result, or a call and what to do with its answer. -/
inductive Prog (C : Type) (R : C → Type) (α : Type) : Type
  | ret (a : α) : Prog C R α
  | call (c : C) (k : R c → Prog C R α) : Prog C R α

namespace Prog

open List

variable {C : Type} {R : C → Type} {α β : Type}

abbrev Env (C : Type) (R : C → Type) : Type := List C → (c : C) → R c

/-- Continue with the result. -/
def bind : Prog C R α → (α → Prog C R β) → Prog C R β
  | ret a, f => f a
  | call c k, f => call c fun r => (k r).bind f

def ask (c : C) : Prog C R (R c) := call c ret

instance : Monad (Prog C R) where
  pure := ret
  bind := bind

/-- The result, and the calls made after the history `h`. -/
def run (env : Env C R) : Prog C R α → List C → α × List C
  | ret a, _ => (a, [])
  | call c k, h =>
    let r := (k (env h c)).run env (h ++ [c])
    (r.1, c :: r.2)

@[simp] theorem run_pure (env : Env C R) (h : List C) (a : α) :
    (pure a : Prog C R α).run env h = (a, []) := rfl

@[simp] theorem run_ask (env : Env C R) (h : List C) (c : C) :
    (ask c : Prog C R (R c)).run env h = (env h c, [c]) := rfl

@[simp] theorem run_bind (env : Env C R) (h : List C) (p : Prog C R α) (f : α → Prog C R β) :
    (p >>= f).run env h =
      (((f (p.run env h).1).run env (h ++ (p.run env h).2)).1,
        (p.run env h).2 ++ ((f (p.run env h).1).run env (h ++ (p.run env h).2)).2) := by
  change (p.bind f).run env h = _
  induction p generalizing h with
  | ret a => simp [bind, run]
  | call c k ih => simp [bind, run, ih, append_assoc]

/-- The calls made after the history `h`, each with its answer. -/
def events (env : Env C R) : Prog C R α → List C → List ((c : C) × R c)
  | ret _, _ => []
  | call c k, h => ⟨c, env h c⟩ :: (k (env h c)).events env (h ++ [c])

@[simp] theorem events_pure (env : Env C R) (h : List C) (a : α) :
    (pure a : Prog C R α).events env h = [] := rfl

@[simp] theorem events_ask (env : Env C R) (h : List C) (c : C) :
    (ask c : Prog C R (R c)).events env h = [⟨c, env h c⟩] := rfl

@[simp] theorem events_bind (env : Env C R) (h : List C) (p : Prog C R α) (f : α → Prog C R β) :
    (p >>= f).events env h =
      p.events env h ++ (f (p.run env h).1).events env (h ++ (p.run env h).2) := by
  change (p.bind f).events env h = _
  induction p generalizing h with
  | ret a => simp [bind, run, events]
  | call c k ih => simp [bind, run, events, ih, append_assoc]

/-- Every call that some run makes satisfies `P`. -/
def Emits (P : C → Prop) : Prog C R α → Prop
  | ret _ => True
  | call c k => P c ∧ ∀ r, (k r).Emits P

variable {P : C → Prop}

theorem emits_pure (a : α) : Emits P (pure a : Prog C R α) := trivial

theorem emits_ask {c : C} (h : P c) : Emits P (ask c : Prog C R (R c)) := ⟨h, fun _ => trivial⟩

theorem Emits.bind {p : Prog C R α} {f : α → Prog C R β} (hp : Emits P p)
    (hf : ∀ a, Emits P (f a)) : Emits P (p >>= f) := by
  change Emits P (p.bind f)
  induction p with
  | ret a => exact hf a
  | call c k ih => exact ⟨hp.1, fun r => ih r (hp.2 r)⟩

theorem Emits.mono {Q : C → Prop} {p : Prog C R α} (hp : Emits P p) (h : ∀ c, P c → Q c) :
    Emits Q p := by
  induction p with
  | ret a => trivial
  | call c k ih => exact ⟨h c hp.1, fun r => ih r (hp.2 r)⟩

variable {p : Prog C R α}

theorem emits_ite {q : Prop} [Decidable q] {p' : Prog C R α} (h : q → Emits P p)
    (h' : ¬ q → Emits P p') : Emits P (if q then p else p') := by
  by_cases hq : q
  · rw [if_pos hq]; exact h hq
  · rw [if_neg hq]; exact h' hq

theorem Emits.run {p : Prog C R α} (hp : Emits P p) (env : Env C R) (h : List C) :
    ∀ c ∈ (p.run env h).2, P c := by
  induction p generalizing h with
  | ret a => simp [Prog.run]
  | call c k ih =>
    intro d hd
    rcases mem_cons.1 hd with rfl | hd
    · exact hp.1
    · exact ih _ (hp.2 _) _ d hd

theorem map_fst_events (env : Env C R) (p : Prog C R α) (h : List C) :
    (p.events env h).map Sigma.fst = (p.run env h).2 := by
  induction p generalizing h with
  | ret a => rfl
  | call c k ih =>
    rw [events, Prog.run, map_cons, ih]

theorem Emits.events (hp : Emits P p) (env : Env C R) (h : List C) :
    ∀ e ∈ p.events env h, P e.1 := by
  intro e he
  apply hp.run env h
  rw [← map_fst_events]
  exact mem_map_of_mem he

/-- The result of the run after `h`, and its calls, satisfy `Q`. -/
def Holds (env : Env C R) (h : List C) (p : Prog C R α) (Q : α → List C → Prop) : Prop :=
  Q (p.run env h).1 (p.run env h).2

variable {env : Env C R} {h : List C} {Q : α → List C → Prop}

theorem holds_pure {a : α} (hQ : Q a []) : Holds env h (pure a) Q := hQ

theorem Holds.bind {S : β → List C → Prop} {p : Prog C R α} {f : α → Prog C R β}
    (hp : Holds env h p Q) (hf : ∀ a t, Q a t → Holds env (h ++ t) (f a) fun b u => S b (t ++ u)) :
    Holds env h (p >>= f) S := by
  have hrun := hf _ _ hp
  rw [Holds] at hrun ⊢
  rwa [run_bind]

theorem Holds.mono {S : α → List C → Prop} (hp : Holds env h p Q)
    (hQS : ∀ a t, Q a t → S a t) : Holds env h p S :=
  hQS _ _ hp

end Prog

end

/-! ## Programs that only write -/

open List

universe u
variable {σ ε α γ : Type u} {emit : σ → List α → Except ε σ}

/-- The program writes the text piece by piece, and does nothing else. -/
def Emits (emit : σ → List α → Except ε σ) (f : σ → Except ε σ) (text : List α) : Prop :=
  ∃ pieces : List (List α), pieces.flatten = text ∧ ∀ s, f s = pieces.foldlM emit s

namespace Emits

open List

variable {f g : σ → Except ε σ} {text text' : List α}

theorem nothing : Emits emit .ok [] := ⟨[], rfl, fun _ => rfl⟩

theorem piece (text : List α) : Emits emit (fun s => emit s text) text :=
  ⟨[text], by simp, fun s => by simp⟩

theorem bind (hf : Emits emit f text) (hg : Emits emit g text') :
    Emits emit (fun s => f s >>= g) (text ++ text') := by
  obtain ⟨pieces, rfl, hf⟩ := hf
  obtain ⟨pieces', rfl, hg⟩ := hg
  refine ⟨pieces ++ pieces', flatten_append, fun s => ?_⟩
  change f s >>= g = _
  rw [foldlM_append, hf, funext hg]

theorem congr {f' : σ → Except ε σ} (hf : Emits emit f text) (h : ∀ s, f' s = f s) :
    Emits emit f' text := by
  obtain ⟨pieces, hp, hf⟩ := hf
  exact ⟨pieces, hp, fun s => (h s).trans (hf s)⟩

theorem ite {c : Prop} [Decidable c] (hf : c → Emits emit f text)
    (hg : ¬ c → Emits emit g text') :
    Emits emit (fun s => if c then f s else g s) (if c then text else text') := by
  by_cases h : c
  · simpa only [if_pos h] using hf h
  · simpa only [if_neg h] using hg h

end Emits

/-- What a receiver knows of the number of items that it was given is kept by each write. -/
def Counts (emit : σ → List α → Except ε σ) (count : σ → ℕ → Prop) : Prop :=
  ∀ s n text s', count s n → emit s text = .ok s' → count s' (n + text.length)

theorem Counts.foldlM {count : σ → ℕ → Prop} (h : Counts emit count) {pieces : List (List α)}
    {s s' : σ} {n : ℕ} (hs : count s n) (hfold : pieces.foldlM emit s = .ok s') :
    count s' (n + pieces.flatten.length) := by
  induction pieces generalizing s n with
  | nil =>
    cases hfold
    simpa using hs
  | cons text pieces ih =>
    rw [foldlM_cons] at hfold
    cases hemit : emit s text with
    | error e =>
      rw [hemit] at hfold
      cases hfold
    | ok s₁ =>
      rw [hemit] at hfold
      rw [flatten_cons, length_append, ← Nat.add_assoc]
      exact ih (h s n text s₁ hs hemit) hfold

/-- The program writes the text to every receiver that was given `n` items so far, and returns
`a` with it. -/
def Writes (emit : σ → List α → Except ε σ) (count : σ → ℕ → Prop) (f : σ → Except ε (σ × γ))
    (n : ℕ) (text : List α) (a : γ) : Prop :=
  ∃ pieces : List (List α), pieces.flatten = text ∧
    ∀ s, count s n → f s = (pieces.foldlM emit s).map (·, a)

namespace Writes

open List

variable {count : σ → ℕ → Prop} {f : σ → Except ε (σ × γ)} {n : ℕ} {text text' : List α} {a : γ}

theorem done (a : γ) : Writes emit count (fun s => .ok (s, a)) n [] a :=
  ⟨[], rfl, fun _ _ => rfl⟩

theorem of_emits {f : σ → Except ε σ} (h : Emits emit f text) (a : γ) :
    Writes emit count (fun s => (f s).map (·, a)) n text a := by
  obtain ⟨pieces, rfl, hf⟩ := h
  exact ⟨pieces, rfl, fun s _ => congrArg (Except.map _) (hf s)⟩

theorem congr {f' : σ → Except ε (σ × γ)} (hf : Writes emit count f n text a)
    (h : ∀ s, count s n → f' s = f s) : Writes emit count f' n text a := by
  obtain ⟨pieces, hp, hf⟩ := hf
  exact ⟨pieces, hp, fun s hs => (h s hs).trans (hf s hs)⟩

theorem bind {δ : Type u} {g : σ × γ → Except ε (σ × δ)} {b : δ} (hcount : Counts emit count)
    (hf : Writes emit count f n text a)
    (hg : Writes emit count (fun s => g (s, a)) (n + text.length) text' b) :
    Writes emit count (fun s => f s >>= g) n (text ++ text') b := by
  obtain ⟨pieces, rfl, hf⟩ := hf
  obtain ⟨pieces', rfl, hg⟩ := hg
  refine ⟨pieces ++ pieces', flatten_append, fun s hs => ?_⟩
  change f s >>= g = _
  rw [hf s hs, foldlM_append]
  cases h : pieces.foldlM emit s with
  | error e => rfl
  | ok s' => exact hg s' (hcount.foldlM hs h)

theorem emits_bind {f : σ → Except ε σ} {g : σ → Except ε (σ × γ)} (hcount : Counts emit count)
    (hf : Emits emit f text) (hg : Writes emit count g (n + text.length) text' a) :
    Writes emit count (fun s => f s >>= g) n (text ++ text') a := by
  obtain ⟨pieces, rfl, hf⟩ := hf
  obtain ⟨pieces', rfl, hg⟩ := hg
  refine ⟨pieces ++ pieces', flatten_append, fun s hs => ?_⟩
  change f s >>= g = _
  rw [hf s, foldlM_append]
  cases h : pieces.foldlM emit s with
  | error e => rfl
  | ok s' => exact hg s' (hcount.foldlM hs h)

end Writes

end Cleonos
