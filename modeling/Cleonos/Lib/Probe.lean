import Mathlib.Tactic.Common
import Mathlib.Algebra.Order.Ring.Nat

/-!
# Programs that touch places

A program may fail, and it says which places it touched until then: the bytes it read, the bytes
it wrote.
-/

namespace Cleonos

universe u v
variable {ι : Type u} {α β : Type v}

/-- The places that are touched, in order, and the result. -/
structure Probe (ι : Type u) (α : Type v) where
  places : List ι
  result : Option α

namespace Probe

/-- Nothing is touched, and there is no result. -/
def fail : Probe ι α := ⟨[], none⟩

/-- Places are touched, and a value is found there. -/
def touch (places : List ι) (a : α) : Probe ι α := ⟨places, some a⟩

instance : Monad (Probe ι) where
  pure a := ⟨[], some a⟩
  bind p f :=
    match p.result with
    | none => ⟨p.places, none⟩
    | some a => ⟨p.places ++ (f a).places, (f a).result⟩

/-! ## Results -/

@[simp] theorem result_pure (a : α) : (pure a : Probe ι α).result = some a := rfl

@[simp] theorem result_fail : (fail : Probe ι α).result = none := rfl

@[simp] theorem result_touch (places : List ι) (a : α) : (touch places a).result = some a := rfl

@[simp] theorem result_bind (p : Probe ι α) (f : α → Probe ι β) :
    (p >>= f).result = p.result.bind fun a => (f a).result := by
  change (match p.result with | none => _ | some a => _ : Probe ι β).result = _
  cases p.result <;> rfl

/-- All places that are touched are allowed. -/
def Within (allowed : ι → Prop) (p : Probe ι α) : Prop := ∀ i ∈ p.places, allowed i

variable {allowed : ι → Prop}

theorem within_pure (a : α) : Within allowed (pure a : Probe ι α) := by
  intro i hi
  cases hi

theorem within_fail : Within allowed (fail : Probe ι α) := by
  intro i hi
  cases hi

theorem within_touch {places : List ι} (h : ∀ i ∈ places, allowed i) (a : α) :
    Within allowed (touch places a) := h

/-- A program behind another need only stay within what is allowed for the values that the first
one returns. -/
theorem Within.bind {p : Probe ι α} {f : α → Probe ι β} (hp : Within allowed p)
    (hf : ∀ a, p.result = some a → Within allowed (f a)) : Within allowed (p >>= f) := by
  intro i hi
  change i ∈ (match p.result with | none => _ | some a => _ : Probe ι β).places at hi
  cases hresult : p.result with
  | none =>
    rw [hresult] at hi
    exact hp i hi
  | some a =>
    rw [hresult] at hi
    cases List.mem_append.1 hi with
    | inl hi => exact hp i hi
    | inr hi => exact hf a hresult i hi

theorem Within.ite {c : Prop} [Decidable c] {p q : Probe ι α} (hp : c → Within allowed p)
    (hq : ¬ c → Within allowed q) : Within allowed (if c then p else q) := by
  split
  · exact hp ‹_›
  · exact hq ‹_›

end Probe

end Cleonos
