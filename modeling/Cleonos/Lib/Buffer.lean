import Mathlib.Data.List.Basic
import Mathlib.Algebra.Order.Ring.Nat

/-!
# Buffers as functions from the index

A buffer of cells is a function from its index; what a program has in it is a list of
consecutive cells.
-/

namespace Cleonos.Buffer

open List
open Function (update update_of_ne update_self)

universe u
variable {α : Type u}

/-- The `n` cells from index `i` on. -/
def slice (f : ℕ → α) (i n : ℕ) : List α := (List.range' i n).map f

/-- The buffer with the items of `xs` in the cells from index `i` on. -/
def store (f : ℕ → α) (i : ℕ) (xs : List α) : ℕ → α :=
  fun j => if i ≤ j then (xs[j - i]?).getD (f j) else f j

/-- `n` cells copied from `src` to `dst` one by one, the first one first. -/
def moveUp (f : ℕ → α) (dst src : ℕ) : ℕ → ℕ → α
  | 0 => f
  | n + 1 =>
    let g := moveUp f dst src n
    update g (dst + n) (g (src + n))

/-- `n` cells copied from `src` to `dst` one by one, the last one first. -/
def moveDown (f : ℕ → α) (dst src : ℕ) : ℕ → ℕ → α
  | 0 => f
  | n + 1 => moveDown (update f (dst + n) (f (src + n))) dst src n

variable {f g : ℕ → α} {i n : ℕ}

@[simp] theorem length_slice (f : ℕ → α) (i n : ℕ) : (slice f i n).length = n := by
  simp [slice]

@[simp] theorem slice_zero (f : ℕ → α) (i : ℕ) : slice f i 0 = [] := rfl

@[simp] theorem slice_one (f : ℕ → α) (i : ℕ) : slice f i 1 = [f i] := rfl

theorem slice_congr (h : ∀ j, i ≤ j → j < i + n → f j = g j) : slice f i n = slice g i n := by
  refine map_congr_left fun j hj => ?_
  obtain ⟨hle, hlt⟩ := mem_range'_1.1 hj
  exact h j hle hlt

theorem slice_add (f : ℕ → α) (i n k : ℕ) :
    slice f i (n + k) = slice f i n ++ slice f (i + n) k := by
  have hr : List.range' i (n + k) = List.range' i n ++ List.range' (i + n) k := by
    rw [range'_append_1]
  rw [slice, hr, map_append]
  rfl

theorem slice_succ (f : ℕ → α) (i n : ℕ) : slice f i (n + 1) = slice f i n ++ [f (i + n)] := by
  rw [slice_add, slice_one]

theorem slice_eq_replicate {a : α} (h : ∀ j, i ≤ j → j < i + n → f j = a) :
    slice f i n = List.replicate n a := by
  refine eq_replicate_iff.2 ⟨length_slice f i n, fun b hb => ?_⟩
  obtain ⟨j, hj, rfl⟩ := mem_map.1 hb
  obtain ⟨hle, hlt⟩ := mem_range'_1.1 hj
  exact h j hle hlt

theorem getElem?_slice {j : ℕ} (h : j < n) : (slice f i n)[j]? = some (f (i + j)) := by
  simp [slice, h]

theorem getD_slice {j : ℕ} (h : j < n) (a : α) : (slice f 0 n).getD j a = f j := by
  simp [List.getD, getElem?_slice h]

variable {xs : List α}

theorem eq_of_slice_eq {j : ℕ} (h : slice f 0 n = xs) (hj : j < n) : xs[j]? = some (f j) := by
  rw [← h, getElem?_slice hj, Nat.zero_add]

theorem take_slice {k : ℕ} (h : slice f 0 n = xs) (hk : k ≤ n) : slice f 0 k = xs.take k := by
  obtain ⟨m, rfl⟩ := Nat.exists_eq_add_of_le hk
  rw [← h, slice_add, take_left' (length_slice f 0 k)]

theorem slice_shift {k : ℕ} (h : ∀ j, j < n → f (i + j) = g (k + j)) :
    slice f i n = slice g k n := by
  refine ext_getElem? fun j => ?_
  by_cases hj : j < n
  · rw [getElem?_slice hj, getElem?_slice hj, h j hj]
  · rw [List.getElem?_eq_none (by simp; omega), List.getElem?_eq_none (by simp; omega)]

theorem slice_eq_of_getElem (h : ∀ j (hj : j < xs.length), f (i + j) = xs[j]) :
    slice f i xs.length = xs := by
  refine ext_getElem? fun j => ?_
  by_cases hj : j < xs.length
  · rw [getElem?_slice hj, h j hj, List.getElem?_eq_getElem hj]
  · rw [List.getElem?_eq_none (by simp; omega), List.getElem?_eq_none (by omega)]

theorem slice_take (f : ℕ → α) (i n k : ℕ) : (slice f i n).take k = slice f i (min k n) := by
  obtain h | h := Nat.le_total k n
  · obtain ⟨m, rfl⟩ := Nat.exists_eq_add_of_le h
    rw [slice_add, take_left' (length_slice f i k), Nat.min_eq_left h]
  · rw [take_of_length_le (by simpa using h), Nat.min_eq_right h]

theorem slice_drop (f : ℕ → α) (i n k : ℕ) : (slice f i n).drop k = slice f (i + k) (n - k) := by
  obtain h | h := Nat.le_total k n
  · obtain ⟨m, rfl⟩ := Nat.exists_eq_add_of_le h
    rw [slice_add, drop_left' (length_slice f i k), Nat.add_sub_cancel_left]
  · rw [drop_of_length_le (by simpa using h), Nat.sub_eq_zero_of_le h, slice_zero]

theorem slice_update_succ (f : ℕ → α) (n : ℕ) (a : α) :
    slice (update f n a) 0 (n + 1) = slice f 0 n ++ [a] := by
  rw [slice_succ, Nat.zero_add, update_self]
  refine congrArg (· ++ [a]) (slice_congr fun j _ hj => ?_)
  exact update_of_ne (by omega) _ _

theorem slice_update_of_le {m : ℕ} (h : i + n ≤ m) (a : α) :
    slice (update f m a) i n = slice f i n :=
  slice_congr fun _ _ hj => update_of_ne (by omega) _ _

theorem store_of_mem {j : ℕ} (h : i ≤ j) (h' : j < i + xs.length) : store f i xs j = xs[j - i] := by
  rw [store, if_pos h, List.getElem?_eq_getElem (by omega), Option.getD_some]

theorem store_of_lt {j : ℕ} (h : j < i) : store f i xs j = f j :=
  if_neg (by omega)

theorem store_of_ge {j : ℕ} (h : i + xs.length ≤ j) : store f i xs j = f j := by
  rw [store, if_pos (by omega), List.getElem?_eq_none (by omega)]
  rfl

theorem slice_store (f : ℕ → α) (i : ℕ) (xs : List α) :
    slice (store f i xs) 0 (i + xs.length) = slice f 0 i ++ xs := by
  rw [slice_add, Nat.zero_add, slice_congr fun j _ hj => store_of_lt (by omega)]
  refine congrArg (slice f 0 i ++ ·) (ext_getElem? fun j => ?_)
  by_cases hj : j < xs.length
  · have hcell : store f i xs (i + j) = xs[j] := by
      rw [store, if_pos (Nat.le_add_right i j), Nat.add_sub_cancel_left,
        List.getElem?_eq_getElem hj]
      rfl
    rw [getElem?_slice hj, hcell, List.getElem?_eq_getElem hj]
  · rw [List.getElem?_eq_none (by simp; omega), List.getElem?_eq_none (by omega)]

theorem slice_store_at (f : ℕ → α) (i : ℕ) (xs : List α) : slice (store f i xs) i xs.length = xs := by
  have hsplit := slice_store f i xs
  rw [slice_add, Nat.zero_add, slice_congr fun j _ hj => store_of_lt (by omega)] at hsplit
  exact (append_right_inj _).1 hsplit

theorem slice_store_self (f : ℕ → α) (xs : List α) : slice (store f 0 xs) 0 xs.length = xs := by
  simpa using slice_store f 0 xs

/-! ## Moves inside a buffer -/

variable {dst src d j : ℕ}

theorem moveUp_of_lt (h : j < dst) : moveUp f dst src n j = f j := by
  induction n with
  | zero => rfl
  | succ n ih =>
    rw [moveUp, update_of_ne (by omega)]
    exact ih

theorem moveUp_of_ge (h : dst + n ≤ j) : moveUp f dst src n j = f j := by
  induction n with
  | zero => rfl
  | succ n ih =>
    rw [moveUp, update_of_ne (by omega)]
    exact ih (by omega)

theorem moveUp_of_le (h : dst ≤ src) (hj : j < n) : moveUp f dst src n (dst + j) = f (src + j) := by
  induction n with
  | zero => omega
  | succ n ih =>
    rw [moveUp]
    by_cases hjn : j = n
    · subst hjn
      rw [update_self]
      -- the cells at and behind `src + n` are read before they are written
      exact moveUp_of_ge (by omega)
    · rw [update_of_ne (by omega)]
      exact ih (by omega)

/-- Copying to the back by less than the number of cells repeats the first ones. -/
theorem moveUp_of_pos (hd : 0 < d) (hj : j < n) :
    moveUp f (src + d) src n (src + d + j) = f (src + j % d) := by
  induction n generalizing j with
  | zero => omega
  | succ n ih =>
    rw [moveUp]
    by_cases hjn : j = n
    · subst hjn
      rw [update_self]
      by_cases hlt : j < d
      · rw [moveUp_of_lt (by omega), Nat.mod_eq_of_lt hlt]
      · -- the cell that is read was itself copied from `d` cells before
        have hcell : src + j = src + d + (j - d) := by omega
        rw [hcell, ih (by omega), ← Nat.mod_eq_sub_mod (by omega)]
    · rw [update_of_ne (by omega)]
      exact ih (by omega)

theorem moveDown_apply (h : src ≤ dst) (k : ℕ) :
    moveDown f dst src n k = if dst ≤ k ∧ k < dst + n then f (src + (k - dst)) else f k := by
  induction n generalizing f with
  | zero =>
    rw [if_neg (by omega)]
    rfl
  | succ n ih =>
    rw [moveDown, ih]
    by_cases hin : dst ≤ k ∧ k < dst + n
    · rw [if_pos hin, if_pos (by omega), update_of_ne (by omega)]
    · rw [if_neg hin]
      by_cases hk : k = dst + n
      · rw [if_pos (by omega), hk, update_self]
        congr 1
        omega
      · rw [update_of_ne hk, if_neg (by omega)]

end Cleonos.Buffer
