import Cleonos.Lib.Buffer

/-!
# Moving memory

`memmove`, whose two loops go up and down the bytes.
-/

namespace Cleonos.Libc

open Buffer (moveUp moveDown moveUp_of_lt moveUp_of_ge moveUp_of_le moveUp_of_pos moveDown_apply)

/-- `memmove` on the memory; nothing is done with a null pointer. -/
def memmove (mem : ℕ → UInt8) (dst src size : ℕ) : ℕ → UInt8 :=
  if dst = 0 ∨ src = 0 ∨ dst = src ∨ size = 0 then mem
  else if dst < src ∨ dst ≥ src + size then moveUp mem dst src size
  else moveDown mem dst src size

/-- The destination gets what the source held, however the two overlap, and the rest of the memory
stays as it is. -/
theorem memmove_apply (mem : ℕ → UInt8) (dst src size k : ℕ) : memmove mem dst src size k =
    if dst ≠ 0 ∧ src ≠ 0 ∧ dst ≤ k ∧ k < dst + size then mem (src + (k - dst)) else mem k := by
  rw [memmove]
  split
  · next hnone =>
    split
    · next hin =>
      obtain rfl : dst = src := by omega
      rw [Nat.add_sub_cancel' hin.2.2.1]
    · rfl
  next hsome =>
  split
  · next hup =>
    by_cases hin : dst ≤ k ∧ k < dst + size
    · rw [if_pos ⟨by tauto, by tauto, hin⟩]
      obtain ⟨j, rfl⟩ := Nat.exists_eq_add_of_le hin.1
      rw [Nat.add_sub_cancel_left]
      rcases hup with hlt | hge
      · exact moveUp_of_le (Nat.le_of_lt hlt) (by omega)
      · -- the ranges are apart, and no cell is read behind its change
        obtain ⟨d, rfl⟩ := Nat.exists_eq_add_of_le (Nat.le_of_add_right_le hge)
        rw [moveUp_of_pos (by omega) (by omega), Nat.mod_eq_of_lt (by omega)]
    · rw [if_neg (by tauto)]
      rcases Nat.lt_or_ge k dst with hlt | hge
      · exact moveUp_of_lt hlt
      · exact moveUp_of_ge (by omega)
  · next hdown =>
    rw [moveDown_apply (by omega)]
    exact if_congr (by tauto) rfl rfl

end Cleonos.Libc
