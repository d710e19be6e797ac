import Cleonos.Boot.Selected
import Mathlib.Tactic.IntervalCases

/-!
# The digits of the boot menu

Both renderers number the entries of the page with the selected one; a digit key counts from the
first entry of a page of eight.
-/

namespace Cleonos.Boot.Select

/-- The rows of a menu: the digit that is drawn, and the entry. -/
def drawRows (pageSize count selected : ℕ) : List (UInt16 × ℕ) :=
  let start := selected / pageSize * pageSize
  let stop := if start + pageSize > count then count else start + pageSize
  (List.range' start (stop - start)).map fun i => (49 + UInt16.ofNat (i - start), i)

/-- The rows of `clboot_draw_menu` on the text screen. -/
def drawMenu (count selected : ℕ) : List (UInt16 × ℕ) := drawRows 8 count selected

/-- The rows of `clboot_gfx_draw_menu`. -/
def gfxDrawMenu (count selected : ℕ) : List (UInt16 × ℕ) := drawRows 7 count selected

/-- The rows on the screen; `gfx` is `clboot_gfx_available`. -/
def shown (gfx : Bool) (count selected : ℕ) : List (UInt16 × ℕ) :=
  if gfx then gfxDrawMenu count selected else drawMenu count selected

/-- In the menu, the digit of a row selects its entry, and whatever is pressed, the selected
entry has a row. -/
def DigitsSelect (gfx : Bool) (s : State) : Prop :=
  (∀ row ∈ shown gfx s.rows.length s.selected, ∀ scanCode,
    (poll s (some ⟨scanCode, row.1⟩)).selected = row.2) ∧
  ∀ keys, ∃ digit,
    (digit, (polls s keys).selected) ∈ shown gfx (polls s keys).rows.length (polls s keys).selected

variable {s : State} {count selected pageSize i : ℕ}

theorem mem_drawRows_iff {row : UInt16 × ℕ} : row ∈ drawRows pageSize count selected ↔
    selected / pageSize * pageSize ≤ row.2 ∧ row.2 < selected / pageSize * pageSize + pageSize ∧
      row.2 < count ∧ row.1 = 49 + UInt16.ofNat (row.2 - selected / pageSize * pageSize) := by
  obtain ⟨digit, i⟩ := row
  simp only [drawRows, List.mem_map, List.mem_range'_1, Prod.mk.injEq]
  constructor
  · rintro ⟨i, hi, rfl, rfl⟩
    split at hi <;> exact ⟨hi.1, by omega, by omega, rfl⟩
  · rintro ⟨hlo, hhi, hcount, rfl⟩
    refine ⟨i, ⟨hlo, ?_⟩, rfl, rfl⟩
    split <;> omega

theorem selected_mem_drawRows (hsize : 0 < pageSize) (hlt : selected < count) :
    ∃ digit, (digit, selected) ∈ drawRows pageSize count selected := by
  refine ⟨49 + UInt16.ofNat (selected - selected / pageSize * pageSize), mem_drawRows_iff.2 ?_⟩
  have hmod := Nat.mod_lt selected hsize
  have hsplit := Nat.div_add_mod' selected pageSize
  refine ⟨Nat.div_mul_le_self _ _, ?_, hlt, rfl⟩
  omega

theorem selected_mem_shown (gfx : Bool) (hlt : selected < count) :
    ∃ digit, (digit, selected) ∈ shown gfx count selected := by
  unfold shown
  split
  · exact selected_mem_drawRows (by decide) hlt
  · exact selected_mem_drawRows (by decide) hlt

/-! ## The keys -/

theorem keyAction_digit (count selected : ℕ) (scanCode : UInt16) (hi : i < 8) :
    keyAction count selected ⟨scanCode, 49 + UInt16.ofNat i⟩ =
      if selected / 8 * 8 + i ≥ count then none else some (.select (selected / 8 * 8 + i)) := by
  interval_cases i <;> rfl

theorem selected_menuKey (s : State) (key : InputKey) :
    (menuKey s key).selected =
      match keyAction s.rows.length s.selected key with
      | some (.select next) => next
      | _ => s.selected := by
  unfold menuKey
  cases keyAction s.rows.length s.selected key with
  | none => exact selected_endRound s
  | some a =>
    cases a with
    | boot =>
      dsimp only
      split <;> rfl
    | edit => rfl
    | preview => rfl
    | info => rfl
    | shell => rfl
    | select next => exact selected_endRound _

theorem selected_poll_digit (hmenu : s.screen = .menu) (scanCode : UInt16) (hi : i < 8) :
    (poll s (some ⟨scanCode, 49 + UInt16.ofNat i⟩)).selected =
      if s.selected / 8 * 8 + i ≥ s.rows.length then s.selected else s.selected / 8 * 8 + i := by
  have hpoll : poll s (some ⟨scanCode, 49 + UInt16.ofNat i⟩) =
      menuKey s ⟨scanCode, 49 + UInt16.ofNat i⟩ := by
    unfold poll
    rw [hmenu]
  rw [hpoll, selected_menuKey, keyAction_digit _ _ _ hi]
  split_ifs <;> rfl

theorem selected_lt_poll (h : s.selected < s.rows.length) (key : Option InputKey) :
    (poll s key).selected < (poll s key).rows.length := by
  generalize hs' : poll s key = s'
  have heffect := hs' ▸ effect_poll s key
  cases heffect with
  | select k next _ _ haction =>
    rw [selected_endRound, rows_endRound]
    exact keyAction_select_lt h haction
  | type => simpa using h
  | _ => simpa using h

theorem selected_lt_polls (h : s.selected < s.rows.length) (keys : List (Option InputKey)) :
    (polls s keys).selected < (polls s keys).rows.length := by
  induction keys generalizing s with
  | nil => exact h
  | cons key keys ih => exact ih (selected_lt_poll h key)

theorem digit_selects (hmenu : s.screen = .menu) {row : UInt16 × ℕ} (hsize : pageSize ≤ 8)
    (hpage : s.selected / pageSize * pageSize = s.selected / 8 * 8)
    (hrow : row ∈ drawRows pageSize s.rows.length s.selected) (scanCode : UInt16) :
    (poll s (some ⟨scanCode, row.1⟩)).selected = row.2 := by
  obtain ⟨hlo, hhi, hcount, hdigit⟩ := mem_drawRows_iff.1 hrow
  have hentry : s.selected / 8 * 8 + (row.2 - s.selected / pageSize * pageSize) = row.2 := by
    omega
  rw [hdigit, selected_poll_digit hmenu scanCode (by omega), hentry, if_neg (by omega)]

theorem first_digit_selects (hmenu : s.screen = .menu) (hlt : s.selected < s.rows.length)
    (hsize : 0 < pageSize)
    (hrows : ∀ row ∈ drawRows pageSize s.rows.length s.selected, ∀ scanCode,
      (poll s (some ⟨scanCode, row.1⟩)).selected = row.2) :
    s.selected / pageSize * pageSize = s.selected / 8 * 8 := by
  have hle := Nat.div_mul_le_self s.selected pageSize
  have hle8 := Nat.div_mul_le_self s.selected 8
  have hrow : ((49 : UInt16) + UInt16.ofNat 0, s.selected / pageSize * pageSize) ∈
      drawRows pageSize s.rows.length s.selected := by
    refine mem_drawRows_iff.2 ⟨le_rfl, Nat.lt_add_of_pos_right hsize, hle.trans_lt hlt, ?_⟩
    rw [Nat.sub_self]
  have hselects := hrows _ hrow 0
  rw [selected_poll_digit hmenu 0 (by decide), Nat.add_zero, if_neg (by omega)] at hselects
  exact hselects.symm

/-- **The digits select what they stand at on the text screen, and in the graphical menu on its
first page.** -/
theorem digits_select_iff (gfx : Bool) (s : State) (hmenu : s.screen = .menu)
    (hselected : s.selected < s.rows.length) (hcount : s.rows.length ≤ menuMaxEntries) :
    DigitsSelect gfx s ↔ gfx = false ∨ s.selected < 7 := by
  have hdrawn : ∀ keys, ∃ digit, (digit, (polls s keys).selected) ∈
      shown gfx (polls s keys).rows.length (polls s keys).selected := by
    intro keys
    exact selected_mem_shown gfx (selected_lt_polls hselected keys)
  rw [menuMaxEntries] at hcount
  constructor
  · intro h
    by_contra hnot
    rw [not_or, Bool.not_eq_false, not_lt] at hnot
    have hrows := h.1
    rw [shown, if_pos hnot.1] at hrows
    have hpage := first_digit_selects hmenu hselected (by decide) hrows
    have hseven := hnot.2
    omega
  · intro h
    refine ⟨?_, hdrawn⟩
    intro row hrow scanCode
    unfold shown at hrow
    split at hrow
    · next hgfx =>
      obtain h | h := h
      · rw [h] at hgfx
        cases hgfx
      · exact digit_selects hmenu (by decide) (by omega) hrow scanCode
    · exact digit_selects hmenu le_rfl rfl hrow scanCode

/-- The menu with the built-in entries, after so many keys. -/
def builtinMenu (keys : List (Option InputKey)) : State :=
  polls (bootMenu (fun _ _ => 0) none [] (fun _ => true) fun _ _ => 0) keys

theorem digits_select_builtin :
    (builtinMenu [none]).screen = .menu ∧ (builtinMenu [none]).selected = 0 ∧
      DigitsSelect true (builtinMenu [none]) :=
  ⟨by decide +kernel, by decide +kernel, (digits_select_iff true (builtinMenu [none])
    (by decide +kernel) (by decide +kernel) (by decide +kernel)).2 (.inr (by decide +kernel))⟩

/-- After the key up, the graphical menu shows the eighth built-in entry as number 1; the key
selects the first. -/
theorem digit_selects_other :
    (builtinMenu [none, some ⟨1, 0⟩]).screen = .menu ∧
      shown true 8 (builtinMenu [none, some ⟨1, 0⟩]).selected = [(49, 7)] ∧
      (builtinMenu [none, some ⟨1, 0⟩, some ⟨0, 49⟩]).selected = 0 ∧
      ¬ DigitsSelect true (builtinMenu [none, some ⟨1, 0⟩]) := by
  refine ⟨by decide +kernel, by decide +kernel, by decide +kernel, ?_⟩
  intro h
  have hselects := h.1 (49, 7) (by decide +kernel) 0
  have hother : (poll (builtinMenu [none, some ⟨1, 0⟩]) (some ⟨0, 49⟩)).selected = 0 := by
    decide +kernel
  rw [hother] at hselects
  cases hselects

end Cleonos.Boot.Select
