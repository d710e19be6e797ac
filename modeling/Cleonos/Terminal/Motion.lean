import Cleonos.Terminal.Bounds

/-!
# Cursor motions

A motion of the cursor ends where its parameters say, clamped to the screen.
-/

namespace Cleonos.Terminal

open List

variable {app app' : TermApp} {params : List UInt8} {scan : ParamScan} {n m : ℕ → ℕ}

/-! ## Parameters -/

/-- The numbers of a text of digits and semicolons; `value` was read of the first one. -/
def numbersFrom (value : ℕ) : List UInt8 → List ℕ
  | [] => [value]
  | ch :: rest =>
    if ch = 59 then value :: numbersFrom 0 rest
    else numbersFrom (value * 10 + (ch.toNat - 48)) rest

/-- A parameter; 1 where it is missing or zero. -/
def orOne (value : ℕ) : ℕ := if value = 0 then 1 else value

/-- The parameter at an index that is meant. -/
def number (params : List UInt8) (index : ℕ) : ℕ := orOne ((numbersFrom 0 params)[index]?.getD 0)

/-- The parameter at an index that is used: of the bytes that are kept, in 64 bits. -/
def numberUsed (params : List UInt8) (index : ℕ) : ℕ :=
  orOne ((numbersFrom 0 (params.take (termAnsiMax - 1)))[index]?.getD 0 % 2 ^ 64)

/-- A text of decimal parameters. -/
def Decimal (params : List UInt8) : Prop := ∀ ch ∈ params, ch ≥ 48 ∧ ch ≤ 57 ∨ ch = 59

instance (params : List UInt8) : Decidable (Decimal params) := List.decidableBAll _ params

theorem numbersFrom_mod (value : ℕ) (params : List UInt8) :
    (numbersFrom (value % 2 ^ 64) params).map (· % 2 ^ 64) =
      (numbersFrom value params).map (· % 2 ^ 64) := by
  induction params generalizing value with
  | nil => simp [numbersFrom]
  | cons ch rest ih =>
    rw [numbersFrom, numbersFrom]
    split
    · simp
    · rw [← ih, ← ih (value * 10 + _)]
      have hmod : (value % 2 ^ 64 * 10 + (ch.toNat - 48)) % 2 ^ 64 =
          (value * 10 + (ch.toNat - 48)) % 2 ^ 64 := by omega
      rw [hmod]

/-- Where no digit was read, the value is zero. -/
def ParamScan.Fresh (scan : ParamScan) : Prop := scan.hasDigit = false → scan.value = 0

theorem values_push (hfresh : scan.Fresh) (hlen : scan.values.length ≤ maxValues) :
    scan.push.values = (scan.values ++ [scan.value]).take maxValues := by
  have hvalue : (if scan.hasDigit then scan.value else 0) = scan.value := by
    split
    · rfl
    · next hno => exact (hfresh (by simpa using hno)).symm
  rw [ParamScan.push, hvalue]
  split
  · next hroom =>
    rw [take_of_length_le]
    rw [length_append, length_singleton]
    exact hroom
  · next hfull =>
    rw [take_append_of_le_length (not_lt.1 hfull), take_of_length_le hlen]

theorem take_take_append {α : Type*} (xs ys : List α) (k : ℕ) : (xs.take k ++ ys).take k = (xs ++ ys).take k := by
  by_cases hlen : xs.length ≤ k
  · rw [take_of_length_le hlen]
  · have hle : k ≤ xs.length := (not_le.1 hlen).le
    have hlen' : (xs.take k).length = k := length_take_of_le hle
    rw [take_append_of_le_length hle, take_append_of_le_length hlen'.ge, take_take,
      Nat.min_self]

theorem values_scan (hdecimal : Decimal params) (hfresh : scan.Fresh)
    (hlen : scan.values.length ≤ maxValues) (hvalue : scan.value < 2 ^ 64) :
    (params.foldl ParamScan.step scan).push.values =
      (scan.values ++ (numbersFrom scan.value params).map (· % 2 ^ 64)).take maxValues := by
  induction params generalizing scan with
  | nil =>
    rw [foldl_nil, values_push hfresh hlen, numbersFrom, map_singleton,
      Nat.mod_eq_of_lt hvalue]
  | cons ch rest ih =>
    obtain ⟨hch, hrest⟩ := forall_mem_cons.1 hdecimal
    rw [foldl_cons, ParamScan.step, numbersFrom]
    by_cases hdigit : ch ≥ 48 ∧ ch ≤ 57
    · have hne : ch ≠ 59 := by
        rintro rfl
        exact absurd hdigit.2 (by decide)
      rw [if_pos hdigit, if_neg hne, ← numbersFrom_mod]
      exact ih hrest (fun h => by cases h) hlen (Nat.mod_lt _ (by decide))
    · obtain rfl : ch = 59 := hch.resolve_left hdigit
      have hpushed := values_push hfresh hlen
      have hlen' : scan.push.values.length ≤ maxValues := by
        rw [hpushed]
        exact length_take_le _ _
      have hdone := @ih scan.push hrest (fun _ => rfl) hlen' (Nat.two_pow_pos 64)
      rw [if_neg hdigit, if_pos rfl, if_pos rfl, hdone, hpushed, take_take_append, map_cons,
        Nat.mod_eq_of_lt hvalue, append_assoc]
      rfl

theorem parseParams_eq (hdecimal : Decimal params) :
    parseParams params = ((numbersFrom 0 params).map (· % 2 ^ 64)).take maxValues := by
  unfold parseParams
  split
  · next hnil =>
    rw [hnil]
    rfl
  · exact values_scan hdecimal (fun _ => rfl) (Nat.zero_le _) (Nat.two_pow_pos 64)

theorem paramOrDefault_eq (hdecimal : Decimal params) {index : ℕ} (hindex : index < maxValues) :
    paramOrDefault (parseParams params) index 1 =
      some (orOne ((numbersFrom 0 params)[index]?.getD 0 % 2 ^ 64)) := by
  have hget : (parseParams params)[index]? = (numbersFrom 0 params)[index]?.map (· % 2 ^ 64) := by
    rw [parseParams_eq hdecimal, List.getElem?_take_of_lt hindex, List.getElem?_map]
  unfold paramOrDefault
  split
  · next hout =>
    rw [List.getElem?_eq_none hout] at hget
    rw [Option.map_eq_none_iff.1 hget.symm]
    rfl
  · next hin =>
    rw [hget]
    cases hvalue : (numbersFrom 0 params)[index]? with
    | none =>
      rw [hvalue, List.getElem?_eq_getElem (not_le.1 hin)] at hget
      cases hget
    | some value => rfl

/-- The motions of the cursor that take parameters. -/
inductive Motion
  | up
  | down
  | right
  | left
  | nextLine
  | previousLine
  | column
  | row
  | position
  | positionF
  deriving DecidableEq, Repr

/-- The last byte of the sequence of a motion. -/
def Motion.final : Motion → UInt8
  | .up => 65
  | .down => 66
  | .right => 67
  | .left => 68
  | .nextLine => 69
  | .previousLine => 70
  | .column => 71
  | .row => 100
  | .position => 72
  | .positionF => 102

/-- The position that a motion means, clamped to the screen; `n` are its parameters. -/
def Motion.target (motion : Motion) (row col : ℕ) (n : ℕ → ℕ) : ℕ × ℕ :=
  match motion with
  | .up => (row - n 0, col)
  | .down => (min (row + n 0) (termLines - 1), col)
  | .right => (row, min (col + n 0) (termLineMax - 2))
  | .left => (row, col - n 0)
  | .nextLine => (min (row + n 0) (termLines - 1), 0)
  | .previousLine => (row - n 0, 0)
  | .column => (row, min (n 0 - 1) (termLineMax - 2))
  | .row => (min (n 0 - 1) (termLines - 1), col)
  | .position | .positionF => (min (n 0 - 1) (termLines - 1), min (n 1 - 1) (termLineMax - 2))

/-- Two numbers are equal, or both are at least as far as the edge. -/
def SameTo (edge a b : ℕ) : Prop := a = b ∨ edge ≤ a ∧ edge ≤ b

/-- The parameters that are meant and those that are used reach the same place, where the sum of
the cursor and the parameter that is used is taken in 64 bits. -/
def Motion.Agrees (motion : Motion) (row col : ℕ) (n m : ℕ → ℕ) : Prop :=
  match motion with
  | .up | .previousLine => SameTo row (n 0) (m 0)
  | .down | .nextLine => SameTo (termLines - 1) (row + n 0) ((row + m 0) % 2 ^ 64)
  | .right => SameTo (termLineMax - 2) (col + n 0) ((col + m 0) % 2 ^ 64)
  | .left => SameTo col (n 0) (m 0)
  | .column => SameTo (termLineMax - 1) (n 0) (m 0)
  | .row => SameTo termLines (n 0) (m 0)
  | .position | .positionF => SameTo termLines (n 0) (m 0) ∧ SameTo (termLineMax - 1) (n 1) (m 1)

theorem sub_eq_sub_iff (row a b : ℕ) : row - b = row - a ↔ SameTo row a b := by
  unfold SameTo
  omega

theorem min_eq_min_iff (edge a b : ℕ) : min b edge = min a edge ↔ SameTo edge a b := by
  unfold SameTo
  omega

theorem min_pred_eq_iff {a b : ℕ} (ha : 0 < a) (hb : 0 < b) (edge : ℕ) :
    min (b - 1) edge = min (a - 1) edge ↔ SameTo (edge + 1) a b := by
  unfold SameTo
  omega

theorem clampRow_eq (row : ℕ) : clampRow row = min row (termLines - 1) := by
  have hlines : termLines = 128 := rfl
  unfold clampRow
  split <;> omega

theorem clampCol_eq (col : ℕ) : clampCol col = min col (termLineMax - 2) := by
  have hcols : termLineMax = 160 := rfl
  unfold clampCol
  split <;> omega

theorem orOne_pos (value : ℕ) : 0 < orOne value := by
  unfold orOne
  split <;> omega

/-- Where the code puts the cursor. -/
def Motion.reached (motion : Motion) (row col : ℕ) (m : ℕ → ℕ) : ℕ × ℕ :=
  match motion with
  | .up => (row - m 0, col)
  | .down => (clampRow ((row + m 0) % 2 ^ 64), col)
  | .right => (row, clampCol ((col + m 0) % 2 ^ 64))
  | .left => (row, col - m 0)
  | .nextLine => (clampRow ((row + m 0) % 2 ^ 64), 0)
  | .previousLine => (row - m 0, 0)
  | .column => (row, clampCol (m 0 - 1))
  | .row => (clampRow (m 0 - 1), col)
  | .position | .positionF => (clampRow (m 0 - 1), clampCol (m 1 - 1))

theorem reached_eq_target_iff (motion : Motion) (row col : ℕ) (hn : ∀ i, 0 < n i) (hm : ∀ i, 0 < m i) :
    motion.reached row col m = motion.target row col n ↔ motion.Agrees row col n m := by
  have hrows : termLines - 1 + 1 = termLines := rfl
  have hcols : termLineMax - 2 + 1 = termLineMax - 1 := rfl
  cases motion <;>
    simp only [Motion.reached, Motion.target, Motion.Agrees, Prod.mk.injEq, true_and, and_true,
      clampRow_eq, clampCol_eq, sub_eq_sub_iff, min_eq_min_iff, min_pred_eq_iff (hn _) (hm _), hrows,
      hcols]

/-- The position of the cursor. -/
def TermApp.cursor (app : TermApp) : ℕ × ℕ := (app.cursorRow, app.cursorCol)

theorem succeeds_moveTo_cursor (h : InBounds app) {row col : ℕ} (hrow : row < termLines)
    (hcol : col ≤ termLineMax - 1) :
    Succeeds (moveTo app row col) (fun app' => app'.cursor = (row, col)) := by
  have hmoved : InBounds { app with cursorRow := row, cursorCol := col } :=
    ⟨hrow, hcol, h.count, h.buf, h.ends⟩
  refine (succeeds_ensureRow hmoved row).mono ?_
  intro app' hnear
  rw [TermApp.cursor, hnear.cursorRow, hnear.cursorCol]

theorem succeeds_applyFinal_motion (h : InBounds app) {values : List ℕ} (motion : Motion)
    (hvalues : ∀ i < 2, paramOrDefault values i 1 = some (m i)) :
    Succeeds (applyFinal app values motion.final)
      (fun app' => app'.cursor = motion.reached app.cursorRow app.cursorCol m) := by
  have hfirst := hvalues 0 (by decide)
  have hsub : app.cursorRow - m 0 < termLines := (Nat.sub_le _ _).trans_lt h.row
  cases motion with
  | up =>
    change Succeeds (paramOrDefault values 0 1 >>= fun n =>
      some { app with cursorRow := app.cursorRow - n }) _
    rw [hfirst]
    exact .of_some rfl
  | down =>
    change Succeeds (paramOrDefault values 0 1 >>= fun n =>
      moveTo app (clampRow ((app.cursorRow + n) % 2 ^ 64)) app.cursorCol) _
    rw [hfirst]
    exact succeeds_moveTo_cursor h (clampRow_lt _) h.col
  | right =>
    change Succeeds (paramOrDefault values 0 1 >>= fun n =>
      some { app with cursorCol := clampCol ((app.cursorCol + n) % 2 ^ 64) }) _
    rw [hfirst]
    exact .of_some rfl
  | left =>
    change Succeeds (paramOrDefault values 0 1 >>= fun n =>
      some { app with cursorCol := app.cursorCol - n }) _
    rw [hfirst]
    exact .of_some rfl
  | nextLine =>
    change Succeeds (paramOrDefault values 0 1 >>= fun n =>
      moveTo app (clampRow ((app.cursorRow + n) % 2 ^ 64)) 0) _
    rw [hfirst]
    exact succeeds_moveTo_cursor h (clampRow_lt _) (Nat.zero_le _)
  | previousLine =>
    change Succeeds (paramOrDefault values 0 1 >>= fun n =>
      moveTo app (app.cursorRow - n) 0) _
    rw [hfirst]
    exact succeeds_moveTo_cursor h hsub (Nat.zero_le _)
  | column =>
    change Succeeds (paramOrDefault values 0 1 >>= fun col =>
      some { app with cursorCol := clampCol (col - 1) }) _
    rw [hfirst]
    exact .of_some rfl
  | row =>
    change Succeeds (paramOrDefault values 0 1 >>= fun row =>
      moveTo app (clampRow (row - 1)) app.cursorCol) _
    rw [hfirst]
    exact succeeds_moveTo_cursor h (clampRow_lt _) h.col
  | position =>
    change Succeeds (paramOrDefault values 0 1 >>= fun row => paramOrDefault values 1 1 >>= fun col =>
      moveTo app (clampRow (row - 1)) (clampCol (col - 1))) _
    rw [hfirst, hvalues 1 (by decide)]
    exact succeeds_moveTo_cursor h (clampRow_lt _) (clampCol_le _)
  | positionF =>
    change Succeeds (paramOrDefault values 0 1 >>= fun row => paramOrDefault values 1 1 >>= fun col =>
      moveTo app (clampRow (row - 1)) (clampCol (col - 1))) _
    rw [hfirst, hvalues 1 (by decide)]
    exact succeeds_moveTo_cursor h (clampRow_lt _) (clampCol_le _)

theorem final_not_collected (motion : Motion) :
    ¬ ((motion.final ≥ 48 ∧ motion.final ≤ 57) ∨ motion.final = 59 ∨ motion.final = 63 ∨
      motion.final = 61) := by
  cases motion <;> decide

theorem appendBytes_params (hstate : app.ansiState = .csi) (hbuf : app.ansiBuf.length ≤ termAnsiMax - 1)
    (hdecimal : Decimal params) : appendBytes app params =
      some { app with ansiBuf := (app.ansiBuf ++ params).take (termAnsiMax - 1) } := by
  induction params generalizing app with
  | nil =>
    rw [append_nil, take_of_length_le hbuf]
    rfl
  | cons ch rest ih =>
    obtain ⟨hch, hrest⟩ := forall_mem_cons.1 hdecimal
    have hcollected : (ch ≥ 48 ∧ ch ≤ 57) ∨ ch = 59 ∨ ch = 63 ∨ ch = 61 :=
      hch.imp_right .inl
    have hone : appendAnsiChar app ch =
        some { app with ansiBuf := (app.ansiBuf ++ [ch]).take (termAnsiMax - 1) } := by
      unfold appendAnsiChar
      rw [hstate]
      dsimp only
      rw [if_pos hcollected]
      split
      · next hroom =>
        rw [take_of_length_le]
        rw [length_append, length_singleton]
        exact Nat.le_sub_one_of_lt hroom
      · next hfull =>
        have hlen : app.ansiBuf.length = termAnsiMax - 1 := by omega
        rw [← hlen, take_left, ← hstate]
    have hlen : ((app.ansiBuf ++ [ch]).take (termAnsiMax - 1)).length ≤ termAnsiMax - 1 :=
      length_take_le _ _
    have hkept := @ih { app with ansiBuf := (app.ansiBuf ++ [ch]).take (termAnsiMax - 1) }
      hstate hlen hrest
    rw [appendBytes, foldlM_cons, hone]
    refine hkept.trans ?_
    rw [take_take_append, append_assoc]
    rfl

theorem succeeds_motion (h : InBounds app) (htext : app.ansiState = .text) (motion : Motion)
    (hdecimal : Decimal params) :
    Succeeds (appendBytes app ([27, 91] ++ params ++ [motion.final])) (fun app' =>
      app'.cursor = motion.reached app.cursorRow app.cursorCol (numberUsed params)) := by
  have hstart : appendBytes app [27, 91] = some { app with ansiState := .csi, ansiBuf := [] } := by
    rw [appendBytes, foldlM_cons]
    simp only [appendAnsiChar, htext]
    rfl
  have hparams := @appendBytes_params { app with ansiState := .csi, ansiBuf := [] } params rfl
    (Nat.zero_le _) hdecimal
  have hkept : Decimal (params.take (termAnsiMax - 1)) := by
    intro ch hch
    exact hdecimal ch (mem_of_mem_take hch)
  have hbuf : (params.take (termAnsiMax - 1)).length < termAnsiMax :=
    (length_take_le _ _).trans_lt (by decide)
  have hready : InBounds
      { app with ansiState := .csi, ansiBuf := params.take (termAnsiMax - 1) } :=
    ⟨h.row, h.col, h.count, hbuf, h.ends⟩
  have hmove := succeeds_applyFinal_motion hready motion fun i hi =>
    paramOrDefault_eq hkept (hi.trans (by decide))
  obtain ⟨app', hfinal, hcursor⟩ := hmove
  refine ⟨{ app' with ansiState := .text, ansiBuf := [] }, ?_, hcursor⟩
  rw [appendBytes, foldlM_append, foldlM_append]
  change (appendBytes app [27, 91] >>= fun app => appendBytes app params) >>= _ = _
  rw [hstart]
  change appendBytes _ params >>= _ = _
  rw [hparams, nil_append]
  change appendAnsiChar _ motion.final >>= pure = _
  rw [bind_pure]
  unfold appendAnsiChar
  dsimp only
  rw [if_neg (final_not_collected motion), applyAnsi, if_pos hbuf]
  dsimp only
  rw [hfinal]
  rfl

/-- A motion ends at the position that is meant. -/
def Moves (app : TermApp) (motion : Motion) (params : List UInt8) : Prop :=
  ∃ app', appendBytes app ([27, 91] ++ params ++ [motion.final]) = some app' ∧
    app'.cursor = motion.target app.cursorRow app.cursorCol (number params)

/-- **A motion ends at the position that is meant, clamped to the screen, if and only if the
parameters that are meant and those that are used agree.** -/
theorem motion_iff (h : InBounds app) (htext : app.ansiState = .text) (motion : Motion)
    (hdecimal : Decimal params) :
    Moves app motion params ↔
      motion.Agrees app.cursorRow app.cursorCol (number params) (numberUsed params) := by
  have hagrees := reached_eq_target_iff motion app.cursorRow app.cursorCol
    (n := number params) (m := numberUsed params) (fun _ => orOne_pos _) (fun _ => orOne_pos _)
  rw [← hagrees]
  obtain ⟨app', hrun, hcursor⟩ := succeeds_motion h htext motion hdecimal
  constructor
  · rintro ⟨app'', hrun', htarget⟩
    rw [hrun] at hrun'
    rw [← hcursor, Option.some.inj hrun', htarget]
  · intro heq
    exact ⟨app', hrun, hcursor.trans heq⟩

/-- The largest number of 64 bits, in decimal. -/
def largest : List UInt8 := lit "18446744073709551615"

/-- The terminal with the cursor in its sixth row. -/
def sixthRow : TermApp := { cleared with cursorRow := 5 }

theorem inBounds_sixthRow : InBounds sixthRow :=
  ⟨by decide, inBounds_cleared.col, inBounds_cleared.count, inBounds_cleared.buf,
    inBounds_cleared.ends⟩

theorem motion_down_two : Moves sixthRow .down [50] :=
  (motion_iff inBounds_sixthRow rfl .down (by decide)).2 (.inl (by decide +kernel))

/-- Down by the largest number, the cursor goes up. -/
theorem down_goes_up : ¬ ∀ (app : TermApp) (motion : Motion) (params : List UInt8), InBounds app →
    app.ansiState = .text → Decimal params → Moves app motion params := by
  intro h
  have hdecimal : Decimal largest := by decide +kernel
  obtain ⟨app', hrun, htarget⟩ := h sixthRow .down largest inBounds_sixthRow rfl hdecimal
  obtain ⟨app'', hrun', hcursor⟩ := succeeds_motion inBounds_sixthRow rfl .down hdecimal
  rw [hrun] at hrun'
  rw [← Option.some.inj hrun', htarget] at hcursor
  exact absurd hcursor (by decide +kernel)

end Cleonos.Terminal
