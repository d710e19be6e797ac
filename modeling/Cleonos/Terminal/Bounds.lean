import Cleonos.Lib.Run
import Cleonos.Terminal.Model

/-!
# Indices of the terminal

Whatever bytes the terminal is given, no access is out of bounds, the cursor stays inside the
lines and every line ends in a zero.
-/

namespace Cleonos.Terminal

open List

section

/-- The indices and the ends of the lines are in order. -/
structure InBounds (app : TermApp) : Prop where
  row : app.cursorRow < termLines
  col : app.cursorCol ≤ termLineMax - 1
  count : app.lineCount ≤ termLines
  buf : app.ansiBuf.length < termAnsiMax
  ends : ∀ row < termLines, app.lines row (termLineMax - 1) = 0

variable {app app' : TermApp} {row col n : ℕ} {ch : UInt8}

/-- In order, with the cursor and the sequence of `app`. -/
structure Near (app app' : TermApp) : Prop where
  inBounds : InBounds app'
  cursorRow : app'.cursorRow = app.cursorRow
  cursorCol : app'.cursorCol = app.cursorCol
  ansiState : app'.ansiState = app.ansiState
  ansiBuf : app'.ansiBuf = app.ansiBuf

theorem InBounds.near (h : InBounds app) : Near app app := ⟨h, rfl, rfl, rfl, rfl⟩

theorem Near.trans {app'' : TermApp} (h : Near app app') (h' : Near app' app'') : Near app app'' :=
  ⟨h'.inBounds, h'.cursorRow.trans h.cursorRow, h'.cursorCol.trans h.cursorCol,
    h'.ansiState.trans h.ansiState, h'.ansiBuf.trans h.ansiBuf⟩

/-! ## Cells -/

theorem setAt_last {f : ℕ → ℕ → UInt8} (h : ∀ r < termLines, f r (termLineMax - 1) = 0)
    (hcell : col < termLineMax - 1 ∨ ch = 0) {r : ℕ} (hr : r < termLines) :
    setAt f row col ch r (termLineMax - 1) = 0 := by
  rw [setAt]
  by_cases hrow : r = row
  · subst hrow
    rw [Function.update_self]
    by_cases hcol : termLineMax - 1 = col
    · subst hcol
      rw [Function.update_self]
      exact hcell.resolve_left (lt_irrefl _)
    · rw [Function.update_of_ne hcol]
      exact h r hr
  · rw [Function.update_of_ne hrow]
    exact h r hr

theorem succeeds_setLine (h : InBounds app) (hrow : row < termLines)
    (hcell : col < termLineMax - 1 ∨ col < termLineMax ∧ ch = 0) :
    Succeeds (setLine app row col ch) (Near app) := by
  have hcol : col < termLineMax := by
    have hmax : termLineMax = 160 := rfl
    omega
  rw [setLine, if_pos ⟨hrow, hcol⟩]
  refine .of_some ⟨⟨h.row, h.col, h.count, h.buf, fun r hr => ?_⟩, rfl, rfl, rfl, rfl⟩
  exact setAt_last h.ends (hcell.imp_right And.right) hr

theorem succeeds_setCell (h : InBounds app) (hrow : row < termLines)
    (hcell : col < termLineMax - 1 ∨ col < termLineMax ∧ ch = 0) :
    Succeeds (setCell app row col ch) (Near app) :=
  (succeeds_setLine h hrow hcell).map fun _ hnear =>
    ⟨⟨hnear.inBounds.row, hnear.inBounds.col, hnear.inBounds.count, hnear.inBounds.buf,
      hnear.inBounds.ends⟩, hnear.cursorRow, hnear.cursorCol, hnear.ansiState, hnear.ansiBuf⟩

theorem succeeds_getLine (hrow : row < termLines) (hcol : col < termLineMax) :
    Succeeds (getLine app row col) (fun ch => ch = app.lines row col) := by
  rw [getLine, if_pos ⟨hrow, hcol⟩]
  exact .of_some rfl

section

variable (h : InBounds app)
include h

theorem succeeds_trimFrom (hrow : row < termLines) (hcol : col < termLineMax) :
    Succeeds (trimFrom app row col) (Near app) := by
  induction col generalizing app with
  | zero => exact .of_some h.near
  | succ col ih =>
    rw [trimFrom]
    refine (succeeds_getLine hrow (Nat.lt_of_succ_lt hcol)).bind fun c _ => .ite (fun _ => ?_) fun _ => ?_
    · exact succeeds_setLine h hrow (.inr ⟨hcol, rfl⟩)
    · refine (succeeds_setLine h hrow (.inr ⟨Nat.lt_of_succ_lt hcol, rfl⟩)).bind fun app' hnear => ?_
      exact (ih hnear.inBounds (Nat.lt_of_succ_lt hcol)).mono fun _ => hnear.trans

theorem succeeds_trimLine : Succeeds (trimLine app row) (Near app) := by
  rw [trimLine]
  refine .ite (fun _ => .of_some h.near) fun hrow => ?_
  have hlt : row < termLines := not_le.1 hrow
  refine (succeeds_setLine h hlt (.inr ⟨by decide, rfl⟩)).bind fun app' hnear => ?_
  exact (succeeds_trimFrom hnear.inBounds hlt (by decide)).mono fun _ => hnear.trans

theorem succeeds_clearCells (hcol : n = 0 ∨ col + n ≤ termLineMax - 1) :
    Succeeds (clearCells app row col n) (Near app) := by
  induction n generalizing app col with
  | zero => exact .of_some h.near
  | succ n ih =>
    rw [clearCells]
    have hfits : col + (n + 1) ≤ termLineMax - 1 := hcol.resolve_left (Nat.succ_ne_zero n)
    have hcell : Succeeds (clearCell app row col) (Near app) := by
      rw [clearCell]
      refine .ite (fun _ => .of_some h.near) fun hin => ?_
      exact succeeds_setCell h (not_le.1 fun hrow => hin (.inl hrow)) (.inl (by omega))
    refine hcell.bind fun app' hnear => ?_
    exact (ih hnear.inBounds (.inr (by omega))).mono fun _ => hnear.trans

theorem succeeds_clearLineRange (row startCol endCol : ℕ) :
    Succeeds (clearLineRange app row startCol endCol) (Near app) := by
  rw [clearLineRange]
  refine .ite (fun _ => .of_some h.near) fun _ => ?_
  refine (succeeds_clearCells h (by omega)).bind fun app' hnear => ?_
  exact (succeeds_trimLine hnear.inBounds).mono fun _ => hnear.trans

theorem succeeds_clearRows (row n : ℕ) :
    Succeeds (clearRows app row n) (Near app) := by
  induction n generalizing app row with
  | zero => exact .of_some h.near
  | succ n ih =>
    rw [clearRows]
    refine (succeeds_clearLineRange h row 0 _).bind fun app' hnear => ?_
    exact (ih hnear.inBounds (row + 1)).mono fun _ => hnear.trans

end

theorem inBounds_termClear (h : app.ansiBuf.length < termAnsiMax) : InBounds (termClear app) :=
  ⟨Nat.succ_pos _, Nat.zero_le _, Nat.zero_le _, h, fun _ _ => rfl⟩

theorem lineCount_setCell (hset : setCell app row col ch = some app') :
    app'.lineCount = app.lineCount := by
  rw [setCell, setLine] at hset
  split at hset
  · cases hset
    rfl
  · cases hset

theorem InBounds.counted (h : InBounds app) (hcount : n ≤ termLines) :
    Near app { app with lineCount := n } :=
  ⟨⟨h.row, h.col, hcount, h.buf, h.ends⟩, rfl, rfl, rfl, rfl⟩

theorem succeeds_ensureRows (h : InBounds app) (hcount : app.lineCount + n ≤ termLines) :
    Succeeds (ensureRows app n) (Near app) := by
  induction n generalizing app with
  | zero => exact .of_some h.near
  | succ n ih =>
    obtain ⟨app', hset, hnear⟩ : Succeeds (setCell app app.lineCount 0 0) (Near app) :=
      succeeds_setCell h (by omega) (.inl (by decide))
    have hsame := lineCount_setCell hset
    have hnext := hnear.trans (hnear.inBounds.counted (n := app'.lineCount + 1) (by omega))
    rw [ensureRows, hset]
    refine (ih hnext.inBounds ?_).mono fun _ => hnext.trans
    change app'.lineCount + 1 + n ≤ termLines
    omega

theorem succeeds_ensureRow (h : InBounds app) (row : ℕ) : Succeeds (ensureRow app row) (Near app) := by
  have hcount := h.count
  have hmax : termLines = 128 := rfl
  rw [ensureRow]
  exact succeeds_ensureRows h (by omega)

theorem strnlen_le (line : ℕ → UInt8) (n : ℕ) : strnlen line n ≤ n := by
  induction n generalizing line with
  | zero => exact le_rfl
  | succ n ih =>
    rw [strnlen]
    split
    · exact Nat.zero_le _
    · exact Nat.succ_le_succ (ih _)

theorem strnlen_le_of_zero {line : ℕ → UInt8} (hzero : line col = 0) (n : ℕ) : strnlen line n ≤ col := by
  induction n generalizing line col with
  | zero => exact Nat.zero_le _
  | succ n ih =>
    rw [strnlen]
    split
    · exact Nat.zero_le _
    · cases col with
      | zero => contradiction
      | succ col => exact Nat.succ_le_succ (ih hzero)

theorem inBounds_shiftLines (h : InBounds app) : InBounds (shiftLines app) := by
  refine ⟨h.row, h.col, h.count, h.buf, fun r hr => ?_⟩
  change (if r + 1 < termLines then copyLine (app.lines (r + 1))
    else if r + 1 = termLines then Function.update (app.lines r) 0 0 else app.lines r)
      (termLineMax - 1) = 0
  split
  · rw [copyLine, if_neg (not_lt.2 (strnlen_le _ _))]
  split
  · rw [Function.update_of_ne (by decide)]
    exact h.ends r hr
  · exact h.ends r hr

/-- In order, with the cursor in the first column and the sequence of `app`. -/
structure AtStart (app app' : TermApp) : Prop where
  inBounds : InBounds app'
  cursorCol : app'.cursorCol = 0
  ansiState : app'.ansiState = app.ansiState
  ansiBuf : app'.ansiBuf = app.ansiBuf

theorem succeeds_newline (h : InBounds app) : Succeeds (newline app) (AtStart app) := by
  rw [newline]
  refine (succeeds_ensureRow h app.cursorRow).bind fun app₁ hnear => ?_
  have h₁ := hnear.inBounds
  have hzero : InBounds { app₁ with cursorCol := 0 } :=
    ⟨h₁.row, Nat.zero_le _, h₁.count, h₁.buf, h₁.ends⟩
  refine .ite (fun _ => .of_some ?_) fun hrow => ?_
  · have hshift := inBounds_shiftLines hzero
    exact ⟨⟨hshift.row, hshift.col, le_rfl, hshift.buf, hshift.ends⟩, rfl, hnear.ansiState,
      hnear.ansiBuf⟩
  · have hdown : InBounds { app₁ with cursorCol := 0, cursorRow := app₁.cursorRow + 1 } :=
      ⟨not_le.1 hrow, hzero.col, hzero.count, hzero.buf, hzero.ends⟩
    refine (succeeds_ensureRow hdown _).mono fun app₂ hnear₂ => ?_
    exact ⟨hnear₂.inBounds, hnear₂.cursorCol, hnear₂.ansiState.trans hnear.ansiState,
      hnear₂.ansiBuf.trans hnear.ansiBuf⟩

theorem succeeds_lineLen (h : InBounds app) :
    Succeeds (lineLen app app.cursorRow) (fun len => len ≤ termLineMax - 1) := by
  have hlen := strnlen_le_of_zero (h.ends _ h.row) termLineMax
  have hlt : strnlen (app.lines app.cursorRow) termLineMax < termLineMax :=
    lt_of_le_of_lt hlen (by decide)
  rw [lineLen, if_pos ⟨h.row, hlt⟩]
  exact .of_some hlen

theorem succeeds_padCells (h : InBounds app) (hrow : row < termLines)
    (hcol : n = 0 ∨ col + n ≤ termLineMax - 1) : Succeeds (padCells app row col n) (Near app) := by
  induction n generalizing app col with
  | zero => exact .of_some h.near
  | succ n ih =>
    have hfits : col + (n + 1) ≤ termLineMax - 1 := hcol.resolve_left (Nat.succ_ne_zero n)
    rw [padCells]
    refine (succeeds_setCell h hrow (.inl (by omega))).bind fun app' hnear => ?_
    exact (ih hnear.inBounds (.inr (by omega))).mono fun _ => hnear.trans

/-- In order, with the sequence of `app`. -/
structure Keeps (app app' : TermApp) : Prop where
  inBounds : InBounds app'
  ansiState : app'.ansiState = app.ansiState
  ansiBuf : app'.ansiBuf = app.ansiBuf

theorem Near.keeps (h : Near app app') : Keeps app app' := ⟨h.inBounds, h.ansiState, h.ansiBuf⟩

theorem Keeps.trans {app'' : TermApp} (h : Keeps app app') (h' : Keeps app' app'') :
    Keeps app app'' :=
  ⟨h'.inBounds, h'.ansiState.trans h.ansiState, h'.ansiBuf.trans h.ansiBuf⟩

theorem succeeds_wrapCursor (h : InBounds app) :
    Succeeds (wrapCursor app) (fun app' => Keeps app app' ∧ app'.cursorCol < termLineMax - 1) := by
  have hmax : termLineMax = 160 := rfl
  rw [wrapCursor]
  refine .ite (fun _ => ?_) fun hcol => .of_some ⟨h.near.keeps, by omega⟩
  refine (succeeds_newline h).mono fun app' hstart => ⟨⟨hstart.1, hstart.3, hstart.4⟩, ?_⟩
  rw [hstart.cursorCol]
  decide

theorem succeeds_keepZero (h : InBounds app) (hcol : app.cursorCol < termLineMax - 1) :
    Succeeds (keepZero app) (Near app) := by
  have hnext : app.cursorCol + 1 < termLineMax := Nat.add_lt_of_lt_sub hcol
  rw [keepZero]
  refine (succeeds_getLine h.row hnext).bind fun next _ => .ite (fun _ => ?_) fun _ => ?_
  · exact succeeds_setLine h h.row (.inr ⟨hnext, rfl⟩)
  · exact .of_some h.near

theorem succeeds_putChar (h : InBounds app) (ch : UInt8) : Succeeds (putChar app ch) (Keeps app) := by
  rw [putChar]
  refine (succeeds_wrapCursor h).bind fun app₁ ⟨hkeeps₁, hcol₁⟩ => ?_
  refine (succeeds_ensureRow hkeeps₁.inBounds _).bind fun app₂ hnear₂ => ?_
  refine (succeeds_lineLen hnear₂.inBounds).bind fun len hlen => ?_
  refine (succeeds_padCells hnear₂.inBounds hnear₂.inBounds.row (by omega)).bind fun app₃ hnear₃ => ?_
  have hcol₃ : app₃.cursorCol < termLineMax - 1 := by rwa [hnear₃.cursorCol, hnear₂.cursorCol]
  refine (succeeds_setCell hnear₃.inBounds hnear₃.inBounds.row (.inl hcol₃)).bind
    fun app₄ hnear₄ => ?_
  have hcol₄ : app₄.cursorCol < termLineMax - 1 := by rwa [hnear₄.cursorCol]
  refine (succeeds_keepZero hnear₄.inBounds hcol₄).bind fun app₅ hnear₅ => .of_some ?_
  have hkeeps := hkeeps₁.trans (hnear₂.trans (hnear₃.trans (hnear₄.trans hnear₅))).keeps
  have h₅ := hkeeps.inBounds
  have hcol₅ : app₅.cursorCol + 1 ≤ termLineMax - 1 := by rwa [hnear₅.cursorCol]
  exact ⟨⟨h₅.row, hcol₅, h₅.count, h₅.buf, h₅.ends⟩, hkeeps.ansiState, hkeeps.ansiBuf⟩

theorem succeeds_appendChar (h : InBounds app) (ch : UInt8) :
    Succeeds (appendChar app ch) (Keeps app) := by
  rw [appendChar]
  refine .ite (fun _ => .of_some ?_) fun _ => .ite (fun _ => ?_) fun _ => .ite (fun _ => ?_) fun _ => ?_
  · exact ⟨⟨h.row, Nat.zero_le _, h.count, h.buf, h.ends⟩, rfl, rfl⟩
  · exact (succeeds_newline h).mono fun app' hstart => ⟨hstart.1, hstart.3, hstart.4⟩
  · refine (succeeds_putChar h 32).bind fun app₁ h₁ => ?_
    refine (succeeds_putChar h₁.inBounds 32).bind fun app₂ h₂ => ?_
    refine (succeeds_putChar h₂.inBounds 32).bind fun app₃ h₃ => ?_
    exact (succeeds_putChar h₃.inBounds 32).mono fun app₄ h₄ => h₁.trans (h₂.trans (h₃.trans h₄))
  · exact succeeds_putChar h ch

theorem succeeds_paramOrDefault (params : List ℕ) (index defaultValue : ℕ) :
    Succeeds (paramOrDefault params index defaultValue) (fun _ => True) := by
  rw [paramOrDefault]
  refine .ite (fun _ => .of_some trivial) fun hindex => ?_
  rw [List.getElem?_eq_getElem (not_le.1 hindex)]
  exact .of_some trivial

theorem succeeds_firstParam (params : List ℕ) : Succeeds (firstParam params) (fun _ => True) := by
  rw [firstParam]
  refine .ite (fun _ => .of_some trivial) fun hlen => ?_
  rw [List.getElem?_eq_getElem (Nat.pos_of_ne_zero hlen)]
  exact .of_some trivial

theorem succeeds_value {values : List ℕ} {i : ℕ} (hi : i < values.length) :
    Succeeds values[i]? (fun _ => True) := by
  rw [List.getElem?_eq_getElem hi]
  exact .of_some trivial

theorem InBounds.ite {c : Prop} [Decidable c] (h : InBounds app) (h' : InBounds app') :
    InBounds (if c then app else app') := by
  split
  · exact h
  · exact h'

theorem inBounds_applySgrCode (h : InBounds app) (code : ℕ) : InBounds (applySgrCode app code) := by
  have hstyle : InBounds (resetStyle app) := ⟨h.row, h.col, h.count, h.buf, h.ends⟩
  rw [applySgrCode]
  refine .ite hstyle ?_
  repeat' apply InBounds.ite
  all_goals exact ⟨h.row, h.col, h.count, h.buf, h.ends⟩

theorem inBounds_setColor (h : InBounds app) (code : ℕ) (color : UInt32) :
    InBounds (setColor app code color) := by
  rw [setColor]
  split <;> exact ⟨h.row, h.col, h.count, h.buf, h.ends⟩

theorem succeeds_applySgrFrom (h : InBounds app) (values : List ℕ) (i n : ℕ) :
    Succeeds (applySgrFrom values app i n) InBounds := by
  induction n generalizing app i with
  | zero => exact .of_some h
  | succ n ih =>
    rw [applySgrFrom]
    refine .ite (fun hi => ?_) fun _ => .of_some h
    refine (succeeds_value hi).bind fun code _ => .ite (fun hcode => ?_) fun _ => ?_
    · refine (succeeds_value hcode.2).bind fun mode _ => .ite (fun h5 => ?_) fun _ => ?_
      · exact (succeeds_value h5.2).bind fun index _ => ih (inBounds_setColor h _ _) _
      refine .ite (fun h2 => ?_) fun _ => ih h _
      refine (succeeds_value (by omega)).bind fun r _ => ?_
      refine (succeeds_value (by omega)).bind fun g _ => ?_
      exact (succeeds_value h2.2).bind fun b _ => ih (inBounds_setColor h _ _) _
    · exact ih (inBounds_applySgrCode h code) _

theorem clampRow_lt (row : ℕ) : clampRow row < termLines := by
  rw [clampRow]
  split
  · decide
  · exact not_le.1 ‹_›

theorem clampCol_le (col : ℕ) : clampCol col ≤ termLineMax - 1 := by
  rw [clampCol]
  split
  · decide
  · exact (not_le.1 ‹_›).le

theorem succeeds_moveTo (h : InBounds app) (hrow : row < termLines) (hcol : col ≤ termLineMax - 1) :
    Succeeds (moveTo app row col) InBounds := by
  have hmoved : InBounds { app with cursorRow := row, cursorCol := col } :=
    ⟨hrow, hcol, h.count, h.buf, h.ends⟩
  exact (succeeds_ensureRow hmoved row).mono fun _ hnear => hnear.inBounds

theorem succeeds_restoreCursor (h : InBounds app) : Succeeds (restoreCursor app) InBounds :=
  succeeds_moveTo h (clampRow_lt _) (clampCol_le _)

theorem succeeds_eraseDisplay (h : InBounds app) (mode : ℕ) :
    Succeeds (eraseDisplay app mode) InBounds := by
  rw [eraseDisplay]
  refine .ite (fun _ => ?_) fun _ => .ite (fun _ => ?_) fun _ => .ite (fun _ => ?_) fun _ => .of_some h
  · refine (succeeds_clearLineRange h _ _ _).bind fun app₁ hnear => ?_
    exact (succeeds_clearRows hnear.inBounds _ _).mono fun _ hnear => hnear.inBounds
  · refine (succeeds_clearRows h _ _).bind fun app₁ hnear => ?_
    exact (succeeds_clearLineRange hnear.inBounds _ _ _).mono fun _ hnear => hnear.inBounds
  · exact .of_some (inBounds_termClear h.buf)

theorem succeeds_eraseLine (h : InBounds app) (mode : ℕ) :
    Succeeds (eraseLine app mode) InBounds := by
  have hrange : ∀ startCol endCol,
      Succeeds (clearLineRange app app.cursorRow startCol endCol) InBounds :=
    fun startCol endCol => (succeeds_clearLineRange h _ _ _).mono fun _ hnear => hnear.inBounds
  rw [eraseLine]
  exact .ite (fun _ => hrange _ _) fun _ => .ite (fun _ => hrange _ _) fun _ => hrange _ _

theorem succeeds_param {values : List ℕ} {f : ℕ → Option TermApp}
    (hf : ∀ n, Succeeds (f n) InBounds) (index : ℕ) :
    Succeeds (paramOrDefault values index 1 >>= f) InBounds :=
  (succeeds_paramOrDefault values index 1).bind fun n _ => hf n

section

variable (h : InBounds app)
include h

theorem succeeds_applyFinal (values : List ℕ) (finalCh : UInt8) :
    Succeeds (applyFinal app values finalCh) InBounds := by
  have hrow := h.row
  have hcol := h.col
  have hmoved : ∀ row col, row < termLines → col ≤ termLineMax - 1 →
      InBounds { app with cursorRow := row, cursorCol := col } :=
    fun row col hrow hcol => ⟨hrow, hcol, h.count, h.buf, h.ends⟩
  rw [applyFinal]
  refine .ite (fun _ => succeeds_applySgrFrom h _ _ _) fun _ => ?_
  refine .ite (fun _ => (succeeds_firstParam values).bind fun mode _ => succeeds_eraseDisplay h mode)
    fun _ => ?_
  refine .ite (fun _ => (succeeds_firstParam values).bind fun mode _ => succeeds_eraseLine h mode)
    fun _ => ?_
  -- The motions of the cursor.
  refine .ite (fun _ => succeeds_param (fun row => succeeds_param (fun col => ?_) 1) 0) fun _ => ?_
  · exact succeeds_moveTo h (clampRow_lt _) (clampCol_le _)
  refine .ite (fun _ => succeeds_param (fun n => .of_some ?_) 0) fun _ => ?_
  · exact hmoved _ _ ((Nat.sub_le _ _).trans_lt hrow) hcol
  refine .ite (fun _ => succeeds_param (fun n => succeeds_moveTo h (clampRow_lt _) hcol) 0) fun _ => ?_
  refine .ite (fun _ => succeeds_param (fun n => .of_some ?_) 0) fun _ => ?_
  · exact hmoved _ _ hrow (clampCol_le _)
  refine .ite (fun _ => succeeds_param (fun n => .of_some ?_) 0) fun _ => ?_
  · exact hmoved _ _ hrow ((Nat.sub_le _ _).trans hcol)
  refine .ite (fun _ => succeeds_param (fun n => ?_) 0) fun _ => ?_
  · exact succeeds_moveTo h (clampRow_lt _) (Nat.zero_le _)
  refine .ite (fun _ => succeeds_param (fun n => ?_) 0) fun _ => ?_
  · exact succeeds_moveTo h ((Nat.sub_le _ _).trans_lt hrow) (Nat.zero_le _)
  refine .ite (fun _ => succeeds_param (fun n => .of_some ?_) 0) fun _ => ?_
  · exact hmoved _ _ hrow (clampCol_le _)
  refine .ite (fun _ => succeeds_param (fun n => succeeds_moveTo h (clampRow_lt _) hcol) 0) fun _ => ?_
  refine .ite (fun _ => .of_some ?_) fun _ => ?_
  · exact ⟨hrow, hcol, h.count, h.buf, h.ends⟩
  exact .ite (fun _ => succeeds_restoreCursor h) fun _ => .of_some h

theorem InBounds.reset (state : AnsiState) :
    InBounds { app with ansiState := state, ansiBuf := [] } :=
  ⟨h.row, h.col, h.count, Nat.succ_pos _, h.ends⟩

theorem succeeds_applyAnsi (finalCh : UInt8) :
    Succeeds (applyAnsi app finalCh) InBounds := by
  rw [applyAnsi, if_pos h.buf]
  exact (succeeds_applyFinal h _ _).bind fun app₁ h₁ => .of_some (h₁.reset _)

theorem succeeds_appendAnsiChar (ch : UInt8) :
    Succeeds (appendAnsiChar app ch) InBounds := by
  rw [appendAnsiChar]
  cases app.ansiState with
  | escape =>
    simp only
    refine .ite (fun _ => .of_some (h.reset _)) fun _ => .ite (fun _ => .of_some ?_) fun _ => ?_
    · exact ⟨h.row, h.col, h.count, Nat.succ_pos _, h.ends⟩
    refine .ite (fun _ => ?_) fun _ => .of_some (h.reset _)
    exact (succeeds_restoreCursor h).bind fun app₁ h₁ => .of_some (h₁.reset _)
  | csi =>
    simp only
    refine .ite (fun _ => .ite (fun hroom => .of_some ?_) fun _ => .of_some h) fun _ => ?_
    · refine ⟨h.row, h.col, h.count, ?_, h.ends⟩
      rw [length_append, length_singleton]
      exact hroom
    · exact succeeds_applyAnsi h ch
  | text =>
    simp only
    refine .ite (fun _ => .of_some (h.reset _)) fun _ => ?_
    exact (succeeds_appendChar h ch).mono fun _ hkeeps => hkeeps.inBounds

theorem succeeds_appendBytes (bytes : List UInt8) :
    Succeeds (appendBytes app bytes) InBounds :=
  .foldlM (fun _ ch h => succeeds_appendAnsiChar h ch) h

end

theorem inBounds_cleared : InBounds cleared := inBounds_termClear (Nat.succ_pos _)

/-- Whatever texts the terminal is given, and behind any number of bytes of the next one, no
access was out of bounds, and the indices are in order. -/
theorem bounds_invariant (texts : List (List UInt8)) (text : List UInt8) (n : ℕ) :
    Succeeds (texts.foldlM appendText cleared >>= fun app => appendBytes app ((cstr text).take n))
      InBounds := by
  have htexts : Succeeds (texts.foldlM appendText cleared) InBounds :=
    .foldlM (fun _ text h => succeeds_appendBytes h (cstr text)) inBounds_cleared
  exact htexts.bind fun app h => succeeds_appendBytes h _

end

/-! ## Draining a descriptor -/

variable {app app' app₁ app₂ : TermApp} {reads reads' rest : List (Option (List UInt8))}

/-- `term_drain_fd` is called until all reads are done; `none` is a read without bytes. -/
inductive DrainRun : TermApp → List (Option (List UInt8)) → TermApp → Prop
  | done (app : TermApp) : DrainRun app [] app
  | drain {app app₁ app' : TermApp} {reads rest : List (Option (List UInt8))}
      (h : drainFd app 128 reads = some (app₁, rest)) (hrun : DrainRun app₁ rest app') :
      DrainRun app reads app'

/-- The bytes of a read that reach `term_append_ansi_char`. -/
def handedOf (buf : List UInt8) : List UInt8 := if buf.length < readSize then cstr buf else buf

/-- The bytes that are handed over. -/
def handed (reads : List (Option (List UInt8))) : List UInt8 :=
  reads.flatMap fun read => read.elim [] handedOf

/-- The stream that the reads cut. -/
def stream (reads : List (Option (List UInt8))) : List UInt8 :=
  reads.flatMap fun read => read.elim [] id

theorem drainRead_eq (app : TermApp) (buf : List UInt8) :
    drainRead app buf = appendBytes app (handedOf buf) := by
  rw [drainRead, handedOf]
  split <;> rfl

theorem appendBytes_append (app : TermApp) (bytes bytes' : List UInt8) :
    appendBytes app (bytes ++ bytes') = appendBytes app bytes >>= fun app => appendBytes app bytes' :=
  foldlM_append

theorem appendBytes_of_drainFd {guard : ℕ} (h : drainFd app guard reads = some (app₁, rest)) :
    appendBytes app (handed reads) = appendBytes app₁ (handed rest) := by
  induction guard generalizing app reads with
  | zero =>
    cases h
    rfl
  | succ guard ih =>
    cases reads with
    | nil =>
      cases h
      rfl
    | cons read reads =>
      cases read with
      | none =>
        cases h
        rfl
      | some buf =>
        obtain ⟨app₂, hread, hrest⟩ := Option.bind_eq_some_iff.1 h
        have hhanded : handed (some buf :: reads) = handedOf buf ++ handed reads := rfl
        rw [hhanded, appendBytes_append, ← drainRead_eq, hread]
        exact ih hrest

theorem succeeds_drainFd (h : InBounds app) (guard : ℕ) (reads : List (Option (List UInt8))) :
    Succeeds (drainFd app guard reads) fun r =>
      InBounds r.1 ∧ (guard ≠ 0 → reads ≠ [] → r.2.length < reads.length) ∧
        r.2.length ≤ reads.length := by
  induction guard generalizing app reads with
  | zero => exact .of_some ⟨h, fun hne => absurd rfl hne, le_rfl⟩
  | succ guard ih =>
    cases reads with
    | nil => exact .of_some ⟨h, fun _ hne => absurd rfl hne, le_rfl⟩
    | cons read reads =>
      cases read with
      | none => exact .of_some ⟨h, fun _ _ => Nat.lt_succ_self _, Nat.le_succ _⟩
      | some buf =>
        rw [drainFd, drainRead_eq]
        refine (succeeds_appendBytes h _).bind fun app₁ h₁ => ?_
        refine (ih h₁ reads).mono fun r ⟨hr, _, hle⟩ => ⟨hr, fun _ _ => ?_, ?_⟩
        · exact Nat.lt_succ_of_le hle
        · exact Nat.le_succ_of_le hle

theorem appendBytes_of_drainRun (h : DrainRun app reads app') :
    appendBytes app (handed reads) = some app' := by
  induction h with
  | done app => rfl
  | drain hdrain _ ih => rw [appendBytes_of_drainFd hdrain, ih]

theorem exists_drainRun (h : InBounds app) (reads : List (Option (List UInt8))) :
    ∃ app', DrainRun app reads app' := by
  induction hlen : reads.length using Nat.strong_induction_on generalizing app reads with
  | _ n ih =>
    by_cases hreads : reads = []
    · subst hreads
      exact ⟨app, .done app⟩
    · obtain ⟨⟨app₁, rest⟩, hdrain, h₁, hless, -⟩ := succeeds_drainFd h 128 reads
      have hrest : rest.length < n := hlen ▸ hless (by decide) hreads
      obtain ⟨app', hrun⟩ := ih rest.length hrest h₁ rest rfl
      exact ⟨app', .drain hdrain hrun⟩

theorem drainRun_iff (h : InBounds app) :
    DrainRun app reads app' ↔ appendBytes app (handed reads) = some app' := by
  refine ⟨appendBytes_of_drainRun, fun hbytes => ?_⟩
  obtain ⟨app₁, hrun⟩ := exists_drainRun h reads
  rw [appendBytes_of_drainRun hrun] at hbytes
  cases hbytes
  exact hrun

theorem handed_eq_stream (h : (0 : UInt8) ∉ stream reads) : handed reads = stream reads := by
  refine flatMap_congr fun read hread => ?_
  cases read with
  | none => rfl
  | some buf =>
    have hbuf : (0 : UInt8) ∉ buf :=
      fun hzero => h (mem_flatMap.2 ⟨some buf, hread, hzero⟩)
    change handedOf buf = buf
    rw [handedOf, cstr_of_notMem hbuf, ite_self]

/-- However a stream is cut, the terminal ends in one state, if the reads hand over the same
bytes, as they do where the stream holds no zero. -/
theorem drain_chunks (h : InBounds app) (hstream : stream reads = stream reads')
    (hzero : handed reads = handed reads' ∨ (0 : UInt8) ∉ stream reads) :
    ∃ app', (∀ app₁, DrainRun app reads app₁ ↔ app₁ = app') ∧
      ∀ app₂, DrainRun app reads' app₂ ↔ app₂ = app' := by
  have hhanded : handed reads = handed reads' := by
    rcases hzero with hsame | hzero
    · exact hsame
    · have hzero' : (0 : UInt8) ∉ stream reads' := by rwa [← hstream]
      rw [handed_eq_stream hzero, handed_eq_stream hzero', hstream]
  obtain ⟨app', hbytes, -⟩ := succeeds_appendBytes h (handed reads)
  refine ⟨app', fun app₁ => ?_, fun app₂ => ?_⟩
  · rw [drainRun_iff h, hbytes, Option.some.injEq, eq_comm]
  · rw [drainRun_iff h, ← hhanded, hbytes, Option.some.injEq, eq_comm]

/-- Two letters, in one read and in two. -/
theorem drain_chunks_letters : ∃ app',
    (∀ app₁, DrainRun cleared [some [97, 98]] app₁ ↔ app₁ = app') ∧
      ∀ app₂, DrainRun cleared [some [97], none, some [98]] app₂ ↔ app₂ = app' :=
  drain_chunks inBounds_cleared rfl (.inr (by decide))

/-- A letter behind a zero is lost when it comes with the zero. -/
theorem drain_drops_tail : ¬ ∀ app reads reads' app₁ app₂, stream reads = stream reads' →
    DrainRun app reads app₁ → DrainRun app reads' app₂ → app₁ = app₂ := by
  intro h
  obtain ⟨app₁, hone⟩ := exists_drainRun inBounds_cleared [some [0, 97]]
  obtain ⟨app₂, htwo⟩ := exists_drainRun inBounds_cleared [some [0], some [97]]
  have hsame := h cleared [some [0, 97]] [some [0], some [97]] app₁ app₂ rfl hone htwo
  have hbytes := appendBytes_of_drainRun hone
  have hbytes' := appendBytes_of_drainRun htwo
  rw [← hsame] at hbytes'
  have hcol : (appendBytes cleared []).map TermApp.cursorCol =
      (appendBytes cleared [97]).map TermApp.cursorCol :=
    congrArg (Option.map TermApp.cursorCol) (hbytes.trans hbytes'.symm)
  exact absurd hcol (by decide)

end Cleonos.Terminal
