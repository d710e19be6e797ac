import Mathlib.Data.List.GetD
import Cleonos.Lib.Buffer
import Cleonos.Terminal.Bounds

/-!
# The lines of the terminal

What the lines hold behind a text of printable characters and newlines: the last rows of the
text, where the rows that are written to the last line stand over what the rows before them
have left in it.
-/

namespace Cleonos.Terminal

open List
open Function (update update_eq_self update_of_ne update_self)
open Buffer (slice)

/-! ## The text of a line -/

/-- A line holds a text, and a zero behind it. -/
structure HasText (line : ℕ → UInt8) (text : List UInt8) : Prop where
  cells : ∀ c < text.length, line c = text.getD c 0
  ends : line text.length = 0
  nonzero : (0 : UInt8) ∉ text
  len : text.length ≤ columns

def rowText (line : ℕ → UInt8) : List UInt8 := slice line 0 (strnlen line termLineMax)

section HasText

variable {line : ℕ → UInt8} {text : List UInt8} {n : ℕ}

theorem strnlen_eq (hcells : ∀ c < text.length, line c = text.getD c 0)
    (hends : line text.length = 0) (hnonzero : (0 : UInt8) ∉ text) (hn : text.length ≤ n) :
    strnlen line n = text.length := by
  induction n generalizing line text with
  | zero => exact (Nat.le_zero.1 hn).symm
  | succ n ih =>
    rw [strnlen]
    cases text with
    | nil => exact if_pos hends
    | cons ch text =>
      have hhead : line 0 = ch := hcells 0 (Nat.succ_pos _)
      have hne : line 0 ≠ 0 := by
        rw [hhead]
        exact fun hzero => hnonzero (by simp [hzero])
      rw [if_neg hne, length_cons]
      refine congrArg (· + 1) (ih (fun c hc => ?_) hends (fun h => hnonzero ?_) ?_)
      · exact hcells (c + 1) (Nat.succ_lt_succ hc)
      · exact mem_cons_of_mem _ h
      · exact Nat.le_of_succ_le_succ hn

theorem HasText.strnlen (h : HasText line text) (hn : columns ≤ n) : strnlen line n = text.length :=
  strnlen_eq h.cells h.ends h.nonzero (h.len.trans hn)

theorem HasText.rowText (h : HasText line text) : rowText line = text := by
  rw [Terminal.rowText, h.strnlen (by decide)]
  refine Buffer.slice_eq_of_getElem fun c hc => ?_
  have hcell := h.cells c hc
  rw [Nat.zero_add]
  rwa [getD_eq_getElem _ _ hc] at hcell

theorem HasText.copyLine (h : HasText line text) : HasText (copyLine line) text := by
  have hlen : Terminal.strnlen line (termLineMax - 1) = text.length := h.strnlen le_rfl
  refine ⟨fun c hc => ?_, ?_, h.nonzero, h.len⟩
  · rw [Terminal.copyLine, hlen, if_pos hc]
    exact h.cells c hc
  · rw [Terminal.copyLine, hlen, if_neg (lt_irrefl _)]

end HasText

/-- What stands in a column of the line of the cursor. -/
def cellAt (tail last : List UInt8) (c : ℕ) : UInt8 :=
  if last = [] ∧ c = 0 then 0 else (overlay tail last).getD c 0

/-- A row fits the columns, and holds no zero. -/
def RowOk (row : List UInt8) : Prop := row.length ≤ columns ∧ (0 : UInt8) ∉ row

/-- The lines behind the rows `front` and the row `last`. -/
structure Paged (front : List (List UInt8)) (last : List UInt8) (app : TermApp) : Prop where
  state : app.ansiState = .text
  row : app.cursorRow = min front.length (termLines - 1)
  col : app.cursorCol = last.length
  count : app.lineCount = app.cursorRow + 1 ∨ app.lineCount = app.cursorRow ∧ last = []
  fronts : ∀ row ∈ front, RowOk row
  lasts : RowOk last
  above : ∀ r < app.cursorRow, ∀ row, front[front.length - app.cursorRow + r]? = some row →
    HasText (app.lines r) (shownRow (slotTail (front.take (front.length - app.cursorRow + r))) row)
  here : ∀ c < termLineMax, app.lines app.cursorRow c = cellAt (slotTail front) last c
  below : ∀ r, app.cursorRow < r → r < termLines → ∀ c < termLineMax, app.lines r c = 0

variable {front : List (List UInt8)} {last tail : List UInt8} {app app' : TermApp}

theorem rowOk_overlay (htail : RowOk tail) (hlast : RowOk last) : RowOk (overlay tail last) := by
  refine ⟨?_, fun h => ?_⟩
  · rw [length_overlay]
    exact max_le htail.1 hlast.1
  · rcases mem_overlay h with h | h
    · exact htail.2 h
    · exact hlast.2 h

theorem rowOk_slotTail (h : ∀ row ∈ front, RowOk row) : RowOk (slotTail front) := by
  have hfold : ∀ (rows : List (List UInt8)) (tail : List UInt8), RowOk tail →
      (∀ row ∈ rows, RowOk row) → RowOk (rows.foldl overlay tail) := by
    intro rows
    induction rows with
    | nil => exact fun tail htail _ => htail
    | cons row rows ih =>
      intro tail htail hrows
      exact ih _ (rowOk_overlay htail (hrows row mem_cons_self))
        fun row hrow => hrows row (mem_cons_of_mem _ hrow)
  exact hfold _ [] ⟨Nat.zero_le _, not_mem_nil⟩ fun row hrow => h row (mem_of_mem_drop hrow)

theorem hasText_of_cellAt {line : ℕ → UInt8} (hcells : ∀ c < termLineMax, line c = cellAt tail last c)
    (htail : RowOk tail) (hlast : RowOk last) : HasText line (shownRow tail last) := by
  have hmax : termLineMax = columns + 1 := rfl
  rw [shownRow]
  by_cases hnil : last = []
  · rw [if_pos hnil]
    refine ⟨fun c hc => absurd hc (Nat.not_lt_zero c), ?_, not_mem_nil, Nat.zero_le _⟩
    rw [length_nil, hcells 0 (by omega), cellAt, if_pos ⟨hnil, rfl⟩]
  · have hover := rowOk_overlay htail hlast
    have hcell : ∀ c < termLineMax, line c = (overlay tail last).getD c 0 := by
      intro c hc
      rw [hcells c hc, cellAt, if_neg fun h => hnil h.1]
    have hlen := hover.1
    rw [if_neg hnil]
    refine ⟨fun c hc => hcell c (by omega), ?_, hover.2, hlen⟩
    rw [hcell _ (by omega), getD_eq_default _ _ le_rfl]

theorem Paged.hereText (h : Paged front last app) :
    HasText (app.lines app.cursorRow) (shownRow (slotTail front) last) :=
  hasText_of_cellAt h.here (rowOk_slotTail h.fronts) h.lasts

theorem Paged.cursorRow_lt (h : Paged front last app) : app.cursorRow < termLines := by
  have hmax : termLines = 128 := rfl
  have hrow := h.row
  omega

/-- A cell is written, and the cursor stays. -/
structure Written (row col : ℕ) (ch : UInt8) (app app' : TermApp) : Prop where
  lines : app'.lines = setAt app.lines row col ch
  lineCount : app'.lineCount = app.lineCount
  cursorRow : app'.cursorRow = app.cursorRow
  cursorCol : app'.cursorCol = app.cursorCol
  state : app'.ansiState = app.ansiState

variable {row col : ℕ} {ch : UInt8} {f : ℕ → ℕ → UInt8}

theorem written_setCell (hrow : row < termLines) (hcol : col < termLineMax) (ch : UInt8) :
    Succeeds (setCell app row col ch) (Written row col ch app) := by
  rw [setCell, setLine, if_pos ⟨hrow, hcol⟩]
  exact .of_some ⟨rfl, rfl, rfl, rfl, rfl⟩

theorem setAt_of_row {r : ℕ} (h : r ≠ row) : setAt f row col ch r = f r := update_of_ne h _ _

theorem setAt_of_col {c : ℕ} (h : c ≠ col) : setAt f row col ch row c = f row c := by
  rw [setAt, update_self, update_of_ne h]

@[simp] theorem setAt_self (f : ℕ → ℕ → UInt8) (row col : ℕ) (ch : UInt8) :
    setAt f row col ch row col = ch := by
  rw [setAt, update_self, update_self]

theorem setAt_same (h : f row col = ch) : setAt f row col ch = f := by
  rw [setAt, ← h, update_eq_self, update_eq_self]

theorem ensureRow_of_counted (h : app.lineCount = row + 1) : ensureRow app row = some app := by
  have hnone : min row (termLines - 1) + 1 - app.lineCount = 0 := by omega
  rw [ensureRow, hnone]
  rfl

theorem written_ensureRow {row : ℕ} (hrow : row < termLines) (h : app.lineCount = row) :
    Succeeds (ensureRow app row) fun app' =>
      Written row 0 0 app { app' with lineCount := app.lineCount } ∧ app'.lineCount = row + 1 := by
  have hone : min row (termLines - 1) + 1 - app.lineCount = 1 := by omega
  obtain ⟨app', hset, hwritten⟩ : Succeeds (setCell app row 0 0) (Written row 0 0 app) :=
    written_setCell hrow (by decide) 0
  rw [ensureRow, hone, ensureRows, h, hset]
  exact .of_some ⟨⟨hwritten.lines, h.symm ▸ rfl, hwritten.cursorRow, hwritten.cursorCol,
    hwritten.state⟩, by rw [hwritten.lineCount, h]⟩

section

variable (h : Paged front last app)
include h

theorem Paged.ensure :
    Succeeds (ensureRow app app.cursorRow) fun app' =>
      Paged front last app' ∧ app'.lineCount = app'.cursorRow + 1 := by
  rcases h.count with hcount | ⟨hcount, hnil⟩
  · rw [ensureRow_of_counted hcount]
    exact .of_some ⟨h, hcount⟩
  · refine (written_ensureRow h.cursorRow_lt hcount).mono fun app' ⟨hw, hnew⟩ => ?_
    have hrow : app'.cursorRow = app.cursorRow := hw.cursorRow
    have hlines : app'.lines = setAt app.lines app.cursorRow 0 0 := hw.lines
    rw [hrow]
    refine ⟨⟨hw.state.trans h.state, hrow.trans h.row, hw.cursorCol.trans h.col, .inl ?_, h.fronts,
      h.lasts, ?_, ?_, ?_⟩, hnew⟩
    · rw [hrow, hnew]
    · intro r hr row hget
      rw [hrow] at hr hget ⊢
      rw [hlines, setAt_of_row (ne_of_lt hr)]
      exact h.above r hr row hget
    · intro c hc
      rw [hrow, hlines]
      by_cases hzero : c = 0
      · rw [hzero, setAt_self, cellAt, if_pos ⟨hnil, rfl⟩]
      · rw [setAt_of_col hzero]
        exact h.here c hc
    · intro r hr hlt c hc
      rw [hrow] at hr
      rw [hlines, setAt_of_row (ne_of_gt hr)]
      exact h.below r hr hlt c hc

theorem Paged.front_ok : ∀ row ∈ front ++ [last], RowOk row := by
  intro row hrow
  rcases mem_append.1 hrow with hrow | hrow
  · exact h.fronts row hrow
  · rw [mem_singleton.1 hrow]
    exact h.lasts

theorem Paged.row_above {i r : ℕ} (hr : r ≤ app.cursorRow)
    (hi : i = front.length - app.cursorRow + r) {row : List UInt8}
    (hget : (front ++ [last])[i]? = some row) :
    HasText (app.lines r) (shownRow (slotTail ((front ++ [last]).take i)) row) := by
  have hrow := h.row
  have hle : i ≤ front.length := by omega
  rw [take_append_of_le_length hle]
  rcases Nat.lt_or_ge i front.length with hlt | hge
  · rw [List.getElem?_append_left hlt, hi] at hget
    rw [hi]
    exact h.above r (by omega) row hget
  · have hi' : i = front.length := le_antisymm hle hge
    have hr' : r = app.cursorRow := by omega
    rw [hi', List.getElem?_concat_length] at hget
    cases hget
    rw [hi', take_length, hr']
    exact h.hereText

theorem Paged.shift (hfull : app.cursorRow + 1 ≥ termLines) :
    Paged (front ++ [last]) [] { shiftLines { app with cursorCol := 0 } with lineCount := termLines } := by
  have hmax : termLines = 128 := rfl
  have hrow := h.row
  have hbottom : app.cursorRow = termLines - 1 := by omega
  have hlong : termLines - 1 ≤ front.length := by omega
  have hlines : ∀ r, (shiftLines { app with cursorCol := 0 }).lines r =
      if r + 1 < termLines then copyLine (app.lines (r + 1))
      else if r + 1 = termLines then update (app.lines r) 0 0 else app.lines r := fun _ => rfl
  refine ⟨h.state, ?_, rfl, .inl ?_, h.front_ok, ⟨Nat.zero_le _, not_mem_nil⟩, ?_, ?_, ?_⟩
  · change app.cursorRow = _
    rw [length_append, length_singleton]
    omega
  · change termLines = app.cursorRow + 1
    omega
  · intro r hr row hget
    change r < app.cursorRow at hr
    change HasText ((shiftLines { app with cursorCol := 0 }).lines r) _
    change (front ++ [last])[(front ++ [last]).length - app.cursorRow + r]? = some row at hget
    rw [hlines, if_pos (by omega)]
    refine (h.row_above (by omega) ?_ hget).copyLine
    rw [length_append, length_singleton]
    omega
  · intro c hc
    change (shiftLines { app with cursorCol := 0 }).lines app.cursorRow c = _
    rw [hlines, if_neg (by omega), if_pos (by omega), cellAt]
    by_cases hzero : c = 0
    · rw [hzero, update_self, if_pos ⟨rfl, rfl⟩]
    · have hne : ¬ (last = [] ∧ c = 0) := fun h => hzero h.2
      rw [update_of_ne hzero, if_neg fun h => hzero h.2, h.here c hc, cellAt, if_neg hne,
        slotTail_append hlong, nil_overlay]
  · intro r hr hlt
    change app.cursorRow < r at hr
    omega

theorem Paged.down (hcount : app.lineCount = app.cursorRow + 1)
    (hroom : app.cursorRow + 1 < termLines) :
    Succeeds (ensureRow { app with cursorCol := 0, cursorRow := app.cursorRow + 1 }
      (app.cursorRow + 1)) (Paged (front ++ [last]) []) := by
  have hmax : termLines = 128 := rfl
  have hrow := h.row
  have hshort : app.cursorRow = front.length := by omega
  have hlen : (front ++ [last]).length = app.cursorRow + 1 := by
    rw [length_append, length_singleton, hshort]
  have htail : slotTail (front ++ [last]) = [] := slotTail_of_short (by omega)
  have hensure := @written_ensureRow { app with cursorCol := 0, cursorRow := app.cursorRow + 1 } _
    hroom hcount
  refine hensure.mono fun app' ⟨hw, hnew⟩ => ?_
  have hrow' : app'.cursorRow = app.cursorRow + 1 := hw.cursorRow
  have hlines : app'.lines = setAt app.lines (app.cursorRow + 1) 0 0 := hw.lines
  refine ⟨hw.state.trans h.state, ?_, hw.cursorCol, .inl ?_, h.front_ok,
    ⟨Nat.zero_le _, not_mem_nil⟩, ?_, ?_, ?_⟩
  · rw [hrow', hlen]
    omega
  · rw [hnew, hrow']
  · intro r hr row hget
    rw [hrow'] at hr hget ⊢
    rw [hlines, setAt_of_row (ne_of_lt hr)]
    exact h.row_above (Nat.le_of_lt_succ hr) (by omega) hget
  · intro c hc
    have hzero : ∀ c < termLineMax, setAt app.lines (app.cursorRow + 1) 0 0 (app.cursorRow + 1) c = 0 := by
      intro c hc
      by_cases hc0 : c = 0
      · rw [hc0, setAt_self]
      · rw [setAt_of_col hc0]
        exact h.below _ (Nat.lt_succ_self _) hroom c hc
    rw [hrow', hlines, hzero c hc, htail, cellAt]
    split <;> rfl
  · intro r hr hlt c hc
    rw [hrow'] at hr
    rw [hlines, setAt_of_row (ne_of_gt hr)]
    exact h.below r (Nat.lt_of_succ_lt hr) hlt c hc

theorem Paged.newline :
    Succeeds (newline app) (Paged (front ++ [last]) []) := by
  rw [Terminal.newline]
  refine h.ensure.bind fun app₁ hgrown => .ite (fun hfull => ?_) fun hroom => ?_
  · exact .of_some (hgrown.1.shift hfull)
  · exact hgrown.1.down hgrown.2 (not_le.1 hroom)

end

def Printable (ch : UInt8) : Prop := 32 ≤ ch ∧ ch ≤ 126

theorem Printable.ne_zero (h : Printable ch) : ch ≠ 0 := by
  rintro rfl
  exact absurd h.1 (by decide)

theorem cellAt_append {c : ℕ} (hne : c ≠ last.length) :
    cellAt tail (last ++ [ch]) c = cellAt tail last c := by
  rw [cellAt, cellAt, if_neg (by simp)]
  rcases Nat.lt_or_gt_of_ne hne with hlt | hgt
  · have hnil : ¬ (last = [] ∧ c = 0) := by
      rintro ⟨rfl, -⟩
      exact Nat.not_lt_zero _ hlt
    have hlt' : c < (last ++ [ch]).length := by
      rw [length_append]
      omega
    rw [if_neg hnil, getD_eq_getElem?_getD, getD_eq_getElem?_getD,
      getElem?_overlay_of_lt hlt, getElem?_overlay_of_lt hlt', List.getElem?_append_left hlt]
  · have hnil : ¬ (last = [] ∧ c = 0) := fun h => Nat.not_lt_zero _ (h.2 ▸ hgt)
    have hge : (last ++ [ch]).length ≤ c := by
      rw [length_append, length_singleton]
      omega
    rw [if_neg hnil, getD_eq_getElem?_getD, getD_eq_getElem?_getD,
      getElem?_overlay_of_ge hge, getElem?_overlay_of_ge hgt.le]

theorem cellAt_last (tail last : List UInt8) (ch : UInt8) :
    cellAt tail (last ++ [ch]) last.length = ch := by
  have hlt : last.length < (last ++ [ch]).length := by simp
  rw [cellAt, if_neg (by simp), getD_eq_getElem?_getD, getElem?_overlay_of_lt hlt,
    List.getElem?_concat_length]
  rfl

theorem keepZero_eq (hrow : app.cursorRow < termLines) (hcol : app.cursorCol + 1 < termLineMax) :
    keepZero app = some app := by
  rw [keepZero, getLine, if_pos ⟨hrow, hcol⟩]
  change (if _ then _ else _) = _
  split
  case isFalse => rfl
  case isTrue hzero =>
    rw [setLine, if_pos ⟨hrow, hcol⟩, setAt_same hzero]

theorem Paged.put (h : Paged front last app) (hroom : last.length < columns) {ch : UInt8}
    (hch : Printable ch) : Succeeds (do
      let app ← ensureRow app app.cursorRow
      let len ← lineLen app app.cursorRow
      let app ← padCells app app.cursorRow len (min app.cursorCol (termLineMax - 1) - len)
      let app ← setCell app app.cursorRow app.cursorCol (if ch < 32 ∨ ch > 126 then 63 else ch)
      let app ← keepZero app
      some { app with cursorCol := app.cursorCol + 1 }) (Paged front (last ++ [ch])) := by
  have hmax : termLineMax = columns + 1 := rfl
  have hplain : ¬ (ch < 32 ∨ ch > 126) := by
    rintro (hlow | hhigh)
    · exact absurd hch.1 (UInt8.not_le.2 hlow)
    · exact absurd hch.2 (UInt8.not_le.2 hhigh)
  rw [if_neg hplain]
  refine h.ensure.bind fun app₁ ⟨h₁, hcount⟩ => ?_
  have hcol := h₁.col
  -- The line is as long as the row, so nothing is filled up.
  have hlong : last.length ≤ (shownRow (slotTail front) last).length := by
    rw [shownRow]
    split
    case isTrue hnil =>
      rw [hnil]
    case isFalse =>
      rw [length_overlay]
      exact le_max_right _ _
  have htext := h₁.hereText
  have hlen : strnlen (app₁.lines app₁.cursorRow) termLineMax = _ := htext.strnlen (by decide)
  have hfits := htext.len
  rw [lineLen, if_pos ⟨h₁.cursorRow_lt, by omega⟩, hlen]
  have hnone : min app₁.cursorCol (termLineMax - 1) - (shownRow (slotTail front) last).length = 0 := by
    omega
  change Succeeds (padCells app₁ app₁.cursorRow _ _ >>= _) _
  rw [hnone]
  change Succeeds (setCell app₁ app₁.cursorRow app₁.cursorCol ch >>= _) _
  refine (written_setCell h₁.cursorRow_lt (by omega) ch).bind fun app₂ hw => ?_
  have hrow₂ : app₂.cursorRow = app₁.cursorRow := hw.cursorRow
  have hcol₂ : app₂.cursorCol = last.length := hw.cursorCol.trans hcol
  have hlines : app₂.lines = setAt app₁.lines app₁.cursorRow last.length ch := by
    rw [hw.lines, hcol]
  rw [keepZero_eq (hrow₂ ▸ h₁.cursorRow_lt) (by omega)]
  refine .of_some ⟨hw.state.trans h₁.state, hrow₂.trans h₁.row, ?_, .inl ?_, h₁.fronts, ?_, ?_, ?_, ?_⟩
  · rw [length_append, ← hcol₂]
    rfl
  · change app₂.lineCount = app₂.cursorRow + 1
    rw [hw.lineCount, hrow₂, hcount]
  · refine ⟨?_, fun hzero => ?_⟩
    · rw [length_append]
      exact hroom
    · rcases mem_append.1 hzero with hzero | hzero
      · exact h₁.lasts.2 hzero
      · exact hch.ne_zero (mem_singleton.1 hzero).symm
  · intro r hr row hget
    change r < app₂.cursorRow at hr
    change front[front.length - app₂.cursorRow + r]? = some row at hget
    change HasText (app₂.lines r) (shownRow (slotTail (front.take (front.length - app₂.cursorRow + r))) row)
    rw [hrow₂] at hr hget ⊢
    rw [hlines, setAt_of_row (ne_of_lt hr)]
    exact h₁.above r hr row hget
  · intro c hc
    change app₂.lines app₂.cursorRow c = _
    rw [hrow₂, hlines]
    by_cases hlast : c = last.length
    · rw [hlast, setAt_self, cellAt_last]
    · rw [setAt_of_col hlast, cellAt_append hlast]
      exact h₁.here c hc
  · intro r hr hlt c hc
    change app₂.cursorRow < r at hr
    change app₂.lines r c = 0
    rw [hrow₂] at hr
    rw [hlines, setAt_of_row (ne_of_gt hr)]
    exact h₁.below r hr hlt c hc

theorem Paged.putChar (h : Paged front last app) {ch : UInt8} (hch : Printable ch) :
    Succeeds (putChar app ch) fun app' =>
      (last.length < columns → Paged front (last ++ [ch]) app') ∧
        (¬ last.length < columns → Paged (front ++ [last]) [ch] app') := by
  have hmax : termLineMax = columns + 1 := rfl
  have hcol := h.col
  rw [Terminal.putChar, wrapCursor]
  by_cases hroom : last.length < columns
  · rw [if_neg (by omega)]
    exact (h.put hroom hch).mono fun app' h' => ⟨fun _ => h', fun hfull => absurd hroom hfull⟩
  · rw [if_pos (by omega)]
    refine h.newline.bind fun app₁ h₁ => ?_
    exact (h₁.put (by decide) hch).mono fun app' h' => ⟨fun hlt => absurd hlt hroom, fun _ => h'⟩

/-! ## A text -/

theorem paged_cleared : Paged [] [] cleared := by
  refine ⟨rfl, rfl, rfl, .inr ⟨rfl, rfl⟩, fun row hrow => ?_, ⟨Nat.zero_le _, not_mem_nil⟩,
    fun r hr => absurd hr (Nat.not_lt_zero r), fun c _ => ?_, fun _ _ _ _ _ => rfl⟩
  · cases hrow
  · rw [cellAt]
    split <;> rfl

/-- A text of printable characters and newlines. -/
def Plain (text : List UInt8) : Prop := ∀ ch ∈ text, ch = 10 ∨ Printable ch

theorem Paged.appendAnsiChar (h : Paged front last app) {text : List UInt8}
    (hrows : wrapText text = front ++ [last]) {ch : UInt8} (hch : ch = 10 ∨ Printable ch) :
    Succeeds (appendAnsiChar app ch) fun app' =>
      ∃ front' last', wrapText (text ++ [ch]) = front' ++ [last'] ∧ Paged front' last' app' := by
  rw [Terminal.appendAnsiChar, h.state]
  by_cases hnl : ch = 10
  · subst hnl
    refine h.newline.mono fun app' h' => ⟨front ++ [last], [], ?_, h'⟩
    rw [wrapText_newline, hrows]
  · have hprint := hch.resolve_left hnl
    have hne : ∀ c : UInt8, c < 32 → ch ≠ c := fun c hc heq => absurd hprint.1 (UInt8.not_le.2 (heq ▸ hc))
    simp only
    rw [if_neg (hne 27 (by decide)), appendChar, if_neg (hne 13 (by decide)), if_neg hnl,
      if_neg (hne 9 (by decide))]
    refine (h.putChar hprint).mono fun app' hput => ?_
    obtain ⟨hroom, hfull⟩ := hput
    rw [wrapText_append hrows hnl]
    split
    case isTrue hlt => exact ⟨front, last ++ [ch], rfl, hroom hlt⟩
    case isFalse hge => exact ⟨front ++ [last], [ch], rfl, hfull hge⟩

theorem paged_appendBytes {done : List UInt8} (h : Paged front last app)
    (hrows : wrapText done = front ++ [last]) {text : List UInt8} (hplain : Plain text) :
    Succeeds (appendBytes app text) fun app' =>
      ∃ front' last', wrapText (done ++ text) = front' ++ [last'] ∧ Paged front' last' app' := by
  induction text generalizing app done front last with
  | nil =>
    rw [append_nil]
    exact .of_some ⟨front, last, hrows, h⟩
  | cons ch text ih =>
    refine (h.appendAnsiChar hrows (hplain ch mem_cons_self)).bind fun app₁ hnext => ?_
    obtain ⟨front₁, last₁, hrows₁, h₁⟩ := hnext
    have hrest := ih h₁ hrows₁ fun c hc => hplain c (mem_cons_of_mem _ hc)
    rwa [append_assoc] at hrest

theorem paged_appendText {text : List UInt8} (hplain : Plain text) :
    Succeeds (appendText cleared text) fun app =>
      ∃ front last, wrapText text = front ++ [last] ∧ Paged front last app := by
  have hzero : (0 : UInt8) ∉ text := by
    intro h
    rcases hplain 0 h with h | h
    · cases h
    · exact h.ne_zero rfl
  rw [appendText, cstr_of_notMem hzero]
  exact @paged_appendBytes [] [] cleared [] paged_cleared rfl text hplain

/-- What a line shows: its text, without the blanks at its end. -/
def visible (app : TermApp) (r : ℕ) : List UInt8 := trimBlanks (rowText (app.lines r))

/-- The last rows, as many as the terminal has lines. -/
def page (rows : List (List UInt8)) : List (List UInt8) := rows.drop (rows.length - termLines)

theorem getD_page (rows : List (List UInt8)) (r : ℕ) :
    (page rows).getD r [] = rows.getD (rows.length - termLines + r) [] := by
  rw [page, getD_eq_getElem?_getD, List.getElem?_drop, getD_eq_getElem?_getD]

theorem Paged.visible (h : Paged front last app) {rows : List (List UInt8)}
    (hrows : rows = front ++ [last]) {r : ℕ} (hr : r < termLines) :
    visible app r = trimBlanks (shownRow (slotTail (rows.take (rows.length - termLines + r)))
      (rows.getD (rows.length - termLines + r) [])) := by
  have hmax : termLines = 128 := rfl
  have hrow := h.row
  have hlen : rows.length = front.length + 1 := by rw [hrows, length_append]; rfl
  rw [Terminal.visible]
  refine congrArg trimBlanks (HasText.rowText ?_)
  rcases Nat.lt_or_ge app.cursorRow r with hlt | hle
  · -- The line is below the cursor.
    have hover : rows.length ≤ rows.length - termLines + r := by omega
    rw [getD_eq_default _ _ hover, shownRow, if_pos rfl]
    exact ⟨fun c hc => absurd hc (Nat.not_lt_zero c), h.below r hlt hr 0 (by decide),
      not_mem_nil, Nat.zero_le _⟩
  · have hin : rows.length - termLines + r < rows.length := by omega
    rw [getD_eq_getElem _ _ hin]
    subst hrows
    exact h.row_above hle (by omega) (List.getElem?_eq_getElem hin)

/-- The terminal shows the last rows of a text and nothing else, if and only if nothing is left
behind the rows that are written over others. -/
theorem screen_iff {text : List UInt8} (hplain : Plain text) :
    ∃ app, appendText cleared text = some app ∧
      ((∀ r < termLines, visible app r = trimBlanks ((page (wrapText text)).getD r [])) ↔
        ∀ i, (wrapText text).length - termLines ≤ i → i < (wrapText text).length →
          NoTail (wrapText text) i) := by
  obtain ⟨app, happ, front, last, hrows, hpaged⟩ := paged_appendText hplain
  refine ⟨app, happ, ?_⟩
  have hvisible : ∀ r < termLines,
      (visible app r = trimBlanks ((page (wrapText text)).getD r []) ↔
        NoTail (wrapText text) ((wrapText text).length - termLines + r)) := by
    intro r hr
    rw [hpaged.visible hrows hr, getD_page, trimBlanks_shownRow_iff, NoTail]
  constructor
  · intro hall i hlow hhigh
    have hi : (wrapText text).length - termLines + (i - ((wrapText text).length - termLines)) = i := by
      omega
    have hr : i - ((wrapText text).length - termLines) < termLines := by omega
    rw [← hi]
    exact (hvisible _ hr).1 (hall _ hr)
  · intro hall r hr
    refine (hvisible r hr).2 ?_
    rcases Nat.lt_or_ge ((wrapText text).length - termLines + r) (wrapText text).length with hlt | hge
    · exact hall _ (Nat.le_add_right _ _) hlt
    · exact .inl (getD_eq_default _ _ hge)

/-- A line of two letters. -/
theorem screen_letters : ∃ app, appendText cleared [97, 98] = some app ∧
    ((∀ r < termLines, visible app r = trimBlanks ((page (wrapText [97, 98])).getD r [])) ↔
      ∀ i, (wrapText [97, 98]).length - termLines ≤ i → i < (wrapText [97, 98]).length →
        NoTail (wrapText [97, 98]) i) := by
  refine screen_iff fun ch hch => .inr ?_
  rcases mem_cons.1 hch with rfl | hch
  · exact ⟨by decide, by decide⟩
  · rw [mem_singleton.1 hch]
    exact ⟨by decide, by decide⟩

/-- A row of two letters in the last line, and a row of one letter behind it. -/
def scrolledText : List UInt8 := List.replicate 127 10 ++ [97, 98, 10, 99]

theorem plain_scrolledText : Plain scrolledText := by
  intro ch hch
  rcases mem_append.1 hch with hch | hch
  · exact .inl (eq_of_mem_replicate hch)
  · have hall : [97, 98, 10, 99].all (fun ch : UInt8 => ch = 10 ∨ 32 ≤ ch ∧ ch ≤ 126) = true := by decide
    simpa [Printable] using all_eq_true.1 hall ch hch

/-- The second letter of the row before stays behind the letter of the last one. -/
theorem screen_keeps_tail : ¬ ∀ text, Plain text → ∃ app, appendText cleared text = some app ∧
    ∀ r < termLines, visible app r = trimBlanks ((page (wrapText text)).getD r []) := by
  intro h
  obtain ⟨app, happ, hall⟩ := h scrolledText plain_scrolledText
  obtain ⟨app', happ', front, last, hrows, hpaged⟩ := paged_appendText plain_scrolledText
  rw [happ] at happ'
  cases happ'
  have hshown := hall 127 (by decide)
  rw [hpaged.visible hrows (by decide), getD_page] at hshown
  have hrow : (wrapText scrolledText).getD ((wrapText scrolledText).length - termLines + 127) [] =
      [99] := by decide +kernel
  have htail : slotTail ((wrapText scrolledText).take
      ((wrapText scrolledText).length - termLines + 127)) = [97, 98] := by decide +kernel
  rw [hrow, htail] at hshown
  exact absurd hshown (by decide)

end Cleonos.Terminal
