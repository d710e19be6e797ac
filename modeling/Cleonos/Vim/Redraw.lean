import Cleonos.Vim.Document
import Cleonos.Vim.Screen

/-!
# The redraw of the main loop

Drawing what is taken for changed is as good as drawing everything, but for a `j` that has been
held back: the key behind it puts it in, and the loop takes that key for one that only moves the
cursor.
-/

namespace Cleonos.Vim

open List Option
open Function (update update_of_ne update_self)
open Buffer (slice store)

variable {ed ed' ed'' : VimEditor} {s : Screen} {key q i n : ℕ}

/-! ## What is drawn -/

def picture (ed : VimEditor) (q : ℕ) : Option (List UInt8) :=
  if q = rowHeader then some (headerText ed)
  else if q = rowPos then some (posText ed)
  else if q = rowFooter then some (footerText ed)
  else if q = rowTopSeparator ∨ q = rowBottomSeparator then some separator
  else if rowTextBase ≤ q ∧ q < rowTextBase + viewRows then
    some (rowText ed (ed.scrollTop + (q - rowTextBase)))
  else none

@[simp] theorem row_put (s : Screen) (r : ℕ) (text : List UInt8) (q : ℕ) :
    (s.put r text).row q = if q = r then text else s.row q :=
  Function.update_apply _ _ _ _

@[simp] theorem row_hide (s : Screen) : s.hide.row = s.row := rfl

@[simp] theorem row_placeTerminalCursor (ed : VimEditor) (s : Screen) :
    (placeTerminalCursor ed s).row = s.row := rfl

theorem row_renderVisualLineAt (ed : VimEditor) (s : Screen) {r : ℕ} (hr : r < viewRows) (q : ℕ) :
    (renderVisualLineAt ed r s).row q =
      if q = rowTextBase + r then rowText ed (ed.scrollTop + r) else s.row q := by
  rw [renderVisualLineAt, if_neg (by omega), row_put]

theorem row_textRows (ed : VimEditor) (s : Screen) (hn : n ≤ viewRows) (q : ℕ) :
    ((List.range n).foldl (fun s row => renderVisualLineAt ed row s) s).row q =
      if rowTextBase ≤ q ∧ q < rowTextBase + n then
        rowText ed (ed.scrollTop + (q - rowTextBase))
      else s.row q := by
  induction n with
  | zero =>
    rw [if_neg (by omega)]
    rfl
  | succ n ih =>
    rw [range_succ, foldl_append, foldl_cons, foldl_nil,
      row_renderVisualLineAt ed _ (by omega), ih (by omega)]
    by_cases hq : q = rowTextBase + n
    · subst hq
      simp
    · rw [if_neg hq]
      by_cases hin : rowTextBase ≤ q ∧ q < rowTextBase + n
      · rw [if_pos hin, if_pos (by omega)]
      · rw [if_neg hin, if_neg (by omega)]

theorem row_render (ed : VimEditor) (s : Screen) (q : ℕ) :
    (render ed s).row q = (picture ed q).getD (s.row q) := by
  rw [render, picture]
  simp only [row_placeTerminalCursor, row_put]
  rw [row_textRows ed _ (Nat.le_refl viewRows)]
  simp only [row_put, row_hide]
  by_cases hfooter : q = rowFooter
  · subst hfooter
    rfl
  rw [if_neg hfooter]
  by_cases hbottom : q = rowBottomSeparator
  · subst hbottom
    rfl
  rw [if_neg hbottom]
  by_cases htext : rowTextBase ≤ q ∧ q < rowTextBase + viewRows
  · have hq : 4 ≤ q := htext.1
    rw [if_pos htext, if_neg (by simp only [rowHeader]; omega),
      if_neg (by simp only [rowPos]; omega), if_neg hfooter,
      if_neg (by simp only [rowTopSeparator]; omega), if_pos htext]
    rfl
  rw [if_neg htext]
  by_cases htop : q = rowTopSeparator
  · subst htop
    rfl
  rw [if_neg htop]
  by_cases hpos : q = rowPos
  · subst hpos
    rfl
  rw [if_neg hpos]
  by_cases hheader : q = rowHeader
  · subst hheader
    rfl
  · rw [if_neg hheader, if_neg hheader, if_neg hpos, if_neg hfooter, if_neg (by tauto),
      if_neg htext]
    rfl

theorem cursor_render (ed : VimEditor) (s : Screen) :
    (render ed s).cursor = some (cursorAt ed) := rfl

theorem row_put_if (b : Bool) (s : Screen) (r : ℕ) (text : List UInt8) (q : ℕ) :
    (if b then s.put r text else s).row q = if b ∧ q = r then text else s.row q := by
  cases b with
  | true => simp
  | false => simp

/-- The row is the one of the line. -/
def RowOf (ed : VimEditor) (i q : ℕ) : Prop :=
  rowTextBase ≤ q ∧ q < rowTextBase + viewRows ∧ i = ed.scrollTop + (q - rowTextBase)

instance (ed : VimEditor) (i q : ℕ) : Decidable (RowOf ed i q) :=
  inferInstanceAs (Decidable (_ ∧ _))

theorem RowOf.ne (h : RowOf ed i q) : q ≠ rowHeader ∧ q ≠ rowPos ∧ q ≠ rowFooter := by
  obtain ⟨hlow, hhigh, -⟩ := h
  simp only [rowTextBase, viewRows] at hlow hhigh
  simp only [rowHeader, rowPos, rowFooter, rowBottomSeparator, rowTextBase, viewRows]
  omega

theorem row_line_if (ed : VimEditor) (b : Bool) (i : ℕ) (s : Screen) (q : ℕ) :
    (if b ∧ i ≥ ed.scrollTop ∧ i < ed.scrollTop + viewRows then
        renderVisualLineAt ed (i - ed.scrollTop) s
      else s).row q = if b ∧ RowOf ed i q then rowText ed i else s.row q := by
  by_cases hview : b ∧ i ≥ ed.scrollTop ∧ i < ed.scrollTop + viewRows
  · obtain ⟨hb, hlow, hhigh⟩ := hview
    have hline : ed.scrollTop + (i - ed.scrollTop) = i := by omega
    rw [if_pos ⟨hb, hlow, hhigh⟩, row_renderVisualLineAt ed s (by omega), hline]
    by_cases hq : q = rowTextBase + (i - ed.scrollTop)
    · rw [if_pos hq, if_pos ⟨hb, by omega, by omega, by omega⟩]
    · rw [if_neg hq, if_neg fun h => hq (by have hrow := h.2; rw [RowOf] at hrow; omega)]
  · rw [if_neg hview, if_neg fun h => hview ⟨h.1, by have hrow := h.2; rw [RowOf] at hrow; omega⟩]

theorem row_renderPartial (ed : VimEditor) (header pos footer line : Bool) (i : ℕ) (s : Screen)
    (q : ℕ) : (renderPartial ed header pos footer line i s).row q =
      if line ∧ RowOf ed i q then rowText ed i
      else if header ∧ q = rowHeader then headerText ed
      else if pos ∧ q = rowPos then posText ed
      else if footer ∧ q = rowFooter then footerText ed
      else s.row q := by
  rw [renderPartial]
  simp only [row_placeTerminalCursor, row_put_if, row_line_if, row_hide]
  by_cases hline : line ∧ RowOf ed i q
  · rw [if_pos hline, if_pos hline, if_neg fun h => hline.2.ne.2.2 h.2]
  rw [if_neg hline, if_neg hline]
  by_cases hfooter : q = rowFooter
  · subst hfooter
    simp [rowHeader, rowPos, rowFooter, rowBottomSeparator, rowTextBase, viewRows]
  by_cases hpos : q = rowPos
  · subst hpos
    simp [rowHeader, rowPos, rowFooter, rowBottomSeparator, rowTextBase, viewRows]
  · simp [hfooter, hpos]

theorem cursor_redraw (key : ℕ) (old ed : VimEditor) (s : Screen) :
    (redraw key old ed s).cursor = some (cursorAt ed) := by
  rw [redraw]
  split
  · rfl
  · simp only
    split
    · rfl
    · rfl

def Drawn (key : ℕ) (old ed : VimEditor) (i : ℕ) : Prop :=
  lineDirty key old ed = true ∧ (i = min old.cursorLine ed.cursorLine ∨ i = ed.cursorLine)

theorem row_redraw {old : VimEditor} (hfull : fullDirty key old ed = false) (q : ℕ) :
    (redraw key old ed s).row q =
      if lineDirty key old ed ∧ RowOf ed ed.cursorLine q then rowText ed ed.cursorLine
      else if lineDirty key old ed ∧ RowOf ed (min old.cursorLine ed.cursorLine) q then
        rowText ed (min old.cursorLine ed.cursorLine)
      else if headerDirty old ed ∧ q = rowHeader then headerText ed
      else if posDirty old ed ∧ q = rowPos then posText ed
      else if footerDirty old ed ∧ q = rowFooter then footerText ed
      else s.row q := by
  rw [redraw, hfull, if_neg (by simp)]
  simp only
  by_cases hline : lineDirty key old ed = true
  · by_cases hmoved : old.cursorLine = ed.cursorLine
    · rw [if_neg fun h => h.2 hmoved, row_renderPartial, hmoved, min_self]
      by_cases hrow : lineDirty key old ed = true ∧ RowOf ed ed.cursorLine q
      · rw [if_pos hrow, if_pos hrow]
      · rw [if_neg hrow, if_neg hrow]
    · rw [if_pos ⟨hline, hmoved⟩, row_renderPartial, row_renderPartial]
      simp [hline]
  · rw [if_neg fun h => hline h.1, row_renderPartial]
    simp [hline]

theorem picture_of_rowOf (h : RowOf ed i q) : picture ed q = some (rowText ed i) := by
  obtain ⟨hheader, hpos, hfooter⟩ := h.ne
  obtain ⟨hlow, hhigh, rfl⟩ := h
  have hseparator : ¬ (q = rowTopSeparator ∨ q = rowBottomSeparator) := by
    simp only [rowTextBase, viewRows] at hlow hhigh
    simp only [rowTopSeparator, rowBottomSeparator, rowTextBase, viewRows]
    omega
  rw [picture, if_neg hheader, if_neg hpos, if_neg hfooter, if_neg hseparator,
    if_pos ⟨hlow, hhigh⟩]

theorem picture_of_not_rowOf (h : ¬ (rowTextBase ≤ q ∧ q < rowTextBase + viewRows)) :
    picture ed q = if q = rowHeader then some (headerText ed)
      else if q = rowPos then some (posText ed)
      else if q = rowFooter then some (footerText ed)
      else if q = rowTopSeparator ∨ q = rowBottomSeparator then some separator
      else none := by
  rw [picture, if_neg h]

theorem posText_of_clean {old : VimEditor} (h : posDirty old ed = false) :
    posText old = posText ed := by
  simp only [posDirty, Bool.or_eq_false_iff, decide_eq_false_iff_not, ne_eq, not_not] at h
  obtain ⟨⟨hline, hcol⟩, hcount⟩ := h
  rw [posText, posText, hline, hcol, hcount]

theorem footerText_of_clean {old : VimEditor} (h : footerDirty old ed = false) :
    footerText old = footerText ed := by
  simp only [footerDirty, Bool.or_eq_false_iff, decide_eq_false_iff_not, ne_eq, not_not] at h
  obtain ⟨⟨⟨hmode, hstatus⟩, hcommand⟩, -⟩ := h
  rw [footerText, footerText, ← hmode, hstatus]
  cases hold : old.mode with
  | normal => rfl
  | insert => rfl
  | command => exact absurd hold hcommand

theorem redraw_eq_iff {old : VimEditor} (hs : render old s = s)
    (hfull : fullDirty key old ed = false)
    (hheader : headerDirty old ed = false → headerText old = headerText ed) :
    redraw key old ed s = render ed s ↔
      ∀ i q, RowOf ed i q → Drawn key old ed i ∨ rowText old i = rowText ed i := by
  have hshown : ∀ q, s.row q = (picture old q).getD (s.row q) := by
    intro q
    rw [← row_render, hs]
  have hscroll : old.scrollTop = ed.scrollTop := by
    simp only [fullDirty, Bool.or_eq_false_iff, decide_eq_false_iff_not, ne_eq, not_not] at hfull
    exact hfull.1.1.1
  constructor
  · intro heq i q hrow
    by_contra hstale
    rw [not_or] at hstale
    obtain ⟨hdrawn, hdiffers⟩ := hstale
    have hold : RowOf old i q := ⟨hrow.1, hrow.2.1, by rw [hscroll]; exact hrow.2.2⟩
    have hother : ∀ j, RowOf ed j q → j = i := fun j hj => by rw [hj.2.2, hrow.2.2]
    obtain ⟨hno1, hno2, hno3⟩ := hrow.ne
    have hrows := congrFun (congrArg Screen.row heq) q
    rw [row_redraw hfull, row_render, picture_of_rowOf hrow,
      if_neg fun h => hdrawn ⟨h.1, .inr (hother _ h.2).symm⟩,
      if_neg fun h => hdrawn ⟨h.1, .inl (hother _ h.2).symm⟩, if_neg fun h => hno1 h.2,
      if_neg fun h => hno2 h.2, if_neg fun h => hno3 h.2, hshown, picture_of_rowOf hold] at hrows
    exact hdiffers hrows
  · intro hall
    ext1
    · funext q
      rw [row_redraw hfull, row_render]
      by_cases htext : rowTextBase ≤ q ∧ q < rowTextBase + viewRows
      · obtain ⟨i, hrow⟩ : ∃ i, RowOf ed i q := ⟨_, htext.1, htext.2, rfl⟩
        have hold : RowOf old i q := ⟨hrow.1, hrow.2.1, by rw [hscroll]; exact hrow.2.2⟩
        obtain ⟨hno1, hno2, hno3⟩ := hrow.ne
        by_cases hline : lineDirty key old ed = true ∧ RowOf ed ed.cursorLine q
        · rw [if_pos hline, picture_of_rowOf hline.2]
          rfl
        by_cases hline' : lineDirty key old ed = true ∧ RowOf ed (min old.cursorLine ed.cursorLine) q
        · rw [if_neg hline, if_pos hline', picture_of_rowOf hline'.2]
          rfl
        have hsame : rowText old i = rowText ed i := by
          refine (hall i q hrow).resolve_left fun hdrawn => ?_
          rcases hdrawn with ⟨hdirty, hmin | hcursor⟩
          · exact hline' ⟨hdirty, hmin ▸ hrow⟩
          · exact hline ⟨hdirty, hcursor ▸ hrow⟩
        rw [if_neg hline, if_neg hline', if_neg fun h => hno1 h.2, if_neg fun h => hno2 h.2,
          if_neg fun h => hno3 h.2, hshown, picture_of_rowOf hold, picture_of_rowOf hrow]
        exact hsame
      · have hno : ∀ j, ¬ RowOf ed j q := fun j hj => htext ⟨hj.1, hj.2.1⟩
        rw [if_neg fun h => hno _ h.2, if_neg fun h => hno _ h.2, picture_of_not_rowOf htext]
        have hq := hshown q
        rw [picture_of_not_rowOf htext] at hq
        have h12 : rowHeader ≠ rowPos := by decide
        have h13 : rowHeader ≠ rowFooter := by decide
        have h23 : rowPos ≠ rowFooter := by decide
        by_cases h1 : q = rowHeader
        · subst h1
          rw [if_pos rfl, getD_some] at hq ⊢
          cases hdirty : headerDirty old ed with
          | true => simp
          | false => simp [hq, hheader hdirty, h12, h13]
        by_cases h2 : q = rowPos
        · subst h2
          rw [if_neg h1, if_pos rfl, getD_some] at hq ⊢
          cases hdirty : posDirty old ed with
          | true => simp [h1]
          | false => simp [hq, posText_of_clean hdirty, h1, h23]
        by_cases h3 : q = rowFooter
        · subst h3
          rw [if_neg h1, if_neg h2, if_pos rfl, getD_some] at hq ⊢
          cases hdirty : footerDirty old ed with
          | true => simp [h1, h2]
          | false => simp [hq, footerText_of_clean hdirty, h1, h2]
        · rw [if_neg h1, if_neg h2, if_neg h3] at hq ⊢
          rw [if_neg fun h => h1 h.2, if_neg fun h => h2 h.2, if_neg fun h => h3 h.2]
          split at hq
          · rw [if_pos ‹_›]
            exact hq
          · rw [if_neg ‹_›]
            rfl
    · rw [cursor_redraw, cursor_render]

def settle (ed : VimEditor) : VimEditor := ensureCursorVisible (keepCursorValid ed)

/-- The cursor at another column. -/
def atCol (ed : VimEditor) (col : ℕ) : VimEditor := { ed with cursorCol := col }

theorem line_atCol (ed : VimEditor) (col : ℕ) : (atCol ed col).line = ed.line := rfl

theorem sound_atCol {col : ℕ} (h : Sound ed) (hcol : col ≤ ed.line.len) : Sound (atCol ed col) := by
  have hedits : Edits ed (atCol ed col) := h.moved ⟨rfl, rfl⟩ h.line hcol
  exact hedits.sound

theorem keepCursorValid_eq (h : Sound ed) :
    keepCursorValid ed = atCol ed (backToChar ed.line.text ed.line.len ed.cursorCol) := by
  have hcount := h.count_pos
  have hline := h.line
  have hcol := h.col
  rw [keepCursorValid, if_neg (by omega)]
  simp only [if_neg (show ¬ ed.cursorLine ≥ ed.lineCount by omega),
    if_neg (show ¬ ed.cursorCol > ed.line.len by omega)]
  rfl

theorem cursorLine_keepCursorValid (h : ed.cursorLine < ed.lineCount) :
    (keepCursorValid ed).cursorLine = ed.cursorLine := by
  rw [keepCursorValid, if_neg (by omega)]
  simp only [if_neg (Nat.not_le_of_lt h)]

theorem settle_frame (h : Sound ed) : ∃ top, settle ed =
    { atCol ed (backToChar ed.line.text ed.line.len ed.cursorCol) with scrollTop := top } := by
  obtain ⟨top, htop⟩ := ensureCursorVisible_frame (keepCursorValid ed)
  rw [settle, htop, keepCursorValid_eq h]
  exact ⟨top, rfl⟩

section Back

variable {text : ℕ → UInt8} {len col c j : ℕ}

theorem backToChar_of_lead (h : utf8IsCont (text col) = false) : backToChar text len col = col := by
  cases col with
  | zero => rfl
  | succ col => rw [backToChar, if_neg fun hc => by simp [h] at hc]

theorem backToChar_of_le (h : len ≤ col) : backToChar text len col = col := by
  cases col with
  | zero => rfl
  | succ col => rw [backToChar, if_neg fun hc => by omega]

theorem backToChar_of_cont (hlen : col + 1 < len) (h : utf8IsCont (text (col + 1)) = true) :
    backToChar text len (col + 1) = backToChar text len col := by
  rw [backToChar, if_pos ⟨hlen, h⟩]

theorem backToChar_idem (text : ℕ → UInt8) (len col : ℕ) :
    backToChar text len (backToChar text len col) = backToChar text len col := by
  induction col with
  | zero => rfl
  | succ col ih =>
    rw [backToChar]
    split
    · exact ih
    · next h => rw [backToChar, if_neg h]

theorem le_backToChar (hj : utf8IsCont (text j) = false) (h : j ≤ col) :
    j ≤ backToChar text len col := by
  induction col with
  | zero => exact h
  | succ col ih =>
    rw [backToChar]
    split
    · next hc =>
      refine ih (Nat.le_of_lt_succ (Nat.lt_of_le_of_ne h ?_))
      rintro rfl
      simp [hj] at hc
    · exact h

theorem backOverConts_of_lead (h : utf8IsCont (text col) = false) : backOverConts text col = col := by
  cases col with
  | zero => rfl
  | succ col => rw [backOverConts, h, if_neg (by simp)]

theorem utf8LenFromLead_of_cont {b : UInt8} (h : utf8IsCont b = true) : utf8LenFromLead b = 1 := by
  simp only [utf8IsCont, Bool.and_eq_true, decide_eq_true_eq, ge_iff_le] at h
  have hlow : ¬ b < 0x80 := UInt8.not_lt.2 h.1
  have hhigh : ∀ d : UInt8, 0xBF < d → ¬ b ≥ d := by
    intro d hd hb
    exact absurd (UInt8.lt_of_lt_of_le hd hb) (UInt8.not_lt.2 h.2)
  rw [utf8LenFromLead, if_neg hlow, if_neg fun hb => hhigh _ (by decide) hb.1,
    if_neg fun hb => hhigh _ (by decide) hb.1, if_neg fun hb => hhigh _ (by decide) hb.1]

end Back

/-- The line of the cursor with the held `j` put in. -/
def heldLine (ed : VimEditor) : VimLine := ed.line.insertAt ed.cursorCol [106]

/-- The editor with the held `j` put in. -/
def held (ed : VimEditor) : VimEditor :=
  { ed with
    lines := Function.update ed.lines ed.cursorLine (heldLine ed)
    cursorCol := ed.cursorCol + 1
    modified := true
    pendingJj := false }

theorem insertPending_eq (ed : VimEditor) : insertPending ed =
    if ed.pendingJj = false then ed
    else if ed.line.len + 1 ≥ maxLineLen then
      { setStatus ed (lit "line too long") with pendingJj := false }
    else held ed := by
  rw [insertPending]
  cases ed.pendingJj with
  | false => rfl
  | true =>
    have hpiece : ed.line.len + ([106] : List UInt8).length = ed.line.len + 1 := rfl
    rw [if_pos rfl, if_neg (by simp), insertChar, insertBytes, if_neg (by simp),
      if_neg (by decide), hpiece]
    by_cases hlong : ed.line.len + 1 ≥ maxLineLen
    · rw [if_pos hlong, if_pos hlong]
    · rw [if_neg hlong, if_neg hlong]
      rfl

/-- The cursor is not inside a character, but for the first one. -/
def Placed (ed : VimEditor) : Prop :=
  0 < ed.cursorCol → ed.cursorCol < ed.line.len → utf8IsCont (ed.line.text ed.cursorCol) = false

/-- The line starts inside a character, and the cursor is there. -/
def Stray (ed : VimEditor) : Prop :=
  ed.cursorCol = 0 ∧ 0 < ed.line.len ∧ utf8IsCont (ed.line.text 0) = true

theorem line_held (ed : VimEditor) : (held ed).line = heldLine ed := update_self _ _ _

theorem len_heldLine (ed : VimEditor) : (heldLine ed).len = ed.line.len + 1 := rfl

section Held

variable (h : Sound ed) (hplaced : Placed ed)

include h

theorem text_heldLine_self : (heldLine ed).text ed.cursorCol = 106 := by
  have hcol := h.col
  simp only [heldLine, VimLine.insertAt, length_singleton]
  rw [update_of_ne (by omega), Buffer.store_of_mem le_rfl (by simp)]
  simp

omit h in
theorem text_heldLine {k : ℕ} (hk : ed.cursorCol + k < ed.line.len) :
    (heldLine ed).text (ed.cursorCol + 1 + k) = ed.line.text (ed.cursorCol + k) := by
  simp only [heldLine, VimLine.insertAt, length_singleton]
  rw [update_of_ne (by omega), Buffer.store_of_ge (by simp), if_pos (by omega),
    Buffer.store_of_mem (by omega) (by simp; omega)]
  have hindex : ed.cursorCol + 1 + k - (ed.cursorCol + 1) = k := by omega
  simp [hindex, slice]

theorem sound_held (hroom : ed.line.len + 1 < maxLineLen) : Sound (held ed) := by
  refine ⟨⟨h.count_pos, h.count_le, ?_⟩, h.line, ?_⟩
  · have hpiece : ed.line.len + ([106] : List UInt8).length < maxLineLen := hroom
    exact lineOk_update h.lines (lineOk_insertAt hpiece) _
  · rw [line_held, len_heldLine]
    have hcol := h.col
    simp only [held]
    omega

theorem back_held : backToChar (heldLine ed).text (heldLine ed).len ed.cursorCol = ed.cursorCol := by
  refine backToChar_of_lead ?_
  rw [text_heldLine_self h]
  decide

include hplaced

theorem back_held_succ : backToChar (heldLine ed).text (heldLine ed).len (ed.cursorCol + 1) =
    ed.cursorCol ↔ Stray ed := by
  have hcol := h.col
  have hlen := len_heldLine ed
  by_cases hend : ed.cursorCol = ed.line.len
  · rw [backToChar_of_le (by omega)]
    constructor
    · intro hno
      omega
    · intro hstray
      have hzero := hstray.1
      have hpos := hstray.2.1
      omega
  · have htext := @text_heldLine ed 0 (by omega)
    rw [Nat.add_zero, Nat.add_zero] at htext
    by_cases hcont : utf8IsCont (ed.line.text ed.cursorCol) = true
    · rw [backToChar_of_cont (by omega) (by rw [htext]; exact hcont), back_held h]
      refine iff_of_true rfl ?_
      have hzero : ed.cursorCol = 0 := by
        by_contra hpos
        rw [hplaced (by omega) (by omega)] at hcont
        cases hcont
      rw [hzero] at hcont
      exact ⟨hzero, by omega, hcont⟩
    · rw [backToChar_of_lead (by rw [htext]; simpa using hcont)]
      constructor
      · intro hno
        omega
      · intro hstray
        rw [hstray.1] at hcont
        exact absurd hstray.2.2 hcont

end Held

/-- The cursor is back where it was. -/
def Back (ed ed' : VimEditor) : Prop :=
  ed'.cursorLine = ed.cursorLine ∧ ed'.cursorCol = ed.cursorCol

theorem settle_line (h : Sound ed) : (settle ed).cursorLine = ed.cursorLine := by
  obtain ⟨top, htop⟩ := settle_frame h
  rw [htop]
  rfl

theorem settle_col (h : Sound ed) :
    (settle ed).cursorCol = backToChar ed.line.text ed.line.len ed.cursorCol := by
  obtain ⟨top, htop⟩ := settle_frame h
  rw [htop]
  rfl

section Keys

variable (h : Sound ed) (hplaced : Placed ed) (hroom : ed.line.len + 1 < maxLineLen)

include h hroom

theorem back_atCol {col : ℕ} (hcol : col ≤ ed.line.len + 1) : Back ed (settle (atCol (held ed) col)) ↔
    backToChar (heldLine ed).text (heldLine ed).len col = ed.cursorCol := by
  have hsound : Sound (atCol (held ed) col) := by
    refine sound_atCol (sound_held h hroom) ?_
    rw [line_held, len_heldLine]
    exact hcol
  rw [Back, settle_line hsound, settle_col hsound, line_atCol, line_held]
  exact and_iff_right rfl

omit hroom in
theorem moveLeft_held : moveLeft (held ed) = atCol (held ed) ed.cursorCol := by
  have hcol := h.col
  have hpos : (held ed).cursorCol > 0 := Nat.succ_pos _
  have hmin : min (ed.cursorCol + 1) (ed.line.len + 1) - 1 = ed.cursorCol := by omega
  have hlead : utf8IsCont ((heldLine ed).text ed.cursorCol) = false := by
    rw [text_heldLine_self h]
    decide
  have hprev : utf8PrevBoundary (heldLine ed).text (heldLine ed).len (held ed).cursorCol =
      ed.cursorCol := by
    rw [utf8PrevBoundary, if_neg (Nat.ne_of_gt hpos), len_heldLine]
    simp only [held, hmin]
    exact backOverConts_of_lead hlead
  rw [moveLeft, if_pos hpos, line_held, hprev]
  rfl

theorem back_left : Back ed (settle (moveLeft (held ed))) := by
  have hcol := h.col
  rw [moveLeft_held h, back_atCol h hroom (by omega)]
  exact back_held h

theorem back_home : Back ed (settle (atCol (held ed) 0)) ↔ ed.cursorCol = 0 := by
  rw [back_atCol h hroom (by omega)]
  exact eq_comm

theorem not_back_end : ¬ Back ed (settle (atCol (held ed) (held ed).line.len)) := by
  have hcol := h.col
  rw [line_held, len_heldLine, back_atCol h hroom le_rfl, len_heldLine,
    backToChar_of_le le_rfl]
  omega

include hplaced

theorem back_idle : Back ed (settle (held ed)) ↔ Stray ed := by
  have hcol := h.col
  have hsame : held ed = atCol (held ed) (ed.cursorCol + 1) := rfl
  rw [hsame, back_atCol h hroom (by omega)]
  exact back_held_succ h hplaced

theorem back_kept : Back ed (settle (keepCursorValid (held ed))) ↔ Stray ed := by
  have hcol := h.col
  have hkeep : keepCursorValid (held ed) = atCol (held ed)
      (backToChar (heldLine ed).text (heldLine ed).len (ed.cursorCol + 1)) := by
    rw [keepCursorValid_eq (sound_held h hroom), line_held]
    rfl
  have hle := backToChar_le (heldLine ed).text (heldLine ed).len (ed.cursorCol + 1)
  rw [hkeep, back_atCol h hroom (by omega), backToChar_idem]
  exact back_held_succ h hplaced

theorem back_right (hinside : ed.cursorCol < ed.line.len) :
    Back ed (settle (moveRight (held ed))) ↔
      Stray ed ∧ 1 < ed.line.len ∧ utf8IsCont (ed.line.text 1) = true := by
  have hlen := len_heldLine ed
  have hmove : moveRight (held ed) = atCol (held ed)
      (utf8NextBoundary (heldLine ed).text (heldLine ed).len (ed.cursorCol + 1)) := by
    have hlt : (held ed).cursorCol < (held ed).line.len := by
      rw [line_held, len_heldLine]
      exact Nat.succ_lt_succ hinside
    rw [moveRight, if_pos hlt, line_held]
    rfl
  have hnext := utf8NextBoundary_le (heldLine ed).text (heldLine ed).len (ed.cursorCol + 1)
  have hahead := @lt_utf8NextBoundary (heldLine ed).text (heldLine ed).len (ed.cursorCol + 1) (by omega)
  have htext := @text_heldLine ed 0 (by omega)
  rw [Nat.add_zero, Nat.add_zero] at htext
  rw [hmove, back_atCol h hroom (by omega)]
  by_cases hcont : utf8IsCont (ed.line.text ed.cursorCol) = true
  · have hzero : ed.cursorCol = 0 := by
      by_contra hpos
      rw [hplaced (by omega) hinside] at hcont
      cases hcont
    have hstray : Stray ed := ⟨hzero, by omega, by rwa [hzero] at hcont⟩
    have hone : utf8IsCont ((heldLine ed).text 1) = true := by
      rw [hzero] at htext
      rw [htext]
      exact hstray.2.2
    have hstep : utf8NextBoundary (heldLine ed).text (heldLine ed).len (ed.cursorCol + 1) = 2 := by
      have hadv : utf8CharLenAt (heldLine ed).text (heldLine ed).len 1 = 1 := by
        rw [utf8CharLenAt, if_neg (by omega), utf8LenFromLead_of_cont hone]
        exact if_pos (.inl rfl)
      rw [hzero, Nat.zero_add, utf8NextBoundary, if_neg (by omega), hadv]
      simp only [Nat.one_ne_zero, if_false]
      exact if_neg (by omega)
    rw [hstep, hzero]
    by_cases hlong : 1 < ed.line.len
    · have htwo := @text_heldLine ed 1 (by omega)
      rw [hzero] at htwo
      by_cases hcont' : utf8IsCont (ed.line.text 1) = true
      · rw [backToChar_of_cont (by omega) (by rw [htwo]; exact hcont'),
          backToChar_of_cont (by omega) hone]
        exact iff_of_true rfl ⟨hstray, hlong, hcont'⟩
      · rw [backToChar_of_lead (by rw [htwo]; simpa using hcont')]
        exact iff_of_false (by omega) fun hno => hcont' hno.2.2
    · rw [backToChar_of_le (by omega)]
      exact iff_of_false (by omega) fun hno => hlong hno.2.1
  · constructor
    · intro hno
      have hlead : utf8IsCont ((heldLine ed).text (ed.cursorCol + 1)) = false := by
        rw [htext]
        simpa using hcont
      have hge := @le_backToChar (heldLine ed).text (heldLine ed).len _ _ hlead (Nat.le_of_lt hahead)
      omega
    · intro hstray
      have hstart := hstray.1
      rw [hstart.1] at hcont
      exact absurd hstart.2.2 hcont

end Keys

/-! ## The condition -/

/-- The row of the cursor is another one with the held `j`. -/
def HeldShows (ed : VimEditor) : Prop :=
  ed.pendingJj = true ∧ ed.line.len + 1 < maxLineLen ∧
    lineText ed.cursorLine ed.line ≠ lineText ed.cursorLine (heldLine ed)

/-- A key without a meaning in insert mode. -/
def Idle (key : ℕ) : Prop :=
  key < 32 ∧ key ≠ keyEsc ∧ key ≠ keyEnter ∧ key ≠ 10 ∧ key ≠ keyBackspace ∧ key ≠ 9

/-- The key brings the cursor back in front of the `j` that has been put in. -/
def ComesBack (ed : VimEditor) (key : ℕ) : Prop :=
  key = keyLeft ∨ (key = keyHome ∧ ed.cursorCol = 0) ∨
    (Stray ed ∧ ((key = keyUp ∧ ed.cursorLine = 0) ∨
      (key = keyDown ∧ ed.cursorLine + 1 = ed.lineCount) ∨
      (key = keyRight ∧ 1 < ed.line.len ∧ utf8IsCont (ed.line.text 1) = true) ∨ Idle key))

/-- The keys that leave a row as it was: one behind a held `j` that brings the cursor back in a
document that was modified before, or that goes up inside the view; and the second `d` on the only
line of such a document, with the cursor at its start. -/
def Stale (ed : VimEditor) (key : ℕ) : Prop :=
  (ed.mode = .insert ∧ HeldShows ed ∧
    ((key = keyUp ∧ ed.scrollTop < ed.cursorLine) ∨ (ed.modified = true ∧ ComesBack ed key))) ∨
  (ed.mode = .normal ∧ ed.pendingDd = true ∧ key = 100 ∧ ed.lineCount = 1 ∧ ed.modified = true ∧
    ed.cursorCol = 0 ∧ lineText 0 (ed.lines 0) ≠ lineText 0 ((ed.lines 0).cutAt 0))

def Visible (ed : VimEditor) : Prop :=
  ed.scrollTop ≤ ed.cursorLine ∧ ed.cursorLine < ed.scrollTop + viewRows

theorem redraw_of_full {old : VimEditor} (h : fullDirty key old ed = true) :
    redraw key old ed s = render ed s := by
  rw [redraw, if_pos h]

section Line

variable {old : VimEditor} (hs : render old s = s)
  (hheader : headerDirty old ed = false → headerText old = headerText ed)

include hs hheader

theorem redraw_of_lines (hlines : ed.lines = old.lines) : redraw key old ed s = render ed s := by
  cases hfull : fullDirty key old ed with
  | true => exact redraw_of_full hfull
  | false =>
    refine (redraw_eq_iff hs hfull hheader).2 fun i q _ => .inr ?_
    simp only [fullDirty, Bool.or_eq_false_iff, decide_eq_false_iff_not, ne_eq, not_not] at hfull
    rw [rowText, rowText, hlines, hfull.1.1.2]

theorem redraw_eq_iff_line (hfull : fullDirty key old ed = false)
    (hline : old.cursorLine < old.lineCount) (hview : Visible old)
    (hlines : ∀ i, i ≠ old.cursorLine → ed.lines i = old.lines i) :
    redraw key old ed s = render ed s ↔
      (lineDirty key old ed = true ∧ old.cursorLine ≤ ed.cursorLine) ∨
        lineText old.cursorLine old.line = lineText old.cursorLine (ed.lines old.cursorLine) := by
  have hsame := hfull
  simp only [fullDirty, Bool.or_eq_false_iff, decide_eq_false_iff_not, ne_eq, not_not] at hsame
  obtain ⟨⟨⟨hscroll, hcount⟩, -⟩, -⟩ := hsame
  have hrow : rowText old old.cursorLine = lineText old.cursorLine old.line :=
    if_neg (Nat.not_le_of_lt hline)
  have hrow' : rowText ed old.cursorLine = lineText old.cursorLine (ed.lines old.cursorLine) :=
    if_neg (by omega)
  have hdrawn : Drawn key old ed old.cursorLine ↔
      lineDirty key old ed = true ∧ old.cursorLine ≤ ed.cursorLine := by
    rw [Drawn]
    refine and_congr_right fun _ => ?_
    omega
  rw [redraw_eq_iff hs hfull hheader, ← hrow, ← hrow', ← hdrawn]
  constructor
  · intro hall
    have hle := hview.1
    have hlt := hview.2
    exact hall _ (rowTextBase + (old.cursorLine - old.scrollTop)) ⟨by omega, by omega, by omega⟩
  · intro hown i q _
    by_cases hi : i = old.cursorLine
    · rw [hi]
      exact hown
    · rw [rowText, rowText, hcount, hlines i hi]
      exact .inr rfl

theorem redraw_of_edit (hline : old.cursorLine < old.lineCount) (hview : Visible old)
    (hedit : editKey old.mode key = true)
    (hlocal : ed.lineCount = old.lineCount → ed.cursorLine = old.cursorLine ∧
      ∀ i, i ≠ old.cursorLine → ed.lines i = old.lines i) :
    redraw key old ed s = render ed s := by
  cases hfull : fullDirty key old ed with
  | true => exact redraw_of_full hfull
  | false =>
    have hsame := hfull
    simp only [fullDirty, Bool.or_eq_false_iff, decide_eq_false_iff_not, ne_eq, not_not] at hsame
    obtain ⟨hcursor, hlines⟩ := hlocal hsame.1.1.2.symm
    refine (redraw_eq_iff_line hs hheader hfull hline hview hlines).2 (.inl ⟨?_, ?_⟩)
    · rw [lineDirty, hedit, Bool.or_true]
    · rw [hcursor]

end Line

/-- At most the line of the cursor is another one. -/
structure InLine (ed ed' : VimEditor) : Prop where
  count : ed'.lineCount = ed.lineCount
  cursorLine : ed'.cursorLine = ed.cursorLine
  lines : ∀ i, i ≠ ed.cursorLine → ed'.lines i = ed.lines i
  filePath : ed'.filePath = ed.filePath

theorem InLine.refl (ed : VimEditor) : InLine ed ed := ⟨rfl, rfl, fun _ _ => rfl, rfl⟩

theorem InLine.trans (h : InLine ed ed') (h' : InLine ed' ed'') : InLine ed ed'' := by
  refine ⟨h'.count.trans h.count, h'.cursorLine.trans h.cursorLine, ?_, h'.filePath.trans h.filePath⟩
  intro i hi
  rw [h'.lines i (by rw [h.cursorLine]; exact hi), h.lines i hi]

theorem inLine_insertBytes (ed : VimEditor) (bytes : List UInt8) :
    InLine ed (insertBytes ed bytes) := by
  rw [insertBytes]
  split
  · exact .refl ed
  split
  · exact .refl ed
  split
  · exact ⟨rfl, rfl, fun _ _ => rfl, rfl⟩
  · exact ⟨rfl, rfl, fun i hi => update_of_ne hi _ _, rfl⟩

theorem inLine_insertPending (ed : VimEditor) : InLine ed (insertPending ed) := by
  rw [insertPending]
  split
  · obtain ⟨hcount, hcursor, hlines, hpath⟩ := inLine_insertBytes ed [106]
    exact ⟨hcount, hcursor, hlines, hpath⟩
  · exact .refl ed

theorem inLine_deleteChar (ed : VimEditor) : InLine ed (deleteChar ed) := by
  rw [deleteChar]
  simp only
  split
  · exact .refl ed
  · exact ⟨rfl, rfl, fun i hi => update_of_ne hi _ _, rfl⟩

theorem inLine_backspace (h : Sound ed) (hcount : (backspace ed).lineCount = ed.lineCount) :
    InLine ed (backspace ed) := by
  rw [backspace] at hcount ⊢
  simp only at hcount ⊢
  split at hcount
  · next hcol =>
    rw [if_pos hcol]
    exact ⟨rfl, rfl, fun i hi => update_of_ne hi _ _, rfl⟩
  · next hcol =>
    rw [if_neg hcol]
    split at hcount
    · next hfirst =>
      rw [if_pos hfirst]
      exact .refl ed
    · next hfirst =>
      rw [if_neg hfirst]
      split at hcount
      · next hlong =>
        rw [if_pos hlong]
        exact ⟨rfl, rfl, fun _ _ => rfl, rfl⟩
      · have hpos := h.count_pos
        simp only at hcount
        omega

theorem filePath_insertLineAfter (ed : VimEditor) (i : ℕ) :
    (insertLineAfter ed i).2.filePath = ed.filePath := by
  rw [insertLineAfter]
  split
  · rfl
  split
  · rfl
  · rfl

theorem InsertEffect.filePath {input : List UInt8} (h : InsertEffect ed key input ed') :
    ed'.filePath = ed.filePath := by
  cases h with
  | held => rfl
  | left => exact (still_moveLeft ed).filePath
  | right => exact (still_moveRight ed).filePath
  | up => exact (still_moveUpward ed).filePath
  | down => exact (still_moveDownward ed).filePath
  | home => rfl
  | lineEnd => rfl
  | enter =>
    have hopen := filePath_insertLineAfter ed ed.cursorLine
    rw [splitLine]
    simp only
    split
    · exact hopen
    · exact hopen
  | backspace =>
    rw [Vim.backspace]
    simp only
    split_ifs <;> rfl
  | tab =>
    simp only [insertChar]
    rw [(inLine_insertBytes _ _).filePath, (inLine_insertBytes _ _).filePath,
      (inLine_insertBytes _ _).filePath, (inLine_insertBytes _ _).filePath]
  | text => exact (inLine_insertBytes _ _).filePath
  | nothing => rfl

theorem filePath_handleNormalMode (h : Sound ed) (key : ℕ) :
    (handleNormalMode ed key).filePath = ed.filePath := by
  rw [handleNormalMode]
  split
  · split
    · simp only [setStatus, deleteLine]
      split
      · rfl
      split
      · rfl
      · simp only [(still_keepCursorValid _).filePath]
        split <;> rfl
    · rfl
  split
  · split <;> rfl
  · have heffect := pressNormal_effect h key
    generalize pressNormal ed key = ed' at heffect ⊢
    cases heffect with
    | moved hstill => exact hstill.filePath
    | opened =>
      have hopen := filePath_insertLineAfter ed ed.cursorLine
      simp only [setStatus, openBelowInsert]
      split
      · exact hopen
      · exact hopen
    | deleted => exact (inLine_deleteChar ed).filePath

theorem filePath_handleCommandMode {cwd : List UInt8} {answers : SaveAnswers} {input : List UInt8}
    {r : VimEditor × List UInt8} (hmode : r.1.mode = .command)
    (hrun : handleCommandMode cwd answers ed key input = some r) : r.1.filePath = ed.filePath := by
  rw [handleCommandMode] at hrun
  split at hrun
  · cases hrun
    cases hmode
  split at hrun
  · cases hrun
    rfl
  split at hrun
  · cases hrun
    cases hmode
  split at hrun
  · obtain ⟨c, -, rfl⟩ := map_eq_some_iff.1 hrun
    simp only
    split
    · rfl
    · rfl
  · cases hrun
    rfl

theorem handleInsertMode_cases {input : List UInt8} {r : VimEditor × List UInt8}
    (hrun : handleInsertMode ed key input = some r) :
    (r.1.lines = ed.lines ∧ r.1.filePath = ed.filePath ∧
        (key = keyEsc ∨ (ed.pendingJj = true ∧ key = 106))) ∨
      (key ≠ keyEsc ∧ ¬ (ed.pendingJj = true ∧ key = 106) ∧
        pressInsert (insertPending ed) key input = some r) := by
  rw [handleInsertMode] at hrun
  by_cases hesc : key = keyEsc
  · rw [if_pos hesc] at hrun
    cases hrun
    exact .inl ⟨rfl, rfl, .inl hesc⟩
  rw [if_neg hesc] at hrun
  by_cases hjj : ed.pendingJj = true ∧ key = 106
  · rw [if_pos hjj] at hrun
    cases hrun
    exact .inl ⟨rfl, rfl, .inr hjj⟩
  · rw [if_neg hjj] at hrun
    exact .inr ⟨hesc, hjj, hrun⟩

theorem filePath_handleKey {cwd : List UInt8} (h : Sound ed) {e : KeyEvent}
    {r : VimEditor × List UInt8} (hrun : handleKey cwd ed e = some r)
    (hmode : ed.mode = r.1.mode) : r.1.filePath = ed.filePath := by
  rw [handleKey] at hrun
  cases hold : ed.mode with
  | normal =>
    rw [hold] at hrun
    cases hrun
    exact filePath_handleNormalMode h _
  | insert =>
    rw [hold] at hrun
    rcases handleInsertMode_cases hrun with ⟨-, hpath, -⟩ | ⟨-, -, hpress⟩
    · exact hpath
    · rw [(pressInsert_effect hpress).filePath, (inLine_insertPending ed).filePath]
  | command =>
    rw [hold] at hrun
    exact filePath_handleCommandMode (by rw [← hmode, hold]) hrun

section Round

variable {r : VimEditor × List UInt8} {e : KeyEvent} {cwd : List UInt8}

theorem settle_still (h : Sound ed) : (settle ed).lines = ed.lines ∧
    (settle ed).lineCount = ed.lineCount ∧ (settle ed).modified = ed.modified ∧
    (settle ed).filePath = ed.filePath ∧ (settle ed).mode = ed.mode := by
  obtain ⟨top, htop⟩ := settle_frame h
  rw [htop]
  exact ⟨rfl, rfl, rfl, rfl, rfl⟩

theorem InLine.settle (hline : InLine ed ed') (h : Sound ed') : InLine ed (settle ed') := by
  obtain ⟨hlines, hcount, -, hpath, -⟩ := settle_still h
  refine hline.trans ⟨hcount, settle_line h, fun i _ => ?_, hpath⟩
  rw [hlines]

theorem headerText_of_clean (h : Sound ed) (hsound : Sound r.1)
    (hrun : handleKey cwd ed e = some r) (hclean : headerDirty ed (settle r.1) = false) :
    headerText ed = headerText (settle r.1) := by
  simp only [headerDirty, Bool.or_eq_false_iff, decide_eq_false_iff_not, ne_eq, not_not] at hclean
  obtain ⟨hmode, hmodified⟩ := hclean
  obtain ⟨-, -, -, hpath, hmode'⟩ := settle_still hsound
  have hfile : (settle r.1).filePath = ed.filePath := by
    rw [hpath]
    exact filePath_handleKey h hrun (by rw [hmode, hmode'])
  rw [headerText, headerText, hmode, hmodified, hfile]

end Round

theorem editKey_insert :
    editKey .insert key = true ↔ key = 8 ∨ key = 127 ∨ key = 9 ∨ (key ≥ 32 ∧ key ≤ 255) := by
  rw [editKey, decide_eq_true_eq]
  rfl

theorem InsertEffect.kind {input : List UInt8} (h : Sound ed)
    (heffect : InsertEffect ed key input ed') :
    (editKey .insert key = true → ed'.lineCount = ed.lineCount → InLine ed ed') ∧
      (editKey .insert key = false → key ≠ keyEnter → key ≠ 10 → ed'.lines = ed.lines) := by
  have hno : ∀ {p q : Prop}, (editKey .insert key = true → False) →
      editKey .insert key = true → p → q := fun hkey hedit _ => absurd hedit hkey
  cases heffect with
  | held hkey => exact ⟨fun _ _ => ⟨rfl, rfl, fun _ _ => rfl, rfl⟩, fun _ _ _ => rfl⟩
  | left hkey => exact ⟨hno (by rw [hkey]; decide), fun _ _ _ => (still_moveLeft ed).lines⟩
  | right hkey => exact ⟨hno (by rw [hkey]; decide), fun _ _ _ => (still_moveRight ed).lines⟩
  | up hkey => exact ⟨hno (by rw [hkey]; decide), fun _ _ _ => (still_moveUpward ed).lines⟩
  | down hkey => exact ⟨hno (by rw [hkey]; decide), fun _ _ _ => (still_moveDownward ed).lines⟩
  | home hkey => exact ⟨hno (by rw [hkey]; decide), fun _ _ _ => rfl⟩
  | lineEnd hkey => exact ⟨hno (by rw [hkey]; decide), fun _ _ _ => rfl⟩
  | enter hkey => exact ⟨hno (by rcases hkey with rfl | rfl <;> decide), fun _ h1 h2 => by tauto⟩
  | backspace hkey =>
    refine ⟨fun _ => inLine_backspace h, fun hedit => ?_⟩
    rcases hkey with rfl | rfl
    · cases hedit
    · cases hedit
  | tab hkey =>
    refine ⟨fun _ _ => ?_, fun hedit => ?_⟩
    · exact (inLine_insertBytes _ _).trans ((inLine_insertBytes _ _).trans
        ((inLine_insertBytes _ _).trans (inLine_insertBytes _ _)))
    · rw [hkey] at hedit
      cases hedit
  | text hrange =>
    refine ⟨fun _ _ => inLine_insertBytes _ _, fun hedit => ?_⟩
    rw [editKey, decide_eq_false_iff_not] at hedit
    tauto
  | nothing => exact ⟨fun _ _ => .refl ed, fun _ _ _ => rfl⟩

theorem stale_insert (hmode : ed.mode = .insert) : Stale ed key ↔ HeldShows ed ∧
    ((key = keyUp ∧ ed.scrollTop < ed.cursorLine) ∨ (ed.modified = true ∧ ComesBack ed key)) := by
  rw [Stale, hmode]
  simp

theorem key_of_comesBack (h : ComesBack ed key) : key = keyLeft ∨ key = keyHome ∨ key = keyUp ∨
    key = keyDown ∨ key = keyRight ∨ Idle key := by
  rcases h with h | h | ⟨-, h | h | h | h⟩
  · exact .inl h
  · exact .inr (.inl h.1)
  · exact .inr (.inr (.inl h.1))
  · exact .inr (.inr (.inr (.inl h.1)))
  · exact .inr (.inr (.inr (.inr (.inl h.1))))
  · exact .inr (.inr (.inr (.inr (.inr h))))

theorem not_stale_of_key (hmode : ed.mode = .insert) (hkey : key = keyEsc ∨ key = keyEnter ∨
    key = 10 ∨ editKey .insert key = true) : ¬ Stale ed key := by
  rw [stale_insert hmode]
  rintro ⟨-, hstale⟩
  have hmoves : key = keyLeft ∨ key = keyHome ∨ key = keyUp ∨ key = keyDown ∨ key = keyRight ∨
      Idle key := by
    rcases hstale with ⟨hup, -⟩ | ⟨-, hback⟩
    · exact .inr (.inr (.inl hup))
    · exact key_of_comesBack hback
  simp only [editKey_insert, keyEsc, keyEnter] at hkey
  simp only [keyLeft, keyHome, keyUp, keyDown, keyRight, Idle, keyEsc, keyEnter, keyBackspace] at hmoves
  omega

theorem scrollTop_ensureCursorVisible (ed : VimEditor) : (ensureCursorVisible ed).scrollTop =
    if ed.cursorLine < ed.scrollTop then ed.cursorLine
    else if ed.cursorLine ≥ ed.scrollTop + viewRows then ed.cursorLine - viewRows + 1
    else ed.scrollTop := by
  rw [ensureCursorVisible]
  by_cases hlow : ed.cursorLine < ed.scrollTop
  · rw [if_pos hlow, if_pos hlow]
  rw [if_neg hlow, if_neg hlow]
  by_cases hhigh : ed.cursorLine ≥ ed.scrollTop + viewRows
  · rw [if_pos hhigh, if_pos hhigh]
  · rw [if_neg hhigh, if_neg hhigh]

theorem settle_scroll (h : Sound ed) : (settle ed).scrollTop =
    if ed.cursorLine < ed.scrollTop then ed.cursorLine
    else if ed.cursorLine ≥ ed.scrollTop + viewRows then ed.cursorLine - viewRows + 1
    else ed.scrollTop := by
  rw [settle, keepCursorValid_eq h, scrollTop_ensureCursorVisible]
  rfl

theorem redraw_eq_iff_of_moved (h : Sound ed) (hview : Visible ed) (hs : render ed s = s)
    (hmode : ed.mode = .insert) (hsound : Sound ed') (hlines : ed'.lines = (held ed).lines)
    (hmodified : ed'.modified = true) (hedit : editKey .insert key = false)
    (hheader : headerDirty ed (settle ed') = false → headerText ed = headerText (settle ed')) :
    redraw key ed (settle ed') s = render (settle ed') s ↔
      ¬ (fullDirty key ed (settle ed') = false ∧
        lineText ed.cursorLine ed.line ≠ lineText ed.cursorLine (heldLine ed) ∧
        (ed'.cursorLine < ed.cursorLine ∨ (ed.modified = true ∧ Back ed (settle ed')))) := by
  cases hfull : fullDirty key ed (settle ed') with
  | true =>
    simp only [redraw_of_full hfull, true_iff]
    rintro ⟨hno, -⟩
    cases hno
  | false =>
    obtain ⟨hsettleLines, -, hsettleModified, -, -⟩ := settle_still hsound
    have hrow : (settle ed').lines ed.cursorLine = heldLine ed := by
      rw [hsettleLines, hlines]
      exact update_self _ _ _
    have hothers : ∀ i, i ≠ ed.cursorLine → (settle ed').lines i = ed.lines i := by
      intro i hi
      rw [hsettleLines, hlines]
      exact update_of_ne hi _ _
    have hdirty : lineDirty key ed (settle ed') = true ↔
        ¬ (ed.modified = true ∧ Back ed (settle ed')) := by
      simp only [lineDirty, hmode, hedit, Bool.or_false, Bool.or_eq_true, decide_eq_true_eq, Back,
        hsettleModified, hmodified, ne_eq]
      tauto
    rw [redraw_eq_iff_line hs hheader hfull h.line hview hothers, hrow, hdirty, settle_line hsound]
    simp only [true_and]
    rw [← Nat.not_lt]
    tauto

theorem fullDirty_of_line (hsound : Sound ed')
    (hcount : ed'.lineCount = ed.lineCount) (hscroll : ed'.scrollTop = ed.scrollTop)
    (hline : Visible ed') (hkey : key ≠ keyEnter ∧ key ≠ 10) :
    fullDirty key ed (settle ed') = false := by
  obtain ⟨-, hcount', -, -, -⟩ := settle_still hsound
  obtain ⟨hlow, hhigh⟩ := hline
  have hsame : (settle ed').scrollTop = ed.scrollTop := by
    rw [settle_scroll hsound, if_neg (Nat.not_lt_of_le hlow), if_neg (Nat.not_le_of_lt hhigh),
      hscroll]
  simp [fullDirty, hsame, hcount', hcount, hkey.1, hkey.2]

/-- What is known of the state behind a key that only moves the cursor. -/
structure Moves (ed ed' : VimEditor) : Prop where
  sound : Sound ed'
  lines : ed'.lines = (held ed).lines
  count : ed'.lineCount = ed.lineCount
  scroll : ed'.scrollTop = ed.scrollTop
  modified : ed'.modified = true

theorem moves_of_still (hsound : Sound ed') (hstill : Still (held ed) ed') : Moves ed ed' :=
  ⟨hsound, hstill.lines, hstill.count, hstill.scrollTop, hstill.modified⟩

theorem redraw_eq_iff_of_stays (h : Sound ed) (hview : Visible ed) (hs : render ed s = s)
    (hmode : ed.mode = .insert) (hmoves : Moves ed ed') (hline : ed'.cursorLine = ed.cursorLine)
    (hkey : key ≠ keyEnter ∧ key ≠ 10) (hedit : editKey .insert key = false)
    (hheader : headerDirty ed (settle ed') = false → headerText ed = headerText (settle ed')) :
    redraw key ed (settle ed') s = render (settle ed') s ↔
      ¬ (lineText ed.cursorLine ed.line ≠ lineText ed.cursorLine (heldLine ed) ∧
        ed.modified = true ∧ Back ed (settle ed')) := by
  have hvisible : Visible ed' := by
    rw [Visible, hmoves.scroll, hline]
    exact hview
  have hfull := fullDirty_of_line hmoves.sound hmoves.count hmoves.scroll hvisible hkey
  rw [redraw_eq_iff_of_moved h hview hs hmode hmoves.sound hmoves.lines hmoves.modified hedit
    hheader, hfull, hline]
  simp

theorem redraw_of_below (h : Sound ed) (hview : Visible ed) (hs : render ed s = s)
    (hmode : ed.mode = .insert) (hmoves : Moves ed ed') (hline : ed.cursorLine < ed'.cursorLine)
    (hedit : editKey .insert key = false)
    (hheader : headerDirty ed (settle ed') = false → headerText ed = headerText (settle ed')) :
    redraw key ed (settle ed') s = render (settle ed') s := by
  refine (redraw_eq_iff_of_moved h hview hs hmode hmoves.sound hmoves.lines hmoves.modified hedit
    hheader).2 ?_
  rintro ⟨-, -, hup | ⟨-, hback⟩⟩
  · omega
  · have hsame := hback.1
    rw [settle_line hmoves.sound] at hsame
    omega

theorem redraw_eq_iff_of_above (h : Sound ed) (hview : Visible ed) (hs : render ed s = s)
    (hmode : ed.mode = .insert) (hmoves : Moves ed ed')
    (hline : ed'.cursorLine + 1 = ed.cursorLine) (hkey : key ≠ keyEnter ∧ key ≠ 10)
    (hedit : editKey .insert key = false)
    (hheader : headerDirty ed (settle ed') = false → headerText ed = headerText (settle ed')) :
    redraw key ed (settle ed') s = render (settle ed') s ↔
      ¬ (lineText ed.cursorLine ed.line ≠ lineText ed.cursorLine (heldLine ed) ∧
        ed.scrollTop < ed.cursorLine) := by
  rw [redraw_eq_iff_of_moved h hview hs hmode hmoves.sound hmoves.lines hmoves.modified hedit
    hheader]
  have hup : ed'.cursorLine < ed.cursorLine := by omega
  have hfull : fullDirty key ed (settle ed') = false ↔ ed.scrollTop < ed.cursorLine := by
    constructor
    · intro hfull
      simp only [fullDirty, Bool.or_eq_false_iff, decide_eq_false_iff_not, ne_eq, not_not] at hfull
      have hsame := hfull.1.1.1
      rw [settle_scroll hmoves.sound, hmoves.scroll] at hsame
      split at hsame
      · omega
      · omega
    · intro hlow
      refine fullDirty_of_line hmoves.sound hmoves.count hmoves.scroll ?_ hkey
      have hhigh := hview.2
      rw [Visible, hmoves.scroll]
      omega
  rw [hfull]
  simp only [hup, true_or, and_true]
  rw [and_comm]

theorem readKey_insert (ch : UInt8) : readKey ch = keyEsc ∨ readKey ch = keyEnter ∨
    readKey ch = 10 ∨ editKey .insert (readKey ch) = true ∨ readKey ch = keyLeft ∨
    readKey ch = keyRight ∨ readKey ch = keyUp ∨ readKey ch = keyDown ∨ readKey ch = keyHome ∨
    readKey ch = keyEnd ∨ Idle (readKey ch) := by
  have hlt := ch.toNat_lt
  rw [editKey_insert]
  simp only [Idle, keyEsc, keyEnter, keyLeft, keyRight, keyUp, keyDown, keyHome, keyEnd, keyBackspace]
  have hread : readKey ch = 13 ∨ readKey ch = 8 ∨ (1003 ≤ readKey ch ∧ readKey ch ≤ 1006) ∨
      (1001 ≤ readKey ch ∧ readKey ch ≤ 1002) ∨ readKey ch = 127 ∨ readKey ch < 256 := by
    rw [readKey]
    simp only [keyEnter, keyBackspace, keyLeft, keyRight, keyUp, keyDown, keyHome, keyEnd, keyDel]
    split_ifs <;> omega
  omega

section Press

variable (h : Sound ed) (hplaced : Placed ed) (hroom : ed.line.len + 1 < maxLineLen)

include h hplaced hroom

theorem redraw_eq_iff_of_held {input : List UInt8} {r : VimEditor × List UInt8}
    (hview : Visible ed) (hs : render ed s = s) (hmode : ed.mode = .insert)
    (hpending : ed.pendingJj = true) (hsound : Sound r.1)
    (hrun : pressInsert (held ed) key input = some r)
    (hheader : headerDirty ed (settle r.1) = false → headerText ed = headerText (settle r.1))
    (hkey : key = keyLeft ∨ key = keyRight ∨ key = keyUp ∨ key = keyDown ∨ key = keyHome ∨
      key = keyEnd ∨ Idle key) :
    redraw key ed (settle r.1) s = render (settle r.1) s ↔ ¬ Stale ed key := by
  have hheld := sound_held h hroom
  have hshows : HeldShows ed ↔
      lineText ed.cursorLine ed.line ≠ lineText ed.cursorLine (heldLine ed) := by
    simp [HeldShows, hpending, hroom]
  rw [stale_insert hmode, hshows]
  -- the redraw of a key that stays in the line, once it is known when the cursor comes back
  have hstays : r.1.cursorLine = ed.cursorLine → Still (held ed) r.1 → key ≠ keyUp →
      (key ≠ keyEnter ∧ key ≠ 10) → editKey .insert key = false →
      (Back ed (settle r.1) ↔ ComesBack ed key) →
      (redraw key ed (settle r.1) s = render (settle r.1) s ↔
        ¬ (lineText ed.cursorLine ed.line ≠ lineText ed.cursorLine (heldLine ed) ∧
          ((key = keyUp ∧ ed.scrollTop < ed.cursorLine) ∨
            (ed.modified = true ∧ ComesBack ed key)))) := by
    intro hline hstill hup henter hedit hback
    rw [redraw_eq_iff_of_stays h hview hs hmode (moves_of_still hsound hstill) hline henter hedit
      hheader, hback]
    simp only [hup, false_and, false_or]
  rcases hkey with rfl | rfl | rfl | rfl | rfl | rfl | hidle
  · have hr : pressInsert (held ed) keyLeft input = some (moveLeft (held ed), input) := rfl
    rw [hr] at hrun
    cases hrun
    refine hstays ?_ (still_moveLeft _) (by decide) (by decide) (by decide) ?_
    · rw [moveLeft_held h]
      rfl
    · exact iff_of_true (back_left h hroom) (.inl rfl)
  · have hr : pressInsert (held ed) keyRight input = some (moveRight (held ed), input) := rfl
    rw [hr] at hrun
    cases hrun
    have hkey : ComesBack ed keyRight ↔
        Stray ed ∧ 1 < ed.line.len ∧ utf8IsCont (ed.line.text 1) = true := by
      simp [ComesBack, Idle, keyHome, keyLeft, keyUp, keyDown, keyRight]
    have hcol : (held ed).cursorCol < (held ed).line.len ↔ ed.cursorCol < ed.line.len := by
      rw [line_held, len_heldLine]
      exact Nat.succ_lt_succ_iff
    by_cases hinside : ed.cursorCol < ed.line.len
    · refine hstays ?_ (still_moveRight _) (by decide) (by decide) (by decide) ?_
      · rw [moveRight, if_pos (hcol.2 hinside)]
        rfl
      · rw [back_right h hplaced hroom hinside, hkey]
    · have hno : ¬ ComesBack ed keyRight := by
        intro hback
        obtain ⟨hzero, hpos, -⟩ := (hkey.1 hback).1
        omega
      by_cases hlast : (held ed).cursorLine + 1 < (held ed).lineCount
      · have hbelow : ed.cursorLine < (moveRight (held ed)).cursorLine := by
          rw [moveRight, if_neg (fun hlt => hinside (hcol.1 hlt)), if_pos hlast]
          exact Nat.lt_succ_self _
        refine iff_of_true (redraw_of_below h hview hs hmode
          (moves_of_still hsound (still_moveRight _)) hbelow (by decide) hheader) ?_
        rintro ⟨-, hup | hback⟩
        · exact absurd hup.1 (by decide)
        · exact hno hback.2
      · have hsame : moveRight (held ed) = held ed := by
          rw [moveRight, if_neg (fun hlt => hinside (hcol.1 hlt)), if_neg hlast]
        refine hstays ?_ (still_moveRight _) (by decide) (by decide) (by decide) ?_
        · rw [hsame]
          rfl
        · simp only [hsame]
          refine iff_of_false (fun hback => ?_) hno
          obtain ⟨hzero, hpos, -⟩ := (back_idle h hplaced hroom).1 hback
          omega
  · have hr : pressInsert (held ed) keyUp input = some (moveUpward (held ed), input) := rfl
    rw [hr] at hrun
    cases hrun
    have hkey : ComesBack ed keyUp ↔ Stray ed ∧ ed.cursorLine = 0 := by
      simp [ComesBack, Idle, keyHome, keyLeft, keyUp, keyDown, keyRight]
    have hmoves := moves_of_still hsound (still_moveUpward _)
    by_cases hfirst : ed.cursorLine = 0
    · have hsame : moveUpward (held ed) = keepCursorValid (held ed) := by
        rw [moveUpward, if_neg (by simp [held, hfirst])]
      have hline : (moveUpward (held ed)).cursorLine = ed.cursorLine := by
        rw [hsame, cursorLine_keepCursorValid hheld.line]
        rfl
      have hback : Back ed (settle (moveUpward (held ed))) ↔ Stray ed := by
        rw [hsame]
        exact back_kept h hplaced hroom
      simp only at hheader ⊢
      rw [redraw_eq_iff_of_stays h hview hs hmode hmoves hline (by decide) (by decide) hheader,
        hback, hkey]
      simp [hfirst]
    · have hpos : (held ed).cursorLine > 0 := Nat.pos_of_ne_zero hfirst
      have hline : (moveUpward (held ed)).cursorLine + 1 = ed.cursorLine := by
        rw [moveUpward, if_pos hpos, cursorLine_keepCursorValid]
        · simp only [held]
          omega
        · have hlt := h.line
          simp only [held]
          omega
      simp only at hheader ⊢
      rw [redraw_eq_iff_of_above h hview hs hmode hmoves hline (by decide) (by decide) hheader, hkey]
      simp [hfirst]
  · have hr : pressInsert (held ed) keyDown input = some (moveDownward (held ed), input) := rfl
    rw [hr] at hrun
    cases hrun
    have hkey : ComesBack ed keyDown ↔ Stray ed ∧ ed.cursorLine + 1 = ed.lineCount := by
      simp [ComesBack, Idle, keyHome, keyLeft, keyUp, keyDown, keyRight]
    by_cases hlast : (held ed).cursorLine + 1 < (held ed).lineCount
    · have hbelow : ed.cursorLine < (moveDownward (held ed)).cursorLine := by
        rw [moveDownward, if_pos hlast, cursorLine_keepCursorValid hlast]
        exact Nat.lt_succ_self _
      refine iff_of_true (redraw_of_below h hview hs hmode
        (moves_of_still hsound (still_moveDownward _)) hbelow (by decide) hheader) ?_
      rintro ⟨-, hup | hback⟩
      · exact absurd hup.1 (by decide)
      · have hbefore : ed.cursorLine + 1 < ed.lineCount := hlast
        exact absurd (hkey.1 hback.2).2 (Nat.ne_of_lt hbefore)
    · have hsame : moveDownward (held ed) = keepCursorValid (held ed) := by
        rw [moveDownward, if_neg hlast]
      have hend : ed.cursorLine + 1 = ed.lineCount := Nat.le_antisymm h.line (Nat.not_lt.1 hlast)
      refine hstays ?_ (still_moveDownward _) (by decide) (by decide) (by decide) ?_
      · rw [hsame, cursorLine_keepCursorValid hheld.line]
        rfl
      · simp only [hsame]
        rw [back_kept h hplaced hroom, hkey]
        exact (and_iff_left hend).symm
  · have hr : pressInsert (held ed) keyHome input = some (atCol (held ed) 0, input) := rfl
    rw [hr] at hrun
    cases hrun
    refine hstays rfl ⟨⟨rfl, rfl⟩, rfl, rfl, rfl, rfl⟩ (by decide) (by decide) (by decide) ?_
    rw [back_home h hroom]
    simp [ComesBack, Idle, keyHome, keyLeft, keyUp, keyDown, keyRight]
  · have hr : pressInsert (held ed) keyEnd input =
        some (atCol (held ed) (held ed).line.len, input) := rfl
    rw [hr] at hrun
    cases hrun
    refine hstays rfl ⟨⟨rfl, rfl⟩, rfl, rfl, rfl, rfl⟩ (by decide) (by decide) (by decide) ?_
    refine iff_of_false (not_back_end h hroom) ?_
    simp [ComesBack, Idle, keyHome, keyLeft, keyUp, keyDown, keyRight, keyEnd]
  · have hvalues := hidle
    simp only [Idle, keyEsc, keyEnter, keyBackspace] at hvalues
    have hr : pressInsert (held ed) key input = some (held ed, input) := by
      have hj : key ≠ 106 := by omega
      have hmoves : ¬ key = 1003 ∧ ¬ key = 1004 ∧ ¬ key = 1001 ∧ ¬ key = 1002 ∧ ¬ key = 1005 ∧
          ¬ key = 1006 := by omega
      have hedits : ¬ (key = 13 ∨ key = 10) ∧ ¬ (key = 8 ∨ key = 127) ∧ ¬ key = 9 ∧
          ¬ (key ≥ 32 ∧ key ≤ 255) := by omega
      simp only [pressInsert, keyLeft, keyRight, keyUp, keyDown, keyHome, keyEnd, keyEnter,
        keyBackspace, keyDel, hj, hmoves, hedits, if_false]
    rw [hr] at hrun
    cases hrun
    refine hstays rfl ⟨⟨rfl, rfl⟩, rfl, rfl, rfl, rfl⟩ ?_ ?_ ?_ ?_
    · simp only [keyUp]
      omega
    · simp only [keyEnter]
      omega
    · rw [← Bool.not_eq_true, editKey_insert]
      omega
    · rw [back_idle h hplaced hroom]
      have hmoves : key ≠ keyLeft ∧ key ≠ keyHome ∧ key ≠ keyUp ∧ key ≠ keyDown ∧
          key ≠ keyRight := by
        simp only [keyLeft, keyHome, keyUp, keyDown, keyRight]
        omega
      simp [ComesBack, hmoves, hidle]

end Press

theorem redraw_eq_iff_insert {ch : UInt8} {input : List UInt8} {r : VimEditor × List UInt8}
    (h : Sound ed) (hplaced : Placed ed) (hview : Visible ed) (hs : render ed s = s)
    (hmode : ed.mode = .insert) (hsound : Sound r.1)
    (hrun : handleInsertMode ed (readKey ch) input = some r)
    (hheader : headerDirty ed (settle r.1) = false → headerText ed = headerText (settle r.1)) :
    redraw (readKey ch) ed (settle r.1) s = render (settle r.1) s ↔ ¬ Stale ed (readKey ch) := by
  have hlast := (settle_still hsound).1
  rcases handleInsertMode_cases hrun with ⟨hlines, -, hkey⟩ | ⟨hesc, -, hpress⟩
  · -- the mode is left, and a held `j` with it
    refine iff_of_true (redraw_of_lines hs hheader (hlast.trans hlines)) ?_
    rcases hkey with hkey | ⟨-, hj⟩
    · exact not_stale_of_key hmode (.inl hkey)
    · exact not_stale_of_key hmode (.inr (.inr (.inr (by rw [hj]; decide))))
  have hpending := edits_insertPending h
  have hkind := (pressInsert_effect hpress).kind hpending.sound
  cases hedit : editKey .insert (readKey ch) with
  | true =>
    refine iff_of_true (redraw_of_edit hs hheader h.line hview (by rw [hmode]; exact hedit) ?_)
      (not_stale_of_key hmode (.inr (.inr (.inr hedit))))
    intro hcount
    have hinside := (inLine_insertPending ed).trans
      (hkind.1 hedit (by rw [(inLine_insertPending ed).count, ← hcount, (settle_still hsound).2.1]))
    have hround := hinside.settle hsound
    exact ⟨hround.cursorLine, hround.lines⟩
  | false =>
    by_cases henter : readKey ch = keyEnter ∨ readKey ch = 10
    · refine iff_of_true (redraw_of_full ?_) (not_stale_of_key hmode ?_)
      · rcases henter with henter | henter
        · simp [fullDirty, henter]
        · simp [fullDirty, henter]
      · exact .inr (henter.elim .inl fun hnl => .inr (.inl hnl))
    · have hmoves : readKey ch = keyLeft ∨ readKey ch = keyRight ∨ readKey ch = keyUp ∨
          readKey ch = keyDown ∨ readKey ch = keyHome ∨ readKey ch = keyEnd ∨ Idle (readKey ch) := by
        rcases readKey_insert ch with hkey | hkey | hkey | hkey | hkey
        · exact absurd hkey hesc
        · exact absurd (.inl hkey) henter
        · exact absurd (.inr hkey) henter
        · rw [hedit] at hkey
          cases hkey
        · exact hkey
      have hlines := hkind.2 hedit (fun hkey => henter (.inl hkey)) (fun hkey => henter (.inr hkey))
      rw [insertPending_eq] at hpress hlines
      by_cases hheld : ed.pendingJj = true
      · rw [if_neg (by simp [hheld])] at hpress hlines
        by_cases hroom : ed.line.len + 1 < maxLineLen
        · rw [if_neg (Nat.not_le_of_lt hroom)] at hpress
          exact redraw_eq_iff_of_held h hplaced hroom hview hs hmode hheld hsound hpress hheader hmoves
        · rw [if_pos (Nat.le_of_not_lt hroom)] at hlines
          refine iff_of_true (redraw_of_lines hs hheader (hlast.trans hlines)) ?_
          rw [stale_insert hmode]
          exact fun hstale => hroom hstale.1.2.1
      · rw [if_pos (by simpa using hheld)] at hlines
        refine iff_of_true (redraw_of_lines hs hheader (hlast.trans hlines)) ?_
        rw [stale_insert hmode]
        exact fun hstale => hheld hstale.1.1

/-! ## The other modes -/

theorem stale_normal (hmode : ed.mode = .normal) : Stale ed key ↔ ed.pendingDd = true ∧ key = 100 ∧
    ed.lineCount = 1 ∧ ed.modified = true ∧ ed.cursorCol = 0 ∧
    lineText 0 (ed.lines 0) ≠ lineText 0 ((ed.lines 0).cutAt 0) := by
  rw [Stale, hmode]
  simp

theorem redraw_eq_iff_of_cleared (h : Sound ed) (hview : Visible ed) (hs : render ed s = s)
    (hmode : ed.mode = .normal) (hpending : ed.pendingDd = true) (hone : ed.lineCount = 1)
    (hsound : Sound ed') (hstill : Still (deleteLine ed) ed')
    (hcursor : ed'.cursorLine = (deleteLine ed).cursorLine ∧
      ed'.cursorCol = (deleteLine ed).cursorCol)
    (hheader : headerDirty ed (settle ed') = false → headerText ed = headerText (settle ed')) :
    redraw 100 ed (settle ed') s = render (settle ed') s ↔ ¬ Stale ed 100 := by
  have hzero : ed.cursorLine = 0 := by
    have hline := h.line
    omega
  have htop : ed.scrollTop = 0 := by
    have hlow := hview.1
    omega
  have hdelete : deleteLine ed = { ed with
      lines := update ed.lines 0 ((ed.lines 0).cutAt 0)
      cursorLine := 0, cursorCol := 0, modified := true } := by
    rw [deleteLine, if_neg (by omega), if_pos hone]
  obtain ⟨hlines, hcount, hmodified, -, -⟩ := settle_still hsound
  have hcursor0 : ed'.cursorLine = 0 ∧ ed'.cursorCol = 0 := by
    rw [hdelete] at hcursor
    exact hcursor
  have hfull : fullDirty 100 ed (settle ed') = false := by
    refine fullDirty_of_line hsound ?_ ?_ ?_ (by decide)
    · rw [hstill.count, hdelete]
    · rw [hstill.scrollTop, hdelete]
    · rw [Visible, hcursor0.1, hstill.scrollTop, hdelete]
      simp only [htop]
      decide
  have hupdate : ed'.lines = update ed.lines 0 ((ed.lines 0).cutAt 0) := by
    rw [hstill.lines, hdelete]
  have hrow : (settle ed').lines 0 = (ed.lines 0).cutAt 0 := by
    rw [hlines, hupdate, update_self]
  have hothers : ∀ i, i ≠ ed.cursorLine → (settle ed').lines i = ed.lines i := by
    intro i hi
    rw [hzero] at hi
    rw [hlines, hupdate, update_of_ne hi]
  have hback : (settle ed').cursorLine = 0 ∧ (settle ed').cursorCol = 0 := by
    rw [settle_line hsound, settle_col hsound, hcursor0.2]
    exact ⟨hcursor0.1, rfl⟩
  have hnew : (settle ed').modified = true := by
    rw [hmodified, hstill.modified, hdelete]
  rw [redraw_eq_iff_line hs hheader hfull h.line hview hothers, stale_normal hmode, VimEditor.line,
    hzero, hrow]
  simp only [lineDirty, hmode, editKey, hback, hnew, hzero, hpending, hone]
  by_cases hcol : ed.cursorCol = 0
  · cases hold : ed.modified with
    | true => simp [hcol]
    | false => simp [hcol]
  · simp [hcol]

theorem redraw_eq_iff_normal (h : Sound ed) (hview : Visible ed) (hs : render ed s = s)
    (hmode : ed.mode = .normal) (hsound : Sound (handleNormalMode ed key))
    (hheader : headerDirty ed (settle (handleNormalMode ed key)) = false →
      headerText ed = headerText (settle (handleNormalMode ed key))) :
    redraw key ed (settle (handleNormalMode ed key)) s =
      render (settle (handleNormalMode ed key)) s ↔ ¬ Stale ed key := by
  obtain ⟨hlines, hcount, -⟩ := settle_still hsound
  have hfresh : (handleNormalMode ed key).lines = ed.lines → (ed.pendingDd = true → key ≠ 100) →
      (redraw key ed (settle (handleNormalMode ed key)) s =
        render (settle (handleNormalMode ed key)) s ↔ ¬ Stale ed key) := by
    intro hsame hno
    refine iff_of_true (redraw_of_lines hs hheader (hlines.trans hsame)) ?_
    rw [stale_normal hmode]
    exact fun hstale => hno hstale.1 hstale.2.1
  by_cases hdd : ed.pendingDd = true
  · by_cases hkey : key = 100
    · subst hkey
      have hrun : handleNormalMode ed 100 =
          { setStatus (deleteLine ed) (lit "line deleted") with pendingDd := false } := by
        rw [handleNormalMode, if_pos hdd]
        rfl
      by_cases hone : ed.lineCount = 1
      · refine redraw_eq_iff_of_cleared h hview hs hmode hdd hone hsound ?_ ?_ hheader
        · rw [hrun]
          exact ⟨⟨rfl, rfl⟩, rfl, rfl, rfl, rfl⟩
        · rw [hrun]
          exact ⟨rfl, rfl⟩
      · refine iff_of_true (redraw_of_full ?_) ?_
        · have hfewer : (deleteLine ed).lineCount = ed.lineCount - 1 := by
            rw [deleteLine, if_neg (Nat.ne_of_gt h.count_pos), if_neg hone]
            simp only [(still_keepCursorValid _).count]
            split
            · rfl
            · rfl
          have hpos := h.count_pos
          have hless : ed.lineCount ≠ (settle (handleNormalMode ed 100)).lineCount := by
            rw [hcount, hrun]
            simp only [setStatus, hfewer]
            omega
          simp [fullDirty, hless]
        · rw [stale_normal hmode]
          exact fun hstale => hone hstale.2.2.1
    · refine hfresh ?_ fun _ => hkey
      rw [handleNormalMode, if_pos hdd, if_neg hkey]
  · have hno : ed.pendingDd = true → key ≠ 100 := fun hpending => absurd hpending hdd
    by_cases hgg : ed.pendingGg = true
    · refine hfresh ?_ hno
      rw [handleNormalMode, if_neg hdd, if_pos hgg]
      simp only
      split
      · rfl
      · rfl
    · have hrun : handleNormalMode ed key = pressNormal ed key := by
        rw [handleNormalMode, if_neg hdd, if_neg hgg]
      have heffect := pressNormal_effect h key
      rw [hrun] at hlines hcount hsound hheader hfresh ⊢
      generalize pressNormal ed key = ed' at *
      cases heffect with
      | moved hstill => exact hfresh hstill.lines hno
      | opened hkey =>
        by_cases hroom : ed.lineCount ≥ maxLines
        · refine hfresh ?_ hno
          rw [openBelowInsert, insertLineAfter_eq h, if_pos hroom]
          rfl
        · refine iff_of_true (redraw_of_full ?_) ?_
          · have hopen : (openBelowInsert ed).lineCount = ed.lineCount + 1 := by
              rw [openBelowInsert, insertLineAfter_eq h, if_neg hroom]
              rfl
            have hmore : ed.lineCount ≠ (settle (setStatus
                { openBelowInsert ed with pendingJj := false } (lit "-- INSERT --"))).lineCount := by
              rw [hcount]
              simp only [setStatus, hopen]
              omega
            simp [fullDirty, hmore]
          · rw [stale_normal hmode]
            exact fun hstale => hdd hstale.1
      | deleted hkey =>
        refine iff_of_true (redraw_of_edit hs hheader h.line hview ?_ fun _ => ?_) ?_
        · rw [hmode, hkey]
          rfl
        · have hround := (inLine_deleteChar ed).settle hsound
          exact ⟨hround.cursorLine, hround.lines⟩
        · rw [stale_normal hmode]
          exact fun hstale => hdd hstale.1

/-- What holds in front of every round. -/
structure Ready (ed : VimEditor) : Prop where
  sound : Sound ed
  visible : ed.quitRequested = false → Visible ed
  placed : ed.quitRequested = false → Placed ed

theorem visible_settle (h : Sound ed) : Visible (settle ed) := by
  have hrows : 0 < viewRows := by decide
  rw [Visible, settle_line h, settle_scroll h]
  split
  · omega
  · split
    · omega
    · omega

theorem placed_settle (h : Sound ed) : Placed (settle ed) := by
  obtain ⟨top, htop⟩ := settle_frame h
  rw [htop]
  intro hpos hlt
  have hidem := backToChar_idem ed.line.text ed.line.len ed.cursorCol
  change 0 < backToChar ed.line.text ed.line.len ed.cursorCol at hpos
  change backToChar ed.line.text ed.line.len ed.cursorCol < ed.line.len at hlt
  change utf8IsCont (ed.line.text (backToChar ed.line.text ed.line.len ed.cursorCol)) = false
  generalize backToChar ed.line.text ed.line.len ed.cursorCol = col at *
  cases hcont : utf8IsCont (ed.line.text col) with
  | false => rfl
  | true =>
    obtain ⟨c, rfl⟩ := Nat.exists_eq_succ_of_ne_zero (Nat.ne_of_gt hpos)
    rw [backToChar_of_cont hlt hcont] at hidem
    have hle := backToChar_le ed.line.text ed.line.len c
    omega

theorem sound_settle (h : Sound ed) : Sound (settle ed) := by
  have hkept : Edits ed (keepCursorValid ed) := h.toShaped.kept ⟨rfl, rfl⟩
  exact (edits_ensureCursorVisible hkept.sound).sound

theorem ready_settle (h : Sound ed) : Ready (settle ed) :=
  ⟨sound_settle h, fun _ => visible_settle h, fun _ => placed_settle h⟩

theorem ready_of_reachable {cwd arg : List UInt8} {answer : LoadAnswer}
    (hrun : Reachable (fun ed => vimOpen cwd arg answer = some ed)
      (fun ed ed' => ∃ e, step cwd ed e = some ed') ed) : Ready ed := by
  refine hrun.invariant (I := Ready) ?_ ?_
  · intro ed hopen
    obtain ⟨path, -, hpath⟩ := bind_eq_some_iff.1 hopen
    obtain ⟨ed₁, hload, rfl⟩ := map_eq_some_iff.1 hpath
    refine ready_settle ?_
    split at hload
    · cases hload
      exact sound_init
    · exact (sound_loadFile hload).1
  · intro ed ed' hready hstep
    obtain ⟨e, hstep⟩ := hstep
    rw [step] at hstep
    split at hstep
    · cases hstep
    obtain ⟨r, hr, rfl⟩ := map_eq_some_iff.1 hstep
    have hsound := (edits_handleKey hready.sound hr).sound
    split
    · next hquit =>
      refine ⟨hsound, fun hno => ?_, fun hno => ?_⟩
      · rw [hquit] at hno
        cases hno
      · rw [hquit] at hno
        cases hno
    · exact ready_settle hsound

/-- In every state that is reached, what the loop draws behind a key makes the screen the one of a
full redraw, but for the keys that leave a row as it was. -/
theorem redraw_eq_render_iff {cwd arg : List UInt8} {answer : LoadAnswer} {e : KeyEvent}
    (hrun : Reachable (fun ed => vimOpen cwd arg answer = some ed)
      (fun ed ed' => ∃ e, step cwd ed e = some ed') ed)
    (hstep : step cwd ed e = some ed') (hquit : ed'.quitRequested = false)
    (hs : render ed s = s) :
    redraw (readKey e.ch) ed ed' s = render ed' s ↔ ¬ Stale ed (readKey e.ch) := by
  have hready := ready_of_reachable hrun
  have h := hready.sound
  rw [step] at hstep
  by_cases hend : ed.quitRequested = true
  · rw [if_pos hend] at hstep
    cases hstep
  rw [if_neg hend] at hstep
  have hview := hready.visible (by simpa using hend)
  have hplaced := hready.placed (by simpa using hend)
  obtain ⟨r, hr, hnext⟩ := map_eq_some_iff.1 hstep
  have hsound := (edits_handleKey h hr).sound
  have hsettle : ed' = settle r.1 := by
    split at hnext
    · next hno =>
      rw [hnext, hquit] at hno
      cases hno
    · exact hnext.symm
  subst hsettle
  have hheader := headerText_of_clean h hsound hr
  rw [handleKey] at hr
  cases hmode : ed.mode with
  | insert =>
    rw [hmode] at hr
    exact redraw_eq_iff_insert h hplaced hview hs hmode hsound hr hheader
  | normal =>
    rw [hmode] at hr
    cases hr
    exact redraw_eq_iff_normal h hview hs hmode hsound hheader
  | command =>
    rw [hmode] at hr
    have hsame := sameDocument_handleCommandMode hr
    refine iff_of_true (redraw_of_lines hs hheader ?_) ?_
    · rw [(settle_still hsound).1]
      exact hsame.lines
    · rw [Stale, hmode]
      simp

theorem render_render (ed : VimEditor) (s : Screen) : render ed (render ed s) = render ed s := by
  ext1
  · funext q
    rw [row_render, row_render]
    cases picture ed q with
    | none => rfl
    | some text => rfl
  · rw [cursor_render, cursor_render]

/-- The screen in front of the first drawing. -/
def blank : Screen := ⟨fun _ => [], none⟩

/-- A byte that is read, with nothing behind it. -/
def typed (ch : UInt8) : KeyEvent := ⟨ch, [], savesAll⟩

/-- The letter a is typed in insert mode. -/
theorem redraw_eq_render_a : ∃ ed ed' : VimEditor, ed'.line.bytes = [97] ∧
    redraw 97 ed ed' (render ed blank) = render ed' (render ed blank) :=
  ⟨_, _, by decide, (@redraw_eq_render_iff _ _ (render _ blank) [47] [] .notFound (typed 97)
    (.next (.start rfl) ⟨typed 105, rfl⟩) rfl rfl (render_render _ _)).2
    (by rintro (⟨-, hshows, -⟩ | ⟨hmode, -⟩)
        · cases hshows.1
        · cases hmode)⟩

/-- In insert mode an a and a j are typed; the key to the left puts the j in, but does not show
it. -/
theorem redraw_keeps_row : ¬ ∀ cwd arg answer ed ed' e s,
    Reachable (fun ed => vimOpen cwd arg answer = some ed)
      (fun ed ed' => ∃ e, step cwd ed e = some ed') ed →
    step cwd ed e = some ed' → ed'.quitRequested = false → render ed s = s →
    redraw (readKey e.ch) ed ed' s = render ed' s := by
  intro h
  have hdrawn := h [47] [] .notFound _ _ (typed 1) _ (.next (.next (.next (.start rfl)
    ⟨typed 105, rfl⟩) ⟨typed 97, rfl⟩) ⟨typed 106, rfl⟩) rfl rfl (render_render _ blank)
  have hrow := congrArg (fun s => (s.row rowTextBase)[6]?) hdrawn
  exact absurd hrow (by decide +kernel)

end Cleonos.Vim
