import Cleonos.Lib.Run
import Cleonos.Vim.Model

/-!
# The document

The lines of the editor in every state of a run, whatever is loaded and typed: their number,
their lengths and the cursor stay in order, and no control byte gets in by typing, as long as
none stands behind the first byte of a typed character.
-/

namespace Cleonos.Vim

open List Option
open Function (update update_of_ne update_self)
open Buffer

/-! ## Lines -/

/-- A line ends in a zero byte inside its buffer. -/
structure LineOk (line : VimLine) : Prop where
  len : line.len < maxLineLen
  term : line.text line.len = 0

section Lines

variable {line : VimLine} {col : ℕ}

@[simp] theorem length_bytes (line : VimLine) : line.bytes.length = line.len := length_slice _ _ _

theorem take_bytes (h : col ≤ line.len) : line.bytes.take col = slice line.text 0 col := by
  rw [VimLine.bytes, slice_take, min_eq_left h]

theorem drop_bytes (line : VimLine) (col : ℕ) :
    line.bytes.drop col = slice line.text col (line.len - col) := by
  rw [VimLine.bytes, slice_drop, Nat.zero_add]

theorem bytes_insertAt (h : col ≤ line.len) (bytes : List UInt8) :
    (line.insertAt col bytes).bytes = line.bytes.take col ++ (bytes ++ line.bytes.drop col) := by
  have hlen : line.len + bytes.length = col + bytes.length + (line.len - col) := by omega
  rw [take_bytes h, drop_bytes, VimLine.bytes, VimLine.insertAt]
  simp only
  rw [slice_update_of_le (by omega), hlen, slice_add, slice_store, Nat.zero_add,
    slice_congr (g := if col < line.len then
      store line.text (col + bytes.length) (slice line.text col (line.len - col)) else line.text)
      fun j hj _ => store_of_ge hj, append_assoc]
  by_cases hlt : col < line.len
  · rw [if_pos hlt, slice_congr fun j _ hj => store_of_lt (by omega)]
    congr 2
    simpa using slice_store_at line.text (col + bytes.length) (slice line.text col (line.len - col))
  · obtain rfl : col = line.len := by omega
    rw [if_neg hlt, Nat.sub_self, slice_zero, slice_zero]

theorem lineOk_insertAt {bytes : List UInt8} (h : line.len + bytes.length < maxLineLen) :
    LineOk (line.insertAt col bytes) := ⟨h, update_self _ _ _⟩

theorem bytes_cutAt (h : col ≤ line.len) : (line.cutAt col).bytes = line.bytes.take col := by
  rw [take_bytes h, VimLine.bytes, VimLine.cutAt]
  simp only
  rw [slice_update_of_le (by omega)]

theorem lineOk_cutAt (hline : LineOk line) (h : col ≤ line.len) : LineOk (line.cutAt col) :=
  ⟨lt_of_le_of_lt h hline.len, update_self _ _ _⟩

theorem bytes_tailFrom (line : VimLine) (col : ℕ) :
    (line.tailFrom col).bytes = line.bytes.drop col := by
  rw [drop_bytes, VimLine.bytes, VimLine.tailFrom]
  simp only
  rw [slice_update_of_le (by omega)]
  simpa using slice_store_self (fun _ => (0 : UInt8)) (slice line.text col (line.len - col))

theorem lineOk_tailFrom (hline : LineOk line) (col : ℕ) : LineOk (line.tailFrom col) :=
  ⟨lt_of_le_of_lt (Nat.sub_le _ _) hline.len, update_self _ _ _⟩

theorem bytes_delete {start src : ℕ} (hle : start ≤ src) (h : src ≤ line.len) :
    (line.delete start src (src - start)).bytes =
      line.bytes.take start ++ line.bytes.drop src := by
  have hlen : line.len - (src - start) = start + (line.len - src) := by omega
  rw [take_bytes (hle.trans h), drop_bytes, VimLine.bytes, VimLine.delete]
  simp only
  rw [slice_update_of_le (by omega), hlen, slice_add, Nat.zero_add]
  by_cases hlt : src < line.len
  · rw [if_pos hlt, slice_congr fun j _ hj => store_of_lt (by omega)]
    congr 1
    simpa using slice_store_at line.text start (slice line.text src (line.len - src))
  · obtain rfl : src = line.len := by omega
    rw [if_neg hlt, Nat.sub_self, slice_zero, slice_zero]

theorem lineOk_delete (hline : LineOk line) (start src deleteLen : ℕ) :
    LineOk (line.delete start src deleteLen) :=
  ⟨lt_of_le_of_lt (Nat.sub_le _ _) hline.len, update_self _ _ _⟩

theorem bytes_join (line other : VimLine) : (line.join other).bytes = line.bytes ++ other.bytes := by
  have hstore := slice_store line.text line.len (slice other.text 0 other.len)
  rw [length_slice] at hstore
  rw [VimLine.bytes, VimLine.join]
  simp only
  rw [slice_update_of_le (by omega), hstore]
  rfl

theorem lineOk_join {other : VimLine} (h : line.len + other.len < maxLineLen) :
    LineOk (line.join other) := ⟨h, update_self _ _ _⟩

theorem lineOk_zeroLine : LineOk zeroLine := ⟨by decide, rfl⟩

end Lines

/-- The control bytes: below the space, and DEL. -/
def isControl (c : UInt8) : Bool := c < 0x20 || c == 0x7F

variable {cwd input : List UInt8} {key : ℕ} {ed'' : VimEditor} {ch c : UInt8}
  {r : VimEditor × List UInt8}

theorem isControl_ofNat (hlow : 32 ≤ key) (hhigh : key < 0x80) (hdel : key ≠ keyDel) :
    isControl (UInt8.ofNat key) = false := by
  have hnat : (UInt8.ofNat key).toNat = key := by
    rw [UInt8.toNat_ofNat']
    omega
  have hlt : ¬ UInt8.ofNat key < 0x20 := by
    rw [UInt8.lt_iff_toNat_lt, hnat]
    exact not_lt.2 hlow
  have hne : UInt8.ofNat key ≠ 0x7F := by
    intro heq
    rw [heq] at hnat
    exact hdel hnat.symm
  simp [isControl, hlt, hne]

theorem isControl_of_high (hhigh : c ≥ 0x80) : isControl c = false := by
  have hlow := UInt8.le_iff_toNat_le.1 hhigh
  simp only [isControl, Bool.or_eq_false_iff, decide_eq_false_iff_not, beq_eq_false_iff_ne,
    UInt8.lt_iff_toNat_lt, ne_eq, ← UInt8.toNat_inj]
  exact ⟨by simp at *; omega, by simp at *; omega⟩

theorem isControl_of_isCont (hcont : utf8IsCont c = true) : isControl c = false := by
  rw [utf8IsCont, Bool.and_eq_true, decide_eq_true_eq] at hcont
  exact isControl_of_high hcont.1

/-- The control bytes of `n` lines from line `i` on. -/
def controlsIn (lines : ℕ → VimLine) (i n : ℕ) : List UInt8 :=
  ((slice lines i n).flatMap VimLine.bytes).filter isControl

/-- The control bytes of the document, in order. -/
def controls (ed : VimEditor) : List UInt8 := controlsIn ed.lines 0 ed.lineCount

section Controls

variable {lines lines' : ℕ → VimLine} {i k n : ℕ}

theorem controlsIn_add (lines : ℕ → VimLine) (i n k : ℕ) :
    controlsIn lines i (n + k) = controlsIn lines i n ++ controlsIn lines (i + n) k := by
  simp only [controlsIn, slice_add, flatMap_append, filter_append]

theorem controlsIn_one (lines : ℕ → VimLine) (i : ℕ) :
    controlsIn lines i 1 = (lines i).bytes.filter isControl := by
  simp [controlsIn]

theorem controlsIn_shift (h : ∀ j < n, lines' (i + j) = lines (k + j)) :
    controlsIn lines' i n = controlsIn lines k n := by
  rw [controlsIn, slice_shift h]
  rfl

theorem controlsIn_split (lines : ℕ → VimLine) (h : i < n) :
    controlsIn lines 0 n = controlsIn lines 0 i ++
      ((lines i).bytes.filter isControl ++ controlsIn lines (i + 1) (n - (i + 1))) := by
  have hn : n = i + (1 + (n - (i + 1))) := by omega
  conv_lhs => rw [hn, controlsIn_add, controlsIn_add, controlsIn_one, Nat.zero_add]

theorem controlsIn_update (h : i < n) (line : VimLine) :
    controlsIn (update lines i line) 0 n = controlsIn lines 0 i ++
      (line.bytes.filter isControl ++ controlsIn lines (i + 1) (n - (i + 1))) := by
  rw [controlsIn_split _ h, update_self]
  congr 1
  · exact controlsIn_shift fun j hj => update_of_ne (by omega) _ _
  · congr 1
    exact controlsIn_shift fun j hj => update_of_ne (by omega) _ _

theorem controlsIn_update_sublist (h : i < n) {line : VimLine}
    (hline : (line.bytes.filter isControl).Sublist ((lines i).bytes.filter isControl)) :
    (controlsIn (update lines i line) 0 n).Sublist (controlsIn lines 0 n) := by
  rw [controlsIn_update h, controlsIn_split lines h]
  exact (List.Sublist.refl _).append (hline.append (List.Sublist.refl _))

variable {j : ℕ}

theorem removeLine_of_lt (hj : j < i) (h : i < n) : removeLine lines n i j = lines j := by
  rw [removeLine, update_of_ne (by omega)]
  exact moveUp_of_lt hj

theorem removeLine_of_ge (hj : i ≤ j) (h : j + 1 < n) : removeLine lines n i j = lines (j + 1) := by
  obtain ⟨d, rfl⟩ := Nat.exists_eq_add_of_le hj
  rw [removeLine, update_of_ne (by omega), moveUp_of_le (Nat.le_succ _) (by omega)]
  congr 1
  omega

theorem controlsIn_removeLine (h : i < n) : controlsIn (removeLine lines n i) 0 (n - 1) =
    controlsIn lines 0 i ++ controlsIn lines (i + 1) (n - (i + 1)) := by
  have hn : n - 1 = i + (n - (i + 1)) := by omega
  rw [hn, controlsIn_add, Nat.zero_add]
  congr 1
  · exact controlsIn_shift fun j hj => removeLine_of_lt (by omega) h
  · refine controlsIn_shift fun j hj => ?_
    rw [removeLine_of_ge (by omega) (by omega)]
    congr 1
    omega

theorem mem_removeLine (h : i < n) (j : ℕ) :
    removeLine lines n i j = zeroLine ∨ ∃ k, removeLine lines n i j = lines k := by
  by_cases hlast : j = n - 1
  · rw [removeLine, hlast, update_self]
    exact .inl rfl
  right
  rcases Nat.lt_or_ge j i with hj | hj
  · exact ⟨j, removeLine_of_lt hj h⟩
  rcases Nat.lt_or_ge (j + 1) n with hj' | hj'
  · exact ⟨j + 1, removeLine_of_ge hj hj'⟩
  · refine ⟨j, ?_⟩
    rw [removeLine, update_of_ne hlast]
    exact moveUp_of_ge (by omega)

theorem openLine_of_le (hj : j ≤ i) : openLine lines n i j = lines j := by
  rw [openLine, update_of_ne (by omega), moveDown_apply (by omega), if_neg (by omega)]

theorem openLine_self (lines : ℕ → VimLine) (n i : ℕ) : openLine lines n i (i + 1) = zeroLine :=
  update_self _ _ _

theorem openLine_of_gt (hj : i < j) (h : j < n) : openLine lines n i (j + 1) = lines j := by
  rw [openLine, update_of_ne (by omega), moveDown_apply (by omega), if_pos (by omega)]
  congr 1
  omega

theorem mem_openLine (lines : ℕ → VimLine) (n i j : ℕ) :
    openLine lines n i j = zeroLine ∨ ∃ k, openLine lines n i j = lines k := by
  by_cases hj : j = i + 1
  · rw [hj]
    exact .inl (openLine_self lines n i)
  · right
    rw [openLine, update_of_ne hj, moveDown_apply (by omega)]
    split
    · exact ⟨_, rfl⟩
    · exact ⟨_, rfl⟩

theorem controlsIn_openLine (h : i < n) :
    controlsIn (openLine lines n i) 0 (n + 1) = controlsIn lines 0 n := by
  have hzero : zeroLine.bytes = [] := rfl
  have hsame : controlsIn (openLine lines n i) (i + 2) (n - (i + 1)) =
      controlsIn lines (i + 1) (n - (i + 1)) := by
    refine controlsIn_shift fun j hj => ?_
    have hcell : i + 2 + j = i + 1 + j + 1 := by omega
    rw [hcell, openLine_of_gt (by omega) (by omega)]
  have hlen : n + 1 - (i + 1 + 1) = n - (i + 1) := by omega
  have hn : n = i + 1 + (n - (i + 1)) := by omega
  rw [controlsIn_split _ (show i + 1 < n + 1 by omega), openLine_self, hzero, hlen, hsame,
    controlsIn_shift (k := 0) fun j hj => openLine_of_le (by omega)]
  conv_rhs => rw [hn, controlsIn_add, Nat.zero_add]
  rfl

end Controls

/-- The number of lines, and every line, are in order. -/
structure Shaped (ed : VimEditor) : Prop where
  count_pos : 0 < ed.lineCount
  count_le : ed.lineCount ≤ maxLines
  lines : ∀ i, LineOk (ed.lines i)

/-- So is the cursor. -/
structure Sound (ed : VimEditor) : Prop extends Shaped ed where
  line : ed.cursorLine < ed.lineCount
  col : ed.cursorCol ≤ ed.line.len

/-- A document that is in order, without new control bytes. -/
structure Edits (ed ed' : VimEditor) : Prop where
  sound : Sound ed'
  controls : (controls ed').Sublist (controls ed)

variable {ed ed' : VimEditor}

theorem Sound.edits (h : Sound ed) : Edits ed ed := ⟨h, List.Sublist.refl _⟩

theorem Edits.trans (h : Edits ed ed') (h' : Edits ed' ed'') : Edits ed ed'' :=
  ⟨h'.sound, h'.controls.trans h.controls⟩

/-- A document that is in order, without new control bytes if `typed` holds. -/
structure EditsIf (typed : Prop) (ed ed' : VimEditor) : Prop where
  sound : Sound ed'
  controls : typed → (controls ed').Sublist (controls ed)

section EditsIf

variable {typed typed' : Prop}

theorem Edits.editsIf (h : Edits ed ed') : EditsIf typed ed ed' := ⟨h.sound, fun _ => h.controls⟩

theorem EditsIf.edits (h : EditsIf typed ed ed') (htyped : typed) : Edits ed ed' :=
  ⟨h.sound, h.controls htyped⟩

theorem EditsIf.mono (h : EditsIf typed ed ed') (himp : typed' → typed) : EditsIf typed' ed ed' :=
  ⟨h.sound, fun htyped => h.controls (himp htyped)⟩

theorem EditsIf.trans {ed'' : VimEditor} (h : EditsIf typed ed ed') (h' : EditsIf typed ed' ed'') :
    EditsIf typed ed ed'' :=
  ⟨h'.sound, fun htyped => (h'.controls htyped).trans (h.controls htyped)⟩

end EditsIf

/-- The lines are as before. -/
structure SameLines (ed ed' : VimEditor) : Prop where
  lines : ed'.lines = ed.lines
  count : ed'.lineCount = ed.lineCount

theorem SameLines.shaped (hsame : SameLines ed ed') (h : Shaped ed) : Shaped ed' := by
  obtain ⟨hpos, hle, hlines⟩ := h
  rw [← hsame.count] at hpos hle
  rw [← hsame.lines] at hlines
  exact ⟨hpos, hle, hlines⟩

theorem SameLines.controls_eq (hsame : SameLines ed ed') : controls ed' = controls ed := by
  rw [controls, hsame.lines, hsame.count, controls]

theorem Sound.moved (h : Sound ed) (hsame : SameLines ed ed') (hline : ed'.cursorLine < ed.lineCount)
    (hcol : ed'.cursorCol ≤ (ed.lines ed'.cursorLine).len) : Edits ed ed' := by
  refine ⟨⟨hsame.shaped h.toShaped, ?_, ?_⟩, ?_⟩
  · rw [hsame.count]
    exact hline
  · rw [VimEditor.line, hsame.lines]
    exact hcol
  · rw [hsame.controls_eq]

theorem Sound.untouched (h : Sound ed) (hsame : SameLines ed ed')
    (hline : ed'.cursorLine = ed.cursorLine) (hcol : ed'.cursorCol = ed.cursorCol) :
    Edits ed ed' := by
  refine h.moved hsame ?_ ?_
  · rw [hline]
    exact h.line
  · rw [hline, hcol]
    exact h.col

/-- Only the cursor, the mode and what is pending or shown may change. -/
structure Still (ed ed' : VimEditor) : Prop extends SameLines ed ed' where
  scrollTop : ed'.scrollTop = ed.scrollTop
  modified : ed'.modified = ed.modified
  filePath : ed'.filePath = ed.filePath
  quit : ed'.quitRequested = ed.quitRequested

theorem Still.trans (h : Still ed ed') (h' : Still ed' ed'') : Still ed ed'' :=
  ⟨⟨h'.lines.trans h.lines, h'.count.trans h.count⟩, h'.scrollTop.trans h.scrollTop,
    h'.modified.trans h.modified, h'.filePath.trans h.filePath, h'.quit.trans h.quit⟩

theorem backOverConts_le (text : ℕ → UInt8) (pos : ℕ) : backOverConts text pos ≤ pos := by
  induction pos with
  | zero => exact le_rfl
  | succ pos ih =>
    rw [backOverConts]
    split
    · exact ih.trans (Nat.le_succ _)
    · exact le_rfl

theorem utf8PrevBoundary_lt {text : ℕ → UInt8} {len pos : ℕ} (h : 0 < pos) :
    utf8PrevBoundary text len pos < pos := by
  have hle := backOverConts_le text (min pos len - 1)
  rw [utf8PrevBoundary, if_neg (by omega)]
  omega

theorem utf8NextBoundary_le (text : ℕ → UInt8) (len pos : ℕ) :
    utf8NextBoundary text len pos ≤ len := by
  rw [utf8NextBoundary]
  split
  · exact le_rfl
  · simp only
    generalize (if utf8CharLenAt text len pos = 0 then 1 else utf8CharLenAt text len pos) = adv
    split <;> omega

theorem lt_utf8NextBoundary {text : ℕ → UInt8} {len pos : ℕ} (h : pos < len) :
    pos < utf8NextBoundary text len pos := by
  have hpos : 0 < (if utf8CharLenAt text len pos = 0 then 1 else utf8CharLenAt text len pos) := by
    split <;> omega
  rw [utf8NextBoundary, if_neg (by omega)]
  simp only
  generalize (if utf8CharLenAt text len pos = 0 then 1 else utf8CharLenAt text len pos) = adv
    at hpos ⊢
  split <;> omega

theorem backToChar_le (text : ℕ → UInt8) (len col : ℕ) : backToChar text len col ≤ col := by
  induction col with
  | zero => exact le_rfl
  | succ col ih =>
    rw [backToChar]
    split
    · exact ih.trans (Nat.le_succ _)
    · exact le_rfl

theorem keepCursorValid_frame (ed : VimEditor) : ∃ line col,
    keepCursorValid ed = { ed with cursorLine := line, cursorCol := col } := by
  rw [keepCursorValid]
  split
  · exact ⟨ed.cursorLine, ed.cursorCol, rfl⟩
  · simp only
    split
    · exact ⟨_, _, rfl⟩
    · exact ⟨ed.cursorLine, _, rfl⟩

theorem still_keepCursorValid (ed : VimEditor) : Still ed (keepCursorValid ed) := by
  obtain ⟨line, col, heq⟩ := keepCursorValid_frame ed
  rw [heq]
  exact ⟨⟨rfl, rfl⟩, rfl, rfl, rfl, rfl⟩

theorem sound_keepCursorValid (h : Shaped ed) : Sound (keepCursorValid ed) := by
  have hpos := h.count_pos
  have hcol : ∀ (line : VimLine) (col : ℕ),
      backToChar line.text line.len (if col > line.len then line.len else col) ≤ line.len := by
    intro line col
    refine (backToChar_le _ _ _).trans ?_
    split <;> omega
  refine ⟨(still_keepCursorValid ed).toSameLines.shaped h, ?_, ?_⟩
  · rw [keepCursorValid, if_neg (by omega)]
    simp only
    split
    · exact Nat.sub_lt hpos Nat.one_pos
    · exact not_le.1 ‹_›
  · rw [keepCursorValid, if_neg (by omega)]
    exact hcol _ _

theorem ensureCursorVisible_frame (ed : VimEditor) :
    ∃ top, ensureCursorVisible ed = { ed with scrollTop := top } := by
  rw [ensureCursorVisible]
  split
  · exact ⟨_, rfl⟩
  split
  · exact ⟨_, rfl⟩
  · exact ⟨ed.scrollTop, rfl⟩

theorem edits_keepCursorValid (h : Shaped ed') (hcontrols : (controls ed').Sublist (controls ed)) :
    Edits ed (keepCursorValid ed') := by
  refine ⟨sound_keepCursorValid h, ?_⟩
  rwa [(still_keepCursorValid ed').toSameLines.controls_eq]

theorem Shaped.kept (h : Shaped ed) (hsame : SameLines ed ed') : Edits ed (keepCursorValid ed') :=
  edits_keepCursorValid (hsame.shaped h) (by rw [hsame.controls_eq])

theorem edits_ensureCursorVisible (h : Sound ed) : Edits ed (ensureCursorVisible ed) := by
  obtain ⟨top, heq⟩ := ensureCursorVisible_frame ed
  rw [heq]
  exact h.untouched ⟨rfl, rfl⟩ rfl rfl

theorem edits_moveLeft (h : Sound ed) : Edits ed (moveLeft ed) := by
  have hline := h.line
  have hcol := h.col
  rw [moveLeft]
  split
  case isTrue hpos =>
    exact h.moved ⟨rfl, rfl⟩ hline ((utf8PrevBoundary_lt hpos).le.trans hcol)
  case isFalse =>
    split
    · exact h.moved ⟨rfl, rfl⟩ ((Nat.sub_le _ _).trans_lt hline) le_rfl
    · exact h.edits

theorem edits_moveRight (h : Sound ed) : Edits ed (moveRight ed) := by
  rw [moveRight]
  split
  · exact h.moved ⟨rfl, rfl⟩ h.line (utf8NextBoundary_le _ _ _)
  split
  · exact h.moved ⟨rfl, rfl⟩ ‹_› (Nat.zero_le _)
  · exact h.edits

theorem edits_moveUpward (h : Sound ed) : Edits ed (moveUpward ed) := by
  rw [moveUpward]
  split
  · exact h.kept ⟨rfl, rfl⟩
  · exact h.kept ⟨rfl, rfl⟩

theorem edits_moveDownward (h : Sound ed) : Edits ed (moveDownward ed) := by
  rw [moveDownward]
  split
  · exact h.kept ⟨rfl, rfl⟩
  · exact h.kept ⟨rfl, rfl⟩

theorem still_moveLeft (ed : VimEditor) : Still ed (moveLeft ed) := by
  rw [moveLeft]
  split
  · exact ⟨⟨rfl, rfl⟩, rfl, rfl, rfl, rfl⟩
  split <;> exact ⟨⟨rfl, rfl⟩, rfl, rfl, rfl, rfl⟩

theorem still_moveRight (ed : VimEditor) : Still ed (moveRight ed) := by
  rw [moveRight]
  split
  · exact ⟨⟨rfl, rfl⟩, rfl, rfl, rfl, rfl⟩
  split <;> exact ⟨⟨rfl, rfl⟩, rfl, rfl, rfl, rfl⟩

theorem still_moveUpward (ed : VimEditor) : Still ed (moveUpward ed) := by
  rw [moveUpward]
  refine Still.trans ?_ (still_keepCursorValid _)
  split <;> exact ⟨⟨rfl, rfl⟩, rfl, rfl, rfl, rfl⟩

theorem still_moveDownward (ed : VimEditor) : Still ed (moveDownward ed) := by
  rw [moveDownward]
  refine Still.trans ?_ (still_keepCursorValid _)
  split <;> exact ⟨⟨rfl, rfl⟩, rfl, rfl, rfl, rfl⟩

theorem edits_setStatus (h : Sound ed) (text : List UInt8) : Edits ed (setStatus ed text) :=
  h.untouched ⟨rfl, rfl⟩ rfl rfl

/-! ## Edits of a line -/

theorem lineOk_update {lines : ℕ → VimLine} (h : ∀ i, LineOk (lines i)) {line : VimLine}
    (hline : LineOk line) (c i : ℕ) : LineOk (update lines c line i) := by
  by_cases hi : i = c
  · rw [hi, update_self]
    exact hline
  · rw [update_of_ne hi]
    exact h i

theorem Sound.replaced (h : Sound ed) {line : VimLine} (hline : LineOk line)
    (hlines : ed'.lines = update ed.lines ed.cursorLine line)
    (hcount : ed'.lineCount = ed.lineCount) (hcursor : ed'.cursorLine = ed.cursorLine)
    (hcol : ed'.cursorCol ≤ line.len) : Sound ed' := by
  refine ⟨⟨?_, ?_, ?_⟩, ?_, ?_⟩
  · rw [hcount]
    exact h.count_pos
  · rw [hcount]
    exact h.count_le
  · rw [hlines]
    exact lineOk_update h.lines hline _
  · rw [hcount, hcursor]
    exact h.line
  · rw [VimEditor.line, hlines, hcursor, update_self]
    exact hcol

theorem Sound.edited (h : Sound ed) {line : VimLine} (hline : LineOk line)
    (hcontrols : (line.bytes.filter isControl).Sublist (ed.line.bytes.filter isControl))
    (hlines : ed'.lines = update ed.lines ed.cursorLine line)
    (hcount : ed'.lineCount = ed.lineCount) (hcursor : ed'.cursorLine = ed.cursorLine)
    (hcol : ed'.cursorCol ≤ line.len) : Edits ed ed' := by
  refine ⟨h.replaced hline hlines hcount hcursor hcol, ?_⟩
  rw [controls, hlines, hcount]
  exact controlsIn_update_sublist h.line hcontrols

theorem filter_insert {t bytes : List UInt8} (hbytes : ∀ c ∈ bytes, isControl c = false) (n : ℕ) :
    (t.take n ++ (bytes ++ t.drop n)).filter isControl = t.filter isControl := by
  have hnone : bytes.filter isControl = [] := by
    rw [filter_eq_nil_iff]
    exact fun c hc => by simp [hbytes c hc]
  rw [filter_append, filter_append, hnone, nil_append, ← filter_append,
    take_append_drop]

theorem edits_insertBytes (h : Sound ed) (bytes : List UInt8) :
    EditsIf (ed.line.len + bytes.length < maxLineLen → ∀ c ∈ bytes, isControl c = false) ed
      (insertBytes ed bytes) := by
  have hcol := h.col
  rw [insertBytes]
  split
  case isTrue => exact h.edits.editsIf
  split
  case isTrue => exact h.edits.editsIf
  split
  case isTrue => exact (edits_setStatus h _).editsIf
  case isFalse hfits =>
    have hroom := not_le.1 hfits
    have hline : LineOk (ed.line.insertAt ed.cursorCol bytes) := lineOk_insertAt hroom
    have hnew : ed.cursorCol + bytes.length ≤ ed.line.len + bytes.length :=
      Nat.add_le_add_right hcol _
    refine ⟨h.replaced hline rfl rfl rfl hnew, fun hbytes => ?_⟩
    have hedits : Edits ed { ed with
        lines := update ed.lines ed.cursorLine (ed.line.insertAt ed.cursorCol bytes)
        cursorCol := ed.cursorCol + bytes.length
        modified := true } := by
      refine h.edited hline ?_ rfl rfl rfl hnew
      rw [bytes_insertAt hcol, filter_insert (hbytes hroom)]
    exact hedits.controls

theorem edits_insertChar (h : Sound ed) (hc : isControl c = false) : Edits ed (insertChar ed c) :=
  (edits_insertBytes h [c]).edits fun _ d hd => by rwa [mem_singleton.1 hd]

theorem insertChar_line_len (hc : ¬ (c < 0x20 ∨ c = 10 ∨ c = 13)) : (insertChar ed c).line.len =
      if ed.line.len + 1 < maxLineLen then ed.line.len + 1 else ed.line.len := by
  have hhead : ¬ ([c].headD 0 < 0x20 ∨ [c].headD 0 = 10 ∨ [c].headD 0 = 13) := hc
  rw [insertChar, insertBytes, if_neg (by simp), if_neg hhead]
  by_cases hroom : ed.line.len + 1 < maxLineLen
  · have hfits : ¬ ed.line.len + [c].length ≥ maxLineLen := not_le.2 hroom
    rw [if_neg hfits, if_pos hroom]
    change (update ed.lines ed.cursorLine _ ed.cursorLine).len = _
    rw [update_self]
    rfl
  · have hfull : ed.line.len + [c].length ≥ maxLineLen := not_lt.1 hroom
    rw [if_pos hfull, if_neg hroom]
    rfl

theorem sublist_delete {line : VimLine} {start src : ℕ} (hle : start ≤ src) (h : src ≤ line.len) :
    ((line.delete start src (src - start)).bytes.filter isControl).Sublist
      (line.bytes.filter isControl) := by
  have hdrop : (line.bytes.drop src).Sublist (line.bytes.drop start) :=
    drop_sublist_drop_left _ hle
  have hall := (List.Sublist.refl (line.bytes.take start)).append hdrop
  rw [take_append_drop] at hall
  rw [bytes_delete hle h]
  exact hall.filter isControl

theorem edits_deleteChar (h : Sound ed) : Edits ed (deleteChar ed) := by
  have hok : LineOk ed.line := h.lines ed.cursorLine
  rw [deleteChar]
  simp only
  split
  case isTrue => exact h.edits
  case isFalse hlt =>
    have hnext := utf8NextBoundary_le ed.line.text ed.line.len ed.cursorCol
    have hpos : ed.cursorCol < utf8NextBoundary ed.line.text ed.line.len ed.cursorCol :=
      lt_utf8NextBoundary (not_le.1 hlt)
    generalize utf8NextBoundary ed.line.text ed.line.len ed.cursorCol = next at *
    have hend : ed.cursorCol + (next - ed.cursorCol) = next := by omega
    rw [if_neg (by omega), hend]
    refine h.edited (lineOk_delete hok _ _ _) (sublist_delete hpos.le hnext) rfl rfl rfl ?_
    simp only [VimLine.delete]
    omega

theorem lineOk_removeLine {lines : ℕ → VimLine} (h : ∀ i, LineOk (lines i)) {n c : ℕ} (hc : c < n)
    (i : ℕ) : LineOk (removeLine lines n c i) := by
  rcases mem_removeLine hc i with heq | ⟨k, heq⟩
  · rw [heq]
    exact lineOk_zeroLine
  · rw [heq]
    exact h k

theorem controlsIn_join (lines : ℕ → VimLine) {n c : ℕ} (hc : c + 1 < n) :
    controlsIn (removeLine (update lines c ((lines c).join (lines (c + 1)))) n (c + 1)) 0
      (n - 1) = controlsIn lines 0 n := by
  have hrest : controlsIn (update lines c ((lines c).join (lines (c + 1)))) (c + 1 + 1)
      (n - (c + 1 + 1)) = controlsIn lines (c + 1 + 1) (n - (c + 1 + 1)) :=
    controlsIn_shift fun j _ => update_of_ne (by omega) _ _
  have hnone : controlsIn lines (c + 1) 0 = [] := rfl
  rw [controlsIn_removeLine hc, hrest, controlsIn_update (Nat.lt_succ_self c), bytes_join,
    controlsIn_split lines hc, controlsIn_split lines (Nat.lt_succ_self c), Nat.sub_self, hnone]
  simp only [filter_append, append_nil, append_assoc]

theorem edits_backspace (h : Sound ed) : Edits ed (backspace ed) := by
  have hok : LineOk ed.line := h.lines ed.cursorLine
  have hcol := h.col
  have hline := h.line
  rw [backspace]
  simp only
  split
  case isTrue hpos =>
    have hlt : utf8PrevBoundary ed.line.text ed.line.len ed.cursorCol < ed.cursorCol :=
      utf8PrevBoundary_lt hpos
    generalize utf8PrevBoundary ed.line.text ed.line.len ed.cursorCol = start at *
    rw [if_neg (by omega)]
    refine h.edited (lineOk_delete hok _ _ _) (sublist_delete hlt.le hcol) rfl rfl rfl ?_
    simp only [VimLine.delete]
    omega
  split
  case isTrue => exact h.edits
  split
  case isTrue => exact edits_setStatus h _
  case isFalse hfirst hroom =>
    obtain ⟨c, hc⟩ := Nat.exists_eq_succ_of_ne_zero hfirst
    have hjoin := controlsIn_join ed.lines (hc ▸ hline)
    have hokJoin : LineOk ((ed.lines c).join ed.line) := by
      rw [hc, Nat.succ_sub_one] at hroom
      exact lineOk_join (not_le.1 hroom)
    have hlines := lineOk_removeLine (lineOk_update h.lines hokJoin c) hline
    rw [VimEditor.line] at hlines ⊢
    rw [hc] at hline hlines ⊢
    rw [Nat.succ_sub_one]
    refine ⟨⟨⟨?_, ?_, hlines⟩, ?_, ?_⟩, ?_⟩
    · simp only
      omega
    · exact (Nat.sub_le _ _).trans h.count_le
    · simp only
      omega
    · -- the cursor stands where the lines are joined
      simp only [VimEditor.line]
      rw [removeLine_of_lt (Nat.lt_succ_self c) hline, update_self, VimLine.join]
      exact Nat.le_add_right _ _
    · rw [controls, controls]
      simp only
      rw [hjoin]

theorem edits_deleteLine (h : Sound ed) : Edits ed (deleteLine ed) := by
  have hok : LineOk ed.line := h.lines ed.cursorLine
  have hpos := h.count_pos
  have hline := h.line
  rw [deleteLine, if_neg (by omega)]
  split
  case isTrue hone =>
    have hzero : ed.cursorLine = 0 := by omega
    have hcut : 0 ≤ ed.line.len := Nat.zero_le _
    have hlines : update ed.lines 0 ((ed.lines 0).cutAt 0) =
        update ed.lines ed.cursorLine (ed.line.cutAt 0) := by
      rw [VimEditor.line, hzero]
    refine h.edited (lineOk_cutAt hok hcut) ?_ hlines rfl hzero.symm (Nat.zero_le _)
    rw [bytes_cutAt hcut]
    exact (take_sublist _ _).filter isControl
  case isFalse hmany =>
    have hlines := lineOk_removeLine h.lines hline
    have hcontrols : (controlsIn (removeLine ed.lines ed.lineCount ed.cursorLine) 0
        (ed.lineCount - 1)).Sublist (controls ed) := by
      rw [controlsIn_removeLine hline, controls, controlsIn_split _ hline]
      exact (List.Sublist.refl _).append (sublist_append_right _ _)
    have hkept : ∀ c, Edits ed (keepCursorValid { ed with
        lines := removeLine ed.lines ed.lineCount ed.cursorLine
        lineCount := ed.lineCount - 1, cursorLine := c }) := by
      intro c
      refine edits_keepCursorValid ⟨?_, (Nat.sub_le _ _).trans h.count_le, hlines⟩ hcontrols
      simp only
      omega
    simp only
    split
    · exact (hkept _).trans ((hkept _).sound.untouched ⟨rfl, rfl⟩ rfl rfl)
    · exact (hkept _).trans ((hkept _).sound.untouched ⟨rfl, rfl⟩ rfl rfl)

theorem lineOk_openLine {lines : ℕ → VimLine} (h : ∀ i, LineOk (lines i)) (n c i : ℕ) :
    LineOk (openLine lines n c i) := by
  rcases mem_openLine lines n c i with heq | ⟨k, heq⟩
  · rw [heq]
    exact lineOk_zeroLine
  · rw [heq]
    exact h k

theorem insertLineAfter_eq (h : Sound ed) : insertLineAfter ed ed.cursorLine =
    if ed.lineCount ≥ maxLines then (false, setStatus ed (lit "line limit reached"))
    else (true, { ed with
      lines := openLine ed.lines ed.lineCount ed.cursorLine, lineCount := ed.lineCount + 1 }) := by
  rw [insertLineAfter, if_neg (not_le.2 h.line)]

theorem Sound.opened (h : Sound ed) (hroom : ed.lineCount < maxLines)
    (hlines : ∀ i, LineOk (ed'.lines i)) (hcount : ed'.lineCount = ed.lineCount + 1)
    (hcursor : ed'.cursorLine = ed.cursorLine + 1) (hcol : ed'.cursorCol = 0)
    (hcontrols : (controls ed').Sublist (controls ed)) : Edits ed ed' := by
  have hline := h.line
  exact ⟨⟨⟨by omega, by omega, hlines⟩, by omega, by omega⟩, hcontrols⟩

theorem controlsIn_cut (lines : ℕ → VimLine) {n c col : ℕ} (hc : c < n) (hcol : col ≤ (lines c).len) :
    controlsIn (update (update (openLine lines n c) (c + 1)
      ((lines c).tailFrom col)) c ((lines c).cutAt col)) 0 (n + 1) = controlsIn lines 0 n := by
  have hn : n + 1 = c + (1 + (1 + (n - (c + 1)))) := by omega
  have hbefore : ∀ j < c, update (update (openLine lines n c) (c + 1)
      ((lines c).tailFrom col)) c ((lines c).cutAt col) (0 + j) = lines (0 + j) := by
    intro j hj
    rw [update_of_ne (by omega), update_of_ne (by omega),
      openLine_of_le (by omega)]
  have hafter : ∀ j < n - (c + 1), update (update (openLine lines n c) (c + 1)
      ((lines c).tailFrom col)) c ((lines c).cutAt col) (c + 1 + 1 + j) = lines (c + 1 + j) := by
    intro j hj
    have hcell : c + 1 + 1 + j = c + 1 + j + 1 := by omega
    rw [update_of_ne (by omega), update_of_ne (by omega), hcell,
      openLine_of_gt (by omega) (by omega)]
  rw [hn, controlsIn_add, controlsIn_add, controlsIn_add, controlsIn_one, controlsIn_one,
    Nat.zero_add, controlsIn_shift hbefore, controlsIn_shift hafter, update_self,
    update_of_ne (Nat.succ_ne_self c), update_self, bytes_cutAt hcol,
    bytes_tailFrom, controlsIn_split lines hc]
  congr 1
  rw [← append_assoc, ← filter_append, take_append_drop]

theorem edits_splitLine (h : Sound ed) : Edits ed (splitLine ed) := by
  have hok : LineOk ed.line := h.lines ed.cursorLine
  rw [splitLine, insertLineAfter_eq h]
  split
  case isTrue => exact edits_setStatus h _
  case isFalse hroom =>
    have hopen := lineOk_openLine h.lines ed.lineCount ed.cursorLine
    have hsame : openLine ed.lines ed.lineCount ed.cursorLine ed.cursorLine = ed.line :=
      openLine_of_le le_rfl
    simp only [Bool.true_eq_false, if_false, VimEditor.line, hsame]
    refine h.opened (not_le.1 hroom) ?_ rfl rfl rfl ?_
    · simp only
      split
      · exact lineOk_update (lineOk_update hopen (lineOk_tailFrom hok _) _) (lineOk_cutAt hok h.col) _
      · exact hopen
    · rw [controls, controls]
      simp only
      split
      · rw [controlsIn_cut ed.lines h.line h.col]
      · rw [controlsIn_openLine h.line]

theorem edits_openBelowInsert (h : Sound ed) : Edits ed (openBelowInsert ed) := by
  rw [openBelowInsert, insertLineAfter_eq h]
  split
  case isTrue => exact edits_setStatus h _
  case isFalse hroom =>
    refine h.opened (not_le.1 hroom) (lineOk_openLine h.lines _ _) rfl rfl rfl ?_
    rw [controls, controls]
    simp only [Bool.true_eq_false, if_false]
    rw [controlsIn_openLine h.line]

theorem edits_insertPending (h : Sound ed) : Edits ed (insertPending ed) := by
  rw [insertPending]
  split
  · have hinsert := edits_insertChar h (show isControl 106 = false by decide)
    exact hinsert.trans (hinsert.sound.untouched ⟨rfl, rfl⟩ rfl rfl)
  · exact h.edits

/-- The length of the line, with the `j` that is held back. -/
def pendingLen (ed : VimEditor) : ℕ :=
  if ed.pendingJj ∧ ed.line.len + 1 < maxLineLen then ed.line.len + 1 else ed.line.len

theorem pendingLen_eq (ed : VimEditor) : (insertPending ed).line.len = pendingLen ed := by
  rw [pendingLen, insertPending]
  cases ed.pendingJj with
  | false => simp
  | true =>
    have hlen : (insertChar ed 106).line.len = _ := insertChar_line_len (by decide)
    simp only [true_and, if_true]
    exact hlen

theorem readKey_cases (ch : UInt8) :
    readKey ch = ch.toNat ∨ readKey ch < 0x80 ∨ 255 < readKey ch := by
  rw [readKey]
  repeat' split
  all_goals first | exact .inl rfl | exact .inr (by decide)

/-- The input behind a first byte ends its character with a control byte, and the line has room
for them. -/
def CutByControl (ed : VimEditor) (lead : UInt8) (input : List UInt8) : Prop :=
  ∃ n c, n + 1 < utf8LenFromLead lead ∧ (∀ d ∈ input.take n, utf8IsCont d = true) ∧
    input[n]? = some c ∧ isControl c = true ∧ pendingLen ed + (n + 2) < maxLineLen

theorem collectMore_control {need : ℕ} {input : List UInt8} {r : List UInt8 × List UInt8}
    (hread : collectMore need input = some r) {c : UInt8} (hc : c ∈ r.1)
    (hcontrol : isControl c = true) :
    ∃ n < need, (∀ d ∈ input.take n, utf8IsCont d = true) ∧ input[n]? = some c ∧
      r.1.length = n + 1 := by
  induction need generalizing input r with
  | zero =>
    cases hread
    exact absurd hc not_mem_nil
  | succ need ih =>
    cases input with
    | nil => cases hread
    | cons next input =>
      rw [collectMore] at hread
      split at hread
      case isTrue =>
        cases hread
        refine ⟨0, Nat.succ_pos _, by simp, ?_, rfl⟩
        rw [mem_singleton.1 hc]
        rfl
      case isFalse hcont =>
        obtain ⟨r, hmore, rfl⟩ := map_eq_some_iff.1 hread
        have hnext : utf8IsCont next = true := by simpa using hcont
        have hmem : c ∈ r.1 := by
          rcases mem_cons.1 hc with rfl | hmem
          · rw [isControl_of_isCont hnext] at hcontrol
            cases hcontrol
          · exact hmem
        obtain ⟨n, hn, hall, hget, hlen⟩ := ih hmore hmem
        refine ⟨n + 1, Nat.succ_lt_succ hn, ?_, hget, congrArg (· + 1) hlen⟩
        intro d hd
        rcases mem_cons.1 hd with rfl | hd
        · exact hnext
        · exact hall d hd

theorem collectKey_noControls {bytes rest : List UInt8}
    (hcut : ¬ CutByControl ed ch input) (hrange : readKey ch ≥ 32 ∧ readKey ch ≤ 255)
    (hdel : readKey ch ≠ keyDel) (hread : collectKey (readKey ch) input = some (bytes, rest))
    (hroom : (insertPending ed).line.len + bytes.length < maxLineLen) :
    ∀ c ∈ bytes, isControl c = false := by
  rw [collectKey] at hread
  split at hread
  case isFalse hlow =>
    cases hread
    intro c hc
    rw [mem_singleton.1 hc]
    exact isControl_ofNat hrange.1 (not_le.1 hlow) hdel
  case isTrue hhigh =>
    have hkey : readKey ch = ch.toNat := (readKey_cases ch).resolve_right (by omega)
    rw [hkey, UInt8.ofNat_toNat] at hread
    rw [hkey] at hhigh
    obtain ⟨r, hmore, heq⟩ := map_eq_some_iff.1 hread
    cases heq
    intro c hc
    rcases mem_cons.1 hc with rfl | hc
    · exact isControl_of_high hhigh
    by_contra hcontrol
    obtain ⟨n, hn, hall, hget, hlen⟩ := collectMore_control hmore hc (by simpa using hcontrol)
    refine hcut ⟨n, c, by omega, hall, hget, by simpa using hcontrol, ?_⟩
    rwa [pendingLen_eq, length_cons, hlen] at hroom

/-- What a key does in insert mode, behind the pending `j`. -/
inductive InsertEffect (ed : VimEditor) (key : ℕ) (input : List UInt8) : VimEditor → Prop
  | held (h : key = 106) : InsertEffect ed key input { ed with pendingJj := true }
  | left (h : key = keyLeft) : InsertEffect ed key input (moveLeft ed)
  | right (h : key = keyRight) : InsertEffect ed key input (moveRight ed)
  | up (h : key = keyUp) : InsertEffect ed key input (moveUpward ed)
  | down (h : key = keyDown) : InsertEffect ed key input (moveDownward ed)
  | home (h : key = keyHome) : InsertEffect ed key input { ed with cursorCol := 0 }
  | lineEnd (h : key = keyEnd) : InsertEffect ed key input { ed with cursorCol := ed.line.len }
  | enter (h : key = keyEnter ∨ key = 10) : InsertEffect ed key input (splitLine ed)
  | backspace (h : key = keyBackspace ∨ key = keyDel) : InsertEffect ed key input (backspace ed)
  | tab (h : key = 9) : InsertEffect ed key input
      (insertChar (insertChar (insertChar (insertChar ed 32) 32) 32) 32)
  | text (h : key ≥ 32 ∧ key ≤ 255) (hdel : key ≠ keyDel) (bytes rest : List UInt8)
      (hbytes : collectKey key input = some (bytes, rest)) :
      InsertEffect ed key input (insertBytes ed bytes)
  | nothing : InsertEffect ed key input ed

theorem pressInsert_effect
    (hrun : pressInsert ed key input = some r) : InsertEffect ed key input r.1 := by
  rw [pressInsert] at hrun
  by_cases h1 : key = 106
  · rw [if_pos h1] at hrun
    cases hrun
    exact .held h1
  rw [if_neg h1] at hrun
  by_cases h2 : key = keyLeft
  · rw [if_pos h2] at hrun
    cases hrun
    exact .left h2
  rw [if_neg h2] at hrun
  by_cases h3 : key = keyRight
  · rw [if_pos h3] at hrun
    cases hrun
    exact .right h3
  rw [if_neg h3] at hrun
  by_cases h4 : key = keyUp
  · rw [if_pos h4] at hrun
    cases hrun
    exact .up h4
  rw [if_neg h4] at hrun
  by_cases h5 : key = keyDown
  · rw [if_pos h5] at hrun
    cases hrun
    exact .down h5
  rw [if_neg h5] at hrun
  by_cases h6 : key = keyHome
  · rw [if_pos h6] at hrun
    cases hrun
    exact .home h6
  rw [if_neg h6] at hrun
  by_cases h7 : key = keyEnd
  · rw [if_pos h7] at hrun
    cases hrun
    exact .lineEnd h7
  rw [if_neg h7] at hrun
  by_cases h8 : key = keyEnter ∨ key = 10
  · rw [if_pos h8] at hrun
    cases hrun
    exact .enter h8
  rw [if_neg h8] at hrun
  by_cases h9 : key = keyBackspace ∨ key = keyDel
  · rw [if_pos h9] at hrun
    cases hrun
    exact .backspace h9
  rw [if_neg h9] at hrun
  by_cases h10 : key = 9
  · rw [if_pos h10] at hrun
    cases hrun
    exact .tab h10
  rw [if_neg h10] at hrun
  by_cases h11 : key ≥ 32 ∧ key ≤ 255
  · rw [if_pos h11] at hrun
    obtain ⟨⟨bytes, rest⟩, hbytes, rfl⟩ := map_eq_some_iff.1 hrun
    exact .text h11 (fun h => h9 (.inr h)) bytes rest hbytes
  · rw [if_neg h11] at hrun
    cases hrun
    exact .nothing

theorem InsertEffect.editsIf (h : Sound ed) {key : ℕ} {input : List UInt8}
    (heffect : InsertEffect ed key input ed') :
    EditsIf (key ≥ 32 ∧ key ≤ 255 → key ≠ keyDel → ∀ bytes rest,
      collectKey key input = some (bytes, rest) → ed.line.len + bytes.length < maxLineLen →
        ∀ c ∈ bytes, isControl c = false) ed ed' := by
  cases heffect with
  | held =>
    have hedits : Edits ed { ed with pendingJj := true } := h.untouched ⟨rfl, rfl⟩ rfl rfl
    exact hedits.editsIf
  | left => exact (edits_moveLeft h).editsIf
  | right => exact (edits_moveRight h).editsIf
  | up => exact (edits_moveUpward h).editsIf
  | down => exact (edits_moveDownward h).editsIf
  | home =>
    have hedits : Edits ed { ed with cursorCol := 0 } := h.moved ⟨rfl, rfl⟩ h.line (Nat.zero_le _)
    exact hedits.editsIf
  | lineEnd =>
    have hedits : Edits ed { ed with cursorCol := ed.line.len } := h.moved ⟨rfl, rfl⟩ h.line le_rfl
    exact hedits.editsIf
  | enter => exact (edits_splitLine h).editsIf
  | backspace => exact (edits_backspace h).editsIf
  | tab =>
    have hspace : isControl 32 = false := by decide
    have h1 := edits_insertChar h hspace
    have h2 := edits_insertChar h1.sound hspace
    have h3 := edits_insertChar h2.sound hspace
    exact (h1.trans (h2.trans (h3.trans (edits_insertChar h3.sound hspace)))).editsIf
  | text hrange hdel bytes rest hbytes =>
    exact (edits_insertBytes h bytes).mono fun htyped => htyped hrange hdel bytes rest hbytes
  | nothing => exact h.edits.editsIf

theorem edits_handleInsertMode (h : Sound ed) (hrun : handleInsertMode ed (readKey ch) input = some r) :
    EditsIf (¬ CutByControl ed ch input) ed r.1 := by
  have hpending := edits_insertPending h
  rw [handleInsertMode] at hrun
  split at hrun
  case isTrue =>
    cases hrun
    refine Edits.editsIf ?_
    exact h.untouched ⟨rfl, rfl⟩ rfl rfl
  split at hrun
  case isTrue =>
    cases hrun
    refine Edits.editsIf ?_
    exact h.untouched ⟨rfl, rfl⟩ rfl rfl
  case isFalse =>
    refine hpending.editsIf.trans ((pressInsert_effect hrun).editsIf hpending.sound |>.mono ?_)
    intro hcut hrange hdel bytes rest hread hroom
    exact collectKey_noControls hcut hrange hdel hread hroom

/-- What a key does in normal mode, where nothing is pending. -/
inductive NormalEffect (ed : VimEditor) (key : ℕ) : VimEditor → Prop
  | moved {ed' : VimEditor} (hstill : Still ed ed') (hsound : Sound ed') : NormalEffect ed key ed'
  | opened (h : key = 111) : NormalEffect ed key
      (setStatus { openBelowInsert ed with pendingJj := false } (lit "-- INSERT --"))
  | deleted (h : key = 120) : NormalEffect ed key (deleteChar ed)

theorem pressNormal_effect (h : Sound ed) (key : ℕ) : NormalEffect ed key (pressNormal ed key) := by
  rw [pressNormal]
  by_cases h1 : key = keyLeft ∨ key = 104
  · rw [if_pos h1]
    exact .moved (still_moveLeft ed) (edits_moveLeft h).sound
  rw [if_neg h1]
  by_cases h2 : key = keyRight ∨ key = 108
  · rw [if_pos h2]
    exact .moved (still_moveRight ed) (edits_moveRight h).sound
  rw [if_neg h2]
  by_cases h3 : key = keyUp ∨ key = 107
  · rw [if_pos h3]
    exact .moved (still_moveUpward ed) (edits_moveUpward h).sound
  rw [if_neg h3]
  by_cases h4 : key = keyDown ∨ key = 106
  · rw [if_pos h4]
    exact .moved (still_moveDownward ed) (edits_moveDownward h).sound
  rw [if_neg h4]
  have hmoved : ∀ {ed' : VimEditor}, Still ed ed' → ed'.cursorLine = ed.cursorLine →
      ed'.cursorCol ≤ ed.line.len → NormalEffect ed key ed' := by
    intro ed' hstill hline hcol
    refine .moved hstill (h.moved hstill.toSameLines ?_ ?_).sound
    · rw [hline]
      exact h.line
    · rw [hline]
      exact hcol
  by_cases h5 : key = keyHome ∨ key = 48
  · rw [if_pos h5]
    exact hmoved ⟨⟨rfl, rfl⟩, rfl, rfl, rfl, rfl⟩ rfl (Nat.zero_le _)
  rw [if_neg h5]
  by_cases h6 : key = keyEnd ∨ key = 36
  · rw [if_pos h6]
    exact hmoved ⟨⟨rfl, rfl⟩, rfl, rfl, rfl, rfl⟩ rfl le_rfl
  rw [if_neg h6]
  by_cases h7 : key = 71
  · rw [if_pos h7]
    have hkept : Edits ed (keepCursorValid { ed with cursorLine := ed.lineCount - 1 }) :=
      h.kept ⟨rfl, rfl⟩
    refine .moved (Still.trans ?_ (still_keepCursorValid _)) hkept.sound
    exact ⟨⟨rfl, rfl⟩, rfl, rfl, rfl, rfl⟩
  rw [if_neg h7]
  by_cases h8 : key = 103
  · rw [if_pos h8]
    exact hmoved ⟨⟨rfl, rfl⟩, rfl, rfl, rfl, rfl⟩ rfl h.col
  rw [if_neg h8]
  by_cases h9 : key = 105
  · rw [if_pos h9]
    exact hmoved ⟨⟨rfl, rfl⟩, rfl, rfl, rfl, rfl⟩ rfl h.col
  rw [if_neg h9]
  by_cases h10 : key = 97
  · rw [if_pos h10]
    simp only
    split
    · exact hmoved ⟨⟨rfl, rfl⟩, rfl, rfl, rfl, rfl⟩ rfl (utf8NextBoundary_le _ _ _)
    · exact hmoved ⟨⟨rfl, rfl⟩, rfl, rfl, rfl, rfl⟩ rfl h.col
  rw [if_neg h10]
  by_cases h11 : key = 111
  · rw [if_pos h11]
    exact .opened h11
  rw [if_neg h11]
  by_cases h12 : key = 120
  · rw [if_pos h12]
    exact .deleted h12
  rw [if_neg h12]
  by_cases h13 : key = 100
  · rw [if_pos h13]
    exact hmoved ⟨⟨rfl, rfl⟩, rfl, rfl, rfl, rfl⟩ rfl h.col
  rw [if_neg h13]
  by_cases h14 : key = 58
  · rw [if_pos h14]
    exact hmoved ⟨⟨rfl, rfl⟩, rfl, rfl, rfl, rfl⟩ rfl h.col
  · rw [if_neg h14]
    exact hmoved ⟨⟨rfl, rfl⟩, rfl, rfl, rfl, rfl⟩ rfl h.col

theorem edits_handleNormalMode (h : Sound ed) (key : ℕ) : Edits ed (handleNormalMode ed key) := by
  rw [handleNormalMode]
  split
  · split
    · have hdelete := edits_deleteLine h
      exact hdelete.trans (hdelete.sound.untouched ⟨rfl, rfl⟩ rfl rfl)
    · exact h.untouched ⟨rfl, rfl⟩ rfl rfl
  split
  · split
    · exact h.moved ⟨rfl, rfl⟩ h.count_pos (Nat.zero_le _)
    · exact h.untouched ⟨rfl, rfl⟩ rfl rfl
  · have heffect := pressNormal_effect h key
    generalize pressNormal ed key = ed' at heffect ⊢
    cases heffect with
    | moved hstill hsound => exact ⟨hsound, by rw [hstill.toSameLines.controls_eq]⟩
    | opened =>
      have hopen := edits_openBelowInsert h
      exact hopen.trans (hopen.sound.untouched ⟨rfl, rfl⟩ rfl rfl)
    | deleted => exact edits_deleteChar h

/-! ## Commands -/

/-- A command does not touch the lines and the cursor. -/
structure SameDocument (ed ed' : VimEditor) : Prop extends SameLines ed ed' where
  cursorLine : ed'.cursorLine = ed.cursorLine
  cursorCol : ed'.cursorCol = ed.cursorCol
  scrollTop : ed'.scrollTop = ed.scrollTop

theorem SameDocument.refl (ed : VimEditor) : SameDocument ed ed := ⟨⟨rfl, rfl⟩, rfl, rfl, rfl⟩

theorem SameDocument.trans (h : SameDocument ed ed') (h' : SameDocument ed' ed'') :
    SameDocument ed ed'' :=
  ⟨⟨h'.lines.trans h.lines, h'.count.trans h.count⟩, h'.cursorLine.trans h.cursorLine,
    h'.cursorCol.trans h.cursorCol, h'.scrollTop.trans h.scrollTop⟩

theorem sameDocument_setStatus (ed : VimEditor) (text : List UInt8) :
    SameDocument ed (setStatus ed text) := ⟨⟨rfl, rfl⟩, rfl, rfl, rfl⟩

theorem sameDocument_saveFile (answers : SaveAnswers) (ed : VimEditor) (path : List UInt8) :
    SameDocument ed (saveFile answers ed path).2 := by
  rw [saveFile]
  split
  · exact .refl ed
  split
  · exact sameDocument_setStatus ed _
  split
  · exact sameDocument_setStatus ed _
  · exact ⟨⟨rfl, rfl⟩, rfl, rfl, rfl⟩

theorem sameDocument_runCommand (cwd : List UInt8) (answers : SaveAnswers) (ed : VimEditor)
    (cmd : List UInt8) : SameDocument ed (runCommand cwd answers ed cmd) := by
  rw [runCommand]
  split
  · exact .refl ed
  split
  · split
    · exact sameDocument_setStatus ed _
    · exact ⟨⟨rfl, rfl⟩, rfl, rfl, rfl⟩
  split
  · exact ⟨⟨rfl, rfl⟩, rfl, rfl, rfl⟩
  split
  · split
    · exact sameDocument_setStatus ed _
    · have hsave := sameDocument_saveFile answers ed ed.filePath
      simp only
      split
      · exact hsave
      · exact hsave.trans ⟨⟨rfl, rfl⟩, rfl, rfl, rfl⟩
  split
  · split
    · exact sameDocument_setStatus ed _
    · exact sameDocument_saveFile answers ed _
  split
  · exact sameDocument_setStatus ed _
  · exact sameDocument_setStatus ed _

theorem sameDocument_handleCommandMode {answers : SaveAnswers}
    (hrun : handleCommandMode cwd answers ed key input = some r) : SameDocument ed r.1 := by
  rw [handleCommandMode] at hrun
  split at hrun
  · cases hrun
    exact ⟨⟨rfl, rfl⟩, rfl, rfl, rfl⟩
  split at hrun
  · cases hrun
    exact ⟨⟨rfl, rfl⟩, rfl, rfl, rfl⟩
  split at hrun
  · cases hrun
    exact (sameDocument_runCommand cwd answers ed _).trans ⟨⟨rfl, rfl⟩, rfl, rfl, rfl⟩
  split at hrun
  · obtain ⟨c, -, rfl⟩ := map_eq_some_iff.1 hrun
    simp only
    split
    · exact ⟨⟨rfl, rfl⟩, rfl, rfl, rfl⟩
    · exact .refl ed
  · cases hrun
    exact .refl ed

/-- No character that is typed into a line ends with a control byte. -/
def TypesNoControls (ed : VimEditor) (e : KeyEvent) : Prop :=
  ed.mode = .insert → ¬ CutByControl ed e.ch e.input

theorem edits_handleKey (h : Sound ed) {e : KeyEvent} (hrun : handleKey cwd ed e = some r) :
    EditsIf (TypesNoControls ed e) ed r.1 := by
  rw [handleKey] at hrun
  cases hmode : ed.mode
  all_goals rw [hmode] at hrun
  case normal =>
    cases hrun
    exact (edits_handleNormalMode h _).editsIf
  case insert => exact (edits_handleInsertMode h hrun).mono fun htypes => htypes hmode
  case command =>
    have hsame := sameDocument_handleCommandMode hrun
    exact (h.untouched hsame.toSameLines hsame.cursorLine hsame.cursorCol).editsIf

theorem edits_step (h : Sound ed) {e : KeyEvent}
    (hstep : step cwd ed e = some ed') : EditsIf (TypesNoControls ed e) ed ed' := by
  rw [step] at hstep
  split at hstep
  · cases hstep
  obtain ⟨r, hrun, rfl⟩ := map_eq_some_iff.1 hstep
  have hkey := edits_handleKey h hrun
  split
  · exact hkey
  · have hsame : SameLines r.1 r.1 := ⟨rfl, rfl⟩
    have hkept := hkey.sound.toShaped.kept hsame
    exact hkey.trans (hkept.trans (edits_ensureCursorVisible hkept.sound)).editsIf

/-- The control bytes of a file that are no newlines. -/
def fileControls (file : List UInt8) : List UInt8 := file.filter fun c => isControl c && c != 10

/-- What has been loaded from the first bytes of a file. -/
structure Loaded (done : List UInt8) (st : Loading) : Prop where
  index : st.lineIndex < maxLines
  lines : ∀ i, LineOk (st.lines i)
  behind : ∀ i, st.lineIndex < i → st.lines i = zeroLine
  controls : (controlsIn st.lines 0 (st.lineIndex + 1)).Sublist (fileControls done)

theorem Loaded.skip {done : List UInt8} {st : Loading} (h : Loaded done st) (ch : UInt8) :
    (controlsIn st.lines 0 (st.lineIndex + 1)).Sublist (fileControls (done ++ [ch])) := by
  rw [fileControls, filter_append]
  exact h.controls.trans (sublist_append_left _ _)

theorem bytes_extend (line : VimLine) (ch z : UInt8) :
    VimLine.bytes ⟨update (update line.text line.len ch) (line.len + 1) z,
      line.len + 1⟩ = line.bytes ++ [ch] := by
  rw [VimLine.bytes, slice_update_of_le (Nat.zero_add _).le, slice_update_succ]
  rfl

theorem filter_singleton_sublist (hnl : ch ≠ 10) :
    ([ch].filter isControl).Sublist ([ch].filter fun c => isControl c && c != 10) := by
  have hne : (ch != 10) = true := by simpa using hnl
  rw [filter_singleton, filter_singleton, hne, Bool.and_true]

theorem Loaded.loadByte {done : List UInt8} {st : Loading} (h : Loaded done st) (ch : UInt8) :
    Loaded (done ++ [ch]) (loadByte st ch) := by
  rw [Vim.loadByte]
  simp only
  split
  case isTrue => exact ⟨h.index, h.lines, h.behind, h.skip ch⟩
  split
  case isTrue =>
    split
    case isTrue hroom =>
      refine ⟨hroom, h.lines, fun i hi => h.behind i (Nat.lt_of_succ_lt hi), ?_⟩
      have hempty : controlsIn st.lines (st.lineIndex + 1) 1 = [] := by
        rw [controlsIn_one, h.behind _ (Nat.lt_succ_self _)]
        rfl
      rw [controlsIn_add, Nat.zero_add, hempty, append_nil]
      exact h.skip ch
    case isFalse => exact ⟨h.index, h.lines, h.behind, h.skip ch⟩
  case isFalse hcr hnl =>
    split
    case isFalse => exact ⟨h.index, h.lines, h.behind, h.skip ch⟩
    case isTrue hroom =>
      refine ⟨h.index, ?_, ?_, ?_⟩
      · exact lineOk_update h.lines ⟨hroom, update_self _ _ _⟩ _
      · intro i hi
        change update st.lines st.lineIndex _ i = zeroLine
        rw [update_of_ne (ne_of_gt hi)]
        exact h.behind i hi
      · have hnone : controlsIn st.lines (st.lineIndex + 1) 0 = [] := rfl
        have hbefore := h.controls
        rw [controlsIn_split _ (Nat.lt_succ_self _), Nat.sub_self, hnone, append_nil] at hbefore
        change (controlsIn (update st.lines st.lineIndex _) 0 (st.lineIndex + 1)).Sublist _
        rw [controlsIn_update (Nat.lt_succ_self _), Nat.sub_self, hnone, append_nil,
          bytes_extend, filter_append, ← append_assoc, fileControls, filter_append]
        exact hbefore.append (filter_singleton_sublist hnl)

theorem loaded_foldl {done : List UInt8} {st : Loading} (h : Loaded done st) (bytes : List UInt8) :
    Loaded (done ++ bytes) (bytes.foldl loadByte st) := by
  induction bytes generalizing done st with
  | nil => simpa using h
  | cons ch bytes ih =>
    have hnext := ih (h.loadByte ch)
    rwa [append_assoc] at hnext

/-- What the file holds that is loaded. -/
def LoadAnswer.bytes : LoadAnswer → List UInt8
  | .data bytes => bytes
  | _ => []

theorem sound_init : Sound init :=
  ⟨⟨Nat.one_pos, by decide, fun _ => lineOk_zeroLine⟩, Nat.one_pos, le_rfl⟩

theorem sound_loadFile {answer : LoadAnswer} {path : List UInt8}
    (hload : loadFile answer init path = some ed) :
    Sound ed ∧ (controls ed).Sublist (fileControls answer.bytes) := by
  cases answer with
  | notFound =>
    rw [loadFile] at hload
    cases hload
    exact ⟨⟨⟨sound_init.count_pos, sound_init.count_le, sound_init.lines⟩, sound_init.line,
      sound_init.col⟩, nil_sublist _⟩
  | failed => cases hload
  | data bytes =>
    have hnew : Loaded [] ⟨fun _ => zeroLine, 0, false⟩ :=
      ⟨by decide, fun _ => lineOk_zeroLine, fun _ _ => rfl, nil_sublist _⟩
    have hloaded := loaded_foldl hnew bytes
    cases hload
    exact ⟨⟨⟨Nat.succ_pos _, hloaded.index, hloaded.lines⟩, Nat.succ_pos _, Nat.zero_le _⟩,
      hloaded.controls⟩

theorem sound_vimOpen {arg : List UInt8} {answer : LoadAnswer}
    (hopen : vimOpen cwd arg answer = some ed) :
    Sound ed ∧ (controls ed).Sublist (fileControls answer.bytes) := by
  obtain ⟨path, -, hpath⟩ := bind_eq_some_iff.1 hopen
  obtain ⟨ed₁, hload, rfl⟩ := map_eq_some_iff.1 hpath
  have hloaded : Sound ed₁ ∧ (controls ed₁).Sublist (fileControls answer.bytes) := by
    split at hload
    · cases hload
      exact ⟨sound_init, nil_sublist _⟩
    · exact sound_loadFile hload
  have hsame : SameLines ed₁ ed₁ := ⟨rfl, rfl⟩
  have hkept := hloaded.1.toShaped.kept hsame
  have hedits := hkept.trans (edits_ensureCursorVisible hkept.sound)
  exact ⟨hedits.sound, hedits.controls.trans hloaded.2⟩

/-- The document of an editor that has loaded a file. -/
structure DocumentOk (file : List UInt8) (ed : VimEditor) : Prop where
  count_pos : 1 ≤ ed.lineCount
  count_le : ed.lineCount ≤ maxLines
  line : ed.cursorLine < ed.lineCount
  col : ed.cursorCol ≤ ed.line.len
  len : ∀ i < ed.lineCount, (ed.lines i).len < maxLineLen
  term : ∀ i < ed.lineCount, (ed.lines i).text (ed.lines i).len = 0
  string : (0 : UInt8) ∉ file → ∀ i < ed.lineCount, ∀ j < (ed.lines i).len, (ed.lines i).text j ≠ 0
  newline : ∀ i < ed.lineCount, (10 : UInt8) ∉ (ed.lines i).bytes
  controls : (controls ed).Sublist (fileControls file)

theorem mem_controls {i : ℕ} (hi : i < ed.lineCount) (hc : c ∈ (ed.lines i).bytes)
    (hcontrol : isControl c = true) : c ∈ controls ed := by
  rw [Vim.controls, controlsIn_split _ hi]
  exact mem_append_right _ (mem_append_left _ (mem_filter.2 ⟨hc, hcontrol⟩))

theorem Sound.documentOk (h : Sound ed) {file : List UInt8}
    (hcontrols : (controls ed).Sublist (fileControls file)) : DocumentOk file ed := by
  have hfile : ∀ i < ed.lineCount, ∀ c ∈ (ed.lines i).bytes, isControl c = true → c ∈ file ∧ c ≠ 10 := by
    intro i hi c hc hcontrol
    have hmem := mem_filter.1 (hcontrols.subset (mem_controls hi hc hcontrol))
    exact ⟨hmem.1, by simpa [hcontrol] using hmem.2⟩
  refine ⟨h.count_pos, h.count_le, h.line, h.col, fun i _ => (h.lines i).len,
    fun i _ => (h.lines i).term, ?_, ?_, hcontrols⟩
  · intro h0 i hi j hj hzero
    have hmem : (0 : UInt8) ∈ (ed.lines i).bytes := by
      refine mem_of_getElem? (i := j) ?_
      rw [VimLine.bytes, getElem?_slice hj, Nat.zero_add, hzero]
    exact h0 (hfile i hi 0 hmem (by decide)).1
  · intro i hi hmem
    exact (hfile i hi 10 hmem (by decide)).2 rfl

/-- The document is in order in every state of a run in which no typed character brings a
control byte. -/
theorem document_invariant {cwd arg : List UInt8} {answer : LoadAnswer}
    (hrun : Reachable (fun ed => vimOpen cwd arg answer = some ed)
      (fun ed ed' => ∃ e, TypesNoControls ed e ∧ step cwd ed e = some ed') ed) :
    DocumentOk answer.bytes ed := by
  have hboth : Sound ed ∧ (controls ed).Sublist (fileControls answer.bytes) := by
    refine hrun.invariant (I := fun ed => Sound ed ∧ (controls ed).Sublist (fileControls answer.bytes))
      (fun ed hopen => sound_vimOpen hopen) ?_
    rintro ed ed' ⟨hsound, hcontrols⟩ ⟨e, htypes, hstep⟩
    have hedits := (edits_step hsound hstep).edits htypes
    exact ⟨hedits.sound, hedits.controls.trans hcontrols⟩
  exact hboth.1.documentOk hboth.2

/-- The calls that write a file are done. -/
def savesAll : SaveAnswers := ⟨true, fun _ => true⟩

/-- The letter e with an accent is typed in insert mode. -/
theorem document_invariant_accent : ∃ ed : VimEditor, ed.line.bytes = [0xC3, 0xA9] ∧
    DocumentOk [] ed :=
  ⟨_, by decide, @document_invariant _ [47] [] .notFound
    (.next (.next (.start rfl) ⟨⟨105, [], savesAll⟩, (fun h => nomatch h), rfl⟩)
      ⟨⟨0xC3, [0xA9], savesAll⟩, by
        rintro - ⟨n, c, hn, -, hget, hcontrol, -⟩
        have hwidth : n + 1 < 2 := hn
        have hzero : n = 0 := by omega
        subst hzero
        cases hget
        exact absurd hcontrol (by decide), rfl⟩)⟩

/-- In insert mode the first byte of a character is followed by a newline. -/
theorem document_takes_newline : ¬ ∀ cwd arg answer ed,
    Reachable (fun ed => vimOpen cwd arg answer = some ed)
      (fun ed ed' => ∃ e, step cwd ed e = some ed') ed → DocumentOk answer.bytes ed := by
  intro h
  have hok := h [47] [] .notFound _ (.next (.next (.start rfl) ⟨⟨105, [], savesAll⟩, rfl⟩)
    ⟨⟨0xC3, [10], savesAll⟩, rfl⟩)
  exact absurd (hok.newline 0 hok.count_pos) (by decide)

end Cleonos.Vim
