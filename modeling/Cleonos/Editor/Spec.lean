import Mathlib.Data.List.GetD
import Cleonos.Editor.Model

/-!
# What the operations do to the line

One lemma for each operation says what it makes of the bytes of the line, and one that the
lengths and positions stay in order.
-/

namespace Cleonos.Editor

open List
open Function (update update_of_ne update_self)
open Shell (copyBytes lineMax length_copyBytes_lt notMem_copyBytes)
open Buffer

/-- The line and the saved line end in a zero byte inside their buffers, and the cursors are
in them. -/
structure Sized (s : EditorState) : Prop where
  len : s.lineLen < lineMax
  cursor : s.cursor ≤ s.lineLen
  term : s.line s.lineLen = 0
  savedLen : s.navSavedLen < lineMax
  savedCursor : s.navSavedCursor ≤ s.navSavedLen
  savedTerm : s.navSavedLine s.navSavedLen = 0

variable {s : EditorState}

@[simp] theorem length_text (s : EditorState) : s.text.length = s.lineLen := length_slice _ _ _

/-! ## Parts of a list -/

theorem take_append_between {α : Type*} (t : List α) {i j : ℕ} (h : i ≤ j) :
    t.take i ++ (t.take j).drop i = t.take j := by
  have htake : t.take i = (t.take j).take i := by rw [take_take, min_eq_left h]
  rw [htake, take_append_drop]

theorem between_append_drop {α : Type*} (t : List α) {i j : ℕ} (h : i ≤ j) :
    (t.take j).drop i ++ t.drop j = t.drop i := by
  refine (append_right_inj (t.take i)).1 ?_
  rw [← append_assoc, take_append_between t h, take_append_drop, take_append_drop]

@[simp] theorem text_selectionClear (s : EditorState) : (selectionClear s).text = s.text := rfl

@[simp] theorem text_historyCancelNav (s : EditorState) : (historyCancelNav s).text = s.text := rfl

theorem sized_selectionClear (h : Sized s) : Sized (selectionClear s) :=
  ⟨h.len, h.cursor, h.term, h.savedLen, h.savedCursor, h.savedTerm⟩

theorem sized_historyCancelNav (h : Sized s) : Sized (historyCancelNav s) :=
  ⟨h.len, h.cursor, h.term, Nat.succ_pos _, le_rfl, rfl⟩

theorem sized_moveTo (h : Sized s) {c : ℕ} (hc : c ≤ s.lineLen) : Sized { s with cursor := c } :=
  ⟨h.len, hc, h.term, h.savedLen, h.savedCursor, h.savedTerm⟩

theorem sized_resetLine (h : Sized s) : Sized (resetLine s) :=
  ⟨Nat.succ_pos _, le_rfl, rfl, h.savedLen, h.savedCursor, h.savedTerm⟩

/-- The part of a text for which the line has room. -/
def fitting (s : EditorState) (text : List UInt8) : List UInt8 :=
  text.take (lineMax - 1 - s.lineLen)

theorem insertText_eq (h : Sized s) {text : List UInt8} (hfit : fitting s text ≠ []) :
    insertText s text = { s with
      line := update (store (moveDown s.line (s.cursor + (fitting s text).length) s.cursor
        (s.lineLen + 1 - s.cursor)) s.cursor (fitting s text))
        (s.lineLen + (fitting s text).length) 0
      lineLen := s.lineLen + (fitting s text).length
      cursor := s.cursor + (fitting s text).length } := by
  have htext : text ≠ [] := by
    rintro rfl
    exact hfit (by simp [fitting])
  have hlen : min text.length (lineMax - 1 - s.lineLen) = (fitting s text).length := by
    rw [fitting, length_take, min_comm]
  have hpos : (fitting s text).length ≠ 0 := by simpa using hfit
  have htake : text.take (fitting s text).length = fitting s text := by
    rw [← hlen, fitting, take_eq_take_iff]
    omega
  rw [insertText, if_neg htext]
  simp only
  rw [min_eq_left h.cursor, hlen, if_neg hpos, htake]

theorem insertText_of_full (h : Sized s) {text : List UInt8} (hfit : fitting s text = []) :
    insertText s text = s := by
  rw [insertText]
  by_cases htext : text = []
  · exact if_pos htext
  · have hlen : min text.length (lineMax - 1 - s.lineLen) = 0 := by
      rw [min_comm, ← length_take]
      exact length_eq_zero_iff.2 hfit
    rw [if_neg htext]
    simp only
    rw [hlen, if_pos rfl, min_eq_left h.cursor]

theorem insertText_frame (s : EditorState) (text : List UInt8) :
    ∃ line lineLen cursor, insertText s text =
      { s with line := line, lineLen := lineLen, cursor := cursor } := by
  rw [insertText]
  split
  · exact ⟨s.line, s.lineLen, s.cursor, rfl⟩
  · simp only
    split
    · exact ⟨s.line, s.lineLen, _, rfl⟩
    · exact ⟨_, _, _, rfl⟩

theorem text_insertText (h : Sized s) (text : List UInt8) :
    (insertText s text).text = s.text.take s.cursor ++ fitting s text ++ s.text.drop s.cursor := by
  by_cases hfit : fitting s text = []
  · rw [insertText_of_full h hfit, hfit, append_nil, take_append_drop]
  have hcur := h.cursor
  rw [insertText_eq h hfit]
  simp only [EditorState.text]
  generalize fitting s text = ins
  have hsplit : s.lineLen + ins.length = s.cursor + ins.length + (s.lineLen - s.cursor) := by omega
  rw [hsplit, slice_add, slice_add, Nat.zero_add, slice_take, slice_drop, min_eq_left hcur,
    Nat.zero_add]
  congr 1
  · congr 1
    · refine slice_congr fun j _ hj => ?_
      rw [update_of_ne (by omega), store_of_lt (by omega), moveDown_apply (by omega),
        if_neg (by omega)]
    · refine slice_eq_of_getElem fun j hj => ?_
      rw [update_of_ne (by omega), store_of_mem (by omega) (by omega)]
      simp
  · refine slice_shift fun j hj => ?_
    rw [update_of_ne (by omega), store_of_ge (by omega), moveDown_apply (by omega),
      if_pos (by omega)]
    congr 1
    omega

theorem cursor_insertText (h : Sized s) (text : List UInt8) :
    (insertText s text).cursor = s.cursor + (fitting s text).length := by
  by_cases hfit : fitting s text = []
  · rw [insertText_of_full h hfit, hfit]
    rfl
  · rw [insertText_eq h hfit]

theorem sized_insertText (h : Sized s) (text : List UInt8) : Sized (insertText s text) := by
  by_cases hfit : fitting s text = []
  · rw [insertText_of_full h hfit]
    exact h
  have hlen := h.len
  have hcur := h.cursor
  have hroom : (fitting s text).length ≤ lineMax - 1 - s.lineLen := by
    rw [fitting, length_take]
    exact min_le_left _ _
  rw [insertText_eq h hfit]
  exact ⟨by simp only [lineMax] at *; omega, by simp only; omega, update_self _ _ _,
    h.savedLen, h.savedCursor, h.savedTerm⟩

variable {start stop : ℕ}

theorem deleteRange_eq (h : Sized s) (hlt : start < stop) (hstop : stop ≤ s.lineLen) :
    deleteRange s start stop = selectionClear { s with
      line := moveUp s.line start stop (s.lineLen + 1 - stop)
      lineLen := s.lineLen - (stop - start)
      cursor := if s.cursor > stop then s.cursor - (stop - start) else min s.cursor start } := by
  have hcur := h.cursor
  have hclamp : min (if s.cursor > stop then s.cursor - (stop - start) else min s.cursor start)
      (s.lineLen - (stop - start)) =
      if s.cursor > stop then s.cursor - (stop - start) else min s.cursor start := by
    split <;> omega
  rw [deleteRange, if_neg (by omega)]
  simp only
  rw [min_eq_left hstop, hclamp]

theorem deleteRange_of_le (s : EditorState) (h : stop ≤ start) :
    deleteRange s start stop = selectionClear s := if_pos (Or.inl h)

theorem deleteRange_frame (s : EditorState) (start stop : ℕ) :
    ∃ line lineLen cursor, deleteRange s start stop =
      selectionClear { s with line := line, lineLen := lineLen, cursor := cursor } := by
  rw [deleteRange]
  split
  · exact ⟨s.line, s.lineLen, s.cursor, rfl⟩
  · exact ⟨_, _, _, rfl⟩

theorem text_deleteRange (h : Sized s) (hle : start ≤ stop) (hstop : stop ≤ s.lineLen) :
    (deleteRange s start stop).text = s.text.take start ++ s.text.drop stop := by
  obtain hlt | rfl := hle.lt_or_eq
  · rw [deleteRange_eq h hlt hstop, text_selectionClear]
    simp only [EditorState.text]
    have hsplit : s.lineLen - (stop - start) = start + (s.lineLen - stop) := by omega
    rw [hsplit, slice_add, slice_take, slice_drop, min_eq_left (by omega), Nat.zero_add,
      Nat.zero_add]
    congr 1
    · exact slice_congr fun j _ hj => moveUp_of_lt (by omega)
    · exact slice_shift fun j hj => moveUp_of_le (by omega) (by omega)
  · rw [deleteRange_of_le s le_rfl, text_selectionClear, take_append_drop]

theorem cursor_deleteRange (h : Sized s) (hle : start ≤ stop) (hstop : stop ≤ s.lineLen) :
    (deleteRange s start stop).cursor =
      if s.cursor > stop then s.cursor - (stop - start) else min s.cursor start := by
  obtain hlt | rfl := hle.lt_or_eq
  · rw [deleteRange_eq h hlt hstop]
    rfl
  · rw [deleteRange_of_le s le_rfl]
    change s.cursor = _
    split <;> omega

theorem sized_deleteRange (h : Sized s) (hle : start ≤ stop)
    (hstop : stop ≤ s.lineLen) : Sized (deleteRange s start stop) := by
  obtain hlt | rfl := hle.lt_or_eq
  · have hcur := h.cursor
    have hlen := h.len
    rw [deleteRange_eq h hlt hstop]
    refine sized_selectionClear ⟨?_, ?_, ?_, h.savedLen, h.savedCursor, h.savedTerm⟩
    · simp only
      omega
    · simp only
      split <;> omega
    · have hcell : moveUp s.line start stop (s.lineLen + 1 - stop) (start + (s.lineLen - stop)) =
          s.line (stop + (s.lineLen - stop)) := moveUp_of_le hle (by omega)
      rw [Nat.add_sub_of_le hstop, h.term] at hcell
      have hidx : s.lineLen - (stop - start) = start + (s.lineLen - stop) := by omega
      simp only [hidx]
      exact hcell
  · rw [deleteRange_of_le s le_rfl]
    exact sized_selectionClear h

theorem slice_eq_between (h : Sized s) (hle : start ≤ stop) (hstop : stop ≤ s.lineLen) :
    slice s.line start (min (stop - start) (lineMax - 1)) = (s.text.take stop).drop start := by
  have hlen := h.len
  rw [EditorState.text, slice_take, slice_drop, min_eq_left hstop, Nat.zero_add,
    min_eq_left (by omega)]

theorem cutRangeToClipboard_eq (h : Sized s) (hlt : start < stop) (hstop : stop ≤ s.lineLen) :
    cutRangeToClipboard s start stop =
      deleteRange { s with clipboard := (s.text.take stop).drop start } start stop := by
  rw [cutRangeToClipboard, if_neg (by omega)]
  simp only
  rw [min_eq_left hstop, slice_eq_between h hlt.le hstop]

theorem bufString_store {f : ℕ → UInt8} {t : List UInt8} (h0 : (0 : UInt8) ∉ t)
    (hlen : t.length < lineMax) : bufString (Function.update (store f 0 t) t.length 0) = t := by
  have hsplit : lineMax = t.length + (1 + (lineMax - 1 - t.length)) := by omega
  have hslice : slice (update (store f 0 t) t.length 0) 0 t.length = t := by
    rw [slice_update_of_le (by omega)]
    exact slice_store_self f t
  have hne : ∀ c ∈ t, decide (c ≠ 0) = true := fun c hc => by
    simpa using ne_of_mem_of_not_mem hc h0
  rw [bufString, hsplit, slice_add, slice_add, hslice, slice_one, Nat.zero_add,
    update_self, cstr, takeWhile_append_of_pos hne]
  simp

theorem loadLine_eq (s : EditorState) (entry : List UInt8) :
    loadLine s entry = { s with
      line := update (store s.line 0 (copyBytes lineMax entry))
        (copyBytes lineMax entry).length 0
      lineLen := (copyBytes lineMax entry).length
      cursor := (copyBytes lineMax entry).length } := by
  rw [loadLine, bufString_store (notMem_copyBytes _ _) (length_copyBytes_lt (by decide) _)]

theorem text_loadLine (s : EditorState) (entry : List UInt8) :
    (loadLine s entry).text = copyBytes lineMax entry := by
  rw [loadLine_eq, EditorState.text]
  simp only
  rw [slice_update_of_le (by omega), slice_store_self]

theorem sized_loadLine (h : Sized s) (entry : List UInt8) : Sized (loadLine s entry) := by
  rw [loadLine_eq]
  exact ⟨length_copyBytes_lt (by decide) _, le_rfl, update_self _ _ _, h.savedLen,
    h.savedCursor, h.savedTerm⟩

theorem restore_eq (h : Sized s) (hnav : s.historyNav = none) :
    historyApplyCurrent s = { s with
      line := s.navSavedLine, lineLen := s.navSavedLen, cursor := s.navSavedCursor } := by
  have hlen := h.savedLen
  rw [historyApplyCurrent, hnav]
  simp only
  rw [min_eq_left (by omega), if_neg (by omega), min_eq_left h.savedCursor]

/-- The tail after the move from `src` to `dst`: to the back, its first bytes are repeated. -/
def movedTail (tail : List UInt8) (dst src : ℕ) : List UInt8 :=
  if dst ≤ src then tail
  else (List.range tail.length).map fun j => tail.getD (j % (dst - src)) 0

theorem mem_of_mem_movedTail {tail : List UInt8} {dst src : ℕ} {c : UInt8}
    (h : c ∈ movedTail tail dst src) : c ∈ tail := by
  rw [movedTail] at h
  split at h
  · exact h
  · obtain ⟨j, hj, rfl⟩ := mem_map.1 h
    have hlt : j % (dst - src) < tail.length :=
      lt_of_le_of_lt (Nat.mod_le _ _) (mem_range.1 hj)
    rw [getD_eq_getElem _ _ hlt]
    exact getElem_mem hlt

theorem slice_moveUp {f : ℕ → UInt8} {dst src n m : ℕ} (hn : n ≤ m) :
    slice (moveUp f dst src m) dst n = movedTail (slice f src n) dst src := by
  rw [movedTail]
  by_cases hle : dst ≤ src
  · rw [if_pos hle]
    exact slice_shift fun j hj => moveUp_of_le hle (by omega)
  · rw [if_neg hle]
    obtain ⟨d, rfl⟩ := Nat.exists_eq_add_of_lt (not_le.1 hle)
    refine ext_getElem (by simp) fun j hj _ => ?_
    have hjn : j < n := by simpa using hj
    have hcell : moveUp f (src + (d + 1)) src m (src + (d + 1) + j) = f (src + j % (d + 1)) :=
      moveUp_of_pos (Nat.succ_pos d) (lt_of_lt_of_le hjn hn)
    have hmod : j % (d + 1) < n := lt_of_le_of_lt (Nat.mod_le _ _) hjn
    have hget : (slice (moveUp f (src + d + 1) src m) (src + d + 1) n)[j]? =
        some (f (src + j % (d + 1))) := by
      rw [getElem?_slice hjn]
      exact congrArg some hcell
    have hget' : (slice f src n).getD (j % (d + 1)) 0 = f (src + j % (d + 1)) := by
      rw [getD_eq_getElem?_getD, getElem?_slice hmod]
      rfl
    have hsub : src + d + 1 - src = d + 1 := by omega
    rw [getElem_map, getElem_range, hsub, hget']
    exact (getElem_eq_iff _).2 hget

theorem replacementLen_le (s : EditorState) (start stop : ℕ) (replacement : List UInt8) :
    replacementLen s start stop replacement ≤ replacement.length := by
  have hle := length_cstr_le replacement
  simp only [replacementLen]
  split
  · split <;> omega
  · exact hle

theorem replacementLen_lt (h : Sized s) (hle : start ≤ stop)
    (hstop : stop ≤ s.lineLen) (replacement : List UInt8) :
    start + replacementLen s start stop replacement + (s.lineLen - stop) < lineMax := by
  have hlen := h.len
  simp only [replacementLen]
  split
  · split <;> omega
  · omega

theorem text_replaceRangeRaw (hle : start ≤ stop) (hstop : stop ≤ s.lineLen)
    (replacement : List UInt8) : (replaceRangeRaw s start stop replacement).text =
      s.text.take start ++ replacement.take (replacementLen s start stop replacement) ++
        movedTail (s.text.drop stop) (start + replacementLen s start stop replacement) stop := by
  have hrepl := replacementLen_le s start stop replacement
  have htake : (replacement.take (replacementLen s start stop replacement)).length =
      replacementLen s start stop replacement := by
    rw [length_take, min_eq_left hrepl]
  rw [replaceRangeRaw, if_neg (by omega)]
  simp only
  rw [text_selectionClear]
  simp only [EditorState.text]
  generalize replacementLen s start stop replacement = n at *
  generalize replacement.take n = repl at *
  rw [slice_update_of_le (by omega), slice_add, slice_add, Nat.zero_add, Nat.zero_add, slice_take,
    slice_drop, min_eq_left (by omega), Nat.zero_add]
  congr 1
  · congr 1
    · refine slice_congr fun j _ hj => ?_
      rw [store_of_lt (by omega), moveUp_of_lt (by omega)]
    · rw [← htake]
      refine slice_eq_of_getElem fun j hj => ?_
      rw [store_of_mem (by omega) (by omega)]
      simp
  · rw [← slice_moveUp (Nat.le_succ _)]
    refine slice_congr fun j hj _ => ?_
    rw [store_of_ge (by omega)]

theorem cursor_replaceRangeRaw (hle : start ≤ stop) (hstop : stop ≤ s.lineLen)
    (replacement : List UInt8) : (replaceRangeRaw s start stop replacement).cursor =
      start + replacementLen s start stop replacement := by
  rw [replaceRangeRaw, if_neg (by omega)]
  rfl

theorem sized_replaceRangeRaw (h : Sized s) (hle : start ≤ stop)
    (hstop : stop ≤ s.lineLen) (replacement : List UInt8) :
    Sized (replaceRangeRaw s start stop replacement) := by
  have hlt := replacementLen_lt h hle hstop replacement
  rw [replaceRangeRaw, if_neg (by omega)]
  exact sized_selectionClear ⟨hlt, Nat.le_add_right _ _, update_self _ _ _, h.savedLen,
    h.savedCursor, h.savedTerm⟩

end Cleonos.Editor
