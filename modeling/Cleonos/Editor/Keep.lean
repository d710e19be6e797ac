import Cleonos.Editor.Input

/-!
# Texts that editing keeps

A class of texts, and of positions at which they may be cut, that is closed under what editing
does: as long as what is put into the line is in the class, so is the line, with everything
that is kept for later, and the cursor is at such a position.
-/

namespace Cleonos.Editor

open List
open Shell (isSpace copyBytes lineMax pathMax bar gt)

/-- A class of texts and of the positions at which they may be cut. -/
structure TextClass where
  Good : List UInt8 → Prop
  Cut : List UInt8 → ℕ → Prop
  nil : Good []
  append : ∀ {s t}, Good s → Good t → Good (s ++ t)
  ascii : ∀ {c}, isPrintable c = true → c < 0x80 → Good [c]
  split : ∀ {s t c}, Good (s ++ c :: t) → c < 0x80 → Good s ∧ Good [c] ∧ Good t
  take : ∀ {t i}, Good t → Cut t i → Good (t.take i)
  drop : ∀ {t i}, Good t → Cut t i → Good (t.drop i)
  between : ∀ {t i j}, Good t → Cut t i → Cut t j → i ≤ j → Good ((t.take j).drop i)
  cut_append : ∀ {s t}, Good s → Good t → Cut (s ++ t) s.length
  cut_prev : ∀ {t i}, Good t → Cut t i → Cut t (utf8PrevBoundary t i)
  cut_next : ∀ {t i}, Good t → Cut t i → Cut t (utf8NextBoundary t i)

variable {K : TextClass} {s : EditorState}

namespace TextClass

open List

variable {t : List UInt8} {i : ℕ}

theorem cut_zero (h : K.Good t) : K.Cut t 0 := by
  simpa using K.cut_append K.nil h

theorem cut_length (h : K.Good t) : K.Cut t t.length := by
  simpa using K.cut_append h K.nil

theorem cut_of_eq {a b : List UInt8} (ha : K.Good a) (hb : K.Good b) (ht : t = a ++ b)
    (hi : i = a.length) : K.Cut t i := by
  rw [ht, hi]
  exact K.cut_append ha hb

theorem cstr (h : K.Good t) : K.Good (Cleonos.cstr t) := by
  by_cases h0 : (0 : UInt8) ∈ t
  · obtain ⟨a, b, rfl, ha⟩ := eq_append_cons_of_mem h0
    have hcstr : Cleonos.cstr (a ++ 0 :: b) = a := by
      rw [Cleonos.cstr, takeWhile_append_of_pos fun c hc => by
        simpa using ne_of_mem_of_not_mem hc ha]
      simp
    rw [hcstr]
    exact (K.split h (by decide)).1
  · rwa [cstr_of_notMem h0]

theorem cut_ascii (h : K.Good t) (hi : i < t.length) (hc : t.getD i 0 < 0x80) :
    K.Cut t i ∧ K.Cut t (i + 1) := by
  have hsplit : t = t.take i ++ t.getD i 0 :: t.drop (i + 1) := by
    rw [getD_eq_getElem _ _ hi, cons_getElem_drop_succ, take_append_drop]
  have hlen : i = (t.take i).length := by
    rw [length_take, min_eq_left (by omega)]
  have hgood := K.split (hsplit ▸ h) hc
  constructor
  · exact cut_of_eq hgood.1 (K.append hgood.2.1 hgood.2.2) hsplit hlen
  · refine cut_of_eq (K.append hgood.1 hgood.2.1) hgood.2.2 ?_ ?_
    · rw [append_assoc, singleton_append, ← hsplit]
    · rw [length_append, ← hlen, length_singleton]

end TextClass

/-! ## The invariant -/

/-- The texts of the editor are in the class, and the cursors at positions to cut. -/
structure Keeps (K : TextClass) (s : EditorState) : Prop where
  sized : Sized s
  text : K.Good s.text
  cursor : K.Cut s.text s.cursor
  saved : K.Good s.savedText
  savedCursor : K.Cut s.savedText s.navSavedCursor
  clipboard : K.Good s.clipboard

/-- The ends of what is selected are positions to cut. -/
def SelectionCut (K : TextClass) (s : EditorState) : Prop :=
  ∀ start stop, selectionRange s = some (start, stop) → K.Cut s.text start ∧ K.Cut s.text stop

variable {input : List UInt8} {start stop : ℕ} {dirs : Dirs}

theorem selectionRange_le (h : selectionRange s = some (start, stop)) :
    start < stop ∧ stop ≤ s.lineLen := by
  simp only [selectionRange] at h
  split at h
  · cases h
  split at h
  · cases h
  · simp only [Option.some.injEq, Prod.mk.injEq] at h
    omega

namespace Keeps

open List

section

variable (h : Keeps K s)
include h

theorem selectionClear : Keeps K (selectionClear s) :=
  ⟨sized_selectionClear h.sized, h.text, h.cursor, h.saved, h.savedCursor, h.clipboard⟩

theorem historyCancelNav : Keeps K (historyCancelNav s) :=
  ⟨sized_historyCancelNav h.sized, h.text, h.cursor, K.nil, TextClass.cut_zero K.nil, h.clipboard⟩

theorem moveTo {c : ℕ} (hc : c ≤ s.lineLen) (hcut : K.Cut s.text c) :
    Keeps K { s with cursor := c } :=
  ⟨sized_moveTo h.sized hc, h.text, hcut, h.saved, h.savedCursor, h.clipboard⟩

theorem resetLine : Keeps K (resetLine s) :=
  ⟨sized_resetLine h.sized, K.nil, TextClass.cut_zero K.nil, h.saved, h.savedCursor, h.clipboard⟩

theorem frame (cwd : List UInt8) (history : List (List UInt8)) (nav : Option ℕ)
    (start stop : ℕ) (active : Bool) (anchor : ℕ) (valid : Bool) :
    Keeps K { s with
      cwd := cwd, history := history, historyNav := nav, selStart := start, selEnd := stop
      selActive := active, selAnchor := anchor, selAnchorValid := valid } :=
  ⟨⟨h.sized.len, h.sized.cursor, h.sized.term, h.sized.savedLen, h.sized.savedCursor,
    h.sized.savedTerm⟩, h.text, h.cursor, h.saved, h.savedCursor, h.clipboard⟩

theorem withClipboard {t : List UInt8} (ht : K.Good t) :
    Keeps K { s with clipboard := t } :=
  ⟨⟨h.sized.len, h.sized.cursor, h.sized.term, h.sized.savedLen, h.sized.savedCursor,
    h.sized.savedTerm⟩, h.text, h.cursor, h.saved, h.savedCursor, ht⟩

theorem cut_zero : K.Cut s.text 0 := TextClass.cut_zero h.text

theorem cut_length : K.Cut s.text s.lineLen := by
  simpa using TextClass.cut_length h.text

end

end Keeps

section

variable (h : Keeps K s)
include h

theorem keeps_deleteRange (hle : start ≤ stop)
    (hstop : stop ≤ s.lineLen) (ha : K.Cut s.text start) (hb : K.Cut s.text stop) :
    Keeps K (deleteRange s start stop) := by
  have htext := text_deleteRange h.sized hle hstop
  have htake := K.take h.text ha
  have hdrop := K.drop h.text hb
  refine ⟨sized_deleteRange h.sized hle hstop, ?_, ?_, ?_, ?_, ?_⟩
  · rw [htext]
    exact K.append htake hdrop
  · rw [cursor_deleteRange h.sized hle hstop, htext]
    have hcur := h.sized.cursor
    have hlen := length_text s
    split
    · -- the cursor was behind the range
      refine TextClass.cut_of_eq (K.append htake (K.between h.text hb h.cursor (by omega)))
        (K.drop h.text h.cursor) ?_ ?_
      · rw [append_assoc, between_append_drop _ (by omega)]
      · simp only [length_append, length_take, length_drop]
        omega
    by_cases hlt : s.cursor < start
    · refine TextClass.cut_of_eq (K.take h.text h.cursor)
        (K.append (K.between h.text h.cursor ha hlt.le) hdrop) ?_ ?_
      · rw [← append_assoc, take_append_between _ hlt.le]
      · rw [length_take]
        omega
    · refine TextClass.cut_of_eq htake hdrop rfl ?_
      rw [length_take]
      omega
  all_goals
    obtain ⟨line, lineLen, cursor, heq⟩ := deleteRange_frame s start stop
    rw [heq]
  · exact h.saved
  · exact h.savedCursor
  · exact h.clipboard

theorem keeps_deleteSelection (hsel : SelectionCut K s) :
    Keeps K (deleteSelection s).2 := by
  rw [deleteSelection]
  cases hrange : selectionRange s with
  | none => exact h
  | some r =>
    obtain ⟨hlt, hle⟩ := selectionRange_le hrange
    obtain ⟨ha, hb⟩ := hsel r.1 r.2 hrange
    exact keeps_deleteRange h hlt.le hle ha hb

theorem keeps_copySelection (hsel : SelectionCut K s) :
    Keeps K (copySelection s) := by
  rw [copySelection]
  cases hrange : selectionRange s with
  | none => exact h
  | some r =>
    obtain ⟨hlt, hle⟩ := selectionRange_le hrange
    obtain ⟨ha, hb⟩ := hsel r.1 r.2 hrange
    refine h.withClipboard ?_
    rw [slice_eq_between h.sized hlt.le hle]
    exact K.between h.text ha hb hlt.le

theorem keeps_cutRangeToClipboard (hlt : start < stop)
    (hstop : stop ≤ s.lineLen) (ha : K.Cut s.text start) (hb : K.Cut s.text stop) :
    Keeps K (cutRangeToClipboard s start stop) := by
  rw [cutRangeToClipboard_eq h.sized hlt hstop]
  exact keeps_deleteRange (h.withClipboard (K.between h.text ha hb hlt.le)) hlt.le hstop ha hb

theorem keeps_insertText {t : List UInt8} (ht : K.Good (fitting s t)) :
    Keeps K (insertText s t) := by
  have htext := text_insertText h.sized t
  have hbefore := K.append (K.take h.text h.cursor) ht
  have hafter := K.drop h.text h.cursor
  have hcur := h.sized.cursor
  have hlen := length_text s
  obtain ⟨line, lineLen, cursor, heq⟩ := insertText_frame s t
  refine ⟨sized_insertText h.sized t, ?_, ?_, ?_, ?_, ?_⟩
  · rw [htext]
    exact K.append hbefore hafter
  · rw [cursor_insertText h.sized]
    refine TextClass.cut_of_eq hbefore hafter htext ?_
    simp only [length_append, length_take]
    omega
  · rw [heq]
    exact h.saved
  · rw [heq]
    exact h.savedCursor
  · rw [heq]
    exact h.clipboard

theorem keeps_loadLine {entry : List UInt8}
    (hentry : K.Good (copyBytes lineMax entry)) : Keeps K (loadLine s entry) := by
  have htext := text_loadLine s entry
  refine ⟨sized_loadLine h.sized entry, htext ▸ hentry, ?_, ?_, ?_, ?_⟩
  · rw [htext, loadLine_eq]
    exact TextClass.cut_length hentry
  all_goals rw [loadLine_eq]
  · exact h.saved
  · exact h.savedCursor
  · exact h.clipboard

theorem keeps_historyApplyCurrent
    (hentry : ∀ nav, s.historyNav = some nav → K.Good (copyBytes lineMax (s.history.getD nav []))) :
    Keeps K (historyApplyCurrent s) := by
  cases hnav : s.historyNav with
  | none =>
    rw [restore_eq h.sized hnav]
    have hsized := h.sized
    exact ⟨⟨hsized.savedLen, hsized.savedCursor, hsized.savedTerm, hsized.savedLen,
      hsized.savedCursor, hsized.savedTerm⟩, h.saved, h.savedCursor, h.saved, h.savedCursor,
      h.clipboard⟩
  | some nav =>
    rw [historyApplyCurrent, hnav]
    exact keeps_loadLine h (hentry nav hnav)

end

/-- What is put in and what becomes of the tail is in the class. -/
structure Replaces (K : TextClass) (s : EditorState) (start stop : ℕ) (replacement : List UInt8) :
    Prop where
  good : K.Good (replacement.take (replacementLen s start stop replacement))
  tail : K.Good (movedTail (s.text.drop stop)
    (start + replacementLen s start stop replacement) stop)

theorem keeps_replaceRangeRaw (h : Keeps K s) (hle : start ≤ stop)
    (hstop : stop ≤ s.lineLen) (ha : K.Cut s.text start) {replacement : List UInt8}
    (hrepl : Replaces K s start stop replacement) :
    Keeps K (replaceRangeRaw s start stop replacement) := by
  have htext := text_replaceRangeRaw hle hstop replacement
  have hbefore := K.append (K.take h.text ha) hrepl.good
  have hlen := length_text s
  refine ⟨sized_replaceRangeRaw h.sized hle hstop replacement, ?_, ?_, ?_, ?_, ?_⟩
  · rw [htext]
    exact K.append hbefore hrepl.tail
  · rw [cursor_replaceRangeRaw hle hstop]
    refine TextClass.cut_of_eq hbefore hrepl.tail htext ?_
    have hrlen := replacementLen_le s start stop replacement
    simp only [length_append, length_take]
    omega
  all_goals rw [replaceRangeRaw, if_neg (by omega)]
  · exact h.saved
  · exact h.savedCursor
  · exact h.clipboard

theorem cut_backWhile {t : List UInt8} (ht : K.Good t) (p : UInt8 → Bool) {fuel pos : ℕ}
    (h : K.Cut t pos) : K.Cut t (backWhile p t fuel pos) := by
  induction fuel generalizing pos with
  | zero => exact h
  | succ fuel ih =>
    rw [backWhile]
    split
    · exact h
    simp only
    split
    · exact h
    · exact ih (K.cut_prev ht h)

theorem cut_prevWordBoundary {t : List UInt8} (ht : K.Good t) {pos : ℕ} (hpos : pos ≤ t.length)
    (h : K.Cut t pos) : K.Cut t (prevWordBoundary t pos) := by
  rw [prevWordBoundary, min_eq_left hpos]
  exact cut_backWhile ht _ (cut_backWhile ht _ h)

theorem backOverConts_le (t : List UInt8) (pos : ℕ) : backOverConts t pos ≤ pos := by
  induction pos with
  | zero => exact le_rfl
  | succ pos ih =>
    rw [backOverConts]
    split
    · exact ih.trans (Nat.le_succ _)
    · exact le_rfl

theorem utf8PrevBoundary_le (t : List UInt8) (pos : ℕ) : utf8PrevBoundary t pos ≤ pos := by
  rw [utf8PrevBoundary]
  split
  · omega
  · have hle := backOverConts_le t (min pos t.length - 1)
    omega

theorem utf8NextBoundary_le (t : List UInt8) (pos : ℕ) : utf8NextBoundary t pos ≤ t.length := by
  rw [utf8NextBoundary]
  split
  · exact le_rfl
  · simp only
    split <;> omega

theorem le_utf8NextBoundary {t : List UInt8} {pos : ℕ} (h : pos ≤ t.length) :
    pos ≤ utf8NextBoundary t pos := by
  rw [utf8NextBoundary]
  split
  · exact h
  · simp only
    split <;> omega

theorem backOverSpaces_le (t : List UInt8) (pos : ℕ) : backOverSpaces t pos ≤ pos := by
  induction pos with
  | zero => exact le_rfl
  | succ pos ih =>
    rw [backOverSpaces]
    split
    · exact ih.trans (Nat.le_succ _)
    · exact le_rfl

theorem lt_of_isDelim {c : UInt8} (h : isDelim c = true) : c < 0x80 := by
  simp only [isDelim, Shell.isSpace, Bool.or_eq_true, beq_iff_eq] at h
  rcases h with ((((((((h | h) | h) | h) | h) | h) | h) | h) | h) <;> subst h <;> decide

theorem tokenStart_le (t : List UInt8) (pos : ℕ) : tokenStart t pos ≤ pos := by
  induction pos with
  | zero => exact le_rfl
  | succ pos ih =>
    rw [tokenStart]
    split
    · exact le_rfl
    · exact ih.trans (Nat.le_succ _)

theorem cut_tokenStart {t : List UInt8} (ht : K.Good t) {pos : ℕ} (hpos : pos ≤ t.length) :
    K.Cut t (tokenStart t pos) := by
  induction pos with
  | zero => exact TextClass.cut_zero ht
  | succ pos ih =>
    rw [tokenStart]
    split
    case isTrue h => exact (TextClass.cut_ascii ht (by omega) (lt_of_isDelim h)).2
    case isFalse => exact ih (by omega)

theorem beforeText_frame (s : EditorState) :
    (beforeText s).clipboard = s.clipboard ∧ (beforeText s).history = s.history := by
  rw [beforeText, deleteSelection]
  cases selectionRange (historyCancelNav s) with
  | none => exact ⟨rfl, rfl⟩
  | some r =>
    obtain ⟨line, lineLen, cursor, heq⟩ := deleteRange_frame (historyCancelNav s) r.1 r.2
    simp only [heq]
    exact ⟨rfl, rfl⟩

theorem keeps_beforeText (h : Keeps K s) (hsel : SelectionCut K s) : Keeps K (beforeText s) :=
  keeps_deleteSelection h.historyCancelNav hsel

theorem keeps_removeContinuationMarker (h : Keeps K s) : Keeps K (removeContinuationMarker s) := by
  rw [removeContinuationMarker]
  simp only
  split
  case isFalse => exact h
  case isTrue hpos =>
    have hle := backOverSpaces_le s.text s.lineLen
    have hlen := length_text s
    obtain ⟨hpos, hchar⟩ := hpos
    obtain ⟨ha, hb⟩ := TextClass.cut_ascii (i := backOverSpaces s.text s.lineLen - 1) h.text
      (by omega) (hchar ▸ by decide)
    rw [Nat.sub_add_cancel hpos] at hb
    have hdel := keeps_deleteRange h (Nat.sub_le _ _) hle ha hb
    exact hdel.moveTo le_rfl hdel.cut_length

theorem good_space (n : ℕ) : K.Good (([32] : List UInt8).take n) := by
  cases n with
  | zero => exact K.nil
  | succ n =>
    rw [take_of_length_le (by simp)]
    exact K.ascii (c := 32) (by decide) (by decide)

theorem keeps_historyPush (h : Keeps K s) (line : List UInt8) : Keeps K (historyPush s line) := by
  rw [historyPush]
  split
  · exact h.historyCancelNav
  split
  · exact h.historyCancelNav
  · exact (h.frame _ _ _ _ _ _ _ _).historyCancelNav

theorem keeps_pressEnter (h : Keeps K s) : Keeps K (pressEnter s).1 := by
  rw [pressEnter]
  split
  · have hmark := keeps_removeContinuationMarker h.historyCancelNav.selectionClear
    simp only
    split
    · exact keeps_insertText hmark (good_space _)
    · exact hmark
  · -- the byte that ends the line is written once more
    have hline : Function.update s.line s.lineLen 0 = s.line := by
      rw [Function.update_eq_self_iff]
      exact h.sized.term.symm
    simp only [hline]
    exact (keeps_historyPush h _).resetLine

theorem keeps_pressPaste (h : Keeps K s) (hsel : SelectionCut K s)
    (hclip : s.clipboard.length > 0 → K.Good (fitting (beforeText s) s.clipboard)) :
    Keeps K (pressPaste s) := by
  rw [pressPaste]
  split
  case isFalse => exact h
  case isTrue hpos =>
    have hfit := hclip hpos
    rw [← (beforeText_frame s).1] at hfit
    exact keeps_insertText (keeps_beforeText h hsel) hfit

theorem keeps_pressMove (h : Keeps K s) {c : ℕ} (hc : c ≤ s.lineLen) (hcut : K.Cut s.text c) :
    Keeps K (pressMove s c) := h.selectionClear.moveTo hc hcut

theorem selectionUpdateFromAnchor_frame (s : EditorState) :
    ∃ active start stop, selectionUpdateFromAnchor s =
      { s with selActive := active, selStart := start, selEnd := stop } := by
  rw [selectionUpdateFromAnchor]
  split
  · exact ⟨_, s.selStart, s.selEnd, rfl⟩
  simp only
  split
  · exact ⟨_, _, _, rfl⟩
  split
  · exact ⟨_, _, _, rfl⟩
  · exact ⟨_, _, _, rfl⟩

theorem keeps_pressShift (h : Keeps K s) {c : ℕ} (hc : c ≤ s.lineLen) (hcut : K.Cut s.text c) :
    Keeps K (pressShift s c) := by
  have hmove := h.moveTo hc hcut
  rw [pressShift]
  split
  · obtain ⟨active, start, stop, heq⟩ := selectionUpdateFromAnchor_frame
      { s with selAnchor := s.cursor, selAnchorValid := true, cursor := c }
    simp only [heq]
    exact hmove.frame _ _ _ _ _ _ _ _
  · obtain ⟨active, start, stop, heq⟩ := selectionUpdateFromAnchor_frame { s with cursor := c }
    simp only [heq]
    exact hmove.frame _ _ _ _ _ _ _ _

theorem text_pressShift (s : EditorState) (c : ℕ) : (pressShift s c).text = s.text := by
  rw [pressShift]
  split
  · obtain ⟨active, start, stop, heq⟩ := selectionUpdateFromAnchor_frame
      { s with selAnchor := s.cursor, selAnchorValid := true, cursor := c }
    simp only [heq]
    rfl
  · obtain ⟨active, start, stop, heq⟩ := selectionUpdateFromAnchor_frame { s with cursor := c }
    simp only [heq]
    rfl

theorem cursor_pressShift (s : EditorState) (c : ℕ) : (pressShift s c).cursor = c := by
  rw [pressShift]
  split
  · obtain ⟨active, start, stop, heq⟩ := selectionUpdateFromAnchor_frame
      { s with selAnchor := s.cursor, selAnchorValid := true, cursor := c }
    simp only [heq]
  · obtain ⟨active, start, stop, heq⟩ := selectionUpdateFromAnchor_frame { s with cursor := c }
    simp only [heq]

/-! ## What a step puts in -/

/-- What completion puts in for the token: the only match, or what several have in common. -/
def offered (dirs : Dirs) (s : EditorState) : Option (List UInt8) :=
  match completionMatches dirs s with
  | [] => none
  | [item] => some item
  | items =>
    if (commonPrefix items).length > (findCompletionToken s).token.length then
      some (commonPrefix items)
    else none

/-- The line with the only match in it. -/
def withMatch (s : EditorState) (item : List UInt8) : EditorState :=
  replaceRangeRaw s (findCompletionToken s).start (findCompletionToken s).stop item

/-- A space is put behind the only match. -/
def AddsSpace (s : EditorState) (item : List UInt8) : Prop :=
  item ≠ [] ∧ item.getLast? ≠ some LexicalPath.slash ∧ (withMatch s item).lineLen + 1 < lineMax

/-- Completion puts in what is in the class, and leaves a tail that is. -/
structure TabAdmits (K : TextClass) (dirs : Dirs) (s : EditorState) : Prop where
  text : ∀ text ∈ offered dirs s,
    Replaces K s (findCompletionToken s).start (findCompletionToken s).stop text
  space : ∀ item, completionMatches dirs s = [item] → AddsSpace s item →
    Replaces K (withMatch s item) (withMatch s item).cursor (withMatch s item).cursor [32]

/-- The entry of the history that the key up shows. -/
def entryUp (s : EditorState) : Option (List UInt8) :=
  if s.history.length = 0 then none else some (s.history.getD (navUp s) [])

/-- The entry of the history that the key down shows. -/
def entryDown (s : EditorState) : Option (List UInt8) :=
  match s.historyNav with
  | none => none
  | some nav => if nav + 1 < s.history.length then some (s.history.getD (nav + 1) []) else none

/-- The entry of the history that a search with this input loads. -/
def entryFound (s : EditorState) (input : List UInt8) : Option (List UInt8) :=
  match searchQuery [] input with
  | some (some query, _) => if query = [] then none else searchHistory s query
  | _ => none

theorem mem_of_entryFound {entry : List UInt8} (h : entry ∈ entryFound s input) :
    entry ∈ s.history := by
  rw [entryFound] at h
  split at h
  · split at h
    · cases h
    · exact mem_reverse.1 (mem_of_find?_eq_some h)
  · cases h

/-- The character that is put into the line. -/
def typed (s : EditorState) (ch : UInt8) (input : List UInt8) : Option (List UInt8) :=
  if (beforeText s).lineLen + 1 ≥ lineMax then none
  else
    match collectText ch input with
    | some (bytes, _) => if (beforeText s).lineLen + bytes.length ≥ lineMax then none else some bytes
    | none => none

/-- What a step puts into the line is in the class. -/
def Admits (K : TextClass) (s : EditorState) : Event → Prop
  | .start _ => True
  | .key dirs ch input =>
    match keyOf ch with
    | .paste => s.clipboard.length > 0 → K.Good (fitting (beforeText s) s.clipboard)
    | .reverseSearch => ∀ entry ∈ entryFound s input, K.Good (copyBytes lineMax entry)
    | .up => ∀ entry ∈ entryUp s, K.Good (copyBytes lineMax entry)
    | .down => ∀ entry ∈ entryDown s, K.Good (copyBytes lineMax entry)
    | .tab => TabAdmits K dirs s
    | .text => ∀ bytes ∈ typed s ch input, K.Good bytes
    | _ => True

theorem findCompletionToken_le (s : EditorState) :
    (findCompletionToken s).start ≤ (findCompletionToken s).stop ∧
      (findCompletionToken s).stop ≤ s.lineLen :=
  ⟨tokenStart_le _ _, min_le_right _ _⟩

section

variable (h : Keeps K s)
include h

theorem keeps_withMatch {text : List UInt8}
    (hrepl : Replaces K s (findCompletionToken s).start (findCompletionToken s).stop text) :
    Keeps K (withMatch s text) := by
  obtain ⟨hle, hstop⟩ := findCompletionToken_le s
  have hcut : K.Cut s.text (findCompletionToken s).start :=
    cut_tokenStart h.text (by rw [length_text]; exact min_le_right _ _)
  exact keeps_replaceRangeRaw h hle hstop hcut hrepl

theorem keeps_linenoiseComplete (hadm : TabAdmits K dirs s) :
    Keeps K (linenoiseComplete dirs s).1 := by
  have htext := hadm.text
  rw [offered] at htext
  rw [linenoiseComplete]
  split
  case h_1 => exact h
  case h_2 item hitems =>
    rw [hitems] at htext
    have hone := keeps_withMatch h (htext item rfl)
    simp only
    split
    case isTrue hspace =>
      exact keeps_replaceRangeRaw hone le_rfl hone.sized.cursor hone.cursor
        (hadm.space item hitems hspace)
    case isFalse => exact hone
  case h_3 items hnil hmany =>
    simp only
    split
    case isTrue hlong =>
      refine keeps_withMatch h (htext _ ?_)
      split
      case h_1 heq => exact absurd heq hnil
      case h_2 heq => exact absurd heq (hmany _)
      case h_3 => rw [if_pos hlong]; rfl
    case isFalse => exact h

theorem keeps_pressTab (hadm : TabAdmits K dirs s) : Keeps K (pressTab dirs s) := by
  rw [pressTab]
  split
  · exact (keeps_linenoiseComplete h hadm).historyCancelNav
  · exact keeps_linenoiseComplete h hadm

theorem keeps_historyUp
    (hentry : ∀ entry ∈ entryUp s, K.Good (copyBytes lineMax entry)) : Keeps K (historyUp s) := by
  have hsized := h.sized
  rw [historyUp]
  split
  case isTrue => exact h
  case isFalse hne =>
    have hgood := hentry (s.history.getD (navUp s) []) (by rw [entryUp, if_neg hne]; rfl)
    cases hnav : s.historyNav with
    | none =>
      refine keeps_historyApplyCurrent ⟨⟨hsized.len, hsized.cursor, hsized.term, hsized.len,
        hsized.cursor, hsized.term⟩, h.text, h.cursor, h.text, h.cursor, h.clipboard⟩ ?_
      rintro nav ⟨⟩
      exact hgood
    | some nav =>
      refine keeps_historyApplyCurrent (h.frame _ _ _ _ _ _ _ _) ?_
      rintro nav ⟨⟩
      exact hgood

theorem keeps_historyDown
    (hentry : ∀ entry ∈ entryDown s, K.Good (copyBytes lineMax entry)) :
    Keeps K (historyDown s) := by
  rw [historyDown]
  rw [entryDown] at hentry
  cases hnav : s.historyNav with
  | none => exact h
  | some nav =>
    rw [hnav] at hentry
    refine keeps_historyApplyCurrent (h.frame _ _ _ _ _ _ _ _) ?_
    simp only
    intro nav' hnav'
    split at hnav'
    case isTrue hlt =>
      cases hnav'
      exact hentry _ (by simp only [if_pos hlt]; rfl)
    case isFalse => cases hnav'

theorem keeps_pressKillBefore : Keeps K (pressKillBefore s) := by
  rw [pressKillBefore]
  split
  · exact keeps_cutRangeToClipboard h.historyCancelNav ‹_› h.sized.cursor h.cut_zero h.cursor
  · exact h

theorem keeps_pressKillAfter : Keeps K (pressKillAfter s) := by
  rw [pressKillAfter]
  split
  · exact keeps_cutRangeToClipboard h.historyCancelNav ‹_› le_rfl h.cursor h.cut_length
  · exact h

theorem keeps_pressKillWordBefore : Keeps K (pressKillWordBefore s) := by
  have hcut : K.Cut s.text (prevWordBoundary s.text s.cursor) :=
    cut_prevWordBoundary h.text (by rw [length_text]; exact h.sized.cursor) h.cursor
  rw [pressKillWordBefore]
  split
  · simp only
    split
    · exact keeps_cutRangeToClipboard h.historyCancelNav ‹_› h.sized.cursor hcut h.cursor
    · exact h
  · exact h

theorem keeps_deleteNext :
    Keeps K (deleteRange s s.cursor (utf8NextBoundary s.text s.cursor)) := by
  have hcur : s.cursor ≤ s.text.length := by
    rw [length_text]
    exact h.sized.cursor
  have hle := le_utf8NextBoundary hcur
  have hnext := utf8NextBoundary_le s.text s.cursor
  rw [length_text] at hnext
  exact keeps_deleteRange h hle hnext h.cursor (K.cut_next h.text h.cursor)

theorem keeps_deletePrev :
    Keeps K (deleteRange s (utf8PrevBoundary s.text s.cursor) s.cursor) :=
  keeps_deleteRange h (utf8PrevBoundary_le _ _) h.sized.cursor (K.cut_prev h.text h.cursor) h.cursor

theorem keeps_pressEofOrDelete : Keeps K (pressEofOrDelete s).1 := by
  rw [pressEofOrDelete]
  split
  · exact h.resetLine
  split
  · exact keeps_deleteNext h.historyCancelNav
  · exact h

theorem keeps_pressBackspace (hsel : SelectionCut K s) :
    Keeps K (pressBackspace s) := by
  rw [pressBackspace]
  simp only
  split
  · exact (keeps_deleteSelection h hsel).historyCancelNav
  split
  · exact keeps_deletePrev h.historyCancelNav.selectionClear
  · exact h

theorem keeps_pressDelete (hsel : SelectionCut K s) : Keeps K (pressDelete s) := by
  rw [pressDelete]
  simp only
  split
  · exact (keeps_deleteSelection h hsel).historyCancelNav
  split
  · exact keeps_deleteNext h.historyCancelNav.selectionClear
  · exact h

end

theorem pressText_eq {ch : UInt8} {input : List UInt8} {r : Round}
    (hround : pressText s ch input = some r) :
    r.state = match typed s ch input with
      | none => beforeText s
      | some bytes => insertText (beforeText s) bytes := by
  rw [pressText] at hround
  rw [typed]
  by_cases hfull : (beforeText s).lineLen + 1 ≥ lineMax
  · rw [if_pos hfull] at hround ⊢
    cases hround
    rfl
  rw [if_neg hfull] at hround ⊢
  cases hcollect : collectText ch input with
  | none =>
    rw [hcollect] at hround
    cases hround
  | some c =>
    rw [hcollect, Option.bind_some] at hround
    simp only
    by_cases hlong : (beforeText s).lineLen + c.1.length ≥ lineMax
    · rw [if_pos hlong] at hround ⊢
      cases hround
      rfl
    · rw [if_neg hlong] at hround ⊢
      cases hround
      rfl

theorem fitting_typed {ch : UInt8} {bytes : List UInt8} (h : typed s ch input = some bytes) :
    fitting (beforeText s) bytes = bytes := by
  rw [typed] at h
  split at h
  · cases h
  split at h
  · split at h
    · cases h
    · cases h
      exact take_of_length_le (by omega)
  · cases h

theorem keeps_pressText (h : Keeps K s) (hsel : SelectionCut K s) {ch : UInt8}
    {input : List UInt8} {r : Round} (hround : pressText s ch input = some r)
    (hgood : ∀ bytes ∈ typed s ch input, K.Good bytes) : Keeps K r.state := by
  have hbefore := keeps_beforeText h hsel
  rw [pressText_eq hround]
  cases htyped : typed s ch input with
  | none => exact hbefore
  | some bytes =>
    refine keeps_insertText hbefore ?_
    rw [fitting_typed htyped]
    exact hgood bytes htyped

theorem reverseSearch_eq {input : List UInt8} {r : EditorState × List UInt8}
    (hround : linenoiseReverseSearch s input = some r) :
    r.1 = match entryFound s input with
      | none => s
      | some entry => loadLine s entry := by
  rw [linenoiseReverseSearch] at hround
  rw [entryFound]
  cases hquery : searchQuery [] input with
  | none =>
    rw [hquery] at hround
    cases hround
  | some q =>
    rw [hquery, Option.map_some, Option.some.injEq] at hround
    obtain ⟨query, rest⟩ := q
    cases query with
    | none =>
      rw [← hround]
    | some query =>
      rw [← hround]
      simp only [loadFound]
      split
      · rfl
      · split <;> simp_all

theorem keeps_readKey (h : Keeps K s) (hsel : SelectionCut K s) {ch : UInt8} (hadm : Admits K s (.key dirs ch input)) {r : Round}
    (hround : readKey dirs s ch input = some r) : Keeps K r.state := by
  have hcur := h.sized.cursor
  have hlen := length_text s
  have hprev := utf8PrevBoundary_le s.text s.cursor
  have hnext := utf8NextBoundary_le s.text s.cursor
  have hcutPrev := K.cut_prev h.text h.cursor
  have hcutNext := K.cut_next h.text h.cursor
  rw [readKey] at hround
  rw [Admits] at hadm
  cases hkey : keyOf ch
  all_goals rw [hkey] at hround hadm
  case text => exact keeps_pressText h hsel hround hadm
  case reverseSearch =>
    obtain ⟨found, hfound, hgo⟩ := Option.bind_eq_some_iff.1 hround
    cases hgo
    simp only [reverseSearch_eq hfound]
    cases hentry : entryFound s input with
    | none => exact h
    | some entry => exact keeps_loadLine h (hadm entry hentry)
  all_goals obtain rfl := Option.some.inj hround
  case ret => exact h
  case newline => exact keeps_pressEnter h
  case selectAll =>
    rw [selectionSelectAll]
    split
    · exact h.selectionClear.moveTo le_rfl h.cut_length
    · exact (h.frame s.cwd s.history s.historyNav 0 s.lineLen true 0 true).moveTo le_rfl
        h.cut_length
  case copy => exact keeps_copySelection h hsel
  case paste => exact keeps_pressPaste h hsel hadm
  case shiftLeft =>
    split
    · exact keeps_pressShift h (by omega) hcutPrev
    · exact keeps_pressShift h hcur h.cursor
  case shiftRight =>
    split
    · exact keeps_pressShift h (by omega) hcutNext
    · exact keeps_pressShift h hcur h.cursor
  case shiftHome => exact keeps_pressShift h (Nat.zero_le _) h.cut_zero
  case shiftEnd => exact keeps_pressShift h le_rfl h.cut_length
  case lineStart => exact keeps_pressMove h (Nat.zero_le _) h.cut_zero
  case lineEnd => exact keeps_pressMove h le_rfl h.cut_length
  case killBefore => exact keeps_pressKillBefore h
  case killAfter => exact keeps_pressKillAfter h
  case killWordBefore => exact keeps_pressKillWordBefore h
  case clearScreen => exact h
  case eofOrDelete => exact keeps_pressEofOrDelete h
  case up => exact keeps_historyUp h.selectionClear hadm
  case down => exact keeps_historyDown h.selectionClear hadm
  case left =>
    split
    · exact keeps_pressMove h (by omega) hcutPrev
    · exact keeps_pressMove h hcur h.cursor
  case right =>
    split
    · exact keeps_pressMove h (by omega) hcutNext
    · exact keeps_pressMove h hcur h.cursor
  case tab =>
    dsimp only
    exact keeps_pressTab h hadm
  case backspace => exact keeps_pressBackspace h hsel
  case delete => exact keeps_pressDelete h hsel
  case other => exact h

theorem keeps_step (h : Keeps K s) (hsel : SelectionCut K s) {e : Event} (hadm : Admits K s e)
    {s' : EditorState} (hstep : step s e = some s') : Keeps K s' := by
  cases e with
  | start cwd =>
    cases hstep
    exact (h.frame cwd _ _ _ _ _ _ _).resetLine.historyCancelNav
  | key dirs ch input =>
    obtain ⟨r, hround, rfl⟩ := Option.map_eq_some_iff.1 hstep
    exact keeps_readKey h hsel hadm hround

theorem keeps_initial (hs : Initial s) : Keeps K s := by
  have hnew : ∀ cwd, Keeps K (newState cwd) := fun cwd =>
    ⟨⟨Nat.succ_pos _, le_rfl, rfl, Nat.succ_pos _, le_rfl, rfl⟩, K.nil, TextClass.cut_zero K.nil,
      K.nil, TextClass.cut_zero K.nil, K.nil⟩
  obtain ⟨cwd, file, rfl⟩ := hs
  rw [historyLoad]
  split
  · exact hnew cwd
  · exact ((hnew cwd).frame _ _ _ _ _ _ _ _).historyCancelNav

/-- The class of all texts, for what holds whatever is typed. -/
def anyText : TextClass where
  Good _ := True
  Cut _ _ := True
  nil := trivial
  append _ _ := trivial
  ascii _ _ := trivial
  split _ _ := ⟨trivial, trivial, trivial⟩
  take _ _ := trivial
  drop _ _ := trivial
  between _ _ _ _ := trivial
  cut_append _ _ := trivial
  cut_prev _ _ := trivial
  cut_next _ _ := trivial

theorem admits_anyText (s : EditorState) (e : Event) : Admits anyText s e := by
  have hreplaces : ∀ s start stop text, Replaces anyText s start stop text :=
    fun _ _ _ _ => ⟨trivial, trivial⟩
  cases e with
  | start cwd => trivial
  | key dirs ch input =>
    rw [Admits]
    cases keyOf ch
    case tab => exact ⟨fun _ _ => hreplaces _ _ _ _, fun _ _ _ => hreplaces _ _ _ _⟩
    case paste => exact fun _ => trivial
    case reverseSearch => exact fun _ _ => trivial
    case up => exact fun _ _ => trivial
    case down => exact fun _ _ => trivial
    case text => exact fun _ _ => trivial
    all_goals trivial

theorem sized_step (h : Sized s) {e : Event} {s' : EditorState} (hstep : step s e = some s') : Sized s' := by
  have hkeeps : Keeps anyText s := ⟨h, trivial, trivial, trivial, trivial, trivial⟩
  exact (keeps_step hkeeps (fun _ _ _ => ⟨trivial, trivial⟩) (admits_anyText s e) hstep).sized

end Cleonos.Editor
