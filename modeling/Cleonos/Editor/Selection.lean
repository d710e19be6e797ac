import Cleonos.Editor.Keep

/-!
# The selection

What a key can do to the selection: clear it, keep it with the line, keep it while text is
inserted, set it, or keep it while the reverse search loads another line.
-/

namespace Cleonos.Editor

open Shell (copyBytes lineMax)

variable {s s' : EditorState}

/-- Nothing is selected, and no anchor is set. -/
structure Unselected (s : EditorState) : Prop where
  active : s.selActive = false
  valid : s.selAnchorValid = false

/-- The selection is as before. -/
structure SameSelection (s s' : EditorState) : Prop where
  active : s'.selActive = s.selActive
  start : s'.selStart = s.selStart
  stop : s'.selEnd = s.selEnd
  anchor : s'.selAnchor = s.selAnchor
  valid : s'.selAnchorValid = s.selAnchorValid

/-- What a step does to the selection. -/
inductive Effect (s : EditorState) : Event → EditorState → Prop
  | cleared {e : Event} {s' : EditorState} (h : Unselected s') : Effect s e s'
  | still {e : Event} {s' : EditorState} (h : SameSelection s s') (text : s'.text = s.text)
      (cursor : s'.cursor = s.cursor) : Effect s e s'
  | inserted {e : Event} {s' : EditorState} (none : selectionRange s = none)
      (h : SameSelection s s') (text : List UInt8)
      (eq : s'.text = s.text.take s.cursor ++ text ++ s.text.drop s.cursor)
      (cursor : s'.cursor = s.cursor + text.length) : Effect s e s'
  | shifted {e : Event} (c : ℕ) (h : c ≤ s.lineLen) : Effect s e (pressShift s c)
  | selected {e : Event} (h : s.lineLen ≠ 0) :
      Effect s e { s with
        cursor := s.lineLen, selActive := true, selStart := 0, selEnd := s.lineLen, selAnchor := 0
        selAnchorValid := true }
  | loaded {dirs : Dirs} {ch : UInt8} {input : List UInt8} (entry : List UInt8)
      (key : keyOf ch = .reverseSearch) (h : entry ∈ entryFound s input) :
      Effect s (.key dirs ch input) (loadLine s entry)

/-! ## Operations -/

theorem SameSelection.refl (s : EditorState) : SameSelection s s := ⟨rfl, rfl, rfl, rfl, rfl⟩

theorem SameSelection.unselected (h : SameSelection s s') (hs : Unselected s) : Unselected s' :=
  ⟨h.active.trans hs.active, h.valid.trans hs.valid⟩

theorem unselected_selectionClear (s : EditorState) : Unselected (selectionClear s) := ⟨rfl, rfl⟩

theorem unselected_historyCancelNav (h : Unselected s) : Unselected (historyCancelNav s) :=
  ⟨h.active, h.valid⟩

theorem unselected_deleteRange (s : EditorState) (start stop : ℕ) :
    Unselected (deleteRange s start stop) := by
  obtain ⟨line, lineLen, cursor, heq⟩ := deleteRange_frame s start stop
  rw [heq]
  exact unselected_selectionClear _

theorem unselected_cutRangeToClipboard {start stop : ℕ} (hlt : start < stop)
    (hstop : stop ≤ s.lineLen) : Unselected (cutRangeToClipboard s start stop) := by
  rw [cutRangeToClipboard, if_neg (by omega)]
  exact unselected_deleteRange _ _ _

theorem unselected_replaceRangeRaw {start stop : ℕ} (hle : start ≤ stop)
    (hstop : stop ≤ s.lineLen) (text : List UInt8) :
    Unselected (replaceRangeRaw s start stop text) := by
  rw [replaceRangeRaw, if_neg (by omega)]
  exact unselected_selectionClear _

theorem sameSelection_insertText (s : EditorState) (text : List UInt8) :
    SameSelection s (insertText s text) := by
  obtain ⟨line, lineLen, cursor, heq⟩ := insertText_frame s text
  rw [heq]
  exact ⟨rfl, rfl, rfl, rfl, rfl⟩

theorem sameSelection_historyApplyCurrent (s : EditorState) :
    SameSelection s (historyApplyCurrent s) := by
  rw [historyApplyCurrent]
  split <;> exact ⟨rfl, rfl, rfl, rfl, rfl⟩

theorem sameSelection_historyUp (s : EditorState) : SameSelection s (historyUp s) := by
  rw [historyUp]
  split
  · exact SameSelection.refl s
  · have happly := sameSelection_historyApplyCurrent
    cases s.historyNav with
    | none => exact ⟨(happly _).active, (happly _).start, (happly _).stop, (happly _).anchor,
        (happly _).valid⟩
    | some nav => exact ⟨(happly _).active, (happly _).start, (happly _).stop, (happly _).anchor,
        (happly _).valid⟩

theorem sameSelection_historyDown (s : EditorState) : SameSelection s (historyDown s) := by
  rw [historyDown]
  split
  · exact SameSelection.refl s
  · have happly := sameSelection_historyApplyCurrent
    exact ⟨(happly _).active, (happly _).start, (happly _).stop, (happly _).anchor,
      (happly _).valid⟩

theorem unselected_deleteSelection (h : (deleteSelection s).1 = true) :
    Unselected (deleteSelection s).2 := by
  rw [deleteSelection] at h ⊢
  split at h
  · cases h
  · exact unselected_deleteRange _ _ _

theorem beforeText_cases (s : EditorState) :
    Unselected (beforeText s) ∨ selectionRange s = none ∧ beforeText s = historyCancelNav s := by
  rw [beforeText, deleteSelection]
  cases hrange : selectionRange (historyCancelNav s) with
  | none => exact .inr ⟨hrange, rfl⟩
  | some r => exact .inl (unselected_deleteRange _ _ _)

theorem effect_insertText (h : Sized s) (e : Event) (text : List UInt8) :
    Effect s e (insertText (beforeText s) text) := by
  rcases beforeText_cases s with hclear | ⟨hrange, heq⟩
  · exact .cleared ((sameSelection_insertText _ _).unselected hclear)
  · rw [heq]
    have hsized := sized_historyCancelNav h
    have hsame := sameSelection_insertText (historyCancelNav s) text
    exact .inserted hrange ⟨hsame.active, hsame.start, hsame.stop, hsame.anchor, hsame.valid⟩ _
      (text_insertText hsized text) (cursor_insertText hsized text)

theorem effect_pressEnter (s : EditorState) (e : Event) : Effect s e (pressEnter s).1 := by
  have hmark : Unselected (removeContinuationMarker (selectionClear (historyCancelNav s))) := by
    rw [removeContinuationMarker]
    simp only
    split
    · obtain ⟨hactive, hvalid⟩ := unselected_deleteRange (selectionClear (historyCancelNav s))
        (backOverSpaces (selectionClear (historyCancelNav s)).text s.lineLen - 1)
        (backOverSpaces (selectionClear (historyCancelNav s)).text s.lineLen)
      exact ⟨hactive, hvalid⟩
    · exact unselected_selectionClear _
  rw [pressEnter]
  split
  · simp only
    split
    · exact .cleared ((sameSelection_insertText _ _).unselected hmark)
    · exact .cleared hmark
  · exact .cleared ⟨rfl, rfl⟩

theorem effect_pressTab (h : Sized s) (e : Event) (dirs : Dirs) :
    Effect s e (pressTab dirs s) := by
  obtain ⟨hle, hstop⟩ := findCompletionToken_le s
  have hcomplete : Unselected (linenoiseComplete dirs s).1 ∨ (linenoiseComplete dirs s).1 = s := by
    rw [linenoiseComplete]
    split
    · exact .inr rfl
    · simp only
      split
      · refine .inl (unselected_replaceRangeRaw le_rfl ?_ _)
        exact (sized_replaceRangeRaw h hle hstop _).cursor
      · exact .inl (unselected_replaceRangeRaw hle hstop _)
    · simp only
      split
      · exact .inl (unselected_replaceRangeRaw hle hstop _)
      · exact .inr rfl
  rw [pressTab]
  rcases hcomplete with hclear | heq
  · split
    · exact .cleared (unselected_historyCancelNav hclear)
    · exact .cleared hclear
  · rw [heq]
    split
    · exact .still ⟨rfl, rfl, rfl, rfl, rfl⟩ rfl rfl
    · exact .still (SameSelection.refl s) rfl rfl

theorem Effect.nothing (s : EditorState) (e : Event) : Effect s e s :=
  .still (SameSelection.refl s) rfl rfl

theorem effect_deleteSelection (s : EditorState) (e : Event)
    (h : (deleteSelection s).1 = true) : Effect s e (historyCancelNav (deleteSelection s).2) :=
  .cleared (unselected_historyCancelNav (unselected_deleteSelection h))

theorem readKey_effect (h : Sized s) {dirs : Dirs} {ch : UInt8} {input : List UInt8} {r : Round}
    (hround : readKey dirs s ch input = some r) : Effect s (.key dirs ch input) r.state := by
  have hcur := h.cursor
  have hlen := length_text s
  have hprev := utf8PrevBoundary_le s.text s.cursor
  have hnext := utf8NextBoundary_le s.text s.cursor
  rw [readKey] at hround
  cases hkey : keyOf ch
  all_goals rw [hkey] at hround
  case text =>
    rw [pressText_eq hround]
    cases typed s ch input with
    | none =>
      rcases beforeText_cases s with hclear | ⟨-, heq⟩
      · exact .cleared hclear
      · simp only [heq]
        exact .still ⟨rfl, rfl, rfl, rfl, rfl⟩ rfl rfl
    | some bytes => exact effect_insertText h _ bytes
  case reverseSearch =>
    obtain ⟨found, hfound, hgo⟩ := Option.bind_eq_some_iff.1 hround
    cases hgo
    simp only [reverseSearch_eq hfound]
    cases hentry : entryFound s input with
    | none => exact .nothing s _
    | some entry => exact .loaded entry hkey hentry
  all_goals obtain rfl := Option.some.inj hround
  case ret => exact .nothing s _
  case newline => exact effect_pressEnter s _
  case selectAll =>
    by_cases h0 : s.lineLen = 0
    · refine .cleared ?_
      rw [selectionSelectAll, if_pos h0]
      exact ⟨rfl, rfl⟩
    · rw [selectionSelectAll, if_neg h0]
      exact .selected h0
  case copy =>
    rw [copySelection]
    split
    · exact .nothing s _
    · exact .still ⟨rfl, rfl, rfl, rfl, rfl⟩ rfl rfl
  case paste =>
    rw [pressPaste]
    split
    · exact effect_insertText h _ _
    · exact .nothing s _
  case shiftLeft =>
    split
    · exact .shifted _ (by omega)
    · exact .shifted _ hcur
  case shiftRight =>
    split
    · exact .shifted _ (by omega)
    · exact .shifted _ hcur
  case shiftHome => exact .shifted 0 (Nat.zero_le _)
  case shiftEnd => exact .shifted s.lineLen le_rfl
  case lineStart => exact .cleared ⟨rfl, rfl⟩
  case lineEnd => exact .cleared ⟨rfl, rfl⟩
  case killBefore =>
    rw [pressKillBefore]
    split
    case isTrue hpos =>
      exact .cleared (unselected_cutRangeToClipboard (s := historyCancelNav s) hpos hcur)
    case isFalse => exact .nothing s _
  case killAfter =>
    rw [pressKillAfter]
    split
    case isTrue hlt =>
      exact .cleared (unselected_cutRangeToClipboard (s := historyCancelNav s) hlt le_rfl)
    case isFalse => exact .nothing s _
  case killWordBefore =>
    rw [pressKillWordBefore]
    split
    · simp only
      split
      case isTrue hlt =>
        exact .cleared (unselected_cutRangeToClipboard (s := historyCancelNav s) hlt hcur)
      case isFalse => exact .nothing s _
    · exact .nothing s _
  case clearScreen => exact .nothing s _
  case eofOrDelete =>
    rw [pressEofOrDelete]
    split
    · exact .cleared ⟨rfl, rfl⟩
    split
    · exact .cleared (unselected_deleteRange _ _ _)
    · exact .nothing s _
  case up =>
    exact .cleared ((sameSelection_historyUp _).unselected (unselected_selectionClear s))
  case down =>
    exact .cleared ((sameSelection_historyDown _).unselected (unselected_selectionClear s))
  case left =>
    split <;> exact .cleared ⟨rfl, rfl⟩
  case right =>
    split <;> exact .cleared ⟨rfl, rfl⟩
  case tab =>
    dsimp only
    exact effect_pressTab h _ dirs
  case backspace =>
    rw [pressBackspace]
    simp only
    split
    · exact effect_deleteSelection s _ ‹_›
    split
    · exact .cleared (unselected_deleteRange _ _ _)
    · exact .nothing s _
  case delete =>
    rw [pressDelete]
    simp only
    split
    · exact effect_deleteSelection s _ ‹_›
    split
    · exact .cleared (unselected_deleteRange _ _ _)
    · exact .nothing s _
  case other => exact .nothing s _

theorem step_effect (h : Sized s) {e : Event} (hstep : step s e = some s') : Effect s e s' := by
  cases e with
  | start cwd =>
    cases hstep
    exact .cleared ⟨rfl, rfl⟩
  | key dirs ch input =>
    obtain ⟨r, hround, rfl⟩ := Option.map_eq_some_iff.1 hstep
    exact readKey_effect h hround

/-- What is selected is the text between the anchor and the cursor. -/
structure SelectionOk (s : EditorState) : Prop where
  lt : s.selActive = true → s.selStart < s.selEnd
  le : s.selActive = true → s.selEnd ≤ s.lineLen
  ends : s.selActive = true → s.cursor = s.selStart ∧ s.selAnchor = s.selEnd ∨
    s.cursor = s.selEnd ∧ s.selAnchor = s.selStart

/-- Copying and deleting act on the text between the anchor and the cursor. -/
structure ActsOnSelection (s : EditorState) : Prop where
  copies : s.selActive = true → (copySelection s).clipboard =
    (s.text.take (max s.selAnchor s.cursor)).drop (min s.selAnchor s.cursor)
  deletes : s.selActive = true → (deleteSelection s).2.text =
    s.text.take (min s.selAnchor s.cursor) ++ s.text.drop (max s.selAnchor s.cursor)
  replaces : s.selActive = true → (beforeText s).text =
    s.text.take (min s.selAnchor s.cursor) ++ s.text.drop (max s.selAnchor s.cursor)

/-- A search that loads an entry finds no anchor behind it, and nothing selected but a part
from the anchor to the end of the entry. -/
def KeepsAnchor (s : EditorState) : Event → Prop
  | .start _ => True
  | .key _ ch input => keyOf ch = .reverseSearch → ∀ entry ∈ entryFound s input,
      (s.selAnchorValid = true → s.selAnchor ≤ (copyBytes lineMax entry).length) ∧
      (s.selActive = true → s.selAnchor = s.selStart ∧ s.selEnd = (copyBytes lineMax entry).length)

/-- The invariant that runs keep. -/
structure Selecting (s : EditorState) : Prop where
  sized : Sized s
  ok : SelectionOk s
  anchor : s.selAnchorValid = true → s.selAnchor ≤ s.lineLen

theorem SelectionOk.range (h : SelectionOk s) (hactive : s.selActive = true) :
    selectionRange s = some (min s.selAnchor s.cursor, max s.selAnchor s.cursor) := by
  have hlt := h.lt hactive
  have hle := h.le hactive
  have hmin : min s.selAnchor s.cursor = s.selStart ∧ max s.selAnchor s.cursor = s.selEnd := by
    rcases h.ends hactive with ⟨hc, ha⟩ | ⟨hc, ha⟩ <;> rw [hc, ha] <;> omega
  rw [selectionRange, if_neg (by simp [hactive])]
  simp only
  rw [if_neg (by omega), hmin.1, hmin.2, min_eq_left (hlt.le.trans hle), min_eq_left hle,
    min_eq_left hlt.le, max_eq_right hlt.le]

theorem selectionOk_of_not_active (h : s.selActive = false) : SelectionOk s :=
  ⟨fun ha => by simp [h] at ha, fun ha => by simp [h] at ha, fun ha => by simp [h] at ha⟩

theorem Unselected.selectionOk (h : Unselected s) : SelectionOk s :=
  selectionOk_of_not_active h.active

theorem SameSelection.selectionOk (h : SameSelection s s') (hok : SelectionOk s)
    (hlen : s.lineLen ≤ s'.lineLen) (hcursor : s'.cursor = s.cursor) : SelectionOk s' := by
  constructor
  · rw [h.active, h.start, h.stop]
    exact hok.lt
  · rw [h.active, h.stop]
    exact fun ha => (hok.le ha).trans hlen
  · rw [h.active, h.start, h.stop, h.anchor, hcursor]
    exact hok.ends

theorem selectionOk_update (hvalid : s.selAnchorValid = true) (ha : s.selAnchor ≤ s.lineLen)
    (hc : s.cursor ≤ s.lineLen) : SelectionOk (selectionUpdateFromAnchor s) := by
  rw [selectionUpdateFromAnchor, if_neg (by simp [hvalid])]
  simp only [min_eq_left ha]
  split
  · exact selectionOk_of_not_active rfl
  split
  · exact ⟨fun _ => ‹_›, fun _ => ha, fun _ => .inl ⟨rfl, rfl⟩⟩
  · exact ⟨fun _ => by simp only; omega, fun _ => hc, fun _ => .inr ⟨rfl, rfl⟩⟩

theorem selectionOk_shift (h : Selecting s) {c : ℕ} (hc : c ≤ s.lineLen) :
    SelectionOk (pressShift s c) ∧
      ((pressShift s c).selAnchorValid = true → (pressShift s c).selAnchor ≤ s.lineLen) := by
  have hcur := h.sized.cursor
  rw [pressShift]
  split
  case isTrue hinvalid =>
    obtain ⟨active, start, stop, heq⟩ := selectionUpdateFromAnchor_frame
      { s with selAnchor := s.cursor, selAnchorValid := true, cursor := c }
    refine ⟨selectionOk_update rfl hcur hc, fun _ => ?_⟩
    simp only [heq]
    exact hcur
  case isFalse hvalid =>
    have hset : s.selAnchorValid = true := by simpa using hvalid
    obtain ⟨active, start, stop, heq⟩ := selectionUpdateFromAnchor_frame { s with cursor := c }
    refine ⟨selectionOk_update hset (h.anchor hset) hc, fun _ => ?_⟩
    simp only [heq]
    exact h.anchor hset

theorem selecting_step (h : Selecting s) {e : Event} (he : KeepsAnchor s e)
    (hstep : step s e = some s') : Selecting s' := by
  have hsized := sized_step h.sized hstep
  cases step_effect h.sized hstep with
  | cleared hclear => exact ⟨hsized, hclear.selectionOk, fun hv => by simp [hclear.valid] at hv⟩
  | still hsame htext hcursor =>
    have hlen : s'.lineLen = s.lineLen := by
      rw [← length_text, htext, length_text]
    refine ⟨hsized, hsame.selectionOk h.ok hlen.ge hcursor, ?_⟩
    rw [hsame.valid, hsame.anchor, hlen]
    exact h.anchor
  | inserted hrange hsame text htext hcursor =>
    have hcur := h.sized.cursor
    have hlen : s'.lineLen = s.lineLen + text.length := by
      have hlens := congrArg List.length htext
      simp only [length_text, List.length_append, List.length_take, List.length_drop] at hlens
      omega
    have hinactive : s.selActive = false := by
      by_contra hactive
      rw [h.ok.range (by simpa using hactive)] at hrange
      cases hrange
    have hinactive' := hsame.active.trans hinactive
    refine ⟨hsized, ⟨fun ha => by simp [hinactive'] at ha, fun ha => by simp [hinactive'] at ha,
      fun ha => by simp [hinactive'] at ha⟩, ?_⟩
    rw [hsame.valid, hsame.anchor, hlen]
    exact fun hv => (h.anchor hv).trans (Nat.le_add_right _ _)
  | shifted c hc =>
    obtain ⟨hok, hanchor⟩ := selectionOk_shift h hc
    have hlen : (pressShift s c).lineLen = s.lineLen := by
      rw [← length_text, ← length_text, text_pressShift]
    exact ⟨hsized, hok, hlen ▸ hanchor⟩
  | selected h0 =>
    exact ⟨hsized, ⟨fun _ => Nat.pos_of_ne_zero h0, fun _ => le_rfl,
      fun _ => .inr ⟨rfl, rfl⟩⟩, fun _ => Nat.zero_le _⟩
  | loaded entry hkey hentry =>
    obtain ⟨hanchor, hactive⟩ := he hkey entry hentry
    have hlen : (loadLine s entry).lineLen = (copyBytes lineMax entry).length := by
      rw [loadLine_eq]
    have hcursor : (loadLine s entry).cursor = (copyBytes lineMax entry).length := by
      rw [loadLine_eq]
    refine ⟨hsized, ⟨h.ok.lt, fun ha => ?_, fun ha => ?_⟩, fun hv => ?_⟩
    · rw [hlen]
      exact (hactive ha).2.le
    · exact .inr ⟨hcursor.trans (hactive ha).2.symm, (hactive ha).1⟩
    · rw [hlen]
      exact hanchor hv

theorem Selecting.acts (h : Selecting s) : ActsOnSelection s := by
  have hbounds : s.selActive = true → min s.selAnchor s.cursor ≤ max s.selAnchor s.cursor ∧
      max s.selAnchor s.cursor ≤ s.lineLen := by
    intro hactive
    have hle := h.ok.le hactive
    have hlt := h.ok.lt hactive
    rcases h.ok.ends hactive with ⟨hc, ha⟩ | ⟨hc, ha⟩ <;> rw [hc, ha] <;> omega
  refine ⟨fun hactive => ?_, fun hactive => ?_, fun hactive => ?_⟩
  · obtain ⟨hle, hstop⟩ := hbounds hactive
    rw [copySelection, h.ok.range hactive]
    exact slice_eq_between h.sized hle hstop
  · obtain ⟨hle, hstop⟩ := hbounds hactive
    rw [deleteSelection, h.ok.range hactive]
    exact text_deleteRange h.sized hle hstop
  · obtain ⟨hle, hstop⟩ := hbounds hactive
    have hrange : selectionRange (historyCancelNav s) = _ := h.ok.range hactive
    rw [beforeText, deleteSelection, hrange]
    exact text_deleteRange (sized_historyCancelNav h.sized) hle hstop

theorem selecting_initial (hs : Initial s) : Selecting s := by
  have hsized := (keeps_initial (K := anyText) hs).sized
  have hclear : Unselected s := by
    obtain ⟨cwd, file, rfl⟩ := hs
    rw [historyLoad]
    split <;> exact ⟨rfl, rfl⟩
  exact ⟨hsized, hclear.selectionOk, fun hv => by simp [hclear.valid] at hv⟩

/-- The selection belongs to the line, in every state of a run in which no search loads an entry
under an anchor that does not fit it. -/
theorem selection_invariant
    (hrun : Reachable Initial (fun s s' => ∃ e, KeepsAnchor s e ∧ step s e = some s') s) :
    SelectionOk s ∧ ActsOnSelection s := by
  have hsel : Selecting s := by
    refine hrun.invariant (fun s hs => selecting_initial hs) ?_
    rintro s s' h ⟨e, he, hstep⟩
    exact selecting_step h he hstep
  exact ⟨hsel.ok, hsel.acts⟩

/-- A letter is typed and selected with shift and left. -/
theorem selection_invariant_letter : ∃ s, s.selActive = true ∧ SelectionOk s ∧ ActsOnSelection s :=
  ⟨_, rfl, selection_invariant (.next (.next (.start ⟨[47], [], rfl⟩)
    ⟨.key noDirs 108 [], fun h => absurd h (by decide), rfl⟩)
    ⟨.key noDirs 0x13 [], fun h => absurd h (by decide), rfl⟩)⟩

/-- The entry `l` is loaded while the two bytes of `ab` are selected. -/
theorem selection_outlives_line :
    ¬ ∀ s, Reachable Initial (fun s s' => ∃ e, step s e = some s') s → SelectionOk s := by
  intro h
  have hok := h _ (.next (.next (.next (.next (.start ⟨[47], [108, 10], rfl⟩)
    ⟨.key noDirs 97 [], rfl⟩) ⟨.key noDirs 98 [], rfl⟩) ⟨.key noDirs 0x10 [], rfl⟩)
    ⟨.key noDirs 0x17 [108, 10], rfl⟩)
  exact absurd (hok.le (by decide)) (by decide)

end Cleonos.Editor
