import Cleonos.Editor.HistoryFile

/-!
# Browsing the history

The line that is typed is put aside when browsing starts.
-/

namespace Cleonos.Editor

open Shell (copyBytes lineMax copyBytes_of_fits)
open Buffer

variable {s t t' : EditorState}

/-- One of the keys that go through the history. -/
def Browses (t t' : EditorState) : Prop :=
  ∃ dirs ch input, (keyOf ch = .up ∨ keyOf ch = .down) ∧ step t (.key dirs ch input) = some t'

/-- An entry is the string in the buffer of a line. -/
def Entries (history : List (List UInt8)) : Prop :=
  ∀ entry ∈ history, (0 : UInt8) ∉ entry ∧ entry.length < lineMax

/-- What the editor shows at a position of the history, when browsing has started from `s`. -/
def Shows (s : EditorState) : Option ℕ → EditorState → Prop
  | none, t => t.line = s.line ∧ t.lineLen = s.lineLen ∧ t.cursor = s.cursor
  | some nav, t => ∃ entry, s.history[nav]? = some entry ∧ t.text = entry

/-- The line is put aside. -/
structure Aside (s t : EditorState) : Prop where
  line : t.navSavedLine = s.line
  len : t.navSavedLen = s.lineLen
  cursor : t.navSavedCursor = s.cursor

/-- Browsing has started from `s`. -/
structure Browsing (s t : EditorState) : Prop where
  sized : Sized t
  history : t.history = s.history
  shows : Shows s t.historyNav t
  aside : t.historyNav ≠ none → Aside s t

theorem browsing_start (h : Sized s) (hnav : s.historyNav = none) : Browsing s s := by
  refine ⟨h, rfl, ?_, fun hno => absurd hnav hno⟩
  rw [hnav]
  exact ⟨rfl, rfl, rfl⟩

theorem shows_loadLine (hentries : Entries s.history) (hhistory : t.history = s.history) {nav : ℕ}
    (hlt : nav < s.history.length) :
    Shows s (some nav) (loadLine t (t.history.getD nav [])) := by
  obtain ⟨h0, hlen⟩ := hentries _ (List.getElem_mem hlt)
  refine ⟨s.history[nav], List.getElem?_eq_getElem hlt, ?_⟩
  rw [text_loadLine, hhistory, List.getD_eq_getElem _ _ hlt]
  exact copyBytes_of_fits h0 hlen

theorem browsing_entry (hentries : Entries s.history) (hsized : Sized t)
    (hhistory : t.history = s.history) (haside : Aside s t) {nav : ℕ} (hnav : t.historyNav = some nav)
    (hlt : nav < s.history.length) : Browsing s (historyApplyCurrent t) := by
  have happly : historyApplyCurrent t = loadLine t (t.history.getD nav []) := by
    rw [historyApplyCurrent, hnav]
  have hshows := shows_loadLine hentries hhistory hlt
  have hload := loadLine_eq t (t.history.getD nav [])
  rw [happly]
  refine ⟨sized_loadLine hsized _, ?_, ?_, fun _ => ?_⟩
  · rw [hload, hhistory]
  · have hsame : (loadLine t (t.history.getD nav [])).historyNav = some nav := by
      rw [hload, hnav]
    rw [hsame]
    exact hshows
  · rw [hload]
    exact ⟨haside.line, haside.len, haside.cursor⟩

theorem browsing_back (hsized : Sized t) (hhistory : t.history = s.history) (haside : Aside s t)
    (hnav : t.historyNav = none) : Browsing s (historyApplyCurrent t) := by
  rw [restore_eq hsized hnav]
  refine ⟨?_, hhistory, ?_, fun hno => absurd hnav hno⟩
  · exact ⟨hsized.savedLen, hsized.savedCursor, hsized.savedTerm, hsized.savedLen,
      hsized.savedCursor, hsized.savedTerm⟩
  · simp only [hnav]
    exact ⟨haside.line, haside.len, haside.cursor⟩

theorem browsing_historyUp (hentries : Entries s.history) (h : Browsing s t) :
    Browsing s (historyUp t) := by
  rw [historyUp]
  by_cases hempty : t.history.length = 0
  · rw [if_pos hempty]
    exact h
  rw [if_neg hempty]
  have hlength : t.history.length = s.history.length := by rw [h.history]
  have hsized := h.sized
  have hshows := h.shows
  cases hnav : t.historyNav with
  | none =>
    rw [hnav] at hshows
    obtain ⟨hline, hlen, hcursor⟩ := hshows
    have hlt : navUp t < s.history.length := by
      simp only [navUp, hnav]
      omega
    refine browsing_entry hentries ?_ h.history ⟨hline, hlen, hcursor⟩ rfl hlt
    exact ⟨hsized.len, hsized.cursor, hsized.term, hsized.len, hsized.cursor, hsized.term⟩
  | some nav =>
    rw [hnav] at hshows
    obtain ⟨entry, hentry, -⟩ := hshows
    have hnavlt := (List.getElem?_eq_some_iff.1 hentry).1
    have haside := h.aside (by simp [hnav])
    have hlt : navUp t < s.history.length := by
      simp only [navUp, hnav]
      omega
    refine browsing_entry hentries ?_ h.history ⟨haside.line, haside.len, haside.cursor⟩ rfl hlt
    exact ⟨hsized.len, hsized.cursor, hsized.term, hsized.savedLen, hsized.savedCursor,
      hsized.savedTerm⟩

theorem browsing_historyDown (hentries : Entries s.history) (h : Browsing s t) :
    Browsing s (historyDown t) := by
  have hsized := h.sized
  rw [historyDown]
  cases hnav : t.historyNav with
  | none => exact h
  | some nav =>
    have haside := h.aside (by simp [hnav])
    have hlength : t.history.length = s.history.length := by rw [h.history]
    simp only
    by_cases hlast : nav + 1 < t.history.length
    · rw [if_pos hlast]
      refine browsing_entry hentries ?_ h.history ⟨haside.line, haside.len, haside.cursor⟩ rfl
        (hlength ▸ hlast)
      exact ⟨hsized.len, hsized.cursor, hsized.term, hsized.savedLen, hsized.savedCursor,
        hsized.savedTerm⟩
    · rw [if_neg hlast]
      refine browsing_back ?_ h.history ⟨haside.line, haside.len, haside.cursor⟩ rfl
      exact ⟨hsized.len, hsized.cursor, hsized.term, hsized.savedLen, hsized.savedCursor,
        hsized.savedTerm⟩

theorem browsing_selectionClear (h : Browsing s t) : Browsing s (selectionClear t) := by
  refine ⟨sized_selectionClear h.sized, h.history, ?_, fun hno => ?_⟩
  · have hshows := h.shows
    have hsame : (selectionClear t).historyNav = t.historyNav := rfl
    rw [hsame]
    cases hnav : t.historyNav with
    | none =>
      rw [hnav] at hshows
      exact hshows
    | some nav =>
      rw [hnav] at hshows
      exact hshows
  · have haside := h.aside hno
    exact ⟨haside.line, haside.len, haside.cursor⟩

theorem browsing_step (hentries : Entries s.history) (h : Browsing s t) (hstep : Browses t t') :
    Browsing s t' := by
  obtain ⟨dirs, ch, input, hkey, hstep⟩ := hstep
  have hclear := browsing_selectionClear h
  rw [step, readKey] at hstep
  rcases hkey with hkey | hkey
  · rw [hkey] at hstep
    cases hstep
    exact browsing_historyUp hentries hclear
  · rw [hkey] at hstep
    cases hstep
    exact browsing_historyDown hentries hclear

/-- Keys that go up and down, from a line that is typed: the history stays, a position in it shows
its entry, and behind the last one the line is what it was. -/
theorem navigation_lossless (h : Sized s) (hentries : Entries s.history)
    (hnav : s.historyNav = none) (hrun : Reachable (· = s) Browses t) :
    t.history = s.history ∧
      (t.historyNav = none → t.text = s.text ∧ t.cursor = s.cursor ∧ t.cursor ≤ t.lineLen) ∧
      ∀ nav, t.historyNav = some nav → ∃ entry, s.history[nav]? = some entry ∧ t.text = entry := by
  have hbrowsing : Browsing s t := by
    refine hrun.invariant (I := Browsing s) ?_ ?_
    · intro t ht
      rw [ht]
      exact browsing_start h hnav
    · intro t t' ht hstep
      exact browsing_step hentries ht hstep
  have hshows := hbrowsing.shows
  refine ⟨hbrowsing.history, fun hno => ?_, fun nav hsome => ?_⟩
  · rw [hno] at hshows
    obtain ⟨hline, hlen, hcursor⟩ := hshows
    refine ⟨?_, hcursor, hbrowsing.sized.cursor⟩
    rw [EditorState.text, EditorState.text, hline, hlen]
  · rw [hsome] at hshows
    exact hshows

/-- The letter d is typed, behind the entry `ls`. -/
def besideEntry : EditorState :=
  { insertText (newState [47]) (lit "d") with history := [lit "ls"] }

/-- One key up and one down. -/
theorem navigation_lossless_back : ∃ t : EditorState, t.history = [lit "ls"] ∧
    (t.historyNav = none → t.text = lit "d" ∧ t.cursor = 1 ∧ t.cursor ≤ t.lineLen) ∧
    ∀ nav, t.historyNav = some nav → ∃ entry, [lit "ls"][nav]? = some entry ∧ t.text = entry :=
  ⟨_, @navigation_lossless besideEntry _
    ⟨by decide, by decide, by decide, by decide, by decide, by decide⟩
    (by intro entry hmem
        rw [List.mem_singleton.1 hmem]
        decide) rfl
    (.next (.next (.start rfl) ⟨noDirs, 3, [], .inl (by decide), rfl⟩)
      ⟨noDirs, 4, [], .inr (by decide), rfl⟩)⟩

end Cleonos.Editor
