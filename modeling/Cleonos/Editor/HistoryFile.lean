import Mathlib.Data.List.Chain
import Cleonos.Editor.Keep
import Cleonos.Lib.Lines

/-!
# The history and its file

The history in memory stays within its capacity, without blank entries and without two equal
entries in a row.
-/

namespace Cleonos.Editor

open List Option
open Shell (isSpace copyBytes lineMax length_copyBytes_lt notMem_copyBytes copyBytes_of_fits)
open Lines (unlines)

variable {s s' : EditorState} {history : List (List UInt8)}

/-- An entry is a string that fits its buffer and is not blank. -/
structure EntryOk (entry : List UInt8) : Prop where
  string : (0 : UInt8) ∉ entry
  len : entry.length < lineMax
  nonSpace : lineHasNonSpace entry = true

/-- The history is within its capacity, and no two entries in a row are equal. -/
structure HistoryOk (history : List (List UInt8)) : Prop where
  len : history.length ≤ historyMax
  entry : ∀ entry ∈ history, EntryOk entry
  adjacent : history.IsChain (· ≠ ·)

/-- The entries that the file can hold. -/
def Savable (entry : List UInt8) : Prop := (10 : UInt8) ∉ entry ∧ entry.getLast? ≠ some 13

/-- Saving the history and loading it into an empty one gives the same entries. -/
def RoundTrips (s : EditorState) : Prop :=
  (historyLoad (newState s.cwd) (historySave s)).history = s.history

/-! ## In memory -/

theorem historyOk_nil : HistoryOk [] := ⟨Nat.zero_le _, by simp, isChain_nil⟩

variable {line : List UInt8}

theorem copyBytes_eq_cstr (hlen : (cstr line).length < lineMax) :
    copyBytes lineMax line = cstr line := take_of_length_le (Nat.le_sub_one_of_lt hlen)

theorem historyOk_push (h : HistoryOk history)
    (hlen : (cstr line).length < lineMax) : HistoryOk (historyPushMemory history line) := by
  rw [historyPushMemory, copyBytes_eq_cstr hlen]
  by_cases hblank : lineHasNonSpace line = false
  · rwa [if_pos hblank]
  by_cases hlast : history.getLast? = some (cstr line)
  · rwa [if_neg hblank, if_pos hlast]
  rw [if_neg hblank, if_neg hlast]
  have hentry : EntryOk (cstr line) :=
    ⟨notMem_cstr line, hlen, by simpa [lineHasNonSpace] using hblank⟩
  by_cases hfull : history.length < historyMax
  · rw [if_pos hfull]
    refine ⟨by simpa using Nat.succ_le_of_lt hfull, ?_, ?_⟩
    · intro entry hmem
      rcases mem_append.1 hmem with hmem | hmem
      · exact h.entry entry hmem
      · rw [mem_singleton.1 hmem]
        exact hentry
    · refine isChain_append.2 ⟨h.adjacent, isChain_singleton _, ?_⟩
      intro a ha b hb hab
      subst hab
      rw [List.head?_cons, mem_some_iff] at hb
      exact hlast (hb ▸ ha)
  · rw [if_neg hfull]
    have hcount := h.len
    refine ⟨?_, ?_, ?_⟩
    · rw [length_append, length_tail, length_singleton]
      simp only [historyMax] at *
      omega
    · intro entry hmem
      rcases mem_append.1 hmem with hmem | hmem
      · exact h.entry entry (mem_of_mem_tail hmem)
      · rw [mem_singleton.1 hmem]
        exact hentry
    · refine isChain_append.2 ⟨h.adjacent.tail, isChain_singleton _, ?_⟩
      intro a ha b hb hab
      subst hab
      rw [List.head?_cons, mem_some_iff] at hb
      have hlast' : history.getLast? = history.tail.getLast? := by
        cases history with
        | nil => rfl
        | cons e rest =>
          cases rest with
          | nil =>
            simp only [historyMax, length_cons, length_nil] at hfull
            omega
          | cons e' rest => rfl
      exact hlast (hlast' ▸ hb ▸ ha)

@[simp] theorem history_deleteRange (s : EditorState) (start stop : ℕ) :
    (deleteRange s start stop).history = s.history := by
  obtain ⟨line, lineLen, cursor, heq⟩ := deleteRange_frame s start stop
  rw [heq]
  rfl

@[simp] theorem history_insertText (s : EditorState) (text : List UInt8) :
    (insertText s text).history = s.history := by
  obtain ⟨line, lineLen, cursor, heq⟩ := insertText_frame s text
  rw [heq]

@[simp] theorem history_selectionClear (s : EditorState) :
    (selectionClear s).history = s.history := rfl

@[simp] theorem history_historyCancelNav (s : EditorState) :
    (historyCancelNav s).history = s.history := rfl

@[simp] theorem history_cutRangeToClipboard (s : EditorState) (start stop : ℕ) :
    (cutRangeToClipboard s start stop).history = s.history := by
  rw [cutRangeToClipboard]
  split
  · rfl
  · exact history_deleteRange _ _ _

@[simp] theorem history_deleteSelection (s : EditorState) :
    (deleteSelection s).2.history = s.history := by
  rw [deleteSelection]
  split
  · rfl
  · exact history_deleteRange _ _ _

@[simp] theorem history_copySelection (s : EditorState) :
    (copySelection s).history = s.history := by
  rw [copySelection]
  split <;> rfl

@[simp] theorem history_beforeText (s : EditorState) : (beforeText s).history = s.history :=
  (beforeText_frame s).2

@[simp] theorem history_loadLine (s : EditorState) (entry : List UInt8) :
    (loadLine s entry).history = s.history := rfl

@[simp] theorem history_historyApplyCurrent (s : EditorState) :
    (historyApplyCurrent s).history = s.history := by
  rw [historyApplyCurrent]
  split <;> rfl

@[simp] theorem history_replaceRangeRaw (s : EditorState) (start stop : ℕ) (text : List UInt8) :
    (replaceRangeRaw s start stop text).history = s.history := by
  rw [replaceRangeRaw]
  split <;> rfl

@[simp] theorem history_linenoiseComplete (dirs : Dirs) (s : EditorState) :
    (linenoiseComplete dirs s).1.history = s.history := by
  rw [linenoiseComplete]
  split
  · rfl
  · simp only
    split <;> simp
  · simp only
    split <;> simp

@[simp] theorem history_pressShift (s : EditorState) (c : ℕ) :
    (pressShift s c).history = s.history := by
  rw [pressShift]
  split
  · obtain ⟨active, start, stop, heq⟩ := selectionUpdateFromAnchor_frame
      { s with selAnchor := s.cursor, selAnchorValid := true, cursor := c }
    simp only [heq]
  · obtain ⟨active, start, stop, heq⟩ := selectionUpdateFromAnchor_frame { s with cursor := c }
    simp only [heq]

theorem history_removeContinuationMarker (s : EditorState) :
    (removeContinuationMarker s).history = s.history := by
  rw [removeContinuationMarker]
  simp only
  split <;> simp

theorem length_bufString_lt (h : Sized s) : (bufString s.line).length < lineMax := by
  obtain ⟨n, hn⟩ := Nat.exists_eq_add_of_lt h.len
  have hsplit : bufString s.line = cstr s.text := by
    rw [bufString, hn, Nat.add_assoc, Buffer.slice_add, Nat.add_comm n, Buffer.slice_add,
      Nat.zero_add, Buffer.slice_one, h.term]
    exact cstr_append_nul _ _
  rw [hsplit]
  exact lt_of_le_of_lt (length_cstr_le _) (by rw [length_text]; exact h.len)

theorem historyOk_pressEnter (h : Sized s) (hok : HistoryOk s.history) :
    HistoryOk (pressEnter s).1.history := by
  rw [pressEnter]
  split
  · simp only
    split
    · rw [history_insertText, history_removeContinuationMarker]
      exact hok
    · rw [history_removeContinuationMarker]
      exact hok
  · have hline : Function.update s.line s.lineLen 0 = s.line := by
      rw [Function.update_eq_self_iff]
      exact h.term.symm
    simp only [hline]
    change HistoryOk (historyPush s (bufString s.line)).history
    rw [historyPush]
    split
    · exact hok
    split
    · exact hok
    · refine historyOk_push hok ?_
      exact lt_of_le_of_lt (length_cstr_le _) (length_bufString_lt h)

theorem history_readKey {dirs : Dirs} {ch : UInt8} {input : List UInt8} {r : Round}
    (hkey : keyOf ch ≠ .newline) (hround : readKey dirs s ch input = some r) :
    r.state.history = s.history := by
  rw [readKey] at hround
  cases hk : keyOf ch
  all_goals rw [hk] at hround
  case newline => exact absurd hk hkey
  case text =>
    rw [pressText_eq hround]
    split <;> simp
  case reverseSearch =>
    obtain ⟨found, hfound, hgo⟩ := bind_eq_some_iff.1 hround
    cases hgo
    simp only [reverseSearch_eq hfound]
    split <;> simp
  all_goals obtain rfl := Option.some.inj hround
  case selectAll =>
    rw [selectionSelectAll]
    split <;> rfl
  case paste =>
    rw [pressPaste]
    split
    · simp
    · rfl
  case killBefore =>
    rw [pressKillBefore]
    split <;> simp
  case killAfter =>
    rw [pressKillAfter]
    split <;> simp
  case killWordBefore =>
    rw [pressKillWordBefore]
    split
    · simp only
      split <;> simp
    · rfl
  case eofOrDelete =>
    rw [pressEofOrDelete]
    split
    · rfl
    split <;> simp
  case up =>
    rw [historyUp]
    split
    · rfl
    · rw [history_historyApplyCurrent]
      cases (selectionClear s).historyNav <;> rfl
  case down =>
    rw [historyDown]
    split
    · rfl
    · rw [history_historyApplyCurrent]
      rfl
  case tab =>
    rw [pressTab]
    split <;> simp
  case backspace =>
    rw [pressBackspace]
    simp only
    split
    · simp
    split <;> simp
  case delete =>
    rw [pressDelete]
    simp only
    split
    · simp
    split <;> simp
  all_goals simp
  all_goals rfl

theorem historySaveEntry_eq {data entry : List UInt8}
    (h : data.length + entry.length + 2 ≤ historyDataMax) :
    historySaveEntry data entry = data ++ (entry ++ [10]) := by
  have htake : entry.take (historyDataMax - 2 - data.length) = entry :=
    take_of_length_le (by omega)
  rw [historySaveEntry]
  simp only [htake]
  rw [if_pos (by rw [length_append]; omega), append_assoc]

theorem foldl_historySaveEntry {data : List UInt8} (hlen : ∀ e ∈ history, e.length < lineMax)
    (hroom : data.length + lineMax * history.length < historyDataMax) :
    history.foldl historySaveEntry data = data ++ unlines 10 history := by
  induction history generalizing data with
  | nil => simp
  | cons e history ih =>
    have he := hlen e mem_cons_self
    simp only [length_cons, Nat.mul_add, Nat.mul_one] at hroom
    have hentry : historySaveEntry data e = data ++ (e ++ [10]) :=
      historySaveEntry_eq (by omega)
    rw [foldl_cons, hentry, ih (fun e he => hlen e (mem_cons_of_mem _ he))]
    · simp
    · simp only [length_append, length_singleton]
      omega

theorem historySave_eq (h : HistoryOk s.history) : historySave s = unlines 10 s.history := by
  have hcount := h.len
  have hroom : ([] : List UInt8).length + lineMax * s.history.length < historyDataMax := by
    simp only [historyMax, lineMax, historyDataMax, length_nil] at *
    omega
  rw [historySave, foldl_historySaveEntry (fun e he => (h.entry e he).len) hroom]
  rfl

theorem length_unlines_le (hlen : ∀ e ∈ history, e.length < lineMax) :
    (unlines 10 history).length ≤ lineMax * history.length := by
  induction history with
  | nil => simp
  | cons e history ih =>
    have he := hlen e mem_cons_self
    have hrest := ih fun e he => hlen e (mem_cons_of_mem _ he)
    simp only [Lines.unlines_cons, length_append, length_cons, Nat.mul_add, Nat.mul_one]
    omega

theorem historyLoadLoop_line {e : List UInt8} (h10 : (10 : UInt8) ∉ e) (h0 : (0 : UInt8) ∉ e)
    (data line : List UInt8) (history : List (List UInt8)) :
    historyLoadLoop (e ++ 10 :: data) line history =
      historyLoadLoop data [] (historyPushLoaded history (line ++ e)) := by
  induction e generalizing line with
  | nil => simp [historyLoadLoop]
  | cons c e ih =>
    rw [mem_cons, not_or] at h10 h0
    have hc : ¬ (c = 10 ∨ c = 0) := fun h => h.elim (Ne.symm h10.1) (Ne.symm h0.1)
    rw [cons_append, historyLoadLoop, if_neg hc, ih h10.2 h0.2]
    simp

theorem historyPushLoaded_nil (history : List (List UInt8)) :
    historyPushLoaded history [] = history := by
  simp [historyPushLoaded]

theorem historyLoadLoop_unlines {lines : List (List UInt8)}
    (h : ∀ e ∈ lines, (10 : UInt8) ∉ e ∧ (0 : UInt8) ∉ e) (history : List (List UInt8)) :
    historyLoadLoop (unlines 10 lines) [] history = lines.foldl historyPushLoaded history := by
  induction lines generalizing history with
  | nil => exact historyPushLoaded_nil history
  | cons e lines ih =>
    obtain ⟨h10, h0⟩ := h e mem_cons_self
    rw [Lines.unlines_cons, historyLoadLoop_line h10 h0,
      ih fun e he => h e (mem_cons_of_mem _ he)]
    rfl

theorem historyPushLoaded_eq {e : List UInt8} (hentry : EntryOk e) (hsave : Savable e)
    (hlast : history.getLast? ≠ some e) (hroom : history.length < historyMax) :
    historyPushLoaded history e = history ++ [e] := by
  have hne : e ≠ [] := by
    rintro rfl
    exact absurd hentry.nonSpace (by decide)
  have hcopy := copyBytes_of_fits hentry.string hentry.len
  have hstr := cstr_of_notMem hentry.string
  rw [historyPushLoaded, if_neg hsave.2]
  simp only [if_neg hne]
  rw [historyPushMemory, hcopy, hstr, if_neg (by simp [hentry.nonSpace]), if_neg hlast,
    if_pos hroom, hcopy]

theorem foldl_historyPushLoaded {lines : List (List UInt8)} (h : HistoryOk (history ++ lines))
    (hsave : ∀ e ∈ lines, Savable e) :
    lines.foldl historyPushLoaded history = history ++ lines := by
  induction lines generalizing history with
  | nil => simp
  | cons e lines ih =>
    have hcount := h.len
    rw [length_append, length_cons] at hcount
    have hlast : history.getLast? ≠ some e := fun hlast =>
      (isChain_append.1 h.adjacent).2.2 e hlast e rfl rfl
    rw [foldl_cons, historyPushLoaded_eq (h.entry e (by simp)) (hsave e (by simp)) hlast
      (by omega)]
    rw [ih (by simpa using h) fun e he => hsave e (mem_cons_of_mem _ he)]
    simp

theorem notMem_historyPushMemory (hline : (10 : UInt8) ∉ line)
    (h : ∀ e ∈ history, (10 : UInt8) ∉ e) : ∀ e ∈ historyPushMemory history line, (10 : UInt8) ∉ e := by
  have hcopy : (10 : UInt8) ∉ copyBytes lineMax line := fun hmem =>
    hline ((List.takeWhile_prefix _).subset (mem_of_mem_take hmem))
  rw [historyPushMemory]
  split
  · exact h
  split
  · exact h
  split
  · exact forall_mem_append.2 ⟨h, forall_mem_singleton.2 hcopy⟩
  · exact forall_mem_append.2
      ⟨fun e he => h e (mem_of_mem_tail he), forall_mem_singleton.2 hcopy⟩

theorem notMem_historyPushLoaded (hline : (10 : UInt8) ∉ line)
    (h : ∀ e ∈ history, (10 : UInt8) ∉ e) : ∀ e ∈ historyPushLoaded history line, (10 : UInt8) ∉ e := by
  have hcut : (10 : UInt8) ∉ if line.getLast? = some 13 then line.dropLast else line := by
    split
    · exact fun hmem => hline (dropLast_subset _ hmem)
    · exact hline
  rw [historyPushLoaded]
  generalize (if line.getLast? = some 13 then line.dropLast else line) = cut at hcut ⊢
  split
  · exact h
  · exact notMem_historyPushMemory
      (fun hmem => hcut ((List.takeWhile_prefix _).subset (mem_of_mem_take hmem))) h

theorem notMem_historyLoadLoop (data : List UInt8) {line : List UInt8} (hline : (10 : UInt8) ∉ line)
    (h : ∀ e ∈ history, (10 : UInt8) ∉ e) :
    ∀ e ∈ historyLoadLoop data line history, (10 : UInt8) ∉ e := by
  induction data generalizing line history with
  | nil => exact notMem_historyPushLoaded hline h
  | cons c data ih =>
    rw [historyLoadLoop]
    split
    · exact ih not_mem_nil (notMem_historyPushLoaded hline h)
    case isFalse hc =>
      refine ih (fun hmem => ?_) h
      rcases mem_append.1 hmem with hmem | hmem
      · exact hline hmem
      · exact hc (Or.inl (mem_singleton.1 hmem).symm)

/-- The bytes in all entries. -/
def total (history : List (List UInt8)) : ℕ := (history.map List.length).sum

theorem total_append (history history' : List (List UInt8)) :
    total (history ++ history') = total history + total history' := by
  simp [total]

theorem total_historyPushMemory (history : List (List UInt8)) (line : List UInt8) :
    total (historyPushMemory history line) ≤ total history + line.length := by
  have hcopy : (copyBytes lineMax line).length ≤ line.length :=
    (length_take_le' _ _).trans (length_cstr_le line)
  have htail : total history.tail ≤ total history := by
    cases history with
    | nil => exact le_rfl
    | cons e history => exact Nat.le_add_left _ _
  rw [historyPushMemory]
  split
  · omega
  split
  · omega
  split
  · rw [total_append]
    exact Nat.add_le_add_left (by simpa [total] using hcopy) _
  · rw [total_append]
    exact Nat.add_le_add htail (by simpa [total] using hcopy)

theorem total_historyPushLoaded (history : List (List UInt8)) (line : List UInt8) :
    total (historyPushLoaded history line) + (if line.getLast? = some 13 then 1 else 0) ≤
      total history + line.length := by
  have hcopy : ∀ l : List UInt8, (copyBytes lineMax l).length ≤ l.length := fun l =>
    (length_take_le' _ _).trans (length_cstr_le l)
  rw [historyPushLoaded]
  by_cases hcr : line.getLast? = some 13
  · have hne : line ≠ [] := by
      rintro rfl
      cases hcr
    have hpos := length_pos_iff.2 hne
    have hdrop : line.dropLast.length = line.length - 1 := length_dropLast
    simp only [if_pos hcr]
    split
    · omega
    · have hpush := total_historyPushMemory history (copyBytes lineMax line.dropLast)
      have hle := hcopy line.dropLast
      omega
  · simp only [if_neg hcr]
    split
    · omega
    · have hpush := total_historyPushMemory history (copyBytes lineMax line)
      have hle := hcopy line
      omega

theorem total_foldl_le (lines history : List (List UInt8)) :
    total (lines.foldl historyPushLoaded history) ≤ total history + total lines := by
  induction lines generalizing history with
  | nil => exact le_rfl
  | cons e lines ih =>
    have hpush := total_historyPushLoaded history e
    have hrest := ih (historyPushLoaded history e)
    have hcons : total (e :: lines) = e.length + total lines := by simp [total]
    rw [foldl_cons]
    omega

theorem total_foldl_lt {lines : List (List UInt8)} (history : List (List UInt8))
    (h : ∃ e ∈ lines, e.getLast? = some 13) :
    total (lines.foldl historyPushLoaded history) < total history + total lines := by
  induction lines generalizing history with
  | nil => simp at h
  | cons e lines ih =>
    have hpush := total_historyPushLoaded history e
    have hcons : total (e :: lines) = e.length + total lines := by simp [total]
    rw [foldl_cons]
    by_cases hcr : e.getLast? = some 13
    · have hrest := total_foldl_le lines (historyPushLoaded history e)
      rw [if_pos hcr] at hpush
      omega
    · have htail : ∃ e ∈ lines, e.getLast? = some 13 := by
        obtain ⟨e', he', hcr'⟩ := h
        rcases mem_cons.1 he' with rfl | he'
        · exact absurd hcr' hcr
        · exact ⟨e', he', hcr'⟩
      have hrest := ih (historyPushLoaded history e) htail
      omega

/-! ## Runs -/

theorem historyOk_pushLoaded (h : HistoryOk history) (line : List UInt8) :
    HistoryOk (historyPushLoaded history line) := by
  rw [historyPushLoaded]
  generalize (if line.getLast? = some 13 then line.dropLast else line) = cut
  split
  · exact h
  · refine historyOk_push h (lt_of_le_of_lt (length_cstr_le _) ?_)
    exact length_copyBytes_lt (by decide) _

theorem historyOk_loadLoop (data line : List UInt8) (h : HistoryOk history) :
    HistoryOk (historyLoadLoop data line history) := by
  induction data generalizing line history with
  | nil => exact historyOk_pushLoaded h line
  | cons c data ih =>
    rw [historyLoadLoop]
    split
    · exact ih _ (historyOk_pushLoaded h line)
    · exact ih _ h

theorem historyOk_initial (hs : Initial s) : HistoryOk s.history := by
  obtain ⟨cwd, file, rfl⟩ := hs
  rw [historyLoad]
  split
  · exact historyOk_nil
  · exact historyOk_loadLoop _ _ historyOk_nil

theorem historyOk_step (h : Sized s) (hok : HistoryOk s.history) {e : Event}
    (hstep : step s e = some s') : HistoryOk s'.history := by
  cases e with
  | start cwd =>
    cases hstep
    exact hok
  | key dirs ch input =>
    obtain ⟨r, hround, rfl⟩ := map_eq_some_iff.1 hstep
    by_cases hkey : keyOf ch = .newline
    · rw [readKey, hkey] at hround
      obtain rfl := Option.some.inj hround
      exact historyOk_pressEnter h hok
    · rw [history_readKey hkey hround]
      exact hok

theorem reachable_historyOk (hrun : Reachable Initial (fun s s' => ∃ e, step s e = some s') s) :
    HistoryOk s.history := by
  have hboth : Sized s ∧ HistoryOk s.history := by
    refine hrun.invariant (I := fun s => Sized s ∧ HistoryOk s.history)
      (fun s hs => ⟨(keeps_initial (K := anyText) hs).sized, historyOk_initial hs⟩) ?_
    rintro s s' ⟨hsized, hok⟩ ⟨e, hstep⟩
    exact ⟨sized_step hsized hstep, historyOk_step hsized hok hstep⟩
  exact hboth.2

theorem history_saved (h : HistoryOk s.history) :
    (historyLoad (newState s.cwd) (historySave s)).history =
      historyLoadLoop (historySave s) [] [] := by
  have hcount := h.len
  have hlen := length_unlines_le fun e he => (h.entry e he).len
  have hfit : (historySave s).length ≤ historyDataMax - 1 := by
    rw [historySave_eq h]
    simp only [historyMax, lineMax, historyDataMax] at *
    omega
  rw [historyLoad, take_of_length_le hfit]
  by_cases hnil : historySave s = []
  · rw [hnil]
    rfl
  · exact congrArg EditorState.history (if_neg hnil)

/-- In every state of every run the history is in order, and it survives the file exactly when
no entry holds a newline or ends in a carriage return. -/
theorem history_persistence
    (hrun : Reachable Initial (fun s s' => ∃ e, step s e = some s') s) :
    HistoryOk s.history ∧ (RoundTrips s ↔ ∀ entry ∈ s.history, Savable entry) := by
  have hok := reachable_historyOk hrun
  refine ⟨hok, ?_⟩
  rw [RoundTrips, history_saved hok]
  constructor
  · intro heq entry hmem
    have h10 : ∀ e ∈ s.history, (10 : UInt8) ∉ e := by
      rw [← heq]
      exact notMem_historyLoadLoop _ not_mem_nil (by simp)
    refine ⟨h10 entry hmem, fun hcr => ?_⟩
    have hlt := total_foldl_lt [] ⟨entry, hmem, hcr⟩
    rw [historySave_eq hok,
      historyLoadLoop_unlines (fun e he => ⟨h10 e he, (hok.entry e he).string⟩)] at heq
    rw [heq] at hlt
    simp [total] at hlt
  · intro hsave
    rw [historySave_eq hok,
      historyLoadLoop_unlines (fun e he => ⟨(hsave e he).1, (hok.entry e he).string⟩)]
    exact foldl_historyPushLoaded (by simpa using hok) hsave

/-- The line `l` is typed and ended. -/
theorem history_persistence_typed : ∃ s, s.history = [[108]] ∧
    HistoryOk s.history ∧ (RoundTrips s ↔ ∀ entry ∈ s.history, Savable entry) :=
  ⟨_, by decide, history_persistence (.next (.next (.start ⟨[47], [], rfl⟩)
    ⟨.key noDirs 108 [], rfl⟩) ⟨.key noDirs 10 [], rfl⟩)⟩

/-- A newline in a line cuts it in two. -/
theorem history_loses_newline :
    ¬ ∀ s, Reachable Initial (fun s s' => ∃ e, step s e = some s') s → RoundTrips s := by
  intro h
  have htrip := h _ (.next (.next (.next (.start ⟨[47], [], rfl⟩) ⟨.key noDirs 0xC3 [10], rfl⟩)
    ⟨.key noDirs 98 [], rfl⟩) ⟨.key noDirs 10 [], rfl⟩)
  rw [RoundTrips] at htrip
  exact absurd htrip (by decide)

end Cleonos.Editor
