import Cleonos.Editor.Keep
import Cleonos.Lib.Collect

/-!
# What completion puts into the line

The matches are the first of the texts that the word may stand for, without repetitions, as many
as the table takes.
-/

namespace Cleonos.Editor

open List Option
open Shell (copyBytes appendBytes hasSuffix containsByte lineMax pathMax copyBytes_of_fits)
open LexicalPath (slash)
open Collect

variable {s : EditorState} {dirs : Dirs} {token dir pre name text : List UInt8}
  {items texts : List (List UInt8)}

/-! ## Candidates -/

/-- The command for which a file is a program, if the word may stand for it. -/
def elfText (token name : List UInt8) : Option (List UInt8) :=
  if name.length > 4 ∧ hasSuffix name (lit ".elf") then
    let command := copyBytes pathMax (name.take (name.length - 4))
    if hasPrefixToken command token then some command else none
  else none

/-- What stands for a child of a directory, if the word may stand for it. -/
def pathText (dirs : Dirs) (token dir pre name : List UInt8) : Option (List UInt8) :=
  if hasPrefixToken name pre then
    (joinPath dir name).map fun child =>
      let completion := childText token child name
      if dirs.statType child = fsTypeDir then (appendBytes pathMax completion [slash]).2
      else completion
  else none

/-- The texts of the children of a directory. -/
def childTexts (dirs : Dirs) (dir : List UInt8) (text : List UInt8 → Option (List UInt8)) :
    List (List UInt8) :=
  if dirs.statType dir ≠ fsTypeDir then []
  else (List.range (dirs.childCount dir)).filterMap fun i => (dirs.name dir i).bind text

def commandTexts (token : List UInt8) : List (List UInt8) := commands.filter (hasPrefixToken · token)

def externalTexts (dirs : Dirs) (token : List UInt8) : List (List UInt8) :=
  childTexts dirs (lit "/shell/apps") (elfText token) ++
    childTexts dirs (lit "/shell/apps/uwm") (elfText token) ++
    childTexts dirs (lit "/shell/apps/inputm") (elfText token)

def pathTexts (dirs : Dirs) (cwd token : List UInt8) : List (List UInt8) :=
  match splitPathToken cwd token with
  | none => []
  | some (dir, pre) => childTexts dirs dir (pathText dirs token dir pre)

/-- The texts that the word before the cursor may stand for, each once: commands, programs and the
files of a directory, however many there are. -/
def candidates (dirs : Dirs) (s : EditorState) : List (List UInt8) :=
  let tok := findCompletionToken s
  let texts :=
    if tok.command && ! containsByte tok.token slash then
      commandTexts tok.token ++ externalTexts dirs tok.token
    else []
  ((texts ++ pathTexts dirs s.cwd tok.token).filter (· ≠ [])).eraseDups

/-- A text that its buffer holds. -/
def Fits (text : List UInt8) : Prop := (0 : UInt8) ∉ text ∧ text.length < pathMax

theorem fits_copyBytes (text : List UInt8) : Fits (copyBytes pathMax text) :=
  ⟨Shell.notMem_copyBytes _ _, Shell.length_copyBytes_lt (by decide) _⟩

theorem fits_appendBytes (h : (0 : UInt8) ∉ text) (more : List UInt8) :
    Fits (appendBytes pathMax text more).2 := by
  constructor
  · intro hmem
    rcases mem_append.1 (mem_of_mem_take hmem) with h0 | h0
    · exact h h0
    · exact notMem_cstr more h0
  · simp only [appendBytes, length_take]
    have hpos : 0 < pathMax := by decide
    omega

theorem fits_elfText {command : List UInt8} (h : elfText token name = some command) :
    Fits command := by
  rw [elfText] at h
  split at h
  · simp only at h
    split at h
    · cases h
      exact fits_copyBytes _
    · cases h
  · cases h

theorem fits_childText (token child name : List UInt8) : Fits (childText token child name) := by
  rw [childText]
  split
  · exact fits_copyBytes _
  · exact fits_appendBytes (Shell.notMem_copyBytes _ _) _

theorem fits_pathText (h : pathText dirs token dir pre name = some text) : Fits text := by
  rw [pathText] at h
  split at h
  · obtain ⟨child, -, rfl⟩ := map_eq_some_iff.1 h
    have hfits := fits_childText token child name
    simp only
    split
    · exact fits_appendBytes hfits.1 _
    · exact hfits
  · cases h

theorem fits_childTexts {f : List UInt8 → Option (List UInt8)}
    (hf : ∀ name text, f name = some text → Fits text) (h : text ∈ childTexts dirs dir f) :
    Fits text := by
  rw [childTexts] at h
  split at h
  · cases h
  · obtain ⟨i, -, hi⟩ := mem_filterMap.1 h
    obtain ⟨name, -, hname⟩ := bind_eq_some_iff.1 hi
    exact hf name text hname

theorem fits_commands : ∀ command ∈ commands, Fits command := by
  have hall : commands.all fun command => ! command.contains 0 && decide (command.length < 192) := by
    decide +kernel
  intro command hmem
  have hcommand := all_eq_true.1 hall command hmem
  simp only [Bool.and_eq_true, Bool.not_eq_true', contains_eq_mem, decide_eq_true_eq,
    decide_eq_false_iff_not] at hcommand
  exact hcommand

/-- The texts are put into the table one after the other. -/
def addAll (items texts : List (List UInt8)) : List (List UInt8) := texts.foldl matchAdd items

theorem addAll_append (items texts more : List (List UInt8)) :
    addAll items (texts ++ more) = addAll (addAll items texts) more := foldl_append

theorem matchAdd_of_full (h : items.length ≥ matchMax) (text : List UInt8) :
    matchAdd items text = items := if_pos (Or.inr h)

theorem matchAdd_eq (h : Fits text) (hne : text ≠ []) :
    matchAdd items text = addNew matchMax items text := by
  rw [matchAdd, addNew, copyBytes_of_fits h.1 h.2]
  simp only [hne, false_or]

theorem addChildren_eq {f : List UInt8 → Option (List UInt8)}
    {add : List (List UInt8) → List UInt8 → List (List UInt8)}
    (hadd : ∀ items name, add items name = addAll items (f name).toList)
    (hdir : dirs.statType dir = fsTypeDir) (items : List (List UInt8)) :
    addChildren dirs dir add items = addAll items (childTexts dirs dir f) := by
  rw [addChildren, childTexts, if_neg (by simpa using hdir)]
  induction List.range (dirs.childCount dir) generalizing items with
  | nil => rfl
  | cons i rest ih =>
    rw [foldl_cons, ih, filterMap_cons]
    cases hname : dirs.name dir i with
    | none =>
      simp only [bind_none]
      split
      · rfl
      · rfl
    | some name =>
      simp only [bind_some]
      have hround : (if items.length ≥ matchMax then items else add items name) =
          addAll items (f name).toList := by
        split
        · next hfull =>
          cases f name with
          | none => rfl
          | some text => exact (matchAdd_of_full hfull text).symm
        · exact hadd items name
      rw [hround]
      cases f name with
      | none => rfl
      | some text => rfl

theorem completeElfDir_eq (dirs : Dirs) (dir token : List UInt8) (items : List (List UInt8)) :
    completeElfDir dirs dir token items = addAll items (childTexts dirs dir (elfText token)) := by
  rw [completeElfDir]
  by_cases hdir : dirs.statType dir = fsTypeDir
  · rw [if_neg (by simpa using hdir)]
    refine addChildren_eq (fun items name => ?_) hdir items
    rw [addElf, elfText]
    split
    · simp only
      split
      · rfl
      · rfl
    · rfl
  · rw [if_pos hdir, childTexts, if_pos hdir]
    rfl

theorem completePath_eq (dirs : Dirs) (cwd token : List UInt8) (items : List (List UInt8)) :
    completePath dirs cwd token items = addAll items (pathTexts dirs cwd token) := by
  rw [completePath, pathTexts]
  cases splitPathToken cwd token with
  | none => rfl
  | some split =>
    obtain ⟨dir, pre⟩ := split
    simp only
    by_cases hdir : dirs.statType dir = fsTypeDir
    · rw [if_neg (by simpa using hdir)]
      refine addChildren_eq (fun items name => ?_) hdir items
      rw [addPath, pathText]
      split
      · cases joinPath dir name with
        | none => rfl
        | some child => rfl
      · rfl
    · rw [if_pos hdir, childTexts, if_pos hdir]
      rfl

theorem completeCommands_eq (token : List UInt8) (items : List (List UInt8)) :
    completeCommands token items = addAll items (commandTexts token) := by
  rw [completeCommands, commandTexts, addAll, foldl_filter]

theorem addAll_eq (hfits : ∀ text ∈ texts, Fits text) :
    addAll [] texts = ((texts.filter (· ≠ [])).eraseDups).take matchMax := by
  have hfold : ∀ items, addAll items texts =
      (texts.filter (· ≠ [])).foldl (addNew matchMax) items := by
    induction texts with
    | nil => exact fun _ => rfl
    | cons text texts ih =>
      intro items
      have hrest := ih fun t ht => hfits t (mem_cons_of_mem _ ht)
      by_cases hne : text = []
      · rw [filter_cons_of_neg (by simpa using hne), ← hrest, addAll, foldl_cons, hne]
        rfl
      · rw [filter_cons_of_pos (by simpa using hne), foldl_cons, ← hrest, addAll,
          foldl_cons, matchAdd_eq (hfits text mem_cons_self) hne]
        rfl
  rw [hfold, foldl_addNew (Nat.zero_le _)]
  simp

theorem completionMatches_eq (dirs : Dirs) (s : EditorState) :
    completionMatches dirs s = (candidates dirs s).take matchMax := by
  rw [completionMatches, candidates, completePath_eq]
  have hpath : ∀ text ∈ pathTexts dirs s.cwd (findCompletionToken s).token, Fits text := by
    intro text hmem
    rw [pathTexts] at hmem
    split at hmem
    · cases hmem
    · exact fits_childTexts (fun _ _ h => fits_pathText h) hmem
  split
  · rw [completeExternalCommands, completeElfDir_eq, completeElfDir_eq, completeElfDir_eq, completeCommands_eq,
      ← addAll_append, ← addAll_append, ← addAll_append, ← addAll_append, addAll_eq]
    · simp only [externalTexts, append_assoc]
    · intro text hmem
      have helf : ∀ dir, text ∈ childTexts dirs dir (elfText (findCompletionToken s).token) →
          Fits text := fun dir h => fits_childTexts (fun _ _ h => fits_elfText h) h
      simp only [mem_append] at hmem
      rcases hmem with hmem | hmem | hmem | hmem | hmem
      · exact fits_commands text (mem_filter.1 hmem).1
      · exact helf _ hmem
      · exact helf _ hmem
      · exact helf _ hmem
      · exact hpath text hmem
  · rw [addAll_eq hpath, nil_append]

/-- The longest start that texts have in common. -/
structure IsCommonStart (front : List UInt8) (texts : List (List UInt8)) : Prop where
  common : ∀ text ∈ texts, front <+: text
  longest : ∀ other, (∀ text ∈ texts, other <+: text) → other <+: front

theorem prefix_commonStart_iff {front a b : List UInt8} :
    front <+: commonStart a b ↔ front <+: a ∧ front <+: b := by
  induction a generalizing front b with
  | nil =>
    rw [commonStart]
    · constructor
      · intro h
        rw [prefix_nil.1 h]
        exact ⟨List.nil_prefix, nil_prefix⟩
      · exact fun h => h.1
    · simp
  | cons c a ih =>
    cases b with
    | nil =>
      rw [commonStart]
      · constructor
        · intro h
          rw [prefix_nil.1 h]
          exact ⟨List.nil_prefix, nil_prefix⟩
        · exact fun h => h.2
      · simp
    | cons d b =>
      cases front with
      | nil => simp
      | cons e front =>
        rw [commonStart]
        split
        · next hcd =>
          rw [cons_prefix_cons, cons_prefix_cons, cons_prefix_cons, ih, hcd]
          tauto
        · next hcd =>
          rw [cons_prefix_cons, cons_prefix_cons]
          constructor
          · intro h
            cases prefix_nil.1 h
          · intro h
            exact absurd (h.1.1.symm.trans h.2.1) hcd

theorem prefix_foldl_iff {front item : List UInt8} (items : List (List UInt8)) :
    front <+: items.foldl commonStart item ↔ front <+: item ∧ ∀ text ∈ items, front <+: text := by
  induction items generalizing item with
  | nil => simp
  | cons next items ih =>
    rw [foldl_cons, ih, prefix_commonStart_iff, forall_mem_cons, and_assoc]

theorem isCommonStart_commonPrefix (h : items ≠ []) : IsCommonStart (commonPrefix items) items := by
  cases items with
  | nil => exact absurd rfl h
  | cons item items =>
    have hiff : ∀ front : List UInt8,
        front <+: commonPrefix (item :: items) ↔ ∀ text ∈ item :: items, front <+: text := by
      intro front
      rw [commonPrefix, prefix_foldl_iff, forall_mem_cons]
    exact ⟨(hiff _).1 (prefix_refl _), fun other hother => (hiff other).2 hother⟩

/-- The text up to the cursor. -/
def beforeCursor (s : EditorState) : List UInt8 := s.text.take s.cursor

/-- The text in front of the word that is completed. -/
def beforeWord (s : EditorState) : List UInt8 := s.text.take (findCompletionToken s).start

/-- A text stands for the word, as far as the line has room. -/
def inPlace (s : EditorState) (text : List UInt8) : List UInt8 :=
  keptPart s (findCompletionToken s).start (findCompletionToken s).stop text

instance (s : EditorState) (item : List UInt8) : Decidable (AddsSpace s item) :=
  inferInstanceAs (Decidable (_ ∧ _ ∧ _))

/-- What completion makes of the text up to the cursor: it stays without a text that the word may
stand for; the only text is put in, with a space behind it unless it is a directory; and the
longest start of several ones is put in if it is longer than the word. -/
structure Completed (texts : List (List UInt8)) (s s' : EditorState) : Prop where
  nothing : texts = [] → beforeCursor s' = beforeCursor s
  only : ∀ text, texts = [text] → beforeCursor s' = beforeWord s ++ inPlace s text ++
    if AddsSpace s text then [32] else []
  several : 2 ≤ texts.length → ∃ front, IsCommonStart front texts ∧ beforeCursor s' =
    if front.length > (findCompletionToken s).token.length then beforeWord s ++ inPlace s front
    else beforeCursor s

theorem beforeCursor_replaceRangeRaw {start stop : ℕ} (hle : start ≤ stop) (hstop : stop ≤ s.lineLen)
    (replacement : List UInt8) : beforeCursor (replaceRangeRaw s start stop replacement) =
      s.text.take start ++ keptPart s start stop replacement := by
  rw [beforeCursor, cursor_replaceRangeRaw hle hstop, text_replaceRangeRaw hle hstop,
    take_replacementLen, replacementLen_eq]
  refine take_left' ?_
  rw [length_append, length_take, length_text, Nat.min_eq_left (hle.trans hstop)]

theorem beforeCursor_withMatch (s : EditorState) (item : List UInt8) :
    beforeCursor (withMatch s item) = beforeWord s ++ inPlace s item :=
  beforeCursor_replaceRangeRaw (findCompletionToken_le s).1 (findCompletionToken_le s).2 item

theorem cursor_withMatch_le (s : EditorState) (item : List UInt8) :
    (withMatch s item).cursor ≤ (withMatch s item).lineLen := by
  obtain ⟨hle, hstop⟩ := findCompletionToken_le s
  rw [withMatch, cursor_replaceRangeRaw hle hstop, replaceRangeRaw, if_neg (by omega)]
  exact Nat.le_add_right _ _

theorem completed_linenoiseComplete (dirs : Dirs) (s : EditorState) :
    Completed (completionMatches dirs s) s (linenoiseComplete dirs s).1 := by
  rw [linenoiseComplete]
  split
  · next hnil =>
    rw [hnil]
    exact ⟨fun _ => rfl, fun text h => absurd h (by simp), fun h => absurd h (by simp)⟩
  · next item hone =>
    rw [hone]
    refine ⟨fun h => absurd h (by simp), fun text h => ?_, fun h => absurd h (by simp)⟩
    cases h
    have hcursor := cursor_withMatch_le s item
    simp only
    split
    · next hspace =>
      have hadds : AddsSpace s item := hspace
      have hroom : (withMatch s item).lineLen + 1 < lineMax := hspace.2.2
      have hkept : keptPart (withMatch s item) (withMatch s item).cursor (withMatch s item).cursor
          [32] = [32] := by
        rw [keptPart, roomBetween]
        exact take_of_length_le (by simp [cstr]; omega)
      have htake : (withMatch s item).text.take (withMatch s item).cursor =
          beforeWord s ++ inPlace s item := beforeCursor_withMatch s item
      have hline := beforeCursor_replaceRangeRaw le_rfl hcursor [32]
      rw [htake, hkept] at hline
      rw [if_pos hadds]
      exact hline
    · next hspace =>
      have hadds : ¬ AddsSpace s item := hspace
      rw [if_neg hadds, append_nil]
      exact beforeCursor_withMatch s item
  · next items hnil hone =>
    refine ⟨fun h => absurd h hnil, fun text h => absurd h (hone text), fun _ => ?_⟩
    refine ⟨_, isCommonStart_commonPrefix hnil, ?_⟩
    simp only
    split
    · next hlong =>
      exact beforeCursor_withMatch s _
    · next hlong =>
      rfl

/-- A key that completes puts in what the first candidates have in common, as many as the table
takes. -/
theorem completed_pressTab (dirs : Dirs) (s : EditorState) :
    Completed ((candidates dirs s).take matchMax) s (pressTab dirs s) := by
  have hcompleted := completed_linenoiseComplete dirs s
  rw [completionMatches_eq] at hcompleted
  have hsame : beforeCursor (pressTab dirs s) = beforeCursor (linenoiseComplete dirs s).1 := by
    rw [pressTab]
    split
    · rfl
    · rfl
  refine ⟨fun h => ?_, fun text h => ?_, fun h => ?_⟩
  · rw [hsame]
    exact hcompleted.nothing h
  · rw [hsame]
    exact hcompleted.only text h
  · rw [hsame]
    exact hcompleted.several h

/-- A directory with more files than the table takes: all names but the last one start with `ab`. -/
def manyFiles : Dirs :=
  ⟨fun path => if path = [slash] then fsTypeDir else 0, fun _ => matchMax + 1,
    fun _ i => some (if i < matchMax then [97, 98, UInt8.ofNat (i + 48)] else lit "ac")⟩

/-- A directory with one file. -/
def oneFile : Dirs :=
  ⟨fun path => if path = [slash] then fsTypeDir else 0, fun _ => 1, fun _ _ => some (lit "abcdefgh")⟩

/-- A line with room for two more bytes behind the word `a`. -/
def longLine : EditorState := withLine (List.replicate 187 120 ++ lit " a")

/-- The word `a` is completed to `ab`, with a file `ac` in the directory; and the only file is not
completed in full where the line is full. -/
theorem completed_forgets_file :
    (¬ ∀ dirs s, Completed (candidates dirs s) s (pressTab dirs s)) ∧
      ¬ ∀ dirs s text, candidates dirs s = [text] →
        beforeWord s ++ text <+: beforeCursor (pressTab dirs s) := by
  constructor
  · intro h
    obtain ⟨front, hfront, hline⟩ := (h manyFiles (withLine (lit "l a"))).several (by decide +kernel)
    have hfirst := hfront.common [97, 98, 48] (by decide +kernel)
    have hlast := hfront.common (lit "ac") (by decide +kernel)
    have hshort : front.length ≤ 1 := (prefix_commonStart_iff.2 ⟨hfirst, hlast⟩).length_le
    have htoken : (findCompletionToken (withLine (lit "l a"))).token.length = 1 := by decide
    rw [if_neg (by omega)] at hline
    exact absurd hline (by decide +kernel)
  · intro h
    have hline := h oneFile longLine (lit "abcdefgh") (by decide +kernel)
    exact absurd hline (by decide +kernel)

end Cleonos.Editor
