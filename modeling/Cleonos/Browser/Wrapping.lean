import Cleonos.Browser.Escapes
import Cleonos.Lib.Text

/-!
# Lines of the screen

`ush_browser_print_wrapped_span` and the loop of `ush_browser_print_rendered` in `browser_output.c`:
the lines of a page are cut into lines of the screen, at a blank if there is one, and the output
ends after 220 of them.
-/

namespace Cleonos.Browser.Output

open List

/-! ## The source -/

/-- `USH_BROWSER_OUTPUT_COLS`. -/
def outputCols : ℕ := 78

/-- The lines that are printed of a page. -/
def outputLines : ℕ := 220

/-- The branch for a line that is full: `line_end` and `pos`. -/
def breakLine (lastSpace : Option ℕ) (pos : ℕ) : ℕ × ℕ :=
  match lastSpace with
  | some space => if 0 < space then (space, space + 1) else (pos, pos)
  | none => (pos, pos)

/-- The loop that looks for the end of a line, with positions from `line_start`: `line_end`, and
`pos` behind the loop.  `rest` is the text from `line_start` to `end`. -/
def scanLine (rest : List UInt8) : ℕ → ℕ → Option ℕ → ℕ → ℕ × ℕ
  | 0, pos, _, _ => (pos, pos)
  | fuel + 1, pos, lastSpace, col =>
    if pos < rest.length then
      match ansiCsiLen (rest.drop pos) with
      | some ansiLen => scanLine rest fuel (pos + ansiLen) lastSpace col
      | none =>
        let lastSpace := if rest[pos]? = some 32 then some pos else lastSpace
        if outputCols ≤ col then breakLine lastSpace pos
        else scanLine rest fuel (pos + 1) lastSpace (col + 1)
    else (pos, pos)

/-- A round of `ush_browser_print_wrapped_span`: the line that is printed, if it is not empty, and
`pos` behind the round. -/
def wrapRound (rest : List UInt8) : List UInt8 × ℕ :=
  let (lineEnd, pos) := scanLine rest (rest.length + 1) 0 none 0
  let line := (rest.take lineEnd).rdropWhile (· == 32)
  if line ≠ [] then (line, pos) else ([], if pos < rest.length then pos + 1 else pos)

/-- What has been printed: the lines, how many of them count, whether the output has been
truncated, and what is left of the text. -/
structure Printed where
  lines : List (List UInt8)
  lineCount : ℕ
  truncated : Bool
  unread : List UInt8
deriving DecidableEq, Repr

/-- `ush_browser_print_wrapped_span`, with the text from `pos` to `end`. -/
def printWrapped : ℕ → List UInt8 → ℕ → Option Printed
  | 0, _, _ => none
  | fuel + 1, rest, lineCount =>
    if rest = [] then some ⟨[], lineCount, false, []⟩
    else
      let (line, pos) := wrapRound rest
      if line ≠ [] then
        if outputLines ≤ lineCount + 1 then some ⟨[line], lineCount + 1, true, rest.drop pos⟩
        else (printWrapped fuel (rest.drop pos) (lineCount + 1)).map fun r =>
          { r with lines := line :: r.lines }
      else printWrapped fuel (rest.drop pos) lineCount

/-- The loop of `ush_browser_print_rendered`, with the text from `i`. -/
def printRendered : ℕ → List UInt8 → ℕ → Option Printed
  | 0, _, _ => none
  | fuel + 1, text, lineCount =>
    if text = [] then some ⟨[], lineCount, false, []⟩
    else
      let span := text.takeWhile (· != 10)
      let behind := text.dropWhile (· != 10)
      if span ≠ [] then
        (printWrapped (span.length + 1) span lineCount).bind fun r =>
          if r.truncated then some { r with unread := r.unread ++ behind }
          else (printRendered fuel (behind.drop 1) r.lineCount).map fun t =>
            { t with lines := r.lines ++ t.lines }
      else (printRendered fuel (behind.drop 1) lineCount).map fun t =>
        if 0 < lineCount then { t with lines := [] :: t.lines } else t

/-- The text of a page as `ush_browser_print_rendered` prints it. -/
def printText (text : List UInt8) : Option Printed := printRendered (text.length + 1) text 0

/-- The escape sequences and the visible bytes that are no blanks, of a line. -/
def keptLine (line : List UInt8) : List Item := (itemsOf line).filter (· ≠ blank)

/-- The escape sequences and the visible bytes that are no blanks, of a text. -/
def kept (text : List UInt8) : List Item := (text.splitOn 10).flatMap keptLine

/-- Printing a page ends; no line takes more columns than there are, and what is printed is what the
text holds, up to where the output has been truncated. -/
def WrapLaw (text : List UInt8) : Prop :=
  ∃ r, printText text = some r ∧ (∀ line ∈ r.lines, width (itemsOf line) ≤ outputCols) ∧
    (r.truncated = false → r.unread = []) ∧ r.unread <:+ text ∧
    kept text = r.lines.flatMap keptLine ++ kept r.unread

/-- The columns of what is in front of the first blank. -/
def wordWidth (l : List Item) : ℕ := width (l.takeWhile (· ≠ blank))

def leading (rest : List UInt8) : ℕ := (rest.takeWhile (· == 32)).length

/-- What is behind the blanks in front. -/
def unindented (rest : List UInt8) : List UInt8 := rest.dropWhile (· == 32)

/-- A text starts with at least two blanks, and not more than a line of them and one, and the word
behind them does not end in the line. -/
def Overhang (rest : List UInt8) : Prop :=
  2 ≤ leading rest ∧ leading rest ≤ outputCols + 1 ∧ unindented rest ≠ [] ∧
    outputCols < leading rest + wordWidth (itemsOf (unindented rest))

instance : DecidablePred Overhang := fun rest =>
  inferInstanceAs (Decidable (2 ≤ leading rest ∧ leading rest ≤ outputCols + 1 ∧
    unindented rest ≠ [] ∧ outputCols < leading rest + wordWidth (itemsOf (unindented rest))))

/-- What is in front of the rounds of `printWrapped`. -/
def wrapStarts : ℕ → List UInt8 → ℕ → List (List UInt8)
  | 0, _, _ => []
  | fuel + 1, rest, lineCount =>
    if rest = [] then []
    else
      let (line, pos) := wrapRound rest
      rest ::
        if line ≠ [] then
          if outputLines ≤ lineCount + 1 then []
          else wrapStarts fuel (rest.drop pos) (lineCount + 1)
        else wrapStarts fuel (rest.drop pos) lineCount

/-- What is in front of the rounds of `printRendered`. -/
def renderStarts : ℕ → List UInt8 → ℕ → List (List UInt8)
  | 0, _, _ => []
  | fuel + 1, text, lineCount =>
    if text = [] then []
    else
      let span := text.takeWhile (· != 10)
      let behind := text.dropWhile (· != 10)
      wrapStarts (span.length + 1) span lineCount ++
        match printWrapped (span.length + 1) span lineCount with
        | some r => if r.truncated then [] else renderStarts fuel (behind.drop 1) r.lineCount
        | none => []

/-- The places where the program starts a line of the screen: what is left of the line of the page
there. -/
def lineStarts (text : List UInt8) : List (List UInt8) := renderStarts (text.length + 1) text 0

/-- A line, the blank behind it that is left out, and what is behind both. -/
inductive Break : List Item → List Item → List Item → Prop
  | atEnd {l : List Item} (hwidth : width l ≤ outputCols) : Break l [] []
  | atBlank {l m : List Item} (hne : l ≠ []) (hwidth : width l ≤ outputCols)
      (hword : outputCols < width l + 1 + wordWidth m) : Break l [blank] m
  | inWord {l m : List Item} (hwidth : width l = outputCols) (hblank : blank ∉ l.drop 1) :
      Break l [] m

/-- What `last_space` holds behind items. -/
inductive LastBlank : List Item → Option ℕ → Prop
  | none {l : List Item} (h : blank ∉ l) : LastBlank l none
  | some {l w : List Item} (h : blank ∉ w) : LastBlank (l ++ blank :: w) (some (bytes l).length)

variable {rest text : List UInt8} {l m gap : List Item} {i : Item}

theorem bytes_blank : bytes [blank] = [32] := rfl

theorem width_blank (l : List Item) : width (blank :: l) = width l + 1 := width_visible

theorem LastBlank.append {lastSpace : Option ℕ} (h : LastBlank l lastSpace) (hi : i ≠ blank) :
    LastBlank (l ++ [i]) lastSpace := by
  cases h with
  | none h => exact .none (by simpa using ⟨h, hi.symm⟩)
  | some h =>
    rw [append_assoc, cons_append]
    exact .some (by simpa using ⟨h, hi.symm⟩)

theorem width_le_wordWidth (h : blank ∉ l) (m : List Item) : width l ≤ wordWidth (l ++ m) := by
  have hall : ∀ j ∈ l, decide (j ≠ blank) = true := by
    intro j hj
    exact decide_eq_true (ne_of_mem_of_not_mem hj h)
  rw [wordWidth, takeWhile_append_of_pos hall, width_append]
  exact Nat.le_add_right _ _

theorem break_full {lastSpace : Option ℕ} {ch : UInt8} (hcut : itemsOf rest = l ++ .visible ch :: m)
    (hfull : width l = outputCols) (hlast : LastBlank l lastSpace) (hch : ch ≠ 32) :
    ∃ k gap n, l ++ .visible ch :: m = k ++ gap ++ n ∧ Break k gap n ∧
      breakLine lastSpace (bytes l).length = ((bytes k).length, (bytes (k ++ gap)).length) := by
  cases hlast with
  | none h =>
    refine ⟨l, [], .visible ch :: m, by simp, .inWord hfull ?_, by rw [append_nil]; rfl⟩
    exact fun hmem => h (mem_of_mem_drop hmem)
  | @some k w h =>
    have hwidth : width k + (width w + 1) = outputCols := by
      rw [← hfull, width_append, width_blank]
    by_cases hk : k = []
    · subst hk
      refine ⟨blank :: w, [], .visible ch :: m, by simp, .inWord hfull h, ?_⟩
      rw [append_nil, breakLine]
      rfl
    · have hpos : 0 < (bytes k).length := by
        rw [append_assoc] at hcut
        exact bytes_length_pos hcut hk
      refine ⟨k, [blank], w ++ .visible ch :: m, by simp, .atBlank hk (by omega) ?_, ?_⟩
      · have hne : blank ∉ w ++ [.visible ch] := by
          have hblank : blank ≠ .visible ch := fun heq => hch (Item.visible.inj heq).symm
          simpa using ⟨h, hblank⟩
        have hword := width_le_wordWidth hne m
        rw [width_append, width_visible, width_nil, append_assoc,
          singleton_append] at hword
        omega
      · dsimp only [breakLine]
        rw [if_pos hpos, bytes_append, bytes_blank, length_append, length_singleton]

theorem scanLine_loop (fuel : ℕ) (done todo : List Item) (lastSpace : Option ℕ)
    (hrest : itemsOf rest = done ++ todo) (hfuel : todo.length < fuel)
    (hlast : LastBlank done lastSpace) (hwidth : width done ≤ outputCols) :
    ∃ l gap m, itemsOf rest = l ++ gap ++ m ∧ Break l gap m ∧
      scanLine rest fuel (bytes done).length lastSpace (width done) =
        ((bytes l).length, (bytes (l ++ gap)).length) := by
  induction todo generalizing fuel done lastSpace with
  | nil =>
    obtain ⟨fuel, rfl⟩ := Nat.exists_eq_succ_of_ne_zero (Nat.ne_zero_of_lt hfuel)
    rw [append_nil] at hrest
    have hend : ¬ (bytes done).length < rest.length := by
      rw [← hrest, bytes_itemsOf]
      exact Nat.lt_irrefl _
    refine ⟨done, [], [], by simpa using hrest, .atEnd hwidth, ?_⟩
    rw [scanLine, if_neg hend, append_nil]
  | cons i todo ih =>
    obtain ⟨fuel, rfl⟩ := Nat.exists_eq_succ_of_ne_zero (Nat.ne_zero_of_lt hfuel)
    rw [length_cons] at hfuel
    have hcut := (itemsOf_cut hrest).2
    have hdrop : rest.drop (bytes done).length = bytes (i :: todo) := by
      have hbytes : rest = bytes done ++ bytes (i :: todo) := by
        rw [← bytes_append, ← hrest, bytes_itemsOf]
      rw [hbytes, drop_left]
    have hlt : (bytes done).length < rest.length := by
      have hpos : 0 < (bytes (i :: todo)).length :=
        bytes_length_pos (m := []) (hcut.trans (append_nil _).symm) (by simp)
      rw [← hdrop, length_drop] at hpos
      omega
    have hassoc : itemsOf rest = (done ++ [i]) ++ todo := by
      rw [hrest, append_assoc, singleton_append]
    rw [scanLine, if_pos hlt, hdrop]
    cases i with
    | escape seq =>
      obtain ⟨hsome, -, -⟩ := itemsOf_eq_escape hcut
      have hih := ih fuel (done ++ [.escape seq]) lastSpace hassoc (by omega)
        (hlast.append fun h => by cases h) (by simpa using hwidth)
      rw [bytes_append, length_append, width_append, width_escape, bytes_cons, bytes_nil,
        append_nil] at hih
      rw [hsome]
      exact hih
    | visible ch =>
      obtain ⟨hnone, -, -⟩ := itemsOf_eq_visible hcut
      have hget : rest[(bytes done).length]? = some ch := by
        rw [← List.head?_drop, hdrop]
        rfl
      rw [hnone, hget]
      dsimp only
      by_cases hcol : outputCols ≤ width done
      · have hfull : width done = outputCols := Nat.le_antisymm hwidth hcol
        rw [if_pos hcol]
        by_cases hch : ch = 32
        · -- the blank is where the line is full
          subst hch
          have hne : done ≠ [] := by
            intro hnil
            rw [hnil] at hfull
            cases hfull
          rw [if_pos rfl]
          dsimp only [breakLine]
          rw [if_pos (bytes_length_pos hrest hne)]
          refine ⟨done, [blank], todo, hassoc, .atBlank hne hwidth (by omega), ?_⟩
          rw [bytes_append, bytes_blank, length_append, length_singleton]
        · rw [if_neg (fun h => hch (Option.some.inj h)), hrest]
          exact break_full hrest hfull hlast hch
      · have hstep : LastBlank (done ++ [.visible ch])
            (if some ch = some 32 then some (bytes done).length else lastSpace) := by
          by_cases hch : ch = 32
          · rw [if_pos (congrArg some hch), hch]
            exact .some not_mem_nil
          · rw [if_neg (fun h => hch (Option.some.inj h))]
            exact hlast.append fun h => hch (Item.visible.inj h)
        have hih := ih fuel (done ++ [.visible ch]) _ hassoc (by omega) hstep
          (by rw [width_append, width_visible, width_nil]; omega)
        rw [bytes_append, length_append, width_append, width_visible, width_nil] at hih
        rw [if_neg hcol]
        exact hih

theorem scanLine_break (rest : List UInt8) : ∃ l gap m, itemsOf rest = l ++ gap ++ m ∧
    Break l gap m ∧ scanLine rest (rest.length + 1) 0 none 0 =
      ((bytes l).length, (bytes (l ++ gap)).length) := by
  apply scanLine_loop (rest.length + 1) [] (itemsOf rest) none rfl
  · exact Nat.lt_succ_of_le (length_itemsOf_le rest)
  · exact .none not_mem_nil
  · exact Nat.zero_le _

theorem width_blanks (k : ℕ) : width (List.replicate k blank) = k := by
  induction k with
  | zero => rfl
  | succ k ih => rw [replicate_succ, width_blank, ih]

theorem wordWidth_blank (m : List Item) : wordWidth (blank :: m) = 0 := by
  rw [wordWidth, takeWhile_cons_of_neg (by simp), width_nil]

theorem wordWidth_le (m : List Item) : wordWidth m ≤ width m :=
  (takeWhile_sublist _).countP_le

theorem wordWidth_le_front (l m : List Item) : wordWidth (l ++ blank :: m) ≤ width l := by
  rw [wordWidth, takeWhile_append]
  split
  · rw [takeWhile_cons_of_neg (by simp), append_nil]
  · exact wordWidth_le l

theorem blanks_inj {j k : ℕ} (h : List.replicate j blank ++ l = List.replicate k blank ++ m)
    (hl : l.head? ≠ some blank) (hm : m.head? ≠ some blank) : j = k ∧ l = m := by
  induction j generalizing k with
  | zero =>
    cases k with
    | zero => exact ⟨rfl, h⟩
    | succ k =>
      rw [replicate_zero, nil_append, replicate_succ] at h
      rw [h] at hl
      exact absurd rfl hl
  | succ j ih =>
    cases k with
    | zero =>
      rw [replicate_zero, nil_append, replicate_succ] at h
      rw [← h] at hm
      exact absurd rfl hm
    | succ k =>
      rw [replicate_succ, replicate_succ, cons_append, cons_append] at h
      obtain ⟨hjk, hlm⟩ := ih (List.cons.inj h).2
      exact ⟨congrArg _ hjk, hlm⟩

theorem itemsOf_leading (rest : List UInt8) :
    itemsOf rest = List.replicate (leading rest) blank ++ itemsOf (unindented rest) ∧
      (itemsOf (unindented rest)).head? ≠ some blank := by
  have hsplit : rest = List.replicate (leading rest) 32 ++ unindented rest := by
    have hall : rest.takeWhile (· == 32) = List.replicate (leading rest) 32 := by
      rw [leading, eq_replicate_iff]
      exact ⟨rfl, fun c hc => beq_iff_eq.1 (mem_takeWhile_imp (p := (· == 32)) hc)⟩
    rw [← hall]
    exact takeWhile_append_dropWhile.symm
  constructor
  · conv_lhs => rw [hsplit]
    exact itemsOf_blanks _ _
  · intro hhead
    obtain ⟨n, hn⟩ := List.head?_eq_some_iff.1 hhead
    obtain ⟨-, hrest, -⟩ := itemsOf_eq_visible hn
    have hne := List.head?_dropWhile_not (· == 32) rest
    rw [← unindented, hrest] at hne
    cases hne

theorem overhang_iff (h : itemsOf rest = l ++ gap ++ m) (hbreak : Break l gap m) :
    Overhang rest ↔ (∀ i ∈ l, i = blank) ∧ m ≠ [] ∧ m.head? ≠ some blank := by
  obtain ⟨hlead, hhead⟩ := itemsOf_leading rest
  have hne : unindented rest ≠ [] ↔ itemsOf (unindented rest) ≠ [] := by
    constructor
    · intro hne hnil
      have hbytes := bytes_itemsOf (unindented rest)
      rw [hnil] at hbytes
      exact hne hbytes.symm
    · intro hne hnil
      rw [hnil] at hne
      exact hne rfl
  rw [Overhang, hne]
  generalize itemsOf (unindented rest) = n at hlead hhead
  generalize leading rest = k at hlead
  rw [hlead] at h
  constructor
  · rintro ⟨htwo, hmost, hn, hword⟩
    cases hbreak with
    | atEnd hwidth =>
      rw [append_nil, append_nil] at h
      rw [← h, width_append, width_blanks] at hwidth
      have hle := wordWidth_le n
      omega
    | inWord hwidth hblank =>
      rw [append_nil] at h
      obtain ⟨k, rfl⟩ := Nat.exists_eq_add_of_le' htwo
      rw [replicate_succ, replicate_succ] at h
      match l, h with
      | [], _ => cases hwidth
      | [i], _ =>
        have hle : width [i] ≤ 1 := countP_le_length
        rw [hwidth] at hle
        exact absurd hle (by decide)
      | i :: j :: l, h =>
        simp only [cons_append, List.cons.injEq] at h
        rw [← h.2.1] at hblank
        exact absurd mem_cons_self hblank
    | atBlank hl hwidth hbreak =>
      rw [append_assoc, singleton_append, append_eq_append_iff] at h
      rcases h with ⟨c, rfl, hn'⟩ | ⟨a, ha, hm⟩
      · rw [width_append, width_blanks] at hwidth
        have hle := wordWidth_le_front c m
        rw [← hn'] at hle
        omega
      · have hall : ∀ i ∈ l ++ a, i = blank := by
          rw [← ha]
          exact fun i hi => eq_of_mem_replicate hi
        refine ⟨fun i hi => hall i (mem_append_left a hi), ?_⟩
        cases a with
        | nil =>
          rw [nil_append] at hm
          rw [← hm] at hhead
          exact absurd rfl hhead
        | cons i a =>
          rw [cons_append] at hm
          obtain ⟨-, rfl⟩ := List.cons.inj hm
          cases a with
          | nil => exact ⟨hn, hhead⟩
          | cons j a =>
            -- a line of blanks, and at least two more
            have hj : j = blank := hall j (by simp)
            have hlen := congrArg width ha
            rw [width_blanks, width_append, hall i (by simp), hj, width_blank,
              width_blank] at hlen
            rw [cons_append, hj, wordWidth_blank] at hbreak
            omega
  · rintro ⟨hall, hm, hmhead⟩
    cases hbreak with
    | atEnd hwidth => exact absurd rfl hm
    | inWord hwidth hblank =>
      rw [eq_replicate_of_mem hall, width_blanks] at hwidth
      match l, hwidth with
      | i :: j :: l, _ => exact absurd (hall j (by simp) ▸ mem_cons_self) hblank
    | atBlank hl hwidth hword =>
      have hrep := eq_replicate_of_mem hall
      have hlen : width l = l.length := by
        rw [hrep, width_blanks, length_replicate]
      rw [hrep, ← replicate_succ'] at h
      obtain ⟨rfl, rfl⟩ := blanks_inj h hhead hmhead
      have hpos := length_pos_iff.2 hl
      refine ⟨by omega, by omega, hm, by omega⟩

def keptItems (l : List Item) : List Item := l.filter (· ≠ blank)

theorem keptItems_append (l m : List Item) : keptItems (l ++ m) = keptItems l ++ keptItems m :=
  filter_append l m

theorem keptItems_blanks (h : ∀ i ∈ l, i = blank) : keptItems l = [] := by
  rw [keptItems, filter_eq_nil_iff]
  intro i hi
  simp [h i hi]

theorem keptLine_bytes (h : itemsOf (bytes l) = l) : keptLine (bytes l) = keptItems l := by
  rw [keptLine, h]
  rfl

theorem wrapRound_eq (rest : List UInt8) : ∃ l gap m front k,
    itemsOf rest = l ++ gap ++ m ∧ Break l gap m ∧ l = front ++ List.replicate k blank ∧
      front.getLast? ≠ some blank ∧ wrapRound rest = if bytes front ≠ [] then (bytes front, (bytes (l ++ gap)).length)
        else ([], if (bytes (l ++ gap)).length < rest.length then (bytes (l ++ gap)).length + 1
          else (bytes (l ++ gap)).length) := by
  obtain ⟨l, gap, m, hitems, hbreak, hscan⟩ := scanLine_break rest
  have hl : itemsOf (bytes l) = l := by
    rw [append_assoc] at hitems
    exact (itemsOf_cut hitems).1
  obtain ⟨front, k, hfront, hlast, htrim⟩ := exists_trim hl
  refine ⟨l, gap, m, front, k, hitems, hbreak, hfront, hlast, ?_⟩
  have htake : rest.take (bytes l).length = bytes l := by
    have hrest : rest = bytes l ++ (bytes gap ++ bytes m) := by
      rw [← append_assoc, ← bytes_append, ← bytes_append, ← hitems, bytes_itemsOf]
    rw [hrest, take_left]
  rw [wrapRound, hscan]
  dsimp only
  rw [htake, htrim]

theorem Break.gap_blank (h : Break l gap m) : ∀ i ∈ gap, i = blank := by
  cases h with
  | atEnd => simp
  | inWord => simp
  | atBlank => simp

theorem Break.width_le (h : Break l gap m) : width l ≤ outputCols := by
  cases h with
  | atEnd hwidth => exact hwidth
  | inWord hwidth => exact hwidth.le
  | atBlank _ hwidth => exact hwidth

theorem countP_blanks (h : ∀ i ∈ l, i = blank) : (bytes l).countP (· != 32) = 0 := by
  rw [eq_replicate_of_mem h, bytes_blanks, countP_replicate]
  rfl

theorem wrapRound_cases (hne : rest ≠ []) : 0 < (wrapRound rest).2 ∧
    width (itemsOf (wrapRound rest).1) ≤ outputCols ∧
    (¬ Overhang rest → keptLine rest =
      keptLine (wrapRound rest).1 ++ keptLine (rest.drop (wrapRound rest).2)) ∧
    (Overhang rest → (wrapRound rest).1 = [] ∧ rest.countP (· != 32) =
      (rest.drop (wrapRound rest).2).countP (· != 32) + 1) := by
  obtain ⟨l, gap, m, front, k, hitems, hbreak, hfront, hlast, hround⟩ := wrapRound_eq rest
  have hover := overhang_iff hitems hbreak
  have hrest : rest = bytes (l ++ gap) ++ bytes m := by
    rw [← bytes_append, ← hitems, bytes_itemsOf]
  have hm : itemsOf (bytes m) = m := (itemsOf_cut hitems).2
  have hf : itemsOf (bytes front) = front := by
    rw [hfront, append_assoc, append_assoc] at hitems
    exact (itemsOf_cut hitems).1
  have hgap := hbreak.gap_blank
  have hkept : keptLine rest = keptItems front ++ keptItems m := by
    have hback : ∀ i ∈ List.replicate k blank, i = blank := fun i hi => eq_of_mem_replicate hi
    rw [keptLine, hitems, hfront]
    show keptItems _ = _
    rw [keptItems_append, keptItems_append, keptItems_append, keptItems_blanks hgap,
      keptItems_blanks hback, append_nil, append_nil]
  by_cases hnil : front = []
  · -- nothing but blanks in front of the break
    have hall : ∀ i ∈ l, i = blank := by
      rw [hfront, hnil, nil_append]
      exact fun i hi => eq_of_mem_replicate hi
    have hblanks : ∀ i ∈ l ++ gap, i = blank := by
      intro i hi
      rcases mem_append.1 hi with hi | hi
      · exact hall i hi
      · exact hgap i hi
    rw [if_neg (by simp [hnil])] at hround
    rw [hround]
    dsimp only
    cases m with
    | nil =>
      rw [bytes_nil, append_nil] at hrest
      have hend : ¬ (bytes (l ++ gap)).length < rest.length := by
        rw [← hrest]
        exact Nat.lt_irrefl _
      rw [if_neg hend, ← hrest, drop_length]
      refine ⟨length_pos_iff.2 hne, Nat.zero_le _, fun _ => ?_, fun h => ?_⟩
      · rw [hkept, hnil]
        rfl
      · exact absurd rfl (hover.1 h).2.1
    | cons i m =>
      have hpos := bytes_length_pos (hm.trans (singleton_append.symm)) (cons_ne_nil i [])
      have hlt : (bytes (l ++ gap)).length < rest.length := by
        rw [hrest, length_append, bytes_cons, length_append]
        rw [bytes_cons, bytes_nil, append_nil] at hpos
        omega
      have hdrop : rest.drop ((bytes (l ++ gap)).length + 1) = (bytes (i :: m)).tail := by
        rw [← drop_drop, hrest, drop_left, drop_one]
      rw [if_pos hlt, hdrop]
      refine ⟨Nat.succ_pos _, Nat.zero_le _, fun h => ?_, fun h => ⟨rfl, ?_⟩⟩
      · -- the byte that is skipped is a blank
        have hi : i = blank := by
          by_contra hi
          exact h (hover.2 ⟨hall, cons_ne_nil i m, fun heq => hi (Option.some.inj heq)⟩)
        obtain ⟨-, -, hm'⟩ := itemsOf_eq_visible (hi ▸ hm)
        rw [hkept, hnil, hi]
        show keptItems m = keptLine (bytes m)
        rw [keptLine_bytes hm']
      · have hi : i ≠ blank := fun heq => (hover.1 h).2.2 (congrArg some heq)
        obtain ⟨ch, t, ht, hch⟩ := bytes_ne_blank hm hi
        rw [hrest, countP_append, countP_blanks hblanks, ht, tail_cons,
          countP_cons_of_pos (by simpa using hch), Nat.zero_add]
  · have hlen : 0 < (bytes front).length :=
      bytes_length_pos (m := []) (hf.trans (append_nil _).symm) hnil
    rw [if_pos (length_pos_iff.1 hlen)] at hround
    rw [hround]
    dsimp only
    have hdrop : rest.drop (bytes (l ++ gap)).length = bytes m := by
      conv_lhs => rw [hrest]
      exact drop_left
    rw [hdrop, keptLine_bytes hf, keptLine_bytes hm, hf]
    refine ⟨?_, ?_, fun _ => hkept, fun h => ?_⟩
    · rw [hfront]
      simp only [bytes_append, length_append]
      omega
    · have hwidth := hbreak.width_le
      rw [hfront, width_append] at hwidth
      omega
    · -- a line that starts with something else than blanks is printed
      exfalso
      have hmem : front.getLast hnil ∈ l := by
        rw [hfront]
        exact mem_append_left _ (getLast_mem hnil)
      rw [List.getLast?_eq_some_getLast hnil, (hover.1 h).1 _ hmem] at hlast
      exact hlast rfl

/-! ## Runs -/

/-- The bytes of items that are no blanks. -/
def size (l : List Item) : ℕ := (bytes l).countP (· != 32)

@[simp] theorem size_append (l m : List Item) : size (l ++ m) = size l + size m := by
  rw [size, bytes_append, countP_append]
  rfl

theorem size_keptLine (s : List UInt8) : size (keptLine s) = s.countP (· != 32) := by
  have hkept (l : List Item) : size (keptItems l) = size l := by
    induction l with
    | nil => rfl
    | cons i l ih =>
      have hcons : size (i :: l) = size [i] + size l := size_append [i] l
      by_cases hi : i = blank
      · rw [keptItems, filter_cons_of_neg (by simpa using hi), hcons, hi]
        show size (keptItems l) = _
        rw [ih]
        exact (Nat.zero_add _).symm
      · rw [keptItems, filter_cons_of_pos (by simpa using hi), hcons]
        show size ([i] ++ keptItems l) = _
        rw [size_append, ih]
  have hsize := hkept (itemsOf s)
  rw [size, size, bytes_itemsOf] at hsize
  exact hsize

/-- How many of the places are overhangs. -/
def overhangs (starts : List (List UInt8)) : ℕ := starts.countP fun s => decide (Overhang s)

variable (starts : List (List UInt8))

theorem overhangs_cons_pos (h : Overhang rest) :
    overhangs (rest :: starts) = overhangs starts + 1 :=
  countP_cons_of_pos (decide_eq_true h)

theorem overhangs_cons_neg (h : ¬ Overhang rest) : overhangs (rest :: starts) = overhangs starts :=
  countP_cons_of_neg (by simpa using h)

theorem overhangs_append (places : List (List UInt8)) :
    overhangs (starts ++ places) = overhangs starts + overhangs places :=
  countP_append

/-- What has been printed of a text, if the lines start at `starts`. -/
structure Prints (keep : List UInt8 → List Item) (text : List UInt8) (starts : List (List UInt8))
    (r : Printed) : Prop where
  width_le : ∀ line ∈ r.lines, width (itemsOf line) ≤ outputCols
  ends : r.truncated = false → r.unread = []
  suffix : r.unread <:+ text
  kept : (∀ s ∈ starts, ¬ Overhang s) → keep text = r.lines.flatMap keptLine ++ keep r.unread
  size : size (keep text) =
    size (r.lines.flatMap keptLine ++ keep r.unread) + overhangs starts

theorem printWrapped_prints (fuel : ℕ) (rest : List UInt8) (lineCount : ℕ)
    (hfuel : rest.length < fuel) : ∃ r, printWrapped fuel rest lineCount = some r ∧
      Prints keptLine rest (wrapStarts fuel rest lineCount) r := by
  induction fuel generalizing rest lineCount with
  | zero => exact absurd hfuel (Nat.not_lt_zero _)
  | succ fuel ih =>
    rw [printWrapped, wrapStarts]
    by_cases hnil : rest = []
    · rw [if_pos hnil, if_pos hnil]
      refine ⟨_, rfl, by simp, fun _ => rfl, nil_suffix, fun _ => ?_, ?_⟩
      · rw [hnil]
        rfl
      · rw [hnil]
        rfl
    · obtain ⟨hpos, hwidth, hkept, hlost⟩ := wrapRound_cases hnil
      rw [if_neg hnil, if_neg hnil]
      dsimp only
      generalize (wrapRound rest).1 = line at hwidth hkept hlost
      generalize (wrapRound rest).2 = pos at hpos hkept hlost
      have hshort : (rest.drop pos).length < fuel := by
        have hlen := length_pos_iff.2 hnil
        rw [length_drop]
        omega
      by_cases hline : line = []
      · rw [if_neg (not_not.2 hline), if_neg (not_not.2 hline)]
        obtain ⟨r, hr, hprints⟩ := ih (rest.drop pos) lineCount hshort
        refine ⟨r, hr, hprints.width_le, hprints.ends,
          hprints.suffix.trans (drop_suffix pos rest), fun hno => ?_, ?_⟩
        · rw [hkept (hno rest mem_cons_self), hline]
          exact hprints.kept fun s hs => hno s (mem_cons_of_mem rest hs)
        · by_cases hover : Overhang rest
          · rw [overhangs_cons_pos _ hover, size_keptLine, (hlost hover).2, ← size_keptLine,
              hprints.size, Nat.add_assoc]
          · rw [overhangs_cons_neg _ hover, hkept hover, hline]
            exact hprints.size
      · have hover : ¬ Overhang rest := fun hover => hline (hlost hover).1
        rw [if_pos hline, if_pos hline]
        by_cases hfull : outputLines ≤ lineCount + 1
        · rw [if_pos hfull, if_pos hfull]
          refine ⟨_, rfl, ?_, by simp, drop_suffix pos rest, fun _ => ?_, ?_⟩
          · simpa using hwidth
          · rw [hkept hover, flatMap_singleton]
          · rw [hkept hover, flatMap_singleton, overhangs_cons_neg _ hover]
            rfl
        · obtain ⟨r, hr, hprints⟩ := ih (rest.drop pos) (lineCount + 1) hshort
          rw [if_neg hfull, if_neg hfull, hr]
          refine ⟨_, rfl, ?_, hprints.ends, hprints.suffix.trans (drop_suffix pos rest),
            fun hno => ?_, ?_⟩
          · intro k hk
            rcases mem_cons.1 hk with rfl | hk
            · exact hwidth
            · exact hprints.width_le k hk
          · rw [hkept hover, hprints.kept fun s hs => hno s (mem_cons_of_mem rest hs),
              flatMap_cons, append_assoc]
          · rw [hkept hover, size_append, hprints.size, flatMap_cons,
              overhangs_cons_neg _ hover, append_assoc, size_append (keptLine line),
              Nat.add_assoc]

theorem kept_line {behind : List UInt8} (h : 10 ∉ rest)
    (hbehind : behind = [] ∨ ∃ t, behind = 10 :: t) :
    kept (rest ++ behind) = keptLine rest ++ kept (behind.drop 1) := by
  rcases hbehind with rfl | ⟨t, rfl⟩
  · rw [List.append_nil, List.drop_nil, kept, List.splitOn_eq_singleton h]
    simp [kept, keptLine]
  · rw [kept, List.splitOn_append_cons_self_of_not_mem h]
    rfl

theorem printWrapped_nil (fuel lineCount : ℕ) :
    printWrapped (fuel + 1) [] lineCount = some ⟨[], lineCount, false, []⟩ := by
  rw [printWrapped, if_pos rfl]

theorem wrapStarts_nil (fuel lineCount : ℕ) : wrapStarts (fuel + 1) [] lineCount = [] := by
  rw [wrapStarts, if_pos rfl]

theorem printRendered_prints (fuel : ℕ) (text : List UInt8) (lineCount : ℕ)
    (hfuel : text.length < fuel) : ∃ r, printRendered fuel text lineCount = some r ∧
      Prints kept text (renderStarts fuel text lineCount) r := by
  induction fuel generalizing text lineCount with
  | zero => exact absurd hfuel (Nat.not_lt_zero _)
  | succ fuel ih =>
    rw [printRendered, renderStarts]
    by_cases hnil : text = []
    · rw [if_pos hnil, if_pos hnil]
      refine ⟨_, rfl, by simp, fun _ => rfl, nil_suffix, fun _ => ?_, ?_⟩
      · rw [hnil]
        rfl
      · rw [hnil]
        rfl
    · rw [if_neg hnil, if_neg hnil]
      dsimp only
      have htext : text.takeWhile (· != 10) ++ text.dropWhile (· != 10) = text :=
        takeWhile_append_dropWhile
      have hno : 10 ∉ text.takeWhile (· != 10) := by
        intro hmem
        simpa using mem_takeWhile_imp hmem
      have hends : text.dropWhile (· != 10) = [] ∨ ∃ t, text.dropWhile (· != 10) = 10 :: t := by
        cases htail : text.dropWhile (· != 10) with
        | nil => exact .inl rfl
        | cons c t =>
          have hstop := List.head?_dropWhile_not (· != 10) text
          rw [htail] at hstop
          exact .inr ⟨t, by simpa using hstop⟩
      generalize text.takeWhile (· != 10) = span at htext hno
      generalize text.dropWhile (· != 10) = behind at htext hends
      have hkept := kept_line hno hends
      rw [htext] at hkept
      have hshort : (behind.drop 1).length < fuel := by
        have hpos := length_pos_iff.2 hnil
        have hlen := congrArg List.length htext
        rw [length_append] at hlen
        rw [length_drop]
        rcases hends with rfl | ⟨t, rfl⟩
        · simp only [length_nil] at hlen ⊢
          omega
        · simp only [length_cons] at hlen ⊢
          omega
      have hsuffix : behind.drop 1 <:+ text :=
        (drop_suffix 1 behind).trans ⟨span, htext⟩
      by_cases hspan : span = []
      · -- an empty line
        subst hspan
        obtain ⟨t, ht, hprints⟩ := ih (behind.drop 1) lineCount hshort
        have hkept : kept text = kept (behind.drop 1) := hkept
        rw [if_neg (not_not.2 rfl), ht, wrapStarts_nil, printWrapped_nil, nil_append]
        dsimp only
        rw [if_neg (by simp)]
        refine ⟨_, rfl, ?_, ?_, ?_, fun hall => ?_, ?_⟩
        all_goals by_cases hcount : 0 < lineCount
        all_goals simp only [hcount, if_true, if_false]
        · intro line hline
          rcases mem_cons.1 hline with rfl | hline
          · exact Nat.zero_le _
          · exact hprints.width_le line hline
        · exact hprints.width_le
        · exact hprints.ends
        · exact hprints.ends
        · exact hprints.suffix.trans hsuffix
        · exact hprints.suffix.trans hsuffix
        · exact hkept.trans (hprints.kept hall)
        · exact hkept.trans (hprints.kept hall)
        · exact (congrArg size hkept).trans hprints.size
        · exact (congrArg size hkept).trans hprints.size
      · obtain ⟨r, hr, hprints⟩ := printWrapped_prints (span.length + 1) span lineCount
          (Nat.lt_succ_self _)
        rw [if_pos hspan, hr, Option.bind_some]
        dsimp only
        by_cases htrunc : r.truncated = true
        · rw [if_pos htrunc, if_pos htrunc, append_nil]
          have hunread : 10 ∉ r.unread := fun hmem => hno (hprints.suffix.subset hmem)
          refine ⟨_, rfl, hprints.width_le, ?_, ?_, fun hall => ?_, ?_⟩
          · rw [htrunc]
            simp
          · rw [← htext]
            obtain ⟨front, hfront⟩ := hprints.suffix
            exact ⟨front, by rw [← append_assoc, hfront]⟩
          · rw [hkept, hprints.kept hall, kept_line hunread hends, append_assoc]
          · dsimp only
            rw [hkept, size_append, hprints.size, kept_line hunread hends, size_append,
              size_append, size_append]
            omega
        · have hfalse : r.truncated = false := Bool.eq_false_iff.2 htrunc
          have hread := hprints.ends hfalse
          obtain ⟨t, ht, hrest⟩ := ih (behind.drop 1) r.lineCount hshort
          rw [if_neg htrunc, if_neg htrunc, ht]
          refine ⟨_, rfl, ?_, hrest.ends, hrest.suffix.trans hsuffix, fun hall => ?_, ?_⟩
          · intro line hline
            rcases mem_append.1 hline with hline | hline
            · exact hprints.width_le line hline
            · exact hrest.width_le line hline
          · rw [hkept, hprints.kept fun s hs => hall s (mem_append_left _ hs),
              hrest.kept fun s hs => hall s (mem_append_right _ hs), hread,
              flatMap_append, append_assoc, append_assoc]
            rfl
          · have hsize := hprints.size
            have hsize' := hrest.size
            have hnone : size (keptLine []) = 0 := rfl
            rw [hread, size_append, hnone] at hsize
            rw [size_append] at hsize'
            dsimp only
            rw [hkept, size_append, hsize, hsize', overhangs_append, flatMap_append,
              size_append, size_append]
            omega

/-- For every text, nothing is lost exactly if no line of the screen starts with an overhang. -/
theorem wrapLaw_iff (text : List UInt8) :
    WrapLaw text ↔ ∀ rest ∈ lineStarts text, ¬ Overhang rest := by
  obtain ⟨r, hr, hprints⟩ :=
    printRendered_prints (text.length + 1) text 0 (Nat.lt_succ_self _)
  constructor
  · intro hlaw
    obtain ⟨r', hr', -, -, -, hkept⟩ := hlaw
    have hsame : r' = r := Option.some.inj (hr'.symm.trans hr)
    subst hsame
    have hsize := hprints.size
    rw [hkept] at hsize
    have hzero : overhangs (lineStarts text) = 0 := by
      rw [lineStarts]
      omega
    intro rest hrest
    have hno := countP_eq_zero.1 hzero rest hrest
    simpa using hno
  · intro hno
    exact ⟨r, hr, hprints.width_le, hprints.ends, hprints.suffix, hprints.kept hno⟩

/-- Two blanks and a word of 77 letters: its first letter is lost. -/
theorem not_wrapLaw : ¬ WrapLaw (32 :: 32 :: List.replicate 77 97) := by
  have hprint : printText (32 :: 32 :: List.replicate 77 97) =
      some ⟨[List.replicate 76 97], 1, false, []⟩ := by
    decide +kernel
  intro hlaw
  obtain ⟨r, hr, -, -, -, hkept⟩ := hlaw
  rw [hprint] at hr
  cases hr
  have hsize := congrArg List.length hkept
  revert hsize
  decide +kernel

end Cleonos.Browser.Output
