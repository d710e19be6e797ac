import Cleonos.Filters.Input
import Cleonos.Lib.Insertion
import Cleonos.Lib.Lines

/-!
# sort and uniq

`sort_main.c` collects the lines of its input in a table of 4096 pointers and sorts them by
insertion; `uniq_main.c` drops a line that is equal to the one it has written last.
-/

namespace Cleonos.Filters

open List
open Files (pathMax copyMax)
open Lines (lines unlines)
open Vim (ushSplitFirstAndRest ushCopy)

/-! ## The source -/

/-- `USH_SORT_MAX_LINES`. -/
def sortMaxLines : ℕ := 4096

/-- `ush_sort_parse_args`, `ush_uniq_parse_args`: the file. -/
def parseFileArg (arg : List UInt8) : Option (List UInt8) :=
  if arg.headD 0 = 0 then some []
  else
    (ushSplitFirstAndRest arg pathMax).bind fun first =>
      if first.2 ≠ [] then none else some (ushCopy pathMax first.1)

/-- `ush_sort_load_input`. -/
def sortLoadInput (p : Process) (stdin : Option (List UInt8)) (fileArg : List UInt8) :
    Except (List UInt8) (List UInt8) :=
  match loadInput "sort" p stdin fileArg with
  | .error message => .error message
  | .ok text =>
    if fileArg = [] ∧ text.length > copyMax then
      .error (writelnI18n p.zh "sort: pipeline input too large" "sort: 管道输入过大")
    else .ok text

/-- `ush_sort_compare_line`; a `char` is signed. -/
def compareLine : List UInt8 → List UInt8 → ℤ
  | [], [] => 0
  | [], _ :: _ => -1
  | _ :: _, [] => 1
  | a :: left, b :: right =>
    if a.toInt8 < b.toInt8 then -1
    else if a.toInt8 > b.toInt8 then 1
    else compareLine left right

/-- A line is put into the table, which counts as truncated if there is no room. -/
def addLine (line : List UInt8) (out : List (List UInt8)) (truncated : Bool) :
    List (List UInt8) × Bool :=
  if out.length < sortMaxLines then (out ++ [cstr line], truncated) else (out, true)

/-- The loop of `ush_sort_collect_lines`, with the bytes from `start` on. -/
def collectLoop : List UInt8 → List UInt8 → List (List UInt8) × Bool → List (List UInt8) × Bool
  | [], line, out => if line ≠ [] then addLine line out.1 out.2 else out
  | c :: buf, line, out =>
    if c = 10 then collectLoop buf [] (addLine line out.1 out.2)
    else collectLoop buf (line ++ [c]) out

/-- `ush_sort_collect_lines`: the table, and whether it is truncated. -/
def collectLines (buf : List UInt8) : List (List UInt8) × Bool := collectLoop buf [] ([], false)

/-- The inner loop of `ush_sort_lines`, with the value of `j` at its end. -/
def shiftLoop (key : List UInt8) : ℕ → List (List UInt8) → List (List UInt8) × ℕ
  | 0, table => (table, 0)
  | j + 1, table =>
    if compareLine (table.getD j []) key > 0 then
      shiftLoop key j (table.set (j + 1) (table.getD j []))
    else (table, j + 1)

/-- The loop of `ush_sort_lines`, with the rounds that are left. -/
def sortLoop : ℕ → ℕ → List (List UInt8) → List (List UInt8)
  | 0, _, table => table
  | n + 1, i, table =>
    let key := table.getD i []
    let shifted := shiftLoop key i table
    sortLoop n (i + 1) (shifted.1.set shifted.2 key)

/-- `ush_sort_lines`. -/
def sortLines (table : List (List UInt8)) : List (List UInt8) :=
  if table.length = 0 then table else sortLoop (table.length - 1) 1 table

/-- `ush_cmd_sort`: what is written, and whether the command succeeds. -/
def ushCmdSort (p : Process) (stdin : Option (List UInt8)) (arg : List UInt8) :
    List UInt8 × Bool :=
  match parseFileArg arg with
  | none => (writelnI18n p.zh "sort: usage sort [file]" "sort: 用法 sort [file]", false)
  | some fileArg =>
    match sortLoadInput p stdin fileArg with
    | .error message => (message, false)
    | .ok buf =>
      let collected := collectLines buf
      (unlines 10 (sortLines collected.1) ++
        (if collected.2 then
          writelnI18n p.zh "[sort] line count truncated" "[sort] 行数已截断" else []), true)

/-- The loop of `ush_cmd_uniq`, with the bytes from `start` on and the line it has written last. -/
def uniqLoop : List UInt8 → List UInt8 → Option (List UInt8) → List UInt8
  | [], line, prev => if line ≠ [] ∧ prev ≠ some line then line ++ [10] else []
  | c :: input, line, prev =>
    if c = 10 then
      if prev ≠ some line then line ++ [10] ++ uniqLoop input [] (some line)
      else uniqLoop input [] prev
    else uniqLoop input (line ++ [c]) prev

/-- `ush_cmd_uniq`: what is written, and whether the command succeeds. -/
def ushCmdUniq (p : Process) (stdin : Option (List UInt8)) (arg : List UInt8) :
    List UInt8 × Bool :=
  match parseFileArg arg with
  | none => (writelnI18n p.zh "uniq: usage uniq [file]" "uniq: 用法 uniq [file]", false)
  | some fileArg =>
    match loadInput "uniq" p stdin fileArg with
    | .error message => (message, false)
    | .ok input => (uniqLoop input [] none, true)

/-- What a process writes that is started as `sort`. -/
def runSort (p : Process) (arg : List UInt8) : List UInt8 :=
  (preMain p).1 ++ (ushCmdSort p (preMain p).2 arg).1

/-- What a process writes that is started as `uniq`. -/
def runUniq (p : Process) (arg : List UInt8) : List UInt8 :=
  (preMain p).1 ++ (ushCmdUniq p (preMain p).2 arg).1

/-- The signed characters of a line. -/
def signedChars (line : List UInt8) : List ℤ := line.map fun c => c.toInt8.toInt

variable {p : Process} {content fileArg arg line key : List UInt8}
  {table u w : List (List UInt8)}

theorem signedChars_injective : Function.Injective signedChars := by
  apply map_injective_iff.2
  intro a b h
  have hbits : a.toInt8 = b.toInt8 := Int8.toInt_inj.1 h
  rw [← UInt8.toUInt8_toInt8 a, hbits, UInt8.toUInt8_toInt8]

theorem compareLine_pos_iff (left right : List UInt8) :
    compareLine left right > 0 ↔ signedChars right < signedChars left := by
  induction left generalizing right with
  | nil =>
    cases right with
    | nil => simp [compareLine, signedChars]
    | cons b right => simp [compareLine, signedChars]
  | cons a left ih =>
    cases right with
    | nil => simp [compareLine, signedChars]
    | cons b right =>
      have ih := ih right
      rw [signedChars, signedChars] at ih
      rw [compareLine, signedChars, signedChars, map_cons, map_cons,
        cons_lt_cons_iff]
      rcases Int.lt_trichotomy a.toInt8.toInt b.toInt8.toInt with hlt | heq | hgt
      · have hchar : a.toInt8 < b.toInt8 := Int8.lt_iff_toInt_lt.2 hlt
        rw [if_pos hchar]
        omega
      · have hchar : a.toInt8 = b.toInt8 := Int8.toInt_inj.1 heq
        have hirrefl : ¬ b.toInt8 < b.toInt8 := by
          rw [Int8.lt_iff_toInt_lt]
          omega
        rw [hchar, if_neg hirrefl, if_neg hirrefl, ih]
        simp
      · have hchar : b.toInt8 < a.toInt8 := Int8.lt_iff_toInt_lt.2 hgt
        have hnot : ¬ a.toInt8 < b.toInt8 := by
          rw [Int8.lt_iff_toInt_lt]
          omega
        rw [if_neg hnot, if_pos hchar]
        simp [hgt]

theorem addLine_eq (line : List UInt8) (more : List (List UInt8)) {out : List (List UInt8)}
    (hout : out.length ≤ sortMaxLines) (truncated : Bool) :
    ∃ out' truncated', addLine line out truncated = (out', truncated') ∧
      out'.length ≤ sortMaxLines ∧
      (out' ++ more.map cstr).take sortMaxLines =
        (out ++ (line :: more).map cstr).take sortMaxLines ∧
      (truncated' || decide (sortMaxLines < out'.length + more.length)) =
        (truncated || decide (sortMaxLines < out.length + (line :: more).length)) := by
  rw [addLine]
  split
  case isTrue hroom =>
    refine ⟨_, _, rfl, ?_, ?_, ?_⟩
    · rw [length_append, length_singleton]
      omega
    · rw [map_cons, append_assoc, singleton_append]
    · rw [length_append, length_singleton, length_cons, Nat.add_right_comm,
        Nat.add_assoc]
  case isFalse hfull =>
    have hlen : out.length = sortMaxLines := by omega
    refine ⟨_, _, rfl, hout, ?_, ?_⟩
    · rw [← hlen, take_left, take_left]
    · have hmore : sortMaxLines < out.length + (line :: more).length := by
        rw [length_cons]
        omega
      rw [decide_eq_true hmore, Bool.true_or, Bool.or_true]

theorem collectLoop_eq (buf line : List UInt8) (hline : 10 ∉ line) (out : List (List UInt8))
    (truncated : Bool) (hout : out.length ≤ sortMaxLines) :
    collectLoop buf line (out, truncated) =
      ((out ++ (lines 10 (line ++ buf)).map cstr).take sortMaxLines,
        truncated || decide (sortMaxLines < out.length + (lines 10 (line ++ buf)).length)) := by
  induction buf generalizing line out truncated with
  | nil =>
    rw [collectLoop, append_nil]
    by_cases hne : line = []
    · subst hne
      rw [if_neg (not_not.2 rfl), Lines.lines_nil, map_nil, append_nil,
        take_of_length_le hout, length_nil, Nat.add_zero,
        decide_eq_false (Nat.not_lt.2 hout), Bool.or_false]
    · obtain ⟨out', truncated', hadd, hout', htake, hmore⟩ := addLine_eq line [] hout truncated
      rw [if_pos hne, Lines.lines_of_notMem hline hne, ← htake, ← hmore]
      rw [hadd, map_nil, append_nil, take_of_length_le hout',
        length_nil, Nat.add_zero, decide_eq_false (Nat.not_lt.2 hout'), Bool.or_false]
  | cons c buf ih =>
    rw [collectLoop]
    by_cases hc : c = 10
    · subst hc
      obtain ⟨out', truncated', hadd, hout', htake, hmore⟩ :=
        addLine_eq line (lines 10 buf) hout truncated
      rw [if_pos rfl, Lines.lines_line_append hline, ← htake, ← hmore, hadd]
      exact ih [] not_mem_nil out' truncated' hout'
    · have hline' : 10 ∉ line ++ [c] := by
        rw [mem_append, mem_singleton]
        exact not_or.2 ⟨hline, fun heq => hc heq.symm⟩
      rw [if_neg hc, ih (line ++ [c]) hline' out truncated hout, append_assoc,
        singleton_append]

theorem collectLines_eq (buf : List UInt8) :
    collectLines buf = (((lines 10 buf).map cstr).take sortMaxLines,
      decide (sortMaxLines < (lines 10 buf).length)) := by
  rw [collectLines, collectLoop_eq buf [] not_mem_nil [] false (Nat.zero_le _),
    nil_append, nil_append, length_nil, Nat.zero_add, Bool.false_or]

theorem shiftLoop_eq (key : List UInt8) (u w : List (List UInt8)) (x : List UInt8) :
    (shiftLoop key u.length (u ++ x :: w)).1.set (shiftLoop key u.length (u ++ x :: w)).2 key =
      Insertion.place signedChars key u ++ w := by
  induction u using List.reverseRecOn generalizing x w with
  | nil => rfl
  | append_singleton u y ih =>
    have hget : ((u ++ [y]) ++ x :: w).getD u.length [] = y := by simp
    have hset : ((u ++ [y]) ++ x :: w).set (u.length + 1) y = u ++ y :: y :: w := by simp
    rw [length_append, length_singleton, shiftLoop, hget, hset]
    split
    case isTrue hgt =>
      rw [ih (y :: w) y, Insertion.place_concat_of_lt ((compareLine_pos_iff y key).1 hgt),
        append_assoc, singleton_append]
    case isFalse hle =>
      rw [Insertion.place_concat_of_not_lt fun hlt => hle ((compareLine_pos_iff y key).2 hlt)]
      simp

theorem sortLoop_eq (v u : List (List UInt8)) :
    sortLoop v.length u.length (u ++ v) = Insertion.insertAll signedChars u v := by
  induction v generalizing u with
  | nil => rw [length_nil, sortLoop, append_nil, Insertion.insertAll]
  | cons key v ih =>
    have hget : (u ++ key :: v).getD u.length [] = key := by simp
    have hlen : u.length + 1 = (Insertion.place signedChars key u).length :=
      (Insertion.length_place key u).symm
    rw [length_cons, sortLoop, hget, shiftLoop_eq, hlen, ih, Insertion.insertAll]

theorem sortLines_eq (table : List (List UInt8)) :
    sortLines table = Insertion.insertAll signedChars [] table := by
  cases table with
  | nil => rfl
  | cons x table => exact sortLoop_eq table [x]

theorem uniqLoop_some (input line : List UInt8) (hline : 10 ∉ line) (prev : List UInt8) :
    unlines 10 [prev] ++ uniqLoop input line (some prev) =
      unlines 10 ((lines 10 (line ++ input)).destutter' (· ≠ ·) prev) := by
  induction input generalizing line prev with
  | nil =>
    rw [uniqLoop, append_nil]
    by_cases hne : line = []
    · subst hne
      rw [if_neg (fun h => h.1 rfl), Lines.lines_nil, append_nil, destutter'_nil]
    · rw [Lines.lines_of_notMem hline hne, destutter'_singleton]
      by_cases heq : prev = line
      · subst heq
        rw [if_neg (fun h => h.2 rfl), if_neg (not_not.2 rfl), append_nil]
      · rw [if_pos ⟨hne, fun h => heq (Option.some.inj h)⟩, if_pos heq]
        simp
  | cons c input ih =>
    rw [uniqLoop]
    by_cases hc : c = 10
    · subst hc
      rw [if_pos rfl, Lines.lines_line_append hline]
      by_cases heq : prev = line
      · subst heq
        rw [if_neg (not_not.2 rfl), destutter'_cons_neg _ (not_not.2 rfl)]
        exact ih [] not_mem_nil prev
      · have ih := ih [] not_mem_nil line
        rw [nil_append] at ih
        rw [if_pos fun h => heq (Option.some.inj h), destutter'_cons_pos _ heq]
        calc unlines 10 [prev] ++ (line ++ [10] ++ uniqLoop input [] (some line))
            = prev ++ 10 :: (unlines 10 [line] ++ uniqLoop input [] (some line)) := by simp
          _ = unlines 10 (prev :: (lines 10 input).destutter' (· ≠ ·) line) := by
              rw [ih, Lines.unlines_cons]
    · have hline' : 10 ∉ line ++ [c] := by
        rw [mem_append, mem_singleton]
        exact not_or.2 ⟨hline, fun heq => hc heq.symm⟩
      rw [if_neg hc, ih (line ++ [c]) hline' prev, append_assoc, singleton_append]

theorem uniqLoop_eq (input line : List UInt8) (hline : 10 ∉ line) :
    uniqLoop input line none = unlines 10 ((lines 10 (line ++ input)).destutter (· ≠ ·)) := by
  induction input generalizing line with
  | nil =>
    rw [uniqLoop, append_nil]
    by_cases hne : line = []
    · subst hne
      rw [if_neg (fun h => h.1 rfl), Lines.lines_nil, destutter_nil, Lines.unlines_nil]
    · rw [if_pos ⟨hne, fun h => by cases h⟩, Lines.lines_of_notMem hline hne,
        destutter_singleton, Lines.unlines_cons, Lines.unlines_nil]
  | cons c input ih =>
    rw [uniqLoop]
    by_cases hc : c = 10
    · subst hc
      have hsome := uniqLoop_some input [] not_mem_nil line
      rw [nil_append] at hsome
      rw [if_pos rfl, if_pos (fun h => by cases h), Lines.lines_line_append hline,
        destutter_cons', ← hsome]
      simp
    · have hline' : 10 ∉ line ++ [c] := by
        rw [mem_append, mem_singleton]
        exact not_or.2 ⟨hline, fun heq => hc heq.symm⟩
      rw [if_neg hc, ih (line ++ [c]) hline', append_assoc, singleton_append]

/-! ## Processes -/

theorem runSort_eq (harg : parseFileArg arg = some fileArg) (h : Delivers p content fileArg)
    (hfits : Fits content fileArg) (hnul : 0 ∉ content) : runSort p arg =
      unlines 10 (Insertion.insertAll signedChars [] ((lines 10 content).take sortMaxLines)) ++
        if sortMaxLines < (lines 10 content).length then
          writelnI18n p.zh "[sort] line count truncated" "[sort] 行数已截断" else [] := by
  obtain ⟨hnotice, hload⟩ := loadInput_of_delivers h hfits "sort"
  have hstrings : (lines 10 content).map cstr = lines 10 content := by
    refine (map_congr_left ?_).trans (map_id _)
    intro line hline
    apply cstr_of_notMem
    intro hzero
    exact hnul ((Lines.mem_of_mem_lines hline).2 0 hzero)
  rw [runSort, hnotice, nil_append, ushCmdSort, harg]
  dsimp only
  rw [sortLoadInput, hload]
  dsimp only
  rw [if_neg fun hlarge => Nat.not_lt.2 hfits.le hlarge.2]
  dsimp only
  rw [collectLines_eq, hstrings, sortLines_eq]
  simp only [decide_eq_true_eq]

theorem runUniq_eq (harg : parseFileArg arg = some fileArg) (h : Delivers p content fileArg)
    (hfits : Fits content fileArg) :
    runUniq p arg = unlines 10 ((lines 10 content).destutter (· ≠ ·)) := by
  obtain ⟨hnotice, hload⟩ := loadInput_of_delivers h hfits "uniq"
  rw [runUniq, hnotice, nil_append, ushCmdUniq, harg]
  dsimp only
  rw [hload]
  exact uniqLoop_eq content [] not_mem_nil

/-- `sort` writes the lines of its input, as many as its table takes, in the order of their
characters; where the table takes them all, `uniq` leaves each line of the input once. -/
theorem sort_uniq (h : Delivers p content fileArg) (hfits : Fits content fileArg)
    (hnul : 0 ∉ content) (harg : parseFileArg arg = some fileArg) :
    ∃ sorted : List (List UInt8), sorted.Perm ((lines 10 content).take sortMaxLines) ∧
      (sorted.Pairwise fun a b => signedChars a ≤ signedChars b) ∧
      (runSort p arg = unlines 10 sorted ++
        if sortMaxLines < (lines 10 content).length then
          writelnI18n p.zh "[sort] line count truncated" "[sort] 行数已截断" else []) ∧
      ((lines 10 content).length ≤ sortMaxLines →
        ∀ (q : Process) (fileUniq argUniq : List UInt8), Delivers q (runSort p arg) fileUniq →
          Fits (runSort p arg) fileUniq → parseFileArg argUniq = some fileUniq →
          ∃ once : List (List UInt8), runUniq q argUniq = unlines 10 once ∧ once.Nodup ∧
            ∀ line, line ∈ once ↔ line ∈ lines 10 content) := by
  have hsort := runSort_eq harg h hfits hnul
  have hperm : (Insertion.insertAll signedChars [] ((lines 10 content).take sortMaxLines)).Perm
      ([] ++ (lines 10 content).take sortMaxLines) := Insertion.insertAll_perm [] _
  have hsorted : Insertion.Sorted signedChars (Insertion.insertAll signedChars []
      ((lines 10 content).take sortMaxLines)) :=
    Insertion.insertAll_sorted List.Pairwise.nil _
  generalize Insertion.insertAll signedChars [] ((lines 10 content).take sortMaxLines) = sorted
    at hsort hperm hsorted
  rw [nil_append] at hperm
  refine ⟨sorted, hperm, hsorted, hsort, ?_⟩
  intro hall q fileUniq argUniq hq hfitsUniq hargUniq
  rw [take_of_length_le hall] at hperm
  rw [if_neg (Nat.not_lt.2 hall), append_nil] at hsort
  have hwhole : ∀ line ∈ sorted, (10 : UInt8) ∉ line := by
    intro line hline
    exact (Lines.mem_of_mem_lines (hperm.mem_iff.1 hline)).1
  have huniq := runUniq_eq hargUniq hq hfitsUniq
  rw [hsort, Lines.lines_unlines hwhole] at huniq
  refine ⟨_, huniq, Insertion.nodup_destutter_ne signedChars_injective hsorted, ?_⟩
  intro line
  rw [Insertion.mem_destutter_ne, hperm.mem_iff]

/-- A process that has a text at standard input. -/
def given (text : List UInt8) : Process := ⟨false, [47], fun _ => none,
  ⟨true, true, 0, [], true, none, true⟩, some [text]⟩

theorem delivers_given {text : List UInt8} (hne : text ≠ []) : Delivers (given text) text [] :=
  .pipe [text] rfl ⟨append_nil text, by simpa using hne⟩

theorem sort_uniq_three_lines :
    ∃ sorted : List (List UInt8), sorted.Perm ((lines 10 [98, 10, 97, 10, 98]).take sortMaxLines) ∧
      (sorted.Pairwise fun a b => signedChars a ≤ signedChars b) ∧
      (runSort (given [98, 10, 97, 10, 98]) [] = unlines 10 sorted ++
        if sortMaxLines < (lines 10 [98, 10, 97, 10, 98]).length then
          writelnI18n false "[sort] line count truncated" "[sort] 行数已截断" else []) ∧
      ((lines 10 [98, 10, 97, 10, 98]).length ≤ sortMaxLines →
        ∀ (q : Process) (fileUniq argUniq : List UInt8),
          Delivers q (runSort (given [98, 10, 97, 10, 98]) []) fileUniq →
          Fits (runSort (given [98, 10, 97, 10, 98]) []) fileUniq →
          parseFileArg argUniq = some fileUniq →
          ∃ once : List (List UInt8), runUniq q argUniq = unlines 10 once ∧ once.Nodup ∧
            ∀ line, line ∈ once ↔ line ∈ lines 10 [98, 10, 97, 10, 98]) :=
  sort_uniq (delivers_given (by decide)) ⟨by decide, fun _ => by decide⟩ (by decide) rfl

/-- A file of 65537 bytes is refused; neither command has options, and a zero byte ends a line for
`sort`. -/
theorem not_sort_uniq :
    (¬ ∀ (p : Process) (content fileArg arg : List UInt8), Delivers p content fileArg →
      parseFileArg arg = some fileArg → ∃ sorted : List (List UInt8),
        sorted.Perm (lines 10 content) ∧ runSort p arg = unlines 10 sorted) ∧
    runSort (given (lit "b")) (lit "-r") = lit "sort: file not found" ++ [10] ∧
    runUniq (given (lit "b")) (lit "-c") = lit "uniq: file not found" ++ [10] ∧
    runSort (given [97, 0, 98]) [] = [97, 10] := by
  refine ⟨?_, by decide, by decide, by decide⟩
  intro h
  obtain ⟨content, hlength, hall⟩ := exists_large
  have hlines : lines 10 content = [content] := by
    apply Lines.lines_of_notMem
    · intro hmem
      exact absurd (hall 10 hmem) (by decide)
    · intro hnil
      rw [hnil] at hlength
      exact absurd hlength (by decide)
  have hlarge : copyMax < content.length := by
    rw [hlength]
    decide
  obtain ⟨sorted, hperm, hrun⟩ := h (filed content) content [102] (lit "f")
    (delivers_filed content) (by decide)
  rw [hlines] at hperm
  have hparse : parseFileArg (lit "f") = some [102] := by decide
  have hrefused : runSort (filed content) (lit "f") =
      writelnI18n false "sort: file too large for user buffer" "" := by
    rw [runSort, ushCmdSort, hparse]
    dsimp only
    rw [sortLoadInput, show (preMain (filed content)).2 = none from rfl,
      loadInput_filed_of_large hlarge]
    rfl
  rw [hrefused, perm_singleton.1 hperm] at hrun
  have hlen := congrArg List.length hrun
  rw [Lines.unlines_cons, length_append, hlength] at hlen
  revert hlen
  decide

end Cleonos.Filters
