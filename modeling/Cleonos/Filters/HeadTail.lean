import Cleonos.Browser.Url
import Cleonos.Filters.Input
import Cleonos.Lib.Lines

/-!
# head and tail

`head_main.c` and `tail_main.c`: the one writes the input up to a number of newlines, the other
counts the lines, and skips all but the last ones.
-/

namespace Cleonos.Filters

open List
open Browser (parseU64Dec)
open Files (pathMax copyMax)
open Lines (rows)
open Vim (ushSplitFirstAndRest ushCopy)

/-! ## The source -/

/-- `ush_head_parse_args`, `ush_tail_parse_args`: the number of lines, and the file. -/
def parseArgs (arg : List UInt8) : Option (ℕ × List UInt8) :=
  if arg.headD 0 = 0 then some (10, [])
  else
    (ushSplitFirstAndRest arg pathMax).bind fun first =>
      if first.1 = lit "-n" then
        (ushSplitFirstAndRest first.2 pathMax).bind fun second =>
          (parseU64Dec second.1).bind fun lineCount =>
            if second.2 ≠ [] then
              (ushSplitFirstAndRest second.2 pathMax).bind fun third =>
                if third.2 ≠ [] then none else some (lineCount, ushCopy pathMax third.1)
            else some (lineCount, [])
      else if first.2 ≠ [] then none
      else some (10, ushCopy pathMax first.1)

/-- The loop of `ush_head_emit`. -/
def headLoop (lineCount : ℕ) : List UInt8 → ℕ → List UInt8
  | [], _ => []
  | c :: input, emitted =>
    if emitted ≥ lineCount then []
    else c :: headLoop lineCount input (if c = 10 then emitted + 1 else emitted)

/-- `ush_head_emit`. -/
def headEmit (input : List UInt8) (lineCount : ℕ) : List UInt8 :=
  if lineCount = 0 then [] else headLoop lineCount input 0

/-- The loop of `ush_tail_count_lines`. -/
def countLoop : List UInt8 → ℕ → ℕ
  | [], lines => lines
  | c :: input, lines => countLoop input (if c = 10 ∧ input ≠ [] then lines + 1 else lines)

/-- `ush_tail_count_lines`. -/
def tailCountLines (input : List UInt8) : ℕ := if input = [] then 0 else countLoop input 1

/-- The loop of `ush_tail_find_start_offset`, from an offset on. -/
def startLoop (skipLines : ℕ) : List UInt8 → ℕ → ℕ → ℕ
  | [], i, _ => i
  | c :: input, i, linesSeen =>
    if c = 10 ∧ input ≠ [] then
      if linesSeen + 1 = skipLines then i + 1 else startLoop skipLines input (i + 1) (linesSeen + 1)
    else startLoop skipLines input (i + 1) linesSeen

/-- `ush_tail_find_start_offset`. -/
def tailFindStartOffset (input : List UInt8) (skipLines : ℕ) : ℕ :=
  if input = [] ∨ skipLines = 0 then 0 else startLoop skipLines input 0 0

/-- What `ush_cmd_tail` writes of its input. -/
def tailText (input : List UInt8) (lineCount : ℕ) : List UInt8 :=
  if lineCount = 0 ∨ input = [] then []
  else
    let totalLines := tailCountLines input
    let skipLines := if totalLines > lineCount then totalLines - lineCount else 0
    input.drop (tailFindStartOffset input skipLines)

/-- `ush_cmd_head` and `ush_cmd_tail`: what is written, and whether the command succeeds. -/
def ushCmd (name usage : String) (text : List UInt8 → ℕ → List UInt8) (p : Process)
    (stdin : Option (List UInt8)) (arg : List UInt8) : List UInt8 × Bool :=
  match parseArgs arg with
  | none =>
    (writelnI18n p.zh (name ++ ": usage " ++ usage) (name ++ ": 用法 " ++ usage), false)
  | some (lineCount, fileArg) =>
    match loadInput name p stdin fileArg with
    | .error message => (message, false)
    | .ok input => (text input lineCount, true)

def ushCmdHead : Process → Option (List UInt8) → List UInt8 → List UInt8 × Bool :=
  ushCmd "head" "head [-n N] [file]" headEmit

def ushCmdTail : Process → Option (List UInt8) → List UInt8 → List UInt8 × Bool :=
  ushCmd "tail" "tail [-n N] [file]" tailText

/-- What a process writes that is started as `head`. -/
def runHead (p : Process) (arg : List UInt8) : List UInt8 :=
  (preMain p).1 ++ (ushCmdHead p (preMain p).2 arg).1

/-- What a process writes that is started as `tail`. -/
def runTail (p : Process) (arg : List UInt8) : List UInt8 :=
  (preMain p).1 ++ (ushCmdTail p (preMain p).2 arg).1

/-- The number of lines of a content; the last one need not end. -/
def lineCount (content : List UInt8) : ℕ := (rows 10 content).length

variable {p q : Process} {content input fileArg argHead argTail : List UInt8} {k : ℕ}

theorem headLoop_eq (k : ℕ) (input : List UInt8) (emitted : ℕ) :
    headLoop k input emitted = ((rows 10 input).take (k - emitted)).flatten := by
  induction input generalizing emitted with
  | nil => rw [headLoop, Lines.rows_nil, take_nil, flatten_nil]
  | cons c input ih =>
    rw [headLoop]
    split
    case isTrue hdone =>
      rw [Nat.sub_eq_zero_of_le hdone, take_zero, flatten_nil]
    case isFalse hmore =>
      obtain ⟨m, hm⟩ : ∃ m, k - emitted = m + 1 := ⟨k - emitted - 1, by omega⟩
      rw [ih, hm]
      by_cases hc : c = 10
      · have hnext : k - (emitted + 1) = m := by omega
        rw [if_pos hc, hnext, hc, Lines.rows_sep_cons, take_succ_cons, flatten_cons,
          singleton_append]
      · rw [if_neg hc, hm, Lines.take_rows_cons_of_ne hc]

theorem headEmit_eq (input : List UInt8) (k : ℕ) :
    headEmit input k = ((rows 10 input).take k).flatten := by
  rw [headEmit]
  split
  case isTrue hk => rw [hk, take_zero, flatten_nil]
  case isFalse => rw [headLoop_eq, Nat.sub_zero]

theorem countLoop_eq (input : List UInt8) (lines : ℕ) (h : input ≠ []) :
    countLoop input lines + 1 = lines + (rows 10 input).length := by
  induction input generalizing lines with
  | nil => exact absurd rfl h
  | cons c input ih =>
    rw [countLoop]
    by_cases hinput : input = []
    · rw [if_neg (fun hboth => hboth.2 hinput), hinput, countLoop, rows, Lines.rows_nil]
      split <;> rfl
    · rw [ih _ hinput]
      by_cases hc : c = 10
      · rw [if_pos ⟨hc, hinput⟩, hc, Lines.rows_sep_cons, length_cons]
        omega
      · rw [if_neg (fun hboth => hc hboth.1)]
        rcases Lines.rows_cons_of_ne hc input with ⟨hnil, -⟩ | ⟨r, rs, hrows, hcons⟩
        · exact absurd (Lines.rows_eq_nil_iff.1 hnil) hinput
        · rw [hrows, hcons, length_cons, length_cons]

theorem tailCountLines_eq (input : List UInt8) : tailCountLines input = lineCount input := by
  rw [tailCountLines, lineCount]
  split
  case isTrue hnil => rw [hnil, Lines.rows_nil, length_nil]
  case isFalse hne =>
    have hcount := countLoop_eq input 1 hne
    omega

theorem startLoop_eq (skip : ℕ) (input : List UInt8) (i seen : ℕ) (h : seen < skip) :
    startLoop skip input i seen = i + ((rows 10 input).take (skip - seen)).flatten.length := by
  induction input generalizing i seen with
  | nil => rw [startLoop, Lines.rows_nil, take_nil, flatten_nil, length_nil,
      Nat.add_zero]
  | cons c input ih =>
    obtain ⟨m, hm⟩ : ∃ m, skip - seen = m + 1 := ⟨skip - seen - 1, by omega⟩
    rw [startLoop, hm]
    by_cases hc : c = 10
    · rw [hc, Lines.rows_sep_cons, take_succ_cons, flatten_cons, length_append,
        length_singleton]
      by_cases hinput : input = []
      · rw [if_neg (fun hboth => hboth.2 hinput), hinput, startLoop, Lines.rows_nil,
          take_nil, flatten_nil, length_nil]
      · rw [if_pos ⟨rfl, hinput⟩]
        split
        case isTrue hlast =>
          have hzero : m = 0 := by omega
          rw [hzero, take_zero, flatten_nil, length_nil]
        case isFalse hlast =>
          have hnext : skip - (seen + 1) = m := by omega
          rw [ih _ _ (by omega), hnext, Nat.add_assoc]
    · rw [if_neg (fun hboth => hc hboth.1), ih _ _ h, hm, Lines.take_rows_cons_of_ne hc,
        length_cons]
      omega

theorem drop_flatten_take (input : List UInt8) (n : ℕ) :
    input.drop ((rows 10 input).take n).flatten.length = ((rows 10 input).drop n).flatten := by
  have hwhole : ((rows 10 input).take n).flatten ++ ((rows 10 input).drop n).flatten = input := by
    rw [← flatten_append, take_append_drop, Lines.flatten_rows]
  calc input.drop ((rows 10 input).take n).flatten.length
      = (((rows 10 input).take n).flatten ++ ((rows 10 input).drop n).flatten).drop
          ((rows 10 input).take n).flatten.length := by rw [hwhole]
    _ = ((rows 10 input).drop n).flatten := drop_left

theorem tailText_eq (input : List UInt8) (k : ℕ) :
    tailText input k = ((rows 10 input).drop (lineCount input - k)).flatten := by
  rw [tailText]
  split
  case isTrue hnone =>
    rcases hnone with hk | hnil
    · rw [hk, Nat.sub_zero, lineCount, drop_length, flatten_nil]
    · rw [hnil, Lines.rows_nil, drop_nil, flatten_nil]
  case isFalse hsome =>
    rw [not_or] at hsome
    dsimp only
    rw [tailCountLines_eq, ← drop_flatten_take]
    have hskip : (if lineCount input > k then lineCount input - k else 0) = lineCount input - k := by
      split <;> omega
    rw [hskip, tailFindStartOffset]
    by_cases hzero : lineCount input - k = 0
    · rw [if_pos (Or.inr hzero), hzero, take_zero, flatten_nil, length_nil]
    · rw [if_neg (not_or.2 ⟨hsome.2, hzero⟩), startLoop_eq _ _ _ _ (Nat.pos_of_ne_zero hzero),
        Nat.sub_zero, Nat.zero_add]

theorem runHead_eq (hparse : parseArgs argHead = some (k, fileArg))
    (h : Delivers p content fileArg) (hfits : Fits content fileArg) :
    runHead p argHead = headEmit content k := by
  obtain ⟨hnotice, hload⟩ := loadInput_of_delivers h hfits "head"
  rw [runHead, hnotice, nil_append, ushCmdHead, ushCmd, hparse]
  dsimp only
  rw [hload]

theorem runTail_eq (hparse : parseArgs argTail = some (k, fileArg))
    (h : Delivers p content fileArg) (hfits : Fits content fileArg) :
    runTail p argTail = tailText content k := by
  obtain ⟨hnotice, hload⟩ := loadInput_of_delivers h hfits "tail"
  rw [runTail, hnotice, nil_append, ushCmdTail, ushCmd, hparse]
  dsimp only
  rw [hload]

/-- A content that fits reaches both commands, each in its own way; the first `k` lines and the
last of the others are the content. -/
theorem head_tail_complementary {fileHead fileTail : List UInt8}
    (hhead : Delivers p content fileHead) (hheadFits : Fits content fileHead)
    (htail : Delivers q content fileTail) (htailFits : Fits content fileTail)
    (hargHead : parseArgs argHead = some (k, fileHead))
    (hargTail : parseArgs argTail = some (lineCount content - k, fileTail)) :
    runHead p argHead ++ runTail q argTail = content := by
  rw [runHead_eq hargHead hhead hheadFits, runTail_eq hargTail htail htailFits, headEmit_eq,
    tailText_eq, ← flatten_append]
  rcases Nat.le_total k (lineCount content) with hle | hle
  · rw [Nat.sub_sub_self hle, take_append_drop, Lines.flatten_rows]
  · rw [Nat.sub_eq_zero_of_le hle, Nat.sub_zero, lineCount, drop_length, append_nil,
      take_of_length_le hle, Lines.flatten_rows]

/-- A process whose input arrives at standard input, in two pieces. -/
def piped : Process := ⟨false, [47], fun _ => none, ⟨true, true, 0, [], true, none, true⟩,
  some [[97], [10, 98]]⟩

theorem head_tail_two_lines : runHead piped (lit "-n 1") ++
    runTail (filed [97, 10, 98]) (lit "-n 1 f") = [97, 10, 98] :=
  @head_tail_complementary _ _ _ _ _ 1 _ _ (.pipe [[97], [10, 98]] rfl ⟨rfl, by decide⟩)
    ⟨by decide, fun _ => by decide⟩ (delivers_filed _) ⟨by decide, fun _ => by decide⟩
    (by decide) (by decide)

theorem ushCmd_filed_of_large {content : List UInt8} (hlarge : copyMax < content.length)
    (name usage : String) (text : List UInt8 → ℕ → List UInt8) {arg : List UInt8} {n : ℕ}
    (hparse : parseArgs arg = some (n, [102])) :
    (ushCmd name usage text (filed content) none arg).1 =
      writelnI18n false (name ++ ": file too large for user buffer")
        (name ++ ": 文件过大，无法放入用户缓冲区") := by
  rw [ushCmd, hparse]
  dsimp only
  rw [loadInput_filed_of_large hlarge]

/-- Both commands refuse a file of 65537 bytes. -/
theorem large_not_complementary : ¬ ∀ (p q : Process) (content fileHead fileTail : List UInt8)
    (k : ℕ) (argHead argTail : List UInt8), Delivers p content fileHead →
      Delivers q content fileTail → parseArgs argHead = some (k, fileHead) →
      parseArgs argTail = some (lineCount content - k, fileTail) →
      runHead p argHead ++ runTail q argTail = content := by
  intro h
  obtain ⟨content, hlength, hall⟩ := exists_large
  have hlines : lineCount content = 1 := by
    rw [lineCount, Lines.rows_of_notMem]
    · rfl
    · intro hmem
      exact absurd (hall 10 hmem) (by decide)
    · intro hnil
      rw [hnil] at hlength
      exact absurd hlength (by decide)
  have hlarge : copyMax < content.length := by
    rw [hlength]
    decide
  have hboth := h (filed content) (filed content) content [102] [102] 1
    (lit "-n 1 f") (lit "-n 0 f") (delivers_filed _) (delivers_filed _) (by decide)
    (by rw [hlines]; decide)
  have hparseHead : parseArgs (lit "-n 1 f") = some (1, [102]) := by decide
  have hparseTail : parseArgs (lit "-n 0 f") = some (0, [102]) := by decide
  have hhead : runHead (filed content) (lit "-n 1 f") = _ :=
    ushCmd_filed_of_large hlarge "head" "head [-n N] [file]" headEmit hparseHead
  have htail : runTail (filed content) (lit "-n 0 f") = _ :=
    ushCmd_filed_of_large hlarge "tail" "tail [-n N] [file]" tailText hparseTail
  have hlen := congrArg List.length hboth
  rw [hhead, htail, length_append, hlength] at hlen
  revert hlen
  decide

end Cleonos.Filters
