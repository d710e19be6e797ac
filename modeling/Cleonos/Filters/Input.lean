import Cleonos.Files.Model
import Cleonos.Lib.BlockStream

/-!
# What the text commands read

The input of `head`, `tail`, `uniq` and `sort`: a file that is read as a whole, or what arrives at
standard input before the command starts (`cmd_runtime.c`).
-/

namespace Cleonos.Filters

open List
open Files (Nodes MoveAnswers copyMax pathMax statType statSize fsRead)
open Path (ushResolvePath)
open Arrival (Sent)

/-! ## The source -/

/-- The locale, the directory, the nodes of the kernel and what its calls answer, and the pieces
that arrive at standard input, if it is a pipe. -/
structure Process where
  zh : Bool
  cwd : List UInt8
  files : Nodes
  answers : MoveAnswers
  pipe : Option (List (List UInt8))

/-- `ush_writeln_i18n`. -/
def writelnI18n (zh : Bool) (en cn : String) : List UInt8 :=
  (if zh then cn.toUTF8.toList else lit en) ++ [10]

/-- The loop of `ush_cmd_runtime_capture_stdin_pipe`: what is in the buffer, and whether it counts
as truncated. -/
def captureLoop : ℕ → List (List UInt8) → List UInt8 → Bool → List UInt8 × Bool
  | 0, _, buf, truncated => (buf, truncated)
  | fuel + 1, pieces, buf, truncated =>
    if buf.length < copyMax then
      let got := Arrival.read (copyMax - buf.length) pieces
      if got.1 = [] then (buf, truncated) else captureLoop fuel got.2 (buf ++ got.1) truncated
    else
      let got := Arrival.read 256 pieces
      if got.1 = [] then (buf, true) else captureLoop fuel got.2 buf true

/-- `ush_cmd_runtime_capture_stdin_pipe`; a round that goes on takes a byte. -/
def captureStdinPipe (pieces : List (List UInt8)) : List UInt8 × Bool :=
  captureLoop (pieces.flatten.length + 1) pieces [] false

/-- The loop comes to its `break` within so many rounds. -/
def captureEnds : ℕ → List (List UInt8) → List UInt8 → Bool
  | 0, _, _ => false
  | fuel + 1, pieces, buf =>
    if buf.length < copyMax then
      let got := Arrival.read (copyMax - buf.length) pieces
      got.1 = [] || captureEnds fuel got.2 (buf ++ got.1)
    else
      let got := Arrival.read 256 pieces
      got.1 = [] || captureEnds fuel got.2 buf

/-- `ush_pipeline_stdin_buf` up to its terminator, and `ush_pipeline_stdin_len`. -/
def stdinBuf (pieces : List (List UInt8)) : List UInt8 × ℕ :=
  ((captureStdinPipe pieces).1 ++ [0], (captureStdinPipe pieces).1.length)

/-- `cleonos_cmd_runtime_pre_main`: what it writes, and `ush_pipeline_stdin_text`. -/
def preMain (p : Process) : List UInt8 × Option (List UInt8) :=
  match p.pipe with
  | none => ([], none)
  | some pieces =>
    (if (captureStdinPipe pieces).2 then lit "[pipe] input truncated" ++ [10] else [],
      some (captureStdinPipe pieces).1)

/-- The part of the `load_input` functions that reads a file; an error is what is written. -/
def loadFile (name : String) (p : Process) (fileArg : List UInt8) :
    Except (List UInt8) (List UInt8) :=
  match ushResolvePath p.cwd fileArg (fun _ => 0) pathMax with
  | none => .error (writelnI18n p.zh (name ++ ": invalid path") (name ++ ": 无效路径"))
  | some path =>
    if statType p.answers.stat p.files path ≠ 1 then
      .error (writelnI18n p.zh (name ++ ": file not found") (name ++ ": 文件不存在"))
    else
      match statSize p.answers.size p.files path with
      | none =>
        .error (writelnI18n p.zh (name ++ ": failed to stat file")
          (name ++ ": 获取文件信息失败"))
      | some size =>
        if size > copyMax then
          .error (writelnI18n p.zh (name ++ ": file too large for user buffer")
            (name ++ ": 文件过大，无法放入用户缓冲区"))
        else if size = 0 then .ok []
        else
          let got := fsRead p.answers p.files path size
          if got.length = 0 ∨ got.length ≠ size then
            .error (writelnI18n p.zh (name ++ ": read failed") (name ++ ": 读取失败"))
          else .ok got

/-- `ush_head_load_input`, `ush_tail_load_input`, `ush_uniq_load_input`. -/
def loadInput (name : String) (p : Process) (stdin : Option (List UInt8)) (fileArg : List UInt8) :
    Except (List UInt8) (List UInt8) :=
  if fileArg ≠ [] then loadFile name p fileArg
  else
    match stdin with
    | none =>
      .error (writelnI18n p.zh (name ++ ": file path required (or pipeline input)")
        (name ++ ": 需要文件路径或管道输入"))
    | some text => .ok text

/-- The content is that of a regular file, whose calls succeed and whose read delivers it whole, or
it arrives at standard input. -/
inductive Delivers (p : Process) (content : List UInt8) : List UInt8 → Prop
  | file (fileArg path : List UInt8) (hne : fileArg ≠ []) (hpipe : p.pipe = none)
      (hpath : ushResolvePath p.cwd fileArg (fun _ => 0) pathMax = some path)
      (hfile : p.files.at path = some (.file content)) (hstat : p.answers.stat = true)
      (hsize : p.answers.size = true) (hread : content.length ≤ p.answers.read) :
      Delivers p content fileArg
  | pipe (pieces : List (List UInt8)) (hpipe : p.pipe = some pieces) (hsent : Sent content pieces) :
      Delivers p content []

/-- The capture ends, holds the front of what was sent that fits, and says so exactly if there was
more. -/
structure CaptureLaw (pieces : List (List UInt8)) : Prop where
  ends : ∃ rounds, captureEnds rounds pieces [] = true
  buffer : stdinBuf pieces =
    (pieces.flatten.take copyMax ++ [0], min pieces.flatten.length copyMax)
  truncated : (captureStdinPipe pieces).2 = true ↔ copyMax < pieces.flatten.length

/-- The content fits into the buffer, with room to see its end. -/
structure Fits (content fileArg : List UInt8) : Prop where
  le : content.length ≤ copyMax
  pipe : fileArg = [] → content.length < copyMax

variable {p : Process} {content fileArg path buf items : List UInt8} {pieces : List (List UInt8)}
  {name : String}

theorem captureLoop_full (hfull : copyMax ≤ buf.length) (fuel : ℕ) (h : Sent items pieces)
    (hfuel : items.length < fuel) (truncated : Bool) :
    captureLoop fuel pieces buf truncated = (buf, true) := by
  induction fuel generalizing items pieces truncated with
  | zero => exact absurd hfuel (Nat.not_lt_zero _)
  | succ fuel ih =>
    rw [captureLoop, if_neg (Nat.not_lt.2 hfull)]
    dsimp only
    split
    case isTrue => rfl
    case isFalse hgot =>
      have hpos : 0 < (Arrival.read 256 pieces).1.length := length_pos_iff.2 hgot
      have hle := h.length_read_le 256
      apply ih (h.rest 256)
      rw [length_drop]
      omega

theorem captureLoop_eq (fuel : ℕ) (h : Sent items pieces) (hbuf : buf.length ≤ copyMax)
    (hfuel : items.length < fuel) : captureLoop fuel pieces buf false =
      ((buf ++ items).take copyMax, decide (copyMax ≤ (buf ++ items).length)) := by
  induction fuel generalizing items pieces buf with
  | zero => exact absurd hfuel (Nat.not_lt_zero _)
  | succ fuel ih =>
    by_cases hfull : copyMax ≤ buf.length
    · have hlen : buf.length = copyMax := Nat.le_antisymm hbuf hfull
      rw [captureLoop_full hfull (fuel + 1) h hfuel, ← hlen, take_left]
      simp
    · have hroom : 0 < copyMax - buf.length := by omega
      rw [captureLoop, if_pos (Nat.lt_of_not_le hfull)]
      dsimp only
      split
      case isTrue hgot =>
        rw [Arrival.read_eq_nil_iff h hroom] at hgot
        subst hgot
        rw [append_nil, take_of_length_le hbuf, decide_eq_false hfull]
      case isFalse hgot =>
        have hpos : 0 < (Arrival.read (copyMax - buf.length) pieces).1.length :=
          length_pos_iff.2 hgot
        have hle := Arrival.length_read_le (copyMax - buf.length) pieces
        have hin := h.length_read_le (copyMax - buf.length)
        have hbuf' : (buf ++ (Arrival.read (copyMax - buf.length) pieces).1).length ≤
            copyMax := by
          rw [length_append]
          omega
        have hfuel' : (items.drop (Arrival.read (copyMax - buf.length) pieces).1.length).length <
            fuel := by
          rw [length_drop]
          omega
        rw [ih (h.rest (copyMax - buf.length)) hbuf' hfuel', append_assoc,
          h.read_append_drop]

theorem captureStdinPipe_eq (h : Sent content pieces) :
    captureStdinPipe pieces = (content.take copyMax, decide (copyMax ≤ content.length)) := by
  have hfuel : content.length < pieces.flatten.length + 1 := by
    rw [h.whole]
    exact Nat.lt_succ_self _
  exact captureLoop_eq (pieces.flatten.length + 1) h (Nat.zero_le copyMax) hfuel

theorem captureEnds_of_sent (fuel : ℕ) (h : Sent items pieces) (hfuel : items.length < fuel) :
    captureEnds fuel pieces buf = true := by
  induction fuel generalizing items pieces buf with
  | zero => exact absurd hfuel (Nat.not_lt_zero _)
  | succ fuel ih =>
    have hround (n : ℕ) (next : List UInt8) : ((Arrival.read n pieces).1 = [] ||
        captureEnds fuel (Arrival.read n pieces).2 next) = true := by
      by_cases hgot : (Arrival.read n pieces).1 = []
      · rw [decide_eq_true hgot, Bool.true_or]
      · have hpos := length_pos_iff.2 hgot
        have hle := h.length_read_le n
        rw [ih (h.rest n), Bool.or_true]
        rw [length_drop]
        omega
    rw [captureEnds]
    split
    · exact hround _ _
    · exact hround _ _

/-- In whatever pieces the input arrives, it is captured as it should be exactly if it does not fill
the buffer to its last byte. -/
theorem captureLaw_iff (pieces : List (List UInt8)) (h : ∀ p ∈ pieces, p ≠ []) :
    CaptureLaw pieces ↔ pieces.flatten.length ≠ copyMax := by
  have hsent : Sent pieces.flatten pieces := ⟨rfl, h⟩
  have hcapture := captureStdinPipe_eq hsent
  constructor
  · intro hlaw hfull
    have hreport := hlaw.truncated
    rw [hcapture, decide_eq_true_iff, hfull] at hreport
    exact absurd (hreport.1 le_rfl) (Nat.lt_irrefl _)
  · intro hne
    constructor
    · exact ⟨_, captureEnds_of_sent _ hsent (Nat.lt_succ_self _)⟩
    · rw [stdinBuf, hcapture, length_take, Nat.min_comm]
    · rw [hcapture, decide_eq_true_iff]
      omega

/-- A byte arrives. -/
theorem captureLaw_byte : (∀ p ∈ [[(97 : UInt8)]], p ≠ []) ∧
    (CaptureLaw [[97]] ↔ [[(97 : UInt8)]].flatten.length ≠ copyMax) :=
  ⟨by decide, captureLaw_iff [[97]] (by decide)⟩

/-- Just as many bytes as fit arrive, in one piece: the capture calls them truncated. -/
theorem not_captureLaw : ¬ CaptureLaw [List.replicate 65536 97] := by
  have hne : List.replicate 65536 (97 : UInt8) ≠ [] :=
    ne_nil_of_length_pos (by rw [length_replicate]; exact Nat.succ_pos _)
  have hlen : (List.replicate 65536 (97 : UInt8)).length = copyMax := length_replicate
  generalize List.replicate 65536 (97 : UInt8) = sent at hne hlen
  have hsent : Sent sent [sent] := by
    constructor
    · exact flatten_singleton
    · intro p hp
      rw [mem_singleton.1 hp]
      exact hne
  intro hlaw
  have hreport := hlaw.truncated
  rw [captureStdinPipe_eq hsent, decide_eq_true_iff, flatten_singleton, hlen] at hreport
  exact absurd (hreport.1 le_rfl) (Nat.lt_irrefl _)

theorem stat_of_file (hfile : p.files.at path = some (.file content))
    (hstat : p.answers.stat = true) (hsize : p.answers.size = true) :
    statType p.answers.stat p.files path = 1 ∧
      statSize p.answers.size p.files path = some content.length := by
  rw [statType, statSize, hstat, hsize, hfile]
  exact ⟨rfl, rfl⟩

theorem loadFile_of_file
    (hpath : ushResolvePath p.cwd fileArg (fun _ => 0) pathMax = some path)
    (hfile : p.files.at path = some (.file content)) (hstat : p.answers.stat = true)
    (hsize : p.answers.size = true) (hread : content.length ≤ p.answers.read)
    (hle : content.length ≤ copyMax) : loadFile name p fileArg = .ok content := by
  obtain ⟨htype, hlen⟩ := stat_of_file hfile hstat hsize
  rw [loadFile, hpath]
  dsimp only
  rw [if_neg (not_not.2 htype), hlen]
  dsimp only
  rw [if_neg (Nat.not_lt.2 hle)]
  split
  case isTrue hzero => rw [length_eq_zero_iff.1 hzero]
  case isFalse hzero =>
    have hgot : fsRead p.answers p.files path content.length = content := by
      rw [fsRead, hfile]
      exact take_of_length_le (by omega)
    rw [hgot, if_neg (by omega)]

theorem loadFile_of_large (hpath : ushResolvePath p.cwd fileArg (fun _ => 0) pathMax = some path)
    (hfile : p.files.at path = some (.file content)) (hstat : p.answers.stat = true)
    (hsize : p.answers.size = true) (hlarge : copyMax < content.length) :
    loadFile name p fileArg = .error (writelnI18n p.zh (name ++ ": file too large for user buffer")
      (name ++ ": 文件过大，无法放入用户缓冲区")) := by
  obtain ⟨htype, hlen⟩ := stat_of_file hfile hstat hsize
  rw [loadFile, hpath]
  dsimp only
  rw [if_neg (not_not.2 htype), hlen]
  dsimp only
  rw [if_pos hlarge]

theorem loadInput_of_delivers (h : Delivers p content fileArg) (hfits : Fits content fileArg)
    (name : String) : (preMain p).1 = [] ∧
      loadInput name p (preMain p).2 fileArg = .ok content := by
  cases h with
  | file _ path hne hpipe hpath hfile hstat hsize hread =>
    constructor
    · rw [preMain, hpipe]
    · rw [loadInput.eq_def, if_pos hne]
      exact loadFile_of_file hpath hfile hstat hsize hread hfits.le
  | pipe pieces hpipe hsent =>
    have hlt := hfits.pipe rfl
    have hcapture := captureStdinPipe_eq hsent
    rw [take_of_length_le hfits.le, decide_eq_false (Nat.not_le.2 hlt)] at hcapture
    constructor
    · rw [preMain, hpipe]
      dsimp only
      rw [hcapture]
      rfl
    · rw [preMain, hpipe]
      dsimp only
      rw [hcapture]
      rfl

/-- A process that finds a content at `/f`. -/
def filed (content : List UInt8) : Process :=
  ⟨false, [47], fun key => if key = [[102]] then some (.file content) else none,
    ⟨true, true, content.length, [], true, none, true⟩, none⟩

theorem filed_path (content : List UInt8) :
    ushResolvePath (filed content).cwd [102] (fun _ => 0) pathMax = some [47, 102] := by
  change ushResolvePath [47] [102] (fun _ => 0) pathMax = some [47, 102]
  decide

theorem delivers_filed (content : List UInt8) : Delivers (filed content) content [102] :=
  .file [102] [47, 102] (cons_ne_nil _ _) rfl (filed_path content) rfl rfl rfl le_rfl

theorem exists_large : ∃ content : List UInt8, content.length = 65537 ∧ ∀ c ∈ content, c = 97 :=
  ⟨List.replicate 65537 97, length_replicate, fun _ => eq_of_mem_replicate⟩

theorem loadInput_filed_of_large (hlarge : copyMax < content.length) :
    loadInput name (filed content) none [102] =
      .error (writelnI18n false (name ++ ": file too large for user buffer")
        (name ++ ": 文件过大，无法放入用户缓冲区")) := by
  rw [loadInput.eq_def, if_pos (cons_ne_nil _ _)]
  exact loadFile_of_large (filed_path content) rfl rfl rfl hlarge

end Cleonos.Filters
