import Cleonos.Kernel.Paths
import Cleonos.Vim.Model
import Cleonos.Lib.Words

/-!
# Copying and moving files

`cp_main.c` and `mv_main.c`, over the nodes that the kernel has at its paths.
-/

namespace Cleonos.Files

section

open Libc (isspace)
open Kernel (kernelPath)
open Path (ushResolvePath)

def pathMax : ℕ := 192
def argMax : ℕ := 160
def copyBuf : ℕ := 4096
def copyMax : ℕ := 65536

/-- A path, as the kernel works with it. -/
abbrev Key : Type := List (List UInt8)

/-- What the kernel has at each path. -/
abbrev Nodes : Type := Key → Option Node

/-- The node at the path of a call. -/
def Nodes.at (files : Nodes) (path : List UInt8) : Option Node := (kernelPath path).bind files

/-- The nodes with another one at the path of a call. -/
def Nodes.set (files : Nodes) (path : List UInt8) (n : Option Node) : Nodes :=
  match kernelPath path with
  | none => files
  | some key => Function.update files key n

/-- `cleonos_sys_fs_stat_type`, which also fails where it is told to. -/
def statType (ok : Bool) (files : Nodes) (path : List UInt8) : UInt64 :=
  if ok = false then 0 - 1
  else
    match files.at path with
    | some .dir => 2
    | some (.file _) => 1
    | some .device => 1
    | none => 0 - 1

/-- `ush_split_two_args` into buffers of `n` and `m` bytes. -/
def ushSplitTwoArgs (arg : List UInt8) (n m : ℕ) : Option (List UInt8 × List UInt8) :=
  let text := (cstr arg).dropWhile isspace
  if text = [] then none
  else
    let rest := (text.dropWhile (! isspace ·)).dropWhile isspace
    if rest = [] then none
    else
      let first := (text.takeWhile (! isspace ·)).take (n - 1)
      let second := (rest.takeWhile (! isspace ·)).take (m - 1)
      if first ≠ [] ∧ second ≠ [] then some (first, second) else none

/-- The two paths of a command; none where one of them is missing or invalid. -/
def twoPaths (cwd arg : List UInt8) : Option (List UInt8 × List UInt8) :=
  if arg.headD 0 = 0 then none
  else
    (ushSplitTwoArgs arg pathMax pathMax).bind fun args =>
      (ushResolvePath cwd args.1 (fun _ => 0) pathMax).bind fun src =>
        (ushResolvePath cwd args.2 (fun _ => 0) pathMax).map fun dst => (src, dst)

/-! ## cp -/

/-- A round of the loop: how many bytes a read of a file delivers, none where it fails, what it
delivers from a device, and how many bytes each write takes. -/
structure CopyRound where
  read : Option ℕ
  device : List UInt8
  writes : List (Option ℕ)
  deriving DecidableEq, Repr

/-- Which calls in front of the loop succeed, and its rounds; when these end, the read fails. -/
structure CopyAnswers where
  stat : Bool
  openSource : Bool
  openDest : Bool
  rounds : List CopyRound
  deriving DecidableEq, Repr

/-- `cleonos_sys_fd_open` for writing, with `O_CREAT` and `O_TRUNC`; none where it fails. -/
def openTrunc (ok : Bool) (files : Nodes) (path : List UInt8) : Option Nodes :=
  if ok = false then none
  else
    match files.at path with
    | some .dir => none
    | some .device => some files
    | _ => some (files.set path (some (.file [])))

/-- `cleonos_sys_fd_read` at an offset: at least one byte unless the file ends there. -/
def readAt (files : Nodes) (path : List UInt8) (offset : ℕ) (round : CopyRound) :
    Option (List UInt8) :=
  round.read.bind fun k =>
    match files.at path with
    | some (.file bytes) => some ((bytes.drop offset).take (min (max 1 k) copyBuf))
    | some .device => some (round.device.take copyBuf)
    | _ => none

/-- Bytes behind those that were written since the file was opened. -/
def writeBytes (files : Nodes) (path : List UInt8) (bytes : List UInt8) : Nodes :=
  files.set path ((files.at path).map fun n => n.extend bytes)

/-- The loop that writes a buffer. -/
def writeLoop (path : List UInt8) : List (Option ℕ) → List UInt8 → Nodes → Bool × Nodes
  | _, [], files => (true, files)
  | some (k + 1) :: answers, bytes, files =>
    writeLoop path answers (bytes.drop (k + 1)) (writeBytes files path (bytes.take (k + 1)))
  | _, _ :: _, files => (false, files)

/-- The loop of `ush_copy_file` of `cp`. -/
def copyLoop (src dst : List UInt8) : List CopyRound → ℕ → Nodes → Bool × Nodes
  | [], _, files => (false, files)
  | round :: rounds, offset, files =>
    match readAt files src offset round with
    | none => (false, files)
    | some [] => (true, files)
    | some got =>
      let r := writeLoop dst round.writes got files
      if r.1 = false then r else copyLoop src dst rounds (offset + got.length) r.2

/-- `ush_copy_file` of `cp`. -/
def cpCopyFile (a : CopyAnswers) (files : Nodes) (src dst : List UInt8) : Bool × Nodes :=
  if statType a.stat files src ≠ 1 then (false, files)
  else if a.openSource = false then (false, files)
  else
    match openTrunc a.openDest files dst with
    | none => (false, files)
    | some files => copyLoop src dst a.rounds 0 files

def ushCmdCp (a : CopyAnswers) (files : Nodes) (cwd arg : List UInt8) : Bool × Nodes :=
  match twoPaths cwd arg with
  | none => (false, files)
  | some (src, dst) => cpCopyFile a files src dst

/-- Which calls succeed, how many bytes the read delivers at most, and what a write that fails
leaves in the file; none where it leaves it as it was. -/
structure MoveAnswers where
  stat : Bool
  size : Bool
  read : ℕ
  device : List UInt8
  write : Bool
  torn : Option (List UInt8)
  remove : Bool
  deriving DecidableEq, Repr

/-- `cleonos_sys_fs_stat_size`; none for `-1`. -/
def statSize (ok : Bool) (files : Nodes) (path : List UInt8) : Option ℕ :=
  if ok = false then none
  else
    match files.at path with
    | some (.file bytes) => some bytes.length
    | some _ => some 0
    | none => none

/-- `cleonos_sys_fs_read` into a buffer of `size` bytes; no bytes where it fails. -/
def fsRead (a : MoveAnswers) (files : Nodes) (path : List UInt8) (size : ℕ) : List UInt8 :=
  match files.at path with
  | some (.file bytes) => bytes.take (min a.read size)
  | some .device => a.device.take size
  | _ => []

/-- `cleonos_sys_fs_write`; it refuses directories and devices. -/
def fsWrite (a : MoveAnswers) (files : Nodes) (path bytes : List UInt8) : Bool × Nodes :=
  match files.at path with
  | some .dir => (false, files)
  | some .device => (false, files)
  | _ =>
    if a.write then (true, files.set path (some (.file bytes)))
    else (false, match a.torn with
      | none => files
      | some left => files.set path (some (.file left)))

/-- `cleonos_sys_fs_remove`; it refuses devices. -/
def fsRemove (ok : Bool) (files : Nodes) (path : List UInt8) : Bool × Nodes :=
  match files.at path with
  | none => (false, files)
  | some .device => (false, files)
  | some _ => if ok then (true, files.set path none) else (false, files)

/-- `ush_copy_file` of `mv`. -/
def mvCopyFile (a : MoveAnswers) (files : Nodes) (src dst : List UInt8) : Bool × Nodes :=
  if statType a.stat files src ≠ 1 then (false, files)
  else
    match statSize a.size files src with
    | none => (false, files)
    | some size =>
      if size > copyMax then (false, files)
      else
        let got := if size = 0 then [] else fsRead a files src size
        if size ≠ 0 ∧ (got.length = 0 ∨ got.length ≠ size) then (false, files)
        else fsWrite a files dst got

def ushCmdMv (a : MoveAnswers) (files : Nodes) (cwd arg : List UInt8) : Bool × Nodes :=
  match twoPaths cwd arg with
  | none => (false, files)
  | some (src, dst) =>
    let r := mvCopyFile a files src dst
    if r.1 = false then r else fsRemove a.remove r.2 src

end

open Libc (isspace)
open Vim (ushSplitFirstAndRest)
open Words (word behind Splits)

/-- Two words, and nothing but spaces around them. -/
def TwoWords (text first second : List UInt8) : Prop :=
  ∃ rest, Splits isspace text first rest ∧ Splits isspace rest second []

/-- Whatever the functions split off, with buffers of `n`, `m` and `k` bytes, is what was typed. -/
def SplitLaw (arg : List UInt8) (n m k : ℕ) : Prop :=
  (∀ out, ushSplitTwoArgs arg n m = some out → TwoWords (cstr arg) out.1 out.2) ∧
    ∀ out, ushSplitFirstAndRest arg k = some out → Splits isspace (cstr arg) out.1 out.2

/-- A second word is missing, a buffer has no room for a byte, or there are two words and both
fit. -/
def FitsTwo (arg : List UInt8) (n m : ℕ) : Prop :=
  word isspace (behind isspace (cstr arg)) = [] ∨ n ≤ 1 ∨ m ≤ 1 ∨
    (word isspace (cstr arg)).length < n ∧ (word isspace (behind isspace (cstr arg))).length < m ∧
      behind isspace (behind isspace (cstr arg)) = []

/-- There is no word, no buffer, or the first word fits. -/
def FitsFirst (arg : List UInt8) (k : ℕ) : Prop :=
  word isspace (cstr arg) = [] ∨ k = 0 ∨ (word isspace (cstr arg)).length < k

variable {arg : List UInt8} {n m k : ℕ}

theorem word_behind_nil (h : word isspace (cstr arg) = []) : behind isspace (cstr arg) = [] := by
  have hnil : (cstr arg).dropWhile isspace = [] := by
    by_contra hne
    exact Words.word_ne_nil_iff.2 hne h
  rw [behind, hnil]
  rfl

theorem ushSplitTwoArgs_eq (arg : List UInt8) (n m : ℕ) : ushSplitTwoArgs arg n m =
    if word isspace (behind isspace (cstr arg)) = [] ∨ n ≤ 1 ∨ m ≤ 1 then none
    else some ((word isspace (cstr arg)).take (n - 1),
      (word isspace (behind isspace (cstr arg))).take (m - 1)) := by
  have hfirst : (cstr arg).dropWhile isspace = [] ↔ word isspace (cstr arg) = [] := by
    rw [← not_iff_not, ← ne_eq, ← ne_eq, Words.word_ne_nil_iff]
  have hsecond : behind isspace (cstr arg) = [] ↔ word isspace (behind isspace (cstr arg)) = [] := by
    rw [← not_iff_not, ← ne_eq, ← ne_eq, Words.word_ne_nil_iff, Words.dropWhile_behind]
  rw [ushSplitTwoArgs]
  by_cases hword : word isspace (cstr arg) = []
  · have hnil := hsecond.1 (word_behind_nil hword)
    rw [if_pos (hfirst.2 hword), if_pos (.inl hnil)]
  · rw [if_neg (fun h => hword (hfirst.1 h))]
    by_cases hnext : word isspace (behind isspace (cstr arg)) = []
    · rw [if_pos (Or.inl hnext)]
      exact if_pos (hsecond.2 hnext)
    · have hrest : behind isspace (cstr arg) ≠ [] := fun h => hnext (hsecond.1 h)
      have hsame : (behind isspace (cstr arg)).takeWhile (! isspace ·) =
          word isspace (behind isspace (cstr arg)) := by
        rw [word, Words.dropWhile_behind]
      have hroom (w : List UInt8) (hw : w ≠ []) (i : ℕ) : w.take (i - 1) ≠ [] ↔ ¬ i ≤ 1 := by
        rw [ne_eq, List.take_eq_nil_iff, not_or]
        constructor
        · intro h
          omega
        · intro h
          exact ⟨by omega, hw⟩
      have hboth : (word isspace (cstr arg)).take (n - 1) ≠ [] ∧
          ((behind isspace (cstr arg)).takeWhile (! isspace ·)).take (m - 1) ≠ [] ↔
            ¬ n ≤ 1 ∧ ¬ m ≤ 1 := by
        rw [hsame, hroom _ hword, hroom _ hnext]
      refine (if_neg hrest).trans ?_
      by_cases hbuf : n ≤ 1 ∨ m ≤ 1
      · rw [if_pos (Or.inr hbuf)]
        refine if_neg ?_
        intro h
        obtain ⟨hn, hm⟩ := hboth.1 h
        exact hbuf.elim hn hm
      · rw [if_neg (not_or.2 ⟨hnext, hbuf⟩), ← hsame]
        exact if_pos (hboth.2 (not_or.1 hbuf))

theorem ushSplitFirstAndRest_any (arg : List UInt8) (k : ℕ) : ushSplitFirstAndRest arg k =
    if k = 0 ∨ word isspace (cstr arg) = [] then none
    else some ((word isspace (cstr arg)).take (k - 1), behind isspace (cstr arg)) := by
  have hfirst : (cstr arg).dropWhile isspace = [] ↔ word isspace (cstr arg) = [] := by
    rw [← not_iff_not, ← ne_eq, ← ne_eq, Words.word_ne_nil_iff]
  rw [ushSplitFirstAndRest]
  simp only [hfirst]
  rfl

theorem take_pred_eq {w : List UInt8} (hk : k ≠ 0) : w.take (k - 1) = w ↔ w.length < k := by
  rw [List.take_eq_self_iff]
  omega

theorem twoWords_iff (hn : ¬ n ≤ 1) (hm : ¬ m ≤ 1)
    (hnext : word isspace (behind isspace (cstr arg)) ≠ []) :
    TwoWords (cstr arg) ((word isspace (cstr arg)).take (n - 1))
        ((word isspace (behind isspace (cstr arg))).take (m - 1)) ↔
      (word isspace (cstr arg)).length < n ∧
        (word isspace (behind isspace (cstr arg))).length < m ∧
          behind isspace (behind isspace (cstr arg)) = [] := by
  rw [← take_pred_eq (by omega), ← take_pred_eq (by omega)]
  constructor
  · rintro ⟨rest, hfirst, hsecond⟩
    obtain ⟨hword, rfl, -⟩ := Words.splits_iff.1 hfirst
    obtain ⟨hword', hend, -⟩ := Words.splits_iff.1 hsecond
    exact ⟨hword, hword', hend.symm⟩
  · rintro ⟨hword, hword', hend⟩
    have hne : word isspace (cstr arg) ≠ [] := by
      intro hnil
      rw [word_behind_nil hnil] at hnext
      exact hnext rfl
    rw [hword, hword']
    exact ⟨behind isspace (cstr arg), Words.splits_iff.2 ⟨rfl, rfl, hne⟩,
      Words.splits_iff.2 ⟨rfl, hend.symm, hnext⟩⟩

/-- For every text and all sizes, what is split off is what was typed exactly if the words fit. -/
theorem splitLaw_iff (arg : List UInt8) (n m k : ℕ) :
    SplitLaw arg n m k ↔ FitsTwo arg n m ∧ FitsFirst arg k := by
  have htwo : (∀ out, ushSplitTwoArgs arg n m = some out → TwoWords (cstr arg) out.1 out.2) ↔
      FitsTwo arg n m := by
    rw [ushSplitTwoArgs_eq, FitsTwo]
    by_cases hfail : word isspace (behind isspace (cstr arg)) = [] ∨ n ≤ 1 ∨ m ≤ 1
    · rw [if_pos hfail]
      constructor
      · intro _
        tauto
      · intro _ out hout
        cases hout
    · have hne : word isspace (behind isspace (cstr arg)) ≠ [] := fun h => hfail (.inl h)
      have hn : ¬ n ≤ 1 := fun h => hfail (.inr (.inl h))
      have hm : ¬ m ≤ 1 := fun h => hfail (.inr (.inr h))
      rw [if_neg hfail, or_iff_right hne, or_iff_right hn, or_iff_right hm, ← twoWords_iff hn hm hne]
      constructor
      · intro h
        exact h _ rfl
      · intro h out hout
        cases hout
        exact h
  have hfirst : (∀ out, ushSplitFirstAndRest arg k = some out →
      Splits isspace (cstr arg) out.1 out.2) ↔ FitsFirst arg k := by
    rw [ushSplitFirstAndRest_any, FitsFirst]
    by_cases hfail : k = 0 ∨ word isspace (cstr arg) = []
    · rw [if_pos hfail]
      constructor
      · intro _
        tauto
      · intro _ out hout
        cases hout
    · rw [not_or] at hfail
      rw [if_neg (not_or.2 hfail), or_iff_right hfail.2, or_iff_right hfail.1,
        ← take_pred_eq hfail.1]
      constructor
      · intro h
        exact (Words.splits_iff.1 (h _ rfl)).1
      · intro h out hout
        cases hout
        dsimp only
        rw [h]
        exact Words.splits_iff.2 ⟨rfl, rfl, hfail.2⟩
  rw [SplitLaw, htwo, hfirst]

/-- Three words, and the buffers of `mv`: the third word is dropped. -/
theorem not_splitLaw : ¬ SplitLaw (lit "a b c") pathMax pathMax pathMax := by
  intro hlaw
  have hsplit : ushSplitTwoArgs (lit "a b c") pathMax pathMax = some ([97], [98]) := by decide
  obtain ⟨rest, hfirst, hsecond⟩ := hlaw.1 _ hsplit
  have hrest := (Words.splits_iff.1 hfirst).2.1
  have hend := (Words.splits_iff.1 hsecond).2.1
  rw [hrest] at hend
  revert hend
  decide

end Cleonos.Files
