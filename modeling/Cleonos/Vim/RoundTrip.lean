import Cleonos.Lib.Lines
import Cleonos.Vim.Document

/-!
# Loading and saving

What a save writes when nothing was edited since the load: the file without its carriage returns,
if its lines fit the buffer.
-/

namespace Cleonos.Vim

open List
open Buffer
open Split (splitOn_append_sep exists_splitOn splitOn_append_of_ne intercalate_append_last)

/-- The loop of `ush_vim_load_file`, with what its reads return. -/
def loadReads (reads : List (List UInt8)) : Loading :=
  reads.foldl (fun st buf => buf.foldl loadByte st) ⟨fun _ => zeroLine, 0, false⟩

/-- The file of a save whose calls are done. -/
def savedBytes (ed : VimEditor) : List UInt8 := (savedChunks ed).flatten

/-- A text of at most 2048 lines of less than 512 bytes each; behind a newline at the end
stands one more line, which is empty. -/
def Fits (text : List UInt8) : Prop :=
  (text.splitOn 10).length ≤ maxLines ∧ ∀ line ∈ text.splitOn 10, line.length < maxLineLen

/-- A text without its carriage returns. -/
def dropReturns (file : List UInt8) : List UInt8 := file.filter (· != 13)

theorem Fits.of_append_byte {text : List UInt8} {c : UInt8} (h : Fits (text ++ [c])) : Fits text := by
  obtain ⟨front, last, hsplit⟩ := exists_splitOn 10 text
  obtain ⟨hcount, hlens⟩ := h
  by_cases hc : c = 10
  · rw [hc, splitOn_append_sep] at hcount hlens
    refine ⟨le_trans ?_ hcount, fun line hline => hlens line (mem_append_left _ hline)⟩
    simp
  · rw [splitOn_append_of_ne hsplit hc] at hcount hlens
    rw [Fits, hsplit]
    refine ⟨by simpa using hcount, fun line hline => ?_⟩
    rcases mem_append.1 hline with hline | hline
    · exact hlens line (mem_append_left _ hline)
    · have hlong := hlens (last ++ [c]) (by simp)
      rw [mem_singleton.1 hline]
      rw [length_append] at hlong
      omega

/-! ## The load -/

/-- What the load has made of the first bytes of a file. -/
structure Follows (done : List UInt8) (st : Loading) : Prop where
  whole : st.truncated = false →
    (dropReturns done).splitOn 10 = (slice st.lines 0 (st.lineIndex + 1)).map VimLine.bytes
  cut : st.truncated = true → ¬ Fits (dropReturns done)

theorem dropReturns_append (done : List UInt8) (ch : UInt8) :
    dropReturns (done ++ [ch]) = if ch = 13 then dropReturns done else dropReturns done ++ [ch] := by
  rw [dropReturns, filter_append, filter_singleton]
  by_cases hcr : ch = 13
  · rw [if_pos hcr, hcr]
    exact append_nil _
  · have hne : (ch != 13) = true := by simpa using hcr
    rw [if_neg hcr, hne]
    rfl

theorem Follows.fits {done : List UInt8} {st : Loading} (h : Follows done st)
    (hloaded : Loaded done st) (hwhole : st.truncated = false) : Fits (dropReturns done) := by
  rw [Fits, h.whole hwhole]
  refine ⟨?_, fun line hline => ?_⟩
  · rw [length_map, length_slice]
    exact hloaded.index
  obtain ⟨l, hl, rfl⟩ := mem_map.1 hline
  obtain ⟨j, hj⟩ := List.getElem?_of_mem hl
  have hlt : j < st.lineIndex + 1 := by
    have hlen := (List.getElem?_eq_some_iff.1 hj).1
    simpa using hlen
  rw [getElem?_slice hlt] at hj
  cases hj
  rw [length_bytes]
  exact (hloaded.lines _).len

theorem Follows.loadByte {done : List UInt8} {st : Loading} (h : Follows done st)
    (hloaded : Loaded done st) (ch : UInt8) : Follows (done ++ [ch]) (loadByte st ch) := by
  have hcut : ∀ c, st.truncated = true → ¬ Fits (dropReturns done ++ [c]) :=
    fun c htrunc hfits => h.cut htrunc hfits.of_append_byte
  rw [Vim.loadByte]
  simp only
  split
  case isTrue hcr =>
    refine ⟨?_, ?_⟩
    all_goals rw [dropReturns_append, if_pos hcr]
    · exact h.whole
    · exact h.cut
  case isFalse hcr =>
    split
    case isTrue hnl =>
      subst hnl
      split
      case isTrue hroom =>
        refine ⟨fun hwhole => ?_, ?_⟩
        all_goals rw [dropReturns_append, if_neg hcr]
        · have hempty : (st.lines (st.lineIndex + 1)).bytes = [] := by
            rw [hloaded.behind _ (Nat.lt_succ_self _)]
            rfl
          rw [splitOn_append_sep, h.whole hwhole, slice_succ st.lines 0 (st.lineIndex + 1),
            map_append, Nat.zero_add, map_singleton, hempty]
        · exact hcut 10
      case isFalse hfull =>
        refine ⟨fun hwhole => absurd hwhole (by simp), fun _ => ?_⟩
        rw [dropReturns_append, if_neg hcr]
        cases htrunc : st.truncated with
        | true => exact hcut 10 htrunc
        | false =>
          intro hfits
          have hcount := hfits.1
          rw [splitOn_append_sep, h.whole htrunc, length_append, length_map, length_slice,
            length_singleton] at hcount
          omega
    case isFalse hnl =>
      have hlast : (slice st.lines 0 (st.lineIndex + 1)).map VimLine.bytes =
          (slice st.lines 0 st.lineIndex).map VimLine.bytes ++ [(st.lines st.lineIndex).bytes] := by
        rw [slice_succ, map_append, Nat.zero_add, map_singleton]
      split
      case isTrue hroom =>
        refine ⟨fun hwhole => ?_, ?_⟩
        all_goals rw [dropReturns_append, if_neg hcr]
        · rw [splitOn_append_of_ne ((h.whole hwhole).trans hlast) hnl]
          change _ = (slice (Function.update st.lines st.lineIndex _) 0 (st.lineIndex + 1)).map _
          rw [slice_update_succ, map_append, map_singleton, bytes_extend]
        · exact hcut ch
      case isFalse hfull =>
        refine ⟨fun hwhole => absurd hwhole (by simp), fun _ => ?_⟩
        rw [dropReturns_append, if_neg hcr]
        cases htrunc : st.truncated with
        | true => exact hcut ch htrunc
        | false =>
          intro hfits
          have hlen := hfits.2 ((st.lines st.lineIndex).bytes ++ [ch]) (by
            rw [splitOn_append_of_ne ((h.whole htrunc).trans hlast) hnl]
            exact mem_append_right _ (mem_singleton.2 rfl))
          rw [length_append, length_bytes, length_singleton] at hlen
          omega

theorem follows_foldl {done : List UInt8} {st : Loading} (h : Follows done st)
    (hloaded : Loaded done st) (bytes : List UInt8) :
    Follows (done ++ bytes) (bytes.foldl loadByte st) := by
  induction bytes generalizing done st with
  | nil => simpa using h
  | cons ch bytes ih =>
    have hnext := ih (h.loadByte hloaded ch) (hloaded.loadByte ch)
    rwa [append_assoc] at hnext

theorem loadReads_eq (reads : List (List UInt8)) :
    loadReads reads = reads.flatten.foldl loadByte ⟨fun _ => zeroLine, 0, false⟩ :=
  (foldl_flatten).symm

theorem flatten_chunk (ed : VimEditor) (i : ℕ) :
    ((if (ed.lines i).len > 0 then [(ed.lines i).bytes] else []) ++
      (if i + 1 < ed.lineCount then [[10]] else [])).flatten =
        (ed.lines i).bytes ++ (if i + 1 < ed.lineCount then [10] else []) := by
  rw [flatten_append]
  congr 1
  · by_cases hlen : (ed.lines i).len > 0
    · rw [if_pos hlen, flatten_singleton]
    · have hempty : (ed.lines i).bytes = [] := by
        rw [← length_eq_zero_iff, length_bytes]
        omega
      rw [if_neg hlen, hempty, flatten_nil]
  · split <;> rfl

theorem savedBytes_take (ed : VimEditor) (k : ℕ) (h : k < ed.lineCount) :
    ((List.range (k + 1)).flatMap fun i =>
      (if (ed.lines i).len > 0 then [(ed.lines i).bytes] else []) ++
        (if i + 1 < ed.lineCount then [[10]] else [])).flatten =
      List.intercalate [10] ((slice ed.lines 0 (k + 1)).map VimLine.bytes) ++
        (if k + 1 < ed.lineCount then [10] else []) := by
  induction k with
  | zero =>
    have hone : List.range (0 + 1) = [0] := rfl
    have hslice : slice ed.lines 0 (0 + 1) = [ed.lines 0] := rfl
    rw [hone, flatMap_singleton, flatten_chunk, hslice, map_singleton,
      intercalate_singleton]
  | succ k ih =>
    have hne : (slice ed.lines 0 (k + 1)).map VimLine.bytes ≠ [] := by
      rw [ne_eq, ← length_eq_zero_iff, length_map, length_slice]
      omega
    rw [range_succ, flatMap_append, flatten_append, ih (by omega),
      flatMap_singleton, flatten_chunk, slice_succ ed.lines 0 (k + 1), map_append,
      map_singleton, intercalate_append_last _ _ hne, if_pos h, Nat.zero_add]
    simp only [append_assoc]

theorem savedBytes_eq {ed : VimEditor} (h : 0 < ed.lineCount) :
    savedBytes ed = List.intercalate [10] ((slice ed.lines 0 ed.lineCount).map VimLine.bytes) := by
  have hall := savedBytes_take ed (ed.lineCount - 1) (by omega)
  rw [Nat.sub_add_cancel h, if_neg (lt_irrefl _), append_nil] at hall
  exact hall

/-- A save behind a load writes the file without its carriage returns, if its lines fit;
otherwise the load has said that the file is cut. -/
theorem load_save (reads : List (List UInt8)) (path : List UInt8) :
    ∃ ed, loadFile (.data reads.flatten) init path = some ed ∧
      ed.lines = (loadReads reads).lines ∧
      (Fits (dropReturns reads.flatten) →
        savedBytes ed = dropReturns reads.flatten ∧ ed.status = lit "file loaded") ∧
      (¬ Fits (dropReturns reads.flatten) → ed.status = lit "file loaded with truncation") := by
  have hnew : Loaded [] ⟨fun _ => zeroLine, 0, false⟩ :=
    ⟨by decide, fun _ => lineOk_zeroLine, fun _ _ => rfl, nil_sublist _⟩
  have hempty : Follows [] ⟨fun _ => zeroLine, 0, false⟩ := ⟨fun _ => rfl, fun h => nomatch h⟩
  have hloaded := loaded_foldl hnew reads.flatten
  have hfollows := follows_foldl hempty hnew reads.flatten
  rw [nil_append] at hloaded hfollows
  rw [loadReads_eq]
  generalize reads.flatten = file at *
  refine ⟨_, rfl, rfl, fun hfits => ?_, fun hlong => ?_⟩
  · have hwhole : (file.foldl loadByte ⟨fun _ => zeroLine, 0, false⟩).truncated = false :=
      Bool.eq_false_iff.2 fun htrunc => hfollows.cut htrunc hfits
    refine ⟨?_, ?_⟩
    · rw [savedBytes_eq (Nat.succ_pos _)]
      have htext := congrArg (List.intercalate [10]) (hfollows.whole hwhole)
      rw [intercalate_splitOn] at htext
      exact htext.symm
    · change ushCopy statusMax (if (file.foldl loadByte _).truncated then _ else _) = _
      rw [hwhole]
      decide
  · have hcut : (file.foldl loadByte ⟨fun _ => zeroLine, 0, false⟩).truncated = true := by
      by_contra htrunc
      exact hlong (hfollows.fits hloaded (Bool.eq_false_iff.2 htrunc))
    change ushCopy statusMax (if (file.foldl loadByte _).truncated then _ else _) = _
    rw [hcut]
    decide

/-- The carriage return in front of a newline is not written back. -/
theorem load_drops_return : ¬ ∀ file path ed, loadFile (.data file) init path = some ed →
    Fits file → savedBytes ed = file := by
  intro h
  have hsaved := h [97, 13, 10] [47, 97] _ rfl ⟨by decide, by decide⟩
  exact absurd hsaved (by decide)

end Cleonos.Vim
