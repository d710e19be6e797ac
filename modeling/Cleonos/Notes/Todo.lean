import Mathlib.Algebra.Order.BigOperators.Group.List
import Cleonos.Browser.Url
import Cleonos.Vim.Model
import Cleonos.Lib.Lines

/-!
# The list of things to do

`todo_main.c` over its file, one line for each item.
-/

namespace Cleonos.Todo

open List
open Vim (ushCopy ushSplitFirstAndRest)
open Browser (parseU64Dec)
open Libc (decimal)

/-! ## The source -/

/-- `TODO_LINE_MAX`. -/
def lineMax : ℕ := 512

/-- The size of `db` and `next_db`. -/
def dbMax : ℕ := 8192

/-- The size of `num_buf`. -/
def numBuf : ℕ := 32

/-- Which calls of the system succeed during a command: the size of the file, reading it whole,
writing it and appending to it. -/
structure Answers where
  size : Bool
  read : Bool
  write : Bool
  append : Bool
deriving DecidableEq, Repr

/-- `todo_read_all`; there may be no file. -/
def todoReadAll (a : Answers) (file : Option (List UInt8)) : Option (List UInt8) :=
  if a.size = false then none
  else
    match file with
    | none => none
    | some text =>
      if dbMax < text.length + 1 then none
      else if text = [] then some []
      else if a.read then some text else none

def todoWriteAll (a : Answers) (file : Option (List UInt8)) (data : List UInt8) :
    Bool × Option (List UInt8) :=
  if a.write then (true, some (cstr data)) else (false, file)

/-- `line`, for the bytes from `start` to `i`. -/
def lineOf (piece : List UInt8) : List UInt8 := cstr (piece.take (lineMax - 1))

/-- The loop of `todo_remove_item`, with `next_db`. -/
def removeLoop (target : ℕ) : List (List UInt8) → ℕ → List UInt8 → List UInt8
  | [], _, nextDb => nextDb
  | piece :: pieces, index, nextDb =>
    if lineOf piece ≠ [] then
      removeLoop target pieces (index + 1)
        (if index + 1 ≠ target then
          nextDb ++ ushCopy (dbMax - nextDb.length) ((lineOf piece ++ [10]).take (numBuf - 1))
        else nextDb)
    else removeLoop target pieces index nextDb

def todoRemoveItem (a : Answers) (file : Option (List UInt8)) (arg : List UInt8) :
    Bool × Option (List UInt8) :=
  match parseU64Dec arg with
  | none => (false, file)
  | some target =>
    if target = 0 then (false, file)
    else
      match todoReadAll a file with
      | none => (false, file)
      | some db => todoWriteAll a file (removeLoop target (db.splitOn 10) 0 [])

/-- The lines with a first character; these are printed with a number. -/
def items (text : List UInt8) : List (List UInt8) := (text.splitOn 10).filter fun l => cstr l ≠ []

/-- If an item is removed, the file holds the items of before without the one of that number, if
there is one; and if the command fails, the file is as before. -/
def RemoveLaw (a : Answers) (file : Option (List UInt8)) (arg : List UInt8) : Prop :=
  ((todoRemoveItem a file arg).1 = true → ∃ text text' target, file = some text ∧
    (todoRemoveItem a file arg).2 = some text' ∧ parseU64Dec arg = some target ∧ 0 < target ∧
      items text' = (items text).eraseIdx (target - 1)) ∧
  ((todoRemoveItem a file arg).1 = false → (todoRemoveItem a file arg).2 = file)

/-- No item holds a zero byte, each but the last fits into `num_buf` with a newline, and the last one
without. -/
def Short (ls : List (List UInt8)) : Prop :=
  (∀ l ∈ ls, 0 ∉ l) ∧ (∀ l ∈ ls.dropLast, l.length ≤ 30) ∧ ∀ l ∈ ls.getLast?, l.length ≤ 31

/-- If the list is written anew, the items that stay are short. -/
def RemoveFits (a : Answers) (file : Option (List UInt8)) (arg : List UInt8) : Prop :=
  ∀ target text, parseU64Dec arg = some target → 0 < target → todoReadAll a file = some text →
    a.write = true → Short ((items text).eraseIdx (target - 1))

/-- What is appended for an item. -/
def chunk (l : List UInt8) : List UInt8 := (l ++ [10]).take (numBuf - 1)

/-- An item in a file. -/
structure IsItem (l : List UInt8) : Prop where
  first : cstr l ≠ []
  line : 10 ∉ l

variable {a : Answers} {file : Option (List UInt8)} {arg text w t l : List UInt8}
  {ls : List (List UInt8)} {target : ℕ}

theorem isItem_of_mem (h : l ∈ items text) : IsItem l := by
  obtain ⟨hl, hfirst⟩ := mem_filter.1 h
  exact ⟨of_decide_eq_true hfirst, Lines.notMem_of_mem_splitOn hl⟩

theorem items_nil : items [] = [] := by decide

theorem items_line (h : IsItem l) (t : List UInt8) : items (l ++ 10 :: t) = l :: items t := by
  rw [items, Lines.splitOn_line h.line, filter_cons_of_pos (by simpa using h.first)]
  rfl

theorem items_concat_newline (t : List UInt8) : items (t ++ [10]) = items t := by
  rw [items, Lines.splitOn_concat_sep, filter_append]
  exact append_nil _

theorem items_singleton (h : IsItem l) : items l = [l] := by
  rw [items, splitOn_eq_singleton h.line, filter_cons_of_pos (by simpa using h.first)]
  rfl

theorem length_items_append_le {c : UInt8} (hw : 10 ∉ w) (hc : c ≠ 10) (h0 : c ≠ 0) :
    (items (w ++ c :: t)).length ≤ (items (c :: t)).length := by
  obtain ⟨first, rest, hsplit⟩ := exists_cons_of_ne_nil (splitOn_ne_nil 10 t)
  have hone : 10 ∉ [c] := by simpa using hc.symm
  have hitem : (c :: t).splitOn 10 = (c :: first) :: rest := by
    have happ := Lines.splitOn_append_of_notMem (t := t) hone
    rw [hsplit] at happ
    exact happ
  have hfirst : cstr (c :: first) ≠ [] := by
    rw [cstr, takeWhile_cons_of_pos (by simpa using h0)]
    exact cons_ne_nil _ _
  rw [items, items, Lines.splitOn_append_of_notMem hw, hitem, modifyHead_cons,
    filter_cons_of_pos (a := c :: first) (by simpa using hfirst), length_cons]
  rw [filter_cons]
  split
  · rfl
  · exact Nat.le_succ _

theorem chunk_of_le (h : l.length ≤ 30) : chunk l = l ++ [10] :=
  take_of_length_le (by rw [length_append, length_singleton, numBuf]; omega)

theorem chunk_of_lt (h : 30 < l.length) : chunk l = l.take 31 := by
  rw [chunk, numBuf, take_append_of_le_length (by omega)]

theorem length_chunk_le (l : List UInt8) : (chunk l).length ≤ l.length + 1 := by
  rw [chunk, length_take, length_append, length_singleton]
  exact Nat.min_le_right _ _

theorem IsItem.exists_cons (h : IsItem l) : ∃ c t, l = c :: t ∧ c ≠ 10 ∧ c ≠ 0 := by
  cases l with
  | nil => exact absurd rfl h.first
  | cons c t =>
    refine ⟨c, t, rfl, ?_, ?_⟩
    · intro hc
      exact h.line (hc ▸ mem_cons_self)
    · intro hc
      have hfirst := h.first
      rw [hc] at hfirst
      exact hfirst rfl

theorem chunks_cons (l : List UInt8) (ls : List (List UInt8)) :
    (l :: ls).flatMap chunk = chunk l ++ ls.flatMap chunk := rfl

theorem IsItem.take (h : IsItem l) {n : ℕ} (hn : 0 < n) : IsItem (l.take n) := by
  obtain ⟨c, t, rfl, -, h0⟩ := h.exists_cons
  obtain ⟨n, rfl⟩ := Nat.exists_eq_succ_of_ne_zero (Nat.ne_of_gt hn)
  constructor
  · rw [take_succ_cons, cstr, takeWhile_cons_of_pos (by simpa using h0)]
    exact cons_ne_nil _ _
  · exact fun hmem => h.line (mem_of_mem_take hmem)

theorem length_items_merged_le (h : IsItem l) (hlong : 30 < l.length)
    (hls : ∀ k ∈ ls, IsItem k) (hne : ls ≠ []) :
    (items ((l :: ls).flatMap chunk)).length ≤ (items (ls.flatMap chunk)).length := by
  obtain ⟨k, ks, rfl⟩ := exists_cons_of_ne_nil hne
  obtain ⟨c, t, rfl, hc, h0⟩ := (hls k mem_cons_self).exists_cons
  have hcons : ((c :: t) :: ks).flatMap chunk =
      c :: ((t ++ [10]).take 30 ++ ks.flatMap chunk) := by
    rw [chunks_cons, chunk, numBuf, cons_append, take_succ_cons]
    rfl
  rw [chunks_cons, chunk_of_lt hlong, hcons]
  exact length_items_append_le (fun hmem => h.line (mem_of_mem_take hmem)) hc h0

theorem length_items_chunks_le (hls : ∀ l ∈ ls, IsItem l) :
    (items (ls.flatMap chunk)).length ≤ ls.length := by
  induction ls with
  | nil => exact le_rfl
  | cons l ls ih =>
    have hl := hls l mem_cons_self
    have hrest : ∀ k ∈ ls, IsItem k := fun k hk => hls k (mem_cons_of_mem l hk)
    have ih := ih hrest
    by_cases hlong : 30 < l.length
    · by_cases hnil : ls = []
      · subst hnil
        rw [chunks_cons, chunk_of_lt hlong, flatMap_nil, append_nil,
          items_singleton (hl.take (by omega))]
        exact le_rfl
      · have hle := length_items_merged_le hl hlong hrest hnil
        rw [length_cons]
        omega
    · rw [chunks_cons, chunk_of_le (by omega), append_assoc, singleton_append,
        items_line hl, length_cons, length_cons]
      omega

theorem items_chunks_iff (hls : ∀ l ∈ ls, IsItem l) : items (ls.flatMap chunk) = ls ↔
    (∀ l ∈ ls.dropLast, l.length ≤ 30) ∧ ∀ l ∈ ls.getLast?, l.length ≤ 31 := by
  induction ls with
  | nil => simp [items_nil]
  | cons l ls ih =>
    have hl := hls l mem_cons_self
    have hrest : ∀ k ∈ ls, IsItem k := fun k hk => hls k (mem_cons_of_mem l hk)
    by_cases hnil : ls = []
    · subst hnil
      by_cases hlong : 30 < l.length
      · rw [chunks_cons, chunk_of_lt hlong, flatMap_nil, append_nil,
          items_singleton (hl.take (by omega))]
        simp
      · rw [chunks_cons, chunk_of_le (by omega), append_assoc, singleton_append,
          items_line hl, flatMap_nil, items_nil]
        simp
        omega
    · obtain ⟨k, ks, rfl⟩ := exists_cons_of_ne_nil hnil
      rw [dropLast_cons_cons, List.getLast?_cons_cons, forall_mem_cons, and_assoc]
      by_cases hlong : 30 < l.length
      · have hle := length_items_merged_le hl hlong hrest hnil
        have hmost := length_items_chunks_le hrest
        constructor
        · intro heq
          rw [heq, length_cons] at hle
          omega
        · intro h
          omega
      · rw [chunks_cons, chunk_of_le (by omega), append_assoc, singleton_append,
          items_line hl, List.cons.injEq, ih hrest]
        simp only [true_and]
        exact (and_iff_right (by omega)).symm

/-- The items among the pieces of a text. -/
def kept (pieces : List (List UInt8)) : List (List UInt8) := pieces.filter fun l => cstr l ≠ []

theorem lineOf_ne_nil_iff (piece : List UInt8) : lineOf piece ≠ [] ↔ cstr piece ≠ [] := by
  rw [lineOf, ne_eq, ne_eq, cstr_eq_nil_iff, cstr_eq_nil_iff]
  cases piece with
  | nil => rfl
  | cons c piece => rfl

theorem chunk_nulFree (h : 0 ∉ l) : 0 ∉ chunk l := by
  intro hmem
  rcases mem_append.1 (mem_of_mem_take hmem) with hmem | hmem
  · exact h hmem
  · cases mem_singleton.1 hmem

theorem take_take_append (n : ℕ) (s t : List UInt8) : (s.take n ++ t).take n = (s ++ t).take n := by
  rw [take_append, take_append, take_take, Nat.min_self, length_take]
  congr 2
  omega

theorem append_chunk (db : List UInt8) (hdb : db.length ≤ dbMax - 1) (piece : List UInt8) :
    db ++ ushCopy (dbMax - db.length) ((lineOf piece ++ [10]).take (numBuf - 1)) =
      (db ++ chunk (lineOf piece)).take (dbMax - 1) := by
  have hnul : 0 ∉ chunk (lineOf piece) := chunk_nulFree (notMem_cstr _)
  have hcopy : ushCopy (dbMax - db.length) (chunk (lineOf piece)) =
      (chunk (lineOf piece)).take (dbMax - 1 - db.length) := by
    rw [ushCopy, cstr_of_notMem hnul, Nat.sub_right_comm]
  change db ++ ushCopy (dbMax - db.length) (chunk (lineOf piece)) = _
  rw [hcopy, take_append, take_of_length_le hdb]

theorem removeLoop_behind (pieces : List (List UInt8)) (index : ℕ) (db : List UInt8)
    (hindex : target ≤ index) (hdb : db.length ≤ dbMax - 1) : removeLoop target pieces index db =
      (db ++ ((kept pieces).map lineOf).flatMap chunk).take (dbMax - 1) := by
  induction pieces generalizing index db with
  | nil =>
    rw [removeLoop, kept, filter_nil, map_nil, flatMap_nil, append_nil,
      take_of_length_le hdb]
  | cons piece pieces ih =>
    rw [removeLoop]
    by_cases hline : lineOf piece = []
    · have hfirst : ¬ cstr piece ≠ [] := fun h => (lineOf_ne_nil_iff piece).2 h hline
      rw [if_neg (not_not.2 hline), ih index db hindex hdb, kept, kept,
        filter_cons_of_neg (by simpa using hfirst)]
    · have hfirst := (lineOf_ne_nil_iff piece).1 hline
      rw [if_pos hline, if_pos (by omega), append_chunk db hdb, ih _ _ (by omega) (length_take_le _ _),
        take_take_append, kept, kept, filter_cons_of_pos (by simpa using hfirst),
        map_cons, chunks_cons, append_assoc]

theorem removeLoop_eq (pieces : List (List UInt8)) (index : ℕ) (db : List UInt8)
    (hindex : index < target) (hdb : db.length ≤ dbMax - 1) : removeLoop target pieces index db =
      (db ++ (((kept pieces).eraseIdx (target - 1 - index)).map lineOf).flatMap chunk).take
        (dbMax - 1) := by
  induction pieces generalizing index db with
  | nil =>
    rw [removeLoop, kept, filter_nil, eraseIdx_nil, map_nil, flatMap_nil,
      append_nil, take_of_length_le hdb]
  | cons piece pieces ih =>
    rw [removeLoop]
    by_cases hline : lineOf piece = []
    · have hfirst : ¬ cstr piece ≠ [] := fun h => (lineOf_ne_nil_iff piece).2 h hline
      rw [if_neg (not_not.2 hline), ih index db hindex hdb, kept, kept,
        filter_cons_of_neg (by simpa using hfirst)]
    · have hfirst := (lineOf_ne_nil_iff piece).1 hline
      rw [if_pos hline, kept, filter_cons_of_pos (by simpa using hfirst)]
      by_cases hlast : index + 1 = target
      · have hzero : target - 1 - index = 0 := by omega
        rw [if_neg (not_not.2 hlast), removeLoop_behind _ _ _ (by omega) hdb, hzero,
          eraseIdx_cons_zero]
        rfl
      · have hsucc : target - 1 - index = target - 1 - (index + 1) + 1 := by omega
        rw [if_pos hlast, append_chunk db hdb, ih _ _ (by omega) (length_take_le _ _), take_take_append,
          hsucc, eraseIdx_cons_succ, map_cons, chunks_cons, append_assoc]
        rfl

theorem chunks_end (ls : List (List UInt8)) :
    (ls.flatMap chunk).length ≤ (ls.map fun l => l.length + 1).sum ∧
      ((ls.flatMap chunk).length < (ls.map fun l => l.length + 1).sum ∨ ls.flatMap chunk = [] ∨
        ∃ t, ls.flatMap chunk = t ++ [10]) := by
  induction ls using List.reverseRecOn with
  | nil => exact ⟨le_rfl, .inr (.inl rfl)⟩
  | append_singleton ls l ih =>
    have hlen := length_chunk_le l
    rw [flatMap_append, flatMap_singleton, map_append, sum_append,
      map_singleton, sum_singleton, length_append]
    refine ⟨Nat.add_le_add ih.1 hlen, ?_⟩
    by_cases hlong : 30 < l.length
    · have hshort : (chunk l).length ≤ 31 := by
        rw [chunk_of_lt hlong]
        exact length_take_le _ _
      exact .inl (by omega)
    · rw [chunk_of_le (by omega), ← append_assoc]
      exact .inr (.inr ⟨_, rfl⟩)

theorem items_take (h : (ls.map fun l => l.length + 1).sum ≤ dbMax) :
    items ((ls.flatMap chunk).take (dbMax - 1)) = items (ls.flatMap chunk) := by
  obtain ⟨hle, hend⟩ := chunks_end ls
  by_cases hfits : (ls.flatMap chunk).length ≤ dbMax - 1
  · rw [take_of_length_le hfits]
  · rcases hend with hlt | hnil | ⟨t, ht⟩
    · omega
    · rw [hnil] at hfits
      exact absurd (Nat.zero_le _) hfits
    · rw [ht, length_append, length_singleton] at hle hfits
      have hlen : dbMax - 1 = t.length := by omega
      rw [ht, hlen, take_left, items_concat_newline]

theorem chunk_lineOf (h : 0 ∉ l) : chunk (lineOf l) = chunk l := by
  have htake : lineOf l = l.take (lineMax - 1) :=
    cstr_of_notMem fun hmem => h (mem_of_mem_take hmem)
  rw [htake]
  by_cases hlong : 30 < l.length
  · have hlong' : 30 < (l.take (lineMax - 1)).length := by
      rw [length_take, lineMax]
      omega
    rw [chunk_of_lt hlong, chunk_of_lt hlong', take_take]
    rfl
  · rw [take_of_length_le (by rw [lineMax]; omega)]

theorem written_nulFree (ls : List (List UInt8)) (n : ℕ) :
    0 ∉ ((ls.map lineOf).flatMap chunk).take n := by
  intro hmem
  obtain ⟨k, hk, hin⟩ := mem_flatMap.1 (mem_of_mem_take hmem)
  obtain ⟨l, -, rfl⟩ := mem_map.1 hk
  exact chunk_nulFree (notMem_cstr _) hin

theorem items_written_iff (hls : ∀ l ∈ ls, IsItem l)
    (hsum : (ls.map fun l => l.length + 1).sum ≤ dbMax) :
    items (((ls.map lineOf).flatMap chunk).take (dbMax - 1)) = ls ↔ Short ls := by
  by_cases hnul : ∀ l ∈ ls, 0 ∉ l
  · have hsame : (ls.map lineOf).flatMap chunk = ls.flatMap chunk := by
      rw [flatMap_map]
      exact flatMap_congr fun l hl => chunk_lineOf (hnul l hl)
    rw [hsame, items_take hsum, items_chunks_iff hls, Short, and_iff_right hnul]
  · constructor
    · intro heq
      exfalso
      apply hnul
      intro l hl hmem
      rw [← heq] at hl
      exact written_nulFree ls _ (Lines.mem_of_mem_splitOn (mem_of_mem_filter hl) hmem)
    · intro hshort
      exact absurd hshort.1 hnul

theorem todoReadAll_eq_some {db : List UInt8} (h : todoReadAll a file = some db) :
    file = some db ∧ db.length < dbMax := by
  rw [todoReadAll.eq_def] at h
  split at h
  · cases h
  · cases file with
    | none => cases h
    | some text =>
      dsimp only at h
      split at h
      · cases h
      · split at h
        case isTrue hnil =>
          cases h
          rw [hnil]
          exact ⟨rfl, by decide⟩
        case isFalse =>
          split at h
          · cases h
            exact ⟨rfl, by omega⟩
          · cases h

theorem removeLaw_of_fails (h : todoRemoveItem a file arg = (false, file)) :
    RemoveLaw a file arg := by
  rw [RemoveLaw, h]
  constructor
  · intro hfalse
    cases hfalse
  · intro _
    rfl

/-- For every file and every number, the other items are kept exactly if they are short. -/
theorem removeLaw_iff (a : Answers) (file : Option (List UInt8)) (arg : List UInt8) :
    RemoveLaw a file arg ↔ RemoveFits a file arg := by
  have hkept (text : List UInt8) (n : ℕ) (hlen : text.length < dbMax) :
      (∀ l ∈ (items text).eraseIdx n, IsItem l) ∧
        (((items text).eraseIdx n).map fun l => l.length + 1).sum ≤ dbMax := by
    have hsub : ((items text).eraseIdx n).Sublist (text.splitOn 10) :=
      (eraseIdx_sublist _ _).trans filter_sublist
    have hsum := (hsub.map fun l => l.length + 1).sum_le_sum fun _ _ => Nat.zero_le _
    rw [Lines.sum_length_splitOn] at hsum
    exact ⟨fun l hl => isItem_of_mem (mem_of_mem_eraseIdx hl), by omega⟩
  have hrun (target : ℕ) (text : List UInt8) (harg : parseU64Dec arg = some target)
      (hpos : 0 < target) (hread : todoReadAll a file = some text) :
      todoRemoveItem a file arg = todoWriteAll a file
        ((((items text).eraseIdx (target - 1)).map lineOf).flatMap chunk |>.take (dbMax - 1)) := by
    rw [todoRemoveItem, harg]
    dsimp only
    rw [if_neg (Nat.ne_of_gt hpos), hread]
    dsimp only
    rw [removeLoop_eq _ 0 [] hpos (Nat.zero_le _)]
    rfl
  constructor
  · intro hlaw target text harg hpos hread hwrite
    obtain ⟨hfile, hlen⟩ := todoReadAll_eq_some hread
    obtain ⟨hitems, hsum⟩ := hkept text (target - 1) hlen
    have hdone := hrun target text harg hpos hread
    rw [todoWriteAll, if_pos hwrite] at hdone
    obtain ⟨text₀, text', target₀, hfile₀, hnew, harg₀, -, heq⟩ :=
      hlaw.1 (congrArg Prod.fst hdone)
    rw [hfile] at hfile₀
    rw [harg] at harg₀
    rw [hdone] at hnew
    cases hfile₀
    cases harg₀
    cases hnew
    rw [cstr_of_notMem (written_nulFree _ _)] at heq
    exact (items_written_iff hitems hsum).1 heq
  · intro hfits
    cases harg : parseU64Dec arg with
    | none =>
      apply removeLaw_of_fails
      rw [todoRemoveItem, harg]
    | some target =>
      by_cases hzero : target = 0
      · apply removeLaw_of_fails
        rw [todoRemoveItem, harg]
        exact if_pos hzero
      · have hpos := Nat.pos_of_ne_zero hzero
        cases hread : todoReadAll a file with
        | none =>
          apply removeLaw_of_fails
          rw [todoRemoveItem, harg]
          dsimp only
          rw [if_neg hzero, hread]
        | some text =>
          obtain ⟨hfile, hlen⟩ := todoReadAll_eq_some hread
          obtain ⟨hitems, hsum⟩ := hkept text (target - 1) hlen
          have hdone := hrun target text harg hpos hread
          rw [todoWriteAll] at hdone
          by_cases hwrite : a.write = true
          · rw [if_pos hwrite] at hdone
            rw [RemoveLaw, hdone]
            constructor
            · intro _
              refine ⟨text, _, target, hfile, rfl, harg, hpos, ?_⟩
              rw [cstr_of_notMem (written_nulFree _ _)]
              exact (items_written_iff hitems hsum).2
                (hfits target text harg hpos hread hwrite)
            · intro hfalse
              cases hfalse
          · rw [if_neg hwrite] at hdone
            exact removeLaw_of_fails hdone

/-- Two items of 36 bytes, and the second one is removed: the first one is cut. -/
theorem not_removeLaw : ¬ RemoveLaw ⟨true, true, true, true⟩
    (some (List.replicate 36 97 ++ [10] ++ List.replicate 36 98 ++ [10])) (lit "2") := by
  have hdone : todoRemoveItem ⟨true, true, true, true⟩
      (some (List.replicate 36 97 ++ [10] ++ List.replicate 36 98 ++ [10])) (lit "2") =
        (true, some (List.replicate 31 97)) := by
    decide +kernel
  intro hlaw
  obtain ⟨text, text', target, hfile, hnew, harg, -, heq⟩ := hlaw.1 (congrArg Prod.fst hdone)
  have htarget : parseU64Dec (lit "2") = some 2 := by decide
  rw [htarget] at harg
  rw [hdone] at hnew
  cases hfile
  cases harg
  cases hnew
  revert heq
  decide +kernel

end Cleonos.Todo
