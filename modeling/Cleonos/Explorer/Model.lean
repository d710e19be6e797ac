import Mathlib.Data.Prod.Lex
import Cleonos.Kernel.Paths
import Cleonos.Lib.Buffer
import Cleonos.Lib.Text
import Cleonos.Lib.Insertion

/-!
# The file explorer

The listing of a folder in `file_explorer_main.c`.
-/

namespace Cleonos.Explorer

open List
open Function (update update_of_ne update_self)

section

open Buffer (slice)
open Kernel (kernelPath pathMax statType)
open LexicalPath (slash Plain)

/-- `CLEONOS_FS_NAME_MAX` and `FX_NAME_MAX`. -/
def nameMax : ℕ := 96

/-- `FX_ENTRY_MAX`. -/
def entryMax : ℕ := 96

/-- `FX_PREVIEW_MAX`. -/
def previewMax : ℕ := 768

/-! ## The kernel -/

/-- The files, their sizes, and the children of each folder in the order of the kernel; a name fits
the buffer for it. -/
structure Volume where
  tree : FileTree (List UInt8)
  size : List (List UInt8) → UInt64
  children : List (List UInt8) → List (List UInt8)
  mem_children : ∀ k c, c ∈ children k ↔ tree.node (k ++ [c]) ≠ none
  name_ok : ∀ k, ∀ c ∈ children k, Plain c ∧ (0 : UInt8) ∉ c ∧ c.length < nameMax

/-- `cleonos_sys_fs_child_count`. -/
def Volume.childCount (v : Volume) (path : List UInt8) : ℕ :=
  match kernelPath path with
  | none => 0
  | some key => (v.children key).length

/-- `cleonos_sys_fs_get_child_name`; `none` for a failure. -/
def Volume.childName (v : Volume) (path : List UInt8) (i : ℕ) : Option (List UInt8) :=
  (kernelPath path).bind fun key => (v.children key)[i]?

/-- `cleonos_sys_fs_stat_size`. -/
def Volume.statSize (v : Volume) (path : List UInt8) : UInt64 :=
  match kernelPath path with
  | none => 0 - 1
  | some key => v.size key

structure FxEntry where
  name : List UInt8
  path : ℕ → UInt8
  type : UInt64
  size : UInt64

/-- The path, as a reader finds it. -/
def FxEntry.text (e : FxEntry) : List UInt8 := cstr (slice e.path 0 pathMax)

/-- `fx_app`, as far as it is about files. -/
structure FxApp where
  cwd : List UInt8
  entries : ℕ → FxEntry
  entryCount : ℕ
  selected : ℤ
  scroll : ℤ
  previewOpen : Bool
  preview : List UInt8
  status : List UInt8

/-- A pointer to a path: to a text of its own, or to the buffer of an entry. -/
inductive PathRef
  | text (s : List UInt8)
  | entry (k : ℕ)

/-- `path[i]`. -/
def FxApp.charAt (app : FxApp) : PathRef → ℕ → UInt8
  | .text s, i => s.getD i 0
  | .entry k, i => (app.entries k).path i

/-- The path that a pointer leads to. -/
def FxApp.str (app : FxApp) : PathRef → List UInt8
  | .text s => cstr s
  | .entry k => (app.entries k).text

/-- The window with another entry. -/
def FxApp.setEntry (app : FxApp) (k : ℕ) (e : FxEntry) : FxApp :=
  { app with entries := update app.entries k e }

/-- `entries[k].path[p] = c`. -/
def FxApp.setChar (app : FxApp) (k p : ℕ) (c : UInt8) : FxApp :=
  app.setEntry k { app.entries k with path := update (app.entries k).path p c }

/-- `entries[k].name`. -/
def FxApp.setName (app : FxApp) (k : ℕ) (name : List UInt8) : FxApp :=
  app.setEntry k { app.entries k with name := name }

def fxCopy (size : ℕ) (src : List UInt8) : List UInt8 := (cstr src).take (size - 1)

/-- The loop of `fx_join_path` that copies `dir` to entry `out`, from index `p` on; `dir` is read
while it is copied.  The index behind it, or `none` if there is no room. -/
def fxJoinDir (dir : PathRef) (out : ℕ) : ℕ → ℕ → FxApp → Option ℕ × FxApp
  | 0, _, app => (none, app)
  | fuel + 1, p, app =>
    if app.charAt dir p = 0 then (some p, app)
    else if p + 1 ≥ pathMax then (none, app)
    else fxJoinDir dir out fuel (p + 1) (app.setChar out p (app.charAt dir p))

/-- The loop of `fx_join_path` that copies `name` behind it, with the zero at the end. -/
def fxJoinName (out : ℕ) : ℕ → List UInt8 → FxApp → Bool × FxApp
  | p, [], app => (true, app.setChar out p 0)
  | p, c :: name, app =>
    if p + 1 ≥ pathMax then (false, app) else fxJoinName out (p + 1) name (app.setChar out p c)

/-- `fx_join_path`, to the buffer of entry `out`. -/
def fxJoinPath (dir : PathRef) (name : List UInt8) (out : ℕ) (app : FxApp) : Bool × FxApp :=
  if app.charAt dir 0 = slash ∧ app.charAt dir 1 = 0 then
    fxJoinName out 1 name (app.setChar out 0 slash)
  else
    match fxJoinDir dir out pathMax 0 app with
    | (none, app) => (false, app)
    | (some p, app) =>
      if p > 0 ∧ (app.entries out).path (p - 1) ≠ slash then
        if p + 1 ≥ pathMax then (false, app)
        else fxJoinName out (p + 1) name (app.setChar out p slash)
      else fxJoinName out p name app

/-- A loop of `fx_parent_path`: bytes are taken off the end, but never the first one. -/
def fxTrim (p : UInt8 → Bool) : List UInt8 → List UInt8
  | [] => []
  | c :: rest => c :: rest.rdropWhile p

def fxParentPath (path : List UInt8) : List UInt8 :=
  let out := fxCopy pathMax path
  if out.length ≤ 1 then [slash]
  else
    let out := fxTrim (· = slash) out
    let out := fxTrim (· ≠ slash) out
    let out := if out.length > 1 ∧ out.getLast? = some slash then out.dropLast else out
    if out = [] then [slash] else out

def fxUpperChar (ch : UInt8) : UInt8 := if 97 ≤ ch ∧ ch ≤ 122 then ch - 32 else ch

/-- The value of a `char`. -/
def charValue (ch : UInt8) : ℤ := if ch < 128 then ch.toNat else ch.toNat - 256

def fxNameCompare : List UInt8 → List UInt8 → ℤ
  | [], [] => 0
  | [], _ :: _ => -1
  | _ :: _, [] => 1
  | a :: as, b :: bs =>
    if charValue (fxUpperChar a) < charValue (fxUpperChar b) then -1
    else if charValue (fxUpperChar a) > charValue (fxUpperChar b) then 1
    else fxNameCompare as bs

/-- `move` of `fx_sort_entries`. -/
def fxMoves (prev key : FxEntry) : Bool :=
  (prev.type ≠ 2 ∧ key.type = 2) ∨ (prev.type = key.type ∧ fxNameCompare prev.name key.name > 0)

/-- The inner loop of `fx_sort_entries`, at `j`. -/
def fxInsert (key : FxEntry) : ℕ → (ℕ → FxEntry) → ℕ → FxEntry
  | 0, entries => update entries 0 key
  | j + 1, entries =>
    if fxMoves (entries j) key then fxInsert key j (update entries (j + 1) (entries j))
    else update entries (j + 1) key

def fxSortEntries (app : FxApp) : FxApp :=
  { app with
    entries := (List.range' 1 (app.entryCount - 1)).foldl
      (fun entries i => fxInsert (entries i) i entries) app.entries }

variable (v : Volume)

/-- A round of the loop of `fx_load_dir`. -/
def fxLoadChild (path : PathRef) (app : FxApp) (i : ℕ) : FxApp :=
  let entry := app.entryCount
  let app := app.setName entry []
  match v.childName (app.str path) i with
  | none => app
  | some name =>
    let app := app.setName entry name
    if name = [] then app
    else
      let joined := fxJoinPath path name entry app
      if joined.1 = false then joined.2
      else
        let e := joined.2.entries entry
        let type := statType v.tree e.text
        let size := if type = 1 then v.statSize e.text else 0
        { joined.2.setEntry entry { e with type := type, size := size } with
          entryCount := entry + 1 }

def fxLoadDir (path : PathRef) (app : FxApp) : Bool × FxApp :=
  if statType v.tree (app.str path) ≠ 2 then (false, app)
  else
    let app := { app with
      cwd := fxCopy pathMax (app.str path)
      entryCount := 0
      selected := 0
      scroll := 0
      previewOpen := false
      preview := [] }
    let count := v.childCount (app.str path)
    let count := if count > entryMax then entryMax else count
    let app := (List.range count).foldl (fxLoadChild v path) app
    let app := fxSortEntries app
    (true,
      if app.entryCount = 0 then { app with selected := -1, status := lit "Folder is empty" }
      else { app with status := lit "Ready" })

def fxSanitizePreview (buffer : List UInt8) : List UInt8 :=
  ((buffer.filter (· ≠ 13)).map fun ch =>
    if ch = 9 then 32 else if ch = 10 ∨ (32 ≤ ch ∧ ch ≤ 126) then ch else 46).take (previewMax - 1)

def fxHasSuffixIcase (text suffix : List UInt8) : Bool :=
  if text.length < suffix.length then false
  else (text.drop (text.length - suffix.length)).map fxUpperChar = suffix.map fxUpperChar

/-- The starting of programs, and the reading of files; `none` for an error. -/
structure System where
  spawn : List UInt8 → Option UInt64
  read : List UInt8 → Option (List UInt8)

/-- A text behind another, in the buffer of the status. -/
def statusText (text name : List UInt8) : List UInt8 := (text ++ name).take 159

def fxOpenSelected (sys : System) (app : FxApp) : FxApp :=
  if app.selected < 0 ∨ app.selected ≥ app.entryCount then app
  else
    let k := app.selected.toNat
    let entry := app.entries k
    if entry.type = 2 then
      let loaded := fxLoadDir v (.entry k) app
      if loaded.1 = false then { loaded.2 with status := lit "Open folder failed" } else loaded.2
    else if entry.type ≠ 1 then { app with status := lit "Unknown entry type" }
    else if fxHasSuffixIcase entry.name (lit ".elf") then
      match sys.spawn entry.text with
      | none => { app with previewOpen := false, status := lit "Launch failed" }
      | some pid =>
        if pid = 0 then { app with previewOpen := false, status := lit "Launch failed" }
        else
          { app with previewOpen := false, status := statusText (lit "Launched ") entry.name }
    else
      match sys.read entry.text with
      | none => { app with previewOpen := false, status := lit "Read failed" }
      | some got =>
        { app with
          preview := fxSanitizePreview (got.take (previewMax - 1))
          previewOpen := true
          status := statusText (lit "Preview ") entry.name }

/-- A folder that is named by a text of its own; the status if there is none. -/
def fxGoTo (path failed : List UInt8) (app : FxApp) : FxApp :=
  let loaded := fxLoadDir v (.text path) app
  if loaded.1 = false then { loaded.2 with status := failed } else loaded.2

def fxGoParent (app : FxApp) : FxApp :=
  fxGoTo v (fxParentPath app.cwd) (lit "Parent folder unavailable") app

def fxRefresh (app : FxApp) : FxApp :=
  fxGoTo v (fxCopy pathMax app.cwd) (lit "Refresh failed") app

def fxNavigatePath (path : List UInt8) (app : FxApp) : FxApp :=
  fxGoTo v path (lit "Folder unavailable") app

end

open Buffer (slice)
open Insertion

/-- An entry, as a reader finds it. -/
structure Row where
  name : List UInt8
  path : List UInt8
  type : UInt64
  size : UInt64
deriving DecidableEq, Repr

def FxEntry.row (e : FxEntry) : Row := ⟨e.name, e.text, e.type, e.size⟩

/-- The entries of the table. -/
def listed (app : FxApp) : List Row := (slice app.entries 0 app.entryCount).map FxEntry.row

/-- Folders come first, and in each group the names are in order. -/
def Row.Before (a b : Row) : Prop :=
  (b.type = 2 → a.type = 2) ∧ (a.type = b.type → fxNameCompare a.name b.name ≤ 0)

/-- The type of a folder or a file. -/
def Row.Known (r : Row) : Prop := r.type = 2 ∨ r.type = 1

variable {key x e : FxEntry} {t : ℕ → FxEntry} {app : FxApp} {a b : List UInt8} {i j n : ℕ}

/-- What is compared of a name. -/
def nameKey (name : List UInt8) : List ℤ := name.map fun c => charValue (fxUpperChar c)

theorem fxNameCompare_pos_iff : fxNameCompare a b > 0 ↔ nameKey b < nameKey a := by
  induction a generalizing b with
  | nil => cases b <;> simp [fxNameCompare, nameKey]
  | cons c a ih =>
    cases b with
    | nil => simp [fxNameCompare, nameKey]
    | cons d b =>
      rw [fxNameCompare, nameKey, nameKey, map_cons, map_cons, cons_lt_cons_iff]
      by_cases hlt : charValue (fxUpperChar c) < charValue (fxUpperChar d)
      · rw [if_pos hlt]
        refine iff_of_false (by decide) ?_
        rintro (hgt | ⟨heq, -⟩) <;> omega
      rw [if_neg hlt]
      by_cases hgt : charValue (fxUpperChar c) > charValue (fxUpperChar d)
      · rw [if_pos hgt]
        exact iff_of_true (by decide) (Or.inl hgt)
      · rw [if_neg hgt, ih]
        have heq : charValue (fxUpperChar d) = charValue (fxUpperChar c) := by omega
        simp [heq, nameKey]

/-- Whether an entry is moved behind `key`. -/
def movedBy (key prev : FxEntry) : Bool := fxMoves prev key

theorem fxInsert_of_gt (h : j < i) : fxInsert key j t i = t i := by
  induction j generalizing t with
  | zero => exact update_of_ne (by omega) _ _
  | succ j ih =>
    rw [fxInsert]
    split
    · rw [ih (by omega), update_of_ne (by omega)]
    · exact update_of_ne (by omega) _ _

theorem slice_fxInsert : slice (fxInsert key j t) 0 (j + 1) =
    placeBy (movedBy key) key (slice t 0 j) := by
  induction j generalizing t with
  | zero => rw [fxInsert, Buffer.slice_update_succ, Buffer.slice_zero]; rfl
  | succ j ih =>
    rw [fxInsert, Buffer.slice_succ t, Nat.zero_add]
    by_cases hmove : fxMoves (t j) key = true
    · rw [if_pos hmove, placeBy_concat_pos (p := movedBy key) hmove, Buffer.slice_succ, ih, Nat.zero_add,
        fxInsert_of_gt (Nat.lt_succ_self j), update_self,
        Buffer.slice_update_of_le (by omega)]
    · have hstay : movedBy key (t j) = false := Bool.not_eq_true _ ▸ hmove
      rw [if_neg hmove, placeBy_concat_neg hstay, Buffer.slice_update_succ, Buffer.slice_succ,
        Nat.zero_add, append_assoc]
      rfl

/-- The entries placed one by one. -/
def placeAll (entries : List FxEntry) : List FxEntry :=
  entries.foldl (fun u key => placeBy (movedBy key) key u) []

theorem placeAll_concat {entries : List FxEntry} :
    placeAll (entries ++ [x]) = placeBy (movedBy x) x (placeAll entries) := by
  rw [placeAll, foldl_append]
  rfl

theorem slice_sort (n : ℕ) :
    slice ((List.range' 1 n).foldl (fun entries i => fxInsert (entries i) i entries) t) 0 (n + 1) =
        placeAll (slice t 0 (n + 1)) ∧
      ∀ i, n < i →
        (List.range' 1 n).foldl (fun entries i => fxInsert (entries i) i entries) t i = t i := by
  induction n with
  | zero => exact ⟨rfl, fun _ _ => rfl⟩
  | succ n ih =>
    obtain ⟨hslice, hbehind⟩ := ih
    rw [range'_1_concat, foldl_append]
    simp only [foldl_cons, foldl_nil, Nat.add_comm 1 n]
    constructor
    · rw [slice_fxInsert, hslice, hbehind _ (Nat.lt_succ_self n), Buffer.slice_succ t 0 (n + 1),
        placeAll_concat, Nat.zero_add]
    · intro i hi
      rw [fxInsert_of_gt (by omega), hbehind i (by omega)]

theorem listed_sort : listed (fxSortEntries app) =
    (placeAll (slice app.entries 0 app.entryCount)).map FxEntry.row := by
  rw [listed, fxSortEntries]
  cases hcount : app.entryCount with
  | zero => rfl
  | succ n => exact congrArg (List.map FxEntry.row) (slice_sort n).1

theorem placeAll_perm (entries : List FxEntry) : (placeAll entries).Perm entries := by
  induction entries using List.reverseRecOn with
  | nil => exact List.Perm.refl _
  | append_singleton entries x ih =>
    rw [placeAll_concat]
    exact (placeBy_perm x _).trans ((ih.cons x).trans (perm_append_singleton x entries).symm)

theorem listed_sort_perm : (listed (fxSortEntries app)).Perm (listed app) := by
  rw [listed_sort]
  exact (placeAll_perm _).map FxEntry.row

/-- What entries are ordered by. -/
def rank (e : FxEntry) : ℕ ×ₗ List ℤ := toLex (if e.type = 2 then 0 else 1, nameKey e.name)

theorem movedBy_eq (hkey : key.row.Known) (hx : x.row.Known) :
    movedBy key x = decide (rank key < rank x) := by
  rw [movedBy, fxMoves, decide_eq_decide, rank, rank, Prod.Lex.toLex_lt_toLex]
  rw [fxNameCompare_pos_iff]
  have hk : key.type = 2 ∨ key.type = 1 := hkey
  have hp : x.type = 2 ∨ x.type = 1 := hx
  rcases hk with hk | hk <;> rcases hp with hp | hp <;> simp [hk, hp]

theorem placeAll_sorted {entries : List FxEntry} (h : ∀ e ∈ entries, e.row.Known) :
    Sorted rank (placeAll entries) := by
  induction entries using List.reverseRecOn with
  | nil => exact List.Pairwise.nil
  | append_singleton entries x ih =>
    have hx := h x (by simp)
    have hrest : ∀ e ∈ entries, e.row.Known := fun e he => h e (by simp [he])
    have hplace : placeBy (movedBy x) x (placeAll entries) = place rank x (placeAll entries) := by
      have hmoved : ∀ y ∈ placeAll entries, movedBy x y = decide (rank x < rank y) :=
        fun y hy => movedBy_eq hx (hrest y ((placeAll_perm entries).subset hy))
      generalize placeAll entries = u at hmoved
      induction u using List.reverseRecOn with
      | nil => rfl
      | append_singleton u y ihu =>
        have hy := hmoved y (by simp)
        by_cases hlt : rank x < rank y
        · rw [placeBy_concat_pos (by rw [hy, decide_eq_true hlt]), place_concat_of_lt hlt,
            ihu fun z hz => hmoved z (by simp [hz])]
        · rw [placeBy_concat_neg (by rw [hy, decide_eq_false hlt]), place_concat_of_not_lt hlt]
    rw [placeAll_concat, hplace]
    exact place_sorted x (ih hrest)

theorem listed_sort_ordered (h : ∀ r ∈ listed app, r.Known) :
    (listed (fxSortEntries app)).Pairwise Row.Before := by
  have hknown : ∀ e ∈ slice app.entries 0 app.entryCount, e.row.Known :=
    fun e he => h _ (mem_map_of_mem he)
  rw [listed_sort, pairwise_map]
  refine (placeAll_sorted hknown).imp ?_
  intro x y hle
  rw [rank, rank, Prod.Lex.toLex_le_toLex] at hle
  rw [Row.Before, ← not_lt, ← gt_iff_lt, fxNameCompare_pos_iff, not_lt]
  dsimp only [FxEntry.row] at hle ⊢
  constructor
  · intro hy
    by_contra hx
    simp [hx, hy] at hle
  · intro heq
    rw [heq] at hle
    simpa using hle

end Cleonos.Explorer
