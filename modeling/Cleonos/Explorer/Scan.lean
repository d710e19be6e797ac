import Mathlib.Data.Nat.Find
import Cleonos.Explorer.Joined

/-!
# The loop of a listing

The loop that fills the table, without the table: it goes on with a path and the rows so far.
-/

namespace Cleonos.Explorer

open List Option
open Buffer (slice)
open Kernel (kernelPath pathMax statType)
open LexicalPath (slash dot components Plain)

/-- The type of what is at a place. -/
def Volume.typeAt (v : Volume) (key : List (List UInt8)) : UInt64 :=
  if v.tree.node key = some .dir then 2 else 1

/-- The size of what is at a place; that of a folder is 0. -/
def Volume.sizeAt (v : Volume) (key : List (List UInt8)) : UInt64 :=
  if v.tree.node key = some .dir then 0 else v.size key

/-- The rows of children of a folder: each with its path, its type and its size, if the path fits
the buffer. -/
def Volume.rows (v : Volume) (folder : List UInt8) (key names : List (List UInt8)) : List Row :=
  names.filterMap fun c =>
    if (childPath folder c).length < pathMax then
      some ⟨c, childPath folder c, v.typeAt (key ++ [c]), v.sizeAt (key ++ [c])⟩
    else none

/-- A row, as the kernel tells it. -/
def Volume.rowAt (v : Volume) (path name : List UInt8) : Row :=
  ⟨name, path, statType v.tree path, if statType v.tree path = 1 then v.statSize path else 0⟩

/-- A round of the loop. The path is read from an entry of the table, or from nowhere in it. -/
def scan (v : Volume) (slot : Option ℕ) (st : List UInt8 × List Row) (i : ℕ) :
    List UInt8 × List Row :=
  match v.childName st.1 i with
  | none => st
  | some name =>
    (if slot = some st.2.length then (childPath st.1 name).take (pathMax - 1) else st.1,
      if (childPath st.1 name).length < pathMax then
        st.2 ++ [v.rowAt (childPath st.1 name) name]
      else st.2)

/-- The entry that a path is read from. -/
def PathRef.slot : PathRef → Option ℕ
  | .text _ => none
  | .entry k => some k

variable {v : Volume} {app : FxApp} {dir : PathRef} {st : List UInt8 × List Row} {i j k : ℕ}
  {cwd folder name c : List UInt8} {key names : List (List UInt8)} {slot : Option ℕ} {e : FxEntry}
  {R : List Row}

/-! ## The table -/

/-- The table shows the rows so far. -/
structure Shows (app : FxApp) (dir : PathRef) (cwd : List UInt8) (st : List UInt8 × List Row) :
    Prop where
  points : Points app dir st.1
  ne_nil : st.1 ≠ []
  rows : listed app = st.2
  ends : ∀ k, (app.entries k).path 191 = 0
  cwd : app.cwd = cwd

theorem listed_length (app : FxApp) : (listed app).length = app.entryCount := by
  rw [listed, length_map, Buffer.length_slice]

theorem listed_setEntry : listed (app.setEntry app.entryCount e) = listed app := by
  rw [listed, listed]
  exact congrArg (List.map FxEntry.row)
    (Buffer.slice_update_of_le (Nat.le_of_eq (Nat.zero_add _)) e)

theorem listed_push : listed { app.setEntry app.entryCount e with entryCount := app.entryCount + 1 } =
    listed app ++ [e.row] := by
  rw [listed, listed]
  exact (congrArg (List.map FxEntry.row) (Buffer.slice_update_succ app.entries _ e)).trans
    map_append

theorem str_setEntry : (app.setEntry k e).str dir =
    if dir.slot = some k then e.text else app.str dir := by
  cases dir with
  | text s => rfl
  | entry j =>
    by_cases hj : j = k
    · subst hj
      simp [FxApp.str, FxApp.setEntry, PathRef.slot]
    · simp [FxApp.str, FxApp.setEntry, PathRef.slot, hj]

theorem childName_mem (h : v.childName folder i = some name) :
    Plain name ∧ (0 : UInt8) ∉ name := by
  obtain ⟨key, -, hname⟩ := bind_eq_some_iff.1 h
  obtain ⟨hplain, hnul, -⟩ := v.name_ok key name (mem_of_getElem? hname)
  exact ⟨hplain, hnul⟩

theorem Shows.setName (h : Shows app dir cwd st) (name : List UInt8) :
    Shows (app.setName app.entryCount name) dir cwd st := by
  refine ⟨⟨?_, h.points.short⟩, h.ne_nil, ?_, ?_, h.cwd⟩
  · rw [FxApp.setName, str_setEntry, ← h.points.str]
    split
    · next hslot =>
        cases dir with
        | text s => cases hslot
        | entry k =>
          cases hslot
          rfl
    · rfl
  · rw [FxApp.setName, listed_setEntry, h.rows]
  · intro k
    rw [FxApp.setName, FxApp.setEntry]
    dsimp only
    rw [Function.update_apply]
    split
    · exact h.ends app.entryCount
    · exact h.ends k

theorem childPath_ne_nil (h : folder ≠ []) : childPath folder name ≠ [] := by
  rw [childPath]
  split <;> simp [h]

theorem shows_fxLoadChild (h : Shows app dir cwd st) (i : ℕ) :
    Shows (fxLoadChild v dir app i) dir cwd (scan v dir.slot st i) := by
  have hcount : app.entryCount = st.2.length := by rw [← h.rows, listed_length]
  have hcleared := h.setName []
  rw [fxLoadChild, scan]
  rw [hcleared.points.str]
  cases hchild : v.childName st.1 i with
  | none => exact hcleared
  | some name =>
    obtain ⟨hplain, hnul⟩ := childName_mem hchild
    have hnamed := hcleared.setName name
    dsimp only
    rw [if_neg hplain.ne_nil]
    generalize hready : (app.setName app.entryCount []).setName app.entryCount name = ready
    have hready' : (app.setName app.entryCount []).setName
        (app.setName app.entryCount []).entryCount name = ready := hready
    rw [hready'] at hnamed
    have hsame : ready.entryCount = app.entryCount := by rw [← hready]; rfl
    have hname : (ready.entries app.entryCount).name = name := by
      rw [← hready]
      simp [FxApp.setName, FxApp.setEntry]
    clear hready hready'
    obtain ⟨b, hjoin, hend, htext⟩ := fxJoinPath_spec hnamed.points hnamed.ne_nil hnul
      (hnamed.ends app.entryCount)
    rw [hjoin]
    -- whatever else is in the entry, its path is that of the child, cut to the buffer
    have hstep (e : FxEntry) (he : e.path = b) :
        Points (ready.setEntry app.entryCount e) dir
            (if dir.slot = some st.2.length then (childPath st.1 name).take (pathMax - 1)
              else st.1) ∧
          (∀ k, ((ready.setEntry app.entryCount e).entries k).path 191 = 0) := by
      constructor
      · constructor
        · rw [str_setEntry, hcount, FxEntry.text, he, htext, hnamed.points.str]
        · split
          · rw [length_take, pathMax]
            omega
          · exact hnamed.points.short
      · intro k
        rw [FxApp.setEntry]
        dsimp only
        rw [Function.update_apply]
        split
        · rw [he, hend]
        · exact hnamed.ends k
    have hne : (if dir.slot = some st.2.length then (childPath st.1 name).take (pathMax - 1)
        else st.1) ≠ [] := by
      split
      · intro hnil
        rcases take_eq_nil_iff.1 hnil with hzero | hzero
        · cases hzero
        · exact childPath_ne_nil h.ne_nil hzero
      · exact h.ne_nil
    by_cases hfits : (childPath st.1 name).length < pathMax
    · have hwhole : (childPath st.1 name).take (pathMax - 1) = childPath st.1 name :=
        take_of_length_le (by omega)
      rw [hwhole] at htext
      have htext' : ((ready.setPath app.entryCount b).entries app.entryCount).text =
          childPath st.1 name := by rw [FxEntry.text, path_setPath, htext]
      rw [decide_eq_true hfits, if_neg (show ¬ true = false by simp), if_pos hfits, htext']
      generalize htype : statType v.tree (childPath st.1 name) = type
      generalize hsize : (if type = 1 then v.statSize (childPath st.1 name) else 0) = size
      have hset := hstep ⟨name, b, type, size⟩ rfl
      have hfinal : ((ready.setPath app.entryCount b).setEntry app.entryCount
          { (ready.setPath app.entryCount b).entries app.entryCount with
            type := type, size := size }) = ready.setEntry app.entryCount ⟨name, b, type, size⟩ := by
        simp [FxApp.setPath, FxApp.setEntry, hname]
      rw [hfinal]
      refine ⟨⟨?_, hset.1.short⟩, hne, ?_, hset.2, hnamed.cwd⟩
      · rw [← hset.1.str]
        cases dir <;> rfl
      · rw [← hsame, listed_push, hnamed.rows, FxEntry.row, FxEntry.text, htext, Volume.rowAt,
          htype, hsize]
    · rw [decide_eq_false hfits, if_pos rfl, if_neg hfits]
      have hset := hstep { ready.entries app.entryCount with path := b } rfl
      refine ⟨hset.1, hne, ?_, hset.2, hnamed.cwd⟩
      rw [← hsame]
      exact listed_setEntry.trans hnamed.rows

theorem components_childPath (h : folder ≠ []) (hc : Plain c) :
    components (childPath folder c) = components folder ++ [c] := by
  have hone := LexicalPath.components_of_notMem hc.ne_nil hc.no_slash
  rw [childPath]
  by_cases hslash : folder.getLast? = some slash
  · obtain ⟨front, last, rfl⟩ := (eq_nil_or_concat folder).resolve_left h
    rw [concat_eq_append, List.getLast?_concat, Option.some.injEq] at hslash
    rw [if_pos (by rw [concat_eq_append, List.getLast?_concat, hslash]),
      concat_eq_append, hslash, append_assoc, singleton_append,
      LexicalPath.components_append_slash, LexicalPath.components_append_slash, hone]
    simp
  · rw [if_neg hslash, LexicalPath.components_append_slash, hone]

section

variable (h : kernelPath folder = some key)
include h

theorem ne_nil_of_kernelPath : folder ≠ [] := by
  intro hnil
  rw [hnil] at h
  cases h

theorem kernelPath_childPath (hc : Plain c)
    (hlen : (childPath folder c).length < pathMax) :
    kernelPath (childPath folder c) = some (key ++ [c]) := by
  have hne := ne_nil_of_kernelPath h
  rw [kernelPath] at h
  by_cases hok : folder.head? = some slash ∧ folder.length < pathMax ∧
      [dot, dot] ∉ components folder
  · rw [if_pos hok] at h
    cases h
    obtain ⟨hhead, -, hdots⟩ := hok
    have hcomp := components_childPath hne hc
    have hstart : (childPath folder c).head? = some slash := by
      rw [childPath]
      split <;> rw [List.head?_append, hhead] <;> rfl
    have hnodots : [dot, dot] ∉ components (childPath folder c) := by
      rw [hcomp, mem_append, mem_singleton, not_or]
      exact ⟨hdots, hc.ne_dotdot.symm⟩
    rw [kernelPath, if_pos ⟨hstart, hlen, hnodots⟩, hcomp, filter_append,
      filter_cons_of_pos (by simpa using hc.ne_dot), filter_nil]
  · rw [if_neg hok] at h
    cases h

theorem rowAt_childPath (hc : c ∈ v.children key)
    (hlen : (childPath folder c).length < pathMax) :
    v.rowAt (childPath folder c) c =
      ⟨c, childPath folder c, v.typeAt (key ++ [c]), v.sizeAt (key ++ [c])⟩ := by
  have hkey := kernelPath_childPath h (v.name_ok key c hc).1 hlen
  have hthere := (v.mem_children key c).1 hc
  have htype : statType v.tree (childPath folder c) = v.typeAt (key ++ [c]) := by
    rw [statType, hkey, bind_some, Volume.typeAt]
    cases hnode : v.tree.node (key ++ [c]) with
    | none => exact absurd hnode hthere
    | some node => cases node <;> rfl
  have hsize : v.statSize (childPath folder c) = v.size (key ++ [c]) := by
    rw [Volume.statSize, hkey]
  rw [Volume.rowAt, htype, hsize, Volume.typeAt, Volume.sizeAt]
  by_cases hdir : v.tree.node (key ++ [c]) = some .dir
  · rw [if_pos hdir, if_pos hdir, if_neg (by decide)]
  · rw [if_neg hdir, if_neg hdir, if_pos rfl]

end

theorem rows_append (names names' : List (List UInt8)) : v.rows folder key (names ++ names') =
    v.rows folder key names ++ v.rows folder key names' := filterMap_append

theorem rows_singleton : v.rows folder key [c] =
    if (childPath folder c).length < pathMax then
      [⟨c, childPath folder c, v.typeAt (key ++ [c]), v.sizeAt (key ++ [c])⟩]
    else [] := by
  rw [Volume.rows, filterMap_cons]
  split <;> simp_all

theorem scan_child (h : kernelPath folder = some key) (hc : (v.children key)[i]? = some c) :
    scan v slot (folder, R) i =
      (if slot = some R.length then (childPath folder c).take (pathMax - 1) else folder,
        R ++ v.rows folder key [c]) := by
  have hchild : v.childName folder i = some c := by rw [Volume.childName, h, bind_some, hc]
  rw [scan, hchild]
  dsimp only
  rw [rows_singleton]
  by_cases hlen : (childPath folder c).length < pathMax
  · rw [if_pos hlen, if_pos hlen, rowAt_childPath h (mem_of_getElem? hc) hlen]
  · rw [if_neg hlen, if_neg hlen, append_nil]

theorem scan_free (h : kernelPath folder = some key) {a m : ℕ}
    (hslot : ∀ j < m, slot ≠ some (R ++ v.rows folder key (((v.children key).drop a).take j)).length) :
    (List.range' a m).foldl (scan v slot) (folder, R) =
      (folder, R ++ v.rows folder key (((v.children key).drop a).take m)) := by
  induction m with
  | zero => simp [Volume.rows]
  | succ m ih =>
    rw [range'_concat, foldl_append, ih fun j hj => hslot j (by omega)]
    simp only [foldl_cons, foldl_nil, Nat.one_mul]
    rw [take_add_one, List.getElem?_drop]
    cases hc : (v.children key)[a + m]? with
    | none =>
      have hnone : v.childName folder (a + m) = none := by
        rw [Volume.childName, h, bind_some, hc]
      rw [scan, hnone, toList_none, append_nil]
    | some c =>
      rw [scan_child h hc, if_neg (hslot m (Nat.lt_succ_self m)), toList_some,
        rows_append, append_assoc]

theorem length_childPath : folder.length + name.length ≤ (childPath folder name).length := by
  rw [childPath]
  split <;> simp only [length_append, length_cons] <;> omega

theorem scan_full (hfull : folder.length = pathMax - 1) (is : List ℕ) :
    is.foldl (scan v slot) (folder, R) = (folder, R) := by
  induction is with
  | nil => rfl
  | cons i is ih =>
    rw [foldl_cons]
    have hround : scan v slot (folder, R) i = (folder, R) := by
      rw [scan]
      cases hchild : v.childName folder i with
      | none => rfl
      | some name =>
        have hpos := length_pos_of_ne_nil (childName_mem hchild).1.ne_nil
        have hlen := @length_childPath folder name
        have htake : (childPath folder name).take (pathMax - 1) = folder := by
          rw [childPath]
          split <;> exact take_left' hfull
        dsimp only
        rw [htake, ite_self, if_neg (by rw [pathMax] at hfull ⊢; omega)]
    rw [hround, ih]

/-- When the entry is filled that holds the path of the folder, nothing is to come: no child of the
folder that fits is left, and the child that fills the entry has none itself in a later place. -/
def Undisturbed (v : Volume) (folder : List UInt8) (key : List (List UInt8)) (k : ℕ) : Prop :=
  ∀ i c, ((v.children key).take entryMax)[i]? = some c →
    (v.rows folder key ((v.children key).take i)).length = k →
      v.rows folder key (((v.children key).take entryMax).drop (i + 1)) = [] ∧
        v.rows (childPath folder c) (key ++ [c])
          (((v.children (key ++ [c])).take ((v.children key).take entryMax).length).drop (i + 1)) = []

theorem mem_rows {r : Row} (h : r ∈ v.rows folder key names) :
    r.name ∈ names ∧ r.path = childPath folder r.name ∧ (childPath folder r.name).length < pathMax := by
  obtain ⟨c, hc, hr⟩ := mem_filterMap.1 h
  split at hr
  · next hlen =>
      cases hr
      exact ⟨hc, rfl, hlen⟩
  · cases hr

theorem rows_of_long (h : pathMax ≤ folder.length) : v.rows folder key names = [] := by
  rw [eq_nil_iff_forall_not_mem]
  intro r hr
  have hlen := (mem_rows hr).2.2
  have hle := @length_childPath folder r.name
  omega

theorem childPath_ne {c' c'' : List UInt8} (hc : Plain c) (hc'' : slash ∉ c'') :
    childPath (childPath folder c) c' ≠ childPath folder c'' := by
  intro heq
  have hlast : (childPath folder c).getLast? ≠ some slash := by
    intro hslash
    rw [childPath] at hslash
    have hmem : slash ∈ c := by
      obtain ⟨front, last, rfl⟩ := (eq_nil_or_concat c).resolve_left hc.ne_nil
      split at hslash <;>
        simp only [concat_eq_append, List.getLast?_append, List.getLast?_cons] at hslash <;>
        simp_all
    exact hc.no_slash hmem
  rw [childPath, if_neg hlast, childPath, childPath] at heq
  by_cases hslash : folder.getLast? = some slash
  · rw [if_pos hslash, if_pos hslash, append_assoc] at heq
    exact hc'' ((append_cancel_left heq) ▸ by simp)
  · rw [if_neg hslash, if_neg hslash, append_assoc] at heq
    have hcons := append_cancel_left heq
    rw [cons_append, List.cons.injEq] at hcons
    exact hc'' (hcons.2 ▸ by simp)

theorem scan_from {c : List UInt8} {i n : ℕ} (h : kernelPath folder = some key)
    (hc : (v.children key)[i]? = some c) (hi : i < n)
    (hfirst : ∀ j < i, (v.rows folder key ((v.children key).take j)).length ≠ k)
    (hk : (v.rows folder key ((v.children key).take i)).length = k) :
    ((List.range n).foldl (scan v (some k)) (folder, [])).2 =
      v.rows folder key ((v.children key).take (i + 1)) ++
        v.rows (childPath folder c) (key ++ [c])
          (((v.children (key ++ [c])).take n).drop (i + 1)) := by
  have hsplit : List.range n = List.range' 0 i ++ i :: List.range' (i + 1) (n - (i + 1)) := by
    have hcons : i :: List.range' (i + 1) (n - (i + 1)) = List.range' i (n - i) := by
      rw [show n - i = n - (i + 1) + 1 by omega, range'_succ]
    have happ : List.range' 0 i ++ List.range' (0 + i) (n - i) = List.range' 0 (i + (n - i)) :=
      range'_append_1
    rw [Nat.zero_add, Nat.add_sub_cancel' hi.le] at happ
    rw [hcons, happ, range_eq_range']
  have hfree : (List.range' 0 i).foldl (scan v (some k)) (folder, []) =
      (folder, [] ++ v.rows folder key (((v.children key).drop 0).take i)) := by
    refine scan_free h ?_
    intro j hj heq
    exact hfirst j hj (Option.some.inj heq).symm
  rw [drop_zero, nil_append] at hfree
  have hupto : v.rows folder key ((v.children key).take (i + 1)) =
      v.rows folder key ((v.children key).take i) ++ v.rows folder key [c] := by
    rw [take_add_one, hc, toList_some, rows_append]
  rw [hsplit, foldl_append, foldl_cons, hfree, scan_child h hc,
    if_pos (congrArg some hk.symm), ← hupto, drop_take]
  have hplain := (v.name_ok key c (mem_of_getElem? hc)).1
  by_cases hlen : (childPath folder c).length < pathMax
  · have hmore : (v.rows folder key ((v.children key).take (i + 1))).length = k + 1 := by
      rw [hupto, length_append, hk, rows_singleton, if_pos hlen, length_singleton]
    rw [take_of_length_le (by omega),
      scan_free (kernelPath_childPath h hplain hlen) (by
        intro j _ heq
        have hge := congrArg (Option.getD · 0) heq
        simp only [getD_some, length_append, hmore] at hge
        omega)]
  · have hfull : ((childPath folder c).take (pathMax - 1)).length = pathMax - 1 := by
      rw [length_take]
      omega
    rw [scan_full hfull, rows_of_long (Nat.not_lt.1 hlen), append_nil]

theorem scan_perm_iff (h : kernelPath folder = some key) (k : ℕ) :
    (((List.range ((v.children key).take entryMax).length).foldl (scan v (some k))
        (folder, [])).2.Perm (v.rows folder key ((v.children key).take entryMax))) ↔
      Undisturbed v folder key k := by
  rw [Undisturbed]
  have htake (j : ℕ) (hj : j ≤ ((v.children key).take entryMax).length) :
      ((v.children key).take entryMax).take j = (v.children key).take j := by
    rw [take_take, Nat.min_eq_left]
    rw [length_take] at hj
    omega
  have hget (j : ℕ) (c : List UInt8) (hc : ((v.children key).take entryMax)[j]? = some c) :
      (v.children key)[j]? = some c := by
    rw [List.getElem?_take] at hc
    split at hc
    · exact hc
    · cases hc
  have hwhole := htake _ le_rfl
  rw [take_length] at hwhole
  generalize (v.children key).take entryMax = names at *
  by_cases hsome : ∃ i, i < names.length ∧
      (v.rows folder key ((v.children key).take i)).length = k
  · classical
    -- the first child that comes to the entry
    obtain ⟨hi, hk⟩ := Nat.find_spec hsome
    have hmin (j : ℕ) (hj : j < Nat.find hsome) :
        (v.rows folder key ((v.children key).take j)).length ≠ k :=
      fun heq => Nat.find_min hsome hj ⟨by omega, heq⟩
    have hle (j : ℕ) (hj : j < names.length)
        (hjk : (v.rows folder key ((v.children key).take j)).length = k) : Nat.find hsome ≤ j :=
      Nat.find_min' hsome ⟨hj, hjk⟩
    generalize Nat.find hsome = i at hi hk hmin hle
    have hc : names[i]? = some names[i] := List.getElem?_eq_getElem hi
    have hplain := (v.name_ok key _ (mem_of_getElem? (hget i _ hc))).1
    have hrows : v.rows folder key names = v.rows folder key ((v.children key).take (i + 1)) ++
        v.rows folder key (names.drop (i + 1)) := by
      rw [← htake (i + 1) hi, ← rows_append, take_append_drop]
    rw [scan_from h (hget i _ hc) hi hmin hk, hrows, perm_append_left_iff]
    constructor
    · intro hperm
      -- the paths of the two kinds of rows are different
      have hnone : v.rows (childPath folder names[i]) (key ++ [names[i]])
          (((v.children (key ++ [names[i]])).take names.length).drop (i + 1)) = [] := by
        rw [eq_nil_iff_forall_not_mem]
        intro r hr
        obtain ⟨-, hpath, -⟩ := mem_rows hr
        obtain ⟨hname, hpath', -⟩ := mem_rows (hperm.subset hr)
        have hslash : slash ∉ r.name := by
          have hmem : r.name ∈ v.children key := by
            rw [hwhole] at hname
            exact mem_of_mem_take (mem_of_mem_drop hname)
          exact (v.name_ok key _ hmem).1.no_slash
        exact childPath_ne hplain hslash (hpath.symm.trans hpath')
      rw [hnone] at hperm
      have hrest := hperm.nil_eq.symm
      intro j c hj hjk
      have hjlt := (List.getElem?_eq_some_iff.1 hj).1
      by_cases hself : j = i
      · subst hself
        rw [hc, Option.some.injEq] at hj
        subst hj
        exact ⟨hrest, hnone⟩
      · have hij : i + 1 ≤ j := by
          have := hle j hjlt hjk
          omega
        have hdrop : names.drop (i + 1) =
            (names.drop (i + 1)).take (j - (i + 1)) ++ c :: names.drop (j + 1) := by
          have hcons : c :: names.drop (j + 1) = (names.drop (i + 1)).drop (j - (i + 1)) := by
            rw [drop_drop, show i + 1 + (j - (i + 1)) = j by omega,
              drop_eq_getElem_cons hjlt, (List.getElem?_eq_some_iff.1 hj).2]
          rw [hcons, take_append_drop]
        rw [hdrop, rows_append, append_eq_nil_iff, ← singleton_append, rows_append,
          append_eq_nil_iff, rows_singleton] at hrest
        refine ⟨hrest.2.2, rows_of_long ?_⟩
        by_contra hlen
        rw [if_pos (Nat.lt_of_not_le hlen)] at hrest
        cases hrest.2.1
    · intro hall
      obtain ⟨hrest, hnone⟩ := hall i names[i] hc hk
      rw [hrest, hnone]
  · have hnever (j : ℕ) (hj : j < names.length) :
        (v.rows folder key ((v.children key).take j)).length ≠ k :=
      fun heq => hsome ⟨j, hj, heq⟩
    have hfree : (List.range' 0 names.length).foldl (scan v (some k)) (folder, []) =
        (folder, [] ++ v.rows folder key (((v.children key).drop 0).take names.length)) := by
      refine scan_free h ?_
      intro j hj heq
      exact hnever j hj (Option.some.inj heq).symm
    rw [drop_zero, nil_append, ← hwhole, ← range_eq_range'] at hfree
    rw [hfree]
    refine iff_of_true (List.Perm.refl _) ?_
    intro i c hi hk
    exact absurd hk (hnever i (List.getElem?_eq_some_iff.1 hi).1)

end Cleonos.Explorer
