import Cleonos.Explorer.Scan

/-!
# The explorer lists its folder

After each of the things that the user does, the table shows the folder that was asked for, in
order, and if that is no folder nothing has changed: with two exceptions.
-/

namespace Cleonos.Explorer

open List Option
open Buffer (slice)
open Kernel (kernelPath pathMax statType)
open LexicalPath (slash dot components)

/-! ## What should be shown -/

/-- What the user does. -/
inductive FxOp
  | openSelected
  | goParent
  | refresh
  | navigatePath (path : List UInt8)

def fxDo (v : Volume) (sys : System) : FxOp → FxApp → FxApp
  | .openSelected, app => fxOpenSelected v sys app
  | .goParent, app => fxGoParent v app
  | .refresh, app => fxRefresh v app
  | .navigatePath path, app => fxNavigatePath v path app

/-- The selected entry, if it is a folder. -/
def selectedFolder (app : FxApp) : Option ℕ :=
  if 0 ≤ app.selected ∧ app.selected < app.entryCount ∧
      (app.entries app.selected.toNat).type = 2 then some app.selected.toNat
  else none

/-- The place that is asked for. -/
def goal (app : FxApp) : FxOp → Option (List (List UInt8))
  | .openSelected => (selectedFolder app).bind fun k => kernelPath (app.entries k).text
  | .goParent => (kernelPath app.cwd).map List.dropLast
  | .refresh => kernelPath app.cwd
  | .navigatePath path => kernelPath (cstr path)

/-- The table shows the folder: those of its first children whose paths fit, in order. -/
structure Lists (v : Volume) (key : List (List UInt8)) (app : FxApp) : Prop where
  cwd : kernelPath app.cwd = some key
  rows : (listed app).Perm (v.rows app.cwd key ((v.children key).take entryMax))
  ordered : (listed app).Pairwise Row.Before

/-- The table shows the folder that is asked for; if that is none, nothing changes. -/
structure Right (v : Volume) (goal : Option (List (List UInt8))) (app app' : FxApp) : Prop where
  folder : ∀ key, goal = some key → v.tree.node key = some .dir → Lists v key app'
  noFolder : (∀ key, goal = some key → v.tree.node key ≠ some .dir) →
    app'.cwd = app.cwd ∧ listed app' = listed app

/-- What holds of the window at any time: the buffers of the paths end in time, and the kernel reads
the path of its folder. -/
structure Valid (app : FxApp) : Prop where
  ends : ∀ k, (app.entries k).path 191 = 0
  no_nul : (0 : UInt8) ∉ app.cwd
  reads : (kernelPath app.cwd).isSome

/-- When the folder is opened whose path is in the table, nothing is to come when its entry is
filled; and the folder whose parent is asked for is the root, or its path does not end in a dot. -/
def Fine (v : Volume) (app : FxApp) : FxOp → Prop
  | .openSelected => ∀ k key, selectedFolder app = some k →
      kernelPath (app.entries k).text = some key → v.tree.node key = some .dir →
        Undisturbed v (app.entries k).text key k
  | .goParent => ∀ key, kernelPath app.cwd = some key → v.tree.node key.dropLast = some .dir →
      key = [] ∨ (components app.cwd).getLast? ≠ some [dot]
  | .refresh => True
  | .navigatePath _ => True

variable {v : Volume} {sys : System} {app app' : FxApp} {dir : PathRef} {k : ℕ}
  {path folder : List UInt8} {key : List (List UInt8)}

theorem forall_sort {P : FxEntry → Prop} (h : ∀ k, P (app.entries k)) (k : ℕ) :
    P ((fxSortEntries app).entries k) := by
  have hinsert (key : FxEntry) (hkey : P key) (j : ℕ) (t : ℕ → FxEntry) (ht : ∀ k, P (t k)) :
      ∀ k, P (fxInsert key j t k) := by
    have hupdate (i : ℕ) (x : FxEntry) (hx : P x) (t : ℕ → FxEntry) (ht : ∀ k, P (t k)) :
        ∀ k, P (Function.update t i x k) := by
      intro k
      rw [Function.update_apply]
      split
      · exact hx
      · exact ht k
    induction j generalizing t with
    | zero => exact hupdate 0 key hkey t ht
    | succ j ih =>
      rw [fxInsert]
      split
      · exact ih _ (hupdate (j + 1) (t j) (ht j) t ht)
      · exact hupdate (j + 1) key hkey t ht
  rw [fxSortEntries]
  generalize List.range' 1 (app.entryCount - 1) = is
  generalize app.entries = t at h
  induction is generalizing t with
  | nil => exact h k
  | cons i is ih => exact ih _ (hinsert (t i) (h i) i t h)

theorem shows_loop {cwd : List UInt8} {st : List UInt8 × List Row} (h : Shows app dir cwd st)
    (is : List ℕ) : Shows (is.foldl (fxLoadChild v dir) app) dir cwd
      (is.foldl (scan v dir.slot) st) := by
  induction is generalizing app st with
  | nil => exact h
  | cons i is ih => exact ih (shows_fxLoadChild h i)

/-- A successful listing: the folder, and the rows of the loop in another order. -/
structure Loaded (v : Volume) (dir : PathRef) (folder : List UInt8) (key : List (List UInt8))
    (app : FxApp) : Prop where
  cwd : app.cwd = folder
  rows : (listed app).Perm ((List.range ((v.children key).take entryMax).length).foldl
    (scan v dir.slot) (folder, [])).2
  ordered : (∀ r ∈ listed app, r.Known) → (listed app).Pairwise Row.Before
  ends : ∀ k, (app.entries k).path 191 = 0

theorem no_nul_str : (0 : UInt8) ∉ app.str dir := by
  cases dir <;> exact notMem_cstr _

theorem length_of_kernelPath (h : kernelPath folder = some key) : folder.length < pathMax := by
  rw [kernelPath] at h
  split at h
  · next hok => exact hok.2.1
  · cases h

theorem fxCopy_self (hnul : (0 : UInt8) ∉ folder) (hlen : folder.length < pathMax) :
    fxCopy pathMax folder = folder := by
  rw [fxCopy, cstr_of_notMem hnul, take_of_length_le (by omega)]

theorem fxLoadDir_eq (dir : PathRef) (hends : ∀ k, (app.entries k).path 191 = 0)
    (hkey : kernelPath (app.str dir) = some key) (hdir : v.tree.node key = some .dir) :
    ∃ app', fxLoadDir v dir app = (true, app') ∧ Loaded v dir (app.str dir) key app' := by
  have hstat : statType v.tree (app.str dir) = 2 := by
    rw [statType, hkey, bind_some, hdir]
  have hlen := length_of_kernelPath hkey
  have hcopy := fxCopy_self (@no_nul_str app dir) hlen
  have hcount : (if v.childCount (app.str dir) > entryMax then entryMax
      else v.childCount (app.str dir)) = ((v.children key).take entryMax).length := by
    rw [Volume.childCount, hkey, length_take]
    dsimp only
    split <;> omega
  rw [fxLoadDir, if_neg (not_not_intro hstat)]
  refine ⟨_, rfl, ?_⟩
  have hstr : FxApp.str { app with
      cwd := fxCopy pathMax (app.str dir), entryCount := 0, selected := 0, scroll := 0,
      previewOpen := false, preview := [] } dir = app.str dir := by
    cases dir <;> rfl
  have hstart : Shows { app with
      cwd := fxCopy pathMax (app.str dir), entryCount := 0, selected := 0, scroll := 0,
      previewOpen := false, preview := [] } dir (app.str dir) (app.str dir, []) :=
    ⟨⟨hstr, hlen⟩, ne_nil_of_kernelPath hkey, rfl, hends, hcopy⟩
  rw [hstr, hcount]
  have hloop := @shows_loop v _ _ _ _ hstart (List.range ((v.children key).take entryMax).length)
  generalize List.foldl (fxLoadChild v dir) _ _ = filled at hloop
  have hperm := @listed_sort_perm filled
  rw [hloop.rows] at hperm
  have hordered : (∀ r ∈ listed (fxSortEntries filled), r.Known) →
      (listed (fxSortEntries filled)).Pairwise Row.Before := by
    intro hknown
    refine listed_sort_ordered fun r hr => hknown r ?_
    exact listed_sort_perm.symm.subset hr
  have hsorted := forall_sort (P := fun e => e.path 191 = 0) hloop.ends
  split
  · exact ⟨hloop.cwd, hperm, hordered, hsorted⟩
  · exact ⟨hloop.cwd, hperm, hordered, hsorted⟩

theorem fxLoadDir_fails (dir : PathRef) (h : ∀ key, kernelPath (app.str dir) = some key →
    v.tree.node key ≠ some .dir) : fxLoadDir v dir app = (false, app) := by
  rw [fxLoadDir, if_pos]
  intro hstat
  obtain ⟨key, hkey, hdir⟩ := Kernel.statType_eq_two hstat
  exact h key hkey hdir

theorem known_of_mem_rows {r : Row} {names : List (List UInt8)} (h : r ∈ v.rows folder key names) :
    r.Known := by
  obtain ⟨c, -, hr⟩ := mem_filterMap.1 h
  split at hr
  · cases hr
    rw [Row.Known, Volume.typeAt]
    split
    · exact .inl rfl
    · exact .inr rfl
  · cases hr

theorem Loaded.lists_iff (h : Loaded v dir folder key app) (hkey : kernelPath folder = some key) :
    Lists v key app ↔ ((List.range ((v.children key).take entryMax).length).foldl
      (scan v dir.slot) (folder, [])).2.Perm (v.rows folder key ((v.children key).take entryMax)) := by
  constructor
  · intro hlists
    have hrows := hlists.rows
    rw [h.cwd] at hrows
    exact h.rows.symm.trans hrows
  · intro hperm
    have hrows := h.rows.trans hperm
    refine ⟨h.cwd ▸ hkey, h.cwd ▸ hrows, h.ordered ?_⟩
    intro r hr
    exact known_of_mem_rows (hrows.subset hr)

theorem scan_text (hkey : kernelPath folder = some key) :
    ((List.range ((v.children key).take entryMax).length).foldl (scan v none) (folder, [])).2 =
      v.rows folder key ((v.children key).take entryMax) := by
  have hfree : (List.range' 0 ((v.children key).take entryMax).length).foldl (scan v none)
      (folder, []) = (folder, [] ++ v.rows folder key
        (((v.children key).drop 0).take ((v.children key).take entryMax).length)) :=
    scan_free hkey fun j _ => nofun
  have hwhole : (v.children key).take ((v.children key).take entryMax).length =
      (v.children key).take entryMax := by
    rw [length_take, ← take_take, take_length]
  rw [range_eq_range', hfree, drop_zero, hwhole, nil_append]

theorem Right.of_unchanged {goal : Option (List (List UInt8))}
    (h : ∀ key, goal = some key → v.tree.node key ≠ some .dir) (hcwd : app'.cwd = app.cwd)
    (hlisted : listed app' = listed app) : Right v goal app app' :=
  ⟨fun key hkey hdir => absurd hdir (h key hkey), fun _ => ⟨hcwd, hlisted⟩⟩

theorem fxGoTo_spec (hvalid : Valid app) (path failed : List UInt8) :
    Valid (fxGoTo v path failed app) ∧
      Right v (kernelPath (cstr path)) app (fxGoTo v path failed app) := by
  by_cases hfolder : ∃ key, kernelPath (cstr path) = some key ∧ v.tree.node key = some .dir
  · obtain ⟨key, hkey, hdir⟩ := hfolder
    obtain ⟨app', hload, hloaded⟩ := fxLoadDir_eq (.text path) hvalid.ends hkey hdir
    have hgo : fxGoTo v path failed app = app' := by
      rw [fxGoTo, hload]
      rfl
    have hlists : Lists v key app' :=
      (hloaded.lists_iff hkey).2 (by rw [PathRef.slot, FxApp.str, scan_text hkey])
    rw [hgo]
    refine ⟨⟨hloaded.ends, hloaded.cwd ▸ no_nul_str, hlists.cwd ▸ rfl⟩, ?_, ?_⟩
    · intro key' hkey' _
      rw [hkey, Option.some.injEq] at hkey'
      exact hkey' ▸ hlists
    · intro hnone
      exact absurd hdir (hnone key hkey)
  · have hnone : ∀ key, kernelPath (cstr path) = some key → v.tree.node key ≠ some .dir :=
      fun key hkey hdir => hfolder ⟨key, hkey, hdir⟩
    have hgo : fxGoTo v path failed app = { app with status := failed } := by
      rw [fxGoTo, fxLoadDir_fails (.text path) hnone]
      rfl
    rw [hgo]
    exact ⟨⟨hvalid.ends, hvalid.no_nul, hvalid.reads⟩, Right.of_unchanged hnone rfl rfl⟩

theorem components_append_slashes {s t : List UInt8} (ht : ∀ c ∈ t, c = slash) :
    components (s ++ t) = components s := by
  have hslashes : components t = [] := by
    induction t with
    | nil => rfl
    | cons c t ih =>
      rw [ht c mem_cons_self, LexicalPath.components_slash_cons]
      exact ih fun d hd => ht d (mem_cons_of_mem c hd)
  cases t with
  | nil => rw [append_nil]
  | cons c t =>
    rw [ht c mem_cons_self, LexicalPath.components_slash_cons] at hslashes
    rw [ht c mem_cons_self, LexicalPath.components_append_slash, hslashes, append_nil]

theorem fxParentPath_cons {t : List UInt8} (hnul : (0 : UInt8) ∉ slash :: t)
    (hlen : (slash :: t).length < pathMax) : ∃ front, fxParentPath (slash :: t) = slash :: front ∧
      front.length ≤ t.length ∧ (0 : UInt8) ∉ front ∧
      (components t = [] ∧ front = [] ∨
        ∃ w, components t = components front ++ [w]) := by
  rw [fxParentPath, fxCopy_self hnul hlen]
  dsimp only
  by_cases hroot : t = []
  · subst hroot
    exact ⟨[], by simp, le_rfl, not_mem_nil, .inl ⟨rfl, rfl⟩⟩
  rw [if_neg (by simpa using hroot), fxTrim, fxTrim]
  have hback : t.rdropWhile (· = slash) ++ t.rtakeWhile (· = slash) = t :=
    rdropWhile_append_rtakeWhile
  have hslashes : ∀ c ∈ t.rtakeWhile (· = slash), c = slash := fun c hc => by
    simpa using mem_rtakeWhile_imp hc
  have hend := rdropWhile_last_not (· = slash) t
  have hcomp := components_append_slashes (s := t.rdropWhile (· = slash)) hslashes
  rw [hback] at hcomp
  have hsub : t.rdropWhile (· = slash) <+: t := rdropWhile_prefix _ _
  generalize t.rdropWhile (· = slash) = t₁ at hend hcomp hsub
  have hsplit : t₁.rdropWhile (· ≠ slash) ++ t₁.rtakeWhile (· ≠ slash) = t₁ :=
    rdropWhile_append_rtakeWhile
  have hword : ∀ c ∈ t₁.rtakeWhile (· ≠ slash), c ≠ slash := fun c hc => by
    simpa using mem_rtakeWhile_imp hc
  have hstop := rdropWhile_last_not (· ≠ slash) t₁
  generalize t₁.rdropWhile (· ≠ slash) = t₂ at hsplit hstop ⊢
  generalize t₁.rtakeWhile (· ≠ slash) = w at hsplit hword
  have hone (hw : w ≠ []) : components w = [w] :=
    LexicalPath.components_of_notMem hw fun hs => hword slash hs rfl
  rw [hcomp, ← hsplit]
  rw [← hsplit] at hsub hend
  obtain rfl | ⟨front, c, rfl⟩ := eq_nil_or_concat t₂
  · rw [if_neg (by simp), if_neg (by simp)]
    refine ⟨[], rfl, Nat.zero_le _, not_mem_nil, ?_⟩
    by_cases hw : w = []
    · subst hw
      exact .inl ⟨rfl, rfl⟩
    · exact .inr ⟨w, hone hw⟩
  · rw [concat_eq_append] at hsub hend hstop ⊢
    have hc : c = slash := by simpa using hstop (by simp)
    subst hc
    have hlast : (slash :: (front ++ [slash])).getLast? = some slash := by
      rw [← cons_append, List.getLast?_concat]
    have hw : w ≠ [] := by
      intro hw
      subst hw
      rw [append_nil] at hend
      exact hend (by simp) (by simp)
    have hcut : (if (slash :: (front ++ [slash])).length > 1 ∧
        (slash :: (front ++ [slash])).getLast? = some slash then
          (slash :: (front ++ [slash])).dropLast
        else slash :: (front ++ [slash])) = slash :: front := by
      rw [if_pos ⟨by simp, hlast⟩, ← cons_append, dropLast_concat]
    rw [hcut, if_neg (cons_ne_nil slash front)]
    have hpre : front <+: t :=
      (prefix_append front ([slash] ++ w)).trans (by rw [← append_assoc]; exact hsub)
    refine ⟨front, rfl, hpre.length_le, ?_, .inr ⟨w, ?_⟩⟩
    · exact fun h0 => hnul (mem_cons_of_mem _ (hpre.subset h0))
    · rw [append_assoc, singleton_append, LexicalPath.components_append_slash, hone hw]

theorem kernelPath_fxParentPath (hnul : (0 : UInt8) ∉ folder)
    (hkey : kernelPath folder = some key) :
    (0 : UInt8) ∉ fxParentPath folder ∧ kernelPath (fxParentPath folder) =
      some (if (components folder).getLast? = some [dot] then key else key.dropLast) := by
  have hlen := length_of_kernelPath hkey
  rw [kernelPath] at hkey
  by_cases hok : folder.head? = some slash ∧ folder.length < pathMax ∧
      [dot, dot] ∉ components folder
  · rw [if_pos hok] at hkey
    cases hkey
    obtain ⟨hhead, -, hdots⟩ := hok
    cases folder with
    | nil => cases hhead
    | cons c t =>
      rw [List.head?_cons, Option.some.injEq] at hhead
      subst hhead
      obtain ⟨front, hparent, hle, hfront, hcomp⟩ := fxParentPath_cons hnul hlen
      rw [LexicalPath.components_slash_cons] at hdots ⊢
      have hread (hfree : [dot, dot] ∉ components front) : kernelPath (slash :: front) =
          some ((components front).filter (· ≠ [dot])) := by
        rw [length_cons] at hlen
        rw [kernelPath, LexicalPath.components_slash_cons,
          if_pos ⟨rfl, by rw [length_cons]; omega, hfree⟩]
      rw [hparent]
      refine ⟨?_, ?_⟩
      · rw [mem_cons, not_or]
        exact ⟨by decide, hfront⟩
      rcases hcomp with ⟨hnone, rfl⟩ | ⟨w, hcomp⟩
      · rw [hread not_mem_nil, hnone]
        rfl
      · rw [hcomp, mem_append, not_or] at hdots
        rw [hread hdots.1, hcomp, List.getLast?_concat, filter_append, Option.some.injEq]
        by_cases hdot : w = [dot]
        · rw [if_pos (congrArg some hdot), hdot, filter_cons_of_neg (by simp), filter_nil,
            append_nil]
        · rw [if_neg fun he => hdot (Option.some.inj he),
            filter_cons_of_pos (by simpa using hdot), filter_nil, dropLast_concat]
  · rw [if_neg hok] at hkey
    cases hkey

theorem selectedFolder_eq_some (h : selectedFolder app = some k) :
    0 ≤ app.selected ∧ app.selected < app.entryCount ∧ app.selected.toNat = k ∧
      (app.entries k).type = 2 := by
  rw [selectedFolder] at h
  split at h
  · next hok =>
      cases h
      exact ⟨hok.1, hok.2.1, rfl, hok.2.2⟩
  · cases h

theorem open_spec (sys : System) (hvalid : Valid app) (hk : selectedFolder app = some k) :
    Valid (fxOpenSelected v sys app) ∧
      (Right v (kernelPath (app.entries k).text) app (fxOpenSelected v sys app) ↔
        ∀ key, kernelPath (app.entries k).text = some key → v.tree.node key = some .dir →
          Undisturbed v (app.entries k).text key k) := by
  obtain ⟨hpos, hlt, rfl, htype⟩ := selectedFolder_eq_some hk
  rw [fxOpenSelected, if_neg (by omega)]
  rw [if_pos htype]
  generalize app.selected.toNat = k at hk htype ⊢
  by_cases hfolder : ∃ key, kernelPath (app.entries k).text = some key ∧
      v.tree.node key = some .dir
  · obtain ⟨key, hkey, hdir⟩ := hfolder
    obtain ⟨app', hload, hloaded⟩ := fxLoadDir_eq (.entry k) hvalid.ends hkey hdir
    have hiff := (hloaded.lists_iff hkey).trans (scan_perm_iff hkey k)
    have hread : kernelPath app'.cwd = some key := hloaded.cwd ▸ hkey
    rw [hload]
    refine ⟨⟨hloaded.ends, hloaded.cwd ▸ no_nul_str, hread ▸ rfl⟩, ?_⟩
    constructor
    · intro hright key' hkey' hdir'
      have hlists := hright.folder key' hkey' hdir'
      rw [hkey, Option.some.injEq] at hkey'
      subst hkey'
      exact hiff.1 hlists
    · intro hall
      refine ⟨?_, fun hnone => absurd hdir (hnone key hkey)⟩
      intro key' hkey' _
      rw [hkey, Option.some.injEq] at hkey'
      subst hkey'
      exact hiff.2 (hall key hkey hdir)
  · have hnone : ∀ key, kernelPath (app.entries k).text = some key →
        v.tree.node key ≠ some .dir := fun key hkey hdir => hfolder ⟨key, hkey, hdir⟩
    rw [fxLoadDir_fails (.entry k) hnone]
    refine ⟨⟨hvalid.ends, hvalid.no_nul, hvalid.reads⟩, ?_⟩
    refine iff_of_true (Right.of_unchanged hnone rfl rfl) ?_
    intro key hkey hdir
    exact absurd hdir (hnone key hkey)

theorem fxOpenSelected_other (v : Volume) (sys : System) (h : selectedFolder app = none) :
    (fxOpenSelected v sys app).cwd = app.cwd ∧
      (fxOpenSelected v sys app).entries = app.entries ∧
      (fxOpenSelected v sys app).entryCount = app.entryCount := by
  rw [fxOpenSelected]
  by_cases hbounds : app.selected < 0 ∨ app.selected ≥ app.entryCount
  · rw [if_pos hbounds]
    exact ⟨rfl, rfl, rfl⟩
  rw [if_neg hbounds]
  have htype : (app.entries app.selected.toNat).type ≠ 2 := by
    intro htype
    rw [selectedFolder, if_pos ⟨by omega, by omega, htype⟩] at h
    cases h
  rw [if_neg htype]
  split
  · exact ⟨rfl, rfl, rfl⟩
  split
  · split
    · exact ⟨rfl, rfl, rfl⟩
    · split <;> exact ⟨rfl, rfl, rfl⟩
  · split <;> exact ⟨rfl, rfl, rfl⟩

theorem parent_spec (hvalid : Valid app) :
    Valid (fxGoParent v app) ∧
      (Right v ((kernelPath app.cwd).map List.dropLast) app (fxGoParent v app) ↔
        Fine v app .goParent) := by
  obtain ⟨key, hkey⟩ := isSome_iff_exists.1 hvalid.reads
  obtain ⟨hnul, hparent⟩ := kernelPath_fxParentPath hvalid.no_nul hkey
  obtain ⟨hvalid', hright⟩ := fxGoTo_spec (v := v) hvalid (fxParentPath app.cwd)
    (lit "Parent folder unavailable")
  rw [cstr_of_notMem hnul, hparent] at hright
  refine ⟨hvalid', ?_⟩
  rw [fxGoParent, Fine, hkey, map_some]
  by_cases hdot : (components app.cwd).getLast? = some [dot]
  · rw [if_pos hdot] at hright
    by_cases hroot : key = []
    · subst hroot
      refine iff_of_true hright ?_
      intro key hkey' _
      cases hkey'
      exact .inl rfl
    by_cases hdir : v.tree.node key.dropLast = some .dir
    · refine iff_of_false ?_ ?_
      · intro hgoal
        -- the folder is still the one that it was
        have hcwd := (hgoal.folder _ rfl hdir).cwd
        have hne : key.dropLast ≠ key := by
          intro heq
          have hlen := congrArg List.length heq
          have hpos := length_pos_of_ne_nil hroot
          rw [length_dropLast] at hlen
          omega
        by_cases hself : v.tree.node key = some .dir
        · have hstay := (hright.folder key rfl hself).cwd
          exact hne (Option.some.inj (hcwd.symm.trans hstay))
        · have hstay := (hright.noFolder fun key' hkey' => by cases hkey'; exact hself).1
          rw [hstay, hkey] at hcwd
          exact hne (Option.some.inj hcwd).symm
      · intro hfine
        exact (hfine key rfl hdir).elim hroot fun hlast => hlast hdot
    · have hself : v.tree.node key ≠ some .dir := by
        intro hself
        exact hdir (FileTree.dir_of_prefix_dir (List.dropLast_prefix key) hself)
      refine iff_of_true ?_ ?_
      · obtain ⟨hcwd, hlisted⟩ := hright.noFolder fun key' hkey' => by cases hkey'; exact hself
        exact Right.of_unchanged (fun key' hkey' => by cases hkey'; exact hdir) hcwd hlisted
      · intro key' hkey' hdir'
        cases hkey'
        exact absurd hdir' hdir
  · rw [if_neg hdot] at hright
    refine iff_of_true hright ?_
    intro key' _ _
    exact .inr hdot

/-- After each of the things that the user does, the table shows the folder that is asked for, just
if nothing is to come when the entry is filled that holds its path, and a path whose parent is asked
for does not end in a dot. -/
theorem right_iff (v : Volume) (sys : System) (hvalid : Valid app) (op : FxOp) :
    Valid (fxDo v sys op app) ∧
      (Right v (goal app op) app (fxDo v sys op app) ↔ Fine v app op) := by
  cases op with
  | openSelected =>
    rw [fxDo, goal, Fine]
    cases hk : selectedFolder app with
    | none =>
      obtain ⟨hcwd, hentries, hcount⟩ := fxOpenSelected_other v sys hk
      refine ⟨⟨hentries ▸ hvalid.ends, hcwd ▸ hvalid.no_nul, hcwd ▸ hvalid.reads⟩, ?_⟩
      refine iff_of_true (Right.of_unchanged nofun hcwd ?_) nofun
      rw [listed, listed, hentries, hcount]
    | some k =>
      obtain ⟨hvalid', hiff⟩ := open_spec (v := v) sys hvalid hk
      refine ⟨hvalid', ?_⟩
      rw [bind_some, hiff]
      constructor
      · intro hall k' key hk' hkey hdir
        cases hk'
        exact hall key hkey hdir
      · intro hall key hkey hdir
        exact hall k key rfl hkey hdir
  | goParent => exact parent_spec hvalid
  | refresh =>
    obtain ⟨key, hkey⟩ := isSome_iff_exists.1 hvalid.reads
    have hcopy := fxCopy_self hvalid.no_nul (length_of_kernelPath hkey)
    obtain ⟨hvalid', hright⟩ := fxGoTo_spec (v := v) hvalid app.cwd (lit "Refresh failed")
    rw [cstr_of_notMem hvalid.no_nul] at hright
    rw [fxDo, fxRefresh, hcopy]
    exact ⟨hvalid', iff_of_true hright trivial⟩
  | navigatePath path =>
    obtain ⟨hvalid', hright⟩ := fxGoTo_spec (v := v) hvalid path (lit "Folder unavailable")
    exact ⟨hvalid', iff_of_true hright trivial⟩

/-! ## A folder with two files -/

theorem sample_none {k : List (List UInt8)} (hk : k ≠ [] ∧ k ≠ [lit "a"]) (c : List UInt8) :
    ¬(k ++ [c] = [] ∨ k ++ [c] = [lit "a"]) ∧
      ¬(k ++ [c] = [lit "a", lit "x"] ∨ k ++ [c] = [lit "a", lit "y"]) := by
  have hone : k ++ [c] ≠ [] ++ [lit "a"] := by
    intro he
    exact hk.1 (append_inj' he rfl).1
  have htwo (s : List UInt8) : k ++ [c] ≠ [lit "a"] ++ [s] := by
    intro he
    exact hk.2 (append_inj' he rfl).1
  constructor
  · rw [not_or]
    exact ⟨concat_ne_nil c k, hone⟩
  · rw [not_or]
    exact ⟨htwo _, htwo _⟩

/-- The root has a folder `a`, with two files in it. -/
def sampleTree : FileTree (List UInt8) where
  node k :=
    if k = [] ∨ k = [lit "a"] then some .dir
    else if k = [lit "a", lit "x"] ∨ k = [lit "a", lit "y"] then some (.file [])
    else none
  root := if_pos (.inl rfl)
  parent k c h := by
    rw [if_pos]
    by_contra hk
    rw [not_or] at hk
    obtain ⟨hdir, hfile⟩ := sample_none hk c
    rw [if_neg hdir, if_neg hfile] at h
    exact h rfl

def sampleVolume : Volume where
  tree := sampleTree
  size _ := 0
  children k :=
    if k = [] then [lit "a"] else if k = [lit "a"] then [lit "x", lit "y"] else []
  mem_children k c := by
    rw [sampleTree]
    dsimp only
    by_cases hroot : k = []
    · subst hroot
      simp
    by_cases hfolder : k = [lit "a"]
    · subst hfolder
      simp [or_iff_not_imp_left]
    · obtain ⟨hdir, hfile⟩ := sample_none ⟨hroot, hfolder⟩ c
      rw [if_neg hroot, if_neg hfolder, if_neg hdir, if_neg hfile]
      simp
  name_ok k c hc := by
    have hname : c ∈ [lit "a", lit "x", lit "y"] := by
      split at hc
      · exact List.mem_cons.2 (.inl (List.mem_singleton.1 hc))
      split at hc
      · exact List.mem_cons_of_mem _ hc
      · cases hc
    clear hc
    revert c
    decide

def sampleApp : FxApp where
  cwd := lit "/"
  entries _ := ⟨lit "a", fun i => (lit "/a").getD i 0, 2, 0⟩
  entryCount := 1
  selected := 0
  scroll := 0
  previewOpen := false
  preview := []
  status := lit "Ready"

def sampleSystem : System where
  spawn _ := none
  read _ := none

theorem valid_sampleApp : Valid sampleApp := by
  constructor
  · intro k
    rfl
  · decide
  · decide

theorem right_iff_refresh : Valid (fxDo sampleVolume sampleSystem .refresh sampleApp) ∧
    (Right sampleVolume (goal sampleApp .refresh) sampleApp
      (fxDo sampleVolume sampleSystem .refresh sampleApp) ↔ Fine sampleVolume sampleApp .refresh) :=
  right_iff sampleVolume sampleSystem valid_sampleApp .refresh

/-- After each of the things that the user does, the table shows the folder that is asked for. -/
def ExplorerLaw : Prop :=
  ∀ (v : Volume) (sys : System) (app : FxApp), Valid app →
    ∀ op, Right v (goal app op) app (fxDo v sys op app)

/-- The folder is opened: its path is gone when the first file is in the table. -/
theorem not_explorerLaw : ¬ ExplorerLaw := by
  intro hlaw
  have hright := hlaw sampleVolume sampleSystem sampleApp valid_sampleApp .openSelected
  have hselected : selectedFolder sampleApp = some 0 := by decide
  have hkey : kernelPath (sampleApp.entries 0).text = some [lit "a"] := by decide +kernel
  rw [goal, hselected, bind_some, fxDo] at hright
  have hfine := (open_spec sampleSystem valid_sampleApp hselected).2.1 hright _ hkey rfl
  have hlater := (hfine 0 (lit "x") rfl rfl).1
  revert hlater
  decide +kernel

end Cleonos.Explorer
