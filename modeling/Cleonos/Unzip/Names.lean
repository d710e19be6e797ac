import Cleonos.Unzip.Model

/-!
# Names of entries

A safe name has no `..` in it and stays below the directory that it is joined to; the kernel
reads the joined path as the normal form of both.
-/

namespace Cleonos.Unzip

open List

section

open LexicalPath Kernel

variable {s t out base name front rest h : List UInt8} {key tl : List (List UInt8)}

/-- A name that leads nowhere but below the directory that it is joined to. -/
structure SafeName (name : List UInt8) : Prop where
  ne_nil : name ≠ []
  relative : name.head? ≠ some slash
  no_backslash : backslash ∉ name
  no_dotdot : [dot, dot] ∉ components name

instance (name : List UInt8) : Decidable (SafeName name) :=
  decidable_of_iff (name ≠ [] ∧ name.head? ≠ some slash ∧ backslash ∉ name ∧
      [dot, dot] ∉ components name)
    ⟨fun h => ⟨h.1, h.2.1, h.2.2.1, h.2.2.2⟩, fun h => ⟨h.1, h.2, h.3, h.4⟩⟩

/-- Where a name leads below a destination. -/
def place (dst name : List UInt8) : List (List UInt8) :=
  normalise (components dst) ++ normalise (components name)

/-! ## The name that is held -/

theorem heldName_eq (name : List UInt8) : heldName name = cstr (name.take 159) := by
  rw [heldName, nameMax]
  by_cases hlen : name.length < 160
  · have htake : (name ++ [0]).take 160 = name ++ [0] :=
      take_of_length_le (by rw [length_append, length_singleton]; omega)
    by_cases hlast : name.length = 159
    · rw [htake, set_append_right 159 0 (by omega), hlast, take_of_length_le (by omega)]
      exact cstr_append_nul name []
    · rw [htake, set_eq_of_length_le (by simp; omega), take_of_length_le (by omega)]
      exact cstr_append_nul name []
  · have htake : (name ++ [0]).take 160 = name.take 159 ++ [name.getD 159 0] := by
      rw [take_append_of_le_length (by omega), take_add_one,
        List.getElem?_eq_getElem (by omega)]
      simp [List.getElem?_eq_getElem (show 159 < name.length by omega)]
    have hfront : (name.take 159).length = 159 := by
      rw [length_take]
      omega
    rw [htake, set_append_right 159 _ (by omega), hfront]
    exact cstr_append_nul (name.take 159) []

theorem heldName_of_short (hlen : name.length < nameMax) (hnul : (0 : UInt8) ∉ name) :
    heldName name = name := by
  rw [heldName_eq, take_of_length_le (Nat.le_of_lt_succ hlen), cstr_of_notMem hnul]

theorem nul_notMem_heldName (name : List UInt8) : (0 : UInt8) ∉ heldName name :=
  notMem_cstr _

theorem head_splitOn_eq_nil_iff (hnul : (0 : UInt8) ∉ s) (hs : s.splitOn slash = h :: tl) :
    h = [] ↔ s.getD 0 0 = slash ∨ s.getD 0 0 = 0 := by
  cases s with
  | nil =>
    rw [splitOn_nil] at hs
    cases hs
    simp
  | cons c s =>
    have hc0 : c ≠ 0 := fun he => hnul (he ▸ mem_cons_self)
    by_cases hc : c = slash
    · subst hc
      rw [splitOn_slash_cons] at hs
      cases hs
      simp
    · obtain ⟨h', tl', hs'⟩ := exists_cons_of_ne_nil (splitOn_ne_nil slash s)
      rw [splitOn_cons_of_ne hc hs'] at hs
      cases hs
      simp [hc, hc0]

theorem head_splitOn_eq_dot_iff (hnul : (0 : UInt8) ∉ s) (hs : s.splitOn slash = h :: tl) :
    h = [dot] ↔ s.getD 0 0 = dot ∧ (s.getD 1 0 = slash ∨ s.getD 1 0 = 0) := by
  cases s with
  | nil =>
    rw [splitOn_nil] at hs
    cases hs
    simp [dot]
  | cons c s =>
    rw [mem_cons, not_or] at hnul
    by_cases hc : c = slash
    · subst hc
      rw [splitOn_slash_cons] at hs
      cases hs
      simp [show slash ≠ dot by decide]
    · obtain ⟨h', tl', hs'⟩ := exists_cons_of_ne_nil (splitOn_ne_nil slash s)
      rw [splitOn_cons_of_ne hc hs'] at hs
      cases hs
      rw [List.cons.injEq, head_splitOn_eq_nil_iff hnul.2 hs']
      simp

theorem isSafeNameLoop_iff {before : Option UInt8} (hnul : (0 : UInt8) ∉ s) :
    isSafeNameLoop before s = true ↔ backslash ∉ s ∧
      [dot, dot] ∉ (if before = none ∨ before = some slash then s.splitOn slash
        else (s.splitOn slash).tail) := by
  induction s generalizing before with
  | nil =>
    rw [isSafeNameLoop, splitOn_nil]
    split <;> simp
  | cons c s ih =>
    rw [mem_cons, not_or] at hnul
    have ih := @ih (some c) hnul.2
    rw [isSafeNameLoop]
    by_cases hback : c = backslash
    · rw [if_pos hback]
      simp [hback]
    rw [if_neg hback]
    have hmem : backslash ∉ c :: s ↔ backslash ∉ s := by
      rw [mem_cons, not_or]
      exact and_iff_right (Ne.symm hback)
    rw [hmem]
    by_cases hc : c = slash
    · subst hc
      rw [if_neg (fun hd => absurd hd.1 (by decide)), ih, if_pos (.inr rfl), splitOn_slash_cons]
      split <;> simp
    · obtain ⟨h, tl, hs⟩ := exists_cons_of_ne_nil (splitOn_ne_nil slash s)
      have hdots : c :: h = [dot, dot] ↔
          c = dot ∧ s.getD 0 0 = dot ∧ (s.getD 1 0 = slash ∨ s.getD 1 0 = 0) := by
        rw [List.cons.injEq, head_splitOn_eq_dot_iff hnul.2 hs]
      rw [hs, if_neg (by simpa using hc), tail_cons] at ih
      rw [splitOn_cons_of_ne hc hs, tail_cons]
      by_cases hstart : before = none ∨ before = some slash
      · rw [if_pos hstart]
        by_cases hd : c :: h = [dot, dot]
        · obtain ⟨hd1, hd2⟩ := hdots.1 hd
          rw [if_pos ⟨hd1, hstart, hd2⟩, hd]
          simp
        · rw [if_neg fun hn => hd (hdots.2 ⟨hn.1, hn.2.2⟩), ih, mem_cons, not_or,
            and_iff_right (Ne.symm hd)]
      · rw [if_neg (fun hn => hstart hn.2.1), if_neg hstart, ih]

theorem isSafeName_iff (hnul : (0 : UInt8) ∉ name) : isSafeName name = true ↔ SafeName name := by
  have hdots := @mem_components_iff [dot, dot] name (by simp)
  have hhead : name.headD 0 = 0 ↔ name = [] := by
    rw [← cstr_eq_nil_iff, cstr_of_notMem hnul]
  have hslash : name.headD 0 = slash ↔ name.head? = some slash := by
    cases name with
    | nil => simp [slash]
    | cons c s => simp
  rw [isSafeName]
  split
  · rename_i hfail
    rw [hhead, hslash] at hfail
    refine iff_of_false (by simp) ?_
    rintro ⟨hne, hrel, -, -⟩
    exact hfail.elim hne hrel
  · rename_i hok
    rw [hhead, hslash, not_or] at hok
    rw [isSafeNameLoop_iff hnul, if_pos (.inl rfl), ← hdots]
    exact ⟨fun hs => ⟨hok.1, hok.2, hs.1, hs.2⟩, fun hs => ⟨hs.no_backslash, hs.no_dotdot⟩⟩

variable {size : ℕ}

theorem components_join (h : join size base name = some out)
    (hout : out.head? = some slash) (hname : SafeName name) :
    components out = components base ++ components name := by
  rw [join] at h
  by_cases hsize : size = 0
  · rw [if_pos hsize] at h
    exact absurd h (by simp)
  · rw [if_neg hsize] at h
    generalize base.length + _ + name.length + 1 = need at h
    by_cases hneed : need > size
    · rw [if_pos hneed] at h
      exact absurd h (by simp)
    · rw [if_neg hneed, Option.some.injEq] at h
      subst h
      by_cases hsep : base.length > 1 ∧ base.getLast? ≠ some slash
      · rw [if_pos hsep, append_assoc]
        exact components_append_slash base name
      · rw [if_neg hsep] at hout ⊢
        -- the base is empty, the root alone, or ends in a slash
        rcases eq_nil_or_concat base with rfl | ⟨b, c, rfl⟩
        · exact absurd hout hname.relative
        · rw [concat_eq_append] at hout hsep ⊢
          have hc : c = slash := by
            by_cases hb : b = []
            · subst hb
              simpa using hout
            · have hpos := length_pos_of_ne_nil hb
              have hlen : (b ++ [c]).length > 1 := by
                rw [length_append, length_singleton]
                omega
              by_contra hc
              exact hsep ⟨hlen, by simpa using hc⟩
          have hbase : components (b ++ [c]) = components b := by
            rw [hc, components_append_slash, components_nil, append_nil]
          rw [hbase, hc, append_assoc]
          exact components_append_slash b name

theorem normalise_join (h : join size base name = some out)
    (hout : out.head? = some slash) (hname : SafeName name) (hbase : [dot, dot] ∉ components base) :
    [dot, dot] ∉ components out ∧ normalise (components out) = place base name := by
  have hcomp := components_join h hout hname
  have hdots : [dot, dot] ∉ components base ++ components name := by
    rw [mem_append, not_or]
    exact ⟨hbase, hname.no_dotdot⟩
  rw [hcomp]
  refine ⟨hdots, ?_⟩
  rw [place, normalise_of_no_dotdot hdots, normalise_of_no_dotdot hbase,
    normalise_of_no_dotdot hname.no_dotdot, filter_append]

theorem kernelPath_join (h : join size base name = some out) (hname : SafeName name)
    (hkey : kernelPath out = some key) : [dot, dot] ∉ components base ∧ key = place base name := by
  obtain ⟨hout, hdots, rfl⟩ := kernelPath_eq_some hkey
  have hbase : [dot, dot] ∉ components base := by
    rw [components_join h hout hname, mem_append, not_or] at hdots
    exact hdots.1
  exact ⟨hbase, (normalise_join h hout hname hbase).2⟩

end

open LexicalPath Attempt Kernel

variable {kernel : ℕ → Answer} {path out front rest name dst buf : List UInt8}
  {fd key base goal : List (List UInt8)} {pieces : List (List UInt8)} {w w' : World} {e : Entry}
  {archive : Archive} {args : Args}

/-- Nothing changes but at `base` and below it, and directories on the way to it. -/
def Within (base : List (List UInt8)) (w w' : World) : Prop :=
  FileTree.Grows base w.disk w'.disk

instance (base : List (List UInt8)) : IsPreorder World (Within base) where
  refl w := FileTree.Grows.refl base w.disk
  trans _ _ _ := FileTree.Grows.trans

/-- Directories are made on the way to `goal`, and nothing else changes. -/
def Climbs (goal : List (List UInt8)) (w w' : World) : Prop :=
  FileTree.Rises goal w.disk w'.disk

instance (goal : List (List UInt8)) : IsPreorder World (Climbs goal) where
  refl w := FileTree.Rises.refl goal w.disk
  trans _ _ _ := FileTree.Rises.trans

theorem keeps_mkdir (h : ∀ key, kernelPath path = some key → key <+: goal) :
    Keeps (Climbs goal) (mkdir kernel path) := by
  intro w
  rw [mkdir]
  split
  · rename_i disk hdisk
    obtain ⟨key, hkey, hmk⟩ := Option.bind_eq_some_iff.1 hdisk
    split
    · exact FileTree.rises_mkdir (h key hkey) hmk
    · exact refl_of (Climbs goal) w
  · exact refl_of (Climbs goal) w

theorem keeps_ensureDir (h : ∀ key, kernelPath path = some key → key <+: goal) :
    Keeps (Climbs goal) (ensureDir kernel path) := by
  intro w
  rw [ensureDir]
  split
  · exact refl_of (Climbs goal) w
  · exact keeps_mkdir h w

theorem keeps_mkdirParentsLoop (hdots : [dot, dot] ∉ components (front ++ rest)) :
    Keeps (Climbs (normalise (components (front ++ rest))))
      (mkdirParentsLoop kernel front rest) := by
  induction rest generalizing front with
  | nil => exact keeps_succeed
  | cons c rest ih =>
    have hcons : front ++ [c] ++ rest = front ++ c :: rest := by simp
    rw [← hcons] at hdots
    have ih := ih hdots
    rw [hcons] at ih hdots
    rw [mkdirParentsLoop]
    split
    · exact ih
    · rename_i hc
      rw [not_not] at hc
      subst hc
      exact (keeps_ensureDir fun key => kernelPath_prefix hdots).andThen ih

theorem keeps_mkdirParents (hdots : [dot, dot] ∉ components out) :
    Keeps (Climbs (normalise (components out))) (mkdirParents kernel out) := by
  cases out with
  | nil => exact keeps_check
  | cons c rest =>
    rw [mkdirParents]
    split
    · exact keeps_check
    · exact keeps_mkdirParentsLoop hdots

theorem keeps_within {f : Attempt World} (h : Keeps (Climbs goal) f) (hbase : base <+: goal) :
    Keeps (Within base) f :=
  fun w => (h w).grows hbase

theorem writeAll_cons {fuel : ℕ} {b : UInt8} : writeAll kernel fd (fuel + 1) (b :: buf) w =
    if (fdWrite kernel fd (b :: buf) w).1 = 0 then (false, (fdWrite kernel fd (b :: buf) w).2)
    else writeAll kernel fd fuel ((b :: buf).drop (fdWrite kernel fd (b :: buf) w).1)
      (fdWrite kernel fd (b :: buf) w).2 := rfl

theorem keeps_writeAll (hfd : base <+: fd) {fuel : ℕ} :
    Keeps (Within base) (writeAll kernel fd fuel buf) := by
  induction fuel generalizing buf with
  | zero => cases buf <;> exact keeps_check
  | succ fuel ih =>
    cases buf with
    | nil => exact keeps_succeed
    | cons b buf =>
      intro w
      have hwrite : Within base w (fdWrite kernel fd (b :: buf) w).2 :=
        FileTree.grows_append hfd
      rw [writeAll_cons]
      split
      · exact hwrite
      · exact trans_of (Within base) hwrite (ih _)

theorem keeps_copyPieces (hfd : base <+: fd) :
    Keeps (Within base) (copyPieces kernel fd pieces) := by
  induction pieces with
  | nil => exact keeps_succeed
  | cons piece rest ih => exact (keeps_writeAll hfd).andThen ih

theorem within_fdOpen (h : ∀ key, kernelPath path = some key → base <+: key) :
    Within base w (fdOpen kernel path w).2 := by
  rw [fdOpen]
  split
  · exact refl_of (Within base) w
  · rename_i key hkey
    split
    · rename_i disk hdisk
      split
      · exact FileTree.grows_create (h key hkey) hdisk
      · exact refl_of (Within base) w
    · exact refl_of (Within base) w

theorem fdOpen_fst (h : (fdOpen kernel path w).1 = some fd) : kernelPath path = some fd := by
  rw [fdOpen] at h
  split at h
  · exact absurd h (by simp)
  · rename_i key hkey
    split at h
    · split at h
      · exact hkey.trans h
      · exact absurd h (by simp)
    · exact absurd h (by simp)

theorem keeps_inflate (h : ∀ key, kernelPath out = some key → base <+: key) :
    Keeps (Within base) (inflate kernel e out) := by
  refine Keeps.andThen keeps_check ?_
  intro w
  have hopen : Within base w (fdOpen kernel out w).2 := within_fdOpen h
  have hfst := fun fd => @fdOpen_fst kernel out fd w
  dsimp only
  cases hfd : fdOpen kernel out w with
  | mk fd w' =>
    rw [hfd] at hopen hfst
    cases fd with
    | none => exact hopen
    | some fd =>
      have hbase := h fd (hfst fd rfl)
      exact trans_of (Within base) hopen (((keeps_copyPieces hbase).andThen keeps_check) w')

theorem keeps_extractCurrent (hdst : [dot, dot] ∉ components dst) (hnul : (0 : UInt8) ∉ name) :
    Keeps (Within (normalise (components dst))) (extractCurrent kernel e dst name) := by
  rw [extractCurrent]
  split
  · exact keeps_succeed
  · rename_i hsafe
    rw [Bool.not_eq_false] at hsafe
    have hname := (isSafeName_iff hnul).1 hsafe
    split
    · exact keeps_check
    · rename_i out hjoin
      have hbase : normalise (components dst) <+: place dst name := prefix_append _ _
      have hkey : ∀ key, kernelPath out = some key → key = place dst name :=
        fun key hkey => (kernelPath_join hjoin hname hkey).2
      split
      · refine keeps_within (keeps_ensureDir fun key h => hkey key h ▸ prefix_refl _) hbase
      · apply Keeps.andThen
        · by_cases hout : out.head? = some slash
          · obtain ⟨hdots, hplace⟩ := normalise_join hjoin hout hname hdst
            exact keeps_within (keeps_mkdirParents hdots) (hplace ▸ hbase)
          · -- a path that is not absolute is refused
            cases out with
            | nil => exact keeps_check
            | cons c rest =>
              have hc : c ≠ slash := by simpa using hout
              rw [mkdirParents, if_pos hc]
              exact keeps_check
        · exact keeps_inflate fun key h => hkey key h ▸ hbase

theorem keeps_entriesLoop (hdst : [dot, dot] ∉ components (cstr args.dstPath))
    (entries : List Entry) :
    Keeps (Within (normalise (components (cstr args.dstPath))))
      (entriesLoop kernel args entries) := by
  induction entries with
  | nil => exact keeps_succeed
  | cons e rest ih =>
    rw [entriesLoop]
    refine Keeps.andThen keeps_check (Keeps.andThen ?_ (Keeps.andThen ?_ ih))
    · split
      · exact keeps_extractCurrent hdst (nul_notMem_heldName e.name)
      · exact keeps_succeed
    · split
      · exact keeps_succeed
      · exact keeps_check

theorem keeps_run (hdst : [dot, dot] ∉ components (cstr args.dstPath)) :
    Keeps (Within (normalise (components (cstr args.dstPath)))) (run kernel archive args) := by
  intro w
  have hrefl := refl_of (Within (normalise (components (cstr args.dstPath)))) w
  rw [run]
  split
  · exact hrefl
  · split
    · exact hrefl
    · split
      · exact hrefl
      · exact keeps_entriesLoop hdst archive.entries w

end Cleonos.Unzip
