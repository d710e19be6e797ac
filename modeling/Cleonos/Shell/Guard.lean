import Cleonos.Shell.Exec

/-!
# The guard of protected system images

`exec_external_with_fds` refuses a path that starts with the bytes `/system`.
-/

namespace Cleonos.Shell

open List
open LexicalPath Prog

/-! ## The kernel's view of a path -/

def systemName : List UInt8 := lit "system"

/-- The kernel's normal form: the components without `.`; none for a path that is not
absolute or that has a `..`. -/
def normalForm (path : List UInt8) : Option (List (List UInt8)) :=
  let cs := (components path).filter (· ≠ [dot])
  if path.head? = some slash ∧ [dot, dot] ∉ cs then some cs else none

/-- The path denotes `/system` or something below it. -/
def InSystem (path : List UInt8) : Prop :=
  ∃ cs, normalForm path = some cs ∧ cs.head? = some systemName

/-- The path denotes something else. -/
def OutsideSystem (path : List UInt8) : Prop :=
  ∃ cs, normalForm path = some cs ∧ cs.head? ≠ some systemName

/-- No protected image is executed, and a path that is refused as reserved is not
outside `/system`. -/
def GuardSound (env : ShellEnv) (h : List Call) (sh : ShellState) (cmd arg : List UInt8)
    (stdin stdout stderr : ℕ) : Prop :=
  let trace := ((execExternalWithFds sh cmd arg stdin stdout stderr).run env h).2
  (∀ path a e i o r, Call.execPathvIo path a e i o r ∈ trace → ¬ InSystem path) ∧
    (Call.writelnI18n reservedText ∈ trace →
      ∀ path, ((resolveExecPath sh.cwd (canonicalCommand cmd arg).1).run env h).1 = some path →
        ¬ OutsideSystem path)

/-- The word that is executed, after aliases. -/
def commandWord (cmd : List UInt8) : List UInt8 := (canonicalCommand cmd []).1

/-- The path that a word with a slash names: the word itself when it is absolute, its
lexical resolution otherwise, with the suffix `.elf`. -/
def namedPath (cwd cmd : List UInt8) : Option (List UInt8) :=
  let word := commandWord cmd
  if word.head? = some slash then withElf word
  else if slash ∈ word then
    (if Fits pathMax [] (Path.joined cwd word) then some (render (normalise (Path.joined cwd word)))
      else none).bind withElf
  else none

/-- On the named path the bytes `/system` in front mean `/system`, and conversely. -/
def GuardMatches (cwd cmd : List UInt8) : Prop :=
  ∀ path, namedPath cwd cmd = some path →
    (OutsideSystem path → ¬ systemPrefix <+: path) ∧ (InSystem path → systemPrefix <+: path)

theorem startsWithRaw_iff (text pre : List UInt8) : startsWithRaw text pre = true ↔ pre <+: text := by
  rw [startsWithRaw, Bool.and_eq_true, decide_eq_true_eq, beq_iff_eq]
  constructor
  · rintro ⟨-, h⟩
    exact h ▸ take_prefix _ _
  · intro h
    exact ⟨h.length_le, (prefix_iff_eq_take.1 h).symm⟩

theorem containsByte_iff (text : List UInt8) (b : UInt8) : containsByte text b = true ↔ b ∈ text := by
  simp [containsByte]

variable (cmd : List UInt8) {path : List UInt8}

theorem canonicalCommand_fst (arg : List UInt8) :
    (canonicalCommand cmd arg).1 = commandWord cmd := by
  simp only [commandWord, canonicalCommand]
  by_cases h : aliasCommand cmd = lit "sysinfo"
  · rw [if_pos h, if_pos h]
  · rw [if_neg h, if_neg h]

theorem aliasCommand_spec : (aliasCommand cmd).length ≤ 31 ∧ (0 : UInt8) ∉ aliasCommand cmd := by
  simp only [aliasCommand]
  split_ifs
  · decide
  · decide
  · decide
  · decide
  · decide
  · decide
  · exact ⟨length_copyBytes_le _ _, notMem_copyBytes _ _⟩

theorem commandWord_spec : (commandWord cmd).length ≤ 31 ∧ (0 : UInt8) ∉ commandWord cmd := by
  simp only [commandWord, canonicalCommand]
  by_cases h : aliasCommand cmd = lit "sysinfo"
  · rw [if_pos h]
    decide
  · rw [if_neg h]
    exact aliasCommand_spec cmd

theorem searchDirs_mem (env : ShellEnv) {cmd : List UInt8} {dirs all : List (List UInt8)}
    {fallback : Option (List UInt8)} {h : List Call} {path : List UInt8}
    (hsub : ∀ d ∈ dirs, d ∈ all)
    (hfb : ∀ p, fallback = some p → ∃ d ∈ all, candidateIn d cmd = some p)
    (hrun : ((searchDirs cmd dirs fallback).run env h).1 = some path) :
    ∃ d ∈ all, candidateIn d cmd = some path := by
  induction dirs generalizing fallback h with
  | nil => exact hfb path hrun
  | cons dir dirs ih =>
    rw [searchDirs] at hrun
    cases hc : candidateIn dir cmd with
    | none =>
      rw [hc] at hrun
      exact absurd hrun (by simp)
    | some candidate =>
      rw [hc] at hrun
      have hdir : ∃ d ∈ all, candidateIn d cmd = some candidate := ⟨dir, hsub dir (by simp), hc⟩
      rw [run_bind, run_statType] at hrun
      by_cases hkind : env.stat h candidate = 1
      · rw [if_pos hkind] at hrun
        obtain rfl : candidate = path := by simpa using hrun
        exact hdir
      · rw [if_neg hkind] at hrun
        refine ih (fun d hd => hsub d (by simp [hd])) ?_ hrun
        intro p hp
        cases fallback with
        | none =>
          obtain rfl : candidate = p := by simpa using hp
          exact hdir
        | some q => exact hfb p (by simpa using hp)

theorem prefix_of_withElf {q : List UInt8} (hpath : path.length < pathMax)
    (h : withElf path = some q) : path <+: q := by
  rw [withElf] at h
  by_cases hs : hasSuffix path elfSuffix = true
  · rw [if_pos hs, Option.some.injEq] at h
    exact h ▸ prefix_refl path
  · rw [if_neg hs] at h
    by_cases happ : (appendBytes pathMax path elfSuffix).1 = true
    · simp only [happ, if_true, Option.some.injEq] at h
      rw [← h, appendBytes_of_fst hpath happ]
      exact prefix_append _ _
    · simp [happ] at h

theorem prefix_of_candidateIn {d cmd : List UInt8} (hd : d ∈ execDirs)
    (h : candidateIn d cmd = some path) : lit "/shell/apps/" <+: path := by
  have hdir : lit "/shell/apps/" <+: d ∧ d.length < pathMax ∧ (appendBytes pathMax [] d).2 = d := by
    simp only [execDirs, mem_cons, not_mem_nil, or_false] at hd
    rcases hd with rfl | rfl | rfl <;> decide
  obtain ⟨hpre, hlen, hself⟩ := hdir
  rw [candidateIn] at h
  simp only [hself] at h
  by_cases happ : (appendBytes pathMax d cmd).1 = true
  · by_cases hd1 : (appendBytes pathMax [] d).1 = true
    · simp only [happ, hd1, and_self, if_true] at h
      have hc := appendBytes_of_fst hlen happ
      have hclen : (appendBytes pathMax d cmd).2.length < pathMax := by
        have := length_take_le (pathMax - 1) (d ++ cstr cmd)
        simp only [appendBytes, pathMax] at this ⊢
        omega
      have hq := prefix_of_withElf hclen h
      rw [hc] at hq
      exact hpre.trans ((prefix_append d (cstr cmd)).trans hq)
    · simp [hd1] at h
  · simp [happ] at h

theorem apps_not_system (h : lit "/shell/apps/" <+: path) :
    ¬ InSystem path ∧ ¬ systemPrefix <+: path := by
  obtain ⟨x, rfl⟩ := h
  constructor
  · rintro ⟨cs, hcs, hhead⟩
    have hsplit : lit "/shell/apps/" ++ x = lit "/shell" ++ slash :: (lit "apps/" ++ x) := rfl
    have hcomp : components (lit "/shell") = [lit "shell"] := by decide
    have hdot : lit "shell" ≠ [dot] := by decide
    rw [normalForm, hsplit, components_append_slash, hcomp] at hcs
    simp only [cons_append, nil_append, ne_eq, hdot, not_false_eq_true, decide_true,
      filter_cons_of_pos] at hcs
    by_cases hcond : (lit "/shell" ++ slash :: (lit "apps/" ++ x)).head? = some slash ∧
        [dot, dot] ∉ lit "shell" :: (components (lit "apps/" ++ x)).filter (fun c => ¬ c = [dot])
    · rw [if_pos hcond, Option.some.injEq] at hcs
      rw [← hcs, List.head?_cons, Option.some.injEq] at hhead
      exact absurd hhead (by decide)
    · rw [if_neg hcond] at hcs
      exact absurd hcs (by simp)
  · rintro ⟨y, hy⟩
    have h2 := congrArg (fun l => l[2]?) hy
    exact absurd h2 (by simp [systemPrefix, lit])

theorem run_resolveExecPath_slash (env : ShellEnv) (h : List Call) {cwd cmd : List UInt8}
    (hslash : slash ∈ commandWord cmd) :
    (resolveExecPath cwd (commandWord cmd)).run env h = (namedPath cwd cmd, []) := by
  obtain ⟨hlen, hnul⟩ := commandWord_spec cmd
  have hne : commandWord cmd ≠ [] := ne_nil_of_mem hslash
  have hcopy : copyBytes pathMax (commandWord cmd) = commandWord cmd := by
    rw [copyBytes, cstr_of_notMem hnul]
    exact take_of_length_le (by simp only [pathMax]; omega)
  have hhead : (commandWord cmd).headD 0 = slash ↔ (commandWord cmd).head? = some slash := by
    cases hw : commandWord cmd with
    | nil => exact absurd hw hne
    | cons c s => simp
  rw [resolveExecPath, if_neg hne]
  simp only [namedPath]
  by_cases habs : (commandWord cmd).head? = some slash
  · rw [if_pos (hhead.2 habs), if_pos habs, hcopy, run_pure]
  · rw [if_neg fun hh => habs (hhead.1 hh), if_neg habs, if_pos hslash,
      if_pos ((containsByte_iff _ _).2 hslash), run_pure, Path.resolvePath_eq]

theorem resolved_cases (env : ShellEnv) (h : List Call) {cwd cmd path : List UInt8}
    (hrun : ((resolveExecPath cwd (commandWord cmd)).run env h).1 = some path) :
    namedPath cwd cmd = some path ∨ lit "/shell/apps/" <+: path := by
  by_cases hslash : slash ∈ commandWord cmd
  · rw [run_resolveExecPath_slash env h hslash] at hrun
    exact .inl hrun
  · rw [resolveExecPath] at hrun
    by_cases hnil : commandWord cmd = []
    · rw [if_pos hnil] at hrun
      exact absurd hrun (by simp)
    have hhead : (commandWord cmd).headD 0 ≠ slash := by
      cases hw : commandWord cmd with
      | nil => exact absurd hw hnil
      | cons c s =>
        intro hc
        exact hslash (by rw [hw, ← hc]; simp)
    have hcontains : ¬ containsByte (commandWord cmd) slash = true := fun hc =>
      hslash ((containsByte_iff _ _).1 hc)
    rw [if_neg hnil, if_neg hhead, if_neg hcontains] at hrun
    obtain ⟨d, hd, hc⟩ := searchDirs_mem env (fun d hd => hd) (by simp) hrun
    exact .inr (prefix_of_candidateIn hd hc)

theorem trace_execExternalWithFds (env : ShellEnv) (h : List Call) (sh : ShellState)
    (cmd arg : List UInt8) (stdin stdout stderr : ℕ) :
    ((execExternalWithFds sh cmd arg stdin stdout stderr).run env h).2 =
      let r := (resolveExecPath sh.cwd (commandWord cmd)).run env h
      r.2 ++ match r.1 with
        | none => []
        | some path =>
          if systemPrefix <+: path then [.writelnI18n reservedText]
          else ((launch sh (commandWord cmd) (canonicalCommand cmd arg).2 path stdin stdout
            stderr).run env (h ++ r.2)).2 := by
  simp only [execExternalWithFds, canonicalCommand_fst, run_bind]
  refine congrArg (((resolveExecPath sh.cwd (commandWord cmd)).run env h).2 ++ ·) ?_
  cases ((resolveExecPath sh.cwd (commandWord cmd)).run env h).1 with
  | none => rfl
  | some path =>
    dsimp only
    by_cases hpre : systemPrefix <+: path
    · rw [if_pos hpre, if_pos ((startsWithRaw_iff _ _).2 hpre), run_bind]
      rfl
    · rw [if_neg hpre, if_neg fun hh => hpre ((startsWithRaw_iff _ _).1 hh)]

theorem appendAll_isSome {n : ℕ} {dst : List UInt8} {pieces : List (List UInt8)}
    (h : dst.length + (pieces.map List.length).sum < n) : (appendAll n dst pieces).isSome := by
  induction pieces generalizing dst with
  | nil => rfl
  | cons piece pieces ih =>
    rw [map_cons, sum_cons] at h
    have hle := length_cstr_le piece
    have happ : (appendBytes n dst piece).1 = true := by
      simp only [appendBytes, decide_eq_true_eq]
      omega
    rw [appendAll, if_pos happ, appendBytes_of_fst (by omega) happ]
    refine ih ?_
    rw [length_append]
    omega

theorem buildEnv_plainShell {cwd cmd : List UInt8} (hcwd : cwd.length < pathMax)
    (hcmd : cmd.length ≤ 31) : (buildEnv (plainShell cwd) cmd fdInherit).isSome := by
  rw [buildEnv]
  refine appendAll_isSome ?_
  simp only [plainShell, if_true, append_nil, map_cons, map_nil, sum_cons,
    sum_nil, length_nil]
  have hlit : (lit "PWD=").length = 4 ∧ (lit ";CMD=").length = 5 ∧
      (lit ";LAUNCHER=/shell/apps/shell.elf;USER=").length = 37 ∧ (lit ";HOME=").length = 6 ∧
      (lit ";ROLE=").length = 6 ∧ (lit "user").length = 4 := by
    decide
  obtain ⟨h1, h2, h3, h4, h5, h6⟩ := hlit
  simp only [h1, h2, h3, h4, h5, h6, pathMax, envMax, Nat.zero_ne_one, if_false] at *
  omega

theorem exec_mem_launch {cwd cmd arg path : List UInt8} (h : List Call)
    (hcwd : cwd.length < pathMax) (hcmd : cmd.length ≤ 31) :
    ∃ vars, Call.execPathvIo path arg vars fdInherit fdInherit fdInherit ∈
      ((launch (plainShell cwd) cmd arg path fdInherit fdInherit fdInherit).run willing h).2 := by
  obtain ⟨vars, hvars⟩ := Option.isSome_iff_exists.1 (buildEnv_plainShell hcwd hcmd)
  refine ⟨vars, ?_⟩
  have hstat : ∀ h p, willing.stat h p = 1 := fun _ _ => rfl
  have hwrite : ∀ h c a d, willing.write h c a d = 1 := fun _ _ _ _ => rfl
  rw [launch, run_bind, run_statType, hstat, if_neg (by simp), run_bind, run_remove, run_bind,
    run_writeCtx, hwrite, if_neg (by simp), hvars, run_bind, run_execPathvIo]
  simp

/-- The guard is sound for a command word, in every run, exactly when it matches the
kernel's view on the path that the word names. -/
theorem exec_guard_iff {cwd : List UInt8} (cmd : List UInt8) (hcwd : cwd.length < pathMax) :
    (∀ (env : ShellEnv) h sh arg stdin stdout stderr, sh.cwd = cwd →
      GuardSound env h sh cmd arg stdin stdout stderr) ↔ GuardMatches cwd cmd := by
  constructor
  · intro hsound path hpath
    have hslash : slash ∈ commandWord cmd := by
      by_contra hno
      have hhead : (commandWord cmd).head? ≠ some slash := fun hh => hno (mem_of_head? hh)
      simp [namedPath, hhead, hno] at hpath
    have hresolve : ∀ h, (resolveExecPath cwd (commandWord cmd)).run willing h =
        (namedPath cwd cmd, []) := fun h => run_resolveExecPath_slash willing h hslash
    have hrun := hsound willing [] (plainShell cwd) [] fdInherit fdInherit fdInherit rfl
    simp only [GuardSound, canonicalCommand_fst] at hrun
    rw [trace_execExternalWithFds] at hrun
    obtain ⟨hexec, hreport⟩ := hrun
    have hcwd' : (plainShell cwd).cwd = cwd := rfl
    simp only [hcwd', hresolve, hpath, nil_append] at hexec hreport
    constructor
    · intro hout hpre
      rw [if_pos hpre] at hreport
      exact hreport (by simp) path rfl hout
    · intro hin
      by_contra hpre
      rw [if_neg hpre] at hexec
      obtain ⟨vars, hmem⟩ := @exec_mem_launch cwd (commandWord cmd) (canonicalCommand cmd []).2 path
        ([] ++ []) hcwd (commandWord_spec cmd).1
      exact hexec _ _ _ _ _ _ hmem hin
  · rintro hmatch env h sh arg stdin stdout stderr rfl
    simp only [GuardSound, canonicalCommand_fst]
    rw [trace_execExternalWithFds]
    have hemits := (emits_resolveExecPath sh.cwd (commandWord cmd)).run env h
    have hcases := @resolved_cases env h sh.cwd cmd
    generalize (resolveExecPath sh.cwd (commandWord cmd)).run env h = r at *
    obtain ⟨resolved, stats⟩ := r
    cases resolved with
    | none =>
      refine ⟨fun path a e i o r hm => ?_, fun _ path hp => absurd hp (by simp)⟩
      obtain ⟨q, hq⟩ := hemits _ (by simpa using hm)
      exact absurd hq (by simp)
    | some path =>
      -- either way the raw test and the kernel agree on this path
      have hagree : (OutsideSystem path → ¬ systemPrefix <+: path) ∧
          (InSystem path → systemPrefix <+: path) := by
        rcases hcases rfl with hnamed | happs
        · exact hmatch path hnamed
        · obtain ⟨hin, hpre⟩ := apps_not_system happs
          exact ⟨fun _ => hpre, fun hin' => absurd hin' hin⟩
      by_cases hpre : systemPrefix <+: path
      · simp only [if_pos hpre]
        refine ⟨fun q a e i o r hm => ?_, fun _ q hq hout => ?_⟩
        · rcases mem_append.1 hm with hm | hm
          · obtain ⟨p, hp⟩ := hemits _ hm
            exact absurd hp (by simp)
          · exact absurd hm (by simp)
        · obtain rfl : path = q := by simpa using hq
          exact hagree.1 hout hpre
      · simp only [if_neg hpre]
        have hl := (emits_launch sh (commandWord cmd) (canonicalCommand cmd arg).2 path stdin
          stdout stderr).run env (h ++ stats)
        refine ⟨fun q a e i o r hm hin => ?_, fun hm => ?_⟩
        · rcases mem_append.1 hm with hm | hm
          · obtain ⟨p, hp⟩ := hemits _ hm
            exact absurd hp (by simp)
          · rcases hl _ hm with hk | ⟨vars, hc⟩
            · exact hk
            · obtain ⟨rfl, -⟩ := Call.execPathvIo.inj hc
              exact hpre (hagree.2 hin)
        · rcases mem_append.1 hm with hm | hm
          · obtain ⟨p, hp⟩ := hemits _ hm
            exact absurd hp (by simp)
          · rcases hl _ hm with hk | ⟨vars, hc⟩
            · exact absurd hk id
            · exact absurd hc (by simp)

/-- For the word `/shell/apps/uname` the test matches. -/
theorem exec_guard_uname : [slash].length < pathMax ∧
    ((∀ (env : ShellEnv) h sh arg stdin stdout stderr, sh.cwd = [slash] →
      GuardSound env h sh (lit "/shell/apps/uname") arg stdin stdout stderr) ↔
        GuardMatches [slash] (lit "/shell/apps/uname")) :=
  ⟨by decide, exec_guard_iff (lit "/shell/apps/uname") (by decide)⟩

/-- A second slash in front is enough to execute a protected image. -/
theorem exec_guard_double_slash : ¬ ∀ (env : ShellEnv) h sh cmd arg stdin stdout stderr,
    GuardSound env h sh cmd arg stdin stdout stderr := by
  intro hall
  have hsound := hall willing [] (plainShell [slash]) (lit "//system/x") [] fdInherit fdInherit
    fdInherit
  have hin : InSystem (lit "//system/x.elf") :=
    ⟨[systemName, lit "x.elf"], by decide, rfl⟩
  have hmem : Call.execPathvIo (lit "//system/x.elf") []
      (lit "PWD=/;CMD=//system/x;LAUNCHER=/shell/apps/shell.elf;USER=;HOME=;ROLE=user")
      fdInherit fdInherit fdInherit ∈
        ((execExternalWithFds (plainShell [slash]) (lit "//system/x") [] fdInherit fdInherit
          fdInherit).run willing []).2 := by
    decide
  exact hsound.1 _ _ _ _ _ _ hmem hin

end Cleonos.Shell
