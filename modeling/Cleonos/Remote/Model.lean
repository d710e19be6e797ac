import Cleonos.Vim.Model
import Cleonos.Kernel.Paths
import Cleonos.Lib.Words

/-!
# Commands from the network

`wc_exec_command` of `webconsole_main.c` and the part of `rshd_main.c` that runs a command line,
over the file tree of the kernel.
-/

namespace Cleonos.Remote

open List

section

open Libc (isspace)
open LexicalPath (slash dot)
open Kernel (statType)
open Path (ushResolvePath)
open Vim (ushCopy ushTrimLine)

/-- What the kernel has at its paths. -/
abbrev Tree : Type := FileTree (List UInt8)

def cmdMax : ℕ := 32
def argMax : ℕ := 160
def lineMax : ℕ := 192
def pathMax : ℕ := 192

/-! ## cmd_runtime.c -/

/-- `ush_parse_line` into buffers of `n` and `m` bytes. -/
def ushParseLine (line : List UInt8) (n m : ℕ) : List UInt8 × List UInt8 :=
  let text := (cstr line).dropWhile isspace
  ((text.takeWhile (! isspace ·)).take (n - 1),
    ((text.dropWhile (! isspace ·)).dropWhile isspace).take (m - 1))

def elfSuffix : List UInt8 := lit ".elf"

/-- The suffix behind a path that does not have it, in a buffer of `n` bytes. -/
def withElf (n : ℕ) (path : List UInt8) : Option (List UInt8) :=
  if elfSuffix <:+ path then some path
  else if path.length + elfSuffix.length < n then some (path ++ elfSuffix)
  else none

def execDirs : List (List UInt8) :=
  [lit "/shell/apps/", lit "/shell/apps/uwm/", lit "/shell/apps/inputm/"]

/-- The candidate of a directory. -/
def candidateIn (arg dir : List UInt8) : Option (List UInt8) :=
  if dir.length + arg.length < pathMax then withElf pathMax (dir ++ arg) else none

/-- The loop over the directories; `fallback` is the first candidate. -/
def searchDirs (tree : Tree) (arg : List UInt8) :
    Option (List UInt8) → List (List UInt8) → Option (List UInt8)
  | fallback, [] => some (fallback.getD [])
  | fallback, dir :: dirs =>
    match candidateIn arg dir with
    | none => none
    | some candidate =>
      if statType tree candidate = 1 then some candidate
      else searchDirs tree arg (some (fallback.getD candidate)) dirs

/-- `ush_resolve_exec_path`; `none` for 0. -/
def ushResolveExecPath (tree : Tree) (cwd arg : List UInt8) : Option (List UInt8) :=
  if arg.headD 0 = 0 then none
  else if arg.headD 0 = slash then withElf pathMax (ushCopy pathMax arg)
  else if slash ∈ cstr arg then (ushResolvePath cwd arg (fun _ => 0) pathMax).bind (withElf pathMax)
  else searchDirs tree (cstr arg) none execDirs

def ushPathIsUnderSystem (path : List UInt8) : Bool :=
  decide (lit "/system" <+: path) && (path.getD 7 0 == 0 || path.getD 7 0 == slash)

/-- A call of `cleonos_sys_exec_pathv_io`. -/
structure ExecCall where
  path : List UInt8
  arg : List UInt8
  env : List UInt8
  deriving DecidableEq, Repr

/-- Which of the calls in front of it succeed: opening the file for the output, and writing the
context of the command. -/
structure Answers where
  openOutput : Bool
  writeCtx : Bool
  deriving DecidableEq, Repr

/-- `snprintf` of the environment into a buffer of `n` bytes. -/
def envLine (n : ℕ) (cwd cmd launcher : List UInt8) : List UInt8 :=
  (lit "PWD=" ++ cwd ++ lit ";CMD=" ++ cmd ++ lit ";LAUNCHER=/shell/apps/" ++ launcher ++
    lit ";USH_REMOTE=1").take (n - 1)

def wcSafePath (path : List UInt8) : Bool :=
  path.headD 0 == slash && decide (92 ∉ cstr path) && decide (¬ [dot, dot] <:+: cstr path)

def wcExecCommand (a : Answers) (tree : Tree) (cmdline cwd : List UInt8) : Option ExecCall :=
  let cwd :=
    if cwd.headD 0 = slash ∧ wcSafePath cwd = true ∧ statType tree (cstr cwd) = 2 then
      ushCopy pathMax cwd
    else [slash]
  let line := ushTrimLine (ushCopy lineMax cmdline)
  if line = [] then none
  else
    let (cmd, arg) := ushParseLine line cmdMax argMax
    let arg := ushTrimLine arg
    if cmd = lit "pwd" ∨ cmd = lit "cd" ∨ cmd = lit "help" then none
    else
      match ushResolveExecPath tree cwd cmd with
      | none => none
      | some path =>
        if statType tree path ≠ 1 then none
        else if ushPathIsUnderSystem path = true then none
        else if a.openOutput = false ∨ a.writeCtx = false then none
        else some ⟨path, arg, envLine (pathMax * 2 + cmdMax + 128) cwd cmd (lit "webconsole.elf")⟩

def rshdExecExternal (a : Answers) (tree : Tree) (cwd cmd arg : List UInt8) : Option ExecCall :=
  if cmd.headD 0 = 0 then none
  else
    match ushResolveExecPath tree cwd cmd with
    | none => none
    | some path =>
      if statType tree path ≠ 1 then none
      else if a.openOutput = false ∨ a.writeCtx = false then none
      else some ⟨path, arg, envLine (pathMax * 2 + cmdMax + 96) cwd cmd (lit "rshd.elf")⟩

/-- Whether `rshd_handle_builtin` takes a command. -/
def isBuiltin (cmd : List UInt8) : Bool :=
  cmd == lit "exit" || cmd == lit "quit" || cmd == lit "pwd" || cmd == lit "cd" ||
    cmd == lit "help"

/-- A round of `rshd_handle_client` with a line that has been received. -/
def rshdExecLine (a : Answers) (tree : Tree) (line cwd : List UInt8) : Option ExecCall :=
  let line := ushTrimLine line
  if line = [] then none
  else
    let (cmd, arg) := ushParseLine line cmdMax argMax
    if isBuiltin cmd = true then none
    else rshdExecExternal a tree cwd cmd (ushTrimLine arg)

end

open LexicalPath
open Libc (isspace)
open Kernel (kernelPath statType)
open Path (ushResolvePath ushResolvePath_eq joined)
open Vim (ushCopy ushTrimLine)
open Words (word)

variable {a : Answers} {tree : Tree} {cwd line w path c t : List UInt8} {n m : ℕ}

/-- The normal form of the path lies under `/system`. -/
def Protected (path : List UInt8) : Prop := ∃ rest, kernelPath path = some (lit "system" :: rest)

def Image (tree : Tree) (path : List UInt8) : Prop := Protected path ∧ statType tree path = 1

/-- The command word of a line. -/
def commandWord (line : List UInt8) : List UInt8 := (word isspace (cstr line)).take (cmdMax - 1)

def addElf (path : List UInt8) : List UInt8 :=
  if elfSuffix <:+ path then path else path ++ elfSuffix

/-- The path that a word denotes. -/
def spelled (cwd w : List UInt8) : List UInt8 :=
  addElf (if w.head? = some slash then w
    else if slash ∈ w then render (normalise (joined cwd w))
    else lit "/shell/apps/" ++ w)

/-- The word denotes no protected image, or the command fails in front of the call, or a path on
the way to the image is too long. -/
def RshdSafe (a : Answers) (tree : Tree) (line cwd : List UInt8) : Prop :=
  ¬ Image tree (spelled cwd (commandWord line)) ∨ a.openOutput = false ∨ a.writeCtx = false ∨
    ((commandWord line).head? ≠ some slash ∧ ¬ Fits pathMax [] (joined cwd (commandWord line)))

/-- The word denotes no protected image, or the command fails in front of the call, or the word is
not absolute, or it has `/system/` in front, literally. -/
def WebSafe (a : Answers) (tree : Tree) (line : List UInt8) : Prop :=
  ¬ Image tree (addElf (commandWord line)) ∨ a.openOutput = false ∨ a.writeCtx = false ∨
    (commandWord line).head? ≠ some slash ∨ lit "/system/" <+: commandWord line

theorem length_commandWord_lt (line : List UInt8) : (commandWord line).length < cmdMax := by
  have hlen := length_take_le (cmdMax - 1) (word isspace (cstr line))
  rw [commandWord]
  simp only [cmdMax] at hlen ⊢
  omega

theorem nul_notMem_commandWord (line : List UInt8) : (0 : UInt8) ∉ commandWord line := by
  intro h
  exact notMem_cstr line (Words.word_subset (mem_of_mem_take h))

theorem nul_notMem_ushTrimLine (line : List UInt8) : (0 : UInt8) ∉ ushTrimLine line := by
  intro h
  exact notMem_cstr line ((dropWhile_suffix _).subset ((List.rdropWhile_prefix _ _).subset h))

theorem ushParseLine_fst (line : List UInt8) :
    (ushParseLine (ushTrimLine line) cmdMax m).1 = commandWord line := by
  have hword : word isspace (ushTrimLine line) = word isspace (cstr line) := by
    rw [ushTrimLine, Words.word_rdropWhile (dropWhile_idempotent _ _), Words.word_dropWhile]
  rw [commandWord, ← hword, ushParseLine]
  simp only [cstr_of_notMem (nul_notMem_ushTrimLine line)]
  rfl

theorem commandWord_of_blank (h : ushTrimLine line = []) : commandWord line = [] := by
  rw [← @ushParseLine_fst 0, h]
  rfl

theorem withElf_eq_some (h : withElf n path = some t) : t = addElf path := by
  rw [withElf] at h
  rw [addElf]
  split at h
  · next hs => rw [if_pos hs, Option.some.inj h]
  · next hs =>
    split at h
    · rw [if_neg hs, Option.some.inj h]
    · cases h

theorem withElf_of_length (h : (addElf path).length < n) : withElf n path = some (addElf path) := by
  rw [addElf] at h ⊢
  rw [withElf]
  split
  · rfl
  · next hs =>
    rw [if_neg hs, length_append] at h
    rw [if_pos h]

theorem suffix_addElf (path : List UInt8) : elfSuffix <:+ addElf path := by
  rw [addElf]
  split
  · assumption
  · exact suffix_append _ _

theorem prefix_addElf (path : List UInt8) : path <+: addElf path := by
  rw [addElf]
  split
  · exact prefix_refl _
  · exact prefix_append _ _

theorem nul_notMem_addElf (h : (0 : UInt8) ∉ path) : (0 : UInt8) ∉ addElf path := by
  have helf : (0 : UInt8) ∉ elfSuffix := by decide
  rw [addElf]
  split
  · exact h
  · intro hmem
    rcases mem_append.1 hmem with hmem | hmem
    · exact h hmem
    · exact helf hmem

theorem Protected.components (h : Protected path) :
    ∃ rest, (components path).filter (· ≠ [dot]) = lit "system" :: rest := by
  obtain ⟨rest, hpath⟩ := h
  rw [kernelPath] at hpath
  split at hpath
  · exact ⟨rest, Option.some.inj hpath⟩
  · cases hpath

theorem Protected.length_lt (h : Protected path) : path.length < pathMax := by
  obtain ⟨rest, hpath⟩ := h
  rw [kernelPath] at hpath
  split at hpath
  · next hs => exact hs.2.1
  · cases hpath

theorem Protected.first (h : Protected (slash :: (c ++ slash :: t))) (hne : c ≠ [])
    (hdot : c ≠ [dot]) (hslash : slash ∉ c) : c = lit "system" := by
  obtain ⟨rest, hrest⟩ := h.components
  rw [components_slash_cons, components_append_slash, components_of_notMem hne hslash,
    singleton_append, filter_cons_of_pos (by simpa using hdot)] at hrest
  exact (List.cons.inj hrest).1

theorem Protected.only (h : Protected (slash :: c)) (hslash : slash ∉ c) : c = lit "system" := by
  obtain ⟨rest, hrest⟩ := h.components
  by_cases hne : c = []
  · subst hne
    cases hrest
  · rw [components_slash_cons, components_of_notMem hne hslash] at hrest
    by_cases hdot : c = [dot]
    · simp [hdot] at hrest
    · rw [filter_cons_of_pos (by simpa using hdot)] at hrest
      exact (List.cons.inj hrest).1

theorem not_protected_apps (t : List UInt8) : ¬ Protected (lit "/shell/apps" ++ slash :: t) := by
  intro h
  have hshell : lit "shell" = lit "system" :=
    Protected.first (t := lit "apps" ++ slash :: t) h (by decide) (by decide) (by decide)
  exact absurd hshell (by decide)

theorem not_protected_nil : ¬ Protected [] := by
  intro h
  obtain ⟨rest, hrest⟩ := h.components
  cases hrest

theorem ushPathIsUnderSystem_of_starts (h : lit "/system/" <+: path) :
    ushPathIsUnderSystem path = true := by
  obtain ⟨t, rfl⟩ := h
  have hstarts : lit "/system" <+: lit "/system/" ++ t := ⟨slash :: t, rfl⟩
  rw [ushPathIsUnderSystem, Bool.and_eq_true, decide_eq_true_eq]
  exact ⟨hstarts, rfl⟩

theorem ushPathIsUnderSystem_iff (hnul : (0 : UInt8) ∉ path) (helf : elfSuffix <:+ path) :
    ushPathIsUnderSystem path = true ↔ lit "/system/" <+: path := by
  refine ⟨?_, ushPathIsUnderSystem_of_starts⟩
  · rw [ushPathIsUnderSystem, Bool.and_eq_true, decide_eq_true_eq, Bool.or_eq_true, beq_iff_eq,
      beq_iff_eq]
    rintro ⟨⟨t, rfl⟩, hnext⟩
    cases t with
    | nil => exact absurd helf (by decide)
    | cons x t =>
      have hx : (lit "/system" ++ x :: t).getD 7 0 = x := rfl
      rw [hx] at hnext
      rcases hnext with hzero | rfl
      · exact absurd (by simp [hzero]) hnul
      · exact ⟨t, rfl⟩

theorem prefix_addElf_iff : lit "/system/" <+: addElf w ↔ lit "/system/" <+: w := by
  constructor
  · intro h
    rw [addElf] at h
    split at h
    · exact h
    · rcases prefix_or_prefix_of_prefix h (prefix_append w elfSuffix) with hw | ⟨x, hx⟩
      · exact hw
      · rw [← hx, prefix_append_right_inj] at h
        have hlast : (w ++ x).getLast? = some slash := by
          rw [hx]
          rfl
        cases hnil : x with
        | nil =>
          rw [← hx, hnil, append_nil]
        | cons y ys =>
          have hmem : slash ∈ x := by
            rw [List.getLast?_append_of_ne_nil _ (by simp [hnil])] at hlast
            exact mem_of_getLast? hlast
          exact absurd (h.subset hmem) (by decide)
  · intro h
    exact h.trans (prefix_addElf w)

theorem prefix_of_resolved {cs : List (List UInt8)} (hplain : ∀ d ∈ cs, Plain d)
    (h : Protected (addElf (render cs))) : lit "/system/" <+: addElf (render cs) := by
  match cs with
  | [] =>
    have hroot : Protected (slash :: elfSuffix) := h
    exact absurd (hroot.only (by decide)) (by decide)
  | [c] =>
    have hslash := (hplain c (by simp)).no_slash
    have hrender : render [c] = slash :: c := by simp [render]
    rw [hrender] at h
    rw [addElf] at h
    split at h
    · next helf =>
      obtain rfl := h.only hslash
      exact absurd helf (by decide)
    · have hname : c ++ elfSuffix = lit "system" := by
        refine h.only fun hmem => ?_
        rcases mem_append.1 hmem with hmem | hmem
        · exact hslash hmem
        · exact absurd hmem (by decide)
      have hsuffix : elfSuffix <:+ lit "system" := ⟨c, hname⟩
      exact absurd hsuffix (by decide)
  | c :: d :: ds =>
    have hc := hplain c (by simp)
    have hrender : render (c :: d :: ds) = slash :: (c ++ slash :: (d ++ slashed ds)) := by
      simp [render]
    obtain ⟨t, ht⟩ := prefix_addElf (render (c :: d :: ds))
    have hpath : addElf (render (c :: d :: ds)) =
        slash :: (c ++ slash :: (d ++ slashed ds ++ t)) := by
      rw [← ht, hrender]
      simp
    rw [hpath] at h ⊢
    obtain rfl := h.first hc.ne_nil hc.ne_dot hc.no_slash
    exact ⟨d ++ slashed ds ++ t, rfl⟩

theorem candidateIn_eq_some {dir : List UInt8} (h : candidateIn w dir = some path) :
    path = addElf (dir ++ w) := by
  rw [candidateIn] at h
  split at h
  · exact withElf_eq_some h
  · cases h

theorem not_protected_of_searchDirs {fallback : Option (List UInt8)} {dirs : List (List UInt8)}
    (hfallback : ¬ Protected (fallback.getD []))
    (hdirs : ∀ dir ∈ dirs, ¬ Protected (addElf (dir ++ w)))
    (h : searchDirs tree w fallback dirs = some path) : ¬ Protected path := by
  induction dirs generalizing fallback with
  | nil =>
    cases h
    exact hfallback
  | cons dir dirs ih =>
    rw [searchDirs] at h
    cases hc : candidateIn w dir with
    | none => simp [hc] at h
    | some candidate =>
      have hcandidate : ¬ Protected candidate := by
        rw [candidateIn_eq_some hc]
        exact hdirs dir (by simp)
      simp only [hc] at h
      split at h
      · cases h
        exact hcandidate
      · refine ih ?_ (fun dir hdir => hdirs dir (by simp [hdir])) h
        cases fallback with
        | none => exact hcandidate
        | some p => exact hfallback

theorem not_protected_execDirs (w : List UInt8) :
    ∀ dir ∈ execDirs, ¬ Protected (addElf (dir ++ w)) := by
  intro dir hdir
  have hfront : ∃ rest, dir = lit "/shell/apps" ++ slash :: rest := by
    simp only [execDirs, mem_cons, not_mem_nil, or_false] at hdir
    rcases hdir with rfl | rfl | rfl
    · exact ⟨[], rfl⟩
    · exact ⟨lit "uwm/", rfl⟩
    · exact ⟨lit "inputm/", rfl⟩
  obtain ⟨rest, rfl⟩ := hfront
  obtain ⟨t, ht⟩ := prefix_addElf ((lit "/shell/apps" ++ slash :: rest) ++ w)
  rw [← ht, append_assoc, append_assoc, cons_append]
  exact not_protected_apps _

theorem not_protected_bare (hhead : w.head? ≠ some slash) (hslash : slash ∉ w) :
    ¬ Protected (spelled cwd w) := by
  rw [spelled, if_neg hhead, if_neg hslash]
  exact not_protected_execDirs w _ (by simp [execDirs])

theorem spelled_of_resolve (hnul : (0 : UInt8) ∉ w) (hlen : w.length < cmdMax)
    (h : ushResolveExecPath tree cwd w = some path) (hprot : Protected path) :
    path = spelled cwd w ∧ (w.head? = some slash ∨ Fits pathMax [] (joined cwd w)) := by
  rw [ushResolveExecPath, ushResolvePath_eq, cstr_of_notMem hnul] at h
  split at h
  · cases h
  · split at h
    · next hzero hhead =>
      have hhead' : w.head? = some slash := by
        cases w with
        | nil => exact absurd rfl hzero
        | cons x t => exact congrArg some hhead
      have hcopy : ushCopy pathMax w = w := by
        rw [ushCopy, cstr_of_notMem hnul]
        refine take_of_length_le ?_
        simp only [pathMax, cmdMax] at hlen ⊢
        omega
      rw [hcopy] at h
      rw [spelled, if_pos hhead']
      exact ⟨withElf_eq_some h, .inl hhead'⟩
    · next hzero hhead =>
      have hhead' : w.head? ≠ some slash := by
        cases w with
        | nil => exact absurd rfl hzero
        | cons x t => simpa using hhead
      split at h
      · next hslash =>
        obtain ⟨p, hp, h⟩ := Option.bind_eq_some_iff.1 h
        split at hp
        · next hfits =>
          cases hp
          rw [spelled, if_neg hhead', if_pos hslash]
          exact ⟨withElf_eq_some h, .inr hfits⟩
        · cases hp
      · have hfallback : ¬ Protected ((none : Option (List UInt8)).getD []) := not_protected_nil
        exact absurd hprot (not_protected_of_searchDirs hfallback (not_protected_execDirs w) h)

theorem resolve_of_protected (hnul : (0 : UInt8) ∉ w) (hlen : w.length < cmdMax)
    (hprot : Protected (spelled cwd w))
    (hfits : w.head? = some slash ∨ Fits pathMax [] (joined cwd w)) :
    ushResolveExecPath tree cwd w = some (spelled cwd w) ∧ slash ∈ w := by
  have hroom := hprot.length_lt
  by_cases hhead : w.head? = some slash
  · obtain ⟨t, rfl⟩ : ∃ t, w = slash :: t := by
      cases w with
      | nil => cases hhead
      | cons x t => exact ⟨t, by rw [Option.some.inj hhead]⟩
    have hcopy : ushCopy pathMax (slash :: t) = slash :: t := by
      rw [ushCopy, cstr_of_notMem hnul]
      refine take_of_length_le ?_
      simp only [pathMax, cmdMax] at hlen ⊢
      omega
    have hzero : (slash :: t).headD 0 ≠ 0 := by
      rw [headD_cons]
      decide
    rw [spelled, if_pos hhead] at hroom ⊢
    rw [ushResolveExecPath, if_neg hzero, if_pos (headD_cons ..), hcopy,
      withElf_of_length hroom]
    exact ⟨rfl, by simp⟩
  · have hslash : slash ∈ w := by
      by_contra hno
      exact not_protected_bare hhead hno hprot
    have hne : w ≠ [] := ne_nil_of_mem hslash
    obtain ⟨x, t, rfl⟩ := exists_cons_of_ne_nil hne
    have hzero : (x :: t).headD 0 ≠ 0 := by
      intro hx
      rw [headD_cons] at hx
      exact hnul (hx ▸ mem_cons_self)
    have hhead' : (x :: t).headD 0 ≠ slash := by simpa using hhead
    rw [spelled, if_neg hhead, if_pos hslash] at hroom ⊢
    rw [ushResolveExecPath, if_neg hzero, if_neg hhead', cstr_of_notMem hnul, if_pos hslash,
      ushResolvePath_eq, if_pos (hfits.resolve_left hhead), Option.bind_some,
      withElf_of_length hroom]
    exact ⟨rfl, hslash⟩

/-! ## The services -/

theorem isBuiltin_of_slash (h : slash ∈ w) : isBuiltin w = false := by
  have hne : ∀ name, slash ∉ name → (w == name) = false := by
    intro name hname
    rw [beq_eq_false_iff_ne]
    intro hw
    exact hname (hw ▸ h)
  rw [isBuiltin, hne _ (by decide), hne _ (by decide), hne _ (by decide), hne _ (by decide),
    hne _ (by decide)]
  rfl

theorem rshdExecLine_spec {call : ExecCall} (h : rshdExecLine a tree line cwd = some call) :
    ushResolveExecPath tree cwd (commandWord line) = some call.path ∧
      statType tree call.path = 1 ∧ a.openOutput = true ∧ a.writeCtx = true := by
  rw [rshdExecLine] at h
  simp only [ushParseLine_fst] at h
  split at h
  · cases h
  · split at h
    · cases h
    · rw [rshdExecExternal] at h
      split at h
      · cases h
      · split at h
        · cases h
        · next hpath =>
          split at h
          · cases h
          · next hstat =>
            split at h
            · cases h
            · next hanswers =>
              cases h
              simp only [not_or, Bool.not_eq_false] at hanswers
              exact ⟨hpath, not_not.1 hstat, hanswers⟩

theorem rshdExecLine_of_resolve (hslash : slash ∈ commandWord line)
    (hpath : ushResolveExecPath tree cwd (commandWord line) = some path)
    (hstat : statType tree path = 1) (hopen : a.openOutput = true) (hwrite : a.writeCtx = true) :
    ∃ call, rshdExecLine a tree line cwd = some call ∧ call.path = path := by
  have hline : ushTrimLine line ≠ [] := by
    intro hblank
    rw [commandWord_of_blank hblank] at hslash
    cases hslash
  have hzero : (commandWord line).headD 0 ≠ 0 := by
    intro hz
    rw [ushResolveExecPath, if_pos hz] at hpath
    cases hpath
  rw [rshdExecLine]
  simp only [ushParseLine_fst]
  rw [if_neg hline, isBuiltin_of_slash hslash, if_neg (by simp), rshdExecExternal, if_neg hzero,
    hpath]
  simp [hstat, hopen, hwrite]

theorem wcExecCommand_spec {call : ExecCall} (h : wcExecCommand a tree line cwd = some call) :
    ∃ cwd', ushResolveExecPath tree cwd' (commandWord (ushCopy lineMax line)) = some call.path ∧
      statType tree call.path = 1 ∧ ushPathIsUnderSystem call.path = false ∧
      a.openOutput = true ∧ a.writeCtx = true := by
  rw [wcExecCommand] at h
  simp only [ushParseLine_fst] at h
  split at h
  · cases h
  · split at h
    · cases h
    · split at h
      · cases h
      · next hpath =>
        split at h
        · cases h
        · next hstat =>
          split at h
          · cases h
          · next hguard =>
            split at h
            · cases h
            · next hanswers =>
              cases h
              simp only [not_or, Bool.not_eq_false] at hanswers
              exact ⟨_, hpath, not_not.1 hstat, by simpa using hguard, hanswers⟩

theorem wcExecCommand_of_resolve (hslash : slash ∈ commandWord (ushCopy lineMax line))
    (hpath : ∀ cwd, ushResolveExecPath tree cwd (commandWord (ushCopy lineMax line)) = some path)
    (hstat : statType tree path = 1) (hguard : ushPathIsUnderSystem path = false)
    (hopen : a.openOutput = true) (hwrite : a.writeCtx = true) :
    ∃ call, wcExecCommand a tree line cwd = some call ∧ call.path = path := by
  have hline : ushTrimLine (ushCopy lineMax line) ≠ [] := by
    intro hblank
    rw [commandWord_of_blank hblank] at hslash
    cases hslash
  have hbuiltin : ¬ (commandWord (ushCopy lineMax line) = lit "pwd" ∨
      commandWord (ushCopy lineMax line) = lit "cd" ∨
      commandWord (ushCopy lineMax line) = lit "help") := by
    rintro (hw | hw | hw)
    · exact absurd (hw ▸ hslash) (by decide)
    · exact absurd (hw ▸ hslash) (by decide)
    · exact absurd (hw ▸ hslash) (by decide)
  rw [wcExecCommand]
  simp only [ushParseLine_fst]
  rw [if_neg hline, if_neg hbuiltin, hpath]
  simp [hstat, hguard, hopen, hwrite]

theorem rshd_never_protected_iff :
    (∀ call, rshdExecLine a tree line cwd = some call → ¬ Protected call.path) ↔
      RshdSafe a tree line cwd := by
  have hnul := nul_notMem_commandWord line
  have hlen := length_commandWord_lt line
  constructor
  · intro hnever
    by_contra hunsafe
    simp only [RshdSafe, not_or, not_not, not_and_or, Bool.not_eq_false] at hunsafe
    obtain ⟨⟨hprot, hstat⟩, hopen, hwrite, hfits⟩ := hunsafe
    obtain ⟨hpath, hslash⟩ := @resolve_of_protected tree cwd _ hnul hlen hprot hfits
    obtain ⟨call, hcall, hcallPath⟩ := rshdExecLine_of_resolve hslash hpath hstat hopen hwrite
    rw [← hcallPath] at hprot
    exact hnever call hcall hprot
  · intro hsafe call hcall hprot
    obtain ⟨hpath, hstat, hopen, hwrite⟩ := rshdExecLine_spec hcall
    obtain ⟨hspelled, hfits⟩ := spelled_of_resolve hnul hlen hpath hprot
    rw [hspelled] at hprot hstat
    rcases hsafe with himage | hno | hno | ⟨hhead, hno⟩
    · exact himage ⟨hprot, hstat⟩
    · rw [hopen] at hno
      cases hno
    · rw [hwrite] at hno
      cases hno
    · exact hno (hfits.resolve_left hhead)

theorem web_never_protected_iff :
    (∀ call, wcExecCommand a tree line cwd = some call → ¬ Protected call.path) ↔
      WebSafe a tree (ushCopy lineMax line) := by
  have hnul := nul_notMem_commandWord (ushCopy lineMax line)
  have hlen := length_commandWord_lt (ushCopy lineMax line)
  constructor
  · intro hnever
    by_contra hunsafe
    simp only [WebSafe, not_or, not_not, Bool.not_eq_false] at hunsafe
    obtain ⟨⟨hprot, hstat⟩, hopen, hwrite, hhead, hstarts⟩ := hunsafe
    have hspelled : ∀ cwd, spelled cwd (commandWord (ushCopy lineMax line)) =
        addElf (commandWord (ushCopy lineMax line)) := by
      intro cwd
      rw [spelled, if_pos hhead]
    have hresolve : ∀ cwd, ushResolveExecPath tree cwd (commandWord (ushCopy lineMax line)) =
        some (addElf (commandWord (ushCopy lineMax line))) ∧
          slash ∈ commandWord (ushCopy lineMax line) := by
      intro cwd
      have hprot' := hprot
      rw [← hspelled cwd] at hprot'
      have hres := @resolve_of_protected tree cwd _ hnul hlen hprot' (.inl hhead)
      rwa [hspelled] at hres
    have hguard : ushPathIsUnderSystem (addElf (commandWord (ushCopy lineMax line))) = false := by
      rw [← Bool.not_eq_true, ushPathIsUnderSystem_iff (nul_notMem_addElf hnul) (suffix_addElf _),
        prefix_addElf_iff]
      exact hstarts
    obtain ⟨call, hcall, hpath⟩ := @wcExecCommand_of_resolve a tree cwd line _ (hresolve cwd).2
      (fun cwd => (hresolve cwd).1) hstat hguard hopen hwrite
    rw [← hpath] at hprot
    exact hnever call hcall hprot
  · intro hsafe call hcall hprot
    obtain ⟨cwd', hpath, hstat, hguard, hopen, hwrite⟩ := wcExecCommand_spec hcall
    obtain ⟨hspelled, hfits⟩ := spelled_of_resolve hnul hlen hpath hprot
    rw [hspelled] at hprot hstat hguard
    rw [← Bool.not_eq_true] at hguard
    by_cases hhead : (commandWord (ushCopy lineMax line)).head? = some slash
    · rw [spelled, if_pos hhead] at hprot hstat hguard
      rcases hsafe with himage | hno | hno | hno | hstarts
      · exact himage ⟨hprot, hstat⟩
      · rw [hopen] at hno
        cases hno
      · rw [hwrite] at hno
        cases hno
      · exact hno hhead
      · exact hguard (ushPathIsUnderSystem_of_starts (prefix_addElf_iff.2 hstarts))
    · have hslash : slash ∈ commandWord (ushCopy lineMax line) := by
        by_contra hno
        exact not_protected_bare hhead hno hprot
      rw [spelled, if_neg hhead, if_pos hslash] at hprot hguard
      exact hguard (ushPathIsUnderSystem_of_starts (prefix_of_resolved (plain_normalise _) hprot))

/-- Neither service runs a protected image, exactly under its condition. -/
theorem never_protected_iff (tree : Tree) (line cwd : List UInt8) :
    (∀ a, (∀ call, rshdExecLine a tree line cwd = some call →
        ¬ Protected call.path) ↔ RshdSafe a tree line cwd) ∧
      ∀ a, (∀ call, wcExecCommand a tree line cwd = some call →
        ¬ Protected call.path) ↔ WebSafe a tree (ushCopy lineMax line) := by
  constructor
  · intro a
    exact rshd_never_protected_iff
  · intro a
    exact web_never_protected_iff

/-- A tree with one file, an image at `/system/drivers/ttydrv.elf`. -/
def driverTree : Tree where
  node k :=
    if k = [] ∨ k = [lit "system"] ∨ k = [lit "system", lit "drivers"] then some .dir
    else if k = [lit "system", lit "drivers", lit "ttydrv.elf"] then some (.file [])
    else none
  root := rfl
  parent := by
    intro k c h
    have hdrop : (k ++ [c]).dropLast = k := List.dropLast_concat
    split at h
    · next hk =>
      rcases hk with hk | hk | hk
      · simp at hk
      · rw [← hdrop, hk]
        rfl
      · rw [← hdrop, hk]
        rfl
    · split at h
      · next hk =>
        rw [← hdrop, hk]
        rfl
      · exact absurd rfl h

/-- The remote shell runs `/system/drivers/ttydrv`, and the web console runs the same word with a
second slash in front. -/
theorem not_never_protected :
    (¬ ∀ a tree line cwd call, rshdExecLine a tree line cwd = some call →
        ¬ Protected call.path) ∧
      ¬ ∀ a tree line cwd call, wcExecCommand a tree line cwd = some call →
        ¬ Protected call.path := by
  constructor
  · intro h
    have hprot : Protected (lit "/system/drivers/ttydrv.elf") :=
      ⟨[lit "drivers", lit "ttydrv.elf"], by decide⟩
    have hcall : rshdExecLine ⟨true, true⟩ driverTree (lit "/system/drivers/ttydrv") [slash] =
        some ⟨lit "/system/drivers/ttydrv.elf", [],
          envLine (pathMax * 2 + cmdMax + 96) [slash] (lit "/system/drivers/ttydrv")
            (lit "rshd.elf")⟩ := by
      decide +kernel
    exact h _ _ _ _ _ hcall hprot
  · intro h
    have hprot : Protected (lit "//system/drivers/ttydrv.elf") :=
      ⟨[lit "drivers", lit "ttydrv.elf"], by decide⟩
    have hcall : wcExecCommand ⟨true, true⟩ driverTree (lit "//system/drivers/ttydrv") [slash] =
        some ⟨lit "//system/drivers/ttydrv.elf", [],
          envLine (pathMax * 2 + cmdMax + 128) [slash] (lit "//system/drivers/ttydrv")
            (lit "webconsole.elf")⟩ := by
      decide +kernel
    exact h _ _ _ _ _ hcall hprot

end Cleonos.Remote
