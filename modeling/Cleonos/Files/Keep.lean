import Cleonos.Files.Model

/-!
# Nothing is lost by copying and moving

A source and a destination that the kernel tells apart are safe, whatever fails.
-/

namespace Cleonos.Files

open List Option
open Function (update update_eq_self update_of_ne update_self)
open LexicalPath
open Libc (isspace)
open Kernel (kernelPath)
open Path (ushResolvePath ushResolvePath_eq joined)
open Words (word behind word_ne_nil_iff length_word_le length_behind_le)

variable {files files' : Nodes} {cwd arg path src dst c : List UInt8} {key : Key}

/-! ## Paths -/

/-- The path that a word denotes. -/
def denoted (cwd text : List UInt8) : Key := normalise (joined cwd text)

/-- The paths that the two words of a command denote. -/
def source (cwd arg : List UInt8) : Key := denoted cwd (word isspace (cstr arg))
def dest (cwd arg : List UInt8) : Key := denoted cwd (word isspace (behind isspace (cstr arg)))

theorem kernelPath_of_resolve {text : List UInt8}
    (h : ushResolvePath cwd text (fun _ => 0) pathMax = some path) :
    kernelPath path = some (denoted cwd text) := by
  rw [ushResolvePath_eq] at h
  split at h
  · next hfits =>
    cases h
    have hplain : ∀ d ∈ normalise (joined cwd text), Plain d := plain_normalise _
    have hdots : [dot, dot] ∉ components (render (normalise (joined cwd text))) := by
      rw [components_render hplain]
      exact fun hd => (hplain _ hd).ne_dotdot rfl
    have hlt := hfits (joined cwd text) ((mem_inits _ _).2 (prefix_refl _))
    rw [kernelPath, if_pos ⟨head?_render _, hlt, hdots⟩, components_render hplain, denoted]
    refine congrArg some (filter_eq_self.2 fun d hd => ?_)
    simpa using (hplain d hd).ne_dot
  · cases h

theorem ushSplitTwoArgs_eq_some {n m : ℕ} {args : List UInt8 × List UInt8}
    (h : ushSplitTwoArgs arg n m = some args) :
    args = ((word isspace (cstr arg)).take (n - 1),
      (word isspace (behind isspace (cstr arg))).take (m - 1)) := by
  rw [ushSplitTwoArgs] at h
  simp only at h
  split at h
  · cases h
  · split at h
    · cases h
    · split at h
      · cases h
        rw [word, word, Words.dropWhile_behind]
        rfl
      · cases h

theorem twoPaths_eq_some {paths : List UInt8 × List UInt8} (harg : (cstr arg).length < argMax)
    (h : twoPaths cwd arg = some paths) :
    kernelPath paths.1 = some (source cwd arg) ∧ kernelPath paths.2 = some (dest cwd arg) := by
  rw [twoPaths] at h
  split at h
  · cases h
  · obtain ⟨args, hargs, h⟩ := bind_eq_some_iff.1 h
    obtain ⟨src, hsrc, h⟩ := bind_eq_some_iff.1 h
    obtain ⟨dst, hdst, rfl⟩ := map_eq_some_iff.1 h
    have hword := length_word_le isspace (cstr arg)
    have hword' := length_word_le isspace (behind isspace (cstr arg))
    have hbehind := length_behind_le isspace (cstr arg)
    simp only [argMax] at harg
    rw [ushSplitTwoArgs_eq_some hargs] at hsrc hdst
    simp only [pathMax] at hsrc hdst
    rw [take_of_length_le (by omega)] at hsrc hdst
    exact ⟨kernelPath_of_resolve hsrc, kernelPath_of_resolve hdst⟩

theorem Nodes.at_eq (h : kernelPath path = some key) : files.at path = files key := by
  rw [Nodes.at, h]
  rfl

theorem Nodes.set_eq (h : kernelPath path = some key) (n : Option Node) :
    files.set path n = update files key n := by
  rw [Nodes.set, h]

/-- After a success the destination holds what the source held, unless it is a device, and after a
failure the source still holds it. -/
def CopyKept (files : Nodes) (src dst : Key) (r : Bool × Nodes) : Prop :=
  ∀ c, files src = some (.file c) →
    (r.1 = true → files dst = some .device ∨ r.2 dst = some (.file c)) ∧
      (r.1 = false → r.2 src = some (.file c))

theorem CopyKept.of_failed {k k' : Key} : CopyKept files k k' (false, files) := by
  intro c hfile
  constructor
  · intro h
    cases h
  · intro _
    exact hfile

/-- A move moreover makes away with the source only if it is another file. -/
def MoveKept (files : Nodes) (src dst : Key) (r : Bool × Nodes) : Prop :=
  CopyKept files src dst r ∧
    ∀ c, files src = some (.file c) → r.1 = true → r.2 src = none → src ≠ dst

/-- The words denote different files, or the file is empty, or the command stops before the
destination is opened. -/
def CopySafe (a : CopyAnswers) (files : Nodes) (cwd arg : List UInt8) : Prop :=
  source cwd arg ≠ dest cwd arg ∨ (∀ c, files (source cwd arg) = some (.file c) → c = []) ∨
    twoPaths cwd arg = none ∨ a.stat = false ∨ a.openSource = false ∨ a.openDest = false

/-- The words denote different files, or the command stops before the destination is written, or
the write leaves the file as it was, or the file is written but not removed. -/
def MoveSafe (a : MoveAnswers) (files : Nodes) (cwd arg : List UInt8) : Prop :=
  source cwd arg ≠ dest cwd arg ∨ twoPaths cwd arg = none ∨ a.stat = false ∨ a.size = false ∨
    ∀ c, files (source cwd arg) = some (.file c) →
      copyMax < c.length ∨ a.read < c.length ∨
        (a.write = false ∧ (a.torn = none ∨ a.torn = some c)) ∨ (a.write = true ∧ a.remove = false)

section Copy

variable {k k' : Key} {n : Node} {a : CopyAnswers}

theorem writeLoop_spec {answers : List (Option ℕ)} {bytes : List UInt8}
    (hdst : kernelPath dst = some k') (hn : files k' = some n) :
    (∀ key, key ≠ k' → (writeLoop dst answers bytes files).2 key = files key) ∧
      ((writeLoop dst answers bytes files).1 = true →
        (writeLoop dst answers bytes files).2 k' = some (n.extend bytes)) := by
  induction answers generalizing bytes files n with
  | nil =>
    cases bytes with
    | nil => simp [writeLoop, hn]
    | cons b bytes => simp [writeLoop]
  | cons answer answers ih =>
    cases bytes with
    | nil => simp [writeLoop, hn]
    | cons b bytes =>
      match answer with
      | none => simp [writeLoop]
      | some 0 => simp [writeLoop]
      | some (j + 1) =>
        have hstep : writeBytes files dst ((b :: bytes).take (j + 1)) =
            update files k' (some (n.extend ((b :: bytes).take (j + 1)))) := by
          rw [writeBytes, Nodes.set_eq hdst, Nodes.at_eq hdst, hn]
          rfl
        have hrest := @ih
          (update files k' (some (n.extend ((b :: bytes).take (j + 1)))))
          (n.extend ((b :: bytes).take (j + 1))) ((b :: bytes).drop (j + 1))
          (update_self _ _ _)
        have hloop : writeLoop dst (some (j + 1) :: answers) (b :: bytes) files =
            writeLoop dst answers ((b :: bytes).drop (j + 1))
              (writeBytes files dst ((b :: bytes).take (j + 1))) := rfl
        rw [hloop, hstep]
        constructor
        · intro key hkey
          rw [hrest.1 key hkey, update_of_ne hkey]
        · intro hok
          rw [hrest.2 hok, Node.extend_extend, take_append_drop]

theorem copyLoop_spec {rounds : List CopyRound} {offset : ℕ} (hsrc : kernelPath src = some k)
    (hdst : kernelPath dst = some k') (hne : k ≠ k') (hfile : files k = some (.file c))
    (hn : files k' = some (n.extend (c.take offset))) :
    (copyLoop src dst rounds offset files).2 k = some (.file c) ∧
      ((copyLoop src dst rounds offset files).1 = true →
        (copyLoop src dst rounds offset files).2 k' = some (n.extend c)) := by
  induction rounds generalizing files offset with
  | nil => simp [copyLoop, hfile]
  | cons round rounds ih =>
    rw [copyLoop, readAt, Nodes.at_eq hsrc, hfile]
    cases hread : round.read with
    | none => simp [hfile]
    | some j =>
      simp only [bind_some]
      cases hgot : (c.drop offset).take (min (max 1 j) copyBuf) with
      | nil =>
        have hend : c.drop offset = [] := by
          rcases take_eq_nil_iff.1 hgot with hzero | hnil
          · simp only [copyBuf] at hzero
            omega
          · exact hnil
        have hall : c.take offset = c := take_of_length_le (drop_eq_nil_iff.1 hend)
        rw [hall] at hn
        exact ⟨hfile, fun _ => hn⟩
      | cons b got =>
        obtain ⟨hother, hown⟩ := @writeLoop_spec files dst k' (n.extend (c.take offset))
          round.writes (b :: got) hdst hn
        have hfile' : (writeLoop dst round.writes (b :: got) files).2 k = some (.file c) := by
          rw [hother k hne, hfile]
        simp only
        split
        · next hfailed => exact ⟨hfile', fun h => by simp [hfailed] at h⟩
        · next hok =>
          rw [Bool.not_eq_false] at hok
          refine ih hfile' ?_
          have htake : c.take (offset + (b :: got).length) = c.take offset ++ (b :: got) := by
            rw [take_add, ← hgot, length_take, ← take_eq_take_min]
          rw [hown hok, Node.extend_extend, htake]

theorem openTrunc_eq_some {ok : Bool} (hdst : kernelPath dst = some k')
    (h : openTrunc ok files dst = some files') : ∃ n, files' = update files k' (some n) ∧
      (n = .file [] ∨ n = .device ∧ files k' = some .device) := by
  rw [openTrunc, Nodes.at_eq hdst, Nodes.set_eq hdst] at h
  split at h
  · cases h
  · split at h
    · cases h
    · next hdev =>
      cases h
      refine ⟨.device, ?_, .inr ⟨rfl, hdev⟩⟩
      rw [← hdev, update_eq_self]
    · cases h
      exact ⟨.file [], rfl, .inl rfl⟩

theorem openTrunc_file {ok : Bool} (hok : ok = true) (hdst : kernelPath dst = some k')
    (hfile : files k' = some (.file c)) :
    openTrunc ok files dst = some (update files k' (some (.file []))) := by
  rw [openTrunc, Nodes.at_eq hdst, Nodes.set_eq hdst, hfile, if_neg (by simp [hok])]

theorem copyLoop_empty {rounds : List CopyRound} (hsrc : kernelPath src = some k)
    (hfile : files k = some (.file [])) : (copyLoop src dst rounds 0 files).2 = files := by
  cases rounds with
  | nil => rfl
  | cons round rounds =>
    rw [copyLoop, readAt, Nodes.at_eq hsrc, hfile]
    cases round.read with
    | none => rfl
    | some j => simp

theorem cpCopyFile_of_ne (hsrc : kernelPath src = some k) (hdst : kernelPath dst = some k')
    (hne : k ≠ k') : CopyKept files k k' (cpCopyFile a files src dst) := by
  intro c hfile
  rw [cpCopyFile]
  split
  · simp [hfile]
  · split
    · simp [hfile]
    · split
      · simp [hfile]
      · next files' hopen =>
        obtain ⟨n, rfl, hn⟩ := openTrunc_eq_some hdst hopen
        have hfile' : update files k' (some n) k = some (.file c) := by
          rw [update_of_ne hne, hfile]
        have hnode : update files k' (some n) k' = some (n.extend (c.take 0)) := by
          rw [update_self, take_zero, Node.extend_nil]
        obtain ⟨hkeep, hdone⟩ :=
          @copyLoop_spec _ src dst c k k' n a.rounds 0 hsrc hdst hne hfile' hnode
        refine ⟨fun hok => ?_, fun _ => hkeep⟩
        rcases hn with rfl | ⟨-, hdev⟩
        · exact .inr (hdone hok)
        · exact .inl hdev

theorem cpCopyFile_self (hsrc : kernelPath src = some k) (hdst : kernelPath dst = some k)
    (hfile : files k = some (.file c)) :
    if a.stat = false ∨ a.openSource = false ∨ a.openDest = false then
      cpCopyFile a files src dst = (false, files)
    else (cpCopyFile a files src dst).2 k = some (.file []) := by
  rw [cpCopyFile, statType, Nodes.at_eq hsrc, hfile]
  by_cases hstat : a.stat = false
  · rw [if_pos (.inl hstat), if_pos hstat, if_pos (by decide)]
  by_cases hsource : a.openSource = false
  · simp [hstat, hsource]
  by_cases hopen : a.openDest = false
  · simp [hstat, hsource, hopen, openTrunc]
  · rw [Bool.not_eq_false] at hopen
    rw [openTrunc_file hopen hdst hfile]
    rw [if_neg (by simp [hstat, hsource, hopen]), if_neg (by simp [hstat]), if_neg hsource]
    simp only
    rw [copyLoop_empty hsrc (update_self _ _ _), update_self]

theorem copy_kept_iff (harg : (cstr arg).length < argMax) :
    CopyKept files (source cwd arg) (dest cwd arg) (ushCmdCp a files cwd arg) ↔
      CopySafe a files cwd arg := by
  rw [ushCmdCp]
  split
  · next hpaths =>
    simp only [CopySafe, hpaths, true_or, or_true, iff_true]
    exact CopyKept.of_failed
  · next src dst hpaths =>
    obtain ⟨hsrc, hdst⟩ := twoPaths_eq_some harg hpaths
    by_cases hne : source cwd arg = dest cwd arg
    · simp only [CopySafe, hpaths, ← hne, ne_eq, not_true_eq_false, false_or, reduceCtorEq]
      rw [← hne] at hdst
      constructor
      · intro hkept
        by_contra hunsafe
        simp only [not_or, not_forall] at hunsafe
        obtain ⟨⟨c, hfile, hc⟩, hstops⟩ := hunsafe
        have hself := @cpCopyFile_self files src dst c _ a hsrc hdst hfile
        rw [if_neg (by tauto)] at hself
        obtain ⟨hok, hfailed⟩ := hkept c hfile
        cases hr : (cpCopyFile a files src dst).1 with
        | true =>
          rcases hok hr with hdev | hdone
          · rw [hfile] at hdev
            cases hdev
          · rw [hself] at hdone
            cases hdone
            exact hc rfl
        | false =>
          have hlost := hfailed hr
          rw [hself] at hlost
          cases hlost
          exact hc rfl
      · intro hsafe c hfile
        have hself := @cpCopyFile_self files src dst c _ a hsrc hdst hfile
        rcases hsafe with hempty | hstops
        · obtain rfl := hempty c hfile
          split at hself
          · rw [hself]
            exact CopyKept.of_failed [] hfile
          · exact ⟨fun _ => .inr hself, fun _ => hself⟩
        · rw [if_pos hstops] at hself
          rw [hself]
          exact CopyKept.of_failed c hfile
    · simp only [CopySafe, ne_eq, hne, not_false_eq_true, true_or, iff_true]
      exact cpCopyFile_of_ne hsrc hdst hne

end Copy

/-! ## mv -/

section Move

variable {k k' : Key} {a : MoveAnswers}

theorem fsWrite_spec (hdst : kernelPath dst = some k') (bytes : List UInt8) :
    (∀ key, key ≠ k' → (fsWrite a files dst bytes).2 key = files key) ∧
      ((fsWrite a files dst bytes).1 = true →
        (fsWrite a files dst bytes).2 k' = some (.file bytes)) := by
  rw [fsWrite]
  simp only [Nodes.set_eq hdst]
  split
  · simp
  · simp
  · split
    · exact ⟨fun key hkey => update_of_ne hkey _ _, fun _ => update_self _ _ _⟩
    · split
      · simp
      · exact ⟨fun key hkey => update_of_ne hkey _ _, by simp⟩

theorem mvCopyFile_eq (hsrc : kernelPath src = some k) (hfile : files k = some (.file c)) :
    mvCopyFile a files src dst =
      if a.stat = false ∨ a.size = false ∨ copyMax < c.length ∨ a.read < c.length then
        (false, files)
      else fsWrite a files dst c := by
  have hbytes : fsRead a files src c.length = c.take (min a.read c.length) := by
    rw [fsRead, Nodes.at_eq hsrc, hfile]
  rw [mvCopyFile, statType, statSize, Nodes.at_eq hsrc, hfile]
  by_cases hstat : a.stat = false
  · rw [if_pos hstat, if_pos (by decide), if_pos (.inl hstat)]
  rw [if_neg hstat, if_neg (fun h => h rfl)]
  by_cases hsize : a.size = false
  · rw [if_pos hsize, if_pos (.inr (.inl hsize))]
  rw [if_neg hsize]
  simp only [hbytes]
  by_cases hbig : copyMax < c.length
  · rw [if_pos hbig, if_pos (.inr (.inr (.inl hbig)))]
  rw [if_neg hbig]
  by_cases hempty : c.length = 0
  · have hread : ¬ a.read < c.length := by omega
    rw [if_neg (fun h => h.1 hempty), if_pos hempty, if_neg (by tauto),
      length_eq_zero_iff.1 hempty]
  · rw [if_neg hempty, length_take]
    by_cases hread : a.read < c.length
    · rw [if_pos ⟨hempty, by omega⟩, if_pos (.inr (.inr (.inr hread)))]
    · rw [if_neg (by omega), if_neg (by tauto), take_of_length_le (by omega)]

theorem fsRemove_of_device_ne {ok : Bool} {n : Node} (hsrc : kernelPath src = some k)
    (hn : files k = some n) (hdev : n ≠ .device) :
    fsRemove ok files src =
      if ok then (true, update files k none) else (false, files) := by
  rw [fsRemove, Nodes.at_eq hsrc, Nodes.set_eq hsrc, hn]
  cases n with
  | dir => rfl
  | file bytes => rfl
  | device => exact absurd rfl hdev

theorem MoveKept.of_failed : MoveKept files k k' (false, files) := by
  refine ⟨CopyKept.of_failed, ?_⟩
  intro c _ h
  cases h

theorem ushCmdMv_eq (hpaths : twoPaths cwd arg = some (src, dst)) (hsrc : kernelPath src = some k)
    (hfile : files k = some (.file c)) : ushCmdMv a files cwd arg =
      if a.stat = false ∨ a.size = false ∨ copyMax < c.length ∨ a.read < c.length then
        (false, files)
      else if (fsWrite a files dst c).1 = false then fsWrite a files dst c
      else fsRemove a.remove (fsWrite a files dst c).2 src := by
  rw [ushCmdMv, hpaths]
  simp only [mvCopyFile_eq hsrc hfile]
  split
  · rfl
  · rfl

theorem fsWrite_self (hdst : kernelPath dst = some k) (hfile : files k = some (.file c)) :
    fsWrite a files dst c = (a.write, if a.write then files else
      match a.torn with
      | none => files
      | some left => update files k (some (.file left))) := by
  have hsame : update files k (some (.file c)) = files := by
    rw [← hfile, update_eq_self]
  rw [fsWrite, Nodes.at_eq hdst, hfile]
  simp only [Nodes.set_eq hdst, hsame]
  cases a.write with
  | true => rfl
  | false => rfl

theorem moveKept_self {ok : Bool} (hfile : files k = some (.file c)) :
    MoveKept files k k (ok, files') ↔ files' k = some (.file c) := by
  constructor
  · intro hkept
    obtain ⟨hdone, hfailed⟩ := hkept.1 c hfile
    cases ok with
    | true =>
      have hdev : files k ≠ some .device := by simp [hfile]
      exact (hdone rfl).resolve_left hdev
    | false => exact hfailed rfl
  · intro hkeep
    constructor
    · intro d hd
      rw [hfile] at hd
      cases hd
      exact ⟨fun _ => .inr hkeep, fun _ => hkeep⟩
    · intro d _ _ hgone
      simp [hkeep] at hgone

theorem moveKept_self_iff (hpaths : twoPaths cwd arg = some (src, dst))
    (hsrc : kernelPath src = some k) (hdst : kernelPath dst = some k)
    (hfile : files k = some (.file c)) : MoveKept files k k (ushCmdMv a files cwd arg) ↔
      a.stat = false ∨ a.size = false ∨ copyMax < c.length ∨ a.read < c.length ∨
        (a.write = false ∧ (a.torn = none ∨ a.torn = some c)) ∨
        (a.write = true ∧ a.remove = false) := by
  rw [ushCmdMv_eq hpaths hsrc hfile, fsWrite_self hdst hfile]
  by_cases hstops : a.stat = false ∨ a.size = false ∨ copyMax < c.length ∨ a.read < c.length
  · rw [if_pos hstops]
    rw [moveKept_self hfile]
    simp only [hfile, true_iff]
    tauto
  · rw [if_neg hstops]
    have hrest : (a.stat = false ∨ a.size = false ∨ copyMax < c.length ∨ a.read < c.length ∨
        (a.write = false ∧ (a.torn = none ∨ a.torn = some c)) ∨
        (a.write = true ∧ a.remove = false)) ↔
        (a.write = false ∧ (a.torn = none ∨ a.torn = some c)) ∨
          (a.write = true ∧ a.remove = false) := by
      tauto
    rw [hrest]
    cases hwrite : a.write with
    | true =>
      rw [if_neg (by simp)]
      simp only [if_true]
      rw [fsRemove_of_device_ne hsrc hfile (by simp)]
      cases a.remove with
      | true => simp [moveKept_self hfile]
      | false => simp [moveKept_self hfile, hfile]
    | false =>
      rw [if_pos rfl, moveKept_self hfile]
      cases a.torn with
      | none => simp [hfile]
      | some left => simp [update_self]

theorem move_kept_iff (harg : (cstr arg).length < argMax) :
    MoveKept files (source cwd arg) (dest cwd arg) (ushCmdMv a files cwd arg) ↔
      MoveSafe a files cwd arg := by
  cases hpaths : twoPaths cwd arg with
  | none =>
    simp only [MoveSafe, hpaths, true_or, or_true, iff_true, ushCmdMv]
    exact MoveKept.of_failed
  | some paths =>
    obtain ⟨src, dst⟩ := paths
    obtain ⟨hsrc, hdst⟩ := twoPaths_eq_some harg hpaths
    simp only at hsrc hdst
    rw [MoveSafe]
    simp only [hpaths, reduceCtorEq, false_or]
    generalize source cwd arg = k at *
    generalize dest cwd arg = k' at *
    by_cases hne : k = k'
    · subst hne
      simp only [ne_eq, not_true_eq_false, false_or]
      by_cases hfile : ∃ c, files k = some (.file c)
      · obtain ⟨c, hfile⟩ := hfile
        rw [moveKept_self_iff hpaths hsrc hdst hfile]
        simp only [hfile, Option.some.injEq, Node.file.injEq, forall_eq']
      · have hvoid : ∀ c, files k ≠ some (.file c) := by
          intro c hc
          exact hfile ⟨c, hc⟩
        have hkept : MoveKept files k k (ushCmdMv a files cwd arg) :=
          ⟨fun c hc => absurd hc (hvoid c), fun c hc => absurd hc (hvoid c)⟩
        simp only [hkept, true_iff]
        exact .inr (.inr fun c hc => absurd hc (hvoid c))
    · simp only [ne_eq, hne, not_false_eq_true, true_or, iff_true]
      refine ⟨?_, fun c _ _ _ => hne⟩
      intro c hfile
      obtain ⟨hother, hdone⟩ := @fsWrite_spec files dst k' a hdst c
      rw [ushCmdMv_eq hpaths hsrc hfile]
      split
      · simp [hfile]
      · split
        · next hfailed =>
          exact ⟨fun h => by simp [hfailed] at h, fun _ => by rw [hother k hne, hfile]⟩
        · next hok =>
          rw [Bool.not_eq_false] at hok
          rw [fsRemove_of_device_ne hsrc (by rw [hother k hne, hfile]) (by simp)]
          split
          · refine ⟨fun _ => .inr ?_, fun h => by simp at h⟩
            simp only
            rw [update_of_ne (Ne.symm hne), hdone hok]
          · exact ⟨fun h => by simp at h, fun _ => by rw [hother k hne, hfile]⟩

end Move

/-- Whatever the kernel has at its paths and answers, a command with two words keeps its promises
exactly if it is safe. -/
theorem copy_move_kept_iff (harg : (cstr arg).length < argMax) :
    (∀ a files, CopyKept files (source cwd arg) (dest cwd arg) (ushCmdCp a files cwd arg) ↔
        CopySafe a files cwd arg) ∧
      ∀ a files, MoveKept files (source cwd arg) (dest cwd arg) (ushCmdMv a files cwd arg) ↔
        MoveSafe a files cwd arg := by
  constructor
  · intro a files
    exact copy_kept_iff harg
  · intro a files
    exact move_kept_iff harg

/-- `a b` in the root. -/
theorem copy_move_kept_ab :
    (∀ a files, CopyKept files (source [47] [97, 32, 98]) (dest [47] [97, 32, 98])
        (ushCmdCp a files [47] [97, 32, 98]) ↔ CopySafe a files [47] [97, 32, 98]) ∧
      ∀ a files, MoveKept files (source [47] [97, 32, 98]) (dest [47] [97, 32, 98])
        (ushCmdMv a files [47] [97, 32, 98]) ↔ MoveSafe a files [47] [97, 32, 98] :=
  copy_move_kept_iff (by decide)

/-- One file of one byte, at `/a`. -/
def oneFile : Nodes := fun key => if key = [[97]] then some (.file [120]) else none

/-- `a ./a` in the root: `cp` succeeds and leaves the file empty, and `mv` succeeds and removes
it. -/
theorem not_copy_move_kept :
    (¬ ∀ (a : CopyAnswers) (files : Nodes) (cwd arg : List UInt8), (cstr arg).length < argMax →
        CopyKept files (source cwd arg) (dest cwd arg) (ushCmdCp a files cwd arg)) ∧
      ¬ ∀ (a : MoveAnswers) (files : Nodes) (cwd arg : List UInt8), (cstr arg).length < argMax →
        MoveKept files (source cwd arg) (dest cwd arg) (ushCmdMv a files cwd arg) := by
  constructor
  · intro h
    have hkept := h ⟨true, true, true, [⟨some 1, [], []⟩]⟩ oneFile [47] [97, 32, 46, 47, 97]
      (by decide) [120] (by decide)
    have hdest : oneFile (dest [47] [97, 32, 46, 47, 97]) = some .device ∨
        (ushCmdCp ⟨true, true, true, [⟨some 1, [], []⟩]⟩ oneFile [47] [97, 32, 46, 47, 97]).2
          (dest [47] [97, 32, 46, 47, 97]) = some (.file [120]) := hkept.1 (by decide)
    revert hdest
    decide
  · intro h
    have hkept := h ⟨true, true, 1, [], true, none, true⟩ oneFile [47] [97, 32, 46, 47, 97]
      (by decide)
    have hgone := hkept.2 [120] (by decide) (by decide) (by decide)
    exact hgone (by decide)

end Cleonos.Files
