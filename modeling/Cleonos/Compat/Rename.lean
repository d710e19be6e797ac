import Cleonos.Files.Keep

/-!
# rename of the ports

`rename` of `doom_compat.c` and of `tcc_cleonos_compat.c`: the source is read, written to the
destination and removed.
-/

namespace Cleonos.Compat

open Option

open Files (Nodes MoveAnswers statType statSize fsRead fsWrite fsRemove)
open Kernel (kernelPath)

/-! ## The source -/

/-- Whether `malloc` grants the buffer, and whether the kernel tells what is at the two places that
`dg_resolve_read_path` looks at. -/
structure RenameAnswers where
  calls : MoveAnswers
  memory : Bool
  temp : Bool
  shell : Bool
  deriving DecidableEq, Repr

/-- `cleonos_sys_fs_write`; it refuses paths that are none. -/
def fsPut (a : MoveAnswers) (files : Nodes) (path bytes : List UInt8) : UInt64 × Nodes :=
  if kernelPath path = none then (0, files)
  else (if (fsWrite a files path bytes).1 then 1 else 0, (fsWrite a files path bytes).2)

/-- The value of `cleonos_sys_fs_remove`. -/
def fsUnlink (a : MoveAnswers) (files : Nodes) (path : List UInt8) : UInt64 × Nodes :=
  (if (fsRemove a.remove files path).1 then 1 else 0, (fsRemove a.remove files path).2)

def dgPathMax : ℕ := 192

def dgCopy (dstSize : ℕ) (src : List UInt8) : List UInt8 := src.take (dstSize - 1)

def dgJoinPath (outSize : ℕ) (dir name : List UInt8) : List UInt8 :=
  let out := dir.take (outSize - 1)
  let out :=
    if out ≠ [] ∧ out.getLast? ≠ some 47 ∧ out.length + 1 < outSize then out ++ [47] else out
  out ++ name.take (outSize - 1 - out.length)

/-- `/temp`, `/shell` and `/`. -/
def tempDir : List UInt8 := [47, 116, 101, 109, 112]
def shellDir : List UInt8 := [47, 115, 104, 101, 108, 108]
def rootDir : List UInt8 := [47]

def dgResolveReadPath (a : RenameAnswers) (files : Nodes) (path : List UInt8) : List UInt8 :=
  if path.headD 0 = 47 then dgCopy dgPathMax path
  else if statType a.temp files (dgJoinPath dgPathMax tempDir path) ≠ 0 - 1 then
    dgCopy dgPathMax (dgJoinPath dgPathMax tempDir path)
  else if statType a.shell files (dgJoinPath dgPathMax shellDir path) ≠ 0 - 1 then
    dgCopy dgPathMax (dgJoinPath dgPathMax shellDir path)
  else dgCopy dgPathMax (dgJoinPath dgPathMax rootDir path)

def dgResolveWritePath (path : List UInt8) : List UInt8 :=
  if path.headD 0 = 47 then dgCopy dgPathMax path else dgJoinPath dgPathMax tempDir path

def dgIsTempPath (path : List UInt8) : Bool := path.take tempDir.length == tempDir

/-- `rename` of `doom_compat.c`; whether it returns 0, and the nodes it leaves. -/
def dgRename (a : RenameAnswers) (files : Nodes) (oldPath newPath : List UInt8) : Bool × Nodes :=
  let src := dgResolveReadPath a files oldPath
  let dst := dgResolveWritePath newPath
  if dgIsTempPath dst = false then (false, files)
  else
    match statSize a.calls.size files src with
    | none => (false, files)
    | some fileSize =>
      if a.memory = false then (false, files)
      else
        let got := fsRead a.calls files src fileSize
        if got.length ≠ fileSize then (false, files)
        else
          let w := fsPut a.calls files dst got
          if w.1.toNat ≠ got.length then (false, w.2)
          else
            let r := fsUnlink a.calls w.2 src
            if r.1 = 0 then (false, r.2) else (true, r.2)

/-- `rename` of `tcc_cleonos_compat.c`, with its `unlink`. -/
def tccRename (a : RenameAnswers) (files : Nodes) (oldPath newPath : List UInt8) : Bool × Nodes :=
  match statSize a.calls.size files oldPath with
  | none => (false, files)
  | some size =>
    if a.memory = false ∧ size ≠ 0 then (false, files)
    else
      let got := fsRead a.calls files oldPath size
      if got.length ≠ size then (false, files)
      else
        let w := fsPut a.calls files newPath got
        if w.1 = 0 - 1 then (false, w.2)
        else
          let r := fsUnlink a.calls w.2 oldPath
          if r.1 = 0 - 1 then (false, r.2) else (true, r.2)

/-- A success leaves the content of the source at the destination, and nothing at the source if this
is another path; a failure leaves it at the source.  Nothing succeeds without a source. -/
def RenameKept (files : Nodes) (src dst : List UInt8) (r : Bool × Nodes) : Prop :=
  (files.at src = none → r.1 = false) ∧
    ∀ c, files.at src = some (.file c) →
      (r.1 = true → r.2.at dst = some (.file c) ∧
        (kernelPath src ≠ kernelPath dst → r.2.at src = none)) ∧
      (r.1 = false → r.2.at src = some (.file c))

/-- What a write leaves at its path. -/
def written (a : MoveAnswers) (files : Nodes) (path bytes : List UInt8) : Option Node :=
  (fsPut a files path bytes).2.at path

/-- The shim has the content of the source in its buffer, and goes on to write it. -/
structure Reaches (a : RenameAnswers) (c : List UInt8) : Prop where
  size : a.calls.size = true
  memory : a.memory = true ∨ c = []
  read : c.length ≤ a.calls.read

/-- Where `rename` of `doom_compat.c` gets to the write: a file of as many bytes as the write
returns is removed only if the destination is another path and holds it, and otherwise a write over
the file itself leaves it whole. -/
def DgSafe (a : RenameAnswers) (files : Nodes) (src dst : List UInt8) : Prop :=
  ∀ c, files.at src = some (.file c) → Reaches a c → a.memory = true → dgIsTempPath dst = true →
    if (fsPut a.calls files dst c).1.toNat = c.length ∧ a.calls.remove = true then
      kernelPath src ≠ kernelPath dst ∧ written a.calls files dst c = some (.file c)
    else kernelPath src = kernelPath dst → written a.calls files dst c = some (.file c)

/-- Where `rename` of `tcc_cleonos_compat.c` gets to the write: the destination then holds the file,
and the removal succeeds exactly if the destination is another path. -/
def TccSafe (a : RenameAnswers) (files : Nodes) (src dst : List UInt8) : Prop :=
  ∀ c, files.at src = some (.file c) → Reaches a c →
    written a.calls files dst c = some (.file c) ∧
      (a.calls.remove = true ↔ kernelPath src ≠ kernelPath dst)

variable {a : RenameAnswers} {m : MoveAnswers} {files : Nodes} {src dst c path : List UInt8}

theorem kernelPath_of_at (h : files.at path = some (.file c)) :
    ∃ k, kernelPath path = some k ∧ files k = some (.file c) := by
  rw [Nodes.at] at h
  exact bind_eq_some_iff.1 h

theorem at_congr (files : Nodes) (h : kernelPath src = kernelPath dst) :
    files.at src = files.at dst := by
  rw [Nodes.at, Nodes.at, h]

theorem at_fsPut_of_ne (h : kernelPath src ≠ kernelPath dst) (bytes : List UInt8) :
    (fsPut m files dst bytes).2.at src = files.at src := by
  rw [fsPut]
  split
  case isTrue => rfl
  case isFalse hdst =>
    obtain ⟨k', hk'⟩ := ne_none_iff_exists'.1 hdst
    cases hk : kernelPath src with
    | none => rw [Nodes.at, Nodes.at, hk, bind_none, bind_none]
    | some k =>
      have hne : k ≠ k' := by
        intro heq
        rw [hk, hk', heq] at h
        exact h rfl
      rw [Files.Nodes.at_eq hk, Files.Nodes.at_eq hk]
      exact (Files.fsWrite_spec hk' bytes).1 k hne

theorem at_fsPut_self (hfile : files.at path = some (.file c)) (bytes : List UInt8) :
    ∃ c', (fsPut m files path bytes).2.at path = some (.file c') := by
  obtain ⟨k, hk, hc⟩ := kernelPath_of_at hfile
  have hsome : kernelPath path ≠ none := by
    rw [hk]
    exact some_ne_none k
  rw [fsPut, if_neg hsome, fsWrite, hfile, Files.Nodes.at_eq hk]
  simp only [Files.Nodes.set_eq hk]
  split
  · exact ⟨bytes, Function.update_self _ _ _⟩
  · split
    · exact ⟨c, hc⟩
    · exact ⟨_, Function.update_self _ _ _⟩

theorem fsPut_ne_neg_one {bytes : List UInt8} : (fsPut m files path bytes).1 ≠ 0 - 1 := by
  rw [fsPut]
  split
  · exact show (0 : UInt64) ≠ 0 - 1 by decide
  · dsimp only
    split <;> decide

theorem fsUnlink_file (h : files.at path = some (.file c)) : fsUnlink m files path =
    if m.remove then (1, files.set path none) else (0, files) := by
  rw [fsUnlink, fsRemove, h]
  cases m.remove <;> rfl

theorem fsUnlink_ne_neg_one : (fsUnlink m files path).1 ≠ 0 - 1 := by
  rw [fsUnlink]
  dsimp only
  split <;> decide

theorem at_set_none (hsrc : kernelPath src ≠ none) : (files.set src none).at src = none := by
  obtain ⟨k, hk⟩ := ne_none_iff_exists'.1 hsrc
  rw [Files.Nodes.set_eq hk, Files.Nodes.at_eq hk, Function.update_self]

theorem at_set_of_ne (h : kernelPath src ≠ kernelPath dst) :
    (files.set src none).at dst = files.at dst := by
  cases hk : kernelPath src with
  | none => rw [Nodes.set, hk]
  | some k =>
    rw [Files.Nodes.set_eq hk]
    cases hk' : kernelPath dst with
    | none => rw [Nodes.at, Nodes.at, hk', bind_none, bind_none]
    | some k' =>
      have hne : k' ≠ k := by
        intro heq
        rw [hk, hk', heq] at h
        exact h rfl
      rw [Files.Nodes.at_eq hk', Files.Nodes.at_eq hk', Function.update_of_ne hne]

theorem read_file (hfile : files.at src = some (.file c)) (hsize : m.size = true) :
    statSize m.size files src = some c.length ∧
      ((fsRead m files src c.length).length = c.length ↔ c.length ≤ m.read) ∧
      (c.length ≤ m.read → fsRead m files src c.length = c) := by
  refine ⟨?_, ?_, ?_⟩
  · rw [statSize, hsize, hfile]
    rfl
  · rw [fsRead, hfile]
    simp only [List.length_take]
    omega
  · intro hle
    rw [fsRead, hfile]
    exact List.take_of_length_le (by omega)

theorem RenameKept.of_untouched : RenameKept files src dst (false, files) :=
  ⟨fun _ => rfl, fun _ hfile => ⟨fun h => absurd h Bool.false_ne_true, fun _ => hfile⟩⟩

theorem RenameKept.of_not_file {r : Bool × Nodes} (hnone : files.at src = none → r.1 = false)
    (h : ∀ c, files.at src ≠ some (.file c)) : RenameKept files src dst r :=
  ⟨hnone, fun c hc => absurd hc (h c)⟩

section

variable (hfile : files.at src = some (.file c))
include hfile

theorem renameKept_failed_iff :
    RenameKept files src dst (false, (fsPut m files dst c).2) ↔
      (kernelPath src = kernelPath dst → written m files dst c = some (.file c)) := by
  constructor
  · intro h heq
    have hkept := (h.2 c hfile).2 rfl
    rw [at_congr _ heq] at hkept
    exact hkept
  · intro h
    refine ⟨fun _ => rfl, fun c' hc' => ⟨fun hf => absurd hf Bool.false_ne_true, fun _ => ?_⟩⟩
    rw [hfile] at hc'
    cases hc'
    by_cases heq : kernelPath src = kernelPath dst
    · dsimp only
      rw [at_congr _ heq]
      exact h heq
    · exact (at_fsPut_of_ne heq c).trans hfile

theorem renameKept_removed_iff :
    RenameKept files src dst (true, (fsPut m files dst c).2.set src none) ↔
      kernelPath src ≠ kernelPath dst ∧ written m files dst c = some (.file c) := by
  obtain ⟨k, hk, -⟩ := kernelPath_of_at hfile
  have hsrc : kernelPath src ≠ none := by
    rw [hk]
    exact some_ne_none k
  constructor
  · intro h
    obtain ⟨hdst, -⟩ := (h.2 c hfile).1 rfl
    have hne : kernelPath src ≠ kernelPath dst := by
      intro heq
      dsimp only at hdst
      rw [← at_congr _ heq, at_set_none hsrc] at hdst
      cases hdst
    dsimp only at hdst
    rw [at_set_of_ne hne] at hdst
    exact ⟨hne, hdst⟩
  · intro h
    refine ⟨fun hnone => ?_, fun c' hc' => ⟨fun _ => ?_, fun hf => ?_⟩⟩
    · rw [hfile] at hnone
      cases hnone
    · rw [hfile] at hc'
      cases hc'
      dsimp only
      rw [at_set_of_ne h.1]
      exact ⟨h.2, fun _ => at_set_none hsrc⟩
    · cases hf

theorem renameKept_left_iff :
    RenameKept files src dst (true, (fsPut m files dst c).2) ↔
      kernelPath src = kernelPath dst ∧ written m files dst c = some (.file c) := by
  constructor
  · intro h
    obtain ⟨hdst, hgone⟩ := (h.2 c hfile).1 rfl
    refine ⟨?_, hdst⟩
    by_contra hne
    have hnone := hgone hne
    dsimp only at hnone
    rw [at_fsPut_of_ne hne, hfile] at hnone
    cases hnone
  · intro h
    refine ⟨fun hnone => ?_, fun c' hc' => ⟨fun _ => ?_, fun hf => ?_⟩⟩
    · rw [hfile] at hnone
      cases hnone
    · rw [hfile] at hc'
      cases hc'
      exact ⟨h.2, fun hne => absurd h.1 hne⟩
    · cases hf

theorem fsUnlink_written :
    fsUnlink m (fsPut m files dst c).2 src =
      if m.remove then (1, (fsPut m files dst c).2.set src none)
      else (0, (fsPut m files dst c).2) := by
  by_cases heq : kernelPath src = kernelPath dst
  · have hdst : files.at dst = some (.file c) := (at_congr files heq).symm.trans hfile
    obtain ⟨c', hc'⟩ := at_fsPut_self (m := m) hdst c
    rw [← at_congr _ heq] at hc'
    exact fsUnlink_file hc'
  · exact fsUnlink_file ((at_fsPut_of_ne heq c).trans hfile)

end

theorem statSize_of_none (size : Bool) {src : List UInt8} (hnone : files.at src = none) :
    statSize size files src = none := by
  rw [statSize, hnone]
  split <;> rfl

theorem dgRename_kept_iff (oldPath newPath : List UInt8) :
    RenameKept files (dgResolveReadPath a files oldPath) (dgResolveWritePath newPath)
        (dgRename a files oldPath newPath) ↔
      DgSafe a files (dgResolveReadPath a files oldPath) (dgResolveWritePath newPath) := by
  rw [dgRename]
  generalize dgResolveReadPath a files oldPath = src
  generalize dgResolveWritePath newPath = dst
  dsimp only
  by_cases htemp : dgIsTempPath dst = false
  · rw [if_pos htemp]
    refine iff_of_true RenameKept.of_untouched ?_
    intro c _ _ _ htrue
    rw [htemp] at htrue
    cases htrue
  rw [if_neg htemp]
  rw [Bool.not_eq_false] at htemp
  by_cases hfile : ∃ c, files.at src = some (.file c)
  · obtain ⟨c, hfile⟩ := hfile
    have hsafe : DgSafe a files src dst ↔ (Reaches a c → a.memory = true →
        if (fsPut a.calls files dst c).1.toNat = c.length ∧ a.calls.remove = true then
          kernelPath src ≠ kernelPath dst ∧ written a.calls files dst c = some (.file c)
        else kernelPath src = kernelPath dst → written a.calls files dst c = some (.file c)) := by
      rw [DgSafe]
      constructor
      · intro h hr hm
        exact h c hfile hr hm htemp
      · intro h c' hc' hr hm _
        rw [hfile] at hc'
        cases hc'
        exact h hr hm
    rw [hsafe]
    by_cases hsize : a.calls.size = true
    · obtain ⟨hstat, hlen, hread⟩ := read_file hfile hsize
      rw [hstat]
      dsimp only
      by_cases hmem : a.memory = false
      · rw [if_pos hmem]
        refine iff_of_true RenameKept.of_untouched ?_
        intro _ htrue
        rw [hmem] at htrue
        cases htrue
      rw [if_neg hmem]
      rw [Bool.not_eq_false] at hmem
      by_cases hle : c.length ≤ a.calls.read
      · have hreaches : Reaches a c := ⟨hsize, Or.inl hmem, hle⟩
        rw [if_neg (not_not.2 (hlen.2 hle)), hread hle, fsUnlink_written hfile]
        simp only [hreaches, hmem, true_implies]
        by_cases hw : (fsPut a.calls files dst c).1.toNat = c.length
        · rw [if_neg (not_not.2 hw)]
          cases hremove : a.calls.remove with
          | true =>
            rw [if_pos rfl, if_neg (show (1 : UInt64) ≠ 0 by decide), if_pos ⟨hw, rfl⟩]
            exact renameKept_removed_iff hfile
          | false =>
            rw [if_neg Bool.false_ne_true, if_pos rfl, if_neg (by simp)]
            exact renameKept_failed_iff hfile
        · rw [if_pos hw, if_neg (fun h => hw h.1)]
          exact renameKept_failed_iff hfile
      · rw [if_pos (fun h => hle (hlen.1 h))]
        exact iff_of_true RenameKept.of_untouched fun h => absurd h.read hle
    · rw [statSize, if_pos (Bool.eq_false_iff.2 hsize)]
      exact iff_of_true RenameKept.of_untouched fun h => absurd h.size hsize
  · refine iff_of_true (RenameKept.of_not_file (fun hnone => ?_) fun c hc => hfile ⟨c, hc⟩)
      fun c hc => absurd ⟨c, hc⟩ hfile
    rw [statSize_of_none _ hnone]

theorem tccRename_kept_iff (src dst : List UInt8) :
    RenameKept files src dst (tccRename a files src dst) ↔ TccSafe a files src dst := by
  rw [tccRename]
  by_cases hfile : ∃ c, files.at src = some (.file c)
  · obtain ⟨c, hfile⟩ := hfile
    have hsafe : TccSafe a files src dst ↔ (Reaches a c →
        written a.calls files dst c = some (.file c) ∧
          (a.calls.remove = true ↔ kernelPath src ≠ kernelPath dst)) := by
      rw [TccSafe]
      constructor
      · intro h hr
        exact h c hfile hr
      · intro h c' hc' hr
        rw [hfile] at hc'
        cases hc'
        exact h hr
    rw [hsafe]
    by_cases hsize : a.calls.size = true
    · obtain ⟨hstat, hlen, hread⟩ := read_file hfile hsize
      rw [hstat]
      dsimp only
      by_cases hmem : a.memory = false ∧ c.length ≠ 0
      · rw [if_pos hmem]
        refine iff_of_true RenameKept.of_untouched fun h => ?_
        rcases h.memory with htrue | hnil
        · rw [hmem.1] at htrue
          cases htrue
        · exact absurd (by rw [hnil]; rfl) hmem.2
      rw [if_neg hmem]
      have hmem' : a.memory = true ∨ c = [] := by
        rw [not_and_or, Bool.not_eq_false, not_not, List.length_eq_zero_iff] at hmem
        exact hmem
      by_cases hle : c.length ≤ a.calls.read
      · have hreaches : Reaches a c := ⟨hsize, hmem', hle⟩
        rw [if_neg (not_not.2 (hlen.2 hle)), hread hle, if_neg fsPut_ne_neg_one,
          if_neg fsUnlink_ne_neg_one, fsUnlink_written hfile]
        simp only [hreaches, true_implies]
        cases hremove : a.calls.remove with
        | true =>
          rw [if_pos rfl]
          simp only [true_iff]
          rw [and_comm]
          exact renameKept_removed_iff hfile
        | false =>
          rw [if_neg Bool.false_ne_true]
          simp only [Bool.false_eq_true, false_iff, not_not]
          rw [and_comm]
          exact renameKept_left_iff hfile
      · rw [if_pos (fun h => hle (hlen.1 h))]
        exact iff_of_true RenameKept.of_untouched fun h => absurd h.read hle
    · rw [statSize, if_pos (Bool.eq_false_iff.2 hsize)]
      exact iff_of_true RenameKept.of_untouched fun h => absurd h.size hsize
  · refine iff_of_true (RenameKept.of_not_file (fun hnone => ?_) fun c hc => hfile ⟨c, hc⟩)
      fun c hc => absurd ⟨c, hc⟩ hfile
    rw [statSize_of_none _ hnone]

/-- Whatever the kernel has at its paths and the calls answer, each shim keeps its promise exactly
if it is safe. -/
theorem rename_kept_iff (a : RenameAnswers) (files : Nodes) (oldPath newPath : List UInt8) :
    (RenameKept files (dgResolveReadPath a files oldPath) (dgResolveWritePath newPath)
        (dgRename a files oldPath newPath) ↔
      DgSafe a files (dgResolveReadPath a files oldPath) (dgResolveWritePath newPath)) ∧
    (RenameKept files oldPath newPath (tccRename a files oldPath newPath) ↔
      TccSafe a files oldPath newPath) := by
  constructor
  · exact dgRename_kept_iff oldPath newPath
  · exact tccRename_kept_iff oldPath newPath

/-- One byte at `/temp/a`. -/
def tempFile : Nodes := fun key =>
  if key = [[116, 101, 109, 112], [97]] then some (.file [120]) else none

def allGranted : RenameAnswers := ⟨⟨true, true, 1, [], true, none, true⟩, true, true, true⟩

/-- A file that is renamed to itself is removed, and both shims report success. -/
theorem rename_to_itself_loses :
    (¬ ∀ a files oldPath newPath,
      RenameKept files (dgResolveReadPath a files oldPath) (dgResolveWritePath newPath)
        (dgRename a files oldPath newPath)) ∧
      ¬ ∀ a files oldPath newPath,
        RenameKept files oldPath newPath (tccRename a files oldPath newPath) := by
  constructor
  · intro h
    have hkept := ((h allGranted tempFile (tempDir ++ [47, 97]) (tempDir ++ [47, 97])).2 [120]
      (by decide)).1 (by decide)
    revert hkept
    decide
  · intro h
    have hkept := ((h allGranted tempFile (tempDir ++ [47, 97]) (tempDir ++ [47, 97])).2 [120]
      (by decide)).1 (by decide)
    revert hkept
    decide

end Cleonos.Compat
