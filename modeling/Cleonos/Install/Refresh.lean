import Cleonos.Install.Manifest
import Cleonos.Lib.ItemLog

/-!
# Refreshing the manifest

The refresh removes the manifest of the target and writes it anew, line by line and in its
place, so a failure behind the removal leaves what was written by then.
-/

namespace Cleonos.Install

open List Option
open ItemLog (text writeFrom write AllOut Complete Spares)
open Sha256 (installSha256FileHex)

/-! ## Lines -/

/-- A file of a manifest, with the answers about it. -/
structure Tracked where
  path : List UInt8
  answers : FileAnswers

section Lines

variable (data : ℕ → UInt8) (io : ℕ → AppendAnswer)

/-- The line of a file, where its size and its digest are had. -/
def fileLine (f : Tracked) : Option (List UInt8) :=
  if f.answers.size = -1 then none
  else
    (installSha256FileHex data f.answers.opens f.answers.reads).bind fun hash =>
      let line := entryLine f.path f.answers.size hash
      if line.length ≥ lineMax then none else some line

/-- The line of a file that is looked up under the mount point. -/
def targetLine (f : Tracked) : Option (List UInt8) :=
  if rootJoin pathMax mountPath f.path = none then none else fileLine data f

variable (line : Tracked → Option (List UInt8))

/-- The line of a file gets out behind those of `front`: there is one, it has its place in
the manifest, and all of it is appended. -/
def LineOut (front : List Tracked) (f : Tracked) : Prop :=
  match line f with
  | none => False
  | some l => (text line front).length + l.length ≤ manifestMaxBytes ∧
      (io front.length).answer.toNat = l.length

instance (front : List Tracked) (f : Tracked) : Decidable (LineOut io line front f) := by
  unfold LineOut
  cases line f with
  | none => exact instDecidableFalse
  | some l => exact instDecidableAnd

/-- What is appended of a line that does not get out. -/
def linePart (front : List Tracked) (f : Tracked) : List UInt8 :=
  match line f with
  | none => []
  | some l =>
    if (text line front).length + l.length > manifestMaxBytes then []
    else l.take (io front.length).wrote

/-- The manifest of some files: whether it is written, and what it holds. -/
def manifestOf (files : List Tracked) : Bool × List UInt8 :=
  write line (LineOut io line) (linePart io line) files

end Lines

variable {data : ℕ → UInt8} {io : ℕ → AppendAnswer} {line : Tracked → Option (List UInt8)}
  {front files files' : List Tracked} {f : Tracked} {w : Writer}

variable {l : List UInt8}

theorem lineOut_iff (h : line f = some l) :
    LineOut io line front f ↔ (text line front).length + l.length ≤ manifestMaxBytes ∧
      (io front.length).answer.toNat = l.length := by
  rw [LineOut, h]

theorem isSome_of_lineOut (h : LineOut io line front f) : (line f).isSome = true := by
  rw [LineOut] at h
  cases hl : line f with
  | none =>
    rw [hl] at h
    exact h.elim
  | some l => rfl

theorem length_linePart_le (h : line f = some l) :
    (linePart io line front f).length ≤ l.length := by
  rw [linePart, h]
  dsimp only
  split
  · exact Nat.zero_le _
  · exact length_take_le' _ _

theorem entryLine_ne_nil (path : List UInt8) (size : UInt64) (hash : List UInt8) :
    entryLine path size hash ≠ [] := by
  rw [entryLine]
  simp

theorem fileLine_eq_some (h : fileLine data f = some l) : ∃ hash, f.answers.size ≠ -1 ∧
      installSha256FileHex data f.answers.opens f.answers.reads = some hash ∧
      l = entryLine f.path f.answers.size hash ∧ l.length < lineMax := by
  rw [fileLine] at h
  split at h
  · cases h
  · obtain ⟨hash, hhash, hl⟩ := bind_eq_some_iff.1 h
    dsimp only at hl
    split at hl
    · cases hl
    · cases hl
      exact ⟨hash, ‹_›, hhash, rfl, not_le.1 ‹_›⟩

theorem targetLine_eq_some (h : targetLine data f = some l) :
    rootJoin pathMax mountPath f.path ≠ none ∧ fileLine data f = some l := by
  rw [targetLine] at h
  split at h
  · cases h
  · exact ⟨‹_›, h⟩

theorem targetLine_ne_nil (f : Tracked) : targetLine data f ≠ some [] := by
  intro h
  obtain ⟨hash, -, -, hl, -⟩ := fileLine_eq_some (targetLine_eq_some h).2
  exact entryLine_ne_nil _ _ _ hl.symm

/-- The writer has written the lines of some files. -/
structure Wrote (line : Tracked → Option (List UInt8)) (w : Writer) (files : List Tracked) :
    Prop where
  files_eq : w.files = files.length
  bytes_eq : w.manifestBytes = (text line files).length
  manifest_eq : w.manifest = text line files

theorem wrote_nil (line : Tracked → Option (List UInt8)) : Wrote line {} [] := ⟨rfl, rfl, rfl⟩

/-- A step of the writer behind the files of `front`: it does as the log of them does. -/
structure Follows (io : ℕ → AppendAnswer) (line : Tracked → Option (List UInt8))
    (front files : List Tracked) (r : Bool × Writer) : Prop where
  ok_eq : r.1 = (writeFrom line (LineOut io line) (linePart io line) front files).1
  manifest_eq : r.2.manifest = (writeFrom line (LineOut io line) (linePart io line) front files).2
  wrote : r.1 = true → Wrote line r.2 (front ++ files)

theorem follows_nil (h : Wrote line w front) : Follows io line front [] (true, w) :=
  ⟨rfl, h.manifest_eq, fun _ => by rwa [append_nil]⟩

theorem Follows.append {r r' : Bool × Writer} (h : Follows io line front files r)
    (h' : r.1 = true → Follows io line (front ++ files) files' r') :
    Follows io line front (files ++ files') (if r.1 = false then r else r') := by
  cases hr : r.1 with
  | false =>
    have hfalse : ¬ (writeFrom line (LineOut io line) (linePart io line) front files).1 = true := by
      rw [← h.ok_eq, hr]
      decide
    refine ⟨?_, ?_, ?_⟩
    · rw [ItemLog.writeFrom_append, if_pos rfl, if_neg hfalse, h.ok_eq]
    · rw [ItemLog.writeFrom_append, if_pos rfl, if_neg hfalse, h.manifest_eq]
    · intro hok
      rw [if_pos rfl, hr] at hok
      cases hok
  | true =>
    have htrue : (writeFrom line (LineOut io line) (linePart io line) front files).1 = true := by
      rw [← h.ok_eq, hr]
    have hrest := h' hr
    rw [if_neg (by decide)]
    refine ⟨?_, ?_, fun hok => ?_⟩
    · rw [ItemLog.writeFrom_append, if_pos htrue, hrest.ok_eq]
    · rw [ItemLog.writeFrom_append, if_pos htrue, hrest.manifest_eq]
    · rw [← append_assoc]
      exact hrest.wrote hok

theorem follows_stop (h : Wrote line w front) (hf : line f = none) (files : List Tracked) :
    Follows io line front (f :: files) (false, w) := by
  have hout : ¬ LineOut io line front f := fun hout => by
    rw [LineOut, hf] at hout
    exact hout
  refine ⟨?_, ?_, fun hok => by cases hok⟩
  · rw [writeFrom, if_neg hout]
  · rw [writeFrom, if_neg hout, h.manifest_eq, linePart, hf, append_nil]

theorem follows_appendEntry (h : Wrote line w front) (hf : line f = fileLine data f) :
    Follows io line front [f] (manifestAppendEntry data io f.answers f.path w) := by
  rw [manifestAppendEntry]
  by_cases hsize : f.answers.size = -1
  · rw [if_pos hsize]
    exact follows_stop h (by rw [hf, fileLine, if_pos hsize]) []
  rw [if_neg hsize]
  rw [fileLine, if_neg hsize] at hf
  cases hhash : installSha256FileHex data f.answers.opens f.answers.reads with
  | none =>
    rw [hhash] at hf
    exact follows_stop h hf []
  | some hash =>
    rw [hhash, bind_some] at hf
    dsimp only at hf ⊢
    generalize entryLine f.path f.answers.size hash = l at hf ⊢
    by_cases hlong : l.length ≥ lineMax
    · rw [if_pos hlong] at hf ⊢
      exact follows_stop h hf []
    rw [if_neg hlong] at hf ⊢
    rw [h.bytes_eq, h.files_eq]
    have hpart : linePart io line front f =
        if (text line front).length + l.length > manifestMaxBytes then []
        else l.take (io front.length).wrote := by
      rw [linePart, hf]
    by_cases hfull : (text line front).length + l.length > manifestMaxBytes
    · have hout : ¬ LineOut io line front f := fun hout =>
        absurd ((lineOut_iff hf).1 hout).1 (not_le.2 hfull)
      rw [if_pos hfull] at hpart ⊢
      refine ⟨?_, ?_, fun hok => by cases hok⟩
      · rw [writeFrom, if_neg hout]
      · rw [writeFrom, if_neg hout, hpart, append_nil, h.manifest_eq]
    rw [if_neg hfull] at hpart ⊢
    by_cases hshort : (io front.length).answer.toNat ≠ l.length
    · have hout : ¬ LineOut io line front f := fun hout =>
        hshort ((lineOut_iff hf).1 hout).2
      rw [if_pos hshort]
      refine ⟨?_, ?_, fun hok => by cases hok⟩
      · rw [writeFrom, if_neg hout]
      · rw [writeFrom, if_neg hout, hpart, h.manifest_eq]
    · have hout : LineOut io line front f :=
        (lineOut_iff hf).2 ⟨not_lt.1 hfull, not_not.1 hshort⟩
      have htext : text line (front ++ [f]) = text line front ++ l := by
        rw [ItemLog.text_append, ItemLog.text_cons, hf, getD_some, ItemLog.text_nil,
          append_nil]
      rw [if_neg hshort]
      refine ⟨?_, ?_, fun _ => ⟨?_, ?_, ?_⟩⟩
      · rw [writeFrom, if_pos hout]
        rfl
      · rw [writeFrom, if_pos hout, writeFrom, htext, h.manifest_eq]
      · rw [length_append, length_singleton]
      · rw [htext, length_append]
      · rw [htext, h.manifest_eq]

/-- An old entry that a refresh writes again: the update does not replace it, the manifest
has it, and its target is a file. -/
def keepsEntry (e : ManifestEntry × UInt64 × FileAnswers) : Bool :=
  ! updateShellPathIncluded e.1.path && manifestPathIncluded e.1.path &&
    (decide (rootJoin pathMax mountPath e.1.path = none) || decide (e.2.1 = 1))

/-- The files that a refresh writes. -/
def tracked (old : List (ManifestEntry × UInt64 × FileAnswers))
    (new : List (ManifestEntry × FileAnswers)) : List Tracked :=
  (old.filter keepsEntry).map (fun e => ⟨e.1.path, e.2.2⟩) ++ new.map fun e => ⟨e.1.path, e.2⟩

theorem follows_refreshOld (old : List (ManifestEntry × UInt64 × FileAnswers))
    (h : Wrote (targetLine data) w front) :
    Follows io (targetLine data) front
      ((old.filter keepsEntry).map fun e => ⟨e.1.path, e.2.2⟩) (refreshOld data io old w) := by
  induction old generalizing front w with
  | nil => exact follows_nil h
  | cons e old ih =>
    obtain ⟨entry, type, answers⟩ := e
    rw [refreshOld]
    by_cases hskip : updateShellPathIncluded entry.path ∨ manifestPathIncluded entry.path = false
    · have hkeep : keepsEntry (entry, type, answers) = false := by
        rcases hskip with hskip | hskip
        · simp [keepsEntry, hskip]
        · simp [keepsEntry, hskip]
      rw [if_pos hskip, filter_cons, hkeep]
      exact ih h
    rw [if_neg hskip]
    obtain ⟨hupdate, hmanifest⟩ := not_or.1 hskip
    rw [Bool.not_eq_true] at hupdate
    rw [Bool.not_eq_false] at hmanifest
    by_cases hjoin : rootJoin pathMax mountPath entry.path = none
    · have hkeep : keepsEntry (entry, type, answers) = true := by
        simp [keepsEntry, hupdate, hmanifest, hjoin]
      have hnone : targetLine data ⟨entry.path, answers⟩ = none := if_pos hjoin
      rw [if_pos hjoin, filter_cons, hkeep, if_pos rfl, map_cons]
      exact follows_stop h hnone _
    rw [if_neg hjoin]
    by_cases htype : type = 1
    · have hkeep : keepsEntry (entry, type, answers) = true := by
        simp [keepsEntry, hupdate, hmanifest, htype]
      rw [if_neg (not_not.2 htype), filter_cons, hkeep, if_pos rfl, map_cons,
        ← singleton_append]
      have hfirst : Follows io (targetLine data) front [⟨entry.path, answers⟩]
          (manifestAppendEntry data io answers entry.path w) :=
        follows_appendEntry h (if_neg hjoin)
      exact hfirst.append fun hok => ih (hfirst.wrote hok)
    · have hkeep : keepsEntry (entry, type, answers) = false := by
        simp [keepsEntry, hjoin, htype]
      rw [if_pos htype, filter_cons, hkeep]
      exact ih h

theorem follows_refreshNew (new : List (ManifestEntry × FileAnswers))
    (h : Wrote (targetLine data) w front) :
    Follows io (targetLine data) front (new.map fun e => ⟨e.1.path, e.2⟩)
      (refreshNew data io new w) := by
  induction new generalizing front w with
  | nil => exact follows_nil h
  | cons e new ih =>
    obtain ⟨entry, answers⟩ := e
    rw [refreshNew, map_cons]
    by_cases hjoin : rootJoin pathMax mountPath entry.path = none
    · have hnone : targetLine data ⟨entry.path, answers⟩ = none := if_pos hjoin
      rw [if_pos hjoin]
      exact follows_stop h hnone _
    · have hfirst : Follows io (targetLine data) front [⟨entry.path, answers⟩]
          (manifestAppendEntry data io answers entry.path w) :=
        follows_appendEntry h (if_neg hjoin)
      rw [if_neg hjoin, ← singleton_append]
      exact hfirst.append fun hok => ih (hfirst.wrote hok)

theorem refreshManifest_eq (c : FileCalls) (old : List (ManifestEntry × UInt64 × FileAnswers))
    (new : List (ManifestEntry × FileAnswers)) (file : Option (List UInt8))
    (hcreated : (recreate c file).1 = true) :
    refreshManifest data io c old new file =
      ((manifestOf io (targetLine data) (tracked old new)).1 && decide (tracked old new ≠ []),
        some (manifestOf io (targetLine data) (tracked old new)).2) := by
  have hold := @follows_refreshOld data io [] {} old (wrote_nil _)
  have hall := hold.append fun hok => follows_refreshNew new (hold.wrote hok)
  have hlog : manifestOf io (targetLine data) (tracked old new) =
      writeFrom (targetLine data) (LineOut io (targetLine data))
        (linePart io (targetLine data)) [] (tracked old new) := rfl
  change Follows io (targetLine data) [] (tracked old new) _ at hall
  rw [refreshManifest, hlog]
  dsimp only
  rw [if_neg (by rw [hcreated]; decide)]
  cases hfirst : (refreshOld data io old {}).1 with
  | false =>
    rw [if_pos hfirst] at hall
    rw [if_pos rfl, ← hall.ok_eq, ← hall.manifest_eq, hfirst]
    rfl
  | true =>
    rw [if_neg (by rw [hfirst]; decide)] at hall
    rw [if_neg (by decide), ← hall.ok_eq, ← hall.manifest_eq]
    have hwrote := hall.wrote
    generalize refreshNew data io new (refreshOld data io old {}).2 = r at hwrote ⊢
    cases hsecond : r.1 with
    | false => rfl
    | true =>
      have hfiles : r.2.files = (tracked old new).length := (hwrote hsecond).files_eq
      rw [if_neg (by decide), Bool.true_and, hfiles]
      simp only [ne_eq, length_eq_zero_iff]

variable {c : FileCalls}

/-- A refresh that fails leaves the old manifest, or the complete new one. -/
def Atomic (data : ℕ → UInt8) (io : ℕ → AppendAnswer) (c : FileCalls)
    (old : List (ManifestEntry × UInt64 × FileAnswers)) (new : List (ManifestEntry × FileAnswers))
    (manifest : List UInt8) : Prop :=
  let r := refreshManifest data io c old new (some manifest)
  r.1 = false → ∃ log, r.2 = some log ∧
    (log = manifest ∨ Complete (targetLine data) (tracked old new) log)

/-- The old manifest is not touched: its removal fails, or it does not show as a file and the
new one cannot be created. -/
def Untouched (c : FileCalls) : Prop :=
  (c.type = 1 ∧ c.remove = false) ∨ (c.type ≠ 1 ∧ c.write = false)

/-- An empty file is created in place of the old manifest. -/
def Created (c : FileCalls) : Prop := (c.type = 1 → c.remove = true) ∧ c.write = true

/-- What the lines that get out leave is the old manifest or the new one: where there is
nothing to write the old one is empty, and where a line does not get out the old manifest is
just what stands there by then, or it is the last line and all of it was appended. -/
def SparesOld (data : ℕ → UInt8) (io : ℕ → AppendAnswer) (files : List Tracked)
    (manifest : List UInt8) : Prop :=
  (files = [] → manifest = []) ∧
    Spares (targetLine data) (LineOut io (targetLine data)) (linePart io (targetLine data))
      manifest files

theorem recreate_of_created (h : Created c) (file : Option (List UInt8)) :
    recreate c file = (true, some []) := by
  have hremove : ¬ (c.type = 1 ∧ c.remove = false) := by
    rintro ⟨htype, hremove⟩
    rw [h.1 htype] at hremove
    cases hremove
  rw [recreate, if_neg hremove]
  dsimp only
  rw [if_neg (by rw [h.2]; decide)]

theorem recreate_cases (c : FileCalls) (file : Option (List UInt8)) :
    (Untouched c ∧ recreate c file = (false, file)) ∨
    (¬ Untouched c ∧ ¬ Created c ∧ recreate c file = (false, none)) ∨
    (¬ Untouched c ∧ Created c ∧ recreate c file = (true, some [])) := by
  by_cases hcreated : Created c
  · right
    right
    refine ⟨?_, hcreated, recreate_of_created hcreated file⟩
    rintro (⟨htype, hremove⟩ | ⟨-, hwrite⟩)
    · rw [hcreated.1 htype] at hremove
      cases hremove
    · rw [hcreated.2] at hwrite
      cases hwrite
  by_cases hremove : c.type = 1 ∧ c.remove = false
  · left
    exact ⟨.inl hremove, by rw [recreate, if_pos hremove]⟩
  have hwrite : c.write = false := by
    rw [← Bool.not_eq_true]
    intro hwrite
    refine hcreated ⟨fun htype => ?_, hwrite⟩
    rw [← Bool.not_eq_false]
    exact fun hfalse => hremove ⟨htype, hfalse⟩
  rw [recreate, if_neg hremove]
  dsimp only
  rw [if_pos hwrite]
  by_cases htype : c.type = 1
  · right
    left
    refine ⟨?_, hcreated, by rw [if_pos htype]⟩
    rintro (hgone | ⟨hne, -⟩)
    · exact hremove hgone
    · exact hne htype
  · left
    exact ⟨.inr ⟨htype, hwrite⟩, by rw [if_neg htype]⟩

theorem manifestOf_spares_iff (files : List Tracked) (manifest : List UInt8) :
    (((manifestOf io (targetLine data) files).1 && decide (files ≠ [])) = false →
      ∃ log, some (manifestOf io (targetLine data) files).2 = some log ∧
        (log = manifest ∨ Complete (targetLine data) files log)) ↔
      SparesOld data io files manifest := by
  have hiff := @ItemLog.write_spares_iff _ _ (targetLine data) (LineOut io (targetLine data))
    (linePart io (targetLine data)) files manifest _ targetLine_ne_nil
    (fun _ _ _ => length_linePart_le) (fun _ _ => isSome_of_lineOut)
  have hlog : (∃ log, some (manifestOf io (targetLine data) files).2 = some log ∧
      (log = manifest ∨ Complete (targetLine data) files log)) ↔
      (manifestOf io (targetLine data) files).2 = manifest ∨
        Complete (targetLine data) files (manifestOf io (targetLine data) files).2 := by
    constructor
    · rintro ⟨log, hsome, h⟩
      cases hsome
      exact h
    · exact fun h => ⟨_, rfl, h⟩
  rw [hlog, SparesOld, ← hiff, ← manifestOf]
  by_cases hfiles : files = []
  · subst hfiles
    have hempty : manifestOf io (targetLine data) [] = (true, []) := rfl
    have hnot : ¬ Complete (targetLine data) [] [] := fun h => h.1 rfl
    rw [hempty]
    constructor
    · intro h
      exact ⟨fun _ => ((h rfl).resolve_right hnot).symm, fun hok => by cases hok⟩
    · rintro ⟨h, -⟩ -
      exact .inl (h rfl).symm
  · simp [hfiles]

/-- **Atomicity of a refresh.** A refresh that fails leaves the old manifest or the complete
new one just where the old one is not touched, or what the lines leave is one of the two. -/
theorem refresh_atomic_iff (data : ℕ → UInt8) (io : ℕ → AppendAnswer) (c : FileCalls)
    (old : List (ManifestEntry × UInt64 × FileAnswers)) (new : List (ManifestEntry × FileAnswers))
    (manifest : List UInt8) :
    Atomic data io c old new manifest ↔
      Untouched c ∨ (Created c ∧ SparesOld data io (tracked old new) manifest) := by
  rw [Atomic]
  rcases recreate_cases c (some manifest) with
    ⟨huntouched, hfile⟩ | ⟨huntouched, hcreated, hfile⟩ | ⟨huntouched, hcreated, hfile⟩
  · have hrun : refreshManifest data io c old new (some manifest) = (false, some manifest) := by
      rw [refreshManifest, hfile]
      rfl
    rw [hrun]
    exact iff_of_true (fun _ => ⟨manifest, rfl, .inl rfl⟩) (.inl huntouched)
  · have hrun : refreshManifest data io c old new (some manifest) = (false, none) := by
      rw [refreshManifest, hfile]
      rfl
    rw [hrun]
    refine iff_of_false (fun h => ?_) (not_or.2 ⟨huntouched, fun h => hcreated h.1⟩)
    obtain ⟨log, hlog, -⟩ := h rfl
    cases hlog
  · rw [refreshManifest_eq c old new (some manifest) (by rw [hfile]), or_iff_right huntouched,
      and_iff_right hcreated]
    exact manifestOf_spares_iff (tracked old new) manifest

/-- The digest of an entry, as any text of 64 digits. -/
def zeros : List UInt8 := List.replicate sha256HexLen 48

/-- Where the size of the new file cannot be had, an empty manifest is left. -/
theorem refresh_not_atomic :
    ¬ Atomic (fun _ => 0) (fun _ => ⟨0, 0⟩) ⟨1, true, true⟩
      [(⟨lit "/shell/a", 1, zeros⟩, 1, ⟨1, true, []⟩)]
      [(⟨lit "/shell/a", 2, zeros⟩, ⟨-1, false, []⟩)] (entryLine (lit "/shell/a") 1 zeros) := by
  intro h
  obtain ⟨log, hlog, hcase⟩ := h (by decide)
  have hrun : (refreshManifest (fun _ => 0) (fun _ => ⟨0, 0⟩) ⟨1, true, true⟩
      [(⟨lit "/shell/a", 1, zeros⟩, 1, ⟨1, true, []⟩)]
      [(⟨lit "/shell/a", 2, zeros⟩, ⟨-1, false, []⟩)]
      (some (entryLine (lit "/shell/a") 1 zeros))).2 = some [] := by
    decide
  rw [hrun] at hlog
  cases hlog
  rcases hcase with hold | ⟨-, hlines, -⟩
  · exact entryLine_ne_nil _ _ _ hold.symm
  · have hline := hlines ⟨lit "/shell/a", ⟨-1, false, []⟩⟩ (by simp [tracked])
    exact absurd hline (by decide)

end Cleonos.Install
