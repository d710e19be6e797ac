import Cleonos.Install.Update

/-!
# What a dry run predicts

A dry run is the plan of an update.
-/

namespace Cleonos.Install

open List
open Attempt (succeed check Keeps keeps_succeed keeps_check keeps_ite)

variable {κ : Type} [DecidableEq κ] {calls : Calls κ} {run run' run'' : Run κ} {k : κ}
  {old new entries : List ManifestEntry} {entry : ManifestEntry} {path : List UInt8}

/-! ## What a dry run changes -/

/-- Everything is as before, but for what is at `k`. -/
def Elsewhere (k : κ) (run run' : Run κ) : Prop := ∀ j, j ≠ k → run'.tree j = run.tree j

instance : IsPreorder (Run κ) (Elsewhere k) where
  refl _ _ _ := rfl
  trans _ _ _ h h' j hj := (h' j hj).trans (h j hj)

/-- Nothing has changed at any place. -/
def SameTree (run run' : Run κ) : Prop := run'.tree = run.tree

instance : IsPreorder (Run κ) SameTree where
  refl _ := rfl
  trans _ _ _ h h' := Eq.trans h' h

theorem elsewhere_set (run : Run κ) (k : κ) (place : Place) :
    Elsewhere k run (run.set k place) := by
  intro j hj
  exact Function.update_of_ne hj _ _

theorem keeps_planEntry : Keeps SameTree (planEntry calls old entry) := by
  intro run
  rw [planEntry]
  split
  · rfl
  · rfl

theorem keeps_planEntries : Keeps SameTree (planEntries calls old new) := by
  induction new with
  | nil => exact keeps_succeed
  | cons entry entries ih => exact keeps_planEntry.andThen ih

def SameDeleted (run run' : Run κ) : Prop := run'.result.deleted = run.result.deleted

instance : IsPreorder (Run κ) SameDeleted where
  refl _ := rfl
  trans _ _ _ h h' := Eq.trans h' h

theorem deleted_planEntry : Keeps SameDeleted (planEntry calls old entry) := by
  intro run
  rw [planEntry]
  split
  · rfl
  · change (if _ then _ else _ : UpdateResult).deleted = _
    split
    · rfl
    · rfl

theorem deleted_planEntries : Keeps SameDeleted (planEntries calls old new) := by
  induction new with
  | nil => exact keeps_succeed
  | cons entry entries ih => exact deleted_planEntry.andThen ih

theorem keeps_deleteEntry : Keeps SameTree (deleteEntry calls true entry) := by
  intro run
  rw [deleteEntry]
  split
  · rfl
  · split
    · rfl
    · rfl

theorem keeps_deleteObsolete : Keeps SameTree (deleteObsolete calls true new old) := by
  induction old with
  | nil => exact keeps_succeed
  | cons entry entries ih =>
    exact (keeps_ite (fun _ => keeps_deleteEntry) fun _ => keeps_succeed).andThen ih

theorem keeps_plan : Keeps SameTree (plan calls old new) :=
  keeps_planEntries.andThen keeps_deleteObsolete

theorem keeps_prepare : Keeps (Elsewhere (calls.key dryRunManifest)) (prepare calls) :=
  keeps_check.andThen <| keeps_check.andThen <| keeps_check.andThen fun run =>
    elsewhere_set run _ _

theorem keeps_dryRun :
    Keeps (Elsewhere (calls.key dryRunManifest)) (installUpdateShell calls true) := by
  apply Keeps.andThen keeps_prepare
  intro run j _
  dsimp only
  split
  · rename_i old new _ _
    split
    · rfl
    · rw [if_pos rfl]
      have hplan := (@keeps_plan κ _ calls old new).andThen keeps_succeed
      exact congrFun (hplan (run.count fun _ => {})) j
  · rfl

def Place.isFile : Place → Bool
  | .file _ => true
  | _ => false

/-- Whether there is a file at a place. -/
def Run.isFileAt (run : Run κ) (k : κ) : Bool := (run.tree k).isFile

theorem type_eq_one {place : Place} : place.type = 1 ↔ place.isFile = true := by
  cases place with
  | nothing => decide
  | file bytes => exact iff_of_true rfl rfl
  | directory => decide

theorem type_at : (calls.at run path).type = 1 ↔ run.isFileAt (calls.key path) = true :=
  type_eq_one

section Places

variable (calls : Calls κ)

/-- The places that the obsolete lines of the old manifest name. -/
def obsoletePlaces (new : List ManifestEntry) : List ManifestEntry → List κ
  | [] => []
  | entry :: entries =>
    (if isObsolete new entry then (rootJoin pathMax mountPath entry.path).map calls.key
      else none).toList ++ obsoletePlaces new entries

end Places

theorem obsoletePlaces_cons_of_not (h : ¬ isObsolete new entry = true) :
    obsoletePlaces calls new (entry :: old) = obsoletePlaces calls new old := by
  rw [obsoletePlaces, if_neg h]
  rfl

theorem obsoletePlaces_cons (h : isObsolete new entry = true)
    (hjoin : rootJoin pathMax mountPath entry.path = some path) :
    obsoletePlaces calls new (entry :: old) =
      calls.key path :: obsoletePlaces calls new old := by
  rw [obsoletePlaces, if_pos h, hjoin]
  rfl

theorem deleteEntry_eq_true {dryRun : Bool}
    (h : deleteEntry calls dryRun entry run = (true, run')) :
    ∃ target, rootJoin pathMax mountPath entry.path = some target ∧
      if run.isFileAt (calls.key target) then
        run'.result.deleted = run.result.deleted + 1 ∧
          run'.tree = if dryRun then run.tree
            else Function.update run.tree (calls.key target) .nothing
      else run' = run := by
  rw [deleteEntry] at h
  cases hjoin : rootJoin pathMax mountPath entry.path with
  | none =>
    rw [hjoin] at h
    cases h
  | some target =>
    refine ⟨target, rfl, ?_⟩
    rw [hjoin] at h
    dsimp only at h
    split
    case isTrue hfile =>
      rw [if_neg (not_not_intro (type_at.2 hfile)), Attempt.andThen_eq_true] at h
      obtain ⟨mid, hremove, hcount⟩ := h
      cases hcount
      cases dryRun with
      | true =>
        cases hremove
        exact ⟨rfl, rfl⟩
      | false =>
        change removeFile calls target run = (true, mid) at hremove
        rw [removeFile] at hremove
        split at hremove
        case isTrue =>
          cases hremove
          exact ⟨rfl, rfl⟩
        case isFalse => cases hremove
    case isFalse hfile =>
      rw [if_pos (mt type_at.1 hfile)] at h
      cases h
      rfl

theorem deleteObsolete_dryRun (h : deleteObsolete calls true new old run = (true, run')) :
    run'.result.deleted =
      run.result.deleted + ((obsoletePlaces calls new old).filter run.isFileAt).length := by
  induction old generalizing run with
  | nil =>
    cases h
    rfl
  | cons entry old ih =>
    rw [deleteObsolete, Attempt.andThen_eq_true] at h
    obtain ⟨mid, hentry, hrest⟩ := h
    have hih := ih hrest
    by_cases hobsolete : isObsolete new entry = true
    · rw [if_pos hobsolete] at hentry
      obtain ⟨target, hjoin, hdone⟩ := deleteEntry_eq_true hentry
      rw [obsoletePlaces_cons hobsolete hjoin]
      by_cases hfile : run.isFileAt (calls.key target) = true
      · rw [if_pos hfile] at hdone
        have hsame : mid.isFileAt = run.isFileAt := by
          ext k
          rw [Run.isFileAt, Run.isFileAt, hdone.2, if_pos rfl]
        rw [hih, hdone.1, hsame, filter_cons_of_pos hfile, length_cons]
        omega
      · rw [if_neg hfile] at hdone
        rw [hih, hdone, filter_cons_of_neg hfile]
    · rw [if_neg hobsolete] at hentry
      cases hentry
      rw [hih, obsoletePlaces_cons_of_not hobsolete]

theorem filter_isFileAt_removed (h : run'.tree = Function.update run.tree k .nothing)
    (places : Finset κ) :
    (places.filter fun j => run'.isFileAt j) = (places.filter fun j => run.isFileAt j).erase k := by
  ext j
  rw [Finset.mem_erase, Finset.mem_filter, Finset.mem_filter, Run.isFileAt, h]
  by_cases hj : j = k
  · rw [hj, Function.update_self]
    simp [Place.isFile]
  · rw [Function.update_of_ne hj]
    simp [hj, Run.isFileAt]

theorem deleteObsolete_update (h : deleteObsolete calls false new old run = (true, run')) :
    run'.result.deleted = run.result.deleted +
      ((obsoletePlaces calls new old).toFinset.filter fun k => run.isFileAt k).card := by
  induction old generalizing run with
  | nil =>
    cases h
    rfl
  | cons entry old ih =>
    rw [deleteObsolete, Attempt.andThen_eq_true] at h
    obtain ⟨mid, hentry, hrest⟩ := h
    have hih := ih hrest
    by_cases hobsolete : isObsolete new entry = true
    · rw [if_pos hobsolete] at hentry
      obtain ⟨target, hjoin, hdone⟩ := deleteEntry_eq_true hentry
      rw [obsoletePlaces_cons hobsolete hjoin, toFinset_cons, Finset.filter_insert]
      by_cases hfile : run.isFileAt (calls.key target) = true
      · rw [if_pos hfile] at hdone
        -- the place is not counted again for a later line
        rw [filter_isFileAt_removed hdone.2] at hih
        rw [hih, hdone.1, if_pos hfile, ← Finset.insert_erase (Finset.mem_insert_self _ _),
          Finset.erase_insert_eq_erase, Finset.card_insert_of_notMem (Finset.notMem_erase _ _)]
        omega
      · rw [if_neg hfile] at hdone
        rw [hih, hdone, if_neg hfile]
    · rw [if_neg hobsolete] at hentry
      cases hentry
      rw [hih, obsoletePlaces_cons_of_not hobsolete]

/-- The counters that the plan sets are as before. -/
def SamePlan (run run' : Run κ) : Prop :=
  run'.result.added = run.result.added ∧ run'.result.updated = run.result.updated ∧
    run'.result.unchanged = run.result.unchanged

instance : IsPreorder (Run κ) SamePlan where
  refl _ := ⟨rfl, rfl, rfl⟩
  trans _ _ _ h h' := ⟨h'.1.trans h.1, h'.2.1.trans h.2.1, h'.2.2.trans h.2.2⟩

/-- All counters are as before. -/
def SameResult (run run' : Run κ) : Prop := run'.result = run.result

instance : IsPreorder (Run κ) SameResult where
  refl _ := rfl
  trans _ _ _ h h' := Eq.trans h' h

theorem SameResult.samePlan (h : SameResult run run') : SamePlan run run' := by
  rw [SameResult] at h
  rw [SamePlan, h]
  exact ⟨rfl, rfl, rfl⟩

theorem sameResult_mkdir : Keeps SameResult (mkdir calls path) := by
  intro run
  rw [mkdir]
  split
  · rfl
  · split
    · rfl
    · split
      · rfl
      · rfl

theorem sameResult_mkdirParentsLoop {front rest : List UInt8} :
    Keeps SameResult (mkdirParentsLoop calls front rest) := by
  induction rest generalizing front with
  | nil => exact keeps_succeed
  | cons c rest ih =>
    rw [mkdirParentsLoop]
    split
    · exact ih
    · exact sameResult_mkdir.andThen ih

theorem sameResult_mkdirParentsForFile : Keeps SameResult (mkdirParentsForFile calls path) := by
  rw [mkdirParentsForFile]
  split
  · exact keeps_check
  · exact sameResult_mkdirParentsLoop

theorem sameResult_removeFile : Keeps SameResult (removeFile calls path) := by
  intro run
  rw [removeFile]
  split
  · rfl
  · rfl

theorem sameResult_writeText {text : List UInt8} :
    Keeps SameResult (writeText calls path text) := by
  intro run
  rw [writeText]
  split
  · rfl
  · rfl

theorem samePlan_copyWith {routine : CopyAnswers → List UInt8 → Place → Copied}
    {source target : List UInt8} {count : Copied → UpdateResult → UpdateResult}
    (hcount : count = countCopied ∨ count = countNothing) :
    Keeps SamePlan (copyWith calls routine source target count) := by
  intro run
  rw [copyWith]
  split
  · rcases hcount with rfl | rfl
    · exact ⟨rfl, rfl, rfl⟩
    · exact ⟨rfl, rfl, rfl⟩
  · exact ⟨rfl, rfl, rfl⟩

theorem samePlan_copyEntry : Keeps SamePlan (copyEntry calls entry) := by
  rw [copyEntry]
  split
  · apply Keeps.andThen fun run => (sameResult_mkdirParentsForFile run).samePlan
    apply Keeps.andThen (samePlan_copyWith (.inl rfl))
    intro run
    dsimp only
    split
    · exact ⟨rfl, rfl, rfl⟩
    · exact ⟨rfl, rfl, rfl⟩
  · exact keeps_check

theorem samePlan_copyEntries : Keeps SamePlan (copyEntries calls old new) := by
  induction new with
  | nil => exact keeps_succeed
  | cons entry entries ih =>
    apply Keeps.andThen _ ih
    intro run
    dsimp only
    split
    · exact ⟨rfl, rfl, rfl⟩
    · exact samePlan_copyEntry run.tick

theorem samePlan_writeStateFiles : Keeps SamePlan (writeStateFiles calls) := by
  apply Keeps.andThen fun run => (sameResult_mkdir run).samePlan
  apply Keeps.andThen fun run => (sameResult_writeText run).samePlan
  apply Keeps.andThen _ (samePlan_copyWith (.inr rfl))
  intro run
  dsimp only
  split
  · exact samePlan_copyWith (.inr rfl) run
  · exact ⟨rfl, rfl, rfl⟩

theorem samePlan_syncOsMetadata : Keeps SamePlan (syncOsMetadata calls) := by
  apply Keeps.andThen fun run => (sameResult_mkdir run).samePlan
  exact (samePlan_copyWith (.inl rfl)).andThen (samePlan_copyWith (.inl rfl))

theorem samePlan_deleteEntry {dryRun : Bool} : Keeps SamePlan (deleteEntry calls dryRun entry) := by
  intro run
  rw [deleteEntry]
  split
  · exact ⟨rfl, rfl, rfl⟩
  · split
    · exact ⟨rfl, rfl, rfl⟩
    · refine Keeps.andThen (keeps_ite (fun _ => keeps_succeed) fun _ run => ?_)
        (fun run => ⟨rfl, rfl, rfl⟩) run
      exact (sameResult_removeFile run).samePlan

theorem samePlan_deleteObsolete {dryRun : Bool} :
    Keeps SamePlan (deleteObsolete calls dryRun new old) := by
  induction old with
  | nil => exact keeps_succeed
  | cons entry old ih =>
    exact (keeps_ite (fun _ => samePlan_deleteEntry) fun _ => keeps_succeed).andThen ih

theorem sameResult_removeIfFile : Keeps SameResult (removeIfFile calls path) := by
  intro run
  rw [removeIfFile]
  split
  · exact sameResult_removeFile run
  · rfl

theorem sameResult_cleanupState : Keeps SameResult (cleanupState calls) :=
  sameResult_removeIfFile.andThen (sameResult_removeIfFile.andThen sameResult_removeIfFile)

theorem sameResult_refreshInstallManifest :
    Keeps SameResult (refreshInstallManifest calls old new) := fun _ => rfl

theorem sameResult_finish : Keeps SameResult (finish calls old new) := by
  intro run
  rw [finish]
  split
  · exact sameResult_cleanupState run
  · exact (sameResult_refreshInstallManifest.andThen sameResult_cleanupState) run

/-- The places of `places` have become files, and there is a file elsewhere if there was one. -/
def Filled (places : List κ) (run run' : Run κ) : Prop :=
  ∀ k, run'.isFileAt k = true ↔ run.isFileAt k = true ∨ k ∈ places

theorem Filled.refl (run : Run κ) : Filled [] run run := fun k => by simp

theorem Filled.trans {places places' : List κ} (h : Filled places run run')
    (h' : Filled places' run' run'') : Filled (places ++ places') run run'' := by
  intro k
  rw [h' k, h k, mem_append, or_assoc]

theorem filled_of_tree (h : run'.tree = run.tree) : Filled [] run run' := by
  intro k
  rw [Run.isFileAt, h]
  simp [Run.isFileAt]

theorem filled_of_isFileAt (hfile : run.isFileAt k = true) (h : run'.tree = run.tree) :
    Filled [k] run run' := by
  intro j
  rw [filled_of_tree h j, mem_singleton]
  constructor
  · rintro (hold | hnil)
    · exact .inl hold
    · cases hnil
  · rintro (hold | rfl)
    · exact .inl hold
    · exact .inl hfile

theorem isFileAt_set_self (run : Run κ) (k : κ) (place : Place) :
    (run.set k place).isFileAt k = place.isFile :=
  congrArg Place.isFile (Function.update_self k _ _)

theorem isFileAt_set_of_ne {j : κ} (hj : j ≠ k) (place : Place) :
    (run.set k place).isFileAt j = run.isFileAt j :=
  congrArg Place.isFile (Function.update_of_ne hj _ _)

theorem filled_set {place : Place} (hfile : place.isFile = true) :
    Filled [k] run (run.set k place) := by
  intro j
  rw [mem_singleton]
  by_cases hj : j = k
  · rw [hj, isFileAt_set_self]
    exact iff_of_true hfile (.inr rfl)
  · rw [isFileAt_set_of_ne hj, or_iff_left hj]

instance : IsPreorder (Run κ) (Filled []) where
  refl run := Filled.refl run
  trans _ _ _ h h' := h.trans h'

theorem filled_mkdir : Keeps (Filled []) (mkdir calls path) := by
  intro run
  rw [mkdir]
  split
  · exact Filled.refl run
  · split
    · exact filled_of_tree rfl
    · split
      case isTrue hnothing =>
        intro j
        rw [or_iff_left not_mem_nil]
        dsimp only
        by_cases hj : j = calls.key path
        · have hold : run.tree j = .nothing := hj ▸ hnothing
          rw [hj, isFileAt_set_self, ← hj, Run.isFileAt, hold]
          rfl
        · rw [isFileAt_set_of_ne hj]
      case isFalse => exact filled_of_tree rfl

theorem filled_mkdirParentsLoop {front rest : List UInt8} :
    Keeps (Filled []) (mkdirParentsLoop calls front rest) := by
  induction rest generalizing front with
  | nil => exact keeps_succeed
  | cons c rest ih =>
    rw [mkdirParentsLoop]
    split
    · exact ih
    · exact filled_mkdir.andThen ih

theorem filled_mkdirParentsForFile : Keeps (Filled []) (mkdirParentsForFile calls path) := by
  rw [mkdirParentsForFile]
  split
  · exact keeps_check
  · exact filled_mkdirParentsLoop

theorem filled_writeText {text : List UInt8} (htext : text ≠ [])
    (h : writeText calls path text run = (true, run')) : Filled [calls.key path] run run' := by
  rw [writeText] at h
  split at h
  case isTrue => cases h
  case isFalse =>
    have hreturned := of_decide_eq_true (congrArg Prod.fst h)
    have hlen : text.length ≠ 0 := fun hzero => htext (length_eq_zero_iff.1 hzero)
    have hok : (calls.write run.calls).ok = true := by
      apply @ok_of_returned calls.done _ text.length
      rw [hreturned]
      exact hlen
    cases congrArg Prod.snd h
    apply filled_set
    rw [writtenTo_of_ok hok]
    rfl

/-- A routine that leaves a file when it succeeds. -/
def LeavesFile (routine : CopyAnswers → List UInt8 → Place → Copied) : Prop :=
  ∀ e src dst, (routine e src dst).ok = true → (routine e src dst).dst.isFile = true

variable (done : ℕ → ℕ)

theorem leavesFile_installCopyFile : LeavesFile (installCopyFile done) := by
  intro e src dst hok
  obtain ⟨bytes, hdst, -⟩ := copyFile_file hok
  rw [installCopyFile, hdst]
  rfl

theorem leavesFile_installUpdateCopyFileUnverified :
    LeavesFile (installUpdateCopyFileUnverified done) := by
  intro e src dst hok
  obtain ⟨bytes, hdst, -⟩ := copyFile_file hok
  rw [installUpdateCopyFileUnverified, hdst]
  rfl

theorem leavesFile_installOverwriteFileWhole : LeavesFile (installOverwriteFileWhole done) := by
  intro e src dst hok
  obtain ⟨bytes, hdst, -⟩ := installOverwriteFileWhole_file hok
  rw [hdst]
  rfl

theorem filled_copyWith {routine : CopyAnswers → List UInt8 → Place → Copied}
    {source target : List UInt8} {count : Copied → UpdateResult → UpdateResult}
    (hroutine : LeavesFile routine)
    (h : copyWith calls routine source target count run = (true, run')) :
    Filled [calls.key target] run run' := by
  rw [copyWith] at h
  split at h
  · cases congrArg Prod.snd h
    exact filled_set (hroutine _ _ _ (congrArg Prod.fst h))
  · cases h

section Written

variable (calls : Calls κ)

/-- The places of the entries. -/
def entryPlaces (entries : List ManifestEntry) : List κ :=
  entries.filterMap fun e => (rootJoin pathMax mountPath e.path).map calls.key

/-- The places of the state files; the old manifest is kept if there is one by then. -/
def statePlaces (run : Run κ) : List κ :=
  let prev :=
    if run.isFileAt (calls.key manifestTarget) ∨
        calls.key manifestTarget = calls.key updateStateTarget then
      [calls.key manifestPrevTarget]
    else []
  calls.key updateStateTarget :: (prev ++ [calls.key manifestNewTarget])

/-- The places that an update writes. -/
def writtenPlaces (run : Run κ) (new : List ManifestEntry) : List κ :=
  statePlaces calls run ++ (entryPlaces calls new ++
    [calls.key osVersionTarget, calls.key osReleaseTarget])

end Written

theorem entryPlaces_cons (hjoin : rootJoin pathMax mountPath entry.path = some path) :
    entryPlaces calls (entry :: entries) = [calls.key path] ++ entryPlaces calls entries := by
  rw [entryPlaces, filterMap_cons, hjoin]
  rfl

theorem targetMatches_isFileAt (h : targetMatches calls run entry = true) :
    ∃ target, rootJoin pathMax mountPath entry.path = some target ∧
      run.isFileAt (calls.key target) = true := by
  rw [targetMatches] at h
  cases hjoin : rootJoin pathMax mountPath entry.path with
  | none =>
    rw [hjoin] at h
    cases h
  | some target =>
    rw [hjoin] at h
    dsimp only at h
    split at h
    case isTrue => cases h
    case isFalse htype =>
      rw [Decidable.not_not] at htype
      exact ⟨target, rfl, type_at.1 htype⟩

theorem targetMatches_of_planCopy {found : Option ManifestEntry}
    (h : planCopy calls run entry found = false) : targetMatches calls run entry = true := by
  cases found with
  | none => cases h
  | some o =>
    rw [planCopy, Bool.or_eq_false_iff, Bool.not_eq_false'] at h
    simpa using h.2

theorem filled_copyEntry (h : copyEntry calls entry run = (true, run')) :
    ∃ target, rootJoin pathMax mountPath entry.path = some target ∧
      Filled [calls.key target] run run' := by
  rw [copyEntry] at h
  cases hsource : rootJoin pathMax [slash] entry.path with
  | none =>
    rw [hsource] at h
    cases h
  | some source =>
    cases hjoin : rootJoin pathMax mountPath entry.path with
    | none =>
      rw [hsource, hjoin] at h
      cases h
    | some target =>
      rw [hsource, hjoin] at h
      dsimp only at h
      rw [Attempt.andThen_eq_true] at h
      obtain ⟨made, hparents, h⟩ := h
      rw [Attempt.andThen_eq_true] at h
      obtain ⟨copied, hcopy, hmatches⟩ := h
      have htree : run'.tree = copied.tree := by
        split at hmatches
        · cases hmatches
          rfl
        · cases hmatches
          rfl
      have hroutine := leavesFile_installUpdateCopyFileUnverified calls.done
      have hall := ((filled_mkdirParentsForFile.of_eq hparents).trans
        (filled_copyWith hroutine hcopy)).trans (filled_of_tree htree)
      rw [nil_append, append_nil] at hall
      exact ⟨target, rfl, hall⟩

theorem filled_copyEntries (h : copyEntries calls old new run = (true, run')) :
    Filled (entryPlaces calls new) run run' := by
  induction new generalizing run with
  | nil =>
    cases h
    exact Filled.refl _
  | cons entry entries ih =>
    rw [copyEntries, Attempt.andThen_eq_true] at h
    obtain ⟨mid, hentry, hrest⟩ := h
    have hplace : ∃ target, rootJoin pathMax mountPath entry.path = some target ∧
        Filled [calls.key target] run mid := by
      split at hentry
      case isTrue hplan =>
        cases hentry
        obtain ⟨target, hjoin, hfile⟩ := targetMatches_isFileAt (targetMatches_of_planCopy hplan)
        exact ⟨target, hjoin, filled_of_isFileAt hfile rfl⟩
      case isFalse =>
        obtain ⟨target, hjoin, hfilled⟩ := filled_copyEntry hentry
        exact ⟨target, hjoin, hfilled⟩
    obtain ⟨target, hjoin, hfilled⟩ := hplace
    rw [entryPlaces_cons hjoin]
    exact hfilled.trans (ih hrest)

theorem filled_writeStateFiles (h : writeStateFiles calls run = (true, run')) :
    Filled (statePlaces calls run) run run' := by
  simp only [writeStateFiles, Attempt.andThen_eq_true] at h
  obtain ⟨made, hmkdir, wrote, hwrite, kept, hkeep, hnew⟩ := h
  have hwrote := (filled_mkdir.of_eq hmkdir).trans (filled_writeText (by decide) hwrite)
  rw [nil_append] at hwrote
  have hnew' := filled_copyWith (leavesFile_installCopyFile calls.done) hnew
  have hmanifest : (calls.at wrote manifestTarget).type = 1 ↔
      run.isFileAt (calls.key manifestTarget) = true ∨
        calls.key manifestTarget = calls.key updateStateTarget := by
    rw [type_at, hwrote, mem_singleton]
  rw [statePlaces]
  split at hkeep
  case isTrue hfile =>
    have hprev := filled_copyWith (leavesFile_installCopyFile calls.done) hkeep
    rw [if_pos (hmanifest.1 hfile)]
    exact hwrote.trans (hprev.trans hnew')
  case isFalse hfile =>
    cases hkeep
    rw [if_neg (mt hmanifest.2 hfile)]
    exact hwrote.trans hnew'

theorem filled_syncOsMetadata (h : syncOsMetadata calls run = (true, run')) :
    Filled [calls.key osVersionTarget, calls.key osReleaseTarget] run run' := by
  simp only [syncOsMetadata, Attempt.andThen_eq_true] at h
  obtain ⟨made, hmkdir, mid, hversion, hrelease⟩ := h
  have hroutine := leavesFile_installOverwriteFileWhole calls.done
  exact (filled_mkdir.of_eq hmkdir).trans
    ((filled_copyWith hroutine hversion).trans (filled_copyWith hroutine hrelease))

/-! ## The prediction -/

section Balanced

variable (calls : Calls κ)

/-- The number of obsolete lines that name once more what is a file. -/
def repeatedLines (run : Run κ) (old new : List ManifestEntry) : ℕ :=
  let files := (obsoletePlaces calls new old).filter run.isFileAt
  files.length - files.dedup.length

/-- The places of obsolete lines that are no files, and that the update writes. -/
def risenPlaces (run : Run κ) (old new : List ManifestEntry) : Finset κ :=
  (obsoletePlaces calls new old).toFinset.filter fun k =>
    ¬ run.isFileAt k = true ∧ k ∈ writtenPlaces calls run new

/-- From the state in which the manifests are compared, as many lines are repeated as obsolete
places are written. -/
def Balanced (start : Run κ) : Prop :=
  let run := (prepare calls start).2
  let old := (oldEntries calls run).getD []
  let new := (newEntries calls run).getD []
  repeatedLines calls run old new = (risenPlaces calls run old new).card

end Balanced

theorem carryOut_deleted {real : Run κ} (h : carryOut calls old new run = (true, real)) :
    SamePlan run real ∧ real.result.deleted =
      ((obsoletePlaces calls new old).toFinset.filter fun k =>
        run.isFileAt k = true ∨ k ∈ writtenPlaces calls run new).card := by
  simp only [carryOut, Attempt.andThen_eq_true] at h
  obtain ⟨stated, hstate, copied, hcopy, synced, hsync, mid, hreset, deleted, hdelete, hfinish⟩ := h
  cases hreset
  have hfilled : Filled (writtenPlaces calls run new) run synced :=
    (filled_writeStateFiles hstate).trans
      ((filled_copyEntries hcopy).trans (filled_syncOsMetadata hsync))
  have hcount := deleteObsolete_update hdelete
  have hend : SameResult deleted real := sameResult_finish.of_eq hfinish
  constructor
  · have hdeleted : SamePlan (synced.count fun r => { r with deleted := 0 }) deleted :=
      samePlan_deleteObsolete.of_eq hdelete
    exact trans_of SamePlan (samePlan_writeStateFiles.of_eq hstate) <|
      trans_of SamePlan (samePlan_copyEntries.of_eq hcopy) <|
      trans_of SamePlan (samePlan_syncOsMetadata.of_eq hsync) <|
      trans_of SamePlan hdeleted hend.samePlan
  · rw [hend, hcount]
    change 0 + _ = _
    rw [Nat.zero_add]
    congr 1
    ext k
    rw [Finset.mem_filter, Finset.mem_filter, ← hfilled k]
    rfl

theorem lines_eq_places_iff (places : List κ) (p : κ → Bool) (q : κ → Prop) [DecidablePred q] :
    (places.filter p).length = (places.toFinset.filter fun k => p k = true ∨ q k).card ↔
      (places.filter p).length - (places.filter p).dedup.length =
        (places.toFinset.filter fun k => ¬ p k = true ∧ q k).card := by
  have hplaces : (places.toFinset.filter fun k => p k = true ∨ q k).card =
      (places.filter p).dedup.length +
        (places.toFinset.filter fun k => ¬ p k = true ∧ q k).card := by
    rw [← card_toFinset, toFinset_filter, ← Finset.card_union_of_disjoint]
    · congr 1
      ext k
      simp only [Finset.mem_filter, Finset.mem_union, mem_toFinset]
      tauto
    · rw [Finset.disjoint_left]
      intro k hp hq
      rw [Finset.mem_filter] at hp hq
      exact hq.2.1 hp.2
  have hle : (places.filter p).dedup.length ≤ (places.filter p).length :=
    (dedup_sublist _).length_le
  rw [hplaces]
  omega

/-- A dry run changes no place but that of its own manifest. When an update succeeds, the dry run
from the same state does, and predicts what is added, updated and left unchanged; it predicts the
number of files that are removed if and only if the repeated lines and the written places are
balanced. -/
theorem dry_run_predicts_iff (calls : Calls κ) (start : Run κ) :
    pathIsUnder dryRunManifest mountPath = false ∧
    (∀ k, k ≠ calls.key dryRunManifest →
      (installUpdateShell calls true start).2.tree k = start.tree k) ∧
    ∀ real, installUpdateShell calls false start = (true, real) →
      ∃ predicted, installUpdateShell calls true start = (true, predicted) ∧
        SamePlan predicted real ∧
        (predicted.result.deleted = real.result.deleted ↔ Balanced calls start) := by
  refine ⟨by decide, keeps_dryRun start, ?_⟩
  intro real h
  rw [installUpdateShell, Attempt.andThen_eq_true] at h
  obtain ⟨run, hprepare, h⟩ := h
  split at h
  case h_2 => cases h
  case h_1 old new hold hnew =>
    split at h
    case isTrue => cases h
    case isFalse hne =>
      rw [Attempt.andThen_eq_true] at h
      obtain ⟨predicted, hplan, hcarry⟩ := h
      rw [if_neg Bool.false_ne_true] at hcarry
      have hdry : installUpdateShell calls true start = (true, predicted) := by
        rw [installUpdateShell, Attempt.andThen_eq_true]
        refine ⟨run, hprepare, ?_⟩
        rw [hold, hnew]
        dsimp only
        rw [if_neg hne, Attempt.andThen_eq_true]
        exact ⟨predicted, hplan, rfl⟩
      refine ⟨predicted, hdry, (carryOut_deleted hcarry).1, ?_⟩
      have htree : SameTree (run.count fun _ => {}) predicted := keeps_plan.of_eq hplan
      have hfile : predicted.isFileAt = run.isFileAt := by
        ext k
        rw [Run.isFileAt, htree]
        rfl
      have hwritten : writtenPlaces calls predicted new = writtenPlaces calls run new := by
        rw [writtenPlaces, writtenPlaces, statePlaces, statePlaces, hfile]
      -- the plan counts from zero, and the files are those before it
      have hcounted : predicted.result.deleted =
          ((obsoletePlaces calls new old).filter run.isFileAt).length := by
        obtain ⟨planned, hentries, hobsolete⟩ := Attempt.andThen_eq_true.1 hplan
        have hnone : planned.result.deleted = 0 := deleted_planEntries.of_eq hentries
        have hsame : SameTree (run.count fun _ => {}) planned := keeps_planEntries.of_eq hentries
        have hfiles : planned.isFileAt = run.isFileAt := by
          ext k
          rw [Run.isFileAt, hsame]
          rfl
        rw [deleteObsolete_dryRun hobsolete, hnone, hfiles, Nat.zero_add]
      rw [hcounted, (carryOut_deleted hcarry).2, hfile, hwritten, Balanced, hprepare, hold, hnew]
      exact lines_eq_places_iff (obsoletePlaces calls new old) run.isFileAt
        fun k => k ∈ writtenPlaces calls run new

/-- The digest of an empty file. -/
def emptyDigest : List UInt8 :=
  lit "e3b0c44298fc1c149afbf4c8996fb92427ae41e4649b934ca495991b7852b855"

/-- A disk with a manifest, and a file that the running system does not have. -/
def diskWith (manifest path : List UInt8) : Place :=
  if path = manifestTarget then .file manifest
  else if path = lit "/temp/disk/system/a" ∨ path = lit "/shell/b" then .file []
  else if path = osVersionSource ∨ path = osReleaseSource then .file [49]
  else if path = lit "/temp" ∨ path = lit "/temp/disk" ∨ path = lit "/temp/disk/system" ∨
      path = lit "/temp/disk/etc" then .directory
  else .nothing

/-- All calls work; they return what they have written, and at least 1. -/
def callsOn (manifest : List UInt8) : Calls (List UInt8) where
  key path := path
  done n := max n 1
  data _ := 0
  diskPresent := true
  diskMountPath := none
  diskFormatted := true
  diskMount := true
  source :=
    .dir (.entry (lit "shell") (.dir (.entry (lit "b") (.file ⟨0, true, [some []]⟩) .done)) .done)
  mkdir _ := true
  remove _ := true
  create _ := true
  write _ := writesAll
  append _ _ := ⟨76, 76⟩
  copy n :=
    allWorks true <|
      if n = 3 then [manifest]
      else if n = 4 then [entryLine (lit "/shell/b") 0 emptyDigest]
      else if n < 9 then [] else [[49]]
  file _ _ place :=
    match place with
    | .file bytes => ⟨UInt64.ofNat bytes.length, true, [some bytes, some []]⟩
    | _ => ⟨-1, false, []⟩
  load _ place :=
    match place with
    | .file bytes => servedAtOnce bytes
    | _ => ⟨-1, false, false, []⟩

/-- A manifest with two lines for one file that the running system does not have. -/
def lineTwice : List UInt8 :=
  entryLine (lit "/system/a") 0 emptyDigest ++ entryLine (lit "/system/a") 0 emptyDigest

set_option maxRecDepth 100000 in
theorem dryRun_lineTwice :
    (installUpdateShell (callsOn lineTwice) true ⟨diskWith lineTwice, 0, {}⟩).1 = true ∧
      (installUpdateShell (callsOn lineTwice) true ⟨diskWith lineTwice, 0, {}⟩).2.result.deleted =
        2 := by
  decide +kernel

set_option maxRecDepth 100000 in
theorem update_lineTwice :
    (installUpdateShell (callsOn lineTwice) false ⟨diskWith lineTwice, 0, {}⟩).1 = true ∧
      (installUpdateShell (callsOn lineTwice) false ⟨diskWith lineTwice, 0, {}⟩).2.result.deleted =
        1 := by
  decide +kernel

theorem dry_run_predicts_lineTwice : ∃ predicted,
    installUpdateShell (callsOn lineTwice) true ⟨diskWith lineTwice, 0, {}⟩ = (true, predicted) ∧
      SamePlan predicted
        (installUpdateShell (callsOn lineTwice) false ⟨diskWith lineTwice, 0, {}⟩).2 := by
  obtain ⟨predicted, hdry, hsame, -⟩ := (dry_run_predicts_iff (callsOn lineTwice)
    ⟨diskWith lineTwice, 0, {}⟩).2.2 _ (Attempt.eq_of_fst update_lineTwice.1)
  exact ⟨predicted, hdry, hsame⟩

/-- The dry run announces two files, and the update removes one. -/
theorem line_counted_twice :
    ¬ ∀ (calls : Calls (List UInt8)) (start predicted real : Run (List UInt8)),
      installUpdateShell calls true start = (true, predicted) →
      installUpdateShell calls false start = (true, real) →
      predicted.result.deleted = real.result.deleted := by
  intro hall
  have heq := hall (callsOn lineTwice) ⟨diskWith lineTwice, 0, {}⟩ _ _
    (Attempt.eq_of_fst dryRun_lineTwice.1) (Attempt.eq_of_fst update_lineTwice.1)
  rw [dryRun_lineTwice.2, update_lineTwice.2] at heq
  cases heq

end Cleonos.Install
