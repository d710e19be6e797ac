import Cleonos.Install.Copy
import Cleonos.Lib.Run

/-!
# The update of an installed system

`install_update_shell` of `install2disk_main.c` brings the files of a mounted disk up to date with
those of the running system.
-/

namespace Cleonos.Install

open Attempt (succeed check)
open Sha256 (installSha256FileHex)

def manifestTarget : List UInt8 := lit "/temp/disk/system/databases/install_manifest.db"
def manifestNewTarget : List UInt8 := lit "/temp/disk/system/databases/install_manifest.new"
def manifestPrevTarget : List UInt8 := lit "/temp/disk/system/databases/install_manifest.prev"
def updateStateTarget : List UInt8 := lit "/temp/disk/system/databases/update_state.db"
def dryRunManifest : List UInt8 := lit "/temp/install2disk_manifest.new"
def osVersionSource : List UInt8 := lit "/etc/os-version"
def osReleaseSource : List UInt8 := lit "/etc/os-release"
def osVersionTarget : List UInt8 := lit "/temp/disk/etc/os-version"
def osReleaseTarget : List UInt8 := lit "/temp/disk/etc/os-release"

/-! ## The file system -/

/-- `install_update_result`; the paths that are kept for the summary are left out. -/
structure UpdateResult where
  added : ℕ := 0
  updated : ℕ := 0
  unchanged : ℕ := 0
  deleted : ℕ := 0
  copiedFiles : ℕ := 0
  copiedBytes : ℕ := 0
  verifyFailed : ℕ := 0
  deriving DecidableEq, Repr

/-- The file system: what is decided for the whole run, and then what a call answers that has so
many calls before it. -/
structure Calls (κ : Type) where
  /-- the place a path leads to -/
  key : List UInt8 → κ
  /-- what a call returns that has written so many bytes -/
  done : ℕ → ℕ
  /-- what the buffer of a digest holds before it is filled -/
  data : ℕ → UInt8
  diskPresent : Bool
  /-- the mount path of a disk that is mounted -/
  diskMountPath : Option (List UInt8)
  diskFormatted : Bool
  diskMount : Bool
  /-- the running system, as its directories are listed -/
  source : Node
  mkdir : ℕ → Bool
  remove : ℕ → Bool
  create : ℕ → Bool
  write : ℕ → WriteAnswer
  /-- an append of one line of a manifest -/
  append : ℕ → ℕ → AppendAnswer
  copy : ℕ → CopyAnswers
  /-- the size of what is at a path, and the reads of it -/
  file : ℕ → List UInt8 → Place → FileAnswers
  load : ℕ → Place → LoadAnswers

/-- What is at every place, the number of calls made, and the counters. -/
structure Run (κ : Type) where
  tree : κ → Place
  calls : ℕ := 0
  result : UpdateResult := {}

/-- `cleonos_sys_fs_stat_type`. -/
def Place.type : Place → UInt64
  | .nothing => -1
  | .file _ => 1
  | .directory => 2

def Place.bytes? : Place → Option (List UInt8)
  | .file bytes => some bytes
  | _ => none

/-- What is left where a file was written over some place, or no file is there. -/
def Place.rewritten (old : Place) : Option (List UInt8) → Place
  | some bytes => .file bytes
  | none => if old = .directory then .directory else .nothing

variable {κ : Type} [DecidableEq κ]

/-- What is at a place is changed by a call. -/
def Run.set (run : Run κ) (k : κ) (place : Place) : Run κ :=
  ⟨Function.update run.tree k place, run.calls + 1, run.result⟩

/-- A call that changes nothing. -/
def Run.tick (run : Run κ) : Run κ := { run with calls := run.calls + 1 }

/-- The counters are changed. -/
def Run.count (run : Run κ) (f : UpdateResult → UpdateResult) : Run κ :=
  { run with result := f run.result }

variable (calls : Calls κ)

def Calls.at (run : Run κ) (path : List UInt8) : Place := run.tree (calls.key path)

/-- `install_mkdir`; what is a file stays one. -/
def mkdir (path : List UInt8) : Attempt (Run κ) := fun run =>
  if calls.at run path = .directory then (true, run)
  else if calls.mkdir run.calls = false then (false, run.tick)
  else if calls.at run path = .nothing then (true, run.set (calls.key path) .directory)
  else (true, run.tick)

/-- The loop of `install_mkdir_parents_for_file`, behind the bytes `front`. -/
def mkdirParentsLoop (front : List UInt8) : List UInt8 → Attempt (Run κ)
  | [] => succeed
  | c :: rest =>
    if c ≠ slash then mkdirParentsLoop (front ++ [c]) rest
    else (mkdir calls front).andThen (mkdirParentsLoop (front ++ [c]) rest)

/-- `install_mkdir_parents_for_file`. -/
def mkdirParentsForFile (path : List UInt8) : Attempt (Run κ) :=
  if path.headD 0 ≠ slash ∨ path.length ≥ pathMax then check false
  else mkdirParentsLoop calls [slash] (path.drop 1)

/-- `cleonos_sys_fs_remove` of a file. -/
def removeFile (path : List UInt8) : Attempt (Run κ) := fun run =>
  if calls.remove run.calls then (true, run.set (calls.key path) .nothing) else (false, run.tick)

/-- `cleonos_sys_fs_write`, which has to return the length of the text; nothing is written over a
directory. -/
def writeText (path text : List UInt8) : Attempt (Run κ) := fun run =>
  if calls.at run path = .directory then (false, run.tick)
  else
    (decide (returned calls.done (calls.write run.calls) text.length = text.length),
      run.set (calls.key path) (writtenTo (calls.write run.calls) (calls.at run path) text))

/-- A routine copies the file at one path to another. -/
def copyWith (routine : CopyAnswers → List UInt8 → Place → Copied) (source target : List UInt8)
    (count : Copied → UpdateResult → UpdateResult) : Attempt (Run κ) := fun run =>
  match calls.at run source with
  | .file src =>
    let c := routine (calls.copy run.calls) src (calls.at run target)
    (c.ok, (run.set (calls.key target) c.dst).count (count c))
  | _ => (false, run.tick)

/-- The counters that are given to a routine, and none. -/
def countCopied (c : Copied) (r : UpdateResult) : UpdateResult :=
  { r with copiedFiles := r.copiedFiles + c.files, copiedBytes := r.copiedBytes + c.bytes }

def countNothing (_ : Copied) (r : UpdateResult) : UpdateResult := r

/-- The calls in front of the first line of a manifest. -/
def manifestCalls (run : Run κ) (path : List UInt8) : FileCalls where
  type := (calls.at run path).type
  remove := calls.remove run.calls
  write := calls.create run.calls && decide (calls.at run path ≠ .directory)

/-- `install_manifest_find`. -/
def manifestFind (entries : List ManifestEntry) (path : List UInt8) : Option ManifestEntry :=
  entries.find? fun e => e.path = path

/-- `install_manifest_entry_same`. -/
def manifestEntrySame (a b : ManifestEntry) : Bool := decide (a.size = b.size ∧ a.hash = b.hash)

/-- `install_update_shell_target_matches`. -/
def targetMatches (run : Run κ) (entry : ManifestEntry) : Bool :=
  match rootJoin pathMax mountPath entry.path with
  | none => false
  | some target =>
    if (calls.at run target).type ≠ 1 then false
    else
      let a := calls.file run.calls target (calls.at run target)
      if a.size ≠ entry.size then false
      else decide (installSha256FileHex calls.data a.opens a.reads = some entry.hash)

/-- `install_update_shell_plan_copy`. -/
def planCopy (run : Run κ) (entry : ManifestEntry) : Option ManifestEntry → Bool
  | none => true
  | some old => !manifestEntrySame entry old || !targetMatches calls run entry

/-- A round of the loop that plans. -/
def planEntry (old : List ManifestEntry) (entry : ManifestEntry) : Attempt (Run κ) := fun run =>
  let found := manifestFind old entry.path
  if planCopy calls run entry found = false then
    (true, run.tick.count fun r => { r with unchanged := r.unchanged + 1 })
  else
    (decide (rootJoin pathMax [slash] entry.path ≠ none),
      run.tick.count fun r =>
        if found = none then { r with added := r.added + 1 }
        else { r with updated := r.updated + 1 })

def planEntries (old : List ManifestEntry) : List ManifestEntry → Attempt (Run κ)
  | [] => succeed
  | entry :: entries => (planEntry calls old entry).andThen (planEntries old entries)

/-- `install_update_shell_copy_entry`. -/
def copyEntry (entry : ManifestEntry) : Attempt (Run κ) :=
  match rootJoin pathMax [slash] entry.path, rootJoin pathMax mountPath entry.path with
  | some source, some target =>
    (mkdirParentsForFile calls target).andThen <|
    (copyWith calls (installUpdateCopyFileUnverified calls.done) source target
      countCopied).andThen
      fun run =>
        if targetMatches calls run entry then (true, run.tick)
        else (true, run.tick.count fun r => { r with verifyFailed := r.verifyFailed + 1 })
  | _, _ => check false

/-- The loop that copies; what is planned is asked again. -/
def copyEntries (old : List ManifestEntry) : List ManifestEntry → Attempt (Run κ)
  | [] => succeed
  | entry :: entries =>
    Attempt.andThen
      (fun run =>
        if planCopy calls run entry (manifestFind old entry.path) = false then (true, run.tick)
        else copyEntry calls entry run.tick)
      (copyEntries old entries)

/-- Whether a line of the old manifest is obsolete. -/
def isObsolete (new : List ManifestEntry) (entry : ManifestEntry) : Bool :=
  updateShellPathIncluded entry.path && decide (manifestFind new entry.path = none)

/-- A round of `install_update_shell_delete_obsolete`, for a line that is obsolete. -/
def deleteEntry (dryRun : Bool) (entry : ManifestEntry) : Attempt (Run κ) := fun run =>
  match rootJoin pathMax mountPath entry.path with
  | none => (false, run)
  | some target =>
    if (calls.at run target).type ≠ 1 then (true, run)
    else
      (if dryRun then succeed else removeFile calls target).andThen
        (fun run => (true, run.count fun r => { r with deleted := r.deleted + 1 })) run

/-- `install_update_shell_delete_obsolete`. -/
def deleteObsolete (dryRun : Bool) (new : List ManifestEntry) :
    List ManifestEntry → Attempt (Run κ)
  | [] => succeed
  | entry :: entries =>
    (if isObsolete new entry then deleteEntry calls dryRun entry else succeed).andThen
      (deleteObsolete dryRun new entries)

/-- `install_update_shell_write_state_files`. -/
def writeStateFiles : Attempt (Run κ) :=
  (mkdir calls (lit "/temp/disk/system")).andThen <|
  (writeText calls updateStateTarget (lit "shell-update\n")).andThen <|
  Attempt.andThen
    (fun run =>
      if (calls.at run manifestTarget).type = 1 then
        copyWith calls (installCopyFile calls.done) manifestTarget manifestPrevTarget
          countNothing run
      else (true, run))
    (copyWith calls (installCopyFile calls.done) dryRunManifest manifestNewTarget countNothing)

/-- `install_sync_os_metadata`. -/
def syncOsMetadata : Attempt (Run κ) :=
  (mkdir calls (lit "/temp/disk/etc")).andThen <|
  (copyWith calls (installOverwriteFileWhole calls.done) osVersionSource osVersionTarget
    countCopied).andThen
  (copyWith calls (installOverwriteFileWhole calls.done) osReleaseSource osReleaseTarget
    countCopied)

/-- What is at the target of an entry, while the manifest is written. -/
def targetPlace (run : Run κ) (entry : ManifestEntry) : Place :=
  match rootJoin pathMax mountPath entry.path with
  | none => .nothing
  | some target => calls.at run target

/-- The answers about the target of an entry. -/
def targetFile (run : Run κ) (entry : ManifestEntry) : FileAnswers :=
  calls.file run.calls ((rootJoin pathMax mountPath entry.path).getD [])
    (targetPlace calls run entry)

/-- `install_update_shell_refresh_manifest`. -/
def refreshInstallManifest (old new : List ManifestEntry) : Attempt (Run κ) := fun run =>
  let during := run.set (calls.key manifestTarget) (.file [])
  let r := refreshManifest calls.data (calls.append run.calls)
    (manifestCalls calls run manifestTarget)
    (old.map fun e => (e, (targetPlace calls during e).type, targetFile calls during e))
    (new.map fun e => (e, targetFile calls during e)) (calls.at run manifestTarget).bytes?
  (r.1, run.set (calls.key manifestTarget) ((calls.at run manifestTarget).rewritten r.2))

/-- A file is removed if it is there, and it does not matter whether that works. -/
def removeIfFile (path : List UInt8) : Attempt (Run κ) := fun run =>
  if (calls.at run path).type = 1 then (true, (removeFile calls path run).2) else (true, run)

/-- `install_update_shell_cleanup_state`. -/
def cleanupState : Attempt (Run κ) :=
  (removeIfFile calls updateStateTarget).andThen <|
  (removeIfFile calls manifestNewTarget).andThen <|
  removeIfFile calls dryRunManifest

/-- `install_generate_manifest_to` for the running system. -/
def generateDryRunManifest : Attempt (Run κ) := fun run =>
  let r := generateManifestTo calls.data (calls.append run.calls) [slash] dryRunManifest
    .updateShell 2 true (manifestCalls calls run dryRunManifest) calls.source
    (calls.at run dryRunManifest).bytes?
  (r.1, run.set (calls.key dryRunManifest) ((calls.at run dryRunManifest).rewritten r.2))

/-- What is in front of the plan, up to the manifest of the running system. -/
def prepare : Attempt (Run κ) :=
  (check calls.diskPresent).andThen <|
  -- `install_running_from_disk_boot`
  (check (decide (calls.diskMountPath ≠ some [slash]))).andThen <|
  -- `install_mount_existing_disk`
  (check (calls.diskFormatted && calls.diskMount)).andThen (generateDryRunManifest calls)

/-- The manifest on the disk. -/
def oldEntries (run : Run κ) : Option (List ManifestEntry) :=
  manifestLoad (calls.load run.calls (calls.at run manifestTarget)) updateMaxEntries true

/-- The manifest of the running system. -/
def newEntries (run : Run κ) : Option (List ManifestEntry) :=
  manifestLoad (calls.load (run.calls + 1) (calls.at run dryRunManifest)) updateMaxEntries false

/-- The plan, which is all of a dry run. -/
def plan (old new : List ManifestEntry) : Attempt (Run κ) :=
  (planEntries calls old new).andThen (deleteObsolete calls true new old)

/-- What follows when the obsolete files are removed. -/
def finish (old new : List ManifestEntry) : Attempt (Run κ) := fun run =>
  if run.result.verifyFailed ≠ 0 then (false, (cleanupState calls run).2)
  else (refreshInstallManifest calls old new).andThen (cleanupState calls) run

/-- What an update does behind its plan. -/
def carryOut (old new : List ManifestEntry) : Attempt (Run κ) :=
  (writeStateFiles calls).andThen <|
  (copyEntries calls old new).andThen <|
  (syncOsMetadata calls).andThen <|
  Attempt.andThen (fun run => (true, run.count fun r => { r with deleted := 0 })) <|
  (deleteObsolete calls false new old).andThen (finish calls old new)

def installUpdateShell (dryRun : Bool) : Attempt (Run κ) :=
  (prepare calls).andThen fun run =>
    match oldEntries calls run, newEntries calls run with
    | some old, some new =>
      if new = [] then (false, run)
      else
        (plan calls old new).andThen (if dryRun then succeed else carryOut calls old new)
          (run.count fun _ => {})
    | _, _ => (false, run)

end Cleonos.Install
