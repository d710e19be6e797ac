import Cleonos.Lib.Run
import Cleonos.Kernel.Paths
import Cleonos.Lib.Text

/-!
# Extraction of an archive

`unzip_main.c` goes through the entries of an archive and makes each of them below the
destination.
-/

namespace Cleonos.Unzip

open LexicalPath (slash dot)
open Kernel (pathMax kernelPath statType)
open Attempt (succeed check)

/-- `UNZIP_NAME_MAX`. -/
def nameMax : ℕ := 160

/-- `UNZIP_BUF_SIZE`. -/
def bufSize : ℕ := 4096

def backslash : UInt8 := 92

/-! ## The archive -/

/-- An entry, and what the reader's functions return for it: the name and the bytes are those
of the archive, and reading them may fail. -/
structure Entry where
  name : List UInt8
  data : List UInt8
  /-- `unzGetCurrentFileInfo64` succeeds. -/
  info : Bool
  /-- `unzOpenCurrentFile` succeeds. -/
  opens : Bool
  /-- What `unzReadCurrentFile` returns, call by call. -/
  pieces : List (List UInt8)
  /-- The call after these returns 0, not an error. -/
  ends : Bool
  /-- `unzCloseCurrentFile` finds the checksum right. -/
  closes : Bool
  /-- `unzGoToNextFile` succeeds. -/
  next : Bool
  pieces_size : ∀ p ∈ pieces, p ≠ [] ∧ p.length ≤ bufSize
  delivered : ends = true → pieces.flatten = data

structure Archive where
  /-- `unzOpen2_64` succeeds. -/
  opens : Bool
  /-- `unzGetGlobalInfo64` succeeds. -/
  globalInfo : Bool
  /-- `unzGoToFirstFile` succeeds. -/
  first : Bool
  entries : List Entry

/-- What the kernel decides at a call: whether it grants it, and how many bytes it takes. -/
structure Answer where
  allows : Bool
  takes : ℕ

/-- The files, and the number of calls made. -/
structure World where
  disk : FileTree (List UInt8)
  calls : ℕ

variable (kernel : ℕ → Answer)

/-- `cleonos_sys_fs_mkdir`. -/
def mkdir (path : List UInt8) : Attempt World := fun w =>
  match (kernelPath path).bind w.disk.mkdir with
  | some disk =>
    if (kernel w.calls).allows then (true, ⟨disk, w.calls + 1⟩) else (false, ⟨w.disk, w.calls + 1⟩)
  | none => (false, ⟨w.disk, w.calls + 1⟩)

/-- `cleonos_sys_fd_open` with `O_WRONLY`, `O_CREAT` and `O_TRUNC`; a descriptor stands for the
file. -/
def fdOpen (path : List UInt8) (w : World) : Option (List (List UInt8)) × World :=
  match kernelPath path with
  | none => (none, ⟨w.disk, w.calls + 1⟩)
  | some key =>
    match w.disk.create key with
    | some disk =>
      if (kernel w.calls).allows then (some key, ⟨disk, w.calls + 1⟩)
      else (none, ⟨w.disk, w.calls + 1⟩)
    | none => (none, ⟨w.disk, w.calls + 1⟩)

/-- `cleonos_sys_fd_write`: the number of bytes taken, 0 also for an error. -/
def fdWrite (fd : List (List UInt8)) (buf : List UInt8) (w : World) : ℕ × World :=
  let wrote := min (kernel w.calls).takes buf.length
  (wrote, ⟨w.disk.append fd (buf.take wrote), w.calls + 1⟩)

/-- The name as it is held: the reader fills the 160 bytes of the buffer, with a zero behind a
name that is shorter, and the last byte is set to zero. -/
def heldName (name : List UInt8) : List UInt8 :=
  cstr (((name ++ [0]).take nameMax).set (nameMax - 1) 0)

/-- The loop of `unzip_is_safe_name`, behind the byte `before`. -/
def isSafeNameLoop : Option UInt8 → List UInt8 → Bool
  | _, [] => true
  | before, c :: rest =>
    if c = backslash then false
    else if c = dot ∧ (before = none ∨ before = some slash) ∧ rest.getD 0 0 = dot ∧
        (rest.getD 1 0 = slash ∨ rest.getD 1 0 = 0) then false
    else isSafeNameLoop (some c) rest

/-- `unzip_is_safe_name`. -/
def isSafeName (name : List UInt8) : Bool :=
  if name.headD 0 = 0 ∨ name.headD 0 = slash then false else isSafeNameLoop none name

/-- `unzip_join`. -/
def join (outSize : ℕ) (base name : List UInt8) : Option (List UInt8) :=
  if outSize = 0 then none
  else
    let need := base.length + (if base.length > 1 then 1 else 0) + name.length + 1
    if need > outSize then none
    else
      let out := if base.length > 1 ∧ base.getLast? ≠ some slash then base ++ [slash] else base
      some (out ++ name)

/-- `cleonos_sys_fs_stat_type(path) != 2 && cleonos_sys_fs_mkdir(path) == 0` is a failure. -/
def ensureDir (path : List UInt8) : Attempt World := fun w =>
  if statType w.disk path = 2 then (true, w) else mkdir kernel path w

/-- The loop of `unzip_mkdir_parents_for_file`, behind the bytes `front`. -/
def mkdirParentsLoop (front : List UInt8) : List UInt8 → Attempt World
  | [] => succeed
  | c :: rest =>
    if c ≠ slash then mkdirParentsLoop (front ++ [c]) rest
    else (ensureDir kernel front).andThen (mkdirParentsLoop (front ++ [c]) rest)

/-- `unzip_mkdir_parents_for_file`. -/
def mkdirParents : List UInt8 → Attempt World
  | [] => check false
  | c :: rest => if c ≠ slash then check false else mkdirParentsLoop kernel [c] rest

/-- `unzip_write_all`; each round takes a byte at least. -/
def writeAll (fd : List (List UInt8)) : ℕ → List UInt8 → Attempt World
  | _, [] => succeed
  | 0, _ => check false
  | fuel + 1, buf => fun w =>
    let (wrote, w) := fdWrite kernel fd buf w
    if wrote = 0 then (false, w) else writeAll fd fuel (buf.drop wrote) w

/-- The loop over `unzReadCurrentFile`. -/
def copyPieces (fd : List (List UInt8)) : List (List UInt8) → Attempt World
  | [] => succeed
  | piece :: rest =>
    (writeAll kernel fd piece.length piece).andThen (copyPieces fd rest)

/-- An entry that is a file, from the opening of the entry on. -/
def inflate (e : Entry) (outPath : List UInt8) : Attempt World :=
  (check e.opens).andThen fun w =>
    match fdOpen kernel outPath w with
    | (none, w) => (false, w)
    | (some fd, w) =>
      (copyPieces kernel fd e.pieces).andThen (check (e.ends && e.closes)) w

/-- `unzip_extract_current`. -/
def extractCurrent (e : Entry) (dstRoot name : List UInt8) : Attempt World :=
  if isSafeName name = false then succeed
  else
    match join pathMax dstRoot name with
    | none => check false
    | some outPath =>
      if name.getLast? = some slash then ensureDir kernel outPath
      else (mkdirParents kernel outPath).andThen (inflate kernel e outPath)

/-- `unzip_args`. -/
structure Args where
  zipPath : List UInt8
  dstPath : List UInt8
  extract : Bool

/-- The loop of `unzip_run`. -/
def entriesLoop (args : Args) : List Entry → Attempt World
  | [] => succeed
  | e :: rest =>
    (check e.info).andThen <|
      (if args.extract then extractCurrent kernel e (cstr args.dstPath) (heldName e.name)
        else succeed).andThen <|
      (if rest = [] then succeed else check e.next).andThen (entriesLoop args rest)

/-- `unzip_run`. -/
def run (archive : Archive) (args : Args) : Attempt World := fun w =>
  if args.zipPath.headD 0 = 0 then (false, w)
  else if archive.opens = false ∨ archive.globalInfo = false then (false, w)
  else if archive.first = false then (decide (archive.entries = []), w)
  else entriesLoop kernel args archive.entries w

end Cleonos.Unzip
