import Cleonos.Compat.Archive
import Cleonos.Unzip.Model
import Cleonos.Vim.Model

/-!
# Packing files

`zip_main.c` goes through the words of its argument and puts each file into an archive, under the
last part of its path.
-/

namespace Cleonos.Zip

open Attempt (succeed check)
open Compat
open Kernel (pathMax kernelPath statType)
open LexicalPath (slash)
open Path (ushResolvePath)
open Unzip (Answer)
open Vim (ushSplitFirstAndRest)

/-! ## The writer of archives -/

/-- The calls of the writer: `zipOpenNewFileInZip`, `zipWriteInFileInZip`, `zipCloseFileInZip` and
`zipClose`. -/
inductive ZipCall
  | newFile (name : List UInt8)
  | write (bytes : List UInt8)
  | closeFile
  | close
deriving DecidableEq, Repr

abbrev Packed : Type := List UInt8 × List UInt8

/-- The writer and the reader of archives. -/
structure Minizip where
  /-- What is done with the file for the last of the calls. -/
  does : List ZipCall → List MzCall
  /-- What is in an archive of these bytes. -/
  contents : List UInt8 → List Packed

/-- What the program does not decide. -/
structure ZipEnv where
  kernel : ℕ → Answer
  /-- What a device gives until its end. -/
  device : List (List UInt8) → List UInt8
  lib : Minizip
  /-- The writer misses nothing else for a call. -/
  grants : List ZipCall → Bool
  /-- The memory for a call on the file. -/
  memory : ℕ → Option (ℕ → UInt8)
  opening : OpenEnv
  closing : CloseEnv

/-- The archive, the calls of the writer and of the kernel, and `added`. -/
structure ZipState where
  file : MzFile
  calls : List ZipCall
  asked : ℕ
  kernelCalls : ℕ
  added : ℕ

variable (env : ZipEnv) (tree : FileTree (List UInt8)) (cwd : List UInt8)

def zipBufSize : ℕ := 4096

/-- The loop of `zip_basename`, at `path + i`. -/
def zipBasenameLoop (name : List UInt8) : List UInt8 → List UInt8
  | [] => name
  | c :: rest => if c = slash then zipBasenameLoop rest rest else zipBasenameLoop name rest

def zipBasename (path : List UInt8) : List UInt8 := zipBasenameLoop path path

/-- A call on the file has done what it should. -/
def didWell : MzCall → MzAnswer → Bool
  | .write buf, .count n => n = buf.bytes.length
  | .seek _ _, .status ok => ok
  | .read _, .bytes _ => true
  | _, _ => false

def zipCall (call : ZipCall) : Attempt ZipState := fun st =>
  let calls := st.calls ++ [call]
  let todo := (env.lib.does calls).mapIdx fun i c => (c, env.memory (st.asked + i))
  let run := mzRun st.file todo
  (run.1.all (fun r => didWell r.1 r.2.2) && env.grants calls,
    { st with file := run.2, calls := calls, asked := st.asked + todo.length })

/-- `cleonos_sys_fd_open` with `O_RDONLY`; a descriptor stands for the bytes that are left. -/
def fdOpen (path : List UInt8) (st : ZipState) : Option (List UInt8) × ZipState :=
  let answer := env.kernel st.kernelCalls
  let st := { st with kernelCalls := st.kernelCalls + 1 }
  match kernelPath path with
  | none => (none, st)
  | some key =>
    match tree.node key with
    | some (.file data) => (if answer.allows then some data else none, st)
    | some .device => (if answer.allows then some (env.device key) else none, st)
    | _ => (none, st)

/-- `cleonos_sys_fd_read`: some of the bytes that are left, or `none` for an error. -/
def fdRead (data : List UInt8) (st : ZipState) : Option (List UInt8) × ZipState :=
  let answer := env.kernel st.kernelCalls
  (if answer.allows then some (data.take (min zipBufSize (max 1 answer.takes))) else none,
    { st with kernelCalls := st.kernelCalls + 1 })

/-- The loop of `zip_write_all_file`; each round takes a byte at least. -/
def zipWriteLoop : ℕ → List UInt8 → Attempt ZipState
  | 0, _ => check false
  | fuel + 1, data => fun st =>
    match fdRead env data st with
    | (none, st) => (false, st)
    | (some piece, st) =>
      if piece = [] then (true, st)
      else
        ((zipCall env (.write piece)).andThen
          (zipWriteLoop fuel (data.drop piece.length))) st

def zipWriteAllFile (path : List UInt8) : Attempt ZipState := fun st =>
  match fdOpen env tree path st with
  | (none, st) => (false, st)
  | (some data, st) => zipWriteLoop env (data.length + 1) data st

def zipAddFile (path entryName : List UInt8) : Attempt ZipState :=
  (zipCall env (.newFile entryName)).andThen fun st =>
    match zipWriteAllFile env tree path st with
    | (false, st) => (false, (zipCall env .closeFile st).2)
    | (true, st) => zipCall env .closeFile st

/-- `zipClose`, which closes the file in any case. -/
def zipClose (st : ZipState) (disk : Disk) : Bool × ZipState × Disk :=
  let closed := zipCall env .close st
  let written := mzClose closed.2.file disk env.closing
  (closed.1 && written.1, closed.2, written.2)

/-- One round of the loop of `zip_run`, for a word of the argument. -/
def zipInput (fileArg : List UInt8) : Attempt ZipState :=
  match ushResolvePath cwd fileArg (fun _ => 0) pathMax with
  | none => check false
  | some filePath =>
    if statType tree filePath ≠ 1 then check false
    else
      (zipAddFile env tree filePath (zipBasename filePath)).andThen fun st =>
        (true, { st with added := st.added + 1 })

/-- The loop of `zip_run`. -/
def zipLoop : ℕ → List UInt8 → Attempt ZipState
  | 0, _ => check false
  | fuel + 1, rest =>
    if rest = [] then succeed
    else
      match ushSplitFirstAndRest rest pathMax with
      | none => check false
      | some (fileArg, rest) => (zipInput env tree cwd fileArg).andThen (zipLoop fuel rest)

/-- What `zip_run` leaves. -/
structure ZipReport where
  ok : Bool
  /-- The calls of the writer. -/
  calls : List ZipCall
  /-- The entries that are reported. -/
  added : ℕ
  disk : Disk

/-- `zip_run`; an archive that is opened is closed, and the result of that counts if all went well
before. -/
def zipRun (arg : List UInt8) (disk : Disk) : ZipReport :=
  match ushSplitFirstAndRest arg pathMax with
  | none => ⟨false, [], 0, disk⟩
  | some (outArg, rest) =>
    match ushResolvePath cwd outArg (fun _ => 0) pathMax with
    | none => ⟨false, [], 0, disk⟩
    | some outPath =>
      if rest = [] then ⟨false, [], 0, disk⟩
      else
        match mzOpen64 outPath ⟨true, true⟩ (disk outPath) env.opening with
        | none => ⟨false, [], 0, disk⟩
        | some file =>
          let packed := zipLoop env tree cwd (rest.length + 1) rest ⟨file, [], 0, 0, 0⟩
          let closed := zipClose env packed.2 disk
          ⟨packed.1 && closed.1, closed.2.1.calls, closed.2.1.added, closed.2.2⟩

end Cleonos.Zip
