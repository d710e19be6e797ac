import Cleonos.Lib.Buffer
import Cleonos.Lib.Prog
import Cleonos.Lib.Text
import Mathlib.Data.Int.Init

/-!
# The SQLite file of CLeonOS

`sqlite_cleonos_vfs.c`: a handle keeps the whole file in a buffer, `sqlite3_int64` sizes are
integers reduced by `int64`, and a flush writes the buffer back.
-/

namespace Cleonos.Sqlite

open Buffer (slice store)

def pathMax : ℕ := 192

/-- The result codes of the methods. -/
inductive Rc
  | ok
  | nomem
  | toobig
  | cantopen
  | ioerr
  | ioerrRead
  | ioerrShortRead
  | ioerrWrite
  | ioerrTruncate
  deriving DecidableEq, Repr

/-- `SQLITE_LOCK_NONE` to `SQLITE_LOCK_EXCLUSIVE`. -/
def lockNone : ℕ := 0
def lockShared : ℕ := 1
def lockReserved : ℕ := 2
def lockPending : ℕ := 3
def lockExclusive : ℕ := 4

/-- A value as a `sqlite3_int64`. -/
def int64 (x : ℤ) : ℤ := x.bmod (2 ^ 64)

/-- A value as a `size_t`. -/
def sizeT (x : ℤ) : ℕ := (x % 2 ^ 64).toNat

/-- `cleonos_sqlite_file`; its buffer has `capacity` bytes. -/
structure VfsFile where
  path : Option (List UInt8)
  data : ℕ → UInt8
  size : ℤ
  capacity : ℤ
  dirty : Bool
  deleteOnClose : Bool
  lockLevel : ℕ

/-- `memset` to zero of `n` bytes from `i` on. -/
def memzero (data : ℕ → UInt8) (i n : ℤ) : ℕ → UInt8 :=
  store data i.toNat (List.replicate n.toNat 0)

/-! ## The buffer -/

/-- The loop of `cleonos_sqlite_reserve`. -/
def growCapacity (need capacity : ℤ) : ℤ :=
  if capacity < need then
    let next := int64 (capacity * 2)
    if next ≤ capacity then need else growCapacity need next
  else capacity
termination_by (need - capacity).toNat

/-- What the 48-bit addresses of the machine can hold. -/
def addressSpace : ℤ := 2 ^ 48

/-- `cleonos_sqlite_reserve`; `grows` is whether `realloc` grants what the address space can
hold. -/
def cleonosSqliteReserve (grows : Bool) (file : VfsFile) (need : ℤ) : Rc × VfsFile :=
  if need < 0 then (.ioerr, file)
  else if need ≤ file.capacity then (.ok, file)
  else
    let capacity := growCapacity need (if file.capacity > 0 then file.capacity else 4096)
    if sizeT capacity < sizeT need then (.toobig, file)
    else if grows = false ∨ capacity > addressSpace then (.nomem, file)
    else
      let data :=
        if capacity > file.capacity then
          memzero file.data file.capacity (capacity - file.capacity)
        else file.data
      (.ok, { file with data := data, capacity := capacity })

/-- `cleonos_sqlite_read`: the code, and what `out` gets. -/
def cleonosSqliteRead (file : VfsFile) (amount offset : ℤ) : Rc × Option (List UInt8) :=
  if amount < 0 ∨ offset < 0 then (.ioerrRead, none)
  else if offset ≥ file.size then (.ioerrShortRead, some (List.replicate amount.toNat 0))
  else if int64 (offset + amount) > file.size then
    let available := file.size - offset
    (.ioerrShortRead, some (slice file.data offset.toNat available.toNat ++
      List.replicate (amount - available).toNat 0))
  else (.ok, some (slice file.data offset.toNat amount.toNat))

/-- `cleonos_sqlite_write` of the `amount` bytes at `data`. -/
def cleonosSqliteWrite (grows : Bool) (file : VfsFile) (data : ℕ → UInt8) (amount offset : ℤ) :
    Rc × VfsFile :=
  if amount < 0 ∨ offset < 0 then (.ioerrWrite, file)
  else
    let stop := int64 (offset + amount)
    match cleonosSqliteReserve grows file stop with
    | (.ok, file) =>
      let buffer :=
        if offset > file.size then memzero file.data file.size (offset - file.size)
        else file.data
      let buffer := store buffer offset.toNat (slice data 0 amount.toNat)
      (.ok, { file with
        data := buffer
        size := if stop > file.size then stop else file.size
        dirty := true })
    | (rc, file) => (rc, file)

def cleonosSqliteTruncate (grows : Bool) (file : VfsFile) (size : ℤ) : Rc × VfsFile :=
  if size < 0 then (.ioerrTruncate, file)
  else
    match cleonosSqliteReserve grows file size with
    | (.ok, file) =>
      let buffer :=
        if size > file.size then memzero file.data file.size (size - file.size)
        else file.data
      (.ok, { file with data := buffer, size := size, dirty := true })
    | (rc, file) => (rc, file)

def cleonosSqliteFileSize (file : VfsFile) : Rc × ℤ := (.ok, file.size)

/-- The system calls of a flush. -/
inductive Call
  /-- `cleonos_sys_fs_stat_type`. -/
  | statType (path : List UInt8)
  /-- `cleonos_sys_fs_mkdir`. -/
  | mkdir (path : List UInt8)
  /-- `cleonos_sys_fd_open` with `CLEONOS_O_WRONLY | CLEONOS_O_CREAT | CLEONOS_O_TRUNC`. -/
  | fdOpen (path : List UInt8)
  /-- `cleonos_sys_fd_write`. -/
  | fdWrite (bytes : List UInt8)
  /-- `cleonos_sys_fd_close`. -/
  | fdClose
  deriving DecidableEq, Repr

/-- What each call answers.  A write that is refused, with `0` or `-1`, answers `none`; one
that writes `k + 1` of the bytes answers `some k`. -/
abbrev Reply : Call → Type
  | .statType _ => ℕ
  | .mkdir _ => Bool
  | .fdOpen _ => Bool
  | .fdWrite bytes => Option (Fin bytes.length)
  | .fdClose => Unit

abbrev Io (α : Type) : Type := Prog Call Reply α
abbrev Env : Type := Prog.Env Call Reply

/-- The paths in front of the slashes of a path, its first byte apart. -/
def parents (path : List UInt8) : List (List UInt8) :=
  ((List.range path.length).filter fun i => decide (1 ≤ i) && (path.getD i 0 == 47)).map path.take

/-- The loop of `cleonos_sqlite_ensure_parent_dirs`. -/
def ensureLoop : List (List UInt8) → Io Rc
  | [] => pure .ok
  | work :: rest => do
      let type ← Prog.ask (.statType work)
      if type ≠ 2 then
        let made ← Prog.ask (.mkdir work)
        if made = false then pure .cantopen else ensureLoop rest
      else ensureLoop rest

def cleonosSqliteEnsureParentDirs (path : List UInt8) : Io Rc :=
  if path = [] ∨ path.length > pathMax then pure .cantopen else ensureLoop (parents path)

/-- The loop of `cleonos_sqlite_write_whole_file` over the bytes that are left. -/
def writeLoop (rest : List UInt8) : Io Rc :=
  if rest = [] then pure .ok
  else .call (.fdWrite rest) fun
    | none => pure .ioerrWrite
    | some k => writeLoop (rest.drop (k + 1))
termination_by rest.length
decreasing_by
  have hk := k.isLt
  simp only [List.length_drop]
  omega

def cleonosSqliteWriteWholeFile (path : List UInt8) (data : ℕ → UInt8) (size : ℤ) : Io Rc :=
  if size < 0 then pure .ioerrWrite
  else do
    let rc ← cleonosSqliteEnsureParentDirs path
    if rc ≠ .ok then pure .cantopen
    else
      let opened ← Prog.ask (.fdOpen path)
      if opened = false then pure .cantopen
      else
        let rc ← writeLoop (slice data 0 size.toNat)
        Prog.ask Call.fdClose
        pure rc

def cleonosSqliteFlush (file : VfsFile) : Io (Rc × VfsFile) :=
  if file.dirty = false then pure (.ok, file)
  else
    match file.path with
    | none => pure (.ok, file)
    | some path => do
        let rc ← cleonosSqliteWriteWholeFile path file.data file.size
        if rc ≠ .ok then pure (.ioerrWrite, file)
        else pure (.ok, { file with dirty := false })

def cleonosSqliteSync (file : VfsFile) : Io (Rc × VfsFile) := cleonosSqliteFlush file

/-- What a call does to the content of the file on the disk: opening empties it, writing
appends to what was written since. -/
def effect (disk : Option (List UInt8)) : (c : Call) × Reply c → Option (List UInt8)
  | ⟨.fdOpen _, opened⟩ => if opened then some [] else disk
  | ⟨.fdWrite bytes, wrote⟩ =>
    match wrote with
    | none => disk
    | some k => disk.map (· ++ bytes.take (k + 1))
  | _ => disk

/-- What the system answers while a file is opened: whether memory is granted, whether the
file can be opened, and whether it can be read. -/
structure OpenAnswers where
  alloc : Bool
  opens : Bool
  reads : Bool
  deriving DecidableEq, Repr

/-- `cleonos_sqlite_read_whole_file`; `disk` is the content of the file, when there is one. -/
def cleonosSqliteReadWholeFile (a : OpenAnswers) (disk : Option (List UInt8)) :
    Except Rc (List UInt8) :=
  match disk with
  | none => .error .cantopen
  | some bytes =>
    if bytes.length > 0x7FFFFFFF then .error .toobig
    else if a.alloc = false ∧ bytes.length ≠ 0 then .error .nomem
    else if a.opens = false then .error .cantopen
    else if a.reads = false ∧ bytes.length ≠ 0 then .error .ioerrRead
    else .ok bytes

/-- A handle without content. -/
def emptyFile (path : List UInt8) (deleteOnClose : Bool) : VfsFile where
  path := some path
  data := fun _ => 0
  size := 0
  capacity := 0
  dirty := false
  deleteOnClose := deleteOnClose
  lockLevel := lockNone

/-- A handle with the content that was read. -/
def loadedFile (path : List UInt8) (deleteOnClose : Bool) (contents : List UInt8) : VfsFile :=
  { emptyFile path deleteOnClose with
    data := fun i => contents.getD i 0
    size := contents.length
    capacity := contents.length }

/-- `cleonos_sqlite_open` of a normalised path, with the flags for creating the file and
for deleting it on close. -/
def cleonosSqliteOpen (a : OpenAnswers) (disk : Option (List UInt8)) (path : List UInt8)
    (create deleteOnClose : Bool) : Except Rc VfsFile :=
  match disk with
  | some _ => do
      let contents ← cleonosSqliteReadWholeFile a disk
      pure (loadedFile path deleteOnClose contents)
  | none => if create = false then .error .cantopen else .ok (emptyFile path deleteOnClose)

def cleonosSqliteLock (file : VfsFile) (level : ℕ) : Rc × VfsFile :=
  (.ok, { file with lockLevel := level })

def cleonosSqliteUnlock (file : VfsFile) (level : ℕ) : Rc × VfsFile :=
  (.ok, { file with lockLevel := level })

def cleonosSqliteCheckReservedLock (file : VfsFile) : Rc × Bool :=
  (.ok, decide (file.lockLevel ≥ lockReserved))

end Cleonos.Sqlite
