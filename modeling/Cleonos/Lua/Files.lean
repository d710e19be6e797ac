import Cleonos.Compat.Streams
import Cleonos.Libc.Snprintf

/-!
# The streams of Lua

`lua_cleonos_compat.c`, its streams: three of them are there from the start, and twelve may be
opened.
-/

namespace Cleonos.Lua

open Buffer (slice)
open Stdio (Device)
open Compat (oWronly oRdwr oCreat oTrunc oAppend)
open Function (update)

/-! ## Descriptors -/

/-- An open descriptor: what it takes and has taken, what may still be read, how much of that each
read returns at most, or that it fails, and the number of reads. -/
structure Fd where
  out : Device
  rest : List UInt8
  grants : ℕ → Option ℕ
  reads : ℕ

/-- `cleonos_sys_fd_read`. -/
def fdRead (fd : Fd) (size : ℕ) : Option (List UInt8) × Fd :=
  let fd' := { fd with reads := fd.reads + 1 }
  match fd.grants fd.reads with
  | none => (none, fd')
  | some grant =>
    (some (fd.rest.take (min grant size)), { fd' with rest := fd.rest.drop (min grant size) })

/-- `cleonos_lua_file`; the magic number is there or not. -/
structure LuaFile where
  magic : Bool
  fd : ℤ
  stdio : Bool
  eof : Bool
  err : Bool
  ungot : Option UInt8
  deriving DecidableEq, Repr

def LuaFile.zero : LuaFile := ⟨false, 0, false, false, false, none⟩

/-- The streams: `stdin`, `stdout`, `stderr`, and the entries of `lua_files`. -/
inductive Name
  | stdin
  | stdout
  | stderr
  | file (i : ℕ)
  deriving DecidableEq, Repr

/-- The streams, the descriptors, and which of them are open. -/
structure World where
  files : Name → LuaFile
  fds : ℤ → Fd
  isOpen : ℤ → Bool

def World.setFile (w : World) (n : Name) (file : LuaFile) : World :=
  { w with files := update w.files n file }

def World.setFd (w : World) (f : ℤ) (fd : Fd) : World :=
  { w with fds := update w.fds f fd }

/-- `CLEONOS_LUA_MAX_FILES`. -/
def maxFiles : ℕ := 12

/-- `lua_alloc_file`. -/
def allocFile (w : World) : Option Name :=
  ((List.range maxFiles).find? fun i => (w.files (.file i)).magic = false).map .file

/-- `lua_open_flags_from_mode`. -/
def openFlagsFromMode (mode : List UInt8) : Option ℕ :=
  match mode with
  | [] => none
  | c :: _ =>
    if c ≠ 119 ∧ c ≠ 97 ∧ c ≠ 114 then none
    else
      let write := c = 119 ∨ c = 97
      let flags := if 43 ∈ mode then oRdwr else if write then oWronly else 0
      let flags := if write then flags ||| oCreat else flags
      let flags := if c = 119 then flags ||| oTrunc else flags
      some (if c = 97 then flags ||| oAppend else flags)

/-- What `cleonos_sys_fd_open` returns: a number and its descriptor. -/
structure Opened where
  number : ℤ
  fd : Fd

/-- `cleonos_lua_fopen`. -/
def luaFopen (w : World) (path mode : List UInt8) (opened : Option Opened) : Option Name × World :=
  if path = [] ∨ openFlagsFromMode mode = none then (none, w)
  else
    match opened with
    | none => (none, w)
    | some o =>
      match allocFile w with
      | none => (none, w)
      | some n =>
        (some n, { w.setFile n ⟨true, o.number, false, false, false, none⟩ with
          fds := update w.fds o.number o.fd
          isOpen := update w.isOpen o.number true })

/-- `cleonos_lua_freopen`. -/
def luaFreopen (w : World) (path mode : List UInt8) (n : Name) (opened : Option Opened)
    (closes : Bool) : Option Name × World :=
  if (w.files n).magic = false then (none, w)
  else
    match luaFopen w path mode opened with
    | (none, w) => (none, w)
    | (some next, w) =>
      let file := w.files n
      let w := if file.stdio = false ∧ file.fd ≥ 0 ∧ closes then
          { w with isOpen := update w.isOpen file.fd false } else w
      (some n, (w.setFile n (w.files next)).setFile next LuaFile.zero)

/-- `cleonos_lua_fclose`; `false` for `EOF`. -/
def luaFclose (w : World) (n : Name) (closes : Bool) : Bool × World :=
  let file := w.files n
  if file.magic = false then (false, w)
  else if file.stdio = false then
    if file.fd ≥ 0 ∧ closes = false then (false, w.setFile n { file with err := true })
    else
      let w :=
        if file.fd ≥ 0 then { w with isOpen := update w.isOpen file.fd false } else w
      (true, w.setFile n LuaFile.zero)
  else (true, w)

/-- The loop of `cleonos_lua_fread`: what is read, and whether it has failed. -/
def freadLoop : ℕ → Fd → List UInt8 × Bool × Bool × Fd
  | 0, fd => ([], false, false, fd)
  | need + 1, fd =>
    match fdRead fd (need + 1) with
    | (none, fd) => ([], false, true, fd)
    | (some [], fd) => ([], true, false, fd)
    | (some (b :: bytes), fd) =>
      let r := freadLoop (need - bytes.length) fd
      (b :: bytes ++ r.1, r.2)
  termination_by need => need
  decreasing_by omega

/-- `cleonos_lua_fread`: the bytes in the buffer. -/
def luaFread (w : World) (size nmemb : ℕ) (n : Name) : List UInt8 × World :=
  let file := w.files n
  if file.magic = false then ([], w)
  else if size = 0 ∨ nmemb = 0 then ([], w)
  else
    let total := size * nmemb % 2 ^ 64
    match if total > 0 then file.ungot else none with
    | some ch =>
      let r := freadLoop (total - 1) (w.fds file.fd)
      (ch :: r.1, (w.setFd file.fd r.2.2.2).setFile n
        { file with ungot := none, eof := file.eof || r.2.1, err := file.err || r.2.2.1 })
    | none =>
      let r := freadLoop total (w.fds file.fd)
      (r.1, (w.setFd file.fd r.2.2.2).setFile n
        { file with eof := file.eof || r.2.1, err := file.err || r.2.2.1 })

/-- `cleonos_lua_fwrite`: the number of items; a write takes no more than it is given. -/
def luaFwrite (w : World) (data : List UInt8) (size nmemb : ℕ) (n : Name) : ℕ × World :=
  let file := w.files n
  if file.magic = false then (0, w)
  else if size = 0 ∨ nmemb = 0 then (0, w)
  else
    let fd := w.fds file.fd
    let wrote := Stdio.writeAll fd.out (data.take (size * nmemb % 2 ^ 64))
    ((wrote.1.sent.length - fd.out.sent.length) / size,
      (w.setFd file.fd { fd with out := wrote.1 }).setFile n
        { file with err := file.err || !wrote.2 })

/-- `cleonos_lua_fgetc`. -/
def luaFgetc (w : World) (n : Name) : Option UInt8 × World :=
  let r := luaFread w 1 1 n
  (r.1.head?, r.2)

/-- The loop of `cleonos_lua_fgets`. -/
def fgetsLoop : ℕ → World → Name → List UInt8 × World
  | 0, w, _ => ([], w)
  | room + 1, w, n =>
    match luaFgetc w n with
    | (none, w) => ([], w)
    | (some ch, w) =>
      if ch = 10 then ([ch], w)
      else
        let r := fgetsLoop room w n
        (ch :: r.1, r.2)

/-- `cleonos_lua_fgets`; the text that is in the buffer, none for a null pointer. -/
def luaFgets (w : World) (size : ℤ) (n : Name) : Option (List UInt8) × World :=
  if size ≤ 0 then (none, w)
  else
    let r := fgetsLoop (size.toNat - 1) w n
    (if r.1 = [] then none else some r.1, r.2)

/-- A value as an `int`. -/
def toInt (n : ℕ) : ℤ := (n : ℤ).bmod (2 ^ 32)

/-- `cleonos_lua_fputs`; -1 for `EOF`. -/
def luaFputs (w : World) (text : List UInt8) (n : Name) : ℤ × World :=
  let r := luaFwrite w text 1 text.length n
  (if r.1 = text.length then toInt text.length else -1, r.2)

/-- `cleonos_lua_fputc`. -/
def luaFputc (w : World) (ch : UInt8) (n : Name) : ℤ × World :=
  let r := luaFwrite w [ch] 1 1 n
  (if r.1 = 1 then ch.toNat else -1, r.2)

section

variable {M : Type} (mem : Stdio.Memory M)

/-- `vdprintf` on the descriptor `f`. -/
def dprintfTo (w : World) (f : ℤ) (fmt : List UInt8) (args : List UInt64) (memory : M) :
    ℤ × World :=
  let fd := w.fds f
  let r := Stdio.vdprintf mem { fd.out with fd := f } fmt args memory
  (r.rc, w.setFd f { fd with out := r.sink.device })

/-- The size of the buffer in `cleonos_lua_vfprintf`. -/
def bufSize : ℕ := 512

/-- `cleonos_lua_vfprintf`; the stack is the memory from the first byte of the buffer on. -/
def luaVfprintf (w : World) (n : Name) (fmt : List UInt8) (args : List UInt64) (memory : M)
    (stack : ℕ → UInt8) : ℤ × World :=
  if n = .stdout then dprintfTo mem w 1 fmt args memory
  else if n = .stderr then dprintfTo mem w 2 fmt args memory
  else
    let r := Stdio.vsnprintf mem (some stack) bufSize fmt args memory
    if r.rc < 0 then (r.rc, w)
    else
      let wrote := luaFwrite w (slice (r.sink.buffer.getD stack) 0 r.rc.toNat) 1 r.rc.toNat n
      (if wrote.1 ≠ r.rc.toNat then -1 else r.rc, wrote.2)

end

/-- A call, with what its surroundings do. -/
inductive Call (M : Type)
  | fopen (path mode : List UInt8) (opened : Option Opened)
  | freopen (path mode : List UInt8) (n : Name) (opened : Option Opened) (closes : Bool)
  | fclose (n : Name) (closes : Bool)
  | fread (size nmemb : ℕ) (n : Name)
  | fgets (size : ℤ) (n : Name)
  | fwrite (data : List UInt8) (size nmemb : ℕ) (n : Name)
  | fputs (text : List UInt8) (n : Name)
  | fputc (ch : UInt8) (n : Name)
  | fprintf (n : Name) (fmt : List UInt8) (args : List UInt64) (memory : M) (stack : ℕ → UInt8)

/-- What a call returns. -/
inductive Answer
  | stream (n : Option Name)
  | bytes (bytes : List UInt8)
  | value (v : ℤ)

def step {M : Type} (mem : Stdio.Memory M) (w : World) : Call M → Answer × World
  | .fopen path mode opened =>
    let r := luaFopen w path mode opened
    (.stream r.1, r.2)
  | .freopen path mode n opened closes =>
    let r := luaFreopen w path mode n opened closes
    (.stream r.1, r.2)
  | .fclose n closes =>
    let r := luaFclose w n closes
    (.value (if r.1 then 0 else -1), r.2)
  | .fread size nmemb n =>
    let r := luaFread w size nmemb n
    (.bytes r.1, r.2)
  | .fgets size n =>
    let r := luaFgets w size n
    (.bytes (r.1.getD []), r.2)
  | .fwrite data size nmemb n =>
    let r := luaFwrite w data size nmemb n
    (.value r.1, r.2)
  | .fputs text n =>
    let r := luaFputs w text n
    (.value r.1, r.2)
  | .fputc ch n =>
    let r := luaFputc w ch n
    (.value r.1, r.2)
  | .fprintf n fmt args memory stack =>
    let r := luaVfprintf mem w n fmt args memory stack
    (.value r.1, r.2)

def run {M : Type} (mem : Stdio.Memory M) (w : World) : List (Call M) → List Answer × World
  | [] => ([], w)
  | c :: calls =>
    let r := run mem (step mem w c).2 calls
    ((step mem w c).1 :: r.1, r.2)

end Cleonos.Lua
