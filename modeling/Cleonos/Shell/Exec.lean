import Cleonos.Lib.Prog
import Cleonos.Path.Model

/-!
# Running external commands

`exec.rs` and `resolve_exec_path` of `path.rs`.
-/

namespace Cleonos.Shell

open List
open LexicalPath (slash)
open Path (resolvePath)

/-! ## Buffers and strings -/

def pathMax : ℕ := 192
def lineMax : ℕ := 192
def argMax : ℕ := 160
def envMax : ℕ := 512
def cmdMax : ℕ := 32
def nameMax : ℕ := 32
def homeMax : ℕ := 96

/-- `FD_INHERIT`, and what a refused `FD_OPEN` returns. -/
def fdInherit : ℕ := 2 ^ 64 - 1

/-- `copy_bytes` into a buffer of `n` bytes: the string that is in it afterwards. -/
def copyBytes (n : ℕ) (src : List UInt8) : List UInt8 := (cstr src).take (n - 1)

theorem length_copyBytes_le (n : ℕ) (src : List UInt8) : (copyBytes n src).length ≤ n - 1 :=
  length_take_le _ _

variable {n : ℕ}

theorem length_copyBytes_lt (hn : 0 < n) (src : List UInt8) : (copyBytes n src).length < n :=
  lt_of_le_of_lt (length_copyBytes_le n src) (by omega)

theorem notMem_copyBytes (n : ℕ) (src : List UInt8) : (0 : UInt8) ∉ copyBytes n src :=
  fun h => notMem_cstr src (mem_of_mem_take h)

theorem copyBytes_of_fits {src : List UInt8} (h0 : (0 : UInt8) ∉ src)
    (hlen : src.length < n) : copyBytes n src = src := by
  rw [copyBytes, cstr_of_notMem h0, take_of_length_le (by omega)]

/-- `append_bytes` to a string in a zeroed buffer of `n` bytes: whether everything fit,
and the string afterwards. -/
def appendBytes (n : ℕ) (dst src : List UInt8) : Bool × List UInt8 :=
  (decide (cstr src = [] ∨ dst.length + (cstr src).length < n), (dst ++ cstr src).take (n - 1))

theorem appendBytes_of_fst {dst src : List UInt8} (hdst : dst.length < n)
    (h : (appendBytes n dst src).1 = true) : (appendBytes n dst src).2 = dst ++ cstr src := by
  simp only [appendBytes, decide_eq_true_eq] at h ⊢
  refine take_of_length_le ?_
  rw [length_append]
  rcases h with h | h
  · rw [h, length_nil]
    omega
  · omega

def hasSuffix (text suffix : List UInt8) : Bool :=
  decide (text.length ≥ suffix.length) && (text.drop (text.length - suffix.length) == suffix)

def startsWithRaw (text pre : List UInt8) : Bool :=
  decide (text.length ≥ pre.length) && (text.take pre.length == pre)

def containsByte (text : List UInt8) (needle : UInt8) : Bool := text.any (· == needle)

structure ExecResult where
  known : Bool
  success : Bool
  deriving DecidableEq, Repr

/-- The fields of `ShellState` that running a command reads or writes. -/
structure ShellState where
  cwd : List UInt8
  username : List UInt8
  home : List UInt8
  role : ℕ
  diskLoginRequired : Bool
  loggedIn : Bool
  exitRequested : Bool
  exitCode : ℕ
  deriving DecidableEq, Repr

structure CmdRet where
  flags : ℕ
  exitCode : ℕ
  cwd : List UInt8
  deriving DecidableEq, Repr

/-- `UserInfo`, as `SYSCALL_USER_CURRENT` fills it in. -/
structure UserInfo where
  role : ℕ
  loggedIn : ℕ
  diskLoginRequired : ℕ
  name : List UInt8
  home : List UInt8
  deriving DecidableEq, Repr

/-- What `login_if_needed` leaves in the shell. -/
structure LoginOutcome where
  cwd : List UInt8
  username : List UInt8
  home : List UInt8
  role : ℕ
  diskLoginRequired : Bool
  loggedIn : Bool
  deriving DecidableEq, Repr

/-- The system calls, and console output. -/
inductive Call
  /-- `SYSCALL_FS_STAT_TYPE`. -/
  | statType (path : List UInt8)
  /-- `SYSCALL_FS_REMOVE`. -/
  | remove (path : List UInt8)
  /-- `SYSCALL_FS_WRITE` of a `CmdCtx` to `CMD_CTX_PATH`. -/
  | writeCtx (cmd arg cwd : List UInt8)
  /-- `SYSCALL_FS_READ` of a `CmdRet` from `CMD_RET_PATH`. -/
  | readRet
  /-- `SYSCALL_EXEC_PATHV_IO`. -/
  | execPathvIo (path arg env : List UInt8) (stdin stdout stderr : ℕ)
  /-- `SYSCALL_USER_CURRENT`. -/
  | userCurrent
  /-- `login_if_needed`. -/
  | login
  /-- `SYSCALL_FD_OPEN`. -/
  | fdOpen (path : List UInt8) (flags : ℕ)
  /-- `SYSCALL_FD_CLOSE`. -/
  | fdClose (fd : ℕ)
  /-- `write_bytes`, `write_cstr`, `writeln`. -/
  | writeBytes (text : List UInt8)
  /-- `writeln_i18n`, by its English text. -/
  | writelnI18n (text : List UInt8)
  deriving DecidableEq, Repr

/-- What each call answers; a read of a `CmdRet` that is short, and a
`SYSCALL_USER_CURRENT` that returns zero, answer `none`. -/
def Reply : Call → Type
  | .statType _ => ℕ
  | .remove _ => Unit
  | .writeCtx _ _ _ => ℕ
  | .readRet => Option CmdRet
  | .execPathvIo _ _ _ _ _ _ => ℕ
  | .userCurrent => Option UserInfo
  | .login => LoginOutcome
  | .fdOpen _ _ => ℕ
  | .fdClose _ => Unit
  | .writeBytes _ => Unit
  | .writelnI18n _ => Unit

/-- Programs of the shell, and what answers them. -/
abbrev Sh (α : Type) : Type := Prog Call Reply α
abbrev ShellEnv : Type := Prog.Env Call Reply

/-! Each call as a program, the answer an environment gives it, and its run. -/

def statType (path : List UInt8) : Sh ℕ := Prog.ask (Call.statType path)
def remove (path : List UInt8) : Sh Unit := Prog.ask (Call.remove path)
def writeCtx (cmd arg cwd : List UInt8) : Sh ℕ := Prog.ask (Call.writeCtx cmd arg cwd)
def readRet : Sh (Option CmdRet) := Prog.ask Call.readRet
def execPathvIo (path arg env : List UInt8) (stdin stdout stderr : ℕ) : Sh ℕ :=
  Prog.ask (Call.execPathvIo path arg env stdin stdout stderr)
def userCurrent : Sh (Option UserInfo) := Prog.ask Call.userCurrent
def login : Sh LoginOutcome := Prog.ask Call.login
def fdOpen (path : List UInt8) (flags : ℕ) : Sh ℕ := Prog.ask (Call.fdOpen path flags)
def fdClose (fd : ℕ) : Sh Unit := Prog.ask (Call.fdClose fd)
def writeBytes (text : List UInt8) : Sh Unit := Prog.ask (Call.writeBytes text)
def writeln (text : List UInt8) : Sh Unit := Prog.ask (Call.writeBytes (text ++ lit "\n"))
def writelnI18n (text : List UInt8) : Sh Unit := Prog.ask (Call.writelnI18n text)

namespace ShellEnv

open List

variable (env : ShellEnv) (h : List Call)

def stat (path : List UInt8) : ℕ := env h (Call.statType path)
def write (cmd arg cwd : List UInt8) : ℕ := env h (Call.writeCtx cmd arg cwd)
def ret : Option CmdRet := env h Call.readRet
def exec (path arg vars : List UInt8) (stdin stdout stderr : ℕ) : ℕ :=
  env h (Call.execPathvIo path arg vars stdin stdout stderr)
def user : Option UserInfo := env h Call.userCurrent
def session : LoginOutcome := env h Call.login
def fd (path : List UInt8) (flags : ℕ) : ℕ := env h (Call.fdOpen path flags)

end ShellEnv

section Runs

variable (env : ShellEnv) (h : List Call)

variable (path : List UInt8)

@[simp] theorem run_statType :
    (statType path).run env h = (env.stat h path, [.statType path]) := rfl
@[simp] theorem run_remove : (remove path).run env h = ((), [.remove path]) := rfl
@[simp] theorem run_writeCtx (cmd arg cwd : List UInt8) :
    (writeCtx cmd arg cwd).run env h = (env.write h cmd arg cwd, [.writeCtx cmd arg cwd]) := rfl
@[simp] theorem run_execPathvIo (arg vars : List UInt8) (stdin stdout stderr : ℕ) :
    (execPathvIo path arg vars stdin stdout stderr).run env h =
      (env.exec h path arg vars stdin stdout stderr,
        [.execPathvIo path arg vars stdin stdout stderr]) := rfl
@[simp] theorem run_fdOpen (flags : ℕ) :
    (fdOpen path flags).run env h = (env.fd h path flags, [.fdOpen path flags]) := rfl

end Runs

section Emits

variable {P : Call → Prop}

variable {path : List UInt8}

theorem emits_statType (h : P (.statType path)) : (statType path).Emits P := Prog.emits_ask h
theorem emits_remove (h : P (.remove path)) : (remove path).Emits P := Prog.emits_ask h
theorem emits_writeCtx {cmd arg cwd : List UInt8} (h : P (.writeCtx cmd arg cwd)) :
    (writeCtx cmd arg cwd).Emits P := Prog.emits_ask h
theorem emits_readRet (h : P .readRet) : readRet.Emits P := Prog.emits_ask h
theorem emits_execPathvIo {arg vars : List UInt8} {stdin stdout stderr : ℕ}
    (h : P (.execPathvIo path arg vars stdin stdout stderr)) :
    (execPathvIo path arg vars stdin stdout stderr).Emits P := Prog.emits_ask h
theorem emits_userCurrent (h : P .userCurrent) : userCurrent.Emits P := Prog.emits_ask h
theorem emits_login (h : P .login) : login.Emits P := Prog.emits_ask h
theorem emits_writeBytes {text : List UInt8} (h : P (.writeBytes text)) :
    (writeBytes text).Emits P := Prog.emits_ask h
theorem emits_writeln {text : List UInt8} (h : P (.writeBytes (text ++ lit "\n"))) :
    (writeln text).Emits P := Prog.emits_ask h

end Emits

def cmdCtxPath : List UInt8 := lit "/temp/.ush_cmd_ctx.bin"
def cmdRetPath : List UInt8 := lit "/temp/.ush_cmd_ret.bin"

def elfSuffix : List UInt8 := lit ".elf"

/-- The last step of `resolve_exec_path`, and a step of its loop: append the suffix
unless it is there. -/
def withElf (path : List UInt8) : Option (List UInt8) :=
  if hasSuffix path elfSuffix then some path
  else
    let r := appendBytes pathMax path elfSuffix
    if r.1 then some r.2 else none

def execDirs : List (List UInt8) :=
  [lit "/shell/apps/", lit "/shell/apps/uwm/", lit "/shell/apps/inputm/"]

/-- `candidate` for one directory. -/
def candidateIn (dir cmd : List UInt8) : Option (List UInt8) :=
  let d := appendBytes pathMax [] dir
  let c := appendBytes pathMax d.2 cmd
  if d.1 ∧ c.1 then withElf c.2 else none

/-- The loop over the directories; `fallback` is the first candidate. -/
def searchDirs (cmd : List UInt8) :
    List (List UInt8) → Option (List UInt8) → Sh (Option (List UInt8))
  | [], fallback => pure fallback
  | dir :: dirs, fallback =>
    match candidateIn dir cmd with
    | none => pure none
    | some candidate => do
        let kind ← statType candidate
        if kind = 1 then pure (some candidate)
        else searchDirs cmd dirs (some (fallback.getD candidate))

/-- `resolve_exec_path`; `none` for `false`. -/
def resolveExecPath (cwd cmd : List UInt8) : Sh (Option (List UInt8)) :=
  if cmd = [] then pure none
  else if cmd.headD 0 = slash then pure (withElf (copyBytes pathMax cmd))
  else if containsByte cmd slash then
    pure ((resolvePath cwd cmd pathMax).bind withElf)
  else searchDirs cmd execDirs none

/-- `alias_command`, into a buffer of 32 bytes. -/
def aliasCommand (cmd : List UInt8) : List UInt8 :=
  let cmd := cstr cmd
  if cmd = lit "dir" then lit "ls"
  else if cmd = lit "run" then lit "exec"
  else if cmd = lit "poweroff" then lit "shutdown"
  else if cmd = lit "reboot" then lit "restart"
  else if cmd = lit "cls" then lit "clear"
  else if cmd = lit "color" then lit "ansi"
  else copyBytes cmdMax cmd

/-- The command word and the argument string that are executed. -/
def canonicalCommand (cmd arg : List UInt8) : List UInt8 × List UInt8 :=
  if aliasCommand cmd = lit "sysinfo" then
    (lit "uname",
      if cstr arg = [] then lit "--sysinfo" else (appendBytes argMax (lit "--sysinfo ") arg).2)
  else (aliasCommand cmd, copyBytes argMax arg)

/-- A chain of `append_bytes` joined by `&&`. -/
def appendAll (n : ℕ) : List UInt8 → List (List UInt8) → Option (List UInt8)
  | dst, [] => some dst
  | dst, piece :: pieces =>
    let r := appendBytes n dst piece
    if r.1 then appendAll n r.2 pieces else none

def buildEnv (sh : ShellState) (cmd : List UInt8) (stdin : ℕ) : Option (List UInt8) :=
  appendAll envMax []
    ([lit "PWD=", sh.cwd, lit ";CMD=", cmd, lit ";LAUNCHER=/shell/apps/shell.elf;USER=", sh.username,
      lit ";HOME=", sh.home, lit ";ROLE=", if sh.role = 1 then lit "admin" else lit "user"] ++
      if stdin = fdInherit then [] else [lit ";USH_STDIN_MODE=PIPE"])

def applyCommandRet (sh : ShellState) (ret : CmdRet) : ShellState :=
  let sh :=
    if ret.flags &&& 1 ≠ 0 ∧ ret.cwd.headD 0 = slash then
      { sh with cwd := copyBytes pathMax ret.cwd } else sh
  if ret.flags &&& 2 ≠ 0 then { sh with exitRequested := true, exitCode := ret.exitCode } else sh

/-- The fields that `sync_user_state_after_external` takes over from a user who is
logged in. -/
def ShellState.adopt (sh : ShellState) (info : UserInfo) : ShellState :=
  { sh with
    username := copyBytes nameMax info.name
    home := copyBytes homeMax info.home
    role := info.role
    loggedIn := true }

/-- The fields that `login_if_needed` sets. -/
def ShellState.afterLogin (sh : ShellState) (out : LoginOutcome) : ShellState :=
  { sh with
    cwd := out.cwd
    username := out.username
    home := out.home
    role := out.role
    diskLoginRequired := out.diskLoginRequired
    loggedIn := out.loggedIn }

/-- `sync_user_state_after_external`. -/
def syncUserState (sh : ShellState) (stdin stdout stderr : ℕ) : Sh ShellState :=
  if stdin ≠ fdInherit ∨ stdout ≠ fdInherit ∨ stderr ≠ fdInherit then pure sh
  else do
    let info ← userCurrent
    let sh := match info with
      | none => sh
      | some info => { sh with diskLoginRequired := info.diskLoginRequired ≠ 0 }
    match info.filter fun info => info.loggedIn ≠ 0 with
    | some info => pure (sh.adopt info)
    | none => do
        let out ← login
        pure (sh.afterLogin out)

/-- A number in decimal, as `write_u64_dec` prints it. -/
def dec (n : ℕ) : List UInt8 := lit (toString n)

def signalName (signal : ℕ) : List UInt8 :=
  if signal = 9 then lit "KILL"
  else if signal = 15 then lit "TERM"
  else if signal = 18 then lit "CONT"
  else if signal = 19 then lit "STOP"
  else lit "UNKNOWN"

/-- `print_exit_status`, in one piece. -/
def printExitStatus (label : List UInt8) (status : ℕ) : Sh Unit :=
  if status &&& 2 ^ 63 ≠ 0 then
    writeBytes (label ++ lit ": terminated by signal " ++ signalName (status &&& 0xFF) ++ lit " (" ++
      dec (status &&& 0xFF) ++ lit "), exception vector " ++ dec ((status >>> 8) &&& 0xFF) ++
      lit ", error " ++ dec ((status >>> 16) &&& 0xFFFF) ++ lit "\n")
  else writeBytes (label ++ lit ": exit code " ++ dec status ++ lit "\n")

/-- The prefix of the paths that are not executed, and the text that reports it. -/
def systemPrefix : List UInt8 := lit "/system"
def reservedText : List UInt8 := lit "exec: /system is reserved for system files"

/-- What follows an `EXEC_PATHV_IO` that was accepted. -/
def finishExec (sh : ShellState) (status stdin stdout stderr : ℕ) : Sh (ExecResult × ShellState) := do
  let ret ← readRet
  let sh := match ret with
    | none => sh
    | some ret => applyCommandRet sh ret
  let sh ← syncUserState sh stdin stdout stderr
  remove cmdCtxPath
  remove cmdRetPath
  if status ≠ 0 then do
    printExitStatus
      (if status &&& 2 ^ 63 ≠ 0 then lit "exec" else lit "exec returned non-zero status") status
    pure (⟨true, false⟩, sh)
  else pure (⟨true, true⟩, sh)

/-- What `exec_external_with_fds` does once the path has passed the guard. -/
def launch (sh : ShellState) (canonical arg path : List UInt8) (stdin stdout stderr : ℕ) :
    Sh (ExecResult × ShellState) := do
  let kind ← statType path
  if kind ≠ 1 then pure (⟨false, false⟩, sh)
  else do
    remove cmdRetPath
    let written ← writeCtx (copyBytes cmdMax canonical) (copyBytes argMax arg)
      (copyBytes pathMax sh.cwd)
    if written = 0 then do
      writeln (lit "exec: command context write failed")
      pure (⟨true, false⟩, sh)
    else
      match buildEnv sh canonical stdin with
      | none => do
          writeln (lit "exec: env too long")
          remove cmdCtxPath
          pure (⟨true, false⟩, sh)
      | some env => do
          let status ← execPathvIo path arg env stdin stdout stderr
          if status = fdInherit then do
            writeln (lit "exec: request failed")
            remove cmdCtxPath
            pure (⟨true, false⟩, sh)
          else finishExec sh status stdin stdout stderr

/-- `exec_external_with_fds`, with the shell state it leaves. -/
def execExternalWithFds (sh : ShellState) (cmd arg : List UInt8) (stdin stdout stderr : ℕ) :
    Sh (ExecResult × ShellState) := do
  let c := canonicalCommand cmd arg
  let path ← resolveExecPath sh.cwd c.1
  match path with
  | none => pure (⟨false, false⟩, sh)
  | some path =>
    if startsWithRaw path systemPrefix then do
      writelnI18n reservedText
      pure (⟨true, false⟩, sh)
    else launch sh c.1 c.2 path stdin stdout stderr

/-- A shell of an anonymous user in a directory. -/
def plainShell (cwd : List UInt8) : ShellState := ⟨cwd, [], [], 0, false, false, false, 0⟩

/-- An environment in which every file exists and every call succeeds. -/
def willing : ShellEnv := fun _ c =>
  match c with
  | .statType _ => (1 : ℕ)
  | .remove _ => ()
  | .writeCtx _ _ _ => (1 : ℕ)
  | .readRet => (none : Option CmdRet)
  | .execPathvIo _ _ _ _ _ _ => (0 : ℕ)
  | .userCurrent => (none : Option UserInfo)
  | .login => (⟨[], [], [], 0, false, false⟩ : LoginOutcome)
  | .fdOpen _ _ => (3 : ℕ)
  | .fdClose _ => ()
  | .writeBytes _ => ()
  | .writelnI18n _ => ()

/-! ## The calls of resolve_exec_path and of a launch -/

theorem emits_searchDirs (cmd : List UInt8) (dirs : List (List UInt8))
    (fallback : Option (List UInt8)) :
    Prog.Emits (fun c => ∃ p, c = Call.statType p) (searchDirs cmd dirs fallback) := by
  induction dirs generalizing fallback with
  | nil => exact Prog.emits_pure fallback
  | cons dir dirs ih =>
    rw [searchDirs]
    cases candidateIn dir cmd with
    | none => exact Prog.emits_pure none
    | some candidate =>
      refine Prog.Emits.bind (Prog.emits_ask ⟨candidate, rfl⟩) fun kind => ?_
      exact Prog.emits_ite (fun _ => Prog.emits_pure _) fun _ => ih _

theorem emits_resolveExecPath (cwd word : List UInt8) :
    (resolveExecPath cwd word).Emits fun c => ∃ p, c = Call.statType p := by
  rw [resolveExecPath]
  refine Prog.emits_ite (fun _ => Prog.emits_pure _) fun _ => ?_
  refine Prog.emits_ite (fun _ => Prog.emits_pure _) fun _ => ?_
  exact Prog.emits_ite (fun _ => Prog.emits_pure _) fun _ => emits_searchDirs _ _ _

theorem emits_syncUserState {P : Call → Prop} (sh : ShellState) (stdin stdout stderr : ℕ)
    (huser : P .userCurrent) (hlogin : P .login) : (syncUserState sh stdin stdout stderr).Emits P := by
  rw [syncUserState]
  refine Prog.emits_ite (fun _ => Prog.emits_pure _) fun _ => ?_
  refine (emits_userCurrent huser).bind fun info => ?_
  cases info.filter fun info => info.loggedIn ≠ 0 with
  | some info => exact Prog.emits_pure _
  | none => exact (emits_login hlogin).bind fun out => Prog.emits_pure _

/-- What every text of `exec.rs` begins with. -/
def execLabel : List UInt8 := lit "exec"

/-- The calls of `launch`, other than the one that executes. -/
def Housekeeping : Call → Prop
  | .statType _ => True
  | .remove path => path = cmdCtxPath ∨ path = cmdRetPath
  | .writeCtx _ _ _ => True
  | .readRet => True
  | .userCurrent => True
  | .login => True
  | .writeBytes text => execLabel <+: text
  | _ => False

theorem housekeeping_writeBytes {text : List UInt8} (h : execLabel <+: text) :
    Housekeeping (.writeBytes text) := h

theorem emits_finishExec (sh : ShellState) (status stdin stdout stderr : ℕ) :
    (finishExec sh status stdin stdout stderr).Emits Housekeeping := by
  rw [finishExec]
  refine (emits_readRet trivial).bind fun ret => ?_
  refine (emits_syncUserState _ _ _ _ trivial trivial).bind fun sh => ?_
  refine (emits_remove (.inl rfl)).bind fun _ => (emits_remove (.inr rfl)).bind fun _ => ?_
  refine Prog.emits_ite (fun _ => ?_) fun _ => Prog.emits_pure _
  refine Prog.Emits.bind ?_ fun _ => Prog.emits_pure _
  have hlabel : ∀ rest, execLabel <+:
      (if status &&& 2 ^ 63 ≠ 0 then lit "exec" else lit "exec returned non-zero status") ++ rest := by
    intro rest
    refine List.IsPrefix.trans ?_ (prefix_append _ _)
    split_ifs
    · decide
    · decide
  rw [printExitStatus]
  simp only [append_assoc]
  exact Prog.emits_ite (fun _ => emits_writeBytes (hlabel _)) fun _ => emits_writeBytes (hlabel _)

theorem emits_launch (sh : ShellState) (canonical arg path : List UInt8)
    (stdin stdout stderr : ℕ) :
    (launch sh canonical arg path stdin stdout stderr).Emits fun c =>
      Housekeeping c ∨ ∃ vars, c = .execPathvIo path arg vars stdin stdout stderr := by
  rw [launch]
  refine (emits_statType (.inl trivial)).bind fun kind => ?_
  refine Prog.emits_ite (fun _ => Prog.emits_pure _) fun _ => ?_
  refine (emits_remove (.inl (.inr rfl))).bind fun _ => ?_
  refine (emits_writeCtx (.inl trivial)).bind fun written => ?_
  refine Prog.emits_ite (fun _ => ?_) fun _ => ?_
  · exact (emits_writeln (.inl (housekeeping_writeBytes (by decide)))).bind fun _ => Prog.emits_pure _
  cases buildEnv sh canonical stdin with
  | none =>
    exact (emits_writeln (.inl (housekeeping_writeBytes (by decide)))).bind fun _ =>
      (emits_remove (.inl (.inl rfl))).bind fun _ => Prog.emits_pure _
  | some vars =>
    refine (emits_execPathvIo (.inr ⟨vars, rfl⟩)).bind fun status => ?_
    refine Prog.emits_ite (fun _ => ?_) fun _ => ?_
    · exact (emits_writeln (.inl (housekeeping_writeBytes (by decide)))).bind fun _ =>
        (emits_remove (.inl (.inl rfl))).bind fun _ => Prog.emits_pure _
    · exact (emits_finishExec sh status stdin stdout stderr).mono fun c hc => .inl hc

end Cleonos.Shell
