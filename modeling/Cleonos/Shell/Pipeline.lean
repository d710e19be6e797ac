import Cleonos.Shell.Exec
import Cleonos.Lib.Run

/-!
# Pipelines

`pipeline.rs`: a line is cut at `|` into stages, each with at most one redirection, and
the stages run one after the other with temporary files between them.
-/

namespace Cleonos.Shell

open Path (resolvePath)

/-! ## Words -/

def isSpace (c : UInt8) : Bool :=
  c == 32 || c == 9 || c == 13 || c == 10 || c == 0x0b || c == 0x0c

/-- `trim_ascii_in_place`. -/
def trimAscii (s : List UInt8) : List UInt8 :=
  ((s.dropWhile isSpace).reverse.dropWhile isSpace).reverse

/-- `split_line`, into buffers for a command and its argument. -/
def splitLine (line : List UInt8) : List UInt8 × List UInt8 :=
  let line := (cstr line).dropWhile isSpace
  let rest := line.dropWhile (! isSpace ·)
  (copyBytes cmdMax (line.takeWhile (! isSpace ·)), copyBytes argMax (rest.dropWhile isSpace))

/-- `split_first_and_rest`; `none` for `false`. -/
def splitFirstAndRest (arg : List UInt8) : Option (List UInt8 × List UInt8) :=
  let arg := (cstr arg).dropWhile isSpace
  if arg = [] then none
  else
    let rest := arg.dropWhile (! isSpace ·)
    some (copyBytes pathMax (arg.takeWhile (! isSpace ·)), copyBytes argMax (rest.dropWhile isSpace))

def bar : UInt8 := 124
def gt : UInt8 := 62
def pipelineMaxStages : ℕ := 8

structure PipelineStage where
  text : List UInt8
  cmd : List UInt8
  arg : List UInt8
  redirectPath : List UInt8
  redirectMode : ℕ
  deriving DecidableEq, Repr

/-- The reasons for which a line is rejected. -/
inductive SyntaxError
  | emptyStage
  | multipleRedirections
  | pathRequired
  | pathSpaces
  | tooManyStages
  | stageTooLong
  | misplacedRedirection
  | invalidRedirectPath
  deriving DecidableEq, Repr

/-- What is written for each. -/
def SyntaxError.text : SyntaxError → List UInt8
  | emptyStage => lit "pipe: empty command stage"
  | multipleRedirections => lit "pipe: multiple redirections in one stage are not supported"
  | pathRequired => lit "pipe: redirection path required"
  | pathSpaces => lit "pipe: redirection path cannot contain spaces"
  | tooManyStages => lit "pipe: too many stages"
  | stageTooLong => lit "pipe: stage text too long"
  | misplacedRedirection => lit "pipe: redirection is only supported on final stage"
  | invalidRedirectPath => lit "redirect: invalid path"

/-- The scan for `>` and `>>`, from position `i`: where the operator is, and its mode,
which is also its length. -/
def scanOp : ℕ → List UInt8 → Option (ℕ × ℕ) → Except SyntaxError (Option (ℕ × ℕ))
  | _, [], op => .ok op
  | i, [c], op =>
    if c = gt then
      if op.isSome then .error .multipleRedirections else .ok (some (i, 1))
    else .ok op
  | i, c :: d :: s, op =>
    if c = gt then
      if op.isSome then .error .multipleRedirections
      else if d = gt then scanOp (i + 2) s (some (i, 2))
      else scanOp (i + 1) (d :: s) (some (i, 1))
    else scanOp (i + 1) (d :: s) op

/-- The end of `parse_pipeline_stage`: the command and its argument. -/
def finishStage (work redirectPath : List UInt8) (redirectMode : ℕ) :
    Except SyntaxError PipelineStage :=
  let words := splitLine work
  if words.1 = [] then .error .emptyStage
  else .ok ⟨work, words.1, trimAscii words.2, redirectPath, redirectMode⟩

def parsePipelineStage (segment : List UInt8) : Except SyntaxError PipelineStage :=
  let work := trimAscii (copyBytes lineMax segment)
  if work = [] then .error .emptyStage
  else
    match scanOp 0 work none with
    | .error e => .error e
    | .ok none => finishStage work [] 0
    | .ok (some (op, mode)) =>
      let pathSrc := trimAscii (copyBytes pathMax (work.drop (op + mode)))
      if pathSrc = [] then .error .pathRequired
      else
        match splitFirstAndRest pathSrc with
        | none => .error .pathRequired
        | some (first, rest) =>
          if rest ≠ [] then .error .pathSpaces
          else finishStage (trimAscii (work.take op)) (copyBytes pathMax first) mode

def addStage (stages : List PipelineStage) (segment : List UInt8) :
    Except SyntaxError (List PipelineStage) :=
  if stages.length ≥ pipelineMaxStages then .error .tooManyStages
  else (parsePipelineStage segment).map fun stage => stages ++ [stage]

/-- The loop of `parse_pipeline`. -/
def parsePipelineLoop : List UInt8 → List UInt8 → List PipelineStage →
    Except SyntaxError (List PipelineStage)
  | [], segment, stages => addStage stages segment
  | c :: line, segment, stages =>
    if c = bar then (addStage stages segment).bind fun stages => parsePipelineLoop line [] stages
    else if segment.length + 1 ≥ lineMax then .error .stageTooLong
    else parsePipelineLoop line (segment ++ [c]) stages

def parsePipeline (line : List UInt8) : Except SyntaxError (List PipelineStage) :=
  parsePipelineLoop (cstr line) [] []

def pipeTmpA : List UInt8 := lit "/temp/.ush_pipe_a.bin"
def pipeTmpB : List UInt8 := lit "/temp/.ush_pipe_b.bin"

def oRdonly : ℕ := 0x0000
def oWronly : ℕ := 0x0001
def oCreat : ℕ := 0x0040
def oTrunc : ℕ := 0x0200
def oAppend : ℕ := 0x0400

/-- The temporary file that a stage writes to. -/
def tempPath (toggle : Bool) : List UInt8 := if toggle then pipeTmpB else pipeTmpA

/-- The flags for the target of `>` and of `>>`. -/
def redirectFlags (mode : ℕ) : ℕ := oWronly ||| oCreat ||| if mode = 1 then oTrunc else oAppend

def removeTemps : Sh Unit := do
  remove pipeTmpA
  remove pipeTmpB

/-- Close a descriptor that was opened. -/
def closeOpened (fd : ℕ) : Sh Unit := if fd = fdInherit then pure () else fdClose fd

/-- The descriptor of the input of a stage; `none` when it cannot be opened. -/
def openInput : Option (List UInt8) → Sh (Option ℕ)
  | none => pure (some fdInherit)
  | some path => do
      let fd ← fdOpen path oRdonly
      if fd = fdInherit then pure none else pure (some fd)

/-- The descriptor of the output of a stage, or the text that reports a failure. -/
def openOutput (sh : ShellState) (toggle : Bool) (stage : PipelineStage) (last : Bool) :
    Sh (Except (List UInt8) ℕ) :=
  if last = false then do
    let fd ← fdOpen (tempPath toggle) (oWronly ||| oCreat ||| oTrunc)
    if fd = fdInherit then pure (.error (lit "pipe: failed to open temp stream"))
    else pure (.ok fd)
  else if stage.redirectMode ≠ 0 then
    match resolvePath sh.cwd stage.redirectPath pathMax with
    | none => pure (.error SyntaxError.invalidRedirectPath.text)
    | some absPath => do
        let fd ← fdOpen absPath (redirectFlags stage.redirectMode)
        if fd = fdInherit then pure (.error (lit "redirect: open failed")) else pure (.ok fd)
  else pure (.ok fdInherit)

def notFoundText : List UInt8 := lit "command not found (external ELF required): "

/-- What the loop does with the result of a stage; `none` goes on to the next. -/
def judge (stage : PipelineStage) (result : ExecResult) : Sh (Option ExecResult) :=
  if result.known = false then do
    writeln (notFoundText ++ stage.cmd)
    removeTemps
    pure (some ⟨false, false⟩)
  else if result.success = false then do
    removeTemps
    pure (some ⟨true, false⟩)
  else pure none

/-- The body of the loop of `execute_pipeline`. -/
def runStage (sh : ShellState) (input : Option (List UInt8)) (toggle : Bool)
    (stage : PipelineStage) (last : Bool) : Sh (Option ExecResult × ShellState) :=
  if last = false ∧ stage.redirectMode ≠ 0 then do
    writeln SyntaxError.misplacedRedirection.text
    pure (some ⟨true, false⟩, sh)
  else do
    let openedIn ← openInput input
    match openedIn with
    | none => do
        writeln (lit "pipe: failed to open stage input")
        pure (some ⟨true, false⟩, sh)
    | some openedIn => do
        let openedOut ← openOutput sh toggle stage last
        match openedOut with
        | .error text => do
            closeOpened openedIn
            writeln text
            pure (some ⟨true, false⟩, sh)
        | .ok openedOut => do
            let r ← execExternalWithFds sh stage.cmd stage.arg openedIn openedOut fdInherit
            closeOpened openedIn
            closeOpened openedOut
            let verdict ← judge stage r.1
            pure (verdict, r.2)

/-- The loop over the stages. -/
def runStages (sh : ShellState) (input : Option (List UInt8)) (toggle : Bool) :
    List PipelineStage → Sh (ExecResult × ShellState)
  | [] => do
      removeTemps
      pure (⟨true, true⟩, sh)
  | stage :: rest => do
      let r ← runStage sh input toggle stage rest.isEmpty
      match r.1 with
      | some result => pure (result, r.2)
      | none =>
        if rest.isEmpty = false then runStages r.2 (some (tempPath toggle)) (! toggle) rest
        else runStages r.2 input toggle rest

/-- `execute_pipeline`, with the shell state it leaves. -/
def executePipeline (sh : ShellState) (line : List UInt8) : Sh (ExecResult × ShellState) := do
  removeTemps
  match parsePipeline line with
  | .error e => do
      writeln e.text
      pure (⟨true, false⟩, sh)
  | .ok stages => runStages sh none false stages

end Cleonos.Shell
