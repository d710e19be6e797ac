import Cleonos.Shell.Pipeline

/-!
# Pipelines, all or nothing

What a run of `execute_pipeline` did to commands, files and descriptors is read off its calls and
their answers.
-/

namespace Cleonos.Shell

open List Option
open Path (resolvePath)
open Prog

/-! ## Events -/

/-- What a call did. -/
inductive Event
  /-- A command was run. -/
  | ran
  | opened (path : List UInt8) (fd : ℕ)
  | closed (fd : ℕ)
  | removed (path : List UInt8)
  | wrote (text : List UInt8)
  deriving DecidableEq

/-- What a call did, by its answer; an open that is refused did nothing. -/
def event : (c : Call) → Reply c → List Event
  | .execPathvIo _ _ _ _ _ _, _ => [.ran]
  | .fdOpen path _, (fd : ℕ) => if fd = fdInherit then [] else [.opened path fd]
  | .fdClose fd, _ => [.closed fd]
  | .remove path, _ => [.removed path]
  | .writeBytes text, _ => [.wrote text]
  | _, _ => []

/-- What the calls of a run after `h` did. -/
def events (env : ShellEnv) : List Call → List Call → List Event
  | _, [] => []
  | h, c :: t => event c (env h c) ++ events env (h ++ [c]) t

@[simp] theorem events_nil (env : ShellEnv) (h : List Call) : events env h [] = [] := rfl

@[simp] theorem events_append (env : ShellEnv) (h t u : List Call) :
    events env h (t ++ u) = events env h t ++ events env (h ++ t) u := by
  induction t generalizing h with
  | nil => simp
  | cons c t ih => simp [events, ih]

/-- The descriptors that are open after the events; none when one was closed that was
not open. -/
def descriptors : List ℕ → List Event → Option (List ℕ)
  | live, [] => some live
  | live, .opened _ fd :: es => descriptors (fd :: live) es
  | live, .closed fd :: es => if fd ∈ live then descriptors (live.erase fd) es else none
  | live, _ :: es => descriptors live es

/-- Whether a file is left behind: an open made it, or it was there, and no removal
followed. -/
def leftBehind (path : List UInt8) : Bool → List Event → Bool
  | b, [] => b
  | b, .opened p _ :: es => leftBehind path (b || decide (p = path)) es
  | b, .removed p :: es => leftBehind path (b && decide (p ≠ path)) es
  | b, _ :: es => leftBehind path b es

/-- The line was rejected for its syntax. -/
def Rejected (es : List Event) : Prop := ∃ e : SyntaxError, .wrote (e.text ++ lit "\n") ∈ es

/-- A rejected line runs no command and opens no file; no temporary file is left behind,
and every descriptor that was opened is closed once. -/
structure AllOrNothing (es : List Event) : Prop where
  rejected_nothing : Rejected es → .ran ∉ es ∧ ∀ path fd, .opened path fd ∉ es
  temp_a_removed : leftBehind pipeTmpA true es = false
  temp_b_removed : leftBehind pipeTmpB true es = false
  descriptors_closed : descriptors [] es = some []

/-- The loop of `execute_pipeline` before a stage, and the calls made so far. -/
structure LoopState where
  sh : ShellState
  input : Option (List UInt8)
  toggle : Bool
  stages : List PipelineStage
  calls : List Call

/-- The state before the next stage, when the stage was run and succeeded. -/
def LoopState.next (env : ShellEnv) (st : LoopState) : Option LoopState :=
  match st.stages with
  | [] => none
  | stage :: rest =>
    let r := (runStage st.sh st.input st.toggle stage rest.isEmpty).run env st.calls
    if r.1.1.isSome then none
    else if rest.isEmpty = false then
      some ⟨r.1.2, some (tempPath st.toggle), ! st.toggle, rest, st.calls ++ r.2⟩
    else some ⟨r.1.2, st.input, st.toggle, rest, st.calls ++ r.2⟩

/-- The open of the input, as a call. -/
def inputCall (input : Option (List UInt8)) : List Call :=
  (input.map fun path => Call.fdOpen path oRdonly).toList

/-- The input of a stage is refused. -/
def InputRefused (env : ShellEnv) (h : List Call) (input : Option (List UInt8)) : Prop :=
  ∃ path, input = some path ∧ env.fd h path oRdonly = fdInherit

/-- The temporary file of a stage is refused, or the path that the last stage redirects
to does not resolve or is refused. -/
def OutputRefused (env : ShellEnv) (h : List Call) (sh : ShellState) (toggle : Bool)
    (stage : PipelineStage) (last : Bool) : Prop :=
  (last = false ∧ env.fd h (tempPath toggle) (oWronly ||| oCreat ||| oTrunc) = fdInherit) ∨
  (last = true ∧ stage.redirectMode ≠ 0 ∧
    ∀ path, resolvePath sh.cwd stage.redirectPath pathMax = some path →
      env.fd h path (redirectFlags stage.redirectMode) = fdInherit)

/-- A stage is stopped before its command runs: it redirects and is not the last, or a
file it needs is refused. -/
def StageHindered (env : ShellEnv) (h : List Call) (sh : ShellState)
    (input : Option (List UInt8)) (toggle : Bool) (stage : PipelineStage) (last : Bool) : Prop :=
  (last = false ∧ stage.redirectMode ≠ 0) ∨ InputRefused env h input ∨
    OutputRefused env (h ++ inputCall input) sh toggle stage last

/-- The next stage is stopped before its command runs. -/
def Hindered (env : ShellEnv) (st : LoopState) : Prop :=
  ∃ stage rest, st.stages = stage :: rest ∧
    StageHindered env st.calls st.sh st.input st.toggle stage rest.isEmpty

/-- The states that the loop reaches from a state. -/
def LoopState.Reaches (env : ShellEnv) (st st' : LoopState) : Prop :=
  Reachable (· = st) (fun s s' => s.next env = some s') st'

/-- The loop before the first stage of a line. -/
def LoopState.first (h : List Call) (sh : ShellState) (stages : List PipelineStage) : LoopState :=
  ⟨sh, none, false, stages, h ++ [.remove pipeTmpA, .remove pipeTmpB]⟩

/-- No stage after the first is stopped before its command runs. -/
def Unhindered (env : ShellEnv) (h : List Call) (sh : ShellState) (line : List UInt8) : Prop :=
  ∀ stages, parsePipeline line = .ok stages → ∀ st,
    (LoopState.first h sh stages).Reaches env st → st.input.isSome → ¬ Hindered env st

@[simp] theorem descriptors_append (live : List ℕ) (es fs : List Event) :
    descriptors live (es ++ fs) = (descriptors live es).bind fun live => descriptors live fs := by
  induction es generalizing live with
  | nil => rfl
  | cons e es ih =>
    cases e with
    | closed fd =>
      by_cases hfd : fd ∈ live
      · simp only [cons_append, descriptors, if_pos hfd, ih]
      · simp only [cons_append, descriptors, if_neg hfd, bind_none]
    | ran => exact ih live
    | opened path fd => exact ih (fd :: live)
    | removed path => exact ih live
    | wrote text => exact ih live

@[simp] theorem leftBehind_append (path : List UInt8) (b : Bool) (es fs : List Event) :
    leftBehind path b (es ++ fs) = leftBehind path (leftBehind path b es) fs := by
  induction es generalizing b with
  | nil => rfl
  | cons e es ih =>
    cases e with
    | ran => exact ih b
    | opened p fd => exact ih _
    | closed fd => exact ih b
    | removed p => exact ih _
    | wrote text => exact ih b

@[simp] theorem rejected_append (es fs : List Event) :
    Rejected (es ++ fs) ↔ Rejected es ∨ Rejected fs := by
  simp only [Rejected, mem_append, exists_or]

theorem mem_events {env : ShellEnv} {h t : List Call} {e : Event} (he : e ∈ events env h t) :
    ∃ c ∈ t, ∃ r, e ∈ event c r := by
  induction t generalizing h with
  | nil => exact absurd he (by simp)
  | cons c t ih =>
    rcases mem_append.1 he with he | he
    · exact ⟨c, by simp, env h c, he⟩
    · obtain ⟨d, hd, r, hr⟩ := ih he
      exact ⟨d, by simp [hd], r, hr⟩

/-- A text that reports no syntax error. -/
def NoSyntaxText (text : List UInt8) : Prop := ∀ e : SyntaxError, text ≠ e.text ++ lit "\n"

/-- Events that leave descriptors and temporary files alone. -/
def Quiet (es : List Event) : Prop :=
  ∀ e ∈ es, e = .ran ∨ (∃ text, e = .wrote text ∧ NoSyntaxText text) ∨
    ∃ path, e = .removed path ∧ path ≠ pipeTmpA ∧ path ≠ pipeTmpB

namespace Quiet

open List Option

variable {es : List Event}

theorem descriptors_eq (hq : Quiet es) (live : List ℕ) : descriptors live es = some live := by
  induction es generalizing live with
  | nil => rfl
  | cons e es ih =>
    have ih := ih (fun e he => hq e (by simp [he])) live
    rcases hq e (by simp) with rfl | ⟨text, rfl, -⟩ | ⟨path, rfl, -⟩
    · exact ih
    · exact ih
    · exact ih

theorem leftBehind_eq (hq : Quiet es) {path : List UInt8} (hp : path = pipeTmpA ∨ path = pipeTmpB)
    (b : Bool) : leftBehind path b es = b := by
  induction es generalizing b with
  | nil => rfl
  | cons e es ih =>
    have ih := ih (fun e he => hq e (by simp [he]))
    rcases hq e (by simp) with rfl | ⟨text, rfl, -⟩ | ⟨p, rfl, ha, hb⟩
    · exact ih b
    · exact ih b
    · have hne : p ≠ path := by
        rcases hp with rfl | rfl
        · exact ha
        · exact hb
      rw [leftBehind, ih]
      simp [hne]

theorem not_rejected (hq : Quiet es) : ¬ Rejected es := by
  rintro ⟨e, he⟩
  rcases hq _ he with h | ⟨text, h, hno⟩ | ⟨path, h, -⟩
  · exact absurd h (by simp)
  · exact hno e (Event.wrote.inj h).symm
  · exact absurd h (by simp)

end Quiet

theorem noSyntaxText_of_head {text : List UInt8} {c : UInt8} (hc : text.head? = some c)
    (hp : c ≠ 112) (hr : c ≠ 114) : NoSyntaxText text := by
  rintro e rfl
  have hhead : (e.text ++ lit "\n").head? = some 112 ∨ (e.text ++ lit "\n").head? = some 114 := by
    cases e <;> decide
  rcases hhead with h | h
  · exact hp (Option.some.inj (hc.symm.trans h))
  · exact hr (Option.some.inj (hc.symm.trans h))

variable {env : ShellEnv} {h : List Call}

theorem quiet_of_housekeeping {c : Call} {r : Reply c} (hc : Housekeeping c) : Quiet (event c r) := by
  intro e he
  cases c with
  | remove path =>
    obtain rfl : e = .removed path := by simpa [event] using he
    refine .inr (.inr ⟨path, rfl, ?_⟩)
    rcases hc with rfl | rfl <;> decide
  | writeBytes text =>
    obtain rfl : e = .wrote text := by simpa [event] using he
    refine .inr (.inl ⟨text, rfl, ?_⟩)
    obtain ⟨rest, rfl⟩ := hc
    exact noSyntaxText_of_head (c := 101) rfl (by decide) (by decide)
  | execPathvIo => exact absurd hc id
  | fdOpen => exact absurd hc id
  | fdClose => exact absurd hc id
  | statType | writeCtx | readRet | userCurrent | login | writelnI18n => exact absurd he (by simp [event])

theorem holds_execExternalWithFds (sh : ShellState) (cmd arg : List UInt8)
    (stdin stdout stderr : ℕ) :
    Holds env h (execExternalWithFds sh cmd arg stdin stdout stderr) fun _ t =>
      Quiet (events env h t) := by
  have hemits : (execExternalWithFds sh cmd arg stdin stdout stderr).Emits fun c =>
      Housekeeping c ∨ (∃ text, c = .writelnI18n text) ∨
        ∃ path arg vars, c = .execPathvIo path arg vars stdin stdout stderr := by
    rw [execExternalWithFds]
    refine Prog.Emits.bind ((emits_resolveExecPath _ _).mono ?_) fun path => ?_
    · rintro c ⟨p, rfl⟩
      exact .inl trivial
    cases path with
    | none => exact emits_pure _
    | some path =>
      refine emits_ite (fun _ => ?_) fun _ => ?_
      · exact Prog.Emits.bind (emits_ask (.inr (.inl ⟨_, rfl⟩))) fun _ => emits_pure _
      · refine (emits_launch _ _ _ _ _ _ _).mono ?_
        rintro c (hc | ⟨vars, rfl⟩)
        · exact .inl hc
        · exact .inr (.inr ⟨_, _, _, rfl⟩)
  intro e he
  obtain ⟨c, hc, r, her⟩ := mem_events he
  rcases hemits.run env h c hc with hk | ⟨text, rfl⟩ | ⟨path, arg', vars, rfl⟩
  · exact quiet_of_housekeeping hk e her
  · exact absurd her (by simp [event])
  · exact .inl (by simpa [event] using her)

/-- At most one file is opened, under this descriptor. -/
def OpensOne (fd : ℕ) (es : List Event) : Prop :=
  (fd = fdInherit ∧ es = []) ∨ fd ≠ fdInherit ∧ ∃ path, es = [.opened path fd]

/-- The close of a descriptor that was opened. -/
def closeEvents (fd : ℕ) : List Event := if fd = fdInherit then [] else [.closed fd]

variable {fd : ℕ} {st : LoopState}

theorem OpensOne.leftBehind_true {es : List Event} (ho : OpensOne fd es)
    (path : List UInt8) : leftBehind path true es = true := by
  rcases ho with ⟨-, rfl⟩ | ⟨-, p, rfl⟩
  · rfl
  · simp [leftBehind]

@[simp] theorem leftBehind_closeEvents (path : List UInt8) (b : Bool) (fd : ℕ) :
    leftBehind path b (closeEvents fd) = b := by
  unfold closeEvents
  split_ifs <;> rfl

theorem descriptors_around {fdIn fdOut : ℕ} {esIn esOut q : List Event} (hin : OpensOne fdIn esIn)
    (hout : OpensOne fdOut esOut) (hq : Quiet q) (live : List ℕ) :
    descriptors live (esIn ++ (esOut ++ (q ++ (closeEvents fdIn ++ closeEvents fdOut)))) =
      some live := by
  simp only [descriptors_append, hq.descriptors_eq, bind_some]
  rcases hin with ⟨hfi, rfl⟩ | ⟨hfi, pi, rfl⟩ <;> rcases hout with ⟨hfo, rfl⟩ | ⟨hfo, po, rfl⟩
  · simp [closeEvents, hfi, hfo, descriptors]
  · simp [closeEvents, hfi, hfo, descriptors]
  · simp [closeEvents, hfi, hfo, descriptors]
  · by_cases heq : fdOut = fdIn
    · simp [closeEvents, hfi, descriptors, heq]
    · simp [closeEvents, hfi, hfo, descriptors, heq, Ne.symm heq]

theorem holds_closeOpened (fd : ℕ) :
    Holds env h (closeOpened fd) fun _ t => events env h t = closeEvents fd := by
  rw [closeOpened, closeEvents]
  by_cases hfd : fd = fdInherit
  · rw [if_pos hfd, if_pos hfd]
    rfl
  · rw [if_neg hfd, if_neg hfd]
    rfl

theorem holds_writeln (text : List UInt8) :
    Holds env h (writeln text) fun _ t => events env h t = [.wrote (text ++ lit "\n")] := rfl

theorem holds_removeTemps :
    Holds env h removeTemps fun _ t => t = [.remove pipeTmpA, .remove pipeTmpB] := rfl

theorem events_removeTemps :
    events env h [.remove pipeTmpA, .remove pipeTmpB] = [.removed pipeTmpA, .removed pipeTmpB] := by
  simp only [events, event, append_nil, cons_append, nil_append]

theorem holds_openInput (input : Option (List UInt8)) :
    Holds env h (openInput input) fun r t => t = inputCall input ∧
      (r = none → InputRefused env h input ∧ events env h t = []) ∧
      ∀ fd, r = some fd → ¬ InputRefused env h input ∧ OpensOne fd (events env h t) ∧
        (input = none → fd = fdInherit) := by
  cases input with
  | none =>
    refine holds_pure ⟨rfl, by simp, ?_⟩
    rintro fd ⟨⟩
    exact ⟨by simp [InputRefused], .inl ⟨rfl, rfl⟩, fun _ => rfl⟩
  | some path =>
    have hrun : (openInput (some path)).run env h =
        (if env.fd h path oRdonly = fdInherit then none else some (env.fd h path oRdonly),
          [.fdOpen path oRdonly]) := by
      rw [openInput, run_bind, run_fdOpen]
      by_cases hfd : env.fd h path oRdonly = fdInherit
      · rw [if_pos hfd, if_pos hfd]; rfl
      · rw [if_neg hfd, if_neg hfd]; rfl
    have hevents : events env h [.fdOpen path oRdonly] =
        if env.fd h path oRdonly = fdInherit then [] else
          [.opened path (env.fd h path oRdonly)] := append_nil _
    rw [Holds, hrun]
    by_cases hfd : env.fd h path oRdonly = fdInherit
    · simp only [hevents, if_pos hfd]
      exact ⟨rfl, fun _ => ⟨⟨path, rfl, hfd⟩, trivial⟩, by simp⟩
    · simp only [hevents, if_neg hfd]
      refine ⟨rfl, by simp, ?_⟩
      rintro fd ⟨⟩
      refine ⟨?_, .inr ⟨hfd, path, rfl⟩, by simp⟩
      rintro ⟨p, hp, hrefused⟩
      exact hfd (Option.some.inj hp ▸ hrefused)

theorem holds_openAs {path : List UInt8} {flags : ℕ} {text : List UInt8} :
    Holds env h (do
        let fd ← fdOpen path flags
        if fd = fdInherit then pure (Except.error text) else pure (Except.ok fd)) fun r t =>
      (∀ e, r = .error e → env.fd h path flags = fdInherit ∧ events env h t = []) ∧
      ∀ fd, r = .ok fd → env.fd h path flags ≠ fdInherit ∧ fd ≠ fdInherit ∧
        events env h t = [.opened path fd] := by
  have hevents : events env h [.fdOpen path flags] =
      if env.fd h path flags = fdInherit then [] else [.opened path (env.fd h path flags)] :=
    append_nil _
  rw [Holds, run_bind, run_fdOpen]
  by_cases hfd : env.fd h path flags = fdInherit
  · rw [if_pos hfd, run_pure, append_nil, hevents, if_pos hfd]
    exact ⟨fun _ _ => ⟨hfd, rfl⟩, by simp⟩
  · rw [if_neg hfd, run_pure, append_nil, hevents, if_neg hfd]
    refine ⟨by simp, ?_⟩
    rintro fd ⟨⟩
    exact ⟨hfd, hfd, rfl⟩

theorem holds_openOutput (sh : ShellState) (toggle : Bool) (stage : PipelineStage) (last : Bool) :
    Holds env h (openOutput sh toggle stage last) fun r t =>
      (∀ text, r = .error text → OutputRefused env h sh toggle stage last ∧ events env h t = []) ∧
      ∀ fd, r = .ok fd → ¬ OutputRefused env h sh toggle stage last ∧ OpensOne fd (events env h t) ∧
        (last = false → events env h t = [.opened (tempPath toggle) fd]) := by
  rw [openOutput]
  cases last with
  | false =>
    rw [if_pos rfl]
    refine holds_openAs.mono fun r t ⟨herror, hok⟩ => ⟨fun e he => ?_, fun fd hr => ?_⟩
    · obtain ⟨hfd, hes⟩ := herror e he
      exact ⟨.inl ⟨rfl, hfd⟩, hes⟩
    · obtain ⟨hgranted, hfd, hes⟩ := hok fd hr
      refine ⟨?_, .inr ⟨hfd, _, hes⟩, fun _ => hes⟩
      simp [OutputRefused, hgranted]
  | true =>
    rw [if_neg (by simp)]
    by_cases hmode : stage.redirectMode ≠ 0
    · rw [if_pos hmode]
      cases hpath : resolvePath sh.cwd stage.redirectPath pathMax with
      | none =>
        refine holds_pure ⟨fun text _ => ⟨.inr ⟨rfl, hmode, ?_⟩, rfl⟩, by simp⟩
        rw [hpath]
        simp
      | some path =>
        refine holds_openAs.mono fun r t ⟨herror, hok⟩ => ⟨fun e he => ?_, fun fd hr => ?_⟩
        · obtain ⟨hfd, hes⟩ := herror e he
          refine ⟨.inr ⟨rfl, hmode, fun p hp => ?_⟩, hes⟩
          obtain rfl : path = p := Option.some.inj (hpath.symm.trans hp)
          exact hfd
        · obtain ⟨hgranted, hfd, hes⟩ := hok fd hr
          refine ⟨?_, .inr ⟨hfd, _, hes⟩, by simp⟩
          rintro (⟨hlast, -⟩ | ⟨-, -, hrefused⟩)
          · exact absurd hlast (by simp)
          · exact hgranted (hrefused path hpath)
    · rw [if_neg hmode]
      refine holds_pure ⟨by simp, ?_⟩
      rintro fd ⟨⟩
      exact ⟨by simp [OutputRefused, not_not.1 hmode], .inl ⟨rfl, rfl⟩, by simp⟩

theorem noSyntaxText_notFound (cmd : List UInt8) :
    NoSyntaxText (notFoundText ++ cmd ++ lit "\n") := by
  have hhead : notFoundText.head? = some 99 := by decide
  refine noSyntaxText_of_head (c := 99) ?_ (by decide) (by decide)
  rw [append_assoc, List.head?_append, hhead, some_or]

theorem holds_judge (stage : PipelineStage) (result : ExecResult) :
    Holds env h (judge stage result) fun r t =>
      (r = none → events env h t = []) ∧
      (r.isSome → ∃ q, Quiet q ∧ events env h t = q ++ [.removed pipeTmpA, .removed pipeTmpB]) := by
  rw [judge]
  by_cases hknown : result.known = false
  · rw [if_pos hknown]
    refine (holds_writeln (notFoundText ++ stage.cmd)).bind fun _ t ht => ?_
    refine holds_removeTemps.bind fun _ u hu => holds_pure ⟨by simp, fun _ => ?_⟩
    refine ⟨[.wrote (notFoundText ++ stage.cmd ++ lit "\n")], ?_, ?_⟩
    · intro e he
      obtain rfl := mem_singleton.1 he
      exact .inr (.inl ⟨_, rfl, noSyntaxText_notFound stage.cmd⟩)
    · rw [append_nil, events_append, ht, hu, events_removeTemps]
  · rw [if_neg hknown]
    by_cases hsuccess : result.success = false
    · rw [if_pos hsuccess]
      refine holds_removeTemps.bind fun _ t ht => holds_pure ⟨by simp, fun _ => ?_⟩
      refine ⟨[], by simp [Quiet], ?_⟩
      rw [append_nil, ht, events_removeTemps, nil_append]
    · rw [if_neg hsuccess]
      exact holds_pure ⟨fun _ => rfl, by simp⟩

/-! ## A stage -/

/-- What the events of a stage amount to, by whether it was stopped. -/
structure StagePost (env : ShellEnv) (h : List Call) (sh : ShellState)
    (input : Option (List UInt8)) (toggle : Bool) (stage : PipelineStage) (last : Bool)
    (r : Option ExecResult) (es : List Event) : Prop where
  balanced : ∀ live, descriptors live es = some live
  hindered : StageHindered env h sh input toggle stage last →
    r.isSome ∧ leftBehind pipeTmpA true es = true ∧
      (input = none → ∀ e ∈ es, ∃ text, e = .wrote text)
  unhindered : ¬ StageHindered env h sh input toggle stage last → ¬ Rejected es
  returned : ¬ StageHindered env h sh input toggle stage last → r.isSome → ∀ b,
    leftBehind pipeTmpA b es = false ∧ leftBehind pipeTmpB b es = false
  went_on : r = none → leftBehind pipeTmpA true es = true ∧
    (last = false → ∀ b, leftBehind (tempPath toggle) b es = true)

theorem leftBehind_removeTemps (b : Bool) :
    leftBehind pipeTmpA b [.removed pipeTmpA, .removed pipeTmpB] = false ∧
      leftBehind pipeTmpB b [.removed pipeTmpA, .removed pipeTmpB] = false := by
  simp [leftBehind]

theorem descriptors_removeTemps (live : List ℕ) :
    descriptors live [.removed pipeTmpA, .removed pipeTmpB] = some live := rfl

theorem not_rejected_removeTemps : ¬ Rejected [.removed pipeTmpA, .removed pipeTmpB] := by
  simp [Rejected]

theorem OpensOne.not_rejected {es : List Event} (ho : OpensOne fd es) : ¬ Rejected es := by
  rcases ho with ⟨-, rfl⟩ | ⟨-, p, rfl⟩ <;> simp [Rejected]

theorem not_rejected_closeEvents (fd : ℕ) : ¬ Rejected (closeEvents fd) := by
  unfold closeEvents
  split_ifs <;> simp [Rejected]

theorem StagePost.stopped {sh : ShellState} {input : Option (List UInt8)} {toggle : Bool}
    {stage : PipelineStage} {last : Bool} {result : ExecResult} {es : List Event}
    {text : List UInt8} (hh : StageHindered env h sh input toggle stage last)
    (ho : OpensOne fd es) (hnone : input = none → fd = fdInherit) :
    StagePost env h sh input toggle stage last (some result)
      (es ++ (closeEvents fd ++ [.wrote text])) where
  balanced live := by
    rcases ho with ⟨hfd, rfl⟩ | ⟨hfd, p, rfl⟩
    · simp [closeEvents, hfd, descriptors]
    · simp [closeEvents, hfd, descriptors]
  hindered _ := by
    refine ⟨rfl, ?_, fun hin => ?_⟩
    · simp [ho.leftBehind_true, leftBehind]
    · have hfd := hnone hin
      rcases ho with ⟨-, rfl⟩ | ⟨hne, -⟩
      · simp [closeEvents, hfd]
      · exact absurd hfd hne
  unhindered hno := absurd hh hno
  returned hno := absurd hh hno
  went_on hr := absurd hr (by simp)

theorem StagePost.ran {sh : ShellState} {input : Option (List UInt8)} {toggle : Bool}
    {stage : PipelineStage} {last : Bool} {verdict : Option ExecResult} {fdIn fdOut : ℕ}
    {esIn esOut q ys : List Event} (hfree : ¬ StageHindered env h sh input toggle stage last)
    (hin : OpensOne fdIn esIn) (hout : OpensOne fdOut esOut)
    (htemp : last = false → esOut = [.opened (tempPath toggle) fdOut]) (hquiet : Quiet q)
    (hgo : verdict = none → ys = [])
    (hstop : verdict.isSome →
      ∃ q, Quiet q ∧ ys = q ++ [.removed pipeTmpA, .removed pipeTmpB]) :
    StagePost env h sh input toggle stage last verdict
      (esIn ++ (esOut ++ (q ++ (closeEvents fdIn ++ (closeEvents fdOut ++ ys))))) := by
  have hsplit : esIn ++ (esOut ++ (q ++ (closeEvents fdIn ++ (closeEvents fdOut ++ ys)))) =
      esIn ++ (esOut ++ (q ++ (closeEvents fdIn ++ closeEvents fdOut))) ++ ys := by
    simp only [append_assoc]
  have hys : (∀ live, descriptors live ys = some live) ∧ ¬ Rejected ys := by
    cases verdict with
    | none =>
      rw [hgo rfl]
      exact ⟨fun _ => rfl, by simp [Rejected]⟩
    | some result =>
      obtain ⟨q', hq', rfl⟩ := hstop rfl
      refine ⟨fun live => ?_, ?_⟩
      · rw [descriptors_append, hq'.descriptors_eq, bind_some, descriptors_removeTemps]
      · rw [rejected_append]
        exact not_or.2 ⟨hq'.not_rejected, not_rejected_removeTemps⟩
  rw [hsplit]
  refine ⟨fun live => ?_, fun hh => absurd hh hfree, fun _ => ?_, fun _ hsome b => ?_, fun hnone => ?_⟩
  · rw [descriptors_append, descriptors_around hin hout hquiet, bind_some, hys.1]
  · simp only [rejected_append]
    rintro ((h | h | h | h | h) | h)
    · exact hin.not_rejected h
    · exact hout.not_rejected h
    · exact hquiet.not_rejected h
    · exact not_rejected_closeEvents _ h
    · exact not_rejected_closeEvents _ h
    · exact hys.2 h
  · obtain ⟨q', -, rfl⟩ := hstop hsome
    rw [← append_assoc, leftBehind_append, leftBehind_append pipeTmpB]
    exact ⟨(leftBehind_removeTemps _).1, (leftBehind_removeTemps _).2⟩
  · rw [hgo hnone, append_nil]
    have hquietA : ∀ b, leftBehind pipeTmpA b q = b := hquiet.leftBehind_eq (.inl rfl)
    refine ⟨?_, fun hlast b => ?_⟩
    · simp only [leftBehind_append, hin.leftBehind_true, hout.leftBehind_true, hquietA,
        leftBehind_closeEvents]
    · have hquietT : ∀ b, leftBehind (tempPath toggle) b q = b := by
        cases toggle with
        | false => exact hquietA
        | true => exact hquiet.leftBehind_eq (.inr rfl)
      simp [leftBehind_append, htemp hlast, leftBehind, hquietT]

theorem holds_runStage (sh : ShellState) (input : Option (List UInt8)) (toggle : Bool)
    (stage : PipelineStage) (last : Bool) :
    Holds env h (runStage sh input toggle stage last) fun r t =>
      StagePost env h sh input toggle stage last r.1 (events env h t) := by
  rw [runStage]
  by_cases hmis : last = false ∧ stage.redirectMode ≠ 0
  · rw [if_pos hmis]
    refine (holds_writeln _).bind fun _ t ht => holds_pure ?_
    rw [append_nil, ht]
    have hopens : OpensOne fdInherit [] := .inl ⟨rfl, rfl⟩
    exact StagePost.stopped (.inl hmis) hopens fun _ => rfl
  rw [if_neg hmis]
  refine (holds_openInput input).bind fun openedIn t ⟨htin, hinNone, hinSome⟩ => ?_
  cases openedIn with
  | none =>
    obtain ⟨hrefused, hes⟩ := hinNone rfl
    refine (holds_writeln _).bind fun _ u hu => holds_pure ?_
    rw [append_nil, events_append, hes, hu]
    have hopens : OpensOne fdInherit [] := .inl ⟨rfl, rfl⟩
    exact StagePost.stopped (.inr (.inl hrefused)) hopens fun _ => rfl
  | some fdIn =>
    obtain ⟨hinOk, hin, hinherit⟩ := hinSome fdIn rfl
    refine (holds_openOutput sh toggle stage last).bind fun openedOut u ⟨houtError, houtOk⟩ => ?_
    rw [htin] at hin houtError houtOk ⊢
    cases openedOut with
    | error text =>
      obtain ⟨hrefused, hes⟩ := houtError text rfl
      refine (holds_closeOpened fdIn).bind fun _ v hv => ?_
      refine (holds_writeln text).bind fun _ w hw => holds_pure ?_
      simp only [events_append, append_nil, hes, nil_append, hv, hw]
      exact StagePost.stopped (.inr (.inr hrefused)) hin hinherit
    | ok fdOut =>
      obtain ⟨houtOk, hout, htemp⟩ := houtOk fdOut rfl
      refine (holds_execExternalWithFds sh stage.cmd stage.arg fdIn fdOut fdInherit).bind
        fun r v hquiet => ?_
      refine (holds_closeOpened fdIn).bind fun _ w hw => ?_
      refine (holds_closeOpened fdOut).bind fun _ x hx => ?_
      refine (holds_judge stage r.1).bind fun verdict y ⟨hgo, hstop⟩ => holds_pure ?_
      have hfree : ¬ StageHindered env h sh input toggle stage last := by
        rintro (hh | hh | hh)
        · exact hmis hh
        · exact hinOk hh
        · exact houtOk hh
      simp only [events_append, append_nil, hw, hx]
      exact StagePost.ran hfree hin hout htemp hquiet hgo hstop

/-- The calls of the loop from a state on. -/
def LoopState.trace (env : ShellEnv) (st : LoopState) : List Call :=
  ((runStages st.sh st.input st.toggle st.stages).run env st.calls).2

theorem trace_cons (st : LoopState) {stage : PipelineStage} {rest : List PipelineStage}
    (hst : st.stages = stage :: rest) :
    let r := (runStage st.sh st.input st.toggle stage rest.isEmpty).run env st.calls
    (r.1.1.isSome ∧ st.next env = none ∧ st.trace env = r.2) ∨
      r.1.1 = none ∧ ∃ st', st.next env = some st' ∧ st'.stages = rest ∧
        st'.calls = st.calls ++ r.2 ∧ (rest ≠ [] → st'.input.isSome) ∧
        st.trace env = r.2 ++ st'.trace env := by
  intro r
  have hnext : st.next env = if r.1.1.isSome then none
      else if rest.isEmpty = false then
        some ⟨r.1.2, some (tempPath st.toggle), ! st.toggle, rest, st.calls ++ r.2⟩
      else some ⟨r.1.2, st.input, st.toggle, rest, st.calls ++ r.2⟩ := by
    rw [LoopState.next, hst]
  have htrace : st.trace env = r.2 ++ ((r.1.1.elim
      (if rest.isEmpty = false then runStages r.1.2 (some (tempPath st.toggle)) (! st.toggle) rest
        else runStages r.1.2 st.input st.toggle rest)
      fun result => pure (result, r.1.2) : Sh (ExecResult × ShellState)).run env
          (st.calls ++ r.2)).2 := by
    rw [LoopState.trace, hst, runStages, run_bind]
    simp only [r]
    cases (run env (runStage st.sh st.input st.toggle stage rest.isEmpty) st.calls).1.1 <;> rfl
  rw [hnext, htrace]
  cases hverdict : r.1.1 with
  | some result => exact .inl (by simp)
  | none =>
    right
    by_cases hrest : rest.isEmpty = false
    · simp only [isSome_none, elim_none, Bool.false_eq_true, if_false, if_pos hrest]
      exact ⟨trivial, _, rfl, rfl, rfl, fun _ => rfl, rfl⟩
    · simp only [isSome_none, elim_none, Bool.false_eq_true, if_false, if_neg hrest]
      refine ⟨trivial, _, rfl, rfl, rfl, fun hne => ?_, rfl⟩
      exact absurd hne (by simpa using hrest)

theorem trace_nil (hst : st.stages = []) : st.trace env = [.remove pipeTmpA, .remove pipeTmpB] := by
  rw [LoopState.trace, hst]
  rfl

/-- What the events of the loop amount to when no stage is stopped. -/
structure LoopPost (es : List Event) : Prop where
  accepted : ¬ Rejected es
  temps_removed : ∀ b, leftBehind pipeTmpA b es = false ∧ leftBehind pipeTmpB b es = false
  balanced : ∀ live, descriptors live es = some live

theorem LoopPost.behind {es es' : List Event} (hloop : LoopPost es')
    (hbal : ∀ live, descriptors live es = some live) (hacc : ¬ Rejected es) :
    LoopPost (es ++ es') where
  accepted := by
    rw [rejected_append]
    exact not_or.2 ⟨hacc, hloop.accepted⟩
  temps_removed b := by
    rw [leftBehind_append, leftBehind_append]
    exact ⟨(hloop.temps_removed _).1, (hloop.temps_removed _).2⟩
  balanced live := by
    rw [descriptors_append, hbal, bind_some, hloop.balanced]

theorem loop_unhindered (st : LoopState) (hfree : ∀ st', st.Reaches env st' → ¬ Hindered env st') :
    LoopPost (events env st.calls (st.trace env)) := by
  induction hn : st.stages generalizing st with
  | nil =>
    rw [trace_nil hn, events_removeTemps]
    exact ⟨not_rejected_removeTemps, leftBehind_removeTemps, descriptors_removeTemps⟩
  | cons stage rest ih =>
    have hpost := @holds_runStage env st.calls st.sh st.input st.toggle stage
      rest.isEmpty
    have hself : ¬ StageHindered env st.calls st.sh st.input st.toggle stage rest.isEmpty :=
      fun hh => hfree st (.start rfl) ⟨stage, rest, hn, hh⟩
    rcases @trace_cons env st stage rest hn with
      ⟨hsome, -, htrace⟩ | ⟨-, st', hnext, hrest, hcalls, -, htrace⟩
    · rw [htrace]
      exact ⟨hpost.unhindered hself, hpost.returned hself hsome, hpost.balanced⟩
    · have hloop := ih st' (fun s hs => hfree s (Reachable.from_iff.2 (.inr ⟨st', hnext, hs⟩))) hrest
      rw [hcalls] at hloop
      rw [htrace, events_append]
      exact hloop.behind hpost.balanced (hpost.unhindered hself)

theorem loop_hindered (st : LoopState) (hstop : ∃ st', st.Reaches env st' ∧ Hindered env st') :
    leftBehind pipeTmpA true (events env st.calls (st.trace env)) = true := by
  induction hn : st.stages generalizing st with
  | nil =>
    obtain ⟨st', hreach, stage, rest, hst', -⟩ := hstop
    rcases Reachable.from_iff.1 hreach with rfl | ⟨s, hs, -⟩
    · exact absurd (hn.symm.trans hst') (by simp)
    · exact absurd hs (by simp [LoopState.next, hn])
  | cons stage rest ih =>
    have hpost := @holds_runStage env st.calls st.sh st.input st.toggle stage
      rest.isEmpty
    rcases @trace_cons env st stage rest hn with
      ⟨hsome, hnext, htrace⟩ | ⟨hnone, st', hnext, hrest, hcalls, -, htrace⟩
    · -- the loop ends here, so it is this stage that is stopped
      obtain ⟨st', hreach, stage', rest', hst', hh⟩ := hstop
      rcases Reachable.from_iff.1 hreach with rfl | ⟨s, hs, -⟩
      · obtain ⟨rfl, rfl⟩ := List.cons.inj (hn.symm.trans hst')
        rw [htrace]
        exact (hpost.hindered hh).2.1
      · rw [hnext] at hs
        exact absurd hs (by simp)
    · rw [htrace, events_append, leftBehind_append, (hpost.went_on hnone).1, ← hcalls]
      refine ih st' ?_ hrest
      obtain ⟨s, hreach, hh⟩ := hstop
      rcases Reachable.from_iff.1 hreach with rfl | ⟨s', hs', hreach'⟩
      · obtain ⟨stage', rest', hst', hh⟩ := hh
        obtain ⟨rfl, rfl⟩ := List.cons.inj (hn.symm.trans hst')
        exact absurd hnone (isSome_iff_ne_none.1 (hpost.hindered hh).1)
      · obtain rfl : st' = s' := Option.some.inj (hnext.symm.trans hs')
        exact ⟨s, hreach', hh⟩

theorem trace_executePipeline (sh : ShellState) (line : List UInt8) :
    ((executePipeline sh line).run env h).2 = [.remove pipeTmpA, .remove pipeTmpB] ++
      match parsePipeline line with
      | .error e => [.writeBytes (e.text ++ lit "\n")]
      | .ok stages => (LoopState.first h sh stages).trace env := by
  rw [executePipeline, run_bind]
  cases parsePipeline line with
  | error e => rfl
  | ok stages => rfl

theorem allOrNothing_iff (es : List Event) :
    AllOrNothing ([.removed pipeTmpA, .removed pipeTmpB] ++ es) ↔
      (Rejected es → .ran ∉ es ∧ ∀ path fd, .opened path fd ∉ es) ∧
        leftBehind pipeTmpA false es = false ∧ leftBehind pipeTmpB false es = false ∧
          descriptors [] es = some [] := by
  have hmem : ∀ e, (∀ path, e ≠ Event.removed path) →
      (e ∈ [.removed pipeTmpA, .removed pipeTmpB] ++ es ↔ e ∈ es) := by
    intro e he
    simp [he]
  have hl := leftBehind_removeTemps true
  have hrej : Rejected ([.removed pipeTmpA, .removed pipeTmpB] ++ es) ↔ Rejected es := by
    rw [rejected_append, or_iff_right not_rejected_removeTemps]
  have ha : leftBehind pipeTmpA true ([.removed pipeTmpA, .removed pipeTmpB] ++ es) =
      leftBehind pipeTmpA false es := by rw [leftBehind_append, hl.1]
  have hb : leftBehind pipeTmpB true ([.removed pipeTmpA, .removed pipeTmpB] ++ es) =
      leftBehind pipeTmpB false es := by rw [leftBehind_append, hl.2]
  constructor
  · rintro ⟨h1, h2, h3, h4⟩
    rw [hrej, hmem _ (by simp)] at h1
    simp only [hmem (.opened _ _) (by simp)] at h1
    exact ⟨h1, ha ▸ h2, hb ▸ h3, h4⟩
  · rintro ⟨h1, h2, h3, h4⟩
    refine ⟨?_, ha ▸ h2, hb ▸ h3, h4⟩
    rw [hrej, hmem _ (by simp)]
    simp only [hmem (.opened _ _) (by simp)]
    exact h1

theorem reaches_input {st' : LoopState} (hst : st.stages ≠ [] → st.input.isSome)
    (hreach : st.Reaches env st') : st'.stages ≠ [] → st'.input.isSome := by
  refine Reachable.invariant (I := fun s : LoopState => s.stages ≠ [] → s.input.isSome) ?_ ?_ hreach
  · rintro s rfl
    exact hst
  · intro s s' _ hnext
    cases hs : s.stages with
    | nil => simp [LoopState.next, hs] at hnext
    | cons stage rest =>
      rcases @trace_cons env s stage rest hs with ⟨-, hnone, -⟩ | ⟨-, s'', hsome, hrest, -, hin, -⟩
      · rw [hnone] at hnext
        exact absurd hnext (by simp)
      · obtain rfl : s'' = s' := Option.some.inj (hsome.symm.trans hnext)
        rwa [hrest]

theorem no_stage_reached {st' : LoopState} (hst : st.stages = []) (hreach : st.Reaches env st') :
    ¬ Hindered env st' := by
  rcases Reachable.from_iff.1 hreach with rfl | ⟨s, hs, -⟩
  · rintro ⟨stage, rest, hst', -⟩
    exact absurd (hst.symm.trans hst') (by simp)
  · exact absurd hs (by simp [LoopState.next, hst])

theorem leftBehind_of_wrote {es : List Event} (hes : ∀ e ∈ es, ∃ text, e = .wrote text)
    (path : List UInt8) (b : Bool) : leftBehind path b es = b := by
  induction es with
  | nil => rfl
  | cons e es ih =>
    obtain ⟨text, rfl⟩ := hes e (by simp)
    exact ih fun e he => hes e (by simp [he])

theorem loop_first_iff (h : List Call) (sh : ShellState) (stages : List PipelineStage) :
    let st := LoopState.first h sh stages
    let es := events env st.calls (st.trace env)
    ((Rejected es → .ran ∉ es ∧ ∀ path fd, .opened path fd ∉ es) ∧
        leftBehind pipeTmpA false es = false ∧ leftBehind pipeTmpB false es = false ∧
          descriptors [] es = some []) ↔
      ∀ st', st.Reaches env st' → st'.input.isSome → ¬ Hindered env st' := by
  intro st es
  have hpost_of : LoopPost es → (Rejected es → .ran ∉ es ∧ ∀ path fd, .opened path fd ∉ es) ∧
      leftBehind pipeTmpA false es = false ∧ leftBehind pipeTmpB false es = false ∧
        descriptors [] es = some [] := fun hp =>
    ⟨fun hr => absurd hr hp.accepted, (hp.temps_removed _).1, (hp.temps_removed _).2, hp.balanced _⟩
  cases hn : stages with
  | nil =>
    exact iff_of_true (hpost_of (loop_unhindered st fun _ hreach => no_stage_reached hn hreach))
      fun _ hreach _ => no_stage_reached hn hreach
  | cons stage rest =>
    have hst : st.stages = stage :: rest := hn
    have hpost := @holds_runStage env st.calls st.sh st.input st.toggle stage
      rest.isEmpty
    rcases @trace_cons env st stage rest hst with
      ⟨hsome, hnext, htrace⟩ | ⟨hnone, st', hnext, hrest, hcalls, hin, htrace⟩
    · have hcond : ∀ st', st.Reaches env st' → st'.input.isSome → ¬ Hindered env st' := by
        intro st' hreach hin
        rcases Reachable.from_iff.1 hreach with rfl | ⟨s, hs, -⟩
        · exact absurd hin (by simp [st, LoopState.first])
        · rw [hnext] at hs
          exact absurd hs (by simp)
      refine iff_of_true ?_ hcond
      have hes : es = events env st.calls _ := congrArg (events env st.calls) htrace
      by_cases hh : StageHindered env st.calls st.sh st.input st.toggle stage rest.isEmpty
      · -- the first stage is stopped: only a message was written
        have hwrote := (hpost.hindered hh).2.2 rfl
        rw [← hes] at hwrote
        have hquiet : ∀ path b, leftBehind path b es = b := fun path b =>
          leftBehind_of_wrote hwrote path b
        refine ⟨fun _ => ⟨fun hm => ?_, fun path fd hm => ?_⟩, hquiet _ _, hquiet _ _, ?_⟩
        · obtain ⟨text, ht⟩ := hwrote _ hm
          exact absurd ht (by simp)
        · obtain ⟨text, ht⟩ := hwrote _ hm
          exact absurd ht (by simp)
        · rw [hes]
          exact hpost.balanced []
      · refine hpost_of ?_
        rw [hes]
        exact ⟨hpost.unhindered hh, hpost.returned hh hsome, hpost.balanced⟩
    · have hself : ¬ StageHindered env st.calls st.sh st.input st.toggle stage rest.isEmpty :=
        fun hh => isSome_iff_ne_none.1 (hpost.hindered hh).1 hnone
      have hinput : st'.stages ≠ [] → st'.input.isSome := by
        rwa [hrest]
      have hes : es = events env st.calls ((runStage st.sh st.input st.toggle stage
          rest.isEmpty).run env st.calls).2 ++ events env st'.calls (st'.trace env) := by
        rw [hcalls, ← events_append, ← htrace]
      have hcond : (∀ s, st.Reaches env s → s.input.isSome → ¬ Hindered env s) ↔
          ∀ s, st'.Reaches env s → ¬ Hindered env s := by
        constructor
        · intro hall s hreach hh
          have hstages : s.stages ≠ [] := by
            obtain ⟨stage', rest', hs, -⟩ := hh
            simp [hs]
          exact hall s (Reachable.from_iff.2 (.inr ⟨st', hnext, hreach⟩))
            (reaches_input hinput hreach hstages) hh
        · intro hall s hreach hin'
          rcases Reachable.from_iff.1 hreach with rfl | ⟨s', hs', hreach'⟩
          · exact absurd hin' (by simp [st, LoopState.first])
          · obtain rfl : st' = s' := Option.some.inj (hnext.symm.trans hs')
            exact hall s hreach'
      rw [hcond]
      constructor
      · rintro ⟨-, hleft, -, -⟩ s hreach hh
        have hne : rest ≠ [] := fun hnil => no_stage_reached (hrest.trans hnil) hreach hh
        have htemp := (hpost.went_on hnone).2 (by simpa using hne) false
        have hstay := loop_hindered st' ⟨s, hreach, hh⟩
        have hA : tempPath st.toggle = pipeTmpA := rfl
        rw [hA] at htemp
        rw [hes, leftBehind_append, htemp, hstay] at hleft
        exact absurd hleft (by simp)
      · intro hall
        refine hpost_of ?_
        rw [hes]
        exact (loop_unhindered st' hall).behind hpost.balanced (hpost.unhindered hself)

/-- A run is all or nothing exactly when no stage after the first is stopped before its
command runs. -/
theorem execute_pipeline_all_or_nothing_iff (env : ShellEnv) (h : List Call) (sh : ShellState)
    (line : List UInt8) :
    AllOrNothing (events env h ((executePipeline sh line).run env h).2) ↔
      Unhindered env h sh line := by
  rw [trace_executePipeline, events_append, events_removeTemps, allOrNothing_iff]
  cases hparse : parsePipeline line with
  | error e =>
    have hfree : Unhindered env h sh line := fun stages hs => by
      rw [hparse] at hs
      exact absurd hs (by simp)
    refine iff_of_true ⟨fun _ => ?_, rfl, rfl, rfl⟩ hfree
    simp [events, event]
  | ok stages =>
    have hcond : Unhindered env h sh line ↔
        ∀ st, (LoopState.first h sh stages).Reaches env st → st.input.isSome → ¬ Hindered env st := by
      constructor
      · exact fun hu => hu stages hparse
      · intro hu stages' hs
        obtain rfl : stages = stages' := Except.ok.inj (hparse.symm.trans hs)
        exact hu
    rw [hcond]
    exact loop_first_iff h sh stages

/-- The first stage of `a|b>f|c` is run before the line is rejected. -/
theorem execute_pipeline_misplaced_redirection : ¬ ∀ (env : ShellEnv) (h : List Call)
    (sh : ShellState) (line : List UInt8),
    AllOrNothing (events env h ((executePipeline sh line).run env h).2) := by
  intro hall
  have hrun := hall willing [] (plainShell [LexicalPath.slash]) (lit "a|b>f|c")
  have hrejected : Event.wrote (SyntaxError.misplacedRedirection.text ++ lit "\n") ∈
      events willing [] ((executePipeline (plainShell [LexicalPath.slash]) (lit "a|b>f|c")).run
        willing []).2 := by decide
  exact (hrun.rejected_nothing ⟨_, hrejected⟩).1 (by decide)

end Cleonos.Shell
