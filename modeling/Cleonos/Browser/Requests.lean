import Cleonos.Browser.Session
import Cleonos.Lib.Run

/-!
# The requests of a session

A GET has no body, and a POST has the body of the form that was submitted for it, but for one way
through the loop.
-/

namespace Cleonos.Browser

open List
open Buffer (slice)
open Vim (ushTrimLine)

/-- The steps of a run, the last one first: the session before each of them, and what it was
given. -/
abbrev Past := List (Session × Event)

/-- The trimmed line of an event. -/
def lineOf : Event → Option (List UInt8)
  | .line text => some (ushTrimLine (cut inputMax text))
  | _ => none

/-- The number of the form that an event submits. -/
def submits (s : Session) (e : Event) : Option ℕ :=
  if s.sourceMode then none else ((lineOf e).bind submitPayload).bind submitNumber

/-- The last step submitted a form with POST, and the request is for its URL, with its body. -/
def Posted (past : Past) (s : Session) : Prop :=
  (request s).post = true ∧ ∃ s' e past' n form action,
    past = (s', e) :: past' ∧ submits s' e = some n ∧ s'.page.forms[n - 1]? = some form ∧
    isPost form = true ∧ formAction s'.currentSource form = some action ∧
    (request s).source = cut sourceMax action ∧ buildBody s'.page (n - 1) = .ok (request s).body

/-- The request is a GET without a body, or a POST of the form that was submitted. -/
def RequestOk (past : Past) (s : Session) : Prop :=
  ((request s).post = false ∧ (request s).body = []) ∨ Posted past s

/-- The last submission of an existing form since the last load. -/
def lastSubmission : Past → Option (Session × ℕ)
  | [] => none
  | (s, e) :: past =>
    if s.phase = .loading then none
    else
      match submits s e with
      | none => lastSubmission past
      | some n =>
        if n = 0 ∨ s.page.forms[n - 1]? = none then lastSubmission past else some (s, n)

/-- A submission fails when something of its body has been written: there is no room for the
body, or the body makes the URL of a GET too long. -/
def FailsLate (s : Session) (n : ℕ) : Prop :=
  ∃ form action, s.page.forms[n - 1]? = some form ∧ formAction s.currentSource form = some action ∧
    match buildBody s.page (n - 1) with
    | .error part => part ≠ []
    | .ok body => body ≠ [] ∧ isPost form = false ∧ joinGetUrl action body sourceMax = none

/-- The last submission since the last load failed when something of its body was written. -/
def Leftover (past : Past) : Prop := ∃ s n, lastSubmission past = some (s, n) ∧ FailsLate s n

/-- The last step asks for the page in another view, while something is left over. -/
def ViewsLeftover (past : Past) : Prop :=
  ∃ s e past' line, past = (s, e) :: past' ∧ lineOf e = some line ∧ isView line = true ∧
    Leftover past'

/-- A step of the run, with what led to it. -/
def pastStep (cwd : List UInt8) (p p' : Past × Session) : Prop :=
  ∃ e, step cwd p.2 e = some p'.2 ∧ p'.1 = (p.2, e) :: p.1

/-! ## What a command does -/

variable {cwd line payload : List UInt8} {s : Session}

/-- What a command does to the pending request. -/
inductive Effect (s : Session) (line : List UInt8) : Session → Prop
  | ends {t : Session} (h : t.phase = .over) : Effect s line t
  | stays {t : Session} (hphase : t.phase = s.phase) (hlen : t.pendingBodyLen = s.pendingBodyLen)
      (hpost : t.pendingPost = s.pendingPost) (hsubmit : submitPayload line = none) :
      Effect s line t
  | clears {t : Session} (hphase : t.phase = .loading) (hlen : t.pendingBodyLen = 0)
      (hpost : t.pendingPost = false) (hview : isView line = false) : Effect s line t
  | views (hview : isView line = true) (hsubmit : submitPayload line = none) :
      Effect s line (view s line)
  | submits {payload : List UInt8} (hsubmit : submitPayload line = some payload)
      (hview : isView line = false) : Effect s line (submitCommand s payload)

theorem submitPayload_of_prefix {word : List UInt8} (hword : ∀ rest,
    (lit "submit").isPrefixOf (word ++ rest) = false ∧
      (lit "post").isPrefixOf (word ++ rest) = false)
    (h : word.isPrefixOf line = true) : submitPayload line = none := by
  obtain ⟨rest, rfl⟩ := isPrefixOf_iff_prefix.1 h
  obtain ⟨h1, h2⟩ := hword rest
  rw [submitPayload, behindWord, behindWord, if_neg (by simp [h1]), if_neg (by simp [h2])]
  rfl

theorem submitPayload_view (h : isView line = true) : submitPayload line = none := by
  simp only [isView, Bool.or_eq_true, decide_eq_true_eq] at h
  obtain ((((rfl | rfl) | rfl) | rfl) | rfl) | rfl := h <;> decide

theorem submitPayload_inert (h : isInert line = true) : submitPayload line = none := by
  simp only [isInert, Bool.or_eq_true, decide_eq_true_eq] at h
  obtain (((((((((rfl | rfl) | rfl) | rfl) | rfl) | rfl) | rfl) | rfl) | rfl) | h) | h := h
  all_goals first
    | decide
    | exact submitPayload_of_prefix (fun _ => ⟨rfl, rfl⟩) h

theorem submitPayload_set (h : (behindPrefix (lit "set ") line).or
    (behindPrefix (lit "edit ") line) = some payload) : submitPayload line = none := by
  rw [Option.or_eq_some_iff, behindPrefix, behindPrefix] at h
  obtain h | ⟨-, h⟩ := h
  · split at h
    · exact submitPayload_of_prefix (fun _ => ⟨rfl, rfl⟩) ‹_›
    · cases h
  · split at h
    · exact submitPayload_of_prefix (fun _ => ⟨rfl, rfl⟩) ‹_›
    · cases h

theorem effect_setCommand (hsubmit : submitPayload line = none) (payload : List UInt8) :
    Effect s line (setCommand s payload) := by
  rw [setCommand]
  repeat' split
  all_goals exact .stays rfl rfl rfl hsubmit

theorem effect_openCommand (hsubmit : submitPayload line = none) (hview : isView line = false) :
    Effect s line (openCommand cwd s line) := by
  rw [openCommand]
  split
  · exact .stays rfl rfl rfl hsubmit
  · split
    · exact .stays rfl rfl rfl hsubmit
    · simp only
      split
      · exact .stays rfl rfl rfl hsubmit
      · exact .clears rfl rfl rfl hview

theorem effect_command (cwd : List UInt8) (s : Session) (line : List UInt8) :
    Effect s line (command cwd s line) := by
  rw [command]
  by_cases hnil : line = []
  · rw [if_pos hnil]
    exact .stays rfl rfl rfl (hnil ▸ by decide)
  rw [if_neg hnil]
  by_cases hq : line = lit "q" ∨ line = lit "quit" ∨ line = lit "exit"
  · rw [if_pos hq]
    exact .ends rfl
  rw [if_neg hq]
  by_cases hr : line = lit "r" ∨ line = lit "reload"
  · rw [if_pos hr]
    exact .clears rfl rfl rfl (by obtain rfl | rfl := hr <;> decide)
  rw [if_neg hr]
  by_cases hview : isView line = true
  · rw [if_pos hview]
    exact .views hview (submitPayload_view hview)
  rw [if_neg hview]
  rw [Bool.not_eq_true] at hview
  by_cases hb : line = lit "b" ∨ line = lit "back"
  · rw [if_pos hb]
    cases popHistory s with
    | none => exact .stays rfl rfl rfl (by obtain rfl | rfl := hb <;> decide)
    | some s' => exact .clears rfl rfl rfl hview
  rw [if_neg hb]
  by_cases hinert : isInert line = true
  · rw [if_pos hinert]
    exact .stays rfl rfl rfl (submitPayload_inert hinert)
  rw [if_neg hinert]
  cases hset : (behindPrefix (lit "set ") line).or (behindPrefix (lit "edit ") line) with
  | some payload => exact effect_setCommand (submitPayload_set hset) payload
  | none =>
    cases hsubmit : submitPayload line with
    | some payload => exact .submits hsubmit hview
    | none => exact effect_openCommand hsubmit hview

variable {n : ℕ} {e : Event} {past : Past}

theorem formSubmit_cases (s : Session) (n : ℕ) :
    ((n = 0 ∨ s.page.forms[n - 1]? = none) ∧
      formSubmit s.page s.currentSource n s.pendingBodyLen = ⟨s.pendingBodyLen, none⟩) ∨
    ¬ (n = 0 ∨ s.page.forms[n - 1]? = none) ∧
      ((∃ len, formSubmit s.page s.currentSource n s.pendingBodyLen = ⟨len, none⟩ ∧
        (len ≠ 0 ↔ FailsLate s n)) ∨
      (∃ form action body, s.page.forms[n - 1]? = some form ∧ isPost form = true ∧
        formAction s.currentSource form = some action ∧ buildBody s.page (n - 1) = .ok body ∧
        formSubmit s.page s.currentSource n s.pendingBodyLen =
          ⟨body.length, some (cut sourceMax action, body, true)⟩) ∨
      ∃ len url body, formSubmit s.page s.currentSource n s.pendingBodyLen =
        ⟨len, some (url, body, false)⟩) := by
  rw [formSubmit]
  by_cases hn : n = 0
  · exact .inl ⟨.inl hn, if_pos hn⟩
  rw [if_neg hn]
  cases hform : s.page.forms[n - 1]? with
  | none => exact .inl ⟨.inr rfl, rfl⟩
  | some form =>
    refine .inr ⟨by simp [hn], ?_⟩
    simp only
    cases haction : formAction s.currentSource form with
    | none =>
      refine .inl ⟨0, rfl, fun h => absurd rfl h, ?_⟩
      rintro ⟨form', action, hform', haction', -⟩
      rw [hform] at hform'
      cases hform'
      rw [haction] at haction'
      cases haction'
    | some action =>
      have hlate : FailsLate s n ↔ match buildBody s.page (n - 1) with
          | .error part => part ≠ []
          | .ok body =>
            body ≠ [] ∧ isPost form = false ∧ joinGetUrl action body sourceMax = none := by
        refine ⟨?_, fun h => ⟨form, action, hform, haction, h⟩⟩
        rintro ⟨form', action', hform', haction', h⟩
        rw [hform] at hform'
        cases hform'
        rw [haction] at haction'
        cases haction'
        exact h
      simp only
      cases hbody : buildBody s.page (n - 1) with
      | error part =>
        rw [hbody] at hlate
        exact .inl ⟨part.length, rfl, by rw [hlate, Ne, length_eq_zero_iff]⟩
      | ok body =>
        rw [hbody] at hlate
        simp only
        by_cases hpost : isPost form = true
        · rw [if_pos hpost]
          exact .inr (.inl ⟨form, action, body, rfl, hpost, haction, rfl, rfl⟩)
        · rw [if_neg hpost]
          rw [Bool.not_eq_true] at hpost
          cases hurl : joinGetUrl action body sourceMax with
          | none =>
            refine .inl ⟨body.length, rfl, ?_⟩
            rw [hlate, Ne, length_eq_zero_iff]
            exact ⟨fun h => ⟨h, hpost, hurl⟩, fun h => h.1⟩
          | some url => exact .inr (.inr ⟨_, url, body, rfl⟩)

theorem length_appendBody {cap : ℕ} {out bytes out' : List UInt8}
    (h : appendBody cap out bytes = .ok out') : out'.length < cap := by
  rw [appendBody] at h
  split at h
  · cases h
  · cases h
    rw [length_append]
    omega

theorem length_urlencAppend {cap : ℕ} {out text out' : List UInt8} (hout : out.length < cap)
    (h : urlencAppend cap out text = .ok out') : out'.length < cap := by
  rw [urlencAppend] at h
  induction text generalizing out with
  | nil =>
    cases h
    exact hout
  | cons ch text ih =>
    rw [foldlM_cons] at h
    obtain ⟨body, hch, h⟩ := bind_eq_ok_iff.1 h
    exact ih (length_appendBody hch) h

theorem length_appendField {cap : ℕ} {out out' : List UInt8 × Bool} {field : Field}
    (h : appendField cap out field = .ok out') : out'.1.length < cap := by
  rw [appendField] at h
  obtain ⟨body₁, -, h⟩ := bind_eq_ok_iff.1 h
  obtain ⟨body₂, -, h⟩ := bind_eq_ok_iff.1 h
  obtain ⟨body₃, h₃, h⟩ := bind_eq_ok_iff.1 h
  obtain ⟨body₄, h₄, h⟩ := bind_eq_ok_iff.1 h
  cases h
  exact length_urlencAppend (length_appendBody h₃) h₄

theorem length_buildBody {page : Page} {body : List UInt8} (h : buildBody page n = .ok body) :
    body.length < formBodyMax := by
  have hfold : ∀ (fields : List Field) (out out' : List UInt8 × Bool),
      out.1.length < formBodyMax → fields.foldlM (appendField formBodyMax) out = .ok out' →
      out'.1.length < formBodyMax := by
    intro fields
    induction fields with
    | nil =>
      intro out out' hout h
      cases h
      exact hout
    | cons field fields ih =>
      intro out out' _ h
      rw [foldlM_cons] at h
      obtain ⟨out₁, hfield, h⟩ := bind_eq_ok_iff.1 h
      exact ih out₁ out' (length_appendField hfield) h
  rw [buildBody] at h
  cases hrun : (page.fields.filter fun field =>
      field.formIndex = n ∧ field.successful ∧ field.name ≠ []).foldlM
        (appendField formBodyMax) ([], true) with
  | error part =>
    rw [hrun] at h
    cases h
  | ok out =>
    rw [hrun] at h
    cases h
    exact hfold _ _ _ (by decide) hrun

theorem slice_copyBody {body : List UInt8} (h : body.length < formBodyMax) (buffer : ℕ → UInt8) :
    slice (copyBody body buffer) 0 body.length = body := by
  refine Buffer.slice_eq_of_getElem fun j hj => ?_
  rw [Nat.zero_add, copyBody, if_pos (by omega), take_of_length_le (by omega)]
  simp [List.getD, hj]

theorem not_leftover_loading (h : s.phase = .loading) : ¬ Leftover ((s, e) :: past) := by
  rintro ⟨s', n, hlast, -⟩
  rw [lastSubmission, if_pos h] at hlast
  cases hlast

theorem leftover_of_submits_none (h : s.phase ≠ .loading) (hsubmits : submits s e = none) :
    Leftover ((s, e) :: past) ↔ Leftover past := by
  rw [Leftover, lastSubmission, if_neg h, hsubmits]
  rfl

theorem leftover_of_submits (h : s.phase ≠ .loading) (hsubmits : submits s e = some n) :
    Leftover ((s, e) :: past) ↔
      if n = 0 ∨ s.page.forms[n - 1]? = none then Leftover past else FailsLate s n := by
  rw [Leftover, lastSubmission, if_neg h, hsubmits]
  simp only
  split
  · rfl
  · refine ⟨?_, fun h => ⟨s, n, rfl, h⟩⟩
    rintro ⟨s', n', heq, hlate⟩
    cases heq
    exact hlate

/-- What is pending, by the steps of the run. -/
structure Inv (past : Past) (s : Session) : Prop where
  prompt : s.phase = .prompt → s.pendingPost = false ∧ (s.pendingBodyLen ≠ 0 ↔ Leftover past)
  loading : s.phase = .loading →
    (s.pendingPost = false ∧ (s.pendingBodyLen ≠ 0 ↔ ViewsLeftover past)) ∨
    (Posted past s ∧ ¬ ViewsLeftover past)

theorem inv_load (s : Session) (answer : LoadAnswer) (hphase : s.phase = .loading) (past : Past) :
    Inv ((s, .loaded answer) :: past) (load s answer) := by
  have hviews : ¬ ViewsLeftover ((s, .loaded answer) :: past) := by
    rintro ⟨s', e, past', line, heq, hline, -⟩
    cases heq
    cases hline
  have hclear : ∀ t : Session, (t.phase = .over ∨ t.pendingPost = false ∧ t.pendingBodyLen = 0) →
      Inv ((s, .loaded answer) :: past) t := by
    intro t ht
    refine ⟨fun hp => ?_, fun hl => ?_⟩
    · obtain hover | ⟨hpost, hlen⟩ := ht
      · rw [hover] at hp
        cases hp
      · exact ⟨hpost, fun h => absurd hlen h, fun h => absurd h (not_leftover_loading hphase)⟩
    · obtain hover | ⟨hpost, hlen⟩ := ht
      · rw [hover] at hl
        cases hl
      · exact .inl ⟨hpost, fun h => absurd hlen h, fun h => absurd h hviews⟩
  have hreturn : ∀ t : Session, t.pendingPost = false ∧ t.pendingBodyLen = 0 →
      (returnToPrevious t).pendingPost = false ∧ (returnToPrevious t).pendingBodyLen = 0 := by
    intro t ht
    rw [returnToPrevious]
    split
    · exact ht
    · rw [popHistory]
      cases t.history.getLast? <;> exact ht
  cases answer with
  | failed =>
    refine hclear _ ?_
    rw [load]
    split
    · exact .inl ‹_›
    · exact .inr ⟨rfl, rfl⟩
  | loaded renders page =>
    refine hclear _ (.inr ?_)
    rw [load]
    simp only
    split
    · exact ⟨rfl, rfl⟩
    · split
      · exact hreturn _ ⟨rfl, rfl⟩
      · exact ⟨rfl, rfl⟩

theorem inv_submitCommand (hinv : Inv past s) (hphase : s.phase = .prompt)
    (hline : lineOf e = some line) (hsubmit : submitPayload line = some payload)
    (hview : isView line = false) :
    Inv ((s, e) :: past) (submitCommand s payload) := by
  have hloading : s.phase ≠ .loading := by
    rw [hphase]
    exact fun h => nomatch h
  obtain ⟨hpost, hlen⟩ := hinv.prompt hphase
  have hviews : ¬ ViewsLeftover ((s, e) :: past) := by
    rintro ⟨s', e', past', line', heq, hline', hview', -⟩
    cases heq
    rw [hline] at hline'
    cases hline'
    rw [hview] at hview'
    cases hview'
  -- where the command goes on to ask for a line, only the length may have changed
  have hstay : ∀ len, (len ≠ 0 ↔ Leftover ((s, e) :: past)) →
      Inv ((s, e) :: past) { s with pendingBodyLen := len } := fun len hlen' =>
    ⟨fun _ => ⟨hpost, hlen'⟩, fun h => absurd h hloading⟩
  rw [submitCommand]
  cases hnumber : submitNumber payload with
  | none =>
    have hnone : submits s e = none := by simp [submits, hline, hsubmit, hnumber]
    refine hstay s.pendingBodyLen ?_
    rw [leftover_of_submits_none hloading hnone, hlen]
  | some n =>
    simp only
    by_cases hmode : s.sourceMode = true
    · have hnone : submits s e = none := by rw [submits, if_pos hmode]
      rw [if_pos hmode]
      refine hstay s.pendingBodyLen ?_
      rw [leftover_of_submits_none hloading hnone, hlen]
    · have hsome : submits s e = some n := by
        rw [submits, if_neg hmode, hline]
        simp [hsubmit, hnumber]
      have hleft := @leftover_of_submits s n e past hloading hsome
      rw [if_neg hmode]
      obtain ⟨hnone, hsub⟩ | ⟨hsome', ⟨len, hsub, hlate⟩ |
        ⟨form, action, body, hform, hpost', haction, hbody, hsub⟩ | ⟨len, url, body, hsub⟩⟩ :=
        formSubmit_cases s n
      · rw [hsub]
        refine hstay s.pendingBodyLen ?_
        rw [hleft, if_pos hnone, hlen]
      · rw [hsub]
        refine hstay len ?_
        rw [hleft, if_neg hsome', hlate]
      · rw [hsub]
        refine ⟨(fun h => nomatch h), fun _ => .inr ⟨⟨rfl, s, e, past, n, form, action, rfl,
          hsome, hform, hpost', haction, rfl, ?_⟩, hviews⟩⟩
        rw [hbody]
        exact congrArg Except.ok (slice_copyBody (length_buildBody hbody) _).symm
      · rw [hsub]
        exact ⟨(fun h => nomatch h), fun _ => .inl ⟨rfl, fun h => absurd rfl h,
          fun h => absurd h hviews⟩⟩

theorem inv_command (cwd : List UInt8) (hinv : Inv past s) (hphase : s.phase = .prompt)
    (hline : lineOf e = some line) : Inv ((s, e) :: past) (command cwd s line) := by
  have hloading : s.phase ≠ .loading := by
    rw [hphase]
    exact fun h => nomatch h
  obtain ⟨hpost, hlen⟩ := hinv.prompt hphase
  have heffect := effect_command cwd s line
  generalize command cwd s line = t at heffect
  cases heffect with
  | ends h => exact ⟨(fun hp => nomatch h.symm.trans hp), fun hl => nomatch h.symm.trans hl⟩
  | stays hphase' hlen' hpost' hsubmit =>
    have hnone : submits s e = none := by simp [submits, hline, hsubmit]
    refine ⟨fun _ => ⟨hpost'.trans hpost, ?_⟩, fun h => absurd (hphase'.symm.trans h) hloading⟩
    rw [hlen', leftover_of_submits_none hloading hnone, hlen]
  | clears hphase' hlen' hpost' hview =>
    have hviews : ¬ ViewsLeftover ((s, e) :: past) := by
      rintro ⟨s', e', past', line', heq, hline', hview', -⟩
      cases heq
      rw [hline] at hline'
      cases hline'
      rw [hview] at hview'
      cases hview'
    exact ⟨(fun hp => nomatch hphase'.symm.trans hp), fun _ => .inl ⟨hpost',
      fun h => absurd hlen' h, fun h => absurd h hviews⟩⟩
  | views hview hsubmit =>
    have hkept : (view s line).phase = .loading ∧ (view s line).pendingPost = s.pendingPost ∧
        (view s line).pendingBodyLen = s.pendingBodyLen := by
      rw [view]
      split <;> exact ⟨rfl, rfl, rfl⟩
    obtain ⟨hphase', hpost', hlen'⟩ := hkept
    refine ⟨(fun hp => nomatch hphase'.symm.trans hp), fun _ => .inl ⟨hpost'.trans hpost, ?_⟩⟩
    rw [hlen', hlen]
    refine ⟨fun h => ⟨s, e, past, line, rfl, hline, hview, h⟩, ?_⟩
    rintro ⟨s', e', past', line', heq, -, -, h⟩
    cases heq
    exact h
  | submits hsubmit hview => exact inv_submitCommand hinv hphase hline hsubmit hview

theorem inv_step (hinv : Inv past s) {s' : Session} (hstep : step cwd s e = some s') :
    Inv ((s, e) :: past) s' := by
  cases e with
  | loaded answer =>
    rw [step] at hstep
    split at hstep
    · cases hstep
      exact inv_load s answer ‹_› past
    · cases hstep
  | line text =>
    rw [step] at hstep
    split at hstep
    · cases hstep
      exact inv_command cwd hinv ‹_› rfl
    · cases hstep
  | eof =>
    rw [step] at hstep
    split at hstep
    · cases hstep
      exact ⟨(fun h => nomatch h), fun h => nomatch h⟩
    · cases hstep

def Starts (p : Past × Session) : Prop :=
  ∃ source sourceMode buffer, p = ([], start source sourceMode buffer)

theorem inv_run (hrun : Reachable Starts (pastStep cwd) (past, s)) : Inv past s := by
  refine hrun.invariant (I := fun p => Inv p.1 p.2) ?_ ?_
  · rintro _ ⟨source, sourceMode, buffer, rfl⟩
    refine ⟨(fun h => nomatch h), fun _ => .inl ⟨rfl, fun h => absurd rfl h, ?_⟩⟩
    rintro ⟨s', e', past', line', heq, -⟩
    cases heq
  · rintro ⟨past, s⟩ ⟨past', s'⟩ hinv ⟨e, hstep, rfl⟩
    exact inv_step hinv hstep

/-- **The requests of a session.** Whenever a run loads, whatever was answered before, the
request is a GET without a body, or a POST of the form that the last step submitted, if and only
if that step was no command for another view behind a submission that failed late. -/
theorem request_iff (hrun : Reachable Starts (pastStep cwd) (past, s))
    (hload : s.phase = .loading) : RequestOk past s ↔ ¬ ViewsLeftover past := by
  obtain ⟨hpost, hlen⟩ | ⟨hposted, hviews⟩ := (inv_run hrun).loading hload
  · have hbody : (request s).body = [] ↔ s.pendingBodyLen = 0 := by
      rw [← length_eq_zero_iff, request, Buffer.length_slice]
    have hget : ¬ Posted past s := fun h => Bool.false_ne_true (hpost.symm.trans h.1)
    rw [← hlen, not_not, ← hbody]
    exact ⟨fun h => (h.resolve_right hget).2, fun h => .inl ⟨hpost, h⟩⟩
  · exact ⟨fun _ => hviews, fun _ => .inr hposted⟩

def formPage (method value : List UInt8) : Page := ⟨[], [⟨method, []⟩], [⟨0, lit "q", value, true⟩]⟩

/-- A session that has opened a page. -/
def opened (page : Page) : Session :=
  load (start (lit "http://h/") false fun _ => 0) (.loaded true page)

theorem reachable_opened (page : Page) :
    Reachable Starts (pastStep [47]) ([(start (lit "http://h/") false fun _ => 0,
      .loaded (.loaded true page))], opened page) :=
  .next (.start ⟨_, _, _, rfl⟩) ⟨_, rfl, rfl⟩

theorem reachable_line {past : Past} {s : Session} (h : Reachable Starts (pastStep [47]) (past, s))
    (hphase : s.phase = .prompt) (text : List UInt8) :
    Reachable Starts (pastStep [47])
      ((s, .line text) :: past, command [47] s (ushTrimLine (cut inputMax text))) :=
  .next h ⟨.line text, by rw [step, if_pos hphase], rfl⟩

/-- A form is submitted with POST. -/
theorem post_requestOk : ∃ past s, s.phase = .loading ∧
    request s = ⟨lit "http://h/", true, lit "q=a"⟩ ∧ RequestOk past s := by
  have hrun := reachable_line (reachable_opened (formPage (lit "post") (lit "a"))) rfl
    (lit "submit")
  refine ⟨_, _, by decide +kernel, by decide +kernel, (request_iff hrun (by decide +kernel)).2 ?_⟩
  rintro ⟨s', e', past', line, heq, hline, hview, -⟩
  cases heq
  cases hline
  revert hview
  decide

/-- A value of a hundred percent signs makes the URL of a GET too long, so that the submission
fails; the page is then asked for in another view, and the GET has a body of 302 bytes. -/
theorem view_sends_body : ¬ ∀ (past : Past) (s : Session),
    Reachable Starts (pastStep [47]) (past, s) → s.phase = .loading → RequestOk past s := by
  intro h
  have hfail := reachable_line
    (reachable_opened (formPage (lit "get") (List.replicate 100 37))) rfl (lit "submit")
  have hview := reachable_line hfail (by decide +kernel) (lit "v")
  obtain ⟨-, hbody⟩ | ⟨hpost, -⟩ := h _ _ hview (by decide +kernel)
  · have hlen := congrArg List.length hbody
    revert hlen
    decide +kernel
  · revert hpost
    decide +kernel

end Cleonos.Browser
