import Cleonos.Termbox.Model

/-!
# The events of the screen library

`tb_peek_event` with the clock and with what it leaves of the input.
-/

namespace Cleonos.Termbox

open List Option

/-! ## The source -/

/-- A look at the keyboard: the time in front of it, which counts where a wait begins, the byte,
and the time behind it. -/
structure Poll where
  start : ℕ
  byte : Option UInt8
  now : ℕ
  deriving DecidableEq, Repr

/-- The loop of `tb_read_byte_blocking`; a byte of none is `TB_ERR_NO_EVENT`. -/
def waitLoop (timeoutMs : ℤ) (startMs : ℕ) : List Poll → Option (Option UInt8 × List Poll)
  | [] => none
  | p :: polls =>
    match p.byte with
    | some ch => some (some ch, polls)
    | none =>
      if timeoutMs ≥ 0 ∧ p.now ≥ startMs ∧ ((p.now - startMs : ℕ) : ℤ) ≥ timeoutMs then
        some (none, polls)
      else waitLoop timeoutMs startMs polls

def tbReadByteBlocking (timeoutMs : ℤ) (polls : List Poll) :
    Option (Option UInt8 × List Poll) :=
  match polls with
  | [] => none
  | p :: _ => waitLoop timeoutMs p.start polls

/-- The loop of `tb_peek_event` behind an escape, with room for `n` more bytes. -/
def readSequenceFrom (seq : List UInt8) (ch : UInt8) :
    ℕ → List Poll → Option (List UInt8 × List Poll)
  | 0, polls => some (seq, polls)
  | n + 1, polls =>
    if (ch ≥ 65 ∧ ch ≤ 90) ∨ ch = 126 then some (seq, polls)
    else
      match tbReadByteBlocking 20 polls with
      | none => none
      | some (none, polls) => some (seq, polls)
      | some (some ch, polls) => readSequenceFrom (seq ++ [ch]) ch n polls

/-- The end of `tb_peek_event`. -/
def readEventFrom (timeoutMs : ℤ) (polls : List Poll) : Option (TbCode × TbEvent × List Poll) :=
  match tbReadByteBlocking timeoutMs polls with
  | none => none
  | some (none, polls) => some (.errNoEvent, TbEvent.zero, polls)
  | some (some ch, polls) =>
    if ch = 27 then
      match tbReadByteBlocking 20 polls with
      | none => none
      | some (none, polls) =>
        some (.eventKey, { TbEvent.zero with type := 1, key := 0x1B }, polls)
      | some (some ch, polls) =>
        (readSequenceFrom [27, ch] ch 14 polls).map fun r =>
          (.eventKey, { TbEvent.zero with type := 1, key := escapeKey r.1 }, r.2)
    else if ch < 32 ∨ ch = 127 then
      some (.eventKey, { TbEvent.zero with type := 1, key := ch.toUInt16 }, polls)
    else some (.eventKey, { TbEvent.zero with type := 1, ch := ch.toUInt32 }, polls)

variable {σ γ : Type} (tty : Tty σ γ)

/-- `tb_peek_event` of an event structure; `tb_poll_event` has a timeout of `-1`. -/
def peekEvent (w : World σ) (event : TbEvent) (reply : Reply) (timeoutMs : ℤ) (polls : List Poll) :
    Option (TbCode × TbEvent × World σ × List Poll) :=
  if w.tb.initialized = false then some (.errNotInit, event, w, polls)
  else
    let r := refreshSize tty w event reply
    let w := { w with tb := r.2.1 }
    if r.1 = .ok ∧ r.2.2.type = 2 then some (.eventResize, r.2.2, w, polls)
    else (readEventFrom timeoutMs polls).map fun e => (e.1, e.2.1, w, e.2.2)

/-- A call: the terminal at that time, what the outside decides, and the timeout. -/
structure PeekCall (σ : Type) where
  term : σ
  reply : Reply
  timeoutMs : ℤ

/-- The bytes that some polls deliver. -/
def arrived (polls : List Poll) : List UInt8 := polls.filterMap Poll.byte

/-- What is seen of a call: the size on record and the event structure in front of it, the size of
the grid, the code and the event that it returns, and the bytes that it takes. -/
structure Report where
  initialized : Bool
  recorded : ℤ × ℤ
  passed : TbEvent
  grid : Option (ℤ × ℤ)
  code : TbCode
  event : TbEvent
  bytes : List UInt8
  deriving DecidableEq, Repr

/-- What is seen of a call with this outcome. -/
def reportOf (w : World σ) (event : TbEvent) (call : PeekCall σ) (polls : List Poll)
    (r : TbCode × TbEvent × World σ × List Poll) : Report where
  initialized := w.tb.initialized
  recorded := (w.tb.width, w.tb.height)
  passed := event
  grid := queryGrid tty call.term call.reply.works
  code := r.1
  event := r.2.1
  bytes := arrived (polls.take (polls.length - r.2.2.2.length))

/-- Calls one after the other that reuse one event structure; none where one of them does not
return.  What is left of the input comes last. -/
def peekRun (w : World σ) (event : TbEvent) (polls : List Poll) :
    List (PeekCall σ) → Option (List Report × List Poll)
  | [] => some ([], polls)
  | call :: calls =>
    match peekEvent tty { w with term := call.term } event call.reply call.timeoutMs polls with
    | none => none
    | some r =>
      (peekRun r.2.2.1 r.2.1 r.2.2.2 calls).map fun run =>
        (reportOf tty w event call polls r :: run.1, run.2)

/-- The event of the bytes of a key. -/
def keyEvent (bytes : List UInt8) : TbEvent :=
  match bytes with
  | [ch] =>
    if ch = 27 then { TbEvent.zero with type := 1, key := 0x1B }
    else if ch < 32 ∨ ch = 127 then { TbEvent.zero with type := 1, key := ch.toUInt16 }
    else { TbEvent.zero with type := 1, ch := ch.toUInt32 }
  | seq => { TbEvent.zero with type := 1, key := escapeKey seq }

/-- Each event is reported once: a resize event only for a size that is not on record, and a key
event with the bytes that are its own; the bytes of the key events are those of the input, in order,
up to what is left of it. -/
structure PeekLaw (input : List Poll) (reports : List Report) (left : List Poll) : Prop where
  resize : ∀ r ∈ reports, r.code = .eventResize → r.grid ≠ some r.recorded
  key : ∀ r ∈ reports, r.code = .eventKey → r.bytes ≠ [] ∧ r.event = keyEvent r.bytes
  other : ∀ r ∈ reports, r.code ≠ .eventKey → r.bytes = []
  whole : (reports.flatMap fun r => if r.code = .eventKey then r.bytes else []) ++ arrived left =
    arrived input

/-- A resize event is still in the structure that is passed in, and the grid has the size on
record. -/
def Stale (r : Report) : Prop :=
  r.initialized = true ∧ r.passed.type = 2 ∧ r.grid = some r.recorded

instance (r : Report) : Decidable (Stale r) :=
  inferInstanceAs (Decidable (_ ∧ _ ∧ _))

variable {tty : Tty σ γ} {w : World σ} {event : TbEvent} {reply : Reply} {timeoutMs : ℤ}
  {polls rest : List Poll} {ch : UInt8} {seq : List UInt8} {n : ℕ}

/-- The polls in front of the rest deliver these bytes. -/
def Takes (polls : List Poll) (bytes : List UInt8) (rest : List Poll) : Prop :=
  ∃ used, polls = used ++ rest ∧ arrived used = bytes

theorem Takes.refl (polls : List Poll) : Takes polls [] polls := ⟨[], rfl, rfl⟩

variable {bytes : List UInt8}

theorem Takes.trans {bytes' : List UInt8} {middle : List Poll}
    (h : Takes polls bytes middle) (h' : Takes middle bytes' rest) :
    Takes polls (bytes ++ bytes') rest := by
  obtain ⟨used, rfl, rfl⟩ := h
  obtain ⟨used', rfl, rfl⟩ := h'
  exact ⟨used ++ used', (append_assoc used used' rest).symm, filterMap_append⟩

theorem Takes.bytes_eq (h : Takes polls bytes rest) :
    arrived (polls.take (polls.length - rest.length)) = bytes := by
  obtain ⟨used, rfl, rfl⟩ := h
  rw [length_append, Nat.add_sub_cancel, take_left]

theorem Takes.arrived_eq (h : Takes polls bytes rest) : bytes ++ arrived rest = arrived polls := by
  obtain ⟨used, rfl, rfl⟩ := h
  exact filterMap_append.symm

theorem waitLoop_takes {startMs : ℕ} {byte : Option UInt8}
    (h : waitLoop timeoutMs startMs polls = some (byte, rest)) : Takes polls byte.toList rest := by
  induction polls with
  | nil => cases h
  | cons p polls ih =>
    rw [waitLoop] at h
    split at h
    · next ch hbyte =>
      cases h
      exact ⟨[p], rfl, by rw [arrived, filterMap_cons_some hbyte]; rfl⟩
    · next hbyte =>
      have hp : Takes (p :: polls) [] polls :=
        ⟨[p], rfl, by rw [arrived, filterMap_cons_none hbyte]; rfl⟩
      split at h
      · cases h
        exact hp
      · exact hp.trans (ih h)

theorem readByte_takes {byte : Option UInt8}
    (h : tbReadByteBlocking timeoutMs polls = some (byte, rest)) :
    Takes polls byte.toList rest := by
  cases polls with
  | nil => cases h
  | cons p polls => exact waitLoop_takes h

theorem readSequenceFrom_takes {r : List UInt8 × List Poll}
    (h : readSequenceFrom seq ch n polls = some r) :
    ∃ more, r.1 = seq ++ more ∧ Takes polls more r.2 := by
  induction n generalizing seq ch polls with
  | zero =>
    cases h
    exact ⟨[], (append_nil _).symm, Takes.refl _⟩
  | succ n ih =>
    rw [readSequenceFrom] at h
    split at h
    · cases h
      exact ⟨[], (append_nil _).symm, Takes.refl _⟩
    · split at h
      · cases h
      · next hread =>
        cases h
        exact ⟨[], (append_nil _).symm, readByte_takes hread⟩
      · next c _ hread =>
        obtain ⟨more, hmore, htakes⟩ := ih h
        refine ⟨c :: more, ?_, (readByte_takes hread).trans htakes⟩
        rw [hmore, append_assoc, singleton_append]

theorem readEventFrom_takes {e : TbCode × TbEvent × List Poll}
    (h : readEventFrom timeoutMs polls = some e) : (e.1 = .errNoEvent ∧ Takes polls [] e.2.2) ∨
      (e.1 = .eventKey ∧
        ∃ bytes, bytes ≠ [] ∧ e.2.1 = keyEvent bytes ∧ Takes polls bytes e.2.2) := by
  rw [readEventFrom] at h
  split at h
  · cases h
  · next hread =>
    cases h
    exact Or.inl ⟨rfl, readByte_takes hread⟩
  · next c _ hread =>
    have hfirst := readByte_takes hread
    right
    split at h
    · next hesc =>
      rw [hesc] at hfirst
      split at h
      · cases h
      · next hnext =>
        cases h
        exact ⟨rfl, [27], cons_ne_nil _ _, rfl, hfirst.trans (readByte_takes hnext)⟩
      · next d _ hnext =>
        obtain ⟨r, hseq, heq⟩ := map_eq_some_iff.1 h
        cases heq
        obtain ⟨more, hmore, htakes⟩ := readSequenceFrom_takes hseq
        rw [hmore]
        exact ⟨rfl, [27, d] ++ more, cons_ne_nil _ _, rfl,
          hfirst.trans ((readByte_takes hnext).trans htakes)⟩
    · next hesc =>
      split at h
      · next hcontrol =>
        cases h
        refine ⟨rfl, [c], cons_ne_nil _ _, ?_, hfirst⟩
        rw [keyEvent, if_neg hesc, if_pos hcontrol]
      · next hcontrol =>
        cases h
        refine ⟨rfl, [c], cons_ne_nil _ _, ?_, hfirst⟩
        rw [keyEvent, if_neg hesc, if_neg hcontrol]

theorem refreshSize_cases (tty : Tty σ γ) (w : World σ) (event : TbEvent) (reply : Reply) :
    (queryGrid tty w.term reply.works = some ((w.tb.width : ℤ), (w.tb.height : ℤ)) ∧
      refreshSize tty w event reply = (.ok, w.tb, event)) ∨
    (queryGrid tty w.term reply.works ≠ some ((w.tb.width : ℤ), (w.tb.height : ℤ)) ∧
      ((refreshSize tty w event reply).1 = .ok →
        (refreshSize tty w event reply).2.2.type = 2)) := by
  rw [refreshSize]
  cases hgrid : queryGrid tty w.term reply.works with
  | none =>
    right
    refine ⟨fun h => (by cases h), fun h => (by cases h)⟩
  | some size =>
    obtain ⟨width, height⟩ := size
    dsimp only
    split
    case isTrue hsame =>
      left
      rw [hsame.1, hsame.2]
      exact ⟨rfl, rfl⟩
    case isFalse hdiff =>
      right
      refine ⟨?_, ?_⟩
      · intro heq
        rw [Option.some.injEq, Prod.mk.injEq] at heq
        exact hdiff heq
      · split
        · intro _
          rfl
        · intro h
          cases h

theorem peekEvent_law {call : PeekCall σ} {r : TbCode × TbEvent × World σ × List Poll}
    (h : peekEvent tty { w with term := call.term } event call.reply call.timeoutMs polls =
      some r) :
    (r.1 = .eventResize ∧ (reportOf tty w event call polls r).grid =
        some (reportOf tty w event call polls r).recorded ↔
      Stale (reportOf tty w event call polls r)) ∧
    ∃ bytes, Takes polls bytes r.2.2.2 ∧
      (r.1 = .eventKey → bytes ≠ [] ∧ r.2.1 = keyEvent bytes) ∧ (r.1 ≠ .eventKey → bytes = []) := by
  rw [peekEvent] at h
  split at h
  case isTrue hinit =>
    cases h
    constructor
    · constructor
      · intro hcode
        cases hcode.1
      · intro hstale
        have htrue : w.tb.initialized = true := hstale.1
        dsimp only at hinit
        rw [htrue] at hinit
        cases hinit
    · exact ⟨[], Takes.refl polls, fun hcode => (by cases hcode), fun _ => rfl⟩
  case isFalse hinit =>
    rw [Bool.not_eq_false] at hinit
    dsimp only at h
    split at h
    case isTrue hresize =>
      cases h
      constructor
      · rcases refreshSize_cases tty { w with term := call.term } event call.reply with
          ⟨hgrid, hsame⟩ | ⟨hgrid, -⟩
        · rw [hsame] at hresize
          exact iff_of_true ⟨rfl, hgrid⟩ ⟨hinit, hresize.2, hgrid⟩
        · exact iff_of_false (fun hboth => hgrid hboth.2) (fun hstale => hgrid hstale.2.2)
      · exact ⟨[], Takes.refl polls, fun hcode => (by cases hcode), fun _ => rfl⟩
    case isFalse hresize =>
      obtain ⟨e, hread, heq⟩ := map_eq_some_iff.1 h
      cases heq
      have htakes := readEventFrom_takes hread
      constructor
      · have hcode : e.1 ≠ .eventResize := by
          rcases htakes with ⟨hcode, -⟩ | ⟨hcode, -⟩
          · rw [hcode]
            decide
          · rw [hcode]
            decide
        refine iff_of_false (fun hboth => hcode hboth.1) ?_
        intro hstale
        rcases refreshSize_cases tty { w with term := call.term } event call.reply with
          ⟨-, hsame⟩ | ⟨hgrid, -⟩
        · rw [hsame] at hresize
          exact hresize ⟨rfl, hstale.2.1⟩
        · exact hgrid hstale.2.2
      · rcases htakes with ⟨hcode, hnone⟩ | ⟨hcode, bytes, hne, hevent, hbytes⟩
        · refine ⟨[], hnone, fun hkey => ?_, fun _ => rfl⟩
          dsimp only at hkey
          rw [hcode] at hkey
          cases hkey
        · exact ⟨bytes, hbytes, fun _ => ⟨hne, hevent⟩, fun hother => absurd hcode hother⟩

theorem peekRun_bytes {calls : List (PeekCall σ)} {run : List Report × List Poll}
    (h : peekRun tty w event polls calls = some run) :
    (∀ r ∈ run.1, r.code = .eventKey → r.bytes ≠ [] ∧ r.event = keyEvent r.bytes) ∧
      (∀ r ∈ run.1, r.code ≠ .eventKey → r.bytes = []) ∧
      (run.1.flatMap fun r => if r.code = .eventKey then r.bytes else []) ++ arrived run.2 =
        arrived polls ∧
      ∀ r ∈ run.1, (r.code = .eventResize ∧ r.grid = some r.recorded ↔ Stale r) := by
  induction calls generalizing w event polls run with
  | nil =>
    cases h
    refine ⟨?_, ?_, rfl, ?_⟩
    all_goals
      intro r hr
      cases hr
  | cons call calls ih =>
    rw [peekRun] at h
    split at h
    · cases h
    · next r hcall =>
      obtain ⟨tail, htail, rfl⟩ := map_eq_some_iff.1 h
      obtain ⟨hkey, hother, hwhole, hstale⟩ := ih htail
      obtain ⟨hiff, bytes, htakes, hkey', hother'⟩ := peekEvent_law hcall
      have hbytes : (reportOf tty w event call polls r).bytes = bytes := htakes.bytes_eq
      refine ⟨?_, ?_, ?_, ?_⟩
      · intro s hs hcode
        rcases mem_cons.1 hs with rfl | hmem
        · rw [hbytes]
          exact hkey' hcode
        · exact hkey s hmem hcode
      · intro s hs hcode
        rcases mem_cons.1 hs with rfl | hmem
        · rw [hbytes]
          exact hother' hcode
        · exact hother s hmem hcode
      · have hhead : (if (reportOf tty w event call polls r).code = .eventKey then
            (reportOf tty w event call polls r).bytes else []) = bytes := by
          rw [hbytes]
          split
          case isTrue => rfl
          case isFalse hcode => exact (hother' hcode).symm
        rw [flatMap_cons, hhead, append_assoc, hwhole]
        exact htakes.arrived_eq
      · intro s hs
        rcases mem_cons.1 hs with rfl | hmem
        · exact hiff
        · exact hstale s hmem

/-- In every run in which each call returns, each event is reported once exactly if no call finds
its structure stale. -/
theorem peekLaw_iff (tty : Tty σ γ) (w : World σ) (event : TbEvent) (polls : List Poll)
    (calls : List (PeekCall σ)) :
    (∀ run, peekRun tty w event polls calls = some run → PeekLaw polls run.1 run.2) ↔
      ∀ run, peekRun tty w event polls calls = some run → ∀ r ∈ run.1, ¬ Stale r := by
  constructor
  · intro h run hrun r hr hstale
    obtain ⟨-, -, -, hiff⟩ := peekRun_bytes hrun
    obtain ⟨hcode, hgrid⟩ := (hiff r hr).2 hstale
    exact (h run hrun).resize r hr hcode hgrid
  · intro h run hrun
    obtain ⟨hkey, hother, hwhole, hiff⟩ := peekRun_bytes hrun
    refine ⟨?_, hkey, hother, hwhole⟩
    intro r hr hcode hgrid
    exact h run hrun r hr ((hiff r hr).1 ⟨hcode, hgrid⟩)

/-- A terminal of the size that it is. -/
def sizeOnly : Tty (ℕ × ℕ) Unit := ⟨fun s _ => s, fun s => s.1, fun s => s.2, fun _ _ _ => ()⟩

/-- The library after `tb_init` on a grid of one cell. -/
def oneCell : World (ℕ × ℕ) :=
  ⟨{ TbState.start with
    initialized := true, width := 1, height := 1, back := some [.zero], front := some [.zero] },
    (1, 1)⟩

/-- The grid grows, and two calls report it, the second one without any change; the byte that has
arrived stays where it is. -/
theorem resize_reported_twice : ¬ ∀ run, peekRun sizeOnly oneCell TbEvent.zero [⟨0, some 97, 0⟩]
    [⟨(2, 1), ⟨true, true, true⟩, 0⟩, ⟨(2, 1), ⟨true, true, true⟩, 0⟩] = some run →
      PeekLaw [⟨0, some 97, 0⟩] run.1 run.2 := by
  intro h
  have hlaw := (h _ rfl).resize
  revert hlaw
  decide

end Cleonos.Termbox
