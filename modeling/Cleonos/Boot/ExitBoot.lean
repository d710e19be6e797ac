import Cleonos.Boot.Handoff
import Cleonos.Lib.Collect

/-!
# Nothing is called after `ExitBootServices`

The memory map that the kernel is given is always the one whose key was accepted.
-/

namespace Cleonos.Boot

open List
open Prog

/-- A call of a run with its answer. -/
abbrev Event : Type := (c : Call) × c.Answer

/-- A memory map that is given, an `ExitBootServices` with its answer, and the kernel. -/
abbrev Event.given (size : ℕ) (map : MemoryMap) : Event :=
  ⟨.access (.service (.getMemoryMap size)), some map⟩
abbrev Event.exit (key : UInt64) (ok : Bool) : Event := ⟨.exitBootServices key, ok⟩
abbrev Event.enter (memmap : List MemmapEntry) : Event := ⟨.enterKernel memmap, ()⟩

/-- The boot services and those of the console. -/
def Call.isService : Call → Bool
  | .access (.service _) => true
  | .exitBootServices _ => true
  | _ => false

def Call.isMap : Call → Bool
  | .access (.service (.getMemoryMap _)) => true
  | _ => false

def Call.isEnter : Call → Bool
  | .enterKernel _ => true
  | _ => false

/-- `ExitBootServices` that succeeds. -/
def Event.exited : Event → Bool
  | ⟨.exitBootServices _, ok⟩ => ok
  | _ => false

/-- No service is called after an `ExitBootServices` that succeeded. -/
def Quiet (events : List Event) : Prop :=
  events.Pairwise fun e e' => e.exited = true → e'.1.isService = false

/-- The memory map for the kernel came with the key with which `ExitBootServices` succeeded,
and none came after it. -/
def HandedOver (events : List Event) : Prop :=
  ∀ front memmap back, events = front ++ Event.enter memmap :: back →
    ∃ before size map between after,
      front = before ++ Event.given size map :: (between ++ Event.exit map.key true :: after) ∧
      (∀ e ∈ between ++ after, e.1.isMap = false) ∧ memmap = map.entries

variable {fw : Firmware} {display : Display} {h : List Call} {α β : Type}

/-! ### Drawing -/

/-- The calls that drawing may make. -/
def Call.Draws (c : Call) : Prop :=
  c = .access .systemTable ∨ ∃ call, c = .access (.service (.console call))

theorem draws_perform (drawing : Drawing) : Prog.Emits Call.Draws (perform drawing) := by
  induction drawing with
  | nil => exact emits_pure ()
  | cons call rest ih =>
    refine Prog.Emits.bind (emits_ask (.inl rfl)) fun table =>
      emits_ite (fun _ => ?_) fun _ => ih
    exact Prog.Emits.bind (emits_ask (.inr ⟨call, rfl⟩)) fun _ => ih

theorem draws_drawProgress (percent : ℕ) (label : String) :
    Prog.Emits Call.Draws (drawProgress display percent label) := by
  rw [drawProgress]
  generalize textProgress display percent label = drawing
  exact emits_ite (fun _ => emits_pure _) fun _ =>
    Prog.Emits.bind (draws_perform drawing) fun _ => emits_pure display

theorem draws_halt (message : String) : Prog.Emits Call.Draws (halt display message) := by
  rw [halt]
  generalize textHalt display message = drawing
  exact emits_ite (fun _ => emits_pure ()) fun _ => draws_perform drawing

theorem emits_early (p : Prog Access Access.Answer α) :
    Prog.Emits (fun c => ∃ a, c = .access a) (early p) := by
  induction p with
  | ret a => trivial
  | call a k ih => exact ⟨⟨a, rfl⟩, fun r => ih r⟩

/-- The calls after the history `h` that changed the firmware. -/
def made (h : List Call) : List Call := h.filter Call.isCall

theorem made_look : made (h ++ [.access .systemTable]) = made h := by
  rw [made, filter_append]
  exact append_nil _

theorem events_perform_cons (call : ConsoleCall) (rest : Drawing) :
    (perform (call :: rest)).events fw.env h =
      ⟨.access .systemTable, fw.table (made h)⟩ ::
        if (fw.table (made h)).has call then
          ⟨.access (.service (.console call)), ()⟩ :: (perform rest).events fw.env
            (h ++ [.access .systemTable] ++ [.access (.service (.console call))])
        else (perform rest).events fw.env (h ++ [.access .systemTable]) := by
  rw [perform, events_bind]
  change ⟨_, _⟩ :: (Prog.events fw.env (if (fw.table (made h)).has call then _ else _) _) = _
  congr 1
  split <;> rfl

theorem perform_gone (drawing : Drawing) (hgone : (fw.table (made h)).conOut = false) :
    ∀ e ∈ (perform drawing).events fw.env h, e.1 = .access .systemTable := by
  induction drawing generalizing h with
  | nil => exact fun e he => absurd he not_mem_nil
  | cons call rest ih =>
    have hhas : (fw.table (made h)).has call = false := by
      cases call <;> simp [SystemTable.has, hgone]
    rw [events_perform_cons, hhas, if_neg Bool.false_ne_true]
    refine forall_mem_cons.2 ⟨rfl, ih ?_⟩
    rw [made_look]
    exact hgone

theorem perform_there {drawing : Drawing} (hthere : (fw.table (made h)).conOut = true)
    {text : String} (htext : .outputString text ∈ drawing) :
    ∃ e ∈ (perform drawing).events fw.env h, e.1.isService = true := by
  induction drawing generalizing h with
  | nil => exact absurd htext not_mem_nil
  | cons call rest ih =>
    rw [events_perform_cons]
    by_cases hhas : (fw.table (made h)).has call = true
    · rw [if_pos hhas]
      exact ⟨⟨.access (.service (.console call)), ()⟩, by simp, rfl⟩
    · have hrest : .outputString text ∈ rest := by
        rcases mem_cons.1 htext with heq | hrest
        · rw [← heq] at hhas
          exact absurd hthere hhas
        · exact hrest
      obtain ⟨e, he, hservice⟩ := @ih (h ++ [.access .systemTable])
        (by rw [made_look]; exact hthere) hrest
      rw [if_neg hhas]
      exact ⟨e, mem_cons_of_mem _ he, hservice⟩

theorem run_drawProgress_ready (percent : ℕ) (label : String) :
    ((drawProgress display percent label).run fw.env h).1.ready = display.ready := by
  rw [drawProgress]
  generalize textProgress display percent label = drawing
  split
  · rfl
  · rw [run_bind]
    rfl

theorem drawProgress_quiet_iff (percent : ℕ) (label : String) :
    (∀ e ∈ (drawProgress display percent label).events fw.env h, e.1.isService = false) ↔
      (display.ready = true ∨ (fw.table (made h)).conOut = false) := by
  by_cases hready : display.ready = true
  · rw [drawProgress, if_pos hready]
    exact iff_of_true (fun e he => absurd he not_mem_nil) (.inl hready)
  · have htext : ConsoleCall.outputString "[" ∈ textProgress display percent label := by
      have hactive : display.consoleActive = false := by
        rw [Display.consoleActive, Bool.not_eq_true _ |>.mp hready, Bool.false_and]
      simp [textProgress, print, hactive]
    have hevents : (drawProgress display percent label).events fw.env h =
        (perform (textProgress display percent label)).events fw.env h := by
      rw [drawProgress, if_neg hready]
      generalize textProgress display percent label = drawing
      rw [events_bind]
      exact append_nil _
    rw [hevents]
    generalize textProgress display percent label = drawing at htext
    cases hconsole : (fw.table (made h)).conOut with
    | false =>
      refine iff_of_true (fun e he => ?_) (.inr rfl)
      rw [perform_gone drawing hconsole e he]
      rfl
    | true =>
      refine iff_of_false (fun hall => ?_) fun h => h.elim hready Bool.noConfusion
      obtain ⟨e, he, hservice⟩ := perform_there hconsole htext
      rw [hall e he] at hservice
      exact Bool.noConfusion hservice

/-- An event that is neither an `ExitBootServices` that succeeds nor the kernel. -/
def Event.Plain (e : Event) : Prop := e.exited = false ∧ e.1.isEnter = false

theorem Call.Draws.plain {e : Event} (he : e.1.Draws) : e.Plain ∧ e.1.isMap = false := by
  obtain ⟨c, r⟩ := e
  rcases he with rfl | ⟨call, rfl⟩
  · exact ⟨⟨rfl, rfl⟩, rfl⟩
  · exact ⟨⟨rfl, rfl⟩, rfl⟩

/-- How the events of a hand-off after the history `h` end. -/
inductive Ending (fw : Firmware) (display : Display) (h : List Call) (events : List Event) : Prop
  | stopped (hplain : ∀ e ∈ events, e.Plain)
  | entered (before : List Event) (size : ℕ) (map : MemoryMap) (between : List Event)
      (display' : Display) (h' : List Call) (hready : display'.ready = display.ready)
      (hbefore : ∀ e ∈ before, e.Plain)
      (hbetween : ∀ e ∈ between, e.Plain ∧ e.1.isMap = false)
      (hhistory : h' = h ++
        (before ++ Event.given size map :: (between ++ [Event.exit map.key true])).map Sigma.fst)
      (hevents : events = before ++ Event.given size map :: (between ++ Event.exit map.key true ::
        ((drawProgress display' 100 "entering kernel").events fw.env h' ++
          [Event.enter map.entries])))

theorem Ending.prepend {front events : List Event} (hfront : ∀ e ∈ front, e.Plain)
    (hend : Ending fw display (h ++ front.map Sigma.fst) events) :
    Ending fw display h (front ++ events) := by
  cases hend with
  | stopped hplain => exact .stopped (forall_mem_append.2 ⟨hfront, hplain⟩)
  | entered before size map between display' h' hready hbefore hbetween hhistory hevents =>
    refine .entered (front ++ before) size map between display' h' hready
      (forall_mem_append.2 ⟨hfront, hbefore⟩) hbetween ?_ ?_
    · rw [hhistory, append_assoc h, append_assoc front, @map_append _ _ _ front]
    · rw [hevents, append_assoc]

theorem Ending.ready {display' : Display} {events : List Event}
    (hready : display'.ready = display.ready) (hend : Ending fw display' h events) :
    Ending fw display h events := by
  cases hend with
  | stopped hplain => exact .stopped hplain
  | entered before size map between display'' h' hready' hbefore hbetween hhistory hevents =>
    exact .entered before size map between display'' h' (hready'.trans hready) hbefore hbetween
      hhistory hevents

theorem halt_ending (message : String) :
    Ending fw display h ((halt display message).events fw.env h) :=
  .stopped fun e he => ((draws_halt message).events fw.env h e he).plain.1

theorem events_service (s : Service) (f : s.Answer → BootProg α) :
    (service s >>= f).events fw.env h = ⟨.access (.service s), fw.answer (made h) s⟩ ::
      (f (fw.answer (made h) s)).events fw.env (h ++ [.access (.service s)]) := by
  rw [events_bind]
  rfl

theorem events_exit (key : UInt64) (f : Bool → BootProg α) :
    (exitBootServices key >>= f).events fw.env h = Event.exit key (fw.exits (made h) key) ::
      (f (fw.exits (made h) key)).events fw.env (h ++ [.exitBootServices key]) := by
  rw [events_bind]
  rfl

theorem events_enterKernel (memmap : List MemmapEntry) :
    (enterKernel display memmap).events fw.env h =
      (drawProgress display 100 "entering kernel").events fw.env h ++ [Event.enter memmap] := by
  rw [enterKernel, events_bind]
  rfl

theorem exit_ending {size : ℕ} {map : MemoryMap} {between : List Event} {display' : Display}
    {refused : BootProg Unit} (hready : display'.ready = display.ready)
    (hbetween : ∀ e ∈ between, e.Plain ∧ e.1.isMap = false)
    (hrefused : ∀ h, Ending fw display h (refused.events fw.env h)) :
    Ending fw display h (Event.given size map :: (between ++
      (do match ← exitBootServices map.key with
          | true => enterKernel display' map.entries
          | false => refused).events fw.env
        (h ++ (Event.given size map :: between).map Sigma.fst))) := by
  have hhistory : ∀ ok, h ++ (Event.given size map :: between).map Sigma.fst ++
      [.exitBootServices map.key] =
        h ++ (Event.given size map :: (between ++ [Event.exit map.key ok])).map Sigma.fst := by
    intro ok
    rw [append_assoc, ← cons_append, map_append]
    rfl
  rw [events_exit]
  cases hok : fw.exits (made (h ++ (Event.given size map :: between).map Sigma.fst)) map.key with
  | false =>
    have hplain : ∀ e ∈ Event.given size map :: (between ++ [Event.exit map.key false]),
        e.Plain := by
      refine forall_mem_cons.2 ⟨⟨rfl, rfl⟩, forall_mem_append.2
        ⟨fun e he => (hbetween e he).1, forall_mem_singleton.2 ⟨rfl, rfl⟩⟩⟩
    have hend := @Ending.prepend fw display h _ _ hplain (hrefused _)
    rw [cons_append, append_assoc, singleton_append, ← hhistory] at hend
    exact hend
  | true =>
    refine .entered [] size map between display' _ hready (fun e he => absurd he
      not_mem_nil) hbetween rfl ?_
    rw [nil_append, nil_append, ← hhistory]
    rw [events_enterKernel]

theorem map_ending (missing large : String) {next : MemoryMap → BootProg Unit}
    (hnext : ∀ map, Ending fw display h (Event.given mmapSize map ::
      (next map).events fw.env (h ++ [.access (.service (.getMemoryMap mmapSize))]))) :
    Ending fw display h ((do
      match ← service (.getMemoryMap mmapSize) with
      | none => halt display missing
      | some map =>
        if map.descSize = 0 then pure ()
        else if map.count > memmapMaxEntries then halt display large
        else next map : BootProg Unit).events fw.env h) := by
  rw [events_service]
  cases fw.answer (made h) (.getMemoryMap mmapSize) with
  | none => exact @Ending.prepend fw display h [_] _ (forall_mem_singleton.2 ⟨rfl, rfl⟩) (halt_ending _)
  | some map =>
    have hgiven : ∀ e ∈ [Event.given mmapSize map], e.Plain :=
      forall_mem_singleton.2 ⟨rfl, rfl⟩
    dsimp only
    by_cases hzero : map.descSize = 0
    · rw [if_pos hzero]
      exact .stopped hgiven
    · rw [if_neg hzero]
      by_cases hlarge : map.count > memmapMaxEntries
      · rw [if_pos hlarge]
        exact @Ending.prepend fw display h [_] _ hgiven (halt_ending _)
      · rw [if_neg hlarge]
        exact hnext map

theorem retryExit_ending (h : List Call) :
    Ending fw display h ((retryExit display).events fw.env h) :=
  map_ending _ _ fun map => @exit_ending fw display h mmapSize map [] display _ rfl
    (fun _ he => absurd he not_mem_nil) fun _ => halt_ending _

theorem plain_drawProgress (percent : ℕ) (label : String) :
    ∀ e ∈ (drawProgress display percent label).events fw.env h,
      Event.Plain e ∧ e.1.isMap = false :=
  fun e he => Call.Draws.plain ((draws_drawProgress percent label).events fw.env h e he)

theorem firstExit_ending (h : List Call) :
    Ending fw display h ((firstExit display).events fw.env h) := by
  refine map_ending _ _ fun map => ?_
  rw [events_bind, ← map_fst_events]
  have hready := @run_drawProgress_ready fw display
    (h ++ [.access (.service (.getMemoryMap mmapSize))]) 94 "exiting boot services"
  have hend := @exit_ending fw display h mmapSize map
    ((drawProgress display 94 "exiting boot services").events fw.env
      (h ++ [.access (.service (.getMemoryMap mmapSize))])) _ (retryExit _) hready
    (plain_drawProgress 94 _) (fun h => Ending.ready hready (retryExit_ending h))
  rw [map_cons, append_cons h _ (List.map _ _)] at hend
  exact hend

theorem handOff_ending (display : Display) (h : List Call) :
    Ending fw display h ((handOff display).events fw.env h) := by
  rw [handOff, events_bind, ← map_fst_events]
  refine Ending.prepend (fun e he => (plain_drawProgress 86 _ e he).1) ?_
  have hready := @run_drawProgress_ready fw display h 86 "collecting UEFI memory map"
  generalize ((drawProgress display 86 "collecting UEFI memory map").run fw.env h).1 =
    display₁ at hready ⊢
  generalize h ++ ((drawProgress display 86 "collecting UEFI memory map").events fw.env h).map
    Sigma.fst = h₁
  refine Ending.ready hready ?_
  rw [events_service]
  refine @Ending.prepend fw display₁ h₁ [_] _ (forall_mem_singleton.2 ⟨rfl, rfl⟩) ?_
  cases fw.answer (made h₁) (.allocatePool mmapSize) with
  | none => exact halt_ending _
  | some buffer => exact firstExit_ending _

/-- The events of a run of the boot loader. -/
def bootEvents (fw : Firmware) (prelude : Prog Access Access.Answer (Option Display)) :
    List Event := (efiMain prelude).events fw.env []

/-- In graphics mode, or once the firmware has taken the console from the system table, the
last progress bar calls nothing. -/
def ConsoleEnds (fw : Firmware) (prelude : Prog Access Access.Answer (Option Display)) : Prop :=
  ∀ display, ((early prelude).run fw.env []).1 = some display →
    ∀ front key back, bootEvents fw prelude = front ++ Event.exit key true :: back →
      display.ready = true ∨
        (fw.table (made (front.map Sigma.fst ++ [.exitBootServices key]))).conOut = false

variable {events : List Event}

theorem plain_early {prelude : Prog Access Access.Answer α} :
    ∀ e ∈ (early prelude).events fw.env h, Event.Plain e := by
  intro e he
  obtain ⟨a, ha⟩ := (emits_early prelude).events fw.env h e he
  obtain ⟨c, r⟩ := e
  cases ha
  exact ⟨rfl, rfl⟩

theorem quiet_of_plain (h : ∀ e ∈ events, e.Plain) : Quiet events := by
  apply pairwise_of_forall_mem_list
  intro e he e' _ hexit
  rw [(h e he).1] at hexit
  exact Bool.noConfusion hexit

theorem handedOver_of_plain (h : ∀ e ∈ events, e.Plain) : HandedOver events := by
  intro front memmap back hsplit
  have hplain := (h (Event.enter memmap) (by rw [hsplit]; simp)).2
  exact Bool.noConfusion hplain

theorem quiet_iff {before after : List Event} {key : UInt64}
    (hbefore : ∀ e ∈ before, e.exited = false) (hafter : ∀ e ∈ after, e.exited = false) :
    Quiet (before ++ Event.exit key true :: after) ↔ ∀ e ∈ after, e.1.isService = false := by
  have hpairs : ∀ {events : List Event}, (∀ e ∈ events, Event.exited e = false) →
      events.Pairwise fun e e' => e.exited = true → e'.1.isService = false := by
    intro events hevents
    apply pairwise_of_forall_mem_list
    intro e he e' _ hexit
    rw [hevents e he] at hexit
    exact Bool.noConfusion hexit
  rw [Quiet, pairwise_append, pairwise_cons]
  constructor
  · intro h e he
    exact h.2.1.1 e he rfl
  · intro h
    refine ⟨hpairs hbefore, ⟨fun e he _ => h e he, hpairs hafter⟩, fun e he e' _ hexit => ?_⟩
    rw [hbefore e he] at hexit
    exact Bool.noConfusion hexit

theorem Ending.handedOver (hend : Ending fw display h events) : HandedOver events := by
  cases hend with
  | stopped hplain => exact handedOver_of_plain hplain
  | entered before size map between display' h' hready hbefore hbetween hhistory hevents =>
    intro front memmap back hsplit
    have hdraws := @plain_drawProgress fw display' h' 100 "entering kernel"
    generalize (drawProgress display' 100 "entering kernel").events fw.env h' = draws
      at hevents hdraws
    have hlast : events = (before ++ Event.given size map ::
        (between ++ Event.exit map.key true :: draws)) ++ Event.enter map.entries :: [] := by
      rw [hevents]
      simp
    have hnone : ∀ e ∈ before ++ Event.given size map ::
        (between ++ Event.exit map.key true :: draws), e.1.isEnter = false := by
      refine forall_mem_append.2 ⟨fun e he => (hbefore e he).2,
        forall_mem_cons.2 ⟨rfl, forall_mem_append.2 ⟨fun e he => (hbetween e he).1.2,
          forall_mem_cons.2 ⟨rfl, fun e he => (hdraws e he).1.2⟩⟩⟩⟩
    rw [hlast] at hsplit
    obtain ⟨hfront, hmemmap, -⟩ := @Collect.split_unique Event (fun e => e.1.isEnter) _ _ [] _ _
      _ hnone (fun e he => absurd he not_mem_nil) rfl hsplit
    refine ⟨before, size, map, between, draws, hfront, ?_, ?_⟩
    · exact forall_mem_append.2 ⟨fun e he => (hbetween e he).2, fun e he => (hdraws e he).2⟩
    · cases hmemmap
      rfl

theorem Ending.quiet_iff (hend : Ending fw display h events) :
    Quiet events ↔ ∀ front key back, events = front ++ Event.exit key true :: back →
      display.ready = true ∨
        (fw.table (made (h ++ front.map Sigma.fst ++ [.exitBootServices key]))).conOut =
          false := by
  cases hend with
  | stopped hplain =>
    refine iff_of_true (quiet_of_plain hplain) fun front key back hsplit => ?_
    have hno := (hplain (Event.exit key true) (by rw [hsplit]; simp)).1
    exact Bool.noConfusion hno
  | entered before size map between display' h' hready hbefore hbetween hhistory hevents =>
    have hdraws := @plain_drawProgress fw display' h' 100 "entering kernel"
    have hquiet := @drawProgress_quiet_iff fw display' h' 100 "entering kernel"
    generalize (drawProgress display' 100 "entering kernel").events fw.env h' = draws
      at hevents hdraws hquiet
    have hexit : events = (before ++ Event.given size map :: between) ++
        Event.exit map.key true :: (draws ++ [Event.enter map.entries]) := by
      rw [hevents]
      simp
    have hpre : ∀ e ∈ before ++ Event.given size map :: between, Event.exited e = false :=
      forall_mem_append.2 ⟨fun e he => (hbefore e he).1,
        forall_mem_cons.2 ⟨rfl, fun e he => (hbetween e he).1.1⟩⟩
    have hpost : ∀ e ∈ draws ++ [Event.enter map.entries], Event.exited e = false :=
      forall_mem_append.2 ⟨fun e he => (hdraws e he).1.1,
        forall_mem_singleton.2 rfl⟩
    have hlast : (∀ e ∈ draws ++ [Event.enter map.entries], e.1.isService = false) ↔
        ∀ e ∈ draws, e.1.isService = false := by
      rw [forall_mem_append]
      exact and_iff_left (forall_mem_singleton.2 rfl)
    have hh' : h' = h ++ (before ++ Event.given size map :: between).map Sigma.fst ++
        [.exitBootServices map.key] := by
      rw [hhistory]
      simp
    rw [hexit, Boot.quiet_iff hpre hpost, hlast, hquiet, hready, hh']
    constructor
    · intro hcond front key back hsplit
      obtain ⟨hfront, hkey, -⟩ := @Collect.split_unique Event Event.exited _ _ _ _ _
        _ hpre hpost rfl hsplit
      cases hkey
      rw [hfront]
      exact hcond
    · intro hall
      exact hall _ _ _ rfl

/-- A run of the boot loader keeps to the protocol just if its last progress bar does not go
through the console. -/
theorem efiMain_protocol_iff (fw : Firmware)
    (prelude : Prog Access Access.Answer (Option Display)) :
    (Quiet (bootEvents fw prelude) ∧ HandedOver (bootEvents fw prelude)) ↔
      ConsoleEnds fw prelude := by
  have hevents : bootEvents fw prelude = (early prelude).events fw.env [] ++
      (((early prelude).run fw.env []).1.elim (pure ()) handOff).events fw.env
        ([] ++ ((early prelude).events fw.env []).map Sigma.fst) := by
    rw [map_fst_events]
    refine (events_bind fw.env [] (early prelude) _).trans ?_
    cases ((early prelude).run fw.env []).1 <;> rfl
  rw [ConsoleEnds]
  cases hdisplay : ((early prelude).run fw.env []).1 with
  | none =>
    rw [hdisplay] at hevents
    have hplain : ∀ e ∈ bootEvents fw prelude, Event.Plain e := by
      rw [hevents]
      exact forall_mem_append.2 ⟨plain_early, fun e he => absurd he not_mem_nil⟩
    exact iff_of_true ⟨quiet_of_plain hplain, handedOver_of_plain hplain⟩
      fun display h => absurd h (by simp)
  | some display =>
    rw [hdisplay] at hevents
    have hend : Ending fw display [] (bootEvents fw prelude) := by
      rw [hevents]
      exact Ending.prepend plain_early (handOff_ending display _)
    rw [hend.quiet_iff, and_iff_left hend.handedOver]
    constructor
    · intro h display' heq
      cases heq
      exact h
    · intro h
      exact h display rfl

/-- Firmware that grants everything and keeps its console. -/
def lenient : Firmware where
  answer := fun _ s => match s with
    | .console _ => ()
    | .allocatePool _ => some 0
    | .getMemoryMap _ => some ⟨0, 7, 48, fun _ => 0⟩
    | .other n => n
  exits := fun _ _ => true
  table := fun _ => ⟨true, true, true, true⟩

theorem lenient_not_quiet : ¬ ∀ (fw : Firmware)
    (prelude : Prog Access Access.Answer (Option Display)),
    Quiet (bootEvents fw prelude) ∧ HandedOver (bootEvents fw prelude) := by
  intro h
  have hquiet := (h lenient (.ret (some ⟨false, false⟩))).1
  rw [Quiet] at hquiet
  revert hquiet
  decide +kernel

end Cleonos.Boot
