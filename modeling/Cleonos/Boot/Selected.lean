import Cleonos.Boot.Menu

/-!
# Selecting an entry is safe

Whatever is typed, and however often nothing is: an entry of the table is selected, every
command line ends in its buffer with the cursor inside it, only entries that were opened for
editing are edited, and the entry that is booted is the one that Enter was pressed on, or the
default one when the menu heeded no key until the countdown ended.
-/

namespace Cleonos.Boot.Select

open List
open Buffer (slice store moveUp moveDown)

variable {s s' : State} {f : ℕ → UInt8} {n cursor : ℕ} {key : InputKey}

/-! ## The string in a buffer -/

/-- The string in the buffer has `n` bytes. -/
structure EndsAt (f : ℕ → UInt8) (n : ℕ) : Prop where
  lt : n < menuCmdlineMax
  nul : f n = 0
  ne : ∀ i < n, f i ≠ 0

/-- The buffer holds a string. -/
def Ended (f : ℕ → UInt8) : Prop := ∃ n, EndsAt f n

theorem EndsAt.strlen (h : EndsAt f n) : strlen f = n := by
  have hcells : slice f 0 menuCmdlineMax = slice f 0 n ++ slice f n (menuCmdlineMax - n) := by
    have hsum : menuCmdlineMax = n + (menuCmdlineMax - n) := (Nat.add_sub_of_le h.lt.le).symm
    conv_lhs => rw [hsum, Buffer.slice_add, Nat.zero_add]
  have hrest : slice f n (menuCmdlineMax - n) = 0 :: slice f (n + 1) (menuCmdlineMax - n - 1) := by
    have hsum : menuCmdlineMax - n = 1 + (menuCmdlineMax - n - 1) := by
      have := h.lt
      omega
    conv_lhs => rw [hsum, Buffer.slice_add, Buffer.slice_one, h.nul]
    rfl
  have hfirst : (0 : UInt8) ∉ slice f 0 n := by
    intro hmem
    rw [slice, mem_map] at hmem
    obtain ⟨i, hi, hzero⟩ := hmem
    exact h.ne i (by simpa using hi) hzero
  have hstring : cstr (slice f 0 menuCmdlineMax) = slice f 0 n := by
    rw [hcells, hrest]
    exact (cstr_append_nul _ _).trans (cstr_of_notMem hfirst)
  rw [Select.strlen, hstring, Buffer.length_slice]

theorem Ended.endsAt (h : Ended f) : EndsAt f (strlen f) := by
  obtain ⟨n, hn⟩ := h
  rwa [hn.strlen]

/-- A text that is a string in a buffer of a command line. -/
structure Fits (text : List UInt8) : Prop where
  lt : text.length < menuCmdlineMax
  notMem : (0 : UInt8) ∉ text

theorem fits_copyN (text : List UInt8) : Fits (copyN menuCmdlineMax text) := by
  constructor
  · rw [copyN, length_take]
    exact (Nat.min_le_left _ _).trans_lt (by decide)
  · intro hmem
    exact notMem_cstr text (mem_of_mem_take hmem)

theorem endsAt_store {text : List UInt8} (h : Fits text) :
    EndsAt (store f 0 (text ++ [0])) text.length := by
  have hcell : ∀ i ≤ text.length, (text ++ [0])[i]? = some (store f 0 (text ++ [0]) i) := by
    intro i hi
    exact Buffer.eq_of_slice_eq (Buffer.slice_store_self f (text ++ [0]))
      (by simpa using Nat.lt_succ_of_le hi)
  refine ⟨h.lt, ?_, ?_⟩
  · have hlast := hcell _ le_rfl
    rw [List.getElem?_concat_length] at hlast
    exact (Option.some.inj hlast).symm
  · intro i hi hzero
    have hi' := hcell i hi.le
    rw [hzero, List.getElem?_append_left hi] at hi'
    exact h.notMem (mem_of_getElem? hi')

theorem EndsAt.fits (h : EndsAt f n) : Fits (cstr (slice f 0 menuCmdlineMax)) := by
  refine ⟨?_, notMem_cstr _⟩
  exact h.strlen.trans_lt h.lt

theorem endsAt_delete (h : EndsAt f n) (hpos : 0 < cursor) (hle : cursor ≤ n) :
    EndsAt (moveUp f (cursor - 1) cursor (n - (cursor - 1))) (n - 1) := by
  have hmoved : ∀ i, cursor - 1 ≤ i → i ≤ n - 1 →
      moveUp f (cursor - 1) cursor (n - (cursor - 1)) i = f (i + 1) := by
    intro i hlo hhi
    have hcell : moveUp f (cursor - 1) cursor (n - (cursor - 1)) (cursor - 1 + (i - (cursor - 1))) =
        f (cursor + (i - (cursor - 1))) := Buffer.moveUp_of_le (by omega) (by omega)
    rw [show cursor - 1 + (i - (cursor - 1)) = i by omega,
      show cursor + (i - (cursor - 1)) = i + 1 by omega] at hcell
    exact hcell
  refine ⟨(Nat.sub_le n 1).trans_lt h.lt, ?_, ?_⟩
  · rw [hmoved (n - 1) (by omega) le_rfl, Nat.sub_add_cancel (by omega)]
    exact h.nul
  · intro i hi
    by_cases hlo : i < cursor - 1
    · rw [Buffer.moveUp_of_lt hlo]
      exact h.ne i (by omega)
    · rw [hmoved i (by omega) (by omega)]
      exact h.ne (i + 1) (by omega)

theorem endsAt_insert {c : UInt8} (h : EndsAt f n) (hle : cursor ≤ n)
    (hroom : n + 1 < menuCmdlineMax) (hc : c ≠ 0) :
    EndsAt (Function.update (moveDown f (cursor + 1) cursor (n + 1 - cursor)) cursor c) (n + 1) := by
  refine ⟨hroom, ?_, ?_⟩
  · rw [Function.update_of_ne (by omega), Buffer.moveDown_apply (Nat.le_succ cursor),
      if_pos (by omega), show cursor + (n + 1 - (cursor + 1)) = n by omega]
    exact h.nul
  · intro i hi
    by_cases hat : i = cursor
    · rw [hat, Function.update_self]
      exact hc
    · rw [Function.update_of_ne hat, Buffer.moveDown_apply (Nat.le_succ cursor)]
      split
      · exact h.ne _ (by omega)
      · exact h.ne i (by omega)

theorem toUInt8_ne_zero {ch : UInt16} (hlo : 32 ≤ ch) (hhi : ch < 127) : ch.toUInt8 ≠ 0 := by
  intro hzero
  have hnat := congrArg UInt8.toNat hzero
  rw [UInt16.toNat_toUInt8] at hnat
  have hlo' : 32 ≤ ch.toNat := UInt16.le_iff_toNat_le.1 hlo
  have hhi' : ch.toNat < 127 := UInt16.lt_iff_toNat_lt.1 hhi
  have hz : (0 : UInt8).toNat = 0 := rfl
  omega

variable {original : List UInt8}

theorem editKey_ended (key : InputKey) (h : Ended f) (hfits : Fits original)
    (hcursor : cursor ≤ strlen f) : Ended (editKey original key f cursor).1 ∧
      ∀ c, (editKey original key f cursor).2 = some c →
        c ≤ strlen (editKey original key f cursor).1 := by
  have hend := h.endsAt
  unfold editKey
  dsimp only
  split
  · exact ⟨h, by simp⟩
  split
  · exact ⟨⟨_, endsAt_store hfits⟩, by simp⟩
  split
  · split
    · next hpos =>
      have hdel := endsAt_delete hend hpos hcursor
      refine ⟨⟨_, hdel⟩, ?_⟩
      intro c hc
      rw [hdel.strlen]
      cases hc
      omega
    · refine ⟨h, ?_⟩
      intro c hc
      cases hc
      exact hcursor
  split
  · next hchar =>
    split
    · next hroom =>
      have hins := endsAt_insert hend hcursor hroom (toUInt8_ne_zero hchar.1 hchar.2)
      refine ⟨⟨_, hins⟩, ?_⟩
      intro c hc
      rw [hins.strlen]
      cases hc
      omega
    · refine ⟨h, ?_⟩
      intro c hc
      cases hc
      exact hcursor
  split
  · refine ⟨h, ?_⟩
    intro c hc
    cases hc
    dsimp only
    split <;> omega
  split
  · refine ⟨h, ?_⟩
    intro c hc
    cases hc
    dsimp only
    split <;> omega
  · refine ⟨h, ?_⟩
    intro c hc
    cases hc
    exact hcursor

theorem editKey_outside (key : InputKey) (h : Ended f) (hfits : Fits original)
    (hcursor : cursor ≤ strlen f) {j : ℕ} (hj : menuCmdlineMax ≤ j) :
    (editKey original key f cursor).1 j = f j := by
  have hlt := h.endsAt.lt
  unfold editKey
  dsimp only
  split
  · rfl
  split
  · change store f 0 (original ++ [0]) j = f j
    apply Buffer.store_of_ge
    rw [length_append, length_singleton, Nat.zero_add]
    exact (Nat.succ_le_of_lt hfits.lt).trans hj
  split
  · split
    · exact Buffer.moveUp_of_ge (by omega)
    · rfl
  split
  · split
    · refine (Function.update_of_ne (by omega) _ _).trans ?_
      rw [Buffer.moveDown_apply (Nat.le_succ cursor), if_neg (by omega)]
    · rfl
  split
  · rfl
  split <;> rfl

@[simp] theorem rows_endRound (s : State) : (endRound s).rows = s.rows := by
  unfold endRound
  split_ifs <;> rfl

@[simp] theorem selected_endRound (s : State) : (endRound s).selected = s.selected := by
  unfold endRound
  split_ifs <;> rfl

@[simp] theorem countdownActive_endRound (s : State) :
    (endRound s).countdownActive = s.countdownActive := by
  unfold endRound
  split_ifs <;> rfl

theorem screen_endRound (s : State) :
    (endRound s).screen = .menu ∨ (endRound s).screen = .chosen ∧ s.countdownActive = true := by
  unfold endRound
  split_ifs with hticks hactive hleft
  · exact .inl rfl
  · exact .inr ⟨rfl, hactive⟩
  · exact .inl rfl
  · exact .inl rfl

/-- A screen that is left by a key for the menu, without a choice. -/
def Screen.isPause : Screen → Bool
  | .start | .wait _ | .shell _ _ => true
  | _ => false

/-- The menu, or a screen that returns to it. -/
def Screen.Passing (screen : Screen) : Prop := screen = .menu ∨ screen.isPause = true

theorem Screen.Passing.ne_chosen {screen : Screen} (h : screen.Passing) : screen ≠ .chosen := by
  rintro rfl
  obtain h | h := h <;> cases h

theorem Screen.Passing.ne_editor {screen : Screen} (h : screen.Passing) (original : List UInt8)
    (cursor : ℕ) : screen ≠ .editor original cursor := by
  rintro rfl
  obtain h | h := h <;> cases h

/-- What a poll can do. -/
inductive Effect (s : State) (key : Option InputKey) : State → Prop
  | nothing (h : s.screen ≠ .menu) : Effect s key s
  | drop (screen : Screen) (h : s.screen.isPause = true) (hto : screen.Passing) :
      Effect s key { s with screen := screen }
  | round (h : s.screen.Passing)
      (hkey : s.screen = .menu → ∀ k ∈ key, keyAction s.rows.length s.selected k = none) :
      Effect s key (endRound s)
  | boot (k : InputKey) (h : s.screen = .menu) (hkey : key = some k)
      (haction : keyAction s.rows.length s.selected k = some .boot) :
      Effect s key { s with screen := .chosen }
  | leave (k : InputKey) (a : Action) (screen : Screen) (h : s.screen = .menu) (hkey : key = some k)
      (haction : keyAction s.rows.length s.selected k = some a) (hto : screen.isPause = true) :
      Effect s key { s with countdownActive := false, screen := screen }
  | edit (k : InputKey) (h : s.screen = .menu) (hkey : key = some k)
      (haction : keyAction s.rows.length s.selected k = some .edit) :
      Effect s key
        { s with
          countdownActive := false
          screen := .editor (cstr (slice s.cmdline 0 menuCmdlineMax)) (strlen s.cmdline) }
  | select (k : InputKey) (next : ℕ) (h : s.screen = .menu) (hkey : key = some k)
      (haction : keyAction s.rows.length s.selected k = some (.select next)) :
      Effect s key (endRound { s with countdownActive := false, selected := next })
  | type (original : List UInt8) (cursor : ℕ) (k : InputKey)
      (h : s.screen = .editor original cursor) (hkey : key = some k) :
      Effect s key (editorKey s original cursor k)

theorem effect_menuKey (h : s.screen = .menu) (k : InputKey) :
    Effect s (some k) (menuKey s k) := by
  unfold menuKey
  cases haction : keyAction s.rows.length s.selected k with
  | none =>
    refine .round (.inl h) ?_
    intro _ k' hk'
    rwa [← Option.mem_some.1 hk']
  | some action =>
    cases action with
    | boot =>
      dsimp only
      split
      · exact .boot k h rfl haction
      · exact .leave k _ _ h rfl haction rfl
    | edit => exact .edit k h rfl haction
    | preview => exact .leave k _ _ h rfl haction rfl
    | info => exact .leave k _ _ h rfl haction rfl
    | shell => exact .leave k _ _ h rfl haction rfl
    | select next => exact .select k next h rfl haction

theorem effect_poll (s : State) (key : Option InputKey) : Effect s key (poll s key) := by
  have hround : s.screen.isPause = true → Effect s key (endRound s) := by
    intro h
    refine .round (.inr h) ?_
    intro hmenu
    rw [hmenu] at h
    cases h
  have hpause : s.screen.isPause = true → Effect s key s := by
    intro h
    refine .nothing ?_
    intro hmenu
    rw [hmenu] at h
    cases h
  have hdrop : ∀ screen : Screen, s.screen.isPause = true → screen.Passing →
      Effect s key { s with screen := screen } := by
    intro screen h hto
    exact .drop screen h hto
  unfold poll
  cases hscreen : s.screen with
  | start =>
    have h : s.screen.isPause = true := by rw [hscreen]; rfl
    cases key with
    | none => exact hdrop .menu h (.inl rfl)
    | some k => exact hpause h
  | menu =>
    cases key with
    | none => exact .round (.inl hscreen) (by simp)
    | some k => exact effect_menuKey hscreen k
  | editor original cursor =>
    cases key with
    | none => exact .nothing (by rw [hscreen]; simp)
    | some k => exact .type original cursor k hscreen rfl
  | wait drained =>
    have h : s.screen.isPause = true := by rw [hscreen]; rfl
    cases drained <;> cases key
    · exact hdrop (.wait true) h (.inr rfl)
    · exact hpause h
    · exact hpause h
    · exact hround h
  | shell drained line =>
    have h : s.screen.isPause = true := by rw [hscreen]; rfl
    cases drained <;> cases key
    · exact hdrop (.shell true line) h (.inr rfl)
    · exact hpause h
    · exact hpause h
    · dsimp only
      split
      · exact hdrop _ h (.inr rfl)
      split
      · exact hround h
      · exact hdrop (.shell true []) h (.inr rfl)
  | chosen => exact .nothing (by rw [hscreen]; simp)

theorem poll_chosen (h : s.screen = .chosen) (key : Option InputKey) : poll s key = s := by
  unfold poll
  rw [h]

/-! ## The invariant of the table -/

/-- An entry is selected, the command lines are strings in their buffers, and the cursor of the
editor is in one. -/
structure Ok (s : State) : Prop where
  selected : s.selected < s.rows.length
  ended : ∀ row ∈ s.rows, Ended row.cmdline
  editor : ∀ original cursor, s.screen = .editor original cursor →
    Fits original ∧ cursor ≤ strlen s.cmdline

theorem Ok.row (h : Ok s) :
    ∃ row, s.rows[s.selected]? = some row ∧ s.cmdline = row.cmdline ∧ Ended s.cmdline := by
  have hrow := List.getElem?_eq_getElem h.selected
  have hcmdline : s.cmdline = (s.rows.get ⟨s.selected, h.selected⟩).cmdline := by
    rw [State.cmdline, hrow]
    rfl
  exact ⟨_, hrow, hcmdline, hcmdline ▸ h.ended _ (getElem_mem h.selected)⟩

theorem Ok.of_rows (h : Ok s) (hrows : s'.rows = s.rows) (hselected : s'.selected < s.rows.length)
    (hscreen : ∀ original cursor, s'.screen ≠ .editor original cursor) : Ok s' := by
  refine ⟨hrows ▸ hselected, hrows ▸ h.ended, ?_⟩
  intro original cursor heditor
  exact absurd heditor (hscreen original cursor)

theorem endRound_ne_editor (s : State) (original : List UInt8) (cursor : ℕ) :
    (endRound s).screen ≠ .editor original cursor := by
  obtain h | ⟨h, -⟩ := screen_endRound s <;> rw [h] <;> simp

theorem keyAction_select_lt {count selected next : ℕ} (hlt : selected < count)
    (h : keyAction count selected key = some (.select next)) : next < count := by
  simp only [keyAction] at h
  -- boot, edit, preview, info and shell
  iterate 5
    split at h
    · simp at h
  split at h
  · split at h
    · simp at h
    · rw [Option.some.injEq, Action.select.injEq] at h
      omega
  split at h
  · rw [Option.some.injEq, Action.select.injEq] at h
    split at h <;> omega
  split at h
  · rw [Option.some.injEq, Action.select.injEq] at h
    split at h <;> omega
  split at h
  · rw [Option.some.injEq, Action.select.injEq] at h
    split at h <;> omega
  split at h
  · rw [Option.some.injEq, Action.select.injEq] at h
    exact h ▸ Nat.mod_lt _ (by omega)
  · simp at h

theorem isEnter_of_boot {count selected : ℕ} (h : keyAction count selected key = some .boot) :
    key.isEnter = true := by
  by_contra henter
  simp only [keyAction, if_neg henter] at h
  repeat' split at h
  all_goals simp at h

@[simp] theorem selected_editorKey (s : State) (original : List UInt8) (cursor : ℕ)
    (k : InputKey) : (editorKey s original cursor k).selected = s.selected := by
  unfold editorKey
  dsimp only
  split <;> simp

@[simp] theorem countdownActive_editorKey (s : State) (original : List UInt8) (cursor : ℕ)
    (k : InputKey) : (editorKey s original cursor k).countdownActive = s.countdownActive := by
  unfold editorKey
  dsimp only
  split <;> simp

@[simp] theorem rows_editorKey (s : State) (original : List UInt8) (cursor : ℕ) (k : InputKey) :
    (editorKey s original cursor k).rows = s.rows.modify s.selected fun row =>
      { row with cmdline := (editKey original k s.cmdline cursor).1 } := by
  unfold editorKey
  dsimp only
  split <;> simp

theorem screen_editorKey (s : State) (original : List UInt8) (cursor : ℕ) (k : InputKey) :
    (∃ c, (editKey original k s.cmdline cursor).2 = some c ∧
      (editorKey s original cursor k).screen = .editor original c) ∨
    (editorKey s original cursor k).screen = .menu ∨
    (editorKey s original cursor k).screen = .chosen ∧ s.countdownActive = true := by
  unfold editorKey
  dsimp only
  split
  · next c hc => exact .inl ⟨c, hc, rfl⟩
  · exact .inr (screen_endRound _)

theorem Ok.editorKey {original : List UInt8} (h : Ok s) (hscreen : s.screen = .editor original cursor)
    (k : InputKey) : Ok (editorKey s original cursor k) := by
  obtain ⟨row, hrow, -, hended⟩ := h.row
  obtain ⟨hfits, hcursor⟩ := h.editor original cursor hscreen
  obtain ⟨hended', hcursor'⟩ := editKey_ended k hended hfits hcursor
  have hedited : (Select.editorKey s original cursor k).cmdline =
      (editKey original k s.cmdline cursor).1 := by
    rw [State.cmdline, rows_editorKey, selected_editorKey, List.getElem?_modify_eq, hrow]
    rfl
  refine ⟨?_, ?_, ?_⟩
  · rw [rows_editorKey, selected_editorKey, length_modify]
    exact h.selected
  · intro row' hmem
    rw [rows_editorKey] at hmem
    obtain ⟨i, hi⟩ := mem_iff_getElem?.1 hmem
    rw [List.getElem?_modify] at hi
    split at hi
    · obtain ⟨before, -, rfl⟩ := Option.map_eq_some_iff.1 hi
      exact hended'
    · rw [Option.map_eq_map, Option.map_id'] at hi
      exact h.ended _ (mem_of_getElem? hi)
  · intro original' cursor' heditor
    obtain ⟨c, hc, hscreen'⟩ | hscreen' | ⟨hscreen', -⟩ := screen_editorKey s original cursor k
    · rw [hscreen'] at heditor
      cases heditor
      exact ⟨hfits, hedited ▸ hcursor' _ hc⟩
    · rw [hscreen'] at heditor
      cases heditor
    · rw [hscreen'] at heditor
      cases heditor

theorem Ok.poll (h : Ok s) (key : Option InputKey) : Ok (poll s key) := by
  generalize hs' : Select.poll s key = s'
  have heffect := hs' ▸ effect_poll s key
  cases heffect with
  | nothing => exact h
  | drop screen _ hto => exact h.of_rows rfl h.selected hto.ne_editor
  | round => exact h.of_rows (rows_endRound s) (by simpa using h.selected) (endRound_ne_editor s)
  | boot => exact h.of_rows rfl h.selected (by simp)
  | leave _ _ screen _ _ _ hto => exact h.of_rows rfl h.selected (Screen.Passing.ne_editor (.inr hto))
  | edit =>
    obtain ⟨-, -, -, hended⟩ := h.row
    refine ⟨h.selected, h.ended, ?_⟩
    intro original cursor heditor
    cases heditor
    exact ⟨hended.endsAt.fits, le_rfl⟩
  | select k next _ _ haction =>
    refine h.of_rows (rows_endRound _) ?_ (endRound_ne_editor _)
    rw [selected_endRound]
    exact keyAction_select_lt h.selected haction
  | type original cursor k hscreen => exact h.editorKey hscreen k

variable {s₀ : State} {keys : List (Option InputKey)} {a : Action} {i : ℕ}

theorem polls_concat (s : State) (keys : List (Option InputKey)) (key : Option InputKey) :
    polls s (keys ++ [key]) = poll (polls s keys) key := by
  rw [polls, foldl_concat, ← polls]

theorem Ok.polls (h : Ok s) (keys : List (Option InputKey)) : Ok (polls s keys) := by
  induction keys generalizing s with
  | nil => exact h
  | cons key keys ih => exact ih (h.poll key)

/-- In a run, a key did something in the menu with entry `i` selected. -/
def Pressed (s₀ : State) (keys : List (Option InputKey)) (a : Action) (i : ℕ) : Prop :=
  ∃ front key back, keys = front ++ some key :: back ∧ (polls s₀ front).screen = .menu ∧
    keyAction (polls s₀ front).rows.length (polls s₀ front).selected key = some a ∧
    (polls s₀ front).selected = i

/-- In a run, no key did anything in the menu. -/
def Quiet (s₀ : State) (keys : List (Option InputKey)) : Prop := ∀ a i, ¬ Pressed s₀ keys a i

theorem Pressed.append (h : Pressed s₀ keys a i) (more : List (Option InputKey)) :
    Pressed s₀ (keys ++ more) a i := by
  obtain ⟨front, key, back, rfl, hmenu⟩ := h
  exact ⟨front, key, back ++ more, by simp, hmenu⟩

theorem pressed_concat {k : InputKey} (hmenu : (polls s₀ keys).screen = .menu)
    (haction : keyAction (polls s₀ keys).rows.length (polls s₀ keys).selected k = some a) :
    Pressed s₀ (keys ++ [some k]) a (polls s₀ keys).selected :=
  ⟨keys, k, [], rfl, hmenu, haction, rfl⟩

theorem Quiet.concat {key : Option InputKey} (h : Quiet s₀ keys)
    (hkey : (polls s₀ keys).screen = .menu → ∀ k ∈ key,
      keyAction (polls s₀ keys).rows.length (polls s₀ keys).selected k = none) :
    Quiet s₀ (keys ++ [key]) := by
  rintro a i ⟨front, k, back, hkeys, hmenu, haction, hselected⟩
  obtain rfl | ⟨back, last, rfl⟩ := eq_nil_or_concat back
  · obtain ⟨rfl, hlast⟩ := append_inj' hkeys rfl
    obtain rfl := singleton_inj.1 hlast
    rw [hkey hmenu k rfl] at haction
    cases haction
  · rw [concat_eq_append, ← cons_append, ← append_assoc] at hkeys
    obtain ⟨rfl, -⟩ := append_inj' hkeys rfl
    exact h a i ⟨front, k, back, rfl, hmenu, haction, hselected⟩

/-- What the countdown and the choice tell about the run. -/
structure Chosen (s₀ : State) (keys : List (Option InputKey)) : Prop where
  countdown : (polls s₀ keys).screen ≠ .chosen → (polls s₀ keys).countdownActive = true →
    Quiet s₀ keys ∧ (polls s₀ keys).selected = s₀.selected
  chosen : (polls s₀ keys).screen = .chosen →
    Pressed s₀ keys .boot (polls s₀ keys).selected ∨
      Quiet s₀ keys ∧ (polls s₀ keys).selected = s₀.selected

theorem Chosen.pass (h : Chosen s₀ keys) {key : Option InputKey}
    (hopen : (polls s₀ keys).screen ≠ .chosen)
    (hkey : (polls s₀ keys).screen = .menu → ∀ k ∈ key,
      keyAction (polls s₀ keys).rows.length (polls s₀ keys).selected k = none)
    (hactive : (poll (polls s₀ keys) key).countdownActive = (polls s₀ keys).countdownActive)
    (hselected : (poll (polls s₀ keys) key).selected = (polls s₀ keys).selected)
    (hscreen : (poll (polls s₀ keys) key).screen = .chosen →
      (polls s₀ keys).countdownActive = true) :
    Chosen s₀ (keys ++ [key]) := by
  have hquiet : (polls s₀ keys).countdownActive = true → Quiet s₀ (keys ++ [key]) ∧
      (poll (polls s₀ keys) key).selected = s₀.selected := by
    intro hcountdown
    obtain ⟨hquiet, hdefault⟩ := h.countdown hopen hcountdown
    exact ⟨hquiet.concat hkey, hselected.trans hdefault⟩
  constructor
  · intro _ hcountdown
    rw [polls_concat] at hcountdown ⊢
    exact hquiet (hactive ▸ hcountdown)
  · intro hchosen
    rw [polls_concat] at hchosen ⊢
    exact .inr (hquiet (hscreen hchosen))

theorem Chosen.stop {key : Option InputKey}
    (hactive : (poll (polls s₀ keys) key).countdownActive = false)
    (hscreen : (poll (polls s₀ keys) key).screen ≠ .chosen) : Chosen s₀ (keys ++ [key]) := by
  constructor
  · intro _ hcountdown
    rw [polls_concat, hactive] at hcountdown
    cases hcountdown
  · intro hchosen
    rw [polls_concat] at hchosen
    exact absurd hchosen hscreen

theorem Chosen.concat (h : Chosen s₀ keys) (key : Option InputKey) : Chosen s₀ (keys ++ [key]) := by
  have heffect := effect_poll (polls s₀ keys) key
  by_cases hopen : (polls s₀ keys).screen = .chosen
  · have hsame := poll_chosen hopen key
    have hkey : (polls s₀ keys).screen = .menu → ∀ k ∈ key,
        keyAction (polls s₀ keys).rows.length (polls s₀ keys).selected k = none := by
      intro hmenu
      rw [hopen] at hmenu
      cases hmenu
    constructor
    · intro hnot
      rw [polls_concat, hsame] at hnot
      exact absurd hopen hnot
    · intro _
      rw [polls_concat, hsame]
      exact (h.chosen hopen).imp (fun hpressed => hpressed.append _)
        fun hquiet => ⟨hquiet.1.concat hkey, hquiet.2⟩
  generalize hs' : poll (polls s₀ keys) key = s' at heffect
  cases heffect with
  | nothing hmenu =>
    refine h.pass hopen (fun h => absurd h hmenu) (by rw [hs']) (by rw [hs']) ?_
    intro hchosen
    exact absurd (hs' ▸ hchosen) hopen
  | drop screen hpause hto =>
    refine h.pass hopen ?_ (by rw [hs']) (by rw [hs']) ?_
    · intro hmenu
      rw [hmenu] at hpause
      cases hpause
    · intro hchosen
      rw [hs'] at hchosen
      exact absurd hchosen hto.ne_chosen
  | round _ hkey =>
    refine h.pass hopen hkey (by rw [hs', countdownActive_endRound])
      (by rw [hs', selected_endRound]) ?_
    intro hchosen
    rw [hs'] at hchosen
    obtain hmenu | ⟨-, hactive⟩ := screen_endRound (polls s₀ keys)
    · rw [hmenu] at hchosen
      cases hchosen
    · exact hactive
  | boot k hmenu hkey haction =>
    constructor
    · intro hnot
      rw [polls_concat, hs'] at hnot
      exact absurd rfl hnot
    · intro _
      rw [polls_concat, hs', hkey]
      exact .inl (pressed_concat hmenu haction)
  | leave _ _ screen _ _ _ hto =>
    exact Chosen.stop (by rw [hs']) (by rw [hs']; exact Screen.Passing.ne_chosen (.inr hto))
  | edit => exact Chosen.stop (by rw [hs']) (by rw [hs']; simp)
  | select k next =>
    refine Chosen.stop (by rw [hs', countdownActive_endRound]) ?_
    rw [hs']
    obtain hmenu | ⟨-, hactive⟩ := screen_endRound
      { polls s₀ keys with countdownActive := false, selected := next }
    · rw [hmenu]
      simp
    · cases hactive
  | type original cursor k hscreen =>
    refine h.pass hopen ?_ (by rw [hs', countdownActive_editorKey])
      (by rw [hs', selected_editorKey]) ?_
    · intro hmenu
      rw [hmenu] at hscreen
      cases hscreen
    · intro hchosen
      rw [hs'] at hchosen
      obtain ⟨c, -, hedit⟩ | hmenu | ⟨-, hactive⟩ := screen_editorKey (polls s₀ keys) original cursor k
      · rw [hedit] at hchosen
        cases hchosen
      · rw [hmenu] at hchosen
        cases hchosen
      · exact hactive

theorem chosen_polls (h : s₀.screen = .start) (keys : List (Option InputKey)) : Chosen s₀ keys := by
  induction keys using List.reverseRecOn with
  | nil =>
    constructor
    · intro _ _
      refine ⟨?_, rfl⟩
      rintro a i ⟨front, k, back, hkeys, -⟩
      cases front <;> cases hkeys
    · intro hchosen
      rw [polls, foldl_nil, h] at hchosen
      cases hchosen
  | append_singleton keys key ih => exact ih.concat key

/-! ## Edits -/

/-- The entries that differ were opened for editing, and so is the one that is edited. -/
structure Edits (s₀ : State) (keys : List (Option InputKey)) : Prop where
  count : (polls s₀ keys).rows.length = s₀.rows.length
  opened : ∀ original cursor, (polls s₀ keys).screen = .editor original cursor →
    Pressed s₀ keys .edit (polls s₀ keys).selected
  only : ∀ i, (polls s₀ keys).rows[i]? ≠ s₀.rows[i]? → Pressed s₀ keys .edit i
  valid : (polls s₀ keys).rows.map (·.valid) = s₀.rows.map (·.valid)
  outside : ∀ i j : ℕ, menuCmdlineMax ≤ j →
    (polls s₀ keys).rows[i]?.map (Row.cmdline · j) = s₀.rows[i]?.map (Row.cmdline · j)

theorem Edits.keep (h : Edits s₀ keys) {key : Option InputKey}
    (hrows : (poll (polls s₀ keys) key).rows = (polls s₀ keys).rows)
    (hscreen : ∀ original cursor, (poll (polls s₀ keys) key).screen = .editor original cursor →
      Pressed s₀ (keys ++ [key]) .edit (poll (polls s₀ keys) key).selected) :
    Edits s₀ (keys ++ [key]) := by
  constructor
  · rw [polls_concat, hrows]
    exact h.count
  · rw [polls_concat]
    exact hscreen
  · intro i hne
    rw [polls_concat, hrows] at hne
    exact (h.only i hne).append _
  · rw [polls_concat, hrows]
    exact h.valid
  · intro i j hj
    rw [polls_concat, hrows]
    exact h.outside i j hj

theorem map_valid_modify (rows : List Row) (i : ℕ) (f : ℕ → UInt8) :
    (rows.modify i fun row => { row with cmdline := f }).map (·.valid) = rows.map (·.valid) := by
  apply ext_getElem?
  intro j
  rw [List.getElem?_map, List.getElem?_modify, List.getElem?_map]
  split <;> cases rows[j]? <;> rfl

theorem Edits.type (h : Edits s₀ keys) (hok : Ok (polls s₀ keys)) {k : InputKey}
    (hscreen : (polls s₀ keys).screen = .editor original cursor)
    (hs' : poll (polls s₀ keys) (some k) = editorKey (polls s₀ keys) original cursor k) :
    Edits s₀ (keys ++ [some k]) := by
  obtain ⟨row, hrow, hcmdline, hended⟩ := hok.row
  obtain ⟨hfits, hcursor⟩ := hok.editor original cursor hscreen
  have hopened := h.opened original cursor hscreen
  constructor
  · rw [polls_concat, hs', rows_editorKey, length_modify]
    exact h.count
  · intro _ _ _
    rw [polls_concat, hs', selected_editorKey]
    exact hopened.append _
  · intro i hne
    rw [polls_concat, hs', rows_editorKey] at hne
    by_cases hi : (polls s₀ keys).selected = i
    · rw [← hi]
      exact hopened.append _
    · rw [List.getElem?_modify_ne _ _ hi] at hne
      exact (h.only i hne).append _
  · rw [polls_concat, hs', rows_editorKey, map_valid_modify]
    exact h.valid
  · intro i j hj
    rw [polls_concat, hs', rows_editorKey, ← h.outside i j hj]
    by_cases hi : (polls s₀ keys).selected = i
    · have hcell := editKey_outside k hended hfits hcursor hj
      rw [← hi, List.getElem?_modify_eq, hrow]
      rw [hcmdline] at hcell
      exact congrArg some (hcmdline ▸ hcell)
    · rw [List.getElem?_modify_ne _ _ hi]

theorem Edits.concat (h : Edits s₀ keys) (hok : Ok (polls s₀ keys)) (key : Option InputKey) :
    Edits s₀ (keys ++ [key]) := by
  have heffect := effect_poll (polls s₀ keys) key
  generalize hs' : poll (polls s₀ keys) key = s' at heffect
  cases heffect with
  | nothing =>
    refine h.keep (by rw [hs']) ?_
    intro original cursor heditor
    rw [hs'] at heditor ⊢
    exact (h.opened original cursor heditor).append _
  | drop screen _ hto =>
    refine h.keep (by rw [hs']) ?_
    intro original cursor heditor
    rw [hs'] at heditor
    exact absurd heditor (hto.ne_editor original cursor)
  | round =>
    refine h.keep (by rw [hs', rows_endRound]) ?_
    intro original cursor heditor
    rw [hs'] at heditor
    exact absurd heditor (endRound_ne_editor _ original cursor)
  | boot =>
    refine h.keep (by rw [hs']) ?_
    intro original cursor heditor
    rw [hs'] at heditor
    cases heditor
  | leave _ _ screen _ _ _ hto =>
    refine h.keep (by rw [hs']) ?_
    intro original cursor heditor
    rw [hs'] at heditor
    exact absurd heditor (Screen.Passing.ne_editor (.inr hto) original cursor)
  | edit k hmenu hkey haction =>
    refine h.keep (by rw [hs']) ?_
    intro _ _ _
    rw [hs', hkey]
    exact pressed_concat hmenu haction
  | select k next =>
    refine h.keep (by rw [hs', rows_endRound]) ?_
    intro original cursor heditor
    rw [hs'] at heditor
    exact absurd heditor (endRound_ne_editor _ original cursor)
  | type original cursor k hscreen hkey =>
    subst hkey
    exact h.type hok hscreen hs'

theorem edits_polls (h : s₀.screen = .start) (hok : Ok s₀) (keys : List (Option InputKey)) :
    Edits s₀ keys := by
  induction keys using List.reverseRecOn with
  | nil =>
    refine ⟨rfl, ?_, fun i hne => absurd rfl hne, rfl, fun _ _ _ => rfl⟩
    intro original cursor heditor
    rw [polls, foldl_nil, h] at heditor
    cases heditor
  | append_singleton keys key ih => exact ih.concat (hok.polls keys) key

/-- A table with an entry, the default one in it, and command lines that fit. -/
structure TableOk (cfg : MenuConfig) : Prop where
  count : cfg.entries.length ≤ menuMaxEntries
  fits : ∀ entry ∈ cfg.entries, Fits entry.cmdline

theorem TableOk.menuAdd {cfg : MenuConfig} (h : TableOk cfg) {entry : MenuEntry}
    (hfits : Fits entry.cmdline) : TableOk (menuAdd cfg entry).1 := by
  unfold Boot.menuAdd
  split
  · exact h
  · next hroom =>
    constructor
    · rw [length_append, length_singleton]
      exact not_le.1 hroom
    · intro e he
      obtain he | he := mem_append.1 he
      · exact h.fits e he
      · rw [mem_singleton.1 he]
        exact hfits

theorem length_le_menuAdd (cfg : MenuConfig) (entry : MenuEntry) :
    cfg.entries.length ≤ (menuAdd cfg entry).1.entries.length := by
  unfold menuAdd
  split
  · exact le_rfl
  · simp

theorem fits_entrySetting {entry : MenuEntry} (h : Fits entry.cmdline) (key : Key)
    (value : List UInt8) : Fits (entrySetting key value entry).cmdline := by
  cases key with
  | cmdline => exact fits_copyN value
  | _ => exact h

theorem TableOk.parseStep {cfg : MenuConfig} (h : TableOk cfg) (oldCount : ℕ) (current : Option ℕ)
    (line : Key × List UInt8) : TableOk (parseStep oldCount (cfg, current) line).1 := by
  obtain ⟨key, value⟩ := line
  have hentry : ∀ i, TableOk
      { cfg with entries := cfg.entries.modify i (entrySetting key value) } := by
    intro i
    constructor
    · rw [length_modify]
      exact h.count
    · intro entry hmem
      obtain ⟨j, hj⟩ := mem_iff_getElem?.1 hmem
      rw [List.getElem?_modify, Option.map_eq_map] at hj
      obtain ⟨before, hbefore, rfl⟩ := Option.map_eq_some_iff.1 hj
      have hfits := h.fits before (mem_of_getElem? hbefore)
      split
      · exact fits_entrySetting hfits key value
      · exact hfits
  have hnew : ∀ started : MenuConfig,
      started = (if cfg.entries.length = oldCount then { cfg with entries := [] } else cfg) →
      TableOk (Boot.menuAdd started (configuredEntry value)).1 := by
    intro started hstarted
    refine TableOk.menuAdd ?_ (fits_copyN [])
    split at hstarted
    · rw [hstarted]
      exact ⟨Nat.zero_le _, by simp⟩
    · rw [hstarted]
      exact h
  cases key <;> cases current <;>
    first
    | exact ⟨h.count, h.fits⟩
    | exact hnew _ rfl
    | exact hentry _

theorem TableOk.foldl {cfg : MenuConfig} (h : TableOk cfg) (oldCount : ℕ) (current : Option ℕ)
    (lines : List (Key × List UInt8)) :
    TableOk (lines.foldl (Boot.parseStep oldCount) (cfg, current)).1 := by
  induction lines generalizing cfg current with
  | nil => exact h
  | cons line lines ih => exact ih (h.parseStep oldCount current line) _

theorem tableOk_defaults : TableOk menuConfigInitDefaults := by
  have hadd : ∀ (entries : List MenuEntry) (cfg : MenuConfig), TableOk cfg →
      (∀ entry ∈ entries, Fits entry.cmdline) →
      TableOk (entries.foldl (fun cfg entry => (menuAdd cfg entry).1) cfg) := by
    intro entries
    induction entries with
    | nil => exact fun cfg h _ => h
    | cons entry entries ih =>
      intro cfg h hfits
      exact ih _ (h.menuAdd (hfits entry (by simp))) fun e he => hfits e (by simp [he])
  apply hadd
  · exact ⟨Nat.zero_le _, by simp⟩
  · intro entry hmem
    simp only [builtins, mem_cons, not_mem_nil, or_false] at hmem
    obtain rfl | rfl | rfl | rfl | rfl | rfl | rfl | rfl := hmem <;> exact fits_copyN _

theorem length_defaults : menuConfigInitDefaults.entries.length = 8 := rfl

theorem tableOk_parse (behind : List UInt8 → ℕ → UInt8) (file : Option (List UInt8)) :
    TableOk (menuParseConfig behind menuConfigInitDefaults file) ∧
      (menuParseConfig behind menuConfigInitDefaults file).defaultIndex <
        (menuParseConfig behind menuConfigInitDefaults file).entries.length := by
  have hdefaults : menuConfigInitDefaults.defaultIndex < menuConfigInitDefaults.entries.length := by
    rw [length_defaults]
    exact Nat.zero_lt_succ 7
  unfold menuParseConfig
  split
  · exact ⟨tableOk_defaults, hdefaults⟩
  · exact ⟨tableOk_defaults, hdefaults⟩
  · next config _ =>
    have hparsed := tableOk_defaults.foldl menuConfigInitDefaults.entries.length none
      (settings behind config)
    dsimp only
    generalize ((settings behind config).foldl (Boot.parseStep menuConfigInitDefaults.entries.length)
      (menuConfigInitDefaults, none)).1 = parsed at hparsed ⊢
    have hclamped : ∀ cfg : MenuConfig, TableOk cfg → 0 < cfg.entries.length → ∀ r : MenuConfig,
        r = (if cfg.defaultIndex ≥ cfg.entries.length then { cfg with defaultIndex := 0 } else cfg) →
        TableOk r ∧ r.defaultIndex < r.entries.length := by
      intro cfg h hpos r hr
      split at hr
      · rw [hr]
        exact ⟨⟨h.count, h.fits⟩, hpos⟩
      · next hlt =>
        rw [hr]
        exact ⟨h, not_le.1 hlt⟩
    refine hclamped _ ?_ ?_ _ rfl
    · split
      · exact tableOk_defaults
      · exact hparsed
    · split
      · rw [length_defaults]
        exact Nat.zero_lt_succ 7
      · next hne => exact Nat.pos_of_ne_zero hne

theorem tableOk_scan {cfg : MenuConfig} (h : TableOk cfg) (hlt : cfg.defaultIndex < cfg.entries.length)
    (files : List (Bool × List UInt8)) :
    TableOk (menuScanKernelDir cfg files) ∧
      (menuScanKernelDir cfg files).defaultIndex < (menuScanKernelDir cfg files).entries.length := by
  unfold menuScanKernelDir
  induction files generalizing cfg with
  | nil => exact ⟨h, hlt⟩
  | cons file files ih =>
    rw [foldl_cons]
    split
    · exact ih h hlt
    · apply ih
      · exact h.menuAdd (fits_copyN [])
      · have hdefault : (menuAdd cfg (scannedEntry file.2)).1.defaultIndex = cfg.defaultIndex := by
          unfold menuAdd
          split <;> rfl
        rw [hdefault]
        exact hlt.trans_le (length_le_menuAdd cfg _)

/-- The menu that comes up: the configuration file, the kernels of the directory, which files
exist, and what the buffers of the command lines held. -/
def bootMenu (behind : List UInt8 → ℕ → UInt8) (file : Option (List UInt8))
    (files : List (Bool × List UInt8)) (fileExists : List UInt8 → Bool) (left : ℕ → ℕ → UInt8) :
    State :=
  let cfg := menuScanKernelDir (menuParseConfig behind menuConfigInitDefaults file) files
  menuStart cfg (menuValidate fileExists left cfg)

theorem ok_bootMenu (behind : List UInt8 → ℕ → UInt8) (file : Option (List UInt8))
    (files : List (Bool × List UInt8)) (fileExists : List UInt8 → Bool) (left : ℕ → ℕ → UInt8) :
    Ok (bootMenu behind file files fileExists left) := by
  obtain ⟨hparse, hdefault⟩ := tableOk_parse behind file
  obtain ⟨htable, hlt⟩ := tableOk_scan hparse hdefault files
  unfold bootMenu
  generalize menuScanKernelDir (menuParseConfig behind menuConfigInitDefaults file) files = cfg at htable hlt
  constructor
  · simpa [menuStart, menuValidate] using hlt
  · intro row hmem
    simp only [menuStart, menuValidate, mem_mapIdx] at hmem
    obtain ⟨i, hi, rfl⟩ := hmem
    exact ⟨_, endsAt_store (htable.fits _ (getElem_mem hi))⟩
  · intro original cursor heditor
    cases heditor

/-- What holds after a run. -/
structure Safe (s₀ : State) (keys : List (Option InputKey)) : Prop where
  /-- An entry is selected, and the command lines and the cursor are in their buffers. -/
  ok : Ok (polls s₀ keys)
  /-- Only the entries that were opened for editing are edited, and only in their buffers. -/
  edits : Edits s₀ keys
  /-- The entry that is booted was confirmed, or it is the default one and the menu heeded no
  key. -/
  chosen : (polls s₀ keys).screen = .chosen →
    Pressed s₀ keys .boot (polls s₀ keys).selected ∨
      Quiet s₀ keys ∧ (polls s₀ keys).selected = s₀.selected

/-- Every run of every menu is safe. -/
theorem menu_select_safe (behind : List UInt8 → ℕ → UInt8) (file : Option (List UInt8))
    (files : List (Bool × List UInt8)) (fileExists : List UInt8 → Bool) (left : ℕ → ℕ → UInt8)
    (keys : List (Option InputKey)) :
    Safe (bootMenu behind file files fileExists left) keys := by
  have hok := ok_bootMenu behind file files fileExists left
  exact ⟨hok.polls keys, edits_polls rfl hok keys, (chosen_polls rfl keys).chosen⟩

/-- The entry that a run boots was confirmed, or it is the default one and no key was pressed. -/
def ConfirmedOrUntouched (s₀ : State) (keys : List (Option InputKey)) : Prop :=
  (polls s₀ keys).screen = .chosen →
    Pressed s₀ keys .boot (polls s₀ keys).selected ∨
      (∀ key, some key ∉ keys) ∧ (polls s₀ keys).selected = s₀.selected

/-- The letter x is pressed, and then nothing for five seconds. -/
def unheeded : List (Option InputKey) :=
  [none, some ⟨0, 120⟩] ++ List.replicate 49 none

/-- A key that the menu does not heed leaves the countdown on. -/
theorem unheeded_key_boots :
    ¬ ConfirmedOrUntouched
      (bootMenu (fun _ _ => 0) none [] (fun _ => true) fun _ _ => 0) unheeded := by
  intro h
  have hno : ∀ key : InputKey, some key ∈ unheeded → key.isEnter = false := by
    intro key hmem
    simp only [unheeded, mem_append, mem_cons, mem_replicate] at hmem
    simp at hmem
    rw [hmem]
    rfl
  obtain ⟨front, key, back, hkeys, -, haction, -⟩ | ⟨huntouched, -⟩ := h (by decide +kernel)
  · have henter := hno key (by rw [hkeys]; simp)
    rw [isEnter_of_boot haction] at henter
    cases henter
  · exact huntouched ⟨0, 120⟩ (by simp [unheeded])

end Cleonos.Boot.Select
