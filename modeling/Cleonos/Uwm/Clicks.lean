import Cleonos.Lib.Repaint

/-!
# Clicks on the taskbar and on the start menu

The window manager draws the buttons of the taskbar in one loop and finds the one that was clicked
in another one, and so for the entries of the start menu.
-/

namespace Cleonos.Uwm

open List
open Cleonos.Lib

def appCount : ℕ := 4
def taskbarIndex : ℕ := 4
def startIndex : ℕ := 5
def windowCount : ℕ := 6

def taskbarStartW : ℤ := 48
def taskbarSearchW : ℤ := 220
def taskbarButtonW : ℤ := 132
def taskbarButtonGap : ℤ := 6
def taskbarDynamicMax : ℕ := 32

/-- The fields of `ush_uwm_window` that the taskbar and the start menu go by. -/
structure UwmWindow where
  id : ℕ
  w : ℤ
  h : ℤ
  minimized : Bool
  closed : Bool
deriving DecidableEq, Repr

/-- The session; four applications, the taskbar and the start menu. -/
structure UwmSession where
  windows : ℕ → UwmWindow
  activeWindow : ℤ
  startOpen : Bool

/-- What is used of a `cleonos_wm_snapshot`. -/
structure Snapshot where
  windowId : ℕ
  presented : Bool
deriving DecidableEq, Repr

/-- The windows that the kernel has: the number at each index, and the snapshot of a number, where
the calls for them succeed. -/
structure Wm where
  ids : List (Option ℕ)
  snapshot : ℕ → Option Snapshot

/-- What a click does, by the function that is called for it. -/
inductive Effect
  | toggleStart
  | minimize (index : ℤ)
  | setActive (index : ℤ)
  /-- A window of another program gets the focus; the start menu is closed if it is open. -/
  | focus (windowId : ℕ) (closeStart : Bool)
  | restore (index : ℕ)
  | closeStart
  /-- The start menu is closed, and the application is launched or restored. -/
  | launch (index : ℕ)
  /-- What a tile is for; nothing in the source does it. -/
  | tile (settings : Bool)
deriving DecidableEq, Repr

variable {sess : UwmSession} {wm : Wm} {px py : ℤ}

def appIndexValid (index : ℤ) : Bool := index ≥ 0 && index < appCount

/-- The index of the window with a number, or -1. -/
def localWindowIndexById (sess : UwmSession) (windowId : ℕ) : ℤ :=
  if windowId = 0 then -1
  else ((List.range windowCount).find? fun i => (sess.windows i).id = windowId).elim (-1) (↑)

def taskbarWindowHidden (sess : UwmSession) (windowId : ℕ) : Bool :=
  windowId = 0 || windowId = (sess.windows taskbarIndex).id || windowId = (sess.windows startIndex).id

/-- The snapshot of the window at an index, unless the taskbar passes over it. -/
def listed (sess : UwmSession) (wm : Wm) (id : Option ℕ) : Option Snapshot :=
  match id with
  | none => none
  | some windowId =>
    if windowId = 0 || taskbarWindowHidden sess windowId then none
    else match wm.snapshot windowId with
      | none => none
      | some snap =>
        if !snap.presented || taskbarWindowHidden sess snap.windowId then none else some snap

/-- What the button of a window is for. -/
def pressWindow (sess : UwmSession) (snap : Snapshot) : Effect :=
  let index := localWindowIndexById sess snap.windowId
  if appIndexValid index then
    if sess.activeWindow = index ∧ (sess.windows index.toNat).minimized = false then .minimize index
    else .setActive index
  else .focus snap.windowId sess.startOpen

/-! ## Drawing -/

/-- The buttons of the kernel's windows from an index on, and where the next one goes. -/
def renderWindows (sess : UwmSession) (wm : Wm) :
    List (Option ℕ) → ℤ → ℕ → List (Shown Effect) × ℤ
  | [], appX, _ => ([], appX)
  | id :: ids, appX, shown =>
    if shown ≥ taskbarDynamicMax then ([], appX)
    else if appX + taskbarButtonW > (sess.windows taskbarIndex).w - 98 then ([], appX)
    else match listed sess wm id with
      | none => renderWindows sess wm ids appX shown
      | some snap =>
        let rest := renderWindows sess wm ids (appX + taskbarButtonW + taskbarButtonGap) (shown + 1)
        (⟨⟨appX, 5, taskbarButtonW, (sess.windows taskbarIndex).h - 10⟩, pressWindow sess snap⟩ ::
          rest.1, rest.2)

/-- The buttons of the minimized applications. -/
def renderMinimized (sess : UwmSession) : List ℕ → ℤ → List (Shown Effect)
  | [], _ => []
  | i :: rest, appX =>
    if (sess.windows i).closed || !(sess.windows i).minimized then renderMinimized sess rest appX
    else if appX + taskbarButtonW > (sess.windows taskbarIndex).w - 98 then []
    else ⟨⟨appX, 5, taskbarButtonW, (sess.windows taskbarIndex).h - 10⟩, .restore i⟩ ::
      renderMinimized sess rest (appX + taskbarButtonW + taskbarButtonGap)

/-- Where the first button after the search field is drawn. -/
def renderAppX (w : ℤ) : ℤ :=
  let searchW := if w < 720 then 128 else taskbarSearchW
  let searchW := if w < 520 then 0 else searchW
  if searchW > 0 then taskbarStartW + 8 + (searchW + 10) else taskbarStartW + 8

/-- What `ush_uwm_render_taskbar` draws of buttons. -/
def taskbarShown (sess : UwmSession) (wm : Wm) : List (Shown Effect) :=
  let taskbar := sess.windows taskbarIndex
  let buttons := renderWindows sess wm wm.ids (renderAppX taskbar.w) 0
  ⟨⟨0, 0, taskbarStartW, taskbar.h⟩, .toggleStart⟩ ::
    (buttons.1 ++ renderMinimized sess (List.range appCount) buttons.2)

/-- The rectangle of an entry in a menu of a width. -/
def entryRect (w : ℤ) (i : ℕ) : Rect := ⟨66, 78 + i * 44, w - 82, 34⟩

/-- The entries from an index on; the first one that does not fit ends them. -/
def renderEntries (w h : ℤ) : List ℕ → List (Shown Effect)
  | [] => []
  | i :: rest =>
    if 78 + (i : ℤ) * 44 + 34 > h - 76 then []
    else ⟨entryRect w i, .launch i⟩ :: renderEntries w h rest

/-- The tiles below the entries. -/
def renderTiles (w h : ℤ) : List (Shown Effect) :=
  if w > 248 ∧ h > 260 then
    let tileY := h - 68
    let tileW := (w - 88) / 2
    [⟨⟨66, tileY, tileW, 48⟩, .tile true⟩, ⟨⟨74 + tileW, tileY, tileW, 48⟩, .tile false⟩]
  else []

/-- The logo at the foot of the menu. -/
def logoRect (h : ℤ) : Rect := ⟨16, h - 34, 18, 18⟩

/-- What `ush_uwm_render_start` draws of buttons. -/
def startShown (sess : UwmSession) : List (Shown Effect) :=
  let start := sess.windows startIndex
  ⟨logoRect start.h, .closeStart⟩ ::
    (renderEntries start.w start.h (List.range appCount) ++ renderTiles start.w start.h)

/-- `ush_uwm_taskbar_app_x`. -/
def taskbarAppX (taskbar : UwmWindow) : ℤ :=
  let searchW := if taskbar.w < 720 then 128 else taskbarSearchW
  let searchW := if taskbar.w < 520 then 0 else searchW
  taskbarStartW + 8 + (if searchW > 0 then searchW + 10 else 0)

/-- The point is in the button at a position. -/
def inButton (taskbar : UwmWindow) (appX px py : ℤ) : Bool :=
  px ≥ appX && px < appX + taskbarButtonW && py ≥ 5 && py < taskbar.h - 5

/-- The loop over the kernel's windows; an error is what a click did, and otherwise it is where the
next button goes. -/
def clickWindows (sess : UwmSession) (wm : Wm) (px py : ℤ) :
    List (Option ℕ) → ℤ → ℕ → Except Effect ℤ
  | [], appX, _ => .ok appX
  | id :: ids, appX, shown =>
    if shown ≥ taskbarDynamicMax then .ok appX
    else if appX + taskbarButtonW > (sess.windows taskbarIndex).w - 98 then .ok appX
    else match listed sess wm id with
      | none => clickWindows sess wm px py ids appX shown
      | some snap =>
        if inButton (sess.windows taskbarIndex) appX px py then .error (pressWindow sess snap)
        else clickWindows sess wm px py ids (appX + taskbarButtonW + taskbarButtonGap) (shown + 1)

/-- The loop over the minimized applications. -/
def clickMinimized (sess : UwmSession) (px py : ℤ) : List ℕ → ℤ → Option Effect
  | [], _ => none
  | i :: rest, appX =>
    if (sess.windows i).closed || !(sess.windows i).minimized then clickMinimized sess px py rest appX
    else if appX + taskbarButtonW > (sess.windows taskbarIndex).w - 98 then none
    else if inButton (sess.windows taskbarIndex) appX px py then some (.restore i)
    else clickMinimized sess px py rest (appX + taskbarButtonW + taskbarButtonGap)

def handleTaskbarClick (sess : UwmSession) (wm : Wm) (px py : ℤ) : Option Effect :=
  let taskbar := sess.windows taskbarIndex
  if py < 0 ∨ py ≥ taskbar.h then none
  else if px ≥ 0 ∧ px < taskbarStartW then some .toggleStart
  else match clickWindows sess wm px py wm.ids (taskbarAppX taskbar) 0 with
    | .error effect => some effect
    | .ok appX => clickMinimized sess px py (List.range appCount) appX

/-- The loop over the entries. -/
def clickEntries (w px py : ℤ) : List ℕ → Option Effect
  | [] => none
  | i :: rest =>
    let y := 78 + (i : ℤ) * 44
    if px ≥ 66 ∧ px < w - 16 ∧ py ≥ y ∧ py < y + 34 then some (.launch i)
    else clickEntries w px py rest

def handleStartClick (sess : UwmSession) (px py : ℤ) : Option Effect :=
  let start := sess.windows startIndex
  if px < 52 ∧ py ≥ start.h - 52 then some .closeStart
  else clickEntries start.w px py (List.range appCount)

/-- The buttons stand in a row on the taskbar, from a position on. -/
def From (sess : UwmSession) (x : ℤ) (items : List (Shown Effect)) : Prop :=
  ∀ b ∈ items, x ≤ b.rect.x ∧ b.rect.y = 5 ∧ b.rect.h = (sess.windows taskbarIndex).h - 10

theorem from_nil (sess : UwmSession) (x : ℤ) : From sess x [] := by
  intro b hb
  cases hb

variable {x w h : ℤ} {items : List (Shown Effect)}

theorem from_cons {next : ℤ} {effect : Effect} (hx : x ≤ next) (h : From sess next items) :
    From sess x (⟨⟨x, 5, w, (sess.windows taskbarIndex).h - 10⟩, effect⟩ :: items) := by
  intro b hb
  rcases mem_cons.mp hb with rfl | hmem
  · exact ⟨le_refl _, rfl, rfl⟩
  · exact ⟨Int.le_trans hx (h b hmem).1, (h b hmem).2⟩

theorem outside_of_from (h : From sess x items) (hpx : px < x) : Outside items px py := by
  intro b hb hin
  have hx := (h b hb).1
  have hleft := hin.1
  omega

theorem outside_above (h : From sess x items)
    (hpy : py < 0 ∨ py ≥ (sess.windows taskbarIndex).h) : Outside items px py := by
  intro b hb hin
  obtain ⟨-, hy, hh⟩ := h b hb
  obtain ⟨-, -, htop, hbottom⟩ := hin
  omega

theorem inButton_iff (taskbar : UwmWindow) (appX : ℤ) :
    inButton taskbar appX px py = true ↔
      (⟨appX, 5, taskbarButtonW, taskbar.h - 10⟩ : Rect).Contains px py := by
  simp only [inButton, Rect.Contains, Bool.and_eq_true, decide_eq_true_eq]
  omega

theorem from_renderWindows (sess : UwmSession) (wm : Wm) (ids : List (Option ℕ)) (appX : ℤ) (shown : ℕ) :
    From sess appX (renderWindows sess wm ids appX shown).1 ∧
      appX ≤ (renderWindows sess wm ids appX shown).2 := by
  have hstep : appX ≤ appX + taskbarButtonW + taskbarButtonGap := by
    have hwide : taskbarButtonW = 132 := rfl
    have hgap : taskbarButtonGap = 6 := rfl
    omega
  induction ids generalizing appX shown with
  | nil => exact ⟨from_nil sess appX, le_refl _⟩
  | cons id ids ih =>
    rw [renderWindows]
    split
    · exact ⟨from_nil sess appX, le_refl _⟩
    split
    · exact ⟨from_nil sess appX, le_refl _⟩
    split
    · exact ih appX shown hstep
    · have hrest := ih (appX + taskbarButtonW + taskbarButtonGap) (shown + 1) (by omega)
      exact ⟨from_cons hstep hrest.1, Int.le_trans hstep hrest.2⟩

theorem from_renderMinimized (sess : UwmSession) (apps : List ℕ) (appX : ℤ) :
    From sess appX (renderMinimized sess apps appX) := by
  have hstep : appX ≤ appX + taskbarButtonW + taskbarButtonGap := by
    have hwide : taskbarButtonW = 132 := rfl
    have hgap : taskbarButtonGap = 6 := rfl
    omega
  induction apps generalizing appX with
  | nil => exact from_nil sess appX
  | cons i rest ih =>
    rw [renderMinimized]
    split
    · exact ih appX hstep
    split
    · exact from_nil sess appX
    · exact from_cons hstep (ih _ (by omega))

/-- What the loop over the windows comes to at a point, by the buttons that are drawn. -/
def Tested (items : List (Shown Effect)) (px py next : ℤ) : Except Effect ℤ → Prop
  | .error effect => Answers items px py (some effect) ∧ px < next
  | .ok appX => Outside items px py ∧ appX = next

theorem tested_clickWindows (ids : List (Option ℕ)) (appX : ℤ) (shown : ℕ) :
    Tested (renderWindows sess wm ids appX shown).1 px py (renderWindows sess wm ids appX shown).2
      (clickWindows sess wm px py ids appX shown) := by
  have hwide : taskbarButtonW = 132 := rfl
  have hgap : taskbarButtonGap = 6 := rfl
  induction ids generalizing appX shown with
  | nil => exact ⟨outside_nil, rfl⟩
  | cons id ids ih =>
    rw [renderWindows, clickWindows]
    split
    · exact ⟨outside_nil, rfl⟩
    split
    · exact ⟨outside_nil, rfl⟩
    cases hlisted : listed sess wm id with
    | none => exact ih appX shown
    | some snap =>
      have hrest := from_renderWindows sess wm ids
        (appX + taskbarButtonW + taskbarButtonGap) (shown + 1)
      simp only
      split
      · rename_i hin
        rw [inButton_iff] at hin
        have hright := hin.2.1
        simp only at hright
        refine ⟨answers_cons hin (outside_of_from hrest.1 (by omega)), ?_⟩
        omega
      · rename_i hin
        rw [inButton_iff] at hin
        have htested := ih (appX + taskbarButtonW + taskbarButtonGap) (shown + 1)
        generalize clickWindows sess wm px py ids _ _ = r at htested
        cases r with
        | error effect =>
          exact ⟨answers_append_left (outside_cons hin outside_nil)
            htested.1, htested.2⟩
        | ok next => exact ⟨outside_cons hin htested.1, htested.2⟩

theorem answers_clickMinimized (apps : List ℕ) (appX : ℤ) :
    Answers (renderMinimized sess apps appX) px py (clickMinimized sess px py apps appX) := by
  have hgap : taskbarButtonGap = 6 := rfl
  induction apps generalizing appX with
  | nil => exact answers_of_outside outside_nil
  | cons i rest ih =>
    rw [renderMinimized, clickMinimized]
    split
    · exact ih appX
    split
    · exact answers_of_outside outside_nil
    split
    · rename_i hin
      rw [inButton_iff] at hin
      have hright := hin.2.1
      simp only at hright
      exact answers_cons hin (outside_of_from (from_renderMinimized sess rest _) (by omega))
    · rename_i hin
      rw [inButton_iff] at hin
      exact answers_append_left (outside_cons hin outside_nil) (ih _)

theorem taskbarAppX_eq (taskbar : UwmWindow) : taskbarAppX taskbar = renderAppX taskbar.w := by
  rw [taskbarAppX, renderAppX]
  split
  · rfl
  · omega

theorem le_renderAppX (w : ℤ) : taskbarStartW + 8 ≤ renderAppX w := by
  rw [renderAppX]
  split <;> omega

theorem answers_taskbar (sess : UwmSession) (wm : Wm) (px py : ℤ) :
    Answers (taskbarShown sess wm) px py (handleTaskbarClick sess wm px py) := by
  have hstart : taskbarStartW = 48 := rfl
  have hleft := le_renderAppX (sess.windows taskbarIndex).w
  have hrow := from_renderWindows sess wm wm.ids (renderAppX (sess.windows taskbarIndex).w) 0
  have hlast := from_renderMinimized sess (List.range appCount)
    (renderWindows sess wm wm.ids (renderAppX (sess.windows taskbarIndex).w) 0).2
  have htested := @tested_clickWindows sess wm px py wm.ids
    (renderAppX (sess.windows taskbarIndex).w) 0
  rw [taskbarShown, handleTaskbarClick, taskbarAppX_eq]
  split
  · rename_i hpy
    apply answers_of_outside
    apply outside_cons
    · rintro ⟨-, -, htop, hbottom⟩
      simp only at htop hbottom
      omega
    · exact outside_append (outside_above hrow.1 hpy) (outside_above hlast hpy)
  split
  · rename_i hpy hin
    apply answers_cons
    · refine ⟨?_, ?_, ?_, ?_⟩ <;> simp only <;> omega
    · exact outside_append (outside_of_from hrow.1 (by omega)) (outside_of_from hlast (by omega))
  · rename_i hpy hnot
    refine answers_append_left (outside_cons ?_ outside_nil) ?_
    · rintro ⟨hfrom, hto, -, -⟩
      simp only at hfrom hto
      omega
    generalize clickWindows sess wm px py wm.ids _ 0 = r at htested
    cases r with
    | error effect => exact answers_append_right htested.1 (outside_of_from hlast htested.2)
    | ok next =>
      obtain ⟨houtside, rfl⟩ := htested
      exact answers_append_left houtside (answers_clickMinimized (List.range appCount) _)

/-! ## The start menu -/

/-- The entry fits above the tiles. -/
def Fits (h : ℤ) (i : ℕ) : Prop := 78 + (i : ℤ) * 44 + 34 ≤ h - 76

theorem Fits.mono {i j : ℕ} (hj : Fits h j) (hij : i ≤ j) : Fits h i := by
  rw [Fits] at hj ⊢
  omega

theorem mem_renderEntries {w h : ℤ} {b : Shown Effect} {apps : List ℕ} (hsorted : apps.Pairwise (· ≤ ·)) :
    b ∈ renderEntries w h apps ↔ ∃ i ∈ apps, Fits h i ∧ b = ⟨entryRect w i, .launch i⟩ := by
  induction apps with
  | nil => simp [renderEntries]
  | cons i rest ih =>
    rw [pairwise_cons] at hsorted
    rw [renderEntries]
    split
    · rename_i hlow
      simp only [not_mem_nil, false_iff]
      rintro ⟨j, hj, hfits, -⟩
      have hi : Fits h i := by
        rcases mem_cons.mp hj with rfl | hmem
        · exact hfits
        · exact hfits.mono (hsorted.1 j hmem)
      rw [Fits] at hi
      omega
    · rename_i hfits
      rw [mem_cons, ih hsorted.2]
      constructor
      · rintro (rfl | ⟨j, hj, hb⟩)
        · exact ⟨i, mem_cons_self, by rw [Fits]; omega, rfl⟩
        · exact ⟨j, mem_cons_of_mem i hj, hb⟩
      · rintro ⟨j, hj, hb⟩
        rcases mem_cons.mp hj with rfl | hmem
        · exact Or.inl hb.2
        · exact Or.inr ⟨j, hmem, hb⟩

theorem entry_unique {w' : ℤ} {i j : ℕ} (hi : (entryRect w i).Contains px py)
    (hj : (entryRect w' j).Contains px py) : i = j := by
  obtain ⟨-, -, htop, hbottom⟩ := hi
  obtain ⟨-, -, htop', hbottom'⟩ := hj
  simp only [entryRect] at htop hbottom htop' hbottom'
  omega

theorem clickEntries_eq_some_iff {w : ℤ} {apps : List ℕ} {effect : Effect} :
    clickEntries w px py apps = some effect ↔
      ∃ i ∈ apps, (entryRect w i).Contains px py ∧ effect = .launch i := by
  have hcontains (i : ℕ) : (px ≥ 66 ∧ px < w - 16 ∧ py ≥ 78 + (i : ℤ) * 44 ∧ py < 78 + (i : ℤ) * 44 + 34) ↔
      (entryRect w i).Contains px py := by
    simp only [entryRect, Rect.Contains]
    omega
  induction apps with
  | nil => simp [clickEntries]
  | cons i rest ih =>
    rw [clickEntries]
    simp only [hcontains]
    split
    · rename_i hin
      constructor
      · intro heq
        cases heq
        exact ⟨i, mem_cons_self, hin, rfl⟩
      · rintro ⟨j, -, hj, rfl⟩
        rw [entry_unique hin hj]
    · rename_i hout
      apply ih.trans
      constructor
      · rintro ⟨j, hj, hb⟩
        exact ⟨j, mem_cons_of_mem i hj, hb⟩
      · rintro ⟨j, hj, hb⟩
        rcases mem_cons.mp hj with rfl | hmem
        · exact absurd hb.1 hout
        · exact ⟨j, hmem, hb⟩

/-- The foot of the menu, where a click closes it. -/
def InFoot (h px py : ℤ) : Prop := px < 52 ∧ py ≥ h - 52

instance (h px py : ℤ) : Decidable (InFoot h px py) := inferInstanceAs (Decidable (_ ∧ _))

/-- Where a click on the start menu does not do what is drawn: in a tile, which does nothing; at the
foot of the menu beside the logo; and in an entry that does not fit and is not drawn. -/
def Stray (w h px py : ℤ) : Prop :=
  (∃ b ∈ renderTiles w h, b.rect.Contains px py) ∨
    InFoot h px py ∧ ¬ (logoRect h).Contains px py ∨
    ∃ i < appCount, ¬ Fits h i ∧ (entryRect w i).Contains px py

theorem contains_logo_foot (hin : (logoRect h).Contains px py) : InFoot h px py := by
  obtain ⟨-, hright, htop, -⟩ := hin
  simp only [logoRect] at hright htop
  exact ⟨by omega, by omega⟩

theorem foot_left (hfoot : InFoot h px py) (i : ℕ) : ¬ (entryRect w i).Contains px py := by
  rintro ⟨hleft, -, -, -⟩
  have hpx := hfoot.1
  simp only [entryRect] at hleft
  omega

theorem tiles_right (hpx : px < 52) : Outside (renderTiles w h) px py := by
  intro b hb hin
  have hleft := hin.1
  rw [renderTiles] at hb
  split at hb
  · rename_i hlarge
    simp only [mem_cons, not_mem_nil, or_false] at hb
    rcases hb with rfl | rfl <;> simp only at hleft <;> omega
  · cases hb

theorem effect_of_mem_renderTiles {b : Shown Effect} (hb : b ∈ renderTiles w h) :
    ∃ settings, b.effect = .tile settings := by
  rw [renderTiles] at hb
  split at hb
  · simp only [mem_cons, not_mem_nil, or_false] at hb
    rcases hb with rfl | rfl
    · exact ⟨true, rfl⟩
    · exact ⟨false, rfl⟩
  · cases hb

theorem sorted_apps : (List.range appCount).Pairwise (· ≤ ·) := pairwise_le_range

theorem outside_of_foot (hfoot : InFoot h px py) :
    Outside (renderEntries w h (List.range appCount) ++ renderTiles w h) px py := by
  apply outside_append
  · intro b hb hcontains
    obtain ⟨i, -, -, rfl⟩ := (mem_renderEntries sorted_apps).mp hb
    exact foot_left hfoot i hcontains
  · exact tiles_right hfoot.1

theorem answers_entries (hfits : ∀ i < appCount, (entryRect w i).Contains px py → Fits h i) :
    Answers (renderEntries w h (List.range appCount)) px py
      (clickEntries w px py (List.range appCount)) := by
  constructor
  · intro b hb hcontains
    obtain ⟨i, hi, -, rfl⟩ := (mem_renderEntries sorted_apps).mp hb
    rw [clickEntries_eq_some_iff]
    exact ⟨i, hi, hcontains, rfl⟩
  · intro hout
    by_contra hsome
    obtain ⟨effect, heffect⟩ := Option.ne_none_iff_exists'.mp hsome
    obtain ⟨i, hi, hcontains, -⟩ := clickEntries_eq_some_iff.mp heffect
    have hdrawn : ⟨entryRect w i, .launch i⟩ ∈ renderEntries w h (List.range appCount) :=
      (mem_renderEntries sorted_apps).mpr ⟨i, hi, hfits i (mem_range.mp hi) hcontains, rfl⟩
    exact hout _ hdrawn hcontains

theorem answers_menu_of_not_stray (hstray : ¬ Stray w h px py) :
    Answers (⟨logoRect h, .closeStart⟩ ::
        (renderEntries w h (List.range appCount) ++ renderTiles w h)) px py
      (if InFoot h px py then some .closeStart else clickEntries w px py (List.range appCount)) := by
  have htiles : Outside (renderTiles w h) px py := by
    intro b hb hcontains
    exact hstray (Or.inl ⟨b, hb, hcontains⟩)
  split
  · rename_i hfoot
    refine answers_cons ?_ (outside_of_foot hfoot)
    by_contra hlogo
    exact hstray (Or.inr (Or.inl ⟨hfoot, hlogo⟩))
  · rename_i hfoot
    refine answers_append_left (outside_cons ?_ outside_nil) (answers_append_right ?_ htiles)
    · intro hlogo
      exact hfoot (contains_logo_foot hlogo)
    · apply answers_entries
      intro i hi hcontains
      by_contra hlow
      exact hstray (Or.inr (Or.inr ⟨i, hi, hlow, hcontains⟩))

theorem not_answers_of_stray (hstray : Stray w h px py) : ¬ Answers (⟨logoRect h, .closeStart⟩ ::
        (renderEntries w h (List.range appCount) ++ renderTiles w h)) px py
      (if InFoot h px py then some .closeStart else clickEntries w px py (List.range appCount)) := by
  intro hanswers
  by_cases htile : ∃ b ∈ renderTiles w h, b.rect.Contains px py
  · obtain ⟨b, hb, hcontains⟩ := htile
    obtain ⟨settings, heffect⟩ := effect_of_mem_renderTiles hb
    have hclick := hanswers.inside b (mem_cons_of_mem _ (mem_append_right _ hb)) hcontains
    rw [heffect] at hclick
    split at hclick
    · cases hclick
    · obtain ⟨i, -, -, heq⟩ := clickEntries_eq_some_iff.mp hclick
      cases heq
  rcases hstray with hin | ⟨hfoot, hlogo⟩ | ⟨i, hi, hlow, hin⟩
  · exact htile hin
  · have hnone := hanswers.outside (outside_cons hlogo (outside_of_foot hfoot))
    rw [if_pos hfoot] at hnone
    cases hnone
  · have hfoot : ¬ InFoot h px py := fun hfoot => foot_left hfoot i hin
    have hclick : clickEntries w px py (List.range appCount) = some (.launch i) :=
      clickEntries_eq_some_iff.mpr ⟨i, mem_range.mpr hi, hin, rfl⟩
    have hnone := hanswers.outside (by
      apply outside_cons
      · intro hlogo
        exact hfoot (contains_logo_foot hlogo)
      apply outside_append
      · intro b hb hcontains
        obtain ⟨j, -, hfits, rfl⟩ := (mem_renderEntries sorted_apps).mp hb
        rw [entry_unique hcontains hin] at hfits
        exact hlow hfits
      · intro b hb hcontains
        exact htile ⟨b, hb, hcontains⟩)
    rw [if_neg hfoot, hclick] at hnone
    cases hnone

/-- A click of the left button, on one of the two windows. -/
inductive Click
  | taskbar (px py : ℤ)
  | start (px py : ℤ)

/-- A click does what the button or entry around it is for, and nothing where there is none. -/
def Click.Agrees (sess : UwmSession) (wm : Wm) : Click → Prop
  | .taskbar px py => Answers (taskbarShown sess wm) px py (handleTaskbarClick sess wm px py)
  | .start px py => Answers (startShown sess) px py (handleStartClick sess px py)

/-- The click is on the start menu, at a stray point. -/
def Click.IsStray (sess : UwmSession) : Click → Prop
  | .taskbar _ _ => False
  | .start px py => Stray (sess.windows startIndex).w (sess.windows startIndex).h px py

/-- In every session, with any windows, a click agrees with what is drawn if and only if it is not
at a stray point of the start menu. -/
theorem clicks_agree_iff (sess : UwmSession) (wm : Wm) (click : Click) :
    click.Agrees sess wm ↔ ¬ click.IsStray sess := by
  cases click with
  | taskbar px py =>
    constructor
    · intro _ hstray
      exact hstray
    · intro _
      exact answers_taskbar sess wm px py
  | start px py =>
    constructor
    · intro hanswers hstray
      exact not_answers_of_stray hstray hanswers
    · intro hstray
      exact answers_menu_of_not_stray hstray

/-- `ush_uwm_fit_dimension`. -/
def fitDimension (wanted minValue maxValue : ℤ) : ℤ :=
  if maxValue < 64 then 64
  else if maxValue < minValue then maxValue
  else if wanted < minValue then minValue
  else if wanted > maxValue then maxValue
  else wanted

/-- The size of the start menu on a screen, as `ush_uwm_prepare_session` has it. -/
def startSize (screenW screenH : ℤ) : ℤ × ℤ :=
  let bottom := if screenH - 48 < 24 then 24 else screenH - 48
  let workH := if bottom - 24 < 80 then 80 else bottom - 24
  (fitDimension 320 180 (screenW - 16), fitDimension 360 160 (workH - 8))

/-- The start menu is open on a screen of 640 by 360 pixels. -/
def smallScreen : UwmSession :=
  { windows := fun i =>
      if i = taskbarIndex then ⟨1, 640, 48, false, false⟩
      else if i = startIndex then ⟨2, (startSize 640 360).1, (startSize 640 360).2, false, false⟩
      else ⟨0, 360, 240, false, true⟩
    activeWindow := -1
    startOpen := true }

/-- The package manager is launched where nothing is drawn. -/
theorem hidden_entry_launched : ¬ ∀ (sess : UwmSession) (wm : Wm) (click : Click), click.Agrees sess wm := by
  intro hall
  have hanswers := hall smallScreen ⟨[some 1, some 2], fun id => some ⟨id, true⟩⟩ (.start 100 211)
  have hnone := hanswers.outside (by decide)
  exact absurd hnone (by decide)

end Cleonos.Uwm
