import Mathlib.Data.Int.Cast.Lemmas

/-!
# The terminal's window

A change of the window's geometry is made of requests that can each fail: the pixels of the new
size are allocated, the window server is asked to resize and then to move the window.
-/

namespace Cleonos.Terminal.Window

/-- A position and a size. -/
structure Frame where
  x : ℤ
  y : ℤ
  w : ℤ
  h : ℤ
deriving DecidableEq, Repr

/-- The fields of `term_app` that belong to its window.  Of the pixels only their number matters;
`none` is the null pointer. -/
structure TermWindow where
  screenW : ℤ
  screenH : ℤ
  frame : Frame
  restore : Frame
  maximized : Bool
  windowId : ℕ
  pixels : Option ℕ
  pixelCount : ℕ
deriving DecidableEq, Repr

/-- The window, and the frame that the window server has for it. -/
structure Desk where
  win : TermWindow
  view : Frame
deriving DecidableEq, Repr

/-- What the allocations and the requests of one change come to. -/
structure Outcome where
  /-- There is memory for the new pixels. -/
  newPixels : Bool
  /-- There is memory for the old pixels again. -/
  oldPixels : Bool
  resize : Bool
  move : Bool

variable {d d' : Desk} {o : Outcome} {target frame : Frame}

def topClampY : ℤ := 24
def taskbarH : ℤ := 48
def minW : ℤ := 360
def minH : ℤ := 220
def canvasMaxPixels : ℕ := 1280 * 800

def clampi (value minValue maxValue : ℤ) : ℤ :=
  if value < minValue then minValue else if value > maxValue then maxValue else value

/-- The conversion of an `int` to `unsigned int`. -/
def u32 (value : ℤ) : ℕ := (value % 2 ^ 32).toNat

/-- `malloc`, by the number of pixels; no bytes are no memory. -/
def malloc (count : ℕ) (enough : Bool) : Option ℕ := if count = 0 ∨ !enough then none else some count

/-- The number of pixels that a frame asks for. -/
def Frame.count (frame : Frame) : ℕ := u32 frame.w * u32 frame.h

/-- No buffer can have this many pixels. -/
def TooMany (count : ℕ) : Prop := count = 0 ∨ count > canvasMaxPixels ∨ count > (2 ^ 64 - 1) / 4

instance (count : ℕ) : Decidable (TooMany count) := inferInstanceAs (Decidable (_ ∨ _ ∨ _))

/-- The lower edge of the area for windows; a screen that is too low has no taskbar. -/
def TermWindow.workBottom (win : TermWindow) : ℤ :=
  if win.screenH - taskbarH < topClampY + minH then win.screenH else win.screenH - taskbarH

/-- The frame that is asked for, kept on the screen. -/
def TermWindow.fitted (win : TermWindow) (target : Frame) : Frame :=
  let newW := clampi target.w minW win.screenW
  let newH := clampi target.h minH (win.workBottom - topClampY)
  { x := clampi target.x 0 (win.screenW - newW)
    y := clampi target.y topClampY (win.workBottom - newH)
    w := newW
    h := newH }

/-- The old pixels were freed; they are allocated anew where there is memory for them. -/
def giveBack (o : Outcome) (d : Desk) : Desk :=
  let pixels := malloc d.win.pixelCount o.oldPixels
  { d with win := { d.win with
      pixels
      pixelCount := if pixels = none then 0 else d.win.pixelCount } }

/-- The window with new pixels, and the server's frame after it has resized it. -/
def resized (d : Desk) (frame : Frame) : Desk :=
  { win := { d.win with
      frame := { d.win.frame with w := frame.w, h := frame.h }
      pixels := some frame.count
      pixelCount := frame.count }
    view := { d.view with w := frame.w, h := frame.h } }

/-- The window after the server has moved it. -/
def moved (d : Desk) (frame : Frame) : Desk :=
  { win := { d.win with frame := { d.win.frame with x := frame.x, y := frame.y } }
    view := { d.view with x := frame.x, y := frame.y } }

/-- The frame has another size than the window. -/
def OtherSize (d : Desk) (frame : Frame) : Prop :=
  frame.w ≠ d.win.frame.w ∨ frame.h ≠ d.win.frame.h

/-- The frame has another position than the window. -/
def OtherPlace (d : Desk) (frame : Frame) : Prop :=
  frame.x ≠ d.win.frame.x ∨ frame.y ≠ d.win.frame.y

instance (d : Desk) (frame : Frame) : Decidable (OtherSize d frame) :=
  inferInstanceAs (Decidable (_ ∨ _))

instance (d : Desk) (frame : Frame) : Decidable (OtherPlace d frame) :=
  inferInstanceAs (Decidable (_ ∨ _))

/-- The first half of `term_apply_geometry`; an error is its failure, with what it left. -/
def applySize (o : Outcome) (d : Desk) (frame : Frame) : Except Desk Desk :=
  if OtherSize d frame then
    if TooMany frame.count then .error d
    else if malloc frame.count o.newPixels = none then .error (giveBack o d)
    else if !o.resize then .error (giveBack o d)
    else .ok (resized d frame)
  else .ok d

/-- The second half of `term_apply_geometry`. -/
def applyMove (o : Outcome) (d : Desk) (frame : Frame) : Except Desk Desk :=
  if OtherPlace d frame then
    if !o.move then .error d else .ok (moved d frame)
  else .ok d

def applyGeometry (o : Outcome) (d : Desk) (target : Frame) : Except Desk Desk :=
  if d.win.windowId = 0 then .error d
  else do
    let d' ← applySize o d (d.win.fitted target)
    applyMove o d' (d.win.fitted target)

/-- The frame of a maximized window. -/
def TermWindow.whole (win : TermWindow) : Frame :=
  let workH := win.screenH - taskbarH - topClampY
  { x := 0
    y := topClampY
    w := win.screenW
    h := if workH < minH then win.screenH - topClampY else workH }

def Desk.setMaximized (d : Desk) (maximized : Bool) : Desk :=
  { d with win := { d.win with maximized } }

/-- The frame to restore is the present one. -/
def Desk.saveFrame (d : Desk) : Desk := { d with win := { d.win with restore := d.win.frame } }

/-- An error is a failure of the `term_apply_geometry` in it. -/
def toggleMaximize (o : Outcome) (d : Desk) : Except Desk Desk :=
  if d.win.windowId = 0 then .ok d
  else if d.win.maximized = false then
    (applyGeometry o (d.saveFrame.setMaximized true) d.win.whole).mapError (·.setMaximized false)
  else (applyGeometry o (d.setMaximized false) d.win.restore).mapError (·.setMaximized true)

/-! ## Opening the window -/

/-- `term_set_geometry`. -/
def startFrame (screenW screenH wantedW wantedH : ℤ) : Frame :=
  let maxW := if screenW - 96 < minW then screenW else screenW - 96
  let maxH := if screenH - 128 < minH then screenH else screenH - 128
  let w := clampi wantedW minW maxW
  let h := clampi wantedH minH maxH
  let y := if screenH > h then (screenH - h) / 2 else topClampY
  { x := if screenW > w then (screenW - w) / 2 else 0
    y := if y < topClampY then topClampY else y
    w
    h }

def fallbackSizes : List (ℤ × ℤ) := [(720, 420), (640, 360), (480, 300)]

/-- One round of `term_init_window`: the pixels are allocated and the server is asked for a window,
whose number is 0 where there is none. -/
def openWindow (screenW screenH : ℤ) (size : ℤ × ℤ) (enough : Bool) (windowId : ℕ) : Option Desk :=
  let frame := startFrame screenW screenH size.1 size.2
  if frame.w ≤ 0 ∨ frame.h ≤ 0 ∨ TooMany frame.count then none
  else if malloc frame.count enough = none then none
  else if windowId = 0 then none
  else some {
    win := {
      screenW, screenH, frame, windowId
      restore := ⟨0, 0, 0, 0⟩
      maximized := false
      pixels := some frame.count
      pixelCount := frame.count }
    view := frame }

/-- `term_load_screen_info` and `term_init_window`, on a display of this size and by the outcome of
each round. -/
def initWindow (width height : ℕ) (rounds : ℕ → Bool × ℕ) : Option Desk :=
  if width = 0 ∨ height = 0 ∨ width > 4096 ∨ height > 4096 then none
  else fallbackSizes.zipIdx.findSome? fun p =>
    openWindow width height p.1 (rounds p.2).1 (rounds p.2).2

inductive Call
  | geometry (target : Frame)
  | toggle

def Call.run (c : Call) (o : Outcome) (d : Desk) : Except Desk Desk :=
  match c with
  | .geometry target => applyGeometry o d target
  | .toggle => toggleMaximize o d

/-- What a call leaves, whether it failed or not. -/
def left : Except Desk Desk → Desk
  | .ok d => d
  | .error d => d

/-- What any calls leave, from a window that was opened. -/
inductive Reachable : Desk → Prop
  | init {d : Desk} {width height : ℕ} {rounds : ℕ → Bool × ℕ}
      (h : initWindow width height rounds = some d) : Reachable d
  | call {d : Desk} (h : Reachable d) (c : Call) (o : Outcome) : Reachable (left (c.run o d))

theorem clampi_bounds {value minValue maxValue lo hi : ℤ} (hlo : lo ≤ minValue) (hlo' : lo ≤ maxValue)
    (hhi : minValue ≤ hi) (hhi' : maxValue ≤ hi) :
    lo ≤ clampi value minValue maxValue ∧ clampi value minValue maxValue ≤ hi := by
  rw [clampi]
  split
  · exact ⟨hlo, hhi⟩
  · split
    · exact ⟨hlo', hhi'⟩
    · omega

theorem u32_eq {value : ℤ} (h : 0 ≤ value) (hlt : value < 2 ^ 32) : (u32 value : ℤ) = value := by
  rw [u32, Int.toNat_of_nonneg (by omega)]
  omega

theorem count_eq (hw : 1 ≤ frame.w) (hw' : frame.w ≤ 4096) (hh : -4096 ≤ frame.h)
    (hh' : frame.h ≤ 4096) (hfew : ¬ TooMany frame.count) :
    (frame.count : ℤ) = frame.w * frame.h := by
  have hwide : (u32 frame.w : ℤ) = frame.w := u32_eq (by omega) (by omega)
  rw [TooMany, canvasMaxPixels] at hfew
  by_cases hneg : frame.h < 0
  · have hhigh : (2 : ℕ) ^ 31 ≤ u32 frame.h := by
      rw [u32]
      omega
    have hmany : 1 * 2 ^ 31 ≤ u32 frame.w * u32 frame.h := Nat.mul_le_mul (by omega) hhigh
    rw [Frame.count] at hfew
    omega
  · rw [Frame.count, Nat.cast_mul, hwide, u32_eq (by omega) (by omega)]

/-- What holds of a window after any calls: the screen is of a size that was accepted, the pixels
fit the recorded size, and the server has the recorded frame. -/
structure Inv (d : Desk) : Prop where
  screenW : 1 ≤ d.win.screenW ∧ d.win.screenW ≤ 4096
  screenH : 1 ≤ d.win.screenH ∧ d.win.screenH ≤ 4096
  fits : ∀ n ∈ d.win.pixels, (n : ℤ) = d.win.frame.w * d.win.frame.h
  count : d.win.pixelCount = d.win.pixels.getD 0
  agrees : d.view = d.win.frame

theorem Inv.fitted_w (h : Inv d) (target : Frame) :
    1 ≤ (d.win.fitted target).w ∧ (d.win.fitted target).w ≤ 4096 := by
  have hw := h.screenW
  have hmin : minW = 360 := rfl
  apply clampi_bounds <;> omega

theorem Inv.fitted_h (h : Inv d) (target : Frame) :
    -4096 ≤ (d.win.fitted target).h ∧ (d.win.fitted target).h ≤ 4096 := by
  have hh := h.screenH
  have hbottom : 1 ≤ d.win.workBottom ∧ d.win.workBottom ≤ 4096 := by
    rw [TermWindow.workBottom, taskbarH, topClampY, minH]
    split <;> omega
  have hmin : minH = 220 := rfl
  have htop : topClampY = 24 := rfl
  apply clampi_bounds <;> omega

theorem malloc_cases (count : ℕ) (enough : Bool) :
    malloc count enough = none ∨ malloc count enough = some count := by
  rw [malloc]
  split
  · exact .inl rfl
  · exact .inr rfl

/-- What a change that failed may leave of a window: nothing but the pixels has changed. -/
structure Kept (d d' : Desk) : Prop where
  frame : d'.win.frame = d.win.frame
  restore : d'.win.restore = d.win.restore
  maximized : d'.win.maximized = d.win.maximized
  view : d'.view = d.view

theorem Kept.rfl : Kept d d := ⟨Eq.refl _, Eq.refl _, Eq.refl _, Eq.refl _⟩

theorem kept_giveBack (o : Outcome) (d : Desk) : Kept d (giveBack o d) := ⟨rfl, rfl, rfl, rfl⟩

theorem inv_giveBack (h : Inv d) (o : Outcome) : Inv (giveBack o d) := by
  constructor
  · exact h.screenW
  · exact h.screenH
  · intro n hn
    change n ∈ malloc d.win.pixelCount o.oldPixels at hn
    rw [malloc] at hn
    split at hn
    · cases hn
    · rename_i hcount
      cases hn
      apply h.fits
      rw [h.count] at hcount ⊢
      cases hp : d.win.pixels with
      | none => simp [hp] at hcount
      | some n => rfl
  · rcases malloc_cases d.win.pixelCount o.oldPixels with hnone | hsome
    · simp [giveBack, hnone]
    · simp [giveBack, hsome]
  · exact h.agrees

theorem inv_resized (h : Inv d) (target : Frame) (hfew : ¬ TooMany (d.win.fitted target).count) :
    Inv (resized d (d.win.fitted target)) := by
  constructor
  · exact h.screenW
  · exact h.screenH
  · intro n hn
    cases hn
    exact count_eq (h.fitted_w target).1 (h.fitted_w target).2 (h.fitted_h target).1
      (h.fitted_h target).2 hfew
  · rfl
  · simp [resized, h.agrees]

theorem inv_moved (h : Inv d) (frame : Frame) : Inv (moved d frame) :=
  ⟨h.screenW, h.screenH, h.fits, h.count, by simp [moved, h.agrees]⟩

/-- The window can be given the size of the frame. -/
def SizeGranted (o : Outcome) (frame : Frame) : Prop :=
  ¬ TooMany frame.count ∧ o.newPixels = true ∧ o.resize = true

theorem applySize_same (h : ¬ OtherSize d frame) : applySize o d frame = .ok d := if_neg h

theorem applySize_granted (h : OtherSize d frame) (hgranted : SizeGranted o frame) :
    applySize o d frame = .ok (resized d frame) := by
  obtain ⟨hfew, hnew, hresize⟩ := hgranted
  have hzero : frame.count ≠ 0 := fun hzero => hfew (.inl hzero)
  rw [applySize, if_pos h, if_neg hfew, if_neg (by simp [malloc, hzero, hnew]), if_neg (by simp [hresize])]

theorem applySize_refused (hinv : Inv d) (h : OtherSize d frame) (hrefused : ¬ SizeGranted o frame) :
    ∃ d', applySize o d frame = .error d' ∧ Kept d d' ∧ Inv d' := by
  rw [applySize, if_pos h]
  by_cases hmany : TooMany frame.count
  · exact ⟨d, if_pos hmany, Kept.rfl, hinv⟩
  rw [if_neg hmany]
  refine ⟨giveBack o d, ?_, kept_giveBack o d, inv_giveBack hinv o⟩
  by_cases hnew : malloc frame.count o.newPixels = none
  · exact if_pos hnew
  rw [if_neg hnew, if_pos]
  by_contra hresize
  apply hrefused
  refine ⟨hmany, ?_, by simpa using hresize⟩
  by_contra hnot
  exact hnew (by simp [malloc, hnot])

/-- The move that is needed is refused. -/
def PlaceRefused (o : Outcome) (d : Desk) (frame : Frame) : Prop := OtherPlace d frame ∧ o.move = false

theorem applyMove_refused (h : PlaceRefused o d frame) : applyMove o d frame = .error d := by
  rw [applyMove, if_pos h.1, if_pos (by simp [h.2])]

theorem applyMove_granted (hinv : Inv d) (h : ¬ PlaceRefused o d frame) :
    ∃ d', applyMove o d frame = .ok d' ∧ Inv d' := by
  rw [applyMove]
  by_cases hplace : OtherPlace d frame
  · refine ⟨moved d frame, ?_, inv_moved hinv frame⟩
    rw [if_pos hplace, if_neg]
    intro hmove
    exact h ⟨hplace, by simpa using hmove⟩
  · exact ⟨d, if_neg hplace, hinv⟩

/-- The window is resized and then not moved. -/
def HalfDone (o : Outcome) (d : Desk) (target : Frame) : Prop :=
  d.win.windowId ≠ 0 ∧ OtherSize d (d.win.fitted target) ∧ SizeGranted o (d.win.fitted target) ∧
    PlaceRefused o d (d.win.fitted target)

/-- Some request of the change is refused. -/
def Refused (o : Outcome) (d : Desk) (target : Frame) : Prop :=
  d.win.windowId = 0 ∨ OtherSize d (d.win.fitted target) ∧ ¬ SizeGranted o (d.win.fitted target) ∨
    PlaceRefused o d (d.win.fitted target)

/-- What `applyGeometry` comes to. -/
inductive Change (o : Outcome) (d : Desk) (target : Frame) : Except Desk Desk → Prop
  | done {d' : Desk} (hall : ¬ Refused o d target) (hinv : Inv d') : Change o d target (.ok d')
  | kept {d' : Desk} (hrefused : Refused o d target) (hhalf : ¬ HalfDone o d target) (hkept : Kept d d')
      (hinv : Inv d') : Change o d target (.error d')
  | half (hrefused : Refused o d target) (hhalf : HalfDone o d target)
      (hinv : Inv (resized d (d.win.fitted target))) :
      Change o d target (.error (resized d (d.win.fitted target)))

theorem change_applyGeometry (h : Inv d) (o : Outcome) (target : Frame) :
    Change o d target (applyGeometry o d target) := by
  rw [applyGeometry]
  by_cases hid : d.win.windowId = 0
  · rw [if_pos hid]
    exact .kept (.inl hid) (fun hhalf => hhalf.1 hid) Kept.rfl h
  rw [if_neg hid]
  by_cases hsize : OtherSize d (d.win.fitted target)
  · by_cases hgranted : SizeGranted o (d.win.fitted target)
    · have hinv := inv_resized h target hgranted.1
      rw [applySize_granted hsize hgranted]
      by_cases hplace : PlaceRefused o d (d.win.fitted target)
      · have hmove : applyMove o (resized d (d.win.fitted target)) (d.win.fitted target) = .error _ :=
          applyMove_refused hplace
        change Change o d target (applyMove o _ _)
        rw [hmove]
        exact .half (.inr (.inr hplace)) ⟨hid, hsize, hgranted, hplace⟩ hinv
      · obtain ⟨d', hmove, hinv'⟩ := applyMove_granted hinv hplace
        change Change o d target (applyMove o _ _)
        rw [hmove]
        exact .done (by simp [Refused, hid, hsize, hgranted, hplace]) hinv'
    · obtain ⟨d', hfail, hkept, hinv⟩ := applySize_refused h hsize hgranted
      rw [hfail]
      exact .kept (.inr (.inl ⟨hsize, hgranted⟩)) (fun hhalf => hgranted hhalf.2.2.1) hkept hinv
  · rw [applySize_same hsize]
    by_cases hplace : PlaceRefused o d (d.win.fitted target)
    · change Change o d target (applyMove o _ _)
      rw [applyMove_refused hplace]
      exact .kept (.inr (.inr hplace)) (fun hhalf => hsize hhalf.2.1) Kept.rfl h
    · obtain ⟨d', hmove, hinv⟩ := applyMove_granted h hplace
      change Change o d target (applyMove o _ _)
      rw [hmove]
      exact .done (by simp [Refused, hid, hsize, hplace]) hinv

variable {screenW screenH : ℤ}

theorem startFrame_w (h : 1 ≤ screenW) (h' : screenW ≤ 4096) (size : ℤ × ℤ) :
    1 ≤ (startFrame screenW screenH size.1 size.2).w ∧
      (startFrame screenW screenH size.1 size.2).w ≤ 4096 := by
  have hmin : minW = 360 := rfl
  apply clampi_bounds <;> grind

theorem startFrame_h (h : 1 ≤ screenH) (h' : screenH ≤ 4096) (size : ℤ × ℤ) :
    -4096 ≤ (startFrame screenW screenH size.1 size.2).h ∧
      (startFrame screenW screenH size.1 size.2).h ≤ 4096 := by
  have hmin : minH = 220 := rfl
  apply clampi_bounds <;> grind

theorem inv_openWindow (hw : 1 ≤ screenW ∧ screenW ≤ 4096)
    (hh : 1 ≤ screenH ∧ screenH ≤ 4096) {size : ℤ × ℤ} {enough : Bool} {windowId : ℕ}
    (h : openWindow screenW screenH size enough windowId = some d) : Inv d := by
  simp only [openWindow] at h
  split at h
  · cases h
  · rename_i hgood
    split at h
    · cases h
    · split at h
      · cases h
      · cases h
        constructor
        · exact hw
        · exact hh
        · intro n hn
          cases hn
          apply count_eq
          · exact (startFrame_w hw.1 hw.2 size).1
          · exact (startFrame_w hw.1 hw.2 size).2
          · exact (startFrame_h hh.1 hh.2 size).1
          · exact (startFrame_h hh.1 hh.2 size).2
          · intro hmany
            exact hgood (.inr (.inr hmany))
        · rfl
        · rfl

theorem inv_initWindow {width height : ℕ} {rounds : ℕ → Bool × ℕ}
    (h : initWindow width height rounds = some d) : Inv d := by
  rw [initWindow] at h
  split at h
  · cases h
  · obtain ⟨p, -, hopen⟩ := List.exists_of_findSome?_eq_some h
    apply inv_openWindow _ _ hopen <;> omega

theorem inv_setMaximized (h : Inv d) (maximized : Bool) : Inv (d.setMaximized maximized) :=
  ⟨h.screenW, h.screenH, h.fits, h.count, h.agrees⟩

theorem inv_saveFrame (h : Inv d) : Inv d.saveFrame :=
  ⟨h.screenW, h.screenH, h.fits, h.count, h.agrees⟩

theorem Change.inv {r : Except Desk Desk} (h : Change o d target r) : Inv (left r) := by
  cases h with
  | done hall hinv => exact hinv
  | kept hrefused hhalf hkept hinv => exact hinv
  | half hrefused hhalf hinv => exact hinv

theorem inv_mapError {r : Except Desk Desk} (h : Inv (left r)) (maximized : Bool) :
    Inv (left (r.mapError (·.setMaximized maximized))) := by
  cases r with
  | ok d => exact h
  | error d => exact inv_setMaximized h maximized

theorem inv_toggleMaximize (h : Inv d) (o : Outcome) : Inv (left (toggleMaximize o d)) := by
  rw [toggleMaximize]
  split
  · exact h
  · split
    · apply inv_mapError
      exact (change_applyGeometry (inv_setMaximized (inv_saveFrame h) true) o _).inv
    · apply inv_mapError
      exact (change_applyGeometry (inv_setMaximized h false) o _).inv

theorem inv_of_reachable (h : Reachable d) : Inv d := by
  induction h with
  | init h => exact inv_initWindow h
  | call h c o ih =>
    cases c with
    | geometry target => exact (change_applyGeometry ih o target).inv
    | toggle => exact inv_toggleMaximize ih o

/-- What is expected of a change: the pixels are absent or fit, and after a failure the position,
the size, the flag and the frame to restore are as before, and the server agrees. -/
structure Atomic (d : Desk) (r : Except Desk Desk) : Prop where
  fits : ∀ n ∈ (left r).win.pixels, (n : ℤ) = (left r).win.frame.w * (left r).win.frame.h
  failed : ∀ d', r = .error d' → d'.win.frame = d.win.frame ∧ d'.win.maximized = d.win.maximized ∧
    d'.win.restore = d.win.restore ∧ d'.view = d'.win.frame

/-- No request leaves a change behind that another one refuses: not the new size where the move is
refused, and not the frame to restore where a request to maximize is. -/
def Call.Survives (c : Call) (o : Outcome) (d : Desk) : Prop :=
  match c with
  | .geometry target => ¬ HalfDone o d target
  | .toggle =>
    if d.win.maximized = false then
      ¬ HalfDone o d d.win.whole ∧
        (d.win.windowId ≠ 0 → Refused o d d.win.whole → d.win.restore = d.win.frame)
    else ¬ HalfDone o d d.win.restore

theorem resized_frame_ne (h : OtherSize d frame) : (resized d frame).win.frame ≠ d.win.frame := by
  intro heq
  rcases h with hw | hh
  · have hsame : (resized d frame).win.frame.w = d.win.frame.w := by rw [heq]
    exact hw hsame
  · have hsame : (resized d frame).win.frame.h = d.win.frame.h := by rw [heq]
    exact hh hsame

theorem atomic_applyGeometry_iff (h : Inv d) (o : Outcome) (target : Frame) :
    Atomic d (applyGeometry o d target) ↔ ¬ HalfDone o d target := by
  have hchange := change_applyGeometry h o target
  generalize applyGeometry o d target = r at hchange
  cases hchange with
  | done hall hinv =>
    constructor
    · intro _ hhalf
      exact hall (.inr (.inr hhalf.2.2.2))
    · intro _
      exact ⟨hinv.fits, fun _ hfail => by cases hfail⟩
  | kept hrefused hhalf hkept hinv =>
    constructor
    · intro _
      exact hhalf
    · intro _
      refine ⟨hinv.fits, fun _ hfail => ?_⟩
      cases hfail
      exact ⟨hkept.frame, hkept.maximized, hkept.restore, hinv.agrees⟩
  | half hrefused hhalf hinv =>
    constructor
    · intro hatomic
      exact absurd (hatomic.failed _ rfl).1 (resized_frame_ne hhalf.2.1)
    · intro hnot
      exact absurd hhalf hnot

theorem atomic_mapError_iff (d₀ : Desk) (h : Inv d) (o : Outcome) (target : Frame)
    (hframe : d.win.frame = d₀.win.frame) :
    Atomic d₀ ((applyGeometry o d target).mapError (·.setMaximized d₀.win.maximized)) ↔
      ¬ HalfDone o d target ∧ (Refused o d target → d.win.restore = d₀.win.restore) := by
  have hchange := change_applyGeometry h o target
  generalize applyGeometry o d target = r at hchange
  cases hchange with
  | done hall hinv =>
    constructor
    · intro _
      exact ⟨fun hhalf => hall (.inr (.inr hhalf.2.2.2)), fun hrefused => absurd hrefused hall⟩
    · intro _
      exact ⟨hinv.fits, fun _ hfail => by cases hfail⟩
  | kept hrefused hhalf hkept hinv =>
    constructor
    · intro hatomic
      refine ⟨hhalf, fun _ => ?_⟩
      rw [← hkept.restore]
      exact (hatomic.failed _ rfl).2.2.1
    · intro hsame
      refine ⟨hinv.fits, fun _ hfail => ?_⟩
      cases hfail
      exact ⟨hkept.frame.trans hframe, rfl, hkept.restore.trans (hsame.2 hrefused), hinv.agrees⟩
  | half hrefused hhalf hinv =>
    constructor
    · intro hatomic
      exact absurd ((hatomic.failed _ rfl).1.trans hframe.symm) (resized_frame_ne hhalf.2.1)
    · intro hnot
      exact absurd hhalf hnot.1

theorem atomic_toggleMaximize_iff (h : Inv d) (o : Outcome) :
    Atomic d (toggleMaximize o d) ↔ Call.toggle.Survives o d := by
  rw [toggleMaximize, Call.Survives]
  by_cases hid : d.win.windowId = 0
  · rw [if_pos hid]
    constructor
    · intro _
      split
      · exact ⟨fun hhalf => hhalf.1 hid, fun hopen => absurd hid hopen⟩
      · exact fun hhalf => hhalf.1 hid
    · intro _
      exact ⟨h.fits, fun _ hfail => by cases hfail⟩
  rw [if_neg hid]
  cases hmax : d.win.maximized with
  | false =>
    rw [if_pos rfl, if_pos rfl, ← hmax,
      atomic_mapError_iff d (inv_setMaximized (inv_saveFrame h) true) o d.win.whole rfl]
    constructor
    · intro hsame
      exact ⟨hsame.1, fun _ hrefused => (hsame.2 hrefused).symm⟩
    · intro hsame
      exact ⟨hsame.1, fun hrefused => (hsame.2 hid hrefused).symm⟩
  | true =>
    rw [if_neg (by simp), if_neg (by simp), ← hmax,
      atomic_mapError_iff d (inv_setMaximized h false) o d.win.restore rfl]
    constructor
    · intro hsame
      exact hsame.1
    · intro hhalf
      exact ⟨hhalf, fun _ => rfl⟩

/-- A change of the window that any calls have left is atomic if and only if the requests of it
that were refused leave nothing behind. -/
theorem geometry_atomic_iff (h : Reachable d) (c : Call) (o : Outcome) :
    Atomic d (c.run o d) ↔ c.Survives o d := by
  have hinv := inv_of_reachable h
  cases c with
  | geometry target => exact atomic_applyGeometry_iff hinv o target
  | toggle => exact atomic_toggleMaximize_iff hinv o

/-! ## A window that is resized and not moved -/

/-- The first window on a display of 1280 by 800 pixels. -/
def firstWindow : Desk :=
  { win := {
      screenW := 1280
      screenH := 800
      frame := ⟨280, 190, 720, 420⟩
      restore := ⟨0, 0, 0, 0⟩
      maximized := false
      windowId := 1
      pixels := some 302400
      pixelCount := 302400 }
    view := ⟨280, 190, 720, 420⟩ }

theorem reachable_firstWindow : Reachable firstWindow :=
  @Reachable.init firstWindow 1280 800 (fun _ => (true, 1)) (by decide)

/-- Every request but the move is granted. -/
def notMoved : Outcome := ⟨true, true, true, false⟩

theorem geometry_atomic_first : Atomic firstWindow ((Call.geometry ⟨0, 24, 720, 420⟩).run notMoved firstWindow) :=
  (geometry_atomic_iff reachable_firstWindow _ _).2 (by
    intro hhalf
    exact absurd hhalf.2.1 (by decide))

/-- The window is maximized; the server resizes it and does not move it. -/
theorem maximize_half_done : ¬ ∀ (d : Desk) (c : Call) (o : Outcome), Reachable d → Atomic d (c.run o d) := by
  intro h
  have hatomic := h firstWindow .toggle notMoved reachable_firstWindow
  exact absurd (hatomic.failed _ rfl).1 (by decide)

end Cleonos.Terminal.Window
