import Cleonos.Lib.Repaint
import Cleonos.Lib.Run
import Cleonos.Termbox.Model

/-!
# What the terminal shows

A run is any sequence of calls, in which the terminal is drawn over, or gets another size, in
front of the call that is told so.
-/

namespace Cleonos.Termbox

open List
open Repaint

variable {σ γ : Type} (tty : Tty σ γ)

/-! ## Runs -/

/-- The calls.  Where the terminal may have changed in between, the call comes with the terminal it
finds. -/
inductive Call (σ : Type)
  | init (term : σ) (reply : Reply)
  | shutdown
  | clear
  | setClearAttrs (fg bg : UInt64)
  | present
  | invalidate (term : σ)
  | setCursor (cx cy : ℤ)
  | hideCursor
  | setCell (x y : ℤ) (cell : TbCell)
  | print (x y : ℤ) (fg bg : UInt64) (str : Option (List UInt8))
  | peekEvent (term : σ) (event : Option TbEvent) (reply : Reply) (input : List (Option UInt8))

def step (w : World σ) : Call σ → Option (TbCode × World σ)
  | .init term reply => some (tbInit tty { w with term := term } reply)
  | .shutdown => some (tbShutdown tty w)
  | .clear => tbClear w
  | .setClearAttrs fg bg => some (tbSetClearAttrs w fg bg)
  | .present => tbPresent tty w
  | .invalidate term => tbInvalidate { w with term := term }
  | .setCursor cx cy => some (tbSetCursor w cx cy)
  | .hideCursor => some (tbHideCursor w)
  | .setCell x y cell => tbSetCell w x y cell
  | .print x y fg bg str => tbPrint w x y fg bg str
  | .peekEvent term event reply input =>
    let r := tbPeekEvent tty { w with term := term } event reply input
    some (r.1, r.2.2)

/-- The terminal reports a size that is not the library's. -/
def Reports (s : TbState) (term : σ) (reply : Reply) (width height : ℤ) : Prop :=
  queryGrid tty term reply.works = some (width, height) ∧ ¬ (width = s.width ∧ height = s.height)

/-- The terminal changes in front of `tb_init`; its contents change in front of `tb_invalidate`; and
it changes in front of a `tb_peek_event` that is told another size. -/
def Legal (w : World σ) : Call σ → Prop
  | .init term _ => w.tb.initialized = false ∨ term = w.term
  | .invalidate term => w.tb.initialized = false ∨
      tty.cols term = tty.cols w.term ∧ tty.rows term = tty.rows w.term
  | .peekEvent term event reply _ => w.tb.initialized = false ∨ term = w.term ∨
      event ≠ none ∧ ∃ width height, Reports tty w.tb term reply width height
  | _ => True

def Step (w w' : World σ) : Prop :=
  ∃ call code, Legal tty w call ∧ step tty w call = some (code, w')

/-- Both buffers are there, and as large as the grid. -/
def BuffersExist (s : TbState) : Prop :=
  s.initialized = true → ∃ back front, s.back = some back ∧ s.front = some front ∧
    back.length = s.width * s.height ∧ front.length = s.width * s.height

/-- A cell of a buffer, by column and row. -/
def cellAt (s : TbState) (buffer : Option (List TbCell)) (p : ℕ × ℕ) : TbCell :=
  (load buffer (p.2 * s.width + p.1)).getD TbCell.zero

/-- The cells of the grid of the library. -/
def TbState.cells (s : TbState) : List (ℕ × ℕ) := cellsOf s.width s.height

/-- What `tb_present` would write if it skipped nothing. -/
def fullRedraw (w : World σ) : σ :=
  placeCursor tty w.tb (redraw (drawCell tty) (cellAt w.tb w.tb.back) w.term w.tb.cells)

/-- The terminal shows in every cell what a full redraw shows. -/
def ShowsRedraw (w w' : World σ) : Prop :=
  ∀ p ∈ w.tb.cells, tty.shown w'.term p.1 p.2 = tty.shown (fullRedraw tty w) p.1 p.2

/-- A cell that is all zero in both buffers shows a blank. -/
def NoStaleBlank (glyph : List UInt8 → UInt32 → γ) (w : World σ) : Prop :=
  ∀ p ∈ w.tb.cells, cellAt w.tb w.tb.back p = TbCell.zero →
    cellAt w.tb w.tb.front p = TbCell.zero → tty.shown w.term p.1 p.2 = look glyph TbCell.zero

/-- The back buffer holds plain characters. -/
def Plain (plain : UInt32 → Prop) (s : TbState) : Prop :=
  ∀ p ∈ s.cells, plain (cellAt s s.back p).char

/-- When a size is reported it is one of a grid, and there is memory for it; and a screen that is
presented holds plain characters. -/
def Good (plain : UInt32 → Prop) (w : World σ) : Call σ → Prop
  | .present => Plain plain w.tb
  | .peekEvent term _ reply _ => ∀ width height, Reports tty w.tb term reply width height →
      0 < width ∧ 0 < height ∧ reply.backOk = true ∧ reply.frontOk = true
  | _ => True

/-- A step that meets the condition. -/
def GoodStep (plain : UInt32 → Prop) (w w' : World σ) : Prop :=
  ∃ call code, Legal tty w call ∧ Good tty plain w call ∧ step tty w call = some (code, w')

section Cells

variable {width height x y count index : ℕ} {l : List TbCell} {cell : TbCell} {p q : ℕ × ℕ}
  {s : TbState} {buffer : Option (List TbCell)}

theorem mem_cellsOf : p ∈ cellsOf width height ↔ p.1 < width ∧ p.2 < height := by
  obtain ⟨x, y⟩ := p
  simp only [cellsOf, mem_flatMap, mem_map, mem_range, Prod.mk.injEq]
  constructor
  · rintro ⟨y', hy, x', hx, rfl, rfl⟩
    exact ⟨hx, hy⟩
  · rintro ⟨hx, hy⟩
    exact ⟨y, hy, x, hx, rfl, rfl⟩

theorem nodup_cellsOf : (cellsOf width height).Nodup := by
  rw [cellsOf, nodup_flatMap]
  refine ⟨fun y _ => nodup_range.map fun x x' h => (Prod.mk.inj h).1, ?_⟩
  refine nodup_range.imp fun {y y'} hne => ?_
  simp only [Function.onFun, disjoint_left, mem_map]
  rintro _ ⟨x, -, rfl⟩ ⟨x', -, h⟩
  exact hne (Prod.mk.inj h).2.symm

theorem index_lt (h : p ∈ cellsOf width height) : p.2 * width + p.1 < width * height := by
  obtain ⟨hx, hy⟩ := mem_cellsOf.1 h
  calc p.2 * width + p.1 < p.2 * width + width := Nat.add_lt_add_left hx _
    _ = width * (p.2 + 1) := by rw [Nat.mul_comm, Nat.mul_succ]
    _ ≤ width * height := Nat.mul_le_mul_left _ hy

theorem index_inj (hp : p.1 < width) (hq : q.1 < width)
    (h : p.2 * width + p.1 = q.2 * width + q.1) : p = q := by
  have hx : p.1 = q.1 := by
    have hmod := congrArg (· % width) h
    simpa [Nat.mul_comm _ width, Nat.mul_add_mod, Nat.mod_eq_of_lt hp, Nat.mod_eq_of_lt hq]
      using hmod
  have hpos : 0 < width := Nat.lt_of_le_of_lt (Nat.zero_le _) hp
  have hy : p.2 = q.2 := Nat.eq_of_mul_eq_mul_right hpos (by omega)
  exact Prod.ext hx hy

theorem store_some (h : index < l.length) :
    store (some l) index cell = some (some (l.set index cell)) := by
  rw [store, Option.bind_some, if_pos h]

theorem fillCells_some (h : count ≤ l.length) :
    fillCells (some l) count cell = some (some (List.replicate count cell ++ l.drop count)) := by
  induction count with
  | zero => rfl
  | succ count ih =>
    have hfill := ih (by omega)
    rw [fillCells] at hfill ⊢
    rw [range_succ, foldlM_append, hfill]
    have hlt : count < (List.replicate count cell ++ l.drop count).length := by simp; omega
    have hstep : List.foldlM (fun buffer i => store buffer i cell)
        (some (List.replicate count cell ++ l.drop count)) [count] =
        store (some (List.replicate count cell ++ l.drop count)) count cell := by
      rw [foldlM_cons]
      simp only [foldlM_nil, bind_pure]
    refine Eq.trans hstep ?_
    rw [store_some hlt, drop_eq_getElem_cons (by omega : count < l.length),
      set_append_right _ _ (by simp), length_replicate, Nat.sub_self, set_cons_zero,
      replicate_succ', append_assoc]
    rfl

theorem fillCells_all (h : l.length = count) :
    fillCells (some l) count cell = some (some (List.replicate count cell)) := by
  rw [fillCells_some (Nat.le_of_eq h.symm), drop_of_length_le (Nat.le_of_eq h), append_nil]

theorem cellAt_replicate : cellAt s (some (List.replicate count TbCell.zero)) p = TbCell.zero := by
  rw [cellAt, load, Option.bind_some, List.getElem?_replicate]
  split <;> rfl

theorem load_cellAt (h : p ∈ s.cells) (hl : l.length = s.width * s.height) :
    load (some l) (p.2 * s.width + p.1) = some (cellAt s (some l) p) := by
  have hlt := index_lt h
  rw [← hl] at hlt
  rw [cellAt, load, Option.bind_some, List.getElem?_eq_getElem hlt, Option.getD_some]

theorem cellAt_set (hp : p ∈ s.cells) (hq : q ∈ s.cells) (hl : l.length = s.width * s.height) :
    cellAt s (some (l.set (p.2 * s.width + p.1) cell)) q =
      if q = p then cell else cellAt s (some l) q := by
  have hlt := index_lt hp
  rw [← hl] at hlt
  rw [cellAt, load, Option.bind_some]
  by_cases hqp : q = p
  · rw [if_pos hqp, hqp, List.getElem?_set_self hlt, Option.getD_some]
  · have hne : p.2 * s.width + p.1 ≠ q.2 * s.width + q.1 :=
      fun h => hqp (index_inj (mem_cellsOf.1 hp).1 (mem_cellsOf.1 hq).1 h).symm
    rw [if_neg hqp, List.getElem?_set_ne hne, cellAt, load, Option.bind_some]

end Cells

section Present

variable {tty} {s : TbState} {term : σ} {bl l : List TbCell} {ps : List (ℕ × ℕ)} {p q : ℕ × ℕ}
  {glyph : List UInt8 → UInt32 → γ} {plain : UInt32 → Prop}

theorem presentCell_eq (hp : p ∈ s.cells) (hb : s.back = some bl)
    (hbl : bl.length = s.width * s.height) (hl : l.length = s.width * s.height) :
    presentCell tty s (some l, term) p =
      if cellAt s s.back p = cellAt s (some l) p then some (some l, term)
      else some (some (l.set (p.2 * s.width + p.1) (cellAt s s.back p)),
        drawCell tty term p (cellAt s s.back p)) := by
  have hlt := index_lt hp
  rw [← hl] at hlt
  have hback : load s.back (p.2 * s.width + p.1) = some (cellAt s s.back p) := by
    rw [hb]
    exact load_cellAt hp hbl
  simp only [presentCell, hback, load_cellAt hp hl, store_some hlt, Option.bind_eq_bind,
    Option.bind_some]

theorem present_fold (tty : Tty σ γ) (term : σ) (hb : s.back = some bl) (hbl : bl.length = s.width * s.height)
    (hl : l.length = s.width * s.height) (hsub : ∀ p ∈ ps, p ∈ s.cells) (hnd : ps.Nodup) :
    ∃ l', ps.foldlM (presentCell tty s) (some l, term) =
        some (some l', repaint (drawCell tty) (cellAt s s.back) (cellAt s (some l)) term ps) ∧
      l'.length = s.width * s.height ∧
      ∀ q ∈ s.cells, cellAt s (some l') q =
        if q ∈ ps then cellAt s s.back q else cellAt s (some l) q := by
  induction ps generalizing l term with
  | nil => exact ⟨l, rfl, hl, fun q _ => by simp⟩
  | cons p ps ih =>
    have hp : p ∈ s.cells := hsub p mem_cons_self
    have hsub' : ∀ p ∈ ps, p ∈ s.cells := fun r hr => hsub r (mem_cons_of_mem p hr)
    obtain ⟨hnotin, hnd'⟩ := nodup_cons.1 hnd
    rw [foldlM_cons, presentCell_eq hp hb hbl hl, repaint, foldl_cons]
    by_cases heq : cellAt s s.back p = cellAt s (some l) p
    · rw [if_pos heq, if_pos heq]
      obtain ⟨l', hfold, hlen, hcells⟩ := ih term hl hsub' hnd'
      refine ⟨l', hfold, hlen, fun q hq => ?_⟩
      rw [hcells q hq]
      by_cases hqp : q = p
      · simp [hqp, heq, hnotin]
      · simp [hqp]
    · rw [if_neg heq, if_neg heq]
      have hset : (l.set (p.2 * s.width + p.1) (cellAt s s.back p)).length =
          s.width * s.height := by rw [length_set, hl]
      have hother : ∀ q ∈ ps, cellAt s (some (l.set (p.2 * s.width + p.1) (cellAt s s.back p))) q =
          cellAt s (some l) q := by
        intro q hq
        rw [cellAt_set hp (hsub' q hq) hl, if_neg]
        rintro rfl
        exact hnotin hq
      obtain ⟨l', hfold, hlen, hcells⟩ :=
        ih (drawCell tty term p (cellAt s s.back p)) hset hsub' hnd'
      refine ⟨l', ?_, hlen, fun q hq => ?_⟩
      · refine hfold.trans ?_
        rw [repaint_congr hother]
        rfl
      · rw [hcells q hq, cellAt_set hp hq hl]
        by_cases hqp : q = p
        · simp [hqp, hnotin]
        · simp [hqp]

section

variable (hdoc : Documented tty glyph plain)
include hdoc

theorem Documented.draws (s : TbState) :
    Draws (drawCell tty) (fun term p => tty.shown term p.1 p.2) (look glyph) s.cells
      (fun cell => plain cell.char)
      fun term => s.width ≤ tty.cols term ∧ s.height ≤ tty.rows term := by
  intro term hsize p hp cell hplain
  have hp' := mem_cellsOf.1 hp
  refine ⟨?_, fun q hq => ?_⟩
  · simpa only [drawCell, hdoc.cols, hdoc.rows] using hsize
  · have hq' := mem_cellsOf.1 hq
    have hput := hdoc.put term p.1 p.2 cell.fg cell.bg cell.char hplain
      (Nat.lt_of_lt_of_le hp'.1 hsize.1) (Nat.lt_of_lt_of_le hp'.2 hsize.2) q.1 q.2
      (Nat.lt_of_lt_of_le hq'.1 hsize.1) (Nat.lt_of_lt_of_le hq'.2 hsize.2)
    refine hput.trans ?_
    by_cases hqp : q = p
    · rw [if_pos hqp, if_pos ⟨congrArg Prod.fst hqp, congrArg Prod.snd hqp⟩, look]
    · rw [if_neg hqp, if_neg fun h => hqp (Prod.ext h.1 h.2)]

theorem Documented.shown_placeCursor (s : TbState) (term : σ) :
    tty.shown (placeCursor tty s term) = tty.shown term := by
  rw [placeCursor]
  split
  · rw [hdoc.cursor _ _ (.inr (.inr ⟨_, _, rfl⟩)), hdoc.cursor _ _ (.inl rfl)]
  · rw [hdoc.cursor _ _ (.inr (.inl rfl))]

theorem Documented.size_placeCursor (s : TbState) (term : σ) :
    tty.cols (placeCursor tty s term) = tty.cols term ∧
      tty.rows (placeCursor tty s term) = tty.rows term := by
  rw [placeCursor]
  split <;> simp only [hdoc.cols, hdoc.rows, and_self]

end

end Present

section Invariant

variable {tty} {w w' : World σ} {glyph : List UInt8 → UInt32 → γ} {plain : UInt32 → Prop}

/-- The buffers exist, the grid lies on the terminal, and a cell of the front buffer that is not all
zero tells what the terminal shows. -/
structure Described (tty : Tty σ γ) (glyph : List UInt8 → UInt32 → γ) (w : World σ)
    (back front : List TbCell) : Prop where
  back_eq : w.tb.back = some back
  front_eq : w.tb.front = some front
  length_back : back.length = w.tb.width * w.tb.height
  length_front : front.length = w.tb.width * w.tb.height
  cols : w.tb.width ≤ tty.cols w.term
  rows : w.tb.height ≤ tty.rows w.term
  shown : ∀ p ∈ w.tb.cells, cellAt w.tb w.tb.front p ≠ TbCell.zero →
    tty.shown w.term p.1 p.2 = look glyph (cellAt w.tb w.tb.front p)

def Inv (tty : Tty σ γ) (glyph : List UInt8 → UInt32 → γ) (w : World σ) : Prop :=
  w.tb.initialized = true → ∃ back front, Described tty glyph w back front

theorem Inv.buffersExist (h : Inv tty glyph w) : BuffersExist w.tb := by
  intro hinit
  obtain ⟨back, front, hd⟩ := h hinit
  exact ⟨back, front, hd.back_eq, hd.front_eq, hd.length_back, hd.length_front⟩

theorem Described.setBack {back front back' : List TbCell} (h : Described tty glyph w back front)
    (hlen : back'.length = back.length) :
    Described tty glyph { w with tb := { w.tb with back := some back' } } back' front :=
  ⟨rfl, h.front_eq, hlen.trans h.length_back, h.length_front, h.cols, h.rows, h.shown⟩

theorem Described.present (hdoc : Documented tty glyph plain) {back front : List TbCell}
    (h : Described tty glyph w back front) (hinit : w.tb.initialized = true) :
    ∃ w' front', tbPresent tty w = some (.ok, w') ∧
      (Plain plain w.tb → Described tty glyph w' back front') ∧
      (Plain plain w.tb → (ShowsRedraw tty w w' ↔ NoStaleBlank tty glyph w)) ∧
      w'.tb = { w.tb with front := some front' } ∧ front'.length = w.tb.width * w.tb.height := by
  obtain ⟨front', hfold, hlen, hcells⟩ := present_fold tty w.term h.back_eq
    h.length_back h.length_front (fun _ hp => hp) nodup_cellsOf
  have hfront : some front = w.tb.front := h.front_eq.symm
  rw [hfront] at hfold hcells
  have hdraw := hdoc.draws w.tb
  have hsize : w.tb.width ≤ tty.cols w.term ∧ w.tb.height ≤ tty.rows w.term := ⟨h.cols, h.rows⟩
  have hcall : tbPresent tty w = some (.ok, ⟨{ w.tb with front := some front' },
      placeCursor tty w.tb (repaint (drawCell tty) (cellAt w.tb w.tb.back)
        (cellAt w.tb w.tb.front) w.term w.tb.cells)⟩) := by
    rw [tbPresent, if_neg (by simp [hinit])]
    change (w.tb.cells.foldlM (presentCell tty w.tb) (w.tb.front, w.term)).map _ = _
    rw [hfold, Option.map_some]
  refine ⟨_, front', hcall, fun hplain => ?_, fun hplain => ?_, rfl, hlen⟩
  · obtain ⟨hgood, hshown⟩ := shown_repaint (cellAt w.tb w.tb.front) hdraw hplain hsize
    obtain ⟨hcols, hrows⟩ := hdoc.size_placeCursor w.tb (repaint (drawCell tty)
      (cellAt w.tb w.tb.back) (cellAt w.tb w.tb.front) w.term w.tb.cells)
    refine ⟨h.back_eq, rfl, h.length_back, hlen, hcols ▸ hgood.1, hrows ▸ hgood.2, fun p hp' hne => ?_⟩
    have hp : p ∈ w.tb.cells := hp'
    -- the front buffer has become the back buffer
    have hcell : cellAt w.tb (some front') p = cellAt w.tb w.tb.back p := by
      rw [hcells p hp, if_pos hp]
    change cellAt w.tb (some front') p ≠ _ at hne
    change tty.shown (placeCursor tty w.tb _) p.1 p.2 = look glyph (cellAt w.tb (some front') p)
    rw [hcell] at hne ⊢
    rw [hdoc.shown_placeCursor, hshown p hp]
    split
    · rename_i heq
      rw [heq] at hne ⊢
      exact h.shown p hp hne
    · rfl
  · have hiff := repaint_eq_redraw_iff (cellAt w.tb w.tb.front) hdraw hplain hsize
    rw [ShowsRedraw, fullRedraw, hdoc.shown_placeCursor, hdoc.shown_placeCursor]
    refine hiff.trans ⟨fun hall p hp hback hfront => ?_, fun hall p hp heq => ?_⟩
    · rw [← hback]
      exact hall p hp (hback.trans hfront.symm)
    · by_cases hzero : cellAt w.tb w.tb.back p = TbCell.zero
      · rw [hzero]
        exact hall p hp hzero (heq ▸ hzero)
      · rw [heq] at hzero ⊢
        exact h.shown p hp hzero

variable {back front : List TbCell} {s : TbState} {term : σ} {width height x y : ℤ}
  {fg bg : UInt64} {reply : Reply}

theorem Inv.of_described (h : Described tty glyph w back front) : Inv tty glyph w :=
  fun _ => ⟨back, front, h⟩

theorem Inv.of_not_initialized (h : w.tb.initialized = false) : Inv tty glyph w :=
  fun hinit => absurd (h.symm.trans hinit) (by simp)

/-- What a resize, or the start, leaves in the library. -/
def freshBuffers (s : TbState) (width height : ℤ) : TbState :=
  { s with
    back := some (List.replicate (width.toNat * height.toNat) TbCell.zero)
    front := some (List.replicate (width.toNat * height.toNat) TbCell.zero)
    width := width.toNat
    height := height.toNat }

theorem allocBuffers_cases (s : TbState) (width height : ℤ) (backOk frontOk : Bool) :
    ((width ≤ 0 ∨ height ≤ 0) ∧ allocBuffers s width height backOk frontOk = (.err, s)) ∨
    (¬ (backOk = true ∧ frontOk = true) ∧
      allocBuffers s width height backOk frontOk = (.errMem, freeBuffers s)) ∨
    (0 < width ∧ 0 < height ∧
      allocBuffers s width height backOk frontOk = (.ok, freshBuffers s width height)) := by
  rw [allocBuffers]
  by_cases hsize : width ≤ 0 ∨ height ≤ 0
  · exact .inl ⟨hsize, if_pos hsize⟩
  · rw [if_neg hsize]
    have hwidth : 0 < width := by omega
    have hheight : 0 < height := by omega
    cases backOk
    · exact .inr (.inl ⟨by simp, rfl⟩)
    · cases frontOk
      · exact .inr (.inl ⟨by simp, rfl⟩)
      · exact .inr (.inr ⟨hwidth, hheight, rfl⟩)

theorem bmod_le (n m : ℕ) : (n : ℤ).bmod m ≤ n := by
  have hle : (n : ℤ) % m ≤ n := by exact_mod_cast Nat.mod_le n m
  rw [Int.bmod_def]
  split <;> omega

theorem toInt_le (n : ℕ) : toInt n ≤ n := bmod_le n _

theorem described_fresh (hquery : queryGrid tty term reply.works = some (width, height)) :
    Described tty glyph ⟨freshBuffers s width height, term⟩
      (List.replicate (width.toNat * height.toNat) TbCell.zero)
      (List.replicate (width.toNat * height.toNat) TbCell.zero) := by
  rw [queryGrid] at hquery
  split at hquery
  · exact absurd hquery (by simp)
  · rw [Option.some.injEq, Prod.mk.injEq] at hquery
    have hcols := toInt_le (tty.cols term)
    have hrows := toInt_le (tty.rows term)
    refine ⟨rfl, rfl, length_replicate, length_replicate, ?_, ?_, fun p _ hne => ?_⟩
    · change width.toNat ≤ tty.cols term
      omega
    · change height.toNat ≤ tty.rows term
      omega
    · exact absurd cellAt_replicate hne

theorem Described.write (hdoc : Documented tty glyph plain) {text : List UInt8}
    (h : Described tty glyph w back front)
    (hzero : ∀ p, cellAt w.tb w.tb.front p = TbCell.zero) :
    Described tty glyph { w with term := tty.write w.term text } back front :=
  ⟨h.back_eq, h.front_eq, h.length_back, h.length_front, (hdoc.cols _ _).symm ▸ h.cols,
    (hdoc.rows _ _).symm ▸ h.rows, fun p _ hne => absurd (hzero p) hne⟩

theorem Inv.init (hdoc : Documented tty glyph plain) (h : Inv tty glyph w)
    (hl : Legal tty w (.init term reply)) :
    Inv tty glyph (tbInit tty { w with term := term } reply).2 := by
  rw [tbInit]
  split
  · rename_i hinit
    rcases hl with hl | rfl
    · exact absurd (hl.symm.trans hinit) (by simp)
    · exact h
  · split
    · exact .of_not_initialized rfl
    · rename_i width height hquery
      rcases allocBuffers_cases .start width height reply.backOk reply.frontOk with
        ⟨-, halloc⟩ | ⟨-, halloc⟩ | ⟨-, -, halloc⟩
      · rw [halloc]
        exact .of_not_initialized rfl
      · rw [halloc]
        exact .of_not_initialized rfl
      · rw [halloc]
        have hfresh : Described tty glyph
            ⟨freshBuffers { TbState.start with initialized := true } width height, term⟩ _ _ :=
          described_fresh hquery
        have hzero : ∀ p, cellAt (freshBuffers { TbState.start with initialized := true } width height)
            (freshBuffers { TbState.start with initialized := true } width height).front p =
            TbCell.zero := fun p => cellAt_replicate
        exact .of_described ((hfresh.write hdoc hzero).write hdoc hzero)

theorem Inv.peekEvent {event : Option TbEvent} {input : List (Option UInt8)}
    (h : Inv tty glyph w) (hl : Legal tty w (.peekEvent term event reply input))
    (hg : Good tty plain w (.peekEvent term event reply input)) :
    Inv tty glyph (tbPeekEvent tty { w with term := term } event reply input).2.2 := by
  rw [tbPeekEvent.eq_def]
  split
  · exact .of_not_initialized ‹_›
  rename_i hinit
  have hinit' : ¬ w.tb.initialized = false := hinit
  cases event with
  | none =>
    rcases hl with hl | rfl | ⟨hl, -⟩
    · exact absurd hl hinit'
    · exact h
    · exact absurd rfl hl
  | some event =>
    have hsplit : ∀ r : TbCode × TbState × TbEvent, (if r.1 = .ok ∧ r.2.2.type = 2 then
        (TbCode.eventResize, some r.2.2, { w with tb := r.2.1, term := term })
        else ((readEvent input).1, some (readEvent input).2,
          { w with tb := r.2.1, term := term })).2.2 = ⟨r.2.1, term⟩ := by
      intro r
      split <;> rfl
    refine (hsplit _).symm ▸ ?_
    rw [refreshSize]
    by_cases hreport : ∃ width height, Reports tty w.tb term reply width height
    · obtain ⟨width, height, hquery, hne⟩ := hreport
      obtain ⟨hwidth, hheight, hback, hfront⟩ := hg width height ⟨hquery, hne⟩
      rw [hquery]
      dsimp only
      rw [if_neg hne]
      rcases allocBuffers_cases w.tb width height reply.backOk reply.frontOk with
        ⟨hsize, -⟩ | ⟨hmem, -⟩ | ⟨-, -, halloc⟩
      · omega
      · exact absurd ⟨hback, hfront⟩ hmem
      · rw [halloc]
        exact .of_described (described_fresh hquery)
    · have hterm : term = w.term := by
        rcases hl with hl | hl | ⟨-, hl⟩
        · exact absurd hl hinit'
        · exact hl
        · exact absurd hl hreport
      subst hterm
      split
      · exact h
      · rename_i width height hquery
        by_cases hsame : width = w.tb.width ∧ height = w.tb.height
        · rw [if_pos hsame]
          exact h
        · exact absurd ⟨width, height, hquery, hsame⟩ hreport

theorem Described.setCell (h : Described tty glyph w back front) (x y : ℤ) (cell : TbCell)
    (hinit : w.tb.initialized = true) :
    ∃ code w' back', tbSetCell w x y cell = some (code, w') ∧
      Described tty glyph w' back' front ∧ w'.tb.initialized = true := by
  rw [tbSetCell, if_neg (by simp [hinit])]
  split
  · exact ⟨_, w, back, rfl, h, hinit⟩
  · rename_i hin
    have hmem : (x.toNat, y.toNat) ∈ cellsOf w.tb.width w.tb.height :=
      mem_cellsOf.2 ⟨by dsimp only; omega, by dsimp only; omega⟩
    have hlt := index_lt hmem
    rw [← h.length_back] at hlt
    rw [h.back_eq, store_some hlt, Option.map_some]
    exact ⟨_, _, _, rfl, h.setBack length_set, hinit⟩

theorem Described.printLoop (h : Described tty glyph w back front) (fg bg : UInt64) (x y : ℤ)
    (str : List UInt8) (hinit : w.tb.initialized = true) :
    ∃ code w' back', Termbox.printLoop fg bg w x y str = some (code, w') ∧
      Described tty glyph w' back' front := by
  induction hn : str.length using Nat.strong_induction_on generalizing w x y str back with
  | _ n ih =>
    rw [Termbox.printLoop]
    split
    · exact ⟨_, w, back, rfl, h⟩
    · rename_i hend
      have hpos : 0 < str.length := by
        cases str with
        | nil => simp at hend
        | cons c cs => simp
      have hdrop : (str.drop (max (charToUnicode str).2 1)).length < n := by
        rw [length_drop]
        omega
      dsimp only
      generalize (if (charToUnicode str).2 = 0 then 63 else (charToUnicode str).1) = ch
      by_cases hnewline : ch = 10
      · rw [if_pos hnewline]
        exact ih _ hdrop h _ _ _ hinit rfl
      · rw [if_neg hnewline]
        split
        · obtain ⟨code, w', back', hset, hd, hinit'⟩ := h.setCell x y ⟨ch, fg, bg⟩ hinit
          rw [hset]
          exact ih _ hdrop hd _ _ _ hinit' rfl
        · exact ih _ hdrop h _ _ _ hinit rfl

theorem Inv.shutdown (h : Inv tty glyph w) : Inv tty glyph (tbShutdown tty w).2 := by
  rw [tbShutdown]
  split
  · exact h
  · exact .of_not_initialized rfl

theorem Inv.setCursor (h : Inv tty glyph w) (cx cy : ℤ) :
    Inv tty glyph (tbSetCursor w cx cy).2 := by
  rw [tbSetCursor]
  split
  · exact h
  · intro hinit
    obtain ⟨back, front, hd⟩ := h hinit
    exact ⟨back, front, hd.back_eq, hd.front_eq, hd.length_back, hd.length_front, hd.cols,
      hd.rows, hd.shown⟩

theorem Inv.step (hdoc : Documented tty glyph plain) (h : Inv tty glyph w) (call : Call σ) :
    ∃ code w', Termbox.step tty w call = some (code, w') ∧
      (Legal tty w call → Good tty plain w call → Inv tty glyph w') := by
  have hcases : w.tb.initialized = false ∨
      w.tb.initialized = true ∧ ∃ back front, Described tty glyph w back front := by
    cases hinit : w.tb.initialized
    · exact .inl rfl
    · exact .inr ⟨rfl, h hinit⟩
  cases call with
  | init term reply =>
    exact ⟨(tbInit tty { w with term := term } reply).1, _, rfl, fun hl _ => h.init hdoc hl⟩
  | shutdown => exact ⟨(tbShutdown tty w).1, (tbShutdown tty w).2, rfl, fun _ _ => h.shutdown⟩
  | clear =>
    rcases hcases with hinit | ⟨hinit, back, front, hd⟩
    · exact ⟨_, w, by rw [Termbox.step, tbClear, if_pos hinit], fun _ _ => h⟩
    · refine ⟨_, _, by rw [Termbox.step, tbClear, if_neg (by simp [hinit]), hd.back_eq,
        fillCells_all hd.length_back, Option.map_some], fun _ _ => ?_⟩
      exact .of_described (hd.setBack (by rw [length_replicate, hd.length_back]))
  | setClearAttrs fg bg =>
    refine ⟨_, _, rfl, fun _ _ hinit => ?_⟩
    obtain ⟨back, front, hd⟩ := h hinit
    exact ⟨back, front, hd.back_eq, hd.front_eq, hd.length_back, hd.length_front, hd.cols,
      hd.rows, hd.shown⟩
  | present =>
    rcases hcases with hinit | ⟨hinit, back, front, hd⟩
    · exact ⟨_, w, by rw [Termbox.step, tbPresent, if_pos hinit], fun _ _ => h⟩
    · obtain ⟨w', front', hcall, hd', -⟩ := hd.present hdoc hinit
      exact ⟨_, w', hcall, fun _ hg => .of_described (hd' hg)⟩
  | invalidate term =>
    rcases hcases with hinit | ⟨hinit, back, front, hd⟩
    · refine ⟨.errNotInit, { w with term := term }, ?_, fun _ _ => .of_not_initialized hinit⟩
      rw [Termbox.step, tbInvalidate, if_pos hinit]
    · refine ⟨_, _, by rw [Termbox.step, tbInvalidate, if_neg (by simp [hinit]), hd.front_eq,
        fillCells_all hd.length_front, Option.map_some], fun hl _ => ?_⟩
      rcases hl with hl | ⟨hcols, hrows⟩
      · exact absurd (hl.symm.trans hinit) (by simp)
      · intro _
        exact ⟨back, _, hd.back_eq, rfl, hd.length_back, length_replicate, hcols ▸ hd.cols,
          hrows ▸ hd.rows, fun p _ hne => absurd cellAt_replicate hne⟩
  | setCursor cx cy =>
    exact ⟨(tbSetCursor w cx cy).1, (tbSetCursor w cx cy).2, rfl, fun _ _ => h.setCursor cx cy⟩
  | hideCursor =>
    exact ⟨(tbHideCursor w).1, (tbHideCursor w).2, rfl, fun _ _ => h.setCursor (-1) (-1)⟩
  | setCell x y cell =>
    rcases hcases with hinit | ⟨hinit, back, front, hd⟩
    · exact ⟨_, w, by rw [Termbox.step, tbSetCell, if_pos hinit], fun _ _ => h⟩
    · obtain ⟨code, w', back', hcall, hd', -⟩ := hd.setCell x y cell hinit
      exact ⟨code, w', hcall, fun _ _ => .of_described hd'⟩
  | print x y fg bg str =>
    rcases hcases with hinit | ⟨hinit, back, front, hd⟩
    · exact ⟨_, w, by rw [Termbox.step, tbPrint.eq_def, if_pos hinit], fun _ _ => h⟩
    · rw [Termbox.step, tbPrint.eq_def, if_neg (by simp [hinit])]
      cases str with
      | none => exact ⟨_, w, rfl, fun _ _ => h⟩
      | some str =>
        obtain ⟨code, w', back', hcall, hd'⟩ :=
          hd.printLoop fg bg x y str hinit
        exact ⟨code, w', hcall, fun _ _ => .of_described hd'⟩
  | peekEvent term event reply input => exact ⟨_, _, rfl, fun hl hg => h.peekEvent hl hg⟩

end Invariant

/-! ## Runs -/

section Runs

variable {tty} {w : World σ} {glyph : List UInt8 → UInt32 → γ} {plain : UInt32 → Prop}

/-- In every run whose steps meet the condition both buffers exist and no call reads or writes
outside of one.  A further `tb_present` of plain characters shows what a full redraw shows exactly
when there is no stale blank. -/
theorem display_of_good_runs (hdoc : Documented tty glyph plain)
    (hw : Reachable (fun w => w.tb = TbState.zero) (GoodStep tty plain) w) :
    BuffersExist w.tb ∧ (∀ call, ∃ code w', step tty w call = some (code, w')) ∧
      ∀ code w', w.tb.initialized = true → Plain plain w.tb →
        step tty w .present = some (code, w') →
        (ShowsRedraw tty w w' ↔ NoStaleBlank tty glyph w) := by
  have hinv : Inv tty glyph w := by
    refine hw.invariant ?_ ?_
    · intro w hw
      exact .of_not_initialized (by rw [hw]; rfl)
    · rintro w w' hinv ⟨call, code, hl, hg, hstep⟩
      obtain ⟨code', w'', hstep', hinv'⟩ := hinv.step hdoc call
      rw [hstep'] at hstep
      cases hstep
      exact hinv' hl hg
  refine ⟨hinv.buffersExist, fun call => ?_, fun code w' hinit hplain hstep => ?_⟩
  · obtain ⟨code, w', hstep, -⟩ := hinv.step hdoc call
    exact ⟨code, w', hstep⟩
  · obtain ⟨back, front, hd⟩ := hinv hinit
    obtain ⟨w'', front', hcall, -, hshows, -⟩ := hd.present hdoc hinit
    rw [step, hcall] at hstep
    cases hstep
    exact hshows hplain

/-- A screen of one row that shows a single glyph. -/
def oneRow (cols : ℕ) (hcols : cols < 2 ^ 31) (glyph : List UInt8 × UInt32) : Screen :=
  ⟨cols, 1, hcols, by decide, 0, 0, [], fun _ _ => glyph⟩

/-- A terminal of one cell in front of the first call. -/
def loaded : World Screen := ⟨TbState.zero, oneRow 1 (by decide) ([], 63)⟩

def started : World Screen :=
  ⟨⟨true, 1, 1, -1, -1, 0, 0, some [TbCell.zero], some [TbCell.zero]⟩,
    (loaded.term.write Termbox.hideCursor).write clearScreen⟩

theorem step_loaded :
    step screenTty loaded (.init loaded.term ⟨true, true, true⟩) = some (.ok, started) := by
  have hquery : queryGrid screenTty loaded.term true = some (1, 1) := by decide
  have hinit : tbInit screenTty loaded ⟨true, true, true⟩ = (.ok, started) := by
    unfold tbInit
    rw [if_neg (by decide), hquery]
    rfl
  exact congrArg some hinit

theorem eq_of_mem_started {p : ℕ × ℕ} (hp : p ∈ started.tb.cells) : p = (0, 0) := by
  obtain ⟨hx, hy⟩ := mem_cellsOf.1 hp
  exact Prod.ext (Nat.lt_one_iff.1 hx) (Nat.lt_one_iff.1 hy)

/-- A character, and `tb_present`. -/
theorem display_of_one_cell :
    ∃ w code w', step screenTty started (.setCell 0 0 ⟨65, 0, 0⟩) = some (.ok, w) ∧
      step screenTty w .present = some (code, w') ∧ ShowsRedraw screenTty w w' := by
  have hset : step screenTty started (.setCell 0 0 ⟨65, 0, 0⟩) =
      some (.ok, { started with tb := { started.tb with back := some [⟨65, 0, 0⟩] } }) := rfl
  have hrun := display_of_good_runs documented_screen (.next (.next (.start (s := loaded) rfl)
    ⟨.init loaded.term ⟨true, true, true⟩, .ok, .inl rfl, trivial, step_loaded⟩)
    ⟨.setCell 0 0 ⟨65, 0, 0⟩, .ok, trivial, trivial, hset⟩)
  obtain ⟨code, w', hpresent⟩ := hrun.2.1 .present
  refine ⟨_, code, w', hset, hpresent, (hrun.2.2 code w' rfl (fun p hp => ?_) hpresent).2
    fun p hp hback => ?_⟩
  · rw [eq_of_mem_started hp]
    decide
  · rw [eq_of_mem_started hp] at hback
    exact absurd hback (by decide)

/-- A resize without memory leaves no buffers; and after `tb_invalidate` a cell that nothing was
written to keeps what the terminal showed before. -/
theorem display_not_of_all_runs :
    (¬ ∀ w, Reachable (fun w => w.tb = TbState.zero) (Step screenTty) w → BuffersExist w.tb) ∧
    ¬ ∀ w, Reachable (fun w => w.tb = TbState.zero) (Step screenTty) w →
      w.tb.initialized = true → Plain printable w.tb → ∀ code w',
      step screenTty w .present = some (code, w') → ShowsRedraw screenTty w w' := by
  have hstart : Reachable (fun w => w.tb = TbState.zero) (Step screenTty) started :=
    .next (.start (s := loaded) rfl)
      ⟨.init loaded.term ⟨true, true, true⟩, .ok, .inl rfl, step_loaded⟩
  constructor
  · intro h
    have hreport : Reports screenTty started.tb (oneRow 2 (by decide) ([], 63)) ⟨true, true, false⟩
        2 1 := ⟨by decide, by decide⟩
    have hpeek : step screenTty started (.peekEvent (oneRow 2 (by decide) ([], 63))
        (some TbEvent.zero) ⟨true, true, false⟩ []) =
        some (.errNoEvent, ⟨freeBuffers started.tb, oneRow 2 (by decide) ([], 63)⟩) := by
      rw [step, tbPeekEvent.eq_def, if_neg (by decide)]
      dsimp only
      rw [refreshSize, hreport.1]
      rfl
    obtain ⟨back, front, hback, -⟩ := h _ (.next hstart
      ⟨.peekEvent (oneRow 2 (by decide) ([], 63)) (some TbEvent.zero) ⟨true, true, false⟩ [], _,
        .inr (.inr ⟨by decide, 2, 1, hreport⟩), hpeek⟩) rfl
    exact absurd hback (by simp [freeBuffers])
  · intro h
    have hinvalid : step screenTty started (.invalidate (oneRow 1 (by decide) ([], 88))) =
        some (.ok, { started with term := oneRow 1 (by decide) ([], 88) }) := rfl
    have hpresent : step screenTty { started with term := oneRow 1 (by decide) ([], 88) }
        .present = some (.ok, { started with
          term := Screen.write (oneRow 1 (by decide) ([], 88)) Termbox.hideCursor }) := rfl
    have hshows := h _ (.next hstart ⟨.invalidate (oneRow 1 (by decide) ([], 88)), _,
      .inr ⟨rfl, rfl⟩, hinvalid⟩) rfl
      (fun p hp => by rw [eq_of_mem_started hp]; decide) _ _ hpresent (0, 0)
      (mem_cellsOf.2 ⟨by decide, by decide⟩)
    exact absurd hshows (by decide)

end Runs

end Cleonos.Termbox
