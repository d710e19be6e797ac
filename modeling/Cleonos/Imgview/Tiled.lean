import Cleonos.Imgview.Gif

/-!
# Drawing an image tile by tile

The drawing of `imgview_main.c`: an image is scaled to the size of its box by nearest neighbours,
and drawn in tiles of a few rows.
-/

namespace Cleonos.Imgview

open List Option

/-! ## The source -/

/-- The value of an unsigned number of 64 bits. -/
def wrap (n : ℕ) : ℕ := n % 2 ^ 64

/-- `imgview_image`, with as many pixels as it says. -/
structure Image where
  width : ℕ
  height : ℕ
  pixels : List UInt32
  length_eq : pixels.length = width * height

/-- `IMGVIEW_BLIT_TILE_ROWS`. -/
def blitTileRows : ℕ := 32

/-- `IMGVIEW_BLIT_TILE_MAX_BYTES`. -/
def blitTileMaxBytes : ℕ := 256 * 1024

/-- A coordinate of the image: not behind its last one. -/
def clampTo (n size : ℕ) : ℕ := if size ≤ n then wrap (size + (2 ^ 64 - 1)) else n

/-- `imgview_sample_nearest`. -/
def sampleNearest (image : Image) (x y outW outH : ℕ) : Option UInt32 :=
  if outW = 0 ∨ outH = 0 then some 0
  else
    let srcX := clampTo (wrap (x * image.width) / outW) image.width
    let srcY := clampTo (wrap (y * image.height) / outH) image.height
    image.pixels[wrap (wrap (srcY * image.width) + srcX)]?

/-- `imgview_compute_fit`; `none` for 0. -/
def computeFit (srcW srcH maxW maxH : ℕ) : Option (ℕ × ℕ) :=
  if srcW = 0 ∨ srcH = 0 ∨ maxW = 0 ∨ maxH = 0 then none
  else
    let (w, h) :=
      if maxW < srcW then
        let h := wrap (srcH * maxW) / srcW
        (maxW, if h = 0 then 1 else h)
      else (srcW, srcH)
    if maxH < h then
      let w := wrap (w * maxH) / h
      some (if w = 0 then 1 else w, maxH)
    else some (w, h)

/-- `imgview_choose_tile_rows`. -/
def chooseTileRows (outW : ℕ) : ℕ :=
  if outW = 0 ∨ (2 ^ 64 - 1) / 4 < outW then 0
  else
    let rows := blitTileMaxBytes / wrap (outW * 4)
    let rows := if rows = 0 then 1 else rows
    if blitTileRows < rows then blitTileRows else rows

def store (tile : List UInt32) (i : ℕ) (pixel : UInt32) : Option (List UInt32) :=
  if i < tile.length then some (tile.set i pixel) else none

/-- The inner loop of `imgview_scale_rows_into`, for a row. -/
def scaleRowInto (image : Image) (outW outH startY y : ℕ) (tile : List UInt32) :
    Option (List UInt32) :=
  (List.range outW).foldlM (fun tile x =>
    (sampleNearest image x (wrap (startY + y)) outW outH).bind fun pixel =>
      store tile (wrap (wrap (y * outW) + x)) pixel) tile

/-- `imgview_scale_rows_into`. -/
def scaleRowsInto (image : Image) (outW outH startY rows : ℕ) (tile : List UInt32) :
    Option (List UInt32) :=
  if outW = 0 ∨ outH = 0 then some tile
  else
    ((List.range rows).takeWhile fun y => wrap (startY + y) < outH).foldlM
      (fun tile y => scaleRowInto image outW outH startY y tile) tile

/-- `cleonos_fb_blit_req`, with the pixels that it points to. -/
structure Blit where
  pixels : List UInt32
  srcWidth : ℕ
  srcHeight : ℕ
  srcPitchBytes : ℕ
  dstX : ℕ
  dstY : ℕ
  scale : ℕ
deriving DecidableEq, Repr

/-- The loop of `imgview_blit_image_tiled`, with the requests that are made; `accepts` tells which of
them succeed, and `done` is how many there were. -/
def blitLoop (image : Image) (tileRows outW outH dstX dstY : ℕ) (accepts : ℕ → Bool) :
    ℕ → ℕ → ℕ → List UInt32 → Option (Bool × List Blit)
  | 0, _, _, _ => none
  | fuel + 1, done, startY, tile =>
    if startY < outH then
      let rows := if tileRows < outH - startY then tileRows else outH - startY
      (scaleRowsInto image outW outH startY rows tile).bind fun tile =>
        let req : Blit :=
          ⟨tile, outW, rows, wrap (outW * 4), dstX, wrap (dstY + startY), 1⟩
        if accepts done = false then some (false, [req])
        else
          (blitLoop image tileRows outW outH dstX dstY accepts fuel (done + 1) (startY + rows)
            tile).map fun r => (r.1, req :: r.2)
    else some (true, [])

/-- `imgview_blit_image_tiled`. -/
def blitImageTiled (image : Image) (tile : List UInt32) (tileRows outW outH dstX dstY : ℕ)
    (accepts : ℕ → Bool) : Option (Bool × List Blit) :=
  if tileRows = 0 ∨ outW = 0 ∨ outH = 0 ∨ (2 ^ 64 - 1) / 4 < outW then some (false, [])
  else blitLoop image tileRows outW outH dstX dstY accepts (outH + 1) 0 0 tile

/-- `imgview_alloc_tile`: the tile, with whatever is in it, and its rows. -/
def allocTile (malloc : ℕ → Option (List UInt32)) (outW : ℕ) : Option (List UInt32 × ℕ) :=
  let tileRows := chooseTileRows outW
  if tileRows = 0 ∨ (2 ^ 64 - 1) / tileRows < outW then none
  else
    let tilePixels := wrap (outW * tileRows)
    if tilePixels = 0 ∨ (2 ^ 64 - 1) / 4 < tilePixels then none
    else (malloc tilePixels).map fun tile => (tile, tileRows)

/-- The pixel of the image that is nearest to a pixel of its new size. -/
def nearest (image : Image) (outW outH x y : ℕ) : UInt32 :=
  image.pixels.getD (y * image.height / outH * image.width + x * image.width / outW) 0

/-- A row of the image in its new size. -/
def scaledRow (image : Image) (outW outH y : ℕ) : List UInt32 :=
  (List.range outW).map fun x => nearest image outW outH x y

/-- The image in its new size. -/
def scaled (image : Image) (outW outH : ℕ) : List (List UInt32) :=
  (List.range outH).map (scaledRow image outW outH)

/-- The rows that a blit reads. -/
def Blit.rows (b : Blit) : List (List UInt32) :=
  (List.range b.srcHeight).map fun y => (b.pixels.drop (y * (b.srcPitchBytes / 4))).take b.srcWidth

/-- The lines of the screen that a blit draws. -/
def Blit.lines (b : Blit) : List ℕ := (List.range b.srcHeight).map fun y => wrap (b.dstY + y)

/-- The blits put the image on the screen, at the given place, from a row on and each row once. -/
structure Draws (image : Image) (outW outH dstX dstY startY : ℕ) (blits : List Blit) : Prop where
  rows : blits.flatMap Blit.rows = (scaled image outW outH).drop startY
  lines : blits.flatMap Blit.lines = ((List.range outH).map fun y => wrap (dstY + y)).drop startY
  place : ∀ b ∈ blits, b.dstX = dstX ∧ b.srcWidth = outW ∧ b.scale = 1

/-- The products of the sizes fit into 64 bits. -/
structure Fits (image : Image) (maxW maxH : ℕ) : Prop where
  image_lt : image.width * image.height < 2 ^ 64
  screen_lt : maxW * maxH < 2 ^ 64
  width_lt : image.width * maxW < 2 ^ 64
  height_lt : image.height * maxH < 2 ^ 64
  across_lt : image.height * maxW < 2 ^ 64
  down_lt : image.width * maxH < 2 ^ 64

variable {image : Image} {maxW maxH outW outH : ℕ}

theorem wrap_of_lt {n : ℕ} (h : n < 2 ^ 64) : wrap n = n := Nat.mod_eq_of_lt h

theorem scaled_le {w m h : ℕ} (hw : 0 < w) (hm : m < h) (hlt : w * m < 2 ^ 64) :
    1 ≤ (if wrap (w * m) / h = 0 then 1 else wrap (w * m) / h) ∧
      (if wrap (w * m) / h = 0 then 1 else wrap (w * m) / h) ≤ w := by
  have hle : w * m / h ≤ w := by
    apply Nat.div_le_of_le_mul
    rw [Nat.mul_comm h w]
    exact Nat.mul_le_mul_left w hm.le
  rw [wrap_of_lt hlt]
  split
  · exact ⟨Nat.le_refl 1, hw⟩
  · next hne => exact ⟨Nat.pos_of_ne_zero hne, hle⟩

theorem computeFit_spec (hw : 0 < image.width) (hh : 0 < image.height) (hmw : 0 < maxW)
    (hmh : 0 < maxH) (h : Fits image maxW maxH) :
    ∃ outW outH, computeFit image.width image.height maxW maxH = some (outW, outH) ∧
      1 ≤ outW ∧ outW ≤ maxW ∧ 1 ≤ outH ∧ outH ≤ maxH := by
  rw [computeFit, if_neg (by omega)]
  by_cases hwide : maxW < image.width
  · have hone : 1 ≤ (if wrap (image.height * maxW) / image.width = 0 then 1
        else wrap (image.height * maxW) / image.width) := by
      split
      · exact Nat.le_refl 1
      · next hne => exact Nat.pos_of_ne_zero hne
    rw [if_pos hwide]
    dsimp only
    generalize (if wrap (image.height * maxW) / image.width = 0 then 1
      else wrap (image.height * maxW) / image.width) = height at hone
    by_cases htall : maxH < height
    · obtain ⟨hpos, hle⟩ := scaled_le hmw htall h.screen_lt
      rw [if_pos htall]
      exact ⟨_, maxH, rfl, hpos, hle, hmh, le_rfl⟩
    · rw [if_neg htall]
      exact ⟨maxW, height, rfl, hmw, le_rfl, hone, by omega⟩
  · rw [if_neg hwide]
    dsimp only
    by_cases htall : maxH < image.height
    · obtain ⟨hpos, hle⟩ := scaled_le hw htall h.down_lt
      rw [if_pos htall]
      exact ⟨_, maxH, rfl, hpos, by omega, hmh, le_rfl⟩
    · rw [if_neg htall]
      exact ⟨image.width, image.height, rfl, hw, by omega, hh, by omega⟩

variable {i y : ℕ}

theorem scaled_lt {out size : ℕ} (hi : i < out) (hsize : 0 < size) : i * size / out < size := by
  rw [Nat.div_lt_iff_lt_mul (by omega), Nat.mul_comm size out]
  exact Nat.mul_lt_mul_of_pos_right hi hsize

theorem index_lt {x w h : ℕ} (hx : x < w) (hy : y < h) : y * w + x < h * w := by
  calc y * w + x < y * w + w := Nat.add_lt_add_left hx _
    _ = (y + 1) * w := (Nat.succ_mul y w).symm
    _ ≤ h * w := Nat.mul_le_mul_right w hy

theorem sampleNearest_eq {x : ℕ} (hw : 0 < image.width) (hh : 0 < image.height)
    (hx : x < outW) (hy : y < outH) (hsize : image.width * image.height < 2 ^ 64)
    (hwidth : image.width * outW < 2 ^ 64) (hheight : image.height * outH < 2 ^ 64) :
    sampleNearest image x y outW outH = some (nearest image outW outH x y) := by
  have hxw : x * image.width < 2 ^ 64 := by
    refine lt_of_le_of_lt ?_ hwidth
    rw [Nat.mul_comm image.width]
    exact Nat.mul_le_mul_right _ hx.le
  have hyh : y * image.height < 2 ^ 64 := by
    refine lt_of_le_of_lt ?_ hheight
    rw [Nat.mul_comm image.height]
    exact Nat.mul_le_mul_right _ hy.le
  have hsx := scaled_lt hx hw
  have hsy := scaled_lt hy hh
  have hin := index_lt hsx hsy
  rw [Nat.mul_comm image.height] at hin
  rw [sampleNearest, if_neg (by omega), wrap_of_lt hxw, wrap_of_lt hyh, clampTo, clampTo,
    if_neg (Nat.not_le.2 hsx), if_neg (Nat.not_le.2 hsy)]
  dsimp only
  have hrow : y * image.height / outH * image.width < 2 ^ 64 :=
    lt_of_le_of_lt (Nat.le_add_right _ _) (hin.trans hsize)
  rw [wrap_of_lt hrow, wrap_of_lt (hin.trans hsize), nearest, getD_eq_getElem?_getD]
  rw [← image.length_eq] at hin
  rw [List.getElem?_eq_getElem hin]
  rfl

theorem foldlM_range {σ : Type} {f : σ → ℕ → Option σ} {g : ℕ → σ} {n : ℕ}
    (h : ∀ k < n, f (g k) k = some (g (k + 1))) :
    (List.range n).foldlM f (g 0) = some (g n) := by
  induction n with
  | zero => rfl
  | succ n ih =>
    rw [range_succ, foldlM_append, ih fun k hk => h k (by omega)]
    simp [h n (Nat.lt_succ_self n)]

theorem store_append {l r : List UInt32} (hl : l.length = i) (a pixel : UInt32) :
    store (l ++ a :: r) i pixel = some (l ++ [pixel] ++ r) := by
  subst hl
  rw [store, if_pos (by simp)]
  simp [set_append_right]

/-- The tile after the first pixels of a row that starts at an index are written. -/
def written (tile : List UInt32) (a : ℕ) (row : List UInt32) : List UInt32 :=
  tile.take a ++ row ++ tile.drop (a + row.length)

theorem written_length {tile row : List UInt32} {a : ℕ} (h : a + row.length ≤ tile.length) :
    (written tile a row).length = tile.length := by
  simp only [written, length_append, length_take, length_drop]
  omega

theorem store_written {tile row : List UInt32} {a : ℕ} (hi : a + row.length = i)
    (h : i < tile.length) (pixel : UInt32) :
    store (written tile a row) i pixel = some (written tile a (row ++ [pixel])) := by
  have hlen : (tile.take a ++ row).length = i := by
    rw [length_append, length_take]
    omega
  rw [written, hi, drop_eq_getElem_cons h, store_append hlen]
  simp only [written, length_append, length_singleton, append_assoc]
  rw [← Nat.add_assoc, hi]

variable {tile : List UInt32} {startY rows : ℕ}

/-- The sizes are such that no product is too large. -/
structure Small (image : Image) (outW outH : ℕ) : Prop where
  width_pos : 0 < image.width
  height_pos : 0 < image.height
  image_lt : image.width * image.height < 2 ^ 64
  out_lt : outH * outW < 2 ^ 64
  width_lt : image.width * outW < 2 ^ 64
  height_lt : image.height * outH < 2 ^ 64

theorem scaleRowInto_eq (h : Small image outW outH) (hy : startY + y < outH)
    (hH : outH < 2 ^ 64) (hfit : (y + 1) * outW ≤ tile.length) :
    scaleRowInto image outW outH startY y tile =
      some (written tile (y * outW) (scaledRow image outW outH (startY + y))) := by
  have hrun := foldlM_range (n := outW)
    (f := fun tile x => (sampleNearest image x (wrap (startY + y)) outW outH).bind fun pixel =>
      store tile (wrap (wrap (y * outW) + x)) pixel)
    (g := fun n => written tile (y * outW)
      ((List.range n).map fun x => nearest image outW outH x (startY + y))) ?_
  · have hzero : written tile (y * outW) [] = tile := by simp [written]
    simp only [range_zero, map_nil, hzero] at hrun
    exact hrun
  · intro x hx
    have hin : y * outW + x < outH * outW := index_lt hx (by omega)
    have hlast : y * outW + x < tile.length := lt_of_lt_of_le (index_lt hx y.lt_succ_self) hfit
    have hbase : y * outW < 2 ^ 64 := lt_of_le_of_lt (Nat.le_add_right _ _) (hin.trans h.out_lt)
    simp only [wrap_of_lt (hy.trans hH), wrap_of_lt hbase, wrap_of_lt (hin.trans h.out_lt)]
    rw [sampleNearest_eq h.width_pos h.height_pos hx hy h.image_lt h.width_lt h.height_lt,
      bind_some, store_written (by simp) hlast, range_succ, map_append]
    rfl

theorem length_scaledRow : (scaledRow image outW outH y).length = outW := by
  simp [scaledRow]

/-- The first rows of a tile. -/
def tileRowsFrom (image : Image) (outW outH startY rows : ℕ) : List (List UInt32) :=
  (List.range rows).map fun y => scaledRow image outW outH (startY + y)

theorem length_flatten {y : ℕ} :
    (tileRowsFrom image outW outH startY y).flatten.length = y * outW := by
  simp [tileRowsFrom, length_flatten, length_scaledRow, Function.comp_def,
    map_const']

theorem scaleRowsInto_eq (h : Small image outW outH) (hH : outH < 2 ^ 64) (hout : 0 < outW)
    (hend : startY + rows ≤ outH) (hfit : rows * outW ≤ tile.length) :
    scaleRowsInto image outW outH startY rows tile =
      some (written tile 0 (tileRowsFrom image outW outH startY rows).flatten) := by
  by_cases hzero : outH = 0
  · have hrows : rows = 0 := by omega
    subst hrows
    simp [scaleRowsInto, hzero, written, tileRowsFrom]
  rw [scaleRowsInto, if_neg (by omega)]
  have hall : ((List.range rows).takeWhile fun y => wrap (startY + y) < outH) =
      List.range rows := by
    rw [takeWhile_eq_self_iff]
    intro y hy
    have hlt : y < rows := mem_range.1 hy
    rw [wrap_of_lt (by omega)]
    simp only [decide_eq_true_eq]
    omega
  rw [hall]
  have hrun := foldlM_range (n := rows)
    (f := fun tile y => scaleRowInto image outW outH startY y tile)
    (g := fun n => written tile 0 (tileRowsFrom image outW outH startY n).flatten) ?_
  · have hnone : written tile 0 (tileRowsFrom image outW outH startY 0).flatten = tile := by
      simp [written, tileRowsFrom]
    rw [hnone] at hrun
    exact hrun
  · intro y hy
    have hle : (y + 1) * outW ≤ tile.length := (Nat.mul_le_mul_right outW hy).trans hfit
    have hup : y * outW ≤ (y + 1) * outW := Nat.mul_le_mul_right outW y.le_succ
    have hlen := @length_flatten image outW outH startY y
    rw [scaleRowInto_eq h (by omega) hH (by rw [written_length (by omega)]; exact hle)]
    -- What is written so far is just what lies in front of the row.
    simp only [written, take_zero, nil_append, Nat.zero_add, hlen, length_scaledRow]
    rw [take_left' hlen, drop_append, hlen, drop_of_length_le (by omega),
      nil_append, drop_drop]
    simp only [tileRowsFrom, range_succ, map_append, flatten_append,
      map_singleton, flatten_singleton, length_append, length_scaledRow]
    simp only [tileRowsFrom] at hlen
    rw [hlen, Nat.add_sub_cancel_left]

theorem take_drop_flatten {L : List (List UInt32)} {rest : List UInt32} {w y : ℕ}
    (hlen : ∀ r ∈ L, r.length = w) (hy : y < L.length) :
    ((L.flatten ++ rest).drop (y * w)).take w = L[y] := by
  induction L generalizing y with
  | nil => cases hy
  | cons r L ih =>
    have hr : r.length = w := hlen r mem_cons_self
    cases y with
    | zero => simp [← hr]
    | succ y =>
      have hmul : (y + 1) * w = r.length + y * w := by rw [Nat.succ_mul, hr, Nat.add_comm]
      rw [flatten_cons, append_assoc, hmul, drop_length_add_append]
      exact ih (fun s hs => hlen s (mem_cons_of_mem _ hs)) (Nat.lt_of_succ_lt_succ hy)

/-! ## All the tiles -/

theorem map_range_add {α : Type} {g : ℕ → α} {n s N : ℕ} (h : s + n ≤ N) :
    (List.range n).map (fun y => g (s + y)) = (((List.range N).map g).drop s).take n := by
  apply ext_getElem
  · simp
    omega
  · intro i h₁ h₂
    simp

theorem Blit.rows_written (hwide : outW ≤ (2 ^ 64 - 1) / 4) {dstX dstY : ℕ} :
    Blit.rows ⟨written tile 0 (tileRowsFrom image outW outH startY rows).flatten, outW, rows,
      wrap (outW * 4), dstX, dstY, 1⟩ = tileRowsFrom image outW outH startY rows := by
  have hpitch : wrap (outW * 4) / 4 = outW := by
    rw [wrap_of_lt (by omega), Nat.mul_div_cancel outW (by omega)]
  apply ext_getElem
  · simp [Blit.rows, tileRowsFrom]
  · intro y h₁ h₂
    have hlen : ∀ r ∈ tileRowsFrom image outW outH startY rows, r.length = outW := by
      intro r hr
      obtain ⟨y, -, rfl⟩ := mem_map.1 hr
      exact length_scaledRow
    simp only [Blit.rows, getElem_map, getElem_range, hpitch, written, take_zero,
      nil_append]
    exact take_drop_flatten hlen h₂

variable {dstX dstY tileRows : ℕ} {accepts : ℕ → Bool}

theorem Draws.cons (hwide : outW ≤ (2 ^ 64 - 1) / 4) (hend : startY + rows ≤ outH)
    {blits : List Blit} (h : Draws image outW outH dstX dstY (startY + rows) blits) :
    Draws image outW outH dstX dstY startY
      (⟨written tile 0 (tileRowsFrom image outW outH startY rows).flatten, outW, rows,
        wrap (outW * 4), dstX, wrap (dstY + startY), 1⟩ :: blits) := by
  constructor
  · rw [flatMap_cons, Blit.rows_written hwide, h.rows, tileRowsFrom, map_range_add hend,
      ← scaled, ← drop_drop, take_append_drop]
  · have hlines : Blit.lines ⟨written tile 0 (tileRowsFrom image outW outH startY rows).flatten,
        outW, rows, wrap (outW * 4), dstX, wrap (dstY + startY), 1⟩ =
        (List.range rows).map fun y => wrap (dstY + (startY + y)) := by
      simp [Blit.lines, wrap, Nat.add_assoc]
    rw [flatMap_cons, hlines, h.lines, map_range_add (g := fun y => wrap (dstY + y)) hend,
      ← drop_drop, take_append_drop]
  · intro b hb
    cases hb with
    | head => exact ⟨rfl, rfl, rfl⟩
    | tail _ hb => exact h.place b hb

theorem blitLoop_spec (h : Small image outW outH) (hH : outH < 2 ^ 64) (hout : 0 < outW)
    (hwide : outW ≤ (2 ^ 64 - 1) / 4) (htile : 0 < tileRows) {fuel done : ℕ}
    (hfit : tileRows * outW ≤ tile.length) (hstart : startY ≤ outH) (hfuel : outH - startY < fuel) :
    ∃ r, blitLoop image tileRows outW outH dstX dstY accepts fuel done startY tile = some r ∧
      ((∀ n, accepts n = true) → r.1 = true) ∧
      (r.1 = true → Draws image outW outH dstX dstY startY r.2) := by
  induction fuel generalizing done startY tile with
  | zero => cases hfuel
  | succ fuel ih =>
    by_cases hmore : startY < outH
    · rw [blitLoop, if_pos hmore]
      dsimp only
      generalize hrows : (if tileRows < outH - startY then tileRows else outH - startY) = rows
      have hpos : 0 < rows ∧ rows ≤ tileRows ∧ startY + rows ≤ outH := by
        split at hrows <;> omega
      have hrowsfit : rows * outW ≤ tile.length := (Nat.mul_le_mul_right outW hpos.2.1).trans hfit
      have hlen := @length_flatten image outW outH startY rows
      have hkeep : (written tile 0 (tileRowsFrom image outW outH startY rows).flatten).length =
          tile.length := written_length (by omega)
      rw [scaleRowsInto_eq h hH hout hpos.2.2 hrowsfit, bind_some]
      by_cases hno : accepts done = false
      · rw [if_pos hno]
        refine ⟨_, rfl, ?_, by intro hok; cases hok⟩
        intro hall
        rw [hall done] at hno
        cases hno
      · rw [if_neg hno]
        obtain ⟨r, hr, hok, hdraws⟩ := @ih _ _ (done + 1) (hkeep ▸ hfit) hpos.2.2 (by omega)
        rw [hr, map_some]
        exact ⟨_, rfl, hok, fun hr => (hdraws hr).cons hwide hpos.2.2⟩
    · have hall : startY = outH := by omega
      rw [blitLoop, if_neg hmore]
      refine ⟨_, rfl, fun _ => rfl, fun _ => ?_⟩
      subst hall
      constructor
      · simp [scaled]
      · simp
      · intro b hb
        cases hb

theorem allocTile_spec {malloc : ℕ → Option (List UInt32)}
    (hmalloc : ∀ n tile, malloc n = some tile → tile.length = n)
    (h : allocTile malloc outW = some (tile, tileRows)) :
    0 < tileRows ∧ tile.length = outW * tileRows ∧ outW ≤ (2 ^ 64 - 1) / 4 := by
  rw [allocTile] at h
  by_cases hnone : chooseTileRows outW = 0 ∨ (2 ^ 64 - 1) / chooseTileRows outW < outW
  · rw [if_pos hnone] at h
    cases h
  rw [if_neg hnone] at h
  push Not at hnone
  by_cases hlarge : wrap (outW * chooseTileRows outW) = 0 ∨
      (2 ^ 64 - 1) / 4 < wrap (outW * chooseTileRows outW)
  · rw [if_pos hlarge] at h
    cases h
  rw [if_neg hlarge] at h
  obtain ⟨tile', htile, heq⟩ := map_eq_some_iff.1 h
  cases heq
  have hmul : outW * chooseTileRows outW ≤ 2 ^ 64 - 1 :=
    (Nat.le_div_iff_mul_le (Nat.pos_of_ne_zero hnone.1)).1 hnone.2
  refine ⟨Nat.pos_of_ne_zero hnone.1, ?_, ?_⟩
  · rw [hmalloc _ _ htile, wrap_of_lt (by omega)]
  · by_contra hwide
    apply hnone.1
    rw [chooseTileRows, if_pos (by omega)]

theorem Fits.small (h : Fits image maxW maxH) (hw : 0 < image.width) (hh : 0 < image.height)
    (hwle : outW ≤ maxW) (hhle : outH ≤ maxH) : Small image outW outH where
  width_pos := hw
  height_pos := hh
  image_lt := h.image_lt
  out_lt := by
    refine lt_of_le_of_lt ?_ h.screen_lt
    rw [Nat.mul_comm maxW]
    exact Nat.mul_le_mul hhle hwle
  width_lt := lt_of_le_of_lt (Nat.mul_le_mul_left _ hwle) h.width_lt
  height_lt := lt_of_le_of_lt (Nat.mul_le_mul_left _ hhle) h.height_lt

/-- Drawing tile by tile is drawing the whole image: the size fits the box, the tile has room for its
rows, no read and no write is outside, and the blits put every row on the screen once.  And the probe
of a file ends, inside its data. -/
theorem blitImageTiled_draws (hw : 0 < image.width) (hh : 0 < image.height) (hmw : 0 < maxW)
    (hmh : 0 < maxH) (h : Fits image maxW maxH) :
    (∃ outW outH, computeFit image.width image.height maxW maxH = some (outW, outH) ∧
      1 ≤ outW ∧ outW ≤ maxW ∧ 1 ≤ outH ∧ outH ≤ maxH ∧
      (∀ malloc : ℕ → Option (List UInt32),
        (∀ n tile, malloc n = some tile → tile.length = n) →
        ∀ tile tileRows, allocTile malloc outW = some (tile, tileRows) →
          0 < tileRows ∧ tile.length = outW * tileRows ∧ outW ≤ (2 ^ 64 - 1) / 4) ∧
      ∀ tile tileRows dstX dstY accepts, 0 < tileRows → outW * tileRows ≤ tile.length →
        ∃ r, blitImageTiled image tile tileRows outW outH dstX dstY accepts = some r ∧
          (outW ≤ (2 ^ 64 - 1) / 4 → (∀ n, accepts n = true) → r.1 = true) ∧
          (r.1 = true → Draws image outW outH dstX dstY 0 r.2)) ∧
    ∀ data, ∃ r, gifProbe data = some r := by
  refine ⟨?_, exists_gifProbe⟩
  obtain ⟨outW, outH, hfit, hw1, hwle, hh1, hhle⟩ := computeFit_spec hw hh hmw hmh h
  refine ⟨outW, outH, hfit, hw1, hwle, hh1, hhle, ?_, ?_⟩
  · intro malloc hmalloc tile tileRows htile
    exact allocTile_spec hmalloc htile
  · intro tile tileRows dstX dstY accepts hrows htile
    have hsmall := h.small hw hh hwle hhle
    have hH : outH < 2 ^ 64 :=
      lt_of_le_of_lt (Nat.le_mul_of_pos_right outH hw1) hsmall.out_lt
    by_cases hwide : (2 ^ 64 - 1) / 4 < outW
    · rw [blitImageTiled, if_pos (.inr (.inr (.inr hwide)))]
      refine ⟨_, rfl, fun hle => by omega, ?_⟩
      intro hok
      cases hok
    · rw [blitImageTiled, if_neg (by omega)]
      rw [Nat.mul_comm] at htile
      obtain ⟨r, hr, hok, hdraws⟩ := blitLoop_spec hsmall hH hw1 (Nat.not_lt.1 hwide) hrows
        htile outH.zero_le (Nat.lt_succ_self _)
      exact ⟨r, hr, fun _ => hok, hdraws⟩

/-- An image of two pixels, on a screen of one line. -/
theorem blitImageTiled_draws_pair :
    ∃ r, blitImageTiled ⟨2, 1, [7, 9], rfl⟩ [0, 0] 1 2 1 5 6 (fun _ => true) = some r ∧
      Draws ⟨2, 1, [7, 9], rfl⟩ 2 1 5 6 0 r.2 := by
  obtain ⟨⟨outW, outH, hfit, -, -, -, -, -, hdraw⟩, -⟩ :=
    @blitImageTiled_draws ⟨2, 1, [7, 9], rfl⟩ 3 1 (by decide) (by decide) (by decide) (by decide)
      (by constructor <;> decide)
  have hsize : (2, 1) = (outW, outH) := Option.some.inj hfit
  cases hsize
  obtain ⟨r, hr, hok, hdraws⟩ := hdraw [0, 0] 1 5 6 (fun _ => true) (by decide) (by decide)
  exact ⟨r, hr, hdraws (hok (by decide) fun _ => rfl)⟩

end Cleonos.Imgview
