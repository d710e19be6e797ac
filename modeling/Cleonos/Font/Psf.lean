import Cleonos.Lib.Probe

/-!
# PSF2 fonts

The boot loader (`gfx.inc`) and the window manager (`uwm_psf_font.h`) each have a parser for PSF2
fonts and draw characters from the blob that it accepted.
-/

namespace Cleonos.Psf

open List
open Probe (Within touch within_fail within_pure)

def psf2Magic : UInt32 := 0x864AB572
def headerMin : ℕ := 32
def psfMaxBytes : ℕ := 65536

/-! ## Reading -/

/-- A little-endian number of four bytes. -/
def readU32Le (blob : List UInt8) (i : ℕ) : Probe ℕ UInt32 :=
  touch [i, i + 1, i + 2, i + 3]
    ((blob.getD i 0).toUInt32 ||| (blob.getD (i + 1) 0).toUInt32 <<< 8 |||
      (blob.getD (i + 2) 0).toUInt32 <<< 16 ||| (blob.getD (i + 3) 0).toUInt32 <<< 24)

/-- `struct clboot_gfx_psf2_header`, without the version and the flags. -/
structure Header where
  magic : UInt32
  headersize : UInt32
  length : UInt32
  charsize : UInt32
  height : UInt32
  width : UInt32
  deriving DecidableEq, Repr

/-- The fields of the header. -/
def readHeader (blob : List UInt8) : Probe ℕ Header := do
  let magic ← readU32Le blob 0
  let headersize ← readU32Le blob 8
  let length ← readU32Le blob 16
  let charsize ← readU32Le blob 20
  let height ← readU32Le blob 24
  let width ← readU32Le blob 28
  pure ⟨magic, headersize, length, charsize, height, width⟩

/-- `struct clboot_gfx_font` and the fields of `uwm_psf_font_cache`; the glyphs are those behind
the header. -/
structure Font where
  headersize : UInt32
  length : UInt32
  charsize : UInt32
  width : UInt32
  height : UInt32
  bytesPerRow : UInt32
  deriving DecidableEq, Repr

/-- The font of a header, with the bytes of a row as they are computed. -/
def Header.font (hdr : Header) (bytesPerRow : UInt32) : Font :=
  ⟨hdr.headersize, hdr.length, hdr.charsize, hdr.width, hdr.height, bytesPerRow⟩

/-- What both parsers ask of the header. -/
def Header.isPsf2 (hdr : Header) (size : ℕ) : Bool :=
  decide (hdr.magic = psf2Magic ∧ headerMin ≤ hdr.headersize.toNat ∧ hdr.headersize.toNat ≤ size ∧
    hdr.length ≠ 0 ∧ hdr.charsize ≠ 0 ∧ hdr.width ≠ 0 ∧ hdr.height ≠ 0)

/-- The first byte of a glyph, behind `code` others. -/
def Font.glyphAt (font : Font) (code : ℕ) : ℕ :=
  font.headersize.toNat + code * font.charsize.toNat

/-- The byte of a row in which a column is. -/
def Font.byteAt (font : Font) (glyph row col : ℕ) : ℕ :=
  glyph + row * font.bytesPerRow.toNat + col / 8

/-- The bit of a column in its byte. -/
def bitSet (byte : UInt8) (col : ℕ) : Bool := byte.toNat.testBit (7 - col % 8)

def clbootGfxParsePsf2 (blob : List UInt8) : Probe ℕ Font :=
  if blob.length < headerMin then .fail
  else do
    let hdr ← readHeader blob
    if hdr.isPsf2 blob.length = false then .fail
    else
      -- the sum has 32 bits
      let bytesPerRow := (hdr.width + 7) >>> 3
      if bytesPerRow.toNat * hdr.height.toNat > hdr.charsize.toNat then .fail
      else if hdr.headersize.toNat + hdr.length.toNat * hdr.charsize.toNat > blob.length then .fail
      else pure (hdr.font bytesPerRow)

/-- The glyph of a character: that of the question mark where there is none. -/
def clbootGfxCode (font : Font) (ch : UInt8) : ℕ :=
  if ch.toNat ≥ font.length.toNat then 63 else ch.toNat

/-- `clboot_gfx_draw_char`: the pixels that are filled, by row and column. -/
def clbootGfxDrawChar (blob : List UInt8) (font : Font) (ch : UInt8) : Probe ℕ (List (ℕ × ℕ)) :=
  let glyph := font.glyphAt (clbootGfxCode font ch)
  let pixels := (List.range font.height.toNat).flatMap fun row =>
    (List.range font.width.toNat).map fun col => (row, col)
  touch (pixels.map fun p => font.byteAt glyph p.1 p.2)
    (pixels.filter fun p => bitSet (blob.getD (font.byteAt glyph p.1 p.2) 0) p.2)

/-- `uwm_psf_try_load`, with the file that is read. -/
def uwmPsfTryLoad (blob : List UInt8) : Probe ℕ Font :=
  if blob.length < headerMin ∨ blob.length > psfMaxBytes then .fail
  else do
    let hdr ← readHeader blob
    if hdr.isPsf2 blob.length = false then .fail
    else
      let bytesPerRow := (hdr.width + 7) / 8
      if bytesPerRow = 0 ∨ bytesPerRow.toNat * hdr.height.toNat > hdr.charsize.toNat then .fail
      else if hdr.length.toNat > (blob.length - hdr.headersize.toNat) / hdr.charsize.toNat then .fail
      else if hdr.length.toNat * hdr.charsize.toNat > blob.length - hdr.headersize.toNat then .fail
      else pure (hdr.font bytesPerRow)

/-- `uwm_psf_glyph`: the first byte of the glyph of a character. -/
def uwmPsfGlyph (font : Font) (ch : UInt8) : ℕ :=
  font.glyphAt <|
    if ch.toNat ≥ font.length.toNat then (if 63 ≥ font.length.toNat then 0 else 63) else ch.toNat

def uwmPsfGlyphBit (blob : List UInt8) (font : Font) (glyph : ℕ) (row col : UInt32) :
    Probe ℕ Bool :=
  if row ≥ font.height ∨ col ≥ font.width then pure false
  else
    let i := font.byteAt glyph row.toNat col.toNat
    touch [i] (bitSet (blob.getD i 0) col.toNat)

/-- The loop over the columns of a block, with so many left. -/
def blockColumns (blob : List UInt8) (font : Font) (glyph : ℕ) (row : UInt32) :
    ℕ → UInt32 → Probe ℕ Bool
  | 0, _ => pure false
  | n + 1, col =>
    if col ≥ font.width then pure false
    else do
      let set ← uwmPsfGlyphBit blob font glyph row col
      if set then pure true else blockColumns blob font glyph row n (col + 1)

/-- The loop over the rows of a block, with so many left. -/
def blockRows (blob : List UInt8) (font : Font) (glyph : ℕ) (step : ℕ) (col : UInt32) :
    ℕ → UInt32 → Probe ℕ Bool
  | 0, _ => pure false
  | n + 1, row =>
    if row ≥ font.height then pure false
    else do
      let set ← blockColumns blob font glyph row step col
      if set then pure true else blockRows blob font glyph step col n (row + 1)

def uwmPsfGlyphBlockAny (blob : List UInt8) (font : Font) (glyph : ℕ) (row col : UInt32)
    (step : ℕ) : Probe ℕ Bool :=
  if step ≤ 1 then uwmPsfGlyphBit blob font glyph row col
  else blockRows blob font glyph step col step row

variable {blob : List UInt8} {font : Font} {hdr : Header} {glyph row col : ℕ}

/-- The index of a byte of the blob. -/
def Inside (blob : List UInt8) (i : ℕ) : Prop := i < blob.length

/-- What is known of a font that a parser has accepted. -/
structure Accepted (blob : List UInt8) (font : Font) : Prop where
  length_pos : 0 < font.length.toNat
  width_pos : 0 < font.width.toNat
  height_pos : 0 < font.height.toNat
  bytesPerRow_eq : font.bytesPerRow.toNat = (font.width.toNat + 7) % 2 ^ 32 / 8
  rows_le : font.bytesPerRow.toNat * font.height.toNat ≤ font.charsize.toNat
  glyphs_le : font.headersize.toNat + font.length.toNat * font.charsize.toNat ≤ blob.length

theorem header_of_isPsf2 {size : ℕ} (h : hdr.isPsf2 size = true) :
    0 < hdr.length.toNat ∧ 0 < hdr.charsize.toNat ∧ 0 < hdr.width.toNat ∧ 0 < hdr.height.toNat ∧
      hdr.headersize.toNat ≤ size := by
  rw [Header.isPsf2, decide_eq_true_eq] at h
  have hpos {n : UInt32} (hn : n ≠ 0) : 0 < n.toNat :=
    Nat.pos_of_ne_zero fun hzero => hn (UInt32.toNat_inj.1 hzero)
  exact ⟨hpos h.2.2.2.1, hpos h.2.2.2.2.1, hpos h.2.2.2.2.2.1, hpos h.2.2.2.2.2.2, h.2.2.1⟩

theorem accepted_clbootGfxParsePsf2 (h : (clbootGfxParsePsf2 blob).result = some font) :
    Accepted blob font := by
  rw [clbootGfxParsePsf2] at h
  split at h
  case isTrue => cases h
  case isFalse =>
    rw [Probe.result_bind] at h
    obtain ⟨hdr, -, h⟩ := Option.bind_eq_some_iff.1 h
    split at h
    case isTrue => cases h
    case isFalse hpsf =>
      dsimp only at h
      obtain ⟨hlength, -, hwidth, hheight, -⟩ := header_of_isPsf2 ((Bool.not_eq_false _).mp hpsf)
      split at h
      case isTrue => cases h
      case isFalse hrows =>
        split at h
        case isTrue => cases h
        case isFalse hglyphs =>
          cases h
          refine ⟨hlength, hwidth, hheight, ?_, Nat.le_of_not_lt hrows, Nat.le_of_not_lt hglyphs⟩
          change ((hdr.width + 7) >>> 3).toNat = _
          rw [UInt32.toNat_shiftRight, UInt32.toNat_add, Nat.shiftRight_eq_div_pow]
          rfl

theorem accepted_uwmPsfTryLoad (h : (uwmPsfTryLoad blob).result = some font) :
    Accepted blob font ∧ font.width.toNat + 7 < 2 ^ 32 := by
  rw [uwmPsfTryLoad] at h
  split at h
  case isTrue => cases h
  case isFalse =>
    rw [Probe.result_bind] at h
    obtain ⟨hdr, -, h⟩ := Option.bind_eq_some_iff.1 h
    split at h
    case isTrue => cases h
    case isFalse hpsf =>
      dsimp only at h
      obtain ⟨hlength, -, hwidth, hheight, hheader⟩ :=
        header_of_isPsf2 ((Bool.not_eq_false _).mp hpsf)
      split at h
      case isTrue => cases h
      case isFalse hrows =>
        rw [not_or] at hrows
        split at h
        case isTrue => cases h
        case isFalse =>
          split at h
          case isTrue => cases h
          case isFalse hglyphs =>
            cases h
            have hrow : ((hdr.width + 7) / 8).toNat = (hdr.width.toNat + 7) % 2 ^ 32 / 8 := by
              rw [UInt32.toNat_div, UInt32.toNat_add]
              rfl
            constructor
            · refine ⟨hlength, hwidth, hheight, hrow, Nat.le_of_not_lt hrows.2, ?_⟩
              change hdr.headersize.toNat + hdr.length.toNat * hdr.charsize.toNat ≤ blob.length
              omega
            · change hdr.width.toNat + 7 < 2 ^ 32
              have hne : ((hdr.width + 7) / 8).toNat ≠ 0 :=
                fun hzero => hrows.1 (UInt32.toNat_inj.1 hzero)
              have hlt := hdr.width.toNat_lt
              rw [hrow] at hne
              omega

theorem byteAt_mono {glyph' row' col' : ℕ} (hglyph : glyph ≤ glyph') (hrow : row ≤ row')
    (hcol : col ≤ col') : font.byteAt glyph row col ≤ font.byteAt glyph' row' col' :=
  Nat.add_le_add (Nat.add_le_add hglyph (Nat.mul_le_mul_right _ hrow)) (Nat.div_le_div_right hcol)

theorem glyphAt_mono {code code' : ℕ} (h : code ≤ code') : font.glyphAt code ≤ font.glyphAt code' :=
  Nat.add_le_add_left (Nat.mul_le_mul_right _ h) _

theorem Accepted.byteAt_lt (h : Accepted blob font) (hwidth : font.width.toNat + 7 < 2 ^ 32)
    {code : ℕ} (hcode : code < font.length.toNat) (hrow : row < font.height.toNat)
    (hcol : col < font.width.toNat) : font.byteAt (font.glyphAt code) row col < blob.length := by
  have hbytes := h.bytesPerRow_eq
  rw [Nat.mod_eq_of_lt hwidth] at hbytes
  have hbyte : col / 8 < font.bytesPerRow.toNat := by omega
  have hrows : row * font.bytesPerRow.toNat + col / 8 < font.charsize.toNat :=
    calc row * font.bytesPerRow.toNat + col / 8
        < row * font.bytesPerRow.toNat + font.bytesPerRow.toNat := by omega
      _ = (row + 1) * font.bytesPerRow.toNat := (Nat.succ_mul _ _).symm
      _ ≤ font.height.toNat * font.bytesPerRow.toNat := Nat.mul_le_mul_right _ hrow
      _ = font.bytesPerRow.toNat * font.height.toNat := Nat.mul_comm _ _
      _ ≤ font.charsize.toNat := h.rows_le
  have hglyphs : code * font.charsize.toNat + font.charsize.toNat ≤
      font.length.toNat * font.charsize.toNat := by
    rw [← Nat.succ_mul]
    exact Nat.mul_le_mul_right _ hcode
  have hblob := h.glyphs_le
  rw [Font.byteAt, Font.glyphAt]
  omega

/-- The highest glyph that some character is drawn with. -/
def lastCode (font : Font) : ℕ :=
  if 256 ≤ font.length.toNat then 255 else max (font.length.toNat - 1) 63

/-- The last byte that is read when all characters are drawn. -/
def lastRead (font : Font) : ℕ :=
  font.byteAt (font.glyphAt (lastCode font)) (font.height.toNat - 1) (font.width.toNat - 1)

theorem clbootGfxCode_le (font : Font) (ch : UInt8) : clbootGfxCode font ch ≤ lastCode font := by
  have hch := ch.toNat_lt
  rw [clbootGfxCode, lastCode]
  split
  · split
    · omega
    · exact Nat.le_max_right _ _
  · split
    · omega
    · exact Nat.le_trans (by omega) (Nat.le_max_left _ _)

theorem exists_clbootGfxCode (font : Font) : ∃ ch, clbootGfxCode font ch = lastCode font := by
  by_cases hfull : 256 ≤ font.length.toNat
  · refine ⟨255, ?_⟩
    rw [clbootGfxCode, lastCode, if_pos hfull, if_neg]
    · rfl
    · change ¬ 255 ≥ font.length.toNat
      omega
  · by_cases hmark : 64 ≤ font.length.toNat
    · have hnat : (UInt8.ofNat (font.length.toNat - 1)).toNat = font.length.toNat - 1 :=
        UInt8.toNat_ofNat_of_lt' (by change _ < 256; omega)
      refine ⟨UInt8.ofNat (font.length.toNat - 1), ?_⟩
      rw [clbootGfxCode, lastCode, if_neg hfull, hnat, if_neg (by omega), Nat.max_eq_left (by omega)]
    · refine ⟨255, ?_⟩
      rw [clbootGfxCode, lastCode, if_neg hfull, if_pos, Nat.max_eq_right (by omega)]
      change 255 ≥ font.length.toNat
      omega

section

variable (h : Accepted blob font)
include h

theorem within_clbootGfxDrawChar_iff (ch : UInt8) :
    Within (Inside blob) (clbootGfxDrawChar blob font ch) ↔
      font.byteAt (font.glyphAt (clbootGfxCode font ch)) (font.height.toNat - 1)
        (font.width.toNat - 1) < blob.length := by
  have hheight := h.height_pos
  have hwidth := h.width_pos
  constructor
  · intro hwithin
    apply hwithin
    rw [clbootGfxDrawChar, touch, mem_map]
    refine ⟨(font.height.toNat - 1, font.width.toNat - 1), ?_, rfl⟩
    rw [mem_flatMap]
    refine ⟨font.height.toNat - 1, mem_range.2 (by omega), mem_map.2 ?_⟩
    exact ⟨font.width.toNat - 1, mem_range.2 (by omega), rfl⟩
  · intro hlast i hi
    rw [clbootGfxDrawChar, touch, mem_map] at hi
    obtain ⟨p, hp, rfl⟩ := hi
    obtain ⟨row, hrow, hp⟩ := mem_flatMap.1 hp
    obtain ⟨col, hcol, rfl⟩ := mem_map.1 hp
    rw [mem_range] at hrow hcol
    apply Nat.lt_of_le_of_lt _ hlast
    exact byteAt_mono (Nat.le_refl _) (by dsimp only; omega) (by dsimp only; omega)

theorem draws_inside_iff :
    (∀ ch, Within (Inside blob) (clbootGfxDrawChar blob font ch)) ↔ lastRead font < blob.length := by
  constructor
  · intro hall
    obtain ⟨ch, hch⟩ := exists_clbootGfxCode font
    have hlast := (within_clbootGfxDrawChar_iff h ch).1 (hall ch)
    rwa [hch] at hlast
  · intro hlast ch
    apply (within_clbootGfxDrawChar_iff h ch).2
    apply Nat.lt_of_le_of_lt _ hlast
    exact byteAt_mono (glyphAt_mono (clbootGfxCode_le font ch)) (Nat.le_refl _) (Nat.le_refl _)

theorem lastRead_lt (hmark : 64 ≤ font.length.toNat)
    (hwidth : font.width.toNat + 7 < 2 ^ 32) : lastRead font < blob.length := by
  have hheight := h.height_pos
  have hpos := h.width_pos
  have hcode : lastCode font < font.length.toNat := by
    rw [lastCode]
    split
    · omega
    · rw [Nat.max_eq_left (by omega)]
      omega
  exact h.byteAt_lt hwidth hcode (by omega) (by omega)

theorem uwmPsfGlyph_spec (ch : UInt8) :
    ∃ code, code < font.length.toNat ∧ uwmPsfGlyph font ch = font.glyphAt code := by
  have hpos := h.length_pos
  refine ⟨_, ?_, rfl⟩
  split
  · split
    · exact hpos
    · omega
  · omega

end

section Window

variable {ch : UInt8} (h : Accepted blob font) (hwidth : font.width.toNat + 7 < 2 ^ 32)

include h hwidth

theorem within_uwmPsfGlyphBit (row col : UInt32) :
    Within (Inside blob) (uwmPsfGlyphBit blob font (uwmPsfGlyph font ch) row col) := by
  rw [uwmPsfGlyphBit]
  refine Within.ite (fun _ => within_pure _) ?_
  intro hin
  rw [not_or] at hin
  obtain ⟨code, hcode, hglyph⟩ := uwmPsfGlyph_spec h ch
  apply Probe.within_touch
  intro i hi
  rw [mem_singleton.1 hi, hglyph]
  exact h.byteAt_lt hwidth hcode (UInt32.lt_iff_toNat_lt.1 (UInt32.not_le.1 hin.1))
    (UInt32.lt_iff_toNat_lt.1 (UInt32.not_le.1 hin.2))

theorem within_blockColumns (row : UInt32) (n : ℕ) (col : UInt32) :
    Within (Inside blob) (blockColumns blob font (uwmPsfGlyph font ch) row n col) := by
  induction n generalizing col with
  | zero => exact within_pure _
  | succ n ih =>
    rw [blockColumns]
    refine Within.ite (fun _ => within_pure _) ?_
    intro _
    apply (within_uwmPsfGlyphBit h hwidth row col).bind
    intro set _
    exact Within.ite (fun _ => within_pure _) fun _ => ih _

theorem within_blockRows (step : ℕ) (col : UInt32) (n : ℕ) (row : UInt32) :
    Within (Inside blob) (blockRows blob font (uwmPsfGlyph font ch) step col n row) := by
  induction n generalizing row with
  | zero => exact within_pure _
  | succ n ih =>
    rw [blockRows]
    refine Within.ite (fun _ => within_pure _) ?_
    intro _
    apply (within_blockColumns h hwidth row step col).bind
    intro set _
    exact Within.ite (fun _ => within_pure _) fun _ => ih _

theorem within_uwmPsfGlyphBlockAny (row col : UInt32) (step : ℕ) :
    Within (Inside blob)
      (uwmPsfGlyphBlockAny blob font (uwmPsfGlyph font ch) row col step) :=
  Within.ite (fun _ => within_uwmPsfGlyphBit h hwidth row col)
    fun _ => within_blockRows h hwidth step col step row

end Window

/-- The window manager draws every character of a font that it accepts inside the blob. The boot
loader does so if and only if the font has a glyph for the question mark and its width is not at
the limit of 32 bits, or the last byte it reads is inside the blob all the same. -/
theorem font_reads_iff (blob : List UInt8) (font : Font) :
    ((uwmPsfTryLoad blob).result = some font → ∀ ch row col step,
      Within (Inside blob) (uwmPsfGlyphBlockAny blob font (uwmPsfGlyph font ch) row col step)) ∧
    ((clbootGfxParsePsf2 blob).result = some font →
      ((∀ ch, Within (Inside blob) (clbootGfxDrawChar blob font ch)) ↔
        (64 ≤ font.length.toNat ∧ font.width.toNat + 7 < 2 ^ 32) ∨ lastRead font < blob.length)) := by
  constructor
  · intro hload ch row col step
    obtain ⟨haccepted, hwidth⟩ := accepted_uwmPsfTryLoad hload
    exact within_uwmPsfGlyphBlockAny haccepted hwidth row col step
  · intro hparse
    have haccepted := accepted_clbootGfxParsePsf2 hparse
    rw [draws_inside_iff haccepted]
    constructor
    · exact .inr
    · rintro (⟨hmark, hwidth⟩ | hlast)
      · exact lastRead_lt haccepted hmark hwidth
      · exact hlast

/-- A font of one glyph with one row. -/
def oneGlyph : List UInt8 :=
  [0x72, 0xb5, 0x4a, 0x86, 0, 0, 0, 0, 32, 0, 0, 0, 0, 0, 0, 0,
    1, 0, 0, 0, 1, 0, 0, 0, 1, 0, 0, 0, 8, 0, 0, 0, 0xff]

theorem font_reads_oneGlyph :
    (∀ ch row col step, Within (Inside oneGlyph)
      (uwmPsfGlyphBlockAny oneGlyph ⟨32, 1, 1, 8, 1, 1⟩ (uwmPsfGlyph ⟨32, 1, 1, 8, 1, 1⟩ ch) row col
        step)) ∧
    ¬ ∀ ch, Within (Inside oneGlyph) (clbootGfxDrawChar oneGlyph ⟨32, 1, 1, 8, 1, 1⟩ ch) :=
  ⟨(font_reads_iff oneGlyph ⟨32, 1, 1, 8, 1, 1⟩).1 (by decide),
    fun hall => absurd (((font_reads_iff oneGlyph ⟨32, 1, 1, 8, 1, 1⟩).2 (by decide)).1 hall)
      (by decide)⟩

/-- The boot loader draws a letter that such a font does not have with a question mark that it does
not have either. -/
theorem draws_outside :
    (clbootGfxParsePsf2 oneGlyph).result = some ⟨32, 1, 1, 8, 1, 1⟩ ∧
      ¬ Within (Inside oneGlyph) (clbootGfxDrawChar oneGlyph ⟨32, 1, 1, 8, 1, 1⟩ 65) := by
  constructor
  · decide
  · intro hwithin
    have hlt : 95 < oneGlyph.length := hwithin 95 (by decide)
    exact absurd hlt (by decide)

end Cleonos.Psf
