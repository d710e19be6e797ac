import Cleonos.Lib.Text

/-!
# Probing a GIF

`imgview_gif_probe` of `imgview_main.c`: the blocks of a file are counted without being decoded.
-/

namespace Cleonos.Imgview

open Option

/-! ## The source -/

/-- `IMGVIEW_MAX_GIF_FRAMES`. -/
def maxGifFrames : ℕ := 256

/-- `imgview_is_gif_data`. -/
def isGifData (data : List UInt8) : Bool :=
  decide (6 ≤ data.length) && (data.take 6 == lit "GIF87a" || data.take 6 == lit "GIF89a")

/-- `imgview_read_le16` at an offset. -/
def readLe16 (data : List UInt8) (offset : ℕ) : Option ℕ :=
  (data[offset]?).bind fun low => (data[offset + 1]?).map fun high =>
    low.toNat + high.toNat * 256

/-- The size of a colour table, from the byte that announces it. -/
def colorTable (flags : UInt8) : ℕ :=
  if flags &&& 0x80 ≠ 0 then 3 * 2 ^ ((flags &&& 0x07).toNat + 1) else 0

/-- The loop over the sub-blocks: `pos` behind it, and `none` inside for `return 0`. -/
def subBlocks (data : List UInt8) : ℕ → ℕ → Option (Option ℕ)
  | 0, _ => none
  | fuel + 1, pos =>
    if pos < data.length then
      (data[pos]?).bind fun subLen =>
        if subLen = 0 then some (some (pos + 1))
        else if data.length - (pos + 1) < subLen.toNat then some none
        else subBlocks data fuel (pos + 1 + subLen.toNat)
    else some (some pos)

/-- The block of an image, behind its first byte. -/
def imageBlock (data : List UInt8) (pos : ℕ) : Option (Option ℕ) :=
  if data.length - pos < 9 then some none
  else
    (data[pos + 8]?).bind fun flags =>
      let pos := pos + 9
      if data.length - pos < colorTable flags then some none
      else
        let pos := pos + colorTable flags
        if data.length ≤ pos then some none else subBlocks data (data.length + 1) (pos + 1)

/-- The block of an extension, behind its first byte. -/
def extensionBlock (data : List UInt8) (pos : ℕ) : Option (Option ℕ) :=
  if data.length ≤ pos then some none else subBlocks data (data.length + 1) (pos + 1)

/-- The loop over the blocks: the frames, and `none` inside for `return 0`. -/
def gifBlocks (data : List UInt8) : ℕ → ℕ → ℕ → Option (Option ℕ)
  | 0, _, _ => none
  | fuel + 1, pos, frames =>
    if pos < data.length then
      (data[pos]?).bind fun block =>
        if block = 0x3B then some (some frames)
        else if block = 0x2C then
          (imageBlock data (pos + 1)).bind fun next =>
            match next with
            | none => some none
            | some pos =>
              if maxGifFrames < frames + 1 then some none
              else gifBlocks data fuel pos (frames + 1)
        else if block = 0x21 then
          (extensionBlock data (pos + 1)).bind fun next =>
            match next with
            | none => some none
            | some pos => gifBlocks data fuel pos frames
        else some none
    else some (some frames)

/-- What `imgview_gif_probe` returns, and writes. -/
structure Probe where
  ok : Bool
  width : ℕ
  height : ℕ
  frames : ℕ
deriving DecidableEq, Repr

/-- `imgview_gif_probe`. -/
def gifProbe (data : List UInt8) : Option Probe :=
  let failed : Probe := ⟨false, 0, 0, 0⟩
  if isGifData data = false ∨ data.length < 13 then some failed
  else
    (readLe16 data 6).bind fun width => (readLe16 data 8).bind fun height =>
      if width = 0 ∨ height = 0 then some failed
      else
        (data[10]?).bind fun flags =>
          if data.length - 13 < colorTable flags then some failed
          else
            (gifBlocks data (data.length + 1) (13 + colorTable flags) 0).map fun frames =>
              match frames with
              | none => failed
              | some frames => ⟨frames != 0, width, height, frames⟩

section

variable (data : List UInt8)

variable (pos : ℕ)

theorem exists_byte (h : pos < data.length) : ∃ b, data[pos]? = some b :=
  ⟨data[pos], List.getElem?_eq_getElem h⟩

theorem exists_subBlocks (fuel pos : ℕ) (hpos : pos ≤ data.length)
    (hfuel : data.length - pos < fuel) :
    subBlocks data fuel pos = some none ∨
      ∃ next, subBlocks data fuel pos = some (some next) ∧ pos ≤ next ∧ next ≤ data.length := by
  induction fuel generalizing pos with
  | zero => exact absurd hfuel (Nat.not_lt_zero _)
  | succ fuel ih =>
    rw [subBlocks]
    by_cases hlt : pos < data.length
    · obtain ⟨subLen, hbyte⟩ := exists_byte data pos hlt
      rw [if_pos hlt, hbyte, bind_some]
      by_cases hzero : subLen = 0
      · rw [if_pos hzero]
        exact .inr ⟨pos + 1, rfl, by omega, by omega⟩
      · rw [if_neg hzero]
        by_cases hlong : data.length - (pos + 1) < subLen.toNat
        · rw [if_pos hlong]
          exact .inl rfl
        · rw [if_neg hlong]
          rcases ih (pos + 1 + subLen.toNat) (by omega) (by omega) with hfail | ⟨next, hnext, hle⟩
          · exact .inl hfail
          · exact .inr ⟨next, hnext, by omega, hle.2⟩
    · rw [if_neg hlt]
      exact .inr ⟨pos, rfl, le_rfl, hpos⟩

theorem exists_extensionBlock :
    extensionBlock data pos = some none ∨ ∃ next, extensionBlock data pos = some (some next) ∧
      pos ≤ next ∧ next ≤ data.length := by
  rw [extensionBlock]
  by_cases hend : data.length ≤ pos
  · rw [if_pos hend]
    exact .inl rfl
  · rw [if_neg hend]
    rcases exists_subBlocks data (data.length + 1) (pos + 1) (by omega) (by omega) with
      hfail | ⟨next, hnext, hle⟩
    · exact .inl hfail
    · exact .inr ⟨next, hnext, by omega, hle.2⟩

theorem exists_imageBlock (hpos : pos ≤ data.length) :
    imageBlock data pos = some none ∨ ∃ next, imageBlock data pos = some (some next) ∧
      pos ≤ next ∧ next ≤ data.length := by
  rw [imageBlock]
  by_cases hshort : data.length - pos < 9
  · rw [if_pos hshort]
    exact .inl rfl
  · obtain ⟨flags, hflags⟩ := exists_byte data (pos + 8) (by omega)
    rw [if_neg hshort, hflags, bind_some]
    by_cases htable : data.length - (pos + 9) < colorTable flags
    · rw [if_pos htable]
      exact .inl rfl
    · rw [if_neg htable]
      by_cases hend : data.length ≤ pos + 9 + colorTable flags
      · rw [if_pos hend]
        exact .inl rfl
      · rw [if_neg hend]
        rcases exists_subBlocks data (data.length + 1) (pos + 9 + colorTable flags + 1) (by omega)
          (by omega) with hfail | ⟨next, hnext, hle⟩
        · exact .inl hfail
        · exact .inr ⟨next, hnext, by omega, hle.2⟩

theorem exists_gifBlocks (fuel pos frames : ℕ) (hpos : pos ≤ data.length)
    (hfuel : data.length - pos < fuel) : ∃ r, gifBlocks data fuel pos frames = some r := by
  induction fuel generalizing pos frames with
  | zero => exact absurd hfuel (Nat.not_lt_zero _)
  | succ fuel ih =>
    rw [gifBlocks]
    by_cases hlt : pos < data.length
    · obtain ⟨block, hbyte⟩ := exists_byte data pos hlt
      rw [if_pos hlt, hbyte, bind_some]
      by_cases htrailer : block = 0x3B
      · exact ⟨_, if_pos htrailer⟩
      · rw [if_neg htrailer]
        by_cases himage : block = 0x2C
        · rw [if_pos himage]
          rcases exists_imageBlock data (pos + 1) (by omega) with
            hfail | ⟨next, hnext, hle⟩
          · rw [hfail]
            exact ⟨none, rfl⟩
          · rw [hnext, bind_some]
            dsimp only
            by_cases hmany : maxGifFrames < frames + 1
            · exact ⟨none, if_pos hmany⟩
            · rw [if_neg hmany]
              exact ih next (frames + 1) hle.2 (by omega)
        · rw [if_neg himage]
          by_cases hext : block = 0x21
          · rw [if_pos hext]
            rcases exists_extensionBlock data (pos + 1) with
              hfail | ⟨next, hnext, hle⟩
            · rw [hfail]
              exact ⟨none, rfl⟩
            · rw [hnext, bind_some]
              exact ih next frames hle.2 (by omega)
          · exact ⟨none, if_neg hext⟩
    · exact ⟨_, if_neg hlt⟩

theorem exists_gifProbe : ∃ r, gifProbe data = some r := by
  rw [gifProbe]
  by_cases hshort : isGifData data = false ∨ data.length < 13
  · exact ⟨_, if_pos hshort⟩
  · rw [if_neg hshort]
    have hlen : 13 ≤ data.length := by
      by_contra hlt
      exact hshort (.inr (by omega))
    have hword (i : ℕ) (hi : i + 1 < data.length) : ∃ n, readLe16 data i = some n := by
      obtain ⟨low, hlow⟩ := exists_byte data i (by omega)
      obtain ⟨high, hhigh⟩ := exists_byte data (i + 1) hi
      rw [readLe16, hlow, bind_some, hhigh]
      exact ⟨_, rfl⟩
    obtain ⟨width, hwidth⟩ := hword 6 (by omega)
    obtain ⟨height, hheight⟩ := hword 8 (by omega)
    rw [hwidth, bind_some, hheight, bind_some]
    by_cases hempty : width = 0 ∨ height = 0
    · exact ⟨_, if_pos hempty⟩
    · obtain ⟨flags, hflags⟩ := exists_byte data 10 (by omega)
      rw [if_neg hempty, hflags, bind_some]
      by_cases htable : data.length - 13 < colorTable flags
      · exact ⟨_, if_pos htable⟩
      · obtain ⟨frames, hframes⟩ := exists_gifBlocks data (data.length + 1)
          (13 + colorTable flags) 0 (by omega) (by omega)
        rw [if_neg htable, hframes]
        exact ⟨_, rfl⟩

end

end Cleonos.Imgview
