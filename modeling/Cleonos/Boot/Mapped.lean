import Cleonos.Boot.Safe
import Cleonos.Boot.Ranges

/-!
# The kernel is where its addresses say

The loader puts the kernel's lowest page at an address that is a multiple of 2 MiB, and the page
tables map the large page around that page to the same address.
-/

namespace Cleonos.Boot

open List Option
open Align

variable {source : TableSource} {st : Tables} {root v p : UInt64} {kernel : KernelImage}
  {fb : Framebuffer} {file : LoadedFile} {data : List UInt8} {image : ℕ → UInt8} {seg : Segment}
  {segs : List Segment}

/-- Each address of a segment leads to the byte where the loader has put the file's byte, or a
zero past `p_filesz`; the first 4 GiB and the framebuffer are in both direct maps. -/
structure Mapped (data : List UInt8) (kernel : KernelImage) (image : ℕ → UInt8)
    (fb : Framebuffer) (mem : UInt64 → UInt64 → UInt64) (cr3 : UInt64) : Prop where
  kernel : ∀ seg ∈ segments data, ∀ v : UInt64, seg.Has v.toNat →
    translate mem cr3 v = some (kernel.physBase + (v - kernel.mapStart)) ∧
      image (v - kernel.mapStart).toNat = seg.own data v.toNat
  low : ∀ v : UInt64, v.toNat < 2 ^ 32 → translate mem cr3 v = some v
  high : ∀ v : UInt64, v.toNat < 2 ^ 32 → translate mem cr3 (hhdmOffset.1 + v) = some v
  screen : fb.Present → ∀ v : UInt64, fb.base.toNat ≤ v.toNat →
    v.toNat < fb.base.toNat + fb.size.toNat →
      translate mem cr3 v = some v ∧ translate mem cr3 (hhdmOffset.1 + v) = some v

/-- The kernel is linked at its place in one of the direct maps. -/
def KernelImage.Direct (kernel : KernelImage) : Prop :=
  kernel.mapStart.toNat = kernel.physBase.toNat ∨
    kernel.mapStart.toNat = upperHalf + kernel.physBase.toNat

/-- The large pages of the kernel and those of the direct maps and the framebuffer do not
disagree: no segment has one of the framebuffer's, and each of the first 4 GiB is one of the
framebuffer's. -/
structure Clear (data : List UInt8) (kernel : KernelImage) (fb : Framebuffer) : Prop where
  screen : ∀ seg ∈ segments data, ∀ v : UInt64, seg.Has v.toNat → ¬ fb.Covers v.toNat
  first : ∀ v : UInt64, kernel.Covers v.toNat → InFirst4G v.toNat → fb.Covers v.toNat

/-- What the kernels have in common that are mapped right. -/
structure Mappable (data : List UInt8) (kernel : KernelImage) (fb : Framebuffer) : Prop where
  aligned : 2 ^ 21 ∣ kernel.mapStart.toNat
  canonical : ∀ seg ∈ segments data, ∀ v : UInt64, seg.Has v.toNat → Canonical v
  bytes : ∀ seg ∈ segments data, ∀ v : UInt64, seg.Has v.toNat →
    laid data (segments data) v.toNat = seg.own data v.toNat
  screen : fb.Present → fb.base.toNat + fb.size.toNat ≤ 2 ^ 47 - 2 ^ 21
  ranges : kernel.stop < 2 ^ 64 ∧ (kernel.Direct ∨ Clear data kernel fb) ∨
    kernel.Direct ∧ ∀ seg ∈ segments data, ∀ v : UInt64, seg.Has v.toNat →
      fb.Covers v.toNat ∨ InFirst4G v.toNat

/-! ### The place of the kernel -/

theorem foldl_widen {f : UInt64 × UInt64 → UInt64} {g : Segment → UInt64}
    (hf : ∀ bounds s, f (widen bounds s) = f bounds ∨ f (widen bounds s) = g s)
    {bounds : UInt64 × UInt64} : f (segs.foldl widen bounds) = f bounds ∨
      ∃ seg ∈ segs, f (segs.foldl widen bounds) = g seg := by
  induction segs generalizing bounds with
  | nil => exact .inl rfl
  | cons s rest ih =>
    rw [foldl_cons]
    rcases @ih (widen bounds s) with h | ⟨seg, hseg, h⟩
    · rw [h]
      exact (hf bounds s).imp_right fun hs => ⟨s, mem_cons_self, hs⟩
    · exact .inr ⟨seg, mem_cons_of_mem s hseg, h⟩

theorem foldl_widen_snd {bounds : UInt64 × UInt64} : (segs.foldl widen bounds).2 = bounds.2 ∨
    ∃ seg ∈ segs, (segs.foldl widen bounds).2 = seg.vaddr + seg.memsz :=
  foldl_widen fun _ _ => (ite_eq_or_eq _ _ _).symm

theorem foldl_widen_fst {bounds : UInt64 × UInt64} : (segs.foldl widen bounds).1 = bounds.1 ∨
    ∃ seg ∈ segs, (segs.foldl widen bounds).1 = seg.vaddr :=
  foldl_widen fun _ _ => (ite_eq_or_eq _ _ _).symm

theorem memsz_pos (hseg : seg ∈ segments data) : 0 < seg.memsz.toNat := by
  obtain ⟨pos, -, hpos⟩ := mem_filterMap.1 hseg
  rw [segmentAt] at hpos
  split at hpos
  · rename_i hloads
    cases hpos
    apply Nat.pos_of_ne_zero
    intro h
    exact hloads.2 (UInt64.toNat_inj.1 h)
  · exact absurd hpos (by simp)

theorem Loaded.has_iff (hloaded : Loaded data kernel image) (hseg : seg ∈ segments data)
    (hv : seg.Has v.toNat) : kernel.mapStart.toNat ≤ v.toNat ∧
      v.toNat < kernel.mapStart.toNat + (imageSize (segments data)).toNat := by
  have hstart := imageStart_le hseg
  have hmemory := (hloaded.fits seg hseg).memory
  rw [imageStop] at hmemory
  rw [hloaded.start]
  exact ⟨Nat.le_trans hstart hv.1, Nat.lt_of_lt_of_le hv.2 hmemory⟩

theorem Loaded.placed (hloaded : Loaded data kernel image)
    (hbelow : kernel.physBase.toNat + (imageSize (segments data)).toNat ≤ 2 ^ 52)
    (hcanonical : ∀ seg ∈ segments data, ∀ v : UInt64, seg.Has v.toNat → Canonical v) :
    kernel.Placed := by
  have hsize : kernel.mapEnd - kernel.mapStart = imageSize (segments data) := by
    rw [hloaded.start, hloaded.stop]
    rfl
  have hspan := hloaded.spanning
  have hfirst : ∃ seg ∈ segments data, (span (segments data)).1 = seg.vaddr :=
    foldl_widen_fst.resolve_left hspan.1
  have hlast : ∃ seg ∈ segments data, (span (segments data)).2 = seg.vaddr + seg.memsz := by
    refine foldl_widen_snd.resolve_left fun h => ?_
    have hlt := UInt64.lt_iff_toNat_lt.1 hspan.2
    rw [span, h] at hlt
    exact absurd hlt (Nat.not_lt_zero _)
  refine ⟨hloaded.base, ?_, fun v hv => ?_⟩
  · obtain ⟨q, hq⟩ := hloaded.base
    rw [hsize, cutUp, cutDown]
    omega
  · obtain ⟨low, hlowmem, hlow⟩ := hfirst
    obtain ⟨high, hhighmem, hhigh⟩ := hlast
    have hstart : kernel.mapStart.toNat = cutDown 12 low.vaddr.toNat := by
      rw [hloaded.start, toNat_imageStart, hlow]
    have hlowpos := memsz_pos hlowmem
    have hlowc := hcanonical low hlowmem low.vaddr ⟨le_rfl, by omega⟩
    have hin := hv.2
    rw [KernelImage.stop, KernelImage.start, hsize, hstart] at hin
    rcases hlowc with hbelow47 | habove
    · -- The end of the highest segment does not wrap, so its last byte is below the gap.
      have hmemory := (hloaded.fits high hhighmem).memory
      rw [imageStop, ← hloaded.start, hstart] at hmemory
      have hcut := cutDown_le 12 low.vaddr.toNat
      have hhighpos := memsz_pos hhighmem
      have hlastbyte : (UInt64.ofNat (high.vaddr.toNat + high.memsz.toNat - 1)).toNat =
          high.vaddr.toNat + high.memsz.toNat - 1 := by
        rw [UInt64.toNat_ofNat']
        exact Nat.mod_eq_of_lt (by omega)
      have hlastc := hcanonical high hhighmem _ ⟨by rw [hlastbyte]; omega, by
        rw [hlastbyte]
        omega⟩
      rw [Canonical, hlastbyte] at hlastc
      have hend : (span (segments data)).2.toNat = high.vaddr.toNat + high.memsz.toNat := by
        rw [hhigh, UInt64.toNat_add]
        exact Nat.mod_eq_of_lt (by omega)
      have himage : (imageSize (segments data)).toNat ≤ 2 ^ 47 - kernel.mapStart.toNat := by
        have hle := imageStart_le hlowmem
        have hlt := UInt64.lt_iff_toNat_lt.1 hspan.2
        rw [hlow, hend] at hlt
        rw [imageSize, UInt64.toNat_sub, toNat_imageEnd, hend, ← hloaded.start, cutUp, cutDown]
        rw [← hloaded.start] at hle
        omega
      left
      rw [hstart] at himage
      rw [cutUp] at hin
      simp only [cutDown] at hin himage
      omega
    · right
      rw [cutDown, cutDown] at hin
      omega

theorem translate_eq_some {mem : UInt64 → UInt64 → UInt64}
    (h : (translate mem root v).map UInt64.toNat = some p.toNat) :
    translate mem root v = some p := by
  obtain ⟨q, hq, hqp⟩ := map_eq_some_iff.1 h
  rw [hq, UInt64.toNat_inj.1 hqp]

theorem canonical_of_translate {mem : UInt64 → UInt64 → UInt64}
    (h : translate mem root v = some p) : Canonical v := by
  by_contra hcanonical
  rw [translate, if_neg hcanonical] at h
  exact absurd h (by simp)

theorem toNat_hhdm_add (h : v.toNat < 2 ^ 47) :
    (hhdmOffset.1 + v).toNat = upperHalf + v.toNat := by
  have hoffset : hhdmOffset.1.toNat = upperHalf := rfl
  have hupper : upperHalf = 2 ^ 64 - 2 ^ 47 := rfl
  rw [UInt64.toNat_add, hoffset]
  exact Nat.mod_eq_of_lt (by omega)

section

variable (hloaded : Loaded data kernel image)
  (hbelow : kernel.physBase.toNat + (imageSize (segments data)).toNat ≤ 2 ^ 52)

include hloaded hbelow

theorem Loaded.toNat_place (hseg : seg ∈ segments data) (hv : seg.Has v.toNat) :
    (kernel.physBase + (v - kernel.mapStart)).toNat =
      kernel.physBase.toNat + (v.toNat - kernel.mapStart.toNat) := by
  obtain ⟨hle, hlt⟩ := hloaded.has_iff hseg hv
  rw [UInt64.toNat_add, UInt64.toNat_sub_of_le _ _ (UInt64.le_iff_toNat_le.2 hle)]
  exact Nat.mod_eq_of_lt (by omega)

omit hbelow in
theorem Loaded.image_eq (hseg : seg ∈ segments data) (hv : seg.Has v.toNat) :
    image (v - kernel.mapStart).toNat = laid data (segments data) v.toNat := by
  obtain ⟨hle, -⟩ := hloaded.has_iff hseg hv
  rw [hloaded.image, UInt64.toNat_sub_of_le _ _ (UInt64.le_iff_toNat_le.2 hle),
    Nat.add_sub_cancel' hle]

end

theorem direct_eq_iff {x : ℕ} (hle : kernel.mapStart.toNat ≤ x)
    (hsmall : kernel.physBase.toNat + (x - kernel.mapStart.toNat) < upperHalf) :
    direct x = kernel.physBase.toNat + (x - kernel.mapStart.toNat) ↔ kernel.Direct := by
  rw [direct, KernelImage.Direct]
  split <;> omega

theorem KernelImage.start_of_dvd (h : 2 ^ 21 ∣ kernel.mapStart.toNat) :
    kernel.start = kernel.mapStart.toNat := cutDown_of_dvd h

theorem forall_inFirst4G {P : UInt64 → UInt64 → Prop}
    (hlow : ∀ v : UInt64, v.toNat < 2 ^ 32 → P v v)
    (hhigh : ∀ v : UInt64, v.toNat < 2 ^ 32 → P (hhdmOffset.1 + v) v) (hv : InFirst4G v.toNat) :
    ∃ w : UInt64, w.toNat = direct v.toNat ∧ P v w := by
  have hupper : upperHalf = 2 ^ 64 - 2 ^ 47 := rfl
  rcases hv with hsmall | ⟨hle, hlt⟩
  · refine ⟨v, ?_, hlow v hsmall⟩
    rw [direct, if_pos (by omega)]
  · have hoffset : hhdmOffset.1.toNat = upperHalf := rfl
    have hw : (v - hhdmOffset.1).toNat = v.toNat - upperHalf := by
      rw [UInt64.toNat_sub_of_le _ _ (UInt64.le_iff_toNat_le.2 (by rw [hoffset]; exact hle)),
        hoffset]
    have hback : hhdmOffset.1 + (v - hhdmOffset.1) = v := by
      rw [← UInt64.toNat_inj, toNat_hhdm_add (by omega), hw]
      omega
    refine ⟨v - hhdmOffset.1, ?_, ?_⟩
    · rw [hw, direct, if_neg (by omega)]
    · have h := hhigh (v - hhdmOffset.1) (by omega)
      rwa [hback] at h

section

variable (hloaded : Loaded data kernel image)
  (hbelow : kernel.physBase.toNat + (imageSize (segments data)).toNat ≤ 2 ^ 52)
  (hbuild : buildPageTables source kernel fb.base fb.size = some (root, st))

include hloaded hbelow hbuild

theorem Mappable.mapped (h : Mappable data kernel fb) : Mapped data kernel image fb st.mem root := by
  have hplaced := hloaded.placed hbelow h.canonical
  have htranslate := translate_buildPageTables hplaced
    (fun hpresent => Nat.le_trans (h.screen hpresent) (by decide)) hbuild
  have hstart := KernelImage.start_of_dvd h.aligned
  have hbase := hplaced.below
  have hstop : kernel.stop = kernel.start + cutUp 21 (kernel.mapEnd - kernel.mapStart).toNat := rfl
  have hsize : kernel.mapEnd - kernel.mapStart = imageSize (segments data) := by
    rw [hloaded.start, hloaded.stop]
    rfl
  have hcut := le_cutUp 21 (imageSize (segments data)).toNat
  rw [hsize] at hbase hstop
  have hupper : upperHalf = 2 ^ 64 - 2 ^ 47 := rfl
  -- In the large pages of the kernel, a kernel linked at its direct place agrees with the rest.
  have hdirect : ∀ x, kernel.Direct → kernel.mapStart.toNat ≤ x →
      x < kernel.mapStart.toNat + cutUp 21 (imageSize (segments data)).toNat →
        direct x = kernel.physBase.toNat + (x - kernel.mapStart.toNat) :=
    fun x hd hle hlt => (direct_eq_iff hle (by omega)).2 hd
  have hfirst : ∀ v : UInt64, InFirst4G v.toNat →
      (translate st.mem root v).map UInt64.toNat = some (direct v.toNat) := by
    intro v hv
    rw [htranslate v (canonical_of_direct hv)]
    by_cases hscreen : fb.Covers v.toNat
    · rw [if_pos hscreen]
    · rw [if_neg hscreen]
      by_cases hkernel : kernel.Covers v.toNat
      · have hin := hkernel.2
        rw [if_pos hkernel, hstart]
        rw [hstart] at hin
        have hd : kernel.Direct := by
          rcases h.ranges with ⟨-, hd | hclear⟩ | hd
          · exact hd
          · exact absurd (hclear.first v hkernel hv) hscreen
          · exact hd.1
        rw [hdirect v.toNat hd hin.1 (by omega)]
      · rw [if_neg hkernel, if_pos hv]
  constructor
  · intro seg hseg v hv
    obtain ⟨hle, hlt⟩ := hloaded.has_iff hseg hv
    refine ⟨translate_eq_some ?_, by rw [hloaded.image_eq hseg hv, h.bytes seg hseg v hv]⟩
    rw [htranslate v (h.canonical seg hseg v hv), hloaded.toNat_place hbelow hseg hv, hstart]
    by_cases hscreen : fb.Covers v.toNat
    · have hd : kernel.Direct := by
        rcases h.ranges with ⟨-, hd | hclear⟩ | hd
        · exact hd
        · exact absurd hscreen (hclear.screen seg hseg v hv)
        · exact hd.1
      rw [if_pos hscreen, hdirect v.toNat hd hle (by omega)]
    · rw [if_neg hscreen]
      by_cases hroom : kernel.stop < 2 ^ 64
      · rw [if_pos ⟨hroom, by omega, by omega⟩]
      · rcases h.ranges with hin | ⟨hd, hall⟩
        · exact absurd hin.1 hroom
        · rw [if_neg fun hkernel => hroom hkernel.1,
            if_pos ((hall seg hseg v hv).resolve_left hscreen),
            hdirect v.toNat hd hle (by omega)]
  · intro v hv
    apply translate_eq_some
    rw [hfirst v (.inl hv), direct, if_pos (by omega)]
  · intro v hv
    have hsum := @toNat_hhdm_add v (by omega)
    apply translate_eq_some
    rw [hfirst _ (.inr (by rw [hsum]; omega)), hsum, direct, if_neg (by omega)]
    refine congrArg some ?_
    omega
  · intro hpresent v hle hlt
    have hscreen := h.screen hpresent
    have hsum := @toNat_hhdm_add v (by omega)
    have hlow : fb.start ≤ v.toNat := Nat.le_trans (cutDown_le 21 _) hle
    have hhigh : v.toNat < fb.stop := Nat.lt_of_lt_of_le hlt (le_cutUp 21 _)
    have hend : fb.stop < 2 ^ 47 := by
      rw [Framebuffer.stop, cutUp, cutDown]
      omega
    constructor
    · have hcovers : fb.Covers v.toNat := ⟨hpresent, .inl ⟨hlow, hhigh⟩⟩
      apply translate_eq_some
      rw [htranslate v (.inl (by omega)), if_pos hcovers, direct, if_pos (by omega)]
    · have hcovers : fb.Covers (hhdmOffset.1 + v).toNat := by
        rw [hsum]
        exact ⟨hpresent, .inr ⟨hend, by omega, by omega⟩⟩
      apply translate_eq_some
      rw [htranslate _ (.inr (by rw [hsum]; omega)), if_pos hcovers, hsum, direct,
        if_neg (by omega)]
      refine congrArg some ?_
      omega

omit hbelow hbuild in
theorem Loaded.exists_segment : ∃ seg ∈ segments data, seg.Has seg.vaddr.toNat := by
  obtain ⟨seg, hseg, -⟩ := foldl_widen_fst.resolve_left hloaded.spanning.1
  have hpos := memsz_pos hseg
  exact ⟨seg, hseg, le_rfl, by omega⟩

omit hbuild in
theorem Mapped.aligned {mem : UInt64 → UInt64 → UInt64} (h : Mapped data kernel image fb mem root) :
    2 ^ 21 ∣ kernel.mapStart.toNat := by
  obtain ⟨seg, hseg, hv⟩ := hloaded.exists_segment
  obtain ⟨hle, -⟩ := hloaded.has_iff hseg hv
  have hmod := translate_mod (h.kernel seg hseg seg.vaddr hv).1
  rw [hloaded.toNat_place hbelow hseg hv] at hmod
  have hbase := hloaded.base
  omega

omit hbelow hloaded in
theorem Mapped.screenEnd (hplaced : kernel.Placed) (h : Mapped data kernel image fb st.mem root)
    (hpresent : fb.Present) : fb.base.toNat + fb.size.toNat ≤ 2 ^ 47 - 2 ^ 21 := by
  have hupper : upperHalf = 2 ^ 64 - 2 ^ 47 := rfl
  have hsum := fb.below
  have hpos : 0 < fb.size.toNat := by
    apply Nat.pos_of_ne_zero
    intro hzero
    exact hpresent.2 (UInt64.toNat_inj.1 hzero)
  -- The last byte of the framebuffer, at its own address and in the direct map.
  have hlast : (UInt64.ofNat (fb.base.toNat + fb.size.toNat - 1)).toNat =
      fb.base.toNat + fb.size.toNat - 1 := by
    rw [UInt64.toNat_ofNat']
    exact Nat.mod_eq_of_lt (by omega)
  obtain ⟨hlow, hhigh⟩ := h.screen hpresent _ (by rw [hlast]; omega) (by rw [hlast]; omega)
  have hcanonical := canonical_of_translate hlow
  rw [Canonical, hlast] at hcanonical
  by_contra hlong
  have hplace := @toNat_hhdm_add (UInt64.ofNat (fb.base.toNat + fb.size.toNat - 1))
    (by rw [hlast]; omega)
  rw [hlast] at hplace
  have hstop : ¬ fb.stop < 2 ^ 47 := by
    rw [Framebuffer.stop, cutUp, cutDown]
    omega
  have hstopLe : fb.stop ≤ 2 ^ 47 := by
    rw [Framebuffer.stop, cutUp, cutDown]
    omega
  have hscreen : ¬ fb.Covers (hhdmOffset.1 +
      UInt64.ofNat (fb.base.toNat + fb.size.toNat - 1)).toNat := by
    intro hcovers
    rw [hplace] at hcovers
    rcases hcovers.2 with hin | hin
    · omega
    · exact hstop hin.1
  have hkernel : ¬ kernel.Covers (hhdmOffset.1 +
      UInt64.ofNat (fb.base.toNat + fb.size.toNat - 1)).toNat := by
    intro hcovers
    rw [hplace, KernelImage.Covers, KernelImage.stop, KernelImage.start] at hcovers
    have hstart := dvd_cutDown 21 kernel.mapStart.toNat
    have hsize := dvd_cutUp 21 (kernel.mapEnd - kernel.mapStart).toNat
    omega
  have hfirst : ¬ InFirst4G (hhdmOffset.1 +
      UInt64.ofNat (fb.base.toNat + fb.size.toNat - 1)).toNat := by
    intro hin
    rw [hplace, InFirst4G] at hin
    omega
  have hnone := translate_buildPageTables hplaced (fun _ => by omega) hbuild _
    (.inr (by rw [hplace]; omega))
  rw [hhigh, if_neg hscreen, if_neg hkernel, if_neg hfirst] at hnone
  exact absurd hnone (by simp)

theorem Mapped.mappable (h : Mapped data kernel image fb st.mem root) :
    Mappable data kernel fb := by
  have hcanonical : ∀ seg ∈ segments data, ∀ v : UInt64, seg.Has v.toNat → Canonical v :=
    fun seg hseg v hv => canonical_of_translate (h.kernel seg hseg v hv).1
  have hplaced := hloaded.placed hbelow hcanonical
  have haligned := h.aligned hloaded hbelow
  have hscreenEnd : fb.Present → fb.base.toNat + fb.size.toNat ≤ 2 ^ 47 - 2 ^ 21 :=
    h.screenEnd hbuild hplaced
  have htranslate := translate_buildPageTables hplaced
    (fun hpresent => Nat.le_trans (hscreenEnd hpresent) (by decide)) hbuild
  have hstart := KernelImage.start_of_dvd haligned
  have hupper : upperHalf = 2 ^ 64 - 2 ^ 47 := rfl
  have hbase := hplaced.below
  -- What the tables translate an address of a segment to.
  have hplace : ∀ seg ∈ segments data, ∀ v : UInt64, seg.Has v.toNat →
      (translate st.mem root v).map UInt64.toNat =
        some (kernel.physBase.toNat + (v.toNat - kernel.mapStart.toNat)) := by
    intro seg hseg v hv
    rw [(h.kernel seg hseg v hv).1, map_some, hloaded.toNat_place hbelow hseg hv]
  have hdirect : ∀ x, direct x = kernel.physBase.toNat + (x - kernel.mapStart.toNat) →
      kernel.mapStart.toNat ≤ x → x < kernel.stop → kernel.Direct := by
    intro x hx hle hlt
    rw [KernelImage.stop, hstart] at hlt
    exact (direct_eq_iff hle (by omega)).1 hx
  have hsize : kernel.mapEnd - kernel.mapStart = imageSize (segments data) := by
    rw [hloaded.start, hloaded.stop]
    rfl
  have hin : ∀ seg ∈ segments data, ∀ v : UInt64, seg.Has v.toNat →
      kernel.mapStart.toNat ≤ v.toNat ∧ v.toNat < kernel.stop := by
    intro seg hseg v hv
    obtain ⟨hle, hlt⟩ := hloaded.has_iff hseg hv
    have hcut := le_cutUp 21 (imageSize (segments data)).toNat
    rw [KernelImage.stop, hstart, hsize]
    omega
  refine ⟨haligned, hcanonical, fun seg hseg v hv => ?_, hscreenEnd, ?_⟩
  · rw [← hloaded.image_eq hseg hv]
    exact (h.kernel seg hseg v hv).2
  by_cases hd : kernel.Direct
  · by_cases hroom : kernel.stop < 2 ^ 64
    · exact .inl ⟨hroom, .inl hd⟩
    · refine .inr ⟨hd, fun seg hseg v hv => ?_⟩
      by_contra hnone
      push Not at hnone
      have heq := htranslate v (hcanonical seg hseg v hv)
      rw [if_neg hnone.1, if_neg fun hkernel => hroom hkernel.1, if_neg hnone.2,
        hplace seg hseg v hv] at heq
      exact absurd heq (by simp)
  · -- A kernel that is linked elsewhere has its addresses from its own range only.
    have honly : ∀ seg ∈ segments data, ∀ v : UInt64, seg.Has v.toNat →
        ¬ fb.Covers v.toNat ∧ kernel.Covers v.toNat := by
      intro seg hseg v hv
      obtain ⟨hle, hlt⟩ := hin seg hseg v hv
      have heq := htranslate v (hcanonical seg hseg v hv)
      rw [hplace seg hseg v hv] at heq
      by_cases hscreen : fb.Covers v.toNat
      · rw [if_pos hscreen, Option.some.injEq] at heq
        exact absurd (hdirect _ heq.symm hle hlt) hd
      · rw [if_neg hscreen] at heq
        by_cases hkernel : kernel.Covers v.toNat
        · exact ⟨hscreen, hkernel⟩
        · rw [if_neg hkernel] at heq
          by_cases hfirst : InFirst4G v.toNat
          · rw [if_pos hfirst, Option.some.injEq] at heq
            exact absurd (hdirect _ heq.symm hle hlt) hd
          · rw [if_neg hfirst] at heq
            exact absurd heq (by simp)
    obtain ⟨seg, hseg, hv⟩ := hloaded.exists_segment
    refine .inl ⟨(honly seg hseg _ hv).2.1, .inr ⟨fun seg hseg v hv =>
      (honly seg hseg v hv).1, fun v hkernel hfirst => ?_⟩⟩
    by_contra hscreen
    obtain ⟨w, hw, heq⟩ := @forall_inFirst4G v (fun a b => translate st.mem root a = some b)
      h.low h.high hfirst
    have hkernelEq := htranslate v (canonical_of_direct hfirst)
    rw [heq, if_neg hscreen, if_pos hkernel, hstart, map_some, hw,
      Option.some.injEq] at hkernelEq
    have hrange := hkernel.2
    rw [hstart] at hrange
    exact hd (hdirect _ hkernelEq hrange.1 hrange.2)

end

/-- A kernel that the loader accepts is mapped right just if it is mappable. -/
theorem mapped_iff (file : LoadedFile) (memory : RamSource) (source : TableSource)
    (fb : Framebuffer) (hload : loadElf64 file memory.toPageSource = .ok (some (kernel, image)))
    (hbuild : buildPageTables source kernel fb.base fb.size = some (root, st)) :
    Mapped file.data kernel image fb st.mem root ↔ Mappable file.data kernel fb := by
  obtain ⟨hloaded, hbelow⟩ := loadElf64_loaded hload
  exact ⟨fun h => h.mappable hloaded hbelow hbuild, fun h => h.mapped hloaded hbelow hbuild⟩

theorem canonical_of_upper (h : ∀ seg ∈ segs, 2 ^ 64 - 2 ^ 47 ≤ seg.vaddr.toNat) :
    ∀ seg ∈ segs, ∀ v : UInt64, seg.Has v.toNat → Canonical v :=
  fun seg hseg _ hv => .inr (Nat.le_trans (h seg hseg) hv.1)

/-! ### A kernel of two pages -/

def le64 (n : ℕ) : List UInt8 := (List.range 8).map fun i => UInt8.ofNat (n / 256 ^ i)

/-- The program header of a segment of one byte. -/
def onePhdr (offset vaddr : ℕ) : List UInt8 :=
  [1, 0, 0, 0, 5, 0, 0, 0] ++ le64 offset ++ le64 vaddr ++ le64 vaddr ++ le64 1 ++ le64 1 ++
    le64 0x1000

/-- A kernel of two pages from `vaddr` on that hold one byte each. -/
def twoPages (vaddr : ℕ) : List UInt8 :=
  [0x7F, 69, 76, 70, 2] ++ List.replicate 13 0 ++ [0x3E] ++ List.replicate 5 0 ++ le64 vaddr ++
    le64 64 ++ List.replicate 14 0 ++ [56, 0, 2, 0] ++ List.replicate 6 0 ++
    onePhdr 176 vaddr ++ onePhdr 177 (vaddr + 0x1000) ++ [1, 2]

def twoPagesFile (vaddr : ℕ) : LoadedFile where
  data := twoPages vaddr
  size_lt := by
    simp [twoPages, onePhdr, le64]

/-- Memory from 2 MiB on for images, and from 256 MiB on for tables. -/
def someRam : RamSource where
  allocPages := fun pages => if pages.toNat ≤ 0xFE00 then some 0x200000 else none
  inside := by
    intro pages raw h
    split at h
    · cases h
      change 0x200000 + pages.toNat * 4096 ≤ _
      omega
    · exact absurd h (by simp)
  below := by
    intro pages raw h
    split at h
    · cases h
      change 0x200000 + pages.toNat * 4096 ≤ _
      omega
    · exact absurd h (by simp)

theorem toNat_tablePage {k : ℕ} (h : k < 2 ^ 20) :
    (UInt64.ofNat (0x10000000 + k * 4096)).toNat = 0x10000000 + k * 4096 := by
  rw [UInt64.toNat_ofNat']
  exact Nat.mod_eq_of_lt (by omega)

def someTables : TableSource where
  allocPage := fun k => if k < 2 ^ 20 then some (UInt64.ofNat (0x10000000 + k * 4096)) else none
  aligned := by
    intro k page h
    split at h
    · cases h
      rw [toNat_tablePage ‹_›]
      omega
    · exact absurd h (by simp)
  below := by
    intro k page h
    split at h
    · cases h
      rw [toNat_tablePage ‹_›]
      omega
    · exact absurd h (by simp)
  distinct := by
    intro j k page hj hk
    split at hj
    · split at hk
      · cases hj
        have heq := congrArg UInt64.toNat (Option.some.inj hk)
        rw [toNat_tablePage ‹_›, toNat_tablePage ‹_›] at heq
        omega
      · exact absurd hk (by simp)
    · exact absurd hj (by simp)

def noScreen : Framebuffer where
  base := 0
  size := 0
  below := by decide

theorem noScreen_covers (x : ℕ) : ¬ noScreen.Covers x := fun h => h.1.1 rfl

theorem exists_tables (hbase : 2 ^ 21 ∣ kernel.physBase.toNat)
    (hsize : cutUp 21 (kernel.mapEnd - kernel.mapStart).toNat ≤ 1 * 2 ^ 21) :
    ∃ root st, buildPageTables someTables kernel noScreen.base noScreen.size =
      some (root, st) := by
  refine buildPageTables_isSome hbase hsize fun k hk => ?_
  have hpage : someTables.allocPage k = some (UInt64.ofNat (0x10000000 + k * 4096)) :=
    if_pos (by omega)
  rw [hpage]
  rfl

set_option maxRecDepth 4000 in
/-- The kernel of two pages at a multiple of 2 MiB is mapped right. -/
theorem mapped_twoPages : ∃ kernel image root st,
    loadElf64 (twoPagesFile 0xFFFFFFFF80000000) someRam.toPageSource =
      .ok (some (kernel, image)) ∧
    buildPageTables someTables kernel noScreen.base noScreen.size = some (root, st) ∧
    Mapped (twoPages 0xFFFFFFFF80000000) kernel image noScreen st.mem root := by
  have hsegments : segments (twoPages 0xFFFFFFFF80000000) =
      [⟨176, 0xFFFFFFFF80000000, 1, 1⟩, ⟨177, 0xFFFFFFFF80001000, 1, 1⟩] := by decide
  obtain ⟨image, hload⟩ : ∃ image, loadElf64 (twoPagesFile 0xFFFFFFFF80000000)
      someRam.toPageSource = .ok (some (⟨0xFFFFFFFF80000000, 0x200000, 0xFFFFFFFF80000000,
        0xFFFFFFFF80000000, 0xFFFFFFFF80002000⟩, image)) := by
    have hdata : segments (twoPagesFile 0xFFFFFFFF80000000).data = _ := hsegments
    apply Exists.intro
    rw [loadElf64_eq, if_pos (by decide +kernel), if_pos (by decide +kernel), hdata, place]
    rfl
  obtain ⟨root, st, hbuild⟩ := @exists_tables ⟨0xFFFFFFFF80000000, 0x200000,
    0xFFFFFFFF80000000, 0xFFFFFFFF80000000, 0xFFFFFFFF80002000⟩ (by decide) (by decide)
  refine ⟨_, image, root, st, hload, hbuild,
    (mapped_iff _ someRam someTables noScreen hload hbuild).2 ?_⟩
  have hdata : segments (twoPagesFile 0xFFFFFFFF80000000).data = _ := hsegments
  constructor
  · exact ⟨0x7FFFFFFFC00, rfl⟩
  · exact canonical_of_upper (by rw [hdata]; decide)
  · rw [hdata]
    intro seg hseg v hv
    exact laid_eq_own (by rw [Apart]; decide) (by decide) hseg hv
  · exact fun h => absurd rfl h.1
  · refine .inl ⟨by decide, .inr ⟨fun _ _ _ _ => noScreen_covers _, fun v hv hfirst => ?_⟩⟩
    have hle : 0xFFFFFFFF80000000 ≤ v.toNat := hv.2.1
    rw [InFirst4G, upperHalf] at hfirst
    omega

set_option maxRecDepth 4000 in
theorem kernel_misread : ¬ ∀ (file : LoadedFile) (memory : RamSource) (source : TableSource)
    (fb : Framebuffer) (kernel : KernelImage) (image : ℕ → UInt8) (root : UInt64) (st : Tables),
    loadElf64 file memory.toPageSource = .ok (some (kernel, image)) →
    Apart (segments file.data) →
    buildPageTables source kernel fb.base fb.size = some (root, st) →
    ∀ seg ∈ segments file.data, ∀ v : UInt64, seg.Has v.toNat →
      ∃ p, translate st.mem root v = some p ∧
        image (p - kernel.physBase).toNat = seg.own file.data v.toNat := by
  intro hall
  have hsegments : segments (twoPages 0xFFFFFFFF80001000) =
      [⟨176, 0xFFFFFFFF80001000, 1, 1⟩, ⟨177, 0xFFFFFFFF80002000, 1, 1⟩] := by decide
  obtain ⟨image, hload⟩ : ∃ image, loadElf64 (twoPagesFile 0xFFFFFFFF80001000)
      someRam.toPageSource = .ok (some (⟨0xFFFFFFFF80001000, 0x200000, 0xFFFFFFFF80001000,
        0xFFFFFFFF80001000, 0xFFFFFFFF80003000⟩, image)) := by
    have hdata : segments (twoPagesFile 0xFFFFFFFF80001000).data = _ := hsegments
    apply Exists.intro
    rw [loadElf64_eq, if_pos (by decide +kernel), if_pos (by decide +kernel), hdata, place]
    rfl
  obtain ⟨root, st, hbuild⟩ := @exists_tables ⟨0xFFFFFFFF80001000, 0x200000,
    0xFFFFFFFF80001000, 0xFFFFFFFF80001000, 0xFFFFFFFF80003000⟩ (by decide) (by decide)
  have hdata : segments (twoPagesFile 0xFFFFFFFF80001000).data = _ := hsegments
  have hmem : (⟨176, 0xFFFFFFFF80001000, 1, 1⟩ : Segment) ∈
      segments (twoPagesFile 0xFFFFFFFF80001000).data := by
    rw [hdata]
    exact mem_cons_self
  obtain ⟨p, hp, hbyte⟩ := hall _ someRam someTables noScreen _ image root st hload
    (by rw [hdata, Apart]; decide) hbuild _ hmem 0xFFFFFFFF80001000 (by decide)
  obtain ⟨hloaded, hbelow⟩ := loadElf64_loaded hload
  have hplaced := hloaded.placed hbelow (canonical_of_upper (by rw [hdata]; decide))
  -- The address is the second page of the large page, and so is the byte it leads to.
  have hplace := translate_buildPageTables hplaced (fun h => absurd rfl h.1) hbuild
    0xFFFFFFFF80001000 (by decide)
  rw [hp, if_neg (noScreen_covers _), if_pos (by decide), map_some,
    Option.some.injEq] at hplace
  have hoffset : (p - 0x200000).toNat = 0x1000 := by
    rw [UInt64.toNat_sub, hplace]
    rfl
  change image (p - 0x200000).toNat = _ at hbyte
  rw [hoffset, hloaded.image, hdata] at hbyte
  exact absurd hbyte (by decide)

end Cleonos.Boot
