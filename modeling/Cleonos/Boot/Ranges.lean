import Cleonos.Boot.Paging

/-!
# The ranges that the loader maps

The first 4 GiB in two direct maps, then the kernel, then the framebuffer in both direct maps.
-/

namespace Cleonos.Boot

open Option

open Align

/-- The framebuffer, of the processor's 52-bit addresses; without one both are zero. -/
structure Framebuffer where
  base : UInt64
  size : UInt64
  below : base.toNat + size.toNat ≤ 2 ^ 52

namespace Framebuffer

open Option

variable (fb : Framebuffer)

def Present : Prop := fb.base ≠ 0 ∧ fb.size ≠ 0

instance : Decidable fb.Present := by
  unfold Present
  infer_instance

/-- The large pages of the framebuffer. -/
def start : ℕ := cutDown 21 fb.base.toNat
def stop : ℕ := cutUp 21 (fb.base.toNat + fb.size.toNat)

end Framebuffer

/-- Where the upper half of the addresses begins; the direct map begins there as well. -/
def upperHalf : ℕ := 2 ^ 64 - 2 ^ 47

/-- What an address stands for in the direct maps of the two halves. -/
def direct (v : ℕ) : ℕ := if v < upperHalf then v else v - upperHalf

/-- The addresses of the first 4 GiB in the two direct maps. -/
def InFirst4G (v : ℕ) : Prop := v < 2 ^ 32 ∨ upperHalf ≤ v ∧ v < upperHalf + 2 ^ 32

/-- The addresses in the large pages of the framebuffer, in the two direct maps. -/
def Framebuffer.Covers (fb : Framebuffer) (v : ℕ) : Prop :=
  fb.Present ∧ (fb.start ≤ v ∧ v < fb.stop ∨
    fb.stop < 2 ^ 47 ∧ upperHalf + fb.start ≤ v ∧ v < upperHalf + fb.stop)

/-- The large pages for the kernel begin and end here. -/
def KernelImage.start (kernel : KernelImage) : ℕ := cutDown 21 kernel.mapStart.toNat
def KernelImage.stop (kernel : KernelImage) : ℕ :=
  kernel.start + cutUp 21 (kernel.mapEnd - kernel.mapStart).toNat

/-- The addresses that are mapped for the kernel; none where they end with the address space. -/
def KernelImage.Covers (kernel : KernelImage) (v : ℕ) : Prop :=
  kernel.stop < 2 ^ 64 ∧ kernel.start ≤ v ∧ v < kernel.stop

instance (v : ℕ) : Decidable (InFirst4G v) := by
  unfold InFirst4G
  infer_instance

instance (fb : Framebuffer) (v : ℕ) : Decidable (fb.Covers v) := by
  unfold Framebuffer.Covers
  infer_instance

instance (kernel : KernelImage) (v : ℕ) : Decidable (kernel.Covers v) := by
  unfold KernelImage.Covers
  infer_instance

variable {source : TableSource} {st st' : Tables} {root v : UInt64} {kernel : KernelImage}
  {fb : Framebuffer}

/-! ### The tables -/

theorem translate_map2m {virt size : Large} {phys : UInt64} (hbuilt : Built source st root)
    (hfits : virt.1.toNat + size.1.toNat < 2 ^ 64)
    (hcanonical : ∀ v : UInt64, virt.1.toNat ≤ v.toNat →
      v.toNat < virt.1.toNat + size.1.toNat → Canonical v)
    (hphys : 2 ^ 21 ∣ phys.toNat) (hbelow : phys.toNat + size.1.toNat ≤ 2 ^ 52)
    (h : map2m source root virt phys size st = some st') :
    Built source st' root ∧ ∀ v, Canonical v → (translate st'.mem root v).map UInt64.toNat =
      if virt.1.toNat ≤ v.toNat ∧ v.toNat < virt.1.toNat + size.1.toNat then
        some (phys.toNat + (v.toNat - virt.1.toNat))
      else (translate st.mem root v).map UInt64.toNat := by
  have hstop : (virt + size).1.toNat = virt.1.toNat + size.1.toNat := by
    change (virt.1 + size.1).toNat = _
    rw [UInt64.toNat_add, Nat.mod_eq_of_lt hfits]
  rw [← hstop] at hcanonical ⊢
  exact translate_mapLoop hbuilt (by omega) hcanonical hphys (by omega) h

theorem map2m_of_wrap {virt size : Large} {phys : UInt64}
    (hwrap : 2 ^ 64 ≤ virt.1.toNat + size.1.toNat) :
    map2m source root virt phys size st = some st := by
  have hstop : ¬ virt.1 < (virt + size).1 := by
    intro h
    have hlt : virt.1.toNat < (virt.1 + size.1).toNat := UInt64.lt_iff_toNat_lt.1 h
    have hv := virt.1.toNat_lt
    have hs := size.1.toNat_lt
    rw [UInt64.toNat_add] at hlt
    omega
  rw [map2m, mapLoop, if_neg hstop]

theorem allocTable_root (h : allocTable source ⟨fun _ _ => 0, 0⟩ = some (root, st)) :
    Built source st root ∧ ∀ v, translate st.mem root v = none := by
  rw [allocTable] at h
  obtain ⟨page, hpage, hst⟩ := map_eq_some_iff.1 h
  cases hst
  have habsent : ∀ i : UInt64,
      isPresent (Radix.clear 0 (fun _ _ : UInt64 => (0 : UInt64)) root root i) = false := by
    intro i
    rw [Radix.clear_self]
    rfl
  refine ⟨⟨Radix.Tree.single habsent, ?_⟩, fun v => ?_⟩
  · intro path t hpath ht
    by_cases hnil : path = []
    · rw [hnil, Radix.descend_nil] at ht
      cases ht
      exact ⟨0, Nat.zero_lt_one, hpage⟩
    · rw [Radix.descend_of_absent habsent hnil] at ht
      exact absurd ht (by simp)
  · rw [translate, Radix.lookup_of_absent habsent, bind_none, ite_self]

theorem canonical_of_direct (h : InFirst4G v.toNat) : Canonical v := by
  rw [InFirst4G, upperHalf] at h
  rw [Canonical]
  omega

theorem translate_first (hbuilt : Built source st root)
    (hnone : ∀ v, translate st.mem root v = none) {st₁ st₂ : Tables}
    (hlow : map2m source root ⟨0, ⟨0, rfl⟩⟩ 0 physMapSize st = some st₁)
    (hhigh : map2m source root hhdmOffset 0 physMapSize st₁ = some st₂) :
    Built source st₂ root ∧ ∀ v, Canonical v → (translate st₂.mem root v).map UInt64.toNat =
      if InFirst4G v.toNat then some (direct v.toNat) else none := by
  have hzero : (0 : UInt64).toNat = 0 := rfl
  have hsize : physMapSize.1.toNat = 2 ^ 32 := rfl
  have hoffset : hhdmOffset.1.toNat = upperHalf := rfl
  obtain ⟨hbuilt₁, htranslate₁⟩ := translate_map2m hbuilt (by rw [hsize, hzero]; decide)
    (fun v _ hv => canonical_of_direct (.inl (by rw [hsize, hzero] at hv; omega)))
    (by rw [hzero]; exact Nat.dvd_zero _) (by rw [hsize, hzero]; decide) hlow
  obtain ⟨hbuilt₂, htranslate₂⟩ := translate_map2m hbuilt₁
    (by rw [hsize, hoffset]; decide)
    (fun v hv hv' => canonical_of_direct (.inr (by rw [hsize, hoffset] at hv'; omega)))
    (by rw [hzero]; exact Nat.dvd_zero _) (by rw [hsize, hzero]; decide) hhigh
  refine ⟨hbuilt₂, fun v hv => ?_⟩
  rw [htranslate₂ v hv, htranslate₁ v hv, hnone v, hsize, hzero, hoffset, map_none]
  by_cases hin : upperHalf ≤ v.toNat ∧ v.toNat < upperHalf + 2 ^ 32
  · have hfirst : InFirst4G v.toNat := .inr hin
    rw [if_pos hin, if_pos hfirst, direct, if_neg (by omega), Nat.zero_add]
  · rw [if_neg hin]
    by_cases hlow : v.toNat < 2 ^ 32
    · have hfirst : InFirst4G v.toNat := .inl hlow
      rw [if_pos ⟨Nat.zero_le _, by omega⟩, if_pos hfirst, direct,
        if_pos (by rw [upperHalf]; omega), Nat.zero_add, Nat.sub_zero]
    · have hfirst : ¬ InFirst4G v.toNat := fun h => h.elim hlow hin
      rw [if_neg (by omega), if_neg hfirst]

/-- What the loader's placement and the kernel's addresses give. -/
structure KernelImage.Placed (kernel : KernelImage) : Prop where
  base : 2 ^ 21 ∣ kernel.physBase.toNat
  below : kernel.physBase.toNat + cutUp 21 (kernel.mapEnd - kernel.mapStart).toNat ≤ 2 ^ 52
  canonical : ∀ v : UInt64, kernel.Covers v.toNat → Canonical v

theorem Large.down_of_dvd {v : UInt64} (h : 2 ^ 21 ∣ v.toNat) : (Large.down v).1 = v := by
  rw [← UInt64.toNat_inj]
  exact (toNat_down (k := 21) rfl).trans (cutDown_of_dvd h)

theorem Large.toNat_down (v : UInt64) : (Large.down v).1.toNat = cutDown 21 v.toNat :=
  Align.toNat_down rfl

theorem Large.toNat_up {v : UInt64} (h : cutUp 21 v.toNat < 2 ^ 64) :
    (Large.up v).1.toNat = cutUp 21 v.toNat :=
  (Align.toNat_up rfl).trans (Nat.mod_eq_of_lt h)

theorem translate_kernel (hplaced : kernel.Placed) (hbuilt : Built source st root)
    (h : map2m source root (Large.down kernel.mapStart) (Large.down kernel.physBase).1
      (Large.up (kernel.physBase - (Large.down kernel.physBase).1 +
        (kernel.mapEnd - kernel.mapStart))) st = some st') :
    Built source st' root ∧ ∀ v, Canonical v → (translate st'.mem root v).map UInt64.toNat =
      if kernel.Covers v.toNat then
        some (kernel.physBase.toNat + (v.toNat - kernel.start))
      else (translate st.mem root v).map UInt64.toNat := by
  have hbelow := hplaced.below
  rw [Large.down_of_dvd hplaced.base, UInt64.sub_self, UInt64.zero_add] at h
  have hstart : (Large.down kernel.mapStart).1.toNat = kernel.start := Large.toNat_down _
  have hsize := @Large.toNat_up (kernel.mapEnd - kernel.mapStart) (by omega)
  have hstop : kernel.stop = (Large.down kernel.mapStart).1.toNat +
      (Large.up (kernel.mapEnd - kernel.mapStart)).1.toNat := by
    rw [hstart, hsize]
    rfl
  by_cases hroom : kernel.stop < 2 ^ 64
  · obtain ⟨hbuilt', htranslate⟩ := translate_map2m hbuilt (by rw [← hstop]; exact hroom)
      (fun v hv hv' => hplaced.canonical v ⟨hroom, by omega, by omega⟩) hplaced.base
      (by rw [hsize]; exact hbelow) h
    refine ⟨hbuilt', fun v hv => ?_⟩
    rw [htranslate v hv, ← hstop, hstart]
    by_cases hin : kernel.start ≤ v.toNat ∧ v.toNat < kernel.stop
    · have hcovers : kernel.Covers v.toNat := ⟨hroom, hin⟩
      rw [if_pos hin, if_pos hcovers]
    · have hcovers : ¬ kernel.Covers v.toNat := fun h => hin h.2
      rw [if_neg hin, if_neg hcovers]
  · rw [map2m_of_wrap (by omega)] at h
    cases h
    refine ⟨hbuilt, fun v hv => ?_⟩
    have hcovers : ¬ kernel.Covers v.toNat := fun h => hroom h.1
    rw [if_neg hcovers]

theorem Framebuffer.stop_eq (fb : Framebuffer) :
    fb.start + cutUp 21 (fb.base.toNat - fb.start + fb.size.toNat) = fb.stop := by
  rw [start, stop, cutUp, cutUp, cutDown, cutDown, cutDown]
  omega

theorem translate_framebuffer (hscreen : fb.Present → fb.base.toNat + fb.size.toNat ≤ 2 ^ 47)
    (hbuilt : Built source st root)
    (h : mapFramebuffer source root fb.base fb.size st = some st') :
    ∀ v, Canonical v → (translate st'.mem root v).map UInt64.toNat =
      if fb.Covers v.toNat then some (direct v.toNat)
      else (translate st.mem root v).map UInt64.toNat := by
  intro v hv
  rw [mapFramebuffer] at h
  by_cases hpresent : fb.base ≠ 0 ∧ fb.size ≠ 0
  · rw [if_pos hpresent] at h
    obtain ⟨st₁, hhigh, hlow⟩ := bind_eq_some_iff.1 h
    have hsum := hscreen hpresent
    have hstart : (Large.down fb.base).1.toNat = fb.start := Large.toNat_down fb.base
    have hle : fb.start ≤ fb.base.toNat := cutDown_le 21 _
    have hpos : 0 < fb.size.toNat := by
      apply Nat.pos_of_ne_zero
      intro h
      exact hpresent.2 (UInt64.toNat_inj.1 h)
    have hdvd : 2 ^ 21 ∣ fb.start := dvd_cutDown 21 _
    have hstop := fb.stop_eq
    have hstopLe : fb.stop ≤ 2 ^ 47 := by
      rw [Framebuffer.stop, cutUp, cutDown]
      omega
    have hlen : (fb.base - (Large.down fb.base).1 + fb.size).toNat =
        fb.base.toNat - fb.start + fb.size.toNat := by
      rw [UInt64.toNat_add, UInt64.toNat_sub_of_le _ _
        (UInt64.le_iff_toNat_le.2 (by rw [hstart]; exact hle)), hstart]
      exact Nat.mod_eq_of_lt (by omega)
    have hsize : (Large.up (fb.base - (Large.down fb.base).1 + fb.size)).1.toNat =
        fb.stop - fb.start := by
      rw [Large.toNat_up (by rw [hlen]; omega), hlen]
      omega
    have hupper : upperHalf = 2 ^ 64 - 2 ^ 47 := rfl
    have hoffset : (hhdmOffset + Large.down fb.base).1.toNat = upperHalf + fb.start := by
      have hhhdm : hhdmOffset.1.toNat = upperHalf := rfl
      change (hhdmOffset.1 + (Large.down fb.base).1).toNat = _
      rw [UInt64.toNat_add, hstart, hhhdm]
      exact Nat.mod_eq_of_lt (by omega)
    have hphys : 2 ^ 21 ∣ (Large.down fb.base).1.toNat := by
      rw [hstart]
      exact hdvd
    -- Large pages that reach the end of the address space are not mapped in the upper half.
    have hhigher : Built source st₁ root ∧
        (translate st₁.mem root v).map UInt64.toNat =
          if fb.stop < 2 ^ 47 ∧ upperHalf + fb.start ≤ v.toNat ∧ v.toNat < upperHalf + fb.stop then
            some (direct v.toNat)
          else (translate st.mem root v).map UInt64.toNat := by
      by_cases hend : fb.stop < 2 ^ 47
      · obtain ⟨hbuilt₁, htranslate₁⟩ := translate_map2m hbuilt
          (by rw [hoffset, hsize]; omega)
          (fun v hv _ => .inr (by rw [hoffset] at hv; omega)) hphys
          (by rw [hstart, hsize]; omega) hhigh
        refine ⟨hbuilt₁, ?_⟩
        rw [htranslate₁ v hv, hoffset, hsize, hstart]
        by_cases hin : upperHalf + fb.start ≤ v.toNat ∧ v.toNat < upperHalf + fb.stop
        · rw [if_pos (by omega), if_pos ⟨hend, hin⟩, direct, if_neg (by omega)]
          refine congrArg some ?_
          omega
        · rw [if_neg (by omega), if_neg fun h => hin h.2]
      · rw [map2m_of_wrap (by rw [hoffset, hsize]; omega)] at hhigh
        cases hhigh
        exact ⟨hbuilt, by rw [if_neg fun h => hend h.1]⟩
    obtain ⟨-, htranslate₂⟩ := translate_map2m hhigher.1 (by rw [hstart, hsize]; omega)
      (fun v _ hv => .inl (by rw [hstart, hsize] at hv; omega)) hphys
      (by rw [hstart, hsize]; omega) hlow
    rw [htranslate₂ v hv, hhigher.2, hstart, hsize]
    by_cases hin : fb.start ≤ v.toNat ∧ v.toNat < fb.stop
    · have hcovers : fb.Covers v.toNat := ⟨hpresent, .inl hin⟩
      rw [if_pos (by omega), if_pos hcovers, direct, if_pos (by omega)]
      refine congrArg some ?_
      omega
    · rw [if_neg (by omega)]
      by_cases hin' : fb.stop < 2 ^ 47 ∧ upperHalf + fb.start ≤ v.toNat ∧
          v.toNat < upperHalf + fb.stop
      · have hcovers : fb.Covers v.toNat := ⟨hpresent, .inr hin'⟩
        rw [if_pos hin', if_pos hcovers]
      · have hcovers : ¬ fb.Covers v.toNat := fun h => h.2.elim hin hin'
        rw [if_neg hin', if_neg hcovers]
  · rw [if_neg hpresent] at h
    cases h
    have hcovers : ¬ fb.Covers v.toNat := fun h => hpresent h.1
    rw [if_neg hcovers]

theorem translate_buildPageTables (hplaced : kernel.Placed)
    (hscreen : fb.Present → fb.base.toNat + fb.size.toNat ≤ 2 ^ 47)
    (h : buildPageTables source kernel fb.base fb.size = some (root, st)) :
    ∀ v, Canonical v → (translate st.mem root v).map UInt64.toNat =
      if fb.Covers v.toNat then some (direct v.toNat)
      else if kernel.Covers v.toNat then
        some (kernel.physBase.toNat + (v.toNat - kernel.start))
      else if InFirst4G v.toNat then some (direct v.toNat) else none := by
  rw [buildPageTables] at h
  obtain ⟨⟨pml4, st₀⟩, hroot, h⟩ := bind_eq_some_iff.1 h
  obtain ⟨st₁, hlow, h⟩ := bind_eq_some_iff.1 h
  obtain ⟨st₂, hhigh, h⟩ := bind_eq_some_iff.1 h
  obtain ⟨st₃, hkernel, h⟩ := bind_eq_some_iff.1 h
  obtain ⟨st₄, hscreens, h⟩ := bind_eq_some_iff.1 h
  cases h
  obtain ⟨hbuilt₀, hnone⟩ := allocTable_root hroot
  obtain ⟨hbuilt₂, htranslate₂⟩ := translate_first hbuilt₀ hnone hlow hhigh
  obtain ⟨hbuilt₃, htranslate₃⟩ := translate_kernel hplaced hbuilt₂ hkernel
  intro v hv
  rw [translate_framebuffer hscreen hbuilt₃ hscreens v hv, htranslate₃ v hv, htranslate₂ v hv]

/-- The firmware has `n` pages. -/
def TableSource.Has (source : TableSource) (n : ℕ) : Prop :=
  ∀ k < n, (source.allocPage k).isSome

theorem nextTable_isSome {table index : UInt64} (h : source.Has (st.used + 1)) :
    ∃ page st', nextTable source st table index = some (page, st') ∧ st'.used ≤ st.used + 1 := by
  rw [nextTable]
  split
  · obtain ⟨page, hpage⟩ := isSome_iff_exists.1 (h st.used (Nat.lt_succ_self _))
    rw [allocTable, hpage]
    exact ⟨_, _, rfl, le_rfl⟩
  · exact ⟨_, _, rfl, Nat.le_succ _⟩

theorem mapPage_isSome {virt phys : UInt64} (h : source.Has (st.used + 2)) :
    ∃ st', mapPage source root virt phys st = some st' ∧ st'.used ≤ st.used + 2 := by
  obtain ⟨pdpt, st₁, hpdpt, hused₁⟩ := @nextTable_isSome source st root
    ((virt >>> 39) &&& 0x1FF) fun k hk => h k (by omega)
  obtain ⟨pd, st₂, hpd, hused₂⟩ := @nextTable_isSome source st₁ pdpt
    ((virt >>> 30) &&& 0x1FF) fun k hk => h k (by omega)
  refine ⟨⟨Radix.store st₂.mem pd ((virt >>> 21) &&& 0x1FF) (pageEntry phys), st₂.used⟩, ?_,
    Nat.le_trans hused₂ (Nat.succ_le_succ hused₁)⟩
  rw [mapPage, hpdpt]
  simp only [bind_eq_bind, bind_some, hpd]
  rfl

theorem mapLoop_isSome {stop virt : Large} {phys : UInt64} {n : ℕ}
    (hn : stop.1.toNat ≤ virt.1.toNat + n * 2 ^ 21) (h : source.Has (st.used + 2 * n)) :
    ∃ st', mapLoop source root stop virt phys st = some st' ∧ st'.used ≤ st.used + 2 * n := by
  induction n generalizing virt phys st with
  | zero =>
    have hstop : ¬ virt.1 < stop.1 := by
      intro hlt
      have hlt := UInt64.lt_iff_toNat_lt.1 hlt
      omega
    rw [mapLoop, if_neg hstop]
    exact ⟨st, rfl, le_rfl⟩
  | succ n ih =>
    rw [mapLoop]
    by_cases hlt : virt.1 < stop.1
    · obtain ⟨st₁, hpage, hused₁⟩ := @mapPage_isSome source st root virt.1 phys
        fun k hk => h k (by omega)
      obtain ⟨hnext, -⟩ := Large.toNat_add_one hlt
      have hless : stop.1.toNat ≤ (virt + Large.one).1.toNat + n * 2 ^ 21 := by
        rw [hnext]
        omega
      obtain ⟨st', hloop, hused⟩ := @ih st₁ (virt + Large.one) (phys + largePage) hless
        fun k hk => h k (by omega)
      refine ⟨st', ?_, by omega⟩
      rw [if_pos hlt, hpage, bind_some]
      exact hloop
    · rw [if_neg hlt]
      exact ⟨st, rfl, by omega⟩

theorem map2m_isSome {virt size : Large} {phys : UInt64} {n : ℕ}
    (hn : size.1.toNat ≤ n * 2 ^ 21) (h : source.Has (st.used + 2 * n)) :
    ∃ st', map2m source root virt phys size st = some st' ∧ st'.used ≤ st.used + 2 * n := by
  refine mapLoop_isSome ?_ h
  change (virt.1 + size.1).toNat ≤ _
  rw [UInt64.toNat_add]
  have hmod := Nat.mod_le (virt.1.toNat + size.1.toNat) (2 ^ 64)
  omega

theorem buildPageTables_isSome {n : ℕ} (hbase : 2 ^ 21 ∣ kernel.physBase.toNat)
    (hn : cutUp 21 (kernel.mapEnd - kernel.mapStart).toNat ≤ n * 2 ^ 21)
    (h : source.Has (1 + 2 * (4096 + n))) :
    ∃ root st, buildPageTables source kernel 0 0 = some (root, st) := by
  obtain ⟨root, hroot⟩ := isSome_iff_exists.1 (h 0 (by omega))
  have halloc : allocTable source ⟨fun _ _ => 0, 0⟩ =
      some (root, ⟨Radix.clear 0 (fun _ _ => 0) root, 1⟩) := by
    rw [allocTable, hroot]
    rfl
  have hfirst : physMapSize.1.toNat ≤ 2048 * 2 ^ 21 := by decide
  obtain ⟨st₁, hlow, hused₁⟩ := @map2m_isSome source
    ⟨Radix.clear 0 (fun _ _ => 0) root, 1⟩ root ⟨0, ⟨0, rfl⟩⟩ physMapSize 0 2048 hfirst
    fun k hk => h k (by dsimp only at hk; omega)
  dsimp only at hused₁
  obtain ⟨st₂, hhigh, hused₂⟩ := @map2m_isSome source st₁ root hhdmOffset physMapSize 0 2048
    hfirst fun k hk => h k (by omega)
  have hsize : (Large.up (kernel.physBase - (Large.down kernel.physBase).1 +
      (kernel.mapEnd - kernel.mapStart))).1.toNat ≤ n * 2 ^ 21 := by
    rw [Large.down_of_dvd hbase, UInt64.sub_self, UInt64.zero_add]
    refine Nat.le_trans ?_ hn
    change (alignUp _ largePage).toNat ≤ _
    rw [alignUp, Align.toNat_up (k := 21) rfl]
    exact Nat.mod_le _ _
  obtain ⟨st₃, hkernel, -⟩ := @map2m_isSome source st₂ root (Large.down kernel.mapStart) _
    (Large.down kernel.physBase).1 n hsize fun k hk => h k (by omega)
  refine ⟨root, st₃, ?_⟩
  have hscreen : mapFramebuffer source root 0 0 st₃ = some st₃ := if_neg fun h => h.1 rfl
  rw [buildPageTables]
  refine bind_eq_some_iff.2 ⟨_, halloc, ?_⟩
  refine bind_eq_some_iff.2 ⟨st₁, hlow, ?_⟩
  refine bind_eq_some_iff.2 ⟨st₂, hhigh, ?_⟩
  refine bind_eq_some_iff.2 ⟨st₃, hkernel, ?_⟩
  exact bind_eq_some_iff.2 ⟨st₃, hscreen, rfl⟩

end Cleonos.Boot
