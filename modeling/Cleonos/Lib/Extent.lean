import Mathlib.Order.Interval.Finset.Nat
import Mathlib.Tactic.Common

/-!
# Extents of an address space

An extent is a half-open range of addresses.
-/

namespace Cleonos

open List

section

/-- The half-open range of addresses `lo ≤ x < hi`. -/
structure Extent where
  lo : ℕ
  hi : ℕ
  deriving DecidableEq, Repr

namespace Extent

open List

/-- One of the two ends before the other begins. -/
def Apart (x y : Extent) : Prop := x.hi ≤ y.lo ∨ y.hi ≤ x.lo

/-- The addresses of `x` are addresses of `y`. -/
def Within (x y : Extent) : Prop := y.lo ≤ x.lo ∧ x.hi ≤ y.hi

instance (x y : Extent) : Decidable (Apart x y) :=
  inferInstanceAs (Decidable (x.hi ≤ y.lo ∨ y.hi ≤ x.lo))

variable {x y z : Extent}

theorem Apart.symm (h : Apart x y) : Apart y x := Or.symm h

instance : Std.Symm Apart := ⟨fun _ _ h => h.symm⟩

theorem Apart.mono {x' y' : Extent} (h : Apart x y) (hx : Within x' x) (hy : Within y' y) :
    Apart x' y' := by
  unfold Apart Within at *
  omega

theorem Apart.join (hx : Apart x z) (hy : Apart y z) (htouch : x.hi = y.lo)
    (hz : z.lo < z.hi) : Apart ⟨x.lo, y.hi⟩ z := by
  unfold Apart at *
  simp only
  omega

theorem Within.refl (x : Extent) : Within x x := ⟨le_rfl, le_rfl⟩

theorem Within.trans (h : Within x y) (h' : Within y z) : Within x z := by
  unfold Within at *
  omega

theorem Within.eq_of_apart (hy : Within x y) (hz : Within x z)
    (hx : x.lo < x.hi) (h : y = z ∨ Apart y z) : y = z := by
  rcases h with h | h
  · exact h
  · unfold Within Apart at *
    omega

end Extent

/-! ## Families -/

/-- The extents of a family are pairwise apart; an index may have none. -/
def Extent.Separate {ι : Type*} (f : ι → Option Extent) : Prop :=
  ∀ i j x y, i ≠ j → f i = some x → f j = some y → x.Apart y

theorem Extent.separate_none {ι : Type*} : Extent.Separate fun _ : ι => none := by
  intro i j x y _ hx
  exact absurd hx (by simp)

theorem Extent.Separate.update {ι : Type*} [DecidableEq ι] {f : ι → Option Extent}
    (h : Separate f) {i : ι} {o : Option Extent}
    (ho : ∀ x, o = some x → ∀ j, j ≠ i → ∀ y, f j = some y → x.Apart y) :
    Separate (Function.update f i o) := by
  intro j k x y hjk hx hy
  by_cases hj : j = i
  · subst hj
    rw [Function.update_self] at hx
    rw [Function.update_of_ne (Ne.symm hjk)] at hy
    exact ho x hx k (Ne.symm hjk) y hy
  · rw [Function.update_of_ne hj] at hx
    by_cases hk : k = i
    · subst hk
      rw [Function.update_self] at hy
      exact (ho y hy j hj x hx).symm
    · rw [Function.update_of_ne hk] at hy
      exact h j k x y hjk hx hy

/-- Prepend an extent to the stretches so far, newest first; one that begins where
the newest stretch ends prolongs it. -/
def joinExtent (c : Extent) : List Extent → List Extent
  | [] => [c]
  | r :: rs => if r.hi = c.lo then ⟨r.lo, c.hi⟩ :: rs else c :: r :: rs

/-- The maximal stretches of a sequence of extents, newest first. -/
def joinExtents : List Extent → List Extent
  | [] => []
  | c :: cs => joinExtent c (joinExtents cs)

/-- An extent that is apart from every extent of a sequence is apart from every
stretch of it. -/
theorem apart_joinExtents {z : Extent} (hz : z.lo < z.hi) :
    ∀ {cs : List Extent}, (∀ c ∈ cs, c.Apart z) → ∀ r ∈ joinExtents cs, r.Apart z
  | [], _ => by simp [joinExtents]
  | c :: cs, h => by
      have hc : c.Apart z := h c (by simp)
      have ih : ∀ r ∈ joinExtents cs, r.Apart z :=
        apart_joinExtents hz fun d hd => h d (by simp [hd])
      intro r hr
      simp only [joinExtents] at hr
      revert hr ih
      cases joinExtents cs with
      | nil =>
        intro _ hr
        obtain rfl : r = c := by simpa [joinExtent] using hr
        exact hc
      | cons t ts =>
        intro ih hr
        simp only [joinExtent] at hr
        split at hr
        · rename_i htouch
          rcases mem_cons.1 hr with rfl | hr
          · exact Extent.Apart.join (ih t (by simp)) hc htouch hz
          · exact ih r (by simp [hr])
        · rcases mem_cons.1 hr with rfl | hr
          · exact hc
          · exact ih r hr

theorem head?_joinExtent (c : Extent) (rs : List Extent)
    (hrs : ∀ r ∈ rs, r.lo ≤ r.hi) :
    ∃ r, (joinExtent c rs).head? = some r ∧ c.Within r ∧ r.hi = c.hi := by
  cases rs with
  | nil => exact ⟨c, rfl, Extent.Within.refl c, rfl⟩
  | cons t ts =>
    by_cases h : t.hi = c.lo
    · refine ⟨⟨t.lo, c.hi⟩, by simp [joinExtent, h], ⟨?_, le_rfl⟩, rfl⟩
      exact h ▸ hrs t (by simp)
    · exact ⟨c, by simp [joinExtent, h], Extent.Within.refl c, rfl⟩

theorem exists_within_joinExtent {c r : Extent} {rs : List Extent} (hc : c.lo ≤ c.hi)
    (hr : r ∈ rs) : ∃ q ∈ joinExtent c rs, r.Within q := by
  cases rs with
  | nil => simp at hr
  | cons t ts =>
    by_cases h : t.hi = c.lo
    · simp only [joinExtent, if_pos h]
      rcases mem_cons.1 hr with rfl | hr
      · exact ⟨⟨r.lo, c.hi⟩, by simp, le_rfl, h.trans_le hc⟩
      · exact ⟨r, by simp [hr], Extent.Within.refl r⟩
    · simp only [joinExtent, if_neg h]
      exact ⟨r, mem_cons_of_mem _ hr, Extent.Within.refl r⟩

/-- An extent that begins where the newest stretch ends shares a stretch with it. -/
theorem joinExtent_of_touch {c r : Extent} {rs : List Extent} (hr : rs.head? = some r)
    (htouch : r.hi = c.lo) : ⟨r.lo, c.hi⟩ ∈ joinExtent c rs := by
  cases rs with
  | nil => simp at hr
  | cons t ts =>
    obtain rfl : t = r := by simpa using hr
    simp [joinExtent, htouch]

theorem forall_joinExtent {c : Extent} {rs : List Extent} {P : Extent → Prop} (hc : P c)
    (hrs : ∀ r ∈ rs, P r) (hjoin : ∀ r ∈ rs, r.hi = c.lo → P ⟨r.lo, c.hi⟩) :
    ∀ r ∈ joinExtent c rs, P r := by
  cases rs with
  | nil => simpa [joinExtent] using hc
  | cons t ts =>
    intro r hr
    by_cases h : t.hi = c.lo
    · simp only [joinExtent, if_pos h, mem_cons] at hr
      rcases hr with rfl | hr
      · exact hjoin t (by simp) h
      · exact hrs r (by simp [hr])
    · simp only [joinExtent, if_neg h, mem_cons] at hr
      rcases hr with rfl | hr
      · exact hc
      · exact hrs r (by simpa using hr)

/-- Stretches stay pairwise apart when the new extent is apart from all of them. -/
theorem pairwise_joinExtent {c : Extent} {rs : List Extent} (hrs : rs.Pairwise Extent.Apart)
    (hpos : ∀ r ∈ rs, r.lo < r.hi) (hc : ∀ r ∈ rs, r.Apart c) :
    (joinExtent c rs).Pairwise Extent.Apart := by
  cases rs with
  | nil => simp [joinExtent]
  | cons t ts =>
    rw [pairwise_cons] at hrs
    by_cases h : t.hi = c.lo
    · simp only [joinExtent, if_pos h, pairwise_cons]
      refine ⟨fun r hr => ?_, hrs.2⟩
      exact Extent.Apart.join (hrs.1 r hr) (hc r (by simp [hr])).symm h (hpos r (by simp [hr]))
    · simp only [joinExtent, if_neg h, pairwise_cons]
      exact ⟨fun r hr => (hc r (by simpa using hr)).symm, hrs⟩

theorem joinExtents_eq_self : ∀ {cs : List Extent},
    cs.IsChain (fun c d => d.hi ≠ c.lo) → joinExtents cs = cs
  | [], _ => rfl
  | [_], _ => rfl
  | c :: d :: cs, h => by
      rw [isChain_cons_cons] at h
      rw [joinExtents, joinExtents_eq_self h.2, joinExtent, if_neg h.1]

theorem length_lt_of_multiples {as : List ℕ} {n k : ℕ} (hk : 0 < k) (hn : 0 < n) (hnd : as.Nodup)
    (hdvd : ∀ a ∈ as, a % k = 0) (hpos : ∀ a ∈ as, a ≠ 0) (hlt : ∀ a ∈ as, a < n * k) :
    as.length < n := by
  have hdiv : ∀ a ∈ as, a / k ∈ Finset.Ico 1 n := by
    intro a ha
    have hka : k ≤ a := by
      have := Nat.div_add_mod a k
      have := hdvd a ha
      have := hpos a ha
      rcases Nat.eq_zero_or_pos (a / k) with h0 | h0
      · simp_all
      · calc k = k * 1 := (Nat.mul_one k).symm
          _ ≤ k * (a / k) := Nat.mul_le_mul_left k h0
          _ ≤ a := by omega
    exact Finset.mem_Ico.2 ⟨(Nat.one_le_div_iff hk).2 hka, (Nat.div_lt_iff_lt_mul hk).2 (hlt a ha)⟩
  have hinj : (as.map (· / k)).Nodup := by
    refine (nodup_map_iff_inj_on hnd).2 ?_
    intro a ha b hb hab
    have h1 := Nat.div_add_mod a k
    have h2 := Nat.div_add_mod b k
    change a / k = b / k at hab
    rw [hdvd a ha, hab] at h1
    rw [hdvd b hb] at h2
    omega
  have hsub : (as.map (· / k)).toFinset ⊆ Finset.Ico 1 n := by
    intro q hq
    obtain ⟨a, ha, rfl⟩ := mem_map.1 (mem_toFinset.1 hq)
    exact hdiv a ha
  have hcard := Finset.card_le_card hsub
  rw [toFinset_card_of_nodup hinj, length_map, Nat.card_Ico] at hcard
  omega

end

/-- The blocks at `as` lie one behind the other from `start` to `stop`. -/
def Tiles (span : ℕ → ℕ) (start stop : ℕ) : List ℕ → Prop
  | [] => start = stop
  | a :: as => a = start ∧ Tiles span (a + span a) stop as

namespace Tiles

open List

variable {span span' : ℕ → ℕ} {start stop a b c : ℕ} {as xs ys : List ℕ}

theorem nil_iff : Tiles span start stop [] ↔ start = stop := Iff.rfl

theorem cons_iff : Tiles span start stop (a :: as) ↔ a = start ∧ Tiles span (a + span a) stop as :=
  Iff.rfl

theorem append_iff : Tiles span start stop (xs ++ ys) ↔
    ∃ mid, Tiles span start mid xs ∧ Tiles span mid stop ys := by
  induction xs generalizing start with
  | nil => simp [nil_iff]
  | cons a xs ih =>
    simp only [cons_append, cons_iff, ih]
    constructor
    · rintro ⟨ha, mid, hxs, hys⟩
      exact ⟨mid, ⟨ha, hxs⟩, hys⟩
    · rintro ⟨mid, ⟨ha, hxs⟩, hys⟩
      exact ⟨ha, mid, hxs, hys⟩

section

variable (h : Tiles span start stop as)
include h

theorem congr (hspan : ∀ a ∈ as, span' a = span a) :
    Tiles span' start stop as := by
  induction as generalizing start with
  | nil => exact h
  | cons a as ih =>
    obtain ⟨ha, hrest⟩ := h
    refine ⟨ha, ?_⟩
    rw [hspan a mem_cons_self]
    exact ih hrest fun b hb => hspan b (mem_cons_of_mem a hb)

theorem start_le : start ≤ stop := by
  induction as generalizing start with
  | nil => exact Nat.le_of_eq h
  | cons a as ih =>
    obtain ⟨ha, hrest⟩ := h
    have := ih hrest
    omega

theorem bounds (ha : a ∈ as) : start ≤ a ∧ a + span a ≤ stop := by
  induction as generalizing start with
  | nil => exact absurd ha not_mem_nil
  | cons b as ih =>
    obtain ⟨hb, hrest⟩ := h
    rcases mem_cons.1 ha with rfl | ha
    · exact ⟨Nat.le_of_eq hb.symm, hrest.start_le⟩
    · have := ih hrest ha
      omega

theorem apart (ha : a ∈ as) (hb : b ∈ as) (hne : a ≠ b) :
    (Extent.mk a (a + span a)).Apart ⟨b, b + span b⟩ := by
  induction as generalizing start with
  | nil => exact absurd ha not_mem_nil
  | cons c as ih =>
    obtain ⟨-, hrest⟩ := h
    by_cases hac : a = c
    · have hb' := mem_of_ne_of_mem (fun hbc => hne (hac.trans hbc.symm)) hb
      rw [hac]
      exact .inl (hrest.bounds hb').1
    · have ha' := mem_of_ne_of_mem hac ha
      by_cases hbc : b = c
      · rw [hbc]
        exact .inr (hrest.bounds ha').1
      · exact ih hrest ha' (mem_of_ne_of_mem hbc hb)

/-- Addresses and lengths are multiples of what the start and all lengths are multiples of. -/
theorem dvd {d : ℕ} (hstart : d ∣ start)
    (hspan : ∀ a ∈ as, d ∣ span a) : ∀ a ∈ as, d ∣ a := by
  induction as generalizing start with
  | nil => exact fun a ha => absurd ha not_mem_nil
  | cons b as ih =>
    obtain ⟨rfl, hrest⟩ := h
    intro a ha
    rcases mem_cons.1 ha with rfl | ha
    · exact hstart
    · exact ih hrest (Nat.dvd_add hstart (hspan b mem_cons_self))
        (fun c hc => hspan c (mem_cons_of_mem b hc)) a ha

theorem length_mul_le {m : ℕ} (hspan : ∀ a ∈ as, m ≤ span a) :
    start + as.length * m ≤ stop := by
  induction as generalizing start with
  | nil =>
    rw [length_nil, Nat.zero_mul]
    exact Nat.le_of_eq h
  | cons a as ih =>
    obtain ⟨rfl, hrest⟩ := h
    have hrest := ih hrest fun b hb => hspan b (mem_cons_of_mem a hb)
    have ha := hspan a mem_cons_self
    rw [length_cons, Nat.succ_mul]
    omega

end

theorem split (h : Tiles span start stop (xs ++ a :: ys)) (hc : c = a + span' a)
    (hsum : span' a + span' c = span a) (hx : ∀ x ∈ xs, span' x = span x)
    (hy : ∀ y ∈ ys, span' y = span y) : Tiles span' start stop (xs ++ a :: c :: ys) := by
  obtain ⟨mid, hxs, ha, hys⟩ := append_iff.1 h
  refine append_iff.2 ⟨mid, hxs.congr hx, ha, hc, ?_⟩
  have hend : c + span' c = a + span a := by omega
  rw [hend]
  exact hys.congr hy

theorem join (h : Tiles span start stop (xs ++ a :: c :: ys)) (hsum : span' a = span a + span c)
    (hx : ∀ x ∈ xs, span' x = span x) (hy : ∀ y ∈ ys, span' y = span y) :
    Tiles span' start stop (xs ++ a :: ys) := by
  obtain ⟨mid, hxs, ha, hc, hys⟩ := append_iff.1 h
  refine append_iff.2 ⟨mid, hxs.congr hx, ha, ?_⟩
  have hend : a + span' a = c + span c := by omega
  rw [hend]
  exact hys.congr hy

theorem next_start (h : Tiles span start stop (xs ++ a :: c :: ys)) : c = a + span a := by
  obtain ⟨mid, -, -, hc, -⟩ := append_iff.1 h
  exact hc

end Tiles

end Cleonos

/-! ## Numbers cut to a power of two -/

namespace Cleonos.Align

/-- The largest multiple of `2 ^ k` that is at most `n`. -/
def cutDown (k n : ℕ) : ℕ := n / 2 ^ k * 2 ^ k

/-- The smallest multiple of `2 ^ k` that is at least `n`. -/
def cutUp (k n : ℕ) : ℕ := cutDown k (n + (2 ^ k - 1))

variable {k n m : ℕ}

theorem cutDown_le (k n : ℕ) : cutDown k n ≤ n := Nat.div_mul_le_self n (2 ^ k)

theorem lt_cutDown_add (k n : ℕ) : n < cutDown k n + 2 ^ k := by
  have h := Nat.lt_div_mul_add (a := n) (Nat.two_pow_pos k)
  exact h

theorem dvd_cutDown (k n : ℕ) : 2 ^ k ∣ cutDown k n := Nat.dvd_mul_left _ _

theorem cutDown_of_dvd (h : 2 ^ k ∣ n) : cutDown k n = n := Nat.div_mul_cancel h

theorem dvd_cutUp (k n : ℕ) : 2 ^ k ∣ cutUp k n := dvd_cutDown k _

theorem le_cutUp (k n : ℕ) : n ≤ cutUp k n := by
  have h := lt_cutDown_add k (n + (2 ^ k - 1))
  have hpos := Nat.two_pow_pos k
  rw [cutUp]
  omega

theorem cutUp_lt (k n : ℕ) : cutUp k n < n + 2 ^ k := by
  have h := cutDown_le k (n + (2 ^ k - 1))
  have hpos := Nat.two_pow_pos k
  rw [cutUp]
  omega

theorem cutDown_mod (hk : k ≤ n) (x : ℕ) : cutDown k (x % 2 ^ n) = cutDown k x % 2 ^ n := by
  have hpow : 2 ^ n = 2 ^ k * 2 ^ (n - k) := by rw [← Nat.pow_add, Nat.add_sub_cancel' hk]
  rw [cutDown, cutDown, hpow, Nat.mod_mul_right_div_self, Nat.mul_comm (2 ^ k) (2 ^ (n - k)),
    Nat.mul_mod_mul_right]

theorem and_two_pow_sub {v : ℕ} (hv : v < 2 ^ n) (hk : k ≤ n) :
    v &&& (2 ^ n - 2 ^ k) = cutDown k v := by
  have hmask : 2 ^ n - 2 ^ k = (2 ^ (n - k) - 1) * 2 ^ k := by
    rw [Nat.sub_mul, ← Nat.pow_add, Nat.sub_add_cancel hk, Nat.one_mul]
  apply Nat.eq_of_testBit_eq
  intro i
  rw [cutDown, Nat.testBit_and, hmask, Nat.testBit_mul_two_pow, Nat.testBit_mul_two_pow,
    Nat.testBit_two_pow_sub_one, Nat.testBit_div_two_pow]
  by_cases hi : k ≤ i
  · rw [Nat.sub_add_cancel hi]
    by_cases hn : i < n
    · have hin : i - k < n - k := by omega
      simp [hi, hin]
    · have hbit : v.testBit i = false := by
        apply Nat.testBit_lt_two_pow
        exact Nat.lt_of_lt_of_le hv (Nat.pow_le_pow_right (by decide) (by omega))
      simp [hi, hbit]
  · simp [hi]

variable {v a : UInt64}

theorem toNat_and_not {m : UInt64} (hm : m.toNat + 1 = 2 ^ k) :
    (v &&& ~~~m).toNat = cutDown k v.toNat := by
  have hk : k ≤ 64 := by
    have hlt := m.toNat_lt
    by_contra h
    have hbig : 2 ^ 65 ≤ 2 ^ k := Nat.pow_le_pow_right (by decide) (by omega)
    omega
  have hnot : (~~~m).toNat = 2 ^ 64 - 2 ^ k := by
    rw [← UInt64.toNat_toBitVec, UInt64.toBitVec_not, BitVec.toNat_not, UInt64.toNat_toBitVec]
    omega
  rw [UInt64.toNat_and, hnot]
  exact and_two_pow_sub v.toNat_lt hk

theorem toNat_sub_one (ha : a.toNat = 2 ^ k) : (a - 1).toNat + 1 = 2 ^ k := by
  have hpos := Nat.two_pow_pos k
  have hone : (1 : UInt64) ≤ a := UInt64.le_iff_toNat_le.2 (by rw [ha]; exact hpos)
  rw [UInt64.toNat_sub_of_le _ _ hone, ha]
  exact Nat.sub_add_cancel hpos

theorem toNat_down (ha : a.toNat = 2 ^ k) : (v &&& ~~~(a - 1)).toNat = cutDown k v.toNat :=
  toNat_and_not (toNat_sub_one ha)

theorem toNat_up (ha : a.toNat = 2 ^ k) :
    ((v + a - 1) &&& ~~~(a - 1)).toNat = cutUp k v.toNat % 2 ^ 64 := by
  have hpos := Nat.two_pow_pos k
  have hlt := a.toNat_lt
  have hk : k ≤ 64 := by
    by_contra h
    have hbig : 2 ^ 65 ≤ 2 ^ k := Nat.pow_le_pow_right (by decide) (by omega)
    omega
  have hsum : (v + a - 1).toNat = (v.toNat + (2 ^ k - 1)) % 2 ^ 64 := by
    rw [UInt64.toNat_sub, UInt64.toNat_add, ha, UInt64.toNat_one]
    omega
  rw [toNat_down ha, hsum, cutUp]
  exact cutDown_mod hk _

end Cleonos.Align
