import Cleonos.Doom.Heap

/-!
# The calls of the game's heap

A walk over the list ends, a block can be cut in two or take in the one behind it, and from that
come the three calls: each keeps the list in order and the blocks that others use.
-/

namespace Cleonos.Doom

open List
open Heap (sizeMod heapAlign alignUp alignUp_eq alignUp_mod le_alignUp listFuel)

variable {arena : Arena} {s s' : DgHeap} {as as' as'' xs ys : List ℕ} {a b c n p : ℕ}

/-! ## Members of the list -/

namespace ArenaInv

open List

section

variable (h : ArenaInv arena s as)
include h

section

variable (ha : a ∈ as)
include ha

theorem ne_zero : a ≠ 0 := h.list.ne_null a ha

theorem bounds :
    arena.base ≤ a ∧ a + spanOf s a ≤ arena.base + heapSize :=
  h.tiles.bounds ha

theorem hi_lt : a + 32 + (s.hdrs a).size < sizeMod := by
  have := h.bounds ha
  have := arena.lt
  simp only [spanOf] at *
  omega

theorem addr_mod : a % 16 = 0 := by
  refine Nat.mod_eq_zero_of_dvd (h.tiles.dvd (Nat.dvd_of_mod_eq_zero arena.aligned) ?_ a ha)
  intro b hb
  have := h.size_mod b hb
  exact Nat.dvd_of_mod_eq_zero (by simp only [spanOf]; omega)

theorem payload_eq :
    (a + headerSize) % sizeMod = a + 32 := by
  have := h.hi_lt ha
  exact Nat.mod_eq_of_lt (by simp only [headerSize]; omega)

theorem headerOf_eq : headerOf (a + 32) = a := by
  have := h.hi_lt ha
  have hsum : a + 32 + (sizeMod - headerSize) = a + sizeMod := by
    simp only [headerSize, sizeMod]
    omega
  rw [headerOf, hsum, Nat.add_mod_right, Nat.mod_eq_of_lt (by omega)]

end

theorem length_lt : as.length < listFuel := by
  have := h.tiles.length_mul_le (m := 32) fun a _ => by simp only [spanOf]; omega
  simp only [heapSize, listFuel] at *
  omega

end

theorem exists_next (h : ArenaInv arena s (xs ++ a :: ys)) (hn : nextOf s a ≠ 0) :
    ∃ zs, ys = nextOf s a :: zs := by
  have hnext := h.list.linked.next_eq
  cases ys with
  | nil => exact absurd hnext hn
  | cons y ys => exact ⟨ys, by rw [hnext]; rfl⟩

theorem exists_prev (h : ArenaInv arena s (xs ++ a :: ys)) (hp : prevOf s a ≠ 0) :
    ∃ zs, xs = zs ++ [prevOf s a] := by
  have hprev := h.list.linked.prev_eq
  rcases eq_nil_or_concat xs with rfl | ⟨zs, z, rfl⟩
  · exact absurd hprev hp
  · refine ⟨zs, ?_⟩
    rw [hprev, concat_eq_append]
    simp

end ArenaInv

theorem findFit_linked {aligned q fuel : ℕ} (hl : Linked (nextOf s) (prevOf s) q as 0)
    (h0 : ∀ a ∈ as, a ≠ 0) (hfuel : as.length < fuel) :
    (∃ a ∈ as, findFit s aligned fuel (as.headD 0) = some a ∧ (s.hdrs a).free = true ∧
        aligned ≤ (s.hdrs a).size) ∨
      findFit s aligned fuel (as.headD 0) = some 0 ∧
        ∀ a ∈ as, (s.hdrs a).free = true → (s.hdrs a).size < aligned := by
  induction as generalizing q fuel with
  | nil =>
    obtain ⟨fuel, rfl⟩ : ∃ k, fuel = k + 1 := ⟨fuel - 1, by simp at hfuel; omega⟩
    exact .inr ⟨by simp [findFit], by simp⟩
  | cons a as ih =>
    obtain ⟨fuel, rfl⟩ : ∃ k, fuel = k + 1 := ⟨fuel - 1, by simp at hfuel; omega⟩
    have ha0 : a ≠ 0 := h0 a mem_cons_self
    obtain ⟨-, hnext, hrest⟩ := hl
    rw [headD_cons, findFit, if_neg ha0]
    by_cases hfit : (s.hdrs a).free = true ∧ (s.hdrs a).size ≥ aligned
    · exact .inl ⟨a, mem_cons_self, if_pos hfit, hfit.1, hfit.2⟩
    · rw [if_neg hfit]
      change nextOf s a = _ at hnext
      rw [show (s.hdrs a).next = as.headD 0 from hnext]
      rcases ih hrest (fun b hb => h0 b (mem_cons_of_mem a hb)) (by simpa using hfuel) with
        ⟨b, hb, hfind, hfree, hsize⟩ | ⟨hfind, hnone⟩
      · exact .inl ⟨b, mem_cons_of_mem a hb, hfind, hfree, hsize⟩
      · refine .inr ⟨hfind, fun b hb hfree => ?_⟩
        rcases mem_cons.1 hb with rfl | hb
        · exact Nat.lt_of_not_le fun hle => hfit ⟨hfree, hle⟩
        · exact hnone b hb hfree

theorem ArenaInv.findFit_spec (h : ArenaInv arena s as) (aligned : ℕ) :
    (∃ a ∈ as, findFit s aligned listFuel s.head = some a ∧ (s.hdrs a).free = true ∧
        aligned ≤ (s.hdrs a).size) ∨
      findFit s aligned listFuel s.head = some 0 ∧
        ∀ a ∈ as, (s.hdrs a).free = true → (s.hdrs a).size < aligned := by
  rw [h.list.head_eq]
  exact findFit_linked h.list.linked (fun a ha => h.ne_zero ha) h.length_lt

variable {aligned x : ℕ}

@[simp] theorem hdrs_setHdr_self (s : DgHeap) (a : ℕ) (h : DgAllocHdr) :
    (s.setHdr a h).hdrs a = h := by simp [DgHeap.setHdr]
@[simp] theorem hdrs_setHdr_of_ne (s : DgHeap) {a : ℕ} (h : DgAllocHdr) (hx : x ≠ a) :
    (s.setHdr a h).hdrs x = s.hdrs x := by simp [DgHeap.setHdr, hx]

@[simp] theorem size_setFree (s : DgHeap) (a : ℕ) (f : Bool) (x : ℕ) :
    ((setFree s a f).hdrs x).size = (s.hdrs x).size := by
  by_cases hx : x = a
  · subst hx; simp [setFree]
  · simp [setFree, hx]

@[simp] theorem next_setFree (s : DgHeap) (a : ℕ) (f : Bool) (x : ℕ) :
    ((setFree s a f).hdrs x).next = (s.hdrs x).next := by
  by_cases hx : x = a
  · subst hx; simp [setFree]
  · simp [setFree, hx]

@[simp] theorem prev_setFree (s : DgHeap) (a : ℕ) (f : Bool) (x : ℕ) :
    ((setFree s a f).hdrs x).prev = (s.hdrs x).prev := by
  by_cases hx : x = a
  · subst hx; simp [setFree]
  · simp [setFree, hx]

@[simp] theorem free_setFree_self (s : DgHeap) (a : ℕ) (f : Bool) :
    ((setFree s a f).hdrs a).free = f := by simp [setFree]
@[simp] theorem free_setFree_of_ne (s : DgHeap) {a : ℕ} (f : Bool) (hx : x ≠ a) :
    ((setFree s a f).hdrs x).free = (s.hdrs x).free := by simp [setFree, hx]

theorem ArenaInv.setFree (h : ArenaInv arena s as) (a : ℕ) (f : Bool) :
    ArenaInv arena (Doom.setFree s a f) as := by
  refine ⟨?_, ?_, ?_, h.ready⟩
  · exact h.list.congr (fun x _ => by simp) (fun x _ => by simp)
  · exact h.tiles.congr fun x _ => by simp
  · simpa using h.size_mod

theorem ArenaInv.withBytes (h : ArenaInv arena s as) (f : ℕ → UInt8) :
    ArenaInv arena { s with bytes := f } as :=
  ⟨h.list, h.tiles, h.size_mod, h.ready⟩

theorem ensureReady_spec (hready : s.ready = false) : ArenaInv arena (ensureReady arena s) [arena.base] := by
  have hs : ensureReady arena s =
      { s.setHdr arena.base ⟨heapSize - headerSize, true, 0, 0⟩ with
        ready := true, head := arena.base } := by
    rw [ensureReady, hready]
    rfl
  rw [hs]
  refine ⟨⟨?_, rfl, rfl, nodup_singleton _, ?_⟩, ?_, ?_, rfl⟩
  · simp [Linked, nextOf, prevOf, DgHeap.setHdr]
  · simpa using arena.ne_zero
  · refine ⟨rfl, ?_⟩
    simp [Tiles, spanOf, DgHeap.setHdr, heapSize, headerSize]
  · simp [DgHeap.setHdr, heapSize, headerSize]

theorem carve_fields (ha : a ≠ 0) (hroom : aligned + 48 < (s.hdrs a).size)
    (hlt : a + 32 + (s.hdrs a).size < sizeMod) (hc : c = a + 32 + aligned) (hna : nextOf s a ≠ a)
    (hnc : nextOf s a ≠ c) :
    (carve s a aligned).head = s.head ∧ (carve s a aligned).ready = s.ready ∧
      (carve s a aligned).bytes = s.bytes ∧ (∀ x, ((carve s a aligned).hdrs x).size =
      if x = a then aligned else if x = c then (s.hdrs a).size - aligned - 32
      else (s.hdrs x).size) ∧
    (∀ x, ((carve s a aligned).hdrs x).free = if x = c then true else (s.hdrs x).free) ∧
    (∀ x, nextOf (carve s a aligned) x =
      if x = a then c else if x = c then nextOf s a else nextOf s x) ∧
    (∀ x, prevOf (carve s a aligned) x =
      if x = c then a else if x = nextOf s a ∧ nextOf s a ≠ 0 then c else prevOf s x) := by
  have hcv : (a + headerSize + aligned) % sizeMod = c := by
    rw [hc, headerSize, Nat.mod_eq_of_lt (by omega)]
  have hca : c ≠ a := by omega
  have hac : a ≠ c := Ne.symm hca
  have hguard : (s.hdrs a).size - aligned > headerSize + 16 := by
    rw [headerSize]
    omega
  generalize hcarve : carve s a aligned = s'
  simp only [carve, if_pos hguard, hcv] at hcarve
  by_cases hn : nextOf s a = 0
  · simp only [nextOf] at hn
    simp only [hn, ne_eq, not_true_eq_false, if_false] at hcarve
    subst hcarve
    refine ⟨rfl, rfl, rfl, ?_, ?_, ?_, ?_⟩
    all_goals
      intro x
      by_cases hxa : x = a
      · simp_all [nextOf, prevOf, headerSize]
      · by_cases hxc : x = c <;> simp_all [nextOf, prevOf, headerSize]
  · simp only [nextOf] at hn
    simp only [hn, ne_eq, not_false_eq_true, if_true] at hcarve
    subst hcarve
    refine ⟨rfl, rfl, rfl, ?_, ?_, ?_, ?_⟩
    all_goals
      intro x
      by_cases hxa : x = a
      · simp_all [nextOf, prevOf, headerSize, Ne.symm hna]
      · by_cases hxc : x = c <;> by_cases hxn : x = (s.hdrs a).next <;>
          simp_all [nextOf, prevOf, headerSize]

theorem absorb_fields (hlt : (s.hdrs a).size + 32 + (s.hdrs b).size < sizeMod)
    (hna : nextOf s b ≠ a) :
    (absorb s a b).head = s.head ∧ (absorb s a b).ready = s.ready ∧
      (absorb s a b).bytes = s.bytes ∧
    (∀ x, ((absorb s a b).hdrs x).size =
      if x = a then (s.hdrs a).size + 32 + (s.hdrs b).size else (s.hdrs x).size) ∧
    (∀ x, ((absorb s a b).hdrs x).free = (s.hdrs x).free) ∧
    (∀ x, nextOf (absorb s a b) x = if x = a then nextOf s b else nextOf s x) ∧
    (∀ x, prevOf (absorb s a b) x =
      if x = nextOf s b ∧ nextOf s b ≠ 0 then a else prevOf s x) := by
  have hsum : ((s.hdrs a).size + (headerSize + (s.hdrs b).size)) % sizeMod =
      (s.hdrs a).size + 32 + (s.hdrs b).size := by
    rw [headerSize, Nat.mod_eq_of_lt (by omega)]
    omega
  generalize habsorb : absorb s a b = s'
  simp only [absorb, hsum] at habsorb
  by_cases hn : nextOf s b = 0
  · simp only [nextOf] at hn
    simp only [hn, ne_eq, not_true_eq_false, if_false] at habsorb
    subst habsorb
    refine ⟨rfl, rfl, rfl, ?_, ?_, ?_, ?_⟩
    all_goals
      intro x
      by_cases hxa : x = a <;> simp_all [nextOf, prevOf]
  · simp only [nextOf] at hn
    simp only [hn, ne_eq, not_false_eq_true, if_true] at habsorb
    subst habsorb
    refine ⟨rfl, rfl, rfl, ?_, ?_, ?_, ?_⟩
    all_goals
      intro x
      by_cases hxa : x = a
      · simp_all [nextOf, prevOf, Ne.symm hna]
      · by_cases hxn : x = (s.hdrs b).next <;> simp_all [nextOf, prevOf]

theorem ArenaInv.nextOf_ne (h : ArenaInv arena s (xs ++ a :: ys)) : nextOf s a ≠ a := by
  intro hn
  have ha : a ∈ xs ++ a :: ys := by simp
  have hmem := h.list.next_mem (hn.symm ▸ h.ne_zero ha)
  have hnd := h.list.nodup
  rw [nodup_append, nodup_cons] at hnd
  exact hnd.2.1.1 (hn ▸ hmem)

theorem ArenaInv.carve (h : ArenaInv arena s (xs ++ a :: ys))
    (haligned : aligned % 16 = 0) (hroom : aligned + 48 < (s.hdrs a).size)
    (hc : c = a + 32 + aligned) :
    ArenaInv arena (Doom.carve s a aligned) (xs ++ a :: c :: ys) ∧ c ∉ xs ++ a :: ys := by
  have ha : a ∈ xs ++ a :: ys := by simp
  have hhi := h.hi_lt ha
  have hcm : c ∉ xs ++ a :: ys := by
    intro hm
    have hap := h.tiles.apart ha hm (by omega)
    simp only [Extent.Apart, spanOf] at hap
    omega
  have hc0 : c ≠ 0 := by omega
  have hnc : nextOf s a ≠ c := by
    intro hn
    have hmem := h.list.next_mem (hn ▸ hc0)
    exact hcm (hn ▸ by simp [hmem])
  obtain ⟨hhead, hready, -, hsize, -, hnexts, hprevs⟩ :=
    carve_fields (h.ne_zero ha) hroom hhi hc h.nextOf_ne hnc
  have hnd := h.list.nodup
  rw [nodup_append, nodup_cons] at hnd
  have hx : ∀ x ∈ xs, x ≠ a ∧ x ≠ c :=
    fun x hx => ⟨hnd.2.2 x hx a mem_cons_self, fun he => hcm (he ▸ by simp [hx])⟩
  have hy : ∀ y ∈ ys, y ≠ a ∧ y ≠ c :=
    fun y hy => ⟨fun he => hnd.2.1.1 (he ▸ hy), fun he => hcm (he ▸ by simp [hy])⟩
  have hsame : ∀ x, x ≠ a ∧ x ≠ c → ((Doom.carve s a aligned).hdrs x).size = (s.hdrs x).size :=
    fun x hx => by rw [hsize, if_neg hx.1, if_neg hx.2]
  have hca : c ≠ a := by omega
  refine ⟨⟨?_, ?_, ?_, hready.trans h.ready⟩, hcm⟩
  · rw [hhead]
    refine h.list.insert_after hcm hc0 hnexts hprevs ?_
    have htail := h.list.next_eq_null_iff
    cases ys with
    | nil =>
      rw [if_pos (htail.2 (by simp))]
      simp
    | cons y ys =>
      have hnext : nextOf s a ≠ 0 := by
        rw [h.list.linked.next_eq]
        exact h.ne_zero (by simp)
      rw [if_neg hnext]
      simp
  · refine h.tiles.split (by rw [spanOf, hsize, if_pos rfl]; omega) ?_ ?_ ?_
    · simp only [spanOf, hsize, if_true, if_neg hca]
      omega
    · exact fun x hmem => by rw [spanOf, hsame x (hx x hmem)]
    · exact fun y hmem => by rw [spanOf, hsame y (hy y hmem)]
  · intro x hmem
    rw [hsize]
    have hsa := h.size_mod a ha
    split
    · exact haligned
    · rename_i hxa
      split
      · omega
      · rename_i hxc
        apply h.size_mod
        simp only [mem_append, mem_cons] at hmem ⊢
        tauto

theorem ArenaInv.absorb (h : ArenaInv arena s (xs ++ a :: b :: ys)) :
    ArenaInv arena (Doom.absorb s a b) (xs ++ a :: ys) ∧
      (Doom.absorb s a b).bytes = s.bytes ∧
      (∀ x, ((Doom.absorb s a b).hdrs x).size =
        if x = a then (s.hdrs a).size + 32 + (s.hdrs b).size else (s.hdrs x).size) ∧
      ∀ x, ((Doom.absorb s a b).hdrs x).free = (s.hdrs x).free := by
  have ha : a ∈ xs ++ a :: b :: ys := by simp
  have hb : b ∈ xs ++ a :: b :: ys := by simp
  have hba := h.tiles.next_start
  have hhi := h.hi_lt hb
  have hlt : (s.hdrs a).size + 32 + (s.hdrs b).size < sizeMod := by
    simp only [spanOf] at hba
    omega
  have h' : ArenaInv arena s ((xs ++ [a]) ++ b :: ys) := by simpa using h
  have hnd := h.list.nodup
  rw [nodup_append, nodup_cons, nodup_cons] at hnd
  have hna : nextOf s b ≠ a := by
    intro hn
    have hmem := h'.list.next_mem (hn ▸ h.ne_zero ha)
    exact hnd.2.1.1 (hn ▸ mem_cons_of_mem b hmem)
  obtain ⟨hhead, hready, hbytes, hsize, hfree, hnexts, hprevs⟩ := absorb_fields hlt hna
  have hx : ∀ x ∈ xs, x ≠ a := fun x hx => hnd.2.2 x hx a mem_cons_self
  have hy : ∀ y ∈ ys, y ≠ a := fun y hy he => hnd.2.1.1 (he ▸ mem_cons_of_mem b hy)
  refine ⟨⟨?_, ?_, ?_, hready.trans h.ready⟩, hbytes, hsize, hfree⟩
  · rw [hhead]
    refine h.list.remove_after hnexts hprevs ?_
    have htail := h'.list.next_eq_null_iff
    cases ys with
    | nil =>
      rw [if_pos (htail.2 (by simp))]
      simp
    | cons y ys =>
      have hnext : nextOf s b ≠ 0 := by
        rw [h'.list.linked.next_eq]
        exact h.ne_zero (by simp)
      rw [if_neg hnext]
      simp
  · refine h.tiles.join ?_ ?_ ?_
    · simp only [spanOf, hsize, if_true]
      omega
    · exact fun x hmem => by rw [spanOf, hsize, if_neg (hx x hmem)]
    · exact fun y hmem => by rw [spanOf, hsize, if_neg (hy y hmem)]
  · intro x hmem
    rw [hsize]
    have hsa := h.size_mod a ha
    have hsb := h.size_mod b hb
    split
    · omega
    · apply h.size_mod
      simp only [mem_append, mem_cons] at hmem ⊢
      tauto

/-! ## The interface -/

/-- Blocks in use but `a` stay in use, with their sizes. -/
def KeepsBut (a : ℕ) (s : DgHeap) (as : List ℕ) (s' : DgHeap) (as' : List ℕ) : Prop :=
  ∀ b ∈ as, b ≠ a → (s.hdrs b).free = false →
    b ∈ as' ∧ (s'.hdrs b).free = false ∧ (s'.hdrs b).size = (s.hdrs b).size

/-- All blocks in use stay in use, with their sizes. -/
def Keeps (s : DgHeap) (as : List ℕ) (s' : DgHeap) (as' : List ℕ) : Prop :=
  ∀ b ∈ as, (s.hdrs b).free = false →
    b ∈ as' ∧ (s'.hdrs b).free = false ∧ (s'.hdrs b).size = (s.hdrs b).size

theorem Keeps.but (h : Keeps s as s' as') (a : ℕ) : KeepsBut a s as s' as' :=
  fun b hb _ hu => h b hb hu

theorem Keeps.trans_but {s'' : DgHeap} (h : Keeps s as s' as') (h' : KeepsBut a s' as' s'' as'') :
    KeepsBut a s as s'' as'' := by
  intro b hb hne hu
  obtain ⟨hb', hu', hs'⟩ := h b hb hu
  obtain ⟨hb'', hu'', hs''⟩ := h' b hb' hne hu'
  exact ⟨hb'', hu'', hs''.trans hs'⟩

theorem ArenaInv.take_spec (h : ArenaInv arena s as) (ha : a ∈ as)
    (haligned : aligned % 16 = 0) (hfree : (s.hdrs a).free = true)
    (hfit : aligned ≤ (s.hdrs a).size) :
    ∃ as', ArenaInv arena (Doom.setFree (Doom.carve s a aligned) a false) as' ∧
      Keeps s as (Doom.setFree (Doom.carve s a aligned) a false) as' ∧
      (Doom.carve s a aligned).bytes = s.bytes ∧ a ∈ as' ∧
      aligned ≤ ((Doom.carve s a aligned).hdrs a).size := by
  by_cases hroom : aligned + 48 < (s.hdrs a).size
  · obtain ⟨xs, ys, rfl⟩ := append_of_mem ha
    obtain ⟨hinv, hc⟩ := h.carve haligned hroom rfl
    obtain ⟨-, -, hbytes, hsize, hfrees, -, -⟩ :=
      carve_fields (h.ne_zero ha) hroom (h.hi_lt ha) rfl h.nextOf_ne (fun hn => hc (by
        have hmem := h.list.next_mem (hn ▸ by omega)
        exact hn ▸ by simp [hmem]))
    refine ⟨_, hinv.setFree a false, ?_, hbytes, by simp, by rw [hsize, if_pos rfl]⟩
    intro b hb hu
    have hba : b ≠ a := fun he => by rw [he, hfree] at hu; exact absurd hu (by simp)
    have hbc : b ≠ a + 32 + aligned := fun he => hc (he ▸ hb)
    refine ⟨?_, ?_, ?_⟩
    · simp only [mem_append, mem_cons] at hb ⊢
      tauto
    · rw [free_setFree_of_ne _ _ hba, hfrees, if_neg hbc, hu]
    · rw [size_setFree, hsize, if_neg hba, if_neg hbc]
  · have hsame : Doom.carve s a aligned = s := by
      rw [Doom.carve]
      exact if_neg (by rw [headerSize]; omega)
    rw [hsame]
    refine ⟨as, h.setFree a false, ?_, rfl, ha, hfit⟩
    intro b hb hu
    have hba : b ≠ a := fun he => by rw [he, hfree] at hu; exact absurd hu (by simp)
    exact ⟨hb, by rw [free_setFree_of_ne _ _ hba, hu], by rw [size_setFree]⟩

/-- The list of the allocator: none before the first call. -/
def HeapInv (arena : Arena) (s : DgHeap) (as : List ℕ) : Prop :=
  ArenaInv arena s as ∨ s.ready = false ∧ as = []

theorem HeapInv.ensureReady (h : HeapInv arena s as) :
    ∃ as', ArenaInv arena (Doom.ensureReady arena s) as' ∧
      Keeps s as (Doom.ensureReady arena s) as' ∧
      (Doom.ensureReady arena s).bytes = s.bytes ∧
      ∀ a ∈ as, ((Doom.ensureReady arena s).hdrs a).free = (s.hdrs a).free := by
  rcases h with h | ⟨hready, rfl⟩
  · have hsame : Doom.ensureReady arena s = s := by rw [Doom.ensureReady, if_pos h.ready]
    rw [hsame]
    exact ⟨as, h, fun b hb hu => ⟨hb, hu, rfl⟩, rfl, fun _ _ => rfl⟩
  · refine ⟨_, ensureReady_spec hready, fun b hb => absurd hb not_mem_nil, ?_,
      fun b hb => absurd hb not_mem_nil⟩
    rw [Doom.ensureReady, hready]
    rfl

def Full (s : DgHeap) : Prop := s.ready = true ∧ findFit s 0 listFuel s.head = some 0

/-- The request is rounded up within `size_t`, or there is no block that it could take. -/
def Fits (s : DgHeap) (n : ℕ) : Prop := n ≤ sizeMod - 16 ∨ Full s

/-- A returned pointer is the payload of a block in use that is large enough, and that was not in
use before. -/
def Grants (s : DgHeap) (as : List ℕ) (s' : DgHeap) (as' : List ℕ) (p n : ℕ) : Prop :=
  ∃ a ∈ as', p = a + 32 ∧ (s'.hdrs a).free = false ∧ n ≤ (s'.hdrs a).size ∧
    (a ∈ as → (s.hdrs a).free = true)

theorem HeapInv.malloc_spec (h : HeapInv arena s as) (hfits : Fits s n) :
    ∃ p s' as', malloc arena s n = some (p, s') ∧ ArenaInv arena s' as' ∧ Keeps s as s' as' ∧
      s'.bytes = s.bytes ∧ (p ≠ 0 → Grants s as s' as' p n) := by
  obtain ⟨as₁, hinv, hkeep, hbytes, hfrees⟩ := h.ensureReady
  generalize haligned : alignUp (if n = 0 then 1 else n) heapAlign = aligned
  have hmod : aligned % 16 = 0 := haligned ▸ alignUp_mod _
  rcases hinv.findFit_spec aligned with ⟨a, ha, hfind, hfree, hsize⟩ | ⟨hfind, -⟩
  · obtain ⟨as', hinv', hkeep', hbytes', ha', hfit⟩ := hinv.take_spec ha hmod hfree hsize
    refine ⟨a + 32, _, as', ?_, hinv', ?_, ?_, fun _ => ⟨a, ha', rfl, by simp, ?_, ?_⟩⟩
    · rw [malloc, haligned, hfind, Option.map_some, if_neg (hinv.ne_zero ha), hinv.payload_eq ha]
    · intro b hb hu
      obtain ⟨hb₁, hu₁, hs₁⟩ := hkeep b hb hu
      obtain ⟨hb', hu', hs'⟩ := hkeep' b hb₁ hu₁
      exact ⟨hb', hu', hs'.trans hs₁⟩
    · exact hbytes'.trans hbytes
    · rw [size_setFree]
      rcases hfits with hle | ⟨hready, hfull⟩
      · have hround := @le_alignUp (if n = 0 then 1 else n) (by
          split
          · simp only [sizeMod]; omega
          · exact hle)
        rw [haligned] at hround
        split at hround <;> omega
      · -- a heap without a free block grants nothing
        have hsame : Doom.ensureReady arena s = s := by rw [Doom.ensureReady, if_pos hready]
        rw [hsame] at hinv hfree
        rcases hinv.findFit_spec 0 with ⟨b, hb, hfind', -, -⟩ | ⟨-, hnone⟩
        · rw [hfull, Option.some.injEq] at hfind'
          exact absurd hfind'.symm (hinv.ne_zero hb)
        · exact absurd (hnone a ha hfree) (Nat.not_lt_zero _)
    · intro has
      rw [← hfrees a has]
      exact hfree
  · refine ⟨0, _, as₁, ?_, hinv, hkeep, hbytes, fun h0 => absurd rfl h0⟩
    rw [malloc, haligned, hfind]
    rfl

theorem ArenaInv.free_spec (h : ArenaInv arena s as) (ha : a ∈ as) :
    ∃ as', ArenaInv arena (free s (a + 32)) as' ∧ KeepsBut a s as (free s (a + 32)) as' ∧
      (free s (a + 32)).bytes = s.bytes := by
  have hmark := h.setFree a true
  have hkeep : KeepsBut a s as (Doom.setFree s a true) as :=
    fun b hb hne hu => ⟨hb, by rw [free_setFree_of_ne _ _ hne, hu], by rw [size_setFree]⟩
  rw [Doom.free, if_neg (by omega), h.headerOf_eq ha]
  dsimp only
  have hself : ((Doom.setFree s a true).hdrs a).free = true := by simp
  have hbytes : (Doom.setFree s a true).bytes = s.bytes := rfl
  generalize Doom.setFree s a true = s₁ at hmark hkeep hself hbytes ⊢
  -- the block behind it
  have hnext : ∃ as₂, ArenaInv arena
      (if (s₁.hdrs a).next ≠ 0 ∧ (s₁.hdrs (s₁.hdrs a).next).free = true then
        Doom.absorb s₁ a (s₁.hdrs a).next else s₁) as₂ ∧ a ∈ as₂ ∧
      KeepsBut a s as (if (s₁.hdrs a).next ≠ 0 ∧ (s₁.hdrs (s₁.hdrs a).next).free = true then
        Doom.absorb s₁ a (s₁.hdrs a).next else s₁) as₂ ∧
      (if (s₁.hdrs a).next ≠ 0 ∧ (s₁.hdrs (s₁.hdrs a).next).free = true then
        Doom.absorb s₁ a (s₁.hdrs a).next else s₁).bytes = s.bytes := by
    split
    · rename_i hmerge
      obtain ⟨xs, ys, rfl⟩ := append_of_mem ha
      obtain ⟨zs, hzs⟩ := hmark.exists_next hmerge.1
      rw [hzs] at hmark
      obtain ⟨hinv, hb, hsize, hfree⟩ := hmark.absorb
      refine ⟨_, hinv, by simp, ?_, hb.trans hbytes⟩
      intro b hmem hne hu
      obtain ⟨hmem', hu', hs'⟩ := hkeep b hmem hne hu
      refine ⟨?_, by rw [hfree, hu'], by rw [hsize, if_neg hne, hs']⟩
      have hbn : b ≠ (s₁.hdrs a).next := by
        rintro rfl
        rw [hu'] at hmerge
        exact absurd hmerge.2 (by simp)
      rw [hzs] at hmem'
      simp only [mem_append, mem_cons] at hmem' ⊢
      tauto
    · exact ⟨as, hmark, ha, hkeep, hbytes⟩
  obtain ⟨as₂, hinv₂, ha₂, hkeep₂, hbytes₂⟩ := hnext
  generalize (if (s₁.hdrs a).next ≠ 0 ∧ (s₁.hdrs (s₁.hdrs a).next).free = true then
    Doom.absorb s₁ a (s₁.hdrs a).next else s₁) = s₂ at hinv₂ hkeep₂ hbytes₂ ⊢
  -- the block in front of it
  split
  · rename_i hmerge
    obtain ⟨xs, ys, rfl⟩ := append_of_mem ha₂
    obtain ⟨zs, rfl⟩ := hinv₂.exists_prev hmerge.1
    have hlist : zs ++ [prevOf s₂ a] ++ a :: ys = zs ++ prevOf s₂ a :: a :: ys := by simp
    rw [hlist] at hinv₂ hkeep₂
    obtain ⟨hinv, hb, hsize, hfree⟩ := hinv₂.absorb
    refine ⟨_, hinv, ?_, hb.trans hbytes₂⟩
    intro b hmem hne hu
    obtain ⟨hmem', hu', hs'⟩ := hkeep₂ b hmem hne hu
    have hbp : b ≠ (s₂.hdrs a).prev := by
      rintro rfl
      rw [hu'] at hmerge
      exact absurd hmerge.2 (by simp)
    refine ⟨?_, by rw [hfree, hu'], by rw [hsize, if_neg hbp, hs']⟩
    simp only [mem_append, mem_cons] at hmem' ⊢
    tauto
  · exact ⟨as₂, hinv₂, hkeep₂, hbytes₂⟩

/-- The payload bytes of every block in use but `a` are what they were. -/
def SameBytesBut (a : ℕ) (s : DgHeap) (as : List ℕ) (s' : DgHeap) : Prop :=
  ∀ b ∈ as, b ≠ a → (s.hdrs b).free = false →
    ∀ i < (s.hdrs b).size, s'.bytes (b + 32 + i) = s.bytes (b + 32 + i)

theorem copyBytes_inside {dst src m i : ℕ} (hi : i < m) :
    (copyBytes s dst src m).bytes (dst + i) = s.bytes (src + i) := by
  simp only [copyBytes]
  rw [if_pos (by omega), Nat.add_sub_cancel_left]

theorem copyBytes_outside {dst src m : ℕ} (hx : x < dst ∨ dst + m ≤ x) :
    (copyBytes s dst src m).bytes x = s.bytes x := by
  simp only [copyBytes]
  rw [if_neg (by omega)]

theorem ArenaInv.move_spec (h : ArenaInv arena s as) (ha : a ∈ as) (hb : b ∈ as)
    (hroom : (s.hdrs a).size ≤ (s.hdrs b).size) :
    ∃ as', ArenaInv arena (free (copyBytes s (b + 32) (a + 32) (s.hdrs a).size) (a + 32)) as' ∧
      KeepsBut a s as (free (copyBytes s (b + 32) (a + 32) (s.hdrs a).size) (a + 32)) as' ∧
      (∀ i < (s.hdrs a).size,
        (free (copyBytes s (b + 32) (a + 32) (s.hdrs a).size) (a + 32)).bytes (b + 32 + i) =
          s.bytes (a + 32 + i)) ∧
      ∀ c ∈ as, c ≠ b → ∀ i < (s.hdrs c).size,
        (free (copyBytes s (b + 32) (a + 32) (s.hdrs a).size) (a + 32)).bytes (c + 32 + i) =
          s.bytes (c + 32 + i) := by
  have hcopy : ArenaInv arena (copyBytes s (b + 32) (a + 32) (s.hdrs a).size) as :=
    h.withBytes _
  obtain ⟨as', hinv, hkeep, hbytes⟩ := hcopy.free_spec ha
  refine ⟨as', hinv, fun c hc hne huc => hkeep c hc hne huc, fun i hi => ?_, fun c hc hcb i hi => ?_⟩
  · rw [hbytes]
    exact copyBytes_inside hi
  · rw [hbytes]
    have hap := h.tiles.apart hc hb hcb
    simp only [Extent.Apart, spanOf] at hap
    exact copyBytes_outside (by omega)

theorem ArenaInv.realloc_spec (h : ArenaInv arena s as) (ha : a ∈ as)
    (hu : (s.hdrs a).free = false) (hn : n ≠ 0) (hfits : Fits s n) :
    ∃ p s' as', realloc arena s (a + 32) n = some (p, s') ∧ ArenaInv arena s' as' ∧
      KeepsBut a s as s' as' ∧ SameBytesBut a s as s' ∧
      (p = 0 → Keeps s as s' as' ∧ s'.bytes = s.bytes) ∧
      (p ≠ 0 → ∃ b ∈ as', p = b + 32 ∧ (s'.hdrs b).free = false ∧ n ≤ (s'.hdrs b).size ∧
        (b ∈ as → b ≠ a → (s.hdrs b).free = true) ∧
        ∀ i < (s.hdrs a).size, i < n → s'.bytes (p + i) = s.bytes (a + 32 + i)) := by
  have hp0 : a + 32 ≠ 0 := by omega
  rw [realloc, if_neg hp0, if_neg hn, h.headerOf_eq ha]
  dsimp only
  split
  · -- the block is large enough
    rename_i hle
    exact ⟨_, s, as, rfl, h, fun b hb _ hub => ⟨hb, hub, rfl⟩, fun _ _ _ _ _ _ => rfl,
      fun h0 => absurd h0 hp0,
      fun _ => ⟨a, ha, rfl, hu, hle, fun _ hne => absurd rfl hne, fun _ _ _ => rfl⟩⟩
  · rename_i hlt
    split
    · -- it takes in the free block behind it
      rename_i hmerge
      obtain ⟨xs, ys, rfl⟩ := append_of_mem ha
      obtain ⟨zs, hzs⟩ := h.exists_next hmerge.1
      rw [hzs] at h
      obtain ⟨hinv, hbytes, hsize, hfree⟩ := h.absorb
      refine ⟨_, _, _, rfl, hinv, ?_, fun _ _ _ _ _ _ => by rw [hbytes], fun h0 => absurd h0 hp0,
        fun _ => ⟨a, by simp, rfl, by rw [hfree, hu], ?_, fun _ hne => absurd rfl hne,
          fun _ _ _ => by rw [hbytes]⟩⟩
      · intro b hb hne hub
        have hbn : b ≠ (s.hdrs a).next := by
          rintro rfl
          rw [hub] at hmerge
          exact absurd hmerge.2.1 (by simp)
        refine ⟨?_, by rw [hfree, hub], by rw [hsize, if_neg hne]⟩
        rw [hzs] at hb
        simp only [mem_append, mem_cons] at hb ⊢
        tauto
      · have hmod := Nat.mod_le ((s.hdrs a).size + headerSize + (s.hdrs (s.hdrs a).next).size) sizeMod
        rw [hsize, if_pos rfl]
        exact hmerge.2.2.trans hmod
    · -- it moves
      obtain ⟨p, s₁, as₁, hcall, hinv, hkeep, hbytes, hgrant⟩ :=
        HeapInv.malloc_spec (.inl h) hfits
      rw [hcall, Option.map_some]
      obtain ⟨ha₁, hu₁, hs₁⟩ := hkeep a ha hu
      by_cases hp : p = 0
      · rw [if_pos hp]
        exact ⟨0, s₁, as₁, rfl, hinv, hkeep.but a, fun _ _ _ _ _ _ => by rw [hbytes],
          fun _ => ⟨hkeep, hbytes⟩, fun h0 => absurd rfl h0⟩
      · obtain ⟨b, hb, rfl, hub, hsb, hnew⟩ := hgrant hp
        rw [if_neg hp, if_pos (Nat.lt_of_not_le hlt), ← hs₁]
        have hab : a ≠ b := by
          rintro rfl
          rw [hnew ha] at hu
          exact absurd hu (by simp)
        have hroom : (s₁.hdrs a).size ≤ (s₁.hdrs b).size := by omega
        obtain ⟨as', hinv', hkeep', hinside, houtside⟩ :=
          hinv.move_spec ha₁ hb hroom
        obtain ⟨hb', hub', hsb'⟩ := hkeep' b hb (Ne.symm hab) hub
        refine ⟨b + 32, free (copyBytes s₁ (b + 32) (a + 32) (s₁.hdrs a).size) (a + 32), as', rfl,
          hinv', hkeep.trans_but hkeep', ?_, fun h0 => absurd h0 hp,
          fun _ => ⟨b, hb', rfl, hub', hsb.trans_eq hsb'.symm, fun hbas _ => hnew hbas, ?_⟩⟩
        · intro c hc hca huc i hi
          obtain ⟨hc₁, huc₁, hsc₁⟩ := hkeep c hc huc
          have hcb : c ≠ b := by
            rintro rfl
            rw [hnew hc] at huc
            exact absurd huc (by simp)
          rw [houtside c hc₁ hcb i (hsc₁ ▸ hi), hbytes]
        · intro i hi _
          rw [hinside i (hs₁ ▸ hi), hbytes]

end Cleonos.Doom
