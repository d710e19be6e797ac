import Cleonos.Heap.Model

/-!
# The block helpers keep the invariant

One specification for each of `splitBlock`, `mergeNext`, `requestChunk` and the change of a `used`
field.
-/

namespace Cleonos.Heap

open List

variable {cfg : HeapConfig} {s : HeapState} {as : List ℕ}

/-! ## Marking a block -/

/-- Write the `used` field of a header. -/
def setUsed (s : HeapState) (a v : ℕ) : HeapState :=
  s.setBlock a { s.blocks a with used := v }

@[simp] theorem head_setUsed (s : HeapState) (a v : ℕ) : (setUsed s a v).head = s.head := rfl
@[simp] theorem tail_setUsed (s : HeapState) (a v : ℕ) : (setUsed s a v).tail = s.tail := rfl
@[simp] theorem chunks_setUsed (s : HeapState) (a v : ℕ) : (setUsed s a v).chunks = s.chunks := rfl

@[simp] theorem size_setUsed (s : HeapState) (a v x : ℕ) :
    ((setUsed s a v).blocks x).size = (s.blocks x).size := by
  by_cases h : x = a
  · subst h; simp [setUsed]
  · simp [setUsed, h]

@[simp] theorem magic_setUsed (s : HeapState) (a v x : ℕ) :
    ((setUsed s a v).blocks x).magic = (s.blocks x).magic := by
  by_cases h : x = a
  · subst h; simp [setUsed]
  · simp [setUsed, h]

@[simp] theorem next_setUsed (s : HeapState) (a v x : ℕ) :
    ((setUsed s a v).blocks x).next = (s.blocks x).next := by
  by_cases h : x = a
  · subst h; simp [setUsed]
  · simp [setUsed, h]

@[simp] theorem prev_setUsed (s : HeapState) (a v x : ℕ) :
    ((setUsed s a v).blocks x).prev = (s.blocks x).prev := by
  by_cases h : x = a
  · subst h; simp [setUsed]
  · simp [setUsed, h]

variable {a need : ℕ}

@[simp] theorem used_setUsed_self (s : HeapState) (a v : ℕ) :
    ((setUsed s a v).blocks a).used = v := by simp [setUsed]
@[simp] theorem used_setUsed_of_ne (s : HeapState) {x : ℕ} (v : ℕ) (h : x ≠ a) :
    ((setUsed s a v).blocks x).used = (s.blocks x).used := by simp [setUsed, h]

@[simp] theorem extentOf_setUsed (s : HeapState) (a v x : ℕ) :
    extentOf (setUsed s a v) x = extentOf s x := by simp [extentOf]

theorem HeapInv.setUsed (h : HeapInv cfg s as) (a v : ℕ) :
    HeapInv cfg (Heap.setUsed s a v) as := by
  have hr : regions (Heap.setUsed s a v) = regions s := rfl
  constructor
  · exact h.list.congr (fun x _ => by simp) (fun x _ => by simp)
  · exact h.addr_mod
  · simpa using h.size_mod
  · simpa using h.magic
  · simpa using h.apart
  · simpa [hr] using h.inside
  · simpa [hr, nextOf] using h.seam
  · simpa [hr] using h.tail_end
  · exact h.regions_apart
  · exact h.regions_pos
  · exact h.regions_lt

/-- The address of the block that `splitBlock` carves off. -/
abbrev splitAddr (a need : ℕ) : ℕ := a + 32 + need

theorem splitBlock_fields (cfg : HeapConfig) (ha : a ≠ 0) (hroom : need + 48 < (s.blocks a).size)
    (hlt : a + 32 + (s.blocks a).size < sizeMod) (hna : nextOf s a ≠ a)
    (hnc : nextOf s a ≠ splitAddr a need) : let s' := splitBlock cfg s a need
    let c := splitAddr a need
    s'.head = s.head ∧ s'.tail = (if nextOf s a = 0 then c else s.tail) ∧ s'.chunks = s.chunks ∧
    (∀ x, (s'.blocks x).size =
      if x = a then need else if x = c then (s.blocks a).size - need - 32 else (s.blocks x).size) ∧
    (∀ x, (s'.blocks x).used = if x = c then 0 else (s.blocks x).used) ∧
    (∀ x, (s'.blocks x).magic = if x = c then cfg.magic else (s.blocks x).magic) ∧
    (∀ x, nextOf s' x = if x = a then c else if x = c then nextOf s a else nextOf s x) ∧
    (∀ x, prevOf s' x =
      if x = c then a else if x = nextOf s a ∧ nextOf s a ≠ 0 then c else prevOf s x) := by
  have hmod : (need + headerSize + heapAlign) % sizeMod = need + 48 := by
    rw [headerSize_eq, heapAlign, Nat.mod_eq_of_lt]
    omega
  have hc : (a + headerSize + need) % sizeMod = splitAddr a need := by
    rw [headerSize_eq, Nat.mod_eq_of_lt]
    omega
  have hsz : ((s.blocks a).size + (sizeMod - need) + (sizeMod - headerSize)) % sizeMod =
      (s.blocks a).size - need - 32 := by
    simp only [headerSize_eq, sizeMod] at *
    omega
  have hca : splitAddr a need ≠ a := by simp only [splitAddr]; omega
  have hac : a ≠ splitAddr a need := Ne.symm hca
  have hguard : ¬(a = 0 ∨ (s.blocks a).size ≤ (need + headerSize + heapAlign) % sizeMod) := by
    rw [hmod]
    omega
  intro s' c
  have hs' : s' = splitBlock cfg s a need := rfl
  simp only [splitBlock, if_neg hguard, hc, hsz] at hs'
  by_cases hn : nextOf s a = 0
  · simp only [hn, ne_eq, not_true_eq_false, if_false] at hs'
    refine ⟨by rw [hs']; rfl, by rw [hs']; simp [c, hn], by rw [hs']; rfl, ?_, ?_, ?_, ?_, ?_⟩
    all_goals
      intro x
      rw [hs']
      by_cases hxa : x = a
      · simp_all [c, nextOf, prevOf]
      · by_cases hxc : x = c <;> simp_all [c, nextOf, prevOf]
  · simp only [nextOf] at hn
    simp only [hn, ne_eq, not_false_eq_true, if_true] at hs'
    refine ⟨by rw [hs']; rfl, by rw [hs']; simp [nextOf, hn], by rw [hs']; rfl, ?_, ?_, ?_, ?_, ?_⟩
    all_goals
      intro x
      rw [hs']
      by_cases hxa : x = a
      · simp_all [c, nextOf, prevOf, Ne.symm hna]
      · by_cases hxc : x = c <;> by_cases hxn : x = (s.blocks a).next <;>
          simp_all [c, nextOf, prevOf]

theorem HeapInv.splitAddr_notMem (h : HeapInv cfg s as) (ha : a ∈ as)
    (hroom : need + 48 < (s.blocks a).size) : splitAddr a need ∉ as := by
  intro hc
  have hne : a ≠ splitAddr a need := by simp only [splitAddr]; omega
  have hap := h.apart a ha _ hc hne
  simp only [Extent.Apart, extentOf_lo, extentOf_hi, splitAddr] at hap
  omega

theorem HeapInv.split {xs ys : List ℕ} (h : HeapInv cfg s (xs ++ a :: ys))
    (hneed : need % 16 = 0) (hroom : need + 48 < (s.blocks a).size) :
    HeapInv cfg (splitBlock cfg s a need) (xs ++ a :: splitAddr a need :: ys) := by
  have ha : a ∈ xs ++ a :: ys := by simp
  have hcm : splitAddr a need ∉ xs ++ a :: ys := h.splitAddr_notMem ha hroom
  have hhi := h.hi_lt ha
  have ha0 : a ≠ 0 := h.list.ne_null a ha
  have hna : nextOf s a ≠ a := by
    intro hn
    have hmem := h.list.next_mem (hn.symm ▸ ha0)
    have hnd := h.list.nodup
    rw [nodup_append, nodup_cons] at hnd
    exact hnd.2.1.1 (hn ▸ hmem)
  have hnc : nextOf s a ≠ splitAddr a need := by
    intro hn
    refine hcm (hn ▸ h.next_mem ha ?_)
    rw [hn]
    simp only [splitAddr]
    omega
  have hc0 : splitAddr a need ≠ 0 := by simp only [splitAddr]; omega
  have hca : splitAddr a need ≠ a := by simp only [splitAddr]; omega
  obtain ⟨hhead, htail, hchunks, hsize, -, hmagic, hnexts, hprevs⟩ :=
    splitBlock_fields cfg ha0 hroom hhi hna hnc
  generalize splitBlock cfg s a need = s' at *
  generalize hc : splitAddr a need = c at *
  have hcv : c = a + 32 + need := hc.symm
  have hlist : DList (nextOf s') (prevOf s') 0 s'.head s'.tail (xs ++ a :: c :: ys) :=
    hhead ▸ h.list.insert_after hcm hc0 hnexts hprevs htail
  have hreg : regions s' = regions s := by simp only [regions, hchunks]
  have hea : extentOf s' a = ⟨a, c⟩ := by
    simp [extentOf, hsize, ← hc]
  have hec : extentOf s' c = ⟨c, a + 32 + (s.blocks a).size⟩ := by
    have hlen : c + 32 + ((s.blocks a).size - need - 32) = a + 32 + (s.blocks a).size := by
      omega
    simp only [extentOf, hsize, if_neg hca, if_true, hlen]
  have heo : ∀ x, x ≠ a → x ≠ c → extentOf s' x = extentOf s x := by
    intro x hxa hxc
    simp [extentOf, hsize, hxa, hxc]
  have hwa : (extentOf s' a).Within (extentOf s a) := by
    rw [hea]
    exact ⟨le_rfl, by simp only [extentOf_hi]; omega⟩
  have hwc : (extentOf s' c).Within (extentOf s a) := by
    rw [hec]
    exact ⟨by simp only [extentOf_lo]; omega, le_rfl⟩
  -- every old member other than `a` is untouched, and `a` and `c` lie inside old `a`
  have hmem : ∀ x ∈ xs ++ a :: c :: ys, x = c ∨ x ∈ xs ++ a :: ys := by
    intro x hx
    simp only [mem_append, mem_cons] at hx ⊢
    tauto
  have hold : ∀ x ∈ xs ++ a :: ys, x ≠ c := fun x hx => ne_of_mem_of_not_mem hx hcm
  have hwithin : ∀ x ∈ xs ++ a :: ys, (extentOf s' x).Within (extentOf s x) := by
    intro x hx
    by_cases hxa : x = a
    · rw [hxa]; exact hwa
    · rw [heo x hxa (hold x hx)]; exact Extent.Within.refl _
  constructor
  · exact hlist
  · intro x hx
    rcases hmem x hx with rfl | hx
    · have := h.addr_mod a ha
      omega
    · exact h.addr_mod x hx
  · intro x hx
    have hsa := h.size_mod a ha
    rw [hsize]
    by_cases hxa : x = a
    · rw [if_pos hxa]; exact hneed
    · rw [if_neg hxa]
      by_cases hxc : x = c
      · rw [if_pos hxc]; omega
      · rw [if_neg hxc]
        exact h.size_mod x ((hmem x hx).resolve_left hxc)
  · intro x hx
    rw [hmagic]
    by_cases hxc : x = c
    · rw [if_pos hxc]
    · rw [if_neg hxc]
      exact h.magic x ((hmem x hx).resolve_left hxc)
  · have hac : (extentOf s' a).Apart (extentOf s' c) := by
      rw [hea, hec]
      exact .inl le_rfl
    have hco : ∀ x ∈ xs ++ a :: ys, (extentOf s' c).Apart (extentOf s' x) := by
      intro x hx
      by_cases hxa : x = a
      · rw [hxa]; exact hac.symm
      · exact (h.apart a ha x hx (Ne.symm hxa)).mono hwc (hwithin x hx)
    intro x hx y hy hxy
    by_cases hxc : x = c
    · rw [hxc] at hxy ⊢
      exact hco y ((hmem y hy).resolve_left (Ne.symm hxy))
    · have hx' := (hmem x hx).resolve_left hxc
      rcases hmem y hy with rfl | hy
      · exact (hco x hx').symm
      · exact (h.apart x hx' y hy hxy).mono (hwithin x hx') (hwithin y hy)
  · intro x hx
    rw [hreg]
    rcases hmem x hx with rfl | hx
    · obtain ⟨r, hr, hw⟩ := h.inside a ha
      exact ⟨r, hr, hwc.trans hw⟩
    · obtain ⟨r, hr, hw⟩ := h.inside x hx
      exact ⟨r, hr, (hwithin x hx).trans hw⟩
  · intro x hx hn htouch
    rw [hreg]
    rw [hnexts] at hn htouch ⊢
    by_cases hxa : x = a
    · -- `a` now touches the carved block, and both came from the same block
      rw [if_pos hxa, hxa]
      obtain ⟨r, hr, hw⟩ := h.inside a ha
      exact ⟨r, hr, hwa.trans hw, hwc.trans hw⟩
    · rw [if_neg hxa] at hn htouch ⊢
      by_cases hxc : x = c
      · -- the carved block ends where `a` ended
        rw [if_pos hxc] at hn htouch ⊢
        rw [hxc, hec] at htouch
        obtain ⟨r, hr, hwa', hwn⟩ := h.seam a ha hn htouch
        refine ⟨r, hr, hxc ▸ hwc.trans hwa', ?_⟩
        exact (hwithin _ (h.next_mem ha hn)).trans hwn
      · have hxm := (hmem x hx).resolve_left hxc
        rw [if_neg hxc] at hn htouch ⊢
        rw [heo x hxa hxc] at htouch ⊢
        obtain ⟨r, hr, hwx, hwn⟩ := h.seam x hxm hn htouch
        exact ⟨r, hr, hwx, (hwithin _ (h.next_mem hxm hn)).trans hwn⟩
  · intro ht
    rw [hreg]
    rw [htail] at ht ⊢
    by_cases h0 : nextOf s a = 0
    · have hta : s.tail = a := h.list.next_eq_null_iff.1 h0
      rw [if_pos h0, hec]
      obtain ⟨r, hr, hw, hhi'⟩ := h.tail_end (hta.symm ▸ ha0)
      rw [hta] at hw hhi'
      exact ⟨r, hr, hec ▸ hwc.trans hw, hhi'⟩
    · have hta : s.tail ≠ a := fun hta => h0 (h.list.next_eq_null_iff.2 hta)
      rw [if_neg h0] at ht ⊢
      rw [heo _ hta (hold _ (h.list.tail_mem ht))]
      exact h.tail_end ht
  · rw [hreg]; exact h.regions_apart
  · rw [hreg]; exact h.regions_pos
  · rw [hreg]; exact h.regions_lt

/-- What merging a block with the next one does to the fields. -/
def Merged (s : HeapState) (a : ℕ) (s' : HeapState) : Prop :=
  let c := nextOf s a
  s'.head = s.head ∧ s'.tail = (if nextOf s c = 0 then a else s.tail) ∧ s'.chunks = s.chunks ∧
  (∀ x, (s'.blocks x).size =
    if x = a then (s.blocks a).size + 32 + (s.blocks c).size else (s.blocks x).size) ∧
  (∀ x, (s'.blocks x).used = (s.blocks x).used) ∧
  (∀ x, (s'.blocks x).magic = (s.blocks x).magic) ∧
  (∀ x, nextOf s' x = if x = a then nextOf s c else nextOf s x) ∧
  (∀ x, prevOf s' x = if x = nextOf s c ∧ nextOf s c ≠ 0 then a else prevOf s x)

theorem mergeNext_fields (cfg : HeapConfig) (ha : a ≠ 0) (hua : (s.blocks a).used = 0)
    (hn0 : nextOf s a ≠ 0) (hmagic : (s.blocks (nextOf s a)).magic = cfg.magic)
    (hun : (s.blocks (nextOf s a)).used = 0) (htouch : (extentOf s a).hi = nextOf s a)
    (hlt : nextOf s a + 32 + (s.blocks (nextOf s a)).size < sizeMod)
    (hnna : nextOf s (nextOf s a) ≠ a) : Merged s a (mergeNext cfg s a) := by
  have hadj : blocksAreAdjacent s a (nextOf s a) = true := by
    have hend : (a + 32 + (s.blocks a).size) % sizeMod = nextOf s a := by
      rw [extentOf_hi] at htouch
      rw [htouch, Nat.mod_eq_of_lt]
      omega
    simp [blocksAreAdjacent, ha, hn0, hend]
  have hsz : ((s.blocks a).size + headerSize + (s.blocks (nextOf s a)).size) % sizeMod =
      (s.blocks a).size + 32 + (s.blocks (nextOf s a)).size := by
    rw [headerSize_eq, Nat.mod_eq_of_lt]
    rw [extentOf_hi] at htouch
    omega
  obtain ⟨s', hs'⟩ : ∃ s', s' = mergeNext cfg s a := ⟨_, rfl⟩
  rw [← hs', Merged]
  simp only [nextOf] at hadj hsz hn0 hmagic hun
  simp only [mergeNext, ha, hua, hn0, hmagic, hun, hadj, hsz, ne_eq, not_true_eq_false, or_self,
    if_false, Bool.true_eq_false] at hs'
  by_cases hnn : (s.blocks (s.blocks a).next).next = 0
  · rw [if_neg (not_not_intro hnn)] at hs'
    refine ⟨by rw [hs']; rfl, by rw [hs']; simp [nextOf, hnn], by rw [hs']; rfl, ?_, ?_, ?_, ?_, ?_⟩
    all_goals
      intro x
      rw [hs']
      by_cases hxa : x = a <;> simp_all [nextOf, prevOf]
  · rw [if_pos hnn] at hs'
    refine ⟨by rw [hs']; rfl, by rw [hs']; simp [nextOf, hnn], by rw [hs']; rfl, ?_, ?_, ?_, ?_, ?_⟩
    all_goals
      intro x
      rw [hs']
      by_cases hxa : x = a
      · simp_all [nextOf, prevOf, Ne.symm hnna]
      · by_cases hxn : x = (s.blocks (s.blocks a).next).next <;> simp_all [nextOf, prevOf]

theorem HeapInv.region_unique (h : HeapInv cfg s as) {r r' : Extent}
    (hr : r ∈ regions s) (hr' : r' ∈ regions s) (hw : (extentOf s a).Within r)
    (hw' : (extentOf s a).Within r') : r = r' := by
  refine hw.eq_of_apart hw' (by simp only [extentOf_lo, extentOf_hi]; omega) ?_
  by_cases heq : r = r'
  · exact .inl heq
  · exact .inr (h.regions_apart.forall hr hr' heq)

theorem HeapInv.merge {c : ℕ} {xs ys : List ℕ} (h : HeapInv cfg s (xs ++ a :: c :: ys))
    (hua : (s.blocks a).used = 0) (huc : (s.blocks c).used = 0) (htouch : (extentOf s a).hi = c) :
    HeapInv cfg (mergeNext cfg s a) (xs ++ a :: ys) := by
  have ha : a ∈ xs ++ a :: c :: ys := by simp
  have hc : c ∈ xs ++ a :: c :: ys := by simp
  have ha0 : a ≠ 0 := h.list.ne_null a ha
  have hc0 : c ≠ 0 := h.list.ne_null c hc
  have hlist : DList (nextOf s) (prevOf s) 0 s.head s.tail ((xs ++ [a]) ++ c :: ys) := by
    simpa using h.list
  have hnext : nextOf s a = c := h.list.linked.next_eq
  have hnd := h.list.nodup
  rw [nodup_append, nodup_cons, nodup_cons] at hnd
  have hnna : nextOf s c ≠ a := by
    intro hn
    have := hlist.next_mem (a := c) (hn.symm ▸ ha0)
    rw [hn] at this
    exact hnd.2.1.1 (by simp [this])
  obtain ⟨hhead, htail, hchunks, hsize, -, hmagic, hnexts, hprevs⟩ :=
    mergeNext_fields cfg ha0 hua (hnext.symm ▸ hc0) (hnext.symm ▸ h.magic c hc)
      (hnext.symm ▸ huc) (htouch.trans hnext.symm) (hnext.symm ▸ h.hi_lt hc) (hnext.symm ▸ hnna)
  rw [hnext] at htail hsize hnexts hprevs
  generalize mergeNext cfg s a = s' at *
  have hreg : regions s' = regions s := by simp only [regions, hchunks]
  have hea : extentOf s' a = ⟨a, (extentOf s c).hi⟩ := by
    rw [extentOf_hi] at htouch
    have hlen : a + 32 + ((s.blocks a).size + 32 + (s.blocks c).size) = c + 32 + (s.blocks c).size := by
      omega
    simp only [extentOf, hsize, if_true, hlen]
  have heo : ∀ x, x ≠ a → extentOf s' x = extentOf s x := by
    intro x hxa
    simp [extentOf, hsize, hxa]
  have hmem : ∀ x ∈ xs ++ a :: ys, x ∈ xs ++ a :: c :: ys := by
    intro x hx
    simp only [mem_append, mem_cons] at hx ⊢
    tauto
  have hxc : ∀ x ∈ xs ++ a :: ys, x ≠ c := by
    have hcm : c ∉ xs ++ a :: ys := by
      simp only [mem_append, mem_cons, not_or]
      exact ⟨fun hcx => hnd.2.2 c hcx c (by simp) rfl, fun hca => hnd.2.1.1 (by simp [hca]),
        hnd.2.1.2.1⟩
    exact fun x hx => ne_of_mem_of_not_mem hx hcm
  -- the region that holds `a` and `c`, hence the merged block
  obtain ⟨r, hr, hwa, hwc⟩ : ∃ r ∈ regions s, (extentOf s a).Within r ∧ (extentOf s c).Within r := by
    have := h.seam a ha (hnext.symm ▸ hc0) (htouch.trans hnext.symm)
    rwa [hnext] at this
  have hwm : (extentOf s' a).Within r := by
    rw [hea]
    exact ⟨hwa.1, hwc.2⟩
  constructor
  · exact hhead ▸ h.list.remove_after hnexts hprevs htail
  · exact fun x hx => h.addr_mod x (hmem x hx)
  · intro x hx
    rw [hsize]
    have hsa := h.size_mod a ha
    have hsc := h.size_mod c hc
    by_cases hxa : x = a
    · rw [if_pos hxa]; omega
    · rw [if_neg hxa]; exact h.size_mod x (hmem x hx)
  · intro x hx
    rw [hmagic]
    exact h.magic x (hmem x hx)
  · have hao : ∀ x ∈ xs ++ a :: ys, x ≠ a → (extentOf s' a).Apart (extentOf s' x) := by
      intro x hx hxa
      rw [hea, heo x hxa]
      refine Extent.Apart.join (h.apart a ha x (hmem x hx) (Ne.symm hxa))
        (h.apart c hc x (hmem x hx) (Ne.symm (hxc x hx))) htouch ?_
      simp only [extentOf_lo, extentOf_hi]
      omega
    intro x hx y hy hxy
    by_cases hxa : x = a
    · rw [hxa] at hxy ⊢
      exact hao y hy (Ne.symm hxy)
    · by_cases hya : y = a
      · rw [hya]
        exact (hao x hx hxa).symm
      · rw [heo x hxa, heo y hya]
        exact h.apart x (hmem x hx) y (hmem y hy) hxy
  · intro x hx
    rw [hreg]
    by_cases hxa : x = a
    · rw [hxa]; exact ⟨r, hr, hwm⟩
    · rw [heo x hxa]; exact h.inside x (hmem x hx)
  · intro x hx hn hend
    rw [hreg]
    rw [hnexts] at hn hend ⊢
    by_cases hxa : x = a
    · -- the merged block ends where `c` ended, in the region of `c`
      rw [if_pos hxa] at hn hend ⊢
      rw [hxa, hea] at hend
      obtain ⟨q, hq, hqc, hqn⟩ := h.seam c hc hn hend
      obtain rfl : r = q := h.region_unique hr hq hwc hqc
      refine ⟨r, hr, hxa ▸ hwm, ?_⟩
      rw [heo _ hnna]
      exact hqn
    · rw [if_neg hxa] at hn hend ⊢
      rw [heo x hxa] at hend ⊢
      obtain ⟨q, hq, hqx, hqn⟩ := h.seam x (hmem x hx) hn hend
      by_cases hna : nextOf s x = a
      · -- the predecessor of `a` touches it, so it shares the region of `a`
        rw [hna] at hqn ⊢
        obtain rfl : r = q := h.region_unique hr hq hwa hqn
        exact ⟨r, hr, hqx, hwm⟩
      · rw [heo _ hna]
        exact ⟨q, hq, hqx, hqn⟩
  · intro ht
    rw [hreg]
    rw [htail] at ht ⊢
    by_cases h0 : nextOf s c = 0
    · have htc : s.tail = c := hlist.next_eq_null_iff.1 h0
      obtain ⟨q, hq, hwq, hhi⟩ := h.tail_end (htc.symm ▸ hc0)
      rw [htc] at hwq hhi
      obtain rfl : r = q := h.region_unique hr (mem_of_mem_head? hq) hwc hwq
      rw [if_pos h0]
      exact ⟨r, hq, hwm, by rw [hea]; exact hhi⟩
    · rw [if_neg h0] at ht ⊢
      have hta : s.tail ≠ a := by
        intro hta
        have := h.list.next_eq_null_iff.2 hta
        exact hc0 (hnext.symm.trans this)
      rw [heo _ hta]
      exact h.tail_end ht
  · rw [hreg]; exact h.regions_apart
  · rw [hreg]; exact h.regions_pos
  · rw [hreg]; exact h.regions_lt

theorem defaultChunk_bounds (cfg : HeapConfig) :
    chunkMin ≤ defaultChunk cfg ∧ defaultChunk cfg ≤ chunkMax := by
  have hmm : chunkMin ≤ chunkMax := by decide
  simp only [defaultChunk]
  by_cases hmin : cfg.capacity < chunkMin
  · rw [if_pos hmin, if_neg (by omega)]
    exact ⟨le_rfl, hmm⟩
  · rw [if_neg hmin]
    by_cases hmax : cfg.capacity > chunkMax
    · rw [if_pos hmax]
      exact ⟨hmm, le_rfl⟩
    · rw [if_neg hmax]
      omega

theorem chunkSize_spec (cfg : HeapConfig) (h : need ≤ sizeMod - 48) :
    need + 32 ≤ chunkSize cfg need ∧ 48 < chunkSize cfg need ∧ chunkSize cfg need % 16 = 0 := by
  have hmod : (need + headerSize) % sizeMod = need + 32 := by
    rw [headerSize_eq, Nat.mod_eq_of_lt]
    simp only [sizeMod] at *
    omega
  -- before alignment the size is at least the clamped capacity and the request
  obtain ⟨m, hm, hroom, hmin, hmax⟩ : ∃ m, chunkSize cfg need = alignUp m heapAlign ∧
      need + 32 ≤ m ∧ chunkMin ≤ m ∧ m ≤ sizeMod - 16 := by
    obtain ⟨hlo, hhi⟩ := defaultChunk_bounds cfg
    refine ⟨_, rfl, ?_⟩
    simp only [hmod, sizeMod, chunkMin, chunkMax] at *
    split_ifs <;> omega
  have hup := le_alignUp hmax
  rw [hm]
  simp only [chunkMin] at hmin
  exact ⟨by omega, by omega, alignUp_mod m⟩

theorem requestChunk_fields (cfg : HeapConfig) (need : ℕ) {base : ℕ} {reply : ChunkReply}
    (hbase : (if reply.vmAlloc ≠ 0 then reply.vmAlloc else reply.userHeapAlloc) = base)
    (h0 : base ≠ 0) (hsize : 32 ≤ chunkSize cfg need) (hlt : chunkSize cfg need < sizeMod)
    (htb : s.tail ≠ base) :
    let s' := (requestChunk cfg s need reply).2
    (requestChunk cfg s need reply).1 = base ∧
    s'.head = (if s.tail = 0 then base else s.head) ∧ s'.tail = base ∧
    s'.chunks = ⟨base, base + chunkSize cfg need⟩ :: s.chunks ∧
    (∀ x, (s'.blocks x).size = if x = base then chunkSize cfg need - 32 else (s.blocks x).size) ∧
    (∀ x, (s'.blocks x).used = if x = base then 0 else (s.blocks x).used) ∧
    (∀ x, (s'.blocks x).magic = if x = base then cfg.magic else (s.blocks x).magic) ∧
    (∀ x, nextOf s' x =
      if x = base then 0 else if x = s.tail ∧ s.tail ≠ 0 then base else nextOf s x) ∧
    (∀ x, prevOf s' x = if x = base then s.tail else prevOf s x) := by
  have hsz : (chunkSize cfg need + (sizeMod - headerSize)) % sizeMod = chunkSize cfg need - 32 := by
    simp only [headerSize_eq, sizeMod] at *
    omega
  intro s'
  have hs' : s' = (requestChunk cfg s need reply).2 := rfl
  have hfst : (requestChunk cfg s need reply).1 = base := by
    simp only [requestChunk, hbase, if_neg h0]
  simp only [requestChunk, hbase, if_neg h0, hsz] at hs'
  by_cases ht : s.tail = 0
  · simp only [HeapState.tail_setBlock, ht, ne_eq, not_true_eq_false, if_false] at hs'
    refine ⟨hfst, by rw [hs']; simp [ht], by rw [hs']; rfl, by rw [hs']; rfl, ?_, ?_, ?_, ?_, ?_⟩
    all_goals
      intro x
      rw [hs']
      by_cases hx : x = base <;> simp_all [nextOf, prevOf]
  · simp only [HeapState.tail_setBlock, ht, ne_eq, not_false_eq_true, if_true] at hs'
    refine ⟨hfst, by rw [hs']; simp [ht], by rw [hs']; rfl, by rw [hs']; rfl, ?_, ?_, ?_, ?_, ?_⟩
    all_goals
      intro x
      rw [hs']
      by_cases hx : x = base
      · have hne : base ≠ s.tail := Ne.symm htb
        simp_all [nextOf, prevOf]
      · by_cases hxt : x = s.tail <;> simp_all [nextOf, prevOf]

theorem HeapInv.push {need base : ℕ} {reply : ChunkReply} (h : HeapInv cfg s as)
    (hneed : need ≤ sizeMod - 48)
    (hbase : (if reply.vmAlloc ≠ 0 then reply.vmAlloc else reply.userHeapAlloc) = base)
    (hfresh : FreshChunk s base (chunkSize cfg need)) :
    HeapInv cfg (requestChunk cfg s need reply).2 (as ++ [base]) ∧ base ∉ as := by
  obtain ⟨-, hpos, hmod⟩ := chunkSize_spec cfg hneed
  have hlt := hfresh.lt
  have hnotMem : base ∉ as := by
    intro hmem
    obtain ⟨r, hr, hw⟩ := h.inside base hmem
    have hap := apart_joinExtents (by simp only; omega) hfresh.apart r hr
    simp only [Extent.Apart, Extent.Within, extentOf_lo, extentOf_hi] at hap hw
    omega
  have htb : s.tail ≠ base := by
    intro htb
    exact hnotMem (htb ▸ h.list.tail_mem (htb ▸ hfresh.ne_zero))
  obtain ⟨-, hhead, htail, hchunks, hsize, -, hmagic, hnexts, hprevs⟩ :=
    requestChunk_fields cfg need hbase hfresh.ne_zero (by omega) (by omega) htb
  generalize (requestChunk cfg s need reply).2 = s' at *
  have hreg : regions s' = joinExtent ⟨base, base + chunkSize cfg need⟩ (regions s) := by
    simp only [regions, hchunks, joinExtents]
  have hapart : ∀ r ∈ regions s, r.Apart ⟨base, base + chunkSize cfg need⟩ :=
    apart_joinExtents (by simp only; omega) hfresh.apart
  have heb : extentOf s' base = ⟨base, base + chunkSize cfg need⟩ := by
    have hlen : base + 32 + (chunkSize cfg need - 32) = base + chunkSize cfg need := by omega
    simp only [extentOf, hsize, if_true, hlen]
  have heo : ∀ x ∈ as, extentOf s' x = extentOf s x := by
    intro x hx
    simp [extentOf, hsize, ne_of_mem_of_not_mem hx hnotMem]
  have hcase : ∀ x ∈ as ++ [base], x = base ∨ x ∈ as := by
    intro x hx
    rw [mem_append, mem_singleton] at hx
    exact hx.symm
  have hgrow : ∀ r ∈ regions s, ∃ q ∈ regions s', r.Within q := by
    intro r hr
    rw [hreg]
    exact exists_within_joinExtent (by simp only; omega) hr
  obtain ⟨q, hq, hqw, hqhi⟩ := head?_joinExtent ⟨base, base + chunkSize cfg need⟩ (regions s)
    fun r hr => (h.regions_pos r hr).le
  rw [← hreg] at hq
  refine ⟨?_, hnotMem⟩
  constructor
  · rw [htail]
    exact h.list.push_back hnotMem hfresh.ne_zero hnexts hprevs hhead
  · intro x hx
    rcases hcase x hx with rfl | hx
    · exact hfresh.aligned
    · exact h.addr_mod x hx
  · intro x hx
    rw [hsize]
    rcases hcase x hx with rfl | hx
    · rw [if_pos rfl]; omega
    · rw [if_neg (ne_of_mem_of_not_mem hx hnotMem)]; exact h.size_mod x hx
  · intro x hx
    rw [hmagic]
    rcases hcase x hx with rfl | hx
    · rw [if_pos rfl]
    · rw [if_neg (ne_of_mem_of_not_mem hx hnotMem)]; exact h.magic x hx
  · have hbo : ∀ x ∈ as, (extentOf s' x).Apart (extentOf s' base) := by
      intro x hx
      obtain ⟨r, hr, hw⟩ := h.inside x hx
      rw [heb, heo x hx]
      exact (hapart r hr).mono hw (Extent.Within.refl _)
    intro x hx y hy hxy
    rcases hcase x hx with rfl | hx
    · exact (hbo y ((hcase y hy).resolve_left (Ne.symm hxy))).symm
    · by_cases hyb : y = base
      · rw [hyb]
        exact hbo x hx
      · have hy := (hcase y hy).resolve_left hyb
        rw [heo x hx, heo y hy]
        exact h.apart x hx y hy hxy
  · intro x hx
    rcases hcase x hx with rfl | hx
    · exact ⟨q, mem_of_mem_head? hq, heb ▸ hqw⟩
    · obtain ⟨r, hr, hw⟩ := h.inside x hx
      obtain ⟨r', hr', hw'⟩ := hgrow r hr
      exact ⟨r', hr', heo x hx ▸ hw.trans hw'⟩
  · intro x hx hn htouch
    rw [hnexts] at hn htouch ⊢
    rcases hcase x hx with rfl | hx
    · exact absurd (if_pos rfl) hn
    · have hxb : x ≠ base := ne_of_mem_of_not_mem hx hnotMem
      rw [if_neg hxb] at hn htouch ⊢
      by_cases hxt : x = s.tail ∧ s.tail ≠ 0
      · -- the old tail touches the chunk, which then prolongs the newest region
        rw [if_pos hxt] at hn htouch ⊢
        obtain ⟨hxt, ht0⟩ := hxt
        obtain ⟨r, hr, hw, hhi⟩ := h.tail_end ht0
        rw [← hxt] at hw hhi
        rw [heo x hx] at htouch ⊢
        refine ⟨⟨r.lo, base + chunkSize cfg need⟩, ?_, ⟨hw.1, ?_⟩, ?_⟩
        · rw [hreg]
          exact joinExtent_of_touch hr (hhi.symm.trans htouch)
        · simp only [htouch]
          omega
        · rw [heb]
          refine ⟨?_, le_rfl⟩
          have := h.regions_pos r (mem_of_mem_head? hr)
          simp only
          omega
      · rw [if_neg hxt] at hn htouch ⊢
        rw [heo x hx] at htouch ⊢
        obtain ⟨r, hr, hwx, hwn⟩ := h.seam x hx hn htouch
        obtain ⟨r', hr', hw'⟩ := hgrow r hr
        exact ⟨r', hr', hwx.trans hw', heo _ (h.next_mem hx hn) ▸ hwn.trans hw'⟩
  · intro _
    rw [htail, heb]
    exact ⟨q, hq, hqw, hqhi.symm⟩
  · rw [hreg]
    exact pairwise_joinExtent h.regions_apart h.regions_pos hapart
  · rw [hreg]
    refine forall_joinExtent ?_ h.regions_pos ?_
    · simp only; omega
    · intro r hr htouch
      have := h.regions_pos r hr
      simp only at htouch ⊢
      omega
  · rw [hreg]
    exact forall_joinExtent hlt h.regions_lt fun _ _ _ => hlt

end Cleonos.Heap
