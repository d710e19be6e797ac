import Cleonos.Heap.Blocks

/-!
# The interface keeps the invariant

One specification for each of `malloc`, `free`, `calloc` and `realloc`: the call returns, the
invariant holds afterwards, blocks in use survive with their sizes, and a pointer that is returned
is the payload of a block in use that is large enough.
-/

namespace Cleonos.Heap

open List Option

variable {cfg : HeapConfig} {s : HeapState} {as : List ℕ}

/-- The largest request for which `need + header_size` does not wrap. -/
def maxRequest : ℕ := sizeMod - 48

/-- The chunk one answer amounts to: the second kernel call is made when the first
refuses. -/
def ChunkReply.base (reply : ChunkReply) : ℕ :=
  if reply.vmAlloc ≠ 0 then reply.vmAlloc else reply.userHeapAlloc

/-- The page source refuses, and the rounded request matches no free block: either
it did not wrap to zero, and is then larger than any block, or no block is free. -/
def Refused (cfg : HeapConfig) (s : HeapState) (size : ℕ) (reply : ChunkReply) : Prop :=
  reply.base = 0 ∧ (size ≤ sizeMod - 16 ∨
    findFree cfg s (alignUp size heapAlign) listFuel s.head = some 0)

/-- A chunk that is granted for a request of `size` bytes is fresh. -/
def HonestReply (cfg : HeapConfig) (s : HeapState) (size : ℕ) (reply : ChunkReply) : Prop :=
  reply.base ≠ 0 → FreshChunk s reply.base (chunkSize cfg (alignUp size heapAlign))

/-- A non-null result is the payload of a block in use with room for the `n > 0`
bytes requested, and that block was not in use before. -/
def Grants (s : HeapState) (as : List ℕ) (s' : HeapState) (as' : List ℕ) (p n : ℕ) : Prop :=
  p ≠ 0 → 0 < n ∧ ∃ a ∈ as', p = a + 32 ∧ (s'.blocks a).used ≠ 0 ∧ n ≤ (s'.blocks a).size ∧
    (a ∈ as → (s.blocks a).used = 0)

/-! ## Walks -/

variable {n a need : ℕ} {reply : ChunkReply}

theorem HeapInv.payload_eq (h : HeapInv cfg s as) (ha : a ∈ as) : payload a = a + 32 := by
  have := h.hi_lt ha
  rw [payload, headerSize_eq, Nat.mod_eq_of_lt]
  omega

theorem findFree_linked {need p fuel : ℕ} (hl : Linked (nextOf s) (prevOf s) p as 0)
    (h0 : ∀ a ∈ as, a ≠ 0) (hfuel : as.length < fuel) :
    ∃ a, findFree cfg s need fuel (as.headD 0) = some a ∧
      (a ≠ 0 → a ∈ as ∧ (s.blocks a).used = 0 ∧ need ≤ (s.blocks a).size) := by
  induction as generalizing p fuel with
  | nil =>
    obtain ⟨fuel, rfl⟩ := Nat.exists_eq_succ_of_ne_zero (Nat.ne_of_gt hfuel)
    exact ⟨0, by simp [findFree], fun h => absurd rfl h⟩
  | cons a as ih =>
    obtain ⟨fuel, rfl⟩ := Nat.exists_eq_succ_of_ne_zero (Nat.ne_of_gt (Nat.zero_lt_of_lt hfuel))
    have ha0 : a ≠ 0 := h0 a (by simp)
    rw [headD_cons, findFree, if_neg ha0]
    by_cases hfit : (s.blocks a).magic = cfg.magic ∧ (s.blocks a).used = 0 ∧
        need ≤ (s.blocks a).size
    · exact ⟨a, by rw [if_pos hfit], fun _ => ⟨by simp, hfit.2⟩⟩
    · rw [if_neg hfit]
      have hn : (s.blocks a).next = as.headD 0 := hl.2.1
      have hf : as.length < fuel := by simp only [length_cons] at hfuel; omega
      obtain ⟨b, hb, hspec⟩ := ih hl.2.2 (fun x hx => h0 x (by simp [hx])) hf
      refine ⟨b, by rw [hn]; exact hb, fun hb0 => ?_⟩
      obtain ⟨hm, hu, hsz⟩ := hspec hb0
      exact ⟨by simp [hm], hu, hsz⟩

theorem blockFromPtrGo_linked {a p fuel : ℕ} (hl : Linked (nextOf s) (prevOf s) p as 0)
    (h0 : ∀ x ∈ as, x ≠ 0) (hmagic : ∀ x ∈ as, (s.blocks x).magic = cfg.magic)
    (hpay : ∀ x ∈ as, payload x = x + 32) (ha : a ∈ as) (hu : (s.blocks a).used ≠ 0)
    (hfuel : as.length < fuel) :
    blockFromPtrGo cfg s (a + 32) fuel (as.headD 0) = some a := by
  induction as generalizing p fuel with
  | nil => simp at ha
  | cons b as ih =>
    obtain ⟨fuel, rfl⟩ := Nat.exists_eq_succ_of_ne_zero (Nat.ne_of_gt (Nat.zero_lt_of_lt hfuel))
    rw [headD_cons, blockFromPtrGo, if_neg (h0 b (by simp)),
      if_neg (not_not_intro (hmagic b (by simp))), hpay b (by simp)]
    by_cases hba : b = a
    · subst hba
      rw [if_pos ⟨rfl, hu⟩]
    · have hne : ¬(b + 32 = a + 32 ∧ (s.blocks b).used ≠ 0) := fun hh => hba (by omega)
      have hn : (s.blocks b).next = as.headD 0 := hl.2.1
      rw [if_neg hne, hn]
      exact ih hl.2.2 (fun x hx => h0 x (by simp [hx])) (fun x hx => hmagic x (by simp [hx]))
        (fun x hx => hpay x (by simp [hx])) ((mem_cons.1 ha).resolve_left (Ne.symm hba))
        (by simp only [length_cons] at hfuel; omega)

section

variable (h : HeapInv cfg s as)
include h

section

variable (ha : a ∈ as)
include ha

theorem HeapInv.blockFromPtr_eq
    (hu : (s.blocks a).used ≠ 0) : blockFromPtr cfg s (a + 32) = some a := by
  have hgo := blockFromPtrGo_linked h.list.linked h.list.ne_null h.magic
    (fun x hx => h.payload_eq hx) ha hu h.length_lt
  rw [blockFromPtr, if_neg (by omega), h.list.head_eq]
  exact hgo

theorem HeapInv.splitBlock_eq_self
    (hle : need ≤ (s.blocks a).size) (hroom : ¬ need + 48 < (s.blocks a).size) :
    splitBlock cfg s a need = s := by
  have hhi := h.hi_lt ha
  have ha0 := h.list.ne_null a ha
  have hmod := h.addr_mod a ha
  have hsz := h.size_mod a ha
  have hwrap : (need + headerSize + heapAlign) % sizeMod = need + 48 := by
    rw [headerSize_eq, heapAlign, Nat.mod_eq_of_lt]
    simp only [sizeMod] at *
    omega
  rw [splitBlock, if_pos]
  rw [hwrap]
  omega

theorem HeapInv.split_fields
    (hroom : need + 48 < (s.blocks a).size) : let s' := splitBlock cfg s a need
    let c := splitAddr a need
    s'.chunks = s.chunks ∧ c ∉ as ∧
    (∀ x, (s'.blocks x).size =
      if x = a then need else if x = c then (s.blocks a).size - need - 32 else (s.blocks x).size) ∧
    (∀ x, (s'.blocks x).used = if x = c then 0 else (s.blocks x).used) ∧
    (∀ x, nextOf s' x = if x = a then c else if x = c then nextOf s a else nextOf s x) := by
  have ha0 := h.list.ne_null a ha
  have hcm := h.splitAddr_notMem ha hroom
  have hna : nextOf s a ≠ a := by
    intro hn
    obtain ⟨xs, ys, rfl⟩ := append_of_mem ha
    have hmem := h.list.next_mem (hn.symm ▸ ha0)
    have hnd := h.list.nodup
    rw [nodup_append, nodup_cons] at hnd
    exact hnd.2.1.1 (hn ▸ hmem)
  have hnc : nextOf s a ≠ splitAddr a need := by
    intro hn
    refine hcm (hn ▸ h.next_mem ha ?_)
    rw [hn]
    simp only [splitAddr]
    omega
  obtain ⟨-, -, hchunks, hsize, hused, -, hnext, -⟩ :=
    splitBlock_fields cfg ha0 hroom (h.hi_lt ha) hna hnc
  exact ⟨hchunks, hcm, hsize, hused, hnext⟩

theorem HeapInv.split_spec
    (hneed : need % 16 = 0) (hle : need ≤ (s.blocks a).size) :
    ∃ as', HeapInv cfg (splitBlock cfg s a need) as' ∧ (∀ x ∈ as, x ∈ as') ∧
      need ≤ ((splitBlock cfg s a need).blocks a).size ∧
      ((splitBlock cfg s a need).blocks a).used = (s.blocks a).used ∧
      ∀ x ∈ as, x ≠ a → ((splitBlock cfg s a need).blocks x).size = (s.blocks x).size ∧
        ((splitBlock cfg s a need).blocks x).used = (s.blocks x).used := by
  by_cases hroom : need + 48 < (s.blocks a).size
  · obtain ⟨xs, ys, rfl⟩ := append_of_mem ha
    obtain ⟨-, hcm, hsize, hused, -⟩ := h.split_fields ha hroom
    have hca : a ≠ splitAddr a need := by simp only [splitAddr]; omega
    refine ⟨_, h.split hneed hroom, ?_, ?_, ?_, ?_⟩
    · intro x hx
      simp only [mem_append, mem_cons] at hx ⊢
      tauto
    · rw [hsize, if_pos rfl]
    · rw [hused, if_neg hca]
    · intro x hx hxa
      have hxc : x ≠ splitAddr a need := ne_of_mem_of_not_mem hx hcm
      rw [hsize, hused, if_neg hxa, if_neg hxc, if_neg hxc]
      exact ⟨rfl, rfl⟩
  · rw [h.splitBlock_eq_self ha hle hroom]
    exact ⟨as, h, fun x hx => hx, hle, rfl, fun _ _ _ => ⟨rfl, rfl⟩⟩

theorem HeapInv.take_spec
    (hfree : (s.blocks a).used = 0) (hneed : need % 16 = 0) (hle : need ≤ (s.blocks a).size) :
    ∃ as', HeapInv cfg (take cfg s a need) as' ∧ Keeps s as (take cfg s a need) as' ∧ a ∈ as' ∧
      ((take cfg s a need).blocks a).used ≠ 0 ∧ need ≤ ((take cfg s a need).blocks a).size := by
  obtain ⟨as', hinv, hsub, hroom, -, hothers⟩ := h.split_spec ha hneed hle
  have htake : take cfg s a need = Heap.setUsed (splitBlock cfg s a need) a 1 := rfl
  rw [htake]
  refine ⟨as', hinv.setUsed a 1, ?_, hsub a ha, by simp, by simpa using hroom⟩
  intro x hx hu
  have hxa : x ≠ a := fun hxa => hu (hxa ▸ hfree)
  obtain ⟨hs, hu'⟩ := hothers x hx hxa
  exact ⟨hsub x hx, by rw [used_setUsed_of_ne _ _ hxa, hu']; exact hu, by rw [size_setUsed, hs]⟩

theorem HeapInv.blocksAreAdjacent_iff (hn : nextOf s a ≠ 0) :
    blocksAreAdjacent s a (nextOf s a) = true ↔ (extentOf s a).hi = nextOf s a := by
  have ha0 := h.list.ne_null a ha
  have hhi := h.hi_lt ha
  rw [blocksAreAdjacent, if_neg (by tauto), headerSize_eq, Nat.mod_eq_of_lt hhi, extentOf_hi,
    decide_eq_true_eq]

end

end

/-- A block and its successor can be merged. -/
def Mergeable (s : HeapState) (a : ℕ) : Prop :=
  (s.blocks a).used = 0 ∧ nextOf s a ≠ 0 ∧ (extentOf s a).hi = nextOf s a ∧
    (s.blocks (nextOf s a)).used = 0

section

variable (h : HeapInv cfg s as)
include h

theorem HeapInv.merge_cases (ha : a ∈ as) :
    mergeNext cfg s a = s ∧ ¬ Mergeable s a ∨ Mergeable s a ∧ nextOf s (nextOf s a) ≠ a ∧
        ∃ xs ys, as = xs ++ a :: nextOf s a :: ys := by
  have ha0 := h.list.ne_null a ha
  by_cases hmerge : Mergeable s a
  · obtain ⟨hua, hn0, htouch, huc⟩ := hmerge
    refine .inr ⟨⟨hua, hn0, htouch, huc⟩, ?_⟩
    obtain ⟨xs, ys, rfl⟩ := append_of_mem ha
    have hnext := h.list.linked.next_eq
    cases ys with
    | nil => exact absurd hnext hn0
    | cons c ys =>
      have hac : nextOf s a = c := hnext
      have hlist : DList (nextOf s) (prevOf s) 0 s.head s.tail ((xs ++ [a]) ++ c :: ys) := by
        simpa using h.list
      have hnd := h.list.nodup
      rw [nodup_append, nodup_cons, nodup_cons] at hnd
      rw [hac]
      refine ⟨fun hn => ?_, xs, ys, rfl⟩
      have hm := @DList.next_mem _ _ _ _ _ _ _ _ c hlist (hn.symm ▸ ha0)
      rw [hn] at hm
      exact hnd.2.1.1 (by simp [hm])
  · refine .inl ⟨?_, hmerge⟩
    simp only [mergeNext]
    split
    case isTrue => rfl
    case isFalse hau =>
      rw [if_pos]
      by_contra hnext
      simp only [not_or, not_not, Bool.not_eq_false] at hau hnext
      obtain ⟨hn0, -, huc, hadj⟩ := hnext
      exact hmerge ⟨hau.2, hn0, (h.blocksAreAdjacent_iff ha hn0).1 hadj, huc⟩

theorem HeapInv.merge_fields (ha : a ∈ as)
    (hmerge : Mergeable s a) (hnna : nextOf s (nextOf s a) ≠ a) :
    Merged s a (mergeNext cfg s a) := by
  obtain ⟨hua, hn0, htouch, huc⟩ := hmerge
  have hc := h.next_mem ha hn0
  exact mergeNext_fields cfg (h.list.ne_null a ha) hua hn0 (h.magic _ hc) huc htouch
    (h.hi_lt hc) hnna

theorem HeapInv.merge_spec (ha : a ∈ as) :
    ∃ as', HeapInv cfg (mergeNext cfg s a) as' ∧ a ∈ as' ∧
      (∀ x, ((mergeNext cfg s a).blocks x).used = (s.blocks x).used) ∧
      Keeps s as (mergeNext cfg s a) as' := by
  rcases h.merge_cases ha with ⟨hsame, -⟩ | ⟨hmerge, hnna, xs, ys, hsplit⟩
  · rw [hsame]
    exact ⟨as, h, ha, fun _ => rfl, Keeps.refl s as⟩
  · obtain ⟨-, -, -, hsize, hused, -⟩ := h.merge_fields ha hmerge hnna
    obtain ⟨hua, -, htouch, huc⟩ := hmerge
    have hinv : HeapInv cfg (mergeNext cfg s a) (xs ++ a :: ys) :=
      (hsplit ▸ h).merge hua huc htouch
    refine ⟨xs ++ a :: ys, hinv, by simp, hused, ?_⟩
    intro x hx hu
    have hxa : x ≠ a := fun hxa => hu (hxa ▸ hua)
    have hxc : x ≠ nextOf s a := fun hxc => hu (hxc ▸ huc)
    refine ⟨?_, by rw [hused]; exact hu, by rw [hsize, if_neg hxa]⟩
    rw [hsplit] at hx
    simp only [mem_append, mem_cons] at hx ⊢
    tauto

theorem HeapInv.push_spec (hneed : need ≤ sizeMod - 48) (h0 : reply.base ≠ 0)
    (hfresh : FreshChunk s reply.base (chunkSize cfg need)) :
    ∃ s', requestChunk cfg s need reply = (reply.base, s') ∧ HeapInv cfg s' (as ++ [reply.base]) ∧
      reply.base ∉ as ∧ Keeps s as s' (as ++ [reply.base]) ∧
      (s'.blocks reply.base).used = 0 ∧ need ≤ (s'.blocks reply.base).size := by
  generalize hbase : reply.base = base at *
  obtain ⟨hinv, hnew⟩ := h.push hneed hbase hfresh
  obtain ⟨hroom, -, -⟩ := chunkSize_spec cfg hneed
  have hlt := hfresh.lt
  have htb : s.tail ≠ base := fun ht => hnew (ht ▸ h.list.tail_mem (ht.symm ▸ h0))
  obtain ⟨hfst, -, -, -, hsize, hused, -⟩ :=
    requestChunk_fields cfg need hbase h0 (by omega) (by omega) htb
  refine ⟨_, Prod.ext hfst rfl, hinv, hnew, ?_, by rw [hused, if_pos rfl], ?_⟩
  · intro x hx hu
    have hxb : x ≠ base := ne_of_mem_of_not_mem hx hnew
    exact ⟨by simp [hx], by rw [hused, if_neg hxb]; exact hu, by rw [hsize, if_neg hxb]⟩
  · rw [hsize, if_pos rfl]
    omega

end

theorem alignUp_le_of_le_maxRequest (h : n ≤ maxRequest) :
    n ≤ alignUp n heapAlign ∧ alignUp n heapAlign ≤ sizeMod - 48 := by
  rw [alignUp_eq]
  simp only [maxRequest, sizeMod] at *
  omega

theorem alignUp_ge_of_gt_maxRequest (h : maxRequest < n) (hn : n ≤ sizeMod - 16) :
    sizeMod - 32 ≤ alignUp n heapAlign := by
  rw [alignUp_eq]
  simp only [maxRequest, sizeMod] at *
  omega

theorem HeapInv.findFree_spec (h : HeapInv cfg s as) (need : ℕ) :
    ∃ a, findFree cfg s need listFuel s.head = some a ∧
      (a ≠ 0 → a ∈ as ∧ (s.blocks a).used = 0 ∧ need ≤ (s.blocks a).size) := by
  rw [h.list.head_eq]
  exact findFree_linked h.list.linked h.list.ne_null h.length_lt

theorem HeapInv.findFree_refused (h : HeapInv cfg s as)
    (hn : maxRequest < n) (href : Refused cfg s n reply) :
    findFree cfg s (alignUp n heapAlign) listFuel s.head = some 0 := by
  obtain ⟨-, hle | hnone⟩ := href
  · obtain ⟨a, hfind, hspec⟩ := h.findFree_spec (alignUp n heapAlign)
    by_cases ha : a = 0
    · rw [hfind, ha]
    · obtain ⟨hm, -, hsz⟩ := hspec ha
      have hbig := alignUp_ge_of_gt_maxRequest hn hle
      have hhi := h.hi_lt hm
      simp only [sizeMod] at *
      omega
  · exact hnone

theorem malloc_of_fit (hn : n ≠ 0) (ha : a ≠ 0)
    (hfind : findFree cfg s (alignUp n heapAlign) listFuel s.head = some a) :
    malloc cfg s n reply = some (payload a, take cfg s a (alignUp n heapAlign)) := by
  simp only [malloc, if_neg hn, hfind, bind_eq_bind, bind_some, ne_eq, ha,
    not_false_eq_true, if_true]

theorem malloc_of_no_fit (hn : n ≠ 0)
    (hfind : findFree cfg s (alignUp n heapAlign) listFuel s.head = some 0) : malloc cfg s n reply =
      if (requestChunk cfg s (alignUp n heapAlign) reply).1 = 0 then
        some (0, (requestChunk cfg s (alignUp n heapAlign) reply).2)
      else some (payload (requestChunk cfg s (alignUp n heapAlign) reply).1,
        take cfg (requestChunk cfg s (alignUp n heapAlign) reply).2
          (requestChunk cfg s (alignUp n heapAlign) reply).1 (alignUp n heapAlign)) := by
  simp only [malloc, if_neg hn, hfind, bind_eq_bind, bind_some, ne_eq,
    not_true_eq_false, if_false]

theorem requestChunk_of_base_eq_zero (h : reply.base = 0) :
    requestChunk cfg s need reply = (0, s) := by
  simp only [ChunkReply.base] at h
  simp only [requestChunk, h, if_true]

theorem HeapInv.malloc_spec (h : HeapInv cfg s as)
    (hreply : HonestReply cfg s n reply) (hok : n ≤ maxRequest ∨ Refused cfg s n reply) :
    ∃ p s' as', malloc cfg s n reply = some (p, s') ∧ HeapInv cfg s' as' ∧
      Keeps s as s' as' ∧ Grants s as s' as' p n := by
  have hnull : ∀ p : ℕ, p = 0 → Grants s as s as p n := fun p hp hp0 => absurd hp hp0
  by_cases hn0 : n = 0
  · exact ⟨0, s, as, by rw [malloc, if_pos hn0], h, Keeps.refl s as, hnull 0 rfl⟩
  by_cases hbig : maxRequest < n
  · -- beyond the bound only a refused request is allowed
    have href : Refused cfg s n reply := hok.resolve_left (by omega)
    refine ⟨0, s, as, ?_, h, Keeps.refl s as, hnull 0 rfl⟩
    rw [malloc_of_no_fit hn0 (h.findFree_refused hbig href), requestChunk_of_base_eq_zero href.1]
    simp
  obtain ⟨hle, hneed⟩ := alignUp_le_of_le_maxRequest (Nat.le_of_not_lt hbig)
  have hmod := alignUp_mod n
  obtain ⟨a, hfind, hspec⟩ := h.findFree_spec (alignUp n heapAlign)
  by_cases ha : a = 0
  · subst ha
    by_cases hbase : reply.base = 0
    · refine ⟨0, s, as, ?_, h, Keeps.refl s as, hnull 0 rfl⟩
      rw [malloc_of_no_fit hn0 hfind, requestChunk_of_base_eq_zero hbase]
      simp
    · obtain ⟨s₁, hreq, hinv, hnew, hkeep, hfree, hroom⟩ :=
        h.push_spec hneed hbase (hreply hbase)
      have hm : reply.base ∈ as ++ [reply.base] := by simp
      obtain ⟨as', hinv', hkeep', hm', hused, hroom'⟩ := hinv.take_spec hm hfree hmod hroom
      refine ⟨reply.base + 32, _, as', ?_, hinv', hkeep.trans hkeep',
        fun _ => ⟨by omega, _, hm', rfl, hused, by omega, fun hmem => absurd hmem hnew⟩⟩
      rw [malloc_of_no_fit hn0 hfind, hreq, if_neg hbase, hinv.payload_eq hm]
  · obtain ⟨hm, hfree, hsz⟩ := hspec ha
    obtain ⟨as', hinv, hkeep, hm', hused, hroom⟩ := h.take_spec hm hfree hmod hsz
    refine ⟨a + 32, _, as', ?_, hinv, hkeep,
      fun _ => ⟨by omega, a, hm', rfl, hused, by omega, fun _ => hfree⟩⟩
    rw [malloc_of_fit hn0 ha hfind, h.payload_eq hm]

/-- Used blocks other than `a` survive a step, with their sizes. -/
def KeepsBut (s : HeapState) (as : List ℕ) (a : ℕ) (s' : HeapState) (as' : List ℕ) : Prop :=
  ∀ x ∈ as, x ≠ a → (s.blocks x).used ≠ 0 →
    x ∈ as' ∧ (s'.blocks x).used ≠ 0 ∧ (s'.blocks x).size = (s.blocks x).size

theorem free_zero : free cfg s 0 = some s := rfl

theorem HeapInv.free_spec (h : HeapInv cfg s as) (ha : a ∈ as) (hu : (s.blocks a).used ≠ 0) :
    ∃ s' as', free cfg s (a + 32) = some s' ∧ HeapInv cfg s' as' ∧ KeepsBut s as a s' as' := by
  have ha0 := h.list.ne_null a ha
  have h₁ : HeapInv cfg (Heap.setUsed s a 0) as := h.setUsed a 0
  have hkeep₁ : KeepsBut s as a (Heap.setUsed s a 0) as :=
    fun x hx hxa hux => ⟨hx, by rw [used_setUsed_of_ne _ _ hxa]; exact hux, by simp⟩
  obtain ⟨as₂, h₂, ha₂, -, hkeep₂⟩ := h₁.merge_spec ha
  have hfree : free cfg s (a + 32) =
      some (if ((mergeNext cfg (Heap.setUsed s a 0) a).blocks a).prev ≠ 0 then
        mergeNext cfg (mergeNext cfg (Heap.setUsed s a 0) a)
          ((mergeNext cfg (Heap.setUsed s a 0) a).blocks a).prev
        else mergeNext cfg (Heap.setUsed s a 0) a) := by
    simp only [free, h.blockFromPtr_eq ha hu, bind_eq_bind, bind_some, if_neg ha0]
    rfl
  have hkeep : KeepsBut s as a (mergeNext cfg (Heap.setUsed s a 0) a) as₂ := by
    intro x hx hxa hux
    obtain ⟨hx₁, hu₁, hs₁⟩ := hkeep₁ x hx hxa hux
    obtain ⟨hx₂, hu₂, hs₂⟩ := hkeep₂ x hx₁ hu₁
    exact ⟨hx₂, hu₂, hs₂.trans hs₁⟩
  rw [hfree]
  generalize mergeNext cfg (Heap.setUsed s a 0) a = s₂ at *
  by_cases hp : (s₂.blocks a).prev ≠ 0
  · have hpm : (s₂.blocks a).prev ∈ as₂ := by
      obtain ⟨xs, ys, rfl⟩ := append_of_mem ha₂
      have := h₂.list.prev_mem hp
      simp [this]
    obtain ⟨as₃, h₃, -, -, hkeep₃⟩ := h₂.merge_spec hpm
    rw [if_pos hp]
    refine ⟨_, as₃, rfl, h₃, ?_⟩
    intro x hx hxa hux
    obtain ⟨hx₂, hu₂, hs₂⟩ := hkeep x hx hxa hux
    obtain ⟨hx₃, hu₃, hs₃⟩ := hkeep₃ x hx₂ hu₂
    exact ⟨hx₃, hu₃, hs₃.trans hs₂⟩
  · rw [if_neg hp]
    exact ⟨_, as₂, rfl, h₂, hkeep⟩

theorem HeapInv.withBytes (h : HeapInv cfg s as) (f : ℕ → UInt8) :
    HeapInv cfg { s with bytes := f } as :=
  ⟨h.list, h.addr_mod, h.size_mod, h.magic, h.apart, h.inside, h.seam, h.tail_end,
    h.regions_apart, h.regions_pos, h.regions_lt⟩

/-- The bytes a `calloc` asks `malloc` for; `0` when it does not ask. -/
def callocBytes (count size : ℕ) : ℕ := if count * size < sizeMod then count * size else 0

theorem calloc_guard {count size : ℕ} (hsize : size ≠ 0) :
    count > (sizeMod - 1) / size ↔ sizeMod ≤ count * size := by
  rw [gt_iff_lt, Nat.div_lt_iff_lt_mul (Nat.pos_of_ne_zero hsize)]
  simp only [sizeMod]
  omega

theorem calloc_eq (cfg : HeapConfig) (s : HeapState) (count size : ℕ) (reply : ChunkReply) :
    calloc cfg s count size reply =
      if count = 0 ∨ size = 0 ∨ sizeMod ≤ count * size then some (0, s)
      else (malloc cfg s (callocBytes count size) reply).map fun r =>
        if r.1 = 0 then (0, r.2) else (r.1, zeroBytes r.2 r.1 (count * size)) := by
  rw [calloc]
  by_cases hz : count = 0 ∨ size = 0
  · rw [if_pos hz, if_pos (by tauto)]
  have hguard := @calloc_guard count size fun h0 => hz (.inr h0)
  rw [if_neg hz]
  by_cases hover : sizeMod ≤ count * size
  · rw [if_pos (hguard.2 hover), if_pos (.inr (.inr hover))]
  · have hlt := Nat.lt_of_not_le hover
    rw [if_neg (mt hguard.1 hover), if_neg (by tauto), callocBytes, if_pos hlt]
    dsimp only
    rw [Nat.mod_eq_of_lt hlt, bind_eq_bind]
    cases malloc cfg s (count * size) reply with
    | none => rfl
    | some r => exact (apply_ite some (r.1 = 0) _ _).symm

theorem HeapInv.calloc_spec (h : HeapInv cfg s as) {count size : ℕ}
    (hreply : HonestReply cfg s (callocBytes count size) reply)
    (hok : callocBytes count size ≤ maxRequest ∨ Refused cfg s (callocBytes count size) reply) :
    ∃ p s' as', calloc cfg s count size reply = some (p, s') ∧ HeapInv cfg s' as' ∧
      Keeps s as s' as' ∧ Grants s as s' as' p (count * size) := by
  rw [calloc_eq]
  split
  · exact ⟨0, s, as, rfl, h, Keeps.refl s as, fun hp => absurd rfl hp⟩
  · rename_i hcall
    have hlt : count * size < sizeMod := by omega
    obtain ⟨p, s', as', hmalloc, hinv, hkeep, hgrant⟩ := h.malloc_spec hreply hok
    rw [callocBytes, if_pos hlt] at hgrant
    rw [hmalloc, map_some]
    by_cases hp : p = 0
    · exact ⟨0, s', as', by rw [if_pos hp], hinv, hkeep, fun h0 => absurd rfl h0⟩
    · exact ⟨p, _, as', by rw [if_neg hp]; rfl,
        hinv.withBytes (zeroBytes s' p (count * size)).bytes, hkeep, hgrant⟩

theorem alignUp_alignUp (n : ℕ) : alignUp (alignUp n heapAlign) heapAlign = alignUp n heapAlign := by
  refine alignUp_of_mod (alignUp_mod n) ?_
  rw [alignUp_eq]
  simp only [sizeMod]
  omega

theorem mergeNext_of_used (hu : (s.blocks a).used ≠ 0) : mergeNext cfg s a = s := by
  rw [mergeNext, if_pos (.inr hu)]

theorem HeapInv.realloc_eq (h : HeapInv cfg s as) (ha : a ∈ as)
    (hu : (s.blocks a).used ≠ 0) (hn : n ≠ 0) : realloc cfg s (a + 32) n reply =
      if alignUp n heapAlign ≤ (s.blocks a).size then
        some (a + 32, splitBlock cfg s a (alignUp n heapAlign))
      else (malloc cfg s (alignUp n heapAlign) reply).bind fun r => if r.1 = 0 then some (0, r.2)
        else (free cfg (copyBytes r.2 r.1 (a + 32) (s.blocks a).size) (a + 32)).bind fun s' =>
          some (r.1, s') := by
  have ha0 := h.list.ne_null a ha
  by_cases hfit : alignUp n heapAlign ≤ (s.blocks a).size
  · simp only [realloc, if_neg (Nat.succ_ne_zero (a + 31)), if_neg hn, h.blockFromPtr_eq ha hu,
      bind_eq_bind, bind_some, if_neg ha0, ge_iff_le, if_pos hfit]
  · have hold : (s.blocks a).size < alignUp n heapAlign := Nat.lt_of_not_le hfit
    simp only [realloc, if_neg (Nat.succ_ne_zero (a + 31)), if_neg hn, h.blockFromPtr_eq ha hu,
      bind_eq_bind, bind_some, if_neg ha0, ge_iff_le, if_neg hfit,
      mergeNext_of_used hu, ite_self, if_pos hold]
    exact if_neg (fun hh => hfit hh.2)

theorem HeapInv.realloc_spec (h : HeapInv cfg s as) (ha : a ∈ as)
    (hu : (s.blocks a).used ≠ 0) (hn : n ≠ 0) (hreply : HonestReply cfg s n reply)
    (hok : n ≤ maxRequest ∨ n ≤ sizeMod - 16 ∧ reply.base = 0) :
    ∃ p s' as', realloc cfg s (a + 32) n reply = some (p, s') ∧ HeapInv cfg s' as' ∧
      KeepsBut s as a s' as' ∧ (p = 0 → Keeps s as s' as') ∧
      (p ≠ 0 → ∃ b ∈ as', p = b + 32 ∧ (s'.blocks b).used ≠ 0 ∧ n ≤ (s'.blocks b).size ∧
        (b ∈ as → b ≠ a → (s.blocks b).used = 0)) := by
  have hle : n ≤ alignUp n heapAlign := (le_alignUp (by simp only [maxRequest] at hok; omega)).1
  rw [h.realloc_eq ha hu hn]
  by_cases hfit : alignUp n heapAlign ≤ (s.blocks a).size
  · obtain ⟨as', hinv, hsub, hroom, hused, hothers⟩ := h.split_spec ha (alignUp_mod n) hfit
    rw [if_pos hfit]
    refine ⟨a + 32, _, as', rfl, hinv, ?_, fun h0 => absurd h0 (by omega), fun _ =>
      ⟨a, hsub a ha, rfl, by rw [hused]; exact hu, by omega, fun _ hb => absurd rfl hb⟩⟩
    intro x hx hxa hux
    obtain ⟨hs, hu'⟩ := hothers x hx hxa
    exact ⟨hsub x hx, by rw [hu']; exact hux, hs⟩
  rw [if_neg hfit]
  have hreply' : HonestReply cfg s (alignUp n heapAlign) reply := by
    simpa only [HonestReply, alignUp_alignUp] using hreply
  have hok' : alignUp n heapAlign ≤ maxRequest ∨ Refused cfg s (alignUp n heapAlign) reply := by
    rcases hok with hsmall | ⟨-, hbase⟩
    · exact .inl (alignUp_le_of_le_maxRequest hsmall).2
    · refine .inr ⟨hbase, .inl ?_⟩
      rw [alignUp_eq]
      simp only [sizeMod]
      omega
  obtain ⟨p, s₁, as₁, hmalloc, h₁, hkeep₁, hgrant⟩ := h.malloc_spec hreply' hok'
  simp only [hmalloc, bind_some]
  by_cases hp : p = 0
  · rw [if_pos hp]
    exact ⟨0, s₁, as₁, rfl, h₁, fun x hx _ hux => hkeep₁ x hx hux, fun _ => hkeep₁,
      fun h0 => absurd rfl h0⟩
  · obtain ⟨-, b, hb, hpb, hub, hsb, hnew⟩ := hgrant hp
    obtain ⟨ha₁, hu₁, -⟩ := hkeep₁ a ha hu
    have hba : b ≠ a := by
      intro hba
      exact hu (hba ▸ hnew (hba ▸ ha))
    have hcopy := h₁.withBytes (copyBytes s₁ p (a + 32) (s.blocks a).size).bytes
    obtain ⟨s₂, as₂, hfree, h₂, hkeep₂⟩ := hcopy.free_spec ha₁ hu₁
    obtain ⟨hb₂, hub₂, hsb₂⟩ := hkeep₂ b hb hba hub
    rw [if_neg hp]
    refine ⟨p, s₂, as₂, by rw [bind_eq_some_iff]; exact ⟨s₂, hfree, rfl⟩, h₂, ?_, fun h0 => absurd h0 hp, fun _ => ⟨b, hb₂, hpb, hub₂, ?_, ?_⟩⟩
    · intro x hx hxa hux
      obtain ⟨hx₁, hux₁, hsx₁⟩ := hkeep₁ x hx hux
      obtain ⟨hx₂, hux₂, hsx₂⟩ := hkeep₂ x hx₁ hxa hux₁
      exact ⟨hx₂, hux₂, hsx₂.trans hsx₁⟩
    · rw [hsb₂]
      exact hle.trans hsb
    · exact fun hbs _ => hnew hbs

end Cleonos.Heap
