import Cleonos.Heap.Safety
import Cleonos.Heap.Contents

/-!
# Free neighbours are merged

No two blocks of a chunk that touch are both free, in runs in which no block is cut in front of a
free neighbour.
-/

namespace Cleonos.Heap

open List Option

variable {cfg : HeapConfig} {s s' : HeapState} {as as' xs ys : List ℕ} {a c f n x y need : ℕ}
  {reply : ChunkReply} {P : ℕ → Prop}

/-- A chunk begins at this address. -/
def StartsChunk (s : HeapState) (y : ℕ) : Prop := ∃ k ∈ s.chunks, k.lo = y

/-- If a block and its successor touch and are both free, a chunk begins between them. -/
def Good (s : HeapState) (x : ℕ) : Prop := Mergeable s x → StartsChunk s (nextOf s x)

/-- All pairs of neighbours are good, but for those at some blocks. -/
def CoalescedBut (s : HeapState) (as : List ℕ) (P : ℕ → Prop) : Prop :=
  ∀ x ∈ as, ¬ P x → Good s x

/-- All pairs of neighbours are good. -/
def Coalesced (s : HeapState) (as : List ℕ) : Prop := ∀ x ∈ as, Good s x

/-- Blocks end where the next one or where a chunk ends, and chunks do not overlap. -/
structure Tiled (s : HeapState) (as : List ℕ) : Prop where
  ends : ∀ x ∈ as, (nextOf s x ≠ 0 ∧ (extentOf s x).hi = nextOf s x) ∨
    ∃ k ∈ s.chunks, (extentOf s x).hi = k.hi
  apart : s.chunks.Pairwise Extent.Apart
  pos : ∀ k ∈ s.chunks, k.lo < k.hi

/-! ## The helpers -/

theorem HeapInv.split_coalesced (h : HeapInv cfg s (xs ++ a :: ys))
    (hroom : need + 48 < (s.blocks a).size) (hall : CoalescedBut s (xs ++ a :: ys) (· = a))
    (hnext : nextOf s a ≠ 0 → (extentOf s a).hi = nextOf s a →
      (s.blocks (nextOf s a)).used = 0 → StartsChunk s (nextOf s a)) :
    CoalescedBut (splitBlock cfg s a need) (xs ++ a :: splitAddr a need :: ys) (· = a) := by
  have ha : a ∈ xs ++ a :: ys := by simp
  obtain ⟨hchunks, hcm, hsize, hused, hnexts⟩ := h.split_fields ha hroom
  have hca : splitAddr a need ≠ a := by simp only [splitAddr]; omega
  intro x hx hxa
  by_cases hxc : x = splitAddr a need
  · subst hxc
    intro hmerge
    obtain ⟨-, hn0, htouch, hfree⟩ := hmerge
    rw [extentOf_hi, hsize, if_neg hca, if_pos rfl] at htouch
    rw [hnexts, if_neg hca, if_pos rfl] at hn0 htouch hfree ⊢
    have hnc : nextOf s a ≠ splitAddr a need := fun hn => hcm (hn ▸ h.next_mem ha hn0)
    rw [hused, if_neg hnc] at hfree
    obtain ⟨k, hk, hlo⟩ := hnext hn0 (by simp only [extentOf_hi, splitAddr] at *; omega) hfree
    exact ⟨k, hchunks ▸ hk, hlo⟩
  · have hxold : x ∈ xs ++ a :: ys := by
      simp only [mem_append, mem_cons] at hx ⊢
      tauto
    intro hmerge
    obtain ⟨hfree, hn0, htouch, hfree'⟩ := hmerge
    rw [extentOf_hi, hsize, if_neg hxa, if_neg hxc] at htouch
    rw [hused, if_neg hxc] at hfree
    rw [hnexts, if_neg hxa, if_neg hxc] at hn0 htouch hfree' ⊢
    have hnc : nextOf s x ≠ splitAddr a need := fun hn => hcm (hn ▸ h.next_mem hxold hn0)
    rw [hused, if_neg hnc] at hfree'
    obtain ⟨k, hk, hlo⟩ := hall x hxold hxa ⟨hfree, hn0, htouch, hfree'⟩
    exact ⟨k, hchunks ▸ hk, hlo⟩

theorem HeapInv.split_tiled (h : HeapInv cfg s (xs ++ a :: ys))
    (hroom : need + 48 < (s.blocks a).size) (ht : Tiled s (xs ++ a :: ys)) :
    Tiled (splitBlock cfg s a need) (xs ++ a :: splitAddr a need :: ys) := by
  have ha : a ∈ xs ++ a :: ys := by simp
  obtain ⟨hchunks, hcm, hsize, -, hnexts⟩ := h.split_fields ha hroom
  have hca : splitAddr a need ≠ a := by simp only [splitAddr]; omega
  refine ⟨fun x hx => ?_, hchunks ▸ ht.apart, hchunks ▸ ht.pos⟩
  rw [extentOf_hi, hsize, hnexts, hchunks]
  by_cases hxa : x = a
  · subst hxa
    rw [if_pos rfl, if_pos rfl]
    exact .inl ⟨by simp only [splitAddr]; omega, rfl⟩
  by_cases hxc : x = splitAddr a need
  · have hend : x + 32 + ((s.blocks a).size - need - 32) = (extentOf s a).hi := by
      simp only [extentOf_hi, hxc, splitAddr]
      omega
    rw [if_neg hxa, if_pos hxc, if_neg hxa, if_pos hxc, hend]
    exact ht.ends a ha
  · rw [if_neg hxa, if_neg hxc, if_neg hxa, if_neg hxc]
    refine ht.ends x ?_
    simp only [mem_append, mem_cons] at hx ⊢
    tauto

theorem HeapInv.merge_coalesced (h : HeapInv cfg s as) (ha : a ∈ as)
    (hall : CoalescedBut s as fun x => x = a ∨ P x) (hP : Mergeable s a → ¬ P (nextOf s a))
    (ht : Tiled s as) :
    ∃ as', HeapInv cfg (mergeNext cfg s a) as' ∧ CoalescedBut (mergeNext cfg s a) as' P ∧
      Tiled (mergeNext cfg s a) as' ∧ a ∈ as' ∧ (∀ x ∈ as', x ∈ as) ∧
      (∀ x, ((mergeNext cfg s a).blocks x).used = (s.blocks x).used) ∧
      (∀ x ∈ as, (s.blocks x).used ≠ 0 → x ∈ as') ∧
      prevOf (mergeNext cfg s a) a = prevOf s a := by
  rcases h.merge_cases ha with ⟨hsame, hnot⟩ | ⟨hmerge, hnna, xs, ys, rfl⟩
  · rw [hsame]
    refine ⟨as, h, fun x hx hPx => ?_, ht, ha, fun x hx => hx, fun _ => rfl, fun x hx _ => hx, rfl⟩
    by_cases hxa : x = a
    · exact fun hm => absurd (hxa ▸ hm) hnot
    · exact hall x hx (by tauto)
  · obtain ⟨-, -, hchunks, hsize, hused, -, hnexts, hprevs⟩ := h.merge_fields ha hmerge hnna
    have hmerge' := hmerge
    obtain ⟨hua, hn0, htouch, huc⟩ := hmerge'
    generalize hc : nextOf s a = c at *
    have hcm : c ∈ xs ++ a :: c :: ys := by simp
    have hca : c ≠ a := by
      intro hca
      have hnd := h.list.nodup
      rw [nodup_append, nodup_cons] at hnd
      exact hnd.2.1.1 (by simp [hca])
    have hend : a + 32 + ((s.blocks a).size + 32 + (s.blocks c).size) = (extentOf s c).hi := by
      simp only [extentOf_hi] at *
      omega
    have hsub : ∀ x ∈ xs ++ a :: ys, x ∈ xs ++ a :: c :: ys := by
      intro x hx
      simp only [mem_append, mem_cons] at hx ⊢
      tauto
    refine ⟨xs ++ a :: ys, h.merge hua huc htouch, fun x hx hPx hm => ?_,
      ⟨fun x hx => ?_, hchunks ▸ ht.apart, hchunks ▸ ht.pos⟩, by simp, hsub, hused,
      fun x hx hu => ?_, ?_⟩
    · obtain ⟨hfree, hn, htouch', hfree'⟩ := hm
      rw [extentOf_hi, hsize] at htouch'
      rw [hused] at hfree hfree'
      rw [hnexts] at hn htouch' hfree' ⊢
      rw [StartsChunk, hchunks]
      by_cases hxa : x = a
      · rw [if_pos hxa] at hn htouch' hfree' ⊢
        rw [hxa, if_pos rfl, hend] at htouch'
        exact hall c hcm (by tauto) ⟨huc, hn, htouch', hfree'⟩
      · rw [if_neg hxa] at hn htouch' hfree' ⊢
        rw [if_neg hxa] at htouch'
        exact hall x (hsub x hx) (by tauto) ⟨hfree, hn, htouch', hfree'⟩
    · rw [extentOf_hi, hsize, hnexts, hchunks]
      by_cases hxa : x = a
      · rw [if_pos hxa, if_pos hxa, hxa, hend]
        exact ht.ends c hcm
      · rw [if_neg hxa, if_neg hxa]
        exact ht.ends x (hsub x hx)
    · have hxc : x ≠ c := fun hxc => hu (hxc ▸ huc)
      simp only [mem_append, mem_cons] at hx ⊢
      tauto
    · rw [hprevs, if_neg (fun hh => hnna hh.1.symm)]

theorem HeapInv.push_coalesced (h : HeapInv cfg s as) (hneed : need ≤ sizeMod - 48)
    (h0 : reply.base ≠ 0) (hfresh : FreshChunk s reply.base (chunkSize cfg need))
    (hall : Coalesced s as) (ht : Tiled s as) :
    Coalesced (requestChunk cfg s need reply).2 (as ++ [reply.base]) ∧
      Tiled (requestChunk cfg s need reply).2 (as ++ [reply.base]) := by
  have hbase : (if reply.vmAlloc ≠ 0 then reply.vmAlloc else reply.userHeapAlloc) = reply.base := rfl
  obtain ⟨-, hnew⟩ := h.push hneed hbase hfresh
  obtain ⟨hroom, -, -⟩ := chunkSize_spec cfg hneed
  have hlt := hfresh.lt
  have htb : s.tail ≠ reply.base := fun ht => hnew (ht ▸ h.list.tail_mem (ht.symm ▸ h0))
  obtain ⟨-, -, -, hchunks, hsize, hused, -, hnexts, -⟩ :=
    requestChunk_fields cfg need hbase h0 (by omega) (by omega) htb
  generalize (requestChunk cfg s need reply).2 = s' at *
  generalize reply.base = base at *
  have hstart : StartsChunk s' base := ⟨_, hchunks ▸ mem_cons_self, rfl⟩
  have hlast : s.tail ≠ 0 → nextOf s s.tail = 0 := by
    intro htail
    obtain ⟨xs, ys, hsplit⟩ := append_of_mem (h.list.tail_mem htail)
    exact (hsplit ▸ h.list).next_eq_null_iff.2 rfl
  constructor
  · intro x hx hm
    obtain ⟨hfree, hn, htouch, hfree'⟩ := hm
    by_cases hxb : x = base
    · rw [hnexts, if_pos hxb] at hn
      exact absurd rfl hn
    have hxm : x ∈ as := by
      rw [mem_append, mem_singleton] at hx
      exact hx.resolve_right hxb
    by_cases hxt : x = s.tail ∧ s.tail ≠ 0
    · rw [hnexts, if_neg hxb, if_pos hxt]
      exact hstart
    · rw [extentOf_hi, hsize, if_neg hxb] at htouch
      rw [hused, if_neg hxb] at hfree
      rw [hnexts, if_neg hxb, if_neg hxt] at hn htouch hfree' ⊢
      have hnb : nextOf s x ≠ base := fun hnb => hnew (hnb ▸ h.next_mem hxm hn)
      rw [hused, if_neg hnb] at hfree'
      obtain ⟨k, hk, hlo⟩ := hall x hxm ⟨hfree, hn, htouch, hfree'⟩
      exact ⟨k, hchunks ▸ mem_cons_of_mem _ hk, hlo⟩
  · refine ⟨fun x hx => ?_, ?_, ?_⟩
    · rw [extentOf_hi, hsize, hnexts, hchunks]
      by_cases hxb : x = base
      · refine .inr ⟨_, mem_cons_self, ?_⟩
        rw [if_pos hxb, hxb]
        dsimp only
        omega
      have hxm : x ∈ as := by
        rw [mem_append, mem_singleton] at hx
        exact hx.resolve_right hxb
      rw [if_neg hxb, if_neg hxb]
      by_cases hxt : x = s.tail ∧ s.tail ≠ 0
      · rcases ht.ends x hxm with ⟨hn, -⟩ | ⟨k, hk, hend⟩
        · exact absurd (hxt.1 ▸ hlast hxt.2) hn
        · exact .inr ⟨k, mem_cons_of_mem _ hk, hend⟩
      · rw [if_neg hxt]
        rcases ht.ends x hxm with hnext | ⟨k, hk, hend⟩
        · exact .inl hnext
        · exact .inr ⟨k, mem_cons_of_mem _ hk, hend⟩
    · rw [hchunks]
      exact pairwise_cons.2 ⟨fun k hk => (hfresh.apart k hk).symm, ht.apart⟩
    · rw [hchunks]
      intro k hk
      rcases mem_cons.1 hk with rfl | hk
      · dsimp only
        omega
      · exact ht.pos k hk

theorem Coalesced.but (h : Coalesced s as) (P : ℕ → Prop) : CoalescedBut s as P :=
  fun x hx _ => h x hx

theorem Tiled.setUsed (h : Tiled s as) (a v : ℕ) : Tiled (Heap.setUsed s a v) as := by
  refine ⟨fun x hx => ?_, h.apart, h.pos⟩
  have hends := h.ends x hx
  simpa [nextOf] using hends

theorem CoalescedBut.setUsed_one (h : CoalescedBut s as (· = a)) :
    Coalesced (Heap.setUsed s a 1) as := by
  intro x hx hm
  obtain ⟨hfree, hn, htouch, hfree'⟩ := hm
  have hnext : nextOf (Heap.setUsed s a 1) x = nextOf s x := next_setUsed s a 1 x
  rw [extentOf_setUsed] at htouch
  rw [hnext] at hn htouch hfree' ⊢
  have hxa : x ≠ a := by
    rintro rfl
    simp at hfree
  have hna : nextOf s x ≠ a := by
    intro hna
    rw [hna] at hfree'
    simp at hfree'
  rw [used_setUsed_of_ne _ _ hxa] at hfree
  rw [used_setUsed_of_ne _ _ hna] at hfree'
  exact h x hx hxa ⟨hfree, hn, htouch, hfree'⟩

theorem HeapInv.take_coalesced (h : HeapInv cfg s as) (ha : a ∈ as)
    (hfree : (s.blocks a).used = 0) (hmod : need % 16 = 0) (hle : need ≤ (s.blocks a).size)
    (hall : Coalesced s as) (ht : Tiled s as) :
    ∃ as', HeapInv cfg (take cfg s a need) as' ∧ Coalesced (take cfg s a need) as' ∧
      Tiled (take cfg s a need) as' := by
  have htake : take cfg s a need = Heap.setUsed (splitBlock cfg s a need) a 1 := rfl
  rw [htake]
  by_cases hroom : need + 48 < (s.blocks a).size
  · obtain ⟨xs, ys, rfl⟩ := append_of_mem ha
    have hsplit := h.split_coalesced hroom (hall.but _)
      fun hn htouch hfree' => hall a ha ⟨hfree, hn, htouch, hfree'⟩
    exact ⟨_, (h.split hmod hroom).setUsed a 1, hsplit.setUsed_one,
      (h.split_tiled hroom ht).setUsed a 1⟩
  · rw [h.splitBlock_eq_self ha hle hroom]
    exact ⟨as, h.setUsed a 1, (hall.but _).setUsed_one, ht.setUsed a 1⟩

theorem findFree_eq_zero {p fuel : ℕ} (hl : Linked (nextOf s) (prevOf s) p as 0)
    (h0 : ∀ x ∈ as, x ≠ 0) (hmagic : ∀ x ∈ as, (s.blocks x).magic = cfg.magic)
    (hfuel : as.length < fuel) (hfind : findFree cfg s need fuel (as.headD 0) = some 0) :
    ∀ x ∈ as, (s.blocks x).used = 0 → (s.blocks x).size < need := by
  induction as generalizing p fuel with
  | nil => simp
  | cons a as ih =>
    obtain ⟨fuel, rfl⟩ := Nat.exists_eq_succ_of_ne_zero (Nat.ne_of_gt (Nat.zero_lt_of_lt hfuel))
    have ha0 : a ≠ 0 := h0 a (by simp)
    have hn : (s.blocks a).next = as.headD 0 := hl.2.1
    rw [headD_cons, findFree, if_neg ha0, hn] at hfind
    split at hfind
    case isTrue =>
      cases hfind
      exact absurd rfl ha0
    case isFalse hfit =>
      intro x hx hfree
      rcases mem_cons.1 hx with rfl | hx
      · by_contra hle
        exact hfit ⟨hmagic x (by simp), hfree, by omega⟩
      · exact ih hl.2.2 (fun x hx => h0 x (by simp [hx])) (fun x hx => hmagic x (by simp [hx]))
          (by simp only [length_cons] at hfuel; omega) hfind x hx hfree

theorem blockFromPtrGo_spec {ptr p fuel : ℕ} (hl : Linked (nextOf s) (prevOf s) p as 0)
    (h0 : ∀ x ∈ as, x ≠ 0) (hpay : ∀ x ∈ as, payload x = x + 32) (hfuel : as.length < fuel) :
    ∃ b, blockFromPtrGo cfg s ptr fuel (as.headD 0) = some b ∧
      (b ≠ 0 → b ∈ as ∧ (s.blocks b).used ≠ 0 ∧ ptr = b + 32) := by
  induction as generalizing p fuel with
  | nil =>
    obtain ⟨fuel, rfl⟩ := Nat.exists_eq_succ_of_ne_zero (Nat.ne_of_gt hfuel)
    exact ⟨0, by simp [blockFromPtrGo], fun h => absurd rfl h⟩
  | cons a as ih =>
    obtain ⟨fuel, rfl⟩ := Nat.exists_eq_succ_of_ne_zero (Nat.ne_of_gt (Nat.zero_lt_of_lt hfuel))
    have hn : (s.blocks a).next = as.headD 0 := hl.2.1
    rw [headD_cons, blockFromPtrGo, if_neg (h0 a (by simp)), hpay a (by simp), hn]
    split
    case isTrue => exact ⟨0, rfl, fun h => absurd rfl h⟩
    case isFalse =>
      split
      case isTrue hfound => exact ⟨a, rfl, fun _ => ⟨by simp, hfound.2, hfound.1.symm⟩⟩
      case isFalse =>
        have hfuel' : as.length < fuel := by
          simp only [length_cons] at hfuel
          omega
        obtain ⟨b, hb, hspec⟩ := ih hl.2.2 (fun x hx => h0 x (by simp [hx]))
          (fun x hx => hpay x (by simp [hx])) hfuel'
        refine ⟨b, hb, fun hb0 => ?_⟩
        have hb' := hspec hb0
        exact ⟨by simp [hb'.1], hb'.2⟩

theorem HeapInv.blockFromPtr_spec (h : HeapInv cfg s as) (ptr : ℕ) :
    ∃ b, blockFromPtr cfg s ptr = some b ∧
      (b ≠ 0 → b ∈ as ∧ (s.blocks b).used ≠ 0 ∧ ptr = b + 32) := by
  rw [blockFromPtr]
  split
  case isTrue => exact ⟨0, rfl, fun h => absurd rfl h⟩
  case isFalse =>
    rw [h.list.head_eq]
    exact blockFromPtrGo_spec h.list.linked h.list.ne_null (fun x hx => h.payload_eq hx)
      h.length_lt

theorem HeapInv.prev_of_next (h : HeapInv cfg s as) (hx : x ∈ as) (hn : nextOf s x = a)
    (ha : a ≠ 0) : prevOf s a = x := by
  obtain ⟨xs, ys, rfl⟩ := append_of_mem hx
  have hnext := h.list.linked.next_eq
  rw [hn] at hnext
  cases ys with
  | nil => exact absurd hnext ha
  | cons b ys =>
    obtain rfl : a = b := hnext
    have hlinked : Linked (nextOf s) (prevOf s) 0 ((xs ++ [x]) ++ a :: ys) 0 := by
      simpa using h.list.linked
    simpa using hlinked.prev_eq

theorem HeapInv.next_ne_prev (h : HeapInv cfg s as) (ha : a ∈ as) (hn : nextOf s a ≠ 0) :
    nextOf s a ≠ prevOf s a := by
  intro heq
  obtain ⟨xs, ys, rfl⟩ := append_of_mem ha
  have hnext := h.list.next_mem hn
  have hprev := h.list.prev_mem (heq ▸ hn)
  have hnd := h.list.nodup
  rw [nodup_append] at hnd
  exact hnd.2.2 _ hprev _ (mem_cons_of_mem _ (heq ▸ hnext)) rfl

/-- The bounds within which no sum of a request for `n` bytes wraps on the way to a block: small, or
so large that it is rounded to nothing, or refused. -/
def InRange (n : ℕ) (reply : ChunkReply) : Prop :=
  n ≤ maxRequest ∨ sizeMod - 16 < n ∨ reply.base = 0

section

variable (h : HeapInv cfg s as)
include h

theorem HeapInv.malloc_coalesced (hall : Coalesced s as)
    (ht : Tiled s as) (hn : n < sizeMod) (hreply : HonestReply cfg s n reply)
    (hrange : InRange n reply) :
    ∃ p s' as', malloc cfg s n reply = some (p, s') ∧ HeapInv cfg s' as' ∧ Coalesced s' as' ∧
      Tiled s' as' ∧ (p = 0 → n = 0 ∨ reply.base = 0 ∧
        ∀ x ∈ as, (s.blocks x).used = 0 → (s.blocks x).size < alignUp n heapAlign) := by
  by_cases hn0 : n = 0
  · exact ⟨0, s, as, by rw [malloc, if_pos hn0], h, hall, ht, fun _ => .inl hn0⟩
  have hmod := alignUp_mod n
  obtain ⟨f, hfind, hspec⟩ := h.findFree_spec (alignUp n heapAlign)
  by_cases hf : f = 0
  · subst hf
    have hnone := findFree_eq_zero h.list.linked h.list.ne_null h.magic h.length_lt
      (h.list.head_eq ▸ hfind)
    by_cases hbase : reply.base = 0
    · refine ⟨0, s, as, ?_, h, hall, ht, fun _ => .inr ⟨hbase, hnone⟩⟩
      rw [malloc_of_no_fit hn0 hfind, requestChunk_of_base_eq_zero hbase]
      simp
    · have hneed : alignUp n heapAlign ≤ sizeMod - 48 := by
        rcases hrange with hsmall | hlarge | href
        · exact (alignUp_le_of_le_maxRequest hsmall).2
        · rw [alignUp_eq]
          simp only [sizeMod] at *
          omega
        · exact absurd href hbase
      obtain ⟨s₁, hreq, hinv, -, -, hfree, hroom⟩ := h.push_spec hneed hbase (hreply hbase)
      have hpush := h.push_coalesced hneed hbase (hreply hbase) hall ht
      rw [hreq] at hpush
      have hm : reply.base ∈ as ++ [reply.base] := by simp
      obtain ⟨as', hinv', hall', ht'⟩ := hinv.take_coalesced hm hfree hmod hroom hpush.1 hpush.2
      refine ⟨reply.base + 32, _, as', ?_, hinv', hall', ht', fun h0 => absurd h0 (by omega)⟩
      rw [malloc_of_no_fit hn0 hfind, hreq, if_neg hbase, hinv.payload_eq hm]
  · obtain ⟨hm, hfree, hsz⟩ := hspec hf
    obtain ⟨as', hinv', hall', ht'⟩ := h.take_coalesced hm hfree hmod hsz hall ht
    refine ⟨f + 32, _, as', ?_, hinv', hall', ht', fun h0 => absurd h0 (by omega)⟩
    rw [malloc_of_fit hn0 hf hfind, h.payload_eq hm]

theorem HeapInv.free_coalesced (hall : Coalesced s as) (ht : Tiled s as)
    (ptr : ℕ) :
    ∃ s' as', free cfg s ptr = some s' ∧ HeapInv cfg s' as' ∧ Coalesced s' as' ∧
      Tiled s' as' := by
  obtain ⟨a, hfind, hspec⟩ := h.blockFromPtr_spec ptr
  by_cases ha0 : a = 0
  · refine ⟨s, as, ?_, h, hall, ht⟩
    rw [free, hfind, ha0]
    rfl
  obtain ⟨ha, -, -⟩ := hspec ha0
  have h₁ : HeapInv cfg (Heap.setUsed s a 0) as := h.setUsed a 0
  have hprev₁ : prevOf (Heap.setUsed s a 0) a = prevOf s a := prev_setUsed s a 0 a
  -- only the pairs at the block and at its predecessor change
  have hall₁ : CoalescedBut (Heap.setUsed s a 0) as fun x => x = a ∨ x = prevOf s a := by
    intro x hx hne hm
    obtain ⟨hfree, hn, htouch, hfree'⟩ := hm
    have hnext : nextOf (Heap.setUsed s a 0) x = nextOf s x := next_setUsed s a 0 x
    rw [extentOf_setUsed] at htouch
    rw [hnext] at hn htouch hfree' ⊢
    have hxa : x ≠ a := fun hxa => hne (.inl hxa)
    have hna : nextOf s x ≠ a := fun hna => hne (.inr (h.prev_of_next hx hna ha0).symm)
    rw [used_setUsed_of_ne _ _ hxa] at hfree
    rw [used_setUsed_of_ne _ _ hna] at hfree'
    exact hall x hx ⟨hfree, hn, htouch, hfree'⟩
  obtain ⟨as₂, h₂, hall₂, ht₂, ha₂, -, -, -, hprev₂⟩ := h₁.merge_coalesced ha hall₁
    (fun hm => hprev₁ ▸ h₁.next_ne_prev ha hm.2.1) (ht.setUsed a 0)
  rw [hprev₁] at hprev₂
  have hfree : free cfg s ptr = some (if prevOf s a ≠ 0 then
      mergeNext cfg (mergeNext cfg (Heap.setUsed s a 0) a) (prevOf s a)
      else mergeNext cfg (Heap.setUsed s a 0) a) := by
    rw [← hprev₂]
    simp only [free, hfind, bind_eq_bind, bind_some, if_neg ha0]
    rfl
  rw [hfree]
  by_cases hp : prevOf s a ≠ 0
  · have hpm : prevOf s a ∈ as₂ := by
      obtain ⟨xs, ys, rfl⟩ := append_of_mem ha₂
      have hmem := h₂.list.prev_mem (hprev₂.symm ▸ hp)
      rw [hprev₂] at hmem
      simp [hmem]
    obtain ⟨as₃, h₃, hall₃, ht₃, -⟩ := @HeapInv.merge_coalesced cfg _ _ _ (fun _ => False) h₂ hpm
      (fun x hx hne => hall₂ x hx fun hxp => hne (.inl hxp)) (fun _ hfalse => hfalse) ht₂
    rw [if_pos hp]
    exact ⟨_, as₃, rfl, h₃, fun x hx => hall₃ x hx id, ht₃⟩
  · rw [if_neg hp]
    refine ⟨_, as₂, rfl, h₂, fun x hx => hall₂ x hx ?_, ht₂⟩
    intro hxp
    exact h₂.list.ne_null x hx (hxp.trans (not_not.1 hp))

theorem HeapInv.size_lt (hx : x ∈ as) (hn : n < sizeMod)
    (hlt : (s.blocks x).size < alignUp n heapAlign) : (s.blocks x).size < n := by
  have hmod := h.size_mod x hx
  rw [alignUp_eq] at hlt
  simp only [sizeMod] at *
  omega

theorem HeapInv.calloc_coalesced {count size : ℕ} (hall : Coalesced s as)
    (ht : Tiled s as) (hreply : HonestReply cfg s (callocBytes count size) reply)
    (hrange : InRange (callocBytes count size) reply) :
    ∃ p s' as', calloc cfg s count size reply = some (p, s') ∧ HeapInv cfg s' as' ∧
      Coalesced s' as' ∧ Tiled s' as' ∧
      (p = 0 → count * size = 0 ∨ (reply.base = 0 ∨ sizeMod ≤ count * size) ∧
        ∀ x ∈ as, (s.blocks x).used = 0 → (s.blocks x).size < count * size) := by
  by_cases hz : count = 0 ∨ size = 0
  · refine ⟨0, s, as, by rw [calloc, if_pos hz], h, hall, ht, fun _ => .inl ?_⟩
    rcases hz with rfl | rfl <;> simp
  rw [not_or] at hz
  have hguard := @calloc_guard count size hz.2
  by_cases hover : count > (sizeMod - 1) / size
  · refine ⟨0, s, as, by rw [calloc, if_neg (by tauto), if_pos hover], h, hall, ht,
      fun _ => .inr ⟨.inr (hguard.1 hover), fun x hx _ => ?_⟩⟩
    have hhi := h.hi_lt hx
    have htotal := hguard.1 hover
    omega
  have hlt : count * size < sizeMod := by
    rw [hguard] at hover
    omega
  rw [callocBytes, if_pos hlt] at hreply hrange
  obtain ⟨p, s', as', hmalloc, hinv, hall', ht', hfail⟩ :=
    h.malloc_coalesced hall ht hlt hreply hrange
  have hcalloc : calloc cfg s count size reply =
      if p = 0 then some (0, s') else some (p, zeroBytes s' p (count * size)) := by
    simp only [calloc, if_neg (not_or.2 hz), if_neg hover, Nat.mod_eq_of_lt hlt, hmalloc,
      bind_eq_bind, bind_some]
  by_cases hp : p = 0
  · refine ⟨0, s', as', by rw [hcalloc, if_pos hp], hinv, hall', ht', fun _ => ?_⟩
    rcases hfail hp with hzero | ⟨hbase, hnone⟩
    · exact .inl hzero
    · exact .inr ⟨.inl hbase, fun x hx hfree => h.size_lt hx hlt (hnone x hx hfree)⟩
  · refine ⟨p, _, as', ?_, hinv.withBytes (zeroBytes s' p (count * size)).bytes, hall',
      ⟨ht'.ends, ht'.apart, ht'.pos⟩, fun h0 => absurd h0 hp⟩
    rw [hcalloc, if_neg hp]
    rfl

end

/-- A block is cut in front of a free neighbour in its chunk. -/
def CutsAt (s : HeapState) (a need : ℕ) : Prop :=
  need + 48 < (s.blocks a).size ∧ nextOf s a ≠ 0 ∧ (extentOf s a).hi = nextOf s a ∧
    (s.blocks (nextOf s a)).used = 0 ∧ ¬ StartsChunk s (nextOf s a)

theorem HeapInv.shrink_coalesced (h : HeapInv cfg s as) (hall : Coalesced s as)
    (ht : Tiled s as) (ha : a ∈ as) (hu : (s.blocks a).used ≠ 0) (hmod : need % 16 = 0)
    (hle : need ≤ (s.blocks a).size) (hcut : ¬ CutsAt s a need) :
    ∃ as', HeapInv cfg (splitBlock cfg s a need) as' ∧ Coalesced (splitBlock cfg s a need) as' ∧
      Tiled (splitBlock cfg s a need) as' := by
  by_cases hroom : need + 48 < (s.blocks a).size
  · obtain ⟨-, hcm, -, hused, -⟩ := h.split_fields ha hroom
    obtain ⟨xs, ys, rfl⟩ := append_of_mem ha
    have hsplit := h.split_coalesced hroom (hall.but _) fun hn htouch hfree => by
      by_contra hstart
      exact hcut ⟨hroom, hn, htouch, hfree, hstart⟩
    refine ⟨_, h.split hmod hroom, fun x hx hm => ?_, h.split_tiled hroom ht⟩
    refine hsplit x hx ?_ hm
    rintro rfl
    have hfree := hm.1
    rw [hused, if_neg (ne_of_mem_of_not_mem ha hcm)] at hfree
    exact hu hfree
  · rw [h.splitBlock_eq_self ha hle hroom]
    exact ⟨as, h, hall, ht⟩

theorem HeapInv.realloc_coalesced {ptr : ℕ} (h : HeapInv cfg s as) (hall : Coalesced s as)
    (ht : Tiled s as) (hn : n < sizeMod) (hreply : HonestReply cfg s n reply)
    (hrange : InRange n reply)
    (hcut : ∀ a, a ≠ 0 → blockFromPtr cfg s ptr = some a → n ≠ 0 →
      ¬ CutsAt s a (alignUp n heapAlign)) :
    ∃ p s' as', realloc cfg s ptr n reply = some (p, s') ∧ HeapInv cfg s' as' ∧
      Coalesced s' as' ∧ Tiled s' as' ∧
      (p = 0 → ptr = 0 ∨ blockFromPtr cfg s ptr ≠ some 0 → n = 0 ∨ reply.base = 0 ∧
        ∀ x ∈ as, (s.blocks x).used = 0 → (s.blocks x).size < alignUp n heapAlign) := by
  by_cases hptr : ptr = 0
  · obtain ⟨p, s', as', hmalloc, hinv, hall', ht', hfail⟩ :=
      h.malloc_coalesced hall ht hn hreply hrange
    exact ⟨p, s', as', by rw [realloc, if_pos hptr, hmalloc], hinv, hall', ht',
      fun hp _ => hfail hp⟩
  by_cases hn0 : n = 0
  · obtain ⟨s', as', hfree, hinv, hall', ht'⟩ := h.free_coalesced hall ht ptr
    refine ⟨0, s', as', ?_, hinv, hall', ht', fun _ _ => .inl hn0⟩
    rw [realloc, if_neg hptr, if_pos hn0, hfree]
    rfl
  obtain ⟨a, hfind, hspec⟩ := h.blockFromPtr_spec ptr
  by_cases ha0 : a = 0
  · refine ⟨0, s, as, ?_, h, hall, ht, fun _ hlive => ?_⟩
    · rw [realloc, if_neg hptr, if_neg hn0, hfind, ha0]
      rfl
    · rw [hfind, ha0] at hlive
      tauto
  obtain ⟨ha, hu, rfl⟩ := hspec ha0
  rw [h.realloc_eq ha hu hn0]
  by_cases hfit : alignUp n heapAlign ≤ (s.blocks a).size
  · obtain ⟨as', hinv, hall', ht'⟩ :=
      h.shrink_coalesced hall ht ha hu (alignUp_mod n) hfit (hcut a ha0 hfind hn0)
    rw [if_pos hfit]
    exact ⟨a + 32, _, as', rfl, hinv, hall', ht', fun h0 => absurd h0 (by omega)⟩
  rw [if_neg hfit]
  have hreply' : HonestReply cfg s (alignUp n heapAlign) reply := by
    simpa only [HonestReply, alignUp_alignUp] using hreply
  have hlt : alignUp n heapAlign < sizeMod := by
    rw [alignUp_eq]
    simp only [sizeMod]
    omega
  have hrange' : InRange (alignUp n heapAlign) reply := by
    rcases hrange with hsmall | hlarge | href
    · exact .inl (alignUp_le_of_le_maxRequest hsmall).2
    · refine absurd ?_ hfit
      rw [alignUp_eq]
      simp only [sizeMod] at *
      omega
    · exact .inr (.inr href)
  obtain ⟨p, s₁, as₁, hmalloc, h₁, hall₁, ht₁, hfail⟩ :=
    h.malloc_coalesced hall ht hlt hreply' hrange'
  simp only [hmalloc, bind_some]
  by_cases hp : p = 0
  · rw [if_pos hp]
    refine ⟨0, s₁, as₁, rfl, h₁, hall₁, ht₁, fun _ _ => .inr ?_⟩
    rcases hfail hp with hzero | hnone
    · omega
    · rwa [alignUp_alignUp] at hnone
  · rw [if_neg hp]
    have hcopy := h₁.withBytes (copyBytes s₁ p (a + 32) (s.blocks a).size).bytes
    obtain ⟨s₂, as₂, hfree, h₂, hall₂, ht₂⟩ :=
      hcopy.free_coalesced hall₁ ⟨ht₁.ends, ht₁.apart, ht₁.pos⟩ (a + 32)
    refine ⟨p, s₂, as₂, ?_, h₂, hall₂, ht₂, fun h0 => absurd h0 hp⟩
    rw [bind_eq_some_iff]
    exact ⟨s₂, hfree, rfl⟩

/-! ## Runs -/

def perform (cfg : HeapConfig) (s : HeapState) (call : HeapCall) (reply : ChunkReply) :
    Option (ℕ × HeapState) :=
  match call with
  | .malloc size => malloc cfg s size reply
  | .free ptr => (free cfg s ptr).map fun s' => (0, s')
  | .calloc count size => calloc cfg s count size reply
  | .realloc ptr size => realloc cfg s ptr size reply

/-- The bytes that a call asks the allocator for. -/
def HeapCall.request : HeapCall → ℕ
  | .malloc size => size
  | .free _ => 0
  | .calloc count size => callocBytes count size
  | .realloc _ size => size

/-- The sizes are of type `size_t`. -/
def HeapCall.SizeT : HeapCall → Prop
  | .malloc size => size < sizeMod
  | .free _ => True
  | .calloc count size => count < sizeMod ∧ size < sizeMod
  | .realloc _ size => size < sizeMod

/-- The call asks for memory, and not with a pointer that belongs to no block in use. -/
def Asks (cfg : HeapConfig) (s : HeapState) : HeapCall → Prop
  | .malloc _ => True
  | .free _ => False
  | .calloc _ _ => True
  | .realloc ptr _ => ptr = 0 ∨ blockFromPtr cfg s ptr ≠ some 0

/-- The call cuts a block in front of a free neighbour. -/
def Cuts (cfg : HeapConfig) (s : HeapState) : HeapCall → Prop
  | .realloc ptr size => size ≠ 0 ∧
      ∃ a, a ≠ 0 ∧ blockFromPtr cfg s ptr = some a ∧ CutsAt s a (alignUp size heapAlign)
  | _ => False

/-- Any call, with any pointer; the page source keeps its promise. -/
def CallStep (cfg : HeapConfig) (s s' : HeapState) : Prop :=
  ∃ call reply out, call.SizeT ∧ HonestReply cfg s call.request reply ∧
    perform cfg s call reply = some (out, s')

/-- A call whose sums do not wrap and that does not cut a block in front of a free neighbour. -/
def KeepingStep (cfg : HeapConfig) (s s' : HeapState) : Prop :=
  ∃ call reply out, call.SizeT ∧ HonestReply cfg s call.request reply ∧
    InRange call.request reply ∧ ¬ Cuts cfg s call ∧ perform cfg s call reply = some (out, s')

theorem HeapInv.perform_coalesced {call : HeapCall} (h : HeapInv cfg s as)
    (hall : Coalesced s as) (ht : Tiled s as) (hsize : call.SizeT)
    (hreply : HonestReply cfg s call.request reply) (hrange : InRange call.request reply)
    (hcut : ¬ Cuts cfg s call) :
    ∃ out s' as', perform cfg s call reply = some (out, s') ∧ HeapInv cfg s' as' ∧
      Coalesced s' as' ∧ Tiled s' as' ∧ (Asks cfg s call → call.bytes ≠ 0 → out = 0 →
        (reply.base = 0 ∨ sizeMod ≤ call.bytes) ∧
          ∀ x ∈ as, (s.blocks x).used = 0 → (s.blocks x).size < call.bytes) := by
  cases call with
  | malloc size =>
    obtain ⟨p, s', as', hcall, hinv, hall', ht', hfail⟩ :=
      h.malloc_coalesced hall ht hsize hreply hrange
    refine ⟨p, s', as', hcall, hinv, hall', ht', fun _ hbytes hp => ?_⟩
    have hnone := (hfail hp).resolve_left hbytes
    exact ⟨.inl hnone.1, fun x hx hfree => h.size_lt hx hsize (hnone.2 x hx hfree)⟩
  | free ptr =>
    obtain ⟨s', as', hcall, hinv, hall', ht'⟩ := h.free_coalesced hall ht ptr
    exact ⟨0, s', as', by rw [perform, hcall]; rfl, hinv, hall', ht', fun hasks => hasks.elim⟩
  | calloc count size =>
    obtain ⟨p, s', as', hcall, hinv, hall', ht', hfail⟩ :=
      h.calloc_coalesced hall ht hreply hrange
    exact ⟨p, s', as', hcall, hinv, hall', ht', fun _ hbytes hp =>
      (hfail hp).resolve_left hbytes⟩
  | realloc ptr size =>
    obtain ⟨p, s', as', hcall, hinv, hall', ht', hfail⟩ :=
      @HeapInv.realloc_coalesced cfg s as size reply ptr h hall ht hsize hreply hrange
        fun a ha hfind hn hat => hcut ⟨hn, a, ha, hfind, hat⟩
    refine ⟨p, s', as', hcall, hinv, hall', ht', fun hasks hbytes hp => ?_⟩
    have hnone := (hfail hp hasks).resolve_left hbytes
    exact ⟨.inl hnone.1, fun x hx hfree => h.size_lt hx hsize (hnone.2 x hx hfree)⟩

/-- No two free blocks of one chunk touch. -/
def NoFreeNeighbours (s : HeapState) (as : List ℕ) : Prop :=
  ∀ k ∈ s.chunks, ∀ x ∈ as, ∀ y ∈ as, (extentOf s x).Within k → (extentOf s y).Within k →
    (extentOf s x).hi = y → ¬ ((s.blocks x).used = 0 ∧ (s.blocks y).used = 0)

/-- Free blocks of the chunk `k`, each right behind the one before. -/
structure FreeRun (s : HeapState) (as : List ℕ) (k : Extent) (run : List ℕ) : Prop where
  free : ∀ x ∈ run, x ∈ as ∧ (s.blocks x).used = 0
  within : ∀ x ∈ run, (extentOf s x).Within k
  touch : run.IsChain fun x y => (extentOf s x).hi = y

/-- The bytes that the blocks of a run would hold as one block. -/
def runRoom (s : HeapState) (run : List ℕ) : ℕ :=
  (run.map fun x => 32 + (s.blocks x).size).sum - 32

theorem Coalesced.noFreeNeighbours (hall : Coalesced s as) (ht : Tiled s as) :
    NoFreeNeighbours s as := by
  rintro k hk x hx y hy hxk hyk htouch ⟨hfree, hfree'⟩
  rw [Extent.Within, extentOf_lo, extentOf_hi] at hxk hyk
  have hother : ∀ k' ∈ s.chunks, k'.lo < k'.hi → ∀ z, k'.lo ≤ z → z < k'.hi → k.lo ≤ z →
      z < k.hi → k' = k := by
    intro k' hk' _ z hz hz' hz'' hz'''
    by_contra hne
    have hapart := ht.apart.forall hk' hk hne
    rw [Extent.Apart] at hapart
    omega
  have hy32 : y + 32 ≤ k.hi := by omega
  rw [extentOf_hi] at htouch
  rcases ht.ends x hx with ⟨hn, hnext⟩ | ⟨k', hk', hend⟩
  · rw [extentOf_hi, htouch] at hnext
    obtain ⟨k', hk', hlo⟩ := hall x hx
      ⟨hfree, hn, by rw [extentOf_hi, htouch, hnext], by rw [← hnext]; exact hfree'⟩
    have hpos := ht.pos k' hk'
    have hsame := hother k' hk' hpos k'.lo (le_refl _) hpos (by omega) (by omega)
    rw [hsame] at hlo
    omega
  · have hpos := ht.pos k' hk'
    rw [extentOf_hi] at hend
    have hsame := hother k' hk' hpos (k'.hi - 1) (by omega) (by omega) (by omega) (by omega)
    rw [hsame] at hend
    omega

theorem FreeRun.length_le_one {k : Extent} {run : List ℕ} (h : FreeRun s as k run)
    (hk : k ∈ s.chunks) (hno : NoFreeNeighbours s as) : run.length ≤ 1 := by
  match run, h with
  | [], _ => exact Nat.zero_le _
  | [_], _ => exact le_rfl
  | x :: y :: run, h =>
    have hx := h.free x (by simp)
    have hy := h.free y (by simp)
    exact absurd ⟨hx.2, hy.2⟩ (hno k hk x hx.1 y hy.1 (h.within x (by simp))
      (h.within y (by simp)) (isChain_cons_cons.1 h.touch).1)

/-- In every run without a call that wraps or that cuts a block in front of a free neighbour, no
two free blocks of a chunk touch, and a request that fails finds no chunk and no stretch of free
blocks that is large enough. -/
theorem coalesced_of_runs (cfg : HeapConfig) (s : HeapState)
    (hs : Reachable (· = HeapState.init) (KeepingStep cfg) s) :
    ∃ as, WellFormed cfg s as ∧ NoFreeNeighbours s as ∧
      ∀ call reply out s', call.SizeT → HonestReply cfg s call.request reply →
        InRange call.request reply → ¬ Cuts cfg s call →
        perform cfg s call reply = some (out, s') →
        Asks cfg s call → call.bytes ≠ 0 → out = 0 →
          (reply.base = 0 ∨ sizeMod ≤ call.bytes) ∧
            ∀ k ∈ s.chunks, ∀ run, run ≠ [] → FreeRun s as k run → runRoom s run < call.bytes := by
  have hinv : ∃ as, HeapInv cfg s as ∧ Coalesced s as ∧ Tiled s as := by
    apply Reachable.invariant (I := fun s => ∃ as, HeapInv cfg s as ∧ Coalesced s as ∧ Tiled s as)
      ?_ ?_ hs
    · rintro _ rfl
      exact ⟨[], HeapInv.init, by simp [Coalesced], by simp, List.Pairwise.nil,
        by simp [HeapState.init]⟩
    · rintro v v' ⟨as, h, hall, ht⟩ ⟨call, reply, out, hsize, hreply, hrange, hcut, hcall⟩
      obtain ⟨out', v'', as', hcall', h', hall', ht', -⟩ :=
        h.perform_coalesced hall ht hsize hreply hrange hcut
      rw [hcall'] at hcall
      cases hcall
      exact ⟨as', h', hall', ht'⟩
  obtain ⟨as, h, hall, ht⟩ := hinv
  have hno := hall.noFreeNeighbours ht
  refine ⟨as, h.wellFormed, hno, ?_⟩
  intro call reply out s' hsize hreply hrange hcut hcall hasks hbytes hout
  obtain ⟨out', s'', as', hcall', -, -, -, hfail⟩ :=
    h.perform_coalesced hall ht hsize hreply hrange hcut
  rw [hcall'] at hcall
  cases hcall
  obtain ⟨hbase, hnone⟩ := hfail hasks hbytes hout
  refine ⟨hbase, fun k hk run hne hrun => ?_⟩
  have hlen := hrun.length_le_one hk hno
  obtain ⟨x, rfl⟩ := List.length_eq_one_iff.1
    (Nat.le_antisymm hlen (List.length_pos_iff.2 hne))
  have hx := hrun.free x (by simp)
  have hlt := hnone x hx.1 hx.2
  simpa [runRoom] using hlt

/-- The run that consists of `malloc(100)`. -/
theorem coalesced_of_runs_oneBlock :
    ∃ as, WellFormed appHeap oneBlock as ∧ NoFreeNeighbours oneBlock as := by
  have hcall : malloc appHeap HeapState.init 100 ⟨0x100000, 0⟩ = some (0x100020, oneBlock) := rfl
  have hrun : Reachable (· = HeapState.init) (KeepingStep appHeap) oneBlock :=
    .next (.start rfl) ⟨.malloc 100, ⟨0x100000, 0⟩, 0x100020, (by decide : 100 < sizeMod),
      fun _ => ⟨by decide, by decide, by decide, by simp [HeapState.init]⟩,
      .inl (by decide), id, hcall⟩
  obtain ⟨as, hwell, hno, -⟩ := coalesced_of_runs appHeap oneBlock hrun
  exact ⟨as, hwell, hno⟩

/-- The heap after `malloc(1000)` and `realloc(p, 16)`. -/
def cutBlock : HeapState :=
  splitBlock appHeap (take appHeap
    (requestChunk appHeap HeapState.init 1008 ⟨0x100000, 0⟩).2 0x100000 1008) 0x100000 16

/-- The cut leaves two free blocks side by side. -/
theorem not_coalesced_of_runs :
    ¬ ∀ s, Reachable (· = HeapState.init) (CallStep appHeap) s →
      ∃ as, WellFormed appHeap s as ∧ NoFreeNeighbours s as := by
  intro h
  have hrun : Reachable (· = HeapState.init) (CallStep appHeap) cutBlock :=
    .next (.next (.start rfl)
      ⟨.malloc 1000, ⟨0x100000, 0⟩, 0x100020, (by decide : 1000 < sizeMod),
        fun _ => ⟨by decide, by decide, by decide, by simp [HeapState.init]⟩, rfl⟩)
      ⟨.realloc 0x100020 16, ⟨0, 0⟩, 0x100020, (by decide : 16 < sizeMod),
        fun h0 => absurd rfl h0, rfl⟩
  obtain ⟨as, hwell, hno⟩ := h cutBlock hrun
  have htail : cutBlock.tail ∈ as := hwell.list.tail_mem (by decide)
  have hprev : prevOf cutBlock cutBlock.tail ∈ as := by
    obtain ⟨xs, ys, rfl⟩ := append_of_mem htail
    exact mem_append_left _ (hwell.list.prev_mem (by decide))
  apply hno ⟨0x100000, 0x300000⟩ (by decide) _ hprev _ htail
  · exact ⟨by decide, by decide⟩
  · exact ⟨by decide, by decide⟩
  · decide
  · exact ⟨by decide, by decide⟩

end Cleonos.Heap
