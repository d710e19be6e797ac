import Cleonos.Heap.Operations

/-!
# The contents of blocks

What becomes of the bytes of a block while the heap works on others.
-/

namespace Cleonos.Heap

open Option

variable {cfg : HeapConfig} {s s' s'' : HeapState} {as as' : List ℕ} {a c n x need : ℕ}
  {reply : ChunkReply}

/-! ## Headers and contents -/

def headerExtent (c : ℕ) : Extent := ⟨c, c + 32⟩

/-- The memory of the first `n` bytes of a block. -/
def contents (a n : ℕ) : Extent := ⟨a + 32, a + 32 + n⟩

/-- No header is written over the first `n` bytes of `a`. -/
def Clear (s s' : HeapState) (a n : ℕ) : Prop :=
  ∀ c, s'.blocks c ≠ s.blocks c → (headerExtent c).Apart (contents a n)

theorem Clear.refl (s : HeapState) (a n : ℕ) : Clear s s a n := fun _ hc => absurd rfl hc

theorem Clear.trans (h : Clear s s' a n) (h' : Clear s' s'' a n) : Clear s s'' a n := by
  intro c hc
  by_cases hsame : s'.blocks c = s.blocks c
  · exact h' c (by rwa [hsame])
  · exact h c hsame

theorem HeapInv.header_apart (h : HeapInv cfg s as) (hc : c ∈ as) (ha : a ∈ as) :
    (headerExtent c).Apart (contents a (s.blocks a).size) := by
  by_cases hca : c = a
  · subst hca
    exact .inl (le_refl _)
  · refine (h.apart c hc a ha hca).mono ?_ ?_
    · exact ⟨le_refl _, Nat.le_add_right _ _⟩
    · exact ⟨Nat.le_add_right _ _, le_refl _⟩

@[simp] theorem bytes_splitBlock (s : HeapState) (a need : ℕ) :
    (splitBlock cfg s a need).bytes = s.bytes := by
  simp only [splitBlock]
  split
  · rfl
  · split <;> rfl

@[simp] theorem bytes_mergeNext (s : HeapState) (a : ℕ) : (mergeNext cfg s a).bytes = s.bytes := by
  simp only [mergeNext]
  split
  · rfl
  · split
    · rfl
    · split <;> rfl

@[simp] theorem bytes_requestChunk (s : HeapState) (need : ℕ) (reply : ChunkReply) :
    (requestChunk cfg s need reply).2.bytes = s.bytes := by
  simp only [requestChunk]
  split_ifs <;> rfl

@[simp] theorem bytes_take (s : HeapState) (a need : ℕ) : (take cfg s a need).bytes = s.bytes :=
  bytes_splitBlock s a need

variable {p : ℕ}

theorem malloc_bytes (h : malloc cfg s n reply = some (p, s')) : s'.bytes = s.bytes := by
  simp only [malloc] at h
  split at h
  · cases h
    rfl
  · cases hfind : findFree cfg s (alignUp n heapAlign) listFuel s.head with
    | none => simp [hfind] at h
    | some f =>
      simp only [hfind, bind_eq_bind, bind_some] at h
      split at h
      · cases h
        exact bytes_take s f _
      · split at h
        · cases h
          exact bytes_requestChunk s _ reply
        · cases h
          exact (bytes_take _ _ _).trans (bytes_requestChunk s _ reply)

theorem free_bytes {p : ℕ} (h : free cfg s p = some s') : s'.bytes = s.bytes := by
  simp only [free] at h
  cases hfind : blockFromPtr cfg s p with
  | none => simp [hfind] at h
  | some b =>
    simp only [hfind, bind_eq_bind, bind_some] at h
    split at h
    · cases h
      rfl
    · cases h
      split <;> simp

theorem splitBlock_blocks (hca : c ≠ a) (hcut : c ≠ (a + 32 + need) % sizeMod)
    (hnext : c ≠ nextOf s a ∨ nextOf s a = 0) :
    (splitBlock cfg s a need).blocks c = s.blocks c := by
  simp only [splitBlock]
  split
  · rfl
  · split
    case isTrue hn =>
      have hcn := hnext.resolve_right hn
      simp [hca, hcut, hcn]
    case isFalse => simp [hca, hcut]

theorem HeapInv.split_clear (h : HeapInv cfg s as) (ha : a ∈ as) (hx : x ∈ as)
    (hle : need ≤ (s.blocks a).size) (hn : x = a → n ≤ need) (hn' : n ≤ (s.blocks x).size) :
    Clear s (splitBlock cfg s a need) x n := by
  have hpart : (contents x n).Within (contents x (s.blocks x).size) :=
    ⟨le_refl _, Nat.add_le_add_left hn' _⟩
  by_cases hroom : need + 48 < (s.blocks a).size
  · have hhi := h.hi_lt ha
    intro c hc
    by_cases hca : c = a
    · subst hca
      exact (h.header_apart ha hx).mono (Extent.Within.refl _) hpart
    by_cases hcn : c = nextOf s a ∧ nextOf s a ≠ 0
    · rw [hcn.1]
      exact (h.header_apart (h.next_mem ha hcn.2) hx).mono (Extent.Within.refl _) hpart
    by_cases hcut : c = (a + 32 + need) % sizeMod
    · rw [Nat.mod_eq_of_lt (by omega)] at hcut
      by_cases hxa : x = a
      · have hle' := hn hxa
        refine .inr ?_
        simp only [headerExtent, contents]
        omega
      · refine (h.apart a ha x hx (Ne.symm hxa)).mono ?_ (hpart.trans ?_)
        · simp only [Extent.Within, headerExtent, extentOf_lo, extentOf_hi]
          omega
        · exact ⟨Nat.le_add_right _ _, le_refl _⟩
    · refine absurd (splitBlock_blocks hca hcut ?_) hc
      by_cases hnext : nextOf s a = 0
      · exact .inr hnext
      · exact .inl fun hcn' => hcn ⟨hcn', hnext⟩
  · rw [h.splitBlock_eq_self ha hle hroom]
    exact Clear.refl s x n

theorem HeapInv.setUsed_clear (h : HeapInv cfg s as) (ha : a ∈ as) (hx : x ∈ as) (v : ℕ) :
    Clear s (Heap.setUsed s a v) x (s.blocks x).size := by
  intro c hc
  by_cases hca : c = a
  · subst hca
    exact h.header_apart ha hx
  · exact absurd (HeapState.blocks_setBlock_of_ne s _ _ hca) hc

theorem HeapInv.merge_clear (h : HeapInv cfg s as) (ha : a ∈ as) (hx : x ∈ as) :
    Clear s (mergeNext cfg s a) x (s.blocks x).size := by
  intro c hc
  by_cases hca : c = a
  · subst hca
    exact h.header_apart ha hx
  by_cases hcn : c = nextOf s (nextOf s a) ∧ c ≠ 0 ∧ nextOf s a ≠ 0
  · have hmem := h.next_mem (h.next_mem ha hcn.2.2) (hcn.1 ▸ hcn.2.1)
    rw [hcn.1]
    exact h.header_apart hmem hx
  · refine absurd ?_ hc
    simp only [mergeNext]
    split
    · rfl
    · split
      · rfl
      · split
        case isTrue hnn =>
          have hne : c ≠ (s.blocks (s.blocks a).next).next := by
            intro hcn'
            refine hcn ⟨hcn', hcn' ▸ hnn, ?_⟩
            tauto
          simp [hca, hne]
        case isFalse => simp [hca]

theorem requestChunk_blocks (hc : c ≠ reply.base) (ht : c ≠ s.tail ∨ s.tail = 0) :
    (requestChunk cfg s need reply).2.blocks c = s.blocks c := by
  simp only [ChunkReply.base] at hc
  simp only [requestChunk]
  generalize (if reply.vmAlloc ≠ 0 then reply.vmAlloc else reply.userHeapAlloc) = block at *
  split
  · rfl
  · by_cases htail : s.tail = 0
    · simp [htail, hc]
    · simp [htail, hc, ht.resolve_right htail]

section

variable (h : HeapInv cfg s as)
include h

theorem HeapInv.push_clear (hneed : need ≤ sizeMod - 48)
    (h0 : reply.base ≠ 0) (hfresh : FreshChunk s reply.base (chunkSize cfg need)) (hx : x ∈ as)
    (hu : (s.blocks x).used ≠ 0) :
    Clear s (requestChunk cfg s need reply).2 x (s.blocks x).size := by
  obtain ⟨s₁, -, hinv, -, hkeep, -, -⟩ := h.push_spec hneed h0 hfresh
  obtain ⟨hx₁, -, hsize⟩ := hkeep x hx hu
  intro c hc
  by_cases hcb : c = reply.base
  · have hnew := hinv.header_apart (by simp [hcb] : c ∈ as ++ [reply.base]) hx₁
    rwa [hsize] at hnew
  by_cases hct : c = s.tail ∧ s.tail ≠ 0
  · rw [hct.1]
    exact h.header_apart (h.list.tail_mem hct.2) hx
  · refine absurd (requestChunk_blocks hcb ?_) hc
    by_cases ht : s.tail = 0
    · exact .inr ht
    · exact .inl fun hct' => hct ⟨hct', ht⟩

theorem HeapInv.take_clear (ha : a ∈ as) (hfree : (s.blocks a).used = 0)
    (hmod : need % 16 = 0) (hle : need ≤ (s.blocks a).size) (hx : x ∈ as)
    (hu : (s.blocks x).used ≠ 0) :
    Clear s (take cfg s a need) x (s.blocks x).size := by
  have hxa : x ≠ a := fun hxa => hu (hxa ▸ hfree)
  obtain ⟨as', hinv, hsub, -, -, hothers⟩ := h.split_spec ha hmod hle
  have hsplit := h.split_clear ha hx hle (fun h => absurd h hxa) (le_refl _)
  have hused := hinv.setUsed_clear (hsub a ha) (hsub x hx) 1
  rw [(hothers x hx hxa).1] at hused
  exact hsplit.trans hused

theorem HeapInv.malloc_clear (hreply : HonestReply cfg s n reply)
    (hok : n ≤ maxRequest ∨ Refused cfg s n reply)
    (hmalloc : malloc cfg s n reply = some (p, s')) (hx : x ∈ as) (hu : (s.blocks x).used ≠ 0) :
    Clear s s' x (s.blocks x).size := by
  by_cases hn0 : n = 0
  · rw [malloc, if_pos hn0] at hmalloc
    cases hmalloc
    exact Clear.refl s x _
  by_cases hbig : maxRequest < n
  · have href : Refused cfg s n reply := hok.resolve_left (by omega)
    rw [malloc_of_no_fit hn0 (h.findFree_refused hbig href),
      requestChunk_of_base_eq_zero href.1] at hmalloc
    cases hmalloc
    exact Clear.refl s x _
  obtain ⟨hle, hneed⟩ := alignUp_le_of_le_maxRequest (Nat.le_of_not_lt hbig)
  have hmod := alignUp_mod n
  obtain ⟨f, hfind, hspec⟩ := h.findFree_spec (alignUp n heapAlign)
  by_cases hf : f = 0
  · subst hf
    rw [malloc_of_no_fit hn0 hfind] at hmalloc
    by_cases hbase : reply.base = 0
    · rw [requestChunk_of_base_eq_zero hbase] at hmalloc
      cases hmalloc
      exact Clear.refl s x _
    · obtain ⟨s₁, hreq, hinv, -, hkeep, hfree, hroom⟩ :=
        h.push_spec hneed hbase (hreply hbase)
      have hpush := h.push_clear hneed hbase (hreply hbase) hx hu
      obtain ⟨hx₁, hu₁, hsize⟩ := hkeep x hx hu
      have htake := hinv.take_clear (by simp) hfree hmod hroom hx₁ hu₁
      rw [hreq] at hpush
      rw [hsize] at htake
      rw [hreq, if_neg hbase] at hmalloc
      cases hmalloc
      exact hpush.trans htake
  · obtain ⟨hm, hfree, hsz⟩ := hspec hf
    rw [malloc_of_fit hn0 hf hfind] at hmalloc
    cases hmalloc
    exact h.take_clear hm hfree hmod hsz hx hu

theorem HeapInv.free_clear (ha : a ∈ as) (hua : (s.blocks a).used ≠ 0)
    (hfree : free cfg s (a + 32) = some s') (hx : x ∈ as) (hxa : x ≠ a)
    (hu : (s.blocks x).used ≠ 0) : Clear s s' x (s.blocks x).size := by
  have ha0 := h.list.ne_null a ha
  have h₁ : HeapInv cfg (Heap.setUsed s a 0) as := h.setUsed a 0
  have hclear₁ := h.setUsed_clear ha hx 0
  have hu₁ : ((Heap.setUsed s a 0).blocks x).used ≠ 0 := by rwa [used_setUsed_of_ne _ _ hxa]
  obtain ⟨as₂, h₂, ha₂, -, hkeep₂⟩ := h₁.merge_spec ha
  have hclear₂ := h₁.merge_clear ha hx
  obtain ⟨hx₂, hu₂, hsize₂⟩ := hkeep₂ x hx hu₁
  rw [size_setUsed] at hclear₂ hsize₂
  simp only [free, h.blockFromPtr_eq ha hua, bind_eq_bind, bind_some, if_neg ha0,
    Option.some.injEq] at hfree
  change (if ((mergeNext cfg (Heap.setUsed s a 0) a).blocks a).prev ≠ 0 then
    mergeNext cfg (mergeNext cfg (Heap.setUsed s a 0) a)
      ((mergeNext cfg (Heap.setUsed s a 0) a).blocks a).prev
    else mergeNext cfg (Heap.setUsed s a 0) a) = s' at hfree
  generalize mergeNext cfg (Heap.setUsed s a 0) a = s₂ at *
  split at hfree
  case isTrue hp =>
    have hpm : (s₂.blocks a).prev ∈ as₂ := by
      obtain ⟨xs, ys, rfl⟩ := List.append_of_mem ha₂
      have := h₂.list.prev_mem hp
      simp [this]
    have hclear₃ := h₂.merge_clear hpm hx₂
    rw [hsize₂] at hclear₃
    subst hfree
    exact (hclear₁.trans hclear₂).trans hclear₃
  case isFalse =>
    subst hfree
    exact hclear₁.trans hclear₂

end

/-- A block in use keeps its size and its contents. -/
structure Intact (s s' : HeapState) (as' : List ℕ) (x : ℕ) : Prop where
  mem : x ∈ as'
  used : (s'.blocks x).used ≠ 0
  size : (s'.blocks x).size = (s.blocks x).size
  bytes : ∀ i < (s.blocks x).size, s'.bytes (x + 32 + i) = s.bytes (x + 32 + i)
  clear : Clear s s' x (s.blocks x).size

theorem Intact.trans (h : Intact s s' as' x) {as'' : List ℕ} (h' : Intact s' s'' as'' x) :
    Intact s s'' as'' x := by
  obtain ⟨hmem, hused, hsize, hbytes, hclear⟩ := h'
  rw [h.size] at hsize hbytes hclear
  exact ⟨hmem, hused, hsize, fun i hi => (hbytes i hi).trans (h.bytes i hi),
    h.clear.trans hclear⟩

theorem HeapInv.malloc_intact (h : HeapInv cfg s as) (hreply : HonestReply cfg s n reply)
    (hok : n ≤ maxRequest ∨ Refused cfg s n reply) :
    ∃ p s' as', malloc cfg s n reply = some (p, s') ∧ HeapInv cfg s' as' ∧
      (∀ x ∈ as, (s.blocks x).used ≠ 0 → Intact s s' as' x) ∧ Grants s as s' as' p n := by
  obtain ⟨p, s', as', hmalloc, hinv, hkeep, hgrant⟩ := h.malloc_spec hreply hok
  refine ⟨p, s', as', hmalloc, hinv, fun x hx hu => ?_, hgrant⟩
  obtain ⟨hx', hu', hsize⟩ := hkeep x hx hu
  have hbytes := malloc_bytes hmalloc
  exact ⟨hx', hu', hsize, fun i _ => by rw [hbytes], h.malloc_clear hreply hok hmalloc hx hu⟩

theorem HeapInv.free_intact (h : HeapInv cfg s as) (ha : a ∈ as) (hu : (s.blocks a).used ≠ 0) :
    ∃ s' as', free cfg s (a + 32) = some s' ∧ HeapInv cfg s' as' ∧
      ∀ x ∈ as, x ≠ a → (s.blocks x).used ≠ 0 → Intact s s' as' x := by
  obtain ⟨s', as', hfree, hinv, hkeep⟩ := h.free_spec ha hu
  refine ⟨s', as', hfree, hinv, fun x hx hxa hux => ?_⟩
  obtain ⟨hx', hu', hsize⟩ := hkeep x hx hxa hux
  have hbytes := free_bytes hfree
  exact ⟨hx', hu', hsize, fun i _ => by rw [hbytes], h.free_clear ha hu hfree hx hxa hux⟩

theorem HeapInv.write_intact (h : HeapInv cfg s as) {f : ℕ → UInt8} {b k : ℕ} (hb : b ∈ as)
    (hk : k ≤ (s.blocks b).size) (hf : ∀ y, ¬ (b + 32 ≤ y ∧ y < b + 32 + k) → f y = s.bytes y)
    (hx : x ∈ as) (hxb : x ≠ b) (hu : (s.blocks x).used ≠ 0) :
    Intact s { s with bytes := f } as x := by
  refine ⟨hx, hu, rfl, fun i hi => ?_, Clear.refl s x _⟩
  have hapart := h.apart b hb x hx (Ne.symm hxb)
  simp only [Extent.Apart, extentOf_lo, extentOf_hi] at hapart
  exact hf _ (by omega)

/-- The first bytes of the block at `a` are those of the block at `b`, which has room for `n`
bytes and was not in use before, if it is another one. -/
structure Moved (s : HeapState) (as : List ℕ) (a n : ℕ) (s' : HeapState) (b : ℕ) : Prop where
  used : (s'.blocks b).used ≠ 0
  room : n ≤ (s'.blocks b).size
  fresh : b ∈ as → b ≠ a → (s.blocks b).used = 0
  bytes : ∀ i < min (s.blocks a).size n, s'.bytes (b + 32 + i) = s.bytes (a + 32 + i)
  clear : b = a → Clear s s' a (min (s.blocks a).size n)

/-- What `realloc` of the block `a` to `n` bytes leaves behind, when it returns `p`: to no bytes it
is a release, null is a failure that keeps the block, and anything else is a block with the old
contents; all other blocks in use keep theirs. -/
structure Resized (cfg : HeapConfig) (s : HeapState) (as : List ℕ) (a n p : ℕ) (s' : HeapState)
    (as' : List ℕ) : Prop where
  inv : HeapInv cfg s' as'
  others : ∀ x ∈ as, x ≠ a → (s.blocks x).used ≠ 0 → Intact s s' as' x
  release : n = 0 → p = 0
  failure : n ≠ 0 → p = 0 → Intact s s' as' a
  success : p ≠ 0 → ∃ b ∈ as', p = b + 32 ∧ Moved s as a n s' b

/-- The call returns and keeps to what it promises. -/
def ReallocContract (cfg : HeapConfig) (s : HeapState) (as : List ℕ) (a n : ℕ)
    (reply : ChunkReply) : Prop :=
  ∃ p s' as', realloc cfg s (a + 32) n reply = some (p, s') ∧ Resized cfg s as a n p s' as'

theorem HeapInv.realloc_contract (h : HeapInv cfg s as) (ha : a ∈ as)
    (hu : (s.blocks a).used ≠ 0) (hreply : HonestReply cfg s n reply)
    (hok : n ≤ maxRequest ∨ n ≤ sizeMod - 16 ∧ reply.base = 0) :
    ReallocContract cfg s as a n reply := by
  by_cases hn : n = 0
  · subst hn
    obtain ⟨s', as', hfree, hinv, hintact⟩ := h.free_intact ha hu
    refine ⟨0, s', as', ?_, hinv, hintact, fun _ => rfl, fun h0 => absurd rfl h0,
      fun h0 => absurd rfl h0⟩
    rw [realloc, if_neg (by omega), if_pos rfl, hfree]
    rfl
  have hle : n ≤ alignUp n heapAlign := (le_alignUp (by simp only [maxRequest] at hok; omega)).1
  rw [ReallocContract, h.realloc_eq ha hu hn]
  by_cases hfit : alignUp n heapAlign ≤ (s.blocks a).size
  · -- the block is large enough, and what is too much is cut off
    obtain ⟨as', hinv, hsub, hroom, hused, hothers⟩ := h.split_spec ha (alignUp_mod n) hfit
    rw [if_pos hfit]
    refine ⟨a + 32, _, as', rfl, hinv, fun x hx hxa hux => ?_, fun h0 => absurd h0 hn,
      fun _ h0 => absurd h0 (by omega), fun _ => ⟨a, hsub a ha, rfl, ?_⟩⟩
    · obtain ⟨hs, hu'⟩ := hothers x hx hxa
      exact ⟨hsub x hx, by rw [hu']; exact hux, hs, fun i _ => by rw [bytes_splitBlock],
        h.split_clear ha hx hfit (fun h => absurd h hxa) (le_refl _)⟩
    · exact ⟨by rw [hused]; exact hu, by omega, fun _ h0 => absurd rfl h0,
        fun i _ => by rw [bytes_splitBlock],
        fun _ => h.split_clear ha ha hfit (fun _ => by omega) (by omega)⟩
  rw [if_neg hfit]
  have hreply' : HonestReply cfg s (alignUp n heapAlign) reply := by
    simpa only [HonestReply, alignUp_alignUp] using hreply
  have hok' : alignUp n heapAlign ≤ maxRequest ∨ Refused cfg s (alignUp n heapAlign) reply := by
    rcases hok with hsmall | ⟨-, hbase⟩
    · exact .inl (alignUp_le_of_le_maxRequest hsmall).2
    · refine .inr ⟨hbase, .inl ?_⟩
      rw [alignUp_eq]
      simp only [sizeMod]
      omega
  obtain ⟨p, s₁, as₁, hmalloc, h₁, hintact₁, hgrant⟩ := h.malloc_intact hreply' hok'
  simp only [hmalloc, bind_some]
  by_cases hp : p = 0
  · rw [if_pos hp]
    exact ⟨0, s₁, as₁, rfl, h₁, fun x hx _ hux => hintact₁ x hx hux, fun _ => rfl,
      fun _ _ => hintact₁ a ha hu, fun h0 => absurd rfl h0⟩
  · obtain ⟨-, b, hb, hpb, hub, hsb, hnew⟩ := hgrant hp
    have ha₁ := hintact₁ a ha hu
    have hba : b ≠ a := by
      intro hba
      exact hu (hba ▸ hnew (hba ▸ ha))
    have hroom : (s.blocks a).size ≤ (s₁.blocks b).size := by omega
    subst hpb
    have hcopy := h₁.withBytes (copyBytes s₁ (b + 32) (a + 32) (s.blocks a).size).bytes
    obtain ⟨s₂, as₂, hfree, h₂, hintact₂⟩ := hcopy.free_intact ha₁.mem ha₁.used
    have hb₂ := hintact₂ b hb hba hub
    rw [if_neg hp]
    refine ⟨b + 32, s₂, as₂, ?_, h₂, fun x hx hxa hux => ?_, fun h0 => absurd h0 hn,
      fun _ h0 => absurd h0 hp, fun _ => ⟨b, hb₂.mem, rfl, hb₂.used, ?_, fun hbs _ => hnew hbs,
        fun i hi => ?_, fun h0 => absurd h0 hba⟩⟩
    · rw [bind_eq_some_iff]
      exact ⟨s₂, hfree, rfl⟩
    · have hx₁ := hintact₁ x hx hux
      have hxb : x ≠ b := by
        intro hxb
        exact hux (hxb ▸ hnew (hxb ▸ hx))
      have hcopied : Intact s₁ (copyBytes s₁ (b + 32) (a + 32) (s.blocks a).size) as₁ x :=
        h₁.write_intact hb hroom (fun _ hy => if_neg hy) hx₁.mem hxb hx₁.used
      exact (hx₁.trans hcopied).trans (hintact₂ x hx₁.mem hxa hx₁.used)
    · rw [hb₂.size]
      exact hle.trans hsb
    · have hi' : i < (s.blocks a).size := lt_of_lt_of_le hi (min_le_left _ _)
      have hoff : a + 32 + (b + 32 + i - (b + 32)) = a + 32 + i := by omega
      rw [hb₂.bytes i (lt_of_lt_of_le hi' hroom)]
      change (if b + 32 ≤ b + 32 + i ∧ b + 32 + i < b + 32 + (s.blocks a).size then
        s₁.bytes (a + 32 + (b + 32 + i - (b + 32))) else s₁.bytes (b + 32 + i)) = _
      rw [if_pos (by omega), hoff, ha₁.bytes i hi']

theorem Resized.le_maxRequest (h : Resized cfg s as a n p s' as') (hp : p ≠ 0) :
    n ≤ maxRequest := by
  obtain ⟨b, hb, -, hmoved⟩ := h.success hp
  have hroom := hmoved.room
  have hhi := h.inv.hi_lt hb
  have hb0 := h.inv.list.ne_null b hb
  have hmod := h.inv.addr_mod b hb
  simp only [maxRequest, sizeMod] at *
  omega

theorem le_chunkSize_of_wrap (cfg : HeapConfig) (hneed : sizeMod - 32 ≤ need)
    (hlt : need < sizeMod) : 32 ≤ chunkSize cfg need := by
  obtain ⟨hlow, hhigh⟩ := defaultChunk_bounds cfg
  have hwrap : ¬ defaultChunk cfg < (need + headerSize) % sizeMod := by
    rw [headerSize_eq]
    simp only [chunkMin, sizeMod] at *
    omega
  simp only [chunkSize, if_neg hwrap]
  rw [alignUp_eq]
  simp only [chunkMin, chunkMax, sizeMod] at *
  omega

theorem HeapInv.realloc_ne_zero (h : HeapInv cfg s as) (ha : a ∈ as)
    (hu : (s.blocks a).used ≠ 0) (hn : n < sizeMod) (hbig : maxRequest < n)
    (hreply : HonestReply cfg s n reply) (hbad : n ≤ sizeMod - 16 → reply.base ≠ 0)
    (hrealloc : realloc cfg s (a + 32) n reply = some (p, s')) : p ≠ 0 := by
  have hn0 : n ≠ 0 := by omega
  have hhi := h.hi_lt ha
  rw [h.realloc_eq ha hu hn0] at hrealloc
  by_cases hle : n ≤ sizeMod - 16
  · have hlarge := alignUp_ge_of_gt_maxRequest hbig hle
    have hbase := hbad hle
    have hlt := (hreply hbase).lt
    obtain ⟨f, hfind, hspec⟩ := h.findFree_spec (alignUp (alignUp n heapAlign) heapAlign)
    have hf : f = 0 := by
      by_contra hf
      obtain ⟨hm, -, hsz⟩ := hspec hf
      have hfhi := h.hi_lt hm
      rw [alignUp_alignUp] at hsz
      simp only [sizeMod] at *
      omega
    subst hf
    have hfst : ∀ need, (requestChunk cfg s need reply).1 = reply.base := by
      intro need
      simp only [ChunkReply.base] at hbase ⊢
      simp only [requestChunk, if_neg hbase]
    have hneed : alignUp n heapAlign < sizeMod := by
      rw [alignUp_eq]
      simp only [sizeMod]
      omega
    have hpayload : payload reply.base ≠ 0 := by
      have hsize := le_chunkSize_of_wrap cfg hlarge hneed
      rw [payload, headerSize_eq, Nat.mod_eq_of_lt (by omega)]
      omega
    rw [if_neg (by simp only [sizeMod] at *; omega), malloc_of_no_fit (by omega) hfind, hfst,
      if_neg hbase, bind_some, if_neg hpayload, bind_eq_some_iff] at hrealloc
    obtain ⟨s₁, -, hs₁⟩ := hrealloc
    cases hs₁
    exact hpayload
  · have hzero : alignUp n heapAlign = 0 := by
      rw [alignUp_eq]
      simp only [sizeMod] at *
      omega
    rw [hzero, if_pos (Nat.zero_le _)] at hrealloc
    cases hrealloc
    omega

/-- `realloc` keeps to its contract up to `maxRequest`, and beyond up to the size where the
rounding wraps, if no chunk is granted. -/
theorem realloc_contract_iff (h : HeapInv cfg s as) (ha : a ∈ as) (hu : (s.blocks a).used ≠ 0)
    (hn : n < sizeMod) (hreply : HonestReply cfg s n reply) :
    ReallocContract cfg s as a n reply ↔
      n ≤ maxRequest ∨ n ≤ sizeMod - 16 ∧ reply.base = 0 := by
  constructor
  · rintro ⟨p, s', as', hrealloc, hresized⟩
    by_contra hbad
    have hbig : maxRequest < n := by omega
    have hp := h.realloc_ne_zero ha hu hn hbig hreply (by tauto) hrealloc
    exact absurd (hresized.le_maxRequest hp) (by omega)
  · exact h.realloc_contract ha hu hreply

/-- The application heap after `malloc(100)`. -/
def oneBlock : HeapState :=
  take appHeap (requestChunk appHeap HeapState.init 112 ⟨0x100000, 0⟩).2 0x100000 112

theorem oneBlock_inv :
    ∃ as, HeapInv appHeap oneBlock as ∧ 0x100000 ∈ as ∧
      (oneBlock.blocks 0x100000).used ≠ 0 := by
  have hreply : HonestReply appHeap HeapState.init 100 ⟨0x100000, 0⟩ :=
    fun _ => ⟨by decide, by decide, by decide, by simp [HeapState.init]⟩
  obtain ⟨p, s', as', hmalloc, hinv, -, hgrant⟩ :=
    (HeapInv.init : HeapInv appHeap _ _).malloc_spec hreply (.inl (by decide))
  have hcall : malloc appHeap HeapState.init 100 ⟨0x100000, 0⟩ = some (0x100020, oneBlock) := rfl
  rw [hcall] at hmalloc
  cases hmalloc
  obtain ⟨-, b, hb, hp, hused, -⟩ := hgrant (by decide)
  have hbase : b = 0x100000 := by omega
  subst hbase
  exact ⟨as', hinv, hb, hused⟩

/-- A block of 112 bytes is moved to 200 bytes. -/
theorem realloc_contract_oneBlock :
    ∃ as, HeapInv appHeap oneBlock as ∧
      ReallocContract appHeap oneBlock as 0x100000 200 ⟨0, 0⟩ := by
  obtain ⟨as, hinv, hmem, hused⟩ := oneBlock_inv
  exact ⟨as, hinv, (realloc_contract_iff hinv hmem hused (by decide)
    (fun h => absurd rfl h)).2 (.inl (by decide))⟩

/-- To `SIZE_MAX` bytes, the block is cut to no bytes and returned. -/
theorem not_realloc_contract :
    ∃ as, HeapInv appHeap oneBlock as ∧ 0x100000 ∈ as ∧ (oneBlock.blocks 0x100000).used ≠ 0 ∧
      ¬ ReallocContract appHeap oneBlock as 0x100000 (2 ^ 64 - 1) ⟨0, 0⟩ := by
  obtain ⟨as, hinv, hmem, hused⟩ := oneBlock_inv
  refine ⟨as, hinv, hmem, hused, ?_⟩
  rintro ⟨p, s', as', hrealloc, hresized⟩
  have hp := hinv.realloc_ne_zero hmem hused (by decide) (by decide) (fun h => absurd rfl h)
    (fun h => absurd h (by decide)) hrealloc
  exact absurd (hresized.le_maxRequest hp) (by decide)

/-! ## Cleared memory -/

/-- `calloc` returns null, or a block that was not in use, with room for all the bytes; these are
zero, and all blocks in use keep their contents. -/
theorem calloc_contract (h : HeapInv cfg s as) {count size : ℕ}
    (hreply : HonestReply cfg s (callocBytes count size) reply)
    (hok : callocBytes count size ≤ maxRequest ∨ Refused cfg s (callocBytes count size) reply) :
    ∃ p s' as', calloc cfg s count size reply = some (p, s') ∧ HeapInv cfg s' as' ∧
      Grants s as s' as' p (count * size) ∧ (p ≠ 0 → ∀ i < count * size, s'.bytes (p + i) = 0) ∧
      ∀ x ∈ as, (s.blocks x).used ≠ 0 → Intact s s' as' x := by
  rw [calloc_eq]
  split
  · exact ⟨0, s, as, rfl, h, fun hp => absurd rfl hp, fun hp => absurd rfl hp,
      fun x hx hu => ⟨hx, hu, rfl, fun _ _ => rfl, Clear.refl s x _⟩⟩
  · rename_i hcall
    have hlt : count * size < sizeMod := by omega
    obtain ⟨p, s', as', hmalloc, hinv, hintact, hgrant⟩ := h.malloc_intact hreply hok
    rw [callocBytes, if_pos hlt] at hgrant
    rw [hmalloc, map_some]
    by_cases hp : p = 0
    · exact ⟨0, s', as', by rw [if_pos hp], hinv, fun h0 => absurd rfl h0,
        fun h0 => absurd rfl h0, hintact⟩
    · obtain ⟨-, b, hb, rfl, hub, hroom, hnew⟩ := hgrant hp
      refine ⟨b + 32, zeroBytes s' (b + 32) (count * size), as', by rw [if_neg hp],
        hinv.withBytes _, hgrant, fun _ i hi => if_pos (by omega), fun x hx hu => ?_⟩
      have hxb : x ≠ b := by
        rintro rfl
        exact hu (hnew hx)
      have hx' := hintact x hx hu
      exact hx'.trans (hinv.write_intact hb hroom (fun _ hy => if_neg hy) hx'.mem hxb hx'.used)

/-- Ten numbers of eight bytes beside a block in use. -/
theorem calloc_contract_oneBlock : ∃ as, HeapInv appHeap oneBlock as ∧
    ∃ p s' as', calloc appHeap oneBlock 10 8 ⟨0, 0⟩ = some (p, s') ∧ HeapInv appHeap s' as' ∧
      Grants oneBlock as s' as' p 80 ∧ (p ≠ 0 → ∀ i < 80, s'.bytes (p + i) = 0) ∧
      ∀ x ∈ as, (oneBlock.blocks x).used ≠ 0 → Intact oneBlock s' as' x := by
  obtain ⟨as, hinv, -⟩ := oneBlock_inv
  exact ⟨as, hinv, calloc_contract hinv (fun h => absurd rfl h) (.inl (by decide))⟩

/-! ## Growing -/

/-- The block `a` is in use and could grow to `n` bytes: its neighbour is free and right behind
it, and both are large enough together. -/
structure CanGrow (s : HeapState) (as : List ℕ) (a n : ℕ) : Prop where
  mem : a ∈ as
  used : (s.blocks a).used ≠ 0
  growth : (s.blocks a).size < n
  neighbour : nextOf s a ≠ 0
  behind : (extentOf s a).hi = nextOf s a
  free : (s.blocks (nextOf s a)).used = 0
  room : n ≤ (s.blocks a).size + 32 + (s.blocks (nextOf s a)).size

theorem CanGrow.le_maxRequest (hcan : CanGrow s as a n) (h : HeapInv cfg s as) :
    n ≤ maxRequest := by
  have hroom := hcan.room
  have hbehind := hcan.behind
  have hmod := h.addr_mod a hcan.mem
  have ha0 := h.list.ne_null a hcan.mem
  have hhi := h.hi_lt (h.next_mem hcan.mem hcan.neighbour)
  rw [extentOf_hi] at hbehind
  simp only [maxRequest, sizeMod] at *
  omega

/-- A block never grows in place: the free neighbour is not merged into a block in use. -/
theorem realloc_moves (h : HeapInv cfg s as) (hcan : CanGrow s as a n)
    (hreply : HonestReply cfg s n reply) :
    ¬ ∃ s', realloc cfg s (a + 32) n reply = some (a + 32, s') := by
  rintro ⟨s', hrealloc⟩
  have hgrowth := hcan.growth
  obtain ⟨hle, hmax⟩ := alignUp_le_of_le_maxRequest (hcan.le_maxRequest h)
  rw [h.realloc_eq hcan.mem hcan.used (by omega), if_neg (by omega)] at hrealloc
  have hreply' : HonestReply cfg s (alignUp n heapAlign) reply := by
    simpa only [HonestReply, alignUp_alignUp] using hreply
  obtain ⟨p, s₁, as₁, hmalloc, -, -, hgrant⟩ := h.malloc_spec hreply' (.inl hmax)
  simp only [hmalloc, bind_some] at hrealloc
  split at hrealloc
  case isTrue hp => simp at hrealloc
  case isFalse hp =>
    obtain ⟨-, b, -, hpb, -, -, hnew⟩ := hgrant hp
    have hret : p = a + 32 := by
      obtain ⟨s₂, -, hs₂⟩ := bind_eq_some_iff.1 hrealloc
      cases hs₂
      rfl
    have hba : b = a := by omega
    exact hcan.used (hba ▸ hnew (hba ▸ hcan.mem))

theorem canGrow_oneBlock : ∃ as, HeapInv appHeap oneBlock as ∧
    CanGrow oneBlock as 0x100000 2097000 := by
  obtain ⟨as, hinv, hmem, hused⟩ := oneBlock_inv
  exact ⟨as, hinv, hmem, hused, by decide, by decide, by decide, by decide, by decide⟩

/-- The block of `malloc(100)` at the start of its chunk. -/
theorem realloc_moves_oneBlock :
    ¬ ∃ s', realloc appHeap oneBlock (0x100000 + 32) 2097000 ⟨0x400000, 0⟩ =
      some (0x100000 + 32, s') := by
  obtain ⟨as, hinv, hcan⟩ := canGrow_oneBlock
  exact realloc_moves hinv hcan fun _ =>
    ⟨by decide, by decide, by decide, by decide⟩

/-- Without another chunk, growing fails, although the chunk of the block is free behind it. -/
theorem not_grows_in_place :
    ∃ as, HeapInv appHeap oneBlock as ∧ CanGrow oneBlock as 0x100000 2097000 ∧
      (realloc appHeap oneBlock (0x100000 + 32) 2097000 ⟨0, 0⟩).map Prod.fst = some 0 := by
  obtain ⟨as, hinv, hcan⟩ := canGrow_oneBlock
  exact ⟨as, hinv, hcan, by decide⟩

end Cleonos.Heap
