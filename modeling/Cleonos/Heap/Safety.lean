import Cleonos.Heap.Operations
import Cleonos.Lib.Run

/-!
# Heap safety over whole runs

A `World` is the allocator together with the allocations its client still holds.
-/

namespace Cleonos.Heap

open List Option

/-- An allocation the client holds: the pointer, and the bytes it asked for. -/
structure Alloc where
  ptr : ℕ
  bytes : ℕ
  deriving DecidableEq, Repr

/-- The bytes of an allocation the client may touch. -/
def Alloc.extent (x : Alloc) : Extent := ⟨x.ptr, x.ptr + x.bytes⟩

/-- The allocator and its live allocations. -/
structure World where
  heap : HeapState
  live : List Alloc

def World.init : World := ⟨HeapState.init, []⟩

inductive HeapCall
  | malloc (size : ℕ)
  | free (ptr : ℕ)
  | calloc (count size : ℕ)
  | realloc (ptr size : ℕ)
  deriving DecidableEq, Repr

/-- The bytes the caller of a call that returns a pointer may rely on. -/
def HeapCall.bytes : HeapCall → ℕ
  | malloc size => size
  | free _ => 0
  | calloc count size => count * size
  | realloc _ size => size

/-- Record a returned pointer; null is no allocation. -/
def grant (ptr bytes : ℕ) (live : List Alloc) : List Alloc :=
  if ptr = 0 then live else ⟨ptr, bytes⟩ :: live

def release (ptr : ℕ) (live : List Alloc) : List Alloc :=
  live.filter fun x => x.ptr ≠ ptr

/-- One call, with the bookkeeping the interface documents: a failed `realloc`
leaves the old allocation, and `realloc` to zero bytes frees it. -/
def step (cfg : HeapConfig) (w : World) (call : HeapCall) (reply : ChunkReply) :
    Option (ℕ × World) :=
  match call with
  | .malloc size =>
    (malloc cfg w.heap size reply).map fun r => (r.1, ⟨r.2, grant r.1 size w.live⟩)
  | .free ptr => (free cfg w.heap ptr).map fun s => (0, ⟨s, release ptr w.live⟩)
  | .calloc count size =>
    (calloc cfg w.heap count size reply).map fun r =>
      (r.1, ⟨r.2, grant r.1 (count * size) w.live⟩)
  | .realloc ptr size =>
    (realloc cfg w.heap ptr size reply).map fun r =>
      (r.1, ⟨r.2, if ptr = 0 then grant r.1 size w.live
        else if size = 0 then release ptr w.live
        else if r.1 = 0 then w.live
        else grant r.1 size (release ptr w.live)⟩)

/-! ## The conditions on a call -/

/-- A pointer the client may pass to `free` or `realloc`. -/
def Holds (w : World) (ptr : ℕ) : Prop := ptr = 0 ∨ ∃ x ∈ w.live, x.ptr = ptr

/-- Arguments are of type `size_t`, and pointers are null or live. -/
def Legal (w : World) : HeapCall → Prop
  | .malloc size => size < sizeMod
  | .free ptr => Holds w ptr
  | .calloc count size => count < sizeMod ∧ size < sizeMod
  | .realloc ptr size => size < sizeMod ∧ Holds w ptr

/-- A chunk that the page source grants during the call is fresh. -/
def Honest (cfg : HeapConfig) (w : World) (reply : ChunkReply) : HeapCall → Prop
  | .malloc size => HonestReply cfg w.heap size reply
  | .free _ => True
  | .calloc count size => HonestReply cfg w.heap (callocBytes count size) reply
  | .realloc _ size => HonestReply cfg w.heap size reply

/-- The request stays within the bound, or is refused. -/
def Bounded (cfg : HeapConfig) (w : World) (reply : ChunkReply) : HeapCall → Prop
  | .malloc size => size ≤ maxRequest ∨ Refused cfg w.heap size reply
  | .free _ => True
  | .calloc count size =>
    callocBytes count size ≤ maxRequest ∨ Refused cfg w.heap (callocBytes count size) reply
  | .realloc ptr size =>
    size ≤ maxRequest ∨
      if ptr = 0 then Refused cfg w.heap size reply
      else size ≤ sizeMod - 16 ∧ reply.base = 0

/-- A step of a client and a page source that keep their promises. -/
def Step (cfg : HeapConfig) (w w' : World) : Prop :=
  ∃ call reply out, Legal w call ∧ Honest cfg w reply call ∧
    step cfg w call reply = some (out, w')

/-- A step whose request is bounded, too. -/
def BoundedStep (cfg : HeapConfig) (w w' : World) : Prop :=
  ∃ call reply out, Legal w call ∧ Honest cfg w reply call ∧ Bounded cfg w reply call ∧
    step cfg w call reply = some (out, w')

/-- No chunk of the list begins where the chunk handed out before it ends. -/
def NoneTouch (chunks : List Extent) : Prop :=
  chunks.IsChain fun c d => d.hi ≠ c.lo

/-- The block list at the addresses `as` is well formed: links agree, magic words
are intact, blocks are apart and lie inside memory of the kernel, each inside one
chunk unless consecutive chunks happen to touch. -/
structure WellFormed (cfg : HeapConfig) (s : HeapState) (as : List ℕ) : Prop where
  list : DList (nextOf s) (prevOf s) 0 s.head s.tail as
  magic : ∀ a ∈ as, (s.blocks a).magic = cfg.magic
  apart : ∀ a ∈ as, ∀ b ∈ as, a ≠ b → (extentOf s a).Apart (extentOf s b)
  inside : ∀ a ∈ as, ∃ r ∈ regions s, (extentOf s a).Within r
  inside_chunk : NoneTouch s.chunks → ∀ a ∈ as, ∃ c ∈ s.chunks, (extentOf s a).Within c

/-- An allocation is the payload of a block in use that is large enough. -/
def Backed (s : HeapState) (as : List ℕ) (x : Alloc) : Prop :=
  ∃ a ∈ as, x.ptr = a + 32 ∧ (s.blocks a).used ≠ 0 ∧ 0 < x.bytes ∧ x.bytes ≤ (s.blocks a).size

/-- The heap is well formed, and the live allocations are aligned, backed by blocks
that are large enough, and do not overlap. -/
def HeapSafe (cfg : HeapConfig) (w : World) : Prop :=
  ∃ as, WellFormed cfg w.heap as ∧
    (∀ x ∈ w.live, x.ptr % 16 = 0 ∧ Backed w.heap as x) ∧
    w.live.Pairwise fun x y => x.extent.Apart y.extent

variable {cfg : HeapConfig} {s s' : HeapState} {as as' : List ℕ}

/-- The invariant of the heap, with every live pointer backed by a block of its own. -/
structure WorldInv (cfg : HeapConfig) (w : World) (as : List ℕ) : Prop where
  heap : HeapInv cfg w.heap as
  backed : ∀ x ∈ w.live, Backed w.heap as x
  nodup : (w.live.map Alloc.ptr).Nodup

theorem WorldInv.init : WorldInv cfg World.init [] :=
  ⟨HeapInv.init, by simp [World.init], by simp [World.init]⟩

theorem HeapInv.wellFormed (h : HeapInv cfg s as) : WellFormed cfg s as := by
  refine ⟨h.list, h.magic, h.apart, h.inside, fun htouch a ha => ?_⟩
  have hr : regions s = s.chunks := joinExtents_eq_self htouch
  exact hr ▸ h.inside a ha

variable {w : World} {a : ℕ} {live : List Alloc} {x : Alloc}

theorem HeapInv.backed_apart (h : HeapInv cfg s as) {y : Alloc} (hx : Backed s as x)
    (hy : Backed s as y) (hne : x.ptr ≠ y.ptr) : x.extent.Apart y.extent := by
  obtain ⟨a, ha, hxa, -, -, hxs⟩ := hx
  obtain ⟨b, hb, hyb, -, -, hys⟩ := hy
  have hab : a ≠ b := fun hab => hne (by omega)
  refine (h.apart a ha b hb hab).mono ?_ ?_
  all_goals
    simp only [Extent.Within, Alloc.extent, extentOf_lo, extentOf_hi]
    omega

theorem WorldInv.safe (h : WorldInv cfg w as) : HeapSafe cfg w := by
  refine ⟨as, h.heap.wellFormed, fun x hx => ⟨?_, h.backed x hx⟩, ?_⟩
  · obtain ⟨a, ha, hxa, -⟩ := h.backed x hx
    have := h.heap.addr_mod a ha
    omega
  · have hnd : w.live.Pairwise fun x y => x.ptr ≠ y.ptr := pairwise_map.1 h.nodup
    exact hnd.imp_of_mem fun hx hy hne =>
      h.heap.backed_apart (h.backed _ hx) (h.backed _ hy) hne

theorem Backed.keeps (h : Backed s as x) (hk : Keeps s as s' as') : Backed s' as' x := by
  obtain ⟨a, ha, hxa, hu, h0, hs⟩ := h
  obtain ⟨ha', hu', hs'⟩ := hk a ha hu
  exact ⟨a, ha', hxa, hu', h0, by rw [hs']; exact hs⟩

theorem Backed.keepsBut (h : Backed s as x) (hk : KeepsBut s as a s' as')
    (hne : x.ptr ≠ a + 32) : Backed s' as' x := by
  obtain ⟨b, hb, hxb, hu, h0, hs⟩ := h
  obtain ⟨hb', hu', hs'⟩ := hk b hb (fun hba => hne (by omega)) hu
  exact ⟨b, hb', hxb, hu', h0, by rw [hs']; exact hs⟩

theorem mem_release {ptr : ℕ} : x ∈ release ptr live ↔ x ∈ live ∧ x.ptr ≠ ptr := by
  simp [release]

theorem WorldInv.of_release (h : WorldInv cfg ⟨s, live⟩ as)
    (h' : HeapInv cfg s' as') (hk : KeepsBut s as a s' as') :
    WorldInv cfg ⟨s', release (a + 32) live⟩ as' := by
  refine ⟨h', fun x hx => ?_, ?_⟩
  · obtain ⟨hx, hne⟩ := mem_release.1 hx
    exact (h.backed x hx).keepsBut hk hne
  · exact h.nodup.sublist (filter_sublist.map _)

theorem WorldInv.cons {live : List Alloc} {b n : ℕ} (h : WorldInv cfg ⟨s, live⟩ as)
    (hb : b ∈ as) (hu : (s.blocks b).used ≠ 0) (hn : 0 < n) (hs : n ≤ (s.blocks b).size)
    (hnew : ∀ x ∈ live, x.ptr ≠ b + 32) : WorldInv cfg ⟨s, ⟨b + 32, n⟩ :: live⟩ as := by
  refine ⟨h.heap, fun x hx => ?_, ?_⟩
  · rcases mem_cons.1 hx with rfl | hx
    · exact ⟨b, hb, rfl, hu, hn, hs⟩
    · exact h.backed x hx
  · refine nodup_cons.2 ⟨fun hm => ?_, h.nodup⟩
    obtain ⟨x, hx, hxb⟩ := mem_map.1 hm
    exact hnew x hx hxb

theorem WorldInv.of_grant {p n : ℕ} (h : WorldInv cfg ⟨s, live⟩ as)
    (h' : HeapInv cfg s' as') (hk : Keeps s as s' as') (hg : Grants s as s' as' p n) :
    WorldInv cfg ⟨s', grant p n live⟩ as' := by
  have hold : WorldInv cfg ⟨s', live⟩ as' := ⟨h', fun x hx => (h.backed x hx).keeps hk, h.nodup⟩
  by_cases hp : p = 0
  · rw [grant, if_pos hp]
    exact hold
  · obtain ⟨hn, b, hb, rfl, hu, hs, hfree⟩ := hg hp
    rw [grant, if_neg hp]
    refine hold.cons hb hu hn hs fun x hx hxb => ?_
    -- the block of a live allocation was in use before the call
    obtain ⟨a, ha, hxa, hua, -⟩ := h.backed x hx
    have hab : a = b := by omega
    subst hab
    exact hua (hfree ha)

theorem WorldInv.block_of_holds {ptr : ℕ} (h : WorldInv cfg w as) (hp : Holds w ptr)
    (h0 : ptr ≠ 0) : ∃ a ∈ as, ptr = a + 32 ∧ (w.heap.blocks a).used ≠ 0 := by
  rcases hp with hp | ⟨x, hx, rfl⟩
  · exact absurd hp h0
  · obtain ⟨a, ha, hxa, hu, -⟩ := h.backed x hx
    exact ⟨a, ha, hxa, hu⟩

theorem WorldInv.realloc_spec {n : ℕ} {reply : ChunkReply} (h : WorldInv cfg w as)
    (ha : a ∈ as) (hu : (w.heap.blocks a).used ≠ 0) (hn : n ≠ 0)
    (hreply : HonestReply cfg w.heap n reply)
    (hok : n ≤ maxRequest ∨ n ≤ sizeMod - 16 ∧ reply.base = 0) :
    ∃ p s' as', realloc cfg w.heap (a + 32) n reply = some (p, s') ∧
      WorldInv cfg ⟨s', if p = 0 then w.live else grant p n (release (a + 32) w.live)⟩ as' := by
  obtain ⟨p, s', as', hcall, hinv, hbut, hnull, hgrant⟩ := h.heap.realloc_spec ha hu hn hreply hok
  refine ⟨p, s', as', hcall, ?_⟩
  by_cases hp : p = 0
  · rw [if_pos hp]
    exact ⟨hinv, fun x hx => (h.backed x hx).keeps (hnull hp), h.nodup⟩
  · obtain ⟨b, hb, rfl, hub, hsb, hfree⟩ := hgrant hp
    rw [if_neg hp, grant, if_neg hp]
    refine (h.of_release hinv hbut).cons hb hub (Nat.pos_of_ne_zero hn) hsb fun x hx hxb => ?_
    obtain ⟨hx, hne⟩ := mem_release.1 hx
    obtain ⟨c, hc, hxc, huc, -⟩ := h.backed x hx
    have hcb : c = b := by omega
    subst hcb
    exact huc (hfree hc fun hca => hne (by omega))

theorem WorldInv.step_spec {w : World} {call : HeapCall} {reply : ChunkReply}
    (h : WorldInv cfg w as) (hl : Legal w call) (hh : Honest cfg w reply call)
    (hb : Bounded cfg w reply call) :
    ∃ out w' as', step cfg w call reply = some (out, w') ∧ WorldInv cfg w' as' ∧
      (out ≠ 0 → ⟨out, call.bytes⟩ ∈ w'.live) := by
  cases call with
  | malloc size =>
    obtain ⟨p, s', as', hcall, hinv, hkeep, hg⟩ := h.heap.malloc_spec hh hb
    refine ⟨p, _, as', by simp only [step, hcall, map_some], h.of_grant hinv hkeep hg,
      fun hp => ?_⟩
    simp [grant, hp, HeapCall.bytes]
  | free ptr =>
    by_cases hp : ptr = 0
    · subst hp
      have hsame : release 0 w.live = w.live := by
        refine filter_eq_self.2 fun x hx => ?_
        obtain ⟨a, -, hxa, -⟩ := h.backed x hx
        simp only [ne_eq, decide_eq_true_eq]
        omega
      exact ⟨0, w, as, by simp only [step, free_zero, map_some, hsame], h,
        fun h0 => absurd rfl h0⟩
    · obtain ⟨a, ha, rfl, hu⟩ := h.block_of_holds hl hp
      obtain ⟨s', as', hcall, hinv, hbut⟩ := h.heap.free_spec ha hu
      exact ⟨0, _, as', by simp only [step, hcall, map_some], h.of_release hinv hbut,
        fun h0 => absurd rfl h0⟩
  | calloc count size =>
    obtain ⟨p, s', as', hcall, hinv, hkeep, hg⟩ := h.heap.calloc_spec hh hb
    refine ⟨p, _, as', by simp only [step, hcall, map_some], h.of_grant hinv hkeep hg,
      fun hp => ?_⟩
    simp [grant, hp, HeapCall.bytes]
  | realloc ptr size =>
    by_cases hp : ptr = 0
    · -- `realloc` of null is `malloc`
      have hok : size ≤ maxRequest ∨ Refused cfg w.heap size reply := by
        simpa only [Bounded, if_pos hp] using hb
      obtain ⟨p, s', as', hcall, hinv, hkeep, hg⟩ := h.heap.malloc_spec hh hok
      refine ⟨p, _, as', by simp only [step, realloc, if_pos hp, hcall, map_some],
        h.of_grant hinv hkeep hg, fun hp' => ?_⟩
      simp [grant, hp', HeapCall.bytes]
    obtain ⟨a, ha, rfl, hu⟩ := h.block_of_holds hl.2 hp
    by_cases hn : size = 0
    · -- `realloc` to zero bytes is `free`
      obtain ⟨s', as', hcall, hinv, hbut⟩ := h.heap.free_spec ha hu
      exact ⟨0, _, as', by simp only [step, realloc, if_neg hp, if_pos hn, hcall,
        bind_eq_bind, bind_some, map_some], h.of_release hinv hbut,
        fun h0 => absurd rfl h0⟩
    · have hok : size ≤ maxRequest ∨ size ≤ sizeMod - 16 ∧ reply.base = 0 := by
        simpa only [Bounded, if_neg hp] using hb
      obtain ⟨p, s', as', hcall, hinv⟩ := h.realloc_spec ha hu hn hh hok
      refine ⟨p, _, as', by simp only [step, hcall, if_neg hp, if_neg hn, map_some], hinv,
        fun hp' => ?_⟩
      simp [grant, hp', HeapCall.bytes]

/-- Every run of bounded steps is safe, every further bounded call returns, and a
pointer it returns is aligned and is a live allocation of the requested size. -/
theorem heap_safe_of_bounded_runs (cfg : HeapConfig) (w : World)
    (hw : Reachable (· = World.init) (BoundedStep cfg) w) :
    HeapSafe cfg w ∧
      ∀ call reply, Legal w call → Honest cfg w reply call → Bounded cfg w reply call →
        ∃ out w', step cfg w call reply = some (out, w') ∧ HeapSafe cfg w' ∧
          (out ≠ 0 → out % 16 = 0 ∧ ⟨out, call.bytes⟩ ∈ w'.live) := by
  have hinv : ∃ as, WorldInv cfg w as := by
    refine Reachable.invariant (I := fun w => ∃ as, WorldInv cfg w as) ?_ ?_ hw
    · rintro _ rfl
      exact ⟨[], WorldInv.init⟩
    · rintro v v' ⟨as, hv⟩ ⟨call, reply, out, hl, hh, hb, hstep⟩
      obtain ⟨out', v'', as', hstep', hv', -⟩ := hv.step_spec hl hh hb
      rw [hstep'] at hstep
      cases hstep
      exact ⟨as', hv'⟩
  obtain ⟨as, hinv⟩ := hinv
  refine ⟨hinv.safe, fun call reply hl hh hb => ?_⟩
  obtain ⟨out, w', as', hstep, hinv', hlive⟩ := hinv.step_spec hl hh hb
  have hsafe := hinv'.safe
  refine ⟨out, w', hstep, hsafe, fun hout => ⟨?_, hlive hout⟩⟩
  obtain ⟨as'', -, hall, -⟩ := hsafe
  exact (hall _ (hlive hout)).1

/-- One bounded `malloc` on a fresh application heap. -/
theorem heap_safe_after_malloc :
    ∃ w, step appHeap World.init (.malloc 100) ⟨0x100000, 0⟩ = some (0x100020, w) ∧
      HeapSafe appHeap w :=
  ⟨_, rfl, (heap_safe_of_bounded_runs appHeap _ (.next (.start rfl)
    ⟨.malloc 100, ⟨0x100000, 0⟩, 0x100020, (by decide : 100 < sizeMod),
      fun _ => ⟨by decide, by decide, by decide, by simp [World.init, HeapState.init]⟩,
      Or.inl (by decide), rfl⟩)).1⟩

/-- Without the bound a run can leave a live allocation in a block of size zero: the
rounding of `SIZE_MAX` wraps. -/
theorem heap_unsafe_beyond_bound :
    ¬ ∀ w, Reachable (· = World.init) (Step appHeap) w → HeapSafe appHeap w := by
  intro h
  obtain ⟨as, -, hall, -⟩ := h _ (.next (.start rfl)
    ⟨.malloc (2 ^ 64 - 1), ⟨0x100000, 0⟩, 0x100020, (by decide : 2 ^ 64 - 1 < sizeMod),
      fun _ => ⟨by decide, by decide, by decide, by simp [World.init, HeapState.init]⟩, rfl⟩)
  obtain ⟨-, a, -, hptr, -, -, hsize⟩ := hall ⟨0x100020, 2 ^ 64 - 1⟩ (by decide)
  have ha : a = 0x100000 := by simp only at hptr; omega
  subst ha
  exact absurd hsize (by decide)

end Cleonos.Heap
