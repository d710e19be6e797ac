import Cleonos.Doom.HeapOperations
import Cleonos.Heap.Safety

/-!
# Runs of the game's heap

A run is any sequence of calls with any `size_t` arguments, in which only live pointers are freed
or reallocated, and in between the client writes into its allocations.
-/

namespace Cleonos.Doom

open List
open Heap (sizeMod Alloc grant release mem_release)

/-- The allocator and its live allocations. -/
structure World where
  heap : DgHeap
  live : List Alloc

def World.init (bytes : ℕ → UInt8) : World := ⟨DgHeap.init bytes, []⟩

/-- The three calls, and a store by the client. -/
inductive HeapCall
  | malloc (size : ℕ)
  | free (ptr : ℕ)
  | realloc (ptr size : ℕ)
  | store (addr : ℕ) (value : UInt8)
  deriving DecidableEq, Repr

namespace HeapCall

open List

/-- The bytes the caller of a call that returns a pointer may rely on. -/
def bytes : HeapCall → ℕ
  | malloc size => size
  | realloc _ size => size
  | free _ => 0
  | store _ _ => 0

/-- The pointer a call may take back. -/
def target : HeapCall → ℕ
  | malloc _ => 0
  | free ptr => ptr
  | realloc ptr _ => ptr
  | store _ _ => 0

/-- The address is the one the client stores to. -/
def Writes (x : ℕ) : HeapCall → Prop
  | store addr _ => addr = x
  | _ => False

end HeapCall

/-- One call, with the bookkeeping the interface documents: a failed `realloc` leaves the old
allocation, and `realloc` to zero bytes frees it. -/
def step (arena : Arena) (w : World) : HeapCall → Option (ℕ × World)
  | .malloc size => (malloc arena w.heap size).map fun r => (r.1, ⟨r.2, grant r.1 size w.live⟩)
  | .free ptr => some (0, ⟨free w.heap ptr, release ptr w.live⟩)
  | .realloc ptr size =>
    (realloc arena w.heap ptr size).map fun r =>
      (r.1, ⟨r.2, if ptr = 0 then grant r.1 size w.live
        else if size = 0 then release ptr w.live
        else if r.1 = 0 then w.live
        else grant r.1 size (release ptr w.live)⟩)
  | .store addr value =>
    some (0, ⟨{ w.heap with bytes := Function.update w.heap.bytes addr value }, w.live⟩)

/-! ## The conditions on a call -/

/-- A pointer the client may pass to `free` or `realloc`. -/
def Holds (w : World) (ptr : ℕ) : Prop := ptr = 0 ∨ ∃ x ∈ w.live, x.ptr = ptr

/-- Arguments are of type `size_t`, pointers are null or live, and the client stores into its
allocations. -/
def Legal (w : World) : HeapCall → Prop
  | .malloc size => size < sizeMod
  | .free ptr => Holds w ptr
  | .realloc ptr size => size < sizeMod ∧ Holds w ptr
  | .store addr _ => ∃ x ∈ w.live, x.ptr ≤ addr ∧ addr < x.ptr + x.bytes

/-- The request is rounded up within `size_t`, or no block is free. -/
def Bounded (w : World) (call : HeapCall) : Prop := Fits w.heap call.bytes

/-- A step of a client that keeps its promises. -/
def Step (arena : Arena) (w w' : World) : Prop :=
  ∃ call out, Legal w call ∧ step arena w call = some (out, w')

/-- A step whose request is bounded, too. -/
def BoundedStep (arena : Arena) (w w' : World) : Prop :=
  ∃ call out, Legal w call ∧ Bounded w call ∧ step arena w call = some (out, w')

/-- An allocation is the payload of a block in use that is large enough. -/
def Backed (s : DgHeap) (as : List ℕ) (x : Alloc) : Prop :=
  ∃ a ∈ as, x.ptr = a + 32 ∧ (s.hdrs a).free = false ∧ x.bytes ≤ (s.hdrs a).size

/-- The blocks are linked in order and tile the arena, and the live allocations are aligned, backed
by blocks that are large enough, and do not overlap. -/
def HeapSafe (arena : Arena) (w : World) : Prop :=
  ∃ as, HeapInv arena w.heap as ∧ (∀ x ∈ w.live, x.ptr % 16 = 0 ∧ Backed w.heap as x) ∧
    w.live.Pairwise fun x y => x.extent.Apart y.extent

/-- The bytes of an allocation are the same in two states, those that the call stores to apart. -/
def SameBytes (call : HeapCall) (w w' : World) (x : Alloc) : Prop :=
  ∀ i < x.bytes, ¬ call.Writes (x.ptr + i) →
    w'.heap.bytes (x.ptr + i) = w.heap.bytes (x.ptr + i)

/-- Allocations that a call does not take back keep their bytes, `realloc` keeps those that fit
into the new size, and a failed `realloc` is without effect on the old allocation. -/
structure Preserves (w : World) (call : HeapCall) (out : ℕ) (w' : World) : Prop where
  others : ∀ x ∈ w.live, x.ptr ≠ call.target → x ∈ w'.live ∧ SameBytes call w w' x
  moved : ∀ x ∈ w.live, ∀ size, call = .realloc x.ptr size → out ≠ 0 →
    ∀ i < min x.bytes size, w'.heap.bytes (out + i) = w.heap.bytes (x.ptr + i)
  failed : ∀ x ∈ w.live, ∀ size, call = .realloc x.ptr size → size ≠ 0 → out = 0 →
    x ∈ w'.live ∧ SameBytes call w w' x

variable {arena : Arena} {w w' : World} {s s' : DgHeap} {as as' : List ℕ} {live : List Alloc}
  {x y : Alloc} {a b n p : ℕ}

/-- The invariant of the heap, with every live pointer backed by a block of its own. -/
structure WorldInv (arena : Arena) (w : World) (as : List ℕ) : Prop where
  heap : HeapInv arena w.heap as
  backed : ∀ x ∈ w.live, Backed w.heap as x
  nodup : (w.live.map Alloc.ptr).Nodup

theorem WorldInv.init (bytes : ℕ → UInt8) : WorldInv arena (World.init bytes) [] :=
  ⟨.inr ⟨rfl, rfl⟩, by simp [World.init], by simp [World.init]⟩

theorem HeapInv.arenaInv (h : HeapInv arena s as) (ha : a ∈ as) : ArenaInv arena s as := by
  rcases h with h | ⟨-, rfl⟩
  · exact h
  · exact absurd ha not_mem_nil

theorem ArenaInv.backed_apart (h : ArenaInv arena s as) (hx : Backed s as x) (hy : Backed s as y)
    (hne : x.ptr ≠ y.ptr) : x.extent.Apart y.extent := by
  obtain ⟨a, ha, hxa, -, hxs⟩ := hx
  obtain ⟨b, hb, hyb, -, hys⟩ := hy
  have hab : a ≠ b := fun hab => hne (by omega)
  refine (h.tiles.apart ha hb hab).mono ?_ ?_
  all_goals
    simp only [Extent.Within, Alloc.extent, spanOf]
    omega

theorem WorldInv.safe (h : WorldInv arena w as) : HeapSafe arena w := by
  refine ⟨as, h.heap, fun x hx => ⟨?_, h.backed x hx⟩, ?_⟩
  · obtain ⟨a, ha, hxa, -⟩ := h.backed x hx
    have := (h.heap.arenaInv ha).addr_mod ha
    omega
  · have hnd : w.live.Pairwise fun x y => x.ptr ≠ y.ptr := pairwise_map.1 h.nodup
    refine hnd.imp_of_mem fun hx hy hne => ?_
    obtain ⟨a, ha, -⟩ := h.backed _ hx
    exact (h.heap.arenaInv ha).backed_apart (h.backed _ hx) (h.backed _ hy) hne

theorem Backed.keeps (h : Backed s as x) (hk : Keeps s as s' as') : Backed s' as' x := by
  obtain ⟨a, ha, hxa, hu, hs⟩ := h
  obtain ⟨ha', hu', hs'⟩ := hk a ha hu
  exact ⟨a, ha', hxa, hu', hs.trans_eq hs'.symm⟩

theorem Backed.keepsBut (h : Backed s as x) (hk : KeepsBut a s as s' as') (hne : x.ptr ≠ a + 32) :
    Backed s' as' x := by
  obtain ⟨b, hb, hxb, hu, hs⟩ := h
  obtain ⟨hb', hu', hs'⟩ := hk b hb (fun hba => hne (by omega)) hu
  exact ⟨b, hb', hxb, hu', hs.trans_eq hs'.symm⟩

section

variable (h : WorldInv arena ⟨s, live⟩ as)
include h

theorem WorldInv.of_release (h' : HeapInv arena s' as')
    (hk : KeepsBut a s as s' as') : WorldInv arena ⟨s', release (a + 32) live⟩ as' := by
  refine ⟨h', fun x hx => ?_, h.nodup.sublist (filter_sublist.map _)⟩
  obtain ⟨hx, hne⟩ := mem_release.1 hx
  exact (h.backed x hx).keepsBut hk hne

theorem WorldInv.cons (hb : b ∈ as)
    (hu : (s.hdrs b).free = false) (hs : n ≤ (s.hdrs b).size)
    (hnew : ∀ x ∈ live, x.ptr ≠ b + 32) : WorldInv arena ⟨s, ⟨b + 32, n⟩ :: live⟩ as := by
  refine ⟨h.heap, fun x hx => ?_, ?_⟩
  · rcases mem_cons.1 hx with rfl | hx
    · exact ⟨b, hb, rfl, hu, hs⟩
    · exact h.backed x hx
  · refine nodup_cons.2 ⟨fun hm => ?_, h.nodup⟩
    obtain ⟨x, hx, hxb⟩ := mem_map.1 hm
    exact hnew x hx hxb

theorem WorldInv.of_grant (h' : ArenaInv arena s' as')
    (hk : Keeps s as s' as') (hg : p ≠ 0 → Grants s as s' as' p n) :
    WorldInv arena ⟨s', grant p n live⟩ as' := by
  have hold : WorldInv arena ⟨s', live⟩ as' :=
    ⟨.inl h', fun x hx => (h.backed x hx).keeps hk, h.nodup⟩
  by_cases hp : p = 0
  · rw [grant, if_pos hp]
    exact hold
  · obtain ⟨b, hb, rfl, hu, hs, hfree⟩ := hg hp
    rw [grant, if_neg hp]
    refine hold.cons hb hu hs fun x hx hxb => ?_
    -- the block of a live allocation was in use before the call
    obtain ⟨a, ha, hxa, hua, -⟩ := h.backed x hx
    have hab : a = b := by omega
    subst hab
    rw [hfree ha] at hua
    exact absurd hua (by simp)

end

theorem WorldInv.block_of_holds (h : WorldInv arena w as) (hp : Holds w p) (h0 : p ≠ 0) :
    ∃ a ∈ as, p = a + 32 ∧ (w.heap.hdrs a).free = false := by
  rcases hp with hp | ⟨x, hx, rfl⟩
  · exact absurd hp h0
  · obtain ⟨a, ha, hxa, hu, -⟩ := h.backed x hx
    exact ⟨a, ha, hxa, hu⟩

theorem Preserves.of_all {call : HeapCall} {out : ℕ}
    (hall : ∀ x ∈ w.live, x ∈ w'.live ∧ SameBytes call w w' x)
    (hno : ∀ x ∈ w.live, ∀ size, call ≠ .realloc x.ptr size) : Preserves w call out w' :=
  ⟨fun x hx _ => hall x hx, fun x hx size hcall => absurd hcall (hno x hx size),
    fun x hx size hcall => absurd hcall (hno x hx size)⟩

theorem SameBytes.of_eq {call : HeapCall} (h : w'.heap.bytes = w.heap.bytes) :
    SameBytes call w w' x :=
  fun _ _ _ => by rw [h]

theorem mem_grant (hx : x ∈ live) : x ∈ grant p n live := by
  rw [grant]
  split
  · exact hx
  · exact mem_cons_of_mem _ hx

theorem Preserves.of_free {out : ℕ}
    (hall : ∀ x ∈ w.live, x.ptr ≠ p → x ∈ w'.live ∧ w'.heap.bytes = w.heap.bytes) :
    Preserves w (.free p) out w' :=
  ⟨fun x hx hne => ⟨(hall x hx hne).1, .of_eq (hall x hx hne).2⟩, by simp, by simp⟩

/-- What a call that returns is to ensure. -/
def Ensures (arena : Arena) (w : World) (call : HeapCall) : Prop :=
  ∃ out w' as', step arena w call = some (out, w') ∧ WorldInv arena w' as' ∧
    Preserves w call out w' ∧ (out ≠ 0 → ⟨out, call.bytes⟩ ∈ w'.live)

section

variable (h : WorldInv arena w as)
include h

theorem WorldInv.malloc_ensures (hfits : Fits w.heap n) :
    Ensures arena w (.malloc n) := by
  obtain ⟨p, s', as', hcall, hinv, hkeep, hbytes, hg⟩ := h.heap.malloc_spec hfits
  refine ⟨p, _, as', by rw [step, hcall, Option.map_some], h.of_grant hinv hkeep hg, ?_, ?_⟩
  · exact .of_all (fun x hx => ⟨mem_grant hx, .of_eq hbytes⟩)
      fun x hx size => by simp
  · intro hp
    simp [grant, hp, HeapCall.bytes]

theorem WorldInv.ptr_ne_zero (hx : x ∈ w.live) : x.ptr ≠ 0 := by
  obtain ⟨a, -, hxa, -⟩ := h.backed x hx
  omega

theorem WorldInv.free_ensures (hp : Holds w p) :
    Ensures arena w (.free p) := by
  by_cases h0 : p = 0
  · subst h0
    have hsame : release 0 w.live = w.live := by
      refine filter_eq_self.2 fun x hx => ?_
      simpa using h.ptr_ne_zero hx
    refine ⟨0, w, as, ?_, h, .of_all (fun x hx => ⟨hx, .of_eq rfl⟩) (by simp),
      fun h0 => absurd rfl h0⟩
    have hnull : free w.heap 0 = w.heap := rfl
    rw [step, hsame, hnull]
  · obtain ⟨a, ha, rfl, -⟩ := h.block_of_holds hp h0
    obtain ⟨as', hinv, hkeep, hbytes⟩ := (h.heap.arenaInv ha).free_spec ha
    exact ⟨0, _, as', by rw [step], h.of_release (.inl hinv) hkeep,
      .of_free fun x hx hne => ⟨mem_release.2 ⟨hx, hne⟩, hbytes⟩, fun h0 => absurd rfl h0⟩

theorem WorldInv.realloc_zero_ensures (ha : a ∈ as) :
    Ensures arena w (.realloc (a + 32) 0) := by
  obtain ⟨as', hinv, hkeep, hbytes⟩ := (h.heap.arenaInv ha).free_spec ha
  have h0 : a + 32 ≠ 0 := by omega
  refine ⟨0, _, as', by rw [step, realloc, if_neg h0, if_pos rfl, Option.map_some, if_neg h0,
    if_pos rfl], h.of_release (.inl hinv) hkeep, ⟨?_, ?_, ?_⟩, fun h0 => absurd rfl h0⟩
  · exact fun x hx hne => ⟨mem_release.2 ⟨hx, hne⟩, .of_eq hbytes⟩
  · exact fun x _ size _ h0 => absurd rfl h0
  · intro x _ size hcall hsize
    rw [HeapCall.realloc.injEq] at hcall
    exact absurd hcall.2.symm hsize

theorem WorldInv.realloc_ensures (ha : a ∈ as)
    (hu : (w.heap.hdrs a).free = false) (hn : n ≠ 0) (hfits : Fits w.heap n) :
    Ensures arena w (.realloc (a + 32) n) := by
  obtain ⟨p, s', as', hcall, hinv, hbut, hsame, hnull, hgrant⟩ :=
    (h.heap.arenaInv ha).realloc_spec ha hu hn hfits
  have h0 : a + 32 ≠ 0 := by omega
  -- the bytes of the allocations in other blocks
  have hother : ∀ x ∈ w.live, x.ptr ≠ a + 32 → ∀ i < x.bytes,
      s'.bytes (x.ptr + i) = w.heap.bytes (x.ptr + i) := by
    intro x hx hne i hi
    obtain ⟨c, hc, hxc, huc, hsc⟩ := h.backed x hx
    rw [hxc]
    exact hsame c hc (fun hca => hne (by omega)) huc i (by omega)
  have hstep : step arena w (.realloc (a + 32) n) = some (p, ⟨s', if p = 0 then w.live
      else grant p n (release (a + 32) w.live)⟩) := by
    rw [step, hcall, Option.map_some, if_neg h0, if_neg hn]
  by_cases hp : p = 0
  · obtain ⟨hkeep, hbytes⟩ := hnull hp
    refine ⟨p, _, as', hstep, ?_, ⟨?_, fun _ _ _ _ hp' => absurd hp hp', ?_⟩,
      fun hp' => absurd hp hp'⟩
    · rw [if_pos hp]
      exact ⟨.inl hinv, fun x hx => (h.backed x hx).keeps hkeep, h.nodup⟩
    · rw [if_pos hp]
      exact fun x hx hne => ⟨hx, fun i hi _ => hother x hx hne i hi⟩
    · rw [if_pos hp]
      exact fun x hx _ _ _ _ => ⟨hx, .of_eq hbytes⟩
  · obtain ⟨b, hb, rfl, hub, hsb, hnew, hcopy⟩ := hgrant hp
    refine ⟨b + 32, _, as', hstep, ?_, ⟨?_, ?_, fun _ _ _ _ _ hp' => absurd hp' hp⟩, ?_⟩
    · rw [if_neg hp, grant, if_neg hp]
      refine (h.of_release (.inl hinv) hbut).cons hb hub hsb fun x hx hxb => ?_
      obtain ⟨hx, hne⟩ := mem_release.1 hx
      obtain ⟨c, hc, hxc, huc, -⟩ := h.backed x hx
      have hcb : c = b := by omega
      subst hcb
      rw [hnew hc fun hca => hne (by omega)] at huc
      exact absurd huc (by simp)
    · rw [if_neg hp]
      intro x hx hne
      exact ⟨mem_grant (p := b + 32) (mem_release.2 ⟨hx, hne⟩), fun i hi _ => hother x hx hne i hi⟩
    · intro x hx size heq _ i hi
      rw [HeapCall.realloc.injEq] at heq
      obtain ⟨c, -, hxc, -, hsc⟩ := h.backed x hx
      have hca : c = a := by omega
      subst hca
      rw [hxc]
      exact hcopy i (by omega) (by omega)
    · intro _
      simp [grant, HeapCall.bytes]

theorem WorldInv.store_ensures (addr : ℕ) (value : UInt8) :
    Ensures arena w (.store addr value) := by
  refine ⟨0, _, as, rfl, ⟨?_, h.backed, h.nodup⟩, .of_all (fun x hx => ⟨hx, ?_⟩) (by simp),
    fun h0 => absurd rfl h0⟩
  · rcases h.heap with hinv | ⟨hready, has⟩
    · exact .inl (hinv.withBytes _)
    · exact .inr ⟨hready, has⟩
  · exact fun i _ hne => Function.update_of_ne (fun heq => hne heq.symm) _ _

theorem WorldInv.step_spec {call : HeapCall} (hl : Legal w call)
    (hb : Bounded w call) : Ensures arena w call := by
  cases call with
  | malloc size => exact h.malloc_ensures hb
  | free ptr => exact h.free_ensures hl
  | realloc ptr size =>
    by_cases hp : ptr = 0
    · -- `realloc` of null is `malloc`
      subst hp
      obtain ⟨out, w', as', hstep, hinv, hpres, hlive⟩ := h.malloc_ensures (n := size) hb
      refine ⟨out, w', as', ?_, hinv, .of_all (fun x hx => ?_) ?_, hlive⟩
      · rw [← hstep]
        simp only [step, realloc, if_true]
      · exact hpres.others x hx (h.ptr_ne_zero hx)
      · intro x hx size heq
        rw [HeapCall.realloc.injEq] at heq
        exact h.ptr_ne_zero hx heq.1.symm
    · obtain ⟨a, ha, rfl, hu⟩ := h.block_of_holds hl.2 hp
      by_cases hn : size = 0
      · subst hn
        exact h.realloc_zero_ensures ha
      · exact h.realloc_ensures ha hu hn hb
  | store addr value => exact h.store_ensures addr value

end

/-- Every run of bounded steps is safe, every further bounded call returns and preserves the other
allocations, and a pointer it returns is aligned and is a live allocation of the requested size. -/
theorem arena_safe_of_bounded_runs (arena : Arena) (bytes : ℕ → UInt8) (w : World)
    (hw : Reachable (· = World.init bytes) (BoundedStep arena) w) :
    HeapSafe arena w ∧
      ∀ call, Legal w call → Bounded w call →
        ∃ out w', step arena w call = some (out, w') ∧ HeapSafe arena w' ∧
          Preserves w call out w' ∧ (out ≠ 0 → out % 16 = 0 ∧ ⟨out, call.bytes⟩ ∈ w'.live) := by
  have hinv : ∃ as, WorldInv arena w as := by
    refine Reachable.invariant (I := fun w => ∃ as, WorldInv arena w as) ?_ ?_ hw
    · rintro _ rfl
      exact ⟨[], WorldInv.init bytes⟩
    · rintro v v' ⟨as, hv⟩ ⟨call, out, hl, hb, hstep⟩
      obtain ⟨out', v'', as', hstep', hv', -⟩ := hv.step_spec hl hb
      rw [hstep'] at hstep
      cases hstep
      exact ⟨as', hv'⟩
  obtain ⟨as, hinv⟩ := hinv
  refine ⟨hinv.safe, fun call hl hb => ?_⟩
  obtain ⟨out, w', as', hstep, hinv', hpres, hlive⟩ := hinv.step_spec hl hb
  have hsafe := hinv'.safe
  refine ⟨out, w', hstep, hsafe, hpres, fun hout => ⟨?_, hlive hout⟩⟩
  obtain ⟨as'', -, hall, -⟩ := hsafe
  exact (hall _ (hlive hout)).1

/-- An arena at the first megabyte. -/
def lowArena : Arena := ⟨0x100000, by decide, by decide, by decide⟩

/-- One `malloc` on a fresh heap. -/
theorem arena_safe_after_malloc :
    ∃ w, step lowArena (World.init fun _ => 0) (.malloc 100) = some (0x100020, w) ∧
      HeapSafe lowArena w :=
  ⟨_, rfl, (arena_safe_of_bounded_runs lowArena (fun _ => 0) _ (.next (.start rfl)
    ⟨.malloc 100, 0x100020, (by decide : 100 < sizeMod), .inl (by decide), rfl⟩)).1⟩

/-- Without the bound a run can leave a live allocation in a block of size zero: the rounding of
`SIZE_MAX` wraps. -/
theorem arena_unsafe_beyond_bound :
    ¬ ∀ w, Reachable (· = World.init fun _ => 0) (Step lowArena) w → HeapSafe lowArena w := by
  intro h
  obtain ⟨as, -, hall, -⟩ := h _ (.next (.start rfl)
    ⟨.malloc (2 ^ 64 - 1), 0x100020, (by decide : 2 ^ 64 - 1 < sizeMod), rfl⟩)
  obtain ⟨-, a, -, hptr, -, hsize⟩ := hall ⟨0x100020, 2 ^ 64 - 1⟩ (by decide)
  have ha : a = 0x100000 := by simp only at hptr; omega
  subst ha
  exact absurd hsize (by decide)

end Cleonos.Doom
