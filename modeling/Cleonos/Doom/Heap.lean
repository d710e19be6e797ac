import Cleonos.Heap.Model

/-!
# The heap of the game

`doom_compat.c` brings its own allocator: first fit over one static arena, whose blocks are doubly
linked in the order of their addresses.
-/

namespace Cleonos.Doom

open Heap (sizeMod heapAlign alignUp listFuel)

/-- `DG_HEAP_SIZE`. -/
def heapSize : ℕ := 32 * 1024 * 1024

/-- `sizeof(struct dg_alloc_hdr)`: a `size_t`, an `int` and its padding, two pointers. -/
def headerSize : ℕ := 8 + 8 + 8 + 8

/-- The place of `g_dg_heap`: not at null, below the end of the address space, and aligned as
the ABI has it for an array of this size. -/
structure Arena where
  base : ℕ
  ne_zero : base ≠ 0
  aligned : base % 16 = 0
  lt : base + heapSize < sizeMod

structure DgAllocHdr where
  size : ℕ
  free : Bool
  next : ℕ
  prev : ℕ
  deriving DecidableEq, Repr, Inhabited

/-- The globals of the allocator, and the bytes of the arena. -/
structure DgHeap where
  ready : Bool
  head : ℕ
  hdrs : ℕ → DgAllocHdr
  bytes : ℕ → UInt8

/-- The state before the first call. -/
def DgHeap.init (bytes : ℕ → UInt8) : DgHeap := ⟨false, 0, fun _ => default, bytes⟩

def DgHeap.setHdr (s : DgHeap) (a : ℕ) (h : DgAllocHdr) : DgHeap :=
  { s with hdrs := Function.update s.hdrs a h }

/-- The first call makes the arena one free block. -/
def ensureReady (arena : Arena) (s : DgHeap) : DgHeap :=
  if s.ready then s
  else
    { s.setHdr arena.base ⟨heapSize - headerSize, true, 0, 0⟩ with
      ready := true, head := arena.base }

/-- The walk of `malloc`: the first free block of this size, or null. -/
def findFit (s : DgHeap) (aligned : ℕ) : ℕ → ℕ → Option ℕ
  | 0, _ => none
  | fuel + 1, cur =>
    if cur = 0 then some 0
    else if (s.hdrs cur).free ∧ (s.hdrs cur).size ≥ aligned then some cur
    else findFit s aligned fuel (s.hdrs cur).next

/-- The part of a free block behind the first `aligned` bytes becomes a block of its own when
more than a header and 16 bytes remain. -/
def carve (s : DgHeap) (cur aligned : ℕ) : DgHeap :=
  let remain := (s.hdrs cur).size - aligned
  if remain > headerSize + 16 then
    let tail := (cur + headerSize + aligned) % sizeMod
    let next := (s.hdrs cur).next
    let s := s.setHdr tail ⟨remain - headerSize, true, next, cur⟩
    let s := if next ≠ 0 then s.setHdr next { s.hdrs next with prev := tail } else s
    s.setHdr cur { s.hdrs cur with next := tail, size := aligned }
  else s

def setFree (s : DgHeap) (a : ℕ) (free : Bool) : DgHeap :=
  s.setHdr a { s.hdrs a with free := free }

def malloc (arena : Arena) (s : DgHeap) (size : ℕ) : Option (ℕ × DgHeap) :=
  let aligned := alignUp (if size = 0 then 1 else size) heapAlign
  let s := ensureReady arena s
  (findFit s aligned listFuel s.head).map fun cur =>
    if cur = 0 then (0, s)
    else ((cur + headerSize) % sizeMod, setFree (carve s cur aligned) cur false)

/-- The header in front of a payload. -/
def headerOf (ptr : ℕ) : ℕ := (ptr + (sizeMod - headerSize)) % sizeMod

/-- Block `a` takes in block `b` that follows it in the list. -/
def absorb (s : DgHeap) (a b : ℕ) : DgHeap :=
  let next := (s.hdrs b).next
  let s := s.setHdr a
    { s.hdrs a with size := ((s.hdrs a).size + (headerSize + (s.hdrs b).size)) % sizeMod, next := next }
  if next ≠ 0 then s.setHdr next { s.hdrs next with prev := a } else s

def free (s : DgHeap) (ptr : ℕ) : DgHeap :=
  if ptr = 0 then s
  else
    let hdr := headerOf ptr
    let s := setFree s hdr true
    let next := (s.hdrs hdr).next
    let s := if next ≠ 0 ∧ (s.hdrs next).free then absorb s hdr next else s
    let prev := (s.hdrs hdr).prev
    if prev ≠ 0 ∧ (s.hdrs prev).free then absorb s prev hdr else s

/-- `memcpy(dst, src, n)`. -/
def copyBytes (s : DgHeap) (dst src n : ℕ) : DgHeap :=
  { s with bytes := fun x => if dst ≤ x ∧ x < dst + n then s.bytes (src + (x - dst)) else s.bytes x }

def realloc (arena : Arena) (s : DgHeap) (ptr size : ℕ) : Option (ℕ × DgHeap) :=
  if ptr = 0 then malloc arena s size
  else if size = 0 then some (0, free s ptr)
  else
    let hdr := headerOf ptr
    let oldSize := (s.hdrs hdr).size
    let next := (s.hdrs hdr).next
    if oldSize ≥ size then some (ptr, s)
    else if next ≠ 0 ∧ (s.hdrs next).free ∧
        (oldSize + headerSize + (s.hdrs next).size) % sizeMod ≥ size then
      some (ptr, absorb s hdr next)
    else
      (malloc arena s size).map fun r =>
        if r.1 = 0 then (0, r.2)
        else (r.1, free (copyBytes r.2 r.1 ptr (if oldSize < size then oldSize else size)) ptr)

/-! ## The invariant -/

/-- The successor field of a header. -/
abbrev nextOf (s : DgHeap) (a : ℕ) : ℕ := (s.hdrs a).next
/-- The predecessor field of a header. -/
abbrev prevOf (s : DgHeap) (a : ℕ) : ℕ := (s.hdrs a).prev
/-- The length of a block with its header. -/
abbrev spanOf (s : DgHeap) (a : ℕ) : ℕ := 32 + (s.hdrs a).size

/-- The blocks at `as` are the list of the allocator, in the order of their addresses; they tile
the arena, and their sizes are multiples of 16. -/
structure ArenaInv (arena : Arena) (s : DgHeap) (as : List ℕ) : Prop where
  list : DList (nextOf s) (prevOf s) 0 s.head (as.getLastD 0) as
  tiles : Tiles (spanOf s) arena.base (arena.base + heapSize) as
  size_mod : ∀ a ∈ as, (s.hdrs a).size % 16 = 0
  ready : s.ready = true

end Cleonos.Doom
