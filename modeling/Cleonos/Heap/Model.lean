import Mathlib.Data.Nat.Bitwise
import Cleonos.Lib.Linked
import Cleonos.Lib.Extent

/-!
# The application heap

Both user-space heaps (`app_heap.inc` and the weak symbols of `libc_stdlib.c`) are the same
first-fit allocator over chunks obtained from the kernel; they differ in the default chunk
capacity and in the header magic, which are the parameters of `HeapConfig`.
-/

namespace Cleonos.Heap

section

/-- `SIZE_MAX + 1`. -/
def sizeMod : ℕ := 2 ^ 64

/-- `CLEONOS_APP_HEAP_ALIGN` and `CLIB_HEAP_ALIGN`. -/
def heapAlign : ℕ := 16

/-- `CLEONOS_APP_HEAP_CHUNK_MIN` and `CLIB_HEAP_CHUNK_MIN`. -/
def chunkMin : ℕ := 64 * 1024

/-- `CLEONOS_APP_HEAP_CHUNK_MAX` and `CLIB_HEAP_CHUNK_MAX`. -/
def chunkMax : ℕ := 4 * 1024 * 1024

/-- A step budget for list walks: headers are 16-byte aligned, so `2 ^ 60` of them
do not fit below `2 ^ 64`. -/
def listFuel : ℕ := 2 ^ 60

/-- What the two copies of the allocator differ in. -/
structure HeapConfig where
  capacity : ℕ
  magic : ℕ

/-- `app_heap.inc`: `CLEONOS_APP_HEAP_CAPACITY`, `CLEONOS_APP_HEAP_MAGIC`. -/
def appHeap : HeapConfig := ⟨2 * 1024 * 1024, 0xC10A5A7E⟩

/-- `libc_stdlib.c`: `CLIB_HEAP_CAPACITY`, `CLIB_HEAP_MAGIC`. -/
def clibHeap : HeapConfig := ⟨256 * 1024, 0xC10B5A7E⟩

/-- `cleonos_app_heap_block` and `clib_heap_block`; a null pointer is `0`. -/
structure HeapBlock where
  size : ℕ
  used : ℕ
  magic : ℕ
  next : ℕ
  prev : ℕ
  deriving DecidableEq, Repr, Inhabited

/-- The allocator's globals and the memory it manages.  `chunks` is a ghost record
of the extents the kernel handed out, newest first; no branch reads it. -/
structure HeapState where
  head : ℕ
  tail : ℕ
  blocks : ℕ → HeapBlock
  bytes : ℕ → UInt8
  chunks : List Extent

/-- The answers of `cleonos_sys_vm_alloc` and of `cleonos_sys_user_heap_alloc` to
one request, `0` for a refusal. -/
structure ChunkReply where
  vmAlloc : ℕ
  userHeapAlloc : ℕ
  deriving DecidableEq, Repr

/-- The state before the first call. -/
def HeapState.init : HeapState := ⟨0, 0, fun _ => default, fun _ => 0, []⟩

namespace HeapState

def setBlock (s : HeapState) (a : ℕ) (b : HeapBlock) : HeapState :=
  { s with blocks := Function.update s.blocks a b }

def setHead (s : HeapState) (a : ℕ) : HeapState := { s with head := a }
def setTail (s : HeapState) (a : ℕ) : HeapState := { s with tail := a }

variable (s : HeapState) (a : ℕ) (b : HeapBlock)

@[simp] theorem head_setBlock : (s.setBlock a b).head = s.head := rfl
@[simp] theorem tail_setBlock : (s.setBlock a b).tail = s.tail := rfl
@[simp] theorem bytes_setBlock : (s.setBlock a b).bytes = s.bytes := rfl
@[simp] theorem chunks_setBlock : (s.setBlock a b).chunks = s.chunks := rfl
@[simp] theorem head_setTail : (s.setTail a).head = s.head := rfl
@[simp] theorem tail_setTail : (s.setTail a).tail = a := rfl
@[simp] theorem blocks_setTail : (s.setTail a).blocks = s.blocks := rfl
@[simp] theorem bytes_setTail : (s.setTail a).bytes = s.bytes := rfl
@[simp] theorem chunks_setTail : (s.setTail a).chunks = s.chunks := rfl
@[simp] theorem head_setHead : (s.setHead a).head = a := rfl
@[simp] theorem tail_setHead : (s.setHead a).tail = s.tail := rfl
@[simp] theorem blocks_setHead : (s.setHead a).blocks = s.blocks := rfl
@[simp] theorem bytes_setHead : (s.setHead a).bytes = s.bytes := rfl
@[simp] theorem chunks_setHead : (s.setHead a).chunks = s.chunks := rfl

@[simp] theorem blocks_setBlock_self : (s.setBlock a b).blocks a = b := by simp [setBlock]
@[simp] theorem blocks_setBlock_of_ne {x : ℕ} (h : x ≠ a) :
    (s.setBlock a b).blocks x = s.blocks x := by simp [setBlock, h]

end HeapState

/-! ## Sizes and headers -/

/-- `cleonos_app_heap_align_up`. -/
def alignUp (value align : ℕ) : ℕ :=
  if align = 0 then value
  else
    let mask := align - 1
    (value + mask) % sizeMod &&& (sizeMod - 1 - mask)

/-- `sizeof(cleonos_app_heap_block)`: a `size_t`, two 32-bit words, two pointers. -/
def sizeofBlock : ℕ := 8 + 4 + 4 + 8 + 8

/-- `cleonos_app_heap_header_size`. -/
def headerSize : ℕ := alignUp sizeofBlock heapAlign

/-- `cleonos_app_heap_blocks_are_adjacent`. -/
def blocksAreAdjacent (s : HeapState) (block next : ℕ) : Bool :=
  if block = 0 ∨ next = 0 then false
  else (block + headerSize + (s.blocks block).size) % sizeMod = next

/-- The payload address of a header. -/
def payload (block : ℕ) : ℕ := (block + headerSize) % sizeMod

/-- `cleonos_app_heap_split`: cut `block` after `need` bytes when what remains can
hold a header and more than one unit of payload. -/
def splitBlock (cfg : HeapConfig) (s : HeapState) (block need : ℕ) : HeapState :=
  if block = 0 ∨ (s.blocks block).size ≤ (need + headerSize + heapAlign) % sizeMod then s
  else
    let b := s.blocks block
    let next := (block + headerSize + need) % sizeMod
    let size := (b.size + (sizeMod - need) + (sizeMod - headerSize)) % sizeMod
    let s := s.setBlock next ⟨size, 0, cfg.magic, b.next, block⟩
    let s :=
      if b.next ≠ 0 then s.setBlock b.next { s.blocks b.next with prev := next }
      else s.setTail next
    s.setBlock block { s.blocks block with next := next, size := need }

/-- `cleonos_app_heap_merge_next`: absorb the following block when both are free
and the second begins where the first ends. -/
def mergeNext (cfg : HeapConfig) (s : HeapState) (block : ℕ) : HeapState :=
  if block = 0 ∨ (s.blocks block).used ≠ 0 then s
  else
    let next := (s.blocks block).next
    if next = 0 ∨ (s.blocks next).magic ≠ cfg.magic ∨ (s.blocks next).used ≠ 0 ∨
        blocksAreAdjacent s block next = false then s
    else
      let b := s.blocks block
      let n := s.blocks next
      let s := s.setBlock block
        { b with size := (b.size + headerSize + n.size) % sizeMod, next := n.next }
      if n.next ≠ 0 then s.setBlock n.next { s.blocks n.next with prev := block }
      else s.setTail block

/-- The walk of `cleonos_app_heap_block_from_ptr`; it stops at a damaged header. -/
def blockFromPtrGo (cfg : HeapConfig) (s : HeapState) (ptr : ℕ) : ℕ → ℕ → Option ℕ
  | 0, _ => none
  | fuel + 1, current =>
    if current = 0 then some 0
    else if (s.blocks current).magic ≠ cfg.magic then some 0
    else if payload current = ptr ∧ (s.blocks current).used ≠ 0 then some current
    else blockFromPtrGo cfg s ptr fuel (s.blocks current).next

/-- `cleonos_app_heap_block_from_ptr`: the used block with this payload, or null. -/
def blockFromPtr (cfg : HeapConfig) (s : HeapState) (ptr : ℕ) : Option ℕ :=
  if ptr = 0 then some 0 else blockFromPtrGo cfg s ptr listFuel s.head

/-- The configured capacity, clamped to the chunk limits. -/
def defaultChunk (cfg : HeapConfig) : ℕ :=
  let size := cfg.capacity
  let size := if size < chunkMin then chunkMin else size
  if size > chunkMax then chunkMax else size

/-- The chunk size `cleonos_app_heap_request_chunk` asks the kernel for. -/
def chunkSize (cfg : HeapConfig) (need : ℕ) : ℕ :=
  let size := defaultChunk cfg
  let size := if size < (need + headerSize) % sizeMod then (need + headerSize) % sizeMod else size
  alignUp size heapAlign

/-- `cleonos_app_heap_request_chunk`: obtain a chunk, make it one free block and
append it.  The second kernel call is made when the first refuses. -/
def requestChunk (cfg : HeapConfig) (s : HeapState) (need : ℕ) (reply : ChunkReply) :
    ℕ × HeapState :=
  let size := chunkSize cfg need
  let block := if reply.vmAlloc ≠ 0 then reply.vmAlloc else reply.userHeapAlloc
  if block = 0 then (0, s)
  else
    let s := { s with chunks := ⟨block, block + size⟩ :: s.chunks }
    let s := s.setBlock block
      ⟨(size + (sizeMod - headerSize)) % sizeMod, 0, cfg.magic, 0, s.tail⟩
    let s :=
      if s.tail ≠ 0 then s.setBlock s.tail { s.blocks s.tail with next := block }
      else s.setHead block
    (block, s.setTail block)

/-- The first-fit walk of `malloc`; `0` when it reaches the end of the list. -/
def findFree (cfg : HeapConfig) (s : HeapState) (need : ℕ) : ℕ → ℕ → Option ℕ
  | 0, _ => none
  | fuel + 1, current =>
    if current = 0 then some 0
    else if (s.blocks current).magic = cfg.magic ∧ (s.blocks current).used = 0 ∧
        need ≤ (s.blocks current).size then some current
    else findFree cfg s need fuel (s.blocks current).next

/-- Split a free block and mark it used, as both exits of `malloc` do. -/
def take (cfg : HeapConfig) (s : HeapState) (block need : ℕ) : HeapState :=
  let s := splitBlock cfg s block need
  s.setBlock block { s.blocks block with used := 1 }

def malloc (cfg : HeapConfig) (s : HeapState) (size : ℕ) (reply : ChunkReply) :
    Option (ℕ × HeapState) :=
  if size = 0 then some (0, s)
  else do
    let need := alignUp size heapAlign
    let current ← findFree cfg s need listFuel s.head
    if current ≠ 0 then
      some (payload current, take cfg s current need)
    else
      let (current, s) := requestChunk cfg s need reply
      if current = 0 then some (0, s)
      else some (payload current, take cfg s current need)

/-- `free`: release the block, then merge it forward and its predecessor into it. -/
def free (cfg : HeapConfig) (s : HeapState) (ptr : ℕ) : Option HeapState := do
  let block ← blockFromPtr cfg s ptr
  if block = 0 then some s
  else
    let s := s.setBlock block { s.blocks block with used := 0 }
    let s := mergeNext cfg s block
    let prev := (s.blocks block).prev
    some (if prev ≠ 0 then mergeNext cfg s prev else s)

/-- `memset(ptr, 0, n)`. -/
def zeroBytes (s : HeapState) (ptr n : ℕ) : HeapState :=
  { s with bytes := fun x => if ptr ≤ x ∧ x < ptr + n then 0 else s.bytes x }

/-- `memcpy(dst, src, n)`. -/
def copyBytes (s : HeapState) (dst src n : ℕ) : HeapState :=
  { s with bytes := fun x => if dst ≤ x ∧ x < dst + n then s.bytes (src + (x - dst)) else s.bytes x }

/-- `calloc`, with the overflow guard on `count * size`. -/
def calloc (cfg : HeapConfig) (s : HeapState) (count size : ℕ) (reply : ChunkReply) :
    Option (ℕ × HeapState) :=
  if count = 0 ∨ size = 0 then some (0, s)
  else if count > (sizeMod - 1) / size then some (0, s)
  else do
    let total := count * size % sizeMod
    let (ptr, s) ← malloc cfg s total reply
    if ptr = 0 then some (0, s)
    else some (ptr, zeroBytes s ptr total)

def realloc (cfg : HeapConfig) (s : HeapState) (ptr size : ℕ) (reply : ChunkReply) :
    Option (ℕ × HeapState) :=
  if ptr = 0 then malloc cfg s size reply
  else if size = 0 then do
    let s ← free cfg s ptr
    some (0, s)
  else do
    let block ← blockFromPtr cfg s ptr
    if block = 0 then some (0, s)
    else
      let oldSize := (s.blocks block).size
      let size := alignUp size heapAlign
      if oldSize ≥ size then some (ptr, splitBlock cfg s block size)
      else
        let next := (s.blocks block).next
        let merge : Bool := next ≠ 0 ∧ (s.blocks next).used = 0
        let s := if merge then mergeNext cfg s block else s
        if merge ∧ (s.blocks block).size ≥ size then some (ptr, splitBlock cfg s block size)
        else do
          let (out, s) ← malloc cfg s size reply
          if out = 0 then some (0, s)
          else
            let s := copyBytes s out ptr (if oldSize < size then oldSize else size)
            let s ← free cfg s ptr
            some (out, s)

end

@[simp] theorem headerSize_eq : headerSize = 32 := by decide

theorem land_mask {x : ℕ} (hx : x < 2 ^ 64) : x &&& (2 ^ 64 - 16) = x / 16 * 16 := by
  have hm : (2 ^ 64 - 16 : ℕ) = (2 ^ 60 - 1) <<< 4 := by decide
  have hs : x / 16 * 16 = (x >>> 4) <<< 4 := by
    simp [Nat.shiftRight_eq_div_pow, Nat.shiftLeft_eq]
  rw [hm, hs]
  apply Nat.eq_of_testBit_eq
  intro i
  simp only [Nat.testBit_and, Nat.testBit_shiftLeft, Nat.testBit_shiftRight,
    Nat.testBit_two_pow_sub_one]
  by_cases hi : 4 ≤ i
  · simp only [hi, decide_true, Bool.true_and, Nat.add_sub_cancel' hi]
    by_cases h60 : i - 4 < 60
    · simp [h60]
    · have hhigh : x.testBit i = false :=
        Nat.testBit_lt_two_pow (lt_of_lt_of_le hx (Nat.pow_le_pow_right (by decide) (by omega)))
      simp [hhigh]
  · simp [hi]

theorem alignUp_eq (v : ℕ) : alignUp v heapAlign = (v + 15) % sizeMod / 16 * 16 := by
  have h := land_mask (x := (v + 15) % sizeMod) (Nat.mod_lt _ (by decide))
  simpa [alignUp, heapAlign, sizeMod] using h

@[simp] theorem alignUp_mod (v : ℕ) : alignUp v heapAlign % 16 = 0 := by
  rw [alignUp_eq]
  omega

theorem le_alignUp {v : ℕ} (h : v ≤ sizeMod - 16) :
    v ≤ alignUp v heapAlign ∧ alignUp v heapAlign ≤ v + 15 := by
  rw [alignUp_eq]
  simp only [sizeMod] at *
  omega

theorem alignUp_of_mod {v : ℕ} (h : v % 16 = 0) (hv : v < sizeMod) : alignUp v heapAlign = v := by
  rw [alignUp_eq]
  simp only [sizeMod] at *
  omega

/-- The header and the payload of a block. -/
def extentOf (s : HeapState) (a : ℕ) : Extent := ⟨a, a + 32 + (s.blocks a).size⟩

/-- The stretches of memory obtained from the kernel, newest first. -/
def regions (s : HeapState) : List Extent := joinExtents s.chunks

@[simp] theorem extentOf_lo (s : HeapState) (a : ℕ) : (extentOf s a).lo = a := rfl
@[simp] theorem extentOf_hi (s : HeapState) (a : ℕ) :
    (extentOf s a).hi = a + 32 + (s.blocks a).size := rfl

/-- The successor field of a header. -/
abbrev nextOf (s : HeapState) (a : ℕ) : ℕ := (s.blocks a).next
/-- The predecessor field of a header. -/
abbrev prevOf (s : HeapState) (a : ℕ) : ℕ := (s.blocks a).prev

/-- The block list is well formed, and its blocks tile memory the kernel gave. -/
structure HeapInv (cfg : HeapConfig) (s : HeapState) (as : List ℕ) : Prop where
  list : DList (nextOf s) (prevOf s) 0 s.head s.tail as
  addr_mod : ∀ a ∈ as, a % 16 = 0
  size_mod : ∀ a ∈ as, (s.blocks a).size % 16 = 0
  magic : ∀ a ∈ as, (s.blocks a).magic = cfg.magic
  apart : ∀ a ∈ as, ∀ b ∈ as, a ≠ b → (extentOf s a).Apart (extentOf s b)
  inside : ∀ a ∈ as, ∃ r ∈ regions s, (extentOf s a).Within r
  seam : ∀ a ∈ as, nextOf s a ≠ 0 → (extentOf s a).hi = nextOf s a →
    ∃ r ∈ regions s, (extentOf s a).Within r ∧ (extentOf s (nextOf s a)).Within r
  tail_end : s.tail ≠ 0 → ∃ r, (regions s).head? = some r ∧
    (extentOf s s.tail).Within r ∧ (extentOf s s.tail).hi = r.hi
  regions_apart : (regions s).Pairwise Extent.Apart
  regions_pos : ∀ r ∈ regions s, r.lo < r.hi
  regions_lt : ∀ r ∈ regions s, r.hi < sizeMod

/-- What the kernel promises of a chunk: an aligned, nonempty range of addresses
that meets no chunk handed out before. -/
structure FreshChunk (s : HeapState) (base size : ℕ) : Prop where
  ne_zero : base ≠ 0
  aligned : base % 16 = 0
  lt : base + size < sizeMod
  apart : ∀ c ∈ s.chunks, c.Apart ⟨base, base + size⟩

/-- Used blocks of `as` are used blocks of `as'`, with the same size. -/
def Keeps (s : HeapState) (as : List ℕ) (s' : HeapState) (as' : List ℕ) : Prop :=
  ∀ a ∈ as, (s.blocks a).used ≠ 0 →
    a ∈ as' ∧ (s'.blocks a).used ≠ 0 ∧ (s'.blocks a).size = (s.blocks a).size

theorem Keeps.refl (s : HeapState) (as : List ℕ) : Keeps s as s as :=
  fun _ ha hu => ⟨ha, hu, rfl⟩

theorem Keeps.trans {s s' s'' : HeapState} {as as' as'' : List ℕ} (h : Keeps s as s' as')
    (h' : Keeps s' as' s'' as'') : Keeps s as s'' as'' := by
  intro a ha hu
  obtain ⟨ha', hu', hs'⟩ := h a ha hu
  obtain ⟨ha'', hu'', hs''⟩ := h' a ha' hu'
  exact ⟨ha'', hu'', hs''.trans hs'⟩

namespace HeapInv

variable {cfg : HeapConfig} {s : HeapState} {as : List ℕ}

theorem init : HeapInv cfg HeapState.init [] := by
  constructor
  · exact DList.nil
  all_goals simp [HeapState.init, regions, joinExtents]

theorem hi_lt (h : HeapInv cfg s as) {a : ℕ} (ha : a ∈ as) :
    a + 32 + (s.blocks a).size < sizeMod := by
  obtain ⟨r, hr, hw⟩ := h.inside a ha
  exact lt_of_le_of_lt hw.2 (h.regions_lt r hr)

theorem next_mem (h : HeapInv cfg s as) {a : ℕ} (ha : a ∈ as) (hn : nextOf s a ≠ 0) :
    nextOf s a ∈ as := by
  obtain ⟨xs, ys, rfl⟩ := List.append_of_mem ha
  have := h.list.next_mem hn
  simp [this]

theorem length_lt (h : HeapInv cfg s as) : as.length < listFuel := by
  refine length_lt_of_multiples (k := 16) (by decide) (by decide) h.list.nodup h.addr_mod
    h.list.ne_null ?_
  intro a ha
  have := h.hi_lt ha
  simp only [listFuel, sizeMod] at *
  omega

end HeapInv

end Cleonos.Heap
