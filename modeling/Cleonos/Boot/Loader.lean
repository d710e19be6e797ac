import Cleonos.Lib.Text

/-!
# The kernel loader

`loader.inc` of the boot loader: an ELF64 file is read into memory that the firmware allocates.
-/

namespace Cleonos.Boot

/-- `clboot_loaded_file`; its size is a 64-bit number. -/
structure LoadedFile where
  data : List UInt8
  size_lt : data.length < 2 ^ 64

/-- An access outside the file or the image. -/
inductive Fault
  | read
  | write
  deriving DecidableEq, Repr

/-- A number from its bytes, the lowest first. -/
def leValue (bytes : List UInt8) : ℕ := bytes.foldr (fun b value => b.toNat + 256 * value) 0

/-- A read of `n` bytes of the file at an offset. -/
def readBytes (file : LoadedFile) (offset n : ℕ) : Except Fault (List UInt8) :=
  if offset + n ≤ file.data.length then .ok ((file.data.drop offset).take n) else .error .read

def field16 (file : LoadedFile) (offset : ℕ) : Except Fault UInt16 :=
  (readBytes file offset 2).map fun bytes => UInt16.ofNat (leValue bytes)

def field32 (file : LoadedFile) (offset : ℕ) : Except Fault UInt32 :=
  (readBytes file offset 4).map fun bytes => UInt32.ofNat (leValue bytes)

def field64 (file : LoadedFile) (offset : ℕ) : Except Fault UInt64 :=
  (readBytes file offset 8).map fun bytes => UInt64.ofNat (leValue bytes)

/-- `sizeof(struct elf64_ehdr)` and `sizeof(struct elf64_phdr)`. -/
def ehdrSize : ℕ := 64
def phdrSize : ℕ := 56

def pageSize : UInt64 := 0x1000
def largePage : UInt64 := 0x200000

/-- `clboot_align_down`. -/
def alignDown (value align : UInt64) : UInt64 := value &&& ~~~(align - 1)

/-- `clboot_align_up`. -/
def alignUp (value align : UInt64) : UInt64 := (value + align - 1) &&& ~~~(align - 1)

/-- `EFI_SIZE_TO_PAGES`. -/
def sizeToPages (size : UInt64) : UInt64 := (size + 0xFFF) >>> 12

/-- `clboot_alloc_pages`: zeroed pages that the firmware gives, of which none is behind the end
of the address space. -/
structure PageSource where
  allocPages : UInt64 → Option UInt64
  inside : ∀ pages raw, allocPages pages = some raw → raw.toNat + pages.toNat * 4096 ≤ 2 ^ 64

/-- `clboot_kernel_image`. -/
structure KernelImage where
  entry : UInt64
  physBase : UInt64
  virtBase : UInt64
  mapStart : UInt64
  mapEnd : UInt64
  deriving DecidableEq, Repr

/-- The header: the entry point, the offset of the program headers and their number, or none
where the file is refused. -/
def readHeader (file : LoadedFile) : Except Fault (Option (UInt64 × UInt64 × UInt16)) := do
  if file.data.length < ehdrSize then return none
  let ident ← readBytes file 0 5
  let machine ← field16 file 18
  let phentsize ← field16 file 54
  if ident ≠ [0x7F, 69, 76, 70, 2] ∨ machine ≠ 0x3E ∨ phentsize.toNat ≠ phdrSize then return none
  let entry ← field64 file 24
  let phoff ← field64 file 32
  let phnum ← field16 file 56
  return some (entry, phoff, phnum)

/-- Where a program header begins in the file; the pointer to it may wrap. -/
def phdrAt (phoff : UInt64) (i : ℕ) : ℕ := (phoff + UInt64.ofNat (i * phdrSize)).toNat

/-- Whether a program header is one of a segment that is loaded; its size is read only where
the type is right. -/
def phdrLoads (file : LoadedFile) (pos : ℕ) : Except Fault Bool := do
  let type ← field32 file pos
  if type ≠ 1 then return false
  let memsz ← field64 file (pos + 40)
  return memsz != 0

/-- The loop that finds the lowest address and the end of the highest segment. -/
def findBounds (file : LoadedFile) (phoff : UInt64) :
    List ℕ → UInt64 × UInt64 → Except Fault (UInt64 × UInt64)
  | [], bounds => .ok bounds
  | i :: rest, bounds => do
      let loads ← phdrLoads file (phdrAt phoff i)
      if loads = false then findBounds file phoff rest bounds
      else
        let vaddr ← field64 file (phdrAt phoff i + 16)
        let memsz ← field64 file (phdrAt phoff i + 40)
        findBounds file phoff rest
          (if vaddr < bounds.1 then vaddr else bounds.1,
            if vaddr + memsz > bounds.2 then vaddr + memsz else bounds.2)

/-- A write of some bytes at an offset of an image of `size` bytes. -/
def writeImage (size : ℕ) (image : ℕ → UInt8) (offset : ℕ) (bytes : List UInt8) :
    Except Fault (ℕ → UInt8) :=
  if offset + bytes.length ≤ size then
    .ok fun x => if offset ≤ x ∧ x < offset + bytes.length then bytes.getD (x - offset) 0
      else image x
  else .error .write

/-- `clboot_memset` of the image with zeros. -/
def zeroImage (size : ℕ) (image : ℕ → UInt8) (offset n : ℕ) : Except Fault (ℕ → UInt8) :=
  if offset + n ≤ size then .ok fun x => if offset ≤ x ∧ x < offset + n then 0 else image x
  else .error .write

/-- The bytes that `clboot_memcpy` reads; no bytes are no read. -/
def copySource (file : LoadedFile) (offset filesz : UInt64) : Except Fault (List UInt8) :=
  if filesz = 0 then .ok [] else readBytes file offset.toNat filesz.toNat

/-- The loop that copies the segments into an image of `size` bytes for the addresses from
`mapStart` on; none where a segment is refused. -/
def copySegments (file : LoadedFile) (phoff mapStart : UInt64) (size : ℕ) :
    List ℕ → (ℕ → UInt8) → Except Fault (Option (ℕ → UInt8))
  | [], image => .ok (some image)
  | i :: rest, image => do
      let loads ← phdrLoads file (phdrAt phoff i)
      if loads = false then copySegments file phoff mapStart size rest image
      else
        let offset ← field64 file (phdrAt phoff i + 8)
        let vaddr ← field64 file (phdrAt phoff i + 16)
        let filesz ← field64 file (phdrAt phoff i + 32)
        let memsz ← field64 file (phdrAt phoff i + 40)
        if (offset + filesz).toNat > file.data.length then return none
        let dst := (vaddr - mapStart).toNat
        let image ← zeroImage size image dst memsz.toNat
        let bytes ← copySource file offset filesz
        let image ← writeImage size image dst bytes
        copySegments file phoff mapStart size rest image

/-- `clboot_load_elf64`; the image comes with the result, none where the file is refused. -/
def loadElf64 (file : LoadedFile) (memory : PageSource) :
    Except Fault (Option (KernelImage × (ℕ → UInt8))) := do
  let some (entry, phoff, phnum) ← readHeader file | return none
  let (minVaddr, maxVaddr) ← findBounds file phoff (List.range phnum.toNat) (-1, 0)
  if minVaddr = -1 ∨ maxVaddr ≤ minVaddr then return none
  let mapStart := alignDown minVaddr pageSize
  let mapEnd := alignUp maxVaddr pageSize
  let imageSize := mapEnd - mapStart
  let pages := sizeToPages (imageSize + largePage)
  let some rawPhys := memory.allocPages pages | return none
  let physBase := alignUp rawPhys largePage
  -- the image is cleared at its place in the pages that were allocated
  if ¬ (rawPhys.toNat ≤ physBase.toNat ∧
      physBase.toNat + imageSize.toNat ≤ rawPhys.toNat + pages.toNat * 4096) then throw .write
  let some image ← copySegments file phoff mapStart imageSize.toNat (List.range phnum.toNat)
    (fun _ => 0) | return none
  return some (⟨entry, physBase, mapStart, mapStart, mapEnd⟩, image)

end Cleonos.Boot
