import Cleonos.Boot.Loader
import Cleonos.Lib.Extent
import Cleonos.Lib.Collect

/-!
# The segments of a kernel file

The header and the program headers that lie in the file read as a list of segments, and the
loader's two loops are loops over that list.
-/

namespace Cleonos.Boot

open List

/-- The number in `n` bytes at an offset. -/
def peek (data : List UInt8) (offset n : ℕ) : ℕ := leValue ((data.drop offset).take n)

/-- A segment that is loaded. -/
structure Segment where
  offset : UInt64
  vaddr : UInt64
  filesz : UInt64
  memsz : UInt64
  deriving DecidableEq, Repr

/-- The segment of the program header at `pos`, if it is one that is loaded. -/
def segmentAt (data : List UInt8) (pos : ℕ) : Option Segment :=
  if UInt32.ofNat (peek data pos 4) = 1 ∧ UInt64.ofNat (peek data (pos + 40) 8) ≠ 0 then
    some ⟨UInt64.ofNat (peek data (pos + 8) 8), UInt64.ofNat (peek data (pos + 16) 8),
      UInt64.ofNat (peek data (pos + 32) 8), UInt64.ofNat (peek data (pos + 40) 8)⟩
  else none

/-- All that is read of the program header at `pos` lies in the file. -/
def HeaderInside (data : List UInt8) (pos : ℕ) : Prop :=
  pos + 4 ≤ data.length ∧ (UInt32.ofNat (peek data pos 4) = 1 → pos + 48 ≤ data.length)

/-- The file has a header that the loader takes. -/
def Accepted (data : List UInt8) : Prop :=
  ehdrSize ≤ data.length ∧ data.take 5 = [0x7F, 69, 76, 70, 2] ∧
    UInt16.ofNat (peek data 18 2) = 0x3E ∧ (UInt16.ofNat (peek data 54 2)).toNat = phdrSize

instance (data : List UInt8) (pos : ℕ) : Decidable (HeaderInside data pos) := by
  unfold HeaderInside
  infer_instance

instance (data : List UInt8) : Decidable (Accepted data) := by
  unfold Accepted
  infer_instance

/-- The fields `e_entry`, `e_phoff` and `e_phnum`. -/
def entryOf (data : List UInt8) : UInt64 := UInt64.ofNat (peek data 24 8)
def phoffOf (data : List UInt8) : UInt64 := UInt64.ofNat (peek data 32 8)
def phnumOf (data : List UInt8) : UInt16 := UInt16.ofNat (peek data 56 2)

/-- The positions of the program headers. -/
def headers (data : List UInt8) : List ℕ :=
  (List.range (phnumOf data).toNat).map (phdrAt (phoffOf data))

def TableInside (data : List UInt8) : Prop := ∀ pos ∈ headers data, HeaderInside data pos

instance (data : List UInt8) : Decidable (TableInside data) :=
  inferInstanceAs (Decidable (∀ pos ∈ headers data, HeaderInside data pos))

/-- The segments of a file, in the order of their headers. -/
def segments (data : List UInt8) : List Segment := (headers data).filterMap (segmentAt data)

/-- One round of the loop that finds the bounds. -/
def widen (bounds : UInt64 × UInt64) (seg : Segment) : UInt64 × UInt64 :=
  (if seg.vaddr < bounds.1 then seg.vaddr else bounds.1,
    if seg.vaddr + seg.memsz > bounds.2 then seg.vaddr + seg.memsz else bounds.2)

/-- The lowest address and the end of the highest segment. -/
def span (segs : List Segment) : UInt64 × UInt64 := segs.foldl widen (-1, 0)

/-- The test that the bytes of a segment are in the file; its sum may wrap. -/
def Segment.Passes (data : List UInt8) (seg : Segment) : Prop :=
  (seg.offset + seg.filesz).toNat ≤ data.length

instance (data : List UInt8) (seg : Segment) : Decidable (seg.Passes data) :=
  inferInstanceAs (Decidable ((seg.offset + seg.filesz).toNat ≤ data.length))

/-- One segment is cleared and then copied. -/
def copyOne (file : LoadedFile) (mapStart : UInt64) (size : ℕ) (seg : Segment)
    (image : ℕ → UInt8) : Except Fault (ℕ → UInt8) := do
  let dst := (seg.vaddr - mapStart).toNat
  let image ← zeroImage size image dst seg.memsz.toNat
  let bytes ← copySource file seg.offset seg.filesz
  writeImage size image dst bytes

/-- The loop over the segments that copies them. -/
def copyAll (file : LoadedFile) (mapStart : UInt64) (size : ℕ) :
    List Segment → (ℕ → UInt8) → Except Fault (Option (ℕ → UInt8))
  | [], image => .ok (some image)
  | seg :: rest, image =>
    if seg.Passes file.data then do
      let image ← copyOne file mapStart size seg image
      copyAll file mapStart size rest image
    else .ok none

variable {file : LoadedFile} {data : List UInt8} {pos offset n : ℕ} {phoff mapStart : UInt64}
  {is : List ℕ} {size : ℕ} {seg : Segment} {segs : List Segment} {image : ℕ → UInt8}

/-- The addresses of the image: whole pages around the segments. -/
def imageStart (segs : List Segment) : UInt64 := alignDown (span segs).1 pageSize
def imageEnd (segs : List Segment) : UInt64 := alignUp (span segs).2 pageSize
def imageSize (segs : List Segment) : UInt64 := imageEnd segs - imageStart segs

/-- The pages that are asked for. -/
def imagePages (segs : List Segment) : UInt64 := sizeToPages (imageSize segs + largePage)

/-- The image lies in the pages that were given. -/
def Roomy (segs : List Segment) (rawPhys : UInt64) : Prop :=
  rawPhys.toNat ≤ (alignUp rawPhys largePage).toNat ∧
    (alignUp rawPhys largePage).toNat + (imageSize segs).toNat ≤
      rawPhys.toNat + (imagePages segs).toNat * 4096

instance (segs : List Segment) (rawPhys : UInt64) : Decidable (Roomy segs rawPhys) := by
  unfold Roomy
  infer_instance

/-- The segments span some addresses. -/
def Spanning (segs : List Segment) : Prop := (span segs).1 ≠ -1 ∧ (span segs).1 < (span segs).2

instance (segs : List Segment) : Decidable (Spanning segs) := by
  unfold Spanning
  infer_instance

/-- The image of some segments, in pages of the firmware. -/
def place (file : LoadedFile) (memory : PageSource) (segs : List Segment) :
    Except Fault (Option (KernelImage × (ℕ → UInt8))) :=
  if Spanning segs then
    match memory.allocPages (imagePages segs) with
    | none => .ok none
    | some rawPhys =>
      if Roomy segs rawPhys then
        (copyAll file (imageStart segs) (imageSize segs).toNat segs fun _ => 0).map
          (Option.map fun image => (⟨entryOf file.data, alignUp rawPhys largePage,
            imageStart segs, imageStart segs, imageEnd segs⟩, image))
      else .error .write
  else .ok none

/-! ### Reads -/

theorem readBytes_inside (h : offset + n ≤ file.data.length) :
    readBytes file offset n = .ok ((file.data.drop offset).take n) := if_pos h

theorem readBytes_outside (h : ¬ offset + n ≤ file.data.length) :
    readBytes file offset n = .error .read := if_neg h

theorem field16_inside (h : offset + 2 ≤ file.data.length) :
    field16 file offset = .ok (UInt16.ofNat (peek file.data offset 2)) := by
  rw [field16, readBytes_inside h]
  rfl

theorem field32_inside (h : offset + 4 ≤ file.data.length) :
    field32 file offset = .ok (UInt32.ofNat (peek file.data offset 4)) := by
  rw [field32, readBytes_inside h]
  rfl

theorem field32_outside (h : ¬ offset + 4 ≤ file.data.length) :
    field32 file offset = .error .read := by
  rw [field32, readBytes_outside h]
  rfl

theorem field64_inside (h : offset + 8 ≤ file.data.length) :
    field64 file offset = .ok (UInt64.ofNat (peek file.data offset 8)) := by
  rw [field64, readBytes_inside h]
  rfl

theorem field64_outside (h : ¬ offset + 8 ≤ file.data.length) :
    field64 file offset = .error .read := by
  rw [field64, readBytes_outside h]
  rfl

theorem readHeader_eq (file : LoadedFile) :
    readHeader file = .ok (if Accepted file.data then
      some (entryOf file.data, phoffOf file.data, phnumOf file.data) else none) := by
  by_cases hsize : file.data.length < ehdrSize
  · have hno : ¬ Accepted file.data := fun h => absurd h.1 (Nat.not_le.2 hsize)
    rw [if_neg hno, readHeader, if_pos hsize]
    rfl
  · have hlen : 64 ≤ file.data.length := Nat.not_lt.1 hsize
    rw [readHeader, if_neg hsize, readBytes_inside (by omega), field16_inside (by omega),
      field16_inside (by omega), field64_inside (by omega), field64_inside (by omega),
      field16_inside (by omega), drop_zero]
    simp only [bind, Except.bind, pure, Except.pure]
    by_cases haccept : Accepted file.data
    · rw [if_pos haccept, if_neg]
      · rfl
      · intro h
        rcases h with h | h | h
        · exact h haccept.2.1
        · exact h haccept.2.2.1
        · exact h haccept.2.2.2
    · rw [if_neg haccept, if_pos]
      by_contra h
      push Not at h
      exact haccept ⟨hlen, h⟩

theorem phdrLoads_inside (h : HeaderInside file.data pos) :
    phdrLoads file pos = .ok (segmentAt file.data pos).isSome := by
  rw [phdrLoads, field32_inside h.1]
  simp only [bind, Except.bind, pure, Except.pure]
  by_cases htype : UInt32.ofNat (peek file.data pos 4) = 1
  · have hend := h.2 htype
    rw [if_neg (not_not.2 htype), field64_inside (by omega), segmentAt]
    by_cases hmem : UInt64.ofNat (peek file.data (pos + 40) 8) = 0
    · simp [hmem]
    · simp [hmem, htype]
  · rw [if_pos htype, segmentAt, if_neg fun hboth => htype hboth.1]
    rfl

theorem phdrLoads_outside (h : ¬ HeaderInside file.data pos) :
    phdrLoads file pos = .error .read := by
  by_cases hfour : pos + 4 ≤ file.data.length
  · rw [phdrLoads, field32_inside hfour]
    by_cases htype : UInt32.ofNat (peek file.data pos 4) = 1
    · have hend : ¬ pos + 40 + 8 ≤ file.data.length := fun hend => h ⟨hfour, fun _ => hend⟩
      simp only [bind, Except.bind]
      rw [if_neg (not_not.2 htype), field64_outside hend]
    · exact absurd ⟨hfour, fun h => absurd h htype⟩ h
  · rw [phdrLoads, field32_outside hfour]
    rfl

theorem fields_of_segmentAt (h : HeaderInside file.data pos)
    (hseg : segmentAt file.data pos = some seg) :
    field64 file (pos + 8) = .ok seg.offset ∧ field64 file (pos + 16) = .ok seg.vaddr ∧
      field64 file (pos + 32) = .ok seg.filesz ∧ field64 file (pos + 40) = .ok seg.memsz := by
  rw [segmentAt] at hseg
  split at hseg
  · rename_i hloads
    have hend := h.2 hloads.1
    cases hseg
    exact ⟨field64_inside (by omega), field64_inside (by omega), field64_inside (by omega),
      field64_inside (by omega)⟩
  · exact absurd hseg (by simp)

theorem findBounds_eq {bounds : UInt64 × UInt64}
    (h : ∀ i ∈ is, HeaderInside file.data (phdrAt phoff i)) :
    findBounds file phoff is bounds =
      .ok (((is.map (phdrAt phoff)).filterMap (segmentAt file.data)).foldl widen bounds) := by
  induction is generalizing bounds with
  | nil => rfl
  | cons i rest ih =>
    have hi := h i mem_cons_self
    have hrest : ∀ j ∈ rest, HeaderInside file.data (phdrAt phoff j) :=
      fun j hj => h j (mem_cons_of_mem i hj)
    rw [findBounds, phdrLoads_inside hi, map_cons]
    cases hseg : segmentAt file.data (phdrAt phoff i) with
    | none =>
      rw [filterMap_cons_none hseg]
      exact ih hrest
    | some seg =>
      obtain ⟨-, hvaddr, -, hmemsz⟩ := fields_of_segmentAt hi hseg
      rw [filterMap_cons_some hseg, foldl_cons, ← ih hrest, hvaddr, hmemsz]
      rfl

theorem findBounds_outside {bounds : UInt64 × UInt64}
    (h : ¬ ∀ i ∈ is, HeaderInside file.data (phdrAt phoff i)) :
    findBounds file phoff is bounds = .error .read := by
  induction is generalizing bounds with
  | nil => exact absurd (fun i hi => absurd hi not_mem_nil) h
  | cons i rest ih =>
    rw [findBounds]
    by_cases hi : HeaderInside file.data (phdrAt phoff i)
    · have hrest : ¬ ∀ j ∈ rest, HeaderInside file.data (phdrAt phoff j) := by
        intro hall
        exact h (forall_mem_cons.2 ⟨hi, hall⟩)
      rw [phdrLoads_inside hi]
      cases hseg : segmentAt file.data (phdrAt phoff i) with
      | none => exact ih hrest
      | some seg =>
        obtain ⟨-, hvaddr, -, hmemsz⟩ := fields_of_segmentAt hi hseg
        rw [hvaddr, hmemsz]
        exact ih hrest
    · rw [phdrLoads_outside hi]
      rfl

theorem copySegments_eq (h : ∀ i ∈ is, HeaderInside file.data (phdrAt phoff i)) :
    copySegments file phoff mapStart size is image =
      copyAll file mapStart size ((is.map (phdrAt phoff)).filterMap (segmentAt file.data))
        image := by
  induction is generalizing image with
  | nil => rfl
  | cons i rest ih =>
    have hi := h i mem_cons_self
    have hrest : ∀ j ∈ rest, HeaderInside file.data (phdrAt phoff j) :=
      fun j hj => h j (mem_cons_of_mem i hj)
    rw [copySegments, phdrLoads_inside hi, map_cons]
    cases hseg : segmentAt file.data (phdrAt phoff i) with
    | none =>
      rw [filterMap_cons_none hseg]
      exact ih hrest
    | some seg =>
      obtain ⟨hoffset, hvaddr, hfilesz, hmemsz⟩ := fields_of_segmentAt hi hseg
      rw [filterMap_cons_some hseg, hoffset, hvaddr, hfilesz, hmemsz, copyAll]
      simp only [bind, Except.bind, pure, Except.pure, Option.isSome_some, Bool.true_eq_false,
        if_false]
      by_cases hpass : seg.Passes file.data
      · rw [if_pos hpass, if_neg (Nat.not_lt.2 hpass), copyOne]
        simp only [bind, Except.bind]
        cases zeroImage size image (seg.vaddr - mapStart).toNat seg.memsz.toNat with
        | error e => rfl
        | ok image =>
          cases copySource file seg.offset seg.filesz with
          | error e => rfl
          | ok bytes =>
            dsimp only
            cases writeImage size image (seg.vaddr - mapStart).toNat bytes with
            | error e => rfl
            | ok image => exact ih hrest
      · rw [if_neg hpass, if_pos (Nat.not_le.1 hpass)]

theorem forall_mem_headers {P : ℕ → Prop} :
    (∀ pos ∈ headers data, P pos) ↔
      ∀ i ∈ List.range (phnumOf data).toNat, P (phdrAt (phoffOf data) i) := forall_mem_map

theorem loadElf64_eq (file : LoadedFile) (memory : PageSource) :
    loadElf64 file memory =
      if Accepted file.data then
        if TableInside file.data then place file memory (segments file.data) else .error .read
      else .ok none := by
  rw [loadElf64, readHeader_eq]
  by_cases haccept : Accepted file.data
  · rw [if_pos haccept, if_pos haccept]
    simp only [bind, Except.bind]
    by_cases htable : TableInside file.data
    · have hheaders := forall_mem_headers.1 htable
      have hbounds : findBounds file (phoffOf file.data)
          (List.range (phnumOf file.data).toNat) (-1, 0) = .ok (span (segments file.data)) :=
        findBounds_eq hheaders
      have hcopy : ∀ mapStart size image, copySegments file (phoffOf file.data) mapStart size
          (List.range (phnumOf file.data).toNat) image =
            copyAll file mapStart size (segments file.data) image :=
        fun mapStart size image => copySegments_eq hheaders
      rw [if_pos htable, hbounds, place]
      simp only [imagePages, imageSize, imageEnd, imageStart]
      by_cases hspan : Spanning (segments file.data)
      · have hgo : ¬ ((span (segments file.data)).1 = -1 ∨
            (span (segments file.data)).2 ≤ (span (segments file.data)).1) := by
          intro h
          rcases h with h | h
          · exact hspan.1 h
          · exact UInt64.not_le.2 hspan.2 h
        rw [if_pos hspan, if_neg hgo]
        cases hpages : memory.allocPages (imagePages (segments file.data)) with
        | none =>
          rw [imagePages, imageSize, imageEnd, imageStart] at hpages
          simp only [hpages]
          rfl
        | some rawPhys =>
          rw [imagePages, imageSize, imageEnd, imageStart] at hpages
          simp only [hpages]
          by_cases hroom : Roomy (segments file.data) rawPhys
          · have hin := not_not.2 hroom
            rw [Roomy, imagePages, imageSize, imageEnd, imageStart] at hin
            rw [if_pos hroom, if_neg hin, hcopy]
            cases copyAll file (alignDown (span (segments file.data)).1 pageSize)
              (alignUp (span (segments file.data)).2 pageSize -
                alignDown (span (segments file.data)).1 pageSize).toNat
              (segments file.data) fun _ => 0 with
            | error e => rfl
            | ok image =>
              cases image with
              | none => rfl
              | some image => rfl
          · have hout := hroom
            rw [Roomy, imagePages, imageSize, imageEnd, imageStart] at hout
            rw [if_neg hroom, if_pos hout]
            rfl
      · have hstop : (span (segments file.data)).1 = -1 ∨
            (span (segments file.data)).2 ≤ (span (segments file.data)).1 := by
          by_contra h
          push Not at h
          exact hspan ⟨h.1, UInt64.not_le.1 h.2⟩
        rw [if_neg hspan, if_pos hstop]
        rfl
    · rw [if_neg htable, findBounds_outside fun h => htable (forall_mem_headers.2 h)]
  · rw [if_neg haccept, if_neg haccept]
    rfl

end Cleonos.Boot
