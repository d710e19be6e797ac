import Cleonos.Lib.ByteFile
import Cleonos.Sqlite.Model

/-!
# The file buffer refines a byte file

The buffer of a handle is a byte file followed by room that was granted, whatever is in it.
-/

namespace Cleonos.Sqlite

open List
open Buffer (slice store)
open ByteFile (readAt writeAt resize isShort)

/-- The byte file in a handle. -/
def content (file : VfsFile) : List UInt8 := slice file.data 0 file.size.toNat

/-- The file is within the buffer, and the buffer within the address space. -/
structure WellFormed (file : VfsFile) : Prop where
  size_nonneg : 0 ≤ file.size
  size_le : file.size ≤ file.capacity
  capacity_le : file.capacity ≤ addressSpace

/-! ## The buffer -/

variable {x : ℤ} (grows : Bool) {j : ℕ} {file : VfsFile}

theorem int64_of_lt (h0 : 0 ≤ x) (h : x < 2 ^ 63) : int64 x = x := by
  rw [int64, Int.bmod_eq_of_le] <;> omega

theorem int64_of_ge (h0 : 2 ^ 63 ≤ x) (h : x < 2 ^ 64) : int64 x < 0 := by
  rw [int64, Int.bmod_def]
  split <;> omega

theorem int64_bounds (x : ℤ) : -2 ^ 63 ≤ int64 x ∧ int64 x < 2 ^ 63 := by
  constructor
  · have h := Int.le_bmod (x := x) (m := 2 ^ 64) (by decide)
    rw [int64]
    omega
  · have h := Int.bmod_lt (x := x) (m := 2 ^ 64) (by decide)
    rw [int64]
    omega

theorem sizeT_of_lt (h0 : 0 ≤ x) (h : x < 2 ^ 63) : sizeT x = x.toNat := by
  rw [sizeT, Int.emod_eq_of_lt h0 (by omega)]

theorem growCapacity_spec {need capacity : ℤ} (hneed : need < 2 ^ 63) (h0 : 0 ≤ capacity)
    (hcap : capacity < 2 ^ 63) :
    need ≤ growCapacity need capacity ∧ capacity ≤ growCapacity need capacity ∧
      growCapacity need capacity < 2 ^ 63 ∧
      (growCapacity need capacity ≤ 2 * need ∨ growCapacity need capacity = capacity) := by
  induction capacity using growCapacity.induct need with
  | case1 capacity hlt next hle =>
    rw [growCapacity, if_pos hlt, if_pos hle]
    omega
  | case2 capacity hlt next hgt ih =>
    have hdouble : next = capacity * 2 := by
      by_cases h : capacity * 2 < 2 ^ 63
      · exact int64_of_lt (by omega) h
      · have hneg : next < 0 := int64_of_ge (by omega) (by omega)
        omega
    have hih := ih (by omega) (int64_bounds (capacity * 2)).2
    rw [growCapacity, if_pos hlt, if_neg hgt]
    change need ≤ growCapacity need next ∧ capacity ≤ growCapacity need next ∧
      growCapacity need next < 2 ^ 63 ∧
      (growCapacity need next ≤ 2 * need ∨ growCapacity need next = capacity)
    omega
  | case3 capacity hge =>
    rw [growCapacity, if_neg hge]
    omega

/-- There is not enough memory for a buffer of `need` bytes. -/
def LacksMemory (grows : Bool) (need : ℤ) : Prop := grows = false ∨ 2 ^ 47 ≤ need

/-- A file whose buffer may be larger: nothing else differs. -/
structure Grown (file file' : VfsFile) : Prop where
  path : file'.path = file.path
  size : file'.size = file.size
  dirty : file'.dirty = file.dirty
  deleteOnClose : file'.deleteOnClose = file.deleteOnClose
  lockLevel : file'.lockLevel = file.lockLevel
  content : content file' = content file
  wellFormed : WellFormed file'

theorem Grown.refl (hw : WellFormed file) : Grown file file :=
  ⟨rfl, rfl, rfl, rfl, rfl, rfl, hw⟩

theorem memzero_of_lt {data : ℕ → UInt8} {i n : ℤ} (h : j < i.toNat) :
    memzero data i n j = data j := Buffer.store_of_lt h

theorem memzero_of_mem {data : ℕ → UInt8} {i n : ℤ} (h : i.toNat ≤ j)
    (h' : j < i.toNat + n.toNat) : memzero data i n j = 0 := by
  rw [memzero, Buffer.store_of_mem h (by simpa using h'), getElem_replicate]

theorem reserve_spec (hw : WellFormed file) (need : ℤ) (hneed : need < 2 ^ 63) :
    (need < 0 ∧ cleonosSqliteReserve grows file need = (.ioerr, file)) ∨
    (0 ≤ need ∧ LacksMemory grows need ∧ cleonosSqliteReserve grows file need = (.nomem, file)) ∨
    (0 ≤ need ∧ ∃ file', cleonosSqliteReserve grows file need = (.ok, file') ∧
      need ≤ file'.capacity ∧ Grown file file') := by
  obtain ⟨hsize, hle, hcap⟩ := hw
  have hspace : addressSpace = 2 ^ 48 := rfl
  by_cases hneg : need < 0
  · left
    exact ⟨hneg, by rw [cleonosSqliteReserve, if_pos hneg]⟩
  right
  by_cases hfits : need ≤ file.capacity
  · right
    refine ⟨by omega, file, ?_, hfits, .refl ⟨hsize, hle, hcap⟩⟩
    rw [cleonosSqliteReserve, if_neg hneg, if_pos hfits]
  let start := if file.capacity > 0 then file.capacity else 4096
  have hstart : 0 ≤ start ∧ start ≤ addressSpace ∧ file.capacity ≤ start := by
    simp only [start]
    split <;> omega
  obtain ⟨hroom, hgrow, hlt, htwice⟩ := growCapacity_spec hneed hstart.1 (by omega)
  have hbig : ¬ sizeT (growCapacity need start) < sizeT need := by
    rw [sizeT_of_lt (by omega) hlt, sizeT_of_lt (by omega) hneed]
    omega
  by_cases hmem : grows = false ∨ growCapacity need start > addressSpace
  · left
    refine ⟨by omega, hmem.imp_right fun h => by omega, ?_⟩
    rw [cleonosSqliteReserve, if_neg hneg, if_neg hfits]
    exact (if_neg hbig).trans (if_pos hmem)
  · right
    have hmore : growCapacity need start > file.capacity := by omega
    refine ⟨by omega, { file with
      data := memzero file.data file.capacity (growCapacity need start - file.capacity)
      capacity := growCapacity need start }, ?_, hroom, ?_⟩
    · rw [cleonosSqliteReserve, if_neg hneg, if_neg hfits]
      exact (if_neg hbig).trans (by rw [if_neg hmem, if_pos hmore])
    · refine ⟨rfl, rfl, rfl, rfl, rfl, ?_, ⟨hsize, ?_, ?_⟩⟩
      · refine Buffer.slice_congr fun j _ hj => memzero_of_lt ?_
        change j < 0 + file.size.toNat at hj
        omega
      · change file.size ≤ growCapacity need start
        omega
      · change growCapacity need start ≤ addressSpace
        omega

theorem length_content (file : VfsFile) : (content file).length = file.size.toNat := by
  simp [content]

theorem read_spec (hw : WellFormed file) {amount offset : ℤ}
    (ha : 0 ≤ amount) (ho : 0 ≤ offset) (ha' : amount < 2 ^ 31) :
    cleonosSqliteRead file amount offset =
      (if isShort (content file) offset.toNat amount.toNat then .ioerrShortRead else .ok,
        some (readAt 0 (content file) offset.toNat amount.toNat)) := by
  obtain ⟨hsize, hle, hcap⟩ := hw
  have hspace : addressSpace = 2 ^ 48 := rfl
  have hbytes : readAt 0 (content file) offset.toNat amount.toNat =
      slice file.data offset.toNat (min amount.toNat (file.size.toNat - offset.toNat)) ++
        List.replicate (amount.toNat - (file.size.toNat - offset.toNat)) 0 := ByteFile.readAt_slice
  rw [cleonosSqliteRead, if_neg (by omega), hbytes, isShort, length_content]
  by_cases hpast : offset ≥ file.size
  · have hshort : file.size.toNat ≤ offset.toNat ∨
        file.size.toNat < offset.toNat + amount.toNat := by omega
    have hmin : min amount.toNat (file.size.toNat - offset.toNat) = 0 := by omega
    have hrest : amount.toNat - (file.size.toNat - offset.toNat) = amount.toNat := by omega
    rw [if_pos hpast, hmin, hrest, decide_eq_true hshort, if_pos rfl, Buffer.slice_zero,
      nil_append]
  have hsum : int64 (offset + amount) > file.size ↔ file.size < offset + amount := by
    by_cases hlt : offset + amount < 2 ^ 63
    · rw [int64_of_lt (by omega) hlt]
    · omega
  rw [if_neg hpast]
  by_cases hover : file.size < offset + amount
  · have hshort : file.size.toNat ≤ offset.toNat ∨
        file.size.toNat < offset.toNat + amount.toNat := by omega
    have hmin : min amount.toNat (file.size.toNat - offset.toNat) = (file.size - offset).toNat := by
      omega
    have hrest : amount.toNat - (file.size.toNat - offset.toNat) =
        (amount - (file.size - offset)).toNat := by omega
    rw [if_pos (hsum.2 hover), hmin, hrest, decide_eq_true hshort, if_pos rfl]
  · have hshort : ¬ (file.size.toNat ≤ offset.toNat ∨
        file.size.toNat < offset.toNat + amount.toNat) := by omega
    have hmin : min amount.toNat (file.size.toNat - offset.toNat) = amount.toNat := by omega
    have hrest : amount.toNat - (file.size.toNat - offset.toNat) = 0 := by omega
    rw [if_neg (fun h => hover (hsum.1 h)), hmin, hrest, decide_eq_false hshort,
      replicate_zero, append_nil]
    rfl

theorem zeroed_gap (hsize : 0 ≤ file.size) {stop : ℤ}
    (hj : file.size.toNat ≤ j) (hj' : j < stop.toNat) :
    (if stop > file.size then memzero file.data file.size (stop - file.size) else file.data) j =
      0 := by
  rw [if_pos (by omega), memzero_of_mem hj (by omega)]

theorem slice_zeroed {stop : ℤ} :
    slice (if stop > file.size then memzero file.data file.size (stop - file.size)
      else file.data) 0 file.size.toNat = content file := by
  refine Buffer.slice_congr fun j _ hj => ?_
  by_cases h : stop > file.size
  · rw [if_pos h, memzero_of_lt (by omega)]
  · rw [if_neg h]

theorem write_spec (hw : WellFormed file) (data : ℕ → UInt8)
    {amount offset : ℤ} (ha : 0 ≤ amount) (ho : 0 ≤ offset) (hoff : offset < 2 ^ 63)
    (ha' : amount < 2 ^ 31) : (2 ^ 63 ≤ offset + amount ∧
      cleonosSqliteWrite grows file data amount offset = (.ioerr, file)) ∨
    (offset + amount < 2 ^ 63 ∧ LacksMemory grows (offset + amount) ∧
      cleonosSqliteWrite grows file data amount offset = (.nomem, file)) ∨
    (offset + amount < 2 ^ 63 ∧ ∃ file',
      cleonosSqliteWrite grows file data amount offset = (.ok, file') ∧ WellFormed file' ∧
        content file' = writeAt 0 (content file) offset.toNat (slice data 0 amount.toNat) ∧
        file'.dirty = true ∧ file'.path = file.path ∧ file'.lockLevel = file.lockLevel) := by
  rw [cleonosSqliteWrite, if_neg (by omega)]
  by_cases hover : 2 ^ 63 ≤ offset + amount
  · left
    have hneg : int64 (offset + amount) < 0 := int64_of_ge hover (by omega)
    simp only [cleonosSqliteReserve, if_pos hneg]
    exact ⟨hover, trivial⟩
  have hstop : int64 (offset + amount) = offset + amount := int64_of_lt (by omega) (by omega)
  right
  rw [hstop]
  rcases reserve_spec grows hw (offset + amount) (by omega) with
    ⟨hneg, -⟩ | ⟨-, hgrows, hres⟩ | ⟨-, grown, hres, hroom, hgrown⟩
  · omega
  · left
    exact ⟨by omega, hgrows, by simp only [hres]⟩
  · right
    obtain ⟨hpath, hsize, -, -, hlock, hcontent, hwf⟩ := hgrown
    obtain ⟨hnonneg, hle, hcap⟩ := hwf
    have hmax : (if offset + amount > grown.size then offset + amount else grown.size).toNat =
        max grown.size.toNat (offset.toNat + (slice data 0 amount.toNat).length) := by
      rw [Buffer.length_slice]
      split <;> omega
    simp only [hres]
    refine ⟨by omega, _, rfl, ⟨?_, ?_, hcap⟩, ?_, rfl, hpath, hlock⟩
    · change 0 ≤ if offset + amount > grown.size then offset + amount else grown.size
      split <;> omega
    · change (if offset + amount > grown.size then offset + amount else grown.size) ≤ grown.capacity
      split <;> omega
    · rw [← hcontent]
      conv => lhs; rw [content]
      simp only [hmax]
      rw [ByteFile.slice_store_eq_writeAt (z := 0) fun j hj hj' => zeroed_gap hnonneg hj hj',
        slice_zeroed]

theorem truncate_spec (hw : WellFormed file) {size : ℤ} (hs : 0 ≤ size) (hs' : size < 2 ^ 63) :
    (LacksMemory grows size ∧ cleonosSqliteTruncate grows file size = (.nomem, file)) ∨
    (∃ file', cleonosSqliteTruncate grows file size = (.ok, file') ∧ WellFormed file' ∧
        content file' = resize 0 (content file) size.toNat ∧
        file'.dirty = true ∧ file'.path = file.path ∧ file'.lockLevel = file.lockLevel) := by
  rw [cleonosSqliteTruncate, if_neg (by omega)]
  rcases reserve_spec grows hw size hs' with
    ⟨hneg, -⟩ | ⟨-, hgrows, hres⟩ | ⟨-, grown, hres, hroom, hgrown⟩
  · omega
  · left
    exact ⟨hgrows, by simp only [hres]⟩
  · right
    obtain ⟨hpath, -, -, -, hlock, hcontent, hwf⟩ := hgrown
    simp only [hres]
    refine ⟨_, rfl, ⟨hs, hroom, hwf.capacity_le⟩, ?_, rfl, hpath, hlock⟩
    rw [← hcontent]
    conv => lhs; rw [content]
    rw [ByteFile.slice_eq_resize (z := 0) fun j hj hj' => zeroed_gap hwf.size_nonneg hj hj',
      slice_zeroed]

theorem flush_spec (env : Env) (h : List Call) (file : VfsFile) :
    ((cleonosSqliteFlush file).run env h).1 = (.ok, { file with dirty := false }) ∨
    (((cleonosSqliteFlush file).run env h).1 = (.ok, file) ∧ file.path = none) ∨
    ((cleonosSqliteFlush file).run env h).1 = (.ioerrWrite, file) := by
  rw [cleonosSqliteFlush]
  by_cases hdirty : file.dirty = false
  · left
    rw [if_pos hdirty, Prog.run_pure, ← hdirty]
  rw [if_neg hdirty]
  cases hpath : file.path with
  | none =>
    right; left
    exact ⟨rfl, rfl⟩
  | some path =>
    simp only [Prog.run_bind]
    split
    · right; right
      rfl
    · left
      rfl

/-- A call of a file method, with what memory and the file system answer. -/
inductive Op
  | read (amount : Int32) (offset : Int64)
  | write (data : ℕ → UInt8) (amount : Int32) (offset : Int64) (grows : Bool)
  | truncate (size : Int64) (grows : Bool)
  | fileSize
  | sync (env : Env)

/-- What a method returns. -/
inductive Result
  | read (rc : Rc) (out : Option (List UInt8))
  | status (rc : Rc)
  | size (rc : Rc) (size : ℤ)
  deriving DecidableEq, Repr

def runOp (file : VfsFile) : Op → Result × VfsFile
  | .read amount offset =>
    let r := cleonosSqliteRead file amount.toInt offset.toInt
    (.read r.1 r.2, file)
  | .write data amount offset grows =>
    let r := cleonosSqliteWrite grows file data amount.toInt offset.toInt
    (.status r.1, r.2)
  | .truncate size grows =>
    let r := cleonosSqliteTruncate grows file size.toInt
    (.status r.1, r.2)
  | .fileSize =>
    let r := cleonosSqliteFileSize file
    (.size r.1 r.2, file)
  | .sync env =>
    let r := ((cleonosSqliteSync file).run env []).1
    (.status r.1, r.2)

def runOps (file : VfsFile) : List Op → List Result × VfsFile
  | [] => ([], file)
  | op :: ops =>
    let r := runOp file op
    let rest := runOps r.2 ops
    (r.1 :: rest.1, rest.2)

/-- A byte file, and whether it was changed since it was written back. -/
structure ModelFile where
  bytes : List UInt8
  dirty : Bool

/-- What a call does to a byte file, and returns. -/
inductive ModelStep : ModelFile → Op → Result → ModelFile → Prop
  | read {m : ModelFile} {amount : Int32} {offset : Int64} (ha : 0 ≤ amount.toInt)
      (ho : 0 ≤ offset.toInt) :
      ModelStep m (.read amount offset)
        (.read (if isShort m.bytes offset.toInt.toNat amount.toInt.toNat then .ioerrShortRead
            else .ok) (some (readAt 0 m.bytes offset.toInt.toNat amount.toInt.toNat))) m
  | readInvalid {m : ModelFile} {amount : Int32} {offset : Int64}
      (h : amount.toInt < 0 ∨ offset.toInt < 0) :
      ModelStep m (.read amount offset) (.read .ioerrRead none) m
  | write {m : ModelFile} {data : ℕ → UInt8} {amount : Int32} {offset : Int64} {grows : Bool}
      (ha : 0 ≤ amount.toInt) (ho : 0 ≤ offset.toInt) :
      ModelStep m (.write data amount offset grows) (.status .ok)
        ⟨writeAt 0 m.bytes offset.toInt.toNat (slice data 0 amount.toInt.toNat), true⟩
  | writeNoMem {m : ModelFile} {data : ℕ → UInt8} {amount : Int32} {offset : Int64}
      {grows : Bool} (h : LacksMemory grows (offset.toInt + amount.toInt)) :
      ModelStep m (.write data amount offset grows) (.status .nomem) m
  | writeTooFar {m : ModelFile} {data : ℕ → UInt8} {amount : Int32} {offset : Int64}
      {grows : Bool} (h : 2 ^ 63 ≤ offset.toInt + amount.toInt) :
      ModelStep m (.write data amount offset grows) (.status .ioerr) m
  | writeInvalid {m : ModelFile} {data : ℕ → UInt8} {amount : Int32} {offset : Int64}
      {grows : Bool} (h : amount.toInt < 0 ∨ offset.toInt < 0) :
      ModelStep m (.write data amount offset grows) (.status .ioerrWrite) m
  | truncate {m : ModelFile} {size : Int64} {grows : Bool} (hs : 0 ≤ size.toInt) :
      ModelStep m (.truncate size grows) (.status .ok) ⟨resize 0 m.bytes size.toInt.toNat, true⟩
  | truncateNoMem {m : ModelFile} {size : Int64} {grows : Bool}
      (h : LacksMemory grows size.toInt) : ModelStep m (.truncate size grows) (.status .nomem) m
  | truncateInvalid {m : ModelFile} {size : Int64} {grows : Bool} (h : size.toInt < 0) :
      ModelStep m (.truncate size grows) (.status .ioerrTruncate) m
  | fileSize {m : ModelFile} : ModelStep m .fileSize (.size .ok m.bytes.length) m
  | sync {m : ModelFile} {env : Env} : ModelStep m (.sync env) (.status .ok) ⟨m.bytes, false⟩
  | syncFailed {m : ModelFile} {env : Env} (h : m.dirty = true) :
      ModelStep m (.sync env) (.status .ioerrWrite) m

/-- What a sequence of calls does to a byte file, and returns. -/
inductive ModelRun : ModelFile → List Op → List Result → ModelFile → Prop
  | nil {m : ModelFile} : ModelRun m [] [] m
  | cons {m m' m'' : ModelFile} {op : Op} {ops : List Op} {result : Result}
      {results : List Result} (hstep : ModelStep m op result m')
      (hrun : ModelRun m' ops results m'') : ModelRun m (op :: ops) (result :: results) m''

/-- The byte file that a handle stands for. -/
def modelFile (file : VfsFile) : ModelFile := ⟨content file, file.dirty⟩

/-- A handle as the methods find it: one with a path and a file within its buffer. -/
structure Valid (file : VfsFile) : Prop where
  wellFormed : WellFormed file
  path : file.path ≠ none

theorem runOp_refines {file : VfsFile} (hv : Valid file) (op : Op) :
    ModelStep (modelFile file) op (runOp file op).1 (modelFile (runOp file op).2) ∧
      Valid (runOp file op).2 := by
  obtain ⟨hw, hp⟩ := hv
  cases op with
  | read amount offset =>
    refine ⟨?_, hw, hp⟩
    by_cases h : amount.toInt < 0 ∨ offset.toInt < 0
    · simp only [runOp, cleonosSqliteRead, if_pos h]
      exact .readInvalid h
    · simp only [runOp]
      rw [read_spec hw (by omega) (by omega) amount.toInt_lt]
      exact .read (by omega) (by omega)
  | write data amount offset grows =>
    by_cases h : amount.toInt < 0 ∨ offset.toInt < 0
    · simp only [runOp, cleonosSqliteWrite, if_pos h]
      exact ⟨.writeInvalid h, hw, hp⟩
    simp only [runOp]
    rcases write_spec grows hw data (by omega) (by omega) offset.toInt_lt amount.toInt_lt with
      ⟨hfar, hwrite⟩ | ⟨-, hmem, hwrite⟩ | ⟨-, file', hwrite, hw', hcontent, hdirty, hpath, -⟩
    · rw [hwrite]
      exact ⟨.writeTooFar hfar, hw, hp⟩
    · rw [hwrite]
      exact ⟨.writeNoMem hmem, hw, hp⟩
    · rw [hwrite, modelFile, modelFile, hcontent, hdirty]
      exact ⟨.write (by omega) (by omega), hw', hpath ▸ hp⟩
  | truncate size grows =>
    by_cases h : size.toInt < 0
    · simp only [runOp, cleonosSqliteTruncate, if_pos h]
      exact ⟨.truncateInvalid h, hw, hp⟩
    simp only [runOp]
    rcases truncate_spec grows hw (by omega) size.toInt_lt with
      ⟨hmem, htrunc⟩ | ⟨file', htrunc, hw', hcontent, hdirty, hpath, -⟩
    · rw [htrunc]
      exact ⟨.truncateNoMem hmem, hw, hp⟩
    · rw [htrunc, modelFile, modelFile, hcontent, hdirty]
      exact ⟨.truncate (by omega), hw', hpath ▸ hp⟩
  | fileSize =>
    refine ⟨?_, hw, hp⟩
    have hsize : file.size = ((modelFile file).bytes.length : ℤ) := by
      rw [modelFile, length_content]
      have := hw.size_nonneg
      omega
    simp only [runOp, cleonosSqliteFileSize]
    rw [hsize]
    exact .fileSize
  | sync env =>
    simp only [runOp, cleonosSqliteSync]
    rcases flush_spec env [] file with h | ⟨-, hnone⟩ | h
    · rw [h]
      exact ⟨.sync, ⟨hw.size_nonneg, hw.size_le, hw.capacity_le⟩, hp⟩
    · exact absurd hnone hp
    · rw [h]
      refine ⟨.syncFailed ?_, hw, hp⟩
      by_contra hclean
      rw [cleonosSqliteFlush, if_pos (by simpa [modelFile] using hclean)] at h
      cases h

theorem runOps_refines {file : VfsFile} (hv : Valid file) (ops : List Op) :
    ModelRun (modelFile file) ops (runOps file ops).1 (modelFile (runOps file ops).2) := by
  induction ops generalizing file with
  | nil => exact .nil
  | cons op ops ih =>
    obtain ⟨hstep, hv'⟩ := runOp_refines hv op
    exact .cons hstep (ih hv')

theorem open_spec {a : OpenAnswers} {disk : Option (List UInt8)} {path : List UInt8}
    {create deleteOnClose : Bool} {file : VfsFile}
    (h : cleonosSqliteOpen a disk path create deleteOnClose = .ok file) :
    Valid file ∧ modelFile file = ⟨disk.getD [], false⟩ := by
  cases disk with
  | none =>
    rw [cleonosSqliteOpen] at h
    by_cases hc : create = false
    · rw [if_pos hc] at h
      cases h
    · rw [if_neg hc] at h
      cases h
      exact ⟨⟨⟨Int.le_refl 0, Int.le_refl 0, (by decide : (0 : ℤ) ≤ addressSpace)⟩,
        by simp [emptyFile]⟩, rfl⟩
  | some bytes =>
    simp only [cleonosSqliteOpen, cleonosSqliteReadWholeFile] at h
    by_cases hbig : bytes.length > 0x7FFFFFFF
    · rw [if_pos hbig] at h
      cases h
    have hfile : file = loadedFile path deleteOnClose bytes := by
      rw [if_neg hbig] at h
      split at h
      · cases h
      split at h
      · cases h
      split at h
      · cases h
      cases h
      rfl
    subst hfile
    have hspace : addressSpace = 2 ^ 48 := rfl
    refine ⟨⟨⟨?_, Int.le_refl _, ?_⟩, by simp [loadedFile, emptyFile]⟩, ?_⟩
    · change (0 : ℤ) ≤ bytes.length
      omega
    · change (bytes.length : ℤ) ≤ addressSpace
      omega
    · refine congrArg (ModelFile.mk · false) (ext_getElem? fun j => ?_)
      by_cases hj : j < bytes.length
      · change (slice _ 0 bytes.length)[j]? = bytes[j]?
        rw [Buffer.getElem?_slice hj]
        simp [loadedFile, hj]
      · rw [List.getElem?_eq_none (by simpa [content, loadedFile] using hj)]
        exact (List.getElem?_eq_none (by simpa using hj)).symm

theorem open_lockLevel {a : OpenAnswers} {disk : Option (List UInt8)} {path : List UInt8}
    {create deleteOnClose : Bool} {file : VfsFile}
    (h : cleonosSqliteOpen a disk path create deleteOnClose = .ok file) :
    file.lockLevel = lockNone := by
  cases disk with
  | none =>
    rw [cleonosSqliteOpen] at h
    split at h
    · cases h
    · cases h
      rfl
  | some bytes =>
    simp only [cleonosSqliteOpen] at h
    cases hread : cleonosSqliteReadWholeFile a (some bytes) with
    | error rc =>
      rw [hread] at h
      cases h
    | ok contents =>
      rw [hread] at h
      cases h
      rfl

end Cleonos.Sqlite
