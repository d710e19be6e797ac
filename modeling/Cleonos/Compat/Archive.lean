import Cleonos.Compat.Streams

/-!
# The files of archives

`minizip_cleonos_io.c`: a file is read into a buffer when it is opened, and a file that may be
written is written back when it is closed.
-/

namespace Cleonos.Compat

open List Option
open Buffer (slice store)
open ByteFile (writeAt)

/-! ## The source -/

/-- The bits of a mode that are looked at. -/
structure MzMode where
  write : Bool
  create : Bool
  deriving DecidableEq, Repr

/-- `cleonos_mz_file`. -/
structure MzFile where
  path : List UInt8
  data : ℕ → UInt8
  size : ℕ
  capacity : ℕ
  pos : ℕ
  writable : Bool
  error : Bool

/-- What stands in the buffer, up to its size. -/
def MzFile.content (file : MzFile) : List UInt8 := slice file.data 0 file.size

/-- The loop of `cleonos_mz_grow`. -/
def mzDouble : ℕ → ℕ → ℕ → Option ℕ
  | 0, _, _ => none
  | fuel + 1, capacity, needed =>
    if capacity < needed then
      let doubled := capacity * 2 % 2 ^ 64
      if doubled ≤ capacity then none else mzDouble fuel doubled needed
    else some capacity

/-- `cleonos_mz_grow`; the capacity is doubled at most 64 times. -/
def mzGrow (file : MzFile) (needed : ℕ) (memory : Option (ℕ → UInt8)) : Option MzFile :=
  if needed ≤ file.capacity then some file
  else
    (mzDouble 65 (if file.capacity ≠ 0 then file.capacity else 4096) needed).bind fun capacity =>
      memory.map fun next =>
        { file with
          data := fun j => if j < file.size then file.data j else next j
          capacity := capacity }

/-- `cleonos_mz_open64`; the file that is there is an argument. -/
def mzOpen64 (path : List UInt8) (mode : MzMode) (old : Option (List UInt8)) (e : OpenEnv) :
    Option MzFile :=
  if path = [] ∨ e.object = false then none
  else
    let file : MzFile :=
      ⟨path.take 191, fun _ => 0, 0, 0, 0, mode.write || mode.create, false⟩
    if mode.create then some file
    else
      match old with
      | none => none
      | some content =>
        -- the largest word says that there is no size
        if e.stat = false ∨ content.length ≥ 2 ^ 64 - 1 then none
        else if content.length ≠ 0 then
          e.memory.bind fun memory =>
            if e.read then
              some { file with
                data := store memory 0 content
                size := content.length
                capacity := content.length }
            else none
        else some file

/-- `cleonos_mz_read`. -/
def mzRead (file : MzFile) (size : ℕ) : List UInt8 × MzFile :=
  if size = 0 ∨ file.pos ≥ file.size then ([], file)
  else
    let available := file.size - file.pos
    let n := if size < available then size else available
    (slice file.data file.pos n, { file with pos := file.pos + n })

/-- Bytes that a call can pass. -/
structure Chunk where
  bytes : List UInt8
  fits : bytes.length < 2 ^ 64

/-- `cleonos_mz_write`. -/
def mzWrite (file : MzFile) (buf : Chunk) (memory : Option (ℕ → UInt8)) : ℕ × MzFile :=
  if file.writable = false then (0, file)
  else
    let endPos := (file.pos + buf.bytes.length) % 2 ^ 64
    if endPos < file.pos then (0, { file with error := true })
    else
      match mzGrow file endPos memory with
      | none => (0, { file with error := true })
      | some file =>
        (buf.bytes.length,
          { file with
            data := store file.data file.pos buf.bytes
            pos := endPos
            size := if endPos > file.size then endPos else file.size })

/-- The origins of a seek. -/
inductive Origin
  | set
  | cur
  | end
  | other
  deriving DecidableEq, Repr

/-- The place that a seek starts from. -/
def mzBase (file : MzFile) : Origin → Option ℕ
  | .set => some 0
  | .cur => some file.pos
  | .end => some file.size
  | .other => none

/-- `cleonos_mz_seek64`; whether it returns 0. -/
def mzSeek64 (file : MzFile) (offset : UInt64) (origin : Origin) (memory : Option (ℕ → UInt8)) :
    Bool × MzFile :=
  match mzBase file origin with
  | none => (false, file)
  | some base =>
    let next := (base + offset.toNat) % 2 ^ 64
    if next < base then (false, file)
    else if next > file.size ∧ file.writable = false then (false, file)
    else
      match if next > file.capacity then mzGrow file next memory else some file with
      | none => (false, { file with error := true })
      | some file =>
        let file :=
          if next > file.size then
            { file with
              data := store file.data file.size (List.replicate (next - file.size) 0)
              size := next }
          else file
        (true, { file with pos := next })

/-- The calls on an open file. -/
inductive MzCall
  | read (n : ℕ)
  | write (buf : Chunk)
  | seek (offset : UInt64) (origin : Origin)

/-- What they return. -/
inductive MzAnswer
  | bytes (xs : List UInt8)
  | count (n : ℕ)
  | status (ok : Bool)

/-- One call, and the memory that it finds. -/
def mzStep (file : MzFile) (call : MzCall) (memory : Option (ℕ → UInt8)) : MzAnswer × MzFile :=
  match call with
  | .read n => (.bytes (mzRead file n).1, (mzRead file n).2)
  | .write buf => (.count (mzWrite file buf memory).1, (mzWrite file buf memory).2)
  | .seek offset origin =>
    (.status (mzSeek64 file offset origin memory).1, (mzSeek64 file offset origin memory).2)

/-- Calls one behind the other, with what they find and return, and the file behind them. -/
def mzRun (file : MzFile) : List (MzCall × Option (ℕ → UInt8)) →
    List (MzCall × Option (ℕ → UInt8) × MzAnswer) × MzFile
  | [] => ([], file)
  | (call, memory) :: calls =>
    let step := mzStep file call memory
    let rest := mzRun step.2 calls
    ((call, memory, step.1) :: rest.1, rest.2)

abbrev Disk := List UInt8 → Option (List UInt8)

/-- What the file system does when the file is written back: whether it is written, what a call
returns then, and what is on the disk otherwise. -/
structure CloseEnv where
  written : Bool
  done : ℕ
  spoiled : Option (List UInt8)

/-- `cleonos_mz_close`; whether it returns 0, and the disk. -/
def mzClose (file : MzFile) (disk : Disk) (e : CloseEnv) : Bool × Disk :=
  if file.writable ∧ file.error = false then
    let wrote := if e.written then e.done else 0
    (wrote = file.size,
      Function.update disk file.path (if e.written then some file.content else e.spoiled))
  else (true, disk)

/-- A file, and the place in it. -/
structure View where
  content : List UInt8
  pos : ℕ
  writable : Bool

/-- The place that a seek starts from. -/
def View.base (v : View) : Origin → Option ℕ
  | .set => some 0
  | .cur => some v.pos
  | .end => some v.content.length
  | .other => none

/-- A call may be refused: it finds no memory, or it asks for too much. -/
def Refusable (needed : ℕ) (memory : Option (ℕ → UInt8)) : Prop := 2 ^ 63 < needed ∨ memory = none

/-- What a call does. A write goes over what is there and behind the end, and a seek behind the end
fills up with zeros. -/
inductive ViewDoes (v : View) (memory : Option (ℕ → UInt8)) : MzCall → MzAnswer → View → Prop
  | read (n : ℕ) : ViewDoes v memory (.read n) (.bytes ((v.content.drop v.pos).take n))
      { v with pos := v.pos + ((v.content.drop v.pos).take n).length }
  | write {buf : Chunk} (h : v.writable = true) :
      ViewDoes v memory (.write buf) (.count buf.bytes.length)
        { v with
          content := writeAt 0 v.content v.pos buf.bytes
          pos := v.pos + buf.bytes.length }
  | writeForbidden {buf : Chunk} (h : v.writable = false) :
      ViewDoes v memory (.write buf) (.count 0) v
  | writeRefused {buf : Chunk} (h : Refusable (v.pos + buf.bytes.length) memory) :
      ViewDoes v memory (.write buf) (.count 0) v
  | seek {offset : UInt64} {origin : Origin} {b : ℕ} (hbase : v.base origin = some b)
      (h : b + offset.toNat ≤ v.content.length ∨ v.writable = true) :
      ViewDoes v memory (.seek offset origin) (.status true)
        { v with
          content := v.content ++ List.replicate (b + offset.toNat - v.content.length) 0
          pos := b + offset.toNat }
  | seekUnknown {offset : UInt64} {origin : Origin} (hbase : v.base origin = none) :
      ViewDoes v memory (.seek offset origin) (.status false) v
  | seekForbidden {offset : UInt64} {origin : Origin} {b : ℕ} (hbase : v.base origin = some b)
      (hpast : v.content.length < b + offset.toNat) (h : v.writable = false) :
      ViewDoes v memory (.seek offset origin) (.status false) v
  | seekRefused {offset : UInt64} {origin : Origin} {b : ℕ} (hbase : v.base origin = some b)
      (h : Refusable (b + offset.toNat) memory) :
      ViewDoes v memory (.seek offset origin) (.status false) v

/-- What the calls of a run return. -/
inductive ViewRuns : View → List (MzCall × Option (ℕ → UInt8) × MzAnswer) → View → Prop
  | nil (v : View) : ViewRuns v [] v
  | cons {v v' v'' : View} {call : MzCall} {memory : Option (ℕ → UInt8)} {answer : MzAnswer}
      {rest : List (MzCall × Option (ℕ → UInt8) × MzAnswer)}
      (h : ViewDoes v memory call answer v') (hrest : ViewRuns v' rest v'') :
      ViewRuns v ((call, memory, answer) :: rest) v''

variable {file file' : MzFile} {memory : Option (ℕ → UInt8)}

def MzFile.view (file : MzFile) : View := ⟨file.content, file.pos, file.writable⟩

/-- The place is inside the file, and the file inside the buffer. -/
structure MzWf (file : MzFile) : Prop where
  pos_le : file.pos ≤ file.size
  size_le : file.size ≤ file.capacity
  bound : file.capacity < 2 ^ 64

theorem MzFile.length_content (file : MzFile) : file.content.length = file.size :=
  Buffer.length_slice _ _ _

theorem le_of_mzDouble {fuel capacity needed c : ℕ} (hbound : capacity < 2 ^ 64)
    (h : mzDouble fuel capacity needed = some c) : needed ≤ c ∧ capacity ≤ c ∧ c < 2 ^ 64 := by
  induction fuel generalizing capacity with
  | zero => cases h
  | succ fuel ih =>
    rw [mzDouble] at h
    split at h
    · dsimp only at h
      split at h
      · cases h
      · have hc := ih (Nat.mod_lt _ (by decide)) h
        omega
    · cases h
      omega

theorem exists_mzDouble {rounds capacity needed : ℕ} (hneeded : needed ≤ 2 ^ 63)
    (hpos : 0 < capacity) (hrounds : needed ≤ capacity * 2 ^ rounds) :
    ∃ c, mzDouble (rounds + 1) capacity needed = some c := by
  induction rounds generalizing capacity with
  | zero =>
    refine ⟨capacity, ?_⟩
    rw [mzDouble, if_neg (by omega)]
  | succ rounds ih =>
    rw [mzDouble]
    by_cases hlt : capacity < needed
    · have hmod : capacity * 2 % 2 ^ 64 = capacity * 2 := Nat.mod_eq_of_lt (by omega)
      rw [if_pos hlt, hmod, if_neg (by omega)]
      refine ih (by omega) ?_
      rwa [Nat.mul_assoc, ← Nat.pow_succ']
    · rw [if_neg hlt]
      exact ⟨capacity, rfl⟩

theorem mzGrow_cases (h : MzWf file) (needed : ℕ) (memory : Option (ℕ → UInt8)) :
    (mzGrow file needed memory = none ∧ Refusable needed memory) ∨
      ∃ data capacity, mzGrow file needed memory =
          some { file with data := data, capacity := capacity } ∧
        needed ≤ capacity ∧ file.capacity ≤ capacity ∧ capacity < 2 ^ 64 ∧
        ∀ j < file.size, data j = file.data j := by
  have hbound := h.bound
  rw [mzGrow]
  by_cases hroom : needed ≤ file.capacity
  · rw [if_pos hroom]
    exact .inr ⟨file.data, file.capacity, rfl, hroom, Nat.le_refl _, hbound, fun _ _ => rfl⟩
  rw [if_neg hroom]
  have hstart : 0 < (if file.capacity ≠ 0 then file.capacity else 4096) ∧
      file.capacity ≤ (if file.capacity ≠ 0 then file.capacity else 4096) ∧
      (if file.capacity ≠ 0 then file.capacity else 4096) < 2 ^ 64 := by
    split <;> omega
  generalize (if file.capacity ≠ 0 then file.capacity else 4096) = start at hstart ⊢
  cases hdouble : mzDouble 65 start needed with
  | none =>
    refine .inl ⟨rfl, .inl ?_⟩
    by_contra hsmall
    have hrounds : needed ≤ start * 2 ^ 64 := by omega
    obtain ⟨c, hc⟩ := exists_mzDouble (Nat.le_of_not_lt hsmall) hstart.1 hrounds
    rw [hdouble] at hc
    cases hc
  | some capacity =>
    obtain ⟨hneeded, hle, hlt⟩ := le_of_mzDouble hstart.2.2 hdouble
    cases memory with
    | none => exact .inl ⟨rfl, .inr rfl⟩
    | some next =>
      exact .inr ⟨_, capacity, rfl, hneeded, Nat.le_trans hstart.2.1 hle, hlt,
        fun j hj => if_pos hj⟩

theorem mzRead_does (h : MzWf file) (n : ℕ) :
    ViewDoes file.view memory (.read n) (.bytes (mzRead file n).1) (mzRead file n).2.view ∧
      MzWf (mzRead file n).2 := by
  have hpos := h.pos_le
  have hbytes : (file.content.drop file.pos).take n =
      slice file.data file.pos (min n (file.size - file.pos)) := by
    rw [MzFile.content, Buffer.slice_drop, Nat.zero_add, Buffer.slice_take]
  have hdoes := @ViewDoes.read file.view memory n
  simp only [MzFile.view, hbytes, Buffer.length_slice] at hdoes
  rw [mzRead]
  by_cases hnone : n = 0 ∨ file.pos ≥ file.size
  · have hzero : min n (file.size - file.pos) = 0 := by omega
    rw [hzero] at hdoes
    rw [if_pos hnone]
    exact ⟨hdoes, h⟩
  · have hcount : (if n < file.size - file.pos then n else file.size - file.pos) =
        min n (file.size - file.pos) := by
      split <;> omega
    rw [if_neg hnone]
    dsimp only
    rw [hcount]
    refine ⟨hdoes, ?_, h.size_le, h.bound⟩
    dsimp only
    omega

theorem mzWrite_does (h : MzWf file) (buf : Chunk) :
    ViewDoes file.view memory (.write buf) (.count (mzWrite file buf memory).1)
        (mzWrite file buf memory).2.view ∧ MzWf (mzWrite file buf memory).2 := by
  have hpos := h.pos_le
  have hsize := h.size_le
  have hbound := h.bound
  have hfits := buf.fits
  rw [mzWrite]
  by_cases hwritable : file.writable = false
  · rw [if_pos hwritable]
    exact ⟨.writeForbidden hwritable, h⟩
  rw [if_neg hwritable]
  dsimp only
  by_cases hover : (file.pos + buf.bytes.length) % 2 ^ 64 < file.pos
  · rw [if_pos hover]
    refine ⟨.writeRefused (.inl ?_), h.pos_le, h.size_le, h.bound⟩
    change 2 ^ 63 < file.pos + buf.bytes.length
    omega
  have hmod : (file.pos + buf.bytes.length) % 2 ^ 64 = file.pos + buf.bytes.length := by omega
  rw [if_neg hover, hmod]
  obtain ⟨hgrow, hrefuse⟩ | ⟨data, capacity, hgrow, hneeded, hle, hlt, hdata⟩ :=
    mzGrow_cases h (file.pos + buf.bytes.length) memory
  · rw [hgrow]
    exact ⟨.writeRefused hrefuse, h.pos_le, h.size_le, h.bound⟩
  · rw [hgrow]
    have hmax : (if file.pos + buf.bytes.length > file.size then file.pos + buf.bytes.length
        else file.size) = max file.size (file.pos + buf.bytes.length) := by
      split <;> omega
    have hcontent : slice data 0 file.size = file.content :=
      Buffer.slice_congr fun j _ hj => hdata j (by omega)
    have hview : writeAt 0 file.content file.pos buf.bytes =
        slice (store data file.pos buf.bytes) 0 (max file.size (file.pos + buf.bytes.length)) := by
      rw [slice_store_of_le hpos, hcontent]
    rw [Bool.not_eq_false] at hwritable
    have hdoes := @ViewDoes.write file.view memory buf hwritable
    simp only [MzFile.view, hview] at hdoes
    dsimp only
    rw [hmax]
    refine ⟨hdoes, ?_, ?_, hlt⟩
    · exact Nat.le_max_right _ _
    · exact Nat.max_le.2 ⟨Nat.le_trans hsize hle, hneeded⟩

theorem base_view (file : MzFile) (origin : Origin) :
    file.view.base origin = mzBase file origin := by
  cases origin
  · rfl
  · rfl
  · exact congrArg some file.length_content
  · rfl

theorem content_fill {data : ℕ → UInt8} {size next : ℕ} (h : size ≤ next) :
    slice (store data size (List.replicate (next - size) 0)) 0 next =
      slice data 0 size ++ List.replicate (next - size) 0 := by
  have hstore := Buffer.slice_store data size (List.replicate (next - size) 0)
  rwa [length_replicate, Nat.add_sub_of_le h] at hstore

theorem mzSeek64_does (h : MzWf file) (offset : UInt64) (origin : Origin) :
    ViewDoes file.view memory (.seek offset origin)
        (.status (mzSeek64 file offset origin memory).1)
        (mzSeek64 file offset origin memory).2.view ∧
      MzWf (mzSeek64 file offset origin memory).2 := by
  have hpos := h.pos_le
  have hsize := h.size_le
  have hbound := h.bound
  have hoffset := offset.toNat_lt
  rw [mzSeek64]
  cases hbase : mzBase file origin with
  | none => exact ⟨.seekUnknown ((base_view file origin).trans hbase), h⟩
  | some base =>
    have hview := (base_view file origin).trans hbase
    have hbase64 : base ≤ file.size := by
      cases origin <;> cases hbase
      · exact Nat.zero_le _
      · exact hpos
      · exact Nat.le_refl _
    dsimp only
    by_cases hover : (base + offset.toNat) % 2 ^ 64 < base
    · rw [if_pos hover]
      refine ⟨.seekRefused hview (.inl ?_), h⟩
      omega
    have hmod : (base + offset.toNat) % 2 ^ 64 = base + offset.toNat := by omega
    rw [if_neg hover, hmod]
    by_cases hpast : base + offset.toNat > file.size ∧ file.writable = false
    · rw [if_pos hpast]
      refine ⟨.seekForbidden hview ?_ hpast.2, h⟩
      rw [MzFile.view, file.length_content]
      exact hpast.1
    rw [if_neg hpast]
    have hallowed : base + offset.toNat ≤ file.view.content.length ∨
        file.view.writable = true := by
      rw [MzFile.view, file.length_content]
      by_cases hwritable : file.writable = true
      · exact .inr hwritable
      · rw [Bool.not_eq_true] at hwritable
        exact .inl (Nat.le_of_not_lt fun hlt => hpast ⟨hlt, hwritable⟩)
    have hdoes := @ViewDoes.seek file.view memory offset origin base hview hallowed
    have hgrow : (if base + offset.toNat > file.capacity then
        mzGrow file (base + offset.toNat) memory else some file) =
          mzGrow file (base + offset.toNat) memory := by
      split
      · rfl
      · rw [mzGrow, if_pos (by omega)]
    rw [hgrow]
    obtain ⟨hnone, hrefuse⟩ | ⟨data, capacity, hsome, hneeded, hle, hlt, hdata⟩ :=
      mzGrow_cases h (base + offset.toNat) memory
    · rw [hnone]
      exact ⟨.seekRefused hview hrefuse, h.pos_le, h.size_le, h.bound⟩
    · rw [hsome]
      have hcontent : slice data 0 file.size = file.content :=
        Buffer.slice_congr fun j _ hj => hdata j (by omega)
      simp only [MzFile.view, file.length_content] at hdoes
      dsimp only
      by_cases hfill : base + offset.toNat > file.size
      · rw [if_pos hfill]
        rw [← hcontent, ← content_fill (by omega), hcontent] at hdoes
        exact ⟨hdoes, Nat.le_refl _, hneeded, hlt⟩
      · rw [if_neg hfill]
        rw [Nat.sub_eq_zero_of_le (by omega), replicate_zero, append_nil] at hdoes
        refine ⟨?_, ?_, Nat.le_trans hsize hle, hlt⟩
        · simp only [MzFile.view, MzFile.content, hcontent]
          exact hdoes
        · exact Nat.le_of_not_lt hfill

theorem mzStep_does (h : MzWf file) (call : MzCall) (memory : Option (ℕ → UInt8)) :
    ViewDoes file.view memory call (mzStep file call memory).1 (mzStep file call memory).2.view ∧
      MzWf (mzStep file call memory).2 := by
  cases call with
  | read n => exact mzRead_does h n
  | write buf => exact mzWrite_does h buf
  | seek offset origin => exact mzSeek64_does h offset origin

/-! ## Runs -/

theorem mzRun_does (h : MzWf file) (calls : List (MzCall × Option (ℕ → UInt8))) :
    ViewRuns file.view (mzRun file calls).1 (mzRun file calls).2.view := by
  induction calls generalizing file with
  | nil => exact .nil _
  | cons call calls ih =>
    have hstep := mzStep_does h call.1 call.2
    exact .cons hstep.1 (ih hstep.2)

theorem mzOpen64_eq_some {path : List UInt8} {mode : MzMode} {old : Option (List UInt8)}
    {e : OpenEnv} (h : mzOpen64 path mode old e = some file) :
    MzWf file ∧ file.error = false ∧ file.path = path.take 191 ∧
      ∃ content, (if mode.create then content = [] else old = some content) ∧
        file.view = ⟨content, 0, mode.write || mode.create⟩ := by
  have hempty : MzWf ⟨path.take 191, fun _ => 0, 0, 0, 0, mode.write || mode.create, false⟩ :=
    ⟨Nat.le_refl _, Nat.le_refl _, Nat.two_pow_pos 64⟩
  rw [mzOpen64] at h
  split at h
  case isTrue => cases h
  case isFalse =>
    dsimp only at h
    split at h
    case isTrue hcreate =>
      cases h
      exact ⟨hempty, rfl, rfl, [], by rw [if_pos hcreate], rfl⟩
    case isFalse hcreate =>
      cases old with
      | none => cases h
      | some content =>
        dsimp only at h
        split at h
        case isTrue => cases h
        case isFalse hsize =>
          rw [not_or] at hsize
          split at h
          case isTrue =>
            obtain ⟨memory, -, h⟩ := bind_eq_some_iff.1 h
            split at h
            case isFalse => cases h
            case isTrue =>
              cases h
              refine ⟨⟨Nat.zero_le _, Nat.le_refl _, ?_⟩, rfl, rfl, content,
                by rw [if_neg hcreate], ?_⟩
              · dsimp only
                omega
              · simp only [MzFile.view, MzFile.content, Buffer.slice_store_self]
          case isFalse hnone =>
            cases h
            rw [Ne, Decidable.not_not, length_eq_zero_iff] at hnone
            exact ⟨hempty, rfl, rfl, content, by rw [if_neg hcreate], by rw [hnone]; rfl⟩

/-- A call finds the memory that it asks for. -/
def Granted (file : MzFile) (memory : Option (ℕ → UInt8)) : MzCall → Prop
  | .read _ => True
  | .write buf => file.writable = false ∨ file.pos + buf.bytes.length < 2 ^ 64 ∧
      (mzGrow file (file.pos + buf.bytes.length) memory).isSome
  | .seek offset origin => ∀ base, mzBase file origin = some base →
      base + offset.toNat < 2 ^ 64 → file.writable = true ∨ base + offset.toNat ≤ file.size →
      (mzGrow file (base + offset.toNat) memory).isSome

/-- All calls of a run find the memory that they ask for. -/
def AllGranted (file : MzFile) : List (MzCall × Option (ℕ → UInt8)) → Prop
  | [] => True
  | (call, memory) :: calls =>
    Granted file memory call ∧ AllGranted (mzStep file call memory).2 calls

theorem mzGrow_fields {needed : ℕ} (h : mzGrow file needed memory = some file') :
    file'.path = file.path ∧ file'.writable = file.writable ∧ file'.error = file.error := by
  rw [mzGrow] at h
  split at h
  · cases h
    exact ⟨rfl, rfl, rfl⟩
  · obtain ⟨capacity, -, h⟩ := bind_eq_some_iff.1 h
    obtain ⟨next, -, rfl⟩ := map_eq_some_iff.1 h
    exact ⟨rfl, rfl, rfl⟩

/-- What a call changes beside the content and the place: it sets the mark when it misses memory. -/
structure Marks (file : MzFile) (granted : Prop) (file' : MzFile) : Prop where
  path : file'.path = file.path
  writable : file'.writable = file.writable
  error : file'.error = false ↔ file.error = false ∧ granted

theorem marks_granted {granted : Prop} (h : granted) : Marks file granted file :=
  ⟨rfl, rfl, (and_iff_left h).symm⟩

theorem marks_missed {granted : Prop} (h : ¬ granted) :
    Marks file granted { file with error := true } := by
  refine ⟨rfl, rfl, ?_⟩
  constructor
  · intro herror
    cases herror
  · intro hboth
    exact absurd hboth.2 h

theorem mzRead_marks (n : ℕ) : Marks file True (mzRead file n).2 := by
  rw [mzRead]
  split
  · exact marks_granted trivial
  · exact ⟨rfl, rfl, (and_iff_left trivial).symm⟩

theorem mzWrite_marks (h : MzWf file) (buf : Chunk) :
    Marks file (Granted file memory (.write buf)) (mzWrite file buf memory).2 := by
  have hpos := h.pos_le
  have hsize := h.size_le
  have hbound := h.bound
  have hfits := buf.fits
  rw [mzWrite, Granted]
  by_cases hwritable : file.writable = false
  · rw [if_pos hwritable]
    exact marks_granted (.inl hwritable)
  rw [if_neg hwritable]
  dsimp only
  by_cases hover : (file.pos + buf.bytes.length) % 2 ^ 64 < file.pos
  · rw [if_pos hover]
    apply marks_missed
    rintro (hforbidden | ⟨hlt, -⟩)
    · exact hwritable hforbidden
    · omega
  have hlt : file.pos + buf.bytes.length < 2 ^ 64 := by omega
  rw [if_neg hover, Nat.mod_eq_of_lt hlt]
  cases hgrow : mzGrow file (file.pos + buf.bytes.length) memory with
  | none =>
    apply marks_missed
    rintro (hforbidden | ⟨-, hsome⟩)
    · exact hwritable hforbidden
    · cases hsome
  | some file' =>
    obtain ⟨hpath, hmay, herror⟩ := mzGrow_fields hgrow
    refine ⟨hpath, hmay, ?_⟩
    dsimp only
    rw [herror]
    exact (and_iff_left (.inr ⟨hlt, rfl⟩)).symm

theorem mzSeek64_marks (h : MzWf file) (offset : UInt64) (origin : Origin) :
    Marks file (Granted file memory (.seek offset origin))
      (mzSeek64 file offset origin memory).2 := by
  have hpos := h.pos_le
  have hsize := h.size_le
  have hbound := h.bound
  have hoffset := offset.toNat_lt
  rw [mzSeek64, Granted]
  cases hbase : mzBase file origin with
  | none =>
    apply marks_granted
    intro base hbase
    cases hbase
  | some base =>
    have hsame (base' : ℕ) (heq : some base = some base') : base' = base :=
      (Option.some.inj heq).symm
    have hbase64 : base ≤ file.size := by
      cases origin <;> cases hbase
      · exact Nat.zero_le _
      · exact hpos
      · exact Nat.le_refl _
    dsimp only
    by_cases hover : (base + offset.toNat) % 2 ^ 64 < base
    · rw [if_pos hover]
      apply marks_granted
      intro base' heq hlt
      rw [hsame base' heq] at hlt
      omega
    have hlt : base + offset.toNat < 2 ^ 64 := by omega
    rw [if_neg hover, Nat.mod_eq_of_lt hlt]
    by_cases hpast : base + offset.toNat > file.size ∧ file.writable = false
    · rw [if_pos hpast]
      apply marks_granted
      rintro base' heq - (hmay | hle)
      · rw [hpast.2] at hmay
        cases hmay
      · rw [hsame base' heq] at hle
        omega
    rw [if_neg hpast]
    have hallowed : file.writable = true ∨ base + offset.toNat ≤ file.size := by
      by_cases hwritable : file.writable = true
      · exact .inl hwritable
      · rw [Bool.not_eq_true] at hwritable
        exact .inr (Nat.le_of_not_lt fun hlt => hpast ⟨hlt, hwritable⟩)
    have hgrow : (if base + offset.toNat > file.capacity then
        mzGrow file (base + offset.toNat) memory else some file) =
          mzGrow file (base + offset.toNat) memory := by
      split
      · rfl
      · rw [mzGrow, if_pos (by omega)]
    rw [hgrow]
    cases hfile : mzGrow file (base + offset.toNat) memory with
    | none =>
      apply marks_missed
      intro hall
      have hsome := hall base rfl hlt hallowed
      rw [hfile] at hsome
      cases hsome
    | some file' =>
      obtain ⟨hpath, hmay, herror⟩ := mzGrow_fields hfile
      have hgranted : ∀ base', some base = some base' → base' + offset.toNat < 2 ^ 64 →
          file.writable = true ∨ base' + offset.toNat ≤ file.size →
          (mzGrow file (base' + offset.toNat) memory).isSome := by
        intro base' heq _ _
        rw [hsame base' heq, hfile]
        rfl
      dsimp only
      split
      · exact ⟨hpath, hmay, by rw [herror]; exact (and_iff_left hgranted).symm⟩
      · exact ⟨hpath, hmay, by rw [herror]; exact (and_iff_left hgranted).symm⟩

theorem mzStep_marks (h : MzWf file) (call : MzCall) (memory : Option (ℕ → UInt8)) :
    Marks file (Granted file memory call) (mzStep file call memory).2 := by
  cases call with
  | read n => exact mzRead_marks n
  | write buf => exact mzWrite_marks h buf
  | seek offset origin => exact mzSeek64_marks h offset origin

theorem mzRun_marks (h : MzWf file) (calls : List (MzCall × Option (ℕ → UInt8))) :
    Marks file (AllGranted file calls) (mzRun file calls).2 := by
  induction calls generalizing file with
  | nil => exact marks_granted trivial
  | cons call calls ih =>
    have hstep := mzStep_marks h call.1 call.2
    have hrest := ih (mzStep_does h call.1 call.2).2
    refine ⟨hrest.path.trans hstep.path, hrest.writable.trans hstep.writable, ?_⟩
    exact hrest.error.trans ((and_congr_left' hstep.error).trans and_assoc)

theorem ViewDoes.content_eq {v v' : View} {call : MzCall} {answer : MzAnswer}
    (h : ViewDoes v memory call answer v') (hread : v.writable = false) :
    v'.content = v.content ∧ v'.writable = false := by
  cases h with
  | read n => exact ⟨rfl, hread⟩
  | write hwrite =>
    rw [hread] at hwrite
    cases hwrite
  | writeForbidden => exact ⟨rfl, hread⟩
  | writeRefused => exact ⟨rfl, hread⟩
  | seek hbase hle =>
    have hzero := Nat.sub_eq_zero_of_le (hle.resolve_right (by rw [hread]; decide))
    refine ⟨?_, hread⟩
    dsimp only
    rw [hzero, replicate_zero, append_nil]
  | seekUnknown => exact ⟨rfl, hread⟩
  | seekForbidden => exact ⟨rfl, hread⟩
  | seekRefused => exact ⟨rfl, hread⟩

theorem ViewRuns.content_eq {v v' : View}
    {answers : List (MzCall × Option (ℕ → UInt8) × MzAnswer)} (h : ViewRuns v answers v')
    (hread : v.writable = false) : v'.content = v.content := by
  induction h with
  | nil v => rfl
  | cons hdoes hrest ih =>
    have hstep := hdoes.content_eq hread
    exact (ih hstep.2).trans hstep.1

/-- A close that succeeds has written the bytes, whatever the file system does. -/
def ClosesTruly (file : MzFile) (path : List UInt8) : Prop :=
  ∀ disk e, (mzClose file disk e).1 = true → (mzClose file disk e).2 path = some file.content

theorem closesTruly_iff {path : List UInt8} (hpath : file.path = path.take 191)
    (hwritable : file.writable = true) :
    ClosesTruly file path ↔ file.error = false ∧ file.content ≠ [] ∧ path.length < 192 := by
  have hsize := file.length_content
  constructor
  · intro htruly
    have herror : file.error = false := by
      by_contra hmark
      have hclose : ∀ disk e, mzClose file disk e = (true, disk) := by
        intro disk e
        rw [mzClose, if_neg fun hboth => hmark hboth.2]
      have hdisk := htruly (fun _ => none) ⟨false, 0, none⟩
      rw [hclose] at hdisk
      cases hdisk rfl
    have hclose : ∀ disk e, mzClose file disk e =
        (decide ((if e.written then e.done else 0) = file.size),
          Function.update disk file.path (if e.written then some file.content else e.spoiled)) := by
      intro disk e
      rw [mzClose, if_pos ⟨hwritable, herror⟩]
    refine ⟨herror, ?_, ?_⟩
    · intro hempty
      rw [hempty, length_nil] at hsize
      have hdisk := htruly (fun _ => none) ⟨false, 0, none⟩
      rw [hclose] at hdisk
      simp [← hsize, Function.update_apply] at hdisk
    · by_contra hlong
      have hne : path ≠ file.path := by
        intro heq
        have hlen := congrArg List.length (heq.trans hpath)
        rw [length_take] at hlen
        omega
      have hdisk := htruly (fun _ => none) ⟨true, file.size, none⟩
      rw [hclose] at hdisk
      simp [Function.update_of_ne hne] at hdisk
  · rintro ⟨herror, hne, hshort⟩ disk e hok
    rw [take_of_length_le (by omega)] at hpath
    rw [mzClose, if_pos ⟨hwritable, herror⟩] at hok ⊢
    dsimp only at hok ⊢
    rw [hpath, Function.update_self]
    cases hwritten : e.written with
    | true => rfl
    | false =>
      rw [hwritten, decide_eq_true_eq, if_neg Bool.false_ne_true] at hok
      rw [← hok, length_eq_zero_iff] at hsize
      exact absurd hsize hne

/-- Every run of calls is one on a byte file that grows and is filled with zeros. A file that may
not be written is left as it is, and on one that may, a close tells the truth exactly when no call
missed memory, the file is not empty, and its name is not too long. -/
theorem mz_close_truthful_iff (path : List UInt8) (mode : MzMode) (old : Option (List UInt8))
    (e : OpenEnv) (file : MzFile) (calls : List (MzCall × Option (ℕ → UInt8)))
    (hopen : mzOpen64 path mode old e = some file) :
    (∃ content, (if mode.create then content = [] else old = some content) ∧
        file.view = ⟨content, 0, mode.write || mode.create⟩) ∧
      ViewRuns file.view (mzRun file calls).1 (mzRun file calls).2.view ∧
      (file.writable = false → (mzRun file calls).2.content = file.content ∧
        ∀ disk e, mzClose (mzRun file calls).2 disk e = (true, disk)) ∧
      (file.writable = true → (ClosesTruly (mzRun file calls).2 path ↔
        AllGranted file calls ∧ (mzRun file calls).2.content ≠ [] ∧ path.length < 192)) := by
  obtain ⟨hwf, herror, hpath, hview⟩ := mzOpen64_eq_some hopen
  have hruns := mzRun_does hwf calls
  have hmarks := mzRun_marks hwf calls
  refine ⟨hview, hruns, ?_, ?_⟩
  · intro hread
    refine ⟨hruns.content_eq hread, ?_⟩
    intro disk e
    rw [mzClose, if_neg]
    rw [hmarks.writable, hread]
    rintro ⟨hwrite, -⟩
    cases hwrite
  · intro hwrite
    rw [closesTruly_iff (hmarks.path.trans hpath) (hmarks.writable.trans hwrite), hmarks.error,
      and_iff_right herror]

def newFile : MzFile := ⟨[97], fun _ => 0, 0, 0, 0, true, false⟩

/-- One byte is written, and there is memory for it. -/
def oneByte : MzCall × Option (ℕ → UInt8) := (.write ⟨[65], by decide⟩, some fun _ => 0)

theorem mz_close_one_byte : ClosesTruly (mzRun newFile [oneByte]).2 [97] :=
  ((mz_close_truthful_iff [97] ⟨true, true⟩ none ⟨true, true, true, none, true, true⟩ newFile
    [oneByte] rfl).2.2.2 rfl).2 ⟨⟨.inr ⟨by decide, rfl⟩, trivial⟩, by decide, by decide⟩

/-- Behind the byte there is no memory for more, and the file is not written. -/
theorem mz_close_loses : ¬ ∀ (path : List UInt8) (mode : MzMode) (old : Option (List UInt8))
    (e : OpenEnv) (file : MzFile) (calls : List (MzCall × Option (ℕ → UInt8))),
    mzOpen64 path mode old e = some file → file.writable = true →
    ClosesTruly (mzRun file calls).2 path := by
  intro hall
  have htruly := hall [97] ⟨true, true⟩ none ⟨true, true, true, none, true, true⟩ newFile
    [oneByte, (.seek 5000 .set, none)] rfl rfl
  have hdisk := htruly (fun _ => none) ⟨false, 0, none⟩ rfl
  cases hdisk

end Cleonos.Compat
