import Cleonos.Compat.Streams
import Cleonos.Lib.BlockStream

/-!
# The position of a stream

The streams of `tcc_cleonos_compat.c` as `stdio` reads them: a byte that `ungetc` has pushed back
is kept beside the offset.
-/

namespace Cleonos.Compat

open List

/-! ## The source -/

/-- Where the bytes come from: a file, which is in memory, or one of the descriptors 0 to 2, whose
bytes arrive in pieces. -/
inductive TccSource
  | file (data : List UInt8) (small : data.length < 2 ^ 63)
  | device (pieces : List (List UInt8))

/-- `cleonos_tcc_file`; the byte is none for `-1`. -/
structure TccFile where
  source : TccSource
  ungot : Option UInt8
  pos : ℤ

namespace TccFile

open List

/-- `open`, with `O_APPEND` or without it. -/
def opened (source : TccSource) (append : Bool) : TccFile :=
  match source with
  | .file data _ => ⟨source, none, if append then long data.length else 0⟩
  | .device _ => ⟨source, none, 0⟩

/-- `read`; it delivers nothing at the end, and where it fails. -/
def read (s : TccFile) (count : ℕ) : List UInt8 × TccFile :=
  match s.source with
  | .device pieces =>
    ((Arrival.read count pieces).1, { s with source := .device (Arrival.read count pieces).2 })
  | .file data _ =>
    if s.pos < 0 ∨ s.pos.toNat ≥ data.length then ([], s)
    else
      let avail := data.length - s.pos.toNat
      let count := if count > avail then avail else count
      if count ≠ 0 then
        ((data.drop s.pos.toNat).take count, { s with pos := long (s.pos + count) })
      else ([], s)

/-- `lseek`; none for `-1`. -/
def lseek (s : TccFile) (offset whence : ℤ) : Option TccFile :=
  match s.source with
  | .device _ => none
  | .file data _ =>
    let seek (base : ℤ) : Option TccFile :=
      let next := long (base + offset)
      if next < 0 then none else some { s with pos := next, ungot := none }
    if whence = 0 then seek 0
    else if whence = 1 then seek s.pos
    else if whence = 2 then seek (long data.length)
    else none

/-- The loop of `fread`; a round that delivers nothing is the last one. -/
def readLoop : ℕ → ℕ → TccFile → List UInt8 × TccFile
  | 0, _, s => ([], s)
  | fuel + 1, left, s =>
    if left = 0 then ([], s)
    else
      let got := s.read left
      if got.1 = [] then ([], got.2)
      else
        let rest := readLoop fuel (left - got.1.length) got.2
        (got.1 ++ rest.1, rest.2)

/-- `fread`: what it stores, how many elements it returns, and the stream. -/
def fread (s : TccFile) (size nmemb : ℕ) : List UInt8 × ℕ × TccFile :=
  if size = 0 ∨ nmemb = 0 then ([], 0, s)
  else
    let bytes := size * nmemb % 2 ^ 64
    let front := if bytes > 0 then s.ungot.toList else []
    let s := if bytes > 0 then { s with ungot := none } else s
    let rest := readLoop (bytes + 1) (bytes - front.length) s
    (front ++ rest.1, (front ++ rest.1).length / size, rest.2)

def fseek (s : TccFile) (offset whence : ℤ) : ℤ × TccFile :=
  match s.lseek offset whence with
  | none => (-1, s)
  | some s => (0, { s with ungot := none })

def ftell (s : TccFile) : ℤ := s.pos

def fgetc (s : TccFile) : ℤ × TccFile :=
  match s.ungot with
  | some b => (b.toNat, { s with ungot := none })
  | none =>
    match s.read 1 with
    | ([b], s) => (b.toNat, s)
    | (_, s) => (-1, s)

def ungetc (s : TccFile) (ch : ℤ) : ℤ × TccFile :=
  if ch = -1 ∨ s.ungot ≠ none then (-1, s)
  else ((UInt8.ofInt ch).toNat, { s with ungot := some (UInt8.ofInt ch) })

end TccFile

/-- A call. -/
inductive StreamOp
  | fgetc
  | ungetc (ch : ℤ)
  | fread (size nmemb : ℕ)
  | fseek (offset whence : ℤ)
  | ftell
deriving DecidableEq, Repr

/-- What a call returns, and what it stores. -/
structure StreamAnswer where
  value : ℤ
  stored : List UInt8
deriving DecidableEq, Repr

namespace TccFile

open List

def step (s : TccFile) : StreamOp → StreamAnswer × TccFile
  | .fgetc => (⟨s.fgetc.1, []⟩, s.fgetc.2)
  | .ungetc ch => (⟨(s.ungetc ch).1, []⟩, (s.ungetc ch).2)
  | .fread size nmemb =>
    (⟨(s.fread size nmemb).2.1, (s.fread size nmemb).1⟩, (s.fread size nmemb).2.2)
  | .fseek offset whence => (⟨(s.fseek offset whence).1, []⟩, (s.fseek offset whence).2)
  | .ftell => (⟨s.ftell, []⟩, s)

def after (s : TccFile) (ops : List StreamOp) : TccFile := ops.foldl (fun s op => (s.step op).2) s

def answers : TccFile → List StreamOp → List StreamAnswer
  | _, [] => []
  | s, op :: ops => (s.step op).1 :: answers (s.step op).2 ops

/-- The offset of the byte that the next `fgetc` returns; only a file has offsets. -/
def offset (s : TccFile) : Option ℤ :=
  match s.source with
  | .file _ _ => some (s.pos - s.ungot.toList.length)
  | .device _ => none

end TccFile

def StreamOp.Reads : StreamOp → Prop
  | .fgetc => True
  | .fread _ _ => True
  | _ => False

/-- What a position is for.  `ftell` returns the offset of the next byte; a seek back to it, after
any calls, is followed by the same bytes; a byte that is pushed back is read once, before all
others, and only a seek drops it. -/
structure StreamLaw (s : TccFile) : Prop where
  tell : s.offset = some s.ftell
  seek : ∀ between reads : List StreamOp, (∀ op ∈ reads, op.Reads) →
    ((s.after between).fseek s.ftell 0).1 = 0 ∧
      ((s.after between).fseek s.ftell 0).2.answers reads = s.answers reads
  once : ∀ ch, (s.ungetc ch).1 ≠ -1 → (s.ungetc ch).2.fgetc = ((s.ungetc ch).1, s)
  first : ∀ ch size nmemb, (s.ungetc ch).1 ≠ -1 → 0 < size → 0 < nmemb →
    0 < size * nmemb % 2 ^ 64 →
      ((s.ungetc ch).2.fread size nmemb).1 =
          UInt8.ofInt ch :: (s.fread 1 (size * nmemb % 2 ^ 64 - 1)).1 ∧
        ((s.ungetc ch).2.fread size nmemb).2.2 = (s.fread 1 (size * nmemb % 2 ^ 64 - 1)).2.2
  dropped : ∀ offset whence, s.fseek offset whence = (-1, s) ∨
    (s.fseek offset whence).1 = 0 ∧ (s.fseek offset whence).2.ungot = none

namespace TccFile

open List

variable {s s' : TccFile} {data : List UInt8} {small : data.length < 2 ^ 63} {ch : ℤ}

theorem readLoop_congr {fuel fuel' left : ℕ} (h : left < fuel) (h' : left < fuel') (s : TccFile) :
    readLoop fuel left s = readLoop fuel' left s := by
  induction fuel generalizing fuel' left s with
  | zero => exact absurd h (Nat.not_lt_zero left)
  | succ fuel ih =>
    cases fuel' with
    | zero => exact absurd h' (Nat.not_lt_zero left)
    | succ fuel' =>
      rw [readLoop, readLoop]
      split
      case isTrue => rfl
      case isFalse hleft =>
        dsimp only
        split
        case isTrue => rfl
        case isFalse hgot =>
          have hlen : 0 < (s.read left).1.length := length_pos_iff.2 hgot
          rw [@ih fuel' _ (by omega) (by omega)]

theorem fread_one (s : TccFile) (hs : s.ungot = none) {n : ℕ} (hn : n < 2 ^ 64) :
    ((s.fread 1 n).1, (s.fread 1 n).2.2) = readLoop (n + 1) n s := by
  rw [fread]
  by_cases hzero : n = 0
  · rw [if_pos (.inr hzero), hzero]
    rfl
  · have hmod : 1 * n % 2 ^ 64 = n := by rw [Nat.one_mul, Nat.mod_eq_of_lt hn]
    have hpos : n > 0 := Nat.pos_of_ne_zero hzero
    have hclear : { s with ungot := none } = s := by rw [← hs]
    rw [if_neg (by omega), hmod]
    simp only [if_pos hpos, hs, Option.toList_none, length_nil, Nat.sub_zero, nil_append]
    rw [hclear]

theorem ungetc_of_accepted (h : (s.ungetc ch).1 ≠ -1) :
    s.ungot = none ∧ s.ungetc ch =
      (((UInt8.ofInt ch).toNat : ℤ), { s with ungot := some (UInt8.ofInt ch) }) := by
  rw [ungetc] at h ⊢
  split at h
  case isTrue => exact absurd rfl h
  case isFalse hok =>
    rw [not_or, not_not] at hok
    rw [if_neg (by rw [not_or, not_not]; exact hok)]
    exact ⟨hok.2, rfl⟩

theorem fgetc_ungetc (h : (s.ungetc ch).1 ≠ -1) : (s.ungetc ch).2.fgetc = ((s.ungetc ch).1, s) := by
  obtain ⟨hnone, heq⟩ := ungetc_of_accepted h
  have hclear : { s with ungot := none } = s := by rw [← hnone]
  rw [heq, fgetc]
  dsimp only
  rw [hclear]

theorem fread_ungetc (h : (s.ungetc ch).1 ≠ -1) {size nmemb : ℕ} (hsize : 0 < size)
    (hnmemb : 0 < nmemb) (hbytes : 0 < size * nmemb % 2 ^ 64) :
    ((s.ungetc ch).2.fread size nmemb).1 =
        UInt8.ofInt ch :: (s.fread 1 (size * nmemb % 2 ^ 64 - 1)).1 ∧
      ((s.ungetc ch).2.fread size nmemb).2.2 = (s.fread 1 (size * nmemb % 2 ^ 64 - 1)).2.2 := by
  obtain ⟨hnone, heq⟩ := ungetc_of_accepted h
  have hne : ¬ (size = 0 ∨ nmemb = 0) := by omega
  have hclear : { s with ungot := none } = s := by rw [← hnone]
  have hfewer := fread_one s hnone (n := size * nmemb % 2 ^ 64 - 1) (by omega)
  have hfuel : readLoop (size * nmemb % 2 ^ 64 + 1) (size * nmemb % 2 ^ 64 - 1) s =
      readLoop (size * nmemb % 2 ^ 64 - 1 + 1) (size * nmemb % 2 ^ 64 - 1) s :=
    readLoop_congr (by omega) (by omega) s
  rw [Prod.ext_iff] at hfewer
  dsimp only at hfewer
  rw [hfewer.1, hfewer.2, ← hfuel, heq, fread, if_neg hne]
  simp only [if_pos hbytes, Option.toList_some, length_singleton, cons_append,
    nil_append, hclear, and_self]

theorem fseek_cases (s : TccFile) (offset whence : ℤ) : s.fseek offset whence = (-1, s) ∨
    (s.fseek offset whence).1 = 0 ∧ (s.fseek offset whence).2.ungot = none := by
  rw [fseek]
  cases s.lseek offset whence with
  | none => exact .inl rfl
  | some s' => exact .inr ⟨rfl, rfl⟩

theorem lseek_eq_some {t whence : ℤ} (h : s.lseek t whence = some s') : ∃ base,
    ¬ long (base + t) < 0 ∧ s' = { s with pos := long (base + t), ungot := none } := by
  rw [lseek] at h
  split at h
  · cases h
  · have hbase (base : ℤ) (hseek : (if long (base + t) < 0 then none
        else some (TccFile.mk s.source none (long (base + t)))) = some s') : ∃ base,
        ¬ long (base + t) < 0 ∧ s' = { s with pos := long (base + t), ungot := none } := by
      split at hseek
      · cases hseek
      · next hnext => exact ⟨base, hnext, (Option.some.inj hseek).symm⟩
    dsimp only at h
    split at h
    · exact hbase _ h
    · split at h
      · exact hbase _ h
      · split at h
        · exact hbase _ h
        · cases h

/-- A stream whose offset is one of a `long`, on a file. -/
structure On (data : List UInt8) (s : TccFile) : Prop where
  source : ∃ small, s.source = .file data small
  nonneg : 0 ≤ s.pos
  small : s.pos < 2 ^ 63

theorem On.fseek_set (h : On data s) {t : ℤ} (h0 : 0 ≤ t) (ht : t < 2 ^ 63) :
    s.fseek t 0 = (0, { s with pos := t, ungot := none }) := by
  obtain ⟨small, hsource⟩ := h.source
  have hnext : long (0 + t) = t := by rw [Int.zero_add, long_of_lt h0 ht]
  rw [fseek, lseek, hsource]
  simp only [hnext, if_true, if_neg (Int.not_lt.2 h0)]

theorem On.long_bounds {x : ℤ} (h : ¬ long x < 0) : 0 ≤ long x ∧ long x < 2 ^ 63 := by
  have hlt : long x < 2 ^ 63 := by
    rw [long]
    have := Int.bmod_lt (x := x) (m := 2 ^ 64) (by decide)
    omega
  exact ⟨Int.not_lt.1 h, hlt⟩

section

variable (h : On data s)
include h

theorem On.read_eq (count : ℕ) : s.read count =
    ((data.drop s.pos.toNat).take count,
      { s with pos := s.pos + ((data.drop s.pos.toNat).take count).length }) := by
  obtain ⟨small, hsource⟩ := h.source
  have h0 := h.nonneg
  have hlen : ((data.drop s.pos.toNat).take count).length =
      min count (data.length - s.pos.toNat) := by rw [length_take, length_drop]
  have hstay : { s with pos := s.pos + ((0 : ℕ) : ℤ) } = s := by
    rw [Int.ofNat_zero, Int.add_zero]
  rw [read, hsource]
  dsimp only
  by_cases hend : s.pos < 0 ∨ s.pos.toNat ≥ data.length
  · have hnil : data.drop s.pos.toNat = [] := drop_eq_nil_of_le (by omega)
    rw [if_pos hend, hnil, take_nil, length_nil, ← hsource, hstay]
  · rw [if_neg hend]
    have hcount : (if count > data.length - s.pos.toNat then data.length - s.pos.toNat else count) =
        min count (data.length - s.pos.toNat) := by
      split <;> omega
    rw [hcount, hlen]
    by_cases hzero : min count (data.length - s.pos.toNat) = 0
    · have hnil : (data.drop s.pos.toNat).take count = [] := by
        rw [← length_eq_zero_iff, hlen, hzero]
      rw [if_neg (not_not.2 hzero), hnil, hzero, ← hsource, hstay]
    · have htake : (data.drop s.pos.toNat).take (min count (data.length - s.pos.toNat)) =
          (data.drop s.pos.toNat).take count := by
        rw [← length_drop, ← take_take, take_length]
      have hlong : long (s.pos + (min count (data.length - s.pos.toNat) : ℕ)) =
          s.pos + (min count (data.length - s.pos.toNat) : ℕ) := long_of_lt (by omega) (by omega)
      rw [if_pos hzero, hlong, htake, ← hsource]

theorem On.read (count : ℕ) : On data (s.read count).2 := by
  have h0 := h.nonneg
  have hlt := h.small
  obtain ⟨small, hsource⟩ := h.source
  rw [h.read_eq]
  refine ⟨⟨small, hsource⟩, ?_, ?_⟩
  · dsimp only
    omega
  · dsimp only
    rw [length_take, length_drop]
    omega

theorem On.readLoop (fuel left : ℕ) : On data (readLoop fuel left s).2 := by
  induction fuel generalizing left s with
  | zero => exact h
  | succ fuel ih =>
    rw [TccFile.readLoop]
    split
    · exact h
    · dsimp only
      split
      · exact h.read left
      · exact ih (h.read left) _

theorem On.clear (ungot : Option UInt8) : On data { s with ungot := ungot } :=
  ⟨h.source, h.nonneg, h.small⟩

theorem On.step (op : StreamOp) : On data (s.step op).2 := by
  cases op with
  | fgetc =>
    rw [TccFile.step, fgetc]
    dsimp only
    split
    · exact h.clear none
    · have hread := h.read 1
      split
      · next heq =>
        rw [heq] at hread
        exact hread
      · next heq =>
        rw [heq] at hread
        exact hread
  | ungetc ch =>
    rw [TccFile.step, ungetc]
    dsimp only
    split
    · exact h
    · exact h.clear _
  | fread size nmemb =>
    rw [TccFile.step, fread]
    dsimp only
    split
    · exact h
    · dsimp only
      split
      · exact (h.clear none).readLoop _ _
      · exact h.readLoop _ _
  | fseek offset whence =>
    rw [TccFile.step, fseek]
    dsimp only
    cases hseek : s.lseek offset whence with
    | none => exact h
    | some s' =>
      obtain ⟨base, hnext, rfl⟩ := lseek_eq_some hseek
      obtain ⟨hnonneg, hlt⟩ := long_bounds hnext
      exact ⟨h.source, hnonneg, hlt⟩
  | ftell => exact h

theorem On.after (ops : List StreamOp) : On data (s.after ops) := by
  induction ops generalizing s with
  | nil => exact h
  | cons op ops ih => exact ih (h.step op)

end

theorem On.of_opened (data : List UInt8) (small : data.length < 2 ^ 63) (append : Bool) :
    On data (opened (.file data small) append) := by
  refine ⟨⟨small, rfl⟩, ?_, ?_⟩
  · rw [opened]
    dsimp only
    split
    · rw [long_of_lt (by omega) (by omega)]
      omega
    · exact Int.le_refl 0
  · rw [opened]
    dsimp only
    split
    · rw [long_of_lt (by omega) (by omega)]
      omega
    · decide

/-! ## The law -/

theorem On.streamLaw (h : On data s) (hnone : s.ungot = none) : StreamLaw s := by
  constructor
  · obtain ⟨small, hsource⟩ := h.source
    rw [offset, hsource, hnone, ftell]
    simp
  · intro between reads _
    have hseek := (h.after between).fseek_set h.nonneg h.small
    obtain ⟨small, hsource⟩ := h.source
    obtain ⟨small', hsource'⟩ := (h.after between).source
    have hback : TccFile.mk (s.after between).source none s.pos = s := by
      rw [hsource', ← hnone, ← hsource]
    rw [ftell, hseek]
    dsimp only
    rw [hback]
    exact ⟨rfl, rfl⟩
  · intro ch hch
    exact fgetc_ungetc hch
  · intro ch size nmemb hch hsize hnmemb hbytes
    exact fread_ungetc hch hsize hnmemb hbytes
  · exact fseek_cases s

/-- The bytes arrive in pieces. -/
def Device (s : TccFile) : Prop := ∃ pieces, s.source = .device pieces

theorem Device.read (h : Device s) (count : ℕ) : Device (s.read count).2 := by
  obtain ⟨pieces, hsource⟩ := h
  rw [TccFile.read, hsource]
  exact ⟨_, rfl⟩

theorem Device.readLoop (h : Device s) (fuel left : ℕ) : Device (readLoop fuel left s).2 := by
  induction fuel generalizing left s with
  | zero => exact h
  | succ fuel ih =>
    rw [TccFile.readLoop]
    split
    · exact h
    · dsimp only
      split
      · exact h.read left
      · exact ih (h.read left) _

theorem Device.step (h : Device s) (op : StreamOp) : Device (s.step op).2 := by
  cases op with
  | fgetc =>
    rw [TccFile.step, fgetc]
    dsimp only
    split
    · exact h
    · have hread := h.read 1
      split
      · next heq =>
        rw [heq] at hread
        exact hread
      · next heq =>
        rw [heq] at hread
        exact hread
  | ungetc ch =>
    rw [TccFile.step, ungetc]
    dsimp only
    split <;> exact h
  | fread size nmemb =>
    have hclear : Device { s with ungot := none } := h
    rw [TccFile.step, fread]
    dsimp only
    split
    · exact h
    · dsimp only
      split
      · exact hclear.readLoop _ _
      · exact h.readLoop _ _
  | fseek offset whence =>
    obtain ⟨pieces, hsource⟩ := h
    rw [TccFile.step, fseek, lseek, hsource]
    exact ⟨pieces, hsource⟩
  | ftell => exact h

theorem Device.after (h : Device s) (ops : List StreamOp) : Device (s.after ops) := by
  induction ops generalizing s with
  | nil => exact h
  | cons op ops ih => exact ih (h.step op)

end TccFile

open TccFile in
/-- After any run the law holds exactly if the stream is a file and no byte is pushed back. -/
theorem streamLaw_iff (source : TccSource) (append : Bool) (ops : List StreamOp) :
    StreamLaw ((opened source append).after ops) ↔
      (∃ data small, source = .file data small) ∧
        ((opened source append).after ops).ungot = none := by
  cases source with
  | file data small =>
    have hon := (On.of_opened data small append).after ops
    constructor
    · intro h
      refine ⟨⟨data, small, rfl⟩, ?_⟩
      obtain ⟨_, hsource⟩ := hon.source
      have htell := h.tell
      rw [offset, hsource, ftell, Option.some.injEq] at htell
      cases hungot : ((opened (.file data small) append).after ops).ungot with
      | none => rfl
      | some b =>
        rw [hungot, Option.toList_some, length_singleton] at htell
        omega
    · intro h
      exact hon.streamLaw h.2
  | device pieces =>
    have hdevice : Device (opened (.device pieces) append) := ⟨pieces, rfl⟩
    constructor
    · intro h
      obtain ⟨_, hsource⟩ := hdevice.after ops
      have htell := h.tell
      rw [offset, hsource] at htell
      cases htell
    · intro h
      obtain ⟨⟨_, _, hfile⟩, _⟩ := h
      cases hfile

/-- A byte of a file is read and pushed back: the next one to be read is the first of the file, and
`ftell` says it is the second. -/
theorem not_streamLaw : ¬ ∀ source append ops,
    StreamLaw ((TccFile.opened source append).after ops) := by
  intro h
  have htell := (h (.file [97, 98] (by decide)) false [.fgetc, .ungetc 97]).tell
  revert htell
  decide

end Cleonos.Compat
