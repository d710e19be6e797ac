import Cleonos.Lib.ByteFile

/-!
# The streams of the ports

`bdt_cleonos_compat.c` and `tcc_cleonos_compat.c`: a descriptor above 2 is a stream that keeps the
whole file in a buffer, and writes it back when it is closed.
-/

namespace Cleonos.Compat

open Buffer (slice store)
open Descriptor (Handle Call Answer Layer Does Simulates)

/-! ## Flags -/

def oWronly : ℕ := 1
def oRdwr : ℕ := 2
def oCreat : ℕ := 0x40
def oTrunc : ℕ := 0x200
def oAppend : ℕ := 0x400

/-- `(flags & flag) != 0`. -/
def hasFlag (flags flag : ℕ) : Bool := flags &&& flag ≠ 0

/-- The access modes that read. -/
def mayRead (flags : ℕ) : Bool := !hasFlag flags oWronly || hasFlag flags oRdwr

/-- The access modes that write. -/
def mayWrite (flags : ℕ) : Bool := hasFlag flags oWronly || hasFlag flags oRdwr

/-- What the heap and the file system do during an opening: whether they grant the object, the
copy of the path, the size of the file, the buffer and with what in it, all bytes of the file, and
an entry of the table. -/
structure OpenEnv where
  object : Bool
  path : Bool
  stat : Bool
  memory : Option (ℕ → UInt8)
  read : Bool
  entry : Bool

/-- What they do during another call: the memory of a larger buffer, whether the file is written,
and what is on the disk if it is not. -/
structure Env where
  memory : Option (ℕ → UInt8)
  written : Bool
  spoiled : Option (List UInt8)

/-- The result of a call that may never return. -/
inductive Outcome (σ : Type)
  | ok (s : σ)
  | fails
  | never

/-- `bdt_cleonos_file` and `cleonos_tcc_file`; the path is there or is a null pointer. -/
structure Stream where
  named : Bool
  data : ℕ → UInt8
  size : ℕ
  capacity : ℕ
  readable : Bool
  writable : Bool
  dirty : Bool
  pos : ℤ

/-- A value as a `long`. -/
def long (x : ℤ) : ℤ := x.bmod (2 ^ 64)

/-- The loop that doubles the capacity; behind 64 rounds it is 0 and stays so. -/
def doubled : ℕ → ℕ → ℕ → Option ℕ
  | 0, _, _ => none
  | fuel + 1, cap, needed =>
    if cap < needed then doubled fuel (cap * 2 % 2 ^ 64) needed else some cap

/-- What `realloc` returns. -/
def grown (data : ℕ → UInt8) (capacity : ℕ) (memory : ℕ → UInt8) : ℕ → UInt8 :=
  fun j => if j < capacity then data j else memory j

/-- `bdt_stream_reserve`, `tcc_stream_reserve`. -/
def reserveStream (s : Stream) (needed : ℕ) (memory : Option (ℕ → UInt8)) : Outcome Stream :=
  if s.capacity ≥ needed then .ok s
  else
    match doubled 65 (if s.capacity ≠ 0 then s.capacity else 256) needed with
    | none => .never
    | some cap =>
      match memory with
      | none => .fails
      | some memory => .ok { s with data := grown s.data s.capacity memory, capacity := cap }

/-- The file that the buffer holds. -/
def Stream.content (s : Stream) : List UInt8 := slice s.data 0 s.size

/-- What `open` does about the file that is there, if one is seen. -/
def loadStream (seen : Option (List UInt8)) (flags : ℕ) (e : OpenEnv) (s : Stream) :
    Outcome Stream :=
  match seen with
  | some content =>
    match reserveStream s content.length e.memory with
    | .ok s =>
      if content.length ≠ 0 ∧ e.read = false then .fails
      else .ok { s with data := store s.data 0 content, size := content.length }
    | r => r
  | none => if hasFlag flags oCreat then .ok s else .fails

/-- `open`; the file that is there is an argument. -/
def openStream (old : Option (List UInt8)) (flags : ℕ) (e : OpenEnv) : Outcome Stream :=
  if e.object = false then .fails
  else
    let s : Stream :=
      { named := e.path
        data := fun _ => 0
        size := 0
        capacity := 0
        readable := !hasFlag flags oWronly || hasFlag flags oRdwr
        writable := hasFlag flags (oWronly ||| oRdwr ||| oCreat ||| oTrunc ||| oAppend)
        dirty := false
        pos := 0 }
    match loadStream (if e.stat ∧ hasFlag flags oTrunc = false then old else none) flags e s with
    | .ok s =>
      let s := if hasFlag flags oAppend then { s with pos := s.size } else s
      if e.entry then .ok s else .fails
    | r => r

/-- `read`. -/
def readStream (s : Stream) (count : ℕ) : List UInt8 × Stream :=
  if s.pos < 0 ∨ s.pos.toNat ≥ s.size then ([], s)
  else
    let avail := s.size - s.pos.toNat
    let count := if count > avail then avail else count
    if count ≠ 0 then (slice s.data s.pos.toNat count, { s with pos := long (s.pos + count) })
    else ([], s)

/-- `write`. -/
def writeStream (s : Stream) (bytes : List UInt8) (memory : Option (ℕ → UInt8)) :
    Outcome Stream :=
  if s.pos < 0 then .fails
  else
    let stop := (s.pos.toNat + bytes.length) % 2 ^ 64
    match reserveStream s stop memory with
    | .ok s =>
      let s :=
        if bytes.length ≠ 0 then
          { s with data := store s.data s.pos.toNat bytes, pos := long (s.pos + bytes.length) }
        else s
      let s := if stop > s.size then { s with size := stop } else s
      .ok { s with dirty := true }
    | r => r

/-- `lseek`. -/
def lseekStream (s : Stream) (offset whence : ℤ) : Option Stream :=
  let seek (base : ℤ) : Option Stream :=
    let next := long (base + offset)
    if next < 0 then none else some { s with pos := next }
  if whence = 0 then seek 0
  else if whence = 1 then seek s.pos
  else if whence = 2 then seek (long s.size)
  else none

/-- `bdt_stream_flush_file`, `tcc_stream_flush_file`; which values are failures is an argument. -/
def flushStream (failed : ℕ → Bool) (s : Stream) (disk : Option (List UInt8)) (e : Env) :
    Bool × Stream × Option (List UInt8) :=
  if s.named = false ∨ s.dirty = false then (true, s, disk)
  else
    let disk := if e.written then some s.content else e.spoiled
    if failed (if e.written then 1 else 0) then (false, s, disk)
    else (true, { s with dirty := false }, disk)

/-- The calls, `close` among them. -/
def streamStep (failed : ℕ → Bool) (s : Stream) (disk : Option (List UInt8)) (c : Call UInt8)
    (e : Env) : Answer UInt8 × Option Stream × Option (List UInt8) :=
  match c with
  | .read n => (.items (readStream s n).1, some (readStream s n).2, disk)
  | .write bytes =>
    match writeStream s bytes e.memory with
    | .ok s => (.value bytes.length, some s, disk)
    | .fails => (.error, some s, disk)
    | .never => (.never, some s, disk)
  | .lseek offset whence =>
    match lseekStream s offset whence with
    | some s => (.value s.pos, some s, disk)
    | none => (.error, some s, disk)
  | .close =>
    match flushStream failed s disk e with
    | (false, s, disk) => (.error, some s, disk)
    | (true, _, disk) => (.value 0, none, disk)

def streamLayer (failed : ℕ → Bool) : Layer UInt8 Env := ⟨Stream, streamStep failed⟩

/-- The descriptors of `bdt_cleonos_compat.c`. -/
def bdtLayer : Layer UInt8 Env := streamLayer (· = 0)

/-- The descriptors of `tcc_cleonos_compat.c`. -/
def tccLayer : Layer UInt8 Env := streamLayer (· = 2 ^ 64 - 1)

/-- The stream is a descriptor opened with these flags. -/
structure StreamRepr (flags : ℕ) (s : Stream) (d : Handle UInt8) : Prop where
  content : d.content = s.content
  pos : s.pos = d.pos
  mayRead : d.mayRead = mayRead flags
  mayWrite : d.mayWrite = mayWrite flags
  append : d.append = hasFlag flags oAppend
  named : s.named = true
  bound : s.pos < 2 ^ 63
  room : s.size ≤ s.capacity
  small : s.size < 2 ^ 63

/-- What a call must be for the layer to answer it as a descriptor does: the access mode allows it;
a write begins in the file, at its end where it appends, and ends below `2 ^ 63`, and so does a
seek; a close finds the file on the disk, or writes it. -/
def StreamGood (failed : ℕ → Bool) (flags : ℕ) (s : Stream) (disk : Option (List UInt8))
    (c : Call UInt8) (e : Env) : Prop :=
  match c with
  | .read _ => mayRead flags = true
  | .write bytes => mayWrite flags = true ∧ s.pos ≤ s.size ∧
      (hasFlag flags oAppend = true → s.pos = s.size) ∧ s.pos + bytes.length < 2 ^ 63
  | .lseek offset whence => -2 ^ 63 ≤ offset ∧ offset < 2 ^ 63 ∧
      (whence = 1 → s.pos + offset < 2 ^ 63) ∧ (whence = 2 → (s.size : ℤ) + offset < 2 ^ 63)
  | .close => if s.dirty then failed 0 = true ∨ e.written = true else disk = some s.content

variable {failed : ℕ → Bool} {flags : ℕ} {s s' : Stream} {d : Handle UInt8}
  {disk : Option (List UInt8)} {e : Env}

theorem long_of_lt {x : ℤ} (h0 : 0 ≤ x) (h : x < 2 ^ 63) : long x = x := by
  rw [long, Int.bmod_eq_of_le] <;> omega

theorem exists_doubled {needed : ℕ} (fuel cap : ℕ) (hneeded : needed ≤ 2 ^ 63)
    (hfuel : needed ≤ cap * 2 ^ fuel) : ∃ cap', doubled (fuel + 1) cap needed = some cap' ∧
      needed ≤ cap' ∧ cap ≤ cap' := by
  induction fuel generalizing cap with
  | zero =>
    rw [Nat.pow_zero, Nat.mul_one] at hfuel
    exact ⟨cap, by rw [doubled, if_neg (Nat.not_lt.2 hfuel)], hfuel, Nat.le_refl cap⟩
  | succ fuel ih =>
    rw [doubled]
    by_cases hlt : cap < needed
    · have hmod : cap * 2 % 2 ^ 64 = cap * 2 := Nat.mod_eq_of_lt (by omega)
      rw [if_pos hlt, hmod]
      obtain ⟨cap', hcap', hle, hge⟩ := ih (cap * 2) (by
        rw [Nat.mul_assoc, ← Nat.pow_succ']
        exact hfuel)
      exact ⟨cap', hcap', hle, by omega⟩
    · rw [if_neg hlt]
      exact ⟨cap, rfl, Nat.le_of_not_lt hlt, Nat.le_refl cap⟩

theorem reserveStream_cases (s : Stream) (needed : ℕ) (hneeded : needed ≤ 2 ^ 63)
    (memory : Option (ℕ → UInt8)) : reserveStream s needed memory = .fails ∨
      ∃ data capacity, reserveStream s needed memory = .ok { s with data := data, capacity := capacity } ∧
        needed ≤ capacity ∧ s.capacity ≤ capacity ∧ ∀ j < s.capacity, data j = s.data j := by
  rw [reserveStream]
  split
  case isTrue hroom =>
    exact .inr ⟨s.data, s.capacity, rfl, hroom, Nat.le_refl _, fun _ _ => rfl⟩
  case isFalse hroom =>
    generalize hstart : (if s.capacity ≠ 0 then s.capacity else 256) = start
    have hstart' : s.capacity ≤ start ∧ 0 < start := by
      rw [← hstart]
      split <;> omega
    obtain ⟨cap, hcap, hle, hge⟩ := exists_doubled 64 start hneeded (by omega)
    rw [hcap]
    cases memory with
    | none => exact .inl rfl
    | some memory =>
      exact .inr ⟨_, cap, rfl, hle, Nat.le_trans hstart'.1 hge, fun j hj => if_pos hj⟩

theorem slice_store_of_le {data : ℕ → UInt8} {size pos : ℕ} (hpos : pos ≤ size)
    (bytes : List UInt8) : slice (store data pos bytes) 0 (max size (pos + bytes.length)) =
      ByteFile.writeAt 0 (slice data 0 size) pos bytes :=
  ByteFile.slice_store_eq_writeAt fun _ hj hj' => absurd (Nat.lt_of_le_of_lt hj hj') (by omega)

section

variable (h : StreamRepr flags s d)
include h

theorem read_does (hread : mayRead flags = true) (n : ℕ) :
    ∃ d', Does 0 d (.read n) (.items (readStream s n).1) d' ∧
      StreamRepr flags (readStream s n).2 d' := by
  have hmay : d.mayRead = true := h.mayRead.trans hread
  have hbytes : (d.content.drop d.pos).take n = slice s.data d.pos (min n (s.size - d.pos)) := by
    rw [h.content, Stream.content, Buffer.slice_drop, Nat.zero_add, Buffer.slice_take]
  have hdoes := Does.read (z := (0 : UInt8)) (n := n) hmay
  rw [hbytes, Buffer.length_slice] at hdoes
  have hpos : s.pos.toNat = d.pos := by rw [h.pos, Int.toNat_natCast]
  have hneg : ¬ s.pos < 0 := by rw [h.pos]; omega
  have hbound := h.bound
  have hsmall := h.small
  have hposEq := h.pos
  rw [readStream]
  by_cases hend : s.pos < 0 ∨ s.pos.toNat ≥ s.size
  · have hzero : min n (s.size - d.pos) = 0 := by omega
    rw [if_pos hend]
    rw [hzero] at hdoes
    exact ⟨_, hdoes, h⟩
  · rw [if_neg hend, hpos]
    dsimp only
    have hcount : (if n > s.size - d.pos then s.size - d.pos else n) = min n (s.size - d.pos) := by
      split <;> omega
    rw [hcount]
    by_cases hzero : min n (s.size - d.pos) = 0
    · rw [if_neg (not_not.2 hzero)]
      rw [hzero] at hdoes
      exact ⟨_, hdoes, h⟩
    · rw [if_pos hzero]
      have hlong : long (s.pos + (min n (s.size - d.pos) : ℕ)) =
          (d.pos + min n (s.size - d.pos) : ℕ) := by
        rw [long_of_lt (by omega) (by omega)]
        omega
      refine ⟨_, hdoes, ⟨h.content, hlong, h.mayRead, h.mayWrite, h.append, h.named, ?_, h.room,
        h.small⟩⟩
      dsimp only
      rw [hlong]
      omega

theorem write_does {bytes : List UInt8}
    (hgood : StreamGood failed flags s disk (.write bytes) e) :
    writeStream s bytes e.memory = .fails ∨
    ∃ s' d', writeStream s bytes e.memory = .ok s' ∧
      Does 0 d (.write bytes) (.value bytes.length) d' ∧ StreamRepr flags s' d' := by
  obtain ⟨hwrite, hin, happend, hstop⟩ := hgood
  have hmay : d.mayWrite = true := h.mayWrite.trans hwrite
  have hpos : s.pos.toNat = d.pos := by rw [h.pos, Int.toNat_natCast]
  have hposEq := h.pos
  have hsmall := h.small
  have hroom := h.room
  have hlen : d.content.length = s.size := by rw [h.content, Stream.content, Buffer.length_slice]
  have hmod : (s.pos.toNat + bytes.length) % 2 ^ 64 = d.pos + bytes.length := by
    rw [hpos]
    exact Nat.mod_eq_of_lt (by omega)
  rw [writeStream, if_neg (by omega), hmod]
  dsimp only
  rcases reserveStream_cases s (d.pos + bytes.length) (by omega) e.memory with
    hfails | ⟨data, capacity, hok, hneeded, hcapacity, hdata⟩
  · rw [hfails]
    exact .inl rfl
  · rw [hok]
    have hcontent : slice data 0 s.size = d.content := by
      rw [h.content]
      exact Buffer.slice_congr fun j _ hj => hdata j (by omega)
    right
    by_cases hempty : bytes = []
    · subst hempty
      have hle : ¬ d.pos > s.size := by omega
      rw [List.length_nil, Nat.add_zero]
      simp only [ne_eq, not_true_eq_false, if_false]
      rw [if_neg hle]
      exact ⟨_, d, rfl, .writeNothing hmay, ⟨hcontent.symm, h.pos, h.mayRead, h.mayWrite, h.append,
        h.named, h.bound, Nat.le_trans hroom hcapacity, h.small⟩⟩
    · have hne : bytes.length ≠ 0 := fun h0 => hempty (List.length_eq_zero_iff.1 h0)
      have hwritePos : Descriptor.writePos d = d.pos := by
        rw [Descriptor.writePos, h.append, hlen]
        split
        case isTrue ha =>
          have := happend ha
          omega
        case isFalse => rfl
      have hdoes := Does.write (z := (0 : UInt8)) hmay hempty
      rw [hwritePos] at hdoes
      have hlong : long (s.pos + bytes.length) = (d.pos + bytes.length : ℕ) := by
        rw [long_of_lt (by omega) (by omega)]
        omega
      dsimp only
      rw [if_pos hne]
      refine ⟨{ s with
        data := store data d.pos bytes
        size := max s.size (d.pos + bytes.length)
        capacity := capacity
        dirty := true
        pos := (d.pos + bytes.length : ℕ) }, _, ?_, hdoes, ⟨?_, rfl, h.mayRead, h.mayWrite, h.append,
        h.named, ?_, ?_, ?_⟩⟩
      · rw [hpos, hlong]
        dsimp only
        split
        case isTrue hgt =>
          rw [Nat.max_eq_right (Nat.le_of_lt hgt)]
        case isFalse hgt =>
          rw [Nat.max_eq_left (Nat.le_of_not_lt hgt)]
      · rw [Stream.content, slice_store_of_le (by omega), hcontent]
      · dsimp only
        omega
      · dsimp only
        omega
      · dsimp only
        omega

theorem lseek_does {offset whence : ℤ}
    (hgood : StreamGood failed flags s disk (.lseek offset whence) e) :
    (lseekStream s offset whence = none ∧ Does 0 d (.lseek offset whence) .error d) ∨
    ∃ s' d', lseekStream s offset whence = some s' ∧
      Does 0 d (.lseek offset whence) (.value s'.pos) d' ∧ StreamRepr flags s' d' := by
  obtain ⟨hlow, hhigh, hcur, hend⟩ := hgood
  have hsmall := h.small
  have hposEq := h.pos
  have hlen : d.content.length = s.size := by rw [h.content, Stream.content, Buffer.length_slice]
  -- from a place in the file
  have hseek : ∀ b : ℕ, Descriptor.base d whence = some b → (b : ℤ) + offset < 2 ^ 63 →
      ((if long (b + offset) < 0 then none else some { s with pos := long (b + offset) }) = none ∧
        Does 0 d (.lseek offset whence) .error d) ∨
      ∃ s' d', (if long (b + offset) < 0 then none
          else some { s with pos := long (b + offset) }) = some s' ∧
        Does 0 d (.lseek offset whence) (.value s'.pos) d' ∧ StreamRepr flags s' d' := by
    intro b hbase hlt
    by_cases hneg : (b : ℤ) + offset < 0
    · left
      have hlong : long (b + offset) = b + offset := by
        rw [long, Int.bmod_eq_of_le] <;> omega
      rw [hlong, if_pos hneg]
      exact ⟨rfl, .seekBefore hbase hneg⟩
    · right
      obtain ⟨pos, hpos⟩ := Int.eq_ofNat_of_zero_le (Int.not_lt.1 hneg)
      rw [long_of_lt (by omega) hlt, if_neg hneg]
      refine ⟨{ s with pos := b + offset }, { d with pos := pos }, rfl, ?_, ⟨h.content, hpos,
        h.mayRead, h.mayWrite, h.append, h.named, hlt, h.room, h.small⟩⟩
      dsimp only
      rw [hpos]
      exact .seek hbase hpos
  rw [lseekStream]
  dsimp only
  by_cases hset : whence = 0
  · rw [if_pos hset]
    exact hseek 0 (by rw [Descriptor.base, if_pos hset]) (by omega)
  by_cases hcurrent : whence = 1
  · rw [if_neg hset, if_pos hcurrent, hposEq]
    exact hseek d.pos (by rw [Descriptor.base, if_neg hset, if_pos hcurrent])
      (by rw [← hposEq]; exact hcur hcurrent)
  by_cases hsize : whence = 2
  · have hlong : long (s.size : ℤ) = s.size := long_of_lt (by omega) (by omega)
    rw [if_neg hset, if_neg hcurrent, if_pos hsize, hlong]
    exact hseek s.size
      (by rw [Descriptor.base, if_neg hset, if_neg hcurrent, if_pos hsize, hlen]) (hend hsize)
  · rw [if_neg hset, if_neg hcurrent, if_neg hsize]
    exact .inl ⟨rfl, .seekUnknown (by
      rw [Descriptor.base, if_neg hset, if_neg hcurrent, if_neg hsize])⟩

theorem streamLayer_simulates (c : Call UInt8)
    (hgood : StreamGood failed flags s disk c e) :
    Simulates 0 (streamLayer failed) (StreamRepr flags) disk d c
      (streamStep failed s disk c e) := by
  cases c with
  | read n =>
    obtain ⟨d', hdoes, hrepr⟩ := read_does h hgood n
    exact .inl ⟨d', hdoes, rfl, hrepr⟩
  | write bytes =>
    rw [streamStep]
    rcases write_does h hgood with hfails | ⟨s', d', hok, hdoes, hrepr⟩
    · rw [hfails]
      exact .inl ⟨d, .writeRefused, rfl, h⟩
    · rw [hok]
      exact .inl ⟨d', hdoes, rfl, hrepr⟩
  | lseek offset whence =>
    rw [streamStep]
    rcases lseek_does h hgood with ⟨hnone, hdoes⟩ | ⟨s', d', hok, hdoes, hrepr⟩
    · rw [hnone]
      exact .inl ⟨d, hdoes, rfl, h⟩
    · rw [hok]
      exact .inl ⟨d', hdoes, rfl, hrepr⟩
  | close =>
    rw [StreamGood] at hgood
    rw [streamStep, flushStream]
    cases hdirty : s.dirty
    · rw [hdirty, if_neg (by simp)] at hgood
      rw [if_pos (.inr rfl)]
      exact ⟨rfl, rfl, by rw [hgood, h.content]⟩
    · rw [hdirty, if_pos rfl] at hgood
      rw [if_neg (by simp [h.named])]
      dsimp only
      cases hfailed : failed (if e.written = true then 1 else 0)
      · rw [if_neg (by simp)]
        have hwritten : e.written = true := by
          rcases hgood with hbad | hw
          · by_contra hnot
            rw [if_neg hnot, hbad] at hfailed
            cases hfailed
          · exact hw
        rw [if_pos hwritten]
        exact ⟨rfl, rfl, by rw [h.content]⟩
      · rw [if_pos rfl]
        exact .inr ⟨rfl, rfl, h⟩

end

/-! ### The opening -/

/-- What an opening must be for the stream to be a descriptor: the path is copied, and a file that
is there is seen, unless it is cut or empty. -/
def StreamOpenGood (old : Option (List UInt8)) (flags : ℕ) (e : OpenEnv) : Prop :=
  e.path = true ∧ ∀ content, old = some content → content.length < 2 ^ 63 ∧
    (hasFlag flags oTrunc = true ∨ content = [] ∨ e.stat = true ∨ hasFlag flags oCreat = false)

variable (flags s) in
theorem loadStream_cases {seen : Option (List UInt8)} (o : OpenEnv)
    (hseen : ∀ content, seen = some content → content.length < 2 ^ 63)
    (hs : s.size = 0) : loadStream seen flags o s = .fails ∨
      ∃ s', loadStream seen flags o s = .ok s' ∧ s'.content = seen.getD [] ∧ s'.size < 2 ^ 63 ∧
        s'.size ≤ s'.capacity ∧ s'.pos = s.pos ∧ s'.named = s.named ∧
        (seen = none → hasFlag flags oCreat = true) := by
  cases seen with
  | none =>
    rw [loadStream]
    cases hcreat : hasFlag flags oCreat
    · exact .inl rfl
    · refine .inr ⟨s, rfl, ?_, ?_, ?_, rfl, rfl, fun _ => rfl⟩
      · rw [Stream.content, hs]
        rfl
      · rw [hs]
        decide
      · rw [hs]
        exact Nat.zero_le _
  | some content =>
    have hlen := hseen content rfl
    rw [loadStream]
    rcases reserveStream_cases s _ (Nat.le_of_lt hlen) o.memory with
      hfails | ⟨data, capacity, hok, hneeded, -, -⟩
    · rw [hfails]
      exact .inl rfl
    · rw [hok]
      dsimp only
      split
      · exact .inl rfl
      · refine .inr ⟨_, rfl, ?_, hlen, hneeded, rfl, rfl, fun h => nomatch h⟩
        rw [Stream.content, Buffer.slice_store_self]
        rfl

theorem openStream_repr {old : Option (List UInt8)} {o : OpenEnv}
    (hgood : StreamOpenGood old flags o) : openStream old flags o = .fails ∨
      ∃ s d, openStream old flags o = .ok s ∧ StreamRepr flags s d ∧
        Descriptor.openFile old (hasFlag flags oCreat) (hasFlag flags oTrunc) (mayRead flags)
          (mayWrite flags) (hasFlag flags oAppend) = some d := by
  obtain ⟨hpath, hold⟩ := hgood
  rw [openStream]
  split
  · exact .inl rfl
  dsimp only
  generalize hseen : (if o.stat = true ∧ hasFlag flags oTrunc = false then old else none) = seen
  have hseenLen : ∀ content, seen = some content → content.length < 2 ^ 63 := by
    rintro content rfl
    split at hseen
    · exact (hold content hseen).1
    · cases hseen
  rcases loadStream_cases flags
      { named := o.path
        data := fun _ => 0
        size := 0
        capacity := 0
        readable := !hasFlag flags oWronly || hasFlag flags oRdwr
        writable := hasFlag flags (oWronly ||| oRdwr ||| oCreat ||| oTrunc ||| oAppend)
        dirty := false
        pos := 0 } o hseenLen rfl with hfails | ⟨s, hok, hcontent, hsmall, hroom, hpos, hnamed, hcreat⟩
  · rw [hfails]
    exact .inl rfl
  rw [hok]
  dsimp only
  cases hentry : o.entry
  · exact .inl (if_neg (by simp))
  right
  rw [if_pos rfl]
  -- the content of the descriptor
  have hopen : Descriptor.openFile old (hasFlag flags oCreat) (hasFlag flags oTrunc) (mayRead flags)
      (mayWrite flags) (hasFlag flags oAppend) =
        some ⟨s.content, if hasFlag flags oAppend then s.content.length else 0, mayRead flags,
          mayWrite flags, hasFlag flags oAppend⟩ := by
    rw [hcontent]
    cases old with
    | none =>
      have hnone : seen = none := by rw [← hseen]; split <;> rfl
      rw [Descriptor.openFile, hcreat hnone, if_pos rfl, hnone]
      simp
    | some content =>
      have hsame : (if hasFlag flags oTrunc then [] else content) = seen.getD [] := by
        rw [← hseen]
        cases htrunc : hasFlag flags oTrunc
        · cases hstat : o.stat
          · rcases (hold content rfl).2 with h | h | h | h
            · rw [htrunc] at h
              cases h
            · simp [h]
            · rw [hstat] at h
              cases h
            · rw [hstat, if_neg (by simp)] at hseen
              rw [hcreat hseen.symm] at h
              cases h
          · rw [if_neg (by simp), if_pos ⟨rfl, rfl⟩]
            rfl
        · rw [if_pos rfl, if_neg (by simp)]
          rfl
      rw [Descriptor.openFile, hsame]
  have hlen : s.content.length = s.size := by rw [Stream.content, Buffer.length_slice]
  refine ⟨_, _, rfl, ?_, hopen⟩
  cases happend : hasFlag flags oAppend
  · rw [if_neg (by simp), if_neg (by simp)]
    exact ⟨rfl, hpos, rfl, rfl, happend.symm, hnamed.trans hpath,
      by rw [hpos]; exact (by decide : (0 : ℤ) < 2 ^ 63), hroom, hsmall⟩
  · rw [if_pos rfl, if_pos rfl, hlen]
    exact ⟨rfl, rfl, rfl, rfl, happend.symm, hnamed.trans hpath, by dsimp only; omega, hroom,
      hsmall⟩

end Cleonos.Compat
