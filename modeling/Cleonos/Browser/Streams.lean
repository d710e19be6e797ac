import Cleonos.Browser.Chunked
import Mathlib.Data.List.Basic

/-!
# Streams of chunks

A stream is a list of chunks and what ends it.
-/

namespace Cleonos.Browser

open List

/-! ## Line ends -/

section

variable {line xs ys : List UInt8} {i n : ℕ}

def crlf : List UInt8 := [13, 10]

theorem crlfIndex_line (h : crlfIndex line = none) (rest : List UInt8) :
    crlfIndex (line ++ (crlf ++ rest)) = some line.length := by
  induction line with
  | nil => rfl
  | cons c line ih =>
    rw [crlfIndex] at h
    rw [cons_append, crlfIndex]
    by_cases hc : c = 13 ∧ line.headD 0 = 10
    · rw [if_pos hc] at h
      cases h
    · rw [if_neg hc, Option.map_eq_none_iff] at h
      rw [if_neg, ih h]
      · rfl
      · rintro ⟨hc13, hhead⟩
        cases line with
        | nil => simp [crlf] at hhead
        | cons d line => exact hc ⟨hc13, hhead⟩

section

variable (h : crlfIndex xs = some i)
include h

theorem crlfIndex_eq_some :
    crlfIndex (xs.take i) = none ∧ xs = xs.take i ++ (crlf ++ xs.drop (i + 2)) := by
  induction xs generalizing i with
  | nil => cases h
  | cons c xs ih =>
    rw [crlfIndex] at h
    by_cases hc : c = 13 ∧ xs.headD 0 = 10
    · rw [if_pos hc] at h
      cases h
      obtain ⟨rfl, hhead⟩ := hc
      cases xs with
      | nil => exact absurd hhead (by decide)
      | cons d xs =>
        rw [headD_cons] at hhead
        subst hhead
        exact ⟨rfl, rfl⟩
    · rw [if_neg hc, Option.map_eq_some_iff] at h
      obtain ⟨j, hj, rfl⟩ := h
      obtain ⟨hnone, hsplit⟩ := ih hj
      refine ⟨?_, ?_⟩
      · rw [take_succ_cons, crlfIndex, if_neg, hnone]
        · rfl
        · rintro ⟨hc13, hhead⟩
          cases xs with
          | nil => simp at hhead
          | cons d xs =>
            cases j with
            | zero => simp at hhead
            | succ j => exact hc ⟨hc13, by simpa using hhead⟩
      · rw [take_succ_cons, cons_append]
        exact congrArg (c :: ·) hsplit

theorem crlfIndex_length : i + 2 ≤ xs.length := by
  have hlength := congrArg List.length (crlfIndex_eq_some h).2
  simp only [length_append, length_take, length_drop, crlf, length_cons,
    length_nil] at hlength
  omega

theorem crlfIndex_append (ys : List UInt8) :
    crlfIndex (xs ++ ys) = some i := by
  obtain ⟨hnone, hsplit⟩ := crlfIndex_eq_some h
  have hlen : (xs.take i).length = i :=
    length_take_of_le (Nat.le_of_add_right_le (crlfIndex_length h))
  rw [hsplit, append_assoc, append_assoc, crlfIndex_line hnone, hlen]

theorem crlfIndex_take (n : ℕ) :
    crlfIndex (xs.take n) = if i + 2 ≤ n then some i else none := by
  have hxs : ∀ j, crlfIndex (xs.take n) = some j → j = i ∧ j + 2 ≤ n := by
    intro j hj
    have hfull := crlfIndex_append hj (xs.drop n)
    rw [take_append_drop, h] at hfull
    have hlen := crlfIndex_length hj
    rw [length_take] at hlen
    exact ⟨(Option.some.inj hfull).symm, by omega⟩
  split
  · obtain ⟨hnone, hsplit⟩ := crlfIndex_eq_some h
    have hlen : (xs.take i).length = i :=
      length_take_of_le (Nat.le_of_add_right_le (crlfIndex_length h))
    have htake : xs.take n = xs.take i ++ (crlf ++ (xs.drop (i + 2)).take (n - i - 2)) := by
      have hline : (xs.take i).take n = xs.take i := take_of_length_le (by omega)
      have hend : crlf.take (n - i) = crlf :=
        take_of_length_le (Nat.le_sub_of_add_le (by rw [Nat.add_comm]; assumption))
      conv_lhs => rw [hsplit]
      rw [take_append, hline, hlen, take_append, hend]
      rfl
    rw [htake, crlfIndex_line hnone, hlen]
  · cases hj : crlfIndex (xs.take n) with
    | none => rfl
    | some j =>
      obtain ⟨rfl, hle⟩ := hxs j hj
      omega

end

end

/-- A chunk: its size line, as the parser takes it, and its data. -/
structure Chunk where
  line : List UInt8
  data : List UInt8
  data_ne_nil : data ≠ []
  line_crlf : crlfIndex line = none
  line_size : chunkSize line = some data.length

def Chunk.bytes (c : Chunk) : List UInt8 := c.line ++ (crlf ++ (c.data ++ crlf))

/-- A stream: its chunks, the line of the last one, which is empty, and the trailers. -/
structure Stream where
  chunks : List Chunk
  line : List UInt8
  trailers : List (List UInt8)
  line_crlf : crlfIndex line = none
  line_size : chunkSize line = some 0
  trailers_crlf : ∀ t ∈ trailers, t ≠ [] ∧ crlfIndex t = none

namespace Stream

open List

/-- The trailers, and the empty line that ends them. -/
def trailerBytes (trailers : List (List UInt8)) : List UInt8 :=
  trailers.flatMap (· ++ crlf) ++ crlf

/-- The bytes that end a stream. -/
def ending (stream : Stream) : List UInt8 :=
  stream.line ++ (crlf ++ trailerBytes stream.trailers)

def bytes (stream : Stream) : List UInt8 := stream.chunks.flatMap Chunk.bytes ++ stream.ending

/-- The body that is sent in a stream. -/
def body (stream : Stream) : List UInt8 := stream.chunks.flatMap Chunk.data

end Stream

section

variable {b rest tail : List UInt8} {outside : ℕ → UInt8} {off n fuel : ℕ}

theorem trailerLoop_none (h : crlfIndex rest = none) : trailerLoop fuel rest = .incomplete := by
  cases fuel with
  | zero => rfl
  | succ fuel => rw [trailerLoop, h]

theorem trailerLoop_zero (h : crlfIndex rest = some 0) :
    trailerLoop (fuel + 1) rest = .complete := by
  rw [trailerLoop, h]

theorem trailerLoop_line {i : ℕ} (h : crlfIndex rest = some i) (hi : i ≠ 0) :
    trailerLoop (fuel + 1) rest = trailerLoop fuel (rest.drop (i + 2)) := by
  cases i with
  | zero => exact absurd rfl hi
  | succ i => rw [trailerLoop, h]

theorem trailerLoop_take {trailers : List (List UInt8)}
    (h : ∀ t ∈ trailers, t ≠ [] ∧ crlfIndex t = none) (tail : List UInt8) (n : ℕ)
    (hfuel : ((Stream.trailerBytes trailers ++ tail).take n).length < fuel) :
    trailerLoop fuel ((Stream.trailerBytes trailers ++ tail).take n) =
      if (Stream.trailerBytes trailers).length ≤ n then .complete else .incomplete := by
  induction trailers generalizing fuel n with
  | nil =>
    obtain ⟨fuel, rfl⟩ := Nat.exists_eq_succ_of_ne_zero (Nat.ne_zero_of_lt hfuel)
    have hindex := @crlfIndex_take _ 0 (@crlfIndex_line [] rfl tail) n
    have hlen : (Stream.trailerBytes []).length = 2 := rfl
    rw [hlen]
    by_cases hn : 2 ≤ n
    · rw [if_pos hn]
      exact trailerLoop_zero (hindex.trans (if_pos hn))
    · rw [if_neg hn]
      exact trailerLoop_none (hindex.trans (if_neg hn))
  | cons t trailers ih =>
    obtain ⟨fuel, rfl⟩ := Nat.exists_eq_succ_of_ne_zero (Nat.ne_zero_of_lt hfuel)
    obtain ⟨hne, hcrlf⟩ := h t mem_cons_self
    have hbytes : Stream.trailerBytes (t :: trailers) ++ tail =
        t ++ (crlf ++ (Stream.trailerBytes trailers ++ tail)) := by
      simp [Stream.trailerBytes]
    have hlen : (Stream.trailerBytes (t :: trailers)).length =
        t.length + 2 + (Stream.trailerBytes trailers).length := by
      simp [Stream.trailerBytes, crlf]
      omega
    have hindex := crlfIndex_take (crlfIndex_line hcrlf (Stream.trailerBytes trailers ++ tail)) n
    rw [hbytes] at hfuel ⊢
    by_cases hn : t.length + 2 ≤ n
    · rw [if_pos hn] at hindex
      have hdrop : ((t ++ (crlf ++ (Stream.trailerBytes trailers ++ tail))).take n).drop
          (t.length + 2) = (Stream.trailerBytes trailers ++ tail).take (n - (t.length + 2)) := by
        rw [drop_take, ← append_assoc]
        exact congrArg (List.take _) (drop_left' (by simp [crlf]))
      have hfuel' : ((Stream.trailerBytes trailers ++ tail).take (n - (t.length + 2))).length <
          fuel := by
        have hlong := crlfIndex_length hindex
        rw [← hdrop, length_drop]
        omega
      rw [trailerLoop_line hindex (length_pos_of_ne_nil hne).ne', hdrop,
        ih (fun t ht => h t (mem_cons_of_mem _ ht)) _ hfuel', hlen]
      congr 1
      rw [eq_iff_iff]
      omega
    · rw [if_neg hn] at hindex
      rw [trailerLoop_none hindex, if_neg (by omega)]

variable (c : Chunk)

theorem length_chunk : c.bytes.length = c.line.length + 2 + c.data.length + 2 := by
  simp [Chunk.bytes, crlf]
  omega

theorem getElem?_chunk (hdrop : b.drop off = c.bytes ++ rest) :
    b[off + c.line.length + 2 + c.data.length]? = some 13 ∧
      b[off + c.line.length + 2 + c.data.length + 1]? = some 10 := by
  have hsplit : b.drop off = (c.line ++ crlf ++ c.data) ++ (13 :: 10 :: rest) := by
    rw [hdrop]
    simp [Chunk.bytes, crlf]
  have hlen : (c.line ++ crlf ++ c.data).length = c.line.length + 2 + c.data.length := by
    simp [crlf]
    omega
  have hcell : ∀ k, b[off + c.line.length + 2 + c.data.length + k]? = (13 :: 10 :: rest)[k]? := by
    intro k
    have hoff : off + c.line.length + 2 + c.data.length + k =
        off + ((c.line ++ crlf ++ c.data).length + k) := by omega
    rw [hoff, ← List.getElem?_drop, hsplit, List.getElem?_append_right (Nat.le_add_right _ _),
      Nat.add_sub_cancel_left]
  exact ⟨hcell 0, hcell 1⟩

theorem byteAt_take {i : ℕ} {c : UInt8} (h : b[i]? = some c) (hi : i < n) :
    byteAt (b.take n) outside i = c := by
  rw [byteAt, getD_eq_getElem?_getD, List.getElem?_take_of_lt hi, h]
  rfl

theorem completeFrom_chunk (hlen : b.length < 2 ^ 64)
    (hdrop : b.drop off = c.bytes ++ rest) (n : ℕ) :
    completeFrom (b.take n) outside (fuel + 1) off = if off + c.bytes.length ≤ n then
        completeFrom (b.take n) outside fuel (off + c.bytes.length) else some .incomplete := by
  have hchunk := length_chunk c
  have htotal := congrArg List.length hdrop
  rw [length_drop, length_append, hchunk] at htotal
  have hpos := length_pos_of_ne_nil c.data_ne_nil
  have htake : (b.take n).length = min n b.length := length_take
  have hrest : (b.take n).drop off =
      (c.line ++ (crlf ++ (c.data ++ crlf ++ rest))).take (n - off) := by
    rw [drop_take, hdrop, Chunk.bytes]
    simp
  have hindex := crlfIndex_take (crlfIndex_line c.line_crlf (c.data ++ crlf ++ rest)) (n - off)
  rw [completeFrom]
  by_cases hoff : off ≥ (b.take n).length
  · rw [if_pos hoff, if_neg (by omega)]
  rw [if_neg hoff, hrest, hindex]
  by_cases hline : c.line.length + 2 ≤ n - off
  · have hsize : chunkSize (((c.line ++ (crlf ++ (c.data ++ crlf ++ rest))).take (n - off)).take
        c.line.length) = some c.data.length := by
      rw [take_take, Nat.min_eq_left (by omega), take_left' rfl, c.line_size]
    rw [if_pos hline]
    simp only [hsize]
    rw [if_neg (by omega), Nat.mod_eq_of_lt (by omega), Nat.mod_eq_of_lt (by omega),
      Nat.mod_eq_of_lt (by omega)]
    obtain ⟨hcr, hlf⟩ := getElem?_chunk c hdrop
    by_cases hall : off + c.bytes.length ≤ n
    · have hnext : off + c.line.length + 2 + c.data.length + 2 = off + c.bytes.length := by omega
      rw [if_neg (by omega), byteAt_take hcr (by omega), byteAt_take hlf (by omega),
        if_neg (by decide), if_pos hall, hnext]
    · rw [if_pos (by omega), if_neg hall]
  · rw [if_neg hline, if_neg (by omega)]

theorem completeFrom_ending (stream : Stream) (hdrop : b.drop off = stream.ending ++ tail) (n : ℕ) :
    completeFrom (b.take n) outside (fuel + 1) off =
      some (if off + stream.ending.length ≤ n then .complete else .incomplete) := by
  have hending : stream.ending.length =
      stream.line.length + 2 + (Stream.trailerBytes stream.trailers).length := by
    simp [Stream.ending, crlf]
    omega
  have htrailers : 2 ≤ (Stream.trailerBytes stream.trailers).length := by
    simp [Stream.trailerBytes, crlf]
  have htotal := congrArg List.length hdrop
  rw [length_drop, length_append, hending] at htotal
  have htake : (b.take n).length = min n b.length := length_take
  have hrest : (b.take n).drop off =
      (stream.line ++ (crlf ++ (Stream.trailerBytes stream.trailers ++ tail))).take (n - off) := by
    rw [drop_take, hdrop, Stream.ending]
    simp
  have hindex := crlfIndex_take
    (crlfIndex_line stream.line_crlf (Stream.trailerBytes stream.trailers ++ tail)) (n - off)
  rw [completeFrom]
  by_cases hoff : off ≥ (b.take n).length
  · rw [if_pos hoff, if_neg (by omega)]
  rw [if_neg hoff, hrest, hindex]
  by_cases hline : stream.line.length + 2 ≤ n - off
  · have hsize : chunkSize (((stream.line ++ (crlf ++ (Stream.trailerBytes stream.trailers ++
        tail))).take (n - off)).take stream.line.length) = some 0 := by
      rw [take_take, Nat.min_eq_left (by omega), take_left' rfl, stream.line_size]
    have hbehind : (b.take n).drop (off + stream.line.length + 2) =
        (Stream.trailerBytes stream.trailers ++ tail).take
          (n - off - (stream.line.length + 2)) := by
      rw [Nat.add_assoc, ← drop_drop, hrest, drop_take, ← append_assoc]
      exact congrArg (List.take _) (drop_left' (by simp [crlf]))
    rw [if_pos hline]
    simp only [hsize, if_true]
    rw [hbehind, trailerLoop_take stream.trailers_crlf]
    · congr 2
      rw [eq_iff_iff]
      omega
    · rw [← hbehind, length_drop]
      omega
  · rw [if_neg hline, if_neg (by omega)]

theorem completeFrom_take (stream : Stream) (tail : List UInt8)
    (hlen : (stream.bytes ++ tail).length < 2 ^ 64) (n : ℕ) :
    completeFrom ((stream.bytes ++ tail).take n) outside (stream.chunks.length + 1) 0 =
      some (if stream.bytes.length ≤ n then .complete else .incomplete) := by
  have hloop : ∀ (chunks : List Chunk) (off : ℕ),
      (stream.bytes ++ tail).drop off = chunks.flatMap Chunk.bytes ++ (stream.ending ++ tail) →
      completeFrom ((stream.bytes ++ tail).take n) outside (chunks.length + 1) off =
        some (if off + (chunks.flatMap Chunk.bytes ++ stream.ending).length ≤ n then .complete
          else .incomplete) := by
    intro chunks
    induction chunks with
    | nil => exact fun off hdrop => completeFrom_ending stream hdrop n
    | cons c chunks ih =>
      intro off hdrop
      rw [flatMap_cons, append_assoc] at hdrop
      have hnext : (stream.bytes ++ tail).drop (off + c.bytes.length) =
          chunks.flatMap Chunk.bytes ++ (stream.ending ++ tail) := by
        rw [← drop_drop, hdrop, drop_left' rfl]
      have htotal : off + ((c :: chunks).flatMap Chunk.bytes ++ stream.ending).length =
          off + c.bytes.length + (chunks.flatMap Chunk.bytes ++ stream.ending).length := by
        rw [flatMap_cons, append_assoc, length_append, Nat.add_assoc]
      rw [length_cons, completeFrom_chunk c hlen hdrop, ih _ hnext, htotal]
      by_cases hall : off + c.bytes.length ≤ n
      · rw [if_pos hall]
      · rw [if_neg hall, if_neg (by omega)]
  have hzero := hloop stream.chunks 0 (by simp [Stream.bytes])
  rwa [Nat.zero_add] at hzero

/-! ## Decoding -/

theorem decodeSizeLoop_eq {line : List UInt8} {size : ℕ} {d : Bool} {r : ℕ × Bool}
    (h : sizeLoop line size d = some r) : decodeSizeLoop line size d = r := by
  induction line generalizing size d with
  | nil => exact Option.some.inj h
  | cons ch line ih =>
    rw [sizeLoop] at h
    rw [decodeSizeLoop]
    by_cases hsemi : ch = 59
    · rw [if_pos hsemi] at h ⊢
      exact Option.some.inj h
    rw [if_neg hsemi] at h ⊢
    by_cases hblank : ch = 32 ∨ ch = 9
    · rw [if_pos hblank] at h ⊢
      by_cases hd : d = true
      · rw [if_pos hd] at h ⊢
        exact Option.some.inj h
      · rw [if_neg hd] at h ⊢
        exact ih h
    rw [if_neg hblank] at h ⊢
    cases hv : hexValue ch with
    | none =>
      rw [hv] at h
      cases h
    | some v =>
      rw [hv] at h
      simp only at h ⊢
      by_cases hmax : size > sizeMax
      · rw [if_pos hmax] at h
        cases h
      · rw [if_neg hmax] at h ⊢
        exact ih h

theorem decodeSize_eq {line : List UInt8} {size : ℕ} (h : chunkSize line = some size) :
    decodeSize line = some size := by
  rw [chunkSize] at h
  rw [decodeSize]
  cases hloop : sizeLoop line 0 false with
  | none =>
    rw [hloop] at h
    cases h
  | some r =>
    rw [hloop] at h
    rw [decodeSizeLoop_eq hloop]
    obtain ⟨size', d⟩ := r
    cases d with
    | false => cases h
    | true => exact h

theorem decodeLoop_stream (stream : Stream) (tail : List UInt8) {cap : ℕ} (chunks : List Chunk)
    (out : List UInt8) (hcap : out.length + (chunks.flatMap Chunk.data).length < cap)
    (hfuel : chunks.length < fuel) :
    decodeLoop cap fuel (chunks.flatMap Chunk.bytes ++ (stream.ending ++ tail)) out =
      out ++ chunks.flatMap Chunk.data := by
  induction chunks generalizing fuel out with
  | nil =>
    obtain ⟨fuel, rfl⟩ := Nat.exists_eq_succ_of_ne_zero (Nat.ne_zero_of_lt hfuel)
    have hindex : crlfIndex (stream.ending ++ tail) = some stream.line.length := by
      rw [Stream.ending, append_assoc, append_assoc]
      exact crlfIndex_line stream.line_crlf _
    have hsize : decodeSize ((stream.ending ++ tail).take stream.line.length) = some 0 := by
      rw [Stream.ending, append_assoc, take_left' rfl]
      exact decodeSize_eq stream.line_size
    rw [flatMap_nil, nil_append, decodeLoop, hindex]
    simp only [hsize]
    rw [if_pos (.inl trivial), flatMap_nil, append_nil]
  | cons c chunks ih =>
    obtain ⟨fuel, rfl⟩ := Nat.exists_eq_succ_of_ne_zero (Nat.ne_zero_of_lt hfuel)
    rw [flatMap_cons, length_append] at hcap
    have hpos := length_pos_of_ne_nil c.data_ne_nil
    obtain ⟨rest, hrest⟩ : ∃ rest, rest = chunks.flatMap Chunk.bytes ++ (stream.ending ++ tail) :=
      ⟨_, rfl⟩
    have hbytes : (c :: chunks).flatMap Chunk.bytes ++ (stream.ending ++ tail) =
        c.line ++ (crlf ++ (c.data ++ (crlf ++ rest))) := by
      rw [hrest]
      simp [Chunk.bytes]
    have hsize : decodeSize
        ((c.line ++ (crlf ++ (c.data ++ (crlf ++ rest)))).take c.line.length) =
          some c.data.length := by
      rw [take_left' rfl]
      exact decodeSize_eq c.line_size
    have hbehind : (c.line ++ (crlf ++ (c.data ++ (crlf ++ rest)))).drop (c.line.length + 2) =
        c.data ++ (crlf ++ rest) := by
      rw [← append_assoc]
      exact drop_left' (by simp [crlf])
    have hmin : min c.data.length (c.data ++ (crlf ++ rest)).length = c.data.length :=
      Nat.min_eq_left (by simp)
    have hroom : ¬ out.length + c.data.length + 1 > cap := by omega
    have hzero : ¬ c.data.length = 0 := by omega
    have hrest' : ¬ (c.data.length = 0 ∨ c.data ++ (crlf ++ rest) = []) :=
      not_or.2 ⟨hzero, by simp [crlf]⟩
    rw [hbytes, decodeLoop, crlfIndex_line c.line_crlf]
    simp only [hsize, hbehind, hmin, if_neg hroom]
    rw [if_neg hrest', if_neg hzero, take_left' rfl, drop_left' rfl]
    have hnext := ih (out ++ c.data) (by rw [length_append]; omega)
      (Nat.lt_of_succ_lt_succ hfuel)
    rw [← hrest] at hnext
    rw [flatMap_cons, ← append_assoc, ← hnext]
    rfl

theorem length_chunks (chunks : List Chunk) :
    (chunks.flatMap Chunk.data).length + chunks.length ≤ (chunks.flatMap Chunk.bytes).length := by
  induction chunks with
  | nil => exact Nat.le_refl 0
  | cons c chunks ih =>
    rw [flatMap_cons, length_append, flatMap_cons, length_append,
      length_cons, length_chunk]
    omega

theorem decodeBody_stream (stream : Stream) (tail : List UInt8) {cap : ℕ}
    (hcap : stream.body.length < cap) :
    decodeBody cap (stream.bytes ++ tail) =
      if stream.body = [] then none else some stream.body := by
  have hcount := length_chunks stream.chunks
  have hloop := @decodeLoop_stream ((stream.bytes ++ tail).length + 1) stream tail cap
    stream.chunks [] (by rwa [length_nil, Nat.zero_add]) (by
      rw [Stream.bytes, length_append, length_append]
      omega)
  rw [nil_append, ← append_assoc] at hloop
  have hout : decodeLoop cap ((stream.bytes ++ tail).length + 1) (stream.bytes ++ tail) [] =
      stream.body := hloop
  rw [decodeBody, if_neg (by omega)]
  simp only [hout]

/-- The offsets at which the loop of `ush_browser_is_chunked_body_complete` reads a size. -/
inductive OnWay (b : List UInt8) (outside : ℕ → UInt8) : ℕ → Prop
  | start : OnWay b outside 0
  | chunk {off i size : ℕ} (h : OnWay b outside off) (hindex : crlfIndex (b.drop off) = some i)
      (hsize : chunkSize ((b.drop off).take i) = some size) (hzero : size ≠ 0)
      (hfit : (off + i + 2 + size + 2) % 2 ^ 64 ≤ b.length)
      (hcr : byteAt b outside ((off + i + 2 + size) % 2 ^ 64) = 13)
      (hlf : byteAt b outside ((off + i + 2 + size + 1) % 2 ^ 64) = 10) :
      OnWay b outside ((off + i + 2 + size + 2) % 2 ^ 64)

/-- No size on the way goes past the end of a word. -/
def NoWrap (b : List UInt8) (outside : ℕ → UInt8) : Prop :=
  ∀ off i size, OnWay b outside off → crlfIndex (b.drop off) = some i →
    chunkSize ((b.drop off).take i) = some size → off + i + 2 + size + 2 < 2 ^ 64

theorem exists_trailers (h : trailerLoop fuel rest = .complete) : ∃ trailers tail,
    (∀ t ∈ trailers, t ≠ [] ∧ crlfIndex t = none) ∧
      rest = Stream.trailerBytes trailers ++ tail := by
  induction fuel generalizing rest with
  | zero => cases h
  | succ fuel ih =>
    cases hindex : crlfIndex rest with
    | none =>
      rw [trailerLoop_none hindex] at h
      cases h
    | some i =>
      obtain ⟨hnone, hsplit⟩ := crlfIndex_eq_some hindex
      by_cases hi : i = 0
      · subst hi
        refine ⟨[], rest.drop 2, fun t ht => absurd ht not_mem_nil, ?_⟩
        exact hsplit
      · rw [trailerLoop_line hindex hi] at h
        obtain ⟨trailers, tail, hok, hrest⟩ := ih h
        have hlen := crlfIndex_length hindex
        refine ⟨rest.take i :: trailers, tail, forall_mem_cons.2 ⟨⟨?_, hnone⟩, hok⟩, ?_⟩
        · refine ne_nil_of_length_pos ?_
          rw [length_take]
          omega
        · calc
            rest = rest.take i ++ (crlf ++ rest.drop (i + 2)) := hsplit
            _ = rest.take i ++ (crlf ++ (Stream.trailerBytes trailers ++ tail)) := by rw [hrest]
            _ = Stream.trailerBytes (rest.take i :: trailers) ++ tail := by
              simp [Stream.trailerBytes]

theorem drop_eq_crlf (hcr : byteAt b outside n = 13) (hlf : byteAt b outside (n + 1) = 10)
    (hlen : n + 2 ≤ b.length) : b.drop n = crlf ++ b.drop (n + 2) := by
  have hbyte : ∀ k (hk : k < b.length), byteAt b outside k = b[k] := fun k hk => by
    rw [byteAt, getD_eq_getElem?_getD, List.getElem?_eq_getElem hk]
    rfl
  rw [hbyte n (by omega)] at hcr
  rw [hbyte (n + 1) (by omega)] at hlf
  rw [drop_eq_getElem_cons (by omega), drop_eq_getElem_cons (by omega), hcr, hlf]
  rfl

theorem exists_stream (hwrap : NoWrap b outside) (hway : OnWay b outside off)
    (h : completeFrom b outside fuel off = some .complete) :
    ∃ stream tail, b.drop off = Stream.bytes stream ++ tail := by
  induction fuel generalizing off with
  | zero => cases h
  | succ fuel ih =>
    rw [completeFrom] at h
    by_cases hoff : off ≥ b.length
    · rw [if_pos hoff] at h
      cases h
    rw [if_neg hoff] at h
    cases hindex : crlfIndex (b.drop off) with
    | none =>
      rw [hindex] at h
      cases h
    | some i =>
      rw [hindex] at h
      simp only at h
      cases hsize : chunkSize ((b.drop off).take i) with
      | none =>
        rw [hsize] at h
        cases h
      | some size =>
        rw [hsize] at h
        simp only at h
        obtain ⟨hnone, hsplit⟩ := crlfIndex_eq_some hindex
        by_cases hzero : size = 0
        · rw [if_pos hzero] at h
          rw [hzero] at hsize
          obtain ⟨trailers, tail, hok, hrest⟩ := exists_trailers (Option.some.inj h)
          refine ⟨⟨[], (b.drop off).take i, trailers, hnone, hsize, hok⟩, tail, ?_⟩
          calc
            b.drop off = (b.drop off).take i ++ (crlf ++ b.drop (off + i + 2)) := by
              rw [Nat.add_assoc, ← drop_drop]
              exact hsplit
            _ = (b.drop off).take i ++ (crlf ++ (Stream.trailerBytes trailers ++ tail)) := by
              rw [hrest]
            _ = _ := by simp [Stream.bytes, Stream.ending]
        rw [if_neg hzero] at h
        have hnowrap := hwrap off i size hway hindex hsize
        rw [Nat.mod_eq_of_lt (by omega), Nat.mod_eq_of_lt (by omega),
          Nat.mod_eq_of_lt (by omega)] at h
        by_cases hfit : off + i + 2 + size + 2 > b.length
        · rw [if_pos hfit] at h
          cases h
        rw [if_neg hfit] at h
        by_cases hend : byteAt b outside (off + i + 2 + size) ≠ 13 ∨
            byteAt b outside (off + i + 2 + size + 1) ≠ 10
        · rw [if_pos hend] at h
          cases h
        rw [if_neg hend] at h
        rw [not_or, not_not, not_not] at hend
        have hdata : ((b.drop (off + i + 2)).take size).length = size := by
          rw [length_take, length_drop]
          omega
        have hnext : OnWay b outside (off + i + 2 + size + 2) := by
          have hchunk := OnWay.chunk hway hindex hsize hzero
            (by rw [Nat.mod_eq_of_lt (by omega)]; omega)
            (by rw [Nat.mod_eq_of_lt (by omega)]; exact hend.1)
            (by rw [Nat.mod_eq_of_lt (by omega)]; exact hend.2)
          rwa [Nat.mod_eq_of_lt hnowrap] at hchunk
        have hcut : b.drop (off + i + 2) =
            (b.drop (off + i + 2)).take size ++ b.drop (off + i + 2 + size) := by
          have happend := (take_append_drop size (b.drop (off + i + 2))).symm
          rwa [drop_drop] at happend
        obtain ⟨stream, tail, hrest⟩ := ih hnext h
        refine ⟨{ stream with
          chunks := ⟨(b.drop off).take i, (b.drop (off + i + 2)).take size,
            ne_nil_of_length_pos (by omega), hnone, by rw [hdata, hsize]⟩ :: stream.chunks },
          tail, ?_⟩
        calc
          b.drop off = (b.drop off).take i ++ (crlf ++ b.drop (off + i + 2)) := by
            rw [Nat.add_assoc, ← drop_drop]
            exact hsplit
          _ = (b.drop off).take i ++ (crlf ++ ((b.drop (off + i + 2)).take size ++
              b.drop (off + i + 2 + size))) := by
            rw [← hcut]
          _ = (b.drop off).take i ++ (crlf ++ ((b.drop (off + i + 2)).take size ++
              (crlf ++ (Stream.bytes stream ++ tail)))) := by
            rw [drop_eq_crlf hend.1 hend.2 (by omega), hrest]
          _ = _ := by simp [Stream.bytes, Chunk.bytes, Stream.ending]

theorem noWrap_stream (stream : Stream) (tail : List UInt8)
    (hlen : (stream.bytes ++ tail).length < 2 ^ 64) : NoWrap (stream.bytes ++ tail) outside := by
  generalize hb : stream.bytes ++ tail = b at hlen
  -- at each offset on the way, what is left of the chunks begins
  have hread : ∀ (chunks : List Chunk) (off i size : ℕ),
      b.drop off = chunks.flatMap Chunk.bytes ++ (stream.ending ++ tail) →
      crlfIndex (b.drop off) = some i → chunkSize ((b.drop off).take i) = some size →
      (size = 0 ∧ off + i + 4 ≤ b.length) ∨ ∃ c chunks', chunks = c :: chunks' ∧
        off + i + 2 + size + 2 = off + c.bytes.length ∧ off + c.bytes.length ≤ b.length := by
    intro chunks off i size hdrop hindex hsize
    have htotal := congrArg List.length hdrop
    rw [length_drop, length_append, length_append] at htotal
    cases chunks with
    | nil =>
      have hline : b.drop off = stream.line ++ (crlf ++
          (Stream.trailerBytes stream.trailers ++ tail)) := by
        rw [hdrop]
        simp [Stream.ending]
      rw [hline, crlfIndex_line stream.line_crlf] at hindex
      cases hindex
      rw [hline, take_left' rfl, stream.line_size] at hsize
      cases hsize
      refine .inl ⟨rfl, ?_⟩
      simp [Stream.ending, Stream.trailerBytes, crlf] at htotal
      omega
    | cons c chunks =>
      have hline : b.drop off = c.line ++ (crlf ++ (c.data ++ crlf ++
          (chunks.flatMap Chunk.bytes ++ (stream.ending ++ tail)))) := by
        rw [hdrop]
        simp [Chunk.bytes]
      rw [hline, crlfIndex_line c.line_crlf] at hindex
      cases hindex
      rw [hline, take_left' rfl, c.line_size] at hsize
      cases hsize
      have hchunk := length_chunk c
      rw [flatMap_cons, length_append] at htotal
      exact .inr ⟨c, chunks, rfl, by omega, by omega⟩
  have hway : ∀ off, OnWay b outside off →
      ∃ chunks : List Chunk,
        b.drop off = chunks.flatMap Chunk.bytes ++ (stream.ending ++ tail) := by
    intro off h
    induction h with
    | start => exact ⟨stream.chunks, by rw [← hb]; simp [Stream.bytes]⟩
    | chunk _ hindex hsize hzero _ _ _ ih =>
      obtain ⟨chunks, hdrop⟩ := ih
      obtain ⟨hnil, -⟩ | ⟨c, chunks', rfl, hnext, hle⟩ := hread chunks _ _ _ hdrop hindex hsize
      · exact absurd hnil hzero
      · refine ⟨chunks', ?_⟩
        rw [Nat.mod_eq_of_lt (by omega), hnext, ← drop_drop, hdrop, flatMap_cons,
          append_assoc, drop_left' rfl]
  intro off i size h hindex hsize
  obtain ⟨chunks, hdrop⟩ := hway off h
  obtain ⟨rfl, hle⟩ | ⟨c, chunks', -, hnext, hle⟩ := hread chunks off i size hdrop hindex hsize
  · omega
  · omega

theorem completeFrom_add {v : Verdict} (h : completeFrom b outside fuel off = some v) (k : ℕ) :
    completeFrom b outside (fuel + k) off = some v := by
  induction fuel generalizing off with
  | zero => cases h
  | succ fuel ih =>
    rw [Nat.succ_add, completeFrom]
    rw [completeFrom] at h
    split at h
    · rwa [if_pos ‹_›]
    · rw [if_neg ‹_›]
      split at h
      · exact h
      · split at h
        · exact h
        · simp only at h ⊢
          split at h
          · rwa [if_pos ‹_›]
          · rw [if_neg ‹_›]
            split at h
            · rwa [if_pos ‹_›]
            · rw [if_neg ‹_›]
              split at h
              · rwa [if_pos ‹_›]
              · rw [if_neg ‹_›]
                exact ih h

theorem reports_unique {v v' : Verdict} (h : Reports b outside v) (h' : Reports b outside v') :
    v = v' := by
  obtain ⟨fuel, h⟩ := h
  obtain ⟨fuel', h'⟩ := h'
  have hsum := completeFrom_add h fuel'
  rw [Nat.add_comm, completeFrom_add h' fuel] at hsum
  exact (Option.some.inj hsum).symm

theorem reports_take (stream : Stream) (tail : List UInt8)
    (hlen : (stream.bytes ++ tail).length < 2 ^ 64) (n : ℕ) :
    Reports ((stream.bytes ++ tail).take n) outside
      (if stream.bytes.length ≤ n then .complete else .incomplete) :=
  ⟨_, completeFrom_take stream tail hlen n⟩

/-- **Chunked transfer decoding.** A prefix of a stream is reported complete when it is all of
it, and incomplete before, and the decoder then has its body, unless that is empty. Where no
size on the way goes past the end of a word, any bytes that are reported complete are still so
with more bytes behind them, and the decoder does not see those. -/
theorem chunked_transfer :
    (∀ (stream : Stream) (outside : ℕ → UInt8), stream.bytes.length < 2 ^ 64 →
      (∀ n, (Reports (stream.bytes.take n) outside .complete ↔ stream.bytes.length ≤ n) ∧
        (n < stream.bytes.length → Reports (stream.bytes.take n) outside .incomplete)) ∧
      ∀ cap, stream.body.length < cap →
        decodeBody cap stream.bytes = if stream.body = [] then none else some stream.body) ∧
    ∀ (b : List UInt8) (outside : ℕ → UInt8), Reports b outside .complete → NoWrap b outside →
      ∃ body : List UInt8,
        (∀ more outside', (b ++ more).length < 2 ^ 64 → Reports (b ++ more) outside' .complete) ∧
        ∀ more cap, (b ++ more).length < cap →
          decodeBody cap (b ++ more) = if body = [] then none else some body := by
  refine ⟨fun stream outside hlen => ⟨fun n => ?_, fun cap hcap => ?_⟩, fun b outside h hwrap => ?_⟩
  · have hreports := @reports_take outside stream [] (by rwa [append_nil]) n
    rw [append_nil] at hreports
    by_cases hn : stream.bytes.length ≤ n
    · rw [if_pos hn] at hreports
      exact ⟨⟨fun _ => hn, fun _ => hreports⟩, fun hlt => absurd hn (Nat.not_le.2 hlt)⟩
    · rw [if_neg hn] at hreports
      refine ⟨⟨fun hcomplete => ?_, fun hle => absurd hle hn⟩, fun _ => hreports⟩
      cases reports_unique hreports hcomplete
  · have hdecode := decodeBody_stream stream [] hcap
    rwa [append_nil] at hdecode
  · obtain ⟨fuel, h⟩ := h
    obtain ⟨stream, tail, hsplit⟩ := exists_stream hwrap .start h
    rw [drop_zero] at hsplit
    refine ⟨stream.body, fun more outside' hlen => ?_, fun more cap hcap => ?_⟩
    · rw [hsplit, append_assoc] at hlen ⊢
      have hreports := @reports_take outside' stream (tail ++ more) hlen
        (stream.bytes ++ (tail ++ more)).length
      rwa [take_length, if_pos (by simp)] at hreports
    · have hshort : stream.body.length ≤ stream.bytes.length := by
        have hchunks := length_chunks stream.chunks
        rw [Stream.body, Stream.bytes, length_append]
        omega
      rw [hsplit, append_assoc] at hcap ⊢
      rw [length_append] at hcap
      exact decodeBody_stream stream _ (by omega)

def letterStream : Stream where
  chunks := [⟨lit "1;x", lit "a", by decide, by decide, by decide⟩]
  line := lit "0"
  trailers := []
  line_crlf := by decide
  line_size := by decide
  trailers_crlf := fun _ h => absurd h List.not_mem_nil

theorem letterStream_read :
    (Reports (letterStream.bytes.take 15) (fun _ => 0) .complete ↔ letterStream.bytes.length ≤ 15) ∧
    decodeBody 2 letterStream.bytes = some (lit "a") ∧
    Reports (letterStream.bytes ++ lit "more") (fun _ => 1) .complete := by
  have hlen : letterStream.bytes.length < 2 ^ 64 := by decide
  have hread := chunked_transfer.1 letterStream (fun _ => 0) hlen
  have hcomplete := ((hread.1 letterStream.bytes.length).1).2 le_rfl
  rw [take_length] at hcomplete
  have hwrap := @noWrap_stream (fun _ => 0) letterStream [] (by rwa [append_nil])
  rw [append_nil] at hwrap
  obtain ⟨body, hmore, -⟩ := chunked_transfer.2 letterStream.bytes (fun _ => 0) hcomplete hwrap
  exact ⟨(hread.1 15).1, hread.2 2 (by decide), hmore (lit "more") (fun _ => 1) (by decide)⟩

/-- An empty body is reported complete and refused by the decoder. The size of the second body
goes past the end of a word: it is reported complete, and what is decoded is the rest of it,
with all that comes later. -/
theorem complete_not_decoded :
    (Reports (lit "0\r\n\r\n") (fun _ => 0) .complete ∧ decodeBody 9 (lit "0\r\n\r\n") = none) ∧
    let b := lit "FFFFFFFFFFFFFFFE\r\n0\r\n\r\n"
    Reports b (fun _ => 0) .complete ∧ decodeBody 99 b = some (lit "0\r\n\r\n") ∧
      decodeBody 99 (b ++ lit "x") = some (lit "0\r\n\r\nx") := by
  refine ⟨⟨⟨2, by decide⟩, by decide⟩, ⟨3, by decide⟩, by decide, by decide⟩

end

end Cleonos.Browser
