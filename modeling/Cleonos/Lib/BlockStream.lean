import Mathlib.Data.List.Basic
import Mathlib.Algebra.Order.Ring.Nat

/-!
# Feeding a stream to a block function

A consumer of fixed-size blocks that is fed one item at a time keeps the items of the unfinished
block in a buffer.
-/

namespace Cleonos.BlockStream

open List

universe u v
variable {α : Type u} {σ : Type v}

/-- The complete blocks of `n` items, in order; an unfinished last block is left out. -/
def blocks (n : ℕ) (xs : List α) : List (List α) :=
  (List.range (xs.length / n)).map fun i => (xs.drop (i * n)).take n

/-- Add one item to the buffer, and consume the buffer when it is a block. -/
def push (n : ℕ) (f : σ → List α → σ) (s : σ × List α) (x : α) : σ × List α :=
  if (s.2 ++ [x]).length = n then (f s.1 (s.2 ++ [x]), []) else (s.1, s.2 ++ [x])

/-- Add a list of items, one after the other. -/
def feed (n : ℕ) (f : σ → List α → σ) (s : σ × List α) (xs : List α) : σ × List α :=
  xs.foldl (push n f) s

variable {n : ℕ} {f : σ → List α → σ} {s : σ}

@[simp] theorem feed_nil (s : σ × List α) : feed n f s [] = s := rfl

@[simp] theorem feed_cons (s : σ × List α) (x : α) (xs : List α) :
    feed n f s (x :: xs) = feed n f (push n f s x) xs := rfl

theorem feed_append (s : σ × List α) (xs ys : List α) :
    feed n f s (xs ++ ys) = feed n f (feed n f s xs) ys := by
  simp only [feed, foldl_append]

theorem feed_of_lt {buf xs : List α} (h : (buf ++ xs).length < n) :
    feed n f (s, buf) xs = (s, buf ++ xs) := by
  induction xs generalizing buf with
  | nil => simp
  | cons x xs ih =>
    have hx : (buf ++ [x]).length ≠ n := by simp at h ⊢; omega
    rw [feed_cons, push, if_neg hx, ih (by simpa using h)]
    simp

variable {xs : List α}

theorem feed_of_eq {buf : List α} (hbuf : buf.length < n) (h : (buf ++ xs).length = n) :
    feed n f (s, buf) xs = (f s (buf ++ xs), []) := by
  rcases eq_nil_or_concat xs with rfl | ⟨ys, y, rfl⟩
  · simp at h
    omega
  · have hlt : (buf ++ ys).length < n := by simp at h ⊢; omega
    have hy : ((buf ++ ys) ++ [y]).length = n := by simpa [Nat.add_assoc] using h
    rw [concat_eq_append, feed_append, feed_of_lt hlt, feed_cons, push, if_pos hy]
    simp

theorem length_feed {buf xs : List α} (h : buf.length < n) :
    (feed n f (s, buf) xs).2.length = (buf.length + xs.length) % n := by
  induction xs generalizing s buf with
  | nil => simpa using (Nat.mod_eq_of_lt h).symm
  | cons x xs ih =>
    rw [feed_cons, push]
    by_cases hx : (buf ++ [x]).length = n
    · rw [if_pos hx, ih (by simpa using Nat.zero_lt_of_lt h)]
      have hlen : buf.length + (x :: xs).length = xs.length + n := by
        simp at hx ⊢
        omega
      rw [hlen, Nat.add_mod_right]
      simp
    · rw [if_neg hx, ih (by simp at hx ⊢; omega)]
      simp [Nat.add_assoc, Nat.add_comm 1]

/-! ## Feeding is folding over blocks -/

@[simp] theorem blocks_of_lt (h : xs.length < n) : blocks n xs = [] := by
  rw [blocks, Nat.div_eq_of_lt h]
  rfl

theorem blocks_append {b : List α} (hb : b.length = n) (hn : 0 < n) :
    blocks n (b ++ xs) = b :: blocks n xs := by
  have hdiv : (b ++ xs).length / n = xs.length / n + 1 := by
    rw [length_append, hb, Nat.add_comm, Nat.add_div_right _ hn]
  rw [blocks, hdiv, range_succ_eq_map, map_cons, map_map, blocks]
  refine congrArg₂ List.cons (by simp [← hb]) ?_
  apply map_congr_left
  intro i _
  have hdrop : (b ++ xs).drop ((i + 1) * n) = xs.drop (i * n) := by
    rw [Nat.succ_mul, Nat.add_comm, ← drop_drop, ← hb, drop_left]
  simp only [Function.comp, Nat.succ_eq_add_one, hdrop]

theorem feed_eq (hn : 0 < n) (xs : List α) :
    (feed n f (s, []) xs).1 = (blocks n xs).foldl f s := by
  induction hk : xs.length / n generalizing s xs with
  | zero =>
    have hlt : xs.length < n := Nat.lt_of_div_eq_zero hn hk
    rw [feed_of_lt (by simpa using hlt), blocks_of_lt hlt]
    rfl
  | succ k ih =>
    have hle : n ≤ xs.length := by
      by_contra hlt
      rw [Nat.div_eq_of_lt (by omega)] at hk
      omega
    have htake : (xs.take n).length = n := by simp [hle]
    have hrest : (xs.drop n).length / n = k := by
      have hsub := Nat.sub_mul_div xs.length n 1
      rw [Nat.mul_one] at hsub
      rw [length_drop, hsub, hk, Nat.add_sub_cancel]
    have hfirst : feed n f (s, []) (xs.take n) = (f s (xs.take n), []) :=
      feed_of_eq hn htake
    calc (feed n f (s, []) xs).1
        = (feed n f (s, []) (xs.take n ++ xs.drop n)).1 := by rw [take_append_drop]
      _ = (feed n f (f s (xs.take n), []) (xs.drop n)).1 := by rw [feed_append, hfirst]
      _ = (blocks n (xs.drop n)).foldl f (f s (xs.take n)) := ih _ hrest
      _ = (blocks n (xs.take n ++ xs.drop n)).foldl f s := by
          rw [blocks_append htake hn, foldl_cons]
      _ = (blocks n xs).foldl f s := by rw [take_append_drop]

end Cleonos.BlockStream

namespace Cleonos.Fips180

open List

abbrev Word := BitVec 32

def ch (x y z : Word) : Word := (x &&& y) ^^^ (~~~x &&& z)

def maj (x y z : Word) : Word := (x &&& y) ^^^ (x &&& z) ^^^ (y &&& z)

def bigSigma0 (x : Word) : Word := x.rotateRight 2 ^^^ x.rotateRight 13 ^^^ x.rotateRight 22

def bigSigma1 (x : Word) : Word := x.rotateRight 6 ^^^ x.rotateRight 11 ^^^ x.rotateRight 25

def smallSigma0 (x : Word) : Word := x.rotateRight 7 ^^^ x.rotateRight 18 ^^^ (x >>> 3)

def smallSigma1 (x : Word) : Word := x.rotateRight 17 ^^^ x.rotateRight 19 ^^^ (x >>> 10)

/-- The constants `K` of section 4.2.2. -/
def constants : List Word :=
  [0x428a2f98, 0x71374491, 0xb5c0fbcf, 0xe9b5dba5, 0x3956c25b, 0x59f111f1, 0x923f82a4, 0xab1c5ed5,
   0xd807aa98, 0x12835b01, 0x243185be, 0x550c7dc3, 0x72be5d74, 0x80deb1fe, 0x9bdc06a7, 0xc19bf174,
   0xe49b69c1, 0xefbe4786, 0x0fc19dc6, 0x240ca1cc, 0x2de92c6f, 0x4a7484aa, 0x5cb0a9dc, 0x76f988da,
   0x983e5152, 0xa831c66d, 0xb00327c8, 0xbf597fc7, 0xc6e00bf3, 0xd5a79147, 0x06ca6351, 0x14292967,
   0x27b70a85, 0x2e1b2138, 0x4d2c6dfc, 0x53380d13, 0x650a7354, 0x766a0abb, 0x81c2c92e, 0x92722c85,
   0xa2bfe8a1, 0xa81a664b, 0xc24b8b70, 0xc76c51a3, 0xd192e819, 0xd6990624, 0xf40e3585, 0x106aa070,
   0x19a4c116, 0x1e376c08, 0x2748774c, 0x34b0bcb5, 0x391c0cb3, 0x4ed8aa4a, 0x5b9cca4f, 0x682e6ff3,
   0x748f82ee, 0x78a5636f, 0x84c87814, 0x8cc70208, 0x90befffa, 0xa4506ceb, 0xbef9a3f7, 0xc67178f2]

/-- The eight working variables, and the eight words of a hash value. -/
structure Vars where
  a : Word
  b : Word
  c : Word
  d : Word
  e : Word
  f : Word
  g : Word
  h : Word
  deriving DecidableEq, Repr

/-- The initial hash value of section 5.3.3. -/
def initial : Vars :=
  ⟨0x6a09e667, 0xbb67ae85, 0x3c6ef372, 0xa54ff53a,
    0x510e527f, 0x9b05688c, 0x1f83d9ab, 0x5be0cd19⟩

/-- The big-endian word of four bytes. -/
def wordOfBytes (b₀ b₁ b₂ b₃ : UInt8) : Word :=
  b₀.toBitVec ++ b₁.toBitVec ++ b₂.toBitVec ++ b₃.toBitVec

/-- The four bytes of a word, big-endian. -/
def bytesOfWord (w : Word) : List UInt8 :=
  [⟨w.extractLsb' 24 8⟩, ⟨w.extractLsb' 16 8⟩, ⟨w.extractLsb' 8 8⟩, ⟨w.extractLsb' 0 8⟩]

/-- The `t`-th word of a block. -/
def messageWord (block : List UInt8) (t : ℕ) : Word :=
  wordOfBytes (block.getD (4 * t) 0) (block.getD (4 * t + 1) 0) (block.getD (4 * t + 2) 0)
    (block.getD (4 * t + 3) 0)

/-- The message schedule `W`. -/
def schedule (m : ℕ → Word) (t : ℕ) : Word :=
  if t < 16 then m t
  else
    smallSigma1 (schedule m (t - 2)) + schedule m (t - 7) + smallSigma0 (schedule m (t - 15)) +
      schedule m (t - 16)

theorem schedule_of_lt (m : ℕ → Word) {t : ℕ} (h : t < 16) : schedule m t = m t := by
  rw [schedule, if_pos h]

theorem schedule_of_ge (m : ℕ → Word) {t : ℕ} (h : 16 ≤ t) :
    schedule m t = smallSigma1 (schedule m (t - 2)) + schedule m (t - 7) +
      smallSigma0 (schedule m (t - 15)) + schedule m (t - 16) := by
  rw [schedule, if_neg (by omega)]

theorem schedule_congr {m m' : ℕ → Word} (h : ∀ t < 16, m t = m' t) (t : ℕ) :
    schedule m t = schedule m' t := by
  induction t using Nat.strongRecOn with
  | ind t ih =>
    by_cases ht : t < 16
    · rw [schedule_of_lt m ht, schedule_of_lt m' ht, h t ht]
    · rw [schedule_of_ge m (by omega), schedule_of_ge m' (by omega), ih (t - 2) (by omega),
        ih (t - 7) (by omega), ih (t - 15) (by omega), ih (t - 16) (by omega)]

/-- One round over the working variables. -/
def round (w : ℕ → Word) (v : Vars) (t : ℕ) : Vars :=
  let t₁ := v.h + bigSigma1 v.e + ch v.e v.f v.g + constants.getD t 0 + w t
  let t₂ := bigSigma0 v.a + maj v.a v.b v.c
  ⟨t₁ + t₂, v.a, v.b, v.c, v.d + t₁, v.e, v.f, v.g⟩

/-- The compression of one block into a hash value. -/
def compress (H : Vars) (block : List UInt8) : Vars :=
  let v := (List.range 64).foldl (round (schedule (messageWord block))) H
  ⟨v.a + H.a, v.b + H.b, v.c + H.c, v.d + H.d, v.e + H.e, v.f + H.f, v.g + H.g, v.h + H.h⟩

/-- A length in bits as a 64-bit big-endian field. -/
def lengthField (bits : ℕ) : List UInt8 :=
  (List.range 8).map fun i => UInt8.ofNat (bits / 256 ^ (7 - i))

/-- The zero bytes between the marker and the length field: the least number that
makes the padded length a multiple of 64. -/
def zeroCount (length : ℕ) : ℕ := (119 - length % 64) % 64

/-- What is appended to a message of this length. -/
def padding (length : ℕ) : List UInt8 :=
  0x80 :: (List.replicate (zeroCount length) 0 ++ lengthField (8 * length))

def pad (m : List UInt8) : List UInt8 := m ++ padding m.length

/-- The bytes of a hash value. -/
def Vars.bytes (v : Vars) : List UInt8 :=
  bytesOfWord v.a ++ bytesOfWord v.b ++ bytesOfWord v.c ++ bytesOfWord v.d ++
    bytesOfWord v.e ++ bytesOfWord v.f ++ bytesOfWord v.g ++ bytesOfWord v.h

/-- SHA-256.  The standard defines it for messages below `2 ^ 64` bits; beyond, the
length field holds the length modulo `2 ^ 64`. -/
def sha256 (m : List UInt8) : List UInt8 :=
  ((BlockStream.blocks 64 (pad m)).foldl compress initial).bytes

@[simp] theorem length_lengthField (bits : ℕ) : (lengthField bits).length = 8 := by
  simp [lengthField]

end Cleonos.Fips180

namespace Cleonos.Arrival

open List

variable {α : Type*} {n : ℕ} {pieces : List (List α)} {items : List α}

/-- What a read of at most `n` items delivers, and what arrives afterwards. -/
def read (n : ℕ) : List (List α) → List α × List (List α)
  | [] => ([], [])
  | p :: ps => (p.take n, if p.length ≤ n then ps else p.drop n :: ps)

/-- The pieces make up what was sent, and none of them is empty. -/
structure Sent (items : List α) (pieces : List (List α)) : Prop where
  whole : pieces.flatten = items
  nonempty : ∀ p ∈ pieces, p ≠ []

theorem length_read_le (n : ℕ) (pieces : List (List α)) : (read n pieces).1.length ≤ n := by
  cases pieces with
  | nil => exact Nat.zero_le n
  | cons p ps => exact length_take_le n p

theorem read_append_rest (n : ℕ) (pieces : List (List α)) :
    (read n pieces).1 ++ (read n pieces).2.flatten = pieces.flatten := by
  cases pieces with
  | nil => rfl
  | cons p ps =>
    rw [read, flatten_cons]
    dsimp only
    split
    case isTrue hle => rw [take_of_length_le hle]
    case isFalse hle => rw [flatten_cons, ← append_assoc, take_append_drop]

section

variable (h : Sent items pieces)
include h

theorem read_eq_nil_iff (hn : 0 < n) :
    (read n pieces).1 = [] ↔ items = [] := by
  cases pieces with
  | nil =>
    have hnil : items = [] := h.whole.symm
    exact iff_of_true rfl hnil
  | cons p ps =>
    have hp : p ≠ [] := h.nonempty p mem_cons_self
    constructor
    · intro hnil
      rcases take_eq_nil_iff.1 hnil with rfl | hempty
      · exact absurd hn (Nat.lt_irrefl 0)
      · exact absurd hempty hp
    · intro hitems
      have hflat := h.whole
      rw [hitems, flatten_cons, append_eq_nil_iff] at hflat
      exact absurd hflat.1 hp

theorem Sent.rest (n : ℕ) :
    Sent (items.drop (read n pieces).1.length) (read n pieces).2 := by
  constructor
  · rw [← h.whole, ← read_append_rest n pieces, drop_left]
  · intro q hq
    cases pieces with
    | nil => cases hq
    | cons p ps =>
      rw [read] at hq
      dsimp only at hq
      split at hq
      case isTrue => exact h.nonempty q (mem_cons_of_mem p hq)
      case isFalse hlt =>
        rcases mem_cons.1 hq with rfl | hmem
        · intro hnil
          rw [drop_eq_nil_iff] at hnil
          exact hlt hnil
        · exact h.nonempty q (mem_cons_of_mem p hmem)

theorem Sent.read_append_drop (n : ℕ) :
    (read n pieces).1 ++ items.drop (read n pieces).1.length = items := by
  rw [← h.whole, ← read_append_rest n pieces, drop_left]

theorem Sent.length_read_le (n : ℕ) :
    (read n pieces).1.length ≤ items.length := by
  rw [← h.whole, ← read_append_rest n pieces, length_append]
  exact Nat.le_add_right _ _

end

end Cleonos.Arrival
