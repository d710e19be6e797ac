import Cleonos.Lib.BlockStream
import Cleonos.Lib.Buffer

/-!
# The two SHA-256 implementations

`install2disk_main.c` hashes files in pieces as it reads them, `cleonos_user.c` hashes a password
in one update.
-/

namespace Cleonos.Sha256

open List Option
open Function (update update_of_ne update_self)

section

open Fips180 (Word Vars)

/-- `install_sha256_ctx` and `cleonos_user_sha256_ctx`; `datalen` counts the bytes in
`data`, `bitlen` the bits of the blocks already compressed. -/
structure Sha256Ctx where
  data : ℕ → UInt8
  datalen : ℕ
  bitlen : UInt64
  state : Vars

/-- `install_sha256_rotr`, `cu_rotr`. -/
def rotr (value : Word) (count : ℕ) : Word := (value >>> count) ||| (value <<< (32 - count))

/-- An unsigned char widened to an unsigned int. -/
def widen (b : UInt8) : Word := b.toBitVec.setWidth 32

/-- `install_sha256_load_be32`, `cu_load_be32`, at `data + i`. -/
def loadBe32 (data : ℕ → UInt8) (i : ℕ) : Word :=
  (widen (data i) <<< 24) ||| (widen (data (i + 1)) <<< 16) ||| (widen (data (i + 2)) <<< 8) |||
    widen (data (i + 3))

/-- An unsigned int narrowed to an unsigned char. -/
def narrow (w : Word) : UInt8 := ⟨w.setWidth 8⟩

/-- `install_sha256_store_be32`, `cu_store_be32`. -/
def storeBe32 (value : Word) : List UInt8 :=
  [narrow ((value >>> 24) &&& 0xFF), narrow ((value >>> 16) &&& 0xFF),
    narrow ((value >>> 8) &&& 0xFF), narrow (value &&& 0xFF)]

/-! ## The compression function -/

/-- The first loop of `transform`: the words `m[0]` to `m[15]`. -/
def loadBlock (data : ℕ → UInt8) : List Word :=
  (List.range 16).map fun i => loadBe32 data (i * 4)

/-- The body of the second loop of `transform`, which computes `m[i]`. -/
def extend (m : List Word) (i : ℕ) : List Word :=
  let s0 := rotr (m.getD (i - 15) 0) 7 ^^^ rotr (m.getD (i - 15) 0) 18 ^^^
    (m.getD (i - 15) 0 >>> 3)
  let s1 := rotr (m.getD (i - 2) 0) 17 ^^^ rotr (m.getD (i - 2) 0) 19 ^^^
    (m.getD (i - 2) 0 >>> 10)
  m ++ [m.getD (i - 16) 0 + s0 + m.getD (i - 7) 0 + s1]

/-- The second loop of `transform`. -/
def expand (m : List Word) : List Word := (List.range' 16 48).foldl extend m

/-- The body of the third loop of `transform`. -/
def mix (k m : List Word) (v : Vars) (i : ℕ) : Vars :=
  let s1 := rotr v.e 6 ^^^ rotr v.e 11 ^^^ rotr v.e 25
  let ch := (v.e &&& v.f) ^^^ (~~~v.e &&& v.g)
  let temp1 := v.h + s1 + ch + k.getD i 0 + m.getD i 0
  let s0 := rotr v.a 2 ^^^ rotr v.a 13 ^^^ rotr v.a 22
  let maj := (v.a &&& v.b) ^^^ (v.a &&& v.c) ^^^ (v.b &&& v.c)
  let temp2 := s0 + maj
  ⟨temp1 + temp2, v.a, v.b, v.c, v.d + temp1, v.e, v.f, v.g⟩

/-- The text of `install_sha256_transform` and `cu_sha256_transform`. -/
def sha256Transform (k : List Word) (state : Vars) (data : ℕ → UInt8) : Vars :=
  let v := (List.range 64).foldl (mix k (expand (loadBlock data))) state
  ⟨state.a + v.a, state.b + v.b, state.c + v.c, state.d + v.d,
    state.e + v.e, state.f + v.f, state.g + v.g, state.h + v.h⟩

/-- The table `k` of `install_sha256_transform`. -/
def installSha256K : List Word :=
  [0x428A2F98, 0x71374491, 0xB5C0FBCF, 0xE9B5DBA5, 0x3956C25B, 0x59F111F1, 0x923F82A4, 0xAB1C5ED5,
   0xD807AA98, 0x12835B01, 0x243185BE, 0x550C7DC3, 0x72BE5D74, 0x80DEB1FE, 0x9BDC06A7, 0xC19BF174,
   0xE49B69C1, 0xEFBE4786, 0x0FC19DC6, 0x240CA1CC, 0x2DE92C6F, 0x4A7484AA, 0x5CB0A9DC, 0x76F988DA,
   0x983E5152, 0xA831C66D, 0xB00327C8, 0xBF597FC7, 0xC6E00BF3, 0xD5A79147, 0x06CA6351, 0x14292967,
   0x27B70A85, 0x2E1B2138, 0x4D2C6DFC, 0x53380D13, 0x650A7354, 0x766A0ABB, 0x81C2C92E, 0x92722C85,
   0xA2BFE8A1, 0xA81A664B, 0xC24B8B70, 0xC76C51A3, 0xD192E819, 0xD6990624, 0xF40E3585, 0x106AA070,
   0x19A4C116, 0x1E376C08, 0x2748774C, 0x34B0BCB5, 0x391C0CB3, 0x4ED8AA4A, 0x5B9CCA4F, 0x682E6FF3,
   0x748F82EE, 0x78A5636F, 0x84C87814, 0x8CC70208, 0x90BEFFFA, 0xA4506CEB, 0xBEF9A3F7, 0xC67178F2]

/-- The table `k` of `cu_sha256_transform`. -/
def cuSha256K : List Word :=
  [0x428A2F98, 0x71374491, 0xB5C0FBCF, 0xE9B5DBA5, 0x3956C25B, 0x59F111F1, 0x923F82A4,
   0xAB1C5ED5, 0xD807AA98, 0x12835B01, 0x243185BE, 0x550C7DC3, 0x72BE5D74, 0x80DEB1FE,
   0x9BDC06A7, 0xC19BF174, 0xE49B69C1, 0xEFBE4786, 0x0FC19DC6, 0x240CA1CC, 0x2DE92C6F,
   0x4A7484AA, 0x5CB0A9DC, 0x76F988DA, 0x983E5152, 0xA831C66D, 0xB00327C8, 0xBF597FC7,
   0xC6E00BF3, 0xD5A79147, 0x06CA6351, 0x14292967, 0x27B70A85, 0x2E1B2138, 0x4D2C6DFC,
   0x53380D13, 0x650A7354, 0x766A0ABB, 0x81C2C92E, 0x92722C85, 0xA2BFE8A1, 0xA81A664B,
   0xC24B8B70, 0xC76C51A3, 0xD192E819, 0xD6990624, 0xF40E3585, 0x106AA070, 0x19A4C116,
   0x1E376C08, 0x2748774C, 0x34B0BCB5, 0x391C0CB3, 0x4ED8AA4A, 0x5B9CCA4F, 0x682E6FF3,
   0x748F82EE, 0x78A5636F, 0x84C87814, 0x8CC70208, 0x90BEFFFA, 0xA4506CEB, 0xBEF9A3F7,
   0xC67178F2]

def installSha256Transform : Vars → (ℕ → UInt8) → Vars := sha256Transform installSha256K
def cuSha256Transform : Vars → (ℕ → UInt8) → Vars := sha256Transform cuSha256K

/-- `install_sha256_init`, `cu_sha256_init`; `data` is left as it was. -/
def sha256Init (data : ℕ → UInt8) : Sha256Ctx :=
  ⟨data, 0, 0, ⟨0x6A09E667, 0xBB67AE85, 0x3C6EF372, 0xA54FF53A,
    0x510E527F, 0x9B05688C, 0x1F83D9AB, 0x5BE0CD19⟩⟩

/-- Compress the buffer and empty it, as both `update` functions do when it is full. -/
def Sha256Ctx.flush (ctx : Sha256Ctx) (transform : Vars → (ℕ → UInt8) → Vars) : Sha256Ctx :=
  { ctx with state := transform ctx.state ctx.data, bitlen := ctx.bitlen + 512, datalen := 0 }

/-- `while (i < limit) data[i++] = 0`, and `memset` for `i = 0`. -/
def zeroFill (data : ℕ → UInt8) (i limit : ℕ) : ℕ → UInt8 :=
  fun j => if i ≤ j ∧ j < limit then 0 else data j

/-- The eight words of a state, stored one after the other. -/
def storeState (state : Vars) : List UInt8 :=
  storeBe32 state.a ++ storeBe32 state.b ++ storeBe32 state.c ++ storeBe32 state.d ++
    storeBe32 state.e ++ storeBe32 state.f ++ storeBe32 state.g ++ storeBe32 state.h

/-- The loop body of `install_sha256_update`. -/
def installSha256Push (ctx : Sha256Ctx) (byte : UInt8) : Sha256Ctx :=
  let ctx := if ctx.datalen ≥ 64 then ctx.flush installSha256Transform else ctx
  let ctx := { ctx with
    data := update ctx.data ctx.datalen byte, datalen := ctx.datalen + 1 }
  if ctx.datalen = 64 then ctx.flush installSha256Transform else ctx

def installSha256Update (ctx : Sha256Ctx) (data : List UInt8) : Sha256Ctx :=
  data.foldl installSha256Push ctx

/-- The eight stores of `install_sha256_final`. -/
def installStoreLength (data : ℕ → UInt8) (bitlen : UInt64) : ℕ → UInt8 :=
  let data := update data 56 ((bitlen >>> (56 : UInt64)) &&& 0xFF).toUInt8
  let data := update data 57 ((bitlen >>> (48 : UInt64)) &&& 0xFF).toUInt8
  let data := update data 58 ((bitlen >>> (40 : UInt64)) &&& 0xFF).toUInt8
  let data := update data 59 ((bitlen >>> (32 : UInt64)) &&& 0xFF).toUInt8
  let data := update data 60 ((bitlen >>> (24 : UInt64)) &&& 0xFF).toUInt8
  let data := update data 61 ((bitlen >>> (16 : UInt64)) &&& 0xFF).toUInt8
  let data := update data 62 ((bitlen >>> (8 : UInt64)) &&& 0xFF).toUInt8
  let data := update data 63 (bitlen &&& 0xFF).toUInt8
  data

def installSha256Final (ctx : Sha256Ctx) : List UInt8 :=
  let ctx := if ctx.datalen > 64 then { ctx with datalen := 0 } else ctx
  let i := ctx.datalen
  let data := update ctx.data i 0x80
  let ctx :=
    if ctx.datalen < 56 then { ctx with data := zeroFill data (i + 1) 56 }
    else
      let data := zeroFill data (i + 1) 64
      { ctx with state := installSha256Transform ctx.state data, data := zeroFill data 0 56 }
  let bitlen := ctx.bitlen + UInt64.ofNat ctx.datalen * 8
  storeState (installSha256Transform ctx.state (installStoreLength ctx.data bitlen))

/-- The loop body of `cu_sha256_update`. -/
def cuSha256Push (ctx : Sha256Ctx) (byte : UInt8) : Sha256Ctx :=
  let ctx := { ctx with
    data := update ctx.data ctx.datalen byte, datalen := ctx.datalen + 1 }
  if ctx.datalen = 64 then ctx.flush cuSha256Transform else ctx

def cuSha256Update (ctx : Sha256Ctx) (data : List UInt8) : Sha256Ctx :=
  data.foldl cuSha256Push ctx

/-- The eight stores of `cu_sha256_final`. -/
def cuStoreLength (data : ℕ → UInt8) (bitlen : UInt64) : ℕ → UInt8 :=
  let data := update data 63 bitlen.toUInt8
  let data := update data 62 (bitlen >>> (8 : UInt64)).toUInt8
  let data := update data 61 (bitlen >>> (16 : UInt64)).toUInt8
  let data := update data 60 (bitlen >>> (24 : UInt64)).toUInt8
  let data := update data 59 (bitlen >>> (32 : UInt64)).toUInt8
  let data := update data 58 (bitlen >>> (40 : UInt64)).toUInt8
  let data := update data 57 (bitlen >>> (48 : UInt64)).toUInt8
  let data := update data 56 (bitlen >>> (56 : UInt64)).toUInt8
  data

def cuSha256Final (ctx : Sha256Ctx) : List UInt8 :=
  let i := ctx.datalen
  let data := update ctx.data i 0x80
  let ctx :=
    if ctx.datalen < 56 then { ctx with data := zeroFill data (i + 1) 56 }
    else
      let data := zeroFill data (i + 1) 64
      { ctx with state := cuSha256Transform ctx.state data, data := zeroFill data 0 56 }
  let ctx := { ctx with bitlen := ctx.bitlen + UInt64.ofNat ctx.datalen * 8 }
  storeState (cuSha256Transform ctx.state (cuStoreLength ctx.data ctx.bitlen))

/-- `install_hex_digit`, `cu_hex_digit`. -/
def hexDigit (value : UInt8) : UInt8 :=
  let value := value &&& 0xF
  if value < 10 then 48 + value else 97 + (value - 10)

/-- The sixty-four digits written to `out_hex`. -/
def hexDigits (hash : List UInt8) : List UInt8 :=
  hash.flatMap fun b => [hexDigit (b >>> (4 : UInt8)), hexDigit b]

theorem exists_hexDigit (v : UInt8) :
    ∃ i : Fin 16, hexDigit v =
      if UInt8.ofNat i < 10 then 48 + UInt8.ofNat i else 97 + (UInt8.ofNat i - 10) := by
  have hv : v &&& 0xF = UInt8.ofNat (v.toNat % 16) := by
    refine UInt8.toNat_inj.1 ?_
    rw [UInt8.toNat_and, UInt8.toNat_ofNat']
    exact (Nat.and_two_pow_sub_one_eq_mod v.toNat 4).trans (by omega)
  refine ⟨⟨v.toNat % 16, Nat.mod_lt _ (by omega)⟩, ?_⟩
  rw [hexDigit, hv]

@[simp] theorem length_hexDigits (hash : List UInt8) :
    (hexDigits hash).length = 2 * hash.length := by
  simp [hexDigits, length_flatMap, Nat.mul_comm]

theorem exists_of_mem_hexDigits {hash : List UInt8} {c : UInt8} (h : c ∈ hexDigits hash) :
    ∃ v, c = hexDigit v := by
  obtain ⟨b, -, hc⟩ := mem_flatMap.1 h
  rcases mem_cons.1 hc with rfl | hc
  · exact ⟨_, rfl⟩
  · exact ⟨_, mem_singleton.1 hc⟩

/-- What one `cleonos_sys_fd_read` answers: `none` for `-1`, an empty list at the end
of the file. -/
abbrev FdRead := Option (List UInt8)

/-- The read loop of `install_sha256_file_hex`; it also ends when the answers do. -/
def hashReads (ctx : Sha256Ctx) : List FdRead → Option Sha256Ctx
  | [] => some ctx
  | none :: _ => none
  | some [] :: _ => some ctx
  | some (b :: bs) :: reads => hashReads (installSha256Update ctx (b :: bs)) reads

/-- `install_sha256_file_hex`, for a file that opens or not. -/
def installSha256FileHex (data : ℕ → UInt8) (opens : Bool) (reads : List FdRead) :
    Option (List UInt8) :=
  if opens = false then none
  else (hashReads (sha256Init data) reads).map fun ctx => hexDigits (installSha256Final ctx)

/-- `cleonos_user_hash_password`; `none` is the null pointer, and the bytes of a string
end at its first zero byte. -/
def cleonosUserHashPassword (data : ℕ → UInt8) (password : Option (List UInt8)) : List UInt8 :=
  let ctx := sha256Init data
  let ctx :=
    match password with
    | none => ctx
    | some text => cuSha256Update ctx (text.takeWhile (· ≠ 0))
  hexDigits (cuSha256Final ctx)

end

open Fips180 Buffer

theorem rotr_eq (value : Word) {count : ℕ} (h : count < 32) :
    rotr value count = value.rotateRight count := by
  rw [rotr, BitVec.rotateRight, Nat.mod_eq_of_lt h, BitVec.rotateRightAux]

theorem loadBe32_eq (data : ℕ → UInt8) (i : ℕ) :
    loadBe32 data i = wordOfBytes (data i) (data (i + 1)) (data (i + 2)) (data (i + 3)) := by
  apply BitVec.eq_of_getLsbD_eq
  intro j hj
  simp only [loadBe32, wordOfBytes, widen, BitVec.getLsbD_or, BitVec.getLsbD_shiftLeft,
    BitVec.getLsbD_setWidth, BitVec.getLsbD_append]
  -- the byte that bit `j` belongs to
  by_cases h8 : j < 8
  · simp [h8, show j < 16 by omega, show j < 24 by omega, hj]
  by_cases h16 : j < 16
  · have hhi : (data (i + 3)).toBitVec.getLsbD j = false := BitVec.getLsbD_of_ge _ _ (by omega)
    simp [h8, h16, show j < 24 by omega, show j - 8 < 8 by omega, hj, hhi]
    intro; omega
  by_cases h24 : j < 24
  · have hhi : (data (i + 3)).toBitVec.getLsbD j = false := BitVec.getLsbD_of_ge _ _ (by omega)
    have hhi' : (data (i + 2)).toBitVec.getLsbD (j - 8) = false :=
      BitVec.getLsbD_of_ge _ _ (by omega)
    simp [h8, h16, h24, show ¬ j - 8 < 8 by omega, show j - 16 < 8 by omega, hj, hhi, hhi', Nat.sub_sub]
    intro; omega
  · have hhi : (data (i + 3)).toBitVec.getLsbD j = false := BitVec.getLsbD_of_ge _ _ (by omega)
    have hhi' : (data (i + 2)).toBitVec.getLsbD (j - 8) = false :=
      BitVec.getLsbD_of_ge _ _ (by omega)
    have hhi'' : (data (i + 1)).toBitVec.getLsbD (j - 16) = false :=
      BitVec.getLsbD_of_ge _ _ (by omega)
    simp [h8, h16, h24, show ¬ j - 8 < 8 by omega, show ¬ j - 16 < 8 by omega, hj, hhi, hhi', hhi'', Nat.sub_sub]
    intro; omega

theorem narrow_shift (value : Word) (n : ℕ) :
    narrow ((value >>> n) &&& 0xFF) = ⟨value.extractLsb' n 8⟩ := by
  refine congrArg UInt8.ofBitVec (BitVec.eq_of_getLsbD_eq fun j hj => ?_)
  have hmask : ∀ i : Fin 8, (0xFF : Word).getLsbD i = true := by decide
  simp only [BitVec.getLsbD_setWidth, BitVec.getLsbD_and, BitVec.getLsbD_ushiftRight,
    BitVec.getLsbD_extractLsb', hj, hmask ⟨j, hj⟩, Bool.and_true]

theorem storeBe32_eq (value : Word) : storeBe32 value = bytesOfWord value := by
  have h0 : narrow (value &&& 0xFF) = ⟨value.extractLsb' 0 8⟩ := by
    simpa using narrow_shift value 0
  rw [storeBe32, bytesOfWord, narrow_shift, narrow_shift, narrow_shift, h0]

theorem storeState_eq (v : Vars) : storeState v = v.bytes := by
  simp only [storeState, Vars.bytes, storeBe32_eq]

theorem foldl_extend (m : ℕ → Word) (n : ℕ) :
    (List.range' 16 n).foldl extend ((List.range 16).map m) =
      (List.range (16 + n)).map (schedule m) := by
  induction n with
  | zero =>
    simp only [range'_zero, foldl_nil]
    exact map_congr_left fun t ht => (schedule_of_lt m (mem_range.1 ht)).symm
  | succ n ih =>
    have hget : ∀ i < 16 + n, ((List.range (16 + n)).map (schedule m)).getD i 0 = schedule m i := by
      intro i hi
      simp [List.getD, hi]
    rw [range'_concat, foldl_append, ih, ← Nat.add_assoc, range_succ,
      map_append, Nat.one_mul, foldl_cons, foldl_nil, extend]
    refine congrArg _ (congrArg (fun w => [w]) ?_)
    rw [hget _ (by omega), hget _ (by omega), hget _ (by omega), hget _ (by omega)]
    rw [schedule_of_ge m (Nat.le_add_right 16 n), rotr_eq _ (by decide), rotr_eq _ (by decide),
      rotr_eq _ (by decide), rotr_eq _ (by decide)]
    simp only [smallSigma0, smallSigma1]
    ac_rfl

theorem messageWord_slice (data : ℕ → UInt8) {t : ℕ} (h : t < 16) :
    messageWord (slice data 0 64) t = loadBe32 data (t * 4) := by
  have hget : ∀ j < 64, (slice data 0 64).getD j 0 = data j := by
    intro j hj
    simp [slice, List.getD, hj]
  rw [messageWord, loadBe32_eq, hget _ (by omega), hget _ (by omega), hget _ (by omega),
    hget _ (by omega), Nat.mul_comm]

theorem mix_eq {m : List Word} {w : ℕ → Word} {i : ℕ} (h : m.getD i 0 = w i) (v : Vars) :
    mix constants m v i = round w v i := by
  simp only [mix, Fips180.round, bigSigma0, bigSigma1, ch, maj, h, rotr_eq v.a (show 2 < 32 by decide),
    rotr_eq v.a (show 13 < 32 by decide), rotr_eq v.a (show 22 < 32 by decide),
    rotr_eq v.e (show 6 < 32 by decide), rotr_eq v.e (show 11 < 32 by decide),
    rotr_eq v.e (show 25 < 32 by decide)]

theorem transform_eq (state : Vars) (data : ℕ → UInt8) :
    sha256Transform constants state data = compress state (slice data 0 64) := by
  have hm : expand (loadBlock data) =
      (List.range 64).map (schedule (messageWord (slice data 0 64))) := by
    rw [expand, loadBlock, foldl_extend]
    exact map_congr_left fun t _ =>
      schedule_congr (fun t ht => (messageWord_slice data ht).symm) t
  have hfold : (List.range 64).foldl (mix constants (expand (loadBlock data))) state =
      (List.range 64).foldl (round (schedule (messageWord (slice data 0 64)))) state := by
    refine foldl_ext _ _ _ fun v i hi => mix_eq ?_ v
    rw [hm]
    simp [List.getD, mem_range.1 hi]
  rw [sha256Transform, hfold, compress]
  simp only [BitVec.add_comm state.a, BitVec.add_comm state.b, BitVec.add_comm state.c,
    BitVec.add_comm state.d, BitVec.add_comm state.e, BitVec.add_comm state.f,
    BitVec.add_comm state.g, BitVec.add_comm state.h]

theorem installSha256Transform_eq (state : Vars) (data : ℕ → UInt8) :
    installSha256Transform state data = compress state (slice data 0 64) :=
  transform_eq state data

theorem cuSha256Transform_eq (state : Vars) (data : ℕ → UInt8) :
    cuSha256Transform state data = compress state (slice data 0 64) :=
  transform_eq state data

/-- The context after the bytes of `m`: the complete blocks are compressed, the rest
is in the buffer, and the bit count is that of the blocks. -/
structure Represents (ctx : Sha256Ctx) (m : List UInt8) : Prop where
  datalen_lt : ctx.datalen < 64
  stream : BlockStream.feed 64 compress (initial, []) m =
    (ctx.state, slice ctx.data 0 ctx.datalen)
  bitlen : (ctx.bitlen.toNat + 8 * ctx.datalen) % 2 ^ 64 = 8 * m.length % 2 ^ 64

theorem represents_init (data : ℕ → UInt8) : Represents (sha256Init data) [] :=
  ⟨Nat.zero_lt_succ 63, rfl, rfl⟩

theorem Represents.datalen_eq {ctx : Sha256Ctx} {m : List UInt8} (h : Represents ctx m) :
    m.length % 64 = ctx.datalen := by
  have hlen : (BlockStream.feed 64 compress (initial, []) m).2.length =
      (([] : List UInt8).length + m.length) % 64 := BlockStream.length_feed (by decide)
  rw [h.stream] at hlen
  simpa using hlen.symm

theorem Represents.cuPush {ctx : Sha256Ctx} {m : List UInt8} (h : Represents ctx m) (b : UInt8) :
    Represents (cuSha256Push ctx b) (m ++ [b]) := by
  have hstream := slice_update_succ ctx.data ctx.datalen b
  have hlt := h.datalen_lt
  have hbits := h.bitlen
  have hfeed : BlockStream.feed 64 compress (initial, []) (m ++ [b]) =
      BlockStream.push 64 compress (ctx.state, slice ctx.data 0 ctx.datalen) b := by
    rw [BlockStream.feed_append, h.stream]
    rfl
  by_cases hfull : ctx.datalen + 1 = 64
  · have hctx : cuSha256Push ctx b =
        Sha256Ctx.flush ⟨update ctx.data ctx.datalen b, ctx.datalen + 1, ctx.bitlen,
          ctx.state⟩ cuSha256Transform := by
      simp only [cuSha256Push, if_pos hfull]
    rw [hctx]
    refine ⟨by simp [Sha256Ctx.flush], ?_, ?_⟩
    · rw [hfeed, BlockStream.push, if_pos (by simpa using hfull), ← hstream, hfull]
      simp only [Sha256Ctx.flush, cuSha256Transform_eq]
      rfl
    · simp only [Sha256Ctx.flush, UInt64.toNat_add, length_append, length_singleton]
      simp
      omega
  · have hctx : cuSha256Push ctx b =
        ⟨update ctx.data ctx.datalen b, ctx.datalen + 1, ctx.bitlen, ctx.state⟩ := by
      simp only [cuSha256Push, if_neg hfull]
    rw [hctx]
    refine ⟨by simp only; omega, ?_, ?_⟩
    · rw [hfeed, BlockStream.push, if_neg (by simpa using hfull), ← hstream]
    · simp only [length_append, length_singleton]
      omega

theorem installSha256Push_eq {ctx : Sha256Ctx} (h : ctx.datalen < 64) (b : UInt8) :
    installSha256Push ctx b = cuSha256Push ctx b := by
  have hno : ¬ ctx.datalen ≥ 64 := by omega
  simp only [installSha256Push, cuSha256Push, if_neg hno]
  rfl

theorem Represents.cuUpdate {ctx : Sha256Ctx} {m : List UInt8} (h : Represents ctx m)
    (data : List UInt8) : Represents (cuSha256Update ctx data) (m ++ data) := by
  induction data generalizing ctx m with
  | nil => simpa [cuSha256Update] using h
  | cons b bs ih => simpa [cuSha256Update] using ih (h.cuPush b)

theorem Represents.installUpdate {ctx : Sha256Ctx} {m : List UInt8} (h : Represents ctx m)
    (data : List UInt8) : Represents (installSha256Update ctx data) (m ++ data) := by
  induction data generalizing ctx m with
  | nil => simpa [installSha256Update] using h
  | cons b bs ih =>
    have hpush := h.cuPush b
    rw [← installSha256Push_eq h.datalen_lt] at hpush
    simpa [installSha256Update] using ih hpush

theorem Represents.foldl {update : Sha256Ctx → List UInt8 → Sha256Ctx}
    (hupdate : ∀ {ctx m}, Represents ctx m → ∀ data, Represents (update ctx data) (m ++ data))
    {ctx : Sha256Ctx} {m : List UInt8} (h : Represents ctx m) (chunks : List (List UInt8)) :
    Represents (chunks.foldl update ctx) (m ++ chunks.flatten) := by
  induction chunks generalizing ctx m with
  | nil => simpa using h
  | cons c cs ih =>
    rw [foldl_cons, flatten_cons, ← append_assoc]
    exact ih (hupdate h c)

theorem feed_padding_short {state : Vars} {data d : ℕ → UInt8} {L len : ℕ} (hL : L < 56)
    (hlen : len % 64 = L) (hdata : ∀ j < L, d j = data j) (hmark : d L = 0x80)
    (hzero : ∀ j, L < j → j < 56 → d j = 0) (hbits : slice d 56 8 = lengthField (8 * len)) :
    BlockStream.feed 64 compress (state, slice data 0 L) (padding len) =
      (compress state (slice d 0 64), []) := by
  have hcount : L + 1 + zeroCount len = 56 := by simp only [zeroCount]; omega
  have hbuf : slice d 0 L = slice data 0 L := slice_congr fun j _ hj => hdata j (by omega)
  have hz : slice d (L + 1) (zeroCount len) = List.replicate (zeroCount len) 0 :=
    slice_eq_replicate fun j hle hlt => hzero j (by omega) (by omega)
  have hblock : slice d 0 64 = slice data 0 L ++ padding len := by
    have hsplit : 64 = L + (1 + (zeroCount len + 8)) := by omega
    rw [hsplit, slice_add, slice_add, slice_add]
    simp only [Nat.zero_add, hcount, hbuf, hz, hbits]
    simp [slice, padding, hmark]
  rw [BlockStream.feed_of_eq (by simpa using by omega) (by rw [← hblock]; simp), hblock]

theorem feed_padding_long {state : Vars} {data d₁ d₂ : ℕ → UInt8} {L len : ℕ} (hL : 56 ≤ L)
    (hL' : L < 64) (hlen : len % 64 = L) (hdata : ∀ j < L, d₁ j = data j) (hmark : d₁ L = 0x80)
    (hzero : ∀ j, L < j → j < 64 → d₁ j = 0) (hzero₂ : ∀ j < 56, d₂ j = 0)
    (hbits : slice d₂ 56 8 = lengthField (8 * len)) :
    BlockStream.feed 64 compress (state, slice data 0 L) (padding len) =
      (compress (compress state (slice d₁ 0 64)) (slice d₂ 0 64), []) := by
  have hcount : zeroCount len = (63 - L) + 56 := by simp only [zeroCount]; omega
  have hpad : padding len =
      (0x80 :: List.replicate (63 - L) 0) ++ (List.replicate 56 0 ++ lengthField (8 * len)) := by
    rw [padding, hcount, ← replicate_append_replicate]
    simp
  have hbuf : slice d₁ 0 L = slice data 0 L :=
    slice_congr fun j _ hj => hdata j (by omega)
  have hz : slice d₁ (L + 1) (63 - L) = List.replicate (63 - L) 0 :=
    slice_eq_replicate fun j hle hlt => hzero j (by omega) (by omega)
  have hz₂ : slice d₂ 0 56 = List.replicate 56 0 :=
    slice_eq_replicate fun j _ hlt => hzero₂ j (by omega)
  have hblock₁ : slice d₁ 0 64 = slice data 0 L ++ 0x80 :: List.replicate (63 - L) 0 := by
    have hsplit : 64 = L + (1 + (63 - L)) := by omega
    rw [hsplit, slice_add, slice_add]
    simp only [Nat.zero_add, hbuf, hz]
    simp [slice, hmark]
  have hblock₂ : slice d₂ 0 64 = List.replicate 56 0 ++ lengthField (8 * len) := by
    rw [show 64 = 56 + 8 from rfl, slice_add, hz₂, hbits]
  have hfirst : BlockStream.feed 64 compress (state, slice data 0 L)
      (0x80 :: List.replicate (63 - L) 0) = (compress state (slice d₁ 0 64), []) := by
    rw [BlockStream.feed_of_eq (by simpa using hL') (by rw [← hblock₁]; simp), ← hblock₁]
  rw [hpad, BlockStream.feed_append, hfirst, ← hblock₂, BlockStream.feed_of_eq (by decide) (by simp)]
  rfl

/-! ## Digests -/

theorem toUInt8_shift {bitlen : UInt64} {bits : ℕ} (h : bitlen.toNat = bits % 2 ^ 64) (k : ℕ)
    (hk : k < 8) : (bitlen >>> UInt64.ofNat (8 * k)).toUInt8 = UInt8.ofNat (bits / 256 ^ k) := by
  have hpow : (256 : ℕ) ^ k = 2 ^ (8 * k) := by rw [Nat.pow_mul]
  have hshift : (UInt64.ofNat (8 * k)).toNat % 64 = 8 * k := by
    rw [UInt64.toNat_ofNat']
    omega
  apply UInt8.toNat_inj.1
  rw [UInt64.toNat_toUInt8, UInt64.toNat_shiftRight, hshift, h, UInt8.toNat_ofNat', hpow,
    Nat.shiftRight_eq_div_pow]
  -- dropping the high bits and taking a low byte commute
  have hsplit : 2 ^ 64 = 2 ^ (8 * k) * 2 ^ (64 - 8 * k) := by rw [← Nat.pow_add]; congr 1; omega
  have hdvd : 2 ^ 8 ∣ 2 ^ (64 - 8 * k) := Nat.pow_dvd_pow 2 (by omega)
  rw [hsplit, Nat.mod_mul_right_div_self, Nat.mod_mod_of_dvd _ hdvd]

theorem lengthField_eq {bitlen : UInt64} {bits : ℕ} (h : bitlen.toNat = bits % 2 ^ 64) :
    lengthField bits = [(bitlen >>> 56).toUInt8, (bitlen >>> 48).toUInt8, (bitlen >>> 40).toUInt8,
      (bitlen >>> 32).toUInt8, (bitlen >>> 24).toUInt8, (bitlen >>> 16).toUInt8,
      (bitlen >>> 8).toUInt8, bitlen.toUInt8] := by
  have h0 : bitlen.toUInt8 = (bitlen >>> UInt64.ofNat (8 * 0)).toUInt8 := by
    simp
  rw [h0]
  exact (map_congr_left fun k hk => toUInt8_shift h (7 - k)
    (by have := mem_range.1 hk; omega)).symm

theorem Represents.sha256_eq {ctx : Sha256Ctx} {m : List UInt8} (h : Represents ctx m) :
    sha256 m = (BlockStream.feed 64 compress (ctx.state, slice ctx.data 0 ctx.datalen)
      (padding m.length)).1.bytes := by
  rw [sha256, pad, ← BlockStream.feed_eq (by decide), BlockStream.feed_append, h.stream]

theorem Represents.bits {ctx : Sha256Ctx} {m : List UInt8} (h : Represents ctx m) :
    (ctx.bitlen + UInt64.ofNat ctx.datalen * 8).toNat = 8 * m.length % 2 ^ 64 := by
  rw [← h.bitlen, UInt64.toNat_add, UInt64.toNat_mul, UInt64.toNat_ofNat']
  simp
  omega

theorem cuStoreLength_of_lt (data : ℕ → UInt8) (bitlen : UInt64) {j : ℕ} (h : j < 56) :
    cuStoreLength data bitlen j = data j := by
  have hne : ∀ k, 56 ≤ k → j ≠ k := fun k hk => by omega
  simp [cuStoreLength, update_of_ne, hne]

theorem installStoreLength_of_lt (data : ℕ → UInt8) (bitlen : UInt64) {j : ℕ} (h : j < 56) :
    installStoreLength data bitlen j = data j := by
  have hne : ∀ k, 56 ≤ k → j ≠ k := fun k hk => by omega
  simp [installStoreLength, update_of_ne, hne]

theorem slice_cuStoreLength (data : ℕ → UInt8) {bitlen : UInt64} {bits : ℕ}
    (h : bitlen.toNat = bits % 2 ^ 64) :
    slice (cuStoreLength data bitlen) 56 8 = lengthField bits := by
  rw [lengthField_eq h]
  simp [slice, cuStoreLength, List.range', update]

theorem and_0xFF (x : UInt8) : x &&& 255 = x := by
  apply UInt8.toNat_inj.1
  rw [UInt8.toNat_and]
  exact (Nat.and_two_pow_sub_one_eq_mod x.toNat 8).trans (Nat.mod_eq_of_lt x.toNat_lt)

theorem slice_installStoreLength (data : ℕ → UInt8) {bitlen : UInt64} {bits : ℕ}
    (h : bitlen.toNat = bits % 2 ^ 64) :
    slice (installStoreLength data bitlen) 56 8 = lengthField bits := by
  rw [lengthField_eq h]
  simp [slice, installStoreLength, List.range', update, and_0xFF]

theorem marked_spec (data : ℕ → UInt8) (L limit : ℕ) :
    let d := zeroFill (update data L 0x80) (L + 1) limit
    (∀ j < L, d j = data j) ∧ d L = 0x80 ∧ ∀ j, L < j → j < limit → d j = 0 := by
  intro d
  refine ⟨fun j hj => ?_, ?_, fun j hj hlt => if_pos ⟨hj, hlt⟩⟩
  · have hno : ¬ (L + 1 ≤ j ∧ j < limit) := by omega
    exact (if_neg hno).trans (update_of_ne (by omega) _ _)
  · have hno : ¬ (L + 1 ≤ L ∧ L < limit) := by omega
    exact (if_neg hno).trans (update_self _ _ _)

theorem Represents.short {ctx : Sha256Ctx} {m : List UInt8} (h : Represents ctx m)
    (hshort : ctx.datalen < 56) {d : ℕ → UInt8}
    (hlow : ∀ j < 56, d j = zeroFill (update ctx.data ctx.datalen 0x80)
      (ctx.datalen + 1) 56 j)
    (hbits : slice d 56 8 = lengthField (8 * m.length)) :
    (compress ctx.state (slice d 0 64)).bytes = sha256 m := by
  obtain ⟨hdata, hmark, hzero⟩ := marked_spec ctx.data ctx.datalen 56
  rw [h.sha256_eq, feed_padding_short hshort h.datalen_eq
    (fun j hj => (hlow j (by omega)).trans (hdata j hj)) ((hlow _ hshort).trans hmark)
    (fun j hj hlt => (hlow j hlt).trans (hzero j hj hlt)) hbits]

theorem Represents.long {ctx : Sha256Ctx} {m : List UInt8} (h : Represents ctx m)
    (hlong : ¬ ctx.datalen < 56) {d : ℕ → UInt8} (hlow : ∀ j < 56, d j = 0)
    (hbits : slice d 56 8 = lengthField (8 * m.length)) :
    (compress (compress ctx.state (slice (zeroFill (update ctx.data ctx.datalen 0x80)
      (ctx.datalen + 1) 64) 0 64)) (slice d 0 64)).bytes = sha256 m := by
  obtain ⟨hdata, hmark, hzero⟩ := marked_spec ctx.data ctx.datalen 64
  rw [h.sha256_eq, feed_padding_long (Nat.le_of_not_lt hlong) h.datalen_lt h.datalen_eq hdata hmark
    hzero hlow hbits]

theorem Represents.cuFinal {ctx : Sha256Ctx} {m : List UInt8} (h : Represents ctx m) :
    cuSha256Final ctx = sha256 m := by
  rw [cuSha256Final]
  by_cases hshort : ctx.datalen < 56
  · simp only [if_pos hshort, storeState_eq, cuSha256Transform_eq]
    exact h.short hshort (fun j hj => cuStoreLength_of_lt _ _ hj)
      (slice_cuStoreLength _ h.bits)
  · simp only [if_neg hshort, storeState_eq, cuSha256Transform_eq]
    exact h.long hshort (fun j hj => (cuStoreLength_of_lt _ _ hj).trans (if_pos ⟨Nat.zero_le j, hj⟩))
      (slice_cuStoreLength _ h.bits)

theorem Represents.installFinal {ctx : Sha256Ctx} {m : List UInt8} (h : Represents ctx m) :
    installSha256Final ctx = sha256 m := by
  have hlt := h.datalen_lt
  have hno : ¬ ctx.datalen > 64 := by omega
  rw [installSha256Final]
  by_cases hshort : ctx.datalen < 56
  · simp only [if_neg hno, if_pos hshort, storeState_eq, installSha256Transform_eq]
    exact h.short hshort (fun j hj => installStoreLength_of_lt _ _ hj)
      (slice_installStoreLength _ h.bits)
  · simp only [if_neg hno, if_neg hshort, storeState_eq, installSha256Transform_eq]
    exact h.long hshort
      (fun j hj => (installStoreLength_of_lt _ _ hj).trans (if_pos ⟨Nat.zero_le j, hj⟩))
      (slice_installStoreLength _ h.bits)

/-- Both implementations compute SHA-256 of the concatenation of the updates, so they
agree, and no digest depends on how its message was cut. -/
theorem sha256_implementations_correct (data data' : ℕ → UInt8) (chunks : List (List UInt8)) :
    installSha256Final (chunks.foldl installSha256Update (sha256Init data)) =
        sha256 chunks.flatten ∧
      cuSha256Final (chunks.foldl cuSha256Update (sha256Init data')) = sha256 chunks.flatten := by
  have hinstall := (represents_init data).foldl (fun h => h.installUpdate) chunks
  have hcu := (represents_init data').foldl (fun h => h.cuUpdate) chunks
  rw [nil_append] at hinstall hcu
  exact ⟨hinstall.installFinal, hcu.cuFinal⟩

/-- The bytes a sequence of reads delivers, up to the first empty one; `none` when one
of them fails. -/
def readBytes : List FdRead → Option (List UInt8)
  | [] => some []
  | none :: _ => none
  | some [] :: _ => some []
  | some (b :: bs) :: reads => (readBytes reads).map fun rest => b :: bs ++ rest

theorem Represents.hashReads {ctx : Sha256Ctx} {m : List UInt8} (h : Represents ctx m)
    (reads : List FdRead) :
    match readBytes reads with
    | none => Sha256.hashReads ctx reads = none
    | some bytes => ∃ ctx', Sha256.hashReads ctx reads = some ctx' ∧ Represents ctx' (m ++ bytes) := by
  induction reads generalizing ctx m with
  | nil => exact ⟨ctx, rfl, by simpa using h⟩
  | cons r reads ih =>
    match r with
    | none => rfl
    | some [] => exact ⟨ctx, rfl, by simpa using h⟩
    | some (b :: bs) =>
      have hrest := ih (h.installUpdate (b :: bs))
      simp only [readBytes, Sha256.hashReads]
      cases hread : readBytes reads with
      | none => simpa only [hread, map_none] using hrest
      | some bytes => simpa only [hread, map_some, append_assoc] using hrest

theorem installSha256FileHex_eq (data : ℕ → UInt8) (reads : List FdRead) :
    installSha256FileHex data true reads =
      (readBytes reads).map fun bytes => hexDigits (sha256 bytes) := by
  have h := (represents_init data).hashReads reads
  simp only [installSha256FileHex, Bool.true_eq_false, if_false]
  cases hread : readBytes reads with
  | none =>
    simp only [hread] at h
    rw [h]
    rfl
  | some bytes =>
    simp only [hread] at h
    obtain ⟨ctx', hctx, hrep⟩ := h
    rw [hctx, map_some, map_some, hrep.installFinal, nil_append]

theorem cleonosUserHashPassword_eq (data : ℕ → UInt8) (password : Option (List UInt8)) :
    cleonosUserHashPassword data password =
      hexDigits (sha256 ((password.getD []).takeWhile (· ≠ 0))) := by
  cases password with
  | none => simp only [cleonosUserHashPassword, (represents_init data).cuFinal]; rfl
  | some text =>
    have h := (represents_init data).cuUpdate (text.takeWhile (· ≠ 0))
    simp only [cleonosUserHashPassword, h.cuFinal]
    rfl

end Cleonos.Sha256
