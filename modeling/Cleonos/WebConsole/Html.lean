import Cleonos.Lib.Message

/-!
# The pages of the web console

A page is written into a buffer of a fixed size; what does not fit is dropped.
-/

namespace Cleonos.WebConsole

section

open List

/-- The buffer of a page; its last byte is kept for the zero.  It is only marked as truncated when
it is full. -/
@[ext] structure Html where
  cap : ℕ
  buf : List UInt8
  truncated : Bool
  fits : buf.length < cap
  full : truncated = true → buf.length + 1 = cap

variable {h : Html} {text text' : List UInt8}

/-- `wc_init`, with a capacity that is not zero. -/
def wcInit (cap : ℕ) (hcap : 0 < cap) : Html := ⟨cap, [], false, hcap, by simp⟩

def wcCh (h : Html) (ch : UInt8) : Html :=
  if hroom : h.buf.length + 1 ≥ h.cap then
    { h with
      truncated := true
      full := fun _ => by
        have hfits := h.fits
        omega }
  else
    { h with
      buf := h.buf ++ [ch]
      fits := by
        rw [List.length_append, List.length_singleton]
        omega
      full := fun htruncated => by
        have hfull := h.full htruncated
        omega }

/-- The text ends where the buffer does. -/
def wcRaw (h : Html) : List UInt8 → Html
  | [] => h
  | ch :: rest => if (wcCh h ch).truncated then wcCh h ch else wcRaw (wcCh h ch) rest

/-- The code of a byte in text. -/
def escCh (ch : UInt8) : List UInt8 :=
  if ch = 38 then lit "&amp;"
  else if ch = 60 then lit "&lt;"
  else if ch = 62 then lit "&gt;"
  else if ch = 34 then lit "&quot;"
  else if ch = 39 then lit "&#39;"
  else [ch]

def wcEsc (h : Html) : List UInt8 → Html
  | [] => h
  | ch :: rest =>
    wcEsc (if ch = 38 ∨ ch = 60 ∨ ch = 62 ∨ ch = 34 ∨ ch = 39 then wcRaw h (escCh ch) else wcCh h ch) rest

/-- The letters, digits and marks that stand for themselves in a query. -/
def isPlain (ch : UInt8) : Bool :=
  ch ≥ 65 && ch ≤ 90 || ch ≥ 97 && ch ≤ 122 || ch ≥ 48 && ch ≤ 57 || ch = 45 || ch = 95 || ch = 46 ||
    ch = 47 || ch = 126

/-- A digit of `"0123456789ABCDEF"`. -/
def hexDigit (value : UInt8) : UInt8 :=
  if value &&& 15 < 10 then 48 + (value &&& 15) else 55 + (value &&& 15)

def wcUrlenc (h : Html) : List UInt8 → Html
  | [] => h
  | ch :: rest =>
    wcUrlenc (if isPlain ch then wcCh h ch
      else wcCh (wcCh (wcCh h 37) (hexDigit (ch >>> 4))) (hexDigit ch)) rest

/-- The digits of a number in front of others, at most as many as there is room for. -/
def digitsFrom (value : ℕ) (digits : List UInt8) : ℕ → List UInt8
  | 0 => digits
  | room + 1 =>
    if value = 0 then digits
    else digitsFrom (value / 10) (UInt8.ofNat (48 + value % 10) :: digits) room

/-- The decimal digits that `wc_u64` writes. -/
def decimal (value : ℕ) : List UInt8 := if value = 0 then [48] else digitsFrom value [] 32

def wcU64 (h : Html) (value : ℕ) : Html := (decimal value).foldl wcCh h

/-! ## What is written -/

/-- A text is appended as far as it fits. -/
def Html.put (h : Html) (text : List UInt8) : Html where
  cap := h.cap
  buf := (h.buf ++ text).take (h.cap - 1)
  truncated := h.truncated || decide (h.cap ≤ h.buf.length + text.length)
  fits := by
    have hfits := h.fits
    rw [List.length_take]
    omega
  full := fun htruncated => by
    have hfits := h.fits
    rw [Bool.or_eq_true, decide_eq_true_eq] at htruncated
    rw [List.length_take, List.length_append]
    cases htruncated with
    | inl hfull =>
      have hlen := h.full hfull
      omega
    | inr hlong => omega

@[simp] theorem cap_put (h : Html) (text : List UInt8) : (h.put text).cap = h.cap := rfl

theorem buf_put (h : Html) (text : List UInt8) :
    (h.put text).buf = (h.buf ++ text).take (h.cap - 1) := rfl

theorem truncated_put (h : Html) (text : List UInt8) :
    (h.put text).truncated = (h.truncated || decide (h.cap ≤ h.buf.length + text.length)) := rfl

@[simp] theorem put_nil (h : Html) : h.put [] = h := by
  have hfits := h.fits
  ext1
  · rfl
  · rw [buf_put, append_nil, take_of_length_le (by omega)]
  · have hshort : decide (h.cap ≤ h.buf.length + ([] : List UInt8).length) = false :=
      decide_eq_false (by rw [length_nil]; omega)
    rw [truncated_put, hshort, Bool.or_false]

@[simp] theorem put_put (h : Html) (text text' : List UInt8) :
    (h.put text).put text' = h.put (text ++ text') := by
  have hfits := h.fits
  ext1
  · rfl
  · rw [buf_put, buf_put, buf_put, cap_put, ← append_assoc, take_append, take_take,
      Nat.min_self, @take_append _ (h.buf ++ text), length_take]
    congr 2
    omega
  · rw [truncated_put, truncated_put, truncated_put, buf_put, cap_put, Bool.or_assoc, ← Bool.decide_or]
    congr 1
    apply decide_eq_decide.mpr
    rw [length_take, length_append, length_append]
    omega

@[simp] theorem wcCh_eq (h : Html) (ch : UInt8) : wcCh h ch = h.put [ch] := by
  have hfits := h.fits
  rw [wcCh]
  split
  · rename_i hroom
    ext1
    · rfl
    · rw [buf_put, take_append_of_le_length (by omega), take_of_length_le (by omega)]
    · have hlong : decide (h.cap ≤ h.buf.length + [ch].length) = true :=
        decide_eq_true (by rw [length_singleton]; omega)
      rw [truncated_put, hlong, Bool.or_true]
  · rename_i hroom
    ext1
    · rfl
    · rw [buf_put, take_of_length_le (by rw [length_append, length_singleton]; omega)]
    · have hshort : decide (h.cap ≤ h.buf.length + [ch].length) = false :=
        decide_eq_false (by rw [length_singleton]; omega)
      rw [truncated_put, hshort, Bool.or_false]

theorem put_of_truncated (htruncated : h.truncated = true) (text : List UInt8) : h.put text = h := by
  have hfull := h.full htruncated
  ext1
  · rfl
  · rw [buf_put, take_append_of_le_length (by omega), take_of_length_le (by omega)]
  · rw [truncated_put, htruncated, Bool.true_or]

@[simp] theorem wcRaw_eq (h : Html) (text : List UInt8) : wcRaw h text = h.put text := by
  induction text generalizing h with
  | nil => rw [wcRaw, put_nil]
  | cons ch rest ih =>
    rw [wcRaw, ih, wcCh_eq]
    split
    · rename_i htruncated
      have hdropped := put_of_truncated htruncated rest
      rw [put_put, singleton_append] at hdropped
      exact hdropped.symm
    · rw [put_put, singleton_append]

@[simp] theorem wcEsc_eq (h : Html) (text : List UInt8) : wcEsc h text = h.put (text.flatMap escCh) := by
  induction text generalizing h with
  | nil => rw [wcEsc, flatMap_nil, put_nil]
  | cons ch rest ih =>
    rw [wcEsc, ih, flatMap_cons, ← put_put]
    split
    · rw [wcRaw_eq]
    · rename_i hplain
      have hcode : escCh ch = [ch] := by
        rw [escCh]
        grind
      rw [wcCh_eq, hcode]

/-- The code of a byte in a query. -/
def urlencCh (ch : UInt8) : List UInt8 :=
  if isPlain ch then [ch] else [37, hexDigit (ch >>> 4), hexDigit ch]

@[simp] theorem wcUrlenc_eq (h : Html) (text : List UInt8) :
    wcUrlenc h text = h.put (text.flatMap urlencCh) := by
  induction text generalizing h with
  | nil => rw [wcUrlenc, flatMap_nil, put_nil]
  | cons ch rest ih =>
    rw [wcUrlenc, ih, flatMap_cons, ← put_put, urlencCh]
    split
    · rw [wcCh_eq]
    · rw [wcCh_eq, wcCh_eq, wcCh_eq, put_put (h := h), put_put (h := h)]
      rfl

@[simp] theorem wcU64_eq (h : Html) (value : ℕ) : wcU64 h value = h.put (decimal value) := by
  have hall (digits : List UInt8) : digits.foldl wcCh h = h.put digits := by
    induction digits generalizing h with
    | nil => rw [foldl_nil, put_nil]
    | cons digit digits ih => rw [foldl_cons, ih, wcCh_eq, put_put, singleton_append]
  exact hall _

theorem forall_byte {p : UInt8 → Prop} (hall : ∀ k < 256, p (UInt8.ofNat k)) (ch : UInt8) : p ch := by
  rw [← UInt8.ofNat_toNat (x := ch)]
  exact hall _ ch.toNat_lt

theorem mem_urlencCh {b ch : UInt8} (hb : b ∈ urlencCh ch) : isPlain b = true ∨ b = 37 := by
  have hall : ∀ ch, (urlencCh ch).all (fun b => isPlain b || b = 37) = true :=
    forall_byte (by decide +kernel)
  simpa using all_eq_true.1 (hall ch) b hb

theorem notMem_urlencCh {text : List UInt8} {b : UInt8} (hplain : isPlain b = false) (hpercent : b ≠ 37) :
    b ∉ text.flatMap urlencCh := by
  intro hmem
  obtain ⟨ch, -, hb⟩ := mem_flatMap.1 hmem
  rcases mem_urlencCh hb with hplain' | hpercent'
  · rw [hplain] at hplain'
    cases hplain'
  · exact hpercent hpercent'

theorem notMem_escCh (text : List UInt8) : 60 ∉ text.flatMap escCh := by
  intro hmem
  obtain ⟨ch, -, hb⟩ := mem_flatMap.1 hmem
  have hall : ∀ ch, 60 ∉ escCh ch := forall_byte (by decide +kernel)
  exact hall ch hb

theorem escapes_urlencCh : FormData.Escapes urlencCh where
  unescape_append ch rest := by
    unfold urlencCh
    split
    · rename_i hplain
      apply FormData.unescape_cons
      · intro hch
        rw [hch] at hplain
        cases hplain
      · intro hch
        rw [hch] at hplain
        cases hplain
    · have hdigits : ∀ ch : UInt8, FormData.hexDigit (hexDigit (ch >>> 4)) = some (ch >>> 4) ∧
          FormData.hexDigit (hexDigit ch) = some (ch &&& 15) ∧ (ch >>> 4) * 16 + (ch &&& 15) = ch :=
        forall_byte (by decide +kernel)
      obtain ⟨hhigh, hlow, hsum⟩ := hdigits ch
      rw [cons_append, cons_append, cons_append, nil_append,
        FormData.unescape_percent hhigh hlow, hsum]
  clean ch := by
    constructor
    · intro hmem
      rcases mem_urlencCh hmem with h | h <;> cases h
    · intro hmem
      rcases mem_urlencCh hmem with h | h <;> cases h

end

open List

def ushPathMax : ℕ := 192
def ushLineMax : ℕ := 192

/-- The value of a hexadecimal digit; `none` is the -1 of the source. -/
def hexValue (ch : UInt8) : Option UInt8 :=
  if ch ≥ 48 && ch ≤ 57 then some (ch - 48)
  else if ch ≥ 97 && ch ≤ 102 then some (ch - 97 + 10)
  else if ch ≥ 65 && ch ≤ 70 then some (ch - 65 + 10)
  else none

/-- `wc_url_decode` into a buffer with room for so many bytes and a zero. -/
def decodeInto : ℕ → List UInt8 → List UInt8
  | 0, _ => []
  | _ + 1, [] => []
  | room + 1, 43 :: rest => 32 :: decodeInto room rest
  | room + 1, 37 :: a :: b :: rest =>
    match hexValue a, hexValue b with
    | some hi, some lo => (hi <<< 4 ||| lo) :: decodeInto room rest
    | _, _ => 37 :: decodeInto room (a :: b :: rest)
  | room + 1, c :: rest => c :: decodeInto room rest

/-- What a reader finds in the buffer, up to the first zero. -/
def wcUrlDecode (dstSize : ℕ) (src : List UInt8) : List UInt8 := cstr (decodeInto (dstSize - 1) src)

/-- The loop of `wc_query_value`; a key may stand at the start and behind each `&`. -/
def queryFrom (key : List UInt8) (outSize : ℕ) : Bool → List UInt8 → List UInt8
  | _, [] => []
  | atKey, c :: rest =>
    if atKey ∧ key ++ [61] <+: c :: rest then
      wcUrlDecode outSize ((((c :: rest).drop (key.length + 1)).takeWhile (· ≠ 38)).take (ushPathMax - 1))
    else queryFrom key outSize (c = 38) rest

def wcQueryValue (query key : List UInt8) (outSize : ℕ) : List UInt8 := queryFrom key outSize true query

/-- The loop of `wc_parse_u64_default`, in 64 bits. -/
def parseDigits (fallback : ℕ) : ℕ → List UInt8 → ℕ
  | value, [] => value
  | value, c :: rest =>
    if c < 48 ∨ c > 57 then fallback
    else parseDigits fallback ((value * 10 + (c.toNat - 48)) % 2 ^ 64) rest

def wcParseU64Default (text : List UInt8) (fallback : ℕ) : ℕ :=
  if text = [] then fallback else parseDigits fallback 0 text

/-- The values of a query. -/
structure WcQuery where
  view : List UInt8
  action : List UInt8
  path : List UInt8
  q : List UInt8
  name : List UInt8
  cmd : List UInt8
  cwd : List UInt8
  page : ℕ
deriving DecidableEq, Repr

def orElse (value default : List UInt8) : List UInt8 := if value = [] then default else value

/-- The length of a package's name is set by the package manager, which is not part of the
repository. -/
def wcParseQuery (pkgNameMax : ℕ) (reqPath : List UInt8) : WcQuery :=
  if 63 ∈ reqPath then
    let query := (reqPath.dropWhile (· ≠ 63)).drop 1
    { view := orElse (wcQueryValue query (lit "view") 32) (lit "status")
      action := wcQueryValue query (lit "action") 32
      path := orElse (wcQueryValue query (lit "path") ushPathMax) (lit "/")
      q := wcQueryValue query (lit "q") 96
      name := wcQueryValue query (lit "name") pkgNameMax
      cmd := wcQueryValue query (lit "cmd") ushLineMax
      cwd := orElse (wcQueryValue query (lit "cwd") ushPathMax) (lit "/")
      page := wcParseU64Default (wcQueryValue query (lit "page") 32) 0 }
  else ⟨lit "status", [], lit "/", [], [], [], [], 0⟩

/-- The path of a request that is received, as far as it reaches; `none` where it is refused. -/
def wcParseRequestPath (req : List UInt8) (outSize : ℕ) : Option (List UInt8) :=
  let text := cstr req
  if lit "GET " <+: text then
    let space := text.drop 4
    if 32 ∈ space then
      let path := space.takeWhile (· ≠ 32)
      if path.length = 0 ∨ path.length ≥ outSize then none else some path
    else none
  else none

theorem hexValue_eq (ch : UInt8) : hexValue ch = FormData.hexDigit ch := by
  have hall : ∀ ch, hexValue ch = FormData.hexDigit ch := forall_byte (by decide +kernel)
  exact hall ch

theorem hexDigit_lt {ch value : UInt8} (h : FormData.hexDigit ch = some value) : value < 16 := by
  have hall : ∀ ch, (FormData.hexDigit ch).all (· < 16) = true := forall_byte (by decide +kernel)
  have hch := hall ch
  rw [h] at hch
  simpa using hch

theorem join_digits {high low : UInt8} (hhigh : high < 16) (hlow : low < 16) :
    high <<< 4 ||| low = high * 16 + low := by
  have hall : ∀ k < 16, ∀ l < 16,
      UInt8.ofNat k <<< 4 ||| UInt8.ofNat l = UInt8.ofNat k * 16 + UInt8.ofNat l := by decide +kernel
  rw [← UInt8.ofNat_toNat (x := high), ← UInt8.ofNat_toNat (x := low)]
  exact hall _ hhigh _ hlow

theorem decodeInto_eq (room : ℕ) (src : List UInt8) :
    decodeInto room src = (FormData.unescape src).take room := by
  fun_induction decodeInto room src with
  | case1 => rfl
  | case2 => rfl
  | case3 room rest ih => rw [ih, FormData.unescape, take_succ_cons]
  | case4 room a b rest hi lo hlo hhi ih =>
    rw [hexValue_eq] at hlo hhi
    rw [ih, join_digits (hexDigit_lt hhi) (hexDigit_lt hlo), FormData.unescape_percent hhi hlo,
      take_succ_cons]
  | case5 room a b rest hnone ih =>
    have hnot : ∀ high low, FormData.hexDigit a = some high → FormData.hexDigit b = some low → False := by
      intro high low ha hb
      rw [← hexValue_eq] at ha hb
      exact hnone high low ha hb
    rw [ih, FormData.unescape]
    split
    · rename_i ha hb
      exact absurd hb (hnot _ _ ha)
    · rw [take_succ_cons]
  | case6 room c rest hplus hpercent ih =>
    rw [ih, FormData.unescape, take_succ_cons]
    · exact hplus
    · exact hpercent

variable {key : List UInt8} {outSize : ℕ}

theorem queryFrom_skip {atKey : Bool} {piece rest : List UInt8} (hclean : 38 ∉ piece)
    (hkey : atKey = true → ¬ key ++ [61] <+: piece ++ 38 :: rest) :
    queryFrom key outSize atKey (piece ++ 38 :: rest) = queryFrom key outSize true rest := by
  induction piece generalizing atKey with
  | nil =>
    rw [nil_append, queryFrom, if_neg (fun hfound => hkey hfound.1 hfound.2)]
    rfl
  | cons c piece ih =>
    rw [mem_cons, not_or] at hclean
    have hc : decide (c = 38) = false := decide_eq_false (Ne.symm hclean.1)
    rw [cons_append, queryFrom, if_neg (fun hfound => hkey hfound.1 hfound.2), hc]
    exact ih hclean.2 (by simp)

theorem queryFrom_found (value : List UInt8) :
    queryFrom key outSize true (key ++ 61 :: value) =
      wcUrlDecode outSize ((value.takeWhile (· ≠ 38)).take (ushPathMax - 1)) := by
  have hfound : key ++ [61] <+: key ++ 61 :: value := ⟨value, by simp⟩
  have hvalue : (key ++ 61 :: value).drop (key.length + 1) = value := by
    rw [← drop_drop, drop_left, drop_one, tail_cons]
  cases hall : key ++ 61 :: value with
  | nil =>
    rw [append_eq_nil_iff] at hall
    cases hall.2
  | cons c rest =>
    rw [queryFrom, if_pos ⟨rfl, hall ▸ hfound⟩, ← hall, hvalue]

theorem length_le_coded (text : List UInt8) : text.length ≤ (text.flatMap urlencCh).length := by
  induction text with
  | nil => simp
  | cons ch text ih =>
    have hone : 1 ≤ (urlencCh ch).length := by
      rw [urlencCh]
      split <;> simp
    rw [flatMap_cons, length_append, length_cons]
    omega

theorem queryFrom_coded {text : List UInt8} (hzero : 0 ∉ text)
    (hlen : (text.flatMap urlencCh).length < ushPathMax) :
    queryFrom key ushPathMax true (key ++ 61 :: text.flatMap urlencCh) = text := by
  have hclean : ∀ b ∈ text.flatMap urlencCh, (decide (b ≠ 38)) = true := by
    intro b hb
    rw [decide_eq_true_eq]
    intro hsep
    rw [hsep] at hb
    exact notMem_urlencCh (by decide) (by decide) hb
  have hshort := length_le_coded text
  rw [queryFrom_found, takeWhile_eq_self_iff.mpr hclean, take_of_length_le (by omega),
    wcUrlDecode, decodeInto_eq, escapes_urlencCh.unescape_flatMap, take_of_length_le (by omega),
    cstr_of_notMem hzero]

end Cleonos.WebConsole
