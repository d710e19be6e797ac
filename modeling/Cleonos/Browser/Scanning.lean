import Cleonos.Browser.Streams

/-!
# The scan of a chunked body

Each round of `ush_browser_is_chunked_body_complete` takes one chunk.
-/

namespace Cleonos.Browser

open List

variable {b : List UInt8} {outside : ℕ → UInt8} {off next pos i size : ℕ}

/-! ## What a round reads -/

/-- The indices read by the loop that looks for the end of a line. -/
def lineReads (b : List UInt8) : ℕ → ℕ → List ℕ
  | 0, _ => []
  | fuel + 1, pos =>
    if pos + 1 < b.length then
      if b.getD pos 0 = 13 then
        if b.getD (pos + 1) 0 = 10 then [pos, pos + 1] else pos :: (pos + 1) :: lineReads b fuel (pos + 1)
      else pos :: lineReads b fuel (pos + 1)
    else []

/-- The indices read by the loop over the digits of a size, on what is left of its line. -/
def sizeReads : List UInt8 → ℕ → ℕ → Bool → List ℕ
  | [], _, _, _ => []
  | ch :: line, pos, size, hasDigit =>
    pos ::
      if ch = 59 then []
      else if ch = 32 ∨ ch = 9 then
        if hasDigit then [] else sizeReads line (pos + 1) size hasDigit
      else
        match hexValue ch with
        | none => []
        | some v => if size > sizeMax then [] else sizeReads line (pos + 1) (size * 2 ^ 4 + v) true

/-- The indices read by the loop over the lines behind the last chunk. -/
def trailerReads (b : List UInt8) : ℕ → ℕ → List ℕ
  | 0, _ => []
  | fuel + 1, pos =>
    lineReads b (b.length + 1) pos ++
      match crlfIndex (b.drop pos) with
      | none => []
      | some 0 => []
      | some (i + 1) => trailerReads b fuel (pos + i + 3)

/-- The indices read by a round of the loop of `ush_browser_is_chunked_body_complete`. -/
def roundReads (b : List UInt8) (outside : ℕ → UInt8) (off : ℕ) : List ℕ :=
  if off ≥ b.length then []
  else
    lineReads b (b.length + 1) off ++
      match crlfIndex (b.drop off) with
      | none => []
      | some i =>
        sizeReads ((b.drop off).take i) off 0 false ++
          match chunkSize ((b.drop off).take i) with
          | none => []
          | some size =>
            let off := off + i + 2
            if size = 0 then trailerReads b (b.length + 1) off
            else if (off + size + 2) % 2 ^ 64 > b.length then []
            else if byteAt b outside ((off + size) % 2 ^ 64) ≠ 13 then [(off + size) % 2 ^ 64]
            else [(off + size) % 2 ^ 64, (off + size + 1) % 2 ^ 64]

/-- A round that ends with another offset. -/
structure Advances (b : List UInt8) (outside : ℕ → UInt8) (off i size next : ℕ) : Prop where
  line : crlfIndex (b.drop off) = some i
  header : chunkSize ((b.drop off).take i) = some size
  nonzero : size ≠ 0
  fits : (off + i + 2 + size + 2) % 2 ^ 64 ≤ b.length
  cr : byteAt b outside ((off + i + 2 + size) % 2 ^ 64) = 13
  lf : byteAt b outside ((off + i + 2 + size + 1) % 2 ^ 64) = 10
  next : next = (off + i + 2 + size + 2) % 2 ^ 64

/-- Every round that the scan comes to reads inside of the body and goes forward, and the scan
returns. -/
structure ScanOk (b : List UInt8) (outside : ℕ → UInt8) : Prop where
  inside : ∀ off, OnWay b outside off → ∀ pos ∈ roundReads b outside off, pos < b.length
  progress : ∀ off i size next, OnWay b outside off → Advances b outside off i size next → off < next
  returns : ∃ v, Reports b outside v

/-- A size behind which the sum goes past the end of a word, to a place that is not behind the
body: the two bytes in front of that place are bytes of the body, and no line end unless it lies
ahead. -/
def Harmless (b : List UInt8) (off : ℕ) : Prop :=
  ∀ i size, crlfIndex (b.drop off) = some i → chunkSize ((b.drop off).take i) = some size →
    size ≠ 0 → 2 ^ 64 ≤ off + i + 2 + size + 2 →
    off + i + 2 + size + 2 - 2 ^ 64 ≤ b.length →
      2 ≤ off + i + 2 + size + 2 - 2 ^ 64 ∧
        (b.getD (off + i + 2 + size - 2 ^ 64) 0 = 13 →
          b.getD (off + i + 2 + size + 1 - 2 ^ 64) 0 = 10 →
            off < off + i + 2 + size + 2 - 2 ^ 64)

theorem lineReads_lt (fuel : ℕ) (h : pos ∈ lineReads b fuel off) : pos < b.length := by
  induction fuel generalizing off with
  | zero => cases h
  | succ fuel ih =>
    rw [lineReads] at h
    by_cases hend : off + 1 < b.length
    · rw [if_pos hend] at h
      have hrest : pos = off ∨ pos = off + 1 ∨ pos ∈ lineReads b fuel (off + 1) := by
        split at h
        · split at h
          · simp only [mem_cons, not_mem_nil, or_false] at h
            tauto
          · simp only [mem_cons] at h
            exact h
        · simp only [mem_cons] at h
          tauto
      rcases hrest with rfl | rfl | hrest
      · omega
      · exact hend
      · exact ih hrest
    · rw [if_neg hend] at h
      cases h

theorem sizeReads_lt (line : List UInt8) {hasDigit : Bool}
    (h : pos ∈ sizeReads line off size hasDigit) : pos < off + line.length := by
  induction line generalizing off size hasDigit with
  | nil => cases h
  | cons ch line ih =>
    rw [sizeReads] at h
    rw [length_cons]
    rcases mem_cons.1 h with rfl | h
    · omega
    · have hmore : ∀ size hasDigit, pos ∈ sizeReads line (off + 1) size hasDigit →
          pos < off + (line.length + 1) := by
        intro size hasDigit hpos
        have hlt := ih hpos
        omega
      split at h
      · cases h
      split at h
      · split at h
        · cases h
        · exact hmore _ _ h
      · split at h
        · cases h
        · split at h
          · cases h
          · exact hmore _ _ h

theorem trailerReads_lt (fuel : ℕ) (h : pos ∈ trailerReads b fuel off) : pos < b.length := by
  induction fuel generalizing off with
  | zero => cases h
  | succ fuel ih =>
    rw [trailerReads] at h
    rcases mem_append.1 h with h | h
    · exact lineReads_lt _ h
    · split at h
      · cases h
      · cases h
      · exact ih h

theorem line_end_le (hline : crlfIndex (b.drop off) = some i) : off + i + 2 ≤ b.length := by
  have hlen := crlfIndex_length hline
  rw [length_drop] at hlen
  omega

theorem byteAt_of_lt (h : pos < b.length) : byteAt b outside pos = b.getD pos 0 := by
  simp [byteAt, List.getD, List.getElem?_eq_getElem h]

theorem sizeLoop_lt (line : List UInt8) {hasDigit : Bool} {r : ℕ × Bool} (hsize : size < 2 ^ 64)
    (h : sizeLoop line size hasDigit = some r) : r.1 < 2 ^ 64 := by
  induction line generalizing size hasDigit with
  | nil =>
    cases h
    exact hsize
  | cons ch line ih =>
    rw [sizeLoop] at h
    split at h
    · cases h
      exact hsize
    split at h
    · split at h
      · cases h
        exact hsize
      · exact ih hsize h
    · split at h
      · cases h
      · next v hv =>
        split at h
        · cases h
        · next hmax =>
          have hdigit := hexValue_lt hv
          refine ih ?_ h
          simp only [sizeMax] at hmax
          omega

theorem chunkSize_lt {line : List UInt8} (h : chunkSize line = some size) : size < 2 ^ 64 := by
  rw [chunkSize] at h
  split at h
  · next hloop =>
    cases h
    exact sizeLoop_lt line (Nat.two_pow_pos 64) hloop
  · cases h

theorem mod_of_wraps {n k : ℕ} (hlow : 2 ^ 64 ≤ n + k) (hn : n ≤ 2 ^ 64) (hk : k < 2 ^ 64) :
    (n + k) % 2 ^ 64 = n + k - 2 ^ 64 := by
  rw [Nat.mod_eq_sub_mod hlow, Nat.mod_eq_of_lt (by omega)]

section Scan

variable (hlen : b.length + 2 ≤ 2 ^ 64)

include hlen

theorem reads_of_fits (hharmless : Harmless b off) (hline : crlfIndex (b.drop off) = some i)
    (hheader : chunkSize ((b.drop off).take i) = some size) (hnonzero : size ≠ 0)
    (hfits : (off + i + 2 + size + 2) % 2 ^ 64 ≤ b.length) :
    (off + i + 2 + size) % 2 ^ 64 < b.length ∧ (off + i + 2 + size + 1) % 2 ^ 64 < b.length := by
  have hend := line_end_le hline
  have hsize := chunkSize_lt hheader
  by_cases hwraps : 2 ^ 64 ≤ off + i + 2 + size + 2
  · have hsum : (off + i + 2 + size + 2) % 2 ^ 64 = off + i + 2 + size + 2 - 2 ^ 64 := by
      rw [Nat.mod_eq_sub_mod hwraps, Nat.mod_eq_of_lt (by omega)]
    rw [hsum] at hfits
    have htwo := (hharmless i size hline hheader hnonzero hwraps hfits).1
    rw [mod_of_wraps (by omega) (by omega) hsize]
    have hnext : (off + i + 2 + size + 1) % 2 ^ 64 = off + i + 2 + size + 1 - 2 ^ 64 := by
      rw [Nat.mod_eq_sub_mod (by omega), Nat.mod_eq_of_lt (by omega)]
    rw [hnext]
    omega
  · rw [Nat.mod_eq_of_lt (by omega)] at hfits
    rw [Nat.mod_eq_of_lt (by omega), Nat.mod_eq_of_lt (by omega)]
    omega

theorem roundReads_lt (hharmless : Harmless b off) (h : pos ∈ roundReads b outside off) :
    pos < b.length := by
  rw [roundReads] at h
  split at h
  · cases h
  rcases mem_append.1 h with h | h
  · exact lineReads_lt _ h
  cases hline : crlfIndex (b.drop off) with
  | none =>
    rw [hline] at h
    cases h
  | some i =>
    rw [hline] at h
    simp only at h
    have hend := line_end_le hline
    rcases mem_append.1 h with h | h
    · have hlt := sizeReads_lt _ h
      rw [length_take, length_drop] at hlt
      omega
    cases hheader : chunkSize ((b.drop off).take i) with
    | none =>
      rw [hheader] at h
      cases h
    | some size =>
      rw [hheader] at h
      simp only at h
      split at h
      · exact trailerReads_lt _ h
      next hnonzero =>
      split at h
      · cases h
      next hfits =>
      have hreads := reads_of_fits hlen hharmless hline hheader hnonzero (Nat.le_of_not_lt hfits)
      split at h
      · rw [mem_singleton.1 h]
        exact hreads.1
      · simp only [mem_cons, not_mem_nil, or_false] at h
        rcases h with rfl | rfl
        · exact hreads.1
        · exact hreads.2

theorem lt_of_advances (hharmless : Harmless b off) (h : Advances b outside off i size next) :
    off < next := by
  have hend := line_end_le h.line
  have hsize := chunkSize_lt h.header
  have hreads := reads_of_fits hlen hharmless h.line h.header h.nonzero h.fits
  have hfits := h.fits
  have hcr := h.cr
  have hlf := h.lf
  rw [h.next]
  by_cases hwraps : 2 ^ 64 ≤ off + i + 2 + size + 2
  · have hsum : (off + i + 2 + size + 2) % 2 ^ 64 = off + i + 2 + size + 2 - 2 ^ 64 := by
      rw [Nat.mod_eq_sub_mod hwraps, Nat.mod_eq_of_lt (by omega)]
    rw [hsum] at hfits ⊢
    have hcase := hharmless i size h.line h.header h.nonzero hwraps hfits
    have htwo := hcase.1
    have hfirst : (off + i + 2 + size) % 2 ^ 64 = off + i + 2 + size - 2 ^ 64 := by
      rw [Nat.mod_eq_sub_mod (by omega), Nat.mod_eq_of_lt (by omega)]
    have hsecond : (off + i + 2 + size + 1) % 2 ^ 64 = off + i + 2 + size + 1 - 2 ^ 64 := by
      rw [Nat.mod_eq_sub_mod (by omega), Nat.mod_eq_of_lt (by omega)]
    rw [byteAt_of_lt hreads.1, hfirst] at hcr
    rw [byteAt_of_lt hreads.2, hsecond] at hlf
    exact hcase.2 hcr hlf
  · rw [Nat.mod_eq_of_lt (by omega)]
    omega

omit hlen in
theorem onWay_of_advances (hway : OnWay b outside off) (h : Advances b outside off i size next) :
    OnWay b outside next := by
  rw [h.next]
  exact .chunk hway h.line h.header h.nonzero h.fits h.cr h.lf

omit hlen in
theorem returns_of_progress (hprogress : ∀ off i size next, OnWay b outside off →
      Advances b outside off i size next → off < next) (fuel : ℕ) (hway : OnWay b outside off)
    (hfuel : b.length - off < fuel) : ∃ v, completeFrom b outside fuel off = some v := by
  induction fuel generalizing off with
  | zero => omega
  | succ fuel ih =>
    rw [completeFrom]
    by_cases hoff : off ≥ b.length
    · rw [if_pos hoff]
      exact ⟨_, rfl⟩
    rw [if_neg hoff]
    cases hline : crlfIndex (b.drop off) with
    | none => exact ⟨_, rfl⟩
    | some i =>
      simp only
      cases hheader : chunkSize ((b.drop off).take i) with
      | none => exact ⟨_, rfl⟩
      | some size =>
        simp only
        by_cases hzero : size = 0
        · rw [if_pos hzero]
          exact ⟨_, rfl⟩
        rw [if_neg hzero]
        by_cases hfits : (off + i + 2 + size + 2) % 2 ^ 64 > b.length
        · rw [if_pos hfits]
          exact ⟨_, rfl⟩
        rw [if_neg hfits]
        split
        · exact ⟨_, rfl⟩
        · next hcrlf =>
          rw [not_or, not_not, not_not] at hcrlf
          have hadvances : Advances b outside off i size
              ((off + i + 2 + size + 2) % 2 ^ 64) :=
            ⟨hline, hheader, hzero, Nat.le_of_not_lt hfits, hcrlf.1, hcrlf.2, rfl⟩
          have hlt := hprogress _ _ _ _ hway hadvances
          refine ih (onWay_of_advances hway hadvances) ?_
          omega

/-- The scan is in order exactly if every size that it comes to, and that goes past the end of a
word, is harmless. -/
theorem scanOk_iff : ScanOk b outside ↔ ∀ off, OnWay b outside off → Harmless b off := by
  constructor
  · intro h off hway i size hline hheader hnonzero hwraps hle
    have hend := line_end_le hline
    have hsize := chunkSize_lt hheader
    have hoff : ¬ off ≥ b.length := by omega
    have hsum : (off + i + 2 + size + 2) % 2 ^ 64 = off + i + 2 + size + 2 - 2 ^ 64 := by
      rw [Nat.mod_eq_sub_mod hwraps, Nat.mod_eq_of_lt (by omega)]
    have hfits : ¬ (off + i + 2 + size + 2) % 2 ^ 64 > b.length := by
      rw [hsum]
      omega
    have hmem : (off + i + 2 + size) % 2 ^ 64 ∈ roundReads b outside off := by
      rw [roundReads, if_neg hoff, hline]
      simp only [hheader]
      rw [if_neg hnonzero, if_neg hfits]
      refine mem_append_right _ (mem_append_right _ ?_)
      split
      · exact mem_cons_self
      · exact mem_cons_self
    have hinside := h.inside off hway _ hmem
    have htwo : 2 ≤ off + i + 2 + size + 2 - 2 ^ 64 := by
      by_contra hshort
      rw [Nat.mod_eq_of_lt (by omega)] at hinside
      omega
    have hfirst : (off + i + 2 + size) % 2 ^ 64 = off + i + 2 + size - 2 ^ 64 := by
      rw [Nat.mod_eq_sub_mod (by omega), Nat.mod_eq_of_lt (by omega)]
    have hsecond : (off + i + 2 + size + 1) % 2 ^ 64 = off + i + 2 + size + 1 - 2 ^ 64 := by
      rw [Nat.mod_eq_sub_mod (by omega), Nat.mod_eq_of_lt (by omega)]
    refine ⟨htwo, fun hcr hlf => ?_⟩
    refine h.progress off i size _ hway ⟨hline, hheader, hnonzero, Nat.le_of_not_lt hfits, ?_, ?_,
      hsum.symm⟩
    · rw [hfirst, byteAt_of_lt (by omega)]
      exact hcr
    · rw [hsecond, byteAt_of_lt (by omega)]
      exact hlf
  · intro h
    have hprogress : ∀ off i size next, OnWay b outside off → Advances b outside off i size next →
        off < next := fun off i size next hway => lt_of_advances hlen (h off hway)
    refine ⟨fun off hway pos => roundReads_lt hlen (h off hway), hprogress, ?_⟩
    obtain ⟨v, hv⟩ := returns_of_progress hprogress (b.length + 1) .start (by omega)
    exact ⟨v, _, hv⟩

end Scan

theorem NoWrap.harmless (h : NoWrap b outside) (hway : OnWay b outside off) : Harmless b off := by
  intro i size hline hheader _ hwraps
  exact absurd (h off i size hway hline hheader) (Nat.not_lt_of_le hwraps)

/-- A stream of one letter. -/
theorem scanOk_letter : ScanOk (letterStream.bytes ++ []) (fun _ => 0) :=
  (scanOk_iff (by decide)).2 fun _ hway => (noWrap_stream letterStream [] (by decide)).harmless hway

/-- Behind the size of the second chunk the scan is where it was before. -/
theorem scan_goes_round : ¬ ∀ b outside, b.length + 2 ≤ 2 ^ 64 → ScanOk b outside := by
  intro h
  have hscan := h (lit "1\r\nA\r\nffffffffffffffec\r\n") (fun _ => 0) (by decide)
  have hfirst : OnWay (lit "1\r\nA\r\nffffffffffffffec\r\n") (fun _ => 0) 6 :=
    @OnWay.chunk _ _ 0 1 1 .start (by decide) (by decide) (by decide) (by decide) (by decide) (by decide)
  refine absurd (hscan.progress 6 16 (2 ^ 64 - 20) 6 hfirst ?_) (Nat.lt_irrefl 6)
  exact ⟨by decide, by decide, by decide, by decide, by decide, by decide, by decide⟩

end Cleonos.Browser
