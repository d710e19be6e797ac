import Cleonos.Libc.Snprintf
import Cleonos.Wget.Model

/-!
# Chunked bodies

The reader of chunks takes its input in pieces and writes data in runs of bytes.
-/

namespace Cleonos.Wget

open List
open Stdio (Device Working writeAll_sends)
open Browser (hexValue hexValue_lt)

/-! ## The machine -/

/-- The machine takes a byte of data, or one of the framing. -/
def chunkByte (s : ChunkState) (ch : UInt8) : List UInt8 × Option ChunkState :=
  if s.state = .data then ([ch], some (s.advance 1)) else ([], framingByte s ch)

/-- The output, and the state at the end; none for an invalid body. -/
def chunkRun : ChunkState → List UInt8 → List UInt8 × Option ChunkState
  | s, [] => ([], some s)
  | s, ch :: data =>
    if s.done then ([], some s)
    else
      match chunkByte s ch with
      | (o, none) => (o, none)
      | (o, some s) => (o ++ (chunkRun s data).1, (chunkRun s data).2)

/-- Where data is read some of it is left. -/
def DataLeft (s : ChunkState) : Prop := s.state = .data → 0 < s.remaining

variable {s s' : ChunkState} {ch : UInt8} {data w rest o : List UInt8}

theorem chunkRun_done (h : s.done = true) : chunkRun s data = ([], some s) := by
  cases data with
  | nil => rfl
  | cons ch data => rw [chunkRun, if_pos h]

theorem chunkRun_cons (h : s.done = false) : chunkRun s (ch :: data) =
    match chunkByte s ch with
    | (o, none) => (o, none)
    | (o, some s) => (o ++ (chunkRun s data).1, (chunkRun s data).2) := by
  rw [chunkRun, if_neg (by simp [h])]

theorem chunkRun_framing (h : s.done = false) (hstate : s.state ≠ .data) :
    chunkRun s (ch :: data) =
      match framingByte s ch with
      | none => ([], none)
      | some s => chunkRun s data := by
  rw [chunkRun_cons h, chunkByte, if_neg hstate]
  cases framingByte s ch <;> rfl

theorem chunkRun_append (xs ys : List UInt8) : chunkRun s (xs ++ ys) =
    match chunkRun s xs with
    | (o, none) => (o, none)
    | (o, some s) => (o ++ (chunkRun s ys).1, (chunkRun s ys).2) := by
  induction xs generalizing s with
  | nil => rfl
  | cons ch xs ih =>
    cases hdone : s.done
    · rw [cons_append, chunkRun_cons hdone, chunkRun_cons hdone]
      rcases chunkByte s ch with ⟨o, _ | s'⟩
      · rfl
      · dsimp only
        rw [ih]
        rcases chunkRun s' xs with ⟨o', _ | s''⟩
        · rfl
        · simp only [append_assoc]
    · rw [chunkRun_done hdone, chunkRun_done hdone]
      dsimp only
      rw [chunkRun_done hdone]
      rfl

theorem finishSizeLine_dataLeft (h : finishSizeLine s = some s') : DataLeft s' := by
  rw [finishSizeLine] at h
  split at h
  · exact absurd h (by simp)
  · dsimp only at h
    split at h
    · cases h
      exact fun hdata => absurd hdata (by simp)
    · rename_i hne
      cases h
      exact fun _ => Nat.pos_of_ne_zero hne

theorem framingByte_dataLeft (h : framingByte s ch = some s') : DataLeft s' := by
  intro hdata
  cases hstate : s.state <;> simp only [framingByte, hstate] at h
  case data => exact absurd h (by simp)
  case sizeLf =>
    split at h
    · exact absurd h (by simp)
    · exact finishSizeLine_dataLeft h hdata
  case size =>
    split at h
    · cases h
      exact absurd hdata (by simp)
    split at h
    · exact finishSizeLine_dataLeft h hdata
    all_goals
      repeat' split at h
      all_goals cases h <;> exact absurd hdata (by simp [hstate])
  all_goals
    repeat' split at h
    all_goals cases h <;> exact absurd hdata (by simp [hstate])

variable {n : ℕ} {e : List UInt8}

theorem advance_advance {m : ℕ} : (s.advance m).advance n = s.advance (m + n) := by
  simp only [ChunkState.advance, Nat.sub_sub]

theorem advance_dataLeft : DataLeft (s.advance n) := by
  intro h
  simp only [ChunkState.advance] at h ⊢
  split at h
  · exact absurd h (by simp)
  · omega

theorem chunkRun_data {bytes : List UInt8} (hstate : s.state = .data) (hdone : s.done = false)
    (hne : bytes ≠ []) (hlen : bytes.length ≤ s.remaining) :
    chunkRun s (bytes ++ rest) = (bytes ++ (chunkRun (s.advance bytes.length) rest).1,
      (chunkRun (s.advance bytes.length) rest).2) := by
  induction bytes generalizing s with
  | nil => exact absurd rfl hne
  | cons b bytes ih =>
    rw [cons_append, chunkRun_cons hdone, chunkByte, if_pos hstate]
    dsimp only
    cases bytes with
    | nil => rfl
    | cons b' bytes =>
      rw [length_cons, length_cons] at hlen
      have hleft : ¬ s.remaining - 1 = 0 := by omega
      have hstate' : (s.advance 1).state = .data := if_neg hleft
      have hlen' : (b' :: bytes).length ≤ (s.advance 1).remaining := by
        simp only [length_cons, ChunkState.advance]
        omega
      rw [ih hstate' hdone (by simp) hlen', advance_advance,
        Nat.add_comm 1, ← length_cons]
      rfl

theorem writeAll_spec (out : Device) (bytes : List UInt8) :
    (writeAll out bytes).1.fd = out.fd ∧ (writeAll out bytes).1.answers = out.answers ∧
      ((writeAll out bytes).2 = true → (writeAll out bytes).1.sent = out.sent ++ bytes) ∧
      (Working out → (writeAll out bytes).2 = true) := by
  obtain ⟨taken, rest, hsplit, hsent, hfd, hanswers, hall, hworking⟩ := writeAll_sends out bytes
  refine ⟨hfd, hanswers, fun hok => ?_, hworking⟩
  rw [writeAll, hsent, hsplit, hall hok, append_nil]

theorem working_congr {out out' : Device} (h : Working out) (hfd : out'.fd = out.fd)
    (hanswers : out'.answers = out.answers) : Working out' := by
  rw [Working, hfd, hanswers]
  exact h

theorem feedLoop_spec {fuel : ℕ} {f : Feed} (hleft : DataLeft f.chunk) (hsaved : f.saved < 2 ^ 64)
    (hfuel : data.length < fuel) :
    (feedLoop fuel f data).2.out.fd = f.out.fd ∧
      (feedLoop fuel f data).2.out.answers = f.out.answers ∧
    ((feedLoop fuel f data).1 = true →
      (chunkRun f.chunk data).2 = some (feedLoop fuel f data).2.chunk ∧
      (feedLoop fuel f data).2.out.sent = f.out.sent ++ (chunkRun f.chunk data).1 ∧
      (feedLoop fuel f data).2.saved = addSaved f.saved (chunkRun f.chunk data).1.length ∧
      DataLeft (feedLoop fuel f data).2.chunk) ∧
    (Working f.out → (feedLoop fuel f data).1 = false →
      (chunkRun f.chunk data).2 = none ∧
      (feedLoop fuel f data).2.out.sent = f.out.sent ++ (chunkRun f.chunk data).1) := by
  induction fuel generalizing f data with
  | zero => exact absurd hfuel (Nat.not_lt_zero _)
  | succ fuel ih =>
    have hsame : addSaved f.saved 0 = f.saved := by
      rw [addSaved, Nat.add_zero, Nat.mod_eq_of_lt hsaved]
    cases data with
    | nil =>
      rw [feedLoop, chunkRun]
      exact ⟨rfl, rfl, fun _ => ⟨rfl, (append_nil _).symm, hsame.symm, hleft⟩,
        fun _ h => absurd h (by simp)⟩
    | cons ch data =>
      rw [length_cons] at hfuel
      rw [feedLoop]
      by_cases hdone : f.chunk.done = true
      · rw [if_pos hdone, chunkRun_done hdone]
        exact ⟨rfl, rfl, fun _ => ⟨rfl, (append_nil _).symm, hsame.symm, hleft⟩,
          fun _ h => absurd h (by simp)⟩
      · rw [if_neg hdone]
        have hdone' : f.chunk.done = false := by simpa using hdone
        by_cases hstate : f.chunk.state = .data
        · -- a run of data
          rw [if_pos hstate]
          have hpos := hleft hstate
          have hn0 : 0 < min f.chunk.remaining (ch :: data).length := by
            rw [length_cons]
            omega
          generalize hn : min f.chunk.remaining (ch :: data).length = n at hn0
          have hnrem : n ≤ f.chunk.remaining := hn ▸ Nat.min_le_left _ _
          have hnlen : n ≤ (ch :: data).length := hn ▸ Nat.min_le_right _ _
          dsimp only
          rw [if_neg (Nat.ne_of_gt hn0)]
          obtain ⟨hfd, hanswers, hsent, hworking⟩ := writeAll_spec f.out ((ch :: data).take n)
          have htake : ((ch :: data).take n).length = n := length_take_of_le hnlen
          have hrun := @chunkRun_data _ ((ch :: data).drop n) _ hstate hdone'
            (ne_nil_of_length_pos (by rw [htake]; exact hn0)) (by rw [htake]; exact hnrem)
          rw [take_append_drop, htake] at hrun
          by_cases hok : (writeAll f.out ((ch :: data).take n)).2 = false
          · rw [if_pos hok]
            refine ⟨hfd, hanswers, fun h => absurd h (by simp), fun hw _ => ?_⟩
            rw [hworking hw] at hok
            exact absurd hok (by simp)
          · rw [if_neg hok, hrun]
            have hok' : (writeAll f.out ((ch :: data).take n)).2 = true := by simpa using hok
            have hdrop : ((ch :: data).drop n).length < fuel := by
              rw [length_drop, length_cons]
              omega
            obtain ⟨hfd', hanswers', hsome, hnone⟩ := ih
              (f := ⟨f.chunk.advance n, (writeAll f.out ((ch :: data).take n)).1,
                addSaved f.saved n⟩) advance_dataLeft (Nat.mod_lt _ (by decide)) hdrop
            dsimp only at hfd' hanswers' hsome hnone
            refine ⟨hfd'.trans hfd, hanswers'.trans hanswers, fun h => ?_, fun hw h => ?_⟩
            · obtain ⟨hrun', hsent', hsaved', hleft''⟩ := hsome h
              refine ⟨hrun', ?_, ?_, hleft''⟩
              · rw [hsent', hsent hok', append_assoc]
              · rw [hsaved', length_append, htake]
                simp only [addSaved]
                omega
            · obtain ⟨hrun', hsent'⟩ := hnone (working_congr hw hfd hanswers) h
              exact ⟨hrun', by rw [hsent', hsent hok', append_assoc]⟩
        · -- a byte of the framing
          rw [if_neg hstate, chunkRun_framing hdone' hstate]
          cases hbyte : framingByte f.chunk ch with
          | none =>
            exact ⟨rfl, rfl, fun h => absurd h (by simp),
              fun _ _ => ⟨rfl, (append_nil _).symm⟩⟩
          | some chunk =>
            exact ih (f := { f with chunk := chunk }) (framingByte_dataLeft hbyte) hsaved
              (by omega)

def Eol (e : List UInt8) : Prop := e = [10] ∨ e = [13, 10]

def Text (l : List UInt8) : Prop := ∀ c ∈ l, c ≠ 13 ∧ c ≠ 10

/-- The value of hexadecimal digits behind others. -/
def hexNumber (acc : ℕ) (digits : List UInt8) : Option ℕ :=
  digits.foldlM (fun acc c => (hexValue c).map (acc * 16 + ·)) acc

/-- The digits of a size line: what is in front of the extensions, without blanks. -/
def sizeDigits (line : List UInt8) : List UInt8 :=
  (line.takeWhile (· ≠ 59)).filter fun c => !isBlank c

/-- The size that a size line announces. -/
def SizeLine (w : List UInt8) (n : ℕ) : Prop :=
  ∃ l e, w = l ++ e ∧ Text l ∧ Eol e ∧ sizeDigits l ≠ [] ∧ hexNumber 0 (sizeDigits l) = some n

/-- The lines behind the last chunk, up to the first empty one; the flag tells that the line has
begun. -/
inductive Trailer : Bool → List UInt8 → Prop
  | last {e : List UInt8} (he : Eol e) : Trailer false e
  | next {e t : List UInt8} (he : Eol e) (ht : Trailer false t) : Trailer true (e ++ t)
  | char {begun : Bool} {c : UInt8} {t : List UInt8} (hcr : c ≠ 13) (hlf : c ≠ 10)
      (ht : Trailer true t) : Trailer begun (c :: t)

/-- A chunked body and its payload. -/
inductive ChunkedBody : List UInt8 → List UInt8 → Prop
  | last {line t : List UInt8} (hline : SizeLine line 0) (ht : Trailer false t) :
      ChunkedBody (line ++ t) []
  | chunk {line bytes w p : List UInt8} {k : ℕ} (hline : SizeLine line bytes.length)
      (hne : bytes ≠ []) (hrest : ChunkedBody w p) :
      ChunkedBody (line ++ (bytes ++ (List.replicate k 13 ++ (10 :: w)))) (bytes ++ p)

/-- The number of a size line, as it is read. -/
def sizeFrom : List UInt8 → ℕ → Bool → Bool → Option ℕ
  | [], acc, hasDigit, _ => if hasDigit then some acc else none
  | c :: l, acc, hasDigit, inExtension =>
    if c = 59 then if hasDigit then sizeFrom l acc true true else none
    else if inExtension ∨ c = 32 ∨ c = 9 then sizeFrom l acc hasDigit inExtension
    else (hexValue c).bind fun v => sizeFrom l (acc * 16 + v) true inExtension

theorem sizeFrom_extension (l : List UInt8) (acc : ℕ) : sizeFrom l acc true true = some acc := by
  induction l with
  | nil => rfl
  | cons c l ih =>
    rw [sizeFrom]
    split
    · exact ih
    · rw [if_pos (.inl rfl)]
      exact ih

theorem sizeFrom_eq (l : List UInt8) (acc : ℕ) (hasDigit : Bool) :
    sizeFrom l acc hasDigit false =
      if hasDigit = false ∧ sizeDigits l = [] then none else hexNumber acc (sizeDigits l) := by
  induction l generalizing acc hasDigit with
  | nil => cases hasDigit <;> rfl
  | cons c l ih =>
    rw [sizeFrom]
    by_cases hext : c = 59
    · have hdigits : sizeDigits (c :: l) = [] := by simp [sizeDigits, hext]
      rw [if_pos hext, hdigits]
      cases hasDigit
      · rfl
      · rw [sizeFrom_extension]
        rfl
    · rw [if_neg hext]
      by_cases hblank : c = 32 ∨ c = 9
      · have hdigits : sizeDigits (c :: l) = sizeDigits l := by
          simp only [sizeDigits, takeWhile_cons, decide_eq_true hext, if_true]
          rw [filter_cons_of_neg]
          rcases hblank with rfl | rfl <;> decide
        rw [if_pos (.inr hblank), hdigits, ih]
      · have hdigits : sizeDigits (c :: l) = c :: sizeDigits l := by
          simp only [sizeDigits, takeWhile_cons, decide_eq_true hext, if_true]
          rw [filter_cons_of_pos]
          simpa [isBlank, not_or] using hblank
        rw [if_neg (by simpa using hblank), hdigits, if_neg (by simp), hexNumber,
          foldlM_cons]
        cases hexValue c with
        | none => rfl
        | some v =>
          rw [Option.bind_some, ih, if_neg (by simp)]
          rfl

/-- The state behind a size line. -/
def afterSize (s : ChunkState) (n : ℕ) : ChunkState :=
  let s := { s with remaining := n, sizeAcc := 0, hasDigit := false, inExtension := false }
  if n = 0 then { s with trailerLineLen := 0, state := .trailer } else { s with state := .data }

theorem finishSizeLine_eq (h : s.hasDigit = true) :
    finishSizeLine s = some (afterSize s s.sizeAcc) := by
  rw [finishSizeLine, if_neg (by simp [h]), afterSize]
  dsimp only
  split <;> rfl

theorem finishSizeLine_eq_none (h : ¬ s.hasDigit = true) : finishSizeLine s = none := by
  rw [finishSizeLine, if_pos (by simpa using h)]

theorem chunkRun_sizeEol (hstate : s.state = .size) (hdone : s.done = false) (he : Eol e) :
    chunkRun s (e ++ rest) =
      if s.hasDigit then chunkRun (afterSize s s.sizeAcc) rest else ([], none) := by
  have hfinish : ∀ s', s'.hasDigit = s.hasDigit → s'.sizeAcc = s.sizeAcc →
      (∀ n, afterSize s' n = afterSize s n) →
      (match finishSizeLine s' with | none => ([], none) | some s => chunkRun s rest) =
        if s.hasDigit then chunkRun (afterSize s s.sizeAcc) rest else ([], none) := by
    intro s' hdigit hacc hafter
    by_cases h : s.hasDigit = true
    · rw [if_pos h, finishSizeLine_eq (hdigit.trans h), hacc, hafter]
    · rw [if_neg h, finishSizeLine_eq_none (by rw [hdigit]; exact h)]
  have hne : s.state ≠ .data := by rw [hstate]; decide
  rcases he with rfl | rfl
  · rw [cons_append, nil_append, chunkRun_framing hdone hne, framingByte]
    simp only [hstate]
    exact hfinish s rfl rfl fun _ => rfl
  · rw [cons_append, cons_append, nil_append, chunkRun_framing hdone hne,
      framingByte]
    simp only [hstate, if_true]
    rw [chunkRun_framing (s := { s with state := .sizeLf }) hdone (by simp), framingByte]
    simp only [ne_eq, not_true_eq_false, if_false]
    exact hfinish { s with state := .sizeLf } rfl rfl fun n => rfl

theorem framingByte_size (hstate : s.state = .size) (hcr : ch ≠ 13) (hlf : ch ≠ 10)
    (h : framingByte s ch = some s') :
    (s'.state = .size ∧ s'.done = s.done ∧ ∀ n, afterSize s' n = afterSize s n) ∧
      ∀ l, sizeFrom (ch :: l) s.sizeAcc s.hasDigit s.inExtension =
        sizeFrom l s'.sizeAcc s'.hasDigit s'.inExtension := by
  simp only [framingByte, hstate, if_neg hcr, if_neg hlf] at h
  by_cases hext : ch = 59
  · rw [if_pos hext] at h
    by_cases hdigit : s.hasDigit = false
    · rw [if_pos hdigit] at h
      exact absurd h (by simp)
    · rw [if_neg hdigit, Option.some.injEq] at h
      subst h
      exact ⟨⟨rfl, rfl, fun _ => rfl⟩, fun l => by
        rw [sizeFrom, if_pos hext, if_pos (by simpa using hdigit)]
        simp only [Bool.not_eq_false] at hdigit
        rw [hdigit]⟩
  · rw [if_neg hext] at h
    by_cases hskip : s.inExtension = true ∨ ch = 32 ∨ ch = 9
    · rw [if_pos hskip, Option.some.injEq] at h
      subst h
      exact ⟨⟨hstate, rfl, fun _ => rfl⟩, fun l => by rw [sizeFrom, if_neg hext, if_pos hskip]⟩
    · rw [if_neg hskip] at h
      cases hvalue : hexValue ch with
      | none =>
        rw [hvalue] at h
        exact absurd h (by simp)
      | some v =>
        rw [hvalue] at h
        dsimp only at h
        by_cases hmax : s.sizeAcc > sizeMax
        · rw [if_pos hmax] at h
          exact absurd h (by simp)
        · rw [if_neg hmax, Option.some.injEq] at h
          have hlt : s.sizeAcc * 2 ^ 4 + v < 2 ^ 64 := by
            have hv := hexValue_lt hvalue
            simp only [sizeMax] at hmax
            omega
          rw [Nat.mod_eq_of_lt hlt] at h
          subst h
          exact ⟨⟨rfl, rfl, fun _ => rfl⟩, fun l => by
            rw [sizeFrom, if_neg hext, if_neg hskip, hvalue, Option.bind_some]
            rfl⟩

theorem chunkRun_sizeLine (rest : List UInt8) {l e : List UInt8} (hstate : s.state = .size)
    (hdone : s.done = false)
    (hl : Text l) (he : Eol e) :
    chunkRun s (l ++ (e ++ rest)) = ([], none) ∨
      ∃ n, sizeFrom l s.sizeAcc s.hasDigit s.inExtension = some n ∧
        chunkRun s (l ++ (e ++ rest)) = chunkRun (afterSize s n) rest := by
  induction l generalizing s with
  | nil =>
    rw [nil_append, chunkRun_sizeEol hstate hdone he]
    by_cases hdigit : s.hasDigit = true
    · exact .inr ⟨s.sizeAcc, by rw [sizeFrom, if_pos hdigit], by rw [if_pos hdigit]⟩
    · exact .inl (by rw [if_neg hdigit])
  | cons c l ih =>
    obtain ⟨hcr, hlf⟩ := hl c mem_cons_self
    rw [cons_append, chunkRun_framing hdone (by rw [hstate]; decide)]
    cases hbyte : framingByte s c with
    | none => exact .inl rfl
    | some s' =>
      obtain ⟨⟨hstate', hdone', hafter⟩, hsize⟩ := framingByte_size hstate hcr hlf hbyte
      rw [hsize l]
      rcases ih hstate' (hdone'.trans hdone) fun d hd => hl d (mem_cons_of_mem c hd) with
        h | ⟨n, hn, h⟩
      · exact .inl h
      · exact .inr ⟨n, hn, by rw [← hafter]; exact h⟩

theorem exists_sizeLine (hstate : s.state = .size) (hdone : s.done = false)
    (h : chunkRun s w = (o, some s')) (hdone' : s'.done = true) :
    ∃ l e rest, w = l ++ (e ++ rest) ∧ Text l ∧ Eol e := by
  induction w generalizing s with
  | nil =>
    rw [chunkRun, Prod.mk.injEq, Option.some.injEq] at h
    rw [← h.2, hdone] at hdone'
    exact absurd hdone' (by simp)
  | cons c w ih =>
    have hne : s.state ≠ .data := by rw [hstate]; decide
    by_cases hlf : c = 10
    · exact ⟨[], [10], w, by rw [hlf]; rfl, fun _ h => absurd h not_mem_nil, .inl rfl⟩
    rw [chunkRun_framing hdone hne] at h
    by_cases hcr : c = 13
    · -- the next character is a line feed
      rw [framingByte] at h
      simp only [hstate, if_pos hcr] at h
      cases w with
      | nil =>
        rw [chunkRun, Prod.mk.injEq, Option.some.injEq] at h
        rw [← h.2] at hdone'
        exact absurd (hdone'.symm.trans hdone) (by simp)
      | cons d w =>
        rw [chunkRun_framing (s := { s with state := .sizeLf }) hdone (by simp), framingByte]
          at h
        by_cases hd : d = 10
        · exact ⟨[], [13, 10], w, by rw [hcr, hd]; rfl, fun _ h => absurd h not_mem_nil,
            .inr rfl⟩
        · simp [hd] at h
    · cases hbyte : framingByte s c with
      | none =>
        rw [hbyte] at h
        exact absurd h (by simp)
      | some s₁ =>
        rw [hbyte] at h
        obtain ⟨⟨hstate₁, hdone₁, -⟩, -⟩ := framingByte_size hstate hcr hlf hbyte
        obtain ⟨l, e, rest, rfl, hl, he⟩ := ih hstate₁ (hdone₁.trans hdone) h
        refine ⟨c :: l, e, rest, rfl, fun d hd => ?_, he⟩
        rcases mem_cons.1 hd with rfl | hd
        · exact ⟨hcr, hlf⟩
        · exact hl d hd

theorem sizeFrom_line {l : List UInt8} : sizeFrom l 0 false false = some n ↔
    sizeDigits l ≠ [] ∧ hexNumber 0 (sizeDigits l) = some n := by
  rw [sizeFrom_eq]
  by_cases h : sizeDigits l = [] <;> simp [h]

/-! ### The end of the data and the trailer -/

theorem chunkRun_dataEnd (k : ℕ) (rest : List UInt8) (hstate : s.state = .dataLf)
    (hdone : s.done = false) :
    chunkRun s (List.replicate k 13 ++ (10 :: rest)) =
      chunkRun { s with state := .size } rest := by
  have hne : s.state ≠ .data := by rw [hstate]; decide
  induction k with
  | zero =>
    rw [replicate_zero, nil_append, chunkRun_framing hdone hne, framingByte]
    simp only [hstate]
    rfl
  | succ k ih =>
    rw [replicate_succ, cons_append, chunkRun_framing hdone hne, framingByte]
    simp only [hstate, if_true]
    exact ih

theorem exists_dataEnd (hstate : s.state = .dataLf) (hdone : s.done = false)
    (h : chunkRun s w = (o, some s')) (hdone' : s'.done = true) :
    ∃ k rest, w = List.replicate k 13 ++ (10 :: rest) := by
  have hne : s.state ≠ .data := by rw [hstate]; decide
  induction w with
  | nil =>
    rw [chunkRun, Prod.mk.injEq, Option.some.injEq] at h
    rw [← h.2, hdone] at hdone'
    exact absurd hdone' (by simp)
  | cons c w ih =>
    rw [chunkRun_framing hdone hne, framingByte] at h
    simp only [hstate] at h
    by_cases hcr : c = 13
    · rw [if_pos hcr] at h
      obtain ⟨k, rest, rfl⟩ := ih h
      exact ⟨k + 1, rest, by rw [hcr, replicate_succ, cons_append]⟩
    · rw [if_neg hcr] at h
      by_cases hlf : c = 10
      · exact ⟨0, w, by rw [hlf]; rfl⟩
      · rw [if_pos hlf] at h
        exact absurd h (by simp)

theorem chunkRun_trailerEol (rest : List UInt8) (hstate : s.state = .trailer)
    (hdone : s.done = false) (he : Eol e) :
    (s.trailerLineLen = 0 ∧ ∃ s', chunkRun s (e ++ rest) = ([], some s') ∧ s'.done = true) ∨
      s.trailerLineLen ≠ 0 ∧
        chunkRun s (e ++ rest) = chunkRun { s with trailerLineLen := 0 } rest := by
  have hne : s.state ≠ .data := by rw [hstate]; decide
  by_cases hlen : s.trailerLineLen = 0
  · left
    rcases he with rfl | rfl
    · refine ⟨hlen, { s with done := true }, ?_, rfl⟩
      rw [cons_append, nil_append, chunkRun_framing hdone hne, framingByte]
      simp only [hstate, hlen, if_true]
      exact chunkRun_done rfl
    · refine ⟨hlen, { s with state := .trailerLf, done := true }, ?_, rfl⟩
      rw [cons_append, cons_append, nil_append, chunkRun_framing hdone hne,
        framingByte]
      simp only [hstate, if_true]
      rw [chunkRun_framing (s := { s with state := .trailerLf }) hdone (by simp), framingByte]
      simp only [hlen, ne_eq, not_true_eq_false, if_false, if_true]
      exact chunkRun_done rfl
  · right
    refine ⟨hlen, ?_⟩
    rcases he with rfl | rfl
    · rw [cons_append, nil_append, chunkRun_framing hdone hne, framingByte]
      simp only [hstate, hlen, if_false]
      rfl
    · rw [cons_append, cons_append, nil_append, chunkRun_framing hdone hne,
        framingByte]
      simp only [hstate, if_true]
      rw [chunkRun_framing (s := { s with state := .trailerLf }) hdone (by simp), framingByte]
      simp only [hlen, ne_eq, not_true_eq_false, if_false]

theorem chunkRun_trailerChar (hstate : s.state = .trailer) (hdone : s.done = false)
    (hcr : ch ≠ 13) (hlf : ch ≠ 10) : chunkRun s (ch :: data) =
      chunkRun { s with trailerLineLen := s.trailerLineLen + 1 } data := by
  rw [chunkRun_framing hdone (by rw [hstate]; decide), framingByte]
  simp only [hstate, if_neg hcr, if_neg hlf]

theorem chunkRun_trailer {begun : Bool} {t : List UInt8} (ht : Trailer begun t)
    (hstate : s.state = .trailer) (hdone : s.done = false)
    (hbegun : begun = true ↔ s.trailerLineLen ≠ 0) :
    ∃ s', chunkRun s (t ++ rest) = ([], some s') ∧ s'.done = true := by
  induction ht generalizing s with
  | last he =>
    rcases chunkRun_trailerEol rest hstate hdone he with ⟨-, h⟩ | ⟨hlen, -⟩
    · exact h
    · exact absurd (hbegun.2 hlen) (by simp)
  | next he ht ih =>
    rw [append_assoc]
    rcases chunkRun_trailerEol _ hstate hdone he with ⟨hlen, -⟩ | ⟨-, h⟩
    · exact absurd hlen (hbegun.1 rfl)
    · rw [h]
      exact ih hstate hdone (by simp)
  | char hcr hlf ht ih =>
    rw [cons_append, chunkRun_trailerChar hstate hdone hcr hlf]
    exact ih hstate hdone (by simp)

theorem exists_trailer (hstate : s.state = .trailer) (hdone : s.done = false)
    (h : chunkRun s w = (o, some s')) (hdone' : s'.done = true) :
    o = [] ∧ ∃ t rest, w = t ++ rest ∧ Trailer (decide (s.trailerLineLen ≠ 0)) t := by
  induction hn : w.length using Nat.strong_induction_on generalizing s w with
  | _ n ih =>
    -- behind the end of a line
    have hend : ∀ e rest, Eol e → w = e ++ rest →
        o = [] ∧ ∃ t rest, w = t ++ rest ∧ Trailer (decide (s.trailerLineLen ≠ 0)) t := by
      rintro e rest he rfl
      rcases chunkRun_trailerEol rest hstate hdone he with
        ⟨hlen, s₁, hrun, -⟩ | ⟨hlen, hrun⟩
      · rw [hrun] at h
        refine ⟨(Prod.mk.inj h).1.symm, e, rest, rfl, ?_⟩
        rw [decide_eq_false (by simpa using hlen)]
        exact .last he
      · rw [hrun] at h
        have hlt : rest.length < n := by
          rw [← hn, length_append]
          rcases he with rfl | rfl <;> simp
        obtain ⟨ho, t, rest', rfl, ht⟩ :=
          ih _ hlt (s := { s with trailerLineLen := 0 }) hstate hdone h rfl
        refine ⟨ho, e ++ t, rest', by rw [append_assoc], ?_⟩
        rw [decide_eq_true hlen]
        exact .next he ht
    cases w with
    | nil =>
      rw [chunkRun, Prod.mk.injEq, Option.some.injEq] at h
      rw [← h.2, hdone] at hdone'
      exact absurd hdone' (by simp)
    | cons c w =>
      by_cases hlf : c = 10
      · exact hend [10] w (.inl rfl) (by rw [hlf]; rfl)
      by_cases hcr : c = 13
      · cases w with
        | nil =>
          rw [chunkRun_framing hdone (by rw [hstate]; decide), framingByte] at h
          simp only [hstate, if_pos hcr, chunkRun, Prod.mk.injEq, Option.some.injEq] at h
          rw [← h.2] at hdone'
          exact absurd (hdone'.symm.trans hdone) (by simp)
        | cons d w =>
          by_cases hd : d = 10
          · exact hend [13, 10] w (.inr rfl) (by rw [hcr, hd]; rfl)
          · rw [chunkRun_framing hdone (by rw [hstate]; decide), framingByte] at h
            simp only [hstate, if_pos hcr] at h
            rw [chunkRun_framing (s := { s with state := .trailerLf }) hdone (by simp),
              framingByte] at h
            simp [hd] at h
      · rw [chunkRun_trailerChar hstate hdone hcr hlf] at h
        obtain ⟨ho, t, rest, rfl, ht⟩ := ih w.length (by rw [← hn]; simp)
          (s := { s with trailerLineLen := s.trailerLineLen + 1 }) hstate hdone h rfl
        rw [decide_eq_true (by simp)] at ht
        exact ⟨ho, c :: t, rest, rfl, .char hcr hlf ht⟩

/-- The state in front of a size line. -/
structure Ready (s : ChunkState) : Prop where
  state : s.state = .size
  sizeAcc : s.sizeAcc = 0
  hasDigit : s.hasDigit = false
  inExtension : s.inExtension = false
  done : s.done = false

theorem ready_zero : Ready ChunkState.zero := ⟨rfl, rfl, rfl, rfl, rfl⟩

theorem Ready.sizeLine (h : Ready s) (rest : List UInt8) {l : List UInt8} (hl : Text l) (he : Eol e) :
    chunkRun s (l ++ (e ++ rest)) = ([], none) ∨
      ∃ n, SizeLine (l ++ e) n ∧ chunkRun s (l ++ (e ++ rest)) = chunkRun (afterSize s n) rest := by
  rcases chunkRun_sizeLine rest h.state h.done hl he with hrun | ⟨n, hn, hrun⟩
  · exact .inl hrun
  · rw [h.sizeAcc, h.hasDigit, h.inExtension] at hn
    exact .inr ⟨n, ⟨l, e, rfl, hl, he, sizeFrom_line.1 hn⟩, hrun⟩

theorem Ready.payload (h : Ready s) (rest : List UInt8) {bytes : List UInt8} (hne : bytes ≠ []) :
    chunkRun (afterSize s bytes.length) (bytes ++ rest) =
        (bytes ++ (chunkRun ((afterSize s bytes.length).advance bytes.length) rest).1,
          (chunkRun ((afterSize s bytes.length).advance bytes.length) rest).2) ∧
      ((afterSize s bytes.length).advance bytes.length).state = .dataLf ∧
      Ready { (afterSize s bytes.length).advance bytes.length with state := .size } := by
  have hlen : bytes.length ≠ 0 := fun h0 => hne (length_eq_zero_iff.1 h0)
  have hafter : afterSize s bytes.length = { s with
      remaining := bytes.length
      sizeAcc := 0
      hasDigit := false
      inExtension := false
      state := .data } := by rw [afterSize, if_neg hlen]
  rw [hafter]
  refine ⟨chunkRun_data rfl h.done hne le_rfl, ?_, ⟨rfl, rfl, rfl, rfl, h.done⟩⟩
  simp [ChunkState.advance]

theorem Ready.sizeLine_of (h : Ready s) (rest : List UInt8) {line : List UInt8}
    (hline : SizeLine line n) : chunkRun s (line ++ rest) = ([], none) ∨
      chunkRun s (line ++ rest) = chunkRun (afterSize s n) rest := by
  obtain ⟨l, e, rfl, hl, he, hne, hn⟩ := hline
  rw [append_assoc]
  rcases chunkRun_sizeLine rest h.state h.done hl he with hrun | ⟨m, hm, hrun⟩
  · exact .inl hrun
  · rw [h.sizeAcc, h.hasDigit, h.inExtension, sizeFrom_line.2 ⟨hne, hn⟩, Option.some.injEq] at hm
    exact .inr (hm ▸ hrun)

variable (rest) in
theorem chunkRun_chunkedBody {p : List UInt8} (hbody : ChunkedBody w p) (h : Ready s) :
    (chunkRun s (w ++ rest)).2 = none ∨
      ∃ s', chunkRun s (w ++ rest) = (p, some s') ∧ s'.done = true := by
  induction hbody generalizing s with
  | @last line t hline ht =>
    rw [append_assoc]
    rcases h.sizeLine_of _ hline with hrun | hrun
    · exact .inl (by rw [hrun])
    · rw [hrun]
      exact .inr (chunkRun_trailer ht rfl h.done (by simp [afterSize]))
  | @chunk line bytes w p k hline hne hrest ih =>
    rw [append_assoc]
    rcases h.sizeLine_of _ hline with hrun | hrun
    · exact .inl (by rw [hrun])
    · have hassoc : bytes ++ (List.replicate k 13 ++ 10 :: w) ++ rest =
          bytes ++ (List.replicate k 13 ++ 10 :: (w ++ rest)) := by simp
      obtain ⟨hdata, hstate, hready⟩ :=
        h.payload (List.replicate k 13 ++ 10 :: (w ++ rest)) hne
      rw [hrun, hassoc, hdata, chunkRun_dataEnd k _ hstate hready.done]
      rcases ih hready with hnone | ⟨s', hsome, hdone⟩
      · exact .inl hnone
      · exact .inr ⟨s', by rw [hsome], hdone⟩

theorem exists_chunkedBody (h : Ready s) (hrun : chunkRun s w = (o, some s'))
    (hdone : s'.done = true) : ∃ w' rest, w = w' ++ rest ∧ ChunkedBody w' o := by
  induction hn : w.length using Nat.strong_induction_on generalizing s w o with
  | _ n ih =>
    obtain ⟨l, e, rest, rfl, hl, he⟩ := exists_sizeLine h.state h.done hrun hdone
    rcases h.sizeLine rest hl he with hrun' | ⟨m, hline, hrun'⟩
    · rw [hrun'] at hrun
      exact absurd hrun (by simp)
    rw [hrun'] at hrun
    by_cases hm : m = 0
    · -- the last chunk
      subst hm
      obtain ⟨rfl, t, rest', rfl, ht⟩ := exists_trailer (s := afterSize s 0) rfl h.done hrun hdone
      exact ⟨l ++ e ++ t, rest', by simp, .last hline ht⟩
    · by_cases hlen : m ≤ rest.length
      · -- the data is there
        have htake : (rest.take m).length = m := length_take_of_le hlen
        have hne : rest.take m ≠ [] := by
          rw [← length_pos_iff, htake]
          exact Nat.pos_of_ne_zero hm
        obtain ⟨hdata, hstate, hready⟩ := h.payload (rest.drop m) hne
        rw [htake, take_append_drop] at hdata
        rw [htake] at hstate hready
        rw [hdata, Prod.mk.injEq] at hrun
        obtain ⟨rfl, hrun⟩ := hrun
        have hpair := Prod.ext (x := chunkRun ((afterSize s m).advance m) (rest.drop m))
          (y := (_, some s')) rfl hrun
        obtain ⟨k, rest', hsplit⟩ := exists_dataEnd hstate hready.done hpair hdone
        have hend := chunkRun_dataEnd k rest' hstate hready.done
        rw [← hsplit] at hend
        rw [hend] at hpair ⊢
        have hlt : rest'.length < n := by
          have hlength := congrArg List.length hsplit
          simp only [length_drop, length_append, length_replicate,
            length_cons] at hlength
          rw [← hn]
          simp only [length_append]
          omega
        obtain ⟨w', rest'', rfl, hbody⟩ := ih _ hlt hready hpair rfl
        refine ⟨l ++ e ++ (rest.take m ++ (List.replicate k 13 ++ 10 :: w')), rest'', ?_,
          .chunk (htake.symm ▸ hline) hne hbody⟩
        conv_lhs => rw [← take_append_drop m rest, hsplit]
        simp
      · -- the input ends inside of the data
        have hnot : ∃ s₁, (chunkRun (afterSize s m) rest).2 = some s₁ ∧ s₁.done = false := by
          cases rest with
          | nil => exact ⟨afterSize s m, rfl, by rw [afterSize, if_neg hm]; exact h.done⟩
          | cons c rest =>
            have hrun := @chunkRun_data (afterSize s m) [] (c :: rest)
              (by rw [afterSize, if_neg hm]) (by rw [afterSize, if_neg hm]; exact h.done)
              (by simp) (by rw [afterSize, if_neg hm]; exact Nat.le_of_not_le hlen)
            rw [append_nil] at hrun
            refine ⟨(afterSize s m).advance (c :: rest).length, by rw [hrun]; rfl, ?_⟩
            rw [afterSize, if_neg hm]
            exact h.done
        obtain ⟨s₁, hs₁, hnot⟩ := hnot
        rw [hrun, Option.some.injEq] at hs₁
        rw [hs₁, hnot] at hdone
        exact absurd hdone (by simp)

end Cleonos.Wget
