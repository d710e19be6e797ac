import Cleonos.Browser.Streams
import Cleonos.Wget.Complete

/-!
# Streaming and decoding at once

A chunked encoding is read in two ways: byte for byte in pieces as they arrive, and all at once
from a buffer.
-/

namespace Cleonos.Wget

open List Option
open Stdio (Device Working)
open Browser (Chunk Stream chunkSize crlf crlfIndex decodeBody decodeBody_stream hexValue sizeLoop)

variable {s s' : ChunkState} {line digits l rest : List UInt8} {n acc : ℕ} {c : UInt8}

/-! ## Encodings -/

/-- A size line: digits between blanks, and what follows a semicolon. -/
structure Spells (line : List UInt8) (n : ℕ) : Prop where
  split : ∃ front digits back ext, line = front ++ (digits ++ (back ++ ext)) ∧
    (∀ c ∈ front ++ back, isBlank c = true) ∧ digits ≠ [] ∧ hexNumber 0 digits = some n ∧
    (ext = [] ∨ ∃ text, ext = 59 :: text ∧ Text text)

/-- A piece of the body, and the line with its size. -/
structure Piece where
  line : List UInt8
  data : List UInt8
  data_ne_nil : data ≠ []
  spells : Spells line data.length

def Piece.bytes (p : Piece) : List UInt8 := p.line ++ (crlf ++ (p.data ++ crlf))

/-- A body in chunks: the pieces, the line of the last chunk, and the lines of the trailer. -/
structure Encoding where
  pieces : List Piece
  line : List UInt8
  trailers : List (List UInt8)
  spells : Spells line 0
  trailers_text : ∀ t ∈ trailers, t ≠ [] ∧ Text t

namespace Encoding

open List Option

/-- The bytes in front of the empty line at the end. -/
def front (e : Encoding) : List UInt8 :=
  e.pieces.flatMap Piece.bytes ++ (e.line ++ (crlf ++ e.trailers.flatMap (· ++ crlf)))

def bytes (e : Encoding) : List UInt8 := e.front ++ crlf

def body (e : Encoding) : List UInt8 := e.pieces.flatMap Piece.data

end Encoding

theorem hexNumber_cons : hexNumber acc (c :: digits) =
    (hexValue c).bind fun v => hexNumber (acc * 16 + v) digits := by
  rw [hexNumber, foldlM_cons]
  cases hexValue c <;> rfl

theorem hexNumber_ge (h : hexNumber acc digits = some n) : acc ≤ n := by
  induction digits generalizing acc with
  | nil => exact Nat.le_of_eq (Option.some.inj h)
  | cons c digits ih =>
    rw [hexNumber_cons, bind_eq_some_iff] at h
    obtain ⟨v, -, hrest⟩ := h
    have hle := ih hrest
    omega

theorem exists_hexValue (h : hexNumber acc digits = some n) (hc : c ∈ digits) : ∃ v, hexValue c = some v := by
  induction digits generalizing acc with
  | nil => cases hc
  | cons d digits ih =>
    rw [hexNumber_cons, bind_eq_some_iff] at h
    obtain ⟨v, hv, hrest⟩ := h
    rcases mem_cons.mp hc with rfl | hmem
    · exact ⟨v, hv⟩
    · exact ih hrest hmem

theorem digit_ne {v : ℕ} (hv : hexValue c = some v) :
    c ≠ 59 ∧ c ≠ 13 ∧ c ≠ 10 ∧ c ≠ 32 ∧ c ≠ 9 := by
  have hmarks : ∀ d ∈ ([59, 13, 10, 32, 9] : List UInt8), hexValue d = none := by
    simp only [forall_mem_cons]
    exact ⟨rfl, rfl, rfl, rfl, rfl, forall_mem_nil _⟩
  refine ⟨?_, ?_, ?_, ?_, ?_⟩ <;> intro hc <;> rw [hc, hmarks _ (by decide)] at hv <;> cases hv

theorem isBlank_iff (c : UInt8) : isBlank c = true ↔ c = 32 ∨ c = 9 := by
  rw [isBlank, Bool.or_eq_true, decide_eq_true_eq, decide_eq_true_eq]

theorem acc_le_sizeMax {v : ℕ} (h : hexNumber (acc * 16 + v) digits = some n) (hn : n < 2 ^ 64) :
    acc ≤ sizeMax := by
  have hle := hexNumber_ge h
  rw [sizeMax]
  omega

theorem Spells.text (h : Spells line n) : Text line := by
  obtain ⟨front, digits, back, ext, rfl, hblank, -, hn, hext⟩ := h.split
  have hfree {d : UInt8} (hd : d ∈ front ++ back) : d ≠ 13 ∧ d ≠ 10 := by
    rcases (isBlank_iff d).mp (hblank d hd) with rfl | rfl <;> decide
  intro d hd
  rcases mem_append.mp hd with hd | hd
  · exact hfree (mem_append_left back hd)
  rcases mem_append.mp hd with hd | hd
  · obtain ⟨v, hv⟩ := exists_hexValue hn hd
    exact ⟨(digit_ne hv).2.1, (digit_ne hv).2.2.1⟩
  rcases mem_append.mp hd with hd | hd
  · exact hfree (mem_append_right front hd)
  rcases hext with rfl | ⟨text, rfl, htext⟩
  · cases hd
  · rcases mem_cons.mp hd with rfl | hd
    · decide
    · exact htext d hd

theorem sizeFrom_blanks (hblank : ∀ c ∈ line, isBlank c = true) (hasDigit : Bool) :
    sizeFrom (line ++ rest) acc hasDigit false = sizeFrom rest acc hasDigit false := by
  induction line with
  | nil => rfl
  | cons c line ih =>
    have hc := (isBlank_iff c).mp (hblank c mem_cons_self)
    have hmark : c ≠ 59 := by rcases hc with rfl | rfl <;> decide
    rw [cons_append, sizeFrom, if_neg hmark, if_pos (.inr hc)]
    exact ih fun d hd => hblank d (mem_cons_of_mem c hd)

theorem sizeFrom_digits (h : hexNumber acc digits = some n) (hasDigit : Bool)
    (hne : hasDigit = true ∨ digits ≠ []) :
    sizeFrom (digits ++ rest) acc hasDigit false = sizeFrom rest n true false := by
  induction digits generalizing acc hasDigit with
  | nil =>
    cases h
    rcases hne with rfl | hne
    · rfl
    · exact absurd rfl hne
  | cons c digits ih =>
    rw [hexNumber_cons, bind_eq_some_iff] at h
    obtain ⟨v, hv, hrest⟩ := h
    obtain ⟨hmark, -, -, hspace, htab⟩ := digit_ne hv
    rw [cons_append, sizeFrom, if_neg hmark, if_neg (by simp [hspace, htab]), hv, bind_some]
    exact ih hrest true (.inl rfl)

theorem Spells.sizeFrom (h : Spells line n) : sizeFrom line 0 false false = some n := by
  obtain ⟨front, digits, back, ext, rfl, hblank, hne, hn, hext⟩ := h.split
  rw [sizeFrom_blanks (fun c hc => hblank c (mem_append_left back hc)),
    sizeFrom_digits hn false (.inr hne),
    sizeFrom_blanks (fun c hc => hblank c (mem_append_right front hc))]
  rcases hext with rfl | ⟨text, rfl, -⟩
  · rfl
  · rw [Wget.sizeFrom, if_pos rfl]
    exact sizeFrom_extension text n

theorem sizeFrom_ge {hasDigit inExtension : Bool} (h : sizeFrom l acc hasDigit inExtension = some n) : acc ≤ n := by
  fun_induction sizeFrom l acc hasDigit inExtension with
  | case1 => exact Nat.le_of_eq (Option.some.inj h)
  | case2 => cases h
  | case3 acc inExtension l ih => exact ih h
  | case4 => cases h
  | case5 acc hasDigit inExtension c l hmark hskip ih => exact ih h
  | case6 acc hasDigit inExtension c l hmark hskip ih =>
    rw [bind_eq_some_iff] at h
    obtain ⟨v, -, hrest⟩ := h
    have hle := ih v hrest
    omega

theorem chunkRun_size (rest : List UInt8) (hstate : s.state = .size) (hdone : s.done = false) (hl : Text l)
    (hn : sizeFrom l s.sizeAcc s.hasDigit s.inExtension = some n) (hword : n < 2 ^ 64) :
    chunkRun s (l ++ (crlf ++ rest)) = chunkRun (afterSize s n) rest := by
  induction l generalizing s with
  | nil =>
    have heol : Eol crlf := .inr rfl
    rw [nil_append, chunkRun_sizeEol hstate hdone heol]
    rw [sizeFrom] at hn
    split at hn
    · rename_i hdigit
      rw [if_pos hdigit, Option.some.inj hn]
    · cases hn
  | cons c l ih =>
    obtain ⟨hcr, hlf⟩ := hl c mem_cons_self
    rw [cons_append, chunkRun_framing hdone (by rw [hstate]; decide)]
    have hbyte : framingByte s c ≠ none := by
      simp only [framingByte, hstate, if_neg hcr, if_neg hlf]
      rw [sizeFrom] at hn
      split
      · rename_i hmark
        rw [if_pos hmark] at hn
        split
        · rename_i hdigit
          rw [if_neg (by simp [hdigit])] at hn
          cases hn
        · simp
      · rename_i hmark
        rw [if_neg hmark] at hn
        split
        · simp
        · rename_i hskip
          rw [if_neg hskip, bind_eq_some_iff] at hn
          obtain ⟨v, hv, hrest⟩ := hn
          have hle := sizeFrom_ge hrest
          simp only [hv]
          rw [if_neg]
          · simp
          · rw [sizeMax]
            omega
    obtain ⟨s', hs'⟩ := ne_none_iff_exists'.mp hbyte
    obtain ⟨⟨hstate', hdone', hafter⟩, hsize⟩ := framingByte_size hstate hcr hlf hs'
    rw [hs', ← hafter]
    exact ih hstate' (hdone'.trans hdone) (fun d hd => hl d (mem_cons_of_mem c hd)) (by rw [← hsize l, hn])

theorem Ready.spells (h : Ready s) (hline : Spells line n) (hword : n < 2 ^ 64) (rest : List UInt8) :
    chunkRun s (line ++ (crlf ++ rest)) = chunkRun (afterSize s n) rest := by
  apply chunkRun_size rest h.state h.done hline.text _ hword
  rw [h.sizeAcc, h.hasDigit, h.inExtension]
  exact hline.sizeFrom

/-- What is in front of `rest` is read, with the output `o`, and leaves the state `s'`. -/
def Reads (s : ChunkState) (w o : List UInt8) (s' : ChunkState) : Prop :=
  ∀ rest, chunkRun s (w ++ rest) = (o ++ (chunkRun s' rest).1, (chunkRun s' rest).2)

theorem Reads.trans {w w' o o' : List UInt8} {s'' : ChunkState} (h : Reads s w o s') (h' : Reads s' w' o' s'') :
    Reads s (w ++ w') (o ++ o') s'' := by
  intro rest
  rw [append_assoc, h, h', append_assoc]

theorem reads_pieces (h : Ready s) (pieces : List Piece) (hword : ∀ p ∈ pieces, p.data.length < 2 ^ 64) :
    ∃ s', Ready s' ∧ Reads s (pieces.flatMap Piece.bytes) (pieces.flatMap Piece.data) s' := by
  induction pieces generalizing s with
  | nil => exact ⟨s, h, fun rest => rfl⟩
  | cons p pieces ih =>
    have hready := (h.payload [] p.data_ne_nil).2.2
    obtain ⟨s', hs', hreads⟩ := ih hready fun q hq => hword q (mem_cons_of_mem p hq)
    refine ⟨s', hs', Reads.trans (fun rest => ?_) hreads⟩
    obtain ⟨hdata, hstate, -⟩ := h.payload (crlf ++ rest) p.data_ne_nil
    have hend := chunkRun_dataEnd 1 rest hstate hready.done
    rw [Piece.bytes, append_assoc, append_assoc, append_assoc,
      h.spells p.spells (hword p mem_cons_self), hdata]
    change (p.data ++ (chunkRun _ (List.replicate 1 13 ++ 10 :: rest)).1,
      (chunkRun _ (List.replicate 1 13 ++ 10 :: rest)).2) = _
    rw [hend]

/-- The state in front of a line of the trailer. -/
structure InTrailer (s : ChunkState) : Prop where
  state : s.state = .trailer
  empty : s.trailerLineLen = 0
  done : s.done = false

theorem reads_trailerText (hstate : s.state = .trailer) (hdone : s.done = false) (hl : Text l) :
    Reads s l [] { s with trailerLineLen := s.trailerLineLen + l.length } := by
  intro rest
  induction l generalizing s with
  | nil => rfl
  | cons c l ih =>
    obtain ⟨hcr, hlf⟩ := hl c mem_cons_self
    have hrun := ih (s := { s with trailerLineLen := s.trailerLineLen + 1 }) hstate hdone
      fun d hd => hl d (mem_cons_of_mem c hd)
    rw [cons_append, chunkRun_trailerChar hstate hdone hcr hlf, hrun, length_cons,
      Nat.add_assoc, Nat.add_comm 1]

theorem reads_trailers (h : InTrailer s) {trailers : List (List UInt8)}
    (htext : ∀ t ∈ trailers, t ≠ [] ∧ Text t) : Reads s (trailers.flatMap (· ++ crlf)) [] s := by
  induction trailers with
  | nil => exact fun rest => rfl
  | cons t trailers ih =>
    obtain ⟨hne, ht⟩ := htext t mem_cons_self
    refine Reads.trans (o := []) (fun rest => ?_) (ih fun u hu => htext u (mem_cons_of_mem t hu))
    have hlen : s.trailerLineLen + t.length ≠ 0 := by
      have hpos := length_pos_of_ne_nil hne
      omega
    have heol := chunkRun_trailerEol (s := { s with trailerLineLen := s.trailerLineLen + t.length }) rest
      h.state h.done (.inr rfl : Eol crlf)
    rw [append_assoc, reads_trailerText h.state h.done ht]
    rcases heol with ⟨hzero, -⟩ | ⟨-, hrun⟩
    · exact absurd hzero hlen
    · have hsame : { s with trailerLineLen := 0 } = s := by rw [← h.empty]
      rw [hrun, hsame]

theorem inTrailer_afterSize (h : Ready s) : InTrailer (afterSize s 0) := ⟨rfl, rfl, h.done⟩

variable (e : Encoding)

theorem data_lt_word (hlen : e.bytes.length < 2 ^ 64) : ∀ p ∈ e.pieces, p.data.length < 2 ^ 64 := by
  intro p hp
  have hsub : p.bytes.length ≤ (e.pieces.flatMap Piece.bytes).length := by
    obtain ⟨before, behind, hsplit⟩ := append_of_mem hp
    rw [hsplit, flatMap_append, flatMap_cons, length_append, length_append]
    omega
  have hpiece : p.data.length ≤ p.bytes.length := by
    rw [Piece.bytes, length_append, length_append, length_append]
    omega
  rw [Encoding.bytes, Encoding.front, length_append, length_append] at hlen
  omega

theorem reads_front (hlen : e.bytes.length < 2 ^ 64) :
    ∃ s, InTrailer s ∧ Reads .zero e.front e.body s := by
  have hword := data_lt_word e hlen
  obtain ⟨s, hs, hreads⟩ := reads_pieces ready_zero e.pieces hword
  refine ⟨afterSize s 0, inTrailer_afterSize hs, ?_⟩
  rw [Encoding.body, ← append_nil (e.pieces.flatMap Piece.data)]
  apply hreads.trans
  intro rest
  rw [append_assoc, append_assoc, hs.spells e.spells (by decide),
    reads_trailers (inTrailer_afterSize hs) e.trailers_text]

theorem run_prefix (hlen : e.bytes.length < 2 ^ 64) {p more : List UInt8}
    (hp : p <+: e.bytes ++ more) : ∃ o s, chunkRun .zero p = (o, some s) ∧ o <+: e.body ∧
      (s.done = true ↔ e.bytes <+: p) ∧ (s.done = true → o = e.body) := by
  obtain ⟨s, hs, hreads⟩ := reads_front e hlen
  have hcr (rest : List UInt8) : chunkRun s (13 :: rest) = chunkRun { s with state := .trailerLf } rest := by
    rw [chunkRun_framing hs.done (by rw [hs.state]; decide), framingByte]
    simp only [hs.state, if_true]
  have hbefore : e.front ++ [13] <+: e.bytes ++ more := ⟨10 :: more, by simp [Encoding.bytes, crlf]⟩
  have hcases : p <+: e.front ++ [13] ∨ e.bytes <+: p := by
    rcases prefix_or_prefix_of_prefix hp hbefore with hshort | ⟨q, hq⟩
    · exact .inl hshort
    · obtain ⟨r, hr⟩ := hp
      have hrest : q ++ r = 10 :: more := by
        have hall : e.front ++ ([13] ++ (q ++ r)) = e.front ++ ([13] ++ 10 :: more) := by
          rw [← append_assoc, ← append_assoc, hq, hr]
          simp [Encoding.bytes, crlf]
        exact append_cancel_left (append_cancel_left hall)
      cases q with
      | nil =>
        rw [append_nil] at hq
        exact .inl ⟨[], by rw [append_nil, hq]⟩
      | cons c q =>
        rw [cons_append, List.cons.injEq] at hrest
        exact .inr ⟨q, by rw [← hq, hrest.1, Encoding.bytes]; simp [crlf]⟩
  rcases hcases with ⟨q, hq⟩ | ⟨q, hq⟩
  · -- what is there ends before the last byte
    have hwhole : chunkRun .zero (p ++ q) = (e.body, some { s with state := .trailerLf }) := by
      rw [hq, hreads, hcr, chunkRun, append_nil]
    rw [chunkRun_append] at hwhole
    have hnot : ¬ e.bytes <+: p := by
      intro hbytes
      have hle := hbytes.length_le
      have hlength := congrArg List.length hq
      rw [Encoding.bytes, length_append] at hle
      rw [length_append, length_append] at hlength
      simp only [crlf, length_cons, length_nil] at hle hlength
      omega
    rcases hrun : chunkRun .zero p with ⟨o, _ | s'⟩
    · rw [hrun] at hwhole
      cases (Prod.mk.inj hwhole).2
    · rw [hrun] at hwhole
      obtain ⟨hout, hstate⟩ := Prod.mk.inj hwhole
      have hopen : s'.done = false := by
        by_contra hdone
        rw [Bool.not_eq_false] at hdone
        rw [chunkRun_done hdone] at hstate
        have hsame := congrArg ChunkState.done (Option.some.inj hstate)
        rw [hdone] at hsame
        exact absurd (hsame.trans hs.done) (by simp)
      refine ⟨o, s', rfl, ⟨_, hout⟩, ?_, ?_⟩
      · rw [hopen]
        exact ⟨fun hfalse => absurd hfalse (by simp), fun h => absurd h hnot⟩
      · rw [hopen]
        intro h
        cases h
  · -- the whole encoding is there
    have heol := chunkRun_trailerEol q hs.state hs.done (.inr rfl : Eol crlf)
    rcases heol with ⟨-, s', hrun, hdone⟩ | ⟨hnot, -⟩
    · refine ⟨e.body, s', ?_, prefix_rfl, ?_, fun _ => rfl⟩
      · rw [← hq, Encoding.bytes, append_assoc, hreads, hrun, append_nil]
      · exact ⟨fun _ => ⟨q, hq⟩, fun _ => hdone⟩
    · exact absurd hs.empty hnot

/-- The pieces of a stream are fed one after the other, until one is refused. -/
def feedAll (f : Feed) : List (List UInt8) → Bool × Feed
  | [] => (true, f)
  | data :: rest =>
    if (chunkedWriteFeed f data).1 then feedAll (chunkedWriteFeed f data).2 rest
    else (false, (chunkedWriteFeed f data).2)

theorem feedAll_spec {f : Feed} (hleft : DataLeft f.chunk) (hsaved : f.saved < 2 ^ 64)
    {cut : List (List UInt8)} {o : List UInt8} (hrun : chunkRun f.chunk cut.flatten = (o, some s)) :
    (Working f.out → (feedAll f cut).1 = true) ∧
      ((feedAll f cut).1 = true → (feedAll f cut).2.chunk = s ∧ (feedAll f cut).2.out.sent = f.out.sent ++ o) := by
  induction cut generalizing f o with
  | nil =>
    obtain ⟨ho, hs⟩ := Prod.mk.inj hrun
    refine ⟨fun _ => rfl, fun _ => ⟨Option.some.inj hs, ?_⟩⟩
    rw [← ho, append_nil]
    rfl
  | cons data cut ih =>
    obtain ⟨hfd, hanswers, hsome, hnone⟩ := @feedLoop_spec data (2 * data.length + 1) f
      hleft hsaved (by omega)
    have hfeed : feedLoop (2 * data.length + 1) f data = chunkedWriteFeed f data := rfl
    rw [hfeed] at hfd hanswers hsome hnone
    rw [flatten_cons, chunkRun_append] at hrun
    rw [feedAll]
    by_cases hok : (chunkedWriteFeed f data).1 = true
    · obtain ⟨hchunk, hsent, hsaved', hleft'⟩ := hsome hok
      rw [if_pos hok]
      rcases hfirst : chunkRun f.chunk data with ⟨o₁, s₁⟩
      rw [hfirst] at hchunk hsent hrun hsaved'
      simp only at hchunk
      subst hchunk
      obtain ⟨ho, hs⟩ := Prod.mk.inj hrun
      have hsaved'' : (chunkedWriteFeed f data).2.saved < 2 ^ 64 := by
        rw [hsaved']
        exact addSaved_lt _ _
      obtain ⟨hall, hdone⟩ := ih hleft' hsaved'' (Prod.ext rfl hs)
      refine ⟨fun hw => hall (working_congr hw hfd hanswers), fun htrue => ?_⟩
      obtain ⟨hchunk, hsent'⟩ := hdone htrue
      refine ⟨hchunk, ?_⟩
      rw [hsent', ← ho, ← append_assoc]
      exact congrArg (· ++ _) hsent
    · rw [if_neg hok]
      refine ⟨fun hw => ?_, fun htrue => by cases htrue⟩
      have hrefused := (hnone hw (by simpa using hok)).1
      rcases hfirst : chunkRun f.chunk data with ⟨o₁, s₁⟩
      rw [hfirst] at hrefused hrun
      simp only at hrefused
      subst hrefused
      cases (Prod.mk.inj hrun).2

/-! ## Decoding at once -/

theorem crlfIndex_text (hl : Text l) : crlfIndex l = none := by
  induction l with
  | nil => rfl
  | cons c l ih =>
    have hcr := (hl c mem_cons_self).1
    rw [crlfIndex, if_neg (fun h => hcr h.1), ih fun d hd => hl d (mem_cons_of_mem c hd)]
    rfl

theorem sizeLoop_blanks (hblank : ∀ c ∈ line, isBlank c = true) :
    sizeLoop (line ++ rest) 0 false = sizeLoop rest 0 false := by
  induction line with
  | nil => rfl
  | cons c line ih =>
    have hc := (isBlank_iff c).mp (hblank c mem_cons_self)
    have hmark : c ≠ 59 := by rcases hc with rfl | rfl <;> decide
    rw [cons_append, sizeLoop, if_neg hmark, if_pos hc, if_neg (by simp)]
    exact ih fun d hd => hblank d (mem_cons_of_mem c hd)

theorem sizeLoop_digits (h : hexNumber acc digits = some n) (hword : n < 2 ^ 64) (hasDigit : Bool)
    (hne : hasDigit = true ∨ digits ≠ []) (hend : rest = [] ∨ ∃ c tail, rest = c :: tail ∧ (c = 59 ∨ isBlank c = true)) :
    sizeLoop (digits ++ rest) acc hasDigit = some (n, true) := by
  induction digits generalizing acc hasDigit with
  | nil =>
    cases h
    rcases hne with rfl | hne
    · rcases hend with rfl | ⟨c, tail, rfl, hc⟩
      · rfl
      · rw [nil_append, sizeLoop]
        rcases hc with rfl | hblank
        · rw [if_pos rfl]
        · have hc := (isBlank_iff c).mp hblank
          have hmark : c ≠ 59 := by rcases hc with rfl | rfl <;> decide
          rw [if_neg hmark, if_pos hc, if_pos rfl]
    · exact absurd rfl hne
  | cons c digits ih =>
    rw [hexNumber_cons, bind_eq_some_iff] at h
    obtain ⟨v, hv, hrest⟩ := h
    obtain ⟨hmark, -, -, hspace, htab⟩ := digit_ne hv
    have hmax : ¬ acc > Browser.sizeMax := Nat.not_lt.mpr (acc_le_sizeMax hrest hword)
    rw [cons_append, sizeLoop, if_neg hmark, if_neg (by simp [hspace, htab]), hv]
    simp only
    rw [if_neg hmax]
    exact ih hrest true (.inl rfl)

theorem Spells.chunkSize (h : Spells line n) (hword : n < 2 ^ 64) : chunkSize line = some n := by
  obtain ⟨front, digits, back, ext, rfl, hblank, hne, hn, hext⟩ := h.split
  have hend : back ++ ext = [] ∨ ∃ c tail, back ++ ext = c :: tail ∧ (c = 59 ∨ isBlank c = true) := by
    cases back with
    | nil =>
      rcases hext with rfl | ⟨text, rfl, -⟩
      · exact .inl rfl
      · exact .inr ⟨59, text, rfl, .inl rfl⟩
    | cons c back =>
      exact .inr ⟨c, back ++ ext, rfl, .inr (hblank c (mem_append_right front mem_cons_self))⟩
  rw [Browser.chunkSize, sizeLoop_blanks (fun c hc => hblank c (mem_append_left back hc)),
    sizeLoop_digits hn hword false (.inr hne) hend]

/-- A piece, as the browser takes it. -/
def Piece.chunk (p : Piece) (hword : p.data.length < 2 ^ 64) : Chunk :=
  ⟨p.line, p.data, p.data_ne_nil, crlfIndex_text p.spells.text, p.spells.chunkSize hword⟩

theorem exists_stream (hlen : e.bytes.length < 2 ^ 64) :
    ∃ stream : Stream, stream.bytes = e.bytes ∧ stream.body = e.body := by
  have hpieces (pieces : List Piece) (hword : ∀ p ∈ pieces, p.data.length < 2 ^ 64) :
      ∃ chunks : List Chunk, chunks.flatMap Chunk.bytes = pieces.flatMap Piece.bytes ∧
        chunks.flatMap Chunk.data = pieces.flatMap Piece.data := by
    induction pieces with
    | nil => exact ⟨[], rfl, rfl⟩
    | cons p pieces ih =>
      obtain ⟨chunks, hbytes, hdata⟩ := ih fun q hq => hword q (mem_cons_of_mem p hq)
      refine ⟨p.chunk (hword p mem_cons_self) :: chunks, ?_, ?_⟩
      · rw [flatMap_cons, flatMap_cons, hbytes]
        rfl
      · rw [flatMap_cons, flatMap_cons, hdata]
        rfl
  obtain ⟨chunks, hbytes, hdata⟩ := hpieces e.pieces (data_lt_word e hlen)
  refine ⟨{
    chunks
    line := e.line
    trailers := e.trailers
    line_crlf := crlfIndex_text e.spells.text
    line_size := e.spells.chunkSize (by decide)
    trailers_crlf := fun t ht => ⟨(e.trailers_text t ht).1, crlfIndex_text (e.trailers_text t ht).2⟩ }, ?_, hdata⟩
  rw [Stream.bytes, hbytes, Stream.ending, Stream.trailerBytes, Encoding.bytes, Encoding.front]
  simp only [append_assoc]

/-- An encoding that is cut into pieces in any way, with anything behind it: on a file that takes
the writes no piece is refused; the reader is done exactly when it has the whole encoding, and has
written a beginning of the body until then, and the body when it is done; and the decoder of the
browser, if it has room for the body, gives that body, or refuses an empty one. -/
theorem streaming_agrees (e : Encoding) (hlen : e.bytes.length < 2 ^ 64) (out : Device)
    {cut : List (List UInt8)} {more : List UInt8} (hcut : cut.flatten <+: e.bytes ++ more) :
    (Working out → (feedAll ⟨.zero, out, 0⟩ cut).1 = true) ∧
    ((feedAll ⟨.zero, out, 0⟩ cut).1 = true →
      ((feedAll ⟨.zero, out, 0⟩ cut).2.chunk.done = true ↔ e.bytes <+: cut.flatten) ∧
      (∃ o, (feedAll ⟨.zero, out, 0⟩ cut).2.out.sent = out.sent ++ o ∧ o <+: e.body) ∧
      ((feedAll ⟨.zero, out, 0⟩ cut).2.chunk.done = true →
        (feedAll ⟨.zero, out, 0⟩ cut).2.out.sent = out.sent ++ e.body)) ∧
    ∀ cap, e.body.length < cap →
      decodeBody cap e.bytes = if e.body = [] then none else some e.body := by
  refine ⟨?_, ?_, ?_⟩
  · obtain ⟨o, s, hrun, -, -, -⟩ := run_prefix e hlen hcut
    exact (feedAll_spec (f := ⟨.zero, out, 0⟩) (by intro h; cases h) (Nat.two_pow_pos 64) hrun).1
  · intro htrue
    obtain ⟨o, s, hrun, hprefix, hdone, hbody⟩ := run_prefix e hlen hcut
    obtain ⟨hchunk, hsent⟩ :=
      (feedAll_spec (f := ⟨.zero, out, 0⟩) (by intro h; cases h) (Nat.two_pow_pos 64) hrun).2 htrue
    rw [hchunk, hsent]
    exact ⟨hdone, ⟨o, rfl, hprefix⟩, fun h => by rw [hbody h]⟩
  · intro cap hcap
    obtain ⟨stream, hbytes, hstream⟩ := exists_stream e hlen
    have hdecode := @decodeBody_stream stream [] cap (by rw [hstream]; exact hcap)
    rw [append_nil, hbytes, hstream] at hdecode
    exact hdecode

theorem letter_ne_nil : lit "a" ≠ [] := by decide

/-- One letter, with an extension and a trailer. -/
def letterEncoding : Encoding where
  pieces := [⟨lit " 01 ;x=y", lit "a", letter_ne_nil,
    ⟨lit " ", lit "01", lit " ", lit ";x=y", by decide, List.all_eq_true.1 rfl, by decide,
      by decide, .inr ⟨lit "x=y", by decide, @of_decide_eq_true _ (List.decidableBAll _ _) rfl⟩⟩⟩]
  line := lit "0"
  trailers := [lit "t:u"]
  spells := ⟨[], lit "0", [], [], by decide, List.all_eq_true.1 rfl, by decide, by decide,
    .inl rfl⟩
  trailers_text := by
    intro t ht
    rw [List.mem_singleton.mp ht]
    exact ⟨by decide, @of_decide_eq_true _ (List.decidableBAll _ _) rfl⟩

theorem streaming_agrees_letter :
    (feedAll ⟨.zero, slowFile, 0⟩ [letterEncoding.bytes.take 13, letterEncoding.bytes.drop 13]).1 = true ∧
      decodeBody 2 letterEncoding.bytes = some (lit "a") := by
  have hcut : [letterEncoding.bytes.take 13, letterEncoding.bytes.drop 13].flatten <+:
      letterEncoding.bytes ++ [] := by
    rw [flatten_cons, flatten_cons, flatten_nil, append_nil, append_nil,
      take_append_drop]
  obtain ⟨hfed, -, hdecode⟩ := streaming_agrees letterEncoding (by decide +kernel) slowFile hcut
  exact ⟨hfed working_slowFile, hdecode 2 (by decide +kernel)⟩

/-- The decoder takes a size line with a letter behind the digits that the reader refuses. -/
theorem stray_letter_decoded : ¬ ∀ (w body : List UInt8) (cap : ℕ) (out : Device) (cut : List (List UInt8)),
    decodeBody cap w = some body → Working out → cut.flatten = w →
      (feedAll ⟨.zero, out, 0⟩ cut).2.out.sent = out.sent ++ body := by
  intro h
  have hsent := h (lit "1x\r\na\r\n0\r\n\r\n") (lit "a") 99 slowFile [lit "1x\r\na\r\n0\r\n\r\n"] (by decide +kernel)
    working_slowFile (by decide +kernel)
  have hnothing : (feedAll ⟨.zero, slowFile, 0⟩ [lit "1x\r\na\r\n0\r\n\r\n"]).2.out.sent = [] := by decide +kernel
  rw [hnothing] at hsent
  cases hsent

end Cleonos.Wget
