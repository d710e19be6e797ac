import Cleonos.Wget.Chunks

/-!
# The body

What the receive loop saves depends on the bytes of the body, and not on the reads they come in.
-/

namespace Cleonos.Wget

open List
open Stdio (Device Working)

/-! ## The bytes of a body -/

/-- There is more to come, the body is complete, or it is invalid; and what is saved. -/
inductive Progress
  | more (file : List UInt8)
  | complete (file : List UInt8)
  | broken (file : List UInt8)
  deriving DecidableEq, Repr

def bodyOf (f : Framing) (p : List UInt8) : Progress :=
  if f.isChunked then
    match chunkRun ChunkState.zero p with
    | (file, none) => .broken file
    | (file, some s) => if s.done then .complete file else .more file
  else
    match f.contentLength with
    | some n => if p ≠ [] ∧ n ≤ p.length then .complete (p.take n) else .more p
    | none => .more p

variable {f : Framing} {start : Device} {t t' : Transfer} {p q bytes file : List UInt8} {n : ℕ}

theorem bodyOf_chunked (hf : f.isChunked = true) : bodyOf f p =
    match chunkRun ChunkState.zero p with
    | (file, none) => .broken file
    | (file, some s) => if s.done then .complete file else .more file := if_pos hf

theorem bodyOf_length (hf : f.isChunked = false) (hn : f.contentLength = some n) :
    bodyOf f p = if p ≠ [] ∧ n ≤ p.length then .complete (p.take n) else .more p := by
  rw [bodyOf, if_neg (by simp [hf]), hn]

theorem bodyOf_unframed (hf : f.isChunked = false) (hn : f.contentLength = none) :
    bodyOf f p = .more p := by
  rw [bodyOf, if_neg (by simp [hf]), hn]

theorem bodyOf_nil (f : Framing) : bodyOf f [] = .more [] := by
  cases hf : f.isChunked
  · cases hn : f.contentLength with
    | none => exact bodyOf_unframed hf hn
    | some n => rw [bodyOf_length hf hn, if_neg (fun h => h.1 rfl)]
  · rw [bodyOf_chunked hf]
    rfl

theorem bodyOf_append_complete (q : List UInt8) (h : bodyOf f p = .complete file) :
    bodyOf f (p ++ q) = .complete file := by
  cases hf : f.isChunked
  · cases hn : f.contentLength with
    | none =>
      rw [bodyOf_unframed hf hn] at h
      cases h
    | some n =>
      rw [bodyOf_length hf hn] at h ⊢
      split at h
      case isFalse => cases h
      case isTrue hc =>
        have hle : n ≤ (p ++ q).length := by
          rw [length_append]
          exact Nat.le_trans hc.2 (Nat.le_add_right _ _)
        rw [if_pos ⟨fun h0 => hc.1 (append_eq_nil_iff.1 h0).1, hle⟩,
          take_append_of_le_length hc.2]
        exact h
  · rw [bodyOf_chunked hf] at h ⊢
    rw [chunkRun_append]
    rcases hrun : chunkRun ChunkState.zero p with ⟨o, _ | s⟩
    · rw [hrun] at h
      cases h
    · rw [hrun] at h
      dsimp only at h ⊢
      split at h
      case isFalse => cases h
      case isTrue hdone =>
        rw [chunkRun_done hdone, append_nil]
        dsimp only
        rw [if_pos hdone]
        exact h

theorem bodyOf_append_broken (q : List UInt8) (h : bodyOf f p = .broken file) :
    bodyOf f (p ++ q) = .broken file := by
  cases hf : f.isChunked
  · cases hn : f.contentLength with
    | none =>
      rw [bodyOf_unframed hf hn] at h
      cases h
    | some n =>
      rw [bodyOf_length hf hn] at h
      split at h <;> cases h
  · rw [bodyOf_chunked hf] at h ⊢
    rw [chunkRun_append]
    rcases hrun : chunkRun ChunkState.zero p with ⟨o, _ | s⟩
    · rw [hrun] at h
      exact h
    · rw [hrun] at h
      dsimp only at h
      split at h <;> cases h

/-- The loop has saved what there is of an unfinished body. -/
structure Holds (start : Device) (p file : List UInt8) (t : Transfer) : Prop where
  fd : t.out.fd = start.fd
  answers : t.out.answers = start.answers
  headerDone : t.headerDone = true
  more : bodyOf t.framing p = .more file
  sent : t.out.sent = start.sent ++ file
  saved : t.saved = addSaved 0 file.length
  chunk : t.framing.isChunked = true →
    chunkRun ChunkState.zero p = (file, some t.chunk) ∧ t.chunk.done = false ∧ DataLeft t.chunk
  bound : ∀ n, t.framing.contentLength = some n → n < 2 ^ 64

/-- What a round does when it has led to the bytes `p` of the body.  A write fails only on a file
that does not take every write. -/
def Reaches (start : Device) (f : Framing) (p : List UInt8) (flow : Flow) : Prop :=
  (¬ Working start ∧ ∃ t, flow = .stop false t) ∨
  match bodyOf f p with
  | .more file => ∃ t, flow = .go t ∧ t.framing = f ∧ Holds start p file t
  | .complete file => ∃ t, flow = .stop true t ∧ t.out.sent = start.sent ++ file
  | .broken file => ∃ t, flow = .stop false t ∧ (Working start → t.out.sent = start.sent ++ file)

theorem addSaved_lt (saved n : ℕ) : addSaved saved n < 2 ^ 64 := Nat.mod_lt _ (by decide)

theorem addSaved_addSaved (a m n : ℕ) : addSaved (addSaved a m) n = addSaved a (m + n) := by
  rw [addSaved, addSaved, addSaved, Nat.mod_add_mod, Nat.add_assoc]

section

variable (h : Holds start p file t)
include h

theorem reaches_saveChunked (hf : t.framing.isChunked = true) :
    Reaches start t.framing (p ++ bytes) (saveChunked t bytes) := by
  obtain ⟨hrun, -, hleft⟩ := h.chunk hf
  have hsavedlt : t.saved < 2 ^ 64 := h.saved ▸ addSaved_lt _ _
  obtain ⟨hfd, hanswers, hok, hfail⟩ := 
    @feedLoop_spec bytes (2 * bytes.length + 1) ⟨t.chunk, t.out, t.saved⟩ hleft hsavedlt (by omega)
  rw [Reaches, bodyOf_chunked hf, chunkRun_append, hrun]
  simp only
  rw [saveChunked, chunkedWriteFeed]
  dsimp only at hfd hanswers hok hfail ⊢
  generalize feedLoop (2 * bytes.length + 1) ⟨t.chunk, t.out, t.saved⟩ bytes = r
    at hfd hanswers hok hfail ⊢
  cases hr : r.1
  · rw [if_pos rfl]
    by_cases hw : Working start
    · obtain ⟨hnone, hsent⟩ := hfail (working_congr hw h.fd h.answers) hr
      rw [hnone]
      refine .inr ⟨_, rfl, fun _ => ?_⟩
      rw [hsent, h.sent, append_assoc]
    · exact .inl ⟨hw, _, rfl⟩
  · rw [if_neg (by simp)]
    obtain ⟨hsome, hsent, hsaved, hleft'⟩ := hok hr
    rw [hsome]
    right
    dsimp only
    cases hdone : r.2.chunk.done
    · rw [if_neg (by simp), if_neg (by simp)]
      refine ⟨_, rfl, rfl, ⟨hfd.trans h.fd, hanswers.trans h.answers, h.headerDone, ?_, ?_, ?_,
        fun _ => ⟨?_, hdone, hleft'⟩, h.bound⟩⟩
      · rw [bodyOf_chunked hf, chunkRun_append, hrun]
        simp only [hsome, hdone]
        rfl
      · rw [hsent, h.sent, append_assoc]
      · rw [hsaved, h.saved, addSaved_addSaved, length_append]
      · rw [chunkRun_append, hrun]
        exact Prod.ext rfl hsome
    · rw [if_pos rfl, if_pos rfl, finish]
      refine ⟨_, by rw [h.headerDone], ?_⟩
      rw [hsent, h.sent, append_assoc]

theorem reaches_saveBytes (hf : t.framing.isChunked = false)
    (hfile : file = p) (hmore : bodyOf t.framing (p ++ bytes) = .more (p ++ bytes)) :
    Reaches start t.framing (p ++ bytes) (saveBytes t bytes) := by
  obtain ⟨hfd, hanswers, hsent, hworking⟩ := writeAll_spec t.out bytes
  rw [Reaches, saveBytes, hmore]
  dsimp only
  cases hok : (writeAll t.out bytes).2
  · rw [if_pos rfl]
    refine .inl ⟨fun hw => ?_, _, rfl⟩
    rw [hworking (working_congr hw h.fd h.answers)] at hok
    cases hok
  · rw [if_neg (by simp)]
    refine .inr ⟨_, rfl, rfl, ⟨hfd.trans h.fd, hanswers.trans h.answers, h.headerDone, hmore, ?_,
      ?_, fun hc => absurd hc (by simp [hf]), h.bound⟩⟩
    · rw [hsent hok, h.sent, hfile, append_assoc]
    · dsimp only
      rw [h.saved, hfile, addSaved_addSaved, length_append]

theorem reaches_length (hf : t.framing.isChunked = false)
    (hn : t.framing.contentLength = some n) (hne : bytes ≠ []) :
    Reaches start t.framing (p ++ bytes) (laterBody t bytes) := by
  have hpos : 0 < bytes.length := length_pos_of_ne_nil hne
  have hbound := h.bound n hn
  have hmore := h.more
  rw [bodyOf_length hf hn] at hmore
  split at hmore
  case isTrue => cases hmore
  case isFalse hopen =>
  obtain rfl : p = file := Progress.more.inj hmore
  have hopen' : p.length = 0 ∨ p.length < n := by
    by_cases hp : p = []
    · exact .inl (by rw [hp]; rfl)
    · exact .inr (Nat.lt_of_not_le fun hle => hopen ⟨hp, hle⟩)
  have hsaved : t.saved = p.length := by
    rw [h.saved, addSaved, Nat.zero_add]
    exact Nat.mod_eq_of_lt (by omega)
  have hne' : p ++ bytes ≠ [] := fun h0 => hne (append_eq_nil_iff.1 h0).2
  rw [laterBody, if_neg (by simp [hf]), hn]
  dsimp only
  rw [hsaved]
  generalize hgot : (if bytes.length > n - p.length then n - p.length else bytes.length) = got
  have hgot' : got = min bytes.length (n - p.length) := by
    rw [← hgot]
    split <;> omega
  have hsum : addSaved p.length got = p.length + got := Nat.mod_eq_of_lt (by omega)
  rw [hsum]
  by_cases hend : n ≤ p.length + bytes.length
  · -- the last bytes
    rw [if_pos (by omega)]
    have hcomplete : bodyOf t.framing (p ++ bytes) = .complete (p ++ bytes.take got) := by
      have hle : p.length ≤ n ∨ n = 0 := by omega
      have htake : (p ++ bytes).take n = p ++ bytes.take got := by
        rw [take_append, take_of_length_le (by omega)]
        congr 1
        rw [take_eq_take_iff]
        omega
      rw [bodyOf_length hf hn, if_pos ⟨hne', by rw [length_append]; exact hend⟩, htake]
    rw [Reaches, hcomplete]
    obtain ⟨-, -, hsent, hworking⟩ := writeAll_spec t.out (bytes.take got)
    by_cases hok : (writeAll t.out (bytes.take got)).2 = false
    · have hlen : (bytes.take got).length > 0 := by
        apply length_pos_of_ne_nil
        intro h0
        rw [h0, writeAll, Stdio.writeAll, dif_pos rfl] at hok
        cases hok
      rw [if_pos ⟨hlen, hok⟩]
      refine .inl ⟨fun hw => ?_, _, rfl⟩
      rw [hworking (working_congr hw h.fd h.answers)] at hok
      cases hok
    · rw [if_neg fun h => hok h.2, finish]
      refine .inr ⟨_, by rw [h.headerDone], ?_⟩
      rw [hsent (by simpa using hok), h.sent, append_assoc]
  · -- more bytes are to come
    have hall : got = bytes.length := by omega
    rw [if_neg (by omega), hall, take_length]
    refine reaches_saveBytes h hf rfl ?_
    rw [bodyOf_length hf hn, if_neg fun hc => hend (by rw [← length_append]; exact hc.2)]

theorem reaches_laterBody (hne : bytes ≠ []) :
    Reaches start t.framing (p ++ bytes) (laterBody t bytes) := by
  cases hf : t.framing.isChunked
  · cases hn : t.framing.contentLength with
    | some n => exact reaches_length h hf hn hne
    | none =>
      have hmore := h.more
      rw [bodyOf_unframed hf hn] at hmore
      rw [laterBody, if_neg (by simp [hf]), hn]
      exact reaches_saveBytes h hf (Progress.more.inj hmore).symm (bodyOf_unframed hf hn)
  · rw [laterBody, if_pos hf]
    exact reaches_saveChunked h hf

end

theorem firstBody_eq (hne : bytes ≠ []) (hsaved : t.saved = 0)
    (hbound : ∀ n, t.framing.contentLength = some n → n < 2 ^ 64) :
    firstBody t bytes = laterBody t bytes := by
  have hpos : 0 < bytes.length := length_pos_of_ne_nil hne
  rw [firstBody, if_neg hne, laterBody]
  split
  · rfl
  cases hn : t.framing.contentLength with
  | none => rfl
  | some n =>
    have hlt := hbound n hn
    dsimp only
    rw [hsaved, Nat.sub_zero]
    by_cases hlen : bytes.length > n
    · have hsum : addSaved 0 n = n := by
        rw [addSaved, Nat.zero_add]
        exact Nat.mod_eq_of_lt hlt
      rw [if_pos hlen, if_pos hlen, hsum, length_take_of_le (by omega), hsum,
        if_pos (Or.inr (Nat.le_refl n)), if_pos (Nat.le_refl n)]
    · have hsum : addSaved 0 bytes.length = bytes.length := by
        rw [addSaved, Nat.zero_add]
        exact Nat.mod_eq_of_lt (by omega)
      rw [if_neg hlen, if_neg hlen, hsum, take_length]
      by_cases hend : bytes.length ≥ n
      · rw [if_pos (Or.inr hend), hsum, if_pos hend]
      · have hmiddle : ¬(bytes.length = 0 ∨ bytes.length ≥ n) := by omega
        rw [if_neg hmiddle, if_neg hend, saveBytes]
        simp only [hpos, true_and, hsaved, hsum]

theorem reaches_firstBody (h : Holds start [] [] t) :
    Reaches start t.framing bytes (firstBody t bytes) := by
  by_cases hne : bytes = []
  · rw [hne, firstBody, if_pos rfl, Reaches, bodyOf_nil]
    exact .inr ⟨t, rfl, rfl, h⟩
  · have hsaved : t.saved = 0 := h.saved
    rw [firstBody_eq hne hsaved h.bound]
    exact reaches_laterBody h hne

theorem receive_body (cut : List (List UInt8)) (hcut : ∀ bytes ∈ cut, bytes ≠ [])
    (h : Holds start p file t) :
    Reaches start t.framing (p ++ cut.flatten) (receive t (cut.map .data)) := by
  induction cut generalizing t p file with
  | nil =>
    rw [flatten_nil, append_nil, Reaches, h.more]
    exact .inr ⟨t, rfl, rfl, h⟩
  | cons bytes cut ih =>
    have hstep := reaches_laterBody h (hcut bytes mem_cons_self)
    rw [flatten_cons, ← append_assoc, map_cons, receive, onRecv,
      if_pos h.headerDone]
    rcases hstep with ⟨hw, t', hflow⟩ | hstep
    · rw [hflow]
      exact .inl ⟨hw, t', rfl⟩
    · cases hbody : bodyOf t.framing (p ++ bytes) with
      | more file' =>
        rw [hbody] at hstep
        obtain ⟨t', hflow, hframing, h'⟩ := hstep
        rw [hflow, ← hframing]
        exact ih (fun b hb => hcut b (mem_cons_of_mem _ hb)) h'
      | complete file' =>
        rw [hbody] at hstep
        obtain ⟨t', hflow, hsent⟩ := hstep
        rw [hflow, Reaches, bodyOf_append_complete _ hbody]
        exact .inr ⟨t', rfl, hsent⟩
      | broken file' =>
        rw [hbody] at hstep
        obtain ⟨t', hflow, hsent⟩ := hstep
        rw [hflow, Reaches, bodyOf_append_broken _ hbody]
        exact .inr ⟨t', rfl, hsent⟩

/-! ## The end of the header -/

theorem exists_of_patternEnd {pattern d : List UInt8} {e : ℕ} (h : patternEnd pattern d = some e) :
    ∃ x y, d = x ++ pattern ++ y ∧ e = (x ++ pattern).length := by
  induction d generalizing e with
  | nil => cases h
  | cons c d ih =>
    rw [patternEnd] at h
    split at h
    case isTrue hend =>
      refine ⟨[], (c :: d).drop pattern.length, ?_, (Option.some.inj h).symm⟩
      conv_lhs => rw [← take_append_drop pattern.length (c :: d), hend]
      rfl
    case isFalse =>
      obtain ⟨i, hi, rfl⟩ := Option.map_eq_some_iff.1 h
      obtain ⟨x, y, rfl, rfl⟩ := ih hi
      exact ⟨c :: x, y, rfl, rfl⟩

theorem patternEnd_append {pattern d : List UInt8} {e : ℕ} (rest : List UInt8)
    (h : patternEnd pattern d = some e) : patternEnd pattern (d ++ rest) = some e := by
  induction d generalizing e with
  | nil => cases h
  | cons c d ih =>
    have hlen : pattern.length ≤ (c :: d).length := by
      obtain ⟨x, y, hsplit, -⟩ := exists_of_patternEnd h
      rw [hsplit, length_append, length_append]
      omega
    rw [patternEnd] at h
    rw [cons_append, patternEnd, ← cons_append, take_append_of_le_length hlen]
    split at h
    case isTrue hend => rw [if_pos hend, h]
    case isFalse hend =>
      obtain ⟨i, hi, rfl⟩ := Option.map_eq_some_iff.1 h
      rw [if_neg hend, ih hi]
      rfl

theorem exists_of_findHeaderEnd {d : List UInt8} {e : ℕ} (h : findHeaderEnd d = some e) :
    ∃ x blank y, (blank = [13, 10, 13, 10] ∨ blank = [10, 10]) ∧ d = x ++ blank ++ y ∧
      e = (x ++ blank).length := by
  rw [findHeaderEnd] at h
  split at h
  case h_1 i hi =>
    obtain ⟨x, y, hd, he⟩ := exists_of_patternEnd hi
    exact ⟨x, _, y, .inl rfl, hd, (Option.some.inj h).symm.trans he⟩
  case h_2 =>
    obtain ⟨x, y, hd, he⟩ := exists_of_patternEnd h
    exact ⟨x, _, y, .inr rfl, hd, he⟩

theorem findHeaderEnd_le {d : List UInt8} {e : ℕ} (h : findHeaderEnd d = some e) :
    e ≤ d.length := by
  obtain ⟨x, blank, y, -, rfl, rfl⟩ := exists_of_findHeaderEnd h
  exact (prefix_append _ y).length_le

theorem findHeaderEnd_append_ne_none {d : List UInt8} (rest : List UInt8)
    (h : findHeaderEnd d ≠ none) : findHeaderEnd (d ++ rest) ≠ none := by
  rw [findHeaderEnd] at h ⊢
  cases hcrlf : crlfcrlfEnd d with
  | some i =>
    rw [show crlfcrlfEnd (d ++ rest) = some i from patternEnd_append rest hcrlf]
    simp
  | none =>
    rw [hcrlf] at h
    cases hlf : lflfEnd d with
    | none => exact absurd hlf h
    | some i =>
      rw [show lflfEnd (d ++ rest) = some i from patternEnd_append rest hlf]
      split <;> simp

/-- The state while the header is read. -/
def inHeader (start : Device) (d : List UInt8) : Transfer :=
  { Transfer.start start with header := d }

theorem contentLengthLoop_lt {value : List UInt8} {acc : ℕ} {hasDigit : Bool} {r : ℕ × Bool}
    (hacc : acc < 2 ^ 64) (h : contentLengthLoop value acc hasDigit = some r) : r.1 < 2 ^ 64 := by
  induction value generalizing acc hasDigit with
  | nil =>
    rw [contentLengthLoop, Option.some.injEq] at h
    rw [← h]
    exact hacc
  | cons c value ih =>
    rw [contentLengthLoop] at h
    split at h
    · dsimp only at h
      split at h
      · cases h
      · exact ih (Nat.mod_lt _ (by decide)) h
    · rw [Option.some.injEq] at h
      rw [← h]
      exact hacc

theorem parseContentLength_lt {value : List UInt8} (h : parseContentLength value = some n) :
    n < 2 ^ 64 := by
  rw [parseContentLength] at h
  split at h
  case h_1 acc hloop =>
    rw [← Option.some.inj h]
    exact contentLengthLoop_lt (by decide) hloop
  case h_2 => cases h

theorem parseHttpHeaders_lt {header : List UInt8}
    (h : (parseHttpHeaders header).contentLength = some n) : n < 2 ^ 64 := by
  refine List.foldlRecOn (motive := fun f => ∀ m, f.contentLength = some m → m < 2 ^ 64)
    (headerLines header.length header) (headerLine parseContentLength)
    (fun m hm => absurd hm (by simp)) (fun f hf line _ m hm => ?_) n h
  rw [headerLine] at hm
  split at hm
  · dsimp only at hm
    split at hm <;> exact hf m hm
  split at hm
  · split at hm
    case h_1 k hk => exact parseContentLength_lt (hk.trans hm)
    case h_2 => exact hf m hm
  · exact hf m hm

theorem onHeader_cases (start : Device) (d bytes : List UInt8) :
    (headerMax < (d ++ bytes).length ∧
      onHeader (inHeader start d) bytes = .stop false (inHeader start d)) ∨
    (d ++ bytes).length ≤ headerMax ∧
    ((findHeaderEnd (d ++ bytes) = none ∧
      onHeader (inHeader start d) bytes = .go (inHeader start (d ++ bytes))) ∨
    ∃ e, findHeaderEnd (d ++ bytes) = some e ∧
      ((statusCode (d ++ bytes) ≥ 400 ∧
        ∃ t, onHeader (inHeader start d) bytes = .stop false t ∧ t.out = start) ∨
      (statusCode (d ++ bytes) < 400 ∧
        Reaches start (parseHttpHeaders ((d ++ bytes).take e)) ((d ++ bytes).drop e)
          (onHeader (inHeader start d) bytes)))) := by
  rw [onHeader]
  by_cases hlen : (inHeader start d).header.length + bytes.length > headerMax
  · rw [if_pos hlen]
    exact .inl ⟨by rw [length_append]; exact hlen, rfl⟩
  · rw [if_neg hlen]
    refine .inr ⟨by rw [length_append]; exact Nat.le_of_not_lt hlen, ?_⟩
    dsimp only [inHeader]
    cases hfind : findHeaderEnd (d ++ bytes) with
    | none => exact .inl ⟨rfl, rfl⟩
    | some e =>
      refine .inr ⟨e, rfl, ?_⟩
      dsimp only
      by_cases hstatus : statusCode (d ++ bytes) ≥ 400
      · rw [if_pos hstatus]
        exact .inl ⟨hstatus, _, rfl, rfl⟩
      · rw [if_neg hstatus]
        refine .inr ⟨Nat.lt_of_not_le hstatus, ?_⟩
        exact reaches_firstBody ⟨rfl, rfl, rfl, bodyOf_nil _, (append_nil _).symm, rfl,
          fun _ => ⟨rfl, rfl, fun h => absurd h ChunkPhase.noConfusion⟩, fun n hn => parseHttpHeaders_lt hn⟩

theorem onRecv_first {d bytes : List UInt8} {e : ℕ} (hlen : (d ++ bytes).length ≤ headerMax)
    (hend : findHeaderEnd (d ++ bytes) = some e) (hstatus : statusCode (d ++ bytes) < 400) :
    Reaches start (parseHttpHeaders ((d ++ bytes).take e)) ((d ++ bytes).drop e)
      (onRecv (inHeader start d) (.data bytes)) := by
  rw [onRecv, if_neg (by simp [inHeader, Transfer.start])]
  rcases onHeader_cases start d bytes with
    ⟨hlong, -⟩ | ⟨-, ⟨hnone, -⟩ | ⟨e', he', ⟨hbad, -⟩ | ⟨-, hflow⟩⟩⟩
  · exact absurd hlen (Nat.not_le.2 hlong)
  · rw [hnone] at hend
    cases hend
  · exact absurd hbad (Nat.not_le.2 hstatus)
  · rw [hend, Option.some.injEq] at he'
    exact he' ▸ hflow

end Cleonos.Wget
