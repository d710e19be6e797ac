import Cleonos.Wget.Complete

/-!
# Cuts of a response

A response comes in reads that cut it anywhere.
-/

namespace Cleonos.Wget

open List
open Stdio (Device Working)

/-- The reads bring these bytes, in pieces. -/
structure Cut (s : List UInt8) (cut : List (List UInt8)) : Prop where
  flatten : cut.flatten = s
  piece : ∀ bytes ∈ cut, bytes ≠ [] ∧ bytes.length ≤ recvChunk

/-- The return value, if the loop has ended, and the bytes in the file. -/
def outcome : Flow → Option Bool × List UInt8
  | .go t => (none, t.out.sent)
  | .stop ok t => (some ok, t.out.sent)

/-- The loop can look at the `k` first bytes, and at nothing of it before that, and goes no further
with the header. -/
def Seen (s : List UInt8) (k : ℕ) : Prop :=
  k ≤ s.length ∧ (headerMax < k ∨ findHeaderEnd (s.take k) ≠ none) ∧
    ∃ j < k, k ≤ j + recvChunk ∧ j ≤ headerMax ∧ findHeaderEnd (s.take j) = none

/-- Where the body begins, if the loop takes the response. -/
def headerView (s : List UInt8) (k : ℕ) : Option ℕ :=
  if headerMax < k ∨ statusCode (s.take k) ≥ 400 then none else findHeaderEnd (s.take k)

/-- What the response comes to; one that is refused leaves nothing. -/
def fate (s : List UInt8) (k : ℕ) : Progress :=
  match headerView s k with
  | none => .broken []
  | some e => bodyOf (parseHttpHeaders (s.take e)) (s.drop e)

variable {start : Device} {s d bytes rest file : List UInt8} {k e : ℕ} {flow flow' : Flow}
  {cut : List (List UInt8)} {t t' : Transfer}

/-! ## The header lines -/

/-- An empty line, with the end of the line before it. -/
def Blank (blank : List UInt8) : Prop := blank = [13, 10, 13, 10] ∨ blank = [10, 10]

theorem headerLines_stop {b : UInt8} (fuel : ℕ) (l : List UInt8) (hb : inLine b = false) :
    headerLines fuel (b :: l) = [] := by
  cases fuel with
  | zero => rfl
  | succ fuel => rw [headerLines, takeWhile_cons_of_neg (by simp [hb]), if_pos rfl]

theorem afterLine_cases {blank : List UInt8} (hblank : Blank blank) {x : List UInt8}
    (hx : x.takeWhile inLine = []) :
    (∃ x', x'.length < x.length ∧ ∀ rest, afterLine (x ++ (blank ++ rest)) = x' ++ (blank ++ rest)) ∨
      ∃ b b', inLine b = false ∧ ∀ rest, afterLine (x ++ (blank ++ rest)) = b :: (b' ++ rest) := by
  cases x with
  | nil =>
    right
    rcases hblank with rfl | rfl
    · exact ⟨13, [10], rfl, fun _ => rfl⟩
    · exact ⟨10, [], rfl, fun _ => rfl⟩
  | cons c x =>
    have hc : c = 13 ∨ c = 10 := by
      by_contra hne
      rw [takeWhile_cons_of_pos (by simpa [inLine] using not_or.1 hne)] at hx
      cases hx
    rcases hc with rfl | rfl
    · cases x with
      | nil =>
        rcases hblank with rfl | rfl
        · exact .inl ⟨[], by simp, fun _ => rfl⟩
        · exact .inr ⟨10, [], rfl, fun _ => rfl⟩
      | cons c' x =>
        by_cases hc' : c' = 10
        · exact .inl ⟨x, by simp, fun rest => by rw [hc']; rfl⟩
        · refine .inl ⟨c' :: x, by simp, fun rest => ?_⟩
          rw [afterLine]
          simp [hc']
    · exact .inl ⟨x, by simp, fun _ => rfl⟩

theorem takeWhile_inLine {blank : List UInt8} (hblank : Blank blank) (x rest : List UInt8) :
    (x ++ (blank ++ rest)).takeWhile inLine = x.takeWhile inLine ∧
      (x ++ (blank ++ rest)).dropWhile inLine = x.dropWhile inLine ++ (blank ++ rest) := by
  induction x with
  | nil => rcases hblank with rfl | rfl <;> exact ⟨rfl, rfl⟩
  | cons c x ih =>
    rw [cons_append]
    by_cases hc : inLine c = true
    · rw [takeWhile_cons_of_pos hc, takeWhile_cons_of_pos hc,
        dropWhile_cons_of_pos hc, dropWhile_cons_of_pos hc, ih.1, ih.2]
      exact ⟨rfl, rfl⟩
    · rw [takeWhile_cons_of_neg hc, takeWhile_cons_of_neg hc,
        dropWhile_cons_of_neg hc, dropWhile_cons_of_neg hc]
      exact ⟨rfl, rfl⟩

theorem headerLines_blank {blank : List UInt8} (hblank : Blank blank) {x : List UInt8}
    {fuel fuel' : ℕ} (hfuel : x.length < fuel) (hfuel' : x.length < fuel') (rest : List UInt8) :
    headerLines fuel (x ++ (blank ++ rest)) = headerLines fuel' (x ++ (blank ++ [])) := by
  induction fuel generalizing x fuel' with
  | zero => exact absurd hfuel (Nat.not_lt_zero _)
  | succ fuel ih =>
    obtain ⟨fuel', rfl⟩ : ∃ m, fuel' = m + 1 := ⟨fuel' - 1, by omega⟩
    have hlen : (x.dropWhile inLine).length ≤ x.length := (dropWhile_suffix _).length_le
    have hstop : (x.dropWhile inLine).takeWhile inLine = [] := by
      cases hdrop : x.dropWhile inLine with
      | nil => rfl
      | cons c x' =>
        have hc : inLine c = false := by
          have := List.head?_dropWhile_not inLine x
          rw [hdrop] at this
          simpa using this
        exact takeWhile_cons_of_neg (by simp [hc])
    rw [headerLines, headerLines, (takeWhile_inLine hblank x rest).1,
      (takeWhile_inLine hblank x rest).2, (takeWhile_inLine hblank x []).1,
      (takeWhile_inLine hblank x []).2]
    split
    case isTrue => rfl
    case isFalse =>
      congr 1
      rcases afterLine_cases hblank hstop with ⟨x', hx', hafter⟩ | ⟨b, b', hb, hafter⟩
      · rw [hafter, hafter]
        exact ih (by omega) (by omega)
      · rw [hafter, hafter, headerLines_stop _ _ hb, headerLines_stop _ _ hb]

theorem parseHttpHeaders_take (h : findHeaderEnd (s.take k) = some e) :
    parseHttpHeaders (s.take e) = parseHttpHeaders s := by
  obtain ⟨x, blank, y, hblank, hsplit, he⟩ := exists_of_findHeaderEnd h
  have hs : s = x ++ (blank ++ (y ++ s.drop k)) := by
    conv_lhs => rw [← take_append_drop k s, hsplit]
    simp only [append_assoc]
  have htake : s.take e = x ++ (blank ++ []) := by
    rw [hs, he, append_nil, ← append_assoc, take_left]
  have hpos : 0 < blank.length := by rcases hblank with rfl | rfl <;> decide
  have hlines : headerLines s.length s = headerLines (s.take e).length (s.take e) := by
    rw [htake]
    conv_lhs => rw [hs]
    refine headerLines_blank hblank ?_ ?_ _
    · simp only [length_append]
      omega
    · simp only [length_append]
      omega
  rw [parseHttpHeaders, parseHttpHeaders, framing, framing, hlines]

/-- The loop goes on behind the header of `s`, and has saved this. -/
structure Waits (start : Device) (s file : List UInt8) (t : Transfer) : Prop where
  headerDone : t.headerDone = true
  framing : t.framing = parseHttpHeaders s
  saved : t.saved = addSaved 0 file.length
  done : t.framing.isChunked = true → t.chunk.done = false
  sent : t.out.sent = start.sent ++ file

/-- Where the loop is after all of the bytes. -/
def Settles (start : Device) (s : List UInt8) (progress : Progress) (flow : Flow) : Prop :=
  match progress with
  | .more file => ∃ t, flow = .go t ∧ Waits start s file t
  | .complete file => ∃ t, flow = .stop true t ∧ t.out.sent = start.sent ++ file
  | .broken file => ∃ t, flow = .stop false t ∧ t.out.sent = start.sent ++ file

theorem Reaches.settles (hw : Working start)
    (h : Reaches start (parseHttpHeaders (s.take e)) (s.drop e) flow)
    (hend : findHeaderEnd (s.take k) = some e) :
    Settles start s (bodyOf (parseHttpHeaders (s.take e)) (s.drop e)) flow := by
  rcases h with ⟨hnot, -⟩ | h
  · exact absurd hw hnot
  · cases hbody : bodyOf (parseHttpHeaders (s.take e)) (s.drop e) with
    | more file =>
      rw [hbody] at h
      obtain ⟨t, hflow, hframing, hholds⟩ := h
      exact ⟨t, hflow, hholds.headerDone, hframing.trans (parseHttpHeaders_take hend),
        hholds.saved, fun hf => (hholds.chunk hf).2.1, hholds.sent⟩
    | complete file =>
      rw [hbody] at h
      exact h
    | broken file =>
      rw [hbody] at h
      obtain ⟨t, hflow, hsent⟩ := h
      exact ⟨t, hflow, hsent hw⟩

theorem receive_header (hw : Working start) {reads : List (List UInt8)}
    (hreads : ∀ bytes ∈ reads, bytes ≠ [])
    (hstop : headerMax < (d ++ bytes).length ∨ findHeaderEnd (d ++ bytes) ≠ none) :
    Settles start (d ++ bytes ++ reads.flatten)
      (fate (d ++ bytes ++ reads.flatten) (d ++ bytes).length)
      (receive (inHeader start d) ((bytes :: reads).map .data)) := by
  generalize hs : d ++ bytes ++ reads.flatten = s
  have htake : s.take (d ++ bytes).length = d ++ bytes := by rw [← hs, take_left]
  have hrefused : headerView s (d ++ bytes).length = none → ∀ t, t.out = start →
      Settles start s (fate s (d ++ bytes).length) (.stop false t) := by
    intro hview t ht
    rw [fate, hview]
    exact ⟨t, rfl, by rw [ht, append_nil]⟩
  rw [map_cons, receive, onRecv, if_neg (by simp [inHeader, Transfer.start])]
  rcases onHeader_cases start d bytes with
    ⟨hlong, hflow⟩ | ⟨hlen, ⟨hnone, -⟩ | ⟨e, hend, ⟨hbad, t, hflow, ht⟩ | ⟨hstatus, hflow⟩⟩⟩
  · rw [hflow]
    exact hrefused (if_pos (.inl hlong)) _ rfl
  · exact absurd hnone (hstop.resolve_left (Nat.not_lt.2 hlen))
  · rw [hflow]
    exact hrefused (if_pos (.inr (by rw [htake]; exact hbad))) t ht
  · have hview : headerView s (d ++ bytes).length = some e := by
      rw [headerView, htake, if_neg (not_or.2 ⟨Nat.not_lt.2 hlen, Nat.not_le.2 hstatus⟩), hend]
    have hle := findHeaderEnd_le hend
    have hheader : (d ++ bytes).take e = s.take e := by
      rw [← hs, take_append_of_le_length hle]
    have hbody : (d ++ bytes).drop e ++ reads.flatten = s.drop e := by
      rw [← hs, drop_append_of_le_length hle]
    rw [fate, hview]
    refine Reaches.settles (k := (d ++ bytes).length) hw ?_ (by rw [htake]; exact hend)
    rw [hheader] at hflow
    rw [← hbody]
    rcases hflow with ⟨hnot, -⟩ | hflow
    · exact absurd hw hnot
    cases hp : bodyOf (parseHttpHeaders (s.take e)) ((d ++ bytes).drop e) with
    | more file =>
      rw [hp] at hflow
      obtain ⟨t, hflow, hframing, hholds⟩ := hflow
      rw [hflow, ← hframing]
      exact receive_body reads hreads hholds
    | complete file =>
      rw [hp] at hflow
      obtain ⟨t, hflow, hsent⟩ := hflow
      rw [hflow, Reaches, bodyOf_append_complete _ hp]
      exact .inr ⟨t, rfl, hsent⟩
    | broken file =>
      rw [hp] at hflow
      obtain ⟨t, hflow, hsent⟩ := hflow
      rw [hflow, Reaches, bodyOf_append_broken _ hp]
      exact .inr ⟨t, rfl, hsent⟩

theorem receive_inHeader {reads : List Recv} (hlen : (d ++ bytes).length ≤ headerMax)
    (hnone : findHeaderEnd (d ++ bytes) = none) :
    receive (inHeader start d) (.data bytes :: reads) =
      receive (inHeader start (d ++ bytes)) reads := by
  rw [receive, onRecv, if_neg (by simp [inHeader, Transfer.start])]
  rcases onHeader_cases start d bytes with
    ⟨hlong, -⟩ | ⟨-, ⟨-, hflow⟩ | ⟨e, hend, -⟩⟩
  · exact absurd hlen (Nat.not_le.2 hlong)
  · rw [hflow]
  · rw [hnone] at hend
    cases hend

theorem receive_cut (hw : Working start) (hd : findHeaderEnd d = none) (hlen : d.length ≤ headerMax)
    (hcut : ∀ bytes ∈ cut, bytes ≠ [] ∧ bytes.length ≤ recvChunk) :
    (findHeaderEnd (d ++ cut.flatten) = none ∧ (d ++ cut.flatten).length ≤ headerMax ∧
      receive (inHeader start d) (cut.map .data) = .go (inHeader start (d ++ cut.flatten))) ∨
    ∃ k, Seen (d ++ cut.flatten) k ∧
      Settles start (d ++ cut.flatten) (fate (d ++ cut.flatten) k)
        (receive (inHeader start d) (cut.map .data)) := by
  induction cut generalizing d with
  | nil =>
    rw [flatten_nil, append_nil]
    exact .inl ⟨hd, hlen, rfl⟩
  | cons bytes cut ih =>
    obtain ⟨hne, hpiece⟩ := hcut bytes mem_cons_self
    have hrest := fun b hb => hcut b (mem_cons_of_mem _ hb)
    rw [flatten_cons, ← append_assoc]
    by_cases hstop : headerMax < (d ++ bytes).length ∨ findHeaderEnd (d ++ bytes) ≠ none
    · refine .inr ⟨_, ?_, receive_header hw (fun b hb => (hrest b hb).1) hstop⟩
      have hlength : (d ++ bytes).length = d.length + bytes.length := length_append
      have hpos := length_pos_of_ne_nil hne
      refine ⟨(prefix_append _ _).length_le, by rw [take_left]; exact hstop, d.length,
        by omega, by omega, hlen, ?_⟩
      rw [append_assoc, take_left]
      exact hd
    · obtain ⟨hshort, hnone⟩ := not_or.1 hstop
      have hnone' : findHeaderEnd (d ++ bytes) = none := by simpa using hnone
      rw [map_cons, receive_inHeader (Nat.le_of_not_lt hshort) hnone']
      exact ih hnone' (Nat.le_of_not_lt hshort) hrest

theorem receive_singles (xs : List UInt8) {reads : List Recv}
    (hlen : (d ++ xs).length ≤ headerMax) (hnone : findHeaderEnd (d ++ xs) = none) :
    receive (inHeader start d) ((xs.map fun x => [x]).map .data ++ reads) =
      receive (inHeader start (d ++ xs)) reads := by
  induction xs generalizing d with
  | nil => rw [append_nil]; rfl
  | cons x xs ih =>
    have hassoc : d ++ x :: xs = d ++ [x] ++ xs := by simp
    rw [hassoc] at hlen hnone ⊢
    have hnone' : findHeaderEnd (d ++ [x]) = none := by
      by_contra hne
      exact findHeaderEnd_append_ne_none xs hne hnone
    have hlen' := Nat.le_trans (prefix_append (d ++ [x]) xs).length_le hlen
    rw [map_cons, map_cons, cons_append, receive_inHeader hlen' hnone']
    exact ih hlen hnone

theorem exists_cut_of_seen (hw : Working start) (hseen : Seen s k) : ∃ cut, Cut s cut ∧
    Settles start s (fate s k) (receive (Transfer.start start) (cut.map .data)) := by
  obtain ⟨hk, hstop, j, hjk, hpiece, hj, hnone⟩ := hseen
  have hsplit : s.take j ++ (s.drop j).take (k - j) = s.take k := by
    rw [take_drop, Nat.add_sub_cancel' (Nat.le_of_lt hjk)]
    conv_rhs => rw [← take_append_drop j (s.take k), take_take]
    rw [Nat.min_eq_left (Nat.le_of_lt hjk)]
  have hlen : (s.take k).length = k := length_take_of_le hk
  have hsingles : ∀ xs : List UInt8, (xs.map fun x => [x]).flatten = xs := fun xs => by
    induction xs with
    | nil => rfl
    | cons x xs ih => rw [map_cons, flatten_cons, ih]; rfl
  have hsingle : ∀ xs : List UInt8, ∀ bytes ∈ xs.map fun x => [x],
      bytes ≠ [] ∧ bytes.length ≤ recvChunk := by
    intro xs bytes hb
    obtain ⟨x, -, rfl⟩ := mem_map.1 hb
    exact ⟨by simp, (by decide : 1 ≤ recvChunk)⟩
  refine ⟨(s.take j).map (fun x => [x]) ++
    ((s.drop j).take (k - j) :: (s.drop k).map fun x => [x]), ⟨?_, fun bytes hb => ?_⟩, ?_⟩
  · rw [flatten_append, flatten_cons, hsingles, hsingles, ← append_assoc, hsplit,
      take_append_drop]
  · rcases mem_append.1 hb with hb | hb
    · exact hsingle _ _ hb
    · rcases mem_cons.1 hb with rfl | hb
      · refine ⟨fun h0 => ?_, ?_⟩
        · have := congrArg List.length h0
          rw [length_take, length_drop, length_nil] at this
          omega
        · rw [length_take]
          omega
      · exact hsingle _ _ hb
  · have hheader := @receive_header _ (s.take j) ((s.drop j).take (k - j)) hw _
      (fun bytes hb => (hsingle (s.drop k) bytes hb).1) (by rw [hsplit, hlen]; exact hstop)
    rw [hsplit, hsingles, hlen, take_append_drop] at hheader
    rw [map_append]
    have hshort : (s.take j).length ≤ headerMax :=
      Nat.le_trans (length_take_le _ _) hj
    have hsame := @receive_singles start [] (s.take j)
      (((s.drop j).take (k - j) :: (s.drop k).map fun x => [x]).map .data) hshort hnone
    exact hsame ▸ hheader

theorem Waits.onQuiet (ht : Waits start s file t) (expired : Bool) : onQuiet t expired =
    if (parseHttpHeaders s).isChunked = false ∧
        (parseHttpHeaders s).contentLength.any (fun n => addSaved 0 file.length ≥ n) then
      .stop true t
    else if expired then
      if addSaved 0 file.length > 0 ∧ (parseHttpHeaders s).contentLength = none ∧
          (parseHttpHeaders s).isChunked = false then .stop true t
      else .stop false t
    else .go t := by
  have hdone : ¬(t.headerDone = true ∧ t.framing.isChunked = true ∧ t.chunk.done = true) := by
    rintro ⟨-, hf, hdone⟩
    rw [ht.done hf] at hdone
    cases hdone
  rw [Wget.onQuiet, if_neg hdone, finish, ht.headerDone, ht.framing, ht.saved]
  simp only [true_and]

theorem outcome_ending (ht : Waits start s file t) (ht' : Waits start s file t')
    {ending : List Recv} (hending : ∀ r ∈ ending, ∀ bytes, r ≠ .data bytes) :
    outcome (receive t ending) = outcome (receive t' ending) := by
  have hsent : t.out.sent = t'.out.sent := ht.sent.trans ht'.sent.symm
  have hsame : ∀ ok, outcome (.stop ok t) = outcome (.stop ok t') := fun ok => by
    rw [outcome, outcome, hsent]
  induction ending with
  | nil =>
    show (none, t.out.sent) = (none, t'.out.sent)
    rw [hsent]
  | cons r ending ih =>
    have hrest := ih fun r' hr' => hending r' (mem_cons_of_mem _ hr')
    rw [receive, receive]
    cases r with
    | data bytes => exact absurd rfl (hending _ mem_cons_self bytes)
    | quiet expired =>
      rw [onRecv, onRecv, ht.onQuiet, ht'.onQuiet]
      split_ifs
      · exact hsame true
      · exact hsame true
      · exact hsame false
      · exact hrest
    | eof =>
      rw [onRecv, onRecv, finish, finish, ht.headerDone, ht'.headerDone]
      exact hsame true
    | fail => exact hsame false

theorem Settles.outcome_eq {progress : Progress} {reads reads' ending : List Recv}
    (h : Settles start s progress (receive t reads))
    (h' : Settles start s progress (receive t reads'))
    (hending : ∀ r ∈ ending, ∀ bytes, r ≠ .data bytes) :
    outcome (receive t (reads ++ ending)) = outcome (receive t (reads' ++ ending)) := by
  rw [receive_append, receive_append]
  cases progress with
  | more file =>
    obtain ⟨u, hu, hwaits⟩ := h
    obtain ⟨u', hu', hwaits'⟩ := h'
    rw [hu, hu']
    exact outcome_ending hwaits hwaits' hending
  | complete file =>
    obtain ⟨u, hu, hsent⟩ := h
    obtain ⟨u', hu', hsent'⟩ := h'
    rw [hu, hu', outcome, outcome, hsent, hsent']
  | broken file =>
    obtain ⟨u, hu, hsent⟩ := h
    obtain ⟨u', hu', hsent'⟩ := h'
    rw [hu, hu', outcome, outcome, hsent, hsent']

theorem Settles.progress_eq {progress progress' : Progress} (h : Settles start s progress flow)
    (h' : Settles start s progress' flow') (hsame : outcome flow = outcome flow') :
    progress = progress' := by
  cases progress <;> cases progress' <;> obtain ⟨u, rfl, hu⟩ := h <;> obtain ⟨u', rfl, hu'⟩ := h' <;>
    rw [outcome, outcome, Prod.mk.injEq] at hsame
  case more.more file file' =>
    rw [hu.sent, hu'.sent] at hsame
    rw [append_cancel_left hsame.2]
  case complete.complete file file' =>
    rw [hu, hu'] at hsame
    rw [append_cancel_left hsame.2]
  case broken.broken file file' =>
    rw [hu, hu'] at hsame
    rw [append_cancel_left hsame.2]
  all_goals exact absurd hsame.1 (by simp)

theorem fate_eq_of_independent (hw : Working start)
    (hall : ∀ cut cut', Cut s cut → Cut s cut' →
      outcome (receive (Transfer.start start) (cut.map .data)) =
        outcome (receive (Transfer.start start) (cut'.map .data)))
    {k' : ℕ} (hseen : Seen s k) (hseen' : Seen s k') : fate s k = fate s k' := by
  obtain ⟨cut, hcut, hsettles⟩ := exists_cut_of_seen hw hseen
  obtain ⟨cut', hcut', hsettles'⟩ := exists_cut_of_seen hw hseen'
  exact hsettles.progress_eq hsettles' (hall cut cut' hcut hcut')

/-- A header that ends with two line feeds, and a body with an empty line. -/
def emptyLineInBody : List UInt8 :=
  [72, 84, 84, 80, 47, 49, 46, 49, 32, 50, 48, 48, 32, 79, 75, 10, 10, 65, 13, 10, 13, 10, 66]

theorem Settles.outcome_eof {reads : List Recv}
    (h : Settles start s (.more file) (receive t reads)) :
    outcome (receive t (reads ++ [.eof])) = (some true, start.sent ++ file) := by
  obtain ⟨u, hu, hwaits⟩ := h
  rw [receive_append, hu]
  dsimp only
  rw [receive, onRecv, finish, outcome, hwaits.headerDone, hwaits.sent]

end Cleonos.Wget
