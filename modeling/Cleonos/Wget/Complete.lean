import Cleonos.Wget.Body

/-!
# Complete downloads

A peer sends a stream, all of it or as much as it can, and may close the connection.
-/

namespace Cleonos.Wget

open List
open Stdio (Device Working)

/-! ## The peer -/

/-- What the peer sends, and whether it closes the connection behind it. -/
structure Peer where
  bytes : List UInt8
  closes : Bool

/-- The bytes that the reads have returned. -/
def received : List Recv → List UInt8
  | [] => []
  | .data bytes :: reads => bytes ++ received reads
  | _ :: reads => received reads

/-- The reads return what the peer sends, and the end of the connection behind all of it. -/
structure Delivers (peer : Peer) (reads : List Recv) : Prop where
  sent : received reads <+: peer.bytes
  bytes : ∀ bytes, Recv.data bytes ∈ reads → bytes ≠ [] ∧ bytes.length ≤ recvChunk
  eof : Recv.eof ∈ reads → peer.closes = true ∧ received reads = peer.bytes

/-- The loop has made these reads, and has ended with the last one. -/
def Transfers (start : Device) (reads : List Recv) (ok : Bool) (t : Transfer) : Prop :=
  ∃ earlier last t', reads = earlier ++ [last] ∧
    receive (Transfer.start start) earlier = .go t' ∧ onRecv t' last = .stop ok t

variable {start : Device} {reads : List Recv} {r : Recv} {t t' : Transfer} {f : Framing}
  {d p file : List UInt8} {n e : ℕ}

theorem received_append (xs ys : List Recv) :
    received (xs ++ ys) = received xs ++ received ys := by
  induction xs with
  | nil => rfl
  | cons r xs ih =>
    cases r with
    | data bytes => rw [cons_append, received, received, ih, append_assoc]
    | quiet expired => exact ih
    | eof => exact ih
    | fail => exact ih

theorem receive_append (xs ys : List Recv) : receive t (xs ++ ys) =
    match receive t xs with
    | .stop ok t => .stop ok t
    | .go t => receive t ys := by
  induction xs generalizing t with
  | nil => rfl
  | cons r xs ih =>
    rw [cons_append, receive, receive]
    cases onRecv t r with
    | go t' => exact ih
    | stop ok t' => rfl

/-- The bytes in which the loop has found the end of the header: those behind the first read that
brought it. -/
def Found (reads : List Recv) (h : List UInt8) : Prop :=
  ∃ xs r ys, reads = xs ++ r :: ys ∧ findHeaderEnd (received xs) = none ∧
    h = received (xs ++ [r])

theorem Found.append {h : List UInt8} (hfound : Found reads h) (ys : List Recv) :
    Found (reads ++ ys) h := by
  obtain ⟨xs, r, zs, rfl, hnone, rfl⟩ := hfound
  exact ⟨xs, r, zs ++ ys, by rw [append_assoc, cons_append], hnone, rfl⟩

/-- The bytes of the body among those that have come, and how it is framed. -/
def BodyFrom (reads : List Recv) (f : Framing) (p : List UInt8) : Prop :=
  ∃ h e, Found reads h ∧ findHeaderEnd h = some e ∧ statusCode h < 400 ∧
    f = parseHttpHeaders (h.take e) ∧ h <+: received reads ∧ p = (received reads).drop e

/-- The state after these reads. -/
def Open (start : Device) (reads : List Recv) (t : Transfer) : Prop :=
  (t = inHeader start (received reads) ∧ findHeaderEnd (received reads) = none) ∨
    ∃ p file, BodyFrom reads t.framing p ∧ Holds start p file t

variable {bytes : List UInt8}

theorem BodyFrom.data (h : BodyFrom reads f p) :
    BodyFrom (reads ++ [.data bytes]) f (p ++ bytes) := by
  obtain ⟨hd, e, hfound, hend, hstatus, hf, hpre, rfl⟩ := h
  have hreceived : received (reads ++ [.data bytes]) = received reads ++ bytes := by
    rw [received_append, received, received, append_nil]
  refine ⟨hd, e, hfound.append _, hend, hstatus, hf, ?_, ?_⟩
  · rw [hreceived]
    exact hpre.trans (prefix_append _ _)
  · rw [hreceived, drop_append_of_le_length]
    exact Nat.le_trans (findHeaderEnd_le hend) hpre.length_le

theorem BodyFrom.other (h : BodyFrom reads f p) (hr : received [r] = []) :
    BodyFrom (reads ++ [r]) f p := by
  obtain ⟨hd, e, hfound, hend, hstatus, hf, hpre, rfl⟩ := h
  have hreceived : received (reads ++ [r]) = received reads := by
    rw [received_append, hr, append_nil]
  exact ⟨hd, e, hfound.append _, hend, hstatus, hf, by rw [hreceived]; exact hpre,
    by rw [hreceived]⟩

theorem BodyFrom.first (hnone : findHeaderEnd (received reads) = none)
    (hend : findHeaderEnd (received reads ++ bytes) = some e)
    (hstatus : statusCode (received reads ++ bytes) < 400) :
    BodyFrom (reads ++ [.data bytes]) (parseHttpHeaders ((received reads ++ bytes).take e))
      ((received reads ++ bytes).drop e) := by
  have hreceived : received (reads ++ [.data bytes]) = received reads ++ bytes := by
    rw [received_append, received, received, append_nil]
  rw [← hreceived] at hend hstatus ⊢
  exact ⟨_, e, ⟨reads, _, [], rfl, hnone, rfl⟩, hend, hstatus, rfl, prefix_rfl, rfl⟩

theorem onRecv_data (h : Open start reads t) (hne : bytes ≠ []) :
    (∃ t', onRecv t (.data bytes) = .go t' ∧ Open start (reads ++ [.data bytes]) t') ∨
    (∃ t', onRecv t (.data bytes) = .stop false t') ∨
    ∃ t' f p file, onRecv t (.data bytes) = .stop true t' ∧
      BodyFrom (reads ++ [.data bytes]) f p ∧ bodyOf f p = .complete file ∧
      t'.out.sent = start.sent ++ file := by
  have hreaches : ∀ f p, BodyFrom (reads ++ [.data bytes]) f p → ∀ flow, Reaches start f p flow →
      (∃ t', flow = .go t' ∧ Open start (reads ++ [.data bytes]) t') ∨
      (∃ t', flow = .stop false t') ∨
      ∃ t' f p file, flow = .stop true t' ∧ BodyFrom (reads ++ [.data bytes]) f p ∧
        bodyOf f p = .complete file ∧ t'.out.sent = start.sent ++ file := by
    rintro f p hbody flow (⟨-, t', hflow⟩ | hflow)
    · exact .inr (.inl ⟨t', hflow⟩)
    · cases hp : bodyOf f p with
      | more file =>
        rw [hp] at hflow
        obtain ⟨t', hflow, rfl, hholds⟩ := hflow
        exact .inl ⟨t', hflow, .inr ⟨p, file, hbody, hholds⟩⟩
      | complete file =>
        rw [hp] at hflow
        obtain ⟨t', hflow, hsent⟩ := hflow
        exact .inr (.inr ⟨t', f, p, file, hflow, hbody, hp, hsent⟩)
      | broken file =>
        rw [hp] at hflow
        obtain ⟨t', hflow, -⟩ := hflow
        exact .inr (.inl ⟨t', hflow⟩)
  rcases h with ⟨rfl, hnone⟩ | ⟨p, file, hbody, hholds⟩
  · have hreceived : received (reads ++ [.data bytes]) = received reads ++ bytes := by
      rw [received_append, received, received, append_nil]
    rw [onRecv, if_neg (by simp [inHeader, Transfer.start])]
    rcases onHeader_cases start (received reads) bytes with
      ⟨-, hflow⟩ | ⟨-, ⟨hend, hflow⟩ | ⟨e, hend, ⟨-, t', hflow, -⟩ | ⟨hstatus, hflow⟩⟩⟩
    · exact .inr (.inl ⟨_, hflow⟩)
    · refine .inl ⟨_, hflow, .inl ?_⟩
      rw [hreceived]
      exact ⟨rfl, hend⟩
    · exact .inr (.inl ⟨t', hflow⟩)
    · exact hreaches _ _ (BodyFrom.first hnone hend hstatus) _ hflow
  · rw [onRecv, if_pos hholds.headerDone]
    exact hreaches _ _ hbody.data _ (reaches_laterBody hholds hne)

theorem Holds.length (h : Holds start p file t) (hf : t.framing.isChunked = false)
    (hn : t.framing.contentLength = some n) :
    file = p ∧ t.saved = p.length ∧ (p = [] ∨ p.length < n) := by
  have hbound := h.bound n hn
  have hmore := h.more
  rw [bodyOf_length hf hn] at hmore
  split at hmore
  case isTrue => cases hmore
  case isFalse hopen =>
    obtain rfl : p = file := Progress.more.inj hmore
    have hopen' : p = [] ∨ p.length < n := by
      by_cases hp : p = []
      · exact .inl hp
      · exact .inr (Nat.lt_of_not_le fun hle => hopen ⟨hp, hle⟩)
    have hlt : p.length < 2 ^ 64 := by
      rcases hopen' with rfl | hlt
      · exact Nat.two_pow_pos 64
      · exact Nat.lt_trans hlt hbound
    refine ⟨rfl, ?_, hopen'⟩
    rw [h.saved, addSaved, Nat.zero_add]
    exact Nat.mod_eq_of_lt hlt

theorem onQuiet_cases (h : Open start reads t) (expired : Bool) :
    onQuiet t expired = .go t ∨ onQuiet t expired = .stop false t ∨
    (onQuiet t expired = .stop true t ∧ t.framing.isChunked = false ∧
      ∃ p file, BodyFrom reads t.framing p ∧ Holds start p file t ∧
        (t.framing.contentLength = none ∨ t.framing.contentLength = some 0 ∧ p = [])) := by
  have hquiet : ¬ (t.headerDone = true ∧ t.framing.isChunked = true ∧ t.chunk.done = true) := by
    rintro ⟨hheader, hf, hdone⟩
    rcases h with ⟨rfl, -⟩ | ⟨p, file, -, hholds⟩
    · cases hheader
    · rw [(hholds.chunk hf).2.1] at hdone
      cases hdone
  -- behind the header
  have hopen : t.headerDone = true → ∃ p file, BodyFrom reads t.framing p ∧
      Holds start p file t := by
    intro hheader
    rcases h with ⟨rfl, -⟩ | hbody
    · cases hheader
    · exact hbody
  rw [onQuiet, if_neg hquiet]
  split
  case isTrue hend =>
    obtain ⟨hheader, hf, hsaved⟩ := hend
    obtain ⟨p, file, hbody, hholds⟩ := hopen hheader
    right
    right
    rw [finish, hheader]
    refine ⟨rfl, hf, p, file, hbody, hholds, ?_⟩
    cases hn : t.framing.contentLength with
    | none => exact .inl rfl
    | some n =>
      obtain ⟨-, hlen, hp⟩ := hholds.length hf hn
      rw [hn, hlen] at hsaved
      have hle : n ≤ p.length := by simpa using hsaved
      rcases hp with rfl | hlt
      · rw [Nat.le_zero.1 hle]
        exact .inr ⟨rfl, rfl⟩
      · exact absurd hle (Nat.not_le.2 hlt)
  case isFalse =>
    cases expired
    · exact .inl (if_neg (by simp))
    · rw [if_pos rfl]
      split
      case isTrue hend =>
        obtain ⟨hheader, -, hn, hf⟩ := hend
        obtain ⟨p, file, hbody, hholds⟩ := hopen hheader
        rw [finish, hheader]
        exact .inr (.inr ⟨rfl, hf, p, file, hbody, hholds, .inl hn⟩)
      case isFalse => exact .inr (.inl rfl)

theorem receive_open (hbytes : ∀ bytes, Recv.data bytes ∈ reads → bytes ≠ [])
    (h : receive (Transfer.start start) reads = .go t) : Open start reads t := by
  induction reads using List.reverseRecOn generalizing t with
  | nil =>
    rw [receive, Flow.go.injEq] at h
    exact .inl ⟨h.symm, rfl⟩
  | append_singleton reads r ih =>
    rw [receive_append] at h
    cases hreads : receive (Transfer.start start) reads with
    | stop ok t' =>
      rw [hreads] at h
      cases h
    | go t' =>
      have hopen := ih (fun b hb => hbytes b (mem_append_left _ hb)) hreads
      rw [hreads] at h
      dsimp only at h
      rw [receive] at h
      have hr : onRecv t' r = .go t := by
        cases hr : onRecv t' r with
        | go t'' =>
          rw [hr] at h
          exact h
        | stop ok t'' =>
          rw [hr] at h
          cases h
      cases r with
      | data bytes =>
        rcases onRecv_data hopen (hbytes bytes (by simp)) with
          ⟨t'', hflow, hopen'⟩ | ⟨t'', hflow⟩ | ⟨t'', f, p, file, hflow, -⟩
        · rw [hflow, Flow.go.injEq] at hr
          exact hr ▸ hopen'
        · rw [hflow] at hr
          cases hr
        · rw [hflow] at hr
          cases hr
      | quiet expired =>
        have ht : t' = t := by
          rcases onQuiet_cases hopen expired with hflow | hflow | ⟨hflow, -⟩
          · rw [onRecv, hflow, Flow.go.injEq] at hr
            exact hr
          · rw [onRecv, hflow] at hr
            cases hr
          · rw [onRecv, hflow] at hr
            cases hr
        have hreceived : received (reads ++ [.quiet expired]) = received reads := by
          rw [received_append]
          exact append_nil _
        subst ht
        rcases hopen with ⟨ht, hnone⟩ | ⟨p, file, hbody, hholds⟩
        · exact .inl (by rw [hreceived]; exact ⟨ht, hnone⟩)
        · exact .inr ⟨p, file, hbody.other rfl, hholds⟩
      | eof => cases hr
      | fail => cases hr

theorem transfer_cases (hbytes : ∀ bytes, Recv.data bytes ∈ reads → bytes ≠ [])
    (h : Transfers start reads true t) : ∃ f p file, BodyFrom reads f p ∧
      t.out.sent = start.sent ++ file ∧
      (bodyOf f p = .complete file ∨ bodyOf f p = .more file ∧
        (Recv.eof ∈ reads ∨ f.isChunked = false ∧
          (f.contentLength = none ∨ f.contentLength = some 0 ∧ p = []))) := by
  obtain ⟨earlier, last, t', rfl, hearlier, hlast⟩ := h
  have hopen := receive_open (fun b hb => hbytes b (mem_append_left _ hb)) hearlier
  cases last with
  | data bytes =>
    rcases onRecv_data hopen (hbytes bytes (by simp)) with
      ⟨t'', hflow, -⟩ | ⟨t'', hflow⟩ | ⟨t'', f, p, file, hflow, hbody, hp, hsent⟩
    · rw [hflow] at hlast
      cases hlast
    · rw [hflow] at hlast
      cases hlast
    · rw [hflow, Flow.stop.injEq] at hlast
      exact ⟨f, p, file, hbody, hlast.2 ▸ hsent, .inl hp⟩
  | quiet expired =>
    rw [onRecv] at hlast
    rcases onQuiet_cases hopen expired with hflow | hflow | ⟨hflow, hf, p, file, hbody, hholds, hn⟩
    · rw [hflow] at hlast
      cases hlast
    · rw [hflow, Flow.stop.injEq] at hlast
      cases hlast.1
    · rw [hflow, Flow.stop.injEq] at hlast
      refine ⟨_, p, file, hbody.other rfl, hlast.2 ▸ hholds.sent, .inr ⟨hholds.more, ?_⟩⟩
      exact .inr ⟨hf, hn⟩
  | eof =>
    rw [onRecv, finish, Flow.stop.injEq] at hlast
    rcases hopen with ⟨rfl, -⟩ | ⟨p, file, hbody, hholds⟩
    · cases hlast.1
    · exact ⟨_, p, file, hbody.other rfl, hlast.2 ▸ hholds.sent,
        .inr ⟨hholds.more, .inl (by simp)⟩⟩
  | fail => cases hlast

/-! ## The response -/

/-- The number that a header line announces, of any size. -/
def announcedLength (value : List UInt8) : Option ℕ :=
  let digits := (value.dropWhile isBlank).takeWhile isDigit
  if digits = [] then none else some (digits.foldl (fun acc c => acc * 10 + (c.toNat - 48)) 0)

/-- The end of the first empty line. -/
def firstBlank : List UInt8 → Option ℕ
  | [] => none
  | c :: rest =>
    if (c :: rest).take 4 = [13, 10, 13, 10] then some 4
    else if (c :: rest).take 2 = [10, 10] then some 2
    else (firstBlank rest).map (· + 1)

/-- The header and the body of a response satisfy this. -/
def Response (bytes : List UInt8) (P : Framing → List UInt8 → Prop) : Prop :=
  ∃ e, firstBlank bytes = some e ∧ P (framing announcedLength (bytes.take e)) (bytes.drop e)

/-- The file is the body of the response, all of it. -/
def Complete (peer : Peer) (file : List UInt8) : Prop :=
  Response peer.bytes fun f body =>
    if f.isChunked then ∃ w, w <+: body ∧ ChunkedBody w file
    else
      match f.contentLength with
      | some n => n ≤ body.length ∧ file = body.take n
      | none => peer.closes = true ∧ file = body

/-- The peer sends the body of the response, all of it; where nothing announces its end the peer
closes the connection, and the loop has read everything. -/
def PeerComplete (peer : Peer) (reads : List Recv) : Prop :=
  Response peer.bytes fun f body =>
    if f.isChunked then ∃ w p, w <+: body ∧ ChunkedBody w p
    else
      match f.contentLength with
      | some n => n < 2 ^ 64 ∧ n ≤ body.length
      | none => peer.closes = true ∧ received reads = peer.bytes

/-- The loop takes the first empty line for the end of the header. -/
def FirstBlankFound (peer : Peer) (reads : List Recv) : Prop :=
  ∀ h e, Found reads h → findHeaderEnd h = some e → firstBlank peer.bytes = some e

theorem contentLengthLoop_eq (value : List UInt8) (acc : ℕ) (hasDigit : Bool)
    (h : (value.takeWhile isDigit).foldl (fun acc c => acc * 10 + (c.toNat - 48)) acc < 2 ^ 64) :
    contentLengthLoop value acc hasDigit =
      some ((value.takeWhile isDigit).foldl (fun acc c => acc * 10 + (c.toNat - 48)) acc,
        hasDigit || decide (value.takeWhile isDigit ≠ [])) := by
  have hgrow : ∀ (digits : List UInt8) (acc : ℕ),
      acc ≤ digits.foldl (fun acc c => acc * 10 + (c.toNat - 48)) acc := by
    intro digits
    induction digits with
    | nil => exact fun acc => Nat.le_refl acc
    | cons c digits ih =>
      intro acc
      have hle : acc ≤ acc * 10 + (c.toNat - 48) := by omega
      exact Nat.le_trans hle (ih _)
  induction value generalizing acc hasDigit with
  | nil => simp [contentLengthLoop]
  | cons c value ih =>
    rw [contentLengthLoop]
    by_cases hc : isDigit c = true
    · rw [takeWhile_cons_of_pos hc, foldl_cons] at h ⊢
      have hlt := Nat.lt_of_le_of_lt (hgrow _ _) h
      rw [if_pos hc]
      dsimp only
      rw [Nat.mod_eq_of_lt hlt, if_neg (by omega), ih _ _ h]
      simp
    · rw [takeWhile_cons_of_neg hc, if_neg hc]
      simp

/-- What the lines say for the source, and what they say. -/
structure Agrees (f g : Framing) : Prop where
  isChunked : f.isChunked = g.isChunked
  none : g.contentLength = none → f.contentLength = none
  some : ∀ n, n < 2 ^ 64 → g.contentLength = some n → f.contentLength = some n

theorem parseContentLength_eq {value : List UInt8} (hn : n < 2 ^ 64)
    (h : announcedLength value = some n) : parseContentLength value = some n := by
  rw [announcedLength] at h
  split at h
  case isTrue => cases h
  case isFalse hdigits =>
    rw [Option.some.injEq] at h
    rw [parseContentLength, contentLengthLoop_eq _ 0 false (h ▸ hn), h, decide_eq_true hdigits]
    rfl

theorem parseContentLength_none {value : List UInt8} (h : announcedLength value = none) :
    parseContentLength value = none := by
  rw [announcedLength] at h
  split at h
  case isFalse => cases h
  case isTrue hdigits =>
    rw [parseContentLength, contentLengthLoop_eq _ 0 false (by rw [hdigits]; exact Nat.two_pow_pos 64),
      hdigits]
    rfl

theorem Agrees.headerLine {f g : Framing} (h : Agrees f g) (line : List UInt8) :
    Agrees (headerLine parseContentLength f line) (headerLine announcedLength g line) := by
  rw [Wget.headerLine, Wget.headerLine]
  split
  · dsimp only
    split
    · exact ⟨rfl, h.none, h.some⟩
    · exact h
  split
  · cases hn : announcedLength (line.drop (contentLengthName.length + 1)) with
    | none =>
      rw [parseContentLength_none hn]
      exact h
    | some n =>
      dsimp only
      refine ⟨?_, (fun h0 => by cases h0), fun m hm h0 => ?_⟩
      · split <;> exact h.isChunked
      · obtain rfl := Option.some.inj h0
        rw [parseContentLength_eq hm hn]
  · exact h

theorem agrees_framing (header : List UInt8) :
    Agrees (parseHttpHeaders header) (framing announcedLength header) := by
  rw [parseHttpHeaders, framing, framing]
  have hstart : Agrees ⟨false, none⟩ ⟨false, none⟩ := ⟨rfl, fun _ => rfl, fun _ _ h => h⟩
  generalize (⟨false, none⟩ : Framing) = f at hstart ⊢
  generalize headerLines header.length header = lines
  have hall : ∀ f g, Agrees f g → Agrees (lines.foldl (Wget.headerLine parseContentLength) f)
      (lines.foldl (Wget.headerLine announcedLength) g) := by
    induction lines with
    | nil => exact fun f g h => h
    | cons line lines ih => exact fun f g h => ih _ _ (h.headerLine line)
  exact hall f f hstart

theorem response_iff {P : Framing → List UInt8 → Prop} (h : firstBlank bytes = some e) :
    Response bytes P ↔ P (framing announcedLength (bytes.take e)) (bytes.drop e) := by
  refine ⟨fun ⟨e', he', hP⟩ => ?_, fun hP => ⟨e, h, hP⟩⟩
  rw [h, Option.some.injEq] at he'
  exact he' ▸ hP

theorem chunkedBody_of_complete (hf : f.isChunked = true) (h : bodyOf f p = .complete file) :
    ∃ w, w <+: p ∧ ChunkedBody w file := by
  rw [bodyOf_chunked hf] at h
  rcases hrun : chunkRun ChunkState.zero p with ⟨o, _ | s⟩
  · rw [hrun] at h
    cases h
  · rw [hrun] at h
    dsimp only at h
    split at h
    case isFalse => cases h
    case isTrue hdone =>
      obtain rfl := Progress.complete.inj h
      obtain ⟨w, rest, rfl, hbody⟩ := exists_chunkedBody ready_zero hrun hdone
      exact ⟨w, prefix_append w rest, hbody⟩

theorem not_chunkedBody_of_more (hf : f.isChunked = true) (h : bodyOf f p = .more file)
    {w q : List UInt8} (hw : w <+: p) : ¬ ChunkedBody w q := by
  intro hbody
  obtain ⟨rest, rfl⟩ := hw
  rw [bodyOf_chunked hf] at h
  rcases chunkRun_chunkedBody rest hbody ready_zero with hnone | ⟨s, hsome, hdone⟩
  · rcases hrun : chunkRun ChunkState.zero (w ++ rest) with ⟨o, _ | s⟩
    · rw [hrun] at h
      cases h
    · rw [hrun] at hnone
      cases hnone
  · rw [hsome] at h
    dsimp only at h
    rw [if_pos hdone] at h
    cases h

theorem file_of_length {body : List UInt8} (hf : f.isChunked = false)
    (hn : f.contentLength = some n) (hp : p <+: body) (hlen : n ≤ body.length)
    (h : bodyOf f p = .complete file ∨ bodyOf f p = .more file ∧ (p = body ∨ n = 0 ∧ p = [])) :
    file = body.take n := by
  obtain ⟨rest, rfl⟩ := hp
  rw [bodyOf_length hf hn] at h
  split at h
  case isTrue hc =>
    rcases h with h | ⟨h, -⟩
    · rw [← Progress.complete.inj h, take_append_of_le_length hc.2]
    · cases h
  case isFalse hc =>
    rcases h with h | ⟨h, hp | ⟨rfl, rfl⟩⟩
    · cases h
    · obtain rfl := Progress.more.inj h
      rw [← hp] at hlen ⊢
      have hnil : p = [] := by
        by_contra hne
        exact hc ⟨hne, hlen⟩
      rw [hnil, take_nil]
    · rw [← Progress.more.inj h, take_zero]

/-- A transfer that succeeds, and has found the end of the header, has the whole body where the peer
has sent it, and only there. -/
theorem complete_iff_peerComplete (peer : Peer) (hempty : start.sent = [])
    (hdelivers : Delivers peer reads) (hheader : FirstBlankFound peer reads)
    (h : Transfers start reads true t) :
    (PeerComplete peer reads → Complete peer t.out.sent) ∧
      (peer.bytes.length < 2 ^ 64 → Complete peer t.out.sent → PeerComplete peer reads) := by
  obtain ⟨f, p, file, ⟨d, e, hfound, hend, -, hf, hd, rfl⟩, hsent, hcases⟩ :=
    transfer_cases (fun b hb => (hdelivers.bytes b hb).1) h
  have hblank := hheader d e hfound hend
  rw [hempty, nil_append] at hsent
  -- the header and the body of the response
  have htake : d.take e = peer.bytes.take e := by
    obtain ⟨rest, hrest⟩ := hd.trans hdelivers.sent
    rw [← hrest, take_append_of_le_length (findHeaderEnd_le hend)]
  have hagrees := agrees_framing (peer.bytes.take e)
  rw [← htake, ← hf, htake] at hagrees
  have hprefix : (received reads).drop e <+: peer.bytes.drop e := hdelivers.sent.drop e
  have heof : Recv.eof ∈ reads → (received reads).drop e = peer.bytes.drop e :=
    fun h0 => by rw [(hdelivers.eof h0).2]
  rw [Complete, PeerComplete, response_iff hblank, response_iff hblank, hsent]
  generalize framing announcedLength (peer.bytes.take e) = g at hagrees ⊢
  cases hg : g.isChunked
  · have hchunked : f.isChunked = false := hagrees.isChunked.trans hg
    rw [if_neg (by simp), if_neg (by simp)]
    cases hn : g.contentLength with
    | some n =>
      dsimp only
      refine ⟨fun ⟨hlt, hlen⟩ => ⟨hlen, ?_⟩, fun hlt ⟨hlen, _⟩ => ⟨?_, hlen⟩⟩
      · have hn' := hagrees.some n hlt hn
        refine file_of_length hchunked hn' hprefix hlen ?_
        rcases hcases with hc | ⟨hc, h0 | ⟨-, h0 | ⟨h0, hp⟩⟩⟩
        · exact .inl hc
        · exact .inr ⟨hc, .inl (heof h0)⟩
        · rw [hn'] at h0
          cases h0
        · rw [hn', Option.some.injEq] at h0
          exact .inr ⟨hc, .inr ⟨h0, hp⟩⟩
      · rw [length_drop] at hlen
        omega
    | none =>
      have hn' := hagrees.none hn
      have hfile : file = (received reads).drop e := by
        rw [bodyOf_unframed hchunked hn'] at hcases
        rcases hcases with hc | ⟨hc, -⟩
        · cases hc
        · exact (Progress.more.inj hc).symm
      dsimp only
      rw [hfile]
      refine ⟨fun ⟨hcloses, hall⟩ => ⟨hcloses, by rw [hall]⟩, fun _ ⟨hcloses, hall⟩ => ⟨hcloses, ?_⟩⟩
      have hle := Nat.le_trans (findHeaderEnd_le hend) hd.length_le
      have hlength := congrArg List.length hall
      rw [length_drop, length_drop] at hlength
      have hle' := hdelivers.sent.length_le
      exact hdelivers.sent.eq_of_length (by omega)
  · have hchunked : f.isChunked = true := hagrees.isChunked.trans hg
    rw [if_pos rfl, if_pos rfl]
    refine ⟨fun ⟨w, q, hw, hbody⟩ => ?_, fun _ ⟨w, hw, hbody⟩ => ⟨w, file, hw, hbody⟩⟩
    rcases hcases with hc | ⟨hc, h0 | ⟨h0, -⟩⟩
    · obtain ⟨w', hw', hbody'⟩ := chunkedBody_of_complete hchunked hc
      exact ⟨w', hw'.trans hprefix, hbody'⟩
    · exact absurd hbody (not_chunkedBody_of_more hchunked hc ((heof h0).symm ▸ hw))
    · rw [hchunked] at h0
      cases h0

theorem found_singleton {h : List UInt8} (hfound : Found [r] h) : h = received [r] := by
  obtain ⟨xs, r', ys, hsplit, -, rfl⟩ := hfound
  cases xs with
  | nil =>
    rw [nil_append, List.cons.injEq] at hsplit
    rw [nil_append, hsplit.1]
  | cons x xs =>
    rw [cons_append, List.cons.injEq] at hsplit
    exact absurd hsplit.2 (by simp)

/-- A file that takes one byte a write. -/
def slowFile : Device := ⟨3, fun _ => 1, 0, []⟩

theorem working_slowFile : Working slowFile :=
  ⟨by decide, fun _ => ⟨(by decide : (1 : UInt64) ≠ 0),
    (by decide : (1 : UInt64) ≠ UInt64.ofNat (2 ^ 64 - 1))⟩⟩

/-- A response that announces two bytes, and has them. -/
def twoBytes : List UInt8 :=
  [72, 84, 84, 80, 47, 49, 46, 49, 32, 50, 48, 48, 32, 79, 75, 13, 10, 67, 111, 110, 116, 101,
   110, 116, 45, 76, 101, 110, 103, 116, 104, 58, 32, 50, 13, 10, 13, 10, 97, 98]

theorem complete_twoBytes : ∃ t, Transfers slowFile [.data twoBytes] true t ∧
    Complete ⟨twoBytes, true⟩ t.out.sent := by
  have hreaches := @onRecv_first slowFile [] twoBytes 38 (by decide) (by decide +kernel)
    (by decide +kernel)
  have hbody : bodyOf (parseHttpHeaders (([] ++ twoBytes).take 38)) (([] ++ twoBytes).drop 38) =
      .complete [97, 98] := by decide +kernel
  rw [Reaches, hbody] at hreaches
  rcases hreaches with ⟨hnot, -⟩ | ⟨t, hflow, -⟩
  · exact absurd working_slowFile hnot
  have htransfers : Transfers slowFile [.data twoBytes] true t := ⟨[], _, _, rfl, rfl, hflow⟩
  have hdelivers : Delivers ⟨twoBytes, true⟩ [.data twoBytes] := by
    refine ⟨prefix_rfl, fun bytes hb => ?_, fun h => absurd h (by simp)⟩
    obtain rfl : bytes = twoBytes := by simpa using hb
    decide
  have hfound : FirstBlankFound ⟨twoBytes, true⟩ [.data twoBytes] := by
    intro h e hfound hend
    rw [← hend, found_singleton hfound]
    decide +kernel
  have hframing : framing announcedLength (twoBytes.take 38) = ⟨false, some 2⟩ := by
    decide +kernel
  refine ⟨t, htransfers, (complete_iff_peerComplete ⟨twoBytes, true⟩ rfl hdelivers hfound
    htransfers).1 ⟨38, by decide +kernel, ?_⟩⟩
  rw [hframing]
  exact (by decide : 2 < 2 ^ 64 ∧ 2 ≤ (twoBytes.drop 38).length)

/-- A response that announces five bytes, and ends behind two. -/
def cutShort : List UInt8 :=
  [72, 84, 84, 80, 47, 49, 46, 49, 32, 50, 48, 48, 32, 79, 75, 13, 10, 67, 111, 110, 116, 101,
   110, 116, 45, 76, 101, 110, 103, 116, 104, 58, 32, 53, 13, 10, 13, 10, 97, 98]

/-- The connection ends in the middle of the body, and the transfer succeeds. -/
theorem not_complete_cutShort : ¬ ∀ (start : Device) (peer : Peer) (reads : List Recv)
    (t : Transfer), start.sent = [] → Delivers peer reads → Transfers start reads true t →
      Complete peer t.out.sent := by
  intro hall
  have hreaches := @onRecv_first slowFile [] cutShort 38 (by decide) (by decide +kernel)
    (by decide +kernel)
  have hbody : bodyOf (parseHttpHeaders (([] ++ cutShort).take 38)) (([] ++ cutShort).drop 38) =
      .more [97, 98] := by decide +kernel
  rw [Reaches, hbody] at hreaches
  rcases hreaches with ⟨hnot, -⟩ | ⟨t, hflow, -, hholds⟩
  · exact absurd working_slowFile hnot
  have htransfers : Transfers slowFile [.data cutShort, .eof] true t := by
    refine ⟨[.data cutShort], .eof, t, rfl, ?_, ?_⟩
    · have hreceive : receive (Transfer.start slowFile) [.data cutShort] =
          match onRecv (Transfer.start slowFile) (.data cutShort) with
          | .stop ok t => .stop ok t
          | .go t => .go t := rfl
      rw [hreceive, show onRecv (Transfer.start slowFile) (.data cutShort) = .go t from hflow]
    · rw [onRecv, finish, hholds.headerDone]
  have hdelivers : Delivers ⟨cutShort, true⟩ [.data cutShort, .eof] := by
    refine ⟨prefix_rfl, fun bytes hb => ?_, fun _ => ⟨rfl, rfl⟩⟩
    obtain rfl : bytes = cutShort := by simpa using hb
    decide
  have hcomplete := hall slowFile ⟨cutShort, true⟩ _ t rfl hdelivers htransfers
  have hframing : framing announcedLength (cutShort.take 38) = ⟨false, some 5⟩ := by
    decide +kernel
  have hlen : ¬ 5 ≤ (cutShort.drop 38).length := by decide
  rw [Complete, response_iff (by decide +kernel : firstBlank cutShort = some 38), hframing,
    if_neg (by decide)] at hcomplete
  exact hlen hcomplete.1

end Cleonos.Wget
