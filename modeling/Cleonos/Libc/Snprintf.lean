import Cleonos.Libc.Fields

/-!
# Bounded formatting

`dprintf` and `snprintf` run the same formatter, so the text of the one decides what the other
stores: as much of it as the buffer has room for, a terminator, and the length of all of it.
-/

namespace Cleonos.Stdio

open List
open Function (comp_apply comp_def update update_apply update_of_ne)
open Libc Buffer

/-! ## File descriptors -/

/-- A file that takes something of every write. -/
def Working (device : Device) : Prop :=
  0 ≤ device.fd ∧ ∀ k, device.answers k ≠ 0 ∧ device.answers k ≠ UInt64.ofNat (2 ^ 64 - 1)

theorem writeAll_sends (device : Device) (text : List UInt8) :
    ∃ taken rest, text = taken ++ rest ∧
      (writeAll device text).1.sent = device.sent ++ taken ∧
      (writeAll device text).1.fd = device.fd ∧
      (writeAll device text).1.answers = device.answers ∧
      ((writeAll device text).2 = true → rest = []) ∧
      (Working device → (writeAll device text).2 = true) := by
  induction device, text using writeAll.induct with
  | case1 device =>
    rw [writeAll, dif_pos rfl]
    exact ⟨[], [], rfl, (append_nil _).symm, rfl, rfl, fun _ => rfl, fun _ => rfl⟩
  | case2 device text hne wrote hfail =>
    rw [writeAll, dif_neg hne]
    simp only
    rw [dif_pos hfail]
    refine ⟨[], text, rfl, (append_nil _).symm, rfl, rfl, (fun h => nomatch h), fun h => ?_⟩
    exact absurd hfail (not_or.2 (h.2 device.calls))
  | case3 device text hne wrote device' hfail progressed ih =>
    rw [writeAll, dif_neg hne]
    simp only
    rw [dif_neg hfail]
    obtain ⟨taken, rest, hsplit, hsent, hfd, hanswers, hall, hworking⟩ := ih
    refine ⟨text.take progressed ++ taken, rest, ?_, ?_, hfd, hanswers, hall, hworking⟩
    · rw [append_assoc, ← hsplit, take_append_drop]
    · rw [← append_assoc]
      exact hsent

theorem emit_fd {sink : Sink} (hmode : sink.mode = .fd) (text : List UInt8) :
    (∃ sink', emit sink text = .ok sink' ∧ sink'.mode = .fd ∧ sink'.failed = sink.failed ∧
      (Working sink'.device ↔ Working sink.device) ∧
      sink'.device.sent = sink.device.sent ++ text) ∨
    ¬ Working sink.device ∧ ∃ sink' taken, emit sink text = .error sink' ∧ taken <+: text ∧
      sink'.device.sent = sink.device.sent ++ taken := by
  by_cases hnil : text = []
  · subst hnil
    exact .inl ⟨sink, rfl, hmode, rfl, Iff.rfl, (append_nil _).symm⟩
  rw [emit, if_neg hnil, hmode]
  simp only
  rw [writeAllFd]
  by_cases hfd : sink.device.fd < 0
  · rw [if_pos hfd]
    exact .inr ⟨fun h => Int.not_lt.2 h.1 hfd, _, [], rfl, nil_prefix,
      (append_nil _).symm⟩
  rw [if_neg hfd]
  obtain ⟨taken, rest, hsplit, hsent, hfd', hanswers, hall, hworking⟩ :=
    writeAll_sends sink.device text
  by_cases hdone : (writeAll sink.device text).2 = true
  · rw [hall hdone, append_nil] at hsplit
    rw [if_neg (by simp [hdone])]
    refine .inl ⟨_, rfl, rfl, rfl, ?_, hsent.trans (by rw [hsplit])⟩
    rw [Working, Working, hfd', hanswers]
  · rw [if_pos (by simpa using hdone)]
    exact .inr ⟨fun h => hdone (hworking h), _, taken, rfl, ⟨rest, hsplit.symm⟩, hsent⟩

theorem foldlM_fd {pieces : List (List UInt8)} {sink : Sink} (hmode : sink.mode = .fd) :
    (∃ sink', pieces.foldlM emit sink = .ok sink' ∧ sink'.mode = .fd ∧
      sink'.failed = sink.failed ∧ sink'.device.sent = sink.device.sent ++ pieces.flatten) ∨
    ¬ Working sink.device ∧ ∃ sink' taken, pieces.foldlM emit sink = .error sink' ∧
      taken <+: pieces.flatten ∧ sink'.device.sent = sink.device.sent ++ taken := by
  induction pieces generalizing sink with
  | nil => exact .inl ⟨sink, rfl, hmode, rfl, by simp⟩
  | cons text pieces ih =>
    rw [foldlM_cons, flatten_cons]
    obtain ⟨sink₁, hemit, hmode₁, hfailed₁, hworking₁, hsent₁⟩ | ⟨hbroken, sink₁, taken, hemit, hp,
      hsent₁⟩ := emit_fd hmode text
    · rw [hemit]
      obtain ⟨sink', hfold, hmode', hfailed', hsent'⟩ |
        ⟨hbroken, sink', taken, hfold, hp, hsent'⟩ := ih hmode₁
      · refine .inl ⟨sink', hfold, hmode', hfailed'.trans hfailed₁, ?_⟩
        rw [hsent', hsent₁, append_assoc]
      · refine .inr ⟨mt hworking₁.2 hbroken, sink', text ++ taken, hfold,
          prefix_append_right_inj _ |>.2 hp, ?_⟩
        rw [hsent', hsent₁, append_assoc]
    · rw [hemit]
      exact .inr ⟨hbroken, sink₁, taken, rfl, hp.trans (prefix_append _ _), hsent₁⟩

section

variable {M : Type} (mem : Memory M)

/-- A file that takes one byte at a time, and never fails. -/
def stdout : Device := ⟨1, fun _ => 1, 0, []⟩

/-- The text that `dprintf` writes. -/
def printed (fmt : List UInt8) (args : List UInt64) (memory : M) : List UInt8 :=
  (vdprintf mem stdout fmt args memory).sink.device.sent

theorem working_stdout : Working stdout := by
  have hone : (1 : UInt64) ≠ 0 ∧ (1 : UInt64) ≠ UInt64.ofNat (2 ^ 64 - 1) := by decide
  exact ⟨by decide, fun _ => hone⟩

variable {mem} {fmt : List UInt8} {args : List UInt64} {memory memory' : M} {text : List UInt8}

variable {sink : Sink} (word : UInt64) {n : ℕ}

theorem vformat_fd {sink' : Sink}
    (h : formatLoop mem fmt args memory sink = .ok (sink', memory')) (hmode : sink'.mode = .fd)
    (hfailed : sink'.failed = false) :
    vformat mem fmt args memory sink = ⟨(min sink'.count intMax : ℕ), sink', some memory'⟩ := by
  simp [vformat, h, hmode, hfailed]

theorem finalizeBuffer_eq (sink : Sink) :
    (finalizeBuffer sink).failed = sink.failed ∧ (finalizeBuffer sink).count = sink.count := by
  rw [finalizeBuffer]
  split
  · exact ⟨rfl, rfl⟩
  · split <;> exact ⟨rfl, rfl⟩

theorem vformat_buf {sink' : Sink}
    (h : formatLoop mem fmt args memory sink = .ok (sink', memory')) (hmode : sink'.mode = .buf)
    (hfailed : sink'.failed = false) : vformat mem fmt args memory sink =
      ⟨(min sink'.count intMax : ℕ), finalizeBuffer sink', some memory'⟩ := by
  obtain ⟨hfailed', hcount⟩ := finalizeBuffer_eq sink'
  rw [vformat, h]
  simp only
  rw [if_pos hmode, if_neg (by simp [hfailed', hfailed]), hcount]

/-- The text that the loop writes to every sink is the one that `dprintf` writes. -/
theorem printed_eq (h : Writes emit Counted (formatLoop mem fmt args memory) 0 text memory') :
    printed mem fmt args memory = text := by
  obtain ⟨pieces, rfl, hrun⟩ := h
  obtain ⟨sink', hfold, hmode, hfailed, hsent⟩ | ⟨hbroken, -⟩ :=
    @foldlM_fd pieces (initFd stdout) rfl
  · have hloop := hrun (initFd stdout) rfl
    rw [hfold] at hloop
    rw [printed, vdprintf, vformat_fd hloop hmode hfailed]
    exact hsent
  · exact absurd working_stdout hbroken

variable (mem fmt args memory) in
theorem exists_pieces : ∃ pieces memory', List.flatten pieces = printed mem fmt args memory ∧
    ∀ sink : Sink, sink.count = 0 →
      formatLoop mem fmt args memory sink = (pieces.foldlM emit sink).map (·, memory') := by
  obtain ⟨text, memory', h⟩ := writes_formatLoop mem fmt args memory 0
  have htext := printed_eq h
  obtain ⟨pieces, hp, hrun⟩ := h
  exact ⟨pieces, memory', hp.trans htext.symm, fun sink hcount => hrun sink hcount⟩

theorem vdprintf_sends (device : Device) (memory : M) :
    let r := vdprintf mem device fmt args memory
    ∃ taken, r.sink.device.sent = device.sent ++ taken ∧ taken <+: printed mem fmt args memory ∧
      (r.rc ≠ -1 ∨ Working device → taken = printed mem fmt args memory) := by
  obtain ⟨pieces, memory', hp, hrun⟩ := exists_pieces mem fmt args memory
  have hloop := hrun (initFd device) rfl
  rw [vdprintf, ← hp]
  obtain ⟨sink', hfold, hmode, hfailed, hsent⟩ | ⟨hbroken, sink', taken, hfold, htaken, hsent⟩ :=
    @foldlM_fd pieces (initFd device) rfl
  · rw [hfold] at hloop
    rw [vformat_fd hloop hmode hfailed]
    exact ⟨pieces.flatten, hsent, prefix_rfl, fun _ => rfl⟩
  · rw [hfold] at hloop
    rw [vformat, hloop]
    refine ⟨taken, hsent, htaken, ?_⟩
    rintro (h | h)
    · exact absurd rfl h
    · exact absurd h hbroken

/-- What `snprintf` leaves in a buffer: the text as far as there is room for it and its
terminator, and all other bytes as they were. -/
def stored (n : ℕ) (text : List UInt8) (out : ℕ → UInt8) : ℕ → UInt8 :=
  if n = 0 then out else store out 0 (text.take (n - 1) ++ [0])

/-- A sink that has the text in its buffer, as far as there is room for it. -/
structure Holds (out : Option (ℕ → UInt8)) (n : ℕ) (text : List UInt8) (sink : Sink) : Prop where
  mode : sink.mode = .buf
  failed : sink.failed = false
  capacity : sink.capacity = n
  count : sink.count = text.length
  buffer : sink.buffer = out.map fun out => store out 0 (text.take (n - 1))

theorem update_store (out : ℕ → UInt8) (text : List UInt8) (c : UInt8) :
    update (store out 0 text) text.length c = store out 0 (text ++ [c]) := by
  funext j
  rw [update_apply]
  obtain hj | rfl | hj := Nat.lt_trichotomy j text.length
  · rw [if_neg (by omega), store_of_mem (Nat.zero_le j) (by omega),
      store_of_mem (Nat.zero_le j) (by simp; omega)]
    simp [getElem_append_left hj]
  · rw [if_pos rfl, store_of_mem (Nat.zero_le _) (by simp)]
    simp
  · rw [if_neg (by omega), store_of_ge (by omega), store_of_ge (by simp; omega)]

theorem fill_store (out : ℕ → UInt8) (text more : List UInt8)
    (h : text.length + more.length ≤ 2 ^ 64) :
    fill (store out 0 text) text.length more = store out 0 (text ++ more) := by
  induction more generalizing text with
  | nil => rw [fill, append_nil]
  | cons c more ih =>
    rw [length_cons] at h
    rw [fill, Nat.mod_eq_of_lt (by omega), update_store]
    have hlen : text.length + 1 = (text ++ [c]).length := by simp
    rw [hlen, ih (text ++ [c]) (by simp; omega), append_assoc]
    rfl

/-- A piece of text is put behind the text that is there, as far as there is room for it. -/
theorem Holds.emit {out : Option (ℕ → UInt8)} {more : List UInt8}
    (h : Holds out n text sink) (hn : n < 2 ^ 64) (hlen : text.length + more.length < 2 ^ 64) :
    ∃ sink', Stdio.emit sink more = .ok sink' ∧ Holds out n (text ++ more) sink' := by
  by_cases hnil : more = []
  · subst hnil
    exact ⟨sink, rfl, by rwa [append_nil]⟩
  rw [Stdio.emit, if_neg hnil, h.mode]
  refine ⟨_, rfl, rfl, h.failed, h.capacity, ?_, ?_⟩
  · simp only [h.count, length_append]
    exact Nat.mod_eq_of_lt hlen
  · simp only [h.buffer, h.capacity, h.count, Option.map_map]
    congr 1
    funext out
    simp only [comp_apply]
    have hpos := length_pos_of_ne_nil hnil
    have hroom : writable n text.length = n - 1 - text.length := by
      rw [writable, Nat.mod_eq_of_lt (by omega)]
      split <;> omega
    rw [hroom]
    by_cases hfull : text.length < n - 1
    · have htake : text.take (n - 1) = text := take_of_length_le (by omega)
      have hmore : (more.take (n - 1 - text.length)).length ≤ more.length := by simp
      rw [if_pos (by omega), take_append, htake, fill_store _ _ _ (by omega)]
    · have hzero : n - 1 - text.length = 0 := by omega
      rw [hzero, take_append_of_le_length (by omega), take_zero]
      split <;> rfl

theorem Holds.foldlM {out : Option (ℕ → UInt8)} {n : ℕ} {sink : Sink} {pieces : List (List UInt8)}
    (h : Holds out n text sink) (hn : n < 2 ^ 64)
    (hlen : text.length + pieces.flatten.length < 2 ^ 64) :
    ∃ sink', pieces.foldlM Stdio.emit sink = .ok sink' ∧
      Holds out n (text ++ pieces.flatten) sink' := by
  induction pieces generalizing text sink with
  | nil => exact ⟨sink, rfl, by simpa using h⟩
  | cons more pieces ih =>
    rw [flatten_cons, length_append] at hlen
    obtain ⟨sink₁, hemit, h₁⟩ : ∃ sink₁, Stdio.emit sink more = .ok sink₁ ∧
        Holds out n (text ++ more) sink₁ := h.emit hn (by omega)
    have hlen' : (text ++ more).length + pieces.flatten.length < 2 ^ 64 := by
      rw [length_append]
      omega
    obtain ⟨sink', hfold, h'⟩ := ih h₁ hlen'
    rw [flatten_cons, ← append_assoc]
    exact ⟨sink', by rw [foldlM_cons, hemit]; exact hfold, h'⟩

theorem store_update_front (out : ℕ → UInt8) (c : UInt8) {text : List UInt8} (h : text ≠ []) :
    store (update out 0 c) 0 text = store out 0 text := by
  funext j
  obtain hj | hj := Nat.lt_or_ge j text.length
  · rw [store_of_mem (Nat.zero_le j) (by omega), store_of_mem (Nat.zero_le j) (by omega)]
  · have hpos := length_pos_of_ne_nil h
    rw [store_of_ge (by omega), store_of_ge (by omega), update_of_ne (by omega)]

theorem holds_init (out : Option (ℕ → UInt8)) (n : ℕ) :
    Holds (initBuffer out n).buffer n [] (initBuffer out n) := by
  refine ⟨rfl, rfl, rfl, rfl, ?_⟩
  have hnil : ∀ out : ℕ → UInt8, store out 0 [] = out := fun out =>
    funext fun j => store_of_ge (Nat.zero_le j)
  simp [hnil]

theorem buffer_finalize (hmode : sink.mode = .buf) (hpos : sink.capacity ≠ 0) :
    (finalizeBuffer sink).buffer =
      sink.buffer.map fun b => update b (min sink.count (sink.capacity - 1)) 0 := by
  rw [finalizeBuffer, if_neg (by simp [hmode, hpos])]
  split
  · rw [Nat.min_eq_left (by omega)]
  · rw [Nat.min_eq_right (by omega)]

theorem finalize_holds {out : Option (ℕ → UInt8)}
    (h : Holds (initBuffer out n).buffer n text sink) :
    (finalizeBuffer sink).buffer = out.map (stored n text) := by
  have hbuffer := h.buffer
  simp only [initBuffer, Option.map_map] at hbuffer
  by_cases hn : n = 0
  · rw [finalizeBuffer, if_pos (.inr (h.capacity.trans hn)), hbuffer, hn]
    exact congrArg (out.map ·) (funext fun out => funext fun j => store_of_ge (Nat.zero_le j))
  · have hindex : min text.length (n - 1) = (text.take (n - 1)).length := by
      rw [length_take, Nat.min_comm]
    rw [buffer_finalize h.mode (by rwa [h.capacity]), h.capacity, h.count, hindex, hbuffer,
      Option.map_map]
    congr 1
    funext out
    simp only [comp_apply]
    rw [update_store, if_pos (Nat.pos_of_ne_zero hn), store_update_front _ _ (by simp), stored,
      if_neg hn]

/-- The law of `snprintf` for a format: what it returns and what it leaves in the buffer, for
every buffer and every size. -/
def Bounded (mem : Memory M) (fmt : List UInt8) (args : List UInt64) (memory : M) : Prop :=
  ∀ (out : Option (ℕ → UInt8)) (n : ℕ), n < 2 ^ 64 →
    (vsnprintf mem out n fmt args memory).rc =
      (min (printed mem fmt args memory).length intMax : ℕ) ∧
    (vsnprintf mem out n fmt args memory).sink.buffer =
      out.map (stored n (printed mem fmt args memory))

theorem bounded_of_lt (h : (printed mem fmt args memory).length < 2 ^ 64) :
    Bounded mem fmt args memory := by
  intro out n hn
  obtain ⟨pieces, memory', hp, hrun⟩ := exists_pieces mem fmt args memory
  have hloop := hrun (initBuffer out n) rfl
  obtain ⟨sink', hfold, hholds⟩ := (holds_init out n).foldlM hn (by rw [hp]; simpa using h)
  rw [nil_append, hp] at hholds
  rw [hfold] at hloop
  rw [vsnprintf, vformat_buf hloop hholds.mode hholds.failed]
  exact ⟨by rw [hholds.count], finalize_holds hholds⟩

theorem fill_of_ne {j : ℕ} (out : ℕ → UInt8) (start : ℕ) (more : List UInt8)
    (h : ∀ i < more.length, (start + i) % 2 ^ 64 ≠ j) : fill out start more j = out j := by
  induction more generalizing out start with
  | nil => rfl
  | cons c more ih =>
    have hrest : ∀ i < more.length, (start + 1 + i) % 2 ^ 64 ≠ j := fun i hi => by
      rw [Nat.add_assoc, Nat.add_comm 1 i]
      exact h (i + 1) (by simpa using hi)
    rw [fill, ih _ _ hrest]
    exact update_of_ne (h 0 (by simp)).symm _ _

/-- A buffer sink, and the last byte of its buffer. -/
structure Last (n : ℕ) (c : Option UInt8) (sink : Sink) : Prop where
  mode : sink.mode = .buf
  failed : sink.failed = false
  capacity : sink.capacity = n
  count : sink.count < 2 ^ 64
  last : sink.buffer.map (fun buffer => buffer (n - 1)) = c

theorem Last.emit {c : Option UInt8} (h : Last n c sink) (hn : n < 2 ^ 64)
    (more : List UInt8) : ∃ sink', Stdio.emit sink more = .ok sink' ∧ Last n c sink' := by
  by_cases hnil : more = []
  · subst hnil
    exact ⟨sink, rfl, h⟩
  have hcount := h.count
  rw [Stdio.emit, if_neg hnil, h.mode]
  refine ⟨_, rfl, rfl, h.failed, h.capacity, Nat.mod_lt _ (by omega), ?_⟩
  simp only [Option.map_map, h.capacity]
  rw [← h.last]
  congr 1
  funext buffer
  simp only [comp_apply]
  by_cases hpos : n > 0
  · rw [if_pos hpos]
    refine fill_of_ne _ _ _ fun i hi => ?_
    rw [length_take, writable] at hi
    split at hi <;> omega
  · rw [if_neg hpos]

theorem Last.foldlM {n : ℕ} {c : Option UInt8} {sink : Sink} (h : Last n c sink) (hn : n < 2 ^ 64)
    (pieces : List (List UInt8)) :
    ∃ sink', pieces.foldlM Stdio.emit sink = .ok sink' ∧ Last n c sink' := by
  induction pieces generalizing sink with
  | nil => exact ⟨sink, rfl, h⟩
  | cons more pieces ih =>
    obtain ⟨sink₁, hemit, h₁⟩ := h.emit hn more
    obtain ⟨sink', hfold, h'⟩ := ih h₁
    exact ⟨sink', by rw [foldlM_cons, hemit]; exact hfold, h'⟩

theorem exists_vsnprintf (mem : Memory M) (fmt : List UInt8) (args : List UInt64) (memory : M)
    (out : Option (ℕ → UInt8)) (hn : n < 2 ^ 64) :
    ∃ sink memory', vsnprintf mem out n fmt args memory =
        ⟨(min sink.count intMax : ℕ), finalizeBuffer sink, some memory'⟩ ∧
      sink.count = (printed mem fmt args memory).length % 2 ^ 64 ∧
      Last n ((initBuffer out n).buffer.map fun buffer => buffer (n - 1)) sink := by
  obtain ⟨pieces, memory', hp, hrun⟩ := exists_pieces mem fmt args memory
  have hinit : Last n ((initBuffer out n).buffer.map fun buffer => buffer (n - 1))
      (initBuffer out n) := ⟨rfl, rfl, rfl, Nat.two_pow_pos 64, rfl⟩
  obtain ⟨sink, hfold, hlast⟩ := hinit.foldlM hn pieces
  have hloop := hrun (initBuffer out n) rfl
  have hzero : Counted (initBuffer out n) 0 := rfl
  have hcounted := counts_emit.foldlM hzero hfold
  rw [Counted, Nat.zero_add, hp] at hcounted
  rw [hfold] at hloop
  exact ⟨sink, memory', vformat_buf hloop hlast.mode hlast.failed, hcounted, hlast⟩

/-- A text that the count cannot hold has its terminator in the middle of the buffer. -/
theorem not_bounded_of_wrap (h : 2 ^ 64 ≤ (printed mem fmt args memory).length)
    (hroom : (printed mem fmt args memory).length % 2 ^ 64 < 2 ^ 64 - 2) :
    ¬ Bounded mem fmt args memory := by
  intro hbounded
  -- a buffer of ones that ends one byte behind the place where the count stops
  obtain ⟨n, hn⟩ : ∃ n, n = (printed mem fmt args memory).length % 2 ^ 64 + 2 := ⟨_, rfl⟩
  obtain ⟨sink, memory', hrun, hcount, hlast⟩ :=
    exists_vsnprintf mem fmt args memory (some fun _ => 1) (n := n) (by omega)
  have hstored := (hbounded (some fun _ => 1) n (by omega)).2
  rw [hrun, buffer_finalize hlast.mode (by rw [hlast.capacity]; omega), hlast.capacity, hcount,
    Nat.min_eq_left (by omega)] at hstored
  have hcell := congrArg (Option.map fun buffer => buffer (n - 1)) hstored
  have hone : sink.buffer.map (fun buffer => buffer (n - 1)) = some 1 := by
    rw [hlast.last]
    simp [initBuffer, show n > 0 by omega, update_of_ne (show n - 1 ≠ 0 by omega)]
  have hkept : ∀ buffer : ℕ → UInt8,
      update buffer ((printed mem fmt args memory).length % 2 ^ 64) 0 (n - 1) =
        buffer (n - 1) := fun buffer => update_of_ne (by omega) _ _
  have hlen : ((printed mem fmt args memory).take (n - 1)).length = n - 1 := by
    rw [length_take]
    omega
  simp only [Option.map_map, comp_def, hkept, hone, Option.map_some, Option.some.injEq,
    stored, if_neg (show n ≠ 0 by omega)] at hcell
  rw [store_of_mem (Nat.zero_le _) (by rw [length_append, hlen]; simp)] at hcell
  simp [getElem_append_right, hlen] at hcell

/-- A directive without flags, width and precision. -/
def plain (length : Length) : Directive := ⟨false, false, 0, none, length⟩

theorem signedText_plain (length : Length) (value : ℤ) :
    signedText (plain length) value = i64ToDec value 96 := by
  have hjoin : (signDigits value).1 ++ (signDigits value).2 = i64ToDec value 96 := by
    rw [signDigits]
    by_cases h : (i64ToDec value 96).headD 0 = 45
    · obtain ⟨c, rest, hbuf⟩ := exists_cons_of_ne_nil (i64ToDec_ne_nil value)
      simp only [if_pos h]
      rw [hbuf] at h ⊢
      exact congrArg (· :: rest) h.symm
    · simp only [if_neg h]
      rfl
  rw [← hjoin]
  simp [signedText, plain, shownDigits, leadingZeros, padding]

theorem unsignedText_plain (length : Length) (value base : ℕ) (upper : Bool) :
    unsignedText (plain length) value base upper = u64ToBase value base upper 96 := by
  simp [unsignedText, plain, shownDigits, leadingZeros, padding]

variable (mem memory)

theorem printed_lld :
    printed mem [37, 108, 108, 100] [word] memory = i64ToDec word.toInt64.toInt 96 := by
  have hwrites := @writes_directive M mem 100 [108, 108, 100] [] (plain .ll) [word] [] memory memory
    memory 0 _ [] (by decide) rfl (writes_signed mem (plain .ll) (.inl rfl) [word] memory 0)
    writes_nil
  rw [printed_eq hwrites, append_nil, signedText_plain]
  rfl

theorem printed_llu :
    printed mem [37, 108, 108, 117] [word] memory = u64ToBase word.toNat 10 false 96 := by
  have hwrites := @writes_directive M mem 117 [108, 108, 117] [] (plain .ll) [word] [] memory memory
    memory 0 _ [] (by decide) rfl (writes_unsigned mem (plain .ll) (.inl rfl) [word] memory 0)
    writes_nil
  rw [printed_eq hwrites, append_nil, unsignedText_plain]
  rfl

theorem printed_llx :
    printed mem [37, 108, 108, 120] [word] memory = u64ToBase word.toNat 16 false 96 := by
  have hwrites := @writes_directive M mem 120 [108, 108, 120] [] (plain .ll) [word] [] memory memory
    memory 0 _ [] (by decide) rfl
    (writes_unsigned mem (plain .ll) (.inr (.inl rfl)) [word] memory 0) writes_nil
  rw [printed_eq hwrites, append_nil, unsignedText_plain]
  rfl

variable {mem memory}

/-- **The law of formatted output.** A file is sent the text of the format, or a part of it where a
write fails; `snprintf` keeps its law for a text that the count can hold and, but for two
remainders, for no other; and a number that was printed is read back as it was. -/
theorem bounded_formatting (mem : Memory M) (memory : M) (fmt : List UInt8) (args : List UInt64) :
    ((printed mem fmt args memory).length < 2 ^ 64 → Bounded mem fmt args memory) ∧
    (2 ^ 64 ≤ (printed mem fmt args memory).length →
      (printed mem fmt args memory).length % 2 ^ 64 < 2 ^ 64 - 2 → ¬ Bounded mem fmt args memory) ∧
    (∀ device, ∃ taken,
      (vdprintf mem device fmt args memory).sink.device.sent = device.sent ++ taken ∧
      taken <+: printed mem fmt args memory ∧
      ((vdprintf mem device fmt args memory).rc ≠ -1 ∨ Working device →
        taken = printed mem fmt args memory)) ∧
    (∀ word, strtoll (printed mem [37, 108, 108, 100] [word] memory) 10 =
        some (word.toInt64.toInt, []) ∧
      strtoull (printed mem [37, 108, 108, 117] [word] memory) 10 = some (word.toNat, []) ∧
      strtoull (printed mem [37, 108, 108, 120] [word] memory) 16 = some (word.toNat, [])) := by
  refine ⟨bounded_of_lt, not_bounded_of_wrap, fun device => vdprintf_sends device memory,
    fun word => ⟨?_, ?_, ?_⟩⟩
  · rw [printed_lld]
    exact strtoll_i64ToDec (Int64.minValue_le_toInt _) (Int64.toInt_lt _)
  · rw [printed_llu]
    exact strtoull_u64ToBase (.inl rfl) word.toNat_lt
  · rw [printed_llx]
    exact strtoull_u64ToBase (.inr rfl) word.toNat_lt

/-- A memory without strings. -/
def noMemory : Memory Unit := ⟨fun _ _ => [], fun memory _ _ => memory⟩

theorem bounded_seven :
    (printed noMemory [37, 100] [7] ()).length < 2 ^ 64 ∧ Bounded noMemory [37, 100] [7] () := by
  have hprinted : printed noMemory [37, 100] [7] () = [55] := by
    have hwrites := @writes_directive Unit noMemory 100 [100] [] (plain .default) [7] [] () () () 0
      _ [] (by decide) rfl (writes_signed noMemory (plain .default) (.inl rfl) [7] () 0) writes_nil
    rw [printed_eq hwrites, append_nil, signedText_plain]
    decide
  have hlen : (printed noMemory [37, 100] [7] ()).length < 2 ^ 64 := by
    rw [hprinted]
    decide
  exact ⟨hlen, (bounded_formatting noMemory () [37, 100] [7]).1 hlen⟩

theorem signedText_zero {width : ℕ} (h : 1 < width) (length : Length) :
    signedText ⟨false, false, width, none, length⟩ 0 = List.replicate (width - 1) 32 ++ [48] := by
  have hdigits : signDigits 0 = ([], [48]) := by decide
  simp [signedText, hdigits, shownDigits, leadingZeros, padding, h]

/-- `%18446744073709551615dx`: a number in a field of `2 ^ 64 - 1` bytes, and a letter. The text
has `2 ^ 64` bytes, and the call returns 0. -/
theorem wide_not_bounded :
    let fmt : List UInt8 := [37, 49, 56, 52, 52, 54, 55, 52, 52, 48, 55, 51, 55, 48, 57, 53, 53, 49,
      54, 49, 53, 100, 120]
    (printed noMemory fmt [0] ()).length = 2 ^ 64 ∧
      (vsnprintf noMemory none 0 fmt [0] ()).rc = 0 ∧ ¬ Bounded noMemory fmt [0] () := by
  intro fmt
  have hdirective : directive fmt.tail =
      (⟨false, false, 2 ^ 64 - 1, none, .default⟩, [100, 120]) := by decide
  have hconv := writes_signed noMemory ⟨false, false, 2 ^ 64 - 1, none, .default⟩ (.inl rfl)
    ([0] : List UInt64) () 0
  have hletter := fun n => @writes_plain Unit noMemory 120 [] [] () () n [] (by decide) writes_nil
  have hprinted : printed noMemory fmt [0] () =
      List.replicate (2 ^ 64 - 1 - 1) 32 ++ [48] ++ [120] := by
    have hwrites := writes_directive (by decide) hdirective hconv (hletter _)
    refine (printed_eq hwrites).trans ?_
    exact congrArg (· ++ [120]) (signedText_zero (by omega) _)
  have hlen : (printed noMemory fmt [0] ()).length = 2 ^ 64 := by
    rw [hprinted, length_append, length_append, length_replicate]
    rfl
  obtain ⟨sink, memory', hrun, hcount, -⟩ :=
    exists_vsnprintf noMemory fmt [0] () none (Nat.two_pow_pos 64)
  refine ⟨hlen, ?_, not_bounded_of_wrap hlen.ge (by rw [hlen]; omega)⟩
  rw [hrun, hcount, hlen]
  rfl

end

end Cleonos.Stdio
