import Cleonos.Lib.Prog
import Cleonos.Libc.Stdlib

/-!
# The text of a format

Whatever its sink, the formatter writes the same text: the one that the format string, the
arguments and the memory determine.
-/

namespace Cleonos.Stdio

/-! ## The pieces of a field -/

/-- The bytes in front of a field or behind it. -/
def padding (due : Bool) (ch : UInt8) (width length : ℕ) : List UInt8 :=
  if due ∧ width > length then List.replicate (width - length) ch else []

theorem emits_repeat (ch : UInt8) (n : ℕ) :
    Emits emit (emitRepeat ch n) (List.replicate n ch) := by
  induction n with
  | zero => exact Emits.nothing
  | succ n ih => exact (Emits.piece [ch]).bind ih

theorem emits_padding (due : Bool) (ch : UInt8) (width length : ℕ) :
    Emits emit (emitPadding due ch width length) (padding due ch width length) :=
  Emits.ite (fun _ => emits_repeat ch _) fun _ => Emits.nothing

/-- The text of `clio_emit_with_width`. -/
def paddedText (text : List UInt8) (leftAlign : Bool) (padChar : UInt8) (width : ℕ) : List UInt8 :=
  padding (!leftAlign) padChar width text.length ++
    (text ++ padding leftAlign 32 width text.length)

theorem emits_withWidth (text : List UInt8) (leftAlign : Bool) (padChar : UInt8) (width : ℕ) :
    Emits emit (emitWithWidth text leftAlign padChar width)
      (paddedText text leftAlign padChar width) :=
  (emits_padding _ _ _ _).bind <| (Emits.piece text).bind (emits_padding _ _ _ _)

theorem emits_stringField (d : Directive) (text : List UInt8) :
    ∃ text', Emits emit (stringField d text) text' := by
  cases h : d.precision with
  | none =>
    refine ⟨_, (emits_withWidth text d.leftAlign 32 d.width).congr fun sink => ?_⟩
    rw [stringField, h]
  | some n =>
    refine ⟨_, (emits_withWidth (text.take n) d.leftAlign 32 d.width).congr fun sink => ?_⟩
    rw [stringField, h]

/-- The text of `%u`, `%x` and `%X`. -/
def unsignedText (d : Directive) (value base : ℕ) (upper : Bool) : List UInt8 :=
  let digits := shownDigits d value (u64ToBase value base upper 96)
  let zeros := leadingZeros d digits
  let coreLen := (digits.length + zeros) % 2 ^ 64
  let padChar := if d.zeroPad ∧ d.precision = none ∧ d.leftAlign = false then 48 else 32
  padding (!d.leftAlign) padChar d.width coreLen ++
    (List.replicate zeros 48 ++ (digits ++ padding d.leftAlign 32 d.width coreLen))

/-- The text of `%p`. -/
def pointerText (d : Directive) (value : ℕ) : List UInt8 :=
  let digits := shownDigits d value (u64ToBase value 16 false 96)
  let zeros := leadingZeros d digits
  let coreLen := (2 + zeros + digits.length) % 2 ^ 64
  padding (!d.leftAlign) 32 d.width coreLen ++
    ([48, 120] ++ (List.replicate zeros 48 ++ (digits ++ padding d.leftAlign 32 d.width coreLen)))

/-- The sign and the digits of a number. -/
def signDigits (value : ℤ) : List UInt8 × List UInt8 :=
  let numberBuf := i64ToDec value 96
  if numberBuf.headD 0 = 45 then ([45], numberBuf.tail) else ([], numberBuf)

/-- The text of `%d`: zeros that fill the field stand behind the sign, blanks before it. -/
def signedText (d : Directive) (value : ℤ) : List UInt8 :=
  let signChar := (signDigits value).1
  let digits := shownDigits d value (signDigits value).2
  let zeros := leadingZeros d digits
  let coreLen := (digits.length + zeros + signChar.length) % 2 ^ 64
  let front :=
    if d.leftAlign = false ∧ d.width > coreLen then
      if d.zeroPad ∧ d.precision = none then
        signChar ++ List.replicate (d.width - coreLen) 48
      else List.replicate (d.width - coreLen) 32 ++ signChar
    else signChar
  front ++ (List.replicate zeros 48 ++ (digits ++ padding d.leftAlign 32 d.width coreLen))

variable {d : Directive}

theorem emits_unsignedField {value base : ℕ} {upper : Bool}
    (h : u64ToBase value base upper 96 ≠ []) :
    Emits emit (unsignedField d value base upper) (unsignedText d value base upper) := by
  refine Emits.congr ((emits_padding _ _ _ _).bind <| (emits_repeat _ _).bind <|
    (Emits.piece _).bind (emits_padding _ _ _ _)) fun sink => ?_
  rw [unsignedField, if_neg h]

theorem emits_pointerField {value : ℕ} (h : u64ToBase value 16 false 96 ≠ []) :
    Emits emit (pointerField d value) (pointerText d value) := by
  refine Emits.congr ((emits_padding _ _ _ _).bind <| (Emits.piece _).bind <|
    (emits_repeat _ _).bind <| (Emits.piece _).bind (emits_padding _ _ _ _)) fun sink => ?_
  rw [pointerField, if_neg h]

theorem emits_front (d : Directive) (signChar : List UInt8) (coreLen : ℕ) :
    Emits emit
      (fun sink => signedPadding d signChar coreLen sink >>= fun p =>
        emit p.1 (if p.2 then [] else signChar))
      (if d.leftAlign = false ∧ d.width > coreLen then
        if d.zeroPad ∧ d.precision = none then signChar ++ List.replicate (d.width - coreLen) 48
        else List.replicate (d.width - coreLen) 32 ++ signChar
      else signChar) := by
  by_cases hpad : d.leftAlign = false ∧ d.width > coreLen
  · rw [if_pos hpad]
    by_cases hzero : d.zeroPad ∧ d.precision = none
    · rw [if_pos hzero]
      refine Emits.congr ((Emits.piece signChar).bind (emits_repeat 48 _)) fun sink => ?_
      rw [signedPadding, if_pos hpad, if_pos hzero, bind_assoc]
      refine bind_congr fun s => ?_
      rw [bind_assoc]
      -- nothing is left of the sign to write behind the zeros
      exact bind_pure _
    · rw [if_neg hzero]
      refine Emits.congr ((emits_repeat 32 _).bind (Emits.piece signChar)) fun sink => ?_
      rw [signedPadding, if_pos hpad, if_neg hzero, bind_assoc]
      rfl
  · rw [if_neg hpad]
    refine Emits.congr (Emits.piece signChar) fun sink => ?_
    rw [signedPadding, if_neg hpad]
    rfl

theorem emits_signedField {value : ℤ} (h : i64ToDec value 96 ≠ []) :
    Emits emit (signedField d value) (signedText d value) := by
  have hsplit : signDigits value =
      (if (i64ToDec value 96).headD 0 = 45 then [45] else [],
        if (i64ToDec value 96).headD 0 = 45 then (i64ToDec value 96).tail
        else i64ToDec value 96) := by
    rw [signDigits]
    split <;> rfl
  refine Emits.congr ((emits_front d _ _).bind <| (emits_repeat _ _).bind <|
    (Emits.piece _).bind (emits_padding _ _ _ _)) fun sink => ?_
  rw [signedField, if_neg h, hsplit]
  exact (bind_assoc _ _ _).symm

/-- The count of a sink that was given so much. -/
def Counted (sink : Sink) (n : ℕ) : Prop := sink.count = n % 2 ^ 64

theorem counts_emit : Counts emit Counted := by
  intro sink n text sink' hcount h
  rw [Counted] at hcount ⊢
  rw [emit] at h
  split at h
  · next hnil =>
    cases h
    simpa [hnil] using hcount
  · split at h
    · simp only at h
      split at h <;> cases h
      simp [hcount]
    · cases h
      simp [hcount]

variable {M : Type} (mem : Memory M)

theorem writes_signed (d : Directive) {spec : UInt8} (hd : spec = 100 ∨ spec = 105)
    (args : List UInt64) (memory : M) (n : ℕ) :
    Writes emit Counted (conversion mem d spec args memory) n
      (signedText d (signedArg d.length (args.headD 0))) (args.tail, memory) := by
  refine (Writes.of_emits (emits_signedField (i64ToDec_ne_nil _)) _).congr fun sink _ => ?_
  rw [conversion, if_neg (by rintro rfl; revert hd; decide),
    if_neg (by rintro rfl; revert hd; decide), if_pos hd]

theorem writes_unsigned (d : Directive) {spec : UInt8} (hu : spec = 117 ∨ spec = 120 ∨ spec = 88)
    (args : List UInt64) (memory : M) (n : ℕ) :
    Writes emit Counted (conversion mem d spec args memory) n
      (unsignedText d (unsignedArg d.length (args.headD 0)) (if spec = 117 then 10 else 16)
        (spec = 88)) (args.tail, memory) := by
  have hdigits := @u64ToBase_ne_nil (if spec = 117 then 10 else 16)
    (unsignedArg d.length (args.headD 0)) (spec = 88) 96 (by split <;> omega) (by split <;> omega)
    (by omega)
  refine (Writes.of_emits (emits_unsignedField hdigits) _).congr fun sink _ => ?_
  rw [conversion, if_neg (by rintro rfl; revert hu; decide),
    if_neg (by rintro rfl; revert hu; decide),
    if_neg (by rintro (rfl | rfl) <;> revert hu <;> decide), if_pos hu]

/-- One conversion writes one text, and leaves the same arguments and memory behind for all
sinks. -/
theorem writes_conversion (d : Directive) (spec : UInt8) (args : List UInt64) (memory : M)
    (n : ℕ) :
    ∃ text rest, Writes emit Counted (conversion mem d spec args memory) n text rest := by
  have hfield : ∀ {f : Sink → Except Sink Sink} {text : List UInt8}, Emits emit f text →
      Writes emit Counted (fun sink => (f sink).map fun sink => (sink, args.tail, memory)) n text
        (args.tail, memory) := fun hf => Writes.of_emits hf _
  by_cases hs : spec = 115
  · obtain ⟨text, htext⟩ := emits_stringField d (stringArg mem memory (args.headD 0))
    refine ⟨_, _, (hfield htext).congr fun sink _ => ?_⟩
    rw [conversion, if_pos hs]
  by_cases hc : spec = 99
  · have hchar := emits_withWidth [(args.headD 0).toUInt8] d.leftAlign 32 d.width
    refine ⟨_, _, (hfield hchar).congr fun sink _ => ?_⟩
    rw [conversion, if_neg hs, if_pos hc]
  by_cases hd : spec = 100 ∨ spec = 105
  · exact ⟨_, _, writes_signed mem d hd args memory n⟩
  by_cases hu : spec = 117 ∨ spec = 120 ∨ spec = 88
  · exact ⟨_, _, writes_unsigned mem d hu args memory n⟩
  by_cases hp : spec = 112
  · have hpointer := @emits_pointerField d (args.headD 0).toNat
      (u64ToBase_ne_nil (by omega) (by omega) (by omega))
    refine ⟨_, _, (hfield hpointer).congr fun sink _ => ?_⟩
    rw [conversion, if_neg hs, if_neg hc, if_neg hd, if_neg hu, if_pos hp]
  by_cases hn : spec = 110
  · -- the count of the sink is all that `%n` stores
    refine ⟨[], (args.tail, storeCount mem ⟨.buf, ⟨0, fun _ => 0, 0, []⟩, none, 0, n % 2 ^ 64,
      false⟩ (args.headD 0) memory), (Writes.done _).congr fun sink hcount => ?_⟩
    rw [conversion, if_neg hs, if_neg hc, if_neg hd, if_neg hu, if_neg hp, if_pos hn, storeCount,
      storeCount, hcount]
  · refine ⟨_, _, (Writes.of_emits ((Emits.piece [37]).bind (Emits.piece [spec]))
      (args, memory)).congr fun sink _ => ?_⟩
    rw [conversion, if_neg hs, if_neg hc, if_neg hd, if_neg hu, if_neg hp, if_neg hn]
    exact (map_bind (fun sink => (sink, args, memory)) (emit sink [37])
      fun sink => emit sink [spec]).symm

section

variable {mem} {c spec : UInt8} {cursor rest : List UInt8} {d : Directive}
  {args args' : List UInt64}
  {memory memory₁ memory' : M} {n : ℕ} {text text' : List UInt8}

theorem writes_nil : Writes emit Counted (formatLoop mem [] args memory) n [] memory := by
  refine (Writes.done memory).congr fun sink _ => ?_
  rw [formatLoop]

theorem writes_plain (hc : c ≠ 37)
    (hrest : Writes emit Counted (formatLoop mem cursor args memory) (n + 1) text memory') :
    Writes emit Counted (formatLoop mem (c :: cursor) args memory) n (c :: text) memory' := by
  refine (Writes.emits_bind counts_emit (Emits.piece [c]) hrest).congr fun sink _ => ?_
  rw [formatLoop, if_pos hc]

theorem writes_percent (hc : cursor.headD 0 = 37)
    (hrest : Writes emit Counted (formatLoop mem cursor.tail args memory) (n + 1) text memory') :
    Writes emit Counted (formatLoop mem (37 :: cursor) args memory) n (37 :: text) memory' := by
  refine (Writes.emits_bind counts_emit (Emits.piece [37]) hrest).congr fun sink _ => ?_
  rw [formatLoop, if_neg (not_not.2 rfl), if_pos hc]

theorem writes_unfinished (hc : cursor.headD 0 ≠ 37) (hd : directive cursor = (d, [])) :
    Writes emit Counted (formatLoop mem (37 :: cursor) args memory) n [] memory := by
  refine (Writes.done memory).congr fun sink _ => ?_
  rw [formatLoop, if_neg (not_not.2 rfl), if_neg hc]
  split
  · rfl
  · next h =>
    rw [hd] at h
    cases h

theorem writes_directive (hc : cursor.headD 0 ≠ 37) (hd : directive cursor = (d, spec :: rest))
    (hconv : Writes emit Counted (conversion mem d spec args memory) n text (args', memory₁))
    (hrest : Writes emit Counted (formatLoop mem rest args' memory₁) (n + text.length) text'
      memory') :
    Writes emit Counted (formatLoop mem (37 :: cursor) args memory) n (text ++ text') memory' := by
  let g (p : Sink × List UInt64 × M) := formatLoop mem rest p.2.1 p.2.2 p.1
  refine (@Writes.bind _ _ _ _ _ _ _ _ _ _ _ _ g _ counts_emit hconv hrest).congr fun sink _ => ?_
  rw [formatLoop, if_neg (not_not.2 rfl), if_neg hc]
  split
  · next h =>
    rw [hd] at h
    cases h
  · next h =>
    rw [hd] at h
    cases h
    rfl

end

theorem writes_formatLoop (fmt : List UInt8) (args : List UInt64) (memory : M) (n : ℕ) :
    ∃ text memory', Writes emit Counted (formatLoop mem fmt args memory) n text memory' := by
  induction hlen : fmt.length using Nat.strong_induction_on generalizing fmt args memory n with
  | _ len ih =>
    cases fmt with
    | nil => exact ⟨_, _, writes_nil⟩
    | cons c cursor =>
      rw [List.length_cons] at hlen
      by_cases hc : c = 37
      · subst hc
        by_cases hpercent : cursor.headD 0 = 37
        · obtain ⟨text, memory', hrest⟩ := ih cursor.tail.length (by simp; omega)
            cursor.tail args memory (n + 1) rfl
          exact ⟨_, _, writes_percent hpercent hrest⟩
        · have hdir := length_directive cursor
          obtain ⟨d, rest, hd⟩ : ∃ d rest, directive cursor = (d, rest) := ⟨_, _, rfl⟩
          rw [hd] at hdir
          cases rest with
          | nil => exact ⟨_, _, writes_unfinished hpercent hd⟩
          | cons spec rest =>
            rw [List.length_cons] at hdir
            obtain ⟨text, ⟨args', memory₁⟩, hconv⟩ :=
              writes_conversion mem d spec args memory n
            obtain ⟨text', memory', hrest⟩ := ih rest.length (by omega) rest args' memory₁
              (n + text.length) rfl
            exact ⟨_, _, writes_directive hpercent hd hconv hrest⟩
      · obtain ⟨text, memory', hrest⟩ := ih cursor.length (by omega) cursor args memory
          (n + 1) rfl
        exact ⟨_, _, writes_plain hc hrest⟩

end Cleonos.Stdio
