import Cleonos.Editor.Keep

/-!
# The line of the editor

Whatever keys are pressed, the line stays a string without control bytes in its buffer, as long
as the bytes read behind the first byte of a character, the names that completion puts in and
the entries of the history that are shown hold none.
-/

namespace Cleonos.Editor

open List
open Shell (copyBytes lineMax)

variable {s s' : EditorState}

/-- The control bytes of ASCII. -/
def isControl (c : UInt8) : Bool := c < 0x20 || c == 0x7f

/-- The line is a string without control bytes, ended inside its buffer, and the cursor is in
it. -/
structure LineOk (s : EditorState) : Prop where
  cursor : s.cursor ≤ s.lineLen
  len : s.lineLen < lineMax
  term : s.line s.lineLen = 0
  first : ∀ i < s.lineLen, s.line i ≠ 0
  control : ∀ i < s.lineLen, isControl (s.line i) = false

theorem isPrintable_eq (c : UInt8) : isPrintable c = ! isControl c := by
  rw [Bool.eq_iff_iff]
  have h32 : (0x20 : UInt8).toNat = 32 := rfl
  have h127 : (0x7f : UInt8).toNat = 127 := rfl
  have h128 : (0x80 : UInt8).toNat = 128 := rfl
  simp only [isPrintable, isControl, ge_iff_le, Bool.or_eq_true, Bool.and_eq_true,
    decide_eq_true_eq, Bool.not_eq_true', Bool.or_eq_false_iff, decide_eq_false_iff_not,
    beq_eq_false_iff_ne, UInt8.lt_iff_toNat_lt, UInt8.le_iff_toNat_le, ne_eq, ← UInt8.toNat_inj]
  omega

/-- The texts without control bytes; they may be cut anywhere. -/
def printable : TextClass where
  Good t := ∀ c ∈ t, isPrintable c = true
  Cut _ _ := True
  nil := by simp
  append hs ht c hc := (List.mem_append.1 hc).elim (hs c) (ht c)
  ascii hc _ d hd := List.mem_singleton.1 hd ▸ hc
  split h _ := ⟨fun d hd => h d (by simp [hd]), fun d hd => h d (by simp_all),
    fun d hd => h d (by simp [hd])⟩
  take h _ c hc := h c (List.mem_of_mem_take hc)
  drop h _ c hc := h c (List.mem_of_mem_drop hc)
  between h _ _ _ c hc := h c (List.mem_of_mem_take (List.mem_of_mem_drop hc))
  cut_append _ _ := trivial
  cut_prev _ _ := trivial
  cut_next _ _ := trivial

variable {t : List UInt8}

theorem good_printable : printable.Good t ↔ ∀ c ∈ t, isControl c = false := by
  refine forall₂_congr fun c _ => ?_
  rw [isPrintable_eq, Bool.not_eq_true']

/-- A text without control bytes. -/
def NoControls (t : List UInt8) : Prop := ∀ c ∈ t, isControl c = false

/-- What completion puts in holds no control bytes, as far as it fits. -/
def TabPutsNoControls (dirs : Dirs) (s : EditorState) : Prop :=
  ∀ text ∈ offered dirs s, NoControls (text.take
    (replacementLen s (findCompletionToken s).start (findCompletionToken s).stop text))

/-- The bytes that a key puts into the line are no control bytes. -/
def PutsNoControls (s : EditorState) : Event → Prop
  | .start _ => True
  | .key dirs ch input =>
    match keyOf ch with
    | .reverseSearch => ∀ entry ∈ entryFound s input, NoControls entry
    | .up => ∀ entry ∈ entryUp s, NoControls entry
    | .down => ∀ entry ∈ entryDown s, NoControls entry
    | .tab => TabPutsNoControls dirs s
    | .text => ∀ bytes ∈ typed s ch input, NoControls bytes
    | _ => True

theorem good_copyBytes {n : ℕ} (h : NoControls t) :
    printable.Good (copyBytes n t) := good_printable.2 fun c hc =>
  h c ((List.takeWhile_prefix _).subset (mem_of_mem_take hc))

theorem good_movedTail (h : printable.Good t) (dst src : ℕ) :
    printable.Good (movedTail t dst src) := fun c hc => h c (mem_of_mem_movedTail hc)

theorem good_drop (h : printable.Good t) (n : ℕ) : printable.Good (t.drop n) :=
  printable.drop h trivial

section

variable (h : Keeps printable s)
include h

theorem replaces_of_noControls {start stop : ℕ} {text : List UInt8}
    (ht : NoControls (text.take (replacementLen s start stop text))) :
    Replaces printable s start stop text :=
  ⟨good_printable.2 ht, good_movedTail (good_drop h.text _) _ _⟩

theorem tabAdmits_of_noControls {dirs : Dirs}
    (ht : TabPutsNoControls dirs s) : TabAdmits printable dirs s := by
  have htext := fun text hmem => replaces_of_noControls h (ht text hmem)
  refine ⟨htext, fun item hitems _ => ?_⟩
  have hmem : item ∈ offered dirs s := by rw [offered, hitems]; rfl
  exact replaces_of_noControls (keeps_withMatch h (htext item hmem)) (good_printable.1 (good_space _))

theorem admits_of_noControls {e : Event} (he : PutsNoControls s e) :
    Admits printable s e := by
  cases e with
  | start cwd => trivial
  | key dirs ch input =>
    rw [PutsNoControls] at he
    rw [Admits]
    cases hkey : keyOf ch
    all_goals rw [hkey] at he
    case paste =>
      intro _ c hc
      exact h.clipboard c (mem_of_mem_take hc)
    case reverseSearch => exact fun entry hentry => good_copyBytes (he entry hentry)
    case up => exact fun entry hentry => good_copyBytes (he entry hentry)
    case down => exact fun entry hentry => good_copyBytes (he entry hentry)
    case tab => exact tabAdmits_of_noControls h he
    case text => exact fun bytes hbytes => good_printable.2 (he bytes hbytes)
    all_goals trivial

theorem Keeps.lineOk : LineOk s := by
  have hcell : ∀ i < s.lineLen, isControl (s.line i) = false := by
    intro i hi
    refine good_printable.1 h.text _ ?_
    have hget : s.text[i]? = some (s.line i) := by
      rw [EditorState.text, Buffer.getElem?_slice hi, Nat.zero_add]
    exact mem_of_getElem? hget
  refine ⟨h.sized.cursor, h.sized.len, h.sized.term, fun i hi h0 => ?_, hcell⟩
  have hno := hcell i hi
  rw [h0] at hno
  exact absurd hno (by decide)

end

/-- The invariant of the line, in every state of a run in which no key puts control bytes in. -/
theorem line_invariant
    (hrun : Reachable Initial (fun s s' => ∃ e, PutsNoControls s e ∧ step s e = some s') s) :
    LineOk s := by
  have hkeeps : Keeps printable s := by
    refine hrun.invariant (fun s hs => keeps_initial hs) ?_
    rintro s s' h ⟨e, he, hstep⟩
    exact keeps_step h (fun _ _ _ => ⟨trivial, trivial⟩) (admits_of_noControls h he) hstep
  exact hkeeps.lineOk

/-- The letter e with an accent is typed. -/
theorem line_invariant_accent : ∃ s, step (newState [47]) (.key noDirs 0xC3 [0xA9]) = some s ∧
    LineOk s :=
  ⟨_, rfl, line_invariant (.next (.start ⟨[47], [], rfl⟩)
    ⟨.key noDirs 0xC3 [0xA9], by
      intro bytes hbytes
      have heq : bytes = [0xC3, 0xA9] := (Option.some.inj hbytes).symm
      subst heq
      intro c hc
      rcases mem_cons.1 hc with rfl | hc
      · decide
      · rw [mem_singleton.1 hc]
        decide, rfl⟩)⟩

/-- A newline behind the first byte of a character gets into the line. -/
theorem line_takes_newline :
    ¬ ∀ s, Reachable Initial (fun s s' => ∃ e, step s e = some s') s → LineOk s := by
  intro h
  have hok := h _ (.next (.start ⟨[47], [], rfl⟩) ⟨.key noDirs 0xC3 [10], rfl⟩)
  exact absurd (hok.control 1 (by decide)) (by decide)

end Cleonos.Editor
