import Cleonos.Editor.HistoryFile
import Cleonos.Editor.Selection
import Cleonos.Lib.Utf8

/-!
# Characters of the line

Where everything that is typed, shown or completed is valid UTF-8, so is the line, and the
cursor and the ends of the selection are between two characters, as long as nothing is cut
inside a character: by the end of the buffer, by the start that several matches have in common,
or by the move of the tail of the line.
-/

namespace Cleonos.Editor

open List
open Shell (isSpace copyBytes appendBytes lineMax pathMax copyBytes_of_fits notMem_copyBytes
  appendBytes_of_fst)
open Path (resolvePath)
open LexicalPath (slash)
open Utf8 (Valid Boundary)

variable {s s' : EditorState}

/-! ## The class -/

theorem backOverConts_cases (t : List UInt8) (pos : ℕ) :
    backOverConts t pos = 0 ∨ utf8IsCont (t.getD (backOverConts t pos) 0) = false := by
  induction pos with
  | zero => exact .inl rfl
  | succ pos ih =>
    rw [backOverConts]
    split
    case isTrue => exact ih
    case isFalse hcont => exact .inr (Bool.eq_false_iff.2 hcont)

variable {t token dir name child : List UInt8} {i n : ℕ}

theorem boundary_prev (h : Boundary t i) : Boundary t (utf8PrevBoundary t i) := by
  have hle := utf8PrevBoundary_le t i
  have hi := h.le
  rw [utf8PrevBoundary] at hle ⊢
  split at hle
  · rw [if_pos ‹_›]
    exact Utf8.boundary_zero h.valid
  · rw [if_neg ‹_›]
    rcases backOverConts_cases t (min i t.length - 1) with h0 | hcont
    · rw [h0]
      exact Utf8.boundary_zero h.valid
    · exact Utf8.boundary_of_getD h.valid (hle.trans hi) hcont

theorem utf8CharLenAt_eq {c s conts : List UInt8} {b : UInt8}
    (hdrop : t.drop i = c ++ s) (hc : Utf8.IsChar c b conts) : utf8CharLenAt t i = c.length := by
  have hclen : c.length = conts.length + 1 := by rw [hc.eq, length_cons]
  have hi : i + (c.length + s.length) = t.length := by
    have hlen := congrArg List.length hdrop
    rw [length_drop, length_append] at hlen
    omega
  have hget : t.getD i 0 = b := by
    have hhead : t[i]? = (t.drop i)[0]? := by rw [List.getElem?_drop, Nat.add_zero]
    rw [getD_eq_getElem?_getD, hhead, hdrop, hc.eq]
    rfl
  have hrest : t.drop (i + 1) = conts ++ s := by
    rw [← drop_drop, hdrop, hc.eq]
    rfl
  have hneed : utf8LenFromLead b = conts.length + 1 := hc.len
  rw [utf8CharLenAt, if_neg (by omega)]
  simp only [hget, hneed, hrest, Nat.add_sub_cancel, take_left]
  by_cases hone : conts.length + 1 = 1
  · rw [if_pos (.inl hone)]
    omega
  · have hall : conts.all utf8IsCont = true := all_eq_true.2 hc.conts
    rw [if_neg (by omega), if_pos hall]
    omega

theorem boundary_next (h : Boundary t i) : Boundary t (utf8NextBoundary t i) := by
  rw [utf8NextBoundary]
  split
  · exact Utf8.boundary_length h.valid
  · obtain ⟨c, s, b, conts, hdrop, hc, hnext⟩ := h.exists_char (by omega)
    have hle := hnext.le
    have hpos : c.length ≠ 0 := by simp [hc.eq]
    rw [utf8CharLenAt_eq hdrop hc]
    simp only
    rw [if_neg (by omega)]
    exact hnext

/-- A position in a text that is not in front of a continuation byte. -/
structure CharStart (t : List UInt8) (i : ℕ) : Prop where
  le : i ≤ t.length
  notCont : utf8IsCont (t.getD i 0) = false

theorem CharStart.boundary (h : CharStart t i) (ht : Valid t) :
    Boundary t i := Utf8.boundary_of_getD ht h.le h.notCont

theorem CharStart.of_boundary {t : List UInt8} {i : ℕ} (h : Boundary t i) : CharStart t i := by
  refine ⟨h.le, ?_⟩
  have hget : t.getD i 0 = (t.drop i).headD 0 := by
    rw [getD_eq_getElem?_getD, headD_eq_head?_getD, List.head?_drop]
  rw [hget]
  cases hdrop : t.drop i with
  | nil => rfl
  | cons c rest => exact (hdrop ▸ h.drop : Valid (c :: rest)).head_notCont

/-- The class of valid texts, which may be cut between two characters. -/
def utf8 : TextClass where
  Good := Valid
  Cut := Boundary
  nil := Utf8.valid_nil
  append := Utf8.Valid.append
  ascii _ hc := Utf8.valid_singleton hc
  split h hc := ⟨(h.split_ascii hc).1, Utf8.valid_singleton hc, (h.split_ascii hc).2⟩
  take _ h := h.take
  drop _ h := h.drop
  between _ hi hj hij := hi.between hj hij
  cut_append := Utf8.boundary_append
  cut_prev _ := boundary_prev
  cut_next _ := boundary_next

/-- The ends of the selection and the anchor are between two characters; an anchor without a
selection is not behind the cursor. -/
structure MarksOk (s : EditorState) : Prop where
  ne : s.selActive = true → s.selStart ≠ s.selEnd
  ends : s.selActive = true → Boundary s.text s.selStart ∧ Boundary s.text s.selEnd
  anchor : s.selAnchorValid = true → Boundary s.text s.selAnchor
  behind : s.selAnchorValid = true → s.selActive = false → s.selAnchor ≤ s.cursor

theorem MarksOk.range (h : MarksOk s) (hactive : s.selActive = true) :
    selectionRange s = some (min s.selStart s.selEnd, max s.selStart s.selEnd) := by
  have hne := h.ne hactive
  have hstart := (h.ends hactive).1.le
  have hstop := (h.ends hactive).2.le
  rw [length_text] at hstart hstop
  rw [selectionRange, if_neg (by simp [hactive])]
  simp only [min_eq_left hstart, min_eq_left hstop]
  rw [if_neg hne]

theorem MarksOk.cut (h : MarksOk s) : SelectionCut utf8 s := by
  intro start stop hrange
  by_cases hactive : s.selActive = true
  · rw [h.range hactive] at hrange
    cases hrange
    obtain ⟨hstart, hstop⟩ := h.ends hactive
    rcases le_total s.selStart s.selEnd with hle | hle
    · rw [min_eq_left hle, max_eq_right hle]
      exact ⟨hstart, hstop⟩
    · rw [min_eq_right hle, max_eq_left hle]
      exact ⟨hstop, hstart⟩
  · rw [selectionRange, if_pos (by simpa using hactive)] at hrange
    cases hrange

theorem Unselected.marksOk (h : Unselected s) : MarksOk s :=
  ⟨fun ha => by simp [h.active] at ha, fun ha => by simp [h.active] at ha,
    fun hv => by simp [h.valid] at hv, fun hv => by simp [h.valid] at hv⟩

theorem boundary_insert {u : List UInt8} {c : ℕ} (h : Boundary t i) (hic : i ≤ c)
    (hvalid : Valid (t.take c ++ u)) : Boundary (t.take c ++ u) i := by
  have hlen : i ≤ (t.take c).length := by
    rw [length_take]
    exact le_min hic h.le
  have htake : (t.take c ++ u).take i = t.take i := by
    rw [take_append_of_le_length hlen, take_take, min_eq_left hic]
  have hsplit := take_append_drop i (t.take c ++ u)
  rw [htake] at hsplit
  refine ⟨?_, by rw [htake]; exact h.take, ?_⟩
  · rw [length_append]
    omega
  · rw [← hsplit] at hvalid
    exact h.take.of_append hvalid

theorem marksOk_shift (h : MarksOk s) {c : ℕ} (hc : Boundary s.text c)
    (hcur : Boundary s.text s.cursor) : MarksOk (pressShift s c) := by
  -- the anchor that is set or kept
  have key : ∀ a, Boundary s.text a → MarksOk (selectionUpdateFromAnchor
      { s with selAnchor := a, selAnchorValid := true, cursor := c }) := by
    intro a ha
    have hle := ha.le
    rw [length_text] at hle
    rw [selectionUpdateFromAnchor, if_neg (by simp)]
    simp only [min_eq_left hle]
    split
    case isTrue heq =>
      exact ⟨fun h => absurd h Bool.false_ne_true, fun h => absurd h Bool.false_ne_true,
        fun _ => ha, fun _ _ => heq.ge⟩
    case isFalse hne =>
      split
      · exact ⟨fun _ => hne, fun _ => ⟨hc, ha⟩, fun _ => ha,
          fun _ h => absurd h.symm Bool.false_ne_true⟩
      · exact ⟨fun _ => Ne.symm hne, fun _ => ⟨ha, hc⟩, fun _ => ha,
          fun _ h => absurd h.symm Bool.false_ne_true⟩
  rw [pressShift]
  split
  case isTrue => exact key s.cursor hcur
  case isFalse hvalid =>
    have hset : s.selAnchorValid = true := by simpa using hvalid
    have heq : { s with cursor := c } =
        { s with selAnchor := s.selAnchor, selAnchorValid := true, cursor := c } := by
      rw [← hset]
    rw [heq]
    exact key s.selAnchor (h.anchor hset)

/-- A search that loads an entry finds the marks at the start of characters of the entry. -/
def FindsMarks (s : EditorState) (input : List UInt8) : Prop :=
  ∀ entry ∈ entryFound s input, Valid entry ∧
    (s.selActive = true → CharStart entry s.selStart ∧ CharStart entry s.selEnd) ∧
    (s.selAnchorValid = true → CharStart entry s.selAnchor)

theorem marksOk_step (h : Keeps utf8 s) (hmarks : MarksOk s) (hok : HistoryOk s.history) {e : Event}
    (hfinds : ∀ dirs ch input, e = .key dirs ch input → keyOf ch = .reverseSearch →
      FindsMarks s input) (hstep : step s e = some s') (h' : Keeps utf8 s') : MarksOk s' := by
  cases step_effect h.sized hstep with
  | cleared hclear => exact hclear.marksOk
  | still hsame htext hcursor =>
    constructor
    · rw [hsame.active, hsame.start, hsame.stop]
      exact hmarks.ne
    · rw [hsame.active, hsame.start, hsame.stop, htext]
      exact hmarks.ends
    · rw [hsame.valid, hsame.anchor, htext]
      exact hmarks.anchor
    · rw [hsame.valid, hsame.active, hsame.anchor, hcursor]
      exact hmarks.behind
  | inserted hrange hsame text htext hcursor =>
    have hinactive : s.selActive = false := by
      by_contra hactive
      rw [hmarks.range (by simpa using hactive)] at hrange
      cases hrange
    have hinactive' := hsame.active.trans hinactive
    refine ⟨fun ha => by simp [hinactive'] at ha, fun ha => by simp [hinactive'] at ha, ?_, ?_⟩
    · rw [hsame.valid, hsame.anchor]
      intro hv
      have hvalid : Valid s'.text := h'.text
      rw [htext, append_assoc] at hvalid ⊢
      exact boundary_insert (hmarks.anchor hv) (hmarks.behind hv hinactive) hvalid
    · rw [hsame.valid, hsame.anchor, hcursor]
      exact fun hv _ => (hmarks.behind hv hinactive).trans (Nat.le_add_right _ _)
  | shifted c hc =>
    have hcut : Boundary (pressShift s c).text (pressShift s c).cursor := h'.cursor
    rw [text_pressShift, cursor_pressShift] at hcut
    exact marksOk_shift hmarks hcut h.cursor
  | selected h0 =>
    have hlen := h.cut_length
    exact ⟨fun _ => Ne.symm h0, fun _ => ⟨h.cut_zero, hlen⟩, fun _ => h.cut_zero, nofun⟩
  | loaded entry hkey hentry =>
    obtain ⟨hgood, hactive, hvalid⟩ := hfinds _ _ _ rfl hkey entry hentry
    have hmem := mem_of_entryFound hentry
    have htext : (loadLine s entry).text = entry := by
      rw [text_loadLine]
      exact copyBytes_of_fits (hok.entry entry hmem).string (hok.entry entry hmem).len
    have hcursor : (loadLine s entry).cursor = (loadLine s entry).lineLen := by
      rw [loadLine_eq]
    refine ⟨hmarks.ne, ?_, ?_, fun hv _ => ?_⟩
    · rw [htext]
      exact fun ha => ⟨(hactive ha).1.boundary hgood, (hactive ha).2.boundary hgood⟩
    · rw [htext]
      exact fun hv => (hvalid hv).boundary hgood
    · rw [hcursor, ← length_text, htext]
      exact (hvalid hv).le

/-- A move of the tail to the back by less than its length repeats whole characters. -/
def TailWhole (tail : List UInt8) (d : ℕ) : Prop :=
  0 < d → d ≤ tail.length → CharStart tail d ∧ CharStart tail (tail.length % d)

theorem movedTail_eq (tail : List UInt8) {d : ℕ} (hd : d ≤ tail.length) :
    (List.range (n + d)).map (fun j => tail.getD (j % d) 0) =
      tail.take d ++ (List.range n).map fun j => tail.getD (j % d) 0 := by
  rw [Nat.add_comm, range_add, map_append, map_map]
  congr 1
  · refine ext_getElem (by simp [hd]) fun j hj _ => ?_
    have hjd : j < d := by simpa using hj
    simp [Nat.mod_eq_of_lt hjd, List.getElem?_eq_getElem (lt_of_lt_of_le hjd hd)]
  · refine map_congr_left fun j _ => ?_
    simp

theorem valid_repeat {tail : List UInt8} {d : ℕ} (hle : d ≤ tail.length)
    (hwhole : Boundary tail d) (q r : ℕ) (hr : r < d) (hrest : Boundary tail r) :
    Valid ((List.range (r + q * d)).map fun j => tail.getD (j % d) 0) := by
  induction q with
  | zero =>
    have htake : (List.range r).map (fun j => tail.getD (j % d) 0) = tail.take r := by
      refine ext_getElem (by simp; omega) fun j hj _ => ?_
      have hjr : j < r := by simpa using hj
      simp [Nat.mod_eq_of_lt (hjr.trans hr), List.getElem?_eq_getElem (show j < tail.length by omega)]
    rw [Nat.zero_mul, Nat.add_zero, htake]
    exact hrest.take
  | succ q ih =>
    rw [Nat.succ_mul, ← Nat.add_assoc, movedTail_eq tail hle]
    exact hwhole.take.append ih

theorem valid_movedTail {tail : List UInt8} (hvalid : Valid tail) {dst src : ℕ}
    (hwhole : TailWhole tail (dst - src)) : Valid (movedTail tail dst src) := by
  rw [movedTail]
  split
  · exact hvalid
  have hd : 0 < dst - src := by omega
  generalize dst - src = d at *
  by_cases hle : d ≤ tail.length
  · obtain ⟨hcut, hrest⟩ := hwhole hd hle
    have hrep := valid_repeat hle (hcut.boundary hvalid) (tail.length / d) (tail.length % d)
      (Nat.mod_lt _ hd) (hrest.boundary hvalid)
    rwa [Nat.mul_comm, Nat.mod_add_div] at hrep
  · have hsame : (List.range tail.length).map (fun j => tail.getD (j % d) 0) = tail := by
      refine ext_getElem (by simp) fun j hj _ => ?_
      have hjl : j < tail.length := by simpa using hj
      simp [Nat.mod_eq_of_lt (show j < d by omega), List.getElem?_eq_getElem hjl]
    rwa [hsame]

theorem head?_movedTail (tail : List UInt8) (dst src : ℕ) :
    (movedTail tail dst src).head? = tail.head? := by
  rw [movedTail]
  split
  · rfl
  · cases tail with
    | nil => rfl
    | cons c tail => simp [range_succ_eq_map]

theorem tailWhole_ascii {tail : List UInt8} (h : Valid tail) (hhead : ∀ c ∈ tail.head?, c < 0x80)
    {d : ℕ} (hd : d ≤ 1) : TailWhole tail d := by
  intro hpos hle
  obtain rfl : d = 1 := by omega
  cases tail with
  | nil => simp at hle
  | cons c tail =>
    have hcut := TextClass.cut_ascii (K := utf8) h (i := 0) (by simp) (hhead c rfl)
    rw [Nat.mod_one]
    exact ⟨.of_boundary hcut.2, .of_boundary hcut.1⟩

/-- The completion of a path by a child, before it is cut to fit its buffer. -/
def fullText (token child name : List UInt8) : List UInt8 :=
  if token.head? = some slash then child else token.take (baseOff token) ++ name

/-- The names of commands and of files of which the matches are the starts that fit. -/
inductive FullMatch (dirs : Dirs) (s : EditorState) : List UInt8 → Prop
  | command {full : List UInt8} (h : full ∈ commands) : FullMatch dirs s full
  | external {dir name : List UInt8} {i : ℕ} (hname : dirs.name dir i = some name)
      (hsuffix : Shell.hasSuffix name (lit ".elf") = true) :
      FullMatch dirs s (name.take (name.length - 4))
  | path {dir pre name child : List UInt8} {i : ℕ}
      (hsplit : splitPathToken s.cwd (findCompletionToken s).token = some (dir, pre))
      (hname : dirs.name dir i = some name) (hchild : joinPath dir name = some child)
      {slashes : List UInt8} (hslashes : slashes = [] ∨ slashes = [slash]) :
      FullMatch dirs s (fullText (findCompletionToken s).token child name ++ slashes)

/-- A match is the start of a name. -/
def StartsMatch (dirs : Dirs) (s : EditorState) (text : List UInt8) : Prop :=
  ∃ full, FullMatch dirs s full ∧ text <+: full

theorem copyBytes_isPrefix (n : ℕ) (t : List UInt8) : copyBytes n t <+: t :=
  (List.take_prefix _ _).trans (List.takeWhile_prefix _)

theorem notMem_name {dirs : Dirs} (h : dirs.name dir i = some name) : (0 : UInt8) ∉ name := by
  obtain ⟨raw, -, rfl⟩ := Option.map_eq_some_iff.1 h
  exact notMem_cstr _

theorem StartsMatch.of_isPrefix {dirs : Dirs} {text : List UInt8} (h : StartsMatch dirs s text)
    (ht : t <+: text) : StartsMatch dirs s t := by
  obtain ⟨full, hfull, hpre⟩ := h
  exact ⟨full, hfull, ht.trans hpre⟩

section Matches

variable {P : List UInt8 → Prop} {items : List (List UInt8)} {dirs : Dirs}

theorem forall_matchAdd (h : ∀ item ∈ items, P item) {text : List UInt8}
    (ht : P (copyBytes pathMax text)) : ∀ item ∈ matchAdd items text, P item := by
  rw [matchAdd]
  split
  · exact h
  split
  · exact h
  · exact forall_mem_append.2 ⟨h, forall_mem_singleton.2 ht⟩

theorem forall_addChildren {dir : List UInt8}
    {add : List (List UInt8) → List UInt8 → List (List UInt8)} (h : ∀ item ∈ items, P item)
    (hadd : ∀ items i name, dirs.name dir i = some name → (∀ item ∈ items, P item) →
      ∀ item ∈ add items name, P item) :
    ∀ item ∈ addChildren dirs dir add items, P item := by
  rw [addChildren]
  generalize List.range (dirs.childCount dir) = is
  induction is generalizing items with
  | nil => exact h
  | cons i is ih =>
    refine ih ?_
    beta_reduce
    split
    · exact h
    · split
      · exact h
      case h_2 name hname => exact hadd items i name hname h

theorem startsMatch_completeCommands (token : List UInt8)
    (h : ∀ item ∈ items, StartsMatch dirs s item) :
    ∀ item ∈ completeCommands token items, StartsMatch dirs s item := by
  have hfold : ∀ cs ⊆ commands, ∀ items : List (List UInt8),
      (∀ item ∈ items, StartsMatch dirs s item) →
      ∀ item ∈ cs.foldl (fun items command =>
        if hasPrefixToken command token then matchAdd items command else items) items,
        StartsMatch dirs s item := by
    intro cs
    induction cs with
    | nil => exact fun _ _ h => h
    | cons command cs ih =>
      intro hsub items h
      have hcommand := hsub mem_cons_self
      refine ih (fun c hc => hsub (mem_cons_of_mem _ hc)) _ ?_
      beta_reduce
      split
      · exact forall_matchAdd h ⟨command, .command hcommand, copyBytes_isPrefix _ _⟩
      · exact h
  exact hfold commands (List.Subset.refl _) items h

theorem startsMatch_completeElfDir (dir token : List UInt8)
    (h : ∀ item ∈ items, StartsMatch dirs s item) :
    ∀ item ∈ completeElfDir dirs dir token items, StartsMatch dirs s item := by
  rw [completeElfDir]
  split
  · exact h
  refine forall_addChildren h fun items i name hname h => ?_
  rw [addElf]
  split
  case isFalse => exact h
  case isTrue helf =>
    simp only
    split
    · exact forall_matchAdd h ⟨_, .external hname helf.2,
        (copyBytes_isPrefix _ _).trans (copyBytes_isPrefix _ _)⟩
    · exact h

end Matches

theorem ascii_commands : ∀ command ∈ commands, ∀ c ∈ command, c < 0x80 := by
  have hall : (commands.all fun command => command.all (· < 0x80)) = true := by decide +kernel
  intro command hcommand c hc
  simpa using all_eq_true.1 (all_eq_true.1 hall command hcommand) c hc

theorem valid_copyBytes (h : Valid t) (hlen : t.length < n) : Valid (copyBytes n t) := by
  have hcstr : Valid (cstr t) := TextClass.cstr (K := utf8) h
  rw [copyBytes, take_of_length_le]
  · exact hcstr
  · exact (length_cstr_le t).trans (by omega)

theorem valid_withoutElf (h : Valid name) (hsuffix : Shell.hasSuffix name (lit ".elf") = true) :
    Valid (name.take (name.length - 4)) := by
  have hdrop : name.drop (name.length - 4) = [46, 101, 108, 102] := by
    simp only [Shell.hasSuffix, Bool.and_eq_true, beq_iff_eq] at hsuffix
    exact hsuffix.2
  have hsplit := take_append_drop (name.length - 4) name
  rw [hdrop] at hsplit
  rw [← hsplit] at h
  exact (h.split_ascii (by decide)).1

theorem valid_components (h : Valid t) : ∀ c ∈ LexicalPath.components t, Valid c := by
  obtain ⟨ls, hls, ht, hlast⟩ := Lines.exists_lines slash t
  generalize Lines.lastLine slash t = last at ht hlast
  have hall : (∀ l ∈ ls, Valid l) ∧ Valid last := by
    rw [ht] at h
    clear ht hls
    induction ls with
    | nil => exact ⟨by simp, by simpa using h⟩
    | cons l ls ih =>
      rw [Lines.unlines_cons, append_assoc, cons_append] at h
      obtain ⟨hl, hrest⟩ := h.split_ascii (by decide)
      exact ⟨forall_mem_cons.2 ⟨hl, (ih hrest).1⟩, (ih hrest).2⟩
  intro c hc
  rw [LexicalPath.components, ht, Lines.splitOn_unlines_append hls,
    splitOn_eq_singleton hlast] at hc
  rcases mem_append.1 (mem_filter.1 hc).1 with hc | hc
  · exact hall.1 c hc
  · rw [mem_singleton.1 hc]
    exact hall.2

theorem valid_normalise {cs : List (List UInt8)} (h : ∀ c ∈ cs, Valid c) :
    ∀ c ∈ LexicalPath.normalise cs, Valid c := by
  have hfold : ∀ cs stack : List (List UInt8), (∀ c ∈ cs, Valid c) → (∀ c ∈ stack, Valid c) →
      ∀ c ∈ cs.foldl LexicalPath.normStep stack, Valid c := by
    intro cs
    induction cs with
    | nil => exact fun _ _ h => h
    | cons c cs ih =>
      intro stack hcs hstack
      refine ih _ (fun d hd => hcs d (mem_cons_of_mem _ hd)) ?_
      rw [LexicalPath.normStep]
      split
      · exact hstack
      split
      · exact fun d hd => hstack d (dropLast_subset _ hd)
      · exact forall_mem_append.2
          ⟨hstack, forall_mem_singleton.2 (hcs c mem_cons_self)⟩
  exact hfold cs [] h (by simp)

theorem valid_render {stack : List (List UInt8)} (h : ∀ c ∈ stack, Valid c) :
    Valid (LexicalPath.render stack) := by
  have hslash : Valid [slash] := Utf8.valid_singleton (by decide)
  rw [LexicalPath.render]
  split
  · exact hslash
  · clear * - h hslash
    induction stack with
    | nil => exact Utf8.valid_nil
    | cons c stack ih =>
      rw [LexicalPath.slashed, flatMap_cons, ← singleton_append]
      exact (hslash.append (h c mem_cons_self)).append
        (ih fun d hd => h d (mem_cons_of_mem _ hd))

theorem valid_resolvePath {cwd arg : List UInt8} {size : ℕ} (h : Valid arg)
    (habs : arg.head? = some slash) (hdir : resolvePath cwd arg size = some dir) : Valid dir := by
  rw [Path.resolvePath_eq] at hdir
  split at hdir
  · cases hdir
    refine valid_render (valid_normalise ?_)
    have hhead : (cstr arg).head? = some slash := by
      cases arg with
      | nil => cases habs
      | cons c t =>
        rw [List.head?_cons, Option.some.injEq] at habs
        subst habs
        simp [cstr, show slash ≠ 0 by decide]
    rw [Path.joined, LexicalPath.join, if_pos hhead]
    exact valid_components (TextClass.cstr (K := utf8) h)
  · cases hdir

theorem token_split (token : List UInt8) : baseOff token = 0 ∨
    ∃ parent, baseOff token = parent.length + 1 ∧
      token = parent ++ slash :: token.drop (baseOff token) := by
  obtain ⟨ls, -, ht, -⟩ := Lines.exists_lines slash token
  have hoff : baseOff token = (Lines.unlines slash ls).length := by
    have hlen := congrArg List.length ht
    rw [length_append] at hlen
    have hlast : (token.rtakeWhile (· ≠ slash)).length = (Lines.lastLine slash token).length := rfl
    rw [baseOff, hlast]
    omega
  rcases eq_nil_or_concat ls with rfl | ⟨ls, l, rfl⟩
  · exact .inl hoff
  · right
    refine ⟨Lines.unlines slash ls ++ l, by simp [hoff]; omega, ?_⟩
    have hdrop : token.drop (baseOff token) = Lines.lastLine slash token := by
      rw [hoff]
      generalize Lines.lastLine slash token = last at ht
      rw [ht, drop_left]
    rw [hdrop]
    generalize Lines.lastLine slash token = last at ht
    rw [ht]
    simp

theorem boundary_baseOff (h : Valid token) :
    Boundary token (baseOff token) ∧ Valid (token.take (baseOff token - 1)) := by
  rcases token_split token with h0 | ⟨parent, hoff, ht⟩
  · rw [h0]
    exact ⟨Utf8.boundary_zero h, Utf8.valid_nil⟩
  · have hsplit := h
    rw [ht] at hsplit
    obtain ⟨hparent, hname⟩ := hsplit.split_ascii (by decide)
    have htake : token.take (baseOff token - 1) = parent := by
      rw [hoff, Nat.add_sub_cancel]
      generalize token.drop (baseOff token) = name at ht
      rw [ht, take_left]
    refine ⟨?_, htake ▸ hparent⟩
    refine TextClass.cut_of_eq (K := utf8) (a := parent ++ [slash])
      (hparent.append (Utf8.valid_singleton (by decide))) hname ?_ (by simp [hoff])
    rw [append_assoc, singleton_append]
    exact ht

theorem appendBytes_of_ok {u : List UInt8} (ht : t.length < n)
    (hok : (appendBytes n t u).1 = true) :
    (appendBytes n t u).2 = t ++ cstr u ∧ (t ++ cstr u).length < n := by
  have heq := appendBytes_of_fst ht hok
  refine ⟨heq, ?_⟩
  rw [← heq, appendBytes]
  exact lt_of_le_of_lt (length_take_le _ _) (by omega)

theorem joinPath_eq (h : joinPath dir name = some child) :
    child = (if dir = [slash] then [slash] else cstr dir ++ [slash]) ++ cstr name ∧
      child.length < pathMax := by
  have hcslash : cstr [slash] = [slash] := by decide
  have key : ∀ (out : Bool × List UInt8) (t : List UInt8),
      (out.1 = true → out.2 = t ∧ t.length < pathMax) →
      (if out.1 then
        let out := appendBytes pathMax out.2 name
        if out.1 then some out.2 else none
      else none) = some child → child = t ++ cstr name ∧ child.length < pathMax := by
    intro out t hout hchild
    split at hchild
    case isFalse => cases hchild
    case isTrue hok =>
      obtain ⟨heq, hlen⟩ := hout hok
      simp only [heq] at hchild
      split at hchild
      case isFalse => cases hchild
      case isTrue hok' =>
        cases hchild
        obtain ⟨heq', hlen'⟩ := appendBytes_of_ok hlen hok'
        exact ⟨heq', heq' ▸ hlen'⟩
  rw [joinPath] at h
  split at h
  case isTrue => cases h
  refine key _ _ (fun hok => ?_) h
  split at hok
  case isTrue hroot =>
    rw [if_pos hroot, if_pos hroot]
    have happ := appendBytes_of_ok (t := []) (by decide) hok
    rwa [hcslash] at happ
  case isFalse hroot =>
    rw [if_neg hroot, if_neg hroot]
    simp only at hok ⊢
    split at hok
    case isTrue hfirst =>
      obtain ⟨heq, hlen⟩ := appendBytes_of_ok (t := []) (by decide) hfirst
      rw [nil_append] at heq hlen
      rw [if_pos hfirst, heq]
      rw [heq] at hok
      have happ := appendBytes_of_ok hlen hok
      rwa [hcslash] at happ
    case isFalse hfirst => exact absurd hok hfirst

theorem valid_joinPath (hdir : Valid dir) (hname : Valid name)
    (h : joinPath dir name = some child) : Valid child := by
  have hslash : Valid [slash] := Utf8.valid_singleton (by decide)
  have hcname : Valid (cstr name) := TextClass.cstr (K := utf8) hname
  have hcdir : Valid (cstr dir) := TextClass.cstr (K := utf8) hdir
  rw [(joinPath_eq h).1]
  split
  · exact hslash.append hcname
  · exact (hcdir.append hslash).append hcname

theorem notMem_joinPath (h : joinPath dir name = some child) : (0 : UInt8) ∉ child := by
  have hslash : (0 : UInt8) ≠ slash := by decide
  have hname := notMem_cstr name
  have hdir := notMem_cstr dir
  rw [(joinPath_eq h).1]
  split
  · simp [hslash, hname]
  · simp [hslash, hname, hdir]

theorem valid_splitPathToken {cwd pre : List UInt8} (htoken : Valid token)
    (h0 : (0 : UInt8) ∉ token) (hlen : token.length < pathMax) (habs : token.head? = some slash)
    (h : splitPathToken cwd token = some (dir, pre)) : Valid dir := by
  have hne : baseOff token ≠ 0 := by
    rcases token_split token with hoff | ⟨parent, hoff, -⟩
    · -- the first byte of the token is a slash
      intro _
      cases token with
      | nil => cases habs
      | cons c t =>
        rw [List.head?_cons, Option.some.injEq] at habs
        subst habs
        have hmem : slash ∈ (slash :: t).rtakeWhile (· ≠ slash) := by
          have hall : (slash :: t).rtakeWhile (· ≠ slash) = slash :: t := by
            have hsuffix := rtakeWhile_suffix (· ≠ slash) (slash :: t)
            refine hsuffix.eq_of_length_le ?_
            rw [baseOff] at hoff
            omega
          rw [hall]
          exact mem_cons_self
        simpa using mem_rtakeWhile_imp hmem
    · omega
  rw [splitPathToken, if_neg hne] at h
  simp only at h
  split at h
  · cases h
    exact Utf8.valid_singleton (by decide)
  case isFalse hpos =>
    obtain ⟨dir', hresolve, heq⟩ := Option.map_eq_some_iff.1 h
    cases heq
    have hparent := (boundary_baseOff htoken).2
    have hcopy : copyBytes pathMax (token.take (baseOff token - 1)) =
        token.take (baseOff token - 1) :=
      copyBytes_of_fits (fun hmem => h0 (mem_of_mem_take hmem))
        (lt_of_le_of_lt (length_take_le' _ _) hlen)
    rw [hcopy] at hresolve
    refine valid_resolvePath hparent ?_ hresolve
    rw [List.head?_take, if_neg hpos]
    exact habs

/-! ## Completion -/

theorem length_token_lt (s : EditorState) : (findCompletionToken s).token.length < pathMax :=
  Shell.length_copyBytes_lt (by decide) _

theorem notMem_token (s : EditorState) : (0 : UInt8) ∉ (findCompletionToken s).token :=
  notMem_copyBytes _ _

theorem boundary_stop (h : Keeps utf8 s) : Boundary s.text (findCompletionToken s).stop := by
  have hstop : (findCompletionToken s).stop = s.cursor := min_eq_left h.sized.cursor
  rw [hstop]
  exact h.cursor

theorem valid_token (h : Keeps utf8 s) : Valid (findCompletionToken s).token := by
  have hstart : Boundary s.text (findCompletionToken s).start :=
    cut_tokenStart h.text (by rw [length_text]; exact min_le_right _ _)
  refine valid_copyBytes (hstart.between (boundary_stop h) (findCompletionToken_le s).1) ?_
  have hsized := h.sized.len
  simp only [length_drop, length_take, length_text, lineMax, pathMax] at *
  omega

theorem childText_eq (htoken : (0 : UInt8) ∉ token)
    (hlen : token.length < pathMax) (hname : (0 : UInt8) ∉ name) (hchild : (0 : UInt8) ∉ child) :
    childText token child name = (fullText token child name).take (pathMax - 1) := by
  rw [childText, fullText]
  split
  · rw [copyBytes, cstr_of_notMem hchild]
  · have htake : copyBytes pathMax (token.take (baseOff token)) = token.take (baseOff token) :=
      copyBytes_of_fits (fun hmem => htoken (mem_of_mem_take hmem))
        (lt_of_le_of_lt (length_take_le' _ _) hlen)
    rw [htake, appendBytes, cstr_of_notMem hname]

theorem startsMatch_completePath {dirs : Dirs} {items : List (List UInt8)}
    (hitems : ∀ item ∈ items, StartsMatch dirs s item) :
    ∀ item ∈ completePath dirs s.cwd (findCompletionToken s).token items,
      StartsMatch dirs s item := by
  rw [completePath]
  split
  · exact hitems
  case h_2 dir pre hsplit =>
    split
    · exact hitems
    refine forall_addChildren hitems fun items i name hname hitems => ?_
    rw [addPath]
    split
    case isFalse => exact hitems
    case isTrue =>
      split
      · exact hitems
      case h_2 child hchild =>
        have heq := childText_eq (notMem_token s) (length_token_lt s) (notMem_name hname)
          (notMem_joinPath hchild)
        have hcslash : cstr [slash] = [slash] := by decide
        simp only
        split
        · -- a directory, with a slash behind it
          refine forall_matchAdd hitems
            ⟨_, .path hsplit hname hchild (.inr rfl), (copyBytes_isPrefix _ _).trans ?_⟩
          rw [appendBytes, heq, hcslash]
          generalize fullText (findCompletionToken s).token child name = full
          have hsame : ((full.take (pathMax - 1)) ++ [slash]).take (pathMax - 1) =
              (full ++ [slash]).take (pathMax - 1) := by
            rcases le_total (pathMax - 1) full.length with hle | hle
            · rw [take_append_of_le_length (by rw [length_take]; exact le_min le_rfl hle),
                take_append_of_le_length hle, take_take, min_self]
            · rw [take_of_length_le hle]
          rw [hsame]
          exact take_prefix _ _
        · refine forall_matchAdd hitems
            ⟨_, .path hsplit hname hchild (.inl rfl), (copyBytes_isPrefix _ _).trans ?_⟩
          rw [heq, append_nil]
          exact take_prefix _ _

theorem startsMatch_completionMatches (dirs : Dirs) (s : EditorState) :
    ∀ item ∈ completionMatches dirs s, StartsMatch dirs s item := by
  have hnil : ∀ item ∈ ([] : List (List UInt8)), StartsMatch dirs s item := by simp
  rw [completionMatches]
  refine startsMatch_completePath ?_
  split
  · exact startsMatch_completeElfDir _ _ (startsMatch_completeElfDir _ _
      (startsMatch_completeElfDir _ _ (startsMatch_completeCommands _ hnil)))
  · exact hnil

theorem commonStart_isPrefix (t u : List UInt8) : commonStart t u <+: t := by
  induction t generalizing u with
  | nil => cases u <;> exact nil_prefix
  | cons c t ih =>
    cases u with
    | nil => exact nil_prefix
    | cons d u =>
      rw [commonStart]
      split
      · exact cons_prefix_cons.2 ⟨rfl, ih u⟩
      · exact nil_prefix

theorem commonPrefix_isPrefix (item : List UInt8) (items : List (List UInt8)) :
    commonPrefix (item :: items) <+: item := by
  rw [commonPrefix]
  have hfold : ∀ t : List UInt8, items.foldl commonStart t <+: t := by
    induction items with
    | nil => exact fun t => prefix_refl t
    | cons item items ih => exact fun t => (ih _).trans (commonStart_isPrefix t item)
  exact hfold item

theorem startsMatch_offered {dirs : Dirs} {text : List UInt8} (htext : text ∈ offered dirs s) :
    StartsMatch dirs s text := by
  have hitems := startsMatch_completionMatches dirs s
  rw [offered] at htext
  generalize completionMatches dirs s = items at *
  cases items with
  | nil => cases htext
  | cons item items =>
    have hitem := hitems item mem_cons_self
    cases items with
    | nil =>
      cases htext
      exact hitem
    | cons other items =>
      simp only at htext
      split at htext
      · cases htext
        exact hitem.of_isPrefix (commonPrefix_isPrefix item _)
      · cases htext

theorem valid_fullMatch {dirs : Dirs} (h : Keeps utf8 s)
    (hnames : ∀ dir i name, dirs.name dir i = some name → Valid name) {full : List UInt8}
    (hfull : FullMatch dirs s full) : Valid full := by
  have hslash : Valid [slash] := Utf8.valid_singleton (by decide)
  cases hfull with
  | command hmem => exact Utf8.valid_of_ascii (ascii_commands full hmem)
  | external hname hsuffix => exact valid_withoutElf (hnames _ _ _ hname) hsuffix
  | @path _ _ name child _ hsplit hname hchild _ hslashes =>
    have htoken := valid_token h
    have hvalid := hnames _ _ _ hname
    have hbase : Valid (fullText (findCompletionToken s).token child name) := by
      rw [fullText]
      split
      case isTrue habs =>
        have hdir := valid_splitPathToken htoken (notMem_token s) (length_token_lt s) habs hsplit
        exact valid_joinPath hdir hvalid hchild
      case isFalse => exact (boundary_baseOff htoken).1.take.append hvalid
    rcases hslashes with rfl | rfl
    · rw [append_nil]
      exact hbase
    · exact hbase.append hslash

/-- What completion puts in ends in front of a character of the names that it completes to, and
the tail is moved by whole characters, also by the space behind the only match. -/
structure TabWhole (dirs : Dirs) (s : EditorState) (text : List UInt8) : Prop where
  whole : ∀ full, FullMatch dirs s full → text <+: full →
    CharStart full (replacementLen s (findCompletionToken s).start (findCompletionToken s).stop text)
  tail : TailWhole (s.text.drop (findCompletionToken s).stop) ((findCompletionToken s).start +
    replacementLen s (findCompletionToken s).start (findCompletionToken s).stop text -
      (findCompletionToken s).stop)
  space : completionMatches dirs s = [text] → AddsSpace s text →
    ∀ c ∈ (s.text.drop (findCompletionToken s).stop).head?, c < 0x80

/-- What is typed, loaded or named is valid, and nothing is cut inside a character. -/
def KeepsCharacters (s : EditorState) : Event → Prop
  | .start _ => True
  | .key dirs ch input =>
    match keyOf ch with
    | .paste => lineMax - 1 - (beforeText s).lineLen < s.clipboard.length →
        CharStart s.clipboard (lineMax - 1 - (beforeText s).lineLen)
    | .reverseSearch => FindsMarks s input
    | .up => ∀ entry ∈ entryUp s, Valid entry
    | .down => ∀ entry ∈ entryDown s, Valid entry
    | .tab => (∀ dir i name, dirs.name dir i = some name → Valid name) ∧
        ∀ text ∈ offered dirs s, TabWhole dirs s text
    | .text => ∀ bytes ∈ typed s ch input, Valid bytes
    | _ => True

theorem drop_withMatch (s : EditorState) (text : List UInt8) :
    (withMatch s text).text.drop (withMatch s text).cursor =
      movedTail (s.text.drop (findCompletionToken s).stop) ((findCompletionToken s).start +
        replacementLen s (findCompletionToken s).start (findCompletionToken s).stop text)
        (findCompletionToken s).stop := by
  obtain ⟨hle, hstop⟩ := findCompletionToken_le s
  have hrepl := replacementLen_le s (findCompletionToken s).start (findCompletionToken s).stop text
  have hlen := length_text s
  rw [withMatch, text_replaceRangeRaw hle hstop, cursor_replaceRangeRaw hle hstop]
  refine drop_left' ?_
  simp only [length_append, length_take]
  omega

theorem tabAdmits_of_whole (h : Keeps utf8 s) {dirs : Dirs}
    (hnames : ∀ dir i name, dirs.name dir i = some name → Valid name)
    (hwhole : ∀ text ∈ offered dirs s, TabWhole dirs s text) : TabAdmits utf8 dirs s := by
  have htail : Valid (s.text.drop (findCompletionToken s).stop) := (boundary_stop h).drop
  have htext : ∀ text ∈ offered dirs s,
      Replaces utf8 s (findCompletionToken s).start (findCompletionToken s).stop text := by
    intro text hmem
    have hok := hwhole text hmem
    obtain ⟨full, hfull, hpre⟩ := startsMatch_offered hmem
    have hlen := replacementLen_le s (findCompletionToken s).start (findCompletionToken s).stop text
    refine ⟨?_, valid_movedTail htail hok.tail⟩
    have hput := ((hok.whole full hfull hpre).boundary (valid_fullMatch h hnames hfull)).take
    have hstart : (full.take text.length).take (replacementLen s (findCompletionToken s).start
        (findCompletionToken s).stop text) = full.take (replacementLen s
        (findCompletionToken s).start (findCompletionToken s).stop text) := by
      rw [take_take, min_eq_left hlen]
    rw [← prefix_iff_eq_take.1 hpre] at hstart
    exact hstart ▸ hput
  refine ⟨htext, fun item hitems hspace => ⟨good_space _, ?_⟩⟩
  have hmem : item ∈ offered dirs s := by rw [offered, hitems]; rfl
  have hhead := (hwhole item hmem).space hitems hspace
  have hmoved := (htext item hmem).tail
  have hone : replacementLen (withMatch s item) (withMatch s item).cursor
      (withMatch s item).cursor [32] ≤ 1 := replacementLen_le _ _ _ _
  rw [drop_withMatch]
  refine valid_movedTail hmoved (tailWhole_ascii hmoved ?_ (by omega))
  rw [head?_movedTail]
  exact hhead

theorem admits_of_whole (h : Keeps utf8 s) (hok : HistoryOk s.history) {e : Event}
    (he : KeepsCharacters s e) : Admits utf8 s e := by
  have hentry : ∀ entry ∈ s.history, Valid entry → Valid (copyBytes lineMax entry) := by
    intro entry hmem hvalid
    rwa [copyBytes_of_fits (hok.entry entry hmem).string (hok.entry entry hmem).len]
  have hshown : ∀ i, Valid (s.history.getD i []) → Valid (copyBytes lineMax (s.history.getD i [])) := by
    intro i hvalid
    by_cases hi : i < s.history.length
    · rw [getD_eq_getElem _ _ hi] at hvalid ⊢
      exact hentry _ (getElem_mem hi) hvalid
    · rw [getD_eq_default _ _ (not_lt.1 hi)]
      exact Utf8.valid_nil
  cases e with
  | start cwd => trivial
  | key dirs ch input =>
    rw [KeepsCharacters] at he
    rw [Admits]
    cases hkey : keyOf ch
    all_goals rw [hkey] at he
    case paste =>
      intro _
      rw [fitting]
      by_cases hlong : lineMax - 1 - (beforeText s).lineLen < s.clipboard.length
      · exact ((he hlong).boundary h.clipboard).take
      · rw [take_of_length_le (not_lt.1 hlong)]
        exact h.clipboard
    case reverseSearch =>
      exact fun entry hmem => hentry entry (mem_of_entryFound hmem) (he entry hmem).1
    case up =>
      intro entry hmem
      have hvalid := he entry hmem
      rw [entryUp] at hmem
      split at hmem <;> cases hmem
      exact hshown _ hvalid
    case down =>
      intro entry hmem
      have hvalid := he entry hmem
      rw [entryDown] at hmem
      split at hmem
      · cases hmem
      · split at hmem <;> cases hmem
        exact hshown _ hvalid
    case tab => exact tabAdmits_of_whole h he.1 he.2
    case text => exact he
    all_goals trivial

/-- The invariant of the runs. -/
structure Whole (s : EditorState) : Prop where
  keeps : Keeps utf8 s
  marks : MarksOk s
  history : HistoryOk s.history

theorem whole_step (h : Whole s) {e : Event} (he : KeepsCharacters s e)
    (hstep : step s e = some s') : Whole s' := by
  have hkeeps := keeps_step h.keeps h.marks.cut (admits_of_whole h.keeps h.history he) hstep
  refine ⟨hkeeps, marksOk_step h.keeps h.marks h.history ?_ hstep hkeeps,
    historyOk_step h.keeps.sized h.history hstep⟩
  rintro dirs ch input rfl hkey
  rw [KeepsCharacters, hkey] at he
  exact he

theorem whole_initial (hs : Initial s) : Whole s := by
  refine ⟨keeps_initial hs, Unselected.marksOk ?_, historyOk_initial hs⟩
  obtain ⟨cwd, file, rfl⟩ := hs
  rw [historyLoad]
  split <;> exact ⟨rfl, rfl⟩

/-- The characters of the line stay whole, in every state of a run in which nothing is cut
inside a character. -/
theorem characters_invariant
    (hrun : Reachable Initial (fun s s' => ∃ e, KeepsCharacters s e ∧ step s e = some s') s) :
    Valid s.text ∧ Boundary s.text s.cursor ∧
      (s.selActive = true → Boundary s.text s.selStart ∧ Boundary s.text s.selEnd) := by
  have hwhole : Whole s := by
    refine hrun.invariant (fun s hs => whole_initial hs) ?_
    rintro s s' h ⟨e, he, hstep⟩
    exact whole_step h he hstep
  exact ⟨hwhole.keeps.text, hwhole.keeps.cursor, hwhole.marks.ends⟩

/-- The letter e with an accent is typed. -/
theorem characters_invariant_accent : ∃ s : EditorState, s.text = [0xC3, 0xA9] ∧
    Valid s.text ∧ Boundary s.text s.cursor ∧
      (s.selActive = true → Boundary s.text s.selStart ∧ Boundary s.text s.selEnd) :=
  ⟨_, by decide, characters_invariant (.next (.start ⟨[47], [], rfl⟩)
    ⟨.key noDirs 0xC3 [0xA9], by
      intro bytes hbytes
      have heq : bytes = [0xC3, 0xA9] := (Option.some.inj hbytes).symm
      exact ⟨['é'], by rw [heq]; decide⟩, rfl⟩)⟩

/-- What is typed, shown, pasted or named is valid. -/
def ValidInput (s : EditorState) : Event → Prop
  | .start _ => True
  | .key dirs ch input =>
    (∀ bytes ∈ typed s ch input, Valid bytes) ∧ (∀ entry ∈ s.history, Valid entry) ∧
      Valid s.clipboard ∧ ∀ dir i name, dirs.name dir i = some name → Valid name

theorem validInput_noDirs (hhistory : s.history = []) (hclip : s.clipboard = []) {ch : UInt8}
    {input : List UInt8} (htyped : ∀ bytes ∈ typed s ch input, Valid bytes) :
    ValidInput s (.key noDirs ch input) := by
  refine ⟨htyped, ?_, ?_, ?_⟩
  · rw [hhistory]
    simp
  · rw [hclip]
    exact Utf8.valid_nil
  · intro dir i name hname
    cases hname

/-- The command in front of a character of two bytes is completed, and the space behind the
command moves the tail by one byte. -/
theorem completion_cuts_character :
    ¬ ∀ s, Reachable Initial (fun s s' => ∃ e, ValidInput s e ∧ step s e = some s') s →
      Valid s.text := by
  intro h
  have hascii : ∀ c : UInt8, c < 0x80 → ∀ bytes ∈ some [c], Valid bytes := by
    rintro c hc bytes ⟨⟩
    exact Utf8.valid_singleton hc
  have haccent : ∀ bytes ∈ some [0xC3, 0xA9], Valid bytes := by
    rintro bytes ⟨⟩
    exact ⟨['é'], by decide⟩
  have hvalid := h _ (.next (.next (.next (.next (.start ⟨[47], [], rfl⟩)
    ⟨.key noDirs 46 [], validInput_noDirs rfl rfl (hascii 46 (by decide)), rfl⟩)
    ⟨.key noDirs 0xC3 [0xA9], validInput_noDirs rfl rfl haccent, rfl⟩)
    ⟨.key noDirs 0x01 [], validInput_noDirs rfl rfl (hascii 1 (by decide)), rfl⟩)
    ⟨.key noDirs 9 [], validInput_noDirs rfl rfl (hascii 9 (by decide)), rfl⟩)
  have htext : Valid ([46, 32] ++ [0xC3, 0xC3]) := hvalid
  have hfirst : Valid [46, 32] := Utf8.valid_of_ascii (by simp)
  have hrest := hfirst.of_append htext
  exact absurd (hrest.isCont_second (by decide)) (by decide)

end Cleonos.Editor
