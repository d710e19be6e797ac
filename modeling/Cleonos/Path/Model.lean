import Cleonos.Lib.LexicalPath
import Cleonos.Lib.Buffer
import Cleonos.Lib.Text

/-!
# The two path resolvers

`cmd_runtime.c` and `path.rs` resolve an argument against the current directory, each by a
component stack kept in the output buffer itself.
-/

namespace Cleonos.Path

open List
open Function (update update_self)

section

open LexicalPath (slash dot)
open Buffer (slice store)

/-- An output buffer, and the length of the path in it. -/
structure PathBuf where
  buf : ℕ → UInt8
  len : ℕ

/-- The first `len` bytes. -/
def PathBuf.text (out : PathBuf) : List UInt8 := slice out.buf 0 out.len

/-- The string that a reader of a buffer of this size finds. -/
def PathBuf.read (out : PathBuf) (size : ℕ) : List UInt8 :=
  cstr (slice out.buf 0 size)

/-- The buffer with a component behind the root, as both `push` functions leave it. -/
def PathBuf.pushAtRoot (out : PathBuf) (component : List UInt8) : PathBuf :=
  let buf := store out.buf 1 component
  ⟨update buf (1 + component.length) 0, 1 + component.length⟩

/-- The buffer with a slash and a component appended. -/
def PathBuf.pushBehind (out : PathBuf) (component : List UInt8) : PathBuf :=
  let buf := update out.buf out.len slash
  let buf := store buf (out.len + 1) component
  let len := out.len + (1 + component.length)
  ⟨update buf len 0, len⟩

/-- `while (*io_len > 1 && path[*io_len - 1] != '/') (*io_len)--`. -/
def popScan (buf : ℕ → UInt8) : ℕ → ℕ
  | 0 => 0
  | len + 1 => if len + 1 > 1 ∧ buf len ≠ slash then popScan buf len else len + 1

/-- The text of `ush_path_pop_component` and `path_pop`. -/
def PathBuf.pop (out : PathBuf) : PathBuf :=
  if out.len ≤ 1 then ⟨update (update out.buf 0 slash) 1 0, 1⟩
  else
    let len := popScan out.buf out.len
    let len := if len > 1 then len - 1 else len
    ⟨update out.buf len 0, len⟩

/-- The root, written over whatever the buffer holds. -/
def PathBuf.root (buf : ℕ → UInt8) : PathBuf :=
  ⟨update (update buf 0 slash) 1 0, 1⟩

/-! ## cmd_runtime.c -/

def ushPathPushComponent (size : ℕ) (out : PathBuf) (component : List UInt8) : Option PathBuf :=
  if component.length = 0 then none
  else if out.len = 1 then
    if out.len + component.length ≥ size then none else some (out.pushAtRoot component)
  else if out.len + 1 + component.length ≥ size then none
  else some (out.pushBehind component)

def ushPathPopComponent (out : PathBuf) : PathBuf := out.pop

/-- The loop of `ush_path_parse_into`, at `src + i`. -/
def ushPathParseLoop (size : ℕ) : ℕ → List UInt8 → PathBuf → Option PathBuf
  | 0, _, _ => none
  | fuel + 1, src, out =>
    if src.headD 0 = 0 then some out
    else
      let src := src.dropWhile (· = slash)
      if src.headD 0 = 0 then some out
      else
        let component := src.takeWhile fun c => c ≠ 0 ∧ c ≠ slash
        let src := src.dropWhile fun c => c ≠ 0 ∧ c ≠ slash
        if component.length = 1 ∧ component.getD 0 0 = dot then ushPathParseLoop size fuel src out
        else if component.length = 2 ∧ component.getD 0 0 = dot ∧ component.getD 1 0 = dot then
          ushPathParseLoop size fuel src (ushPathPopComponent out)
        else
          match ushPathPushComponent size out component with
          | none => none
          | some out => ushPathParseLoop size fuel src out

def ushPathParseInto (size : ℕ) (src : List UInt8) (out : PathBuf) : Option PathBuf :=
  ushPathParseLoop size (src.length + 1) (if src.headD 0 = slash then src.drop 1 else src) out

/-- `ush_resolve_path`, into a buffer that holds anything; `none` for a failure. -/
def ushResolvePath (cwd arg : List UInt8) (buf : ℕ → UInt8) (size : ℕ) : Option (List UInt8) :=
  if size < 2 then none
  else
    let out := PathBuf.root buf
    let result :=
      if arg.headD 0 = 0 then ushPathParseInto size cwd out
      else if arg.headD 0 ≠ slash then
        (ushPathParseInto size cwd out).bind fun out => ushPathParseInto size arg out
      else ushPathParseInto size arg out
    result.map fun out => out.read size

def pathPush (size : ℕ) (out : PathBuf) (component : List UInt8) : Option PathBuf :=
  if component = [] then some out
  else if out.len = 1 then
    if out.len + component.length ≥ size then none else some (out.pushAtRoot component)
  else if out.len + 1 + component.length ≥ size then none
  else some (out.pushBehind component)

def pathPop (out : PathBuf) : PathBuf := out.pop

/-- The loop of `path_parse_into`, on `src[i..src_len]`. -/
def pathParseLoop (size : ℕ) : ℕ → List UInt8 → PathBuf → Option PathBuf
  | 0, _, _ => none
  | fuel + 1, src, out =>
    if src = [] then some out
    else
      let src := src.dropWhile (· = slash)
      if src = [] then some out
      else
        let comp := src.takeWhile (· ≠ slash)
        let src := src.dropWhile (· ≠ slash)
        if comp = [dot] then pathParseLoop size fuel src out
        else if comp = [dot, dot] then pathParseLoop size fuel src (pathPop out)
        else
          match pathPush size out comp with
          | none => none
          | some out => pathParseLoop size fuel src out

def pathParseInto (size : ℕ) (src : List UInt8) (out : PathBuf) : Option PathBuf :=
  let i := if src.head? = some slash then 1 else 0
  pathParseLoop size (src.length + 1) ((cstr src).drop i) out

/-- `resolve_path`; `clear_buf` has zeroed the buffer. -/
def resolvePath (cwd arg : List UInt8) (size : ℕ) : Option (List UInt8) :=
  if size < 2 then none
  else
    let out := PathBuf.root fun _ => 0
    let result :=
      if (cstr arg).length = 0 then pathParseInto size cwd out
      else if arg.headD 0 ≠ slash then
        (pathParseInto size cwd out).bind fun out => pathParseInto size arg out
      else pathParseInto size arg out
    result.map fun out => out.read size

end

open LexicalPath Buffer

theorem cstr_dropWhile_slash (s : List UInt8) :
    cstr (s.dropWhile (· = slash)) = (cstr s).dropWhile (· = slash) := by
  induction s with
  | nil => rfl
  | cons c s ih =>
    by_cases hc : c = slash
    · subst hc
      have h0 : slash ≠ 0 := by decide
      simpa [cstr, h0] using ih
    · by_cases h0 : c = 0
      · subst h0
        simp [cstr, hc]
      · simp [cstr, hc, h0]

theorem takeWhile_component (s : List UInt8) :
    s.takeWhile (fun c => c ≠ 0 ∧ c ≠ slash) = (cstr s).takeWhile (· ≠ slash) := by
  induction s with
  | nil => rfl
  | cons c s ih =>
    by_cases h0 : c = 0
    · simp [cstr, h0]
    · by_cases hc : c = slash
      · simp [cstr, hc, show slash ≠ 0 by decide]
      · simpa [cstr, h0, hc] using ih

theorem cstr_dropWhile_component (s : List UInt8) :
    cstr (s.dropWhile fun c => c ≠ 0 ∧ c ≠ slash) = (cstr s).dropWhile (· ≠ slash) := by
  induction s with
  | nil => rfl
  | cons c s ih =>
    by_cases h0 : c = 0
    · simp [cstr, h0]
    · by_cases hc : c = slash
      · simp [cstr, hc, show slash ≠ 0 by decide]
      · simpa [cstr, h0, hc] using ih

theorem eq_dot_iff (c : List UInt8) : (c.length = 1 ∧ c.getD 0 0 = dot) ↔ c = [dot] := by
  constructor
  · rintro ⟨hl, hd⟩
    obtain ⟨b, rfl⟩ := length_eq_one_iff.1 hl
    simpa using hd
  · rintro rfl
    exact ⟨rfl, rfl⟩

theorem eq_dotdot_iff (c : List UInt8) :
    (c.length = 2 ∧ c.getD 0 0 = dot ∧ c.getD 1 0 = dot) ↔ c = [dot, dot] := by
  constructor
  · rintro ⟨hl, hd, hd'⟩
    obtain ⟨a, b, rfl⟩ := length_eq_two.1 hl
    simp_all
  · rintro rfl
    exact ⟨rfl, rfl, rfl⟩

theorem ushPathPushComponent_eq {size : ℕ} {out : PathBuf} {c : List UInt8} (hc : c ≠ []) :
    ushPathPushComponent size out c = pathPush size out c := by
  have hlen : c.length ≠ 0 := by simpa using hc
  rw [ushPathPushComponent, pathPush, if_neg hlen, if_neg hc]

theorem takeWhile_ne_nil {s : List UInt8} (h : s.dropWhile (· = slash) ≠ []) :
    (s.dropWhile (· = slash)).takeWhile (· ≠ slash) ≠ [] := by
  have hhead := List.head?_dropWhile_not (· = slash) s
  obtain ⟨c, cs, hcs⟩ := exists_cons_of_ne_nil h
  rw [hcs] at hhead ⊢
  have hc : c ≠ slash := by simpa using hhead
  simp [hc]

theorem ushPathParseLoop_eq (size fuel : ℕ) (src : List UInt8) (out : PathBuf) :
    ushPathParseLoop size fuel src out = pathParseLoop size fuel (cstr src) out := by
  induction fuel generalizing src out with
  | zero => rfl
  | succ fuel ih =>
    rw [ushPathParseLoop, pathParseLoop]
    by_cases hsrc : src.headD 0 = 0
    · rw [if_pos hsrc, if_pos ((cstr_eq_nil_iff src).2 hsrc)]
    rw [if_neg hsrc, if_neg fun h => hsrc ((cstr_eq_nil_iff src).1 h)]
    simp only [← cstr_eq_nil_iff, cstr_dropWhile_slash, takeWhile_component, eq_dot_iff,
      eq_dotdot_iff]
    by_cases hend : (cstr src).dropWhile (· = slash) = []
    · rw [if_pos hend, if_pos hend]
    rw [if_neg hend, if_neg hend, ushPathPushComponent_eq (takeWhile_ne_nil hend)]
    simp only [ih, cstr_dropWhile_component, cstr_dropWhile_slash]
    rfl

theorem ushPathParseInto_eq (size : ℕ) (src : List UInt8) (out : PathBuf) :
    ushPathParseInto size src out = pathParseInto size src out := by
  cases src with
  | nil => rw [ushPathParseInto, pathParseInto, ushPathParseLoop_eq]; rfl
  | cons c s =>
    rw [ushPathParseInto, pathParseInto, ushPathParseLoop_eq]
    by_cases hc : c = slash
    · subst hc
      simp [cstr, show slash ≠ 0 by decide]
    · simp [hc]

/-- The buffer renders a stack of plain components without zero bytes. -/
structure Holds (out : PathBuf) (stack : List (List UInt8)) : Prop where
  text : out.text = render stack
  nul : out.buf out.len = 0
  plain : ∀ c ∈ stack, Plain c
  no_nul : ∀ c ∈ stack, ∀ b ∈ c, b ≠ 0

namespace Holds

open List

variable {out : PathBuf} {stack : List (List UInt8)} {size : ℕ}

theorem len_eq (h : Holds out stack) : out.len = (render stack).length := by
  rw [← h.text, PathBuf.text, length_slice]

theorem len_eq_one_iff (h : Holds out stack) : out.len = 1 ↔ stack = [] := by
  rw [h.len_eq]
  constructor
  · intro hlen
    cases stack with
    | nil => rfl
    | cons c cs =>
      have hc := (h.plain c (by simp)).ne_nil
      have hpos := length_pos_of_ne_nil hc
      rw [render_of_ne_nil (by simp), slashed_cons] at hlen
      simp only [length_append, length_cons] at hlen
      omega
  · rintro rfl
    rfl

theorem root (buf : ℕ → UInt8) : Holds (PathBuf.root buf) [] := by
  refine ⟨?_, ?_, by simp, by simp⟩
  · simp only [PathBuf.text, PathBuf.root]
    rw [slice_update_of_le (by decide), slice_one, update_self]
    rfl
  · simp [PathBuf.root]

theorem read_eq (h : Holds out stack) (hsize : out.len < size) : out.read size = render stack := by
  have hnul : ∀ b ∈ render stack, b ≠ 0 := forall_mem_render (by decide) h.no_nul
  obtain ⟨k, rfl⟩ := Nat.exists_eq_add_of_lt hsize
  have hsplit : slice out.buf 0 (out.len + k + 1) =
      render stack ++ 0 :: slice out.buf (out.len + 1) k := by
    have hlen : out.len + k + 1 = out.len + (1 + k) := by omega
    rw [hlen, slice_add, slice_add, Nat.zero_add, slice_one, h.nul]
    exact congrArg (· ++ _) h.text
  rw [PathBuf.read, hsplit, cstr, takeWhile_append_of_pos (by simpa using hnul)]
  simp

theorem push {c : List UInt8} (h : Holds out stack) (hc : Plain c) (h0 : ∀ b ∈ c, b ≠ 0) :
    if (render (stack ++ [c])).length < size then
      ∃ out', pathPush size out c = some out' ∧ Holds out' (stack ++ [c])
    else pathPush size out c = none := by
  have hplain : ∀ d ∈ stack ++ [c], Plain d := by
    intro d hd
    rcases mem_append.1 hd with hd | hd
    · exact h.plain d hd
    · exact mem_singleton.1 hd ▸ hc
  have hnul : ∀ d ∈ stack ++ [c], ∀ b ∈ d, b ≠ 0 := by
    intro d hd
    rcases mem_append.1 hd with hd | hd
    · exact h.no_nul d hd
    · exact mem_singleton.1 hd ▸ h0
  have htext : slice out.buf 0 out.len = render stack := h.text
  rw [pathPush, if_neg hc.ne_nil]
  by_cases hroot : out.len = 1
  · have hstack := h.len_eq_one_iff.1 hroot
    subst hstack
    have hlen : (render ([] ++ [c])).length = out.len + c.length := by
      rw [render_concat, hroot]
      simp [Nat.add_comm]
    rw [if_pos hroot, hlen]
    by_cases hfit : out.len + c.length < size
    · rw [if_pos hfit, if_neg (by omega)]
      refine ⟨_, rfl, ?_, by simp [PathBuf.pushAtRoot], hplain, hnul⟩
      rw [hroot] at htext
      simp only [PathBuf.text, PathBuf.pushAtRoot]
      rw [slice_update_of_le (by omega), slice_store, htext, render_concat]
      rfl
    · rw [if_neg hfit, if_pos (by omega)]
  · have hstack : stack ≠ [] := fun hs => hroot (h.len_eq_one_iff.2 hs)
    have hslashed : slashed stack = render stack := (render_of_ne_nil hstack).symm
    have hlen : (render (stack ++ [c])).length = out.len + 1 + c.length := by
      rw [render_concat, hslashed, h.len_eq]
      simp [Nat.add_assoc, Nat.add_comm 1]
    rw [if_neg hroot, hlen]
    by_cases hfit : out.len + 1 + c.length < size
    · rw [if_pos hfit, if_neg (by omega)]
      refine ⟨_, rfl, ?_, by simp [PathBuf.pushBehind], hplain, hnul⟩
      simp only [PathBuf.text, PathBuf.pushBehind]
      rw [slice_update_of_le (by omega), ← Nat.add_assoc, slice_store, slice_update_succ, htext,
        render_concat, hslashed, append_assoc]
      rfl
    · rw [if_neg hfit, if_pos (by omega)]

theorem popScan_eq {buf : ℕ → UInt8} {k n : ℕ} (hk : buf k = slash) (hkn : k < n)
    (hafter : ∀ j, k < j → j < n → buf j ≠ slash) : popScan buf n = k + 1 := by
  induction n with
  | zero => omega
  | succ n ih =>
    rw [popScan]
    by_cases hn : n = k
    · subst hn
      rw [if_neg fun hh => hh.2 hk]
    · rw [if_pos ⟨by omega, hafter n (by omega) (by omega)⟩]
      exact ih (by omega) fun j hj hjn => hafter j hj (by omega)

theorem pop (h : Holds out stack) : Holds out.pop stack.dropLast := by
  rcases eq_nil_or_concat stack with rfl | ⟨init, c, hstack⟩
  · rw [PathBuf.pop, if_pos (by rw [h.len_eq_one_iff.2 rfl])]
    exact root out.buf
  rw [concat_eq_append] at hstack
  subst hstack
  have hne : ¬ out.len ≤ 1 := by
    have hlen := h.len_eq
    have hpos := length_pos_of_ne_nil (h.plain c (by simp)).ne_nil
    rw [render_concat] at hlen
    simp only [length_append, length_cons] at hlen
    omega
  have htext : slice out.buf 0 out.len = slashed init ++ slash :: c :=
    h.text.trans (render_concat init c)
  have hlen : out.len = (slashed init).length + (1 + c.length) := by
    rw [h.len_eq, render_concat]
    simp [Nat.add_comm 1]
  have hslash : out.buf (slashed init).length = slash := by
    have hcell := eq_of_slice_eq htext (show (slashed init).length < out.len by omega)
    simpa using hcell.symm
  have hafter : ∀ j, (slashed init).length < j → j < out.len → out.buf j ≠ slash := by
    intro j hj hjl
    obtain ⟨i, rfl⟩ := Nat.exists_eq_add_of_lt hj
    have hcell := eq_of_slice_eq htext hjl
    rw [List.getElem?_append_right (by omega), Nat.add_assoc, Nat.add_sub_cancel_left,
      List.getElem?_cons_succ] at hcell
    have hmem := mem_of_getElem? hcell
    exact fun heq => (h.plain c (by simp)).no_slash (heq ▸ hmem)
  have hscan := popScan_eq hslash (by omega) hafter
  have hdrop : (init ++ [c]).dropLast = init := by simp
  rw [PathBuf.pop, if_neg hne, hscan, hdrop]
  have hplain : ∀ d ∈ init, Plain d := fun d hd => h.plain d (by simp [hd])
  have hnul : ∀ d ∈ init, ∀ b ∈ d, b ≠ 0 := fun d hd => h.no_nul d (by simp [hd])
  by_cases hinit : init = []
  · subst hinit
    refine ⟨?_, by simp, by simp, by simp⟩
    simp only [slashed_nil, length_nil, Nat.zero_add, gt_iff_lt, Nat.lt_irrefl, if_false,
      PathBuf.text]
    rw [slice_update_of_le (by omega), take_slice htext (by omega)]
    rfl
  · have hpos : (slashed init).length + 1 > 1 := by
      cases init with
      | nil => exact absurd rfl hinit
      | cons d ds => simp
    refine ⟨?_, by simp, hplain, hnul⟩
    simp only [if_pos hpos, Nat.add_sub_cancel, PathBuf.text]
    rw [slice_update_of_le (by omega), take_slice htext (by omega), render_of_ne_nil hinit]
    simp

end Holds

/-- The outcome of a parse from a stack: the stack after the components, or failure
exactly when an intermediate path does not fit. -/
def Computes (size : ℕ) (stack cs : List (List UInt8)) (result : Option PathBuf) : Prop :=
  if Fits size stack cs then ∃ out, result = some out ∧ Holds out (cs.foldl normStep stack)
  else result = none

variable {size : ℕ} {out : PathBuf} {stack cs ds : List (List UInt8)}

theorem Computes.nil (h : Holds out stack) (hsize : out.len < size) :
    Computes size stack [] (some out) := by
  rw [Computes, if_pos (fits_nil.2 (h.len_eq ▸ hsize))]
  exact ⟨out, rfl, h⟩

theorem Computes.cons {c : List UInt8} {result : Option PathBuf} (h : Holds out stack)
    (hsize : out.len < size) (hc : Computes size (normStep stack c) cs result) :
    Computes size stack (c :: cs) result := by
  have hiff : Fits size stack (c :: cs) ↔ Fits size (normStep stack c) cs := by
    rw [fits_cons]
    exact and_iff_right (h.len_eq ▸ hsize)
  rw [Computes] at hc ⊢
  by_cases hfit : Fits size (normStep stack c) cs
  · rw [if_pos hfit] at hc
    rw [if_pos (hiff.2 hfit)]
    exact hc
  · rw [if_neg hfit] at hc
    rw [if_neg fun hh => hfit (hiff.1 hh)]
    exact hc

theorem Computes.append {first : Option PathBuf} {next : PathBuf → Option PathBuf}
    (h : Computes size stack cs first)
    (hnext : ∀ out, Holds out (cs.foldl normStep stack) → out.len < size →
      Computes size (cs.foldl normStep stack) ds (next out)) :
    Computes size stack (cs ++ ds) (first.bind next) := by
  rw [Computes] at h
  by_cases hfit : Fits size stack cs
  · rw [if_pos hfit] at h
    obtain ⟨out, rfl, hout⟩ := h
    have hlt : out.len < size := by
      rw [hout.len_eq]
      exact hfit cs (mem_inits cs cs |>.2 (prefix_refl cs))
    have hrest := hnext out hout hlt
    rw [Option.bind_some]
    rw [Computes] at hrest ⊢
    by_cases hfit' : Fits size (cs.foldl normStep stack) ds
    · rw [if_pos hfit'] at hrest
      rw [if_pos (fits_append.2 ⟨hfit, hfit'⟩), foldl_append]
      exact hrest
    · rw [if_neg hfit'] at hrest
      rw [if_neg fun hh => hfit' (fits_append.1 hh).2]
      exact hrest
  · rw [if_neg hfit] at h
    rw [Computes, if_neg fun hh => hfit (fits_append.1 hh).1, h]
    rfl

theorem pathParseLoop_spec {fuel : ℕ} {s : List UInt8} (h : Holds out stack)
    (hsize : out.len < size) (hs : ∀ b ∈ s, b ≠ 0) (hfuel : s.length < fuel) :
    Computes size stack (components s) (pathParseLoop size fuel s out) := by
  induction fuel generalizing s out stack with
  | zero => omega
  | succ fuel ih =>
    rw [pathParseLoop]
    by_cases hnil : s = []
    · rw [if_pos hnil, hnil]
      exact Computes.nil h hsize
    rw [if_neg hnil]
    have hcomp := components_dropWhile s
    have hlen := (dropWhile_suffix (l := s) (· = slash)).length_le
    have hsub := (dropWhile_suffix (l := s) (· = slash)).subset
    by_cases hend : s.dropWhile (· = slash) = []
    · rw [if_pos hend, ← hcomp, hend]
      exact Computes.nil h hsize
    have hc := takeWhile_ne_nil hend
    simp only [if_neg hend]
    generalize s.dropWhile (· = slash) = s' at *
    have hcons := components_eq_cons hc
    have hmem : s'.takeWhile (· ≠ slash) ∈ components s' := by rw [hcons]; simp
    obtain ⟨hne, hns, hbytes⟩ := of_mem_components hmem
    have hrest : (s'.dropWhile (· ≠ slash)).length < fuel := by
      have hsplit := congrArg List.length
        (takeWhile_append_dropWhile (p := (· ≠ slash)) (l := s'))
      have hpos := length_pos_of_ne_nil hne
      rw [length_append] at hsplit
      omega
    have hrest0 : ∀ b ∈ s'.dropWhile (· ≠ slash), b ≠ 0 := fun b hb =>
      hs b (hsub ((dropWhile_suffix _).subset hb))
    rw [← hcomp, hcons]
    refine Computes.cons h hsize ?_
    generalize s'.takeWhile (· ≠ slash) = c at *
    rw [normStep]
    by_cases hdot : c = [dot]
    · rw [if_pos hdot, if_pos hdot]
      exact ih h hsize hrest0 hrest
    by_cases hdotdot : c = [dot, dot]
    · rw [if_neg hdot, if_neg hdot, if_pos hdotdot, if_pos hdotdot]
      refine ih h.pop ?_ hrest0 hrest
      have hle := length_render_le_of_isPrefix (List.dropLast_prefix stack)
      rw [← h.len_eq, ← h.pop.len_eq] at hle
      exact lt_of_le_of_lt hle hsize
    · rw [if_neg hdot, if_neg hdot, if_neg hdotdot, if_neg hdotdot]
      have hpush := @Holds.push out stack size c h ⟨hne, hdot, hdotdot, hns⟩
        (fun b hb => hs b (hsub (hbytes b hb)))
      by_cases hfit : (render (stack ++ [c])).length < size
      · rw [if_pos hfit] at hpush
        obtain ⟨out', hout, hholds⟩ := hpush
        rw [hout]
        exact ih hholds (hholds.len_eq ▸ hfit) hrest0 hrest
      · rw [if_neg hfit] at hpush
        rw [hpush, Computes, if_neg fun hh => hfit hh.length_lt]

theorem pathParseInto_spec (h : Holds out stack) (hsize : out.len < size) (src : List UInt8) :
    Computes size stack (components (cstr src)) (pathParseInto size src out) := by
  have hlen : (cstr src).length ≤ src.length := length_cstr_le src
  have hcomp : components ((cstr src).drop (if src.head? = some slash then 1 else 0)) =
      components (cstr src) := by
    by_cases hhead : src.head? = some slash
    · rw [if_pos hhead]
      obtain ⟨s, rfl⟩ : ∃ s, src = slash :: s := by
        cases src with
        | nil => simp at hhead
        | cons c s => exact ⟨s, by simpa using hhead⟩
      have h0 : slash ≠ 0 := by decide
      simp [cstr, h0]
    · rw [if_neg hhead, drop_zero]
  rw [pathParseInto, ← hcomp]
  refine pathParseLoop_spec h hsize (fun b hb hb0 => ?_) ?_
  · exact notMem_cstr src (hb0 ▸ mem_of_mem_drop hb)
  · simp only [length_drop]
    omega

/-! ## Resolving -/

/-- The components that a resolution runs over. -/
def joined (cwd arg : List UInt8) : List (List UInt8) := components (join (cstr cwd) (cstr arg))

theorem head?_cstr_eq_slash (arg : List UInt8) :
    (cstr arg).head? = some slash ↔ arg.headD 0 = slash := by
  cases arg with
  | nil => simp [cstr, slash]
  | cons c s =>
    by_cases hc : c = 0
    · simp [cstr, hc, show (0 : UInt8) ≠ slash by decide]
    · simp [cstr, hc]

variable (cwd : List UInt8)

theorem resolve_spec (arg : List UInt8) (buf : ℕ → UInt8) (hsize : 2 ≤ size) :
    Computes size [] (joined cwd arg)
      (if arg.headD 0 = 0 then pathParseInto size cwd (PathBuf.root buf)
      else if arg.headD 0 ≠ slash then
        (pathParseInto size cwd (PathBuf.root buf)).bind fun out => pathParseInto size arg out
      else pathParseInto size arg (PathBuf.root buf)) := by
  have hroot := Holds.root buf
  have hlt : (PathBuf.root buf).len < size := hsize
  by_cases hempty : arg.headD 0 = 0
  · have hnil : cstr arg = [] := (cstr_eq_nil_iff arg).2 hempty
    have hj : joined cwd arg = components (cstr cwd) := by
      rw [joined, hnil, join, if_neg (by simp), components_append_slash]
      simp
    rw [if_pos hempty, hj]
    exact pathParseInto_spec hroot hlt cwd
  rw [if_neg hempty]
  by_cases habs : arg.headD 0 = slash
  · have hj : joined cwd arg = components (cstr arg) := by
      rw [joined, join, if_pos ((head?_cstr_eq_slash arg).2 habs)]
    rw [if_neg (not_not_intro habs), hj]
    exact pathParseInto_spec hroot hlt arg
  · have hj : joined cwd arg = components (cstr cwd) ++ components (cstr arg) := by
      rw [joined, join, if_neg (mt (head?_cstr_eq_slash arg).1 habs), components_append_slash]
    rw [if_pos habs, hj]
    exact (pathParseInto_spec hroot hlt cwd).append fun out hout hout' =>
      pathParseInto_spec hout hout' arg

theorem Computes.map_read {result : Option PathBuf} (h : Computes size [] cs result) :
    result.map (fun out => out.read size) =
      if Fits size [] cs then some (render (normalise cs)) else none := by
  rw [Computes] at h
  by_cases hfit : Fits size [] cs
  · rw [if_pos hfit] at h ⊢
    obtain ⟨out, rfl, hout⟩ := h
    have hlt : out.len < size := by
      rw [hout.len_eq]
      exact hfit cs (mem_inits cs cs |>.2 (prefix_refl cs))
    rw [Option.map_some, hout.read_eq hlt]
    rfl
  · rw [if_neg hfit] at h ⊢
    rw [h]
    rfl

theorem not_fits_of_lt_two (hsize : size < 2) : ¬ Fits size [] cs := by
  intro h
  have hroot := h.length_lt
  simp only [render_nil, length_singleton] at hroot
  omega

theorem resolvePath_eq (arg : List UInt8) (size : ℕ) : resolvePath cwd arg size =
      if Fits size [] (joined cwd arg) then some (render (normalise (joined cwd arg))) else none := by
  rw [resolvePath]
  by_cases hsize : size < 2
  · rw [if_pos hsize, if_neg (not_fits_of_lt_two hsize)]
  · rw [if_neg hsize, ← (resolve_spec cwd arg (fun _ => 0) (Nat.le_of_not_lt hsize)).map_read]
    simp only [length_eq_zero_iff, cstr_eq_nil_iff]

theorem ushResolvePath_eq (arg : List UInt8) (buf : ℕ → UInt8) (size : ℕ) :
    ushResolvePath cwd arg buf size =
      if Fits size [] (joined cwd arg) then some (render (normalise (joined cwd arg))) else none := by
  rw [ushResolvePath]
  by_cases hsize : size < 2
  · rw [if_pos hsize, if_neg (not_fits_of_lt_two hsize)]
  · rw [if_neg hsize, ← (resolve_spec cwd arg buf (Nat.le_of_not_lt hsize)).map_read]
    simp only [ushPathParseInto_eq]

/-- An absolute path without empty, `.` or `..` components and without a slash at the
end, unless it is the root. -/
structure Canonical (p : List UInt8) : Prop where
  absolute : p.head? = some slash
  pieces : p ≠ [slash] → ∀ c ∈ p.tail.splitOn slash, c ≠ [] ∧ c ≠ [dot] ∧ c ≠ [dot, dot]
  no_slash_last : p ≠ [slash] → p.getLast? ≠ some slash

theorem splitOn_tail_slashed {c : List UInt8} {cs : List (List UInt8)}
    (h : ∀ d ∈ c :: cs, Plain d) : (slashed (c :: cs)).tail.splitOn slash = c :: cs := by
  induction cs generalizing c with
  | nil => simpa using splitOn_eq_singleton (h c (by simp)).no_slash
  | cons d ds ih =>
    have htail : (slashed (c :: d :: ds)).tail = c ++ slash :: (slashed (d :: ds)).tail := by simp
    rw [htail, splitOn_append_cons_self_of_not_mem (h c (by simp)).no_slash,
      ih fun e he => h e (mem_cons_of_mem c he)]

theorem canonical_render (h : ∀ c ∈ cs, Plain c) : Canonical (render cs) := by
  refine ⟨head?_render cs, ?_, ?_⟩
  · intro hne c hc
    cases cs with
    | nil => exact absurd rfl hne
    | cons d ds =>
      rw [render_of_ne_nil (by simp), splitOn_tail_slashed h] at hc
      exact ⟨(h c hc).ne_nil, (h c hc).ne_dot, (h c hc).ne_dotdot⟩
  · intro hne hlast
    rcases eq_nil_or_concat cs with rfl | ⟨init, c, hcs⟩
    · exact hne rfl
    · rw [concat_eq_append] at hcs
      subst hcs
      have hc := h c (by simp)
      obtain ⟨b, hb⟩ := Option.ne_none_iff_exists'.1 (mt List.getLast?_eq_none_iff.1 hc.ne_nil)
      rw [render_concat, List.getLast?_append, List.getLast?_cons, hb] at hlast
      have hbs : b = slash := by simpa using hlast
      exact hc.no_slash (hbs ▸ mem_of_getLast? hb)

theorem no_nul_normalise (arg : List UInt8) : ∀ c ∈ normalise (joined cwd arg), ∀ b ∈ c, b ≠ 0 := by
  have hjoin : ∀ b ∈ join (cstr cwd) (cstr arg), b ≠ 0 := by
    intro b hb hb0
    subst hb0
    rw [join] at hb
    by_cases habs : (cstr arg).head? = some slash
    · rw [if_pos habs] at hb
      exact notMem_cstr arg hb
    · rw [if_neg habs, mem_append, mem_cons] at hb
      rcases hb with hb | hb | hb
      · exact notMem_cstr cwd hb
      · exact absurd hb (by decide)
      · exact notMem_cstr arg hb
  refine foldl_normStep_induction (I := fun st => ∀ c ∈ st, ∀ b ∈ c, b ≠ 0) (by simp) ?_
  intro st hst c hc
  exact bytes_normStep hst fun b hb => hjoin b ((of_mem_components hc).2.2 b hb)

theorem resolvePath_render (h : ∀ c ∈ cs, Plain c) (h0 : ∀ c ∈ cs, ∀ b ∈ c, b ≠ 0)
    (hsize : (render cs).length < size) (cwd : List UInt8) :
    resolvePath cwd (render cs) size = some (render cs) := by
  have hnul : (0 : UInt8) ∉ render cs := fun hm =>
    forall_mem_render (P := (· ≠ 0)) (by decide) h0 0 hm rfl
  have hj : joined cwd (render cs) = cs := by
    rw [joined, cstr_of_notMem hnul, join, if_pos (head?_render cs), components_render h]
  rw [resolvePath_eq, hj, if_pos (fits_of_plain h hsize), normalise_of_plain h]

/-- The two resolvers agree; they return the lexical normalisation of the joined path
unless an intermediate path does not fit; and what they return is canonical and
resolves to itself from any directory. -/
theorem resolve_path_equiv_canonical (cwd arg : List UInt8) (buf : ℕ → UInt8) (size : ℕ) :
    ushResolvePath cwd arg buf size = resolvePath cwd arg size ∧
      resolvePath cwd arg size =
        (if Fits size [] (components (join (cstr cwd) (cstr arg))) then
          some (render (normalise (components (join (cstr cwd) (cstr arg)))))
        else none) ∧
      ∀ p, resolvePath cwd arg size = some p →
        Canonical p ∧ ∀ cwd' buf', ushResolvePath cwd' p buf' size = some p ∧
          resolvePath cwd' p size = some p := by
  refine ⟨by rw [ushResolvePath_eq, resolvePath_eq], resolvePath_eq cwd arg size, ?_⟩
  intro p hp
  rw [resolvePath_eq] at hp
  by_cases hfit : Fits size [] (joined cwd arg)
  · rw [if_pos hfit, Option.some.injEq] at hp
    have hplain := plain_normalise (join (cstr cwd) (cstr arg))
    have hlt : (render (normalise (joined cwd arg))).length < size :=
      hfit _ (mem_inits _ _ |>.2 (prefix_refl _))
    have hself : ∀ cwd', resolvePath cwd' p size = some p := fun cwd' => by
      rw [← hp]
      exact resolvePath_render hplain (no_nul_normalise cwd arg) hlt cwd'
    exact ⟨hp ▸ canonical_render hplain, fun cwd' buf' =>
      ⟨by rw [ushResolvePath_eq, ← resolvePath_eq, hself], hself cwd'⟩⟩
  · rw [if_neg hfit] at hp
    exact absurd hp (by simp)

theorem joined_of_relative (dir : List UInt8) {b : List UInt8} (hb : b.headD 0 ≠ slash) :
    joined dir b = components (cstr dir) ++ components (cstr b) := by
  rw [joined, join, if_neg (mt (head?_cstr_eq_slash b).1 hb), components_append_slash]

theorem joined_append_slash {a : List UInt8} (ha : a ≠ []) (ha0 : 0 ∉ a) (b : List UInt8) :
    joined cwd (a ++ slash :: b) = joined cwd a ++ components (cstr b) := by
  have hcstr : cstr (a ++ slash :: b) = a ++ slash :: cstr b := by
    rw [cstr, takeWhile_append_of_pos fun c hc => by simpa using ne_of_mem_of_not_mem hc ha0]
    rfl
  have hhead : (a ++ slash :: cstr b).head? = a.head? := head?_append_of_ne_nil a ha
  rw [joined, joined, hcstr, cstr_of_notMem ha0, join, join, hhead]
  split <;> simp only [components_append_slash, append_assoc]

/-- To resolve `a/b` is to resolve `b` in the directory that `a` resolves to; what does not fit
fails in both ways. -/
theorem resolve_subdirectory {a b : List UInt8} (ha : a ≠ []) (ha0 : 0 ∉ a)
    (hb : b.headD 0 ≠ slash) (buf : ℕ → UInt8) (size : ℕ) :
    resolvePath cwd (a ++ slash :: b) size =
        ((resolvePath cwd a size).bind fun dir => resolvePath dir b size) ∧
      ushResolvePath cwd (a ++ slash :: b) buf size =
        ((ushResolvePath cwd a buf size).bind fun dir => ushResolvePath dir b buf size) := by
  have hplain : ∀ c ∈ normalise (joined cwd a), Plain c := plain_normalise _
  have hdir : joined (render (normalise (joined cwd a))) b =
      normalise (joined cwd a) ++ components (cstr b) := by
    have hnul : (0 : UInt8) ∉ render (normalise (joined cwd a)) := fun hm =>
      forall_mem_render (P := (· ≠ 0)) (by decide) (no_nul_normalise cwd a) 0 hm rfl
    rw [joined_of_relative _ hb, cstr_of_notMem hnul, components_render hplain]
  have hmain : resolvePath cwd (a ++ slash :: b) size =
      (resolvePath cwd a size).bind fun dir => resolvePath dir b size := by
    simp only [resolvePath_eq, joined_append_slash cwd ha ha0]
    by_cases hfit : Fits size [] (joined cwd a)
    · have hself := fits_of_plain hplain (hfit _ (mem_inits _ _ |>.2 (prefix_refl _)))
      have hfits : ∀ {cs ds}, Fits size [] cs →
          (Fits size [] (cs ++ ds) ↔ Fits size (normalise cs) ds) :=
        fun h => fits_append.trans (and_iff_right h)
      have hnorm : ∀ {cs ds}, normalise (cs ++ ds) = ds.foldl normStep (normalise cs) :=
        foldl_append
      rw [if_pos hfit, Option.bind_some, hdir]
      simp only [hfits hfit, hfits hself, hnorm, normalise_of_plain hplain]
    · rw [if_neg hfit, if_neg fun h => hfit (fits_append.1 h).1]
      rfl
  exact ⟨hmain, by simpa only [ushResolvePath_eq, resolvePath_eq] using hmain⟩

theorem resolve_in_sys :
    ((ushResolvePath [slash] (lit "sys") (fun _ => 0) 192).bind fun dir =>
      ushResolvePath dir (lit "../s") (fun _ => 0) 192) = some (lit "/s") :=
  (resolve_subdirectory [slash] (by decide +kernel) (by decide +kernel) (by decide +kernel)
    _ 192).2.symm.trans (by decide +kernel)

end Cleonos.Path
