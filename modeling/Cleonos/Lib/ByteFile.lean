import Mathlib.Data.Int.Init
import Cleonos.Lib.Buffer

/-!
# Byte files

A file is the list of its items.
-/

namespace Cleonos.ByteFile

open List

universe u
variable {α : Type u}

/-- The `n` items from offset `i` on, filled up behind the end. -/
def readAt (z : α) (f : List α) (i n : ℕ) : List α :=
  (f.drop i).take n ++ List.replicate (n - (f.length - i)) z

/-- A read of `n` items from offset `i` on finds nothing there, or not all of them. -/
def isShort (f : List α) (i n : ℕ) : Bool := decide (f.length ≤ i ∨ f.length < i + n)

/-- The file with `xs` from offset `i` on; a gap in front of it is filled. -/
def writeAt (z : α) (f : List α) (i : ℕ) (xs : List α) : List α :=
  f.take i ++ List.replicate (i - f.length) z ++ xs ++ f.drop (i + xs.length)

/-- The file cut to `n` items, or filled up to them. -/
def resize (z : α) (f : List α) (n : ℕ) : List α := f.take n ++ List.replicate (n - f.length) z

variable {z : α} {f xs : List α} {i j n : ℕ}

@[simp] theorem length_readAt : (readAt z f i n).length = n := by
  simp only [readAt, length_append, length_take, length_drop, length_replicate]
  omega

@[simp] theorem length_resize : (resize z f n).length = n := by
  simp only [resize, length_append, length_take, length_replicate]
  omega

@[simp] theorem length_writeAt :
    (writeAt z f i xs).length = max f.length (i + xs.length) := by
  simp only [writeAt, length_append, length_take, length_replicate,
    length_drop]
  omega

theorem getElem?_readAt (hj : j < n) : (readAt z f i n)[j]? = some (f.getD (i + j) z) := by
  rw [readAt, List.getElem?_append]
  by_cases h : i + j < f.length
  · rw [if_pos (by simp; omega), List.getElem?_take, if_pos hj, List.getElem?_drop]
    simp [h]
  · rw [if_neg (by simp; omega), List.getElem?_replicate, if_pos (by simp; omega)]
    simp [List.getElem?_eq_none (Nat.not_lt.1 h)]

theorem getElem?_resize (hj : j < n) : (resize z f n)[j]? = some (f.getD j z) := by
  rw [resize, List.getElem?_append]
  by_cases h : j < f.length
  · rw [if_pos (by simp; omega), List.getElem?_take, if_pos hj]
    simp [h]
  · rw [if_neg (by simp; omega), List.getElem?_replicate, if_pos (by simp; omega)]
    simp [List.getElem?_eq_none (Nat.not_lt.1 h)]

theorem getElem?_writeAt_of_lt (hj : j < i) : (writeAt z f i xs)[j]? = some (f.getD j z) := by
  rw [writeAt, append_assoc, List.getElem?_append_left (by simp; omega)]
  exact getElem?_resize hj

theorem getElem?_writeAt_of_mem (hi : i ≤ j) (hj : j < i + xs.length) :
    (writeAt z f i xs)[j]? = xs[j - i]? := by
  have hlen : (f.take i ++ List.replicate (i - f.length) z).length = i := length_resize
  rw [writeAt, List.getElem?_append_left (by simp; omega),
    List.getElem?_append_right (by omega), hlen]

theorem getElem?_writeAt_of_ge (hj : i + xs.length ≤ j) : (writeAt z f i xs)[j]? = f[j]? := by
  have hlen : (f.take i ++ List.replicate (i - f.length) z ++ xs).length = i + xs.length := by
    rw [length_append]
    exact congrArg (· + xs.length) length_resize
  rw [writeAt, List.getElem?_append_right (by omega), hlen, List.getElem?_drop]
  congr 1
  omega

theorem getD_writeAt (h : j < i ∨ i + xs.length ≤ j) :
    (writeAt z f i xs).getD j z = f.getD j z := by
  rcases h with h | h
  · rw [getD_eq_getElem?_getD, getElem?_writeAt_of_lt h, Option.getD_some]
  · rw [getD_eq_getElem?_getD, getElem?_writeAt_of_ge h, getD_eq_getElem?_getD]

/-! ## Files at the start of a buffer -/

open Buffer (slice store)

variable {b : ℕ → α} {m : ℕ}

theorem getD_slice_of_lt (h : j < m) : (slice b 0 m).getD j z = b j := Buffer.getD_slice h z

theorem getD_slice_of_ge (h : m ≤ j) : (slice b 0 m).getD j z = z :=
  by rw [List.getD, List.getElem?_eq_none (by simpa using h), Option.getD_none]

theorem readAt_slice : readAt z (slice b 0 m) i n =
    slice b i (min n (m - i)) ++ List.replicate (n - (m - i)) z := by
  apply ext_getElem?
  intro j
  by_cases hj : j < n
  · rw [getElem?_readAt hj, List.getElem?_append]
    by_cases hm : i + j < m
    · rw [if_pos (by simp; omega), getD_slice_of_lt hm, Buffer.getElem?_slice (by omega)]
    · rw [if_neg (by simp; omega), getD_slice_of_ge (by omega), List.getElem?_replicate,
        if_pos (by simp; omega)]
  · rw [List.getElem?_eq_none (by simp; omega), List.getElem?_eq_none (by simp; omega)]

/-- Taking more or fewer cells into the file sets its length, where the cells behind it
hold the filling. -/
theorem slice_eq_resize (h : ∀ j, m ≤ j → j < n → b j = z) :
    slice b 0 n = resize z (slice b 0 m) n := by
  apply ext_getElem?
  intro j
  by_cases hj : j < n
  · rw [getElem?_resize hj, Buffer.getElem?_slice hj, Nat.zero_add]
    by_cases hm : j < m
    · rw [getD_slice_of_lt hm]
    · rw [getD_slice_of_ge (by omega), h j (by omega) hj]
  · rw [List.getElem?_eq_none (by simp; omega), List.getElem?_eq_none (by simp; omega)]

/-- Copying into the buffer is writing the file, where the cells of the gap hold the
filling. -/
theorem slice_store_eq_writeAt (h : ∀ j, m ≤ j → j < i → b j = z) :
    slice (store b i xs) 0 (max m (i + xs.length)) = writeAt z (slice b 0 m) i xs := by
  apply ext_getElem?
  intro j
  by_cases hj : j < max m (i + xs.length)
  · rw [Buffer.getElem?_slice hj, Nat.zero_add]
    by_cases hi : j < i
    · rw [getElem?_writeAt_of_lt hi, Buffer.store_of_lt hi]
      by_cases hm : j < m
      · rw [getD_slice_of_lt hm]
      · rw [getD_slice_of_ge (by omega), h j (by omega) hi]
    · by_cases hx : j < i + xs.length
      · rw [getElem?_writeAt_of_mem (by omega) hx, Buffer.store_of_mem (by omega) hx,
          List.getElem?_eq_getElem (by omega)]
      · rw [getElem?_writeAt_of_ge (by omega), Buffer.store_of_ge (by omega),
          Buffer.getElem?_slice (by omega), Nat.zero_add]
  · rw [List.getElem?_eq_none (by simp; omega), List.getElem?_eq_none (by simp; omega)]

end Cleonos.ByteFile

namespace Cleonos.Descriptor

open List
open ByteFile (writeAt)

universe u v
variable {α : Type u}

/-- A descriptor of a file. -/
structure Handle (α : Type u) where
  content : List α
  pos : ℕ
  mayRead : Bool
  mayWrite : Bool
  append : Bool

/-- The descriptor behind an opening; one that appends begins at the end. -/
def openFile (old : Option (List α)) (create truncate mayRead mayWrite append : Bool) :
    Option (Handle α) :=
  match old with
  | some content =>
    let content := if truncate then [] else content
    some ⟨content, if append then content.length else 0, mayRead, mayWrite, append⟩
  | none => if create then some ⟨[], 0, mayRead, mayWrite, append⟩ else none

/-- A call on a descriptor. -/
inductive Call (α : Type u)
  | read (n : ℕ)
  | write (xs : List α)
  | lseek (offset whence : ℤ)
  | close

/-- Its answer; the last one is that there never is one. -/
inductive Answer (α : Type u)
  | items (xs : List α)
  | value (n : ℤ)
  | error
  | never

/-- The place that a seek starts from. -/
def base (d : Handle α) (whence : ℤ) : Option ℕ :=
  if whence = 0 then some 0
  else if whence = 1 then some d.pos
  else if whence = 2 then some d.content.length
  else none

def writePos (d : Handle α) : ℕ := if d.append then d.content.length else d.pos

/-- The answers to a call that does not close the descriptor.  A write may be refused. -/
inductive Does (z : α) : Handle α → Call α → Answer α → Handle α → Prop
  | read {d : Handle α} {n : ℕ} (h : d.mayRead = true) :
      Does z d (.read n) (.items ((d.content.drop d.pos).take n))
        { d with pos := d.pos + ((d.content.drop d.pos).take n).length }
  | readForbidden {d : Handle α} {n : ℕ} (h : d.mayRead = false) : Does z d (.read n) .error d
  | write {d : Handle α} {xs : List α} (h : d.mayWrite = true) (hne : xs ≠ []) :
      Does z d (.write xs) (.value xs.length)
        { d with
          content := writeAt z d.content (writePos d) xs
          pos := writePos d + xs.length }
  | writeNothing {d : Handle α} (h : d.mayWrite = true) : Does z d (.write []) (.value 0) d
  | writeRefused {d : Handle α} {xs : List α} : Does z d (.write xs) .error d
  | seek {d : Handle α} {offset whence : ℤ} {b pos : ℕ} (h : base d whence = some b)
      (hpos : (b : ℤ) + offset = pos) :
      Does z d (.lseek offset whence) (.value pos) { d with pos := pos }
  | seekBefore {d : Handle α} {offset whence : ℤ} {b : ℕ} (h : base d whence = some b)
      (hneg : (b : ℤ) + offset < 0) : Does z d (.lseek offset whence) .error d
  | seekUnknown {d : Handle α} {offset whence : ℤ} (h : base d whence = none) :
      Does z d (.lseek offset whence) .error d

/-- The answers to a sequence of calls, and the file on the disk before and after it.  A close that
succeeds is the last one, and leaves the content on the disk; one that fails may leave anything
there, and keeps the descriptor. -/
inductive Runs (z : α) : Handle α → Option (List α) → List (Call α × Answer α) →
    Option (List α) → Prop
  | nil {d : Handle α} {disk : Option (List α)} : Runs z d disk [] disk
  | call {d d' : Handle α} {disk disk' : Option (List α)} {c : Call α} {a : Answer α}
      {rest : List (Call α × Answer α)} (h : Does z d c a d') (hrest : Runs z d' disk rest disk') :
      Runs z d disk ((c, a) :: rest) disk'
  | closeFails {d : Handle α} {disk disk₁ disk' : Option (List α)}
      {rest : List (Call α × Answer α)} (hrest : Runs z d disk₁ rest disk') :
      Runs z d disk ((.close, .error) :: rest) disk'
  | closed {d : Handle α} {disk : Option (List α)} :
      Runs z d disk [(.close, .value 0)] (some d.content)

/-- An implementation: its states, and a call in some environment, which ends with the next state
if there is one, and changes the file on the disk. -/
structure Layer (α : Type u) (Env : Type v) where
  State : Type u
  step : State → Option (List α) → Call α → Env → Answer α × Option State × Option (List α)

variable {Env : Type v} {z : α}

/-- The answers of a layer to a sequence of calls, up to the end of the descriptor, and the file on
the disk. -/
def Layer.run (L : Layer α Env) : L.State → Option (List α) → List (Call α × Env) →
    List (Call α × Answer α) × Option (List α)
  | _, disk, [] => ([], disk)
  | s, disk, (c, e) :: calls =>
    match L.step s disk c e with
    | (a, none, disk) => ([(c, a)], disk)
    | (a, some s, disk) => ((c, a) :: (L.run s disk calls).1, (L.run s disk calls).2)

/-- A condition on the state in front of a call, for every call of a run. -/
def Layer.GoodRun (L : Layer α Env) (Good : L.State → Option (List α) → Call α → Env → Prop) :
    L.State → Option (List α) → List (Call α × Env) → Prop
  | _, _, [] => True
  | s, disk, (c, e) :: calls =>
    Good s disk c e ∧
      match L.step s disk c e with
      | (_, none, _) => True
      | (_, some s, disk) => L.GoodRun Good s disk calls

/-- What a step must be for the relation to be a simulation. -/
def Simulates (z : α) (L : Layer α Env) (Repr : L.State → Handle α → Prop)
    (disk : Option (List α)) (d : Handle α) (c : Call α) :
    Answer α × Option L.State × Option (List α) → Prop
  | (a, none, disk') => c = .close ∧ a = .value 0 ∧ disk' = some d.content
  | (a, some s, disk') =>
    (∃ d', Does z d c a d' ∧ disk' = disk ∧ Repr s d') ∨ (c = .close ∧ a = .error ∧ Repr s d)

theorem runs_of_simulates {L : Layer α Env} {Repr : L.State → Handle α → Prop}
    {Good : L.State → Option (List α) → Call α → Env → Prop}
    (hstep : ∀ s disk d c e, Repr s d → Good s disk c e →
      Simulates z L Repr disk d c (L.step s disk c e))
    {s : L.State} {disk : Option (List α)} {d : Handle α} {calls : List (Call α × Env)}
    (hrepr : Repr s d) (hgood : L.GoodRun Good s disk calls) :
    Runs z d disk (L.run s disk calls).1 (L.run s disk calls).2 := by
  induction calls generalizing s disk d with
  | nil => exact .nil
  | cons call calls ih =>
    obtain ⟨c, e⟩ := call
    obtain ⟨hgood, hrest⟩ := hgood
    have hsim := hstep s disk d c e hrepr hgood
    rw [Layer.run]
    rcases hs : L.step s disk c e with ⟨a, _ | s', disk'⟩
    · rw [hs] at hsim
      obtain ⟨rfl, rfl, rfl⟩ := hsim
      exact .closed
    · rw [hs] at hsim hrest
      rcases hsim with ⟨d', hdoes, rfl, hrepr'⟩ | ⟨rfl, rfl, hrepr'⟩
      · exact .call hdoes (ih hrepr' hrest)
      · exact .closeFails (ih hrepr' hrest)

end Cleonos.Descriptor
