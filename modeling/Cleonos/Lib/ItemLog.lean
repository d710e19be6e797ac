import Mathlib.Data.List.Basic

/-!
# Logs that are written item by item

A log is the lines of some items, appended one at a time.
-/

namespace Cleonos.ItemLog

open List Option

universe u v
variable {ι : Type u} {α : Type v} (line : ι → Option (List α)) (out : List ι → ι → Prop)
  (part : List ι → ι → List α)

def text (items : List ι) : List α := items.flatMap fun x => (line x).getD []

@[simp] theorem text_nil : text line [] = [] := rfl

@[simp] theorem text_append (xs ys : List ι) : text line (xs ++ ys) = text line xs ++ text line ys :=
  flatMap_append

@[simp] theorem text_cons (x : ι) (xs : List ι) :
    text line (x :: xs) = (line x).getD [] ++ text line xs := rfl

/-- Append the lines of some items behind the log of `front`: whether all of them get out,
and the log that is left. -/
def writeFrom [∀ front x, Decidable (out front x)] : List ι → List ι → Bool × List α
  | front, [] => (true, text line front)
  | front, x :: xs =>
    if out front x then writeFrom (front ++ [x]) xs else (false, text line front ++ part front x)

def write [∀ front x, Decidable (out front x)] (items : List ι) : Bool × List α :=
  writeFrom line out part [] items

/-- The lines of all items get out, behind those of `front`. -/
def AllOut (front items : List ι) : Prop :=
  ∀ before x after, items = before ++ x :: after → out (front ++ before) x

/-- The log has the line of every item. -/
def Complete (items : List ι) (log : List α) : Prop :=
  items ≠ [] ∧ (∀ x ∈ items, (line x).isSome = true) ∧ log = text line items

/-- A log that ends early is the old one, or what is missing is the end of no line. -/
def Spares (old : List α) (items : List ι) : Prop :=
  ∀ front x back, items = front ++ x :: back → AllOut out [] front → ¬ out front x →
    text line front ++ part front x = old ∨ (back = [] ∧ line x = some (part front x))

variable {line out part} {front items before after xs : List ι} {x : ι} {old : List α}

theorem allOut_nil : AllOut out front [] := by
  intro before x after h
  simp at h

theorem allOut_cons :
    AllOut out front (x :: xs) ↔ out front x ∧ AllOut out (front ++ [x]) xs := by
  constructor
  · intro h
    have hfirst := h [] x xs rfl
    rw [append_nil] at hfirst
    refine ⟨hfirst, fun before y after hxs => ?_⟩
    have hout := h (x :: before) y after (by rw [hxs, cons_append])
    rwa [append_assoc, singleton_append]
  · rintro ⟨hfirst, hrest⟩ before y after hxs
    cases before with
    | nil =>
      cases hxs
      rwa [append_nil]
    | cons z before =>
      rw [cons_append] at hxs
      cases hxs
      have hout := hrest before y after rfl
      rwa [append_assoc, singleton_append] at hout

theorem allOut_append {ys : List ι} :
    AllOut out front (xs ++ ys) ↔ AllOut out front xs ∧ AllOut out (front ++ xs) ys := by
  induction xs generalizing front with
  | nil =>
    rw [nil_append, append_nil]
    exact (and_iff_right allOut_nil).symm
  | cons x xs ih =>
    rw [cons_append, allOut_cons, allOut_cons, ih, and_assoc, append_assoc,
      singleton_append]

section Write

variable [∀ front x, Decidable (out front x)]

/-- All lines get out, or the log ends with a part of the first one that does not. -/
theorem writeFrom_cases (front items : List ι) :
    (AllOut out front items ∧ writeFrom line out part front items =
      (true, text line (front ++ items))) ∨
    ∃ before x after, items = before ++ x :: after ∧ AllOut out front before ∧
      ¬ out (front ++ before) x ∧ writeFrom line out part front items =
        (false, text line (front ++ before) ++ part (front ++ before) x) := by
  induction items generalizing front with
  | nil =>
    refine .inl ⟨allOut_nil, ?_⟩
    rw [append_nil]
    rfl
  | cons x xs ih =>
    rw [writeFrom]
    by_cases hx : out front x
    · rw [if_pos hx]
      obtain ⟨hall, hwrite⟩ | ⟨before, y, after, hxs, hbefore, hy, hwrite⟩ := ih (front ++ [x])
      · left
        refine ⟨allOut_cons.2 ⟨hx, hall⟩, ?_⟩
        rw [hwrite, append_assoc, singleton_append]
      · right
        refine ⟨x :: before, y, after, by rw [hxs, cons_append],
          allOut_cons.2 ⟨hx, hbefore⟩, ?_⟩
        rw [append_assoc, singleton_append] at hy hwrite
        exact ⟨hy, hwrite⟩
    · right
      refine ⟨[], x, xs, rfl, allOut_nil, ?_⟩
      rw [if_neg hx, append_nil]
      exact ⟨hx, rfl⟩

theorem writeFrom_append (front xs ys : List ι) :
    writeFrom line out part front (xs ++ ys) =
      if (writeFrom line out part front xs).1 = true then writeFrom line out part (front ++ xs) ys
      else writeFrom line out part front xs := by
  induction xs generalizing front with
  | nil => rw [nil_append, writeFrom, if_pos rfl, append_nil]
  | cons x xs ih =>
    rw [cons_append, writeFrom, writeFrom]
    by_cases hx : out front x
    · rw [if_pos hx, if_pos hx, ih, append_assoc, singleton_append]
    · rw [if_neg hx, if_neg hx]
      rfl

theorem writeFrom_of_stop (hbefore : AllOut out front before) (hx : ¬ out (front ++ before) x) :
    writeFrom line out part front (before ++ x :: after) =
      (false, text line (front ++ before) ++ part (front ++ before) x) := by
  induction before generalizing front with
  | nil =>
    rw [append_nil] at hx ⊢
    rw [nil_append, writeFrom, if_neg hx]
  | cons y before ih =>
    obtain ⟨hy, hrest⟩ := allOut_cons.1 hbefore
    rw [append_cons front y before] at hx ⊢
    rw [cons_append, writeFrom, if_pos hy]
    exact ih hrest hx

theorem write_of_stop (hbefore : AllOut out [] before) (hx : ¬ out before x) :
    write line out part (before ++ x :: after) =
      (false, text line before ++ part before x) :=
  writeFrom_of_stop hbefore hx

theorem write_of_allOut (h : AllOut out [] items) :
    write line out part items = (true, text line items) := by
  rcases @writeFrom_cases _ _ line out part _ [] items with
    ⟨-, hwrite⟩ | ⟨before, x, after, hitems, -, hx, -⟩
  · rw [write, hwrite, nil_append]
  · exact absurd (h before x after hitems) hx

theorem write_fst_iff : (write line out part items).1 = true ↔ AllOut out [] items := by
  constructor
  · intro h
    rcases @writeFrom_cases _ _ line out part _ [] items with
      ⟨hall, -⟩ | ⟨before, x, after, -, -, -, hwrite⟩
    · exact hall
    · rw [write, hwrite] at h
      cases h
  · intro h
    rw [write_of_allOut h]

/-- A log that ends at an item is complete just where that is the last one and its line got
out. -/
theorem complete_part_iff (hne : ∀ x, line x ≠ some [])
    (hpart : ∀ front x l, line x = some l → (part front x).length ≤ l.length)
    (hlines : ∀ y ∈ before, (line y).isSome = true) :
    Complete line (before ++ x :: after) (text line before ++ part before x) ↔
      after = [] ∧ line x = some (part before x) := by
  constructor
  · rintro ⟨-, hsome, hlog⟩
    have hx := hsome x (mem_append_right _ mem_cons_self)
    obtain ⟨l, hl⟩ := isSome_iff_exists.1 hx
    rw [text_append, text_cons, hl, getD_some] at hlog
    have htail := append_cancel_left hlog
    cases after with
    | nil =>
      rw [text_nil, append_nil] at htail
      exact ⟨rfl, by rw [hl, htail]⟩
    | cons y after =>
      have hy := hsome y (mem_append_right _ (by simp))
      obtain ⟨l', hl'⟩ := isSome_iff_exists.1 hy
      have hpos : l' ≠ [] := fun h => hne y (by rw [hl', h])
      have hlen := congrArg List.length htail
      have hle := hpart before x l hl
      rw [text_cons, hl', getD_some, length_append, length_append] at hlen
      have hzero := length_pos_iff.2 hpos
      omega
  · rintro ⟨rfl, hx⟩
    refine ⟨by simp, ?_, ?_⟩
    · intro y hy
      rcases mem_append.1 hy with hy | hy
      · exact hlines y hy
      · rw [mem_singleton.1 hy, hx]
        rfl
    · rw [text_append, text_cons, hx, getD_some, text_nil, append_nil]

theorem write_spares_iff (hne : ∀ x, line x ≠ some [])
    (hpart : ∀ front x l, line x = some l → (part front x).length ≤ l.length)
    (hout : ∀ front x, out front x → (line x).isSome = true) :
    ((write line out part items).1 = false → (write line out part items).2 = old ∨
      Complete line items (write line out part items).2) ↔ Spares line out part old items := by
  have hlines : ∀ {before : List ι}, AllOut out [] before → ∀ y ∈ before, (line y).isSome = true := by
    intro before hall y hy
    obtain ⟨f, b, hsplit⟩ := append_of_mem hy
    exact hout _ _ (hall f y b hsplit)
  constructor
  · intro h before x after hitems hbefore hx
    have hwrite : write line out part (before ++ x :: after) =
        (false, text line before ++ part before x) := write_of_stop hbefore hx
    rw [hitems, hwrite] at h
    rcases h rfl with hold | hcomplete
    · exact .inl hold
    · exact .inr ((complete_part_iff hne hpart (hlines hbefore)).1 hcomplete)
  · intro h hfalse
    rcases @writeFrom_cases _ _ line out part _ [] items with
      ⟨-, hwrite⟩ | ⟨before, x, after, hitems, hbefore, hx, hwrite⟩
    · rw [write, hwrite] at hfalse
      cases hfalse
    · rw [nil_append] at hx hwrite
      rw [write, hwrite]
      rcases h before x after hitems hbefore hx with hold | hlast
      · exact .inl hold
      · right
        rw [hitems]
        exact (complete_part_iff hne hpart (hlines hbefore)).2 hlast

end Write

end Cleonos.ItemLog
