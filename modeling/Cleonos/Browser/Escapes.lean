import Mathlib.Data.List.DropRight
import Mathlib.Tactic

/-!
# Escape sequences in a text

`ush_browser_ansi_csi_len` of `browser_output.c`, and the text as a sequence of items: escape
sequences, which take no column, and visible bytes.
-/

namespace Cleonos.Browser.Output

open List

/-! ## The source -/

/-- The last byte of an escape sequence. -/
def isFinal (ch : UInt8) : Bool := 0x40 ≤ ch && ch ≤ 0x7E

/-- `ush_browser_ansi_csi_len`, for the text from `pos` to `len`. -/
def ansiCsiLen (text : List UInt8) : Option ℕ :=
  if text.head? = some 27 ∧ text[1]? = some 91 then
    ((text.drop 2).findIdx? isFinal).map (· + 3)
  else none

/-- A visible byte, or an escape sequence. -/
inductive Item
  | visible (ch : UInt8)
  | escape (seq : List UInt8)
deriving DecidableEq, Repr

def Item.bytes : Item → List UInt8
  | visible ch => [ch]
  | escape seq => seq

def Item.isVisible : Item → Bool
  | visible _ => true
  | escape _ => false

def blank : Item := .visible 32

/-- The items in front of a text, one for each unit of fuel. -/
def items : ℕ → List UInt8 → List Item
  | 0, _ => []
  | fuel + 1, text =>
    match text with
    | [] => []
    | ch :: rest =>
      match ansiCsiLen (ch :: rest) with
      | some len => .escape ((ch :: rest).take len) :: items fuel ((ch :: rest).drop len)
      | none => .visible ch :: items fuel rest

def itemsOf (text : List UInt8) : List Item := items text.length text

def bytes (l : List Item) : List UInt8 := l.flatMap Item.bytes

/-- The columns that items take. -/
def width (l : List Item) : ℕ := l.countP Item.isVisible

variable {s t : List UInt8} {ch : UInt8} {len : ℕ} {l m : List Item}

@[simp] theorem bytes_nil : bytes [] = [] := rfl

@[simp] theorem bytes_cons {i : Item} : bytes (i :: l) = i.bytes ++ bytes l := rfl

@[simp] theorem bytes_append : bytes (l ++ m) = bytes l ++ bytes m := flatMap_append

@[simp] theorem width_nil : width [] = 0 := rfl

@[simp] theorem width_append : width (l ++ m) = width l + width m := countP_append

@[simp] theorem width_visible : width (.visible ch :: l) = width l + 1 :=
  countP_cons_of_pos rfl

@[simp] theorem width_escape : width (.escape s :: l) = width l :=
  countP_cons_of_neg (by simp [Item.isVisible])

theorem ansiCsiLen_eq_some_iff : ansiCsiLen s = some len ↔
    ∃ body last t, s = 27 :: 91 :: (body ++ last :: t) ∧ isFinal last = true ∧
      (∀ c ∈ body, isFinal c = false) ∧ len = body.length + 3 := by
  constructor
  · intro h
    rw [ansiCsiLen] at h
    split at h
    case isFalse => cases h
    case isTrue hfront =>
      match s, hfront with
      | a :: b :: s, hfront =>
        have ha : a = 27 := by simpa using hfront.1
        have hb : b = 91 := by simpa using hfront.2
        subst ha hb
        rw [Option.map_eq_some_iff] at h
        obtain ⟨i, hi, rfl⟩ := h
        rw [drop_succ_cons, drop_succ_cons, drop_zero,
          List.findIdx?_eq_some_iff_getElem] at hi
        obtain ⟨hlt, hlast, hbody⟩ := hi
        refine ⟨s.take i, s[i], s.drop (i + 1), ?_, hlast, ?_, ?_⟩
        · rw [getElem_cons_drop, take_append_drop]
        · intro c hc
          obtain ⟨j, hj, rfl⟩ := getElem_of_mem hc
          rw [length_take] at hj
          rw [getElem_take]
          exact Bool.eq_false_iff.2 (hbody j (by omega))
        · rw [length_take]
          omega
  · rintro ⟨body, last, t, rfl, hlast, hbody, rfl⟩
    rw [ansiCsiLen, if_pos ⟨rfl, rfl⟩, drop_succ_cons, drop_succ_cons, drop_zero,
      List.findIdx?_append, List.findIdx?_eq_none_iff.2 hbody, List.findIdx?_cons, if_pos hlast]
    simp

theorem ansiCsiLen_bounds (h : ansiCsiLen s = some len) : 3 ≤ len ∧ len ≤ s.length := by
  obtain ⟨body, last, t, rfl, -, -, rfl⟩ := ansiCsiLen_eq_some_iff.1 h
  simp only [length_cons, length_append]
  omega

theorem ansiCsiLen_append (h : len ≤ s.length) :
    ansiCsiLen (s ++ t) = some len ↔ ansiCsiLen s = some len := by
  rw [ansiCsiLen_eq_some_iff, ansiCsiLen_eq_some_iff]
  constructor
  · rintro ⟨body, last, u, heq, hlast, hbody, rfl⟩
    have hpre : 27 :: 91 :: (body ++ [last]) <+: s := by
      apply @prefix_of_prefix_length_le _ _ _ (s ++ t)
      · rw [heq]
        exact ⟨u, by simp⟩
      · exact prefix_append s t
      · rw [length_cons, length_cons, length_append, length_singleton]
        omega
    obtain ⟨v, rfl⟩ := hpre
    exact ⟨body, last, v, by simp, hlast, hbody, rfl⟩
  · rintro ⟨body, last, u, rfl, hlast, hbody, rfl⟩
    exact ⟨body, last, u ++ t, by simp, hlast, hbody, rfl⟩

theorem ansiCsiLen_front (h : ansiCsiLen (s ++ t) = none) : ansiCsiLen s = none := by
  cases hs : ansiCsiLen s with
  | none => rfl
  | some len =>
    rw [(ansiCsiLen_append (ansiCsiLen_bounds hs).2).2 hs] at h
    cases h

theorem ansiCsiLen_cons_of_ne (h : ch ≠ 27) : ansiCsiLen (ch :: s) = none := by
  rw [ansiCsiLen, if_neg]
  intro hfront
  exact h (by simpa using hfront.1)

theorem items_fuel (fuel fuel' : ℕ) (h : s.length ≤ fuel) (h' : s.length ≤ fuel') :
    items fuel s = items fuel' s := by
  induction fuel generalizing s fuel' with
  | zero =>
    rw [length_eq_zero_iff.1 (Nat.le_zero.1 h)]
    cases fuel' with
    | zero => rfl
    | succ fuel' => rfl
  | succ fuel ih =>
    cases s with
    | nil =>
      cases fuel' with
      | zero => rfl
      | succ fuel' => rfl
    | cons ch s =>
      rw [length_cons] at h h'
      obtain ⟨fuel', rfl⟩ := Nat.exists_eq_add_of_le' (Nat.one_le_of_lt h')
      rw [items, items]
      cases hlen : ansiCsiLen (ch :: s) with
      | none =>
        rw [ih fuel' (by omega) (by omega)]
      | some len =>
        have hbounds := ansiCsiLen_bounds hlen
        have hdrop : ((ch :: s).drop len).length ≤ s.length := by
          rw [length_drop, length_cons]
          omega
        dsimp only
        rw [ih fuel' (hdrop.trans (by omega)) (hdrop.trans (by omega))]

@[simp] theorem itemsOf_nil : itemsOf [] = [] := rfl

theorem itemsOf_visible (h : ansiCsiLen (ch :: s) = none) :
    itemsOf (ch :: s) = .visible ch :: itemsOf s := by
  rw [itemsOf, length_cons, items, h]
  rfl

theorem itemsOf_escape (h : ansiCsiLen s = some len) :
    itemsOf s = .escape (s.take len) :: itemsOf (s.drop len) := by
  have hbounds := ansiCsiLen_bounds h
  cases s with
  | nil => exact absurd hbounds.2 (by simp only [length_nil]; omega)
  | cons ch s =>
    rw [itemsOf, length_cons, items, h]
    dsimp only
    rw [itemsOf, items_fuel s.length ((ch :: s).drop len).length _ le_rfl]
    rw [length_drop, length_cons]
    omega

@[simp] theorem bytes_itemsOf (s : List UInt8) : bytes (itemsOf s) = s := by
  induction hn : s.length using Nat.strong_induction_on generalizing s with
  | _ n ih =>
    subst hn
    cases s with
    | nil => rfl
    | cons ch s =>
      cases hlen : ansiCsiLen (ch :: s) with
      | none =>
        rw [itemsOf_visible hlen, bytes_cons, ih s.length (Nat.lt_succ_self _) s rfl]
        rfl
      | some len =>
        have hbounds := ansiCsiLen_bounds hlen
        rw [itemsOf_escape hlen, bytes_cons, ih _ _ _ rfl]
        · exact take_append_drop len (ch :: s)
        · rw [length_drop]
          omega

theorem itemsOf_eq_visible (h : itemsOf s = .visible ch :: m) :
    ansiCsiLen s = none ∧ s = ch :: bytes m ∧ itemsOf (bytes m) = m := by
  cases s with
  | nil => cases h
  | cons c s =>
    cases hlen : ansiCsiLen (c :: s) with
    | none =>
      rw [itemsOf_visible hlen] at h
      cases h
      rw [bytes_itemsOf]
      exact ⟨rfl, rfl, rfl⟩
    | some len =>
      rw [itemsOf_escape hlen] at h
      cases h

theorem itemsOf_eq_escape (h : itemsOf s = .escape t :: m) :
    ansiCsiLen s = some t.length ∧ s = t ++ bytes m ∧ itemsOf (bytes m) = m := by
  cases hlen : ansiCsiLen s with
  | none =>
    cases s with
    | nil => cases h
    | cons c s =>
      rw [itemsOf_visible hlen] at h
      cases h
  | some len =>
    have hbounds := ansiCsiLen_bounds hlen
    rw [itemsOf_escape hlen] at h
    cases h
    rw [bytes_itemsOf, take_append_drop, length_take, Nat.min_eq_left hbounds.2]
    exact ⟨rfl, rfl, rfl⟩

theorem itemsOf_cut (h : itemsOf s = l ++ m) : itemsOf (bytes l) = l ∧ itemsOf (bytes m) = m := by
  have hs : s = bytes l ++ bytes m := by
    rw [← bytes_append, ← h, bytes_itemsOf]
  subst hs
  induction l with
  | nil =>
    rw [bytes_nil, nil_append] at h
    exact ⟨rfl, h⟩
  | cons i l ih =>
    rw [cons_append] at h
    cases i with
    | visible ch =>
      obtain ⟨hnone, -, hrest⟩ := itemsOf_eq_visible h
      rw [bytes_append] at hrest
      obtain ⟨hl, hm⟩ := ih hrest
      have hfront : ansiCsiLen (ch :: bytes l) = none := ansiCsiLen_front hnone
      rw [bytes_cons, Item.bytes, singleton_append, itemsOf_visible hfront]
      exact ⟨congrArg _ hl, hm⟩
    | escape seq =>
      obtain ⟨hsome, -, hrest⟩ := itemsOf_eq_escape h
      rw [bytes_append] at hrest
      obtain ⟨hl, hm⟩ := ih hrest
      rw [bytes_cons, Item.bytes] at hsome ⊢
      have hfront : ansiCsiLen (seq ++ bytes l) = some seq.length :=
        (ansiCsiLen_append (by simp)).1 hsome
      rw [itemsOf_escape hfront, take_left, drop_left]
      exact ⟨congrArg _ hl, hm⟩

theorem bytes_length_pos (h : itemsOf s = l ++ m) (hl : l ≠ []) : 0 < (bytes l).length := by
  rw [length_pos_iff]
  intro hnil
  have hcut := (itemsOf_cut h).1
  rw [hnil] at hcut
  exact hl hcut.symm

theorem length_itemsOf_le (s : List UInt8) : (itemsOf s).length ≤ s.length := by
  generalize h : itemsOf s = l
  induction l generalizing s with
  | nil => exact Nat.zero_le _
  | cons i l ih =>
    have hs : s = bytes [i] ++ bytes l := by
      rw [← bytes_append, singleton_append, ← h, bytes_itemsOf]
    rw [← singleton_append] at h
    have hpos := bytes_length_pos h (cons_ne_nil i [])
    have hle := ih (bytes l) (itemsOf_cut h).2
    rw [hs, length_cons, length_append]
    omega

theorem bytes_ne_blank {i : Item} (h : itemsOf s = i :: m) (hi : i ≠ blank) :
    ∃ ch t, s = ch :: t ∧ ch ≠ 32 := by
  cases i with
  | visible ch =>
    obtain ⟨-, hs, -⟩ := itemsOf_eq_visible h
    refine ⟨ch, bytes m, hs, ?_⟩
    rintro rfl
    exact hi rfl
  | escape seq =>
    obtain ⟨hsome, -, -⟩ := itemsOf_eq_escape h
    obtain ⟨body, last, t, hs, -, -, -⟩ := ansiCsiLen_eq_some_iff.1 hsome
    exact ⟨27, _, hs, by decide⟩

theorem bytes_last_ne_blank {i : Item} (h : itemsOf s = i :: m) (hi : i ≠ blank) :
    ∃ t ch, i.bytes = t ++ [ch] ∧ ch ≠ 32 := by
  cases i with
  | visible ch =>
    refine ⟨[], ch, rfl, ?_⟩
    rintro rfl
    exact hi rfl
  | escape seq =>
    obtain ⟨hsome, hs, -⟩ := itemsOf_eq_escape h
    rw [hs, ansiCsiLen_append le_rfl] at hsome
    obtain ⟨body, last, t, hseq, hlast, -, hlen⟩ := ansiCsiLen_eq_some_iff.1 hsome
    have ht : t = [] := by
      rw [hseq] at hlen
      simp only [length_cons, length_append] at hlen
      exact length_eq_zero_iff.1 (by omega)
    refine ⟨27 :: 91 :: body, last, by rw [Item.bytes, hseq, ht]; rfl, ?_⟩
    rintro rfl
    cases hlast

theorem exists_trim (h : itemsOf (bytes l) = l) : ∃ front k,
    l = front ++ List.replicate k blank ∧ front.getLast? ≠ some blank ∧
      (bytes l).rdropWhile (· == 32) = bytes front := by
  induction l using List.reverseRecOn with
  | nil => exact ⟨[], 0, rfl, by simp, rfl⟩
  | append_singleton l i ih =>
    obtain ⟨hl, hi⟩ := itemsOf_cut h
    by_cases hblank : i = blank
    · obtain ⟨front, k, hsplit, hlast, htrim⟩ := ih hl
      refine ⟨front, k + 1, ?_, hlast, ?_⟩
      · rw [hblank, replicate_succ', ← append_assoc, ← hsplit]
      · have hbytes : bytes (l ++ [i]) = bytes l ++ [32] := by
          rw [hblank, bytes_append]
          rfl
        rw [hbytes, rdropWhile_concat_pos _ _ _ (by decide)]
        exact htrim
    · obtain ⟨t, ch, hbytes, hch⟩ := bytes_last_ne_blank hi hblank
      refine ⟨l ++ [i], 0, (append_nil _).symm, by simpa using hblank, ?_⟩
      rw [bytes_append, bytes_cons, bytes_nil, append_nil, hbytes, ← append_assoc,
        rdropWhile_concat_neg _ _ _ (by simpa using hch)]

theorem itemsOf_blank (s : List UInt8) : itemsOf (32 :: s) = blank :: itemsOf s :=
  itemsOf_visible (ansiCsiLen_cons_of_ne (by decide))

theorem itemsOf_blanks (k : ℕ) (s : List UInt8) :
    itemsOf (List.replicate k 32 ++ s) = List.replicate k blank ++ itemsOf s := by
  induction k with
  | zero => rfl
  | succ k ih =>
    rw [replicate_succ, cons_append, itemsOf_blank, ih]
    rfl

theorem bytes_blanks (k : ℕ) : bytes (List.replicate k blank) = List.replicate k 32 := by
  induction k with
  | zero => rfl
  | succ k ih =>
    rw [replicate_succ, bytes_cons, ih]
    rfl

end Cleonos.Browser.Output
