import Cleonos.Lib.Insertion
import Cleonos.Lib.Buffer

/-!
# qsort of the ports

`qsort` of `bdt_cleonos_compat.c` and of `tcc_cleonos_compat.c`: passes over neighbours, until one
of them swaps nothing.
-/

namespace Cleonos.Compat

open List
open Buffer (slice)
open Bubble (Exchange Preordered alike inversions)

/-! ## The source -/

/-- What a `qsort` compares. -/
abbrev Compar : Type := List UInt8 → List UInt8 → ℤ

/-- A pointer, or a `size_t`. -/
def word (n : ℕ) : ℕ := n % 2 ^ 64

def swapBytes (mem : ℕ → UInt8) (a b : ℕ) : ℕ → UInt8 :=
  Function.update (Function.update mem a (mem b)) b (mem a)

def tccQsortSwap : ℕ → ℕ → ℕ → (ℕ → UInt8) → ℕ → UInt8
  | _, _, 0, mem => mem
  | a, b, size + 1, mem => tccQsortSwap (a + 1) (b + 1) size (swapBytes mem a b)

/-- The loop over `j` in `qsort` of `bdt_cleonos_compat.c`, with the rounds that are left. -/
def bdtSwapLoop (left right : ℕ) : ℕ → ℕ → (ℕ → UInt8) → ℕ → UInt8
  | 0, _, mem => mem
  | n + 1, j, mem => bdtSwapLoop left right n (j + 1) (swapBytes mem (left + j) (right + j))

/-- The two layers. -/
inductive Shim
  | bdt
  | tcc
deriving DecidableEq, Repr

/-- How a layer swaps two elements. -/
def Shim.swap : Shim → ℕ → ℕ → ℕ → (ℕ → UInt8) → ℕ → UInt8
  | .bdt, left, right, size, mem => bdtSwapLoop left right size 0 mem
  | .tcc, left, right, size, mem => tccQsortSwap left right size mem

/-- The loop over `i`, with the rounds that are left; whether anything was swapped. -/
def passLoop (shim : Shim) (compar : Compar) (base size : ℕ) :
    ℕ → ℕ → (ℕ → UInt8) → Bool → (ℕ → UInt8) × Bool
  | 0, _, mem, changed => (mem, changed)
  | n + 1, i, mem, changed =>
    let left := word (base + (i - 1) * size)
    let right := word (base + i * size)
    if compar (slice mem left size) (slice mem right size) > 0 then
      passLoop shim compar base size n (i + 1) (shim.swap left right size mem) true
    else passLoop shim compar base size n (i + 1) mem changed

/-- The loop over the passes. -/
def sortLoop (shim : Shim) (compar : Compar) (base nmemb size : ℕ) :
    ℕ → (ℕ → UInt8) → Option (ℕ → UInt8)
  | 0, _ => none
  | fuel + 1, mem =>
    let r := passLoop shim compar base size (nmemb - 1) 1 mem false
    if r.2 then sortLoop shim compar base nmemb size fuel r.1 else some r.1

/-- `qsort`; a comparator of `none` and a base of 0 are null pointers. -/
def qsort (shim : Shim) (fuel : ℕ) (mem : ℕ → UInt8) (base nmemb size : ℕ)
    (compar : Option Compar) : Option (ℕ → UInt8) :=
  match compar with
  | none => some mem
  | some compar =>
    if base = 0 ∨ size = 0 then some mem else sortLoop shim compar base nmemb size fuel mem

/-- The elements of an array. -/
def elements (mem : ℕ → UInt8) (size : ℕ) : ℕ → ℕ → List (List UInt8)
  | _, 0 => []
  | base, n + 1 => slice mem base size :: elements mem size (base + size) n

/-- An array that is somewhere in memory. -/
structure ArrayAt (base nmemb size : ℕ) : Prop where
  ne_null : base ≠ 0
  fits : base + nmemb * size ≤ 2 ^ 64

/-- On elements of a size, not to be greater is a total preorder. -/
structure TotalPreorder (compar : Compar) (size : ℕ) : Prop where
  total : ∀ x y : List UInt8, x.length = size → y.length = size → compar x y ≤ 0 ∨ compar y x ≤ 0
  trans : ∀ x y z : List UInt8, x.length = size → y.length = size → z.length = size →
    compar x y ≤ 0 → compar y z ≤ 0 → compar x z ≤ 0

/-- Neither of two elements is greater. -/
def Compar.same (compar : Compar) (x y : List UInt8) : Bool :=
  decide (compar x y ≤ 0) && decide (compar y x ≤ 0)

/-- The comparator moves an element behind another one. -/
def Compar.after (compar : Compar) (x y : List UInt8) : Bool := decide (compar x y > 0)

variable {mem mem' : ℕ → UInt8} {base nmemb size : ℕ} {compar : Compar} {shim : Shim}

theorem Compar.after_eq_false {x y : List UInt8} : compar.after x y = false ↔ compar x y ≤ 0 := by
  rw [Compar.after, decide_eq_false_iff_not]
  exact Int.not_lt

theorem Compar.alike_after (x y : List UInt8) : alike compar.after x y = compar.same x y := by
  have hnot (z : ℤ) : (!decide (z > 0)) = decide (z ≤ 0) := by
    rw [← decide_not]
    exact decide_eq_decide.2 Int.not_lt
  rw [alike, Compar.after, Compar.after, Compar.same, hnot, hnot]

theorem TotalPreorder.preordered (h : TotalPreorder compar size) :
    Preordered compar.after fun x => x.length = size := by
  constructor
  · intro x y hx hy
    rw [Compar.after_eq_false, Compar.after_eq_false]
    exact h.total x y hx hy
  · intro x y z hx hy hz hxy hyz
    rw [Compar.after_eq_false] at hxy hyz ⊢
    exact h.trans x y z hx hy hz hxy hyz

@[simp] theorem length_elements (mem : ℕ → UInt8) (size base n : ℕ) :
    (elements mem size base n).length = n := by
  induction n generalizing base with
  | zero => rfl
  | succ n ih => rw [elements, length_cons, ih]

theorem length_of_mem_elements {x : List UInt8} {n : ℕ} (h : x ∈ elements mem size base n) :
    x.length = size := by
  induction n generalizing base with
  | zero => cases h
  | succ n ih =>
    rw [elements, mem_cons] at h
    rcases h with rfl | h
    · exact Buffer.length_slice mem base size
    · exact ih h

theorem elements_congr {n : ℕ} (h : ∀ j, base ≤ j → j < base + n * size → mem' j = mem j) :
    elements mem' size base n = elements mem size base n := by
  induction n generalizing base with
  | zero => rfl
  | succ n ih =>
    have hlen : (n + 1) * size = n * size + size := Nat.succ_mul n size
    have hhead : slice mem' base size = slice mem base size :=
      Buffer.slice_congr fun j hj hj' => h j hj (by omega)
    rw [elements, elements, hhead, ih]
    intro j hj hj'
    exact h j (by omega) (by omega)

theorem elements_add (mem : ℕ → UInt8) (size base p q : ℕ) :
    elements mem size base (p + q) =
      elements mem size base p ++ elements mem size (base + p * size) q := by
  induction p generalizing base with
  | zero => rw [Nat.zero_add, Nat.zero_mul, Nat.add_zero, elements, nil_append]
  | succ p ih =>
    have hbase : base + (p + 1) * size = base + size + p * size := by
      rw [Nat.succ_mul]
      omega
    rw [Nat.succ_add, elements, elements, ih, hbase, cons_append]

theorem elements_split (mem : ℕ → UInt8) (size base p q : ℕ) :
    elements mem size base (p + (q + 2)) =
      elements mem size base p ++ slice mem (base + p * size) size ::
        slice mem (base + p * size + size) size ::
          elements mem size (base + p * size + size + size) q := by
  rw [elements_add, elements, elements]

/-- Two blocks of memory that have changed places. -/
def exchanged (mem : ℕ → UInt8) (left right size : ℕ) : ℕ → UInt8 := fun j =>
  if left ≤ j ∧ j < left + size then mem (right + (j - left))
  else if right ≤ j ∧ j < right + size then mem (left + (j - right))
  else mem j

theorem tccQsortSwap_eq {left right : ℕ} (mem : ℕ → UInt8) (size : ℕ) (h : left + size ≤ right) :
    tccQsortSwap left right size mem = exchanged mem left right size := by
  induction size generalizing left right mem with
  | zero =>
    funext j
    rw [tccQsortSwap, exchanged, if_neg (by omega), if_neg (by omega)]
  | succ size ih =>
    rw [tccQsortSwap, ih (swapBytes mem left right) (by omega)]
    funext j
    simp only [exchanged, swapBytes, Function.update_apply]
    -- the first byte of a block, another one, or one outside the blocks
    grind

theorem bdtSwapLoop_eq (left right n j : ℕ) (mem : ℕ → UInt8) :
    bdtSwapLoop left right n j mem = tccQsortSwap (left + j) (right + j) n mem := by
  induction n generalizing j mem with
  | zero => rfl
  | succ n ih => rw [bdtSwapLoop, tccQsortSwap, ih, Nat.add_assoc, Nat.add_assoc]

theorem Shim.swap_eq {left right : ℕ} (shim : Shim) (h : left + size ≤ right) :
    shim.swap left right size mem = exchanged mem left right size := by
  cases shim with
  | bdt => rw [Shim.swap, bdtSwapLoop_eq, Nat.add_zero, Nat.add_zero, tccQsortSwap_eq mem size h]
  | tcc => exact tccQsortSwap_eq mem size h

theorem elements_exchanged (mem : ℕ → UInt8) (size base p q : ℕ) :
    elements (exchanged mem (base + p * size) (base + p * size + size) size) size base
        (p + (q + 2)) =
      elements mem size base p ++ slice mem (base + p * size + size) size ::
        slice mem (base + p * size) size ::
          elements mem size (base + p * size + size + size) q := by
  rw [elements_split]
  generalize hleft : base + p * size = left
  have hfront : elements (exchanged mem left (left + size) size) size base p =
      elements mem size base p := by
    apply elements_congr
    intro j hj hj'
    rw [exchanged, if_neg (by omega), if_neg (by omega)]
  have hback : elements (exchanged mem left (left + size) size) size (left + size + size) q =
      elements mem size (left + size + size) q := by
    apply elements_congr
    intro j hj hj'
    rw [exchanged, if_neg (by omega), if_neg (by omega)]
  have hfirst : slice (exchanged mem left (left + size) size) left size =
      slice mem (left + size) size := by
    apply Buffer.slice_shift
    intro j hj
    rw [exchanged, if_pos (by omega), Nat.add_sub_cancel_left]
  have hsecond : slice (exchanged mem left (left + size) size) (left + size) size =
      slice mem left size := by
    apply Buffer.slice_shift
    intro j hj
    rw [exchanged, if_neg (by omega), if_pos (by omega), Nat.add_sub_cancel_left]
  rw [hfront, hback, hfirst, hsecond]

theorem ArrayAt.word_eq (h : ArrayAt base nmemb size) (hsize : 0 < size) {i : ℕ} (hi : i < nmemb) :
    word (base + i * size) = base + i * size := by
  have hfits := h.fits
  have hlt : i * size < nmemb * size := Nat.mul_lt_mul_of_pos_right hi hsize
  exact Nat.mod_eq_of_lt (by omega)

theorem exchange_round (shim : Shim) {i : ℕ} (hi : 0 < i) (hin : i < nmemb)
    (h : compar (slice mem (base + (i - 1) * size) size) (slice mem (base + i * size) size) > 0) :
    Exchange compar.after (elements mem size base nmemb)
      (elements (shim.swap (base + (i - 1) * size) (base + i * size) size mem) size base
        nmemb) := by
  obtain ⟨p, rfl⟩ := Nat.exists_eq_add_of_lt hi
  obtain ⟨q, rfl⟩ := Nat.exists_eq_add_of_lt hin
  have hp : 0 + p + 1 - 1 = p := by omega
  have hright : base + (0 + p + 1) * size = base + p * size + size := by
    rw [Nat.zero_add, Nat.succ_mul, Nat.add_assoc]
  have hcount : 0 + p + 1 + q + 1 = p + (q + 2) := by omega
  rw [hp, hright] at h ⊢
  rw [shim.swap_eq le_rfl, hcount, elements_split, elements_exchanged]
  exact Exchange.swap _ _ (decide_eq_true h)

theorem passLoop_cases (shim : Shim) (compar : Compar) (harray : ArrayAt base nmemb size)
    (hsize : 0 < size) (n i : ℕ) (hi : 0 < i) (hn : i + n = max i nmemb) (mem : ℕ → UInt8) (changed : Bool) :
    (passLoop shim compar base size n i mem changed = (mem, changed) ∧
      ∀ k, i ≤ k → k < nmemb → compar (slice mem (base + (k - 1) * size) size)
        (slice mem (base + k * size) size) ≤ 0) ∨
    ((passLoop shim compar base size n i mem changed).2 = true ∧
      Relation.TransGen (Exchange compar.after) (elements mem size base nmemb)
        (elements (passLoop shim compar base size n i mem changed).1 size base nmemb)) := by
  induction n generalizing i mem changed with
  | zero =>
    left
    exact ⟨rfl, fun k hk hk' => by omega⟩
  | succ n ih =>
    have hin : i < nmemb := by omega
    have hleft := harray.word_eq hsize (show i - 1 < nmemb by omega)
    have hright := harray.word_eq hsize hin
    have hnext : i + 1 + n = max (i + 1) nmemb := by omega
    rw [passLoop, hleft, hright]
    by_cases h : compar (slice mem (base + (i - 1) * size) size)
        (slice mem (base + i * size) size) > 0
    · rw [if_pos h]
      right
      have hstep := exchange_round shim hi hin h
      rcases ih (i + 1) (Nat.succ_pos i) hnext _ true with ⟨heq, -⟩ | ⟨htrue, hrun⟩
      · rw [heq]
        exact ⟨rfl, Relation.TransGen.single hstep⟩
      · exact ⟨htrue, Relation.TransGen.head hstep hrun⟩
    · rw [if_neg h]
      rcases ih (i + 1) (Nat.succ_pos i) hnext mem changed with ⟨heq, hrest⟩ | hrun
      · left
        refine ⟨heq, ?_⟩
        intro k hk hk'
        rcases Nat.eq_or_lt_of_le hk with rfl | hlt
        · exact Int.not_lt.1 h
        · exact hrest k hlt hk'
      · exact .inr hrun

theorem passLoop_outside (harray : ArrayAt base nmemb size) (hsize : 0 < size) {j : ℕ}
    (hj : j < base ∨ base + nmemb * size ≤ j) (n i : ℕ) (hi : 0 < i) (hn : i + n = max i nmemb)
    (mem : ℕ → UInt8) (changed : Bool) :
    (passLoop shim compar base size n i mem changed).1 j = mem j := by
  induction n generalizing i mem changed with
  | zero => rfl
  | succ n ih =>
    have hin : i < nmemb := by omega
    have hleft := harray.word_eq hsize (show i - 1 < nmemb by omega)
    have hright := harray.word_eq hsize hin
    have hnext : i + 1 + n = max (i + 1) nmemb := by omega
    have hend : (i + 1) * size ≤ nmemb * size := Nat.mul_le_mul_right size hin
    have hstart : i * size = (i - 1) * size + size := by
      rw [← Nat.succ_mul]
      congr 1
      omega
    rw [passLoop, hleft, hright]
    split
    · rw [ih (i + 1) (Nat.succ_pos i) hnext, shim.swap_eq (by omega), exchanged]
      rw [Nat.succ_mul] at hend
      rw [if_neg (by omega), if_neg (by omega)]
    · exact ih (i + 1) (Nat.succ_pos i) hnext mem changed

theorem isChain_elements {R : List UInt8 → List UInt8 → Prop} (mem : ℕ → UInt8) (size base n : ℕ)
    (h : ∀ k, 0 < k → k < n →
      R (slice mem (base + (k - 1) * size) size) (slice mem (base + k * size) size)) :
    (elements mem size base n).IsChain R := by
  induction n generalizing base with
  | zero => exact List.IsChain.nil
  | succ n ih =>
    cases n with
    | zero => exact List.IsChain.singleton _
    | succ n =>
      rw [elements, elements, isChain_cons_cons, ← elements]
      constructor
      · have hfirst := h 1 Nat.one_pos (by omega)
        rw [Nat.sub_self, Nat.zero_mul, Nat.add_zero, Nat.one_mul] at hfirst
        exact hfirst
      · apply ih
        intro k hk hkn
        have hnext := h (k + 1) (Nat.succ_pos k) (by omega)
        have hright : base + (k + 1) * size = base + size + k * size := by
          rw [Nat.succ_mul]
          omega
        have hleft : base + k * size = base + size + (k - 1) * size := by
          obtain ⟨m, rfl⟩ := Nat.exists_eq_add_of_lt hk
          rw [Nat.zero_add, Nat.succ_mul, Nat.add_sub_cancel]
          omega
        rw [Nat.add_sub_cancel, hleft, hright] at hnext
        exact hnext

theorem sortLoop_spec (shim : Shim) (hcompar : TotalPreorder compar size)
    (harray : ArrayAt base nmemb size) (hsize : 0 < size) (mem : ℕ → UInt8) : ∃ mem',
      (∀ fuel > inversions compar.after (elements mem size base nmemb),
        sortLoop shim compar base nmemb size fuel mem = some mem') ∧
      Relation.ReflTransGen (Exchange compar.after) (elements mem size base nmemb)
        (elements mem' size base nmemb) ∧
      (elements mem' size base nmemb).IsChain (fun x y => compar.after x y = false) ∧
      ∀ j, j < base ∨ base + nmemb * size ≤ j → mem' j = mem j := by
  induction hm : inversions compar.after (elements mem size base nmemb)
    using Nat.strong_induction_on generalizing mem with
  | _ m ih =>
    have hn : 1 + (nmemb - 1) = max 1 nmemb := by omega
    rcases passLoop_cases shim compar harray hsize (nmemb - 1) 1 Nat.one_pos hn mem
      false with ⟨heq, hsettled⟩ | ⟨htrue, hrun⟩
    · refine ⟨mem, ?_, Relation.ReflTransGen.refl, ?_, fun _ _ => rfl⟩
      · intro fuel hfuel
        obtain ⟨f, rfl⟩ := Nat.exists_eq_add_of_lt hfuel
        rw [sortLoop, heq]
        rfl
      · apply isChain_elements
        intro k hk hkn
        rw [Compar.after_eq_false]
        exact hsettled k hk hkn
    · -- the pass has swapped something, so that fewer inversions are left
      set r := passLoop shim compar base size (nmemb - 1) 1 mem false with hr
      have hlt : inversions compar.after (elements r.1 size base nmemb) < m := by
        rw [← hm]
        obtain ⟨b, hfirst, hrest⟩ := Relation.TransGen.head'_iff.1 hrun
        have hsizes : ∀ x ∈ elements mem size base nmemb, x.length = size :=
          fun x hx => length_of_mem_elements hx
        have hsizes' : ∀ x ∈ b, x.length = size := fun x hx => hsizes x (hfirst.perm.mem_iff.1 hx)
        exact Nat.lt_of_le_of_lt
          (Bubble.keeps_of_exchanges hcompar.preordered hsizes' hrest).2.1
          (Bubble.inversions_exchange hcompar.preordered hsizes hfirst)
      obtain ⟨mem', hfuel', hrun', hchain, hout⟩ := ih _ hlt r.1 rfl
      refine ⟨mem', ?_, hrun.to_reflTransGen.trans hrun', hchain, ?_⟩
      · intro fuel hfuel
        obtain ⟨f, rfl⟩ := Nat.exists_eq_add_of_lt hfuel
        rw [sortLoop, ← hr, if_pos htrue]
        exact hfuel' _ (by omega)
      · intro j hj
        rw [hout j hj, hr]
        exact passLoop_outside harray hsize hj (nmemb - 1) 1 Nat.one_pos hn mem false

theorem pairwise_elements_zero (hcompar : TotalPreorder compar 0) (mem : ℕ → UInt8) (base n : ℕ) :
    (elements mem 0 base n).Pairwise fun x y => compar x y ≤ 0 := by
  apply pairwise_of_forall_mem_list
  intro x hx y hy
  rw [length_eq_zero_iff.1 (length_of_mem_elements hx),
    length_eq_zero_iff.1 (length_of_mem_elements hy)]
  exact or_self_iff.1 (hcompar.total [] [] rfl rfl)

/-- `qsort` of either layer ends, with the same elements in order; those that are equal keep theirs,
and memory outside the array is as before. -/
theorem qsort_sorts (hcompar : TotalPreorder compar size) (harray : ArrayAt base nmemb size)
    (shim : Shim) (mem : ℕ → UInt8) : ∃ mem',
      (∀ fuel > nmemb * nmemb, qsort shim fuel mem base nmemb size (some compar) = some mem') ∧
      (elements mem' size base nmemb).Perm (elements mem size base nmemb) ∧
      (elements mem' size base nmemb).Pairwise (fun x y => compar x y ≤ 0) ∧
      (∀ x : List UInt8, x.length = size → (elements mem' size base nmemb).filter (compar.same x) =
        (elements mem size base nmemb).filter (compar.same x)) ∧
      ∀ j, j < base ∨ base + nmemb * size ≤ j → mem' j = mem j := by
  rcases Nat.eq_zero_or_pos size with rfl | hsize
  · refine ⟨mem, ?_, List.Perm.refl _, pairwise_elements_zero hcompar mem base nmemb,
      fun _ _ => rfl, fun _ _ => rfl⟩
    intro fuel _
    exact if_pos (.inr rfl)
  · obtain ⟨mem', hloop, hrun, hchain, hout⟩ := sortLoop_spec shim hcompar harray hsize mem
    have hsizes : ∀ x ∈ elements mem size base nmemb, x.length = size :=
      fun x hx => length_of_mem_elements hx
    obtain ⟨hperm, -, hfilter⟩ := Bubble.keeps_of_exchanges hcompar.preordered hsizes hrun
    have hbound := Bubble.inversions_le compar.after (elements mem size base nmemb)
    rw [length_elements] at hbound
    refine ⟨mem', ?_, hperm, ?_, ?_, hout⟩
    · intro fuel hfuel
      have hbase : ¬ (base = 0 ∨ size = 0) := by
        rw [not_or]
        exact ⟨harray.ne_null, Nat.ne_of_gt hsize⟩
      rw [qsort, if_neg hbase]
      exact hloop fuel (Nat.lt_of_le_of_lt hbound hfuel)
    · have hsorted := Bubble.pairwise_of_settled hcompar.preordered
        (fun x hx => length_of_mem_elements hx) hchain
      exact hsorted.imp fun hxy => Compar.after_eq_false.1 hxy
    · intro x hx
      have hsame : alike compar.after x = compar.same x := funext fun y => Compar.alike_after x y
      rw [← hsame]
      exact hfilter x hx

/-- The difference of the first bytes. -/
def firstByte : Compar := fun x y => (x.headD 0).toNat - (y.headD 0).toNat

/-- Three bytes at address 16. -/
def threeBytes : ℕ → UInt8 := fun j => if j = 16 then 3 else if j = 17 then 1 else 2

theorem qsort_three_bytes : ∃ mem',
    (∀ fuel > 3 * 3, qsort .bdt fuel threeBytes 16 3 1 (some firstByte) = some mem') ∧
      (elements mem' 1 16 3).Perm [[3], [1], [2]] ∧
      (elements mem' 1 16 3).Pairwise fun x y => firstByte x y ≤ 0 := by
  have hpre : TotalPreorder firstByte 1 := by
    constructor
    · intro x y _ _
      simp only [firstByte]
      omega
    · intro x y z _ _ _
      simp only [firstByte]
      omega
  have harray : ArrayAt 16 3 1 := ⟨by decide, by decide⟩
  obtain ⟨mem', hend, hperm, hsorted, -⟩ := qsort_sorts hpre harray .bdt threeBytes
  exact ⟨mem', hend, hperm, hsorted⟩

end Cleonos.Compat
