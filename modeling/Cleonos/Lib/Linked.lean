import Mathlib.Data.List.Basic

/-!
# Doubly linked lists laid over a memory

The `next` and `prev` fields of a node are functions of its address.
-/

namespace Cleonos

open List

universe u
variable {α : Type u}

/-- The addresses `as` are doubly linked: the first points back to `p`, the last
on to `n`. -/
def Linked (next prev : α → α) : α → List α → α → Prop
  | _, [], _ => True
  | p, a :: as, n => prev a = p ∧ next a = as.headD n ∧ Linked next prev a as n

namespace Linked

open List

variable {next prev next' prev' : α → α} {p n : α}

@[simp] theorem nil_iff : Linked next prev p [] n ↔ True := Iff.rfl

variable {a : α}

@[simp] theorem cons_iff {as : List α} : Linked next prev p (a :: as) n ↔
      prev a = p ∧ next a = as.headD n ∧ Linked next prev a as n := Iff.rfl

theorem congr {as : List α} (hnext : ∀ a ∈ as, next' a = next a)
    (hprev : ∀ a ∈ as, prev' a = prev a) (h : Linked next prev p as n) :
    Linked next' prev' p as n := by
  induction as generalizing p with
  | nil => trivial
  | cons a as ih =>
    obtain ⟨hp, hn, ht⟩ := h
    refine ⟨by rw [hprev a (by simp), hp], by rw [hnext a (by simp), hn], ?_⟩
    exact ih (fun b hb => hnext b (by simp [hb])) (fun b hb => hprev b (by simp [hb])) ht

/-- Cutting a segment: the left part ends at the first address of the right part,
and the right part starts from the last address of the left one. -/
theorem append_iff {as bs : List α} :
    Linked next prev p (as ++ bs) n ↔
      Linked next prev p as (bs.headD n) ∧ Linked next prev (as.getLastD p) bs n := by
  induction as generalizing p with
  | nil => simp
  | cons a as ih =>
    have hhead : (as ++ bs).headD n = as.headD (bs.headD n) := by cases as <;> simp
    simp only [cons_append, cons_iff, ih, hhead, getLastD_cons]
    tauto

theorem next_eq {as bs : List α} (h : Linked next prev p (as ++ a :: bs) n) :
    next a = bs.headD n := by
  rw [append_iff] at h
  exact h.2.2.1

theorem prev_eq {as bs : List α} (h : Linked next prev p (as ++ a :: bs) n) :
    prev a = as.getLastD p := by
  rw [append_iff] at h
  exact h.2.1

/-- A new successor for the last member: only that member's `next` is rewritten. -/
theorem relink_next {as : List α} {m : α} (h : Linked next prev p (as ++ [a]) n)
    (hlast : next' a = m) (hnext : ∀ x ∈ as, next' x = next x)
    (hprev : ∀ x ∈ as ++ [a], prev' x = prev x) : Linked next' prev' p (as ++ [a]) m := by
  rw [append_iff] at h ⊢
  refine ⟨h.1.congr hnext fun x hx => hprev x (by simp [hx]), ?_, hlast, trivial⟩
  rw [hprev a (by simp)]
  exact h.2.1

/-- A new predecessor for the first member: only that member's `prev` is rewritten. -/
theorem relink_prev {as : List α} {q : α} (h : Linked next prev p (a :: as) n)
    (hfirst : prev' a = q) (hprev : ∀ x ∈ as, prev' x = prev x)
    (hnext : ∀ x ∈ a :: as, next' x = next x) : Linked next' prev' q (a :: as) n := by
  obtain ⟨-, hn, ht⟩ := h
  refine ⟨hfirst, by rw [hnext a (by simp), hn], ?_⟩
  exact ht.congr (fun x hx => hnext x (by simp [hx])) hprev

end Linked

/-! ## Lists with a head and a tail pointer -/

/-- The addresses `as` are the whole list that `head` and `tail` delimit. -/
structure DList (next prev : α → α) (null head tail : α) (as : List α) : Prop where
  linked : Linked next prev null as null
  head_eq : head = as.headD null
  tail_eq : tail = as.getLastD null
  nodup : as.Nodup
  ne_null : ∀ a ∈ as, a ≠ null

namespace DList

open List

variable {next prev next' prev' : α → α} {null head tail head' tail' : α} {as xs ys : List α}

theorem nil : DList next prev null null null [] :=
  ⟨trivial, rfl, rfl, nodup_nil, by simp⟩

theorem congr (h : DList next prev null head tail as) (hnext : ∀ a ∈ as, next' a = next a)
    (hprev : ∀ a ∈ as, prev' a = prev a) : DList next' prev' null head tail as :=
  ⟨h.linked.congr hnext hprev, h.head_eq, h.tail_eq, h.nodup, h.ne_null⟩

theorem next_mem {a : α} (h : DList next prev null head tail (xs ++ a :: ys))
    (hn : next a ≠ null) : next a ∈ ys := by
  have hnext := h.linked.next_eq
  cases ys with
  | nil => exact absurd hnext hn
  | cons y ys => rw [hnext]; simp

variable {a c : α}

theorem prev_mem (h : DList next prev null head tail (xs ++ a :: ys))
    (hp : prev a ≠ null) : prev a ∈ xs := by
  have hprev := h.linked.prev_eq
  rcases eq_nil_or_concat xs with rfl | ⟨zs, z, rfl⟩
  · exact absurd hprev hp
  · rw [hprev]; simp

theorem tail_mem (h : DList next prev null head tail as) (ht : tail ≠ null) : tail ∈ as := by
  have htail := h.tail_eq
  rcases eq_nil_or_concat as with rfl | ⟨zs, z, rfl⟩
  · exact absurd htail ht
  · rw [htail]; simp

theorem next_eq_null_iff {a : α} (h : DList next prev null head tail (xs ++ a :: ys)) :
    next a = null ↔ tail = a := by
  have hnext := h.linked.next_eq
  have htail := h.tail_eq
  cases ys with
  | nil => simp_all
  | cons y ys =>
    have hy : y ≠ null := h.ne_null y (by simp)
    have hnd := h.nodup
    rw [nodup_append, nodup_cons] at hnd
    have hlast : (xs ++ a :: y :: ys).getLastD null ∈ y :: ys := by
      rw [getLastD_eq_getLast?, List.getLast?_append_of_ne_nil _ (by simp),
        List.getLast?_cons_cons, List.getLast?_eq_some_getLast (by simp)]
      exact getLast_mem _
    constructor
    · intro h0
      exact absurd (hnext.symm.trans h0) hy
    · intro hta
      rw [← htail, hta] at hlast
      exact absurd hlast hnd.2.1.1

theorem insert_after [DecidableEq α]
    (h : DList next prev null head tail (xs ++ a :: ys)) (hc : c ∉ xs ++ a :: ys) (hc0 : c ≠ null)
    (hnext : ∀ x, next' x = if x = a then c else if x = c then next a else next x)
    (hprev : ∀ x, prev' x = if x = c then a else if x = next a ∧ next a ≠ null then c else prev x)
    (htail : tail' = if next a = null then c else tail) :
    DList next' prev' null head tail' (xs ++ a :: c :: ys) := by
  have hna := h.linked.next_eq
  have hnd := h.nodup
  rw [nodup_append, nodup_cons] at hnd
  obtain ⟨hndx, ⟨hay, hndy⟩, hdisj⟩ := hnd
  simp only [mem_append, mem_cons, not_or] at hc
  obtain ⟨hcx, hca, hcy⟩ := hc
  have hl := h.linked
  rw [Linked.append_iff, Linked.cons_iff] at hl
  obtain ⟨hlx, hpa, -, hly⟩ := hl
  have hout : ∀ x, x ∉ ys → ¬(x = next a ∧ next a ≠ null) := by
    rintro x hx ⟨rfl, hn⟩
    exact hx (h.next_mem hn)
  refine ⟨?_, ?_, ?_, ?_, ?_⟩
  · rw [Linked.append_iff]
    refine ⟨hlx.congr ?_ ?_, ?_, ?_, ?_, ?_, ?_⟩
    · intro x hx
      rw [hnext, if_neg (hdisj x hx a (by simp)), if_neg (ne_of_mem_of_not_mem hx hcx)]
    · intro x hx
      rw [hprev, if_neg (ne_of_mem_of_not_mem hx hcx),
        if_neg (hout x fun hxy => hdisj x hx x (by simp [hxy]) rfl)]
    · rw [hprev, if_neg (Ne.symm hca), if_neg (hout a hay)]
      exact hpa
    · rw [hnext, if_pos rfl]; rfl
    · rw [hprev, if_pos rfl]
    · rw [hnext, if_neg hca, if_pos rfl, hna]
    · cases ys with
      | nil => trivial
      | cons y ys =>
        have hny : next a = y := hna
        have hy0 : y ≠ null := h.ne_null y (by simp)
        have hne : ∀ x ∈ y :: ys, x ≠ c := fun x hx => ne_of_mem_of_not_mem hx hcy
        refine hly.relink_prev ?_ ?_ ?_
        · rw [hprev, if_neg (hne y (by simp)), hny, if_pos ⟨rfl, hy0⟩]
        · intro x hx
          have hxy : x ≠ y := ne_of_mem_of_not_mem hx (nodup_cons.1 hndy).1
          rw [hprev, if_neg (hne x (by simp [hx])), hny, if_neg (fun hh => hxy hh.1)]
        · intro x hx
          rw [hnext, if_neg (ne_of_mem_of_not_mem hx hay), if_neg (hne x hx)]
  · rw [h.head_eq]
    cases xs <;> rfl
  · rw [htail, hna]
    cases ys with
    | nil => simp
    | cons y ys =>
      have hy0 : y ≠ null := h.ne_null y (by simp)
      simp [getLastD_eq_getLast?, h.tail_eq, hy0]
  · rw [nodup_append, nodup_cons, nodup_cons]
    refine ⟨hndx, ⟨?_, hcy, hndy⟩, ?_⟩
    · simp only [mem_cons, not_or]
      exact ⟨Ne.symm hca, hay⟩
    · intro x hx y hy hxy
      rcases mem_cons.1 hy with rfl | hy
      · exact hdisj x hx y (by simp) hxy
      · rcases mem_cons.1 hy with rfl | hy
        · exact hcx (hxy ▸ hx)
        · exact hdisj x hx y (by simp [hy]) hxy
  · intro x hx
    by_cases hxc : x = c
    · exact hxc ▸ hc0
    · refine h.ne_null x ?_
      simp only [mem_append, mem_cons] at hx ⊢
      tauto

theorem remove_after [DecidableEq α] (h : DList next prev null head tail (xs ++ a :: c :: ys))
    (hnext : ∀ x, next' x = if x = a then next c else next x)
    (hprev : ∀ x, prev' x = if x = next c ∧ next c ≠ null then a else prev x)
    (htail : tail' = if next c = null then a else tail) :
    DList next' prev' null head tail' (xs ++ a :: ys) := by
  have h' : DList next prev null head tail ((xs ++ [a]) ++ c :: ys) := by simpa using h
  have hnc := h'.linked.next_eq
  have hnd := h.nodup
  rw [nodup_append, nodup_cons, nodup_cons] at hnd
  obtain ⟨hndx, ⟨haycy, hcy, hndy⟩, hdisj⟩ := hnd
  have hay : a ∉ ys := fun hh => haycy (by simp [hh])
  have hl := h.linked
  rw [Linked.append_iff, Linked.cons_iff, Linked.cons_iff] at hl
  obtain ⟨hlx, hpa, -, -, -, hly⟩ := hl
  have hout : ∀ x, x ∉ ys → ¬(x = next c ∧ next c ≠ null) := by
    rintro x hx ⟨rfl, hn⟩
    exact hx (h'.next_mem hn)
  refine ⟨?_, ?_, ?_, ?_, ?_⟩
  · rw [Linked.append_iff]
    refine ⟨hlx.congr ?_ ?_, ?_, ?_, ?_⟩
    · intro x hx
      rw [hnext, if_neg (hdisj x hx a (by simp))]
    · intro x hx
      rw [hprev, if_neg (hout x fun hxy => hdisj x hx x (by simp [hxy]) rfl)]
    · rw [hprev, if_neg (hout a hay)]
      exact hpa
    · rw [hnext, if_pos rfl, hnc]
    · cases ys with
      | nil => trivial
      | cons y ys =>
        have hny : next c = y := hnc
        have hy0 : y ≠ null := h.ne_null y (by simp)
        refine hly.relink_prev ?_ ?_ ?_
        · rw [hprev, hny, if_pos ⟨rfl, hy0⟩]
        · intro x hx
          have hxy : x ≠ y := ne_of_mem_of_not_mem hx (nodup_cons.1 hndy).1
          rw [hprev, hny, if_neg (fun hh => hxy hh.1)]
        · intro x hx
          rw [hnext, if_neg (ne_of_mem_of_not_mem hx hay)]
  · rw [h.head_eq]
    cases xs <;> rfl
  · rw [htail, hnc]
    cases ys with
    | nil => simp
    | cons y ys =>
      have hy0 : y ≠ null := h.ne_null y (by simp)
      simp [getLastD_eq_getLast?, h.tail_eq, hy0]
  · rw [nodup_append, nodup_cons]
    refine ⟨hndx, ⟨hay, hndy⟩, fun x hx y hy hxy => hdisj x hx y ?_ hxy⟩
    simp only [mem_cons] at hy ⊢
    tauto
  · intro x hx
    refine h.ne_null x ?_
    simp only [mem_append, mem_cons] at hx ⊢
    tauto

theorem push_back [DecidableEq α] (h : DList next prev null head tail as) (hc : c ∉ as)
    (hc0 : c ≠ null)
    (hnext : ∀ x, next' x = if x = c then null else if x = tail ∧ tail ≠ null then c else next x)
    (hprev : ∀ x, prev' x = if x = c then tail else prev x)
    (hhead : head' = if tail = null then c else head) :
    DList next' prev' null head' c (as ++ [c]) := by
  have hnd := h.nodup
  have htail := h.tail_eq
  have hprevx : ∀ x ∈ as, prev' x = prev x := by
    intro x hx
    rw [hprev, if_neg (ne_of_mem_of_not_mem hx hc)]
  refine ⟨?_, ?_, by simp, ?_, ?_⟩
  · rw [Linked.append_iff]
    refine ⟨?_, ?_, ?_, trivial⟩
    · rcases eq_nil_or_concat as with rfl | ⟨zs, z, rfl⟩
      · trivial
      · rw [concat_eq_append] at *
        have htz : tail = z := by rw [htail]; simp
        have hz0 : z ≠ null := h.ne_null z (by simp)
        refine h.linked.relink_next ?_ ?_ hprevx
        · rw [hnext, if_neg (ne_of_mem_of_not_mem (by simp) hc), htz, if_pos ⟨rfl, hz0⟩]
          rfl
        · intro x hx
          have hxz : x ≠ z := by
            rintro rfl
            exact (nodup_append.1 hnd).2.2 x hx x (by simp) rfl
          rw [hnext, if_neg (ne_of_mem_of_not_mem (by simp [hx]) hc), htz, if_neg (fun hh => hxz hh.1)]
    · rw [hprev, if_pos rfl, htail]
    · rw [hnext, if_pos rfl]; rfl
  · rw [hhead, htail, h.head_eq]
    rcases eq_nil_or_concat as with rfl | ⟨zs, z, rfl⟩
    · simp
    · have hz0 : (zs.concat z).getLastD null ≠ null := by simpa using h.ne_null z (by simp)
      rw [if_neg hz0]
      cases zs <;> rfl
  · rw [nodup_append]
    refine ⟨hnd, by simp, fun x hx y hy hxy => hc ?_⟩
    rw [mem_singleton] at hy
    exact hy ▸ hxy ▸ hx
  · intro x hx
    rcases mem_append.1 hx with hx | hx
    · exact h.ne_null x hx
    · rw [mem_singleton] at hx
      exact hx ▸ hc0

end DList
end Cleonos
