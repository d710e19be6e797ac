import Mathlib.Data.List.Nodup
import Mathlib.Data.List.Perm.Subperm

/-!
# Tables with keys and a bounded number of slots

What is put into a table replaces the element with its key, takes a new slot, or, in a full table,
the last one.
-/

namespace Cleonos.Keyed

open List

universe u v
variable {α : Type u} {κ : Type v} [DecidableEq κ] (key : α → κ)

/-- `c` in the place of the first element with its key, or behind the others. -/
def upsert (c : α) : List α → List α
  | [] => [c]
  | d :: table => if key d = key c then c :: table else d :: upsert c table

/-- There is a slot for `c`. -/
def Fits (cap : ℕ) (c : α) (table : List α) : Prop :=
  key c ∈ table.map key ∨ table.length < cap

instance (cap : ℕ) (c : α) (table : List α) : Decidable (Fits key cap c table) :=
  inferInstanceAs (Decidable (_ ∨ _))

/-- `c` in its slot, and without one in the last. -/
def put (cap : ℕ) (c : α) (table : List α) : List α :=
  if Fits key cap c table then upsert key c table else table.set (cap - 1) c

def runFrom (cap : ℕ) (table : List α) (run : List α) : List α :=
  run.foldl (fun table c => put key cap c table) table

/-- The elements of a run that are not left out. -/
def kept {α : Type u} (run : List (Bool × α)) : List α :=
  (run.filter fun e => e.1 = false).map Prod.snd

/-- Every element finds its slot, from the first one on that is left out. -/
def Room (cap : ℕ) : Bool → List α → List (Bool × α) → Prop
  | _, _, [] => True
  | begun, table, (out, c) :: run =>
    ((begun || out) = true → Fits key cap c table) ∧
      Room cap (begun || out) (put key cap c table) run

instance Room.instDecidable (cap : ℕ) (begun : Bool) (table : List α) (run : List (Bool × α)) :
    Decidable (Room key cap begun table run) :=
  match run with
  | [] => inferInstanceAs (Decidable True)
  | (out, c) :: run =>
    have := Room.instDecidable cap (begun || out) (put key cap c table) run
    inferInstanceAs (Decidable (_ ∧ _))

variable {key} {cap : ℕ} {c : α} {k : κ} {table table' : List α} {P : α → Bool}

theorem map_upsert (h : key c ∈ table.map key) : (upsert key c table).map key = table.map key := by
  induction table with
  | nil => cases h
  | cons d table ih =>
    rw [upsert]
    by_cases hd : key d = key c
    · simp [hd]
    · have hmem : key c ∈ table.map key := by
        rw [map_cons, mem_cons] at h
        exact h.resolve_left (Ne.symm hd)
      rw [if_neg hd, map_cons, ih hmem, map_cons]

theorem upsert_of_notMem (h : key c ∉ table.map key) : upsert key c table = table ++ [c] := by
  induction table with
  | nil => rfl
  | cons d table ih =>
    rw [map_cons, mem_cons, not_or] at h
    rw [upsert, if_neg (Ne.symm h.1), ih h.2, cons_append]

theorem mem_map_upsert : k ∈ (upsert key c table).map key ↔ k ∈ table.map key ∨ k = key c := by
  by_cases h : key c ∈ table.map key
  · rw [map_upsert h]
    constructor
    · exact .inl
    · rintro (hk | rfl)
      · exact hk
      · exact h
  · rw [upsert_of_notMem h, map_append, mem_append]
    simp

theorem set_findIdx? {p : α → Bool} (hp : ∀ d, p d = true ↔ key d = key c) {i : ℕ}
    (h : table.findIdx? p = some i) :
    key c ∈ table.map key ∧ table.set i c = upsert key c table := by
  induction table generalizing i with
  | nil => cases h
  | cons d table ih =>
    rw [List.findIdx?_cons] at h
    by_cases hd : key d = key c
    · rw [if_pos ((hp d).2 hd)] at h
      cases h
      exact ⟨by simp [hd], by rw [upsert, if_pos hd, set_cons_zero]⟩
    · rw [if_neg fun hpd => hd ((hp d).1 hpd), Option.map_eq_some_iff] at h
      obtain ⟨j, hj, rfl⟩ := h
      obtain ⟨hmem, hset⟩ := ih hj
      refine ⟨mem_cons_of_mem _ hmem, ?_⟩
      rw [upsert, if_neg hd, set_cons_succ, hset]

theorem nodup_upsert (h : (table.map key).Nodup) : ((upsert key c table).map key).Nodup := by
  by_cases hc : key c ∈ table.map key
  · rwa [map_upsert hc]
  · rw [upsert_of_notMem hc, map_append]
    exact List.Nodup.append h (nodup_singleton _) (by simpa using hc)

theorem length_upsert_le (h : Fits key cap c table) (hle : table.length ≤ cap) :
    (upsert key c table).length ≤ cap := by
  by_cases hc : key c ∈ table.map key
  · have hlen := congrArg List.length (map_upsert hc)
    rw [length_map, length_map] at hlen
    omega
  · have hlt := h.resolve_left hc
    rw [upsert_of_notMem hc, length_append]
    exact hlt

theorem filter_upsert (hP : ∀ a b, key a = key b → P a = P b) :
    (upsert key c table).filter P =
      if P c then upsert key c (table.filter P) else table.filter P := by
  induction table with
  | nil => cases hc : P c <;> simp [upsert, hc]
  | cons d table ih =>
    rw [upsert]
    by_cases hd : key d = key c
    · have hdc := hP d c hd
      cases hc : P c with
      | true => simp [hd, hc, hdc, upsert]
      | false => simp [hd, hc, hdc]
    · rw [if_neg hd]
      cases hPd : P d with
      | true =>
        rw [filter_cons_of_pos hPd, filter_cons_of_pos hPd, ih, upsert, if_neg hd]
        split <;> rfl
      | false =>
        have hPd' : ¬ P d = true := by simp [hPd]
        rw [filter_cons_of_neg hPd', filter_cons_of_neg hPd', ih]

theorem mem_upsert {d : α} (h : d ∈ upsert key c table) : d = c ∨ d ∈ table := by
  induction table with
  | nil => exact .inl (mem_singleton.1 h)
  | cons e table ih =>
    rw [upsert] at h
    split at h
    · exact (mem_cons.1 h).imp_right (mem_cons_of_mem e)
    · obtain rfl | h := mem_cons.1 h
      · exact .inr mem_cons_self
      · exact (ih h).imp_right (mem_cons_of_mem e)

theorem mem_put {d : α} (h : d ∈ put key cap c table) : d = c ∨ d ∈ table := by
  rw [put] at h
  split at h
  · exact mem_upsert h
  · exact (mem_or_eq_of_mem_set h).symm

theorem mem_runFrom {d : α} {run : List α} (h : d ∈ runFrom key cap table run) :
    d ∈ table ∨ d ∈ run := by
  induction run generalizing table with
  | nil => exact .inl h
  | cons c run ih =>
    obtain h | h := ih h
    · obtain rfl | h := mem_put h
      · exact .inr mem_cons_self
      · exact .inl h
    · exact .inr (mem_cons_of_mem c h)

section

variable {β : Type u} {f : β → α}

theorem upsert_map (b : β) (table : List β) :
    (upsert (fun b => key (f b)) b table).map f = upsert key (f b) (table.map f) := by
  induction table with
  | nil => rfl
  | cons d table ih =>
    rw [upsert, map_cons, upsert]
    split
    · rfl
    · rw [map_cons, ih]

theorem put_map (b : β) (table : List β) :
    (put (fun b => key (f b)) cap b table).map f = put key cap (f b) (table.map f) := by
  have hfits : Fits (fun b => key (f b)) cap b table ↔ Fits key cap (f b) (table.map f) := by
    rw [Fits, Fits, map_map, length_map]
    rfl
  rw [put, put]
  by_cases h : Fits key cap (f b) (table.map f)
  · rw [if_pos h, if_pos (hfits.2 h), upsert_map]
  · rw [if_neg h, if_neg fun h' => h (hfits.1 h'), map_set]

theorem runFrom_map (run table : List β) :
    (runFrom (fun b => key (f b)) cap table run).map f =
      runFrom key cap (table.map f) (run.map f) := by
  induction run generalizing table with
  | nil => rfl
  | cons b run ih =>
    have hstep := ih (put (fun b => key (f b)) cap b table)
    rw [put_map] at hstep
    exact hstep

end

/-! ## Tables without two elements of one key -/

/-- A table that a run can come to. -/
structure WellKeyed (key : α → κ) (cap : ℕ) (table : List α) : Prop where
  nodup : (table.map key).Nodup
  length_le : table.length ≤ cap

omit [DecidableEq κ] in
theorem WellKeyed.nil : WellKeyed key cap ([] : List α) := ⟨nodup_nil, Nat.zero_le _⟩

theorem WellKeyed.put (h : WellKeyed key cap table) : WellKeyed key cap (put key cap c table) := by
  rw [Keyed.put]
  split
  case isTrue hfits => exact ⟨nodup_upsert h.nodup, length_upsert_le hfits h.length_le⟩
  case isFalse hfits =>
    rw [Fits, not_or] at hfits
    refine ⟨?_, by simpa using h.length_le⟩
    rw [map_set]
    exact h.nodup.set hfits.1

theorem WellKeyed.runFrom (run : List α) (h : WellKeyed key cap table) :
    WellKeyed key cap (runFrom key cap table run) := by
  induction run generalizing table with
  | nil => exact h
  | cons c run ih => exact ih h.put

/-- The second table has lost nothing that is selected, and has no other keys. -/
structure Agree (key : α → κ) (cap : ℕ) (P : α → Bool) (table table' : List α) : Prop where
  filter : table.filter P = table'.filter P
  keys : table'.map key ⊆ table.map key
  well : WellKeyed key cap table
  well' : WellKeyed key cap table'

namespace Agree

open List

omit [DecidableEq κ] in
theorem refl (h : WellKeyed key cap table) : Agree key cap P table table :=
  ⟨rfl, List.Subset.refl _, h, h⟩

theorem fits (h : Agree key cap P table table') (hfits : Fits key cap c table) :
    Fits key cap c table' := by
  by_cases hc : key c ∈ table'.map key
  · exact .inl hc
  · refine .inr ?_
    by_cases hc' : key c ∈ table.map key
    · -- The keys of the second table and `key c` are distinct keys of the first.
      have hnodup : (key c :: table'.map key).Nodup := nodup_cons.2 ⟨hc, h.well'.nodup⟩
      have hsub : key c :: table'.map key ⊆ table.map key := cons_subset.2 ⟨hc', h.keys⟩
      have hle := (hnodup.subperm hsub).length_le
      have hcap := h.well.length_le
      rw [length_cons, length_map, length_map] at hle
      omega
    · have hle := (h.well'.nodup.subperm h.keys).length_le
      have hlt := hfits.resolve_left hc'
      rw [length_map, length_map] at hle
      omega

theorem put (hP : ∀ a b, key a = key b → P a = P b) (h : Agree key cap P table table')
    (hfits : Fits key cap c table) :
    Agree key cap P (Keyed.put key cap c table) (Keyed.put key cap c table') := by
  refine ⟨?_, ?_, h.well.put, h.well'.put⟩
  · rw [Keyed.put, Keyed.put, if_pos hfits, if_pos (h.fits hfits), filter_upsert hP,
      filter_upsert hP, h.filter]
  · rw [Keyed.put, Keyed.put, if_pos hfits, if_pos (h.fits hfits)]
    intro k hk
    rw [mem_map_upsert] at hk ⊢
    exact hk.imp_left fun hk => h.keys hk

theorem put_left (hP : ∀ a b, key a = key b → P a = P b) (h : Agree key cap P table table')
    (hfits : Fits key cap c table) (hc : P c = false) :
    Agree key cap P (Keyed.put key cap c table) table' := by
  refine ⟨?_, ?_, h.well.put, h.well'⟩
  · rw [Keyed.put, if_pos hfits, filter_upsert hP, if_neg (by simp [hc]), h.filter]
  · rw [Keyed.put, if_pos hfits]
    intro k hk
    exact mem_map_upsert.2 (.inl (h.keys hk))

end Agree

omit [DecidableEq κ] in
theorem kept_append (run rest : List (Bool × α)) : kept (run ++ rest) = kept run ++ kept rest := by
  rw [kept, filter_append, map_append, kept, kept]

theorem Room.of_append {begun : Bool} {run rest : List (Bool × α)}
    (h : Room key cap begun table (run ++ rest)) : Room key cap begun table run := by
  induction run generalizing begun table with
  | nil => trivial
  | cons e run ih => exact ⟨h.1, ih h.2⟩

section

variable (hP : ∀ a b, key a = key b → P a = P b)
include hP

/-- One more element, which the second run may leave out. Until it has left one out, the tables
are equal. -/
theorem agree_step {begun out : Bool}
    (h : Agree key cap P table table') (heq : begun = false → table = table')
    (hfits : (begun || out) = true → Fits key cap c table) (hout : out = true → P c = false) :
    Agree key cap P (put key cap c table) (if out then table' else put key cap c table') := by
  cases out with
  | true =>
    rw [if_pos rfl]
    exact h.put_left hP (hfits (Bool.or_true _)) (hout rfl)
  | false =>
    rw [if_neg Bool.false_ne_true]
    cases begun with
    | true => exact h.put hP (hfits rfl)
    | false =>
      rw [heq rfl] at h ⊢
      exact Agree.refl h.well'.put

theorem agree_runs {begun : Bool}
    {run : List (Bool × α)} (hrun : ∀ e ∈ run, e.1 = true → P e.2 = false)
    (hroom : Room key cap begun table run) (h : Agree key cap P table table')
    (heq : begun = false → table = table') :
    Agree key cap P (runFrom key cap table (run.map Prod.snd))
      (runFrom key cap table' (kept run)) := by
  induction run generalizing begun table table' with
  | nil => exact h
  | cons e run ih =>
    obtain ⟨out, c⟩ := e
    obtain ⟨hfits, hroom⟩ := hroom
    have hstep := agree_step hP h heq hfits (hrun (out, c) mem_cons_self)
    have hrest := fun e he => hrun e (mem_cons_of_mem _ he)
    cases out with
    | true => exact ih hrest hroom hstep (by simp)
    | false =>
      refine ih hrest hroom hstep fun hbegun => ?_
      rw [Bool.or_false] at hbegun
      rw [heq hbegun]

theorem filter_runs {run : List (Bool × α)}
    (hrun : ∀ e ∈ run, e.1 = true → P e.2 = false) (hroom : Room key cap false [] run) :
    (runFrom key cap [] (run.map Prod.snd)).filter P =
      (runFrom key cap [] (kept run)).filter P :=
  (agree_runs hP hrun hroom (Agree.refl WellKeyed.nil) fun _ => rfl).filter

end

end Cleonos.Keyed

namespace Cleonos.Assignments

open List

universe u v
variable {κ : Type u} {α : Type v} [DecidableEq κ] {j k : κ} {a b : α}
  {table pairs pairs' : List (κ × α)}

/-- What is assigned to a name first. -/
def lookup (k : κ) : List (κ × α) → Option α
  | [] => none
  | p :: pairs => if p.1 = k then some p.2 else lookup k pairs

/-- The value of a name that is there is replaced, and one that is not is put behind. -/
def assign (k : κ) (a : α) (table : List (κ × α)) : List (κ × α) :=
  Keyed.upsert Prod.fst (k, a) table

/-- A name that is there keeps its value. -/
def defineOnce (k : κ) (a : α) (table : List (κ × α)) : List (κ × α) :=
  if (lookup k table).isSome then table else assign k a table

/-- All assignments to the name are of one value, and there is one. -/
def Agrees (pairs : List (κ × α)) (k : κ) (a : α) : Prop :=
  (k, a) ∈ pairs ∧ ∀ b, (k, b) ∈ pairs → b = a

theorem lookup_append : lookup k (pairs ++ pairs') = (lookup k pairs).or (lookup k pairs') := by
  induction pairs with
  | nil => rfl
  | cons p pairs ih =>
    rw [cons_append, lookup, lookup, ih]
    split
    · rfl
    · rfl

theorem lookup_assign : lookup j (assign k a table) = if k = j then some a else lookup j table := by
  rw [assign]
  induction table with
  | nil => rfl
  | cons p table ih =>
    rw [Keyed.upsert]
    by_cases hp : p.1 = k
    · rw [if_pos hp, lookup, lookup, hp]
      split
      · rfl
      · rfl
    · rw [if_neg hp, lookup, lookup, ih]
      by_cases hj : p.1 = j
      · rw [if_pos hj, if_pos hj, if_neg fun hk => hp (hj.trans hk.symm)]
      · rw [if_neg hj, if_neg hj]

theorem mem_of_lookup (h : lookup k pairs = some a) : (k, a) ∈ pairs := by
  induction pairs with
  | nil => cases h
  | cons p pairs ih =>
    rw [lookup] at h
    split at h
    case isTrue hp =>
      rw [← hp, ← Option.some.inj h]
      exact mem_cons_self
    case isFalse => exact mem_cons_of_mem _ (ih h)

theorem lookup_eq_none (h : ∀ a, (k, a) ∉ pairs) : lookup k pairs = none := by
  cases hlookup : lookup k pairs with
  | none => rfl
  | some a => exact absurd (mem_of_lookup hlookup) (h a)

theorem isSome_lookup (h : (k, a) ∈ pairs) : (lookup k pairs).isSome = true := by
  induction pairs with
  | nil => cases h
  | cons p pairs ih =>
    rw [lookup]
    split
    case isTrue => rfl
    case isFalse hp =>
      rcases mem_cons.1 h with heq | hmem
      · exact absurd (congrArg Prod.fst heq).symm hp
      · exact ih hmem

theorem Agrees.lookup (h : Agrees pairs k a) : lookup k pairs = some a := by
  obtain ⟨b, hb⟩ := Option.isSome_iff_exists.1 (isSome_lookup h.1)
  rw [hb, h.2 b (mem_of_lookup hb)]

theorem Agrees.lookup_reverse (h : Agrees pairs k a) :
    Assignments.lookup k pairs.reverse = some a := by
  apply Agrees.lookup
  constructor
  · exact mem_reverse.2 h.1
  · intro b hb
    exact h.2 b (mem_reverse.1 hb)

theorem lookup_foldl_assign (pairs table : List (κ × α)) (k : κ) :
    lookup k (pairs.foldl (fun table p => assign p.1 p.2 table) table) =
      lookup k (pairs.reverse ++ table) := by
  induction pairs generalizing table with
  | nil => rfl
  | cons p pairs ih =>
    rw [foldl_cons, ih, reverse_cons, append_assoc, singleton_append,
      lookup_append, lookup_append, lookup_assign, lookup]

theorem lookup_foldl_defineOnce (pairs table : List (κ × α)) (k : κ) :
    lookup k (pairs.foldl (fun table p => defineOnce p.1 p.2 table) table) =
      lookup k (table ++ pairs) := by
  induction pairs generalizing table with
  | nil => rw [append_nil, foldl_nil]
  | cons p pairs ih =>
    rw [foldl_cons, ih, lookup_append, lookup_append, defineOnce, lookup]
    split
    case isTrue hthere =>
      by_cases hp : p.1 = k
      · obtain ⟨c, hc⟩ := Option.isSome_iff_exists.1 (hp ▸ hthere)
        rw [hc]
        rfl
      · rw [if_neg hp]
    case isFalse hthere =>
      rw [lookup_assign]
      by_cases hp : p.1 = k
      · rw [if_pos hp, if_pos hp, ← hp, Option.not_isSome_iff_eq_none.1 hthere]
        rfl
      · rw [if_neg hp, if_neg hp]

end Cleonos.Assignments
