import Mathlib.Data.List.Induction

/-!
# Trees of tables

Tables lie in a memory that is addressed by a table and an index.
-/

namespace Cleonos.Radix

open List Option

variable {Addr Idx Entry : Type} [DecidableEq Addr] [DecidableEq Idx]

/-- One entry of a table is written. -/
def store (mem : Addr → Idx → Entry) (t : Addr) (i : Idx) (e : Entry) : Addr → Idx → Entry :=
  fun t' i' => if t' = t ∧ i' = i then e else mem t' i'

/-- All entries of a table are written. -/
def clear (zero : Entry) (mem : Addr → Idx → Entry) (t : Addr) : Addr → Idx → Entry :=
  fun t' i => if t' = t then zero else mem t' i

section

variable (present : Entry → Bool) (next : Entry → Addr) (mem : Addr → Idx → Entry)

/-- The table that an entry leads to. -/
def child (t : Addr) (i : Idx) : Option Addr :=
  if present (mem t i) then some (next (mem t i)) else none

/-- The table at the end of a path. -/
def descend (root : Addr) (path : List Idx) : Option Addr :=
  path.foldl (fun t i => t.bind fun t => child present next mem t i) (some root)

/-- The entry at the end of a path. -/
def lookup (root : Addr) (path : List Idx) (i : Idx) : Option Entry :=
  (descend present next mem root path).bind fun t =>
    if present (mem t i) then some (mem t i) else none

/-- Different paths of fewer than `depth` steps lead to different tables. -/
def Tree (depth : ℕ) (root : Addr) : Prop :=
  ∀ l l' t, l.length < depth → l'.length < depth → descend present next mem root l = some t →
    descend present next mem root l' = some t → l = l'

end

variable {present : Entry → Bool} {next : Entry → Addr} {depth : ℕ} {mem : Addr → Idx → Entry}
  {root t t' p : Addr} {l path : List Idx} {i j : Idx} {e zero : Entry}

theorem store_self : store mem t i e t i = e := if_pos ⟨rfl, rfl⟩

theorem store_of_ne (h : ¬ (t' = t ∧ j = i)) : store mem t i e t' j = mem t' j := if_neg h

omit [DecidableEq Idx] in
theorem clear_self : clear zero mem t t i = zero := if_pos rfl

omit [DecidableEq Idx] in
theorem clear_of_ne (h : t' ≠ t) : clear zero mem t t' i = mem t' i := if_neg h

omit [DecidableEq Addr] [DecidableEq Idx] in
@[simp] theorem descend_nil : descend present next mem root [] = some root := rfl

omit [DecidableEq Addr] [DecidableEq Idx] in
theorem descend_snoc : descend present next mem root (path ++ [i]) =
    (descend present next mem root path).bind fun t => child present next mem t i := by
  rw [descend, foldl_append]
  rfl

omit [DecidableEq Addr] [DecidableEq Idx] in
theorem child_congr {mem' : Addr → Idx → Entry} (h : mem t i = mem' t i) :
    child present next mem t i = child present next mem' t i := by
  rw [child, child, h]

/-! ### A single table -/

section

variable (habsent : ∀ i, present (mem root i) = false)

include habsent

omit [DecidableEq Addr] [DecidableEq Idx] in
theorem descend_of_absent (hpath : path ≠ []) :
    descend present next mem root path = none := by
  induction path using List.reverseRecOn with
  | nil => exact absurd rfl hpath
  | append_singleton path j ih =>
    rw [descend_snoc]
    by_cases hfirst : path = []
    · rw [hfirst, descend_nil, bind_some, child, habsent, if_neg Bool.false_ne_true]
    · rw [ih hfirst]
      rfl

omit [DecidableEq Addr] [DecidableEq Idx] in
theorem Tree.single : Tree present next mem depth root := by
  intro a b u ha hb hda hdb
  have hnil : ∀ path, descend present next mem root path = some u → path = [] := by
    intro path hd
    by_contra hpath
    rw [descend_of_absent habsent hpath] at hd
    exact absurd hd (by simp)
  rw [hnil a hda, hnil b hdb]

omit [DecidableEq Addr] [DecidableEq Idx] in
theorem lookup_of_absent : lookup present next mem root path i = none := by
  rw [lookup]
  by_cases hpath : path = []
  · rw [hpath, descend_nil, bind_some, habsent, if_neg Bool.false_ne_true]
  · rw [descend_of_absent habsent hpath]
    rfl

end

section

variable (htree : Tree present next mem depth root)
  (hl : descend present next mem root l = some t) (hlen : l.length + 1 = depth)

include htree hl hlen

theorem descend_store (hpath : path.length < depth) :
    descend present next (store mem t i e) root path = descend present next mem root path := by
  induction path using List.reverseRecOn with
  | nil => rfl
  | append_singleton path j ih =>
    rw [length_append, length_singleton] at hpath
    rw [descend_snoc, descend_snoc, ih (by omega)]
    cases hd : descend present next mem root path with
    | none => rfl
    | some t' =>
      have hne : ¬ (t' = t ∧ j = i) := by
        intro h
        rw [h.1] at hd
        have hpaths := htree path l t (by omega) (by omega) hd hl
        rw [hpaths] at hpath
        omega
      exact child_congr (store_of_ne hne)

theorem Tree.store : Tree present next (store mem t i e) depth root := by
  intro a b u ha hb hda hdb
  rw [descend_store htree hl hlen ha] at hda
  rw [descend_store htree hl hlen hb] at hdb
  exact htree a b u ha hb hda hdb

theorem lookup_store (he : present e) (hpath : path.length + 1 = depth) :
    lookup present next (Radix.store mem t i e) root path j =
      if path = l ∧ j = i then some e else lookup present next mem root path j := by
  rw [lookup, lookup, descend_store htree hl hlen (by omega)]
  by_cases hhere : path = l ∧ j = i
  · rw [if_pos hhere, hhere.1, hhere.2, hl, bind_some, store_self, if_pos he]
  · rw [if_neg hhere]
    cases hd : descend present next mem root path with
    | none => rfl
    | some t' =>
      have hne : ¬ (t' = t ∧ j = i) := by
        intro h
        rw [h.1] at hd
        exact hhere ⟨htree path l t (by omega) (by omega) hd hl, h.2⟩
      rw [bind_some, bind_some, store_of_ne hne]

end

section

variable (htree : Tree present next mem depth root)
  (hl : descend present next mem root l = some t) (hlen : l.length + 1 < depth)
  (habsent : present (mem t i) = false) (hzero : present zero = false)
  (hp : ∀ path, path.length < depth → descend present next mem root path ≠ some p)
  (he : present e) (hnext : next e = p)

include htree hl hlen habsent hzero hp he hnext

theorem descend_grow (hpath : path.length < depth) :
    descend present next (store (clear zero mem p) t i e) root path =
      if path = l ++ [i] then some p else descend present next mem root path := by
  have htp : t ≠ p := by
    intro h
    rw [h] at hl
    exact hp l (by omega) hl
  induction path using List.reverseRecOn with
  | nil => rw [if_neg (by simp), descend_nil, descend_nil]
  | append_singleton path j ih =>
    rw [length_append, length_singleton] at hpath
    rw [descend_snoc, descend_snoc, ih (by omega)]
    by_cases hnew : path = l ++ [i]
    · -- The new table has no entry, and in the old tree there is no table at its place.
      have hlong : path ++ [j] ≠ l ++ [i] := by
        intro h
        rw [hnew] at h
        simp at h
      have hnone : descend present next mem root path = none := by
        rw [hnew, descend_snoc, hl, bind_some, child, habsent,
          if_neg Bool.false_ne_true]
      rw [if_pos hnew, if_neg hlong, hnone, bind_some, bind_none, child,
        store_of_ne fun h => htp h.1.symm, clear_self, hzero, if_neg Bool.false_ne_true]
    · rw [if_neg hnew]
      cases hd : descend present next mem root path with
      | none =>
        have hother : path ++ [j] ≠ l ++ [i] := by
          intro h
          obtain ⟨rfl, -⟩ := append_inj' h rfl
          rw [hl] at hd
          exact absurd hd (by simp)
        rw [if_neg hother]
        rfl
      | some u =>
        have hup : u ≠ p := by
          intro h
          rw [h] at hd
          exact hp path (by omega) hd
        by_cases hhere : u = t ∧ j = i
        · obtain ⟨rfl, rfl⟩ := hhere
          rw [htree path l u (by omega) (by omega) hd hl, if_pos rfl, bind_some,
            child, store_self, if_pos he, hnext]
        · have hother : path ++ [j] ≠ l ++ [i] := by
            intro h
            obtain ⟨rfl, hji⟩ := append_inj' h rfl
            rw [hl] at hd
            cases hd
            cases hji
            exact hhere ⟨rfl, rfl⟩
          rw [if_neg hother]
          exact child_congr (by rw [store_of_ne hhere, clear_of_ne hup])

theorem Tree.grow : Tree present next (Radix.store (clear zero mem p) t i e) depth root := by
  intro a b u ha hb hda hdb
  rw [descend_grow htree hl hlen habsent hzero hp he hnext ha] at hda
  rw [descend_grow htree hl hlen habsent hzero hp he hnext hb] at hdb
  by_cases hanew : a = l ++ [i]
  · by_cases hbnew : b = l ++ [i]
    · rw [hanew, hbnew]
    · rw [if_pos hanew] at hda
      rw [if_neg hbnew, ← hda] at hdb
      exact absurd hdb (hp b hb)
  · rw [if_neg hanew] at hda
    by_cases hbnew : b = l ++ [i]
    · rw [if_pos hbnew] at hdb
      rw [← hdb] at hda
      exact absurd hda (hp a ha)
    · rw [if_neg hbnew] at hdb
      exact htree a b u ha hb hda hdb

theorem lookup_grow (hpath : path.length + 1 = depth) :
    lookup present next (Radix.store (clear zero mem p) t i e) root path j =
      lookup present next mem root path j := by
  have htp : t ≠ p := by
    intro h
    rw [h] at hl
    exact hp l (by omega) hl
  rw [lookup, lookup, descend_grow htree hl hlen habsent hzero hp he hnext (by omega)]
  by_cases hnew : path = l ++ [i]
  · rw [if_pos hnew, hnew, descend_snoc, hl, bind_some, bind_some, child, habsent,
      if_neg Bool.false_ne_true, store_of_ne fun h => htp h.1.symm, clear_self, hzero,
      if_neg Bool.false_ne_true]
    rfl
  · rw [if_neg hnew]
    cases hd : descend present next mem root path with
    | none => rfl
    | some u =>
      have hup : u ≠ p := by
        intro h
        rw [h] at hd
        exact hp path (by omega) hd
      have hut : ¬ (u = t ∧ j = i) := by
        intro h
        rw [h.1] at hd
        have hpaths := htree path l t (by omega) (by omega) hd hl
        rw [hpaths] at hpath
        omega
      rw [bind_some, bind_some, store_of_ne hut, clear_of_ne hup]

end

end Cleonos.Radix
