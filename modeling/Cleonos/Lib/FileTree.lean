import Mathlib.Data.List.Infix
import Mathlib.Data.List.DropRight

/-!
# Trees of files

A tree of files gives the node at each path, where a path is the list of its components.
-/

namespace Cleonos

open List

universe u

/-- A directory, a file with its bytes, or a device. -/
inductive Node
  | dir
  | file (bytes : List UInt8)
  | device
deriving DecidableEq

/-- The node with bytes at the end of the file. -/
def Node.extend : Node → List UInt8 → Node
  | .file old, bytes => .file (old ++ bytes)
  | n, _ => n

@[simp] theorem Node.extend_nil (n : Node) : n.extend [] = n := by
  cases n <;> simp [extend]

@[simp] theorem Node.extend_extend (n : Node) (a b : List UInt8) :
    (n.extend a).extend b = n.extend (a ++ b) := by
  cases n <;> simp [extend]

/-- What is at each path. -/
structure FileTree (κ : Type u) where
  node : List κ → Option Node
  root : node [] = some .dir
  parent : ∀ k c, node (k ++ [c]) ≠ none → node k = some .dir

namespace FileTree

open List

variable {κ : Type u} {t t' t'' : FileTree κ} {k k' base goal : List κ} {n : Node}
  {bytes : List UInt8}

/-- A path where a directory can be made or a file can be written. -/
def Writable (t : FileTree κ) (k : List κ) : Prop :=
  k ≠ [] ∧ t.node k.dropLast = some .dir ∧ t.node k ≠ some .dir

instance [DecidableEq κ] (t : FileTree κ) (k : List κ) : Decidable (t.Writable k) :=
  inferInstanceAs (Decidable (_ ∧ _ ∧ _))

/-- The tree with another node at a path. -/
def put [DecidableEq κ] (t : FileTree κ) (k : List κ) (n : Node) (h : t.Writable k) :
    FileTree κ where
  node := Function.update t.node k (some n)
  root := by rw [Function.update_of_ne h.1.symm, t.root]
  parent := by
    intro k' c hc
    by_cases hk : k' ++ [c] = k
    · have hparent : t.node k' = some .dir := by
        rw [← h.2.1, ← hk, List.dropLast_concat]
      have hne : k' ≠ k := fun he => h.2.2 (he ▸ hparent)
      rw [Function.update_of_ne hne, hparent]
    · rw [Function.update_of_ne hk] at hc
      have hparent := t.parent k' c hc
      have hne : k' ≠ k := fun he => h.2.2 (he ▸ hparent)
      rw [Function.update_of_ne hne, hparent]

theorem dir_of_prefix (h : k <+: k') (hne : k ≠ k') (hk : t.node k' ≠ none) :
    t.node k = some .dir := by
  obtain ⟨rest, rfl⟩ := h
  induction rest using List.reverseRecOn with
  | nil => exact absurd (append_nil k).symm hne
  | append_singleton rest c ih =>
    rw [← append_assoc] at hk
    have hparent := t.parent _ _ hk
    by_cases hrest : rest = []
    · rwa [hrest, append_nil] at hparent
    · exact ih (by simpa using hrest) (by rw [hparent]; simp)

theorem dir_of_prefix_dir (h : k <+: k') (hk : t.node k' = some .dir) : t.node k = some .dir := by
  by_cases hne : k = k'
  · rw [hne, hk]
  · exact dir_of_prefix h hne (by rw [hk]; simp)

theorem writable_of_file (h : t.node k = some (.file bytes)) : t.Writable k := by
  have hk : k ≠ [] := by
    intro hnil
    rw [hnil, t.root] at h
    exact absurd h (by simp)
  refine ⟨hk, dir_of_prefix (List.dropLast_prefix k) ?_ (by simp [h]), by simp [h]⟩
  intro he
  have hlen := congrArg List.length he
  have hpos := length_pos_of_ne_nil hk
  rw [length_dropLast] at hlen
  omega

/-! ### Operations -/

variable [DecidableEq κ]

/-- A new directory, in one that is there. -/
def mkdir (t : FileTree κ) (k : List κ) : Option (FileTree κ) :=
  if h : t.Writable k ∧ t.node k = none then some (t.put k .dir h.1) else none

/-- A file, made or emptied; a device stays what it is. -/
def create (t : FileTree κ) (k : List κ) : Option (FileTree κ) :=
  if t.node k = some .device then some t
  else if h : t.Writable k then some (t.put k (.file []) h) else none

/-- Bytes at the end of a file. -/
def append (t : FileTree κ) (k : List κ) (bytes : List UInt8) : FileTree κ :=
  match h : t.node k with
  | some (.file old) => t.put k (.file (old ++ bytes)) (writable_of_file h)
  | _ => t

theorem node_put (h : t.Writable k) :
    (t.put k n h).node k' = if k' = k then some n else t.node k' := by
  change Function.update t.node k (some n) k' = _
  rw [Function.update_apply]

theorem mkdir_eq_some (h : t.mkdir k = some t') :
    t.node k = none ∧ ∀ k', t'.node k' = if k' = k then some .dir else t.node k' := by
  rw [mkdir] at h
  split at h
  · rename_i hw
    cases h
    exact ⟨hw.2, fun k' => node_put hw.1⟩
  · exact absurd h (by simp)

theorem create_eq_some (h : t.create k = some t') :
    t.node k = some .device ∧ t' = t ∨
      t.node k ≠ some .device ∧ t.node k ≠ some .dir ∧
        ∀ k', t'.node k' = if k' = k then some (.file []) else t.node k' := by
  rw [create] at h
  split at h
  · rename_i hd
    cases h
    exact .inl ⟨hd, rfl⟩
  · rename_i hd
    split at h
    · rename_i hw
      cases h
      exact .inr ⟨hd, hw.2.2, fun k' => node_put hw⟩
    · exact absurd h (by simp)

theorem node_append_of_ne (h : k' ≠ k) : (t.append k bytes).node k' = t.node k' := by
  rw [append]
  split
  · rw [node_put, if_neg h]
  · rfl

theorem node_append_self :
    (t.append k bytes).node k = (t.node k).map fun n => n.extend bytes := by
  rw [append]
  split
  · rename_i old h
    rw [node_put, if_pos rfl, h]
    rfl
  · rename_i h
    cases hk : t.node k with
    | none => rfl
    | some n =>
      cases n with
      | dir => rfl
      | file old => exact absurd hk (h old)
      | device => rfl

theorem node_append_nil : (t.append k []).node k' = t.node k' := by
  by_cases hk : k' = k
  · subst hk
    rw [node_append_self]
    simp
  · exact node_append_of_ne hk

theorem node_append_append {more : List UInt8} :
    ((t.append k bytes).append k more).node k' = (t.append k (bytes ++ more)).node k' := by
  by_cases hk : k' = k
  · subst hk
    rw [node_append_self, node_append_self, node_append_self, Option.map_map]
    simp [Function.comp_def]
  · rw [node_append_of_ne hk, node_append_of_ne hk, node_append_of_ne hk]

omit [DecidableEq κ]

/-- Nothing changes but at `base` and below it, and directories that are made on the way to it. -/
def Grows (base : List κ) (t t' : FileTree κ) : Prop :=
  ∀ k, t'.node k ≠ t.node k →
    base <+: k ∨ k <+: base ∧ t.node k = none ∧ t'.node k = some .dir

theorem Grows.refl (base : List κ) (t : FileTree κ) : Grows base t t := by
  intro k hk
  exact absurd rfl hk

theorem Grows.trans (h : Grows base t t') (h' : Grows base t' t'') : Grows base t t'' := by
  intro k hk
  by_cases hfirst : t'.node k = t.node k
  · rw [← hfirst] at hk ⊢
    exact h' k hk
  · rcases h k hfirst with hin | ⟨hpre, hnone, hdir⟩
    · exact .inl hin
    · by_cases hsecond : t''.node k = t'.node k
      · exact .inr ⟨hpre, hnone, hsecond.trans hdir⟩
      · rcases h' k hsecond with hin | ⟨-, hnone', -⟩
        · exact .inl hin
        · rw [hdir] at hnone'
          exact absurd hnone' (by simp)

theorem grows_of_eq_off (hk : base <+: k) (h : ∀ k', k' ≠ k → t'.node k' = t.node k') :
    Grows base t t' := by
  intro k' hk'
  by_cases he : k' = k
  · exact .inl (he ▸ hk)
  · exact absurd (h k' he) hk'

theorem Grows.inside (h : Grows base t t') (hbase : t.node base = some .dir)
    (hk : t'.node k ≠ t.node k) : base <+: k := by
  rcases h k hk with hin | ⟨hpre, hnone, -⟩
  · exact hin
  · rw [dir_of_prefix_dir hpre hbase] at hnone
    exact absurd hnone (by simp)

/-- Nothing changes but that directories are made on the way to `goal`. -/
def Rises (goal : List κ) (t t' : FileTree κ) : Prop :=
  ∀ k, t'.node k ≠ t.node k → k <+: goal ∧ t.node k = none ∧ t'.node k = some .dir

theorem Rises.refl (goal : List κ) (t : FileTree κ) : Rises goal t t := by
  intro k hk
  exact absurd rfl hk

theorem Rises.trans (h : Rises goal t t') (h' : Rises goal t' t'') : Rises goal t t'' := by
  intro k hk
  by_cases hfirst : t'.node k = t.node k
  · rw [← hfirst] at hk ⊢
    exact h' k hk
  · obtain ⟨hpre, hnone, hdir⟩ := h k hfirst
    by_cases hsecond : t''.node k = t'.node k
    · exact ⟨hpre, hnone, hsecond.trans hdir⟩
    · have hnone' := (h' k hsecond).2.1
      rw [hdir] at hnone'
      exact absurd hnone' (by simp)

theorem Rises.grows (h : Rises goal t t') (hbase : base <+: goal) : Grows base t t' := by
  intro k hk
  obtain ⟨hpre, hnone, hdir⟩ := h k hk
  rcases prefix_or_prefix_of_prefix hpre hbase with hle | hle
  · exact .inr ⟨hle, hnone, hdir⟩
  · exact .inl hle

variable [DecidableEq κ]

theorem rises_mkdir (hk : k <+: goal) (h : t.mkdir k = some t') : Rises goal t t' := by
  obtain ⟨hnone, hnode⟩ := mkdir_eq_some h
  intro k' hk'
  by_cases he : k' = k
  · subst he
    exact ⟨hk, hnone, by rw [hnode, if_pos rfl]⟩
  · exact absurd (by rw [hnode, if_neg he]) hk'

theorem grows_create (hk : base <+: k) (h : t.create k = some t') : Grows base t t' := by
  rcases create_eq_some h with ⟨-, rfl⟩ | ⟨-, -, hnode⟩
  · exact Grows.refl base _
  · exact grows_of_eq_off hk fun k' he => by rw [hnode, if_neg he]

theorem grows_append (hk : base <+: k) : Grows base t (t.append k bytes) :=
  grows_of_eq_off hk fun _ he => node_append_of_ne he

end FileTree
end Cleonos
