import Cleonos.Lib.FileTree
import Cleonos.Lib.LexicalPath

/-!
# Paths of the kernel

How the kernel reads the path of a system call, as `docs/syscall.md` has it, and what it tells of
the file there.
-/

namespace Cleonos.Kernel

open LexicalPath

variable {s front rest : List UInt8} {key : List (List UInt8)}

/-- `USH_PATH_MAX`, and the kernel's own bound on a path. -/
def pathMax : ℕ := 192

/-- The kernel's form of a path: it is absolute and short enough, `.` and repeated slashes do
not count, and a path with `..` is refused. -/
def kernelPath (path : List UInt8) : Option (List (List UInt8)) :=
  if path.head? = some slash ∧ path.length < pathMax ∧ [dot, dot] ∉ components path then
    some ((components path).filter (· ≠ [dot]))
  else none

/-- `cleonos_sys_fs_stat_type`: 1 for a file, 2 for a directory. -/
def statType (tree : FileTree (List UInt8)) (path : List UInt8) : UInt64 :=
  match (kernelPath path).bind tree.node with
  | some .dir => 2
  | some (.file _) => 1
  | some .device => 1
  | none => 0 - 1

theorem kernelPath_eq_some (h : kernelPath s = some key) :
    s.head? = some slash ∧ [dot, dot] ∉ components s ∧ key = normalise (components s) := by
  rw [kernelPath] at h
  split at h
  · rename_i hs
    cases h
    exact ⟨hs.1, hs.2.2, (normalise_of_no_dotdot hs.2.2).symm⟩
  · exact absurd h (by simp)

theorem kernelPath_prefix (hs : [dot, dot] ∉ components (front ++ slash :: rest))
    (h : kernelPath front = some key) :
    key <+: normalise (components (front ++ slash :: rest)) := by
  obtain ⟨-, hfront, rfl⟩ := kernelPath_eq_some h
  rw [normalise_of_no_dotdot hs, normalise_of_no_dotdot hfront, components_append_slash,
    List.filter_append]
  exact List.prefix_append _ _

theorem statType_eq_two {tree : FileTree (List UInt8)} (h : statType tree s = 2) :
    ∃ key, kernelPath s = some key ∧ tree.node key = some .dir := by
  rw [statType] at h
  split at h
  · rename_i hdir
    exact Option.bind_eq_some_iff.1 hdir
  · exact absurd h (by decide)
  · exact absurd h (by decide)
  · exact absurd h (by decide)

end Cleonos.Kernel
