import Foculus.Data.FileTree
import Mathlib.Algebra.Order.BigOperators.Group.Finset

namespace Foculus.Data.FileTree

/-! How much is in the files of a directory.

Of a directory only the files with certain names are counted; subdirectories do not
count, whatever is in them.
-/

def fileSize : Option Node → Nat
  | some (.file content) => content.length
  | _ => 0

/-- The size of the files of `dir` that have one of the names. -/
def usage (names : Finset String) (dir : Location) (tree : FileTree) : Nat :=
  ∑ name ∈ names, fileSize (tree.node (name :: dir))

section Usage

variable {names : Finset String} {dir place : Location} {name : String} {tree after : FileTree}
  {node : Option Node}

theorem fileSize_le_usage (counted : name ∈ names) :
    fileSize (tree.node (name :: dir)) ≤ usage names dir tree :=
  Finset.single_le_sum (f := fun name => fileSize (tree.node (name :: dir)))
    (fun _ _ => Nat.zero_le _) counted

theorem usage_congr (same : ∀ name ∈ names,
    fileSize (after.node (name :: dir)) = fileSize (tree.node (name :: dir))) :
    usage names dir after = usage names dir tree := Finset.sum_congr rfl same

theorem usage_eq_zero_iff :
    usage names dir tree = 0 ↔ ∀ name ∈ names, fileSize (tree.node (name :: dir)) = 0 :=
  Finset.sum_eq_zero_iff

/-- A change at one of the names is a change of the usage. -/
theorem usage_update (updated : after.node = Function.update tree.node (name :: dir) node)
    (counted : name ∈ names) :
    usage names dir after + fileSize (tree.node (name :: dir)) =
      usage names dir tree + fileSize node := by
  have others : ∀ other ∈ names.erase name,
      fileSize (after.node (other :: dir)) = fileSize (tree.node (other :: dir)) := by
    intro other member
    rw [updated, Function.update_of_ne]
    exact fun same => Finset.ne_of_mem_erase member (List.cons.inj same).1
  have rest := Finset.sum_congr rfl others
  rw [usage, usage, ← Finset.add_sum_erase _ _ counted, ← Finset.add_sum_erase _ _ counted, rest,
    updated, Function.update_self]
  omega

/-- A change anywhere else is not. -/
theorem usage_update_elsewhere (updated : after.node = Function.update tree.node place node)
    (elsewhere : ∀ name ∈ names, name :: dir ≠ place) :
    usage names dir after = usage names dir tree := by
  refine usage_congr fun name counted => ?_
  rw [updated, Function.update_of_ne (elsewhere name counted)]

/-- New directories take no room. -/
theorem usage_keptByNewDirs (size : Nat) :
    KeptByNewDirs fun tree => usage names dir tree = size := by
  intro tree after place held absent _ updated
  rw [← held]
  refine usage_congr fun name _ => ?_
  rw [updated, Function.update_apply]
  split_ifs with here
  · rw [here, Option.not_isSome_iff_eq_none.mp (Bool.eq_false_iff.mp absent)]
    rfl
  · rfl

end Usage

end Foculus.Data.FileTree
