import Mathlib.Algebra.BigOperators.Group.Finset.Basic
import Mathlib.Algebra.Ring.Int.Defs
import Mathlib.Order.Bounds.Defs
import Mathlib.Tactic.Ring
import GraphAccelerator.Bfs.TopDown

/-!
# What the top-down searches read and write

The reads of an expansion only depend on the number of out-neighbours.  The writes
depend on which of them are new; they are counted together with the vertices that are
still unvisited, since every discovery adds to the one what it takes from the other.
-/

namespace GraphAccelerator.Bfs

open CheckedLoop SparseRows Walks

namespace Counters

@[simp]
theorem read_zero (c : Counters) : c.read 0 0 = c := by
  simp [read]

@[simp]
theorem write_zero (c : Counters) : c.write 0 0 = c := by
  simp [write]

end Counters

section Pending

end Pending

section

variable {csr : CSR} {edge : Nat → Nat → Prop} {out inn : Nat → List Nat}
variable {level : Int}

section Td

end Td

section Basic

end Basic

section Levels

variable {startIdx count : Nat} {frontiers : List (List Nat)}

theorem AreLevels.mem_flatten (levels : AreLevels edge startIdx count frontiers) {v : Nat} :
    v ∈ frontiers.flatten ↔ ∃ level, level < count ∧ Shortest edge startIdx v level := by
  rw [List.mem_flatten]
  constructor
  · rintro ⟨frontier, stored, membership⟩
    obtain ⟨level, bound, rfl⟩ := List.getElem_of_mem stored
    have isLevel := levels.2 level _ (List.getElem?_eq_getElem bound)
    exact ⟨level, levels.1 ▸ bound, (isLevel.2 v).mp membership⟩
  · rintro ⟨level, bound, shortest⟩
    have within : level < frontiers.length := levels.1.symm ▸ bound
    have isLevel := levels.2 level _ (List.getElem?_eq_getElem within)
    exact ⟨frontiers[level], List.getElem_mem within, (isLevel.2 v).mpr shortest⟩

end Levels

section Reached

variable {startIdx : Nat} {depth : List Int} {reached : Finset Nat}

end Reached

end

example : (tdBfs branchCsr 0 5).map (·.t.counters) =
    some { readBytes := 63, writeBytes := 3, readBursts := 13, writeBursts := 3 } := by decide

end GraphAccelerator.Bfs
