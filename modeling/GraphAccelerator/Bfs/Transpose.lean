import GraphAccelerator.Adjacency
import GraphAccelerator.Bfs.Csr

/-!
# The two halves of the compressed graph

`ciao` with `rpao` and `ciai` with `rpai` hold the same edges sorted by their two ends:
each is the transpose of the other, with all multiplicities.
-/

namespace GraphAccelerator.Bfs

open SparseRows

def intPointers (pointers : List Nat) : List Int :=
  pointers.map fun pointer : Nat => Int.bmod pointer (2 ^ 32)

/-- The row pointers of a half start at 0, do not decrease and end at the number of its
columns. -/
structure Delimits (vNum : Nat) (pointers : List Int) (columns : List Nat) : Prop where
  length : pointers.length = vNum + 1
  start : pointers[0]? = some 0
  sorted : pointers.Pairwise (· ≤ ·)
  stop : pointers[vNum]? = some (columns.length : Int)

section Rows

variable {pointers columns row : List Nat} {index : Nat}

/-- The loop of the constructor, which adds `int`s. -/
theorem intPointers_scanl (start : Nat) (degrees : List Nat) :
    intPointers (degrees.scanl (· + ·) start) =
      degrees.scanl (fun (pointer : Int) (degree : Nat) =>
        Int.bmod (pointer + Int.bmod degree (2 ^ 32)) (2 ^ 32)) (Int.bmod start (2 ^ 32)) := by
  induction degrees generalizing start with
  | nil => simp [intPointers]
  | cons degree degrees inductionHypothesis =>
      rw [List.scanl_cons, List.scanl_cons, Int.add_bmod_bmod, Int.bmod_add_bmod,
        ← Int.natCast_add, ← inductionHypothesis, intPointers, intPointers, List.map_cons]

theorem Delimits.small {vNum : Nat} (delimited : Delimits vNum (intPointers pointers) columns) :
    columns.length < 2 ^ 31 := by
  have stop := delimited.stop
  rw [intPointers, List.getElem?_map, Option.map_eq_some_iff] at stop
  obtain ⟨pointer, _, same⟩ := stop
  have := @Int.bmod_lt pointer (2 ^ 32) (by decide)
  omega

end Rows

variable {isUgraph : Bool} {edges : List (Nat × Nat)}

theorem ofGraph_columns_lt {g : Graph} (built : g.BuiltFrom isUgraph edges) :
    (∀ v ∈ (CSR.ofGraph g).ciao, v < g.vertexNum) ∧
      ∀ u ∈ (CSR.ofGraph g).ciai, u < g.vertexNum := by
  constructor
  · intro v membership
    change v ∈ g.vertices.flatMap (·.outVid) at membership
    rw [List.flatMap_def, built.outVid_eq, ← List.flatMap_def, List.mem_flatMap] at membership
    obtain ⟨u, _, stored⟩ := membership
    exact (built.edge_lt (mem_outNgbs.mp stored)).2
  · intro u membership
    change u ∈ g.vertices.flatMap (·.inVid) at membership
    rw [List.flatMap_def, built.inVid_eq, ← List.flatMap_def, List.mem_flatMap] at membership
    obtain ⟨v, _, stored⟩ := membership
    exact (built.edge_lt (mem_inNgbs.mp stored)).1

end GraphAccelerator.Bfs
