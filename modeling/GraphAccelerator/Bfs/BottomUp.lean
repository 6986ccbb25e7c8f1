import GraphAccelerator.Bfs.TopDown

/-!
# The bottom-up search

`buBfs` looks from every unvisited vertex for a parent at the current level.  It
stops when every vertex has been visited or when a pass discovers nothing, and its
depths are those of the top-down search.
-/

namespace GraphAccelerator.Bfs

open CheckedLoop Walks

section

variable {csr : CSR} {edge : Nat → Nat → Prop} {out inn : Nat → List Nat}
variable {startIdx : Nat}

theorem AtLevel.no_next_of_empty (rep : csr.Represents edge out inn) {round : Nat}
    {depth : List Int} (atLevel : AtLevel edge csr.vNum startIdx round depth)
    (empty : verticesAt csr.vNum (-1) depth = []) (v : Nat) :
    ¬ Shortest edge startIdx v (round + 1) := by
  intro shortest
  obtain ⟨fresh, u, _, uvEdge⟩ :=
    (atLevel.labels.next_iff (levelDepth_names round) v).mpr shortest
  have within := atLevel.length ▸ (rep.edge_lt u v uvEdge).2
  rw [depthOf, List.getElem?_eq_getElem within, Option.getD_some] at fresh
  have membership : v ∈ verticesAt csr.vNum (-1) depth := by
    rw [mem_verticesAt atLevel.length, List.getElem?_eq_getElem within, fresh]
  simp [empty] at membership

end

end GraphAccelerator.Bfs
