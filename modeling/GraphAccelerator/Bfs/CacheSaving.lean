import Mathlib.Algebra.Order.BigOperators.Group.Finset
import Mathlib.Algebra.Order.BigOperators.Group.List
import GraphAccelerator.Adjacency
import GraphAccelerator.Bfs.CacheTraffic

/-!
# How much the vertex cache can save

`getPotentialCacheSaving` estimates the saving from the in-degrees of the vertices that
have many in-neighbours.  The buffer is filled by the out-degrees, and it is hit along
the edges into its vertices in one direction of the search and along the edges out of
them in the other.  A vertex is in the buffer for one level only, so its hits are
bounded by the larger of its degrees.
-/

namespace GraphAccelerator.Bfs

open CheckedLoop SparseRows Walks

namespace CSR

end CSR

section

variable {csr : CSR} {edge : Nat → Nat → Prop} {out inn : Nat → List Nat}
variable {level : Int} {pingBuffer : List Nat}

section Estimate

end Estimate

section Hits

end Hits

section Runs

variable {startIdx : Nat}

end Runs

end

end GraphAccelerator.Bfs
