import GraphAccelerator.Adjacency
import GraphAccelerator.Library.SparseRows

/-!
# The compressed graph of the software search

`CSR::CSR` stores the out-neighbours of every vertex one after the other in
`ciao`, the in-neighbours in `ciai`, and the running sums of the degrees in `rpao`
and `rpai`.  `Represents` is the interface the searches rely on: the rows are the
two adjacencies of one edge relation.
-/

namespace GraphAccelerator.Bfs

open SparseRows

/-- The weights are not stored: no search reads them. -/
structure CSR where
  vNum : Nat
  eNum : Nat
  rpao : List Nat
  ciao : List Nat
  rpai : List Nat
  ciai : List Nat
  alpha : Float32 := 0.2
  beta : Float32 := 0.1
  hubVertexThreshold : Int := 1024
  cacheThreshold : Int := 256
  bucketNum : Int := 1024

def graph (isUgraph : Bool) (data : List (List Int)) : Option Graph :=
  Graph.ofRows isUgraph data.length data

namespace CSR

/-- `rpao[i+1] = rpao[i] + outDeg` from `rpao[0] = 0`, and the same for `rpai`. -/
def ofGraph (g : Graph) : CSR where
  vNum := g.vertexNum
  eNum := g.edgeNum
  rpao := (g.vertices.map (·.outDeg)).scanl (· + ·) 0
  ciao := g.vertices.flatMap (·.outVid)
  rpai := (g.vertices.map (·.inDeg)).scanl (· + ·) 0
  ciai := g.vertices.flatMap (·.inVid)

def setBfsParam (csr : CSR) (alpha beta : Float32)
    (hubVertexThreshold cacheThreshold bucketNum : Int) : CSR :=
  { csr with alpha, beta, hubVertexThreshold, cacheThreshold, bucketNum }

def ofPairs (isUgraph : Bool) (edges : List (Nat × Nat)) : Option CSR :=
  (graph isUgraph (pairRows edges)).map ofGraph

structure Represents (csr : CSR) (edge : Nat → Nat → Prop)
    (out inn : Nat → List Nat) : Prop where
  outRow : ∀ v, v < csr.vNum → RowAt csr.rpao csr.ciao v (out v)
  inRow : ∀ v, v < csr.vNum → RowAt csr.rpai csr.ciai v (inn v)
  mem_out : ∀ u v, v ∈ out u ↔ edge u v
  mem_inn : ∀ u v, u ∈ inn v ↔ edge u v
  edge_lt : ∀ u v, edge u v → u < csr.vNum ∧ v < csr.vNum

theorem Represents.out_lt {csr : CSR} {edge : Nat → Nat → Prop} {out inn : Nat → List Nat}
    (rep : csr.Represents edge out inn) {u v : Nat} (membership : v ∈ out u) : v < csr.vNum :=
  (rep.edge_lt u v ((rep.mem_out u v).mp membership)).2

theorem Represents.inn_lt {csr : CSR} {edge : Nat → Nat → Prop} {out inn : Nat → List Nat}
    (rep : csr.Represents edge out inn) {u v : Nat} (membership : u ∈ inn v) : u < csr.vNum :=
  (rep.edge_lt u v ((rep.mem_inn u v).mp membership)).1

theorem Represents.setBfsParam {csr : CSR} {edge : Nat → Nat → Prop}
    {out inn : Nat → List Nat} (rep : csr.Represents edge out inn)
    (alpha beta : Float32) (hubVertexThreshold cacheThreshold bucketNum : Int) :
    (csr.setBfsParam alpha beta hubVertexThreshold cacheThreshold bucketNum).Represents
      edge out inn where
  outRow := rep.outRow
  inRow := rep.inRow
  mem_out := rep.mem_out
  mem_inn := rep.mem_inn
  edge_lt := rep.edge_lt

/-- The arrays of the constructor are the encoding of the adjacency lists. -/
theorem rowAt_of_rows {vNum : Nat} {adjacency : Nat → List Nat} {rows : List (List Nat)}
    (stored : rows = (List.range vNum).map adjacency) {v : Nat} (bound : v < vNum) :
    RowAt ((rows.map List.length).scanl (· + ·) 0) rows.flatten v (adjacency v) := by
  apply encode_rowAt
  simp [stored, bound]

theorem ofGraph_represents {g : Graph} {isUgraph : Bool} {edges : List (Nat × Nat)}
    (built : g.BuiltFrom isUgraph edges) :
    (ofGraph g).Represents (Edge isUgraph edges)
      (outNgbs isUgraph edges) (inNgbs isUgraph edges) := by
  obtain ⟨outDegs, inDegs⟩ := built.degrees
  constructor
  · intro v bound
    have row := rowAt_of_rows built.outVid_eq bound
    rwa [← outDegs, ← List.flatMap_def] at row
  · intro v bound
    have row := rowAt_of_rows built.inVid_eq bound
    rwa [← inDegs, ← List.flatMap_def] at row
  · exact fun u v => mem_outNgbs
  · exact fun u v => mem_inNgbs
  · exact fun u v edge => built.edge_lt edge

theorem exists_of_ofPairs {isUgraph : Bool} {edges : List (Nat × Nat)} {csr : CSR}
    (constructed : ofPairs isUgraph edges = some csr) :
    ∃ g, ofGraph g = csr ∧ g.BuiltFrom isUgraph edges ∧
      ∀ pair ∈ edges, pair.1 < 2 ^ 31 - 1 ∧ pair.2 < 2 ^ 31 - 1 := by
  rw [ofPairs, Option.map_eq_some_iff] at constructed
  obtain ⟨g, loaded, same⟩ := constructed
  exact ⟨g, same, (Graph.builtFrom_of_ofRows loaded).2.2, Graph.ofRows_small loaded⟩

/-- A compressed graph constructed from pairs represents exactly their edges. -/
theorem ofPairs_represents {isUgraph : Bool} {edges : List (Nat × Nat)} {csr : CSR}
    (constructed : ofPairs isUgraph edges = some csr) :
    csr.Represents (Edge isUgraph edges) (outNgbs isUgraph edges) (inNgbs isUgraph edges) := by
  obtain ⟨g, rfl, built, _⟩ := exists_of_ofPairs constructed
  exact ofGraph_represents built

end CSR

end GraphAccelerator.Bfs
