import GraphAccelerator.Bfs.CacheHybrid
import GraphAccelerator.Bfs.Traffic

/-!
# What the vertex cache saves

Every hit in `pingBuffer` stands for one depth that `hybridBfs` reads and
`cacheHybridBfs` does not; in all other branches both count the same.  So the two
searches, which take their rounds side by side, differ in the depths read by the
number of the hits, and in nothing else.
-/

namespace GraphAccelerator.Bfs

open CheckedLoop SparseRows Walks

def isCached (csr : CSR) (out : Nat → List Nat) (v : Nat) : Bool :=
  decide (((out v).length : Int) ≥ csr.cacheThreshold)

structure Saves (level : Int) (pingBuffer : List Nat) (c : CacheTraversal)
    (t : Traversal) : Prop where
  follows : Follows level pingBuffer c t
  saved : c.counters.read c.hits c.hits = t.counters

section

variable {csr : CSR} {edge : Nat → Nat → Prop} {out inn : Nat → List Nat}
variable {level : Int} {depth : List Int} {pingBuffer : List Nat}

section Rounds

end Rounds

section Scans

structure Scanned (csr : CSR) (out : Nat → List Nat) (level wanted : Int) (depth : List Int)
    (counters : Counters) (scan : CacheScan) : Prop where
  frontier : scan.frontier = verticesAt csr.vNum wanted depth
  pingBuffer : scan.pingBuffer = (verticesAt csr.vNum level depth).filter (isCached csr out)
  counters : scan.counters = counters.read csr.vNum (getBurstNum csr.vNum 1)

theorem Scanned.bufferAt {wanted : Int} {counters : Counters} {scan : CacheScan}
    (length : depth.length = csr.vNum)
    (scanned : Scanned csr out level wanted depth counters scan) :
    BufferAt level depth scan.pingBuffer := by
  intro v membership
  rw [scanned.pingBuffer, List.mem_filter, mem_verticesAt length] at membership
  exact membership.1

end Scans

section Walks

theorem Saves.started {c : CacheTraversal} {t : Traversal} (saves : Saves level pingBuffer c t)
    (degree hubs : Int) : Saves level pingBuffer
      { c with
        counters := (c.counters.read 8 1).read 0 (getBurstNum degree 4)
        frontierHubVertexNum := hubs }
      { t with counters := (t.counters.read 8 1).read 0 (getBurstNum degree 4) } := by
  obtain ⟨⟨same, bufferAt⟩, saved⟩ := saves
  refine ⟨⟨⟨same.depth, same.visitedNgbNum, same.inspected⟩, bufferAt⟩, ?_⟩
  simp only [← saved, Counters.read, Counters.mk.injEq, true_and, and_true]
  omega

end Walks

section Runs

theorem Scanned.saves {wanted : Int} {mine : CacheState} {other : HybridState}
    (lockstep : Lockstep csr.vNum mine other)
    (saved : mine.c.counters.read mine.c.hits mine.c.hits = other.t.counters)
    {scan : CacheScan}
    (scanned : Scanned csr out other.level wanted other.t.depth mine.c.counters scan)
    {counters : Counters}
    (counted : counters = other.t.counters.read csr.vNum (getBurstNum csr.vNum 1))
    (visitedNgbNum : Int) :
    Saves other.level scan.pingBuffer
      { mine.c with counters := scan.counters, frontierHubVertexNum := 0, visitedNgbNum }
      { other.t with counters, visitedNgbNum } := by
  refine ⟨⟨⟨lockstep.same.depth, rfl, lockstep.same.inspected⟩,
    scanned.bufferAt lockstep.length⟩, ?_⟩
  simp only [counted, ← saved, scanned.counters, Counters.read, Counters.mk.injEq, true_and,
    and_true]
  omega

end Runs

end

end GraphAccelerator.Bfs
