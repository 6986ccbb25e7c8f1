import GraphAccelerator.Bfs.BottomUp

/-!
# The hybrid search

`hybridBfs` chooses the direction of every level: it leaves the top-down direction
when the hub vertices of the frontier make up a large enough share, and returns to
it when few vertices were discovered.  The comparisons are those of the source, in
floating point; nothing below depends on what they answer.
-/

namespace GraphAccelerator.Bfs

open CheckedLoop SparseRows Walks

namespace CSR

/-- `rpao[idx+1] - rpao[idx]` -/
def outDegree (csr : CSR) (idx : Nat) : Option Int := do
  return ((← csr.rpao[idx + 1]?) : Int) - (← csr.rpao[idx]?)

def getHubVertexNum (csr : CSR) : Option Int := do
  let hubVertexNum ← (List.range csr.vNum).foldlM
    (fun (hubVertexNum : Int) idx => do
      let degree ← csr.outDegree idx
      return if degree ≥ csr.hubVertexThreshold then hubVertexNum + 1 else hubVertexNum) 0
  return if hubVertexNum = 0 then 1 else hubVertexNum

end CSR

/-- `frontierHubVertexNum * 1.0 / totalHubVertexNum`, stored as a `float`; a division
by zero is a fault. -/
def hubPercentage (frontierHubVertexNum totalHubVertexNum : Int) : Option Float32 :=
  if totalHubVertexNum = 0 then none
  else some (Float.ofInt frontierHubVertexNum * 1.0 / Float.ofInt totalHubVertexNum).toFloat32

structure HybridScan where
  frontier : List Nat := []
  frontierHubVertexNum : Int := 0
  counters : Counters
  deriving DecidableEq, Repr

def countHub (csr : CSR) (idx : Nat) (scan : HybridScan) : Option HybridScan := do
  let degree ← csr.outDegree idx
  return if degree ≥ csr.hubVertexThreshold
    then { scan with frontierHubVertexNum := scan.frontierHubVertexNum + 1 } else scan

def scanTopDown (csr : CSR) (level : Int) (depth : List Int) (counters : Counters) :
    Option HybridScan :=
  (List.range csr.vNum).foldlM
    (fun (scan : HybridScan) idx => do
      let d ← depth[idx]?
      let scan := { scan with counters := scan.counters.read 1 0 }
      if d = level then countHub csr idx { scan with frontier := scan.frontier ++ [idx] }
      else return scan)
    { counters := counters.read 0 (getBurstNum csr.vNum 1) }

def scanBottomUp (csr : CSR) (level : Int) (depth : List Int) (counters : Counters) :
    Option HybridScan :=
  (List.range csr.vNum).foldlM
    (fun (scan : HybridScan) idx => do
      let d ← depth[idx]?
      let scan := { scan with counters := scan.counters.read 1 0 }
      if d = -1 then return { scan with frontier := scan.frontier ++ [idx] }
      else if d = level then countHub csr idx scan
      else return scan)
    { counters := counters.read 0 (getBurstNum csr.vNum 1) }

structure HybridState where
  level : Int := 0
  t : Traversal
  topDown : Bool := true
  bfsType : List Bool := []
  frontierDist : List Nat := []
  frontierHubVertex : List Int := []
  deriving DecidableEq, Repr

def nextDirection (csr : CSR) (topDown : Bool) (hubPercentage : Float32)
    (visitedNgbNum : Int) : Bool :=
  if topDown && hubPercentage ≥ csr.alpha then false
  else if !topDown && Float32.ofInt visitedNgbNum ≤ csr.beta then true
  else topDown

def hybridRound (csr : CSR) (totalHubVertexNum : Int) (s : HybridState) :
    Option (HybridState × Bool) := do
  let scan ← if s.topDown then scanTopDown csr s.level s.t.depth s.t.counters
    else scanBottomUp csr s.level s.t.depth s.t.counters
  let t ← if s.topDown then
      topDown csr s.level scan.frontier { s.t with counters := scan.counters }
    else
      bottomUp csr s.level scan.frontier
        { s.t with counters := scan.counters, visitedNgbNum := 0 }
  let eofBfs := scan.frontier.isEmpty || !s.topDown && t.visitedNgbNum == 0
  let percentage ← hubPercentage scan.frontierHubVertexNum totalHubVertexNum
  return ({
    level := s.level + 1
    t
    topDown := nextDirection csr s.topDown percentage t.visitedNgbNum
    bfsType := s.bfsType ++ [s.topDown]
    frontierDist := s.frontierDist ++ [scan.frontier.length]
    frontierHubVertex := s.frontierHubVertex ++ [scan.frontierHubVertexNum] }, !eofBfs)

def hybridBfs (csr : CSR) (startIdx rounds : Nat) : Option HybridState := do
  let depth ← initDepth csr.vNum startIdx
  let totalHubVertexNum ← csr.getHubVertexNum
  doWhile (hybridRound csr totalHubVertexNum) rounds { t := { depth } }

section

variable {csr : CSR} {edge : Nat → Nat → Prop} {out inn : Nat → List Nat}
variable {startIdx : Nat}

theorem outDegree_eq (rep : csr.Represents edge out inn) {idx : Nat} (bound : idx < csr.vNum) :
    csr.outDegree idx = some ((out idx).length : Int) := by
  obtain ⟨first, firstRead, lastRead, _⟩ := rep.outRow idx bound
  simp only [CSR.outDegree, firstRead, lastRead, Option.bind_eq_bind, Option.bind_some,
    Option.pure_def, Option.some.injEq]
  omega

def isHub (csr : CSR) (out : Nat → List Nat) (v : Nat) : Bool :=
  decide (((out v).length : Int) ≥ csr.hubVertexThreshold)

/-- The total is never zero, so the share is always defined. -/
theorem getHubVertexNum_pos (rep : csr.Represents edge out inn) :
    ∃ total, csr.getHubVertexNum = some total ∧ 0 < total := by
  obtain ⟨count, counted, nonneg⟩ := foldlM_total
    (fun (hubVertexNum : Int) idx => do
      let degree ← csr.outDegree idx
      return if degree ≥ csr.hubVertexThreshold then hubVertexNum + 1 else hubVertexNum)
    (fun _ count => 0 ≤ count) (List.range csr.vNum) 0 le_rfl (by
      intro done idx rest count split nonneg
      have bound : idx < csr.vNum := by
        have : idx ∈ List.range csr.vNum := by simp [split]
        exact List.mem_range.mp this
      refine ⟨_, by simp only [outDegree_eq rep bound, Option.bind_eq_bind,
        Option.bind_some]; rfl, ?_⟩
      split <;> omega)
  refine ⟨if count = 0 then 1 else count, ?_, by split <;> omega⟩
  rw [CSR.getHubVertexNum, counted]
  rfl

theorem hubPercentage_isSome {total : Int} (positive : 0 < total) (hubs : Int) :
    ∃ share, hubPercentage hubs total = some share :=
  ⟨_, if_neg (by omega)⟩

theorem mem_range_of_split {vNum idx : Nat} {done rest : List Nat}
    (split : List.range vNum = done ++ idx :: rest) : idx < vNum := by
  have : idx ∈ List.range vNum := by simp [split]
  exact List.mem_range.mp this

theorem scanTopDown_eq (rep : csr.Represents edge out inn) {depth : List Int}
    (length : depth.length = csr.vNum) (level : Int) (counters : Counters) :
    ∃ scan, scanTopDown csr level depth counters = some scan ∧
      scan.frontier = verticesAt csr.vNum level depth ∧
      scan.frontierHubVertexNum = ((scan.frontier.filter (isHub csr out)).length : Int) := by
  obtain ⟨scan, scanned, frontierEq, hubs⟩ := foldlM_total
    (fun (scan : HybridScan) idx => do
      let d ← depth[idx]?
      let scan := { scan with counters := scan.counters.read 1 0 }
      if d = level then countHub csr idx { scan with frontier := scan.frontier ++ [idx] }
      else return scan)
    (fun done scan => scan.frontier = done.filter (fun v => depth[v]? = some level) ∧
      scan.frontierHubVertexNum = ((scan.frontier.filter (isHub csr out)).length : Int))
    (List.range csr.vNum) { counters := counters.read 0 (getBurstNum csr.vNum 1) }
    (by simp) (by
      rintro done idx rest scan split ⟨frontierEq, hubs⟩
      have bound := mem_range_of_split split
      have within : idx < depth.length := length ▸ bound
      simp only [List.getElem?_eq_getElem within, Option.bind_eq_bind, Option.bind_some,
        Option.pure_def, countHub, outDegree_eq rep bound]
      by_cases isLevel : depth[idx] = level
      · rw [if_pos isLevel]
        refine ⟨_, rfl, ?_⟩
        by_cases hub : ((out idx).length : Int) ≥ csr.hubVertexThreshold <;>
          simp [hub, frontierEq, hubs, isLevel, List.filter_append, isHub,
            List.getElem?_eq_getElem within]
      · rw [if_neg isLevel]
        exact ⟨_, rfl, by simp [frontierEq, isLevel, List.filter_append,
          List.getElem?_eq_getElem within], hubs⟩)
  exact ⟨scan, scanned, frontierEq, hubs⟩

theorem scanBottomUp_eq (rep : csr.Represents edge out inn) {depth : List Int}
    (length : depth.length = csr.vNum) (level : Int) (counters : Counters) :
    ∃ scan, scanBottomUp csr level depth counters = some scan ∧
      scan.frontier = verticesAt csr.vNum (-1) depth := by
  obtain ⟨scan, scanned, frontierEq⟩ := foldlM_total
    (fun (scan : HybridScan) idx => do
      let d ← depth[idx]?
      let scan := { scan with counters := scan.counters.read 1 0 }
      if d = -1 then return { scan with frontier := scan.frontier ++ [idx] }
      else if d = level then countHub csr idx scan
      else return scan)
    (fun done scan => scan.frontier = done.filter (fun v => depth[v]? = some (-1)))
    (List.range csr.vNum) { counters := counters.read 0 (getBurstNum csr.vNum 1) }
    (by simp) (by
      intro done idx rest scan split frontierEq
      have bound := mem_range_of_split split
      have within : idx < depth.length := length ▸ bound
      simp only [List.getElem?_eq_getElem within, Option.bind_eq_bind, Option.bind_some,
        Option.pure_def, countHub, outDegree_eq rep bound]
      by_cases fresh : depth[idx] = -1
      · rw [if_pos fresh]
        exact ⟨_, rfl, by simp [frontierEq, fresh, List.filter_append,
          List.getElem?_eq_getElem within]⟩
      · rw [if_neg fresh]
        by_cases isLevel : depth[idx] = level
        · rw [if_pos isLevel]
          refine ⟨_, rfl, ?_⟩
          split <;> simp [frontierEq, fresh, List.filter_append,
            List.getElem?_eq_getElem within]
        · rw [if_neg isLevel]
          exact ⟨_, rfl, by simp [frontierEq, fresh, List.filter_append,
            List.getElem?_eq_getElem within]⟩)
  exact ⟨scan, scanned, frontierEq⟩

structure HybridInvariant (csr : CSR) (edge : Nat → Nat → Prop) (startIdx round : Nat)
    (s : HybridState) : Prop where
  level : s.level = levelDepth round
  atLevel : AtLevel edge csr.vNum startIdx round s.t.depth

theorem hybridRound_spec (rep : csr.Represents edge out inn) (bound : startIdx < csr.vNum)
    {total : Int} (positive : 0 < total) {round : Nat} {s : HybridState}
    (invariant : HybridInvariant csr edge startIdx round s) :
    ∃ next again, hybridRound csr total s = some (next, again) ∧
      (again = true → HybridInvariant csr edge startIdx (round + 1) next) ∧
      (again = false → ShortestDepths edge csr.vNum startIdx next.t.depth) := by
  have atLevel := invariant.atLevel
  cases direction : s.topDown with
  | true =>
      obtain ⟨scan, scanned, frontierEq, _⟩ :=
        scanTopDown_eq rep atLevel.length (levelDepth round) s.t.counters
      obtain ⟨share, shareEq⟩ := hubPercentage_isSome positive scan.frontierHubVertexNum
      obtain ⟨t, walked, length, advanced, _⟩ :=
        AtLevel.topDown rep (t := { s.t with counters := scan.counters }) atLevel
      refine ⟨_, _, by simp only [hybridRound, direction, invariant.level, if_true, scanned,
        Option.bind_eq_bind, Option.bind_some, frontierEq, walked, shareEq,
        Option.pure_def]; rfl, ?_, ?_⟩
      · intro again
        obtain ⟨v, membership⟩ : ∃ v, v ∈ verticesAt csr.vNum (levelDepth round) s.t.depth := by
          apply List.exists_mem_of_ne_nil
          simpa using again
        exact ⟨levelDepth_succ round,
          atLevel.next rep bound length advanced (atLevel.mem_frontier.mp membership)⟩
      · intro stopped
        apply atLevel.finish length advanced
        intro v shortest
        obtain ⟨u, earlier⟩ := shortest.exists_earlier (Nat.le_succ round)
        have membership := atLevel.mem_frontier.mpr earlier
        have empty : verticesAt csr.vNum (levelDepth round) s.t.depth = [] := by
          simpa using stopped
        simp [empty] at membership
  | false =>
      obtain ⟨scan, scanned, frontierEq⟩ :=
        scanBottomUp_eq rep atLevel.length (levelDepth round) s.t.counters
      obtain ⟨share, shareEq⟩ := hubPercentage_isSome positive scan.frontierHubVertexNum
      obtain ⟨t, walked, length, advanced, visited⟩ := AtLevel.bottomUp rep
        (t := { s.t with counters := scan.counters, visitedNgbNum := 0 }) atLevel rfl
      refine ⟨_, _, by simp only [hybridRound, direction, invariant.level, Bool.false_eq_true,
        if_false, scanned, Option.bind_eq_bind, Option.bind_some, frontierEq, walked, shareEq,
        Option.pure_def]; rfl, ?_, ?_⟩
      · intro again
        have found : t.visitedNgbNum ≠ 0 := by
          simp only [Bool.not_eq_true', Bool.or_eq_false_iff, Bool.not_false, Bool.true_and,
            beq_eq_false_iff_ne] at again
          exact again.2
        obtain ⟨v, shortest⟩ := not_forall_not.mp (visited.not.mp found)
        obtain ⟨u, earlier⟩ := shortest.exists_earlier (Nat.le_succ round)
        exact ⟨levelDepth_succ round, atLevel.next rep bound length advanced earlier⟩
      · intro stopped
        apply atLevel.finish length advanced
        simp only [Bool.not_eq_false', Bool.or_eq_true, List.isEmpty_iff, Bool.not_false,
          Bool.true_and, beq_iff_eq] at stopped
        rcases stopped with empty | none
        · exact atLevel.no_next_of_empty rep empty
        · exact visited.mp none

theorem hybridBfs_spec (rep : csr.Represents edge out inn) (bound : startIdx < csr.vNum) :
    ∃ final, (∀ rounds, csr.vNum < rounds → hybridBfs csr startIdx rounds = some final) ∧
      ShortestDepths edge csr.vNum startIdx final.t.depth := by
  obtain ⟨depth, initialized, atLevel⟩ := initDepth_atLevel edge bound
  obtain ⟨total, totalEq, positive⟩ := getHubVertexNum_pos rep
  obtain ⟨final, finished, depths⟩ := doWhile_total (hybridRound csr total)
    (HybridInvariant csr edge startIdx)
    (fun s => ShortestDepths edge csr.vNum startIdx s.t.depth) csr.vNum
    { t := { depth } } ⟨rfl, atLevel⟩
    (fun round s invariant =>
      ⟨invariant.atLevel.within, hybridRound_spec rep bound positive invariant⟩)
  refine ⟨final, fun rounds enough => ?_, depths⟩
  simp only [hybridBfs, initialized, totalEq, Option.bind_eq_bind, Option.bind_some]
  exact finished rounds enough

end

end GraphAccelerator.Bfs
