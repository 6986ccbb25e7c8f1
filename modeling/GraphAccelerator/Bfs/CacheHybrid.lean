import GraphAccelerator.Bfs.Hybrid

/-!
# The hybrid search with a vertex cache

`cacheHybridBfs` keeps the vertices of the current level whose degree reaches
`cacheThreshold` in `pingBuffer` and answers a depth test for them without reading
the depth.  Since the buffer is refilled from the depths of each level it only holds
vertices of that level, and every round makes the same changes to the depths, in the
same direction, as the round of `hybridBfs`.
-/

namespace GraphAccelerator.Bfs

open CheckedLoop SparseRows Walks

namespace CSR

def isInBuffer (buffer : List Nat) (idx : Nat) : Bool :=
  buffer.contains idx

end CSR

/-- What a walk over the frontier changes.  Two fields are history variables:
`inspected`, as in `Traversal`, and `hits`, the number of inspected neighbours that
were found in the buffer. -/
structure CacheTraversal where
  depth : List Int
  counters : Counters := {}
  visitedNgbNum : Int := 0
  frontierHubVertexNum : Int := 0
  inspected : List (Nat × Nat) := []
  hits : Nat := 0
  deriving DecidableEq, Repr

/-- The body of the loop over `ciao`. -/
def cacheVisitOut (level : Int) (pingBuffer : List Nat) (vidx : Nat) (c : CacheTraversal)
    (outNgb : Nat) : Option CacheTraversal := do
  let counters := c.counters.read 4 0
  let inspected := c.inspected ++ [(vidx, outNgb)]
  if CSR.isInBuffer pingBuffer outNgb then
    return { c with counters, inspected, hits := c.hits + 1 }
  else
    let d ← c.depth[outNgb]?
    if d = -1 then
      return { c with
        depth := c.depth.set outNgb (level + 1)
        counters := (counters.read 1 1).write 1 1
        inspected }
    else
      return { c with counters := counters.read 1 1, inspected }

def cacheExpandOut (csr : CSR) (level : Int) (pingBuffer : List Nat) (c : CacheTraversal)
    (vidx : Nat) : Option CacheTraversal := do
  let first ← csr.rpao[vidx]?
  let last ← csr.rpao[vidx + 1]?
  let degree := (last : Int) - first
  let counters := (c.counters.read 8 1).read 0 (getBurstNum degree 4)
  let frontierHubVertexNum := if degree ≥ csr.hubVertexThreshold
    then c.frontierHubVertexNum + 1 else c.frontierHubVertexNum
  (List.range' first (last - first)).foldlM
    (fun c cidx => do cacheVisitOut level pingBuffer vidx c (← csr.ciao[cidx]?))
    { c with counters, frontierHubVertexNum }

/-- The body of the loop over `ciai`. -/
def cacheVisitIn (csr : CSR) (level : Int) (pingBuffer : List Nat) (vidx : Nat) (degree : Int)
    (c : CacheTraversal) (inNgb : Nat) : Option (ForInStep CacheTraversal) := do
  let counters := c.counters.read 4 0
  let inspected := c.inspected ++ [(vidx, inNgb)]
  let frontierHubVertexNum := if degree ≥ csr.hubVertexThreshold
    then c.frontierHubVertexNum + 1 else c.frontierHubVertexNum
  if CSR.isInBuffer pingBuffer inNgb then
    let _ ← c.depth[vidx]?
    return .done {
      depth := c.depth.set vidx (level + 1)
      counters := counters.write 1 1
      visitedNgbNum := c.visitedNgbNum + 1
      frontierHubVertexNum
      inspected
      hits := c.hits + 1 }
  else
    let d ← c.depth[inNgb]?
    if d = level then
      let _ ← c.depth[vidx]?
      return .done { c with
        depth := c.depth.set vidx (level + 1)
        counters := (counters.read 1 1).write 1 1
        visitedNgbNum := c.visitedNgbNum + 1
        frontierHubVertexNum
        inspected }
    else
      return .yield { c with counters := counters.read 1 1, inspected }

def cacheExpandIn (csr : CSR) (level : Int) (pingBuffer : List Nat) (c : CacheTraversal)
    (vidx : Nat) : Option CacheTraversal := do
  let first ← csr.rpai[vidx]?
  let last ← csr.rpai[vidx + 1]?
  let degree := (last : Int) - first
  let counters := (c.counters.read 8 1).read 0 (getBurstNum degree 4)
  forBreak
    (fun c cidx => do cacheVisitIn csr level pingBuffer vidx degree c (← csr.ciai[cidx]?))
    { c with counters } (List.range' first (last - first))

structure CacheScan where
  frontier : List Nat := []
  pingBuffer : List Nat
  counters : Counters
  deriving DecidableEq, Repr

def cacheVertex (csr : CSR) (idx : Nat) (scan : CacheScan) : Option CacheScan := do
  let degree ← csr.outDegree idx
  return if degree ≥ csr.cacheThreshold
    then { scan with pingBuffer := scan.pingBuffer ++ [idx] } else scan

/-- The scan before a top-down walk. -/
def cacheScanTopDown (csr : CSR) (level : Int) (depth : List Int) (pingBuffer : List Nat)
    (counters : Counters) : Option CacheScan :=
  (List.range csr.vNum).foldlM
    (fun (scan : CacheScan) idx => do
      let d ← depth[idx]?
      let scan := { scan with counters := scan.counters.read 1 0 }
      if d = level then cacheVertex csr idx { scan with frontier := scan.frontier ++ [idx] }
      else return scan)
    { pingBuffer, counters := counters.read 0 (getBurstNum csr.vNum 1) }

/-- The scan before a bottom-up walk. -/
def cacheScanBottomUp (csr : CSR) (level : Int) (depth : List Int) (pingBuffer : List Nat)
    (counters : Counters) : Option CacheScan :=
  (List.range csr.vNum).foldlM
    (fun (scan : CacheScan) idx => do
      let d ← depth[idx]?
      let scan := { scan with counters := scan.counters.read 1 0 }
      if d = -1 then return { scan with frontier := scan.frontier ++ [idx] }
      else if d = level then cacheVertex csr idx scan
      else return scan)
    { pingBuffer, counters := counters.read 0 (getBurstNum csr.vNum 1) }

structure CacheState where
  level : Int := 0
  c : CacheTraversal
  topDown : Bool := true
  pingBuffer : List Nat := []
  frontierDist : List Nat := []
  deriving DecidableEq, Repr

def cacheRound (csr : CSR) (totalHubVertexNum : Int) (s : CacheState) :
    Option (CacheState × Bool) := do
  let scan ← if s.topDown then cacheScanTopDown csr s.level s.c.depth s.pingBuffer s.c.counters
    else cacheScanBottomUp csr s.level s.c.depth s.pingBuffer s.c.counters
  let c ← if s.topDown then
      scan.frontier.foldlM (cacheExpandOut csr s.level scan.pingBuffer)
        { s.c with counters := scan.counters, frontierHubVertexNum := 0 }
    else
      scan.frontier.foldlM (cacheExpandIn csr s.level scan.pingBuffer)
        { s.c with counters := scan.counters, frontierHubVertexNum := 0, visitedNgbNum := 0 }
  let eofBfs := scan.frontier.isEmpty || !s.topDown && c.visitedNgbNum == 0
  let percentage ← hubPercentage c.frontierHubVertexNum totalHubVertexNum
  return ({
    level := s.level + 1
    c
    topDown := nextDirection csr s.topDown percentage c.visitedNgbNum
    pingBuffer := []
    frontierDist := s.frontierDist ++ [scan.frontier.length] }, !eofBfs)

/-- `cacheHybridBfs` up to the end of its loop, where it writes the depths and prints the
counters. -/
def cacheHybridLoop (csr : CSR) (startIdx rounds : Nat) : Option CacheState := do
  let depth ← initDepth csr.vNum startIdx
  let totalHubVertexNum ← csr.getHubVertexNum
  doWhile (cacheRound csr totalHubVertexNum) rounds { c := { depth } }

/-- The function is declared `bool`, but it has no `return` statement: what happens behind its
loop is undefined. -/
def cacheHybridBfs (csr : CSR) (startIdx rounds : Nat) : Option CacheState := do
  let _ ← cacheHybridLoop csr startIdx rounds
  none

def AgreesWithHybrid (csr : CSR) (startIdx : Nat) : Prop :=
  ∃ rounds cached plain, cacheHybridBfs csr startIdx rounds = some cached ∧
    hybridBfs csr startIdx rounds = some plain ∧ cached.c.depth = plain.t.depth

structure SameWalk (c : CacheTraversal) (t : Traversal) : Prop where
  depth : c.depth = t.depth
  visitedNgbNum : c.visitedNgbNum = t.visitedNgbNum
  inspected : c.inspected = t.inspected

def BufferAt (level : Int) (depth : List Int) (pingBuffer : List Nat) : Prop :=
  ∀ v ∈ pingBuffer, depth[v]? = some level

structure Follows (level : Int) (pingBuffer : List Nat) (c : CacheTraversal)
    (t : Traversal) : Prop where
  same : SameWalk c t
  bufferAt : BufferAt level t.depth pingBuffer

section

variable {csr : CSR} {edge : Nat → Nat → Prop} {out inn : Nat → List Nat}
variable {level : Int} {depth : List Int} {pingBuffer : List Nat}

theorem BufferAt.set (bufferAt : BufferAt level depth pingBuffer) {v : Nat}
    (outside : v ∉ pingBuffer) (next : Int) :
    BufferAt level (depth.set v next) pingBuffer := by
  intro w membership
  have different : v ≠ w := by
    rintro rfl
    exact outside membership
  rw [List.getElem?_set_ne different, bufferAt w membership]

theorem BufferAt.not_mem (bufferAt : BufferAt level depth pingBuffer) {v : Nat} {d : Int}
    (read : depth[v]? = some d) (different : d ≠ level) : v ∉ pingBuffer := by
  intro membership
  have atLevel := bufferAt v membership
  rw [read, Option.some.injEq] at atLevel
  exact different atLevel

/-- Skipping the depth test of a buffered out-neighbour loses nothing: its depth is
the level, so the test fails. -/
theorem cacheVisitOut_simulation (isLevel : level ≠ -1) (vidx : Nat) {c : CacheTraversal}
    {t next : Traversal} {outNgb : Nat} (follows : Follows level pingBuffer c t)
    (stepped : visitOut level vidx t outNgb = some next) :
    ∃ after, cacheVisitOut level pingBuffer vidx c outNgb = some after ∧
      Follows level pingBuffer after next ∧
      after.frontierHubVertexNum = c.frontierHubVertexNum := by
  obtain ⟨same, bufferAt⟩ := follows
  simp only [visitOut, Option.bind_eq_bind, Option.pure_def, Option.bind_eq_some_iff] at stepped
  obtain ⟨d, read, stepped⟩ := stepped
  simp only [cacheVisitOut, same.depth, read, Option.bind_eq_bind, Option.bind_some,
    Option.pure_def, CSR.isInBuffer, List.contains_iff_mem]
  by_cases fresh : d = -1
  · have miss := bufferAt.not_mem read (by omega)
    rw [if_pos fresh, Option.some.injEq] at stepped
    subst stepped
    rw [if_neg miss, if_pos fresh]
    exact ⟨_, rfl, ⟨⟨rfl, same.visitedNgbNum, by simp [same.inspected]⟩,
      bufferAt.set miss _⟩, rfl⟩
  · rw [if_neg fresh, Option.some.injEq] at stepped
    subst stepped
    rw [if_neg fresh]
    split <;>
      exact ⟨_, rfl, ⟨⟨rfl, same.visitedNgbNum, by simp [same.inspected]⟩, bufferAt⟩, rfl⟩

theorem cacheVisitIn_simulation {vidx : Nat} (outside : vidx ∉ pingBuffer)
    (degree : Int) {c : CacheTraversal} {t : Traversal} {outcome : ForInStep Traversal}
    {inNgb : Nat} (follows : Follows level pingBuffer c t)
    (stepped : visitIn level vidx t inNgb = some outcome) :
    ∃ mine, cacheVisitIn csr level pingBuffer vidx degree c inNgb = some mine ∧
      SameOutcome (Follows level pingBuffer) mine outcome := by
  obtain ⟨same, bufferAt⟩ := follows
  simp only [visitIn, Option.bind_eq_bind, Option.pure_def, Option.bind_eq_some_iff] at stepped
  obtain ⟨d, read, stepped⟩ := stepped
  simp only [cacheVisitIn, same.depth, read, Option.bind_eq_bind, Option.bind_some,
    Option.pure_def, CSR.isInBuffer, List.contains_iff_mem]
  by_cases parent : d = level
  · rw [if_pos parent] at stepped
    obtain ⟨old, present, stepped⟩ := Option.bind_eq_some_iff.mp stepped
    obtain rfl := Option.some.inj stepped
    simp only [present, Option.bind_some, if_pos parent]
    split <;>
      exact ⟨_, rfl, ⟨rfl, by simp [same.visitedNgbNum], by simp [same.inspected]⟩,
        bufferAt.set outside _⟩
  · have miss := bufferAt.not_mem read parent
    rw [if_neg parent, Option.some.injEq] at stepped
    subst stepped
    rw [if_neg miss, if_neg parent]
    exact ⟨_, rfl, ⟨rfl, same.visitedNgbNum, by simp [same.inspected]⟩, bufferAt⟩

theorem cacheExpandOut_simulation (rep : csr.Represents edge out inn) (isLevel : level ≠ -1)
    {vidx : Nat} (bound : vidx < csr.vNum) {c : CacheTraversal} {t next : Traversal}
    (follows : Follows level pingBuffer c t)
    (stepped : expandOut csr level t vidx = some next) :
    ∃ after, cacheExpandOut csr level pingBuffer c vidx = some after ∧
      Follows level pingBuffer after next ∧
      after.frontierHubVertexNum =
        c.frontierHubVertexNum + (if isHub csr out vidx then 1 else 0) := by
  obtain ⟨first, firstRead, lastRead, entries⟩ := rep.outRow vidx bound
  simp only [expandOut, firstRead, lastRead, Option.bind_eq_bind, Option.bind_some,
    Nat.add_sub_cancel_left] at stepped
  have degreeEq : ((first + (out vidx).length : Nat) : Int) - first = (out vidx).length := by
    omega
  let otherStart : Traversal := { t with
    counters := (t.counters.read 8 1).read 0
      (getBurstNum (((first + (out vidx).length : Nat) : Int) - first) 4) }
  have row := (foldlM_positions (visitOut level vidx) otherStart entries).symm.trans stepped
  let start : CacheTraversal := { c with
    counters := (c.counters.read 8 1).read 0
      (getBurstNum (((first + (out vidx).length : Nat) : Int) - first) 4)
    frontierHubVertexNum :=
      if (((first + (out vidx).length : Nat) : Int) - first) ≥ csr.hubVertexThreshold
        then c.frontierHubVertexNum + 1 else c.frontierHubVertexNum }
  have started : Follows level pingBuffer start otherStart :=
    ⟨⟨follows.same.depth, follows.same.visitedNgbNum, follows.same.inspected⟩,
      follows.bufferAt⟩
  obtain ⟨after, ran, afterFollows, hubs⟩ := foldlM_simulation
    (cacheVisitOut level pingBuffer vidx) (visitOut level vidx)
    (fun _ c' t' => Follows level pingBuffer c' t' ∧
      c'.frontierHubVertexNum = start.frontierHubVertexNum)
    (out vidx) ⟨started, rfl⟩
    (by
      rintro done outNgb rest c' t' next' _ ⟨follows', hubs⟩ stepped'
      obtain ⟨after, stepped, afterFollows, unchanged⟩ :=
        cacheVisitOut_simulation isLevel vidx follows' stepped'
      exact ⟨after, stepped, afterFollows, unchanged.trans hubs⟩)
    row
  refine ⟨after, ?_, afterFollows, ?_⟩
  · simp only [cacheExpandOut, firstRead, lastRead, Option.bind_eq_bind, Option.bind_some,
      Nat.add_sub_cancel_left]
    exact (foldlM_positions (cacheVisitOut level pingBuffer vidx) start entries).trans ran
  · rw [hubs]
    simp only [start, degreeEq, isHub, decide_eq_true_eq]
    split <;> simp

theorem cacheExpandIn_simulation (rep : csr.Represents edge out inn) {vidx : Nat}
    (bound : vidx < csr.vNum) (outside : vidx ∉ pingBuffer) {c : CacheTraversal}
    {t next : Traversal} (follows : Follows level pingBuffer c t)
    (stepped : expandIn csr level t vidx = some next) :
    ∃ after, cacheExpandIn csr level pingBuffer c vidx = some after ∧
      Follows level pingBuffer after next := by
  obtain ⟨first, firstRead, lastRead, entries⟩ := rep.inRow vidx bound
  simp only [expandIn, firstRead, lastRead, Option.bind_eq_bind, Option.bind_some,
    Nat.add_sub_cancel_left] at stepped
  let degree : Int := ((first + (inn vidx).length : Nat) : Int) - first
  let otherStart : Traversal := { t with
    counters := (t.counters.read 8 1).read 0 (getBurstNum degree 4) }
  have row := (forBreak_positions (visitIn level vidx) otherStart entries).symm.trans stepped
  let start : CacheTraversal := { c with
    counters := (c.counters.read 8 1).read 0 (getBurstNum degree 4) }
  have started : Follows level pingBuffer start otherStart :=
    ⟨⟨follows.same.depth, follows.same.visitedNgbNum, follows.same.inspected⟩,
      follows.bufferAt⟩
  obtain ⟨after, ran, afterFollows⟩ := forBreak_simulation
    (cacheVisitIn csr level pingBuffer vidx degree) (visitIn level vidx)
    (Follows level pingBuffer) (inn vidx) started
    (fun inNgb c' t' outcome _ follows' stepped' =>
      cacheVisitIn_simulation outside degree follows' stepped')
    row
  refine ⟨after, ?_, afterFollows⟩
  simp only [cacheExpandIn, firstRead, lastRead, Option.bind_eq_bind, Option.bind_some,
    Nat.add_sub_cancel_left]
  exact (forBreak_positions (cacheVisitIn csr level pingBuffer vidx degree) start entries).trans
    ran

/-- The walk from the frontier with the buffer; it counts the hubs that the scan of
`hybridBfs` has counted before the walk. -/
theorem cacheTopDown_simulation (rep : csr.Represents edge out inn) (isLevel : level ≠ -1)
    {frontier : List Nat} (bound : ∀ v ∈ frontier, v < csr.vNum) {c : CacheTraversal}
    {t next : Traversal} (follows : Follows level pingBuffer c t)
    (walked : topDown csr level frontier t = some next) :
    ∃ after, frontier.foldlM (cacheExpandOut csr level pingBuffer) c = some after ∧
      SameWalk after next ∧
      after.frontierHubVertexNum =
        c.frontierHubVertexNum + ((frontier.filter (isHub csr out)).length : Int) := by
  obtain ⟨after, ran, afterFollows, hubs⟩ := foldlM_simulation
    (cacheExpandOut csr level pingBuffer) (expandOut csr level)
    (fun done c' t' => Follows level pingBuffer c' t' ∧ c'.frontierHubVertexNum =
      c.frontierHubVertexNum + ((done.filter (isHub csr out)).length : Int))
    frontier ⟨follows, by simp⟩
    (by
      rintro done vidx rest c' t' next' split ⟨follows', hubs⟩ stepped'
      obtain ⟨after, stepped, afterFollows, counted⟩ := cacheExpandOut_simulation rep isLevel
        (bound vidx (by simp [split])) follows' stepped'
      refine ⟨after, stepped, afterFollows, ?_⟩
      rw [counted, hubs]
      cases hub : isHub csr out vidx <;> simp [List.filter_append, hub, Int.add_assoc])
    walked
  exact ⟨after, ran, afterFollows.same, hubs⟩

theorem cacheBottomUp_simulation (rep : csr.Represents edge out inn)
    {frontier : List Nat} (bound : ∀ v ∈ frontier, v < csr.vNum)
    (outside : ∀ v ∈ frontier, v ∉ pingBuffer) {c : CacheTraversal}
    {t next : Traversal} (follows : Follows level pingBuffer c t)
    (walked : bottomUp csr level frontier t = some next) :
    ∃ after, frontier.foldlM (cacheExpandIn csr level pingBuffer) c = some after ∧
      SameWalk after next := by
  obtain ⟨after, ran, afterFollows⟩ := foldlM_simulation
    (cacheExpandIn csr level pingBuffer) (expandIn csr level)
    (fun _ => Follows level pingBuffer) frontier follows
    (by
      intro done vidx rest c' t' next' split follows' stepped'
      have membership : vidx ∈ frontier := by simp [split]
      exact cacheExpandIn_simulation rep (bound vidx membership) (outside vidx membership)
        follows' stepped')
    walked
  exact ⟨after, ran, afterFollows.same⟩

theorem cacheVertex_eq (rep : csr.Represents edge out inn) {idx : Nat} (bound : idx < csr.vNum)
    {scan : CacheScan} (bufferAt : BufferAt level depth scan.pingBuffer)
    (isLevel : depth[idx]? = some level) :
    ∃ after, cacheVertex csr idx scan = some after ∧ after.frontier = scan.frontier ∧
      BufferAt level depth after.pingBuffer := by
  simp only [cacheVertex, outDegree_eq rep bound, Option.bind_eq_bind, Option.bind_some,
    Option.pure_def]
  refine ⟨_, rfl, ?_, ?_⟩
  · split <;> rfl
  · split
    · intro v membership
      rcases List.mem_append.mp membership with earlier | last
      · exact bufferAt v earlier
      · obtain rfl := List.mem_singleton.mp last
        exact isLevel
    · exact bufferAt

theorem cacheScanTopDown_eq (rep : csr.Represents edge out inn)
    (length : depth.length = csr.vNum) (level : Int) (counters : Counters) :
    ∃ scan, cacheScanTopDown csr level depth [] counters = some scan ∧
      scan.frontier = verticesAt csr.vNum level depth ∧
      BufferAt level depth scan.pingBuffer := by
  obtain ⟨scan, scanned, frontierEq, bufferAt⟩ := foldlM_total
    (fun (scan : CacheScan) idx => do
      let d ← depth[idx]?
      let scan := { scan with counters := scan.counters.read 1 0 }
      if d = level then cacheVertex csr idx { scan with frontier := scan.frontier ++ [idx] }
      else return scan)
    (fun done scan => scan.frontier = done.filter (fun v => depth[v]? = some level) ∧
      BufferAt level depth scan.pingBuffer)
    (List.range csr.vNum)
    { pingBuffer := [], counters := counters.read 0 (getBurstNum csr.vNum 1) }
    ⟨rfl, by simp [BufferAt]⟩ (by
      rintro done idx rest scan split ⟨frontierEq, bufferAt⟩
      have bound := mem_range_of_split split
      have within : idx < depth.length := length ▸ bound
      have read := List.getElem?_eq_getElem within
      simp only [read, Option.bind_eq_bind, Option.bind_some, Option.pure_def]
      by_cases isLevel : depth[idx] = level
      · rw [if_pos isLevel]
        have collected : BufferAt level depth
            { scan with
              frontier := scan.frontier ++ [idx]
              counters := scan.counters.read 1 0 : CacheScan }.pingBuffer := bufferAt
        obtain ⟨after, stepped, sameFrontier, afterBuffer⟩ :=
          cacheVertex_eq rep bound collected (isLevel ▸ read)
        refine ⟨after, stepped, ?_, afterBuffer⟩
        rw [sameFrontier]
        simp [frontierEq, isLevel, List.filter_append, read]
      · rw [if_neg isLevel]
        exact ⟨_, rfl, by simp [frontierEq, isLevel, List.filter_append, read], bufferAt⟩)
  exact ⟨scan, scanned, frontierEq, bufferAt⟩

theorem cacheScanBottomUp_eq (rep : csr.Represents edge out inn)
    (length : depth.length = csr.vNum) (level : Int) (counters : Counters) :
    ∃ scan, cacheScanBottomUp csr level depth [] counters = some scan ∧
      scan.frontier = verticesAt csr.vNum (-1) depth ∧
      BufferAt level depth scan.pingBuffer := by
  obtain ⟨scan, scanned, frontierEq, bufferAt⟩ := foldlM_total
    (fun (scan : CacheScan) idx => do
      let d ← depth[idx]?
      let scan := { scan with counters := scan.counters.read 1 0 }
      if d = -1 then return { scan with frontier := scan.frontier ++ [idx] }
      else if d = level then cacheVertex csr idx scan
      else return scan)
    (fun done scan => scan.frontier = done.filter (fun v => depth[v]? = some (-1)) ∧
      BufferAt level depth scan.pingBuffer)
    (List.range csr.vNum)
    { pingBuffer := [], counters := counters.read 0 (getBurstNum csr.vNum 1) }
    ⟨rfl, by simp [BufferAt]⟩ (by
      rintro done idx rest scan split ⟨frontierEq, bufferAt⟩
      have bound := mem_range_of_split split
      have within : idx < depth.length := length ▸ bound
      have read := List.getElem?_eq_getElem within
      simp only [read, Option.bind_eq_bind, Option.bind_some, Option.pure_def]
      by_cases fresh : depth[idx] = -1
      · rw [if_pos fresh]
        exact ⟨_, rfl, by simp [frontierEq, fresh, List.filter_append, read], bufferAt⟩
      · rw [if_neg fresh]
        by_cases isLevel : depth[idx] = level
        · rw [if_pos isLevel]
          have counted : BufferAt level depth
              { scan with counters := scan.counters.read 1 0 : CacheScan }.pingBuffer := bufferAt
          obtain ⟨after, stepped, sameFrontier, afterBuffer⟩ :=
            cacheVertex_eq rep bound counted (isLevel ▸ read)
          refine ⟨after, stepped, ?_, afterBuffer⟩
          rw [sameFrontier]
          simp [frontierEq, fresh, List.filter_append, read]
        · rw [if_neg isLevel]
          exact ⟨_, rfl, by simp [frontierEq, fresh, List.filter_append, read], bufferAt⟩)
  exact ⟨scan, scanned, frontierEq, bufferAt⟩

end

/-- The two searches are in the same round, with the same depths and in the same
direction. -/
structure Lockstep (vNum : Nat) (mine : CacheState) (other : HybridState) : Prop where
  level : mine.level = other.level
  started : 0 ≤ other.level
  length : other.t.depth.length = vNum
  same : SameWalk mine.c other.t
  direction : mine.topDown = other.topDown
  cleared : mine.pingBuffer = []
  frontierDist : mine.frontierDist = other.frontierDist

section

variable {csr : CSR} {edge : Nat → Nat → Prop} {out inn : Nat → List Nat}

theorem hubPercentage_of_isSome {hubs total : Int} {share : Float32}
    (defined : hubPercentage hubs total = some share) (others : Int) :
    ∃ share, hubPercentage others total = some share := by
  unfold hubPercentage at defined ⊢
  split at defined
  · simp at defined
  · rename_i nonzero
    exact ⟨_, if_neg nonzero⟩

theorem cacheRound_simulation (rep : csr.Represents edge out inn) {total : Int}
    {mine : CacheState} {other otherNext : HybridState} {again : Bool}
    (lockstep : Lockstep csr.vNum mine other)
    (stepped : hybridRound csr total other = some (otherNext, again)) :
    ∃ next, cacheRound csr total mine = some (next, again) ∧
      Lockstep csr.vNum next otherNext := by
  have isLevel : other.level ≠ -1 := by have := lockstep.started; omega
  have nextVisited : other.level + 1 ≠ -1 := by have := lockstep.started; omega
  have sameDepth := lockstep.same.depth
  cases direction : other.topDown with
  | true =>
      obtain ⟨scan, scanned, frontierEq, hubs⟩ :=
        scanTopDown_eq rep lockstep.length other.level other.t.counters
      have bound : ∀ v ∈ scan.frontier, v < csr.vNum :=
        fun v membership => verticesAt_lt (frontierEq ▸ membership)
      obtain ⟨t, walked, depthEq, _⟩ := topDown_eq rep nextVisited
        (t := { other.t with counters := scan.counters }) lockstep.length bound
      obtain ⟨cached, cacheScanned, cachedEq, bufferAt⟩ :=
        cacheScanTopDown_eq rep lockstep.length other.level mine.c.counters
      rw [← sameDepth] at cacheScanned
      have follows : Follows other.level cached.pingBuffer
          { mine.c with counters := cached.counters, frontierHubVertexNum := 0 }
          { other.t with counters := scan.counters } :=
        ⟨⟨sameDepth, lockstep.same.visitedNgbNum, lockstep.same.inspected⟩, bufferAt⟩
      obtain ⟨c, ran, same, counted⟩ :=
        cacheTopDown_simulation rep isLevel bound follows walked
      have sameHubs : c.frontierHubVertexNum = scan.frontierHubVertexNum := by
        rw [counted, hubs, Int.zero_add]
      simp only [hybridRound, direction, if_true, scanned, Option.bind_eq_bind,
        Option.bind_some, walked, Option.pure_def, Option.bind_eq_some_iff, Option.some.injEq,
        Prod.mk.injEq] at stepped
      obtain ⟨share, shareEq, rfl, againEq⟩ := stepped
      have mineTopDown : mine.topDown = true := lockstep.direction.trans direction
      simp only [cacheRound, mineTopDown, if_true, lockstep.level, lockstep.cleared,
        cacheScanned, Option.bind_eq_bind, Option.bind_some, cachedEq, ← frontierEq, ran,
        sameHubs, shareEq, Option.pure_def]
      refine ⟨_, by rw [← againEq]; rfl, ?_⟩
      exact {
        level := rfl
        started := by have := lockstep.started; show 0 ≤ other.level + 1; omega
        length := by rw [depthEq, relax_length]; exact lockstep.length
        same
        direction := by rw [same.visitedNgbNum]
        cleared := rfl
        frontierDist := by rw [lockstep.frontierDist] }
  | false =>
      obtain ⟨scan, scanned, frontierEq⟩ :=
        scanBottomUp_eq rep lockstep.length other.level other.t.counters
      have fresh : ∀ v ∈ scan.frontier, other.t.depth[v]? = some (-1) :=
        fun v membership => (mem_verticesAt lockstep.length).mp (frontierEq ▸ membership)
      have bound : ∀ v ∈ scan.frontier, v < csr.vNum :=
        fun v membership => verticesAt_lt (frontierEq ▸ membership)
      obtain ⟨t, walked, depthEq, _⟩ := bottomUp_eq rep isLevel
        (t := { other.t with counters := scan.counters, visitedNgbNum := 0 })
        lockstep.length fresh
      obtain ⟨cached, cacheScanned, cachedEq, bufferAt⟩ :=
        cacheScanBottomUp_eq rep lockstep.length other.level mine.c.counters
      rw [← sameDepth] at cacheScanned
      have follows : Follows other.level cached.pingBuffer
          { mine.c with
            counters := cached.counters, frontierHubVertexNum := 0, visitedNgbNum := 0 }
          { other.t with counters := scan.counters, visitedNgbNum := 0 } :=
        ⟨⟨sameDepth, rfl, lockstep.same.inspected⟩, bufferAt⟩
      obtain ⟨c, ran, same⟩ := cacheBottomUp_simulation rep bound
        (fun v membership => bufferAt.not_mem (fresh v membership) (Ne.symm isLevel))
        follows walked
      simp only [hybridRound, direction, Bool.false_eq_true, if_false, scanned,
        Option.bind_eq_bind, Option.bind_some, walked, Option.pure_def,
        Option.bind_eq_some_iff, Option.some.injEq, Prod.mk.injEq] at stepped
      obtain ⟨share, shareEq, rfl, againEq⟩ := stepped
      have mineBottomUp : mine.topDown = false := lockstep.direction.trans direction
      obtain ⟨cachedShare, cachedShareEq⟩ :=
        hubPercentage_of_isSome shareEq c.frontierHubVertexNum
      simp only [cacheRound, mineBottomUp, Bool.false_eq_true, if_false, lockstep.level,
        lockstep.cleared, cacheScanned, Option.bind_eq_bind, Option.bind_some,
        cachedEq, ← frontierEq, ran, cachedShareEq, Option.pure_def]
      refine ⟨_, by rw [← againEq, same.visitedNgbNum], ?_⟩
      exact {
        level := rfl
        started := by have := lockstep.started; show 0 ≤ other.level + 1; omega
        length := by rw [depthEq, settle_length]; exact lockstep.length
        same
        -- the share of the hubs is only consulted in the top-down direction
        direction := rfl
        cleared := rfl
        frontierDist := by rw [lockstep.frontierDist] }

/-- The search with the cache runs as many rounds as the search without it. -/
theorem cacheHybridLoop_simulation (rep : csr.Represents edge out inn) {startIdx rounds : Nat}
    {other : HybridState} (finished : hybridBfs csr startIdx rounds = some other) :
    ∃ mine, cacheHybridLoop csr startIdx rounds = some mine ∧
      Lockstep csr.vNum mine other := by
  simp only [hybridBfs, Option.bind_eq_bind, Option.bind_eq_some_iff] at finished
  obtain ⟨depth, initialized, total, totalEq, finished⟩ := finished
  simp only [cacheHybridLoop, initialized, totalEq, Option.bind_eq_bind, Option.bind_some]
  apply doWhile_simulation (cacheRound csr total) (hybridRound csr total) (Lockstep csr.vNum)
    (fun _ _ _ _ lockstep stepped => cacheRound_simulation rep lockstep stepped)
    ⟨rfl, le_rfl, initDepth_length initialized, ⟨rfl, rfl, rfl⟩, rfl, rfl, rfl⟩ finished

end

theorem cacheHybridLoop_mono {csr : CSR} {startIdx rounds more : Nat} {final : CacheState}
    (finished : cacheHybridLoop csr startIdx rounds = some final) (enough : rounds ≤ more) :
    cacheHybridLoop csr startIdx more = some final := by
  simp only [cacheHybridLoop, Option.bind_eq_bind, Option.bind_eq_some_iff] at finished ⊢
  obtain ⟨depth, initialized, total, totalEq, finished⟩ := finished
  exact ⟨depth, initialized, total, totalEq, doWhile_mono finished enough⟩

theorem not_agreesWithHybrid (csr : CSR) (startIdx : Nat) : ¬ AgreesWithHybrid csr startIdx := by
  rintro ⟨rounds, cached, plain, returned, _⟩
  rw [cacheHybridBfs, Option.bind_eq_bind, Option.bind_eq_some_iff] at returned
  obtain ⟨_, _, returned⟩ := returned
  cases returned

/-- The cache changes neither the depths nor the directions: for every choice of the
parameters the loops of both hybrid searches come to an end after the same number of rounds
with the lengths of the shortest paths, having read the same edges in the same order.  But
the search with the cache never returns from there. -/
theorem cacheHybridBfs_never {isUgraph : Bool} {edges : List (Nat × Nat)} {csr : CSR}
    (constructed : CSR.ofPairs isUgraph edges = some csr) {startIdx : Nat}
    (bound : startIdx < csr.vNum) (alpha beta : Float32)
    (hubVertexThreshold cacheThreshold bucketNum : Int) :
    (∃ cached plain,
      (∀ rounds, csr.vNum < rounds →
        cacheHybridLoop
          (csr.setBfsParam alpha beta hubVertexThreshold cacheThreshold bucketNum)
          startIdx rounds = some cached ∧
        hybridBfs
          (csr.setBfsParam alpha beta hubVertexThreshold cacheThreshold bucketNum)
          startIdx rounds = some plain) ∧
      cached.c.depth = plain.t.depth ∧ cached.c.inspected = plain.t.inspected ∧
      cached.level = plain.level ∧
      ShortestDepths (Edge isUgraph edges) csr.vNum startIdx cached.c.depth) ∧
    ¬ AgreesWithHybrid (csr.setBfsParam alpha beta hubVertexThreshold cacheThreshold bucketNum)
      startIdx := by
  have rep := (CSR.ofPairs_represents constructed).setBfsParam alpha beta
    hubVertexThreshold cacheThreshold bucketNum
  obtain ⟨plain, finished, depths⟩ := hybridBfs_spec rep bound
  obtain ⟨cached, ran, lockstep⟩ :=
    cacheHybridLoop_simulation rep (finished (csr.vNum + 1) (Nat.lt_succ_self _))
  refine ⟨⟨cached, plain, fun rounds enough => ⟨cacheHybridLoop_mono ran enough,
    finished rounds enough⟩, lockstep.same.depth, lockstep.same.inspected, lockstep.level, ?_⟩,
    not_agreesWithHybrid _ _⟩
  rw [lockstep.same.depth]
  exact depths

theorem cacheHybridBfs_never_branch :
    (∃ cached plain,
      (∀ rounds, 4 < rounds →
        cacheHybridLoop (branchCsr.setBfsParam 0.2 5000 2 1 1024) 0 rounds = some cached ∧
        hybridBfs (branchCsr.setBfsParam 0.2 5000 2 1 1024) 0 rounds = some plain) ∧
      cached.c.depth = plain.t.depth ∧ cached.c.inspected = plain.t.inspected ∧
      cached.level = plain.level ∧
      ShortestDepths (Edge false [(0, 1), (1, 2), (0, 3)]) 4 0 cached.c.depth) ∧
    ¬ AgreesWithHybrid (branchCsr.setBfsParam 0.2 5000 2 1 1024) 0 :=
  @cacheHybridBfs_never false _ branchCsr branchCsr_constructed 0 (by decide) 0.2 5000 2 1 1024

/-- A graph of four vertices, searched from the first one. -/
theorem not_cacheHybridBfs_agrees : ¬ ∀ (isUgraph : Bool) (edges : List (Nat × Nat)) (csr : CSR),
    CSR.ofPairs isUgraph edges = some csr → ∀ startIdx, startIdx < csr.vNum →
    ∀ (alpha beta : Float32) (hubVertexThreshold cacheThreshold bucketNum : Int),
    AgreesWithHybrid (csr.setBfsParam alpha beta hubVertexThreshold cacheThreshold bucketNum)
      startIdx := by
  intro claim
  exact not_agreesWithHybrid _ _
    (claim false _ branchCsr branchCsr_constructed 0 (by decide) 0.2 0.1 1024 256 1024)

end GraphAccelerator.Bfs
