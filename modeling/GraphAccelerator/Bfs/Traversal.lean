import GraphAccelerator.Bfs.Csr
import GraphAccelerator.Library.Levels

/-!
# The passes the searches are made of

Every search scans the depths for a frontier and then walks over the rows of the
frontier, towards the out-neighbours (top down) or towards the in-neighbours
(bottom up).  The definitions follow the loops of the source, with every access
checked; the theorems say that each of the two walks advances the depths by one
level, whichever direction it takes.
-/

namespace GraphAccelerator.Bfs

open CheckedLoop SparseRows Walks

/-- `GL::burstlen` -/
def burstlen : Int := 64

def getBurstNum (num size : Int) : Int :=
  let length := num * size
  if length.tmod burstlen = 0 then length.tdiv burstlen else length.tdiv burstlen + 1

/-- The statistic counters of a search, as unbounded integers. -/
structure Counters where
  readBytes : Int := 0
  writeBytes : Int := 0
  readBursts : Int := 0
  writeBursts : Int := 0
  deriving DecidableEq, Repr

namespace Counters

def read (c : Counters) (bytes bursts : Int) : Counters :=
  { c with readBytes := c.readBytes + bytes, readBursts := c.readBursts + bursts }

def write (c : Counters) (bytes bursts : Int) : Counters :=
  { c with writeBytes := c.writeBytes + bytes, writeBursts := c.writeBursts + bursts }

end Counters

/-- What a walk over the frontier changes.  `inspected` is a history variable: the
edges in the order in which their column was read, each with the row it belongs to. -/
structure Traversal where
  depth : List Int
  counters : Counters := {}
  visitedNgbNum : Int := 0
  inspected : List (Nat × Nat) := []
  deriving DecidableEq, Repr

/-- `depth.resize(vNum)`, `std::fill` with `-1` and `depth[startIdx] = 0` -/
def initDepth (vNum startIdx : Nat) : Option (List Int) :=
  if startIdx < vNum then some ((List.replicate vNum (-1)).set startIdx 0) else none

/-- The scan over all depths that collects the vertices of one depth. -/
def scanDepth (csr : CSR) (wanted : Int) (depth : List Int)
    (frontier : List Nat) (counters : Counters) : Option (List Nat × Counters) :=
  (List.range csr.vNum).foldlM
    (fun (frontier, counters) idx => do
      let d ← depth[idx]?
      return (if d = wanted then frontier ++ [idx] else frontier, counters.read 1 0))
    (frontier, counters.read 0 (getBurstNum csr.vNum 1))

/-- The body of the loop over `ciao`. -/
def visitOut (level : Int) (vidx : Nat) (t : Traversal) (outNgb : Nat) : Option Traversal := do
  let counters := (t.counters.read 4 0).read 1 1
  let inspected := t.inspected ++ [(vidx, outNgb)]
  let d ← t.depth[outNgb]?
  if d = -1 then
    return { t with
      depth := t.depth.set outNgb (level + 1), counters := counters.write 1 1, inspected }
  else
    return { t with counters, inspected }

/-- The top-down body for one frontier vertex. -/
def expandOut (csr : CSR) (level : Int) (t : Traversal) (vidx : Nat) : Option Traversal := do
  let first ← csr.rpao[vidx]?
  let last ← csr.rpao[vidx + 1]?
  let counters := (t.counters.read 8 1).read 0 (getBurstNum ((last : Int) - first) 4)
  (List.range' first (last - first)).foldlM
    (fun t cidx => do visitOut level vidx t (← csr.ciao[cidx]?)) { t with counters }

def topDown (csr : CSR) (level : Int) (frontier : List Nat) (t : Traversal) : Option Traversal :=
  frontier.foldlM (expandOut csr level) t

/-- The body of the loop over `ciai`; the first parent of the current level ends it. -/
def visitIn (level : Int) (vidx : Nat) (t : Traversal) (inNgb : Nat) :
    Option (ForInStep Traversal) := do
  let counters := (t.counters.read 4 0).read 1 1
  let inspected := t.inspected ++ [(vidx, inNgb)]
  let d ← t.depth[inNgb]?
  if d = level then
    let _ ← t.depth[vidx]?
    return .done { t with
      depth := t.depth.set vidx (level + 1), counters := counters.write 1 1, inspected,
      visitedNgbNum := t.visitedNgbNum + 1 }
  else
    return .yield { t with counters, inspected }

/-- The bottom-up body for one unvisited vertex. -/
def expandIn (csr : CSR) (level : Int) (t : Traversal) (vidx : Nat) : Option Traversal := do
  let first ← csr.rpai[vidx]?
  let last ← csr.rpai[vidx + 1]?
  let counters := (t.counters.read 8 1).read 0 (getBurstNum ((last : Int) - first) 4)
  forBreak (fun t cidx => do visitIn level vidx t (← csr.ciai[cidx]?)) { t with counters }
    (List.range' first (last - first))

def bottomUp (csr : CSR) (level : Int) (frontier : List Nat) (t : Traversal) : Option Traversal :=
  frontier.foldlM (expandIn csr level) t

theorem initDepth_length {vNum startIdx : Nat} {depth : List Int}
    (initialized : initDepth vNum startIdx = some depth) : depth.length = vNum := by
  unfold initDepth at initialized
  split at initialized
  · obtain rfl := Option.some.inj initialized
    simp
  · simp at initialized

def depthOf (depth : List Int) (v : Nat) : Int := depth[v]?.getD (-1)

theorem depthOf_eq_iff {depth : List Int} {v : Nat} {d : Int} (visited : d ≠ -1) :
    depthOf depth v = d ↔ depth[v]? = some d := by
  rw [depthOf]
  cases depth[v]? with
  | none => simpa using Ne.symm visited
  | some _ => simp

section Scan

def verticesAt (vNum : Nat) (wanted : Int) (depth : List Int) : List Nat :=
  (List.range vNum).filter fun v => depth[v]? = some wanted

theorem mem_verticesAt {vNum v : Nat} {wanted : Int} {depth : List Int}
    (length : depth.length = vNum) :
    v ∈ verticesAt vNum wanted depth ↔ depth[v]? = some wanted := by
  simp only [verticesAt, List.mem_filter, List.mem_range, decide_eq_true_eq]
  refine ⟨And.right, fun found => ⟨?_, found⟩⟩
  obtain ⟨bound, _⟩ := List.getElem?_eq_some_iff.mp found
  exact length ▸ bound

theorem verticesAt_nodup (vNum : Nat) (wanted : Int) (depth : List Int) :
    (verticesAt vNum wanted depth).Nodup :=
  List.nodup_range.filter _

theorem scanDepth_eq {csr : CSR} {depth : List Int} (length : depth.length = csr.vNum)
    (wanted : Int) (frontier : List Nat) (counters : Counters) :
    ∃ after, scanDepth csr wanted depth frontier counters =
      some (frontier ++ verticesAt csr.vNum wanted depth, after) := by
  obtain ⟨⟨found, after⟩, finished, rfl⟩ := foldlM_total
    (fun (state : List Nat × Counters) idx => do
      let d ← depth[idx]?
      return (if d = wanted then state.1 ++ [idx] else state.1, state.2.read 1 0))
    (fun done state => state.1 = frontier ++ done.filter fun v => depth[v]? = some wanted)
    (List.range csr.vNum) (frontier, counters.read 0 (getBurstNum csr.vNum 1))
    (by simp) (by
      rintro done idx rest ⟨found, counters⟩ split rfl
      have bound : idx < depth.length := by
        have : idx ∈ List.range csr.vNum := by simp [split]
        simpa [length] using this
      refine ⟨_, by simp only [List.getElem?_eq_getElem bound]; rfl, ?_⟩
      by_cases isWanted : depth[idx] = wanted <;>
        simp [List.filter_append, List.getElem?_eq_getElem bound, isWanted])
  exact ⟨after, finished⟩

end Scan

section TopDown

def relax (targets : List Nat) (next : Int) (depth : List Int) : List Int :=
  depth.mapIdx fun v d => if d = -1 ∧ v ∈ targets then next else d

@[simp]
theorem relax_length (targets : List Nat) (next : Int) (depth : List Int) :
    (relax targets next depth).length = depth.length := by
  simp [relax]

@[simp]
theorem relax_nil (next : Int) (depth : List Int) : relax [] next depth = depth := by
  apply List.ext_getElem <;> simp [relax]

theorem relax_append {next : Int} (visited : next ≠ -1) (first second : List Nat)
    (depth : List Int) :
    relax (first ++ second) next depth = relax second next (relax first next depth) := by
  simp only [relax, List.mapIdx_mapIdx]
  congr 1
  funext v d
  by_cases fresh : d = -1 <;> by_cases hit : v ∈ first <;> simp [fresh, hit, visited]

theorem relax_singleton {depth : List Int} {v : Nat} (next : Int) (bound : v < depth.length) :
    relax [v] next depth = if depth[v] = -1 then depth.set v next else depth := by
  apply List.ext_getElem (by split <;> simp)
  intro w wBound _
  by_cases same : v = w
  · subst same
    by_cases fresh : depth[v] = -1 <;> simp [relax, fresh]
  · by_cases fresh : depth[v] = -1 <;> simp [relax, fresh, same, Ne.symm same]

variable {csr : CSR} {edge : Nat → Nat → Prop} {out inn : Nat → List Nat}

theorem visitOut_eq (level : Int) (vidx : Nat) {t : Traversal} {outNgb : Nat}
    (bound : outNgb < t.depth.length) :
    ∃ after, visitOut level vidx t outNgb = some after ∧
      after.depth = relax [outNgb] (level + 1) t.depth ∧
      after.visitedNgbNum = t.visitedNgbNum := by
  rw [relax_singleton _ bound]
  simp only [visitOut, List.getElem?_eq_getElem bound, Option.bind_eq_bind, Option.bind_some,
    Option.pure_def]
  by_cases fresh : t.depth[outNgb] = -1
  · rw [if_pos fresh, if_pos fresh]
    exact ⟨_, rfl, rfl, rfl⟩
  · rw [if_neg fresh, if_neg fresh]
    exact ⟨_, rfl, rfl, rfl⟩

theorem expandOut_eq (rep : csr.Represents edge out inn) {level : Int} (visited : level + 1 ≠ -1)
    {t : Traversal} (length : t.depth.length = csr.vNum) {vidx : Nat} (bound : vidx < csr.vNum) :
    ∃ after, expandOut csr level t vidx = some after ∧
      after.depth = relax (out vidx) (level + 1) t.depth ∧
      after.visitedNgbNum = t.visitedNgbNum := by
  obtain ⟨first, firstRead, lastRead, entries⟩ := rep.outRow vidx bound
  obtain ⟨after, finished, depthEq, visitedEq⟩ := foldlM_total (visitOut level vidx)
    (fun done after => after.depth = relax done (level + 1) t.depth ∧
      after.visitedNgbNum = t.visitedNgbNum)
    (out vidx)
    { t with
      counters := (t.counters.read 8 1).read 0
        (getBurstNum (((first + (out vidx).length : Nat) : Int) - first) 4) }
    (by simp) (by
      rintro done outNgb rest state split ⟨depthEq, visitedEq⟩
      have outBound : outNgb < state.depth.length := by
        have := rep.out_lt (u := vidx) (v := outNgb) (by simp [split])
        simpa [depthEq, length] using this
      obtain ⟨after, stepped, afterDepth, afterVisited⟩ := visitOut_eq level vidx outBound
      refine ⟨after, stepped, ?_, afterVisited.trans visitedEq⟩
      rw [afterDepth, depthEq, relax_append visited])
  refine ⟨after, ?_, depthEq, visitedEq⟩
  have positions := foldlM_positions (visitOut level vidx)
    { t with
      counters := (t.counters.read 8 1).read 0
        (getBurstNum (((first + (out vidx).length : Nat) : Int) - first) 4) } entries
  simp only [expandOut, firstRead, lastRead, Option.bind_eq_bind, Option.bind_some,
    Nat.add_sub_cancel_left]
  exact positions.trans finished

theorem topDown_eq (rep : csr.Represents edge out inn) {level : Int} (visited : level + 1 ≠ -1)
    {t : Traversal} (length : t.depth.length = csr.vNum) {frontier : List Nat}
    (bound : ∀ v ∈ frontier, v < csr.vNum) :
    ∃ after, topDown csr level frontier t = some after ∧
      after.depth = relax (frontier.flatMap out) (level + 1) t.depth ∧
      after.visitedNgbNum = t.visitedNgbNum := by
  obtain ⟨after, finished, depthEq, visitedEq⟩ := foldlM_total (expandOut csr level)
    (fun done after => after.depth = relax (done.flatMap out) (level + 1) t.depth ∧
      after.visitedNgbNum = t.visitedNgbNum)
    frontier t (by simp) (by
      rintro done vidx rest state split ⟨depthEq, visitedEq⟩
      have stateLength : state.depth.length = csr.vNum := by simp [depthEq, length]
      obtain ⟨after, stepped, afterDepth, afterVisited⟩ :=
        expandOut_eq rep visited stateLength (bound vidx (by simp [split]))
      refine ⟨after, stepped, ?_, afterVisited.trans visitedEq⟩
      rw [afterDepth, depthEq, List.flatMap_append, relax_append visited]
      simp)
  exact ⟨after, finished, depthEq, visitedEq⟩

/-- Relaxing the out-neighbours of one level advances the depths. -/
theorem depthOf_relax (rep : csr.Represents edge out inn) {depth : List Int}
    (length : depth.length = csr.vNum) {level : Int} (isLevel : level ≠ -1) :
    depthOf (relax ((verticesAt csr.vNum level depth).flatMap out) (level + 1) depth) =
      advance edge (-1) level (level + 1) (depthOf depth) := by
  funext v
  have atLevel : ∀ u, u ∈ verticesAt csr.vNum level depth ↔ depthOf depth u = level := by
    intro u
    rw [mem_verticesAt length, depthOf_eq_iff isLevel]
  have targets : v ∈ (verticesAt csr.vNum level depth).flatMap out ↔
      ∃ u, depthOf depth u = level ∧ edge u v := by
    simp only [List.mem_flatMap, atLevel, rep.mem_out]
  cases present : depth[v]? with
  | none =>
      have outside : ¬ ∃ u, depthOf depth u = level ∧ edge u v := by
        rintro ⟨u, _, uvEdge⟩
        have := List.getElem?_eq_none_iff.mp present
        have := (rep.edge_lt u v uvEdge).2
        omega
      rw [advance_of_miss outside]
      simp [depthOf, relax, present]
  | some d =>
      have read : depthOf depth v = d := by simp [depthOf, present]
      have written : depthOf (relax ((verticesAt csr.vNum level depth).flatMap out)
          (level + 1) depth) v =
          if d = -1 ∧ v ∈ (verticesAt csr.vNum level depth).flatMap out then level + 1 else d := by
        simp [depthOf, relax, present]
      rw [written]
      by_cases hit : d = -1 ∧ v ∈ (verticesAt csr.vNum level depth).flatMap out
      · rw [if_pos hit, advance_of_hit (read.trans hit.1) (targets.mp hit.2)]
      · rw [if_neg hit]
        by_cases fresh : d = -1
        · rw [advance_of_miss fun found => hit ⟨fresh, targets.mpr found⟩, read]
        · rw [advance_of_visited (read ▸ fresh), read]

end TopDown

section BottomUp

def hasParent (inn : Nat → List Nat) (level : Int) (depth : List Int) (v : Nat) : Bool :=
  (inn v).any fun u => depth[u]? == some level

def settle (inn : Nat → List Nat) (level : Int) (settled : List Nat) (depth : List Int) :
    List Int :=
  depth.mapIdx fun v d => if v ∈ settled ∧ hasParent inn level depth v then level + 1 else d

theorem hasParent_iff {inn : Nat → List Nat} {level : Int} {depth : List Int} {v : Nat} :
    hasParent inn level depth v = true ↔ ∃ u ∈ inn v, depth[u]? = some level := by
  simp [hasParent]

@[simp]
theorem settle_length (inn : Nat → List Nat) (level : Int) (settled : List Nat)
    (depth : List Int) : (settle inn level settled depth).length = depth.length := by
  simp [settle]

@[simp]
theorem settle_nil (inn : Nat → List Nat) (level : Int) (depth : List Int) :
    settle inn level [] depth = depth := by
  apply List.ext_getElem <;> simp [settle]

theorem settle_append (inn : Nat → List Nat) (level : Int) (settled : List Nat)
    (depth : List Int) (v : Nat) :
    settle inn level (settled ++ [v]) depth =
      if hasParent inn level depth v then (settle inn level settled depth).set v (level + 1)
      else settle inn level settled depth := by
  apply List.ext_getElem (by split <;> simp)
  intro w wBound _
  by_cases same : v = w
  · subst same
    by_cases parent : hasParent inn level depth v <;> simp [settle, parent]
  · by_cases parent : hasParent inn level depth v <;>
      simp [settle, parent, same, Ne.symm same]

/-- Settling vertices that were unvisited adds nothing to the current level, so
that one update cannot enable another. -/
theorem hasParent_settle {inn : Nat → List Nat} {level : Int} (isLevel : level ≠ -1)
    {settled : List Nat} {depth : List Int}
    (fresh : ∀ v ∈ settled, depth[v]? = some (-1)) (v : Nat) :
    hasParent inn level (settle inn level settled depth) v = hasParent inn level depth v := by
  rw [Bool.eq_iff_iff, hasParent_iff, hasParent_iff]
  have unchanged : ∀ u : Nat, (settle inn level settled depth)[u]? = some level ↔
      depth[u]? = some level := by
    intro u
    simp only [settle, List.getElem?_mapIdx]
    cases present : depth[u]? with
    | none => simp
    | some d =>
        by_cases hit : u ∈ settled ∧ hasParent inn level depth u
        · have := fresh u hit.1
          rw [present, Option.some.injEq] at this
          simp only [if_pos hit, Option.map_some, Option.some.injEq]
          omega
        · simp [if_neg hit]
  simp only [unchanged]

variable {csr : CSR} {edge : Nat → Nat → Prop} {out inn : Nat → List Nat}

theorem visitIn_eq (level : Int) {vidx inNgb : Nat} {t : Traversal}
    (vidxBound : vidx < t.depth.length) (bound : inNgb < t.depth.length) :
    ∃ after, (visitIn level vidx t inNgb = some (.yield after) ∧
        t.depth[inNgb]? ≠ some level ∧
        after.depth = t.depth ∧ after.visitedNgbNum = t.visitedNgbNum) ∨
      (visitIn level vidx t inNgb = some (.done after) ∧
        t.depth[inNgb]? = some level ∧
        after.depth = t.depth.set vidx (level + 1) ∧
        after.visitedNgbNum = t.visitedNgbNum + 1) := by
  simp only [visitIn, List.getElem?_eq_getElem bound, List.getElem?_eq_getElem vidxBound,
    Option.bind_eq_bind, Option.bind_some, Option.pure_def, Option.some.injEq]
  by_cases parent : t.depth[inNgb] = level
  · rw [if_pos parent]
    exact ⟨_, .inr ⟨rfl, parent, rfl, rfl⟩⟩
  · rw [if_neg parent]
    exact ⟨_, .inl ⟨rfl, by simpa using parent, rfl, rfl⟩⟩

theorem expandIn_eq (rep : csr.Represents edge out inn) (level : Int) {t : Traversal}
    (length : t.depth.length = csr.vNum) {vidx : Nat} (bound : vidx < csr.vNum) :
    ∃ after, expandIn csr level t vidx = some after ∧
      after.depth = (if hasParent inn level t.depth vidx then t.depth.set vidx (level + 1)
        else t.depth) ∧
      after.visitedNgbNum = t.visitedNgbNum +
        (if hasParent inn level t.depth vidx then 1 else 0) := by
  obtain ⟨first, firstRead, lastRead, entries⟩ := rep.inRow vidx bound
  let start : Traversal := { t with
    counters := (t.counters.read 8 1).read 0
      (getBurstNum (((first + (inn vidx).length : Nat) : Int) - first) 4) }
  obtain ⟨after, finished, result⟩ := forBreak_total (visitIn level vidx)
    (fun done after => after.depth = t.depth ∧ after.visitedNgbNum = t.visitedNgbNum ∧
      ∀ u ∈ done, t.depth[u]? ≠ some level)
    (fun done after => after.depth = t.depth.set vidx (level + 1) ∧
      after.visitedNgbNum = t.visitedNgbNum + 1 ∧ ∃ u ∈ done, t.depth[u]? = some level)
    (inn vidx) start ⟨rfl, rfl, by simp⟩ (by
      rintro done inNgb rest state split ⟨depthEq, visitedEq, misses⟩
      have inBound : inNgb < state.depth.length := by
        have := rep.inn_lt (v := vidx) (u := inNgb) (by simp [split])
        simpa [depthEq, length] using this
      have vidxBound : vidx < state.depth.length := by simpa [depthEq, length] using bound
      obtain ⟨after, ⟨stepped, miss, afterDepth, afterVisited⟩ |
        ⟨stepped, hit, afterDepth, afterVisited⟩⟩ := visitIn_eq level vidxBound inBound
      · refine ⟨after, .inl ⟨stepped, afterDepth.trans depthEq,
          afterVisited.trans visitedEq, ?_⟩⟩
        intro u membership
        rcases List.mem_append.mp membership with earlier | last
        · exact misses u earlier
        · obtain rfl := List.mem_singleton.mp last
          exact depthEq ▸ miss
      · refine ⟨after, .inr ⟨stepped, ?_, ?_, inNgb, by simp, depthEq ▸ hit⟩⟩
        · rw [afterDepth, depthEq]
        · rw [afterVisited, visitedEq])
  have ran : expandIn csr level t vidx = some after := by
    have positions := forBreak_positions (visitIn level vidx) start entries
    simp only [expandIn, firstRead, lastRead, Option.bind_eq_bind, Option.bind_some,
      Nat.add_sub_cancel_left]
    exact positions.trans finished
  refine ⟨after, ran, ?_⟩
  rcases result with ⟨depthEq, visitedEq, misses⟩ |
    ⟨done, rest, split, depthEq, visitedEq, u, membership, found⟩
  · have none : ¬ hasParent inn level t.depth vidx = true := by
      rw [hasParent_iff]
      rintro ⟨u, membership, found⟩
      exact misses u membership found
    simp [none, depthEq, visitedEq]
  · have some : hasParent inn level t.depth vidx = true :=
      hasParent_iff.mpr ⟨u, by simp [split, membership], found⟩
    simp [some, depthEq, visitedEq]

theorem bottomUp_eq (rep : csr.Represents edge out inn) {level : Int} (isLevel : level ≠ -1)
    {t : Traversal} (length : t.depth.length = csr.vNum) {frontier : List Nat}
    (fresh : ∀ v ∈ frontier, t.depth[v]? = some (-1)) :
    ∃ after, bottomUp csr level frontier t = some after ∧
      after.depth = settle inn level frontier t.depth ∧
      after.visitedNgbNum = t.visitedNgbNum +
        ((frontier.filter (hasParent inn level t.depth)).length : Int) := by
  obtain ⟨after, finished, depthEq, visitedEq⟩ := foldlM_total (expandIn csr level)
    (fun done after => after.depth = settle inn level done t.depth ∧
      after.visitedNgbNum = t.visitedNgbNum +
        ((done.filter (hasParent inn level t.depth)).length : Int))
    frontier t (by simp) (by
      rintro done vidx rest state split ⟨depthEq, visitedEq⟩
      have stateLength : state.depth.length = csr.vNum := by simp [depthEq, length]
      have earlier : ∀ v ∈ done, t.depth[v]? = some (-1) :=
        fun v membership => fresh v (by simp [split, membership])
      have bound : vidx < csr.vNum := by
        obtain ⟨within, _⟩ := List.getElem?_eq_some_iff.mp (fresh vidx (by simp [split]))
        exact length ▸ within
      obtain ⟨after, stepped, afterDepth, afterVisited⟩ :=
        expandIn_eq rep level stateLength bound
      have parent : hasParent inn level state.depth vidx = hasParent inn level t.depth vidx := by
        rw [depthEq, hasParent_settle isLevel earlier]
      rw [parent] at afterDepth afterVisited
      refine ⟨after, stepped, ?_, ?_⟩
      · rw [afterDepth, settle_append, depthEq]
      · rw [afterVisited, visitedEq]
        cases found : hasParent inn level t.depth vidx <;>
          simp [List.filter_append, found, Int.add_assoc])
  exact ⟨after, finished, depthEq, visitedEq⟩

theorem depthOf_settle (rep : csr.Represents edge out inn) {depth : List Int}
    (length : depth.length = csr.vNum) {level : Int} (isLevel : level ≠ -1) :
    depthOf (settle inn level (verticesAt csr.vNum (-1) depth) depth) =
      advance edge (-1) level (level + 1) (depthOf depth) := by
  funext v
  have parents : hasParent inn level depth v = true ↔
      ∃ u, depthOf depth u = level ∧ edge u v := by
    simp only [hasParent_iff, rep.mem_inn, depthOf_eq_iff isLevel]
    exact exists_congr fun u => and_comm
  cases present : depth[v]? with
  | none =>
      have outside : ¬ ∃ u, depthOf depth u = level ∧ edge u v := by
        rintro ⟨u, _, uvEdge⟩
        have := List.getElem?_eq_none_iff.mp present
        have := (rep.edge_lt u v uvEdge).2
        omega
      rw [advance_of_miss outside]
      simp [depthOf, settle, present]
  | some d =>
      have read : depthOf depth v = d := by simp [depthOf, present]
      have unvisited : v ∈ verticesAt csr.vNum (-1) depth ↔ d = -1 := by
        rw [mem_verticesAt length, present, Option.some.injEq]
      have written : depthOf (settle inn level (verticesAt csr.vNum (-1) depth) depth) v =
          if v ∈ verticesAt csr.vNum (-1) depth ∧ hasParent inn level depth v
          then level + 1 else d := by
        simp [depthOf, settle, present]
      rw [written]
      by_cases hit : v ∈ verticesAt csr.vNum (-1) depth ∧ hasParent inn level depth v
      · rw [if_pos hit,
          advance_of_hit (read.trans (unvisited.mp hit.1)) (parents.mp hit.2)]
      · rw [if_neg hit]
        by_cases fresh : d = -1
        · rw [advance_of_miss fun found => hit ⟨unvisited.mpr fresh, parents.mpr found⟩, read]
        · rw [advance_of_visited (read ▸ fresh), read]

end BottomUp

end GraphAccelerator.Bfs
