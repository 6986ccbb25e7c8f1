import GraphAccelerator.Bfs.Traversal

/-!
# The level invariant of the searches

Before round `k` of any of the searches the depths describe the levels up to `k`.
A round advances the depths by one level, so the invariant is restored; when a
round finds nothing new the depths are those of the shortest paths.
-/

namespace GraphAccelerator.Bfs

open CheckedLoop Walks

def levelDepth (level : Nat) : Int := level

/-- Every vertex has the length of a shortest path from the start as its depth, and
`-1` exactly when there is none. -/
def ShortestDepths (edge : Nat → Nat → Prop) (vNum startIdx : Nat) (depth : List Int) : Prop :=
  depth.length = vNum ∧ ∀ v, v < vNum →
    (∃ length : Nat, depth[v]? = some (length : Int) ∧ Shortest edge startIdx v length) ∨
      depth[v]? = some (-1) ∧ Unreachable edge startIdx v

/-- The invariant of every search at the start of a round. -/
structure AtLevel (edge : Nat → Nat → Prop) (vNum startIdx round : Nat)
    (depth : List Int) : Prop where
  length : depth.length = vNum
  within : round ≤ vNum
  labels : LabelsUpTo edge startIdx levelDepth (-1) round (depthOf depth)

theorem levelDepth_names (bound : Nat) : Names levelDepth (-1) bound where
  injective first second _ _ same := by
    simp only [levelDepth] at same
    omega
  visited level _ := by
    simp only [levelDepth]
    omega

theorem levelDepth_ne (level : Nat) : levelDepth level ≠ -1 :=
  (levelDepth_names level).visited level le_rfl

theorem levelDepth_succ (level : Nat) : levelDepth level + 1 = levelDepth (level + 1) := rfl

section

variable {csr : CSR} {edge : Nat → Nat → Prop} {out inn : Nat → List Nat}
variable {startIdx round : Nat} {depth : List Int}

theorem initDepth_atLevel (edge : Nat → Nat → Prop) {vNum : Nat} (bound : startIdx < vNum) :
    ∃ depth, initDepth vNum startIdx = some depth ∧ AtLevel edge vNum startIdx 0 depth := by
  refine ⟨_, if_pos bound, by simp, Nat.zero_le _, ?_⟩
  apply labelsUpTo_start (levelDepth_names 0)
  · simp [depthOf, levelDepth, bound]
  · intro v different
    simp only [depthOf, List.getElem?_set_ne (Ne.symm different), List.getElem?_replicate]
    split <;> rfl

theorem shortest_lt_vNum (rep : csr.Represents edge out inn) (bound : startIdx < csr.vNum)
    {v length : Nat} (shortest : Shortest edge startIdx v length) : length < csr.vNum := by
  have := shortest.lt_card (Finset.range csr.vNum)
    (fun u v uvEdge => Finset.mem_range.mpr (rep.edge_lt u v uvEdge).2)
    (Finset.mem_range.mpr bound)
  simpa using this

theorem AtLevel.mem_frontier (atLevel : AtLevel edge csr.vNum startIdx round depth) {v : Nat} :
    v ∈ verticesAt csr.vNum (levelDepth round) depth ↔ Shortest edge startIdx v round := by
  rw [mem_verticesAt atLevel.length, ← depthOf_eq_iff (levelDepth_ne round)]
  exact atLevel.labels.named v round le_rfl

theorem verticesAt_lt {vNum v : Nat} {wanted : Int}
    (membership : v ∈ verticesAt vNum wanted depth) : v < vNum :=
  List.mem_range.mp (List.mem_filter.mp membership).1

theorem AtLevel.topDown (rep : csr.Represents edge out inn) {t : Traversal}
    (atLevel : AtLevel edge csr.vNum startIdx round t.depth) :
    ∃ after, topDown csr (levelDepth round)
        (verticesAt csr.vNum (levelDepth round) t.depth) t = some after ∧
      after.depth.length = csr.vNum ∧
      depthOf after.depth =
        advance edge (-1) (levelDepth round) (levelDepth round + 1) (depthOf t.depth) ∧
      after.visitedNgbNum = t.visitedNgbNum := by
  have nextVisited : levelDepth round + 1 ≠ -1 := levelDepth_ne (round + 1)
  obtain ⟨after, walked, depthEq, visitedEq⟩ := topDown_eq rep nextVisited
    atLevel.length (fun v => verticesAt_lt (v := v))
  refine ⟨after, walked, ?_, ?_, visitedEq⟩
  · rw [depthEq, relax_length, atLevel.length]
  · rw [depthEq]
    exact depthOf_relax rep atLevel.length (levelDepth_ne round)

/-- The bottom-up walk over the unvisited vertices advances the depths as well, and
counts the vertices of the next level. -/
theorem AtLevel.bottomUp (rep : csr.Represents edge out inn) {t : Traversal}
    (atLevel : AtLevel edge csr.vNum startIdx round t.depth) (uncounted : t.visitedNgbNum = 0) :
    ∃ after, bottomUp csr (levelDepth round) (verticesAt csr.vNum (-1) t.depth) t = some after ∧
      after.depth.length = csr.vNum ∧
      depthOf after.depth =
        advance edge (-1) (levelDepth round) (levelDepth round + 1) (depthOf t.depth) ∧
      (after.visitedNgbNum = 0 ↔ ∀ v, ¬ Shortest edge startIdx v (round + 1)) := by
  obtain ⟨after, walked, depthEq, visitedEq⟩ := bottomUp_eq rep (levelDepth_ne round)
    atLevel.length (fun v membership => (mem_verticesAt atLevel.length).mp membership)
  have advanced := depthOf_settle rep atLevel.length (levelDepth_ne round)
  refine ⟨after, walked, ?_, depthEq ▸ advanced, ?_⟩
  · rw [depthEq, settle_length, atLevel.length]
  · rw [visitedEq, uncounted, Int.zero_add, Int.natCast_eq_zero, List.length_eq_zero_iff,
      List.filter_eq_nil_iff]
    refine forall_congr' fun v => ?_
    rw [← atLevel.labels.next_iff (levelDepth_names round), hasParent_iff,
      mem_verticesAt atLevel.length]
    simp only [rep.mem_inn, ← depthOf_eq_iff (levelDepth_ne round)]
    constructor
    · rintro none ⟨fresh, u, isCurrent, uvEdge⟩
      refine none ?_ ⟨u, uvEdge, isCurrent⟩
      have := rep.edge_lt u v uvEdge
      rw [depthOf, List.getElem?_eq_getElem (atLevel.length ▸ this.2), Option.getD_some] at fresh
      rw [List.getElem?_eq_getElem (atLevel.length ▸ this.2), fresh]
    · rintro none fresh ⟨u, uvEdge, isCurrent⟩
      exact none ⟨by rw [depthOf, fresh, Option.getD_some], u, isCurrent, uvEdge⟩

theorem AtLevel.next (rep : csr.Represents edge out inn) (bound : startIdx < csr.vNum)
    (atLevel : AtLevel edge csr.vNum startIdx round depth)
    {after : List Int} (length : after.length = csr.vNum)
    (advanced : depthOf after =
      advance edge (-1) (levelDepth round) (levelDepth round + 1) (depthOf depth))
    {v : Nat} (inhabited : Shortest edge startIdx v round) :
    AtLevel edge csr.vNum startIdx (round + 1) after where
  length := length
  within := shortest_lt_vNum rep bound inhabited
  labels := by
    rw [advanced, levelDepth_succ]
    exact atLevel.labels.advance (levelDepth_names (round + 1))

theorem shortestDepths_of_labels (length : depth.length = csr.vNum)
    (labels : Labels edge startIdx levelDepth (-1) (depthOf depth)) :
    ShortestDepths edge csr.vNum startIdx depth := by
  refine ⟨length, fun v bound => ?_⟩
  have present : depth[v]? = some (depthOf depth v) := by
    rw [depthOf, List.getElem?_eq_getElem (length ▸ bound), Option.getD_some]
  rcases labels v with ⟨level, named, shortest⟩ | ⟨fresh, unreachable⟩
  · exact .inl ⟨level, by rw [present, named, levelDepth], shortest⟩
  · exact .inr ⟨by rw [present, fresh], unreachable⟩

theorem AtLevel.finish (atLevel : AtLevel edge csr.vNum startIdx round depth)
    {after : List Int} (length : after.length = csr.vNum)
    (advanced : depthOf after =
      advance edge (-1) (levelDepth round) (levelDepth round + 1) (depthOf depth))
    (finished : ∀ v, ¬ Shortest edge startIdx v (round + 1)) :
    ShortestDepths edge csr.vNum startIdx after := by
  apply shortestDepths_of_labels length
  have unchanged : depthOf after = depthOf depth := by
    rw [advanced]
    funext v
    have names := levelDepth_names round
    have next := (atLevel.labels.next_iff names v).not.mpr (finished v)
    simp only [advance, if_neg next]
  rw [unchanged]
  exact atLevel.labels.complete (levelDepth_names round) finished

theorem ShortestDepths.eq_of_shortest {vNum v length : Nat}
    (depths : ShortestDepths edge vNum startIdx depth) (bound : v < vNum)
    (shortest : Shortest edge startIdx v length) : depth[v]? = some (length : Int) := by
  rcases depths.2 v bound with ⟨_, found, other⟩ | ⟨_, unreachable⟩
  · rw [found, other.unique shortest]
  · exact absurd unreachable shortest.not_unreachable

theorem ShortestDepths.unique {vNum : Nat} {other : List Int}
    (left : ShortestDepths edge vNum startIdx depth)
    (right : ShortestDepths edge vNum startIdx other) : depth = other := by
  apply List.ext_getElem? fun v => ?_
  by_cases bound : v < vNum
  · rcases left.2 v bound with ⟨length, found, shortest⟩ | ⟨found, unreachable⟩
    · rw [found, right.eq_of_shortest bound shortest]
    · rcases right.2 v bound with ⟨_, _, shortest'⟩ | ⟨found', _⟩
      · exact absurd unreachable shortest'.not_unreachable
      · rw [found, found']
  · have leftEnd := left.1
    have rightEnd := right.1
    rw [List.getElem?_eq_none (by omega), List.getElem?_eq_none (by omega)]

end

end GraphAccelerator.Bfs
