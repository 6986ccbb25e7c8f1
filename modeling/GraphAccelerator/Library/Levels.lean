import GraphAccelerator.Library.Walk

/-!
# Labelling the levels of a graph

A breadth-first search keeps one label per vertex.  `name` gives the label of
each level and `unvisited` marks the vertices not met so far; both are
parameters, so that unbounded integers and machine bytes are two instances.
`advance` is the effect of one whole iteration on the labels, in whichever way
the iteration finds the next level.
-/

namespace Walks

universe u v

variable {Vertex : Type u} {Label : Type v}

/-- The labels of the levels up to `bound` are pairwise distinct and differ from
the marker of the unvisited vertices. -/
structure Names (name : Nat → Label) (unvisited : Label) (bound : Nat) : Prop where
  injective : ∀ first second, first ≤ bound → second ≤ bound →
    name first = name second → first = second
  visited : ∀ level, level ≤ bound → name level ≠ unvisited

theorem Names.mono {name : Nat → Label} {unvisited : Label} {bound smaller : Nat}
    (names : Names name unvisited bound) (le : smaller ≤ bound) :
    Names name unvisited smaller where
  injective first second firstBound secondBound :=
    names.injective first second (firstBound.trans le) (secondBound.trans le)
  visited level levelBound := names.visited level (levelBound.trans le)

open Classical in
/-- One iteration: every unvisited out-neighbour of the current level receives
the label of the next level. -/
noncomputable def advance (edge : Vertex → Vertex → Prop)
    (unvisited current next : Label) (label : Vertex → Label) : Vertex → Label :=
  fun vertex =>
    if label vertex = unvisited ∧ ∃ u, label u = current ∧ edge u vertex then next
    else label vertex

/-- The labels describe exactly the levels up to `bound`. -/
structure LabelsUpTo (edge : Vertex → Vertex → Prop) (source : Vertex)
    (name : Nat → Label) (unvisited : Label) (bound : Nat)
    (label : Vertex → Label) : Prop where
  named : ∀ vertex level, level ≤ bound →
    (label vertex = name level ↔ Shortest edge source vertex level)
  covered : ∀ vertex, label vertex = unvisited ∨
    ∃ level, level ≤ bound ∧ label vertex = name level

def Labels (edge : Vertex → Vertex → Prop) (source : Vertex)
    (name : Nat → Label) (unvisited : Label) (label : Vertex → Label) : Prop :=
  ∀ vertex,
    (∃ level, label vertex = name level ∧ Shortest edge source vertex level) ∨
      label vertex = unvisited ∧ Unreachable edge source vertex

section

variable {edge : Vertex → Vertex → Prop} {source : Vertex}
variable {name : Nat → Label} {unvisited : Label} {bound : Nat} {label : Vertex → Label}

theorem advance_of_hit {current next : Label} {vertex : Vertex}
    (fresh : label vertex = unvisited)
    (hit : ∃ u, label u = current ∧ edge u vertex) :
    advance edge unvisited current next label vertex = next := by
  simp [advance, fresh, hit]

theorem advance_of_visited {current next : Label} {vertex : Vertex}
    (visited : label vertex ≠ unvisited) :
    advance edge unvisited current next label vertex = label vertex := by
  simp [advance, visited]

theorem advance_of_miss {current next : Label} {vertex : Vertex}
    (miss : ¬ ∃ u, label u = current ∧ edge u vertex) :
    advance edge unvisited current next label vertex = label vertex := by
  simp [advance, miss]

/-- An iteration may be looked at through a coding of the labels that keeps the current
level and the unvisited vertices apart from all others. -/
theorem advance_map {Code : Type*} (code : Label → Code) {current next : Label}
    (unvisitedIff : ∀ vertex, code (label vertex) = code unvisited ↔ label vertex = unvisited)
    (currentIff : ∀ vertex, code (label vertex) = code current ↔ label vertex = current) :
    advance edge (code unvisited) (code current) (code next) (fun vertex => code (label vertex)) =
      fun vertex => code (advance edge unvisited current next label vertex) := by
  funext vertex
  have same : (code (label vertex) = code unvisited ∧
      ∃ u, code (label u) = code current ∧ edge u vertex) ↔
      label vertex = unvisited ∧ ∃ u, label u = current ∧ edge u vertex := by
    simp only [unvisitedIff, currentIff]
  by_cases hit : label vertex = unvisited ∧ ∃ u, label u = current ∧ edge u vertex
  · simp only [advance, if_pos hit, if_pos (same.mpr hit)]
  · simp only [advance, if_neg hit, if_neg (mt same.mp hit)]

theorem labelsUpTo_start (names : Names name unvisited 0)
    (start : label source = name 0)
    (others : ∀ vertex, vertex ≠ source → label vertex = unvisited) :
    LabelsUpTo edge source name unvisited 0 label where
  named vertex level levelBound := by
    obtain rfl : level = 0 := by omega
    rw [shortest_zero_iff]
    constructor
    · intro isStart
      by_contra different
      exact names.visited 0 le_rfl (isStart.symm.trans (others vertex different))
    · rintro rfl
      exact start
  covered vertex := by
    by_cases isSource : vertex = source
    · exact .inr ⟨0, le_rfl, isSource ▸ start⟩
    · exact .inl (others vertex isSource)

theorem LabelsUpTo.unvisited_iff (names : Names name unvisited bound)
    (labels : LabelsUpTo edge source name unvisited bound label) (vertex : Vertex) :
    label vertex = unvisited ↔
      ∀ level, level ≤ bound → ¬ Shortest edge source vertex level := by
  constructor
  · intro fresh level levelBound shortest
    have named := (labels.named vertex level levelBound).mpr shortest
    exact names.visited level levelBound (named.symm.trans fresh)
  · intro noLevel
    rcases labels.covered vertex with fresh | ⟨level, levelBound, named⟩
    · exact fresh
    · exact absurd ((labels.named vertex level levelBound).mp named)
        (noLevel level levelBound)

theorem LabelsUpTo.next_iff (names : Names name unvisited bound)
    (labels : LabelsUpTo edge source name unvisited bound label) (vertex : Vertex) :
    (label vertex = unvisited ∧ ∃ u, label u = name bound ∧ edge u vertex) ↔
      Shortest edge source vertex (bound + 1) := by
  rw [shortest_succ_iff, labels.unvisited_iff names]
  constructor
  · rintro ⟨fresh, u, isCurrent, uvEdge⟩
    exact ⟨⟨u, (labels.named u bound le_rfl).mp isCurrent, uvEdge⟩, fresh⟩
  · rintro ⟨⟨u, shortest, uvEdge⟩, fresh⟩
    exact ⟨fresh, u, (labels.named u bound le_rfl).mpr shortest, uvEdge⟩

theorem LabelsUpTo.advance (names : Names name unvisited (bound + 1))
    (labels : LabelsUpTo edge source name unvisited bound label) :
    LabelsUpTo edge source name unvisited (bound + 1)
      (advance edge unvisited (name bound) (name (bound + 1)) label) := by
  have smaller := names.mono (Nat.le_succ bound)
  have next := labels.next_iff smaller
  constructor
  · intro vertex level levelBound
    by_cases hit : label vertex = unvisited ∧ ∃ u, label u = name bound ∧ edge u vertex
    · have shortest := (next vertex).mp hit
      rw [advance_of_hit hit.1 hit.2]
      constructor
      · intro sameName
        have := names.injective (bound + 1) level le_rfl levelBound sameName
        exact this ▸ shortest
      · intro other
        rw [shortest.unique other]
    · have notNext : ¬ Shortest edge source vertex (bound + 1) :=
        fun shortest => hit ((next vertex).mpr shortest)
      have same : Walks.advance edge unvisited (name bound) (name (bound + 1)) label vertex =
          label vertex := by
        simp only [Walks.advance, if_neg hit]
      rw [same]
      rcases Nat.lt_or_eq_of_le levelBound with earlier | last
      · exact labels.named vertex level (by omega)
      · subst last
        refine ⟨fun isNext => ?_, fun shortest => absurd shortest notNext⟩
        rcases labels.covered vertex with fresh | ⟨earlier, earlierBound, named⟩
        · exact absurd (isNext.symm.trans fresh) (names.visited _ le_rfl)
        · have := names.injective earlier (bound + 1) (by omega) le_rfl
            (named.symm.trans isNext)
          omega
  · intro vertex
    by_cases hit : label vertex = unvisited ∧ ∃ u, label u = name bound ∧ edge u vertex
    · exact .inr ⟨bound + 1, le_rfl, advance_of_hit hit.1 hit.2⟩
    · simp only [Walks.advance, if_neg hit]
      rcases labels.covered vertex with fresh | ⟨level, levelBound, named⟩
      · exact .inl fresh
      · exact .inr ⟨level, by omega, named⟩

/-- When the next level is empty, the labels describe every level. -/
theorem LabelsUpTo.complete (names : Names name unvisited bound)
    (labels : LabelsUpTo edge source name unvisited bound label)
    (finished : ∀ vertex, ¬ Shortest edge source vertex (bound + 1)) :
    Labels edge source name unvisited label := by
  intro vertex
  rcases labels.covered vertex with fresh | ⟨level, levelBound, named⟩
  · refine .inr ⟨fresh, unreachable_iff.mpr ?_⟩
    intro level shortest
    by_cases within : level ≤ bound
    · exact (labels.unvisited_iff names vertex).mp fresh level within shortest
    · have beyond : bound + 1 ≤ level := by omega
      obtain ⟨next, nextShortest⟩ := shortest.exists_earlier beyond
      exact finished next nextShortest
  · exact .inl ⟨level, named, (labels.named vertex level levelBound).mp named⟩

theorem LabelsUpTo.complete_of_empty (names : Names name unvisited bound)
    (labels : LabelsUpTo edge source name unvisited bound label)
    (empty : ∀ vertex, label vertex ≠ name bound) :
    Labels edge source name unvisited label := by
  apply labels.complete names
  intro vertex shortest
  obtain ⟨_, u, isCurrent, _⟩ := (labels.next_iff names vertex).mpr shortest
  exact empty u isCurrent

end

end Walks
