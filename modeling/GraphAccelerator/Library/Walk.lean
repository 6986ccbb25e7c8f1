import Mathlib.Data.Fintype.Card
import Mathlib.Data.Nat.Find
import Mathlib.Tactic.Common

/-!
# Walks and levels of a directed graph

A graph is an arbitrary relation.  `Walk edge n u v` is a walk of exactly `n`
edges and `Shortest edge u v n` says that `n` is the least such number.  The
vertices at one distance form a level; a level is described from the previous
one by `shortest_succ_iff`, which is the step every breadth-first search takes.
-/

namespace Walks

universe u

variable {Vertex : Type u}

inductive Walk (edge : Vertex → Vertex → Prop) : Nat → Vertex → Vertex → Prop where
  | refl (vertex : Vertex) : Walk edge 0 vertex vertex
  | snoc {length : Nat} {source middle target : Vertex} :
      Walk edge length source middle →
      edge middle target →
      Walk edge (length + 1) source target

def Shortest (edge : Vertex → Vertex → Prop) (source target : Vertex)
    (length : Nat) : Prop :=
  Walk edge length source target ∧
    ∀ other, Walk edge other source target → length ≤ other

def Unreachable (edge : Vertex → Vertex → Prop) (source target : Vertex) : Prop :=
  ∀ length, ¬ Walk edge length source target

section Walk

variable {edge : Vertex → Vertex → Prop} {source target : Vertex}

@[simp]
theorem walk_zero_iff : Walk edge 0 source target ↔ target = source := by
  constructor
  · intro walk
    cases walk
    rfl
  · rintro rfl
    exact .refl _

theorem walk_succ_iff {length : Nat} :
    Walk edge (length + 1) source target ↔
      ∃ middle, Walk edge length source middle ∧ edge middle target := by
  constructor
  · intro walk
    cases walk with
    | snoc prefixWalk lastEdge => exact ⟨_, prefixWalk, lastEdge⟩
  · rintro ⟨middle, prefixWalk, lastEdge⟩
    exact .snoc prefixWalk lastEdge

theorem Walk.mem_of_closed {inside : Vertex → Prop} {length : Nat}
    (closed : ∀ u v, edge u v → inside v)
    (walk : Walk edge length source target) (start : inside source) :
    inside target := by
  cases walk with
  | refl => exact start
  | snoc _ lastEdge => exact closed _ _ lastEdge

theorem Shortest.unique {first second : Nat}
    (left : Shortest edge source target first)
    (right : Shortest edge source target second) : first = second :=
  Nat.le_antisymm (left.2 second right.1) (right.2 first left.1)

theorem Shortest.not_unreachable {length : Nat}
    (shortest : Shortest edge source target length) :
    ¬ Unreachable edge source target :=
  fun unreachable => unreachable length shortest.1

@[simp]
theorem shortest_zero_iff : Shortest edge source target 0 ↔ target = source := by
  simp [Shortest]

theorem Walk.exists_shortest {length : Nat}
    (walk : Walk edge length source target) :
    ∃ least, least ≤ length ∧ Shortest edge source target least := by
  classical
  have inhabited : ∃ candidate, Walk edge candidate source target := ⟨length, walk⟩
  refine ⟨Nat.find inhabited, Nat.find_min' inhabited walk, Nat.find_spec inhabited, ?_⟩
  intro other otherWalk
  exact Nat.find_min' inhabited otherWalk

theorem unreachable_iff :
    Unreachable edge source target ↔ ∀ length, ¬ Shortest edge source target length := by
  constructor
  · intro unreachable length shortest
    exact unreachable length shortest.1
  · intro noShortest length walk
    obtain ⟨least, _, shortest⟩ := walk.exists_shortest
    exact noShortest least shortest

/-- The next level consists of the out-neighbours of the current level that no
level up to the current one contains. -/
theorem shortest_succ_iff {length : Nat} :
    Shortest edge source target (length + 1) ↔
      (∃ middle, Shortest edge source middle length ∧ edge middle target) ∧
        ∀ earlier, earlier ≤ length → ¬ Shortest edge source target earlier := by
  constructor
  · rintro ⟨walk, least⟩
    obtain ⟨middle, prefixWalk, lastEdge⟩ := walk_succ_iff.mp walk
    refine ⟨⟨middle, ⟨prefixWalk, ?_⟩, lastEdge⟩, ?_⟩
    · intro other otherWalk
      have extended := least (other + 1) (.snoc otherWalk lastEdge)
      omega
    · intro earlier bound shortest
      have := least earlier shortest.1
      omega
  · rintro ⟨⟨middle, ⟨prefixWalk, _⟩, lastEdge⟩, fresh⟩
    refine ⟨.snoc prefixWalk lastEdge, ?_⟩
    intro other otherWalk
    obtain ⟨least, bound, shortest⟩ := otherWalk.exists_shortest
    by_contra shorter
    exact fresh least (by omega) shortest

theorem Shortest.exists_earlier {length : Nat}
    (shortest : Shortest edge source target length) {earlier : Nat}
    (bound : earlier ≤ length) :
    ∃ vertex, Shortest edge source vertex earlier := by
  induction length generalizing target with
  | zero =>
      obtain rfl : earlier = 0 := by omega
      exact ⟨target, shortest⟩
  | succ length inductionHypothesis =>
      by_cases last : earlier = length + 1
      · exact ⟨target, last ▸ shortest⟩
      · obtain ⟨⟨middle, middleShortest, _⟩, _⟩ := shortest_succ_iff.mp shortest
        exact inductionHypothesis middleShortest (by omega)

/-- Distinct levels are disjoint, so a finite graph has no more levels than
vertices. -/
theorem Shortest.lt_card {length : Nat} (vertices : Finset Vertex)
    (closed : ∀ u v, edge u v → v ∈ vertices) (start : source ∈ vertices)
    (shortest : Shortest edge source target length) :
    length < vertices.card := by
  classical
  have inhabited : ∀ earlier : Fin (length + 1),
      ∃ vertex, Shortest edge source vertex earlier := by
    intro earlier
    exact shortest.exists_earlier (Nat.lt_succ_iff.mp earlier.isLt)
  choose level levelShortest using inhabited
  have injective : Function.Injective level := by
    intro first second equality
    have secondShortest := levelShortest second
    rw [← equality] at secondShortest
    exact Fin.ext ((levelShortest first).unique secondShortest)
  have contained : Finset.univ.image level ⊆ vertices := by
    intro vertex membership
    obtain ⟨earlier, _, rfl⟩ := Finset.mem_image.mp membership
    exact (levelShortest earlier).1.mem_of_closed closed start
  have bound := Finset.card_le_card contained
  rw [Finset.card_image_of_injective _ injective, Finset.card_univ, Fintype.card_fin] at bound
  omega

end Walk

end Walks
