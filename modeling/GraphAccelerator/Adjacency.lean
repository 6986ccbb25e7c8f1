import Mathlib.Algebra.BigOperators.Group.List.Basic
import Mathlib.Algebra.Ring.Nat
import GraphAccelerator.Graph

/-!
# What the adjacency lists count

A line of the file is stored once at each of its two ends, and once more the other way
round when the graph is undirected and the line is no loop.  So both lists of a pair of
vertices hold the same number of entries, and both kinds of lists hold the same number
of entries in total.
-/

namespace GraphAccelerator

variable {isUgraph : Bool} {edges : List (Nat × Nat)} {u v : Nat}

def pairEntries (isUgraph : Bool) (pair : Nat × Nat) : Nat :=
  if isUgraph && pair.1 != pair.2 then 2 else 1

def storedEntries (isUgraph : Bool) (edges : List (Nat × Nat)) : Nat :=
  (edges.map (pairEntries isUgraph)).sum

section Multiplicity

end Multiplicity

section Entries

theorem sum_indicator {vertexNum end' : Nat} (bound : end' < vertexNum) (stored : Nat) :
    ((List.range vertexNum).map fun u => if end' = u then stored else 0).sum = stored := by
  induction vertexNum with
  | zero => omega
  | succ vertexNum inductionHypothesis =>
      rw [List.range_succ, List.map_append, List.sum_append]
      by_cases last : end' = vertexNum
      · subst last
        have others : ((List.range end').map fun u => if end' = u then stored else 0).sum = 0 :=
          List.sum_eq_zero fun entry membership => by
            obtain ⟨u, inside, rfl⟩ := List.mem_map.mp membership
            rw [if_neg (by have := List.mem_range.mp inside; omega)]
        simp [others]
      · rw [inductionHypothesis (by omega)]
        simp [last]

theorem sum_pairOut {vertexNum : Nat} {pair : Nat × Nat} (first : pair.1 < vertexNum)
    (second : pair.2 < vertexNum) :
    ((List.range vertexNum).map fun u => (pairOut isUgraph u pair).length).sum =
      pairEntries isUgraph pair := by
  have split : ∀ u, (pairOut isUgraph u pair).length =
      (if pair.1 = u then 1 else 0) +
        if pair.2 = u then (if isUgraph && pair.1 != pair.2 then 1 else 0) else 0 := by
    intro u
    rw [pairOut, List.length_append]
    congr 1
    · split <;> rfl
    · by_cases target : pair.2 = u
      · rw [if_pos target, beq_iff_eq.mpr target, Bool.and_true]
        split <;> rfl
      · rw [if_neg target, beq_eq_false_iff_ne.mpr target, Bool.and_false]
        rfl
  simp only [split, List.sum_map_add, sum_indicator first, sum_indicator second, pairEntries]
  split <;> rfl

theorem sum_pairIn {vertexNum : Nat} {pair : Nat × Nat} (first : pair.1 < vertexNum)
    (second : pair.2 < vertexNum) :
    ((List.range vertexNum).map fun u => (pairIn isUgraph u pair).length).sum =
      pairEntries isUgraph pair := by
  have split : ∀ u, (pairIn isUgraph u pair).length =
      (if pair.2 = u then 1 else 0) +
        if pair.1 = u then (if isUgraph && pair.1 != pair.2 then 1 else 0) else 0 := by
    intro u
    rw [pairIn, List.length_append]
    congr 1
    · split <;> rfl
    · by_cases target : pair.1 = u
      · rw [if_pos target, beq_iff_eq.mpr target, Bool.and_true]
        split <;> rfl
      · rw [if_neg target, beq_eq_false_iff_ne.mpr target, Bool.and_false]
        rfl
  simp only [split, List.sum_map_add, sum_indicator first, sum_indicator second, pairEntries]
  split <;> rfl

theorem sum_outNgbs {vertexNum : Nat}
    (bound : ∀ pair ∈ edges, pair.1 < vertexNum ∧ pair.2 < vertexNum) :
    ((List.range vertexNum).map fun u => (outNgbs isUgraph edges u).length).sum =
      storedEntries isUgraph edges := by
  induction edges with
  | nil => simp [outNgbs, storedEntries]
  | cons pair edges inductionHypothesis =>
      obtain ⟨first, second⟩ := bound pair List.mem_cons_self
      have rest := inductionHypothesis fun other later => bound other (List.mem_cons_of_mem _ later)
      have split : ∀ u, (outNgbs isUgraph (pair :: edges) u).length =
          (pairOut isUgraph u pair).length + (outNgbs isUgraph edges u).length :=
        fun u => List.length_append
      simp only [split, List.sum_map_add, rest, sum_pairOut first second, storedEntries,
        List.map_cons, List.sum_cons]

theorem sum_inNgbs {vertexNum : Nat}
    (bound : ∀ pair ∈ edges, pair.1 < vertexNum ∧ pair.2 < vertexNum) :
    ((List.range vertexNum).map fun u => (inNgbs isUgraph edges u).length).sum =
      storedEntries isUgraph edges := by
  induction edges with
  | nil => simp [inNgbs, storedEntries]
  | cons pair edges inductionHypothesis =>
      obtain ⟨first, second⟩ := bound pair List.mem_cons_self
      have rest := inductionHypothesis fun other later => bound other (List.mem_cons_of_mem _ later)
      have split : ∀ u, (inNgbs isUgraph (pair :: edges) u).length =
          (pairIn isUgraph u pair).length + (inNgbs isUgraph edges u).length :=
        fun u => List.length_append
      simp only [split, List.sum_map_add, rest, sum_pairIn first second, storedEntries,
        List.map_cons, List.sum_cons]

/-- Every line of an undirected graph counts twice unless it is a loop. -/
theorem storedEntries_eq (isUgraph : Bool) (edges : List (Nat × Nat)) :
    storedEntries isUgraph edges + (if isUgraph then edges.countP fun pair => pair.1 == pair.2
      else 0) = if isUgraph then edges.length * 2 else edges.length := by
  induction edges with
  | nil => cases isUgraph <;> rfl
  | cons pair edges inductionHypothesis =>
      rw [storedEntries, List.map_cons, List.sum_cons, ← storedEntries]
      by_cases loop : pair.1 = pair.2 <;> cases isUgraph <;>
        simp [pairEntries, loop] at inductionHypothesis ⊢ <;> omega

end Entries

namespace Graph.BuiltFrom

variable {g : Graph}

theorem outVid_eq (built : g.BuiltFrom isUgraph edges) :
    g.vertices.map (·.outVid) = (List.range g.vertexNum).map (outNgbs isUgraph edges) := by
  simp [built.vertices, store, setDegrees, Function.comp_def]

theorem inVid_eq (built : g.BuiltFrom isUgraph edges) :
    g.vertices.map (·.inVid) = (List.range g.vertexNum).map (inNgbs isUgraph edges) := by
  simp [built.vertices, store, setDegrees, Function.comp_def]

theorem degrees (built : g.BuiltFrom isUgraph edges) :
    g.vertices.map (·.outDeg) = (g.vertices.map (·.outVid)).map List.length ∧
      g.vertices.map (·.inDeg) = (g.vertices.map (·.inVid)).map List.length := by
  simp [built.vertices, store, setDegrees, Function.comp_def]

theorem sum_outDeg (built : g.BuiltFrom isUgraph edges) :
    (g.vertices.map (·.outDeg)).sum = storedEntries isUgraph edges := by
  rw [built.degrees.1, built.outVid_eq, List.map_map]
  exact sum_outNgbs built.bound

theorem sum_inDeg (built : g.BuiltFrom isUgraph edges) :
    (g.vertices.map (·.inDeg)).sum = storedEntries isUgraph edges := by
  rw [built.degrees.2, built.inVid_eq, List.map_map]
  exact sum_inNgbs built.bound

end Graph.BuiltFrom

end GraphAccelerator
