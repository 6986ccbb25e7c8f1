import Mathlib.Logic.Function.Basic
import Mathlib.Logic.Relation
import GraphAccelerator.Library.Kernel
import GraphAccelerator.Library.Levels

/-!
# Relaxing a level in any order

An iteration of a breadth-first search as a pool of pending vertices.  A pending
vertex may be written any number of times, and leaves the pool when it is seen to be
visited.  Whatever the order, an empty pool means that the labels have advanced by
one level.
-/

namespace Walks

universe u v

variable {Vertex : Type u} {Label : Type v}

structure Relaxation (Vertex : Type u) (Label : Type v) where
  label : Vertex → Label
  pending : Vertex → Prop

namespace Relaxation

variable [DecidableEq Vertex]

inductive Step (unvisited next : Label) : Relaxation Vertex Label → Relaxation Vertex Label → Prop
  | drop {label : Vertex → Label} {pending pending' : Vertex → Prop} :
      (∀ v, pending' v → pending v) → (∀ v, pending v → pending' v ∨ label v ≠ unvisited) →
      Step unvisited next ⟨label, pending⟩ ⟨label, pending'⟩
  | write {label : Vertex → Label} {pending : Vertex → Prop} {v : Vertex} :
      pending v → (label v = unvisited ∨ label v = next) →
      Step unvisited next ⟨label, pending⟩ ⟨Function.update label v next, pending⟩

def start (edge : Vertex → Vertex → Prop) (current : Label) (label : Vertex → Label) :
    Relaxation Vertex Label :=
  ⟨label, fun v => ∃ u, label u = current ∧ edge u v⟩

/-- Only unvisited out-neighbours of the level were written, and those that were not
are still pending. -/
structure Between (unvisited next : Label) (first state : Relaxation Vertex Label) : Prop where
  label : ∀ v, state.label v = first.label v ∨
    first.label v = unvisited ∧ first.pending v ∧ state.label v = next
  covered : ∀ v, first.pending v → state.pending v ∨ state.label v ≠ unvisited
  sound : ∀ v, state.pending v → first.pending v

variable {unvisited next : Label} {first before after : Relaxation Vertex Label}

theorem Between.step (between : Between unvisited next first before)
    (stepped : Step unvisited next before after) : Between unvisited next first after := by
  cases stepped with
  | drop sub dropped =>
      refine ⟨between.label, fun v target => ?_, fun v pending => between.sound v (sub v pending)⟩
      rcases between.covered v target with pending | done
      · exact dropped v pending
      · exact .inr done
  | @write label pending v isPending writable =>
      refine ⟨fun w => ?_, fun w target => ?_, between.sound⟩
      · dsimp only
        by_cases here : w = v
        · subst here
          rw [Function.update_self]
          rcases between.label w with same | ⟨fresh, target, _⟩
          · rcases writable with fresh | written
            · exact .inr ⟨same ▸ fresh, between.sound w isPending, rfl⟩
            · exact .inl (written.symm.trans same)
          · exact .inr ⟨fresh, target, rfl⟩
        · rw [Function.update_of_ne here]
          exact between.label w
      · dsimp only
        by_cases here : w = v
        · subst here
          exact .inl isPending
        · rw [Function.update_of_ne here]
          exact between.covered w target

/-- When nothing is pending any more, the level is done. -/
theorem run_advance {edge : Vertex → Vertex → Prop} {current : Label} {label : Vertex → Label}
    (run : Relation.ReflTransGen (Step unvisited next) (start edge current label) after)
    (finished : ∀ v, ¬ after.pending v) :
    after.label = advance edge unvisited current next label := by
  have between := Kernel.invariant_of_step (Between unvisited next (start edge current label)) run
    ⟨fun _ => .inl rfl, fun _ target => .inl target, fun _ target => target⟩
    (fun _ _ between stepped => between.step stepped)
  funext v
  by_cases hit : label v = unvisited ∧ ∃ u, label u = current ∧ edge u v
  · rw [advance_of_hit hit.1 hit.2]
    have done := (between.covered v hit.2).resolve_left (finished v)
    rcases between.label v with same | ⟨_, _, written⟩
    · exact absurd (same.trans hit.1) done
    · exact written
  · simp only [advance, if_neg hit]
    rcases between.label v with same | ⟨fresh, target, _⟩
    · exact same
    · exact absurd ⟨fresh, target⟩ hit

end Relaxation

end Walks
