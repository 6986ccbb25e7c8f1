import GraphAccelerator.Library.Loop

/-!
# Loops that draw

A loop takes one item of a stream in every round and may leave its state as it is.  It
comes to its end when in every state some item that the stream has again and again makes
progress, and no item does harm.
-/

namespace CheckedLoop

universe u v

variable {Item : Type u} {State : Type v}

/-- `while (guard) body(draw())`, with the number of items that have been drawn. -/
def whileDraw (guard : State → Bool) (body : State → Item → Option State) (stream : Nat → Item)
    (rounds : Nat) (start : Nat × State) : Option (Nat × State) :=
  whileDo (fun state => guard state.2)
    (fun state => (body state.2 (stream state.1)).map fun next => (state.1 + 1, next)) rounds start

variable {guard : State → Bool} {body : State → Item → Option State} {stream : Nat → Item}

theorem whileDraw_step {drawn rounds : Nat} {state next : State} (entered : guard state = true)
    (stepped : body state (stream drawn) = some next) :
    whileDraw guard body stream (rounds + 1) (drawn, state) =
      whileDraw guard body stream rounds (drawn + 1, next) := by
  simp [whileDraw, whileDo, entered, stepped]

/-- The partial rule: what every round preserves holds at the end. -/
theorem whileDraw_invariant (invariant : State → Prop) {rounds : Nat} {start final : Nat × State}
    (finished : whileDraw guard body stream rounds start = some final) (initial : invariant start.2)
    (preserved : ∀ state item next, invariant state → guard state = true →
      body state item = some next → invariant next) :
    guard final.2 = false ∧ invariant final.2 := by
  induction rounds generalizing start with
  | zero => cases finished
  | succ rounds inductionHypothesis =>
      obtain ⟨drawn, state⟩ := start
      cases entered : guard state with
      | false =>
          obtain rfl : (drawn, state) = final := by simpa [whileDraw, whileDo, entered] using finished
          exact ⟨entered, initial⟩
      | true =>
          cases stepped : body state (stream drawn) with
          | none => simp [whileDraw, whileDo, entered, stepped] at finished
          | some next =>
              rw [whileDraw_step entered stepped] at finished
              exact inductionHypothesis finished (preserved state _ next initial entered stepped)

/-- The total rule.  The outer induction is on the measure, the inner one on the number
of items before the next one that makes progress. -/
theorem whileDraw_total (invariant : State → Prop) (measure : State → Nat)
    (harmless : ∀ state item, invariant state → guard state = true →
      ∃ next, body state item = some next ∧ invariant next ∧
        (next = state ∨ measure next < measure state))
    (progress : ∀ state, invariant state → guard state = true → ∀ drawn, ∃ wait next,
      body state (stream (drawn + wait)) = some next ∧ measure next < measure state)
    (drawn : Nat) (state : State) (holds : invariant state) :
    ∃ rounds final, whileDraw guard body stream rounds (drawn, state) = some final := by
  induction rank : measure state using Nat.strongRecOn generalizing drawn state with
  | _ rank lower =>
      subst rank
      cases entered : guard state with
      | false => exact ⟨1, (drawn, state), by simp [whileDraw, whileDo, entered]⟩
      | true =>
          obtain ⟨wait, next, draws, smaller⟩ := progress state holds entered drawn
          induction wait generalizing drawn with
          | zero =>
              obtain ⟨other, stepped, nextHolds, _⟩ := harmless state (stream drawn) holds entered
              obtain rfl := Option.some.inj (draws.symm.trans stepped)
              obtain ⟨rounds, final, ran⟩ := lower _ smaller (drawn + 1) next nextHolds rfl
              exact ⟨rounds + 1, final, by rw [whileDraw_step entered stepped, ran]⟩
          | succ wait sooner =>
              obtain ⟨other, stepped, otherHolds, outcome⟩ :=
                harmless state (stream drawn) holds entered
              obtain ⟨rounds, final, ran⟩ : ∃ rounds final,
                  whileDraw guard body stream rounds (drawn + 1, other) = some final := by
                rcases outcome with rfl | smaller'
                · exact sooner (drawn + 1) (by rw [← draws]; congr 2; omega)
                · exact lower _ smaller' (drawn + 1) other otherHolds rfl
              exact ⟨rounds + 1, final, by rw [whileDraw_step entered stepped, ran]⟩

end CheckedLoop
