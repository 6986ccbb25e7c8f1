import Mathlib.Tactic.Common
import Mathlib.Logic.Relation
import Mathlib.Data.List.Shortlex

/-!
# Ranks of several numbers

The rank of a state is a list of numbers.  A step that lowers one of them and raises no
earlier one, whatever it does to the later ones, cannot be taken for ever.
-/

namespace Ranks

/-- The rank goes down at one place and does not go up at any earlier one. -/
def Descends : List Nat → List Nat → Prop
  | before :: lower, after :: lower' =>
      after < before ∧ lower'.length = lower.length ∨ after ≤ before ∧ Descends lower lower'
  | _, _ => False

theorem Descends.length_eq : ∀ {before after : List Nat}, Descends before after →
    after.length = before.length
  | _ :: _, _ :: _, descends => by
      rcases descends with ⟨_, same⟩ | ⟨_, descends⟩
      · exact congrArg Nat.succ same
      · exact congrArg Nat.succ descends.length_eq

theorem Descends.lex : ∀ {before after : List Nat}, Descends before after →
    List.Lex (· < ·) after before
  | _ :: _, _ :: _, descends => by
      rcases descends with ⟨less, _⟩ | ⟨notMore, descends⟩
      · exact .rel less
      · rcases Nat.lt_or_eq_of_le notMore with less | rfl
        · exact .rel less
        · exact .cons descends.lex

theorem Descends.trans : ∀ {first second third : List Nat}, Descends first second →
    Descends second third → Descends first third
  | _ :: _, _ :: _, _ :: _, earlier, later => by
      rcases earlier with ⟨less, same⟩ | ⟨notMore, earlier⟩
      · rcases later with ⟨less', same'⟩ | ⟨notMore', later⟩
        · exact .inl ⟨less'.trans less, same'.trans same⟩
        · exact .inl ⟨Nat.lt_of_le_of_lt notMore' less, later.length_eq.trans same⟩
      · rcases later with ⟨less', same'⟩ | ⟨notMore', later⟩
        · exact .inl ⟨Nat.lt_of_lt_of_le less' notMore, same'.trans earlier.length_eq⟩
        · exact .inr ⟨notMore'.trans notMore, earlier.trans later⟩

theorem Descends.append {lower lower' : List Nat} (same : lower'.length = lower.length) :
    ∀ {before after : List Nat}, Descends before after → Descends (before ++ lower) (after ++ lower')
  | _ :: _, _ :: _, descends => by
      rcases descends with ⟨less, equal⟩ | ⟨notMore, descends⟩
      · exact .inl ⟨less, by simp [same, equal]⟩
      · exact .inr ⟨notMore, descends.append same⟩

theorem Descends.behind {lower lower' : List Nat} (descends : Descends lower lower') :
    ∀ upper : List Nat, Descends (upper ++ lower) (upper ++ lower')
  | [] => descends
  | _ :: upper => .inr ⟨Nat.le_refl _, descends.behind upper⟩

theorem Descends.irrefl : ∀ {rank : List Nat}, ¬ Descends rank rank
  | _ :: _, descends => by
      rcases descends with ⟨less, _⟩ | ⟨_, descends⟩
      · exact Nat.lt_irrefl _ less
      · exact descends.irrefl

/-- As long as there is a step that keeps the invariant and lowers the rank, a finished
state is reached. -/
theorem exists_finished {State : Type*} {step : State → State → Prop} {invariant : State → Prop}
    {finished : State → Prop} (rank : State → List Nat)
    (progress : ∀ state, invariant state → ¬ finished state →
      ∃ after, step state after ∧ invariant after ∧ Descends (rank state) (rank after))
    {start : State} (initial : invariant start) :
    ∃ final, Relation.ReflTransGen step start final ∧ invariant final ∧ finished final := by
  have wellFounded : WellFounded (InvImage (List.Shortlex (· < ·)) rank) :=
    InvImage.wf rank (List.Shortlex.wf wellFounded_lt)
  induction start using wellFounded.induction with
  | _ state inductionHypothesis =>
      by_cases done : finished state
      · exact ⟨state, .refl, initial, done⟩
      · obtain ⟨after, stepped, kept, descends⟩ := progress state initial done
        have lower := List.Shortlex.of_lex descends.length_eq descends.lex
        obtain ⟨final, run, both⟩ := inductionHypothesis after lower kept
        exact ⟨final, .head stepped run, both⟩

/-- A rank that never rises, and falls within every span as long as something is left, comes
to nothing. -/
theorem exhausted {rank : Nat → Nat} {span : Nat} (never : ∀ k, rank (k + 1) ≤ rank k)
    (soon : ∀ k, 0 < rank k → rank (k + span) < rank k) {k n : Nat}
    (long : span * rank k ≤ n) : rank (k + n) = 0 := by
  have falls : Antitone rank := antitone_nat_of_succ_le never
  induction left : rank k using Nat.strong_induction_on generalizing k n with
  | _ left' inductionHypothesis =>
      subst left
      rcases Nat.eq_zero_or_pos (rank k) with none | some
      · exact Nat.le_zero.mp (none ▸ falls (Nat.le_add_right k n))
      · have fewer := soon k some
        have shorter : span * (rank (k + span) + 1) ≤ n :=
          (Nat.mul_le_mul_left span fewer).trans long
        rw [Nat.mul_add, Nat.mul_one] at shorter
        have later := inductionHypothesis _ fewer
          (show span * rank (k + span) ≤ n - span by omega) rfl
        rwa [show k + span + (n - span) = k + n by omega] at later

/-- As long as there is a step from every state that keeps what holds of it, there is a
run. -/
theorem exists_run {State : Type*} {step : State → State → Prop}
    {invariant : Nat → State → Prop}
    (next : ∀ k state, invariant k state → ∃ after, step state after ∧ invariant (k + 1) after)
    {start : State} (initial : invariant 0 start) :
    ∃ run : Nat → State, run 0 = start ∧ ∀ k, step (run k) (run (k + 1)) := by
  choose after stepped kept using next
  let states : ∀ k, { state // invariant k state } := fun k =>
    Nat.rec ⟨start, initial⟩ (fun k state => ⟨after k state.1 state.2, kept k state.1 state.2⟩) k
  exact ⟨fun k => (states k).1, rfl, fun k => stepped k (states k).1 (states k).2⟩

end Ranks
