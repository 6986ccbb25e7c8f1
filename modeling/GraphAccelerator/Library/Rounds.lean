import Mathlib.Algebra.BigOperators.Group.List.Basic
import Mathlib.Algebra.Order.BigOperators.Group.List
import GraphAccelerator.Library.Kernel

/-!
# Rounds of a kernel

In one unit of time all threads that are due take their turns.  When every turn lowers a
rank, or is the turn of a thread that has nothing to do, a run goes on from one unit to
the next until it is to stop; what the environment does counts as a step of its own.
-/

namespace Kernel

open Ranks

section Cycles

universe u v

variable {Thread : Type u} [DecidableEq Thread] {State : Type v}
variable {R : Timed Thread State → Timed Thread State → Prop}

/-- The threads that are due take their turns. -/
theorem exists_round {holds : (Thread → Nat) → State → Prop} {now : Nat}
    (turn : ∀ due state thread, holds due state → due thread = now → ∃ after delay, 0 < delay ∧
      R ⟨now, due, state⟩ ⟨now, Function.update due thread (now + delay), after⟩ ∧
      holds (Function.update due thread (now + delay)) after)
    (threads : List Thread) {due : Thread → Nat} {state : State} (initial : holds due state) :
    ∃ later final, Relation.ReflTransGen R ⟨now, due, state⟩ ⟨now, later, final⟩ ∧
      holds later final ∧ (∀ thread ∈ threads, later thread ≠ now) ∧
      ∀ thread, due thread ≠ now → later thread = due thread := by
  induction threads generalizing due state with
  | nil => exact ⟨due, state, .refl, initial, by simp, fun _ _ => rfl⟩
  | cons first others inductionHypothesis =>
      by_cases dueNow : due first = now
      · obtain ⟨after, delay, positive, stepped, kept⟩ := turn due state first initial dueNow
        obtain ⟨later, final, run, holdsFinal, done, others⟩ := inductionHypothesis kept
        have waits : later first = now + delay := by
          rw [others first (by rw [Function.update_self]; omega), Function.update_self]
        refine ⟨later, final, .head stepped run, holdsFinal, ?_, fun thread notDue => ?_⟩
        · rintro thread (_ | ⟨_, rest⟩)
          · omega
          · exact done thread rest
        · have differs : thread ≠ first := by
            rintro rfl
            exact notDue dueNow
          rw [others thread (by rwa [Function.update_of_ne differs]), Function.update_of_ne differs]
      · obtain ⟨later, final, run, holdsFinal, done, others⟩ := inductionHypothesis initial
        refine ⟨later, final, run, holdsFinal, ?_, others⟩
        rintro thread (_ | ⟨_, rest⟩)
        · rw [others first dueNow]
          exact dueNow
        · exact done thread rest

variable {rank : State → List Nat} {idle : Thread → State → Prop} {settle : State → State}
variable {holds stop : Timed Thread State → Prop}

/-- A turn lowers the rank, unless the thread has nothing to do. -/
def Works (R : Timed Thread State → Timed Thread State → Prop) (rank : State → List Nat)
    (idle : Thread → State → Prop) (holds : Timed Thread State → Prop) : Prop :=
  ∀ now due state thread, holds ⟨now, due, state⟩ → due thread = now → ∃ after delay, 0 < delay ∧
    R ⟨now, due, state⟩ ⟨now, Function.update due thread (now + delay), after⟩ ∧
    holds ⟨now, Function.update due thread (now + delay), after⟩ ∧
    (Descends (rank state) (rank after) ∨ after = state ∧ delay = 1 ∧ idle thread state)

theorem Works.round (works : Works R rank idle holds) {threads : List Thread}
    (all : ∀ thread, thread ∈ threads) {now : Nat} {due : Thread → Nat} {state : State}
    (initial : holds ⟨now, due, state⟩) (notPast : ∀ thread, now ≤ due thread) :
    ∃ later final, Relation.ReflTransGen R ⟨now, due, state⟩ ⟨now, later, final⟩ ∧
      holds ⟨now, later, final⟩ ∧ (∀ thread, now < later thread) ∧
      (Descends (rank state) (rank final) ∨ final = state ∧
        (∀ thread, due thread = now → idle thread state) ∧
        ∀ thread, later thread = max (due thread) (now + 1)) := by
  obtain ⟨later, final, run, ⟨kept, notPast', moved⟩, done, others⟩ := @exists_round _ _ _ R
    (fun due' state' => holds ⟨now, due', state'⟩ ∧ (∀ thread, now ≤ due' thread) ∧
      (Descends (rank state) (rank state') ∨ state' = state ∧ ∀ thread, due' thread = due thread ∨
        due thread = now ∧ due' thread = now + 1 ∧ idle thread state)) now
    (fun due' state' thread both dueNow => by
      obtain ⟨kept, notPast, moved⟩ := both
      obtain ⟨after, delay, positive, stepped, kept, worked⟩ :=
        works now due' state' thread kept dueNow
      refine ⟨after, delay, positive, stepped, kept, fun other => ?_, ?_⟩
      · by_cases same : other = thread
        · rw [same, Function.update_self]
          omega
        · rw [Function.update_of_ne same]
          exact notPast other
      · rcases moved with descends | ⟨rfl, waited⟩
        · rcases worked with lower | ⟨rfl, _, _⟩
          · exact .inl (descends.trans lower)
          · exact .inl descends
        · rcases worked with lower | ⟨rfl, rfl, rested⟩
          · exact .inl lower
          · refine .inr ⟨rfl, fun other => ?_⟩
            by_cases same : other = thread
            · subst same
              rw [Function.update_self]
              refine .inr ⟨?_, rfl, rested⟩
              rcases waited other with before | ⟨dueBefore, _, _⟩
              · rw [← before, dueNow]
              · exact dueBefore
            · rw [Function.update_of_ne same]
              exact waited other) threads _ _
    ⟨initial, notPast, .inr ⟨rfl, fun _ => .inl rfl⟩⟩
  have waiting : ∀ thread, now < later thread := fun thread =>
    Nat.lt_of_le_of_ne (notPast' thread) (Ne.symm (done thread (all thread)))
  refine ⟨later, final, run, kept, waiting, moved.imp_right ?_⟩
  rintro ⟨same, waited⟩
  refine ⟨same, fun thread dueNow => ?_, fun thread => ?_⟩
  · rcases waited thread with before | ⟨_, _, rested⟩
    · exact absurd (before.trans dueNow) (Nat.ne_of_gt (waiting thread))
    · exact rested
  · have := waiting thread
    rcases waited thread with before | ⟨dueBefore, after, _⟩
    · omega
    · omega

/-- How long the threads still wait beyond the next unit of time. -/
def slack (threads : List Thread) (timed : Timed Thread State) : Nat :=
  (threads.map fun thread => timed.due thread - (timed.now + 1)).sum

/-- From a state in which all threads wait a run goes on until it is to stop, if whenever all
threads are due and idle the environment has something to do, or a clock comes closer to its
end. -/
theorem Works.exists_stop (works : Works R rank idle holds) {threads : List Thread}
    (all : ∀ thread, thread ∈ threads) (clock : State → Nat)
    (tick : ∀ now due state, holds ⟨now, due, state⟩ → (∀ thread, now < due thread) →
      ¬ stop ⟨now, due, state⟩ → R ⟨now, due, state⟩ ⟨now + 1, due, settle state⟩ ∧
        holds ⟨now + 1, due, settle state⟩ ∧ rank (settle state) = rank state ∧
        (∀ thread, idle thread (settle state) → idle thread state) ∧
        clock (settle state) ≤ clock state)
    (nudge : ∀ now due state, holds ⟨now, due, state⟩ → (∀ thread, due thread = now + 1) →
      ¬ stop ⟨now, due, state⟩ → (∀ thread, idle thread state) →
      clock (settle state) < clock state ∨ ∃ after, R ⟨now, due, state⟩ ⟨now, due, after⟩ ∧
        holds ⟨now, due, after⟩ ∧ Descends (rank state) (rank after))
    {start : Timed Thread State} (initial : holds start)
    (waiting : ∀ thread, start.now < start.due thread) :
    ∃ final, Relation.ReflTransGen R start final ∧ holds final ∧
      (∀ thread, final.now < final.due thread) ∧ stop final := by
  obtain ⟨final, run, ⟨kept, waits⟩, stops⟩ := @exists_finished (Timed Thread State)
    (Relation.ReflTransGen R) (fun timed => holds timed ∧ ∀ thread, timed.now < timed.due thread)
    stop (fun timed => rank timed.state ++ [slack threads timed, clock timed.state])
    (fun timed kept goesOn => by
      obtain ⟨now, due, state⟩ := timed
      obtain ⟨kept, waiting⟩ := kept
      by_cases rest : ∃ after, R ⟨now, due, state⟩ ⟨now, due, after⟩ ∧ holds ⟨now, due, after⟩ ∧
          Descends (rank state) (rank after)
      · obtain ⟨after, stepped, kept, descends⟩ := rest
        exact ⟨⟨now, due, after⟩, .single stepped, ⟨kept, waiting⟩, descends.append (by rfl)⟩
      obtain ⟨ticked, kept', same, idles, notLater⟩ := tick now due state kept waiting goesOn
      obtain ⟨later, final, run, kept', waits, moved⟩ := works.round all kept' waiting
      refine ⟨⟨now + 1, later, final⟩, .head ticked run, ⟨kept', waits⟩, ?_⟩
      rw [same] at moved
      rcases moved with descends | ⟨rfl, rested, dues⟩
      · exact descends.append (by rfl)
      · dsimp only
        rw [same]
        refine Descends.behind ?_ _
        have shorter : ∀ thread, later thread - (now + 1 + 1) = due thread - (now + 1) - 1 := by
          intro thread
          rw [dues thread]
          have := waiting thread
          omega
        have less : slack threads (⟨now + 1, later, settle state⟩ : Timed Thread State) ≤
            slack threads ⟨now, due, state⟩ := by
          refine List.sum_le_sum fun thread _ => ?_
          dsimp only
          rw [shorter thread]
          exact Nat.sub_le _ _
        by_cases allDue : ∀ thread, due thread = now + 1
        · have quiet := fun thread => idles thread (rested thread (allDue thread))
          have ends := (nudge now due state kept allDue goesOn quiet).resolve_right rest
          exact .inr ⟨less, .inl ⟨ends, rfl⟩⟩
        · obtain ⟨thread, notDue⟩ := not_forall.mp allDue
          refine .inl ⟨?_, rfl⟩
          refine List.sum_lt_sum _ _ (fun thread _ => ?_) ⟨thread, all thread, ?_⟩
          · dsimp only
            rw [shorter thread]
            exact Nat.sub_le _ _
          · dsimp only
            rw [shorter thread]
            have : now < due thread := waiting thread
            show due thread - (now + 1) - 1 < due thread - (now + 1)
            omega)
    start ⟨initial, waiting⟩
  exact ⟨final, Relation.reflTransGen_eq_self.le _ _ run, kept, waits, stops⟩

end Cycles

end Kernel
