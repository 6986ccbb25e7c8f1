import Mathlib.Tactic.Common
import Mathlib.Logic.Function.Basic
import Mathlib.Logic.Relation
import GraphAccelerator.Library.Ranks

/-!
# A timed cooperative kernel

A thread runs without interruption from one `wait` to the next and names the delay
of the wait; threads that are due at the same time run in any order.  Time advances
when nobody is due any more, and the signals take their new values at that point.
A `Signal` with one writer and one reader of the same period is a queue: what the
reader has not seen yet is `unread`, a write appends to it and a read removes its
head.
-/

namespace Kernel

universe u v w

/-- The rule of invariants over runs. -/
theorem invariant_of_step {State : Type u} {step : State → State → Prop}
    (invariant : State → Prop) {start final : State}
    (run : Relation.ReflTransGen step start final) (initial : invariant start)
    (preserved : ∀ before after, invariant before → step before after → invariant after) :
    invariant final := by
  induction run with
  | refl => exact initial
  | tail _ stepped inductionHypothesis => exact preserved _ _ inductionHypothesis stepped

/-- A state of the simulation: the time, the time at which each thread is due, and
everything the threads share. -/
structure Timed (Thread : Type u) (State : Type v) where
  now : Nat
  due : Thread → Nat
  state : State

section Steps

variable {Thread : Type u} [DecidableEq Thread] {State : Type v}

/-- One step.  `resume thread now before after delay` is what a thread may do
between two waits, `interfere` what the environment may do at any time, `settle` the
update of the signals. -/
inductive Step (resume : Thread → Nat → State → State → Nat → Prop)
    (interfere : Nat → State → State → Prop) (settle : State → State) :
    Timed Thread State → Timed Thread State → Prop
  | resume {now : Nat} {due : Thread → Nat} {before after : State} {thread : Thread}
      {delay : Nat} : due thread = now → 0 < delay → resume thread now before after delay →
      Step resume interfere settle ⟨now, due, before⟩
        ⟨now, Function.update due thread (now + delay), after⟩
  | interfere {now : Nat} {due : Thread → Nat} {before after : State} :
      interfere now before after →
      Step resume interfere settle ⟨now, due, before⟩ ⟨now, due, after⟩
  | advance {now : Nat} {due : Thread → Nat} {state : State} :
      (∀ thread, now < due thread) →
      Step resume interfere settle ⟨now, due, state⟩ ⟨now + 1, due, settle state⟩

section Runs

variable {resume : Thread → Nat → State → State → Nat → Prop}
  {interfere : Nat → State → State → Prop} {settle : State → State}
  {before after : Timed Thread State}

theorem Step.notPast (stepped : Step resume interfere settle before after)
    (notPast : ∀ thread, before.now ≤ before.due thread) (thread : Thread) :
    after.now ≤ after.due thread := by
  cases stepped with
  | @resume now due _ _ other delay dueNow _ _ =>
      by_cases same : thread = other
      · subst same
        simp
      · simpa [same] using notPast thread
  | interfere _ => exact notPast thread
  | advance waiting => exact waiting thread

/-- A thread that waits for one unit of time is never due later than that. -/
theorem Step.soon (stepped : Step resume interfere settle before after) {thread : Thread}
    (unit : ∀ now before after delay, resume thread now before after delay → delay = 1)
    (soon : before.due thread ≤ before.now + 1) : after.due thread ≤ after.now + 1 := by
  cases stepped with
  | @resume now due _ _ other delay dueNow _ ran =>
      by_cases same : thread = other
      · subst same
        simp [unit _ _ _ _ ran]
      · simpa [same] using soon
  | interfere _ => exact soon
  | advance _ => exact Nat.le_succ_of_le soon

/-- A step of threads that may also wait for no time. -/
inductive FreeStep (resume : Thread → Nat → State → State → Nat → Prop)
    (interfere : Nat → State → State → Prop) (settle : State → State) :
    Timed Thread State → Timed Thread State → Prop
  | resume {now : Nat} {due : Thread → Nat} {before after : State} {thread : Thread}
      {delay : Nat} : due thread = now → resume thread now before after delay →
      FreeStep resume interfere settle ⟨now, due, before⟩
        ⟨now, Function.update due thread (now + delay), after⟩
  | interfere {now : Nat} {due : Thread → Nat} {before after : State} :
      interfere now before after →
      FreeStep resume interfere settle ⟨now, due, before⟩ ⟨now, due, after⟩
  | advance {now : Nat} {due : Thread → Nat} {state : State} :
      (∀ thread, now < due thread) →
      FreeStep resume interfere settle ⟨now, due, state⟩ ⟨now + 1, due, settle state⟩

theorem Step.free (stepped : Step resume interfere settle before after) :
    FreeStep resume interfere settle before after := by
  cases stepped with
  | resume dueNow _ ran => exact .resume dueNow ran
  | interfere moved => exact .interfere moved
  | advance waiting => exact .advance waiting

theorem Step.free_run {start final : Timed Thread State}
    (run : Relation.ReflTransGen (Step resume interfere settle) start final) :
    Relation.ReflTransGen (FreeStep resume interfere settle) start final :=
  Relation.ReflTransGen.mono (fun _ _ stepped => stepped.free) _ _ run

/-- Where every wait takes time, it is no restriction that waits have to. -/
theorem FreeStep.run {start final : Timed Thread State}
    (positive : ∀ {now due before thread after delay},
      Relation.ReflTransGen (Step resume interfere settle) start ⟨now, due, before⟩ →
        resume thread now before after delay → 0 < delay)
    (free : Relation.ReflTransGen (FreeStep resume interfere settle) start final) :
    Relation.ReflTransGen (Step resume interfere settle) start final := by
  induction free with
  | refl => exact .refl
  | tail _ stepped inductionHypothesis =>
      refine inductionHypothesis.tail ?_
      cases stepped with
      | resume dueNow ran => exact .resume dueNow (positive inductionHypothesis ran) ran
      | interfere moved => exact .interfere moved
      | advance waiting => exact .advance waiting

end Runs

def dueAt (dues : List (Thread × Nat)) (thread : Thread) : Nat :=
  ((dues.find? fun entry => entry.1 = thread).map (·.2)).getD 0

theorem dueAt_update {done rest : List (Thread × Nat)} {thread : Thread}
    (absent : ∀ entry ∈ done, entry.1 ≠ thread) (due later : Nat) :
    Function.update (dueAt (done ++ (thread, due) :: rest)) thread later =
      dueAt (done ++ (thread, later) :: rest) := by
  have none : done.find? (fun entry => decide (entry.1 = thread)) = none :=
    List.find?_eq_none.mpr fun entry known => by simpa using absent entry known
  funext other
  by_cases same : other = thread
  · subst same
    simp [dueAt, List.find?_append, none]
  · rw [Function.update_of_ne same]
    simp [dueAt, List.find?_append, Ne.symm same]

theorem dueAt_zero (threads : List Thread) : dueAt (threads.map (·, 0)) = fun _ => 0 := by
  funext thread
  cases found : (threads.map (·, 0)).find? fun entry => entry.1 = thread with
  | none => simp [dueAt, found]
  | some entry =>
      obtain ⟨_, _, rfl⟩ := List.mem_map.mp (List.mem_of_find?_eq_some found)
      simp [dueAt, found]

def round (turn : Thread → State → Option (State × Nat)) (now : Nat) :
    List (Thread × Nat) → State → Option (List (Thread × Nat) × State)
  | [], state => some ([], state)
  | (thread, due) :: rest, state =>
      if due = now then
        (turn thread state).bind fun (after, delay) =>
          if 0 < delay then
            (round turn now rest after).map fun (dues, final) => ((thread, now + delay) :: dues, final)
          else none
      else (round turn now rest state).map fun (dues, final) => ((thread, due) :: dues, final)

section Rounds

variable {R : Timed Thread State → Timed Thread State → Prop}

theorem round_run {turn : Thread → State → Option (State × Nat)} {now : Nat}
    (resumed : ∀ {due thread before after delay}, due thread = now → 0 < delay →
      turn thread before = some (after, delay) →
      R ⟨now, due, before⟩ ⟨now, Function.update due thread (now + delay), after⟩)
    {done rest dues : List (Thread × Nat)} {state final : State}
    (nodup : ((done ++ rest).map (·.1)).Nodup)
    (ran : round turn now rest state = some (dues, final)) :
    dues.map (·.1) = rest.map (·.1) ∧
      Relation.ReflTransGen R ⟨now, dueAt (done ++ rest), state⟩
        ⟨now, dueAt (done ++ dues), final⟩ := by
  induction rest generalizing done dues state with
  | nil =>
      obtain ⟨rfl, rfl⟩ := Prod.mk.inj (Option.some.inj ran)
      exact ⟨rfl, .refl⟩
  | cons entry rest inductionHypothesis =>
      obtain ⟨thread, due⟩ := entry
      have absent : ∀ entry ∈ done, entry.1 ≠ thread := by
        rw [List.map_append, List.nodup_append] at nodup
        exact fun entry known same => nodup.2.2 entry.1 (List.mem_map_of_mem known) thread
          (by simp) same
      have later : ∀ {time dues' state}, round turn now rest state = some (dues', final) →
          dues'.map (·.1) = rest.map (·.1) ∧
          Relation.ReflTransGen R
            ⟨now, dueAt (done ++ (thread, time) :: rest), state⟩
            ⟨now, dueAt (done ++ (thread, time) :: dues'), final⟩ := by
        intro time dues' state ran
        have both := @inductionHypothesis (done ++ [(thread, time)]) dues' state
          (by simpa using nodup) ran
        simpa using both
      rw [round] at ran
      split at ran
      · rename_i dueNow
        obtain ⟨⟨after, delay⟩, turned, waits⟩ := Option.bind_eq_some_iff.mp ran
        dsimp only at waits
        split at waits
        · rename_i positive
          obtain ⟨⟨others, ended⟩, rounded, same⟩ := Option.map_eq_some_iff.mp waits
          obtain ⟨rfl, rfl⟩ := Prod.mk.inj same
          obtain ⟨keys, run⟩ := later rounded
          refine ⟨congrArg (thread :: ·) keys, .head ?_ run⟩
          rw [← dueAt_update absent due (now + delay)]
          refine resumed ?_ positive turned
          rw [← dueAt_update absent due due, Function.update_self, dueNow]
        · cases waits
      · obtain ⟨⟨others, ended⟩, rounded, same⟩ := Option.map_eq_some_iff.mp ran
        obtain ⟨rfl, rfl⟩ := Prod.mk.inj same
        obtain ⟨keys, run⟩ := later rounded
        exact ⟨congrArg (thread :: ·) keys, run⟩

variable {Move : Type w} {turn : Nat → Thread → State → Option (State × Nat)}
variable {move : Nat → State → Move → Option State} {settle : State → State}
variable {permits : State → Bool} {now : Nat}

/-- Units of time: in each the environment makes its moves, the threads that are due take
their turns, and time advances if the state permits it. -/
def rounds (turn : Nat → Thread → State → Option (State × Nat))
    (move : Nat → State → Move → Option State) (settle : State → State) (permits : State → Bool) :
    Nat → List (List Move) → List (Thread × Nat) → State → Option (List (Thread × Nat) × State)
  | _, [], dues, state => some (dues, state)
  | now, moves :: later, dues, state =>
      ((moves.foldlM (move now) state).bind (round (turn now) now dues)).bind fun (dues, ended) =>
        if (∀ entry ∈ dues, now < entry.2) ∧ permits ended then
          rounds turn move settle permits (now + 1) later dues (settle ended)
        else none

omit [DecidableEq Thread] in
theorem moves_run (moved : ∀ {due made before after}, move now before made = some after →
      R ⟨now, due, before⟩ ⟨now, due, after⟩)
    {made : List Move} {due : Thread → Nat} {state final : State}
    (ran : made.foldlM (move now) state = some final) :
    Relation.ReflTransGen R ⟨now, due, state⟩ ⟨now, due, final⟩ := by
  induction made generalizing state with
  | nil =>
      obtain rfl := Option.some.inj ran
      exact .refl
  | cons first others inductionHypothesis =>
      rw [List.foldlM_cons, Option.bind_eq_bind, Option.bind_eq_some_iff] at ran
      obtain ⟨next, stepped, ran⟩ := ran
      exact .head (moved stepped) (inductionHypothesis ran)

theorem lt_dueAt {dues : List (Thread × Nat)} (waiting : ∀ entry ∈ dues, now < entry.2)
    {thread : Thread} (listed : thread ∈ dues.map (·.1)) : now < dueAt dues thread := by
  cases found : dues.find? fun entry => entry.1 = thread with
  | none =>
      obtain ⟨entry, known, rfl⟩ := List.mem_map.mp listed
      simpa using List.find?_eq_none.mp found entry known
  | some entry =>
      rw [dueAt, found]
      exact waiting entry (List.mem_of_find?_eq_some found)

/-- What happens in the units is a step of the relation. -/
structure Replays (R : Timed Thread State → Timed Thread State → Prop)
    (turn : Nat → Thread → State → Option (State × Nat))
    (move : Nat → State → Move → Option State) (settle : State → State) (permits : State → Bool) :
    Prop where
  resumed : ∀ {now due thread before after delay}, due thread = now → 0 < delay →
    turn now thread before = some (after, delay) →
    R ⟨now, due, before⟩ ⟨now, Function.update due thread (now + delay), after⟩
  moved : ∀ {now due made before after}, move now before made = some after →
    R ⟨now, due, before⟩ ⟨now, due, after⟩
  advanced : ∀ {now due state}, (∀ thread, now < due thread) → permits state = true →
    R ⟨now, due, state⟩ ⟨now + 1, due, settle state⟩

theorem replays_step {resume : Thread → Nat → State → State → Nat → Prop}
    {interfere : Nat → State → State → Prop}
    (lawful : ∀ now thread before after delay, turn now thread before = some (after, delay) →
      resume thread now before after delay)
    (moves : ∀ now made before after, move now before made = some after →
      interfere now before after) :
    Replays (Step resume interfere settle) turn move settle permits where
  resumed dueNow positive turned := .resume dueNow positive (lawful _ _ _ _ _ turned)
  moved made := .interfere (moves _ _ _ _ made)
  advanced waiting _ := .advance waiting

theorem rounds_run (replays : Replays R turn move settle permits)
    {units : List (List Move)} {dues ended : List (Thread × Nat)}
    {state final : State} (nodup : (dues.map (·.1)).Nodup) (all : ∀ thread, thread ∈ dues.map (·.1))
    (ran : rounds turn move settle permits now units dues state = some (ended, final)) :
    ended.map (·.1) = dues.map (·.1) ∧
      Relation.ReflTransGen R ⟨now, dueAt dues, state⟩
        ⟨now + units.length, dueAt ended, final⟩ := by
  induction units generalizing now dues state with
  | nil =>
      rw [rounds, Option.some.injEq, Prod.mk.injEq] at ran
      obtain ⟨rfl, rfl⟩ := ran
      exact ⟨rfl, .refl⟩
  | cons unit units inductionHypothesis =>
      simp only [rounds, Option.bind_eq_some_iff] at ran
      obtain ⟨⟨next, reached⟩, ⟨between, made, rounded⟩, ran⟩ := ran
      split at ran
      · rename_i waits
        obtain ⟨waiting, permitted⟩ := waits
        obtain ⟨keys, turns⟩ := @round_run _ _ _ R (turn now) now replays.resumed [] _ _ _ _
          nodup rounded
        rw [← keys] at nodup all
        obtain ⟨sameKeys, later⟩ := inductionHypothesis nodup all ran
        rw [Nat.add_right_comm, Nat.add_assoc] at later
        have first : Relation.ReflTransGen R ⟨now, dueAt dues, state⟩ ⟨now, dueAt dues, between⟩ :=
          moves_run replays.moved made
        exact ⟨sameKeys.trans keys, (first.trans turns).trans
          (.head (replays.advanced (fun thread => lt_dueAt waiting (all thread)) permitted) later)⟩
      · cases ran

theorem rounds_round_run (replays : Replays R turn move settle permits)
    {units : List (List Move)} {dues last : List (Thread × Nat)}
    {state final : State} (nodup : (dues.map (·.1)).Nodup) (all : ∀ thread, thread ∈ dues.map (·.1))
    (ran : ((rounds turn move settle permits now units dues state).bind fun (dues, state) =>
      round (turn (now + units.length)) (now + units.length) dues state) = some (last, final))
    (waiting : ∀ entry ∈ last, now + units.length < entry.2) :
    Relation.ReflTransGen R ⟨now, dueAt dues, state⟩
        ⟨now + units.length, dueAt last, final⟩ ∧
      ∀ thread, now + units.length < dueAt last thread := by
  obtain ⟨⟨reached, before⟩, units, turns⟩ := Option.bind_eq_some_iff.mp ran
  obtain ⟨keys, run⟩ := rounds_run replays nodup all units
  rw [← keys] at nodup all
  obtain ⟨sameKeys, ended⟩ := @round_run _ _ _ R (turn _) _ replays.resumed [] _ _ _ _ nodup turns
  exact ⟨run.trans ended, fun thread => lt_dueAt waiting (sameKeys ▸ all thread)⟩

end Rounds

/-- A thread that waits for the same delay every time: it is due at a multiple of its
period, and not later than one period from now. -/
structure Aligned (period now due : Nat) : Prop where
  multiple : period ∣ due
  notPast : now ≤ due
  soon : due ≤ now + period

theorem aligned_zero (period : Nat) : Aligned period 0 0 := ⟨by simp, Nat.le_refl 0, by simp⟩

variable {period now due other : Nat}

theorem Aligned.resume (aligned : Aligned period now now) :
    Aligned period now (now + period) :=
  ⟨Nat.dvd_add aligned.multiple (Nat.dvd_refl period), by omega, Nat.le_refl _⟩

theorem Aligned.advance (aligned : Aligned period now due) (waiting : now < due) :
    Aligned period (now + 1) due :=
  ⟨aligned.multiple, waiting, by have := aligned.soon; omega⟩

/-- Of two threads of one period the later one has just run, and the earlier one is
about to. -/
theorem Aligned.of_lt (aligned : Aligned period now due) (later : Aligned period now other)
    (less : due < other) : due = now ∧ other = now + period := by
  obtain ⟨gap, rfl⟩ := Nat.exists_eq_add_of_le (Nat.le_of_lt less)
  have divides : period ∣ gap := (Nat.dvd_add_right aligned.multiple).mp later.multiple
  have least : period ≤ gap := Nat.le_of_dvd (by omega) divides
  have := aligned.notPast
  have := later.soon
  omega

end Steps

structure Signal (Value : Type u) where
  current : Value
  next : Value
  deriving DecidableEq, Repr

namespace Signal

variable {Value : Type u}

def write (signal : Signal Value) (value : Value) : Signal Value :=
  { signal with next := value }

def settle (signal : Signal Value) : Signal Value :=
  { signal with current := signal.next }

/-- The values that were written and not read yet, for a writer and a reader that are
due at the given times. -/
def unread (signal : Signal Value) (writer reader : Nat) : List Value :=
  if reader < writer then [signal.current, signal.next]
  else if writer < reader then []
  else [signal.next]

def Settled (signal : Signal Value) (period now writer : Nat) : Prop :=
  writer ≠ now + period → signal.current = signal.next

variable {signal : Signal Value} {period now writer reader : Nat}

theorem unread_write (positive : 0 < period) (reading : Kernel.Aligned period now reader)
    (writing : Kernel.Aligned period now now) (settled : signal.Settled period now now)
    (value : Value) :
    (signal.write value).unread (now + period) reader = signal.unread now reader ++ [value] := by
  have same : signal.current = signal.next := settled (by omega)
  rcases Nat.lt_or_eq_of_le reading.notPast with ahead | rfl
  · obtain ⟨_, rfl⟩ := writing.of_lt reading ahead
    simp [unread, write, positive]
  · simp [unread, write, positive, same]

theorem unread_read (positive : 0 < period) (writing : Kernel.Aligned period now writer)
    (reading : Kernel.Aligned period now now) (settled : signal.Settled period now writer) :
    signal.unread writer now = signal.current :: signal.unread writer (now + period) := by
  rcases Nat.lt_or_eq_of_le writing.notPast with ahead | rfl
  · obtain ⟨_, rfl⟩ := reading.of_lt writing ahead
    simp [unread, positive]
  · have same : signal.current = signal.next := settled (by omega)
    simp [unread, positive, same]

theorem unread_settle (writing : Kernel.Aligned period now writer)
    (reading : Kernel.Aligned period now reader) (waiting : now < reader) :
    signal.settle.unread writer reader = signal.unread writer reader := by
  have notBehind : ¬ reader < writer := fun behind => by
    have := (reading.of_lt writing behind).1
    omega
  simp [unread, settle, notBehind]

theorem settled_settle : signal.settle.Settled period now writer := fun _ => rfl

theorem settled_write (value : Value) :
    (signal.write value).Settled period now (now + period) := fun other => absurd rfl other

end Signal

end Kernel
