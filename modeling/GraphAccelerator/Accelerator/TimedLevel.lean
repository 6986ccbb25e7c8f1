import GraphAccelerator.Accelerator.Iterations
import GraphAccelerator.Accelerator.TimedSearch
import GraphAccelerator.Library.Rounds

/-!
# A level over time

Within a level the state that counts is the one in which all threads have seen its start.
The start signal comes and goes, and then the level settles: cycle after cycle the threads
take their turns, and when none of them has anything to do, it is for the memory to answer,
or for the counter of the controller to reach its end.
-/

namespace GraphAccelerator

open Memory Kernel Ranks Bfs LevelPass

namespace Pe

variable {gl : Gl} {pe after first root : Pe} {delay now : Nat} {due : TimedThread → Nat}
variable {ramData : List Byte} {timed : Timed TimedThread Pe} {thread : TimedThread}
variable {answers more : Port → Prop}

/-- The state of the level that starts with `first`, where all threads have seen its start. -/
def seen (gl : Gl) (first : Pe) (timed : Timed TimedThread Pe) : Pe :=
  timed.state.observing gl first.localCounter (toObserve timed)

theorem seen_resume {thread : TimedThread} (phase : Phase gl first ⟨now, due, pe⟩)
    (late : 10 ≤ pe.localCounter) (dueNow : due thread = now) (positive : 0 < delay)
    (ran : pe.resume gl thread.val = some (after, delay)) :
    (seen gl first ⟨now, due, pe⟩).resume gl thread.val =
      some (seen gl first ⟨now, Function.update due thread (now + delay), after⟩, delay) := by
  cases phase with
  | before early _ _ => exact absurd late (Nat.not_le.mpr early)
  | within _ _ idle _ =>
      have frame := resume_frame thread.property ran
      have observed := @toObserve_resume pe after now delay due thread frame.bfsIterationStart
        positive
      have ready := @toObserve_ready gl ⟨now, due, pe⟩ thread dueNow idle
      have moved := @resume_observing gl first.localCounter _ pe thread.val thread.property ready
      rw [ran, Option.map_some, Prod.map_apply] at moved
      rw [seen, seen, observed]
      exact moved

theorem seen_answer {i : Port} (answered : pe.answer i = some after) :
    (seen gl first ⟨now, due, pe⟩).answer i = some (seen gl first ⟨now, due, after⟩) := by
  have moved := @answer_observing gl first.localCounter (toObserve ⟨now, due, pe⟩) pe i
  rw [answered, Option.map_some] at moved
  have start : after.bfsIterationStart = pe.bfsIterationStart := by
    cases answer_cases answered <;> rfl
  have observed : toObserve ⟨now, due, after⟩ = toObserve ⟨now, due, pe⟩ := by
    simp only [toObserve, start]
  rw [seen, seen, observed]
  exact moved

theorem seen_running (running : timed.state.bfsIterationStart = false) :
    seen gl first timed = timed.state.observing gl first.localCounter .none := by
  rw [seen, toObserve_running running]

theorem seen_advance (late : 10 ≤ pe.localCounter) (waiting : ∀ thread, now < due thread)
    (goesOn : pe.endsLevel = false) :
    seen gl first ⟨now + 1, due, pe.bfsController⟩ = seen gl first ⟨now, due, pe⟩ := by
  have next : 11 ≤ pe.nextCounter := by
    rw [nextCounter]
    split <;> omega
  have running : (pe.nextCounter == 10) = false := by
    simp only [beq_eq_false_iff_ne]
    omega
  rw [seen_running (by rw [bfsController_of_not_ends goesOn]; exact running), seen,
    toObserve_waiting waiting, bfsController_of_not_ends goesOn]
  rfl

/-- A step within a level in which the memory answers some ports only. -/
inductive StepOn (gl : Gl) (answers : Port → Prop) : Pe → Pe → Prop
  | resume {pe after : Pe} {thread : PeThread} {delay : Nat} : thread ≠ .bfsController →
      resume gl thread pe = some (after, delay) → StepOn gl answers pe after
  | answer {pe after : Pe} {i : Port} : answers i → answer i pe = some after →
      StepOn gl answers pe after

theorem StepOn.level {answers : Port → Prop} (stepped : StepOn gl answers pe after) :
    LevelStep gl pe after := by
  cases stepped with
  | resume timed ran => exact .resume timed ran
  | answer _ answered => exact .answer answered

theorem StepOn.mono (weaker : ∀ i, answers i → more i) {before after : Pe}
    (stepped : StepOn gl answers before after) : StepOn gl more before after := by
  cases stepped with
  | resume timed ran => exact .resume timed ran
  | answer allowed answered => exact .answer (weaker _ allowed) answered

/-- A run over time that is in the level that starts with `first`. -/
structure InLevel (gl : Gl) (ramData : List Byte) (first : Pe) (timed : Timed TimedThread Pe) :
    Prop where
  run : Relation.ReflTransGen (Cycle gl) (start gl ramData) timed
  drained : first.Drained gl
  checked : first.Checked gl
  phase : Phase gl first timed

namespace InLevel

theorem onTime (inLevel : InLevel gl ramData first timed) : OnTime timed :=
  (paced_run inLevel.run).1

theorem within (inLevel : InLevel gl ramData first timed) (late : 10 ≤ timed.state.localCounter) :
    Relation.ReflTransGen (LevelStep gl) (first.observeStart gl) (seen gl first timed) := by
  cases inLevel.phase with
  | before early _ _ => exact absurd late (Nat.not_le.mpr early)
  | within _ _ _ run => exact run

theorem running (inLevel : InLevel gl ramData first timed) (later : 10 < timed.state.localCounter) :
    timed.state.bfsIterationStart = false := by
  cases inLevel.phase with
  | before early _ _ => omega
  | within _ pulse _ _ =>
      refine Bool.eq_false_iff.mpr fun starts => ?_
      have := pulse starts
      omega

theorem resume (inLevel : InLevel gl ramData first ⟨now, due, pe⟩)
    (dueNow : due thread = now) (positive : 0 < delay)
    (ran : pe.resume gl thread.val = some (after, delay)) :
    InLevel gl ramData first ⟨now, Function.update due thread (now + delay), after⟩ where
  run := inLevel.run.tail (.resume dueNow positive ran)
  drained := inLevel.drained
  checked := inLevel.checked
  phase := inLevel.phase.resume inLevel.drained inLevel.checked dueNow positive ran

theorem answer {i : Port} (inLevel : InLevel gl ramData first ⟨now, due, pe⟩)
    (answered : pe.answer i = some after) : InLevel gl ramData first ⟨now, due, after⟩ where
  run := inLevel.run.tail (.interfere ⟨i, answered⟩)
  drained := inLevel.drained
  checked := inLevel.checked
  phase := inLevel.phase.answer inLevel.drained answered

theorem advance (inLevel : InLevel gl ramData first ⟨now, due, pe⟩)
    (waiting : ∀ thread, now < due thread) (goesOn : pe.endsLevel = false) :
    InLevel gl ramData first ⟨now + 1, due, pe.bfsController⟩ where
  run := inLevel.run.tail (.advance waiting)
  drained := inLevel.drained
  checked := inLevel.checked
  phase := inLevel.phase.advance inLevel.drained inLevel.onTime waiting goesOn

end InLevel

/-! ### Settling -/

theorem Idle.observing {thread : PeThread} (idle : pe.Idle gl thread)
    (timed : thread ≠ .bfsController) (running : pe.bfsIterationStart = false) (counter : Nat) :
    (pe.observing gl counter .none).Idle gl thread := by
  have ready : Observers.none.Ready gl pe thread :=
    ⟨fun i _ => ⟨running.symm, fun starts => by simp [running] at starts⟩, fun _ => running.symm⟩
  have moved := @resume_observing gl counter .none pe thread timed ready
  have without : Observers.none.without thread = .none := by
    cases thread <;> simp [Observers.without, Observers.none]
  rw [show pe.resume gl thread = some (pe, 1) from idle, without] at moved
  exact moved

theorem Idle.of_control {thread : PeThread} (idle : pe.bfsController.Idle gl thread)
    (timed : thread ≠ .bfsController) (running : pe.bfsIterationStart = false)
    (late : 10 ≤ pe.localCounter) (goesOn : pe.endsLevel = false) : pe.Idle gl thread := by
  have next : 11 ≤ pe.nextCounter := by
    rw [nextCounter]
    split <;> omega
  have still : (pe.nextCounter == 10) = false := by
    simp only [beq_eq_false_iff_ne]
    omega
  rw [bfsController_of_not_ends goesOn, still] at idle
  have back := idle.observing timed rfl pe.localCounter
  have same : Pe.observing gl pe.localCounter .none { pe with
      localCounter := pe.nextCounter
      bfsIterationStart := false
      toBurstQueues := pe.toBurstQueues } = pe := by
    cases pe
    cases running
    rfl
  rwa [same] at back

/-- What holds while a level settles from `root`, the memory answering some ports only. -/
structure Settling (gl : Gl) (ramData : List Byte) (first root : Pe) (answers : Port → Prop)
    (timed : Timed TimedThread Pe) : Prop where
  inLevel : InLevel gl ramData first timed
  later : 10 < timed.state.localCounter
  steps : Relation.ReflTransGen (StepOn gl answers) root (seen gl first timed)

theorem Settling.resume (settling : Settling gl ramData first root answers ⟨now, due, pe⟩)
    (dueNow : due thread = now) (positive : 0 < delay)
    (ran : pe.resume gl thread.val = some (after, delay)) :
    Settling gl ramData first root answers
      ⟨now, Function.update due thread (now + delay), after⟩ := by
  obtain ⟨inLevel, later, steps⟩ := settling
  refine ⟨inLevel.resume dueNow positive ran, ?_, steps.tail (.resume thread.property
    (seen_resume inLevel.phase (Nat.le_of_lt later) dueNow positive ran))⟩
  rw [(resume_frame thread.property ran).localCounter]
  exact later

theorem Settling.advance (settling : Settling gl ramData first root answers ⟨now, due, pe⟩)
    (waiting : ∀ thread, now < due thread) (goesOn : pe.endsLevel = false) :
    Settling gl ramData first root answers ⟨now + 1, due, pe.bfsController⟩ := by
  obtain ⟨inLevel, later, steps⟩ := settling
  have next : pe.localCounter ≤ pe.nextCounter := by
    rw [nextCounter]
    split <;> omega
  refine ⟨inLevel.advance waiting goesOn, ?_, ?_⟩
  · rw [bfsController_of_not_ends goesOn]
    exact Nat.lt_of_lt_of_le later next
  · rw [seen_advance (Nat.le_of_lt later) waiting goesOn]
    exact steps

theorem Settling.answer {i : Port}
    (settling : Settling gl ramData first root answers ⟨now, due, pe⟩) (allowed : answers i)
    (answered : pe.answer i = some after) :
    Settling gl ramData first root answers ⟨now, due, after⟩ := by
  obtain ⟨inLevel, later, steps⟩ := settling
  refine ⟨inLevel.answer answered, ?_, steps.tail (.answer allowed (seen_answer answered))⟩
  cases answer_cases answered <;> exact later

theorem Settling.mono (weaker : ∀ i, answers i → more i)
    (settling : Settling gl ramData first root answers timed) :
    Settling gl ramData first root more timed :=
  ⟨settling.inLevel, settling.later, Relation.ReflTransGen.mono
    (fun _ _ stepped => stepped.mono weaker) _ _ settling.steps⟩

/-- All threads but the response threads are due in the next cycle. -/
theorem Settling.unit (settling : Settling gl ramData first root answers ⟨now, due, pe⟩)
    (waiting : ∀ thread, now < due thread) (unit : thread.val.transfers = false) :
    due thread = now + 1 :=
  Nat.le_antisymm (settling.inLevel.onTime.soon thread unit) (waiting thread)

section Levels

variable {isUgraph : Bool} {edges : List (Nat × Nat)} {g : Graph} {ram0 : List Byte}
variable {startIdx : Nat} {edge : Nat → Nat → Prop} {out inn : Nat → List Nat}

section Setting

variable (setting : Setting g edge out inn first.ramData first.level)
include setting

theorem InLevel.reached (inLevel : InLevel (Gl.layout g) ramData first timed)
    (late : 10 ≤ timed.state.localCounter) :
    ∃ f, Reached edge out first (seen (Gl.layout g) first timed) g f :=
  reached_run setting inLevel.drained (inLevel.within late)

theorem InLevel.answer_total {i : Port}
    (inLevel : InLevel (Gl.layout g) ramData first ⟨now, due, pe⟩) (late : 10 ≤ pe.localCounter)
    (sent : pe.sent i ≠ []) : ∃ after, pe.answer i = some after := by
  obtain ⟨f, reached⟩ := inLevel.reached setting late
  have sent : (seen (Gl.layout g) first ⟨now, due, pe⟩).sent i ≠ [] := sent
  obtain ⟨moved, answered⟩ := reached.answer_total setting sent
  rw [seen, answer_observing, Option.map_eq_some_iff] at answered
  obtain ⟨after, answered, _⟩ := answered
  exact ⟨after, answered⟩

theorem Settling.reached (settling : Settling (Gl.layout g) ramData first root answers timed) :
    ∃ f, Reached edge out first (seen (Gl.layout g) first timed) g f :=
  settling.inLevel.reached setting (Nat.le_of_lt settling.later)

/-- Where no thread has anything to do, the memory has. -/
theorem Settling.resting
    (settling : Settling (Gl.layout g) ramData first root answers ⟨now, due, pe⟩)
    (idle : ∀ thread : TimedThread, pe.Idle (Gl.layout g) thread.val) :
    Resting (Gl.layout g) (seen (Gl.layout g) first ⟨now, due, pe⟩) := by
  have running : pe.bfsIterationStart = false := settling.inLevel.running settling.later
  have buffer := (paced_run settling.inLevel.run).2.2.room
  obtain ⟨f, reached⟩ := settling.reached setting
  refine reached.resting ?_ fun thread timed => ?_
  · show pe.ciaoBuffer.length < _
    simp only [Gl.ciaoBufferDepth, Gl.baseLen] at buffer ⊢
    omega
  · rw [seen_running running]
    exact (idle ⟨thread, timed⟩).observing timed running _

end Setting

variable (loaded : loadGraph isUgraph (pairRows edges) = some g)
variable (initialized : ramInit g = some ram0) (bound : startIdx < g.vertexNum)
variable (started : setNewStartVertex (Gl.layout g) startIdx ram0 = some ramData)
include loaded initialized bound started

theorem InLevel.exists_turn (inLevel : InLevel (Gl.layout g) ramData first ⟨now, due, pe⟩)
    (thread : TimedThread) :
    ∃ after delay, 0 < delay ∧ pe.resume (Gl.layout g) thread.val = some (after, delay) := by
  have ready := ready_run (loadGraph_builtFrom loaded) (loadGraph_counts loaded).1 initialized
    (arrays_of_started bound started) inLevel.run
  obtain ⟨after, delay, ran⟩ := @Ready.resume_total (Gl.layout g) _ ready _ thread.property
  exact ⟨after, delay, (sized_run (Step.free_run inLevel.run)).positive thread.property ran, ran⟩

theorem Settling.exists_turn
    (settling : Settling (Gl.layout g) ramData first root answers ⟨now, due, pe⟩)
    (dueNow : due thread = now) : ∃ after delay, 0 < delay ∧
      pe.resume (Gl.layout g) thread.val = some (after, delay) ∧
      Settling (Gl.layout g) ramData first root answers
        ⟨now, Function.update due thread (now + delay), after⟩ := by
  obtain ⟨after, delay, positive, ran⟩ :=
    settling.inLevel.exists_turn loaded initialized bound started thread
  exact ⟨after, delay, positive, ran, settling.resume dueNow positive ran⟩

/-- The threads that are due take their turns, and what every turn keeps is kept. -/
theorem Settling.round (holds : (TimedThread → Nat) → Pe → Prop)
    (keeps : ∀ due pe thread after delay,
      Settling (Gl.layout g) ramData first root answers ⟨now, due, pe⟩ → holds due pe →
      due thread = now → pe.resume (Gl.layout g) thread.val = some (after, delay) →
      holds (Function.update due thread (now + delay)) after)
    (settling : Settling (Gl.layout g) ramData first root answers ⟨now, due, pe⟩)
    (initial : holds due pe) :
    ∃ later final, Settling (Gl.layout g) ramData first root answers ⟨now, later, final⟩ ∧
      holds later final ∧ ∀ thread, now < later thread := by
  obtain ⟨later, final, _, ⟨kept, held⟩, done, _⟩ := @exists_round _ _ _ (Cycle (Gl.layout g))
    (fun due pe => Settling (Gl.layout g) ramData first root answers ⟨now, due, pe⟩ ∧ holds due pe)
    now
    (fun due pe thread both dueNow => by
      obtain ⟨settling, held⟩ := both
      obtain ⟨after, delay, positive, ran, kept⟩ :=
        settling.exists_turn loaded initialized bound started dueNow
      exact ⟨after, delay, positive, .resume dueNow positive ran, kept,
        keeps due pe thread after delay settling held dueNow ran⟩)
    Linked.peThreads _ _ ⟨settling, initial⟩
  exact ⟨later, final, kept, held, fun thread => Nat.lt_of_le_of_ne
    (kept.inLevel.onTime.notPast thread) (Ne.symm (done thread (Linked.mem_peThreads thread)))⟩

variable (setting : Setting g edge out inn first.ramData first.level)
include setting

theorem Settling.works : Works (Cycle (Gl.layout g)) (timedRank (Gl.layout g))
    (fun thread : TimedThread => Idle (Gl.layout g) thread.val)
    (Settling (Gl.layout g) ramData first root answers) := by
  intro now due pe thread settling dueNow
  obtain ⟨after, delay, positive, ran, kept⟩ :=
    settling.exists_turn loaded initialized bound started dueNow
  refine ⟨after, delay, positive, .resume dueNow positive ran, kept, ?_⟩
  obtain ⟨f, reached⟩ := settling.reached setting
  have room : pe.depthBuffer2.length ≤ Gl.depthBufferDepth := by
    have buffer := congrArg List.length reached.pass.transfers.writes.buffer
    rw [List.length_map] at buffer
    have single := @Option.length_toList_le _
      (((seen (Gl.layout g) first ⟨now, due, pe⟩).pipeline (Gl.layout g)).lines 7).asked
    have same : ((seen (Gl.layout g) first ⟨now, due, pe⟩).pipeline (Gl.layout g)).depthBuffer2 =
      pe.depthBuffer2 := rfl
    rw [same] at buffer
    simp only [Gl.depthBufferDepth]
    omega
  rcases resume_moves settling.inLevel.onTime.consistent
    (settling.inLevel.running settling.later) room thread.property ran with ⟨rfl, rfl⟩ | descends
  · exact .inr ⟨rfl, rfl, ran⟩
  · exact .inl descends

/-- A level goes on until it is to stop, if whenever the threads rest the memory can answer,
or the counter of the controller is not yet at its end. -/
theorem Settling.exists_stop (stop : Timed TimedThread Pe → Prop)
    (goesOn : ∀ timed, Settling (Gl.layout g) ramData first root answers timed →
      (∀ thread, timed.now < timed.due thread) → ¬ stop timed → timed.state.endsLevel = false)
    (nudge : ∀ timed, Settling (Gl.layout g) ramData first root answers timed →
      (∀ thread, timed.due thread = timed.now + 1) → ¬ stop timed →
      Resting (Gl.layout g) (seen (Gl.layout g) first timed) →
      timed.state.localCounter < 20 ∨ ∃ i, answers i ∧ timed.state.sent i ≠ [])
    (initial : Settling (Gl.layout g) ramData first root answers timed)
    (waiting : ∀ thread, timed.now < timed.due thread) :
    ∃ final, Settling (Gl.layout g) ramData first root answers final ∧
      (∀ thread, final.now < final.due thread) ∧ stop final := by
  have works := @Settling.works _ root _ answers _ _ _ _ _ _ _ _ loaded initialized bound started
    setting
  obtain ⟨final, _, kept, waits, stops⟩ := @Works.exists_stop _ _ _ _ _ _ bfsController _ stop works
    Linked.peThreads Linked.mem_peThreads (fun pe => 20 - pe.localCounter)
    (fun now due pe settling waiting goes => by
      have ends : pe.endsLevel = false := goesOn ⟨now, due, pe⟩ settling waiting goes
      have running : pe.bfsIterationStart = false := settling.inLevel.running settling.later
      have same := bfsController_of_not_ends ends
      have next : pe.localCounter ≤ pe.nextCounter := by
        rw [nextCounter]
        split <;> omega
      refine ⟨.advance waiting, settling.advance waiting ends, ?_, fun thread idle =>
        idle.of_control thread.property running (Nat.le_of_lt settling.later) ends, ?_⟩
      · rw [same]
        rfl
      · rw [same]
        exact Nat.sub_le_sub_left next 20)
    (fun now due pe settling allDue goes idle => by
      have waiting : ∀ thread, now < due thread := fun thread => by
        rw [allDue thread]
        exact Nat.lt_succ_self now
      have ends : pe.endsLevel = false := goesOn ⟨now, due, pe⟩ settling waiting goes
      rcases nudge ⟨now, due, pe⟩ settling allDue goes (settling.resting setting idle) with
        counts | ⟨i, answers, sent⟩
      · have counts : pe.localCounter < 20 := counts
        refine .inl ?_
        rw [bfsController_of_not_ends ends]
        show 20 - pe.nextCounter < 20 - pe.localCounter
        rw [nextCounter, if_pos counts]
        omega
      · obtain ⟨after, answered⟩ := settling.inLevel.answer_total setting
          (Nat.le_of_lt settling.later) sent
        refine .inr ⟨after, .interfere ⟨i, answered⟩, settling.answer answers answered, ?_⟩
        have flag : after.validFlag2 = pe.validFlag2 := by
          cases answer_cases answered <;> rfl
        rw [timedRank, timedRank, flag]
        exact (answer_descends answered).append (by rfl))
    timed initial waiting
  exact ⟨final, kept, waits, stops⟩

end Levels

/-! ### The start of the level -/

theorem endsLevel_early (early : pe.localCounter < 19) : pe.endsLevel = false := by
  have next : pe.nextCounter ≠ 20 := by
    rw [nextCounter]
    split <;> omega
  simp [endsLevel, next]

theorem seen_starts (inLevel : InLevel gl ramData first ⟨now, due, pe⟩)
    (waiting : ∀ thread, now < due thread) (last : pe.localCounter = 9) :
    seen gl first ⟨now + 1, due, pe.bfsController⟩ = first.observeStart gl := by
  have onTime := inLevel.onTime
  have dueNext : ∀ thread : TimedThread, thread.val.transfers = false → due thread = now + 1 :=
    fun thread unit => Nat.le_antisymm (onTime.soon thread unit) (waiting thread)
  have next : pe.nextCounter = 10 := by
    rw [nextCounter, last]
    rfl
  cases inLevel.phase with
  | before _ running same =>
      have all : toObserve ⟨now + 1, due, pe.bfsController⟩ = ⟨fun _ => true, true⟩ := by
        rw [bfsController_of_not_ends (endsLevel_early (by omega)), next]
        simp [toObserve, dueNext ⟨.issueInspectDepthReadReq _, by simp⟩ rfl,
          dueNext ⟨.inspectDepthAnalysis, by simp⟩ rfl]
      rw [seen, all, bfsController_of_not_ends (endsLevel_early (by omega))]
      conv_rhs => rw [← same]
      rfl
  | within late _ _ _ => exact absurd late (by show ¬ 10 ≤ pe.localCounter; omega)

/-- A level that has begun, without any answer so far. -/
structure Begun (gl : Gl) (ramData : List Byte) (first : Pe) (timed : Timed TimedThread Pe) :
    Prop where
  inLevel : InLevel gl ramData first timed
  steps : 10 ≤ timed.state.localCounter →
    Relation.ReflTransGen (StepOn gl fun _ => False) (first.observeStart gl) (seen gl first timed)

theorem Begun.advance (begun : Begun gl ramData first ⟨now, due, pe⟩)
    (waiting : ∀ thread, now < due thread) (early : pe.localCounter < 19) :
    Begun gl ramData first ⟨now + 1, due, pe.bfsController⟩ := by
  obtain ⟨inLevel, steps⟩ := begun
  have ends := endsLevel_early early
  refine ⟨inLevel.advance waiting ends, fun late => ?_⟩
  rw [bfsController_of_not_ends ends] at late
  have next : pe.nextCounter = pe.localCounter + 1 := if_pos (by omega)
  have late : 10 ≤ pe.nextCounter := late
  by_cases last : pe.localCounter = 9
  · rw [seen_starts inLevel waiting last]
  · have late : 10 ≤ pe.localCounter := by omega
    rw [seen_advance late waiting ends]
    exact steps late

section Begins

variable {isUgraph : Bool} {edges : List (Nat × Nat)} {g : Graph} {ram0 : List Byte}
variable {startIdx : Nat} (loaded : loadGraph isUgraph (pairRows edges) = some g)
variable (initialized : ramInit g = some ram0) (bound : startIdx < g.vertexNum)
variable (started : setNewStartVertex (Gl.layout g) startIdx ram0 = some ramData)
include loaded initialized bound started

theorem Begun.round (begun : Begun (Gl.layout g) ramData first timed) :
    ∃ final, Begun (Gl.layout g) ramData first final ∧
      (∀ thread, final.now < final.due thread) ∧
      final.state.localCounter = timed.state.localCounter := by
  obtain ⟨now, due, pe⟩ := timed
  obtain ⟨later, final, _, ⟨kept, counter⟩, done, _⟩ :=
    @exists_round _ _ _ (Cycle (Gl.layout g))
      (fun due' pe' => Begun (Gl.layout g) ramData first ⟨now, due', pe'⟩ ∧
        pe'.localCounter = pe.localCounter) now
      (fun due' pe' thread both dueNow => by
        obtain ⟨⟨inLevel, steps⟩, counter⟩ := both
        obtain ⟨after, delay, positive, ran⟩ :=
          inLevel.exists_turn loaded initialized bound started thread
        have same := (resume_frame thread.property ran).localCounter
        refine ⟨after, delay, positive, .resume dueNow positive ran,
          ⟨inLevel.resume dueNow positive ran, fun late => ?_⟩, same.trans counter⟩
        have late : 10 ≤ pe'.localCounter := by
          rw [← same]
          exact late
        exact (steps late).tail (.resume thread.property
          (seen_resume inLevel.phase late dueNow positive ran)))
      Linked.peThreads _ _ ⟨begun, rfl⟩
  exact ⟨_, kept, fun thread => Nat.lt_of_le_of_ne (kept.inLevel.onTime.notPast thread)
    (Ne.symm (done thread (Linked.mem_peThreads thread))), counter⟩

/-- The start signal of a level comes and goes. -/
theorem InLevel.begins (inLevel : InLevel (Gl.layout g) ramData first timed)
    (early : timed.state.localCounter < 10) :
    ∃ final, Settling (Gl.layout g) ramData first (first.observeStart (Gl.layout g))
      (fun _ => False) final ∧ ∀ thread, final.now < final.due thread := by
  have counts : ∀ left timed, Begun (Gl.layout g) ramData first timed →
      (∀ thread, timed.now < timed.due thread) → timed.state.localCounter + left = 11 →
      ∃ final, Begun (Gl.layout g) ramData first final ∧
        (∀ thread, final.now < final.due thread) ∧ final.state.localCounter = 11 := by
    intro left
    induction left with
    | zero => exact fun timed begun waiting counter => ⟨timed, begun, waiting, counter⟩
    | succ left inductionHypothesis =>
        rintro ⟨now, due, pe⟩ begun waiting counter
        have few : pe.localCounter + (left + 1) = 11 := counter
        have next : pe.nextCounter = pe.localCounter + 1 := if_pos (by omega)
        obtain ⟨final, begun, waits, same⟩ :=
          (begun.advance waiting (by omega)).round loaded initialized bound started
        refine inductionHypothesis final begun waits ?_
        rw [same, bfsController_of_not_ends (endsLevel_early (by omega))]
        show pe.nextCounter + left = 11
        omega
  obtain ⟨between, begun, waiting, counter⟩ :=
    Begun.round loaded initialized bound started ⟨inLevel, fun late => by omega⟩
  obtain ⟨final, begun, waits, counter⟩ :=
    counts (11 - timed.state.localCounter) between begun waiting (by omega)
  exact ⟨final, ⟨begun.inLevel, by omega, begun.steps (by omega)⟩, waits⟩

end Begins

end Pe

end GraphAccelerator
