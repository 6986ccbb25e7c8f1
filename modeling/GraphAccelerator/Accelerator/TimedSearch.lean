import GraphAccelerator.Accelerator.Barrier
import GraphAccelerator.Accelerator.Search
import GraphAccelerator.Accelerator.StartSignal

/-!
# The search over time

A run over time goes through the levels one after the other.  Before the start signal of
a level nothing happens, and from then on what the threads and the memory do are steps of
that level, however long they take.  So if no level ends while one of the threads that
expand it waits with a burst it has just created, the search over time is the search
level by level.
-/

namespace GraphAccelerator

open Memory Kernel

namespace Pe

variable {gl : Gl} {pe after : Pe} {delay : Nat}

/-! ### Levels over time -/

def Observers.none : Observers := ⟨fun _ => false, false⟩

theorem inspects_timed (i : Part) : PeThread.issueInspectDepthReadReq i ≠ .bfsController := by
  simp

theorem analyses_timed : PeThread.inspectDepthAnalysis ≠ .bfsController := by
  simp

/-- The threads that are to observe the start in this cycle. -/
def toObserve (timed : Timed TimedThread Pe) : Observers where
  parts i := timed.state.bfsIterationStart &&
    timed.due ⟨.issueInspectDepthReadReq i, inspects_timed i⟩ == timed.now
  analysis := timed.state.bfsIterationStart &&
    timed.due ⟨.inspectDepthAnalysis, analyses_timed⟩ == timed.now

/-- Where a run is in the level that starts with `first`: before the start signal nothing
happens, from then on the steps are those of the level. -/
inductive Phase (gl : Gl) (first : Pe) (timed : Timed TimedThread Pe) : Prop
  | before : timed.state.localCounter < 10 → timed.state.bfsIterationStart = false →
      timed.state.observing gl first.localCounter .none = first → Phase gl first timed
  | within : 10 ≤ timed.state.localCounter →
      (timed.state.bfsIterationStart = true → timed.state.localCounter = 10) →
      (∀ i, (toObserve timed).parts i = true → timed.state.creating i.port = none ∧
        gl.maxLen i ≤ (timed.state.inspectReq i).currentLen) →
      Relation.ReflTransGen (LevelStep gl) (first.observeStart gl)
        (timed.state.observing gl first.localCounter (toObserve timed)) → Phase gl first timed

theorem toObserve_resume {now delay : Nat} {due : TimedThread → Nat} {thread : TimedThread}
    (same : after.bfsIterationStart = pe.bfsIterationStart) (positive : 0 < delay) :
    toObserve ⟨now, Function.update due thread (now + delay), after⟩ =
      (toObserve ⟨now, due, pe⟩).without thread.val := by
  obtain ⟨thread, timed⟩ := thread
  have others : ∀ other : TimedThread, other.val ≠ thread →
      Function.update due ⟨thread, timed⟩ (now + delay) other = due other := by
    intro other differs
    exact Function.update_of_ne (fun same => differs (congrArg Subtype.val same)) _ _
  have parts : ∀ i, thread ≠ .issueInspectDepthReadReq i →
      (toObserve ⟨now, Function.update due ⟨thread, timed⟩ (now + delay), after⟩).parts i =
        (toObserve ⟨now, due, pe⟩).parts i := by
    intro i differs
    simp only [toObserve, same, others ⟨.issueInspectDepthReadReq i, by simp⟩ (Ne.symm differs)]
  have analysis : thread ≠ .inspectDepthAnalysis →
      (toObserve ⟨now, Function.update due ⟨thread, timed⟩ (now + delay), after⟩).analysis =
        (toObserve ⟨now, due, pe⟩).analysis := by
    intro differs
    simp only [toObserve, same, others ⟨.inspectDepthAnalysis, by simp⟩ (Ne.symm differs)]
  have ext : ∀ first second : Observers, first.parts = second.parts →
      first.analysis = second.analysis → first = second := by
    rintro ⟨_, _⟩ ⟨_, _⟩ rfl rfl
    rfl
  cases thread with
  | issueInspectDepthReadReq i =>
      refine ext _ _ (funext fun j => ?_) (analysis (by simp))
      by_cases here : j = i
      · subst here
        simp only [Observers.without, Function.update_self]
        simp [toObserve]
        omega
      · rw [parts j (by simpa using Ne.symm here)]
        simp [Observers.without, here]
  | inspectDepthAnalysis =>
      refine ext _ _ (funext fun j => parts j (by simp)) ?_
      simp [toObserve, Observers.without]
      omega
  | _ => exact ext _ _ (funext fun j => parts j (by simp)) (analysis (by simp))

theorem toObserve_waiting {timed : Timed TimedThread Pe}
    (waiting : ∀ thread, timed.now < timed.due thread) : toObserve timed = .none := by
  have parts : (toObserve timed).parts = fun _ => false := funext fun i => by
    have := waiting ⟨.issueInspectDepthReadReq i, by simp⟩
    simp [toObserve]
    omega
  have analysis : (toObserve timed).analysis = false := by
    have := waiting ⟨.inspectDepthAnalysis, by simp⟩
    simp [toObserve]
    omega
  rw [Observers.none, ← parts, ← analysis]

theorem toObserve_running {timed : Timed TimedThread Pe}
    (running : timed.state.bfsIterationStart = false) : toObserve timed = .none := by
  simp only [toObserve, running, Bool.false_and, Observers.none]

theorem toObserve_ready {timed : Timed TimedThread Pe} {thread : TimedThread}
    (dueNow : timed.due thread = timed.now)
    (idle : ∀ i, (toObserve timed).parts i = true → timed.state.creating i.port = none ∧
      gl.maxLen i ≤ (timed.state.inspectReq i).currentLen) :
    (toObserve timed).Ready gl timed.state thread.val where
  parts i same := by
    obtain ⟨_, property⟩ := thread
    subst same
    have observed : (toObserve timed).parts i = timed.state.bfsIterationStart := by
      simp [toObserve, dueNow]
    exact ⟨observed, fun starts => idle i (observed.trans starts)⟩
  analysis same := by
    obtain ⟨_, property⟩ := thread
    subst same
    simp [toObserve, dueNow]

theorem bfsController_of_not_ends (goesOn : pe.endsLevel = false) :
    pe.bfsController = { pe with
      localCounter := pe.nextCounter
      bfsIterationStart := pe.nextCounter == 10
      toBurstQueues := pe.toBurstQueues } := by
  rw [bfsController, if_neg (by simp [goesOn])]

theorem Drained.of_observing (drained : (pe.observing gl counter .none).Drained gl) :
    pe.Drained gl where
  depthBuffer0 := drained.depthBuffer0
  depthBuffer1 := drained.depthBuffer1
  depthBuffer2 := drained.depthBuffer2
  frontierBuffer := drained.frontierBuffer
  rpaoBuffer := drained.rpaoBuffer
  ciaoBuffer := drained.ciaoBuffer
  vidxBuffer := drained.vidxBuffer
  burstReqQueue := drained.burstReqQueue
  burstRespQueue := drained.burstRespQueue
  sent := drained.sent
  answered := drained.answered
  creating := drained.creating
  transfer := drained.transfer
  inspectReq := drained.inspectReq
  ciaoReq := drained.ciaoReq

namespace Phase

variable {first : Pe} {before : Timed TimedThread Pe} {now : Nat} {due : TimedThread → Nat}

theorem resume {thread : TimedThread} (drained : first.Drained gl)
    (checked : (first.allAnalyzed gl && first.validFlag2) = false)
    (phase : Phase gl first ⟨now, due, pe⟩) (dueNow : due thread = now) (positive : 0 < delay)
    (ran : pe.resume gl thread.val = some (after, delay)) :
    Phase gl first ⟨now, Function.update due thread (now + delay), after⟩ := by
  cases phase with
  | before early running same =>
      have idle := Drained.idle (.of_observing (same ▸ drained)) running
        (by rw [← same] at checked; exact checked) thread.property
      obtain ⟨rfl, rfl⟩ := idle.same ran
      exact .before early running same
  | within late pulse idle run =>
      have frame := resume_frame thread.property ran
      have observed := @toObserve_resume pe after now delay due thread frame.bfsIterationStart
        positive
      have ready := @toObserve_ready gl ⟨now, due, pe⟩ thread dueNow idle
      have moved := @resume_observing gl first.localCounter _ pe thread.val thread.property ready
      rw [ran, Option.map_some, Prod.map_apply] at moved
      refine .within ?_ ?_ (fun i left => ?_) (run.tail ?_)
      · rw [frame.localCounter]
        exact late
      · rw [frame.bfsIterationStart, frame.localCounter]
        exact pulse
      · rw [observed] at left
        have other : thread.val ≠ .issueInspectDepthReadReq i := by
          intro same
          rw [same] at left
          simp [Observers.without] at left
        have earlier : (toObserve ⟨now, due, pe⟩).parts i = true := by
          revert left other
          cases thread.val <;> simp [Observers.without, Function.update_apply]
          grind
        rw [frame.creating i.port fun asks => other (PeThread.asks_part asks),
          frame.inspectReq i other]
        exact idle i earlier
      · rw [observed]
        exact .resume thread.property moved

theorem answer {i : Port} (drained : first.Drained gl) (phase : Phase gl first ⟨now, due, pe⟩)
    (answered : pe.answer i = some after) : Phase gl first ⟨now, due, after⟩ := by
  cases phase with
  | before _ _ same =>
      have none := (Drained.of_observing (same ▸ drained) : pe.Drained gl).sent i
      rw [Pe.answer, none] at answered
      cases answered
  | within late pulse idle run =>
      have moved := @answer_observing gl first.localCounter (toObserve ⟨now, due, pe⟩) pe i
      rw [answered, Option.map_some] at moved
      have same : after.bfsIterationStart = pe.bfsIterationStart ∧
          after.localCounter = pe.localCounter ∧ after.creating = pe.creating ∧
            after.inspectReq = pe.inspectReq := by
        cases answer_cases answered <;> exact ⟨rfl, rfl, rfl, rfl⟩
      obtain ⟨start, counted, creating, inspectReq⟩ := same
      have observed : toObserve ⟨now, due, after⟩ = toObserve ⟨now, due, pe⟩ := by
        simp only [toObserve, start]
      refine .within ?_ ?_ ?_ ?_
      · exact counted ▸ late
      · rw [start, counted]
        exact pulse
      · rw [observed, creating, inspectReq]
        exact idle
      · rw [observed]
        exact run.tail (.answer moved)

theorem advance (drained : first.Drained gl)
    (phase : Phase gl first ⟨now, due, pe⟩)
    (onTime : OnTime ⟨now, due, pe⟩) (waiting : ∀ thread, now < due thread)
    (goesOn : pe.endsLevel = false) :
    Phase gl first ⟨now + 1, due, pe.bfsController⟩ := by
  rw [bfsController_of_not_ends goesOn]
  cases phase with
  | before early running same =>
      have early : pe.localCounter < 10 := early
      have next : pe.nextCounter = pe.localCounter + 1 := if_pos (by omega)
      by_cases last : pe.localCounter = 9
      · have starts : (pe.nextCounter == 10) = true := by simp [next, last]
        have dueNext : ∀ thread : TimedThread, thread.val.transfers = false →
            due thread = now + 1 := fun thread unit =>
          Nat.le_antisymm (onTime.soon thread unit) (waiting thread)
        rw [starts]
        have all : toObserve ⟨now + 1, due, { pe with
            localCounter := pe.nextCounter
            bfsIterationStart := true
            toBurstQueues := pe.toBurstQueues }⟩ = ⟨fun _ => true, true⟩ := by
          simp [toObserve, dueNext ⟨.issueInspectDepthReadReq _, by simp⟩ rfl,
            dueNext ⟨.inspectDepthAnalysis, by simp⟩ rfl]
        refine .within ?_ ?_ (fun i _ => ⟨?_, ?_⟩) ?_
        · show 10 ≤ pe.nextCounter
          omega
        · intro _
          show pe.nextCounter = 10
          omega
        · exact (Drained.of_observing (same ▸ drained) : pe.Drained gl).creating i.port
        · exact (Drained.of_observing (same ▸ drained) : pe.Drained gl).inspectReq i
        · rw [all]
          have start : first.observeStart gl =
              observing gl first.localCounter ⟨fun _ => true, true⟩ { pe with
                localCounter := pe.nextCounter
                bfsIterationStart := true
                toBurstQueues := pe.toBurstQueues } := by
            conv_lhs => rw [← same]
            rfl
          rw [← start]
      · have running : (pe.nextCounter == 10) = false := by
          simp only [next, beq_eq_false_iff_ne]
          omega
        rw [running]
        refine .before ?_ rfl same
        show pe.nextCounter < 10
        omega
  | within late pulse idle run =>
      have late : 10 ≤ pe.localCounter := late
      have next : 11 ≤ pe.nextCounter := by
        rw [nextCounter]
        split <;> omega
      have running : (pe.nextCounter == 10) = false := by
        simp only [beq_eq_false_iff_ne]
        omega
      have none := @toObserve_waiting ⟨now, due, pe⟩ waiting
      rw [running]
      have noneAfter := @toObserve_running ⟨now + 1, due, { pe with
        localCounter := pe.nextCounter
        bfsIterationStart := false
        toBurstQueues := pe.toBurstQueues }⟩ rfl
      refine .within ?_ (fun starts => ?_) (fun i observes => ?_) ?_
      · show 10 ≤ pe.nextCounter
        omega
      · cases starts
      · rw [noneAfter] at observes
        cases observes
      · rw [noneAfter]
        rw [none] at run
        exact run

/-- The end of a level that has drained, and the start of the next one. -/
theorem ended (phase : Phase gl first ⟨now, due, pe⟩) (waiting : ∀ thread, now < due thread)
    (starts : first.Drained gl) (ends : pe.endsLevel = true) (drained : pe.Drained gl) :
    WholeLevel gl first pe.bfsController ∧
      Phase gl pe.bfsController ⟨now + 1, due, pe.bfsController⟩ := by
  have last : pe.isEndOfBfsIteration = true ∧ pe.nextCounter = 20 := by
    simpa [endsLevel] using ends
  have control : pe.bfsController = { pe with
      localCounter := 0
      bfsIterationStart := false
      burstOpStatus := []
      level := pe.level + 1
      counted := pe.burstIdx_eq } := by
    rw [bfsController, if_pos ends, last.2]
    rfl
  cases phase with
  | before early _ _ =>
      have early : pe.localCounter < 10 := early
      have := last.2
      rw [nextCounter, if_pos (by omega)] at this
      omega
  | within late pulse idle run =>
      have none := @toObserve_waiting ⟨now, due, pe⟩ waiting
      rw [none] at run
      have finished : (pe.observing gl first.localCounter .none).Drained gl := { drained with }
      have whole := WholeLevel.ended starts run finished (by
        show (isEndOfBfsIteration pe && 20 == 20) = true
        rw [last.1]
        rfl)
      have same : bfsController { pe.observing gl first.localCounter .none with
          localCounter := 20
          toBurstQueues := pe.toBurstQueues } = pe.bfsController := by
        rw [control, bfsController, if_pos]
        · rfl
        · show (isEndOfBfsIteration pe && 20 == 20) = true
          rw [last.1]
          rfl
      refine ⟨same ▸ whole, .before ?_ ?_ ?_⟩
      · rw [control]
        exact Nat.zero_lt_succ 9
      · rw [control]
      · rw [control]
        rfl

theorem bfsDone_of_early (phase : Phase gl first ⟨now, due, pe⟩) (early : pe.localCounter < 10) :
    pe.bfsDone = first.bfsDone := by
  cases phase with
  | before _ _ same =>
      rw [← same]
      rfl
  | within late _ _ _ => exact absurd late (Nat.not_le.mpr early)

end Phase

/-! ### Runs -/

def Checked (gl : Gl) (pe : Pe) : Prop := (pe.allAnalyzed gl && pe.validFlag2) = false

theorem checkDone_checked : (pe.checkDone gl).Checked gl := by
  rw [checkDone]
  split
  · simp [Checked]
  · rename_i unchecked
    simpa [Checked] using unchecked

theorem Checked.step {before after : Timed TimedThread Pe} (checked : before.state.Checked gl)
    (stepped : Cycle gl before after) : after.state.Checked gl := by
  cases stepped with
  | @resume _ _ pe after thread _ _ _ ran =>
      by_cases analyses : thread.val = .inspectDepthAnalysis
      · rw [analyses] at ran
        cases ran
        exact checkDone_checked
      · have frame := resume_frame thread.property ran
        rw [Checked, allAnalyzed, frame.idx analyses, frame.validFlag2 analyses]
        exact checked
  | interfere answered =>
      obtain ⟨i, answered⟩ := answered
      cases answer_cases answered <;> exact checked
  | @advance _ _ pe _ =>
      show pe.bfsController.Checked gl
      obtain ⟨_, _, _, same⟩ := bfsController_eq pe
      rw [same]
      exact checked

/-- When a level ends, no thread that expands it waits with a burst it has just created.
Once `bfsDone` is set, `statusMonitor` ends the search before another level starts. -/
def Proceeds (pe : Pe) : Prop :=
  (pe.endsLevel = true → pe.creating 4 = none ∧ pe.creating 5 = none ∧ pe.creating 6 = none) ∧
    (pe.bfsDone = true → pe.localCounter ≠ 9)

instance : DecidablePred Proceeds := fun _ => inferInstanceAs (Decidable (_ ∧ _))

/-- A step of a search. -/
structure SearchCycle (gl : Gl) (before after : Timed TimedThread Pe) : Prop where
  cycle : Cycle gl before after
  proceeds : before.now < after.now → before.state.Proceeds

/-- The levels of a search. -/
abbrev SearchLevel (gl : Gl) (pe after : Pe) : Prop :=
  pe.bfsDone = false ∧ WholeLevel gl pe after

/-- What holds in a search over time, in the level that starts with `first`. -/
structure InSearch (gl : Gl) (ramData : List Byte) (first : Pe) (timed : Timed TimedThread Pe) :
    Prop where
  run : Relation.ReflTransGen (Cycle gl) (start gl ramData) timed
  levels : Relation.ReflTransGen (SearchLevel gl) (reset gl ramData) first
  drained : first.Drained gl
  checked : first.Checked gl
  searching : 10 ≤ timed.state.localCounter → first.bfsDone = false
  phase : Phase gl first timed
  onTime : OnTime timed
  checkedNow : timed.state.Checked gl

theorem inSearch_start (gl : Gl) (ramData : List Byte) :
    InSearch gl ramData (reset gl ramData) (start gl ramData) := by
  have checked : (reset gl ramData).Checked gl := Bool.and_false _
  have goesOn : (reset gl ramData).endsLevel = false := Bool.and_false _
  have starts := bfsController_of_not_ends goesOn
  refine ⟨.refl, .refl, drained_reset gl ramData, checked, fun _ => rfl, .before ?_ ?_ ?_,
    onTime_start gl ramData, ?_⟩
  · rw [start, starts]
    exact show 1 < 10 by decide
  all_goals
    rw [start, starts]
    first | rfl | exact checked

/-- A level of a search over time ends with nothing of it left, so the next one starts as it
does in a search level by level. -/
theorem InSearch.step {ramData : List Byte} {first : Pe} {before after : Timed TimedThread Pe}
    (inSearch : InSearch gl ramData first before) (stepped : SearchCycle gl before after)
    (drains : (∀ thread, before.now < before.due thread) → before.state.endsLevel = true →
      before.state.creating 4 = none → before.state.creating 5 = none →
        before.state.creating 6 = none → before.state.Drained gl) :
    ∃ first, InSearch gl ramData first after := by
  obtain ⟨run, levels, drained, checked, searching, phase, onTime, checkedNow⟩ := inSearch
  have runNext := run.tail stepped.cycle
  have onTimeNext := onTime_step onTime stepped.cycle
  have checkedNext := checkedNow.step stepped.cycle
  have proceeds := stepped.proceeds
  have within : Phase gl first after → (10 ≤ after.state.localCounter → first.bfsDone = false) →
      ∃ first, InSearch gl ramData first after := fun phase searching =>
    ⟨first, runNext, levels, drained, checked, searching, phase, onTimeNext, checkedNext⟩
  cases stepped.cycle with
  | @resume _ _ _ _ thread _ dueNow positive ran =>
      refine within (phase.resume drained checked dueNow positive ran) ?_
      rw [(resume_frame thread.property ran).localCounter]
      exact searching
  | @interfere _ _ _ after answered =>
      obtain ⟨i, answered⟩ := answered
      refine within (phase.answer drained answered) ?_
      cases answer_cases answered <;> exact searching
  | @advance now _ pe waiting =>
      obtain ⟨ends, stops⟩ := proceeds (Nat.lt_succ_self now)
      cases goesOn : pe.endsLevel with
      | false =>
          refine within (phase.advance drained onTime waiting goesOn) fun late => ?_
          rw [bfsController_of_not_ends goesOn] at late
          rcases Nat.lt_or_ge pe.localCounter 10 with early | started
          · have next : pe.nextCounter = pe.localCounter + 1 := if_pos (by omega)
            have last : pe.localCounter = 9 := by
              have : 10 ≤ pe.nextCounter := late
              omega
            rw [← phase.bfsDone_of_early early]
            exact Bool.eq_false_iff.mpr fun done => stops done last
          · exact searching started
      | true =>
          obtain ⟨vertices, rows, columns⟩ := ends goesOn
          have finished := drains waiting goesOn vertices rows columns
          obtain ⟨whole, next⟩ := phase.ended waiting drained goesOn finished
          obtain ⟨_, _, _, same⟩ := bfsController_eq pe
          have drainedNext : pe.bfsController.Drained gl := by
            rw [same]
            exact { finished with }
          have late : 10 ≤ pe.localCounter := by
            have last : pe.nextCounter = 20 := by
              simp only [endsLevel, Bool.and_eq_true, beq_iff_eq] at goesOn
              exact goesOn.2
            rw [nextCounter] at last
            split at last <;> omega
          refine ⟨_, runNext, levels.tail ⟨searching late, whole⟩, drainedNext, checkedNext, ?_, next,
            onTimeNext, checkedNext⟩
          intro started
          rw [bfsController, if_pos goesOn] at started
          have none : 10 ≤ 0 := started
          omega

end Pe

namespace LevelPass

open Walks Bfs

section Search

variable {isUgraph : Bool} {edges : List (Nat × Nat)} {g : Graph} {ram0 ramData : List Byte}
variable {startIdx : Nat} {first : Pe} {final : Timed TimedThread Pe}

theorem levels_start (loaded : loadGraph isUgraph (pairRows edges) = some g)
    (initialized : ramInit g = some ram0) (bound : startIdx < g.vertexNum)
    (started : setNewStartVertex (Gl.layout g) startIdx ram0 = some ramData)
    (small : ∀ v length, Shortest (Edge isUgraph edges) startIdx v length → length ≤ 127)
    (levels : Relation.ReflTransGen (Pe.SearchLevel (Gl.layout g)) (Pe.reset (Gl.layout g) ramData)
      first) (searching : first.bfsDone = false) :
    ∃ k, k ≤ 128 ∧ LevelStart isUgraph edges g ram0 startIdx k first := by
  induction levels with
  | refl => exact ⟨0, Nat.zero_le 128, levelStart_reset loaded initialized bound started⟩
  | tail _ level inductionHypothesis =>
      obtain ⟨earlier, whole⟩ := level
      obtain ⟨k, few, start⟩ := inductionHypothesis earlier
      refine ⟨k + 1, ?_, start.next loaded initialized (by omega) whole searching⟩
      -- level 128 would have been the last one
      by_contra last
      have ends := (start.end_iff loaded initialized (by omega) (by omega) whole).mpr
        fun v shortest => by
          have := small v k shortest
          omega
      rw [searching] at ends
      cases ends

theorem inSearch_run (loaded : loadGraph isUgraph (pairRows edges) = some g)
    (initialized : ramInit g = some ram0) (bound : startIdx < g.vertexNum)
    (started : setNewStartVertex (Gl.layout g) startIdx ram0 = some ramData)
    (run : Relation.ReflTransGen (Pe.SearchCycle (Gl.layout g)) (Pe.start (Gl.layout g) ramData)
      final) : ∃ first, Pe.InSearch (Gl.layout g) ramData first final := by
  induction run with
  | refl => exact ⟨_, Pe.inSearch_start _ _⟩
  | tail _ stepped inductionHypothesis =>
      obtain ⟨first, inSearch⟩ := inductionHypothesis
      exact inSearch.step stepped
        (drained_of_endsLevel loaded initialized bound started inSearch.run)

/-- When a search over time is done, the depths in the memory image are those of the
software search, if none of these exceeds 127. -/
theorem searchCycle_dumps (loaded : loadGraph isUgraph (pairRows edges) = some g)
    (initialized : ramInit g = some ram0) (bound : startIdx < g.vertexNum)
    (started : setNewStartVertex (Gl.layout g) startIdx ram0 = some ramData)
    (small : ∀ v length, Shortest (Edge isUgraph edges) startIdx v length → length ≤ 127)
    (run : Relation.ReflTransGen (Pe.SearchCycle (Gl.layout g)) (Pe.start (Gl.layout g) ramData)
      final) (done : final.state.bfsDone = true) :
    ∃ csr td, CSR.ofPairs isUgraph edges = some csr ∧
      (∀ rounds, csr.vNum < rounds → tdBfs csr startIdx rounds = some td) ∧
      ShortestDepths (Edge isUgraph edges) csr.vNum startIdx td.t.depth ∧
      dumpDepth (Gl.layout g) final.state.ramData = some td.t.depth := by
  have constructed := ofPairs_of_loaded loaded
  obtain ⟨td, finished, result⟩ := tdBfs_spec (CSR.ofPairs_represents constructed) bound
  obtain ⟨first, inSearch⟩ := inSearch_run loaded initialized bound started run
  have starts := fun first levels searching =>
    @levels_start _ _ _ _ _ _ first loaded initialized bound started small levels searching
  refine ⟨_, td, constructed, finished, result.depths, ?_⟩
  cases inSearch.phase with
  | before _ _ same =>
      -- the level that has set `bfsDone` is over
      have ended : first.bfsDone = true := by
        rw [← same]
        exact done
      have kept : final.state.ramData = first.ramData := by
        rw [← same]
        rfl
      cases inSearch.levels with
      | refl => cases ended
      | tail earlier level =>
          obtain ⟨searching, whole⟩ := level
          obtain ⟨k, few, start⟩ := starts _ earlier searching
          obtain ⟨last, run, sameDone, sameRam⟩ := whole.done
          rw [kept, ← sameRam]
          exact start.dump loaded initialized (by omega) (by omega) small result.depths run
            (sameDone.trans ended)
  | within late _ _ run =>
      obtain ⟨k, few, start⟩ := starts _ inSearch.levels (inSearch.searching late)
      have dumped := start.dump loaded initialized (by omega) (by omega) small result.depths run done
      exact dumped

end Search

/-! ### A fork -/

/-- Two edges from one vertex, and enough loops at another one for the arrays to fit. -/
def forkEdges : List (Nat × Nat) := (0, 1) :: (0, 2) :: List.replicate 111 (3, 3)

def fork : Graph where
  vertexNum := 4
  edgeNum := 113
  isUgraph := false
  vertices := [
    { idx := 0, outDeg := 2, outVid := [1, 2] },
    { idx := 1, inDeg := 1, inVid := [0] },
    { idx := 2, inDeg := 1, inVid := [0] },
    { idx := 3, inDeg := 111, outDeg := 111, inVid := List.replicate 111 3,
      outVid := List.replicate 111 3 }]

theorem fork_loaded : loadGraph false (pairRows forkEdges) = some fork := by decide +kernel

def forkRam : List Byte := startRam fork 0

theorem fork_started : ∃ ram0, ramInit fork = some ram0 ∧
    setNewStartVertex (Gl.layout fork) 0 ram0 = some forkRam :=
  startRam_started fork_loaded (by decide +kernel) (by decide) (by decide)

attribute [irreducible] forkRam

theorem forkRam_shown : forkRam = (startKnown fork 0).shown 520 forkRam := by
  obtain ⟨ram0, initialized, started⟩ := fork_started
  obtain ⟨laidOut, depths⟩ := ramInit_spec (loadGraph_builtFrom fork_loaded).vertices_length
    (loadGraph_outgoing fork_loaded) initialized
  have backs := startKnown_backs laidOut depths (by decide) started
  have last : forkRam[519]? = some 0 := backs 519 0 (by decide +kernel)
  exact (backs.shown (List.getElem?_eq_some_iff.mp last).1).symm

/-- One partition is answered and then, when all that follows from it is done, the others. -/
def forkAnswers (cycle : Nat) : List Port :=
  match cycle with
  | 12 => [0]
  | 16 | 51 | 52 => [4]
  | 21 => [5]
  | 26 | 27 => [6]
  | 30 | 31 => [7]
  | 32 => [1, 2, 3]
  | 47 => [1, 2]
  | 56 => [0, 3]
  | 71 => [0, 1, 2, 3]
  | _ => []

theorem fork_searches : ∃ final : Timed TimedThread Pe,
    Relation.ReflTransGen (Pe.SearchCycle (Gl.layout fork)) (Pe.start (Gl.layout fork) forkRam)
      final ∧ final.state.bfsDone = true := by
  have replays : Replays (Pe.SearchCycle (Gl.layout fork))
      (fun _ (thread : TimedThread) (pe : Pe) => pe.resume (Gl.layout fork) thread.val)
      (fun _ pe i => pe.answer i) Pe.bfsController fun pe => decide pe.Proceeds :=
    { resumed dueNow positive ran :=
        ⟨.resume dueNow positive ran, fun later => absurd later (Nat.lt_irrefl _)⟩
      moved answered := ⟨.interfere ⟨_, answered⟩, fun later => absurd later (Nat.lt_irrefl _)⟩
      advanced waiting permitted := ⟨.advance waiting, fun _ => of_decide_eq_true permitted⟩ }
  have played : ((rounds (fun _ (thread : TimedThread) (pe : Pe) =>
      pe.resume (Gl.layout fork) thread.val) (fun _ pe i => pe.answer i) Pe.bfsController
        (fun pe => decide pe.Proceeds) 0 ((List.range 73).map forkAnswers)
        (Linked.peThreads.map (·, 0)) (Pe.start (Gl.layout fork) forkRam).state).map
      fun played => played.2.bfsDone) = some true := by
    rw [forkRam_shown]
    decide +kernel
  obtain ⟨⟨dues, pe⟩, ran, done⟩ := Option.map_eq_some_iff.mp played
  obtain ⟨_, run⟩ := rounds_run replays
    (by simpa [Function.comp_def] using (by decide +kernel : Linked.peThreads.Nodup))
    (fun thread => by simpa using Linked.mem_peThreads thread) ran
  rw [dueAt_zero] at run
  exact ⟨_, run, done⟩

theorem searchCycle_dumps_fork : ∃ final : Timed TimedThread Pe,
    Relation.ReflTransGen (Pe.SearchCycle (Gl.layout fork)) (Pe.start (Gl.layout fork) forkRam)
      final ∧ final.state.bfsDone = true ∧
      dumpDepth (Gl.layout fork) final.state.ramData = some [0, 1, 1, -1] := by
  obtain ⟨ram0, initialized, started⟩ := fork_started
  obtain ⟨final, run, done⟩ := fork_searches
  have few : ∀ v length, Shortest (Edge false forkEdges) 0 v length → length < 4 :=
    fun v length shortest => shortest.lt_card (Finset.range 4) (fun u w uwEdge =>
      Finset.mem_range.mpr ((loadGraph_builtFrom fork_loaded).edge_lt uwEdge).2) (by decide)
  obtain ⟨csr, td, constructed, finished, _, dumped⟩ :=
    searchCycle_dumps fork_loaded initialized (by decide) started (fun v length shortest => by
      have := few v length shortest
      omega) run done
  obtain rfl := Option.some.inj ((ofPairs_of_loaded fork_loaded).symm.trans constructed)
  have depths : (tdBfs (CSR.ofGraph fork) 0 5).map (·.t.depth) = some [0, 1, 1, -1] := by
    decide +kernel
  have found : tdBfs (CSR.ofGraph fork) 0 5 = some td := finished 5 (by decide)
  rw [found, Option.map_some, Option.some.injEq] at depths
  exact ⟨final, run, done, depths ▸ dumped⟩

end LevelPass

end GraphAccelerator
