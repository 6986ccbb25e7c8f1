import GraphAccelerator.Accelerator.TimedLevel

/-!
# A level that ends with nothing left

A level over time may end too early: then a thread of the expansion waits with a burst
it has just created.  If one partition has no vertex of the level, the memory can keep it
back until everything else has settled; the partition then ends the level, and nothing of
it is left.
-/

namespace GraphAccelerator

open Memory Kernel Ranks Walks Bfs LevelPass

namespace Pe

variable {gl : Gl} {pe after first root : Pe} {delay now : Nat} {due : TimedThread → Nat}
variable {ramData : List Byte} {timed final : Timed TimedThread Pe} {answers : Port → Prop}

theorem Record.Exact.resume {record : Record} {thread : PeThread}
    (recorded : record.Exact pe.toBurstQueues) (indexed : pe.Indexed)
    (timed : thread ≠ .bfsController) (ran : pe.resume gl thread = some (after, delay)) :
    ∃ record : Record, record.Exact after.toBurstQueues := by
  by_cases sends : thread = .sendMemReq
  · subst sends
    cases ran
    exact ⟨record, recorded.sendMemReq⟩
  by_cases reads : thread = .getMemResp
  · subst reads
    cases ran
    exact ⟨record, recorded.getMemResp⟩
  · exact ⟨_, recorded.queueStep indexed sends reads (resume_queueStep timed ran)⟩

/-- The counter of the controller stops at 20, and the record of the bursts is exact. -/
theorem controlled_run (run : Relation.ReflTransGen (Cycle gl) (start gl ramData) final) :
    final.state.localCounter ≤ 20 ∧ ∃ record : Record, record.Exact final.state.toBurstQueues := by
  induction run with
  | refl =>
      have first := bfsController_of_not_ends
        (show (reset gl ramData).endsLevel = false from endsLevel_early (Nat.zero_lt_succ 18))
      rw [start, first]
      exact ⟨show 1 ≤ 20 by decide, _, Record.exact_reset gl ramData⟩
  | tail earlier stepped inductionHypothesis =>
      obtain ⟨few, record, recorded⟩ := inductionHypothesis
      have consistent := (paced_run earlier).1.consistent
      cases stepped with
      | @resume _ _ _ _ thread _ _ _ ran =>
          exact ⟨(resume_frame thread.property ran).localCounter ▸ few,
            Record.Exact.resume recorded consistent.indexed thread.property ran⟩
      | interfere answered =>
          obtain ⟨i, answered⟩ := answered
          refine ⟨?_, record, recorded.answer answered⟩
          cases answer_cases answered <;> exact few
      | @advance _ _ pe _ =>
          have few : pe.localCounter ≤ 20 := few
          refine ⟨?_, record, ?_⟩
          · show pe.bfsController.localCounter ≤ 20
            rw [bfsController]
            split
            · exact Nat.zero_le 20
            · show pe.nextCounter ≤ 20
              rw [nextCounter]
              split <;> omega
          · show record.Exact pe.bfsController.toBurstQueues
            rw [bfsController_queues]
            exact recorded

theorem checked_run (run : Relation.ReflTransGen (Cycle gl) (start gl ramData) timed) :
    timed.state.Checked gl := by
  induction run with
  | refl => exact (inSearch_start gl ramData).checkedNow
  | tail _ stepped inductionHypothesis => exact inductionHypothesis.step stepped

theorem Resting.flight (rests : Resting gl pe) {i : Port} (sent : pe.sent i = []) :
    pe.flight i = [] := by
  simp [BurstQueues.flight, BurstQueues.pushed, sent, rests.burstReqQueue i, rests.burstRespQueue i,
    rests.answered i, rests.creating i]

end Pe

namespace LevelPass

open Pe

variable {g : Graph} {edge : Nat → Nat → Prop} {out inn : Nat → List Nat}
variable {first root pe after : Pe} {f : Flow} {part : Part} {delay : Nat} {thread : PeThread}
variable {before : List Byte} {level : Byte} {answers : Port → Prop}

/-! ### A partition that is kept back -/

/-- The memory has not answered a partition yet. -/
structure Held (gl : Gl) (part : Part) (pe : Pe) : Prop where
  answered : pe.answered part.port = []
  burstRespQueue : pe.burstRespQueue part.port = []
  depthBuffer0 : pe.depthBuffer0 part = []
  idx : pe.idx part = resetIdx gl part

theorem Held.step {gl : Gl} (held : Held gl part pe) (consistent : pe.Consistent)
    (started : pe.bfsIterationStart = false)
    (stepped : StepOn gl (fun i => i ≠ part.port) pe after) : Held gl part after := by
  cases stepped with
  | @resume thread delay timed ran =>
      have frame := resume_frame timed ran
      by_cases reads : thread = .getMemResp
      · subst reads
        cases ran
        exact ⟨by simp [getMemResp, held.answered],
          by simp [getMemResp, held.answered, held.burstRespQueue], held.depthBuffer0, held.idx⟩
      by_cases takes : thread = .processInspectDepthReadResp part
      · subst takes
        have idle : pe.inspectDepthRespThread part = some (pe, 1) := respThread_idle
          held.burstRespQueue (consistent.indexed.transfer_none held.burstRespQueue)
        obtain ⟨rfl, _⟩ := Prod.mk.inj (Option.some.inj (idle.symm.trans ran))
        exact held
      have takesNot : thread.takes ≠ some part.port := fun same => takes (PeThread.takes_part same)
      have answered := (congrFun (frame.answered reads) part.port).trans held.answered
      have queue := (frame.burstRespQueue part.port takesNot reads).trans held.burstRespQueue
      by_cases analyses : thread = .inspectDepthAnalysis
      · subst analyses
        obtain ⟨taken, most, length, idx⟩ := Pulse.Inspecting.analysed_depths ran part
        rw [held.depthBuffer0, List.length_nil] at length
        rw [started, if_neg (by simp), show taken = 0 by omega, held.idx] at idx
        exact ⟨answered, queue, List.eq_nil_of_length_eq_zero (by omega), idx⟩
      · exact ⟨answered, queue, (frame.depthBuffer0 part takes analyses).trans held.depthBuffer0,
          (congrFun (frame.idx analyses) part).trans held.idx⟩
  | @answer i other answered =>
      have differs : part.port ≠ i := Ne.symm other
      cases Pe.answer_cases answered with
      | write _ _ _ _ | read _ _ _ _ =>
          exact ⟨by simpa [Function.update_of_ne differs] using held.answered, held.burstRespQueue,
            held.depthBuffer0, held.idx⟩

theorem Held.run {setting : Setting g edge out inn first.ramData first.level}
    (drained : first.Drained (Gl.layout g))
    (steps : Relation.ReflTransGen (StepOn (Gl.layout g) fun i => i ≠ part.port)
      (first.observeStart (Gl.layout g)) pe) : Held (Gl.layout g) part pe := by
  induction steps with
  | refl => exact ⟨drained.answered _, drained.burstRespQueue _, drained.depthBuffer0 _, rfl⟩
  | tail earlier stepped inductionHypothesis =>
      have levels := Relation.ReflTransGen.mono (fun _ _ stepped => StepOn.level stepped) _ _
        earlier
      obtain ⟨f, reached⟩ := reached_run setting drained levels
      exact inductionHypothesis.step reached.consistent reached.started stepped

/-- A partition of which nothing is in flight was analysed to its end. -/
theorem Reached.analysed (reached : Reached edge out first pe g f)
    (depthBuffer0 : pe.depthBuffer0 part = []) (flight : pe.flight part.port = [])
    (asked : (Gl.layout g).maxLen part ≤ (pe.inspectReq part).currentLen) :
    pe.idx part = partEnd g part := by
  have idle : Pulse.Idle (Gl.layout g) part pe := ⟨depthBuffer0, flight, asked⟩
  have stage := reached.pass.inspect part
  have pushed := idle.pushed
  simp only [BurstQueues.pushed, List.append_eq_nil_iff] at pushed
  have spans : ((pe.pipeline (Gl.layout g)).lines part.port).spans = [] := by
    show (pe.line part.port).spans = []
    simp [Line.spans, Line.ops, BurstQueues.line, pushed, idle.creating]
  rw [spans, show (pe.pipeline (Gl.layout g)).depthBuffer0 part = [] from depthBuffer0] at stage
  exact stage.finished idle.left

/-! ### Nothing is expanded -/

/-- Nothing is expanded, and no vertex of the level is left to be found. -/
structure Quiet (g : Graph) (before : List Byte) (level : Byte) (pe : Pe) : Prop where
  frontierBuffer : pe.frontierBuffer = []
  rpaoBuffer : pe.rpaoBuffer = []
  ciaoBuffer : pe.ciaoBuffer = []
  vertices : pe.flight 4 = []
  rows : pe.flight 5 = []
  columns : pe.creating 6 = none
  row : pe.ciaoReq.maxLen ≤ pe.ciaoReq.len
  found : ∀ u, ¬ Uninspected g before level pe.idx u

/-- A hit is a vertex of the level that was not inspected before. -/
theorem Reached.hit (reached : Reached edge out first pe g f)
    (setting : Setting g edge out inn first.ramData first.level) {d : Byte} {rest : List Byte}
    (buffer : pe.depthBuffer0 part = d :: rest) :
    (d = pe.level ↔ depthByte g first.ramData (pe.idx part) = first.level) ∧
      pe.idx part < partEnd g part := by
  have stage := reached.pass.inspect part
  rw [show (pe.pipeline (Gl.layout g)).depthBuffer0 part = d :: rest from buffer] at stage
  have within := stage.within
  have inside : pe.idx part < partEnd g part := by
    rw [List.length_cons] at within
    show (pe.pipeline (Gl.layout g)).idx part < _
    omega
  refine ⟨?_, inside⟩
  rw [reached.level]
  exact stage.analyse.2.isLevel setting (Nat.lt_of_lt_of_le inside (partEnd_le part))

theorem Quiet.hit (quiet : Quiet g first.ramData first.level pe)
    (reached : Reached edge out first pe g f)
    (setting : Setting g edge out inn first.ramData first.level) (i : Part) : pe.hit i = [] := by
  rw [Pe.hit]
  split
  · rfl
  · rename_i d rest buffer
    obtain ⟨level, inside⟩ := reached.hit setting buffer
    exact if_neg fun same => quiet.found (pe.idx i) ⟨level.mp same, i, Nat.le_refl _, inside⟩

theorem empty_of_flight {i : Port} (flight : pe.flight i = []) :
    pe.burstRespQueue i = [] ∧ pe.creating i = none := by
  rw [BurstQueues.flight, BurstQueues.pushed, List.append_eq_nil_iff, List.append_eq_nil_iff,
    List.append_eq_nil_iff, List.append_eq_nil_iff] at flight
  exact ⟨flight.1.1.1, Option.toList_eq_nil_iff.mp flight.2⟩

/-- The threads that expand vertices, rows and columns have nothing to do. -/
theorem Quiet.idle {gl : Gl} (quiet : Quiet g before level pe) (consistent : pe.Consistent)
    (expands : thread = .frontierAnalysis ∨ thread = .processExpandRpaoReadResp ∨
      thread = .issueExpandCiaoReadReq ∨ thread = .processExpandCiaoReadResp ∨
      thread = .issueExpandDepthReadReq)
    (ran : pe.resume gl thread = some (after, delay)) : after = pe := by
  have vertices := empty_of_flight quiet.vertices
  have rows := empty_of_flight quiet.rows
  rcases expands with rfl | rfl | rfl | rfl | rfl
  · obtain ⟨_, mid, settled, looped⟩ := frontierAnalysis_cases ran
    cases settled with
    | idle _ =>
        cases looped with
        | empty _ | full _ _ => rfl
        | asked taken _ _ _ _ => simp [quiet.frontierBuffer] at taken
    | pushed waits => simp [vertices.2] at waits
  · exact ((response_idle consistent.indexed rfl vertices.1).same ran).1
  · obtain ⟨_, mid, settled, looped⟩ := issueExpandCiaoReadReq_cases ran
    have row := quiet.row
    cases settled with
    | idle _ =>
        cases looped with
        | empty _ _ | full _ _ => rfl
        | row _ taken _ => simp [quiet.rpaoBuffer] at taken
        | asked more _ _ _ _ => omega
    | pushed waits => simp [rows.2] at waits
  · exact ((response_idle consistent.indexed rfl rows.1).same ran).1
  · obtain ⟨_, mid, settled, looped⟩ := issueExpandDepthReadReq_cases ran
    cases settled with
    | idle _ =>
        cases looped with
        | empty _ | full _ => rfl
        | asked taken _ _ _ _ => simp [quiet.ciaoBuffer] at taken
    | pushed waits => simp [quiet.columns] at waits

theorem Quiet.resume (quiet : Quiet g first.ramData first.level pe)
    (reached : Reached edge out first pe g f)
    (setting : Setting g edge out inn first.ramData first.level)
    (timed : thread ≠ .bfsController)
    (ran : pe.resume (Gl.layout g) thread = some (after, delay)) :
    Quiet g first.ramData first.level after := by
  by_cases expands : thread = .frontierAnalysis ∨ thread = .processExpandRpaoReadResp ∨
      thread = .issueExpandCiaoReadReq ∨ thread = .processExpandCiaoReadResp ∨
      thread = .issueExpandDepthReadReq
  · obtain rfl := quiet.idle reached.consistent expands ran
    exact quiet
  simp only [not_or] at expands
  obtain ⟨vertices, rpao, rows, ciao, columns⟩ := expands
  have frame := resume_frame timed ran
  have asks : ∀ {i : Port} {other : PeThread}, other.asks = some i → thread ≠ other →
      thread.asks ≠ some i := fun same differs here =>
    differs ((PeThread.asks_eq here).trans (PeThread.asks_eq same).symm)
  have takes : ∀ {i : Port} {other : PeThread}, other.takes = some i → thread ≠ other →
      thread.takes ≠ some i := fun same differs here =>
    differs ((PeThread.takes_eq here).trans (PeThread.takes_eq same).symm)
  refine ⟨?_, (frame.rpaoBuffer rpao rows).trans quiet.rpaoBuffer,
    (frame.ciaoBuffer ciao columns).trans quiet.ciaoBuffer,
    (resume_flight timed ran (asks rfl vertices) (takes rfl rpao)).trans quiet.vertices,
    (resume_flight timed ran (asks rfl rows) (takes rfl ciao)).trans quiet.rows,
    (frame.creating 6 (asks rfl columns)).trans quiet.columns, frame.ciaoReq rows ▸ quiet.row, ?_⟩
  all_goals
    by_cases analyses : thread = .inspectDepthAnalysis
  · subst analyses
    have same : pe.restartedIdx (Gl.layout g) = pe := by
      rw [restartedIdx, if_neg (by simp [reached.started])]
    obtain ⟨_, mid, looped, rfl⟩ := inspectDepthAnalysis_cases ran
    rw [same] at looped
    have checked : (mid.checkDone (Gl.layout g)).frontierBuffer = mid.frontierBuffer := by
      rw [checkDone]
      split <;> rfl
    rw [checked]
    cases looped with
    | empty _ | full _ => exact quiet.frontierBuffer
    | analysed _ =>
        rw [inspectDepth_all]
        show pe.frontierBuffer ++ (List.finRange 4).flatMap pe.hit = []
        rw [quiet.frontierBuffer, List.nil_append]
        exact List.flatMap_eq_nil_iff.mpr fun i _ => quiet.hit reached setting i
  · exact (frame.frontierBuffer analyses vertices).trans quiet.frontierBuffer
  · subst analyses
    rintro u ⟨level, i, behind, inside⟩
    obtain ⟨taken, _, _, idx⟩ := Pulse.Inspecting.analysed_depths ran i
    rw [reached.started, if_neg (by simp)] at idx
    exact quiet.found u ⟨level, i, by omega, inside⟩
  · rw [frame.idx analyses]
    exact quiet.found

theorem Quiet.answer {i : Port} (quiet : Quiet g before level pe)
    (answered : pe.answer i = some after) : Quiet g before level after := by
  obtain ⟨flight, _⟩ := answer_flight answered
  have vertices := (congrFun flight 4).trans quiet.vertices
  have rows := (congrFun flight 5).trans quiet.rows
  cases Pe.answer_cases answered <;>
    exact ⟨quiet.frontierBuffer, quiet.rpaoBuffer, quiet.ciaoBuffer, vertices, rows, quiet.columns,
      quiet.row, quiet.found⟩

theorem Quiet.run (setting : Setting g edge out inn first.ramData first.level)
    (drained : first.Drained (Gl.layout g))
    (levels : Relation.ReflTransGen (LevelStep (Gl.layout g))
      (first.observeStart (Gl.layout g)) root)
    (steps : Relation.ReflTransGen (StepOn (Gl.layout g) answers) root pe)
    (quiet : Quiet g first.ramData first.level root) : Quiet g first.ramData first.level pe := by
  induction steps with
  | refl => exact quiet
  | tail earlier stepped inductionHypothesis =>
      have levels := levels.trans
        (Relation.ReflTransGen.mono (fun _ _ stepped => StepOn.level stepped) _ _ earlier)
      obtain ⟨f, reached⟩ := reached_run setting drained levels
      cases stepped with
      | resume timed ran => exact inductionHypothesis.resume reached setting timed ran
      | answer _ answered => exact inductionHypothesis.answer answered

end LevelPass

namespace Pe

/-! ### The end -/

section Levels

variable {first root pe : Pe} {now k : Nat} {due : TimedThread → Nat}
variable {ramData : List Byte} {timed : Timed TimedThread Pe} {answers : Port → Prop}
variable {isUgraph : Bool} {edges : List (Nat × Nat)} {g : Graph} {ram0 : List Byte}
variable {startIdx : Nat} {part : Part}
variable {edge : Nat → Nat → Prop} {out inn : Nat → List Nat}

/-- Once everything but a partition without a vertex of the level has settled, nothing is
expanded any more. -/
theorem Settling.quiet (setting : Setting g edge out inn first.ramData first.level)
    (settling : Settling (Gl.layout g) ramData first root answers timed)
    (rests : Resting (Gl.layout g) (seen (Gl.layout g) first timed))
    (sent : ∀ i, i ≠ part.port → timed.state.sent i = [])
    (none : ∀ u, resetIdx (Gl.layout g) part ≤ u → u < partEnd g part →
      depthByte g first.ramData u ≠ first.level) :
    Quiet g first.ramData first.level (seen (Gl.layout g) first timed) := by
  obtain ⟨f, reached⟩ := settling.inLevel.reached setting (Nat.le_of_lt settling.later)
  have flight : ∀ i, i ≠ part.port → (seen (Gl.layout g) first timed).flight i = [] :=
    fun i other => rests.flight (sent i other)
  have behind : ∀ {i : Port}, 4 ≤ i.val → i ≠ part.port := fun later => (port_ne part later).symm
  refine ⟨rests.frontierBuffer, rests.rpaoBuffer, rests.ciaoBuffer, flight 4 (behind (by decide)),
    flight 5 (behind (by decide)), rests.creating 6, rests.row, ?_⟩
  rintro u ⟨level, i, least, inside⟩
  by_cases here : i = part
  · subst here
    exact none u ((reached.pass.inspect i).analysed.trans least) inside level
  · have analysed := reached.analysed (rests.depthBuffer0 i)
      (flight i.port fun same => here (port_injective same)) (rests.inspectReq i)
    omega

section Loaded

variable (loaded : loadGraph isUgraph (pairRows edges) = some g)
variable (initialized : ramInit g = some ram0) (bound : startIdx < g.vertexNum)
variable (started : setNewStartVertex (Gl.layout g) startIdx ram0 = some ramData)
include loaded initialized bound started

/-- No level ends before all partitions are analysed. -/
theorem Settling.endsLevel (setting : Setting g edge out inn first.ramData first.level)
    (settling : Settling (Gl.layout g) ramData first root answers ⟨now, due, pe⟩)
    (waiting : ∀ thread, now < due thread) (goesOn : pe.idx part ≠ partEnd g part) :
    pe.endsLevel = false := by
  refine Bool.eq_false_iff.mpr fun ends => goesOn ?_
  have idle := idle_of_endsLevel loaded initialized bound started settling.inLevel.run waiting ends
    part
  obtain ⟨f, reached⟩ := settling.reached setting
  rw [seen_running (settling.inLevel.running settling.later)] at reached
  exact reached.analysed idle.depthBuffer0 idle.flight idle.asked

/-- While a partition is held, no level ends. -/
theorem Settling.goesOn (setting : Setting g edge out inn first.ramData first.level)
    (some : 0 < (Gl.layout g).maxLen part)
    (settling : Settling (Gl.layout g) ramData first (first.observeStart (Gl.layout g))
      (fun i => i ≠ part.port) ⟨now, due, pe⟩)
    (waiting : ∀ thread, now < due thread) : pe.endsLevel = false := by
  have held := @Held.run _ _ _ _ _ _ part setting settling.inLevel.drained settling.steps
  have idx := held.idx
  rw [seen_running (settling.inLevel.running settling.later)] at idx
  have behind : pe.idx part ≠ partEnd g part := fun analysed => by
    have analysed := idx.symm.trans analysed
    rw [partEnd] at analysed
    omega
  exact settling.endsLevel loaded initialized bound started setting waiting behind

/-- A level in which one partition has no vertex can be run to its end over time so that
nothing of it is left. -/
theorem InLevel.exists_end (setting : Setting g edge out inn first.ramData first.level)
    (some : 0 < (Gl.layout g).maxLen part)
    (none : ∀ u, resetIdx (Gl.layout g) part ≤ u → u < partEnd g part →
      depthByte g first.ramData u ≠ first.level)
    (inLevel : InLevel (Gl.layout g) ramData first timed) (early : timed.state.localCounter < 10) :
    ∃ final, InLevel (Gl.layout g) ramData first final ∧
      (∀ thread, final.now < final.due thread) ∧ final.state.endsLevel = true ∧
      final.state.Drained (Gl.layout g) := by
  obtain ⟨begun, settling, waiting⟩ := inLevel.begins loaded initialized bound started early
  -- the partition is held until everything else has settled
  obtain ⟨held, heldSettling, heldWaiting, rests, sent⟩ := Settling.exists_stop loaded initialized
    bound started setting
    (fun timed => Resting (Gl.layout g) (seen (Gl.layout g) first timed) ∧
      ∀ i, i ≠ part.port → timed.state.sent i = [])
    (fun timed settling waiting _ =>
      settling.goesOn loaded initialized bound started setting some waiting)
    (fun timed _ _ goes rests => .inr (by
      by_contra empty
      refine goes ⟨rests, fun i other => ?_⟩
      by_contra more
      exact empty ⟨i, other, more⟩))
    (settling.mono fun i => False.elim) waiting
  have quiet := heldSettling.quiet setting rests sent none
  have levels := heldSettling.inLevel.within (Nat.le_of_lt heldSettling.later)
  -- then it is answered
  have restarted : Settling (Gl.layout g) ramData first (seen (Gl.layout g) first held)
      (fun _ => True) held := ⟨heldSettling.inLevel, heldSettling.later, .refl⟩
  obtain ⟨final, settled, finalWaiting, ends⟩ := Settling.exists_stop loaded initialized bound
    started setting (fun timed => timed.state.endsLevel = true)
    (fun _ _ _ goes => Bool.eq_false_iff.mpr goes)
    (fun timed settling waiting goes rests => by
      by_cases more : ∃ i, timed.state.sent i ≠ []
      · obtain ⟨i, more⟩ := more
        exact .inr ⟨i, trivial, more⟩
      · obtain ⟨f, reached⟩ := settling.reached setting
        have drained := reached.drained rests fun i => not_not.mp fun busy => more ⟨i, busy⟩
        rw [seen_running (settling.inLevel.running settling.later)] at drained
        obtain ⟨few, record, recorded⟩ := controlled_run settling.inLevel.run
        refine .inl (Nat.lt_of_le_of_ne few fun last => goes ?_)
        have ends := endsLevel_of_drained (Drained.of_observing drained) recorded
        rw [← last] at ends
        exact ends)
    restarted heldWaiting
  have quiet := Quiet.run setting inLevel.drained levels settled.steps quiet
  exact ⟨final, settled.inLevel, finalWaiting, ends, drained_of_endsLevel loaded initialized
    bound started settled.inLevel.run finalWaiting ends (empty_of_flight quiet.vertices).2
    (empty_of_flight quiet.rows).2 quiet.columns⟩

/-- After a level that has vertices, but none in one of the partitions, the next one can be
reached over time. -/
theorem InLevel.exists_next (level : LevelStart isUgraph edges g ram0 startIdx k first)
    (few : k < 254) (some : 0 < (Gl.layout g).maxLen part)
    (none : ∀ u, resetIdx (Gl.layout g) part ≤ u → u < partEnd g part →
      depthByte g first.ramData u ≠ first.level)
    {v : Nat} (reaches : Shortest (Edge isUgraph edges) startIdx v k)
    (inLevel : InLevel (Gl.layout g) ramData first timed) (early : timed.state.localCounter < 10) :
    ∃ next, LevelStart isUgraph edges g ram0 startIdx (k + 1) next.state ∧
      InLevel (Gl.layout g) ramData next.state next ∧ next.state.localCounter < 10 := by
  obtain ⟨⟨now, due, pe⟩, inLevel, waiting, ends, drained⟩ := inLevel.exists_end loaded initialized
    bound started (level.setting loaded initialized few) some none early
  have ends : pe.endsLevel = true := ends
  obtain ⟨whole, phase⟩ := inLevel.phase.ended waiting inLevel.drained ends drained
  have run := inLevel.run.tail (.advance waiting)
  have searching : pe.bfsController.bfsDone = false := Bool.eq_false_iff.mpr fun done =>
    (level.end_iff loaded initialized (Nat.zero_lt_of_lt bound) few whole).mp done v reaches
  have next := level.next loaded initialized few whole searching
  have counter : pe.bfsController.localCounter = 0 := by
    rw [bfsController, if_pos ends]
  exact ⟨⟨now + 1, due, pe.bfsController⟩, next, ⟨run, next.drained, checked_run run, phase⟩,
    by rw [counter]; exact Nat.zero_lt_succ 9⟩

end Loaded

end Levels

end Pe

end GraphAccelerator
