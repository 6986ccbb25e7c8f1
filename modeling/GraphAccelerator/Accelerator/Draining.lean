import GraphAccelerator.Accelerator.Ranking
import GraphAccelerator.Accelerator.Waits

/-!
# A level can always be drained

The columns are taken before others arrive, the rows before other row pointers, and so
on down to the inspection: as long as something is left, one of the threads can lower
the rank.  So every state within a level has a run to a drained one.
-/

namespace GraphAccelerator

open Memory Pe Ranks

/-- Nothing is left of a level but bursts that the memory has not answered. -/
structure Pe.Resting (gl : Gl) (pe : Pe) : Prop where
  depthBuffer0 : ∀ i, pe.depthBuffer0 i = []
  frontierBuffer : pe.frontierBuffer = []
  rpaoBuffer : pe.rpaoBuffer = []
  ciaoBuffer : pe.ciaoBuffer = []
  depthBuffer1 : pe.depthBuffer1 = []
  burstReqQueue : ∀ i, pe.burstReqQueue i = []
  burstRespQueue : ∀ i, pe.burstRespQueue i = []
  answered : ∀ i, pe.answered i = []
  creating : ∀ i, pe.creating i = none
  inspectReq : ∀ i, gl.maxLen i ≤ (pe.inspectReq i).currentLen
  row : pe.ciaoReq.maxLen ≤ pe.ciaoReq.len

namespace LevelPass

structure Live (edge : Nat → Nat → Prop) (out : Nat → List Nat) (start : Pe) (g : Graph)
    (pe : Pe) : Prop where
  reached : ∃ f, Reached edge out start pe g f
  recorded : ∃ record : Record, record.Exact pe.toBurstQueues
  chunked : Chunked pe
  room : pe.ciaoBuffer.length < Gl.ciaoBufferDepth

section Level

variable {g : Graph} {edge : Nat → Nat → Prop} {out inn : Nat → List Nat}
variable {start pe after : Pe} {thread : PeThread} {delay : Nat} {f : Flow}

theorem processExpandCiaoReadResp_room (indexed : pe.Indexed) (chunked : Chunked pe)
    (empty : pe.ciaoBuffer = []) (ran : pe.processExpandCiaoReadResp = some (after, delay)) :
    after.ciaoBuffer.length ≤ Gl.baseLen / 4 := by
  have awaits : ∀ {mid : Pe}, Awaits 5 4 mid after delay → after.ciaoBuffer = mid.ciaoBuffer := by
    intro mid awaited
    cases awaited <;> rfl
  cases respThread_cases ran with
  | polled _ awaited =>
      rw [awaits awaited, empty]
      exact Nat.zero_le _
  | @stored burstIdx op _ _ _ transfer present copied awaited =>
      obtain ⟨words, converted, rfl⟩ := storeCiao_cases copied
      have head := List.mem_of_mem_head? (indexed.transfer 5 burstIdx transfer)
      obtain ⟨op', present', ints, length, _, short⟩ := chunked.flight burstIdx (by
        simp [BurstQueues.flight, BurstQueues.pushed, head])
      obtain rfl := Option.some.inj (present.symm.trans present')
      have size := toWords_length converted
      rw [awaits awaited]
      simp only [popped, empty, List.nil_append]
      omega

namespace Live

theorem resume (live : Live edge out start g pe)
    (setting : Setting g edge out inn start.ramData start.level)
    (other : thread ≠ .bfsController)
    (empty : thread = .processExpandCiaoReadResp → pe.ciaoBuffer = [])
    (ran : pe.resume (Gl.layout g) thread = some (after, delay)) :
    Live edge out start g after := by
  obtain ⟨f, reached⟩ := live.reached
  obtain ⟨record, recorded⟩ := live.recorded
  have consistent := reached.consistent
  refine ⟨reached.refines setting (resume_refines consistent other ran), ?_,
    live.chunked.resume consistent other ran, ?_⟩
  · by_cases sends : thread = .sendMemReq
    · subst sends
      cases ran
      exact ⟨record, recorded.sendMemReq⟩
    by_cases reads : thread = .getMemResp
    · subst reads
      cases ran
      exact ⟨record, recorded.getMemResp⟩
    · exact ⟨_, recorded.queueStep consistent.indexed sends reads (resume_queueStep other ran)⟩
  · have room := live.room
    by_cases takes : thread = .processExpandCiaoReadResp
    · subst takes
      have few := processExpandCiaoReadResp_room consistent.indexed live.chunked (empty rfl) ran
      simp only [Gl.baseLen, Gl.ciaoBufferDepth] at few ⊢
      omega
    by_cases issues : thread = .issueExpandDepthReadReq
    · subst issues
      obtain ⟨_, mid, settled, looped⟩ := issueExpandDepthReadReq_cases ran
      have buffer : mid.ciaoBuffer = pe.ciaoBuffer := by cases settled <;> rfl
      rw [← buffer] at room
      cases looped with
      | empty _ => exact room
      | full _ => exact room
      | asked taken _ _ _ _ =>
          rw [taken, List.length_cons] at room
          exact Nat.lt_of_succ_lt room
    · rw [(resume_frame other ran).ciaoBuffer takes issues]
      exact room

theorem answer {i : Port} (live : Live edge out start g pe)
    (setting : Setting g edge out inn start.ramData start.level)
    (ran : pe.answer i = some after) : Live edge out start g after := by
  obtain ⟨f, reached⟩ := live.reached
  obtain ⟨record, recorded⟩ := live.recorded
  obtain ⟨flight, shapes⟩ := answer_flight ran
  have same : after.ciaoReq = pe.ciaoReq ∧ after.ciaoBuffer = pe.ciaoBuffer := by
    cases answer_cases ran <;> exact ⟨rfl, rfl⟩
  exact ⟨reached.refines setting (answer_refines reached.consistent ran),
    ⟨record, recorded.answer ran⟩,
    live.chunked.moved (fun burstIdx membership => flight ▸ membership)
      (shapes ▸ List.prefix_rfl) same.1, same.2 ▸ live.room⟩

theorem advance (live : Live edge out start g pe)
    (setting : Setting g edge out inn start.ramData start.level) (thread : PeThread)
    (other : thread ≠ .bfsController)
    (empty : thread = .processExpandCiaoReadResp → pe.ciaoBuffer = [])
    (descends : ∀ after delay, pe.resume (Gl.layout g) thread = some (after, delay) →
      Descends (pe.rank (Gl.layout g)) (after.rank (Gl.layout g))) :
    ∃ after, LevelStep (Gl.layout g) pe after ∧ Live edge out start g after ∧
      Descends (pe.rank (Gl.layout g)) (after.rank (Gl.layout g)) := by
  obtain ⟨f, reached⟩ := live.reached
  obtain ⟨after, delay, ran⟩ := reached.resume_total other
  exact ⟨after, .resume other ran, live.resume setting other empty ran, descends after delay ran⟩

end Live

theorem Reached.drained (reached : Reached edge out start pe g f) (rests : pe.Resting (Gl.layout g))
    (sent : ∀ i, pe.sent i = []) : pe.Drained (Gl.layout g) := by
  have lines : ∀ i, pe.line i = {} := fun i => by
    simp [BurstQueues.line, rests.burstRespQueue, rests.answered, sent, rests.burstReqQueue,
      rests.creating]
  have asked : (pe.pipeline (Gl.layout g)).lines = pe.line := rfl
  have depthBuffer2 : pe.depthBuffer2 = [] := by
    have buffer := reached.pass.transfers.writes.buffer
    rw [asked, lines] at buffer
    exact buffer
  have vidxBuffer : pe.vidxBuffer = [] := by
    have stage := reached.pass.depth
    have vertices := stage.spans
    rw [asked, lines] at vertices
    have depths : f.depths = [] := List.map_eq_nil_iff.mp vertices.symm
    have read : f.read = [] := by
      have lengths := stage.depths.length_eq
      rw [show (pe.pipeline (Gl.layout g)).depthBuffer1 = [] from rests.depthBuffer1] at lengths
      exact List.eq_nil_of_length_eq_zero lengths
    have buffer := stage.buffer
    rw [read, depths] at buffer
    exact buffer
  exact ⟨rests.depthBuffer0, rests.depthBuffer1, depthBuffer2, rests.frontierBuffer,
    rests.rpaoBuffer, rests.ciaoBuffer, vidxBuffer, rests.burstReqQueue, rests.burstRespQueue, sent,
    rests.answered, rests.creating,
    fun i => reached.consistent.indexed.transfer_none (rests.burstRespQueue i), rests.inspectReq,
    rests.row, reached.consistent.ciao (rests.creating 5)⟩

/-- Something can always move on, until everything rests: the cases are the threads from the
columns on, then the queues, then the other threads up to the inspection. -/
theorem Reached.busy (reached : Reached edge out start pe g f)
    (room : pe.ciaoBuffer.length < Gl.ciaoBufferDepth) : pe.Resting (Gl.layout g) ∨
    ∃ thread : PeThread, thread ≠ .bfsController ∧
      (thread = .processExpandCiaoReadResp → pe.ciaoBuffer = []) ∧
      ∀ after delay, pe.resume (Gl.layout g) thread = some (after, delay) →
        Descends (pe.rank (Gl.layout g)) (after.rank (Gl.layout g)) := by
  have consistent := reached.consistent
  by_cases ciaoBuffer : pe.ciaoBuffer ≠ []
  · exact .inr ⟨.issueExpandDepthReadReq, by simp, by simp, fun _ _ ran =>
      issueExpandDepthReadReq_descends ran (.inr ⟨ciaoBuffer, room⟩)⟩
  rw [not_not] at ciaoBuffer
  by_cases rows : pe.creating 5 ≠ none ∨ pe.ciaoReq.len < pe.ciaoReq.maxLen ∨
      2 ≤ pe.rpaoBuffer.length
  · refine .inr ⟨.issueExpandCiaoReadReq, by simp, by simp, fun _ _ ran =>
      issueExpandCiaoReadReq_descends ran consistent.ciao ?_⟩
    have short : pe.ciaoLen ≤ Gl.baseLen := Nat.min_le_left ..
    simp only [ciaoBuffer, List.length_nil, Gl.baseLen, Gl.ciaoBufferDepth] at short ⊢
    rcases rows with creating | more | pair
    · exact .inl creating
    all_goals omega
  simp only [not_or, not_not, Nat.not_lt] at rows
  obtain ⟨creating5, row, few⟩ := rows
  have rpaoBuffer : pe.rpaoBuffer = [] := by
    have pairs := reached.pass.vertex.pointers
    cases rows : f.rows with
    | nil =>
        rw [rows] at pairs
        exact pairs
    | cons u rest =>
        have length := congrArg List.length pairs
        rw [rows, List.flatMap_cons, List.length_append] at length
        simp only [rowPointers, Pe.pipeline, List.length_cons, List.length_nil] at length
        omega
  by_cases vertices : pe.creating 4 ≠ none ∨ pe.frontierBuffer ≠ []
  · exact .inr ⟨.frontierAnalysis, by simp, by simp, fun _ _ ran =>
      frontierAnalysis_descends ran (vertices.imp_right fun more =>
        ⟨more, by simp [rpaoBuffer, Gl.rpaoBufferDepth]⟩)⟩
  simp only [not_or, not_not] at vertices
  obtain ⟨creating4, frontierBuffer⟩ := vertices
  by_cases depthBuffer0 : ∃ i, pe.depthBuffer0 i ≠ []
  · obtain ⟨i, more⟩ := depthBuffer0
    exact .inr ⟨.inspectDepthAnalysis, by simp, by simp, fun _ _ ran =>
      inspectDepthAnalysis_descends ran reached.started
        (by simp [frontierBuffer, Gl.frontierBufferDepth]) more⟩
  simp only [not_exists, not_not] at depthBuffer0
  by_cases creating6 : pe.creating 6 ≠ none
  · exact .inr ⟨.issueExpandDepthReadReq, by simp, by simp, fun _ _ ran =>
      issueExpandDepthReadReq_descends ran (.inl creating6)⟩
  rw [not_not] at creating6
  by_cases writes : pe.creating 7 ≠ none ∨ pe.depthBuffer1 ≠ []
  · refine .inr ⟨.expandDepthAnalysis, by simp, by simp, fun _ _ ran =>
      expandDepthAnalysis_descends ran ?_ writes⟩
    have buffer := congrArg List.length reached.pass.transfers.writes.buffer
    rw [List.length_map] at buffer
    have single := @Option.length_toList_le _ ((pe.pipeline (Gl.layout g)).lines 7).asked
    simp only [Pe.pipeline, Gl.depthBufferDepth] at buffer single ⊢
    omega
  simp only [not_or, not_not] at writes
  obtain ⟨creating7, depthBuffer1⟩ := writes
  by_cases burstRespQueue : ∃ i, pe.burstRespQueue i ≠ []
  · obtain ⟨i, more⟩ := burstRespQueue
    refine .inr ⟨.taker i, ?_, fun _ => ciaoBuffer, fun _ _ ran =>
      response_descends (PeThread.taker_takes i) more ran⟩
    intro same
    have takes := PeThread.taker_takes i
    rw [same] at takes
    cases takes
  simp only [not_exists, not_not] at burstRespQueue
  by_cases answered : ∃ i, pe.answered i ≠ []
  · obtain ⟨i, more⟩ := answered
    refine .inr ⟨.getMemResp, by simp, by simp, fun _ _ ran => ?_⟩
    cases ran
    exact getMemResp_descends more
  simp only [not_exists, not_not] at answered
  by_cases burstReqQueue : ∃ i, pe.burstReqQueue i ≠ []
  · obtain ⟨i, more⟩ := burstReqQueue
    refine .inr ⟨.sendMemReq, by simp, by simp, fun _ _ ran => ?_⟩
    cases ran
    exact sendMemReq_descends more
  simp only [not_exists, not_not] at burstReqQueue
  by_cases inspections : ∃ i : Part, pe.creating i.port ≠ none ∨
      (pe.inspectReq i).currentLen < (Gl.layout g).maxLen i
  · obtain ⟨i, more⟩ := inspections
    refine .inr ⟨.issueInspectDepthReadReq i, by simp, by simp, fun _ _ ran =>
      inspectDepthReqThread_descends ran reached.started (consistent.inspect i)
        (more.imp_right fun more => ⟨more, ?_⟩)⟩
    have short : pe.inspectLen (Gl.layout g) i ≤ Gl.baseLen := Nat.min_le_left ..
    simp only [depthBuffer0 i, List.length_nil, Gl.baseLen, Gl.depthBufferDepth] at short ⊢
    omega
  simp only [not_exists, not_or, not_not, Nat.not_lt] at inspections
  have creating : ∀ i, pe.creating i = none := by
    intro i
    rcases Port.cases i with ⟨part, rfl⟩ | rfl | rfl | rfl | rfl
    · exact (inspections part).1
    all_goals assumption
  exact .inl ⟨depthBuffer0, frontierBuffer, rpaoBuffer, ciaoBuffer, depthBuffer1, burstReqQueue,
    burstRespQueue, answered, creating, fun i => (inspections i).2, row⟩

namespace Live

theorem progress (live : Live edge out start g pe)
    (setting : Setting g edge out inn start.ramData start.level)
    (busy : ¬ pe.Drained (Gl.layout g)) :
    ∃ after, LevelStep (Gl.layout g) pe after ∧ Live edge out start g after ∧
      Descends (pe.rank (Gl.layout g)) (after.rank (Gl.layout g)) := by
  obtain ⟨f, reached⟩ := live.reached
  rcases reached.busy live.room with rests | ⟨thread, timed, empty, descends⟩
  · obtain ⟨i, more⟩ : ∃ i, pe.sent i ≠ [] := by
      by_contra none
      exact busy (reached.drained rests fun i => not_not.mp fun more => none ⟨i, more⟩)
    obtain ⟨after, ran⟩ := reached.answer_total setting more
    exact ⟨after, .answer ran, live.answer setting ran, answer_descends ran⟩
  · exact live.advance setting thread timed empty descends

/-- Every state within a level has a run to its end. -/
theorem exists_drained (live : Live edge out start g pe)
    (setting : Setting g edge out inn start.ramData start.level) :
    ∃ final, Relation.ReflTransGen (LevelStep (Gl.layout g)) pe final ∧
      Live edge out start g final ∧ final.Drained (Gl.layout g) :=
  exists_finished (rank (Gl.layout g)) (fun _ live busy => live.progress setting busy) live

end Live

end Level

end LevelPass

end GraphAccelerator
