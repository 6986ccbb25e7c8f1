import GraphAccelerator.Accelerator.Draining

/-!
# Threads with nothing to do

A turn of a thread either lowers the rank of the level or changes nothing: then the thread
waits for one cycle and looks again.  Where all threads do so, only bursts that the memory
has not answered are left of the level.
-/

namespace GraphAccelerator

open Memory Ranks

namespace Pe

section Moves

variable {gl : Gl} {thread : PeThread} {pe mid after : Pe} {delay : Nat}

/-- The thread has nothing to do. -/
def Idle (gl : Gl) (thread : PeThread) (pe : Pe) : Prop := pe.resume gl thread = some (pe, 1)

/-- The rank of a level, and whether its end has still to be looked at. -/
def timedRank (gl : Gl) (pe : Pe) : List Nat := pe.rank gl ++ [pe.validFlag2.toNat]

theorem sendMemReq_idle (empty : ∀ i, pe.burstReqQueue i = []) : pe.sendMemReq = pe := by
  have sent : (fun i => pe.sent i ++ (pe.burstReqQueue i).take 1) = pe.sent :=
    funext fun i => by simp [empty i]
  have queue : (fun i => (pe.burstReqQueue i).tail) = pe.burstReqQueue :=
    funext fun i => by simp [empty i]
  rw [sendMemReq, sent, queue]

theorem getMemResp_idle (empty : ∀ i, pe.answered i = []) : pe.getMemResp = pe := by
  have answered : (fun i => (pe.answered i).tail) = pe.answered :=
    funext fun i => by simp [empty i]
  have queue : (fun i => pe.burstRespQueue i ++ (pe.answered i).take 1) = pe.burstRespQueue :=
    funext fun i => by simp [empty i]
  rw [getMemResp, answered, queue]

theorem respThread_idle {i : Port} {size : Nat} {store : BurstOp → Pe → Option Pe}
    (queue : pe.burstRespQueue i = []) (idle : pe.transfer i = none) :
    pe.respThread i size store = some (pe, 1) := by
  have transfer : Function.update pe.transfer i none = pe.transfer := by
    rw [← idle, Function.update_eq_self]
  rw [respThread, idle]
  show awaitResp i size pe = _
  rw [awaitResp, queue]
  dsimp only
  rw [transfer]

theorem processExpandDepthWriteResp_idle (empty : pe.burstRespQueue 7 = []) :
    pe.processExpandDepthWriteResp = some (pe, 1) := by
  have queue : Function.update pe.burstRespQueue 7 [] = pe.burstRespQueue := by
    rw [← empty, Function.update_eq_self]
  rw [processExpandDepthWriteResp, queue, empty]
  rfl

theorem response_idle {i : Port} (indexed : pe.Indexed) (takes : thread.takes = some i)
    (empty : pe.burstRespQueue i = []) : pe.Idle gl thread := by
  have transfer := indexed.transfer_none empty
  cases thread with
  | processExpandDepthWriteResp =>
      obtain rfl := Option.some.inj takes
      exact processExpandDepthWriteResp_idle empty
  | processInspectDepthReadResp _ | processExpandRpaoReadResp | processExpandCiaoReadResp
    | processExpandDepthReadResp =>
      obtain rfl := Option.some.inj takes
      exact respThread_idle empty transfer
  | _ => cases takes

theorem Idle.same (idle : pe.Idle gl thread) (ran : pe.resume gl thread = some (after, delay)) :
    after = pe ∧ delay = 1 := by
  have same := (show pe.resume gl thread = some (pe, 1) from idle).symm.trans ran
  simpa [eq_comm] using same

/-! ### Moves -/

theorem inspectDepthReqThread_moves {part : Part}
    (ran : pe.inspectDepthReqThread gl part = some (after, delay))
    (started : pe.bfsIterationStart = false)
    (outside : pe.creating part.port = none → (pe.inspectReq part).actualLen = 0) :
    after = pe ∨ Descends (pe.rank gl) (after.rank gl) := by
  by_cases work : pe.creating part.port ≠ none ∨ (pe.inspectReq part).currentLen < gl.maxLen part ∧
      (pe.depthBuffer0 part).length + pe.inspectLen gl part ≤ Gl.depthBufferDepth
  · exact .inr (inspectDepthReqThread_descends ran started outside work)
  · obtain ⟨_, mid, settled, looped⟩ := inspectDepthReqThread_cases ran
    cases settled with
    | idle _ _ =>
        cases looped with
        | finished _ | full _ _ => exact .inl rfl
        | asked more room _ _ _ => exact absurd (.inr ⟨more, room⟩) work
    | restarted _ _ start => simp [started] at start
    | pushed waits => exact absurd (.inl (by simp [waits])) work

theorem inspectDepthAnalysis_moves (ran : pe.inspectDepthAnalysis gl = some (after, delay))
    (started : pe.bfsIterationStart = false) :
    after = pe ∨ Descends (pe.timedRank gl) (after.timedRank gl) := by
  by_cases work : pe.frontierBuffer.length < Gl.frontierBufferDepth ∧ ∃ i, pe.depthBuffer0 i ≠ []
  · obtain ⟨room, i, more⟩ := work
    exact .inr ((inspectDepthAnalysis_descends ran started room more).append (by rfl))
  · have same : pe.restartedIdx gl = pe := by rw [restartedIdx, if_neg (by simp [started])]
    obtain ⟨_, mid, looped, rfl⟩ := inspectDepthAnalysis_cases ran
    rw [same] at looped
    have idle : mid = pe := by
      cases looped with
      | empty _ | full _ => rfl
      | analysed room =>
          have empty : ∀ i, pe.depthBuffer0 i = [] := by simpa [room] using work
          exact (inspectDepth_all pe).trans (analysed_of_empty empty)
    rw [idle, checkDone]
    split
    · rename_i checked
      rw [Bool.and_eq_true] at checked
      refine .inr ?_
      rw [timedRank, timedRank, checked.2]
      exact Descends.behind (show Descends [1] [0] from .inl ⟨Nat.zero_lt_one, rfl⟩) (pe.rank gl)
    · exact .inl rfl

theorem frontierAnalysis_moves (ran : pe.frontierAnalysis gl = some (after, delay)) :
    after = pe ∨ Descends (pe.rank gl) (after.rank gl) := by
  by_cases work : pe.creating 4 ≠ none ∨
      pe.frontierBuffer ≠ [] ∧ pe.rpaoBuffer.length + 2 < Gl.rpaoBufferDepth
  · exact .inr (frontierAnalysis_descends ran work)
  · obtain ⟨_, mid, settled, looped⟩ := frontierAnalysis_cases ran
    cases settled with
    | idle _ =>
        cases looped with
        | empty _ | full _ _ => exact .inl rfl
        | asked taken room _ _ _ => exact absurd (.inr ⟨by simp [taken], room⟩) work
    | pushed waits => exact absurd (.inl (by simp [waits])) work

theorem issueExpandCiaoReadReq_moves (ran : pe.issueExpandCiaoReadReq gl = some (after, delay))
    (outside : pe.creating 5 = none → pe.ciaoReq.actualLen = 0) :
    after = pe ∨ Descends (pe.rank gl) (after.rank gl) := by
  by_cases work : pe.creating 5 ≠ none ∨
      (pe.ciaoReq.len < pe.ciaoReq.maxLen ∧
        pe.ciaoBuffer.length + pe.ciaoLen / 4 < Gl.ciaoBufferDepth) ∨
      (pe.ciaoReq.maxLen ≤ pe.ciaoReq.len ∧ 2 ≤ pe.rpaoBuffer.length)
  · exact .inr (issueExpandCiaoReadReq_descends ran outside work)
  · obtain ⟨_, mid, settled, looped⟩ := issueExpandCiaoReadReq_cases ran
    cases settled with
    | idle _ =>
        cases looped with
        | empty _ _ | full _ _ => exact .inl rfl
        | row finished taken _ => exact absurd (.inr (.inr ⟨finished, by simp [taken]⟩)) work
        | asked more room _ _ _ => exact absurd (.inr (.inl ⟨more, room⟩)) work
    | pushed waits => exact absurd (.inl (by simp [waits])) work

theorem issueExpandDepthReadReq_moves (ran : pe.issueExpandDepthReadReq gl = some (after, delay)) :
    after = pe ∨ Descends (pe.rank gl) (after.rank gl) := by
  by_cases work : pe.creating 6 ≠ none ∨
      pe.ciaoBuffer ≠ [] ∧ pe.ciaoBuffer.length < Gl.depthBufferDepth
  · exact .inr (issueExpandDepthReadReq_descends ran work)
  · obtain ⟨_, mid, settled, looped⟩ := issueExpandDepthReadReq_cases ran
    cases settled with
    | idle _ =>
        cases looped with
        | empty _ | full _ => exact .inl rfl
        | asked taken room _ _ _ => exact absurd (.inr ⟨by simp [taken], room⟩) work
    | pushed waits => exact absurd (.inl (by simp [waits])) work

theorem expandDepthAnalysis_moves (ran : pe.expandDepthAnalysis gl = some (after, delay))
    (room : pe.depthBuffer2.length ≤ Gl.depthBufferDepth) :
    after = pe ∨ Descends (pe.rank gl) (after.rank gl) := by
  by_cases work : pe.creating 7 ≠ none ∨ pe.depthBuffer1 ≠ []
  · exact .inr (expandDepthAnalysis_descends ran room work)
  · obtain ⟨_, mid, settled, looped⟩ := expandDepthAnalysis_cases ran
    cases settled with
    | idle _ =>
        cases looped with
        | empty _ | full _ => exact .inl rfl
        | visited taken _ _ _ | fresh taken _ _ _ _ => exact absurd (.inr (by simp [taken])) work
    | pushed waits _ _ => exact absurd (.inl (by simp [waits])) work

theorem response_moves {i : Port} (indexed : pe.Indexed) (takes : thread.takes = some i)
    (ran : pe.resume gl thread = some (after, delay)) :
    after = pe ∧ delay = 1 ∨ Descends (pe.rank gl) (after.rank gl) := by
  by_cases empty : pe.burstRespQueue i = []
  · exact .inl ((response_idle indexed takes empty).same ran)
  · exact .inr (response_descends takes empty ran)

/-- A thread lowers the rank of the level, unless it has nothing to do. -/
theorem resume_moves (consistent : pe.Consistent) (started : pe.bfsIterationStart = false)
    (room : pe.depthBuffer2.length ≤ Gl.depthBufferDepth) (timed : thread ≠ .bfsController)
    (ran : pe.resume gl thread = some (after, delay)) :
    after = pe ∧ delay = 1 ∨ Descends (pe.timedRank gl) (after.timedRank gl) := by
  have unranked : after = pe ∧ delay = 1 ∨ Descends (pe.rank gl) (after.rank gl) →
      after = pe ∧ delay = 1 ∨ Descends (pe.timedRank gl) (after.timedRank gl) :=
    Or.imp_right fun descends => descends.append (by rfl)
  cases thread with
  | sendMemReq =>
      cases ran
      by_cases queued : ∃ i, pe.burstReqQueue i ≠ []
      · obtain ⟨i, more⟩ := queued
        exact unranked (.inr (sendMemReq_descends more))
      · exact .inl ⟨sendMemReq_idle (by simpa using queued), rfl⟩
  | getMemResp =>
      cases ran
      by_cases queued : ∃ i, pe.answered i ≠ []
      · obtain ⟨i, more⟩ := queued
        exact unranked (.inr (getMemResp_descends more))
      · exact .inl ⟨getMemResp_idle (by simpa using queued), rfl⟩
  | issueInspectDepthReadReq part =>
      exact unranked ((inspectDepthReqThread_moves ran started (consistent.inspect part)).imp_left
        fun same => ⟨same, resume_unit rfl ran⟩)
  | inspectDepthAnalysis =>
      exact (inspectDepthAnalysis_moves ran started).imp_left fun same =>
        ⟨same, resume_unit rfl ran⟩
  | frontierAnalysis =>
      exact unranked ((frontierAnalysis_moves ran).imp_left fun same => ⟨same, resume_unit rfl ran⟩)
  | issueExpandCiaoReadReq =>
      exact unranked ((issueExpandCiaoReadReq_moves ran consistent.ciao).imp_left
        fun same => ⟨same, resume_unit rfl ran⟩)
  | issueExpandDepthReadReq =>
      exact unranked ((issueExpandDepthReadReq_moves ran).imp_left
        fun same => ⟨same, resume_unit rfl ran⟩)
  | expandDepthAnalysis =>
      exact unranked ((expandDepthAnalysis_moves ran room).imp_left
        fun same => ⟨same, resume_unit rfl ran⟩)
  | processInspectDepthReadResp part =>
      exact unranked (response_moves consistent.indexed rfl ran)
  | processExpandRpaoReadResp | processExpandCiaoReadResp | processExpandDepthReadResp
    | processExpandDepthWriteResp => exact unranked (response_moves consistent.indexed rfl ran)
  | bfsController => exact absurd rfl timed

end Moves

end Pe

namespace LevelPass

open Pe

section Level

variable {g : Graph} {edge : Nat → Nat → Prop} {out inn : Nat → List Nat}
variable {start pe : Pe} {f : Flow}

/-- Where no thread has anything to do, the memory has. -/
theorem Reached.resting (reached : Reached edge out start pe g f)
    (room : pe.ciaoBuffer.length < Gl.ciaoBufferDepth)
    (idle : ∀ thread, thread ≠ .bfsController → pe.Idle (Gl.layout g) thread) :
    pe.Resting (Gl.layout g) := by
  rcases reached.busy room with rests | ⟨thread, timed, _, descends⟩
  · exact rests
  · exact absurd (descends pe 1 (idle thread timed)) Descends.irrefl

end Level

end LevelPass

end GraphAccelerator
