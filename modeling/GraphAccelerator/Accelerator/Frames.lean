import GraphAccelerator.Accelerator.Refinement
import GraphAccelerator.Accelerator.Segments

/-!
# What a thread leaves alone

Every buffer has the threads that fill and drain it, and every port one thread for its
requests and one for its responses.  A segment of any other thread does not change it.
Numbers of bursts keep their meaning, since bursts are only added and filled.
-/

namespace GraphAccelerator

open Memory

namespace PeThread

def asks : PeThread → Option Port
  | .issueInspectDepthReadReq prIdx => some prIdx.port
  | .frontierAnalysis => some 4
  | .issueExpandCiaoReadReq => some 5
  | .issueExpandDepthReadReq => some 6
  | .expandDepthAnalysis => some 7
  | _ => none

def takes : PeThread → Option Port
  | .processInspectDepthReadResp prIdx => some prIdx.port
  | .processExpandRpaoReadResp => some 4
  | .processExpandCiaoReadResp => some 5
  | .processExpandDepthReadResp => some 6
  | .processExpandDepthWriteResp => some 7
  | _ => none

def asker (i : Port) : PeThread :=
  if part : i.val < 4 then .issueInspectDepthReadReq ⟨i.val, part⟩
  else if i = 4 then .frontierAnalysis
  else if i = 5 then .issueExpandCiaoReadReq
  else if i = 6 then .issueExpandDepthReadReq
  else .expandDepthAnalysis

def taker (i : Port) : PeThread :=
  if part : i.val < 4 then .processInspectDepthReadResp ⟨i.val, part⟩
  else if i = 4 then .processExpandRpaoReadResp
  else if i = 5 then .processExpandCiaoReadResp
  else if i = 6 then .processExpandDepthReadResp
  else .processExpandDepthWriteResp

theorem asker_part (part : Part) : asker part.port = .issueInspectDepthReadReq part := by
  simp [asker, Part.port]

theorem taker_part (part : Part) : taker part.port = .processInspectDepthReadResp part := by
  simp [taker, Part.port]

variable {thread : PeThread} {i : Port}

theorem asks_eq (same : thread.asks = some i) : thread = asker i := by
  cases thread with
  | issueInspectDepthReadReq prIdx =>
      obtain rfl := Option.some.inj same
      exact (asker_part prIdx).symm
  | frontierAnalysis | issueExpandCiaoReadReq | issueExpandDepthReadReq | expandDepthAnalysis =>
      obtain rfl := Option.some.inj same
      rfl
  | _ => cases same

theorem takes_eq (same : thread.takes = some i) : thread = taker i := by
  cases thread with
  | processInspectDepthReadResp prIdx =>
      obtain rfl := Option.some.inj same
      exact (taker_part prIdx).symm
  | processExpandRpaoReadResp | processExpandCiaoReadResp | processExpandDepthReadResp |
    processExpandDepthWriteResp =>
      obtain rfl := Option.some.inj same
      rfl
  | _ => cases same

theorem taker_takes (i : Port) : (taker i).takes = some i := by
  by_cases part : i.val < 4
  · exact congrArg PeThread.takes (taker_part ⟨i.val, part⟩)
  · revert i
    decide

theorem asks_or_takes (asks : thread.asks = some i) : thread.takes = none := by
  cases thread <;> first | rfl | cases asks

theorem asks_part {part : Part} (same : thread.asks = some part.port) :
    thread = .issueInspectDepthReadReq part :=
  (asks_eq same).trans (asker_part part)

theorem takes_part {part : Part} (same : thread.takes = some part.port) :
    thread = .processInspectDepthReadResp part :=
  (takes_eq same).trans (taker_part part)

end PeThread

namespace Pe

variable {gl : Gl} {thread : PeThread} {pe after : Pe} {delay : Nat}

structure Frame (thread : PeThread) (pe after : Pe) : Prop where
  ramData : after.ramData = pe.ramData
  level : after.level = pe.level
  bfsIterationStart : after.bfsIterationStart = pe.bfsIterationStart
  localCounter : after.localCounter = pe.localCounter
  idx : thread ≠ .inspectDepthAnalysis → after.idx = pe.idx
  frontierSize : thread ≠ .inspectDepthAnalysis → after.frontierSize = pe.frontierSize
  validFlag2 : thread ≠ .inspectDepthAnalysis → after.validFlag2 = pe.validFlag2
  bfsDone : thread ≠ .inspectDepthAnalysis → after.bfsDone = pe.bfsDone
  inspectReq : ∀ i, thread ≠ .issueInspectDepthReadReq i → after.inspectReq i = pe.inspectReq i
  depthBuffer0 : ∀ i, thread ≠ .processInspectDepthReadResp i →
    thread ≠ .inspectDepthAnalysis → after.depthBuffer0 i = pe.depthBuffer0 i
  frontierBuffer : thread ≠ .inspectDepthAnalysis → thread ≠ .frontierAnalysis →
    after.frontierBuffer = pe.frontierBuffer
  rpaoBuffer : thread ≠ .processExpandRpaoReadResp → thread ≠ .issueExpandCiaoReadReq →
    after.rpaoBuffer = pe.rpaoBuffer
  ciaoReq : thread ≠ .issueExpandCiaoReadReq → after.ciaoReq = pe.ciaoReq
  ciaoBuffer : thread ≠ .processExpandCiaoReadResp → thread ≠ .issueExpandDepthReadReq →
    after.ciaoBuffer = pe.ciaoBuffer
  vidxBuffer : thread ≠ .issueExpandDepthReadReq → thread ≠ .expandDepthAnalysis →
    after.vidxBuffer = pe.vidxBuffer
  depthBuffer1 : thread ≠ .processExpandDepthReadResp → thread ≠ .expandDepthAnalysis →
    after.depthBuffer1 = pe.depthBuffer1
  depthBuffer2 : thread ≠ .expandDepthAnalysis → after.depthBuffer2 = pe.depthBuffer2
  creating : ∀ i, thread.asks ≠ some i → after.creating i = pe.creating i
  burstReqQueue : ∀ i, thread.asks ≠ some i → thread ≠ .sendMemReq →
    after.burstReqQueue i = pe.burstReqQueue i
  sent : thread ≠ .sendMemReq → after.sent = pe.sent
  answered : thread ≠ .getMemResp → after.answered = pe.answered
  burstRespQueue : ∀ i, thread.takes ≠ some i → thread ≠ .getMemResp →
    after.burstRespQueue i = pe.burstRespQueue i
  transfer : ∀ i, thread.takes ≠ some i → after.transfer i = pe.transfer i
  bursts : pe.bursts.map BurstOp.shape <+: after.bursts.map BurstOp.shape

namespace Frame

theorem refl (thread : PeThread) (pe : Pe) : Frame thread pe pe := by
  constructor <;> intros <;> rfl

theorem trans {mid : Pe} (first : Frame thread pe mid) (second : Frame thread mid after) :
    Frame thread pe after where
  ramData := second.ramData.trans first.ramData
  level := second.level.trans first.level
  bfsIterationStart := second.bfsIterationStart.trans first.bfsIterationStart
  localCounter := second.localCounter.trans first.localCounter
  idx other := (second.idx other).trans (first.idx other)
  frontierSize other := (second.frontierSize other).trans (first.frontierSize other)
  validFlag2 other := (second.validFlag2 other).trans (first.validFlag2 other)
  bfsDone other := (second.bfsDone other).trans (first.bfsDone other)
  inspectReq i other := (second.inspectReq i other).trans (first.inspectReq i other)
  depthBuffer0 i fills drains :=
    (second.depthBuffer0 i fills drains).trans (first.depthBuffer0 i fills drains)
  frontierBuffer fills drains :=
    (second.frontierBuffer fills drains).trans (first.frontierBuffer fills drains)
  rpaoBuffer fills drains := (second.rpaoBuffer fills drains).trans (first.rpaoBuffer fills drains)
  ciaoReq other := (second.ciaoReq other).trans (first.ciaoReq other)
  ciaoBuffer fills drains := (second.ciaoBuffer fills drains).trans (first.ciaoBuffer fills drains)
  vidxBuffer fills drains := (second.vidxBuffer fills drains).trans (first.vidxBuffer fills drains)
  depthBuffer1 fills drains :=
    (second.depthBuffer1 fills drains).trans (first.depthBuffer1 fills drains)
  depthBuffer2 other := (second.depthBuffer2 other).trans (first.depthBuffer2 other)
  creating i other := (second.creating i other).trans (first.creating i other)
  burstReqQueue i other sends :=
    (second.burstReqQueue i other sends).trans (first.burstReqQueue i other sends)
  sent other := (second.sent other).trans (first.sent other)
  answered other := (second.answered other).trans (first.answered other)
  burstRespQueue i other reads :=
    (second.burstRespQueue i other reads).trans (first.burstRespQueue i other reads)
  transfer i other := (second.transfer i other).trans (first.transfer i other)
  bursts := first.bursts.trans second.bursts

theorem pushBurst {i : Port} (asks : thread.asks = some i) (burstIdx : Nat) (pe : Pe) :
    Frame thread pe (pe.pushBurst i burstIdx) := by
  have elsewhere : ∀ j, thread.asks ≠ some j → j ≠ i := by
    rintro j other rfl
    exact other asks
  constructor <;> intros <;> first
    | rfl
    | exact Function.update_of_ne (elsewhere _ (by assumption)) ..

theorem created {i : Port} (asks : thread.asks = some i) (op : BurstOp) (pe : Pe) :
    Frame thread pe (pe.created i op) := by
  have elsewhere : ∀ j, thread.asks ≠ some j → j ≠ i := by
    rintro j other rfl
    exact other asks
  constructor <;> intros <;> first
    | rfl
    | exact Function.update_of_ne (elsewhere _ (by assumption)) ..
    | exact ⟨_, List.map_append.symm⟩

theorem settled {i : Port} (asks : thread.asks = some i) {mid : Pe} (settled : Settled i pe mid) :
    Frame thread pe mid := by
  cases settled with
  | idle _ => exact refl _ _
  | pushed _ => exact pushBurst asks _ _

theorem popped {i : Port} (takes : thread.takes = some i) (burstIdx : Nat) (pe : Pe) :
    Frame thread pe (pe.popped i burstIdx) := by
  have elsewhere : ∀ j, thread.takes ≠ some j → j ≠ i := by
    rintro j other rfl
    exact other takes
  constructor <;> intros <;> first
    | rfl
    | exact Function.update_of_ne (elsewhere _ (by assumption)) ..

theorem awaits {i : Port} {size : Nat} (takes : thread.takes = some i)
    (awaited : Awaits i size pe after delay) : Frame thread pe after := by
  have elsewhere : ∀ j, thread.takes ≠ some j → j ≠ i := by
    rintro j other rfl
    exact other takes
  cases awaited <;> constructor <;> intros <;> first
    | rfl
    | exact Function.update_of_ne (elsewhere _ (by assumption)) ..

theorem respThread {i : Port} {size : Nat} {store : BurstOp → Pe → Option Pe}
    (takes : thread.takes = some i)
    (stores : ∀ op pe stored, store op pe = some stored → Frame thread pe stored)
    (ran : Pe.respThread i size store pe = some (after, delay)) : Frame thread pe after := by
  cases respThread_cases ran with
  | polled _ awaited => exact awaits takes awaited
  | stored _ _ copied awaited =>
      exact ((popped takes _ _).trans (stores _ _ _ copied)).trans (awaits takes awaited)

end Frame

section Threads

/-- A change of one buffer, or of what only one thread keeps. -/
theorem frame_inspectReq (i : Part) (r : InspectReq) :
    Frame (.issueInspectDepthReadReq i) pe
      { pe with inspectReq := Function.update pe.inspectReq i r } := by
  constructor <;> intros <;> first
    | rfl
    | exact Function.update_of_ne (by rintro rfl; contradiction) ..

theorem inspectDepthReqThread_frame {i : Part}
    (ran : pe.inspectDepthReqThread gl i = some (after, delay)) :
    Frame (.issueInspectDepthReadReq i) pe after := by
  obtain ⟨_, mid, settled, looped⟩ := inspectDepthReqThread_cases ran
  have first : Frame (.issueInspectDepthReadReq i) pe mid := by
    cases settled with
    | idle _ _ => exact .refl _ _
    | restarted _ _ _ => exact frame_inspectReq i _
    | pushed _ => exact (Frame.pushBurst rfl _ _).trans (frame_inspectReq i _)
  refine first.trans ?_
  cases looped with
  | finished _ => exact .refl _ _
  | full _ _ => exact .refl _ _
  | asked _ _ _ _ _ => exact (frame_inspectReq i _).trans (.created rfl _ _)

theorem inspectDepthRespThread_frame {i : Part}
    (ran : pe.inspectDepthRespThread i = some (after, delay)) :
    Frame (.processInspectDepthReadResp i) pe after := by
  refine Frame.respThread rfl (fun op pe stored copied => ?_) ran
  obtain ⟨bytes, _, rfl⟩ := storeInspect_cases copied
  constructor <;> intros <;> first
    | rfl
    | exact Function.update_of_ne (by rintro rfl; contradiction) ..

theorem inspectDepth_frame (pe : Pe) (i : Part) :
    Frame .inspectDepthAnalysis pe (pe.inspectDepth i) := by
  cases buffer : pe.depthBuffer0 i with
  | nil =>
      rw [inspectDepth_nil buffer]
      exact .refl _ _
  | cons d rest =>
      rw [inspectDepth_cons buffer]
      constructor <;> intros <;> first | rfl | contradiction

theorem inspectDepthAnalysis_frame (ran : pe.inspectDepthAnalysis gl = some (after, delay)) :
    Frame .inspectDepthAnalysis pe after := by
  have folded : ∀ (parts : List Part) (pe : Pe),
      Frame .inspectDepthAnalysis pe (parts.foldl inspectDepth pe) := by
    intro parts
    induction parts with
    | nil => exact fun pe => .refl _ _
    | cons i parts inductionHypothesis =>
        exact fun pe => (inspectDepth_frame pe i).trans (inductionHypothesis _)
  have checked : ∀ pe : Pe, Frame .inspectDepthAnalysis pe (pe.checkDone gl) := by
    intro pe
    rw [checkDone]
    split
    · constructor <;> intros <;> first | rfl | contradiction
    · exact .refl _ _
  obtain ⟨_, mid, looped, rfl⟩ := inspectDepthAnalysis_cases ran
  have restarted : Frame .inspectDepthAnalysis pe (pe.restartedIdx gl) := by
    rw [restartedIdx]
    split
    · constructor <;> intros <;> first | rfl | contradiction
    · exact .refl _ _
  refine (restarted.trans ?_).trans (checked mid)
  cases looped with
  | empty _ => exact .refl _ _
  | full _ => exact .refl _ _
  | analysed _ => exact folded _ _

theorem frontierAnalysis_frame (ran : pe.frontierAnalysis gl = some (after, delay)) :
    Frame .frontierAnalysis pe after := by
  obtain ⟨_, mid, settled, looped⟩ := frontierAnalysis_cases ran
  refine (Frame.settled rfl settled).trans ?_
  cases looped with
  | empty _ => exact .refl _ _
  | full _ _ => exact .refl _ _
  | asked _ _ _ _ _ =>
      refine .trans ?_ (.created rfl _ _)
      constructor <;> intros <;> first | rfl | contradiction

theorem processExpandRpaoReadResp_frame
    (ran : pe.processExpandRpaoReadResp = some (after, delay)) :
    Frame .processExpandRpaoReadResp pe after := by
  refine Frame.respThread rfl (fun op pe stored copied => ?_) ran
  obtain ⟨words, _, rfl⟩ := storeRpao_cases copied
  constructor <;> intros <;> first | rfl | contradiction

theorem issueExpandCiaoReadReq_frame
    (ran : pe.issueExpandCiaoReadReq gl = some (after, delay)) :
    Frame .issueExpandCiaoReadReq pe after := by
  have req : ∀ (pe : Pe) (rpaoBuffer : List Int) (ciaoReq : CiaoReq),
      Frame .issueExpandCiaoReadReq pe { pe with rpaoBuffer, ciaoReq } := by
    intro pe rpaoBuffer ciaoReq
    constructor <;> intros <;> first | rfl | contradiction
  obtain ⟨_, mid, settled, looped⟩ := issueExpandCiaoReadReq_cases ran
  have first : Frame .issueExpandCiaoReadReq pe mid := by
    cases settled with
    | idle _ => exact .refl _ _
    | pushed _ => exact (Frame.pushBurst rfl _ _).trans (req _ _ _)
  refine first.trans ?_
  clear first settled ran
  induction looped with
  | empty _ _ => exact .refl _ _
  | row _ _ _ inductionHypothesis => exact (req _ _ _).trans inductionHypothesis
  | full _ _ => exact .refl _ _
  | asked _ _ _ _ _ => exact (req _ _ _).trans (.created rfl _ _)

theorem processExpandCiaoReadResp_frame
    (ran : pe.processExpandCiaoReadResp = some (after, delay)) :
    Frame .processExpandCiaoReadResp pe after := by
  refine Frame.respThread rfl (fun op pe stored copied => ?_) ran
  obtain ⟨words, _, rfl⟩ := storeCiao_cases copied
  constructor <;> intros <;> first | rfl | contradiction

theorem issueExpandDepthReadReq_frame
    (ran : pe.issueExpandDepthReadReq gl = some (after, delay)) :
    Frame .issueExpandDepthReadReq pe after := by
  obtain ⟨_, mid, settled, looped⟩ := issueExpandDepthReadReq_cases ran
  refine (Frame.settled rfl settled).trans ?_
  cases looped with
  | empty _ => exact .refl _ _
  | full _ => exact .refl _ _
  | asked _ _ _ _ _ =>
      refine .trans ?_ (.created rfl _ _)
      constructor <;> intros <;> first | rfl | contradiction

theorem processExpandDepthReadResp_frame
    (ran : pe.processExpandDepthReadResp = some (after, delay)) :
    Frame .processExpandDepthReadResp pe after := by
  refine Frame.respThread rfl (fun op pe stored copied => ?_) ran
  obtain ⟨bytes, _, rfl⟩ := storeDepth_cases copied
  constructor <;> intros <;> first | rfl | contradiction

theorem expandDepthAnalysis_frame (ran : pe.expandDepthAnalysis gl = some (after, delay)) :
    Frame .expandDepthAnalysis pe after := by
  obtain ⟨_, mid, settled, looped⟩ := expandDepthAnalysis_cases ran
  have first : Frame .expandDepthAnalysis pe mid := by
    cases settled with
    | idle _ => exact .refl _ _
    | @pushed burstIdx op byte rest _ present _ =>
        refine .trans ?_ (.pushBurst rfl burstIdx _)
        have shapes : (pe.bursts.set burstIdx { op with data := op.data ++ [byte] }).map
            BurstOp.shape = pe.bursts.map BurstOp.shape := shapes_set present rfl
        constructor <;> intros <;> first | rfl | contradiction | exact shapes ▸ List.prefix_rfl
  refine first.trans ?_
  clear first settled ran
  induction looped with
  | empty _ => exact .refl _ _
  | full _ => exact .refl _ _
  | visited _ _ _ _ inductionHypothesis =>
      refine .trans ?_ inductionHypothesis
      constructor <;> intros <;> first | rfl | contradiction
  | fresh _ _ _ _ _ =>
      refine .trans ?_ (.created rfl _ _)
      constructor <;> intros <;> first | rfl | contradiction

theorem resume_frame (other : thread ≠ .bfsController)
    (ran : resume gl thread pe = some (after, delay)) : Frame thread pe after := by
  cases thread with
  | sendMemReq =>
      cases ran
      constructor <;> intros <;> first | rfl | contradiction
  | getMemResp =>
      cases ran
      constructor <;> intros <;> first | rfl | contradiction
  | issueInspectDepthReadReq prIdx => exact inspectDepthReqThread_frame ran
  | processInspectDepthReadResp prIdx => exact inspectDepthRespThread_frame ran
  | inspectDepthAnalysis => exact inspectDepthAnalysis_frame ran
  | frontierAnalysis => exact frontierAnalysis_frame ran
  | processExpandRpaoReadResp => exact processExpandRpaoReadResp_frame ran
  | issueExpandCiaoReadReq => exact issueExpandCiaoReadReq_frame ran
  | processExpandCiaoReadResp => exact processExpandCiaoReadResp_frame ran
  | issueExpandDepthReadReq => exact issueExpandDepthReadReq_frame ran
  | processExpandDepthReadResp => exact processExpandDepthReadResp_frame ran
  | expandDepthAnalysis => exact expandDepthAnalysis_frame ran
  | processExpandDepthWriteResp =>
      cases ran
      constructor <;> intros <;> first
        | rfl
            | exact Function.update_of_ne (by rintro rfl; contradiction) ..
  | bfsController => exact absurd rfl other

end Threads

section Flight

theorem pushBurst_flight {i : Port} {burstIdx : Nat} (creating : pe.creating i = some burstIdx) :
    (pe.pushBurst i burstIdx).flight = pe.flight := by
  funext j
  by_cases here : j = i
  · subst here
    simp [BurstQueues.flight, BurstQueues.pushed, Pe.pushBurst, creating]
  · simp [BurstQueues.flight, BurstQueues.pushed, Pe.pushBurst, here]

theorem created_flight {i : Port} (free : pe.creating i = none) (op : BurstOp) :
    (pe.created i op).flight i = pe.flight i ++ [pe.bursts.length] := by
  simp [BurstQueues.flight, BurstQueues.pushed, Pe.created, free]

theorem respThread_flight {i : Port} {size : Nat} {store : BurstOp → Pe → Option Pe}
    (stores : ∀ op pe stored, store op pe = some stored → stored.flight = pe.flight)
    (ran : Pe.respThread i size store pe = some (after, delay)) (j : Port) :
    after.flight j ⊆ pe.flight j := by
  have awaited : ∀ {before : Pe}, Awaits i size before after delay →
      after.flight = before.flight := by
    intro before awaited
    cases awaited <;> rfl
  cases respThread_cases ran with
  | polled _ waits => rw [awaited waits]; exact List.Subset.refl _
  | stored _ _ copied waits =>
      rw [awaited waits, stores _ _ _ copied]
      intro burstIdx membership
      by_cases here : j = i
      · subst here
        simp only [BurstQueues.flight, BurstQueues.pushed, Pe.popped, Function.update_self,
          List.mem_append] at membership ⊢
        exact membership.imp_left (Or.imp_left (Or.imp_left List.mem_of_mem_tail))
      · simpa [BurstQueues.flight, BurstQueues.pushed, Pe.popped, here] using membership

/-- The bursts in flight on a port change by the threads of the port only. -/
theorem resume_flight (other : thread ≠ .bfsController)
    (ran : resume gl thread pe = some (after, delay)) {i : Port} (asks : thread.asks ≠ some i)
    (takes : thread.takes ≠ some i) : after.flight i = pe.flight i := by
  have frame := resume_frame other ran
  by_cases sends : thread = .sendMemReq
  · subst sends
    cases ran
    cases queue : pe.burstReqQueue i <;>
      simp [BurstQueues.flight, BurstQueues.pushed, sendMemReq, queue]
  · by_cases reads : thread = .getMemResp
    · subst reads
      cases ran
      cases queue : pe.answered i <;>
        simp [BurstQueues.flight, BurstQueues.pushed, getMemResp, queue]
    · rw [BurstQueues.flight, BurstQueues.flight, BurstQueues.pushed, BurstQueues.pushed,
        frame.creating i asks, frame.burstReqQueue i asks sends, frame.sent sends,
        frame.answered reads, frame.burstRespQueue i takes reads]

theorem answer_flight {i : Port} (answered : pe.answer i = some after) :
    after.flight = pe.flight ∧ after.bursts.map BurstOp.shape = pe.bursts.map BurstOp.shape := by
  have flights : ∀ {burstIdx : Nat} {rest : List Nat}, pe.sent i = burstIdx :: rest →
      ∀ j, pe.burstRespQueue j ++ Function.update pe.answered i
          (pe.answered i ++ [burstIdx]) j ++
        (Function.update pe.sent i rest j ++ pe.burstReqQueue j) = pe.pushed j := by
    intro burstIdx rest queue j
    by_cases here : j = i
    · subst here
      simp [BurstQueues.pushed, queue]
    · simp [BurstQueues.pushed, here]
  cases answer_cases answered with
  | write queue _ _ _ => exact ⟨funext fun j => congrArg (· ++ _) (flights queue j), rfl⟩
  | read queue present _ copied =>
      obtain ⟨bytes, rfl⟩ := ramToReq_eq copied
      exact ⟨funext fun j => congrArg (· ++ _) (flights queue j), shapes_set present rfl⟩

end Flight

end Pe

end GraphAccelerator
