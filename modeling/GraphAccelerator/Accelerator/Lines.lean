import GraphAccelerator.Library.Queue
import GraphAccelerator.Accelerator.Frames
import GraphAccelerator.Accelerator.Stages

/-!
# Segments and the bursts of a port

What the segments do to the bursts that the queues of a port stand for.  A burst joins
its line when it is created, changes its data when it is answered, and leaves the line
when its response is taken; on the way it only moves from queue to queue.
-/

namespace GraphAccelerator

open Memory Store Pipeline BurstQueues

def Line.pending (line : Line) : List BurstOp := line.waiting ++ line.asked.toList

structure Line.Same (before after : Line) : Prop where
  responded : after.responded = before.responded
  pending : after.pending = before.pending

namespace Line

variable {line before mid after : Line} {op : BurstOp}

theorem ops_eq (line : Line) : line.ops = line.responded ++ line.pending :=
  List.append_assoc ..

theorem Same.refl (line : Line) : line.Same line := ⟨rfl, rfl⟩

theorem Same.of_eq (same : after = before) : before.Same after := same ▸ .refl _

theorem Same.trans (first : before.Same mid) (second : mid.Same after) : before.Same after :=
  ⟨second.responded.trans first.responded, second.pending.trans first.pending⟩

theorem Same.spans (same : before.Same after) : after.spans = before.spans := by
  rw [Line.spans, Line.spans, ops_eq, ops_eq, same.responded, same.pending]

/-- The spans of the answered bursts, then those of the others. -/
theorem spans_eq (line : Line) :
    line.spans = (line.responded.map fun op => (op.addr, op.length)) ++
      line.pending.map fun op => (op.addr, op.length) := by
  rw [Line.spans, ops_eq, List.map_append]

end Line

@[simp]
theorem Pipeline.setLine_self (i : Port) (line : Line) (p : Pipeline) :
    (p.setLine i line).lines i = line := Function.update_self ..

theorem Pipeline.setLine_of_ne {i j : Port} (elsewhere : j ≠ i) (line : Line) (p : Pipeline) :
    (p.setLine i line).lines j = p.lines j := Function.update_of_ne elsewhere ..

namespace Pe

variable {gl : Gl} {thread : PeThread} {pe mid after : Pe} {delay : Nat} {i : Port}

def noGraph : Gl := ⟨0, 0, 0, 0, 0, 0, 0, 0⟩

theorem line_of_pipeline {p : Pipeline} (same : after.pipeline noGraph = p) (j : Port) :
    after.line j = p.lines j := by
  rw [← same]
  rfl

theorem pushBurst_lines (indexed : pe.Indexed) {burstIdx : Nat}
    (creating : pe.creating i = some burstIdx) :
    (pe.pushBurst i burstIdx).Indexed ∧
      ∀ j, (pe.line j).Same ((pe.pushBurst i burstIdx).line j) := by
  obtain ⟨op, present, _, asked⟩ := @asked_pipeline noGraph _ indexed _ _ creating
  have ⟨indexed', pipeline⟩ := @pushBurst_pipeline noGraph _ _ _ _ indexed creating present
  refine ⟨indexed', fun j => ?_⟩
  rw [line_of_pipeline pipeline]
  by_cases here : j = i
  · subst here
    have ask : (pe.line j).asked = some op := asked
    refine ⟨?_, ?_⟩ <;> simp [push, Line.pending, ask, Pe.pipeline]
  · rw [push, setLine_of_ne here]
    exact .refl _

theorem Settled.lines {mid : Pe} (settled : Settled i pe mid) (indexed : pe.Indexed) :
    mid.Indexed ∧ ∀ j, (pe.line j).Same (mid.line j) := by
  cases settled with
  | idle _ => exact ⟨indexed, fun j => .refl _⟩
  | pushed creating => exact pushBurst_lines indexed creating

theorem CiaoSettled.lines {mid : Pe} (settled : CiaoSettled pe mid) (indexed : pe.Indexed) :
    mid.Indexed ∧ ∀ j, (pe.line j).Same (mid.line j) := by
  cases settled with
  | idle _ => exact ⟨indexed, fun j => .refl _⟩
  | pushed creating => exact pushBurst_lines indexed creating

theorem InspectSettled.lines {part : Part} {mid : Pe} (settled : InspectSettled gl part pe mid)
    (indexed : pe.Indexed) : mid.Indexed ∧ ∀ j, (pe.line j).Same (mid.line j) := by
  cases settled with
  | idle _ _ => exact ⟨indexed, fun j => .refl _⟩
  | restarted _ _ _ => exact ⟨indexed, fun j => .refl _⟩
  | pushed creating => exact pushBurst_lines indexed creating

theorem ExpandSettled.lines {mid : Pe} (settled : ExpandSettled pe mid) (indexed : pe.Indexed) :
    mid.Indexed ∧ (∀ j, j ≠ 7 → (pe.line j).Same (mid.line j)) ∧
      (mid.line 7).responded = (pe.line 7).responded ∧
      (mid.line 7).pending.map BurstOp.shape = (pe.line 7).pending.map BurstOp.shape := by
  cases settled with
  | idle _ => exact ⟨indexed, fun j _ => .refl _, rfl, rfl⟩
  | @pushed burstIdx op byte rest creating present buffer =>
      have inFlight : burstIdx ∈ pe.flight 7 := by simp [flight, creating]
      obtain ⟨indexed', others⟩ := @setBurst_line _ 7 _ _ indexed inFlight
        { op with data := op.data ++ [byte] } present rfl
      obtain ⟨pushedIndexed, lines⟩ := @pushBurst_lines
        { pe.setBurst burstIdx { op with data := op.data ++ [byte] } with
          depthBuffer2 := rest } 7 indexed' burstIdx creating
      refine ⟨pushedIndexed, fun j elsewhere => ?_, ?_, ?_⟩
      · exact (Line.Same.of_eq (others j elsewhere)).trans (lines j)
      · rw [(lines 7).responded]
        have absent := indexed.nodup 7
        simp only [flight, creating, Option.toList_some, List.nodup_append] at absent
        exact deref_set (fun membership =>
          absent.2.2 _ (List.mem_append_left _ membership) _ (by simp) rfl) _
      · rw [(lines 7).pending]
        have absent := indexed.nodup 7
        simp only [flight, creating, Option.toList_some, List.nodup_append] at absent
        have waiting := @deref_set _ pe.bursts (pe.sent 7 ++ pe.burstReqQueue 7) burstIdx
          (fun membership => absent.2.2 _ (List.mem_append_right _ membership) _ (by simp) rfl)
          { op with data := op.data ++ [byte] }
        simp only [Line.pending, line, creating, Option.bind_some, present, waiting,
          List.getElem?_set_self (indexed.bound inFlight), Option.toList_some, List.map_append,
          List.map_cons, List.map_nil]
        rfl

theorem created_lines (indexed : pe.Indexed) (free : pe.creating i = none) {op : BurstOp}
    (port : op.portIdx = i) :
    (pe.created i op).Indexed ∧ (∀ j, j ≠ i → (pe.created i op).line j = pe.line j) ∧
      ((pe.created i op).line i).responded = (pe.line i).responded ∧
      ((pe.created i op).line i).pending = (pe.line i).pending ++ [op] := by
  have ⟨indexed', pipeline⟩ := @create_pipeline noGraph _ _ indexed free _ port
  have asked : (pe.line i).asked = none := @asked_eq_none noGraph _ _ free
  refine ⟨indexed', fun j elsewhere => ?_, ?_, ?_⟩
  · rw [created, line_of_pipeline pipeline, ask, setLine_of_ne elsewhere]
    rfl
  · rw [created, line_of_pipeline pipeline, ask, setLine_self]
    rfl
  · rw [created, line_of_pipeline pipeline, ask, setLine_self]
    simp [Line.pending, asked, Pe.pipeline]

theorem Awaits.line_eq {size : Nat} (awaited : Awaits i size pe after delay) :
    after.line = pe.line := by
  cases awaited <;> rfl

theorem popped_lines (indexed : pe.Indexed) {burstIdx : Nat} {op : BurstOp}
    (transfer : pe.transfer i = some burstIdx) (present : pe.bursts[burstIdx]? = some op) :
    (pe.popped i burstIdx).Indexed ∧
      (∀ j, j ≠ i → (pe.popped i burstIdx).line j = pe.line j) ∧
      (pe.line i).responded = op :: ((pe.popped i burstIdx).line i).responded ∧
      ((pe.popped i burstIdx).line i).pending = (pe.line i).pending := by
  obtain ⟨rest, queue⟩ := List.head?_eq_some_iff.mp (indexed.transfer i burstIdx transfer)
  have ⟨indexed', pipeline, responded⟩ := @pop_pipeline noGraph _ _ _ _ indexed _ queue present
  refine ⟨indexed', fun j elsewhere => ?_, responded, ?_⟩
  · rw [popped, line_of_pipeline pipeline, take, setLine_of_ne elsewhere]
    rfl
  · rw [popped, line_of_pipeline pipeline, take, setLine_self]
    rfl

/-- The memory answers the burst that waits for the longest time. -/
theorem answer_lines (consistent : pe.Consistent) (ran : pe.answer i = some after) :
    after.Consistent ∧ (∀ j, j ≠ i → after.line j = pe.line j) ∧
      ∃ op reply rest, (pe.sent i).head?.bind (pe.bursts[·]?) = some op ∧
        (pe.line i).pending = op :: rest ∧ (after.line i).pending = rest ∧
        (after.line i).responded = (pe.line i).responded ++ [reply] ∧
        (op.type = .write ∧ reply = op ∧ op.reqToRam pe.ramData = some after.ramData ∨
          op.type ≠ .write ∧ after.ramData = pe.ramData ∧
            op.ramToReq pe.ramData = some reply) := by
  obtain ⟨consistent', _, _, op, rest, oldest, waiting, answered⟩ :=
    @answer_pipeline noGraph _ _ _ consistent ran
  have pending : (pe.line i).pending = op :: (rest ++ (pe.line i).asked.toList) := by
    rw [Line.pending, waiting, List.cons_append]
  rcases answered with ⟨writing, ramData, written, same⟩ | ⟨reading, copied, reads, same⟩
  · refine ⟨consistent', fun j elsewhere => ?_, op, op, _, oldest, pending, ?_, ?_,
      .inl ⟨writing, rfl, ?_⟩⟩
    · rw [line_of_pipeline same, respond, setLine_of_ne elsewhere]
      rfl
    · rw [line_of_pipeline same, respond, setLine_self]
      simp [Line.pending, Pe.pipeline, waiting]
    · rw [line_of_pipeline same, respond, setLine_self]
      rfl
    · rw [written]
      exact congrArg some (congrArg Pipeline.ramData same).symm
  · refine ⟨consistent', fun j elsewhere => ?_, op, copied, _, oldest, pending,
      ?_, ?_,
      .inr ⟨reading, congrArg Pipeline.ramData same, reads⟩⟩
    · rw [line_of_pipeline same, respond, setLine_of_ne elsewhere]
      rfl
    · rw [line_of_pipeline same, respond, setLine_self]
      simp [Line.pending, Pe.pipeline, waiting]
    · rw [line_of_pipeline same, respond, setLine_self]
      rfl

theorem answer_spans (consistent : pe.Consistent) {j : Port} (ran : pe.answer j = some after) :
    (after.line i).spans = (pe.line i).spans := by
  obtain ⟨_, others, op, reply, rest, _, pending, left, responded, outcome⟩ :=
    answer_lines consistent ran
  by_cases here : i = j
  · subst here
    have same : (reply.addr, reply.length) = (op.addr, op.length) := by
      rcases outcome with ⟨_, rfl, _⟩ | ⟨_, _, copied⟩
      · rfl
      · obtain ⟨bytes, rfl⟩ := ramToReq_eq copied
        rfl
    simp [Line.spans_eq, responded, left, pending, same]
  · rw [others i here]

/-! ### Other ports -/

inductive MayAsk (i : Port) (type : RequestType) (pe after : Pe) : Prop
  | nothing : after.toBurstQueues = pe.toBurstQueues → MayAsk i type pe after
  | asked {op : BurstOp} {addr : Int} {length : Nat} : Asks op type addr length →
      op.portIdx = i → op.burstIdx = pe.bursts.length →
      after.toBurstQueues = (pe.created i op).toBurstQueues → MayAsk i type pe after

theorem InspectLoop.mayAsk {part : Part} (looped : InspectLoop gl part pe after) :
    MayAsk part.port .read pe after := by
  cases looped with
  | finished _ => exact .nothing rfl
  | full _ _ => exact .nothing rfl
  | asked _ _ asks port burstIdx => exact .asked asks port burstIdx rfl

theorem FrontierLoop.mayAsk (looped : FrontierLoop gl pe after) : MayAsk 4 .read pe after := by
  cases looped with
  | empty _ => exact .nothing rfl
  | full _ _ => exact .nothing rfl
  | asked _ _ asks port burstIdx => exact .asked asks port burstIdx rfl

theorem CiaoLoop.mayAsk (looped : CiaoLoop gl pe after) : MayAsk 5 .read pe after := by
  induction looped with
  | empty _ _ => exact .nothing rfl
  | full _ _ => exact .nothing rfl
  | asked _ _ asks port burstIdx => exact .asked asks port burstIdx rfl
  | row _ _ _ inductionHypothesis =>
      cases inductionHypothesis with
      | nothing same => exact .nothing same
      | asked asks port burstIdx same => exact .asked asks port burstIdx same

theorem DepthLoop.mayAsk (looped : DepthLoop gl pe after) : MayAsk 6 .read pe after := by
  cases looped with
  | empty _ => exact .nothing rfl
  | full _ => exact .nothing rfl
  | asked _ _ asks port burstIdx => exact .asked asks port burstIdx rfl

theorem ExpandLoop.mayAsk (looped : ExpandLoop gl pe after) : MayAsk 7 .write pe after := by
  induction looped with
  | empty _ => exact .nothing rfl
  | full _ => exact .nothing rfl
  | fresh _ _ asks port burstIdx => exact .asked asks port burstIdx rfl
  | visited _ _ _ _ inductionHypothesis =>
      cases inductionHypothesis with
      | nothing same => exact .nothing same
      | asked asks port burstIdx same => exact .asked asks port burstIdx same

theorem MayAsk.lines {type : RequestType} (mayAsk : MayAsk i type pe after) (indexed : pe.Indexed)
    (free : pe.creating i = none) {j : Port} (elsewhere : j ≠ i) : after.line j = pe.line j := by
  cases mayAsk with
  | nothing same => rw [same]
  | asked _ port _ same => rw [same, (created_lines indexed free port).2.1 j elsewhere]

inductive Pushes (i : Port) (pe mid : Pe) : Prop
  | nothing : pe.creating i = none → mid.toBurstQueues = pe.toBurstQueues → Pushes i pe mid
  | pushed {burstIdx : Nat} : pe.creating i = some burstIdx →
      mid.toBurstQueues = (pe.pushBurst i burstIdx).toBurstQueues → Pushes i pe mid
  | filled {burstIdx : Nat} {op : BurstOp} {byte : Byte} : i = 7 →
      pe.creating i = some burstIdx → pe.bursts[burstIdx]? = some op →
      mid.toBurstQueues = (pushBurst i burstIdx
        (pe.setBurst burstIdx { op with data := op.data ++ [byte] })).toBurstQueues →
      Pushes i pe mid

theorem Pushes.free {mid : Pe} (pushes : Pushes i pe mid) : mid.creating i = none := by
  cases pushes with
  | nothing free same => rw [same, free]
  | pushed _ same | filled _ _ _ same =>
      rw [same]
      exact Function.update_self i none pe.creating

inductive QueueStep (pe : Pe) : PeThread → Pe → Prop
  | kept {after : Pe} : after.toBurstQueues = pe.toBurstQueues →
      QueueStep pe .inspectDepthAnalysis after
  | sent : QueueStep pe .sendMemReq pe.sendMemReq
  | read : QueueStep pe .getMemResp pe.getMemResp
  | asked {thread : PeThread} {mid after : Pe} {i : Port} {type : RequestType} :
      thread.asks = some i → Pushes i pe mid → MayAsk i type mid after →
      (i ≠ 7 → type = .read) → QueueStep pe thread after
  | polled {thread : PeThread} {after : Pe} {i : Port} {size delay : Nat} :
      thread.takes = some i → pe.transfer i = none → Awaits i size pe after delay →
      QueueStep pe thread after
  | stored {thread : PeThread} {mid after : Pe} {i : Port} {burstIdx size delay : Nat}
      {op : BurstOp} : thread.takes = some i → pe.transfer i = some burstIdx →
      pe.bursts[burstIdx]? = some op →
      mid.toBurstQueues = (pe.popped i burstIdx).toBurstQueues → Awaits i size mid after delay →
      QueueStep pe thread after
  | dropped : QueueStep pe .processExpandDepthWriteResp { pe with
      burstOpStatus := (pe.burstRespQueue 7).foldl List.erase pe.burstOpStatus
      burstRespQueue := Function.update pe.burstRespQueue 7 [] }

theorem Settled.pushes {mid : Pe} (settled : Settled i pe mid) : Pushes i pe mid := by
  cases settled with
  | idle free => exact .nothing free rfl
  | pushed creating => exact .pushed creating rfl

theorem respThread_queueStep {size : Nat} {store : BurstOp → Pe → Option Pe}
    (takes : thread.takes = some i)
    (stores : ∀ op pe stored, store op pe = some stored →
      stored.toBurstQueues = pe.toBurstQueues)
    (ran : Pe.respThread i size store pe = some (after, delay)) : QueueStep pe thread after := by
  cases respThread_cases ran with
  | polled idle awaited => exact .polled takes idle awaited
  | stored transfer present copied awaited =>
      exact .stored takes transfer present (stores _ _ _ copied) awaited

theorem resume_queueStep (other : thread ≠ .bfsController)
    (ran : resume gl thread pe = some (after, delay)) : QueueStep pe thread after := by
  cases thread with
  | sendMemReq =>
      cases ran
      exact .sent
  | getMemResp =>
      cases ran
      exact .read
  | issueInspectDepthReadReq part =>
      obtain ⟨_, mid, settled, looped⟩ := inspectDepthReqThread_cases ran
      refine .asked rfl ?_ looped.mayAsk fun _ => rfl
      cases settled with
      | idle free _ => exact .nothing free rfl
      | restarted free _ _ => exact .nothing free rfl
      | pushed creating => exact .pushed creating rfl
  | processInspectDepthReadResp part =>
      refine respThread_queueStep rfl (fun op pe stored copied => ?_) ran
      obtain ⟨_, _, rfl⟩ := storeInspect_cases copied
      rfl
  | inspectDepthAnalysis => exact .kept (inspectDepthAnalysis_queues ran)
  | frontierAnalysis =>
      obtain ⟨_, mid, settled, looped⟩ := frontierAnalysis_cases ran
      exact .asked rfl settled.pushes looped.mayAsk fun _ => rfl
  | processExpandRpaoReadResp =>
      refine respThread_queueStep rfl (fun op pe stored copied => ?_) ran
      obtain ⟨_, _, rfl⟩ := storeRpao_cases copied
      rfl
  | issueExpandCiaoReadReq =>
      obtain ⟨_, mid, settled, looped⟩ := issueExpandCiaoReadReq_cases ran
      refine .asked rfl ?_ looped.mayAsk fun _ => rfl
      cases settled with
      | idle free => exact .nothing free rfl
      | pushed creating => exact .pushed creating rfl
  | processExpandCiaoReadResp =>
      refine respThread_queueStep rfl (fun op pe stored copied => ?_) ran
      obtain ⟨_, _, rfl⟩ := storeCiao_cases copied
      rfl
  | issueExpandDepthReadReq =>
      obtain ⟨_, mid, settled, looped⟩ := issueExpandDepthReadReq_cases ran
      exact .asked rfl settled.pushes looped.mayAsk fun _ => rfl
  | processExpandDepthReadResp =>
      refine respThread_queueStep rfl (fun op pe stored copied => ?_) ran
      obtain ⟨_, _, rfl⟩ := storeDepth_cases copied
      rfl
  | expandDepthAnalysis =>
      obtain ⟨_, mid, settled, looped⟩ := expandDepthAnalysis_cases ran
      refine .asked rfl ?_ looped.mayAsk fun absurd => (absurd rfl).elim
      cases settled with
      | idle free => exact .nothing free rfl
      | pushed creating present _ => exact .filled rfl creating present rfl
  | processExpandDepthWriteResp =>
      cases ran
      exact .dropped
  | bfsController => exact absurd rfl other

theorem Pushes.lines {mid : Pe} (pushes : Pushes i pe mid) (indexed : pe.Indexed) :
    mid.Indexed ∧ ∀ j, j ≠ i ∨ i ≠ 7 → (pe.line j).Same (mid.line j) := by
  cases pushes with
  | nothing _ same =>
      rw [same]
      exact ⟨indexed, fun j _ => .refl _⟩
  | pushed creating same =>
      obtain ⟨indexed', lines⟩ := pushBurst_lines indexed creating
      rw [same]
      exact ⟨indexed', fun j _ => lines j⟩
  | @filled burstIdx op byte writing creating present same =>
      have inFlight : burstIdx ∈ pe.flight i := by simp [flight, creating]
      obtain ⟨indexed', others⟩ := @setBurst_line _ i _ _ indexed inFlight
        { op with data := op.data ++ [byte] } present rfl
      obtain ⟨pushedIndexed, lines⟩ := @pushBurst_lines
        (pe.setBurst burstIdx { op with data := op.data ++ [byte] }) i indexed' burstIdx creating
      rw [same]
      refine ⟨pushedIndexed, fun j elsewhere => ?_⟩
      rcases elsewhere with elsewhere | reads
      · exact (Line.Same.of_eq (others j elsewhere)).trans (lines j)
      · exact absurd writing reads

theorem QueueStep.lines (stepped : QueueStep pe thread after) (indexed : pe.Indexed) {j : Port}
    (asks : thread.asks ≠ some j) (takes : thread.takes ≠ some j) :
    (pe.line j).Same (after.line j) := by
  cases stepped with
  | kept same => exact .of_eq (by rw [same])
  | sent => exact .of_eq (congrFun pe.sendMemReq_line j)
  | read => exact .of_eq (congrFun pe.getMemResp_line j)
  | @asked _ mid _ i _ port pushes mayAsk _ =>
      have elsewhere : j ≠ i := fun same => asks (same ▸ port)
      obtain ⟨indexed', lines⟩ := pushes.lines indexed
      exact (lines j (.inl elsewhere)).trans
        (.of_eq (mayAsk.lines indexed' pushes.free elsewhere))
  | polled _ _ awaited => exact .of_eq (by rw [awaited.line_eq])
  | @stored _ mid _ i _ _ _ _ port transfer present same awaited =>
      have elsewhere : j ≠ i := fun same => takes (same ▸ port)
      refine .of_eq ?_
      rw [awaited.line_eq, same]
      exact (popped_lines indexed transfer present).2.1 j elsewhere
  | dropped =>
      have elsewhere : j ≠ 7 := fun same => takes (same ▸ rfl)
      refine .of_eq ?_
      simp only [line, Function.update_of_ne elsewhere]

/-- The bursts of a port are the business of its own threads. -/
theorem resume_lines (consistent : pe.Consistent) (other : thread ≠ .bfsController)
    (ran : resume gl thread pe = some (after, delay)) {j : Port} (asks : thread.asks ≠ some j)
    (takes : thread.takes ≠ some j) : (pe.line j).Same (after.line j) :=
  (resume_queueStep other ran).lines consistent.indexed asks takes

/-! ### New bursts -/

theorem MayAsk.appended {type : RequestType} (mayAsk : MayAsk i type mid after)
    (indexed : mid.Indexed) (free : mid.creating i = none)
    (count : mid.bursts.length = pe.bursts.length) {op : BurstOp}
    (membership : op ∈ Queues.appended pe.bursts after.bursts) :
    op.portIdx = i ∧ op ∈ (after.line i).pending := by
  have same : Queues.appended pe.bursts after.bursts = Queues.appended mid.bursts after.bursts := by
    rw [Queues.appended, Queues.appended, count]
  rw [same] at membership
  cases mayAsk with
  | nothing queues => simp [queues] at membership
  | @asked asked _ _ _ port _ queues =>
      have pending := (created_lines indexed free port).2.2.2
      simp only [queues, created, Queues.appended_append, List.mem_singleton] at membership
      rw [queues, pending]
      exact ⟨membership ▸ port, by simp [membership]⟩

theorem QueueStep.appended (stepped : QueueStep pe thread after) (indexed : pe.Indexed) :
    ∀ op ∈ Queues.appended pe.bursts after.bursts,
      thread.asks = some op.portIdx ∧ op ∈ (after.line op.portIdx).pending := by
  have none : after.bursts = pe.bursts → ∀ op ∈ Queues.appended pe.bursts after.bursts,
      thread.asks = some op.portIdx ∧ op ∈ (after.line op.portIdx).pending := by
    intro same op membership
    simp [same] at membership
  cases stepped with
  | kept same => exact none (congrArg BurstQueues.bursts same)
  | sent | read | dropped => exact none rfl
  | @asked _ mid _ i _ port pushes mayAsk _ =>
      have count : mid.bursts.length = pe.bursts.length := by
        cases pushes with
        | nothing _ same => rw [same]
        | pushed _ same => rw [same]; rfl
        | filled _ _ _ same => rw [same]; simp [pushBurst]
      intro op membership
      obtain ⟨here, waits⟩ := mayAsk.appended (pushes.lines indexed).1 pushes.free count membership
      rw [here]
      exact ⟨port, waits⟩
  | polled _ _ awaited => cases awaited <;> exact none rfl
  | @stored _ mid _ _ _ _ _ _ _ _ _ same awaited =>
      have kept : mid.bursts = pe.bursts := by
        rw [same]
        rfl
      cases awaited <;> exact none kept

theorem resume_appended (consistent : pe.Consistent) (other : thread ≠ .bfsController)
    (ran : resume gl thread pe = some (after, delay)) :
    ∀ op ∈ Queues.appended pe.bursts after.bursts,
      thread.asks = some op.portIdx ∧ op ∈ (after.line op.portIdx).pending :=
  (resume_queueStep other ran).appended consistent.indexed

/-! ### Reads -/

/-- All bursts that are not answered, except those of the last port, are reads without
data. -/
def Reading (pe : Pe) : Prop :=
  ∀ i, i ≠ 7 → ∀ op ∈ (pe.line i).pending, op.type = .read ∧ op.data = []

theorem MayAsk.reading (mayAsk : MayAsk i .read pe after) (indexed : pe.Indexed)
    (free : pe.creating i = none) (reading : pe.Reading) : after.Reading := by
  intro j behind op membership
  cases mayAsk with
  | nothing same =>
      rw [same] at membership
      exact reading j behind op membership
  | asked asks port _ same =>
      obtain ⟨_, others, _, pending⟩ := created_lines indexed free port
      rw [same] at membership
      by_cases here : j = i
      · subst here
        rw [pending, List.mem_append, List.mem_singleton] at membership
        rcases membership with old | rfl
        · exact reading j behind op old
        · exact ⟨asks.type, asks.data⟩
      · rw [others j here] at membership
        exact reading j behind op membership

theorem Reading.same (reading : pe.Reading) (lines : ∀ j, j ≠ 7 → (pe.line j).Same (after.line j)) :
    after.Reading := fun j behind op membership =>
  reading j behind op ((lines j behind).pending ▸ membership)

theorem Reading.queueStep (reading : pe.Reading) (indexed : pe.Indexed)
    (stepped : QueueStep pe thread after) : after.Reading := by
  cases stepped with
  | kept same => exact reading.same fun j _ => .of_eq (by rw [same])
  | sent => exact reading.same fun j _ => .of_eq (congrFun pe.sendMemReq_line j)
  | read => exact reading.same fun j _ => .of_eq (congrFun pe.getMemResp_line j)
  | @asked _ mid _ i type port pushes mayAsk reads =>
      obtain ⟨indexed', lines⟩ := pushes.lines indexed
      by_cases writes : i = 7
      · subst writes
        exact reading.same fun j behind => (lines j (.inl behind)).trans
          (.of_eq (mayAsk.lines indexed' pushes.free behind))
      · obtain rfl := reads writes
        exact mayAsk.reading indexed' pushes.free
          (reading.same fun j _ => lines j (.inr writes))
  | polled _ _ awaited => exact reading.same fun j _ => .of_eq (by rw [awaited.line_eq])
  | @stored _ mid _ i _ _ _ _ _ transfer present same awaited =>
      obtain ⟨_, others, _, pending⟩ := popped_lines indexed transfer present
      intro j behind op membership
      rw [awaited.line_eq, same] at membership
      by_cases here : j = i
      · subst here
        exact reading j behind op (pending ▸ membership)
      · exact reading j behind op (others j here ▸ membership)
  | dropped =>
      refine reading.same fun j behind => .of_eq ?_
      simp only [line, Function.update_of_ne behind]

theorem Reading.resume (reading : pe.Reading) (consistent : pe.Consistent)
    (other : thread ≠ .bfsController) (ran : resume gl thread pe = some (after, delay)) :
    after.Reading :=
  reading.queueStep consistent.indexed (resume_queueStep other ran)

theorem Reading.answer (reading : pe.Reading) (consistent : pe.Consistent)
    (ran : pe.answer i = some after) : after.Reading := by
  obtain ⟨_, others, op, reply, rest, _, pending, left, _⟩ := answer_lines consistent ran
  intro j behind other membership
  by_cases here : j = i
  · subst here
    refine reading j behind other ?_
    rw [pending]
    exact List.mem_cons_of_mem _ (left ▸ membership)
  · exact reading j behind other (others j here ▸ membership)

theorem Reading.answer_read (reading : pe.Reading) (consistent : pe.Consistent) (port : i ≠ 7)
    (ran : pe.answer i = some after) :
    after.ramData = pe.ramData ∧
      ∃ op bytes rest, (pe.sent i).head?.bind (pe.bursts[·]?) = some op ∧
        (pe.line i).pending = op :: rest ∧ (after.line i).pending = rest ∧
        (after.line i).responded = (pe.line i).responded ++ [{ op with data := bytes }] ∧
        (List.range op.length).mapM (fun j => pe.ramData[op.addr + j]?) = some bytes := by
  obtain ⟨_, _, op, reply, rest, oldest, pending, left, responded, outcome⟩ :=
    answer_lines consistent ran
  have ⟨type, empty⟩ := reading i port op (by simp [pending])
  rcases outcome with ⟨writing, _⟩ | ⟨_, ramData, reads⟩
  · rw [type] at writing
    cases writing
  · simp only [BurstOp.ramToReq, Option.bind_eq_bind, Option.bind_eq_some_iff, empty,
      List.nil_append] at reads
    obtain ⟨bytes, read, same⟩ := reads
    obtain rfl := Option.some.inj same
    exact ⟨ramData, op, bytes, rest, oldest, pending, left, responded, read⟩

end Pe

end GraphAccelerator
