import GraphAccelerator.Accelerator.Pairing
import GraphAccelerator.Accelerator.Replay
import GraphAccelerator.Accelerator.Simulation

/-!
# The room in the local buffers

A read request should only be issued when its response will find room.  The threads
compare the entries of the buffer with its depth and do not count what is in flight, so
that several requests may be issued for the same room; and `inspectDepthAnalysis`
appends up to four vertices after it has found room for one.  Whenever everything in
flight is counted, no buffer overflows.
-/

namespace GraphAccelerator

open Memory Pe Queues

/-- The buffers that are filled by responses and whose room is looked at. -/
inductive ReadBuffer where
  | depthBuffer0 (prIdx : Part)
  | rpaoBuffer
  | ciaoBuffer
  deriving DecidableEq, Repr

namespace ReadBuffer

def port : ReadBuffer → Port
  | .depthBuffer0 prIdx => prIdx.port
  | .rpaoBuffer => 4
  | .ciaoBuffer => 5

def size : ReadBuffer → Nat
  | .depthBuffer0 _ => 1
  | .rpaoBuffer => 4
  | .ciaoBuffer => 4

def depth : ReadBuffer → Nat
  | .depthBuffer0 _ => Gl.depthBufferDepth
  | .rpaoBuffer => Gl.rpaoBufferDepth
  | .ciaoBuffer => Gl.ciaoBufferDepth

def entries (pe : Pe) : ReadBuffer → Nat
  | .depthBuffer0 prIdx => (pe.depthBuffer0 prIdx).length
  | .rpaoBuffer => pe.rpaoBuffer.length
  | .ciaoBuffer => pe.ciaoBuffer.length

def inFlight (pe : Pe) (buffer : ReadBuffer) : Nat :=
  ((pe.line buffer.port).spans.map fun span => span.2 / buffer.size).sum

end ReadBuffer

namespace Pe

structure Fits (pe : Pe) : Prop where
  depthBuffer0 : ∀ i, (pe.depthBuffer0 i).length ≤ Gl.depthBufferDepth
  rpaoBuffer : pe.rpaoBuffer.length ≤ Gl.rpaoBufferDepth
  ciaoBuffer : pe.ciaoBuffer.length ≤ Gl.ciaoBufferDepth
  frontierBuffer : pe.frontierBuffer.length ≤ Gl.frontierBufferDepth

/-- The second rule, for a segment of a thread: what it asks for has room beside what
was asked for before, and what the analysis finds has room in `frontierBuffer`. -/
structure Aware (thread : PeThread) (pe after : Pe) : Prop where
  reads : ∀ (buffer : ReadBuffer), ∀ op ∈ appended pe.bursts after.bursts,
    op.portIdx = buffer.port →
      buffer.entries pe + buffer.inFlight pe + op.length / buffer.size ≤ buffer.depth
  analysis : thread = .inspectDepthAnalysis →
    pe.frontierBuffer.length < Gl.frontierBufferDepth →
    pe.frontierBuffer.length + ((List.finRange 4).flatMap pe.hit).length ≤
      Gl.frontierBufferDepth

/-- A segment of any thread that meets a condition, or an answer of the memory. -/
inductive Interleaved (gl : Gl) (permits : PeThread → Pe → Pe → Prop) : Pe → Pe → Prop
  | resume {pe after : Pe} {thread : PeThread} {delay : Nat} :
      pe.resume gl thread = some (after, delay) → permits thread pe after →
      Interleaved gl permits pe after
  | answer {pe after : Pe} {i : Port} : pe.answer i = some after →
      Interleaved gl permits pe after

structure Covered (pe : Pe) : Prop where
  consistent : pe.Consistent
  reads : ∀ buffer : ReadBuffer, buffer.entries pe + buffer.inFlight pe ≤ buffer.depth
  frontier : pe.frontierBuffer.length ≤ Gl.frontierBufferDepth

theorem Covered.fits {pe : Pe} (covered : pe.Covered) : pe.Fits where
  depthBuffer0 i := Nat.le_of_add_right_le (covered.reads (.depthBuffer0 i))
  rpaoBuffer := Nat.le_of_add_right_le (covered.reads .rpaoBuffer)
  ciaoBuffer := Nat.le_of_add_right_le (covered.reads .ciaoBuffer)
  frontierBuffer := covered.frontier

variable {gl : Gl} {thread : PeThread} {pe after : Pe} {delay : Nat} {i : Port}
  {buffer : ReadBuffer}

/-! ### What is in flight -/

theorem resume_spans (consistent : pe.Consistent) (other : thread ≠ .bfsController)
    (ran : pe.resume gl thread = some (after, delay)) (reading : i ≠ 7)
    (takes : thread.takes ≠ some i) :
    (after.line i).spans = (pe.line i).spans ∨
      ∃ op ∈ appended pe.bursts after.bursts, op.portIdx = i ∧
        (after.line i).spans = (pe.line i).spans ++ [(op.addr, op.length)] := by
  by_cases asks : thread.asks = some i
  · cases resume_queueStep other ran with
    | kept _ | sent | read | dropped => cases asks
    | polled responds _ _ | stored responds _ _ _ _ =>
        rw [PeThread.asks_or_takes asks] at responds
        cases responds
    | @asked _ mid _ j type asking pushes mayAsk _ =>
        obtain rfl := Option.some.inj (asking.symm.trans asks)
        obtain ⟨indexed, lines⟩ := pushes.lines consistent.indexed
        have spans := (lines j (.inr reading)).spans
        have bursts : mid.bursts = pe.bursts := by
          cases pushes with
          | nothing _ same => rw [same]
          | pushed _ same =>
              rw [same]
              rfl
          | filled writing _ _ _ => exact absurd writing reading
        cases mayAsk with
        | nothing same =>
            rw [same]
            exact .inl spans
        | @asked op _ _ _ port _ same =>
            refine .inr ⟨op, ?_, port, ?_⟩
            · rw [same]
              show op ∈ appended pe.bursts (mid.bursts ++ [op])
              rw [bursts, appended_append]
              exact List.mem_singleton_self op
            · rw [same, Pairing.spans_created indexed pushes.free port, spans]
  · exact .inl (resume_lines consistent other ran asks takes).spans

/-! ### What a segment does to the entries -/

theorem inspectDepthAnalysis_buffers (ran : pe.inspectDepthAnalysis gl = some (after, delay)) :
    (∀ j, (after.depthBuffer0 j).length ≤ (pe.depthBuffer0 j).length) ∧
      (after.frontierBuffer = pe.frontierBuffer ∨
        pe.frontierBuffer.length < Gl.frontierBufferDepth ∧
          after.frontierBuffer.length =
            pe.frontierBuffer.length + ((List.finRange 4).flatMap pe.hit).length) := by
  obtain ⟨_, mid, looped, rfl⟩ := inspectDepthAnalysis_cases ran
  have restarted : (pe.restartedIdx gl).depthBuffer0 = pe.depthBuffer0 ∧
      (pe.restartedIdx gl).frontierBuffer = pe.frontierBuffer ∧
      (pe.restartedIdx gl).level = pe.level := by
    rw [restartedIdx]
    split <;> exact ⟨rfl, rfl, rfl⟩
  have checked : (mid.checkDone gl).depthBuffer0 = mid.depthBuffer0 ∧
      (mid.checkDone gl).frontierBuffer = mid.frontierBuffer := by
    rw [checkDone]
    split <;> exact ⟨rfl, rfl⟩
  obtain ⟨depthBuffer0, frontierBuffer, level⟩ := restarted
  rw [checked.1, checked.2]
  cases looped with
  | empty _ => exact ⟨fun j => by rw [depthBuffer0], .inl frontierBuffer⟩
  | full _ => exact ⟨fun j => by rw [depthBuffer0], .inl frontierBuffer⟩
  | analysed room =>
      -- the counters are reset, the depths are those before
      have hits : ∀ j, ((pe.restartedIdx gl).hit j).length = (pe.hit j).length := by
        intro j
        simp only [hit, depthBuffer0, level]
        split
        · rfl
        · split <;> rfl
      rw [inspectDepth_all]
      refine ⟨fun j => ?_, .inr ⟨frontierBuffer ▸ room, ?_⟩⟩
      · rw [analysed, depthBuffer0]
        exact (List.tail_sublist _).length_le
      · simp only [analysed, List.length_append, List.length_flatMap, hits, frontierBuffer]

theorem CiaoLoop.rest (looped : CiaoLoop gl pe after) :
    ∃ rows, pe.rpaoBuffer = rows ++ after.rpaoBuffer := by
  induction looped with
  | empty _ _ | full _ _ | asked _ _ _ _ _ => exact ⟨[], rfl⟩
  | @row pe after srcIdx dstIdx rest _ buffer _ inductionHypothesis =>
      obtain ⟨rows, same⟩ := inductionHypothesis
      refine ⟨srcIdx :: dstIdx :: rows, ?_⟩
      rw [buffer, List.cons_append, List.cons_append, ← same]
      rfl

theorem CiaoLoop.buffers (looped : CiaoLoop gl pe after) :
    after.rpaoBuffer.length ≤ pe.rpaoBuffer.length := by
  obtain ⟨rows, same⟩ := looped.rest
  rw [same, List.length_append]
  exact Nat.le_add_left _ _

theorem DepthLoop.buffers (looped : DepthLoop gl pe after) :
    after.ciaoBuffer.length ≤ pe.ciaoBuffer.length := by
  cases looped with
  | empty _ | full _ => exact Nat.le_refl _
  | asked buffer _ _ _ _ =>
      rw [buffer]
      exact Nat.le_succ _

theorem FrontierLoop.buffers (looped : FrontierLoop gl pe after) :
    after.frontierBuffer.length ≤ pe.frontierBuffer.length := by
  cases looped with
  | empty _ | full _ _ => exact Nat.le_refl _
  | asked buffer _ _ _ _ =>
      rw [buffer]
      exact Nat.le_succ _

theorem entries_le (other : thread ≠ .bfsController)
    (ran : pe.resume gl thread = some (after, delay)) (takes : thread.takes ≠ some buffer.port) :
    buffer.entries after ≤ buffer.entries pe := by
  have frame := resume_frame other ran
  cases buffer with
  | depthBuffer0 j =>
      by_cases analysing : thread = .inspectDepthAnalysis
      · subst analysing
        exact (inspectDepthAnalysis_buffers ran).1 j
      · have elsewhere : thread ≠ .processInspectDepthReadResp j := by
          rintro rfl
          exact takes rfl
        simp only [ReadBuffer.entries, frame.depthBuffer0 j elsewhere analysing, le_refl]
  | rpaoBuffer =>
      by_cases taking : thread = .issueExpandCiaoReadReq
      · subst taking
        obtain ⟨_, mid, settled, looped⟩ := issueExpandCiaoReadReq_cases ran
        have same : mid.rpaoBuffer = pe.rpaoBuffer := by cases settled <;> rfl
        simpa only [ReadBuffer.entries, same] using looped.buffers
      · have elsewhere : thread ≠ .processExpandRpaoReadResp := by
          rintro rfl
          exact takes rfl
        simp only [ReadBuffer.entries, frame.rpaoBuffer elsewhere taking, le_refl]
  | ciaoBuffer =>
      by_cases taking : thread = .issueExpandDepthReadReq
      · subst taking
        obtain ⟨_, mid, settled, looped⟩ := issueExpandDepthReadReq_cases ran
        have same : mid.ciaoBuffer = pe.ciaoBuffer := by cases settled <;> rfl
        simpa only [ReadBuffer.entries, same] using looped.buffers
      · have elsewhere : thread ≠ .processExpandCiaoReadResp := by
          rintro rfl
          exact takes rfl
        simp only [ReadBuffer.entries, frame.ciaoBuffer elsewhere taking, le_refl]

theorem respThread_entries (indexed : pe.Indexed) {store : BurstOp → Pe → Option Pe}
    (queues : ∀ op pe stored, store op pe = some stored →
      stored.toBurstQueues = pe.toBurstQueues)
    (stores : ∀ op pe stored, store op pe = some stored →
      buffer.entries stored = buffer.entries pe + op.length / buffer.size)
    (ran : pe.respThread buffer.port buffer.size store = some (after, delay)) :
    buffer.entries after + buffer.inFlight after = buffer.entries pe + buffer.inFlight pe := by
  have awaited : ∀ {mid : Pe}, Awaits buffer.port buffer.size mid after delay →
      buffer.entries after = buffer.entries mid := by
    intro mid awaited
    cases awaited <;> cases buffer <;> rfl
  cases respThread_cases ran with
  | polled _ polls => rw [awaited polls, ReadBuffer.inFlight, polls.line_eq, ← ReadBuffer.inFlight]
  | @stored burstIdx op stored _ _ transfer present copied polls =>
      obtain ⟨_, _, responded, pending⟩ := popped_lines indexed transfer present
      have popped : buffer.entries (pe.popped buffer.port burstIdx) = buffer.entries pe := by
        cases buffer <;> rfl
      rw [awaited polls, stores _ _ _ copied, popped, ReadBuffer.inFlight, ReadBuffer.inFlight,
        polls.line_eq, queues _ _ _ copied, Line.spans_eq, Line.spans_eq, responded, pending]
      simp [Nat.add_assoc]

theorem response_entries (consistent : pe.Consistent)
    (ran : pe.resume gl thread = some (after, delay)) (takes : thread.takes = some buffer.port) :
    buffer.entries after + buffer.inFlight after = buffer.entries pe + buffer.inFlight pe := by
  have indexed := consistent.indexed
  cases buffer with
  | depthBuffer0 j =>
      obtain rfl := PeThread.takes_part takes
      refine @respThread_entries _ _ _ (.depthBuffer0 j) indexed _ ?_ ?_ ran <;>
        intro op pe stored copied <;> obtain ⟨bytes, converted, rfl⟩ := storeInspect_cases copied
      · rfl
      · simp [ReadBuffer.entries, ReadBuffer.size, toBytes_length converted]
  | rpaoBuffer =>
      obtain rfl : thread = .processExpandRpaoReadResp := by
        cases thread with
        | processInspectDepthReadResp j =>
            exact absurd (Option.some.inj takes) (port_ne j (by decide))
        | processExpandRpaoReadResp => rfl
        | _ => cases takes
      refine @respThread_entries _ _ _ .rpaoBuffer indexed _ ?_ ?_ ran <;>
        intro op pe stored copied <;> obtain ⟨words, converted, rfl⟩ := storeRpao_cases copied
      · rfl
      · simp [ReadBuffer.entries, ReadBuffer.size, toWords_length converted]
  | ciaoBuffer =>
      obtain rfl : thread = .processExpandCiaoReadResp := by
        cases thread with
        | processInspectDepthReadResp j =>
            exact absurd (Option.some.inj takes) (port_ne j (by decide))
        | processExpandCiaoReadResp => rfl
        | _ => cases takes
      refine @respThread_entries _ _ _ .ciaoBuffer indexed _ ?_ ?_ ran <;>
        intro op pe stored copied <;> obtain ⟨words, converted, rfl⟩ := storeCiao_cases copied
      · rfl
      · simp [ReadBuffer.entries, ReadBuffer.size, toWords_length converted]

/-! ### The invariant -/

theorem Covered.resume (covered : pe.Covered) (other : thread ≠ .bfsController)
    (ran : pe.resume gl thread = some (after, delay)) (aware : Aware thread pe after) :
    after.Covered where
  consistent := (resume_refines covered.consistent other ran).consistent
  reads buffer := by
    have before := covered.reads buffer
    by_cases takes : thread.takes = some buffer.port
    · rw [response_entries covered.consistent ran takes]
      exact before
    · have fewer := entries_le other ran takes
      have reading : buffer.port ≠ 7 := by
        cases buffer with
        | depthBuffer0 j => exact port_ne j (by decide)
        | rpaoBuffer | ciaoBuffer => decide
      rcases resume_spans covered.consistent other ran reading takes with
        same | ⟨op, new, port, spans⟩
      · rw [ReadBuffer.inFlight, same, ← ReadBuffer.inFlight]
        omega
      · have room := aware.reads buffer op new port
        rw [ReadBuffer.inFlight, spans, List.map_append, List.sum_append, ← ReadBuffer.inFlight]
        simp only [List.map_cons, List.map_nil, List.sum_singleton]
        omega
  frontier := by
    have before := covered.frontier
    by_cases analysing : thread = .inspectDepthAnalysis
    · subst analysing
      rcases (inspectDepthAnalysis_buffers ran).2 with same | ⟨room, length⟩
      · rw [same]
        exact before
      · rw [length]
        exact aware.analysis rfl room
    · by_cases popping : thread = .frontierAnalysis
      · subst popping
        obtain ⟨_, mid, settled, looped⟩ := frontierAnalysis_cases ran
        have same : mid.frontierBuffer = pe.frontierBuffer := by cases settled <;> rfl
        exact (same ▸ looped.buffers).trans before
      · rw [(resume_frame other ran).frontierBuffer analysing popping]
        exact before

theorem Covered.control (covered : pe.Covered) : pe.bfsController.Covered := by
  have line : pe.bfsController.line = pe.line :=
    congrArg Pipeline.lines (@bfsController_pipeline noGraph _ covered.consistent).2
  have buffers : pe.bfsController.frontierBuffer = pe.frontierBuffer ∧
      ∀ buffer : ReadBuffer, buffer.entries pe.bfsController = buffer.entries pe := by
    obtain ⟨_, _, _, same⟩ := bfsController_eq pe
    rw [same]
    exact ⟨rfl, fun buffer => by cases buffer <;> rfl⟩
  refine ⟨(@bfsController_pipeline noGraph _ covered.consistent).1, fun buffer => ?_, ?_⟩
  · rw [buffers.2, ReadBuffer.inFlight, line, ← ReadBuffer.inFlight]
    exact covered.reads buffer
  · rw [buffers.1]
    exact covered.frontier

theorem Covered.answer (covered : pe.Covered) (ran : pe.answer i = some after) :
    after.Covered := by
  have buffers : after.frontierBuffer = pe.frontierBuffer ∧
      ∀ buffer : ReadBuffer, buffer.entries after = buffer.entries pe := by
    cases answer_cases ran <;> exact ⟨rfl, fun buffer => by cases buffer <;> rfl⟩
  refine ⟨(@answer_refines noGraph _ _ i covered.consistent ran).consistent, fun buffer => ?_, ?_⟩
  · rw [buffers.2, ReadBuffer.inFlight, answer_spans covered.consistent ran,
      ← ReadBuffer.inFlight]
    exact covered.reads buffer
  · rw [buffers.1]
    exact covered.frontier

theorem Covered.step (covered : pe.Covered) (stepped : Interleaved gl Aware pe after) :
    after.Covered := by
  cases stepped with
  | @resume thread _ ran aware =>
      by_cases controls : thread = .bfsController
      · subst controls
        cases ran
        exact covered.control
      · exact covered.resume controls ran aware
  | answer ran => exact covered.answer ran

theorem covered_reset (gl : Gl) (ramData : List Byte) : (reset gl ramData).Covered where
  consistent := reset_consistent gl ramData
  reads buffer := by cases buffer <;> exact Nat.zero_le _
  frontier := Nat.zero_le _

/-! ### Runs -/

def anyOrder (_ : PeThread) (_ _ : Pe) : Prop := True

def aware (pe after : Pe) : Bool :=
  (([.depthBuffer0 0, .depthBuffer0 1, .depthBuffer0 2, .depthBuffer0 3, .rpaoBuffer,
    .ciaoBuffer] : List ReadBuffer).all fun buffer =>
      (appended pe.bursts after.bursts).all fun op => op.portIdx != buffer.port ||
        buffer.entries pe + buffer.inFlight pe + op.length / buffer.size ≤ buffer.depth) &&
    decide (pe.frontierBuffer.length + ((List.finRange 4).flatMap pe.hit).length ≤
      Gl.frontierBufferDepth)

theorem aware_of_check {thread : PeThread} (checked : pe.aware after = true) :
    Aware thread pe after := by
  rw [aware, Bool.and_eq_true, decide_eq_true_eq, List.all_eq_true] at checked
  refine ⟨fun buffer op new port => ?_, fun _ _ => checked.2⟩
  have listed : buffer ∈ ([.depthBuffer0 0, .depthBuffer0 1, .depthBuffer0 2, .depthBuffer0 3,
      .rpaoBuffer, .ciaoBuffer] : List ReadBuffer) := by
    cases buffer with
    | depthBuffer0 prIdx => fin_cases prIdx <;> simp
    | rpaoBuffer | ciaoBuffer => simp
  have room := List.all_eq_true.mp (checked.1 buffer listed) op new
  simpa [port] using room

def hubFound : List Choice :=
  List.replicate 10 (.resume .bfsController) ++ [
    .resume (.issueInspectDepthReadReq 3), .resume (.issueInspectDepthReadReq 3),
    .resume .sendMemReq, .answer 3, .resume .getMemResp,
    .resume (.processInspectDepthReadResp 3), .resume (.processInspectDepthReadResp 3),
    .resume .inspectDepthAnalysis]

/-- In every order of the threads and the memory in which all segments keep the second
rule, no buffer overflows. -/
theorem buffers_fit {ramData : List Byte} {final : Pe}
    (run : Relation.ReflTransGen (Interleaved gl Aware) (reset gl ramData) final) :
    final.Fits := by
  have covered : final.Covered := by
    induction run with
    | refl => exact covered_reset gl ramData
    | tail _ stepped inductionHypothesis => exact inductionHypothesis.step stepped
  exact covered.fits

theorem buffers_fit_hub : ∃ final, final.frontierBuffer = [0] ∧
    Relation.ReflTransGen (Interleaved (Gl.layout hub) Aware) (reset (Gl.layout hub) hubRam)
      final ∧ final.Fits := by
  obtain ⟨_, _, _, _, backs⟩ := hub_backed
  have ran : (replay (Gl.layout hub) aware hubFound
      (hubKnown, reset (Gl.layout hub) hubRam)).map (·.2.frontierBuffer) = some [0] := by
    decide +kernel
  obtain ⟨⟨known, final⟩, ran, found⟩ := Option.map_eq_some_iff.mp ran
  have run := (@replay_run (Gl.layout hub) aware hubKnown known (reset (Gl.layout hub) hubRam)
    final (Interleaved (Gl.layout hub) Aware) hubFound
    (fun _ _ _ _ _ resumes checked => .resume resumes (aware_of_check checked))
    (fun _ _ _ _ answers => .answer answers) backs ran).1
  exact ⟨final, found, run, buffers_fit run⟩

end Pe

end GraphAccelerator
