import GraphAccelerator.Accelerator.Idle

/-!
# The start of a level

For one cycle `bfsIterationStart` tells the inspection to start again.  The threads see
it one after the other: until a thread has seen it, the state of the level is the one in
which it has.  The other threads do not notice the difference, and between two levels no
thread does anything.
-/

namespace GraphAccelerator

open Memory Kernel

namespace Pe

/-- The threads of the inspection that have still to see the start of the level. -/
structure Observers where
  parts : Part → Bool
  analysis : Bool

def Observers.without (observers : Observers) : PeThread → Observers
  | .issueInspectDepthReadReq i =>
      { observers with parts := Function.update observers.parts i false }
  | .inspectDepthAnalysis => { observers with analysis := false }
  | _ => observers

variable {gl : Gl} {counter : Nat} {observers : Observers} {pe after : Pe} {delay : Nat}

/-- The state in which they have seen it. -/
def observing (gl : Gl) (counter : Nat) (observers : Observers) (pe : Pe) : Pe :=
  { pe with
    localCounter := counter
    bfsIterationStart := false
    inspectReq := fun i => if observers.parts i
      then { depthMemAddr := gl.baseDepthMemAddr i, currentLen := 0 } else pe.inspectReq i
    idx := if observers.analysis then resetIdx gl else pe.idx
    validFlag2 := if observers.analysis then true else pe.validFlag2
    frontierSize := if observers.analysis then 0 else pe.frontierSize }

theorem createBurst_observing (type : RequestType) (i : Port) (addr : Int) (length : Nat) :
    createBurst type i addr length (pe.observing gl counter observers) =
      (createBurst type i addr length pe).map (observing gl counter observers) := by
  cases same : addr.toNat? with
  | none => simp [createBurst, same]
  | some _ => simp [createBurst, same]; rfl

theorem awaitResp_observing (i : Port) (size : Nat) :
    awaitResp i size (pe.observing gl counter observers) =
      (pe.awaitResp i size).map (Prod.map (observing gl counter observers) id) := by
  have queue : (pe.observing gl counter observers).burstRespQueue = pe.burstRespQueue := rfl
  rw [awaitResp, awaitResp, queue]
  cases pe.burstRespQueue i with
  | nil => rfl
  | cons burstIdx rest =>
      show Option.bind pe.bursts[burstIdx]? _ = Option.map _ (Option.bind pe.bursts[burstIdx]? _)
      cases pe.bursts[burstIdx]? <;> rfl

theorem respThread_observing {store : BurstOp → Pe → Option Pe}
    (stores : ∀ op pe, store op (pe.observing gl counter observers) =
      (store op pe).map (observing gl counter observers)) (i : Port) (size : Nat) :
    respThread i size store (pe.observing gl counter observers) =
      (pe.respThread i size store).map (Prod.map (observing gl counter observers) id) := by
  have transfer : (pe.observing gl counter observers).transfer = pe.transfer := rfl
  rw [respThread, respThread, transfer]
  cases pe.transfer i with
  | none => exact awaitResp_observing i size
  | some burstIdx =>
      show Option.bind pe.bursts[burstIdx]? _ = Option.map _ (Option.bind pe.bursts[burstIdx]? _)
      cases pe.bursts[burstIdx]? with
      | none => rfl
      | some op =>
          let popped : Pe := { pe with
            burstOpStatus := pe.burstOpStatus.erase burstIdx
            burstRespQueue := Function.update pe.burstRespQueue i (pe.burstRespQueue i).tail
            transfer := Function.update pe.transfer i none
            counted := pe.burstIdx_eq }
          show (store op (popped.observing gl counter observers)).bind _ =
            Option.map _ ((store op popped).bind _)
          rw [stores]
          cases store op popped with
          | none => rfl
          | some stored => exact awaitResp_observing i size

theorem frontierLoop_observing : frontierLoop gl (pe.observing gl counter observers) =
    (pe.frontierLoop gl).map (observing gl counter observers) := by
  have frontier : (pe.observing gl counter observers).frontierBuffer = pe.frontierBuffer := rfl
  have rpao : (pe.observing gl counter observers).rpaoBuffer = pe.rpaoBuffer := rfl
  rw [frontierLoop, frontierLoop, frontier, rpao]
  cases pe.frontierBuffer with
  | nil => rfl
  | cons vidx rest =>
      dsimp only
      split
      · exact @createBurst_observing gl counter observers
          { pe with frontierBuffer := rest, toBurstQueues := pe.toBurstQueues } ..
      · rfl

theorem ciaoChunk_observing : ciaoChunk (pe.observing gl counter observers) =
    pe.ciaoChunk.map (observing gl counter observers) := by
  have request : (pe.observing gl counter observers).ciaoReq = pe.ciaoReq := rfl
  have buffer : (pe.observing gl counter observers).ciaoBuffer = pe.ciaoBuffer := rfl
  rw [ciaoChunk, ciaoChunk, request, buffer]
  generalize (if pe.ciaoReq.len + Gl.baseLen > pe.ciaoReq.maxLen
    then pe.ciaoReq.maxLen - pe.ciaoReq.len else Gl.baseLen) = actualLen
  split
  · exact @createBurst_observing gl counter observers
      { pe with ciaoReq := { pe.ciaoReq with actualLen }, toBurstQueues := pe.toBurstQueues } ..
  · rfl

theorem ciaoRows_observing : ∀ (rows : List Int) (pe : Pe),
    ciaoRows gl (pe.observing gl counter observers) rows =
      (pe.ciaoRows gl rows).map (observing gl counter observers)
  | [], _ => rfl
  | [_], _ => rfl
  | srcIdx :: dstIdx :: rest, pe => by
      rw [ciaoRows, ciaoRows]
      split
      · exact @ciaoChunk_observing gl counter observers (pe.takenRow gl srcIdx dstIdx rest)
      · exact ciaoRows_observing rest (pe.takenRow gl srcIdx dstIdx rest)

theorem ciaoLoop_observing : ciaoLoop gl (pe.observing gl counter observers) =
    (pe.ciaoLoop gl).map (observing gl counter observers) := by
  have request : (pe.observing gl counter observers).ciaoReq = pe.ciaoReq := rfl
  rw [ciaoLoop, ciaoLoop, request]
  split
  · exact ciaoChunk_observing
  · exact ciaoRows_observing _ _

theorem depthLoop_observing : depthLoop gl (pe.observing gl counter observers) =
    (pe.depthLoop gl).map (observing gl counter observers) := by
  have ciao : (pe.observing gl counter observers).ciaoBuffer = pe.ciaoBuffer := rfl
  rw [depthLoop, depthLoop, ciao]
  cases pe.ciaoBuffer with
  | nil => rfl
  | cons vidx rest =>
      dsimp only
      split
      · exact @createBurst_observing gl counter observers { pe with
          vidxBuffer := pe.vidxBuffer ++ [vidx]
          ciaoBuffer := rest
          toBurstQueues := pe.toBurstQueues } ..
      · rfl

theorem expandLoop_observing : ∀ (depths : List Byte) (pe : Pe),
    expandLoop gl (pe.observing gl counter observers) depths =
      (pe.expandLoop gl depths).map (observing gl counter observers)
  | [], _ => rfl
  | d :: rest, pe => by
      have buffer : (pe.observing gl counter observers).depthBuffer2 = pe.depthBuffer2 := rfl
      have vertices : (pe.observing gl counter observers).vidxBuffer = pe.vidxBuffer := rfl
      rw [expandLoop, expandLoop, buffer, vertices]
      split
      · cases pe.vidxBuffer with
        | nil => rfl
        | cons vidx vidxs =>
            dsimp only
            split
            · exact @createBurst_observing gl counter observers { pe with
                depthBuffer1 := rest
                vidxBuffer := vidxs
                depthBuffer2 := pe.depthBuffer2 ++ [pe.level + 1]
                toBurstQueues := pe.toBurstQueues } ..
            · exact expandLoop_observing rest { pe with
                depthBuffer1 := rest
                vidxBuffer := vidxs
                toBurstQueues := pe.toBurstQueues }
      · rfl

theorem fillBurst_observing (burstIdx : Nat) :
    fillBurst burstIdx (pe.observing gl counter observers) =
      (pe.fillBurst burstIdx).map (observing gl counter observers) := by
  show Option.bind pe.bursts[burstIdx]? _ = Option.map _ (Option.bind pe.bursts[burstIdx]? _)
  cases pe.bursts[burstIdx]? with
  | none => rfl
  | some op =>
      show Option.bind pe.depthBuffer2.head? _ = Option.map _ (Option.bind pe.depthBuffer2.head? _)
      cases pe.depthBuffer2.head? <;> rfl

theorem map_finish {observe : Pe → Pe} {observed final : Option Pe}
    (commutes : observed = final.map observe) :
    (do return (← observed, 1) : Option (Pe × Nat)) =
      (do return (← final, 1) : Option (Pe × Nat)).map (Prod.map observe id) := by
  rw [commutes]
  cases final <;> rfl

abbrev setRequest (i : Part) (r : InspectReq) (pe : Pe) : Pe :=
  { pe with inspectReq := Function.update pe.inspectReq i r, toBurstQueues := pe.toBurstQueues }

theorem setRequest_observing {i : Part} (observed : observers.parts i = false) (r : InspectReq) :
    setRequest i r (pe.observing gl counter observers) =
      observing gl counter observers (pe.setRequest i r) := by
  simp only [setRequest, observing, Pe.mk.injEq, true_and, and_true]
  funext j
  by_cases here : j = i
  · subst here
    simp [observed]
  · simp [here]

theorem inspectDepthReqLoop_observing {i : Part} (observed : observers.parts i = false) :
    inspectDepthReqLoop gl i (pe.observing gl counter observers) =
      (pe.inspectDepthReqLoop gl i).map (observing gl counter observers) := by
  have request : (pe.observing gl counter observers).inspectReq i = pe.inspectReq i := by
    simp [observing, observed]
  have buffer : (pe.observing gl counter observers).depthBuffer0 = pe.depthBuffer0 := rfl
  rw [inspectDepthReqLoop, inspectDepthReqLoop, request, buffer]
  generalize (if (pe.inspectReq i).currentLen + Gl.baseLen > gl.maxLen i
    then gl.maxLen i - (pe.inspectReq i).currentLen else Gl.baseLen) = actualLen
  split
  · dsimp only
    split
    · rfl
    · show createBurst _ _ _ _ (setRequest i { pe.inspectReq i with actualLen } _) = _
      rw [setRequest_observing observed]
      exact createBurst_observing ..
  · rfl

theorem inspectDepthReqThread_free {i : Part} (free : pe.creating i.port = none)
    (running : pe.bfsIterationStart = false) :
    inspectDepthReqThread gl i pe = do return (← pe.inspectDepthReqLoop gl i, 1) := by
  rw [inspectDepthReqThread, free]
  simp [running]

theorem inspectDepthReqThread_restart {i : Part} (free : pe.creating i.port = none)
    (starts : pe.bfsIterationStart = true)
    (finished : gl.maxLen i ≤ (pe.inspectReq i).currentLen) :
    inspectDepthReqThread gl i pe = do
      let request : InspectReq := { depthMemAddr := gl.baseDepthMemAddr i, currentLen := 0 }
      return (← (pe.setRequest i request).inspectDepthReqLoop gl i, 1) := by
  have both : (decide (gl.maxLen i ≤ (pe.inspectReq i).currentLen) &&
      pe.bfsIterationStart) = true := by
    simp [starts, finished]
  rw [inspectDepthReqThread, free]
  dsimp only
  rw [if_pos both]

theorem inspectDepthReqThread_observing {i : Part}
    (observed : observers.parts i = pe.bfsIterationStart)
    (starts : pe.bfsIterationStart = true →
      pe.creating i.port = none ∧ gl.maxLen i ≤ (pe.inspectReq i).currentLen) :
    inspectDepthReqThread gl i (pe.observing gl counter observers) =
      (pe.inspectDepthReqThread gl i).map (Prod.map (observing gl counter
        (observers.without (.issueInspectDepthReadReq i))) id) := by
  have seen : (observers.without (.issueInspectDepthReadReq i)).parts i = false := by
    simp [Observers.without]
  have later := fun pe : Pe => @inspectDepthReqLoop_observing gl counter _ pe i seen
  cases running : pe.bfsIterationStart with
  | true =>
      obtain ⟨free, finished⟩ := starts running
      rw [running] at observed
      have same : pe.observing gl counter observers = observing gl counter
          (observers.without (.issueInspectDepthReadReq i))
          (pe.setRequest i { depthMemAddr := gl.baseDepthMemAddr i, currentLen := 0 }) := by
        simp only [observing, Observers.without, Pe.mk.injEq, true_and]
        refine ⟨rfl, funext fun j => ?_, rfl, rfl, trivial⟩
        by_cases here : j = i
        · subst here
          simp [observed]
        · simp [here]
      have freeToo : (pe.observing gl counter observers).creating i.port = none := free
      rw [inspectDepthReqThread_restart free running finished,
        inspectDepthReqThread_free freeToo rfl, same]
      exact map_finish (later _)
  | false =>
      rw [running] at observed
      have same : observers.without (.issueInspectDepthReadReq i) = observers := by
        rw [Observers.without, ← observed, Function.update_eq_self]
      rw [same] at later ⊢
      cases creating : pe.creating i.port with
      | none =>
          have creatingToo : (pe.observing gl counter observers).creating i.port = none := creating
          rw [inspectDepthReqThread_free creating running,
            inspectDepthReqThread_free creatingToo rfl]
          exact map_finish (later pe)
      | some burstIdx =>
          have request : (pe.observing gl counter observers).inspectReq i = pe.inspectReq i := by
            simp [observing, observed]
          rw [inspectDepthReqThread, inspectDepthReqThread, request, creating,
            show (pe.observing gl counter observers).creating i.port = _ from creating]
          refine map_finish ?_
          rw [← later]
          congr 1
          exact @setRequest_observing gl counter observers (pe.pushBurst i.port burstIdx) i
            observed _

theorem inspectDepth_observing (observed : observers.analysis = false) (i : Part) :
    inspectDepth (pe.observing gl counter observers) i =
      (pe.inspectDepth i).observing gl counter observers := by
  have buffer : (pe.observing gl counter observers).depthBuffer0 = pe.depthBuffer0 := rfl
  have level : (pe.observing gl counter observers).level = pe.level := rfl
  rw [inspectDepth, inspectDepth, buffer, level]
  cases pe.depthBuffer0 i with
  | nil => rfl
  | cons d rest =>
      dsimp only
      split <;> simp [observing, observed]

theorem inspectDepths_observing (observed : observers.analysis = false) (parts : List Part) :
    parts.foldl inspectDepth (pe.observing gl counter observers) =
      (parts.foldl inspectDepth pe).observing gl counter observers := by
  induction parts generalizing pe with
  | nil => rfl
  | cons i parts inductionHypothesis =>
      rw [List.foldl_cons, List.foldl_cons, inspectDepth_observing observed, inductionHypothesis]

theorem checkDone_observing (observed : observers.analysis = false) :
    checkDone gl (pe.observing gl counter observers) =
      (pe.checkDone gl).observing gl counter observers := by
  have analysed : (pe.observing gl counter observers).allAnalyzed gl = pe.allAnalyzed gl := by
    simp [allAnalyzed, observing, observed]
  have flag : (pe.observing gl counter observers).validFlag2 = pe.validFlag2 := by
    simp [observing, observed]
  rw [checkDone, checkDone, analysed, flag]
  split <;> simp [observing, observed]

/-- What `inspectDepthAnalysis` does with the heads of the buffers. -/
def inspectHeads (pe : Pe) : Pe :=
  if ((List.finRange 4).any fun i => !(pe.depthBuffer0 i).isEmpty) &&
      pe.frontierBuffer.length < Gl.frontierBufferDepth then (List.finRange 4).foldl inspectDepth pe
  else pe

theorem inspectDepthAnalysis_observing (observed : observers.analysis = pe.bfsIterationStart) :
    inspectDepthAnalysis gl (pe.observing gl counter observers) =
      (pe.inspectDepthAnalysis gl).map
        (Prod.map (observing gl counter (observers.without .inspectDepthAnalysis)) id) := by
  have same : pe.observing gl counter observers =
      (pe.restartedIdx gl).observing gl counter (observers.without .inspectDepthAnalysis) := by
    cases running : pe.bfsIterationStart <;> rw [running] at observed <;>
      simp [observing, Observers.without, restartedIdx, observed, running]
  have heads : ∀ pe : Pe,
      inspectHeads (pe.observing gl counter (observers.without .inspectDepthAnalysis)) =
        pe.inspectHeads.observing gl counter (observers.without .inspectDepthAnalysis) := by
    intro pe
    have test : inspectHeads (pe.observing gl counter (observers.without .inspectDepthAnalysis)) =
        if ((List.finRange 4).any fun i => !(pe.depthBuffer0 i).isEmpty) &&
          pe.frontierBuffer.length < Gl.frontierBufferDepth then
            (List.finRange 4).foldl inspectDepth
              (pe.observing gl counter (observers.without .inspectDepthAnalysis))
          else pe.observing gl counter (observers.without .inspectDepthAnalysis) := rfl
    rw [test, inspectHeads, inspectDepths_observing rfl]
    split <;> rfl
  show some (checkDone gl (inspectHeads (pe.observing gl counter observers)), 1) =
    some (observing gl counter _ (checkDone gl (inspectHeads (pe.restartedIdx gl))), 1)
  rw [same, heads, checkDone_observing rfl]

theorem answer_observing (i : Port) : answer i (pe.observing gl counter observers) =
    (pe.answer i).map (observing gl counter observers) := by
  have sent : (pe.observing gl counter observers).sent = pe.sent := rfl
  rw [answer, answer, sent]
  cases pe.sent i with
  | nil => rfl
  | cons burstIdx rest =>
      show Option.bind pe.bursts[burstIdx]? _ = Option.map _ (Option.bind pe.bursts[burstIdx]? _)
      cases pe.bursts[burstIdx]? with
      | none => rfl
      | some op =>
          dsimp only [Option.bind_some]
          split
          · show Option.bind (op.reqToRam pe.ramData) _ =
              Option.map _ (Option.bind (op.reqToRam pe.ramData) _)
            cases op.reqToRam pe.ramData <;> rfl
          · show Option.bind (op.ramToReq pe.ramData) _ =
              Option.map _ (Option.bind (op.ramToReq pe.ramData) _)
            cases op.ramToReq pe.ramData <;> rfl

theorem processResp_observing {thread : PeThread} {i : Port} (takes : thread.takes = some i)
    (responds : thread ≠ .processExpandDepthWriteResp) :
    resume gl thread (pe.observing gl counter observers) =
      (resume gl thread pe).map (Prod.map (observing gl counter observers) id) := by
  cases thread with
  | processInspectDepthReadResp prIdx =>
      refine respThread_observing (fun op pe => ?_) _ _
      show Option.bind (toBytes op) _ = Option.map _ (Option.bind (toBytes op) _)
      cases toBytes op <;> rfl
  | processExpandDepthReadResp =>
      refine respThread_observing (fun op pe => ?_) _ _
      show Option.bind (toBytes op) _ = Option.map _ (Option.bind (toBytes op) _)
      cases toBytes op <;> rfl
  | processExpandRpaoReadResp | processExpandCiaoReadResp =>
      refine respThread_observing (fun op pe => ?_) _ _
      show Option.bind (toWords op) _ = Option.map _ (Option.bind (toWords op) _)
      cases toWords op <;> rfl
  | processExpandDepthWriteResp => exact absurd rfl responds
  | _ => cases takes

theorem expandDepthAnalysis_observing :
    expandDepthAnalysis gl (pe.observing gl counter observers) =
      (pe.expandDepthAnalysis gl).map (Prod.map (observing gl counter observers) id) := by
  rw [expandDepthAnalysis, expandDepthAnalysis,
    show (pe.observing gl counter observers).creating = pe.creating from rfl]
  cases pe.creating 7 with
  | none => exact map_finish (expandLoop_observing pe.depthBuffer1 pe)
  | some burstIdx =>
      show Option.bind (fillBurst burstIdx _) _ =
        Option.map _ (Option.bind (pe.fillBurst burstIdx) _)
      rw [fillBurst_observing]
      cases pe.fillBurst burstIdx with
      | none => rfl
      | some filled =>
          let pushed : Pe := filled.pushBurst 7 burstIdx
          exact map_finish (expandLoop_observing pushed.depthBuffer1 pushed)

/-- A thread that has still to see the start is not at work. -/
structure Observers.Ready (gl : Gl) (pe : Pe) (observers : Observers) (thread : PeThread) :
    Prop where
  parts : ∀ i, thread = .issueInspectDepthReadReq i →
    observers.parts i = pe.bfsIterationStart ∧ (pe.bfsIterationStart = true →
      pe.creating i.port = none ∧ gl.maxLen i ≤ (pe.inspectReq i).currentLen)
  analysis : thread = .inspectDepthAnalysis → observers.analysis = pe.bfsIterationStart

theorem resume_observing {thread : PeThread} (timed : thread ≠ .bfsController)
    (ready : observers.Ready gl pe thread) :
    resume gl thread (pe.observing gl counter observers) =
      (resume gl thread pe).map
        (Prod.map (observing gl counter (observers.without thread)) id) := by
  have creating : (pe.observing gl counter observers).creating = pe.creating := rfl
  cases thread with
  | sendMemReq | getMemResp | processExpandDepthWriteResp => rfl
  | issueInspectDepthReadReq i =>
      obtain ⟨observed, starts⟩ := ready.parts i rfl
      exact inspectDepthReqThread_observing observed starts
  | inspectDepthAnalysis => exact inspectDepthAnalysis_observing (ready.analysis rfl)
  | processInspectDepthReadResp _ | processExpandRpaoReadResp | processExpandCiaoReadResp
    | processExpandDepthReadResp => exact processResp_observing rfl (by simp)
  | frontierAnalysis =>
      show frontierAnalysis gl _ = _
      rw [frontierAnalysis, creating]
      show _ = Option.map _ (frontierAnalysis gl pe)
      rw [frontierAnalysis]
      cases pe.creating 4 with
      | none => exact map_finish frontierLoop_observing
      | some burstIdx => exact map_finish (@frontierLoop_observing gl _ _ (pe.pushBurst 4 burstIdx))
  | issueExpandCiaoReadReq =>
      show issueExpandCiaoReadReq gl _ = Option.map _ (issueExpandCiaoReadReq gl pe)
      rw [issueExpandCiaoReadReq, issueExpandCiaoReadReq, creating]
      cases pe.creating 5 with
      | none => exact map_finish ciaoLoop_observing
      | some burstIdx => exact map_finish (@ciaoLoop_observing gl _ _ { pe.pushBurst 5 burstIdx with
          ciaoReq := { pe.ciaoReq with
            ciaoMemAddr := pe.ciaoReq.ciaoMemAddr + pe.ciaoReq.actualLen
            len := pe.ciaoReq.len + pe.ciaoReq.actualLen
            actualLen := 0 }
          toBurstQueues := (pe.pushBurst 5 burstIdx).toBurstQueues })
  | issueExpandDepthReadReq =>
      show issueExpandDepthReadReq gl _ = Option.map _ (issueExpandDepthReadReq gl pe)
      rw [issueExpandDepthReadReq, issueExpandDepthReadReq, creating]
      cases pe.creating 6 with
      | none => exact map_finish depthLoop_observing
      | some burstIdx => exact map_finish (@depthLoop_observing gl _ _ (pe.pushBurst 6 burstIdx))
  | expandDepthAnalysis => exact expandDepthAnalysis_observing
  | bfsController => exact absurd rfl timed

/-! ### Between two levels -/

theorem Drained.idle {thread : PeThread} (drained : pe.Drained gl)
    (running : pe.bfsIterationStart = false)
    (checked : (pe.allAnalyzed gl && pe.validFlag2) = false) (timed : thread ≠ .bfsController) :
    pe.Idle gl thread := by
  cases thread with
  | sendMemReq =>
      rw [Idle, resume, sendMemReq_idle drained.burstReqQueue]
  | getMemResp =>
      rw [Idle, resume, getMemResp_idle drained.answered]
  | issueInspectDepthReadReq i =>
      rw [Idle, resume, inspectDepthReqThread_free (drained.creating _) running, inspectDepthReqLoop,
        if_neg (Nat.not_lt.mpr (drained.inspectReq i))]
      rfl
  | inspectDepthAnalysis =>
      have heads : pe.inspectHeads = pe := by simp [inspectHeads, drained.depthBuffer0]
      have restarted : pe.restartedIdx gl = pe := by simp [restartedIdx, running]
      show some ((inspectHeads (pe.restartedIdx gl)).checkDone gl, 1) = _
      rw [restarted, heads, checkDone, checked]
      rfl
  | processInspectDepthReadResp _ | processExpandRpaoReadResp | processExpandCiaoReadResp
    | processExpandDepthReadResp =>
      exact respThread_idle (drained.burstRespQueue _) (drained.transfer _)
  | frontierAnalysis =>
      rw [Idle, resume, frontierAnalysis, drained.creating, frontierLoop, drained.frontierBuffer]
      rfl
  | issueExpandCiaoReadReq =>
      rw [Idle, resume, issueExpandCiaoReadReq, drained.creating, ciaoLoop,
        if_neg (Nat.not_lt.mpr drained.ciaoReq.1), drained.rpaoBuffer]
      rfl
  | issueExpandDepthReadReq =>
      rw [Idle, resume, issueExpandDepthReadReq, drained.creating, depthLoop, drained.ciaoBuffer]
      rfl
  | expandDepthAnalysis =>
      rw [Idle, resume, expandDepthAnalysis, drained.creating, drained.depthBuffer1]
      rfl
  | processExpandDepthWriteResp =>
      exact processExpandDepthWriteResp_idle (drained.burstRespQueue 7)
  | bfsController => exact absurd rfl timed

end Pe

end GraphAccelerator
