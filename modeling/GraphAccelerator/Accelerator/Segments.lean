import GraphAccelerator.Accelerator.Pipeline

/-!
# What a thread does between two waits

One inversion lemma for every thread: the changes it makes to the state, with the
conditions under which it makes them.  A thread that creates a burst first finishes the
creation it waits in, if any, and then runs its loop up to the next `wait`; a response
thread first stores the burst in transfer, if any, and then looks at its queue.
-/

namespace GraphAccelerator

open Memory Pipeline

namespace Pe

variable {gl : Gl} {pe after : Pe} {delay : Nat}

/-! ### The parts that the threads share -/

def created (i : Port) (op : BurstOp) (pe : Pe) : Pe :=
  { pe with
    burstIdx := pe.burstIdx + 1
    bursts := pe.bursts ++ [op]
    creating := Function.update pe.creating i (some pe.bursts.length)
    counted := by simp [pe.counted] }

theorem createBurst_cases {type : RequestType} {i : Port} {addr : Int} {length : Nat}
    (ran : createBurst type i addr length pe = some after) :
    ∃ op, Asks op type addr length ∧ op.portIdx = i ∧ op.burstIdx = pe.bursts.length ∧
      after = pe.created i op := by
  simp only [createBurst, Option.bind_eq_bind, Option.bind_eq_some_iff] at ran
  obtain ⟨start, natural, ran⟩ := ran
  obtain rfl := Option.some.inj ran
  refine ⟨{ type, portIdx := i, burstIdx := pe.getBurstIdx, peIdx := 0, addr := start, length },
    ⟨rfl, (Int.mem_toNat?.mp natural).symm, rfl, rfl⟩, rfl, pe.getBurstIdx_eq, ?_⟩
  simp only [created, pe.getBurstIdx_eq]

/-- The state in which the loop of a thread on port `i` starts. -/
inductive Settled (i : Port) (pe : Pe) : Pe → Prop
  | idle : pe.creating i = none → Settled i pe pe
  | pushed {burstIdx : Nat} : pe.creating i = some burstIdx →
      Settled i pe (pe.pushBurst i burstIdx)

theorem Settled.free {i : Port} {mid : Pe} (settled : Settled i pe mid) :
    mid.creating i = none := by
  cases settled with
  | idle free => exact free
  | pushed creating => exact Function.update_self ..

def popped (i : Port) (burstIdx : Nat) (pe : Pe) : Pe :=
  { pe with
    burstOpStatus := pe.burstOpStatus.erase burstIdx
    burstRespQueue := Function.update pe.burstRespQueue i (pe.burstRespQueue i).tail
    transfer := Function.update pe.transfer i none
    counted := pe.burstIdx_eq }

inductive Awaits (i : Port) (size : Nat) (pe : Pe) : Pe → Nat → Prop
  | nothing : pe.burstRespQueue i = [] →
      Awaits i size pe { pe with transfer := Function.update pe.transfer i none } 1
  | response {burstIdx : Nat} {rest : List Nat} {op : BurstOp} :
      pe.burstRespQueue i = burstIdx :: rest → pe.bursts[burstIdx]? = some op →
      Awaits i size pe { pe with transfer := Function.update pe.transfer i (some burstIdx) }
        (op.length / size)

theorem awaitResp_cases {i : Port} {size : Nat}
    (ran : awaitResp i size pe = some (after, delay)) : Awaits i size pe after delay := by
  simp only [awaitResp] at ran
  split at ran
  · rename_i empty
    cases ran
    exact .nothing empty
  · rename_i burstIdx rest queue
    simp only [Option.bind_eq_bind, Option.bind_eq_some_iff] at ran
    obtain ⟨op, present, ran⟩ := ran
    cases ran
    exact .response queue present

inductive Responds (i : Port) (size : Nat) (store : BurstOp → Pe → Option Pe) (pe : Pe) :
    Pe → Nat → Prop
  | polled {after : Pe} {delay : Nat} : pe.transfer i = none → Awaits i size pe after delay →
      Responds i size store pe after delay
  | stored {burstIdx : Nat} {op : BurstOp} {stored after : Pe} {delay : Nat} :
      pe.transfer i = some burstIdx → pe.bursts[burstIdx]? = some op →
      store op (pe.popped i burstIdx) = some stored → Awaits i size stored after delay →
      Responds i size store pe after delay

theorem respThread_cases {i : Port} {size : Nat} {store : BurstOp → Pe → Option Pe}
    (ran : respThread i size store pe = some (after, delay)) :
    Responds i size store pe after delay := by
  simp only [respThread] at ran
  split at ran
  · rename_i idle
    exact .polled idle (awaitResp_cases ran)
  · rename_i burstIdx transfer
    simp only [Option.bind_eq_bind, Option.bind_eq_some_iff] at ran
    obtain ⟨op, present, stored, copied, ran⟩ := ran
    exact .stored transfer present copied (awaitResp_cases ran)

/-! ### Inspection -/

section Inspection

variable {i : Part}

theorem storeInspect_cases {op : BurstOp} (ran : storeInspect i op pe = some after) :
    ∃ bytes, toBytes op = some bytes ∧ after = { pe with
      depthBuffer0 := Function.update pe.depthBuffer0 i (pe.depthBuffer0 i ++ bytes) } := by
  simp only [storeInspect, Option.bind_eq_bind, Option.bind_eq_some_iff] at ran
  obtain ⟨bytes, converted, ran⟩ := ran
  exact ⟨bytes, converted, (Option.some.inj ran).symm⟩

def inspected (i : Part) (d : Byte) (rest : List Byte) (pe : Pe) : Pe :=
  { pe with
    depthBuffer0 := Function.update pe.depthBuffer0 i rest
    frontierBuffer := pe.frontierBuffer ++ if d = pe.level then [(pe.idx i : Int)] else []
    frontierSize := pe.frontierSize + if d = pe.level then 1 else 0
    idx := Function.update pe.idx i (pe.idx i + 1) }

theorem inspectDepth_nil (empty : pe.depthBuffer0 i = []) : pe.inspectDepth i = pe := by
  simp [inspectDepth, empty]

theorem inspectDepth_cons {d : Byte} {rest : List Byte} (buffer : pe.depthBuffer0 i = d :: rest) :
    pe.inspectDepth i = pe.inspected i d rest := by
  simp only [inspectDepth, buffer, inspected]
  split <;> simp

def hit (pe : Pe) (i : Part) : List Int :=
  match pe.depthBuffer0 i with
  | [] => []
  | d :: _ => if d = pe.level then [(pe.idx i : Int)] else []

def analysed (pe : Pe) : Pe :=
  { pe with
    depthBuffer0 := fun i => (pe.depthBuffer0 i).tail
    frontierBuffer := pe.frontierBuffer ++ (List.finRange 4).flatMap pe.hit
    frontierSize := pe.frontierSize + ((List.finRange 4).flatMap pe.hit).length
    idx := fun i => pe.idx i + ((pe.depthBuffer0 i).take 1).length }

/-- The partitions do not disturb each other; the induction is on the partitions that
are still to be served. -/
theorem foldl_inspectDepth {parts : List Part} (nodup : parts.Nodup) (pe : Pe) :
    parts.foldl inspectDepth pe = { pe with
      depthBuffer0 := fun j => if j ∈ parts then (pe.depthBuffer0 j).tail else pe.depthBuffer0 j
      frontierBuffer := pe.frontierBuffer ++ parts.flatMap pe.hit
      frontierSize := pe.frontierSize + (parts.flatMap pe.hit).length
      idx := fun j => pe.idx j +
        if j ∈ parts then ((pe.depthBuffer0 j).take 1).length else 0 } := by
  induction parts generalizing pe with
  | nil => simp
  | cons i parts inductionHypothesis =>
      obtain ⟨fresh, nodup⟩ := List.nodup_cons.mp nodup
      rw [List.foldl_cons, inductionHypothesis nodup]
      cases buffer : pe.depthBuffer0 i with
      | nil =>
          rw [inspectDepth_nil buffer]
          have head : pe.hit i = [] := by rw [hit, buffer]
          congr 1
          · rw [List.flatMap_cons, head, List.nil_append]
          · funext j
            by_cases here : j = i <;> simp [here, buffer]
          · rw [List.flatMap_cons, head, List.nil_append]
          · funext j
            by_cases here : j = i <;> simp [here, buffer]
      | cons d rest =>
          rw [inspectDepth_cons buffer]
          have head : pe.hit i = if d = pe.level then [(pe.idx i : Int)] else [] := by
            rw [hit, buffer]
          have others : parts.flatMap (pe.inspected i d rest).hit = parts.flatMap pe.hit := by
            refine List.flatMap_congr fun j later => ?_
            have elsewhere : j ≠ i := by
              rintro rfl
              exact fresh later
            simp only [hit, inspected, Function.update_of_ne elsewhere]
          rw [others, List.flatMap_cons, head]
          simp only [inspected]
          congr 1
          · rw [List.length_append, ← Nat.add_assoc]
            split <;> rfl
          · funext j
            by_cases here : j = i
            · subst here
              simp [fresh, buffer]
            · simp [here]
          · rw [List.append_assoc]
          · funext j
            by_cases here : j = i
            · subst here
              simp [fresh, buffer]
            · simp [here]

theorem inspectDepth_all (pe : Pe) : (List.finRange 4).foldl inspectDepth pe = pe.analysed := by
  rw [foldl_inspectDepth (List.nodup_finRange 4)]
  simp [analysed]

theorem analysed_of_empty (empty : ∀ i, pe.depthBuffer0 i = []) : pe.analysed = pe := by
  have buffers : (fun i => (pe.depthBuffer0 i).tail) = pe.depthBuffer0 :=
    funext fun i => by rw [empty, List.tail_nil]
  have counters : (fun i => pe.idx i + ((pe.depthBuffer0 i).take 1).length) = pe.idx :=
    funext fun i => by rw [empty, List.take_nil, List.length_nil, Nat.add_zero]
  have hits : (List.finRange 4).flatMap pe.hit = [] :=
    List.flatMap_eq_nil_iff.mpr fun i _ => by rw [hit, empty]
  rw [analysed, buffers, counters, hits, List.append_nil, List.length_nil, Nat.add_zero]

def inspectLen (gl : Gl) (i : Part) (pe : Pe) : Nat :=
  min Gl.baseLen (gl.maxLen i - (pe.inspectReq i).currentLen)

inductive InspectSettled (gl : Gl) (i : Part) (pe : Pe) : Pe → Prop
  | idle : pe.creating i.port = none →
      ¬ ((pe.inspectReq i).currentLen ≥ gl.maxLen i ∧ pe.bfsIterationStart = true) →
      InspectSettled gl i pe pe
  | restarted : pe.creating i.port = none → gl.maxLen i ≤ (pe.inspectReq i).currentLen →
      pe.bfsIterationStart = true →
      InspectSettled gl i pe { pe with
        inspectReq := Function.update pe.inspectReq i { pe.inspectReq i with
          depthMemAddr := gl.baseDepthMemAddr i
          currentLen := 0
          actualLen := 0 } }
  | pushed {burstIdx : Nat} : pe.creating i.port = some burstIdx →
      InspectSettled gl i pe { pe.pushBurst i.port burstIdx with
        inspectReq := Function.update pe.inspectReq i { pe.inspectReq i with
          depthMemAddr := (pe.inspectReq i).depthMemAddr + (pe.inspectReq i).actualLen
          currentLen := (pe.inspectReq i).currentLen + (pe.inspectReq i).actualLen
          actualLen := 0 } }

theorem InspectSettled.free {mid : Pe} (settled : InspectSettled gl i pe mid) :
    mid.creating i.port = none := by
  cases settled with
  | idle free _ => exact free
  | restarted free _ _ => exact free
  | pushed creating => exact Function.update_self ..

/-- The loop of an inspection: everything is asked for, there is no room for the next
burst, or it is created. -/
inductive InspectLoop (gl : Gl) (i : Part) (pe : Pe) : Pe → Prop
  | finished : gl.maxLen i ≤ (pe.inspectReq i).currentLen → InspectLoop gl i pe pe
  | full : (pe.inspectReq i).currentLen < gl.maxLen i →
      Gl.depthBufferDepth < (pe.depthBuffer0 i).length + pe.inspectLen gl i →
      InspectLoop gl i pe pe
  | asked {op : BurstOp} : (pe.inspectReq i).currentLen < gl.maxLen i →
      (pe.depthBuffer0 i).length + pe.inspectLen gl i ≤ Gl.depthBufferDepth →
      Asks op .read (pe.inspectReq i).depthMemAddr (pe.inspectLen gl i) → op.portIdx = i.port →
      op.burstIdx = pe.bursts.length →
      InspectLoop gl i pe (created i.port op { pe with
        inspectReq := Function.update pe.inspectReq i
          { pe.inspectReq i with actualLen := pe.inspectLen gl i } })

theorem inspectDepthReqLoop_cases (ran : pe.inspectDepthReqLoop gl i = some after) :
    InspectLoop gl i pe after := by
  simp only [inspectDepthReqLoop] at ran
  split at ran
  · rename_i more
    have chunk : (if (pe.inspectReq i).currentLen + Gl.baseLen > gl.maxLen i
        then gl.maxLen i - (pe.inspectReq i).currentLen else Gl.baseLen) =
        pe.inspectLen gl i := by
      rw [inspectLen]
      split <;> omega
    rw [chunk] at ran
    split at ran
    · rename_i room
      obtain rfl := Option.some.inj ran
      exact .full more room
    · rename_i room
      obtain ⟨op, asks, port, burstIdx, rfl⟩ := createBurst_cases ran
      exact .asked more (by omega) asks port burstIdx
  · rename_i finished
    obtain rfl := Option.some.inj ran
    exact .finished (by omega)

theorem inspectDepthReqThread_cases (ran : pe.inspectDepthReqThread gl i = some (after, delay)) :
    delay = 1 ∧ ∃ mid, InspectSettled gl i pe mid ∧ InspectLoop gl i mid after := by
  simp only [inspectDepthReqThread] at ran
  split at ran
  · rename_i burstIdx creating
    simp only [Option.bind_eq_bind, Option.bind_eq_some_iff] at ran
    obtain ⟨looped, ran, same⟩ := ran
    cases same
    exact ⟨rfl, _, .pushed creating, inspectDepthReqLoop_cases ran⟩
  · rename_i free
    simp only [Option.bind_eq_bind, Option.bind_eq_some_iff] at ran
    obtain ⟨looped, ran, same⟩ := ran
    cases same
    split at ran
    · rename_i restarting
      rw [Bool.and_eq_true, decide_eq_true_eq] at restarting
      exact ⟨rfl, _, .restarted free restarting.1 restarting.2, inspectDepthReqLoop_cases ran⟩
    · rename_i running
      rw [Bool.and_eq_true, decide_eq_true_eq] at running
      exact ⟨rfl, _, .idle free running, inspectDepthReqLoop_cases ran⟩

def restartedIdx (gl : Gl) (pe : Pe) : Pe :=
  if pe.bfsIterationStart then { pe with
    idx := resetIdx gl
    validFlag2 := true
    frontierSize := 0 }
  else pe

inductive AnalysisLoop (pe : Pe) : Pe → Prop
  | empty : (∀ i, pe.depthBuffer0 i = []) → AnalysisLoop pe pe
  | full : Gl.frontierBufferDepth ≤ pe.frontierBuffer.length → AnalysisLoop pe pe
  | analysed : pe.frontierBuffer.length < Gl.frontierBufferDepth →
      AnalysisLoop pe ((List.finRange 4).foldl inspectDepth pe)

theorem inspectDepthAnalysis_cases
    (ran : pe.inspectDepthAnalysis gl = some (after, delay)) :
    delay = 1 ∧ ∃ mid, AnalysisLoop (pe.restartedIdx gl) mid ∧ after = mid.checkDone gl := by
  simp only [inspectDepthAnalysis, Option.some.injEq, Prod.mk.injEq] at ran
  obtain ⟨rfl, rfl⟩ := ran
  refine ⟨rfl, _, ?_, rfl⟩
  rw [← restartedIdx]
  split
  · rename_i analysing
    rw [Bool.and_eq_true, decide_eq_true_eq] at analysing
    exact .analysed analysing.2
  · rename_i waiting
    rw [Bool.and_eq_true, decide_eq_true_eq, not_and_or] at waiting
    rcases waiting with empty | full
    · refine .empty fun i => ?_
      rw [List.any_eq_true, not_exists] at empty
      simpa using empty i
    · exact .full (by omega)

theorem inspectDepthAnalysis_appends
    (ran : pe.inspectDepthAnalysis gl = some (after, delay)) :
    ∃ more, after.frontierBuffer = pe.frontierBuffer ++ more := by
  have folded : ∀ (parts : List Part) (pe : Pe), ∃ more,
      (parts.foldl inspectDepth pe).frontierBuffer = pe.frontierBuffer ++ more := by
    intro parts
    induction parts with
    | nil => exact fun pe => ⟨[], (List.append_nil _).symm⟩
    | cons i parts inductionHypothesis =>
        intro pe
        obtain ⟨more, buffer⟩ := inductionHypothesis (pe.inspectDepth i)
        rw [List.foldl_cons, buffer]
        cases depths : pe.depthBuffer0 i with
        | nil => exact ⟨more, by rw [inspectDepth_nil depths]⟩
        | cons d rest =>
            rw [inspectDepth_cons depths]
            exact ⟨_, List.append_assoc ..⟩
  obtain ⟨_, mid, looped, rfl⟩ := inspectDepthAnalysis_cases ran
  have checked : (mid.checkDone gl).frontierBuffer = mid.frontierBuffer := by
    rw [checkDone]
    split <;> rfl
  have restarted : (pe.restartedIdx gl).frontierBuffer = pe.frontierBuffer := by
    rw [restartedIdx]
    split <;> rfl
  rw [checked, ← restarted]
  cases looped with
  | empty _ => exact ⟨[], (List.append_nil _).symm⟩
  | full _ => exact ⟨[], (List.append_nil _).symm⟩
  | analysed _ => exact folded _ _

theorem inspectDepthAnalysis_queues
    (ran : pe.inspectDepthAnalysis gl = some (after, delay)) :
    after.toBurstQueues = pe.toBurstQueues := by
  have folded : ∀ (parts : List Part) (pe : Pe),
      (parts.foldl inspectDepth pe).toBurstQueues = pe.toBurstQueues := by
    intro parts
    induction parts with
    | nil => exact fun pe => rfl
    | cons i parts inductionHypothesis =>
        intro pe
        rw [List.foldl_cons, inductionHypothesis]
        cases buffer : pe.depthBuffer0 i with
        | nil => rw [inspectDepth_nil buffer]
        | cons d rest => rw [inspectDepth_cons buffer]; rfl
  obtain ⟨_, mid, looped, rfl⟩ := inspectDepthAnalysis_cases ran
  have checked : (mid.checkDone gl).toBurstQueues = mid.toBurstQueues := by
    rw [checkDone]
    split <;> rfl
  have restarted : (pe.restartedIdx gl).toBurstQueues = pe.toBurstQueues := by
    rw [restartedIdx]
    split <;> rfl
  rw [checked, ← restarted]
  cases looped with
  | empty _ => rfl
  | full _ => rfl
  | analysed _ => exact folded _ _

end Inspection

/-! ### Expansion -/

theorem toBytes_length {op : BurstOp} {bytes : List Byte} (converted : toBytes op = some bytes) :
    bytes.length = op.length := by
  have entries := (CheckedLoop.mapM_forall₂ converted).length_eq
  rw [← entries, List.length_range]

theorem toInts_length : ∀ bytes : List Byte, (toInts bytes).length = bytes.length / 4
  | [] | [_] | [_, _] | [_, _, _] => by simp [toInts]
  | _ :: _ :: _ :: _ :: rest => by
      simp only [toInts, List.length_cons, toInts_length rest]
      omega

theorem toWords_length {op : BurstOp} {words : List Int} (converted : toWords op = some words) :
    op.length = 4 * words.length := by
  simp only [toWords] at converted
  split at converted
  · cases converted
  · rw [Option.map_eq_some_iff] at converted
    obtain ⟨bytes, converted, rfl⟩ := converted
    rw [toInts_length, toBytes_length converted]
    omega

theorem storeRpao_cases {op : BurstOp} (ran : storeRpao op pe = some after) :
    ∃ words, toWords op = some words ∧ after = { pe with
      rpaoBuffer := pe.rpaoBuffer ++ words } := by
  simp only [storeRpao, Option.bind_eq_bind, Option.bind_eq_some_iff] at ran
  obtain ⟨words, converted, ran⟩ := ran
  exact ⟨words, converted, (Option.some.inj ran).symm⟩

theorem storeCiao_cases {op : BurstOp} (ran : storeCiao op pe = some after) :
    ∃ words, toWords op = some words ∧ after = { pe with
      ciaoBuffer := pe.ciaoBuffer ++ words } := by
  simp only [storeCiao, Option.bind_eq_bind, Option.bind_eq_some_iff] at ran
  obtain ⟨words, converted, ran⟩ := ran
  exact ⟨words, converted, (Option.some.inj ran).symm⟩

theorem storeDepth_cases {op : BurstOp} (ran : storeDepth op pe = some after) :
    ∃ bytes, toBytes op = some bytes ∧ after = { pe with
      depthBuffer1 := pe.depthBuffer1 ++ bytes } := by
  simp only [storeDepth, Option.bind_eq_bind, Option.bind_eq_some_iff] at ran
  obtain ⟨bytes, converted, ran⟩ := ran
  exact ⟨bytes, converted, (Option.some.inj ran).symm⟩

inductive FrontierLoop (gl : Gl) (pe : Pe) : Pe → Prop
  | empty : pe.frontierBuffer = [] → FrontierLoop gl pe pe
  | full {vidx : Int} {rest : List Int} : pe.frontierBuffer = vidx :: rest →
      Gl.rpaoBufferDepth ≤ pe.rpaoBuffer.length + 2 → FrontierLoop gl pe pe
  | asked {vidx : Int} {rest : List Int} {op : BurstOp} : pe.frontierBuffer = vidx :: rest →
      pe.rpaoBuffer.length + 2 < Gl.rpaoBufferDepth →
      Asks op .read (gl.rpaoMemAddr + vidx * 4) 8 → op.portIdx = 4 →
      op.burstIdx = pe.bursts.length →
      FrontierLoop gl pe (created 4 op { pe with frontierBuffer := rest })

theorem frontierAnalysis_cases (ran : pe.frontierAnalysis gl = some (after, delay)) :
    delay = 1 ∧ ∃ mid, Settled 4 pe mid ∧ FrontierLoop gl mid after := by
  have looped : ∀ {mid after : Pe}, mid.frontierLoop gl = some after →
      FrontierLoop gl mid after := by
    intro mid after ran
    simp only [frontierLoop] at ran
    split at ran
    · rename_i vidx rest buffer
      split at ran
      · rename_i room
        obtain ⟨op, asks, port, burstIdx, rfl⟩ := createBurst_cases ran
        exact .asked buffer room asks port burstIdx
      · rename_i full
        obtain rfl := Option.some.inj ran
        exact .full buffer (by omega)
    · rename_i empty
      obtain rfl := Option.some.inj ran
      exact .empty empty
  simp only [frontierAnalysis] at ran
  split at ran <;> simp only [Option.bind_eq_bind, Option.bind_eq_some_iff] at ran <;>
    obtain ⟨final, ran, same⟩ := ran <;> cases same
  · rename_i burstIdx creating
    exact ⟨rfl, _, .pushed creating, looped ran⟩
  · rename_i free
    exact ⟨rfl, _, .idle free, looped ran⟩

def ciaoLen (pe : Pe) : Nat := min Gl.baseLen (pe.ciaoReq.maxLen - pe.ciaoReq.len)

def takenRow (gl : Gl) (srcIdx dstIdx : Int) (rest : List Int) (pe : Pe) : Pe :=
  { pe with
    rpaoBuffer := rest
    ciaoReq := {
      ciaoMemAddr := gl.ciaoMemAddr + srcIdx * 4
      maxLen := (4 * (dstIdx - srcIdx)).toNat } }

/-- The loops of `issueExpandCiaoReadReq`: the current row is not asked for completely,
or rows are taken until one has a neighbour. -/
inductive CiaoLoop (gl : Gl) : Pe → Pe → Prop
  | empty {pe : Pe} : pe.ciaoReq.maxLen ≤ pe.ciaoReq.len → pe.rpaoBuffer.length < 2 →
      CiaoLoop gl pe pe
  | row {pe after : Pe} {srcIdx dstIdx : Int} {rest : List Int} :
      pe.ciaoReq.maxLen ≤ pe.ciaoReq.len → pe.rpaoBuffer = srcIdx :: dstIdx :: rest →
      CiaoLoop gl (pe.takenRow gl srcIdx dstIdx rest) after → CiaoLoop gl pe after
  | full {pe : Pe} : pe.ciaoReq.len < pe.ciaoReq.maxLen →
      Gl.ciaoBufferDepth ≤ pe.ciaoBuffer.length + pe.ciaoLen / 4 → CiaoLoop gl pe pe
  | asked {pe : Pe} {op : BurstOp} : pe.ciaoReq.len < pe.ciaoReq.maxLen →
      pe.ciaoBuffer.length + pe.ciaoLen / 4 < Gl.ciaoBufferDepth →
      Asks op .read pe.ciaoReq.ciaoMemAddr pe.ciaoLen → op.portIdx = 5 →
      op.burstIdx = pe.bursts.length →
      CiaoLoop gl pe (created 5 op { pe with
        ciaoReq := { pe.ciaoReq with actualLen := pe.ciaoLen } })

theorem ciaoChunk_cases (more : pe.ciaoReq.len < pe.ciaoReq.maxLen)
    (ran : pe.ciaoChunk = some after) : CiaoLoop gl pe after := by
  simp only [ciaoChunk] at ran
  have chunk : (if pe.ciaoReq.len + Gl.baseLen > pe.ciaoReq.maxLen
      then pe.ciaoReq.maxLen - pe.ciaoReq.len else Gl.baseLen) = pe.ciaoLen := by
    rw [ciaoLen]
    split <;> omega
  rw [chunk] at ran
  split at ran
  · rename_i room
    obtain ⟨op, asks, port, burstIdx, rfl⟩ := createBurst_cases ran
    exact .asked more room asks port burstIdx
  · rename_i full
    obtain rfl := Option.some.inj ran
    exact .full more (by omega)

/-- The induction is on the pairs of row pointers that are left. -/
theorem ciaoRows_cases (rows : List Int) : ∀ pe : Pe, pe.ciaoReq.maxLen ≤ pe.ciaoReq.len →
    pe.rpaoBuffer = rows → ciaoRows gl pe rows = some after → CiaoLoop gl pe after := by
  match rows with
  | srcIdx :: dstIdx :: rest =>
      intro pe finished buffer ran
      simp only [ciaoRows] at ran
      refine .row finished buffer ?_
      split at ran
      · rename_i more
        exact ciaoChunk_cases more ran
      · rename_i none
        exact ciaoRows_cases rest _ (by simp only [takenRow]; omega) rfl ran
  | [] =>
      intro pe finished buffer ran
      obtain rfl := Option.some.inj ran
      exact .empty finished (by simp [buffer])
  | [_] =>
      intro pe finished buffer ran
      obtain rfl := Option.some.inj ran
      exact .empty finished (by simp [buffer])

inductive CiaoSettled (pe : Pe) : Pe → Prop
  | idle : pe.creating 5 = none → CiaoSettled pe pe
  | pushed {burstIdx : Nat} : pe.creating 5 = some burstIdx →
      CiaoSettled pe { pe.pushBurst 5 burstIdx with
        ciaoReq := { pe.ciaoReq with
          ciaoMemAddr := pe.ciaoReq.ciaoMemAddr + pe.ciaoReq.actualLen
          len := pe.ciaoReq.len + pe.ciaoReq.actualLen
          actualLen := 0 } }

theorem CiaoSettled.free {mid : Pe} (settled : CiaoSettled pe mid) : mid.creating 5 = none := by
  cases settled with
  | idle free => exact free
  | pushed creating => exact Function.update_self (5 : Port) none pe.creating

theorem issueExpandCiaoReadReq_cases (ran : pe.issueExpandCiaoReadReq gl = some (after, delay)) :
    delay = 1 ∧ ∃ mid, CiaoSettled pe mid ∧ CiaoLoop gl mid after := by
  have looped : ∀ {mid after : Pe}, mid.ciaoLoop gl = some after → CiaoLoop gl mid after := by
    intro mid after ran
    rw [ciaoLoop] at ran
    split at ran
    · rename_i more
      exact ciaoChunk_cases more ran
    · exact ciaoRows_cases _ mid (by omega) rfl ran
  simp only [issueExpandCiaoReadReq] at ran
  split at ran <;> simp only [Option.bind_eq_bind, Option.bind_eq_some_iff] at ran <;>
    obtain ⟨final, ran, same⟩ := ran <;> cases same
  · rename_i burstIdx creating
    exact ⟨rfl, _, .pushed creating, looped ran⟩
  · rename_i free
    exact ⟨rfl, _, .idle free, looped ran⟩

inductive DepthLoop (gl : Gl) (pe : Pe) : Pe → Prop
  | empty : pe.ciaoBuffer = [] → DepthLoop gl pe pe
  | full : Gl.depthBufferDepth ≤ pe.ciaoBuffer.length → DepthLoop gl pe pe
  | asked {vidx : Int} {rest : List Int} {op : BurstOp} : pe.ciaoBuffer = vidx :: rest →
      pe.ciaoBuffer.length < Gl.depthBufferDepth →
      Asks op .read (gl.depthMemAddr + vidx) 1 → op.portIdx = 6 →
      op.burstIdx = pe.bursts.length →
      DepthLoop gl pe (created 6 op { pe with
        vidxBuffer := pe.vidxBuffer ++ [vidx]
        ciaoBuffer := rest })

theorem issueExpandDepthReadReq_cases
    (ran : pe.issueExpandDepthReadReq gl = some (after, delay)) :
    delay = 1 ∧ ∃ mid, Settled 6 pe mid ∧ DepthLoop gl mid after := by
  have looped : ∀ {mid after : Pe}, mid.depthLoop gl = some after → DepthLoop gl mid after := by
    intro mid after ran
    simp only [depthLoop] at ran
    split at ran
    · rename_i vidx rest buffer
      split at ran
      · rename_i room
        obtain ⟨op, asks, port, burstIdx, rfl⟩ := createBurst_cases ran
        exact .asked buffer room asks port burstIdx
      · rename_i full
        obtain rfl := Option.some.inj ran
        exact .full (by omega)
    · rename_i empty
      obtain rfl := Option.some.inj ran
      exact .empty empty
  simp only [issueExpandDepthReadReq] at ran
  split at ran <;> simp only [Option.bind_eq_bind, Option.bind_eq_some_iff] at ran <;>
    obtain ⟨final, ran, same⟩ := ran <;> cases same
  · rename_i burstIdx creating
    exact ⟨rfl, _, .pushed creating, looped ran⟩
  · rename_i free
    exact ⟨rfl, _, .idle free, looped ran⟩

/-- The loop of `expandDepthAnalysis`: visited vertices are dropped until an unvisited
one is written. -/
inductive ExpandLoop (gl : Gl) : Pe → Pe → Prop
  | empty {pe : Pe} : pe.depthBuffer1 = [] → ExpandLoop gl pe pe
  | full {pe : Pe} : Gl.depthBufferDepth < pe.depthBuffer2.length → ExpandLoop gl pe pe
  | visited {pe after : Pe} {d : Byte} {rest : List Byte} {vidx : Int} {vidxs : List Int} :
      pe.depthBuffer1 = d :: rest → pe.vidxBuffer = vidx :: vidxs → d ≠ -1 →
      ExpandLoop gl { pe with depthBuffer1 := rest, vidxBuffer := vidxs } after →
      ExpandLoop gl pe after
  | fresh {pe : Pe} {rest : List Byte} {vidx : Int} {vidxs : List Int} {op : BurstOp} :
      pe.depthBuffer1 = -1 :: rest → pe.vidxBuffer = vidx :: vidxs →
      Asks op .write (gl.depthMemAddr + vidx) 1 → op.portIdx = 7 →
      op.burstIdx = pe.bursts.length →
      ExpandLoop gl pe (created 7 op { pe with
        depthBuffer1 := rest
        vidxBuffer := vidxs
        depthBuffer2 := pe.depthBuffer2 ++ [pe.level + 1] })

theorem expandLoop_cases (depths : List Byte) : ∀ pe : Pe, pe.depthBuffer1 = depths →
    expandLoop gl pe depths = some after → ExpandLoop gl pe after := by
  induction depths with
  | nil =>
      intro pe buffer ran
      obtain rfl := Option.some.inj ran
      exact .empty buffer
  | cons d rest inductionHypothesis =>
      intro pe buffer ran
      simp only [expandLoop] at ran
      split at ran
      · split at ran
        · cases ran
        · rename_i vidx vidxs vidxBuffer
          split at ran
          · rename_i unvisited
            subst unvisited
            obtain ⟨op, asks, port, burstIdx, rfl⟩ := createBurst_cases ran
            exact .fresh buffer vidxBuffer asks port burstIdx
          · rename_i visited
            exact .visited buffer vidxBuffer visited (inductionHypothesis _ rfl ran)
      · rename_i full
        obtain rfl := Option.some.inj ran
        exact .full (by omega)

inductive ExpandSettled (pe : Pe) : Pe → Prop
  | idle : pe.creating 7 = none → ExpandSettled pe pe
  | pushed {burstIdx : Nat} {op : BurstOp} {byte : Byte} {rest : List Byte} :
      pe.creating 7 = some burstIdx → pe.bursts[burstIdx]? = some op →
      pe.depthBuffer2 = byte :: rest →
      ExpandSettled pe (pushBurst 7 burstIdx
        { pe.setBurst burstIdx { op with data := op.data ++ [byte] } with depthBuffer2 := rest })

theorem ExpandSettled.free {mid : Pe} (settled : ExpandSettled pe mid) :
    mid.creating 7 = none := by
  cases settled with
  | idle free => exact free
  | pushed creating _ _ => exact Function.update_self (7 : Port) none pe.creating

theorem expandDepthAnalysis_cases (ran : pe.expandDepthAnalysis gl = some (after, delay)) :
    delay = 1 ∧ ∃ mid, ExpandSettled pe mid ∧ ExpandLoop gl mid after := by
  simp only [expandDepthAnalysis] at ran
  split at ran <;> simp only [Option.bind_eq_bind, Option.bind_eq_some_iff] at ran
  · rename_i burstIdx creating
    obtain ⟨filled, fills, looped, ran, same⟩ := ran
    cases same
    simp only [fillBurst, Option.bind_eq_bind, Option.bind_eq_some_iff] at fills
    obtain ⟨op, present, byte, head, fills⟩ := fills
    obtain rfl := Option.some.inj fills
    obtain ⟨rest, buffer⟩ := List.head?_eq_some_iff.mp head
    refine ⟨rfl, _, .pushed creating present buffer, ?_⟩
    simp only [buffer, List.tail_cons] at ran
    exact expandLoop_cases _ _ rfl ran
  · rename_i free
    obtain ⟨looped, ran, same⟩ := ran
    cases same
    exact ⟨rfl, _, .idle free, expandLoop_cases _ _ rfl ran⟩

/-! ### Memory -/

inductive Answers (i : Port) (pe : Pe) : Pe → Prop
  | write {burstIdx : Nat} {rest : List Nat} {op : BurstOp} {ramData : List Byte} :
      pe.sent i = burstIdx :: rest → pe.bursts[burstIdx]? = some op → op.type = .write →
      op.reqToRam pe.ramData = some ramData →
      Answers i pe { pe with
        sent := Function.update pe.sent i rest
        answered := Function.update pe.answered i (pe.answered i ++ [burstIdx])
        ramData }
  | read {burstIdx : Nat} {rest : List Nat} {op copied : BurstOp} :
      pe.sent i = burstIdx :: rest → pe.bursts[burstIdx]? = some op → op.type ≠ .write →
      op.ramToReq pe.ramData = some copied →
      Answers i pe { pe.setBurst burstIdx copied with
        sent := Function.update pe.sent i rest
        answered := Function.update pe.answered i (pe.answered i ++ [burstIdx]) }

theorem answer_cases {i : Port} (ran : pe.answer i = some after) : Answers i pe after := by
  simp only [answer] at ran
  split at ran
  · cases ran
  · rename_i burstIdx rest queue
    simp only [Option.bind_eq_bind, Option.bind_eq_some_iff] at ran
    obtain ⟨op, present, ran⟩ := ran
    split at ran
    · rename_i writing
      simp only [Option.bind_eq_some_iff] at ran
      obtain ⟨ramData, written, ran⟩ := ran
      obtain rfl := Option.some.inj ran
      exact .write queue present writing written
    · rename_i reading
      simp only [Option.bind_eq_some_iff] at ran
      obtain ⟨copied, reads, ran⟩ := ran
      obtain rfl := Option.some.inj ran
      exact .read queue present reading reads

end Pe

end GraphAccelerator
