import GraphAccelerator.Accelerator.Occupancy

/-!
# One inspection in each level

The start signal is up for one cycle of a level, and the end of a level is seen only
when no partition is under inspection any more.  So a partition is never restarted
before all of its depths were analysed, and its counter stays within it.

The clock is what makes this true: a request thread that waits for room, or in
`createReadBurstReq`, has left something behind that is still there at the next edge.
-/

namespace GraphAccelerator

open Memory Kernel Queues LevelPass

namespace Pe

variable {pe : Pe}

/-- What is seen at the end of a level. -/
structure Sampled (pe : Pe) : Prop where
  pushed : ∀ i, pe.pushed i = []
  depthBuffer0 : ∀ i, pe.depthBuffer0 i = []
  frontierBuffer : pe.frontierBuffer = []
  rpaoBuffer : pe.rpaoBuffer = []
  ciaoBuffer : pe.ciaoBuffer = []
  depthBuffer1 : pe.depthBuffer1 = []
  depthBuffer2 : pe.depthBuffer2 = []

theorem sampled_of_endsLevel (indexed : pe.Indexed) (ends : pe.endsLevel = true) : Sampled pe := by
  simp only [endsLevel, isEndOfBfsIteration, Bool.and_eq_true, List.isEmpty_iff, List.all_eq_true,
    List.mem_finRange, true_implies] at ends
  obtain ⟨⟨⟨⟨⟨⟨⟨⟨⟨_, _⟩, status⟩, depths⟩, frontier⟩, rpao⟩, ciao⟩, depth1⟩, depth2⟩, _⟩ := ends
  refine ⟨fun i => List.eq_nil_iff_forall_not_mem.mpr fun burstIdx member => ?_, depths, frontier,
    rpao, ciao, depth1, depth2⟩
  have registered := indexed.status i burstIdx member
  rw [status] at registered
  cases registered

end Pe

namespace Pulse

def ahead (gl : Gl) (i : Part) (pe : Pe) : Nat :=
  (pe.depthBuffer0 i).length + (ReadBuffer.depthBuffer0 i).inFlight pe +
    (Pe.inspectSpan gl pe.inspectReq i).left

structure Idle (gl : Gl) (i : Part) (pe : Pe) : Prop where
  depthBuffer0 : pe.depthBuffer0 i = []
  flight : pe.flight i.port = []
  asked : gl.maxLen i ≤ (pe.inspectReq i).currentLen

/-- A partition whose three threads are due at the given times.  The counter and the
request thread take the start signal when they are due. -/
structure Inspecting (gl : Gl) (i : Part) (now requests responses analyses : Nat) (pe : Pe) :
    Prop where
  pulse : pe.bfsIterationStart = true → pe.localCounter = 10
  count : (if pe.bfsIterationStart = true ∧ analyses = now then Pe.resetIdx gl i else pe.idx i) +
    ahead gl i pe ≤ Pe.resetIdx gl i +
      if pe.bfsIterationStart = true ∧ requests = now then 0 else gl.maxLen i
  within : (Pe.inspectSpan gl pe.inspectReq i).addr + (Pe.inspectSpan gl pe.inspectReq i).left ≤
    gl.vertexNum
  idle : pe.localCounter < 10 ∨ (pe.bfsIterationStart = true ∧ requests = now) → Idle gl i pe
  full : pe.creating i.port = none → (Pe.inspectSpan gl pe.inspectReq i).left ≠ 0 →
    3 * Gl.baseLen + requests ≤ (pe.depthBuffer0 i).length + analyses
  creating : now < requests → pe.creating i.port ≠ none → pe.bfsIterationStart = true ∨
    (∃ burstIdx ∈ pe.pushed i.port,
      ¬ (pe.transfer i.port = some burstIdx ∧ responses = now)) ∨
    now + 2 ≤ (pe.depthBuffer0 i).length + analyses

variable {g : Graph} {gl : Gl} {i : Part} {pe after : Pe} {thread : PeThread} {delay : Nat}
variable {now requests responses analyses : Nat}

theorem pushed_of_flight {j : Port} (flight : after.flight j = pe.flight j)
    (creating : after.creating j = pe.creating j) : after.pushed j = pe.pushed j := by
  rw [BurstQueues.flight, BurstQueues.flight, creating] at flight
  exact List.append_cancel_right flight

theorem inFlight_of_spans (spans : (after.line i.port).spans = (pe.line i.port).spans) :
    (ReadBuffer.depthBuffer0 i).inFlight after = (ReadBuffer.depthBuffer0 i).inFlight pe := by
  rw [ReadBuffer.inFlight, ReadBuffer.port, spans]
  rfl

namespace Idle

theorem creating (idle : Idle gl i pe) : pe.creating i.port = none := by
  have empty := (List.append_eq_nil_iff.mp idle.flight).2
  exact Option.toList_eq_nil_iff.mp empty

theorem pushed (idle : Idle gl i pe) : pe.pushed i.port = [] :=
  (List.append_eq_nil_iff.mp idle.flight).1

theorem left (idle : Idle gl i pe) : (Pe.inspectSpan gl pe.inspectReq i).left = 0 := by
  have := idle.asked
  simp only [Pe.inspectSpan]
  omega

theorem ahead_eq (idle : Idle gl i pe) : ahead gl i pe = 0 := by
  have pushed := idle.pushed
  simp only [BurstQueues.pushed, List.append_eq_nil_iff] at pushed
  have line : (pe.line i.port).spans = [] := by
    simp [Line.spans, Line.ops, BurstQueues.line, pushed, idle.creating]
  rw [ahead, idle.depthBuffer0, idle.left, ReadBuffer.inFlight, ReadBuffer.port, line]
  rfl

end Idle

namespace Inspecting

theorem moved (inspecting : Inspecting gl i now requests responses analyses pe)
    (depthBuffer0 : after.depthBuffer0 i = pe.depthBuffer0 i) (idx : after.idx i = pe.idx i)
    (inspectReq : after.inspectReq i = pe.inspectReq i)
    (spans : (after.line i.port).spans = (pe.line i.port).spans)
    (flight : after.flight i.port = pe.flight i.port)
    (creating : after.creating i.port = pe.creating i.port)
    (transfer : after.transfer i.port = pe.transfer i.port)
    (start : after.bfsIterationStart = pe.bfsIterationStart)
    (localCounter : after.localCounter = pe.localCounter) :
    Inspecting gl i now requests responses analyses after := by
  have span : Pe.inspectSpan gl after.inspectReq i = Pe.inspectSpan gl pe.inspectReq i := by
    simp only [Pe.inspectSpan, inspectReq]
  have rest : ahead gl i after = ahead gl i pe := by
    rw [ahead, depthBuffer0, inFlight_of_spans spans, span, ← ahead]
  refine ⟨?_, ?_, ?_, ?_, ?_, ?_⟩
  · rw [start, localCounter]
    exact inspecting.pulse
  · rw [start, idx, rest]
    exact inspecting.count
  · rw [span]
    exact inspecting.within
  · rw [localCounter, start]
    intro outside
    have idle := inspecting.idle outside
    exact ⟨depthBuffer0.trans idle.depthBuffer0, flight.trans idle.flight,
      inspectReq ▸ idle.asked⟩
  · rw [creating, span, depthBuffer0]
    exact inspecting.full
  · rw [creating, start, pushed_of_flight flight creating, transfer, depthBuffer0]
    exact inspecting.creating

theorem other (inspecting : Inspecting gl i now requests responses analyses pe)
    (consistent : pe.Consistent) (controller : thread ≠ .bfsController)
    (asks : thread ≠ .issueInspectDepthReadReq i)
    (takes : thread ≠ .processInspectDepthReadResp i)
    (analyses' : thread ≠ .inspectDepthAnalysis)
    (ran : pe.resume gl thread = some (after, delay)) :
    Inspecting gl i now requests responses analyses after := by
  have frame := Pe.resume_frame controller ran
  have asksNot : thread.asks ≠ some i.port := fun same => asks (PeThread.asks_part same)
  have takesNot : thread.takes ≠ some i.port := fun same => takes (PeThread.takes_part same)
  exact inspecting.moved (frame.depthBuffer0 i takes analyses') (congrFun (frame.idx analyses') i)
    (frame.inspectReq i asks) (Pe.resume_lines consistent controller ran asksNot takesNot).spans
    (Pe.resume_flight controller ran asksNot takesNot) (frame.creating _ asksNot)
    (frame.transfer _ takesNot) frame.bfsIterationStart frame.localCounter

theorem answer (inspecting : Inspecting gl i now requests responses analyses pe)
    (consistent : pe.Consistent) {j : Port} (ran : pe.answer j = some after) :
    Inspecting gl i now requests responses analyses after := by
  have flight := congrFun (Pe.answer_flight ran).1 i.port
  have spans := @Pe.answer_spans _ _ i.port consistent j ran
  cases Pe.answer_cases ran <;> exact inspecting.moved rfl rfl rfl spans flight rfl rfl rfl rfl

/-! ### The threads of the partition -/

theorem analysed_depths (ran : pe.inspectDepthAnalysis gl = some (after, delay)) (i : Part) :
    ∃ taken, taken ≤ 1 ∧ (after.depthBuffer0 i).length + taken = (pe.depthBuffer0 i).length ∧
      after.idx i = (if pe.bfsIterationStart = true then Pe.resetIdx gl i else pe.idx i) + taken := by
  obtain ⟨_, mid, looped, rfl⟩ := Pe.inspectDepthAnalysis_cases ran
  have checked : (mid.checkDone gl).depthBuffer0 = mid.depthBuffer0 ∧
      (mid.checkDone gl).idx = mid.idx := by
    rw [Pe.checkDone]
    split <;> exact ⟨rfl, rfl⟩
  have restarted : (pe.restartedIdx gl).depthBuffer0 = pe.depthBuffer0 ∧
      (pe.restartedIdx gl).idx i =
        if pe.bfsIterationStart = true then Pe.resetIdx gl i else pe.idx i := by
    rw [Pe.restartedIdx]
    split <;> exact ⟨rfl, rfl⟩
  rw [checked.1, checked.2, ← restarted.1, ← restarted.2]
  cases looped with
  | empty _ | full _ => exact ⟨0, Nat.zero_le _, rfl, rfl⟩
  | analysed _ =>
      rw [Pe.inspectDepth_all]
      refine ⟨(((pe.restartedIdx gl).depthBuffer0 i).take 1).length, ?_, ?_, rfl⟩
      · simp
      · cases buffer : (pe.restartedIdx gl).depthBuffer0 i <;> simp [Pe.analysed, buffer]

theorem analyse (inspecting : Inspecting gl i now requests responses now pe)
    (ran : pe.inspectDepthAnalysis gl = some (after, delay)) :
    Inspecting gl i now requests responses (now + 1) after := by
  have frame := Pe.inspectDepthAnalysis_frame ran
  have queues := Pe.inspectDepthAnalysis_queues ran
  have inspectReq := frame.inspectReq i (by simp)
  have start := frame.bfsIterationStart
  have span : Pe.inspectSpan gl after.inspectReq i = Pe.inspectSpan gl pe.inspectReq i := by
    simp only [Pe.inspectSpan, inspectReq]
  have flight : (ReadBuffer.depthBuffer0 i).inFlight after =
      (ReadBuffer.depthBuffer0 i).inFlight pe := inFlight_of_spans (by rw [queues])
  obtain ⟨taken, most, length, idx⟩ := analysed_depths ran i
  refine ⟨?_, ?_, ?_, ?_, ?_, ?_⟩
  · rw [start, frame.localCounter]
    exact inspecting.pulse
  · have count := inspecting.count
    simp only [and_true] at count
    rw [start, if_neg (by omega : ¬ (_ ∧ now + 1 = now)), idx, ahead, flight, span]
    rw [ahead] at count
    omega
  · rw [span]
    exact inspecting.within
  · rw [start, frame.localCounter]
    intro outside
    have idle := inspecting.idle outside
    refine ⟨List.eq_nil_of_length_eq_zero ?_, (congrArg (·.flight i.port) queues).trans idle.flight,
      inspectReq ▸ idle.asked⟩
    have empty := congrArg List.length idle.depthBuffer0
    rw [List.length_nil] at empty
    omega
  · rw [queues, span]
    intro free more
    have := inspecting.full free more
    omega
  · rw [queues, start]
    intro waits creating
    rcases inspecting.creating waits creating with signal | pushed | few
    · exact .inl signal
    · exact .inr (.inl pushed)
    · exact .inr (.inr (by omega))

theorem inspectLoop_ahead (looped : Pe.InspectLoop gl i pe after) (indexed : pe.Indexed)
    (free : pe.creating i.port = none) (outside : (pe.inspectReq i).actualLen = 0) :
    ahead gl i after = ahead gl i pe ∧
      (Pe.inspectSpan gl after.inspectReq i).addr + (Pe.inspectSpan gl after.inspectReq i).left =
        (Pe.inspectSpan gl pe.inspectReq i).addr + (Pe.inspectSpan gl pe.inspectReq i).left := by
  cases looped with
  | finished _ | full _ _ => exact ⟨rfl, rfl⟩
  | @asked op more _ asks port _ =>
      have short : pe.inspectLen gl i ≤ gl.maxLen i - (pe.inspectReq i).currentLen :=
        Nat.min_le_right ..
      have spans := @Pairing.spans_created { pe with
        inspectReq := Function.update pe.inspectReq i
          { pe.inspectReq i with actualLen := pe.inspectLen gl i } } i.port op indexed free port
      refine ⟨?_, ?_⟩
      · rw [ahead, ReadBuffer.inFlight, ReadBuffer.port, spans, ahead, ReadBuffer.inFlight]
        simp only [Pe.created, Pe.inspectSpan, Function.update_self, outside, List.map_append,
          List.sum_append, List.map_cons, List.map_nil, List.sum_singleton, asks.length,
          ReadBuffer.size, ReadBuffer.port, Nat.div_one]
        show _ + (((pe.line i.port).spans.map _).sum + _) + _ = _
        omega
      · simp only [Pe.created, Pe.inspectSpan, Function.update_self, outside]
        omega

theorem request (inspecting : Inspecting gl i now now responses analyses pe)
    (consistent : pe.Consistent) (covers : gl.baseDepthMemAddr i + gl.maxLen i ≤ gl.vertexNum)
    (due : now ≤ analyses) (ran : pe.inspectDepthReqThread gl i = some (after, delay)) :
    Inspecting gl i now (now + 1) responses analyses after := by
  have frame := Pe.inspectDepthReqThread_frame ran
  have depthBuffer0 := frame.depthBuffer0 i (by simp) (by simp)
  have idx := congrFun (frame.idx (by simp)) i
  have start := frame.bfsIterationStart
  have counter := frame.localCounter
  have indexed := consistent.indexed
  obtain ⟨_, mid, settled, looped⟩ := Pe.inspectDepthReqThread_cases ran
  have settledIndexed := (settled.lines indexed).1
  have spans := ((settled.lines indexed).2 i.port).spans
  -- the state in which the loop starts
  have outside : (mid.inspectReq i).actualLen = 0 := by
    cases settled with
    | idle free _ => exact consistent.inspect i free
    | restarted | pushed => simp
  have same : mid.depthBuffer0 i = pe.depthBuffer0 i := by cases settled <;> rfl
  obtain ⟨rest, total⟩ := inspectLoop_ahead looped settledIndexed settled.free outside
  have count : (if pe.bfsIterationStart = true ∧ analyses = now then Pe.resetIdx gl i
      else pe.idx i) + ahead gl i mid ≤ Pe.resetIdx gl i + gl.maxLen i := by
    have before := inspecting.count
    simp only [and_true] at before
    cases settled with
    | idle _ _ =>
        have : (if pe.bfsIterationStart = true then 0 else gl.maxLen i) ≤ gl.maxLen i := by
          split <;> omega
        omega
    | restarted _ _ signal =>
        have idle := inspecting.idle (.inr ⟨signal, rfl⟩)
        have empty := idle.ahead_eq
        rw [if_pos signal, empty] at before
        have fresh : ahead gl i { pe with
            inspectReq := Function.update pe.inspectReq i { pe.inspectReq i with
              depthMemAddr := gl.baseDepthMemAddr i
              currentLen := 0
              actualLen := 0 } } = gl.maxLen i := by
          rw [ahead, idle.left] at empty
          rw [ahead, ReadBuffer.inFlight]
          rw [ReadBuffer.inFlight] at empty
          simp only [Pe.inspectSpan, Function.update_self, Nat.add_zero, Nat.sub_zero]
          simp only [Nat.add_zero] at empty
          omega
        rw [fresh]
        omega
    | pushed creating =>
        have started : pe.bfsIterationStart ≠ true := by
          intro signal
          rw [(inspecting.idle (.inr ⟨signal, rfl⟩)).creating] at creating
          cases creating
        rw [if_neg started] at before
        refine Nat.le_trans (Nat.le_of_eq ?_) before
        congr 1
        rw [ahead, ahead, inFlight_of_spans spans]
        simp [Pe.inspectSpan, Pe.pushBurst]
  refine ⟨?_, ?_, ?_, ?_, ?_, ?_⟩
  · rw [start, counter]
    exact inspecting.pulse
  · rw [start, idx, rest, if_neg (by omega : ¬ (_ ∧ now + 1 = now))]
    exact count
  · have within := inspecting.within
    rw [total]
    cases settled with
    | idle _ _ => exact within
    | restarted _ _ _ =>
        simp only [Pe.inspectSpan, Function.update_self]
        omega
    | pushed _ =>
        simp only [Pe.inspectSpan, Function.update_self, Nat.add_zero] at within ⊢
        exact within
  · rw [start, counter]
    intro early
    have early : pe.localCounter < 10 := early.resolve_right (by omega)
    have idle := inspecting.idle (.inl early)
    cases settled with
    | idle _ _ =>
        cases looped with
        | finished _ => exact idle
        | full more _ | asked more _ _ _ _ =>
            have := idle.asked
            omega
    | restarted _ _ signal =>
        have := inspecting.pulse signal
        omega
    | pushed creating =>
        rw [idle.creating] at creating
        cases creating
  · intro free more
    cases looped with
    | finished finished =>
        simp only [Pe.inspectSpan] at more
        omega
    | full _ full =>
        have short : after.inspectLen gl i ≤ Gl.baseLen := Nat.min_le_left ..
        simp only [Gl.depthBufferDepth, Gl.baseLen] at full short ⊢
        omega
    | asked _ _ _ _ _ =>
        simp [Pe.created] at free
  · intro _ creating
    rw [start, depthBuffer0]
    have more : (mid.inspectReq i).currentLen < gl.maxLen i := by
      cases looped with
      | finished _ | full _ _ => exact absurd settled.free creating
      | asked more _ _ _ _ => exact more
    cases settled with
    | idle free _ =>
        have left : (Pe.inspectSpan gl pe.inspectReq i).left ≠ 0 := by
          simp only [Pe.inspectSpan, outside]
          omega
        have := inspecting.full free left
        simp only [Gl.baseLen] at this
        exact .inr (.inr (by omega))
    | restarted _ _ signal => exact .inl signal
    | @pushed burstIdx waited =>
        refine .inr (.inl ⟨burstIdx, ?_, ?_⟩)
        · have queue : burstIdx ∈ after.burstReqQueue i.port := by
            cases looped <;> simp [Pe.created, Pe.pushBurst]
          simp [BurstQueues.pushed, queue]
        · rw [frame.transfer i.port (by simp [PeThread.takes])]
          rintro ⟨transfer, _⟩
          have head := List.mem_of_mem_head? (indexed.transfer _ _ transfer)
          have nodup := indexed.nodup i.port
          simp only [BurstQueues.flight, waited, Option.toList_some] at nodup
          refine (List.nodup_append.mp nodup).2.2 burstIdx ?_ burstIdx (by simp) rfl
          simp [BurstQueues.pushed, head]

theorem respond (inspecting : Inspecting gl i now requests now analyses pe)
    (consistent : pe.Consistent) (positive : 0 < delay)
    (ran : pe.inspectDepthRespThread i = some (after, delay)) :
    Inspecting gl i now requests (now + delay) analyses after := by
  have frame := Pe.inspectDepthRespThread_frame ran
  have inspectReq := frame.inspectReq i (by simp)
  have idx := congrFun (frame.idx (by simp)) i
  have start := frame.bfsIterationStart
  have counter := frame.localCounter
  have creating := frame.creating i.port (by simp [PeThread.asks])
  have span : Pe.inspectSpan gl after.inspectReq i = Pe.inspectSpan gl pe.inspectReq i := by
    simp only [Pe.inspectSpan, inspectReq]
  have entries := @Pe.response_entries gl (.processInspectDepthReadResp i) _ _ _ (.depthBuffer0 i)
    consistent ran rfl
  simp only [ReadBuffer.entries] at entries
  have rest : ahead gl i after = ahead gl i pe := by
    rw [ahead, entries, span, ← ahead]
  -- the depths that arrive, and the burst that brought them
  have arrived : (pe.depthBuffer0 i).length ≤ (after.depthBuffer0 i).length ∧
      ∀ burstIdx ∈ pe.pushed i.port, pe.transfer i.port ≠ some burstIdx →
        burstIdx ∈ after.pushed i.port := by
    cases Pe.respThread_cases ran with
    | polled _ awaited => cases awaited <;> exact ⟨Nat.le_refl _, fun _ member _ => member⟩
    | @stored head _ _ _ _ transfer _ copied awaited =>
        obtain ⟨bytes, _, rfl⟩ := Pe.storeInspect_cases copied
        obtain ⟨others, queue⟩ :=
          List.head?_eq_some_iff.mp (consistent.indexed.transfer _ _ transfer)
        have left : ∀ burstIdx ∈ pe.pushed i.port, pe.transfer i.port ≠ some burstIdx →
            burstIdx ∈ (pe.popped i.port head).pushed i.port := by
          intro burstIdx member other
          have other : burstIdx ≠ head := by
            rintro rfl
            exact other transfer
          simpa [BurstQueues.pushed, Pe.popped, queue, other] using member
        cases awaited <;> exact ⟨by simp [Pe.popped], left⟩
  refine ⟨?_, ?_, ?_, ?_, ?_, ?_⟩
  · rw [start, counter]
    exact inspecting.pulse
  · rw [start, idx, rest]
    exact inspecting.count
  · rw [span]
    exact inspecting.within
  · rw [start, counter]
    intro outside
    have idle := inspecting.idle outside
    refine ⟨List.eq_nil_of_length_eq_zero ?_, List.eq_nil_iff_forall_not_mem.mpr
      fun burstIdx member => ?_, inspectReq ▸ idle.asked⟩
    · have empty := idle.ahead_eq
      rw [ahead] at empty
      omega
    · have earlier := Pe.respThread_flight (fun op pe stored copied => by
        obtain ⟨_, _, rfl⟩ := Pe.storeInspect_cases copied
        rfl) ran i.port member
      rw [idle.flight] at earlier
      cases earlier
  · rw [creating, span]
    intro free more
    exact (inspecting.full free more).trans (Nat.add_le_add_right arrived.1 _)
  · rw [creating, start]
    intro waits asking
    rcases inspecting.creating waits asking with signal | ⟨burstIdx, member, awaited⟩ | few
    · exact .inl signal
    · refine .inr (.inl ⟨burstIdx, arrived.2 burstIdx member fun transfer => ?_, by omega⟩)
      exact awaited ⟨transfer, rfl⟩
    · exact .inr (.inr (few.trans (Nat.add_le_add_right arrived.1 _)))

/-! ### The clock -/

/-- A level ends only when the partition is idle. -/
theorem idle_of_endsLevel (inspecting : Inspecting gl i now (now + 1) responses (now + 1) pe)
    (consistent : pe.Consistent) (ends : pe.endsLevel = true) : Idle gl i pe := by
  have counter : pe.nextCounter = 20 := by
    simp only [Pe.endsLevel, Bool.and_eq_true, beq_iff_eq] at ends
    exact ends.2
  have sampled := Pe.sampled_of_endsLevel consistent.indexed ends
  have pushed := sampled.pushed i.port
  have depths := sampled.depthBuffer0 i
  have empty : (pe.depthBuffer0 i).length = 0 := by rw [depths]; rfl
  have creating : pe.creating i.port = none := by
    by_contra asking
    rcases inspecting.creating (Nat.lt_succ_self _) asking with signal | ⟨_, member, _⟩ | few
    · have := inspecting.pulse signal
      rw [Pe.nextCounter] at counter
      split at counter <;> omega
    · rw [pushed] at member
      cases member
    · omega
  refine ⟨depths, by rw [BurstQueues.flight, pushed, creating]; rfl, ?_⟩
  by_contra more
  have none := consistent.inspect i creating
  have full := inspecting.full creating (by
    simp only [Pe.inspectSpan]
    omega)
  simp only [Gl.baseLen] at full
  omega

theorem advance (inspecting : Inspecting gl i now (now + 1) responses (now + 1) pe)
    (consistent : pe.Consistent) :
    Inspecting gl i (now + 1) (now + 1) responses (now + 1) pe.bfsController := by
  have count := inspecting.count
  simp only [Nat.succ_ne_self, and_false, if_false] at count
  have idle : pe.endsLevel = true ∨ pe.nextCounter ≤ 10 → Idle gl i pe := by
    rintro (ends | early)
    · exact inspecting.idle_of_endsLevel consistent ends
    · refine inspecting.idle (.inl ?_)
      rw [Pe.nextCounter] at early
      split at early <;> omega
  have after : ∀ level status localCounter, (localCounter < 10 ∨ pe.nextCounter ≤ 10 →
      Idle gl i pe) → (pe.nextCounter = 10 → localCounter = 10) →
      Inspecting gl i (now + 1) (now + 1) responses (now + 1) { pe with
        level
        burstOpStatus := status
        localCounter
        bfsIterationStart := pe.nextCounter == 10 } := by
    intro level status localCounter idle signal
    have settled : ∀ {pe' : Pe}, pe'.depthBuffer0 = pe.depthBuffer0 → pe'.flight = pe.flight →
        pe'.inspectReq = pe.inspectReq → Idle gl i pe → Idle gl i pe' :=
      fun depthBuffer0 flight inspectReq idle =>
        ⟨depthBuffer0 ▸ idle.depthBuffer0, flight ▸ idle.flight, inspectReq ▸ idle.asked⟩
    refine ⟨fun start => signal (beq_iff_eq.mp start), ?_, inspecting.within, fun outside => ?_,
      inspecting.full, fun waits => absurd waits (Nat.lt_irrefl _)⟩
    · show (if (pe.nextCounter == 10) = true ∧ _ then _ else _) + ahead gl i pe ≤
        _ + if (pe.nextCounter == 10) = true ∧ _ then _ else _
      simp only [and_true, beq_iff_eq]
      split
      · rename_i tenth
        rw [(idle (.inr (by omega))).ahead_eq]
      · exact count
    · refine settled rfl rfl rfl (idle ?_)
      rcases outside with early | ⟨start, _⟩
      · exact .inl early
      · exact .inr (Nat.le_of_eq (beq_iff_eq.mp start))
  rw [Pe.bfsController]
  split
  · rename_i ends
    have last : pe.nextCounter = 20 := by
      simp only [Pe.endsLevel, Bool.and_eq_true, beq_iff_eq] at ends
      exact ends.2
    exact after _ _ _ (fun _ => idle (.inl ends)) (by omega)
  · refine after _ _ _ (fun early => idle (.inr ?_)) id
    rcases early with early | early
    · exact Nat.le_of_lt early
    · exact early

end Inspecting

/-! ### Every run -/

def Inspected (gl : Gl) (i : Part) (timed : Timed TimedThread Pe) : Prop :=
  Inspecting gl i timed.now (timed.due ⟨.issueInspectDepthReadReq i, by simp⟩)
    (timed.due ⟨.processInspectDepthReadResp i, by simp⟩)
    (timed.due ⟨.inspectDepthAnalysis, by simp⟩) timed.state

theorem inspected_start (gl : Gl) (ramData : List Byte) (i : Part) :
    Inspected gl i (Pe.start gl ramData) := by
  have first : (Pe.reset gl ramData).bfsController =
      { Pe.reset gl ramData with localCounter := 1 } := by
    rw [Pe.bfsController, if_neg (by simp [Pe.endsLevel, Pe.nextCounter, Pe.reset])]
    rfl
  have idle : Idle gl i { Pe.reset gl ramData with localCounter := 1 } :=
    ⟨rfl, rfl, Nat.le_refl _⟩
  show Inspecting gl i 0 0 0 0 (Pe.reset gl ramData).bfsController
  rw [first]
  refine ⟨by simp [Pe.reset], ?_, ?_, fun _ => idle, fun _ more => absurd idle.left more,
    fun _ creating => absurd rfl creating⟩
  · rw [idle.ahead_eq]
    simp [Pe.reset]
  · simp [Pe.inspectSpan, Pe.reset]

theorem inspected_step {before after : Timed TimedThread Pe} (onTime : Pe.OnTime before)
    (covers : gl.baseDepthMemAddr i + gl.maxLen i ≤ gl.vertexNum)
    (inspected : Inspected gl i before) (stepped : Pe.Cycle gl before after) :
    Inspected gl i after := by
  cases stepped with
  | @resume now due pe final thread delay dueNow positive ran =>
      obtain ⟨thread, timed⟩ := thread
      have other : ∀ {thread' : PeThread} (timed' : thread' ≠ .bfsController), thread' ≠ thread →
          Function.update due ⟨thread, timed⟩ (now + delay) ⟨thread', timed'⟩ = due ⟨thread', timed'⟩ :=
        fun timed' differs => Function.update_of_ne (by simpa using differs) ..
      have due' : Function.update due ⟨thread, timed⟩ (now + delay) ⟨thread, timed⟩ = now + delay :=
        Function.update_self ..
      have notPast := onTime.notPast ⟨.inspectDepthAnalysis, by simp⟩
      by_cases asks : thread = .issueInspectDepthReadReq i
      · subst asks
        have once : delay = 1 := (Pe.inspectDepthReqThread_cases ran).1
        simp only [Inspected, dueNow] at inspected ⊢
        rw [due', other _ (by simp), other _ (by simp), once]
        exact inspected.request onTime.consistent covers notPast ran
      by_cases takes : thread = .processInspectDepthReadResp i
      · subst takes
        simp only [Inspected, dueNow] at inspected ⊢
        rw [due', other _ (by simp), other _ (by simp)]
        exact inspected.respond onTime.consistent positive ran
      by_cases analyses : thread = .inspectDepthAnalysis
      · subst analyses
        have once : delay = 1 := (Pe.inspectDepthAnalysis_cases ran).1
        simp only [Inspected, dueNow] at inspected ⊢
        rw [due', other _ (by simp), other _ (by simp), once]
        exact inspected.analyse ran
      · simp only [Inspected] at inspected ⊢
        rw [other _ (Ne.symm asks), other _ (Ne.symm takes), other _ (Ne.symm analyses)]
        exact inspected.other onTime.consistent timed asks takes analyses ran
  | interfere answered =>
      obtain ⟨j, answered⟩ := answered
      exact inspected.answer onTime.consistent answered
  | @advance now due pe waiting =>
      have soon : ∀ thread : TimedThread, thread.val.transfers = false → due thread = now + 1 :=
        fun thread unit => Nat.le_antisymm (onTime.soon thread unit) (waiting thread)
      simp only [Inspected] at inspected ⊢
      have asks := soon ⟨.issueInspectDepthReadReq i, by simp⟩ rfl
      have analyses := soon ⟨.inspectDepthAnalysis, by simp⟩ rfl
      rw [asks, analyses] at inspected ⊢
      exact inspected.advance onTime.consistent

end Pulse

end GraphAccelerator
