import GraphAccelerator.Accelerator.LevelRefinement
import GraphAccelerator.Accelerator.Lines
import GraphAccelerator.Accelerator.Replay
import GraphAccelerator.Accelerator.Simulation

/-!
# What the inspection finds

Only a counter per partition says which vertex a depth belongs to.  The histories of the
chunks that are asked for, of the bytes that the memory answers and of the bytes that are
analysed show that the counters never lose the count: in every order of the threads,
with every delay of the memory, and however slowly `frontierBuffer` is emptied.

Other threads and the environment may change the memory image, as long as no vertex
enters or leaves the level.
-/

namespace GraphAccelerator

open Memory Queues LevelPass

namespace Inspection

/-- The address and length of every burst that was created for a partition, the
addresses and bytes that the memory answered to them, the bytes that were analysed, and
what was appended to `frontierBuffer`. -/
structure History where
  asked : Part → List (Nat × Nat) := fun _ => []
  answers : Part → List (Nat × Byte) := fun _ => []
  popped : Part → List Byte := fun _ => []
  found : List Int := []

namespace History

def resume (before after : Pe) (h : History) : History where
  asked i := h.asked i ++
    ((appended before.bursts after.bursts).filter (·.portIdx = i.port)).map fun op =>
      (op.addr, op.length)
  answers := h.answers
  popped i := h.popped i ++ taken (before.depthBuffer0 i) (after.depthBuffer0 i)
  found := h.found ++ appended before.frontierBuffer after.frontierBuffer

def nextAnswers (port : Port) (pe : Pe) : List (Nat × Byte) :=
  match (pe.sent port).head?.bind (pe.bursts[·]?) with
  | none => []
  | some op => (List.range op.length).filterMap fun j =>
      pe.ramData[op.addr + j]?.map (op.addr + j, ·)

def answer (port : Port) (before : Pe) (h : History) : History :=
  { h with answers := fun i =>
      h.answers i ++ if i.port = port then nextAnswers port before else [] }

end History

def SameLevel (g : Graph) (pe after : Pe) : Prop :=
  ∀ v, v < g.vertexNum → (after.ramData[v]? = some pe.level ↔ pe.ramData[v]? = some pe.level)

/-- A segment of any thread, an answer of the memory, or a step of the environment. -/
inductive Step (g : Graph) : Pe × History → Pe × History → Prop
  | resume {pe after : Pe} {h : History} {thread : PeThread} {delay : Nat} :
      thread ≠ .bfsController → pe.resume (Gl.layout g) thread = some (after, delay) →
      Step g (pe, h) (after, h.resume pe after)
  | answer {pe after : Pe} {h : History} {port : Port} :
      pe.answer port = some after → SameLevel g pe after →
      Step g (pe, h) (after, h.answer port pe)
  | memory {pe : Pe} {h : History} {ramData : List Byte} :
      SameLevel g pe { pe with ramData } → Step g (pe, h) ({ pe with ramData }, h)
  | pop {pe : Pe} {h : History} {vidx : Int} {rest : List Int} :
      pe.frontierBuffer = vidx :: rest → Step g (pe, h) ({ pe with frontierBuffer := rest }, h)

def first (g : Graph) (i : Part) : Nat := i.val * (g.vertexNum / 4)

theorem resetIdx_eq (g : Graph) (i : Part) : Pe.resetIdx (Gl.layout g) i = first g i := rfl

/-- The bytes of a partition on their way from the memory to the analysis. -/
structure PartHolds (g : Graph) (isLevel : Nat → Bool) (level : Byte) (pe : Pe) (h : History)
    (i : Part) : Prop where
  requests : ∃ next : Nat, ((pe.pipeline (Gl.layout g)).span i).addr = next ∧
    Contiguous (first g i) (h.asked i) next ∧
    Contiguous (first g i + (h.answers i).length)
      ((pe.line i.port).pending.map fun op => (op.addr, op.length)) next ∧
    next + ((pe.pipeline (Gl.layout g)).span i).left = partEnd g i
  addresses : (h.answers i).map Prod.fst = List.range' (first g i) (h.answers i).length
  bytes : (h.answers i).map Prod.snd = h.popped i ++ pe.depthBuffer0 i ++
    (pe.line i.port).responded.flatMap (·.data)
  whole : ∀ op ∈ (pe.line i.port).responded, op.data.length = op.length
  levels : ∀ answer ∈ h.answers i, answer.2 = level ↔ isLevel answer.1
  idx : pe.idx i = first g i + (h.popped i).length

section Partition

variable {g : Graph} {isLevel : Nat → Bool} {level : Byte} {pe mid after : Pe} {h h' : History}
variable {i : Part} {delay : Nat}

theorem PartHolds.moved (part : PartHolds g isLevel level pe h i)
    (inspectReq : after.inspectReq i = pe.inspectReq i)
    (depthBuffer0 : after.depthBuffer0 i = pe.depthBuffer0 i) (idx : after.idx i = pe.idx i)
    (line : (pe.line i.port).Same (after.line i.port)) (asked : h'.asked i = h.asked i)
    (answers : h'.answers i = h.answers i) (popped : h'.popped i = h.popped i) :
    PartHolds g isLevel level after h' i where
  requests := by
    have span : (after.pipeline (Gl.layout g)).span i = (pe.pipeline (Gl.layout g)).span i := by
      simp only [Pe.pipeline, Pe.inspectSpan, inspectReq]
    rw [span, asked, answers, line.pending]
    exact part.requests
  addresses := by
    rw [answers]
    exact part.addresses
  bytes := by
    rw [answers, popped, depthBuffer0, line.responded]
    exact part.bytes
  whole := by
    rw [line.responded]
    exact part.whole
  levels := by
    rw [answers]
    exact part.levels
  idx := by
    rw [idx, popped]
    exact part.idx

theorem PartHolds.answered_le (part : PartHolds g isLevel level pe h i) :
    first g i + (h.answers i).length ≤ partEnd g i := by
  obtain ⟨next, _, _, pending, left⟩ := part.requests
  have := InspectStage.Contiguous.le pending
  omega

/-- The k-th byte that leaves the buffer is the k-th one of the partition. -/
theorem PartHolds.get (part : PartHolds g isLevel level pe h i) {k : Nat} {d : Byte}
    (present : (h.popped i ++ pe.depthBuffer0 i)[k]? = some d) :
    (h.answers i)[k]? = some (first g i + k, d) ∧ first g i + k < partEnd g i ∧
      (d = level ↔ isLevel (first g i + k)) := by
  have bound := (List.getElem?_eq_some_iff.mp present).1
  have byte : ((h.answers i).map Prod.snd)[k]? = some d := by
    rw [part.bytes, List.getElem?_append_left bound, present]
  rw [List.getElem?_map, Option.map_eq_some_iff] at byte
  obtain ⟨⟨v, _⟩, found, rfl⟩ := byte
  have inside := (List.getElem?_eq_some_iff.mp found).1
  have address : ((h.answers i).map Prod.fst)[k]? = some v := by
    rw [List.getElem?_map, found]
    rfl
  rw [part.addresses, List.getElem?_range' inside, Nat.one_mul, Option.some.injEq] at address
  subst address
  have := part.answered_le
  exact ⟨found, by omega, part.levels _ (List.mem_of_getElem? found)⟩

theorem PartHolds.issueInspectDepthReadReq (part : PartHolds g isLevel level pe h i)
    (consistent : pe.Consistent) (running : pe.bfsIterationStart = false)
    (ran : pe.inspectDepthReqThread (Gl.layout g) i = some (after, delay)) :
    PartHolds g isLevel level after (h.resume pe after) i := by
  have frame := Pe.inspectDepthReqThread_frame ran
  have depthBuffer0 := frame.depthBuffer0 i nofun nofun
  have idx := congrFun (frame.idx nofun) i
  obtain ⟨_, mid, settled, looped⟩ := Pe.inspectDepthReqThread_cases ran
  have ⟨indexed, lines⟩ := settled.lines consistent.indexed
  have count : mid.bursts = pe.bursts := by cases settled <;> rfl
  have span : (mid.pipeline (Gl.layout g)).span i = (pe.pipeline (Gl.layout g)).span i := by
    cases settled with
    | idle _ _ => rfl
    | restarted _ _ started => rw [running] at started; cases started
    | pushed _ => simp [Pe.pipeline, Pe.inspectSpan]
  have popped : (h.resume pe after).popped i = h.popped i := by
    simp [History.resume, depthBuffer0]
  have unchanged : after = mid → PartHolds g isLevel level after (h.resume pe after) i := by
    rintro rfl
    refine ⟨?_, part.addresses, ?_, ?_, part.levels, ?_⟩
    · have asked : (h.resume pe after).asked i = h.asked i := by
        simp [History.resume, count]
      rw [span, asked, (lines i.port).pending]
      exact part.requests
    · rw [popped, depthBuffer0, (lines i.port).responded]
      exact part.bytes
    · rw [(lines i.port).responded]
      exact part.whole
    · rw [idx, popped]
      exact part.idx
  cases looped with
  | finished _ => exact unchanged rfl
  | full _ _ => exact unchanged rfl
  | @asked op more _ asks port _ =>
      let asking : Pe := { mid with
        inspectReq := Function.update mid.inspectReq i
          { mid.inspectReq i with actualLen := mid.inspectLen (Gl.layout g) i } }
      obtain ⟨_, _, responded, pending⟩ := @Pe.created_lines asking i.port indexed settled.free op
        port
      have outside : (mid.inspectReq i).actualLen = 0 := by
        cases settled with
        | idle free _ => exact consistent.inspect i free
        | restarted free _ _ => simp
        | pushed _ => simp
      have asked : (h.resume pe (asking.created i.port op)).asked i =
          h.asked i ++ [(op.addr, op.length)] := by
        simp [History.resume, Pe.created, asking, count, port]
      obtain ⟨next, start, chunks, rest, left⟩ := part.requests
      rw [← span] at start left
      simp only [Pe.pipeline, Pe.inspectSpan, outside] at start left
      have addr : op.addr = next := by
        have := asks.addr
        omega
      have within : op.length ≤ (Gl.layout g).maxLen i - (mid.inspectReq i).currentLen := by
        rw [asks.length]
        exact Nat.min_le_right _ _
      have length := asks.length
      refine ⟨⟨next + op.length, ?_, ?_, ?_, ?_⟩, part.addresses, ?_, ?_, part.levels, ?_⟩
      · simp only [Pe.pipeline, Pe.inspectSpan, Pe.created, Function.update_self, ← length]
        push_cast
        omega
      · rw [asked, addr]
        exact chunks.append op.length
      · rw [pending, List.map_append]
        show Contiguous _ ((mid.line i.port).pending.map _ ++ [(op.addr, op.length)]) _
        rw [(lines i.port).pending, addr]
        exact rest.append op.length
      · simp only [Pe.pipeline, Pe.inspectSpan, Pe.created, Function.update_self, ← length]
        omega
      · rw [popped, depthBuffer0, responded]
        show _ = _ ++ (mid.line i.port).responded.flatMap _
        rw [(lines i.port).responded]
        exact part.bytes
      · rw [responded]
        show ∀ op ∈ (mid.line i.port).responded, _
        rw [(lines i.port).responded]
        exact part.whole
      · rw [idx, popped]
        exact part.idx

theorem PartHolds.inspectDepthRespThread (part : PartHolds g isLevel level pe h i)
    (consistent : pe.Consistent) (ran : pe.inspectDepthRespThread i = some (after, delay)) :
    PartHolds g isLevel level after (h.resume pe after) i := by
  have frame := Pe.inspectDepthRespThread_frame ran
  have inspectReq := frame.inspectReq i nofun
  have idx := congrFun (frame.idx nofun) i
  cases Pe.respThread_cases ran with
  | polled _ awaited =>
      have bursts : after.bursts = pe.bursts := by cases awaited <;> rfl
      have buffer : after.depthBuffer0 i = pe.depthBuffer0 i := by cases awaited <;> rfl
      exact part.moved inspectReq buffer idx (.of_eq (by rw [awaited.line_eq]))
        (by simp [History.resume, bursts]) rfl (by simp [History.resume, buffer])
  | @stored burstIdx op stored _ _ transfer present copied awaited =>
      obtain ⟨bytes, converted, rfl⟩ := Pe.storeInspect_cases copied
      obtain ⟨_, _, responded, pending⟩ := Pe.popped_lines consistent.indexed transfer present
      have line : after.line i.port = (pe.popped i.port burstIdx).line i.port := by
        rw [awaited.line_eq]
      have bursts : after.bursts = pe.bursts := by cases awaited <;> rfl
      have buffer : after.depthBuffer0 i = pe.depthBuffer0 i ++ bytes := by
        cases awaited <;> exact Function.update_self (i : Part) _ pe.depthBuffer0
      have popped : (h.resume pe after).popped i = h.popped i := by
        simp [History.resume, buffer]
      have asked : (h.resume pe after).asked i = h.asked i := by
        simp [History.resume, bursts]
      have span : (after.pipeline (Gl.layout g)).span i = (pe.pipeline (Gl.layout g)).span i := by
        simp only [Pe.pipeline, Pe.inspectSpan, inspectReq]
      have data : bytes = op.data := toBytes_eq (part.whole op (by simp [responded])) converted
      refine ⟨?_, part.addresses, ?_, fun other membership => ?_, part.levels, ?_⟩
      · rw [span, asked, line, pending]
        exact part.requests
      · rw [popped, buffer, line, data]
        show (h.answers i).map Prod.snd = _
        rw [part.bytes, responded]
        simp
      · refine part.whole other ?_
        rw [responded, ← line]
        exact List.mem_cons_of_mem _ membership
      · rw [idx, popped]
        exact part.idx

theorem nextAnswers_eq {port : Port} {op : BurstOp} {bytes : List Byte}
    (oldest : (pe.sent port).head?.bind (pe.bursts[·]?) = some op)
    (reads : (List.range op.length).mapM (fun j => pe.ramData[op.addr + j]?) = some bytes) :
    History.nextAnswers port pe = (List.range' op.addr op.length).zip bytes := by
  have paired : ∀ {offsets : List Nat} {bytes : List Byte},
      offsets.mapM (fun j => pe.ramData[op.addr + j]?) = some bytes →
      offsets.filterMap (fun j => pe.ramData[op.addr + j]?.map (op.addr + j, ·)) =
        (offsets.map (op.addr + ·)).zip bytes := by
    intro offsets
    induction offsets with
    | nil => exact fun _ => rfl
    | cons j offsets inductionHypothesis =>
        intro bytes reads
        simp only [List.mapM_cons, Option.bind_eq_bind, Option.bind_eq_some_iff] at reads
        obtain ⟨byte, head, rest, others, same⟩ := reads
        obtain rfl := Option.some.inj same
        rw [List.filterMap_cons, head, inductionHypothesis others]
        rfl
  rw [History.nextAnswers, oldest]
  show List.filterMap _ _ = _
  rw [paired reads, List.range'_eq_map_range]

theorem mem_nextAnswers {port : Port} {answer : Nat × Byte}
    (membership : answer ∈ History.nextAnswers port pe) :
    pe.ramData[answer.1]? = some answer.2 := by
  rw [History.nextAnswers] at membership
  split at membership
  · cases membership
  · rw [List.mem_filterMap] at membership
    obtain ⟨j, _, same⟩ := membership
    rw [Option.map_eq_some_iff] at same
    obtain ⟨byte, present, rfl⟩ := same
    exact present

theorem PartHolds.answer {port : Port} (part : PartHolds g isLevel level pe h i)
    (consistent : pe.Consistent) (reading : pe.Reading)
    (memory : ∀ v, v < g.vertexNum → (pe.ramData[v]? = some level ↔ isLevel v = true))
    (ran : pe.answer port = some after) :
    PartHolds g isLevel level after (h.answer port pe) i := by
  have ⟨inspectReq, depthBuffer0, idx⟩ : after.inspectReq = pe.inspectReq ∧
      after.depthBuffer0 = pe.depthBuffer0 ∧ after.idx = pe.idx := by
    cases Pe.answer_cases ran <;> exact ⟨rfl, rfl, rfl⟩
  by_cases here : i.port = port
  · subst here
    obtain ⟨_, op, bytes, rest, oldest, pending, left, responded, reads⟩ :=
      reading.answer_read consistent (Pe.port_ne i (by decide)) ran
    obtain ⟨_, count⟩ := mapM_range_getElem? reads
    have answers : (h.answer i.port pe).answers i =
        h.answers i ++ (List.range' op.addr op.length).zip bytes := by
      simp [History.answer, nextAnswers_eq oldest reads]
    have span : (after.pipeline (Gl.layout g)).span i = (pe.pipeline (Gl.layout g)).span i := by
      simp only [Pe.pipeline, Pe.inspectSpan, inspectReq]
    obtain ⟨next, start, chunks, continued, remaining⟩ := part.requests
    rw [pending, List.map_cons] at continued
    obtain ⟨addr, continued⟩ := continued
    have total : ((h.answer i.port pe).answers i).length =
        (h.answers i).length + op.length := by
      rw [answers, List.length_append, List.length_zip, List.length_range', count, Nat.min_self]
    have bound := InspectStage.Contiguous.le continued
    have last := partEnd_le (g := g) i
    refine ⟨⟨next, by rw [span]; exact start, chunks, ?_, by rw [span]; exact remaining⟩, ?_, ?_,
      fun other membership => ?_, fun answer membership => ?_, ?_⟩
    · rw [total, left, ← Nat.add_assoc]
      exact continued
    · rw [total, answers, List.map_append, part.addresses,
        List.map_fst_zip (by rw [List.length_range', count]), addr, List.range'_append_1]
    · rw [answers, List.map_append, part.bytes, depthBuffer0, responded,
        List.map_snd_zip (by rw [List.length_range', count])]
      simp [History.answer]
    · rw [responded, List.mem_append, List.mem_singleton] at membership
      rcases membership with old | rfl
      · exact part.whole other old
      · exact count
    · rw [answers, List.mem_append] at membership
      rcases membership with old | new
      · exact part.levels answer old
      · have inside := List.mem_range'_1.mp (List.of_mem_zip new).1
        rw [← nextAnswers_eq oldest reads] at new
        rw [← memory answer.1 (by omega), mem_nextAnswers new, Option.some.injEq]
    · rw [idx]
      exact part.idx
  · have others := (Pe.answer_lines consistent ran).2.1
    exact part.moved (congrFun inspectReq i) (congrFun depthBuffer0 i) (congrFun idx i)
      (.of_eq (others i.port here)) rfl (by simp [History.answer, here]) rfl

theorem PartHolds.analysed (part : PartHolds g isLevel level pe h i) (valid : Bool) (done : Bool) :
    PartHolds g isLevel level { pe.analysed with validFlag2 := valid, bfsDone := done }
      (h.resume pe { pe.analysed with validFlag2 := valid, bfsDone := done }) i := by
  have popped : (h.resume pe { pe.analysed with validFlag2 := valid, bfsDone := done }).popped i =
      h.popped i ++ (pe.depthBuffer0 i).take 1 := by
    simp [History.resume, Pe.analysed]
  have asked : (h.resume pe { pe.analysed with validFlag2 := valid, bfsDone := done }).asked i =
      h.asked i := by
    simp [History.resume, Pe.analysed]
  refine ⟨?_, part.addresses, ?_, part.whole, part.levels, ?_⟩
  · rw [asked]
    exact part.requests
  · rw [popped]
    show (h.answers i).map Prod.snd = _ ++ (pe.depthBuffer0 i).tail ++ _
    rw [part.bytes, ← List.drop_one, List.append_assoc (h.popped i) ((pe.depthBuffer0 i).take 1),
      List.take_append_drop]
    rfl
  · rw [popped, List.length_append, ← Nat.add_assoc, ← part.idx]
    rfl

theorem PartHolds.hit (part : PartHolds g isLevel level pe h i) (same : pe.level = level) :
    pe.hit i = ((List.range' (first g i + (h.popped i).length)
      ((pe.depthBuffer0 i).take 1).length).filter isLevel).map Int.ofNat := by
  rw [Pe.hit]
  cases buffer : pe.depthBuffer0 i with
  | nil => rfl
  | cons d rest =>
      have present : (h.popped i ++ pe.depthBuffer0 i)[(h.popped i).length]? = some d := by
        simp [buffer]
      obtain ⟨_, _, hits⟩ := part.get present
      simp only [same, hits, part.idx, List.take_succ_cons, List.take_zero, List.length_singleton,
        List.range'_one, List.filter_singleton]
      cases isLevel (first g i + (h.popped i).length) <;> rfl

theorem PartHolds.resume {thread : PeThread} (part : PartHolds g isLevel level pe h i)
    (consistent : pe.Consistent) (running : pe.bfsIterationStart = false)
    (controller : thread ≠ .bfsController) (analyses : thread ≠ .inspectDepthAnalysis)
    (ran : pe.resume (Gl.layout g) thread = some (after, delay)) :
    PartHolds g isLevel level after (h.resume pe after) i := by
  by_cases asks : thread = .issueInspectDepthReadReq i
  · subst asks
    exact part.issueInspectDepthReadReq consistent running ran
  by_cases stores : thread = .processInspectDepthReadResp i
  · subst stores
    exact part.inspectDepthRespThread consistent ran
  have frame := Pe.resume_frame controller ran
  have buffer := frame.depthBuffer0 i stores analyses
  have elsewhere : thread.asks ≠ some i.port := fun same => asks (PeThread.asks_part same)
  refine part.moved (frame.inspectReq i asks) buffer (congrFun (frame.idx analyses) i)
    (Pe.resume_lines consistent controller ran elsewhere fun same =>
      stores (PeThread.takes_part same)) ?_ rfl (by simp [History.resume, buffer])
  · have none : (appended pe.bursts after.bursts).filter (·.portIdx = i.port) = [] := by
      refine List.filter_eq_nil_iff.mpr fun op membership here => elsewhere ?_
      rw [(Pe.resume_appended consistent controller ran op membership).1, of_decide_eq_true here]
    simp [History.resume, none]

end Partition

/-! ### All partitions -/

section Invariant

variable (g : Graph) (isLevel : Nat → Bool) (level : Byte)

def foundVertices (h : History) : List Nat :=
  (List.finRange 4).flatMap fun i =>
    (List.range' (first g i) (h.popped i).length).filter isLevel

structure Holds (pe : Pe) (h : History) : Prop where
  consistent : pe.Consistent
  reading : pe.Reading
  running : pe.bfsIterationStart = false
  same : pe.level = level
  memory : ∀ v, v < g.vertexNum → (pe.ramData[v]? = some level ↔ isLevel v = true)
  parts : ∀ i, PartHolds g isLevel level pe h i
  found : h.found.Perm ((foundVertices g isLevel h).map Int.ofNat)
  size : pe.frontierSize = h.found.length
  flag : pe.validFlag2 = !pe.allAnalyzed (Gl.layout g)
  done : pe.bfsDone = true ↔ pe.allAnalyzed (Gl.layout g) = true ∧ h.found = []

end Invariant

section Steps

variable {g : Graph} {isLevel : Nat → Bool} {level : Byte} {pe mid after : Pe} {h h' : History}
variable {delay : Nat}

theorem partEnd_eq (i : Part) : partEnd g i =
    if i.val < 3 then (i.val + 1) * (g.vertexNum / 4) else g.vertexNum := by
  have number : (Gl.layout g).vertexNum = g.vertexNum := rfl
  rw [partEnd, Pe.resetIdx, Gl.maxLen, number]
  split
  · rw [Nat.succ_mul]
  · have last : i.val = 3 := by omega
    rw [last]
    omega

theorem allAnalyzed_iff : pe.allAnalyzed (Gl.layout g) = true ↔ ∀ i, pe.idx i = partEnd g i := by
  have number : (Gl.layout g).vertexNum = g.vertexNum := rfl
  rw [Pe.allAnalyzed, List.all_eq_true]
  refine ⟨fun all i => ?_, fun all i _ => ?_⟩
  · have analysed := all i (List.mem_finRange i)
    rw [partEnd_eq]
    split at analysed <;> rename_i inner <;> simpa [inner, number] using analysed
  · have analysed := all i
    rw [partEnd_eq] at analysed
    split <;> rename_i inner <;> simpa [inner, number] using analysed

theorem Holds.allAnalyzed (holds : Holds g isLevel level pe h) :
    pe.allAnalyzed (Gl.layout g) = true ↔
      ∀ i, first g i + (h.popped i).length = partEnd g i := by
  rw [allAnalyzed_iff]
  exact forall_congr' fun i => by rw [(holds.parts i).idx]

theorem PartHolds.finished {i : Part} (part : PartHolds g isLevel level pe h i)
    (finished : pe.idx i = partEnd g i) : pe.depthBuffer0 i = [] := by
  have bound := part.answered_le
  have count := congrArg List.length part.bytes
  rw [List.length_map, List.length_append, List.length_append] at count
  have := part.idx
  exact List.length_eq_zero_iff.mp (by omega)

theorem Holds.found_analysed (holds : Holds g isLevel level pe h)
    (popped : ∀ i, h'.popped i = h.popped i ++ (pe.depthBuffer0 i).take 1)
    (found : h'.found = h.found ++ (List.finRange 4).flatMap pe.hit) :
    h'.found.Perm ((foundVertices g isLevel h').map Int.ofNat) := by
  have hits : (List.finRange 4).flatMap pe.hit =
      ((List.finRange 4).flatMap fun i => (List.range' (first g i + (h.popped i).length)
        ((pe.depthBuffer0 i).take 1).length).filter isLevel).map Int.ofNat := by
    rw [List.map_flatMap]
    exact List.flatMap_congr fun i _ => (holds.parts i).hit holds.same
  rw [found, hits]
  refine (holds.found.append_right _).trans ?_
  rw [← List.map_append]
  refine List.Perm.map _ ?_
  refine (List.flatMap_append_perm _ _ _).trans (List.Perm.of_eq ?_)
  refine List.flatMap_congr fun i _ => ?_
  rw [popped, List.length_append, ← List.range'_append_1, List.filter_append]

theorem History.resume_self (pe : Pe) (h : History) : h.resume pe pe = h := by
  simp [History.resume]

/-- The analysis finds the vertices whose bytes it pops, and ends when it has popped
them all. -/
theorem Holds.inspectDepthAnalysis (holds : Holds g isLevel level pe h)
    (ran : pe.inspectDepthAnalysis (Gl.layout g) = some (after, delay)) :
    Holds g isLevel level after (h.resume pe after) := by
  have frame := Pe.inspectDepthAnalysis_frame ran
  have resumed : pe.resume (Gl.layout g) .inspectDepthAnalysis = some (after, delay) := ran
  have other : PeThread.inspectDepthAnalysis ≠ .bfsController := nofun
  have consistent := (Pe.resume_refines holds.consistent other resumed).consistent
  have reading := holds.reading.resume holds.consistent other resumed
  obtain ⟨_, mid, looped, rfl⟩ := Pe.inspectDepthAnalysis_cases ran
  have observed : pe.restartedIdx (Gl.layout g) = pe := by
    rw [Pe.restartedIdx, holds.running]
    rfl
  rw [observed] at looped
  have unchanged : mid = pe → Holds g isLevel level (mid.checkDone (Gl.layout g))
      (h.resume pe (mid.checkDone (Gl.layout g))) := by
    rintro rfl
    have checked : mid.checkDone (Gl.layout g) = mid := by
      rw [Pe.checkDone, holds.flag]
      cases mid.allAnalyzed (Gl.layout g) <;> rfl
    rw [checked, History.resume_self]
    exact holds
  cases looped with
  | empty _ => exact unchanged rfl
  | full _ => exact unchanged rfl
  | analysed _ =>
      rw [Pe.inspectDepth_all] at unchanged consistent reading frame ⊢
      by_cases finished : pe.allAnalyzed (Gl.layout g) = true
      · exact unchanged (Pe.analysed_of_empty fun i =>
          (holds.parts i).finished (allAnalyzed_iff.mp finished i))
      · have waiting : pe.validFlag2 = true := by
          rw [holds.flag, Bool.eq_false_iff.mpr finished]
          rfl
        have searching : ¬ pe.bfsDone = true := fun done => finished (holds.done.mp done).1
        obtain ⟨valid, done, same, flag, ends⟩ : ∃ valid done,
            pe.analysed.checkDone (Gl.layout g) =
                { pe.analysed with validFlag2 := valid, bfsDone := done } ∧
              valid = !pe.analysed.allAnalyzed (Gl.layout g) ∧
              (done = true ↔ pe.analysed.allAnalyzed (Gl.layout g) = true ∧
                pe.analysed.frontierSize = 0) := by
          by_cases all : pe.analysed.allAnalyzed (Gl.layout g) = true
          · have checked : pe.analysed.checkDone (Gl.layout g) = { pe.analysed with
                validFlag2 := false
                bfsDone := if pe.analysed.frontierSize = 0 then true else pe.bfsDone } :=
              if_pos (by rw [all]; exact waiting)
            refine ⟨_, _, checked, by rw [all]; rfl, ?_⟩
            split <;> rename_i size <;> simp [all, size, searching]
          · have checked : pe.analysed.checkDone (Gl.layout g) = pe.analysed :=
              if_neg (by rw [Bool.eq_false_iff.mpr all]; exact Bool.false_ne_true)
            refine ⟨true, pe.bfsDone, ?_, by rw [Bool.eq_false_iff.mpr all]; rfl,
              fun done => absurd done searching, fun both => absurd both.1 all⟩
            rw [checked, ← waiting]
            rfl
        rw [same] at consistent reading frame ⊢
        have found : (h.resume pe { pe.analysed with validFlag2 := valid, bfsDone := done }).found =
            h.found ++ (List.finRange 4).flatMap pe.hit := by
          simp [History.resume, Pe.analysed]
        have size : pe.analysed.frontierSize =
            (h.resume pe { pe.analysed with validFlag2 := valid, bfsDone := done }).found.length := by
          rw [found, List.length_append, ← holds.size]
          rfl
        refine ⟨consistent, reading, holds.running, holds.same, holds.memory,
          fun i => (holds.parts i).analysed valid done, holds.found_analysed (fun i => ?_) found,
          size, flag, ?_⟩
        · simp [History.resume, Pe.analysed]
        · rw [← List.length_eq_zero_iff, ← size]
          exact ends

theorem Holds.other {thread : PeThread} (holds : Holds g isLevel level pe h)
    (controller : thread ≠ .bfsController) (analyses : thread ≠ .inspectDepthAnalysis)
    (ran : pe.resume (Gl.layout g) thread = some (after, delay)) :
    Holds g isLevel level after (h.resume pe after) := by
  have frame := Pe.resume_frame controller ran
  have idx := frame.idx analyses
  have buffers : ∀ i, taken (pe.depthBuffer0 i) (after.depthBuffer0 i) = [] := by
    intro i
    by_cases stores : thread = .processInspectDepthReadResp i
    · subst stores
      cases Pe.respThread_cases ran with
      | polled _ awaited => cases awaited <;> exact taken_self _
      | stored _ _ copied awaited =>
          obtain ⟨bytes, _, rfl⟩ := Pe.storeInspect_cases copied
          have buffer : after.depthBuffer0 i = pe.depthBuffer0 i ++ bytes := by
            cases awaited <;> exact Function.update_self (i : Part) _ pe.depthBuffer0
          rw [buffer, taken_append]
    · rw [frame.depthBuffer0 i stores analyses, taken_self]
  have frontier : appended pe.frontierBuffer after.frontierBuffer = [] := by
    by_cases pops : thread = .frontierAnalysis
    · subst pops
      obtain ⟨_, mid, settled, looped⟩ := Pe.frontierAnalysis_cases ran
      have buffer : mid.frontierBuffer = pe.frontierBuffer := by cases settled <;> rfl
      rw [← buffer]
      cases looped with
      | empty _ => exact appended_self _
      | full _ _ => exact appended_self _
      | asked same _ _ _ _ =>
          rw [same]
          exact appended_cons _ _
    · rw [frame.frontierBuffer analyses pops, appended_self]
  have popped : (h.resume pe after).popped = h.popped := by
    simp only [History.resume, buffers, List.append_nil]
  have found : (h.resume pe after).found = h.found := by
    simp only [History.resume, frontier, List.append_nil]
  have all : after.allAnalyzed (Gl.layout g) = pe.allAnalyzed (Gl.layout g) := by
    rw [Pe.allAnalyzed, idx]
    rfl
  refine ⟨(Pe.resume_refines holds.consistent controller ran).consistent,
    holds.reading.resume holds.consistent controller ran, ?_, ?_, ?_,
    fun i => (holds.parts i).resume holds.consistent holds.running controller analyses ran,
    ?_, ?_, ?_, ?_⟩
  · rw [frame.bfsIterationStart]
    exact holds.running
  · rw [frame.level]
    exact holds.same
  · rw [frame.ramData]
    exact holds.memory
  · rw [found, foundVertices, popped]
    exact holds.found
  · rw [found, frame.frontierSize analyses]
    exact holds.size
  · rw [all, frame.validFlag2 analyses]
    exact holds.flag
  · rw [all, found, frame.bfsDone analyses]
    exact holds.done

theorem Holds.answer {port : Port} (holds : Holds g isLevel level pe h)
    (ran : pe.answer port = some after) (same : SameLevel g pe after) :
    Holds g isLevel level after (h.answer port pe) := by
  have ⟨start, level', idx, size, flag, done⟩ :
      after.bfsIterationStart = pe.bfsIterationStart ∧ after.level = pe.level ∧
        after.idx = pe.idx ∧ after.frontierSize = pe.frontierSize ∧
        after.validFlag2 = pe.validFlag2 ∧ after.bfsDone = pe.bfsDone := by
    cases Pe.answer_cases ran <;> exact ⟨rfl, rfl, rfl, rfl, rfl, rfl⟩
  have all : after.allAnalyzed (Gl.layout g) = pe.allAnalyzed (Gl.layout g) := by
    rw [Pe.allAnalyzed, idx]
    rfl
  refine ⟨(Pe.answer_lines holds.consistent ran).1, holds.reading.answer holds.consistent ran,
    start.trans holds.running, level'.trans holds.same, fun v bound => ?_,
    fun i => (holds.parts i).answer holds.consistent holds.reading holds.memory ran, holds.found,
    size.trans holds.size, ?_, ?_⟩
  · rw [← holds.memory v bound, ← holds.same]
    exact same v bound
  · rw [all, flag]
    exact holds.flag
  · rw [all, done]
    exact holds.done

theorem Holds.step {before next : Pe × History} (holds : Holds g isLevel level before.1 before.2)
    (stepped : Step g before next) : Holds g isLevel level next.1 next.2 := by
  cases stepped with
  | @resume pe after h thread delay controller ran =>
      by_cases analyses : thread = .inspectDepthAnalysis
      · subst analyses
        exact holds.inspectDepthAnalysis ran
      · exact holds.other controller analyses ran
  | answer ran same => exact holds.answer ran same
  | @memory pe h ramData same =>
      exact ⟨⟨holds.consistent.indexed, holds.consistent.inspect, holds.consistent.ciao⟩,
        holds.reading, holds.running, holds.same, fun v bound => by
          rw [← holds.memory v bound]
          exact holds.same ▸ same v bound,
        fun i => (holds.parts i).moved rfl rfl rfl (.refl _) rfl rfl rfl, holds.found, holds.size,
        holds.flag, holds.done⟩
  | pop _ =>
      exact ⟨⟨holds.consistent.indexed, holds.consistent.inspect, holds.consistent.ciao⟩,
        holds.reading, holds.running, holds.same, holds.memory,
        fun i => (holds.parts i).moved rfl rfl rfl (.refl _) rfl rfl rfl, holds.found, holds.size,
        holds.flag, holds.done⟩

theorem Holds.run {before final : Pe × History}
    (initial : Holds g isLevel level before.1 before.2)
    (run : Relation.ReflTransGen (Step g) before final) :
    Holds g isLevel level final.1 final.2 :=
  Kernel.invariant_of_step (fun state => Holds g isLevel level state.1 state.2) run initial
    fun _ _ holds stepped => holds.step stepped

/-! ### The whole inspection -/

theorem partEnd_le_first {i j : Part} (before : i < j) : partEnd g i ≤ first g j := by
  have less : i.val < j.val := before
  have last := j.isLt
  rw [partEnd_eq, if_pos (by omega)]
  exact Nat.mul_le_mul_right _ less

theorem holds_observeStart (vertices : 0 < g.vertexNum) {start : Pe}
    (drained : start.Drained (Gl.layout g)) (consistent : start.Consistent)
    (searching : start.bfsDone = false) :
    Holds g (fun v => start.ramData[v]? == some start.level) start.level
      (start.observeStart (Gl.layout g)) {} := by
  have responded : ∀ i, ((start.observeStart (Gl.layout g)).line i).responded = [] := by
    intro i
    simp [BurstQueues.line, Pe.observeStart, drained.burstRespQueue, drained.answered]
  have pending : ∀ i, ((start.observeStart (Gl.layout g)).line i).pending = [] := by
    intro i
    simp [BurstQueues.line, Line.pending, Pe.observeStart, drained.sent, drained.burstReqQueue,
      drained.creating]
  have open' : (start.observeStart (Gl.layout g)).allAnalyzed (Gl.layout g) = false := by
    refine Bool.eq_false_iff.mpr fun all => ?_
    have last := allAnalyzed_iff.mp all 3
    rw [partEnd_eq, if_neg (by decide)] at last
    have counter : (start.observeStart (Gl.layout g)).idx 3 = 3 * (g.vertexNum / 4) := rfl
    omega
  refine ⟨⟨consistent.indexed, fun i _ => rfl, consistent.ciao⟩, fun i _ op membership => ?_, rfl,
    rfl, fun v _ => by simp [Pe.observeStart], fun i => ?_, ?_, rfl, ?_, ?_⟩
  · rw [pending] at membership
    cases membership
  · refine ⟨⟨first g i, ?_, rfl, ?_, ?_⟩, rfl, ?_, ?_, by simp, rfl⟩
    · simp [Pe.pipeline, Pe.inspectSpan, Pe.observeStart, baseDepthMemAddr_eq, resetIdx_eq]
    · rw [pending]
      rfl
    · simp [Pe.pipeline, Pe.inspectSpan, Pe.observeStart, partEnd, resetIdx_eq]
    · rw [responded]
      simp [Pe.observeStart, drained.depthBuffer0]
    · rw [responded]
      simp
  · simp [foundVertices]
  · rw [open']
    rfl
  · rw [open']
    simp [Pe.observeStart, searching]

theorem PartHolds.asked_all {i : Part} (part : PartHolds g isLevel level pe h i)
    (finished : first g i + (h.popped i).length = partEnd g i) :
    Contiguous (first g i) (h.asked i) (partEnd g i) := by
  obtain ⟨next, _, chunks, pending, left⟩ := part.requests
  have bound := InspectStage.Contiguous.le pending
  have count := congrArg List.length part.bytes
  simp only [List.length_map, List.length_append] at count
  obtain rfl : next = partEnd g i := by omega
  exact chunks

theorem Holds.tiles (holds : Holds g isLevel level pe h)
    (all : pe.allAnalyzed (Gl.layout g) = true) :
    Contiguous 0 ((List.finRange 4).flatMap h.asked) g.vertexNum := by
  have finished := holds.allAnalyzed.mp all
  have chunks := fun i => (holds.parts i).asked_all (finished i)
  have next : ∀ i j : Part, i.val + 1 = j.val → partEnd g i = first g j := by
    intro i j follows
    have last := j.isLt
    rw [partEnd_eq, if_pos (by omega), follows]
    rfl
  have start : first g 0 = 0 := Nat.zero_mul _
  have stop : partEnd g 3 = g.vertexNum := partEnd_eq 3
  have parts : (List.finRange 4).flatMap h.asked =
      h.asked 0 ++ (h.asked 1 ++ (h.asked 2 ++ h.asked 3)) := by
    simp [List.finRange_succ]
  rw [parts, ← start, ← stop]
  exact (chunks 0).trans (next 0 1 rfl ▸ (chunks 1).trans (next 1 2 rfl ▸ (chunks 2).trans
    (next 2 3 rfl ▸ chunks 3)))

theorem mem_foundVertices {v : Nat} : v ∈ foundVertices g isLevel h ↔
    isLevel v = true ∧ ∃ i, first g i ≤ v ∧ v < first g i + (h.popped i).length := by
  simp only [foundVertices, List.mem_flatMap, List.mem_finRange, true_and, List.mem_filter,
    List.mem_range'_1]
  exact ⟨fun ⟨i, inside, level⟩ => ⟨level, i, inside⟩, fun ⟨level, i, inside⟩ => ⟨i, inside, level⟩⟩

theorem Holds.popped_le (holds : Holds g isLevel level pe h) (i : Part) :
    first g i + (h.popped i).length ≤ partEnd g i := by
  have bound := (holds.parts i).answered_le
  have count := congrArg List.length (holds.parts i).bytes
  simp only [List.length_map, List.length_append] at count
  omega

theorem Holds.foundVertices_nodup (holds : Holds g isLevel level pe h) :
    (foundVertices g isLevel h).Nodup := by
  refine List.nodup_flatMap.mpr ⟨fun i _ => List.Nodup.filter _ (List.nodup_range' ..), ?_⟩
  refine (List.nodup_finRange 4).pairwise_of_forall_ne fun i _ j _ different => ?_
  intro v inFirst inSecond
  have first := List.mem_range'_1.mp (List.mem_of_mem_filter inFirst)
  have second := List.mem_range'_1.mp (List.mem_of_mem_filter inSecond)
  have firstEnd := holds.popped_le i
  have secondEnd := holds.popped_le j
  rcases lt_or_gt_of_ne different with before | before
  · have := partEnd_le_first (g := g) before
    omega
  · have := partEnd_le_first (g := g) before
    omega

theorem Holds.sound (holds : Holds g isLevel level pe h) {vidx : Int} (found : vidx ∈ h.found) :
    ∃ v : Nat, v < g.vertexNum ∧ isLevel v = true ∧ vidx = v := by
  obtain ⟨v, member, rfl⟩ := List.mem_map.mp (holds.found.mem_iff.mp found)
  obtain ⟨level, i, _, inside⟩ := mem_foundVertices.mp member
  have := holds.popped_le i
  have := partEnd_le (g := g) i
  exact ⟨v, by omega, level, rfl⟩

theorem exists_part {v : Nat} (bound : v < g.vertexNum) :
    ∃ i, first g i ≤ v ∧ v < partEnd g i := by
  by_cases inner : v < 3 * (g.vertexNum / 4)
  · have quotient : v / (g.vertexNum / 4) < 3 := Nat.div_lt_of_lt_mul (by rwa [Nat.mul_comm])
    refine ⟨⟨v / (g.vertexNum / 4), by omega⟩, Nat.div_mul_le_self _ _, ?_⟩
    rw [partEnd_eq, if_pos quotient]
    exact Nat.lt_mul_of_div_lt (Nat.lt_succ_self _) (by omega)
  · refine ⟨3, by show 3 * (g.vertexNum / 4) ≤ v; omega, ?_⟩
    rw [partEnd_eq, if_neg (by decide)]
    exact bound

theorem Holds.complete (holds : Holds g isLevel level pe h)
    (all : pe.allAnalyzed (Gl.layout g) = true) {v : Nat} (bound : v < g.vertexNum)
    (level : isLevel v = true) : (v : Int) ∈ h.found := by
  obtain ⟨i, least, inside⟩ := exists_part bound
  have member : v ∈ foundVertices g isLevel h :=
    mem_foundVertices.mpr ⟨level, i, least, by rwa [holds.allAnalyzed.mp all i]⟩
  exact holds.found.mem_iff.mpr (List.mem_map.mpr ⟨v, member, rfl⟩)

theorem Holds.bfsDone_iff (holds : Holds g isLevel level pe h) :
    pe.bfsDone = true ↔ pe.allAnalyzed (Gl.layout g) = true ∧
      ∀ v, v < g.vertexNum → ¬ isLevel v = true := by
  rw [holds.done]
  refine and_congr_right fun all => ⟨fun empty v bound level => ?_, fun none => ?_⟩
  · have found := holds.complete all bound level
    rw [empty] at found
    cases found
  · refine List.eq_nil_iff_forall_not_mem.mpr fun vidx found => ?_
    obtain ⟨v, bound, level, _⟩ := holds.sound found
    exact none v bound level

theorem Holds.all_popped (holds : Holds g isLevel level pe h) :
    pe.allAnalyzed (Gl.layout g) = true ↔
      ((List.finRange 4).map fun i => (h.popped i).length).sum = g.vertexNum := by
  have sum : ((List.finRange 4).map fun i => (h.popped i).length).sum =
      (h.popped 0).length + ((h.popped 1).length + ((h.popped 2).length +
        (h.popped 3).length)) := by
    simp [List.finRange_succ]
  have ends : partEnd g 0 = g.vertexNum / 4 ∧ partEnd g 1 = 2 * (g.vertexNum / 4) ∧
      partEnd g 2 = 3 * (g.vertexNum / 4) ∧ partEnd g 3 = g.vertexNum :=
    ⟨(partEnd_eq 0).trans (Nat.one_mul _), partEnd_eq 1, partEnd_eq 2, partEnd_eq 3⟩
  have starts : first g 0 = 0 ∧ first g 1 = g.vertexNum / 4 ∧
      first g 2 = 2 * (g.vertexNum / 4) ∧ first g 3 = 3 * (g.vertexNum / 4) :=
    ⟨Nat.zero_mul _, Nat.one_mul _, rfl, rfl⟩
  have bound0 := holds.popped_le 0
  have bound1 := holds.popped_le 1
  have bound2 := holds.popped_le 2
  have bound3 := holds.popped_le 3
  rw [holds.allAnalyzed, sum]
  refine ⟨fun all => ?_, fun total i => ?_⟩
  · have all0 := all 0
    have all1 := all 1
    have all2 := all 2
    have all3 := all 3
    omega
  · match i with
    | 0 => omega
    | 1 => omega
    | 2 => omega
    | 3 => omega

end Steps

section Runs

variable {g : Graph} {start pe : Pe} {h : History}

/-- The inspection from the start of a level: the chunks tile the depths, the k-th byte
that a partition analyses is the depth of its k-th vertex, every vertex of the level is
found once, and the search ends exactly when there is none. -/
theorem inspection_run (vertices : 0 < g.vertexNum) (drained : start.Drained (Gl.layout g))
    (consistent : start.Consistent) (searching : start.bfsDone = false)
    (run : Relation.ReflTransGen (Step g) (start.observeStart (Gl.layout g), {}) (pe, h)) :
    (∀ i : Part, ∃ last, Contiguous (i.val * (g.vertexNum / 4)) (h.asked i) last ∧
      last ≤ partEnd g i) ∧
    (pe.allAnalyzed (Gl.layout g) = true →
      Contiguous 0 ((List.finRange 4).flatMap h.asked) g.vertexNum) ∧
    (∀ (i : Part) (k : Nat) (d : Byte), (h.popped i)[k]? = some d →
      (h.answers i)[k]? = some (i.val * (g.vertexNum / 4) + k, d) ∧
        (d = start.level ↔
          start.ramData[i.val * (g.vertexNum / 4) + k]? = some start.level)) ∧
    h.found.Nodup ∧
    (∀ vidx ∈ h.found, ∃ v : Nat, v < g.vertexNum ∧ start.ramData[v]? = some start.level ∧
      vidx = v) ∧
    (pe.allAnalyzed (Gl.layout g) = true → ∀ v : Nat, v < g.vertexNum →
      start.ramData[v]? = some start.level → (v : Int) ∈ h.found) ∧
    (pe.allAnalyzed (Gl.layout g) = true ↔
      ((List.finRange 4).map fun i => (h.popped i).length).sum = g.vertexNum) ∧
    (pe.bfsDone = true ↔ pe.allAnalyzed (Gl.layout g) = true ∧
      ∀ v, v < g.vertexNum → start.ramData[v]? ≠ some start.level) := by
  have holds : Holds g (fun v => start.ramData[v]? == some start.level) start.level pe h :=
    (holds_observeStart vertices drained consistent searching).run run
  refine ⟨fun i => ?_, holds.tiles, fun i k d popped => ?_, ?_, fun vidx found => ?_,
    fun all v bound level => holds.complete all bound (beq_iff_eq.mpr level), holds.all_popped, ?_⟩
  · obtain ⟨next, _, chunks, _, left⟩ := (holds.parts i).requests
    exact ⟨next, chunks, by omega⟩
  · have present : (h.popped i ++ pe.depthBuffer0 i)[k]? = some d := by
      rw [List.getElem?_append_left (List.getElem?_eq_some_iff.mp popped).1, popped]
    obtain ⟨answered, _, level⟩ := (holds.parts i).get present
    exact ⟨answered, level.trans beq_iff_eq⟩
  · refine holds.found.nodup_iff.mpr (List.Nodup.map (fun v w same => ?_) holds.foundVertices_nodup)
    exact Int.ofNat.inj same
  · obtain ⟨v, bound, level, same⟩ := holds.sound found
    exact ⟨v, bound, beq_iff_eq.mp level, same⟩
  · simpa only [beq_iff_eq, ne_eq] using holds.bfsDone_iff

def hubInspection : List Choice :=
  [.resume (.issueInspectDepthReadReq 3), .resume (.issueInspectDepthReadReq 3),
    .resume .sendMemReq, .answer 3, .resume .getMemResp, .resume (.processInspectDepthReadResp 3),
    .resume (.processInspectDepthReadResp 3), .resume .inspectDepthAnalysis,
    .resume .inspectDepthAnalysis]

/-- A run of reads only has its histories. -/
theorem exists_history (consistent : start.Consistent) (reading : start.Reading)
    (moves : Relation.ReflTransGen (fun pe after => pe.Consistent → pe.Reading →
      after.Consistent ∧ after.Reading ∧ ∀ h, ∃ h', Step g (pe, h) (after, h')) start pe) :
    ∃ h, Relation.ReflTransGen (Step g) (start, {}) (pe, h) := by
  suffices both : pe.Consistent ∧ pe.Reading ∧
      ∃ h, Relation.ReflTransGen (Step g) (start, {}) (pe, h) from both.2.2
  induction moves with
  | refl => exact ⟨consistent, reading, _, .refl⟩
  | tail _ moved inductionHypothesis =>
      obtain ⟨consistent, reading, h, run⟩ := inductionHypothesis
      obtain ⟨consistent', reading', histories⟩ := moved consistent reading
      obtain ⟨h', stepped⟩ := histories h
      exact ⟨consistent', reading', h', run.tail stepped⟩

theorem inspection_run_hub : ∃ (pe : Pe) (h : History),
    pe.allAnalyzed (Gl.layout hub) = true ∧
      Contiguous 0 ((List.finRange 4).flatMap h.asked) 2 ∧ (0 : Int) ∈ h.found ∧
      pe.bfsDone ≠ true := by
  obtain ⟨ram0, _, _, _, backs⟩ := hub_backed
  have drained := Pe.drained_reset (Gl.layout hub) hubRam
  have consistent := Pe.reset_consistent (Gl.layout hub) hubRam
  have level : hubRam[0]? = some 0 := backs 0 0 rfl
  have finished : (replay (Gl.layout hub) (fun _ _ => true) hubInspection
      (hubKnown, (Pe.reset (Gl.layout hub) hubRam).observeStart (Gl.layout hub))).map
        (·.2.allAnalyzed (Gl.layout hub)) = some true := by
    decide +kernel
  rw [Option.map_eq_some_iff] at finished
  obtain ⟨⟨known, pe⟩, ran, all⟩ := finished
  have start := holds_observeStart (by decide) drained consistent rfl
  obtain ⟨moves, _⟩ := @replay_run (Gl.layout hub) (fun _ _ => true) hubKnown known
    ((Pe.reset (Gl.layout hub) hubRam).observeStart (Gl.layout hub)) pe
    (fun pe after => pe.Consistent → pe.Reading →
      after.Consistent ∧ after.Reading ∧ ∀ h, ∃ h', Step hub (pe, h) (after, h')) hubInspection
    (fun thread member pe after delay resumes _ consistent reading => by
      have other : thread ≠ .bfsController := by
        rintro rfl
        exact absurd member (by decide)
      exact ⟨(Pe.resume_refines consistent other resumes).consistent,
        reading.resume consistent other resumes, fun h => ⟨_, .resume other resumes⟩⟩)
    (fun i member pe after answers consistent reading => by
      have reads : i ≠ 7 := by
        rintro rfl
        exact absurd member (by decide)
      have same := (reading.answer_read consistent reads answers).1
      exact ⟨(Pe.answer_lines consistent answers).1, reading.answer consistent answers,
        fun h => ⟨_, .answer answers fun v _ => by rw [same]⟩⟩) backs ran
  obtain ⟨h, run⟩ := exists_history start.consistent start.reading moves
  obtain ⟨_, tiles, _, _, _, complete, _, done⟩ :=
    inspection_run (by decide) drained consistent rfl run
  exact ⟨pe, h, all, tiles all, complete all 0 (by decide) level,
    fun ended => (done.mp ended).2 0 (by decide) level⟩

end Runs

end Inspection

end GraphAccelerator
