import GraphAccelerator.Library.Queue
import GraphAccelerator.Accelerator.LevelRefinement
import GraphAccelerator.Accelerator.Lines

/-!
# What belongs together by position

A vertex, its row pointers, its columns and their depths go through different buffers
and ports, and only their positions say which of them belong together.  The histories
of the buffers and of the answers of the memory make that precise: from a drained state
on, in every order of the threads and with every delay of the memory, nothing is lost
or inserted on the way.

The arrays are read as if all vertices were of one level, so that the stages of a level
can be used for vertices of any depth.
-/

namespace GraphAccelerator

open Memory Queues Bfs LevelPass

namespace Pairing

/-- What has passed the stages of the expansion: the vertices that left
`frontierBuffer`, the columns that entered `ciaoBuffer`, what left `vidxBuffer` and
`depthBuffer1`, and the address and the byte of every depth the memory answered. -/
structure History where
  frontier : List Int := []
  ciao : List Int := []
  vidx : List Int := []
  depth : List Byte := []
  answers : List (Nat × Byte) := []

namespace History

def resume (before after : Pe) (h : History) : History where
  frontier := h.frontier ++ taken before.frontierBuffer after.frontierBuffer
  ciao := h.ciao ++ appended before.ciaoBuffer after.ciaoBuffer
  vidx := h.vidx ++ taken before.vidxBuffer after.vidxBuffer
  depth := h.depth ++ taken before.depthBuffer1 after.depthBuffer1
  answers := h.answers

def nextAnswer (pe : Pe) : Option (Nat × Byte) := do
  let op ← (pe.sent 6).head?.bind (pe.bursts[·]?)
  let byte ← pe.ramData[op.addr]?
  return (op.addr, byte)

def answer (i : Port) (before : Pe) (h : History) : History :=
  if i = 6 then { h with answers := h.answers ++ (nextAnswer before).toList } else h

end History

/-- A segment of any thread, in which an inspection only finds vertices, or an answer of
the memory. -/
inductive Step (g : Graph) : Pe × History → Pe × History → Prop
  | resume {pe after : Pe} {h : History} {thread : PeThread} {delay : Nat} :
      pe.resume (Gl.layout g) thread = some (after, delay) →
      (∀ vidx ∈ appended pe.frontierBuffer after.frontierBuffer,
        ∃ v : Nat, v < g.vertexNum ∧ vidx = v) →
      Step g (pe, h) (after, h.resume pe after)
  | answer {pe after : Pe} {h : History} {i : Port} :
      pe.answer i = some after → Step g (pe, h) (after, h.answer i pe)

/-! ### Vertices and columns -/

section Definitions

variable (g : Graph) (edge : Nat → Nat → Prop) (out : Nat → List Nat) (image : List Byte)

structure VertexPart (pe : Pe) (h : History) (done frontier asked rows : List Nat) : Prop where
  stage : VertexStage g image 0 pe.frontierBuffer (pe.line 4).spans pe.rpaoBuffer frontier
    asked rows
  answered : ∀ op ∈ (pe.line 4).responded, Observes g edge image 0 image op
  popped : h.frontier = (done ++ rows ++ asked).map Int.ofNat

structure ColumnPart (pe : Pe) (h : History) (done row : List Nat) (asked : List (List Nat))
    (columns : List Nat) : Prop where
  stage : ColumnStage g edge image 0 (pe.pipeline (Gl.layout g)).row (pe.line 5).spans
    pe.ciaoBuffer row asked columns
  answered : ∀ op ∈ (pe.line 5).responded, Observes g edge image 0 image op
  appended : h.ciao ++ (asked.flatten ++ row).map Int.ofNat = (done.flatMap out).map Int.ofNat

/-- Both parts agree on the vertices whose row was taken. -/
def Expansion (pe : Pe) (h : History) : Prop :=
  ∃ done frontier asked rows row chunks columns,
    VertexPart g edge image pe h done frontier asked rows ∧
      ColumnPart g edge out image pe h done row chunks columns

structure DepthPart (pe : Pe) (h : History) (read asked : List Nat) (popped : List (Nat × Byte)) :
    Prop where
  vidxBuffer : pe.vidxBuffer = (read ++ asked).map Int.ofNat
  spans : (pe.line 6).spans = asked.map fun v => (v, 1)
  bound : ∀ v ∈ popped.map Prod.fst ++ (read ++ asked), v < g.vertexNum
  depths : pe.depthBuffer1.length = read.length
  single : ∀ op ∈ (pe.line 6).responded, ∃ byte, op.data = [byte]
  vidx : h.vidx = popped.map fun pair => (pair.1 : Int)
  depth : h.depth = popped.map Prod.snd
  answers : h.answers = popped ++ read.zip pe.depthBuffer1 ++
    (pe.line 6).responded.map fun op => (op.addr, op.data.headD 0)

end Definitions

section Expansion

variable {g : Graph} {edge : Nat → Nat → Prop} {out inn : Nat → List Nat} {image : List Byte}
variable {pe mid after : Pe} {h h' : History} {delay : Nat}
variable {done frontier asked rows row columns : List Nat} {chunks : List (List Nat)}

theorem VertexPart.moved (part : VertexPart g edge image pe h done frontier asked rows)
    (frontierBuffer : after.frontierBuffer = pe.frontierBuffer)
    (rpaoBuffer : after.rpaoBuffer = pe.rpaoBuffer) (line : (pe.line 4).Same (after.line 4))
    (popped : h'.frontier = h.frontier) :
    VertexPart g edge image after h' done frontier asked rows where
  stage := by
    rw [frontierBuffer, rpaoBuffer, line.spans]
    exact part.stage
  answered := by
    rw [line.responded]
    exact part.answered
  popped := popped.trans part.popped

theorem ColumnPart.moved (part : ColumnPart g edge out image pe h done row chunks columns)
    (ciaoReq : after.ciaoReq = pe.ciaoReq) (ciaoBuffer : after.ciaoBuffer = pe.ciaoBuffer)
    (line : (pe.line 5).Same (after.line 5)) (appended : h'.ciao = h.ciao) :
    ColumnPart g edge out image after h' done row chunks columns where
  stage := by
    have rest : (after.pipeline (Gl.layout g)).row = (pe.pipeline (Gl.layout g)).row := by
      simp only [Pe.pipeline, ciaoReq]
    rw [rest, ciaoBuffer, line.spans]
    exact part.stage
  answered := by
    rw [line.responded]
    exact part.answered
  appended := by
    rw [appended]
    exact part.appended

theorem VertexPart.push (part : VertexPart g edge image pe h done frontier asked rows)
    {vertices : List Nat} (level : ∀ v ∈ vertices, depthByte g image v = 0)
    (buffer : after.frontierBuffer = pe.frontierBuffer ++ vertices.map Int.ofNat)
    (rpaoBuffer : after.rpaoBuffer = pe.rpaoBuffer) (line : (pe.line 4).Same (after.line 4))
    (popped : h'.frontier = h.frontier) :
    VertexPart g edge image after h' done (frontier ++ vertices) asked rows where
  stage := by
    rw [buffer, rpaoBuffer, line.spans]
    refine ⟨by rw [part.stage.buffer, List.map_append], part.stage.spans, part.stage.pointers,
      fun v membership => ?_⟩
    simp only [List.mem_append] at membership
    rcases membership with ((old | new) | old) | old
    · exact part.stage.level v (by simp [old])
    · exact level v new
    · exact part.stage.level v (by simp [old])
    · exact part.stage.level v (by simp [old])
  answered := by
    rw [line.responded]
    exact part.answered
  popped := popped.trans part.popped

theorem spans_created {i : Port} {op : BurstOp} (indexed : mid.Indexed)
    (free : mid.creating i = none) (port : op.portIdx = i) :
    ((mid.created i op).line i).spans = (mid.line i).spans ++ [(op.addr, op.length)] := by
  obtain ⟨_, _, responded, pending⟩ := Pe.created_lines indexed free port
  rw [Line.spans_eq, Line.spans_eq, responded, pending, List.map_append, List.append_assoc]
  rfl

theorem VertexPart.frontierAnalysis
    (part : VertexPart g edge image pe h done frontier asked rows) (consistent : pe.Consistent)
    (ran : pe.frontierAnalysis (Gl.layout g) = some (after, delay)) :
    ∃ frontier asked, VertexPart g edge image after (h.resume pe after) done frontier asked
      rows := by
  obtain ⟨_, mid, settled, looped⟩ := Pe.frontierAnalysis_cases ran
  have ⟨indexed, lines⟩ := settled.lines consistent.indexed
  have buffers : mid.frontierBuffer = pe.frontierBuffer ∧ mid.rpaoBuffer = pe.rpaoBuffer := by
    cases settled <;> exact ⟨rfl, rfl⟩
  obtain ⟨frontierBuffer, rpaoBuffer⟩ := buffers
  have unchanged : after = mid → ∃ frontier asked,
      VertexPart g edge image after (h.resume pe after) done frontier asked rows := by
    rintro rfl
    exact ⟨frontier, asked, part.moved frontierBuffer rpaoBuffer (lines 4)
      (by simp [History.resume, frontierBuffer])⟩
  cases looped with
  | empty _ => exact unchanged rfl
  | full _ _ => exact unchanged rfl
  | @asked vidx rest op buffer _ asks port _ =>
      have stage := part.stage
      rw [← frontierBuffer, buffer] at stage
      obtain ⟨u, others, rfl, next⟩ := stage.ask asks
      have head := stage.buffer
      rw [List.map_cons, List.cons.injEq] at head
      have spans := @spans_created { mid with frontierBuffer := rest } 4 op indexed settled.free
        port
      refine ⟨others, asked ++ [u], ?_, ?_, ?_⟩
      · rw [spans]
        show VertexStage g image 0 rest ((mid.line 4).spans ++ _) mid.rpaoBuffer _ _ _
        rw [(lines 4).spans, rpaoBuffer]
        exact next
      · have responded := (@Pe.created_lines { mid with frontierBuffer := rest } 4 indexed
          settled.free op port).2.2.1
        rw [responded]
        show ∀ op ∈ (mid.line 4).responded, _
        rw [(lines 4).responded]
        exact part.answered
      · show h.frontier ++ taken pe.frontierBuffer rest = _
        rw [← frontierBuffer, buffer, taken_cons, part.popped, head.1]
        simp

theorem VertexPart.processExpandRpaoReadResp
    (setting : Setting g edge out inn image 0)
    (part : VertexPart g edge image pe h done frontier asked rows) (consistent : pe.Consistent)
    (ran : pe.processExpandRpaoReadResp = some (after, delay)) :
    ∃ asked rows, VertexPart g edge image after (h.resume pe after) done frontier asked
      rows := by
  have popped := (Pe.processExpandRpaoReadResp_frame ran).frontierBuffer nofun nofun
  cases Pe.respThread_cases ran with
  | polled _ awaited =>
      refine ⟨asked, rows, part.moved popped ?_ (.of_eq (by rw [awaited.line_eq]))
        (by simp [History.resume, popped])⟩
      cases awaited <;> rfl
  | @stored burstIdx op stored _ _ transfer present copied awaited =>
      obtain ⟨words, converted, rfl⟩ := Pe.storeRpao_cases copied
      obtain ⟨_, _, responded, pending⟩ := Pe.popped_lines consistent.indexed transfer present
      have line : after.line 4 = (pe.popped 4 burstIdx).line 4 := by
        rw [awaited.line_eq]
      have spans : (pe.line 4).spans = (op.addr, op.length) :: (after.line 4).spans := by
        rw [Line.spans_eq, Line.spans_eq, responded, line, pending]
        rfl
      have buffer : after.rpaoBuffer = pe.rpaoBuffer ++ words := by cases awaited <;> rfl
      have stage := part.stage
      rw [spans] at stage
      obtain ⟨u, others, rfl, next⟩ :=
        stage.store setting (part.answered op (by simp [responded])) converted
      refine ⟨others, rows ++ [u], ?_, ?_, ?_⟩
      · rw [popped, buffer]
        exact next
      · intro other membership
        refine part.answered other ?_
        rw [responded, ← line]
        exact List.mem_cons_of_mem _ membership
      · show h.frontier ++ _ = _
        rw [popped, taken_self, part.popped]
        simp

/-- Row pointers are taken until a vertex has a column to ask for; the induction is on
the rows. -/
theorem expansion_ciaoLoop (setting : Setting g edge out inn image 0)
    (looped : Pe.CiaoLoop (Gl.layout g) mid after) (indexed : mid.Indexed)
    (free : mid.creating 5 = none) (outside : mid.ciaoReq.actualLen = 0)
    (expansion : Expansion g edge out image mid h) : Expansion g edge out image after h := by
  induction looped with
  | empty _ _ => exact expansion
  | full _ _ => exact expansion
  | @row pe _ srcIdx dstIdx rest finished buffer _ inductionHypothesis =>
      obtain ⟨done, frontier, asked, rows, row, chunks, columns, vertex, column⟩ := expansion
      have stage := vertex.stage
      rw [buffer] at stage
      obtain ⟨u, others, rfl, level, next, stored⟩ := stage.take setting
      have left : (pe.pipeline (Gl.layout g)).row.left = 0 := by
        simp only [Pe.pipeline, outside]
        omega
      obtain ⟨rfl, loaded⟩ := column.stage.load left stored fun v neighbour =>
        ⟨u, level, (setting.rep.mem_out u v).mp neighbour⟩
      refine inductionHypothesis indexed free rfl ⟨done ++ [u], frontier, asked, others, out u,
        chunks, columns, ⟨next, vertex.answered, ?_⟩, ?_, column.answered, ?_⟩
      · rw [vertex.popped]
        simp
      · have rest : ((pe.takenRow (Gl.layout g) srcIdx dstIdx rest).pipeline (Gl.layout g)).row =
            ⟨(Gl.layout g).ciaoMemAddr + srcIdx * 4, (4 * (dstIdx - srcIdx)).toNat⟩ := by
          simp [Pe.pipeline, Pe.takenRow]
        rw [rest]
        exact loaded
      · have appended := column.appended
        rw [List.append_nil] at appended
        rw [List.flatMap_append, List.map_append, List.map_append, ← appended]
        simp
  | @asked pe op more _ asks port _ =>
      obtain ⟨done, frontier, asked, rows, row, chunks, columns, vertex, column⟩ := expansion
      have rest : (pe.pipeline (Gl.layout g)).row =
          ⟨pe.ciaoReq.ciaoMemAddr, pe.ciaoReq.maxLen - pe.ciaoReq.len⟩ := by
        simp [Pe.pipeline, outside]
      have stage := column.stage
      rw [rest] at stage
      obtain ⟨m, next⟩ := stage.ask rfl asks
      let asking : Pe := { pe with ciaoReq := { pe.ciaoReq with actualLen := pe.ciaoLen } }
      obtain ⟨_, others, responded, _⟩ := @Pe.created_lines asking 5 indexed free op port
      refine ⟨done, frontier, asked, rows, row.drop m, chunks ++ [row.take m], columns,
        vertex.moved rfl rfl (.of_eq (others 4 (by decide))) rfl, ?_, ?_, ?_⟩
      · have rest : ((asking.created 5 op).pipeline (Gl.layout g)).row =
            ⟨pe.ciaoReq.ciaoMemAddr + pe.ciaoLen,
              pe.ciaoReq.maxLen - pe.ciaoReq.len - pe.ciaoLen⟩ := by
          simp [Pe.pipeline, Pe.created, asking, Nat.sub_sub]
        rw [rest, @spans_created asking 5 op indexed free port]
        exact next
      · rw [responded]
        exact column.answered
      · rw [← column.appended]
        simp only [List.flatten_append, List.flatten_singleton, List.append_assoc,
          List.take_append_drop]

theorem Expansion.issueExpandCiaoReadReq (setting : Setting g edge out inn image 0)
    (expansion : Expansion g edge out image pe h) (consistent : pe.Consistent)
    (ran : pe.issueExpandCiaoReadReq (Gl.layout g) = some (after, delay)) :
    Expansion g edge out image after (h.resume pe after) := by
  have frame := Pe.issueExpandCiaoReadReq_frame ran
  have frontier : (h.resume pe after).frontier = h.frontier := by
    simp [History.resume, frame.frontierBuffer]
  have ciao : (h.resume pe after).ciao = h.ciao := by
    simp [History.resume, frame.ciaoBuffer]
  obtain ⟨_, mid, settled, looped⟩ := Pe.issueExpandCiaoReadReq_cases ran
  have ⟨indexed, lines⟩ := settled.lines consistent.indexed
  obtain ⟨done, frontier', asked, rows, row, chunks, columns, vertex, column⟩ := expansion
  have settledExpansion : Expansion g edge out image mid (h.resume pe after) := by
    refine ⟨done, frontier', asked, rows, row, chunks, columns,
      vertex.moved ?_ ?_ (lines 4) frontier, ?_, ?_, ?_⟩
    · cases settled <;> rfl
    · cases settled <;> rfl
    · have rest : (mid.pipeline (Gl.layout g)).row = (pe.pipeline (Gl.layout g)).row := by
        cases settled <;> simp [Pe.pipeline]
      have buffer : mid.ciaoBuffer = pe.ciaoBuffer := by cases settled <;> rfl
      rw [rest, buffer, (lines 5).spans]
      exact column.stage
    · rw [(lines 5).responded]
      exact column.answered
    · rw [ciao]
      exact column.appended
  refine expansion_ciaoLoop setting looped indexed settled.free ?_ settledExpansion
  cases settled with
  | idle free => exact consistent.ciao free
  | pushed _ => rfl

theorem ColumnPart.processExpandCiaoReadResp (setting : Setting g edge out inn image 0)
    (part : ColumnPart g edge out image pe h done row chunks columns) (consistent : pe.Consistent)
    (ran : pe.processExpandCiaoReadResp = some (after, delay)) :
    ∃ chunks columns, ColumnPart g edge out image after (h.resume pe after) done row chunks
      columns := by
  have ciaoReq := (Pe.processExpandCiaoReadResp_frame ran).ciaoReq nofun
  cases Pe.respThread_cases ran with
  | polled _ awaited =>
      have buffer : after.ciaoBuffer = pe.ciaoBuffer := by cases awaited <;> rfl
      exact ⟨chunks, columns, part.moved ciaoReq buffer (.of_eq (by rw [awaited.line_eq]))
        (by simp [History.resume, buffer])⟩
  | @stored burstIdx op stored _ _ transfer present copied awaited =>
      obtain ⟨words, converted, rfl⟩ := Pe.storeCiao_cases copied
      obtain ⟨_, _, responded, pending⟩ := Pe.popped_lines consistent.indexed transfer present
      have line : after.line 5 = (pe.popped 5 burstIdx).line 5 := by
        rw [awaited.line_eq]
      have spans : (pe.line 5).spans = (op.addr, op.length) :: (after.line 5).spans := by
        rw [Line.spans_eq, Line.spans_eq, responded, line, pending]
        rfl
      have buffer : after.ciaoBuffer = pe.ciaoBuffer ++ words := by cases awaited <;> rfl
      have rest : (after.pipeline (Gl.layout g)).row = (pe.pipeline (Gl.layout g)).row := by
        simp only [Pe.pipeline, ciaoReq]
      have stage := part.stage
      rw [spans] at stage
      obtain ⟨chunk, others, rfl, next⟩ :=
        stage.store setting (part.answered op (by simp [responded])) converted
      have read : words = chunk.map Int.ofNat := by
        have appended := next.buffer
        rw [part.stage.buffer, List.map_append] at appended
        exact List.append_cancel_left appended
      refine ⟨others, columns ++ chunk, ?_, ?_, ?_⟩
      · rw [rest, buffer]
        exact next
      · intro other membership
        refine part.answered other ?_
        rw [responded, ← line]
        exact List.mem_cons_of_mem _ membership
      · rw [← part.appended]
        show h.ciao ++ Queues.appended pe.ciaoBuffer after.ciaoBuffer ++ _ = _
        rw [buffer, appended_append, read]
        simp

theorem ColumnPart.issueExpandDepthReadReq
    (part : ColumnPart g edge out image pe h done row chunks columns) (consistent : pe.Consistent)
    (ran : pe.issueExpandDepthReadReq (Gl.layout g) = some (after, delay)) :
    ∃ columns, ColumnPart g edge out image after (h.resume pe after) done row chunks columns := by
  have ciaoReq := (Pe.issueExpandDepthReadReq_frame ran).ciaoReq nofun
  obtain ⟨_, mid, settled, looped⟩ := Pe.issueExpandDepthReadReq_cases ran
  have ⟨indexed, lines⟩ := settled.lines consistent.indexed
  have ciaoBuffer : mid.ciaoBuffer = pe.ciaoBuffer := by cases settled <;> rfl
  have unchanged : after = mid →
      ColumnPart g edge out image after (h.resume pe after) done row chunks columns := by
    rintro rfl
    exact part.moved ciaoReq ciaoBuffer (lines 5) (by simp [History.resume, ciaoBuffer])
  cases looped with
  | empty _ => exact ⟨columns, unchanged rfl⟩
  | full _ => exact ⟨columns, unchanged rfl⟩
  | @asked vidx rest op buffer _ _ port _ =>
      let asking : Pe := { mid with vidxBuffer := mid.vidxBuffer ++ [vidx], ciaoBuffer := rest }
      have other := (@Pe.created_lines asking 6 indexed settled.free op port).2.1 5 (by decide)
      have line : (pe.line 5).Same ((asking.created 6 op).line 5) :=
        (lines 5).trans (.of_eq other)
      have stage := part.stage
      rw [← ciaoBuffer, buffer] at stage
      obtain ⟨v, others, rfl, _, _, next⟩ := stage.take
      have row : ((asking.created 6 op).pipeline (Gl.layout g)).row =
          (pe.pipeline (Gl.layout g)).row := by
        have same : (asking.created 6 op).ciaoReq = pe.ciaoReq := ciaoReq
        simp only [Pe.pipeline, same]
      refine ⟨others, ?_, ?_, ?_⟩
      · rw [row, line.spans]
        exact next
      · rw [line.responded]
        exact part.answered
      · rw [← part.appended]
        show h.ciao ++ Queues.appended pe.ciaoBuffer rest ++ _ = _
        rw [← ciaoBuffer, buffer, appended_cons, List.append_nil]

def Finds (g : Graph) (pe after : Pe) : Prop :=
  ∀ vidx ∈ appended pe.frontierBuffer after.frontierBuffer, ∃ v : Nat, v < g.vertexNum ∧ vidx = v

theorem VertexPart.inspectDepthAnalysis
    (levelled : ∀ v, v < g.vertexNum → depthByte g image v = 0)
    (part : VertexPart g edge image pe h done frontier asked rows)
    (ran : pe.inspectDepthAnalysis (Gl.layout g) = some (after, delay))
    (finds : Finds g pe after) :
    ∃ frontier, VertexPart g edge image after (h.resume pe after) done frontier asked rows := by
  obtain ⟨more, buffer⟩ := Pe.inspectDepthAnalysis_appends ran
  rw [Finds, buffer, appended_append] at finds
  have vertices : more = (more.map Int.toNat).map Int.ofNat := by
    have same : more.map (Int.ofNat ∘ Int.toNat) = more.map id :=
      List.map_congr_left fun vidx found => by
        obtain ⟨v, _, rfl⟩ := finds vidx found
        rfl
    rw [List.map_map, same, List.map_id]
  refine ⟨frontier ++ more.map Int.toNat, part.push (fun v membership => ?_) ?_ ?_ ?_ ?_⟩
  · obtain ⟨vidx, found, rfl⟩ := List.mem_map.mp membership
    obtain ⟨v, bound, rfl⟩ := finds vidx found
    exact levelled v bound
  · rw [← vertices, buffer]
  · exact (Pe.inspectDepthAnalysis_frame ran).rpaoBuffer nofun nofun
  · exact .of_eq (by rw [Pe.inspectDepthAnalysis_queues ran])
  · simp [History.resume, buffer]

/-- Only the inspection and the threads of the expansion touch its stages. -/
theorem Expansion.resume (setting : Setting g edge out inn image 0)
    (levelled : ∀ v, v < g.vertexNum → depthByte g image v = 0) {thread : PeThread}
    (expansion : Expansion g edge out image pe h) (consistent : pe.Consistent)
    (controller : thread ≠ .bfsController)
    (ran : pe.resume (Gl.layout g) thread = some (after, delay)) (finds : Finds g pe after) :
    Expansion g edge out image after (h.resume pe after) := by
  have frame := Pe.resume_frame controller ran
  have lines := fun j => @Pe.resume_lines _ _ _ _ _ consistent controller ran j
  by_cases takesRows : thread = .issueExpandCiaoReadReq
  · subst takesRows
    exact expansion.issueExpandCiaoReadReq setting consistent ran
  obtain ⟨done, frontier, asked, rows, row, chunks, columns, vertex, column⟩ := expansion
  have vertexPart : ∃ frontier asked rows,
      VertexPart g edge image after (h.resume pe after) done frontier asked rows := by
    by_cases inspects : thread = .inspectDepthAnalysis
    · subst inspects
      obtain ⟨frontier, vertex⟩ := vertex.inspectDepthAnalysis levelled ran finds
      exact ⟨frontier, asked, rows, vertex⟩
    by_cases pops : thread = .frontierAnalysis
    · subst pops
      obtain ⟨frontier, asked, vertex⟩ := vertex.frontierAnalysis consistent ran
      exact ⟨frontier, asked, rows, vertex⟩
    by_cases stores : thread = .processExpandRpaoReadResp
    · subst stores
      obtain ⟨asked, rows, vertex⟩ := vertex.processExpandRpaoReadResp setting consistent ran
      exact ⟨frontier, asked, rows, vertex⟩
    have buffer := frame.frontierBuffer inspects pops
    have line := lines 4 (fun same => pops (PeThread.asks_eq same))
      (fun same => stores (PeThread.takes_eq same))
    exact ⟨frontier, asked, rows, vertex.moved buffer (frame.rpaoBuffer stores takesRows) line
      (by simp [History.resume, buffer])⟩
  have columnPart : ∃ chunks columns,
      ColumnPart g edge out image after (h.resume pe after) done row chunks columns := by
    by_cases stores : thread = .processExpandCiaoReadResp
    · subst stores
      exact column.processExpandCiaoReadResp setting consistent ran
    by_cases pops : thread = .issueExpandDepthReadReq
    · subst pops
      obtain ⟨columns, column⟩ := column.issueExpandDepthReadReq consistent ran
      exact ⟨chunks, columns, column⟩
    have buffer := frame.ciaoBuffer stores pops
    have line := lines 5 (fun same => takesRows (PeThread.asks_eq same))
      (fun same => stores (PeThread.takes_eq same))
    exact ⟨chunks, columns, column.moved (frame.ciaoReq takesRows) buffer line
      (by simp [History.resume, buffer])⟩
  obtain ⟨frontier, asked, rows, vertex⟩ := vertexPart
  obtain ⟨chunks, columns, column⟩ := columnPart
  exact ⟨done, frontier, asked, rows, row, chunks, columns, vertex, column⟩

end Expansion

/-! ### Depths -/

section Depths

variable {g : Graph} {pe mid after : Pe} {h h' : History} {delay : Nat}
variable {read asked : List Nat} {popped : List (Nat × Byte)}

def Vertices (g : Graph) (buffer : List Int) : Prop :=
  ∀ vidx ∈ buffer, ∃ v : Nat, v < g.vertexNum ∧ vidx = v

theorem DepthPart.moved (part : DepthPart g pe h read asked popped)
    (vidxBuffer : after.vidxBuffer = pe.vidxBuffer)
    (depthBuffer1 : after.depthBuffer1 = pe.depthBuffer1) (line : (pe.line 6).Same (after.line 6))
    (vidx : h'.vidx = h.vidx) (depth : h'.depth = h.depth) (answers : h'.answers = h.answers) :
    DepthPart g after h' read asked popped where
  vidxBuffer := vidxBuffer.trans part.vidxBuffer
  spans := line.spans.trans part.spans
  bound := part.bound
  depths := depthBuffer1 ▸ part.depths
  single := line.responded ▸ part.single
  vidx := vidx.trans part.vidx
  depth := depth.trans part.depth
  answers := by
    rw [answers, depthBuffer1, line.responded]
    exact part.answers

theorem DepthPart.vertices (part : DepthPart g pe h read asked popped) :
    Vertices g pe.vidxBuffer := by
  intro vidx membership
  rw [part.vidxBuffer] at membership
  obtain ⟨v, member, rfl⟩ := List.mem_map.mp membership
  exact ⟨v, part.bound v (List.mem_append_right _ member), rfl⟩

theorem DepthPart.issueExpandDepthReadReq (part : DepthPart g pe h read asked popped)
    (columns : Vertices g pe.ciaoBuffer) (consistent : pe.Consistent)
    (ran : pe.issueExpandDepthReadReq (Gl.layout g) = some (after, delay)) :
    ∃ asked, DepthPart g after (h.resume pe after) read asked popped := by
  have depthBuffer1 := (Pe.issueExpandDepthReadReq_frame ran).depthBuffer1 nofun nofun
  obtain ⟨_, mid, settled, looped⟩ := Pe.issueExpandDepthReadReq_cases ran
  have ⟨indexed, lines⟩ := settled.lines consistent.indexed
  have buffers : mid.vidxBuffer = pe.vidxBuffer ∧ mid.ciaoBuffer = pe.ciaoBuffer := by
    cases settled <;> exact ⟨rfl, rfl⟩
  obtain ⟨vidxBuffer, ciaoBuffer⟩ := buffers
  have unchanged : after = mid → DepthPart g after (h.resume pe after) read asked popped := by
    rintro rfl
    exact part.moved vidxBuffer depthBuffer1 (lines 6) (by simp [History.resume, vidxBuffer])
      (by simp [History.resume, depthBuffer1]) rfl
  cases looped with
  | empty _ => exact ⟨asked, unchanged rfl⟩
  | full _ => exact ⟨asked, unchanged rfl⟩
  | @asked vidx rest op buffer _ asks port _ =>
      obtain ⟨v, bound, rfl⟩ := columns vidx (by rw [← ciaoBuffer, buffer]; simp)
      let asking : Pe := { mid with vidxBuffer := mid.vidxBuffer ++ [(v : Int)], ciaoBuffer := rest }
      have spans := @spans_created asking 6 op indexed settled.free port
      have responded := (@Pe.created_lines asking 6 indexed settled.free op port).2.2.1
      have addr : op.addr = v := by
        have start := asks.addr
        have origin : (Gl.layout g).depthMemAddr = 0 := rfl
        omega
      refine ⟨asked ++ [v], ?_, ?_, fun w membership => ?_, ?_, ?_, ?_, ?_, ?_⟩
      · show mid.vidxBuffer ++ [(v : Int)] = _
        rw [vidxBuffer, part.vidxBuffer]
        simp
      · rw [spans, addr, asks.length, List.map_append]
        exact congrArg (· ++ _) ((lines 6).spans.trans part.spans)
      · rw [← List.append_assoc, ← List.append_assoc, List.mem_append, List.mem_singleton,
          List.append_assoc] at membership
        rcases membership with old | rfl
        · exact part.bound w old
        · exact bound
      · rw [depthBuffer1]
        exact part.depths
      · rw [responded]
        show ∀ op ∈ (mid.line 6).responded, _
        rw [(lines 6).responded]
        exact part.single
      · show h.vidx ++ taken pe.vidxBuffer (mid.vidxBuffer ++ [(v : Int)]) = _
        rw [vidxBuffer, taken_append, List.append_nil]
        exact part.vidx
      · show h.depth ++ taken pe.depthBuffer1 _ = _
        rw [depthBuffer1, taken_self, List.append_nil]
        exact part.depth
      · rw [depthBuffer1, responded]
        show h.answers = _ ++ (mid.line 6).responded.map _
        rw [(lines 6).responded]
        exact part.answers

theorem DepthPart.processExpandDepthReadResp (part : DepthPart g pe h read asked popped)
    (consistent : pe.Consistent) (ran : pe.processExpandDepthReadResp = some (after, delay)) :
    ∃ read asked, DepthPart g after (h.resume pe after) read asked popped := by
  have vidxBuffer := (Pe.processExpandDepthReadResp_frame ran).vidxBuffer nofun nofun
  cases Pe.respThread_cases ran with
  | polled _ awaited =>
      have buffer : after.depthBuffer1 = pe.depthBuffer1 := by cases awaited <;> rfl
      exact ⟨read, asked, part.moved vidxBuffer buffer (.of_eq (by rw [awaited.line_eq]))
        (by simp [History.resume, vidxBuffer]) (by simp [History.resume, buffer]) rfl⟩
  | @stored burstIdx op stored _ _ transfer present copied awaited =>
      obtain ⟨bytes, converted, rfl⟩ := Pe.storeDepth_cases copied
      obtain ⟨_, _, responded, pending⟩ := Pe.popped_lines consistent.indexed transfer present
      have line : after.line 6 = (pe.popped 6 burstIdx).line 6 := by
        rw [awaited.line_eq]
      have spans : (pe.line 6).spans = (op.addr, op.length) :: (after.line 6).spans := by
        rw [Line.spans_eq, Line.spans_eq, responded, line, pending]
        rfl
      have buffer : after.depthBuffer1 = pe.depthBuffer1 ++ bytes := by cases awaited <;> rfl
      have covered := part.spans
      rw [spans] at covered
      obtain ⟨v, others, rfl⟩ : ∃ v others, asked = v :: others :=
        List.exists_cons_of_ne_nil (by rintro rfl; cases covered)
      simp only [List.map_cons, List.cons.injEq, Prod.mk.injEq] at covered
      obtain ⟨⟨addr, length⟩, rest⟩ := covered
      obtain ⟨byte, data⟩ := part.single op (by simp [responded])
      obtain rfl : bytes = [byte] := by
        simp [Pe.toBytes, length, data] at converted
        exact converted.symm
      refine ⟨read ++ [v], others, ?_, rest, ?_, ?_, ?_, ?_, ?_, ?_⟩
      · rw [vidxBuffer, part.vidxBuffer]
        simp
      · intro w membership
        exact part.bound w (by simpa using membership)
      · rw [buffer, List.length_append, List.length_append, part.depths]
        rfl
      · intro other membership
        refine part.single other ?_
        rw [responded, ← line]
        exact List.mem_cons_of_mem _ membership
      · show h.vidx ++ taken pe.vidxBuffer _ = _
        rw [vidxBuffer, taken_self, List.append_nil]
        exact part.vidx
      · show h.depth ++ taken pe.depthBuffer1 _ = _
        rw [buffer, taken_append, List.append_nil]
        exact part.depth
      · show h.answers = _
        rw [part.answers, responded, buffer, List.zip_append part.depths.symm, line]
        simp [addr, data]

theorem expandLoop_pops (looped : Pe.ExpandLoop (Gl.layout g) mid after) :
    ∀ {read : List Nat}, mid.vidxBuffer = (read ++ asked).map Int.ofNat →
      mid.depthBuffer1.length = read.length →
      ∃ (pairs : List (Nat × Byte)) (left : List Nat), read = pairs.map Prod.fst ++ left ∧
        mid.depthBuffer1 = pairs.map Prod.snd ++ after.depthBuffer1 ∧
        after.vidxBuffer = (left ++ asked).map Int.ofNat ∧
        after.depthBuffer1.length = left.length := by
  induction looped with
  | empty _ => exact fun vidxBuffer depths => ⟨[], _, rfl, rfl, vidxBuffer, depths⟩
  | full _ => exact fun vidxBuffer depths => ⟨[], _, rfl, rfl, vidxBuffer, depths⟩
  | @visited pe _ d rest vidx vidxs buffer same _ _ inductionHypothesis =>
      intro read vidxBuffer depths
      rw [buffer, List.length_cons] at depths
      obtain ⟨v, others, rfl⟩ : ∃ v others, read = v :: others :=
        List.exists_cons_of_ne_nil (by rintro rfl; cases depths)
      rw [same, List.cons_append, List.map_cons, List.cons.injEq] at vidxBuffer
      obtain ⟨pairs, left, rfl, depthBuffer1, remaining⟩ :=
        inductionHypothesis vidxBuffer.2 (by simpa using depths)
      exact ⟨(v, d) :: pairs, left, rfl, by rw [buffer]; exact congrArg _ depthBuffer1, remaining⟩
  | @fresh pe rest vidx vidxs op buffer same _ _ _ =>
      intro read vidxBuffer depths
      rw [buffer, List.length_cons] at depths
      obtain ⟨v, others, rfl⟩ : ∃ v others, read = v :: others :=
        List.exists_cons_of_ne_nil (by rintro rfl; cases depths)
      rw [same, List.cons_append, List.map_cons, List.cons.injEq] at vidxBuffer
      exact ⟨[(v, -1)], others, rfl, buffer, vidxBuffer.2, Nat.succ.inj depths⟩

theorem DepthPart.expandDepthAnalysis (part : DepthPart g pe h read asked popped)
    (consistent : pe.Consistent)
    (ran : pe.expandDepthAnalysis (Gl.layout g) = some (after, delay)) :
    ∃ read popped, DepthPart g after (h.resume pe after) read asked popped := by
  obtain ⟨_, mid, settled, looped⟩ := Pe.expandDepthAnalysis_cases ran
  have ⟨indexed, lines, _⟩ := settled.lines consistent.indexed
  have buffers : mid.vidxBuffer = pe.vidxBuffer ∧ mid.depthBuffer1 = pe.depthBuffer1 := by
    cases settled <;> exact ⟨rfl, rfl⟩
  obtain ⟨sameVidx, sameDepth⟩ := buffers
  have line : (pe.line 6).Same (after.line 6) := (lines 6 (by decide)).trans
    (.of_eq (looped.mayAsk.lines indexed settled.free (by decide)))
  obtain ⟨pairs, left, rfl, depthBuffer1, vidxBuffer, depths⟩ :=
    expandLoop_pops looped (sameVidx.trans part.vidxBuffer) (sameDepth ▸ part.depths)
  have vidxs : pe.vidxBuffer = (pairs.map fun pair => (pair.1 : Int)) ++ after.vidxBuffer := by
    rw [part.vidxBuffer, vidxBuffer]
    simp [Function.comp_def]
  rw [sameDepth] at depthBuffer1
  refine ⟨left, popped ++ pairs, vidxBuffer, line.spans.trans part.spans, ?_, depths,
    line.responded ▸ part.single, ?_, ?_, ?_⟩
  · intro v membership
    exact part.bound v (by simpa using membership)
  · show h.vidx ++ taken pe.vidxBuffer _ = _
    rw [vidxs, taken_of_append, part.vidx, List.map_append]
  · show h.depth ++ taken pe.depthBuffer1 _ = _
    rw [depthBuffer1, taken_of_append, part.depth, List.map_append]
  · show h.answers = _
    rw [part.answers, depthBuffer1, line.responded, List.zip_append (by simp), List.zip_map']
    simp

end Depths

/-! ### Answers -/

section Answers

variable {g : Graph} {edge : Nat → Nat → Prop} {out inn : Nat → List Nat} {image : List Byte}
variable {pe after : Pe} {h : History} {i : Port}
variable {done frontier asked rows row columns read : List Nat} {chunks : List (List Nat)}
variable {popped : List (Nat × Byte)}

def Arrays (g : Graph) (image : List Byte) (pe : Pe) : Prop :=
  ∀ addr, g.vertexNum ≤ addr → pe.ramData[addr]? = image[addr]?

theorem observes_answer (arrays : Arrays g image pe) {op : BurstOp} {bytes : List Byte}
    (behind : g.vertexNum ≤ op.addr ∨ op.length = 0)
    (reads : (List.range op.length).mapM (fun j => pe.ramData[op.addr + j]?) = some bytes) :
    Observes g edge image 0 image { op with data := bytes } := by
  obtain ⟨rfl, length⟩ := mapM_range_getElem? reads
  refine ⟨length, fun j byte present => .inl ?_⟩
  simp only [List.getElem?_take, List.getElem?_drop] at present
  split at present
  · rename_i inside
    have far : g.vertexNum ≤ op.addr + j := by omega
    rw [← arrays _ far, present]
  · cases present

theorem mem_spans {op : BurstOp} {line : Line} (membership : op ∈ line.pending) :
    (op.addr, op.length) ∈ line.spans := by
  rw [Line.spans_eq]
  exact List.mem_append_right _ (List.mem_map_of_mem membership)

theorem VertexPart.behind (setting : Setting g edge out inn image 0)
    (part : VertexPart g edge image pe h done frontier asked rows) {op : BurstOp}
    (membership : op ∈ (pe.line 4).pending) : g.vertexNum ≤ op.addr := by
  have span := mem_spans membership
  rw [part.stage.spans] at span
  obtain ⟨u, _, same⟩ := List.mem_map.mp span
  have := setting.laidOut.behind.1
  have := (Prod.mk.inj same).1
  omega

theorem ColumnPart.behind (setting : Setting g edge out inn image 0)
    (part : ColumnPart g edge out image pe h done row chunks columns) {op : BurstOp}
    (membership : op ∈ (pe.line 5).pending) : g.vertexNum ≤ op.addr ∨ op.length = 0 := by
  have span := mem_spans membership
  obtain ⟨index, same⟩ := List.mem_iff_get.mp span
  have matching := List.forall₂_iff_get.mp part.stage.spans
  have stored := matching.2 index index.isLt (matching.1 ▸ index.isLt)
  rw [same] at stored
  have length := stored.length
  rcases stored.stored with empty | ⟨k, addr, _⟩
  · rw [empty] at length
    exact .inr length
  · have := setting.laidOut.behind
    exact .inl (by omega)

theorem answer_history (i : Port) (pe : Pe) (h : History) :
    (h.answer i pe).frontier = h.frontier ∧ (h.answer i pe).ciao = h.ciao ∧
      (h.answer i pe).vidx = h.vidx ∧ (h.answer i pe).depth = h.depth := by
  rw [History.answer]
  split <;> exact ⟨rfl, rfl, rfl, rfl⟩

theorem answer_buffers (ran : pe.answer i = some after) :
    after.frontierBuffer = pe.frontierBuffer ∧ after.rpaoBuffer = pe.rpaoBuffer ∧
      after.ciaoReq = pe.ciaoReq ∧ after.ciaoBuffer = pe.ciaoBuffer ∧
      after.vidxBuffer = pe.vidxBuffer ∧ after.depthBuffer1 = pe.depthBuffer1 := by
  cases Pe.answer_cases ran <;> exact ⟨rfl, rfl, rfl, rfl, rfl, rfl⟩

theorem VertexPart.answer (setting : Setting g edge out inn image 0)
    (part : VertexPart g edge image pe h done frontier asked rows) (consistent : pe.Consistent)
    (reading : pe.Reading) (arrays : Arrays g image pe) (ran : pe.answer i = some after) :
    VertexPart g edge image after (h.answer i pe) done frontier asked rows := by
  obtain ⟨frontierBuffer, rpaoBuffer, _⟩ := answer_buffers ran
  have history := (answer_history i pe h).1
  by_cases here : i = 4
  · subst here
    obtain ⟨_, op, bytes, rest, _, pending, left, responded, reads⟩ :=
      reading.answer_read consistent (by decide) ran
    have oldest : op ∈ (pe.line 4).pending := by simp [pending]
    have behind := part.behind setting oldest
    refine ⟨?_, fun other membership => ?_, history.trans part.popped⟩
    · rw [frontierBuffer, rpaoBuffer, Pe.answer_spans consistent ran]
      exact part.stage
    · rw [responded, List.mem_append, List.mem_singleton] at membership
      rcases membership with old | rfl
      · exact part.answered other old
      · exact observes_answer arrays (.inl behind) reads
  · have others := (Pe.answer_lines consistent ran).2.1
    exact part.moved frontierBuffer rpaoBuffer (.of_eq (others 4 (Ne.symm here))) history

theorem ColumnPart.answer (setting : Setting g edge out inn image 0)
    (part : ColumnPart g edge out image pe h done row chunks columns) (consistent : pe.Consistent)
    (reading : pe.Reading) (arrays : Arrays g image pe) (ran : pe.answer i = some after) :
    ColumnPart g edge out image after (h.answer i pe) done row chunks columns := by
  obtain ⟨_, _, ciaoReq, ciaoBuffer, _⟩ := answer_buffers ran
  have history := (answer_history i pe h).2.1
  by_cases here : i = 5
  · subst here
    obtain ⟨_, op, bytes, rest, _, pending, left, responded, reads⟩ :=
      reading.answer_read consistent (by decide) ran
    have oldest : op ∈ (pe.line 5).pending := by simp [pending]
    have behind := part.behind setting oldest
    have same : (after.pipeline (Gl.layout g)).row = (pe.pipeline (Gl.layout g)).row := by
      simp only [Pe.pipeline, ciaoReq]
    refine ⟨?_, fun other membership => ?_, ?_⟩
    · rw [same, ciaoBuffer, Pe.answer_spans consistent ran]
      exact part.stage
    · rw [responded, List.mem_append, List.mem_singleton] at membership
      rcases membership with old | rfl
      · exact part.answered other old
      · exact observes_answer arrays behind reads
    · rw [history]
      exact part.appended
  · have others := (Pe.answer_lines consistent ran).2.1
    exact part.moved ciaoReq ciaoBuffer (.of_eq (others 5 (Ne.symm here))) history

theorem DepthPart.answer (part : DepthPart g pe h read asked popped) (consistent : pe.Consistent)
    (reading : pe.Reading) (ran : pe.answer i = some after) :
    DepthPart g after (h.answer i pe) read asked popped := by
  obtain ⟨_, _, _, _, vidxBuffer, depthBuffer1⟩ := answer_buffers ran
  obtain ⟨_, _, vidx, depth⟩ := answer_history i pe h
  by_cases here : i = 6
  · subst here
    obtain ⟨_, op, bytes, rest, oldest, pending, left, responded, reads⟩ :=
      reading.answer_read consistent (by decide) ran
    have member : op ∈ (pe.line 6).pending := by simp [pending]
    have span := mem_spans member
    rw [part.spans] at span
    obtain ⟨v, _, same⟩ := List.mem_map.mp span
    have length : op.length = 1 := (Prod.mk.inj same).2.symm
    obtain ⟨byte, stored, rfl⟩ : ∃ byte, pe.ramData[op.addr]? = some byte ∧ bytes = [byte] := by
      rw [length] at reads
      simp only [List.range_one, List.mapM_cons, List.mapM_nil, Nat.add_zero,
        Option.bind_eq_bind, Option.bind_eq_some_iff, Option.pure_def, Option.some.injEq] at reads
      obtain ⟨byte, stored, _, rfl, rfl⟩ := reads
      exact ⟨byte, stored, rfl⟩
    refine ⟨vidxBuffer.trans part.vidxBuffer,
      (Pe.answer_spans consistent ran).trans part.spans, part.bound,
      depthBuffer1 ▸ part.depths, fun other membership => ?_, vidx.trans part.vidx,
      depth.trans part.depth, ?_⟩
    · rw [responded, List.mem_append, List.mem_singleton] at membership
      rcases membership with old | rfl
      · exact part.single other old
      · exact ⟨byte, rfl⟩
    · have next : History.nextAnswer pe = some (op.addr, byte) := by
        simp [History.nextAnswer, oldest, stored]
      rw [History.answer, if_pos rfl, next, responded, depthBuffer1, part.answers]
      simp
  · have others := (Pe.answer_lines consistent ran).2.1
    exact part.moved vidxBuffer depthBuffer1 (.of_eq (others 6 (Ne.symm here))) vidx depth
      (by rw [History.answer, if_neg here])

end Answers

end Pairing

end GraphAccelerator
