import GraphAccelerator.Accelerator.LevelRefinement
import GraphAccelerator.Accelerator.Lines

/-!
# Every thread gets to its next wait

Within a level no thread runs into an empty buffer or asks for an address in front of the
image, every burst is large enough for what is read from it, and every access of the
memory is inside the image.
-/

namespace GraphAccelerator

open Memory

namespace Pe

variable {gl : Gl} {pe : Pe} {i : Port}

theorem createBurst_total {type : RequestType} {addr : Int} {length : Nat} (natural : 0 ≤ addr) :
    ∃ after, createBurst type i addr length pe = some after := by
  obtain ⟨start, rfl⟩ := Int.eq_ofNat_of_zero_le natural
  exact ⟨_, rfl⟩

theorem inspectDepthReqThread_total (prIdx : Part) :
    ∃ after delay, pe.inspectDepthReqThread gl prIdx = some (after, delay) := by
  have looped : ∀ pe : Pe, ∃ after, pe.inspectDepthReqLoop gl prIdx = some after := by
    intro pe
    simp only [inspectDepthReqLoop]
    split_ifs <;> first | exact createBurst_total (Int.natCast_nonneg _) | exact ⟨_, rfl⟩
  simp only [inspectDepthReqThread]
  split
  · obtain ⟨after, ran⟩ := looped _
    exact ⟨after, 1, by rw [ran]; rfl⟩
  · obtain ⟨after, ran⟩ := looped _
    exact ⟨after, 1, by rw [ran]; rfl⟩

theorem frontierAnalysis_total (natural : ∀ vidx ∈ pe.frontierBuffer, 0 ≤ vidx) :
    ∃ after delay, pe.frontierAnalysis gl = some (after, delay) := by
  have looped : ∀ pe : Pe, (∀ vidx ∈ pe.frontierBuffer, 0 ≤ vidx) →
      ∃ after, pe.frontierLoop gl = some after := by
    intro pe natural
    simp only [frontierLoop]
    split
    · rename_i vidx rest buffer
      have := natural vidx (by simp [buffer])
      split
      · exact createBurst_total (by omega)
      · exact ⟨_, rfl⟩
    · exact ⟨_, rfl⟩
  simp only [frontierAnalysis]
  split
  · rename_i burstIdx _
    obtain ⟨after, ran⟩ := looped (pe.pushBurst 4 burstIdx) natural
    exact ⟨after, 1, by rw [ran]; rfl⟩
  · obtain ⟨after, ran⟩ := looped pe natural
    exact ⟨after, 1, by rw [ran]; rfl⟩

theorem ciaoChunk_total (natural : 0 ≤ pe.ciaoReq.ciaoMemAddr) :
    ∃ after, pe.ciaoChunk = some after := by
  simp only [ciaoChunk]
  split_ifs <;> first | exact createBurst_total natural | exact ⟨_, rfl⟩

theorem ciaoRows_total : ∀ (rows : List Int) (pe : Pe), (∀ idx ∈ rows, 0 ≤ idx) →
    ∃ after, pe.ciaoRows gl rows = some after
  | srcIdx :: dstIdx :: rest, pe, natural => by
      have := natural srcIdx (by simp)
      simp only [ciaoRows]
      split
      · exact ciaoChunk_total (by simp only; omega)
      · exact ciaoRows_total rest _ fun idx later => natural idx (by simp [later])
  | [], pe, _ => ⟨pe, rfl⟩
  | [_], pe, _ => ⟨pe, rfl⟩

theorem issueExpandCiaoReadReq_total (natural : ∀ idx ∈ pe.rpaoBuffer, 0 ≤ idx)
    (row : pe.ciaoReq.len + pe.ciaoReq.actualLen < pe.ciaoReq.maxLen →
      0 ≤ pe.ciaoReq.ciaoMemAddr + pe.ciaoReq.actualLen)
    (outside : pe.creating 5 = none → pe.ciaoReq.actualLen = 0) :
    ∃ after delay, pe.issueExpandCiaoReadReq gl = some (after, delay) := by
  have looped : ∀ pe : Pe, (∀ idx ∈ pe.rpaoBuffer, 0 ≤ idx) →
      (pe.ciaoReq.len < pe.ciaoReq.maxLen → 0 ≤ pe.ciaoReq.ciaoMemAddr) →
      ∃ after, pe.ciaoLoop gl = some after := by
    intro pe natural row
    rw [ciaoLoop]
    split
    · rename_i more
      exact ciaoChunk_total (row more)
    · exact ciaoRows_total _ _ natural
  simp only [issueExpandCiaoReadReq]
  split
  · rename_i burstIdx _
    obtain ⟨after, ran⟩ := looped { pe.pushBurst 5 burstIdx with
      ciaoReq := { pe.ciaoReq with
        ciaoMemAddr := pe.ciaoReq.ciaoMemAddr + pe.ciaoReq.actualLen
        len := pe.ciaoReq.len + pe.ciaoReq.actualLen
        actualLen := 0 } } natural row
    refine ⟨after, 1, ?_⟩
    simp only [pushBurst] at ran ⊢
    rw [ran]
    rfl
  · rename_i free
    obtain ⟨after, ran⟩ := looped pe natural fun more => by
      have none := outside free
      rw [none] at row
      simpa using row more
    exact ⟨after, 1, by rw [ran]; rfl⟩

theorem issueExpandDepthReadReq_total (natural : ∀ vidx ∈ pe.ciaoBuffer, 0 ≤ vidx) :
    ∃ after delay, pe.issueExpandDepthReadReq gl = some (after, delay) := by
  have looped : ∀ pe : Pe, (∀ vidx ∈ pe.ciaoBuffer, 0 ≤ vidx) →
      ∃ after, pe.depthLoop gl = some after := by
    intro pe natural
    simp only [depthLoop]
    split
    · rename_i vidx rest buffer
      have := natural vidx (by simp [buffer])
      split
      · exact createBurst_total (by omega)
      · exact ⟨_, rfl⟩
    · exact ⟨_, rfl⟩
  simp only [issueExpandDepthReadReq]
  split
  · rename_i burstIdx _
    obtain ⟨after, ran⟩ := looped (pe.pushBurst 6 burstIdx) natural
    exact ⟨after, 1, by rw [ran]; rfl⟩
  · obtain ⟨after, ran⟩ := looped pe natural
    exact ⟨after, 1, by rw [ran]; rfl⟩

/-- The induction is on the depths: there is a vertex for each of them. -/
theorem expandLoop_total (depths : List Byte) : ∀ pe : Pe,
    depths.length ≤ pe.vidxBuffer.length → (∀ vidx ∈ pe.vidxBuffer, 0 ≤ vidx) →
    ∃ after, pe.expandLoop gl depths = some after := by
  induction depths with
  | nil => exact fun pe _ _ => ⟨pe, rfl⟩
  | cons d rest inductionHypothesis =>
      intro pe enough natural
      simp only [expandLoop]
      split
      · split
        · rename_i empty
          rw [empty] at enough
          cases enough
        · rename_i vidx vidxs buffer
          have := natural vidx (by simp [buffer])
          rw [buffer] at enough
          split
          · exact createBurst_total (by omega)
          · exact inductionHypothesis _ (Nat.le_of_succ_le_succ enough) fun other later =>
              natural other (by simp [buffer, later])
      · exact ⟨pe, rfl⟩

theorem expandDepthAnalysis_total (enough : pe.depthBuffer1.length ≤ pe.vidxBuffer.length)
    (natural : ∀ vidx ∈ pe.vidxBuffer, 0 ≤ vidx)
    (fills : ∀ burstIdx, pe.creating 7 = some burstIdx →
      ∃ op byte rest, pe.bursts[burstIdx]? = some op ∧ pe.depthBuffer2 = byte :: rest) :
    ∃ after delay, pe.expandDepthAnalysis gl = some (after, delay) := by
  simp only [expandDepthAnalysis]
  split
  · rename_i burstIdx creating
    obtain ⟨op, byte, rest, present, buffer⟩ := fills burstIdx creating
    obtain ⟨after, ran⟩ := @expandLoop_total gl pe.depthBuffer1 (pushBurst 7 burstIdx
      { pe.setBurst burstIdx { op with data := op.data ++ [byte] } with
        depthBuffer2 := rest }) enough natural
    refine ⟨after, 1, ?_⟩
    simp only [fillBurst, present, buffer, Option.bind_eq_bind, Option.bind_some, List.head?_cons,
      List.tail_cons, Option.pure_def]
    simp only [pushBurst] at ran ⊢
    rw [ran]
    rfl
  · obtain ⟨after, ran⟩ := @expandLoop_total gl pe.depthBuffer1 pe enough natural
    exact ⟨after, 1, by rw [ran]; rfl⟩

theorem awaitResp_total (indexed : pe.Indexed) (size : Nat) :
    ∃ after delay, pe.awaitResp i size = some (after, delay) := by
  simp only [awaitResp]
  split
  · exact ⟨_, _, rfl⟩
  · rename_i burstIdx rest queue
    obtain ⟨op, present, _⟩ := indexed.port i burstIdx (by
      simp [BurstQueues.flight, BurstQueues.pushed, queue])
    exact ⟨_, _, by rw [present]; rfl⟩

theorem toBytes_total {op : BurstOp} (full : op.data.length = op.length) :
    ∃ bytes, toBytes op = some bytes :=
  CheckedLoop.mapM_total fun _ inside =>
    ⟨_, List.getElem?_eq_getElem (full ▸ List.mem_range.mp inside)⟩

theorem toWords_total {op : BurstOp} (full : op.data.length = op.length)
    (ints : op.length % 4 = 0) : ∃ words, toWords op = some words := by
  obtain ⟨bytes, converted⟩ := toBytes_total full
  exact ⟨_, by rw [toWords, if_neg (not_not.mpr ints), converted]; rfl⟩

theorem respThread_total {size : Nat} {store : BurstOp → Pe → Option Pe} (indexed : pe.Indexed)
    (stores : ∀ burstIdx op, pe.transfer i = some burstIdx → pe.bursts[burstIdx]? = some op →
      ∃ stored, store op (pe.popped i burstIdx) = some stored ∧
        stored.toBurstQueues = (pe.popped i burstIdx).toBurstQueues) :
    ∃ after delay, pe.respThread i size store = some (after, delay) := by
  simp only [respThread]
  split
  · exact awaitResp_total indexed size
  · rename_i burstIdx transfer
    have head := indexed.transfer i burstIdx transfer
    obtain ⟨op, present, _⟩ := indexed.port i burstIdx (by
      have := List.mem_of_mem_head? head
      simp [BurstQueues.flight, BurstQueues.pushed, this])
    obtain ⟨stored, ran, queues⟩ := stores burstIdx op transfer present
    have indexed' := (popped_lines indexed transfer present).1
    obtain ⟨after, delay, awaited⟩ := @awaitResp_total stored i (queues ▸ indexed') size
    refine ⟨after, delay, ?_⟩
    simp only [popped] at ran
    simp only [present, Option.bind_eq_bind, Option.bind_some, ran]
    exact awaited

/-- What the threads rely on: indices are natural, there is a vertex for every depth and a
depth for a burst that is to be written, and a burst in transfer has all of its elements. -/
structure Ready (pe : Pe) : Prop where
  indexed : pe.Indexed
  frontierBuffer : ∀ vidx ∈ pe.frontierBuffer, 0 ≤ vidx
  rpaoBuffer : ∀ idx ∈ pe.rpaoBuffer, 0 ≤ idx
  row : pe.ciaoReq.len + pe.ciaoReq.actualLen < pe.ciaoReq.maxLen →
    0 ≤ pe.ciaoReq.ciaoMemAddr + pe.ciaoReq.actualLen
  outside : pe.creating 5 = none → pe.ciaoReq.actualLen = 0
  ciaoBuffer : ∀ vidx ∈ pe.ciaoBuffer, 0 ≤ vidx
  vidxBuffer : ∀ vidx ∈ pe.vidxBuffer, 0 ≤ vidx
  depths : pe.depthBuffer1.length ≤ pe.vidxBuffer.length
  write : pe.creating 7 ≠ none → pe.depthBuffer2 ≠ []
  transfer : ∀ i, i ≠ 7 → ∀ burstIdx op, pe.transfer i = some burstIdx →
    pe.bursts[burstIdx]? = some op →
    op.data.length = op.length ∧ (i = 4 ∨ i = 5 → op.length % 4 = 0)

namespace Ready

theorem respThread_total (ready : Ready pe) (reading : i ≠ 7) {size : Nat}
    {store : BurstOp → Pe → Option Pe}
    (stores : ∀ op popped, op.data.length = op.length → (i = 4 ∨ i = 5 → op.length % 4 = 0) →
      ∃ stored, store op popped = some stored ∧ stored.toBurstQueues = popped.toBurstQueues) :
    ∃ after delay, pe.respThread i size store = some (after, delay) := by
  refine Pe.respThread_total ready.indexed fun burstIdx op transfer present => ?_
  obtain ⟨full, ints⟩ := ready.transfer i reading burstIdx op transfer present
  exact stores op _ full ints

theorem resume_total (ready : Ready pe) {thread : PeThread} (other : thread ≠ .bfsController) :
    ∃ after delay, pe.resume gl thread = some (after, delay) := by
  cases thread with
  | sendMemReq | getMemResp | inspectDepthAnalysis | processExpandDepthWriteResp =>
      exact ⟨_, _, rfl⟩
  | bfsController => exact absurd rfl other
  | issueInspectDepthReadReq prIdx => exact inspectDepthReqThread_total prIdx
  | processInspectDepthReadResp prIdx =>
      refine ready.respThread_total (port_ne prIdx (by decide)) fun op popped full _ => ?_
      obtain ⟨bytes, converted⟩ := toBytes_total full
      rw [storeInspect, converted]
      exact ⟨_, rfl, rfl⟩
  | frontierAnalysis => exact frontierAnalysis_total ready.frontierBuffer
  | processExpandRpaoReadResp =>
      refine ready.respThread_total (by decide) fun op popped full ints => ?_
      obtain ⟨words, converted⟩ := toWords_total full (ints (.inl rfl))
      rw [storeRpao, converted]
      exact ⟨_, rfl, rfl⟩
  | issueExpandCiaoReadReq =>
      exact issueExpandCiaoReadReq_total ready.rpaoBuffer ready.row ready.outside
  | processExpandCiaoReadResp =>
      refine ready.respThread_total (by decide) fun op popped full ints => ?_
      obtain ⟨words, converted⟩ := toWords_total full (ints (.inr rfl))
      rw [storeCiao, converted]
      exact ⟨_, rfl, rfl⟩
  | issueExpandDepthReadReq => exact issueExpandDepthReadReq_total ready.ciaoBuffer
  | processExpandDepthReadResp =>
      refine ready.respThread_total (by decide) fun op popped full _ => ?_
      obtain ⟨bytes, converted⟩ := toBytes_total full
      rw [storeDepth, converted]
      exact ⟨_, rfl, rfl⟩
  | expandDepthAnalysis =>
      refine expandDepthAnalysis_total ready.depths ready.vidxBuffer fun burstIdx creating => ?_
      obtain ⟨op, present, _⟩ := ready.indexed.port 7 burstIdx (by
        simp [BurstQueues.flight, creating])
      obtain ⟨byte, rest, buffer⟩ := List.exists_cons_of_ne_nil
        (ready.write (by simp [creating]))
      exact ⟨op, byte, rest, present, buffer⟩

end Ready

end Pe

theorem Port.cases (i : Port) : (∃ prIdx : Part, i = prIdx.port) ∨ i = 4 ∨ i = 5 ∨ i = 6 ∨ i = 7 := by
  by_cases part : i.val < 4
  · exact .inl ⟨⟨i.val, part⟩, rfl⟩
  · right
    revert i
    decide

namespace LevelPass

open Pipeline Bfs

section Image

variable {g : Graph} {edge : Nat → Nat → Prop} {out inn : Nat → List Nat}
variable {before : List Byte} {level : Byte} {p : Pipeline} {f : Flow}

theorem Contiguous.mem_le {first last : Nat} {spans : List (Nat × Nat)}
    (contiguous : Contiguous first spans last) {addr length : Nat}
    (membership : (addr, length) ∈ spans) : addr + length ≤ last := by
  induction spans generalizing first with
  | nil => cases membership
  | cons head rest inductionHypothesis =>
      obtain ⟨start, contiguous⟩ := contiguous
      rcases List.mem_cons.mp membership with rfl | later
      · have := InspectStage.Contiguous.le contiguous
        simp only at start this
        omega
      · exact inductionHypothesis contiguous later

theorem VertexStage.inside (setting : Setting g edge out inn before level)
    {frontierBuffer rpaoBuffer : List Int} {spans : List (Nat × Nat)}
    {frontier asked rows : List Nat}
    (stage : VertexStage g before level frontierBuffer spans rpaoBuffer frontier asked rows)
    {addr length : Nat} (covered : (addr, length) ∈ spans) {j : Nat} (bound : j < length) :
    addr + j < before.length := by
  rw [stage.spans, List.mem_map] at covered
  obtain ⟨u, member, same⟩ := covered
  obtain ⟨rfl, rfl⟩ := Prod.mk.inj same
  have isLevel := stage.level u (by simp [member])
  have vertex := ((depthByte_eq setting.visited).mp isLevel).1
  obtain ⟨_, _, _, within, _⟩ := rowPointers_eq setting vertex
  have stored := setting.laidOut.rpao.lt (k := 4 * u + j) (by
    change _ < 4 * (CSR.ofGraph g).rpao.length
    omega)
  omega

theorem ColumnStage.inside (setting : Setting g edge out inn before level) {rest : Span}
    {spans : List (Nat × Nat)} {ciaoBuffer : List Int} {row columns : List Nat}
    {asked : List (List Nat)}
    (stage : ColumnStage g edge before level rest spans ciaoBuffer row asked columns)
    {addr length : Nat} (covered : (addr, length) ∈ spans) {j : Nat} (bound : j < length) :
    addr + j < before.length := by
  obtain ⟨k, inside, same⟩ := List.getElem_of_mem covered
  obtain ⟨count, chunks⟩ := List.forall₂_iff_get.mp stage.spans
  have stored := chunks k inside (count ▸ inside)
  simp only [List.get_eq_getElem, same] at stored
  have size := stored.length
  rcases stored.stored with empty | ⟨first, start, row⟩
  · rw [empty, List.length_nil] at size
    omega
  · have within := congrArg List.length row
    rw [List.length_take, List.length_drop] at within
    have last := setting.laidOut.ciao.lt (k := 4 * first + j) (by
      change _ < 4 * (CSR.ofGraph g).ciao.length
      omega)
    omega

theorem Pass.inside (pass : Pass g edge before level p f)
    (setting : Setting g edge out inn before level) {i : Port} (reading : i ≠ 7) {addr length : Nat}
    (covered : (addr, length) ∈ (p.lines i).spans) {j : Nat} (bound : j < length) :
    addr + j < before.length := by
  have vertices := setting.laidOut.vertexNum_lt
  rcases Port.cases i with ⟨part, rfl⟩ | rfl | rfl | rfl | rfl
  · obtain ⟨last, _, contiguous, left⟩ := (pass.inspect part).asked
    have := contiguous.mem_le covered
    have := partEnd_le (g := g) part
    omega
  · exact pass.vertex.inside setting covered bound
  · exact pass.column.inside setting covered bound
  · rw [pass.depth.spans, List.mem_map] at covered
    obtain ⟨v, member, same⟩ := covered
    obtain ⟨rfl, rfl⟩ := Prod.mk.inj same
    have := (pass.depth.next _ (List.mem_append_right _ member)).lt setting
    omega
  · exact absurd rfl reading

end Image

section Level

variable {g : Graph} {edge : Nat → Nat → Prop} {out inn : Nat → List Nat}
variable {start pe : Pe} {f : Flow} {i : Port}

theorem natural_of_map {vertices : List Nat} {buffer : List Int}
    (decoded : buffer = vertices.map Int.ofNat) : ∀ vidx ∈ buffer, 0 ≤ vidx := by
  subst decoded
  intro vidx member
  obtain ⟨v, _, rfl⟩ := List.mem_map.mp member
  exact Int.natCast_nonneg v

theorem VertexStage.natural {image : List Byte} {level : Byte} {frontierBuffer rpaoBuffer : List Int}
    {spans : List (Nat × Nat)} {frontier asked rows : List Nat}
    (stage : VertexStage g image level frontierBuffer spans rpaoBuffer frontier asked rows) :
    ∀ idx ∈ rpaoBuffer, 0 ≤ idx := by
  intro idx member
  rw [stage.pointers, List.mem_flatMap] at member
  obtain ⟨u, _, pointer⟩ := member
  simp only [rowPointers, List.mem_cons, List.not_mem_nil, or_false] at pointer
  rcases pointer with rfl | rfl <;> exact Int.natCast_nonneg _

theorem ColumnStage.natural {image : List Byte} {level : Byte} {spans : List (Nat × Nat)}
    {ciaoBuffer : List Int} {row columns : List Nat} {asked : List (List Nat)}
    (stage : ColumnStage g edge image level (pe.pipeline (Gl.layout g)).row spans ciaoBuffer row
      asked columns) (more : pe.ciaoReq.len + pe.ciaoReq.actualLen < pe.ciaoReq.maxLen) :
    0 ≤ pe.ciaoReq.ciaoMemAddr + pe.ciaoReq.actualLen := by
  have current := stage.current
  simp only [Pe.pipeline] at current
  have size := current.length
  rcases current.stored with empty | ⟨k, address, _⟩
  · rw [empty, List.length_nil] at size
    omega
  · rw [address]
    exact Int.natCast_nonneg _

namespace Reached

theorem transferred (reached : Reached edge out start pe g f) (reading : i ≠ 7) {burstIdx : Nat}
    {op : BurstOp} (transfer : pe.transfer i = some burstIdx)
    (present : pe.bursts[burstIdx]? = some op) :
    op.data.length = op.length ∧ (op.addr, op.length) ∈ (pe.line i).spans := by
  have queued := List.mem_of_mem_head? (reached.consistent.indexed.transfer i burstIdx transfer)
  have member : op ∈ (pe.line i).responded := by
    refine List.mem_filterMap.mpr ⟨burstIdx, ?_, present⟩
    exact List.mem_append_left _ queued
  refine ⟨((reached.pass.transfers.reads i reading).responded op member).length, ?_⟩
  refine List.mem_map_of_mem (f := fun op : BurstOp => (op.addr, op.length)) ?_
  exact List.mem_append_left _ (List.mem_append_left _ member)

theorem ints (reached : Reached edge out start pe g f) (port : i = 4 ∨ i = 5) {addr length : Nat}
    (covered : (addr, length) ∈ (pe.line i).spans) : length % 4 = 0 := by
  rcases port with rfl | rfl
  · have spans := reached.pass.vertex.spans
    rw [show (pe.pipeline (Gl.layout g)).lines 4 = pe.line 4 from rfl] at spans
    rw [spans, List.mem_map] at covered
    obtain ⟨u, _, same⟩ := covered
    rw [← (Prod.mk.inj same).2]
  · obtain ⟨k, inside, same⟩ := List.getElem_of_mem covered
    obtain ⟨count, chunks⟩ := List.forall₂_iff_get.mp reached.pass.column.spans
    have stored := (chunks k inside (count ▸ inside)).length
    simp only [List.get_eq_getElem] at stored
    have length : ((pe.line 5).spans[k]).2 = length := by rw [same]
    have size : ((pe.line 5).spans[k]).2 = _ := stored
    omega

theorem ready (reached : Reached edge out start pe g f) : pe.Ready where
  indexed := reached.consistent.indexed
  frontierBuffer := natural_of_map reached.pass.vertex.buffer
  rpaoBuffer := reached.pass.vertex.natural
  row := reached.pass.column.natural
  outside := reached.consistent.ciao
  ciaoBuffer := natural_of_map reached.pass.column.buffer
  vidxBuffer := natural_of_map reached.pass.depth.buffer
  depths := by
    have vertices := congrArg List.length reached.pass.depth.buffer
    have depths := reached.pass.depth.depths.length_eq
    simp only [Pe.pipeline, List.length_map, List.length_append] at vertices depths
    omega
  write := by
    intro waits
    obtain ⟨burstIdx, creating⟩ := Option.ne_none_iff_exists'.mp waits
    obtain ⟨op, present, _⟩ := reached.consistent.indexed.port 7 burstIdx (by
      simp [BurstQueues.flight, creating])
    have asked : (pe.line 7).asked = some op := by simp [BurstQueues.line, creating, present]
    have buffer := reached.pass.transfers.writes.buffer
    rw [show (pe.pipeline (Gl.layout g)).lines 7 = pe.line 7 from rfl, asked] at buffer
    rw [show pe.depthBuffer2 = _ from buffer]
    exact List.cons_ne_nil _ _
  transfer := by
    intro i reading burstIdx op transfer present
    obtain ⟨full, span⟩ := reached.transferred reading transfer present
    exact ⟨full, fun port => reached.ints port span⟩

/-- No thread gets stuck within a level. -/
theorem resume_total (reached : Reached edge out start pe g f) {thread : PeThread}
    (other : thread ≠ .bfsController) :
    ∃ after delay, pe.resume (Gl.layout g) thread = some (after, delay) :=
  reached.ready.resume_total other

/-- The memory can answer every burst that was sent. -/
theorem answer_total (reached : Reached edge out start pe g f)
    (setting : Setting g edge out inn start.ramData start.level) (sent : pe.sent i ≠ []) :
    ∃ after, pe.answer i = some after := by
  obtain ⟨burstIdx, rest, queue⟩ := List.exists_cons_of_ne_nil sent
  obtain ⟨op, present, _⟩ := reached.consistent.indexed.port i burstIdx (by
    simp [BurstQueues.flight, BurstQueues.pushed, queue])
  have waiting : op ∈ (pe.line i).waiting :=
    List.mem_filterMap.mpr ⟨burstIdx, by simp [queue], present⟩
  have ram := reached.pass.transfers.ram
  have size : pe.ramData.length = start.ramData.length := ram.length
  by_cases writing : i = 7
  · subst writing
    have write := reached.pass.transfers.writes.waiting op waiting
    obtain ⟨inside, _⟩ := List.getElem?_eq_some_iff.mp write.fresh
    obtain ⟨written, ran⟩ : ∃ written, op.reqToRam pe.ramData = some written := by
      have byte : pe.ramData[op.addr]? = some pe.ramData[op.addr] :=
        List.getElem?_eq_getElem (size ▸ inside)
      simp [BurstOp.reqToRam, write.length, write.data, byte, List.range_one]
    exact ⟨_, by simp only [Pe.answer, queue, present, Option.bind_eq_bind, Option.bind_some,
      if_pos write.type, ran]; rfl⟩
  · have read := (reached.pass.transfers.reads i writing).waiting op (List.mem_append_left _ waiting)
    have span : (op.addr, op.length) ∈ (pe.line i).spans := by
      refine List.mem_map_of_mem (f := fun op : BurstOp => (op.addr, op.length)) ?_
      exact List.mem_append_left _ (List.mem_append_right _ waiting)
    have bytes : ∀ j ∈ List.range op.length, ∃ byte, pe.ramData[op.addr + j]? = some byte :=
      fun j inside => ⟨_, List.getElem?_eq_getElem
        (size ▸ reached.pass.inside setting writing span (List.mem_range.mp inside))⟩
    obtain ⟨bytes, copied⟩ := CheckedLoop.mapM_total bytes
    have reads : op.type ≠ .write := by
      rw [read.1]
      decide
    exact ⟨_, by simp only [Pe.answer, queue, present, Option.bind_eq_bind, Option.bind_some,
      if_neg reads, BurstOp.ramToReq, copied]; rfl⟩

end Reached

end Level

end LevelPass

end GraphAccelerator
