import Mathlib.Tactic.MkIffOfInductiveProp
import GraphAccelerator.Bfs.TopDown
import GraphAccelerator.Accelerator.LevelPass
import GraphAccelerator.Accelerator.Replay

/-!
# A level refines an iteration of the software search

The threads start with everything drained and the start signal just observed, run in
any order, and the memory answers the bursts of a port in their order at any time.
Once everything is drained again, the depths are those of one iteration of `tdBfs`.
-/

namespace GraphAccelerator

open Memory Pipeline Walks Bfs

namespace Pe

/-- All buffers, queues, signals and suspended requests are empty, and every array that
was to be read has been asked for. -/
@[mk_iff]
structure Drained (gl : Gl) (pe : Pe) : Prop where
  depthBuffer0 : ∀ i, pe.depthBuffer0 i = []
  depthBuffer1 : pe.depthBuffer1 = []
  depthBuffer2 : pe.depthBuffer2 = []
  frontierBuffer : pe.frontierBuffer = []
  rpaoBuffer : pe.rpaoBuffer = []
  ciaoBuffer : pe.ciaoBuffer = []
  vidxBuffer : pe.vidxBuffer = []
  burstReqQueue : ∀ i, pe.burstReqQueue i = []
  burstRespQueue : ∀ i, pe.burstRespQueue i = []
  sent : ∀ i, pe.sent i = []
  answered : ∀ i, pe.answered i = []
  creating : ∀ i, pe.creating i = none
  transfer : ∀ i, pe.transfer i = none
  inspectReq : ∀ i, gl.maxLen i ≤ (pe.inspectReq i).currentLen
  ciaoReq : pe.ciaoReq.maxLen ≤ pe.ciaoReq.len ∧ pe.ciaoReq.actualLen = 0

instance decidableDrained (gl : Gl) (pe : Pe) : Decidable (pe.Drained gl) :=
  decidable_of_iff' _ (drained_iff gl pe)

def reset (gl : Gl) (ramData : List Byte) : Pe where
  inspectReq := fun i => { currentLen := gl.maxLen i }
  idx := resetIdx gl
  ramData := ramData

theorem drained_reset (gl : Gl) (ramData : List Byte) : (reset gl ramData).Drained gl := by
  constructor <;> intros <;> first | rfl | exact Nat.le_refl _ | exact ⟨Nat.le_refl _, rfl⟩

def observeStart (gl : Gl) (pe : Pe) : Pe :=
  { pe with
    bfsIterationStart := false
    inspectReq := fun i => { depthMemAddr := gl.baseDepthMemAddr i, currentLen := 0 }
    idx := resetIdx gl
    validFlag2 := true
    frontierSize := 0 }

/-- A step within a level: a thread resumes, or the memory answers the oldest burst of
a port. -/
inductive LevelStep (gl : Gl) : Pe → Pe → Prop
  | resume {pe after : Pe} {thread : PeThread} {delay : Nat} : thread ≠ .bfsController →
      resume gl thread pe = some (after, delay) → LevelStep gl pe after
  | answer {pe after : Pe} {i : Port} : answer i pe = some after → LevelStep gl pe after

end Pe

namespace LevelPass

section Core

variable {g : Graph} {edge : Nat → Nat → Prop} {out inn : Nat → List Nat} {pe final : Pe}

theorem line_drained {gl : Gl} (drained : pe.Drained gl) (i : Port) : pe.line i = {} := by
  simp [BurstQueues.line, drained.burstRespQueue, drained.answered, drained.sent,
    drained.burstReqQueue, drained.creating]

theorem consistent_start (drained : pe.Drained (Gl.layout g)) :
    (pe.observeStart (Gl.layout g)).Consistent := by
  have flight : ∀ i, pe.flight i = [] := fun i => by
    simp [BurstQueues.flight, BurstQueues.pushed, drained.burstRespQueue, drained.answered,
      drained.sent, drained.burstReqQueue, drained.creating]
  have pushed : ∀ i, pe.pushed i = [] := fun i => by
    simp [BurstQueues.pushed, drained.burstRespQueue, drained.answered, drained.sent,
      drained.burstReqQueue]
  refine ⟨⟨fun i burstIdx membership => ?_, fun i => ?_, fun i burstIdx transfer => ?_,
    drained.transfer 7, fun i burstIdx membership => ?_⟩, fun i _ => rfl,
    fun _ => drained.ciaoReq.2⟩
  · exact absurd (flight i ▸ membership) List.not_mem_nil
  · exact (flight i).symm ▸ List.Pairwise.nil
  · cases (drained.transfer i).symm.trans transfer
  · exact absurd (pushed i ▸ membership) List.not_mem_nil

theorem baseDepthMemAddr_eq (i : Part) :
    (Gl.layout g).baseDepthMemAddr i = Pe.resetIdx (Gl.layout g) i := by
  rw [Gl.baseDepthMemAddr, Pe.resetIdx]
  split
  · rename_i first
    rw [first, Nat.zero_mul]
    rfl
  · rfl

/-- A drained state stands for no vertex. -/
theorem start_pass (drained : pe.Drained (Gl.layout g)) :
    Pass g edge pe.ramData pe.level ((pe.observeStart (Gl.layout g)).pipeline (Gl.layout g))
      {} := by
  have lines : ∀ i, ((pe.observeStart (Gl.layout g)).pipeline (Gl.layout g)).lines i = {} :=
    fun i => show pe.line i = {} from line_drained drained i
  have spans : ({} : Line).spans = [] := rfl
  refine ⟨⟨⟨rfl, fun _ => .inl rfl⟩, fun i _ => ?_, ?_⟩, fun i => ?_, ?_, ?_, ?_, ?_, by simp, ?_⟩
  · rw [lines]
    exact ⟨by simp, by simp⟩
  · rw [lines]
    exact ⟨by simp, by simp, by simp, drained.depthBuffer2⟩
  · have buffer := drained.depthBuffer0 i
    rw [lines, spans]
    refine ⟨Nat.le_refl _, fun j d present => ?_, (Gl.layout g).baseDepthMemAddr i, ?_, ?_, ?_⟩
    · simp [Pe.pipeline, Pe.observeStart, buffer] at present
    · simp [Pe.pipeline, Pe.inspectSpan, Pe.observeStart]
    · simp [Contiguous, Pe.pipeline, Pe.observeStart, buffer, baseDepthMemAddr_eq]
    · simp [Pe.pipeline, Pe.inspectSpan, Pe.observeStart, partEnd, baseDepthMemAddr_eq]
  · rw [lines]
    exact ⟨drained.frontierBuffer, rfl, drained.rpaoBuffer, by simp⟩
  · rw [lines]
    refine ⟨⟨?_, .inl rfl⟩, .nil, drained.ciaoBuffer, by simp⟩
    have := drained.ciaoReq.1
    simp [Pe.pipeline, Pe.observeStart]
    omega
  · rw [lines]
    refine ⟨drained.vidxBuffer, rfl, ?_, by simp⟩
    show List.Forall₂ _ [] pe.depthBuffer1
    rw [drained.depthBuffer1]
    exact .nil
  · rw [lines]
    rfl
  · simp [counted, Pe.pipeline, Pe.observeStart]

theorem exists_part {u : Nat} (bound : u < g.vertexNum) :
    ∃ i, Pe.resetIdx (Gl.layout g) i ≤ u ∧ u < partEnd g i := by
  have vertexNum : (Gl.layout g).vertexNum = g.vertexNum := rfl
  simp only [partEnd, Pe.resetIdx, Gl.maxLen, vertexNum]
  rcases Nat.lt_or_ge u (g.vertexNum / 4) with first | behind
  · exact ⟨0, by simp; omega⟩
  rcases Nat.lt_or_ge u (2 * (g.vertexNum / 4)) with second | behind
  · exact ⟨1, by simp; omega⟩
  rcases Nat.lt_or_ge u (3 * (g.vertexNum / 4)) with third | behind
  · exact ⟨2, by simp; omega⟩
  · exact ⟨3, by simp; omega⟩

theorem start_relaxation (setting : Setting g edge out inn pe.ramData pe.level) :
    relaxation g pe.ramData pe.level out
        ((pe.observeStart (Gl.layout g)).pipeline (Gl.layout g)) {} =
      Relaxation.start edge pe.level (depthByte g pe.ramData) := by
  have sources : ∀ u, Uninspected g pe.ramData pe.level (Pe.resetIdx (Gl.layout g)) u ↔
      depthByte g pe.ramData u = pe.level := fun u =>
    ⟨And.left, fun isLevel =>
      ⟨isLevel, exists_part ((depthByte_eq setting.visited).mp isLevel).1⟩⟩
  simp only [relaxation, Relaxation.start, Relaxation.mk.injEq]
  refine ⟨rfl, funext fun v => propext ?_⟩
  show Pending g pe.ramData pe.level out (Pe.resetIdx (Gl.layout g)) {} v ↔ _
  simp only [Pending, sources, Flow.vertices, Flow.targets, setting.rep.mem_out, List.append_nil,
    List.flatten_nil, List.not_mem_nil, or_false]
  exact exists_congr fun u => And.comm

structure Reached (edge : Nat → Nat → Prop) (out : Nat → List Nat) (start pe : Pe) (g : Graph)
    (f : Flow) : Prop where
  consistent : pe.Consistent
  level : pe.level = start.level
  started : pe.bfsIterationStart = false
  pass : Pass g edge start.ramData start.level (pe.pipeline (Gl.layout g)) f
  relaxed : Relation.ReflTransGen (Relaxation.Step (-1) (start.level + 1))
    (Relaxation.start edge start.level (depthByte g start.ramData))
    (relaxation g start.ramData start.level out (pe.pipeline (Gl.layout g)) f)

theorem Pass.run {before : List Byte} {level : Byte}
    (setting : Setting g edge out inn before level) {p p' : Pipeline} {f : Flow}
    (pass : Pass g edge before level p f)
    (steps : Relation.ReflTransGen (Step (Gl.layout g) level false) p p') :
    ∃ f', Pass g edge before level p' f' ∧
      Relation.ReflTransGen (Relaxation.Step (-1) (level + 1))
        (relaxation g before level out p f) (relaxation g before level out p' f') := by
  induction steps with
  | refl => exact ⟨f, pass, .refl⟩
  | tail _ stepped inductionHypothesis =>
      obtain ⟨between, pass, relaxed⟩ := inductionHypothesis
      obtain ⟨after, pass, last⟩ := pass.step setting stepped
      exact ⟨after, pass, relaxed.tail last⟩

theorem Reached.refines {start pe after : Pe} {f : Flow}
    (setting : Setting g edge out inn start.ramData start.level)
    (reached : Reached edge out start pe g f) (refines : Pe.Refines (Gl.layout g) pe after) :
    ∃ f', Reached edge out start after g f' := by
  have steps := refines.steps
  rw [reached.level, reached.started] at steps
  obtain ⟨f', pass, relaxed⟩ := reached.pass.run setting steps
  exact ⟨f', refines.consistent, refines.level.trans reached.level,
    refines.start.trans reached.started, pass, reached.relaxed.trans relaxed⟩

theorem reached_run (setting : Setting g edge out inn pe.ramData pe.level)
    (drained : pe.Drained (Gl.layout g))
    (run : Relation.ReflTransGen (Pe.LevelStep (Gl.layout g))
      (pe.observeStart (Gl.layout g)) final) :
    ∃ f, Reached edge out pe final g f := by
  refine Kernel.invariant_of_step (fun state => ∃ f, Reached edge out pe state g f) run
    ⟨{}, consistent_start drained, rfl, rfl, start_pass drained, ?_⟩ ?_
  · rw [start_relaxation setting]
  · rintro state after ⟨f, reached⟩ stepped
    cases stepped with
    | resume other ran => exact reached.refines setting (Pe.resume_refines reached.consistent other ran)
    | answer ran => exact reached.refines setting (Pe.answer_refines reached.consistent ran)

theorem Reached.finished {start : Pe} {f : Flow} (reached : Reached edge out start final g f)
    (drained : final.Drained (Gl.layout g)) :
    (∀ v, ¬ Pending g start.ramData start.level out final.idx f v) ∧
      ∀ i, final.idx i = partEnd g i := by
  have pass := reached.pass
  have spans : ∀ i, ((final.pipeline (Gl.layout g)).lines i).spans = [] := fun i => by
    rw [show (final.pipeline (Gl.layout g)).lines i = final.line i from rfl,
      line_drained drained i]
    rfl
  have analysed : ∀ i, final.idx i = partEnd g i := by
    intro i
    have stage := pass.inspect i
    rw [spans, show (final.pipeline (Gl.layout g)).depthBuffer0 i = [] from
      drained.depthBuffer0 i] at stage
    refine stage.finished ?_
    have idle := reached.consistent.inspect i (drained.creating _)
    have asked := drained.inspectReq i
    simp only [Pe.pipeline, Pe.inspectSpan, idle]
    omega
  have frontier : f.frontier = [] :=
    List.map_eq_nil_iff.mp (pass.vertex.buffer.symm.trans drained.frontierBuffer)
  have rpao : f.rpao = [] := List.map_eq_nil_iff.mp (pass.vertex.spans.symm.trans (spans 4))
  have rows : f.rows = [] := by
    have pointers := pass.vertex.pointers.symm.trans drained.rpaoBuffer
    cases stages : f.rows with
    | nil => rfl
    | cons u others =>
        rw [stages] at pointers
        cases pointers
  have row : f.row = [] := by
    have length := pass.column.current.length
    have asked := drained.ciaoReq
    simp only [Pe.pipeline] at length
    exact List.eq_nil_of_length_eq_zero (by omega)
  have ciao : f.ciao = [] := by
    have chunks := pass.column.spans
    rw [spans] at chunks
    exact List.forall₂_nil_left_iff.mp chunks
  have columns : f.columns = [] :=
    List.map_eq_nil_iff.mp (pass.column.buffer.symm.trans drained.ciaoBuffer)
  have vertices := List.map_eq_nil_iff.mp (pass.depth.buffer.symm.trans drained.vidxBuffer)
  rw [List.append_eq_nil_iff] at vertices
  have writes : f.writes = [] := List.map_eq_nil_iff.mp (pass.writes.symm.trans (spans 7))
  refine ⟨fun v pending => ?_, analysed⟩
  simp only [Pending, Flow.vertices, Flow.targets, frontier, rpao, rows, row, ciao, columns,
    vertices.1, vertices.2, writes, List.append_nil, List.flatten_nil, List.not_mem_nil,
    or_false] at pending
  obtain ⟨u, _, _, i, least, behind⟩ := pending
  rw [analysed] at least
  omega

theorem counted_all {before : List Byte} {level : Byte} :
    counted g before level (partEnd g) =
      (List.range g.vertexNum).countP fun v => depthByte g before v == level := by
  have vertexNum : (Gl.layout g).vertexNum = g.vertexNum := rfl
  have split : List.range g.vertexNum =
      List.range' 0 (g.vertexNum / 4) ++ List.range' (g.vertexNum / 4) (g.vertexNum / 4) ++
        List.range' (2 * (g.vertexNum / 4)) (g.vertexNum / 4) ++
        List.range' (3 * (g.vertexNum / 4)) (g.vertexNum - 3 * (g.vertexNum / 4)) := by
    have append := fun m n => @List.range'_append_1 0 m n
    simp only [Nat.zero_add] at append
    rw [append, ← Nat.two_mul, append, ← Nat.succ_mul, append, List.range_eq_range']
    congr 1
    omega
  rw [counted, Fin.sum_univ_four, split]
  simp only [List.countP_append, partEnd, Pe.resetIdx, Gl.maxLen, vertexNum]
  simp

/-- A level that starts and ends drained advances the depths, counts the vertices of the
level and changes nothing behind the depths. -/
theorem run_advance (setting : Setting g edge out inn pe.ramData pe.level)
    (drained : pe.Drained (Gl.layout g))
    (run : Relation.ReflTransGen (Pe.LevelStep (Gl.layout g))
      (pe.observeStart (Gl.layout g)) final)
    (finished : final.Drained (Gl.layout g)) :
    depthByte g final.ramData =
        advance edge (-1) pe.level (pe.level + 1) (depthByte g pe.ramData) ∧
      final.ramData.length = pe.ramData.length ∧
      (∀ addr, g.vertexNum ≤ addr → final.ramData[addr]? = pe.ramData[addr]?) ∧
      final.frontierSize =
        (List.range g.vertexNum).countP fun v => depthByte g pe.ramData v == pe.level := by
  obtain ⟨f, reached⟩ := reached_run setting drained run
  obtain ⟨none, analysed⟩ := reached.finished finished
  have ram := reached.pass.transfers.ram
  refine ⟨Relaxation.run_advance reached.relaxed none, ram.length, fun addr behind => ?_, ?_⟩
  · rcases ram.bytes addr with same | ⟨_, next, _⟩
    · exact same
    · exact absurd (next.lt setting) (by omega)
  · rw [← counted_all, ← funext analysed]
    exact reached.pass.count

end Core

section Loaded

variable {isUgraph : Bool} {edges : List (Nat × Nat)} {g : Graph} {ramData : List Byte}

theorem small_of_laidOut (built : g.BuiltFrom isUgraph edges) (laidOut : LaidOut g ramData) :
    ∀ value ∈ (CSR.ofGraph g).rpao ++ (CSR.ofGraph g).ciao, value < 2 ^ 31 := by
  have fits : 4 * (CSR.ofGraph g).ciao.length ≤ ramData.length := by
    by_contra outside
    have stored := laidOut.ciao (4 * (CSR.ofGraph g).ciao.length - 1) (by
      show _ < 4 * (CSR.ofGraph g).ciao.length
      omega)
    rw [List.getElem?_eq_none (by omega)] at stored
    have beyond := List.getElem?_eq_none_iff.mp stored.symm
    rw [flatMap_intBytes_length, List.length_map] at beyond
    change 4 * (CSR.ofGraph g).ciao.length ≤ _ at beyond
    omega
  have length := laidOut.length
  have degrees : g.vertices.map (·.outDeg) = (g.vertices.map (·.outVid)).map List.length := by
    simp [built.vertices, Graph.store, Graph.setDegrees, Function.comp_def]
  have pointers : (CSR.ofGraph g).rpao = SparseRows.pointers (g.vertices.map (·.outVid)) := by
    rw [SparseRows.pointers, ← degrees]
    rfl
  have columns : (CSR.ofGraph g).ciao = (g.vertices.map (·.outVid)).flatten :=
    List.flatMap_def ..
  intro value membership
  rcases List.mem_append.mp membership with pointer | column
  · rw [pointers] at pointer
    have := SparseRows.le_of_mem_pointers pointer
    rw [← columns] at this
    omega
  · obtain ⟨v, vertex, neighbour⟩ := List.mem_flatMap.mp column
    rw [built.vertices, Graph.store, List.map_map, List.mem_map] at vertex
    obtain ⟨u, _, rfl⟩ := vertex
    have := (built.edge_lt (mem_outNgbs.mp neighbour)).2
    have := laidOut.vertexNum_lt
    omega

theorem setting_of_built {ram0 : List Byte} {level : Byte} (built : g.BuiltFrom isUgraph edges)
    (outgoing : outCount g.vertices ≤ g.edgeNum) (initialized : ramInit g = some ram0)
    (length : ramData.length = ram0.length)
    (arrays : ∀ addr, g.vertexNum ≤ addr → ramData[addr]? = ram0[addr]?)
    (visited : level ≠ -1) (nextVisited : level + 1 ≠ -1) :
    Setting g (Edge isUgraph edges) (outNgbs isUgraph edges) (inNgbs isUgraph edges) ramData
      level := by
  obtain ⟨laidOut, _⟩ := ramInit_spec built.vertices_length outgoing initialized
  have behind := laidOut.behind
  have laid : LaidOut g ramData := {
    rpao := fun k bound => (arrays _ (by omega)).trans (laidOut.rpao k bound)
    ciao := fun k bound => (arrays _ (by omega)).trans (laidOut.ciao k bound)
    behind
    length := length ▸ laidOut.length }
  exact {
    rep := CSR.ofGraph_represents built
    laidOut := laid
    small := small_of_laidOut built laid
    visited
    nextVisited }

theorem setting_of_loaded {ram0 : List Byte} {level : Byte}
    (loaded : loadGraph isUgraph (pairRows edges) = some g) (initialized : ramInit g = some ram0)
    (length : ramData.length = ram0.length)
    (arrays : ∀ addr, g.vertexNum ≤ addr → ramData[addr]? = ram0[addr]?)
    (visited : level ≠ -1) (nextVisited : level + 1 ≠ -1) :
    Setting g (Edge isUgraph edges) (outNgbs isUgraph edges) (inNgbs isUgraph edges) ramData
      level :=
  setting_of_built (loadGraph_builtFrom loaded) (loadGraph_outgoing loaded) initialized length
    arrays visited nextVisited

theorem ofInt_eq_iff {a b : Int} (aRange : -1 ≤ a ∧ a ≤ 127) (bRange : -1 ≤ b ∧ b ≤ 127) :
    BitVec.ofInt 8 a = BitVec.ofInt 8 b ↔ a = b := by
  refine ⟨fun same => ?_, congrArg _⟩
  have values := congrArg BitVec.toInt same
  rw [BitVec.toInt_ofInt, BitVec.toInt_ofInt, Int.bmod_eq_of_le (by omega) (by omega),
    Int.bmod_eq_of_le (by omega) (by omega)] at values
  exact values

theorem depthByte_of_depths {D : List Int} (size : D.length = g.vertexNum)
    (depths : ∀ v, v < g.vertexNum → ramData[v]? = D[v]?.map (BitVec.ofInt 8)) :
    depthByte g ramData = fun v => BitVec.ofInt 8 (depthOf D v) := by
  funext v
  rw [depthByte, depthOf]
  split
  · rename_i bound
    rw [depths v bound, List.getElem?_eq_getElem (size ▸ bound)]
    rfl
  · rw [List.getElem?_eq_none (by omega)]
    rfl

theorem getElem?_of_depthByte {v : Nat} (bound : v < g.vertexNum)
    (covers : g.vertexNum < ramData.length) : ramData[v]? = some (depthByte g ramData v) := by
  rw [depthByte, if_pos bound, List.getElem?_eq_getElem (Nat.lt_trans bound covers),
    Option.getD_some]

/-- An iteration of the software search on any depths. -/
theorem tdRound_advance {csr : CSR} {edge : Nat → Nat → Prop} {out inn : Nat → List Nat}
    (rep : csr.Represents edge out inn) {D : List Int} (size : D.length = csr.vNum) (L : Nat) :
    ∃ next again, tdRound csr { level := L, t := { depth := D } } = some (next, again) ∧
      next.t.depth.length = csr.vNum ∧
      depthOf next.t.depth = advance edge (-1) (L : Int) (L + 1) (depthOf D) := by
  obtain ⟨counters, scanned⟩ := scanDepth_eq size (L : Int) [] {}
  rw [List.nil_append] at scanned
  obtain ⟨t, walked, depth, _⟩ := @topDown_eq csr edge out inn rep (L : Int) (by omega)
    { depth := D, counters } size (verticesAt csr.vNum L D) fun v => verticesAt_lt
  refine ⟨_, _, by simp only [tdRound, scanned, Option.bind_eq_bind, Option.bind_some, walked,
    Option.pure_def]; rfl, ?_, ?_⟩
  · rw [depth, relax_length]
    exact size
  · rw [depth]
    exact depthOf_relax rep size (by omega)

/-- One level of the accelerator, from any drained state whose image holds the depths
`D` in front of the arrays of a loaded graph: in every order of the steps that ends
drained, the image holds the depths of one iteration of `tdBfs`, that is, `D` with the
next level on the unvisited out-neighbours of the level; `frontierSize` is the size of
the level, and no other byte has changed. -/
theorem levelPass_refines (loaded : loadGraph isUgraph (pairRows edges) = some g)
    {ram0 : List Byte} (initialized : ramInit g = some ram0) {L : Nat} (bound : L ≤ 126)
    {D : List Int} (size : D.length = g.vertexNum)
    (range : ∀ d ∈ D, d = -1 ∨ 0 ≤ d ∧ d ≤ L) {pe final : Pe}
    (drained : pe.Drained (Gl.layout g)) (held : pe.level = BitVec.ofNat 8 L)
    (depths : ∀ v, v < g.vertexNum → pe.ramData[v]? = D[v]?.map (BitVec.ofInt 8))
    (length : pe.ramData.length = ram0.length)
    (arrays : ∀ addr, g.vertexNum ≤ addr → pe.ramData[addr]? = ram0[addr]?)
    (run : Relation.ReflTransGen (Pe.LevelStep (Gl.layout g))
      (pe.observeStart (Gl.layout g)) final)
    (finished : final.Drained (Gl.layout g)) :
    ∃ csr next again, CSR.ofPairs isUgraph edges = some csr ∧
      tdRound csr { level := L, t := { depth := D } } = some (next, again) ∧
      depthOf next.t.depth = advance (Edge isUgraph edges) (-1) (L : Int) (L + 1) (depthOf D) ∧
      (∀ v, v < g.vertexNum → final.ramData[v]? = next.t.depth[v]?.map (BitVec.ofInt 8)) ∧
      (∀ addr, g.vertexNum ≤ addr → final.ramData[addr]? = ram0[addr]?) ∧
      final.ramData.length = ram0.length ∧
      final.frontierSize = (List.range g.vertexNum).countP fun v => D[v]? = some (L : Int) := by
  have rep := CSR.ofGraph_represents (loadGraph_builtFrom loaded)
  have vNum : (CSR.ofGraph g).vNum = g.vertexNum := rfl
  have level : pe.level = BitVec.ofInt 8 (L : Int) := held.trans (BitVec.ofInt_natCast 8 L).symm
  have next : pe.level + 1 = BitVec.ofInt 8 ((L : Int) + 1) := by
    rw [level, BitVec.ofInt_add]
    rfl
  have unvisited : (-1 : Byte) = BitVec.ofInt 8 (-1) := rfl
  have within : ∀ v, -1 ≤ depthOf D v ∧ depthOf D v ≤ 127 := by
    intro v
    rw [depthOf]
    cases present : D[v]? with
    | none => simp
    | some d =>
        have := range d (List.mem_of_getElem? present)
        simp only [Option.getD_some]
        omega
  have setting : Setting g (Edge isUgraph edges) _ _ pe.ramData pe.level :=
    setting_of_loaded loaded initialized length arrays
    (by rw [level, unvisited, ne_eq, ofInt_eq_iff (by omega) (by omega)]; omega)
    (by rw [next, unvisited, ne_eq, ofInt_eq_iff (by omega) (by omega)]; omega)
  have labels := depthByte_of_depths size depths
  obtain ⟨advanced, sameLength, sameArrays, counted⟩ := run_advance setting drained run finished
  have stored : CSR.Represents { CSR.ofGraph g with eNum := (pairRows edges).length }
      (Edge isUgraph edges) (outNgbs isUgraph edges) (inNgbs isUgraph edges) :=
    ⟨rep.outRow, rep.inRow, rep.mem_out, rep.mem_inn, rep.edge_lt⟩
  obtain ⟨after, again, ran, afterSize, afterDepths⟩ := tdRound_advance stored size L
  have bytes : depthByte g final.ramData =
      fun v => BitVec.ofInt 8 (depthOf after.t.depth v) := by
    rw [advanced, labels, next, level, unvisited, afterDepths]
    exact advance_map (BitVec.ofInt 8)
      (fun v => ofInt_eq_iff (within v) (by omega)) (fun v => ofInt_eq_iff (within v) (by omega))
  refine ⟨_, after, again, ofPairs_of_loaded loaded, ran, afterDepths, fun v bound => ?_,
    fun addr behind => (sameArrays addr behind).trans (arrays addr behind),
    sameLength.trans length, ?_⟩
  · have covers := setting.laidOut.vertexNum_lt
    rw [getElem?_of_depthByte bound (sameLength ▸ covers), bytes]
    simp only [depthOf]
    rw [List.getElem?_eq_getElem (afterSize ▸ bound)]
    rfl
  · rw [counted]
    refine List.countP_congr fun v _ => ?_
    rw [labels, level, beq_iff_eq, ofInt_eq_iff (within v) (by omega),
      depthOf_eq_iff (by omega), decide_eq_true_eq]

theorem levelPass_refines_hub : ∃ final : Pe,
    Relation.ReflTransGen (Pe.LevelStep (Gl.layout hub))
      ((Pe.reset (Gl.layout hub) hubRam).observeStart (Gl.layout hub)) final ∧
      final.Drained (Gl.layout hub) ∧ final.ramData[1]? = some 1 ∧ final.frontierSize = 1 := by
  obtain ⟨ram0, initialized, length, arrays, backs⟩ := hub_backed
  have finished : (replay (Gl.layout hub) (fun _ _ => true) hubLevel
      (hubKnown, (Pe.reset (Gl.layout hub) hubRam).observeStart (Gl.layout hub))).map
        (fun reached => decide (reached.2.Drained (Gl.layout hub))) = some true := by
    decide +kernel
  obtain ⟨⟨known, final⟩, ran, drained⟩ := Option.map_eq_some_iff.mp finished
  replace drained := of_decide_eq_true drained
  obtain ⟨run, _⟩ := @replay_run (Gl.layout hub) (fun _ _ => true) hubKnown known
    ((Pe.reset (Gl.layout hub) hubRam).observeStart (Gl.layout hub)) final
    (Pe.LevelStep (Gl.layout hub)) hubLevel
    (fun thread member _ _ _ resumes _ => by
      refine .resume ?_ resumes
      rintro rfl
      exact absurd member (by decide))
    (fun _ _ _ _ answers => .answer answers) backs ran
  have depths : ∀ v, v < hub.vertexNum →
      (Pe.reset (Gl.layout hub) hubRam).ramData[v]? = [(0 : Int), -1][v]?.map (BitVec.ofInt 8) := by
    intro v bound
    have number : hub.vertexNum = 2 := rfl
    obtain rfl | rfl : v = 0 ∨ v = 1 := by omega
    · exact backs 0 0 rfl
    · exact backs 1 (-1) rfl
  obtain ⟨csr, next, _, _, _, advanced, bytes, _, _, counted⟩ :=
    levelPass_refines hub_loaded initialized (Nat.zero_le 126) (D := [0, -1]) rfl (by decide)
      (Pe.drained_reset (Gl.layout hub) hubRam) rfl depths length arrays run drained
  refine ⟨final, run, drained, ?_, counted⟩
  have found : depthOf next.t.depth 1 = 1 := by
    rw [advanced]
    exact if_pos ⟨rfl, 0, rfl, .inl (by decide)⟩
  rw [bytes 1 (by decide)]
  rw [depthOf] at found
  cases present : next.t.depth[1]? with
  | none => simp [present] at found
  | some d =>
      obtain rfl : d = 1 := by simpa [present] using found
      rfl

end Loaded

end LevelPass

end GraphAccelerator
