import GraphAccelerator.Library.Chunks
import GraphAccelerator.Accelerator.Barrier

/-!
# What the request loops ask for

`inspectDepthReqThread` goes through its partition once for every start signal, and
`issueExpandCiaoReadReq` through one row after the other.  Whatever the buffers do
meanwhile, each of them asks for the chunks of its range in order, each chunk once.
Every burst that is read back consists of whole elements of its buffer.
-/

namespace GraphAccelerator

open Memory Kernel Queues Chunks

namespace Pe

variable {gl : Gl} {i : Part} {pe mid after : Pe} {delay : Nat} {journal : Journal}

def newSpans (before after : Pe) : List (Int × Nat) :=
  (appended before.bursts after.bursts).map fun op => ((op.addr : Int), op.length)

theorem newSpans_same (same : after.bursts = pe.bursts) : newSpans pe after = [] := by
  rw [newSpans, same, appended_self, List.map_nil]

theorem newSpans_created {j : Port} {op : BurstOp} :
    newSpans pe (pe.created j op) = [((op.addr : Int), op.length)] := by
  rw [newSpans, created, appended_append]
  rfl

/-! ### Partitions -/

/-- `inspectDepthReqThread`, which starts its partition at the start signal.  Around it
anything may change but its variables. -/
def inspectRequests (gl : Gl) (i : Part) : Loop Pe where
  visit pe after := ∃ delay, pe.inspectDepthReqThread gl i = some (after, delay)
  around pe after :=
    after.inspectReq i = pe.inspectReq i ∧ after.creating i.port = pe.creating i.port
  ranges pe _ :=
    if pe.creating i.port = none ∧ gl.maxLen i ≤ (pe.inspectReq i).currentLen ∧
      pe.bfsIterationStart = true then [((gl.baseDepthMemAddr i : Int), gl.maxLen i)] else []
  fits pe := (pe.depthBuffer0 i).length + pe.inspectLen gl i ≤ Gl.depthBufferDepth
  asked := newSpans

structure InspectAsking (gl : Gl) (i : Part) (pe : Pe) (journal : Journal) : Prop where
  asking : journal.Asking Gl.baseLen (inspectSpan gl pe.inspectReq i).addr
    (inspectSpan gl pe.inspectReq i).left
  outside : pe.creating i.port = none → (pe.inspectReq i).actualLen = 0

theorem InspectLoop.asking (looped : InspectLoop gl i mid after)
    (outside : (mid.inspectReq i).actualLen = 0)
    (asking : journal.Asking Gl.baseLen (inspectSpan gl mid.inspectReq i).addr
      (inspectSpan gl mid.inspectReq i).left) :
    InspectAsking gl i after
      (journal.visit [] ((inspectRequests gl i).fits after) (newSpans mid after)) := by
  cases looped with
  | finished finished =>
      rw [newSpans_same rfl]
      exact ⟨asking.wait (.inr (by simp only [inspectSpan]; omega)), fun _ => outside⟩
  | full _ full =>
      rw [newSpans_same rfl]
      exact ⟨asking.wait (.inl (decide_eq_false (by omega))), fun _ => outside⟩
  | @asked op more _ asks _ _ =>
      have addr := asks.addr
      have length := asks.length
      generalize created : created i.port op { mid with
        inspectReq := Function.update mid.inspectReq i
          { mid.inspectReq i with actualLen := mid.inspectLen gl i } } = after
      have spans : newSpans mid after =
          [(((mid.inspectReq i).depthMemAddr : Int), mid.inspectLen gl i)] := by
        rw [← addr, ← length, ← created]
        exact newSpans_created
      have next := asking.ask (by decide) (by simp only [inspectSpan]; omega)
        ((inspectRequests gl i).fits after)
      simp only [inspectSpan, outside, Nat.add_zero, Int.add_zero, Nat.cast_zero] at next
      rw [spans]
      refine ⟨?_, fun free => ?_⟩
      · subst created
        simp only [inspectSpan, Pe.created, Function.update_self, ← Nat.sub_sub]
        exact next
      · subst created
        simp [Pe.created] at free

theorem InspectAsking.visit (asking : InspectAsking gl i pe journal)
    (ran : pe.inspectDepthReqThread gl i = some (after, delay)) :
    InspectAsking gl i after (journal.visit ((inspectRequests gl i).ranges pe after)
      ((inspectRequests gl i).fits after) (newSpans pe after)) := by
  obtain ⟨_, mid, settled, looped⟩ := inspectDepthReqThread_cases ran
  have bursts : mid.bursts = pe.bursts := by cases settled <;> rfl
  have spans : newSpans pe after = newSpans mid after := by rw [newSpans, newSpans, bursts]
  rw [spans]
  obtain ⟨asking, outside⟩ := asking
  cases settled with
  | idle free running =>
      have none : (inspectRequests gl i).ranges pe after = [] :=
        if_neg fun starts => running starts.2
      rw [none]
      exact looped.asking (outside free) asking
  | restarted free done signal =>
      have one : (inspectRequests gl i).ranges pe after =
          [((gl.baseDepthMemAddr i : Int), gl.maxLen i)] := if_pos ⟨free, done, signal⟩
      have left : (inspectSpan gl pe.inspectReq i).left = 0 := by
        simp only [inspectSpan]
        omega
      rw [left] at asking
      rw [one]
      refine looped.asking (by simp) ?_
      simpa [inspectSpan] using asking.start (gl.baseDepthMemAddr i) (gl.maxLen i)
  | pushed creating =>
      have none : (inspectRequests gl i).ranges pe after = [] :=
        if_neg fun starts => by rw [starts.1] at creating; cases creating
      rw [none]
      refine looped.asking (by simp) ?_
      simpa [inspectSpan, Nat.add_assoc, Int.add_assoc] using asking

theorem InspectAsking.step {before after : Pe × Journal}
    (asking : InspectAsking gl i before.1 before.2)
    (stepped : (inspectRequests gl i).Step before after) :
    InspectAsking gl i after.1 after.2 := by
  cases stepped with
  | visit ran =>
      obtain ⟨_, ran⟩ := ran
      exact asking.visit ran
  | around changed =>
      obtain ⟨inspectReq, creating⟩ := changed
      refine ⟨?_, ?_⟩
      · simpa [inspectSpan, inspectReq] using asking.asking
      · simpa [inspectReq, creating] using asking.outside

/-! ### Rows -/

def rowPairs : List Int → List (Int × Int)
  | srcIdx :: dstIdx :: rest => (srcIdx, dstIdx) :: rowPairs rest
  | _ => []

def rowRange (gl : Gl) : Int × Int → Int × Nat
  | (srcIdx, dstIdx) => (gl.ciaoMemAddr + srcIdx * 4, (4 * (dstIdx - srcIdx)).toNat)

/-- `issueExpandCiaoReadReq`, which starts a row for every pair that it takes from
`rpaoBuffer`.  Around it anything may change but its variables. -/
def rowRequests (gl : Gl) : Loop Pe where
  visit pe after := ∃ delay, pe.issueExpandCiaoReadReq gl = some (after, delay)
  around pe after := after.ciaoReq = pe.ciaoReq ∧ after.creating 5 = pe.creating 5
  ranges pe after := (rowPairs (taken pe.rpaoBuffer after.rpaoBuffer)).map (rowRange gl)
  fits pe := pe.ciaoBuffer.length + pe.ciaoLen / 4 < Gl.ciaoBufferDepth
  asked := newSpans

structure RowAsking (gl : Gl) (pe : Pe) (journal : Journal) : Prop where
  asking : journal.Asking Gl.baseLen (pe.pipeline gl).row.addr (pe.pipeline gl).row.left
  outside : pe.creating 5 = none → pe.ciaoReq.actualLen = 0

theorem CiaoLoop.asking (looped : CiaoLoop gl mid after) (outside : mid.ciaoReq.actualLen = 0)
    (asking : journal.Asking Gl.baseLen (mid.pipeline gl).row.addr (mid.pipeline gl).row.left) :
    RowAsking gl after (journal.visit ((rowRequests gl).ranges mid after)
      ((rowRequests gl).fits after) (newSpans mid after)) := by
  have none : ∀ {pe after : Pe}, after.rpaoBuffer = pe.rpaoBuffer →
      (rowRequests gl).ranges pe after = [] := by
    intro pe after same
    simp only [rowRequests, same, taken_self, rowPairs, List.map_nil]
  induction looped generalizing journal with
  | empty finished _ =>
      rw [newSpans_same rfl, none rfl]
      exact ⟨asking.wait (.inr (by simp only [pipeline]; omega)), fun _ => outside⟩
  | @row pe after srcIdx dstIdx rest finished buffer looped inductionHypothesis =>
      obtain ⟨rows, same⟩ := looped.rest
      have left : (pe.pipeline gl).row.left = 0 := by
        simp only [pipeline]
        omega
      rw [left] at asking
      have started := asking.start (gl.ciaoMemAddr + srcIdx * 4) (4 * (dstIdx - srcIdx)).toNat
      have later := inductionHypothesis rfl (by simpa [pipeline, takenRow] using started)
      have ranges : (rowRequests gl).ranges pe after =
          rowRange gl (srcIdx, dstIdx) ::
            (rowRequests gl).ranges (pe.takenRow gl srcIdx dstIdx rest) after := by
        change rest = rows ++ after.rpaoBuffer at same
        simp only [rowRequests, takenRow, buffer, same, taken_of_append]
        rw [← List.cons_append, ← List.cons_append, taken_of_append, rowPairs, List.map_cons]
      rw [ranges]
      exact later
  | full _ full =>
      rw [newSpans_same rfl, none rfl]
      exact ⟨asking.wait (.inl (decide_eq_false (by omega))), fun _ => outside⟩
  | @asked pe op more _ asks _ _ =>
      have addr := asks.addr
      have length := asks.length
      generalize created : created 5 op { pe with
        ciaoReq := { pe.ciaoReq with actualLen := pe.ciaoLen } } = after
      have spans : newSpans pe after = [(pe.ciaoReq.ciaoMemAddr, pe.ciaoLen)] := by
        rw [← addr, ← length, ← created]
        exact newSpans_created
      have next := asking.ask (by decide) (by simp only [pipeline]; omega)
        ((rowRequests gl).fits after)
      simp only [pipeline, outside, Nat.add_zero, Int.add_zero, Nat.cast_zero] at next
      rw [spans, none (created ▸ rfl : after.rpaoBuffer = pe.rpaoBuffer)]
      refine ⟨?_, fun free => ?_⟩
      · subst created
        simp only [pipeline, Pe.created, ← Nat.sub_sub]
        exact next
      · subst created
        simp [Pe.created] at free

theorem RowAsking.visit (asking : RowAsking gl pe journal)
    (ran : pe.issueExpandCiaoReadReq gl = some (after, delay)) :
    RowAsking gl after (journal.visit ((rowRequests gl).ranges pe after)
      ((rowRequests gl).fits after) (newSpans pe after)) := by
  obtain ⟨_, mid, settled, looped⟩ := issueExpandCiaoReadReq_cases ran
  obtain ⟨asking, outside⟩ := asking
  cases settled with
  | idle free => exact looped.asking (outside free) asking
  | pushed creating =>
      have later := looped.asking rfl (by simpa [pipeline, Nat.add_assoc, Int.add_assoc] using asking)
      exact later

theorem RowAsking.step {before after : Pe × Journal} (asking : RowAsking gl before.1 before.2)
    (stepped : (rowRequests gl).Step before after) : RowAsking gl after.1 after.2 := by
  cases stepped with
  | visit ran =>
      obtain ⟨_, ran⟩ := ran
      exact asking.visit ran
  | around changed =>
      obtain ⟨ciaoReq, creating⟩ := changed
      refine ⟨?_, ?_⟩
      · simpa [pipeline, ciaoReq] using asking.asking
      · simpa [ciaoReq, creating] using asking.outside

/-! ### Elements -/

/-- The size of what `burstReqToBuffer` reads on a port: `int` or `char`. -/
def elementSize (i : Port) : Nat := if i = 4 ∨ i = 5 then 4 else 1

theorem elementSize_part (i : Part) : elementSize i.port = 1 :=
  if_neg (not_or.mpr ⟨port_ne i (by decide), port_ne i (by decide)⟩)

structure Whole (op : BurstOp) : Prop where
  some : 1 ≤ op.length
  multiple : elementSize op.portIdx ∣ op.length

theorem Whole.of_asks {op : BurstOp} {type : RequestType} {addr : Int} {length : Nat} {j : Port}
    (asks : Pipeline.Asks op type addr length) (port : op.portIdx = j) (some : 1 ≤ length)
    (multiple : elementSize j ∣ length) : Whole op :=
  ⟨asks.length ▸ some, by rw [asks.length, port]; exact multiple⟩

theorem appended_created {op : BurstOp} {j : Port} {holds : BurstOp → Prop} (one : holds op) :
    ∀ other ∈ appended pe.bursts (pe.created j op).bursts, holds other := by
  intro other membership
  rw [created, appended_append, List.mem_singleton] at membership
  exact membership ▸ one

theorem appended_nothing {bursts : List BurstOp} {holds : BurstOp → Prop} :
    ∀ op ∈ appended bursts bursts, holds op := by
  rw [appended_self]
  exact nofun

theorem InspectLoop.whole (looped : InspectLoop gl i pe after) :
    ∀ op ∈ appended pe.bursts after.bursts, Whole op := by
  cases looped with
  | finished _ | full _ _ => exact appended_nothing
  | asked more _ asks port _ =>
      have length : 1 ≤ pe.inspectLen gl i := Nat.le_min.mpr ⟨by decide, by omega⟩
      exact @appended_created { pe with
        inspectReq := Function.update pe.inspectReq i
          { pe.inspectReq i with actualLen := pe.inspectLen gl i } } _ _ _
        (.of_asks asks port length (by rw [elementSize_part]; exact Nat.one_dvd _))

theorem FrontierLoop.whole (looped : FrontierLoop gl pe after) :
    ∀ op ∈ appended pe.bursts after.bursts, Whole op := by
  cases looped with
  | empty _ | full _ _ => exact appended_nothing
  | asked _ _ asks port _ =>
      exact appended_created (.of_asks asks port (by decide) (by decide))

theorem DepthLoop.whole (looped : DepthLoop gl pe after) :
    ∀ op ∈ appended pe.bursts after.bursts, Whole op := by
  cases looped with
  | empty _ | full _ => exact appended_nothing
  | asked _ _ asks port _ =>
      exact appended_created (.of_asks asks port (by decide) (by decide))

theorem ExpandLoop.whole (looped : ExpandLoop gl pe after) :
    ∀ op ∈ appended pe.bursts after.bursts, Whole op := by
  induction looped with
  | empty _ | full _ => exact appended_nothing
  | visited _ _ _ _ inductionHypothesis => exact inductionHypothesis
  | fresh _ _ asks port _ =>
      exact appended_created (.of_asks asks port (by decide) (by decide))

theorem exists_flight {op : BurstOp} {j : Port} (waits : op ∈ (pe.line j).pending) :
    ∃ burstIdx ∈ pe.flight j, pe.bursts[burstIdx]? = some op := by
  rcases List.mem_append.mp waits with queued | asked
  · obtain ⟨burstIdx, member, present⟩ := List.mem_filterMap.mp queued
    refine ⟨burstIdx, ?_, present⟩
    simp only [BurstQueues.flight, BurstQueues.pushed]
    exact List.mem_append_left _ (List.mem_append_right _ member)
  · simp only [BurstQueues.line, Option.mem_toList, Option.bind_eq_some_iff] at asked
    obtain ⟨burstIdx, creating, present⟩ := asked
    exact ⟨burstIdx, List.mem_append_right _ (by simp [creating]), present⟩

/-- All bursts are whole.  Those of a row are, because its length is. -/
structure Sized (pe : Pe) : Prop where
  consistent : pe.Consistent
  chunked : Chunked pe
  bursts : ∀ op ∈ pe.bursts, Whole op

namespace Sized

variable {thread : PeThread} {j : Port}

theorem created (consistent : pe.Consistent) (chunked : Chunked after)
    (other : thread ≠ .bfsController) (ran : pe.resume gl thread = some (after, delay)) :
    ∀ op ∈ appended pe.bursts after.bursts, Whole op := by
  have count : ∀ {mid : Pe}, mid.bursts.length = pe.bursts.length →
      appended pe.bursts after.bursts = appended mid.bursts after.bursts := by
    intro mid same
    rw [appended, appended, same]
  intro op membership
  obtain ⟨asks, waits⟩ := resume_appended consistent other ran op membership
  cases thread with
  | issueInspectDepthReadReq prIdx =>
      obtain ⟨_, mid, settled, looped⟩ := inspectDepthReqThread_cases ran
      rw [count (by cases settled <;> rfl : mid.bursts.length = _)] at membership
      exact looped.whole op membership
  | frontierAnalysis =>
      obtain ⟨_, mid, settled, looped⟩ := frontierAnalysis_cases ran
      rw [count (by cases settled <;> rfl : mid.bursts.length = _)] at membership
      exact looped.whole op membership
  | issueExpandCiaoReadReq =>
      have port : op.portIdx = 5 := (Option.some.inj asks).symm
      rw [port] at waits
      obtain ⟨burstIdx, flying, present⟩ := exists_flight waits
      obtain ⟨op', present', ints, length, some, _⟩ := chunked.flight burstIdx flying
      rw [present] at present'
      obtain rfl := Option.some.inj present'
      refine ⟨by omega, ?_⟩
      rw [port, length]
      exact Nat.dvd_mul_right ..
  | issueExpandDepthReadReq =>
      obtain ⟨_, mid, settled, looped⟩ := issueExpandDepthReadReq_cases ran
      rw [count (by cases settled <;> rfl : mid.bursts.length = _)] at membership
      exact looped.whole op membership
  | expandDepthAnalysis =>
      obtain ⟨_, mid, settled, looped⟩ := expandDepthAnalysis_cases ran
      rw [count (by cases settled <;> simp [pushBurst] : mid.bursts.length = _)] at membership
      exact looped.whole op membership
  | _ => cases asks

theorem whole_of_shape (op other : BurstOp) (same : op.shape = other.shape) (whole : Whole op) :
    Whole other := by
  refine ⟨shape_length same ▸ whole.some, ?_⟩
  rw [← shape_length same, ← shape_portIdx same]
  exact whole.multiple

theorem resume (sized : Sized pe) (other : thread ≠ .bfsController)
    (ran : pe.resume gl thread = some (after, delay)) : Sized after := by
  have chunked := sized.chunked.resume sized.consistent other ran
  refine ⟨(resume_refines sized.consistent other ran).consistent, chunked, ?_⟩
  exact forall_extend whole_of_shape sized.bursts (resume_frame other ran).bursts
    (created sized.consistent chunked other ran)

theorem answer (sized : Sized pe) (ran : pe.answer j = some after) : Sized after where
  consistent := (@answer_refines noGraph _ _ j sized.consistent ran).consistent
  chunked := sized.chunked.answer ran
  bursts := forall_answered whole_of_shape sized.bursts ran

theorem control (sized : Sized pe) : Sized pe.bfsController where
  consistent := (@bfsController_pipeline noGraph _ sized.consistent).1
  chunked := sized.chunked.control
  bursts := by
    rw [bfsController_queues]
    exact sized.bursts

theorem step {permits : PeThread → Pe → Pe → Prop} (sized : Sized pe)
    (stepped : Interleaved gl permits pe after) : Sized after := by
  cases stepped with
  | @resume thread _ ran _ =>
      by_cases controls : thread = .bfsController
      · subst controls
        cases ran
        exact sized.control
      · exact sized.resume controls ran
  | answer ran => exact sized.answer ran

theorem copied (sized : Sized pe) (j : Port) (burstIdx : Nat) (op : BurstOp)
    (transfer : pe.transfer j = some burstIdx) (present : pe.bursts[burstIdx]? = some op) :
    elementSize j ∣ op.length ∧ (j = 4 ∨ j = 5 → toWords op = (toBytes op).map toInts) := by
  have head := List.mem_of_mem_head? (sized.consistent.indexed.transfer j burstIdx transfer)
  obtain ⟨op', present', port⟩ := sized.consistent.indexed.port j burstIdx
    (by simp [BurstQueues.flight, BurstQueues.pushed, head])
  rw [present] at present'
  obtain rfl := Option.some.inj present'
  have whole := (sized.bursts op (List.mem_of_getElem? present)).multiple
  rw [port] at whole
  refine ⟨whole, fun ints => ?_⟩
  rw [elementSize, if_pos ints] at whole
  rw [toWords, if_neg (by omega)]

end Sized

theorem sized_reset (gl : Gl) (ramData : List Byte) : Sized (reset gl ramData) :=
  ⟨reset_consistent gl ramData, chunked_reset gl ramData, nofun⟩

end Pe

/-! ### The counters are `int`s -/

section Counters

open LevelPass Bfs

variable {isUgraph : Bool} {data : List (List Int)} {g : Graph} {ram0 ramData : List Byte}
variable {startIdx : Nat} {final : Timed TimedThread Pe}

theorem rowPairs_pointers {edge : Nat → Nat → Prop} {out inn : Nat → List Nat}
    {image : List Byte} {level : Byte} (setting : Setting g edge out inn image level)
    {rows : List Nat} (vertices : ∀ u ∈ rows, u < g.vertexNum) :
    ∀ pair ∈ Pe.rowPairs (rows.flatMap (rowPointers g)), ∃ first columns : Nat,
      pair = ((first : Int), ((first + columns : Nat) : Int)) ∧
      columns ≤ (CSR.ofGraph g).ciao.length := by
  induction rows with
  | nil => exact nofun
  | cons u rows inductionHypothesis =>
      obtain ⟨first, pointers, _, _, row⟩ := rowPointers_eq setting (vertices u List.mem_cons_self)
      intro pair membership
      rw [List.flatMap_cons, pointers] at membership
      rcases List.mem_cons.mp membership with rfl | later
      · refine ⟨first, (out u).length, rfl, ?_⟩
        have count := congrArg List.length row
        rw [List.length_take, List.length_drop] at count
        omega
      · exact inductionHypothesis (fun u member => vertices u (List.mem_cons_of_mem _ member))
          pair later

theorem ramInit_edgeNum (initialized : ramInit g = some ram0) : g.edgeNum * 4 * 4 < 2 ^ 31 := by
  simp only [ramInit] at initialized
  split at initialized
  · assumption
  · cases initialized

/-- In every run on a loaded graph the pairs are increasing, and no length that a request
loop computes with leaves the range of `int`. -/
theorem lengths_fit (loaded : loadGraph isUgraph data = some g)
    (initialized : ramInit g = some ram0) (vertex : startIdx < g.vertexNum)
    (started : setNewStartVertex (Gl.layout g) startIdx ram0 = some ramData)
    (run : Relation.ReflTransGen (Pe.Cycle (Gl.layout g)) (Pe.start (Gl.layout g) ramData) final) :
    (∀ i, (Gl.layout g).maxLen i + Gl.baseLen < 2 ^ 31) ∧
      ∀ pair ∈ Pe.rowPairs final.state.rpaoBuffer, 0 ≤ pair.1 ∧ pair.1 ≤ pair.2 ∧
        4 * (pair.2 - pair.1) + Gl.baseLen < 2 ^ 31 := by
  obtain ⟨edges, built, _⟩ := loadGraph_rows loaded
  obtain ⟨outgoing, _⟩ := loadGraph_counts loaded
  have setting := Pairing.levelled_setting built outgoing initialized
  have bounded := bounded_run built outgoing initialized (arrays_of_started vertex started) run
  obtain ⟨h, holds⟩ := bounded.holds
  obtain ⟨_, _, _, _, _, _, _, part, _⟩ := holds.expansion
  have image := setting.laidOut.length
  have vertices := setting.laidOut.vertexNum_lt
  refine ⟨fun i => ?_, fun pair membership => ?_⟩
  · have number : (Gl.layout g).vertexNum = g.vertexNum := rfl
    simp only [Gl.maxLen, Gl.baseLen, number]
    split <;> omega
  · rw [part.stage.pointers] at membership
    obtain ⟨first, count, rfl, few⟩ := rowPairs_pointers setting (fun u member =>
      ((depthByte_eq setting.visited).mp (part.stage.level u (by simp [member]))).1) pair membership
    have stored : (CSR.ofGraph g).ciao.length ≤ g.edgeNum := outgoing
    have small := ramInit_edgeNum initialized
    simp only [Gl.baseLen]
    omega

end Counters

namespace Pe

/-! ### The whole accelerator -/

section Runs

variable {gl : Gl} {loop : Loop Pe} {own : PeThread} {permits : PeThread → Pe → Pe → Prop}
variable {pe after final : Pe}

/-- The loop of a thread whose variables nobody else changes. -/
structure Loop.Owned (gl : Gl) (loop : Loop Pe) (own : PeThread) : Prop where
  timed : own ≠ .bfsController
  visits : ∀ {pe after delay}, pe.resume gl own = some (after, delay) → loop.visit pe after
  others : ∀ {pe after thread delay}, thread ≠ .bfsController → thread ≠ own →
    pe.resume gl thread = some (after, delay) → loop.around pe after
  control : ∀ pe, loop.around pe pe.bfsController
  answers : ∀ {pe after j}, pe.answer j = some after → loop.around pe after

theorem inspect_owned (gl : Gl) (i : Part) :
    Loop.Owned gl (inspectRequests gl i) (.issueInspectDepthReadReq i) where
  timed := by simp
  visits ran := ⟨_, ran⟩
  others controls asks ran :=
    have frame := resume_frame controls ran
    ⟨frame.inspectReq i asks, frame.creating _ fun same => asks (PeThread.asks_part same)⟩
  control pe := by
    obtain ⟨_, _, _, same⟩ := bfsController_eq pe
    rw [same]
    exact ⟨rfl, rfl⟩
  answers ran := by cases answer_cases ran <;> exact ⟨rfl, rfl⟩

theorem row_owned (gl : Gl) : Loop.Owned gl (rowRequests gl) .issueExpandCiaoReadReq where
  timed := by simp
  visits ran := ⟨_, ran⟩
  others controls asks ran :=
    have frame := resume_frame controls ran
    ⟨frame.ciaoReq asks, frame.creating 5 fun same => asks (PeThread.asks_eq same)⟩
  control pe := by
    obtain ⟨_, _, _, same⟩ := bfsController_eq pe
    rw [same]
    exact ⟨rfl, rfl⟩
  answers ran := by cases answer_cases ran <;> exact ⟨rfl, rfl⟩

theorem Loop.Owned.resume (owned : Loop.Owned gl loop own) {thread : PeThread} {delay : Nat}
    (ran : pe.resume gl thread = some (after, delay)) (journal : Journal) :
    loop.Step (pe, journal) (after, if thread = own then
      journal.visit (loop.ranges pe after) (loop.fits after) (loop.asked pe after)
      else journal) := by
  by_cases asks : thread = own
  · subst asks
    rw [if_pos rfl]
    exact .visit (owned.visits ran)
  · rw [if_neg asks]
    by_cases controls : thread = .bfsController
    · subst controls
      cases ran
      exact .around (owned.control pe)
    · exact .around (owned.others controls asks ran)

/-- A run of the system is a run of a loop in it. -/
theorem Loop.Owned.of_run (owned : Loop.Owned gl loop own)
    (run : Relation.ReflTransGen (Interleaved gl permits) pe final) (journal : Journal) :
    ∃ later, Relation.ReflTransGen loop.Step (pe, journal) (final, later) := by
  induction run with
  | refl => exact ⟨journal, .refl⟩
  | tail _ stepped inductionHypothesis =>
      obtain ⟨between, run⟩ := inductionHypothesis
      cases stepped with
      | resume ran _ => exact ⟨_, run.tail (owned.resume ran between)⟩
      | answer ran => exact ⟨between, run.tail (.around (owned.answers ran))⟩

/-- Whatever happens around them, the loops ask for the chunks of their partitions and of
their rows: of 1 to `GL::baseLen` bytes, in increasing order, every byte once.  A range is
done when as many visits found room for a chunk as it has chunks.  In every run of the
accelerator, in any order, a burst that a response thread copies consists of whole
elements, so the conversion to ints is not refused.  On a loaded graph the pairs of row
pointers are increasing, and no length that a loop computes with leaves the range of
`int`. -/
theorem requests_tile (gl : Gl) (ramData : List Byte) :
    (∀ i final journal, Relation.ReflTransGen (inspectRequests gl i).Step
        (reset gl ramData, {}) (final, journal) →
      journal.Covered Gl.baseLen (inspectSpan gl final.inspectReq i).addr
        (inspectSpan gl final.inspectReq i).left ∧
      ∃ after, (inspectRequests gl i).visit final after) ∧
    (∀ final journal, Relation.ReflTransGen (rowRequests gl).Step
        (reset gl ramData, {}) (final, journal) →
      journal.Covered Gl.baseLen (final.pipeline gl).row.addr (final.pipeline gl).row.left ∧
      (0 ≤ (final.pipeline gl).row.addr → (∀ idx ∈ final.rpaoBuffer, 0 ≤ idx) →
        ∃ after, (rowRequests gl).visit final after)) ∧
    (∀ final, Relation.ReflTransGen (Interleaved gl anyOrder) (reset gl ramData) final →
      (∀ i, ∃ journal, Relation.ReflTransGen (inspectRequests gl i).Step
        (reset gl ramData, {}) (final, journal)) ∧
      (∃ journal, Relation.ReflTransGen (rowRequests gl).Step
        (reset gl ramData, {}) (final, journal)) ∧
      ∀ j burstIdx op, final.transfer j = some burstIdx → final.bursts[burstIdx]? = some op →
        elementSize j ∣ op.length ∧ (j = 4 ∨ j = 5 → toWords op = (toBytes op).map toInts)) ∧
    ∀ isUgraph data g ram0 startIdx, loadGraph isUgraph data = some g → gl = Gl.layout g →
      ramInit g = some ram0 → startIdx < g.vertexNum →
      setNewStartVertex gl startIdx ram0 = some ramData →
      ∀ final, Relation.ReflTransGen (Cycle gl) (start gl ramData) final →
        (∀ i, gl.maxLen i + Gl.baseLen < 2 ^ 31) ∧
        ∀ pair ∈ rowPairs final.state.rpaoBuffer, 0 ≤ pair.1 ∧ pair.1 ≤ pair.2 ∧
          4 * (pair.2 - pair.1) + Gl.baseLen < 2 ^ 31 := by
  refine ⟨fun i final journal run => ?_, fun final journal run => ?_,
    fun final run => ⟨?_, ?_, ?_⟩, fun isUgraph data g ram0 startIdx loaded => ?_⟩
  · have initial : InspectAsking gl i (reset gl ramData) {} :=
      ⟨by simpa [inspectSpan, reset] using Journal.Asking.empty Gl.baseLen, fun _ => rfl⟩
    have held := invariant_of_step (fun state => InspectAsking gl i state.1 state.2) run initial
      fun _ _ asking stepped => asking.step stepped
    obtain ⟨after, delay, ran⟩ := @inspectDepthReqThread_total gl final i
    exact ⟨held.asking.covered (by decide), after, delay, ran⟩
  · have initial : RowAsking gl (reset gl ramData) {} :=
      ⟨Journal.Asking.empty Gl.baseLen, fun _ => rfl⟩
    have held := invariant_of_step (fun state => RowAsking gl state.1 state.2) run initial
      fun _ _ asking stepped => asking.step stepped
    refine ⟨held.asking.covered (by decide), fun row natural => ?_⟩
    obtain ⟨after, delay, ran⟩ :=
      @issueExpandCiaoReadReq_total gl final natural (fun _ => row) held.outside
    exact ⟨after, delay, ran⟩
  · exact fun i => (inspect_owned gl i).of_run run {}
  · exact (row_owned gl).of_run run {}
  · exact (invariant_of_step Sized run (sized_reset gl ramData)
      fun _ _ sized stepped => sized.step stepped).copied
  · rintro rfl initialized vertex started final run
    exact lengths_fit loaded initialized vertex started run

def journalStep (gl : Gl) (loop : Loop Pe) (own : PeThread) :
    Pe × Journal → Choice → Option (Pe × Journal)
  | (pe, journal), .resume thread => do
      let (after, _) ← pe.resume gl thread
      return (after, if thread = own then
        journal.visit (loop.ranges pe after) (loop.fits after) (loop.asked pe after) else journal)
  | (pe, journal), .answer j => do return (← pe.answer j, journal)

theorem Loop.Owned.journal_run (owned : Loop.Owned gl loop own) {choices : List Choice}
    {before later : Pe × Journal}
    (ran : choices.foldlM (journalStep gl loop own) before = some later) :
    Relation.ReflTransGen loop.Step before later := by
  refine CheckedLoop.foldlM_invariant (fun _ reached =>
    Relation.ReflTransGen loop.Step before reached) ran .refl
    fun _ choice _ reached next _ run stepped => ?_
  obtain ⟨pe, journal⟩ := reached
  cases choice with
  | resume thread =>
      simp only [journalStep, Option.bind_eq_bind, Option.bind_eq_some_iff] at stepped
      obtain ⟨⟨after, delay⟩, resumes, stepped⟩ := stepped
      obtain rfl := Option.some.inj stepped
      exact run.tail (owned.resume resumes journal)
  | answer j =>
      obtain ⟨after, answers, stepped⟩ := Option.bind_eq_some_iff.mp stepped
      obtain rfl := Option.some.inj stepped
      exact run.tail (.around (owned.answers answers))

theorem requests_tile_hub :
    (∃ final journal, Relation.ReflTransGen (inspectRequests (Gl.layout hub) 3).Step
        (reset (Gl.layout hub) hubRam, {}) (final, journal) ∧ journal.current.issued = [(0, 2)] ∧
      journal.Covered Gl.baseLen (inspectSpan (Gl.layout hub) final.inspectReq 3).addr
        (inspectSpan (Gl.layout hub) final.inspectReq 3).left) ∧
    (∃ final journal, Relation.ReflTransGen (rowRequests (Gl.layout hub)).Step
        (reset (Gl.layout hub) hubRam, {}) (final, journal) ∧ journal.current.issued = [(512, 4)] ∧
      journal.Covered Gl.baseLen (final.pipeline (Gl.layout hub)).row.addr
        (final.pipeline (Gl.layout hub)).row.left) ∧
    ∃ final : Timed TimedThread Pe,
      Relation.ReflTransGen (Cycle (Gl.layout hub)) (start (Gl.layout hub) hubRam) final ∧
        rowPairs final.state.rpaoBuffer = [(0, 1)] ∧
        4 * (1 - 0) + (Gl.baseLen : Int) < 2 ^ 31 := by
  obtain ⟨inspections, rows, _, lengths⟩ := requests_tile (Gl.layout hub) hubRam
  obtain ⟨ram0, initialized, started⟩ := hub_started
  refine ⟨?_, ?_, ?_⟩
  · have asked : (hubSearch.foldlM (journalStep (Gl.layout hub) (inspectRequests (Gl.layout hub) 3)
        (.issueInspectDepthReadReq 3)) (reset (Gl.layout hub) hubRam, {})).map
          (·.2.current.issued) = some [(0, 2)] := by
      rw [hubRam_shown]
      decide +kernel
    obtain ⟨⟨final, journal⟩, ran, issued⟩ := Option.map_eq_some_iff.mp asked
    have run := (inspect_owned _ _).journal_run ran
    exact ⟨final, journal, run, issued, (inspections 3 final journal run).1⟩
  · have asked : (hubSearch.foldlM (journalStep (Gl.layout hub) (rowRequests (Gl.layout hub))
        .issueExpandCiaoReadReq) (reset (Gl.layout hub) hubRam, {})).map
          (·.2.current.issued) = some [(512, 4)] := by
      rw [hubRam_shown]
      decide +kernel
    obtain ⟨⟨final, journal⟩, ran, issued⟩ := Option.map_eq_some_iff.mp asked
    have run := (row_owned _).journal_run ran
    exact ⟨final, journal, run, issued, (rows final journal run).1⟩
  · -- the row is taken before the response is processed, so the pair stays for a cycle
    have waiting : (plays (Gl.layout hub) Linked.peThreads.reverse
        ((List.range 21).map fun cycle => if cycle = 11 then [3] else if cycle = 18 then [4] else [])
        (start (Gl.layout hub) hubRam).state).map (fun reached =>
          (reached.1.all (21 < ·.2), rowPairs reached.2.rpaoBuffer)) = some (true, [(0, 1)]) := by
      rw [hubRam_shown]
      decide +kernel
    obtain ⟨⟨dues, pe⟩, ran, observed⟩ := Option.map_eq_some_iff.mp waiting
    simp only [Prod.mk.injEq] at observed
    obtain ⟨later, pairs⟩ := observed
    obtain ⟨run, _⟩ := plays_run (List.reverse_perm _) ran (by simpa using later)
    have fit := (lengths false _ hub ram0 0 hub_loaded rfl initialized (by decide) started _ run).2
    exact ⟨_, run, pairs, (fit (0, 1) (by rw [pairs]; simp)).2.2⟩

end Runs

end Pe

end GraphAccelerator
