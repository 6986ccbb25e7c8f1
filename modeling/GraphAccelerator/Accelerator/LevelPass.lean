import Mathlib.Algebra.BigOperators.Fin
import Mathlib.Tactic.FinCases
import GraphAccelerator.Library.Relaxation
import GraphAccelerator.Accelerator.Refinement
import GraphAccelerator.Accelerator.Stages

/-!
# One level of the pipeline

The pipeline is a relaxation of the level: the vertices that its buffers and bursts
still stand for are the pending ones.  Every step of the pipeline keeps the meaning of
the stages and is a step of the relaxation, so a drained pipeline has advanced the
depths by one level, in whatever order its steps were taken.
-/

namespace GraphAccelerator

open Memory Pipeline Walks

namespace LevelPass

section Transport

variable {g : Graph} {edge : Nat → Nat → Prop} {before : List Byte} {level : Byte}
variable {ramData depthBuffer2 : List Byte} {line : Line} {lines : Port → Line} {op : BurstOp}

theorem spans_ask (free : line.asked = none) :
    { line with asked := some op }.spans = line.spans ++ [(op.addr, op.length)] := by
  simp [Line.spans, Line.ops, free]

theorem spans_push (asked : line.asked = some op) {pushed : BurstOp} (addr : pushed.addr = op.addr)
    (length : pushed.length = op.length) :
    { line with waiting := line.waiting ++ [pushed], asked := none }.spans = line.spans := by
  simp [Line.spans, Line.ops, asked, addr, length]

theorem spans_respond {rest : List BurstOp} (waiting : line.waiting = op :: rest)
    {answer : BurstOp} (addr : answer.addr = op.addr) (length : answer.length = op.length) :
    { line with responded := line.responded ++ [answer], waiting := line.waiting.tail }.spans =
      line.spans := by
  simp [Line.spans, Line.ops, waiting, addr, length]

theorem spans_take {rest : List BurstOp} (responded : line.responded = op :: rest) :
    line.spans =
      (op.addr, op.length) :: { line with responded := line.responded.tail }.spans := by
  simp [Line.spans, Line.ops, responded]

namespace ReadLine

theorem ask (reads : ReadLine g edge before level ramData line) {addr : Int} {length : Nat}
    (asks : Asks op .read addr length) :
    ReadLine g edge before level ramData { line with asked := some op } := by
  refine ⟨reads.responded, fun other membership => ?_⟩
  simp only [Option.toList_some, List.mem_append, List.mem_singleton] at membership
  rcases membership with old | rfl
  · exact reads.waiting other (List.mem_append_left _ old)
  · exact ⟨asks.type, asks.data⟩

theorem push (reads : ReadLine g edge before level ramData line) (asked : line.asked = some op) :
    ReadLine g edge before level ramData
      { line with waiting := line.waiting ++ [op], asked := none } := by
  refine ⟨reads.responded, fun other membership => reads.waiting other ?_⟩
  simpa [asked] using membership

theorem respond (reads : ReadLine g edge before level ramData line)
    (written : Written g edge before level ramData) {rest : List BurstOp}
    (waiting : line.waiting = op :: rest) {copied : BurstOp}
    (copies : op.ramToReq ramData = some copied) :
    ReadLine g edge before level ramData
      { line with responded := line.responded ++ [copied], waiting := line.waiting.tail } := by
  refine ⟨fun other membership => ?_, fun other membership => reads.waiting other ?_⟩
  · rw [List.mem_append, List.mem_singleton] at membership
    rcases membership with old | rfl
    · exact reads.responded other old
    · have empty := (reads.waiting op (by simp [waiting])).2
      simp only [BurstOp.ramToReq, Option.bind_eq_bind, Option.bind_eq_some_iff] at copies
      obtain ⟨bytes, read, same⟩ := copies
      obtain rfl := Option.some.inj same
      obtain ⟨rfl, length⟩ := mapM_range_getElem? read
      refine ⟨by simp only [empty, List.nil_append]; exact length, fun j byte present => ?_⟩
      simp only [empty, List.nil_append, List.getElem?_take, List.getElem?_drop] at present
      split at present
      · exact written.observed present
      · cases present
  · rw [waiting, List.tail_cons] at membership
    rw [waiting, List.cons_append]
    exact List.mem_cons_of_mem _ membership

theorem take (reads : ReadLine g edge before level ramData line) :
    ReadLine g edge before level ramData
      { line with responded := line.responded.tail } :=
  ⟨fun other membership => reads.responded other (List.mem_of_mem_tail membership),
    reads.waiting⟩

theorem mono {later : List Byte} (reads : ReadLine g edge before level ramData line)
    (kept : ∀ addr : Nat, ramData[addr]? = some (level + 1) → later[addr]? = some (level + 1)) :
    ReadLine g edge before level later line :=
  ⟨fun op membership => ⟨(reads.responded op membership).length, fun j byte present =>
    ((reads.responded op membership).bytes j byte present).mono kept⟩, reads.waiting⟩

end ReadLine

theorem Transfers.setRead (transfers : Transfers g edge before level ramData depthBuffer2 lines)
    {i : Port} (reading : i ≠ 7) (reads : ReadLine g edge before level ramData line) :
    Transfers g edge before level ramData depthBuffer2 (Function.update lines i line) := by
  refine ⟨transfers.ram, fun j other => ?_, ?_⟩
  · by_cases here : j = i
    · subst here
      rw [Function.update_self]
      exact reads
    · rw [Function.update_of_ne here]
      exact transfers.reads j other
  · rw [Function.update_of_ne reading.symm]
    exact transfers.writes

theorem Transfers.setWrite {depthBuffer2' : List Byte}
    (transfers : Transfers g edge before level ramData depthBuffer2 lines)
    (writes : WriteLine g edge before level ramData depthBuffer2' line) :
    Transfers g edge before level ramData depthBuffer2' (Function.update lines 7 line) := by
  refine ⟨transfers.ram, fun j reading => ?_, ?_⟩
  · rw [Function.update_of_ne reading]
    exact transfers.reads j reading
  · rw [Function.update_self]
    exact writes

end Transport

/-- The vertices in the pipeline, by the stage they are in. -/
structure Flow where
  frontier : List Nat := []
  rpao : List Nat := []
  rows : List Nat := []
  row : List Nat := []
  ciao : List (List Nat) := []
  columns : List Nat := []
  read : List Nat := []
  depths : List Nat := []
  writes : List Nat := []

def Flow.vertices (f : Flow) : List Nat := f.frontier ++ f.rpao ++ f.rows

def Flow.targets (f : Flow) : List Nat :=
  f.row ++ f.ciao.flatten ++ f.columns ++ f.read ++ f.depths ++ f.writes

section Definitions

variable (g : Graph) (edge : Nat → Nat → Prop) (before : List Byte) (level : Byte)

def counted (idx : Part → Nat) : Nat :=
  ∑ i : Part, (List.range' (Pe.resetIdx (Gl.layout g) i)
    (idx i - Pe.resetIdx (Gl.layout g) i)).countP fun v => depthByte g before v == level

structure Pass (p : Pipeline) (f : Flow) : Prop where
  transfers : Transfers g edge before level p.ramData p.depthBuffer2 p.lines
  inspect : ∀ i, InspectStage g edge before level p.ramData i (p.idx i) (p.depthBuffer0 i)
    (p.lines i.port).spans (p.span i)
  vertex : VertexStage g before level p.frontierBuffer (p.lines 4).spans p.rpaoBuffer
    f.frontier f.rpao f.rows
  column : ColumnStage g edge before level p.row (p.lines 5).spans p.ciaoBuffer f.row f.ciao
    f.columns
  depth : DepthStage g edge before level p.ramData p.vidxBuffer (p.lines 6).spans p.depthBuffer1
    f.read f.depths
  writes : (p.lines 7).spans = f.writes.map fun v => (v, 1)
  next : ∀ v ∈ f.writes, Next g edge before level v
  count : p.frontierSize = counted g before level p.idx

def Uninspected (idx : Part → Nat) (u : Nat) : Prop :=
  depthByte g before u = level ∧ ∃ i, idx i ≤ u ∧ u < partEnd g i

variable (out : Nat → List Nat)

def Pending (idx : Part → Nat) (f : Flow) (v : Nat) : Prop :=
  (∃ u, v ∈ out u ∧ (Uninspected g before level idx u ∨ u ∈ f.vertices)) ∨ v ∈ f.targets

/-- What a pipeline has still to do. -/
def relaxation (p : Pipeline) (f : Flow) : Relaxation Nat Byte :=
  ⟨depthByte g p.ramData, Pending g before level out p.idx f⟩

def Continues (p : Pipeline) (f : Flow) (p' : Pipeline) : Prop :=
  ∃ f', Pass g edge before level p' f' ∧
    Relaxation.Step (-1) (level + 1) (relaxation g before level out p f)
      (relaxation g before level out p' f')

end Definitions

section Steps

variable {g : Graph} {edge : Nat → Nat → Prop} {out inn : Nat → List Nat}
variable {before : List Byte} {level : Byte} {p : Pipeline} {f f' : Flow}

theorem relaxes_of_moved {p' : Pipeline} (ramData : p'.ramData = p.ramData) (idx : p'.idx = p.idx)
    (vertices : ∀ u, u ∈ f'.vertices ↔ u ∈ f.vertices)
    (targets : ∀ v, v ∈ f'.targets ↔ v ∈ f.targets) :
    Relaxation.Step (-1) (level + 1) (relaxation g before level out p f)
      (relaxation g before level out p' f') := by
  rw [relaxation, relaxation, ramData, idx]
  refine .drop (fun v => ?_) (fun v pending => .inl ?_)
  · simp only [Pending, vertices, targets]
    exact id
  · simpa only [Pending, vertices, targets] using pending

theorem relaxes_of_visited {p' : Pipeline} (ramData : p'.ramData = p.ramData)
    (idx : p'.idx = p.idx) (vertices : f'.vertices = f.vertices) {v : Nat}
    (targets : ∀ w, w ∈ f.targets ↔ w = v ∨ w ∈ f'.targets)
    (visited : depthByte g p.ramData v ≠ -1) :
    Relaxation.Step (-1) (level + 1) (relaxation g before level out p f)
      (relaxation g before level out p' f') := by
  rw [relaxation, relaxation, ramData, idx]
  refine .drop (fun w => ?_) (fun w pending => ?_)
  · simp only [Pending, vertices, targets]
    exact Or.imp_right .inr
  · simp only [Pending, vertices, targets] at pending ⊢
    rcases pending with source | rfl | target
    · exact .inl (.inl source)
    · exact .inr visited
    · exact .inl (.inr target)

theorem Pass.askRpao (pass : Pass g edge before level p f) {vidx : Int} {rest : List Int}
    {op : BurstOp} (free : (p.lines 4).asked = none) (buffer : p.frontierBuffer = vidx :: rest)
    (asks : Asks op .read ((Gl.layout g).rpaoMemAddr + vidx * 4) 8) :
    Continues g edge before level out p f (ask 4 op { p with frontierBuffer := rest }) := by
  obtain ⟨u, others, frontier, vertex⟩ := (buffer ▸ pass.vertex).ask asks
  rw [← spans_ask free] at vertex
  refine ⟨{ f with frontier := others, rpao := f.rpao ++ [u] }, ⟨?_, fun i => ?_, vertex,
    pass.column, pass.depth, pass.writes, pass.next, pass.count⟩, ?_⟩
  · exact pass.transfers.setRead (by decide) ((pass.transfers.reads 4 (by decide)).ask asks)
  · have elsewhere := Pe.port_ne i (j := 4) (by decide)
    simpa only [ask, setLine, Function.update_of_ne elsewhere] using pass.inspect i
  · refine relaxes_of_moved rfl rfl (fun v => ?_) (fun v => Iff.rfl)
    simp only [Flow.vertices, frontier, List.mem_append, List.mem_cons]
    grind

theorem Pass.askInspect (pass : Pass g edge before level p f) {i : Part} {op : BurstOp}
    {length : Nat} (free : (p.lines i.port).asked = none)
    (asks : Asks op .read (p.span i).addr length) (within : length ≤ (p.span i).left) :
    Continues g edge before level out p f (ask i.port op { p with
      span := Function.update p.span i
        ⟨(p.span i).addr + length, (p.span i).left - length⟩ }) := by
  have elsewhere : ∀ {j : Port} (line : Line), 4 ≤ j.val →
      Function.update p.lines i.port line j = p.lines j := fun line behind =>
    Function.update_of_ne (Pe.port_ne i behind).symm _ _
  refine ⟨f, ⟨?_, fun j => ?_, ?_, ?_, ?_, ?_, pass.next, pass.count⟩,
    relaxes_of_moved rfl rfl (fun v => Iff.rfl) (fun v => Iff.rfl)⟩
  · exact pass.transfers.setRead (Pe.port_ne i (by decide))
      ((pass.transfers.reads _ (Pe.port_ne i (by decide))).ask asks)
  · by_cases here : j = i
    · subst here
      have stage := (pass.inspect j).ask asks within
      rw [← spans_ask free] at stage
      simpa only [ask, setLine, Function.update_self] using stage
    · have other : j.port ≠ i.port := fun same => here (Pe.port_injective same)
      simpa only [ask, setLine, Function.update_of_ne other, Function.update_of_ne here] using
        pass.inspect j
  · simpa only [ask, setLine, elsewhere _ (j := 4) (by decide)] using pass.vertex
  · simpa only [ask, setLine, elsewhere _ (j := 5) (by decide)] using pass.column
  · simpa only [ask, setLine, elsewhere _ (j := 6) (by decide)] using pass.depth
  · simpa only [ask, setLine, elsewhere _ (j := 7) (by decide)] using pass.writes

theorem Pass.takeRow (setting : Setting g edge out inn before level)
    (pass : Pass g edge before level p f) {srcIdx dstIdx : Int} {rest : List Int}
    (finished : p.row.left = 0) (buffer : p.rpaoBuffer = srcIdx :: dstIdx :: rest) :
    Continues g edge before level out p f { p with
      rpaoBuffer := rest
      row := ⟨(Gl.layout g).ciaoMemAddr + srcIdx * 4, (4 * (dstIdx - srcIdx)).toNat⟩ } := by
  obtain ⟨u, others, rows, isLevel, vertex, stored⟩ := (buffer ▸ pass.vertex).take setting
  obtain ⟨row, column⟩ := pass.column.load finished stored fun v neighbour =>
    ⟨u, isLevel, (setting.rep.mem_out u v).mp neighbour⟩
  refine ⟨{ f with rows := others, row := out u }, ⟨pass.transfers, pass.inspect, vertex, column,
    pass.depth, pass.writes, pass.next, pass.count⟩, .drop (fun v => ?_) (fun v pending => .inl ?_)⟩
  · simp only [Pending, Flow.vertices, Flow.targets, rows, row, List.mem_append, List.mem_cons,
      List.not_mem_nil]
    rintro (⟨w, neighbour, source⟩ | target)
    · exact .inl ⟨w, neighbour, by grind⟩
    · by_cases new : v ∈ out u
      · exact .inl ⟨u, new, by grind⟩
      · exact .inr (by grind)
  · simp only [Pending, Flow.vertices, Flow.targets, rows, row, List.mem_append, List.mem_cons,
      List.not_mem_nil] at pending ⊢
    rcases pending with ⟨w, neighbour, source⟩ | target
    · by_cases here : w = u
      · subst here
        exact .inr (by grind)
      · exact .inl ⟨w, neighbour, by grind⟩
    · exact .inr (by grind)

theorem Pass.askCiao (pass : Pass g edge before level p f) {op : BurstOp} {length : Nat}
    (free : (p.lines 5).asked = none) (chunk : length = min Gl.baseLen p.row.left)
    (asks : Asks op .read p.row.addr length) :
    Continues g edge before level out p f
      (ask 5 op { p with row := ⟨p.row.addr + length, p.row.left - length⟩ }) := by
  obtain ⟨m, column⟩ := pass.column.ask chunk asks
  rw [← spans_ask free] at column
  refine ⟨{ f with row := f.row.drop m, ciao := f.ciao ++ [f.row.take m] }, ⟨?_, fun i => ?_,
    pass.vertex, column, pass.depth, pass.writes, pass.next, pass.count⟩, ?_⟩
  · exact pass.transfers.setRead (by decide) ((pass.transfers.reads 5 (by decide)).ask asks)
  · have elsewhere := Pe.port_ne i (j := 5) (by decide)
    simpa only [ask, setLine, Function.update_of_ne elsewhere] using pass.inspect i
  · refine relaxes_of_moved rfl rfl (fun v => Iff.rfl) (fun v => ?_)
    have split : v ∈ f.row ↔ v ∈ f.row.take m ∨ v ∈ f.row.drop m := by
      conv_lhs => rw [← List.take_append_drop m f.row, List.mem_append]
    simp only [Flow.targets, List.flatten_append, List.flatten_singleton, List.mem_append, split]
    grind

theorem Pass.askDepth (pass : Pass g edge before level p f) {vidx : Int} {rest : List Int}
    {op : BurstOp} (free : (p.lines 6).asked = none) (buffer : p.ciaoBuffer = vidx :: rest)
    (asks : Asks op .read ((Gl.layout g).depthMemAddr + vidx) 1) :
    Continues g edge before level out p f (ask 6 op { p with
      vidxBuffer := p.vidxBuffer ++ [vidx]
      ciaoBuffer := rest }) := by
  obtain ⟨v, others, columns, rfl, next, column⟩ := (buffer ▸ pass.column).take
  have depth := pass.depth.ask next asks
  rw [← spans_ask free] at depth
  refine ⟨{ f with columns := others, depths := f.depths ++ [v] }, ⟨?_, fun i => ?_,
    pass.vertex, column, depth, pass.writes, pass.next, pass.count⟩, ?_⟩
  · exact pass.transfers.setRead (by decide) ((pass.transfers.reads 6 (by decide)).ask asks)
  · have elsewhere := Pe.port_ne i (j := 6) (by decide)
    simpa only [ask, setLine, Function.update_of_ne elsewhere] using pass.inspect i
  · refine relaxes_of_moved rfl rfl (fun v => Iff.rfl) (fun w => ?_)
    simp only [Flow.targets, columns, List.mem_append, List.mem_cons, List.not_mem_nil]
    grind

theorem depthByte_ne {ramData : List Byte} {v : Nat} (bound : v < g.vertexNum)
    (present : v < ramData.length) :
    depthByte g ramData v ≠ -1 ↔ ramData[v]? ≠ some (-1) := by
  rw [depthByte, if_pos bound, List.getElem?_eq_getElem present, Option.getD_some, ne_eq, ne_eq,
    Option.some.injEq]

theorem Pass.expandOld (setting : Setting g edge out inn before level)
    (pass : Pass g edge before level p f) {d : Byte} {rest : List Byte} {vidx : Int}
    {vidxs : List Int} (depths : p.depthBuffer1 = d :: rest)
    (vertices : p.vidxBuffer = vidx :: vidxs) (visited : d ≠ -1) :
    Continues g edge before level out p f
      { p with depthBuffer1 := rest, vidxBuffer := vidxs } := by
  obtain ⟨v, others, read, rfl, observed, next, depth⟩ :=
    (vertices ▸ depths ▸ pass.depth).take
  have ram := pass.transfers.ram
  have bound := next.lt setting
  refine ⟨{ f with read := others }, ⟨pass.transfers, pass.inspect, pass.vertex, pass.column,
    depth, pass.writes, pass.next, pass.count⟩, ?_⟩
  refine relaxes_of_visited rfl rfl rfl (fun w => ?_) ((depthByte_ne bound ?_).mpr
    (observed.visited setting ram visited))
  · simp only [Flow.targets, read, List.mem_append, List.mem_cons]
    grind
  · rw [ram.length]
    exact Nat.lt_trans bound setting.laidOut.vertexNum_lt

theorem Pass.expandNew (pass : Pass g edge before level p f) {rest : List Byte} {vidx : Int}
    {vidxs : List Int} {op : BurstOp} (free : (p.lines 7).asked = none)
    (depths : p.depthBuffer1 = -1 :: rest) (vertices : p.vidxBuffer = vidx :: vidxs)
    (asks : Asks op .write ((Gl.layout g).depthMemAddr + vidx) 1) :
    Continues g edge before level out p f (ask 7 op { p with
      depthBuffer1 := rest
      vidxBuffer := vidxs
      depthBuffer2 := p.depthBuffer2 ++ [level + 1] }) := by
  obtain ⟨v, others, read, rfl, observed, next, depth⟩ :=
    (vertices ▸ depths ▸ pass.depth).take
  have writes := pass.transfers.writes
  have addr : op.addr = v := by
    have start := asks.addr
    have origin : (Gl.layout g).depthMemAddr = 0 := rfl
    omega
  have spans : ({ p.lines 7 with asked := some op } : Line).spans =
      (f.writes ++ [v]).map fun v => (v, 1) := by
    rw [spans_ask free, pass.writes, addr, asks.length, List.map_append]
    rfl
  refine ⟨{ f with read := others, writes := f.writes ++ [v] }, ⟨?_, fun i => ?_, pass.vertex,
    pass.column, depth, spans, fun w membership => ?_, pass.count⟩, ?_⟩
  · refine pass.transfers.setWrite ⟨writes.responded, writes.waiting, fun other asked => ?_, ?_⟩
    · obtain rfl := Option.some.inj asked
      exact ⟨asks.type, asks.data, asks.length, addr ▸ observed.fresh, addr ▸ next⟩
    · rw [writes.buffer, free]
      rfl
  · have elsewhere := Pe.port_ne i (j := 7) (by decide)
    simpa only [ask, setLine, Function.update_of_ne elsewhere] using pass.inspect i
  · rw [List.mem_append, List.mem_singleton] at membership
    rcases membership with old | rfl
    · exact pass.next w old
    · exact next
  · refine relaxes_of_moved rfl rfl (fun v => Iff.rfl) (fun w => ?_)
    simp only [Flow.targets, read, List.mem_append, List.mem_cons, List.not_mem_nil]
    grind

/-- Nothing but the line of one port changes, and it keeps its spans. -/
theorem Pass.setLine (pass : Pass g edge before level p f) {i : Port} {line : Line}
    (spans : line.spans = (p.lines i).spans) {depthBuffer2 : List Byte}
    (transfers : Transfers g edge before level p.ramData depthBuffer2
      (Function.update p.lines i line)) :
    Continues g edge before level out p f ({ p with depthBuffer2 }.setLine i line) := by
  have same : ∀ j, (({ p with depthBuffer2 }.setLine i line).lines j).spans =
      (p.lines j).spans := by
    intro j
    by_cases here : j = i
    · subst here
      simpa only [Pipeline.setLine, Function.update_self] using spans
    · simp only [Pipeline.setLine, Function.update_of_ne here]
  exact ⟨f, ⟨transfers, fun j => same j.port ▸ pass.inspect j, same 4 ▸ pass.vertex,
    same 5 ▸ pass.column, same 6 ▸ pass.depth, (same 7).trans pass.writes, pass.next, pass.count⟩,
    relaxes_of_moved rfl rfl (fun _ => Iff.rfl) (fun _ => Iff.rfl)⟩

theorem Pass.push (pass : Pass g edge before level p f) {i : Port} {op : BurstOp} (reading : i ≠ 7)
    (asked : (p.lines i).asked = some op) : Continues g edge before level out p f (p.push i op) :=
  pass.setLine (spans_push asked rfl rfl)
    (pass.transfers.setRead reading ((pass.transfers.reads i reading).push asked))

theorem Pass.fill (pass : Pass g edge before level p f) {op : BurstOp} {byte : Byte}
    {rest : List Byte} (asked : (p.lines 7).asked = some op)
    (buffer : p.depthBuffer2 = byte :: rest) :
    Continues g edge before level out p f
      (Pipeline.push 7 { op with data := op.data ++ [byte] } { p with depthBuffer2 := rest }) := by
  have writes := pass.transfers.writes
  have same := writes.buffer
  rw [buffer, asked] at same
  obtain ⟨rfl, rfl⟩ : byte = level + 1 ∧ rest = [] := by simpa using same
  have write := writes.asked op asked
  have spans := @spans_push _ _ asked { op with data := op.data ++ [level + 1] } rfl rfl
  refine pass.setLine spans
    (pass.transfers.setWrite ⟨writes.responded, fun other membership => ?_, ?_, rfl⟩)
  · rw [List.mem_append, List.mem_singleton] at membership
    rcases membership with old | rfl
    · exact writes.waiting other old
    · exact ⟨write.type, by rw [write.data]; rfl, write.length, write.fresh, write.next⟩
  · rintro other ⟨⟩

theorem reqToRam_eq {op : BurstOp} {ramData written : List Byte} {byte : Byte}
    (data : op.data = [byte]) (length : op.length = 1) (ran : op.reqToRam ramData = some written) :
    op.addr < ramData.length ∧ written = ramData.set op.addr byte := by
  simp only [BurstOp.reqToRam, length, List.range_one, List.foldlM_cons, List.foldlM_nil, data,
    List.getElem?_cons_zero, Nat.add_zero, Option.bind_eq_bind, Option.bind_some,
    Option.bind_eq_some_iff, Option.pure_def, Option.some.injEq] at ran
  obtain ⟨old, ⟨_, present, rfl⟩, rfl⟩ := ran
  exact ⟨(List.getElem?_eq_some_iff.mp present).1, rfl⟩

theorem Pass.read (pass : Pass g edge before level p f) {i : Port} {op copied : BurstOp}
    {rest : List BurstOp} (waiting : (p.lines i).waiting = op :: rest) (reading : op.type ≠ .write)
    (copies : op.ramToReq p.ramData = some copied) :
    Continues g edge before level out p f (p.respond i copied) := by
  have port : i ≠ 7 := by
    rintro rfl
    exact reading (pass.transfers.writes.waiting op (by simp [waiting])).type
  obtain ⟨bytes, same⟩ := ramToReq_eq copies
  exact pass.setLine (spans_respond waiting (by rw [same]) (by rw [same]))
    (pass.transfers.setRead port ((pass.transfers.reads i port).respond pass.transfers.ram
      waiting copies))

theorem depthByte_set {ramData : List Byte} {v : Nat} (bound : v < g.vertexNum)
    (present : v < ramData.length) (byte : Byte) :
    depthByte g (ramData.set v byte) = Function.update (depthByte g ramData) v byte := by
  funext w
  by_cases here : w = v
  · subst here
    rw [Function.update_self, depthByte, if_pos bound, List.getElem?_set_self present,
      Option.getD_some]
  · rw [Function.update_of_ne here, depthByte, depthByte, List.getElem?_set_ne (Ne.symm here)]

theorem Pass.write (setting : Setting g edge out inn before level)
    (pass : Pass g edge before level p f) {i : Port} {op : BurstOp} {rest : List BurstOp}
    {ramData : List Byte} (waiting : (p.lines i).waiting = op :: rest) (writing : op.type = .write)
    (ran : op.reqToRam p.ramData = some ramData) :
    Continues g edge before level out p f (respond i op { p with ramData }) := by
  have port : i = 7 := by
    by_contra reading
    have := ((pass.transfers.reads i reading).waiting op (by simp [waiting])).1
    rw [writing] at this
    cases this
  subst port
  have writes := pass.transfers.writes
  have ram := pass.transfers.ram
  have write := writes.waiting op (by simp [waiting])
  obtain ⟨present, rfl⟩ := reqToRam_eq write.data write.length ran
  have kept : ∀ addr : Nat, p.ramData[addr]? = some (level + 1) →
      (p.ramData.set op.addr (level + 1))[addr]? = some (level + 1) := by
    intro addr stored
    by_cases here : op.addr = addr
    · subst here
      exact List.getElem?_set_self present
    · rw [List.getElem?_set_ne here, stored]
  have written : Written g edge before level (p.ramData.set op.addr (level + 1)) := by
    refine ⟨by rw [List.length_set, ram.length], fun addr => ?_⟩
    by_cases here : op.addr = addr
    · subst here
      exact .inr ⟨write.fresh, write.next, List.getElem?_set_self present⟩
    · rw [List.getElem?_set_ne here]
      exact ram.bytes addr
  have spans := @spans_respond _ _ _ waiting op rfl rfl
  have pending : op.addr ∈ f.writes := by
    have member : (op.addr, op.length) ∈ (p.lines 7).spans := by
      simp [Line.spans, Line.ops, waiting]
    rw [pass.writes, List.mem_map] at member
    obtain ⟨v, membership, same⟩ := member
    exact (Prod.mk.inj same).1 ▸ membership
  refine ⟨f, ⟨⟨written, fun j reading => ?_, ?_⟩, fun j => ?_, pass.vertex, pass.column,
    pass.depth.mono kept, spans.trans pass.writes, pass.next, pass.count⟩, ?_⟩
  · simp only [respond, Pipeline.setLine, Function.update_of_ne reading]
    exact (pass.transfers.reads j reading).mono kept
  · refine ⟨fun other membership => ?_, fun other membership => writes.waiting other ?_,
      writes.asked, writes.buffer⟩
    · rcases List.mem_append.mp membership with old | new
      · exact kept _ (writes.responded other old)
      · obtain rfl := List.mem_singleton.mp new
        exact List.getElem?_set_self present
    · exact List.mem_of_mem_tail membership
  · have elsewhere := Pe.port_ne j (j := 7) (by decide)
    simpa only [respond, Pipeline.setLine, Function.update_of_ne elsewhere] using
      (pass.inspect j).mono kept
  · have bound := write.next.lt setting
    rw [relaxation, relaxation]
    simp only [respond, Pipeline.setLine, depthByte_set bound present]
    refine .write ?_ ?_
    · exact .inr (by simp [Flow.targets, pending])
    · rw [depthByte, if_pos bound]
      rcases ram.bytes op.addr with same | ⟨_, _, changed⟩
      · rw [same, write.fresh]
        exact .inl rfl
      · rw [changed]
        exact .inr rfl

theorem Pass.storeInspect (pass : Pass g edge before level p f) {i : Part} {op : BurstOp}
    {rest : List BurstOp} {bytes : List Byte}
    (responded : (p.lines i.port).responded = op :: rest)
    (converted : Pe.toBytes op = some bytes) :
    Continues g edge before level out p f (Pipeline.take i.port { p with
      depthBuffer0 := Function.update p.depthBuffer0 i (p.depthBuffer0 i ++ bytes) }) := by
  have elsewhere : ∀ {j : Port} (line : Line), 4 ≤ j.val →
      Function.update p.lines i.port line j = p.lines j := fun line behind =>
    Function.update_of_ne (Pe.port_ne i behind).symm _ _
  have reads := pass.transfers.reads i.port (Pe.port_ne i (by decide))
  refine ⟨f, ⟨?_, fun j => ?_, ?_, ?_, ?_, ?_, pass.next, pass.count⟩,
    relaxes_of_moved rfl rfl (fun v => Iff.rfl) (fun v => Iff.rfl)⟩
  · exact pass.transfers.setRead (Pe.port_ne i (by decide)) reads.take
  · by_cases here : j = i
    · subst here
      have stage := pass.inspect j
      rw [spans_take responded] at stage
      simpa only [Pipeline.take, Pipeline.setLine, Function.update_self] using
        stage.store (reads.responded op (by simp [responded])) converted
    · have other : j.port ≠ i.port := fun same => here (Pe.port_injective same)
      simpa only [Pipeline.take, Pipeline.setLine, Function.update_of_ne other,
        Function.update_of_ne here] using pass.inspect j
  · simpa only [Pipeline.take, Pipeline.setLine, elsewhere _ (j := 4) (by decide)] using pass.vertex
  · simpa only [Pipeline.take, Pipeline.setLine, elsewhere _ (j := 5) (by decide)] using pass.column
  · simpa only [Pipeline.take, Pipeline.setLine, elsewhere _ (j := 6) (by decide)] using pass.depth
  · simpa only [Pipeline.take, Pipeline.setLine, elsewhere _ (j := 7) (by decide)] using pass.writes

theorem Pass.storeRpao (setting : Setting g edge out inn before level)
    (pass : Pass g edge before level p f) {op : BurstOp} {rest : List BurstOp} {words : List Int}
    (responded : (p.lines 4).responded = op :: rest) (converted : Pe.toWords op = some words) :
    Continues g edge before level out p f
      (Pipeline.take 4 { p with rpaoBuffer := p.rpaoBuffer ++ words }) := by
  have reads := pass.transfers.reads 4 (by decide)
  have stage := pass.vertex
  rw [spans_take responded] at stage
  obtain ⟨u, others, asked, vertex⟩ :=
    stage.store setting (reads.responded op (by simp [responded])) converted
  refine ⟨{ f with rpao := others, rows := f.rows ++ [u] }, ⟨?_, fun i => ?_, vertex, pass.column,
    pass.depth, pass.writes, pass.next, pass.count⟩, ?_⟩
  · exact pass.transfers.setRead (by decide) reads.take
  · have elsewhere := Pe.port_ne i (j := 4) (by decide)
    simpa only [Pipeline.take, Pipeline.setLine, Function.update_of_ne elsewhere] using
      pass.inspect i
  · refine relaxes_of_moved rfl rfl (fun v => ?_) (fun v => Iff.rfl)
    simp only [Flow.vertices, asked, List.mem_append, List.mem_cons, List.not_mem_nil]
    grind

theorem Pass.storeCiao (setting : Setting g edge out inn before level)
    (pass : Pass g edge before level p f) {op : BurstOp} {rest : List BurstOp} {words : List Int}
    (responded : (p.lines 5).responded = op :: rest) (converted : Pe.toWords op = some words) :
    Continues g edge before level out p f
      (Pipeline.take 5 { p with ciaoBuffer := p.ciaoBuffer ++ words }) := by
  have reads := pass.transfers.reads 5 (by decide)
  have stage := pass.column
  rw [spans_take responded] at stage
  obtain ⟨chunk, others, asked, column⟩ :=
    stage.store setting (reads.responded op (by simp [responded])) converted
  refine ⟨{ f with ciao := others, columns := f.columns ++ chunk }, ⟨?_, fun i => ?_, pass.vertex,
    column, pass.depth, pass.writes, pass.next, pass.count⟩, ?_⟩
  · exact pass.transfers.setRead (by decide) reads.take
  · have elsewhere := Pe.port_ne i (j := 5) (by decide)
    simpa only [Pipeline.take, Pipeline.setLine, Function.update_of_ne elsewhere] using
      pass.inspect i
  · refine relaxes_of_moved rfl rfl (fun v => Iff.rfl) (fun v => ?_)
    simp only [Flow.targets, asked, List.flatten_cons, List.mem_append]
    grind

theorem Pass.storeDepth (pass : Pass g edge before level p f) {op : BurstOp} {rest : List BurstOp}
    {bytes : List Byte} (responded : (p.lines 6).responded = op :: rest)
    (converted : Pe.toBytes op = some bytes) :
    Continues g edge before level out p f
      (Pipeline.take 6 { p with depthBuffer1 := p.depthBuffer1 ++ bytes }) := by
  have reads := pass.transfers.reads 6 (by decide)
  have stage := pass.depth
  rw [spans_take responded] at stage
  obtain ⟨v, others, asked, depth⟩ :=
    stage.store (reads.responded op (by simp [responded])) converted
  refine ⟨{ f with depths := others, read := f.read ++ [v] }, ⟨?_, fun i => ?_, pass.vertex,
    pass.column, depth, pass.writes, pass.next, pass.count⟩, ?_⟩
  · exact pass.transfers.setRead (by decide) reads.take
  · have elsewhere := Pe.port_ne i (j := 6) (by decide)
    simpa only [Pipeline.take, Pipeline.setLine, Function.update_of_ne elsewhere] using
      pass.inspect i
  · refine relaxes_of_moved rfl rfl (fun v => Iff.rfl) (fun w => ?_)
    simp only [Flow.targets, asked, List.mem_append, List.mem_cons, List.not_mem_nil]
    grind

theorem Pass.dropWrite (setting : Setting g edge out inn before level)
    (pass : Pass g edge before level p f) {op : BurstOp} {rest : List BurstOp}
    (responded : (p.lines 7).responded = op :: rest) :
    Continues g edge before level out p f (p.take 7) := by
  have writes := pass.transfers.writes
  have spans := pass.writes
  rw [spans_take responded] at spans
  obtain ⟨v, others, targets⟩ : ∃ v others, f.writes = v :: others :=
    List.exists_cons_of_ne_nil fun empty => by rw [empty] at spans; cases spans
  rw [targets, List.map_cons, List.cons.injEq, Prod.mk.injEq] at spans
  obtain ⟨⟨rfl, _⟩, spans⟩ := spans
  have stored := writes.responded op (by simp [responded])
  refine ⟨{ f with writes := others }, ⟨?_, fun i => ?_, pass.vertex, pass.column, pass.depth,
    spans, fun w membership => pass.next w (targets ▸ List.mem_cons_of_mem _ membership),
    pass.count⟩, ?_⟩
  · exact pass.transfers.setWrite ⟨fun other membership =>
      writes.responded other (List.mem_of_mem_tail membership), writes.waiting, writes.asked,
      writes.buffer⟩
  · have elsewhere := Pe.port_ne i (j := 7) (by decide)
    simpa only [Pipeline.take, Pipeline.setLine, Function.update_of_ne elsewhere] using
      pass.inspect i
  · refine relaxes_of_visited rfl rfl rfl (v := op.addr) (fun w => ?_) ?_
    · simp only [Flow.targets, targets, List.mem_append, List.mem_cons]
      grind
    · have bound := (pass.next op.addr (by simp [targets])).lt setting
      rw [depthByte, if_pos bound, stored]
      exact setting.nextVisited

theorem counted_succ {idx : Part → Nat} {i : Part}
    (analysed : Pe.resetIdx (Gl.layout g) i ≤ idx i) :
    counted g before level (Function.update idx i (idx i + 1)) =
      counted g before level idx + if depthByte g before (idx i) = level then 1 else 0 := by
  generalize count : (fun (j : Part) (last : Nat) => (List.range' (Pe.resetIdx (Gl.layout g) j)
    (last - Pe.resetIdx (Gl.layout g) j)).countP fun v => depthByte g before v == level) = counts
  have one : counts i (idx i + 1) =
      counts i (idx i) + if depthByte g before (idx i) = level then 1 else 0 := by
    subst count
    dsimp only
    rw [Nat.succ_sub analysed, List.range'_concat, List.countP_append, Nat.one_mul,
      Nat.add_sub_cancel' analysed, List.countP_singleton]
    simp only [beq_iff_eq]
  have updated : (fun j => counts j (Function.update idx i (idx i + 1) j)) =
      Function.update (fun j => counts j (idx j)) i (counts i (idx i + 1)) := by
    funext j
    by_cases here : j = i
    · subst here
      simp only [Function.update_self]
    · simp only [Function.update_of_ne here]
  have sums : ∀ idx, counted g before level idx = ∑ j, counts j (idx j) := fun idx => by
    subst count
    rfl
  rw [sums, sums, updated, Finset.sum_update_of_mem (Finset.mem_univ i),
    Finset.sum_eq_sum_sdiff_singleton_add (Finset.mem_univ i), one]
  omega

theorem partEnd_le (i : Part) : partEnd g i ≤ g.vertexNum := by
  have vertexNum : (Gl.layout g).vertexNum = g.vertexNum := rfl
  rw [partEnd, Pe.resetIdx, Gl.maxLen, vertexNum]
  fin_cases i <;> simp <;> omega

theorem uninspected_succ {idx : Part → Nat} {i : Part} (within : idx i < partEnd g i) (v : Nat) :
    Uninspected g before level idx v ↔
      Uninspected g before level (Function.update idx i (idx i + 1)) v ∨
        v = idx i ∧ depthByte g before v = level := by
  constructor
  · rintro ⟨isLevel, j, least, behind⟩
    by_cases here : j = i
    · subst here
      by_cases first : v = idx j
      · exact .inr ⟨first, isLevel⟩
      · exact .inl ⟨isLevel, j, by rw [Function.update_self]; omega, behind⟩
    · exact .inl ⟨isLevel, j, by rwa [Function.update_of_ne here], behind⟩
  · rintro (⟨isLevel, j, least, behind⟩ | ⟨rfl, isLevel⟩)
    · refine ⟨isLevel, j, ?_, behind⟩
      by_cases here : j = i
      · subst here
        rw [Function.update_self] at least
        omega
      · rwa [Function.update_of_ne here] at least
    · exact ⟨isLevel, i, Nat.le_refl _, within⟩

theorem Pass.inspectDepth (setting : Setting g edge out inn before level)
    (pass : Pass g edge before level p f) {i : Part} {d : Byte} {rest : List Byte}
    (buffer : p.depthBuffer0 i = d :: rest) :
    Continues g edge before level out p f (p.inspect level i d rest) := by
  have stage := pass.inspect i
  rw [buffer] at stage
  have within := stage.within
  have analysed := stage.analysed
  obtain ⟨stage, observed⟩ := stage.analyse
  have inside : p.idx i < partEnd g i := by
    rw [List.length_cons] at within
    omega
  have isLevel := observed.isLevel setting (Nat.lt_of_lt_of_le inside (partEnd_le i))
  refine ⟨{ f with frontier := f.frontier ++ if d = level then [p.idx i] else [] },
    ⟨pass.transfers, fun j => ?_, ?_, pass.column, pass.depth, pass.writes, pass.next, ?_⟩, ?_⟩
  · by_cases here : j = i
    · subst here
      simpa only [Pipeline.inspect, Function.update_self] using stage
    · simpa only [Pipeline.inspect, Function.update_of_ne here] using pass.inspect j
  · simp only [Pipeline.inspect]
    split
    · rename_i frontier
      exact pass.vertex.push (isLevel.mp frontier)
    · simpa only [List.append_nil] using pass.vertex
  · simp only [Pipeline.inspect, counted_succ analysed, pass.count, isLevel]
  · have analysis : ∀ v, v ∈ (if d = level then [p.idx i] else []) ↔
        v = p.idx i ∧ depthByte g before v = level := by
      intro v
      by_cases frontier : d = level
      · rw [if_pos frontier, List.mem_singleton]
        exact ⟨fun same => ⟨same, same ▸ isLevel.mp frontier⟩, And.left⟩
      · rw [if_neg frontier]
        exact ⟨fun none => absurd none List.not_mem_nil,
          fun both => absurd (isLevel.mpr (both.1 ▸ both.2)) frontier⟩
    have sources : ∀ v, Uninspected g before level (p.inspect level i d rest).idx v ∨
        v ∈ Flow.vertices { f with
          frontier := f.frontier ++ if d = level then [p.idx i] else [] } ↔
        Uninspected g before level p.idx v ∨ v ∈ f.vertices := by
      intro v
      rw [uninspected_succ inside v, ← analysis v]
      simp only [Pipeline.inspect, Flow.vertices, List.mem_append]
      grind
    refine .drop (fun v => ?_) (fun v pending => .inl ?_)
    · simp only [Pending, sources]
      exact id
    · simp only [Pending, sources]
      exact pending

/-- Every step of the pipeline keeps the meaning of the stages and relaxes the level. -/
theorem Pass.step (setting : Setting g edge out inn before level)
    (pass : Pass g edge before level p f) {p' : Pipeline}
    (stepped : Step (Gl.layout g) level false p p') :
    Continues g edge before level out p f p' := by
  cases stepped with
  | askInspect free asks within => exact pass.askInspect free asks within
  | askRpao free buffer asks => exact pass.askRpao free buffer asks
  | takeRow finished buffer => exact pass.takeRow setting finished buffer
  | askCiao free chunk asks => exact pass.askCiao free chunk asks
  | askDepth free buffer asks => exact pass.askDepth free buffer asks
  | expandOld depths vertices visited => exact pass.expandOld setting depths vertices visited
  | expandNew free depths vertices asks => exact pass.expandNew free depths vertices asks
  | push reading asked => exact pass.push reading asked
  | fill asked buffer => exact pass.fill asked buffer
  | read waiting reading copies => exact pass.read waiting reading copies
  | write waiting writing ran => exact pass.write setting waiting writing ran
  | storeInspect responded converted => exact pass.storeInspect responded converted
  | storeRpao responded converted => exact pass.storeRpao setting responded converted
  | storeCiao responded converted => exact pass.storeCiao setting responded converted
  | storeDepth responded converted => exact pass.storeDepth responded converted
  | dropWrite responded => exact pass.dropWrite setting responded
  | inspect buffer => exact pass.inspectDepth setting buffer
  | restart started => cases started
  | resetIdx started => cases started

end Steps

end LevelPass

end GraphAccelerator
