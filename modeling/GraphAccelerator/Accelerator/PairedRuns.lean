import GraphAccelerator.Accelerator.Pairing
import GraphAccelerator.Accelerator.Replay
import GraphAccelerator.Accelerator.Simulation

/-!
# Runs in which everything stays together

The parts of `Pairing` together are an invariant of every run from the start of the
simulation, over all levels.
-/

namespace GraphAccelerator

open Memory Queues Bfs LevelPass

namespace Pairing

variable {g : Graph} {edge : Nat → Nat → Prop} {out inn : Nat → List Nat} {image : List Byte}
variable {pe mid after : Pe} {h : History} {thread : PeThread} {delay : Nat} {i : Port}
variable {read asked : List Nat} {popped : List (Nat × Byte)}

/-! ### Writes -/

theorem reqToRam_outside {op : BurstOp} {ramData written : List Byte}
    (ran : op.reqToRam ramData = some written) {addr : Nat}
    (outside : addr < op.addr ∨ op.addr + op.length ≤ addr) : written[addr]? = ramData[addr]? := by
  have kept : ∀ (offsets : List Nat), (∀ j ∈ offsets, j < op.length) →
      ∀ {ramData : List Byte}, offsets.foldlM (fun ramData j => do
        let byte ← op.data[j]?
        let _ ← ramData[op.addr + j]?
        return ramData.set (op.addr + j) byte) ramData = some written →
      written[addr]? = ramData[addr]? := by
    intro offsets
    induction offsets with
    | nil =>
        intro _ ramData ran
        obtain rfl := Option.some.inj ran
        rfl
    | cons j offsets inductionHypothesis =>
        intro within ramData ran
        simp only [List.foldlM_cons, Option.bind_eq_bind, Option.bind_eq_some_iff] at ran
        obtain ⟨next, ⟨byte, _, old, _, set⟩, ran⟩ := ran
        obtain rfl := Option.some.inj set
        have bound := within j (by simp)
        rw [inductionHypothesis (fun k later => within k (List.mem_cons_of_mem _ later)) ran,
          List.getElem?_set_ne (by omega)]
  exact kept _ (fun j inside => List.mem_range.mp inside) ran

/-- Every write that is not answered concerns the depth of one vertex. -/
def Writing (g : Graph) (pe : Pe) : Prop :=
  ∀ op ∈ (pe.line 7).pending, op.length = 1 ∧ op.addr < g.vertexNum

theorem Writing.of_pending (writing : Writing g pe)
    (pending : (after.line 7).pending.map BurstOp.shape =
      (pe.line 7).pending.map BurstOp.shape) : Writing g after := by
  intro op membership
  have shaped := List.mem_map_of_mem (f := BurstOp.shape) membership
  rw [pending] at shaped
  obtain ⟨other, old, same⟩ := List.mem_map.mp shaped
  rw [← shape_length same, ← shape_addr same]
  exact writing other old

theorem Writing.expandLoop (looped : Pe.ExpandLoop (Gl.layout g) mid after)
    (vertices : Vertices g mid.vidxBuffer) (indexed : mid.Indexed) (free : mid.creating 7 = none)
    (writing : Writing g mid) : Writing g after := by
  induction looped with
  | empty _ => exact writing
  | full _ => exact writing
  | visited _ same _ _ inductionHypothesis =>
      refine inductionHypothesis (fun vidx later => vertices vidx ?_) indexed free writing
      rw [same]
      exact List.mem_cons_of_mem _ later
  | @fresh pe rest vidx vidxs op _ same asks port _ =>
      obtain ⟨v, bound, rfl⟩ := vertices vidx (by simp [same])
      have pending := (@Pe.created_lines { pe with
        depthBuffer1 := rest
        vidxBuffer := vidxs
        depthBuffer2 := pe.depthBuffer2 ++ [pe.level + 1] } 7 indexed free op port).2.2.2
      intro other membership
      rw [pending, List.mem_append, List.mem_singleton] at membership
      rcases membership with old | rfl
      · exact writing other old
      · have start := asks.addr
        have origin : (Gl.layout g).depthMemAddr = 0 := rfl
        exact ⟨asks.length, by omega⟩

theorem Writing.resume (writing : Writing g pe) (vertices : Vertices g pe.vidxBuffer)
    (consistent : pe.Consistent) (controller : thread ≠ .bfsController)
    (ran : pe.resume (Gl.layout g) thread = some (after, delay)) : Writing g after := by
  by_cases expands : thread = .expandDepthAnalysis
  · subst expands
    obtain ⟨_, mid, settled, looped⟩ := Pe.expandDepthAnalysis_cases ran
    have ⟨indexed, _, _, pending⟩ := settled.lines consistent.indexed
    have buffer : mid.vidxBuffer = pe.vidxBuffer := by cases settled <;> rfl
    exact Writing.expandLoop looped (buffer ▸ vertices) indexed settled.free
      (writing.of_pending pending)
  by_cases answers : thread = .processExpandDepthWriteResp
  · subst answers
    cases ran
    exact writing
  have line : (pe.line 7).Same (after.line 7) := Pe.resume_lines consistent controller ran
    (fun same => expands (PeThread.asks_eq same)) (fun same => answers (PeThread.takes_eq same))
  exact writing.of_pending (by rw [line.pending])

theorem Writing.answer (writing : Writing g pe) (consistent : pe.Consistent)
    (ran : pe.answer i = some after) : Writing g after := by
  obtain ⟨_, others, op, reply, rest, _, pending, left, _⟩ := Pe.answer_lines consistent ran
  intro other membership
  by_cases here : i = 7
  · subst here
    refine writing other ?_
    rw [pending]
    exact List.mem_cons_of_mem _ (left ▸ membership)
  · exact writing other (others 7 (Ne.symm here) ▸ membership)

/-- The arrays behind the depths are never written. -/
theorem Arrays.answer (arrays : Arrays g image pe) (reading : pe.Reading) (writing : Writing g pe)
    (consistent : pe.Consistent) (ran : pe.answer i = some after) : Arrays g image after := by
  intro addr behind
  rw [← arrays addr behind]
  obtain ⟨_, _, op, reply, rest, _, pending, _, _, outcome⟩ := Pe.answer_lines consistent ran
  rcases outcome with ⟨type, _, written⟩ | ⟨_, ramData, _⟩
  · have port : i = 7 := by
      by_contra other
      have := (reading i other op (by simp [pending])).1
      rw [type] at this
      cases this
    subst port
    obtain ⟨length, bound⟩ := writing op (by simp [pending])
    exact reqToRam_outside written (.inr (by omega))
  · rw [ramData]

/-! ### The invariant -/

theorem DepthPart.resume (part : DepthPart g pe h read asked popped)
    (columns : Vertices g pe.ciaoBuffer) (consistent : pe.Consistent)
    (controller : thread ≠ .bfsController)
    (ran : pe.resume (Gl.layout g) thread = some (after, delay)) :
    ∃ read asked popped, DepthPart g after (h.resume pe after) read asked popped := by
  by_cases asks : thread = .issueExpandDepthReadReq
  · subst asks
    obtain ⟨asked, next⟩ := part.issueExpandDepthReadReq columns consistent ran
    exact ⟨read, asked, popped, next⟩
  by_cases stores : thread = .processExpandDepthReadResp
  · subst stores
    obtain ⟨read, asked, next⟩ := part.processExpandDepthReadResp consistent ran
    exact ⟨read, asked, popped, next⟩
  by_cases expands : thread = .expandDepthAnalysis
  · subst expands
    obtain ⟨read, popped, next⟩ := part.expandDepthAnalysis consistent ran
    exact ⟨read, asked, popped, next⟩
  have frame := Pe.resume_frame controller ran
  have vidxBuffer := frame.vidxBuffer asks expands
  have depthBuffer1 := frame.depthBuffer1 stores expands
  have line : (pe.line 6).Same (after.line 6) := Pe.resume_lines consistent controller ran
    (fun same => asks (PeThread.asks_eq same)) (fun same => stores (PeThread.takes_eq same))
  exact ⟨read, asked, popped, part.moved vidxBuffer depthBuffer1 line
    (by simp [History.resume, vidxBuffer]) (by simp [History.resume, depthBuffer1]) rfl⟩

section Invariant

variable (g : Graph) (edge : Nat → Nat → Prop) (out : Nat → List Nat) (image : List Byte)

structure Holds (pe : Pe) (h : History) : Prop where
  consistent : pe.Consistent
  reading : pe.Reading
  writing : Writing g pe
  arrays : Arrays g image pe
  expansion : Expansion g edge out image pe h
  depths : ∃ read asked popped, DepthPart g pe h read asked popped

end Invariant

theorem Expansion.columns (setting : Setting g edge out inn image 0)
    (expansion : Expansion g edge out image pe h) : Vertices g pe.ciaoBuffer := by
  obtain ⟨_, _, _, _, _, _, columns, _, column⟩ := expansion
  intro vidx membership
  rw [column.stage.buffer] at membership
  obtain ⟨v, member, rfl⟩ := List.mem_map.mp membership
  exact ⟨v, (column.stage.next v (by simp [member])).lt setting, rfl⟩

theorem Holds.bfsController (holds : Holds g edge out image pe h) :
    Holds g edge out image pe.bfsController (h.resume pe pe.bfsController) := by
  obtain ⟨_, _, _, same⟩ := Pe.bfsController_eq pe
  have line : pe.bfsController.line = pe.line := by rw [same]
  have frontierBuffer : pe.bfsController.frontierBuffer = pe.frontierBuffer := by rw [same]
  have rpaoBuffer : pe.bfsController.rpaoBuffer = pe.rpaoBuffer := by rw [same]
  have ciaoReq : pe.bfsController.ciaoReq = pe.ciaoReq := by rw [same]
  have ciaoBuffer : pe.bfsController.ciaoBuffer = pe.ciaoBuffer := by rw [same]
  have vidxBuffer : pe.bfsController.vidxBuffer = pe.vidxBuffer := by rw [same]
  have depthBuffer1 : pe.bfsController.depthBuffer1 = pe.depthBuffer1 := by rw [same]
  have ramData : pe.bfsController.ramData = pe.ramData := by rw [same]
  obtain ⟨done, frontier, asked, rows, row, chunks, columns, vertex, column⟩ := holds.expansion
  obtain ⟨read, asked', popped, part⟩ := holds.depths
  refine ⟨(@Pe.bfsController_pipeline (Gl.layout g) _ holds.consistent).1,
    holds.reading.same fun j _ => .of_eq (by rw [line]), ?_, ?_,
    ⟨done, frontier, asked, rows, row, chunks, columns,
      vertex.moved frontierBuffer rpaoBuffer (.of_eq (by rw [line]))
        (by simp [History.resume, frontierBuffer]),
      column.moved ciaoReq ciaoBuffer (.of_eq (by rw [line]))
        (by simp [History.resume, ciaoBuffer])⟩,
    read, asked', popped, part.moved vidxBuffer depthBuffer1 (.of_eq (by rw [line]))
      (by simp [History.resume, vidxBuffer]) (by simp [History.resume, depthBuffer1]) rfl⟩
  · exact holds.writing.of_pending (by rw [line])
  · exact fun addr behind => by
      rw [ramData]
      exact holds.arrays addr behind

theorem Holds.step (setting : Setting g edge out inn image 0)
    (levelled : ∀ v, v < g.vertexNum → depthByte g image v = 0) {before next : Pe × History}
    (holds : Holds g edge out image before.1 before.2) (stepped : Step g before next) :
    Holds g edge out image next.1 next.2 := by
  obtain ⟨read, asked, popped, part⟩ := holds.depths
  cases stepped with
  | @resume pe after h thread delay ran finds =>
      by_cases controller : thread = .bfsController
      · subst controller
        cases ran
        exact holds.bfsController
      · exact ⟨(Pe.resume_refines holds.consistent controller ran).consistent,
          holds.reading.resume holds.consistent controller ran,
          holds.writing.resume part.vertices holds.consistent controller ran,
          fun addr behind => by
            rw [(Pe.resume_frame controller ran).ramData]
            exact holds.arrays addr behind,
          holds.expansion.resume setting levelled holds.consistent controller ran finds,
          part.resume (holds.expansion.columns setting) holds.consistent controller ran⟩
  | @answer pe after h i ran =>
      obtain ⟨done, frontier, asked', rows, row, chunks, columns, vertex, column⟩ :=
        holds.expansion
      exact ⟨(Pe.answer_lines holds.consistent ran).1,
        holds.reading.answer holds.consistent ran, holds.writing.answer holds.consistent ran,
        holds.arrays.answer holds.reading holds.writing holds.consistent ran,
        ⟨done, frontier, asked', rows, row, chunks, columns,
          vertex.answer setting holds.consistent holds.reading holds.arrays ran,
          column.answer setting holds.consistent holds.reading holds.arrays ran⟩,
        read, asked, popped, part.answer holds.consistent holds.reading ran⟩

theorem Holds.run (setting : Setting g edge out inn image 0)
    (levelled : ∀ v, v < g.vertexNum → depthByte g image v = 0) {before final : Pe × History}
    (initial : Holds g edge out image before.1 before.2)
    (run : Relation.ReflTransGen (Step g) before final) :
    Holds g edge out image final.1 final.2 :=
  Kernel.invariant_of_step (fun state => Holds g edge out image state.1 state.2) run initial
    fun _ _ holds stepped => holds.step setting levelled stepped

theorem holds_reset {ramData : List Byte}
    (arrays : ∀ addr, g.vertexNum ≤ addr → ramData[addr]? = image[addr]?) :
    Holds g edge out image (Pe.reset (Gl.layout g) ramData) {} where
  consistent := Pe.reset_consistent _ _
  reading _ _ _ member := absurd member List.not_mem_nil
  writing _ member := absurd member List.not_mem_nil
  arrays := arrays
  expansion := by
    have none : ∀ {Item : Type} {holds : Item → Prop}, ∀ item ∈ ([] : List Item), holds item :=
      fun _ member => absurd member List.not_mem_nil
    exact ⟨[], [], [], [], [], [], [], ⟨⟨rfl, rfl, rfl, none⟩, none, rfl⟩,
      ⟨⟨⟨rfl, .inl rfl⟩, .nil, rfl, none⟩, none, rfl⟩⟩
  depths := ⟨[], [], [], rfl, rfl, nofun, rfl, nofun, rfl, rfl, rfl⟩

def levelled (g : Graph) (ramData : List Byte) : List Byte :=
  List.replicate g.vertexNum 0 ++ ramData.drop g.vertexNum

theorem levelled_depth {ramData : List Byte} {v : Nat} (bound : v < g.vertexNum) :
    depthByte g (levelled g ramData) v = 0 := by
  rw [depthByte, if_pos bound, levelled, List.getElem?_append_left (by simpa using bound),
    List.getElem?_replicate, if_pos bound]
  rfl

theorem levelled_behind {ramData : List Byte} {addr : Nat} (behind : g.vertexNum ≤ addr) :
    (levelled g ramData)[addr]? = ramData[addr]? := by
  rw [levelled, List.getElem?_append_right (by simpa using behind), List.length_replicate,
    List.getElem?_drop, Nat.add_sub_cancel' behind]

theorem levelled_length {ramData : List Byte} (covers : g.vertexNum ≤ ramData.length) :
    (levelled g ramData).length = ramData.length := by
  rw [levelled, List.length_append, List.length_replicate, List.length_drop,
    Nat.add_sub_cancel' covers]

/-! ### Positions -/

theorem rowPointers_get (vertices : List Nat) :
    (vertices.flatMap (rowPointers g)).length = 2 * vertices.length ∧
      ∀ j v, vertices[j]? = some v →
        (vertices.flatMap (rowPointers g))[2 * j]? =
            some (((CSR.ofGraph g).rpao[v]?.getD 0 : Nat) : Int) ∧
          (vertices.flatMap (rowPointers g))[2 * j + 1]? =
            some (((CSR.ofGraph g).rpao[v + 1]?.getD 0 : Nat) : Int) := by
  induction vertices with
  | nil => exact ⟨rfl, nofun⟩
  | cons u vertices inductionHypothesis =>
      obtain ⟨length, entries⟩ := inductionHypothesis
      refine ⟨by rw [List.flatMap_cons, List.length_append, length]; simp [rowPointers]; omega, ?_⟩
      intro j v present
      cases j with
      | zero =>
          obtain rfl := Option.some.inj present
          exact ⟨rfl, rfl⟩
      | succ j => exact entries j v present

theorem pairs_get {pairs : List (Nat × Byte)} {more : List (Nat × Byte)} {j : Nat} {d : Byte}
    (present : (pairs.map Prod.snd)[j]? = some d) :
    ∃ v, (v, d) ∈ pairs ∧ (pairs.map fun pair => (pair.1 : Int))[j]? = some (v : Int) ∧
      (pairs ++ more)[j]? = some (v, d) := by
  rw [List.getElem?_map, Option.map_eq_some_iff] at present
  obtain ⟨⟨v, _⟩, found, rfl⟩ := present
  have bound := (List.getElem?_eq_some_iff.mp found).1
  refine ⟨v, List.mem_of_getElem? found, ?_, ?_⟩
  · rw [List.getElem?_map, found]
    rfl
  · rw [List.getElem?_append_left bound, found]

section Loaded

variable {isUgraph : Bool} {edges : List (Nat × Nat)} {ram0 ramData : List Byte}

theorem levelled_setting (built : g.BuiltFrom isUgraph edges)
    (outgoing : outCount g.vertices ≤ g.edgeNum) (initialized : ramInit g = some ram0) :
    Setting g (Edge isUgraph edges) (outNgbs isUgraph edges) (inNgbs isUgraph edges)
      (levelled g ram0) 0 := by
  obtain ⟨laidOut, _⟩ := ramInit_spec built.vertices_length outgoing initialized
  exact setting_of_built built outgoing initialized
    (levelled_length (Nat.le_of_lt laidOut.vertexNum_lt)) (fun _ behind => levelled_behind behind)
    (by decide) (by decide)

/-- The invariant holds in every run, whatever the depths at its start are. -/
theorem paired_holds (loaded : loadGraph isUgraph (pairRows edges) = some g)
    (initialized : ramInit g = some ram0)
    (arrays : ∀ addr, g.vertexNum ≤ addr → ramData[addr]? = ram0[addr]?)
    (run : Relation.ReflTransGen (Step g) (Pe.reset (Gl.layout g) ramData, {}) (pe, h)) :
    Holds g (Edge isUgraph edges) (outNgbs isUgraph edges) (levelled g ram0) pe h := by
  refine Holds.run (levelled_setting (loadGraph_builtFrom loaded) (loadGraph_outgoing loaded)
    initialized) (fun _ bound => levelled_depth bound) ?_ run
  exact holds_reset fun addr behind => (arrays addr behind).trans (levelled_behind behind).symm

/-- Row pointers, columns and depths stay with their vertices, whatever the depths at
the start of the simulation are. -/
theorem paired_run (loaded : loadGraph isUgraph (pairRows edges) = some g)
    (initialized : ramInit g = some ram0)
    (arrays : ∀ addr, g.vertexNum ≤ addr → ramData[addr]? = ram0[addr]?)
    (run : Relation.ReflTransGen (Step g) (Pe.reset (Gl.layout g) ramData, {}) (pe, h)) :
    (2 ∣ pe.rpaoBuffer.length ∧ ∀ j, 2 * j < pe.rpaoBuffer.length →
      ∃ v, v < g.vertexNum ∧ (v : Int) ∈ h.frontier ∧
        pe.rpaoBuffer[2 * j]? = (CSR.ofGraph g).rpao[v]?.map Int.ofNat ∧
        pe.rpaoBuffer[2 * j + 1]? = (CSR.ofGraph g).rpao[v + 1]?.map Int.ofNat) ∧
    (∃ vertices : List Nat, h.frontier = vertices.map Int.ofNat ∧
      h.ciao <+: (vertices.flatMap (outNgbs isUgraph edges)).map Int.ofNat) ∧
    h.depth.length = h.vidx.length ∧
    (∀ (j : Nat) (d : Byte), h.depth[j]? = some d → ∃ v, v < g.vertexNum ∧ h.vidx[j]? = some (v : Int) ∧
      h.answers[j]? = some ((Gl.layout g).depthMemAddr + v, d)) ∧
    (pe.depthBuffer1 ≠ [] → pe.vidxBuffer ≠ []) := by
  have setting := levelled_setting (loadGraph_builtFrom loaded) (loadGraph_outgoing loaded)
    initialized
  have holds := paired_holds loaded initialized arrays run
  obtain ⟨done, frontier, asked, rows, row, chunks, columns, vertex, column⟩ := holds.expansion
  obtain ⟨read, asked', popped, part⟩ := holds.depths
  obtain ⟨even, pointers⟩ := @rowPointers_get g rows
  rw [← vertex.stage.pointers] at even pointers
  refine ⟨⟨⟨_, even⟩, fun j inside => ?_⟩, ⟨done ++ rows ++ asked, vertex.popped, ?_⟩, ?_,
    fun j d present => ?_, fun depths vertices => ?_⟩
  · have present : j < rows.length := by omega
    have member := List.getElem_mem present
    have bound := ((depthByte_eq setting.visited).mp
      (vertex.stage.level rows[j] (by simp [member]))).1
    obtain ⟨_, _, _, within, _⟩ := rowPointers_eq setting bound
    obtain ⟨first, second⟩ := pointers j _ (List.getElem?_eq_getElem present)
    refine ⟨rows[j], bound, ?_, ?_, ?_⟩
    · rw [vertex.popped]
      exact List.mem_map_of_mem (by simp [member])
    · rw [first, List.getElem?_eq_getElem (by omega)]
      rfl
    · rw [second, List.getElem?_eq_getElem (by omega)]
      rfl
  · rw [List.append_assoc, List.flatMap_append, List.map_append, ← column.appended,
      List.append_assoc]
    exact List.prefix_append _ _
  · rw [part.depth, part.vidx, List.length_map, List.length_map]
  · rw [part.depth] at present
    obtain ⟨v, member, vidx, answer⟩ := pairs_get present
    refine ⟨v, part.bound v (List.mem_append_left _ (List.mem_map_of_mem member)), ?_, ?_⟩
    · rw [part.vidx]
      exact vidx
    · rw [part.answers, List.append_assoc, answer]
      exact congrArg some (congrArg (·, d) (Nat.zero_add v).symm)
  · have count := part.depths
    have empty := part.vidxBuffer
    rw [vertices] at empty
    cases read with
    | nil => exact depths (List.length_eq_zero_iff.mp count)
    | cons v read => cases empty

def findsHub (pe after : Pe) : Bool :=
  (appended pe.frontierBuffer after.frontierBuffer).all fun vidx => 0 ≤ vidx && vidx < 2

theorem findsHub_finds {pe after : Pe} (passed : findsHub pe after = true) :
    Finds hub pe after := by
  intro vidx found
  have bounds := List.all_eq_true.mp passed vidx found
  simp only [Bool.and_eq_true, decide_eq_true_eq] at bounds
  have number : hub.vertexNum = 2 := rfl
  exact ⟨vidx.toNat, by omega, by omega⟩

def recordStep : Pe × History → Choice → Option (Pe × History)
  | (pe, h), .resume thread => do
      let (after, _) ← pe.resume (Gl.layout hub) thread
      if findsHub pe after then return (after, h.resume pe after) else none
  | (pe, h), .answer i => do return (← pe.answer i, h.answer i pe)

theorem record_run {choices : List Choice} {start final : Pe × History}
    (ran : choices.foldlM recordStep start = some final) :
    Relation.ReflTransGen (Step hub) start final := by
  refine CheckedLoop.foldlM_invariant (fun _ reached =>
    Relation.ReflTransGen (Step hub) start reached) ran .refl
    fun _ choice _ reached next _ run stepped => ?_
  obtain ⟨pe, h⟩ := reached
  cases choice with
  | resume thread =>
      simp only [recordStep, Option.bind_eq_bind, Option.bind_eq_some_iff] at stepped
      obtain ⟨⟨after, delay⟩, resumes, stepped⟩ := stepped
      split at stepped
      · rename_i passed
        obtain rfl := Option.some.inj stepped
        exact run.tail (.resume resumes (findsHub_finds passed))
      · cases stepped
  | answer i =>
      obtain ⟨after, answers, stepped⟩ := Option.bind_eq_some_iff.mp stepped
      obtain rfl := Option.some.inj stepped
      exact run.tail (.answer answers)

theorem paired_run_hub :
    (∃ (pe : Pe) (h : History), Relation.ReflTransGen (Step hub)
        (Pe.reset (Gl.layout hub) hubRam, {}) (pe, h) ∧ pe.rpaoBuffer = [0, 1] ∧
      ∃ v : Nat, v < 2 ∧ (v : Int) ∈ h.frontier ∧
        some 0 = (CSR.ofGraph hub).rpao[v]?.map Int.ofNat ∧
        some 1 = (CSR.ofGraph hub).rpao[v + 1]?.map Int.ofNat) ∧
    ∃ (pe : Pe) (h : History), Relation.ReflTransGen (Step hub)
        (Pe.reset (Gl.layout hub) hubRam, {}) (pe, h) ∧ h.vidx = [1] ∧ h.depth = [-1] ∧
      h.answers[0]? = some ((Gl.layout hub).depthMemAddr + 1, (-1 : Byte)) := by
  obtain ⟨ram0, initialized, _, arrays, _⟩ := hub_backed
  constructor
  · have rows : ((hubSearch.take 26).foldlM recordStep (Pe.reset (Gl.layout hub) hubRam, {})).map
        (·.1.rpaoBuffer) = some [0, 1] := by
      rw [hubRam_shown]
      decide +kernel
    obtain ⟨⟨pe, h⟩, ran, buffer⟩ := Option.map_eq_some_iff.mp rows
    have run := record_run ran
    obtain ⟨⟨_, pairs⟩, _⟩ := paired_run hub_loaded initialized arrays run
    change pe.rpaoBuffer = [0, 1] at buffer
    obtain ⟨v, bound, member, first, second⟩ := pairs 0 (by rw [buffer]; decide)
    rw [buffer] at first second
    exact ⟨pe, h, run, buffer, v, bound, member, first, second⟩
  · have depths : (hubSearch.foldlM recordStep (Pe.reset (Gl.layout hub) hubRam, {})).map
        (fun final => (final.2.vidx, final.2.depth)) = some ([1], [-1]) := by
      rw [hubRam_shown]
      decide +kernel
    obtain ⟨⟨pe, h⟩, ran, popped⟩ := Option.map_eq_some_iff.mp depths
    simp only [Prod.mk.injEq] at popped
    obtain ⟨vidx, depth⟩ := popped
    have run := record_run ran
    obtain ⟨_, _, _, answers, _⟩ := paired_run hub_loaded initialized arrays run
    obtain ⟨v, _, column, answer⟩ := answers 0 (-1) (by rw [depth]; rfl)
    rw [vidx] at column
    obtain rfl : v = 1 := by simpa using column.symm
    exact ⟨pe, h, run, vidx, depth, answer⟩

end Loaded

end Pairing

end GraphAccelerator
