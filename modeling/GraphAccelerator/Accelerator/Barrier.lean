import GraphAccelerator.Accelerator.Capacity
import GraphAccelerator.Accelerator.Pacing
import GraphAccelerator.Accelerator.Registry

/-!
# The end of a level

`isEndOfBfsIteration` looks at the buffers and at the bursts that are registered.  A
thread that has taken an item and waits in `createReadBurstReq` is in none of them.  For
most threads something else is still there to be seen; the three that expand the last
vertex, the last row or the last column leave nothing behind.
-/

namespace GraphAccelerator

open Memory Kernel LevelPass Bfs

namespace Pe

/-- What a thread of the expansion leaves undone outside `createReadBurstReq` and
`createWriteBurstReq`: the row is asked for, and the depths are written. -/
structure Leaves (pe : Pe) : Prop where
  row : pe.creating 5 = none → pe.ciaoReq.maxLen ≤ pe.ciaoReq.len
  write : pe.creating 7 ≠ none → pe.depthBuffer2 ≠ []

variable {gl : Gl} {pe mid after : Pe} {thread : PeThread} {delay : Nat}

theorem CiaoLoop.leaves (looped : CiaoLoop gl mid after)
    (room : mid.ciaoBuffer.length ≤ Gl.baseLen / 4 + 1) (waits : after.creating 5 = none) :
    after.ciaoReq.maxLen ≤ after.ciaoReq.len := by
  induction looped with
  | empty finished _ => exact finished
  | row _ _ _ inductionHypothesis => exact inductionHypothesis room waits
  | @full pe _ full =>
      have short : pe.ciaoLen ≤ Gl.baseLen := Nat.min_le_left ..
      simp only [Gl.ciaoBufferDepth, Gl.baseLen] at full short room
      omega
  | asked _ _ _ _ _ => simp [created] at waits

theorem ExpandLoop.leaves (looped : ExpandLoop gl mid after) (free : mid.creating 7 = none)
    (waits : after.creating 7 ≠ none) : after.depthBuffer2 ≠ [] := by
  induction looped with
  | empty _ | full _ => exact absurd free waits
  | visited _ _ _ _ inductionHypothesis => exact inductionHypothesis free waits
  | fresh _ _ _ _ _ => simp [created]

theorem Leaves.resume (leaves : Leaves pe) (room : pe.ciaoBuffer.length ≤ Gl.baseLen / 4 + 1)
    (controller : thread ≠ .bfsController) (ran : pe.resume gl thread = some (after, delay)) :
    Leaves after := by
  have frame := resume_frame controller ran
  refine ⟨fun waits => ?_, fun waits => ?_⟩
  · by_cases asks : thread = .issueExpandCiaoReadReq
    · subst asks
      obtain ⟨_, mid, settled, looped⟩ := issueExpandCiaoReadReq_cases ran
      have buffer : mid.ciaoBuffer = pe.ciaoBuffer := by cases settled <;> rfl
      exact looped.leaves (buffer ▸ room) waits
    · rw [frame.ciaoReq asks]
      rw [frame.creating 5 fun same => asks (PeThread.asks_eq same)] at waits
      exact leaves.row waits
  · by_cases expands : thread = .expandDepthAnalysis
    · subst expands
      obtain ⟨_, mid, settled, looped⟩ := expandDepthAnalysis_cases ran
      exact looped.leaves settled.free waits
    · rw [frame.depthBuffer2 expands]
      rw [frame.creating 7 fun same => expands (PeThread.asks_eq same)] at waits
      exact leaves.write waits

theorem Leaves.step {before after : Timed TimedThread Pe} (leaves : Leaves before.state)
    (room : before.state.ciaoBuffer.length ≤ Gl.baseLen / 4 + 1)
    (stepped : Cycle gl before after) : Leaves after.state := by
  cases stepped with
  | @resume _ _ _ _ thread _ _ _ ran => exact leaves.resume room thread.property ran
  | interfere answered =>
      obtain ⟨i, answered⟩ := answered
      cases answer_cases answered <;> exact ⟨leaves.row, leaves.write⟩
  | @advance _ _ pe _ =>
      show Leaves pe.bfsController
      obtain ⟨_, _, _, same⟩ := bfsController_eq pe
      rw [same]
      exact ⟨leaves.row, leaves.write⟩

theorem leaves_run {ramData : List Byte} {final : Timed TimedThread Pe}
    (run : Relation.ReflTransGen (Cycle gl) (start gl ramData) final) : Leaves final.state := by
  have reset : Leaves (start gl ramData).state := by
    show Leaves (Pe.reset gl ramData).bfsController
    obtain ⟨_, _, _, same⟩ := bfsController_eq (Pe.reset gl ramData)
    rw [same]
    exact ⟨fun _ => Nat.le_refl 0, fun waits => absurd rfl waits⟩
  induction run with
  | refl => exact reset
  | tail earlier stepped inductionHypothesis =>
      have room := (paced_run earlier).2.2.room
      exact inductionHypothesis.step (by omega) stepped

/-- Everything that is not seen is in the hands of the threads. -/
theorem Sampled.drained (sampled : Sampled pe) (consistent : pe.Consistent) (leaves : Leaves pe)
    (creating : ∀ i, pe.creating i = none) (vidxBuffer : pe.vidxBuffer = [])
    (inspectReq : ∀ i, gl.maxLen i ≤ (pe.inspectReq i).currentLen) : pe.Drained gl := by
  have queues : ∀ i, (pe.burstRespQueue i = [] ∧ pe.answered i = []) ∧
      pe.sent i = [] ∧ pe.burstReqQueue i = [] := by
    intro i
    have empty := sampled.pushed i
    simp only [BurstQueues.pushed, List.append_eq_nil_iff] at empty
    exact empty
  exact {
    depthBuffer0 := sampled.depthBuffer0
    depthBuffer1 := sampled.depthBuffer1
    depthBuffer2 := sampled.depthBuffer2
    frontierBuffer := sampled.frontierBuffer
    rpaoBuffer := sampled.rpaoBuffer
    ciaoBuffer := sampled.ciaoBuffer
    vidxBuffer
    burstReqQueue i := (queues i).2.2
    burstRespQueue i := (queues i).1.1
    sent i := (queues i).2.1
    answered i := (queues i).1.2
    creating
    transfer i := consistent.indexed.transfer_none (queues i).1.1
    inspectReq
    ciaoReq := ⟨leaves.row (creating 5), consistent.ciao (creating 5)⟩ }

end Pe

theorem Pairing.DepthPart.vidxBuffer_nil {g : Graph} {pe : Pe} {h : Pairing.History}
    {read asked : List Nat} {popped : List (Nat × Byte)}
    (part : Pairing.DepthPart g pe h read asked popped) (depths : pe.depthBuffer1 = [])
    (flight : pe.flight 6 = []) : pe.vidxBuffer = [] := by
  have none : read = [] := by
    have count := part.depths
    rw [depths] at count
    exact List.eq_nil_of_length_eq_zero count.symm
  have spans := part.spans
  have line : (pe.line 6).spans = [] := by
    rw [BurstQueues.flight, List.append_eq_nil_iff, Option.toList_eq_nil_iff] at flight
    obtain ⟨pushed, creating⟩ := flight
    simp only [BurstQueues.pushed, List.append_eq_nil_iff] at pushed
    simp [Line.spans, Line.ops, BurstQueues.line, pushed, creating]
  rw [line] at spans
  rw [part.vidxBuffer, none, List.map_eq_nil_iff.mp spans.symm]
  rfl

/-! ### The hub -/

section Hub

variable {gl : Gl} {answers : List (List Port)} {pe after : Pe}

def plays (gl : Gl) (threads : List TimedThread) (answers : List (List Port)) (pe : Pe) :
    Option (List (TimedThread × Nat) × Pe) :=
  (rounds (fun _ (thread : TimedThread) (pe : Pe) => pe.resume gl thread.val)
    (fun _ pe i => pe.answer i) Pe.bfsController (fun _ => true) 0 answers (threads.map (·, 0))
      pe).bind
    fun (dues, pe) => round (fun thread pe => pe.resume gl thread.val) answers.length dues pe

theorem plays_run {threads : List TimedThread} {dues : List (TimedThread × Nat)}
    (permuted : threads.Perm Linked.peThreads)
    (played : plays gl threads answers pe = some (dues, after))
    (waiting : ∀ entry ∈ dues, answers.length < entry.2) :
    Relation.ReflTransGen (Pe.Cycle gl) ⟨0, fun _ => 0, pe⟩ ⟨answers.length, dueAt dues, after⟩ ∧
      ∀ thread, answers.length < dueAt dues thread := by
  have nodup : threads.Nodup := permuted.nodup_iff.mpr (by decide +kernel)
  have replays : Replays (Pe.Cycle gl) (fun _ (thread : TimedThread) (pe : Pe) =>
      pe.resume gl thread.val) (fun _ pe i => pe.answer i) Pe.bfsController fun _ => true :=
    replays_step (fun _ _ _ _ _ ran => ran) fun _ i _ _ ran => ⟨i, ran⟩
  have run := @rounds_round_run _ _ _ _ _ _ _ _ _ 0 replays answers (threads.map (·, 0)) dues pe
    after (by simpa [Function.comp_def] using nodup)
    (fun thread => by simpa using permuted.mem_iff.mpr (Linked.mem_peThreads thread))
  rw [Nat.zero_add, dueAt_zero] at run
  exact run played waiting

def hubAnswers (cycle : Nat) : List Port :=
  match cycle with
  | 12 | 33 => [3]
  | 17 => [4]
  | 22 => [5]
  | 26 => [6]
  | 30 => [7]
  | _ => []

theorem hub_plays {cycles : Nat} {seen : Bool × List (Option Nat) × Byte}
    (played : (plays (Gl.layout hub) Linked.peThreads ((List.range cycles).map hubAnswers)
        (Pe.start (Gl.layout hub) hubRam).state).map (fun (dues, pe) =>
          ((dues.all (cycles < ·.2), pe.endsLevel), (List.finRange 8).map pe.creating, pe.level)) =
      some ((true, seen.1), seen.2)) :
    ∃ final : Timed TimedThread Pe,
      Relation.ReflTransGen (Pe.Cycle (Gl.layout hub)) (Pe.start (Gl.layout hub) hubRam) final ∧
        (∀ thread, final.now < final.due thread) ∧ final.state.endsLevel = seen.1 ∧
        (List.finRange 8).map final.state.creating = seen.2.1 ∧ final.state.level = seen.2.2 := by
  obtain ⟨⟨dues, pe⟩, ran, same⟩ := Option.map_eq_some_iff.mp played
  simp only [Prod.mk.injEq] at same
  obtain ⟨⟨waiting, ends⟩, observed⟩ := same
  have length : ((List.range cycles).map hubAnswers).length = cycles := by simp
  obtain ⟨run, waits⟩ := plays_run .rfl ran (by simpa using waiting)
  exact ⟨_, run, waits, ends, congrArg Prod.fst observed, congrArg Prod.snd observed⟩

theorem hub_ends : ∃ final : Timed TimedThread Pe,
    Relation.ReflTransGen (Pe.Cycle (Gl.layout hub)) (Pe.start (Gl.layout hub) hubRam) final ∧
      (∀ thread, final.now < final.due thread) ∧ final.state.endsLevel = true ∧
      final.state.level = 0 ∧ final.state.creating 5 = some 2 := by
  obtain ⟨final, run, waiting, ends, creating, level⟩ := @hub_plays 19
    (true, [none, none, none, none, none, some 2, none, none], 0) (by
      rw [hubRam_shown]
      decide +kernel)
  refine ⟨final, run, waiting, ends, level, ?_⟩
  have row := congrArg (·[5]?) creating
  simpa using row

end Hub

/-! ### Every level -/

section Levels

variable {g : Graph} {isUgraph : Bool} {data : List (List Int)} {startIdx : Nat}
variable {ram0 ramData : List Byte} {final : Timed TimedThread Pe}

/-- When a level ends, no partition is under inspection. -/
theorem idle_of_endsLevel (loaded : loadGraph isUgraph data = some g)
    (initialized : ramInit g = some ram0) (vertex : startIdx < g.vertexNum)
    (started : setNewStartVertex (Gl.layout g) startIdx ram0 = some ramData)
    (run : Relation.ReflTransGen (Pe.Cycle (Gl.layout g)) (Pe.start (Gl.layout g) ramData) final)
    (waiting : ∀ thread, final.now < final.due thread) (ends : final.state.endsLevel = true)
    (i : Part) : Pulse.Idle (Gl.layout g) i final.state := by
  obtain ⟨edges, built, _⟩ := loadGraph_rows loaded
  have bounded := bounded_run built (loadGraph_counts loaded).1 initialized
    (arrays_of_started vertex started) run
  have soon : ∀ thread : TimedThread, thread.val.transfers = false →
      final.due thread = final.now + 1 := fun thread unit =>
    Nat.le_antisymm (bounded.onTime.soon thread unit) (waiting thread)
  have inspecting := bounded.inspected i
  rw [Pulse.Inspected, soon ⟨.issueInspectDepthReadReq i, by simp⟩ rfl,
    soon ⟨.inspectDepthAnalysis, by simp⟩ rfl] at inspecting
  exact inspecting.idle_of_endsLevel bounded.onTime.consistent ends

theorem drained_of_endsLevel (loaded : loadGraph isUgraph data = some g)
    (initialized : ramInit g = some ram0) (vertex : startIdx < g.vertexNum)
    (started : setNewStartVertex (Gl.layout g) startIdx ram0 = some ramData)
    (run : Relation.ReflTransGen (Pe.Cycle (Gl.layout g)) (Pe.start (Gl.layout g) ramData) final)
    (waiting : ∀ thread, final.now < final.due thread) (ends : final.state.endsLevel = true)
    (vertices : final.state.creating 4 = none) (rows : final.state.creating 5 = none)
    (columns : final.state.creating 6 = none) : final.state.Drained (Gl.layout g) := by
  obtain ⟨edges, built, _⟩ := loadGraph_rows loaded
  have bounded := bounded_run built (loadGraph_counts loaded).1 initialized
    (arrays_of_started vertex started) run
  have consistent := bounded.onTime.consistent
  have sampled := Pe.sampled_of_endsLevel consistent.indexed ends
  have leaves := Pe.leaves_run run
  have idle := idle_of_endsLevel loaded initialized vertex started run waiting ends
  have writes : final.state.creating 7 = none :=
    not_not.mp fun waits => leaves.write waits sampled.depthBuffer2
  have creating : ∀ i, final.state.creating i = none := by
    intro i
    rcases Port.cases i with ⟨part, rfl⟩ | rfl | rfl | rfl | rfl
    · exact (idle part).creating
    · exact vertices
    · exact rows
    · exact columns
    · exact writes
  obtain ⟨h, holds⟩ := bounded.holds
  obtain ⟨read, asked, popped, part⟩ := holds.depths
  refine sampled.drained consistent leaves creating (part.vidxBuffer_nil sampled.depthBuffer1 ?_)
    fun i => (idle i).asked
  rw [BurstQueues.flight, sampled.pushed, columns]
  rfl

/-- When a level ends, nothing of it is left exactly when none of the three threads that
expand vertices, rows and columns waits with a burst it has just created. -/
theorem endsLevel_drained_iff (loaded : loadGraph isUgraph data = some g)
    (initialized : ramInit g = some ram0) (vertex : startIdx < g.vertexNum)
    (started : setNewStartVertex (Gl.layout g) startIdx ram0 = some ramData)
    (run : Relation.ReflTransGen (Pe.Cycle (Gl.layout g)) (Pe.start (Gl.layout g) ramData) final)
    (waiting : ∀ thread, final.now < final.due thread) (ends : final.state.endsLevel = true) :
    final.state.Drained (Gl.layout g) ↔ final.state.creating 4 = none ∧
      final.state.creating 5 = none ∧ final.state.creating 6 = none := by
  refine ⟨fun drained => ⟨drained.creating 4, drained.creating 5, drained.creating 6⟩, ?_⟩
  rintro ⟨vertices, rows, columns⟩
  exact drained_of_endsLevel loaded initialized vertex started run waiting ends vertices rows
    columns

theorem endsLevel_drained_iff_hub :
    (∃ final : Timed TimedThread Pe,
      Relation.ReflTransGen (Pe.Cycle (Gl.layout hub)) (Pe.start (Gl.layout hub) hubRam) final ∧
        final.state.endsLevel = true ∧ final.state.level = 0 ∧
        final.state.creating 5 = some 2 ∧ ¬ final.state.Drained (Gl.layout hub)) ∧
    ∃ final : Timed TimedThread Pe,
      Relation.ReflTransGen (Pe.Cycle (Gl.layout hub)) (Pe.start (Gl.layout hub) hubRam) final ∧
        final.state.endsLevel = true ∧ final.state.level = 1 ∧
        final.state.Drained (Gl.layout hub) := by
  obtain ⟨ram0, initialized, started⟩ := hub_started
  have vertex : 0 < hub.vertexNum := by decide
  constructor
  · obtain ⟨final, run, waiting, ends, level, creating⟩ := hub_ends
    refine ⟨final, run, ends, level, creating, fun drained => ?_⟩
    have row := ((endsLevel_drained_iff hub_loaded initialized vertex started run waiting
      ends).mp drained).2.1
    rw [creating] at row
    cases row
  · obtain ⟨final, run, waiting, ends, creating, level⟩ := @hub_plays 39
      (true, List.replicate 8 none, 1) (by
        rw [hubRam_shown]
        decide +kernel)
    have free : ∀ i, final.state.creating i = none := fun i =>
      List.eq_of_mem_replicate (creating ▸ List.mem_map.mpr ⟨i, List.mem_finRange i, rfl⟩)
    exact ⟨final, run, ends, level, (endsLevel_drained_iff hub_loaded initialized vertex started run
      waiting ends).mpr ⟨free 4, free 5, free 6⟩⟩

/-- A level can end while `issueExpandCiaoReadReq` waits in `createReadBurstReq`. -/
theorem not_endsLevel_drained : ¬ ∀ (isUgraph : Bool) (data : List (List Int)) (g : Graph)
    (ram0 ramData : List Byte) (startIdx : Nat) (final : Timed TimedThread Pe),
    loadGraph isUgraph data = some g → ramInit g = some ram0 → startIdx < g.vertexNum →
      setNewStartVertex (Gl.layout g) startIdx ram0 = some ramData →
      Relation.ReflTransGen (Pe.Cycle (Gl.layout g)) (Pe.start (Gl.layout g) ramData) final →
      (∀ thread, final.now < final.due thread) → final.state.endsLevel = true →
      final.state.Drained (Gl.layout g) := by
  intro holds
  obtain ⟨ram0, initialized, started⟩ := hub_started
  obtain ⟨final, run, waiting, ends, _, creating⟩ := hub_ends
  have drained := holds false _ hub ram0 hubRam 0 final hub_loaded initialized (by decide) started
    run waiting ends
  have row := drained.creating 5
  rw [creating] at row
  cases row

end Levels

end GraphAccelerator
