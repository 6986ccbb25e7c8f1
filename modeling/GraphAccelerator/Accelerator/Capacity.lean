import GraphAccelerator.Accelerator.Cleaning
import GraphAccelerator.Accelerator.Pulse
import GraphAccelerator.Accelerator.Waits

/-!
# Accesses inside the image

What an inspection finds are vertices, so rows, columns and depths stay inside their
regions: in every run every burst of the accelerator is inside the image.
-/

namespace GraphAccelerator

open Memory Kernel Queues LevelPass Bfs

namespace Pulse

variable {g : Graph} {i : Part} {pe after : Pe} {delay now : Nat} {due : TimedThread → Nat}

/-- What an inspection finds are vertices: no counter leaves its partition. -/
theorem finds (inspected : ∀ i, Inspected (Gl.layout g) i ⟨now, due, pe⟩)
    (dueNow : due ⟨.inspectDepthAnalysis, by simp⟩ = now)
    (ran : pe.inspectDepthAnalysis (Gl.layout g) = some (after, delay)) :
    Pairing.Finds g pe after := by
  obtain ⟨_, mid, looped, rfl⟩ := Pe.inspectDepthAnalysis_cases ran
  have checked : (mid.checkDone (Gl.layout g)).frontierBuffer = mid.frontierBuffer := by
    rw [Pe.checkDone]
    split <;> rfl
  have restarted : (pe.restartedIdx (Gl.layout g)).frontierBuffer = pe.frontierBuffer := by
    rw [Pe.restartedIdx]
    split <;> rfl
  intro vidx found
  rw [checked, ← restarted] at found
  cases looped with
  | empty _ | full _ => simp at found
  | analysed _ =>
      rw [Pe.inspectDepth_all] at found
      simp only [Pe.analysed, appended_append, List.mem_flatMap] at found
      obtain ⟨i, _, hit⟩ := found
      have buffers : (pe.restartedIdx (Gl.layout g)).depthBuffer0 = pe.depthBuffer0 ∧
          (pe.restartedIdx (Gl.layout g)).idx i = if pe.bfsIterationStart = true
            then Pe.resetIdx (Gl.layout g) i else pe.idx i := by
        rw [Pe.restartedIdx]
        split <;> exact ⟨rfl, rfl⟩
      have count := (inspected i).count
      have inside := partEnd_le (g := g) i
      rw [partEnd] at inside
      simp only [dueNow, and_true] at count
      rw [← buffers.2, ahead, ← buffers.1] at count
      rw [Pe.hit] at hit
      split at hit
      · cases hit
      · rename_i d rest buffer
        split at hit
        · obtain rfl := List.mem_singleton.mp hit
          have one : ((pe.restartedIdx (Gl.layout g)).depthBuffer0 i).length = rest.length + 1 := by
            rw [buffer, List.length_cons]
          refine ⟨_, ?_, rfl⟩
          split at count <;> omega
        · cases hit

theorem asked_end {gl : Gl} (ran : pe.inspectDepthReqThread gl i = some (after, delay)) :
    ∀ op ∈ appended pe.bursts after.bursts,
      op.addr + op.length = (Pe.inspectSpan gl after.inspectReq i).addr := by
  obtain ⟨_, mid, settled, looped⟩ := Pe.inspectDepthReqThread_cases ran
  have same : mid.bursts = pe.bursts := by cases settled <;> rfl
  rw [← same]
  intro op membership
  cases looped with
  | finished _ | full _ _ => simp at membership
  | @asked asked _ _ asks _ _ =>
      simp only [Pe.created, appended_append, List.mem_singleton] at membership
      obtain rfl := membership
      have start := asks.addr
      have length := asks.length
      simp only [Pe.created, Pe.inspectSpan, Function.update_self]
      omega

end Pulse

/-! ### Bursts -/

theorem forall_extend {holds : BurstOp → Prop} {before after : List BurstOp}
    (shaped : ∀ op other : BurstOp, op.shape = other.shape → holds op → holds other)
    (old : ∀ op ∈ before, holds op) (shapes : before.map BurstOp.shape <+: after.map BurstOp.shape)
    (more : ∀ op ∈ appended before after, holds op) : ∀ op ∈ after, holds op := by
  intro op membership
  obtain ⟨idx, present⟩ := List.mem_iff_getElem?.mp membership
  by_cases earlier : idx < before.length
  · obtain ⟨new, shapes⟩ := shapes
    have shape : (before.map BurstOp.shape ++ new)[idx]? = some op.shape := by
      rw [shapes, List.getElem?_map, present, Option.map_some]
    rw [List.getElem?_append_left (by simpa using earlier), List.getElem?_map,
      Option.map_eq_some_iff] at shape
    obtain ⟨other, found, same⟩ := shape
    exact shaped other op same (old other (List.mem_of_getElem? found))
  · refine more op (List.mem_iff_getElem?.mpr ⟨idx - before.length, ?_⟩)
    rw [appended, List.getElem?_drop, Nat.add_sub_cancel' (Nat.le_of_not_lt earlier)]
    exact present

theorem forall_answered {holds : BurstOp → Prop} {pe after : Pe} {i : Port}
    (shaped : ∀ op other : BurstOp, op.shape = other.shape → holds op → holds other)
    (old : ∀ op ∈ pe.bursts, holds op) (answered : pe.answer i = some after) :
    ∀ op ∈ after.bursts, holds op := by
  have shapes := (Pe.answer_flight answered).2
  have none : appended pe.bursts after.bursts = [] := by
    have count := congrArg List.length shapes
    rw [List.length_map, List.length_map] at count
    rw [appended, ← count, List.drop_length]
  refine forall_extend shaped old (shapes ▸ List.prefix_rfl) ?_
  rw [none]
  exact fun _ membership => absurd membership List.not_mem_nil

def Within (size : Nat) (bursts : List BurstOp) : Prop :=
  ∀ op ∈ bursts, ∀ j < op.length, op.addr + j < size

theorem within_of_shape {size : Nat} (op other : BurstOp) (same : op.shape = other.shape)
    (inside : ∀ j < op.length, op.addr + j < size) : ∀ j < other.length, other.addr + j < size := by
  rw [← shape_addr same, ← shape_length same]
  exact inside

theorem Within.extend {size : Nat} {before after : List BurstOp} (within : Within size before)
    (shapes : before.map BurstOp.shape <+: after.map BurstOp.shape)
    (more : Within size (appended before after)) : Within size after :=
  forall_extend within_of_shape within shapes more

namespace Pairing

variable {g : Graph} {edge : Nat → Nat → Prop} {out inn : Nat → List Nat} {image : List Byte}
variable {pe : Pe} {h : History} {op : BurstOp}

/-- A burst of the expansion that is not answered yet is inside the image. -/
theorem Holds.inside (setting : Setting g edge out inn image 0)
    (holds : Holds g edge out image pe h) {i : Port} (expands : ∀ part : Part, i ≠ part.port)
    (waits : op ∈ (pe.line i).pending) {j : Nat} (bound : j < op.length) :
    op.addr + j < image.length := by
  obtain ⟨_, _, _, _, _, _, _, vertex, column⟩ := holds.expansion
  obtain ⟨read, asked, popped, part⟩ := holds.depths
  have vertices := setting.laidOut.vertexNum_lt
  have covered : (op.addr, op.length) ∈ (pe.line i).spans := by
    rw [Line.spans_eq]
    exact List.mem_append_right _
      (List.mem_map_of_mem (f := fun op : BurstOp => (op.addr, op.length)) waits)
  rcases Port.cases i with ⟨part, rfl⟩ | rfl | rfl | rfl | rfl
  · exact absurd rfl (expands part)
  · exact vertex.stage.inside setting covered bound
  · exact column.stage.inside setting covered bound
  · rw [part.spans, List.mem_map] at covered
    obtain ⟨v, member, same⟩ := covered
    obtain ⟨start, length⟩ := Prod.mk.inj same
    have := part.bound v (by simp [member])
    omega
  · have := holds.writing op waits
    omega

theorem finds_of_ne {after : Pe} {thread : PeThread} {delay : Nat}
    (controller : thread ≠ .bfsController) (analyses : thread ≠ .inspectDepthAnalysis)
    (ran : pe.resume (Gl.layout g) thread = some (after, delay)) : Finds g pe after := by
  have none : appended pe.frontierBuffer after.frontierBuffer = [] := by
    by_cases pops : thread = .frontierAnalysis
    · subst pops
      obtain ⟨_, mid, settled, looped⟩ := Pe.frontierAnalysis_cases ran
      have same : mid.frontierBuffer = pe.frontierBuffer := by cases settled <;> rfl
      rw [← same]
      cases looped with
      | empty _ | full _ _ => exact appended_self _
      | asked buffer _ _ _ _ =>
          rw [buffer]
          exact appended_cons ..
    · rw [(Pe.resume_frame controller ran).frontierBuffer analyses pops, appended_self]
  rw [Finds, none]
  simp

end Pairing

/-! ### Runs -/

/-- What holds at all times, when the arrays are those of the image. -/
structure Bounded (g : Graph) (edge : Nat → Nat → Prop) (out : Nat → List Nat)
    (image : List Byte) (timed : Timed TimedThread Pe) : Prop where
  onTime : Pe.OnTime timed
  inspected : ∀ i, Pulse.Inspected (Gl.layout g) i timed
  holds : ∃ h, Pairing.Holds g edge out image timed.state h
  bursts : Within image.length timed.state.bursts

section Runs

variable {g : Graph} {edge : Nat → Nat → Prop} {out inn : Nat → List Nat} {image : List Byte}

theorem baseDepthMemAddr_within (i : Part) :
    (Gl.layout g).baseDepthMemAddr i + (Gl.layout g).maxLen i ≤ (Gl.layout g).vertexNum := by
  rw [baseDepthMemAddr_eq]
  exact partEnd_le i

theorem Bounded.created (setting : Setting g edge out inn image 0) {pe final : Pe}
    {h : Pairing.History} {thread : PeThread} {now delay : Nat} {due : TimedThread → Nat}
    (timed : thread ≠ .bfsController) (consistent : pe.Consistent)
    (holds : Pairing.Holds g edge out image final h)
    (inspected : ∀ i, Pulse.Inspected (Gl.layout g) i ⟨now, due, final⟩)
    (ran : pe.resume (Gl.layout g) thread = some (final, delay)) :
    Within image.length (appended pe.bursts final.bursts) := by
  intro op membership j bound
  obtain ⟨asks, waits⟩ := Pe.resume_appended consistent timed ran op membership
  by_cases inspects : ∃ part : Part, op.portIdx = part.port
  · obtain ⟨part, port⟩ := inspects
    rw [port] at asks
    obtain rfl := PeThread.asks_part asks
    have last := Pulse.asked_end ran op membership
    have within : (Pe.inspectSpan (Gl.layout g) final.inspectReq part).addr + _ ≤ _ :=
      (inspected part).within
    have number : (Gl.layout g).vertexNum = g.vertexNum := rfl
    have := setting.laidOut.vertexNum_lt
    omega
  · exact holds.inside setting (fun part port => inspects ⟨part, port⟩) waits bound

theorem Bounded.step (setting : Setting g edge out inn image 0)
    (levelled : ∀ v, v < g.vertexNum → depthByte g image v = 0)
    {before after : Timed TimedThread Pe} (bounded : Bounded g edge out image before)
    (stepped : Pe.Cycle (Gl.layout g) before after) : Bounded g edge out image after := by
  have onTime := Pe.onTime_step bounded.onTime stepped
  have inspected : ∀ i, Pulse.Inspected (Gl.layout g) i after := fun i =>
    Pulse.inspected_step bounded.onTime (baseDepthMemAddr_within i) (bounded.inspected i) stepped
  have consistent := bounded.onTime.consistent
  have bursts := bounded.bursts
  obtain ⟨h, holds⟩ := bounded.holds
  cases stepped with
  | @resume now due pe final thread delay dueNow positive ran =>
      obtain ⟨thread, timed⟩ := thread
      have finds : Pairing.Finds g pe final := by
        by_cases analyses : thread = .inspectDepthAnalysis
        · subst analyses
          exact Pulse.finds bounded.inspected dueNow ran
        · exact Pairing.finds_of_ne timed analyses ran
      have moved := holds.step setting levelled (.resume ran finds)
      exact ⟨onTime, inspected, ⟨_, moved⟩, bursts.extend (Pe.resume_frame timed ran).bursts
        (Bounded.created setting timed consistent moved inspected ran)⟩
  | @interfere now due pe final answered =>
      obtain ⟨i, answered⟩ := answered
      exact ⟨onTime, inspected, ⟨_, holds.step setting levelled (.answer answered)⟩,
        forall_answered within_of_shape bursts answered⟩
  | @advance now due pe waiting =>
      refine ⟨onTime, inspected, ⟨_, holds.bfsController⟩, ?_⟩
      show Within image.length pe.bfsController.bursts
      rw [Pe.bfsController_queues]
      exact bursts

variable {isUgraph : Bool} {edges : List (Nat × Nat)} {data : List (List Int)}
variable {ram0 ramData : List Byte} {final : Timed TimedThread Pe}

theorem arrays_of_started {startIdx : Nat} (vertex : startIdx < g.vertexNum)
    (started : setNewStartVertex (Gl.layout g) startIdx ram0 = some ramData) :
    ∀ addr, g.vertexNum ≤ addr → ramData[addr]? = ram0[addr]? := by
  intro addr behind
  have origin : (Gl.layout g).depthMemAddr = 0 := rfl
  rw [(updateRam_spec started).2 addr,
    if_neg (by simp only [charBytes, List.length_singleton]; omega)]

theorem bounded_run (built : g.BuiltFrom isUgraph edges)
    (outgoing : outCount g.vertices ≤ g.edgeNum) (initialized : ramInit g = some ram0)
    (arrays : ∀ addr, g.vertexNum ≤ addr → ramData[addr]? = ram0[addr]?)
    (run : Relation.ReflTransGen (Pe.Cycle (Gl.layout g)) (Pe.start (Gl.layout g) ramData) final) :
    Bounded g (Edge isUgraph edges) (outNgbs isUgraph edges) (Pairing.levelled g ram0) final := by
  have reset : Pairing.Holds g (Edge isUgraph edges) (outNgbs isUgraph edges)
      (Pairing.levelled g ram0) (Pe.reset (Gl.layout g) ramData) {} :=
    Pairing.holds_reset fun addr behind =>
      (arrays addr behind).trans (Pairing.levelled_behind behind).symm
  refine invariant_of_step (Bounded g _ _ _) run ⟨Pe.onTime_start _ _, Pulse.inspected_start _ _,
    ⟨_, reset.bfsController⟩, fun op membership => ?_⟩ fun _ _ bounded stepped =>
      bounded.step (Pairing.levelled_setting built outgoing initialized)
        (fun _ bound => Pairing.levelled_depth bound) stepped
  change op ∈ (Pe.reset (Gl.layout g) ramData).bfsController.bursts at membership
  rw [Pe.bfsController_queues] at membership
  cases membership

end Runs

end GraphAccelerator
