import GraphAccelerator.Accelerator.LevelEnd

/-!
# Feeding the inspection

While nobody answers a partition, its bursts are the chunks of its vertices.  Once they are
answered, the response thread waits for the bytes of a burst, copies them and takes the
next one; the analysis takes one depth of every partition in a cycle, if there is one.
-/

namespace GraphAccelerator

open Memory Kernel Ranks Bfs LevelPass Chunks

namespace LevelPass

open Pe

variable {g : Graph} {edge : Nat → Nat → Prop} {out inn : Nat → List Nat} {gl : Gl}
variable {first pe mid after : Pe} {f : Flow} {part : Part} {delay : Nat} {thread : PeThread}

/-- The bursts of a partition, which nobody has answered, and those that are still to be
created are the chunks of the partition. -/
def Cut (gl : Gl) (part : Part) (pe : Pe) : Prop :=
  ((pe.line part.port).spans.map fun span => ((span.1 : Int), span.2)) ++
      chunks Gl.baseLen (inspectSpan gl pe.inspectReq part).addr
        (inspectSpan gl pe.inspectReq part).left =
    chunks Gl.baseLen (gl.baseDepthMemAddr part) (gl.maxLen part)

theorem Cut.moved (cut : Cut gl part pe)
    (spans : (after.line part.port).spans = (pe.line part.port).spans)
    (inspectReq : inspectSpan gl after.inspectReq part = inspectSpan gl pe.inspectReq part) :
    Cut gl part after := by
  rw [Cut, spans, inspectReq]
  exact cut

theorem Cut.asked (cut : Cut gl part mid) (looped : InspectLoop gl part mid after)
    (indexed : mid.Indexed) (free : mid.creating part.port = none)
    (outside : (mid.inspectReq part).actualLen = 0) : Cut gl part after := by
  cases looped with
  | finished _ | full _ _ => exact cut
  | @asked op more _ asks port _ =>
      have spans := @Pairing.spans_created { mid with
        inspectReq := Function.update mid.inspectReq part
          { mid.inspectReq part with actualLen := mid.inspectLen gl part } } part.port op indexed
            free port
      have addr := asks.addr
      rw [Cut, inspectSpan, outside, Nat.add_zero,
        chunks_pos (by decide)
          (show 0 < gl.maxLen part - (mid.inspectReq part).currentLen by omega), ← inspectLen] at cut
      rw [Cut, spans, ← cut, List.map_append, List.append_assoc]
      simp only [created, inspectSpan, Function.update_self, List.map_cons, List.map_nil,
        asks.length, addr, List.singleton_append, Nat.sub_sub, Nat.cast_zero, Int.add_zero]

theorem Cut.step (cut : Cut gl part pe) (held : Held gl part pe) (consistent : pe.Consistent)
    (started : pe.bfsIterationStart = false)
    (stepped : StepOn gl (fun i => i ≠ part.port) pe after) : Cut gl part after := by
  cases stepped with
  | @resume thread delay timed ran =>
      have frame := resume_frame timed ran
      by_cases takes : thread = .processInspectDepthReadResp part
      · subst takes
        obtain ⟨rfl, _⟩ := (response_idle consistent.indexed rfl held.burstRespQueue).same ran
        exact cut
      have takesNot : thread.takes ≠ some part.port := fun same => takes (PeThread.takes_part same)
      by_cases asks : thread = .issueInspectDepthReadReq part
      · subst asks
        obtain ⟨_, mid, settled, looped⟩ := inspectDepthReqThread_cases ran
        obtain ⟨indexed, lines⟩ := settled.lines consistent.indexed
        cases settled with
        | idle free _ => exact cut.asked looped indexed free (consistent.inspect part free)
        | restarted _ _ start => simp [started] at start
        | pushed creating =>
            refine Cut.asked (cut.moved (lines part.port).spans ?_) looped indexed
              (Function.update_self ..) (by simp)
            simp [inspectSpan]
      · have asksNot : thread.asks ≠ some part.port := fun same => asks (PeThread.asks_part same)
        refine cut.moved (resume_lines consistent timed ran asksNot takesNot).spans ?_
        rw [inspectSpan, inspectSpan, frame.inspectReq part asks]
  | @answer i other answered =>
      have spans := @answer_spans _ _ part.port consistent i answered
      refine cut.moved spans ?_
      cases Pe.answer_cases answered <;> rfl

theorem Cut.run (setting : Setting g edge out inn first.ramData first.level)
    (drained : first.Drained (Gl.layout g))
    (steps : Relation.ReflTransGen (StepOn (Gl.layout g) fun i => i ≠ part.port)
      (first.observeStart (Gl.layout g)) pe) : Cut (Gl.layout g) part pe := by
  induction steps with
  | refl =>
      have line : (first.observeStart (Gl.layout g)).line part.port = {} := line_drained drained _
      rw [Cut, line]
      simp [Line.spans, Line.ops, inspectSpan, observeStart]
  | tail earlier stepped inductionHypothesis =>
      have levels := Relation.ReflTransGen.mono (fun _ _ stepped => StepOn.level stepped) _ _
        earlier
      obtain ⟨f, reached⟩ := reached_run setting drained levels
      exact inductionHypothesis.step (@Held.run _ _ _ _ _ _ _ setting drained earlier)
        reached.consistent reached.started stepped

end LevelPass

namespace Pe

/-! ### One turn -/

section Turns

variable {gl : Gl} {pe after : Pe} {delay : Nat} {part : Part} {thread : PeThread}

/-- Nothing is analysed without a depth. -/
theorem analysis_none (ran : pe.inspectDepthAnalysis gl = some (after, delay))
    (running : pe.bfsIterationStart = false) (none : ∀ i, pe.depthBuffer0 i = []) :
    after.idx = pe.idx ∧ after.frontierBuffer = pe.frontierBuffer := by
  obtain ⟨_, mid, looped, rfl⟩ := inspectDepthAnalysis_cases ran
  rw [restartedIdx, if_neg (by simp [running])] at looped
  have same : mid = pe := by
    cases looped with
    | empty _ | full _ => rfl
    | analysed _ => rw [inspectDepth_all, analysed_of_empty none]
  rw [same, checkDone]
  split <;> exact ⟨rfl, rfl⟩

/-- All partitions are served if there is room for one vertex. -/
theorem analysis_all (ran : pe.inspectDepthAnalysis gl = some (after, delay))
    (running : pe.bfsIterationStart = false) (all : ∀ i, pe.depthBuffer0 i ≠ [])
    (room : pe.frontierBuffer.length < Gl.frontierBufferDepth) :
    after.idx = (fun i => pe.idx i + 1) ∧
      after.frontierBuffer = pe.frontierBuffer ++ (List.finRange 4).flatMap pe.hit := by
  obtain ⟨_, mid, looped, rfl⟩ := inspectDepthAnalysis_cases ran
  rw [restartedIdx, if_neg (by simp [running])] at looped
  have same : mid = pe.analysed := by
    cases looped with
    | empty none => exact absurd (none 0) (all 0)
    | full full => exact absurd room (Nat.not_lt.mpr full)
    | analysed _ => exact inspectDepth_all pe
  have taken : ∀ i, ((pe.depthBuffer0 i).take 1).length = 1 := fun i => by
    obtain ⟨d, rest, buffer⟩ := List.exists_cons_of_ne_nil (all i)
    simp [buffer]
  rw [same, checkDone]
  split <;> simp [analysed, taken]

/-- One vertex leaves, since there is room for its row pointers. -/
theorem frontier_one (ran : pe.frontierAnalysis gl = some (after, delay))
    (rows : pe.rpaoBuffer = []) :
    after.frontierBuffer = pe.frontierBuffer.tail := by
  obtain ⟨_, mid, settled, looped⟩ := frontierAnalysis_cases ran
  have same : mid.frontierBuffer = pe.frontierBuffer ∧ mid.rpaoBuffer = pe.rpaoBuffer := by
    cases settled <;> exact ⟨rfl, rfl⟩
  rw [← same.1]
  cases looped with
  | empty none => rw [none, List.tail_nil]
  | full _ full =>
      rw [same.2, rows] at full
      exact absurd full (by decide)
  | asked buffer _ _ _ _ => rw [buffer]; rfl

/-- The inspection has come to `idx`, `n` vertices are left to be expanded, and no row
pointers arrive. -/
structure Steady (idx : Part → Nat) (n : Nat) (pe : Pe) : Prop where
  idx : pe.idx = idx
  frontierBuffer : pe.frontierBuffer.length = n
  rpaoBuffer : pe.rpaoBuffer = []
  burstRespQueue : pe.burstRespQueue 4 = []
  answered : pe.answered 4 = []

/-- The threads that leave the row pointers and their port alone. -/
theorem Steady.moved {idx idx' : Part → Nat} {n n' : Nat} (steady : pe.Steady idx n)
    (frame : Frame thread pe after) (responds : thread ≠ .processExpandRpaoReadResp)
    (rows : thread ≠ .issueExpandCiaoReadReq) (takes : thread.takes ≠ some 4)
    (reads : thread ≠ .getMemResp) (moved : after.idx = idx')
    (frontierBuffer : after.frontierBuffer.length = n') : after.Steady idx' n' :=
  ⟨moved, frontierBuffer, (frame.rpaoBuffer responds rows).trans steady.rpaoBuffer,
    (frame.burstRespQueue 4 takes reads).trans steady.burstRespQueue,
    (congrFun (frame.answered reads) 4).trans steady.answered⟩

theorem Steady.read {idx : Part → Nat} {n : Nat} (steady : pe.Steady idx n) :
    pe.getMemResp.Steady idx n :=
  ⟨steady.idx, steady.frontierBuffer, steady.rpaoBuffer,
    by simp [getMemResp, steady.burstRespQueue, steady.answered],
    by simp [getMemResp, steady.answered]⟩

theorem Steady.resume {idx : Part → Nat} {n : Nat} (steady : pe.Steady idx n)
    (indexed : pe.Indexed) (running : pe.bfsIterationStart = false)
    (analysis : thread = .inspectDepthAnalysis → ∀ i, pe.depthBuffer0 i = [])
    (frontier : thread = .frontierAnalysis → pe.frontierBuffer = [])
    (timed : thread ≠ .bfsController) (ran : pe.resume gl thread = some (after, delay)) :
    after.Steady idx n := by
  have frame := resume_frame timed ran
  by_cases reads : thread = .getMemResp
  · subst reads
    cases ran
    exact steady.read
  by_cases takes : thread.takes = some 4
  · obtain rfl := ((response_idle indexed takes steady.burstRespQueue).same ran).1
    exact steady
  have responds : thread ≠ .processExpandRpaoReadResp := by
    rintro rfl
    exact takes rfl
  by_cases rows : thread = .issueExpandCiaoReadReq
  · subst rows
    obtain ⟨_, mid, settled, looped⟩ := issueExpandCiaoReadReq_cases ran
    have same : mid.rpaoBuffer = pe.rpaoBuffer := by cases settled <;> rfl
    have shorter := looped.buffers
    rw [same, steady.rpaoBuffer] at shorter
    exact ⟨(frame.idx (by simp)).trans steady.idx,
      (congrArg _ (frame.frontierBuffer (by simp) (by simp))).trans steady.frontierBuffer,
      List.eq_nil_of_length_eq_zero (Nat.le_zero.mp shorter),
      (frame.burstRespQueue 4 takes reads).trans steady.burstRespQueue,
      (congrFun (frame.answered reads) 4).trans steady.answered⟩
  by_cases analyses : thread = .inspectDepthAnalysis
  · subst analyses
    obtain ⟨same, frontierBuffer⟩ := analysis_none ran running (analysis rfl)
    exact steady.moved frame responds rows takes reads (same.trans steady.idx)
      ((congrArg _ frontierBuffer).trans steady.frontierBuffer)
  refine steady.moved frame responds rows takes reads ((frame.idx analyses).trans steady.idx) ?_
  by_cases pops : thread = .frontierAnalysis
  · subst pops
    have none := frontier rfl
    rw [frontier_one ran steady.rpaoBuffer, none, List.tail_nil, ← none]
    exact steady.frontierBuffer
  · rw [frame.frontierBuffer analyses pops]
    exact steady.frontierBuffer

theorem Steady.advance {idx : Part → Nat} {n : Nat} (steady : pe.Steady idx n)
    (goesOn : pe.endsLevel = false) : pe.bfsController.Steady idx n := by
  rw [bfsController_of_not_ends goesOn]
  exact ⟨steady.idx, steady.frontierBuffer, steady.rpaoBuffer, steady.burstRespQueue,
    steady.answered⟩

end Turns

/-! ### The answers to a partition -/

variable {gl : Gl} {pe after : Pe} {delay now since arrives count length : Nat}
variable {due : TimedThread → Nat} {timed : Timed TimedThread Pe} {part : Part}
variable {thread : TimedThread} {queue answered : List Nat} {burstIdx nextIdx : Nat}

theorem responds_timed (part : Part) :
    PeThread.processInspectDepthReadResp part ≠ .bfsController := by
  simp

def responder (part : Part) : TimedThread :=
  ⟨.processInspectDepthReadResp part, responds_timed part⟩

/-- The answers to a partition: those that have been read, of which the first one is to
be in the buffer at `arrives`, and those that have not; `count` depths have come before. -/
structure Feeding (gl : Gl) (part : Part) (count : Nat) (queue answered : List Nat) (arrives : Nat)
    (timed : Timed TimedThread Pe) : Prop where
  burstRespQueue : timed.state.burstRespQueue part.port = queue
  answered : timed.state.answered part.port = answered
  transfer : timed.state.transfer part.port = queue.head?
  due : queue ≠ [] → timed.due (responder part) = arrives
  count : (timed.state.depthBuffer0 part).length + timed.state.idx part = resetIdx gl part + count

def hasLength (pe : Pe) (burstIdx length : Nat) : Prop :=
  (pe.bursts[burstIdx]?).map BurstOp.length = some length

theorem hasLength_kept (shapes : pe.bursts.map BurstOp.shape <+: after.bursts.map BurstOp.shape)
    (known : pe.hasLength burstIdx length) : after.hasLength burstIdx length := by
  obtain ⟨op, present, rfl⟩ := Option.map_eq_some_iff.mp known
  obtain ⟨more, same⟩ := shapes
  have inside := (List.getElem?_eq_some_iff.mp present).1
  have shape : (after.bursts.map BurstOp.shape)[burstIdx]? = some op.shape := by
    rw [← same, List.getElem?_append_left (by simpa using inside), List.getElem?_map, present]
    rfl
  rw [List.getElem?_map, Option.map_eq_some_iff] at shape
  obtain ⟨other, found, same⟩ := shape
  rw [hasLength, found, Option.map_some, shape_length same]

theorem awaits_delay {size : Nat} (awaits : Awaits part.port size pe after delay)
    (queue : pe.burstRespQueue part.port = burstIdx :: answered)
    (known : pe.hasLength burstIdx length) :
    delay = length / size ∧ after.transfer part.port = some burstIdx := by
  cases awaits with
  | nothing empty =>
      rw [queue] at empty
      cases empty
  | response taken present =>
      rw [queue, List.cons.injEq] at taken
      obtain ⟨rfl, _⟩ := taken
      rw [hasLength, present, Option.map_some, Option.some.injEq] at known
      exact ⟨by rw [known], Function.update_self ..⟩

theorem awaits_transfer {size : Nat} (awaits : Awaits part.port size pe after delay) :
    after.transfer part.port = (pe.burstRespQueue part.port).head? ∧
      after.burstRespQueue = pe.burstRespQueue ∧ after.answered = pe.answered ∧
      after.depthBuffer0 = pe.depthBuffer0 ∧ after.idx = pe.idx := by
  cases awaits with
  | nothing empty => exact ⟨by simp [empty], rfl, rfl, rfl, rfl⟩
  | response taken _ => exact ⟨by simp [taken], rfl, rfl, rfl, rfl⟩

namespace Feeding

/-- The first answer arrives in the buffer, and the next one is taken. -/
theorem arrive (feeding : Feeding gl part count (burstIdx :: queue) answered now ⟨now, due, pe⟩)
    (known : pe.hasLength burstIdx length)
    (ran : pe.resume gl (responder part).val = some (after, delay)) :
    Feeding gl part (count + length) queue answered (now + delay)
        ⟨now, Function.update due (responder part) (now + delay), after⟩ ∧
      ∀ nextIdx rest nextLength, queue = nextIdx :: rest → pe.hasLength nextIdx nextLength →
        delay = nextLength := by
  have total := feeding.count
  cases respThread_cases ran with
  | polled free _ =>
      rw [show pe.transfer part.port = some burstIdx from feeding.transfer] at free
      cases free
  | @stored taken op stored _ _ transfer present copied awaits =>
      obtain rfl := Option.some.inj (feeding.transfer.symm.trans transfer)
      obtain ⟨bytes, converted, rfl⟩ := storeInspect_cases copied
      have same : op.length = length := by
        simpa [hasLength, present] using known
      have entries := toBytes_length converted
      obtain ⟨taken, sameQueue, sameAnswered, depthBuffer0, idx⟩ := awaits_transfer awaits
      have rest : (pe.burstRespQueue part.port).tail = queue := by
        rw [show pe.burstRespQueue part.port = burstIdx :: queue from feeding.burstRespQueue,
          List.tail_cons]
      refine ⟨⟨?_, ?_, ?_, fun _ => Function.update_self .., ?_⟩, ?_⟩
      · exact (congrFun sameQueue part.port).trans ((Function.update_self ..).trans rest)
      · exact (congrFun sameAnswered part.port).trans feeding.answered
      · exact taken.trans (congrArg List.head? ((Function.update_self ..).trans rest))
      · dsimp only at total ⊢
        rw [depthBuffer0, idx]
        simp only [popped, Function.update_self, List.length_append]
        omega
      · intro nextIdx others nextLength next known
        have delayed := (awaits_delay awaits ((Function.update_self ..).trans (rest.trans next))
          known).1
        rw [delayed, Nat.div_one]

/-- After the last one nothing happens any more. -/
theorem rest (feeding : Feeding gl part count [] answered arrives ⟨now, due, pe⟩)
    (ran : pe.resume gl (responder part).val = some (after, delay)) :
    Feeding gl part count [] answered arrives
      ⟨now, Function.update due (responder part) (now + delay), after⟩ := by
  have idle : pe.Idle gl (responder part).val :=
    respThread_idle feeding.burstRespQueue feeding.transfer
  obtain ⟨rfl, _⟩ := idle.same ran
  exact ⟨feeding.burstRespQueue, feeding.answered, feeding.transfer, fun some => absurd rfl some,
    feeding.count⟩

theorem other (feeding : Feeding gl part count queue answered arrives ⟨now, due, pe⟩)
    (running : pe.bfsIterationStart = false) (differs : thread ≠ responder part)
    (reads : thread.val = .getMemResp → answered = [])
    (ran : pe.resume gl thread.val = some (after, delay)) :
    Feeding gl part count queue answered arrives
      ⟨now, Function.update due thread (now + delay), after⟩ := by
  have frame := resume_frame thread.property ran
  have takes : thread.val ≠ .processInspectDepthReadResp part := fun same =>
    differs (Subtype.ext same)
  have takesNot : thread.val.takes ≠ some part.port := fun same => takes (PeThread.takes_part same)
  refine ⟨?_, ?_, ?_, fun some => ?_, ?_⟩
  · by_cases reading : thread.val = .getMemResp
    · rw [reading] at ran
      cases ran
      have none : pe.answered part.port = [] := feeding.answered.trans (reads reading)
      show pe.burstRespQueue part.port ++ (pe.answered part.port).take 1 = queue
      rw [none, List.take_nil, List.append_nil]
      exact feeding.burstRespQueue
    · exact (frame.burstRespQueue part.port takesNot reading).trans feeding.burstRespQueue
  · by_cases reading : thread.val = .getMemResp
    · rw [reading] at ran
      cases ran
      have none : pe.answered part.port = [] := feeding.answered.trans (reads reading)
      show (pe.answered part.port).tail = answered
      rw [none, reads reading, List.tail_nil]
    · exact (congrFun (frame.answered reading) part.port).trans feeding.answered
  · exact (frame.transfer part.port takesNot).trans feeding.transfer
  · exact (Function.update_of_ne (Ne.symm differs) ..).trans (feeding.due some)
  · have total := feeding.count
    by_cases analyses : thread.val = .inspectDepthAnalysis
    · rw [analyses] at ran
      obtain ⟨taken, _, length, idx⟩ := Pulse.Inspecting.analysed_depths ran part
      rw [running, if_neg (by simp)] at idx
      dsimp only at total ⊢
      omega
    · dsimp only at total ⊢
      rw [frame.depthBuffer0 part takes analyses, frame.idx analyses]
      exact total

/-- The next answer is read. -/
theorem read (feeding : Feeding gl part count (burstIdx :: queue) (nextIdx :: answered) arrives
      ⟨now, due, pe⟩) {later : TimedThread → Nat}
    (same : later (responder part) = due (responder part)) :
    Feeding gl part count (burstIdx :: queue ++ [nextIdx]) answered arrives
      ⟨now, later, pe.getMemResp⟩ where
  burstRespQueue := by
    show pe.burstRespQueue part.port ++ (pe.answered part.port).take 1 = _
    rw [show pe.burstRespQueue part.port = _ from feeding.burstRespQueue,
      show pe.answered part.port = _ from feeding.answered]
    rfl
  answered := congrArg List.tail feeding.answered
  transfer := feeding.transfer
  due _ := same.trans (feeding.due (List.cons_ne_nil _ _))
  count := feeding.count

theorem advance {count arrives : Nat} {queue answered : List Nat}
    (feeding : Feeding gl part count queue answered arrives ⟨now, due, pe⟩)
    (goesOn : pe.endsLevel = false) :
    Feeding gl part count queue answered arrives ⟨now + 1, due, pe.bfsController⟩ := by
  rw [bfsController_of_not_ends goesOn]
  exact ⟨feeding.burstRespQueue, feeding.answered, feeding.transfer, feeding.due, feeding.count⟩

end Feeding

/-! ### Two bursts of 1024 and 512 bytes -/

def Lengths (burstIdx nextIdx : Nat) (pe : Pe) : Prop :=
  pe.hasLength burstIdx 1024 ∧ pe.hasLength nextIdx 512

theorem Lengths.resume (sized : pe.Lengths burstIdx nextIdx)
    (ran : pe.resume gl thread.val = some (after, delay)) : after.Lengths burstIdx nextIdx := by
  have shapes := (resume_frame thread.property ran).bursts
  exact ⟨hasLength_kept shapes sized.1, hasLength_kept shapes sized.2⟩

theorem Lengths.advance (sized : pe.Lengths burstIdx nextIdx) (goesOn : pe.endsLevel = false) :
    pe.bfsController.Lengths burstIdx nextIdx := by
  rw [bfsController_of_not_ends goesOn]
  exact sized

/-- The first burst of a partition is in its buffer from `since` on, the second one 512
cycles later. -/
inductive Fed (gl : Gl) (part : Part) (burstIdx nextIdx since : Nat)
    (timed : Timed TimedThread Pe) : Prop
  | waits : timed.now ≤ since → Feeding gl part 0 [burstIdx, nextIdx] [] since timed →
      Fed gl part burstIdx nextIdx since timed
  | stored : since ≤ timed.now → timed.now ≤ since + 512 →
      Feeding gl part 1024 [nextIdx] [] (since + 512) timed →
      Fed gl part burstIdx nextIdx since timed
  | finished : since + 512 ≤ timed.now → Feeding gl part 1536 [] [] 0 timed →
      Fed gl part burstIdx nextIdx since timed

theorem Fed.resume (fed : Fed gl part burstIdx nextIdx since ⟨now, due, pe⟩)
    (sized : pe.Lengths burstIdx nextIdx) (running : pe.bfsIterationStart = false)
    (dueNow : due thread = now) (ran : pe.resume gl thread.val = some (after, delay)) :
    Fed gl part burstIdx nextIdx since
      ⟨now, Function.update due thread (now + delay), after⟩ := by
  by_cases responds : thread = responder part
  · subst responds
    cases fed with
    | waits early feeding =>
        have here : now = _ := dueNow.symm.trans (feeding.due (List.cons_ne_nil _ _))
        subst here
        obtain ⟨fed, next⟩ := feeding.arrive sized.1 ran
        rw [next nextIdx [] 512 rfl sized.2] at fed ⊢
        exact .stored (Nat.le_refl _) (Nat.le_add_right _ _) fed
    | stored late early feeding =>
        have here : now = _ := dueNow.symm.trans (feeding.due (List.cons_ne_nil _ _))
        subst here
        obtain ⟨⟨queue, answered, transfer, _, count⟩, _⟩ := feeding.arrive sized.2 ran
        exact .finished (Nat.le_refl _)
          ⟨queue, answered, transfer, fun some => absurd rfl some, count⟩
    | finished late feeding => exact .finished late (feeding.rest ran)
  · cases fed with
    | waits early feeding => exact .waits early (feeding.other running responds (fun _ => rfl) ran)
    | stored late early feeding =>
        exact .stored late early (feeding.other running responds (fun _ => rfl) ran)
    | finished late feeding =>
        exact .finished late (feeding.other running responds (fun _ => rfl) ran)

theorem Fed.advance (fed : Fed gl part burstIdx nextIdx since ⟨now, due, pe⟩)
    (waiting : ∀ thread, now < due thread) (goesOn : pe.endsLevel = false) :
    Fed gl part burstIdx nextIdx since ⟨now + 1, due, pe.bfsController⟩ := by
  have later := waiting (responder part)
  cases fed with
  | waits early feeding =>
      have here := feeding.due (List.cons_ne_nil _ _)
      refine .waits ?_ (feeding.advance goesOn)
      dsimp only at here ⊢
      omega
  | stored late early feeding =>
      have here := feeding.due (List.cons_ne_nil _ _)
      refine .stored (Nat.le_succ_of_le late) ?_ (feeding.advance goesOn)
      dsimp only at here ⊢
      omega
  | finished late feeding => exact .finished (Nat.le_succ_of_le late) (feeding.advance goesOn)

end Pe

end GraphAccelerator
