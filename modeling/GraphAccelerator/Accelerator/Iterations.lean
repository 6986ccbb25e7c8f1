import GraphAccelerator.Accelerator.Requests
import GraphAccelerator.Accelerator.Barrier

/-!
# No thread runs for ever without waiting

A segment of a thread is the rest of the iteration in which it waits and then some more
iterations of its loop.  Most of them end in a `wait`; three threads have a branch
that goes back to the head of the loop at once.  Each of these takes an item from a
buffer that nobody fills meanwhile.

So every segment exists, and where the regions of `ramInit` fit into the 16 bytes per
edge that it makes room for, every access of a run is inside the image.
-/

namespace GraphAccelerator

open Memory Kernel CheckedLoop Queues

namespace Pe

/-! ### Iterations -/

section Definitions

variable (gl : Gl)

def waits (delay : Nat) (pe : Pe) : (Pe × Nat) × Bool := ((pe, delay), false)

def again (pe : Pe) : (Pe × Nat) × Bool := ((pe, 0), true)

/-- `createReadBurstReq` behind its `wait`, with `burstOpStatus[burstIdx] = false`. -/
def finishBurst (portIdx : Port) (pe : Pe) : Pe :=
  match pe.creating portIdx with
  | none => pe
  | some burstIdx => pe.pushBurst portIdx burstIdx

def finishResp (portIdx : Port) (store : BurstOp → Pe → Option Pe) (pe : Pe) : Option Pe :=
  match pe.transfer portIdx with
  | none => some pe
  | some burstIdx => do
      let op ← pe.bursts[burstIdx]?
      store op { pe with
        burstOpStatus := pe.burstOpStatus.erase burstIdx
        burstRespQueue := Function.update pe.burstRespQueue portIdx
          (pe.burstRespQueue portIdx).tail
        transfer := Function.update pe.transfer portIdx none
        counted := pe.burstIdx_eq }

/-- `inspectDepthReqThread` up to the head of its inner loop. -/
def finishInspect (prIdx : Part) (pe : Pe) : Pe :=
  let r := pe.inspectReq prIdx
  match pe.creating prIdx.port with
  | some burstIdx => { pe.pushBurst prIdx.port burstIdx with
      inspectReq := Function.update pe.inspectReq prIdx { r with
        depthMemAddr := r.depthMemAddr + r.actualLen
        currentLen := r.currentLen + r.actualLen
        actualLen := 0 } }
  | none =>
      if gl.maxLen prIdx ≤ r.currentLen && pe.bfsIterationStart then { pe with
          inspectReq := Function.update pe.inspectReq prIdx { r with
            depthMemAddr := gl.baseDepthMemAddr prIdx
            currentLen := 0
            actualLen := 0 } }
      else pe

/-- `issueExpandCiaoReadReq` up to the head of its inner loop. -/
def finishCiao (pe : Pe) : Pe :=
  match pe.creating 5 with
  | none => pe
  | some burstIdx => { pe.pushBurst 5 burstIdx with
      ciaoReq := { pe.ciaoReq with
        ciaoMemAddr := pe.ciaoReq.ciaoMemAddr + pe.ciaoReq.actualLen
        len := pe.ciaoReq.len + pe.ciaoReq.actualLen
        actualLen := 0 } }

def finishWrite (pe : Pe) : Option Pe :=
  match pe.creating 7 with
  | none => some pe
  | some burstIdx => (pe.fillBurst burstIdx).map (·.pushBurst 7 burstIdx)

def finish : PeThread → Pe → Option Pe
  | .issueInspectDepthReadReq prIdx, pe => some (pe.finishInspect gl prIdx)
  | .processInspectDepthReadResp prIdx, pe => pe.finishResp prIdx.port (storeInspect prIdx)
  | .frontierAnalysis, pe => some (pe.finishBurst 4)
  | .processExpandRpaoReadResp, pe => pe.finishResp 4 storeRpao
  | .issueExpandCiaoReadReq, pe => some pe.finishCiao
  | .processExpandCiaoReadResp, pe => pe.finishResp 5 storeCiao
  | .issueExpandDepthReadReq, pe => some (pe.finishBurst 6)
  | .processExpandDepthReadResp, pe => pe.finishResp 6 storeDepth
  | .expandDepthAnalysis, pe => pe.finishWrite
  | _, pe => some pe

/-- An iteration of `issueExpandCiaoReadReq`: of its inner loop while the row is not asked
for, else of the outer one. -/
def iterateCiao (pe : Pe) : Option ((Pe × Nat) × Bool) :=
  if pe.ciaoReq.len < pe.ciaoReq.maxLen then pe.ciaoChunk.map (waits 1)
  else
    match pe.rpaoBuffer with
    | srcIdx :: dstIdx :: rest => some (again { pe with
        rpaoBuffer := rest
        ciaoReq := {
          ciaoMemAddr := gl.ciaoMemAddr + srcIdx * 4
          maxLen := (4 * (dstIdx - srcIdx)).toNat } })
    | _ => some (waits 1 pe)

def iterateExpand (pe : Pe) : Option ((Pe × Nat) × Bool) :=
  match pe.depthBuffer1 with
  | [] => some (waits 1 pe)
  | d :: rest =>
      if pe.depthBuffer2.length ≤ Gl.depthBufferDepth then
        match pe.vidxBuffer with
        | [] => none
        | vidx :: vidxs =>
            let pe := { pe with depthBuffer1 := rest, vidxBuffer := vidxs }
            if d = -1 then
              (createBurst .write 7 (gl.depthMemAddr + vidx) 1 { pe with
                depthBuffer2 := pe.depthBuffer2 ++ [pe.level + 1] }).map (waits 1)
            else some (again pe)
      else some (waits 1 pe)

def iterateWriteResp (pe : Pe) : Option ((Pe × Nat) × Bool) :=
  match pe.burstRespQueue 7 with
  | [] => some (waits 1 pe)
  | burstIdx :: rest => some (again { pe with
      burstOpStatus := pe.burstOpStatus.erase burstIdx
      burstRespQueue := Function.update pe.burstRespQueue 7 rest
      counted := pe.burstIdx_eq })

def iterate : PeThread → Pe → Option ((Pe × Nat) × Bool)
  | .sendMemReq, pe => some (waits 1 pe.sendMemReq)
  | .getMemResp, pe => some (waits 1 pe.getMemResp)
  | .issueInspectDepthReadReq prIdx, pe => (pe.inspectDepthReqLoop gl prIdx).map (waits 1)
  | .processInspectDepthReadResp prIdx, pe => (pe.awaitResp prIdx.port 1).map (·, false)
  | .inspectDepthAnalysis, pe => (pe.inspectDepthAnalysis gl).map (·, false)
  | .frontierAnalysis, pe => (pe.frontierLoop gl).map (waits 1)
  | .processExpandRpaoReadResp, pe => (pe.awaitResp 4 4).map (·, false)
  | .issueExpandCiaoReadReq, pe => pe.iterateCiao gl
  | .processExpandCiaoReadResp, pe => (pe.awaitResp 5 4).map (·, false)
  | .issueExpandDepthReadReq, pe => (pe.depthLoop gl).map (waits 1)
  | .processExpandDepthReadResp, pe => (pe.awaitResp 6 1).map (·, false)
  | .expandDepthAnalysis, pe => pe.iterateExpand gl
  | .processExpandDepthWriteResp, pe => pe.iterateWriteResp
  | .bfsController, pe => some (waits 1 pe.bfsController)

/-- The iterations up to the next `wait`, with the time it takes. -/
def iterations (thread : PeThread) (rounds : Nat) (pe : Pe) : Option (Pe × Nat) :=
  doWhile (fun state => iterate gl thread state.1) rounds (pe, 0)

end Definitions

def backlog : PeThread → Pe → Nat
  | .issueExpandCiaoReadReq, pe => pe.rpaoBuffer.length / 2
  | .expandDepthAnalysis, pe => pe.depthBuffer1.length
  | .processExpandDepthWriteResp, pe => (pe.burstRespQueue 7).length
  | _, _ => 0

variable {gl : Gl} {pe after : Pe} {delay : Nat} {thread : PeThread} {i : Port}

/-! ### A segment is its iterations -/

theorem waits_bind (ran : Option Pe) :
    (do return (← ran, 1) : Option (Pe × Nat)) = ran.map (·, 1) := by
  cases ran <;> rfl

theorem inspectDepthReqThread_finish (prIdx : Part) : pe.inspectDepthReqThread gl prIdx =
    ((pe.finishInspect gl prIdx).inspectDepthReqLoop gl prIdx).map (·, 1) := by
  cases creating : pe.creating prIdx.port <;>
    simp only [inspectDepthReqThread, finishInspect, creating] <;> exact waits_bind _

theorem frontierAnalysis_finish :
    pe.frontierAnalysis gl = ((pe.finishBurst 4).frontierLoop gl).map (·, 1) := by
  cases creating : pe.creating 4 <;>
    simp only [frontierAnalysis, finishBurst, creating] <;> exact waits_bind _

theorem issueExpandCiaoReadReq_finish :
    pe.issueExpandCiaoReadReq gl = (pe.finishCiao.ciaoLoop gl).map (·, 1) := by
  cases creating : pe.creating 5 <;>
    simp only [issueExpandCiaoReadReq, finishCiao, creating] <;> exact waits_bind _

theorem issueExpandDepthReadReq_finish :
    pe.issueExpandDepthReadReq gl = ((pe.finishBurst 6).depthLoop gl).map (·, 1) := by
  cases creating : pe.creating 6 <;>
    simp only [issueExpandDepthReadReq, finishBurst, creating] <;> exact waits_bind _

theorem expandDepthAnalysis_finish : pe.expandDepthAnalysis gl =
    pe.finishWrite.bind fun mid => (mid.expandLoop gl mid.depthBuffer1).map (·, 1) := by
  cases creating : pe.creating 7 with
  | none =>
      simp only [expandDepthAnalysis, finishWrite, creating, Option.bind_some]
      exact waits_bind _
  | some burstIdx =>
      simp only [expandDepthAnalysis, finishWrite, creating]
      cases pe.fillBurst burstIdx with
      | none => rfl
      | some filled => exact waits_bind _

theorem respThread_finish {size : Nat} {store : BurstOp → Pe → Option Pe} :
    pe.respThread i size store = (pe.finishResp i store).bind (·.awaitResp i size) := by
  cases transfer : pe.transfer i with
  | none => simp only [respThread, finishResp, transfer, Option.bind_some]
  | some burstIdx =>
      simp only [respThread, finishResp, transfer]
      cases pe.bursts[burstIdx]? <;> rfl

theorem iterations_once (ran : iterate gl thread pe = some ((after, delay), false)) (rounds : Nat)
    (enough : 0 < rounds) : iterations gl thread rounds pe = some (after, delay) := by
  obtain ⟨more, rfl⟩ := Nat.exists_eq_succ_of_ne_zero (Nat.ne_of_gt enough)
  simp [iterations, doWhile, ran]

/-- What an iteration of a segment leads to: the rest of the segment with fewer items, or
its end. -/
structure Shortens (gl : Gl) (thread : PeThread) (segment : Pe → Option Pe) (pe after : Pe)
    (next : Pe × Nat) (more : Bool) : Prop where
  ran : iterate gl thread pe = some (next, more)
  continues : more = true → segment next.1 = some after ∧ backlog thread next.1 < backlog thread pe
  stops : more = false → next = (after, 1)

namespace Shortens

variable {segment : Pe → Option Pe} {next : Pe × Nat}

theorem last (ran : iterate gl thread pe = some ((after, 1), false)) :
    Shortens gl thread segment pe after (after, 1) false where
  ran
  continues more := by simp at more
  stops _ := rfl

theorem more (ran : iterate gl thread pe = some (next, true)) (rest : segment next.1 = some after)
    (fewer : backlog thread next.1 < backlog thread pe) :
    Shortens gl thread segment pe after next true where
  ran
  continues _ := ⟨rest, fewer⟩
  stops ends := by simp at ends

end Shortens

theorem iterations_of_shortens {segment : Pe → Option Pe}
    (shortens : ∀ pe, segment pe = some after →
      ∃ next more, Shortens gl thread segment pe after next more)
    (ran : segment pe = some after) (rounds : Nat) (enough : backlog thread pe < rounds) :
    iterations gl thread rounds pe = some (after, 1) := by
  obtain ⟨final, finished, rfl⟩ := doWhile_measure
    (fun state : Pe × Nat => backlog thread state.1) (fun state => segment state.1 = some after)
    (· = (after, 1)) (show segment (pe, 0).1 = some after from ran) fun state ran => by
      obtain ⟨next, more, shorter⟩ := shortens state.1 ran
      exact ⟨next, more, shorter.ran, shorter.continues, shorter.stops⟩
  exact finished rounds enough

theorem ciaoLoop_shortens (ran : pe.ciaoLoop gl = some after) :
    ∃ next more, Shortens gl .issueExpandCiaoReadReq (ciaoLoop gl) pe after next more := by
  rw [ciaoLoop] at ran
  by_cases inside : pe.ciaoReq.len < pe.ciaoReq.maxLen
  · rw [if_pos inside] at ran
    refine ⟨_, _, .last ?_⟩
    rw [iterate, iterateCiao, if_pos inside, ran]
    rfl
  · rw [if_neg inside] at ran
    have ends : ciaoRows gl pe pe.rpaoBuffer = some pe →
        iterateCiao gl pe = some (waits 1 pe) → ∃ next more,
          Shortens gl .issueExpandCiaoReadReq (ciaoLoop gl) pe after next more := by
      intro same ended
      rw [same] at ran
      obtain rfl := Option.some.inj ran
      exact ⟨_, _, .last ended⟩
    rcases buffer : pe.rpaoBuffer with _ | ⟨srcIdx, _ | ⟨dstIdx, rest⟩⟩
    · exact ends (by rw [buffer, ciaoRows]; simp) (by rw [iterateCiao, if_neg inside, buffer])
    · exact ends (by rw [buffer, ciaoRows]; simp) (by rw [iterateCiao, if_neg inside, buffer])
    · rw [buffer, ciaoRows] at ran
      refine ⟨(pe.takenRow gl srcIdx dstIdx rest, 0), _, .more ?_ ran ?_⟩
      · rw [iterate, iterateCiao, if_neg inside, buffer]
        rfl
      · simp only [backlog, takenRow, buffer, List.length_cons]
        omega

theorem expandLoop_shortens (ran : pe.expandLoop gl pe.depthBuffer1 = some after) :
    ∃ next more, Shortens gl .expandDepthAnalysis (fun pe => pe.expandLoop gl pe.depthBuffer1)
      pe after next more := by
  cases buffer : pe.depthBuffer1 with
  | nil =>
      rw [buffer] at ran
      obtain rfl := Option.some.inj ran
      exact ⟨_, _, .last (by rw [iterate, iterateExpand, buffer]; rfl)⟩
  | cons d rest =>
      rw [buffer, expandLoop] at ran
      by_cases room : pe.depthBuffer2.length ≤ Gl.depthBufferDepth
      · rw [if_pos room] at ran
        cases vertices : pe.vidxBuffer with
        | nil => simp [vertices] at ran
        | cons vidx vidxs =>
            simp only [vertices] at ran
            by_cases fresh : d = -1
            · rw [if_pos fresh] at ran
              refine ⟨_, _, .last ?_⟩
              simp only [iterate, iterateExpand, buffer, if_pos room, vertices, if_pos fresh, ran]
              rfl
            · rw [if_neg fresh] at ran
              refine ⟨({ pe with depthBuffer1 := rest, vidxBuffer := vidxs }, 0), _,
                .more ?_ ran ?_⟩
              · simp only [iterate, iterateExpand, buffer, if_pos room, vertices, if_neg fresh]
                rfl
              · simp [backlog, buffer]
      · rw [if_neg room] at ran
        obtain rfl := Option.some.inj ran
        refine ⟨_, _, .last ?_⟩
        simp only [iterate, iterateExpand, buffer, if_neg room]
        rfl

def dropWrites (pe : Pe) : Pe :=
  { pe with
    burstOpStatus := (pe.burstRespQueue 7).foldl List.erase pe.burstOpStatus
    burstRespQueue := Function.update pe.burstRespQueue 7 []
    counted := pe.burstIdx_eq }

theorem dropWrites_shortens (ran : some pe.dropWrites = some after) :
    ∃ next more, Shortens gl .processExpandDepthWriteResp (fun pe => some pe.dropWrites)
      pe after next more := by
  obtain rfl := Option.some.inj ran
  cases queue : pe.burstRespQueue 7 with
  | nil =>
      have same : pe.dropWrites = pe := by
        have queues : Function.update pe.burstRespQueue 7 [] = pe.burstRespQueue := by
          rw [← queue, Function.update_eq_self]
        rw [dropWrites, queue, queues, List.foldl_nil]
      rw [same]
      exact ⟨_, _, .last (by rw [iterate, iterateWriteResp, queue]; rfl)⟩
  | cons burstIdx rest =>
      refine ⟨_, _, .more (by rw [iterate, iterateWriteResp, queue]; rfl) ?_ ?_⟩
      · simp [dropWrites, queue]
      · simp [backlog, queue]

theorem finishWrite_depthBuffer1 (finished : pe.finishWrite = some after) :
    after.depthBuffer1 = pe.depthBuffer1 := by
  rw [finishWrite] at finished
  split at finished
  · rw [Option.some.inj finished]
  · simp only [fillBurst, Option.bind_eq_bind, Option.map_eq_some_iff,
      Option.bind_eq_some_iff] at finished
    obtain ⟨filled, ⟨op, _, byte, _, same⟩, rfl⟩ := finished
    rw [← Option.some.inj same]
    rfl

theorem requests {segment : Option Pe} (ran : segment.map (·, 1) = some (after, delay))
    (iterates : iterate gl thread pe = segment.map (waits 1)) :
    ∀ rounds, 0 < rounds → iterations gl thread rounds pe = some (after, delay) := by
  obtain ⟨looped, found, same⟩ := Option.map_eq_some_iff.mp ran
  cases same
  exact iterations_once (by rw [iterates, found]; rfl)

theorem responds {size : Nat} {store : BurstOp → Pe → Option Pe}
    (ran : pe.respThread i size store = some (after, delay))
    (iterates : ∀ mid, iterate gl thread mid = (awaitResp i size mid).map (·, false)) :
    ∃ mid, pe.finishResp i store = some mid ∧ ∀ rounds, 0 < rounds →
      iterations gl thread rounds mid = some (after, delay) := by
  rw [respThread_finish, Option.bind_eq_some_iff] at ran
  obtain ⟨mid, finished, awaited⟩ := ran
  exact ⟨mid, finished, iterations_once (by rw [iterates, awaited]; rfl)⟩

/-- The segment of a thread is the end of one iteration and the following ones. -/
theorem resume_iterations (timed : thread ≠ .bfsController)
    (ran : pe.resume gl thread = some (after, delay)) :
    ∃ mid, finish gl thread pe = some mid ∧ ∀ rounds, backlog thread pe < rounds →
      iterations gl thread rounds mid = some (after, delay) := by
  cases thread with
  | sendMemReq | getMemResp =>
      cases ran
      exact ⟨pe, rfl, iterations_once rfl⟩
  | inspectDepthAnalysis =>
      rw [resume] at ran
      exact ⟨pe, rfl, iterations_once (by rw [iterate, ran]; rfl)⟩
  | issueInspectDepthReadReq prIdx =>
      rw [resume, inspectDepthReqThread_finish] at ran
      exact ⟨_, rfl, requests ran rfl⟩
  | frontierAnalysis =>
      rw [resume, frontierAnalysis_finish] at ran
      exact ⟨_, rfl, requests ran rfl⟩
  | issueExpandDepthReadReq =>
      rw [resume, issueExpandDepthReadReq_finish] at ran
      exact ⟨_, rfl, requests ran rfl⟩
  | processInspectDepthReadResp prIdx => exact responds ran fun _ => rfl
  | processExpandRpaoReadResp => exact responds ran fun _ => rfl
  | processExpandCiaoReadResp => exact responds ran fun _ => rfl
  | processExpandDepthReadResp => exact responds ran fun _ => rfl
  | issueExpandCiaoReadReq =>
      rw [resume, issueExpandCiaoReadReq_finish, Option.map_eq_some_iff] at ran
      obtain ⟨looped, ran, same⟩ := ran
      cases same
      have buffer : pe.finishCiao.rpaoBuffer = pe.rpaoBuffer := by
        rw [finishCiao]
        split <;> rfl
      refine ⟨_, rfl, fun rounds enough => ?_⟩
      exact iterations_of_shortens (fun _ => ciaoLoop_shortens) ran rounds
        (by rw [backlog, buffer]; exact enough)
  | expandDepthAnalysis =>
      rw [resume, expandDepthAnalysis_finish, Option.bind_eq_some_iff] at ran
      obtain ⟨mid, finished, ran⟩ := ran
      rw [Option.map_eq_some_iff] at ran
      obtain ⟨looped, ran, same⟩ := ran
      cases same
      have buffer : mid.depthBuffer1 = pe.depthBuffer1 := finishWrite_depthBuffer1 finished
      refine ⟨mid, finished, fun rounds enough => ?_⟩
      exact iterations_of_shortens (fun _ => expandLoop_shortens) ran rounds
        (by rw [backlog, buffer]; exact enough)
  | processExpandDepthWriteResp =>
      cases ran
      exact ⟨pe, rfl, iterations_of_shortens (fun _ => dropWrites_shortens) rfl⟩
  | bfsController => exact absurd rfl timed

/-! ### Responses have their data -/

def Filled (pe : Pe) : Prop :=
  ∀ j, j ≠ 7 → ∀ op ∈ (pe.line j).responded, op.data.length = op.length

theorem QueueStep.responded (stepped : QueueStep pe thread after) (indexed : pe.Indexed) {j : Port}
    (reading : j ≠ 7) : (after.line j).responded ⊆ (pe.line j).responded := by
  cases stepped with
  | kept same => rw [same]; exact List.Subset.refl _
  | sent => rw [sendMemReq_line]; exact List.Subset.refl _
  | read => rw [getMemResp_line]; exact List.Subset.refl _
  | @asked _ mid _ i type port pushes mayAsk _ =>
      obtain ⟨indexed', lines⟩ := pushes.lines indexed
      have apart : j ≠ i ∨ i ≠ 7 := by
        by_cases here : j = i
        · exact .inr (here ▸ reading)
        · exact .inl here
      rw [← (lines j apart).responded]
      cases mayAsk with
      | nothing same => rw [same]; exact List.Subset.refl _
      | asked _ port _ same =>
          obtain ⟨_, others, responded, _⟩ := created_lines indexed' pushes.free port
          rw [same]
          by_cases here : j = i
          · subst here
            rw [responded]; exact List.Subset.refl _
          · rw [others j here]; exact List.Subset.refl _
  | polled _ _ awaited => rw [awaited.line_eq]; exact List.Subset.refl _
  | @stored _ mid _ i burstIdx _ _ _ _ transfer present same awaited =>
      obtain ⟨_, others, responded, _⟩ := popped_lines indexed transfer present
      rw [awaited.line_eq, same]
      by_cases here : j = i
      · subst here
        rw [responded]
        exact List.subset_cons_self _ _
      · rw [others j here]; exact List.Subset.refl _
  | dropped =>
      simp only [BurstQueues.line, Function.update_of_ne reading]
      exact List.Subset.refl _

namespace Filled

theorem resume (filled : Filled pe) (consistent : pe.Consistent) (timed : thread ≠ .bfsController)
    (ran : pe.resume gl thread = some (after, delay)) : Filled after := fun j reading op member =>
  filled j reading op ((resume_queueStep timed ran).responded consistent.indexed reading member)

theorem answer (filled : Filled pe) (consistent : pe.Consistent) (reading : pe.Reading)
    (ran : pe.answer i = some after) : Filled after := by
  intro j reads op member
  by_cases here : j = i
  · subst here
    obtain ⟨_, asked, bytes, _, _, _, _, responded, copied⟩ :=
      reading.answer_read consistent reads ran
    rw [responded] at member
    rcases List.mem_append.mp member with earlier | last
    · exact filled j reads op earlier
    · obtain rfl := List.mem_singleton.mp last
      simpa using (mapM_forall₂ copied).length_eq.symm
  · rw [(answer_lines consistent ran).2.1 j here] at member
    exact filled j reads op member

theorem step {before after : Timed TimedThread Pe} (filled : Filled before.state)
    (consistent : before.state.Consistent) (reading : before.state.Reading)
    (stepped : Cycle gl before after) : Filled after.state := by
  cases stepped with
  | @resume _ _ _ _ thread _ _ _ ran => exact filled.resume consistent thread.property ran
  | interfere answered =>
      obtain ⟨i, answered⟩ := answered
      exact filled.answer consistent reading answered
  | @advance _ _ pe _ =>
      show Filled pe.bfsController
      obtain ⟨_, _, _, same⟩ := bfsController_eq pe
      rw [same]
      exact filled

end Filled

/-! ### Waits take time -/

theorem Awaits.positive {size : Nat} (awaits : Awaits i size pe after delay) (sized : Sized after)
    (element : elementSize i = size) : 0 < delay := by
  cases awaits with
  | nothing _ => exact Nat.one_pos
  | @response burstIdx _ op queue present =>
      obtain ⟨op', present', port⟩ := sized.consistent.indexed.port i burstIdx (by
        simp [BurstQueues.flight, BurstQueues.pushed, queue])
      obtain rfl := Option.some.inj (present.symm.trans present')
      obtain ⟨some, multiple⟩ := sized.bursts op (List.mem_of_getElem? present)
      rw [port, element] at multiple
      exact Nat.div_pos (Nat.le_of_dvd some multiple) (Nat.pos_of_dvd_of_pos multiple some)

theorem Responds.positive {size : Nat} {store : BurstOp → Pe → Option Pe}
    (responds : Responds i size store pe after delay) (sized : Sized after)
    (element : elementSize i = size) : 0 < delay := by
  cases responds with
  | polled _ awaits | stored _ _ _ awaits => exact awaits.positive sized element

theorem Sized.positive (sized : Sized pe) (timed : thread ≠ .bfsController)
    (ran : pe.resume gl thread = some (after, delay)) : 0 < delay := by
  have later := sized.resume timed ran
  cases transfers : thread.transfers with
  | false =>
      rw [resume_unit transfers ran]
      exact Nat.one_pos
  | true =>
      cases thread with
      | processInspectDepthReadResp prIdx =>
          exact (respThread_cases ran).positive later (elementSize_part prIdx)
      | processExpandRpaoReadResp => exact (respThread_cases ran).positive later rfl
      | processExpandCiaoReadResp => exact (respThread_cases ran).positive later rfl
      | processExpandDepthReadResp => exact (respThread_cases ran).positive later rfl
      | _ => cases transfers

/-! ### Runs -/

/-- A step in which a thread may also wait for no time. -/
abbrev FreeCycle (gl : Gl) : Timed TimedThread Pe → Timed TimedThread Pe → Prop :=
  FreeStep (fun thread _ before after delay => before.resume gl thread.val = some (after, delay))
    (fun _ before after => ∃ i, before.answer i = some after) bfsController

theorem FreeCycle.interleaved {ramData : List Byte} {final : Timed TimedThread Pe}
    (free : Relation.ReflTransGen (FreeCycle gl) (start gl ramData) final) :
    Relation.ReflTransGen (Interleaved gl anyOrder) (reset gl ramData) final.state := by
  have control : ∀ pe : Pe, Interleaved gl anyOrder pe pe.bfsController := fun pe =>
    @Interleaved.resume gl anyOrder pe _ .bfsController 1 rfl trivial
  refine .head (control _) (free.lift Timed.state fun before after stepped => ?_)
  cases stepped with
  | resume _ ran => exact .resume ran trivial
  | interfere answered =>
      obtain ⟨i, answered⟩ := answered
      exact .answer answered
  | advance _ => exact control _

theorem sized_run {ramData : List Byte} {final : Timed TimedThread Pe}
    (free : Relation.ReflTransGen (FreeCycle gl) (start gl ramData) final) : Sized final.state :=
  invariant_of_step Sized (FreeCycle.interleaved free) (sized_reset gl ramData)
    fun _ _ sized stepped => sized.step stepped

/-- Every wait takes time, so nothing is lost when `Cycle` demands it. -/
theorem FreeCycle.run {ramData : List Byte} {final : Timed TimedThread Pe}
    (free : Relation.ReflTransGen (FreeCycle gl) (start gl ramData) final) :
    Relation.ReflTransGen (Cycle gl) (start gl ramData) final :=
  FreeStep.run (fun {_ _ _ thread _ _} earlier ran =>
    (sized_run (Step.free_run earlier)).positive thread.property ran) free

end Pe

section Runs

open LevelPass Bfs

variable {isUgraph : Bool} {edges : List (Nat × Nat)} {data : List (List Int)} {g : Graph}
variable {ram0 ramData : List Byte} {startIdx : Nat} {final : Timed TimedThread Pe}

theorem filled_run (built : g.BuiltFrom isUgraph edges)
    (outgoing : outCount g.vertices ≤ g.edgeNum) (initialized : ramInit g = some ram0)
    (arrays : ∀ addr, g.vertexNum ≤ addr → ramData[addr]? = ram0[addr]?)
    (run : Relation.ReflTransGen (Pe.Cycle (Gl.layout g)) (Pe.start (Gl.layout g) ramData) final) :
    final.state.Filled := by
  induction run with
  | refl =>
      show (Pe.reset (Gl.layout g) ramData).bfsController.Filled
      obtain ⟨_, _, _, same⟩ := Pe.bfsController_eq (Pe.reset (Gl.layout g) ramData)
      rw [same]
      exact fun _ _ _ member => absurd member List.not_mem_nil
  | tail earlier stepped inductionHypothesis =>
      have bounded := bounded_run built outgoing initialized arrays earlier
      obtain ⟨h, holds⟩ := bounded.holds
      exact inductionHypothesis.step bounded.onTime.consistent holds.reading stepped

theorem ready_run (built : g.BuiltFrom isUgraph edges)
    (outgoing : outCount g.vertices ≤ g.edgeNum) (initialized : ramInit g = some ram0)
    (arrays : ∀ addr, g.vertexNum ≤ addr → ramData[addr]? = ram0[addr]?)
    (run : Relation.ReflTransGen (Pe.Cycle (Gl.layout g)) (Pe.start (Gl.layout g) ramData) final) :
    final.state.Ready := by
  have bounded := bounded_run built outgoing initialized arrays run
  obtain ⟨h, holds⟩ := bounded.holds
  obtain ⟨_, _, _, _, _, _, _, vertex, column⟩ := holds.expansion
  obtain ⟨read, asked, popped, depth⟩ := holds.depths
  have consistent := bounded.onTime.consistent
  have sized := Pe.sized_run (Step.free_run run)
  exact {
    indexed := consistent.indexed
    frontierBuffer := natural_of_map vertex.stage.buffer
    rpaoBuffer := vertex.stage.natural
    row := column.stage.natural
    outside := consistent.ciao
    ciaoBuffer := natural_of_map column.stage.buffer
    vidxBuffer := natural_of_map depth.vidxBuffer
    depths := by
      have vertices := congrArg List.length depth.vidxBuffer
      have depths := depth.depths
      simp only [List.length_map, List.length_append] at vertices
      omega
    write := (Pe.leaves_run run).write
    transfer := by
      intro i reading burstIdx op transfer present
      have queued := List.mem_of_mem_head? (consistent.indexed.transfer i burstIdx transfer)
      have member : op ∈ (final.state.line i).responded :=
        List.mem_filterMap.mpr ⟨burstIdx, List.mem_append_left _ queued, present⟩
      refine ⟨filled_run built outgoing initialized arrays run i reading op member, fun ints => ?_⟩
      have multiple := (sized.copied i burstIdx op transfer present).1
      rw [Pe.elementSize, if_pos ints] at multiple
      exact Nat.mod_eq_zero_of_dvd multiple }

/-- In every run on a loaded graph every thread gets from its `wait` to the next one, which
takes time.  The number of its iterations is bounded by the items that it takes without
waiting. -/
theorem threads_wait (loaded : loadGraph isUgraph data = some g)
    (initialized : ramInit g = some ram0) (vertex : startIdx < g.vertexNum)
    (started : setNewStartVertex (Gl.layout g) startIdx ram0 = some ramData)
    (run : Relation.ReflTransGen (Pe.FreeCycle (Gl.layout g)) (Pe.start (Gl.layout g) ramData) final)
    (thread : TimedThread) :
    ∃ mid after delay, final.state.resume (Gl.layout g) thread.val = some (after, delay) ∧
      0 < delay ∧ Pe.finish (Gl.layout g) thread.val final.state = some mid ∧
      ∀ rounds, Pe.backlog thread.val final.state < rounds →
        Pe.iterations (Gl.layout g) thread.val rounds mid = some (after, delay) := by
  obtain ⟨edges, built, _⟩ := loadGraph_rows loaded
  have paced := Pe.FreeCycle.run run
  have ready := ready_run built (loadGraph_counts loaded).1 initialized
    (arrays_of_started vertex started) paced
  obtain ⟨after, delay, ran⟩ := @Pe.Ready.resume_total (Gl.layout g) _ ready _ thread.property
  obtain ⟨mid, finished, iterated⟩ := Pe.resume_iterations thread.property ran
  exact ⟨mid, after, delay, ran, (Pe.sized_run run).positive thread.property ran, finished, iterated⟩

theorem threads_wait_hub : ∃ final : Timed TimedThread Pe,
    Relation.ReflTransGen (Pe.Cycle (Gl.layout hub)) (Pe.start (Gl.layout hub) hubRam) final ∧
      final.state.creating 5 = some 2 ∧ ∀ thread : TimedThread, ∃ mid after delay,
        final.state.resume (Gl.layout hub) thread.val = some (after, delay) ∧ 0 < delay ∧
        Pe.finish (Gl.layout hub) thread.val final.state = some mid ∧
        ∀ rounds, Pe.backlog thread.val final.state < rounds →
          Pe.iterations (Gl.layout hub) thread.val rounds mid = some (after, delay) := by
  obtain ⟨ram0, initialized, started⟩ := hub_started
  obtain ⟨final, run, _, _, _, creating⟩ := hub_ends
  exact ⟨final, run, creating, fun thread =>
    threads_wait hub_loaded initialized (by decide) started (Step.free_run run) thread⟩

/-! ### Inside the image -/

/-- The regions of `ramInit` end inside the image that it makes room for, and every write
of `ramInit` and `cleanRam` and every burst of the accelerator is inside it.  No thread
comes to an address that does not exist. -/
structure InRange (g : Graph) : Prop where
  regions : ((Gl.layout g).ramEnd : Int) ≤ ramSize g
  initialized : ∃ ram0, ramInit g = some ram0 ∧ (ram0.length : Int) = ramSize g
  runs : ∀ {startIdx : Nat} {ram0 ramData : List Byte} {final : Timed TimedThread Pe},
    ramInit g = some ram0 → startIdx < g.vertexNum →
    setNewStartVertex (Gl.layout g) startIdx ram0 = some ramData →
    Relation.ReflTransGen (Pe.Cycle (Gl.layout g)) (Pe.start (Gl.layout g) ramData) final →
      (∃ cleaned, cleanRam (Gl.layout g) final.state.ramData = some cleaned) ∧
      (∀ op ∈ final.state.bursts, ∀ j < op.length, ((op.addr + j : Nat) : Int) < ramSize g) ∧
      ∀ thread : TimedThread, ∃ after delay,
        final.state.resume (Gl.layout g) thread.val = some (after, delay)

theorem ramEnd_eq (g : Graph) : (Gl.layout g).ramEnd =
    256 * ((g.vertexNum + 255) / 256 + 2 * ((g.vertexNum + 64) / 64) +
      2 * ((g.edgeNum + 63) / 64)) + 4 * g.vertexNum := by
  have aligned : ∀ blocks count,
      alignMyself (256 * blocks + 4 * count) = 256 * (blocks + (count + 63) / 64) := by
    intro blocks count
    rw [alignMyself_eq]
    omega
  simp only [Gl.ramEnd, Gl.layout, alignMyself_eq g.vertexNum, aligned]
  omega

/-- Everything is inside the image exactly when the layout of the vertices and the edges
fits into 16 bytes per edge, and these are fewer than 2 ^ 31. -/
theorem inRange_iff (loaded : loadGraph isUgraph data = some g) (counts : g.edgeNum < 2 ^ 31) :
    InRange g ↔ g.edgeNum < 2 ^ 27 ∧
      256 * ((g.vertexNum + 255) / 256 + 2 * ((g.vertexNum + 64) / 64) +
        2 * ((g.edgeNum + 63) / 64)) + 4 * g.vertexNum ≤ 16 * g.edgeNum := by
  obtain ⟨edges, built, _⟩ := loadGraph_rows loaded
  obtain ⟨outgoing, same⟩ := loadGraph_counts loaded
  have incoming : inCount g.vertices ≤ g.edgeNum := same ▸ outgoing
  rw [← ramEnd_eq]
  constructor
  · intro inRange
    obtain ⟨size, equal⟩ := ramSize_of_fits counts inRange.regions
    have := inRange.regions
    omega
  · rintro ⟨small, fits⟩
    have size : ramSize g = (g.edgeNum * 4 * 4 : Nat) := by
      rw [ramSize_eq]
      split <;> omega
    obtain ⟨image, filled, length, _⟩ := ramInit_total built.vertices_length outgoing incoming
      (by omega) (by omega)
    refine ⟨by omega, ⟨image, filled, by omega⟩, ?_⟩
    intro startIdx ram0 ramData final initialized start started run
    obtain rfl := Option.some.inj (initialized.symm.trans filled)
    have bounded := bounded_run built outgoing initialized (arrays_of_started start started) run
    obtain ⟨h, holds⟩ := bounded.holds
    refine ⟨⟨_, cleanRam_eq built.vertices_length outgoing incoming initialized fun addr behind =>
      (holds.arrays addr behind).trans (Pairing.levelled_behind behind)⟩,
      fun op membership j bound => ?_, fun thread =>
        (ready_run built outgoing initialized (arrays_of_started start started)
          run).resume_total thread.property⟩
    have inside := bounded.bursts op membership j bound
    have behind := (ramInit_spec built.vertices_length outgoing initialized).1.vertexNum_lt
    rw [Pairing.levelled_length (Nat.le_of_lt behind)] at inside
    omega

theorem inRange_hub : InRange hub :=
  (inRange_iff hub_loaded (by decide)).mpr ⟨by decide, by decide⟩

/-- A single edge has 16 bytes. -/
theorem not_inRange : ¬ ∀ (isUgraph : Bool) (data : List (List Int)) (g : Graph),
    loadGraph isUgraph data = some g → g.edgeNum < 2 ^ 31 → InRange g := by
  intro holds
  obtain ⟨g, loaded, vertexNum, edgeNum⟩ := @loadGraph_total [(0, 1)] 1 (by simp) (by decide) (0, 1)
    (by simp) rfl
  have regions := (holds false _ g loaded (by rw [edgeNum]; decide)).regions
  rw [ramEnd_eq, ramSize_eq, vertexNum, edgeNum] at regions
  revert regions
  decide

end Runs

end GraphAccelerator
