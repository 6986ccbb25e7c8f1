import GraphAccelerator.Library.Queue
import GraphAccelerator.Accelerator.Pipeline

/-!
# The threads refine the pipeline

The queues of `pe` hold numbers of bursts.  As long as every burst is in one queue
only, a queue stands for the bursts themselves, and what a thread does from one
`wait` to the next is a sequence of steps of the pipeline.
-/

namespace GraphAccelerator

open Memory Store Pipeline BurstQueues

namespace BurstQueues

variable {queues : BurstQueues}

def pushed (queues : BurstQueues) (i : Port) : List Nat :=
  queues.burstRespQueue i ++ queues.answered i ++ (queues.sent i ++ queues.burstReqQueue i)

def flight (queues : BurstQueues) (i : Port) : List Nat :=
  queues.pushed i ++ (queues.creating i).toList

/-- Every burst in flight is on its own port, in the order of the numbers. -/
structure Indexed (queues : BurstQueues) : Prop where
  port : ∀ i, ∀ burstIdx ∈ queues.flight i,
    ∃ op, queues.bursts[burstIdx]? = some op ∧ op.portIdx = i
  sorted : ∀ i, (queues.flight i).Pairwise (· < ·)
  transfer : ∀ i burstIdx, queues.transfer i = some burstIdx →
    (queues.burstRespQueue i).head? = some burstIdx
  writes : queues.transfer 7 = none
  status : ∀ i, ∀ burstIdx ∈ queues.pushed i, burstIdx ∈ queues.burstOpStatus

def line (queues : BurstQueues) (i : Port) : Line where
  responded := deref queues.bursts (queues.burstRespQueue i ++ queues.answered i)
  waiting := deref queues.bursts (queues.sent i ++ queues.burstReqQueue i)
  asked := (queues.creating i).bind (queues.bursts[·]?)

namespace Indexed

theorem bound (indexed : queues.Indexed) {i : Port} {burstIdx : Nat}
    (membership : burstIdx ∈ queues.flight i) : burstIdx < queues.bursts.length := by
  obtain ⟨op, present, _⟩ := indexed.port i burstIdx membership
  exact (List.getElem?_eq_some_iff.mp present).1

theorem nodup (indexed : queues.Indexed) (i : Port) : (queues.flight i).Nodup :=
  (indexed.sorted i).imp Nat.ne_of_lt

theorem apart (indexed : queues.Indexed) {i j : Port} {burstIdx : Nat}
    (left : burstIdx ∈ queues.flight i) (right : burstIdx ∈ queues.flight j) : i = j := by
  obtain ⟨op, present, rfl⟩ := indexed.port i burstIdx left
  obtain ⟨op', present', rfl⟩ := indexed.port j burstIdx right
  rw [present] at present'
  exact congrArg BurstOp.portIdx (Option.some.inj present')

theorem transfer_none (indexed : queues.Indexed) {i : Port}
    (empty : queues.burstRespQueue i = []) : queues.transfer i = none := by
  cases transfer : queues.transfer i with
  | none => rfl
  | some burstIdx =>
      have head := indexed.transfer i burstIdx transfer
      rw [empty] at head
      cases head

end Indexed

end BurstQueues

namespace Pe

variable {gl : Gl} {pe after : Pe}

def inspectSpan (gl : Gl) (inspectReq : Part → InspectReq) (i : Part) : Span :=
  let r := inspectReq i
  ⟨r.depthMemAddr + r.actualLen, gl.maxLen i - (r.currentLen + r.actualLen)⟩

def pipeline (gl : Gl) (pe : Pe) : Pipeline where
  ramData := pe.ramData
  frontierSize := pe.frontierSize
  depthBuffer0 := pe.depthBuffer0
  depthBuffer1 := pe.depthBuffer1
  depthBuffer2 := pe.depthBuffer2
  frontierBuffer := pe.frontierBuffer
  rpaoBuffer := pe.rpaoBuffer
  ciaoBuffer := pe.ciaoBuffer
  vidxBuffer := pe.vidxBuffer
  idx := pe.idx
  span := inspectSpan gl pe.inspectReq
  row := ⟨pe.ciaoReq.ciaoMemAddr + pe.ciaoReq.actualLen,
    pe.ciaoReq.maxLen - (pe.ciaoReq.len + pe.ciaoReq.actualLen)⟩
  lines := pe.line

/-- Outside `createReadBurstReq` no part of an array is being asked for. -/
structure Consistent (pe : Pe) : Prop where
  indexed : pe.Indexed
  inspect : ∀ i : Part, pe.creating i.port = none → (pe.inspectReq i).actualLen = 0
  ciao : pe.creating 5 = none → pe.ciaoReq.actualLen = 0

/-- A segment of a thread is a sequence of steps. -/
structure Refines (gl : Gl) (pe after : Pe) : Prop where
  consistent : after.Consistent
  steps : Relation.ReflTransGen (Step gl pe.level pe.bfsIterationStart) (pe.pipeline gl)
    (after.pipeline gl)
  level : after.level = pe.level
  start : after.bfsIterationStart = pe.bfsIterationStart

theorem Refines.refl (consistent : pe.Consistent) : Refines gl pe pe :=
  ⟨consistent, .refl, rfl, rfl⟩

theorem Refines.trans {between : Pe} (first : Refines gl pe between)
    (second : Refines gl between after) : Refines gl pe after where
  consistent := second.consistent
  steps := first.steps.trans (first.level ▸ first.start ▸ second.steps)
  level := second.level.trans first.level
  start := second.start.trans first.start

theorem update_congr {i : Port} {lines lines' : Port → Line}
    (others : ∀ j, j ≠ i → lines j = lines' j) (line : Line) :
    Function.update lines i line = Function.update lines' i line := by
  funext j
  by_cases here : j = i
  · subst here
    simp
  · simp only [Function.update_of_ne here, others j here]

/-- Nothing but the bursts of one port changes. -/
theorem pipeline_setLine (i : Port) (others : ∀ j, j ≠ i → after.line j = pe.line j)
    (same : { after.pipeline gl with lines := pe.line } = pe.pipeline gl) :
    after.pipeline gl = (pe.pipeline gl).setLine i (after.line i) := by
  have lines : after.line = Function.update pe.line i (after.line i) := by
    funext j
    by_cases here : j = i
    · subst here
      simp
    · rw [Function.update_of_ne here, others j here]
  rw [← same]
  simp only [setLine, ← lines]
  rfl

section Create

variable {type : RequestType} {i : Port} {addr : Int} {length : Nat}

theorem createBurst_eq (created : createBurst type i addr length pe = some after) :
    ∃ op, Asks op type addr length ∧ op.portIdx = i ∧ after = { pe with
      burstIdx := pe.burstIdx + 1
      bursts := pe.bursts ++ [op]
      creating := Function.update pe.creating i (some pe.bursts.length)
      counted := by simp [pe.counted] } := by
  simp only [createBurst, Option.bind_eq_bind, Option.bind_eq_some_iff] at created
  obtain ⟨start, natural, created⟩ := created
  obtain rfl := Option.some.inj created
  refine ⟨{ type, portIdx := i, burstIdx := pe.getBurstIdx, peIdx := 0, addr := start, length },
    ⟨rfl, (Int.mem_toNat?.mp natural).symm, rfl, rfl⟩, rfl, ?_⟩
  simp only [pe.getBurstIdx_eq]

theorem create_pipeline (indexed : pe.Indexed) (free : pe.creating i = none) {op : BurstOp}
    (port : op.portIdx = i) :
    let created := { pe with
      burstIdx := pe.burstIdx + 1
      bursts := pe.bursts ++ [op]
      creating := Function.update pe.creating i (some pe.bursts.length)
      counted := by simp [pe.counted] }
    created.Indexed ∧ created.pipeline gl = (pe.pipeline gl).ask i op := by
  intro created
  have flights : ∀ j, created.flight j =
      pe.flight j ++ if j = i then [pe.bursts.length] else [] := by
    intro j
    by_cases here : j = i
    · subst here
      simp [created, flight, pushed, free]
    · simp [created, flight, pushed, here]
  refine ⟨⟨?_, ?_, indexed.transfer, indexed.writes, indexed.status⟩, ?_⟩
  · intro j burstIdx membership
    rw [flights, List.mem_append] at membership
    rcases membership with old | new
    · obtain ⟨op', present, port'⟩ := indexed.port j burstIdx old
      exact ⟨op', by rw [List.getElem?_append_left (indexed.bound old)]; exact present, port'⟩
    · split at new
      · rename_i here
        obtain rfl := List.mem_singleton.mp new
        exact ⟨op, by simp [created], here ▸ port⟩
      · cases new
  · intro j
    rw [flights, List.pairwise_append]
    refine ⟨indexed.sorted j, by split <;> simp, fun burstIdx old new isNew => ?_⟩
    split at isNew
    · obtain rfl := List.mem_singleton.mp isNew
      exact indexed.bound old
    · cases isNew
  · have grown : ∀ j refs, (∀ ref ∈ refs, ref ∈ pe.flight j) →
        deref (pe.bursts ++ [op]) refs = deref pe.bursts refs := fun j refs inFlight =>
      deref_grow (fun ref membership => indexed.bound (inFlight ref membership)) _
    have responded := fun j => grown j (pe.burstRespQueue j ++ pe.answered j)
      (fun ref membership => by simp [flight, pushed] at membership ⊢; tauto)
    have waiting := fun j => grown j (pe.sent j ++ pe.burstReqQueue j)
      (fun ref membership => by simp [flight, pushed] at membership ⊢; tauto)
    rw [@pipeline_setLine gl pe _ i]
    · simp only [created, ask, pipeline, line, responded, waiting, Function.update_self]
      simp
    · intro j elsewhere
      simp only [created, line, responded, waiting, Function.update_of_ne elsewhere]
      cases creating : pe.creating j with
      | none => rfl
      | some burstIdx =>
          have inFlight : burstIdx ∈ pe.flight j := by simp [flight, creating]
          simp [List.getElem?_append_left (indexed.bound inFlight)]
    · rfl

theorem Refines.create {changed : Pe}
    (created : createBurst type i addr length changed = some after) (indexed : changed.Indexed)
    (free : changed.creating i = none)
    (step : ∀ op, Asks op type addr length →
      Step gl pe.level pe.bfsIterationStart (pe.pipeline gl) ((changed.pipeline gl).ask i op))
    (level : changed.level = pe.level)
    (start : changed.bfsIterationStart = pe.bfsIterationStart)
    (inspect : ∀ j : Part, j.port ≠ i → changed.creating j.port = none →
      (changed.inspectReq j).actualLen = 0)
    (ciao : 5 ≠ i → changed.creating 5 = none → changed.ciaoReq.actualLen = 0) :
    Refines gl pe after := by
  obtain ⟨op, asks, port, rfl⟩ := createBurst_eq created
  have ⟨indexed', pipeline⟩ := @create_pipeline gl _ _ indexed free _ port
  refine ⟨⟨indexed', fun j creating => ?_, fun creating => ?_⟩, ?_, level, start⟩
  · by_cases here : j.port = i
    · simp [here] at creating
    · exact inspect j here (by simpa [here] using creating)
  · by_cases here : 5 = i
    · simp [here] at creating
    · exact ciao here (by simpa [here] using creating)
  · rw [pipeline]
    exact .single (step op asks)

end Create

section Queues

variable {i : Port} {burstIdx : Nat} {op : BurstOp}

theorem pushBurst_pipeline (indexed : pe.Indexed) (creating : pe.creating i = some burstIdx)
    (present : pe.bursts[burstIdx]? = some op) :
    (pe.pushBurst i burstIdx).Indexed ∧
      (pe.pushBurst i burstIdx).pipeline gl = (pe.pipeline gl).push i op := by
  have flights : ∀ j, (pe.pushBurst i burstIdx).flight j = pe.flight j := by
    intro j
    by_cases here : j = i
    · subst here
      simp [flight, pushed, Pe.pushBurst, creating]
    · simp [flight, pushed, Pe.pushBurst, here]
  refine ⟨⟨?_, ?_, indexed.transfer, indexed.writes, ?_⟩, ?_⟩
  · intro j other membership
    exact indexed.port j other (flights j ▸ membership)
  · intro j
    rw [flights]
    exact indexed.sorted j
  · intro j other membership
    have inFlight : other ∈ pe.pushed j ∨ other = burstIdx := by
      by_cases here : j = i
      · subst here
        simp only [pushed, Pe.pushBurst, Function.update_self, List.mem_append,
          List.mem_singleton] at membership ⊢
        tauto
      · exact .inl (by simpa [pushed, Pe.pushBurst, here] using membership)
    simp only [Pe.pushBurst, List.mem_insert_iff]
    rcases inFlight with old | rfl
    · exact .inr (indexed.status j other old)
    · exact .inl rfl
  · rw [@pipeline_setLine gl pe _ i]
    · simp [push, pipeline, line, Pe.pushBurst, deref_cons present]
    · intro j elsewhere
      simp [line, Pe.pushBurst, elsewhere]
    · rfl

theorem setBurst_line (indexed : pe.Indexed) (inFlight : burstIdx ∈ pe.flight i)
    {filled : BurstOp} (present : pe.bursts[burstIdx]? = some op)
    (port : filled.portIdx = op.portIdx) :
    (pe.setBurst burstIdx filled).Indexed ∧
      ∀ j, j ≠ i → (pe.setBurst burstIdx filled).line j = pe.line j := by
  obtain ⟨bound, _⟩ := List.getElem?_eq_some_iff.mp present
  refine ⟨⟨?_, indexed.sorted, indexed.transfer, indexed.writes, indexed.status⟩, ?_⟩
  · intro j other membership
    obtain ⟨op', present', port'⟩ := indexed.port j other membership
    by_cases same : burstIdx = other
    · subst same
      rw [present] at present'
      obtain rfl := Option.some.inj present'
      exact ⟨filled, List.getElem?_set_self bound, port.trans port'⟩
    · exact ⟨op', by rw [List.getElem?_set_ne same]; exact present', port'⟩
  · intro j elsewhere
    have absent : burstIdx ∉ pe.flight j := fun here => elsewhere (indexed.apart here inFlight)
    simp only [flight, pushed, List.mem_append, not_or, Option.mem_toList] at absent
    have responded : burstIdx ∉ pe.burstRespQueue j ++ pe.answered j := by
      simp only [List.mem_append, not_or]
      tauto
    have waiting : burstIdx ∉ pe.sent j ++ pe.burstReqQueue j := by
      simp only [List.mem_append, not_or]
      tauto
    simp only [line, deref_set responded, deref_set waiting]
    cases creating : pe.creating j with
    | none => rfl
    | some other =>
        have different : burstIdx ≠ other := by
          rintro rfl
          exact absent.2 (by simp [creating])
        simp [List.getElem?_set_ne different]

theorem pop_pipeline (indexed : pe.Indexed) {rest : List Nat}
    (queue : pe.burstRespQueue i = burstIdx :: rest)
    (present : pe.bursts[burstIdx]? = some op) :
    let popped := { pe with
      burstOpStatus := pe.burstOpStatus.erase burstIdx
      burstRespQueue := Function.update pe.burstRespQueue i (pe.burstRespQueue i).tail
      transfer := Function.update pe.transfer i none }
    popped.Indexed ∧ popped.pipeline gl = (pe.pipeline gl).take i ∧
      (pe.line i).responded = op :: (popped.line i).responded := by
  intro popped
  have flights : ∀ j, popped.flight j = if j = i then (pe.flight i).tail else pe.flight j := by
    intro j
    by_cases here : j = i
    · subst here
      simp [popped, flight, pushed, queue]
    · simp [popped, flight, pushed, here]
  have sub : ∀ j, ∀ other ∈ popped.flight j, other ∈ pe.flight j := by
    intro j other membership
    rw [flights] at membership
    split at membership
    · rename_i here
      exact here ▸ List.mem_of_mem_tail membership
    · exact membership
  have first : pe.flight i = burstIdx :: popped.flight i := by
    simp [popped, flight, pushed, queue]
  refine ⟨⟨fun j other membership => indexed.port j other (sub j other membership), ?_, ?_, ?_,
    ?_⟩, ?_, ?_⟩
  · intro j
    rw [flights]
    split
    · exact (indexed.sorted i).tail
    · exact indexed.sorted j
  · intro j other transferred
    by_cases here : j = i
    · subst here
      simp [popped] at transferred
    · simp only [popped, Function.update_of_ne here] at transferred ⊢
      exact indexed.transfer j other transferred
  · by_cases here : 7 = i
    · simp [popped, here]
    · simp only [popped, Function.update_of_ne here]
      exact indexed.writes
  · intro j other membership
    have inFlight : other ∈ popped.flight j := List.mem_append_left _ membership
    have different : other ≠ burstIdx := by
      rintro rfl
      have here : j = i := indexed.apart (sub j other inFlight) (by rw [first]; simp)
      subst here
      have increasing := indexed.sorted j
      rw [first, List.pairwise_cons] at increasing
      exact Nat.lt_irrefl _ (increasing.1 other inFlight)
    refine (List.mem_erase_of_ne different).mpr (indexed.status j other ?_)
    by_cases here : j = i
    · subst here
      simp only [popped, pushed, Function.update_self, queue, List.tail_cons] at membership ⊢
      exact List.mem_cons_of_mem _ membership
    · simpa [popped, pushed, here] using membership
  · rw [@pipeline_setLine gl pe _ i]
    · simp [Pipeline.take, pipeline, line, popped, queue, deref_cons present]
    · intro j elsewhere
      simp [line, popped, elsewhere]
    · rfl
  · simp only [line, popped, queue, Function.update_self, List.tail_cons, List.cons_append,
      deref_cons present]

theorem Consistent.awaitResp (consistent : pe.Consistent) {size delay : Nat} (reading : i ≠ 7)
    (awaited : awaitResp i size pe = some (after, delay)) : Refines gl pe after := by
  have transferred : ∀ head, (pe.burstRespQueue i).head? = head →
      Refines gl pe { pe with transfer := Function.update pe.transfer i head } := by
    rintro head rfl
    have indexed := consistent.indexed
    refine ⟨⟨⟨indexed.port, indexed.sorted, ?_, ?_, indexed.status⟩, consistent.inspect,
      consistent.ciao⟩, .refl, rfl, rfl⟩
    · intro j burstIdx transfer
      by_cases here : j = i
      · subst here
        simpa using transfer
      · exact indexed.transfer j burstIdx (by simpa [here] using transfer)
    · simp only [Function.update_of_ne reading.symm]
      exact indexed.writes
  simp only [Pe.awaitResp] at awaited
  split at awaited
  · rename_i empty
    cases awaited
    exact transferred none (by simp [empty])
  · rename_i burstIdx rest queue
    simp only [Option.bind_eq_bind, Option.bind_eq_some_iff] at awaited
    obtain ⟨op, _, awaited⟩ := awaited
    cases awaited
    exact transferred (some burstIdx) (by simp [queue])

theorem Consistent.respThread (consistent : pe.Consistent) {size delay : Nat}
    {store : BurstOp → Pe → Option Pe} (reading : i ≠ 7)
    (stores : ∀ op rest taken stored, (pe.line i).responded = op :: rest →
      taken.Consistent → taken.pipeline gl = (pe.pipeline gl).take i →
      taken.level = pe.level → taken.bfsIterationStart = pe.bfsIterationStart →
      store op taken = some stored → Refines gl pe stored)
    (ran : respThread i size store pe = some (after, delay)) : Refines gl pe after := by
  simp only [Pe.respThread] at ran
  split at ran
  · exact consistent.awaitResp reading ran
  · rename_i burstIdx transfer
    simp only [Option.bind_eq_bind, Option.bind_eq_some_iff] at ran
    obtain ⟨op, present, stored, copied, awaited⟩ := ran
    obtain ⟨rest, queue⟩ :=
      List.head?_eq_some_iff.mp (consistent.indexed.transfer i burstIdx transfer)
    have ⟨indexed, taken, responded⟩ := @pop_pipeline gl _ _ _ _ consistent.indexed _ queue present
    have stepped := stores op _ _ stored responded ⟨indexed, consistent.inspect, consistent.ciao⟩
      taken rfl rfl copied
    exact stepped.trans (stepped.consistent.awaitResp reading awaited)

end Queues

theorem asked_eq_none {i : Port} (free : pe.creating i = none) :
    ((pe.pipeline gl).lines i).asked = none := by
  simp [pipeline, line, free]

theorem asked_pipeline (indexed : pe.Indexed) {i : Port} {burstIdx : Nat}
    (creating : pe.creating i = some burstIdx) :
    ∃ op, pe.bursts[burstIdx]? = some op ∧ op.portIdx = i ∧
      ((pe.pipeline gl).lines i).asked = some op := by
  obtain ⟨op, present, port⟩ := indexed.port i burstIdx (by simp [flight, creating])
  exact ⟨op, present, port, by simp [pipeline, line, creating, present]⟩

theorem port_injective {i j : Part} (same : i.port = j.port) : i = j :=
  Fin.ext (by simpa [Part.port] using same)

theorem port_ne (i : Part) {j : Port} (behind : 4 ≤ j.val) : i.port ≠ j := by
  rintro rfl
  have := i.isLt
  simp only [Part.port] at behind
  omega

theorem Consistent.pushBurst (consistent : pe.Consistent) {i : Port} {burstIdx : Nat}
    (expansion : i = 4 ∨ i = 6) (creating : pe.creating i = some burstIdx) :
    Refines gl pe (pe.pushBurst i burstIdx) := by
  obtain ⟨op, present, _, asked⟩ := @asked_pipeline gl _ consistent.indexed _ _ creating
  have ⟨indexed, pipeline⟩ := @pushBurst_pipeline gl _ _ _ _ consistent.indexed creating present
  have untouched : ∀ j, j ≠ i → (pe.pushBurst i burstIdx).creating j = pe.creating j :=
    fun j elsewhere => Function.update_of_ne elsewhere _ _
  have behind : 4 ≤ i.val ∧ i ≠ 5 ∧ i ≠ 7 := by rcases expansion with rfl | rfl <;> decide
  refine ⟨⟨indexed, fun j free => ?_, fun free => ?_⟩, ?_, rfl, rfl⟩
  · rw [untouched _ (port_ne j behind.1)] at free
    exact consistent.inspect j free
  · rw [untouched _ behind.2.1.symm] at free
    exact consistent.ciao free
  · rw [pipeline]
    exact .single (.push behind.2.2 asked)

section Inspection

variable {prIdx : Part}

theorem inspectDepthReqLoop_refines (consistent : pe.Consistent)
    (free : pe.creating prIdx.port = none)
    (ran : pe.inspectDepthReqLoop gl prIdx = some after) : Refines gl pe after := by
  simp only [inspectDepthReqLoop] at ran
  have idle := consistent.inspect prIdx free
  split at ran
  · rename_i more
    generalize chunk : (if (pe.inspectReq prIdx).currentLen + Gl.baseLen > gl.maxLen prIdx
      then gl.maxLen prIdx - (pe.inspectReq prIdx).currentLen else Gl.baseLen) = actualLen at ran
    have within : (pe.inspectReq prIdx).currentLen + actualLen ≤ gl.maxLen prIdx := by
      split at chunk <;> omega
    split at ran
    · obtain rfl := Option.some.inj ran
      exact .refl consistent
    · refine .create ran consistent.indexed free (fun op asks => ?_) rfl rfl
        (fun j elsewhere other => ?_) (fun _ => consistent.ciao)
      · have spans : inspectSpan gl (Function.update pe.inspectReq prIdx
              { pe.inspectReq prIdx with actualLen }) =
            Function.update (inspectSpan gl pe.inspectReq) prIdx
              ⟨(inspectSpan gl pe.inspectReq prIdx).addr + actualLen,
                (inspectSpan gl pe.inspectReq prIdx).left - actualLen⟩ := by
          funext j
          by_cases here : j = prIdx
          · subst here
            simp [inspectSpan, idle, Nat.sub_sub]
          · simp [inspectSpan, here]
        have step : Step gl pe.level pe.bfsIterationStart (pe.pipeline gl) _ :=
          @Step.askInspect _ _ _ _ prIdx _ actualLen (asked_eq_none free)
            (by simpa [pipeline, inspectSpan, idle] using asks)
            (by simp [pipeline, inspectSpan, idle]; omega)
        simpa only [pipeline, spans] using step
      · simp only [Function.update_of_ne fun same => elsewhere (congrArg Part.port same)]
        exact consistent.inspect j other
  · obtain rfl := Option.some.inj ran
    exact .refl consistent

theorem pushInspect_refines (consistent : pe.Consistent) {burstIdx : Nat}
    (creating : pe.creating prIdx.port = some burstIdx) :
    Refines gl pe { pe.pushBurst prIdx.port burstIdx with
      inspectReq := Function.update pe.inspectReq prIdx { pe.inspectReq prIdx with
        depthMemAddr := (pe.inspectReq prIdx).depthMemAddr + (pe.inspectReq prIdx).actualLen
        currentLen := (pe.inspectReq prIdx).currentLen + (pe.inspectReq prIdx).actualLen
        actualLen := 0 } } := by
  obtain ⟨op, present, _, asked⟩ := @asked_pipeline gl _ consistent.indexed _ _ creating
  have ⟨indexed, pipeline⟩ := @pushBurst_pipeline gl _ _ _ _ consistent.indexed creating present
  refine ⟨⟨indexed, fun j free => ?_, fun free => ?_⟩, ?_, rfl, rfl⟩
  · by_cases here : j = prIdx
    · subst here
      simp
    · have elsewhere : j.port ≠ prIdx.port := fun same => here (port_injective same)
      simp only [Function.update_of_ne here]
      exact consistent.inspect j (by simpa [Pe.pushBurst, elsewhere] using free)
  · have elsewhere := (@port_ne prIdx 5 (by decide)).symm
    exact consistent.ciao (by simpa [Pe.pushBurst, elsewhere] using free)
  · have spans : inspectSpan gl (Function.update pe.inspectReq prIdx { pe.inspectReq prIdx with
        depthMemAddr := (pe.inspectReq prIdx).depthMemAddr + (pe.inspectReq prIdx).actualLen
        currentLen := (pe.inspectReq prIdx).currentLen + (pe.inspectReq prIdx).actualLen
        actualLen := 0 }) = inspectSpan gl pe.inspectReq := by
      funext j
      by_cases here : j = prIdx
      · subst here
        simp [inspectSpan]
      · simp [inspectSpan, here]
    have step : Step gl pe.level pe.bfsIterationStart _ _ :=
      .push (port_ne prIdx (by decide)) asked
    rw [← pipeline] at step
    refine .single ?_
    simp only [Pe.pipeline, spans]
    exact step

theorem restart_refines (consistent : pe.Consistent) (started : pe.bfsIterationStart)
    (finished : gl.maxLen prIdx ≤ (pe.inspectReq prIdx).currentLen) :
    Refines gl pe { pe with
      inspectReq := Function.update pe.inspectReq prIdx { pe.inspectReq prIdx with
        depthMemAddr := gl.baseDepthMemAddr prIdx
        currentLen := 0
        actualLen := 0 } } := by
  refine ⟨⟨consistent.indexed, fun j other => ?_, consistent.ciao⟩, ?_, rfl, rfl⟩
  · by_cases here : j = prIdx
    · subst here
      simp
    · simp only [Function.update_of_ne here]
      exact consistent.inspect j other
  · have spans : inspectSpan gl (Function.update pe.inspectReq prIdx { pe.inspectReq prIdx with
        depthMemAddr := gl.baseDepthMemAddr prIdx
        currentLen := 0
        actualLen := 0 }) = Function.update (inspectSpan gl pe.inspectReq) prIdx
          ⟨gl.baseDepthMemAddr prIdx, gl.maxLen prIdx⟩ := by
      funext j
      by_cases here : j = prIdx
      · subst here
        simp [inspectSpan]
      · simp [inspectSpan, here]
    have step : Step gl pe.level pe.bfsIterationStart (pe.pipeline gl) _ :=
      .restart (i := prIdx) started (by simp [pipeline, inspectSpan]; omega)
    exact .single (by simpa only [pipeline, spans] using step)

theorem inspectDepthReqThread_refines (consistent : pe.Consistent) {delay : Nat}
    (ran : pe.inspectDepthReqThread gl prIdx = some (after, delay)) : Refines gl pe after := by
  simp only [inspectDepthReqThread] at ran
  split at ran
  · rename_i burstIdx creating
    simp only [Option.bind_eq_bind, Option.bind_eq_some_iff] at ran
    obtain ⟨looped, ran, same⟩ := ran
    cases same
    have pushed := @pushInspect_refines gl _ _ consistent _ creating
    exact pushed.trans (inspectDepthReqLoop_refines pushed.consistent (by simp [Pe.pushBurst]) ran)
  · rename_i free
    simp only [Option.bind_eq_bind, Option.bind_eq_some_iff] at ran
    obtain ⟨looped, ran, same⟩ := ran
    cases same
    split at ran
    · rename_i restarting
      rw [Bool.and_eq_true, decide_eq_true_eq] at restarting
      have restarted := restart_refines consistent restarting.2 restarting.1
      exact restarted.trans (inspectDepthReqLoop_refines restarted.consistent free ran)
    · exact inspectDepthReqLoop_refines consistent free ran

theorem inspectDepthRespThread_refines (consistent : pe.Consistent) {delay : Nat}
    (ran : pe.inspectDepthRespThread prIdx = some (after, delay)) : Refines gl pe after := by
  refine consistent.respThread (port_ne prIdx (by decide)) ?_ ran
  intro op rest taken stored responded consistent' same level start copied
  simp only [storeInspect, Option.bind_eq_bind, Option.bind_eq_some_iff] at copied
  obtain ⟨bytes, converted, copied⟩ := copied
  obtain rfl := Option.some.inj copied
  refine ⟨⟨consistent'.indexed, consistent'.inspect, consistent'.ciao⟩, ?_, level, start⟩
  have pipeline : pipeline gl { taken with
      depthBuffer0 := Function.update taken.depthBuffer0 prIdx
        (taken.depthBuffer0 prIdx ++ bytes) } = { taken.pipeline gl with
      depthBuffer0 := Function.update (taken.pipeline gl).depthBuffer0 prIdx
        ((taken.pipeline gl).depthBuffer0 prIdx ++ bytes) } := rfl
  rw [pipeline, same]
  exact .single (.storeInspect responded converted)

theorem inspectDepth_refines (consistent : pe.Consistent) (i : Part) :
    Refines gl pe (pe.inspectDepth i) := by
  simp only [inspectDepth]
  split
  · exact .refl consistent
  · rename_i d rest buffer
    have step : Step gl pe.level pe.bfsIterationStart (pe.pipeline gl) _ :=
      .inspect (i := i) buffer
    by_cases frontier : d = pe.level
    · simp only [inspect, frontier, if_true] at step ⊢
      exact ⟨⟨consistent.indexed, consistent.inspect, consistent.ciao⟩, .single step, rfl, rfl⟩
    · simp only [inspect, frontier, if_false, List.append_nil] at step ⊢
      exact ⟨⟨consistent.indexed, consistent.inspect, consistent.ciao⟩, .single step, rfl, rfl⟩

theorem foldl_inspectDepth_refines (parts : List Part) :
    ∀ pe : Pe, pe.Consistent → Refines gl pe (parts.foldl inspectDepth pe) := by
  induction parts with
  | nil => exact fun pe consistent => .refl consistent
  | cons i parts inductionHypothesis =>
      intro pe consistent
      have first := @inspectDepth_refines gl _ consistent i
      exact first.trans (inductionHypothesis _ first.consistent)

theorem inspectDepthAnalysis_refines (consistent : pe.Consistent) {delay : Nat}
    (ran : pe.inspectDepthAnalysis gl = some (after, delay)) : Refines gl pe after := by
  have reset : Refines gl pe (if pe.bfsIterationStart then { pe with
      idx := resetIdx gl
      validFlag2 := true
      frontierSize := 0 } else pe) := by
    split
    · rename_i started
      exact ⟨⟨consistent.indexed, consistent.inspect, consistent.ciao⟩,
        .single (.resetIdx started), rfl, rfl⟩
    · exact .refl consistent
  have done : ∀ pe : Pe, pe.Consistent → Refines gl pe (pe.checkDone gl) := by
    intro pe consistent
    rw [checkDone]
    split
    · exact ⟨⟨consistent.indexed, consistent.inspect, consistent.ciao⟩, .refl, rfl, rfl⟩
    · exact .refl consistent
  have analysed : ∀ pe : Pe, pe.Consistent → Refines gl pe
      (if ((List.finRange 4).any fun i => !(pe.depthBuffer0 i).isEmpty) &&
          pe.frontierBuffer.length < Gl.frontierBufferDepth then
        (List.finRange 4).foldl inspectDepth pe else pe) := by
    intro pe consistent
    split
    · exact foldl_inspectDepth_refines _ pe consistent
    · exact .refl consistent
  simp only [inspectDepthAnalysis, Option.some.injEq, Prod.mk.injEq] at ran
  obtain ⟨rfl, rfl⟩ := ran
  have middle := reset.trans (analysed _ reset.consistent)
  exact middle.trans (done _ middle.consistent)

end Inspection

section Expansion

variable {delay : Nat}

theorem frontierLoop_refines (consistent : pe.Consistent) (free : pe.creating 4 = none)
    (ran : pe.frontierLoop gl = some after) : Refines gl pe after := by
  simp only [frontierLoop] at ran
  split at ran
  · rename_i vidx rest buffer
    split at ran
    · exact .create ran consistent.indexed free
        (fun op asks => .askRpao (asked_eq_none free) buffer asks) rfl rfl
        (fun j _ => consistent.inspect j) (fun _ => consistent.ciao)
    · obtain rfl := Option.some.inj ran
      exact .refl consistent
  · obtain rfl := Option.some.inj ran
    exact .refl consistent

theorem frontierAnalysis_refines (consistent : pe.Consistent)
    (ran : pe.frontierAnalysis gl = some (after, delay)) : Refines gl pe after := by
  simp only [frontierAnalysis] at ran
  split at ran <;> simp only [Option.bind_eq_bind, Option.bind_eq_some_iff] at ran <;>
    obtain ⟨looped, ran, same⟩ := ran <;> cases same
  · rename_i burstIdx creating
    have pushed := @Consistent.pushBurst gl _ consistent _ _ (.inl rfl) creating
    exact pushed.trans (frontierLoop_refines pushed.consistent (by simp [Pe.pushBurst]) ran)
  · rename_i free
    exact frontierLoop_refines consistent free ran

theorem processExpandRpaoReadResp_refines (consistent : pe.Consistent)
    (ran : pe.processExpandRpaoReadResp = some (after, delay)) : Refines gl pe after := by
  refine consistent.respThread (by decide) ?_ ran
  intro op rest taken stored responded consistent' same level start copied
  simp only [storeRpao, Option.bind_eq_bind, Option.bind_eq_some_iff] at copied
  obtain ⟨words, converted, copied⟩ := copied
  obtain rfl := Option.some.inj copied
  refine ⟨⟨consistent'.indexed, consistent'.inspect, consistent'.ciao⟩, ?_, level, start⟩
  have pipeline : pipeline gl { taken with rpaoBuffer := taken.rpaoBuffer ++ words } =
      { taken.pipeline gl with rpaoBuffer := (taken.pipeline gl).rpaoBuffer ++ words } := rfl
  rw [pipeline, same]
  exact .single (.storeRpao responded converted)

theorem ciaoChunk_refines (consistent : pe.Consistent) (free : pe.creating 5 = none)
    (ran : pe.ciaoChunk = some after) : Refines gl pe after := by
  simp only [ciaoChunk] at ran
  have idle := consistent.ciao free
  generalize chunk : (if pe.ciaoReq.len + Gl.baseLen > pe.ciaoReq.maxLen
    then pe.ciaoReq.maxLen - pe.ciaoReq.len else Gl.baseLen) = actualLen at ran
  have least : actualLen = min Gl.baseLen (pe.ciaoReq.maxLen - pe.ciaoReq.len) := by
    split at chunk <;> omega
  split at ran
  · refine .create ran consistent.indexed free (fun op asks => ?_) rfl rfl
      (fun j _ => consistent.inspect j) (fun elsewhere => absurd rfl elsewhere)
    · have step : Step gl pe.level pe.bfsIterationStart (pe.pipeline gl) _ :=
        .askCiao (asked_eq_none free) (by simpa [pipeline, idle] using least)
          (by simpa [pipeline, idle] using asks)
      simpa [pipeline, idle, Nat.sub_sub] using step
  · obtain rfl := Option.some.inj ran
    exact .refl consistent

/-- The induction is on the pairs that are left: a row without neighbours is taken and
nothing is asked. -/
theorem ciaoRows_refines (rpaoBuffer : List Int) :
    ∀ pe : Pe, pe.Consistent → pe.creating 5 = none → pe.ciaoReq.maxLen ≤ pe.ciaoReq.len →
      pe.rpaoBuffer = rpaoBuffer → ciaoRows gl pe rpaoBuffer = some after →
      Refines gl pe after := by
  match rpaoBuffer with
  | srcIdx :: dstIdx :: rest =>
      intro pe consistent free finished buffer ran
      have idle := consistent.ciao free
      have step : Step gl pe.level pe.bfsIterationStart (pe.pipeline gl) _ :=
        .takeRow (by simp [pipeline, idle]; omega) buffer
      simp only [ciaoRows] at ran
      generalize taken : ({ ciaoMemAddr := gl.ciaoMemAddr + srcIdx * 4
                            maxLen := (4 * (dstIdx - srcIdx)).toNat } : CiaoReq) = row at ran
      have took : Refines gl pe { pe with rpaoBuffer := rest, ciaoReq := row } := by
        subst taken
        refine ⟨⟨consistent.indexed, consistent.inspect, fun _ => rfl⟩, .single ?_, rfl, rfl⟩
        simpa [pipeline] using step
      split at ran
      · exact took.trans (ciaoChunk_refines took.consistent free ran)
      · rename_i empty
        refine took.trans (ciaoRows_refines rest _ took.consistent free ?_ rfl ran)
        subst taken
        simp only
        omega
  | [] =>
      intro pe consistent _ _ _ ran
      obtain rfl := Option.some.inj ran
      exact .refl consistent
  | [_] =>
      intro pe consistent _ _ _ ran
      obtain rfl := Option.some.inj ran
      exact .refl consistent

theorem ciaoLoop_refines (consistent : pe.Consistent) (free : pe.creating 5 = none)
    (ran : pe.ciaoLoop gl = some after) : Refines gl pe after := by
  rw [ciaoLoop] at ran
  split at ran
  · exact ciaoChunk_refines consistent free ran
  · exact ciaoRows_refines _ pe consistent free (by omega) rfl ran

theorem pushCiao_refines (consistent : pe.Consistent) {burstIdx : Nat}
    (creating : pe.creating 5 = some burstIdx) :
    Refines gl pe { pe.pushBurst 5 burstIdx with
      ciaoReq := { pe.ciaoReq with
        ciaoMemAddr := pe.ciaoReq.ciaoMemAddr + pe.ciaoReq.actualLen
        len := pe.ciaoReq.len + pe.ciaoReq.actualLen
        actualLen := 0 } } := by
  obtain ⟨op, present, _, asked⟩ := @asked_pipeline gl _ consistent.indexed _ _ creating
  have ⟨indexed, pipeline⟩ := @pushBurst_pipeline gl _ _ _ _ consistent.indexed creating present
  refine ⟨⟨indexed, fun j free => ?_, fun _ => rfl⟩, .single ?_, rfl, rfl⟩
  · have elsewhere := @port_ne j 5 (by decide)
    exact consistent.inspect j (by simpa [Pe.pushBurst, elsewhere] using free)
  · have step : Step gl pe.level pe.bfsIterationStart _ _ := .push (by decide) asked
    rw [← pipeline] at step
    simpa [Pe.pipeline, Pe.pushBurst] using step

theorem issueExpandCiaoReadReq_refines (consistent : pe.Consistent)
    (ran : pe.issueExpandCiaoReadReq gl = some (after, delay)) : Refines gl pe after := by
  simp only [issueExpandCiaoReadReq] at ran
  split at ran <;> simp only [Option.bind_eq_bind, Option.bind_eq_some_iff] at ran <;>
    obtain ⟨looped, ran, same⟩ := ran <;> cases same
  · rename_i burstIdx creating
    have pushed := @pushCiao_refines gl _ consistent _ creating
    exact pushed.trans (ciaoLoop_refines pushed.consistent (by simp [Pe.pushBurst]) ran)
  · rename_i free
    exact ciaoLoop_refines consistent free ran

theorem processExpandCiaoReadResp_refines (consistent : pe.Consistent)
    (ran : pe.processExpandCiaoReadResp = some (after, delay)) : Refines gl pe after := by
  refine consistent.respThread (by decide) ?_ ran
  intro op rest taken stored responded consistent' same level start copied
  simp only [storeCiao, Option.bind_eq_bind, Option.bind_eq_some_iff] at copied
  obtain ⟨words, converted, copied⟩ := copied
  obtain rfl := Option.some.inj copied
  refine ⟨⟨consistent'.indexed, consistent'.inspect, consistent'.ciao⟩, ?_, level, start⟩
  have pipeline : pipeline gl { taken with ciaoBuffer := taken.ciaoBuffer ++ words } =
      { taken.pipeline gl with ciaoBuffer := (taken.pipeline gl).ciaoBuffer ++ words } := rfl
  rw [pipeline, same]
  exact .single (.storeCiao responded converted)

theorem depthLoop_refines (consistent : pe.Consistent) (free : pe.creating 6 = none)
    (ran : pe.depthLoop gl = some after) : Refines gl pe after := by
  simp only [depthLoop] at ran
  split at ran
  · rename_i vidx rest buffer
    split at ran
    · exact .create ran consistent.indexed free
        (fun op asks => .askDepth (asked_eq_none free) buffer asks) rfl rfl
        (fun j _ => consistent.inspect j) (fun _ => consistent.ciao)
    · obtain rfl := Option.some.inj ran
      exact .refl consistent
  · obtain rfl := Option.some.inj ran
    exact .refl consistent

theorem issueExpandDepthReadReq_refines (consistent : pe.Consistent)
    (ran : pe.issueExpandDepthReadReq gl = some (after, delay)) : Refines gl pe after := by
  simp only [issueExpandDepthReadReq] at ran
  split at ran <;> simp only [Option.bind_eq_bind, Option.bind_eq_some_iff] at ran <;>
    obtain ⟨looped, ran, same⟩ := ran <;> cases same
  · rename_i burstIdx creating
    have pushed := @Consistent.pushBurst gl _ consistent _ _ (.inr rfl) creating
    exact pushed.trans (depthLoop_refines pushed.consistent (by simp [Pe.pushBurst]) ran)
  · rename_i free
    exact depthLoop_refines consistent free ran

theorem processExpandDepthReadResp_refines (consistent : pe.Consistent)
    (ran : pe.processExpandDepthReadResp = some (after, delay)) : Refines gl pe after := by
  refine consistent.respThread (by decide) ?_ ran
  intro op rest taken stored responded consistent' same level start copied
  simp only [storeDepth, Option.bind_eq_bind, Option.bind_eq_some_iff] at copied
  obtain ⟨bytes, converted, copied⟩ := copied
  obtain rfl := Option.some.inj copied
  refine ⟨⟨consistent'.indexed, consistent'.inspect, consistent'.ciao⟩, ?_, level, start⟩
  have pipeline : pipeline gl { taken with depthBuffer1 := taken.depthBuffer1 ++ bytes } =
      { taken.pipeline gl with depthBuffer1 := (taken.pipeline gl).depthBuffer1 ++ bytes } := rfl
  rw [pipeline, same]
  exact .single (.storeDepth responded converted)

theorem expandLoop_refines (depthBuffer1 : List Byte) :
    ∀ pe : Pe, pe.Consistent → pe.creating 7 = none → pe.depthBuffer1 = depthBuffer1 →
      expandLoop gl pe depthBuffer1 = some after → Refines gl pe after := by
  induction depthBuffer1 with
  | nil =>
      intro pe consistent _ _ ran
      obtain rfl := Option.some.inj ran
      exact .refl consistent
  | cons d rest inductionHypothesis =>
      intro pe consistent free buffer ran
      simp only [expandLoop] at ran
      split at ran
      · split at ran
        · cases ran
        · rename_i vidx vidxs vidxBuffer
          split at ran
          · rename_i fresh
            subst fresh
            exact .create ran consistent.indexed free
              (fun op asks => .expandNew (asked_eq_none free) buffer vidxBuffer asks) rfl rfl
              (fun j _ => consistent.inspect j) (fun _ => consistent.ciao)
          · rename_i visited
            have dropped : Refines gl pe { pe with depthBuffer1 := rest, vidxBuffer := vidxs } :=
              ⟨⟨consistent.indexed, consistent.inspect, consistent.ciao⟩,
                .single (.expandOld buffer vidxBuffer visited), rfl, rfl⟩
            exact dropped.trans (inductionHypothesis _ dropped.consistent free rfl ran)
      · obtain rfl := Option.some.inj ran
        exact .refl consistent

theorem fillBurst_refines (consistent : pe.Consistent) {burstIdx : Nat} {filled : Pe}
    (creating : pe.creating 7 = some burstIdx) (ran : pe.fillBurst burstIdx = some filled) :
    Refines gl pe (filled.pushBurst 7 burstIdx) := by
  have indexed := consistent.indexed
  obtain ⟨op, present, port, asked⟩ := @asked_pipeline gl _ indexed _ _ creating
  simp only [fillBurst, present, Option.bind_eq_bind, Option.bind_some,
    Option.bind_eq_some_iff] at ran
  obtain ⟨byte, head, ran⟩ := ran
  obtain rfl := Option.some.inj ran
  obtain ⟨rest, buffer⟩ := List.head?_eq_some_iff.mp head
  have inFlight : burstIdx ∈ pe.flight 7 := by simp [flight, creating]
  have ⟨indexed', others⟩ := @setBurst_line _ 7 _ _ indexed inFlight
    { op with data := op.data ++ [byte] } present rfl
  have ⟨pushedIndexed, pushed⟩ := @pushBurst_pipeline gl
    { pe.setBurst burstIdx { op with data := op.data ++ [byte] } with
      depthBuffer2 := pe.depthBuffer2.tail } 7 burstIdx _ indexed' creating
    (List.getElem?_set_self (indexed.bound inFlight))
  refine ⟨⟨pushedIndexed, fun j free => ?_, fun free => ?_⟩, .single ?_, rfl, rfl⟩
  · have elsewhere := @port_ne j 7 (by decide)
    exact consistent.inspect j (by simpa [Pe.pushBurst, elsewhere] using free)
  · exact consistent.ciao free
  · have step : Step gl pe.level pe.bfsIterationStart _ _ := .fill asked buffer
    have absent := indexed.nodup 7
    simp only [flight, creating, Option.toList_some, List.nodup_append] at absent
    have responded : burstIdx ∉ pe.burstRespQueue 7 ++ pe.answered 7 := fun membership =>
      absent.2.2 _ (List.mem_append_left _ membership) _ (by simp) rfl
    have waiting : burstIdx ∉ pe.sent 7 ++ pe.burstReqQueue 7 := fun membership =>
      absent.2.2 _ (List.mem_append_right _ membership) _ (by simp) rfl
    have lines := update_congr others
    rw [pushed]
    simpa only [push, setLine, pipeline, lines, line, deref_set responded, deref_set waiting,
      buffer, List.tail_cons] using step

theorem expandDepthAnalysis_refines (consistent : pe.Consistent)
    (ran : pe.expandDepthAnalysis gl = some (after, delay)) : Refines gl pe after := by
  simp only [expandDepthAnalysis] at ran
  split at ran <;> simp only [Option.bind_eq_bind, Option.bind_eq_some_iff] at ran
  · rename_i burstIdx creating
    obtain ⟨filled, fills, looped, ran, same⟩ := ran
    cases same
    have pushed := @fillBurst_refines gl _ consistent _ _ creating fills
    exact pushed.trans (expandLoop_refines _ _ pushed.consistent (by simp [Pe.pushBurst]) rfl ran)
  · rename_i free
    obtain ⟨looped, ran, same⟩ := ran
    cases same
    exact expandLoop_refines _ pe consistent free rfl ran

theorem dropWrites_refines (responses : List Nat) :
    ∀ pe : Pe, pe.Consistent → pe.burstRespQueue 7 = responses → Refines gl pe { pe with
      burstOpStatus := responses.foldl List.erase pe.burstOpStatus
      burstRespQueue := Function.update pe.burstRespQueue 7 [] } := by
  induction responses with
  | nil =>
      intro pe consistent empty
      have same : Function.update pe.burstRespQueue 7 [] = pe.burstRespQueue := by
        rw [← empty, Function.update_eq_self]
      simp only [List.foldl_nil, same]
      exact .refl consistent
  | cons burstIdx rest inductionHypothesis =>
      intro pe consistent queue
      obtain ⟨op, present, _⟩ :=
        consistent.indexed.port 7 burstIdx (by simp [flight, pushed, queue])
      have ⟨indexed, taken, responded⟩ :=
        @pop_pipeline gl _ _ _ _ consistent.indexed _ queue present
      rw [← consistent.indexed.writes, Function.update_eq_self] at indexed taken responded
      have dropped : Refines gl pe { pe with
          burstOpStatus := pe.burstOpStatus.erase burstIdx
          burstRespQueue := Function.update pe.burstRespQueue 7 (pe.burstRespQueue 7).tail } := by
        refine ⟨⟨indexed, consistent.inspect, consistent.ciao⟩, ?_, rfl, rfl⟩
        rw [taken]
        exact .single (.dropWrite responded)
      have others := inductionHypothesis _ dropped.consistent (by simp [queue])
      rw [Function.update_idem] at others
      exact dropped.trans others

theorem processExpandDepthWriteResp_refines (consistent : pe.Consistent)
    (ran : pe.processExpandDepthWriteResp = some (after, delay)) : Refines gl pe after := by
  cases ran
  exact dropWrites_refines _ pe consistent rfl

end Expansion

section Transport

/-- The queues between `pe` and the memory only pass bursts on. -/
theorem Consistent.transport (consistent : pe.Consistent) {queues : BurstQueues}
    (pushed : ∀ i, queues.pushed i = pe.pushed i)
    (bursts : queues.bursts = pe.bursts) (creating : queues.creating = pe.creating)
    (status : queues.burstOpStatus = pe.burstOpStatus) (transfer : queues.transfer = pe.transfer)
    (heads : ∀ i burstIdx, (pe.burstRespQueue i).head? = some burstIdx →
      (queues.burstRespQueue i).head? = some burstIdx) :
    Consistent { pe with toBurstQueues := queues } := by
  have indexed := consistent.indexed
  have flight : ∀ i, queues.flight i = pe.flight i := fun i => by
    simp only [BurstQueues.flight, pushed, creating]
  refine ⟨⟨?_, ?_, ?_, ?_, ?_⟩, ?_, ?_⟩
  · simpa only [flight, bursts] using indexed.port
  · simpa only [flight] using indexed.sorted
  · intro i burstIdx transferred
    exact heads i burstIdx (indexed.transfer i burstIdx (transfer ▸ transferred))
  · exact transfer ▸ indexed.writes
  · simpa only [pushed, status] using indexed.status
  · simpa only [creating] using consistent.inspect
  · simpa only [creating] using consistent.ciao

theorem line_congr {queues queues' : BurstQueues}
    (responded : ∀ i, queues.burstRespQueue i ++ queues.answered i =
      queues'.burstRespQueue i ++ queues'.answered i)
    (waiting : ∀ i, queues.sent i ++ queues.burstReqQueue i =
      queues'.sent i ++ queues'.burstReqQueue i)
    (bursts : queues.bursts = queues'.bursts) (creating : queues.creating = queues'.creating) :
    queues.line = queues'.line := by
  funext i
  simp only [line, responded, waiting, bursts, creating]

theorem sendMemReq_waiting (pe : Pe) (i : Port) :
    pe.sendMemReq.sent i ++ pe.sendMemReq.burstReqQueue i = pe.sent i ++ pe.burstReqQueue i := by
  cases queue : pe.burstReqQueue i <;> simp [sendMemReq, queue]

theorem getMemResp_responded (pe : Pe) (i : Port) :
    pe.getMemResp.burstRespQueue i ++ pe.getMemResp.answered i =
      pe.burstRespQueue i ++ pe.answered i := by
  cases queue : pe.answered i <;> simp [getMemResp, queue]

theorem sendMemReq_line (pe : Pe) : pe.sendMemReq.line = pe.line :=
  line_congr (fun _ => rfl) pe.sendMemReq_waiting rfl rfl

theorem getMemResp_line (pe : Pe) : pe.getMemResp.line = pe.line :=
  line_congr pe.getMemResp_responded (fun _ => rfl) rfl rfl

theorem sendMemReq_refines (consistent : pe.Consistent) : Refines gl pe pe.sendMemReq := by
  refine ⟨consistent.transport (fun i => ?_) rfl rfl rfl rfl (fun _ _ head => head), ?_, rfl, rfl⟩
  · exact congrArg (pe.burstRespQueue i ++ pe.answered i ++ ·) (pe.sendMemReq_waiting i)
  · simp only [pipeline, sendMemReq_line]
    exact .refl

theorem getMemResp_refines (consistent : pe.Consistent) : Refines gl pe pe.getMemResp := by
  refine ⟨consistent.transport (fun i => ?_) rfl rfl rfl rfl (fun i burstIdx head => ?_), ?_,
    rfl, rfl⟩
  · exact congrArg (· ++ (pe.sent i ++ pe.burstReqQueue i)) (pe.getMemResp_responded i)
  · simp [List.head?_append, head]
  · simp only [pipeline, getMemResp_line]
    exact .refl

theorem move_pipeline (consistent : pe.Consistent) {i : Port} {burstIdx : Nat}
    {rest : List Nat} {op : BurstOp} (queue : pe.sent i = burstIdx :: rest)
    (present : pe.bursts[burstIdx]? = some op) :
    let moved := { pe with
      sent := Function.update pe.sent i rest
      answered := Function.update pe.answered i (pe.answered i ++ [burstIdx]) }
    moved.Consistent ∧ moved.pipeline gl = (pe.pipeline gl).respond i op := by
  intro moved
  refine ⟨consistent.transport (fun j => ?_) rfl rfl rfl rfl (fun _ _ head => head), ?_⟩
  · by_cases here : j = i
    · subst here
      simp [pushed, queue]
    · simp [pushed, here]
  · rw [@pipeline_setLine gl pe _ i]
    · simp [respond, pipeline, line, moved, queue, deref_cons present]
    · intro j elsewhere
      simp [line, moved, elsewhere]
    · rfl

theorem answer_pipeline {i : Port} (consistent : pe.Consistent)
    (ran : pe.answer i = some after) :
    after.Consistent ∧ after.level = pe.level ∧ after.bfsIterationStart = pe.bfsIterationStart ∧
      ∃ op rest, (pe.sent i).head?.bind (pe.bursts[·]?) = some op ∧
        (pe.line i).waiting = op :: rest ∧
        ((op.type = .write ∧ ∃ ramData, op.reqToRam pe.ramData = some ramData ∧
            after.pipeline gl = respond i op { pe.pipeline gl with ramData }) ∨
          op.type ≠ .write ∧ ∃ copied, op.ramToReq pe.ramData = some copied ∧
            after.pipeline gl = (pe.pipeline gl).respond i copied) := by
  simp only [answer] at ran
  split at ran
  · cases ran
  · rename_i burstIdx rest queue
    simp only [Option.bind_eq_bind, Option.bind_eq_some_iff] at ran
    obtain ⟨op, present, ran⟩ := ran
    have waiting : (pe.line i).waiting = op :: deref pe.bursts (rest ++ pe.burstReqQueue i) := by
      simp only [line, queue, List.cons_append, deref_cons present]
    have oldest : (pe.sent i).head?.bind (pe.bursts[·]?) = some op := by
      rw [queue]
      exact present
    split at ran
    · rename_i writing
      simp only [Option.bind_eq_some_iff] at ran
      obtain ⟨ramData, written, ran⟩ := ran
      obtain rfl := Option.some.inj ran
      have ⟨moved, pipeline⟩ := @move_pipeline gl _ consistent _ _ _ _ queue present
      refine ⟨⟨moved.indexed, moved.inspect, moved.ciao⟩, rfl, rfl, op, _, oldest, waiting,
        .inl ⟨writing, ramData, written, ?_⟩⟩
      exact congrArg (fun p : Pipeline => { p with ramData }) pipeline
    · rename_i reading
      simp only [Option.bind_eq_some_iff] at ran
      obtain ⟨copied, reads, ran⟩ := ran
      obtain rfl := Option.some.inj ran
      obtain ⟨bytes, rfl⟩ := ramToReq_eq reads
      have inFlight : burstIdx ∈ pe.flight i := by simp [flight, pushed, queue]
      have ⟨indexed, others⟩ := @setBurst_line _ i _ _ consistent.indexed inFlight
        { op with data := op.data ++ bytes } present rfl
      have ⟨moved, pipeline⟩ := @move_pipeline gl
        (pe.setBurst burstIdx { op with data := op.data ++ bytes })
        ⟨indexed, consistent.inspect, consistent.ciao⟩ _ _ _ _ queue
        (List.getElem?_set_self (consistent.indexed.bound inFlight))
      refine ⟨⟨moved.indexed, moved.inspect, moved.ciao⟩, rfl, rfl, op, _, oldest, waiting,
        .inr ⟨reading, _, reads, ?_⟩⟩
      refine pipeline.trans ?_
      -- the answer differs from the request, which is the head of its queue only
      have alone := indexed.nodup i
      simp only [flight, pushed, queue, List.cons_append, List.append_assoc] at alone
      rw [← List.append_assoc, List.nodup_middle, List.nodup_cons] at alone
      simp only [List.mem_append, not_or, Option.mem_toList] at alone
      obtain ⟨⟨⟨notResponded, notAnswered⟩, notSent, notQueued, notAsked⟩, _⟩ := alone
      have responded : burstIdx ∉ pe.burstRespQueue i ++ pe.answered i := by
        simp [notResponded, notAnswered]
      have later : burstIdx ∉ rest ++ pe.burstReqQueue i := by simp [notSent, notQueued]
      have asked : (pe.creating i).bind
          ((pe.bursts.set burstIdx { op with data := op.data ++ bytes })[·]?) =
          (pe.creating i).bind (pe.bursts[·]?) := by
        cases creating : pe.creating i with
        | none => rfl
        | some other =>
            have different : burstIdx ≠ other := by
              rintro rfl
              exact notAsked creating
            exact List.getElem?_set_ne different
      simp only [respond, setLine, Pe.pipeline, update_congr others]
      simp only [line, deref_set responded, asked, queue, List.cons_append,
        deref_cons present, deref_cons (List.getElem?_set_self (consistent.indexed.bound inFlight)),
        List.tail_cons, deref_set later]

theorem answer_refines {i : Port} (consistent : pe.Consistent) (ran : pe.answer i = some after) :
    Refines gl pe after := by
  obtain ⟨consistent', level, start, op, rest, _, waiting, answered⟩ :=
    @answer_pipeline gl _ _ _ consistent ran
  refine ⟨consistent', ?_, level, start⟩
  rcases answered with ⟨writing, ramData, written, same⟩ | ⟨reading, copied, reads, same⟩
  · exact same ▸ .single (.write waiting writing written)
  · exact same ▸ .single (.read waiting reading reads)

end Transport

/-- What a thread does from one `wait` to the next is a sequence of steps; only
`bfsController` changes the level and the start signal. -/
theorem resume_refines {thread : PeThread} {delay : Nat} (consistent : pe.Consistent)
    (other : thread ≠ .bfsController) (ran : resume gl thread pe = some (after, delay)) :
    Refines gl pe after := by
  cases thread with
  | sendMemReq =>
      cases ran
      exact sendMemReq_refines consistent
  | getMemResp =>
      cases ran
      exact getMemResp_refines consistent
  | issueInspectDepthReadReq prIdx => exact inspectDepthReqThread_refines consistent ran
  | processInspectDepthReadResp prIdx => exact inspectDepthRespThread_refines consistent ran
  | inspectDepthAnalysis => exact inspectDepthAnalysis_refines consistent ran
  | frontierAnalysis => exact frontierAnalysis_refines consistent ran
  | processExpandRpaoReadResp => exact processExpandRpaoReadResp_refines consistent ran
  | issueExpandCiaoReadReq => exact issueExpandCiaoReadReq_refines consistent ran
  | processExpandCiaoReadResp => exact processExpandCiaoReadResp_refines consistent ran
  | issueExpandDepthReadReq => exact issueExpandDepthReadReq_refines consistent ran
  | processExpandDepthReadResp => exact processExpandDepthReadResp_refines consistent ran
  | expandDepthAnalysis => exact expandDepthAnalysis_refines consistent ran
  | processExpandDepthWriteResp => exact processExpandDepthWriteResp_refines consistent ran
  | bfsController => exact absurd rfl other

theorem bfsController_eq (pe : Pe) : ∃ localCounter bfsIterationStart level,
    pe.bfsController = { pe with localCounter, bfsIterationStart, level } := by
  rw [bfsController]
  split
  · rename_i ends
    have empty : pe.burstOpStatus = [] := by
      simp only [endsLevel, isEndOfBfsIteration, Bool.and_eq_true, List.isEmpty_iff] at ends
      exact ends.1.1.1.1.1.1.1.2
    exact ⟨_, _, _, by rw [← empty]⟩
  · exact ⟨_, _, pe.level, rfl⟩

theorem bfsController_queues (pe : Pe) : pe.bfsController.toBurstQueues = pe.toBurstQueues := by
  obtain ⟨_, _, _, same⟩ := bfsController_eq pe
  rw [same]

theorem bfsController_pipeline (consistent : pe.Consistent) :
    pe.bfsController.Consistent ∧ pe.bfsController.pipeline gl = pe.pipeline gl := by
  obtain ⟨_, _, _, same⟩ := bfsController_eq pe
  rw [same]
  exact ⟨⟨consistent.indexed, consistent.inspect, consistent.ciao⟩, rfl⟩

end Pe

end GraphAccelerator
