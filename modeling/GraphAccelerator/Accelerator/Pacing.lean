import GraphAccelerator.Accelerator.Frames
import GraphAccelerator.Accelerator.Simulation

/-!
# The pace of the ciao responses

Nothing but the rates of two threads keeps `ciaoBuffer` small.  A response of `n` ints
takes `n` cycles and `issueExpandDepthReadReq` takes one int in each of them, so at
most one response and the slack of one visit are in the buffer.  The rest of the
accelerator appears here as what it may change around the two threads.
-/

namespace GraphAccelerator

open Memory Kernel

inductive CiaoThread where
  | processExpandCiaoReadResp
  | issueExpandDepthReadReq
  deriving DecidableEq, Repr

namespace Pe

def resumeCiao (gl : Gl) : CiaoThread → Pe → Option (Pe × Nat)
  | .processExpandCiaoReadResp, pe => pe.processExpandCiaoReadResp
  | .issueExpandDepthReadReq, pe => pe.issueExpandDepthReadReq gl

/-- A number stands for a response of 1 to `GL::baseLen/4` ints. -/
def CiaoResponse (pe : Pe) (burstIdx : Nat) : Prop :=
  ∃ op : BurstOp, pe.bursts[burstIdx]? = some op ∧ ∃ ints, op.length = 4 * ints ∧ 1 ≤ ints ∧
    ints ≤ Gl.baseLen / 4

/-- Around the two threads anything may change but what only they change; responses
arrive at any time. -/
structure AroundCiao (before after : Pe) : Prop where
  ciaoBuffer : after.ciaoBuffer = before.ciaoBuffer
  transfer : after.transfer 5 = before.transfer 5
  responses : ∃ more, after.burstRespQueue 5 = before.burstRespQueue 5 ++ more ∧
    ∀ burstIdx ∈ more, after.CiaoResponse burstIdx
  bursts : ∀ (burstIdx : Nat) (op : BurstOp), before.bursts[burstIdx]? = some op →
    ∃ op' : BurstOp, after.bursts[burstIdx]? = some op' ∧ op'.length = op.length

abbrev CiaoStep (gl : Gl) : Timed CiaoThread Pe → Timed CiaoThread Pe → Prop :=
  Step (fun thread _ before after delay => before.resumeCiao gl thread = some (after, delay))
    (fun _ => AroundCiao) id

/-- `processed` and `issued` are the times at which the two threads are due.  A transfer of
`n` ints makes room for one of them in each cycle, and `issued - now` is the visit of
this cycle. -/
structure Paced (now processed issued : Nat) (pe : Pe) : Prop where
  ahead : now ≤ issued
  soon : issued ≤ now + 1
  room : pe.ciaoBuffer.length + (issued - now) ≤ Gl.baseLen / 4 + 1
  transfer : ∀ burstIdx, pe.transfer 5 = some burstIdx →
    ∃ op : BurstOp, pe.bursts[burstIdx]? = some op ∧ op.length / 4 ≤ Gl.baseLen / 4 ∧ now ≤ processed ∧
      pe.ciaoBuffer.length + (issued - now) + (now + op.length / 4 - processed) ≤
        Gl.baseLen / 4 + 1
  responses : ∀ burstIdx ∈ pe.burstRespQueue 5, pe.CiaoResponse burstIdx

namespace Paced

variable {gl : Gl} {now processed issued delay : Nat} {pe after : Pe}

theorem around (paced : Paced now processed issued pe) (changed : AroundCiao pe after) :
    Paced now processed issued after where
  ahead := paced.ahead
  soon := paced.soon
  room := changed.ciaoBuffer ▸ paced.room
  transfer := by
    intro burstIdx transferred
    rw [changed.transfer] at transferred
    obtain ⟨op, present, short, running, room⟩ := paced.transfer burstIdx transferred
    obtain ⟨op', present', length⟩ := changed.bursts burstIdx op present
    rw [← length] at short room
    rw [← changed.ciaoBuffer] at room
    exact ⟨op', present', short, running, room⟩
  responses := by
    obtain ⟨more, queue, valid⟩ := changed.responses
    rw [queue]
    intro burstIdx membership
    rcases List.mem_append.mp membership with old | new
    · obtain ⟨op, present, ints, length, bounds⟩ := paced.responses burstIdx old
      obtain ⟨op', present', same⟩ := changed.bursts burstIdx op present
      exact ⟨op', present', ints, same.trans length, bounds⟩
    · exact valid burstIdx new

theorem advance (paced : Paced now processed issued pe) (processing : now < processed)
    (issuing : now < issued) : Paced (now + 1) processed issued pe where
  ahead := issuing
  soon := by have := paced.soon; omega
  room := by have := paced.room; omega
  transfer := by
    intro burstIdx transferred
    obtain ⟨op, present, short, running, room⟩ := paced.transfer burstIdx transferred
    have := paced.soon
    exact ⟨op, present, short, processing, by omega⟩
  responses := paced.responses

theorem visit (paced : Paced now processed now pe)
    (ran : pe.issueExpandDepthReadReq gl = some (after, delay)) :
    delay = 1 ∧ Paced now processed (now + 1) after := by
  obtain ⟨once, mid, settled, looped⟩ := issueExpandDepthReadReq_cases ran
  refine ⟨once, ?_⟩
  have same : mid.ciaoBuffer = pe.ciaoBuffer ∧ mid.transfer = pe.transfer ∧
      mid.burstRespQueue = pe.burstRespQueue ∧ mid.bursts = pe.bursts := by
    cases settled with
    | idle free => exact ⟨rfl, rfl, rfl, rfl⟩
    | pushed creating => exact ⟨rfl, rfl, rfl, rfl⟩
  obtain ⟨buffer, transfer, responses, bursts⟩ := same
  have small := paced.room
  cases looped with
  | empty empty =>
      rw [buffer] at empty
      refine ⟨by omega, by omega, by simp [buffer, empty], ?_, ?_⟩
      · intro burstIdx transferred
        rw [transfer] at transferred
        obtain ⟨op, present, short, running, _⟩ := paced.transfer burstIdx transferred
        refine ⟨op, bursts ▸ present, short, running, ?_⟩
        rw [buffer, empty, List.length_nil]
        omega
      · intro burstIdx membership
        rw [responses] at membership
        obtain ⟨op, present, bounds⟩ := paced.responses burstIdx membership
        exact ⟨op, bursts ▸ present, bounds⟩
  | full full =>
      rw [buffer] at full
      simp only [Gl.depthBufferDepth, Gl.baseLen] at full small
      omega
  | @asked vidx rest op taken _ _ _ _ =>
      rw [buffer] at taken
      have shorter : pe.ciaoBuffer.length = rest.length + 1 := by rw [taken, List.length_cons]
      have kept : ∀ {burstIdx : Nat} {other : BurstOp}, pe.bursts[burstIdx]? = some other →
          (pe.bursts ++ [op])[burstIdx]? = some other := fun present => by
        rw [List.getElem?_append_left (List.getElem?_eq_some_iff.mp present).1, present]
      simp only [created, bursts]
      refine ⟨by omega, by omega, by simp only; omega, ?_, ?_⟩
      · intro burstIdx transferred
        simp only [transfer] at transferred
        obtain ⟨other, present, short, running, room⟩ := paced.transfer burstIdx transferred
        exact ⟨other, kept present, short, running, by simp only; omega⟩
      · intro burstIdx membership
        simp only [responses] at membership
        obtain ⟨other, present, bounds⟩ := paced.responses burstIdx membership
        exact ⟨other, kept present, bounds⟩

theorem awaits (room : pe.ciaoBuffer.length + (issued - now) ≤ Gl.baseLen / 4 + 1)
    (ahead : now ≤ issued) (soon : issued ≤ now + 1)
    (responses : ∀ burstIdx ∈ pe.burstRespQueue 5, pe.CiaoResponse burstIdx)
    (awaited : Awaits 5 4 pe after delay) :
    Paced now (now + delay) issued after := by
  cases awaited with
  | nothing empty =>
      refine ⟨ahead, soon, room, fun burstIdx transferred => ?_, responses⟩
      simp at transferred
  | @response burstIdx rest op queue present =>
      refine ⟨ahead, soon, room, fun other transferred => ?_, responses⟩
      simp only [Function.update_self, Option.some.injEq] at transferred
      subst transferred
      obtain ⟨op', present', ints, length, _, short⟩ :=
        responses burstIdx (by rw [queue]; exact List.mem_cons_self)
      rw [present] at present'
      obtain rfl := Option.some.inj present'
      exact ⟨op, present, by omega, by omega, by simp only; omega⟩

theorem stores (paced : Paced now now issued pe)
    (ran : pe.processExpandCiaoReadResp = some (after, delay)) :
    Paced now (now + delay) issued after := by
  cases respThread_cases ran with
  | polled idle awaited => exact awaits paced.room paced.ahead paced.soon paced.responses awaited
  | @stored burstIdx op stored _ _ transferred present copied awaited =>
      obtain ⟨op', present', short, _, room⟩ := paced.transfer burstIdx transferred
      rw [present] at present'
      obtain rfl := Option.some.inj present'
      obtain ⟨words, converted, rfl⟩ := storeCiao_cases copied
      have length := toWords_length converted
      refine awaits ?_ paced.ahead paced.soon ?_ awaited
      · simp only [popped, List.length_append]
        omega
      · intro other membership
        simp only [popped, Function.update_self] at membership
        exact paced.responses other (List.mem_of_mem_tail membership)

end Paced

/-- The invariant over all steps of the two threads. -/
theorem paced_step {gl : Gl} {before after : Timed CiaoThread Pe}
    (paced : Paced before.now (before.due .processExpandCiaoReadResp)
      (before.due .issueExpandDepthReadReq) before.state)
    (stepped : CiaoStep gl before after) :
    Paced after.now (after.due .processExpandCiaoReadResp)
      (after.due .issueExpandDepthReadReq) after.state := by
  cases stepped with
  | @resume now due state final thread delay dueNow positive ran =>
      cases thread with
      | processExpandCiaoReadResp =>
          simp only [dueNow] at paced
          simpa using paced.stores ran
      | issueExpandDepthReadReq =>
          simp only [dueNow] at paced
          obtain ⟨rfl, visited⟩ := paced.visit ran
          simpa using visited
  | interfere changed => exact paced.around changed
  | advance waiting => exact paced.advance (waiting _) (waiting _)

theorem paced_reset (gl : Gl) (ramData : List Byte) : Paced 0 0 0 (reset gl ramData) where
  ahead := Nat.le_refl _
  soon := Nat.zero_le _
  room := Nat.zero_le _
  transfer := nofun
  responses := nofun

/-- From the start of the two threads on, in every order of their segments and with any
responses of 1 to `GL::baseLen/4` ints at any time, `ciaoBuffer` never holds more than
a response and one int, so `issueExpandDepthReadReq` never finds it full. -/
theorem ciaoBuffer_bounded {gl : Gl} {ramData : List Byte} {final : Timed CiaoThread Pe}
    (run : Relation.ReflTransGen (CiaoStep gl) ⟨0, fun _ => 0, reset gl ramData⟩ final) :
    final.state.ciaoBuffer.length ≤ Gl.baseLen / 4 + 1 ∧
      final.state.ciaoBuffer.length < Gl.depthBufferDepth := by
  have paced := invariant_of_step (fun timed => Paced timed.now
    (timed.due .processExpandCiaoReadResp) (timed.due .issueExpandDepthReadReq) timed.state)
    run (paced_reset gl ramData) fun _ _ => paced_step
  have room := paced.room
  simp only [Gl.baseLen, Gl.depthBufferDepth] at room ⊢
  omega

def threeInts (burstIdx : Nat) : BurstOp where
  type := .read
  portIdx := 5
  burstIdx
  peIdx := 0
  addr := 512
  length := 12
  data := [1, 0, 0, 0, 0, 0, 0, 0, 1, 0, 0, 0]

def arrive (pe : Pe) : Pe :=
  { pe with
    burstIdx := pe.burstIdx + 1
    bursts := pe.bursts ++ [threeInts pe.getBurstIdx]
    burstRespQueue := Function.update pe.burstRespQueue 5
      (pe.burstRespQueue 5 ++ [pe.getBurstIdx])
    counted := by simp [pe.counted] }

theorem around_arrive (pe : Pe) : AroundCiao pe pe.arrive := by
  refine ⟨rfl, rfl, ⟨[pe.bursts.length], by simp [arrive, getBurstIdx_eq], fun burstIdx membership => ?_⟩,
    fun burstIdx op present => ⟨op, ?_, rfl⟩⟩
  · obtain rfl := List.mem_singleton.mp membership
    exact ⟨_, List.getElem?_concat_length, 3, rfl, by decide⟩
  · rw [arrive, List.getElem?_append_left (List.getElem?_eq_some_iff.mp present).1, present]

theorem ciaoBuffer_bounded_responses : ∃ final : Timed CiaoThread Pe,
    Relation.ReflTransGen (CiaoStep (Gl.layout ⟨2, 113, false, []⟩))
      ⟨0, fun _ => 0, reset (Gl.layout ⟨2, 113, false, []⟩) []⟩ final ∧
      final.now = 6 ∧ final.state.ciaoBuffer = [1, 1, 0, 1] ∧
      final.state.ciaoBuffer.length ≤ Gl.baseLen / 4 + 1 ∧
      final.state.ciaoBuffer.length < Gl.depthBufferDepth := by
  generalize layout : Gl.layout ⟨2, 113, false, []⟩ = gl
  have played : ((rounds (fun _ => resumeCiao gl) (fun _ pe (_ : Unit) => some pe.arrive) id
      (fun _ => true) 0 ([(), ()] :: List.replicate 5 [])
      ([.issueExpandDepthReadReq, .processExpandCiaoReadResp].map (·, 0)) (reset gl [])).bind fun reached =>
          (resumeCiao gl .processExpandCiaoReadResp reached.2).map fun stored =>
            (dueAt reached.1 .processExpandCiaoReadResp, stored.2, stored.1.ciaoBuffer)) =
      some (6, 1, [1, 1, 0, 1]) := by
    rw [← layout]
    decide +kernel
  obtain ⟨⟨dues, pe⟩, ran, last⟩ := Option.bind_eq_some_iff.mp played
  obtain ⟨⟨after, delay⟩, stores, observed⟩ := Option.map_eq_some_iff.mp last
  simp only [Prod.mk.injEq] at observed
  obtain ⟨due, rfl, buffer⟩ := observed
  have replays : Replays (CiaoStep gl) (fun _ => resumeCiao gl)
      (fun _ pe (_ : Unit) => some pe.arrive) id fun _ => true :=
    replays_step (fun _ _ _ _ _ resumed => resumed)
      fun _ _ _ _ arrived => Option.some.inj arrived ▸ around_arrive _
  have run := (rounds_run replays (by decide) (fun thread => by cases thread <;> decide) ran).2
  rw [dueAt_zero] at run
  have stored := run.tail (.resume due Nat.one_pos stores)
  exact ⟨_, stored, rfl, buffer, ciaoBuffer_bounded stored⟩

/-! ### The whole accelerator -/

theorem CiaoResponse.grown {pe after : Pe} {burstIdx : Nat} (response : pe.CiaoResponse burstIdx)
    (grown : pe.bursts.map BurstOp.shape <+: after.bursts.map BurstOp.shape) :
    after.CiaoResponse burstIdx := by
  obtain ⟨op, present, ints, length, bounds⟩ := response
  obtain ⟨op', present', same⟩ := shape_prefix grown present
  exact ⟨op', present', ints, (shape_length same).trans length, bounds⟩

/-- The bursts of `issueExpandCiaoReadReq` are chunks of whole ints. -/
structure Chunked (pe : Pe) : Prop where
  flight : ∀ burstIdx ∈ pe.flight 5, pe.CiaoResponse burstIdx
  maxLen : 4 ∣ pe.ciaoReq.maxLen
  len : 4 ∣ pe.ciaoReq.len + pe.ciaoReq.actualLen

namespace Chunked

variable {gl : Gl} {pe after : Pe} {delay : Nat}

theorem moved (chunked : Chunked pe)
    (flight : ∀ burstIdx ∈ after.flight 5, burstIdx ∈ pe.flight 5)
    (grown : pe.bursts.map BurstOp.shape <+: after.bursts.map BurstOp.shape)
    (ciaoReq : after.ciaoReq = pe.ciaoReq) : Chunked after where
  flight burstIdx membership := (chunked.flight burstIdx (flight burstIdx membership)).grown grown
  maxLen := ciaoReq ▸ chunked.maxLen
  len := ciaoReq ▸ chunked.len

theorem loop {mid : Pe} (looped : CiaoLoop gl mid after) (chunked : Chunked mid)
    (free : mid.creating 5 = none) (outside : mid.ciaoReq.actualLen = 0) : Chunked after := by
  induction looped with
  | empty _ _ => exact chunked
  | full _ _ => exact chunked
  | row _ _ _ inductionHypothesis =>
      exact inductionHypothesis
        ⟨chunked.flight, by simp only [takenRow]; omega, by simp [takenRow]⟩ free rfl
  | @asked pe op more _ asks _ _ =>
      have multiple := chunked.maxLen
      have start := chunked.len
      rw [outside] at start
      have length : pe.ciaoLen = min 1024 (pe.ciaoReq.maxLen - pe.ciaoReq.len) := rfl
      refine ⟨fun burstIdx membership => ?_, multiple, by simp only [created]; omega⟩
      rw [created_flight (by exact free), List.mem_append, List.mem_singleton] at membership
      rcases membership with old | rfl
      · refine (chunked.flight burstIdx old).grown ?_
        exact ⟨[op.shape], by simp [created]⟩
      · refine ⟨op, by simp [created], pe.ciaoLen / 4, ?_, ?_, ?_⟩
        · rw [asks.length]
          omega
        · omega
        · simp only [Gl.baseLen]
          omega

theorem ask (chunked : Chunked pe) (consistent : pe.Consistent)
    (ran : pe.issueExpandCiaoReadReq gl = some (after, delay)) : Chunked after := by
  obtain ⟨_, mid, settled, looped⟩ := issueExpandCiaoReadReq_cases ran
  cases settled with
  | idle free => exact chunked.loop looped free (consistent.ciao free)
  | pushed creating =>
      refine loop looped ⟨fun burstIdx membership => ?_, chunked.maxLen, chunked.len⟩
        (by simp [pushBurst]) rfl
      exact chunked.flight burstIdx (by rw [← pushBurst_flight creating]; exact membership)

theorem resume {thread : PeThread} (chunked : Chunked pe) (consistent : pe.Consistent)
    (other : thread ≠ .bfsController) (ran : resume gl thread pe = some (after, delay)) :
    Chunked after := by
  have frame := resume_frame other ran
  by_cases asks : thread = .issueExpandCiaoReadReq
  · subst asks
    exact chunked.ask consistent ran
  by_cases takes : thread = .processExpandCiaoReadResp
  · subst takes
    refine chunked.moved (respThread_flight (fun op pe stored copied => ?_) ran 5) frame.bursts
      (frame.ciaoReq asks)
    obtain ⟨_, _, rfl⟩ := storeCiao_cases copied
    rfl
  · refine chunked.moved (fun burstIdx membership => ?_) frame.bursts (frame.ciaoReq asks)
    have elsewhere : thread.asks ≠ some 5 := fun same => asks (PeThread.asks_eq same)
    have keeps : thread.takes ≠ some 5 := fun same => takes (PeThread.takes_eq same)
    rw [← resume_flight other ran elsewhere keeps]
    exact membership

theorem answer {i : Port} (chunked : Chunked pe) (answered : pe.answer i = some after) :
    Chunked after := by
  obtain ⟨flight, shapes⟩ := answer_flight answered
  refine chunked.moved (fun burstIdx membership => flight ▸ membership)
    (shapes ▸ List.prefix_rfl) ?_
  cases answer_cases answered <;> rfl

theorem control (chunked : Chunked pe) : Chunked pe.bfsController := by
  obtain ⟨_, _, _, same⟩ := bfsController_eq pe
  rw [same]
  exact ⟨chunked.flight, chunked.maxLen, chunked.len⟩

theorem step {before after : Timed TimedThread Pe} (chunked : Chunked before.state)
    (onTime : OnTime before) (stepped : Cycle gl before after) : Chunked after.state := by
  cases stepped with
  | @resume _ _ _ _ thread _ _ _ ran =>
      exact chunked.resume onTime.consistent thread.property ran
  | interfere answered =>
      obtain ⟨i, answered⟩ := answered
      exact chunked.answer answered
  | advance _ => exact chunked.control

end Chunked

theorem chunked_reset (gl : Gl) (ramData : List Byte) : Chunked (reset gl ramData) :=
  ⟨nofun, Nat.dvd_zero 4, Nat.dvd_zero 4⟩

theorem AroundCiao.of_shapes {before after : Pe} (ciaoBuffer : after.ciaoBuffer = before.ciaoBuffer)
    (transfer : after.transfer 5 = before.transfer 5)
    (responses : ∃ more, after.burstRespQueue 5 = before.burstRespQueue 5 ++ more ∧
      ∀ burstIdx ∈ more, after.CiaoResponse burstIdx)
    (grown : before.bursts.map BurstOp.shape <+: after.bursts.map BurstOp.shape) :
    AroundCiao before after where
  ciaoBuffer := ciaoBuffer
  transfer := transfer
  responses := responses
  bursts burstIdx op present := by
    obtain ⟨op', present', same⟩ := shape_prefix grown present
    exact ⟨op', present', shape_length same⟩

theorem resume_around {gl : Gl} {thread : PeThread} {pe after : Pe} {delay : Nat}
    (chunked : Chunked pe) (controller : thread ≠ .bfsController)
    (stores : thread ≠ .processExpandCiaoReadResp) (issues : thread ≠ .issueExpandDepthReadReq)
    (ran : resume gl thread pe = some (after, delay)) : AroundCiao pe after := by
  have frame := resume_frame controller ran
  have takes : thread.takes ≠ some 5 := fun same => stores (PeThread.takes_eq same)
  refine .of_shapes (frame.ciaoBuffer stores issues) (frame.transfer 5 takes) ?_ frame.bursts
  by_cases reads : thread = .getMemResp
  · subst reads
    cases ran
    refine ⟨(pe.answered 5).take 1, rfl, fun burstIdx membership => ?_⟩
    refine chunked.flight burstIdx ?_
    simp [BurstQueues.flight, BurstQueues.pushed, List.mem_of_mem_take membership]
  · exact ⟨[], by rw [frame.burstRespQueue 5 takes reads, List.append_nil], by simp⟩

def ciaoTimed : CiaoThread → TimedThread
  | .processExpandCiaoReadResp => ⟨.processExpandCiaoReadResp, by decide⟩
  | .issueExpandDepthReadReq => ⟨.issueExpandDepthReadReq, by decide⟩

theorem ciaoTimed_injective : Function.Injective ciaoTimed := by
  intro thread other same
  cases thread <;> cases other <;> first | rfl | cases same

def ciaoView (timed : Timed TimedThread Pe) : Timed CiaoThread Pe :=
  ⟨timed.now, timed.due ∘ ciaoTimed, timed.state⟩

theorem cycle_ciaoSteps {gl : Gl} {before after : Timed TimedThread Pe}
    (chunked : Chunked before.state) (stepped : Cycle gl before after) :
    Relation.ReflTransGen (CiaoStep gl) (ciaoView before) (ciaoView after) := by
  cases stepped with
  | @resume now due pe final thread delay dueNow positive ran =>
      by_cases own : ∃ ciaoThread, ciaoTimed ciaoThread = thread
      · obtain ⟨ciaoThread, rfl⟩ := own
        have resumed : resumeCiao gl ciaoThread pe = some (final, delay) := by
          cases ciaoThread <;> exact ran
        rw [ciaoView, ciaoView, Function.update_comp_eq_of_injective due ciaoTimed_injective]
        exact .single (@Step.resume _ _ _ _ _ _ _ (due ∘ ciaoTimed) pe final ciaoThread delay
          dueNow positive resumed)
      · rw [not_exists] at own
        have stores : thread.val ≠ .processExpandCiaoReadResp := fun same =>
          own .processExpandCiaoReadResp (Subtype.ext same.symm)
        have issues : thread.val ≠ .issueExpandDepthReadReq := fun same =>
          own .issueExpandDepthReadReq (Subtype.ext same.symm)
        rw [ciaoView, ciaoView, Function.update_comp_eq_of_forall_ne due _ own]
        exact .single (.interfere (resume_around chunked thread.property stores issues ran))
  | @interfere now due pe final answered =>
      obtain ⟨i, answered⟩ := answered
      refine .single (.interfere (.of_shapes ?_ ?_ ⟨[], ?_, nofun⟩ ?_))
      · cases answer_cases answered <;> rfl
      · cases answer_cases answered <;> rfl
      · rw [List.append_nil]
        cases answer_cases answered <;> rfl
      · exact (answer_flight answered).2 ▸ List.prefix_rfl
  | @advance now due pe waiting =>
      have around : AroundCiao pe pe.bfsController := by
        obtain ⟨_, _, _, same⟩ := bfsController_eq pe
        rw [same]
        exact .of_shapes rfl rfl ⟨[], (List.append_nil _).symm, nofun⟩ List.prefix_rfl
      exact .head (.interfere around) (.single (.advance fun thread => waiting _))

/-- The bound holds in every run of the accelerator. -/
theorem paced_run {gl : Gl} {ramData : List Byte} {final : Timed TimedThread Pe}
    (run : Relation.ReflTransGen (Cycle gl) (start gl ramData) final) :
    OnTime final ∧ Chunked final.state ∧ Paced final.now
      (final.due (ciaoTimed .processExpandCiaoReadResp))
      (final.due (ciaoTimed .issueExpandDepthReadReq)) final.state := by
  refine invariant_of_step (fun timed => OnTime timed ∧ Chunked timed.state ∧ Paced timed.now
    (timed.due (ciaoTimed .processExpandCiaoReadResp))
    (timed.due (ciaoTimed .issueExpandDepthReadReq)) timed.state) run
    ⟨onTime_start gl ramData, (chunked_reset gl ramData).control, ?_⟩ ?_
  · exact ⟨Nat.le_refl _, Nat.zero_le _, Nat.zero_le _, nofun, nofun⟩
  · intro before after ⟨onTime, chunked, paced⟩ stepped
    exact ⟨onTime_step onTime stepped, chunked.step onTime stepped,
      invariant_of_step (fun timed => Paced timed.now (timed.due .processExpandCiaoReadResp)
        (timed.due .issueExpandDepthReadReq) timed.state) (cycle_ciaoSteps chunked stepped) paced
        fun _ _ => paced_step⟩

end Pe

end GraphAccelerator
