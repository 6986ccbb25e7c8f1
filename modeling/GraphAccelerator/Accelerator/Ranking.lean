import Mathlib.Algebra.BigOperators.Fin
import Mathlib.Algebra.Order.BigOperators.Group.Finset
import GraphAccelerator.Library.Kernel
import GraphAccelerator.Accelerator.Pacing
import GraphAccelerator.Accelerator.Registry
import GraphAccelerator.Accelerator.Waits

/-!
# A level can always be drained

From every state of a level there is an order of the threads that drains it, as long as
`ciaoBuffer` is not full: the depths of the neighbours are asked for before the next
columns arrive.  Whatever moves on lowers a rank that looks at the stages from the
inspection to the writes.
-/

namespace GraphAccelerator

open Memory Ranks

def BurstQueues.places (queues : BurstQueues) (i : Port) : Nat :=
  6 * (queues.creating i).toList.length + 5 * (queues.burstReqQueue i).length +
    4 * (queues.sent i).length + 3 * (queues.answered i).length +
    2 * (queues.burstRespQueue i).length + (1 - (queues.transfer i).toList.length)

namespace Pe

/-- The entries of the stages of a level, and the bursts between them. -/
def rank (gl : Gl) (pe : Pe) : List Nat :=
  [∑ i : Part, (inspectSpan gl pe.inspectReq i).left, ∑ i : Part, pe.places i.port,
    ∑ i : Part, (pe.depthBuffer0 i).length, pe.frontierBuffer.length, pe.places 4,
    pe.rpaoBuffer.length, pe.ciaoReq.maxLen - (pe.ciaoReq.len + pe.ciaoReq.actualLen),
    pe.places 5, pe.ciaoBuffer.length, pe.places 6, pe.depthBuffer1.length, pe.places 7]

section Rank

variable {gl : Gl} {thread : PeThread} {pe mid after : Pe} {i : Port} {delay : Nat}

theorem Frame.places (frame : Frame thread pe after) (asks : thread.asks ≠ some i)
    (takes : thread.takes ≠ some i) (sends : thread ≠ .sendMemReq)
    (reads : thread ≠ .getMemResp) : after.places i = pe.places i := by
  simp only [BurstQueues.places, frame.creating i asks, frame.burstReqQueue i asks sends,
    frame.sent sends, frame.answered reads, frame.burstRespQueue i takes reads,
    frame.transfer i takes]

theorem sum_places_lt {before after : BurstQueues} (le : ∀ j, after.places j ≤ before.places j)
    {part : Part} (less : after.places part.port < before.places part.port) :
    ∑ j : Part, after.places j.port < ∑ j : Part, before.places j.port :=
  Finset.sum_lt_sum (fun j _ => le j.port) ⟨part, Finset.mem_univ _, less⟩

theorem descends_of_queues {queues : BurstQueues} {ramData : List Byte}
    (le : ∀ j, queues.places j ≤ pe.places j) (less : queues.places i < pe.places i) :
    Descends (pe.rank gl) (rank gl { pe with toBurstQueues := queues, ramData }) := by
  have parts : ∑ j : Part, queues.places j.port ≤ ∑ j : Part, pe.places j.port :=
    Finset.sum_le_sum fun j _ => le j.port
  have four := le 4
  have five := le 5
  have six := le 6
  simp only [rank, Descends, List.length_cons, List.length_nil, lt_self_iff_false, le_refl,
    true_and, and_true, and_false, or_false, false_or]
  rcases Port.cases i with ⟨part, rfl⟩ | rfl | rfl | rfl | rfl
  · have total := sum_places_lt le less
    omega
  all_goals omega

theorem sendMemReq_descends (queued : pe.burstReqQueue i ≠ []) :
    Descends (pe.rank gl) (pe.sendMemReq.rank gl) := by
  have moved : ∀ j, pe.sendMemReq.places j + (pe.burstReqQueue j).length =
      pe.places j + (pe.burstReqQueue j).tail.length := by
    intro j
    cases queue : pe.burstReqQueue j with
    | nil => simp [BurstQueues.places, sendMemReq, queue]
    | cons burstIdx rest =>
        simp only [BurstQueues.places, sendMemReq, queue, List.length_append, List.take_succ_cons,
          List.take_zero, List.length_cons, List.length_nil, List.tail_cons]
        omega
  have length := List.length_pos_iff.mpr queued
  simp only [List.length_tail] at moved
  refine @descends_of_queues gl pe i pe.sendMemReq.toBurstQueues pe.ramData (fun j => ?_) ?_
  · have := moved j
    omega
  · have := moved i
    omega

theorem getMemResp_descends (queued : pe.answered i ≠ []) :
    Descends (pe.rank gl) (pe.getMemResp.rank gl) := by
  have moved : ∀ j, pe.getMemResp.places j + (pe.answered j).length =
      pe.places j + (pe.answered j).tail.length := by
    intro j
    cases queue : pe.answered j with
    | nil => simp [BurstQueues.places, getMemResp, queue]
    | cons burstIdx rest =>
        simp only [BurstQueues.places, getMemResp, queue, List.length_append, List.take_succ_cons,
          List.take_zero, List.length_cons, List.length_nil, List.tail_cons]
        omega
  have length := List.length_pos_iff.mpr queued
  simp only [List.length_tail] at moved
  refine @descends_of_queues gl pe i pe.getMemResp.toBurstQueues pe.ramData (fun j => ?_) ?_
  · have := moved j
    omega
  · have := moved i
    omega

theorem answer_descends (ran : pe.answer i = some after) :
    Descends (pe.rank gl) (after.rank gl) := by
  have moved : ∀ {queues : BurstQueues} {burstIdx : Nat} {rest : List Nat},
      pe.sent i = burstIdx :: rest → queues.sent = Function.update pe.sent i rest →
      queues.answered = Function.update pe.answered i (pe.answered i ++ [burstIdx]) →
      queues.creating = pe.creating → queues.transfer = pe.transfer →
      queues.burstReqQueue = pe.burstReqQueue → queues.burstRespQueue = pe.burstRespQueue →
      ∀ j, queues.places j + (if j = i then 1 else 0) = pe.places j := by
    intro queues burstIdx rest queue sent answered creating transfer requests responses j
    rw [BurstQueues.places, sent, answered, creating, transfer, requests, responses]
    by_cases here : j = i
    · subst here
      simp only [BurstQueues.places, queue, Function.update_self, List.length_append,
        List.length_cons, List.length_nil, if_true]
      omega
    · simp only [BurstQueues.places, Function.update_of_ne here, if_neg here, Nat.add_zero]
  have queues : after = { pe with toBurstQueues := after.toBurstQueues, ramData := after.ramData } ∧
      ∀ j, after.places j + (if j = i then 1 else 0) = pe.places j := by
    cases answer_cases ran with
    | write queue _ _ _ => exact ⟨rfl, moved queue rfl rfl rfl rfl rfl rfl⟩
    | read queue _ _ _ => exact ⟨rfl, moved queue rfl rfl rfl rfl rfl rfl⟩
  rw [queues.1]
  refine @descends_of_queues gl pe i after.toBurstQueues after.ramData (fun j => ?_) ?_
  · have := queues.2 j
    omega
  · have := queues.2 i
    rw [if_pos rfl] at this
    omega

/-! ### Responses -/

/-- A response thread with a response gets one step further with it. -/
theorem QueueStep.places_lt (stepped : QueueStep pe thread after)
    (takes : thread.takes = some i) (queued : pe.burstRespQueue i ≠ []) :
    after.places i < pe.places i := by
  obtain ⟨burstIdx, rest, queue⟩ := List.exists_cons_of_ne_nil queued
  have awaits : ∀ {mid : Pe} {size delay : Nat}, mid.transfer i = none →
      Awaits i size mid after delay → after.places i ≤ mid.places i ∧
        (mid.burstRespQueue i ≠ [] → after.places i < mid.places i) := by
    intro mid size delay idle awaited
    cases awaited with
    | nothing empty => simp [BurstQueues.places, idle, empty]
    | response queue _ =>
        simp only [BurstQueues.places, idle, Function.update_self, Option.toList_some,
          Option.toList_none, List.length_cons, List.length_nil]
        omega
  cases stepped with
  | kept _ | sent | read => cases takes
  | asked asks _ _ _ =>
      rw [PeThread.asks_or_takes asks] at takes
      cases takes
  | @polled _ _ port _ _ same idle awaited =>
      obtain rfl := Option.some.inj (takes.symm.trans same)
      exact (awaits idle awaited).2 queued
  | @stored _ mid _ port burstIdx' _ _ _ same transfer _ queues awaited =>
      obtain rfl := Option.some.inj (takes.symm.trans same)
      have idle : mid.transfer i = none := by
        rw [queues]
        exact Function.update_self ..
      have less : mid.places i < pe.places i := by
        rw [queues]
        simp only [BurstQueues.places, popped, Function.update_self, queue, transfer,
          Option.toList_some, Option.toList_none, List.length_cons, List.length_nil,
          List.tail_cons]
        omega
      exact Nat.lt_of_le_of_lt (awaits idle awaited).1 less
  | dropped =>
      obtain rfl := Option.some.inj takes
      simp only [BurstQueues.places, Function.update_self, queue, List.length_cons,
        List.length_nil]
      omega

theorem response_descends (takes : thread.takes = some i)
    (queued : pe.burstRespQueue i ≠ []) (ran : pe.resume gl thread = some (after, delay)) :
    Descends (pe.rank gl) (after.rank gl) := by
  have other : thread ≠ .bfsController := by
    rintro rfl
    cases takes
  have less := (resume_queueStep other ran).places_lt takes queued
  have frame := resume_frame other ran
  have asks : thread.asks = none := by
    cases same : thread.asks with
    | none => rfl
    | some _ =>
        rw [PeThread.asks_or_takes same] at takes
        cases takes
  have le : ∀ j, after.places j ≤ pe.places j := by
    intro j
    by_cases here : j = i
    · exact here ▸ Nat.le_of_lt less
    · refine Nat.le_of_eq (frame.places (by simp [asks]) (by simp [takes, Ne.symm here]) ?_ ?_) <;>
      · rintro rfl
        cases takes
  have parts : ∑ j : Part, after.places j.port ≤ ∑ j : Part, pe.places j.port :=
    Finset.sum_le_sum fun j _ => le j.port
  have four := le 4
  have five := le 5
  have six := le 6
  have inspectReq : after.inspectReq = pe.inspectReq := funext fun j =>
    frame.inspectReq j (by rintro rfl; cases takes)
  have frontier := congrArg List.length (frame.frontierBuffer (by rintro rfl; cases takes)
    (by rintro rfl; cases takes))
  have ciaoReq := frame.ciaoReq (by rintro rfl; cases takes)
  rcases Port.cases i with ⟨part, rfl⟩ | rfl | rfl | rfl | rfl
  · have total := sum_places_lt le less
    simp only [rank, Descends, inspectReq, List.length_cons, List.length_nil, le_refl, true_and,
      and_true]
    omega
  · obtain rfl : thread = .processExpandRpaoReadResp := PeThread.takes_eq takes
    have depthBuffer0 : after.depthBuffer0 = pe.depthBuffer0 :=
      funext fun j => frame.depthBuffer0 j (by simp) (by simp)
    simp only [rank, Descends, inspectReq, depthBuffer0, List.length_cons, List.length_nil,
      le_refl, true_and, and_true]
    omega
  · obtain rfl : thread = .processExpandCiaoReadResp := PeThread.takes_eq takes
    have depthBuffer0 : after.depthBuffer0 = pe.depthBuffer0 :=
      funext fun j => frame.depthBuffer0 j (by simp) (by simp)
    have rpaoBuffer := congrArg List.length (frame.rpaoBuffer (by simp) (by simp))
    simp only [rank, Descends, inspectReq, depthBuffer0, ciaoReq, List.length_cons,
      List.length_nil, le_refl, true_and, and_true]
    omega
  · obtain rfl : thread = .processExpandDepthReadResp := PeThread.takes_eq takes
    have depthBuffer0 : after.depthBuffer0 = pe.depthBuffer0 :=
      funext fun j => frame.depthBuffer0 j (by simp) (by simp)
    have rpaoBuffer := congrArg List.length (frame.rpaoBuffer (by simp) (by simp))
    have ciaoBuffer := congrArg List.length (frame.ciaoBuffer (by simp) (by simp))
    simp only [rank, Descends, inspectReq, depthBuffer0, ciaoReq, List.length_cons,
      List.length_nil, le_refl, true_and, and_true]
    omega
  · obtain rfl : thread = .processExpandDepthWriteResp := PeThread.takes_eq takes
    have depthBuffer0 : after.depthBuffer0 = pe.depthBuffer0 :=
      funext fun j => frame.depthBuffer0 j (by simp) (by simp)
    have rpaoBuffer := congrArg List.length (frame.rpaoBuffer (by simp) (by simp))
    have ciaoBuffer := congrArg List.length (frame.ciaoBuffer (by simp) (by simp))
    have depthBuffer1 := congrArg List.length (frame.depthBuffer1 (by simp) (by simp))
    simp only [rank, Descends, inspectReq, depthBuffer0, ciaoReq, List.length_cons,
      List.length_nil, le_refl, true_and, and_true]
    omega

/-! ### Requests -/

theorem pushBurst_places {burstIdx : Nat} (creating : pe.creating i = some burstIdx) :
    (pe.pushBurst i burstIdx).places i < pe.places i := by
  simp only [BurstQueues.places, pushBurst, creating, Function.update_self, List.length_append,
    List.length_cons, List.length_nil, Option.toList_some, Option.toList_none]
  omega

theorem Pushes.places_lt (pushes : Pushes i pe mid) (creating : pe.creating i ≠ none) :
    mid.places i < pe.places i := by
  cases pushes with
  | nothing free _ => exact absurd free creating
  | pushed creating same => exact same ▸ pushBurst_places creating
  | @filled burstIdx op byte _ creating _ same =>
      rw [same]
      exact @pushBurst_places (pe.setBurst burstIdx { op with data := op.data ++ [byte] }) i
        burstIdx creating

theorem Frame.sum_places (frame : Frame thread pe after) (asks : thread.asks = some i)
    (behind : 4 ≤ i.val) :
    ∑ j : Part, after.places j.port = ∑ j : Part, pe.places j.port := by
  refine Finset.sum_congr rfl fun j _ => frame.places ?_ ?_ ?_ ?_
  · rw [asks, ne_eq, Option.some.injEq]
    exact (Pe.port_ne j behind).symm
  · rw [PeThread.asks_or_takes asks]
    simp
  all_goals
    rintro rfl
    cases asks

theorem frontierAnalysis_descends (ran : pe.frontierAnalysis gl = some (after, delay))
    (work : pe.creating 4 ≠ none ∨
      pe.frontierBuffer ≠ [] ∧ pe.rpaoBuffer.length + 2 < Gl.rpaoBufferDepth) :
    Descends (pe.rank gl) (after.rank gl) := by
  have frame := frontierAnalysis_frame ran
  have parts := frame.sum_places rfl (by decide)
  have inspectReq : after.inspectReq = pe.inspectReq := funext fun j => frame.inspectReq j (by simp)
  have depthBuffer0 : after.depthBuffer0 = pe.depthBuffer0 :=
    funext fun j => frame.depthBuffer0 j (by simp) (by simp)
  obtain ⟨_, mid, settled, looped⟩ := frontierAnalysis_cases ran
  have buffer : mid.frontierBuffer = pe.frontierBuffer ∧ mid.rpaoBuffer = pe.rpaoBuffer := by
    cases settled <;> exact ⟨rfl, rfl⟩
  have shorter : after.frontierBuffer.length < pe.frontierBuffer.length ∨
      after.frontierBuffer.length ≤ pe.frontierBuffer.length ∧ after.places 4 < pe.places 4 := by
    have pushed : pe.creating 4 ≠ none ∨ False → mid.places 4 < pe.places 4 := by
      rintro (creating | absurd)
      · exact settled.pushes.places_lt creating
      · exact absurd.elim
    cases looped with
    | empty none =>
        rw [buffer.1] at none
        exact .inr ⟨Nat.le_of_eq (congrArg _ buffer.1), pushed (work.imp_right fun more =>
          more.1 none)⟩
    | full _ full =>
        rw [buffer.2] at full
        exact .inr ⟨Nat.le_of_eq (congrArg _ buffer.1), pushed (work.imp_right fun more =>
          absurd more.2 (by omega))⟩
    | asked same _ _ _ _ =>
        rw [buffer.1] at same
        refine .inl ?_
        simp [created, same]
  simp only [rank, Descends, inspectReq, depthBuffer0, parts, List.length_cons, List.length_nil,
    le_refl, true_and, and_true]
  omega

theorem CiaoLoop.progress (looped : CiaoLoop gl pe after) (outside : pe.ciaoReq.actualLen = 0) :
    after = pe ∧ (pe.ciaoReq.len < pe.ciaoReq.maxLen →
        Gl.ciaoBufferDepth ≤ pe.ciaoBuffer.length + pe.ciaoLen / 4) ∧
      (pe.ciaoReq.maxLen ≤ pe.ciaoReq.len → pe.rpaoBuffer.length < 2) ∨
      after.rpaoBuffer.length < pe.rpaoBuffer.length ∨
      after.rpaoBuffer.length = pe.rpaoBuffer.length ∧
        after.ciaoReq.maxLen - (after.ciaoReq.len + after.ciaoReq.actualLen) <
          pe.ciaoReq.maxLen - pe.ciaoReq.len := by
  induction looped with
  | empty finished none => exact .inl ⟨rfl, fun more => by omega, fun _ => none⟩
  | @row pe after srcIdx dstIdx rest _ buffer _ inductionHypothesis =>
      have shorter : (pe.takenRow gl srcIdx dstIdx rest).rpaoBuffer.length + 2 =
          pe.rpaoBuffer.length := by rw [buffer]; rfl
      rcases inductionHypothesis rfl with ⟨rfl, _⟩ | less | ⟨same, _⟩ <;>
        exact .inr (.inl (by omega))
  | full more full => exact .inl ⟨rfl, fun _ => full, fun finished => by omega⟩
  | @asked pe op more _ _ _ _ =>
      have positive : 0 < pe.ciaoLen := by
        simp only [ciaoLen, Gl.baseLen]
        omega
      refine .inr (.inr ⟨rfl, ?_⟩)
      simp only [created]
      omega

theorem issueExpandCiaoReadReq_descends (ran : pe.issueExpandCiaoReadReq gl = some (after, delay))
    (outside : pe.creating 5 = none → pe.ciaoReq.actualLen = 0)
    (work : pe.creating 5 ≠ none ∨
      (pe.ciaoReq.len < pe.ciaoReq.maxLen ∧
        pe.ciaoBuffer.length + pe.ciaoLen / 4 < Gl.ciaoBufferDepth) ∨
      (pe.ciaoReq.maxLen ≤ pe.ciaoReq.len ∧ 2 ≤ pe.rpaoBuffer.length)) :
    Descends (pe.rank gl) (after.rank gl) := by
  have frame := issueExpandCiaoReadReq_frame ran
  have parts := frame.sum_places rfl (by decide)
  have inspectReq : after.inspectReq = pe.inspectReq := funext fun j => frame.inspectReq j (by simp)
  have depthBuffer0 : after.depthBuffer0 = pe.depthBuffer0 :=
    funext fun j => frame.depthBuffer0 j (by simp) (by simp)
  have frontierBuffer := frame.frontierBuffer (by simp) (by simp)
  have four : after.places 4 = pe.places 4 :=
    frame.places (by simp [PeThread.asks]) (by simp [PeThread.takes]) (by simp) (by simp)
  obtain ⟨_, mid, settled, looped⟩ := issueExpandCiaoReadReq_cases ran
  have lower : after.rpaoBuffer.length < pe.rpaoBuffer.length ∨
      after.rpaoBuffer.length = pe.rpaoBuffer.length ∧
        (after.ciaoReq.maxLen - (after.ciaoReq.len + after.ciaoReq.actualLen) <
            pe.ciaoReq.maxLen - (pe.ciaoReq.len + pe.ciaoReq.actualLen) ∨
          after.ciaoReq.maxLen - (after.ciaoReq.len + after.ciaoReq.actualLen) =
              pe.ciaoReq.maxLen - (pe.ciaoReq.len + pe.ciaoReq.actualLen) ∧
            after.places 5 < pe.places 5) := by
    cases settled with
    | idle free =>
        have none := outside free
        rcases looped.progress none with ⟨_, full, few⟩ | less | ⟨same, less⟩
        · rcases work with creating | ⟨more, room⟩ | ⟨finished, pair⟩
          · exact absurd free creating
          · exact absurd (full more) (Nat.not_le.mpr room)
          · exact absurd (few finished) (Nat.not_lt.mpr pair)
        · exact .inl less
        · exact .inr ⟨same, .inl (by omega)⟩
    | @pushed burstIdx creating =>
        rcases looped.progress rfl with ⟨same, _⟩ | less | ⟨same, less⟩
        · have pushed := pushBurst_places creating
          rw [same]
          exact .inr ⟨rfl, .inr ⟨rfl, pushed⟩⟩
        · exact .inl less
        · exact .inr ⟨same, .inl less⟩
  simp only [rank, Descends, inspectReq, depthBuffer0, frontierBuffer, four, parts,
    List.length_cons, List.length_nil, le_refl, true_and, and_true]
  omega

theorem issueExpandDepthReadReq_descends
    (ran : pe.issueExpandDepthReadReq gl = some (after, delay))
    (work : pe.creating 6 ≠ none ∨
      pe.ciaoBuffer ≠ [] ∧ pe.ciaoBuffer.length < Gl.depthBufferDepth) :
    Descends (pe.rank gl) (after.rank gl) := by
  have frame := issueExpandDepthReadReq_frame ran
  have parts := frame.sum_places rfl (by decide)
  have inspectReq : after.inspectReq = pe.inspectReq := funext fun j => frame.inspectReq j (by simp)
  have depthBuffer0 : after.depthBuffer0 = pe.depthBuffer0 :=
    funext fun j => frame.depthBuffer0 j (by simp) (by simp)
  have frontierBuffer := frame.frontierBuffer (by simp) (by simp)
  have rpaoBuffer := frame.rpaoBuffer (by simp) (by simp)
  have ciaoReq := frame.ciaoReq (by simp)
  have four : after.places 4 = pe.places 4 :=
    frame.places (by simp [PeThread.asks]) (by simp [PeThread.takes]) (by simp) (by simp)
  have five : after.places 5 = pe.places 5 :=
    frame.places (by simp [PeThread.asks]) (by simp [PeThread.takes]) (by simp) (by simp)
  obtain ⟨_, mid, settled, looped⟩ := issueExpandDepthReadReq_cases ran
  have buffer : mid.ciaoBuffer = pe.ciaoBuffer := by cases settled <;> rfl
  have lower : after.ciaoBuffer.length < pe.ciaoBuffer.length ∨
      after.ciaoBuffer.length = pe.ciaoBuffer.length ∧ after.places 6 < pe.places 6 := by
    cases looped with
    | empty none =>
        rw [buffer] at none
        exact .inr ⟨congrArg _ buffer, settled.pushes.places_lt
          (work.resolve_right fun more => more.1 none)⟩
    | full full =>
        rw [buffer] at full
        exact .inr ⟨congrArg _ buffer, settled.pushes.places_lt
          (work.resolve_right fun more => by omega)⟩
    | asked same _ _ _ _ =>
        rw [buffer] at same
        exact .inl (by simp [created, same])
  simp only [rank, Descends, inspectReq, depthBuffer0, frontierBuffer, rpaoBuffer, ciaoReq, four,
    five, parts, List.length_cons, List.length_nil, le_refl, true_and, and_true]
  omega

/-- A depth is taken, unless there is none. -/
theorem ExpandLoop.progress (looped : ExpandLoop gl pe after)
    (room : pe.depthBuffer2.length ≤ Gl.depthBufferDepth) :
    after = pe ∧ pe.depthBuffer1 = [] ∨ after.depthBuffer1.length < pe.depthBuffer1.length := by
  induction looped with
  | empty none => exact .inl ⟨rfl, none⟩
  | full full => omega
  | visited buffer _ _ _ inductionHypothesis =>
      rw [buffer]
      rcases inductionHypothesis room with ⟨rfl, _⟩ | less
      · exact .inr (Nat.lt_succ_self _)
      · exact .inr (Nat.lt_succ_of_lt less)
  | fresh buffer _ _ _ _ => exact .inr (by simp [created, buffer])

theorem expandDepthAnalysis_descends (ran : pe.expandDepthAnalysis gl = some (after, delay))
    (room : pe.depthBuffer2.length ≤ Gl.depthBufferDepth)
    (work : pe.creating 7 ≠ none ∨ pe.depthBuffer1 ≠ []) :
    Descends (pe.rank gl) (after.rank gl) := by
  have frame := expandDepthAnalysis_frame ran
  have parts := frame.sum_places rfl (by decide)
  have inspectReq : after.inspectReq = pe.inspectReq := funext fun j => frame.inspectReq j (by simp)
  have depthBuffer0 : after.depthBuffer0 = pe.depthBuffer0 :=
    funext fun j => frame.depthBuffer0 j (by simp) (by simp)
  have frontierBuffer := frame.frontierBuffer (by simp) (by simp)
  have rpaoBuffer := frame.rpaoBuffer (by simp) (by simp)
  have ciaoReq := frame.ciaoReq (by simp)
  have ciaoBuffer := frame.ciaoBuffer (by simp) (by simp)
  have others : ∀ i : Port, i ≠ 7 → after.places i = pe.places i := fun i other =>
    frame.places (by simpa [PeThread.asks] using other.symm) (by simp [PeThread.takes]) (by simp)
      (by simp)
  obtain ⟨_, mid, settled, looped⟩ := expandDepthAnalysis_cases ran
  have buffers : mid.depthBuffer1 = pe.depthBuffer1 ∧
      mid.depthBuffer2.length ≤ pe.depthBuffer2.length := by
    cases settled with
    | idle _ => exact ⟨rfl, Nat.le_refl _⟩
    | pushed _ _ same => exact ⟨rfl, by simp [same, pushBurst]⟩
  have pushes : Pushes 7 pe mid := by
    cases settled with
    | idle free => exact .nothing free rfl
    | pushed creating present _ => exact .filled rfl creating present rfl
  have lower : after.depthBuffer1.length < pe.depthBuffer1.length ∨
      after.depthBuffer1.length = pe.depthBuffer1.length ∧ after.places 7 < pe.places 7 := by
    rcases looped.progress (buffers.2.trans room) with ⟨rfl, none⟩ | less
    · rw [buffers.1] at none
      exact .inr ⟨congrArg _ buffers.1, pushes.places_lt (work.resolve_right fun more => more none)⟩
    · exact .inl (buffers.1 ▸ less)
  simp only [rank, Descends, inspectReq, depthBuffer0, frontierBuffer, rpaoBuffer, ciaoReq,
    ciaoBuffer, others 4 (by decide), others 5 (by decide), others 6 (by decide), parts,
    List.length_cons, List.length_nil, le_refl, true_and, and_true]
  omega

/-! ### Inspection -/

theorem inspectDepthAnalysis_descends {part : Part}
    (ran : pe.inspectDepthAnalysis gl = some (after, delay))
    (started : pe.bfsIterationStart = false)
    (room : pe.frontierBuffer.length < Gl.frontierBufferDepth)
    (work : pe.depthBuffer0 part ≠ []) : Descends (pe.rank gl) (after.rank gl) := by
  have frame := inspectDepthAnalysis_frame ran
  have inspectReq : after.inspectReq = pe.inspectReq := funext fun j => frame.inspectReq j (by simp)
  have parts : ∑ j : Part, after.places j.port = ∑ j : Part, pe.places j.port := by
    rw [inspectDepthAnalysis_queues ran]
  have same : pe.restartedIdx gl = pe := by rw [restartedIdx, if_neg (by simp [started])]
  obtain ⟨_, mid, looped, rfl⟩ := inspectDepthAnalysis_cases ran
  rw [same] at looped
  have lower : ∑ j : Part, ((mid.checkDone gl).depthBuffer0 j).length <
      ∑ j : Part, (pe.depthBuffer0 j).length := by
    have checked : (mid.checkDone gl).depthBuffer0 = mid.depthBuffer0 := by
      rw [checkDone]
      split <;> rfl
    rw [checked]
    cases looped with
    | empty none => exact absurd (none part) work
    | full full => omega
    | analysed _ =>
        rw [inspectDepth_all]
        refine Finset.sum_lt_sum (fun j _ => ?_) ⟨part, Finset.mem_univ _, ?_⟩
        · simp [analysed]
        · have := List.length_pos_iff.mpr work
          simp only [analysed, List.length_tail]
          omega
  simp only [rank, Descends, inspectReq, parts, List.length_cons, List.length_nil, le_refl,
    true_and, and_true]
  omega

theorem InspectLoop.progress {part : Part} (looped : InspectLoop gl part pe after)
    (outside : (pe.inspectReq part).actualLen = 0) :
    after = pe ∧ ((pe.inspectReq part).currentLen < gl.maxLen part →
        Gl.depthBufferDepth < (pe.depthBuffer0 part).length + pe.inspectLen gl part) ∨
      (inspectSpan gl after.inspectReq part).left <
        (inspectSpan gl pe.inspectReq part).left := by
  cases looped with
  | finished finished => exact .inl ⟨rfl, fun more => by omega⟩
  | full _ full => exact .inl ⟨rfl, fun _ => full⟩
  | asked more _ _ _ _ =>
      refine .inr ?_
      have positive : 0 < pe.inspectLen gl part := by
        simp only [inspectLen, Gl.baseLen]
        omega
      simp only [created, inspectSpan, Function.update_self, outside]
      omega

theorem inspectDepthReqThread_descends {part : Part}
    (ran : pe.inspectDepthReqThread gl part = some (after, delay))
    (started : pe.bfsIterationStart = false)
    (outside : pe.creating part.port = none → (pe.inspectReq part).actualLen = 0)
    (work : pe.creating part.port ≠ none ∨
      (pe.inspectReq part).currentLen < gl.maxLen part ∧
        (pe.depthBuffer0 part).length + pe.inspectLen gl part ≤ Gl.depthBufferDepth) :
    Descends (pe.rank gl) (after.rank gl) := by
  have frame := inspectDepthReqThread_frame ran
  have others : ∀ j, j ≠ part →
      inspectSpan gl after.inspectReq j = inspectSpan gl pe.inspectReq j := by
    intro j other
    rw [inspectSpan, inspectSpan, frame.inspectReq j (by simpa using other.symm)]
  obtain ⟨_, mid, settled, looped⟩ := inspectDepthReqThread_cases ran
  have lower : (inspectSpan gl after.inspectReq part).left <
        (inspectSpan gl pe.inspectReq part).left ∨
      (inspectSpan gl after.inspectReq part).left = (inspectSpan gl pe.inspectReq part).left ∧
        after.places part.port < pe.places part.port := by
    cases settled with
    | idle free _ =>
        rcases looped.progress (outside free) with ⟨_, busy⟩ | less
        · rcases work with creating | ⟨more, room⟩
          · exact absurd free creating
          · exact absurd (busy more) (Nat.not_lt.mpr room)
        · exact .inl less
    | restarted _ _ start => simp [started] at start
    | @pushed burstIdx creating =>
        have left : ∀ mid : Pe, (mid.inspectReq part).actualLen = 0 →
            (mid.inspectReq part).currentLen =
              (pe.inspectReq part).currentLen + (pe.inspectReq part).actualLen →
            (inspectSpan gl mid.inspectReq part).left =
              (inspectSpan gl pe.inspectReq part).left := by
          intro mid none len
          simp [inspectSpan, none, len]
        rcases looped.progress (by simp) with ⟨rfl, _⟩ | less
        · exact .inr ⟨left _ (by simp) (by simp), pushBurst_places creating⟩
        · refine .inl (Nat.lt_of_lt_of_eq less (left _ ?_ ?_)) <;> simp
  have parts : ∑ j, (inspectSpan gl after.inspectReq j).left <
      ∑ j, (inspectSpan gl pe.inspectReq j).left ∨
      ∑ j, (inspectSpan gl after.inspectReq j).left ≤
        ∑ j, (inspectSpan gl pe.inspectReq j).left ∧
      ∑ j : Part, after.places j.port < ∑ j : Part, pe.places j.port := by
    rcases lower with less | ⟨same, less⟩
    · refine .inl (Finset.sum_lt_sum (fun j _ => ?_) ⟨part, Finset.mem_univ _, less⟩)
      by_cases here : j = part
      · exact here ▸ Nat.le_of_lt less
      · rw [others j here]
    · refine .inr ⟨Finset.sum_le_sum fun j _ => ?_, Finset.sum_lt_sum (fun j _ => ?_)
        ⟨part, Finset.mem_univ _, less⟩⟩
      · by_cases here : j = part
        · exact here ▸ Nat.le_of_eq same
        · rw [others j here]
      · by_cases here : j = part
        · exact here ▸ Nat.le_of_lt less
        · refine Nat.le_of_eq (frame.places ?_ (by simp [PeThread.takes]) (by simp) (by simp))
          simpa [PeThread.asks, Part.port, Fin.ext_iff] using fun same => here (Fin.ext same.symm)
  simp only [rank, Descends, List.length_cons, List.length_nil, and_true]
  omega

end Rank

end Pe

end GraphAccelerator
