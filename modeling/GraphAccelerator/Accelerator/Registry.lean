import Mathlib.Data.List.Nodup
import GraphAccelerator.Accelerator.Lines
import GraphAccelerator.Accelerator.Simulation
import GraphAccelerator.Accelerator.Replay
import GraphAccelerator.Memory.ExactlyOnce

/-!
# The registry of the bursts

A burst is registered in `burstOpStatus` when it enters a queue of `pe`.  It passes the
request signal of its port, the queue of the memory wrapper and the response signal,
and its entry is erased when it leaves the last queue of `pe`.  On its way it is in one
place at a time because each signal is written and read once in every cycle.
-/

namespace GraphAccelerator

open CheckedLoop Memory Kernel BurstQueues Pe

/-! ### Requested and retired bursts -/

structure Record where
  requested : Port → List Nat := fun _ => []
  retired : Port → List Nat := fun _ => []

namespace Record

def extend (record : Record) (before after : BurstQueues) : Record where
  requested i := record.requested i ++
    Queues.appended (before.burstReqQueue i) (after.burstReqQueue i)
  retired i := record.retired i ++
    Queues.taken (before.burstRespQueue i) (after.burstRespQueue i)

/-- The numbers of the bursts are their positions, and the entries of `burstOpStatus` are
the bursts in the queues. -/
structure Exact (record : Record) (queues : BurstQueues) : Prop where
  numbered : ∀ (burstIdx : Nat) (op : BurstOp), queues.bursts[burstIdx]? = some op →
    op.burstIdx = burstIdx
  requested : ∀ i, record.requested i = record.retired i ++ queues.pushed i
  sorted : ∀ i, (record.requested i ++ (queues.creating i).toList).Pairwise (· < ·)
  bound : ∀ i, ∀ burstIdx ∈ record.requested i ++ (queues.creating i).toList,
    burstIdx < queues.bursts.length
  registered : ∀ burstIdx ∈ queues.burstOpStatus, ∃ i, burstIdx ∈ queues.pushed i
  nodup : queues.burstOpStatus.Nodup

variable {record : Record} {pe mid after : Pe} {i : Port} {burstIdx : Nat} {op : BurstOp}

theorem extend_congr {before queues queues' : BurstQueues}
    (requests : queues'.burstReqQueue = queues.burstReqQueue)
    (responses : queues'.burstRespQueue = queues.burstRespQueue) :
    record.extend before queues' = record.extend before queues := by
  simp only [extend, requests, responses]

theorem extend_same {before after : BurstQueues}
    (requests : after.burstReqQueue = before.burstReqQueue)
    (responses : after.burstRespQueue = before.burstRespQueue) :
    record.extend before after = record := by
  simp [extend, requests, responses]

namespace Exact

theorem moved {queues after : BurstQueues} (recorded : record.Exact queues)
    (pushed : ∀ i, after.pushed i = queues.pushed i) (creating : after.creating = queues.creating)
    (status : after.burstOpStatus = queues.burstOpStatus)
    (shapes : after.bursts.map BurstOp.shape = queues.bursts.map BurstOp.shape) :
    record.Exact after where
  numbered burstIdx op present := by
    obtain ⟨old, found, same⟩ := shape_lookup shapes present
    exact (shape_burstIdx same.symm).trans (recorded.numbered burstIdx old found)
  requested i := by rw [pushed, recorded.requested]
  sorted := creating ▸ recorded.sorted
  bound := by
    have length : after.bursts.length = queues.bursts.length := by
      simpa using congrArg List.length shapes
    rw [creating, length]
    exact recorded.bound
  registered := by
    simp only [status, pushed]
    exact recorded.registered
  nodup := status ▸ recorded.nodup

theorem created (recorded : record.Exact pe.toBurstQueues) (free : pe.creating i = none)
    (index : op.burstIdx = pe.bursts.length) : record.Exact (pe.created i op).toBurstQueues where
  numbered burstIdx other present := by
    rcases Nat.lt_or_ge burstIdx pe.bursts.length with old | new
    · rw [Pe.created, List.getElem?_append_left old] at present
      exact recorded.numbered burstIdx other present
    · rw [Pe.created, List.getElem?_append_right new, List.getElem?_singleton] at present
      split at present
      · obtain rfl := Option.some.inj present
        omega
      · cases present
  requested := recorded.requested
  sorted j := by
    have sorted := recorded.sorted j
    by_cases here : j = i
    · subst here
      simp only [free, Option.toList_none, List.append_nil] at sorted
      simp only [Pe.created, Function.update_self, Option.toList_some, List.pairwise_append,
        List.pairwise_singleton, List.mem_singleton, forall_eq]
      exact ⟨sorted, trivial, fun burstIdx membership =>
        recorded.bound j burstIdx (List.mem_append_left _ membership)⟩
    · simpa only [Pe.created, Function.update_of_ne here] using sorted
  bound j burstIdx membership := by
    simp only [Pe.created, List.length_append, List.length_singleton] at membership ⊢
    by_cases here : j = i
    · subst here
      simp only [Function.update_self, Option.toList_some, List.mem_append,
        List.mem_singleton] at membership
      rcases membership with old | rfl
      · exact Nat.lt_succ_of_lt (recorded.bound j burstIdx (List.mem_append_left _ old))
      · exact Nat.lt_succ_self _
    · rw [Function.update_of_ne here] at membership
      exact Nat.lt_succ_of_lt (recorded.bound j burstIdx membership)
  registered := recorded.registered
  nodup := recorded.nodup

theorem pushBurst (recorded : record.Exact pe.toBurstQueues)
    (creating : pe.creating i = some burstIdx) :
    (record.extend pe.toBurstQueues (pe.pushBurst i burstIdx).toBurstQueues).Exact
      (pe.pushBurst i burstIdx).toBurstQueues := by
  have joined : ∀ j, (record.extend pe.toBurstQueues
        (pe.pushBurst i burstIdx).toBurstQueues).requested j ++
      ((pe.pushBurst i burstIdx).creating j).toList =
      record.requested j ++ (pe.creating j).toList := by
    intro j
    by_cases here : j = i
    · subst here
      simp [extend, Pe.pushBurst, creating]
    · simp [extend, Pe.pushBurst, here]
  have pushed : ∀ j, (pe.pushBurst i burstIdx).pushed j =
      pe.pushed j ++ if j = i then [burstIdx] else [] := by
    intro j
    by_cases here : j = i
    · subst here
      simp [BurstQueues.pushed, Pe.pushBurst]
    · simp [BurstQueues.pushed, Pe.pushBurst, here]
  refine ⟨recorded.numbered, fun j => ?_, fun j => joined j ▸ recorded.sorted j,
    fun j other membership => recorded.bound j other (joined j ▸ membership), ?_,
    recorded.nodup.insert⟩
  · rw [pushed]
    by_cases here : j = i
    · subst here
      simp [extend, Pe.pushBurst, recorded.requested]
    · simp [extend, Pe.pushBurst, here, recorded.requested]
  · intro other membership
    rcases List.mem_insert_iff.mp membership with rfl | old
    · exact ⟨i, by simp [pushed]⟩
    · obtain ⟨j, there⟩ := recorded.registered other old
      exact ⟨j, by simp [pushed, there]⟩

theorem popped (recorded : record.Exact pe.toBurstQueues) {rest : List Nat}
    (queue : pe.burstRespQueue i = burstIdx :: rest) :
    (record.extend pe.toBurstQueues (pe.popped i burstIdx).toBurstQueues).Exact
      (pe.popped i burstIdx).toBurstQueues := by
  have same : ∀ j, (record.extend pe.toBurstQueues
      (pe.popped i burstIdx).toBurstQueues).requested j = record.requested j := by
    simp [extend, Pe.popped]
  refine ⟨recorded.numbered, fun j => ?_, fun j => ?_, fun j => ?_, ?_,
    recorded.nodup.erase burstIdx⟩
  · rw [same, recorded.requested]
    by_cases here : j = i
    · subst here
      simp [extend, Pe.popped, BurstQueues.pushed, queue]
    · simp [extend, Pe.popped, BurstQueues.pushed, here]
  · rw [same]
    exact recorded.sorted j
  · rw [same]
    exact recorded.bound j
  · intro other membership
    obtain ⟨different, old⟩ := (List.Nodup.mem_erase_iff recorded.nodup).mp membership
    obtain ⟨j, there⟩ := recorded.registered other old
    refine ⟨j, ?_⟩
    by_cases here : j = i
    · subst here
      simpa [BurstQueues.pushed, Pe.popped, queue, different] using there
    · simpa [BurstQueues.pushed, Pe.popped, here] using there

theorem dropped (recorded : record.Exact pe.toBurstQueues) :
    let after : BurstQueues := { pe.toBurstQueues with
      burstOpStatus := (pe.burstRespQueue i).foldl List.erase pe.burstOpStatus
      burstRespQueue := Function.update pe.burstRespQueue i [] }
    (record.extend pe.toBurstQueues after).Exact after := by
  intro after
  have same : ∀ j, (record.extend pe.toBurstQueues after).requested j = record.requested j := by
    simp [extend, after]
  have erased : after.burstOpStatus = pe.burstOpStatus.diff (pe.burstRespQueue i) :=
    (List.diff_eq_foldl _ _).symm
  refine ⟨recorded.numbered, fun j => ?_, fun j => ?_, fun j => ?_, ?_, ?_⟩
  · rw [same, recorded.requested]
    by_cases here : j = i
    · subst here
      simp [extend, after, BurstQueues.pushed, Queues.taken]
    · simp [extend, after, BurstQueues.pushed, here]
  · rw [same]
    exact recorded.sorted j
  · rw [same]
    exact recorded.bound j
  · intro other membership
    rw [erased, recorded.nodup.mem_sdiff_iff] at membership
    obtain ⟨j, there⟩ := recorded.registered other membership.1
    refine ⟨j, ?_⟩
    by_cases here : j = i
    · subst here
      simpa [BurstQueues.pushed, after, membership.2] using there
    · simpa [BurstQueues.pushed, after, here] using there
  · rw [erased]
    exact recorded.nodup.diff

/-- What a segment of a thread does to the record. -/
theorem queueStep {thread : PeThread} (recorded : record.Exact pe.toBurstQueues)
    (indexed : pe.Indexed) (sends : thread ≠ .sendMemReq) (reads : thread ≠ .getMemResp)
    (stepped : Pe.QueueStep pe thread after) :
    (record.extend pe.toBurstQueues after.toBurstQueues).Exact after.toBurstQueues := by
  cases stepped with
  | kept same =>
      rw [same, extend_same rfl rfl]
      exact recorded
  | sent => exact absurd rfl sends
  | read => exact absurd rfl reads
  | @asked _ mid _ i _ asks pushes mayAsk _ =>
      have settled : (record.extend pe.toBurstQueues mid.toBurstQueues).Exact
          mid.toBurstQueues := by
        cases pushes with
        | nothing free same =>
            rw [same, extend_same rfl rfl]
            exact recorded
        | pushed creating same =>
            rw [same]
            exact recorded.pushBurst creating
        | @filled burstIdx op byte _ creating present same =>
            have filled : record.Exact
                (pe.setBurst burstIdx { op with data := op.data ++ [byte] }).toBurstQueues :=
              recorded.moved (fun _ => rfl) rfl rfl (shapes_set present rfl)
            rw [same]
            exact filled.pushBurst creating
      cases mayAsk with
      | nothing same => exact same ▸ settled
      | @asked op _ _ _ _ index same =>
          have grown := settled.created pushes.free index
          rw [← same] at grown
          rw [extend_congr (congrArg burstReqQueue same) (congrArg burstRespQueue same)]
          exact grown
  | polled takes idle awaited =>
      rw [extend_same (by cases awaited <;> rfl) (by cases awaited <;> rfl)]
      cases awaited <;> exact recorded.moved (fun _ => rfl) rfl rfl rfl
  | @stored _ mid _ i burstIdx _ _ op takes transfer present same awaited =>
      obtain ⟨rest, queue⟩ := List.head?_eq_some_iff.mp (indexed.transfer i burstIdx transfer)
      have popped := recorded.popped queue
      rw [← same] at popped
      cases awaited <;> exact popped.moved (fun _ => rfl) rfl rfl rfl
  | dropped => exact recorded.dropped

theorem sendMemReq (recorded : record.Exact pe.toBurstQueues) :
    record.Exact pe.sendMemReq.toBurstQueues :=
  recorded.moved
    (fun i => congrArg (pe.burstRespQueue i ++ pe.answered i ++ ·) (pe.sendMemReq_waiting i))
    rfl rfl rfl

theorem getMemResp (recorded : record.Exact pe.toBurstQueues) :
    record.Exact pe.getMemResp.toBurstQueues :=
  recorded.moved (fun i => congrArg (· ++ (pe.sent i ++ pe.burstReqQueue i))
    (pe.getMemResp_responded i)) rfl rfl rfl

theorem answer (recorded : record.Exact pe.toBurstQueues) (ran : pe.answer i = some after) :
    record.Exact after.toBurstQueues := by
  obtain ⟨flight, shapes⟩ := answer_flight ran
  have same : after.creating = pe.creating ∧ after.burstOpStatus = pe.burstOpStatus := by
    cases answer_cases ran <;> exact ⟨rfl, rfl⟩
  refine recorded.moved (fun j => ?_) same.1 same.2 shapes
  have flight := congrFun flight j
  rw [BurstQueues.flight, BurstQueues.flight, same.1] at flight
  exact List.append_cancel_right flight

end Exact

theorem exact_reset (gl : Gl) (ramData : List Byte) :
    Record.Exact {} (reset gl ramData).toBurstQueues :=
  ⟨nofun, fun _ => rfl, fun _ => .nil, nofun, nofun, .nil⟩

end Record

/-! ### The four threads between `pe` and the memory -/

/-- `pe`, the queues of `MemWrapper` and the signals between them, where `none` is the
value -1.  The record and the fields `sent` and `answered` of `pe` are history
variables. -/
structure Linked where
  pe : Pe
  memReqQueue : Port → List Nat := fun _ => []
  burstReq : Port → Signal (Option Nat) := fun _ => ⟨none, none⟩
  burstResp : Port → Signal (Option Nat) := fun _ => ⟨none, none⟩
  record : Record := {}

inductive LinkedThread where
  | pe (thread : TimedThread)
  | getBurstReq
  | sendBurstResp
  deriving DecidableEq

abbrev LinkedThread.sendMemReq : LinkedThread := .pe ⟨.sendMemReq, by decide⟩

abbrev LinkedThread.getMemResp : LinkedThread := .pe ⟨.getMemResp, by decide⟩

namespace Linked

/-- Writes the head of the queue of every port to its signal, or -1. -/
def sendMemReq (l : Linked) : Linked :=
  { l with
    pe := l.pe.sendMemReq
    burstReq := fun i => (l.burstReq i).write (l.pe.burstReqQueue i).head? }

/-- Reads the signal of every port. -/
def getMemResp (l : Linked) : Linked :=
  { l with
    pe := { l.pe with
      burstRespQueue := fun i => l.pe.burstRespQueue i ++ (l.burstResp i).current.toList
      answered := fun i => (l.pe.answered i).drop (l.burstResp i).current.toList.length } }

/-- `MemWrapper::getBurstReq` -/
def getBurstReq (l : Linked) : Linked :=
  { l with memReqQueue := fun i => l.memReqQueue i ++ (l.burstReq i).current.toList }

/-- `reqToRam` of a write, `ramToReq` of a read. -/
def access (burstIdx : Nat) (op : BurstOp) (pe : Pe) : Option Pe :=
  if op.type = .write then (op.reqToRam pe.ramData).map fun ramData => { pe with ramData }
  else (op.ramToReq pe.ramData).map fun op => pe.setBurst burstIdx op

/-- The body of the loop of `MemWrapper::sendBurstResp`.  What is found on the response
queue of the port is up to the memory; a response that is too early leaves the signal as
it is. -/
def sendBurstRespPort (found : Port → MemWrapper.Found) (l : Linked) (i : Port) : Option Linked :=
  match l.memReqQueue i with
  | [] => some { l with burstResp := Function.update l.burstResp i ((l.burstResp i).write none) }
  | burstIdx :: rest =>
      match found i with
      | .missing => some { l with
          burstResp := Function.update l.burstResp i ((l.burstResp i).write none) }
      | .early => some l
      | .due => do
          let op ← l.pe.bursts[burstIdx]?
          let pe ← access burstIdx op { l.pe with
            sent := Function.update l.pe.sent i (l.pe.sent i).tail
            answered := Function.update l.pe.answered i (l.pe.answered i ++ [burstIdx]) }
          return { l with
            pe
            memReqQueue := Function.update l.memReqQueue i rest
            burstResp := Function.update l.burstResp i ((l.burstResp i).write (some burstIdx)) }

def sendBurstResp (found : Port → MemWrapper.Found) (l : Linked) : Option Linked :=
  (List.finRange 8).foldlM (sendBurstRespPort found) l

/-- What a thread does between two waits.  No response is found too early: see
`Mirrors.resume`. -/
inductive Resume (gl : Gl) : LinkedThread → Nat → Linked → Linked → Nat → Prop
  | sendMemReq {now : Nat} {l : Linked} : Resume gl .sendMemReq now l l.sendMemReq 1
  | getMemResp {now : Nat} {l : Linked} : Resume gl .getMemResp now l l.getMemResp 1
  | getBurstReq {now : Nat} {l : Linked} : Resume gl .getBurstReq now l l.getBurstReq 1
  | sendBurstResp {now : Nat} {l after : Linked} {found : Port → MemWrapper.Found} :
      (∀ i, found i ≠ .early) → l.sendBurstResp found = some after →
      Resume gl .sendBurstResp now l after 1
  | pe {now : Nat} {l : Linked} {thread : TimedThread} {pe : Pe} {delay : Nat} :
      thread.val ≠ .sendMemReq → thread.val ≠ .getMemResp →
      l.pe.resume gl thread.val = some (pe, delay) →
      Resume gl (.pe thread) now l
        { l with pe, record := l.record.extend l.pe.toBurstQueues pe.toBurstQueues } delay

def update (l : Linked) : Linked :=
  { l with
    burstReq := fun i => (l.burstReq i).settle
    burstResp := fun i => (l.burstResp i).settle }

def settle (l : Linked) : Linked := { l.update with pe := l.pe.bfsController }

/-- One step of the simulation.  The memory takes any time because a response may be
missing. -/
abbrev Cycle (gl : Gl) : Timed LinkedThread Linked → Timed LinkedThread Linked → Prop :=
  Step (Resume gl) (fun _ _ _ => False) settle

def start (gl : Gl) (ramData : List Byte) : Timed LinkedThread Linked :=
  ⟨0, fun _ => 0, { pe := (Pe.reset gl ramData).bfsController }⟩

/-- What the four threads keep, each due at its own time; `sendBurstResp` writes the
signals of its ports one after the other. -/
structure Carries (now sends gets reads : Nat) (responds : Port → Nat) (l : Linked) : Prop where
  sending : Aligned 1 now sends
  getting : Aligned 1 now gets
  reading : Aligned 1 now reads
  responding : ∀ i, Aligned 1 now (responds i)
  consistent : l.pe.Consistent
  recorded : l.record.Exact l.pe.toBurstQueues
  reqSettled : ∀ i, (l.burstReq i).Settled 1 now sends
  respSettled : ∀ i, (l.burstResp i).Settled 1 now (responds i)
  sent : ∀ i, l.pe.sent i =
    l.memReqQueue i ++ ((l.burstReq i).unread sends gets).filterMap id
  answered : ∀ i, l.pe.answered i = ((l.burstResp i).unread (responds i) reads).filterMap id

namespace Carries

variable {gl : Gl} {now sends gets reads : Nat} {responds : Port → Nat} {l after : Linked}

theorem sendMemReq (carries : Carries now now gets reads responds l) :
    Carries now (now + 1) gets reads responds l.sendMemReq where
  sending := carries.sending.resume
  getting := carries.getting
  reading := carries.reading
  responding := carries.responding
  consistent := (@Pe.sendMemReq_refines noGraph _ carries.consistent).consistent
  recorded := carries.recorded.sendMemReq
  reqSettled _ := Signal.settled_write _
  respSettled := carries.respSettled
  sent i := by
    have written := Signal.unread_write Nat.one_pos carries.getting carries.sending
      (carries.reqSettled i) (l.pe.burstReqQueue i).head?
    show l.pe.sent i ++ (l.pe.burstReqQueue i).take 1 = l.memReqQueue i ++ _
    rw [Linked.sendMemReq, written, carries.sent, List.filterMap_append, ← List.append_assoc]
    cases l.pe.burstReqQueue i <;> rfl
  answered := carries.answered

theorem getBurstReq (carries : Carries now sends now reads responds l) :
    Carries now sends (now + 1) reads responds l.getBurstReq where
  sending := carries.sending
  getting := carries.getting.resume
  reading := carries.reading
  responding := carries.responding
  consistent := carries.consistent
  recorded := carries.recorded
  reqSettled := carries.reqSettled
  respSettled := carries.respSettled
  sent i := by
    have read := Signal.unread_read Nat.one_pos carries.sending carries.getting
      (carries.reqSettled i)
    show l.pe.sent i = l.memReqQueue i ++ _ ++ _
    rw [carries.sent, read, List.append_assoc]
    cases (l.burstReq i).current <;> rfl
  answered := carries.answered

theorem getMemResp (carries : Carries now sends gets now responds l) :
    Carries now sends gets (now + 1) responds l.getMemResp := by
  have read : ∀ i, l.pe.answered i = (l.burstResp i).current.toList ++
      ((l.burstResp i).unread (responds i) (now + 1)).filterMap id := by
    intro i
    rw [carries.answered, Signal.unread_read Nat.one_pos (carries.responding i) carries.reading
      (carries.respSettled i)]
    cases (l.burstResp i).current <;> rfl
  have pushed : ∀ i, l.getMemResp.pe.pushed i = l.pe.pushed i := by
    intro i
    simp [Linked.getMemResp, BurstQueues.pushed, read]
  exact {
    sending := carries.sending
    getting := carries.getting
    reading := carries.reading.resume
    responding := carries.responding
    consistent := carries.consistent.transport pushed rfl rfl rfl rfl fun i burstIdx head => by
      simp [List.head?_append, head]
    recorded := carries.recorded.moved pushed rfl rfl rfl
    reqSettled := carries.reqSettled
    respSettled := carries.respSettled
    sent := carries.sent
    answered := fun i => by simp [Linked.getMemResp, read] }

theorem responded {i : Port} (carries : Carries now sends gets reads responds l)
    (due : responds i = now) (value : Option Nat) {pe : Pe} {memReqQueue : Port → List Nat}
    (consistent : pe.Consistent) (recorded : l.record.Exact pe.toBurstQueues)
    (sent : ∀ j, pe.sent j = memReqQueue j ++ ((l.burstReq j).unread sends gets).filterMap id)
    (answered : pe.answered i = l.pe.answered i ++ value.toList)
    (others : ∀ j, j ≠ i → pe.answered j = l.pe.answered j) :
    Carries now sends gets reads (Function.update responds i (now + 1)) { l with
      pe
      memReqQueue
      burstResp := Function.update l.burstResp i ((l.burstResp i).write value) } where
  sending := carries.sending
  getting := carries.getting
  reading := carries.reading
  responding j := by
    by_cases here : j = i
    · subst here
      rw [Function.update_self]
      exact (due ▸ carries.responding j).resume
    · rw [Function.update_of_ne here]
      exact carries.responding j
  consistent := consistent
  recorded := recorded
  reqSettled := carries.reqSettled
  respSettled j := by
    by_cases here : j = i
    · subst here
      simp only [Function.update_self]
      exact Signal.settled_write value
    · simp only [Function.update_of_ne here]
      exact carries.respSettled j
  sent := sent
  answered j := by
    by_cases here : j = i
    · subst here
      have written := Signal.unread_write Nat.one_pos carries.reading
        (due ▸ carries.responding j) (due ▸ carries.respSettled j) value
      simp only [Function.update_self]
      rw [answered, carries.answered, written, List.filterMap_append, due]
      cases value <;> rfl
    · simp only [Function.update_of_ne here]
      rw [others j here, carries.answered]

theorem access_queues {burstIdx : Nat} {op : BurstOp} {before pe : Pe}
    (accessed : access burstIdx op before = some pe) :
    pe.answered = before.answered ∧ pe.sent = before.sent := by
  rw [access] at accessed
  split at accessed <;>
  · obtain ⟨_, _, rfl⟩ := Option.map_eq_some_iff.mp accessed
    exact ⟨rfl, rfl⟩

theorem answer_of_access {i : Port} {burstIdx : Nat} {rest : List Nat} {op : BurstOp}
    {before pe : Pe} (sent : before.sent i = burstIdx :: rest)
    (present : before.bursts[burstIdx]? = some op)
    (accessed : access burstIdx op { before with
      sent := Function.update before.sent i rest
      answered := Function.update before.answered i (before.answered i ++ [burstIdx]) } =
        some pe) : before.answer i = some pe := by
  rw [access] at accessed
  simp only [answer, sent, present, Option.bind_eq_bind, Option.bind_some]
  split at accessed
  · rename_i writing
    obtain ⟨ramData, written, rfl⟩ := Option.map_eq_some_iff.mp accessed
    have written : op.reqToRam before.ramData = some ramData := written
    simp only [if_pos writing, written]
    rfl
  · rename_i reading
    obtain ⟨copied, reads, rfl⟩ := Option.map_eq_some_iff.mp accessed
    have reads : op.ramToReq before.ramData = some copied := reads
    simp only [if_neg reading, reads]
    rfl

/-- The wrapper answers as the memory of `pe` does. -/
theorem sendBurstRespPort_cases {found : Port → MemWrapper.Found} {i : Port}
    (carries : Carries now sends gets reads responds l) (inTime : found i ≠ .early)
    (ran : l.sendBurstRespPort found i = some after) :
    after = { l with burstResp := Function.update l.burstResp i ((l.burstResp i).write none) } ∨
      ∃ burstIdx rest pe, l.memReqQueue i = burstIdx :: rest ∧ l.pe.answer i = some pe ∧
        pe.answered = Function.update l.pe.answered i (l.pe.answered i ++ [burstIdx]) ∧
        pe.sent = Function.update l.pe.sent i (l.pe.sent i).tail ∧
        after = { l with
          pe
          memReqQueue := Function.update l.memReqQueue i rest
          burstResp := Function.update l.burstResp i
            ((l.burstResp i).write (some burstIdx)) } := by
  rw [sendBurstRespPort] at ran
  split at ran
  · exact .inl (Option.some.inj ran).symm
  · rename_i burstIdx rest queue
    cases outcome : found i with
    | missing =>
        rw [outcome] at ran
        exact .inl (Option.some.inj ran).symm
    | early => exact absurd outcome inTime
    | due =>
        rw [outcome] at ran
        simp only [Option.bind_eq_bind, Option.bind_eq_some_iff] at ran
        obtain ⟨op, present, pe, accessed, ran⟩ := ran
        have sent := carries.sent i
        rw [queue, List.cons_append] at sent
        have same := access_queues accessed
        refine .inr ⟨burstIdx, rest, pe, queue, answer_of_access sent present ?_, same.1, same.2,
          (Option.some.inj ran).symm⟩
        rw [← accessed, sent, List.tail_cons]

theorem sendBurstRespPort {found : Port → MemWrapper.Found} {i : Port}
    (carries : Carries now sends gets reads responds l) (inTime : found i ≠ .early)
    (due : responds i = now) (ran : l.sendBurstRespPort found i = some after) :
    Carries now sends gets reads (Function.update responds i (now + 1)) after := by
  rcases carries.sendBurstRespPort_cases inTime ran with rfl |
    ⟨burstIdx, rest, pe, queue, answered, responses, requests, rfl⟩
  · exact carries.responded due none carries.consistent carries.recorded carries.sent (by simp)
      fun _ _ => rfl
  · refine carries.responded due (some burstIdx)
      (@answer_refines noGraph _ _ _ carries.consistent answered).consistent
      (carries.recorded.answer answered) (fun j => ?_) (by simp [responses])
      fun j elsewhere => by simp [responses, elsewhere]
    have sent := carries.sent j
    by_cases here : j = i
    · subst here
      rw [requests, Function.update_self, Function.update_self, sent, queue]
      rfl
    · rw [requests, Function.update_of_ne here, Function.update_of_ne here, sent]

theorem sendBurstResp {found : Port → MemWrapper.Found}
    (carries : Carries now sends gets reads (fun _ => now) l) (inTime : ∀ i, found i ≠ .early)
    (ran : l.sendBurstResp found = some after) :
    Carries now sends gets reads (fun _ => now + 1) after := by
  have written := foldlM_invariant
    (fun done next => Carries now sends gets reads
      (fun i => if i ∈ done then now + 1 else now) next) ran (by simpa using carries) (by
      intro done i rest before next split carries stepped
      have fresh : i ∉ done := by
        have nodup := List.nodup_finRange 8
        rw [split, List.nodup_append] at nodup
        exact fun earlier => nodup.2.2 i earlier i (by simp) rfl
      have next := carries.sendBurstRespPort (inTime i) (if_neg fresh) stepped
      convert next using 1
      funext j
      by_cases here : j = i <;> simp [here])
  simpa using written

theorem update (carries : Carries now sends gets reads responds l) (sending : now < sends)
    (getting : now < gets) (reading : now < reads) (responding : ∀ i, now < responds i) :
    Carries (now + 1) sends gets reads responds l.update where
  sending := carries.sending.advance sending
  getting := carries.getting.advance getting
  reading := carries.reading.advance reading
  responding i := (carries.responding i).advance (responding i)
  consistent := carries.consistent
  recorded := carries.recorded
  reqSettled _ := Signal.settled_settle
  respSettled _ := Signal.settled_settle
  sent i := by
    rw [Linked.update, Signal.unread_settle carries.sending carries.getting getting]
    exact carries.sent i
  answered i := by
    rw [Linked.update, Signal.unread_settle (carries.responding i) carries.reading reading]
    exact carries.answered i

theorem bfsController (carries : Carries now sends gets reads responds l) :
    Carries now sends gets reads responds { l with pe := l.pe.bfsController } where
  sending := carries.sending
  getting := carries.getting
  reading := carries.reading
  responding := carries.responding
  consistent := (@bfsController_pipeline noGraph _ carries.consistent).1
  recorded := by
    simp only [Pe.bfsController_queues]
    exact carries.recorded
  reqSettled := carries.reqSettled
  respSettled := carries.respSettled
  sent i := by
    rw [Pe.bfsController_queues]
    exact carries.sent i
  answered i := by
    rw [Pe.bfsController_queues]
    exact carries.answered i

theorem resume {thread : PeThread} {pe : Pe} {delay : Nat}
    (carries : Carries now sends gets reads responds l) (other : thread ≠ .bfsController)
    (transports : thread ≠ .sendMemReq ∧ thread ≠ .getMemResp)
    (ran : l.pe.resume gl thread = some (pe, delay)) :
    Carries now sends gets reads responds
      { l with pe, record := l.record.extend l.pe.toBurstQueues pe.toBurstQueues } where
  sending := carries.sending
  getting := carries.getting
  reading := carries.reading
  responding := carries.responding
  consistent := (resume_refines carries.consistent other ran).consistent
  recorded := carries.recorded.queueStep carries.consistent.indexed transports.1 transports.2
    (resume_queueStep other ran)
  reqSettled := carries.reqSettled
  respSettled := carries.respSettled
  sent i := by
    rw [(resume_frame other ran).sent transports.1]
    exact carries.sent i
  answered i := by
    rw [(resume_frame other ran).answered transports.2]
    exact carries.answered i

end Carries

/-! ### The response thread of the wrapper -/

section Mirrors

variable {Mem : Type} {s next : Transport Mem} {l : Linked} {now : Int} {i : Port}

def bytes (op : BurstOp) : RequestType × Nat × Nat × List Byte :=
  (op.type, op.addr, op.length, op.data)

/-- `pe` with its links shows the state of the transport. -/
structure Mirrors (l : Linked) (s : Transport Mem) : Prop where
  memReqQueue : l.memReqQueue = s.sys.w.burstReqQueue
  burstResp : l.burstResp = s.burstResp
  ramData : l.pe.ramData = s.sys.w.ramData
  bursts : ∀ idx : Nat, l.pe.bursts[idx]?.map bytes = s.sys.w.bursts[idx]?.map bytes

theorem ramToReq_bytes {op other copied : BurstOp} {ramData : List Byte}
    (same : bytes op = bytes other) (reads : other.ramToReq ramData = some copied) :
    ∃ mine, op.ramToReq ramData = some mine ∧ bytes mine = bytes copied := by
  simp only [bytes, Prod.mk.injEq] at same
  obtain ⟨type, addr, length, data⟩ := same
  rw [BurstOp.ramToReq, Option.bind_eq_bind, Option.bind_eq_some_iff] at reads
  obtain ⟨read, loaded, reads⟩ := reads
  obtain rfl := Option.some.inj reads
  refine ⟨{ op with data := op.data ++ read }, ?_, by simp [bytes, type, addr, length, data]⟩
  rw [BurstOp.ramToReq, length, addr, loaded]
  rfl

theorem reqToRam_bytes {op other : BurstOp} (same : bytes op = bytes other)
    (ramData : List Byte) : op.reqToRam ramData = other.reqToRam ramData := by
  simp only [bytes, Prod.mk.injEq] at same
  rw [BurstOp.reqToRam, BurstOp.reqToRam, same.2.1, same.2.2.1, same.2.2.2]

theorem lookup_set {bursts others : List BurstOp} {burstIdx : Nat} {op other : BurstOp}
    (same : ∀ idx : Nat, bursts[idx]?.map bytes = others[idx]?.map bytes)
    (moved : bytes op = bytes other) (idx : Nat) :
    (bursts.set burstIdx op)[idx]?.map bytes = (others.set burstIdx other)[idx]?.map bytes := by
  have found := same idx
  rw [List.getElem?_set, List.getElem?_set]
  split
  · rename_i here
    subst here
    rcases Nat.lt_or_ge burstIdx bursts.length with inside | outside
    · have present : burstIdx < others.length := by
        by_contra absent
        rw [List.getElem?_eq_getElem inside,
          List.getElem?_eq_none (Nat.le_of_not_lt absent)] at found
        cases found
      simp [inside, present, moved]
    · have absent : others.length ≤ burstIdx := by
        by_contra present
        rw [List.getElem?_eq_none outside,
          List.getElem?_eq_getElem (Nat.lt_of_not_le present)] at found
        cases found
      simp [Nat.not_lt.mpr outside, Nat.not_lt.mpr absent]
  · exact found

theorem Mirrors.answer {burstIdx : Nat} {rest : List Nat} {op : BurstOp} {after : MemWrapper}
    (mirrors : Mirrors l s) (queue : s.sys.w.burstReqQueue i = burstIdx :: rest)
    (present : s.sys.w.bursts[burstIdx]? = some op)
    (answered : s.sys.w.answer i burstIdx op = some after) :
    ∃ linked, l.sendBurstRespPort (fun _ => .due) i = some linked ∧ Mirrors linked { s with
      sys.w := after
      burstResp := Function.update s.burstResp i ((s.burstResp i).write (some burstIdx)) } := by
  obtain ⟨copied, ramData, _, _, moved, rfl⟩ := answer_cases answered
  have found := mirrors.bursts burstIdx
  rw [present, Option.map_some, Option.map_eq_some_iff] at found
  obtain ⟨mine, lookup, same⟩ := found
  have type : mine.type = op.type := congrArg Prod.fst same
  rw [Linked.sendBurstRespPort, mirrors.memReqQueue, queue]
  simp only [lookup, Option.bind_eq_bind, Option.bind_some, access, type]
  rcases moved with ⟨writes, rfl, written⟩ | ⟨reads, copies, rfl⟩
  · rw [if_pos writes, reqToRam_bytes same, mirrors.ramData, written]
    refine ⟨_, rfl, by simp, by rw [mirrors.burstResp], rfl, fun idx => ?_⟩
    obtain ⟨inside, same⟩ := List.getElem?_eq_some_iff.mp present
    rw [mirrors.bursts, ← same, List.set_getElem_self inside]
  · obtain ⟨loaded, reads', alike⟩ := ramToReq_bytes same copies
    rw [if_neg reads, mirrors.ramData, reads']
    exact ⟨_, rfl, by simp, by rw [mirrors.burstResp],
      rfl, lookup_set mirrors.bursts alike⟩

theorem sendBurstRespPort_congr {found other : Port → MemWrapper.Found} (same : found i = other i) :
    l.sendBurstRespPort found i = l.sendBurstRespPort other i := by
  rw [Linked.sendBurstRespPort, Linked.sendBurstRespPort, same]

theorem Mirrors.sendBurstRespPort (mirrors : Mirrors l s)
    (ran : s.sendBurstRespPort now i = some next) :
    (∀ j, j ≠ i → next.sys.w.found now j = s.sys.w.found now j) ∧
      ∃ after, l.sendBurstRespPort (s.sys.w.found now) i = some after ∧ Mirrors after next := by
  obtain ⟨⟨w, written⟩, wrapper, ran⟩ := Option.bind_eq_some_iff.mp ran
  rcases sendBurstRespPort_found wrapper with ⟨outcome, rfl, rfl⟩ |
    ⟨outcome, rfl, rfl⟩ | ⟨outcome, burstIdx, rest, op, queue, present, answered, rfl⟩
  · obtain rfl := Option.some.inj ran
    refine ⟨fun _ _ => rfl, ?_⟩
    rw [Linked.sendBurstRespPort, mirrors.memReqQueue, outcome]
    cases s.sys.w.burstReqQueue i <;>
    exact ⟨_, rfl, rfl, by rw [mirrors.burstResp], mirrors.ramData, mirrors.bursts⟩
  · obtain rfl := Option.some.inj ran
    refine ⟨fun _ _ => rfl, l, ?_, mirrors.memReqQueue, mirrors.burstResp, mirrors.ramData,
      mirrors.bursts⟩
    obtain ⟨burstIdx, rest, queue⟩ := exists_of_early outcome
    rw [Linked.sendBurstRespPort, mirrors.memReqQueue, queue, outcome]
  · obtain rfl := Option.some.inj ran
    refine ⟨fun j elsewhere => found_answer answered present elsewhere, ?_⟩
    rw [@sendBurstRespPort_congr _ _ _ (fun _ => .due) outcome]
    exact mirrors.answer queue present answered

theorem Mirrors.sendBurstResp (mirrors : Mirrors l s) (ran : s.sendBurstResp now = some next) :
    ∃ after, l.sendBurstResp (s.sys.w.found now) = some after ∧ Mirrors after next := by
  obtain ⟨after, sent, mirrored, _⟩ := foldlM_simulation
    (Linked.sendBurstRespPort (s.sys.w.found now)) (Transport.sendBurstRespPort now)
    (fun done l t => Mirrors l t ∧ ∀ j, j ∉ done → t.sys.w.found now j = s.sys.w.found now j)
    (List.finRange 8) ⟨mirrors, fun _ _ => rfl⟩ (by
      intro done i rest l t next split holds stepped
      obtain ⟨mirrors, unchanged⟩ := holds
      have fresh : i ∉ done := by
        have nodup := List.nodup_finRange 8
        rw [split, List.nodup_append] at nodup
        exact fun earlier => nodup.2.2 i earlier i (by simp) rfl
      obtain ⟨others, after, sent, mirrored⟩ := mirrors.sendBurstRespPort stepped
      refine ⟨after, ?_, mirrored, fun j later => ?_⟩
      · rw [← sent]
        exact sendBurstRespPort_congr (unchanged i fresh).symm
      · rw [List.mem_append, List.mem_singleton, not_or] at later
        rw [others j later.2, unchanged j later.1]) ran
  exact ⟨after, sent, mirrored⟩

/-- The response thread over every memory that keeps its laws is a segment of the linked
threads, since no time stamp runs ahead of the clock of the wrapper. -/
theorem Mirrors.resume {cfg : BurstCfg} {ledger : Ledger Mem} {ram : Ramulator Mem}
    {clocks : Clocks} {gl : Gl} (serves : ram.Serves ledger)
    {start t : Timed Thread (Transport Mem)} (initial : Transport.Initial ledger start)
    (run : Relation.ReflTransGen (Transport.Step cfg ram clocks) start t)
    (mirrors : Mirrors l t.state) (ran : t.state.sendBurstResp t.now = some next) :
    ∃ after, Resume gl .sendBurstResp t.now l after 1 ∧ Mirrors after next := by
  obtain ⟨after, sent, mirrored⟩ := mirrors.sendBurstResp ran
  have ready := (Transport.carried_run serves initial run).1.exactly.timely.ready
  exact ⟨after, .sendBurstResp ready.not_early sent, mirrored⟩

end Mirrors

abbrev Holds (timed : Timed LinkedThread Linked) : Prop :=
  Carries timed.now (timed.due .sendMemReq) (timed.due .getBurstReq) (timed.due .getMemResp)
    (fun _ => timed.due .sendBurstResp) timed.state

variable {gl : Gl} {ramData : List Byte} {before after : Timed LinkedThread Linked}

theorem Holds.step (holds : Holds before) (stepped : Cycle gl before after) : Holds after := by
  cases stepped with
  | @resume now due l final thread delay dueNow positive ran =>
      cases ran with
      | sendMemReq =>
          simp only [Holds, dueNow] at holds ⊢
          simpa using holds.sendMemReq
      | getMemResp =>
          simp only [Holds, dueNow] at holds ⊢
          simpa using holds.getMemResp
      | getBurstReq =>
          simp only [Holds, dueNow] at holds ⊢
          simpa using holds.getBurstReq
      | sendBurstResp inTime responded =>
          simp only [Holds, dueNow] at holds ⊢
          simpa using holds.sendBurstResp inTime responded
      | @pe _ _ thread pe delay sends reads ran =>
          have first : LinkedThread.sendMemReq ≠ .pe thread := fun same =>
            sends (congrArg Subtype.val (LinkedThread.pe.inj same)).symm
          have second : LinkedThread.getMemResp ≠ .pe thread := fun same =>
            reads (congrArg Subtype.val (LinkedThread.pe.inj same)).symm
          simpa [Holds, first, second] using holds.resume thread.property ⟨sends, reads⟩ ran
  | interfere nothing => exact nothing.elim
  | advance waiting =>
      exact (holds.update (waiting _) (waiting _) (waiting _) fun _ => waiting _).bfsController

theorem holds_start (gl : Gl) (ramData : List Byte) : Holds (start gl ramData) where
  sending := aligned_zero 1
  getting := aligned_zero 1
  reading := aligned_zero 1
  responding _ := aligned_zero 1
  consistent := (@bfsController_pipeline gl _ (reset_consistent gl ramData)).1
  recorded := by
    show Record.Exact {} (Pe.reset gl ramData).bfsController.toBurstQueues
    rw [Pe.bfsController_queues]
    exact Record.exact_reset gl ramData
  reqSettled _ _ := rfl
  respSettled _ _ := rfl
  sent i := by
    show (Pe.reset gl ramData).bfsController.sent i = _
    rw [congrArg BurstQueues.sent (Pe.bfsController_queues _)]
    rfl
  answered i := by
    show (Pe.reset gl ramData).bfsController.answered i = _
    rw [congrArg BurstQueues.answered (Pe.bfsController_queues _)]
    rfl

def places (l : Linked) (i : Port) : List Nat :=
  l.pe.burstRespQueue i ++ (l.burstResp i).current.toList ++ l.memReqQueue i ++
    (l.burstReq i).current.toList ++ l.pe.burstReqQueue i

/-- The burst was pushed to a `burstReqQueue` and not yet popped from a
`burstRespQueue`. -/
def Outstanding (l : Linked) (burstIdx : Nat) : Prop :=
  ∃ i, burstIdx ∈ l.record.requested i ∧ burstIdx ∉ l.record.retired i

/-- `burstOpStatus` is the set of the outstanding bursts, each of which is in one place. -/
structure Registry (l : Linked) : Prop where
  burstIdx : ∀ (burstIdx : Nat) (op : BurstOp), l.pe.bursts[burstIdx]? = some op →
    op.burstIdx = burstIdx
  place : ∀ burstIdx, l.Outstanding burstIdx ↔
    ∃ op, l.pe.bursts[burstIdx]? = some op ∧ (l.places op.portIdx).count burstIdx = 1
  elsewhere : ∀ i, ∀ burstIdx ∈ l.places i,
    ∃ op, l.pe.bursts[burstIdx]? = some op ∧ op.portIdx = i
  keys : ∀ burstIdx, burstIdx ∈ l.pe.burstOpStatus ↔ l.Outstanding burstIdx
  distinct : l.pe.burstOpStatus.Nodup
  empty : l.pe.burstOpStatus.isEmpty ↔ ∀ burstIdx, ¬ l.Outstanding burstIdx

section Places

variable {now : Nat} {l : Linked}

theorem Carries.pushed_eq (carries : Carries now now now now (fun _ => now) l) (i : Port) :
    l.pe.pushed i = l.places i := by
  have request : (l.burstReq i).current = (l.burstReq i).next := carries.reqSettled i (by omega)
  have response : (l.burstResp i).current = (l.burstResp i).next :=
    carries.respSettled i (by simp)
  have sent : l.pe.sent i = l.memReqQueue i ++ (l.burstReq i).current.toList := by
    rw [carries.sent, request]
    cases value : (l.burstReq i).next <;> simp [Signal.unread, value]
  have answered : l.pe.answered i = (l.burstResp i).current.toList := by
    rw [carries.answered, response]
    cases value : (l.burstResp i).next <;> simp [Signal.unread, value]
  simp only [BurstQueues.pushed, places, sent, answered, List.append_assoc]

theorem Carries.outstanding_iff (carries : Carries now now now now (fun _ => now) l)
    {burstIdx : Nat} : l.Outstanding burstIdx ↔ ∃ i, burstIdx ∈ l.places i := by
  refine exists_congr fun i => ?_
  have sorted := carries.recorded.sorted i
  rw [carries.recorded.requested, carries.pushed_eq] at sorted
  have nodup := (List.pairwise_append.mp sorted).1.imp Nat.ne_of_lt
  rw [carries.recorded.requested, carries.pushed_eq, List.mem_append]
  exact ⟨fun ⟨requested, left⟩ => requested.resolve_left left, fun present =>
    ⟨.inr present, fun left => (List.nodup_append.mp nodup).2.2 _ left _ present rfl⟩⟩

theorem Carries.registry (carries : Carries now now now now (fun _ => now) l) : l.Registry := by
  have indexed := carries.consistent.indexed
  have flight : ∀ {i : Port} {burstIdx : Nat}, burstIdx ∈ l.places i →
      burstIdx ∈ l.pe.flight i := fun {i burstIdx} present =>
    List.mem_append_left _ ((carries.pushed_eq i).symm ▸ present)
  have once : ∀ {i : Port} {burstIdx : Nat}, burstIdx ∈ l.places i →
      (l.places i).count burstIdx = 1 := fun {i burstIdx} present => by
    have nodup := (List.nodup_append.mp (indexed.nodup i)).1
    rw [carries.pushed_eq] at nodup
    exact List.count_eq_one_of_mem nodup present
  have keys : ∀ burstIdx, burstIdx ∈ l.pe.burstOpStatus ↔ l.Outstanding burstIdx := by
    intro burstIdx
    rw [carries.outstanding_iff]
    simp only [← carries.pushed_eq]
    exact ⟨carries.recorded.registered burstIdx, fun ⟨i, present⟩ =>
      indexed.status i burstIdx present⟩
  refine ⟨carries.recorded.numbered, fun burstIdx => ?_, fun i burstIdx present =>
    indexed.port i burstIdx (flight present), keys, carries.recorded.nodup, ?_⟩
  · rw [carries.outstanding_iff]
    constructor
    · rintro ⟨i, present⟩
      obtain ⟨op, found, rfl⟩ := indexed.port i burstIdx (flight present)
      exact ⟨op, found, once present⟩
    · rintro ⟨op, _, one⟩
      exact ⟨op.portIdx, List.count_pos_iff.mp (by omega)⟩
  · rw [List.isEmpty_iff, List.eq_nil_iff_forall_not_mem]
    exact forall_congr' fun burstIdx => not_congr (keys burstIdx)

end Places

/-- Every run of the threads of `pe` and of `MemWrapper` between them, whatever the
memory does: between two cycles, before and after `bfsController`. -/
theorem registry_run {final : Timed LinkedThread Linked}
    (run : Relation.ReflTransGen (Cycle gl) (start gl ramData) final)
    (waiting : ∀ thread, final.now < final.due thread) :
    final.state.update.Registry ∧ final.state.settle.Registry := by
  have holds := invariant_of_step Holds run (holds_start gl ramData) fun _ _ => Holds.step
  have updated := holds.update (waiting _) (waiting _) (waiting _) fun _ => waiting _
  have soon : ∀ {due : Nat}, Aligned 1 final.now due → final.now < due → due = final.now + 1 :=
    fun aligned behind => by
      have := aligned.soon
      omega
  simp only [soon holds.sending (waiting _), soon holds.getting (waiting _),
    soon holds.reading (waiting _), soon (holds.responding 0) (waiting _)] at updated
  exact ⟨updated.registry, updated.bfsController.registry⟩

def peThreads : List TimedThread :=
  [⟨.sendMemReq, nofun⟩, ⟨.getMemResp, nofun⟩] ++
    (List.finRange 4).map (fun i => ⟨.issueInspectDepthReadReq i, nofun⟩) ++
    (List.finRange 4).map (fun i => ⟨.processInspectDepthReadResp i, nofun⟩) ++
    [⟨.inspectDepthAnalysis, nofun⟩, ⟨.frontierAnalysis, nofun⟩,
      ⟨.processExpandRpaoReadResp, nofun⟩, ⟨.issueExpandCiaoReadReq, nofun⟩,
      ⟨.processExpandCiaoReadResp, nofun⟩, ⟨.issueExpandDepthReadReq, nofun⟩,
      ⟨.processExpandDepthReadResp, nofun⟩, ⟨.expandDepthAnalysis, nofun⟩,
      ⟨.processExpandDepthWriteResp, nofun⟩]

theorem mem_peThreads (thread : TimedThread) : thread ∈ peThreads := by
  obtain ⟨thread, timed⟩ := thread
  cases thread with
  | bfsController => exact absurd rfl timed
  | _ => simp [peThreads]

def threads : List LinkedThread := [.getBurstReq, .sendBurstResp] ++ peThreads.map .pe

theorem mem_threads (thread : LinkedThread) : thread ∈ threads := by
  cases thread with
  | pe thread => simp [threads, mem_peThreads thread]
  | _ => simp [threads]

def turn (gl : Gl) (answers now : Nat) : LinkedThread → Linked → Option (Linked × Nat)
  | .getBurstReq, l => some (l.getBurstReq, 1)
  | .sendBurstResp, l =>
      (l.sendBurstResp fun _ => if now < answers then .missing else .due).map (·, 1)
  | .pe thread, l =>
      if thread.val = .sendMemReq then some (l.sendMemReq, 1)
      else if thread.val = .getMemResp then some (l.getMemResp, 1)
      else (l.pe.resume gl thread.val).map fun (pe, delay) =>
        ({ l with pe, record := l.record.extend l.pe.toBurstQueues pe.toBurstQueues }, delay)

theorem resume_of_turn {answers now : Nat} {thread : LinkedThread} {l after : Linked} {delay : Nat}
    (turned : turn gl answers now thread l = some (after, delay)) :
    Resume gl thread now l after delay := by
  cases thread with
  | getBurstReq =>
      cases turned
      exact .getBurstReq
  | sendBurstResp =>
      obtain ⟨reached, responded, same⟩ := Option.map_eq_some_iff.mp turned
      cases same
      refine .sendBurstResp (fun i => ?_) responded
      split <;> exact nofun
  | pe thread =>
      obtain ⟨thread, timed⟩ := thread
      simp only [turn] at turned
      split at turned
      · rename_i same
        subst same
        cases turned
        exact .sendMemReq
      split at turned
      · rename_i same
        subst same
        cases turned
        exact .getMemResp
      · rename_i sends reads
        obtain ⟨⟨pe, delay⟩, ran, same⟩ := Option.map_eq_some_iff.mp turned
        cases same
        exact .pe sends reads ran

def plays (gl : Gl) (answers count : Nat) (l : Linked) :
    Option (List (LinkedThread × Nat) × Linked) :=
  (rounds (turn gl answers) (fun _ _ (_ : Empty) => none) settle (fun _ => true) 0
    (List.replicate count [])
    (threads.map (·, 0)) l).bind fun (dues, l) => round (turn gl answers count) count dues l

theorem plays_run {answers count : Nat} {dues : List (LinkedThread × Nat)} {l after : Linked}
    (played : plays gl answers count l = some (dues, after))
    (waiting : ∀ entry ∈ dues, count < entry.2) :
    Relation.ReflTransGen (Cycle gl) ⟨0, fun _ => 0, l⟩ ⟨count, dueAt dues, after⟩ ∧
      ∀ thread, count < dueAt dues thread := by
  have length : 0 + (List.replicate count ([] : List Empty)).length = count := by simp
  have nodup : threads.Nodup := by decide +kernel
  have replays : Replays (Cycle gl) (turn gl answers) (fun _ _ (_ : Empty) => none) settle
      fun _ => true :=
    replays_step (fun _ _ _ _ _ => resume_of_turn) nofun
  have run := @rounds_round_run _ _ _ _ _ _ _ _ _ 0 replays (List.replicate count [])
    (threads.map (·, 0)) dues l after (by simpa [Function.comp_def] using nodup)
    (by simpa using mem_threads)
  rw [length, dueAt_zero] at run
  exact run played waiting

theorem registry_run_popped : ∃ final : Timed LinkedThread Linked,
    Relation.ReflTransGen (Cycle (Gl.layout hub)) (start (Gl.layout hub) hubRam) final ∧
      final.state.record.retired 3 = [0] ∧ final.state.pe.bursts.length = 2 ∧
      final.state.settle.pe.burstOpStatus = [1] ∧ final.state.settle.places 4 = [1] ∧
      final.state.update.Registry ∧ final.state.settle.Registry := by
  have played : ((plays (Gl.layout hub) 13 18 (start (Gl.layout hub) hubRam).state).map
      fun (dues, l) => ((dues.all (18 < ·.2), l.record.retired 3, l.pe.bursts.length),
        l.settle.pe.burstOpStatus, l.settle.places 4)) =
      some ((true, [0], 2), [1], [1]) := by
    rw [hubRam_shown]
    decide +kernel
  obtain ⟨⟨dues, l⟩, ran, observed⟩ := Option.map_eq_some_iff.mp played
  simp only [Prod.mk.injEq] at observed
  obtain ⟨⟨waiting, retired, created⟩, status, places⟩ := observed
  obtain ⟨run, waits⟩ := plays_run ran (by simpa using waiting)
  exact ⟨_, run, retired, created, status, places, registry_run run waits⟩

end Linked

end GraphAccelerator
