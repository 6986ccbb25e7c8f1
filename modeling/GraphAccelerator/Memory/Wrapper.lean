import Mathlib.Data.List.FinRange
import Mathlib.Algebra.Order.Group.Multiset
import GraphAccelerator.Memory.Burst
import GraphAccelerator.Library.Kernel

/-!
# The memory wrapper

`getBurstReq` splits the bursts that arrive on the ports into basic requests,
`run_acc` sends these to the memory one at a time and accounts for their completion,
and `sendBurstResp` answers the bursts of each port in the order of their arrival.
The memory itself is a parameter: it accepts or rejects what is sent, and a tick
calls some requests back.
-/

namespace GraphAccelerator.Memory

open CheckedLoop

/-- The memory as `run_acc` uses it: `send before req accepted after` and
`tick before callbacks after`. -/
structure Ramulator (Mem : Type) where
  send : Mem → Request → Bool → Mem → Prop
  tick : Mem → List Request → Mem → Prop

/-- The state of the wrapper and of `GL`.  Five fields are history variables: the
bursts that `getBurstReq` has read, the requests it has put in `reqQueue`, the
requests `processedReqNum` was increased for, the pushes to `burstRespQueue`, and the
bursts that were copied from or to the memory image. -/
structure MemWrapper where
  bursts : List BurstOp := []
  reqIdx : Nat := 0
  burstReqQueue : Port → List Nat := fun _ => []
  burstRespQueue : Port → List Nat := fun _ => []
  reqQueue : List Request := []
  totalReqNum : Nat → Int := fun _ => 0
  processedReqNum : Nat → Int := fun _ => 0
  ramData : List Byte := []
  received : List Nat := []
  converted : List Request := []
  counted : List Origin := []
  completed : List (Port × Nat) := []
  copied : List Nat := []

/-- The variables of `run_acc`; `sent` is a history variable, the requests that the
memory has accepted. -/
structure RunAcc where
  req : Request
  stall : Bool := false
  success : Bool := false
  sent : List Request := []

namespace MemWrapper

/-- The body of the loop of `getBurstReq`; `none` on a port is the value -1. -/
def getBurstReqPort (cfg : BurstCfg) (burstReq : Port → Option Nat) (w : MemWrapper)
    (i : Port) : Option MemWrapper :=
  match burstReq i with
  | none => some w
  | some burstIdx => do
      let op ← w.bursts[burstIdx]?
      let reqs ← op.convertToReq cfg
      return { w with
        burstReqQueue := Function.update w.burstReqQueue i (w.burstReqQueue i ++ [burstIdx])
        totalReqNum := Function.update w.totalReqNum burstIdx (op.getReqNum cfg)
        processedReqNum := Function.update w.processedReqNum burstIdx 0
        reqQueue := w.reqQueue ++ reqs
        received := w.received ++ [burstIdx]
        converted := w.converted ++ reqs }

def getBurstReq (cfg : BurstCfg) (burstReq : Port → Option Nat) (w : MemWrapper) :
    Option MemWrapper :=
  (List.finRange 8).foldlM (getBurstReqPort cfg burstReq) w

/-- Moves the bytes of an answered burst from or to the memory image. -/
def copyBytes (op : BurstOp) (ramData : List Byte) : Option (BurstOp × List Byte) :=
  if op.type = .write then (op.reqToRam ramData).map fun ramData => (op, ramData)
  else (op.ramToReq ramData).map fun op => (op, ramData)

/-- Answers the burst `idx`: copies its bytes and removes it from both queues. -/
def answer (i : Port) (idx : Nat) (op : BurstOp) (w : MemWrapper) : Option MemWrapper := do
  let (op, ramData) ← copyBytes op w.ramData
  return { w with
    bursts := w.bursts.set idx op
    ramData
    burstReqQueue := Function.update w.burstReqQueue i (w.burstReqQueue i).tail
    burstRespQueue := Function.update w.burstRespQueue i ((w.burstRespQueue i).erase idx)
    copied := w.copied ++ [idx] }

/-- The body of the loop of `sendBurstResp`: the new state and what is written to the
signal of the port, where the outer `none` is the branch that writes nothing. -/
def sendBurstRespPort (now : Int) (w : MemWrapper) (i : Port) :
    Option (MemWrapper × Option (Option Nat)) :=
  match w.burstReqQueue i with
  | [] => some (w, some none)
  | idx :: _ =>
      if idx ∈ w.burstRespQueue i then do
        let op ← w.bursts[idx]?
        if op.departMemTime ≤ now then
          return (← w.answer i idx op, some (some idx))
        else
          return (w, none)
      else
        some (w, some none)

/-- What `sendBurstResp` finds on the response queue of a port: no response for the next
burst, one that is too early, or one that is due. -/
inductive Found where
  | missing
  | early
  | due
  deriving DecidableEq

def found (now : Int) (w : MemWrapper) (i : Port) : Found :=
  match w.burstReqQueue i with
  | [] => .missing
  | idx :: _ =>
      if idx ∈ w.burstRespQueue i then
        if ∃ op ∈ w.bursts[idx]?, op.departMemTime ≤ now then .due else .early
      else .missing

/-- Accounts for one basic request, as `run_acc` does for an accepted write and
`read_complete` for a read. -/
def account (udf : UDF) (w : MemWrapper) : Option MemWrapper := do
  let burstIdx := udf.burstIdx
  let op ← w.bursts[burstIdx]?
  let processed := w.processedReqNum burstIdx + 1
  let op := { op with
    arriveMemTime := if processed = 1 then udf.arriveMemTime else op.arriveMemTime }
  let w := { w with
    processedReqNum := Function.update w.processedReqNum burstIdx processed
    counted := w.counted ++ [udf.origin] }
  if processed = w.totalReqNum burstIdx then
    return { w with
      bursts := w.bursts.set burstIdx { op with departMemTime := udf.departMemTime }
      burstRespQueue := Function.update w.burstRespQueue udf.portIdx
        (w.burstRespQueue udf.portIdx ++ [burstIdx])
      completed := w.completed ++ [(udf.portIdx, burstIdx)] }
  else
    return { w with bursts := w.bursts.set burstIdx op }

def readComplete (memClkCycle : Int) (w : MemWrapper) (r : Request) : Option MemWrapper :=
  let latency := r.depart - r.arrive
  w.account { r.udf with departMemTime := r.udf.arriveMemTime + memClkCycle * latency }

end MemWrapper

def Request.stamp (memClkCycle : Int) (r : Request) : UDF :=
  { r.udf with departMemTime := r.udf.arriveMemTime + memClkCycle * (r.depart - r.arrive) }

theorem readComplete_eq (memClkCycle : Int) (w : MemWrapper) (r : Request) :
    w.readComplete memClkCycle r = w.account (r.stamp memClkCycle) := rfl

section Inversion

variable {w after : MemWrapper}

/-- The inversion of `account`: the burst is completed exactly when the counter
reaches the total. -/
theorem account_cases {udf : UDF} (accounted : w.account udf = some after) :
    ∃ op counted : BurstOp, w.bursts[udf.burstIdx]? = some op ∧ counted.shape = op.shape ∧
      ((w.processedReqNum udf.burstIdx + 1 = w.totalReqNum udf.burstIdx ∧
        counted.departMemTime = udf.departMemTime ∧
        after = { w with
          bursts := w.bursts.set udf.burstIdx counted
          processedReqNum := Function.update w.processedReqNum udf.burstIdx
            (w.processedReqNum udf.burstIdx + 1)
          burstRespQueue := Function.update w.burstRespQueue udf.portIdx
            (w.burstRespQueue udf.portIdx ++ [udf.burstIdx])
          counted := w.counted ++ [udf.origin]
          completed := w.completed ++ [(udf.portIdx, udf.burstIdx)] }) ∨
      (w.processedReqNum udf.burstIdx + 1 ≠ w.totalReqNum udf.burstIdx ∧
        counted.departMemTime = op.departMemTime ∧
        after = { w with
          bursts := w.bursts.set udf.burstIdx counted
          processedReqNum := Function.update w.processedReqNum udf.burstIdx
            (w.processedReqNum udf.burstIdx + 1)
          counted := w.counted ++ [udf.origin] })) := by
  simp only [MemWrapper.account, Option.bind_eq_bind, Option.bind_eq_some_iff] at accounted
  obtain ⟨op, present, accounted⟩ := accounted
  split at accounted
  · rename_i last
    obtain rfl := Option.some.inj accounted
    refine ⟨op, _, present, ?_, .inl ⟨last, ?_, rfl⟩⟩ <;> rfl
  · rename_i more
    obtain rfl := Option.some.inj accounted
    refine ⟨op, _, present, ?_, .inr ⟨more, ?_, rfl⟩⟩ <;> rfl

/-- The inversion of `answer`: a write changes the memory image, a read the burst. -/
theorem answer_cases {i : Port} {idx : Nat} {op : BurstOp} (answered : w.answer i idx op = some after) :
    ∃ copied ramData, copied.shape = op.shape ∧
      copied.departMemTime = op.departMemTime ∧
      ((op.type = .write ∧ copied = op ∧ op.reqToRam w.ramData = some ramData) ∨
        (op.type ≠ .write ∧ op.ramToReq w.ramData = some copied ∧ ramData = w.ramData)) ∧
      after = { w with
        bursts := w.bursts.set idx copied
        ramData
        burstReqQueue := Function.update w.burstReqQueue i (w.burstReqQueue i).tail
        burstRespQueue := Function.update w.burstRespQueue i ((w.burstRespQueue i).erase idx)
        copied := w.copied ++ [idx] } := by
  simp only [MemWrapper.answer, Option.bind_eq_bind, Option.bind_eq_some_iff] at answered
  obtain ⟨⟨copied, ramData⟩, moved, answered⟩ := answered
  obtain rfl := Option.some.inj answered
  unfold MemWrapper.copyBytes at moved
  split at moved
  · rename_i isWrite
    obtain ⟨bytes, written, same⟩ := Option.map_eq_some_iff.mp moved
    obtain ⟨rfl, rfl⟩ := Prod.mk.inj same
    exact ⟨op, bytes, rfl, rfl, .inl ⟨isWrite, rfl, written⟩, rfl⟩
  · rename_i isRead
    obtain ⟨other, read, same⟩ := Option.map_eq_some_iff.mp moved
    obtain ⟨rfl, rfl⟩ := Prod.mk.inj same
    obtain ⟨bytes, rfl⟩ := ramToReq_eq read
    refine ⟨_, w.ramData, ?_, ?_, .inr ⟨isRead, read, rfl⟩, rfl⟩ <;> rfl

/-- The inversion of `sendBurstResp` on one port: nothing to answer, an answer, or a
burst that is completed but not yet due. -/
theorem sendBurstRespPort_cases {now : Int} {i : Port} {written : Option (Option Nat)}
    (ran : w.sendBurstRespPort now i = some (after, written)) :
    (after = w ∧ written = some none) ∨
    (∃ idx rest op, w.burstReqQueue i = idx :: rest ∧ idx ∈ w.burstRespQueue i ∧
      w.bursts[idx]? = some op ∧ op.departMemTime ≤ now ∧ w.answer i idx op = some after ∧
      written = some (some idx)) ∨
    (∃ idx rest op, w.burstReqQueue i = idx :: rest ∧ idx ∈ w.burstRespQueue i ∧
      w.bursts[idx]? = some op ∧ now < op.departMemTime ∧ after = w ∧ written = none) := by
  unfold MemWrapper.sendBurstRespPort at ran
  cases queue : w.burstReqQueue i with
  | nil =>
      rw [queue] at ran
      obtain ⟨rfl, rfl⟩ := Prod.mk.inj (Option.some.inj ran)
      exact .inl ⟨rfl, rfl⟩
  | cons idx rest =>
      rw [queue] at ran
      dsimp only at ran
      split at ran
      · rename_i completed
        rw [Option.bind_eq_bind, Option.bind_eq_some_iff] at ran
        obtain ⟨op, present, ran⟩ := ran
        split at ran
        · rename_i due
          rw [Option.bind_eq_bind, Option.bind_eq_some_iff] at ran
          obtain ⟨answered, answer, ran⟩ := ran
          obtain ⟨rfl, rfl⟩ := Prod.mk.inj (Option.some.inj ran)
          exact .inr (.inl ⟨idx, rest, op, rfl, completed, present, due, answer, rfl⟩)
        · rename_i notDue
          obtain ⟨rfl, rfl⟩ := Prod.mk.inj (Option.some.inj ran)
          exact .inr (.inr ⟨idx, rest, op, rfl, completed, present, by omega, rfl, rfl⟩)
      · obtain ⟨rfl, rfl⟩ := Prod.mk.inj (Option.some.inj ran)
        exact .inl ⟨rfl, rfl⟩

theorem sendBurstRespPort_found {now : Int} {i : Port} {written : Option (Option Nat)}
    (ran : w.sendBurstRespPort now i = some (after, written)) :
    (w.found now i = .missing ∧ after = w ∧ written = some none) ∨
    (w.found now i = .early ∧ after = w ∧ written = none) ∨
    (w.found now i = .due ∧ ∃ idx rest op, w.burstReqQueue i = idx :: rest ∧
      w.bursts[idx]? = some op ∧ w.answer i idx op = some after ∧ written = some (some idx)) := by
  rw [MemWrapper.sendBurstRespPort] at ran
  rw [MemWrapper.found]
  cases queue : w.burstReqQueue i with
  | nil =>
      rw [queue] at ran
      obtain ⟨rfl, rfl⟩ := Prod.mk.inj (Option.some.inj ran)
      exact .inl ⟨rfl, rfl, rfl⟩
  | cons idx rest =>
      rw [queue] at ran
      dsimp only at ran ⊢
      split at ran
      · rename_i completed
        obtain ⟨op, present, ran⟩ := Option.bind_eq_some_iff.mp ran
        rw [if_pos completed, present]
        split at ran
        · rename_i due
          obtain ⟨answered, answer, ran⟩ := Option.bind_eq_some_iff.mp ran
          obtain ⟨rfl, rfl⟩ := Prod.mk.inj (Option.some.inj ran)
          exact .inr (.inr ⟨if_pos ⟨op, rfl, due⟩, idx, rest, op, rfl, present, answer, rfl⟩)
        · rename_i early
          obtain ⟨rfl, rfl⟩ := Prod.mk.inj (Option.some.inj ran)
          refine .inr (.inl ⟨if_neg ?_, rfl, rfl⟩)
          rintro ⟨other, same, due⟩
          exact early (Option.some.inj same ▸ due)
      · rename_i pending
        obtain ⟨rfl, rfl⟩ := Prod.mk.inj (Option.some.inj ran)
        exact .inl ⟨if_neg pending, rfl, rfl⟩

theorem exists_of_early {now : Int} {i : Port} (early : w.found now i = .early) :
    ∃ idx rest, w.burstReqQueue i = idx :: rest := by
  rw [MemWrapper.found] at early
  cases queue : w.burstReqQueue i with
  | nil => simp [queue] at early
  | cons idx rest => exact ⟨idx, rest, rfl⟩

theorem found_congr {now : Int} {i : Port} (requests : after.burstReqQueue i = w.burstReqQueue i)
    (responses : after.burstRespQueue i = w.burstRespQueue i)
    (departs : ∀ idx : Nat, after.bursts[idx]?.map BurstOp.departMemTime =
      w.bursts[idx]?.map BurstOp.departMemTime) : after.found now i = w.found now i := by
  have departed : ∀ idx : Nat, (∃ op ∈ after.bursts[idx]?, op.departMemTime ≤ now) ↔
      ∃ op ∈ w.bursts[idx]?, op.departMemTime ≤ now := by
    intro idx
    have same := departs idx
    cases mine : after.bursts[idx]? <;> cases other : w.bursts[idx]? <;>
      simp_all
  simp only [MemWrapper.found, requests, responses, departed]

theorem found_answer {now : Int} {i j : Port} {idx : Nat} {op : BurstOp}
    (answered : w.answer i idx op = some after) (present : w.bursts[idx]? = some op)
    (elsewhere : j ≠ i) : after.found now j = w.found now j := by
  obtain ⟨copied, ramData, _, depart, _, rfl⟩ := answer_cases answered
  refine found_congr (Function.update_of_ne elsewhere _ _) (Function.update_of_ne elsewhere _ _)
    fun other => ?_
  rw [List.getElem?_set]
  split
  · rename_i here
    subst here
    rw [if_pos (List.getElem?_eq_some_iff.mp present).1, present, Option.map_some,
      Option.map_some, depart]
  · rfl

end Inversion

structure MemSystem (Mem : Type) where
  w : MemWrapper
  acc : RunAcc
  mem : Mem

section RunAcc

variable {Mem : Type}

def getMemReq (now : Int) (s : MemSystem Mem) : MemSystem Mem :=
  if s.acc.stall then s
  else
    match s.w.reqQueue with
    | [] => { s with acc := { s.acc with success := false } }
    | tmp :: rest => { s with
        w := { s.w with reqQueue := rest }
        acc := { s.acc with
          req := { s.acc.req with
            type := tmp.type
            addr := tmp.addr
            udf := { tmp.udf with arriveMemTime := now } }
          success := true } }

def afterSend (now : Int) (accepted : Bool) (s : MemSystem Mem) (mem : Mem) :
    Option (MemSystem Mem) :=
  if accepted then
    let acc := { s.acc with stall := false, sent := s.acc.sent ++ [s.acc.req] }
    if s.acc.req.type = .write then do
      let udf := { s.acc.req.udf with departMemTime := now }
      return { w := ← s.w.account udf, acc := { acc with req := { acc.req with udf } }, mem }
    else
      some { w := s.w, acc, mem }
  else
    some { w := s.w, acc := { s.acc with stall := true }, mem }

/-- One iteration of `run_acc` up to its `wait`. -/
inductive SendPhase (ram : Ramulator Mem) (now : Int) : MemSystem Mem → MemSystem Mem → Prop
  | idle {s : MemSystem Mem} : (getMemReq now s).acc.success = false →
      SendPhase ram now s (getMemReq now s)
  | send {s after : MemSystem Mem} {accepted : Bool} {mem : Mem} :
      (getMemReq now s).acc.success = true →
      ram.send s.mem (getMemReq now s).acc.req accepted mem →
      afterSend now accepted (getMemReq now s) mem = some after →
      SendPhase ram now s after

/-- The rest of the iteration: the tick with its callbacks. -/
inductive TickPhase (ram : Ramulator Mem) (memClkCycle : Int) :
    MemSystem Mem → MemSystem Mem → Prop
  | tick {s : MemSystem Mem} {callbacks : List Request} {mem : Mem} {w : MemWrapper} :
      ram.tick s.mem callbacks mem →
      callbacks.foldlM (MemWrapper.readComplete memClkCycle) s.w = some w →
      TickPhase ram memClkCycle s { s with w, mem }

/-- The three outcomes of a `send`: rejected, an accepted write, which is accounted
for at once, and another accepted request. -/
theorem afterSend_cases {now : Int} {accepted : Bool} {mem : Mem}
    {s after : MemSystem Mem} (sent : afterSend now accepted s mem = some after) :
    (accepted = false ∧ after = ⟨s.w, { s.acc with stall := true }, mem⟩) ∨
    (accepted = true ∧ s.acc.req.type = .write ∧
      ∃ w, s.w.account { s.acc.req.udf with departMemTime := now } = some w ∧
        after = ⟨w, { s.acc with
          req := { s.acc.req with udf := { s.acc.req.udf with departMemTime := now } }
          stall := false
          sent := s.acc.sent ++ [s.acc.req] }, mem⟩) ∨
    (accepted = true ∧ s.acc.req.type ≠ .write ∧
      after = ⟨s.w, { s.acc with stall := false, sent := s.acc.sent ++ [s.acc.req] }, mem⟩) := by
  unfold afterSend at sent
  cases accepted with
  | false => exact .inl ⟨rfl, (Option.some.inj sent).symm⟩
  | true =>
      by_cases isWrite : s.acc.req.type = .write
      · rw [if_pos rfl, if_pos isWrite, Option.bind_eq_bind, Option.bind_eq_some_iff] at sent
        obtain ⟨w, accounted, sent⟩ := sent
        exact .inr (.inl ⟨rfl, isWrite, w, accounted, (Option.some.inj sent).symm⟩)
      · rw [if_pos rfl, if_neg isWrite] at sent
        exact .inr (.inr ⟨rfl, isWrite, (Option.some.inj sent).symm⟩)

end RunAcc

end GraphAccelerator.Memory
