import GraphAccelerator.Memory.Accounting

/-!
# A memory that calls back in any order

It accepts or rejects what it is sent as it likes and calls the accepted reads back in any
order and at any later tick.  Over it the wrapper can be played step by step.
-/

namespace GraphAccelerator.Memory

open Relation

structure AnyOrder where
  clk : Nat := 0
  reads : List (UDF × Int) := []

namespace AnyOrder

def account : Ledger AnyOrder where
  clk := clk
  outstanding m := (m.reads : Multiset (UDF × Int))

def accept (accepted : Bool) (req : Request) (m : AnyOrder) : AnyOrder :=
  if accepted = true ∧ req.type = .read then { m with reads := (req.udf, (m.clk : Int)) :: m.reads }
  else m

def Calls (m : AnyOrder) (callbacks : List Request) (after : AnyOrder) : Prop :=
  after.clk = m.clk + 1 ∧
    (m.reads : Multiset (UDF × Int)) =
      (callbacks.map fun r => (r.udf, r.arrive) : List (UDF × Int)) + after.reads ∧
    ∀ r ∈ callbacks, r.arrive ≤ r.depart ∧ r.depart ≤ after.clk

instance (m : AnyOrder) (callbacks : List Request) (after : AnyOrder) :
    Decidable (m.Calls callbacks after) := inferInstanceAs (Decidable (_ ∧ _ ∧ _))

end AnyOrder

def anyOrder : Ramulator AnyOrder where
  send m req accepted after := after = m.accept accepted req
  tick := AnyOrder.Calls

theorem anyOrder_serves : anyOrder.Serves AnyOrder.account where
  send := by
    rintro m req accepted _ rfl
    by_cases read : accepted = true ∧ req.type = .read
    · exact ⟨by simp [AnyOrder.account, AnyOrder.accept, read],
        by simp [AnyOrder.account, AnyOrder.accept, read]⟩
    · exact ⟨by simp only [AnyOrder.accept, if_neg read],
        by simp only [AnyOrder.accept, if_neg read, zero_add]⟩
  tick := fun ⟨clk, reads, departed⟩ => ⟨clk, reads, fun r called => (departed r called).2⟩

namespace AnyOrder

variable {cfg : BurstCfg} {memClkCycle now : Int} {accepted : Bool} {callbacks : List Request}
variable {s after : MemSystem AnyOrder}

structure Service where
  callbacks : List Request := []
  accepted : Bool := true

def send (now : Int) (accepted : Bool) (s : MemSystem AnyOrder) : Option (MemSystem AnyOrder) :=
  if (getMemReq now s).acc.success = false then some (getMemReq now s)
  else afterSend now accepted (getMemReq now s) (s.mem.accept accepted (getMemReq now s).acc.req)

def tick (memClkCycle : Int) (callbacks : List Request) (s : MemSystem AnyOrder) :
    Option (MemSystem AnyOrder) := do
  let w ← callbacks.foldlM (MemWrapper.readComplete memClkCycle) s.w
  let mem : AnyOrder := {
    clk := s.mem.clk + 1
    reads := callbacks.foldl (fun reads r => reads.erase (r.udf, r.arrive)) s.mem.reads }
  if s.mem.Calls callbacks mem then return { s with w, mem } else none

theorem sendPhase_of_send (sent : send now accepted s = some after) :
    SendPhase anyOrder now s after := by
  unfold send at sent
  split at sent
  · rename_i none
    exact Option.some.inj sent ▸ .idle none
  · rename_i fetched
    exact .send (by simpa using fetched) rfl sent

theorem called_of_tick (ticked : tick memClkCycle callbacks s = some after) :
    ∃ w mem, anyOrder.tick s.mem callbacks mem ∧
      callbacks.foldlM (MemWrapper.readComplete memClkCycle) s.w = some w ∧
      after = { s with w, mem } := by
  simp only [tick, Option.bind_eq_bind, Option.bind_eq_some_iff] at ticked
  obtain ⟨w, completed, ticked⟩ := ticked
  split at ticked
  · rename_i lawful
    exact ⟨w, _, lawful, completed, (Option.some.inj ticked).symm⟩
  · cases ticked

inductive Move where
  | create (op : BurstOp)
  | getBurstReq (burstReq : Port → Option Nat)
  | sendBurstResp (now : Int) (i : Port)
  | send (now : Int) (accepted : Bool)
  | tick (callbacks : List Request)

def move (cfg : BurstCfg) (memClkCycle : Int) (s : MemSystem AnyOrder) :
    Move → Option (MemSystem AnyOrder)
  | .create op =>
      if (op.type = .read ∨ op.type = .write) ∧ op.reqVec = [] ∧ op.addrVec = [] ∧
          op.burstIdx = s.w.bursts.length then
        (newBurst cfg op s.w.reqIdx).map fun (created, reqIdx) =>
          { s with w := { s.w with bursts := s.w.bursts ++ [created], reqIdx } }
      else none
  | .getBurstReq burstReq =>
      if ∀ i, ∀ idx ∈ burstReq i, idx ∉ s.w.received ∧
          ∃ op ∈ s.w.bursts[idx]?, op.portIdx = i then
        (s.w.getBurstReq cfg burstReq).map fun w => { s with w }
      else none
  | .sendBurstResp now i => (s.w.sendBurstRespPort now i).map fun (w, _) => { s with w }
  | .send now accepted => send now accepted s
  | .tick callbacks => tick memClkCycle callbacks s

theorem move_step {move : Move} (moved : AnyOrder.move cfg memClkCycle s move = some after) :
    MemStep cfg anyOrder memClkCycle s after := by
  cases move with
  | create op =>
      simp only [AnyOrder.move] at moved
      split at moved
      · rename_i lawful
        obtain ⟨type, reqs, addrs, index⟩ := lawful
        obtain ⟨⟨created, reqIdx⟩, made, rfl⟩ := Option.map_eq_some_iff.mp moved
        exact .create type reqs addrs index made
      · cases moved
  | getBurstReq burstReq =>
      simp only [AnyOrder.move] at moved
      split at moved
      · rename_i fresh
        obtain ⟨w, ran, rfl⟩ := Option.map_eq_some_iff.mp moved
        exact .getBurstReq fresh ran
      · cases moved
  | sendBurstResp now i =>
      obtain ⟨⟨w, written⟩, ran, rfl⟩ := Option.map_eq_some_iff.mp moved
      exact .sendBurstResp ran
  | send now accepted => exact .send (sendPhase_of_send moved)
  | tick callbacks =>
      obtain ⟨w, mem, called, completed, rfl⟩ := called_of_tick moved
      exact .tick (.tick called completed)

theorem moves_run {moves : List Move}
    (ran : moves.foldlM (AnyOrder.move cfg memClkCycle) s = some after) :
    ReflTransGen (MemStep cfg anyOrder memClkCycle) s after :=
  CheckedLoop.foldlM_invariant (fun _ => ReflTransGen (MemStep cfg anyOrder memClkCycle) s) ran .refl
    fun _ _ _ _ _ _ run moved => run.tail (move_step moved)

end AnyOrder

end GraphAccelerator.Memory
