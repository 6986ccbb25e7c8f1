import GraphAccelerator.Memory.Carrying
import GraphAccelerator.Memory.Completion

/-!
# Exactly once, in order

Every burst that is pushed on a port is answered once and in the order of the pushes, and
the memory image and the reads are those of the copies made one after the other.
-/

namespace GraphAccelerator.Memory

open CheckedLoop Relation

namespace Transport

variable {Mem : Type} {cfg : BurstCfg} {clocks : Clocks} {now : Nat} {due : Thread → Nat}
variable {s after : Transport Mem}
variable {i j : Port}
variable {ledger : Ledger Mem} {memClkCycle : Nat}

section Copies

variable {image : List Byte}

theorem sendMemReqPort_serial (serial : Serial image s.sys.w)
    (ran : s.sendMemReqPort now i = some after) : Serial image after.sys.w := by
  unfold sendMemReqPort at ran
  cases queue : s.burstReqQueue i with
  | nil =>
      rw [queue] at ran
      obtain rfl := Option.some.inj ran
      exact serial
  | cons burstIdx rest =>
      rw [queue, Option.bind_eq_bind, Option.bind_eq_some_iff] at ran
      obtain ⟨op, present, ran⟩ := ran
      obtain rfl := Option.some.inj ran
      exact serial.set present rfl fun _ => rfl

theorem getMemRespPort_serial (serial : Serial image s.sys.w)
    (ran : s.getMemRespPort now i = some after) : Serial image after.sys.w := by
  unfold getMemRespPort at ran
  cases current : (s.burstResp i).current with
  | none =>
      rw [current] at ran
      obtain rfl := Option.some.inj ran
      exact serial
  | some burstIdx =>
      rw [current, Option.bind_eq_bind, Option.bind_eq_some_iff] at ran
      obtain ⟨op, present, ran⟩ := ran
      obtain rfl := Option.some.inj ran
      exact serial.set present rfl fun _ => rfl

theorem sendBurstRespPort_serial {period : Nat} (order : PortOrder period now due s i)
    (serial : Serial image s.sys.w) (ran : s.sendBurstRespPort now i = some after) :
    Serial image after.sys.w := by
  unfold sendBurstRespPort at ran
  rw [Option.bind_eq_bind, Option.bind_eq_some_iff] at ran
  obtain ⟨⟨w, written⟩, answered, ran⟩ := ran
  rcases sendBurstRespPort_cases answered with ⟨rfl, rfl⟩ |
    ⟨idx, rest, op, queue, _, present, _, answer, rfl⟩ | ⟨_, _, _, _, _, _, _, rfl, rfl⟩
  · obtain rfl := Option.some.inj ran
    exact serial
  · obtain rfl := Option.some.inj ran
    exact serial.answer (order.not_copied (by simp [queue])) present answer
  · obtain rfl := Option.some.inj ran
    exact serial

theorem sendPhase_serial {ram : Ramulator Mem} {now : Int} {sys next : MemSystem Mem}
    (serial : Serial image sys.w) (phase : SendPhase ram now sys next) : Serial image next.w :=
  phase.keeps serial (fun _ _ => id) fun _ _ _ accounted serial => serial.account accounted

theorem tickPhase_serial {ram : Ramulator Mem} {period : Int} {sys next : MemSystem Mem}
    (serial : Serial image sys.w) (phase : TickPhase ram period sys next) : Serial image next.w :=
  phase.keeps serial fun _ _ _ accounted serial => serial.account accounted

theorem Carried.serial {ram : Ramulator Mem} {before after : Kernel.Timed Thread (Transport Mem)}
    (carried : Carried clocks ledger before) (serial : Serial image before.state.sys.w)
    (stepped : Step cfg ram clocks before after) : Serial image after.state.sys.w := by
  cases stepped with
  | resume running _ resumed =>
      cases resumed with
      | sendMemReq ran =>
          exact (carried.sendMemReq (fun s => Serial image s.sys.w) serial
            (fun _ _ _ stepped _ serial => sendMemReqPort_serial serial stepped) running ran).2
      | getMemResp ran =>
          exact (carried.getMemResp (fun s => Serial image s.sys.w) serial
            (fun _ _ _ stepped _ serial => getMemRespPort_serial serial stepped) running ran).2
      | getBurstReq ran =>
          rw [Transport.getBurstReq, Option.bind_eq_bind, Option.bind_eq_some_iff] at ran
          obtain ⟨w, ran, same⟩ := ran
          obtain rfl := Option.some.inj same
          obtain ⟨_, _, _, _, _, _, rfl⟩ := getBurstReq_frame ran
          exact serial
      | sendBurstResp ran =>
          exact (carried.sendBurstResp (fun s => Serial image s.sys.w) serial
            (fun _ _ _ stepped order serial => sendBurstRespPort_serial order serial stepped)
            running ran).2
      | start _ phase => exact sendPhase_serial serial phase
      | runAcc _ ticked phase => exact sendPhase_serial (tickPhase_serial serial ticked) phase
  | interfere used =>
      cases used with
      | create _ _ _ _ _ =>
          refine serial.frame rfl rfl fun idx _ op present => ⟨op, ?_, rfl⟩
          exact (List.getElem?_append_left (List.getElem?_eq_some_iff.mp present).1).trans present
      | push present fresh =>
          exact serial.set present rfl fun copied =>
            absurd copied (carried.unknown present fresh).1
      | consume => exact serial
  | advance _ => exact serial

end Copies

theorem Initial.carried {t : Kernel.Timed Thread (Transport Mem)} (initial : Initial ledger t) :
    Carried clocks ledger t := by
  obtain ⟨now, due, s⟩ := t
  obtain ⟨rfl, zero, ⟨⟨ramData, w⟩, stall, _, mem⟩, clk, idle⟩ := initial
  dsimp only at zero w stall mem clk idle
  generalize s.sys = sys at w stall mem clk idle
  subst idle
  refine ⟨fun thread => ?_, fun i => ?_, ⟨?_, ?_, ?_, ⟨?_, ?_, ?_⟩, rfl⟩, ?_⟩
  · dsimp only
    rw [zero thread]
    exact Kernel.aligned_zero _
  · refine ⟨?_, fun _ => rfl, fun _ => rfl, List.nodup_nil, by simp, by simp, by simp⟩
    simp [respUnderWay, reqUnderWay, zero, Kernel.Signal.unread, w]
  · simp [w]
  · simp [w]
  · simp [w]
  · simp [stall]
  · simp [mem]
  · intro i idx completed
    rw [w] at completed
    cases completed
  · simp [zero, clk]

theorem Initial.serial {t : Kernel.Timed Thread (Transport Mem)} (initial : Initial ledger t) :
    Serial t.state.sys.w.ramData t.state.sys.w := by
  obtain ⟨_, _, ⟨⟨ramData, w⟩, _, _, _⟩, _, _⟩ := initial
  rw [w]
  rfl

theorem carried_run {ram : Ramulator Mem} (serves : ram.Serves ledger)
    {start t : Kernel.Timed Thread (Transport Mem)} (initial : Initial ledger start)
    (run : ReflTransGen (Step cfg ram clocks) start t) :
    Carried clocks ledger t ∧ Serial start.state.sys.w.ramData t.state.sys.w :=
  Kernel.invariant_of_step
    (fun t => Carried clocks ledger t ∧ Serial start.state.sys.w.ramData t.state.sys.w) run
    ⟨initial.carried, initial.serial⟩ fun _ _ both stepped =>
      ⟨both.1.step serves stepped, both.1.serial both.2 stepped⟩

/-! ### A run over a memory that calls back in any order -/

section Play

variable {services : Nat → AnyOrder.Service} {s after : Transport AnyOrder}

def turn (cfg : BurstCfg) (clocks : Clocks) (services : Nat → AnyOrder.Service) (now : Nat) :
    Thread → Transport AnyOrder → Option (Transport AnyOrder × Nat)
  | .runAcc, s =>
      (if s.started then
          (AnyOrder.tick clocks.memClkCycle (services now).callbacks s.sys).bind
            (AnyOrder.send now (services now).accepted)
        else AnyOrder.send now (services now).accepted s.sys).map
        fun sys => ({ s with sys, started := true }, clocks.memClkCycle)
  | .sendMemReq, s => (s.sendMemReq now).map (·, clocks.peClkCycle)
  | .getMemResp, s => (s.getMemResp now).map (·, clocks.peClkCycle)
  | .getBurstReq, s => (s.getBurstReq cfg).map (·, clocks.peClkCycle)
  | .sendBurstResp, s => (s.sendBurstResp now).map (·, clocks.peClkCycle)

theorem resume_of_turn {thread : Thread} {delay : Nat}
    (turned : turn cfg clocks services now thread s = some (after, delay)) :
    Resume cfg anyOrder clocks thread now s after delay := by
  cases thread with
  | runAcc =>
      obtain ⟨sys, ran, same⟩ := Option.map_eq_some_iff.mp turned
      cases same
      split at ran
      · rename_i started
        obtain ⟨ticked, called, sent⟩ := Option.bind_eq_some_iff.mp ran
        obtain ⟨w, mem, lawful, completed, rfl⟩ := AnyOrder.called_of_tick called
        rw [← started]
        exact .runAcc started (.tick lawful completed) (AnyOrder.sendPhase_of_send sent)
      · rename_i notYet
        exact .start (by simpa using notYet) (AnyOrder.sendPhase_of_send ran)
  | sendMemReq =>
      obtain ⟨reached, ran, same⟩ := Option.map_eq_some_iff.mp turned
      cases same
      exact .sendMemReq ran
  | getMemResp =>
      obtain ⟨reached, ran, same⟩ := Option.map_eq_some_iff.mp turned
      cases same
      exact .getMemResp ran
  | getBurstReq =>
      obtain ⟨reached, ran, same⟩ := Option.map_eq_some_iff.mp turned
      cases same
      exact .getBurstReq ran
  | sendBurstResp =>
      obtain ⟨reached, ran, same⟩ := Option.map_eq_some_iff.mp turned
      cases same
      exact .sendBurstResp ran

inductive Move where
  | create (op : BurstOp)
  | push (burstIdx : Nat) (data : List Byte)
  | consume (i : Port)

def move (cfg : BurstCfg) (s : Transport AnyOrder) : Move → Option (Transport AnyOrder)
  | .create op =>
      if (op.type = .read ∨ op.type = .write) ∧ op.reqVec = [] ∧ op.addrVec = [] ∧
          op.burstIdx = s.sys.w.bursts.length then
        (newBurst cfg op s.sys.w.reqIdx).map fun (created, reqIdx) =>
          { s with sys.w := { s.sys.w with bursts := s.sys.w.bursts ++ [created], reqIdx } }
      else none
  | .push burstIdx data =>
      s.sys.w.bursts[burstIdx]?.bind fun op =>
        if burstIdx ∉ s.pushed op.portIdx then
          some { s with
            sys.w.bursts := s.sys.w.bursts.set burstIdx { op with data }
            burstReqQueue := Function.update s.burstReqQueue op.portIdx
              (s.burstReqQueue op.portIdx ++ [burstIdx])
            pushed := Function.update s.pushed op.portIdx (s.pushed op.portIdx ++ [burstIdx]) }
        else none
  | .consume i => some { s with
      burstRespQueue := Function.update s.burstRespQueue i (s.burstRespQueue i).tail }

theorem use_of_move {made : Move} (moved : s.move cfg made = some after) :
    Use cfg now s after := by
  cases made with
  | create op =>
      simp only [move] at moved
      split at moved
      · rename_i lawful
        obtain ⟨type, reqs, addrs, index⟩ := lawful
        obtain ⟨⟨created, reqIdx⟩, made, rfl⟩ := Option.map_eq_some_iff.mp moved
        exact .create type reqs addrs index made
      · cases moved
  | push burstIdx data =>
      obtain ⟨op, present, moved⟩ := Option.bind_eq_some_iff.mp moved
      split at moved
      · rename_i fresh
        obtain rfl := Option.some.inj moved
        exact .push present fresh
      · cases moved
  | consume i =>
      obtain rfl := Option.some.inj moved
      exact .consume

def threads : List Thread := [.sendMemReq, .getBurstReq, .runAcc, .sendBurstResp, .getMemResp]

theorem mem_threads (thread : Thread) : thread ∈ threads := by
  cases thread <;> simp [threads]

def plays (cfg : BurstCfg) (clocks : Clocks) (services : Nat → AnyOrder.Service)
    (moves : List (List Move)) (s : Transport AnyOrder) :
    Option (List (Thread × Nat) × Transport AnyOrder) :=
  Kernel.rounds (turn cfg clocks services) (fun _ => move cfg) settle (fun _ => true) 0 moves
    (threads.map (·, 0)) s

theorem plays_run {moves : List (List Move)} {ended : List (Thread × Nat)}
    (played : plays cfg clocks services moves s = some (ended, after)) :
    ReflTransGen (Step cfg anyOrder clocks) ⟨0, fun _ => 0, s⟩
      ⟨moves.length, Kernel.dueAt ended, after⟩ := by
  have replays : Kernel.Replays (Step cfg anyOrder clocks) (turn cfg clocks services)
      (fun _ => move cfg) settle fun _ => true :=
    Kernel.replays_step (fun _ _ _ _ _ => resume_of_turn) fun _ _ _ _ => use_of_move
  have run := (Kernel.rounds_run replays (by decide) (by simpa using mem_threads) played).2
  rw [Kernel.dueAt_zero, Nat.zero_add] at run
  exact run

end Play

def playStart : Kernel.Timed Thread (Transport AnyOrder) where
  now := 0
  due := fun _ => 0
  state := { sys := pairStart }

theorem playStart_initial : Initial AnyOrder.account playStart :=
  ⟨rfl, fun _ => rfl, pairStart_initial, rfl, rfl⟩

end Transport

end GraphAccelerator.Memory
