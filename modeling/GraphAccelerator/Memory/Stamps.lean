import GraphAccelerator.Memory.Clocked
import GraphAccelerator.Memory.ExactlyOnce

/-!
# The time stamps of a burst

As long as the callbacks are orderly, the stamps of a burst bound those of its basic
requests, and they are in the order of its way through the transport and the memory.
-/

namespace GraphAccelerator.Memory

open CheckedLoop Relation

namespace Stamped

variable {Mem : Type} {cfg : BurstCfg} {ledger : Ledger Mem} {ram : Ramulator Mem}
  {clocks : Clocks} {before after : Kernel.Timed Thread (Stamped Mem)}

structure Holds (cfg : BurstCfg) (clocks : Clocks) (ledger : Ledger Mem)
    (t : Kernel.Timed Thread (Stamped Mem)) : Prop where
  carried : Transport.Carried clocks ledger ⟨t.now, t.due, t.state.transport⟩
  clocked : Clocked cfg ledger t.now t.state.stamps t.state.transport

theorem Holds.step (serves : ram.Serves ledger) (forward : ram.Forward)
    (holds : Holds cfg clocks ledger before)
    (stepped : Step cfg ram clocks (AllOrderly clocks.memClkCycle) before after) :
    Holds cfg clocks ledger after := by
  obtain ⟨carried, clocked⟩ := holds
  cases stepped with
  | @resume now due s final thread delay running positive resumed =>
      cases resumed with
      | other onPeClk resumed =>
          cases resumed with
          | sendMemReq ran =>
              have both := carried.sendMemReq _ clocked
                (fun _ _ _ stepped order clocked => clocked.sendMemReqPort order stepped) running ran
              exact ⟨both.1, both.2⟩
          | getMemResp ran =>
              have both := carried.getMemResp _ clocked
                (fun _ _ _ stepped order clocked =>
                  clocked.getMemRespPort carried.aligned running order stepped) running ran
              exact ⟨both.1, both.2⟩
          | getBurstReq ran =>
              have both := carried.getBurstReq _ clocked
                (fun _ _ _ stepped order clocked => clocked.getBurstReqPort
                  (fun _ arrives => order.current_fresh carried.aligned running arrives) stepped)
                running ran
              exact ⟨both.1, both.2⟩
          | sendBurstResp ran =>
              have both := carried.sendBurstResp _ clocked
                (fun _ _ _ stepped _ clocked => clocked.sendBurstRespPort stepped) running ran
              exact ⟨both.1, both.2⟩
          | start _ _ => exact absurd rfl onPeClk
          | runAcc _ _ _ => exact absurd rfl onPeClk
      | start notYet phase =>
          exact ⟨carried.runAcc serves running
            (.start notYet phase : Transport.Resume cfg ram clocks _ _ _ _ _),
            clocked.start serves carried phase⟩
      | runAcc started ticked orderly ran phase =>
          exact ⟨carried.runAcc serves running
            (.runAcc started (.tick ticked ran) phase : Transport.Resume cfg ram clocks _ _ _ _ _),
            clocked.runAcc serves forward carried running started ticked orderly ran phase⟩
  | @interfere now due s final used =>
      obtain ⟨used, same⟩ := used
      refine ⟨carried.use used, ?_⟩
      rw [same]
      refine clocked.use (fun i => (carried.ports i).onPort) (fun i idx known => ?_) used
      rw [(carried.ports i).order]
      simp [known]
  | advance waiting => exact ⟨carried.advance waiting, clocked.advance⟩

theorem Holds.bounds {t : Kernel.Timed Thread (Stamped Mem)} (holds : Holds cfg clocks ledger t) :
    Bounds t.state := by
  obtain ⟨carried, clocked⟩ := holds
  obtain ⟨now, due, s, stamps⟩ := t
  have source : ∀ {idx : Nat}, ∀ u ∈ stamps, u.burstIdx = idx →
      ∃ r ∈ s.sys.acc.sent ++ s.sys.acc.held, r.udf.burstIdx = idx ∧
        r.udf.arriveMemTime = u.arriveMemTime := by
    intro idx u membership own
    obtain ⟨r, sent, origin, time⟩ := clocked.stamped.source u membership
    exact ⟨r, List.mem_append_left _ sent,
      (congrArg Origin.burstIdx origin : r.udf.origin.burstIdx = u.origin.burstIdx).trans own, time⟩
  have stamped : ∀ {i : Port} {idx : Nat}, (i, idx) ∈ s.sys.w.completed →
      ∃ op, s.sys.w.bursts[idx]? = some op ∧ ∃ u ∈ stamps, u.burstIdx = idx := by
    intro i idx completed
    have all := ((clocked.accounting.tallied.completed i idx).mp completed).1
    obtain ⟨op, present⟩ :=
      AllCounted.present clocked.accounting.numbered clocked.accounting.tallied all
    have count : (stamps.countP (·.burstIdx = idx) : Nat) = s.sys.w.totalReqNum idx :=
      (clocked.stamped.processed clocked.accounting.tallied idx).symm.trans all.2
    have positive : 0 < s.sys.w.totalReqNum idx := all.1
    rw [← count] at positive
    obtain ⟨u, membership, own⟩ := List.countP_pos_iff.mp (Int.natCast_pos.mp positive)
    exact ⟨op, present, u, membership, of_decide_eq_true own⟩
  refine ⟨fun i idx completed => ?_, fun i idx known => ?_⟩
  · obtain ⟨op, present, some⟩ := stamped completed
    have all := ((clocked.accounting.tallied.completed i idx).mp completed).1
    obtain ⟨⟨u, membership, own, time⟩, least⟩ := clocked.stamped.arrive idx op present some
    obtain ⟨⟨v, last, ownLast, timeLast⟩, greatest⟩ :=
      clocked.stamped.depart i idx op completed present
    refine ⟨op, present, ?_, ⟨⟨u, membership, own, time⟩, ?_⟩, ⟨v, last, ownLast, timeLast⟩, ?_⟩
    · exact (clocked.stamped.processed clocked.accounting.tallied idx).symm.trans all.2
    · rintro _ ⟨other, present, own, rfl⟩
      obtain ⟨r, fetched, burst, time⟩ := source other present own
      exact time ▸ least r fetched burst
    · rintro _ ⟨other, present, own, rfl⟩
      exact greatest other present own
  · obtain ⟨j, completed⟩ := clocked.completed carried i idx known
    obtain ⟨op, present, some⟩ := stamped completed
    obtain ⟨⟨u, membership, own, time⟩, _⟩ := clocked.stamped.arrive idx op present some
    obtain ⟨_, greatest⟩ := clocked.stamped.depart j idx op completed present
    obtain ⟨r, fetched, burst, fetchedTime⟩ := source u membership own
    have left := clocked.requests.left r fetched op (burst ▸ present)
    have span := (clocked.stamped.span u membership).1
    refine ⟨op, present, ?_, ?_, clocked.delivered i idx known op present⟩
    · rw [← time, ← fetchedTime]
      exact left
    · rw [← time]
      exact span.trans (greatest u membership own)

structure Initial (ledger : Ledger Mem) (t : Kernel.Timed Thread (Stamped Mem)) : Prop where
  transport : Transport.Initial ledger ⟨t.now, t.due, t.state.transport⟩
  stamps : t.state.stamps = []

theorem Initial.holds {t : Kernel.Timed Thread (Stamped Mem)} (initial : Initial ledger t) :
    Holds cfg clocks ledger t := by
  obtain ⟨now, due, s, stamps⟩ := t
  obtain ⟨transport, rfl⟩ := initial
  refine ⟨transport.carried, ?_⟩
  obtain ⟨rfl, _, sys, _, idle⟩ := transport
  dsimp only at sys idle
  have accounting : Accounting cfg s.sys (ledger.origins s.sys.mem) := sys.accounting
  obtain ⟨⟨ramData, w⟩, stall, sent, mem⟩ := sys
  have held : s.sys.acc.held = [] := by simp [RunAcc.held, stall]
  refine ⟨accounting, ?_, ?_, ?_, ?_, ?_⟩
  · rw [w]
    exact ⟨by simp, by simp⟩
  · rw [sent, held]
    exact ⟨by simp, by simp, by simp⟩
  · rw [sent, held, mem, w]
    exact ⟨rfl, by simp, by simp, by simp, by simp, by simp, by simp, by simp⟩
  · rw [idle]
    simp
  · rw [idle]
    simp

/-! ### A run over a memory that calls back in any order -/

theorem anyOrder_forward : anyOrder.Forward := fun ⟨_, _, departed⟩ r called =>
  (departed r called).1

instance (memClkCycle : Int) (w : MemWrapper) (stamps : List UDF) (r : Request) :
    Decidable (Orderly memClkCycle w stamps r) :=
  decidable_of_iff (_ ∧ _) ⟨fun ⟨first, last⟩ => ⟨first, last⟩, fun ⟨first, last⟩ => ⟨first, last⟩⟩

instance decidableAllOrderly (memClkCycle : Int) (w : MemWrapper) : ∀ stamps callbacks,
    Decidable (AllOrderly memClkCycle w stamps callbacks)
  | _, [] => .isTrue trivial
  | stamps, r :: rest =>
      have := decidableAllOrderly memClkCycle w (stamps ++ [r.stamp memClkCycle]) rest
      inferInstanceAs (Decidable (_ ∧ _))

section Play

variable {permits : MemWrapper → List UDF → List Request → Prop}
  [∀ w stamps callbacks, Decidable (permits w stamps callbacks)]
variable {services : Nat → AnyOrder.Service} {s next : Stamped AnyOrder} {now : Nat}

def turn (cfg : BurstCfg) (clocks : Clocks)
    (permits : MemWrapper → List UDF → List Request → Prop)
    [∀ w stamps callbacks, Decidable (permits w stamps callbacks)]
    (services : Nat → AnyOrder.Service) (now : Nat) (thread : Thread) (s : Stamped AnyOrder) :
    Option (Stamped AnyOrder × Nat) :=
  if thread ≠ .runAcc then
    (s.transport.turn cfg clocks services now thread).map fun (transport, delay) =>
      ({ s with transport }, delay)
  else if s.transport.started = false then
    (AnyOrder.send now (services now).accepted s.transport.sys).map fun sys => ({
      transport := { s.transport with sys, started := true }
      stamps := s.stamps ++ sendStamps s.transport.sys sys }, clocks.memClkCycle)
  else if permits s.transport.sys.w s.stamps (services now).callbacks then
    (AnyOrder.tick clocks.memClkCycle (services now).callbacks s.transport.sys).bind fun ticked =>
      (AnyOrder.send now (services now).accepted ticked).map fun sys => ({
        transport := { s.transport with sys }
        stamps := s.stamps ++ (services now).callbacks.map (Request.stamp clocks.memClkCycle) ++
          sendStamps ticked sys }, clocks.memClkCycle)
  else none

theorem resume_of_turn {thread : Thread} {delay : Nat}
    (turned : turn cfg clocks permits services now thread s = some (next, delay)) :
    Resume cfg anyOrder clocks permits thread now s next delay := by
  unfold turn at turned
  split at turned
  · rename_i other
    obtain ⟨⟨transport, waits⟩, ran, same⟩ := Option.map_eq_some_iff.mp turned
    cases same
    exact .other other (Transport.resume_of_turn ran)
  · rename_i runAcc
    rw [not_not.mp runAcc]
    split at turned
    · rename_i notYet
      obtain ⟨sys, sent, same⟩ := Option.map_eq_some_iff.mp turned
      cases same
      exact .start notYet (AnyOrder.sendPhase_of_send sent)
    · rename_i started
      split at turned
      · rename_i permitted
        obtain ⟨ticked, called, turned⟩ := Option.bind_eq_some_iff.mp turned
        obtain ⟨sys, sent, same⟩ := Option.map_eq_some_iff.mp turned
        cases same
        obtain ⟨w, mem, lawful, completed, rfl⟩ := AnyOrder.called_of_tick called
        exact .runAcc (by simpa using started) lawful permitted completed
          (AnyOrder.sendPhase_of_send sent)
      · cases turned

def plays (cfg : BurstCfg) (clocks : Clocks)
    (permits : MemWrapper → List UDF → List Request → Prop)
    [∀ w stamps callbacks, Decidable (permits w stamps callbacks)]
    (services : Nat → AnyOrder.Service) (moves : List (List Transport.Move)) (s : Stamped AnyOrder) :
    Option (List (Thread × Nat) × Stamped AnyOrder) :=
  Kernel.rounds (turn cfg clocks permits services)
    (fun _ s made => (s.transport.move cfg made).map fun transport => { s with transport })
    (fun s => { s with transport := s.transport.settle }) (fun _ => true) 0 moves
    (Transport.threads.map (·, 0)) s

theorem plays_run {moves : List (List Transport.Move)} {ended : List (Thread × Nat)}
    (played : plays cfg clocks permits services moves s = some (ended, next)) :
    ReflTransGen (Step cfg anyOrder clocks permits) ⟨0, fun _ => 0, s⟩
      ⟨moves.length, Kernel.dueAt ended, next⟩ := by
  have uses : ∀ now made (before after : Stamped AnyOrder),
      (before.transport.move cfg made).map (fun transport => { before with transport }) = some after →
      Transport.Use cfg now before.transport after.transport ∧ after.stamps = before.stamps := by
    intro now made before after moved
    obtain ⟨transport, used, rfl⟩ := Option.map_eq_some_iff.mp moved
    exact ⟨Transport.use_of_move used, rfl⟩
  have replays : Kernel.Replays (Step cfg anyOrder clocks permits)
      (turn cfg clocks permits services) _ _ fun _ => true :=
    Kernel.replays_step (fun _ _ _ _ _ => resume_of_turn) uses
  have run := (Kernel.rounds_run replays (by decide) (by simpa using Transport.mem_threads)
    played).2
  rw [Kernel.dueAt_zero, Nat.zero_add] at run
  exact run

end Play

def unitClocks : Clocks := ⟨1, 1, by decide, by decide⟩

def playStart : Stamped AnyOrder where
  transport := Transport.playStart.state

theorem playStart_initial : Initial AnyOrder.account ⟨0, fun _ => 0, playStart⟩ where
  transport := Transport.playStart_initial
  stamps := rfl

def pairMoves (count : Nat) : List (List Transport.Move) :=
  [.create pairBurst, .push 0 []] :: List.replicate count []

def pairServices (first second : Request) (now : Nat) : AnyOrder.Service :=
  if now = 3 then ⟨[first], true⟩ else if now = 4 then ⟨[second], true⟩ else {}

/-- Over every memory that keeps its laws, for every use of the ports and every pattern
of rejections: as long as the callbacks are orderly, the stamps of a burst bound those
of its requests and are in order. -/
theorem stamps_bounds (serves : ram.Serves ledger) (forward : ram.Forward)
    {start t : Kernel.Timed Thread (Stamped Mem)} (initial : Initial ledger start)
    (run : ReflTransGen (Step cfg ram clocks (AllOrderly clocks.memClkCycle)) start t) :
    Bounds t.state :=
  (Kernel.invariant_of_step (Holds cfg clocks ledger) run initial.holds
    fun _ _ holds stepped => holds.step serves forward stepped).bounds

/-- The second block is called back before the first one: the burst takes its arrival
from the request that arrived later. -/
theorem stamps_bounds_swapped : ¬ ∀ (ram : Ramulator AnyOrder) (ledger : Ledger AnyOrder),
    ram.Serves ledger → ram.Forward → ∀ start t, Initial ledger start →
      ReflTransGen (Step ⟨64, 6, by decide⟩ ram unitClocks fun _ _ _ => True) start t →
      Bounds t.state := by
  intro bounded
  have played : ((plays ⟨64, 6, by decide⟩ unitClocks (fun _ _ _ => True)
      (pairServices (pairBlock 1 2 2 3) (pairBlock 0 1 1 4)) (pairMoves 4) playStart).map
      fun (_, s) => (s.transport.sys.w.completed, s.transport.sys.w.bursts.map (·.arriveMemTime),
        s.stamps.map (fun u => (u.burstIdx, u.arriveMemTime)))) =
      some ([(7, 0)], [2], [(0, 2), (0, 1)]) := by
    decide +kernel
  obtain ⟨⟨ended, s⟩, ran, observed⟩ := Option.map_eq_some_iff.mp played
  obtain ⟨completed, arrivals, stamps⟩ := Prod.mk.inj observed |>.imp id Prod.mk.inj
  have bounds := bounded anyOrder AnyOrder.account anyOrder_serves anyOrder_forward _ _
    playStart_initial (plays_run ran)
  obtain ⟨op, present, _, ⟨_, least⟩, _⟩ := bounds.pushed 7 0 (by simp [completed])
  have arrive : op.arriveMemTime = 2 := by
    have lookup := congrArg (·[0]?) arrivals
    simpa [present] using lookup
  -- the first block arrived at time 1
  obtain ⟨u, membership, same⟩ := List.mem_map.mp (stamps ▸ by simp :
    ((0, 1) : Nat × Int) ∈ s.stamps.map fun u => (u.burstIdx, u.arriveMemTime))
  obtain ⟨own, time⟩ := Prod.mk.inj same
  have := least ⟨u, membership, own, time⟩
  omega

theorem stamps_bounds_ordered : ∃ t,
    ReflTransGen (Step ⟨64, 6, by decide⟩ anyOrder unitClocks (AllOrderly 1))
      ⟨0, fun _ => 0, playStart⟩ t ∧
    t.state.transport.answered 7 = [0] ∧
    t.state.transport.sys.w.bursts.map (fun op => (op.departPeTime, op.arriveMemTime,
      op.departMemTime, op.arrivePeTime)) = [(0, 1, 4, 5)] ∧
    Bounds t.state := by
  have played : ((plays ⟨64, 6, by decide⟩ unitClocks (AllOrderly 1)
      (pairServices (pairBlock 0 1 1 3) (pairBlock 1 2 2 4)) (pairMoves 5) playStart).map
      fun (_, s) => (s.transport.answered 7, s.transport.sys.w.bursts.map fun op =>
        (op.departPeTime, op.arriveMemTime, op.departMemTime, op.arrivePeTime))) =
      some ([0], [(0, 1, 4, 5)]) := by
    decide +kernel
  obtain ⟨⟨ended, s⟩, ran, observed⟩ := Option.map_eq_some_iff.mp played
  obtain ⟨answered, times⟩ := Prod.mk.inj observed
  have run := plays_run ran
  exact ⟨_, run, answered, times,
    stamps_bounds anyOrder_serves anyOrder_forward playStart_initial run⟩

end Stamped

end GraphAccelerator.Memory
