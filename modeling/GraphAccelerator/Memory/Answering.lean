import GraphAccelerator.Library.Kernel
import GraphAccelerator.Memory.Completion

/-!
# Bursts are completed in bounded time

A memory drains when it has room again some time after it refused a request, and when it has
called every read back some time after the last request.  Over such a memory, once no more
bursts arrive, `run_acc` sends every request that is queued and completes every burst, within
a number of periods of its clock that depends only on what is left.
-/

namespace GraphAccelerator.Memory

open CheckedLoop Relation

variable {Mem : Type} {cfg : BurstCfg} {memClkCycle : Int} {ram : Ramulator Mem}
  {ledger : Ledger Mem}

structure Ramulator.Live (ram : Ramulator Mem) : Prop where
  send : ∀ mem req, req.type = .read ∨ req.type = .write →
    ∃ accepted after, ram.send mem req accepted after
  tick : ∀ mem, ∃ callbacks after, ram.tick mem callbacks after

def Ramulator.Ticks (ram : Ramulator Mem) (n : Nat) (mems : Nat → Mem) : Prop :=
  ∀ k < n, ∃ callbacks, ram.tick (mems k) callbacks (mems (k + 1))

/-- A refused request changes nothing.  A memory that is only ticked accepts every request
after `room` ticks, and no read is outstanding after `rest` ticks and one for each read. -/
structure Ramulator.Drains (ram : Ramulator Mem) (ledger : Ledger Mem) (room rest : Nat) : Prop where
  refuses : ∀ {before req after}, ram.send before req false after → after = before
  accepts : ∀ {n mems req after}, ram.Ticks n mems → room ≤ n → ¬ ram.send (mems n) req false after
  finishes : ∀ {n mems}, ram.Ticks n mems → rest + (ledger.outstanding (mems 0)).card ≤ n →
    ledger.outstanding (mems n) = 0

def Answers (s after : MemSystem Mem) : Prop :=
  ReflTransGen (fun s after => ∃ now i w written,
    s.w.sendBurstRespPort now i = some (w, written) ∧ after = { s with w }) s after

/-- A period of the clock of the memory in which no burst arrives: an iteration of `run_acc`,
and the ports that are answered meanwhile. -/
inductive Period (ram : Ramulator Mem) (memClkCycle : Int) : MemSystem Mem → MemSystem Mem → Prop
  | intro {s fetched sent answered after : MemSystem Mem} {now : Int} :
      Answers s fetched → SendPhase ram now fetched sent → Answers sent answered →
      TickPhase ram memClkCycle answered after → Period ram memClkCycle s after

def MemSystem.unsent (s : MemSystem Mem) : Nat := (s.acc.held ++ s.w.reqQueue).length

section Frames

variable {s after : MemSystem Mem}

theorem Answers.frame (answers : Answers s after) :
    after.acc = s.acc ∧ after.mem = s.mem ∧ after.w.reqQueue = s.w.reqQueue ∧
      after.w.totalReqNum = s.w.totalReqNum := by
  induction answers with
  | refl => exact ⟨rfl, rfl, rfl, rfl⟩
  | tail _ stepped inductionHypothesis =>
      obtain ⟨now, i, w, written, ran, rfl⟩ := stepped
      obtain ⟨acc, mem, reqQueue, totalReqNum⟩ := inductionHypothesis
      refine ⟨acc, mem, ?_⟩
      rw [← reqQueue, ← totalReqNum]
      rcases sendBurstRespPort_cases ran with ⟨rfl, _⟩ | ⟨_, _, _, _, _, _, _, answer, _⟩ |
        ⟨_, _, _, _, _, _, _, rfl, _⟩
      · exact ⟨rfl, rfl⟩
      · obtain ⟨_, _, _, _, _, rfl⟩ := answer_cases answer
        exact ⟨rfl, rfl⟩
      · exact ⟨rfl, rfl⟩

theorem Answers.run (answers : Answers s after) :
    ReflTransGen (MemStep cfg ram memClkCycle) s after := by
  refine ReflTransGen.mono ?_ _ _ answers
  rintro _ _ ⟨now, i, w, written, ran, rfl⟩
  exact .sendBurstResp ran

theorem TickPhase.frame (phase : TickPhase ram memClkCycle s after) :
    after.acc = s.acc ∧ after.w.reqQueue = s.w.reqQueue ∧
      after.w.totalReqNum = s.w.totalReqNum ∧
      ∃ callbacks, ram.tick s.mem callbacks after.mem := by
  cases phase with
  | tick ticked ran =>
      obtain ⟨reqQueue, totalReqNum⟩ := foldlM_invariant (fun _ w =>
        w.reqQueue = s.w.reqQueue ∧ w.totalReqNum = s.w.totalReqNum) ran ⟨rfl, rfl⟩
        fun _ _ _ _ _ _ same accounted => by
          obtain ⟨_, _, _, _, reqQueue, totalReqNum, _⟩ := account_frame accounted
          exact ⟨reqQueue.trans same.1, totalReqNum.trans same.2⟩
      exact ⟨rfl, reqQueue, totalReqNum, _, ticked⟩

theorem getMemReq_unsent (now : Int) (holding : s.acc.stall = true → s.acc.success = true) :
    (getMemReq now s).mem = s.mem ∧
      ((getMemReq now s).acc.success = true →
        s.unsent = 1 + (getMemReq now s).w.reqQueue.length) ∧
      ((getMemReq now s).acc.success = false →
        s.unsent = 0 ∧ (getMemReq now s).unsent = 0) := by
  unfold getMemReq
  cases stalled : s.acc.stall with
  | true =>
      have success := holding stalled
      refine ⟨rfl, fun _ => ?_, fun failed => ?_⟩
      · simp [MemSystem.unsent, RunAcc.held, stalled, Nat.add_comm]
      · simp [success] at failed
  | false =>
      cases queue : s.w.reqQueue with
      | nil => simp [MemSystem.unsent, RunAcc.held, stalled, queue]
      | cons tmp rest => simp [MemSystem.unsent, RunAcc.held, stalled, queue, Nat.add_comm]

theorem afterSend_unsent {now : Int} {accepted : Bool} {mem : Mem}
    (outcome : afterSend now accepted s mem = some after) :
    after.mem = mem ∧ after.unsent = (if accepted then 0 else 1) + s.w.reqQueue.length := by
  rcases afterSend_cases outcome with ⟨rfl, rfl⟩ | ⟨rfl, _, w, accounted, rfl⟩ | ⟨rfl, _, rfl⟩
  · simp [MemSystem.unsent, RunAcc.held, Nat.add_comm]
  · simp [MemSystem.unsent, RunAcc.held, (account_frame accounted).2.2.2.2.1]
  · simp [MemSystem.unsent, RunAcc.held]

/-- There is nothing to send, or the oldest request is refused or accepted. -/
theorem SendPhase.unsent {now : Int} (phase : SendPhase ram now s after)
    (holding : s.acc.stall = true → s.acc.success = true) :
    (s.unsent = 0 ∧ after.unsent = 0 ∧ after.mem = s.mem) ∨
      (∃ req, after.unsent = s.unsent ∧ 0 < s.unsent ∧ ram.send s.mem req false after.mem) ∨
      ∃ req, after.unsent + 1 = s.unsent ∧ ram.send s.mem req true after.mem := by
  obtain ⟨sameMem, fetched, nothing⟩ := getMemReq_unsent now holding
  cases phase with
  | idle empty => exact .inl ⟨(nothing empty).1, (nothing empty).2, sameMem⟩
  | @send _ accepted mem taken sent outcome =>
      obtain ⟨rfl, later⟩ := afterSend_unsent outcome
      have before := fetched taken
      cases accepted with
      | false =>
          rw [if_neg Bool.false_ne_true] at later
          exact .inr (.inl ⟨_, later.trans before.symm, by omega, sent⟩)
      | true =>
          rw [if_pos rfl] at later
          exact .inr (.inr ⟨_, by omega, sent⟩)

theorem Period.totalReqNum (period : Period ram memClkCycle s after) :
    after.w.totalReqNum = s.w.totalReqNum := by
  obtain ⟨first, sends, second, ticks⟩ := period
  have kept := sends.keeps first.frame.2.2.2 (fun _ _ => id)
    fun w udf next accounted same => (account_frame accounted).2.2.2.2.2.1.trans same
  exact ticks.frame.2.2.1.trans (second.frame.2.2.2.trans kept)

theorem Period.run (period : Period ram memClkCycle s after) :
    ReflTransGen (MemStep cfg ram memClkCycle) s after := by
  obtain ⟨first, sends, second, ticks⟩ := period
  exact (first.run.tail (.send sends)).trans (second.run.tail (.tick ticks))

theorem Period.unsent (period : Period ram memClkCycle s after)
    (holding : s.acc.stall = true → s.acc.success = true) :
    ∃ before callbacks, ram.tick before callbacks after.mem ∧
      ((s.unsent = 0 ∧ after.unsent = 0 ∧ before = s.mem) ∨
        (∃ req, after.unsent = s.unsent ∧ 0 < s.unsent ∧ ram.send s.mem req false before) ∨
        ∃ req, after.unsent + 1 = s.unsent ∧ ram.send s.mem req true before) := by
  cases period with
  | @intro fetched sent answered _ now first sends second ticks =>
      obtain ⟨acc, mem, reqQueue, _⟩ := first.frame
      obtain ⟨laterAcc, laterMem, laterQueue, _⟩ := second.frame
      obtain ⟨lastAcc, lastQueue, _, callbacks, ticked⟩ := ticks.frame
      have left : fetched.unsent = s.unsent := by
        rw [MemSystem.unsent, MemSystem.unsent, acc, reqQueue]
      have stays : after.unsent = sent.unsent := by
        rw [MemSystem.unsent, MemSystem.unsent, lastAcc, laterAcc, lastQueue, laterQueue]
      have outcome := sends.unsent (by rw [acc]; exact holding)
      rw [left, mem, ← stays, ← laterMem] at outcome
      exact ⟨answered.mem, callbacks, ticked, outcome⟩

end Frames

section Runs

variable {start : MemSystem Mem} {run : Nat → MemSystem Mem} {room rest : Nat}

section Periods

variable (periods : ∀ k, Period ram memClkCycle (run k) (run (k + 1)))

include periods

theorem periods_run (k : Nat) : ReflTransGen (MemStep cfg ram memClkCycle) (run 0) (run k) := by
  induction k with
  | zero => exact .refl
  | succ k inductionHypothesis => exact inductionHypothesis.trans (periods k).run

theorem periods_totalReqNum (k : Nat) : (run k).w.totalReqNum = (run 0).w.totalReqNum := by
  induction k with
  | zero => rfl
  | succ k inductionHypothesis => exact (periods k).totalReqNum.trans inductionHypothesis

variable (holding : ∀ k, (run k).acc.stall = true → (run k).acc.success = true)

include holding

theorem unsent_antitone : Antitone fun k => (run k).unsent := by
  refine antitone_nat_of_succ_le fun k => ?_
  obtain ⟨_, _, _, idle | ⟨_, refused, _⟩ | ⟨_, accepted, _⟩⟩ := (periods k).unsent (holding k)
  · omega
  · omega
  · omega

variable (drains : ram.Drains ledger room rest)

include drains

theorem periods_ticks {k n : Nat} (same : ∀ j ≤ n, (run (k + j)).unsent = (run k).unsent) :
    ram.Ticks n fun j => (run (k + j)).mem := by
  intro j inside
  have here := same j (by omega)
  have next := same (j + 1) (by omega)
  rw [← Nat.add_assoc] at next
  obtain ⟨before, callbacks, ticked, ⟨_, _, idle⟩ | ⟨req, _, _, refused⟩ | ⟨_, accepted, _⟩⟩ :=
    (periods (k + j)).unsent (holding (k + j))
  · rw [idle] at ticked
    exact ⟨callbacks, ticked⟩
  · rw [drains.refuses refused] at ticked
    exact ⟨callbacks, ticked⟩
  · omega

/-- As long as a request is left, one is accepted before the memory has been ticked more than
`room` times. -/
theorem unsent_lt {k : Nat} (some : 0 < (run k).unsent) :
    (run (k + (room + 1))).unsent < (run k).unsent := by
  have falls := unsent_antitone periods holding
  by_contra stays
  have same : ∀ j ≤ room + 1, (run (k + j)).unsent = (run k).unsent := by
    intro j inside
    have early := falls (Nat.le_add_right k j)
    have late := falls (Nat.add_le_add_left inside k)
    dsimp only at early late
    omega
  have ticks := periods_ticks periods holding drains fun j (inside : j ≤ room) =>
    same j (by omega)
  have here := same room (by omega)
  have next := same (room + 1) (by omega)
  rw [← Nat.add_assoc] at next
  obtain ⟨before, _, _, ⟨none, _⟩ | ⟨req, _, _, refused⟩ | ⟨_, accepted, _⟩⟩ :=
    (periods (k + room)).unsent (holding (k + room))
  · omega
  · exact drains.accepts ticks le_rfl refused
  · omega

end Periods

theorem Accounting.finished {s : MemSystem Mem} (accounting : Accounting cfg s 0)
    (none : s.unsent = 0) (idx : Nat) : s.w.processedReqNum idx = s.w.totalReqNum idx := by
  have empty : s.acc.held ++ s.w.reqQueue = [] := List.length_eq_zero_iff.mp none
  have order := accounting.order
  rw [List.append_assoc, empty, List.append_nil] at order
  have counted := congrArg (Multiset.countP (·.burstIdx = idx)) accounting.counted
  rw [add_zero, Multiset.coe_countP, Multiset.coe_countP] at counted
  rw [accounting.tallied.processed, accounting.tallied.total, counted, countP_origin,
    origins_of_payload s.acc.sent, order, ← origins_of_payload]

section Completion

variable (serves : ram.Serves ledger) (initial : Initial ledger start)
variable (reached : ReflTransGen (MemStep cfg ram memClkCycle) start (run 0))
variable (periods : ∀ k, Period ram memClkCycle (run k) (run (k + 1)))

include serves initial reached periods

theorem periods_accounting (k : Nat) : Accounting cfg (run k) (ledger.origins (run k).mem) :=
  Accounting.run serves initial (reached.trans (periods_run periods k))

theorem outstanding_le (k : Nat) :
    (ledger.outstanding (run k).mem).card + (run k).unsent ≤
      (ledger.outstanding (run 0).mem).card + (run 0).unsent := by
  induction k with
  | zero => exact le_rfl
  | succ k inductionHypothesis =>
      have holding := (periods_accounting serves initial reached periods k).holding
      obtain ⟨before, callbacks, ticked, moved⟩ := (periods k).unsent holding
      have called := congrArg Multiset.card (serves.tick ticked).outstanding
      rw [Multiset.card_add] at called
      rcases moved with ⟨_, none, rfl⟩ | ⟨req, same, _, refused⟩ | ⟨req, fewer, accepted⟩
      · omega
      · have law := congrArg Multiset.card (serves.send refused).outstanding
        rw [Multiset.card_add, if_neg (by simp), Multiset.card_zero] at law
        omega
      · have law := congrArg Multiset.card (serves.send accepted).outstanding
        rw [Multiset.card_add] at law
        split at law
        · rw [Multiset.card_singleton] at law
          omega
        · rw [Multiset.card_zero] at law
          omega

/-- Every request is sent and every read called back, so that every burst that was received
is completed. -/
theorem Ramulator.Drains.completes (drains : ram.Drains ledger room rest) {n : Nat}
    (long : (room + 1) * (run 0).unsent + rest +
      ((ledger.outstanding (run 0).mem).card + (run 0).unsent) ≤ n) :
    (run n).unsent = 0 ∧ ledger.outstanding (run n).mem = 0 ∧
      (∀ idx, (run n).w.processedReqNum idx = (run 0).w.totalReqNum idx) ∧
      ∀ i idx, 0 < (run 0).w.totalReqNum idx → (run 0).w.OnPort i idx →
        (i, idx) ∈ (run n).w.completed := by
  have holding := fun k => (periods_accounting serves initial reached periods k).holding
  -- first everything is sent, then everything is called back
  have sent : ∀ j, (run ((room + 1) * (run 0).unsent + j)).unsent = 0 := by
    intro j
    have none := @Ranks.exhausted (fun k => (run k).unsent) (room + 1)
      (fun k => unsent_antitone periods holding (Nat.le_succ k))
      (fun k => unsent_lt periods holding drains) 0 _ (Nat.le_add_right _ j)
    rwa [Nat.zero_add] at none
  generalize (room + 1) * (run 0).unsent = m at sent long
  obtain ⟨more, rfl⟩ := Nat.exists_eq_add_of_le (show m ≤ n by omega)
  have ticks := periods_ticks periods holding drains (k := m) (n := more) fun j _ =>
    (sent j).trans (sent 0).symm
  have few := outstanding_le serves initial reached periods m
  have nothing : ledger.outstanding (run (m + more)).mem = 0 :=
    drains.finishes ticks (by dsimp only [Nat.add_zero]; omega)
  have accounting := periods_accounting serves initial reached periods (m + more)
  have left := sent more
  generalize m + more = n at *
  rw [show ledger.origins (run n).mem = 0 by rw [Ledger.origins, nothing, Multiset.map_zero]]
    at accounting
  have total := periods_totalReqNum periods n
  have processed := accounting.finished left
  refine ⟨left, nothing, fun idx => (processed idx).trans (congrFun total idx), ?_⟩
  intro i idx some onPort
  refine (accounting.tallied.completed i idx).mpr ⟨⟨?_, processed idx⟩, ?_⟩
  · rw [total]
    exact some
  · have reaches : ReflTransGen (MemStep cfg ram memClkCycle) (run 0) (run n) :=
      periods_run periods n
    exact Kernel.invariant_of_step (fun s => s.w.OnPort i idx) reaches onPort
      fun _ _ onPort stepped => stepped.onPort onPort

end Completion

end Runs

section Live

variable {s : MemSystem Mem}

theorem Accounting.account_total {udf : UDF} {outstanding : Multiset Origin}
    (accounting : Accounting cfg s (udf.origin ::ₘ outstanding)) :
    ∃ w, s.w.account udf = some w := by
  have sent : udf.origin ∈ s.acc.sent.map (·.udf.origin) := by
    rw [← Multiset.mem_coe, ← accounting.counted]
    simp
  have order := accounting.order
  rw [List.append_assoc] at order
  obtain ⟨op, present, _⟩ := onPort_of_sent accounting.numbered order sent
  simp only [MemWrapper.account, UDF.origin] at present ⊢
  rw [present]
  simp only [Option.bind_eq_bind, Option.bind_some]
  split <;> exact ⟨_, rfl⟩

theorem Accounting.callbacks_total {callbacks : List Request} {outstanding : Multiset Origin}
    (accounting : Accounting cfg s
      ((callbacks.map (·.udf.origin) : List Origin) + outstanding)) :
    ∃ w, callbacks.foldlM (MemWrapper.readComplete memClkCycle) s.w = some w := by
  induction callbacks generalizing s with
  | nil => exact ⟨s.w, rfl⟩
  | cons r rest inductionHypothesis =>
      rw [List.map_cons, ← Multiset.cons_coe, Multiset.cons_add] at accounting
      have accounting : Accounting cfg s ((r.stamp memClkCycle).origin ::ₘ
          ((rest.map (·.udf.origin) : List Origin) + outstanding)) := accounting
      obtain ⟨next, accounted⟩ := accounting.account_total
      obtain ⟨w, ran⟩ := @inductionHypothesis { s with w := next } (accounting.account accounted).2
      refine ⟨w, ?_⟩
      rw [List.foldlM_cons, readComplete_eq, accounted]
      exact ran

theorem Ramulator.Live.sendPhase (live : ram.Live)
    (accounting : Accounting cfg s (ledger.origins s.mem)) (now : Int) :
    ∃ after, SendPhase ram now s after := by
  cases taken : (getMemReq now s).acc.success with
  | false => exact ⟨_, .idle taken⟩
  | true =>
      obtain ⟨memEq, sentEq, ⟨reqQueue, wEq⟩, order, _⟩ := getMemReq_spec now accounting
      rw [taken, if_pos rfl] at order
      obtain ⟨accepted, mem, sent⟩ := live.send s.mem (getMemReq now s).acc.req
        (type_of_order accounting.numbered order)
      have outcome : ∃ after, afterSend now accepted (getMemReq now s) mem = some after := by
        unfold afterSend
        cases accepted with
        | false => exact ⟨_, rfl⟩
        | true =>
            rw [if_pos rfl]
            split
            · let udf : UDF := { (getMemReq now s).acc.req.udf with departMemTime := now }
              have accepted : Accounting cfg _ (udf.origin ::ₘ ledger.origins s.mem) :=
                @Accounting.accepted _ _ _ _ now mem accounting taken (getMemReq now s).acc.req
              obtain ⟨w, accounted⟩ := accepted.account_total
              exact ⟨_, Option.bind_eq_some_iff.mpr ⟨w, accounted, rfl⟩⟩
            · exact ⟨_, rfl⟩
      obtain ⟨after, outcome⟩ := outcome
      exact ⟨after, .send taken sent outcome⟩

theorem Ramulator.Live.tickPhase (live : ram.Live) (serves : ram.Serves ledger)
    (accounting : Accounting cfg s (ledger.origins s.mem)) :
    ∃ after, TickPhase ram memClkCycle s after := by
  obtain ⟨callbacks, mem, ticked⟩ := live.tick s.mem
  have balance : ledger.origins s.mem =
      (callbacks.map (·.udf.origin) : List Origin) + ledger.origins mem := by
    rw [Ledger.origins, Ledger.origins, (serves.tick ticked).outstanding, Multiset.map_add,
      Multiset.map_coe, List.map_map]
    rfl
  rw [balance] at accounting
  obtain ⟨w, ran⟩ := accounting.callbacks_total
  exact ⟨_, .tick ticked ran⟩

theorem Ramulator.Live.periods (live : ram.Live) (serves : ram.Serves ledger)
    (accounting : Accounting cfg s (ledger.origins s.mem)) :
    ∃ run : Nat → MemSystem Mem, run 0 = s ∧
      ∀ k, Period ram memClkCycle (run k) (run (k + 1)) := by
  refine @Ranks.exists_run _ _ (fun _ s => Accounting cfg s (ledger.origins s.mem)) ?_ s accounting
  intro _ s accounting
  obtain ⟨sent, sends⟩ := live.sendPhase accounting 0
  have accounted := accounting.sendPhase serves.send sends
  obtain ⟨after, ticks⟩ := live.tickPhase serves accounted
  refine ⟨after, .intro .refl sends .refl ticks, ?_⟩
  cases ticks with
  | tick ticked ran => exact accounted.tickPhase (serves.tick ticked) ran

end Live

end GraphAccelerator.Memory
