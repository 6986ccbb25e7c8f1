import GraphAccelerator.Memory.Controller
import GraphAccelerator.Memory.Logs
import GraphAccelerator.Memory.AnyOrder

/-!
# Completion of bursts

Over a memory that calls back its reads and nothing else the accounting of `run_acc`
is exact.  The controller of `TLDRAM` also calls back its writes, which `run_acc` has
already accounted for: the accounting is right up to the first write that finishes,
and wrong from there on.
-/

namespace GraphAccelerator.Memory

open CheckedLoop Relation

variable {Mem : Type} {cfg : BurstCfg} {memClkCycle : Int}

structure Initial (ledger : Ledger Mem) (s : MemSystem Mem) : Prop where
  w : ∃ ramData, s.w = { ramData }
  stall : s.acc.stall = false
  sent : s.acc.sent = []
  mem : ledger.outstanding s.mem = 0

theorem Initial.accounting {ledger : Ledger Mem} {s : MemSystem Mem}
    (initial : Initial ledger s) : Accounting cfg s (ledger.origins s.mem) := by
  obtain ⟨⟨ramData, w⟩, stall, sent, mem⟩ := initial
  have origins : ledger.origins s.mem = 0 := by rw [Ledger.origins, mem, Multiset.map_zero]
  exact {
    numbered := by
      rw [w]
      exact ⟨by simp, by simp, by simp, by simp⟩
    tallied := by
      rw [w]
      exact ⟨by simp, by simp, by simp, by simp [MemWrapper.OnPort]⟩
    order := by simp [sent, RunAcc.held, stall, w]
    holding := by simp [stall]
    counted := by rw [origins, w, sent]; rfl }

theorem Accounting.run {ram : Ramulator Mem} {ledger : Ledger Mem} (serves : ram.Serves ledger)
    {start s : MemSystem Mem} (initial : Initial ledger start)
    (run : ReflTransGen (MemStep cfg ram memClkCycle) start s) :
    Accounting cfg s (ledger.origins s.mem) :=
  Kernel.invariant_of_step (fun s => Accounting cfg s (ledger.origins s.mem)) run
    initial.accounting
    fun _ _ accounting stepped => accounting.step serves.send serves.tick stepped

/-- The bound that the equality test on the counters relies on. -/
theorem Accounting.processed_le {s : MemSystem Mem} {outstanding : Multiset Origin}
    (accounting : Accounting cfg s outstanding) (idx : Nat) :
    s.w.processedReqNum idx ≤ (s.acc.sent.countP (·.udf.burstIdx = idx) : Nat) ∧
      (s.acc.sent.countP (·.udf.burstIdx = idx) : Nat) ≤ s.w.totalReqNum idx := by
  have split := congrArg (Multiset.countP (·.burstIdx = idx)) accounting.counted
  rw [Multiset.countP_add, Multiset.coe_countP, Multiset.coe_countP] at split
  have sentLe : s.acc.sent.countP (·.udf.burstIdx = idx) ≤
      s.w.converted.countP (·.udf.burstIdx = idx) := by
    rw [countP_origin s.w.converted, origins_of_payload s.w.converted, ← accounting.order,
      ← origins_of_payload, List.append_assoc, List.map_append, List.countP_append,
      ← countP_origin]
    exact Nat.le_add_right _ _
  rw [accounting.tallied.processed, accounting.tallied.total, countP_origin] at *
  omega

theorem Logged.run {ram : Ramulator Mem} {ledger : Ledger Mem} {start s : MemSystem Mem}
    (initial : Initial ledger start)
    (run : ReflTransGen (MemStep cfg ram memClkCycle) start s) : Logged s.w := by
  refine Kernel.invariant_of_step (fun s => Logged s.w) run ?_
    fun _ _ logged stepped => logged.step stepped
  obtain ⟨⟨ramData, w⟩, _⟩ := initial
  rw [w]
  exact ⟨by simp, by simp⟩

theorem MemStep.shapes {ram : Ramulator Mem} {s after : MemSystem Mem}
    (stepped : MemStep cfg ram memClkCycle s after) :
    s.w.bursts.map BurstOp.shape <+: after.w.bursts.map BurstOp.shape := by
  have counts : ∀ w udf after, MemWrapper.account udf w = some after →
      s.w.bursts.map BurstOp.shape <+: w.bursts.map BurstOp.shape →
      s.w.bursts.map BurstOp.shape <+: after.bursts.map BurstOp.shape := by
    intro w udf after accounted grown
    rw [(account_frame accounted).1]
    exact grown
  cases stepped with
  | create _ _ _ _ _ => exact ⟨_, (List.map_append).symm⟩
  | getBurstReq _ ran =>
      obtain ⟨_, _, _, _, _, _, rfl⟩ := getBurstReq_frame ran
      exact List.prefix_refl _
  | sendBurstResp ran =>
      rcases sendBurstRespPort_cases ran with ⟨rfl, _⟩ | ⟨_, _, _, _, _, present, _, answer, _⟩ |
        ⟨_, _, _, _, _, _, _, rfl, _⟩
      · exact List.prefix_refl _
      · obtain ⟨_, _, shape, _, _, rfl⟩ := answer_cases answer
        exact shapes_set present shape ▸ List.prefix_refl _
      · exact List.prefix_refl _
  | send phase => exact phase.keeps (List.prefix_refl _) (fun _ _ => id) counts
  | tick phase => exact phase.keeps (List.prefix_refl _) counts

theorem MemStep.onPort {ram : Ramulator Mem} {s after : MemSystem Mem} {i : Port} {idx : Nat}
    (stepped : MemStep cfg ram memClkCycle s after) (onPort : s.w.OnPort i idx) :
    after.w.OnPort i idx := by
  obtain ⟨op, present, port⟩ := onPort
  obtain ⟨more, extended⟩ := stepped.shapes
  have shaped : (after.w.bursts.map BurstOp.shape)[idx]? = some op.shape := by
    have old : (s.w.bursts.map BurstOp.shape)[idx]? = some op.shape := by
      rw [List.getElem?_map, present, Option.map_some]
    rw [← extended, List.getElem?_append_left (List.getElem?_eq_some_iff.mp old).1, old]
  obtain ⟨other, found, same⟩ := Option.map_eq_some_iff.mp (List.getElem?_map ▸ shaped)
  exact ⟨other, found, (shape_portIdx same).trans port⟩

/-- Over every memory that keeps its laws: what was sent, is held back or is queued is
what was converted, in this order and each request once; the counters count and stay
within their totals; and a burst is pushed to the response queue of its port once, in
the step that accounts for its last basic request, and stays there until it is answered. -/
theorem runAcc_accounting {ram : Ramulator Mem} {ledger : Ledger Mem}
    (serves : ram.Serves ledger) {start s : MemSystem Mem} (initial : Initial ledger start)
    (run : ReflTransGen (MemStep cfg ram memClkCycle) start s) :
    (s.acc.sent ++ s.acc.held ++ s.w.reqQueue).map Request.payload =
        s.w.converted.map Request.payload ∧
      (s.w.converted.map (·.udf.reqIdx)).Nodup ∧
      (s.acc.stall = true → ∀ now after, SendPhase ram now s after →
        ∃ accepted mem, ram.send s.mem s.acc.req accepted mem ∧
          after.acc.sent = s.acc.sent ++ (if accepted then [s.acc.req] else []) ∧
          after.acc.held = (if accepted then [] else [s.acc.req])) ∧
      (s.w.counted : Multiset Origin) + ledger.origins s.mem =
        (s.acc.sent.map (·.udf.origin) : List Origin) ∧
      (∀ idx, s.w.totalReqNum idx = (s.w.converted.countP (·.udf.burstIdx = idx) : Nat) ∧
        s.w.processedReqNum idx = (s.w.counted.countP (·.burstIdx = idx) : Nat) ∧
        s.w.processedReqNum idx ≤ s.w.totalReqNum idx) ∧
      s.w.completed.Nodup ∧
      (∀ i idx, (i, idx) ∈ s.w.completed ↔ s.w.AllCounted idx ∧ s.w.OnPort i idx) ∧
      (∀ after, MemStep cfg ram memClkCycle s after → ∀ i idx,
        ((i, idx) ∈ after.w.completed ∧ (i, idx) ∉ s.w.completed) ↔
          (¬ s.w.AllCounted idx ∧ after.w.AllCounted idx ∧ after.w.OnPort i idx)) ∧
      (∀ i, (s.w.burstRespQueue i).Nodup ∧
        ∀ idx, idx ∈ s.w.burstRespQueue i ↔ (i, idx) ∈ s.w.completed ∧ idx ∉ s.w.copied) ∧
      ∀ after, MemStep cfg ram memClkCycle s after → ∀ i idx,
        (idx ∈ after.w.burstRespQueue i ∧ idx ∉ s.w.burstRespQueue i) ↔
          ((i, idx) ∈ after.w.completed ∧ (i, idx) ∉ s.w.completed) := by
  have accounting := Accounting.run serves initial run
  have logged := Logged.run initial run
  refine ⟨accounting.order, accounting.numbered.distinct, ?retry, accounting.counted, ?_,
    accounting.tallied.once, accounting.tallied.completed, ?_, logged.waiting accounting.tallied,
    fun after stepped => logged.enters accounting.tallied
      (accounting.step serves.send serves.tick stepped).tallied stepped⟩
  case retry =>
    intro stalled now after phase
    have same : getMemReq now s = s := by rw [getMemReq, if_pos stalled]
    cases phase with
    | idle empty =>
        rw [same, accounting.holding stalled] at empty
        cases empty
    | @send _ accepted mem _ sent outcome =>
        rw [same] at sent outcome
        refine ⟨accepted, mem, sent, ?_⟩
        rcases afterSend_cases outcome with ⟨rfl, rfl⟩ | ⟨rfl, _, w, _, rfl⟩ | ⟨rfl, _, rfl⟩ <;>
          simp [RunAcc.held]
  · intro idx
    obtain ⟨sentGe, sentLe⟩ := accounting.processed_le idx
    exact ⟨accounting.tallied.total idx, accounting.tallied.processed idx,
      sentGe.trans sentLe⟩
  · intro after stepped i idx
    have next := accounting.step serves.send serves.tick stepped
    rw [next.tallied.completed, accounting.tallied.completed]
    constructor
    · rintro ⟨⟨all, port⟩, notBefore⟩
      refine ⟨fun early => notBefore ⟨early, ?_⟩, all, port⟩
      obtain ⟨op, present⟩ := AllCounted.present accounting.numbered accounting.tallied early
      have onPort : s.w.OnPort op.portIdx idx := ⟨op, present, rfl⟩
      exact OnPort.unique (stepped.onPort onPort) port ▸ onPort
    · rintro ⟨notEarly, all, port⟩
      exact ⟨⟨all, port⟩, fun both => notEarly both.1⟩

def pairBurst : BurstOp where
  type := .read
  portIdx := 7
  burstIdx := 0
  peIdx := 0
  addr := 0
  length := 128

def byteWrite : BurstOp where
  type := .write
  portIdx := 3
  burstIdx := 1
  peIdx := 0
  addr := 0
  length := 1
  data := [7]

def pairStart : MemSystem AnyOrder where
  w := { ramData := List.replicate 128 5 }
  acc := { req := { type := .read, addr := 0, udf := ⟨0, 0, 0, 0, 0, 0⟩ } }
  mem := {}

theorem pairStart_initial : Initial AnyOrder.account pairStart := ⟨⟨_, rfl⟩, rfl, rfl, rfl⟩

def pairBlock (i : Nat) (fetched arrive depart : Int) : Request where
  type := .read
  addr := 64 * i
  udf := ⟨0, i, 0, 7, fetched, 0⟩
  arrive
  depart

def refusedMoves : List AnyOrder.Move :=
  [.create pairBurst, .create byteWrite,
    .getBurstReq fun i => if i = 7 then some 0 else if i = 3 then some 1 else none,
    .send 0 false]

def reversedMoves : List AnyOrder.Move :=
  [.tick [], .send 625 true, .tick [], .send 1250 true, .tick [], .send 1875 true,
    .tick [pairBlock 1 1875 3 4], .tick [pairBlock 0 1250 2 5], .sendBurstResp 3125 7]

/-- A refused request is sent again before the others, callbacks come out of order, and the
bursts are completed with their last requests. -/
theorem runAcc_accounting_reversed : ∃ refused s,
    ReflTransGen (MemStep ⟨64, 6, by decide⟩ anyOrder 625) pairStart refused ∧
    ReflTransGen (MemStep ⟨64, 6, by decide⟩ anyOrder 625) refused s ∧
    refused.acc.stall = true ∧ refused.acc.sent = [] ∧
    s.acc.sent.map (·.udf.reqIdx) = [2, 0, 1] ∧ s.w.counted.map (·.reqIdx) = [2, 1, 0] ∧
    s.w.completed = [(3, 1), (7, 0)] ∧ s.w.burstRespQueue 3 = [1] ∧ s.w.copied = [0] ∧
    s.w.processedReqNum 0 = s.w.totalReqNum 0 ∧ s.w.completed.Nodup := by
  have first : ((refusedMoves.foldlM (AnyOrder.move ⟨64, 6, by decide⟩ 625) pairStart).map
      fun s => (s.acc.stall, s.acc.sent)) = some (true, []) := by
    decide +kernel
  obtain ⟨refused, refuses, stalled⟩ := Option.map_eq_some_iff.mp first
  obtain ⟨stall, none⟩ := Prod.mk.inj stalled
  have second : (((refusedMoves ++ reversedMoves).foldlM (AnyOrder.move ⟨64, 6, by decide⟩ 625)
      pairStart).map fun s => ((s.acc.sent.map (·.udf.reqIdx), s.w.counted.map (·.reqIdx)),
        s.w.completed, s.w.burstRespQueue 3, s.w.copied)) =
      some (([2, 0, 1], [2, 1, 0]), [(3, 1), (7, 0)], [1], [0]) := by
    decide +kernel
  rw [List.foldlM_append, refuses] at second
  obtain ⟨s, ran, observed⟩ := Option.map_eq_some_iff.mp second
  simp only [Prod.mk.injEq] at observed
  obtain ⟨⟨sent, counted⟩, completed, waiting, copied⟩ := observed
  have refusing := AnyOrder.moves_run refuses
  have run := AnyOrder.moves_run ran
  have accounting := runAcc_accounting anyOrder_serves pairStart_initial (refusing.trans run)
  refine ⟨refused, s, refusing, run, stall, none, sent, counted, completed, waiting, copied,
    ?_, accounting.2.2.2.2.2.1⟩
  exact ((accounting.2.2.2.2.2.2.1 7 0).mp (by simp [completed])).1.2

def oneChannel {reads : List RequestType} (c : Controller) (typed : c.Typed reads) :
    Channels reads where
  ctrls := [c]
  clk := c.clk
  sameClk := by simp
  typed := by simpa using typed

def idleSystem (reads : List RequestType) : MemSystem (Channels reads) where
  w := { ramData := [5] }
  acc := { req := { type := .read, addr := 0, udf := ⟨0, 0, 0, 0, 0, 0⟩ } }
  mem := oneChannel {} ⟨by simp, by simp, by simp⟩

theorem idleSystem_initial (reads : List RequestType) :
    Initial (Channels.ledger reads) (idleSystem reads) :=
  ⟨⟨_, rfl⟩, rfl, rfl, rfl⟩

def byteBurst (type : RequestType) : BurstOp where
  type
  portIdx := 7
  burstIdx := 0
  peIdx := 0
  addr := 0
  length := 1
  data := if type = .write then [7] else []

theorem byteBurst_received {reads : List RequestType} (ram : Ramulator (Channels reads))
    {type : RequestType} (readOrWrite : type = .read ∨ type = .write) :
    ReflTransGen (MemStep ⟨64, 6, by decide⟩ ram 625) (idleSystem reads)
      { idleSystem reads with w := {
        bursts := [{ byteBurst type with reqVec := [0], addrVec := [0] }]
        reqIdx := 1
        burstReqQueue := Function.update (fun _ => []) 7 [0]
        reqQueue := [{ type, addr := 0, udf := ⟨0, 0, 0, 7, 0, 0⟩ }]
        totalReqNum := Function.update (fun _ => 0) 0 1
        processedReqNum := Function.update (fun _ => 0) 0 0
        ramData := [5]
        received := [0]
        converted := [{ type, addr := 0, udf := ⟨0, 0, 0, 7, 0, 0⟩ }] } } := by
  have made : newBurst ⟨64, 6, by decide⟩ (byteBurst type) 0 =
      some ({ byteBurst type with reqVec := [0], addrVec := [0] }, 1) := by
    rcases readOrWrite with rfl | rfl <;> rfl
  have created := ReflTransGen.single (@MemStep.create _ ⟨64, 6, by decide⟩ ram 625
    (idleSystem reads) (byteBurst type) _ _ readOrWrite rfl rfl rfl made)
  refine created.tail (@MemStep.getBurstReq _ _ _ _ _ (fun i => if i = 7 then some 0 else none) _
    (fun i burstIdx arrives => ?_) ?_)
  · split at arrives
    · obtain rfl := Option.some.inj arrives
      exact ⟨List.not_mem_nil, _, rfl, Eq.symm ‹_›⟩
    · cases arrives
  · rcases readOrWrite with rfl | rfl <;> rfl

/-- What `run_acc` is to guarantee: no request is counted twice, and a write burst is
completed only after all its requests were accepted. -/
structure Accountable (s : MemSystem Mem) : Prop where
  once : s.w.counted.Nodup
  bounded : ∀ idx, s.w.processedReqNum idx ≤ s.w.totalReqNum idx
  accepted : ∀ i idx op, s.w.bursts[idx]? = some op → op.type = .write →
    (i, idx) ∈ s.w.completed →
    (s.acc.sent.countP (·.udf.burstIdx = idx) : Nat) = s.w.totalReqNum idx

theorem Accounting.accountable {s : MemSystem Mem} {outstanding : Multiset Origin}
    (accounting : Accounting cfg s outstanding) : Accountable s where
  once := by
    have drawn : (s.w.converted.map (·.udf.origin)).Nodup :=
      List.Nodup.of_map Origin.reqIdx (by
        rw [List.map_map]
        exact accounting.numbered.distinct)
    rw [origins_of_payload, ← accounting.order, ← origins_of_payload, List.append_assoc,
      List.map_append] at drawn
    have sent := Multiset.coe_nodup.mpr drawn.of_append_left
    rw [← accounting.counted] at sent
    exact Multiset.coe_nodup.mp (Multiset.nodup_of_le (Multiset.le_add_right _ _) sent)
  bounded := fun idx => (accounting.processed_le idx).1.trans (accounting.processed_le idx).2
  accepted := by
    intro i idx _ _ _ completed
    have all := ((accounting.tallied.completed i idx).mp completed).1.2
    obtain ⟨processedLe, sentLe⟩ := accounting.processed_le idx
    omega

section Tldram

variable {s after : MemSystem (Channels [.read, .extension])} {readLatency : Nat}
variable {channel : Nat → Nat} {permitted : List Choice → List Controller → Prop}

def WritesCounted (s : MemSystem (Channels [.read, .extension])) : Prop :=
  ∀ c ∈ s.mem.ctrls, ∀ r ∈ c.writeq, r.udf.origin ∈ s.w.counted

theorem readComplete_counted {w completed : MemWrapper} {callbacks : List Request}
    (ran : callbacks.foldlM (MemWrapper.readComplete memClkCycle) w = some completed) :
    completed.counted = w.counted ++ callbacks.map (·.udf.origin) := by
  refine foldlM_invariant
    (fun done next => next.counted = w.counted ++ done.map (·.udf.origin)) ran (by simp) ?_
  intro done r rest before next _ counted stepped
  rw [(account_frame stepped).2.2.2.2.2.2, counted, List.map_append, List.append_assoc]
  rfl

theorem WritesCounted.sendPhase {now : Int} (counted : WritesCounted s)
    (phase : SendPhase (tldramMemory permitted readLatency channel) now s after) :
    WritesCounted after := by
  have fetched : (getMemReq now s).mem = s.mem ∧ (getMemReq now s).w.counted = s.w.counted := by
    unfold getMemReq
    split
    · exact ⟨rfl, rfl⟩
    · split <;> exact ⟨rfl, rfl⟩
  have waiting : ∀ c ∈ s.mem.ctrls, ∀ r ∈ c.writeq,
      r.udf.origin ∈ (getMemReq now s).w.counted := by
    rw [fetched.2]
    exact counted
  cases phase with
  | idle _ =>
      intro c present r queued
      rw [fetched.1] at present
      exact waiting c present r queued
  | send _ sent outcome =>
      intro c present r queued
      rcases afterSend_cases outcome with ⟨rejected, rfl⟩ | ⟨_, _, w, accounted, rfl⟩ |
        ⟨_, notWrite, rfl⟩
      · rcases memory_send_writeq (by simp) sent present queued with ⟨old, known, earlier⟩ | new
        · exact waiting old known r earlier
        · exact absurd new.1 (by simp [rejected])
      · show r.udf.origin ∈ w.counted
        rw [(account_frame accounted).2.2.2.2.2.2]
        rcases memory_send_writeq (by simp) sent present queued with ⟨old, known, earlier⟩ | new
        · exact List.mem_append_left _ (waiting old known r earlier)
        · rw [new.2.2]
          exact List.mem_append_right _ (by simp [UDF.origin])
      · rcases memory_send_writeq (by simp) sent present queued with ⟨old, known, earlier⟩ | new
        · exact waiting old known r earlier
        · exact absurd new.2.1 notWrite

theorem WritesCounted.step (counted : WritesCounted s)
    (stepped : MemStep cfg (tldramMemory (fun choices ctrls => ¬ WriteFinishes choices ctrls)
      readLatency channel) memClkCycle s after) : WritesCounted after := by
  cases stepped with
  | create _ _ _ _ _ => exact counted
  | getBurstReq _ ran =>
      obtain ⟨_, _, _, _, _, _, rfl⟩ := getBurstReq_frame ran
      exact counted
  | sendBurstResp ran =>
      rcases sendBurstRespPort_cases ran with ⟨rfl, _⟩ | ⟨_, _, _, _, _, _, _, answer, _⟩ |
        ⟨_, _, _, _, _, _, _, rfl, _⟩
      · exact counted
      · obtain ⟨_, _, _, _, _, rfl⟩ := answer_cases answer
        exact counted
      · exact counted
  | send phase => exact counted.sendPhase phase
  | tick phase =>
      cases phase with
      | @tick callbacks mem w ticked ran =>
          intro c present r queued
          obtain ⟨_, choices, _, noWrite, result⟩ := ticked
          change c ∈ mem.ctrls at present
          rw [show mem.ctrls = (tickAll _ choices s.mem.ctrls).1 by rw [result]] at present
          obtain ⟨pair, membership, rfl⟩ := mem_tickAll present
          have known := (List.of_mem_zip membership).2
          have lawful := Controller.tickTLDRAM_step readLatency pair.1
            (Channels.typed _ pair.2 known)
            (fun finishes => noWrite ⟨pair, membership, finishes⟩)
          show r.udf.origin ∈ w.counted
          rw [readComplete_counted ran]
          exact List.mem_append_left _ (counted pair.2 known r (lawful.writeq r queued))

/-- A tick of the `TLDRAM` controller that finishes a write counts it again. -/
theorem WritesCounted.finish (counted : WritesCounted s)
    (phase : TickPhase (tldramMemory WriteFinishes readLatency channel) memClkCycle s after) :
    ¬ Accountable after := by
  intro accountable
  cases phase with
  | @tick callbacks mem w ticked ran =>
      obtain ⟨_, choices, _, ⟨pair, membership, finishes⟩, result⟩ := ticked
      have known := (List.of_mem_zip membership).2
      obtain ⟨r, queued, called⟩ := finishes.callback (Channels.typed _ pair.2 known) readLatency
      have callback : r ∈ callbacks := by
        have all := tickAll_mem membership r called
        rw [result] at all
        exact all
      have once : w.counted.Nodup := accountable.once
      rw [readComplete_counted ran, List.nodup_append] at once
      exact once.2.2 _ (counted pair.2 known r queued) _ (List.mem_map_of_mem callback) rfl

end Tldram

/-- The accounting is right in every run over the generic controller.  Over the `TLDRAM`
controller it is right in every run in which no write finishes, and wrong after the next
tick in which one does. -/
theorem runAcc_accountable (readLatency : Nat) (channel : Nat → Nat) :
    (∀ start s, Initial (Channels.ledger [.read]) start →
      ReflTransGen (MemStep cfg (genericMemory readLatency channel) memClkCycle) start s →
      Accountable s) ∧
    ∀ start s, Initial (Channels.ledger [.read, .extension]) start →
      (∀ c ∈ start.mem.ctrls, c.writeq = []) →
      ReflTransGen (MemStep cfg (tldramMemory
        (fun choices ctrls => ¬ WriteFinishes choices ctrls) readLatency channel) memClkCycle)
        start s →
      Accountable s ∧
        ∀ after, TickPhase (tldramMemory WriteFinishes readLatency channel) memClkCycle s after →
          ¬ Accountable after := by
  constructor
  · intro start s initial run
    exact (Accounting.run (genericMemory_serves readLatency channel) initial run).accountable
  · intro start s initial empty run
    have accounting := Accounting.run (tldramMemory_serves readLatency channel) initial run
    have counted : WritesCounted s := Kernel.invariant_of_step WritesCounted run
      (fun c present r queued => by rw [empty c present] at queued; cases queued)
      fun _ _ counted stepped => counted.step stepped
    exact ⟨accounting.accountable, fun after phase => counted.finish phase⟩

def queuedWrite : Request where
  type := .write
  addr := 0
  udf := ⟨0, 0, 0, 7, 0, 0⟩
  arrive := 0

/-- The burst of one byte after its write was sent and its row was activated.  The write
is counted and the burst completed; the write is still in its queue. -/
def activated : MemSystem (Channels [.read, .extension]) where
  w := {
    bursts := [{ byteBurst .write with reqVec := [0], addrVec := [0] }]
    reqIdx := 1
    burstReqQueue := Function.update (fun _ => []) 7 [0]
    burstRespQueue := Function.update (fun _ => []) 7 [0]
    totalReqNum := Function.update (fun _ => 0) 0 1
    processedReqNum := Function.update (Function.update (fun _ => 0) 0 0) 0 1
    ramData := [5]
    received := [0]
    converted := [{ type := .write, addr := 0, udf := ⟨0, 0, 0, 7, 0, 0⟩ }]
    counted := [⟨0, 0, 7⟩]
    completed := [(7, 0)] }
  acc := {
    req := { type := .write, addr := 0, udf := ⟨0, 0, 0, 7, 0, 0⟩ }
    success := true
    sent := [{ type := .write, addr := 0, udf := ⟨0, 0, 0, 7, 0, 0⟩ }] }
  mem := oneChannel { clk := 1, writeq := [queuedWrite], writeMode := true }
    ⟨by simp, by simp [queuedWrite], by simp⟩

def finished : MemSystem (Channels [.read, .extension]) where
  w := { activated.w with
    processedReqNum := Function.update activated.w.processedReqNum 0 2
    counted := [⟨0, 0, 7⟩, ⟨0, 0, 7⟩] }
  acc := activated.acc
  mem := oneChannel { clk := 2, writeMode := true } ⟨by simp, by simp, by simp⟩

theorem activated_reached {permitted : List Choice → List Controller → Prop}
    (permits : permitted [⟨0, some 0, true, false⟩] [{ writeq := [queuedWrite] }]) :
    ReflTransGen (MemStep ⟨64, 6, by decide⟩ (tldramMemory permitted 1 fun _ => 0) 625)
      (idleSystem [.read, .extension]) activated := by
  let sentMem : Channels [.read, .extension] := oneChannel { writeq := [queuedWrite] }
    ⟨by simp, by simp [queuedWrite], by simp⟩
  have received := byteBurst_received (tldramMemory permitted 1 fun _ => 0) (.inr rfl)
  have sent := received.tail (.send (@SendPhase.send _ _ 0 _ _ true sentMem rfl
    ⟨by simp [idleSystem, getMemReq], rfl, _, rfl, rfl, rfl⟩ rfl))
  exact sent.tail (.tick (@TickPhase.tick _ _ _ _ [] activated.mem _
    ⟨rfl, [⟨0, some 0, true, false⟩], rfl, permits, rfl⟩ rfl))

theorem activated_finishes {permitted : List Choice → List Controller → Prop}
    (permits : permitted [⟨0, some 0, true, true⟩] activated.mem.ctrls) :
    TickPhase (tldramMemory permitted 1 fun _ => 0) 625 activated finished :=
  @TickPhase.tick _ _ _ activated [queuedWrite] finished.mem finished.w
    ⟨rfl, [⟨0, some 0, true, true⟩], rfl, permits, rfl⟩ rfl

theorem runAcc_accountable_finished :
    ¬ ∀ s, ReflTransGen (MemStep ⟨64, 6, by decide⟩
        (tldramMemory (fun _ _ => True) 1 fun _ => 0) 625) (idleSystem [.read, .extension]) s →
      Accountable s := fun accountable =>
  absurd ((accountable finished
    ((activated_reached trivial).tail (.tick (activated_finishes trivial)))).bounded 0) (by decide)

theorem runAcc_accountable_activated :
    Accountable activated ∧ ¬ Accountable finished := by
  have noWrite : ¬ WriteFinishes [⟨0, some 0, true, false⟩] [{ writeq := [queuedWrite] }] := by
    rintro ⟨pair, membership, _, _, last, _⟩
    obtain rfl := List.mem_singleton.mp membership
    cases last
  have finishes : WriteFinishes [⟨0, some 0, true, true⟩] activated.mem.ctrls :=
    ⟨_, List.mem_singleton_self _, rfl, rfl, rfl, 0, rfl, by decide⟩
  have both := (runAcc_accountable 1 fun _ => 0).2 _ _ (idleSystem_initial [.read, .extension])
    (by simp [idleSystem, oneChannel]) (activated_reached noWrite)
  exact ⟨both.1, both.2 finished (activated_finishes finishes)⟩

end GraphAccelerator.Memory
