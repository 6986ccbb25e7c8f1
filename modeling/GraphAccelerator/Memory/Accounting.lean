import GraphAccelerator.Memory.Wrapper

/-!
# The completion accounting of `run_acc`

A read is counted by its callback, a write when it is accepted.  The accounting
invariant says that what has been counted or is still outstanding in the memory is
what has been sent, and what has been sent, is held back or is still queued is what
was converted, in this order.  The counters of a burst are the lengths of its parts
of these lists, so that the equality test fires with the last basic request.
-/

namespace GraphAccelerator.Memory

open CheckedLoop

/-- What a proof about the memory keeps track of: its tick count, and the accepted
reads that it still has to call back with the tick of their acceptance. -/
structure Ledger (Mem : Type) where
  clk : Mem → Nat
  outstanding : Mem → Multiset (UDF × Int)

/-- What a `send` may do: only an accepted read becomes outstanding. -/
structure SendLaw {Mem : Type} (ledger : Ledger Mem) (before : Mem) (req : Request)
    (accepted : Bool) (after : Mem) : Prop where
  clk : ledger.clk after = ledger.clk before
  outstanding : ledger.outstanding after =
    (if accepted = true ∧ req.type = .read then {(req.udf, (ledger.clk before : Int))} else 0) +
      ledger.outstanding before

/-- What a `tick` may do: it calls back outstanding reads, each at a tick not earlier
than its departure. -/
structure TickLaw {Mem : Type} (ledger : Ledger Mem) (before : Mem)
    (callbacks : List Request) (after : Mem) : Prop where
  clk : ledger.clk after = ledger.clk before + 1
  outstanding : ledger.outstanding before =
    (callbacks.map fun r => (r.udf, r.arrive) : List (UDF × Int)) + ledger.outstanding after
  departed : ∀ r ∈ callbacks, r.depart ≤ ledger.clk after

/-- The memory accepts or rejects what it is sent, calls every accepted read back
exactly once, and never a write. -/
structure Ramulator.Serves {Mem : Type} (ram : Ramulator Mem) (ledger : Ledger Mem) : Prop where
  send : ∀ {before req accepted after}, ram.send before req accepted after →
    SendLaw ledger before req accepted after
  tick : ∀ {before callbacks after}, ram.tick before callbacks after →
    TickLaw ledger before callbacks after

structure Ramulator.Refines {Mem Seen : Type} (ram : Ramulator Mem) (other : Ramulator Seen)
    (view : Mem → Seen) : Prop where
  send : ∀ {before req accepted after}, ram.send before req accepted after →
    other.send (view before) req accepted (view after)
  tick : ∀ {before callbacks after}, ram.tick before callbacks after →
    other.tick (view before) callbacks (view after)

def Ledger.through {Mem Seen : Type} (ledger : Ledger Seen) (view : Mem → Seen) : Ledger Mem where
  clk mem := ledger.clk (view mem)
  outstanding mem := ledger.outstanding (view mem)

/-- The laws of a memory hold of every memory that refines it. -/
theorem Ramulator.Refines.serves {Mem Seen : Type} {ram : Ramulator Mem} {other : Ramulator Seen}
    {view : Mem → Seen} {ledger : Ledger Seen} (refines : ram.Refines other view)
    (serves : other.Serves ledger) : ram.Serves (ledger.through view) where
  send sent := by
    obtain ⟨clk, outstanding⟩ := serves.send (refines.send sent)
    exact ⟨clk, outstanding⟩
  tick ticked := by
    obtain ⟨clk, outstanding, departed⟩ := serves.tick (refines.tick ticked)
    exact ⟨clk, outstanding, departed⟩

/-- One step of the wrapper in its environment: a burst is created, bursts that have
not been presented before arrive on the ports, a port is answered, or `run_acc`
goes on. -/
inductive MemStep {Mem : Type} (cfg : BurstCfg) (ram : Ramulator Mem) (memClkCycle : Int) :
    MemSystem Mem → MemSystem Mem → Prop
  | create {s : MemSystem Mem} {op created : BurstOp} {reqIdx : Nat} :
      op.type = .read ∨ op.type = .write → op.reqVec = [] → op.addrVec = [] →
      op.burstIdx = s.w.bursts.length →
      newBurst cfg op s.w.reqIdx = some (created, reqIdx) →
      MemStep cfg ram memClkCycle s
        { s with w := { s.w with bursts := s.w.bursts ++ [created], reqIdx } }
  | getBurstReq {s : MemSystem Mem} {burstReq : Port → Option Nat} {w : MemWrapper} :
      (∀ i burstIdx, burstReq i = some burstIdx → burstIdx ∉ s.w.received ∧
        ∃ op, s.w.bursts[burstIdx]? = some op ∧ op.portIdx = i) →
      s.w.getBurstReq cfg burstReq = some w →
      MemStep cfg ram memClkCycle s { s with w }
  | sendBurstResp {s : MemSystem Mem} {now : Int} {i : Port} {w : MemWrapper}
      {written : Option (Option Nat)} :
      s.w.sendBurstRespPort now i = some (w, written) →
      MemStep cfg ram memClkCycle s { s with w }
  | send {s after : MemSystem Mem} {now : Int} :
      SendPhase ram now s after → MemStep cfg ram memClkCycle s after
  | tick {s after : MemSystem Mem} :
      TickPhase ram memClkCycle s after → MemStep cfg ram memClkCycle s after

def RunAcc.held (acc : RunAcc) : List Request := if acc.stall then [acc.req] else []

/-- The bursts have numbers of their own for their basic requests, and each basic
request belongs to a burst that was received. -/
structure Numbered (cfg : BurstCfg) (w : MemWrapper) : Prop where
  burst : ∀ {idx : Nat} {op : BurstOp}, w.bursts[idx]? = some op → op.burstIdx = idx ∧ op.WellFormed cfg ∧
    (op.type = .read ∨ op.type = .write) ∧ op.reqVec.Nodup ∧ ∀ reqIdx ∈ op.reqVec,
    reqIdx < w.reqIdx
  apart : ∀ {idx other : Nat} {op otherOp : BurstOp}, w.bursts[idx]? = some op →
    w.bursts[other]? = some otherOp → idx ≠ other → op.reqVec.Disjoint otherOp.reqVec
  drawn : ∀ r ∈ w.converted, r.udf.burstIdx ∈ w.received ∧
    ∃ op, w.bursts[r.udf.burstIdx]? = some op ∧ r.udf.reqIdx ∈ op.reqVec ∧
      r.udf.portIdx = op.portIdx ∧ r.type = op.type
  distinct : (w.converted.map (·.udf.reqIdx)).Nodup

def MemWrapper.OnPort (w : MemWrapper) (i : Port) (burstIdx : Nat) : Prop :=
  ∃ op, w.bursts[burstIdx]? = some op ∧ op.portIdx = i

def MemWrapper.AllCounted (w : MemWrapper) (burstIdx : Nat) : Prop :=
  0 < w.totalReqNum burstIdx ∧ w.processedReqNum burstIdx = w.totalReqNum burstIdx

/-- The counters count, and a burst has been completed once when its last request has
been accounted for. -/
structure Tallied (w : MemWrapper) : Prop where
  total : ∀ idx, w.totalReqNum idx = (w.converted.countP (·.udf.burstIdx = idx) : Nat)
  processed : ∀ idx, w.processedReqNum idx = (w.counted.countP (·.burstIdx = idx) : Nat)
  once : w.completed.Nodup
  completed : ∀ i idx, (i, idx) ∈ w.completed ↔ w.AllCounted idx ∧ w.OnPort i idx

section Functions

variable {cfg : BurstCfg} {w after : MemWrapper}

theorem onPort_iff (shapes : after.bursts.map BurstOp.shape = w.bursts.map BurstOp.shape)
    (i : Port) (idx : Nat) : after.OnPort i idx ↔ w.OnPort i idx := by
  constructor
  · rintro ⟨op, present, port⟩
    obtain ⟨other, found, same⟩ := shape_lookup shapes present
    exact ⟨other, found, (shape_portIdx same).trans port⟩
  · rintro ⟨op, present, port⟩
    obtain ⟨other, found, same⟩ := shape_lookup shapes.symm present
    exact ⟨other, found, (shape_portIdx same).trans port⟩

theorem Numbered.of_shapes (numbered : Numbered cfg w)
    (shapes : after.bursts.map BurstOp.shape = w.bursts.map BurstOp.shape)
    (reqIdx : after.reqIdx = w.reqIdx) (received : after.received = w.received)
    (converted : after.converted = w.converted) : Numbered cfg after where
  burst := by
    intro idx op present
    obtain ⟨other, found, same⟩ := shape_lookup shapes present
    obtain ⟨index, wellFormed, type, nodup, below⟩ := numbered.burst found
    refine ⟨(shape_burstIdx same).symm.trans index,
      shape_wellFormed same.symm wellFormed, ?_, ?_, ?_⟩
    · rw [shape_type same.symm]
      exact type
    · rw [shape_reqVec same.symm]
      exact nodup
    · rw [shape_reqVec same.symm, reqIdx]
      exact below
  apart := by
    intro idx otherIdx op otherOp present otherPresent different
    obtain ⟨first, found, same⟩ := shape_lookup shapes present
    obtain ⟨second, otherFound, otherSame⟩ := shape_lookup shapes otherPresent
    rw [shape_reqVec same.symm, shape_reqVec otherSame.symm]
    exact numbered.apart found otherFound different
  drawn := by
    intro r membership
    rw [converted] at membership
    obtain ⟨known, op, present, drawn, port, type⟩ := numbered.drawn r membership
    obtain ⟨other, found, same⟩ := shape_lookup shapes.symm present
    refine ⟨received ▸ known, other, found, ?_, ?_, ?_⟩
    · rw [shape_reqVec same]
      exact drawn
    · rw [shape_portIdx same]
      exact port
    · rw [shape_type same]
      exact type
  distinct := by
    rw [converted]
    exact numbered.distinct

theorem OnPort.unique {i j : Port} {idx : Nat} (left : w.OnPort i idx) (right : w.OnPort j idx) :
    i = j := by
  obtain ⟨op, present, rfl⟩ := left
  obtain ⟨other, found, rfl⟩ := right
  rw [present, Option.some.injEq] at found
  rw [found]

theorem countP_concat {Item : Type} (items : List Item) (item : Item) (chosen : Item → Bool) :
    (items ++ [item]).countP chosen = items.countP chosen + if chosen item then 1 else 0 := by
  rw [List.countP_append, List.countP_singleton]

theorem Tallied.processed_nonneg (tallied : Tallied w) (idx : Nat) :
    0 ≤ w.processedReqNum idx := by
  rw [tallied.processed]
  omega

/-- Accounting for a request keeps the tally, as long as the burst has a request that
was not counted. -/
theorem Tallied.account {udf : UDF} (tallied : Tallied w)
    (accounted : w.account udf = some after)
    (room : w.processedReqNum udf.burstIdx + 1 ≤ w.totalReqNum udf.burstIdx)
    (onPort : w.OnPort udf.portIdx udf.burstIdx) : Tallied after := by
  obtain ⟨op, counted, present, shape, outcome⟩ := account_cases accounted
  have ports : ∀ i idx, after.OnPort i idx ↔ w.OnPort i idx := onPort_iff (by
    rcases outcome with ⟨_, _, rfl⟩ | ⟨_, _, rfl⟩ <;> exact shapes_set present shape)
  have processed : ∀ idx, Function.update w.processedReqNum udf.burstIdx
      (w.processedReqNum udf.burstIdx + 1) idx =
      ((w.counted ++ [udf.origin]).countP (·.burstIdx = idx) : Nat) := by
    intro idx
    rw [countP_concat]
    by_cases same : idx = udf.burstIdx
    · subst same
      simp [tallied.processed, UDF.origin]
    · simp [tallied.processed, same, UDF.origin, Ne.symm same]
  have notYet : ¬ w.AllCounted udf.burstIdx := fun all => by
    have := all.2
    omega
  have nonneg := tallied.processed_nonneg udf.burstIdx
  rcases outcome with ⟨last, _, rfl⟩ | ⟨more, _, rfl⟩
  · refine ⟨tallied.total, processed, ?_, ?_⟩
    · rw [List.nodup_append]
      refine ⟨tallied.once, List.nodup_singleton _, ?_⟩
      rintro ⟨i, idx⟩ earlier _ fresh rfl
      obtain ⟨rfl, rfl⟩ := Prod.mk.inj (List.mem_singleton.mp fresh)
      exact notYet ((tallied.completed _ _).mp earlier).1
    · intro i idx
      rw [ports, List.mem_append, List.mem_singleton, tallied.completed, Prod.mk.injEq]
      by_cases same : idx = udf.burstIdx
      · subst same
        refine ⟨?_, fun both => .inr ⟨OnPort.unique both.2 onPort, rfl⟩⟩
        rintro (⟨early, _⟩ | ⟨rfl, _⟩)
        · exact absurd early notYet
        · refine ⟨⟨?_, by simpa using last⟩, onPort⟩
          show 0 < w.totalReqNum udf.burstIdx
          omega
      · simp [MemWrapper.AllCounted, same]
  · refine ⟨tallied.total, processed, tallied.once, ?_⟩
    intro i idx
    rw [ports, tallied.completed]
    by_cases same : idx = udf.burstIdx
    · subst same
      exact iff_of_false (fun both => notYet both.1)
        (fun both => more (by simpa using both.1.2))
    · simp [MemWrapper.AllCounted, same]

theorem account_frame {udf : UDF} (accounted : w.account udf = some after) :
    after.bursts.map BurstOp.shape = w.bursts.map BurstOp.shape ∧ after.reqIdx = w.reqIdx ∧
      after.received = w.received ∧ after.converted = w.converted ∧
      after.reqQueue = w.reqQueue ∧ after.totalReqNum = w.totalReqNum ∧
      after.counted = w.counted ++ [udf.origin] := by
  obtain ⟨op, counted, present, shape, outcome⟩ := account_cases accounted
  rcases outcome with ⟨_, _, rfl⟩ | ⟨_, _, rfl⟩ <;>
    exact ⟨shapes_set present shape, rfl, rfl, rfl, rfl, rfl, rfl⟩

theorem Numbered.account {udf : UDF} (numbered : Numbered cfg w)
    (accounted : w.account udf = some after) : Numbered cfg after := by
  obtain ⟨shapes, reqIdx, received, converted, _⟩ := account_frame accounted
  exact numbered.of_shapes shapes reqIdx received converted

end Functions

/-- The invariant of the accounting.  `outstanding` are the accepted reads that the
memory has not called back. -/
structure Accounting {Mem : Type} (cfg : BurstCfg) (s : MemSystem Mem)
    (outstanding : Multiset Origin) : Prop where
  numbered : Numbered cfg s.w
  tallied : Tallied s.w
  order : (s.acc.sent ++ s.acc.held ++ s.w.reqQueue).map Request.payload =
    s.w.converted.map Request.payload
  holding : s.acc.stall = true → s.acc.success = true
  counted : (s.w.counted : Multiset Origin) + outstanding =
    (s.acc.sent.map (·.udf.origin) : List Origin)

def Ledger.origins {Mem : Type} (ledger : Ledger Mem) (mem : Mem) : Multiset Origin :=
  (ledger.outstanding mem).map fun entry => entry.1.origin

section Phases

variable {Mem : Type} {cfg : BurstCfg} {s after : MemSystem Mem} {ledger : Ledger Mem}

theorem origins_of_payload (requests : List Request) :
    requests.map (·.udf.origin) = (requests.map Request.payload).map (·.2.2) := by
  rw [List.map_map]
  rfl

theorem countP_origin (requests : List Request) (idx : Nat) :
    requests.countP (·.udf.burstIdx = idx) =
      (requests.map (·.udf.origin)).countP (·.burstIdx = idx) := by
  rw [List.countP_map]
  rfl

theorem room_of_uncounted {w : MemWrapper} (tallied : Tallied w) {sent rest : List Request}
    (order : (sent ++ rest).map Request.payload = w.converted.map Request.payload)
    {o : Origin} {others : Multiset Origin}
    (counted : (w.counted : Multiset Origin) + o ::ₘ others =
      (sent.map (·.udf.origin) : List Origin)) :
    w.processedReqNum o.burstIdx + 1 ≤ w.totalReqNum o.burstIdx := by
  have sentLe : (sent.map (·.udf.origin)).countP (·.burstIdx = o.burstIdx) ≤
      w.converted.countP (·.udf.burstIdx = o.burstIdx) := by
    rw [countP_origin, origins_of_payload w.converted, ← order, ← origins_of_payload,
      List.map_append, List.countP_append]
    exact Nat.le_add_right _ _
  have split := congrArg (Multiset.countP (·.burstIdx = o.burstIdx)) counted
  have head := Multiset.countP_cons_of_pos (p := fun other : Origin =>
    other.burstIdx = o.burstIdx) (a := o) others rfl
  rw [Multiset.countP_add, head, Multiset.coe_countP, Multiset.coe_countP] at split
  rw [tallied.processed, tallied.total]
  omega

theorem onPort_of_sent {w : MemWrapper} (numbered : Numbered cfg w) {sent rest : List Request}
    (order : (sent ++ rest).map Request.payload = w.converted.map Request.payload)
    {o : Origin} (membership : o ∈ sent.map (·.udf.origin)) :
    w.OnPort o.portIdx o.burstIdx := by
  have converted : o ∈ w.converted.map (·.udf.origin) := by
    rw [origins_of_payload, ← order, ← origins_of_payload, List.map_append]
    exact List.mem_append_left _ membership
  obtain ⟨r, drawn, rfl⟩ := List.mem_map.mp converted
  obtain ⟨_, op, present, _, port, _⟩ := numbered.drawn r drawn
  exact ⟨op, present, port.symm⟩

theorem Accounting.account {outstanding : Multiset Origin} {udf : UDF} {w : MemWrapper}
    (accounting : Accounting cfg s (udf.origin ::ₘ outstanding))
    (accounted : s.w.account udf = some w) :
    s.w.processedReqNum udf.burstIdx + 1 ≤ s.w.totalReqNum udf.burstIdx ∧
      Accounting cfg { s with w } outstanding := by
  have order := accounting.order
  rw [List.append_assoc] at order
  have sent : udf.origin ∈ s.acc.sent.map (·.udf.origin) := by
    rw [← Multiset.mem_coe, ← accounting.counted]
    simp
  have room := room_of_uncounted accounting.tallied order accounting.counted
  have onPort := onPort_of_sent accounting.numbered order sent
  obtain ⟨_, _, _, converted, reqQueue, _, counted⟩ := account_frame accounted
  exact ⟨room, {
    numbered := accounting.numbered.account accounted
    tallied := accounting.tallied.account accounted room onPort
    order := by
      show (s.acc.sent ++ s.acc.held ++ w.reqQueue).map _ = w.converted.map _
      rw [converted, reqQueue, accounting.order]
    holding := accounting.holding
    counted := by
      show (w.counted : Multiset Origin) + outstanding = _
      rw [counted, ← accounting.counted, ← Multiset.coe_add, Multiset.add_assoc]
      rfl }⟩

theorem Accounting.callbacks {memClkCycle : Int} {callbacks : List Request} {w : MemWrapper}
    {outstanding : Multiset Origin}
    (accounting : Accounting cfg s ((callbacks.map (·.udf.origin) : List Origin) + outstanding))
    (ran : callbacks.foldlM (MemWrapper.readComplete memClkCycle) s.w = some w) :
    Accounting cfg { s with w } outstanding := by
  induction callbacks generalizing s with
  | nil =>
      obtain rfl := Option.some.inj ran
      simpa using accounting
  | cons r rest inductionHypothesis =>
      rw [List.foldlM_cons, Option.bind_eq_bind, Option.bind_eq_some_iff] at ran
      obtain ⟨next, stepped, ran⟩ := ran
      rw [readComplete_eq] at stepped
      rw [List.map_cons, ← Multiset.cons_coe, Multiset.cons_add] at accounting
      have accounting : Accounting cfg s ((r.stamp memClkCycle).origin ::ₘ
          ((rest.map (·.udf.origin) : List Origin) + outstanding)) := accounting
      exact @inductionHypothesis { s with w := next } (accounting.account stepped).2 ran

theorem Accounting.tickPhase {memClkCycle : Int} {callbacks : List Request} {w : MemWrapper}
    {mem : Mem} (accounting : Accounting cfg s (ledger.origins s.mem))
    (law : TickLaw ledger s.mem callbacks mem)
    (ran : callbacks.foldlM (MemWrapper.readComplete memClkCycle) s.w = some w) :
    Accounting cfg { s with w, mem } (ledger.origins mem) := by
  have balance : ledger.origins s.mem =
      (callbacks.map (·.udf.origin) : List Origin) + ledger.origins mem := by
    rw [Ledger.origins, Ledger.origins, law.outstanding, Multiset.map_add, Multiset.map_coe,
      List.map_map]
    rfl
  rw [balance] at accounting
  have counted := accounting.callbacks ran
  exact ⟨counted.numbered, counted.tallied, counted.order, counted.holding, counted.counted⟩

/-- `getMemReq` moves the head of `reqQueue` to the request in hand. -/
theorem getMemReq_spec (now : Int) {outstanding : Multiset Origin}
    (accounting : Accounting cfg s outstanding) :
    (getMemReq now s).mem = s.mem ∧ (getMemReq now s).acc.sent = s.acc.sent ∧
      (∃ reqQueue, (getMemReq now s).w = { s.w with reqQueue }) ∧
      (s.acc.sent ++ (if (getMemReq now s).acc.success then [(getMemReq now s).acc.req] else []) ++
        (getMemReq now s).w.reqQueue).map Request.payload =
        s.w.converted.map Request.payload ∧
      ((getMemReq now s).acc.success = false → (getMemReq now s).acc.stall = false) := by
  have order := accounting.order
  cases stalled : s.acc.stall with
  | true =>
      have success := accounting.holding stalled
      rw [RunAcc.held, stalled, if_pos rfl] at order
      simp only [getMemReq, stalled, if_true, success]
      exact ⟨trivial, trivial, ⟨_, rfl⟩, order, by simp⟩
  | false =>
      rw [RunAcc.held, stalled] at order
      simp only [getMemReq, stalled, Bool.false_eq_true, if_false]
      cases queue : s.w.reqQueue with
      | nil =>
          rw [queue] at order
          exact ⟨rfl, rfl, ⟨[], by simp [← queue]⟩, by simpa [queue] using order, by simp⟩
      | cons tmp rest =>
          rw [queue] at order
          exact ⟨rfl, rfl, ⟨rest, rfl⟩, by simpa [Request.payload, UDF.origin] using order,
            by simp⟩

theorem type_of_order {w : MemWrapper} (numbered : Numbered cfg w) {before rest : List Request}
    {req : Request}
    (order : (before ++ [req] ++ rest).map Request.payload = w.converted.map Request.payload) :
    req.type = .read ∨ req.type = .write := by
  have membership : req.payload ∈ w.converted.map Request.payload := by
    rw [← order]
    simp
  obtain ⟨r, converted, same⟩ := List.mem_map.mp membership
  obtain ⟨_, op, present, _, _, type⟩ := numbered.drawn r converted
  have sameType : r.type = req.type := congrArg Prod.fst same
  rw [← sameType, type]
  exact (numbered.burst present).2.2.1

theorem Accounting.accepted {outstanding : Multiset Origin} {now : Int} {mem : Mem}
    (accounting : Accounting cfg s outstanding) (taken : (getMemReq now s).acc.success = true)
    (req : Request) :
    Accounting cfg ⟨(getMemReq now s).w, { (getMemReq now s).acc with
      req
      stall := false
      sent := (getMemReq now s).acc.sent ++ [(getMemReq now s).acc.req] }, mem⟩
      ((getMemReq now s).acc.req.udf.origin ::ₘ outstanding) := by
  obtain ⟨_, sentEq, ⟨reqQueue, wEq⟩, order, _⟩ := getMemReq_spec now accounting
  rw [taken, if_pos rfl, ← sentEq] at order
  exact {
    numbered := accounting.numbered.of_shapes (by rw [wEq]) (by rw [wEq]) (by rw [wEq])
      (by rw [wEq])
    tallied := by
      rw [wEq]
      exact ⟨accounting.tallied.total, accounting.tallied.processed, accounting.tallied.once,
        accounting.tallied.completed⟩
    order := by
      rw [wEq] at order ⊢
      simpa [RunAcc.held] using order
    holding := by simp
    counted := by
      have counted := accounting.counted
      rw [← sentEq] at counted
      rw [wEq, Multiset.add_cons, counted, List.map_append, ← Multiset.coe_add,
        Multiset.add_comm]
      rfl }

theorem Accounting.sendPhase {ram : Ramulator Mem} {now : Int}
    (lawful : ∀ {req accepted mem}, ram.send s.mem req accepted mem →
      SendLaw ledger s.mem req accepted mem)
    (accounting : Accounting cfg s (ledger.origins s.mem)) (phase : SendPhase ram now s after) :
    Accounting cfg after (ledger.origins after.mem) := by
  obtain ⟨memEq, sentEq, ⟨reqQueue, wEq⟩, order, idle⟩ := getMemReq_spec now accounting
  have counted := accounting.counted
  have numbered : Numbered cfg (getMemReq now s).w :=
    accounting.numbered.of_shapes (by rw [wEq]) (by rw [wEq]) (by rw [wEq]) (by rw [wEq])
  have tallied : Tallied (getMemReq now s).w := by
    rw [wEq]
    exact ⟨accounting.tallied.total, accounting.tallied.processed, accounting.tallied.once,
      accounting.tallied.completed⟩
  have sameCounted : (getMemReq now s).w.counted = s.w.counted := by rw [wEq]
  have sameConverted : (getMemReq now s).w.converted = s.w.converted := by rw [wEq]
  rw [← sameCounted, ← sentEq] at counted
  rw [← sameConverted, ← sentEq] at order
  cases phase with
  | idle empty =>
      rw [empty] at order
      exact {
        numbered
        tallied
        order := by simpa [RunAcc.held, idle empty] using order
        holding := by simp [idle empty]
        counted := by rw [memEq]; exact counted }
  | @send _ accepted mem taken sent outcome =>
      rw [taken, if_pos rfl] at order
      have law := lawful sent
      have origins : ledger.origins mem =
          (if accepted = true ∧ (getMemReq now s).acc.req.type = .read
            then {(getMemReq now s).acc.req.udf.origin} else 0) + ledger.origins s.mem := by
        rw [Ledger.origins, law.outstanding, Multiset.map_add]
        split <;> rfl
      rcases afterSend_cases outcome with ⟨rejected, rfl⟩ | ⟨rfl, isWrite, w, accounted, rfl⟩ |
        ⟨rfl, notWrite, rfl⟩
      · rw [rejected] at origins
        exact {
          numbered
          tallied
          order := by simpa [RunAcc.held] using order
          holding := fun _ => taken
          counted := by
            rw [show ledger.origins mem = ledger.origins s.mem by simpa using origins]
            exact counted }
      · let udf : UDF := { (getMemReq now s).acc.req.udf with departMemTime := now }
        have accepted : Accounting cfg _ (udf.origin ::ₘ ledger.origins s.mem) :=
          @Accounting.accepted _ _ _ _ now mem accounting taken
            { (getMemReq now s).acc.req with udf }
        rw [show ledger.origins mem = ledger.origins s.mem by simpa [isWrite] using origins]
        exact (accepted.account accounted).2
      · have isRead := (type_of_order numbered order).resolve_right notWrite
        rw [origins, if_pos ⟨rfl, isRead⟩, Multiset.singleton_add]
        exact accounting.accepted taken _

theorem Accounting.not_received {outstanding : Multiset Origin}
    (accounting : Accounting cfg s outstanding) {idx : Nat} (fresh : idx ∉ s.w.received) :
    s.w.totalReqNum idx = 0 ∧ s.w.counted.countP (·.burstIdx = idx) = 0 := by
  have none : s.w.converted.countP (·.udf.burstIdx = idx) = 0 := by
    rw [List.countP_eq_zero]
    intro r membership same
    obtain ⟨known, _⟩ := accounting.numbered.drawn r membership
    exact fresh (of_decide_eq_true same ▸ known)
  refine ⟨by rw [accounting.tallied.total, none]; rfl, ?_⟩
  have bound : s.w.counted.countP (·.burstIdx = idx) ≤
      s.w.converted.countP (·.udf.burstIdx = idx) := by
    have split := congrArg (Multiset.countP (·.burstIdx = idx)) accounting.counted
    rw [Multiset.countP_add, Multiset.coe_countP, Multiset.coe_countP] at split
    rw [countP_origin, origins_of_payload s.w.converted, ← accounting.order,
      ← origins_of_payload, List.append_assoc, List.map_append, List.countP_append]
    omega
  omega

theorem Numbered.receive {w : MemWrapper} (numbered : Numbered cfg w) {idx : Nat} {op : BurstOp}
    (present : w.bursts[idx]? = some op) (fresh : idx ∉ w.received) {reqs : List Request}
    (reqIdxs : reqs.map (·.udf.reqIdx) = op.reqVec)
    (made : ∀ r ∈ reqs, r.type = op.type ∧ r.udf.burstIdx = op.burstIdx ∧
      r.udf.portIdx = op.portIdx) {received : MemWrapper}
    (bursts : received.bursts = w.bursts) (reqIdx : received.reqIdx = w.reqIdx)
    (receivedEq : received.received = w.received ++ [idx])
    (converted : received.converted = w.converted ++ reqs) : Numbered cfg received where
  burst := by
    rw [bursts, reqIdx]
    exact numbered.burst
  apart := by
    rw [bursts]
    exact numbered.apart
  drawn := by
    intro r membership
    rw [converted, List.mem_append] at membership
    rw [bursts, receivedEq]
    rcases membership with earlier | fresh
    · obtain ⟨known, rest⟩ := numbered.drawn r earlier
      exact ⟨List.mem_append_left _ known, rest⟩
    · obtain ⟨type, burstIdx, portIdx⟩ := made r fresh
      have index := (numbered.burst present).1
      rw [burstIdx, index]
      refine ⟨by simp, op, present, ?_, portIdx, type⟩
      rw [← reqIdxs]
      exact List.mem_map_of_mem fresh
  distinct := by
    rw [converted, List.map_append, reqIdxs, List.nodup_append]
    refine ⟨numbered.distinct, (numbered.burst present).2.2.2.1, ?_⟩
    rintro reqIdx earlier _ new rfl
    obtain ⟨r, membership, rfl⟩ := List.mem_map.mp earlier
    obtain ⟨known, other, otherPresent, drawn, _⟩ := numbered.drawn r membership
    have different : r.udf.burstIdx ≠ idx := fun same => fresh (same ▸ known)
    exact numbered.apart otherPresent present different drawn new

theorem Accounting.getBurstReqPort {outstanding : Multiset Origin}
    (accounting : Accounting cfg s outstanding) {burstReq : Port → Option Nat} {i : Port}
    {w : MemWrapper} (fresh : ∀ idx, burstReq i = some idx → idx ∉ s.w.received)
    (ran : s.w.getBurstReqPort cfg burstReq i = some w) :
    Accounting cfg { s with w } outstanding ∧ w.bursts = s.w.bursts ∧
      w.received = s.w.received ++ (burstReq i).toList := by
  unfold MemWrapper.getBurstReqPort at ran
  cases arrives : burstReq i with
  | none =>
      rw [arrives] at ran
      obtain rfl := Option.some.inj ran
      exact ⟨accounting, rfl, by simp⟩
  | some idx =>
      rw [arrives] at ran
      simp only [Option.bind_eq_bind, Option.bind_eq_some_iff] at ran
      obtain ⟨op, present, reqs, converted, ran⟩ := ran
      obtain rfl := Option.some.inj ran
      have unknown := fresh idx arrives
      obtain ⟨index, wellFormed, _⟩ := accounting.numbered.burst present
      obtain ⟨reqs', convertedEq, count, reqIdxs, _, made⟩ := convertToReq_spec wellFormed
      obtain rfl : reqs = reqs' := by
        rw [converted, Option.some.injEq] at convertedEq
        exact convertedEq
      obtain ⟨noTotal, noCount⟩ := accounting.not_received unknown
      have belongs : ∀ other, reqs.countP (·.udf.burstIdx = other) =
          if other = idx then reqs.length else 0 := by
        intro other
        by_cases same : other = idx
        · rw [if_pos same, List.countP_eq_length]
          intro r membership
          simp [(made r membership).2.1, index, same]
        · rw [if_neg same, List.countP_eq_zero]
          intro r membership
          simp [(made r membership).2.1, index, Ne.symm same]
      refine ⟨?_, rfl, by simp⟩
      exact {
        numbered := accounting.numbered.receive present unknown reqIdxs made rfl rfl rfl rfl
        tallied := {
          total := by
            intro other
            show Function.update s.w.totalReqNum idx (op.getReqNum cfg) other = _
            rw [List.countP_append, belongs]
            by_cases same : other = idx
            · subst same
              have none := accounting.tallied.total other
              rw [noTotal] at none
              rw [Function.update_self, if_pos rfl, ← count]
              omega
            · rw [Function.update_of_ne same, if_neg same, accounting.tallied.total]
              rfl
          processed := by
            intro other
            show Function.update s.w.processedReqNum idx 0 other = _
            by_cases same : other = idx
            · subst same
              rw [Function.update_self, noCount]
              rfl
            · rw [Function.update_of_ne same, accounting.tallied.processed]
          once := accounting.tallied.once
          completed := by
            intro j other
            show (j, other) ∈ s.w.completed ↔ _
            rw [accounting.tallied.completed]
            by_cases same : other = idx
            · subst same
              refine iff_of_false (fun both => ?_) (fun both => ?_)
              · have := both.1.1
                omega
              · have first := both.1.1
                have second := both.1.2
                simp only [Function.update_self] at first second
                omega
            · simp [MemWrapper.AllCounted, MemWrapper.OnPort, same] }
        order := by
          show (s.acc.sent ++ s.acc.held ++ (s.w.reqQueue ++ reqs)).map Request.payload =
            (s.w.converted ++ reqs).map Request.payload
          rw [← List.append_assoc, List.map_append, accounting.order, List.map_append]
        holding := accounting.holding
        counted := accounting.counted }

theorem Accounting.getBurstReq {outstanding : Multiset Origin}
    (accounting : Accounting cfg s outstanding) {burstReq : Port → Option Nat} {w : MemWrapper}
    (fresh : ∀ i idx, burstReq i = some idx → idx ∉ s.w.received ∧ s.w.OnPort i idx)
    (ran : s.w.getBurstReq cfg burstReq = some w) :
    Accounting cfg { s with w } outstanding := by
  have invariant := foldlM_invariant
    (fun done w' => Accounting cfg { s with w := w' } outstanding ∧
      w'.bursts = s.w.bursts ∧
      ∀ i idx, i ∉ done → burstReq i = some idx → idx ∉ w'.received)
    ran ⟨accounting, rfl, fun i idx _ arrives => (fresh i idx arrives).1⟩ (by
      rintro done i rest w' next split ⟨accounting', bursts, unknown⟩ stepped
      have notDone : i ∉ done := by
        have nodup := split ▸ List.nodup_finRange 8
        rw [List.nodup_append] at nodup
        exact fun earlier => nodup.2.2 i earlier i (by simp) rfl
      obtain ⟨nextAccounting, nextBursts, nextReceived⟩ := accounting'.getBurstReqPort
        (fun idx arrives => unknown i idx notDone arrives) stepped
      refine ⟨nextAccounting, nextBursts.trans bursts, ?_⟩
      intro j idx later arrives received
      rw [List.mem_append, not_or, List.mem_singleton] at later
      change idx ∈ next.received at received
      rw [nextReceived, List.mem_append, Option.mem_toList] at received
      rcases received with earlier | same
      · exact unknown j idx later.1 arrives earlier
      · exact later.2 (OnPort.unique (fresh j idx arrives).2 (fresh i idx same).2))
  exact invariant.1

theorem Accounting.of_shapes {outstanding : Multiset Origin}
    (accounting : Accounting cfg s outstanding) {w : MemWrapper}
    (shapes : w.bursts.map BurstOp.shape = s.w.bursts.map BurstOp.shape)
    (frame : ∃ bursts ramData burstReqQueue burstRespQueue copied, w = { s.w with
      bursts, ramData, burstReqQueue, burstRespQueue, copied }) :
    Accounting cfg { s with w } outstanding := by
  have ports := onPort_iff shapes
  obtain ⟨bursts, ramData, burstReqQueue, burstRespQueue, copied, rfl⟩ := frame
  exact {
    numbered := accounting.numbered.of_shapes shapes rfl rfl rfl
    tallied := {
      total := accounting.tallied.total
      processed := accounting.tallied.processed
      once := accounting.tallied.once
      completed := fun i idx => by
        rw [ports]
        exact accounting.tallied.completed i idx }
    order := accounting.order
    holding := accounting.holding
    counted := accounting.counted }

theorem Accounting.sendBurstResp {outstanding : Multiset Origin}
    (accounting : Accounting cfg s outstanding) {now : Int} {i : Port} {w : MemWrapper}
    {written : Option (Option Nat)} (ran : s.w.sendBurstRespPort now i = some (w, written)) :
    Accounting cfg { s with w } outstanding := by
  rcases sendBurstRespPort_cases ran with ⟨rfl, _⟩ | ⟨idx, rest, op, _, _, present, _, answer, _⟩ |
    ⟨_, _, _, _, _, _, _, rfl, _⟩
  · exact accounting
  · obtain ⟨copied, ramData, shape, _, _, rfl⟩ := answer_cases answer
    exact accounting.of_shapes (shapes_set present shape) ⟨_, _, _, _, _, rfl⟩
  · exact accounting

theorem AllCounted.present {w : MemWrapper} (numbered : Numbered cfg w) (tallied : Tallied w)
    {idx : Nat} (all : w.AllCounted idx) : ∃ op, w.bursts[idx]? = some op := by
  have some := all.1
  rw [tallied.total, Int.natCast_pos, List.countP_pos_iff] at some
  obtain ⟨r, membership, same⟩ := some
  obtain ⟨_, op, present, _⟩ := numbered.drawn r membership
  exact ⟨op, of_decide_eq_true same ▸ present⟩

/-- A new burst takes numbers that no other burst has. -/
theorem Accounting.create {outstanding : Multiset Origin}
    (accounting : Accounting cfg s outstanding) {op created : BurstOp} {reqIdx : Nat}
    (type : op.type = .read ∨ op.type = .write) (noReqs : op.reqVec = [])
    (noAddrs : op.addrVec = []) (index : op.burstIdx = s.w.bursts.length)
    (made : newBurst cfg op s.w.reqIdx = some (created, reqIdx)) :
    Accounting cfg { s with w := { s.w with bursts := s.w.bursts ++ [created], reqIdx } }
      outstanding := by
  obtain ⟨addrVec, madeEq, addrs⟩ := newBurst_total cfg op noReqs noAddrs s.w.reqIdx
  rw [made, Option.some.injEq, Prod.mk.injEq] at madeEq
  obtain ⟨rfl, rfl⟩ := madeEq
  let created : BurstOp := { op with
    reqVec := List.range' s.w.reqIdx (op.getReqNum cfg).toNat, addrVec }
  have numbered := accounting.numbered
  -- a burst is an earlier one or the new one
  have lookup : ∀ {idx : Nat} {other : BurstOp},
      (s.w.bursts ++ [created])[idx]? = some other →
      s.w.bursts[idx]? = some other ∨ (idx = s.w.bursts.length ∧ other = created) := by
    intro idx other present
    rw [List.getElem?_append] at present
    split at present
    · exact .inl present
    · rename_i beyond
      rw [List.getElem?_singleton] at present
      split at present
      · exact .inr ⟨by omega, (Option.some.inj present).symm⟩
      · simp at present
  have keep : ∀ {idx : Nat} {other : BurstOp}, s.w.bursts[idx]? = some other →
      (s.w.bursts ++ [created])[idx]? = some other := by
    intro idx other present
    obtain ⟨bound, _⟩ := List.getElem?_eq_some_iff.mp present
    rw [List.getElem?_append_left bound, present]
  have fresh : ∀ {idx : Nat} {other : BurstOp}, s.w.bursts[idx]? = some other →
      other.reqVec.Disjoint created.reqVec := by
    intro idx other present reqIdx earlier new
    have := (numbered.burst present).2.2.2.2 reqIdx earlier
    have := (List.mem_range'_1.mp new).1
    omega
  exact {
    numbered := {
      burst := by
        intro idx other present
        rcases lookup present with earlier | ⟨rfl, rfl⟩
        · obtain ⟨burstIdx, wellFormed, type, nodup, below⟩ := numbered.burst earlier
          exact ⟨burstIdx, wellFormed, type, nodup,
            fun reqIdx membership => Nat.lt_add_right _ (below reqIdx membership)⟩
        · refine ⟨index, ⟨addrs, List.length_range'⟩, type, List.nodup_range', ?_⟩
          intro reqIdx membership
          exact (List.mem_range'_1.mp membership).2
      apart := by
        intro idx otherIdx first second present otherPresent different
        rcases lookup present with earlier | ⟨rfl, rfl⟩
        · rcases lookup otherPresent with otherEarlier | ⟨rfl, rfl⟩
          · exact numbered.apart earlier otherEarlier different
          · exact fresh earlier
        · rcases lookup otherPresent with otherEarlier | ⟨rfl, rfl⟩
          · exact fun reqIdx new earlier => fresh otherEarlier earlier new
          · exact absurd rfl different
      drawn := by
        intro r membership
        obtain ⟨known, other, present, rest⟩ := numbered.drawn r membership
        exact ⟨known, other, keep present, rest⟩
      distinct := numbered.distinct }
    tallied := {
      total := accounting.tallied.total
      processed := accounting.tallied.processed
      once := accounting.tallied.once
      completed := by
        intro i idx
        refine (accounting.tallied.completed i idx).trans (and_congr_right fun all => ?_)
        obtain ⟨other, present⟩ := AllCounted.present numbered accounting.tallied all
        refine ⟨fun ⟨found, foundPresent, port⟩ => ⟨found, keep foundPresent, port⟩,
          fun ⟨found, foundPresent, port⟩ => ?_⟩
        rw [keep present, Option.some.injEq] at foundPresent
        exact ⟨other, present, foundPresent ▸ port⟩ }
    order := accounting.order
    holding := accounting.holding
    counted := accounting.counted }

/-- Every step keeps the accounting, provided that the memory keeps its laws. -/
theorem Accounting.step {ram : Ramulator Mem} {memClkCycle : Int}
    (accounting : Accounting cfg s (ledger.origins s.mem))
    (sendLaw : ∀ {req accepted mem}, ram.send s.mem req accepted mem →
      SendLaw ledger s.mem req accepted mem)
    (tickLaw : ∀ {callbacks mem}, ram.tick s.mem callbacks mem →
      TickLaw ledger s.mem callbacks mem)
    (stepped : MemStep cfg ram memClkCycle s after) :
    Accounting cfg after (ledger.origins after.mem) := by
  cases stepped with
  | create type noReqs noAddrs index made =>
      exact accounting.create type noReqs noAddrs index made
  | getBurstReq fresh ran => exact accounting.getBurstReq fresh ran
  | sendBurstResp ran => exact accounting.sendBurstResp ran
  | send phase => exact accounting.sendPhase sendLaw phase
  | tick phase =>
      cases phase with
      | tick ticked ran => exact accounting.tickPhase (tickLaw ticked) ran

end Phases

end GraphAccelerator.Memory
