import Mathlib.Order.Bounds.Basic
import GraphAccelerator.Library.Queue
import GraphAccelerator.Memory.Carrying

/-!
# The stamps of the basic requests

`run_acc` copies the arrival of the basic request that it accounts for first, and the
departure of the one it accounts for last.  For a write these are the earliest and the
latest, since requests are fetched and accepted in order.  For a read they are whenever
the memory calls the first request back before the others, and last a request whose
fetch and latency add up to the most: the departure counts the latency from the fetch,
so that a request that had to wait departs too early.
-/

namespace GraphAccelerator.Memory

open CheckedLoop Relation

structure Stamped (Mem : Type) where
  transport : Transport Mem
  stamps : List UDF := []

namespace Stamped

variable {Mem : Type}

def sendStamps (before after : MemSystem Mem) : List UDF :=
  if before.acc.sent.length < after.acc.sent.length ∧ after.acc.req.type = .write then
    [after.acc.req.udf]
  else []

inductive Resume (cfg : BurstCfg) (ram : Ramulator Mem) (clocks : Clocks)
    (permits : MemWrapper → List UDF → List Request → Prop) :
    Thread → Nat → Stamped Mem → Stamped Mem → Nat → Prop
  | other {now delay : Nat} {thread : Thread} {s : Stamped Mem}
      {after : Transport Mem} : thread ≠ .runAcc →
      Transport.Resume cfg ram clocks thread now s.transport after delay →
      Resume cfg ram clocks permits thread now s { s with transport := after } delay
  | start {now : Nat} {s : Stamped Mem} {sys : MemSystem Mem} : s.transport.started = false →
      SendPhase ram now s.transport.sys sys →
      Resume cfg ram clocks permits .runAcc now s {
        transport := { s.transport with sys, started := true }
        stamps := s.stamps ++ sendStamps s.transport.sys sys } clocks.memClkCycle
  | runAcc {now : Nat} {s : Stamped Mem} {callbacks : List Request} {mem : Mem}
      {w : MemWrapper} {sys : MemSystem Mem} : s.transport.started = true →
      ram.tick s.transport.sys.mem callbacks mem →
      permits s.transport.sys.w s.stamps callbacks →
      callbacks.foldlM (MemWrapper.readComplete clocks.memClkCycle) s.transport.sys.w = some w →
      SendPhase ram now { s.transport.sys with w, mem } sys →
      Resume cfg ram clocks permits .runAcc now s {
        transport := { s.transport with sys }
        stamps := s.stamps ++ callbacks.map (Request.stamp clocks.memClkCycle) ++
          sendStamps { s.transport.sys with w, mem } sys } clocks.memClkCycle

abbrev Step (cfg : BurstCfg) (ram : Ramulator Mem) (clocks : Clocks)
    (permits : MemWrapper → List UDF → List Request → Prop) :
    Kernel.Timed Thread (Stamped Mem) → Kernel.Timed Thread (Stamped Mem) →
      Prop :=
  Kernel.Step (Resume cfg ram clocks permits)
    (fun now s after => Transport.Use cfg now s.transport after.transport ∧
      after.stamps = s.stamps)
    fun s => { s with transport := s.transport.settle }

/-- The condition on a callback: the first one of a burst is for its first request, and
no request that was called back before the last one departs after it. -/
structure Orderly (memClkCycle : Int) (w : MemWrapper) (stamps : List UDF) (r : Request) :
    Prop where
  first : (∀ u ∈ stamps, u.burstIdx ≠ r.udf.burstIdx) →
    ((w.bursts[r.udf.burstIdx]?).bind fun op => op.reqVec.head?) = some r.udf.reqIdx
  last : (stamps.countP (·.burstIdx = r.udf.burstIdx) : Nat) + 1 =
      w.totalReqNum r.udf.burstIdx →
    ∀ u ∈ stamps, u.burstIdx = r.udf.burstIdx →
      u.departMemTime ≤ r.udf.arriveMemTime + memClkCycle * (r.depart - r.arrive)

def AllOrderly (memClkCycle : Int) (w : MemWrapper) : List UDF → List Request → Prop
  | _, [] => True
  | stamps, r :: rest => Orderly memClkCycle w stamps r ∧
      AllOrderly memClkCycle w (stamps ++ [r.stamp memClkCycle]) rest

def times (stamps : List UDF) (time : UDF → Int) (idx : Nat) : Set Int :=
  {t | ∃ u ∈ stamps, u.burstIdx = idx ∧ time u = t}

/-- The stamps of a burst that was pushed to a response queue of the wrapper are the
bounds of those of its basic requests; the stamps of a burst that was delivered are in
order. -/
structure Bounds (s : Stamped Mem) : Prop where
  pushed : ∀ i idx, (i, idx) ∈ s.transport.sys.w.completed →
    ∃ op, s.transport.sys.w.bursts[idx]? = some op ∧
      (s.stamps.countP (·.burstIdx = idx) : Nat) = s.transport.sys.w.totalReqNum idx ∧
      IsLeast (times s.stamps UDF.arriveMemTime idx) op.arriveMemTime ∧
      IsGreatest (times s.stamps UDF.departMemTime idx) op.departMemTime
  delivered : ∀ i, ∀ idx ∈ s.transport.answered i,
    ∃ op, s.transport.sys.w.bursts[idx]? = some op ∧ op.departPeTime ≤ op.arriveMemTime ∧
      op.arriveMemTime ≤ op.departMemTime ∧ op.departMemTime ≤ op.arrivePeTime

end Stamped

section Accounts

variable {now : Int} {w after : MemWrapper} {fetched sent : List Request} {stamps : List UDF}
  {outstanding : Multiset (UDF × Int)} {u : UDF}

theorem lookup_set {bursts : List BurstOp} {idx k : Nat} {other op : BurstOp}
    (present : (bursts.set idx other)[k]? = some op) :
    k = idx ∧ op = other ∨ k ≠ idx ∧ bursts[k]? = some op := by
  by_cases same : k = idx
  · subst same
    obtain ⟨bound, value⟩ := List.getElem?_eq_some_iff.mp present
    rw [List.getElem_set_self] at value
    exact .inl ⟨rfl, value.symm⟩
  · rw [List.getElem?_set_ne (Ne.symm same)] at present
    exact .inr ⟨same, present⟩

theorem account_stamps (accounted : w.account u = some after) :
    ∃ op counted : BurstOp, w.bursts[u.burstIdx]? = some op ∧
      after.bursts = w.bursts.set u.burstIdx counted ∧
      counted.departPeTime = op.departPeTime ∧ counted.arrivePeTime = op.arrivePeTime ∧
      counted.arriveMemTime =
        (if w.processedReqNum u.burstIdx + 1 = 1 then u.arriveMemTime else op.arriveMemTime) ∧
      after.copied = w.copied ∧
      (w.processedReqNum u.burstIdx + 1 = w.totalReqNum u.burstIdx ∧
        counted.departMemTime = u.departMemTime ∧
        after.completed = w.completed ++ [(u.portIdx, u.burstIdx)] ∧
        after.burstRespQueue = Function.update w.burstRespQueue u.portIdx
          (w.burstRespQueue u.portIdx ++ [u.burstIdx]) ∨
      w.processedReqNum u.burstIdx + 1 ≠ w.totalReqNum u.burstIdx ∧
        counted.departMemTime = op.departMemTime ∧ after.completed = w.completed ∧
        after.burstRespQueue = w.burstRespQueue) := by
  simp only [MemWrapper.account, Option.bind_eq_bind, Option.bind_eq_some_iff] at accounted
  obtain ⟨op, present, accounted⟩ := accounted
  split at accounted
  · rename_i last
    obtain rfl := Option.some.inj accounted
    exact ⟨op, _, present, rfl, rfl, rfl, rfl, rfl, .inl ⟨last, rfl, rfl, rfl⟩⟩
  · rename_i more
    obtain rfl := Option.some.inj accounted
    exact ⟨op, _, present, rfl, rfl, rfl, rfl, rfl, .inr ⟨more, rfl, rfl, rfl⟩⟩

structure Ascending (w : MemWrapper) : Prop where
  reqVec : ∀ {idx : Nat} {op : BurstOp}, w.bursts[idx]? = some op → op.reqVec.Pairwise (· < ·)
  converted : w.converted.Pairwise fun r later =>
    r.udf.burstIdx = later.udf.burstIdx → r.udf.reqIdx < later.udf.reqIdx

structure Fetched (now : Int) (w : MemWrapper) (fetched : List Request) : Prop where
  past : ∀ r ∈ fetched, r.udf.arriveMemTime ≤ now
  monotone : ∀ r ∈ fetched, ∀ other ∈ fetched, r.udf.burstIdx = other.udf.burstIdx →
    r.udf.reqIdx ≤ other.udf.reqIdx → r.udf.arriveMemTime ≤ other.udf.arriveMemTime
  left : ∀ r ∈ fetched, ∀ op, w.bursts[r.udf.burstIdx]? = some op →
    op.departPeTime ≤ r.udf.arriveMemTime

/-- What the stamps of the bursts have to do with those of the requests. -/
structure Accounted (now : Int) (w : MemWrapper) (fetched sent : List Request)
    (outstanding : Multiset (UDF × Int)) (stamps : List UDF) : Prop where
  counted : stamps.map UDF.origin = w.counted
  source : ∀ u ∈ stamps, ∃ r ∈ sent, r.udf.origin = u.origin ∧
    r.udf.arriveMemTime = u.arriveMemTime
  reads : ∀ entry ∈ outstanding, ∃ r ∈ sent, r.type = .read ∧ r.udf = entry.1
  span : ∀ u ∈ stamps, u.arriveMemTime ≤ u.departMemTime ∧ u.departMemTime ≤ now
  arrive : ∀ idx op, w.bursts[idx]? = some op → (∃ u ∈ stamps, u.burstIdx = idx) →
    (∃ u ∈ stamps, u.burstIdx = idx ∧ u.arriveMemTime = op.arriveMemTime) ∧
      ∀ r ∈ fetched, r.udf.burstIdx = idx → op.arriveMemTime ≤ r.udf.arriveMemTime
  depart : ∀ i idx op, (i, idx) ∈ w.completed → w.bursts[idx]? = some op →
    (∃ u ∈ stamps, u.burstIdx = idx ∧ u.departMemTime = op.departMemTime) ∧
      ∀ u ∈ stamps, u.burstIdx = idx → u.departMemTime ≤ op.departMemTime
  responses : ∀ i, ∀ idx ∈ w.burstRespQueue i, (i, idx) ∈ w.completed
  copied : ∀ idx ∈ w.copied, ∃ i, (i, idx) ∈ w.completed

theorem Accounted.processed (stamped : Accounted now w fetched sent outstanding stamps)
    (tallied : Tallied w) (idx : Nat) :
    w.processedReqNum idx = (stamps.countP (·.burstIdx = idx) : Nat) := by
  rw [tallied.processed, ← stamped.counted, List.countP_map]
  rfl

/-- Accounting for the first request of a burst in front, and for the last one behind
all others. -/
theorem Accounted.account (stamped : Accounted now w fetched sent outstanding stamps)
    (tallied : Tallied w) (accounted : w.account u = some after)
    (room : w.processedReqNum u.burstIdx + 1 ≤ w.totalReqNum u.burstIdx)
    (source : ∃ r ∈ sent, r.udf.origin = u.origin ∧ r.udf.arriveMemTime = u.arriveMemTime)
    (span : u.arriveMemTime ≤ u.departMemTime ∧ u.departMemTime ≤ now)
    (first : (∀ v ∈ stamps, v.burstIdx ≠ u.burstIdx) →
      ∀ r ∈ fetched, r.udf.burstIdx = u.burstIdx → u.arriveMemTime ≤ r.udf.arriveMemTime)
    (last : w.processedReqNum u.burstIdx + 1 = w.totalReqNum u.burstIdx →
      ∀ v ∈ stamps, v.burstIdx = u.burstIdx → v.departMemTime ≤ u.departMemTime) :
    Accounted now after fetched sent outstanding (stamps ++ [u]) := by
  have frame := account_frame accounted
  obtain ⟨op, counted, present, bursts, _, _, arrive, copied, outcome⟩ := account_stamps accounted
  -- the burst is not completed yet
  have open' : ∀ i, (i, u.burstIdx) ∉ w.completed := fun i completed => by
    have all := ((tallied.completed i u.burstIdx).mp completed).1.2
    omega
  have zero : w.processedReqNum u.burstIdx + 1 = 1 ↔ ∀ v ∈ stamps, v.burstIdx ≠ u.burstIdx := by
    rw [stamped.processed tallied]
    simp [List.countP_eq_zero]
  refine ⟨?_, ?_, stamped.reads, ?_, ?_, ?_, ?_, ?_⟩
  · rw [List.map_append, stamped.counted, frame.2.2.2.2.2.2]
    rfl
  · intro v membership
    rcases List.mem_append.mp membership with old | new
    · exact stamped.source v old
    · exact List.mem_singleton.mp new ▸ source
  · intro v membership
    rcases List.mem_append.mp membership with old | new
    · exact stamped.span v old
    · exact List.mem_singleton.mp new ▸ span
  · intro idx other found some
    rw [bursts] at found
    rcases lookup_set found with ⟨rfl, rfl⟩ | ⟨different, found⟩
    · rw [arrive]
      split
      · rename_i none
        exact ⟨⟨u, by simp, rfl, rfl⟩, first (zero.mp none)⟩
      · rename_i more
        obtain ⟨v, earlier, same⟩ : ∃ v ∈ stamps, v.burstIdx = u.burstIdx := by
          by_contra none
          exact more (zero.mpr fun v membership same => none ⟨v, membership, same⟩)
        obtain ⟨⟨v, membership, own, time⟩, least⟩ :=
          stamped.arrive _ op present ⟨v, earlier, same⟩
        exact ⟨⟨v, List.mem_append_left _ membership, own, time⟩, least⟩
    · obtain ⟨v, membership, same⟩ := some
      have earlier : v ∈ stamps := (List.mem_append.mp membership).resolve_right fun new =>
        different (same ▸ List.mem_singleton.mp new ▸ rfl)
      obtain ⟨⟨v, membership, own, time⟩, least⟩ :=
        stamped.arrive idx other found ⟨v, earlier, same⟩
      exact ⟨⟨v, List.mem_append_left _ membership, own, time⟩, least⟩
  · intro i idx other completed found
    rw [bursts] at found
    rcases lookup_set found with ⟨rfl, rfl⟩ | ⟨different, found⟩
    · rcases outcome with ⟨complete, depart, _⟩ | ⟨_, _, same, _⟩
      · rw [depart]
        refine ⟨⟨u, by simp, rfl, rfl⟩, fun v membership own => ?_⟩
        rcases List.mem_append.mp membership with old | new
        · exact last complete v old own
        · rw [List.mem_singleton.mp new]
      · exact absurd (same ▸ completed) (open' i)
    · have earlier : (i, idx) ∈ w.completed := by
        rcases outcome with ⟨_, _, more, _⟩ | ⟨_, _, same, _⟩
        · rw [more] at completed
          exact (List.mem_append.mp completed).resolve_right fun new =>
            different (congrArg Prod.snd (List.mem_singleton.mp new))
        · exact same ▸ completed
      obtain ⟨⟨v, membership, own, time⟩, greatest⟩ := stamped.depart i idx other earlier found
      refine ⟨⟨v, List.mem_append_left _ membership, own, time⟩, fun v membership own => ?_⟩
      rcases List.mem_append.mp membership with old | new
      · exact greatest v old own
      · exact absurd (own ▸ List.mem_singleton.mp new ▸ rfl) different
  · intro i idx response
    rcases outcome with ⟨_, _, completed, responses⟩ | ⟨_, _, completed, responses⟩
    · rw [completed]
      rw [responses] at response
      by_cases port : i = u.portIdx
      · subst port
        rw [Function.update_self] at response
        rcases List.mem_append.mp response with old | new
        · exact List.mem_append_left _ (stamped.responses _ idx old)
        · simp [List.mem_singleton.mp new]
      · rw [Function.update_of_ne port] at response
        exact List.mem_append_left _ (stamped.responses i idx response)
    · rw [completed]
      exact stamped.responses i idx (responses ▸ response)
  · intro idx membership
    obtain ⟨i, completed⟩ := stamped.copied idx (copied ▸ membership)
    refine ⟨i, ?_⟩
    rcases outcome with ⟨_, _, more, _⟩ | ⟨_, _, same, _⟩
    · exact more ▸ List.mem_append_left _ completed
    · exact same ▸ completed

theorem Ascending.of_shapes (ascending : Ascending w)
    (shapes : after.bursts.map BurstOp.shape = w.bursts.map BurstOp.shape)
    (converted : after.converted = w.converted) : Ascending after where
  reqVec present := by
    obtain ⟨old, found, same⟩ := shape_lookup shapes present
    rw [shape_reqVec same.symm]
    exact ascending.reqVec found
  converted := converted ▸ ascending.converted

theorem Fetched.account (requests : Fetched now w fetched) (accounted : w.account u = some after) :
    Fetched now after fetched where
  past := requests.past
  monotone := requests.monotone
  left r membership op found := by
    obtain ⟨old, counted, present, bursts, depart, _⟩ := account_stamps accounted
    rw [bursts] at found
    rcases lookup_set found with ⟨same, rfl⟩ | ⟨_, found⟩
    · rw [depart]
      exact requests.left r membership old (same ▸ present)
    · exact requests.left r membership op found

end Accounts

section Phases

variable {Mem : Type} {cfg : BurstCfg} {ledger : Ledger Mem} {now : Int} {s after : MemSystem Mem}
  {stamps : List UDF} {origins : Multiset Origin} {outstanding : Multiset (UDF × Int)}

theorem Accounting.fetched (accounting : Accounting cfg s origins) {r : Request}
    (membership : r ∈ s.acc.sent ++ s.acc.held) : r.udf.burstIdx ∈ s.w.received ∧
      ∃ op, s.w.bursts[r.udf.burstIdx]? = some op ∧ r.udf.reqIdx ∈ op.reqVec ∧
        r.type = op.type := by
  have drawn : r.payload ∈ s.w.converted.map Request.payload := by
    rw [← accounting.order]
    exact List.mem_map_of_mem (List.mem_append_left _ membership)
  obtain ⟨other, converted, same⟩ := List.mem_map.mp drawn
  obtain ⟨type, _, origin⟩ := Prod.mk.inj same |>.imp id Prod.mk.inj
  have burstIdx : other.udf.burstIdx = r.udf.burstIdx := congrArg Origin.burstIdx origin
  have reqIdx : other.udf.reqIdx = r.udf.reqIdx := congrArg Origin.reqIdx origin
  obtain ⟨received, op, present, number, _, typed⟩ := accounting.numbered.drawn other converted
  rw [burstIdx] at received present
  exact ⟨received, op, present, reqIdx ▸ number, type ▸ typed⟩

/-- Of two requests of a burst the one that was fetched first has the smaller number. -/
theorem Ascending.order {w : MemWrapper} (ascending : Ascending w) {before behind : List Request}
    {r : Request}
    (order : (before ++ [r] ++ behind).map Request.payload = w.converted.map Request.payload)
    {other : Request} (earlier : other ∈ before) (same : other.udf.burstIdx = r.udf.burstIdx) :
    other.udf.reqIdx < r.udf.reqIdx := by
  have converted := ascending.converted
  have payloads : (w.converted.map Request.payload).Pairwise fun p later =>
      p.2.2.burstIdx = later.2.2.burstIdx → p.2.2.reqIdx < later.2.2.reqIdx :=
    List.pairwise_map.mpr converted
  rw [← order, List.pairwise_map, List.pairwise_append, List.pairwise_append] at payloads
  exact payloads.1.2.2 other earlier r (List.mem_singleton_self r) same

theorem Accounted.callbacks {memClkCycle : Int} {callbacks : List Request} {w first : MemWrapper}
    (accounting : Accounting cfg s ((callbacks.map (·.udf.origin) : List Origin) + origins))
    (ascending : Ascending s.w) (requests : Fetched now s.w (s.acc.sent ++ s.acc.held))
    (stamped : Accounted now s.w (s.acc.sent ++ s.acc.held) s.acc.sent
      ((callbacks.map fun r => (r.udf, r.arrive) : List (UDF × Int)) + outstanding) stamps)
    (departed : ∀ r ∈ callbacks, (r.stamp memClkCycle).arriveMemTime ≤
      (r.stamp memClkCycle).departMemTime ∧ (r.stamp memClkCycle).departMemTime ≤ now)
    (total : first.totalReqNum = s.w.totalReqNum)
    (shapes : first.bursts.map BurstOp.shape = s.w.bursts.map BurstOp.shape)
    (orderly : Stamped.AllOrderly memClkCycle first stamps callbacks)
    (ran : callbacks.foldlM (MemWrapper.readComplete memClkCycle) s.w = some w) :
    Ascending w ∧ Fetched now w (s.acc.sent ++ s.acc.held) ∧
      Accounted now w (s.acc.sent ++ s.acc.held) s.acc.sent outstanding
        (stamps ++ callbacks.map (Request.stamp memClkCycle)) := by
  induction callbacks generalizing s stamps with
  | nil =>
      obtain rfl := Option.some.inj ran
      exact ⟨ascending, requests, by simpa using stamped⟩
  | cons r rest inductionHypothesis =>
      rw [List.foldlM_cons, Option.bind_eq_bind, Option.bind_eq_some_iff] at ran
      obtain ⟨next, stepped, ran⟩ := ran
      rw [readComplete_eq] at stepped
      rw [List.map_cons, ← Multiset.cons_coe, Multiset.cons_add] at accounting stamped
      have accounting : Accounting cfg s ((r.stamp memClkCycle).origin ::ₘ
          ((rest.map (·.udf.origin) : List Origin) + origins)) := accounting
      obtain ⟨room, accountingNext⟩ := accounting.account stepped
      have frame := account_frame stepped
      obtain ⟨sent, membership, _, same⟩ := stamped.reads _ (Multiset.mem_cons_self _ _)
      have sameBurst : sent.udf.burstIdx = (r.stamp memClkCycle).burstIdx := by
        rw [same]
        rfl
      have isFetched : sent ∈ s.acc.sent ++ s.acc.held := List.mem_append_left _ membership
      have counted := Accounted.account
        { stamped with reads := fun entry later =>
            stamped.reads entry (Multiset.mem_cons_of_mem later) }
        accounting.tallied stepped room ⟨sent, membership, by rw [same]; rfl, by rw [same]; rfl⟩
        (departed r List.mem_cons_self)
        (fun none other otherFetched burst => by
          have head := orderly.1.first none
          obtain ⟨op, present, front⟩ := Option.bind_eq_some_iff.mp head
          obtain ⟨old, found, shape⟩ := shape_lookup shapes present
          obtain ⟨_, op', present', number, _⟩ := accounting.fetched otherFetched
          rw [burst] at present'
          obtain rfl : old = op' := Option.some.inj (found.symm.trans present')
          rw [← shape_reqVec shape] at front
          obtain ⟨behind, split⟩ := List.head?_eq_some_iff.mp front
          have increasing := ascending.reqVec found
          rw [split, List.pairwise_cons] at increasing
          have least : sent.udf.reqIdx ≤ other.udf.reqIdx := by
            rw [same]
            rw [split] at number
            rcases List.mem_cons.mp number with first | later
            · exact Nat.le_of_eq first.symm
            · exact Nat.le_of_lt (increasing.1 _ later)
          have earlier := requests.monotone sent isFetched other otherFetched
            (sameBurst.trans burst.symm) least
          rw [same] at earlier
          exact earlier)
        (fun complete v earlier own => by
          rw [stamped.processed accounting.tallied] at complete
          exact orderly.1.last (by rw [total]; exact complete) v earlier own)
      have later := @inductionHypothesis { s with w := next } _ accountingNext
        (ascending.of_shapes frame.1 frame.2.2.2.1) (requests.account stepped) counted
        (fun other membership => departed other (List.mem_cons_of_mem _ membership))
        (total.trans frame.2.2.2.2.2.1.symm) (shapes.trans frame.1.symm) orderly.2 ran
      simpa using later

def RunAcc.inHand (acc : RunAcc) : List Request := if acc.success then [acc.req] else []

theorem Accounted.sent_mono {w : MemWrapper} {fetched sent more : List Request}
    (stamped : Accounted now w fetched sent outstanding stamps) :
    Accounted now w fetched (sent ++ more) outstanding stamps :=
  { stamped with
    source := fun u membership =>
      let ⟨r, present, same⟩ := stamped.source u membership
      ⟨r, List.mem_append_left _ present, same⟩
    reads := fun entry membership =>
      let ⟨r, present, same⟩ := stamped.reads entry membership
      ⟨r, List.mem_append_left _ present, same⟩ }

theorem Accounted.fetch (accounting : Accounting cfg s origins) (ascending : Ascending s.w)
    (requests : Fetched now s.w (s.acc.sent ++ s.acc.held))
    (stamped : Accounted now s.w (s.acc.sent ++ s.acc.held) s.acc.sent outstanding stamps)
    (received : ∀ idx ∈ s.w.received, ∀ op, s.w.bursts[idx]? = some op → op.departPeTime ≤ now) :
    Fetched now (getMemReq now s).w (s.acc.sent ++ (getMemReq now s).acc.inHand) ∧
      Accounted now (getMemReq now s).w (s.acc.sent ++ (getMemReq now s).acc.inHand) s.acc.sent
        outstanding stamps := by
  have order := accounting.order
  cases stalled : s.acc.stall with
  | true =>
      have held : s.acc.held = s.acc.inHand := by
        rw [RunAcc.held, RunAcc.inHand, stalled, accounting.holding stalled]
      rw [getMemReq, if_pos stalled, ← held]
      exact ⟨requests, stamped⟩
  | false =>
      have held : s.acc.held = [] := by simp [RunAcc.held, stalled]
      rw [held, List.append_nil] at requests stamped order
      rw [getMemReq, if_neg (by simp [stalled])]
      cases queue : s.w.reqQueue with
      | nil => exact ⟨by simpa [RunAcc.inHand] using requests, by simpa [RunAcc.inHand] using stamped⟩
      | cons tmp rest =>
          let r : Request := { s.acc.req with
            type := tmp.type
            addr := tmp.addr
            udf := { tmp.udf with arriveMemTime := now } }
          have taken : (s.acc.sent ++ [r] ++ rest).map Request.payload =
              s.w.converted.map Request.payload := by
            rw [queue] at order
            simpa [r, Request.payload, UDF.origin] using order
          have drawn : r.udf.burstIdx ∈ s.w.received := by
            have membership : r.payload ∈ s.w.converted.map Request.payload := by
              rw [← taken]
              simp
            obtain ⟨other, converted, same⟩ := List.mem_map.mp membership
            have burstIdx : other.udf.burstIdx = r.udf.burstIdx :=
              congrArg (fun payload => payload.2.2.burstIdx) same
            exact burstIdx ▸ (accounting.numbered.drawn other converted).1
          show Fetched now { s.w with reqQueue := rest } (s.acc.sent ++ [r]) ∧
            Accounted now { s.w with reqQueue := rest } (s.acc.sent ++ [r]) s.acc.sent
              outstanding stamps
          refine ⟨⟨fun other membership => ?_, fun first membership other later same less => ?_,
            fun other membership op present => ?_⟩, { stamped with
              arrive := fun idx op present some => ?_ }⟩
          · rcases List.mem_append.mp membership with old | new
            · exact requests.past other old
            · rw [List.mem_singleton.mp new]
          · rcases List.mem_append.mp membership with old | new
            · rcases List.mem_append.mp later with earlier | last
              · exact requests.monotone first old other earlier same less
              · rw [List.mem_singleton.mp last]
                exact requests.past first old
            · rcases List.mem_append.mp later with earlier | last
              · rw [List.mem_singleton.mp new] at same less
                have := ascending.order taken earlier same.symm
                omega
              · rw [List.mem_singleton.mp new, List.mem_singleton.mp last]
          · rcases List.mem_append.mp membership with old | new
            · exact requests.left other old op present
            · rw [List.mem_singleton.mp new] at present ⊢
              exact received _ drawn op present
          · obtain ⟨⟨u, membership, own, time⟩, least⟩ := stamped.arrive idx op present some
            refine ⟨⟨u, membership, own, time⟩, fun other fetched burst => ?_⟩
            rcases List.mem_append.mp fetched with old | new
            · exact least other old burst
            · rw [List.mem_singleton.mp new, ← time]
              exact (stamped.span u membership).1.trans (stamped.span u membership).2

theorem Accounted.uncounted {sent : List Request} {w : MemWrapper} {fetched : List Request}
    (stamped : Accounted now w fetched sent outstanding stamps)
    (balance : (w.counted : Multiset Origin) + outstanding.map (fun entry => entry.1.origin) =
      (sent.map (·.udf.origin) : List Origin)) {r : Request} (membership : r ∈ sent)
    (none : ∀ u ∈ stamps, u.burstIdx ≠ r.udf.burstIdx) :
    ∃ read ∈ sent, read.type = .read ∧ read.udf.origin = r.udf.origin := by
  have present : r.udf.origin ∈ (w.counted : Multiset Origin) +
      outstanding.map (fun entry => entry.1.origin) := by
    rw [balance]
    exact Multiset.mem_coe.mpr (List.mem_map_of_mem membership)
  rcases Multiset.mem_add.mp present with counted | out
  · rw [Multiset.mem_coe, ← stamped.counted] at counted
    obtain ⟨u, stamp, same⟩ := List.mem_map.mp counted
    exact absurd (congrArg Origin.burstIdx same) (none u stamp)
  · obtain ⟨entry, outstanding, same⟩ := Multiset.mem_map.mp out
    obtain ⟨read, sent, type, udf⟩ := stamped.reads entry outstanding
    exact ⟨read, sent, type, by rw [udf, same]⟩

/-- What `send` does to the stamps: a write is accounted for when it is accepted, and
no later than any other request of its burst. -/
theorem Accounted.sendPhase {ram : Ramulator Mem}
    (lawful : ∀ {req accepted mem}, ram.send s.mem req accepted mem →
      SendLaw ledger s.mem req accepted mem)
    (accounting : Accounting cfg s (ledger.origins s.mem)) (ascending : Ascending s.w)
    (requests : Fetched now s.w (s.acc.sent ++ s.acc.held))
    (stamped : Accounted now s.w (s.acc.sent ++ s.acc.held) s.acc.sent (ledger.outstanding s.mem)
      stamps)
    (received : ∀ idx ∈ s.w.received, ∀ op, s.w.bursts[idx]? = some op → op.departPeTime ≤ now)
    (phase : SendPhase ram now s after) :
    Ascending after.w ∧ Fetched now after.w (after.acc.sent ++ after.acc.held) ∧
      Accounted now after.w (after.acc.sent ++ after.acc.held) after.acc.sent
        (ledger.outstanding after.mem) (stamps ++ Stamped.sendStamps s after) := by
  obtain ⟨memEq, sentEq, ⟨reqQueue, wEq⟩, order, idle⟩ := getMemReq_spec now accounting
  obtain ⟨taken, counting⟩ := stamped.fetch accounting ascending requests received
  have ascends : Ascending (getMemReq now s).w :=
    ascending.of_shapes (by rw [wEq]) (by rw [wEq])
  rw [← sentEq] at taken counting
  cases phase with
  | idle empty =>
      have nothing : Stamped.sendStamps s (getMemReq now s) = [] := by
        rw [Stamped.sendStamps, if_neg (by simp [sentEq])]
      have held : (getMemReq now s).acc.held = (getMemReq now s).acc.inHand := by
        simp [RunAcc.held, RunAcc.inHand, idle empty, empty]
      rw [nothing, List.append_nil, held, memEq]
      exact ⟨ascends, taken, counting⟩
  | @send _ accepted mem success sent outcome =>
      have law := lawful sent
      have inHand : (getMemReq now s).acc.inHand = [(getMemReq now s).acc.req] := by
        rw [RunAcc.inHand, if_pos success]
      rw [inHand] at taken counting
      rw [success, if_pos rfl, ← sentEq] at order
      have outstanding := law.outstanding
      rcases afterSend_cases outcome with ⟨rejected, rfl⟩ | ⟨rfl, isWrite, w, accounted, rfl⟩ |
        ⟨rfl, notWrite, rfl⟩
      · have nothing : Stamped.sendStamps s ⟨(getMemReq now s).w,
            { (getMemReq now s).acc with stall := true }, mem⟩ = [] := by
          rw [Stamped.sendStamps, if_neg (by simp [sentEq])]
        rw [rejected, if_neg (by simp), zero_add] at outstanding
        rw [nothing, List.append_nil]
        show Ascending (getMemReq now s).w ∧ Fetched now _ (_ ++ [(getMemReq now s).acc.req]) ∧
          Accounted now _ (_ ++ [(getMemReq now s).acc.req]) _ (ledger.outstanding mem) stamps
        rw [outstanding]
        exact ⟨ascends, taken, counting⟩
      · let udf : UDF := { (getMemReq now s).acc.req.udf with departMemTime := now }
        let accepts : MemSystem Mem := ⟨(getMemReq now s).w, { (getMemReq now s).acc with
          req := { (getMemReq now s).acc.req with udf }
          stall := false
          sent := (getMemReq now s).acc.sent ++ [(getMemReq now s).acc.req] }, mem⟩
        have accepted : Accounting cfg accepts (udf.origin ::ₘ ledger.origins s.mem) :=
          accounting.accepted success _
        have frame := account_frame accounted
        have one : Stamped.sendStamps s ⟨w, accepts.acc, mem⟩ = [udf] := by
          rw [Stamped.sendStamps, if_pos ⟨by simp [accepts, sentEq], isWrite⟩]
        rw [if_neg (by simp [isWrite]), zero_add] at outstanding
        have counted := counting.sent_mono.account accepted.tallied accounted
          (accepted.account accounted).1
          ⟨(getMemReq now s).acc.req, List.mem_append_right _ (List.mem_singleton_self _), rfl, rfl⟩
          ⟨taken.past _ (List.mem_append_right _ (List.mem_singleton_self _)), Int.le_refl now⟩
          (fun none r membership burst => by
            rcases List.mem_append.mp membership with old | new
            · -- an earlier write of the burst would have been counted
              exfalso
              have balance : ((getMemReq now s).w.counted : Multiset Origin) +
                  (ledger.outstanding s.mem).map (fun entry => entry.1.origin) =
                  ((getMemReq now s).acc.sent.map (·.udf.origin) : List Origin) := by
                rw [wEq, sentEq]
                exact accounting.counted
              obtain ⟨read, earlier, type, origin⟩ := counting.uncounted balance old
                (fun u stamp => burst ▸ none u stamp)
              have burstIdx : read.udf.burstIdx = (getMemReq now s).acc.req.udf.burstIdx :=
                (congrArg Origin.burstIdx origin).trans burst
              obtain ⟨_, op, present, _, typed⟩ :=
                accepted.fetched (List.mem_append_left _ (List.mem_append_left _ earlier))
              obtain ⟨_, op', present', _, typed'⟩ := accepted.fetched
                (List.mem_append_left _ (List.mem_append_right _ (List.mem_singleton_self _)))
              rw [burstIdx] at present
              obtain rfl := Option.some.inj (present.symm.trans present')
              rw [type, ← typed', isWrite] at typed
              cases typed
            · rw [List.mem_singleton.mp new])
          (fun _ v earlier _ => (counting.span v earlier).2)
        rw [one]
        show Ascending w ∧ Fetched now w (_ ++ []) ∧
          Accounted now w (_ ++ []) _ (ledger.outstanding mem) (stamps ++ [udf])
        rw [List.append_nil, outstanding]
        exact ⟨ascends.of_shapes frame.1 frame.2.2.2.1, taken.account accounted, counted⟩
      · have nothing : Stamped.sendStamps s ⟨(getMemReq now s).w, { (getMemReq now s).acc with
            stall := false
            sent := (getMemReq now s).acc.sent ++ [(getMemReq now s).acc.req] }, mem⟩ = [] := by
          rw [Stamped.sendStamps, if_neg (by simp [notWrite])]
        have isRead := (type_of_order accounting.numbered order).resolve_right notWrite
        rw [if_pos ⟨rfl, isRead⟩] at outstanding
        rw [nothing, List.append_nil]
        show Ascending (getMemReq now s).w ∧ Fetched now _ (_ ++ []) ∧
          Accounted now _ (_ ++ []) _ (ledger.outstanding mem) stamps
        rw [List.append_nil, outstanding]
        refine ⟨ascends, taken, { counting.sent_mono with reads := fun entry membership => ?_ }⟩
        rcases Multiset.mem_add.mp membership with new | old
        · rw [Multiset.mem_singleton.mp new]
          exact ⟨_, List.mem_append_right _ (List.mem_singleton_self _), isRead, rfl⟩
        · obtain ⟨r, present, same⟩ := counting.reads entry old
          exact ⟨r, List.mem_append_left _ present, same⟩

end Phases

end GraphAccelerator.Memory
