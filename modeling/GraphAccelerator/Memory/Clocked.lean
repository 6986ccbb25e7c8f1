import GraphAccelerator.Memory.Accounted

/-!
# The stamps of the bursts

What the threads of the transport make of the stamps: `pe` stamps a burst when it leaves
and when it comes back, `run_acc` in between, and no stamp is changed by a later thread.
-/

namespace GraphAccelerator.Memory

open CheckedLoop Relation

section Keeps

variable {Mem : Type} {cfg : BurstCfg} {ledger : Ledger Mem} {s sysAfter : MemSystem Mem}
  {w mid after : MemWrapper} {origins : Multiset Origin}

/-- What `run_acc` leaves alone: the stamps of `pe`, and the departure of a completed
burst. -/
structure Keeps (w after : MemWrapper) : Prop where
  burst : ∀ {idx : Nat} {op : BurstOp}, after.bursts[idx]? = some op →
    ∃ old, w.bursts[idx]? = some old ∧ op.departPeTime = old.departPeTime ∧
      op.arrivePeTime = old.arrivePeTime ∧
      ((∃ i, (i, idx) ∈ w.completed) → op.departMemTime = old.departMemTime)
  completed : ∀ {i : Port} {idx : Nat}, (i, idx) ∈ w.completed → (i, idx) ∈ after.completed

theorem Keeps.of_same (bursts : after.bursts = w.bursts) (completed : after.completed = w.completed) :
    Keeps w after :=
  ⟨fun present => ⟨_, bursts ▸ present, rfl, rfl, fun _ => rfl⟩, fun known => completed ▸ known⟩

theorem Keeps.trans (first : Keeps w mid) (second : Keeps mid after) : Keeps w after where
  burst present := by
    obtain ⟨op, found, departPe, arrivePe, depart⟩ := second.burst present
    obtain ⟨old, known, departPe', arrivePe', depart'⟩ := first.burst found
    refine ⟨old, known, departPe.trans departPe', arrivePe.trans arrivePe', fun complete => ?_⟩
    obtain ⟨i, completed⟩ := complete
    exact (depart ⟨i, first.completed completed⟩).trans (depart' ⟨i, completed⟩)
  completed known := second.completed (first.completed known)

theorem Keeps.account {u : UDF} (tallied : Tallied w) (accounted : w.account u = some after)
    (room : w.processedReqNum u.burstIdx + 1 ≤ w.totalReqNum u.burstIdx) : Keeps w after := by
  obtain ⟨op, counted, present, bursts, departPe, arrivePe, _, _, outcome⟩ :=
    account_stamps accounted
  refine ⟨fun {idx other} found => ?_, fun {i idx} known => ?_⟩
  · rw [bursts] at found
    rcases lookup_set found with ⟨rfl, rfl⟩ | ⟨_, found⟩
    · refine ⟨op, present, departPe, arrivePe, fun ⟨i, completed⟩ => ?_⟩
      have all := ((tallied.completed i _).mp completed).1.2
      omega
    · exact ⟨other, found, rfl, rfl, fun _ => rfl⟩
  · rcases outcome with ⟨_, _, more, _⟩ | ⟨_, _, same, _⟩
    · exact more ▸ List.mem_append_left _ known
    · exact same ▸ known

theorem Keeps.callbacks {memClkCycle : Int} {callbacks : List Request}
    (accounting : Accounting cfg s ((callbacks.map (·.udf.origin) : List Origin) + origins))
    (ran : callbacks.foldlM (MemWrapper.readComplete memClkCycle) s.w = some after) :
    Keeps s.w after := by
  induction callbacks generalizing s with
  | nil =>
      obtain rfl := Option.some.inj ran
      exact .of_same rfl rfl
  | cons r rest inductionHypothesis =>
      rw [List.foldlM_cons, Option.bind_eq_bind, Option.bind_eq_some_iff] at ran
      obtain ⟨next, stepped, ran⟩ := ran
      rw [readComplete_eq] at stepped
      rw [List.map_cons, ← Multiset.cons_coe, Multiset.cons_add] at accounting
      have accounting : Accounting cfg s ((r.stamp memClkCycle).origin ::ₘ
          ((rest.map (·.udf.origin) : List Origin) + origins)) := accounting
      obtain ⟨room, accountingNext⟩ := accounting.account stepped
      exact (Keeps.account accounting.tallied stepped room).trans
        (@inductionHypothesis { s with w := next } accountingNext ran)

theorem Keeps.sendPhase {ram : Ramulator Mem} {now : Int}
    (accounting : Accounting cfg s origins) (phase : SendPhase ram now s sysAfter) :
    Keeps s.w sysAfter.w := by
  obtain ⟨_, _, ⟨reqQueue, wEq⟩, _⟩ := getMemReq_spec now accounting
  have fetched : Keeps s.w (getMemReq now s).w := .of_same (by rw [wEq]) (by rw [wEq])
  cases phase with
  | idle _ => exact fetched
  | @send _ _ mem success _ outcome =>
      rcases afterSend_cases outcome with ⟨_, rfl⟩ | ⟨rfl, _, w, accounted, rfl⟩ | ⟨_, _, rfl⟩
      · exact fetched
      · let udf : UDF := { (getMemReq now s).acc.req.udf with departMemTime := now }
        have accepted : Accounting cfg _ (udf.origin ::ₘ origins) :=
          @Accounting.accepted _ _ _ _ now mem accounting success
            { (getMemReq now s).acc.req with udf }
        exact fetched.trans (.account accepted.tallied accounted (accepted.account accounted).1)
      · exact fetched

end Keeps

section Ports

variable {Mem : Type} {cfg : BurstCfg} {ledger : Ledger Mem} {clocks : Clocks} {now : Nat}
  {due : Thread → Nat} {s after : Transport Mem} {stamps : List UDF} {i : Port}

structure Clocked (cfg : BurstCfg) (ledger : Ledger Mem) (now : Nat) (stamps : List UDF)
    (s : Transport Mem) : Prop where
  accounting : Accounting cfg s.sys (ledger.origins s.sys.mem)
  ascending : Ascending s.sys.w
  requests : Fetched now s.sys.w (s.sys.acc.sent ++ s.sys.acc.held)
  stamped : Accounted now s.sys.w (s.sys.acc.sent ++ s.sys.acc.held) s.sys.acc.sent
    (ledger.outstanding s.sys.mem) stamps
  left : ∀ i, ∀ idx ∈ s.pushed i, idx ∈ s.burstReqQueue i ∨
    ∀ op, s.sys.w.bursts[idx]? = some op → op.departPeTime ≤ now
  delivered : ∀ i, ∀ idx ∈ s.answered i, ∀ op, s.sys.w.bursts[idx]? = some op →
    op.departMemTime ≤ op.arrivePeTime

def SameTimes (w after : MemWrapper) : Prop :=
  ∀ {idx : Nat} {op : BurstOp}, after.bursts[idx]? = some op → ∃ old, w.bursts[idx]? = some old ∧
    op.arriveMemTime = old.arriveMemTime ∧ op.departMemTime = old.departMemTime

theorem sameTimes_set {w after : MemWrapper} {idx : Nat} {op : BurstOp}
    (present : w.bursts[idx]? = some op) (other : BurstOp)
    (bursts : after.bursts = w.bursts.set idx other)
    (arrive : other.arriveMemTime = op.arriveMemTime)
    (depart : other.departMemTime = op.departMemTime) : SameTimes w after := by
  intro k found present'
  rw [bursts] at present'
  rcases lookup_set present' with ⟨rfl, rfl⟩ | ⟨_, same⟩
  · exact ⟨op, present, arrive, depart⟩
  · exact ⟨found, same, rfl, rfl⟩

theorem Accounted.sameTimes {now : Int} {w after : MemWrapper} {fetched sent : List Request}
    {outstanding : Multiset (UDF × Int)}
    (stamped : Accounted now w fetched sent outstanding stamps) (same : SameTimes w after)
    (counted : after.counted = w.counted) (completed : after.completed = w.completed)
    (responses : ∀ i, ∀ idx ∈ after.burstRespQueue i, idx ∈ w.burstRespQueue i)
    (copied : ∀ idx ∈ after.copied, idx ∈ w.copied ∨ ∃ i, (i, idx) ∈ w.completed) :
    Accounted now after fetched sent outstanding stamps where
  counted := counted ▸ stamped.counted
  source := stamped.source
  reads := stamped.reads
  span := stamped.span
  arrive idx op present some := by
    obtain ⟨old, found, arrive, _⟩ := same present
    rw [arrive]
    exact stamped.arrive idx old found some
  depart i idx op complete present := by
    obtain ⟨old, found, _, depart⟩ := same present
    rw [depart]
    exact stamped.depart i idx old (completed ▸ complete) found
  responses i idx response := completed ▸ stamped.responses i idx (responses i idx response)
  copied idx membership := by
    rw [completed]
    exact (copied idx membership).elim (stamped.copied idx) id

theorem Transport.PortOrder.not_queued {period : Nat}
    (order : Transport.PortOrder period now due s i) {idx : Nat} (pushed : idx ∈ s.pushed i)
    (received : idx ∈ s.sys.w.received) : idx ∉ s.burstReqQueue i := by
  have known := order.received idx pushed received
  have distinct := order.distinct
  rw [order.order, List.append_assoc, List.nodup_append] at distinct
  exact fun queued => distinct.2.2 idx known idx (List.mem_append_right _ queued) rfl

theorem Clocked.sendMemReqPort {period : Nat} (clocked : Clocked cfg ledger now stamps s)
    (order : Transport.PortOrder period now due s i) (ran : s.sendMemReqPort now i = some after) :
    Clocked cfg ledger now stamps after := by
  unfold Transport.sendMemReqPort at ran
  cases queue : s.burstReqQueue i with
  | nil =>
      rw [queue] at ran
      obtain rfl := Option.some.inj ran
      exact ⟨clocked.accounting, clocked.ascending, clocked.requests, clocked.stamped, clocked.left,
        clocked.delivered⟩
  | cons burstIdx rest =>
      rw [queue, Option.bind_eq_bind, Option.bind_eq_some_iff] at ran
      obtain ⟨op, present, ran⟩ := ran
      obtain rfl := Option.some.inj ran
      have pushed : burstIdx ∈ s.pushed i := by
        rw [order.order, queue]
        simp
      have shapes := shapes_set present (show { op with departPeTime := (now : Int) }.shape =
        op.shape from rfl)
      refine ⟨clocked.accounting.of_shapes shapes ⟨_, _, _, _, _, rfl⟩,
        clocked.ascending.of_shapes shapes rfl, ⟨clocked.requests.past, clocked.requests.monotone,
          fun r membership other found => ?_⟩,
        clocked.stamped.sameTimes (sameTimes_set present { op with departPeTime := now } rfl rfl rfl) rfl
          rfl (fun _ _ => id)
          fun _ => .inl, fun j idx known => ?_, fun j idx known other found => ?_⟩
      · rcases lookup_set found with ⟨same, _⟩ | ⟨_, found⟩
        · have received := (clocked.accounting.fetched membership).1
          rw [same] at received
          exact absurd (by rw [queue]; exact List.mem_cons_self) (order.not_queued pushed received)
        · exact clocked.requests.left r membership other found
      · rcases clocked.left j idx known with queued | sent
        · by_cases here : j = i
          · subst here
            rw [queue] at queued
            rcases List.mem_cons.mp queued with rfl | later
            · refine .inr fun other found => ?_
              rcases lookup_set found with ⟨_, rfl⟩ | ⟨different, _⟩
              · exact Int.le_refl _
              · exact absurd rfl different
            · exact .inl (by simpa using later)
          · exact .inl (by simpa [here] using queued)
        · refine .inr fun other found => ?_
          rcases lookup_set found with ⟨_, rfl⟩ | ⟨_, found⟩
          · exact Int.le_refl _
          · exact sent other found
      · rcases lookup_set found with ⟨rfl, rfl⟩ | ⟨_, found⟩
        · exact clocked.delivered j idx known op present
        · exact clocked.delivered j idx known other found

theorem Transport.PortOrder.current_copied
    (order : Transport.PortOrder clocks.peClkCycle now due s i)
    (aligned : ∀ thread, Kernel.Aligned (clocks.period thread) now (due thread))
    (running : due .getMemResp = now) {burstIdx : Nat}
    (current : (s.burstResp i).current = some burstIdx) : burstIdx ∈ s.sys.w.copied := by
  have reading : Kernel.Aligned clocks.peClkCycle now now := running ▸ aligned .getMemResp
  have writing : Kernel.Aligned clocks.peClkCycle now (due .sendBurstResp) :=
    aligned .sendBurstResp
  have underWay : burstIdx ∈ s.respUnderWay due i := by
    rw [Transport.respUnderWay, running,
      Kernel.Signal.unread_read clocks.pePositive writing reading order.respSettled, current]
    simp
  refine (order.copied burstIdx ?_).mpr (List.mem_append_right _ underWay)
  rw [order.order]
  simp [underWay]

theorem Accounted.departed {now : Int} {w : MemWrapper} {fetched sent : List Request}
    {outstanding : Multiset (UDF × Int)}
    (stamped : Accounted now w fetched sent outstanding stamps) {idx : Nat}
    (copied : idx ∈ w.copied) {op : BurstOp} (present : w.bursts[idx]? = some op) :
    op.departMemTime ≤ now := by
  obtain ⟨i, completed⟩ := stamped.copied idx copied
  obtain ⟨⟨u, membership, _, time⟩, _⟩ := stamped.depart i idx op completed present
  exact time ▸ (stamped.span u membership).2

theorem Clocked.getMemRespPort (clocked : Clocked cfg ledger now stamps s)
    (aligned : ∀ thread, Kernel.Aligned (clocks.period thread) now (due thread))
    (running : due .getMemResp = now) (order : Transport.PortOrder clocks.peClkCycle now due s i)
    (ran : s.getMemRespPort now i = some after) : Clocked cfg ledger now stamps after := by
  unfold Transport.getMemRespPort at ran
  cases current : (s.burstResp i).current with
  | none =>
      rw [current] at ran
      obtain rfl := Option.some.inj ran
      exact clocked
  | some burstIdx =>
      rw [current, Option.bind_eq_bind, Option.bind_eq_some_iff] at ran
      obtain ⟨op, present, ran⟩ := ran
      obtain rfl := Option.some.inj ran
      have departed := clocked.stamped.departed (order.current_copied aligned running current)
        present
      have shapes := shapes_set present (show { op with arrivePeTime := (now : Int) }.shape =
        op.shape from rfl)
      refine ⟨clocked.accounting.of_shapes shapes ⟨_, _, _, _, _, rfl⟩,
        clocked.ascending.of_shapes shapes rfl, ⟨clocked.requests.past, clocked.requests.monotone,
          fun r membership other found => ?_⟩,
        clocked.stamped.sameTimes (sameTimes_set present { op with arrivePeTime := now } rfl rfl
          rfl) rfl rfl (fun _ _ => id) fun _ => .inl, fun j idx known => ?_,
        fun j idx known other found => ?_⟩
      · rcases lookup_set found with ⟨same, rfl⟩ | ⟨_, found⟩
        · exact clocked.requests.left r membership op (same ▸ present)
        · exact clocked.requests.left r membership other found
      · refine (clocked.left j idx known).imp_right fun sent other found => ?_
        rcases lookup_set found with ⟨rfl, rfl⟩ | ⟨_, found⟩
        · exact sent op present
        · exact sent other found
      · rcases lookup_set found with ⟨rfl, rfl⟩ | ⟨different, found⟩
        · exact departed
        · refine clocked.delivered j idx ?_ other found
          by_cases here : j = i
          · subst here
            simpa [different] using known
          · simpa [here] using known

theorem Transport.PortOrder.current_fresh
    (order : Transport.PortOrder clocks.peClkCycle now due s i)
    (aligned : ∀ thread, Kernel.Aligned (clocks.period thread) now (due thread))
    (running : due .getBurstReq = now) {burstIdx : Nat}
    (current : (s.burstReq i).current = some burstIdx) : burstIdx ∉ s.sys.w.received := by
  have reading : Kernel.Aligned clocks.peClkCycle now now := running ▸ aligned .getBurstReq
  have writing : Kernel.Aligned clocks.peClkCycle now (due .sendMemReq) := aligned .sendMemReq
  have underWay : burstIdx ∈ s.reqUnderWay due i := by
    rw [Transport.reqUnderWay, running,
      Kernel.Signal.unread_read clocks.pePositive writing reading order.reqSettled, current]
    simp
  have pushed : burstIdx ∈ s.pushed i := by
    rw [order.order]
    simp [underWay]
  have distinct := order.distinct
  rw [order.order, List.append_assoc, List.nodup_append] at distinct
  exact fun received => distinct.2.2 burstIdx (order.received burstIdx pushed received) burstIdx
    (List.mem_append_left _ underWay) rfl

theorem Clocked.getBurstReqPort {w : MemWrapper} {burstReq : Port → Option Nat}
    (clocked : Clocked cfg ledger now stamps s)
    (fresh : ∀ idx, burstReq i = some idx → idx ∉ s.sys.w.received)
    (ran : s.sys.w.getBurstReqPort cfg burstReq i = some w) :
    Clocked cfg ledger now stamps { s with sys.w := w } := by
  have accounting := (clocked.accounting.getBurstReqPort fresh ran).1
  unfold MemWrapper.getBurstReqPort at ran
  cases arrives : burstReq i with
  | none =>
      rw [arrives] at ran
      obtain rfl := Option.some.inj ran
      exact clocked
  | some burstIdx =>
      rw [arrives] at ran
      simp only [Option.bind_eq_bind, Option.bind_eq_some_iff] at ran
      obtain ⟨op, present, reqs, converts, ran⟩ := ran
      obtain rfl := Option.some.inj ran
      refine ⟨accounting, ⟨clocked.ascending.reqVec, ?_⟩, ⟨clocked.requests.past,
        clocked.requests.monotone, clocked.requests.left⟩,
        clocked.stamped.sameTimes (fun found => ⟨_, found, rfl, rfl⟩) rfl rfl (fun _ _ => id)
          fun _ => .inl, clocked.left, clocked.delivered⟩
      obtain ⟨index, wellFormed, _⟩ := clocked.accounting.numbered.burst present
      obtain ⟨reqs', convertedEq, _, reqIdxs, _, made⟩ := convertToReq_spec wellFormed
      obtain rfl : reqs = reqs' := by
        rw [converts, Option.some.injEq] at convertedEq
        exact convertedEq
      show (s.sys.w.converted ++ reqs).Pairwise _
      rw [List.pairwise_append]
      refine ⟨clocked.ascending.converted, ?_, fun r old later new same => ?_⟩
      · have increasing := clocked.ascending.reqVec present
        rw [← reqIdxs, List.pairwise_map] at increasing
        refine increasing.imp ?_
        exact fun less _ => less
      · have known := (clocked.accounting.numbered.drawn r old).1
        rw [same, (made later new).2.1, index] at known
        exact absurd known (fresh burstIdx arrives)

theorem Clocked.sendBurstRespPort (clocked : Clocked cfg ledger now stamps s)
    (ran : s.sendBurstRespPort now i = some after) : Clocked cfg ledger now stamps after := by
  unfold Transport.sendBurstRespPort at ran
  rw [Option.bind_eq_bind, Option.bind_eq_some_iff] at ran
  obtain ⟨⟨w, written⟩, answered, ran⟩ := ran
  have accounting := clocked.accounting.sendBurstResp answered
  rcases sendBurstRespPort_cases answered with ⟨rfl, rfl⟩ |
    ⟨idx, rest, op, queue, completed, present, _, answer, rfl⟩ |
    ⟨idx, rest, op, queue, completed, present, notDue, rfl, rfl⟩
  · obtain rfl := Option.some.inj ran
    exact ⟨accounting, clocked.ascending, clocked.requests, clocked.stamped, clocked.left,
      clocked.delivered⟩
  · obtain rfl := Option.some.inj ran
    obtain ⟨copied, ramData, shape, depart, outcome, rfl⟩ := answer_cases answer
    have times : copied.arriveMemTime = op.arriveMemTime ∧ copied.departPeTime = op.departPeTime ∧
        copied.arrivePeTime = op.arrivePeTime := by
      rcases outcome with ⟨_, rfl, _⟩ | ⟨_, reads, _⟩
      · exact ⟨rfl, rfl, rfl⟩
      · obtain ⟨bytes, rfl⟩ := ramToReq_eq reads
        exact ⟨rfl, rfl, rfl⟩
    refine ⟨accounting, clocked.ascending.of_shapes (shapes_set present shape) rfl,
      ⟨clocked.requests.past, clocked.requests.monotone, fun r membership other found => ?_⟩,
      clocked.stamped.sameTimes (sameTimes_set present copied rfl times.1 depart) rfl rfl ?_ ?_,
      fun j k known => ?_, fun j k known other found => ?_⟩
    · rcases lookup_set found with ⟨same, rfl⟩ | ⟨_, found⟩
      · rw [times.2.1]
        exact clocked.requests.left r membership op (same ▸ present)
      · exact clocked.requests.left r membership other found
    · intro j k response
      by_cases here : j = i
      · subst here
        exact List.mem_of_mem_erase (by simpa using response)
      · simpa [here] using response
    · intro k membership
      rcases List.mem_append.mp membership with old | new
      · exact .inl old
      · exact .inr ⟨i, List.mem_singleton.mp new ▸ clocked.stamped.responses i idx completed⟩
    · refine (clocked.left j k known).imp_right fun sent other found => ?_
      rcases lookup_set found with ⟨rfl, rfl⟩ | ⟨_, found⟩
      · rw [times.2.1]
        exact sent op present
      · exact sent other found
    · rcases lookup_set found with ⟨rfl, rfl⟩ | ⟨_, found⟩
      · rw [depart, times.2.2]
        exact clocked.delivered j k known op present
      · exact clocked.delivered j k known other found
  · obtain rfl := Option.some.inj ran
    exact ⟨accounting, clocked.ascending, clocked.requests, clocked.stamped, clocked.left,
      clocked.delivered⟩

theorem Clocked.use (clocked : Clocked cfg ledger now stamps s)
    (onPort : ∀ i, ∀ idx ∈ s.pushed i, s.sys.w.OnPort i idx)
    (answered : ∀ i, ∀ idx ∈ s.answered i, idx ∈ s.pushed i)
    (used : Transport.Use cfg now s after) : Clocked cfg ledger now stamps after := by
  cases used with
  | @create op created reqIdx type noReqs noAddrs index made =>
      have accounting := clocked.accounting.create type noReqs noAddrs index made
      obtain ⟨addrVec, madeEq, _⟩ := newBurst_total cfg op noReqs noAddrs s.sys.w.reqIdx
      rw [made, Option.some.injEq, Prod.mk.injEq] at madeEq
      -- a burst that is present is an old one
      have old : ∀ {idx : Nat} {found other : BurstOp},
          (s.sys.w.bursts ++ [created])[idx]? = some found → s.sys.w.bursts[idx]? = some other →
          s.sys.w.bursts[idx]? = some found := by
        intro idx found other present known
        rwa [List.getElem?_append_left (List.getElem?_eq_some_iff.mp known).1] at present
      have stamp : ∀ u ∈ stamps, ∃ other, s.sys.w.bursts[u.burstIdx]? = some other := by
        intro u membership
        obtain ⟨r, sent, origin, _⟩ := clocked.stamped.source u membership
        obtain ⟨_, other, present, _⟩ :=
          clocked.accounting.fetched (List.mem_append_left _ sent)
        have same : r.udf.burstIdx = u.burstIdx := congrArg Origin.burstIdx origin
        exact ⟨other, same ▸ present⟩
      refine ⟨accounting, ⟨fun {idx other} present => ?_, clocked.ascending.converted⟩,
        ⟨clocked.requests.past, clocked.requests.monotone, fun r membership other found => ?_⟩,
        { clocked.stamped with arrive := ?_, depart := ?_ },
        fun i idx known => (clocked.left i idx known).imp_right fun sent other found => ?_,
        fun i idx known other found => ?_⟩
      · rcases Nat.lt_or_ge idx s.sys.w.bursts.length with earlier | new
        · rw [List.getElem?_append_left earlier] at present
          exact clocked.ascending.reqVec present
        · rw [List.getElem?_append_right new, List.getElem?_singleton] at present
          split at present
          · obtain rfl := Option.some.inj present
            rw [madeEq.1]
            exact List.pairwise_lt_range'
          · cases present
      · obtain ⟨_, known, present, _⟩ := clocked.accounting.fetched membership
        exact clocked.requests.left r membership other (old found present)
      · rintro idx other found ⟨u, membership, same⟩
        obtain ⟨known, present⟩ := stamp u membership
        exact clocked.stamped.arrive idx other (old found (same ▸ present)) ⟨u, membership, same⟩
      · intro i idx other completed found
        obtain ⟨known, present, _⟩ :=
          ((clocked.accounting.tallied.completed i idx).mp completed).2
        exact clocked.stamped.depart i idx other completed (old found present)
      · obtain ⟨_, present, _⟩ := onPort i idx known
        exact sent other (old found present)
      · obtain ⟨_, present, _⟩ := onPort i idx (answered i idx known)
        exact clocked.delivered i idx known other (old found present)
  | @push burstIdx op data present fresh =>
      have shapes := shapes_set present (show { op with data }.shape = op.shape from rfl)
      refine ⟨clocked.accounting.of_shapes shapes ⟨_, _, _, _, _, rfl⟩,
        clocked.ascending.of_shapes shapes rfl, ⟨clocked.requests.past, clocked.requests.monotone,
          fun r membership other found => ?_⟩,
        clocked.stamped.sameTimes (sameTimes_set present { op with data } rfl rfl rfl) rfl rfl
          (fun _ _ => id) fun _ => .inl, fun i idx known => ?_, fun i idx known other found => ?_⟩
      · rcases lookup_set found with ⟨same, rfl⟩ | ⟨_, found⟩
        · exact clocked.requests.left r membership op (same ▸ present)
        · exact clocked.requests.left r membership other found
      · have earlier : idx ∈ s.pushed i → idx ∈ s.burstReqQueue i ∨
            ∀ other, (s.sys.w.bursts.set burstIdx { op with data })[idx]? = some other →
              other.departPeTime ≤ now := fun known =>
          (clocked.left i idx known).imp_right fun sent other found => by
            rcases lookup_set found with ⟨rfl, rfl⟩ | ⟨_, found⟩
            · exact sent op present
            · exact sent other found
        by_cases here : i = op.portIdx
        · subst here
          simp only [Function.update_self, List.mem_append, List.mem_singleton] at known ⊢
          rcases known with known | rfl
          · exact (earlier known).imp_left .inl
          · exact .inl (.inr rfl)
        · simp only [Function.update_of_ne here] at known ⊢
          exact earlier known
      · rcases lookup_set found with ⟨rfl, rfl⟩ | ⟨_, found⟩
        · exact clocked.delivered i idx known op present
        · exact clocked.delivered i idx known other found
  | consume =>
      exact ⟨clocked.accounting, clocked.ascending, clocked.requests, clocked.stamped, clocked.left,
        clocked.delivered⟩

theorem Clocked.advance (clocked : Clocked cfg ledger now stamps s) :
    Clocked cfg ledger (now + 1) stamps s.settle where
  accounting := clocked.accounting
  ascending := clocked.ascending
  requests := ⟨fun r membership => by
    have := clocked.requests.past r membership
    push_cast
    omega, clocked.requests.monotone, clocked.requests.left⟩
  stamped := { clocked.stamped with
    span := fun u membership => by
      have := clocked.stamped.span u membership
      push_cast
      omega }
  left i idx known := (clocked.left i idx known).imp_right fun sent op found => by
    have := sent op found
    push_cast
    omega
  delivered := clocked.delivered

/-- Whatever `run_acc` does to the wrapper, it has nothing to do with `pe`. -/
theorem Clocked.of_keeps {sys : MemSystem Mem} {started : Bool} {more : List UDF}
    (clocked : Clocked cfg ledger now stamps s)
    (completed : ∀ i, ∀ idx ∈ s.answered i, ∃ j, (j, idx) ∈ s.sys.w.completed)
    (keeps : Keeps s.sys.w sys.w) (accounting : Accounting cfg sys (ledger.origins sys.mem))
    (ascending : Ascending sys.w) (requests : Fetched now sys.w (sys.acc.sent ++ sys.acc.held))
    (stamped : Accounted now sys.w (sys.acc.sent ++ sys.acc.held) sys.acc.sent
      (ledger.outstanding sys.mem) more) :
    Clocked cfg ledger now more { s with sys, started } where
  accounting := accounting
  ascending := ascending
  requests := requests
  stamped := stamped
  left i idx known := (clocked.left i idx known).imp_right fun sent op found => by
    obtain ⟨old, present, departPe, _⟩ := keeps.burst found
    rw [departPe]
    exact sent old present
  delivered i idx known op found := by
    obtain ⟨old, present, _, arrivePe, depart⟩ := keeps.burst found
    rw [arrivePe, depart (completed i idx known)]
    exact clocked.delivered i idx known old present

section RunAcc

variable {ram : Ramulator Mem}

theorem Clocked.received (clocked : Clocked cfg ledger now stamps s)
    (carried : Transport.Carried clocks ledger ⟨now, due, s⟩) :
    ∀ idx ∈ s.sys.w.received, ∀ op, s.sys.w.bursts[idx]? = some op → op.departPeTime ≤ now := by
  intro idx known op present
  obtain ⟨i, pushed⟩ := carried.exactly.drawn idx known
  have order := carried.ports i
  exact (clocked.left i idx pushed).resolve_left (order.not_queued pushed known) op present

theorem Clocked.completed (clocked : Clocked cfg ledger now stamps s)
    (carried : Transport.Carried clocks ledger ⟨now, due, s⟩) :
    ∀ i, ∀ idx ∈ s.answered i, ∃ j, (j, idx) ∈ s.sys.w.completed := by
  intro i idx known
  have order := carried.ports i
  refine clocked.stamped.copied idx ((order.copied idx ?_).mpr (List.mem_append_left _ known))
  rw [order.order]
  simp [known]

/-- The memory calls a read back with a departure that is not before its arrival. -/
def Ramulator.Forward (ram : Ramulator Mem) : Prop :=
  ∀ {before callbacks after}, ram.tick before callbacks after →
    ∀ r ∈ callbacks, r.arrive ≤ r.depart

theorem Clocked.start {sys : MemSystem Mem} (serves : ram.Serves ledger)
    (clocked : Clocked cfg ledger now stamps s)
    (carried : Transport.Carried clocks ledger ⟨now, due, s⟩)
    (phase : SendPhase ram now s.sys sys) :
    Clocked cfg ledger now (stamps ++ Stamped.sendStamps s.sys sys)
      { s with sys, started := true } := by
  obtain ⟨ascending, requests, stamped⟩ := clocked.stamped.sendPhase serves.send clocked.accounting
    clocked.ascending clocked.requests (clocked.received carried) phase
  exact clocked.of_keeps (clocked.completed carried) (.sendPhase clocked.accounting phase)
    (clocked.accounting.sendPhase serves.send phase) ascending requests stamped

theorem Clocked.runAcc {callbacks : List Request} {mem : Mem} {w : MemWrapper}
    {sys : MemSystem Mem} (serves : ram.Serves ledger) (forward : ram.Forward)
    (clocked : Clocked cfg ledger now stamps s)
    (carried : Transport.Carried clocks ledger ⟨now, due, s⟩) (running : due .runAcc = now)
    (started : s.started = true) (ticked : ram.tick s.sys.mem callbacks mem)
    (orderly : Stamped.AllOrderly clocks.memClkCycle s.sys.w stamps callbacks)
    (ran : callbacks.foldlM (MemWrapper.readComplete clocks.memClkCycle) s.sys.w = some w)
    (phase : SendPhase ram now { s.sys with w, mem } sys) :
    Clocked cfg ledger now (stamps ++ callbacks.map (Request.stamp clocks.memClkCycle) ++
      Stamped.sendStamps { s.sys with w, mem } sys) { s with sys } := by
  have law := serves.tick ticked
  have clock := carried.clock
  dsimp only at clock
  rw [if_pos started, running] at clock
  have balance : ledger.origins s.sys.mem =
      (callbacks.map (·.udf.origin) : List Origin) + ledger.origins mem := by
    rw [Ledger.origins, Ledger.origins, law.outstanding, Multiset.map_add, Multiset.map_coe,
      List.map_map]
    rfl
  have accounting := clocked.accounting
  rw [balance] at accounting
  have stamped := clocked.stamped
  rw [law.outstanding] at stamped
  obtain ⟨ascending, requests, counted⟩ := stamped.callbacks accounting clocked.ascending
    clocked.requests (fun r called => ⟨by
      have ahead := forward ticked r called
      have : 0 ≤ (clocks.memClkCycle : Int) * (r.depart - r.arrive) :=
        Int.mul_nonneg (by omega) (by omega)
      simp only [Request.stamp]
      omega,
      carried.exactly.timely.callback law (by rw [clock]; push_cast; rfl) called⟩)
    rfl rfl orderly ran
  have keeps : Keeps s.sys.w w := .callbacks accounting ran
  have next := clocked.accounting.tickPhase law ran
  have received : ∀ idx ∈ w.received, ∀ op, w.bursts[idx]? = some op → op.departPeTime ≤ now := by
    intro idx known op present
    have same : w.received = s.sys.w.received :=
      (Transport.tickPhase_same (TickPhase.tick ticked ran)).received
    obtain ⟨old, found, departPe, _⟩ := keeps.burst present
    rw [departPe]
    exact clocked.received carried idx (same ▸ known) old found
  obtain ⟨ascendingNext, requestsNext, countedNext⟩ := Accounted.sendPhase serves.send next ascending
    requests counted received phase
  have final := @Clocked.of_keeps _ cfg ledger now s stamps sys s.started _ clocked
    (clocked.completed carried) (keeps.trans (.sendPhase next phase))
    (next.sendPhase serves.send phase) ascendingNext requestsNext countedNext
  exact final

end RunAcc

end Ports

end GraphAccelerator.Memory
