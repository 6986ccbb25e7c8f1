import GraphAccelerator.Memory.Transport

/-!
# The ports of the transport

On every port the bursts that were pushed are, in this order, the answered ones, those in
the response signal, those in the wrapper, those in the request signal and those still
queued.  Each of the four threads keeps this order on the port that it works on and does
not touch the others.
-/

namespace GraphAccelerator.Memory

open CheckedLoop Relation

namespace Transport

variable {Mem : Type} {cfg : BurstCfg} {clocks : Clocks} {now : Nat} {due : Thread → Nat}
variable {s after : Transport Mem}
variable {i j : Port}

/-- The bursts of one port, from the newest answer back to the oldest request. -/
structure PortOrder (period now : Nat) (due : Thread → Nat) (s : Transport Mem) (i : Port) :
    Prop where
  order : s.pushed i = s.answered i ++ s.respUnderWay due i ++ s.sys.w.burstReqQueue i ++
    s.reqUnderWay due i ++ s.burstReqQueue i
  reqSettled : (s.burstReq i).Settled period now (due .sendMemReq)
  respSettled : (s.burstResp i).Settled period now (due .sendBurstResp)
  distinct : (s.pushed i).Nodup
  onPort : ∀ idx ∈ s.pushed i, s.sys.w.OnPort i idx
  received : ∀ idx ∈ s.pushed i, idx ∈ s.sys.w.received →
    idx ∈ s.answered i ++ s.respUnderWay due i ++ s.sys.w.burstReqQueue i
  copied : ∀ idx ∈ s.pushed i,
    idx ∈ s.sys.w.copied ↔ idx ∈ s.answered i ++ s.respUnderWay due i

structure SamePort (s after : Transport Mem) (i : Port) : Prop where
  pushed : after.pushed i = s.pushed i
  answered : after.answered i = s.answered i
  burstReq : after.burstReq i = s.burstReq i
  burstResp : after.burstResp i = s.burstResp i
  burstReqQueue : after.burstReqQueue i = s.burstReqQueue i
  arrived : after.sys.w.burstReqQueue i = s.sys.w.burstReqQueue i
  onPort : ∀ idx, s.sys.w.OnPort i idx → after.sys.w.OnPort i idx
  received : ∀ idx ∈ s.pushed i, idx ∈ after.sys.w.received → idx ∈ s.sys.w.received
  copied : ∀ idx ∈ s.pushed i, idx ∈ after.sys.w.copied ↔ idx ∈ s.sys.w.copied

theorem PortOrder.frame {period : Nat} (order : PortOrder period now due s i)
    (same : SamePort s after i) : PortOrder period now due after i where
  order := by
    rw [same.pushed, same.answered, respUnderWay, same.burstResp, same.arrived, reqUnderWay,
      same.burstReq, same.burstReqQueue]
    exact order.order
  reqSettled := same.burstReq ▸ order.reqSettled
  respSettled := same.burstResp ▸ order.respSettled
  distinct := same.pushed ▸ order.distinct
  onPort := fun idx membership =>
    same.onPort idx (order.onPort idx (same.pushed ▸ membership))
  received := by
    intro idx membership received
    rw [same.pushed] at membership
    rw [same.answered, respUnderWay, same.burstResp, same.arrived]
    exact order.received idx membership (same.received idx membership received)
  copied := by
    intro idx membership
    rw [same.pushed] at membership
    rw [same.answered, respUnderWay, same.burstResp, same.copied idx membership]
    exact order.copied idx membership

theorem PortOrder.of_due {period : Nat} (order : PortOrder period now due s i)
    {other : Thread → Nat} (same : ∀ thread, thread ≠ .runAcc → other thread = due thread) :
    PortOrder period now other s i where
  order := by
    rw [respUnderWay, reqUnderWay, same _ (by simp), same _ (by simp), same _ (by simp),
      same _ (by simp)]
    exact order.order
  reqSettled := same .sendMemReq (by simp) ▸ order.reqSettled
  respSettled := same .sendBurstResp (by simp) ▸ order.respSettled
  distinct := order.distinct
  onPort := order.onPort
  received := by
    rw [respUnderWay, same _ (by simp), same _ (by simp)]
    exact order.received
  copied := by
    rw [respUnderWay, same _ (by simp), same _ (by simp)]
    exact order.copied

theorem onPort_set {w after : MemWrapper} {idx : Nat} {op : BurstOp}
    (present : w.bursts[idx]? = some op) (other : BurstOp)
    (bursts : after.bursts = w.bursts.set idx other)
    (shape : other.shape = op.shape) (burstIdx : Nat) :
    after.OnPort i burstIdx ↔ w.OnPort i burstIdx :=
  onPort_iff (by rw [bursts]; exact shapes_set present shape) i burstIdx

section Ports

theorem PortOrder.sendMemReq (order : PortOrder clocks.peClkCycle now due s i)
    (aligned : ∀ thread, Kernel.Aligned (clocks.period thread) now (due thread))
    (running : due .sendMemReq = now) (ran : s.sendMemReqPort now i = some after) :
    PortOrder clocks.peClkCycle now
      (Function.update due .sendMemReq (now + clocks.peClkCycle)) after i := by
  have writing : Kernel.Aligned clocks.peClkCycle now now := running ▸ aligned .sendMemReq
  have reading : Kernel.Aligned clocks.peClkCycle now (due .getBurstReq) := aligned .getBurstReq
  have written := fun value => Kernel.Signal.unread_write clocks.pePositive reading writing
    (running ▸ order.reqSettled) value
  have placed := order.order
  rw [reqUnderWay, running] at placed
  unfold sendMemReqPort at ran
  cases queue : s.burstReqQueue i with
  | nil =>
      rw [queue] at ran placed
      obtain rfl := Option.some.inj ran
      exact {
        order := by
          simpa [respUnderWay, reqUnderWay, written, queue] using placed
        reqSettled := by simpa using Kernel.Signal.settled_write none
        respSettled := by simpa using order.respSettled
        distinct := order.distinct
        onPort := order.onPort
        received := by simpa [respUnderWay] using order.received
        copied := by simpa [respUnderWay] using order.copied }
  | cons burstIdx rest =>
      rw [queue] at ran placed
      rw [Option.bind_eq_bind, Option.bind_eq_some_iff] at ran
      obtain ⟨op, present, ran⟩ := ran
      obtain rfl := Option.some.inj ran
      exact {
        order := by
          simpa [respUnderWay, reqUnderWay, written, queue] using placed
        reqSettled := by simpa using Kernel.Signal.settled_write (some burstIdx)
        respSettled := by simpa using order.respSettled
        distinct := order.distinct
        onPort := fun idx membership =>
          (onPort_set present { op with departPeTime := now } rfl rfl idx).mpr
            (order.onPort idx membership)
        received := by simpa [respUnderWay] using order.received
        copied := by simpa [respUnderWay] using order.copied }

theorem PortOrder.getBurstReq (order : PortOrder clocks.peClkCycle now due s i)
    (aligned : ∀ thread, Kernel.Aligned (clocks.period thread) now (due thread))
    (running : due .getBurstReq = now) {w : MemWrapper} {burstReq : Port → Option Nat}
    (value : burstReq i = (s.burstReq i).current)
    (ran : s.sys.w.getBurstReqPort cfg burstReq i = some w) :
    PortOrder clocks.peClkCycle now (Function.update due .getBurstReq (now + clocks.peClkCycle))
      { s with sys.w := w } i := by
  have reading : Kernel.Aligned clocks.peClkCycle now now := running ▸ aligned .getBurstReq
  have writing : Kernel.Aligned clocks.peClkCycle now (due .sendMemReq) := aligned .sendMemReq
  have taken := Kernel.Signal.unread_read clocks.pePositive writing reading order.reqSettled
  have placed := order.order
  rw [reqUnderWay, running, taken] at placed
  unfold MemWrapper.getBurstReqPort at ran
  rw [value] at ran
  cases current : (s.burstReq i).current with
  | none =>
      rw [current] at ran placed
      obtain rfl := Option.some.inj ran
      exact {
        order := by simpa [respUnderWay, reqUnderWay] using placed
        reqSettled := by simpa using order.reqSettled
        respSettled := by simpa using order.respSettled
        distinct := order.distinct
        onPort := order.onPort
        received := by simpa [respUnderWay] using order.received
        copied := by simpa [respUnderWay] using order.copied }
  | some burstIdx =>
      rw [current] at ran placed
      simp only [Option.bind_eq_bind, Option.bind_eq_some_iff] at ran
      obtain ⟨op, present, reqs, converted, ran⟩ := ran
      obtain rfl := Option.some.inj ran
      exact {
        order := by simpa [respUnderWay, reqUnderWay] using placed
        reqSettled := by simpa using order.reqSettled
        respSettled := by simpa using order.respSettled
        distinct := order.distinct
        onPort := order.onPort
        received := by
          intro idx membership received
          rcases List.mem_append.mp received with earlier | new
          · have known := order.received idx membership earlier
            simp only [respUnderWay, Function.update_self, List.mem_append] at known ⊢
            simp only [ne_eq, reduceCtorEq, not_false_eq_true, Function.update_of_ne]
            rcases known with known | known
            · exact .inl known
            · exact .inr (.inl known)
          · simp [List.mem_singleton.mp new]
        copied := by simpa [respUnderWay] using order.copied }

theorem PortOrder.not_copied {period : Nat} (order : PortOrder period now due s i) {idx : Nat}
    (waits : idx ∈ s.sys.w.burstReqQueue i) : idx ∉ s.sys.w.copied := by
  have distinct := order.distinct
  rw [order.order, List.append_assoc, List.append_assoc, List.nodup_append] at distinct
  rw [order.copied idx (by rw [order.order]; simp [waits])]
  exact fun earlier => distinct.2.2 idx earlier idx (by simp [waits]) rfl

/-- `sendBurstResp` moves the head of the wrapper's queue to the signal. -/
theorem PortOrder.sendBurstResp (order : PortOrder clocks.peClkCycle now due s i)
    (aligned : ∀ thread, Kernel.Aligned (clocks.period thread) now (due thread))
    (running : due .sendBurstResp = now) (once : s.sys.w.copied.Nodup)
    (ready : s.sys.w.Ready now) (ran : s.sendBurstRespPort now i = some after) :
    PortOrder clocks.peClkCycle now
        (Function.update due .sendBurstResp (now + clocks.peClkCycle)) after i ∧
      after.sys.w.copied.Nodup ∧ after.sys.w.Ready now ∧ after.unwritten = s.unwritten := by
  have writing : Kernel.Aligned clocks.peClkCycle now now := running ▸ aligned .sendBurstResp
  have reading : Kernel.Aligned clocks.peClkCycle now (due .getMemResp) := aligned .getMemResp
  have written := fun value => Kernel.Signal.unread_write clocks.pePositive reading writing
    (running ▸ order.respSettled) value
  have placed := order.order
  have received := order.received
  have copied := order.copied
  simp only [respUnderWay, running] at placed received copied
  unfold sendBurstRespPort at ran
  rw [Option.bind_eq_bind, Option.bind_eq_some_iff] at ran
  obtain ⟨⟨w, written'⟩, answered, ran⟩ := ran
  have nextReady := ready.sendBurstRespPort answered
  rcases sendBurstRespPort_cases answered with ⟨rfl, rfl⟩ |
    ⟨idx, rest, op, queue, completed, present, _, answer, rfl⟩ |
    ⟨idx, rest, op, queue, completed, present, notDue, rfl, rfl⟩
  · obtain rfl := Option.some.inj ran
    exact ⟨{
      order := by simpa [respUnderWay, reqUnderWay, written] using placed
      reqSettled := by simpa using order.reqSettled
      respSettled := by simpa using Kernel.Signal.settled_write none
      distinct := order.distinct
      onPort := order.onPort
      received := by simpa [respUnderWay, written] using received
      copied := by simpa [respUnderWay, written] using copied }, once, nextReady, rfl⟩
  · obtain rfl := Option.some.inj ran
    obtain ⟨other, ramData, shape, _, _, rfl⟩ := answer_cases answer
    rw [queue] at placed received
    have fresh : idx ∉ s.sys.w.copied := order.not_copied (by simp [queue])
    refine ⟨{
      order := by simpa [respUnderWay, reqUnderWay, written, queue] using placed
      reqSettled := by simpa using order.reqSettled
      respSettled := by simpa using Kernel.Signal.settled_write (some idx)
      distinct := order.distinct
      onPort := fun k membership =>
        (onPort_set present other rfl shape k).mpr (order.onPort k membership)
      received := by simpa [respUnderWay, written, queue] using received
      copied := ?_ }, ?_, nextReady, rfl⟩
    · intro k membership
      have known := copied k membership
      simp only [respUnderWay, written, Function.update_self, ne_eq, reduceCtorEq,
        not_false_eq_true, Function.update_of_ne, List.filterMap_append, List.mem_append] at known ⊢
      rw [known, or_assoc]
      rfl
    · exact List.nodup_append.mpr ⟨once, List.nodup_singleton _, fun k earlier l same eq => fresh
        (List.mem_singleton.mp same ▸ eq ▸ earlier)⟩
  · obtain ⟨other, found, due⟩ := ready i idx completed
    rw [present, Option.some.injEq] at found
    rw [found] at notDue
    omega

theorem PortOrder.getMemResp (order : PortOrder clocks.peClkCycle now due s i)
    (aligned : ∀ thread, Kernel.Aligned (clocks.period thread) now (due thread))
    (running : due .getMemResp = now) (ran : s.getMemRespPort now i = some after) :
    PortOrder clocks.peClkCycle now
      (Function.update due .getMemResp (now + clocks.peClkCycle)) after i := by
  have reading : Kernel.Aligned clocks.peClkCycle now now := running ▸ aligned .getMemResp
  have writing : Kernel.Aligned clocks.peClkCycle now (due .sendBurstResp) :=
    aligned .sendBurstResp
  have taken := Kernel.Signal.unread_read clocks.pePositive writing reading order.respSettled
  have placed := order.order
  have received := order.received
  have copied := order.copied
  simp only [respUnderWay, running, taken] at placed received copied
  unfold getMemRespPort at ran
  cases current : (s.burstResp i).current with
  | none =>
      rw [current] at ran placed received copied
      obtain rfl := Option.some.inj ran
      exact {
        order := by simpa [respUnderWay, reqUnderWay] using placed
        reqSettled := by simpa using order.reqSettled
        respSettled := by simpa using order.respSettled
        distinct := order.distinct
        onPort := order.onPort
        received := by simpa [respUnderWay] using received
        copied := by simpa [respUnderWay] using copied }
  | some burstIdx =>
      rw [current] at ran placed received copied
      rw [Option.bind_eq_bind, Option.bind_eq_some_iff] at ran
      obtain ⟨op, present, ran⟩ := ran
      obtain rfl := Option.some.inj ran
      exact {
        order := by simpa [respUnderWay, reqUnderWay] using placed
        reqSettled := by simpa using order.reqSettled
        respSettled := by simpa using order.respSettled
        distinct := order.distinct
        onPort := fun idx membership =>
          (onPort_set present { op with arrivePeTime := now } rfl rfl idx).mpr
            (order.onPort idx membership)
        received := by simpa [respUnderWay] using received
        copied := by simpa [respUnderWay] using copied }

theorem PortOrder.apart {period : Nat} {other : Thread → Nat} (order : PortOrder period now due s i)
    (orderOther : PortOrder period now other s j) (different : j ≠ i) {idx : Nat}
    (pushed : idx ∈ s.pushed i) : idx ∉ s.pushed j := fun both =>
  different (OnPort.unique (orderOther.onPort idx both) (order.onPort idx pushed))

theorem sendMemReqPort_other (ran : s.sendMemReqPort now i = some after) (different : j ≠ i) :
    SamePort s after j := by
  unfold sendMemReqPort at ran
  cases queue : s.burstReqQueue i with
  | nil =>
      rw [queue] at ran
      obtain rfl := Option.some.inj ran
      exact ⟨rfl, rfl, Function.update_of_ne different _ _, rfl, rfl, rfl, fun _ => id,
        fun _ _ => id, fun _ _ => Iff.rfl⟩
  | cons burstIdx rest =>
      rw [queue, Option.bind_eq_bind, Option.bind_eq_some_iff] at ran
      obtain ⟨op, present, ran⟩ := ran
      obtain rfl := Option.some.inj ran
      exact ⟨rfl, rfl, Function.update_of_ne different _ _, rfl, Function.update_of_ne different _ _,
        rfl, fun idx => (onPort_set present { op with departPeTime := now } rfl rfl idx).mpr,
        fun _ _ => id, fun _ _ => Iff.rfl⟩

theorem getMemRespPort_other (ran : s.getMemRespPort now i = some after) (different : j ≠ i) :
    SamePort s after j := by
  unfold getMemRespPort at ran
  cases current : (s.burstResp i).current with
  | none =>
      rw [current] at ran
      obtain rfl := Option.some.inj ran
      exact ⟨rfl, rfl, rfl, rfl, rfl, rfl, fun _ => id, fun _ _ => id, fun _ _ => Iff.rfl⟩
  | some burstIdx =>
      rw [current, Option.bind_eq_bind, Option.bind_eq_some_iff] at ran
      obtain ⟨op, present, ran⟩ := ran
      obtain rfl := Option.some.inj ran
      exact ⟨rfl, Function.update_of_ne different _ _, rfl, rfl, rfl, rfl,
        fun idx => (onPort_set present { op with arrivePeTime := now } rfl rfl idx).mpr,
        fun _ _ => id, fun _ _ => Iff.rfl⟩

theorem PortOrder.current_pushed (order : PortOrder clocks.peClkCycle now due s i)
    (aligned : ∀ thread, Kernel.Aligned (clocks.period thread) now (due thread))
    (running : due .getBurstReq = now) {burstIdx : Nat}
    (current : (s.burstReq i).current = some burstIdx) : burstIdx ∈ s.pushed i := by
  have reading : Kernel.Aligned clocks.peClkCycle now now := running ▸ aligned .getBurstReq
  have writing : Kernel.Aligned clocks.peClkCycle now (due .sendMemReq) := aligned .sendMemReq
  rw [order.order, reqUnderWay, running,
    Kernel.Signal.unread_read clocks.pePositive writing reading order.reqSettled, current]
  simp

theorem getBurstReqPort_other (order : PortOrder clocks.peClkCycle now due s i)
    (aligned : ∀ thread, Kernel.Aligned (clocks.period thread) now (due thread))
    (running : due .getBurstReq = now) {other : Thread → Nat}
    (orderOther : PortOrder clocks.peClkCycle now other s j) {w : MemWrapper}
    {burstReq : Port → Option Nat} (value : burstReq i = (s.burstReq i).current)
    (ran : s.sys.w.getBurstReqPort cfg burstReq i = some w) (different : j ≠ i) :
    SamePort s { s with sys.w := w } j := by
  unfold MemWrapper.getBurstReqPort at ran
  cases arrives : burstReq i with
  | none =>
      rw [arrives] at ran
      obtain rfl := Option.some.inj ran
      exact ⟨rfl, rfl, rfl, rfl, rfl, rfl, fun _ => id, fun _ _ => id, fun _ _ => Iff.rfl⟩
  | some burstIdx =>
      have foreign : burstIdx ∉ s.pushed j := order.apart orderOther different
        (order.current_pushed aligned running (value ▸ arrives))
      rw [arrives] at ran
      simp only [Option.bind_eq_bind, Option.bind_eq_some_iff] at ran
      obtain ⟨op, present, reqs, converted, ran⟩ := ran
      obtain rfl := Option.some.inj ran
      refine ⟨rfl, rfl, rfl, rfl, rfl, Function.update_of_ne different _ _, fun _ => id,
        fun idx membership received => ?_, fun _ _ => Iff.rfl⟩
      rcases List.mem_append.mp received with earlier | new
      · exact earlier
      · exact absurd (List.mem_singleton.mp new ▸ membership) foreign

theorem sendBurstRespPort_other {period : Nat} (order : PortOrder period now due s i)
    {other : Thread → Nat} (orderOther : PortOrder period now other s j)
    (ran : s.sendBurstRespPort now i = some after) (different : j ≠ i) :
    SamePort s after j := by
  unfold sendBurstRespPort at ran
  rw [Option.bind_eq_bind, Option.bind_eq_some_iff] at ran
  obtain ⟨⟨w, written⟩, answered, ran⟩ := ran
  rcases sendBurstRespPort_cases answered with ⟨rfl, rfl⟩ |
    ⟨idx, rest, op, queue, completed, present, _, answer, rfl⟩ |
    ⟨idx, rest, op, queue, completed, present, notDue, rfl, rfl⟩
  · obtain rfl := Option.some.inj ran
    exact ⟨rfl, rfl, rfl, Function.update_of_ne different _ _, rfl, rfl, fun _ => id,
      fun _ _ => id, fun _ _ => Iff.rfl⟩
  · obtain rfl := Option.some.inj ran
    obtain ⟨copied, ramData, shape, depart, _, rfl⟩ := answer_cases answer
    have foreign : idx ∉ s.pushed j :=
      order.apart orderOther different (by rw [order.order, queue]; simp)
    refine ⟨rfl, rfl, rfl, Function.update_of_ne different _ _, rfl,
      Function.update_of_ne different _ _,
      fun k => (onPort_set present copied rfl shape k).mpr, fun _ _ => id, fun k membership => ?_⟩
    have notThis : k ≠ idx := fun same => foreign (same ▸ membership)
    simp [notThis]
  · obtain rfl := Option.some.inj ran
    exact ⟨rfl, rfl, rfl, rfl, rfl, rfl, fun _ => id, fun _ _ => id, fun _ _ => Iff.rfl⟩

end Ports

end Transport

end GraphAccelerator.Memory
