import GraphAccelerator.Memory.Ports

/-!
# The threads of the transport

What holds of all ports together: every burst is copied once, only what was pushed is
received, and a response is found no earlier than the time that `run_acc` has computed for
it, so that `sendBurstResp` always writes its signal.
-/

namespace GraphAccelerator.Memory

open CheckedLoop Relation

namespace Transport

variable {Mem : Type} {cfg : BurstCfg} {clocks : Clocks} {now : Nat} {due : Thread → Nat}
variable {s after : Transport Mem}
variable {i j : Port}
variable {ledger : Ledger Mem} {memClkCycle : Nat}

/-- What holds of all ports together: every burst is copied at most once, only bursts
that were pushed are received and copied, and every answer was written. -/
structure ExactlyOnce (memClkCycle : Nat) (ledger : Ledger Mem) (now : Nat) (s : Transport Mem) :
    Prop where
  once : s.sys.w.copied.Nodup
  known : ∀ idx ∈ s.sys.w.copied, ∃ i, idx ∈ s.pushed i
  drawn : ∀ idx ∈ s.sys.w.received, ∃ i, idx ∈ s.pushed i
  timely : Timely memClkCycle ledger now s.sys
  unwritten : s.unwritten = []

structure Untouched (s after : Transport Mem) : Prop where
  copied : after.sys.w.copied = s.sys.w.copied
  received : ∀ idx ∈ after.sys.w.received, idx ∈ s.sys.w.received ∨ ∃ i, idx ∈ s.pushed i
  pushed : after.pushed = s.pushed
  acc : after.sys.acc = s.sys.acc
  mem : after.sys.mem = s.sys.mem
  started : after.started = s.started
  unwritten : after.unwritten = s.unwritten
  ready : ∀ now, s.sys.w.Ready now → after.sys.w.Ready now

theorem ExactlyOnce.of_untouched (exactly : ExactlyOnce memClkCycle ledger now s)
    (untouched : Untouched s after) : ExactlyOnce memClkCycle ledger now after where
  once := untouched.copied ▸ exactly.once
  known := by
    rw [untouched.copied, untouched.pushed]
    exact exactly.known
  drawn := by
    rw [untouched.pushed]
    exact fun idx received => (untouched.received idx received).elim (exactly.drawn idx) id
  timely := ⟨by rw [untouched.acc, untouched.mem]; exact exactly.timely.held,
    by rw [untouched.mem]; exact exactly.timely.outstanding,
    untouched.ready now exactly.timely.ready⟩
  unwritten := untouched.unwritten.trans exactly.unwritten

theorem sendMemReqPort_untouched (ran : s.sendMemReqPort now i = some after) :
    Untouched s after := by
  unfold sendMemReqPort at ran
  cases queue : s.burstReqQueue i with
  | nil =>
      rw [queue] at ran
      obtain rfl := Option.some.inj ran
      exact ⟨rfl, fun _ => .inl, rfl, rfl, rfl, rfl, rfl, fun _ => id⟩
  | cons burstIdx rest =>
      rw [queue, Option.bind_eq_bind, Option.bind_eq_some_iff] at ran
      obtain ⟨op, present, ran⟩ := ran
      obtain rfl := Option.some.inj ran
      exact ⟨rfl, fun _ => .inl, rfl, rfl, rfl, rfl, rfl,
        fun _ ready => ready.set present (by rfl)⟩

theorem getMemRespPort_untouched (ran : s.getMemRespPort now i = some after) :
    Untouched s after := by
  unfold getMemRespPort at ran
  cases current : (s.burstResp i).current with
  | none =>
      rw [current] at ran
      obtain rfl := Option.some.inj ran
      exact ⟨rfl, fun _ => .inl, rfl, rfl, rfl, rfl, rfl, fun _ => id⟩
  | some burstIdx =>
      rw [current, Option.bind_eq_bind, Option.bind_eq_some_iff] at ran
      obtain ⟨op, present, ran⟩ := ran
      obtain rfl := Option.some.inj ran
      exact ⟨rfl, fun _ => .inl, rfl, rfl, rfl, rfl, rfl,
        fun _ ready => ready.set present (by rfl)⟩

theorem getBurstReqPort_untouched {w : MemWrapper} {burstReq : Port → Option Nat}
    (pushed : ∀ idx, burstReq i = some idx → idx ∈ s.pushed i)
    (ran : s.sys.w.getBurstReqPort cfg burstReq i = some w) :
    Untouched s { s with sys.w := w } := by
  unfold MemWrapper.getBurstReqPort at ran
  cases arrives : burstReq i with
  | none =>
      rw [arrives] at ran
      obtain rfl := Option.some.inj ran
      exact ⟨rfl, fun _ => .inl, rfl, rfl, rfl, rfl, rfl, fun _ => id⟩
  | some burstIdx =>
      rw [arrives] at ran
      simp only [Option.bind_eq_bind, Option.bind_eq_some_iff] at ran
      obtain ⟨op, present, reqs, converted, ran⟩ := ran
      obtain rfl := Option.some.inj ran
      refine ⟨rfl, fun idx received => ?_, rfl, rfl, rfl, rfl, rfl, fun _ => id⟩
      exact (List.mem_append.mp received).imp id
        fun new => ⟨i, pushed idx (by rw [List.mem_singleton.mp new]; exact arrives)⟩

theorem ExactlyOnce.sendBurstRespPort (exactly : ExactlyOnce clocks.memClkCycle ledger now s)
    (order : PortOrder clocks.peClkCycle now due s i)
    (aligned : ∀ thread, Kernel.Aligned (clocks.period thread) now (due thread))
    (running : due .sendBurstResp = now) (ran : s.sendBurstRespPort now i = some after) :
    ExactlyOnce clocks.memClkCycle ledger now after ∧ after.started = s.started ∧
      after.sys.mem = s.sys.mem := by
  obtain ⟨answeredOrder, once, ready, unwritten⟩ :=
    order.sendBurstResp aligned running exactly.once exactly.timely.ready ran
  have frame : after.pushed = s.pushed ∧ after.sys.acc = s.sys.acc ∧
      after.sys.mem = s.sys.mem ∧ after.started = s.started ∧
      after.sys.w.received = s.sys.w.received ∧
      ∀ idx ∈ after.sys.w.copied, idx ∈ s.sys.w.copied ∨ idx ∈ s.pushed i := by
    unfold Transport.sendBurstRespPort at ran
    rw [Option.bind_eq_bind, Option.bind_eq_some_iff] at ran
    obtain ⟨⟨w, written⟩, answered, ran⟩ := ran
    rcases sendBurstRespPort_cases answered with ⟨rfl, rfl⟩ |
      ⟨idx, rest, op, queue, _, _, _, answer, rfl⟩ | ⟨_, _, _, _, _, _, _, rfl, rfl⟩
    · obtain rfl := Option.some.inj ran
      exact ⟨rfl, rfl, rfl, rfl, rfl, fun _ => .inl⟩
    · obtain rfl := Option.some.inj ran
      obtain ⟨_, _, _, _, _, rfl⟩ := answer_cases answer
      refine ⟨rfl, rfl, rfl, rfl, rfl, fun k membership => ?_⟩
      rcases List.mem_append.mp membership with earlier | new
      · exact .inl earlier
      · refine .inr ?_
        rw [List.mem_singleton.mp new, order.order, queue]
        simp
    · obtain rfl := Option.some.inj ran
      exact ⟨rfl, rfl, rfl, rfl, rfl, fun _ => .inl⟩
  obtain ⟨pushed, acc, mem, started, received, copied⟩ := frame
  exact ⟨{
    once
    known := by
      intro idx membership
      rw [pushed]
      exact (copied idx membership).elim (exactly.known idx) fun new => ⟨i, new⟩
    drawn := by
      rw [received, pushed]
      exact exactly.drawn
    timely := ⟨by rw [acc, mem]; exact exactly.timely.held,
      by rw [mem]; exact exactly.timely.outstanding, ready⟩
    unwritten := unwritten.trans exactly.unwritten }, started, mem⟩

/-- The invariant of the transport.  `run_acc` has made as many ticks as its due time
says. -/
structure Carried (clocks : Clocks) (ledger : Ledger Mem)
    (t : Kernel.Timed Thread (Transport Mem)) : Prop where
  aligned : ∀ thread, Kernel.Aligned (clocks.period thread) t.now (t.due thread)
  ports : ∀ i, PortOrder clocks.peClkCycle t.now t.due t.state i
  exactly : ExactlyOnce clocks.memClkCycle ledger t.now t.state
  clock : if t.state.started then
      t.due .runAcc = clocks.memClkCycle * (ledger.clk t.state.sys.mem + 1)
    else t.due .runAcc = 0 ∧ ledger.clk t.state.sys.mem = 0

theorem aligned_update
    (aligned : ∀ thread, Kernel.Aligned (clocks.period thread) now (due thread))
    {thread : Thread} (running : due thread = now) {period : Nat}
    (same : clocks.period thread = period) (other : Thread) :
    Kernel.Aligned (clocks.period other) now
      (Function.update due thread (now + period) other) := by
  by_cases this : other = thread
  · subst this
    rw [Function.update_self, ← same]
    exact (running ▸ aligned other).resume
  · rw [Function.update_of_ne this]
    exact aligned other

/-- A thread of `pe` or of the wrapper works on one port after the other.  `view` is
how the state of its loop shows in the transport, `common` what else it keeps. -/
theorem Carried.loop {State : Type} (view : State → Transport Mem) (common : Transport Mem → Prop)
    {body : State → Port → Option State} {start final : State} {thread : Thread}
    (carried : Carried clocks ledger ⟨now, due, view start⟩) (initial : common (view start))
    (running : due thread = now) (onPeClk : thread ≠ .runAcc)
    (ran : (List.finRange 8).foldlM body start = some final)
    (own : ∀ i state next, body state i = some next →
      ExactlyOnce clocks.memClkCycle ledger now (view state) →
      PortOrder clocks.peClkCycle now due (view state) i →
      (ExactlyOnce clocks.memClkCycle ledger now (view next) ∧
        (view next).started = (view state).started ∧
        (view next).sys.mem = (view state).sys.mem) ∧
      PortOrder clocks.peClkCycle now (Function.update due thread (now + clocks.peClkCycle))
        (view next) i)
    (others : ∀ i j state next, j ≠ i → body state i = some next →
      PortOrder clocks.peClkCycle now due (view state) i →
      ∀ other, PortOrder clocks.peClkCycle now other (view state) j →
      SamePort (view state) (view next) j)
    (kept : ∀ i state next, body state i = some next →
      PortOrder clocks.peClkCycle now due (view state) i →
      common (view state) → common (view next)) :
    Carried clocks ledger
      ⟨now, Function.update due thread (now + clocks.peClkCycle), view final⟩ ∧
      common (view final) := by
  have period : clocks.period thread = clocks.peClkCycle := by
    cases thread <;> first | rfl | exact absurd rfl onPeClk
  obtain ⟨⟨⟨exactly, started, mem⟩, shared⟩, ports⟩ := foldlM_each
    (fun state => (ExactlyOnce clocks.memClkCycle ledger now (view state) ∧
      (view state).started = (view start).started ∧
      (view state).sys.mem = (view start).sys.mem) ∧ common (view state))
    (fun i state => PortOrder clocks.peClkCycle now due (view state) i)
    (fun i state => PortOrder clocks.peClkCycle now
      (Function.update due thread (now + clocks.peClkCycle)) (view state) i)
    (List.nodup_finRange 8) ran ⟨⟨carried.exactly, rfl, rfl⟩, initial⟩ (fun i _ => carried.ports i)
    (fun i state next stepped ⟨⟨exactly, started, mem⟩, shared⟩ order =>
      have ⟨⟨nextExactly, nextStarted, nextMem⟩, nextOrder⟩ := own i state next stepped exactly order
      ⟨⟨⟨nextExactly, nextStarted.trans started, nextMem.trans mem⟩,
        kept i state next stepped order shared⟩, nextOrder⟩)
    (fun i j state next different stepped order =>
      ⟨fun waiting => waiting.frame (others i j state next different stepped order _ waiting),
        fun worked => worked.frame (others i j state next different stepped order _ worked)⟩)
  refine ⟨?_, shared⟩
  exact {
    aligned := aligned_update carried.aligned running period
    ports := fun i => ports i (List.mem_finRange i)
    exactly
    clock := by
      dsimp only
      rw [started, mem, Function.update_of_ne (Ne.symm onPeClk)]
      exact carried.clock }

section Loops

variable (common : Transport Mem → Prop)

theorem Carried.sendMemReq (carried : Carried clocks ledger ⟨now, due, s⟩) (initial : common s)
    (kept : ∀ i state next, sendMemReqPort now state i = some next →
      PortOrder clocks.peClkCycle now due state i → common state → common next)
    (running : due .sendMemReq = now) (ran : s.sendMemReq now = some after) :
    Carried clocks ledger
      ⟨now, Function.update due .sendMemReq (now + clocks.peClkCycle), after⟩ ∧ common after :=
  carried.loop id common initial running (by simp) ran
    (fun _ _ _ stepped exactly order =>
      have untouched := sendMemReqPort_untouched stepped
      ⟨⟨exactly.of_untouched untouched, untouched.started, untouched.mem⟩,
        order.sendMemReq carried.aligned running stepped⟩)
    (fun _ _ _ _ different stepped _ _ _ => sendMemReqPort_other stepped different) kept

theorem Carried.getMemResp (carried : Carried clocks ledger ⟨now, due, s⟩) (initial : common s)
    (kept : ∀ i state next, getMemRespPort now state i = some next →
      PortOrder clocks.peClkCycle now due state i → common state → common next)
    (running : due .getMemResp = now) (ran : s.getMemResp now = some after) :
    Carried clocks ledger
      ⟨now, Function.update due .getMemResp (now + clocks.peClkCycle), after⟩ ∧ common after :=
  carried.loop id common initial running (by simp) ran
    (fun _ _ _ stepped exactly order =>
      have untouched := getMemRespPort_untouched stepped
      ⟨⟨exactly.of_untouched untouched, untouched.started, untouched.mem⟩,
        order.getMemResp carried.aligned running stepped⟩)
    (fun _ _ _ _ different stepped _ _ _ => getMemRespPort_other stepped different) kept

theorem Carried.getBurstReq (carried : Carried clocks ledger ⟨now, due, s⟩) (initial : common s)
    (kept : ∀ i w next, MemWrapper.getBurstReqPort cfg (fun i => (s.burstReq i).current) w i =
        some next →
      PortOrder clocks.peClkCycle now due { s with sys.w := w } i →
      common { s with sys.w := w } → common { s with sys.w := next })
    (running : due .getBurstReq = now) (ran : s.getBurstReq cfg = some after) :
    Carried clocks ledger
      ⟨now, Function.update due .getBurstReq (now + clocks.peClkCycle), after⟩ ∧ common after := by
  rw [Transport.getBurstReq, Option.bind_eq_bind, Option.bind_eq_some_iff] at ran
  obtain ⟨w, ran, same⟩ := ran
  obtain rfl := Option.some.inj same
  have viewed : Carried clocks ledger ⟨now, due, { s with sys.w := s.sys.w }⟩ := carried
  exact viewed.loop (fun w => { s with sys.w := w }) common initial running (by simp) ran
    (fun _ _ _ stepped exactly order =>
      have untouched := getBurstReqPort_untouched
        (fun _ arrives => order.current_pushed carried.aligned running arrives) stepped
      ⟨⟨exactly.of_untouched untouched, rfl, rfl⟩,
        order.getBurstReq carried.aligned running rfl stepped⟩)
    (fun _ _ _ _ different stepped order _ orderOther =>
      getBurstReqPort_other order carried.aligned running orderOther rfl stepped different) kept

theorem Carried.sendBurstResp (carried : Carried clocks ledger ⟨now, due, s⟩)
    (initial : common s)
    (kept : ∀ i state next, sendBurstRespPort now state i = some next →
      PortOrder clocks.peClkCycle now due state i → common state → common next)
    (running : due .sendBurstResp = now) (ran : s.sendBurstResp now = some after) :
    Carried clocks ledger
      ⟨now, Function.update due .sendBurstResp (now + clocks.peClkCycle), after⟩ ∧
      common after :=
  carried.loop id common initial running (by simp) ran
    (fun _ _ _ stepped exactly order =>
      ⟨exactly.sendBurstRespPort order carried.aligned running stepped,
        (order.sendBurstResp carried.aligned running exactly.once exactly.timely.ready stepped).1⟩)
    (fun _ _ _ _ different stepped order _ orderOther =>
      sendBurstRespPort_other order orderOther stepped different) kept

end Loops

structure SameWrapper (w after : MemWrapper) : Prop where
  shapes : after.bursts.map BurstOp.shape = w.bursts.map BurstOp.shape
  burstReqQueue : after.burstReqQueue = w.burstReqQueue
  received : after.received = w.received
  copied : after.copied = w.copied

theorem account_same {w after : MemWrapper} {udf : UDF} (accounted : w.account udf = some after) :
    SameWrapper w after := by
  obtain ⟨op, counted, present, shape, outcome⟩ := account_cases accounted
  rcases outcome with ⟨_, _, rfl⟩ | ⟨_, _, rfl⟩ <;>
    exact ⟨shapes_set present shape, rfl, rfl, rfl⟩

theorem SameWrapper.trans {w other after : MemWrapper} (first : SameWrapper w other)
    (second : SameWrapper other after) : SameWrapper w after :=
  ⟨second.shapes.trans first.shapes, second.burstReqQueue.trans first.burstReqQueue,
    second.received.trans first.received, second.copied.trans first.copied⟩

theorem sendPhase_same {ram : Ramulator Mem} {now : Int} {sys next : MemSystem Mem}
    (phase : SendPhase ram now sys next) : SameWrapper sys.w next.w :=
  @SendPhase.keeps _ _ _ _ _ phase (SameWrapper sys.w) ⟨rfl, rfl, rfl, rfl⟩
    (fun _ _ same => ⟨same.shapes, same.burstReqQueue, same.received, same.copied⟩)
    fun _ _ _ accounted same => same.trans (account_same accounted)

theorem tickPhase_same {ram : Ramulator Mem} {period : Int} {sys next : MemSystem Mem}
    (phase : TickPhase ram period sys next) : SameWrapper sys.w next.w :=
  @TickPhase.keeps _ _ _ _ _ phase (SameWrapper sys.w) ⟨rfl, rfl, rfl, rfl⟩
    fun _ _ _ accounted same => same.trans (account_same accounted)

theorem SameWrapper.port {sys : MemSystem Mem} (same : SameWrapper s.sys.w sys.w)
    (started : Bool) (i : Port) : SamePort s { s with sys, started } i :=
  ⟨rfl, rfl, rfl, rfl, rfl, congrFun same.burstReqQueue i,
    fun idx => (onPort_iff same.shapes i idx).mpr, fun _ _ received => same.received ▸ received,
    fun _ _ => by rw [same.copied]⟩

theorem Carried.runAcc {ram : Ramulator Mem} (serves : ram.Serves ledger)
    (carried : Carried clocks ledger ⟨now, due, s⟩) (running : due .runAcc = now)
    {delay : Nat} (resumed : Resume cfg ram clocks .runAcc now s after delay) :
    Carried clocks ledger ⟨now, Function.update due .runAcc (now + delay), after⟩ := by
  have clock := carried.clock
  dsimp only at clock
  rw [running] at clock
  have iteration : ∃ sys, after = { s with sys, started := true } ∧ SameWrapper s.sys.w sys.w ∧
      delay = clocks.memClkCycle ∧ Timely clocks.memClkCycle ledger now sys ∧
      now = clocks.memClkCycle * ledger.clk sys.mem := by
    cases resumed with
    | @start _ _ sys notYet phase =>
        rw [notYet] at clock
        obtain ⟨zero, unticked⟩ : now = 0 ∧ ledger.clk s.sys.mem = 0 := by simpa using clock
        obtain ⟨timely, same⟩ := carried.exactly.timely.sendPhase
          (by rw [zero, unticked]; simp) serves.send phase
        exact ⟨sys, rfl, sendPhase_same phase, rfl, timely, by rw [same, unticked, zero]; rfl⟩
    | @runAcc _ _ ticked sys started tick send =>
        rw [started] at clock
        have reached : now = clocks.memClkCycle * (ledger.clk s.sys.mem + 1) := by simpa using clock
        obtain ⟨tickedTimely, clk⟩ := carried.exactly.timely.tickPhase
          (by rw [reached]; push_cast; rfl) serves.tick tick
        obtain ⟨timely, same⟩ := tickedTimely.sendPhase
          (by rw [clk, reached]; push_cast; rfl) serves.send send
        exact ⟨sys, by rw [← started], (tickPhase_same tick).trans (sendPhase_same send), rfl, timely,
          by rw [same, clk, reached]⟩
  obtain ⟨sys, rfl, same, rfl, timely, reached⟩ := iteration
  exact {
    aligned := aligned_update carried.aligned running rfl
    ports := fun i => ((carried.ports i).of_due fun thread other =>
      Function.update_of_ne other _ _).frame (same.port true i)
    exactly := {
      once := same.copied ▸ carried.exactly.once
      known := fun idx copied => carried.exactly.known idx (same.copied ▸ copied)
      drawn := fun idx received => carried.exactly.drawn idx (same.received ▸ received)
      timely
      unwritten := carried.exactly.unwritten }
    clock := by
      rw [if_pos rfl]
      show Function.update due .runAcc (now + clocks.memClkCycle) .runAcc =
        clocks.memClkCycle * (ledger.clk sys.mem + 1)
      rw [Function.update_self, Nat.mul_add, ← reached, Nat.mul_one] }

theorem Carried.unknown (carried : Carried clocks ledger ⟨now, due, s⟩) {burstIdx : Nat}
    {op : BurstOp} (present : s.sys.w.bursts[burstIdx]? = some op)
    (fresh : burstIdx ∉ s.pushed op.portIdx) :
    burstIdx ∉ s.sys.w.copied ∧ burstIdx ∉ s.sys.w.received := by
  have unknown : ∀ i, burstIdx ∉ s.pushed i := by
    intro i pushed
    obtain rfl := OnPort.unique ((carried.ports i).onPort burstIdx pushed) ⟨op, present, rfl⟩
    exact fresh pushed
  constructor
  · intro copied
    obtain ⟨i, pushed⟩ := carried.exactly.known burstIdx copied
    exact unknown i pushed
  · intro received
    obtain ⟨i, pushed⟩ := carried.exactly.drawn burstIdx received
    exact unknown i pushed

theorem Carried.use (carried : Carried clocks ledger ⟨now, due, s⟩) (used : Use cfg now s after) :
    Carried clocks ledger ⟨now, due, after⟩ := by
  cases used with
  | @create op created reqIdx _ _ _ _ made =>
      have keep : ∀ {idx : Nat} {other : BurstOp}, s.sys.w.bursts[idx]? = some other →
          (s.sys.w.bursts ++ [created])[idx]? = some other := by
        intro idx other present
        rw [List.getElem?_append_left (List.getElem?_eq_some_iff.mp present).1, present]
      exact {
        aligned := carried.aligned
        ports := fun i => (carried.ports i).frame ⟨rfl, rfl, rfl, rfl, rfl, rfl,
          fun idx ⟨other, present, port⟩ => ⟨other, keep present, port⟩,
          fun _ _ => id, fun _ _ => Iff.rfl⟩
        exactly := {
          once := carried.exactly.once
          known := carried.exactly.known
          drawn := carried.exactly.drawn
          timely := ⟨carried.exactly.timely.held, carried.exactly.timely.outstanding,
            fun i idx completed =>
              let ⟨other, present, due⟩ := carried.exactly.timely.ready i idx completed
              ⟨other, keep present, due⟩⟩
          unwritten := carried.exactly.unwritten }
        clock := carried.clock }
  | @push burstIdx op data present fresh =>
      have ports : ∀ {after : MemWrapper}, after.bursts = s.sys.w.bursts.set burstIdx { op with data } →
          ∀ i idx, after.OnPort i idx ↔ s.sys.w.OnPort i idx := fun set i idx =>
        onPort_set present { op with data } set rfl idx
      obtain ⟨notCopied, notReceived⟩ := carried.unknown present fresh
      have grows : ∀ {idx : Nat}, (∃ i, idx ∈ s.pushed i) → ∃ i, idx ∈ Function.update s.pushed
          op.portIdx (s.pushed op.portIdx ++ [burstIdx]) i := by
        rintro idx ⟨i, pushed⟩
        refine ⟨i, ?_⟩
        by_cases same : i = op.portIdx
        · subst same
          simp [pushed]
        · simpa [same] using pushed
      refine ⟨carried.aligned, fun i => ?_, ⟨carried.exactly.once,
        fun idx copied => grows (carried.exactly.known idx copied),
        fun idx received => grows (carried.exactly.drawn idx received),
        ⟨carried.exactly.timely.held, carried.exactly.timely.outstanding,
          carried.exactly.timely.ready.set present (by rfl)⟩,
        carried.exactly.unwritten⟩, carried.clock⟩
      have order := carried.ports i
      by_cases same : i = op.portIdx
      · subst same
        have placed := order.order
        have fromPushed : ∀ {idx : Nat}, idx ∈ Function.update s.pushed op.portIdx
            (s.pushed op.portIdx ++ [burstIdx]) op.portIdx →
            idx ∈ s.pushed op.portIdx ∨ idx = burstIdx := by simp
        exact {
          order := by
            show Function.update s.pushed op.portIdx _ op.portIdx = s.answered op.portIdx ++
              s.respUnderWay due op.portIdx ++ s.sys.w.burstReqQueue op.portIdx ++
              s.reqUnderWay due op.portIdx ++ Function.update s.burstReqQueue op.portIdx _ op.portIdx
            rw [Function.update_self, Function.update_self, placed, List.append_assoc]
          reqSettled := order.reqSettled
          respSettled := order.respSettled
          distinct := by
            simpa [List.nodup_append, order.distinct] using
              fun idx earlier (same : idx = burstIdx) => fresh (same ▸ earlier)
          onPort := by
            intro idx pushed
            rcases fromPushed pushed with earlier | rfl
            · exact (ports rfl _ idx).mpr (order.onPort idx earlier)
            · exact (ports rfl _ idx).mpr ⟨op, present, rfl⟩
          received := by
            intro idx pushed received
            rcases fromPushed pushed with earlier | rfl
            · exact order.received idx earlier received
            · exact absurd received notReceived
          copied := by
            intro idx pushed
            rcases fromPushed pushed with earlier | rfl
            · exact order.copied idx earlier
            · refine iff_of_false notCopied fun answered => fresh ?_
              rw [placed, List.append_assoc, List.append_assoc]
              exact List.mem_append_left _ answered }
      · exact order.frame ⟨Function.update_of_ne same _ _, rfl, rfl, rfl,
          Function.update_of_ne same _ _, rfl, fun idx => (ports rfl _ idx).mpr, fun _ _ => id,
          fun _ _ => Iff.rfl⟩
  | consume =>
      exact ⟨carried.aligned, fun i => (carried.ports i).frame ⟨rfl, rfl, rfl, rfl, rfl, rfl,
        fun _ => id, fun _ _ => id, fun _ _ => Iff.rfl⟩,
        ⟨carried.exactly.once, carried.exactly.known, carried.exactly.drawn,
          carried.exactly.timely, carried.exactly.unwritten⟩, carried.clock⟩

theorem Carried.advance (carried : Carried clocks ledger ⟨now, due, s⟩)
    (waiting : ∀ thread, now < due thread) : Carried clocks ledger ⟨now + 1, due, s.settle⟩ := by
  have reqSame : ∀ i, s.settle.reqUnderWay due i = s.reqUnderWay due i := fun i => by
    rw [reqUnderWay, reqUnderWay]
    exact congrArg _ (Kernel.Signal.unread_settle (carried.aligned .sendMemReq)
      (carried.aligned .getBurstReq) (waiting .getBurstReq))
  have respSame : ∀ i, s.settle.respUnderWay due i = s.respUnderWay due i := fun i => by
    rw [respUnderWay, respUnderWay]
    exact congrArg _ (Kernel.Signal.unread_settle (carried.aligned .sendBurstResp)
      (carried.aligned .getMemResp) (waiting .getMemResp))
  exact {
    aligned := fun thread => (carried.aligned thread).advance (waiting thread)
    ports := fun i => {
      order := by
        rw [reqSame, respSame]
        exact (carried.ports i).order
      reqSettled := Kernel.Signal.settled_settle
      respSettled := Kernel.Signal.settled_settle
      distinct := (carried.ports i).distinct
      onPort := (carried.ports i).onPort
      received := by
        rw [respSame]
        exact (carried.ports i).received
      copied := by
        rw [respSame]
        exact (carried.ports i).copied }
    exactly := ⟨carried.exactly.once, carried.exactly.known, carried.exactly.drawn,
      ⟨carried.exactly.timely.held, carried.exactly.timely.outstanding,
        carried.exactly.timely.ready.later (by push_cast; omega)⟩,
      carried.exactly.unwritten⟩
    clock := carried.clock }

theorem Carried.step {ram : Ramulator Mem} (serves : ram.Serves ledger)
    {before after : Kernel.Timed Thread (Transport Mem)} (carried : Carried clocks ledger before)
    (stepped : Step cfg ram clocks before after) : Carried clocks ledger after := by
  cases stepped with
  | resume running _ resumed =>
      cases resumed with
      | sendMemReq ran =>
          exact (carried.sendMemReq (fun _ => True) trivial (fun _ _ _ _ _ => id) running ran).1
      | getMemResp ran =>
          exact (carried.getMemResp (fun _ => True) trivial (fun _ _ _ _ _ => id) running ran).1
      | getBurstReq ran =>
          exact (carried.getBurstReq (fun _ => True) trivial (fun _ _ _ _ _ => id) running ran).1
      | sendBurstResp ran =>
          exact (carried.sendBurstResp (fun _ => True) trivial (fun _ _ _ _ _ => id) running ran).1
      | start notYet phase =>
          exact carried.runAcc serves running
            (Resume.start notYet phase : Resume cfg ram clocks _ _ _ _ _)
      | runAcc started ticked phase =>
          exact carried.runAcc serves running
            (Resume.runAcc started ticked phase : Resume cfg ram clocks _ _ _ _ _)
  | interfere used => exact carried.use used
  | advance waiting => exact carried.advance waiting

end Transport

end GraphAccelerator.Memory
