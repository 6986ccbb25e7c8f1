import GraphAccelerator.Memory.Completion

/-!
# The transport of bursts

Four threads of one clock carry a burst from the queue of the accelerator to the
wrapper and back, through one signal a port in each direction; `run_acc` runs on a
clock of its own, and its time stamps never run ahead of the clock of the memory.
-/

namespace GraphAccelerator.Memory

open CheckedLoop Relation

inductive Thread where
  | sendMemReq
  | getMemResp
  | getBurstReq
  | sendBurstResp
  | runAcc
  deriving DecidableEq, Repr

/-- `peClkCycle` and `memClkCycle` -/
structure Clocks where
  peClkCycle : Nat
  memClkCycle : Nat
  pePositive : 0 < peClkCycle
  memPositive : 0 < memClkCycle

def Clocks.period (clocks : Clocks) : Thread → Nat
  | .runAcc => clocks.memClkCycle
  | _ => clocks.peClkCycle

/-- The wrapper with `run_acc` and the memory, the queues of `pe`, and the signals
between them, where `none` is the value -1.  Three fields are history variables: the
pushes to both queues, and the ports whose response signal was not written. -/
structure Transport (Mem : Type) where
  sys : MemSystem Mem
  started : Bool := false
  burstReqQueue : Port → List Nat := fun _ => []
  burstRespQueue : Port → List Nat := fun _ => []
  burstReq : Port → Kernel.Signal (Option Nat) := fun _ => ⟨none, none⟩
  burstResp : Port → Kernel.Signal (Option Nat) := fun _ => ⟨none, none⟩
  pushed : Port → List Nat := fun _ => []
  answered : Port → List Nat := fun _ => []
  unwritten : List Port := []

namespace Transport

variable {Mem : Type}

/-- The body of the loop of `pe::sendMemReq`. -/
def sendMemReqPort (now : Int) (s : Transport Mem) (i : Port) : Option (Transport Mem) :=
  match s.burstReqQueue i with
  | [] => some { s with
      burstReq := Function.update s.burstReq i ((s.burstReq i).write none) }
  | burstIdx :: rest => do
      let op ← s.sys.w.bursts[burstIdx]?
      return { s with
        sys.w.bursts := s.sys.w.bursts.set burstIdx { op with departPeTime := now }
        burstReq := Function.update s.burstReq i ((s.burstReq i).write (some burstIdx))
        burstReqQueue := Function.update s.burstReqQueue i rest }

def sendMemReq (now : Int) (s : Transport Mem) : Option (Transport Mem) :=
  (List.finRange 8).foldlM (sendMemReqPort now) s

/-- The body of the loop of `pe::getMemResp`. -/
def getMemRespPort (now : Int) (s : Transport Mem) (i : Port) : Option (Transport Mem) :=
  match (s.burstResp i).current with
  | none => some s
  | some burstIdx => do
      let op ← s.sys.w.bursts[burstIdx]?
      return { s with
        sys.w.bursts := s.sys.w.bursts.set burstIdx { op with arrivePeTime := now }
        burstRespQueue := Function.update s.burstRespQueue i (s.burstRespQueue i ++ [burstIdx])
        answered := Function.update s.answered i (s.answered i ++ [burstIdx]) }

def getMemResp (now : Int) (s : Transport Mem) : Option (Transport Mem) :=
  (List.finRange 8).foldlM (getMemRespPort now) s

/-- `MemWrapper::getBurstReq` on the values of the signals. -/
def getBurstReq (cfg : BurstCfg) (s : Transport Mem) : Option (Transport Mem) := do
  let w ← s.sys.w.getBurstReq cfg fun i => (s.burstReq i).current
  return { s with sys.w := w }

/-- The body of the loop of `MemWrapper::sendBurstResp`; a signal that is not written
keeps its value. -/
def sendBurstRespPort (now : Int) (s : Transport Mem) (i : Port) : Option (Transport Mem) := do
  let (w, written) ← s.sys.w.sendBurstRespPort now i
  match written with
  | some value => return { s with
      sys.w := w
      burstResp := Function.update s.burstResp i ((s.burstResp i).write value) }
  | none => return { s with
      sys.w := w
      unwritten := s.unwritten ++ [i] }

def sendBurstResp (now : Int) (s : Transport Mem) : Option (Transport Mem) :=
  (List.finRange 8).foldlM (sendBurstRespPort now) s

def settle (s : Transport Mem) : Transport Mem :=
  { s with
    burstReq := fun i => (s.burstReq i).settle
    burstResp := fun i => (s.burstResp i).settle }

inductive Resume (cfg : BurstCfg) (ram : Ramulator Mem) (clocks : Clocks) :
    Thread → Nat → Transport Mem → Transport Mem → Nat → Prop
  | sendMemReq {now : Nat} {s after : Transport Mem} : s.sendMemReq now = some after →
      Resume cfg ram clocks .sendMemReq now s after clocks.peClkCycle
  | getMemResp {now : Nat} {s after : Transport Mem} : s.getMemResp now = some after →
      Resume cfg ram clocks .getMemResp now s after clocks.peClkCycle
  | getBurstReq {now : Nat} {s after : Transport Mem} : s.getBurstReq cfg = some after →
      Resume cfg ram clocks .getBurstReq now s after clocks.peClkCycle
  | sendBurstResp {now : Nat} {s after : Transport Mem} : s.sendBurstResp now = some after →
      Resume cfg ram clocks .sendBurstResp now s after clocks.peClkCycle
  | start {now : Nat} {s : Transport Mem} {sys : MemSystem Mem} : s.started = false →
      SendPhase ram now s.sys sys →
      Resume cfg ram clocks .runAcc now s { s with sys, started := true } clocks.memClkCycle
  | runAcc {now : Nat} {s : Transport Mem} {ticked sys : MemSystem Mem} : s.started = true →
      TickPhase ram clocks.memClkCycle s.sys ticked → SendPhase ram now ticked sys →
      Resume cfg ram clocks .runAcc now s { s with sys } clocks.memClkCycle

/-- What the other threads of `pe` do: they create bursts, push each once to the queue
of its port, a write with its data, and consume responses. -/
inductive Use (cfg : BurstCfg) : Nat → Transport Mem → Transport Mem → Prop
  | create {now : Nat} {s : Transport Mem} {op created : BurstOp} {reqIdx : Nat} :
      op.type = .read ∨ op.type = .write → op.reqVec = [] → op.addrVec = [] →
      op.burstIdx = s.sys.w.bursts.length →
      newBurst cfg op s.sys.w.reqIdx = some (created, reqIdx) →
      Use cfg now s
        { s with sys.w := { s.sys.w with bursts := s.sys.w.bursts ++ [created], reqIdx } }
  | push {now : Nat} {s : Transport Mem} {burstIdx : Nat} {op : BurstOp} {data : List Byte} :
      s.sys.w.bursts[burstIdx]? = some op → burstIdx ∉ s.pushed op.portIdx →
      Use cfg now s { s with
        sys.w.bursts := s.sys.w.bursts.set burstIdx { op with data }
        burstReqQueue := Function.update s.burstReqQueue op.portIdx
          (s.burstReqQueue op.portIdx ++ [burstIdx])
        pushed := Function.update s.pushed op.portIdx (s.pushed op.portIdx ++ [burstIdx]) }
  | consume {now : Nat} {s : Transport Mem} {i : Port} :
      Use cfg now s { s with
        burstRespQueue := Function.update s.burstRespQueue i (s.burstRespQueue i).tail }

def Step (cfg : BurstCfg) (ram : Ramulator Mem) (clocks : Clocks) :
    Kernel.Timed Thread (Transport Mem) → Kernel.Timed Thread (Transport Mem) → Prop :=
  Kernel.Step (Resume cfg ram clocks) (Use cfg) settle

structure Initial (ledger : Ledger Mem) (t : Kernel.Timed Thread (Transport Mem)) : Prop where
  now : t.now = 0
  due : ∀ thread, t.due thread = 0
  sys : Memory.Initial ledger t.state.sys
  clk : ledger.clk t.state.sys.mem = 0
  idle : t.state = { sys := t.state.sys }

def reqUnderWay (due : Thread → Nat) (s : Transport Mem) (i : Port) : List Nat :=
  ((s.burstReq i).unread (due .sendMemReq) (due .getBurstReq)).filterMap id

def respUnderWay (due : Thread → Nat) (s : Transport Mem) (i : Port) : List Nat :=
  ((s.burstResp i).unread (due .sendBurstResp) (due .getMemResp)).filterMap id

end Transport

section Timing

variable {Mem : Type} {cfg : BurstCfg} {ledger : Ledger Mem} {ram : Ramulator Mem}
variable {memClkCycle : Nat} {now : Int}

def MemWrapper.Ready (now : Int) (w : MemWrapper) : Prop :=
  ∀ i, ∀ idx ∈ w.burstRespQueue i, ∃ op, w.bursts[idx]? = some op ∧ op.departMemTime ≤ now

/-- The time stamps of `run_acc` never run ahead of the memory's clock: not for the
request it holds back, nor for the reads in the memory, nor for a completed burst. -/
structure Timely (memClkCycle : Nat) (ledger : Ledger Mem) (now : Int) (s : MemSystem Mem) :
    Prop where
  held : s.acc.stall = true → s.acc.req.udf.arriveMemTime ≤ memClkCycle * ledger.clk s.mem
  outstanding : ∀ entry ∈ ledger.outstanding s.mem, entry.1.arriveMemTime ≤ memClkCycle * entry.2
  ready : s.w.Ready now

theorem MemWrapper.Ready.later {w : MemWrapper} (ready : w.Ready now) {later : Int}
    (notBefore : now ≤ later) : w.Ready later := fun i idx completed =>
  let ⟨op, present, due⟩ := ready i idx completed
  ⟨op, present, due.trans notBefore⟩

theorem MemWrapper.Ready.not_early {w : MemWrapper} (ready : w.Ready now) (i : Port) :
    w.found now i ≠ .early := by
  rw [MemWrapper.found]
  cases w.burstReqQueue i with
  | nil => simp
  | cons idx rest =>
      dsimp only
      split
      · rename_i completed
        obtain ⟨op, present, due⟩ := ready i idx completed
        rw [if_pos ⟨op, present, due⟩]
        decide
      · decide

theorem MemWrapper.Ready.set {w : MemWrapper} (ready : w.Ready now) {idx : Nat}
    {op other : BurstOp} (present : w.bursts[idx]? = some op)
    (depart : other.departMemTime = op.departMemTime) :
    MemWrapper.Ready now { w with bursts := w.bursts.set idx other } := by
  intro i completed membership
  obtain ⟨old, found, due⟩ := ready i completed membership
  by_cases same : completed = idx
  · subst same
    refine ⟨other, List.getElem?_set_self (List.getElem?_eq_some_iff.mp present).1, ?_⟩
    rw [present, Option.some.injEq] at found
    rw [depart, found]
    exact due
  · exact ⟨old, by rw [List.getElem?_set_ne (Ne.symm same), found], due⟩

theorem MemWrapper.Ready.sendBurstRespPort {w after : MemWrapper} (ready : w.Ready now) {i : Port}
    {written : Option (Option Nat)} (ran : w.sendBurstRespPort now i = some (after, written)) :
    after.Ready now := by
  rcases sendBurstRespPort_cases ran with ⟨rfl, _⟩ | ⟨idx, _, op, _, _, present, _, answer, _⟩ |
    ⟨_, _, _, _, _, _, _, rfl, _⟩
  · exact ready
  · obtain ⟨other, ramData, _, depart, _, rfl⟩ := answer_cases answer
    intro j k membership
    refine ready.set present depart j k ?_
    by_cases port : j = i
    · subst port
      exact List.mem_of_mem_erase (by simpa using membership)
    · simpa [port] using membership
  · exact ready

theorem MemWrapper.Ready.account {w after : MemWrapper} (ready : w.Ready now) {udf : UDF}
    (departed : udf.departMemTime ≤ now) (accounted : w.account udf = some after) :
    after.Ready now := by
  obtain ⟨op, counted, present, _, outcome⟩ := account_cases accounted
  have self : (w.bursts.set udf.burstIdx counted)[udf.burstIdx]? = some counted :=
    List.getElem?_set_self (List.getElem?_eq_some_iff.mp present).1
  rcases outcome with ⟨_, depart, rfl⟩ | ⟨_, depart, rfl⟩
  · intro i idx membership
    by_cases same : idx = udf.burstIdx
    · subst same
      exact ⟨counted, self, depart ▸ departed⟩
    · have earlier : idx ∈ w.burstRespQueue i := by
        by_cases port : i = udf.portIdx
        · subst port
          simpa [same] using membership
        · simpa [port] using membership
      obtain ⟨old, found, due⟩ := ready i idx earlier
      exact ⟨old, by rw [List.getElem?_set_ne (Ne.symm same), found], due⟩
  · exact ready.set present depart

theorem Timely.sendPhase {s after : MemSystem Mem} (timely : Timely memClkCycle ledger now s)
    (clock : now = memClkCycle * ledger.clk s.mem)
    (lawful : ∀ {req accepted mem}, ram.send s.mem req accepted mem →
      SendLaw ledger s.mem req accepted mem)
    (phase : SendPhase ram now s after) :
    Timely memClkCycle ledger now after ∧ ledger.clk after.mem = ledger.clk s.mem := by
  have fetched : (getMemReq now s).mem = s.mem ∧ (getMemReq now s).w.Ready now ∧
      ((getMemReq now s).acc.success = true →
        (getMemReq now s).acc.req.udf.arriveMemTime ≤ memClkCycle * ledger.clk s.mem) ∧
      ((getMemReq now s).acc.stall = true →
        (getMemReq now s).acc.req.udf.arriveMemTime ≤ memClkCycle * ledger.clk s.mem) := by
    cases stalled : s.acc.stall with
    | true =>
        rw [getMemReq, if_pos stalled]
        exact ⟨rfl, timely.ready, fun _ => timely.held stalled, timely.held⟩
    | false =>
        rw [getMemReq, if_neg (by simp [stalled])]
        cases s.w.reqQueue with
        | nil => exact ⟨rfl, timely.ready, by simp, fun stall => by simp [stalled] at stall⟩
        | cons tmp rest =>
            exact ⟨rfl, timely.ready, fun _ => le_of_eq clock, fun _ => le_of_eq clock⟩
  obtain ⟨memEq, ready, taken, held⟩ := fetched
  cases phase with
  | idle empty =>
      exact ⟨⟨by rw [memEq]; exact held, by rw [memEq]; exact timely.outstanding, ready⟩,
        by rw [memEq]⟩
  | @send _ accepted mem success sent outcome =>
      have law := lawful sent
      have outstanding : ∀ entry ∈ ledger.outstanding mem,
          entry.1.arriveMemTime ≤ memClkCycle * entry.2 := by
        intro entry membership
        rw [law.outstanding, Multiset.mem_add] at membership
        rcases membership with new | old
        · split at new
          · rw [Multiset.mem_singleton.mp new]
            exact taken success
          · simp at new
        · exact timely.outstanding entry old
      rcases afterSend_cases outcome with ⟨_, rfl⟩ | ⟨_, _, w, accounted, rfl⟩ | ⟨_, _, rfl⟩
      · exact ⟨⟨fun _ => by rw [law.clk]; exact taken success, outstanding, ready⟩, law.clk⟩
      · exact ⟨⟨by simp, outstanding, ready.account (Int.le_refl now) accounted⟩, law.clk⟩
      · exact ⟨⟨by simp, outstanding, ready⟩, law.clk⟩

/-- A read is called back at its departure or later, and by then as much time has
passed as its latency says. -/
theorem Timely.callback {s : MemSystem Mem} (timely : Timely memClkCycle ledger now s)
    {callbacks : List Request} {mem : Mem} (law : TickLaw ledger s.mem callbacks mem)
    {later : Int} (clock : later = memClkCycle * (ledger.clk s.mem + 1 : Nat)) {r : Request}
    (called : r ∈ callbacks) : (r.stamp memClkCycle).departMemTime ≤ later := by
  have arrived : r.udf.arriveMemTime ≤ memClkCycle * r.arrive := by
    refine timely.outstanding (r.udf, r.arrive) ?_
    rw [law.outstanding]
    exact Multiset.mem_add.mpr (.inl (Multiset.mem_coe.mpr (List.mem_map.mpr ⟨r, called, rfl⟩)))
  have departed : (memClkCycle : Int) * r.depart ≤ later := by
    rw [clock, ← law.clk]
    exact Int.mul_le_mul_of_nonneg_left (law.departed r called) (by omega)
  show r.udf.arriveMemTime + memClkCycle * (r.depart - r.arrive) ≤ later
  rw [Int.mul_sub]
  omega

theorem Timely.tickPhase {s after : MemSystem Mem} (timely : Timely memClkCycle ledger now s)
    (clock : now = memClkCycle * (ledger.clk s.mem + 1 : Nat))
    (lawful : ∀ {callbacks mem}, ram.tick s.mem callbacks mem →
      TickLaw ledger s.mem callbacks mem)
    (phase : TickPhase ram memClkCycle s after) :
    Timely memClkCycle ledger now after ∧ ledger.clk after.mem = ledger.clk s.mem + 1 := by
  cases phase with
  | @tick callbacks mem w ticked ran =>
      have law := lawful ticked
      refine ⟨⟨fun stall => ?_, fun entry membership => ?_, ?_⟩, law.clk⟩
      · refine (timely.held stall).trans ?_
        exact Int.mul_le_mul_of_nonneg_left (by rw [law.clk]; omega) (by omega)
      · refine timely.outstanding entry ?_
        rw [law.outstanding]
        exact Multiset.mem_add.mpr (.inr membership)
      · refine foldlM_invariant (fun _ next => next.Ready now) ran timely.ready ?_
        intro done r rest before next split ready stepped
        rw [readComplete_eq] at stepped
        exact ready.account (timely.callback law clock (by simp [split])) stepped

end Timing

end GraphAccelerator.Memory
