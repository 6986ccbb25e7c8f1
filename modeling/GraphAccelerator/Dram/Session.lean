import GraphAccelerator.Dram.Refreshing

/-!
# Runs of a controller

A controller is used by sending requests to it and by ticking it, in any order.  In every
such run no assertion fails.  Every read that was accepted is called back once, after a `RD`
to its place or because a write to its address was queued; every write that was accepted is
queued until a `WR` to its place is issued; and the statistics count these commands.
-/

namespace GraphAccelerator.Dram

open GraphAccelerator.Memory (QueueKind RequestType UDF)

inductive Op (Req : Type) where
  | send (req : Req)
  | tick
  deriving DecidableEq, Repr

def Op.cycles {Req : Type} : Op Req → Nat
  | .send _ => 0
  | .tick => 1

structure Session (Command State : Type) where
  ctrl : Controller Command State
  accepted : List Request := []
  called : List Request := []

namespace Session

variable {Command State : Type} [DecidableEq Command] (spec : Standard Command State)

def perform (policy : Policy) (s : Session Command State) :
    Op Request → Option (Session Command State)
  | .send req =>
      let (ctrl, accepted) := s.ctrl.enqueue req
      some { s with
        ctrl
        accepted := if accepted then s.accepted ++ [{ req with arrive := s.ctrl.clk }]
          else s.accepted }
  | .tick => do
      let (ctrl, callbacks) ← s.ctrl.tick spec policy
      return { s with ctrl, called := s.called ++ callbacks }

def new (id : Nat) : Session Command State where
  ctrl := { channel := DRAM.channel spec id }

def run (policy : Policy) (ops : List (Op Request)) (s : Session Command State) :
    Option (Session Command State) :=
  ops.foldlM (perform spec policy) s

end Session

/-- What identifies a request in a controller. -/
def Request.ident (r : Request) : RequestType × Nat × UDF × Int × List Int :=
  (r.type, r.addr, r.udf, r.arrive, r.addrVec)

def Issue.stamp {Command : Type} (issue : Issue Command) : List Int × Int := (issue.addr, issue.clk)

namespace Ddr3

def issuesOf (cmd : Command) (log : List (Issue Command)) : List (Issue Command) :=
  log.filter fun issue => issue.cmd = cmd

/-- The reads that were answered: called back, or waiting for their departure. -/
def answered (s : Session Command State) : List Request := s.called ++ s.ctrl.pending

/-- The read was answered by a queued write, without an access to a row. -/
def Forwarded (req : Request) : Prop := ¬ req.depart - req.arrive > 1

instance (req : Request) : Decidable (Forwarded req) := inferInstanceAs (Decidable (¬ _))

/-- No request is lost, and none is served twice. -/
structure Conserved (latency : Nat) (s : Session Command State) : Prop where
  reads : ((s.accepted.filter fun req => req.type = .read).map Request.ident).Perm
    ((s.ctrl.readq ++ answered s).map Request.ident)
  writes : ((s.accepted.filter fun req => req.type = .write).map Request.addrVec).Perm
    (s.ctrl.writeq.map Request.addrVec ++ (issuesOf .wr s.ctrl.trace).map Issue.addr)
  accesses : (((answered s).filter fun req => !decide (Forwarded req)).map
      fun req => (req.addrVec, req.depart - (latency : Int))).Perm
    ((issuesOf .rd s.ctrl.trace).map Issue.stamp)
  queued : s.ctrl.writeq.map Request.ident ⊆ s.accepted.map Request.ident
  forwards : ∀ read ∈ answered s, Forwarded read → read.depart = read.arrive + 1 ∧
    ∃ write ∈ s.accepted, write.type = .write ∧ write.addr = read.addr ∧
      write.arrive ≤ read.arrive

/-- The queues are bounded, and a queued read came before every queued write to its address. -/
structure Queued (s : Session Command State) : Prop where
  readq : s.ctrl.readq.length ≤ 32
  writeq : s.ctrl.writeq.length ≤ 32
  order : ∀ read ∈ s.ctrl.readq, ∀ write ∈ s.ctrl.writeq, read.addr = write.addr →
    read.arrive ≤ write.arrive

def Timely (latency : Nat) (c : Controller Command State) : Prop :=
  ∀ read ∈ c.pending, read.depart ≤ c.clk + latency

def begunOf (cmd : Command) (kind : QueueKind) (c : Controller Command State) : Nat :=
  (issuesOf cmd c.trace).length + (served (c.queue kind)).length

/-- The statistics count what was begun. -/
structure Counted (s : Session Command State) : Prop where
  rows : s.ctrl.stats.rowHits + s.ctrl.stats.rowMisses + s.ctrl.stats.rowConflicts =
    begunOf .rd .readq s.ctrl + begunOf .wr .writeq s.ctrl
  readBytes : s.ctrl.stats.readTransactionBytes = 64 * begunOf .rd .readq s.ctrl
  writeBytes : s.ctrl.stats.writeTransactionBytes = 64 * begunOf .wr .writeq s.ctrl
  latencies : s.ctrl.stats.readLatencySum = latencySum s.called

section Steps

variable {org : Org} {speed : Speed} {channels ranks id : Nat} {c after : Controller Command State}
  {kind : QueueKind} {i : Nat} {req : Request} {cmd : Command} {s : Session Command State}

theorem nextCommand_cases (banks : Nat) (log : List (Issue Command)) (type : RequestType)
    (addr : List Int) :
    nextCommand banks log type addr = translate type ∨
      nextCommand banks log type addr ∈ [Command.act, .pre, .prea] := by
  unfold nextCommand firstCommand
  split
  · rename_i isRefresh
    subst isRefresh
    split <;> simp [translate]
  · split
    · simp
    · split <;> simp

theorem Issues.cases (issues : Issues org speed channels ranks id c after kind i req cmd) :
    (req.type = .read ∧ kind = .readq ∧ cmd = .rd) ∨
      (req.type = .write ∧ kind = .writeq ∧ cmd = .wr) ∨
      (kind = .otherq ∧ cmd = .ref) ∨
      (cmd ≠ translate req.type ∧ cmd ∈ [Command.act, .pre, .prea]) := by
  have sameKind := issues.sameKind
  rcases nextCommand_cases (orgTable org).bank c.trace req.type req.addrVec with last | prepares
  · have last := issues.next.trans last
    rcases issues.fits with ⟨isRead | isWrite, _⟩ | ⟨isRefresh, _⟩
    · exact .inl ⟨isRead, by rw [← sameKind, isRead]; rfl, by rw [last, isRead]; rfl⟩
    · exact .inr (.inl ⟨isWrite, by rw [← sameKind, isWrite]; rfl, by rw [last, isWrite]; rfl⟩)
    · exact .inr (.inr (.inl ⟨by rw [← sameKind, isRefresh]; rfl, by rw [last, isRefresh]; rfl⟩))
  · rw [← issues.next] at prepares
    refine .inr (.inr (.inr ⟨fun last => ?_, prepares⟩))
    rw [last] at prepares
    rcases issues.fits with ⟨isRead | isWrite, _⟩ | ⟨isRefresh, _⟩ <;> simp_all [translate]

theorem Issues.stays {Value : Type} {f : Request → Value}
    (issues : Issues org speed channels ranks id c after kind i req cmd) (other : QueueKind)
    (same : f { req with isFirstCommand := false } = f req)
    (unfinished : cmd ≠ translate req.type ∨ other ≠ kind) :
    (after.queue other).map f = (c.queue other).map f := by
  by_cases own : other = kind
  · subst own
    rw [issues.queue_map same, if_neg (unfinished.resolve_right (not_not.mpr rfl))]
  · rw [issues.others other own]

theorem Issues.queued (issues : Issues org speed channels ranks id c after kind i req cmd)
    (other : QueueKind) {r : Request} (present : r ∈ after.queue other) :
    ∃ old ∈ c.queue other, old.ident = r.ident := by
  by_cases own : other = kind
  · subst own
    rw [issues.own] at present
    split at present
    · exact ⟨r, List.mem_of_mem_eraseIdx present, rfl⟩
    · rcases List.mem_or_eq_of_mem_set present with old | rfl
      · exact ⟨r, old, rfl⟩
      · exact ⟨req, List.mem_of_getElem? issues.found, rfl⟩
  · rw [issues.others other own] at present
    exact ⟨r, present, rfl⟩

theorem Issues.queue_length (issues : Issues org speed channels ranks id c after kind i req cmd)
    (other : QueueKind) : (after.queue other).length ≤ (c.queue other).length := by
  by_cases own : other = kind
  · subst own
    rw [issues.own]
    split
    · exact (List.eraseIdx_sublist _ _).length_le
    · rw [List.length_set]
  · rw [issues.others other own]

/-- A request enters service with its first command and leaves it with its last one. -/
theorem Issues.served_length (issues : Issues org speed channels ranks id c after kind i req cmd) :
    (served (after.queue kind)).length + (if cmd = translate req.type then 1 else 0) =
      (served (c.queue kind)).length + if req.isFirstCommand then 1 else 0 := by
  let begun : Request := { req with isFirstCommand := false }
  obtain ⟨bound, here⟩ := List.getElem?_eq_some_iff.mp issues.found
  have begins : (served ((c.queue kind).set i begun)).length =
      (served (c.queue kind)).length + if req.isFirstCommand then 1 else 0 := by
    cases first : req.isFirstCommand with
    | true => exact (served_set issues.found first).length_eq
    | false =>
        have same : begun = req := by
          show { req with isFirstCommand := false } = req
          rw [← first]
        rw [same, ← here, List.set_getElem_self]
        rfl
  rw [issues.own, ← begins]
  split
  · have leaves := served_eraseIdx (List.getElem?_set_self (a := begun) bound) rfl
    rw [List.eraseIdx_set_eq] at leaves
    exact leaves.length_eq.symm
  · rfl

theorem Issues.begun (issues : Issues org speed channels ranks id c after kind i req cmd)
    {final : Command} {type : RequestType} (translated : translate type = final)
    (access : type = .read ∨ type = .write) :
    begunOf final type.queue after = begunOf final type.queue c +
      if req.type = type ∧ req.isFirstCommand then 1 else 0 := by
  subst translated
  have logged : (issuesOf (translate type) after.trace).length =
      (issuesOf (translate type) c.trace).length + if cmd = translate type then 1 else 0 := by
    rw [issues.trace, issuesOf, List.filter_cons]
    by_cases same : cmd = translate type <;> simp [same, issuesOf]
  by_cases own : req.type = type
  · have sameKind := issues.sameKind
    rw [own] at sameKind
    have served := issues.served_length
    rw [own] at served
    rw [begunOf, begunOf, logged, sameKind]
    simp only [own, true_and]
    omega
  · have otherKind : type.queue ≠ kind := by
      rw [← issues.sameKind]
      rcases issues.fits with ⟨isRead | isWrite, _⟩ | ⟨isRefresh, _⟩
      · rcases access with rfl | rfl <;> simp_all [Memory.RequestType.queue]
      · rcases access with rfl | rfl <;> simp_all [Memory.RequestType.queue]
      · rcases access with rfl | rfl <;> simp [isRefresh, Memory.RequestType.queue]
    have otherCmd : cmd ≠ translate type := by
      rintro rfl
      rcases issues.cases with ⟨isRead, _, same⟩ | ⟨isWrite, _, same⟩ | ⟨_, same⟩ | ⟨_, prep⟩
      all_goals rcases access with rfl | rfl <;> simp_all [translate]
    rw [begunOf, begunOf, logged, issues.others _ otherKind, if_neg otherCmd,
      if_neg (fun both => own both.1), Nat.add_zero, Nat.add_zero]

theorem countAccess_counts (log : List (Issue Command)) (req : Request) (stats : ChannelStats) :
    let counted := countAccess log req stats
    let reads := if req.type = .read then 1 else 0
    let writes := if req.type = .write then 1 else 0
    counted.rowHits + counted.rowMisses + counted.rowConflicts =
        stats.rowHits + stats.rowMisses + stats.rowConflicts + reads + writes ∧
      counted.readTransactionBytes = stats.readTransactionBytes + 64 * reads ∧
      counted.writeTransactionBytes = stats.writeTransactionBytes + 64 * writes ∧
      counted.readLatencySum = stats.readLatencySum := by
  have rows : (countOpen log req stats).rowHits + (countOpen log req stats).rowMisses +
      (countOpen log req stats).rowConflicts =
        stats.rowHits + stats.rowMisses + stats.rowConflicts + 1 := by
    unfold countOpen
    split
    · dsimp only
      omega
    · split <;> (dsimp only; omega)
  have others : (countOpen log req stats).readTransactionBytes = stats.readTransactionBytes ∧
      (countOpen log req stats).writeTransactionBytes = stats.writeTransactionBytes ∧
      (countOpen log req stats).readLatencySum = stats.readLatencySum := by
    unfold countOpen
    split
    · exact ⟨rfl, rfl, rfl⟩
    · split <;> exact ⟨rfl, rfl, rfl⟩
  obtain ⟨readBytes, writeBytes, latencies⟩ := others
  by_cases isRead : req.type = .read
  · simp [countAccess, isRead, rows, readBytes, writeBytes, latencies]
  · by_cases isWrite : req.type = .write
    · simp [countAccess, isWrite, rows, readBytes, writeBytes, latencies]
    · simp [countAccess, isRead, isWrite]

end Steps

end Ddr3

/-- The three things that can happen to a request that is sent. -/
theorem Controller.enqueue_cases {Command State : Type} (c : Controller Command State)
    (req : Request) :
    ((c.queue req.type.queue).length = 32 ∧ c.enqueue req = (c, false)) ∨
      ((c.queue req.type.queue).length ≠ 32 ∧ req.type = .read ∧
        (∃ write ∈ c.writeq, write.addr = req.addr) ∧
        c.enqueue req = ({ c with pending := c.pending ++
          [{ req with arrive := (c.clk : Int), depart := (c.clk : Int) + 1 }] }, true)) ∨
      ((c.queue req.type.queue).length ≠ 32 ∧
        (req.type = .read → ∀ write ∈ c.writeq, write.addr ≠ req.addr) ∧
        c.enqueue req = (c.setQueue req.type.queue
          (c.queue req.type.queue ++ [{ req with arrive := (c.clk : Int) }]), true)) := by
  unfold enqueue
  dsimp only
  by_cases full : (c.queue req.type.queue).length = Memory.Controller.queueMax
  · exact .inl ⟨full, if_pos full⟩
  · rw [if_neg full]
    by_cases forwarded : req.type = .read ∧ c.writeq.any (fun wreq => req.addr = wreq.addr)
    · rw [if_pos forwarded]
      obtain ⟨isRead, found⟩ := forwarded
      obtain ⟨write, present, same⟩ := List.any_eq_true.mp found
      exact .inr (.inl ⟨full, isRead, ⟨write, present, (of_decide_eq_true same).symm⟩, rfl⟩)
    · rw [if_neg forwarded]
      refine .inr (.inr ⟨full, fun isRead write present same => forwarded ⟨isRead, ?_⟩, rfl⟩)
      exact List.any_eq_true.mpr ⟨write, present, decide_eq_true same.symm⟩

namespace Ddr3

section Sends

variable {org : Org} {speed : Speed} {channels ranks id : Nat} {req : Request}
  {s : Session Command State} {latency : Nat}

def sent (s : Session Command State) (req : Request) : Session Command State :=
  { s with
    ctrl := (s.ctrl.enqueue req).1
    accepted := if (s.ctrl.enqueue req).2 then s.accepted ++ [{ req with arrive := s.ctrl.clk }]
      else s.accepted }

theorem Conserved.send (conserved : Conserved latency s)
    (sound : Sound org speed channels ranks id s.ctrl)
    (access : req.type = .read ∨ req.type = .write) : Conserved latency (sent s req) := by
  obtain ⟨reads, writes, accesses, queued, forwards⟩ := conserved
  let arrived : Request := { req with arrive := (s.ctrl.clk : Int) }
  have more : ∀ read ∈ answered s, Forwarded read → read.depart = read.arrive + 1 ∧
      ∃ write ∈ s.accepted ++ [arrived], write.type = .write ∧ write.addr = read.addr ∧
        write.arrive ≤ read.arrive := by
    intro read present short
    obtain ⟨departs, write, known, source⟩ := forwards read present short
    exact ⟨departs, write, List.mem_append_left _ known, source⟩
  have known : s.ctrl.writeq.map Request.ident ⊆ (s.accepted ++ [arrived]).map Request.ident := by
    rw [List.map_append]
    exact List.subset_append_of_subset_left _ queued
  rcases s.ctrl.enqueue_cases req with ⟨_, rejected⟩ | ⟨_, isRead, found, forwarded⟩ |
    ⟨_, _, accepted⟩
  · have same : sent s req = s := by simp [sent, rejected]
    rw [same]
    exact ⟨reads, writes, accesses, queued, forwards⟩
  · let answer : Request := { arrived with depart := (s.ctrl.clk : Int) + 1 }
    have next : sent s req = { s with
        ctrl := { s.ctrl with pending := s.ctrl.pending ++ [answer] }
        accepted := s.accepted ++ [arrived] } := by
      simp [sent, forwarded, arrived, answer]
    have answers : answered (sent s req) = answered s ++ [answer] := by
      simp [next, answered]
    have isForwarded : Forwarded answer := by
      show ¬ (s.ctrl.clk : Int) + 1 - s.ctrl.clk > 1
      omega
    refine ⟨?_, ?_, ?_, ?_, ?_⟩
    · rw [answers, next]
      have sameIdent : answer.ident = arrived.ident := rfl
      simpa [arrived, isRead, sameIdent] using reads.append_right [arrived.ident]
    · simpa [next, arrived, isRead] using writes
    · rw [answers, next]
      simpa [isForwarded] using accesses
    · rw [next]
      exact known
    · rw [answers, next]
      intro read present short
      rcases List.mem_append.mp present with old | new
      · exact more read old short
      · obtain rfl := List.mem_singleton.mp new
        obtain ⟨write, present, same⟩ := found
        obtain ⟨sameKind, _, earlier⟩ := sound.queues .writeq write present
        obtain ⟨source, sourceKnown, identical⟩ := List.mem_map.mp (queued (List.mem_map_of_mem present))
        simp only [Request.ident, Prod.mk.injEq] at identical
        obtain ⟨sameType, sameAddr, _, sameArrive, _⟩ := identical
        have isWrite : write.type = .write := Memory.Controller.isWrite sameKind
        exact ⟨rfl, source, List.mem_append_left _ sourceKnown, sameType.trans isWrite,
          sameAddr.trans same, sameArrive.trans_le earlier⟩
  · have next : sent s req = { s with
        ctrl := s.ctrl.setQueue req.type.queue (s.ctrl.queue req.type.queue ++ [arrived])
        accepted := s.accepted ++ [arrived] } := by
      simp [sent, accepted, arrived]
    rcases access with isRead | isWrite
    · have next : sent s req = { s with
          ctrl := { s.ctrl with readq := s.ctrl.readq ++ [arrived] }
          accepted := s.accepted ++ [arrived] } := by rw [next, isRead]; rfl
      rw [next]
      refine ⟨?_, by simpa [arrived, isRead] using writes, accesses, known, more⟩
      show List.Perm _ ((s.ctrl.readq ++ [arrived] ++ answered s).map Request.ident)
      have split := (reads.cons arrived.ident).trans (List.perm_middle.map Request.ident).symm
      simpa [arrived, isRead] using (List.perm_append_singleton _ _).trans split
    · have next : sent s req = { s with
          ctrl := { s.ctrl with writeq := s.ctrl.writeq ++ [arrived] }
          accepted := s.accepted ++ [arrived] } := by rw [next, isWrite]; rfl
      rw [next]
      refine ⟨by simpa [arrived, isWrite, answered] using reads, ?_, accesses, ?_, more⟩
      · have split := (writes.cons arrived.addrVec).trans List.perm_middle.symm
        simpa [arrived, isWrite] using (List.perm_append_singleton _ _).trans split
      · rw [List.map_append]
        exact List.append_subset.mpr ⟨known, by simp⟩

theorem Queued.send (queues : Queued s) (sound : Sound org speed channels ranks id s.ctrl)
    (access : req.type = .read ∨ req.type = .write) : Queued (sent s req) := by
  obtain ⟨readq, writeq, order⟩ := queues
  rcases s.ctrl.enqueue_cases req with ⟨_, rejected⟩ | ⟨_, _, _, forwarded⟩ |
    ⟨room, unforwarded, accepted⟩
  · have same : sent s req = s := by simp [sent, rejected]
    rw [same]
    exact ⟨readq, writeq, order⟩
  · have next : (sent s req).ctrl = (s.ctrl.enqueue req).1 := rfl
    rw [forwarded] at next
    constructor <;> rw [next] <;> assumption
  · have next : (sent s req).ctrl = (s.ctrl.enqueue req).1 := rfl
    rw [accepted] at next
    rcases access with isRead | isWrite
    · rw [isRead] at next room
      have notFull : s.ctrl.readq.length ≠ 32 := room
      refine ⟨?_, ?_, ?_⟩
      · rw [next]
        show (s.ctrl.readq ++ [_]).length ≤ 32
        rw [List.length_append, List.length_singleton]
        omega
      · rw [next]
        exact writeq
      · rw [next]
        intro read present write known same
        rcases List.mem_append.mp present with old | new
        · exact order read old write known same
        · rw [List.mem_singleton.mp new] at same
          exact absurd same.symm (unforwarded isRead write known)
    · rw [isWrite] at next room
      have notFull : s.ctrl.writeq.length ≠ 32 := room
      refine ⟨?_, ?_, ?_⟩
      · rw [next]
        exact readq
      · rw [next]
        show (s.ctrl.writeq ++ [_]).length ≤ 32
        rw [List.length_append, List.length_singleton]
        omega
      · rw [next]
        intro read known write present same
        rcases List.mem_append.mp present with old | new
        · exact order read known write old same
        · rw [List.mem_singleton.mp new]
          exact (sound.queues .readq read known).2.2

theorem Timely.send (timely : Timely latency s.ctrl) (positive : 1 ≤ latency)
    (access : req.type = .read ∨ req.type = .write) : Timely latency (sent s req).ctrl := by
  have next : (sent s req).ctrl = (s.ctrl.enqueue req).1 := rfl
  rcases s.ctrl.enqueue_cases req with ⟨_, rejected⟩ | ⟨_, _, _, forwarded⟩ | ⟨_, _, accepted⟩
  · rw [next, rejected]
    exact timely
  · rw [next, forwarded]
    intro read present
    rcases List.mem_append.mp present with old | new
    · exact timely read old
    · rw [List.mem_singleton.mp new]
      show (s.ctrl.clk : Int) + 1 ≤ s.ctrl.clk + latency
      omega
  · rw [next, accepted]
    rcases access with type | type <;> rw [type] <;> exact timely

theorem Counted.send (counted : Counted s) (access : req.type = .read ∨ req.type = .write)
    (fresh : req.isFirstCommand = true) : Counted (sent s req) := by
  obtain ⟨rows, readBytes, writeBytes, latencies⟩ := counted
  have next : (sent s req).ctrl = (s.ctrl.enqueue req).1 := rfl
  have same : (sent s req).ctrl.stats = s.ctrl.stats ∧
      begunOf .rd .readq (sent s req).ctrl = begunOf .rd .readq s.ctrl ∧
      begunOf .wr .writeq (sent s req).ctrl = begunOf .wr .writeq s.ctrl := by
    rw [next]
    rcases s.ctrl.enqueue_cases req with ⟨_, rejected⟩ | ⟨_, _, _, forwarded⟩ | ⟨_, _, accepted⟩
    · rw [rejected]
      exact ⟨rfl, rfl, rfl⟩
    · rw [forwarded]
      exact ⟨rfl, rfl, rfl⟩
    · rw [accepted]
      rcases access with type | type <;>
        simp [type, Memory.RequestType.queue, Controller.setQueue, begunOf, Controller.queue,
          served, fresh]
  obtain ⟨stats, reads, writes⟩ := same
  exact ⟨by rw [stats, reads, writes, rows], by rw [stats, reads, readBytes],
    by rw [stats, writes, writeBytes], by rw [stats]; exact latencies⟩

end Sends

section Ticks

variable {org : Org} {speed : Speed} {channels ranks id : Nat} {begun after : Controller Command State}
  {callbacks : List Request} {s : Session Command State} {latency : Nat}

theorem answered_begin (begins : Begins org speed channels ranks id s.ctrl begun callbacks) :
    answered { s with ctrl := begun, called := s.called ++ callbacks } = answered s := by
  have calls := begins.calls.pending
  dsimp only at calls
  simp [answered, calls]

theorem Conserved.begin (conserved : Conserved latency s)
    (begins : Begins org speed channels ranks id s.ctrl begun callbacks) :
    Conserved latency { s with ctrl := begun, called := s.called ++ callbacks } := by
  obtain ⟨reads, writes, accesses, queued, forwards⟩ := conserved
  rw [← answered_begin begins] at reads accesses forwards
  exact ⟨by rwa [← begins.readq] at reads, by rwa [← begins.writeq, ← begins.trace] at writes,
    by rwa [← begins.trace] at accesses, by rwa [← begins.writeq] at queued, forwards⟩

theorem Queued.begin (queues : Queued s)
    (begins : Begins org speed channels ranks id s.ctrl begun callbacks) :
    Queued { s with ctrl := begun, called := s.called ++ callbacks } := by
  obtain ⟨readq, writeq, order⟩ := queues
  rw [← begins.readq] at readq order
  rw [← begins.writeq] at writeq order
  exact ⟨readq, writeq, order⟩

theorem latencySum_append (callbacks others : List Request) :
    latencySum (callbacks ++ others) = latencySum callbacks + latencySum others := by
  simp [latencySum]

theorem Counted.begin (counted : Counted s)
    (begins : Begins org speed channels ranks id s.ctrl begun callbacks) :
    Counted { s with ctrl := begun, called := s.called ++ callbacks } := by
  obtain ⟨rows, readBytes, writeBytes, latencies⟩ := counted
  have reads : begunOf .rd .readq begun = begunOf .rd .readq s.ctrl := by
    simp only [begunOf, begins.trace, Controller.queue, begins.readq]
  have writes : begunOf .wr .writeq begun = begunOf .wr .writeq s.ctrl := by
    simp only [begunOf, begins.trace, Controller.queue, begins.writeq]
  have transactions := begins.transactions
  simp only [ChannelStats.transactions, Prod.mk.injEq] at transactions
  obtain ⟨hits, misses, conflicts, readSame, writeSame⟩ := transactions
  exact ⟨by rw [hits, misses, conflicts, reads, writes, rows], by rw [readSame, reads, readBytes],
    by rw [writeSame, writes, writeBytes],
    by rw [begins.latencies, latencies, latencySum_append]⟩

theorem Queued.issue {kind : QueueKind} {i : Nat} {req : Request} {cmd : Command}
    (queues : Queued s) (issues : Issues org speed channels ranks id s.ctrl after kind i req cmd) :
    Queued { s with ctrl := after } := by
  refine ⟨(issues.queue_length .readq).trans queues.readq,
    (issues.queue_length .writeq).trans queues.writeq, fun read present write known same => ?_⟩
  obtain ⟨oldRead, readKnown, readIdent⟩ := issues.queued .readq present
  obtain ⟨oldWrite, writeKnown, writeIdent⟩ := issues.queued .writeq known
  simp only [Request.ident, Prod.mk.injEq] at readIdent writeIdent
  rw [← readIdent.2.2.2.1, ← writeIdent.2.2.2.1]
  refine queues.order oldRead readKnown oldWrite writeKnown ?_
  rw [readIdent.2.1, writeIdent.2.1, same]

theorem Timely.begin (timely : Timely latency s.ctrl)
    (begins : Begins org speed channels ranks id s.ctrl begun callbacks) :
    Timely latency begun := by
  have calls := begins.calls.pending
  dsimp only at calls
  intro read present
  have soon := timely read (calls ▸ List.mem_append_right _ present)
  rw [begins.clk]
  omega

theorem Timely.issue {kind : QueueKind} {i : Nat} {req : Request} {cmd : Command}
    (timely : Timely (ddr3 org speed channels ranks).readLatency begun)
    (issues : Issues org speed channels ranks id begun after kind i req cmd) :
    Timely (ddr3 org speed channels ranks).readLatency after := by
  intro read present
  rw [issues.pending] at present
  rw [issues.clk]
  rcases List.mem_append.mp present with old | new
  · exact timely read old
  · split at new
    · unfold completes at new
      split at new
      · rw [List.mem_singleton.mp new]
      · simp at new
    · simp at new

theorem Counted.issue {kind : QueueKind} {i : Nat} {req : Request} {cmd : Command}
    (counted : Counted s) (issues : Issues org speed channels ranks id s.ctrl after kind i req cmd) :
    Counted { s with ctrl := after } := by
  obtain ⟨rows, readBytes, writeBytes, latencies⟩ := counted
  have reads : begunOf .rd .readq after = begunOf .rd .readq s.ctrl + _ :=
    issues.begun rfl (.inl rfl)
  have writes : begunOf .wr .writeq after = begunOf .wr .writeq s.ctrl + _ :=
    issues.begun rfl (.inr rfl)
  have stats := issues.stats
  rw [countFirst] at stats
  cases first : req.isFirstCommand with
  | false =>
      simp only [first, Bool.false_eq_true, if_false, and_false, Nat.add_zero] at stats reads writes
      constructor <;> simp only [stats, reads, writes] <;> assumption
  | true =>
      simp only [first, if_true, and_true] at stats reads writes
      obtain ⟨rowsMore, readMore, writeMore, sameLatency⟩ :=
        countAccess_counts s.ctrl.trace req s.ctrl.stats
      constructor <;> simp only [stats, reads, writes]
      · rw [rowsMore, rows]
        omega
      · rw [readMore, readBytes, Nat.mul_add]
      · rw [writeMore, writeBytes, Nat.mul_add]
      · rw [sameLatency]
        exact latencies

theorem map_eraseIdx_perm {Item Value : Type} {f : Item → Value} {items : List Item} {i : Nat}
    {item : Item} (found : items[i]? = some item) :
    (items.map f).Perm (f item :: (items.map f).eraseIdx i) := by
  obtain ⟨bound, rfl⟩ := List.getElem?_eq_some_iff.mp found
  have split := (List.getElem_cons_eraseIdx_perm (l := items.map f) (by simpa using bound)).symm
  rwa [List.getElem_map] at split

theorem Conserved.keep (conserved : Conserved latency s) {cmd : Command} {addr : List Int}
    (neither : cmd ≠ .rd ∧ cmd ≠ .wr) (pending : after.pending = s.ctrl.pending)
    (readq : after.readq.map Request.ident = s.ctrl.readq.map Request.ident)
    (writeq : after.writeq.map Request.ident = s.ctrl.writeq.map Request.ident)
    (addrs : after.writeq.map Request.addrVec = s.ctrl.writeq.map Request.addrVec)
    (trace : after.trace = ⟨cmd, addr, s.ctrl.clk⟩ :: s.ctrl.trace) :
    Conserved latency { s with ctrl := after } := by
  obtain ⟨reads, writes, accesses, queued, forwards⟩ := conserved
  have answers : answered { s with ctrl := after } = answered s := by
    rw [answered, answered, pending]
  have sameIssues : ∀ final, cmd ≠ final →
      issuesOf final after.trace = issuesOf final s.ctrl.trace := by
    intro final different
    rw [trace, issuesOf, List.filter_cons_of_neg (by simpa using different)]
    rfl
  refine ⟨?_, ?_, ?_, by rwa [writeq], by rwa [answers]⟩
  · rw [answers, List.map_append, readq, ← List.map_append]
    exact reads
  · rw [addrs, sameIssues _ neither.2]
    exact writes
  · rw [answers, sameIssues _ neither.1]
    exact accesses

theorem Conserved.issue {kind : QueueKind} {i : Nat} {req : Request} {cmd : Command}
    (conserved : Conserved (ddr3 org speed channels ranks).readLatency s)
    (issues : Issues org speed channels ranks id s.ctrl after kind i req cmd) :
    Conserved (ddr3 org speed channels ranks).readLatency { s with ctrl := after } := by
  have pending := issues.pending
  have trace := issues.trace
  rcases issues.cases with ⟨isRead, rfl, rfl⟩ | ⟨isWrite, rfl, rfl⟩ | ⟨rfl, rfl⟩ | ⟨prepares, prep⟩
  · let completed : Request := { req with
      isFirstCommand := false
      depart := (s.ctrl.clk : Int) + (ddr3 org speed channels ranks).readLatency }
    have last : Command.rd = translate req.type := by rw [isRead]; rfl
    have pending : after.pending = s.ctrl.pending ++ [completed] := by
      rw [pending, if_pos last, completes, if_pos isRead]
    have answers : answered { s with ctrl := after } = answered s ++ [completed] := by
      rw [answered, answered, pending, List.append_assoc]
    have accessed : ¬ Forwarded completed := by
      have arrived := issues.arrived
      have long := readLatency_gt org speed channels ranks
      show ¬ ¬ (s.ctrl.clk : Int) + (ddr3 org speed channels ranks).readLatency - req.arrive > 1
      omega
    have sameWrites : ∀ {Value : Type} {f : Request → Value},
        f { req with isFirstCommand := false } = f req →
          after.writeq.map f = s.ctrl.writeq.map f :=
      fun same => issues.stays .writeq same (.inr (by simp))
    refine ⟨?_, ?_, ?_, ?_, ?_⟩
    · rw [answers, ← List.append_assoc, List.map_append, List.map_append]
      have leaves : (after.readq.map Request.ident) = (s.ctrl.readq.map Request.ident).eraseIdx i :=
        (issues.queue_map rfl).trans (if_pos last)
      rw [leaves]
      refine conserved.reads.trans ?_
      rw [List.map_append]
      refine ((map_eraseIdx_perm issues.found).append_right _).trans ?_
      exact (List.perm_append_singleton _ _).symm
    · rw [sameWrites rfl, trace]
      exact conserved.writes
    · rw [answers, trace, issuesOf, List.filter_append, List.map_append]
      have stamp : completed.depart - ((ddr3 org speed channels ranks).readLatency : Int) =
          s.ctrl.clk := by
        show (s.ctrl.clk : Int) + _ - _ = _
        omega
      simp only [List.filter_cons, accessed, decide_false, Bool.not_false, if_true, List.filter_nil,
        List.map_cons, List.map_nil, stamp, decide_true, Issue.stamp]
      exact (List.perm_append_singleton _ _).trans (conserved.accesses.cons _)
    · rw [sameWrites rfl]
      exact conserved.queued
    · rw [answers]
      intro read present short
      rcases List.mem_append.mp present with old | new
      · exact conserved.forwards read old short
      · rw [List.mem_singleton.mp new] at short
        exact absurd short accessed
  · have last : Command.wr = translate req.type := by rw [isWrite]; rfl
    have pending : after.pending = s.ctrl.pending := by
      rw [pending, if_pos last, completes, if_neg (by simp [isWrite]), List.append_nil]
    have answers : answered { s with ctrl := after } = answered s := by
      rw [answered, answered, pending]
    have sameReads : after.readq.map Request.ident = s.ctrl.readq.map Request.ident :=
      issues.stays .readq rfl (.inr (by simp))
    have leaves : ∀ {Value : Type} {f : Request → Value},
        f { req with isFirstCommand := false } = f req →
          after.writeq.map f = (s.ctrl.writeq.map f).eraseIdx i :=
      fun same => (issues.queue_map same).trans (if_pos last)
    refine ⟨?_, ?_, ?_, ?_, ?_⟩
    · rw [answers, List.map_append, sameReads, ← List.map_append]
      exact conserved.reads
    · rw [leaves rfl, trace]
      refine conserved.writes.trans ?_
      refine ((map_eraseIdx_perm issues.found).append_right _).trans ?_
      exact List.perm_middle.symm
    · rw [answers, trace]
      exact conserved.accesses
    · rw [leaves rfl]
      exact List.Subset.trans List.eraseIdx_subset conserved.queued
    · rw [answers]
      exact conserved.forwards
  · have others := Memory.Controller.isOther issues.sameKind
    refine conserved.keep (by simp) ?_ (issues.stays .readq rfl (.inr (by simp)))
      (issues.stays .writeq rfl (.inr (by simp)))
      (issues.stays .writeq rfl (.inr (by simp))) trace
    rw [pending, completes, if_neg others.1, ite_self, List.append_nil]
  · have neither : cmd ≠ .rd ∧ cmd ≠ .wr := by
      constructor <;> rintro rfl <;> simp at prep
    refine conserved.keep neither ?_ (issues.stays .readq rfl (.inl prepares))
      (issues.stays .writeq rfl (.inl prepares))
      (issues.stays .writeq rfl (.inl prepares)) trace
    rw [pending, if_neg prepares, List.append_nil]

end Ticks

structure Invariant (org : Org) (speed : Speed) (channels ranks id : Nat)
    (s : Session Command State) : Prop where
  sound : Sound org speed channels ranks id s.ctrl
  paced : Paced org speed ranks id s.ctrl
  conserved : Conserved (ddr3 org speed channels ranks).readLatency s
  queued : Queued s
  timely : Timely (ddr3 org speed channels ranks).readLatency s.ctrl
  counted : Counted s

def Sends (org : Org) (ranks id : Nat) : Op Request → Prop
  | .send req => (req.type = .read ∨ req.type = .write) ∧ Mapped org ranks id req.addrVec ∧
      req.isFirstCommand = true
  | .tick => True

section Runs

variable {org : Org} {speed : Speed} {channels ranks id : Nat} {s : Session Command State}
  {policy : Policy}

theorem Invariant.new (org : Org) (speed : Speed) (channels ranks id : Nat) :
    Invariant org speed channels ranks id (.new (ddr3 org speed channels ranks) id) where
  sound := .start org speed channels ranks id
  paced := .start org speed channels ranks id
  conserved := ⟨.nil, .nil, .nil, by simp [Session.new], by simp [answered, Session.new]⟩
  queued := ⟨by simp [Session.new], by simp [Session.new], by simp [Session.new]⟩
  timely := by simp [Timely, Session.new]
  counted := ⟨rfl, rfl, rfl, rfl⟩

theorem Invariant.tick (invariant : Invariant org speed channels ranks id s)
    (fast : Fast org speed ranks) (policy : Policy) :
    ∃ after callbacks,
      s.ctrl.tick (ddr3 org speed channels ranks) policy = some (after, callbacks) ∧
      callbacks <+: s.ctrl.pending ∧ after.clk = s.ctrl.clk + 1 ∧
      Invariant org speed channels ranks id
        { s with ctrl := after, called := s.called ++ callbacks } := by
  obtain ⟨sound, paced, conserved, queued, timely, counted⟩ := invariant
  obtain ⟨begun, after, callbacks, ticked, begins, _, afterSound, moved⟩ :=
    sound.tick (paced.room fast) policy
  obtain ⟨other, otherCalls, otherTicked, _, afterPaced⟩ := paced.tick sound fast policy
  obtain ⟨rfl, rfl⟩ := Prod.mk.inj (Option.some.inj (ticked.symm.trans otherTicked))
  have first := conserved.begin begins
  have firstQueued := queued.begin begins
  have firstTimely := timely.begin begins
  have firstCounted := counted.begin begins
  refine ⟨after, callbacks, ticked, ⟨_, begins.calls.pending.symm⟩, ?_⟩
  rcases moved with ⟨rfl, _⟩ | ⟨i, req, cmd, _, issues⟩
  · exact ⟨begins.clk, afterSound, afterPaced, first, firstQueued, firstTimely, firstCounted⟩
  · exact ⟨issues.clk.trans begins.clk, afterSound, afterPaced, first.issue issues,
      firstQueued.issue issues, firstTimely.issue issues, firstCounted.issue issues⟩

/-- No assertion fails, and the invariant is kept. -/
theorem Invariant.perform (invariant : Invariant org speed channels ranks id s)
    (fast : Fast org speed ranks) (policy : Policy) {op : Op Request} (sends : Sends org ranks id op) :
    ∃ next, s.perform (ddr3 org speed channels ranks) policy op = some next ∧
      next.ctrl.clk = s.ctrl.clk + op.cycles ∧ Invariant org speed channels ranks id next := by
  cases op with
  | send req =>
      obtain ⟨access, mapped, fresh⟩ := sends
      obtain ⟨sound, paced, conserved, queued, timely, counted⟩ := invariant
      obtain ⟨kept, _, clk, _⟩ := sound.enqueue access mapped fresh
      exact ⟨sent s req, rfl, clk, kept, paced.enqueue sound access mapped fresh,
        conserved.send sound access, queued.send sound access,
        timely.send (readLatency_gt org speed channels ranks).le access, counted.send access fresh⟩
  | tick =>
      obtain ⟨after, callbacks, ticked, _, clk, kept⟩ := invariant.tick fast policy
      exact ⟨_, by rw [Session.perform, ticked]; rfl, clk, kept⟩

theorem Invariant.run (fast : Fast org speed ranks) (policy : Policy) {ops : List (Op Request)}
    (sends : ∀ op ∈ ops, Sends org ranks id op) (invariant : Invariant org speed channels ranks id s) :
    ∃ final, s.run (ddr3 org speed channels ranks) policy ops = some final ∧
      Invariant org speed channels ranks id final :=
  CheckedLoop.foldlM_total _ (fun _ s => Invariant org speed channels ranks id s) ops s invariant
    fun _ op _ _ split kept => by
      obtain ⟨next, performed, _, holds⟩ := kept.perform fast policy (sends op (by simp [split]))
      exact ⟨next, performed, holds⟩

end Runs

end Ddr3

end GraphAccelerator.Dram
