import GraphAccelerator.Dram.Scheduling
import GraphAccelerator.Dram.Serving
import GraphAccelerator.Dram.Rows

/-!
# The safety of a channel

Whatever requests arrive and whatever the scheduler prefers, the commands that a DDR3
controller issues respect the timing parameters and the states of the banks.  The
invariant says that the tree, the table of open rows and the counters of the requests in
service agree with the commands that were issued, so that no assertion fails.
-/

namespace GraphAccelerator.Dram.Ddr3

open GraphAccelerator.Memory (RequestType QueueKind)

def Fits (org : Org) (ranks id : Nat) (type : RequestType) (addr : List Int) : Prop :=
  ((type = .read ∨ type = .write) ∧ Mapped org ranks id addr) ∨
    (type = .refresh ∧ Ranked ranks id addr)

def nextCommand (banks : Nat) (log : List (Issue Command)) (type : RequestType)
    (addr : List Int) : Command :=
  if type = .refresh then
    if ∃ b < banks, (openAfter (addr.take 2 ++ [(b : Int)]) log).isSome then .prea else .ref
  else firstCommand (openAfter (addr.take 3) log) (translate type) (addr.getD 3 0)

def Hits (log : List (Issue Command)) (type : RequestType) (addr : List Int) : Prop :=
  type ≠ .refresh ∧ openAfter (addr.take 3) log = some (addr.getD 3 0)

def Opens (log : List (Issue Command)) (type : RequestType) (addr : List Int) : Prop :=
  type ≠ .refresh ∧ (openAfter (addr.take 3) log).isSome

instance (log : List (Issue Command)) (type : RequestType) (addr : List Int) :
    Decidable (Hits log type addr) := inferInstanceAs (Decidable (_ ∧ _))

instance (log : List (Issue Command)) (type : RequestType) (addr : List Int) :
    Decidable (Opens log type addr) := inferInstanceAs (Decidable (_ ∧ _))

/-- A sequence of commands, the newest first, that keeps to the protocol and to the timing
of the standard. -/
inductive Legal (org : Org) (speed : Speed) (channels ranks id : Nat) :
    List (Issue Command) → Prop
  | nil : Legal org speed channels ranks id []
  | issue {log : List (Issue Command)} {cmd : Command} {addr : List Int} {clk : Int} :
      Legal org speed channels ranks id log → Targets org ranks id cmd addr →
      Permits (orgTable org).bank log cmd addr →
      TimingAllows (ddr3 org speed channels ranks) log cmd addr clk →
      (∀ earlier ∈ log, earlier.clk < clk) →
      Legal org speed channels ranks id (⟨cmd, addr, clk⟩ :: log)

section Lookups

variable {org : Org} {speed : Speed} {channels ranks id : Nat} {log : List (Issue Command)}
  {root : DRAM Command State} {type : RequestType} {addr : List Int} {cmd : Command}

theorem Targets.valid (speed : Speed) (channels : Nat) (targets : Targets org ranks id cmd addr) :
    ValidAddress (ddr3 org speed channels ranks) addr ∧ addr.head? = some (id : Int) := by
  have bounds : ∀ {r x y z : Int}, r < ranks → x < (orgTable org).bank →
      ValidAddress (ddr3 org speed channels ranks) [(id : Int), r, x, y, z] := by
    intro r x y z inRanks inBanks
    refine ⟨rfl, fun level i positive inner found => ?_⟩
    have levels : level = 1 ∨ level = 2 := by
      have : level < 3 := inner
      omega
    rcases levels with rfl | rfl
    · obtain rfl : r = i := by simpa using found
      exact inRanks
    · obtain rfl : x = i := by simpa using found
      exact inBanks
  rcases targets with ⟨_, mapped⟩ | ⟨_, ranked⟩
  · obtain ⟨r, b, row, col, rfl, inRanks, inBanks⟩ := mapped.shape
    exact ⟨bounds (by omega) (by omega), rfl⟩
  · obtain ⟨r, rfl, inRanks⟩ := ranked.shape
    exact ⟨bounds (by omega) (by omega), rfl⟩

theorem Legal.head (legal : Legal org speed channels ranks id log) :
    ∀ issue ∈ log, issue.addr.head? = some (id : Int) := by
  induction legal with
  | nil => simp
  | issue _ targets _ _ _ inductionHypothesis =>
      exact List.forall_mem_cons.mpr ⟨(targets.valid speed channels).2, inductionHypothesis⟩

/-- The first command of a request follows from the commands that were issued, and is
permitted. -/
theorem Reflects.first (reflects : Reflects org speed channels ranks id log root)
    (fits : Fits org ranks id type addr) :
    root.decode (ddr3 org speed channels ranks) (translate type) 0 addr =
        some (nextCommand (orgTable org).bank log type addr) ∧
      Targets org ranks id (nextCommand (orgTable org).bank log type addr) addr ∧
      Permits (orgTable org).bank log (nextCommand (orgTable org).bank log type addr) addr := by
  rcases fits with ⟨access, mapped⟩ | ⟨rfl, ranked⟩
  · have notRefresh : type ≠ .refresh := by rcases access with rfl | rfl <;> simp
    have access : translate type = .rd ∨ translate type = .wr := by
      rcases access with rfl | rfl <;> simp [translate]
    obtain ⟨r, b, row, col, rfl, inRanks, inBanks⟩ := mapped.shape
    obtain ⟨rank, bank, found⟩ :=
      exists_bank reflects.tracks reflects.shows reflects.sameId inRanks inBanks
    have next : nextCommand (orgTable org).bank log type [(id : Int), r, b, row, col] =
        firstCommand (openAfter [(id : Int), r, b] log) (translate type) row :=
      if_neg notRefresh
    rw [next]
    refine ⟨decode_access found access, .inl ⟨?_, mapped⟩, ?_⟩
    · unfold firstCommand
      split
      · exact .inl rfl
      · split
        · exact .inr (.inr access)
        · exact .inr (.inl rfl)
    · cases opened : openAfter [(id : Int), r, b] log with
      | none => exact opened
      | some other =>
          by_cases same : other = row
          · subst same
            have known : ∃ other : Int, [(id : Int), r, b, row, col][3]? = some other ∧
                openAfter [(id : Int), r, b] log = some other := ⟨row, rfl, opened⟩
            simp only [firstCommand, if_true]
            rcases access with isAccess | isAccess <;> rw [isAccess] <;> exact known
          · simp [firstCommand, same, Permits, opened]
  · obtain ⟨r, rfl, inRanks⟩ := ranked.shape
    rcases decode_ref reflects.tracks reflects.shows reflects.sameId inRanks with
      ⟨decoded, opened⟩ | ⟨decoded, closed⟩
    · have next : nextCommand (orgTable org).bank log .refresh [(id : Int), r, -1, -1, -1] =
          .prea := by
        rw [nextCommand, if_pos rfl]
        exact if_pos opened
      rw [next]
      exact ⟨decoded, .inr ⟨.inl rfl, ranked⟩, opened⟩
    · have next : nextCommand (orgTable org).bank log .refresh [(id : Int), r, -1, -1, -1] =
          .ref := by
        rw [nextCommand, if_pos rfl, if_neg]
        rintro ⟨b, bound, opened⟩
        simp [closed b bound] at opened
      rw [next]
      exact ⟨decoded, .inr ⟨.inr rfl, ranked⟩, closed⟩

theorem Reflects.check (reflects : Reflects org speed channels ranks id log root)
    (targets : Targets org ranks id cmd addr) {clk : Int} (now : 0 ≤ clk) :
    ∃ ready, root.check (ddr3 org speed channels ranks) cmd clk 0 addr = some ready ∧
      (ready = true ↔ TimingAllows (ddr3 org speed channels ranks) log cmd addr clk) := by
  obtain ⟨valid, here⟩ := targets.valid speed channels
  obtain ⟨next, _, decides⟩ := reflects.tracks.check reflects.sameId cmd valid here
  exact ⟨_, (decides clk now).1, by simpa using (decides clk now).2⟩

theorem Reflects.rows (reflects : Reflects org speed channels ranks id log root)
    (fits : Fits org ranks id type addr) :
    root.checkRowHit (ddr3 org speed channels ranks) (translate type) 0 addr =
        some (decide (Hits log type addr)) ∧
      root.checkRowOpen (ddr3 org speed channels ranks) (translate type) 0 addr =
        some (decide (Opens log type addr)) := by
  rcases fits with ⟨access, mapped⟩ | ⟨rfl, ranked⟩
  · have notRefresh : type ≠ .refresh := by rcases access with rfl | rfl <;> simp
    have access : translate type = .rd ∨ translate type = .wr := by
      rcases access with rfl | rfl <;> simp [translate]
    obtain ⟨r, b, row, col, rfl, inRanks, inBanks⟩ := mapped.shape
    obtain ⟨rank, bank, found⟩ :=
      exists_bank reflects.tracks reflects.shows reflects.sameId inRanks inBanks
    rw [checkRowHit_access found access, checkRowOpen_access found access]
    simp [Hits, Opens, notRefresh]
  · obtain ⟨r, rfl, inRanks⟩ := ranked.shape
    obtain ⟨hit, opened⟩ :=
      checkRow_ref reflects.tracks reflects.shows reflects.sameId inRanks
    rw [show translate RequestType.refresh = .ref from rfl, hit, opened]
    simp [Hits, Opens]

end Lookups

def served (q : List Request) : List Request := q.filter fun req => !req.isFirstCommand

/-- The requests in service; a forwarded read departs a cycle after its arrival and never
enters service. -/
def inService (c : Controller Command State) : List Request :=
  served c.readq ++ served c.writeq ++
    c.pending.filter fun req => decide (req.depart - req.arrive > 1)

structure Sound (org : Org) (speed : Speed) (channels ranks id : Nat)
    (c : Controller Command State) : Prop where
  reflects : Reflects org speed channels ranks id c.trace c.channel
  legal : Legal org speed channels ranks id c.trace
  past : ∀ issue ∈ c.trace, issue.clk ≤ c.clk
  mirrors : Mirrors c.trace c.rowtable
  counts : Everywhere (fun path (cell : Cell Command State) _ =>
    Counts ((inService c).map Request.addrVec) path cell) [] c.channel
  queues : ∀ kind, ∀ req ∈ c.queue kind,
    req.type.queue = kind ∧ Fits org ranks id req.type req.addrVec ∧ req.arrive ≤ c.clk
  pending : ∀ req ∈ c.pending, req.type = .read ∧ Mapped org ranks id req.addrVec

section Service

theorem served_set {q : List Request} {i : Nat} {req : Request} (found : q[i]? = some req)
    (first : req.isFirstCommand = true) :
    (served (q.set i { req with isFirstCommand := false })).Perm
      ({ req with isFirstCommand := false } :: served q) := by
  obtain ⟨bound, rfl⟩ := List.getElem?_eq_some_iff.mp found
  have split : served q = served (q.take i) ++ served (q.drop (i + 1)) := by
    conv_lhs => rw [← List.take_append_drop i q, List.drop_eq_getElem_cons bound]
    simp only [served, List.filter_append, List.filter_cons, first, Bool.not_true,
      Bool.false_eq_true, if_false]
  rw [split, List.set_eq_take_append_cons_drop, if_pos bound]
  simp only [served, List.filter_append, List.filter_cons, Bool.not_false, if_true]
  exact List.perm_middle

theorem served_eraseIdx {q : List Request} {i : Nat} {req : Request} (found : q[i]? = some req)
    (begun : req.isFirstCommand = false) :
    (served q).Perm (req :: served (q.eraseIdx i)) := by
  obtain ⟨bound, rfl⟩ := List.getElem?_eq_some_iff.mp found
  have split : served q = served (q.take i) ++ q[i] :: served (q.drop (i + 1)) := by
    conv_lhs => rw [← List.take_append_drop i q, List.drop_eq_getElem_cons bound]
    simp only [served, List.filter_append, List.filter_cons, begun, Bool.not_false, if_true]
  rw [split, List.eraseIdx_eq_take_drop_succ]
  simp only [served, List.filter_append]
  exact List.perm_middle

theorem inService_setQueue {c : Controller Command State} {kind : QueueKind} {q : List Request}
    {req : Request} (counted : kind ≠ .otherq) (more : (served q).Perm (req :: served (c.queue kind))) :
    (inService (c.setQueue kind q)).Perm (req :: inService c) := by
  cases kind with
  | readq => exact (more.append_right _).append_right _
  | writeq =>
      have inner : (served c.readq ++ served q).Perm (req :: (served c.readq ++ served c.writeq)) :=
        (more.append_left _).trans List.perm_middle
      exact inner.append_right _
  | otherq => exact absurd rfl counted

end Service

section Phases

variable {org : Org} {speed : Speed} {channels ranks id : Nat} {c : Controller Command State}

theorem Sound.start (org : Org) (speed : Speed) (channels ranks id : Nat) :
    Sound org speed channels ranks id
      { channel := DRAM.channel (ddr3 org speed channels ranks) id } where
  reflects := .channel org speed channels ranks id
  legal := .nil
  past := by simp
  mirrors := .nil
  counts := counts_channel
  queues kind := by cases kind <;> simp [Controller.queue]
  pending := by simp

def latencySum (callbacks : List Request) : Int :=
  ((callbacks.filter fun req => decide (req.depart - req.arrive > 1)).map fun req =>
    req.depart - req.arrive).sum

structure CallsBack (c : Controller Command State) (callbacks rest : List Request) : Prop where
  pending : c.pending = callbacks ++ rest
  few : callbacks.length ≤ 1
  departed : ∀ req ∈ callbacks, req.depart ≤ c.clk
  oldest : callbacks = [] → ∀ req ∈ rest.head?, (c.clk : Int) < req.depart

theorem Sound.servePending (sound : Sound org speed channels ranks id c) :
    ∃ channel callbacks rest, c.servePending (ddr3 org speed channels ranks) =
        some ({ c with
          channel
          stats := { c.stats with
            readLatencySum := c.stats.readLatencySum + latencySum callbacks }
          pending := rest }, callbacks) ∧
      CallsBack c callbacks rest ∧
      Sound org speed channels ranks id { c with
        channel
        stats := { c.stats with
          readLatencySum := c.stats.readLatencySum + latencySum callbacks }
        pending := rest } := by
  cases queued : c.pending with
  | nil =>
      refine ⟨c.channel, [], [], ?_, ⟨queued, by simp, by simp, by simp⟩, ?_⟩
      · simp [Controller.servePending, queued, latencySum]
        rw [← queued]
      · simp [latencySum]
        rw [← queued]
        exact sound
  | cons req rest =>
      by_cases departed : req.depart ≤ c.clk
      · have others : ∀ other ∈ rest, other.type = .read ∧ Mapped org ranks id other.addrVec :=
          fun other present => sound.pending other (by simp [queued, present])
        have called : CallsBack c [req] rest := ⟨queued, by simp, by simpa using departed, by simp⟩
        by_cases inside : req.depart - req.arrive > 1
        · have counts : Everywhere (fun path (cell : Cell Command State) _ =>
              Counts (req.addrVec :: (inService { c with pending := rest }).map Request.addrVec)
                path cell) [] c.channel := by
            refine sound.counts.imp fun _ _ _ _ counted => Counts.perm ?_ counted
            rw [← List.map_cons]
            refine List.Perm.map _ ?_
            simp only [inService, queued, List.filter_cons, inside, decide_true, if_true]
            exact List.perm_middle
          obtain ⟨channel, served, reflects, counts⟩ := Reflects.leave
            (sound.pending req (by simp [queued])).2 sound.reflects counts (c.clk : Int)
          have latency : latencySum [req] = req.depart - req.arrive := by
            simp [latencySum, inside]
          refine ⟨channel, [req], rest, ?_, called,
            ⟨reflects, sound.legal, sound.past, sound.mirrors, counts, sound.queues, others⟩⟩
          simp [Controller.servePending, Controller.serving, queued, departed, inside, served,
            latency]
        · have latency : latencySum [req] = 0 := by simp [latencySum, inside]
          refine ⟨c.channel, [req], rest, ?_, called, ⟨sound.reflects, sound.legal, sound.past,
            sound.mirrors, ?_, sound.queues, others⟩⟩
          · simp [Controller.servePending, queued, departed, inside, latency]
          · have counts := sound.counts
            simp only [inService, queued, List.filter_cons, inside] at counts
            exact counts
      · refine ⟨c.channel, [], req :: rest, ?_, ⟨queued, by simp, by simp, by simpa using departed⟩,
          ?_⟩
        · simp [Controller.servePending, queued, departed, latencySum]
          rw [← queued]
        · simp [latencySum]
          rw [← queued]
          exact sound

def refreshRequest (id r : Int) (clk : Nat) : Request where
  type := .refresh
  addr := 0
  udf := {
    burstIdx := 0
    reqIdx := 0
    peIdx := 0
    portIdx := 0
    arriveMemTime := 0
    departMemTime := 0 }
  arrive := clk
  addrVec := [id, r, -1, -1, -1]

theorem refreshTarget_eq {rank : DRAM Command State} (room : c.otherq.length < 32) :
    c.refreshTarget (ddr3 org speed channels ranks) rank = some { c with
      otherq := c.otherq ++ [refreshRequest c.channel.cell.id rank.cell.id c.clk] } := by
  have notFull : c.otherq.length ≠ Memory.Controller.queueMax := room.ne
  simp [Controller.refreshTarget, Controller.enqueue, Memory.RequestType.queue, Controller.queue,
    Controller.setQueue, notFull, ddr3, refreshRequest]

theorem Sound.tickRef (sound : Sound org speed channels ranks id c)
    (room : (ddr3 org speed channels ranks).nREFI ≤ c.refresh.clk + 1 - c.refresh.refreshed →
      c.otherq.length + ranks ≤ 32) :
    ∃ refresh injected, c.tickRef (ddr3 org speed channels ranks) =
        some { c with refresh, otherq := c.otherq ++ injected } ∧
      Sound org speed channels ranks id { c with refresh, otherq := c.otherq ++ injected } ∧
      refresh.clk = c.refresh.clk + 1 ∧
      if (ddr3 org speed channels ranks).nREFI ≤ c.refresh.clk + 1 - c.refresh.refreshed then
        refresh.refreshed = c.refresh.clk + 1 ∧
          injected = (List.range ranks).map fun r : Nat => refreshRequest id r c.clk
      else refresh.refreshed = c.refresh.refreshed ∧ injected = [] := by
  by_cases due : (ddr3 org speed channels ranks).nREFI ≤ c.refresh.clk + 1 - c.refresh.refreshed
  · let refresh : Refresh := { clk := c.refresh.clk + 1, refreshed := c.refresh.clk + 1 }
    let injected := (List.range ranks).map fun r : Nat => refreshRequest id r c.clk
    have size : c.channel.children.length = ranks := by
      simpa [fanout, ddr3] using sound.reflects.tracks.here.1.1
    have numbers : c.channel.children.map (fun rank => refreshRequest id rank.cell.id c.clk) =
        injected := by
      refine List.ext_getElem (by simp [injected, size]) fun r bound _ => ?_
      rw [List.length_map] at bound
      simp [injected, Everywhere.numbered sound.reflects.shows (List.getElem?_eq_getElem bound)]
    refine ⟨refresh, injected, ?_, ?_, rfl, ?_⟩
    · let counted : Controller Command State :=
        { c with refresh := { c.refresh with clk := c.refresh.clk + 1 } }
      let queued (done : List (DRAM Command State)) : Controller Command State :=
        { counted with
          otherq := c.otherq ++ done.map fun rank => refreshRequest id rank.cell.id c.clk }
      obtain ⟨after, looped, reached⟩ := CheckedLoop.foldlM_total
        (Controller.refreshTarget (ddr3 org speed channels ranks))
        (fun done now => now = queued done) c.channel.children counted
        (by simp [counted, queued]) (by
          rintro done rank rest now split rfl
          have fewer := congrArg List.length split
          rw [List.length_append, List.length_cons] at fewer
          have := room due
          refine ⟨_, refreshTarget_eq (by simp [queued]; omega), ?_⟩
          simp [counted, queued, sound.reflects.sameId])
      simp only [queued, numbers] at reached
      simp only [Controller.tickRef]
      rw [if_pos due]
      simp [looped, counted, reached, refresh]
    · refine ⟨sound.reflects, sound.legal, sound.past, sound.mirrors, sound.counts, ?_,
        sound.pending⟩
      intro kind req present
      cases kind with
      | readq => exact sound.queues .readq req present
      | writeq => exact sound.queues .writeq req present
      | otherq =>
          rcases List.mem_append.mp present with old | new
          · exact sound.queues .otherq req old
          · obtain ⟨r, inRanks, rfl⟩ := List.mem_map.mp new
            exact ⟨rfl, .inr ⟨rfl, ⟨r, rfl, List.mem_range.mp inRanks⟩⟩, le_rfl⟩
    · rw [if_pos due]
      exact ⟨rfl, rfl⟩
  · refine ⟨{ c.refresh with clk := c.refresh.clk + 1 }, [], ?_, ?_, rfl, ?_⟩
    · simp [Controller.tickRef, due]
    · rw [List.append_nil]
      exact ⟨sound.reflects, sound.legal, sound.past, sound.mirrors, sound.counts, sound.queues,
        sound.pending⟩
    · rw [if_neg due]
      exact ⟨rfl, rfl⟩

def Due (org : Org) (speed : Speed) (channels ranks : Nat) (c : Controller Command State) : Prop :=
  (ddr3 org speed channels ranks).nREFI ≤ c.refresh.clk + 1 - c.refresh.refreshed

instance (org : Org) (speed : Speed) (channels ranks : Nat) (c : Controller Command State) :
    Decidable (Due org speed channels ranks c) := inferInstanceAs (Decidable (_ ≤ _))

/-- What the first half of a tick does. -/
structure Begins (org : Org) (speed : Speed) (channels ranks id : Nat)
    (c begun : Controller Command State) (callbacks : List Request) : Prop where
  clk : begun.clk = c.clk + 1
  trace : begun.trace = c.trace
  readq : begun.readq = c.readq
  writeq : begun.writeq = c.writeq
  calls : CallsBack { c with clk := c.clk + 1 } callbacks begun.pending
  latencies : begun.stats.readLatencySum = c.stats.readLatencySum + latencySum callbacks
  transactions : begun.stats.transactions = c.stats.transactions
  writeMode : begun.writeMode = c.scheduleWrites.writeMode
  refreshClk : begun.refresh.clk = c.refresh.clk + 1
  due : Due org speed channels ranks c → begun.refresh.refreshed = c.refresh.clk + 1 ∧
    begun.otherq = c.otherq ++ (List.range ranks).map fun r : Nat => refreshRequest id r (c.clk + 1)
  notDue : ¬ Due org speed channels ranks c →
    begun.refresh.refreshed = c.refresh.refreshed ∧ begun.otherq = c.otherq

theorem scheduleWrites_eq (c : Controller Command State) :
    c.scheduleWrites = { c with writeMode := c.scheduleWrites.writeMode } := by
  unfold Controller.scheduleWrites
  split <;> split <;> rfl

theorem scheduleWrites_congr {c other : Controller Command State}
    (writeMode : c.writeMode = other.writeMode) (readq : c.readq = other.readq)
    (writeq : c.writeq = other.writeq) :
    c.scheduleWrites.writeMode = other.scheduleWrites.writeMode := by
  unfold Controller.scheduleWrites
  rw [writeMode, readq, writeq]
  split <;> split <;> first | rfl | exact writeMode

/-- Writes are served from some number of them on, which is lower once they are served, and
when there are no reads. -/
theorem scheduleWrites_iff (c : Controller Command State) :
    c.scheduleWrites.writeMode = true ↔
      (if c.writeMode then 7 else 25) ≤ c.writeq.length ∨ c.readq = [] := by
  rw [← List.length_eq_zero_iff]
  unfold Controller.scheduleWrites
  cases was : c.writeMode with
  | false =>
      rw [Bool.not_false, if_pos rfl, if_neg Bool.false_ne_true]
      split
      · rename_i changes
        simpa using changes
      · rename_i stays
        rw [was]
        simpa using stays
  | true =>
      rw [Bool.not_true, if_neg Bool.false_ne_true, if_pos rfl]
      split
      · simp only [Bool.false_eq_true, false_iff]
        omega
      · rw [was, eq_self, true_iff]
        omega

theorem Sound.beginTick (sound : Sound org speed channels ranks id c)
    (room : Due org speed channels ranks c → c.otherq.length + ranks ≤ 32) :
    ∃ begun callbacks, c.beginTick (ddr3 org speed channels ranks) = some (begun, callbacks) ∧
      Sound org speed channels ranks id begun ∧
      Begins org speed channels ranks id c begun callbacks := by
  have clocked : Sound org speed channels ranks id
      (Controller.sumQueues { c with clk := c.clk + 1 }) := by
    refine ⟨sound.reflects, sound.legal, ?_, sound.mirrors, sound.counts, ?_, sound.pending⟩
    · intro issue known
      have := sound.past issue known
      show issue.clk ≤ (c.clk + 1 : Nat)
      omega
    · intro kind req present
      obtain ⟨sameKind, fits, arrived⟩ := sound.queues kind req (by cases kind <;> exact present)
      refine ⟨sameKind, fits, ?_⟩
      show req.arrive ≤ (c.clk + 1 : Nat)
      omega
  obtain ⟨channel, callbacks, rest, served, calls, servedSound⟩ := clocked.servePending
  obtain ⟨refresh, injected, ticked, tickedSound, refreshClk, effect⟩ := servedSound.tickRef room
  let summed := Controller.sumQueues { c with clk := c.clk + 1 }
  let ready : Controller Command State := { summed with
    channel
    stats := { summed.stats with
      readLatencySum := summed.stats.readLatencySum + latencySum callbacks }
    refresh
    otherq := c.otherq ++ injected
    pending := rest }
  have scheduled := scheduleWrites_eq ready
  have sameMode : ready.scheduleWrites.writeMode = c.scheduleWrites.writeMode :=
    scheduleWrites_congr rfl rfl rfl
  refine ⟨{ ready with writeMode := c.scheduleWrites.writeMode }, callbacks, ?_, ?_, ?_⟩
  · rw [Controller.beginTick, served]
    simp only [Option.bind_eq_bind, Option.bind_some, ticked]
    rw [sameMode] at scheduled
    exact congrArg (fun begun => some (begun, callbacks)) scheduled
  · refine ⟨tickedSound.reflects, sound.legal, tickedSound.past, sound.mirrors, tickedSound.counts,
      fun kind req present => ?_, tickedSound.pending⟩
    exact tickedSound.queues kind req (by cases kind <;> exact present)
  · refine ⟨rfl, rfl, rfl, rfl, ⟨calls.pending, calls.few, calls.departed, calls.oldest⟩, rfl, rfl,
      rfl, refreshClk, fun due => ?_, fun notDue => ?_⟩
    · obtain ⟨refreshed, rfl⟩ := (if_pos due ▸ effect)
      exact ⟨refreshed, rfl⟩
    · obtain ⟨refreshed, rfl⟩ := (if_neg notDue ▸ effect)
      exact ⟨refreshed, List.append_nil _⟩

theorem Sound.fits (sound : Sound org speed channels ranks id c) {kind : QueueKind} {i : Nat}
    {req : Request} (found : (c.queue kind)[i]? = some req) :
    req.type.queue = kind ∧ Fits org ranks id req.type req.addrVec ∧ req.arrive ≤ c.clk :=
  sound.queues kind req (List.mem_of_getElem? found)

def countOpen (log : List (Issue Command)) (req : Request) (stats : ChannelStats) :
    ChannelStats :=
  if Hits log req.type req.addrVec then { stats with rowHits := stats.rowHits + 1 }
  else if Opens log req.type req.addrVec then { stats with rowConflicts := stats.rowConflicts + 1 }
  else { stats with rowMisses := stats.rowMisses + 1 }

def countAccess (log : List (Issue Command)) (req : Request) (stats : ChannelStats) :
    ChannelStats :=
  let counted := countOpen log req stats
  if req.type = .read then
    { counted with readTransactionBytes := counted.readTransactionBytes + 64 }
  else if req.type = .write then
    { counted with writeTransactionBytes := counted.writeTransactionBytes + 64 }
  else stats

theorem countTransaction_eq (reflects : Reflects org speed channels ranks id c.trace c.channel)
    {req : Request} (fits : Fits org ranks id req.type req.addrVec) :
    c.countTransaction (ddr3 org speed channels ranks) req =
      some { c with stats := countAccess c.trace req c.stats } := by
  obtain ⟨hits, opens⟩ := reflects.rows fits
  have isHit : c.isRowHit (ddr3 org speed channels ranks) req = some _ := hits
  have isOpen : c.isRowOpen (ddr3 org speed channels ranks) req = some _ := opens
  have counted : c.countRow (ddr3 org speed channels ranks) req =
      some { c with stats := countOpen c.trace req c.stats } := by
    by_cases hit : Hits c.trace req.type req.addrVec
    · simp [Controller.countRow, countOpen, isHit, hit]
    · by_cases opened : Opens c.trace req.type req.addrVec <;>
        simp [Controller.countRow, countOpen, isHit, isOpen, hit, opened]
  have transaction : (ddr3 org speed channels ranks).prefetchSize *
      (ddr3 org speed channels ranks).channelWidth / 8 = 64 := by simp [ddr3]
  unfold Controller.countTransaction countAccess
  dsimp only
  rw [counted, transaction]
  split
  · rfl
  · split <;> rfl

theorem Sound.requeue (sound : Sound org speed channels ranks id c) {kind : QueueKind}
    {q pending : List Request} {channel : DRAM Command State}
    (fits : ∀ req ∈ q, req.type.queue = kind ∧ Fits org ranks id req.type req.addrVec ∧
      req.arrive ≤ c.clk)
    (reads : ∀ req ∈ pending, req.type = .read ∧ Mapped org ranks id req.addrVec)
    (reflects : Reflects org speed channels ranks id c.trace channel)
    (counts : Everywhere (fun path (cell : Cell Command State) _ =>
      Counts ((inService { c.setQueue kind q with pending }).map Request.addrVec) path cell) []
        channel) (stats : ChannelStats) :
    Sound org speed channels ranks id { c.setQueue kind q with channel, stats, pending } := by
  have sameFields := Controller.setQueue_fields c kind q
  refine ⟨?_, ?_, ?_, ?_, counts, ?_, reads⟩
  · simpa using reflects
  · simpa using sound.legal
  · simpa using sound.past
  · simpa using sound.mirrors
  · intro other req present
    have sameQueue : ({ c.setQueue kind q with channel, stats, pending } :
        Controller Command State).queue other = (c.setQueue kind q).queue other := by
      cases other <;> rfl
    rw [sameQueue] at present
    by_cases same : other = kind
    · subst same
      rw [Controller.queue_setQueue] at present
      simpa using fits req present
    · rw [Controller.queue_setQueue_ne same] at present
      simpa using sound.queues other req present

def countFirst (c : Controller Command State) (req : Request) : ChannelStats :=
  if req.isFirstCommand then countAccess c.trace req c.stats else c.stats

theorem Sound.begin (sound : Sound org speed channels ranks id c) {kind : QueueKind} {i : Nat}
    {req : Request} (found : (c.queue kind)[i]? = some req) :
    ∃ channel, c.begin (ddr3 org speed channels ranks) kind i req =
        some { c.setQueue kind ((c.queue kind).set i { req with isFirstCommand := false }) with
          channel
          stats := countFirst c req } ∧
      Sound org speed channels ranks id
        { c.setQueue kind ((c.queue kind).set i { req with isFirstCommand := false }) with
          channel
          stats := countFirst c req } := by
  obtain ⟨sameKind, fits, arrived⟩ := sound.fits found
  cases first : req.isFirstCommand with
  | false =>
      have unchanged : (c.queue kind).set i { req with isFirstCommand := false } =
          c.queue kind := by
        obtain ⟨bound, same⟩ := List.getElem?_eq_some_iff.mp found
        rw [← first, ← same]
        exact List.set_getElem_self _
      have uncounted : countFirst c req = c.stats := by simp [countFirst, first]
      refine ⟨c.channel, ?_, ?_⟩
      · rw [unchanged, Controller.setQueue_queue, uncounted]
        simp [Controller.begin, first]
      · rw [unchanged, Controller.setQueue_queue, uncounted]
        exact sound
  | true =>
      let q := (c.queue kind).set i { req with isFirstCommand := false }
      have remains := Controller.setQueue_fields c kind q
      have typed : ∀ other ∈ q, other.type.queue = kind ∧
          Fits org ranks id other.type other.addrVec ∧ other.arrive ≤ c.clk := by
        intro other present
        rcases List.mem_or_eq_of_mem_set present with old | rfl
        · exact sound.queues kind other old
        · exact ⟨sameKind, fits, arrived⟩
      have reads : ∀ req ∈ (c.setQueue kind q).pending,
          req.type = .read ∧ Mapped org ranks id req.addrVec := by simpa using sound.pending
      have counted : countFirst c req =
          countAccess (c.setQueue kind q).trace req (c.setQueue kind q).stats := by
        rw [countFirst, if_pos first, remains.2.2.2.2.2.1, remains.2.2.2.2.2.2]
      rw [counted]
      by_cases access : req.type = .read ∨ req.type = .write
      · have mapped : Mapped org ranks id req.addrVec := by
          rcases fits with ⟨_, mapped⟩ | ⟨isRefresh, _⟩
          · exact mapped
          · rw [isRefresh] at access
            simp at access
        have accesses : kind ≠ .otherq := by
          rintro rfl
          rcases access with isRead | isWrite
          · simp [isRead, Memory.RequestType.queue] at sameKind
          · simp [isWrite, Memory.RequestType.queue] at sameKind
        obtain ⟨channel, entered, reflects, counts⟩ :=
          sound.reflects.enter mapped sound.counts (Int.natCast_nonneg c.clk)
        have perm := (inService_setQueue accesses (served_set found first)).map Request.addrVec
        have transaction := countTransaction_eq
          (c := { c.setQueue kind q with channel }) (by simpa using reflects) fits
        refine ⟨channel, ?_, sound.requeue typed reads reflects
          (counts.imp fun _ _ _ _ counted => Counts.perm perm.symm counted) _⟩
        have served : (c.setQueue kind q).serving (ddr3 org speed channels ranks) 1 req =
            some { c.setQueue kind q with channel } :=
          Controller.serving_some _ (by simpa using entered)
        rw [Controller.begin, if_pos first]
        dsimp only
        rw [if_pos access, served]
        exact transaction
      · have isOther : kind = .otherq := by
          rw [← sameKind]
          cases type : req.type <;> simp [type, Memory.RequestType.queue] at access ⊢
        subst isOther
        have transaction := countTransaction_eq
          (c := c.setQueue .otherq q) (by simpa using sound.reflects) fits
        refine ⟨c.channel, ?_, sound.requeue typed reads sound.reflects sound.counts _⟩
        rw [Controller.begin, if_pos first]
        dsimp only
        rw [if_neg access]
        exact transaction

theorem Sound.issueCmd (sound : Sound org speed channels ranks id c) {cmd : Command}
    {addr : List Int} (targets : Targets org ranks id cmd addr)
    (permitted : Permits (orgTable org).bank c.trace cmd addr)
    (allowed : TimingAllows (ddr3 org speed channels ranks) c.trace cmd addr c.clk)
    (later : ∀ issue ∈ c.trace, issue.clk < c.clk) :
    ∃ channel rowtable, c.issueCmd (ddr3 org speed channels ranks) cmd addr =
        some { c with channel, rowtable, trace := ⟨cmd, addr, c.clk⟩ :: c.trace } ∧
      Sound org speed channels ranks id
        { c with channel, rowtable, trace := ⟨cmd, addr, c.clk⟩ :: c.trace } := by
  have now : (0 : Int) ≤ c.clk := Int.natCast_nonneg c.clk
  obtain ⟨ready, checked, readyIff⟩ := sound.reflects.check targets now
  obtain ⟨channel, updated, reflects, counts⟩ := sound.reflects.update Counts.timeless
    Counts.stateless (fun _ _ _ _ counted => ⟨counted.current, counted.begun⟩) sound.counts now
    targets permitted
  obtain ⟨rowtable, tabled, mirrors⟩ :=
    sound.mirrors.update speed channels targets permitted c.clk c.clk
  refine ⟨channel, rowtable, ?_, ⟨reflects, .issue sound.legal targets permitted allowed later,
    List.forall_mem_cons.mpr ⟨le_rfl, sound.past⟩, mirrors, counts, fun kind req present => ?_,
    sound.pending⟩⟩
  · have isReady : c.isReadyCmd (ddr3 org speed channels ranks) cmd addr = some true := by
      rw [Controller.isReadyCmd, checked, readyIff.mpr allowed]
    simp [Controller.issueCmd, isReady, updated, tabled]
  · exact sound.queues kind req (by cases kind <;> exact present)

theorem readLatency_gt (org : Org) (speed : Speed) (channels ranks : Nat) :
    1 < (ddr3 org speed channels ranks).readLatency := by
  show 1 < (speedTable speed).nCL + (speedTable speed).nBL
  cases speed <;> decide

def completes (readLatency : Nat) (clk : Nat) (req : Request) : List Request :=
  if req.type = .read then
    [{ req with isFirstCommand := false, depart := (clk : Int) + readLatency }]
  else []

theorem Sound.finish (sound : Sound org speed channels ranks id c) {kind : QueueKind} {i : Nat}
    {req : Request} (found : (c.queue kind)[i]? = some { req with isFirstCommand := false }) :
    ∃ channel, c.finish (ddr3 org speed channels ranks) kind i req =
        some { c.setQueue kind ((c.queue kind).eraseIdx i) with
          channel
          pending := c.pending ++
            completes (ddr3 org speed channels ranks).readLatency c.clk req } ∧
      Sound org speed channels ranks id
        { c.setQueue kind ((c.queue kind).eraseIdx i) with
          channel
          pending := c.pending ++
            completes (ddr3 org speed channels ranks).readLatency c.clk req } := by
  obtain ⟨sameKind, fits, arrived⟩ := sound.fits found
  dsimp only at sameKind fits arrived
  have typed : ∀ other ∈ (c.queue kind).eraseIdx i, other.type.queue = kind ∧
      Fits org ranks id other.type other.addrVec ∧ other.arrive ≤ c.clk :=
    fun other present => sound.queues kind other (List.mem_of_mem_eraseIdx present)
  have leaves := served_eraseIdx found rfl
  cases type : req.type with
  | read =>
      obtain rfl : kind = .readq := by simpa [type, Memory.RequestType.queue] using sameKind.symm
      have mapped : Mapped org ranks id req.addrVec := by
        rcases fits with ⟨_, mapped⟩ | ⟨isRefresh, _⟩
        · exact mapped
        · rw [type] at isRefresh
          cases isRefresh
      let completed : Request := { req with
        isFirstCommand := false
        depart := c.clk + (ddr3 org speed channels ranks).readLatency }
      have inside : completed.depart - completed.arrive > 1 := by
        have := readLatency_gt org speed channels ranks
        show (c.clk : Int) + (ddr3 org speed channels ranks).readLatency - req.arrive > 1
        omega
      have perm : ((inService { c.setQueue .readq (c.readq.eraseIdx i) with
          pending := c.pending ++ [completed] }).map Request.addrVec).Perm
            ((inService c).map Request.addrVec) := by
        have moved : inService { c.setQueue .readq (c.readq.eraseIdx i) with
            pending := c.pending ++ [completed] } =
            inService (c.setQueue .readq (c.readq.eraseIdx i)) ++ [completed] := by
          simp [inService, Controller.setQueue, List.filter_append, inside]
        have stays := ((leaves.append_right (served c.writeq)).append_right
          (c.pending.filter fun req => decide (req.depart - req.arrive > 1))).map Request.addrVec
        rw [moved, List.map_append]
        exact (List.perm_append_singleton _ _).trans stays.symm
      have adds : completes (ddr3 org speed channels ranks).readLatency c.clk req = [completed] :=
        if_pos type
      rw [adds]
      refine ⟨c.channel, ?_, ?_⟩
      · simp [Controller.finish, type, Controller.queue, Controller.setQueue, completed]
      · refine sound.requeue typed ?_ sound.reflects
          (sound.counts.imp fun _ _ _ _ counted => Counts.perm perm.symm counted) c.stats
        intro other present
        rcases List.mem_append.mp present with old | new
        · exact sound.pending other old
        · rw [List.mem_singleton.mp new]
          exact ⟨type, mapped⟩
  | write =>
      obtain rfl : kind = .writeq := by simpa [type, Memory.RequestType.queue] using sameKind.symm
      have mapped : Mapped org ranks id req.addrVec := by
        rcases fits with ⟨_, mapped⟩ | ⟨isRefresh, _⟩
        · exact mapped
        · rw [type] at isRefresh
          cases isRefresh
      have perm : (inService c).Perm ({ req with isFirstCommand := false } ::
          inService (c.setQueue .writeq (c.writeq.eraseIdx i))) :=
        @inService_setQueue (c.setQueue .writeq (c.writeq.eraseIdx i)) .writeq c.writeq _
          (by simp) leaves
      obtain ⟨channel, left, reflects, counts⟩ := sound.reflects.leave mapped
        (sound.counts.imp fun _ _ _ _ counted => Counts.perm (perm.map Request.addrVec) counted)
        (c.clk : Int)
      have adds : completes (ddr3 org speed channels ranks).readLatency c.clk req = [] :=
        if_neg (by simp [type])
      rw [adds, List.append_nil]
      refine ⟨channel, ?_, sound.requeue typed sound.pending reflects counts c.stats⟩
      simp [Controller.finish, type, Controller.serving, left, Controller.queue, Controller.setQueue]
  | refresh =>
      obtain rfl : kind = .otherq := by simpa [type, Memory.RequestType.queue] using sameKind.symm
      have adds : completes (ddr3 org speed channels ranks).readLatency c.clk req = [] :=
        if_neg (by simp [type])
      rw [adds, List.append_nil]
      refine ⟨c.channel, ?_,
        sound.requeue typed sound.pending sound.reflects sound.counts c.stats⟩
      simp [Controller.finish, type, Controller.queue, Controller.setQueue]
  | _ => simp [type, Fits] at fits

theorem Sound.answered (sound : Sound org speed channels ranks id c) {req : Request}
    (fits : Fits org ranks id req.type req.addrVec) :
    Controller.Answered (ddr3 org speed channels ranks) c req := by
  obtain ⟨first, targets, _⟩ := sound.reflects.first fits
  obtain ⟨ready, checked, _⟩ := sound.reflects.check targets (Int.natCast_nonneg c.clk)
  obtain ⟨hits, opens⟩ := sound.reflects.rows fits
  refine ⟨⟨ready, ?_⟩, ⟨_, hits⟩, ⟨_, opens⟩, ?_⟩
  · have isFirst : c.getFirstCmd (ddr3 org speed channels ranks) req = some _ := first
    rw [Controller.isReady, isFirst]
    exact checked
  · have wide := targets.length
    have hasRow : req.addrVec[(ddr3 org speed channels ranks).row]? = some req.addrVec[3] :=
      List.getElem?_eq_getElem (show 3 < req.addrVec.length by omega)
    rw [RowTable.getHits, hasRow]
    simp only [Option.bind_eq_bind, Option.bind_some]
    cases RowTable.find (req.addrVec.take (ddr3 org speed channels ranks).row) c.rowtable <;>
      exact ⟨_, rfl⟩

theorem Sound.isReady_iff (sound : Sound org speed channels ranks id c) {req : Request}
    (fits : Fits org ranks id req.type req.addrVec) {ready : Bool}
    (isReady : c.isReady (ddr3 org speed channels ranks) req = some ready) :
    ready = true ↔ TimingAllows (ddr3 org speed channels ranks) c.trace
      (nextCommand (orgTable org).bank c.trace req.type req.addrVec) req.addrVec c.clk := by
  obtain ⟨first, targets, _⟩ := sound.reflects.first fits
  obtain ⟨value, checked, valueIff⟩ := sound.reflects.check targets (Int.natCast_nonneg c.clk)
  have isFirst : c.getFirstCmd (ddr3 org speed channels ranks) req = some _ := first
  rw [Controller.isReady, isFirst] at isReady
  have same : value = ready := Option.some.inj (checked.symm.trans isReady)
  rw [← same, valueIff]

/-- The next command was issued for the request in place `i`. -/
structure Issues (org : Org) (speed : Speed) (channels ranks id : Nat) (c after : Controller Command State)
    (kind : QueueKind) (i : Nat) (req : Request) (cmd : Command) : Prop where
  found : (c.queue kind)[i]? = some req
  sameKind : req.type.queue = kind
  fits : Fits org ranks id req.type req.addrVec
  arrived : req.arrive ≤ c.clk
  next : cmd = nextCommand (orgTable org).bank c.trace req.type req.addrVec
  targets : Targets org ranks id cmd req.addrVec
  permitted : Permits (orgTable org).bank c.trace cmd req.addrVec
  trace : after.trace = ⟨cmd, req.addrVec, c.clk⟩ :: c.trace
  clk : after.clk = c.clk
  refresh : after.refresh = c.refresh
  writeMode : after.writeMode = c.writeMode
  stats : after.stats = countFirst c req
  others : ∀ other, other ≠ kind → after.queue other = c.queue other
  own : after.queue kind =
    if cmd = translate req.type then (c.queue kind).eraseIdx i
    else (c.queue kind).set i { req with isFirstCommand := false }
  pending : after.pending = c.pending ++
    if cmd = translate req.type then
      completes (ddr3 org speed channels ranks).readLatency c.clk req
    else []

theorem Issues.queue_map {after : Controller Command State} {kind : QueueKind} {i : Nat}
    {req : Request} {cmd : Command} {Value : Type} {f : Request → Value}
    (issues : Issues org speed channels ranks id c after kind i req cmd)
    (same : f { req with isFirstCommand := false } = f req) :
    (after.queue kind).map f =
      if cmd = translate req.type then ((c.queue kind).map f).eraseIdx i
      else (c.queue kind).map f := by
  rw [issues.own]
  split
  · rw [List.eraseIdx_map]
  · obtain ⟨bound, here⟩ := List.getElem?_eq_some_iff.mp issues.found
    rw [List.map_set, same, ← here, ← List.getElem_map f (h := by simpa using bound),
      List.set_getElem_self]

theorem Sound.serve (sound : Sound org speed channels ranks id c)
    (later : ∀ issue ∈ c.trace, issue.clk < c.clk) {kind : QueueKind} {i : Nat} {req : Request}
    (found : (c.queue kind)[i]? = some req)
    (ready : c.isReady (ddr3 org speed channels ranks) req = some true) :
    ∃ after cmd, c.serve (ddr3 org speed channels ranks) kind i req = some after ∧
      Sound org speed channels ranks id after ∧
      Issues org speed channels ranks id c after kind i req cmd := by
  obtain ⟨sameKind, fits, arrived⟩ := sound.fits found
  obtain ⟨_, targets, permitted⟩ := sound.reflects.first fits
  have allowed := (sound.isReady_iff fits ready).mp rfl
  generalize nextIs : nextCommand (orgTable org).bank c.trace req.type req.addrVec = cmd at *
  obtain ⟨channel, begins, begunSound⟩ := sound.begin found
  let q := (c.queue kind).set i { req with isFirstCommand := false }
  let begun : Controller Command State := { c.setQueue kind q with
    channel
    stats := countFirst c req }
  have sameTrace : begun.trace = c.trace := (Controller.setQueue_fields c kind q).2.2.2.2.2.2
  have sameClk : begun.clk = c.clk := (Controller.setQueue_fields c kind q).1
  have sameMode : begun.writeMode = c.writeMode := Controller.setQueue_writeMode c kind q
  have samePending : begun.pending = c.pending := (Controller.setQueue_fields c kind q).2.2.2.2.1
  have begunQueue : ∀ other, begun.queue other = (c.setQueue kind q).queue other := by
    intro other
    cases other <;> rfl
  have firstAgain : begun.getFirstCmd (ddr3 org speed channels ranks) req = some cmd := by
    have decoded := (begunSound.reflects.first fits).1
    have again : nextCommand (orgTable org).bank begun.trace req.type req.addrVec = cmd := by
      rw [sameTrace, nextIs]
    exact decoded.trans (congrArg some again)
  obtain ⟨issuedChannel, rowtable, issues, issuedSound⟩ := begunSound.issueCmd targets
    (show Permits _ begun.trace _ _ from sameTrace ▸ permitted)
    (show TimingAllows _ begun.trace _ _ begun.clk from sameTrace ▸ sameClk ▸ allowed)
    (show ∀ issue ∈ begun.trace, issue.clk < begun.clk from sameTrace ▸ sameClk ▸ later)
  let issued : Controller Command State :=
    { begun with
      channel := issuedChannel
      rowtable
      trace := ⟨cmd, req.addrVec, begun.clk⟩ :: begun.trace }
  have issuedQueue : ∀ other, issued.queue other = (c.setQueue kind q).queue other := by
    intro other
    rw [← begunQueue]
    cases other <;> rfl
  have others : ∀ other, other ≠ kind → issued.queue other = c.queue other := by
    intro other different
    rw [issuedQueue, Controller.queue_setQueue_ne different]
  have issuedOwn : issued.queue kind = q := by rw [issuedQueue, Controller.queue_setQueue]
  have issuedFound : (issued.queue kind)[i]? = some { req with isFirstCommand := false } := by
    obtain ⟨bound, _⟩ := List.getElem?_eq_some_iff.mp found
    rw [issuedOwn, List.getElem?_set_self bound]
  have trace : issued.trace = ⟨cmd, req.addrVec, c.clk⟩ :: c.trace := by
    rw [← sameTrace, ← sameClk]
  have steps : c.serve (ddr3 org speed channels ranks) kind i req =
      if cmd ≠ translate req.type then some issued
      else issued.finish (ddr3 org speed channels ranks) kind i req := by
    have begins : c.begin (ddr3 org speed channels ranks) kind i req = some begun := begins
    have issues : begun.issueCmd (ddr3 org speed channels ranks) cmd req.addrVec = some issued :=
      issues
    rw [Controller.serve, begins]
    simp only [Option.bind_eq_bind, Option.bind_some, firstAgain, issues]
    rfl
  rw [steps]
  by_cases last : cmd = translate req.type
  · rw [if_neg (not_not.mpr last)]
    obtain ⟨finalChannel, finishes, finalSound⟩ := issuedSound.finish issuedFound
    have finalQueue : ∀ other pending, ({ issued.setQueue kind ((issued.queue kind).eraseIdx i) with
        channel := finalChannel, pending } : Controller Command State).queue other =
          (issued.setQueue kind ((issued.queue kind).eraseIdx i)).queue other := by
      intro other _
      cases other <;> rfl
    have remains := Controller.setQueue_fields issued kind ((issued.queue kind).eraseIdx i)
    exact ⟨_, cmd, finishes, finalSound, {
      found
      sameKind
      fits
      arrived
      next := nextIs.symm
      targets
      permitted
      trace := remains.2.2.2.2.2.2.trans trace
      clk := remains.1.trans sameClk
      refresh := remains.2.2.2.1.trans (Controller.setQueue_fields c kind q).2.2.2.1
      writeMode := (Controller.setQueue_writeMode issued kind _).trans sameMode
      stats := remains.2.2.2.2.2.1
      others := fun other different => by
        rw [finalQueue, Controller.queue_setQueue_ne different, others other different]
      own := by
        rw [finalQueue, Controller.queue_setQueue, if_pos last, issuedOwn, List.eraseIdx_set_eq]
      pending := by
        rw [if_pos last, ← samePending, ← sameClk] }⟩
  · rw [if_pos last]
    refine ⟨issued, cmd, rfl, issuedSound, ?_⟩
    exact {
      found
      sameKind
      fits
      arrived
      next := nextIs.symm
      targets
      permitted
      trace
      clk := sameClk
      refresh := (Controller.setQueue_fields c kind q).2.2.2.1
      writeMode := sameMode
      stats := rfl
      others
      own := by rw [if_neg last, issuedOwn]
      pending := by rw [if_neg last, List.append_nil, ← samePending] }

def Waits (org : Org) (speed : Speed) (channels ranks : Nat) (c : Controller Command State)
    (kind : QueueKind) : Prop :=
  ∃ req ∈ c.queue kind, ¬ TimingAllows (ddr3 org speed channels ranks) c.trace
    (nextCommand (orgTable org).bank c.trace req.type req.addrVec) req.addrVec c.clk

/-- No assertion fails in a tick, as long as there is room for the refreshes that are due,
and at most one command is issued. -/
theorem Sound.tick (sound : Sound org speed channels ranks id c)
    (room : Due org speed channels ranks c → c.otherq.length + ranks ≤ 32) (policy : Policy) :
    ∃ begun after callbacks,
      c.tick (ddr3 org speed channels ranks) policy = some (after, callbacks) ∧
      Begins org speed channels ranks id c begun callbacks ∧
      Sound org speed channels ranks id begun ∧ Sound org speed channels ranks id after ∧
      ((after = begun ∧ (begun.queue begun.scheduled ≠ [] →
          Waits org speed channels ranks begun begun.scheduled)) ∨
        ∃ i req cmd, begun.getHead (ddr3 org speed channels ranks) policy
            (begun.queue begun.scheduled) = some (some (i, req)) ∧
          Issues org speed channels ranks id begun after begun.scheduled i req cmd) := by
  obtain ⟨begun, callbacks, begins, begunSound, effect⟩ := sound.beginTick room
  obtain ⟨head, headFound⟩ := Controller.getHead_total policy fun req present =>
    begunSound.answered (begunSound.queues begun.scheduled req present).2.1
  have ticks : c.tick (ddr3 org speed channels ranks) policy =
      match head with
      | none => some (begun, callbacks)
      | some (i, req) => do
          if ← begun.isReady (ddr3 org speed channels ranks) req then
            return (← begun.serve (ddr3 org speed channels ranks) begun.scheduled i req, callbacks)
          else return (begun, callbacks) := by
    rw [Controller.tick, begins]
    simp only [Option.bind_eq_bind, Option.bind_some, headFound]
    cases head <;> rfl
  rw [ticks]
  cases head with
  | none =>
      refine ⟨begun, begun, callbacks, rfl, effect, begunSound, begunSound, .inl ⟨rfl, fun some => ?_⟩⟩
      exact absurd (Controller.getHead_none headFound) some
  | some head =>
      obtain ⟨i, req⟩ := head
      have found := Controller.getHead_found headFound
      obtain ⟨_, fits, _⟩ := begunSound.fits found
      obtain ⟨ready, isReady⟩ := (begunSound.answered fits).ready
      cases ready with
      | false =>
          refine ⟨begun, begun, callbacks, by simp [isReady], effect, begunSound, begunSound,
            .inl ⟨rfl, fun _ => ⟨req, List.mem_of_getElem? found, fun allows => ?_⟩⟩⟩
          have readyNow := (begunSound.isReady_iff fits isReady).mpr allows
          cases readyNow
      | true =>
          have later : ∀ issue ∈ begun.trace, issue.clk < begun.clk := by
            rw [effect.trace, effect.clk]
            intro issue known
            have := sound.past issue known
            omega
          obtain ⟨after, cmd, serves, afterSound, issues⟩ := begunSound.serve later found isReady
          exact ⟨begun, after, callbacks, by simp [isReady, serves], effect, begunSound, afterSound,
            .inr ⟨i, req, cmd, headFound, issues⟩⟩

theorem Sound.enqueue (sound : Sound org speed channels ranks id c) {req : Request}
    (access : req.type = .read ∨ req.type = .write) (mapped : Mapped org ranks id req.addrVec)
    (fresh : req.isFirstCommand = true) :
    Sound org speed channels ranks id (c.enqueue req).1 ∧
      (c.enqueue req).1.trace = c.trace ∧ (c.enqueue req).1.clk = c.clk ∧
      (c.enqueue req).1.refresh = c.refresh ∧ (c.enqueue req).1.otherq = c.otherq := by
  unfold Controller.enqueue
  dsimp only
  split
  · exact ⟨sound, rfl, rfl, rfl, rfl⟩
  · split
    · rename_i forwarded
      refine ⟨⟨sound.reflects, sound.legal, sound.past, sound.mirrors, ?_, ?_, ?_⟩,
        rfl, rfl, rfl, rfl⟩
      · have same : ∀ pending, pending = c.pending ++ [{ req with
            arrive := (c.clk : Int), depart := (c.clk : Int) + 1 }] →
            inService { c with pending } = inService c := by
          rintro _ rfl
          simp [inService, List.filter_append]
        rw [same _ rfl]
        exact sound.counts
      · intro kind other present
        exact sound.queues kind other (by cases kind <;> exact present)
      · intro other present
        rcases List.mem_append.mp present with old | new
        · exact sound.pending other old
        · rw [List.mem_singleton.mp new]
          exact ⟨forwarded.1, mapped⟩
    · have typed : ∀ other ∈ c.queue req.type.queue ++ [{ req with arrive := (c.clk : Int) }],
          other.type.queue = req.type.queue ∧ Fits org ranks id other.type other.addrVec ∧
            other.arrive ≤ (c.clk : Int) := by
        intro other present
        rcases List.mem_append.mp present with old | new
        · exact sound.queues _ other old
        · rw [List.mem_singleton.mp new]
          exact ⟨rfl, .inl ⟨access, mapped⟩, le_rfl⟩
      generalize queueIs : c.queue req.type.queue ++ [{ req with arrive := (c.clk : Int) }] = q
        at typed ⊢
      have same : inService (c.setQueue req.type.queue q) = inService c := by
        rw [← queueIs]
        rcases access with type | type <;>
          simp [inService, served, type, Memory.RequestType.queue, Controller.setQueue,
            Controller.queue, List.filter_append, fresh]
      have remains := Controller.setQueue_fields c req.type.queue q
      refine ⟨?_, remains.2.2.2.2.2.2, remains.1, remains.2.2.2.1, ?_⟩
      · have reads : ∀ read ∈ (c.setQueue req.type.queue q).pending,
            read.type = .read ∧ Mapped org ranks id read.addrVec := by
          rw [remains.2.2.2.2.1]
          exact sound.pending
        have reflects : Reflects org speed channels ranks id c.trace
            (c.setQueue req.type.queue q).channel := by
          rw [remains.2.1]
          exact sound.reflects
        have counts : Everywhere (fun path (cell : Cell Command State) _ =>
            Counts ((inService (c.setQueue req.type.queue q)).map Request.addrVec) path cell) []
              (c.setQueue req.type.queue q).channel := by
          rw [remains.2.1, same]
          exact sound.counts
        exact sound.requeue typed reads reflects counts (c.setQueue req.type.queue q).stats
      · rcases access with type | type <;>
          simp [type, Memory.RequestType.queue, Controller.setQueue]

end Phases

end GraphAccelerator.Dram.Ddr3
