import GraphAccelerator.Dram.Draining

/-!
# The guarantees of a memory

What is known of every state that a channel or a memory reaches after its construction,
whatever it is sent, whenever it is ticked and whatever its scheduler prefers.
-/

namespace GraphAccelerator.Dram

section Timing

variable {Command State : Type} [DecidableEq Command] {spec : Standard Command State}

/-- The commands that were issued to the channel `id` since it was constructed, the
newest first. -/
inductive Issued (spec : Standard Command State) (id : Nat) :
    List (Issue Command) → DRAM Command State → Prop
  | new : Issued spec id [] (DRAM.channel spec id)
  | issue {log : List (Issue Command)} {before after : DRAM Command State}
      {issue : Issue Command} : Issued spec id log before → 0 ≤ issue.clk →
      issue.addr.length = spec.levels →
      before.update spec issue.cmd issue.addr issue.clk = some after →
      Issued spec id (issue :: log) after

variable {id : Nat} {log : List (Issue Command)} {root : DRAM Command State}

theorem Issued.tracks (run : Issued spec id log root) :
    (∀ issue ∈ log, 0 ≤ issue.clk) ∧ root.cell.id = id ∧ Tracks spec log [] root := by
  induction run with
  | new => exact ⟨by simp, DRAM.channel_id spec id, .channel id⟩
  | @issue log before after issue _ now length updated inductionHypothesis =>
      obtain ⟨past, sameId, tracks⟩ := inductionHypothesis
      simp only [DRAM.update, Option.bind_eq_bind, Option.bind_eq_some_iff] at updated
      obtain ⟨changed, stateUpdated, timingUpdated⟩ := updated
      have clocked : Tracks spec log [] (.mk { before.cell with curClk := issue.clk }
          before.children) :=
        Everywhere.setCell tracks rfl
          ⟨tracks.here.1, tracks.here.2.next, tracks.here.2.prev⟩
      obtain ⟨changedTracks, changedId⟩ :=
        Everywhere.updateState Tracks.stateless issue.cmd clocked stateUpdated
      have timeless : Timeless fun _ (_ : Cell Command State) _ => True := fun _ _ _ _ _ _ => trivial
      have long : spec.row ≤ issue.addr.length := length ▸ spec.row_lt.le
      obtain ⟨final, computed, finalId, finalTracks, _⟩ := Tracks.updateTiming timeless
        changedTracks (Everywhere.imp changedTracks fun _ _ _ _ _ => trivial) past issue.cmd
        long now
      obtain rfl : after = final := Option.some.inj (timingUpdated.symm.trans computed)
      exact ⟨List.forall_mem_cons.mpr ⟨now, past⟩, finalId.trans (changedId.trans sameId),
        finalTracks⟩

/-- In every run `get_next` computes a clock, and from the clock of the last command on
`check` admits a command exactly from there on, which is when the timing parameters
allow it after the commands that were issued. -/
theorem check_iff_timing (run : Issued spec id log root) (cmd : Command) {addr : List Int}
    (valid : ValidAddress spec addr) (here : addr.head? = some (id : Int)) :
    ∃ next, root.getNext spec cmd addr = some next ∧ root.cell.curClk ≤ next ∧
      ∀ clk, 0 ≤ clk → root.cell.curClk ≤ clk →
        root.check spec cmd clk 0 addr = some (decide (next ≤ clk)) ∧
        (next ≤ clk ↔ TimingAllows spec log cmd addr clk) := by
  obtain ⟨_, sameId, tracks⟩ := run.tracks
  obtain ⟨next, computed, decides⟩ := tracks.check sameId cmd valid here
  refine ⟨max root.cell.curClk next, ?_, le_max_left _ _, ?_⟩
  · rw [DRAM.getNext, computed]
    rfl
  · intro clk now current
    have same : max root.cell.curClk next ≤ clk ↔ next ≤ clk := by simp [current]
    exact ⟨(decides clk now).1.trans (congrArg some (decide_eq_decide.mpr same.symm)),
      same.trans (decides clk now).2⟩

theorem check_iff_timing_read : ∃ opened,
    Issued (ddr3 .ddr3_2Gb_x8 .ddr3_1600K 1 1) 0 [⟨.act, [0, 0, 3, 5, 0], 4⟩] opened ∧
      ∀ clk, 4 ≤ clk → (opened.check (ddr3 .ddr3_2Gb_x8 .ddr3_1600K 1 1) .rd clk 0
          [0, 0, 3, 5, 0] = some (decide (15 ≤ clk)) ∧
        (15 ≤ clk ↔ TimingAllows (ddr3 .ddr3_2Gb_x8 .ddr3_1600K 1 1)
          [⟨.act, [0, 0, 3, 5, 0], 4⟩] .rd [0, 0, 3, 5, 0] clk)) := by
  have updated : (((DRAM.channel (ddr3 .ddr3_2Gb_x8 .ddr3_1600K 1 1) 0).update
      (ddr3 .ddr3_2Gb_x8 .ddr3_1600K 1 1) .act [0, 0, 3, 5, 0] 4).map fun opened =>
        (opened.getNext (ddr3 .ddr3_2Gb_x8 .ddr3_1600K 1 1) .rd [0, 0, 3, 5, 0],
          opened.cell.curClk)) = some (some 15, 4) := by
    decide +kernel
  obtain ⟨opened, updated, observed⟩ := Option.map_eq_some_iff.mp updated
  obtain ⟨next, current⟩ := Prod.mk.inj observed
  have run : Issued (ddr3 .ddr3_2Gb_x8 .ddr3_1600K 1 1) 0 [⟨.act, [0, 0, 3, 5, 0], 4⟩]
      opened := .issue .new (by decide) rfl updated
  have valid : ValidAddress (ddr3 .ddr3_2Gb_x8 .ddr3_1600K 1 1) [0, 0, 3, 5, 0] := by
    refine ⟨rfl, fun level i positive above found => ?_⟩
    have few : level < 3 := above
    obtain rfl | rfl : level = 1 ∨ level = 2 := by omega
    · exact Option.some.inj found ▸ (by decide : (0 : Int) < 1)
    · exact Option.some.inj found ▸ (by decide : (3 : Int) < 8)
  obtain ⟨other, computed, _, checks⟩ := check_iff_timing run .rd valid rfl
  obtain rfl := Option.some.inj (computed.symm.trans next)
  exact ⟨opened, run, fun clk later => checks clk (by omega) (by omega)⟩

end Timing

namespace Ddr3

open GraphAccelerator.Memory (RequestType QueueKind)

variable {org : Org} {speed : Speed} {channels ranks : Nat} {policy : Policy} {type : Mapping}
  {m : Memory Command State} {s : MemorySession Command State}

/-- A memory that was constructed and used since. -/
inductive Reached (org : Org) (speed : Speed) (channels ranks : Nat) (policy : Policy) :
    MemorySession Command State → Prop
  | run {type : Mapping} {m : Memory Command State} {s : MemorySession Command State}
      {ops : List (Op GraphAccelerator.Memory.Request)} :
      0 < channels → 0 < ranks → Memory.new (ddr3 org speed channels ranks) type = some m →
      (∀ op ∈ ops, Accesses op) →
      ({ mem := m } : MemorySession Command State).run (ddr3 org speed channels ranks) policy ops =
        some s →
      Reached org speed channels ranks policy s

theorem Reached.whole (reached : Reached org speed channels ranks policy s)
    (fast : Fast org speed ranks) : Whole org speed channels ranks s := by
  obtain ⟨someChannels, someRanks, made, accesses, ran⟩ := reached
  obtain ⟨final, again, whole, _⟩ :=
    (Whole.new made someChannels someRanks).run fast policy accesses
  obtain rfl := Option.some.inj (again.symm.trans ran)
  exact whole

def shippedOps (ticks : Nat) : List (Op GraphAccelerator.Memory.Request) :=
  [(.read, 0), (.read, 2 ^ 16), (.write, 64), (.read, 64)].map (fun sent => .send {
    type := sent.1
    addr := sent.2
    udf := ⟨0, 0, 0, 0, 0, 0⟩ }) ++ List.replicate ticks .tick

theorem accesses_shippedOps (ticks : Nat) : ∀ op ∈ shippedOps ticks, Accesses op := by
  intro op member
  rcases List.mem_append.mp member with sent | ticked
  · simp only [List.map_cons, List.map_nil, List.mem_cons, List.not_mem_nil, or_false] at sent
    rcases sent with rfl | rfl | rfl | rfl <;> simp [Accesses]
  · rw [List.eq_of_mem_replicate ticked]
    trivial

theorem cycles_shippedOps (ticks : Nat) : ((shippedOps ticks).map Op.cycles).sum = ticks := by
  simp [shippedOps, Op.cycles]

def shippedRun (ticks : Nat) : Option (MemorySession Command State) :=
  ({ mem := Memory.shipped } : MemorySession Command State).run
    (ddr3 .ddr3_2Gb_x8 .ddr3_1600K 1 1) .frfcfsPriorHit (shippedOps ticks)

theorem reached_shippedRun {ticks : Nat} (ran : shippedRun ticks = some s) :
    Reached .ddr3_2Gb_x8 .ddr3_1600K 1 1 .frfcfsPriorHit s :=
  .run one_pos one_pos Memory.new_shipped (accesses_shippedOps ticks) ran

/-- No assertion fails in any run, and every channel does what its controller would do alone
with the requests that go to it. -/
theorem memory_runs (someChannels : 0 < channels) (someRanks : 0 < ranks)
    (made : Memory.new (ddr3 org speed channels ranks) type = some m)
    (fast : Fast org speed ranks) (policy : Policy)
    {ops : List (Op GraphAccelerator.Memory.Request)} (accesses : ∀ op ∈ ops, Accesses op) :
    ∃ final, ({ mem := m } : MemorySession Command State).run (ddr3 org speed channels ranks)
        policy ops = some final ∧
      final.mem.stats.numDramCycles = (ops.map Op.cycles).sum ∧
      final.mem.ctrls.length = channels ∧
      ∀ id < channels, ∃ session, final.channel id = some session ∧
        (Session.new (ddr3 org speed channels ranks) id).run (ddr3 org speed channels ranks) policy
          (ops.filterMap (m.opOf (ddr3 org speed channels ranks) id)) = some session := by
  have start := Whole.new made someChannels someRanks
  obtain ⟨final, ran, whole, each⟩ := start.run fast policy accesses
  have cycles := MemorySession.run_cycles _ ran
  rw [(Memory.new_fresh made).2, Nat.zero_add] at cycles
  refine ⟨final, ran, cycles, whole.length, fun id inside => ?_⟩
  have present := List.getElem?_eq_getElem (whole.length.symm ▸ inside)
  have found := MemorySession.channel_some present
  refine ⟨_, found, ?_⟩
  rw [each id, new_channel made, if_pos inside] at found
  exact found

theorem memory_runs_shipped : ∃ final, shippedRun 10000 = some final ∧
    final.mem.stats.numDramCycles = 10000 ∧ final.mem.ctrls.length = 1 := by
  obtain ⟨final, ran, cycles, length, _⟩ := memory_runs one_pos one_pos Memory.new_shipped
    (fast_of_ranks _ _ (by decide)) .frfcfsPriorHit (accesses_shippedOps 10000)
  exact ⟨final, ran, cycles.trans (cycles_shippedOps 10000), length⟩

section Channels

variable {id : Nat} {c : Controller Command State}

theorem Reached.channel (reached : Reached org speed channels ranks policy s)
    (fast : Fast org speed ranks) (present : s.mem.ctrls[id]? = some c) :
    ∃ session, s.channel id = some session ∧ session.ctrl = c ∧
      Invariant org speed channels ranks id session ∧ c.clk = s.mem.stats.numDramCycles := by
  have found := MemorySession.channel_some present
  obtain ⟨invariant, sameClk⟩ := (reached.whole fast).each id _ found
  exact ⟨_, found, rfl, invariant, sameClk⟩

end Channels

/-- A memory to which nothing is sent any more comes to rest: every read that it accepted was
called back once, and a `WR` was issued for every write. -/
theorem memory_drains (fast : Fast org speed ranks) (brisk : Brisk org speed ranks)
    (reached : Reached org speed channels ranks policy s) {n : Nat}
    (long : ∀ c ∈ s.mem.ctrls, drainTime org speed ranks + outstanding c +
      (ddr3 org speed channels ranks).readLatency < n) :
    ∃ final, s.run (ddr3 org speed channels ranks) .frfcfsPriorHit (List.replicate n .tick) =
        some final ∧ final.accepted = s.accepted ∧
      (∀ c ∈ final.mem.ctrls, c.readq = [] ∧ c.writeq = [] ∧ c.pending = []) ∧
      (final.called.map Request.ident).Perm
        ((s.accepted.filter fun req => req.type = .read).map Request.ident) ∧
      ((s.accepted.filter fun req => req.type = .write).map Request.addrVec).Perm
        (final.mem.ctrls.flatMap fun c => (issuesOf .wr c.trace).map Issue.addr) := by
  obtain ⟨final, ran, whole, accepted, idle⟩ := (reached.whole fast).drain fast brisk long
  refine ⟨final, ran, accepted, idle, ?_, ?_⟩
  · rw [← accepted]
    exact whole.called_perm fun c member => ⟨(idle c member).1, (idle c member).2.2⟩
  · rw [← accepted]
    exact whole.written_perm fun c member => (idle c member).2.1

theorem memory_drains_shipped : ∃ s final, shippedRun 4 = some s ∧
    s.run (ddr3 .ddr3_2Gb_x8 .ddr3_1600K 1 1) .frfcfsPriorHit
      (List.replicate (drainTime .ddr3_2Gb_x8 .ddr3_1600K 1 + 30) .tick) = some final ∧
    s.accepted.length = 4 ∧ final.accepted = s.accepted ∧
    (final.called.map Request.ident).Perm
      ((s.accepted.filter fun req => req.type = .read).map Request.ident) := by
  have evaluated : (shippedRun 4).map (fun s => (s.accepted.length,
      s.mem.ctrls.map outstanding)) = some (4, [2]) := by
    decide +kernel
  obtain ⟨s, ran, seen⟩ := Option.map_eq_some_iff.mp evaluated
  obtain ⟨accepted, waiting⟩ := Prod.mk.inj seen
  have long : ∀ c ∈ s.mem.ctrls, drainTime .ddr3_2Gb_x8 .ddr3_1600K 1 + outstanding c +
      (ddr3 .ddr3_2Gb_x8 .ddr3_1600K 1 1).readLatency <
        drainTime .ddr3_2Gb_x8 .ddr3_1600K 1 + 30 := by
    intro c member
    have two : outstanding c ∈ [2] := waiting ▸ List.mem_map_of_mem member
    rw [List.mem_singleton.mp two]
    have latency : (ddr3 .ddr3_2Gb_x8 .ddr3_1600K 1 1).readLatency = 15 := by decide
    omega
  obtain ⟨final, drained, same, _, called, _⟩ := memory_drains (fast_of_ranks _ _ (by decide))
    (brisk_of_ranks _ _ (by decide)) (reached_shippedRun ran) long
  exact ⟨s, final, ran, drained, accepted, same, called⟩

end Ddr3

end GraphAccelerator.Dram
