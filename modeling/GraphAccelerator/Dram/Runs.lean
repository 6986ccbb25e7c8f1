import GraphAccelerator.Library.Queue
import GraphAccelerator.Dram.Memory
import GraphAccelerator.Dram.Session

/-!
# Runs of the memory

The channels of a memory are independent: in every run each of them sees the requests whose
addresses are mapped to it and all ticks.  What holds of a controller in every run so holds of
the channels of a memory.
-/

namespace GraphAccelerator.Dram

structure MemorySession (Command State : Type) where
  mem : Memory Command State
  accepted : List Request := []
  called : List Request := []

namespace MemorySession

variable {Command State : Type} [DecidableEq Command] (spec : Standard Command State)

def perform (policy : Policy) (s : MemorySession Command State) :
    Op GraphAccelerator.Memory.Request → Option (MemorySession Command State)
  | .send req => do
      let (mem, accepted) ← s.mem.send spec req
      return { s with
        mem
        accepted := if accepted then s.accepted ++ [{
            toRequest := { req with arrive := s.mem.stats.numDramCycles }
            addrVec := s.mem.addrVec spec req.addr }]
          else s.accepted }
  | .tick => do
      let (mem, callbacks) ← s.mem.tick spec policy
      return { s with mem, called := s.called ++ callbacks }

def run (policy : Policy) (ops : List (Op GraphAccelerator.Memory.Request))
    (s : MemorySession Command State) : Option (MemorySession Command State) :=
  ops.foldlM (perform spec policy) s

/-- The part of the channel `id`. -/
def channel (s : MemorySession Command State) (id : Nat) : Option (Session Command State) :=
  s.mem.ctrls[id]?.map fun ctrl => {
    ctrl
    accepted := s.accepted.filter fun req => req.addrVec.head? = some (id : Int)
    called := s.called.filter fun req => req.addrVec.head? = some (id : Int) }

omit [DecidableEq Command] in
theorem channel_some {s : MemorySession Command State} {id : Nat} {ctrl : Controller Command State}
    (present : s.mem.ctrls[id]? = some ctrl) :
    s.channel id = some {
      ctrl
      accepted := s.accepted.filter fun req => req.addrVec.head? = some (id : Int)
      called := s.called.filter fun req => req.addrVec.head? = some (id : Int) } := by
  rw [channel, present]
  rfl

omit [DecidableEq Command] in
theorem numDramCycles_countIncoming (type : GraphAccelerator.Memory.RequestType) (channel : Nat)
    (stats : MemoryStats) : (stats.countIncoming type channel).numDramCycles = stats.numDramCycles := by
  simp only [MemoryStats.countIncoming]
  split <;> split <;> rfl

theorem perform_cycles {policy : Policy} {s next : MemorySession Command State}
    {op : Op GraphAccelerator.Memory.Request} (performed : s.perform spec policy op = some next) :
    next.mem.stats.numDramCycles = s.mem.stats.numDramCycles + op.cycles := by
  cases op with
  | send req =>
      obtain ⟨⟨mem, accepted⟩, sent, performed⟩ := Option.bind_eq_some_iff.mp performed
      obtain rfl := Option.some.inj performed
      simp only [Memory.send, Option.bind_eq_bind, Option.bind_eq_some_iff] at sent
      obtain ⟨channel, _, c, _, sent⟩ := sent
      split at sent
      · obtain ⟨rfl, _⟩ := Prod.mk.inj (Option.some.inj sent)
        exact numDramCycles_countIncoming _ _ _
      · obtain ⟨rfl, _⟩ := Prod.mk.inj (Option.some.inj sent)
        rfl
  | tick =>
      obtain ⟨⟨mem, called⟩, ticked, performed⟩ := Option.bind_eq_some_iff.mp performed
      obtain rfl := Option.some.inj performed
      simp only [Memory.tick, Option.bind_eq_bind, Option.bind_eq_some_iff] at ticked
      obtain ⟨_, _, ticked⟩ := ticked
      obtain ⟨rfl, _⟩ := Prod.mk.inj (Option.some.inj ticked)
      dsimp only
      split <;> rfl

theorem run_cycles {policy : Policy} {s final : MemorySession Command State}
    {ops : List (Op GraphAccelerator.Memory.Request)} (ran : s.run spec policy ops = some final) :
    final.mem.stats.numDramCycles = s.mem.stats.numDramCycles + (ops.map Op.cycles).sum := by
  refine CheckedLoop.foldlM_invariant (fun done now => now.mem.stats.numDramCycles =
    s.mem.stats.numDramCycles + (done.map Op.cycles).sum) ran rfl ?_
  intro done op _ now next _ sofar performed
  rw [perform_cycles spec performed, sofar, List.map_append, List.sum_append, Nat.add_assoc]
  simp

end MemorySession

/-- What the channel `id` sees of what is done with the memory. -/
def Memory.opOf {Command State : Type} (spec : Standard Command State) (m : Memory Command State)
    (id : Nat) : Op GraphAccelerator.Memory.Request → Option (Op Request)
  | .send req =>
      if (m.addrVec spec req.addr).head? = some (id : Int) then
        some (.send { toRequest := req, addrVec := m.addrVec spec req.addr })
      else none
  | .tick => some .tick

namespace Ddr3

section Perform

variable {org : Org} {speed : Speed} {channels ranks : Nat} {m : Memory Command State}
  {s : MemorySession Command State} {policy : Policy}

/-- Every address is mapped to a place in some channel. -/
theorem mapped_addrVec (made : m.Made org speed channels ranks) (addr : Nat) :
    ∃ id : Nat, id < channels ∧
      (m.addrVec (ddr3 org speed channels ranks) addr).head? = some (id : Int) ∧
      Mapped org ranks id (m.addrVec (ddr3 org speed channels ranks) addr) := by
  obtain ⟨place, within, named⟩ :=
    (Memory.addrVec_sliced (Memory.covers_order made) addr).exists_place
  rw [made.sizes] at within
  simp only [List.forall₂_cons_right_iff, List.forall₂_nil_right_iff] at within
  obtain ⟨id, _, inChannels, ⟨r, _, inRanks, ⟨b, _, inBanks, ⟨row, _, _, ⟨col, _, _, rfl, rfl⟩,
    rfl⟩, rfl⟩, rfl⟩, rfl⟩ := within
  rw [named]
  exact ⟨id, inChannels, rfl, ⟨r, b, row, col, rfl, inRanks, inBanks⟩⟩

def Homed (channels : Nat) (req : Request) : Prop :=
  ∃ id : Nat, id < channels ∧ req.addrVec.head? = some (id : Int)

/-- What holds of a memory in every run. -/
structure Whole (org : Org) (speed : Speed) (channels ranks : Nat)
    (s : MemorySession Command State) : Prop where
  made : s.mem.Made org speed channels ranks
  length : s.mem.ctrls.length = channels
  homed : ∀ req ∈ s.accepted ++ s.called, Homed channels req
  each : ∀ id session, s.channel id = some session →
    Invariant org speed channels ranks id session ∧ session.ctrl.clk = s.mem.stats.numDramCycles

theorem sends_opOf (made : m.Made org speed channels ranks)
    {op : Op GraphAccelerator.Memory.Request}
    (access : ∀ req, op = .send req → req.type = .read ∨ req.type = .write) {id : Nat}
    {own : Op Request} (seen : m.opOf (ddr3 org speed channels ranks) id op = some own) :
    Sends org ranks id own := by
  cases op with
  | send req =>
      obtain ⟨other, _, named, mapped⟩ := mapped_addrVec made req.addr
      simp only [Memory.opOf, named] at seen
      split at seen
      · rename_i same
        obtain rfl : other = id := by simpa using same
        obtain rfl := Option.some.inj seen
        exact ⟨access req rfl, mapped, rfl⟩
      · cases seen
  | tick =>
      obtain rfl := Option.some.inj seen
      trivial

structure SameMapping (m next : Memory Command State) : Prop where
  type : next.type = m.type
  addrBits : next.addrBits = m.addrBits
  txBits : next.txBits = m.txBits
  maxAddress : next.maxAddress = m.maxAddress

theorem SameMapping.trans {next last : Memory Command State} (first : SameMapping m next)
    (second : SameMapping next last) : SameMapping m last :=
  ⟨second.type.trans first.type, second.addrBits.trans first.addrBits,
    second.txBits.trans first.txBits, second.maxAddress.trans first.maxAddress⟩

theorem SameMapping.addrVec {next : Memory Command State} (same : SameMapping m next)
    (spec : Standard Command State) : next.addrVec spec = m.addrVec spec := by
  funext addr
  rw [Memory.addrVec, Memory.addrVec, same.type, same.addrBits, same.txBits]

theorem SameMapping.made {next : Memory Command State} (same : SameMapping m next)
    (made : m.Made org speed channels ranks) : next.Made org speed channels ranks := by
  obtain ⟨levels, sizes, maxAddress⟩ := made
  have sameSizes : next.sizes = m.sizes := by rw [Memory.sizes, Memory.sizes, same.addrBits]
  exact ⟨by rw [same.addrBits, levels], by rw [sameSizes, sizes],
    by rw [same.maxAddress, same.txBits, sameSizes, maxAddress]⟩

def Follows (spec : Standard Command State) (policy : Policy) (s next : MemorySession Command State)
    (op : Op GraphAccelerator.Memory.Request) : Prop :=
  ∀ id, next.channel id = match s.mem.opOf spec id op with
    | none => s.channel id
    | some own => (s.channel id).bind fun session => session.perform spec policy own

theorem Whole.send (whole : Whole org speed channels ranks s)
    (req : GraphAccelerator.Memory.Request) (policy : Policy) :
    ∃ next, s.perform (ddr3 org speed channels ranks) policy (.send req) = some next ∧
      Follows (ddr3 org speed channels ranks) policy s next (.send req) ∧
      SameMapping s.mem next.mem ∧ next.mem.ctrls.length = channels ∧
      ∀ req ∈ next.accepted ++ next.called, Homed channels req := by
  obtain ⟨made, length, homed, each⟩ := whole
  obtain ⟨id, inChannels, named, mapped⟩ := mapped_addrVec made req.addr
  generalize addrVecIs : s.mem.addrVec (ddr3 org speed channels ranks) req.addr = addrVec at named mapped
  have first : addrVec[0]? = some (id : Int) := by rw [← List.head?_eq_getElem?, named]
  have present : s.mem.ctrls[id]? = some s.mem.ctrls[id] := List.getElem?_eq_getElem (by omega)
  generalize s.mem.ctrls[id] = c at present
  let request : Request := { toRequest := req, addrVec }
  have sameClk : c.clk = s.mem.stats.numDramCycles :=
    (each id _ (by rw [MemorySession.channel, present]; rfl)).2
  generalize enqueued : c.enqueue request = result
  obtain ⟨after, accepted⟩ := result
  let stats := if accepted then s.mem.stats.countIncoming req.type id else s.mem.stats
  let mem : Memory Command State := { s.mem with ctrls := s.mem.ctrls.set id after, stats }
  have sends : s.mem.send (ddr3 org speed channels ranks) req = some (mem, accepted) := by
    simp only [Memory.send, addrVecIs, first, Option.bind_eq_bind, Option.bind_some, Int.toNat_natCast,
      present]
    rw [show c.enqueue { toRequest := req, addrVec } = (after, accepted) from enqueued]
    cases accepted <;> rfl
  let arrived : Request := {
    toRequest := { req with arrive := s.mem.stats.numDramCycles }
    addrVec }
  refine ⟨{ s with mem, accepted := if accepted then s.accepted ++ [arrived] else s.accepted }, ?_,
    ?_, ⟨rfl, rfl, rfl, rfl⟩, by simpa [mem] using length, ?_⟩
  · rw [MemorySession.perform, sends, addrVecIs]
    rfl
  · intro other
    simp only [Memory.opOf, addrVecIs, named, Option.some.injEq, Int.natCast_inj]
    by_cases own : id = other
    · subst own
      rw [if_pos rfl]
      have keeps : ∀ rest : List Request, (rest ++ [arrived]).filter
          (fun req => decide (req.addrVec.head? = some (id : Int))) =
            rest.filter (fun req => decide (req.addrVec.head? = some (id : Int))) ++ [arrived] := by
        intro rest
        rw [List.filter_append, List.filter_cons_of_pos (by simpa using named), List.filter_nil]
      have here : mem.ctrls[id]? = some after := List.getElem?_set_self (by omega)
      have sameArrived : arrived = { request with arrive := (c.clk : Int) } := by
        rw [sameClk]
      simp only [MemorySession.channel, present, here, Option.map_some, Option.bind_some,
        Session.perform]
      rw [show c.enqueue { toRequest := req, addrVec } = (after, accepted) from enqueued]
      cases accepted with
      | false => rfl
      | true =>
          rw [if_pos rfl, if_pos rfl, keeps, sameArrived]
    · rw [if_neg own]
      have there : mem.ctrls[other]? = s.mem.ctrls[other]? := List.getElem?_set_ne own
      have skips : arrived.addrVec.head? ≠ some (other : Int) := by
        rw [show arrived.addrVec.head? = some (id : Int) from named]
        simpa using own
      simp only [MemorySession.channel, there]
      cases accepted with
      | false => rfl
      | true => simp [List.filter_append, skips]
  · intro other present
    rcases List.mem_append.mp present with known | old
    · split at known
      · rcases List.mem_append.mp known with old | new
        · exact homed other (List.mem_append_left _ old)
        · rw [List.mem_singleton.mp new]
          exact ⟨id, inChannels, named⟩
      · exact homed other (List.mem_append_left _ known)
    · exact homed other (List.mem_append_right _ old)

theorem Whole.tick (whole : Whole org speed channels ranks s) (fast : Fast org speed ranks)
    (policy : Policy) :
    ∃ next, s.perform (ddr3 org speed channels ranks) policy .tick = some next ∧
      Follows (ddr3 org speed channels ranks) policy s next .tick ∧
      SameMapping s.mem next.mem ∧ next.mem.ctrls.length = channels ∧
      ∀ req ∈ next.accepted ++ next.called, Homed channels req := by
  obtain ⟨made, length, homed, each⟩ := whole
  have ticks : ∀ (id : Nat) c, s.mem.ctrls[id]? = some c → ∃ after callbacks,
      c.tick (ddr3 org speed channels ranks) policy = some (after, callbacks) ∧
        ∀ req ∈ callbacks, req.addrVec.head? = some (id : Int) := by
    intro id c present
    obtain ⟨invariant, _⟩ := each id _ (by rw [MemorySession.channel, present]; rfl)
    obtain ⟨after, callbacks, ticked, called, _, _⟩ := invariant.tick fast policy
    refine ⟨after, callbacks, ticked, fun req known => ?_⟩
    obtain ⟨r, b, row, col, same, _⟩ := (invariant.sound.pending req (called.subset known)).2.shape
    rw [same]
    rfl
  obtain ⟨ticked, looped⟩ : ∃ ticked,
      s.mem.ctrls.mapM (fun c => c.tick (ddr3 org speed channels ranks) policy) = some ticked := by
    refine CheckedLoop.mapM_total fun c known => ?_
    obtain ⟨id, present⟩ := List.getElem?_of_mem known
    obtain ⟨after, callbacks, done, _⟩ := ticks id c present
    exact ⟨_, done⟩
  have pairs := CheckedLoop.mapM_getElem? looped
  have marked : ∀ (id : Nat) block, (ticked.map Prod.snd)[id]? = some block →
      ∀ req ∈ block, req.addrVec.head? = some (id : Int) := by
    intro id block found
    rw [List.getElem?_map, pairs, Option.map_eq_some_iff] at found
    obtain ⟨pair, found, rfl⟩ := found
    obtain ⟨c, present, done⟩ := Option.bind_eq_some_iff.mp found
    obtain ⟨after, callbacks, again, names⟩ := ticks id c present
    obtain rfl := Option.some.inj (done.symm.trans again)
    exact names
  let stats := s.mem.sumQueues
  let active := if s.mem.ctrls.any Controller.isActive then
      { stats with ramulatorActiveCycles := stats.ramulatorActiveCycles + 1 }
    else stats
  let mem : Memory Command State := { s.mem with ctrls := ticked.map Prod.fst, stats := active }
  have performs : s.mem.tick (ddr3 org speed channels ranks) policy =
      some (mem, ticked.flatMap Prod.snd) := by
    rw [Memory.tick]
    simp only [looped, Option.bind_eq_bind, Option.bind_some]
    rfl
  refine ⟨{ s with mem, called := s.called ++ ticked.flatMap Prod.snd }, ?_, fun id => ?_,
    ⟨rfl, rfl, rfl, rfl⟩, ?_, ?_⟩
  · rw [MemorySession.perform, performs]
    rfl
  · show MemorySession.channel _ id = (s.channel id).bind _
    have sameCtrl : mem.ctrls[id]? = (s.mem.ctrls[id]?.bind fun c =>
        c.tick (ddr3 org speed channels ranks) policy).map Prod.fst := by
      rw [← pairs, ← List.getElem?_map]
    rw [MemorySession.channel, MemorySession.channel, sameCtrl]
    cases present : s.mem.ctrls[id]? with
    | none => rfl
    | some c =>
        obtain ⟨after, callbacks, done, _⟩ := ticks id c present
        have here : (ticked.map Prod.snd)[id]? = some callbacks := by
          rw [List.getElem?_map, pairs, present, Option.bind_some, done]
          rfl
        have own := Keyed.filter_flatten (fun req : Request => req.addrVec.head?)
          (fun id => some (id : Int)) (fun _ _ same => by simpa using same) marked here
        rw [← List.flatMap_def] at own
        simp only [Option.bind_some, done, Option.map_some, Session.perform, Option.bind_eq_bind,
          List.filter_append, own]
        rfl
  · have same := (CheckedLoop.mapM_forall₂ looped).length_eq
    show (ticked.map Prod.fst).length = channels
    rw [List.length_map, ← same, length]
  · intro req present
    rw [← List.append_assoc] at present
    rcases List.mem_append.mp present with old | new
    · exact homed req old
    · rw [List.flatMap_def] at new
      obtain ⟨block, blockKnown, inside⟩ := List.mem_flatten.mp new
      obtain ⟨id, found⟩ := List.getElem?_of_mem blockKnown
      obtain ⟨bound, _⟩ := List.getElem?_eq_some_iff.mp found
      rw [List.length_map, ← (CheckedLoop.mapM_forall₂ looped).length_eq, length] at bound
      exact ⟨id, bound, marked id block found req inside⟩

theorem new_channel {type : Mapping} (made : Memory.new (ddr3 org speed channels ranks) type = some m)
    (id : Nat) : ({ mem := m } : MemorySession Command State).channel id =
      if id < channels then some (Session.new (ddr3 org speed channels ranks) id) else none := by
  obtain ⟨ctrls, _⟩ := Memory.new_fresh made
  rw [MemorySession.channel, ctrls, List.getElem?_map]
  split
  · rename_i inside
    rw [List.getElem?_range inside]
    rfl
  · rename_i outside
    rw [List.getElem?_eq_none (by simpa using outside)]
    rfl

theorem Whole.new {type : Mapping} (made : Memory.new (ddr3 org speed channels ranks) type = some m)
    (someChannels : 0 < channels) (someRanks : 0 < ranks) :
    Whole org speed channels ranks { mem := m } := by
  obtain ⟨ctrls, zero⟩ := Memory.new_fresh made
  refine ⟨Memory.new_made made someChannels someRanks, ?_, by simp, fun id session found => ?_⟩
  · show m.ctrls.length = channels
    rw [ctrls, List.length_map, List.length_range]
  · rw [new_channel made] at found
    split at found
    · obtain rfl := Option.some.inj found
      exact ⟨.new org speed channels ranks id, zero.symm⟩
    · cases found

def Accesses : Op GraphAccelerator.Memory.Request → Prop
  | .send req => req.type = .read ∨ req.type = .write
  | .tick => True

theorem Whole.perform (whole : Whole org speed channels ranks s) (fast : Fast org speed ranks)
    (policy : Policy) {op : Op GraphAccelerator.Memory.Request} (accesses : Accesses op) :
    ∃ next, s.perform (ddr3 org speed channels ranks) policy op = some next ∧
      Follows (ddr3 org speed channels ranks) policy s next op ∧ SameMapping s.mem next.mem ∧
      Whole org speed channels ranks next := by
  obtain ⟨next, performed, follows, mapping, length, homed⟩ : ∃ next,
      s.perform (ddr3 org speed channels ranks) policy op = some next ∧
        Follows (ddr3 org speed channels ranks) policy s next op ∧ SameMapping s.mem next.mem ∧
        next.mem.ctrls.length = channels ∧
        ∀ req ∈ next.accepted ++ next.called, Homed channels req := by
    cases op with
    | send req => exact whole.send req policy
    | tick => exact whole.tick fast policy
  have cycles := MemorySession.perform_cycles _ performed
  refine ⟨next, performed, follows, mapping, mapping.made whole.made, length, homed, ?_⟩
  intro id session found
  rw [follows id] at found
  cases seen : s.mem.opOf (ddr3 org speed channels ranks) id op with
  | none =>
      rw [seen] at found
      obtain ⟨invariant, clk⟩ := whole.each id session found
      cases op with
      | send req => exact ⟨invariant, clk.trans cycles.symm⟩
      | tick => cases seen
  | some own =>
      rw [seen] at found
      obtain ⟨before, present, moved⟩ := Option.bind_eq_some_iff.mp found
      obtain ⟨invariant, clk⟩ := whole.each id before present
      have sends := sends_opOf whole.made (fun req same => by subst same; exact accesses) seen
      obtain ⟨after, again, afterClk, holds⟩ := invariant.perform fast policy sends
      obtain rfl := Option.some.inj (again.symm.trans moved)
      have sameCycles : own.cycles = op.cycles := by
        cases op with
        | send req =>
            simp only [Memory.opOf] at seen
            split at seen
            · obtain rfl := Option.some.inj seen
              rfl
            · cases seen
        | tick =>
            obtain rfl := Option.some.inj seen
            rfl
      exact ⟨holds, by rw [afterClk, clk, cycles, sameCycles]⟩

/-- Every run succeeds, and every channel does what it would do alone. -/
theorem Whole.run (whole : Whole org speed channels ranks s) (fast : Fast org speed ranks)
    (policy : Policy) {ops : List (Op GraphAccelerator.Memory.Request)}
    (accesses : ∀ op ∈ ops, Accesses op) :
    ∃ final, s.run (ddr3 org speed channels ranks) policy ops = some final ∧
      Whole org speed channels ranks final ∧
      ∀ id, final.channel id = (s.channel id).bind fun session =>
        session.run (ddr3 org speed channels ranks) policy
          (ops.filterMap (s.mem.opOf (ddr3 org speed channels ranks) id)) := by
  induction ops generalizing s with
  | nil => exact ⟨s, rfl, whole, fun id => by cases s.channel id <;> rfl⟩
  | cons op ops inductionHypothesis =>
      obtain ⟨here, later⟩ := List.forall_mem_cons.mp accesses
      obtain ⟨next, performed, follows, mapping, nextWhole⟩ := whole.perform fast policy here
      obtain ⟨final, ran, finalWhole, each⟩ := inductionHypothesis nextWhole later
      refine ⟨final, ?_, finalWhole, fun id => ?_⟩
      · rw [MemorySession.run, List.foldlM_cons, performed]
        exact ran
      · have sameOps : next.mem.opOf (ddr3 org speed channels ranks) id =
            s.mem.opOf (ddr3 org speed channels ranks) id := by
          funext op
          cases op <;> simp only [Memory.opOf, mapping.addrVec]
        rw [each id, follows id, sameOps]
        cases seen : s.mem.opOf (ddr3 org speed channels ranks) id op with
        | none => rw [List.filterMap_cons_none seen]
        | some own =>
            rw [List.filterMap_cons_some seen]
            cases s.channel id <;> rfl

end Perform

end Ddr3

end GraphAccelerator.Dram
