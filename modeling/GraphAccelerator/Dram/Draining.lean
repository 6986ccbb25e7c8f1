import GraphAccelerator.Dram.Progress
import GraphAccelerator.Dram.Runs

/-!
# Draining a memory

When nothing is sent any more, the potential of a controller reaches its bottom: after a time
that depends only on the standard no access is queued, and a little later every read was
called back.  A memory whose channels have all come to this point has served every request
that it accepted.
-/

namespace GraphAccelerator.Dram.Ddr3

open GraphAccelerator.Memory (RequestType QueueKind)

def longestEffort (org : Org) (ranks : Nat) : Nat :=
  192 + 8 * (ranks * (orgTable org).bank) + ((orgTable org).bank + 2) * ranks

/-- After this time no access is queued. -/
def drainTime (org : Org) (speed : Speed) (ranks : Nat) : Nat :=
  (speedEntry org speed).nREFI * ((recovery org speed + 1) * longestEffort org ranks +
    recovery org speed + interruption org speed ranks) /
      ((speedEntry org speed).nREFI - interruption org speed ranks) + 1

def outstanding (c : Controller Command State) : Nat := c.readq.length + c.pending.length

section Bounds

variable {org : Org} {speed : Speed} {channels ranks id : Nat} {s : Session Command State}

theorem Invariant.effort_le (invariant : Invariant org speed channels ranks id s) :
    effort org ranks id s.ctrl ≤ longestEffort org ranks := by
  have works := prepare_le org ranks id s.ctrl.trace
    ((s.ctrl.queue (preferred s.ctrl)).map Request.addrVec)
  have few : switches s.ctrl ≤ 3 := by
    unfold switches
    split <;> split <;> omega
  have changes := Nat.mul_le_mul_left (2 * (ranks * (orgTable org).bank)) few
  have refreshes : load ((orgTable org).bank + 2) (orgTable org).bank s.ctrl.trace
      (s.ctrl.otherq.map Request.addrVec) ≤ ((orgTable org).bank + 2) * ranks := by
    refine (load_bounds (by omega) _ _ _).2.trans (Nat.mul_le_mul_left _ ?_)
    simpa using invariant.paced.asked.batch.length_le
  have reads := invariant.queued.readq
  have writes := invariant.queued.writeq
  unfold effort longestEffort backlog
  omega

theorem Invariant.potential_lt (invariant : Invariant org speed channels ranks id s)
    (brisk : Brisk org speed ranks) :
    potential org speed ranks id s.ctrl <
      drainTime org speed ranks * ((speedEntry org speed).nREFI - interruption org speed ranks) := by
  have efforts := Nat.mul_le_mul_left (recovery org speed + 1) invariant.effort_le
  have notNegative : 0 ≤ gap (recovery org speed) s.ctrl.clk s.ctrl.trace := by
    cases logged : s.ctrl.trace with
    | nil => exact Int.natCast_nonneg _
    | cons issue log =>
        have := invariant.sound.past issue (by simp [logged])
        dsimp only [gap]
        omega
  have patient : patience org speed ranks id s.ctrl ≤
      (recovery org speed + 1) * longestEffort org ranks + recovery org speed := by
    unfold patience
    omega
  have waits := Nat.mul_le_mul_left (speedEntry org speed).nREFI patient
  have inside := Nat.mul_le_mul_left (interruption org speed ranks)
    (Nat.mod_lt s.ctrl.clk (nREFI_pos org speed)).le
  have most : potential org speed ranks id s.ctrl ≤ (speedEntry org speed).nREFI *
      ((recovery org speed + 1) * longestEffort org ranks + recovery org speed +
        interruption org speed ranks) := by
    rw [Nat.mul_comm (interruption org speed ranks) (speedEntry org speed).nREFI] at inside
    rw [Nat.mul_add, potential]
    omega
  unfold Brisk at brisk
  rw [drainTime, Nat.mul_comm]
  exact most.trans_lt (Nat.lt_mul_div_succ _ (by omega))

end Bounds

section Ticks

variable {org : Org} {speed : Speed} {channels ranks id : Nat} {c after : Controller Command State}
  {callbacks : List Request}

theorem Sound.backlog_tick (sound : Sound org speed channels ranks id c)
    (paced : Paced org speed ranks id c) (fast : Fast org speed ranks) {policy : Policy}
    (ticked : c.tick (ddr3 org speed channels ranks) policy = some (after, callbacks)) :
    backlog after ≤ backlog c := by
  obtain ⟨begun, other, _, same, begins, _, _, moved⟩ := sound.tick (paced.room fast) policy
  obtain ⟨rfl, rfl⟩ := Prod.mk.inj (Option.some.inj (ticked.symm.trans same))
  rw [backlog, backlog, ← begins.readq, ← begins.writeq]
  rcases moved with ⟨rfl, _⟩ | ⟨i, req, cmd, _, issues⟩
  · exact le_rfl
  · exact Nat.add_le_add (issues.queue_length .readq) (issues.queue_length .writeq)

theorem Sound.pending_tick (sound : Sound org speed channels ranks id c)
    (paced : Paced org speed ranks id c) (fast : Fast org speed ranks) {policy : Policy}
    (ticked : c.tick (ddr3 org speed channels ranks) policy = some (after, callbacks))
    (none : backlog c = 0) :
    c.pending = callbacks ++ after.pending ∧
      (callbacks = [] → ∀ req ∈ after.pending.head?, (c.clk : Int) + 1 < req.depart) := by
  obtain ⟨begun, other, _, same, begins, _, _, moved⟩ := sound.tick (paced.room fast) policy
  obtain ⟨rfl, rfl⟩ := Prod.mk.inj (Option.some.inj (ticked.symm.trans same))
  have begunNone : begun.readq = [] ∧ begun.writeq = [] := by
    rw [begins.readq, begins.writeq]
    simpa [backlog] using none
  have samePending : after.pending = begun.pending := by
    rcases moved with ⟨rfl, _⟩ | ⟨i, req, cmd, _, issues⟩
    · rfl
    · rw [issues.pending]
      rcases issues.cases with ⟨_, isRead, _⟩ | ⟨_, isWrite, _⟩ | ⟨isOther, _⟩ | ⟨prepares, _⟩
      · have found := issues.found
        rw [isRead] at found
        simp [Controller.queue, begunNone.1] at found
      · have found := issues.found
        rw [isWrite] at found
        simp [Controller.queue, begunNone.2] at found
      · have others := Memory.Controller.isOther (issues.sameKind.trans isOther)
        rw [completes, if_neg others.1, ite_self, List.append_nil]
      · rw [if_neg prepares, List.append_nil]
  obtain ⟨pending, _, _, oldest⟩ := begins.calls
  dsimp only at pending oldest
  rw [samePending]
  refine ⟨pending, fun quiet req head => ?_⟩
  have := oldest quiet req head
  push_cast at this
  exact this

end Ticks

section Sessions

variable {org : Org} {speed : Speed} {channels ranks id : Nat} {s : Session Command State}

theorem Conserved.outstanding {latency : Nat} {s next : Session Command State}
    (conserved : Conserved latency s) (after : Conserved latency next)
    (accepted : next.accepted = s.accepted) {callbacks : List Request}
    (called : next.called = s.called ++ callbacks) :
    outstanding next.ctrl + callbacks.length = outstanding s.ctrl := by
  have before := conserved.reads.length_eq
  have later := after.reads.length_eq
  rw [accepted, before] at later
  simp only [answered, called, List.map_append, List.length_append, List.length_map] at later
  unfold Ddr3.outstanding
  omega

theorem Invariant.serve_all (invariant : Invariant org speed channels ranks id s)
    (fast : Fast org speed ranks) (brisk : Brisk org speed ranks) {n : Nat}
    (long : drainTime org speed ranks ≤ n) :
    ∃ final, s.run (ddr3 org speed channels ranks) .frfcfsPriorHit (List.replicate n .tick) =
        some final ∧
      (Invariant org speed channels ranks id final ∧ final.accepted = s.accepted ∧
        outstanding final.ctrl ≤ outstanding s.ctrl) ∧ backlog final.ctrl = 0 := by
  refine CheckedLoop.foldlM_ranked
    (fun t => Invariant org speed channels ranks id t ∧ t.accepted = s.accepted ∧
      outstanding t.ctrl ≤ outstanding s.ctrl)
    (fun t => backlog t.ctrl = 0) (fun t => potential org speed ranks id t.ctrl)
    ((speedEntry org speed).nREFI - interruption org speed ranks)
    ⟨invariant, rfl, le_rfl⟩ ?_
    ((invariant.potential_lt brisk).trans_le (Nat.mul_le_mul_right _ (by simpa using long)))
  rintro op ticks t ⟨holds, accepted, fewer⟩
  obtain rfl := List.eq_of_mem_replicate ticks
  obtain ⟨after, callbacks, ticked, _, clk, kept⟩ := holds.tick fast .frfcfsPriorHit
  have less := holds.conserved.outstanding kept.conserved rfl rfl
  dsimp only at less
  refine ⟨_, by rw [Session.perform, ticked]; rfl, ⟨kept, accepted, ?_⟩, fun none => ?_,
    fun waiting => ?_⟩
  · dsimp only
    omega
  · have stays := holds.sound.backlog_tick holds.paced fast ticked
    dsimp only
    omega
  · exact holds.sound.potential_tick holds.paced fast brisk ticked clk waiting

/-- Once no access is queued all reads are called back, one in every tick after they have
departed. -/
theorem Invariant.call_all (invariant : Invariant org speed channels ranks id s)
    (fast : Fast org speed ranks) (none : backlog s.ctrl = 0) (policy : Policy) {n : Nat}
    (long : outstanding s.ctrl + (ddr3 org speed channels ranks).readLatency < n) :
    ∃ final, s.run (ddr3 org speed channels ranks) policy (List.replicate n .tick) = some final ∧
      (Invariant org speed channels ranks id final ∧ final.accepted = s.accepted ∧
        backlog final.ctrl = 0 ∧ ∀ read ∈ final.ctrl.pending, read.depart ≤
          (s.ctrl.clk : Int) + (ddr3 org speed channels ranks).readLatency) ∧
      final.ctrl.pending = [] := by
  let last : Int := (s.ctrl.clk : Int) + (ddr3 org speed channels ranks).readLatency
  refine CheckedLoop.foldlM_ranked
    (fun t => Invariant org speed channels ranks id t ∧ t.accepted = s.accepted ∧
      backlog t.ctrl = 0 ∧ ∀ read ∈ t.ctrl.pending, read.depart ≤ last)
    (fun t => t.ctrl.pending = [])
    (fun t => t.ctrl.pending.length + (last - t.ctrl.clk).toNat) 1
    ⟨invariant, rfl, none, invariant.timely⟩ ?_ ?_
  · rintro op ticks t ⟨holds, accepted, idle, soon⟩
    obtain rfl := List.eq_of_mem_replicate ticks
    obtain ⟨after, callbacks, ticked, _, clk, kept⟩ := holds.tick fast policy
    obtain ⟨split, oldest⟩ := holds.sound.pending_tick holds.paced fast ticked idle
    have stays := holds.sound.backlog_tick holds.paced fast ticked
    have remains : ∀ read ∈ after.pending, read.depart ≤ last := fun read present =>
      soon read (split ▸ List.mem_append_right _ present)
    have sizes : callbacks.length + after.pending.length = t.ctrl.pending.length := by
      rw [split, List.length_append]
    refine ⟨_, by rw [Session.perform, ticked]; rfl, ⟨kept, accepted, by dsimp only; omega, remains⟩,
      fun empty => ?_, fun waiting => ?_⟩
    · rw [empty, List.length_nil] at sizes
      show after.pending = []
      exact List.length_eq_zero_iff.mp (by omega)
    · dsimp only
      rw [clk]
      cases called : callbacks with
      | cons req rest =>
          rw [called, List.length_cons] at sizes
          omega
      | nil =>
          rw [called, List.nil_append] at split
          obtain ⟨head, others, pending⟩ := List.exists_cons_of_ne_nil waiting
          have later := oldest called head (by rw [← split, pending]; rfl)
          have bound := soon head (by simp [pending])
          rw [called, List.length_nil] at sizes
          omega
  · show _ < (List.replicate n Op.tick).length * 1
    rw [List.length_replicate]
    unfold outstanding at long
    omega

/-- A controller to which nothing is sent any more serves everything that it has accepted. -/
theorem Invariant.drain (invariant : Invariant org speed channels ranks id s)
    (fast : Fast org speed ranks) (brisk : Brisk org speed ranks) {n : Nat}
    (long : drainTime org speed ranks + outstanding s.ctrl +
      (ddr3 org speed channels ranks).readLatency < n) :
    ∃ final, s.run (ddr3 org speed channels ranks) .frfcfsPriorHit (List.replicate n .tick) =
        some final ∧ Invariant org speed channels ranks id final ∧ final.accepted = s.accepted ∧
      final.ctrl.readq = [] ∧ final.ctrl.writeq = [] ∧ final.ctrl.pending = [] := by
  obtain ⟨middle, served, ⟨holds, accepted, fewer⟩, idle⟩ :=
    invariant.serve_all fast brisk (le_refl (drainTime org speed ranks))
  obtain ⟨final, called, ⟨finalHolds, sameAccepted, none, _⟩, empty⟩ :=
    holds.call_all (n := n - drainTime org speed ranks) fast idle .frfcfsPriorHit (by omega)
  have split : List.replicate n (Op.tick : Op Request) =
      List.replicate (drainTime org speed ranks) .tick ++
        List.replicate (n - drainTime org speed ranks) .tick := by
    rw [List.replicate_append_replicate]
    congr 1
    omega
  have noneLeft : final.ctrl.readq = [] ∧ final.ctrl.writeq = [] := by simpa [backlog] using none
  refine ⟨final, ?_, finalHolds, sameAccepted.trans accepted, noneLeft.1, noneLeft.2, empty⟩
  rw [split, Session.run, List.foldlM_append]
  rw [Session.run] at served called
  rw [served]
  exact called

end Sessions

section Memories

variable {org : Org} {speed : Speed} {channels ranks : Nat} {s : MemorySession Command State}

theorem Whole.session (whole : Whole org speed channels ranks s) {req : Request}
    (present : req ∈ s.accepted ++ s.called) :
    ∃ (id : Nat) (session : Session Command State), req.addrVec.head? = some (id : Int) ∧
      s.channel id = some session ∧ Invariant org speed channels ranks id session := by
  obtain ⟨id, inChannels, named⟩ := whole.homed req present
  have bound : id < s.mem.ctrls.length := whole.length.symm ▸ inChannels
  have found := MemorySession.channel_some (List.getElem?_eq_getElem bound)
  exact ⟨id, _, named, found, (whole.each id _ found).1⟩

/-- When no read is left, every read was called back once. -/
theorem Whole.called_perm (whole : Whole org speed channels ranks s)
    (none : ∀ c ∈ s.mem.ctrls, c.readq = [] ∧ c.pending = []) :
    (s.called.map Request.ident).Perm
      ((s.accepted.filter fun req => req.type = .read).map Request.ident) := by
  refine Keyed.perm_of_filters (fun ident => ident.2.2.2.2.head?) fun ident known => ?_
  obtain ⟨req, present, rfl⟩ : ∃ req ∈ s.accepted ++ s.called, req.ident = ident := by
    rcases List.mem_append.mp known with called | accepted
    · obtain ⟨req, member, rfl⟩ := List.mem_map.mp called
      exact ⟨req, List.mem_append_right _ member, rfl⟩
    · obtain ⟨req, member, rfl⟩ := List.mem_map.mp accepted
      exact ⟨req, List.mem_append_left _ (List.mem_of_mem_filter member), rfl⟩
  obtain ⟨id, session, named, found, invariant⟩ := whole.session present
  obtain ⟨c, ctrl, rfl⟩ := Option.map_eq_some_iff.mp found
  obtain ⟨noRead, noPending⟩ := none c (List.mem_of_getElem? ctrl)
  have reads := invariant.conserved.reads
  simp only [answered, noRead, noPending, List.append_nil, List.nil_append] at reads
  rw [List.filter_map, List.filter_map, List.filter_comm]
  show List.Perm (List.map _ (s.called.filter fun other =>
      decide (other.addrVec.head? = req.addrVec.head?)))
    (List.map _ ((s.accepted.filter fun other =>
      decide (other.addrVec.head? = req.addrVec.head?)).filter fun req => decide (req.type = .read)))
  rw [named]
  exact reads.symm

/-- When no write is left, a command was issued for every write. -/
theorem Whole.written_perm (whole : Whole org speed channels ranks s)
    (none : ∀ c ∈ s.mem.ctrls, c.writeq = []) :
    ((s.accepted.filter fun req => req.type = .write).map Request.addrVec).Perm
      (s.mem.ctrls.flatMap fun c => (issuesOf .wr c.trace).map Issue.addr) := by
  have marked : ∀ (id : Nat) block,
      (s.mem.ctrls.map fun c => (issuesOf .wr c.trace).map Issue.addr)[id]? = some block →
        ∀ addr ∈ block, addr.head? = some (id : Int) := by
    intro id block found addr inside
    rw [List.getElem?_map, Option.map_eq_some_iff] at found
    obtain ⟨c, present, rfl⟩ := found
    obtain ⟨issue, issued, rfl⟩ := List.mem_map.mp inside
    have found := MemorySession.channel_some present
    exact (whole.each id _ found).1.sound.legal.head issue (List.mem_of_mem_filter issued)
  have block : ∀ (id : Nat) (c : Controller Command State), s.mem.ctrls[id]? = some c →
      (s.mem.ctrls.flatMap fun c => (issuesOf .wr c.trace).map Issue.addr).filter
          (fun addr => addr.head? = some (id : Int)) = (issuesOf .wr c.trace).map Issue.addr := by
    intro id c present
    rw [List.flatMap_def]
    exact Keyed.filter_flatten List.head? (fun id => some (id : Int))
      (fun _ _ same => by simpa using same) marked (by rw [List.getElem?_map, present]; rfl)
  refine Keyed.perm_of_filters List.head? fun addr known => ?_
  obtain ⟨id, c, named, present⟩ : ∃ (id : Nat) (c : Controller Command State),
      addr.head? = some (id : Int) ∧ s.mem.ctrls[id]? = some c := by
    rcases List.mem_append.mp known with accepted | issued
    · obtain ⟨req, member, rfl⟩ := List.mem_map.mp accepted
      obtain ⟨id, session, named, found, _⟩ :=
        whole.session (List.mem_append_left _ (List.mem_of_mem_filter member))
      obtain ⟨c, ctrl, _⟩ := Option.map_eq_some_iff.mp found
      exact ⟨id, c, named, ctrl⟩
    · obtain ⟨c, member, inside⟩ := List.mem_flatMap.mp issued
      obtain ⟨id, present⟩ := List.getElem?_of_mem member
      exact ⟨id, c, marked id _ (by rw [List.getElem?_map, present]; rfl) addr inside, present⟩
  have found := MemorySession.channel_some present
  have writes := (whole.each id _ found).1.conserved.writes
  simp only [none c (List.mem_of_getElem? present), List.map_nil, List.nil_append] at writes
  rw [named, block id c present, List.filter_map, List.filter_comm]
  exact writes

theorem ticks_accepted {policy : Policy} {n : Nat} {final : MemorySession Command State}
    (ran : s.run (ddr3 org speed channels ranks) policy (List.replicate n .tick) = some final) :
    final.accepted = s.accepted := by
  refine CheckedLoop.foldlM_invariant (fun _ now => now.accepted = s.accepted) ran rfl ?_
  intro done op rest now next split same performed
  obtain rfl := List.eq_of_mem_replicate (show op ∈ List.replicate n .tick by simp [split])
  obtain ⟨ticked, _, performed⟩ := Option.bind_eq_some_iff.mp performed
  obtain rfl := Option.some.inj performed
  exact same

theorem Whole.ticks (whole : Whole org speed channels ranks s) (fast : Fast org speed ranks)
    (policy : Policy) (n : Nat) :
    ∃ final, s.run (ddr3 org speed channels ranks) policy (List.replicate n .tick) = some final ∧
      Whole org speed channels ranks final ∧ final.accepted = s.accepted ∧
      ∀ c ∈ final.mem.ctrls, ∃ before ∈ s.mem.ctrls, ∃ id session last,
        session.ctrl = before ∧ Invariant org speed channels ranks id session ∧
        session.run (ddr3 org speed channels ranks) policy (List.replicate n .tick) = some last ∧
        last.ctrl = c := by
  have accesses : ∀ op ∈ List.replicate n (Op.tick : Op GraphAccelerator.Memory.Request),
      Accesses op := by
    intro op ticks
    rw [List.eq_of_mem_replicate ticks]
    trivial
  obtain ⟨final, ran, finalWhole, each⟩ := whole.run fast policy accesses
  refine ⟨final, ran, finalWhole, ticks_accepted ran, fun c member => ?_⟩
  obtain ⟨id, present⟩ := List.getElem?_of_mem member
  have own := each id
  have ticks : s.mem.opOf (ddr3 org speed channels ranks) id .tick = some .tick := rfl
  rw [MemorySession.channel_some present, List.filterMap_replicate_of_some ticks] at own
  obtain ⟨session, found, done⟩ := Option.bind_eq_some_iff.mp own.symm
  obtain ⟨invariant, _⟩ := whole.each id session found
  obtain ⟨before, ctrl, rfl⟩ := Option.map_eq_some_iff.mp found
  exact ⟨before, List.mem_of_getElem? ctrl, id, _, _, rfl, invariant, done, rfl⟩

theorem Whole.serve_all (whole : Whole org speed channels ranks s) (fast : Fast org speed ranks)
    (brisk : Brisk org speed ranks) {n : Nat} (long : drainTime org speed ranks ≤ n) :
    ∃ final, s.run (ddr3 org speed channels ranks) .frfcfsPriorHit (List.replicate n .tick) =
        some final ∧ ∀ c ∈ final.mem.ctrls, c.readq = [] ∧ c.writeq = [] := by
  obtain ⟨final, ran, _, _, each⟩ := whole.ticks fast .frfcfsPriorHit n
  refine ⟨final, ran, fun c member => ?_⟩
  obtain ⟨_, _, id, session, last, _, invariant, done, rfl⟩ := each c member
  obtain ⟨again, same, _, idle⟩ := invariant.serve_all fast brisk long
  obtain rfl := Option.some.inj (same.symm.trans done)
  simpa [backlog] using idle

/-- A memory to which nothing is sent any more serves everything that it has accepted. -/
theorem Whole.drain (whole : Whole org speed channels ranks s) (fast : Fast org speed ranks)
    (brisk : Brisk org speed ranks) {n : Nat}
    (long : ∀ c ∈ s.mem.ctrls, drainTime org speed ranks + outstanding c +
      (ddr3 org speed channels ranks).readLatency < n) :
    ∃ final, s.run (ddr3 org speed channels ranks) .frfcfsPriorHit (List.replicate n .tick) =
        some final ∧ Whole org speed channels ranks final ∧ final.accepted = s.accepted ∧
      ∀ c ∈ final.mem.ctrls, c.readq = [] ∧ c.writeq = [] ∧ c.pending = [] := by
  obtain ⟨final, ran, finalWhole, accepted, each⟩ := whole.ticks fast .frfcfsPriorHit n
  refine ⟨final, ran, finalWhole, accepted, fun c member => ?_⟩
  obtain ⟨before, known, id, session, last, rfl, invariant, done, rfl⟩ := each c member
  obtain ⟨again, same, _, _, empty⟩ := invariant.drain fast brisk (long _ known)
  obtain rfl := Option.some.inj (same.symm.trans done)
  exact empty

end Memories

end GraphAccelerator.Dram.Ddr3
