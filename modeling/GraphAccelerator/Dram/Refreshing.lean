import Mathlib.Algebra.Order.BigOperators.Group.List
import GraphAccelerator.Dram.Safety

/-!
# The pace of the refreshes

Refreshes are asked for at fixed intervals, one for each rank.  As long as some are
queued, nothing else is issued, and every command becomes ready when the last one is far
enough in the past.  So the queue of the refreshes is empty again before the next
interval, and every rank is refreshed once in every interval.
-/

namespace GraphAccelerator.Dram.Ddr3

open GraphAccelerator.Memory (RequestType QueueKind)

/-- The longest time that a command has to wait for another one: `nRFC` is the largest value
of the timing table. -/
def recovery (org : Org) (speed : Speed) : Nat := (speedEntry org speed).nRFC

theorem speed_recovery (org : Org) (speed : Speed) :
    let s := speedEntry org speed
    1 ≤ s.nRFC ∧ s.nRTP ≤ s.nRFC ∧ s.nCWL + s.nBL + s.nWR ≤ s.nRFC ∧ s.nRAS + s.nRP ≤ s.nRFC ∧
      s.nRC ≤ s.nRFC ∧ s.nFAW ≤ s.nRFC ∧ s.nCL + s.nCCD + 2 ≤ s.nRFC ∧
      s.nCL + s.nBL + s.nRTRS ≤ s.nRFC ∧ s.nCWL + s.nBL + s.nWTR ≤ s.nRFC ∧
      s.nCWL + s.nBL + s.nRTRS ≤ s.nRFC ∧ s.nRRD ≤ s.nRFC ∧ s.nRCD ≤ s.nRFC := by
  cases org <;> cases speed <;> decide

def Used (cmd : Command) : Prop :=
  cmd = .act ∨ cmd = .pre ∨ cmd = .prea ∨ cmd = .rd ∨ cmd = .wr ∨ cmd = .ref

theorem timing_recovery (org : Org) (speed : Speed) (level : Nat) (cmd : Command) :
    ∀ t ∈ timing (speedEntry org speed) level cmd,
      Used cmd ∧ Used t.cmd → t.val ≤ recovery org speed := by
  obtain ⟨_, rtp, wr, ras, rc, faw, casRead, rankRead, wtr, rankWrite, rrd, rcd⟩ :=
    speed_recovery org speed
  refine @timing_forall (speedEntry org speed) (fun cmd t =>
    Used cmd ∧ Used t.cmd → t.val ≤ recovery org speed) ?_ ?_ ?_ level cmd
  · simp [channelTiming, Used, recovery]
    omega
  · simp [rankTiming, Used, recovery]
    omega
  · simp [bankTiming, Used, recovery]
    omega

section Timing

variable {org : Org} {speed : Speed} {channels ranks id : Nat} {log : List (Issue Command)}
  {cmd : Command} {addr : List Int}

theorem Targets.used (targets : Targets org ranks id cmd addr) : Used cmd := by
  unfold Used
  rcases targets with ⟨single, _⟩ | ⟨whole, _⟩
  · tauto
  · tauto

theorem Legal.used (legal : Legal org speed channels ranks id log) :
    ∀ issue ∈ log, Used issue.cmd := by
  induction legal with
  | nil => simp
  | issue _ targets _ _ _ inductionHypothesis =>
      exact List.forall_mem_cons.mpr ⟨targets.used, inductionHypothesis⟩

theorem Legal.allows (legal : Legal org speed channels ranks id log) (used : Used cmd) {now : Int}
    (quiet : ∀ issue ∈ log, issue.clk + recovery org speed ≤ now) :
    TimingAllows (ddr3 org speed channels ranks) log cmd addr now := by
  intro level _ _ _ earlier t entry forCmd past present
  obtain ⟨issue, known, sameCmd, rfl⟩ : ∃ issue ∈ log, issue.cmd = earlier ∧ issue.clk = past := by
    have present := List.mem_of_mem_drop present
    split at present
    · obtain ⟨issue, known, same⟩ := List.mem_map.mp present
      have kept := List.mem_filter.mp known
      exact ⟨issue, kept.1, by simpa using (of_decide_eq_true kept.2).1, same⟩
    · obtain ⟨issue, known, same⟩ := List.mem_map.mp present
      have kept := List.mem_filter.mp known
      exact ⟨issue, kept.1, by simpa using (of_decide_eq_true kept.2).1, same⟩
  have bound := timing_recovery org speed _ earlier t entry
    ⟨sameCmd ▸ legal.used issue known, forCmd ▸ used⟩
  have := quiet issue known
  omega

/-- The time since the last command, as far as it matters. -/
def gap (longest : Nat) (now : Int) : List (Issue Command) → Int
  | [] => longest
  | issue :: _ => min longest (now - issue.clk)

theorem gap_le (longest : Nat) (now : Int) (log : List (Issue Command)) :
    gap longest now log ≤ longest := by
  cases log with
  | nil => exact le_rfl
  | cons issue log => exact min_le_left _ _

theorem gap_pos {longest : Nat} (positive : 1 ≤ longest) {now : Int}
    (past : ∀ issue ∈ log, issue.clk ≤ now) : 1 ≤ gap longest (now + 1) log := by
  cases log with
  | nil =>
      dsimp only [gap]
      omega
  | cons issue log =>
      have := past issue (by simp)
      dsimp only [gap]
      omega

theorem gap_succ (log : List (Issue Command)) {longest : Nat} {now : Int}
    (short : gap longest (now + 1) log ≠ longest) :
    gap longest (now + 1) log = gap longest now log + 1 := by
  cases log with
  | nil => exact absurd rfl short
  | cons issue log =>
      dsimp only [gap] at short ⊢
      omega

/-- Nothing has to wait when the last command is far enough in the past. -/
theorem Legal.allows_gap (legal : Legal org speed channels ranks id log) (used : Used cmd)
    {now : Int}
    (quiet : gap (recovery org speed) now log = recovery org speed) :
    TimingAllows (ddr3 org speed channels ranks) log cmd addr now := by
  refine legal.allows used ?_
  cases legal with
  | nil => simp
  | issue _ _ _ _ later =>
      dsimp only [gap] at quiet
      refine List.forall_mem_cons.mpr ⟨by dsimp only; omega, fun earlier known => ?_⟩
      have := later earlier known
      omega

end Timing

section Load

variable {heavy banks : Nat} {log : List (Issue Command)} {addr other : List Int} {clk : Int}

/-- How heavy the refresh of a rank still is: it is light when all banks are closed. -/
def weight (heavy banks : Nat) (log : List (Issue Command)) (addr : List Int) : Nat :=
  if nextCommand banks log .refresh addr = .ref then 1 else heavy

def load (heavy banks : Nat) (log : List (Issue Command)) (addrs : List (List Int)) : Nat :=
  (addrs.map (weight heavy banks log)).sum

theorem nextCommand_refresh (banks : Nat) (log : List (Issue Command)) (addr : List Int) :
    nextCommand banks log .refresh addr = .ref ↔
      ∀ b < banks, openAfter (addr.take 2 ++ [(b : Int)]) log = none := by
  rw [nextCommand, if_pos rfl]
  split
  · rename_i opened
    obtain ⟨b, bound, opened⟩ := opened
    simp only [reduceCtorEq, false_iff, not_forall]
    exact ⟨b, bound, by simpa [Option.isSome_iff_ne_none] using opened⟩
  · rename_i closed
    simp only [true_iff]
    intro b bound
    by_contra opened
    exact closed ⟨b, bound, Option.isSome_iff_ne_none.mpr opened⟩

theorem weight_le (most : 1 ≤ heavy) (banks : Nat) (log : List (Issue Command))
    (addr : List Int) : 1 ≤ weight heavy banks log addr ∧ weight heavy banks log addr ≤ heavy := by
  unfold weight
  split <;> omega

theorem weight_prea (most : 1 ≤ heavy) (banks : Nat) (log : List (Issue Command))
    (addr other : List Int) (clk : Int) :
    weight heavy banks (⟨.prea, addr, clk⟩ :: log) other ≤ weight heavy banks log other := by
  by_cases ready : nextCommand banks log .refresh other = .ref
  · have stays : nextCommand banks (⟨.prea, addr, clk⟩ :: log) .refresh other = .ref := by
      rw [nextCommand_refresh] at ready ⊢
      intro b bound
      simp [openAfter, ready b bound]
    rw [weight, weight, if_pos ready, if_pos stays]
  · have := weight_le most banks (⟨.prea, addr, clk⟩ :: log) other
    rw [weight, weight, if_neg ready] at *
    omega

theorem weight_prea_self (heavy banks : Nat) (log : List (Issue Command)) (addr : List Int)
    (clk : Int) : weight heavy banks (⟨.prea, addr, clk⟩ :: log) addr = 1 := by
  rw [weight, if_pos]
  rw [nextCommand_refresh]
  intro b _
  rw [openAfter]
  exact if_pos (by simpa using List.take_prefix 2 addr)

theorem weight_ref (heavy banks : Nat) (log : List (Issue Command)) (addr : List Int) (clk : Int) :
    weight heavy banks (⟨.ref, addr, clk⟩ :: log) = weight heavy banks log := by
  have keeps : ∀ key, openAfter key (⟨.ref, addr, clk⟩ :: log) = openAfter key log :=
    fun _ => rfl
  funext other
  simp only [weight, nextCommand, keeps]

theorem nextCommand_ne (banks : Nat) (log : List (Issue Command)) (addr : List Int)
    (first : nextCommand banks log .refresh addr ≠ .ref) :
    nextCommand banks log .refresh addr = .prea := by
  rw [nextCommand, if_pos rfl] at first ⊢
  split at first
  · rename_i opened
    rw [if_pos opened]
  · exact absurd rfl first

theorem load_next (most : 1 ≤ heavy) (banks : Nat) (log : List (Issue Command))
    {addrs : List (List Int)} {i : Nat} (found : addrs[i]? = some addr) (clk : Int) :
    load heavy banks (⟨nextCommand banks log .refresh addr, addr, clk⟩ :: log)
        (if nextCommand banks log .refresh addr = .ref then addrs.eraseIdx i else addrs) +
        (if nextCommand banks log .refresh addr = .ref then 1 else heavy - 1) ≤
      load heavy banks log addrs := by
  obtain ⟨bound, rfl⟩ := List.getElem?_eq_some_iff.mp found
  have split := List.getElem_cons_eraseIdx_perm bound
  have total : ∀ log, load heavy banks log addrs =
      weight heavy banks log addrs[i] + load heavy banks log (addrs.eraseIdx i) := by
    intro log
    have same := (split.map (weight heavy banks log)).sum_eq
    rw [List.map_cons, List.sum_cons] at same
    exact same.symm
  by_cases last : nextCommand banks log .refresh addrs[i] = .ref
  · have ownWeight : weight heavy banks log addrs[i] = 1 := by rw [weight, if_pos last]
    rw [if_pos last, if_pos last, last, total log, ownWeight, load, weight_ref, ← load]
    omega
  · rw [if_neg last, if_neg last, nextCommand_ne banks log _ last, total log, total,
      weight_prea_self]
    have ownWeight : weight heavy banks log addrs[i] = heavy := by rw [weight, if_neg last]
    have others : load heavy banks (⟨.prea, addrs[i], clk⟩ :: log) (addrs.eraseIdx i) ≤
        load heavy banks log (addrs.eraseIdx i) :=
      List.sum_le_sum fun addr _ => weight_prea most banks log addrs[i] addr clk
    omega

theorem load_bounds (most : 1 ≤ heavy) (banks : Nat) (log : List (Issue Command))
    (addrs : List (List Int)) :
    addrs.length ≤ load heavy banks log addrs ∧
      load heavy banks log addrs ≤ heavy * addrs.length := by
  induction addrs with
  | nil => simp [load]
  | cons addr rest inductionHypothesis =>
      have := weight_le most banks log addr
      simp only [load, List.map_cons, List.sum_cons, List.length_cons, Nat.mul_add, Nat.mul_one]
        at inductionHypothesis ⊢
      omega

end Load

def rankAddr (id r : Nat) : List Int := [(id : Int), r, -1, -1, -1]

def refreshes (id r : Nat) (log : List (Issue Command)) : Nat :=
  log.countP fun issue => issue.cmd = .ref ∧ issue.addr = rankAddr id r

/-- The refreshes of all ranks are over before the next ones are due. -/
def Fast (org : Org) (speed : Speed) (ranks : Nat) : Prop :=
  2 * ranks * (recovery org speed + 1) ≤ (speedEntry org speed).nREFI ∧ ranks ≤ 32

theorem nREFI_long (org : Org) (speed : Speed) :
    22 * (recovery org speed + 1) ≤ (speedEntry org speed).nREFI := by
  cases org <;> cases speed <;> decide

/-- For every organisation and every speed of the tables up to eleven ranks are few enough. -/
theorem fast_of_ranks (org : Org) (speed : Speed) {ranks : Nat} (few : ranks ≤ 11) :
    Fast org speed ranks := by
  refine ⟨?_, by omega⟩
  exact (Nat.mul_le_mul_right _ (by omega)).trans (nREFI_long org speed)

/-- The refreshes that were asked for are queued or were issued. -/
structure Asked (org : Org) (speed : Speed) (ranks id : Nat) (c : Controller Command State) :
    Prop where
  clk : c.refresh.clk = c.clk
  refreshed : c.refresh.refreshed = (speedEntry org speed).nREFI *
    (c.clk / (speedEntry org speed).nREFI)
  batch : (c.otherq.map Request.addrVec).Sublist ((List.range ranks).map (rankAddr id))
  counts : ∀ r < ranks, refreshes id r c.trace + (c.otherq.map Request.addrVec).count (rankAddr id r) =
    c.clk / (speedEntry org speed).nREFI

/-- The commands that are left, each with the time that it may have to wait, and the time
since the refreshes were asked for. -/
def spent (org : Org) (speed : Speed) (c : Controller Command State) : Nat :=
  (recovery org speed + 1) * load 2 (orgTable org).bank c.trace (c.otherq.map Request.addrVec) +
    c.clk % (speedEntry org speed).nREFI

def allowance (org : Org) (speed : Speed) (ranks : Nat) : Nat :=
  2 * ranks * (recovery org speed + 1)

/-- The invariant of the refreshes. -/
structure Paced (org : Org) (speed : Speed) (ranks id : Nat) (c : Controller Command State) :
    Prop where
  asked : Asked org speed ranks id c
  pace : c.otherq ≠ [] →
    spent org speed c < allowance org speed ranks + gap (recovery org speed) c.clk c.trace

/-- What holds of the refreshes in the middle of a tick: a command can still be issued, and
if none can there is still time. -/
structure Pacing (org : Org) (speed : Speed) (ranks id : Nat) (c : Controller Command State) :
    Prop where
  asked : Asked org speed ranks id c
  issue : c.otherq ≠ [] → spent org speed c ≤ allowance org speed ranks + recovery org speed
  wait : c.otherq ≠ [] → gap (recovery org speed) c.clk c.trace ≠ recovery org speed →
    spent org speed c < allowance org speed ranks + gap (recovery org speed) c.clk c.trace

theorem next_mod (clk : Nat) {length : Nat} (positive : 0 < length) :
    (clk % length + 1 < length →
        (clk + 1) / length = clk / length ∧ (clk + 1) % length = clk % length + 1) ∧
      (length ≤ clk % length + 1 →
        (clk + 1) / length = clk / length + 1 ∧ (clk + 1) % length = 0) := by
  have split := Nat.div_add_mod clk length
  have bound := Nat.mod_lt clk positive
  refine ⟨fun inside => ?_, fun last => ?_⟩
  · exact (Nat.div_mod_unique positive).mpr ⟨by omega, inside⟩
  · refine (Nat.div_mod_unique positive).mpr ⟨?_, positive⟩
    rw [Nat.mul_add, Nat.mul_one]
    omega

theorem nREFI_pos (org : Org) (speed : Speed) : 0 < (speedEntry org speed).nREFI := by
  have := nREFI_long org speed
  omega

section Pace

variable {org : Org} {speed : Speed} {channels ranks id : Nat} {c : Controller Command State}

theorem Asked.due_iff (asked : Asked org speed ranks id c) :
    Due org speed channels ranks c ↔
      (speedEntry org speed).nREFI ≤ c.clk % (speedEntry org speed).nREFI + 1 := by
  have split := Nat.div_add_mod c.clk (speedEntry org speed).nREFI
  rw [Due, asked.clk, asked.refreshed]
  show (speedEntry org speed).nREFI ≤ _ ↔ _
  omega

/-- When the next refreshes are due all earlier ones are over. -/
theorem Paced.over (paced : Paced org speed ranks id c) (fast : Fast org speed ranks)
    (due : Due org speed channels ranks c) : c.otherq = [] := by
  by_contra waiting
  have pace := paced.pace waiting
  have last := paced.asked.due_iff.mp due
  have bounded := gap_le (recovery org speed) c.clk c.trace
  have some : 1 ≤ load 2 (orgTable org).bank c.trace (c.otherq.map Request.addrVec) := by
    refine le_trans ?_ (load_bounds one_le_two _ _ _).1
    rw [List.length_map]
    exact List.length_pos_iff.mpr waiting
  have enough := fast.1
  have least := Nat.mul_le_mul_left (recovery org speed + 1) some
  rw [spent, allowance] at pace
  omega

theorem Paced.room (paced : Paced org speed ranks id c) (fast : Fast org speed ranks)
    (due : Due org speed channels ranks c) : c.otherq.length + ranks ≤ 32 := by
  rw [paced.over fast due]
  simpa using fast.2

theorem Paced.begin (paced : Paced org speed ranks id c) (fast : Fast org speed ranks)
    (past : ∀ issue ∈ c.trace, issue.clk ≤ c.clk) {begun : Controller Command State}
    {callbacks : List Request} (begins : Begins org speed channels ranks id c begun callbacks) :
    Pacing org speed ranks id begun := by
  obtain ⟨inside, last⟩ := next_mod c.clk (nREFI_pos org speed)
  have grows := @gap_succ c.trace (recovery org speed) c.clk
  have positive : 1 ≤ gap (recovery org speed) (c.clk + 1) c.trace :=
    gap_pos (speed_recovery org speed).1 past
  have bounded := gap_le (recovery org speed) c.clk c.trace
  by_cases due : Due org speed channels ranks c
  · obtain ⟨sameQuotient, noRest⟩ := last (paced.asked.due_iff.mp due)
    obtain ⟨refreshed, queued⟩ := begins.due due
    rw [paced.over fast due, List.nil_append] at queued
    have addrs : begun.otherq.map Request.addrVec = (List.range ranks).map (rankAddr id) := by
      rw [queued, List.map_map]
      rfl
    have nodup : ((List.range ranks).map (rankAddr id)).Nodup := by
      refine List.Nodup.map_on ?_ List.nodup_range
      intro r _ other _ same
      simpa [rankAddr] using same
    have few : spent org speed begun ≤ allowance org speed ranks := by
      have size := (load_bounds one_le_two (orgTable org).bank begun.trace
        (begun.otherq.map Request.addrVec)).2
      rw [addrs, List.length_map, List.length_range, ← addrs] at size
      rw [spent, begins.clk, noRest, allowance, Nat.mul_comm (2 * ranks)]
      exact Nat.mul_le_mul_left _ size
    refine ⟨⟨?_, ?_, ?_, ?_⟩, ?_, ?_⟩
    · rw [begins.refreshClk, begins.clk, paced.asked.clk]
    · have split := Nat.div_add_mod (c.clk + 1) (speedEntry org speed).nREFI
      rw [noRest, Nat.add_zero] at split
      rw [refreshed, begins.clk, split, paced.asked.clk]
    · rw [addrs]
    · intro r inRanks
      have earlier := paced.asked.counts r inRanks
      rw [paced.over fast due, List.map_nil, List.count_nil] at earlier
      rw [begins.trace, begins.clk, sameQuotient, addrs, List.count_eq_one_of_mem nodup
        (List.mem_map_of_mem (List.mem_range.mpr inRanks)), ← earlier, Nat.add_zero]
    · intro _
      omega
    · intro _ _
      rw [begins.trace, begins.clk, Nat.cast_add, Nat.cast_one]
      omega
  · have notDue := begins.notDue due
    rw [paced.asked.due_iff, not_le] at due
    obtain ⟨sameQuotient, more⟩ := inside due
    have sameSpent : spent org speed begun = spent org speed c + 1 := by
      rw [spent, spent, begins.trace, begins.clk, notDue.2, more]
      omega
    refine ⟨⟨?_, ?_, ?_, ?_⟩, ?_, ?_⟩
    · rw [begins.refreshClk, begins.clk, paced.asked.clk]
    · rw [notDue.1, begins.clk, sameQuotient, paced.asked.refreshed]
    · rw [notDue.2]
      exact paced.asked.batch
    · rw [begins.trace, notDue.2, begins.clk, sameQuotient]
      exact paced.asked.counts
    · rw [notDue.2, sameSpent]
      intro waiting
      have := paced.pace waiting
      omega
    · rw [notDue.2, sameSpent, begins.trace, begins.clk, Nat.cast_add, Nat.cast_one]
      intro waiting short
      have := paced.pace waiting
      have := grows short
      omega

theorem nextCommand_ne_ref {banks : Nat} {log : List (Issue Command)} {type : RequestType}
    (notRefresh : type ≠ .refresh) (addr : List Int) : nextCommand banks log type addr ≠ .ref := by
  rw [nextCommand, if_neg notRefresh]
  unfold firstCommand
  split
  · simp
  · split
    · cases type <;> simp [translate] at notRefresh ⊢
    · simp

theorem Pacing.issue_next {begun after : Controller Command State}
    (pacing : Pacing org speed ranks id begun) {i : Nat} {req : Request} {cmd : Command}
    (issues : Issues org speed channels ranks id begun after begun.scheduled i req cmd) :
    Paced org speed ranks id after := by
  obtain ⟨⟨sameClk, refreshed, batch, counts⟩, mayIssue, _⟩ := pacing
  by_cases queued : begun.otherq = []
  · have scheduled : .otherq ≠ begun.scheduled := by
      unfold Controller.scheduled
      rw [queued]
      simp only [List.length_nil, ne_eq, not_true_eq_false, if_false]
      split <;> simp
    have empty : after.otherq = [] := (issues.others .otherq scheduled).trans queued
    have notRefresh : req.type ≠ .refresh := by
      intro isRefresh
      have sameKind := issues.sameKind
      rw [isRefresh] at sameKind
      exact scheduled sameKind
    refine ⟨⟨?_, ?_, ?_, fun r inRanks => ?_⟩, fun waiting => absurd empty waiting⟩
    · rw [issues.refresh, issues.clk, sameClk]
    · rw [issues.refresh, issues.clk, refreshed]
    · rw [empty]
      exact List.nil_sublist _
    · have others : ¬ (cmd = .ref ∧ req.addrVec = rankAddr id r) := by
        rintro ⟨isRef, _⟩
        exact nextCommand_ne_ref notRefresh req.addrVec (issues.next.symm.trans isRef)
      rw [issues.trace, issues.clk, empty, ← counts r inRanks, queued, refreshes,
        List.countP_cons_of_neg (by simpa using others)]
      rfl
  · have scheduled : begun.scheduled = .otherq := by
      simp [Controller.scheduled, queued]
    rw [scheduled] at issues
    have isRefresh : req.type = .refresh := by
      have sameKind := issues.sameKind
      rcases issues.fits with ⟨access, _⟩ | ⟨isRefresh, _⟩
      · rcases access with type | type <;> simp [type, Memory.RequestType.queue] at sameKind
      · exact isRefresh
    have next := issues.next
    have own := issues.queue_map (f := Request.addrVec) rfl
    rw [isRefresh] at next own
    have found : (begun.otherq.map Request.addrVec)[i]? = some req.addrVec := by
      rw [List.getElem?_map]
      exact congrArg (Option.map Request.addrVec) issues.found
    change after.otherq.map Request.addrVec =
      if cmd = .ref then (begun.otherq.map Request.addrVec).eraseIdx i
      else begun.otherq.map Request.addrVec at own
    have before := mayIssue queued
    rw [spent] at before
    generalize begun.otherq.map Request.addrVec = addrs at *
    obtain ⟨bound, sameAddr⟩ := List.getElem?_eq_some_iff.mp found
    refine ⟨⟨?_, ?_, ?_, fun r inRanks => ?_⟩, fun _ => ?_⟩
    · rw [issues.refresh, issues.clk, sameClk]
    · rw [issues.refresh, issues.clk, refreshed]
    · rw [own]
      split
      · exact (List.eraseIdx_sublist _ _).trans batch
      · exact batch
    · rw [issues.trace, issues.clk, own, ← counts r inRanks, refreshes]
      by_cases last : cmd = .ref
      · have split := (List.getElem_cons_eraseIdx_perm bound).count_eq (rankAddr id r)
        rw [sameAddr, List.count_cons] at split
        rw [if_pos last, last, ← split, refreshes, List.countP_cons]
        simp only [true_and, decide_eq_true_eq, beq_iff_eq]
        omega
      · rw [if_neg last, List.countP_cons_of_neg (by simp [last]), refreshes]
    · have fewer := load_next one_le_two (orgTable org).bank begun.trace found begun.clk
      rw [← next, ← issues.trace, ← own, show 2 - 1 = 1 from rfl, ite_self] at fewer
      have recent : gap (recovery org speed) after.clk after.trace = 0 := by
        rw [issues.clk, issues.trace]
        dsimp only [gap]
        omega
      rw [recent, spent, issues.clk]
      have step := Nat.mul_le_mul_left (recovery org speed + 1) fewer
      rw [Nat.mul_add, Nat.mul_one] at step
      omega

theorem Waits.short {begun : Controller Command State} {kind : QueueKind}
    (waits : Waits org speed channels ranks begun kind)
    (sound : Sound org speed channels ranks id begun) :
    gap (recovery org speed) begun.clk begun.trace ≠ recovery org speed := by
  intro quiet
  obtain ⟨req, queued, blocked⟩ := waits
  obtain ⟨_, targets, _⟩ := sound.reflects.first (sound.queues kind req queued).2.1
  exact blocked (sound.legal.allows_gap targets.used quiet)

theorem Pacing.wait_next {begun : Controller Command State}
    (pacing : Pacing org speed ranks id begun) (sound : Sound org speed channels ranks id begun)
    (waits : begun.queue begun.scheduled ≠ [] →
      Waits org speed channels ranks begun begun.scheduled) :
    Paced org speed ranks id begun := by
  refine ⟨pacing.asked, fun waiting => pacing.wait waiting fun quiet => ?_⟩
  have scheduled : begun.scheduled = .otherq := by
    simp [Controller.scheduled, waiting]
  rw [scheduled] at waits
  exact (waits waiting).short sound quiet

/-- A tick succeeds and keeps the pace. -/
theorem Paced.tick (paced : Paced org speed ranks id c)
    (sound : Sound org speed channels ranks id c) (fast : Fast org speed ranks) (policy : Policy) :
    ∃ after callbacks, c.tick (ddr3 org speed channels ranks) policy = some (after, callbacks) ∧
      Sound org speed channels ranks id after ∧ Paced org speed ranks id after := by
  obtain ⟨begun, after, callbacks, ticked, begins, begunSound, afterSound, moved⟩ :=
    sound.tick (paced.room fast) policy
  refine ⟨after, callbacks, ticked, afterSound, ?_⟩
  have pacing := paced.begin fast sound.past begins
  rcases moved with ⟨rfl, waits⟩ | ⟨i, req, cmd, _, issues⟩
  · exact pacing.wait_next afterSound waits
  · exact pacing.issue_next issues

theorem Paced.start (org : Org) (speed : Speed) (channels ranks id : Nat) :
    Paced org speed ranks id { channel := DRAM.channel (ddr3 org speed channels ranks) id } where
  asked := ⟨rfl, by simp, List.nil_sublist _, by simp [refreshes]⟩
  pace := by simp

theorem Paced.enqueue (paced : Paced org speed ranks id c) {req : Request}
    (sound : Sound org speed channels ranks id c)
    (access : req.type = .read ∨ req.type = .write) (mapped : Mapped org ranks id req.addrVec)
    (fresh : req.isFirstCommand = true) : Paced org speed ranks id (c.enqueue req).1 := by
  obtain ⟨_, trace, clk, refresh, otherq⟩ := sound.enqueue access mapped fresh
  refine ⟨⟨?_, ?_, ?_, ?_⟩, ?_⟩
  · rw [refresh, clk, paced.asked.clk]
  · rw [refresh, clk, paced.asked.refreshed]
  · rw [otherq]
    exact paced.asked.batch
  · rw [trace, otherq, clk]
    exact paced.asked.counts
  · rw [otherq, spent, trace, otherq, clk]
    exact paced.pace

end Pace

end GraphAccelerator.Dram.Ddr3
