import Mathlib.Algebra.BigOperators.Ring.Finset
import Mathlib.Algebra.Order.BigOperators.Group.Finset
import GraphAccelerator.Dram.Session

/-!
# The progress of a channel

With priority to row hits, a row is closed only when no request in the queue hits it.  So
every command brings the queue closer to its end, and the refreshes in between undo only
some of this.  The potential below falls in every tick as long as requests are queued.
-/

namespace GraphAccelerator.Dram.Ddr3

open GraphAccelerator.Memory (RequestType QueueKind)

def Wanted (addrs : List (List Int)) (bank : List Int) (row : Int) : Prop :=
  ∃ addr ∈ addrs, addr.take 3 = bank ∧ addr.getD 3 0 = row

instance (addrs : List (List Int)) (bank : List Int) (row : Int) :
    Decidable (Wanted addrs bank row) := inferInstanceAs (Decidable (∃ _ ∈ _, _))

/-- How many commands have to come at most before an access to the bank. -/
def bankWork (log : List (Issue Command)) (addrs : List (List Int)) (bank : List Int) : Nat :=
  match openAfter bank log with
  | none => 1
  | some row => if Wanted addrs bank row then 0 else 2

def prepare (org : Org) (ranks id : Nat) (log : List (Issue Command)) (addrs : List (List Int)) :
    Nat :=
  ((Finset.range ranks) ×ˢ (Finset.range (orgTable org).bank)).sum fun place =>
    bankWork log addrs [(id : Int), place.1, place.2]

section Work

variable {org : Org} {ranks id : Nat} {log : List (Issue Command)} {addrs left : List (List Int)}
  {addr bank : List Int} {cmd : Command} {clk : Int} {i : Nat}

theorem bankWork_le (log : List (Issue Command)) (addrs : List (List Int)) (bank : List Int) :
    bankWork log addrs bank ≤ 2 := by
  unfold bankWork
  split
  · omega
  · split <;> omega

theorem prepare_le (org : Org) (ranks id : Nat) (log : List (Issue Command))
    (addrs : List (List Int)) :
    prepare org ranks id log addrs ≤ 2 * (ranks * (orgTable org).bank) := by
  refine (Finset.sum_le_sum fun _ _ => bankWork_le _ _ _).trans ?_
  rw [Finset.sum_const_nat fun _ _ => rfl, Finset.card_product, Finset.card_range,
    Finset.card_range, Nat.mul_comm]

theorem prepare_change {other : List (Issue Command)} (mapped : Mapped org ranks id addr)
    (same : ∀ bank : List Int, bank.length = 3 → bank ≠ addr.take 3 →
      bankWork other left bank = bankWork log addrs bank) :
    prepare org ranks id other left + bankWork log addrs (addr.take 3) =
      prepare org ranks id log addrs + bankWork other left (addr.take 3) := by
  obtain ⟨r, b, row, col, rfl, inRanks, inBanks⟩ := mapped.shape
  have here : (r, b) ∈ (Finset.range ranks) ×ˢ (Finset.range (orgTable org).bank) := by
    simp [inRanks, inBanks]
  have rest : ∀ place ∈ ((Finset.range ranks) ×ˢ (Finset.range (orgTable org).bank)).erase (r, b),
      bankWork other left [(id : Int), place.1, place.2] =
        bankWork log addrs [(id : Int), place.1, place.2] := by
    intro place elsewhere
    refine same _ rfl fun collides => (Finset.mem_erase.mp elsewhere).1 ?_
    simp only [List.take_succ_cons, List.take_zero, List.cons.injEq, Nat.cast_inj, true_and,
      and_true] at collides
    exact Prod.ext collides.1 collides.2
  have split : ∀ (log : List (Issue Command)) (addrs : List (List Int)),
      prepare org ranks id log addrs = bankWork log addrs [(id : Int), r, b] +
        (((Finset.range ranks) ×ˢ (Finset.range (orgTable org).bank)).erase (r, b)).sum fun place =>
          bankWork log addrs [(id : Int), place.1, place.2] :=
    fun log addrs => (Finset.add_sum_erase _
      (fun place : Nat × Nat => bankWork log addrs [(id : Int), place.1, place.2]) here).symm
  rw [split other left, split log addrs, Finset.sum_congr rfl rest]
  show _ + _ + bankWork log addrs [(id : Int), r, b] = _ + _ + bankWork other left [(id : Int), r, b]
  omega

theorem bankWork_elsewhere (single : cmd ≠ .prea) (elsewhere : bank ≠ addr.take 3)
    (wide : bank.length = 3)
    (others : ∀ other : List Int, other.take 3 ≠ addr.take 3 → (other ∈ left ↔ other ∈ addrs)) :
    bankWork (⟨cmd, addr, clk⟩ :: log) left bank = bankWork log addrs bank := by
  have notBank : ¬ bank <+: addr := by
    rw [List.prefix_iff_eq_take, wide]
    exact elsewhere
  have wanted : ∀ row, Wanted left bank row ↔ Wanted addrs bank row := by
    intro row
    refine exists_congr fun other => ?_
    refine and_congr_left fun there => others other ?_
    rw [there.1]
    exact elsewhere
  rw [bankWork, bankWork, openAfter_other notBank single]
  split
  · rfl
  · simp only [wanted]

theorem mem_eraseIdx_elsewhere (found : addrs[i]? = some addr) (other : List Int)
    (elsewhere : other.take 3 ≠ addr.take 3) : other ∈ addrs.eraseIdx i ↔ other ∈ addrs := by
  obtain ⟨bound, rfl⟩ := List.getElem?_eq_some_iff.mp found
  rw [← (List.getElem_cons_eraseIdx_perm bound).mem_iff, List.mem_cons]
  refine ⟨.inr, fun present => present.resolve_left ?_⟩
  rintro rfl
  exact elsewhere rfl

/-- Every command for an access lowers what is left, provided that it closes no row that
another access wants. -/
theorem prepare_access (clk : Int) {banks : Nat} {type : RequestType} (mapped : Mapped org ranks id addr)
    (found : addrs[i]? = some addr) (notRefresh : type ≠ .refresh)
    (last : translate type = .rd ∨ translate type = .wr)
    (harmless : nextCommand banks log type addr = .pre → ∀ row,
      openAfter (addr.take 3) log = some row → ¬ Wanted addrs (addr.take 3) row)
    (next : cmd = nextCommand banks log type addr)
    (erased : left = if cmd = translate type then addrs.eraseIdx i else addrs) :
    3 * left.length + prepare org ranks id (⟨cmd, addr, clk⟩ :: log) left + 1 ≤
      3 * addrs.length + prepare org ranks id log addrs := by
  have reaches : addr.take 3 <+: addr := List.take_prefix 3 addr
  rw [nextCommand, if_neg notRefresh] at next harmless
  have single : cmd ≠ .prea := by
    rw [next]
    unfold firstCommand
    split
    · simp
    · split
      · rcases last with last | last <;> simp [last]
      · simp
  have others : ∀ other : List Int, other.take 3 ≠ addr.take 3 → (other ∈ left ↔ other ∈ addrs) := by
    intro other elsewhere
    rw [erased]
    split
    · exact mem_eraseIdx_elsewhere found other elsewhere
    · exact Iff.rfl
  have change := prepare_change mapped
    (fun bank wide elsewhere => @bankWork_elsewhere log addrs left addr bank cmd clk single elsewhere
      wide others)
  have bounded := bankWork_le (⟨cmd, addr, clk⟩ :: log) left (addr.take 3)
  cases opened : openAfter (addr.take 3) log with
  | none =>
      obtain rfl : cmd = .act := by rw [next, opened]; rfl
      have notLast : Command.act ≠ translate type := by
        rcases last with last | last <;> simp [last]
      rw [if_neg notLast] at erased
      subst erased
      have before : bankWork log left (addr.take 3) = 1 := by rw [bankWork, opened]
      have after : bankWork (⟨.act, addr, clk⟩ :: log) left (addr.take 3) = 0 := by
        obtain ⟨r, b, row, col, rfl, _⟩ := mapped.shape
        have opens : openAfter [(id : Int), r, b] (⟨.act, [(id : Int), r, b, row, col], clk⟩ :: log) =
            some (row : Int) := by simp [openAfter]
        show bankWork _ left [(id : Int), r, b] = 0
        rw [bankWork, opens]
        exact if_pos ⟨_, List.mem_of_getElem? found, rfl, rfl⟩
      omega
  | some row =>
      rw [opened] at next harmless
      by_cases hit : row = addr.getD 3 0
      · have isLast : cmd = translate type := by rw [next, firstCommand, if_pos hit]
        rw [if_pos isLast] at erased
        have before : bankWork log addrs (addr.take 3) = 0 := by
          rw [bankWork, opened]
          exact if_pos ⟨addr, List.mem_of_getElem? found, rfl, hit.symm⟩
        have shorter : left.length + 1 = addrs.length := by
          obtain ⟨bound, _⟩ := List.getElem?_eq_some_iff.mp found
          rw [erased, List.length_eraseIdx, if_pos bound]
          omega
        omega
      · have isPre : firstCommand (some row) (translate type) (addr.getD 3 0) = .pre := by
          rw [firstCommand, if_neg hit]
        obtain rfl : cmd = .pre := next.trans isPre
        have notLast : Command.pre ≠ translate type := by
          rcases last with last | last <;> simp [last]
        rw [if_neg notLast] at erased
        subst erased
        have before : bankWork log left (addr.take 3) = 2 := by
          rw [bankWork, opened]
          exact if_neg (harmless isPre row rfl)
        have after : bankWork (⟨.pre, addr, clk⟩ :: log) left (addr.take 3) = 1 := by
          have closes : openAfter (addr.take 3) (⟨.pre, addr, clk⟩ :: log) = none := by
            rw [openAfter]
            exact if_pos reaches
          rw [bankWork, closes]
        omega

theorem prepare_prea (ranked : Ranked ranks id addr) :
    prepare org ranks id (⟨.prea, addr, clk⟩ :: log) addrs ≤
      prepare org ranks id log addrs + (orgTable org).bank := by
  obtain ⟨r, rfl, inRanks⟩ := ranked.shape
  have each : ∀ place ∈ (Finset.range ranks) ×ˢ (Finset.range (orgTable org).bank),
      bankWork (⟨.prea, [(id : Int), r, -1, -1, -1], clk⟩ :: log) addrs
          [(id : Int), place.1, place.2] ≤
        bankWork log addrs [(id : Int), place.1, place.2] + if place.1 = r then 1 else 0 := by
    intro place _
    by_cases own : place.1 = r
    · have closes : openAfter [(id : Int), place.1, place.2]
          (⟨.prea, [(id : Int), r, -1, -1, -1], clk⟩ :: log) = none := by
        rw [openAfter]
        exact if_pos (by simp [own])
      rw [if_pos own, bankWork, closes]
      exact Nat.le_add_left 1 _
    · have elsewhere : openAfter [(id : Int), place.1, place.2]
          (⟨.prea, [(id : Int), r, -1, -1, -1], clk⟩ :: log) =
            openAfter [(id : Int), place.1, place.2] log :=
        openAfter_elsewhere (by simpa using own)
      rw [if_neg own, bankWork, bankWork, elsewhere]
      exact le_rfl
  have extra : ((Finset.range ranks) ×ˢ (Finset.range (orgTable org).bank)).sum
      (fun place => if place.1 = r then 1 else 0) = (orgTable org).bank := by
    rw [Finset.sum_product_right]
    simp [Finset.sum_ite_eq', inRanks]
  refine (Finset.sum_le_sum each).trans ?_
  rw [Finset.sum_add_distrib, extra]
  exact le_rfl

theorem prepare_ref : prepare org ranks id (⟨.ref, addr, clk⟩ :: log) addrs =
    prepare org ranks id log addrs := rfl

end Work

section Choice

variable {org : Org} {speed : Speed} {channels ranks id : Nat} {c : Controller Command State}
  {kind : QueueKind} {i : Nat} {req : Request}

theorem nextCommand_pre {banks : Nat} {log : List (Issue Command)} {type : RequestType}
    {addr : List Int} (closes : nextCommand banks log type addr = .pre) :
    ¬ Hits log type addr ∧ Opens log type addr := by
  have notRefresh : type ≠ .refresh := by
    rintro rfl
    rw [nextCommand, if_pos rfl] at closes
    split at closes <;> cases closes
  rw [nextCommand, if_neg notRefresh] at closes
  cases opened : openAfter (addr.take 3) log with
  | none =>
      rw [opened] at closes
      cases closes
  | some row =>
      rw [opened, firstCommand] at closes
      split at closes
      · cases type <;> cases closes
      · rename_i different
        exact ⟨fun hits => different (Option.some.inj (opened.symm.trans hits.2)),
          notRefresh, by rw [opened]; rfl⟩

/-- With priority to row hits a row is closed only when no request in the queue hits it. -/
theorem Sound.spares (sound : Sound org speed channels ranks id c)
    (chosen : c.getHead (ddr3 org speed channels ranks) .frfcfsPriorHit (c.queue kind) =
      some (some (i, req)))
    (closes : nextCommand (orgTable org).bank c.trace req.type req.addrVec = .pre) :
    ∀ other ∈ c.queue kind, other.addrVec.take 3 = req.addrVec.take 3 →
      ¬ Hits c.trace other.type other.addrVec := by
  intro other present sameBank hits
  obtain ⟨misses, opens⟩ := nextCommand_pre closes
  obtain ⟨hit, otherwise⟩ := (Controller.getHead_priorHit chosen).2 _ rfl
  have rows : ∀ req ∈ c.queue kind,
      c.isRowHit (ddr3 org speed channels ranks) req =
          some (decide (Ddr3.Hits c.trace req.type req.addrVec)) ∧
        c.isRowOpen (ddr3 org speed channels ranks) req =
          some (decide (Opens c.trace req.type req.addrVec)) :=
    fun req queued => sound.reflects.rows (sound.queues kind req queued).2.1
  by_cases ready : ∃ other ∈ c.queue kind, c.Ready (ddr3 org speed channels ranks) other ∧
      c.Hits (ddr3 org speed channels ranks) other
  · obtain ⟨best, queued, both⟩ := ready
    have first := hit ⟨best, queued, both⟩
    obtain ⟨place, there⟩ := List.mem_iff_getElem?.mp queued
    obtain ⟨_, reqHits⟩ := (first.first place best there trivial).1 both
    have known := (rows req (List.mem_of_getElem? first.found)).1
    rw [Controller.Hits, known, decide_eq_false misses] at reqHits
    cases reqHits
  · push Not at ready
    have first := otherwise fun other queued both => ready other queued both.1 both.2
    obtain ⟨reqHit, reqOpen⟩ := rows req (List.mem_of_getElem? first.found)
    refine first.may ⟨⟨?_, ?_⟩, other, present, ?_, sameBank.symm⟩
    · rw [reqHit, decide_eq_false misses]
    · rw [reqOpen, decide_eq_true opens]
    · rw [Controller.Hits, (rows other present).1, decide_eq_true hits]

theorem Sound.unwanted (sound : Sound org speed channels ranks id c)
    (chosen : c.getHead (ddr3 org speed channels ranks) .frfcfsPriorHit (c.queue kind) =
      some (some (i, req)))
    (accesses : kind ≠ .otherq)
    (closes : nextCommand (orgTable org).bank c.trace req.type req.addrVec = .pre) (row : Int)
    (opened : openAfter (req.addrVec.take 3) c.trace = some row) :
    ¬ Wanted ((c.queue kind).map Request.addrVec) (req.addrVec.take 3) row := by
  rintro ⟨addr, wanted, sameBank, sameRow⟩
  obtain ⟨other, present, rfl⟩ := List.mem_map.mp wanted
  refine sound.spares chosen closes other present sameBank ⟨?_, ?_⟩
  · intro isRefresh
    have sameKind := (sound.queues kind other present).1
    rw [isRefresh] at sameKind
    exact accesses sameKind.symm
  · rw [sameBank, opened, sameRow]

end Choice

def preferred (c : Controller Command State) : QueueKind :=
  if c.writeMode then .writeq else .readq

/-- How often the mode may still change when nothing arrives any more. -/
def switches (c : Controller Command State) : Nat :=
  if c.writeMode then if c.readq = [] then 0 else 2
  else if 25 ≤ c.writeq.length then 3 else 1

def backlog (c : Controller Command State) : Nat := c.readq.length + c.writeq.length

/-- How many commands are issued at most before no access is queued, if no refreshes are
asked for in the meantime. -/
def effort (org : Org) (ranks id : Nat) (c : Controller Command State) : Nat :=
  3 * backlog c + prepare org ranks id c.trace ((c.queue (preferred c)).map Request.addrVec) +
    2 * (ranks * (orgTable org).bank) * switches c +
      load ((orgTable org).bank + 2) (orgTable org).bank c.trace (c.otherq.map Request.addrVec)

section Effort

variable {org : Org} {speed : Speed} {channels ranks id : Nat}
  {c begun after : Controller Command State} {callbacks : List Request} {i : Nat} {req : Request}
  {cmd : Command}

theorem Begins.writes_iff (begins : Begins org speed channels ranks id c begun callbacks) :
    begun.writeMode = true ↔ (if c.writeMode then 7 else 25) ≤ c.writeq.length ∨ c.readq = [] := by
  rw [begins.writeMode]
  exact scheduleWrites_iff c

theorem Begins.switched (begins : Begins org speed channels ranks id c begun callbacks) :
    (begun.writeMode = c.writeMode ∧ switches begun = switches c) ∨
      switches begun + 1 ≤ switches c := by
  have mode := begins.writes_iff
  unfold switches
  rw [begins.readq, begins.writeq]
  cases was : c.writeMode with
  | false =>
      rw [was] at mode
      by_cases writes : 25 ≤ c.writeq.length ∨ c.readq = []
      · rw [mode.mpr (by simpa using writes)]
        right
        by_cases none : c.readq = []
        · by_cases many : 25 ≤ c.writeq.length <;> simp [none, many]
        · simp [none, writes.resolve_right none]
      · rw [Bool.eq_false_iff.mpr (mode.not.mpr (by simpa using writes))]
        exact .inl ⟨rfl, rfl⟩
  | true =>
      rw [was] at mode
      by_cases writes : 7 ≤ c.writeq.length ∨ c.readq = []
      · rw [mode.mpr (by simpa using writes)]
        exact .inl ⟨rfl, rfl⟩
      · rw [Bool.eq_false_iff.mpr (mode.not.mpr (by simpa using writes))]
        have few : ¬ 25 ≤ c.writeq.length := by omega
        have reads : c.readq ≠ [] := fun none => writes (.inr none)
        simp [few, reads]

theorem Begins.finished (begins : Begins org speed channels ranks id c begun callbacks)
    (none : begun.queue begun.scheduled = []) : backlog c = 0 := by
  have mode := begins.writes_iff
  have noOther : begun.otherq = [] := by
    by_contra some
    have scheduled : begun.scheduled = .otherq := by simp [Controller.scheduled, some]
    rw [scheduled] at none
    exact some none
  have scheduled : begun.scheduled = if begun.writeMode then .writeq else .readq := by
    simp [Controller.scheduled, noOther]
  rw [scheduled] at none
  cases isWrite : begun.writeMode with
  | false =>
      rw [isWrite] at none mode
      have noRead : c.readq = [] := begins.readq.symm.trans none
      simp [noRead] at mode
  | true =>
      rw [isWrite] at none mode
      have noWrite : c.writeq = [] := begins.writeq.symm.trans none
      have noRead : c.readq = [] := by
        rcases mode.mp rfl with some | noRead
        · rw [noWrite] at some
          split at some <;> simp at some
        · exact noRead
      simp [backlog, noRead, noWrite]

theorem load_append (heavy banks : Nat) (log : List (Issue Command)) (addrs more : List (List Int)) :
    load heavy banks log (addrs ++ more) = load heavy banks log addrs + load heavy banks log more := by
  simp [load]

theorem Begins.effort_le (begins : Begins org speed channels ranks id c begun callbacks) :
    effort org ranks id begun ≤ effort org ranks id c +
      if Due org speed channels ranks c then ((orgTable org).bank + 2) * ranks else 0 := by
  have loads : load ((orgTable org).bank + 2) (orgTable org).bank begun.trace
      (begun.otherq.map Request.addrVec) ≤
        load ((orgTable org).bank + 2) (orgTable org).bank c.trace (c.otherq.map Request.addrVec) +
          if Due org speed channels ranks c then ((orgTable org).bank + 2) * ranks else 0 := by
    rw [begins.trace]
    by_cases due : Due org speed channels ranks c
    · rw [if_pos due, (begins.due due).2, List.map_append, load_append]
      refine Nat.add_le_add_left ((load_bounds (by omega) _ _ _).2.trans ?_) _
      simp
    · rw [if_neg due, (begins.notDue due).2]
      exact le_rfl
  have sameBacklog : backlog begun = backlog c := by
    rw [backlog, backlog, begins.readq, begins.writeq]
  have works : prepare org ranks id begun.trace
      ((begun.queue (preferred begun)).map Request.addrVec) +
        2 * (ranks * (orgTable org).bank) * switches begun ≤
      prepare org ranks id c.trace ((c.queue (preferred c)).map Request.addrVec) +
        2 * (ranks * (orgTable org).bank) * switches c := by
    rcases begins.switched with ⟨sameMode, sameSwitches⟩ | fewer
    · have sameQueue : begun.queue (preferred begun) = c.queue (preferred c) := by
        unfold preferred
        rw [sameMode]
        cases c.writeMode with
        | false => exact begins.readq
        | true => exact begins.writeq
      rw [sameSwitches, sameQueue, begins.trace]
    · have bound := prepare_le org ranks id begun.trace
        ((begun.queue (preferred begun)).map Request.addrVec)
      have switched := Nat.mul_le_mul_left (2 * (ranks * (orgTable org).bank)) fewer
      rw [Nat.mul_add, Nat.mul_one] at switched
      omega
  unfold effort
  omega

/-- A command lowers the effort, unless it closes a row that is wanted. -/
theorem Issues.effort_lt
    (issues : Issues org speed channels ranks id begun after begun.scheduled i req cmd)
    (unwanted : begun.scheduled ≠ .otherq → cmd = .pre → ∀ row,
      openAfter (req.addrVec.take 3) begun.trace = some row →
        ¬ Wanted ((begun.queue begun.scheduled).map Request.addrVec) (req.addrVec.take 3) row) :
    effort org ranks id after + 1 ≤ effort org ranks id begun := by
  have next := issues.next
  have own := issues.queue_map (f := Request.addrVec) rfl
  have sameMode : preferred after = preferred begun := by
    rw [preferred, preferred, issues.writeMode]
  have found : ((begun.queue begun.scheduled).map Request.addrVec)[i]? = some req.addrVec := by
    rw [List.getElem?_map, issues.found]
    rfl
  by_cases queued : begun.otherq = []
  · have scheduled : begun.scheduled = preferred begun := by
      simp [Controller.scheduled, queued, preferred]
    have accesses : preferred begun ≠ .otherq := by
      unfold preferred
      split <;> simp
    rw [scheduled] at issues own found unwanted
    have empty : after.otherq = [] := (issues.others .otherq accesses.symm).trans queued
    obtain ⟨access, mapped⟩ : (req.type = .read ∨ req.type = .write) ∧
        Mapped org ranks id req.addrVec := by
      rcases issues.fits with both | ⟨isRefresh, _⟩
      · exact both
      · have sameKind := issues.sameKind
        rw [isRefresh] at sameKind
        exact absurd sameKind.symm accesses
    have notRefresh : req.type ≠ .refresh := by rcases access with type | type <;> simp [type]
    have last : translate req.type = .rd ∨ translate req.type = .wr := by
      rcases access with type | type <;> simp [type, translate]
    have fewer := prepare_access begun.clk mapped found notRefresh last
      (fun closes => unwanted accesses (next.trans closes)) next own
    have sizes : backlog after + (begun.queue (preferred begun)).length =
        backlog begun + (after.queue (preferred begun)).length := by
      have others := issues.others
      unfold backlog
      cases which : preferred begun with
      | readq =>
          have same : after.writeq = begun.writeq := others .writeq (by simp [which])
          rw [same]
          simp only [Controller.queue]
          omega
      | writeq =>
          have same : after.readq = begun.readq := others .readq (by simp [which])
          rw [same]
          simp only [Controller.queue]
          omega
      | otherq => exact absurd which accesses
    have sameSwitches : switches after = switches begun := by
      have others := issues.others
      unfold switches
      rw [issues.writeMode]
      cases isWrite : begun.writeMode with
      | false =>
          have same : after.writeq = begun.writeq := others .writeq (by simp [preferred, isWrite])
          rw [same]
          rfl
      | true =>
          have same : after.readq = begun.readq := others .readq (by simp [preferred, isWrite])
          rw [same]
          rfl
    rw [List.length_map, List.length_map, ← issues.trace] at fewer
    rw [effort, effort, sameMode, sameSwitches, empty, queued]
    simp only [load, List.map_nil, List.sum_nil]
    omega
  · have scheduled : begun.scheduled = .otherq := by
      simp [Controller.scheduled, queued]
    rw [scheduled] at issues own found
    have sameRead : after.readq = begun.readq := issues.others .readq (by simp)
    have sameWrite : after.writeq = begun.writeq := issues.others .writeq (by simp)
    have sameQueue : after.queue (preferred begun) = begun.queue (preferred begun) := by
      refine issues.others _ ?_
      unfold preferred
      split <;> simp
    have sameSwitches : switches after = switches begun := by
      rw [switches, switches, issues.writeMode, sameRead, sameWrite]
    obtain ⟨isRefresh, ranked⟩ : req.type = .refresh ∧ Ranked ranks id req.addrVec := by
      rcases issues.fits with ⟨access, _⟩ | both
      · have sameKind := issues.sameKind
        rcases access with type | type <;> simp [type, Memory.RequestType.queue] at sameKind
      · exact both
    rw [isRefresh] at next own
    have lighter := load_next (show 1 ≤ (orgTable org).bank + 2 by omega) (orgTable org).bank
      begun.trace found begun.clk
    change after.otherq.map Request.addrVec =
      if cmd = .ref then (begun.otherq.map Request.addrVec).eraseIdx i
      else begun.otherq.map Request.addrVec at own
    change load _ _ _ (if _ then (begun.otherq.map Request.addrVec).eraseIdx i
      else begun.otherq.map Request.addrVec) + _ ≤ load _ _ _ (begun.otherq.map Request.addrVec)
        at lighter
    rw [← next, ← issues.trace, ← own] at lighter
    rw [effort, effort, sameMode, sameQueue, sameSwitches, backlog, sameRead, sameWrite, ← backlog]
    by_cases final : cmd = .ref
    · have same : prepare org ranks id after.trace =
          prepare org ranks id begun.trace := by
        funext addrs
        rw [issues.trace, final, prepare_ref]
      rw [if_pos final] at lighter
      rw [same]
      omega
    · have closes : cmd = .prea := by
        rw [next] at final ⊢
        exact nextCommand_ne _ _ _ final
      have more := @prepare_prea org ranks id begun.trace
        ((begun.queue (preferred begun)).map Request.addrVec) req.addrVec begun.clk ranked
      rw [← closes, ← issues.trace] at more
      rw [if_neg final] at lighter
      omega

end Effort

def patience (org : Org) (speed : Speed) (ranks id : Nat) (c : Controller Command State) : Nat :=
  (recovery org speed + 1) * effort org ranks id c +
    (recovery org speed - gap (recovery org speed) c.clk c.trace).toNat

def interruption (org : Org) (speed : Speed) (ranks : Nat) : Nat :=
  (recovery org speed + 1) * (((orgTable org).bank + 2) * ranks)

def Brisk (org : Org) (speed : Speed) (ranks : Nat) : Prop :=
  interruption org speed ranks < (speedEntry org speed).nREFI

theorem nREFI_brisk (org : Org) (speed : Speed) :
    (recovery org speed + 1) * (((orgTable org).bank + 2) * 2) < (speedEntry org speed).nREFI := by
  cases org <;> cases speed <;> decide

/-- For every organisation and every speed of the tables up to two ranks are few enough. -/
theorem brisk_of_ranks (org : Org) (speed : Speed) {ranks : Nat} (few : ranks ≤ 2) :
    Brisk org speed ranks :=
  lt_of_le_of_lt (Nat.mul_le_mul_left _ (Nat.mul_le_mul_left _ few)) (nREFI_brisk org speed)

/-- What is left, in parts of an interval between refreshes. -/
def potential (org : Org) (speed : Speed) (ranks id : Nat) (c : Controller Command State) : Nat :=
  (speedEntry org speed).nREFI * patience org speed ranks id c +
    interruption org speed ranks * (c.clk % (speedEntry org speed).nREFI)

section Potential

variable {org : Org} {speed : Speed} {channels ranks id : Nat} {c after : Controller Command State}
  {callbacks : List Request}

theorem Sound.patience_tick (sound : Sound org speed channels ranks id c)
    (paced : Paced org speed ranks id c) (fast : Fast org speed ranks)
    (ticked : c.tick (ddr3 org speed channels ranks) .frfcfsPriorHit = some (after, callbacks))
    (waiting : backlog c ≠ 0) :
    patience org speed ranks id after + 1 ≤ patience org speed ranks id c +
      if Due org speed channels ranks c then interruption org speed ranks else 0 := by
  obtain ⟨begun, other, _, same, begins, begunSound, _, moved⟩ :=
    sound.tick (paced.room fast) .frfcfsPriorHit
  obtain ⟨rfl, rfl⟩ := Prod.mk.inj (Option.some.inj (ticked.symm.trans same))
  have queued : begun.queue begun.scheduled ≠ [] := fun none => waiting (begins.finished none)
  have begunGap : gap (recovery org speed) begun.clk begun.trace =
      gap (recovery org speed) (c.clk + 1) c.trace := by
    rw [begins.clk, begins.trace, Nat.cast_add, Nat.cast_one]
  have bounded := gap_le (recovery org speed) begun.clk begun.trace
  have efforts := Nat.mul_le_mul_left (recovery org speed + 1) begins.effort_le
  have delays : (recovery org speed + 1) * effort org ranks id begun ≤
      (recovery org speed + 1) * effort org ranks id c +
        if Due org speed channels ranks c then interruption org speed ranks else 0 := by
    rw [Nat.mul_add] at efforts
    refine efforts.trans (Nat.add_le_add_left ?_ _)
    split
    · exact le_rfl
    · exact le_rfl
  rcases moved with ⟨rfl, waits⟩ | ⟨i, req, cmd, chosen, issues⟩
  · have short := (waits queued).short begunSound
    have grows : gap (recovery org speed) after.clk after.trace =
        gap (recovery org speed) c.clk c.trace + 1 := by
      rw [begunGap] at short ⊢
      exact gap_succ _ short
    rw [patience, patience]
    omega
  · have fewer := issues.effort_lt fun accesses closes row opened =>
      begunSound.unwanted chosen accesses (issues.next.symm.trans closes) row opened
    have recent : gap (recovery org speed) after.clk after.trace = 0 := by
      rw [issues.clk, issues.trace]
      dsimp only [gap]
      omega
    have step := Nat.mul_le_mul_left (recovery org speed + 1) fewer
    rw [Nat.mul_add, Nat.mul_one] at step
    rw [patience, patience, recent]
    omega

/-- As long as accesses are queued the potential falls in every tick. -/
theorem Sound.potential_tick (sound : Sound org speed channels ranks id c)
    (paced : Paced org speed ranks id c) (fast : Fast org speed ranks)
    (brisk : Brisk org speed ranks)
    (ticked : c.tick (ddr3 org speed channels ranks) .frfcfsPriorHit = some (after, callbacks))
    (clk : after.clk = c.clk + 1) (waiting : backlog c ≠ 0) :
    potential org speed ranks id after +
        ((speedEntry org speed).nREFI - interruption org speed ranks) ≤
      potential org speed ranks id c := by
  have falls := Nat.mul_le_mul_left (speedEntry org speed).nREFI
    (sound.patience_tick paced fast ticked waiting)
  obtain ⟨inside, last⟩ := next_mod c.clk (nREFI_pos org speed)
  rw [Nat.mul_add, Nat.mul_one, Nat.mul_add] at falls
  unfold Brisk at brisk
  rw [potential, potential, clk]
  by_cases due : Due org speed channels ranks c
  · have atEnd := paced.asked.due_iff.mp due
    have isLast : c.clk % (speedEntry org speed).nREFI + 1 = (speedEntry org speed).nREFI := by
      have := Nat.mod_lt c.clk (nREFI_pos org speed)
      omega
    have spread : (speedEntry org speed).nREFI * interruption org speed ranks =
        interruption org speed ranks * (c.clk % (speedEntry org speed).nREFI) +
          interruption org speed ranks := by
      conv_lhs => rw [← isLast, Nat.mul_comm, Nat.mul_add, Nat.mul_one]
    rw [if_pos due] at falls
    rw [(last atEnd).2]
    omega
  · have before : c.clk % (speedEntry org speed).nREFI + 1 < (speedEntry org speed).nREFI :=
      not_le.mp (paced.asked.due_iff.not.mp due)
    rw [if_neg due] at falls
    rw [(inside before).2, Nat.mul_add, Nat.mul_one]
    omega

end Potential

end GraphAccelerator.Dram.Ddr3
