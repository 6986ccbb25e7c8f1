import GraphAccelerator.Dram.Protocol

/-!
# Requests in service

A node counts the requests that are in service below it.  A request enters service before
its first command and leaves it when it is completed.
-/

namespace GraphAccelerator.Dram

@[simp]
theorem Service.count_curServingRequests (clk : Int) (s : Service) :
    (s.count clk).curServingRequests = s.curServingRequests := by
  unfold Service.count
  split <;> rfl

@[simp]
theorem Service.count_beginOfServing (clk : Int) (s : Service) :
    (s.count clk).beginOfServing = s.beginOfServing := by
  unfold Service.count
  split <;> rfl

theorem Service.update_enter {s : Service} {clk : Int} (now : 0 ≤ clk)
    (nonneg : 0 ≤ s.curServingRequests)
    (begun : 0 < s.curServingRequests → s.beginOfServing ≠ -1) :
    ∃ after, s.update 1 clk = some after ∧
      after.curServingRequests = s.curServingRequests + 1 ∧ after.beginOfServing ≠ -1 := by
  unfold Service.update
  dsimp only
  rw [count_curServingRequests, count_beginOfServing, if_neg (by omega)]
  by_cases first : s.curServingRequests = 0
  · rw [if_pos (by omega)]
    exact ⟨_, rfl, rfl, by dsimp only; omega⟩
  · rw [if_neg (by omega), if_neg (by omega)]
    exact ⟨_, rfl, rfl, begun (by omega)⟩

theorem Service.update_leave {s : Service} (clk : Int) (positive : 0 < s.curServingRequests)
    (begun : s.beginOfServing ≠ -1) :
    ∃ after, s.update (-1) clk = some after ∧
      after.curServingRequests = s.curServingRequests - 1 ∧
      after.beginOfServing = s.beginOfServing := by
  unfold Service.update
  dsimp only
  rw [count_curServingRequests, count_beginOfServing, if_neg (by omega), if_neg (by omega)]
  split
  · rw [if_pos ⟨begun, rfl⟩]
    exact ⟨_, rfl, rfl, rfl⟩
  · exact ⟨_, rfl, rfl, rfl⟩

/-- A node counts the addresses that lead through it. -/
structure Counts {Command State : Type} (addrs : List (List Int)) (path : List Int)
    (cell : Cell Command State) : Prop where
  current : cell.service.curServingRequests = addrs.countP (path <+: ·)
  begun : 0 < cell.service.curServingRequests → cell.service.beginOfServing ≠ -1

namespace Ddr3

theorem Counts.timeless {addrs : List (List Int)} :
    Timeless fun path (cell : Cell Command State) _ => Counts addrs path cell := by
  intro path before after _ retimed counts
  refine ⟨retimed.curServingRequests ▸ counts.current, ?_⟩
  rw [retimed.curServingRequests, retimed.beginOfServing]
  exact counts.begun

theorem Counts.stateless {addrs : List (List Int)} :
    Stateless fun path (cell : Cell Command State) _ => Counts addrs path cell :=
  fun _ _ _ _ _ counts => ⟨counts.current, counts.begun⟩

theorem Counts.perm {addrs others : List (List Int)} (same : addrs.Perm others) {path : List Int}
    {cell : Cell Command State} (counts : Counts addrs path cell) : Counts others path cell :=
  ⟨counts.current.trans (congrArg _ (same.countP_eq _)), counts.begun⟩

variable {org : Org} {speed : Speed} {channels ranks id : Nat} {log : List (Issue Command)}
  {root : DRAM Command State}

theorem counts_channel :
    Everywhere (fun path (cell : Cell Command State) _ => Counts [] path cell) []
      (DRAM.channel (ddr3 org speed channels ranks) id) := by
  refine everywhere_construct (fun path id _ => ⟨?_, ?_⟩) _ [] id rfl <;> simp [DRAM.fresh]

theorem Everywhere.updateServing {holds : List Int → Cell Command State → Nat → Prop}
    (more : List Int → Cell Command State → Nat → Prop) {addr : List Int}
    (mapped : Mapped org ranks id addr)
    (reflects : Reflects org speed channels ranks id log root) (all : Everywhere holds [] root)
    {delta : Int} (clk : Int) (unit : delta = 1 ∨ delta = -1)
    (target : ∀ path cell children, path <+: addr → holds path cell children →
      ∃ service, cell.service.update delta clk = some service ∧
        more path { cell with service } children)
    (elsewhere : ∀ path cell children, ¬ path <+: addr → holds path cell children →
      more path cell children) :
    ∃ after, root.updateServingRequests (ddr3 org speed channels ranks) delta clk 0 addr =
        some after ∧ after.cell.id = root.cell.id ∧ Everywhere more [] after := by
  obtain ⟨r, b, row, col, rfl, inRanks, inBanks⟩ := mapped.shape
  obtain ⟨rank, bank, found⟩ :=
    exists_bank reflects.tracks reflects.shows reflects.sameId inRanks inBanks
  obtain ⟨hasRank, rankIndex⟩ := child_found found.rankFound
  obtain ⟨hasBank, bankIndex⟩ := child_found found.bankFound
  have rankAll := (all.child found.rankFound).2
  have bankAll := (rankAll.child found.bankFound).2
  have rootHere := all.here
  have rankHere := rankAll.here
  have bankHere := bankAll.here
  rw [found.rankId] at bankHere bankAll
  rw [found.bankId] at bankHere
  rw [found.rankId] at rankHere
  simp only [reflects.sameId, List.nil_append, List.cons_append]
    at rootHere rankHere bankHere
  obtain ⟨rootService, rootUpdated, rootMore⟩ :=
    target _ _ _ ⟨[(r : Int), b, row, col], rfl⟩ rootHere
  obtain ⟨rankService, rankUpdated, rankMore⟩ :=
    target _ _ _ ⟨[(b : Int), row, col], rfl⟩ rankHere
  obtain ⟨bankService, bankUpdated, bankMore⟩ :=
    target _ _ _ ⟨[(row : Int), col], rfl⟩ bankHere
  let newBank : DRAM Command State := .mk { bank.cell with service := bankService } bank.children
  let newRank : DRAM Command State := .mk { rank.cell with service := rankService } rank.children
  let newRoot : DRAM Command State := .mk { root.cell with service := rootService } root.children
  refine ⟨newRoot.setChild r (newRank.setChild b newBank), ?_, rfl, ?_⟩
  · have children : ∀ (node : DRAM Command State) (cell : Cell Command State) (i : Int),
        (DRAM.mk cell node.children).child i = node.child i := fun _ _ _ => rfl
    simp [DRAM.updateServingRequests, reflects.sameId, found.rankId, found.bankId, found.leaf,
      unit, rootUpdated, rankUpdated, bankUpdated, children, found.rankFound, found.bankFound,
      hasRank, rankIndex, hasBank, bankIndex, ddr3, newRoot, newRank, newBank]
  · obtain ⟨rankNonneg, _⟩ := DRAM.child_eq_some found.rankFound
    obtain ⟨bankNonneg, _⟩ := DRAM.child_eq_some found.bankFound
    refine all.replace rfl rankNonneg found.rankId ?_ ?_ ?_
    · simpa [reflects.sameId] using rootMore
    · refine (all.child found.rankFound).2.replace rfl bankNonneg found.bankId ?_ ?_ ?_
      · simpa [reflects.sameId, found.rankId] using rankMore
      · refine .leaf found.leaf ?_
        simpa [newBank, reflects.sameId, found.rankId, found.bankId, found.leaf] using bankMore
      · intro path cell children j different reaches old
        rw [found.rankId, reflects.sameId] at reaches
        refine elsewhere path cell children (fun onWay => different ?_) old
        simpa using reaches.trans onWay
    · intro path cell children j different reaches old
      rw [reflects.sameId] at reaches
      refine elsewhere path cell children (fun onWay => different ?_) old
      simpa using reaches.trans onWay

theorem Reflects.serve {addrs others : List (List Int)} {addr : List Int}
    (mapped : Mapped org ranks id addr) (reflects : Reflects org speed channels ranks id log root)
    (counts : Everywhere (fun path (cell : Cell Command State) _ => Counts addrs path cell) [] root)
    {delta clk : Int} (unit : delta = 1 ∨ delta = -1)
    (target : ∀ path (cell : Cell Command State), path <+: addr → Counts addrs path cell →
      ∃ service, cell.service.update delta clk = some service ∧
        Counts others path { cell with service })
    (elsewhere : ∀ path (cell : Cell Command State), ¬ path <+: addr → Counts addrs path cell →
      Counts others path cell) :
    ∃ after, root.updateServingRequests (ddr3 org speed channels ranks) delta clk 0 addr =
        some after ∧ Reflects org speed channels ranks id log after ∧
      Everywhere (fun path (cell : Cell Command State) _ => Counts others path cell) [] after := by
  obtain ⟨after, updated, sameId, all⟩ := Everywhere.updateServing
    (fun path cell children =>
      (((children = fanout (ddr3 org speed channels ranks) path.length ∧
          path.length ≤ (ddr3 org speed channels ranks).row) ∧
        Summary (ddr3 org speed channels ranks) log path cell) ∧ Shows log path cell) ∧
      Counts others path cell)
    mapped reflects ((reflects.tracks.and reflects.shows).and counts) clk unit
    (by
      rintro path cell children onWay ⟨⟨⟨shape, summary⟩, shows⟩, counted⟩
      obtain ⟨service, serves, more⟩ := target path cell onWay counted
      exact ⟨service, serves, ⟨⟨shape, summary.next, summary.prev⟩, shows.rank, shows.bank⟩, more⟩)
    (by
      rintro path cell children away ⟨both, counted⟩
      exact ⟨both, elsewhere path cell away counted⟩)
  exact ⟨after, updated, ⟨reflects.past, sameId.trans reflects.sameId,
    all.imp fun _ _ _ _ holds => holds.1.1, all.imp fun _ _ _ _ holds => holds.1.2⟩,
    all.imp fun _ _ _ _ holds => holds.2⟩

/-- A request enters service at the nodes on the way to its bank. -/
theorem Reflects.enter {addrs : List (List Int)} {addr : List Int}
    (mapped : Mapped org ranks id addr) (reflects : Reflects org speed channels ranks id log root)
    (counts : Everywhere (fun path (cell : Cell Command State) _ => Counts addrs path cell) [] root)
    {clk : Int} (now : 0 ≤ clk) :
    ∃ after, root.updateServingRequests (ddr3 org speed channels ranks) 1 clk 0 addr =
        some after ∧ Reflects org speed channels ranks id log after ∧
      Everywhere (fun path (cell : Cell Command State) _ => Counts (addr :: addrs) path cell) []
        after := by
  refine reflects.serve mapped counts (.inl rfl) ?_ ?_
  · intro path cell onWay counted
    obtain ⟨service, serves, current, begun⟩ :=
      cell.service.update_enter now (by rw [counted.current]; omega) counted.begun
    refine ⟨service, serves, ?_, fun _ => begun⟩
    rw [current, counted.current, List.countP_cons_of_pos (by simpa using onWay)]
    rfl
  · intro path cell away counted
    refine ⟨?_, counted.begun⟩
    rw [counted.current, List.countP_cons_of_neg (by simpa using away)]

theorem Reflects.leave {addrs : List (List Int)} {addr : List Int}
    (mapped : Mapped org ranks id addr) (reflects : Reflects org speed channels ranks id log root)
    (counts : Everywhere (fun path (cell : Cell Command State) _ => Counts (addr :: addrs) path cell)
      [] root) (clk : Int) :
    ∃ after, root.updateServingRequests (ddr3 org speed channels ranks) (-1) clk 0 addr =
        some after ∧ Reflects org speed channels ranks id log after ∧
      Everywhere (fun path (cell : Cell Command State) _ => Counts addrs path cell) [] after := by
  refine reflects.serve mapped counts (.inr rfl) ?_ ?_
  · intro path cell onWay counted
    have current := counted.current
    rw [List.countP_cons_of_pos (by simpa using onWay)] at current
    have positive : 0 < cell.service.curServingRequests := by omega
    obtain ⟨service, serves, less, begun⟩ :=
      Service.update_leave clk positive (counted.begun positive)
    refine ⟨service, serves, ?_, fun more => ?_⟩
    · rw [less, current]
      omega
    · rw [begun]
      exact counted.begun positive
  · intro path cell away counted
    refine ⟨?_, counted.begun⟩
    rw [counted.current, List.countP_cons_of_neg (by simpa using away)]

end Ddr3

end GraphAccelerator.Dram
