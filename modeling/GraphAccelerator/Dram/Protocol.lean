import GraphAccelerator.Dram.Ddr3

/-!
# The protocol of DDR3

Which row is open in a bank follows from the commands that were issued, and so does
which command may come next: a row is opened only in a closed bank, an access goes to the
open row, and a rank is refreshed when all its banks are closed.  The states of the tree
show the open rows as long as every command is permitted.
-/

namespace GraphAccelerator.Dram.Ddr3

def openAfter (bank : List Int) : List (Issue Command) → Option Int
  | [] => none
  | issue :: log =>
      match issue.cmd with
      | .act => if bank <+: issue.addr then issue.addr[3]? else openAfter bank log
      | .pre | .rda | .wra => if bank <+: issue.addr then none else openAfter bank log
      | .prea => if bank.dropLast <+: issue.addr then none else openAfter bank log
      | _ => openAfter bank log

/-- The command may come next; power down and self refresh are not part of this protocol. -/
def Permits (banks : Nat) (log : List (Issue Command)) (cmd : Command) (addr : List Int) : Prop :=
  match cmd with
  | .act => openAfter (addr.take 3) log = none
  | .pre => (openAfter (addr.take 3) log).isSome
  | .prea => ∃ b < banks, (openAfter (addr.take 2 ++ [(b : Int)]) log).isSome
  | .rd | .wr => ∃ row, addr[3]? = some row ∧ openAfter (addr.take 3) log = some row
  | .ref => ∀ b < banks, openAfter (addr.take 2 ++ [(b : Int)]) log = none
  | _ => False

structure Shows (log : List (Issue Command)) (path : List Int) (cell : Cell Command State) :
    Prop where
  rank : path.length = 2 → cell.state = .powerUp
  bank : path.length = 3 →
    cell.state = (if (openAfter path log).isSome then .opened else .closed) ∧
      ∀ row, (cell.rowState row).isSome ↔ openAfter path log = some row

def AllShow (log : List (Issue Command)) : List Int → DRAM Command State → Prop :=
  Everywhere fun path cell _ => Shows log path cell

def firstCommand (opened : Option Int) (cmd : Command) (row : Int) : Command :=
  match opened with
  | none => .act
  | some other => if other = row then cmd else .pre

section Log

variable {log : List (Issue Command)} {issue : Issue Command} {bank : List Int}

theorem openAfter_elsewhere (elsewhere : ¬ bank.dropLast <+: issue.addr) :
    openAfter bank (issue :: log) = openAfter bank log := by
  have notBank : ¬ bank <+: issue.addr :=
    fun reaches => elsewhere ((List.dropLast_prefix bank).trans reaches)
  cases kind : issue.cmd <;> simp [openAfter, kind, elsewhere, notBank]

theorem openAfter_other (notBank : ¬ bank <+: issue.addr) (single : issue.cmd ≠ .prea) :
    openAfter bank (issue :: log) = openAfter bank log := by
  cases kind : issue.cmd <;> simp [openAfter, kind, notBank] at single ⊢

theorem openAfter_keeps (keeps : issue.cmd = .rd ∨ issue.cmd = .wr ∨ issue.cmd = .ref) :
    openAfter bank (issue :: log) = openAfter bank log := by
  rcases keeps with kind | kind | kind <;> simp [openAfter, kind]

end Log

structure Mapped (org : Org) (ranks : Nat) (id : Nat) (addr : List Int) : Prop where
  shape : ∃ r b row col : Nat, addr = [(id : Int), r, b, row, col] ∧ r < ranks ∧
    b < (orgTable org).bank

structure Ranked (ranks : Nat) (id : Nat) (addr : List Int) : Prop where
  shape : ∃ r : Nat, addr = [(id : Int), r, -1, -1, -1] ∧ r < ranks

section Tree

variable {org : Org} {speed : Speed} {channels ranks id : Nat} {log : List (Issue Command)}
  {root : DRAM Command State}

theorem allShow_channel : AllShow [] [] (DRAM.channel (ddr3 org speed channels ranks) id) := by
  refine everywhere_construct (fun path id _ => ⟨fun rank => ?_, fun bank => ?_⟩) _ [] id rfl
  · rw [List.length_append, List.length_singleton] at rank
    have level : path.length = 1 := by omega
    simp [DRAM.fresh, ddr3, start, level]
  · rw [List.length_append, List.length_singleton] at bank
    have level : path.length = 2 := by omega
    simp [DRAM.fresh, ddr3, start, level, openAfter]

theorem timeless_shows : Timeless fun path (cell : Cell Command State) _ => Shows log path cell := by
  intro path before after _ retimed shows
  exact ⟨fun rank => retimed.state ▸ shows.rank rank,
    fun bank => retimed.state ▸ retimed.rowState ▸ shows.bank bank⟩

structure BankAt (log : List (Issue Command)) (id r b : Nat)
    (root rank bank : DRAM Command State) : Prop where
  rankFound : root.child r = some rank
  bankFound : rank.child b = some bank
  rankId : rank.cell.id = r
  bankId : bank.cell.id = b
  leaf : bank.children = []
  rankShows : Shows log [(id : Int), r] rank.cell
  bankShows : Shows log [(id : Int), r, b] bank.cell

theorem child_found {node child : DRAM Command State} {i : Int}
    (found : node.child i = some child) : node.children ≠ [] ∧ ¬ i < 0 := by
  obtain ⟨nonneg, present⟩ := DRAM.child_eq_some found
  refine ⟨?_, by omega⟩
  intro none
  simp [none] at present

theorem exists_rank (tracks : Tracks (ddr3 org speed channels ranks) log [] root)
    (shows : AllShow log [] root) (sameId : root.cell.id = id) {r : Nat} (inRanks : r < ranks) :
    ∃ rank, root.child r = some rank ∧ rank.cell.id = r ∧
      Tracks (ddr3 org speed channels ranks) log [(id : Int)] rank ∧
      AllShow log [(id : Int)] rank := by
  have size : root.children.length = ranks := by
    have shape := tracks.here.1.1
    simpa [fanout, ddr3] using shape
  have found : root.child r = some root.children[r] := by
    rw [DRAM.child, if_neg (by omega), Int.toNat_natCast, List.getElem?_eq_getElem]
  obtain ⟨number, rankTracks⟩ := Everywhere.child tracks found
  have rankShows := (Everywhere.child shows found).2
  rw [sameId] at rankTracks rankShows
  exact ⟨_, found, number, rankTracks, rankShows⟩

theorem exists_bank (tracks : Tracks (ddr3 org speed channels ranks) log [] root)
    (shows : AllShow log [] root) (sameId : root.cell.id = id) {r b : Nat} (inRanks : r < ranks)
    (inBanks : b < (orgTable org).bank) : ∃ rank bank, BankAt log id r b root rank bank := by
  obtain ⟨rank, rankFound, rankId, rankTracks, rankShows⟩ :=
    exists_rank tracks shows sameId inRanks
  have size : rank.children.length = (orgTable org).bank := by
    have shape := rankTracks.here.1.1
    simpa [fanout, ddr3] using shape
  have found : rank.child b = some rank.children[b] := by
    rw [DRAM.child, if_neg (by omega), Int.toNat_natCast, List.getElem?_eq_getElem]
  obtain ⟨number, bankTracks⟩ := Everywhere.child rankTracks found
  obtain ⟨_, bankShows⟩ := Everywhere.child rankShows found
  have shape := bankTracks.here.1.1
  have here := rankShows.here
  have bankHere := bankShows.here
  rw [rankId] at here bankHere shape
  rw [number] at bankHere
  refine ⟨rank, _, rankFound, found, rankId, number, ?_, here, bankHere⟩
  exact List.eq_nil_of_length_eq_zero (by simpa [fanout, ddr3] using shape)

section Lookups

variable {r b : Nat} {row col : Int} {rank bank : DRAM Command State}

theorem BankAt.state (found : BankAt log id r b root rank bank) :
    bank.cell.state =
        (if (openAfter [(id : Int), r, b] log).isSome then .opened else .closed) ∧
      ∀ row, (bank.cell.rowState row).isSome ↔ openAfter [(id : Int), r, b] log = some row :=
  found.bankShows.bank rfl

theorem decode_access (found : BankAt log id r b root rank bank) {cmd : Command}
    (access : cmd = .rd ∨ cmd = .wr) :
    root.decode (ddr3 org speed channels ranks) cmd 0 [(id : Int), r, b, row, col] =
      some (firstCommand (openAfter [(id : Int), r, b] log) cmd row) := by
  have powered := found.rankShows.rank rfl
  obtain ⟨state, rows⟩ := found.state
  obtain ⟨hasRank, r_nonneg⟩ := child_found found.rankFound
  obtain ⟨hasBank, b_nonneg⟩ := child_found found.bankFound
  have here : prereqBankRd bank cmd row =
      some (some (firstCommand (openAfter [(id : Int), r, b] log) cmd row)) := by
    cases opened : openAfter [(id : Int), r, b] log with
    | none => simp [prereqBankRd, state, opened, firstCommand]
    | some other =>
        have hit := rows row
        rw [opened, Option.some.injEq] at hit
        by_cases same : other = row <;>
          simp [prereqBankRd, state, opened, firstCommand, hit, same]
  rcases access with rfl | rfl <;>
    simp [DRAM.decode, ddr3, prereq, found.rankFound, found.bankFound, prereqRankRd, powered,
      hasRank, r_nonneg, hasBank, b_nonneg, here]

theorem decode_ref (tracks : Tracks (ddr3 org speed channels ranks) log [] root)
    (shows : AllShow log [] root) (sameId : root.cell.id = id) (inRanks : r < ranks) :
    (root.decode (ddr3 org speed channels ranks) .ref 0 [(id : Int), r, -1, -1, -1] = some .prea ∧
        ∃ b < (orgTable org).bank, (openAfter [(id : Int), r, (b : Int)] log).isSome) ∨
      (root.decode (ddr3 org speed channels ranks) .ref 0 [(id : Int), r, -1, -1, -1] = some .ref ∧
        ∀ b < (orgTable org).bank, openAfter [(id : Int), r, (b : Int)] log = none) := by
  obtain ⟨rank, rankFound, rankId, rankTracks, rankShows⟩ :=
    exists_rank tracks shows sameId inRanks
  obtain ⟨hasRank, r_nonneg⟩ := child_found rankFound
  have size : rank.children.length = (orgTable org).bank := by
    have shape := rankTracks.here.1.1
    simpa [fanout, ddr3] using shape
  have states : ∀ (b : Nat) (bound : b < rank.children.length), rank.children[b].cell.state =
      if (openAfter [(id : Int), r, (b : Int)] log).isSome then .opened else .closed := by
    intro b bound
    have known := List.getElem?_eq_getElem bound
    have here := (rankShows.inside (List.mem_of_getElem? known)).here
    rw [rankId, rankShows.numbered known] at here
    exact (here.bank rfl).1
  have descends : root.decode (ddr3 org speed channels ranks) .ref 0 [(id : Int), r, -1, -1, -1] =
      (prereqRankRef rank .ref (-1)).join := by
    simp [DRAM.decode, ddr3, prereq, rankFound, hasRank, r_nonneg, prereqRankRef]
    split <;> rfl
  by_cases some : ∃ b < (orgTable org).bank, (openAfter [(id : Int), r, (b : Int)] log).isSome
  · refine .inl ⟨?_, some⟩
    obtain ⟨b, bound, opened⟩ := some
    have active : rank.children.any (fun bank => bank.cell.state ≠ .closed) := by
      rw [List.any_eq_true]
      refine ⟨rank.children[b], List.getElem_mem _, ?_⟩
      simp [states b (by omega), opened]
    rw [descends, prereqRankRef, if_pos active]
    rfl
  · have closed : ∀ b < (orgTable org).bank, openAfter [(id : Int), r, (b : Int)] log = none := by
      intro b bound
      by_contra opened
      exact some ⟨b, bound, Option.isSome_iff_ne_none.mpr opened⟩
    refine .inr ⟨?_, closed⟩
    have idle : ¬ rank.children.any (fun bank => bank.cell.state ≠ .closed) := by
      rw [List.any_eq_true]
      rintro ⟨bank, known, active⟩
      obtain ⟨b, bound, rfl⟩ := List.getElem_of_mem known
      simp [states b bound, closed b (by omega)] at active
    rw [descends, prereqRankRef, if_neg idle]
    rfl

theorem checkRowHit_access (found : BankAt log id r b root rank bank) {cmd : Command}
    (access : cmd = .rd ∨ cmd = .wr) :
    root.checkRowHit (ddr3 org speed channels ranks) cmd 0 [(id : Int), r, b, row, col] =
      some (decide (openAfter [(id : Int), r, b] log = some row)) := by
  obtain ⟨state, rows⟩ := found.state
  obtain ⟨hasRank, r_nonneg⟩ := child_found found.rankFound
  obtain ⟨hasBank, b_nonneg⟩ := child_found found.bankFound
  have here : rowhitBankRd bank cmd row =
      some (decide (openAfter [(id : Int), r, b] log = some row)) := by
    cases opened : openAfter [(id : Int), r, b] log with
    | none => simp [rowhitBankRd, state, opened]
    | some other =>
        have hit := rows row
        rw [opened] at hit
        simp [rowhitBankRd, state, opened, ← hit]
  rcases access with rfl | rfl <;>
    simp [DRAM.checkRowHit, DRAM.checkRow, ddr3, rowhit, found.rankFound, found.bankFound,
      hasRank, r_nonneg, hasBank, b_nonneg, here]

theorem checkRowOpen_access (found : BankAt log id r b root rank bank) {cmd : Command}
    (access : cmd = .rd ∨ cmd = .wr) :
    root.checkRowOpen (ddr3 org speed channels ranks) cmd 0 [(id : Int), r, b, row, col] =
      some (openAfter [(id : Int), r, b] log).isSome := by
  obtain ⟨state, rows⟩ := found.state
  obtain ⟨hasRank, r_nonneg⟩ := child_found found.rankFound
  obtain ⟨hasBank, b_nonneg⟩ := child_found found.bankFound
  have here : rowopenBankRd bank cmd row = some (openAfter [(id : Int), r, b] log).isSome := by
    cases opened : openAfter [(id : Int), r, b] log <;> simp [rowopenBankRd, state, opened]
  rcases access with rfl | rfl <;>
    simp [DRAM.checkRowOpen, DRAM.checkRow, ddr3, rowopen, found.rankFound, found.bankFound,
      hasRank, r_nonneg, hasBank, b_nonneg, here]

theorem checkRow_ref (tracks : Tracks (ddr3 org speed channels ranks) log [] root)
    (shows : AllShow log [] root) (sameId : root.cell.id = id) (inRanks : r < ranks) :
    root.checkRowHit (ddr3 org speed channels ranks) .ref 0 [(id : Int), r, -1, -1, -1] =
        some false ∧
      root.checkRowOpen (ddr3 org speed channels ranks) .ref 0 [(id : Int), r, -1, -1, -1] =
        some false := by
  obtain ⟨rank, rankFound, _⟩ := exists_rank tracks shows sameId inRanks
  obtain ⟨hasRank, r_nonneg⟩ := child_found rankFound
  constructor <;> simp [DRAM.checkRowHit, DRAM.checkRowOpen, DRAM.checkRow, ddr3, rowhit, rowopen,
    rankFound, hasRank, r_nonneg]

end Lookups

section Updates

variable {r b : Nat} {row col clk : Int} {rank bank : DRAM Command State}

def bankAfter (cmd : Command) (bank : DRAM Command State) (row : Int) : DRAM Command State :=
  match cmd with
  | .act => openRow bank row
  | .pre => closeRows bank
  | _ => bank

theorem updateState_bank (found : BankAt log id r b root rank bank) {cmd : Command}
    (single : cmd = .act ∨ cmd = .pre ∨ cmd = .rd ∨ cmd = .wr) :
    root.updateState (ddr3 org speed channels ranks) cmd 0 [(id : Int), r, b, row, col] =
      some (root.setChild r (rank.setChild b (bankAfter cmd bank row))) := by
  obtain ⟨hasRank, _⟩ := child_found found.rankFound
  obtain ⟨hasBank, _⟩ := child_found found.bankFound
  have leaf := found.leaf
  rcases single with rfl | rfl | rfl | rfl <;>
    simp [DRAM.updateState, ddr3, lambda, scope, found.rankFound, found.bankFound, hasRank,
      hasBank, leaf, bankAfter, openRow, closeRows]

theorem updateState_rank (rankFound : root.child r = some rank) {x y z : Int} {cmd : Command}
    (whole : cmd = .prea ∨ cmd = .ref) :
    root.updateState (ddr3 org speed channels ranks) cmd 0 [(id : Int), r, x, y, z] =
      some (root.setChild r (if cmd = .prea then .mk rank.cell (rank.children.map closeRows)
        else rank)) := by
  obtain ⟨hasRank, _⟩ := child_found rankFound
  rcases whole with rfl | rfl <;>
    simp [DRAM.updateState, ddr3, lambda, scope, rankFound, hasRank]

variable {cmd : Command}

theorem bankAfter_shows (shows : Shows log [(id : Int), r, b] bank.cell)
    (permitted : Permits (orgTable org).bank log cmd [(id : Int), r, b, row, col])
    (single : cmd = .act ∨ cmd = .pre ∨ cmd = .rd ∨ cmd = .wr) :
    Shows (⟨cmd, [(id : Int), r, b, row, col], clk⟩ :: log) [(id : Int), r, b]
      (bankAfter cmd bank row).cell := by
  obtain ⟨state, rows⟩ := shows.bank rfl
  have reaches : [(id : Int), r, b] <+: [(id : Int), r, b, row, col] := ⟨[row, col], rfl⟩
  refine ⟨by simp, fun _ => ?_⟩
  rcases single with rfl | rfl | rfl | rfl
  · have closed : openAfter [(id : Int), r, b] log = none := permitted
    have empty : ∀ other, bank.cell.rowState other = none := by
      intro other
      have hit := rows other
      rw [closed] at hit
      simpa using hit
    have opens : openAfter [(id : Int), r, b]
        (⟨.act, [(id : Int), r, b, row, col], clk⟩ :: log) = some row := by
      simp [openAfter, reaches]
    rw [opens]
    refine ⟨rfl, fun other => ?_⟩
    by_cases same : other = row
    · subst same
      simp [bankAfter, openRow]
    · simp [bankAfter, openRow, same, empty, Ne.symm same]
  · have closes : openAfter [(id : Int), r, b]
        (⟨.pre, [(id : Int), r, b, row, col], clk⟩ :: log) = none := by
      simp [openAfter, reaches]
    rw [closes]
    exact ⟨rfl, fun other => by simp [bankAfter, closeRows]⟩
  · rw [openAfter_keeps (.inl rfl)]
    exact ⟨state, rows⟩
  · rw [openAfter_keeps (.inr (.inl rfl))]
    exact ⟨state, rows⟩

/-- After a permitted command to a bank all states show it. -/
theorem AllShow.issueBank (shows : AllShow log [] root) (sameId : root.cell.id = id)
    (found : BankAt log id r b root rank bank)
    (permitted : Permits (orgTable org).bank log cmd [(id : Int), r, b, row, col])
    (single : cmd = .act ∨ cmd = .pre ∨ cmd = .rd ∨ cmd = .wr) :
    AllShow (⟨cmd, [(id : Int), r, b, row, col], clk⟩ :: log) []
      (root.setChild r (rank.setChild b (bankAfter cmd bank row))) := by
  obtain ⟨rankNonneg, _⟩ := DRAM.child_eq_some found.rankFound
  obtain ⟨bankNonneg, _⟩ := DRAM.child_eq_some found.bankFound
  have notAll : cmd ≠ .prea := by rcases single with rfl | rfl | rfl | rfl <;> simp
  have elsewhere : ∀ path (cell : Cell Command State) (_ : Nat),
      ¬ [(id : Int), r, b] <+: path → Shows log path cell →
      Shows (⟨cmd, [(id : Int), r, b, row, col], clk⟩ :: log) path cell := by
    intro path cell _ away old
    refine ⟨old.rank, fun isBank => ?_⟩
    have notBank : ¬ path <+: [(id : Int), r, b, row, col] := by
      intro reaches
      have same := List.prefix_of_prefix_length_le
        (show [(id : Int), r, b] <+: [(id : Int), r, b, row, col] from ⟨[row, col], rfl⟩) reaches
        (by simp [isBank])
      exact away same
    rw [openAfter_other notBank notAll]
    exact old.bank isBank
  have rankShows := (Everywhere.child shows found.rankFound).2
  have bankId : (bankAfter cmd bank row).cell.id = b := by
    rcases single with rfl | rfl | rfl | rfl <;> exact found.bankId
  refine shows.replaceChild rankNonneg found.rankId ⟨by simp, by simp⟩ ?_ ?_
  · rw [sameId] at rankShows ⊢
    refine rankShows.replaceChild bankNonneg bankId ⟨fun _ => ?_, by simp⟩ ?_ ?_
    · rw [found.rankShows.rank rfl]
    · refine .leaf ?_ ?_
      · rcases single with rfl | rfl | rfl | rfl <;> exact found.leaf
      · rw [bankId, found.rankId]
        exact bankAfter_shows found.bankShows permitted single
    · rw [found.rankId]
      intro path cell children j different reaches
      exact elsewhere path cell children (not_prefix_sibling _ different reaches)
  · intro path cell children j different away
    rw [sameId] at away
    refine elsewhere path cell children fun reaches =>
      not_prefix_sibling [] different away ?_
    exact (show [(id : Int), r] <+: [(id : Int), r, b] from ⟨[(b : Int)], rfl⟩).trans reaches

theorem AllShow.issueRank (tracks : Tracks (ddr3 org speed channels ranks) log [] root)
    (shows : AllShow log [] root) (sameId : root.cell.id = id)
    (rankFound : root.child r = some rank) {x y z : Int} (whole : cmd = .prea ∨ cmd = .ref) :
    AllShow (⟨cmd, [(id : Int), r, x, y, z], clk⟩ :: log) []
      (root.setChild r (if cmd = .prea then .mk rank.cell (rank.children.map closeRows)
        else rank)) := by
  obtain ⟨nonneg, _⟩ := DRAM.child_eq_some rankFound
  obtain ⟨rankId, rankTracks⟩ := Everywhere.child tracks rankFound
  have rankShows := (Everywhere.child shows rankFound).2
  rw [sameId] at rankTracks rankShows
  have reaches : [(id : Int), r] <+: [(id : Int), r, x, y, z] := ⟨[x, y, z], rfl⟩
  have elsewhere : ∀ path (cell : Cell Command State) (_ : Nat) (j : Int), j ≠ r →
      [(id : Int), j] <+: path → Shows log path cell →
      Shows (⟨cmd, [(id : Int), r, x, y, z], clk⟩ :: log) path cell := by
    intro path cell _ j different away old
    refine ⟨old.rank, fun isBank => ?_⟩
    have notRank : ¬ path.dropLast <+: [(id : Int), r, x, y, z] := by
      intro onWay
      have same := List.prefix_of_prefix_length_le reaches onWay (by simp [isBank])
      exact not_prefix_sibling [] different away
        (same.trans (List.dropLast_prefix path))
    rw [openAfter_elsewhere notRank]
    exact old.bank isBank
  rw [← sameId] at rankShows
  have rankPowered := rankShows.here
  rw [rankId] at rankPowered
  rcases whole with rfl | rfl
  · refine Everywhere.replaceChild shows nonneg rankId ⟨by simp, by simp⟩ ?_
      (by rw [sameId]; exact elsewhere)
    rw [if_pos rfl]
    refine .mk ⟨fun _ => ?_, by simp⟩ ?_ ?_
    · rw [rankPowered.rank (by simp)]
    · intro j child present
      rw [List.getElem?_map, Option.map_eq_some_iff] at present
      obtain ⟨bank, found, rfl⟩ := present
      have sameBank : (closeRows bank).cell.id = bank.cell.id := rfl
      exact sameBank.trans (rankShows.numbered found)
    · intro child present
      obtain ⟨bank, known, rfl⟩ := List.mem_map.mp present
      have shape := (rankTracks.inside known).here.1.1
      have leaf : bank.children = [] :=
        List.eq_nil_of_length_eq_zero (by simpa [fanout, ddr3] using shape)
      refine .leaf leaf ⟨by simp, fun _ => ?_⟩
      have closed : openAfter ([] ++ [root.cell.id] ++ [rank.cell.id] ++ [(closeRows bank).cell.id])
          (⟨.prea, [(id : Int), r, x, y, z], clk⟩ :: log) = none := by
        simp [openAfter, sameId, rankId, List.prefix_iff_eq_take]
      rw [closed]
      exact ⟨rfl, fun row => by simp [closeRows]⟩
  · refine Everywhere.replaceChild shows nonneg rankId ⟨by simp, by simp⟩ ?_
      (by rw [sameId]; exact elsewhere)
    rw [if_neg (by simp)]
    refine rankShows.imp fun path cell children _ old => ?_
    refine ⟨old.rank, fun isBank => ?_⟩
    rw [openAfter_keeps (.inr (.inr rfl))]
    exact old.bank isBank

end Updates

def Targets (org : Org) (ranks id : Nat) (cmd : Command) (addr : List Int) : Prop :=
  ((cmd = .act ∨ cmd = .pre ∨ cmd = .rd ∨ cmd = .wr) ∧ Mapped org ranks id addr) ∨
    ((cmd = .prea ∨ cmd = .ref) ∧ Ranked ranks id addr)

/-- The tree of the channel `id` is what the commands have made of it. -/
structure Reflects (org : Org) (speed : Speed) (channels ranks id : Nat)
    (log : List (Issue Command)) (root : DRAM Command State) : Prop where
  past : ∀ issue ∈ log, 0 ≤ issue.clk
  sameId : root.cell.id = id
  tracks : Tracks (ddr3 org speed channels ranks) log [] root
  shows : AllShow log [] root

theorem Reflects.channel (org : Org) (speed : Speed) (channels ranks id : Nat) :
    Reflects org speed channels ranks id [] (DRAM.channel (ddr3 org speed channels ranks) id) :=
  ⟨by simp, DRAM.channel_id _ id, .channel id, allShow_channel⟩

theorem Targets.length {cmd : Command} {addr : List Int} (targets : Targets org ranks id cmd addr) :
    addr.length = 5 := by
  rcases targets with ⟨_, mapped⟩ | ⟨_, ranked⟩
  · obtain ⟨_, _, _, _, rfl, _, _⟩ := mapped.shape
    rfl
  · obtain ⟨_, rfl, _⟩ := ranked.shape
    rfl

/-- A permitted command can be issued, and the tree reflects it. -/
theorem Reflects.update {extra : List Int → Cell Command State → Nat → Prop}
    (timeless : Timeless extra) (stateless : Stateless extra)
    (clockless : ∀ path cell children clk, extra path cell children →
      extra path { cell with curClk := clk } children)
    (reflects : Reflects org speed channels ranks id log root) (also : Everywhere extra [] root)
    {cmd : Command} {addr : List Int} {clk : Int} (now : 0 ≤ clk)
    (targets : Targets org ranks id cmd addr)
    (permitted : Permits (orgTable org).bank log cmd addr) :
    ∃ after, root.update (ddr3 org speed channels ranks) cmd addr clk = some after ∧
      Reflects org speed channels ranks id (⟨cmd, addr, clk⟩ :: log) after ∧
      Everywhere extra [] after := by
  let clocked : DRAM Command State := .mk { root.cell with curClk := clk } root.children
  have clockedId : clocked.cell.id = id := reflects.sameId
  have clockedTracks : Tracks (ddr3 org speed channels ranks) log [] clocked :=
    Everywhere.setCell reflects.tracks rfl ⟨reflects.tracks.here.1,
      reflects.tracks.here.2.next, reflects.tracks.here.2.prev⟩
  have clockedShows : AllShow log [] clocked :=
    Everywhere.setCell reflects.shows rfl ⟨reflects.shows.here.rank, reflects.shows.here.bank⟩
  have clockedAlso : Everywhere extra [] clocked :=
    also.setCell rfl (clockless _ _ _ _ also.here)
  obtain ⟨changed, stateUpdated, changedShows⟩ : ∃ changed,
      clocked.updateState (ddr3 org speed channels ranks) cmd 0 addr = some changed ∧
        AllShow (⟨cmd, addr, clk⟩ :: log) [] changed := by
    rcases targets with ⟨single, mapped⟩ | ⟨whole, ranked⟩
    · obtain ⟨r, b, row, col, rfl, inRanks, inBanks⟩ := mapped.shape
      obtain ⟨rank, bank, found⟩ :=
        exists_bank clockedTracks clockedShows clockedId inRanks inBanks
      exact ⟨_, updateState_bank found single,
        clockedShows.issueBank clockedId found permitted single⟩
    · obtain ⟨r, rfl, inRanks⟩ := ranked.shape
      obtain ⟨rank, rankFound, _⟩ := exists_rank clockedTracks clockedShows clockedId inRanks
      exact ⟨_, updateState_rank rankFound whole,
        clockedShows.issueRank clockedTracks clockedId rankFound whole⟩
  obtain ⟨changedTracks, changedId⟩ :=
    Everywhere.updateState Tracks.stateless cmd clockedTracks stateUpdated
  have changedAlso := (Everywhere.updateState stateless cmd clockedAlso stateUpdated).1
  have together : Timeless fun path (cell : Cell Command State) children =>
      extra path cell children ∧ Shows (⟨cmd, addr, clk⟩ :: log) path cell :=
    fun path before after children retimed both =>
      ⟨timeless path before after children retimed both.1,
        timeless_shows path before after children retimed both.2⟩
  have long : (ddr3 org speed channels ranks).row ≤ addr.length := by
    rw [targets.length]
    exact (by decide : (3 : Nat) ≤ 5)
  obtain ⟨after, timed, afterId, afterTracks, afterBoth⟩ := Tracks.updateTiming together
    changedTracks (changedAlso.and changedShows) reflects.past cmd long now
  refine ⟨after, ?_, ⟨List.forall_mem_cons.mpr ⟨now, reflects.past⟩,
    afterId.trans (changedId.trans clockedId), afterTracks,
    afterBoth.imp fun _ _ _ _ both => both.2⟩, afterBoth.imp fun _ _ _ _ both => both.1⟩
  rw [DRAM.update, stateUpdated]
  exact timed

end Tree

end GraphAccelerator.Dram.Ddr3
