import Mathlib.Data.List.Forall2
import Mathlib.Logic.Function.Basic
import GraphAccelerator.Memory.Burst

/-!
# The tree of a channel

`DRAM<T>` is a tree: a channel has ranks, these have banks, and a standard may have more
levels in between.  Rows are no nodes, their bank keeps the open ones.  A node knows
which command has to be issued before another one, whether a command may be issued at a
time, and what a command that is issued does.

An address has one index for each level.  A function on a node takes the address from
the level of the node on, and so descends with it.  `none` stands for a failed assertion
or an access outside a vector.
-/

namespace GraphAccelerator.Dram

open GraphAccelerator.Memory (RequestType)

structure TimingEntry (Command : Type) where
  cmd : Command
  dist : Nat
  val : Int
  sibling : Bool := false
  deriving DecidableEq, Repr

/-- The members of a node that follow the requests in service and the refreshes. -/
structure Service where
  curServingRequests : Int := 0
  beginOfServing : Int := -1
  endOfServing : Int := -1
  beginOfCurReqcnt : Int := -1
  beginOfRefreshing : Int := -1
  endOfRefreshing : Int := -1
  refreshIntervals : List (Int × Int) := []
  activeCycles : Int := 0
  refreshCycles : Int := 0
  activeRefreshOverlapCycles : Int := 0
  servingRequests : Int := 0
  deriving DecidableEq, Repr

structure Cell (Command State : Type) where
  id : Int
  state : State
  rowState : Int → Option State := fun _ => none
  curClk : Int := 0
  next : Command → Int := fun _ => -1
  prev : Command → List Int
  service : Service := {}

inductive DRAM (Command State : Type) where
  | mk (cell : Cell Command State) (children : List (DRAM Command State))

namespace DRAM

variable {Command State : Type}

def cell : DRAM Command State → Cell Command State
  | .mk cell _ => cell

def children : DRAM Command State → List (DRAM Command State)
  | .mk _ children => children

def child (node : DRAM Command State) (i : Int) : Option (DRAM Command State) :=
  if i < 0 then none else node.children[i.toNat]?

def setChild (node : DRAM Command State) (i : Int) (child : DRAM Command State) :
    DRAM Command State :=
  mk node.cell (node.children.set i.toNat child)

@[simp]
theorem cell_mk (cell : Cell Command State) (children : List (DRAM Command State)) :
    (mk cell children).cell = cell := rfl

@[simp]
theorem children_mk (cell : Cell Command State) (children : List (DRAM Command State)) :
    (mk cell children).children = children := rfl

end DRAM

/-- `holds` at every node: of its path from the channel on, its members and the number of
its children.  The children of a node are numbered. -/
inductive Everywhere {Command State : Type} (holds : List Int → Cell Command State → Nat → Prop) :
    List Int → DRAM Command State → Prop
  | mk {above : List Int} {cell : Cell Command State} {children : List (DRAM Command State)} :
      holds (above ++ [cell.id]) cell children.length →
      (∀ (i : Nat) child, children[i]? = some child → child.cell.id = i) →
      (∀ child ∈ children, Everywhere holds (above ++ [cell.id]) child) →
      Everywhere holds above (.mk cell children)

def Stateless {Command State : Type} (holds : List Int → Cell Command State → Nat → Prop) : Prop :=
  ∀ path cell children state rowState,
    holds path cell children → holds path { cell with state, rowState } children

/-- A standard, such as `DDR3`: the levels are numbered from the channel, `bank` is
`T::Level::Bank` and `row` is `T::Level::Row`.  A missing entry of a table is an empty
function. -/
structure Standard (Command State : Type) where
  bank : Nat
  row : Nat
  levels : Nat
  row_pos : 0 < row
  row_lt : row < levels
  scope : Command → Nat
  isOpening : Command → Bool
  isAccessing : Command → Bool
  isClosing : Command → Bool
  isRefreshing : Command → Bool
  start : Nat → State
  pre : Command
  translate : RequestType → Command
  prereq : Nat → Command →
    Option (DRAM Command State → Command → Int → Option (Option Command))
  rowhit : Nat → Command → Option (DRAM Command State → Command → Int → Option Bool)
  rowopen : Nat → Command → Option (DRAM Command State → Command → Int → Option Bool)
  lambda : Nat → Command → Option (DRAM Command State → Int → DRAM Command State)
  timing : Nat → Command → List (TimingEntry Command)
  count : Nat → Nat
  prefetchSize : Nat
  channelWidth : Nat
  readLatency : Nat
  nREFI : Nat
  dist_pos : ∀ level cmd, ∀ t ∈ timing level cmd, 0 < t.dist
  dist_sibling : ∀ level cmd, ∀ t ∈ timing level cmd, t.sibling = true → t.dist = 1
  dist_refresh : ∀ level cmd, ∀ t ∈ timing level cmd, t.sibling = false →
    isRefreshing cmd = true → isOpening t.cmd = true → t.dist = 1
  lambda_states : ∀ level cmd f, lambda level cmd = some f →
    ∀ holds, Stateless holds → ∀ above node i, Everywhere holds above node →
      Everywhere holds above (f node i) ∧ (f node i).cell.id = node.cell.id

namespace DRAM

variable {Command State : Type} (spec : Standard Command State)

def historyLength (level : Nat) (cmd : Command) : Nat :=
  (spec.timing level cmd).foldl (fun dist t => max dist t.dist) 0

def fresh (level : Nat) (id : Int) : Cell Command State where
  id
  state := spec.start level
  prev cmd := List.replicate (historyLength spec level cmd) (-1)

def construct (level : Nat) : (below : Nat) → (id : Int) → DRAM Command State
  | 0, id => .mk (fresh spec level id) []
  | below + 1, id => .mk (fresh spec level id)
      ((List.range (spec.count (level + 1))).map fun i : Nat => construct (level + 1) below i)

def channel (id : Int) : DRAM Command State := construct spec 0 (spec.row - 1) id

/-- The command that has to be issued first, which may be `cmd` itself. -/
def decode (cmd : Command) : Nat → List Int → DRAM Command State → Option Command
  | level, _ :: childId :: rest, node => do
      let prereqCmd ← match spec.prereq level cmd with
        | some prereq => prereq node cmd childId
        | none => some none
      match prereqCmd with
      | some prereqCmd => some prereqCmd
      | none =>
          if childId < 0 ∨ node.children.isEmpty then some cmd
          else decode cmd (level + 1) (childId :: rest) (← node.child childId)
  | _, _, _ => none

/-- Whether `cmd` may be issued at `clk`. -/
def check (cmd : Command) (clk : Int) : Nat → List Int → DRAM Command State → Option Bool
  | level, _ :: childId :: rest, node =>
      if node.cell.next cmd ≠ -1 ∧ clk < node.cell.next cmd then some false
      else if childId < 0 ∨ level = spec.scope cmd ∨ node.children.isEmpty then some true
      else do check cmd clk (level + 1) (childId :: rest) (← node.child childId)
  | _, _, _ => none

/-- The common recursion of `check_row_hit` and `check_row_open`. -/
def checkRow (table : Nat → Command → Option (DRAM Command State → Command → Int → Option Bool))
    (cmd : Command) : Nat → List Int → DRAM Command State → Option Bool
  | level, _ :: childId :: rest, node =>
      match table level cmd with
      | some entry => entry node cmd childId
      | none =>
          if childId < 0 ∨ node.children.isEmpty then some false
          else do checkRow table cmd (level + 1) (childId :: rest) (← node.child childId)
  | _, _, _ => none

def checkRowHit (cmd : Command) : Nat → List Int → DRAM Command State → Option Bool :=
  checkRow spec.rowhit cmd

def checkRowOpen (cmd : Command) : Nat → List Int → DRAM Command State → Option Bool :=
  checkRow spec.rowopen cmd

/-- The loop of `get_next`, from the node on. -/
def nextBelow (cmd : Command) : Nat → List Int → DRAM Command State → Option Int
  | level, _ :: childId :: rest, node =>
      if level < spec.scope cmd ∧ ¬ node.children.isEmpty ∧ 0 ≤ childId then do
        return max (node.cell.next cmd)
          (← nextBelow cmd (level + 1) (childId :: rest) (← node.child childId))
      else some (node.cell.next cmd)
  | _, _, _ => none

/-- The earliest clock at which `cmd` may be issued. -/
def getNext (cmd : Command) (addr : List Int) (node : DRAM Command State) : Option Int :=
  (nextBelow spec cmd 0 addr node).map (max node.cell.curClk)

def updateState (cmd : Command) :
    Nat → List Int → DRAM Command State → Option (DRAM Command State)
  | level, _ :: childId :: rest, node => do
      let node := match spec.lambda level cmd with
        | some lambda => lambda node childId
        | none => node
      if level = spec.scope cmd ∨ node.children.isEmpty then some node
      else
        let child ← updateState cmd (level + 1) (childId :: rest) (← node.child childId)
        return node.setChild childId child
  | _, _, _ => none

end DRAM

namespace Cell

variable {Command State : Type} [DecidableEq Command]

def postpone (cell : Cell Command State) (cmd : Command) (future : Int) : Cell Command State :=
  { cell with next := Function.update cell.next cmd (max (cell.next cmd) future) }

def siblingEntry (clk : Int) (cell : Cell Command State) (t : TimingEntry Command) :
    Option (Cell Command State) :=
  if t.sibling then
    if t.dist = 1 then some (cell.postpone t.cmd (clk + t.val)) else none
  else some cell

def pushHistory (cmd : Command) (clk : Int) (cell : Cell Command State) : Cell Command State :=
  match cell.prev cmd with
  | [] => cell
  | time :: times =>
      { cell with prev := Function.update cell.prev cmd (clk :: (time :: times).dropLast) }

def refresh (clk future : Int) (s : Service) : Service :=
  let endOfRefreshing := max s.endOfRefreshing future
  { s with
    beginOfRefreshing := clk
    endOfRefreshing
    refreshCycles := s.refreshCycles + (endOfRefreshing - clk)
    refreshIntervals :=
      if s.curServingRequests > 0 then s.refreshIntervals ++ [(clk, endOfRefreshing)]
      else s.refreshIntervals }

def targetEntry (spec : Standard Command State) (cmd : Command) (clk : Int)
    (cell : Cell Command State) (t : TimingEntry Command) : Option (Cell Command State) :=
  if t.sibling then some cell
  else if t.dist = 0 then none
  else do
    let past ← (cell.prev cmd)[t.dist - 1]?
    if past < 0 then some cell
    else
      let cell := cell.postpone t.cmd (past + t.val)
      if spec.isRefreshing cmd ∧ spec.isOpening t.cmd then
        if past = clk then
          some { cell with service := refresh clk (cell.next t.cmd) cell.service }
        else none
      else some cell

end Cell

namespace DRAM

variable {Command State : Type} [DecidableEq Command] (spec : Standard Command State)

def updateTiming (cmd : Command) (clk : Int) :
    Nat → List Int → DRAM Command State → Option (DRAM Command State)
  | level, id :: rest, node =>
      if node.cell.id ≠ id then do
        return .mk (← (spec.timing level cmd).foldlM (Cell.siblingEntry clk) node.cell)
          node.children
      else do
        let cell ← (spec.timing level cmd).foldlM (Cell.targetEntry spec cmd clk)
          (node.cell.pushHistory cmd clk)
        return .mk cell (← node.children.mapM fun child =>
          updateTiming cmd clk (level + 1) rest child)
  | _, [], _ => none

def update (cmd : Command) (addr : List Int) (clk : Int) (node : DRAM Command State) :
    Option (DRAM Command State) := do
  updateTiming spec cmd clk 0 addr
    (← updateState spec cmd 0 addr (.mk { node.cell with curClk := clk } node.children))

end DRAM

def Service.count (clk : Int) (s : Service) : Service :=
  if s.beginOfCurReqcnt ≠ -1 ∧ s.curServingRequests > 0 then { s with
    servingRequests :=
      s.servingRequests + (clk - s.beginOfCurReqcnt) * s.curServingRequests
    activeCycles := s.activeCycles + (clk - s.beginOfCurReqcnt) }
  else s

def Service.update (delta clk : Int) (s : Service) : Option Service :=
  let s := { s.count clk with
    beginOfCurReqcnt := clk
    curServingRequests := (s.count clk).curServingRequests + delta }
  if s.curServingRequests < 0 then none
  else if delta = 1 ∧ s.curServingRequests = 1 then
    some { s with
      beginOfServing := clk
      activeRefreshOverlapCycles :=
        if s.endOfRefreshing > clk then
          s.activeRefreshOverlapCycles + (s.endOfRefreshing - clk)
        else s.activeRefreshOverlapCycles }
  else if s.curServingRequests = 0 then
    if s.beginOfServing ≠ -1 ∧ delta = -1 then
      some { s with
        activeCycles := s.activeCycles + (clk - s.beginOfCurReqcnt)
        endOfServing := clk
        activeRefreshOverlapCycles := s.refreshIntervals.foldl
          (fun overlap interval => overlap + (min clk interval.2 - interval.1))
          s.activeRefreshOverlapCycles
        refreshIntervals := [] }
    else none
  else some s

/-- `delta` is 1 or -1. -/
def DRAM.updateServingRequests {Command State : Type} (spec : Standard Command State)
    (delta clk : Int) : Nat → List Int → DRAM Command State → Option (DRAM Command State)
  | level, id :: childId :: rest, node =>
      if node.cell.id = id ∧ (delta = 1 ∨ delta = -1) then do
        let service ← node.cell.service.update delta clk
        let node := DRAM.mk { node.cell with service } node.children
        if childId < 0 ∨ node.children.isEmpty ∨ level > spec.bank then some node
        else
          let child ← updateServingRequests spec delta clk (level + 1) (childId :: rest)
            (← node.child childId)
          return node.setChild childId child
      else none
  | _, _, _ => none

section Everywhere

variable {Command State : Type} {holds more : List Int → Cell Command State → Nat → Prop}
  {above : List Int} {node : DRAM Command State}

theorem Everywhere.here (all : Everywhere holds above node) :
    holds (above ++ [node.cell.id]) node.cell node.children.length := by
  cases all with
  | mk here _ _ => exact here

theorem Everywhere.numbered (all : Everywhere holds above node) {i : Nat}
    {child : DRAM Command State} (present : node.children[i]? = some child) :
    child.cell.id = i := by
  cases all with
  | mk _ numbered _ => exact numbered i child present

theorem Everywhere.inside (all : Everywhere holds above node) {child : DRAM Command State}
    (present : child ∈ node.children) : Everywhere holds (above ++ [node.cell.id]) child := by
  cases all with
  | mk _ _ below => exact below child present

theorem DRAM.child_eq_some {i : Int} {child : DRAM Command State}
    (found : node.child i = some child) : 0 ≤ i ∧ node.children[i.toNat]? = some child := by
  unfold DRAM.child at found
  split at found
  · cases found
  · exact ⟨by omega, found⟩

theorem Everywhere.child (all : Everywhere holds above node) {i : Int}
    {child : DRAM Command State} (found : node.child i = some child) :
    child.cell.id = i ∧ Everywhere holds (above ++ [node.cell.id]) child := by
  obtain ⟨nonneg, present⟩ := DRAM.child_eq_some found
  refine ⟨?_, all.inside (List.mem_of_getElem? present)⟩
  rw [all.numbered present]
  omega

theorem Everywhere.leaf (none : node.children = [])
    (here : holds (above ++ [node.cell.id]) node.cell 0) : Everywhere holds above node := by
  rcases node with ⟨cell, children⟩
  obtain rfl : children = [] := none
  exact .mk here (by simp) (by simp)

theorem Everywhere.imp (all : Everywhere holds above node)
    (implies : ∀ path cell children, above ++ [node.cell.id] <+: path →
      holds path cell children → more path cell children) : Everywhere more above node := by
  induction all with
  | mk here numbered below inductionHypothesis =>
      refine .mk (implies _ _ _ List.prefix_rfl here) numbered ?_
      intro child present
      refine inductionHypothesis child present fun path cell children reaches => ?_
      exact implies path cell children ((List.prefix_append _ _).trans reaches)

theorem Everywhere.and (all : Everywhere holds above node) (also : Everywhere more above node) :
    Everywhere (fun path cell children => holds path cell children ∧ more path cell children)
      above node := by
  induction all with
  | mk here numbered below inductionHypothesis =>
      cases also with
      | mk alsoHere _ alsoBelow =>
          exact .mk ⟨here, alsoHere⟩ numbered fun child present =>
            inductionHypothesis child present (alsoBelow child present)

theorem Everywhere.setCell (all : Everywhere holds above node) {cell : Cell Command State}
    (sameId : cell.id = node.cell.id)
    (here : holds (above ++ [node.cell.id]) cell node.children.length) :
    Everywhere holds above (.mk cell node.children) := by
  refine .mk (sameId ▸ here) (fun i child present => all.numbered present) ?_
  intro child present
  rw [sameId]
  exact all.inside present

/-- The members of a node, a child and what holds are replaced at the same time. -/
theorem Everywhere.replace (all : Everywhere holds above node) {cell : Cell Command State} {i : Int}
    {child : DRAM Command State} (sameId : cell.id = node.cell.id) (nonneg : 0 ≤ i)
    (number : child.cell.id = i) (here : more (above ++ [node.cell.id]) cell node.children.length)
    (below : Everywhere more (above ++ [node.cell.id]) child)
    (elsewhere : ∀ path cell children j, j ≠ i → above ++ [node.cell.id, j] <+: path →
      holds path cell children → more path cell children) :
    Everywhere more above ((DRAM.mk cell node.children).setChild i child) := by
  refine .mk ?_ ?_ ?_
  · rw [DRAM.cell_mk, DRAM.children_mk, List.length_set, sameId]
    exact here
  · intro j other present
    rw [DRAM.children_mk, List.getElem?_set] at present
    split at present
    · rename_i same
      split at present
      · rw [← Option.some.inj present, number, ← same]
        omega
      · cases present
    · exact all.numbered present
  · intro other present
    obtain ⟨j, bound, rfl⟩ := List.getElem_of_mem present
    rw [List.getElem_set, DRAM.cell_mk, sameId]
    split
    · exact below
    · rename_i different
      rw [DRAM.children_mk, List.length_set] at bound
      have known := List.getElem?_eq_getElem bound
      refine (all.inside (List.mem_of_getElem? known)).imp fun path cell children reaches => ?_
      refine elsewhere path cell children j (by omega) ?_
      rwa [all.numbered known, List.append_assoc] at reaches

theorem Everywhere.replaceChild (all : Everywhere holds above node) {i : Int}
    {child : DRAM Command State} (nonneg : 0 ≤ i) (number : child.cell.id = i)
    (here : more (above ++ [node.cell.id]) node.cell node.children.length)
    (below : Everywhere more (above ++ [node.cell.id]) child)
    (elsewhere : ∀ path cell children j, j ≠ i → above ++ [node.cell.id, j] <+: path →
      holds path cell children → more path cell children) :
    Everywhere more above (node.setChild i child) :=
  all.replace rfl nonneg number here below elsewhere

theorem not_prefix_sibling (above : List Int) {path : List Int} {id i j : Int} (different : j ≠ i)
    (reaches : above ++ [id, j] <+: path) : ¬ above ++ [id, i] <+: path := by
  intro chosen
  have same := List.prefix_of_prefix_length_le chosen reaches (by simp)
  rw [List.prefix_append_right_inj] at same
  have sameChild : i = j := by simpa using same
  exact different sameChild.symm

end Everywhere

section Functions

variable {Command State : Type} {spec : Standard Command State}
  {holds more : List Int → Cell Command State → Nat → Prop}

def fanout (spec : Standard Command State) (depth : Nat) : Nat :=
  if depth < spec.row then spec.count depth else 0

theorem everywhere_construct
    (new : ∀ path id, path.length < spec.row → holds (path ++ [id])
      (DRAM.fresh spec path.length id) (fanout spec (path.length + 1))) (below : Nat) :
    ∀ above id, above.length + below + 1 = spec.row →
      Everywhere holds above (DRAM.construct spec above.length below id) := by
  induction below with
  | zero =>
      intro above id depth
      refine .mk ?_ (by simp) (by simp)
      have last := new above id (by omega)
      rw [fanout, if_neg (by omega)] at last
      exact last
  | succ below inductionHypothesis =>
      intro above id depth
      refine .mk ?_ ?_ ?_
      · have inner := new above id (by omega)
        rw [fanout, if_pos (by omega)] at inner
        rw [List.length_map, List.length_range]
        exact inner
      · intro i child present
        rw [List.getElem?_map, Option.map_eq_some_iff] at present
        obtain ⟨j, found, rfl⟩ := present
        obtain ⟨bound, rfl⟩ := List.getElem?_eq_some_iff.mp found
        rw [List.getElem_range]
        cases below <;> rfl
      · intro child present
        obtain ⟨i, _, rfl⟩ := List.mem_map.mp present
        have shorter := inductionHypothesis (above ++ [id]) i (by simp; omega)
        rw [List.length_append, List.length_singleton] at shorter
        exact shorter

/-- A command changes nothing but states before the timing is updated. -/
theorem Everywhere.updateState (stateless : Stateless holds) (cmd : Command) :
    ∀ {addr above : List Int} {level : Nat} {node after : DRAM Command State},
      Everywhere holds above node → DRAM.updateState spec cmd level addr node = some after →
      Everywhere holds above after ∧ after.cell.id = node.cell.id
  | [], _, _, _, _, _, updated => by cases updated
  | [_], _, _, _, _, _, updated => by cases updated
  | _ :: childId :: rest, above, level, node, after, all, updated => by
      have moved : Everywhere holds above (match spec.lambda level cmd with
            | some lambda => lambda node childId
            | none => node) ∧
          (match spec.lambda level cmd with
            | some lambda => lambda node childId
            | none => node).cell.id = node.cell.id := by
        cases entry : spec.lambda level cmd with
        | none => exact ⟨all, rfl⟩
        | some lambda =>
            exact spec.lambda_states level cmd lambda entry holds stateless above node childId all
      rw [DRAM.updateState] at updated
      generalize (match spec.lambda level cmd with
        | some lambda => lambda node childId
        | none => node) = changed at moved updated
      obtain ⟨changedAll, sameId⟩ := moved
      split at updated
      · obtain rfl := Option.some.inj updated
        exact ⟨changedAll, sameId⟩
      · simp only [Option.bind_eq_bind, Option.bind_eq_some_iff] at updated
        obtain ⟨child, found, newChild, childUpdated, updated⟩ := updated
        obtain rfl := Option.some.inj updated
        obtain ⟨number, childAll⟩ := changedAll.child found
        obtain ⟨newAll, newId⟩ := Everywhere.updateState stateless cmd childAll childUpdated
        exact ⟨changedAll.replaceChild (DRAM.child_eq_some found).1 (newId.trans number)
          changedAll.here newAll fun _ _ _ _ _ _ holds => holds, sameId⟩

section Timing

variable [DecidableEq Command]

/-- What updating the timing does at the targets, at their siblings and elsewhere. -/
theorem Everywhere.updateTiming {cmd : Command} {clk : Int} {full : List Int}
    (long : ∀ path cell children, holds path cell children → path.length ≤ full.length)
    (target : ∀ path level cell children, path.length = level + 1 → path <+: full →
      holds path cell children →
      ∃ after, (spec.timing level cmd).foldlM (Cell.targetEntry spec cmd clk)
        (cell.pushHistory cmd clk) = some after ∧ after.id = cell.id ∧ more path after children)
    (sibling : ∀ path level cell children, path.length = level + 1 →
      path.dropLast <+: full → ¬ path <+: full → holds path cell children →
      ∃ after, (spec.timing level cmd).foldlM (Cell.siblingEntry clk) cell = some after ∧
        after.id = cell.id ∧ more path after children)
    (other : ∀ path cell children, ¬ path.dropLast <+: full → holds path cell children →
      more path cell children)
    {above : List Int} {node : DRAM Command State} (all : Everywhere holds above node) :
    ∀ {addr : List Int}, above ++ addr = full →
      ∃ after, DRAM.updateTiming spec cmd clk above.length addr node = some after ∧
        after.cell.id = node.cell.id ∧ Everywhere more above after := by
  induction all with
  | @mk above cell children here numbered below inductionHypothesis =>
      intro addr split
      cases addr with
      | nil =>
          have tooLong := long _ _ _ here
          rw [← split] at tooLong
          simp at tooLong
      | cons id rest =>
          have onWay : above <+: full := split ▸ List.prefix_append _ _
          rw [DRAM.updateTiming]
          by_cases different : (DRAM.mk cell children).cell.id ≠ id
          · have notTarget : ¬ above ++ [cell.id] <+: full := by
              rw [← split, List.prefix_append_right_inj]
              simpa using different
            obtain ⟨after, updated, sameId, newHere⟩ := sibling _ above.length cell
              children.length (by simp) (by simpa using onWay) notTarget here
            refine ⟨.mk after children, ?_, sameId, .mk (sameId ▸ newHere) numbered ?_⟩
            · rw [if_pos different]
              simp [updated]
            · intro child present
              rw [sameId]
              refine (below child present).imp fun path cell children reaches old => ?_
              refine other path cell children (fun stillOnWay => notTarget ?_) old
              obtain ⟨rest, rfl⟩ := reaches
              rw [List.append_assoc, List.dropLast_append_of_ne_nil (by simp)] at stillOnWay
              exact (List.prefix_append _ _).trans stillOnWay
          · have same : cell.id = id := not_not.mp different
            have isTarget : above ++ [cell.id] <+: full := by
              rw [← split, same, List.prefix_append_right_inj]
              simp
            obtain ⟨after, updated, sameId, newHere⟩ := target _ above.length cell
              children.length (by simp) isTarget here
            have each : ∀ child ∈ children, ∃ newChild,
                DRAM.updateTiming spec cmd clk (above.length + 1) rest child = some newChild ∧
                newChild.cell.id = child.cell.id ∧
                Everywhere more (above ++ [cell.id]) newChild := by
              intro child present
              have longer : above.length + 1 = (above ++ [cell.id]).length := by simp
              rw [longer]
              refine inductionHypothesis child present ?_
              rw [← split, same, List.append_assoc]
              rfl
            have computed : ∃ newChildren, children.mapM (fun child =>
                DRAM.updateTiming spec cmd clk (above.length + 1) rest child) =
                  some newChildren :=
              CheckedLoop.mapM_total fun child present =>
                (each child present).imp fun _ facts => facts.1
            obtain ⟨newChildren, childrenUpdated⟩ := computed
            have pairs := CheckedLoop.mapM_forall₂ childrenUpdated
            have paired : ∀ (i : Nat) (bound : i < newChildren.length),
                ∃ inside : i < children.length,
                  newChildren[i].cell.id = children[i].cell.id ∧
                  Everywhere more (above ++ [cell.id]) newChildren[i] := by
              intro i bound
              have inside : i < children.length := pairs.length_eq ▸ bound
              obtain ⟨newChild, childUpdated, facts⟩ := each _ (List.getElem_mem inside)
              have sameChild : newChild = newChildren[i] :=
                Option.some.inj (childUpdated.symm.trans (pairs.get inside bound))
              rw [← sameChild]
              exact ⟨inside, facts⟩
            refine ⟨.mk after newChildren, ?_, sameId, .mk ?_ ?_ ?_⟩
            · rw [if_neg different]
              simp [updated, childrenUpdated]
            · rw [sameId, ← pairs.length_eq]
              exact newHere
            · intro i newChild present
              obtain ⟨bound, rfl⟩ := List.getElem?_eq_some_iff.mp present
              obtain ⟨inside, number, _⟩ := paired i bound
              rw [number]
              exact numbered i _ (List.getElem?_eq_getElem inside)
            · intro newChild present
              obtain ⟨i, bound, rfl⟩ := List.getElem_of_mem present
              rw [sameId]
              exact (paired i bound).2.2

end Timing

end Functions

end GraphAccelerator.Dram
