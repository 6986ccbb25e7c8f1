import GraphAccelerator.Dram.Tree
import GraphAccelerator.Dram.Timing
import GraphAccelerator.Memory.Controller

/-!
# The controller of a channel

`Controller<T>` with its scheduler, its table of open rows and its refresh unit.  In a
tick it calls a completed read back, asks for refreshes that are due, chooses a queue and
a request in it, and issues the next command of this request, if it may be issued now.
The row policy is `Opened`, which never issues a command of its own.
-/

namespace GraphAccelerator.Dram

open GraphAccelerator.Memory (RequestType QueueKind)

structure Request extends GraphAccelerator.Memory.Request where
  addrVec : List Int
  isFirstCommand : Bool := true
  deriving DecidableEq, Repr

/-- `RowTable::Entry` -/
structure Entry where
  row : Int
  hits : Nat
  timestamp : Int
  deriving DecidableEq, Repr

/-- `RowTable::table`, with one entry for a key. -/
abbrev RowTable := List (List Int × Entry)

structure Refresh where
  clk : Nat := 0
  refreshed : Nat := 0
  deriving DecidableEq, Repr

structure ChannelStats where
  readTransactionBytes : Nat := 0
  writeTransactionBytes : Nat := 0
  rowHits : Nat := 0
  rowMisses : Nat := 0
  rowConflicts : Nat := 0
  readLatencySum : Int := 0
  reqQueueLengthSum : Nat := 0
  readReqQueueLengthSum : Nat := 0
  writeReqQueueLengthSum : Nat := 0
  deriving DecidableEq, Repr

/-- What is counted when the first command of a request is issued. -/
def ChannelStats.transactions (stats : ChannelStats) : Nat × Nat × Nat × Nat × Nat :=
  (stats.rowHits, stats.rowMisses, stats.rowConflicts, stats.readTransactionBytes,
    stats.writeTransactionBytes)

/-- `trace` is what `print_cmd_trace` prints, the newest command first. -/
structure Controller (Command State : Type) where
  clk : Nat := 0
  channel : DRAM Command State
  rowtable : RowTable := []
  refresh : Refresh := {}
  readq : List Request := []
  writeq : List Request := []
  otherq : List Request := []
  pending : List Request := []
  writeMode : Bool := false
  stats : ChannelStats := {}
  trace : List (Issue Command) := []

inductive Policy where
  | fcfs
  | frfcfs
  | frfcfsCap
  | frfcfsPriorHit
  deriving DecidableEq, Repr

namespace RowTable

def find (key : List Int) (table : RowTable) : Option Entry :=
  (table.find? fun entry => entry.1 = key).map Prod.snd

variable {Command State : Type} [DecidableEq Command] (spec : Standard Command State)

/-- Opens the row, unless there is an entry for its bank. -/
def opening (cmd : Command) (key : List Int) (row clk : Int) (table : RowTable) : RowTable :=
  if spec.isOpening cmd ∧ table.find key = none then table ++ [(key, ⟨row, 0, clk⟩)] else table

/-- Counts an access to the row, which has to be the open one. -/
def accessing (cmd : Command) (key : List Int) (row clk : Int) (table : RowTable) :
    Option RowTable :=
  if spec.isAccessing cmd then do
    let entry ← table.find key
    if entry.row = row then
      return table.map fun other =>
        if other.1 = key then (key, { entry with hits := entry.hits + 1, timestamp := clk })
        else other
    else none
  else some table

/-- Removes the entries in the scope of the command, of which there has to be one. -/
def closing (cmd : Command) (addrVec : List Int) (table : RowTable) : Option RowTable :=
  if spec.isClosing cmd then
    if spec.row < spec.scope cmd + 1 then none
    else
      let kept := table.filter fun entry =>
        entry.1.take (spec.scope cmd + 1) ≠ addrVec.take (spec.scope cmd + 1)
      if kept.length < table.length then some kept else none
  else some table

def update (cmd : Command) (addrVec : List Int) (clk : Int) (table : RowTable) :
    Option RowTable := do
  let key := addrVec.take spec.row
  let row ← addrVec[spec.row]?
  closing spec cmd addrVec (← accessing spec cmd key row clk (opening spec cmd key row clk table))

def getHits (addrVec : List Int) (table : RowTable) : Option Nat := do
  let row ← addrVec[spec.row]?
  match table.find (addrVec.take spec.row) with
  | none => return 0
  | some entry => return if entry.row ≠ row then 0 else entry.hits

end RowTable

namespace Controller

variable {Command State : Type}

def queue (c : Controller Command State) : QueueKind → List Request
  | .readq => c.readq
  | .writeq => c.writeq
  | .otherq => c.otherq

def setQueue (c : Controller Command State) (kind : QueueKind) (q : List Request) :
    Controller Command State :=
  match kind with
  | .readq => { c with readq := q }
  | .writeq => { c with writeq := q }
  | .otherq => { c with otherq := q }

@[simp]
theorem queue_setQueue (c : Controller Command State) (kind : QueueKind) (q : List Request) :
    (c.setQueue kind q).queue kind = q := by
  cases kind <;> rfl

@[simp]
theorem setQueue_setQueue (c : Controller Command State) (kind : QueueKind)
    (q other : List Request) :
    (c.setQueue kind q).setQueue kind other = c.setQueue kind other := by
  cases kind <;> rfl

@[simp]
theorem setQueue_queue (c : Controller Command State) (kind : QueueKind) :
    c.setQueue kind (c.queue kind) = c := by
  cases kind <;> rfl

@[simp]
theorem setQueue_fields (c : Controller Command State) (kind : QueueKind) (q : List Request) :
    (c.setQueue kind q).clk = c.clk ∧ (c.setQueue kind q).channel = c.channel ∧
      (c.setQueue kind q).rowtable = c.rowtable ∧ (c.setQueue kind q).refresh = c.refresh ∧
      (c.setQueue kind q).pending = c.pending ∧ (c.setQueue kind q).stats = c.stats ∧
      (c.setQueue kind q).trace = c.trace := by
  cases kind <;> exact ⟨rfl, rfl, rfl, rfl, rfl, rfl, rfl⟩

theorem setQueue_writeMode (c : Controller Command State) (kind : QueueKind) (q : List Request) :
    (c.setQueue kind q).writeMode = c.writeMode := by
  cases kind <;> rfl

theorem queue_setQueue_ne {kind other : QueueKind} (different : other ≠ kind)
    (c : Controller Command State) (q : List Request) :
    (c.setQueue kind q).queue other = c.queue other := by
  cases kind <;> cases other <;> first | rfl | exact absurd rfl different

def enqueue (req : Request) (c : Controller Command State) : Controller Command State × Bool :=
  let kind := req.type.queue
  if (c.queue kind).length = Memory.Controller.queueMax then (c, false)
  else
    let req := { req with arrive := c.clk }
    if req.type = .read ∧ c.writeq.any (fun wreq => req.addr = wreq.addr) then
      ({ c with pending := c.pending ++ [{ req with depart := c.clk + 1 }] }, true)
    else (c.setQueue kind (c.queue kind ++ [req]), true)

variable [DecidableEq Command] (spec : Standard Command State)

/-- `channel->update_serving_requests` -/
def serving (delta : Int) (req : Request) (c : Controller Command State) :
    Option (Controller Command State) := do
  return { c with
    channel := ← c.channel.updateServingRequests spec delta c.clk 0 req.addrVec }

omit [DecidableEq Command] in
theorem serving_some {delta : Int} {req : Request} {c : Controller Command State}
    {channel : DRAM Command State}
    (updated : c.channel.updateServingRequests spec delta c.clk 0 req.addrVec = some channel) :
    c.serving spec delta req = some { c with channel } := by
  rw [serving, updated]
  rfl

def sumQueues (c : Controller Command State) : Controller Command State :=
  { c with stats := { c.stats with
      reqQueueLengthSum :=
        c.stats.reqQueueLengthSum + (c.readq.length + c.writeq.length + c.pending.length)
      readReqQueueLengthSum :=
        c.stats.readReqQueueLengthSum + (c.readq.length + c.pending.length)
      writeReqQueueLengthSum := c.stats.writeReqQueueLengthSum + c.writeq.length } }

def servePending (c : Controller Command State) :
    Option (Controller Command State × List Request) :=
  match c.pending with
  | [] => some (c, [])
  | req :: rest =>
      if req.depart ≤ c.clk then do
        let c ← (if req.depart - req.arrive > 1 then
            serving spec (-1) req { c with stats := { c.stats with
              readLatencySum := c.stats.readLatencySum + (req.depart - req.arrive) } }
          else some c)
        return ({ c with pending := rest }, [req])
      else some (c, [])

/-- `refresh_target(ctrl, rank, -1, -1)`; the request has neither an address nor a user
defined member. -/
def refreshTarget (c : Controller Command State) (rank : DRAM Command State) :
    Option (Controller Command State) :=
  let (c, res) := c.enqueue {
    type := .refresh
    addr := 0
    udf := {
      burstIdx := 0
      reqIdx := 0
      peIdx := 0
      portIdx := 0
      arriveMemTime := 0
      departMemTime := 0 }
    addrVec := c.channel.cell.id :: rank.cell.id :: List.replicate (spec.levels - 2) (-1) }
  if res then some c else none

def tickRef (c : Controller Command State) : Option (Controller Command State) :=
  let c := { c with refresh := { c.refresh with clk := c.refresh.clk + 1 } }
  if c.refresh.clk - c.refresh.refreshed ≥ spec.nREFI then do
    let c ← c.channel.children.foldlM (refreshTarget spec) c
    return { c with refresh := { c.refresh with refreshed := c.refresh.clk } }
  else some c

/-- Whether to schedule writes: the bounds are `int(0.8 * max)` and `int(0.2 * max)`. -/
def scheduleWrites (c : Controller Command State) : Controller Command State :=
  if !c.writeMode then
    if c.writeq.length ≥ 25 ∨ c.readq.length = 0 then { c with writeMode := true } else c
  else
    if c.writeq.length ≤ 6 ∧ c.readq.length ≠ 0 then { c with writeMode := false } else c

def scheduled (c : Controller Command State) : QueueKind :=
  if c.otherq.length ≠ 0 then .otherq else if c.writeMode then .writeq else .readq

def getFirstCmd (req : Request) (c : Controller Command State) : Option Command :=
  c.channel.decode spec (spec.translate req.type) 0 req.addrVec

def isReadyCmd (cmd : Command) (addrVec : List Int) (c : Controller Command State) :
    Option Bool :=
  c.channel.check spec cmd c.clk 0 addrVec

def isReady (req : Request) (c : Controller Command State) : Option Bool := do
  c.isReadyCmd spec (← c.getFirstCmd spec req) req.addrVec

def isRowHit (req : Request) (c : Controller Command State) : Option Bool :=
  c.channel.checkRowHit spec (spec.translate req.type) 0 req.addrVec

def isRowOpen (req : Request) (c : Controller Command State) : Option Bool :=
  c.channel.checkRowOpen spec (spec.translate req.type) 0 req.addrVec

def cap : Nat := 16

def prior (c : Controller Command State) (req : Request) : Policy → Option Bool
  | .fcfs => some true
  | .frfcfs => c.isReady spec req
  | .frfcfsCap => do
      if ← c.isReady spec req then
        return (← c.rowtable.getHits spec req.addrVec) ≤ cap
      else return false
  | .frfcfsPriorHit => do
      if ← c.isReady spec req then c.isRowHit spec req else return false

/-- `compare`; a request comes with its place in the queue. -/
def compare (c : Controller Command State) (policy : Policy) (req1 req2 : Nat × Request) :
    Option (Nat × Request) := do
  let ready1 ← c.prior spec req1.2 policy
  let ready2 ← c.prior spec req2.2 policy
  return if ready1 ^^ ready2 then (if ready1 then req1 else req2)
    else if req1.2.arrive ≤ req2.2.arrive then req1
    else req2

def best (c : Controller Command State) (policy : Policy) :
    List (Nat × Request) → Option (Option (Nat × Request))
  | [] => some none
  | head :: rest => (rest.foldlM (c.compare spec policy) head).map some

def select {Item : Type} (keep : Item → Option Bool) : List Item → Option (List Item)
  | [] => some []
  | item :: rest => do
      let kept ← keep item
      let others ← select keep rest
      return if kept then item :: others else others

def rowgroup (req : Request) : List Int := req.addrVec.take (spec.scope spec.pre + 1)

def violatesHit (c : Controller Command State) (hitReqs : List (Nat × Request))
    (req : Nat × Request) : Option Bool := do
  if ← c.isRowHit spec req.2 then return false
  else if ← c.isRowOpen spec req.2 then
    return hitReqs.any fun hit => rowgroup spec req.2 = rowgroup spec hit.2
  else return false

/-- `get_head`; `some none` is the end of the queue. -/
def getHead (policy : Policy) (c : Controller Command State) (q : List Request) :
    Option (Option (Nat × Request)) := do
  let q := q.zipIdx.map fun (req, i) => (i, req)
  let head ← c.best spec policy q
  if policy ≠ .frfcfsPriorHit then return head
  else
    match head with
    | none => return none
    | some head =>
        -- it is ready and a row hit
        if ← c.prior spec head.2 .frfcfsPriorHit then return some head
        else
          let hitReqs ← select (fun req => c.isRowHit spec req.2) q
          let others ← select (fun req => return !(← c.violatesHit spec hitReqs req)) q
          c.best spec .frfcfs others

def countRow (req : Request) (c : Controller Command State) :
    Option (Controller Command State) := do
  if ← c.isRowHit spec req then
    return { c with stats := { c.stats with rowHits := c.stats.rowHits + 1 } }
  else if ← c.isRowOpen spec req then
    return { c with stats := { c.stats with rowConflicts := c.stats.rowConflicts + 1 } }
  else return { c with stats := { c.stats with rowMisses := c.stats.rowMisses + 1 } }

def countTransaction (req : Request) (c : Controller Command State) :
    Option (Controller Command State) :=
  let tx := spec.prefetchSize * spec.channelWidth / 8
  if req.type = .read then do
    let c ← c.countRow spec req
    return { c with stats := { c.stats with
      readTransactionBytes := c.stats.readTransactionBytes + tx } }
  else if req.type = .write then do
    let c ← c.countRow spec req
    return { c with stats := { c.stats with
      writeTransactionBytes := c.stats.writeTransactionBytes + tx } }
  else some c

def begin (kind : QueueKind) (i : Nat) (req : Request) (c : Controller Command State) :
    Option (Controller Command State) :=
  if req.isFirstCommand then do
    let c := c.setQueue kind ((c.queue kind).set i { req with isFirstCommand := false })
    let c ← (if req.type = .read ∨ req.type = .write then c.serving spec 1 req else some c)
    c.countTransaction spec req
  else some c

def issueCmd (cmd : Command) (addrVec : List Int) (c : Controller Command State) :
    Option (Controller Command State) := do
  if ← c.isReadyCmd spec cmd addrVec then
    let channel ← c.channel.update spec cmd addrVec c.clk
    let rowtable ← c.rowtable.update spec cmd addrVec c.clk
    return { c with channel, rowtable, trace := ⟨cmd, addrVec, c.clk⟩ :: c.trace }
  else none

def finish (kind : QueueKind) (i : Nat) (req : Request) (c : Controller Command State) :
    Option (Controller Command State) := do
  let req := { req with isFirstCommand := false }
  let c := if req.type = .read then
      { c with pending := c.pending ++ [{ req with depart := c.clk + spec.readLatency }] }
    else c
  let c ← (if req.type = .write then c.serving spec (-1) req else some c)
  return c.setQueue kind ((c.queue kind).eraseIdx i)

/-- Issues the next command of a request, and finishes the request with its last one. -/
def serve (kind : QueueKind) (i : Nat) (req : Request) (c : Controller Command State) :
    Option (Controller Command State) := do
  let c ← c.begin spec kind i req
  let cmd ← c.getFirstCmd spec req
  let c ← c.issueCmd spec cmd req.addrVec
  if cmd ≠ spec.translate req.type then some c else c.finish spec kind i req

def beginTick (c : Controller Command State) :
    Option (Controller Command State × List Request) := do
  let (c, callbacks) ← servePending spec (sumQueues { c with clk := c.clk + 1 })
  return ((← c.tickRef spec).scheduleWrites, callbacks)

/-- `Controller<T>::tick`, with the requests it calls back. -/
def tick (policy : Policy) (c : Controller Command State) :
    Option (Controller Command State × List Request) := do
  let (c, callbacks) ← c.beginTick spec
  let kind := c.scheduled
  match ← c.getHead spec policy (c.queue kind) with
  | none => return (c, callbacks)
  | some (i, req) =>
      if ← c.isReady spec req then return (← c.serve spec kind i req, callbacks)
      else return (c, callbacks)

end Controller

end GraphAccelerator.Dram
