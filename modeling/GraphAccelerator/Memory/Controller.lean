import GraphAccelerator.Memory.Accounting

/-!
# The memory controllers

A controller queues what it accepts and serves it as the DRAM allows.  What the
scheduler, the timing checks and the refresh unit decide in a tick is a `Choice`; the
queues, the completion of the reads and the callbacks follow the source.  The generic
controller keeps the laws of a memory.  The controller of `TLDRAM` calls a write back
when it finishes as well, and keeps the laws in the ticks in which no write finishes.
-/

namespace GraphAccelerator.Memory

inductive QueueKind where
  | readq
  | writeq
  | otherq
  deriving DecidableEq, Repr

/-- `get_queue` -/
def RequestType.queue : RequestType → QueueKind
  | .read => .readq
  | .write => .writeq
  | _ => .otherq

structure Controller where
  clk : Nat := 0
  readq : List Request := []
  writeq : List Request := []
  otherq : List Request := []
  pending : List Request := []
  writeMode : Bool := false
  deriving DecidableEq, Repr

/-- What is decided outside the queues in one tick: how many refreshes are requested,
which request the scheduler finds, whether its command is ready, and whether the
command is the last one of the request. -/
structure Choice where
  refreshes : Nat
  head : Option Nat
  ready : Bool
  last : Bool
  deriving DecidableEq, Repr

namespace Controller

def queueMax : Nat := 32

def queue (c : Controller) : QueueKind → List Request
  | .readq => c.readq
  | .writeq => c.writeq
  | .otherq => c.otherq

def setQueue (c : Controller) (kind : QueueKind) (q : List Request) : Controller :=
  match kind with
  | .readq => { c with readq := q }
  | .writeq => { c with writeq := q }
  | .otherq => { c with otherq := q }

/-- A read of an address that a queued write goes to is forwarded to `pending`. -/
def enqueue (req : Request) (c : Controller) : Controller × Bool :=
  let kind := req.type.queue
  if (c.queue kind).length = queueMax then (c, false)
  else
    let req := { req with arrive := c.clk }
    if req.type = .read ∧ c.writeq.any (fun wreq => req.addr = wreq.addr) then
      ({ c with pending := c.pending ++ [{ req with depart := c.clk + 1 }] }, true)
    else (c.setQueue kind (c.queue kind ++ [req]), true)

def servePending (c : Controller) : Controller × List Request :=
  match c.pending with
  | [] => (c, [])
  | req :: rest => if req.depart ≤ c.clk then ({ c with pending := rest }, [req]) else (c, [])

/-- `refresh->tick_ref()`; the refreshes have no callback. -/
def tickRef (refreshes : Nat) (c : Controller) : Controller :=
  (List.range refreshes).foldl (fun c _ => (c.enqueue {
    type := .refresh
    addr := 0
    udf := {
      burstIdx := 0
      reqIdx := 0
      peIdx := 0
      portIdx := 0
      arriveMemTime := 0
      departMemTime := 0 } }).1) c

def scheduleWrites (c : Controller) : Controller :=
  if !c.writeMode then
    if c.writeq.length ≥ 25 ∨ c.readq.length = 0 then { c with writeMode := true } else c
  else
    if c.writeq.length ≤ 6 ∧ c.readq.length ≠ 0 then { c with writeMode := false } else c

def scheduled (c : Controller) : QueueKind :=
  if c.otherq.length ≠ 0 then .otherq else if c.writeMode then .writeq else .readq

def beginTick (refreshes : Nat) (c : Controller) : Controller × List Request :=
  let (c, callbacks) := { c with clk := c.clk + 1 }.servePending
  (c.tickRef refreshes |>.scheduleWrites, callbacks)

def tick (readLatency : Nat) (choice : Choice) (c : Controller) : Controller × List Request :=
  let (c, callbacks) := c.beginTick choice.refreshes
  let kind := c.scheduled
  match choice.head.bind fun i => (c.queue kind)[i]?.map fun req => (i, req) with
  | none => (c, callbacks)
  | some (i, req) =>
      if choice.ready ∧ choice.last then
        let c := if req.type = .read then
            { c with pending := c.pending ++ [{ req with depart := c.clk + readLatency }] }
          else c
        (c.setQueue kind ((c.queue kind).eraseIdx i), callbacks)
      else (c, callbacks)

/-- `Controller<TLDRAM>::tick`: a read becomes a migration request when its first
command is issued, and a write is called back when it finishes. -/
def tickTLDRAM (readLatency : Nat) (choice : Choice) (c : Controller) :
    Controller × List Request :=
  let (c, callbacks) := c.beginTick choice.refreshes
  let kind := c.scheduled
  match choice.head.bind fun i => (c.queue kind)[i]?.map fun req => (i, req) with
  | none => (c, callbacks)
  | some (i, req) =>
      if choice.ready then
        let req := if req.type = .read then { req with type := .extension } else req
        let c := c.setQueue kind ((c.queue kind).set i req)
        if choice.last then
          let c := if req.type = .read ∨ req.type = .extension then
              { c with pending := c.pending ++ [{ req with depart := c.clk + readLatency }] }
            else c
          (c.setQueue kind ((c.queue kind).eraseIdx i),
            if req.type = .write then callbacks ++ [req] else callbacks)
        else (c, callbacks)
      else (c, callbacks)

def FinishesWrite (choice : Choice) (c : Controller) : Prop :=
  (c.beginTick choice.refreshes).1.scheduled = .writeq ∧ choice.ready = true ∧
    choice.last = true ∧ ∃ i, choice.head = some i ∧ i < c.writeq.length

/-- Every queue holds requests of its own types, where the reads may have been
replaced by requests of other types. -/
structure Typed (reads : List RequestType) (c : Controller) : Prop where
  readq : ∀ r ∈ c.readq, r.type ∈ reads
  writeq : ∀ r ∈ c.writeq, r.type = .write
  otherq : ∀ r ∈ c.otherq, r.type.queue = .otherq ∧ r.type ∉ reads

end Controller

def Request.entry (r : Request) : UDF × Int := (r.udf, r.arrive)

namespace Controller

def outstanding (c : Controller) : Multiset (UDF × Int) :=
  (c.readq.map Request.entry : List (UDF × Int)) + (c.pending.map Request.entry : List (UDF × Int))

structure TickStep (reads : List RequestType) (c : Controller) (callbacks : List Request)
    (after : Controller) : Prop where
  clk : after.clk = c.clk + 1
  typed : after.Typed reads
  outstanding : c.outstanding =
    (callbacks.map Request.entry : List (UDF × Int)) + after.outstanding
  departed : ∀ r ∈ callbacks, r.depart ≤ after.clk
  writeq : ∀ r ∈ after.writeq, r ∈ c.writeq

section

variable {reads : List RequestType} {c : Controller}

theorem isRead {type : RequestType} (queued : type.queue = .readq) : type = .read := by
  cases type <;> simp [RequestType.queue] at queued ⊢

theorem isWrite {type : RequestType} (queued : type.queue = .writeq) : type = .write := by
  cases type <;> simp [RequestType.queue] at queued ⊢

theorem isOther {type : RequestType} (other : type.queue = .otherq) :
    type ≠ .read ∧ type ≠ .write := by
  cases type <;> simp [RequestType.queue] at other ⊢

@[simp]
theorem scheduleWrites_fields (c : Controller) :
    c.scheduleWrites.clk = c.clk ∧ c.scheduleWrites.readq = c.readq ∧
      c.scheduleWrites.writeq = c.writeq ∧ c.scheduleWrites.otherq = c.otherq ∧
      c.scheduleWrites.pending = c.pending := by
  unfold scheduleWrites
  split <;> split <;> exact ⟨rfl, rfl, rfl, rfl, rfl⟩

theorem tickRef_fields (refreshes : Nat) (c : Controller) :
    (c.tickRef refreshes).clk = c.clk ∧ (c.tickRef refreshes).readq = c.readq ∧
      (c.tickRef refreshes).writeq = c.writeq ∧ (c.tickRef refreshes).pending = c.pending ∧
      ∀ r ∈ (c.tickRef refreshes).otherq, r ∈ c.otherq ∨ r.type = .refresh := by
  induction refreshes with
  | zero => exact ⟨rfl, rfl, rfl, rfl, fun r membership => .inl membership⟩
  | succ refreshes inductionHypothesis =>
      obtain ⟨clk, readq, writeq, pending, otherq⟩ := inductionHypothesis
      rw [tickRef, List.range_succ, List.foldl_append, List.foldl_cons, List.foldl_nil,
        ← tickRef]
      generalize c.tickRef refreshes = before at clk readq writeq pending otherq
      dsimp only [enqueue]
      split
      · exact ⟨clk, readq, writeq, pending, otherq⟩
      · rw [if_neg (by simp)]
        refine ⟨clk, readq, writeq, pending, ?_⟩
        intro r membership
        rcases List.mem_append.mp membership with earlier | new
        · exact otherq r earlier
        · exact .inr (by rw [List.mem_singleton.mp new])

theorem servePending_fields (c : Controller) :
    c.servePending.1.clk = c.clk ∧ c.servePending.1.readq = c.readq ∧
      c.servePending.1.writeq = c.writeq ∧ c.servePending.1.otherq = c.otherq ∧
      c.servePending.2 ++ c.servePending.1.pending = c.pending ∧
      ∀ r ∈ c.servePending.2, r.depart ≤ c.clk := by
  unfold servePending
  cases queued : c.pending with
  | nil => exact ⟨rfl, rfl, rfl, rfl, queued, by simp⟩
  | cons req rest =>
      dsimp only
      split
      · rename_i departed
        refine ⟨rfl, rfl, rfl, rfl, rfl, ?_⟩
        intro r membership
        rw [List.mem_singleton.mp membership]
        exact departed
      · exact ⟨rfl, rfl, rfl, rfl, queued, by simp⟩

/-- The first half of a tick leaves the reads and the writes in their queues. -/
theorem beginTick_spec (refreshes : Nat) (c : Controller) :
    (c.beginTick refreshes).1.clk = c.clk + 1 ∧
      (c.beginTick refreshes).1.readq = c.readq ∧
      (c.beginTick refreshes).1.writeq = c.writeq ∧
      (c.beginTick refreshes).2 ++ (c.beginTick refreshes).1.pending = c.pending ∧
      (∀ r ∈ (c.beginTick refreshes).2, r.depart ≤ (c.clk + 1 : Nat)) ∧
      ∀ r ∈ (c.beginTick refreshes).1.otherq, r ∈ c.otherq ∨ r.type = .refresh := by
  let ticked : Controller := { c with clk := c.clk + 1 }
  obtain ⟨clk, readq, writeq, otherq, pending, departed⟩ := servePending_fields ticked
  obtain ⟨clk', readq', writeq', pending', otherq'⟩ :=
    tickRef_fields refreshes ticked.servePending.1
  obtain ⟨clk'', readq'', writeq'', otherq'', pending''⟩ :=
    scheduleWrites_fields (ticked.servePending.1.tickRef refreshes)
  refine ⟨clk''.trans (clk'.trans clk), readq''.trans (readq'.trans readq),
    writeq''.trans (writeq'.trans writeq), ?_, departed, ?_⟩
  · rw [← pending, ← pending', ← pending'']
    rfl
  · rw [otherq] at otherq'
    exact otherq'' ▸ otherq'

theorem scheduled_cases (choice : Choice) (c : Controller) (kind : QueueKind) :
    (choice.head.bind fun i => (c.queue kind)[i]?.map fun req => (i, req)) = none ∨
      ∃ i req, (choice.head.bind fun i => (c.queue kind)[i]?.map fun req => (i, req)) =
        some (i, req) ∧ choice.head = some i ∧ (c.queue kind)[i]? = some req := by
  cases choice.head with
  | none => exact .inl rfl
  | some i =>
      cases found : (c.queue kind)[i]? with
      | none => exact .inl (by simp [found])
      | some req => exact .inr ⟨i, req, by simp [found], rfl, found⟩

theorem entries_eraseIdx {q : List Request} {i : Nat} {req : Request} (found : q[i]? = some req) :
    ((q.map Request.entry : List (UDF × Int)) : Multiset (UDF × Int)) =
      req.entry ::ₘ ((q.eraseIdx i).map Request.entry : List (UDF × Int)) := by
  obtain ⟨bound, rfl⟩ := List.getElem?_eq_some_iff.mp found
  rw [Multiset.cons_coe, ← List.map_cons, Multiset.coe_eq_coe]
  exact ((List.getElem_cons_eraseIdx_perm bound).map _).symm

theorem TickStep.begin (refreshes : Nat) (typed : c.Typed reads)
    (noRefresh : RequestType.refresh ∉ reads) :
    TickStep reads c (c.beginTick refreshes).2 (c.beginTick refreshes).1 := by
  obtain ⟨clk, readq, writeq, pending, departed, otherq⟩ := beginTick_spec refreshes c
  have others : ∀ r ∈ (c.beginTick refreshes).1.otherq,
      r.type.queue = .otherq ∧ r.type ∉ reads := by
    intro r membership
    rcases otherq r membership with earlier | isRefresh
    · exact typed.otherq r earlier
    · rw [isRefresh]
      exact ⟨rfl, noRefresh⟩
  exact {
    clk
    typed := ⟨readq ▸ typed.readq, writeq ▸ typed.writeq, others⟩
    outstanding := by
      rw [Controller.outstanding, Controller.outstanding, readq, ← pending, List.map_append,
        ← Multiset.coe_add, add_left_comm]
    departed := clk ▸ departed
    writeq := fun r membership => writeq ▸ membership }

section Finish

variable {callbacks : List Request} {ticked : Controller} {i : Nat} {req : Request}

theorem TickStep.finishRead (step : TickStep reads c callbacks ticked)
    (found : ticked.readq[i]? = some req) (depart : Int) :
    TickStep reads c callbacks { ticked with
      readq := ticked.readq.eraseIdx i
      pending := ticked.pending ++ [{ req with depart }] } where
  clk := step.clk
  typed := ⟨fun r membership => step.typed.readq r (List.mem_of_mem_eraseIdx membership),
    step.typed.writeq, step.typed.otherq⟩
  outstanding := by
    have moved : ((ticked.pending ++ [{ req with depart }]).map Request.entry : List (UDF × Int)) =
        (ticked.pending.map Request.entry : Multiset (UDF × Int)) + {req.entry} := by
      rw [List.map_append, ← Multiset.coe_add]
      rfl
    rw [step.outstanding, Controller.outstanding, Controller.outstanding,
      entries_eraseIdx found, moved, ← Multiset.singleton_add, add_assoc,
      add_comm ({req.entry} : Multiset (UDF × Int)), add_assoc]
  departed := step.departed
  writeq := step.writeq

theorem TickStep.finishOther (step : TickStep reads c callbacks ticked) (kind : QueueKind)
    (notRead : kind ≠ .readq) :
    TickStep reads c callbacks (ticked.setQueue kind ((ticked.queue kind).eraseIdx i)) := by
  cases kind with
  | readq => exact absurd rfl notRead
  | writeq =>
      exact ⟨step.clk, ⟨step.typed.readq,
        fun r membership => step.typed.writeq r (List.mem_of_mem_eraseIdx membership),
        step.typed.otherq⟩, step.outstanding, step.departed,
        fun r membership => step.writeq r (List.mem_of_mem_eraseIdx membership)⟩
  | otherq =>
      exact ⟨step.clk, ⟨step.typed.readq, step.typed.writeq,
        fun r membership => step.typed.otherq r (List.mem_of_mem_eraseIdx membership)⟩,
        step.outstanding, step.departed, step.writeq⟩

theorem TickStep.migrate (step : TickStep reads c callbacks ticked)
    (found : ticked.readq[i]? = some req) (type : RequestType) (allowed : type ∈ reads) :
    TickStep reads c callbacks { ticked with readq := ticked.readq.set i { req with type } } where
  clk := step.clk
  typed := by
    refine ⟨fun r membership => ?_, step.typed.writeq, step.typed.otherq⟩
    rcases List.mem_or_eq_of_mem_set membership with old | rfl
    · exact step.typed.readq r old
    · exact allowed
  outstanding := by
    have same : (ticked.readq.set i { req with type }).map Request.entry =
        ticked.readq.map Request.entry := by
      obtain ⟨bound, rfl⟩ := List.getElem?_eq_some_iff.mp found
      have entry : Request.entry { ticked.readq[i] with type } =
          Request.entry ticked.readq[i] := rfl
      rw [List.map_set, entry, ← List.map_set, List.set_getElem_self]
    rw [step.outstanding, Controller.outstanding, Controller.outstanding, same]
  departed := step.departed
  writeq := step.writeq

end Finish

/-- A tick of the generic controller is lawful. -/
theorem tick_step (readLatency : Nat) (choice : Choice) (typed : c.Typed [.read]) :
    TickStep [.read] c (c.tick readLatency choice).2 (c.tick readLatency choice).1 := by
  have begun := TickStep.begin choice.refreshes typed (by simp)
  unfold tick
  generalize c.beginTick choice.refreshes = started at begun
  obtain ⟨ticked, callbacks⟩ := started
  dsimp only at begun ⊢
  rcases scheduled_cases choice ticked ticked.scheduled with none | ⟨i, req, some, _, found⟩
  · rw [none]
    exact begun
  · rw [some]
    dsimp only
    split
    · have membership := List.mem_of_getElem? found
      generalize ticked.scheduled = kind at found membership
      cases kind with
      | readq =>
          have isRead : req.type = .read := by simpa using begun.typed.readq req membership
          rw [if_pos isRead]
          exact begun.finishRead found _
      | writeq =>
          have isWrite := begun.typed.writeq req membership
          rw [if_neg (by simp [isWrite])]
          exact begun.finishOther .writeq (by simp)
      | otherq =>
          have others := isOther (begun.typed.otherq req membership).1
          rw [if_neg others.1]
          exact begun.finishOther .otherq (by simp)
    · exact begun

theorem setQueue_set {ticked : Controller} {kind : QueueKind} {i : Nat} {req : Request}
    (found : (ticked.queue kind)[i]? = some req) :
    ticked.setQueue kind ((ticked.queue kind).set i req) = ticked := by
  obtain ⟨bound, rfl⟩ := List.getElem?_eq_some_iff.mp found
  rw [List.set_getElem_self]
  cases kind <;> rfl

/-- A tick of the `TLDRAM` controller is lawful unless it finishes a write. -/
theorem tickTLDRAM_step (readLatency : Nat) (choice : Choice)
    (typed : c.Typed [.read, .extension]) (noWrite : ¬ c.FinishesWrite choice) :
    TickStep [.read, .extension] c (c.tickTLDRAM readLatency choice).2
      (c.tickTLDRAM readLatency choice).1 := by
  have begun := TickStep.begin choice.refreshes typed (by simp)
  have sameWrites := (beginTick_spec choice.refreshes c).2.2.1
  unfold FinishesWrite at noWrite
  unfold tickTLDRAM
  generalize c.beginTick choice.refreshes = started at begun noWrite sameWrites
  obtain ⟨ticked, callbacks⟩ := started
  dsimp only at begun noWrite sameWrites ⊢
  rcases scheduled_cases choice ticked ticked.scheduled with none | ⟨i, req, some, head, found⟩
  · rw [none]
    exact begun
  · rw [some]
    dsimp only
    split
    · rename_i ready
      have membership := List.mem_of_getElem? found
      generalize kindEq : ticked.scheduled = kind at found membership noWrite
      cases kind with
      | readq =>
          have migrated : (if req.type = .read then { req with type := .extension } else req) =
              { req with type := .extension } := by
            have types := begun.typed.readq req membership
            rw [List.mem_cons, List.mem_singleton] at types
            rcases types with isRead | isExtension
            · rw [if_pos isRead]
            · rw [if_neg (by simp [isExtension]), ← isExtension]
          rw [migrated]
          have step := begun.migrate found .extension (by simp)
          split
          · rw [if_pos (.inr rfl), if_neg (by simp)]
            have stillThere :=
              List.getElem?_set_self (a := { req with type := .extension })
                (List.getElem?_eq_some_iff.mp found).1
            exact step.finishRead stillThere _
          · exact step
      | writeq =>
          have notLast : choice.last = false := by
            by_contra last
            have bound : i < ticked.writeq.length := (List.getElem?_eq_some_iff.mp found).1
            exact noWrite ⟨rfl, ready, by simpa using last, i, head, sameWrites ▸ bound⟩
          have isWrite := begun.typed.writeq req membership
          rw [if_neg (show ¬ req.type = .read by simp [isWrite]), setQueue_set found, notLast]
          exact begun
      | otherq =>
          have others := isOther (begun.typed.otherq req membership).1
          have notRead := (begun.typed.otherq req membership).2
          rw [if_neg others.1, setQueue_set found]
          split
          · rw [if_neg (by simpa using notRead), if_neg others.2]
            exact begun.finishOther .otherq (by simp)
          · exact begun
    · exact begun

structure EnqueueStep (reads : List RequestType) (c : Controller) (req : Request)
    (after : Controller) (accepted : Bool) : Prop where
  clk : after.clk = c.clk
  typed : after.Typed reads
  outstanding : after.outstanding =
    (if accepted = true ∧ req.type = .read then {(req.udf, (c.clk : Int))} else 0) + c.outstanding
  writeq : ∀ r ∈ after.writeq, r ∈ c.writeq ∨
    (accepted = true ∧ req.type = .write ∧ r.udf = req.udf)

theorem enqueue_step (typed : c.Typed reads) {req : Request}
    (reading : RequestType.read ∈ reads) (sendable : req.type ∈ reads → req.type = .read) :
    EnqueueStep reads c req (c.enqueue req).1 (c.enqueue req).2 := by
  dsimp only [enqueue]
  split
  · exact ⟨rfl, typed, by simp, fun r membership => .inl membership⟩
  · split
    · rename_i forwarded
      refine ⟨rfl, ⟨typed.readq, typed.writeq, typed.otherq⟩, ?_,
        fun r membership => .inl membership⟩
      rw [if_pos ⟨rfl, forwarded.1⟩, Controller.outstanding, Controller.outstanding,
        List.map_append, ← Multiset.coe_add, ← add_assoc, add_comm]
      rfl
    · cases kind : req.type.queue with
      | readq =>
          have type := isRead kind
          refine ⟨rfl, ⟨?_, typed.writeq, typed.otherq⟩, ?_, fun r membership => .inl membership⟩
          · intro r membership
            rcases List.mem_append.mp membership with earlier | new
            · exact typed.readq r earlier
            · rw [List.mem_singleton.mp new]
              exact type ▸ reading
          · rw [if_pos ⟨rfl, type⟩, Controller.outstanding, Controller.outstanding]
            show ((c.readq ++ [_]).map Request.entry : List (UDF × Int)) +
              (c.pending.map Request.entry : Multiset (UDF × Int)) = _
            rw [List.map_append, ← Multiset.coe_add, add_right_comm, add_comm]
            rfl
      | writeq =>
          have type := isWrite kind
          refine ⟨rfl, ⟨typed.readq, ?_, typed.otherq⟩, ?_, ?_⟩
          · intro r membership
            rcases List.mem_append.mp membership with earlier | new
            · exact typed.writeq r earlier
            · rw [List.mem_singleton.mp new]
              exact type
          · rw [if_neg (by simp [type]), zero_add]
            rfl
          · intro r membership
            rcases List.mem_append.mp membership with earlier | new
            · exact .inl earlier
            · exact .inr ⟨rfl, type, by rw [List.mem_singleton.mp new]⟩
      | otherq =>
          have others := isOther kind
          refine ⟨rfl, ⟨typed.readq, typed.writeq, ?_⟩, ?_, fun r membership => .inl membership⟩
          · intro r membership
            rcases List.mem_append.mp membership with earlier | new
            · exact typed.otherq r earlier
            · rw [List.mem_singleton.mp new]
              exact ⟨kind, fun migrating => others.1 (sendable migrating)⟩
          · rw [if_neg (fun both => others.1 both.2), zero_add]
            rfl

end

end Controller

/-- The channels of a memory; they tick together, and their queues are typed. -/
structure Channels (reads : List RequestType) where
  ctrls : List Controller
  clk : Nat
  sameClk : ∀ c ∈ ctrls, c.clk = clk
  typed : ∀ c ∈ ctrls, c.Typed reads

def tickAll (tick : Choice → Controller → Controller × List Request) :
    List Choice → List Controller → List Controller × List Request
  | choice :: choices, c :: ctrls =>
      let (c, callbacks) := tick choice c
      let (ctrls, more) := tickAll tick choices ctrls
      (c :: ctrls, callbacks ++ more)
  | _, _ => ([], [])

/-- `Memory` over the controllers of its channels, in the ticks that are `permitted`.
`channel` is the channel that the address mapping selects; migration requests are made
inside the controllers only. -/
def memory (reads : List RequestType) (tick : Choice → Controller → Controller × List Request)
    (permitted : List Choice → List Controller → Prop) (channel : Nat → Nat) :
    Ramulator (Channels reads) where
  send before req accepted after :=
    (req.type ∈ reads → req.type = .read) ∧ after.clk = before.clk ∧
      ∃ c, before.ctrls[channel req.addr]? = some c ∧ accepted = (c.enqueue req).2 ∧
        after.ctrls = before.ctrls.set (channel req.addr) (c.enqueue req).1
  tick before callbacks after :=
    after.clk = before.clk + 1 ∧ ∃ choices, choices.length = before.ctrls.length ∧
      permitted choices before.ctrls ∧
      tickAll tick choices before.ctrls = (after.ctrls, callbacks)

def Channels.ledger (reads : List RequestType) : Ledger (Channels reads) where
  clk mem := mem.clk
  outstanding mem := (mem.ctrls.map Controller.outstanding).sum

section Laws

variable {reads : List RequestType} {tick : Choice → Controller → Controller × List Request}
variable {permitted : List Choice → List Controller → Prop} {channel : Nat → Nat}
variable {before after : Channels reads}

theorem sum_set {Item : Type} (weight : Item → Multiset (UDF × Int)) {items : List Item} {i : Nat}
    {old new : Item} {gained : Multiset (UDF × Int)} (present : items[i]? = some old)
    (more : weight new = gained + weight old) :
    ((items.set i new).map weight).sum = gained + (items.map weight).sum := by
  obtain ⟨bound, rfl⟩ := List.getElem?_eq_some_iff.mp present
  rw [List.set_eq_take_append_cons_drop, if_pos bound]
  conv_rhs => rw [← List.take_append_drop i items, List.drop_eq_getElem_cons bound]
  simp only [List.map_append, List.sum_append, List.map_cons, List.sum_cons, more]
  rw [add_left_comm, add_assoc, add_left_comm (weight _)]

theorem memory_send {req : Request} {accepted : Bool} (reading : RequestType.read ∈ reads)
    (sent : (memory reads tick permitted channel).send before req accepted after) :
    SendLaw (Channels.ledger reads) before req accepted after := by
  obtain ⟨sendable, clk, c, present, rfl, ctrls⟩ := sent
  have typed := before.typed c (List.mem_of_getElem? present)
  have enqueued := Controller.enqueue_step typed reading sendable
  refine ⟨clk, ?_⟩
  show (after.ctrls.map Controller.outstanding).sum = _
  rw [ctrls, sum_set Controller.outstanding present enqueued.outstanding,
    before.sameClk c (List.mem_of_getElem? present)]
  rfl

theorem tickAll_spec {choices : List Choice} {ctrls : List Controller}
    (sameLength : choices.length = ctrls.length)
    (lawful : ∀ pair ∈ choices.zip ctrls,
      Controller.TickStep reads pair.2 (tick pair.1 pair.2).2 (tick pair.1 pair.2).1) :
    (ctrls.map Controller.outstanding).sum =
        ((tickAll tick choices ctrls).2.map Request.entry : List (UDF × Int)) +
          ((tickAll tick choices ctrls).1.map Controller.outstanding).sum ∧
      ∀ r ∈ (tickAll tick choices ctrls).2, ∃ c ∈ ctrls, r.depart ≤ (c.clk + 1 : Nat) := by
  induction choices generalizing ctrls with
  | nil =>
      obtain rfl := List.length_eq_zero_iff.mp sameLength.symm
      exact ⟨by simp [tickAll], by simp [tickAll]⟩
  | cons choice choices inductionHypothesis =>
      cases ctrls with
      | nil => simp at sameLength
      | cons c ctrls =>
          have step := lawful (choice, c) (by simp)
          obtain ⟨outstanding, departed⟩ := inductionHypothesis (by simpa using sameLength)
            (fun pair membership => lawful pair (List.mem_cons_of_mem _ membership))
          refine ⟨?_, ?_⟩
          · simp only [tickAll, List.map_cons, List.sum_cons, List.map_append]
            rw [step.outstanding, outstanding, ← Multiset.coe_add, add_add_add_comm]
          · intro r membership
            rcases List.mem_append.mp membership with first | later
            · exact ⟨c, by simp, by rw [← step.clk]; exact step.departed r first⟩
            · obtain ⟨other, present, bound⟩ := departed r later
              exact ⟨other, List.mem_cons_of_mem _ present, bound⟩

theorem memory_tick {callbacks : List Request}
    (lawful : ∀ choices, choices.length = before.ctrls.length → permitted choices before.ctrls →
      ∀ pair ∈ choices.zip before.ctrls,
        Controller.TickStep reads pair.2 (tick pair.1 pair.2).2 (tick pair.1 pair.2).1)
    (ticked : (memory reads tick permitted channel).tick before callbacks after) :
    TickLaw (Channels.ledger reads) before callbacks after := by
  obtain ⟨clk, choices, sameLength, permits, result⟩ := ticked
  obtain ⟨outstanding, departed⟩ :=
    tickAll_spec sameLength (lawful choices sameLength permits)
  rw [result] at outstanding departed
  refine ⟨clk, outstanding, ?_⟩
  intro r membership
  obtain ⟨c, present, bound⟩ := departed r membership
  rw [before.sameClk c present, ← clk] at bound
  exact bound

theorem memory_send_writeq {req : Request} {accepted : Bool} (reading : RequestType.read ∈ reads)
    (sent : (memory reads tick permitted channel).send before req accepted after)
    {c : Controller} (present : c ∈ after.ctrls) {r : Request} (queued : r ∈ c.writeq) :
    (∃ old ∈ before.ctrls, r ∈ old.writeq) ∨
      (accepted = true ∧ req.type = .write ∧ r.udf = req.udf) := by
  obtain ⟨sendable, _, old, oldPresent, rfl, ctrls⟩ := sent
  have known := List.mem_of_getElem? oldPresent
  rw [ctrls] at present
  rcases List.mem_or_eq_of_mem_set present with same | rfl
  · exact .inl ⟨c, same, queued⟩
  · exact ((Controller.enqueue_step (before.typed old known) reading sendable).writeq r queued).imp
      (fun earlier => ⟨old, known, earlier⟩) id

theorem tickAll_mem {choices : List Choice} {ctrls : List Controller}
    {pair : Choice × Controller} (membership : pair ∈ choices.zip ctrls) :
    ∀ r ∈ (tick pair.1 pair.2).2, r ∈ (tickAll tick choices ctrls).2 := by
  induction choices generalizing ctrls with
  | nil => simp at membership
  | cons choice choices inductionHypothesis =>
      cases ctrls with
      | nil => simp at membership
      | cons c ctrls =>
          intro r called
          rw [List.zip_cons_cons, List.mem_cons] at membership
          rcases membership with rfl | later
          · exact List.mem_append_left _ called
          · exact List.mem_append_right _ (inductionHypothesis later r called)

theorem mem_tickAll {choices : List Choice} {ctrls : List Controller} {c : Controller}
    (present : c ∈ (tickAll tick choices ctrls).1) :
    ∃ pair ∈ choices.zip ctrls, c = (tick pair.1 pair.2).1 := by
  induction choices generalizing ctrls with
  | nil => simp [tickAll] at present
  | cons choice choices inductionHypothesis =>
      cases ctrls with
      | nil => simp [tickAll] at present
      | cons head ctrls =>
          rcases List.mem_cons.mp present with rfl | later
          · exact ⟨(choice, head), by simp, rfl⟩
          · obtain ⟨pair, membership, same⟩ := inductionHypothesis later
            exact ⟨pair, List.mem_cons_of_mem _ membership, same⟩

end Laws

def genericMemory (readLatency : Nat) (channel : Nat → Nat) : Ramulator (Channels [.read]) :=
  memory [.read] (Controller.tick readLatency) (fun _ _ => True) channel

/-- The memory calls every accepted read back exactly once and never a write, whatever the
scheduler decides. -/
theorem genericMemory_serves (readLatency : Nat) (channel : Nat → Nat) :
    (genericMemory readLatency channel).Serves (Channels.ledger [.read]) where
  send := memory_send (by simp)
  tick := memory_tick fun _ _ _ pair membership =>
    Controller.tick_step readLatency pair.1
      (Channels.typed _ pair.2 (List.of_mem_zip membership).2)

def WriteFinishes (choices : List Choice) (ctrls : List Controller) : Prop :=
  ∃ pair ∈ choices.zip ctrls, pair.2.FinishesWrite pair.1

def tldramMemory (permitted : List Choice → List Controller → Prop) (readLatency : Nat)
    (channel : Nat → Nat) : Ramulator (Channels [.read, .extension]) :=
  memory [.read, .extension] (Controller.tickTLDRAM readLatency) permitted channel

/-- As long as no write finishes the memory of `TLDRAM` keeps the same laws. -/
theorem tldramMemory_serves (readLatency : Nat) (channel : Nat → Nat) :
    (tldramMemory (fun choices ctrls => ¬ WriteFinishes choices ctrls) readLatency
      channel).Serves (Channels.ledger [.read, .extension]) where
  send := memory_send (by simp)
  tick := memory_tick fun _ _ noWrite pair membership =>
    Controller.tickTLDRAM_step readLatency pair.1
      (Channels.typed _ pair.2 (List.of_mem_zip membership).2)
      (fun finishes => noWrite ⟨pair, membership, finishes⟩)

theorem Controller.FinishesWrite.callback {c : Controller} {choice : Choice}
    (typed : c.Typed [.read, .extension]) (finishes : c.FinishesWrite choice)
    (readLatency : Nat) :
    ∃ r ∈ c.writeq, r ∈ (c.tickTLDRAM readLatency choice).2 := by
  obtain ⟨kind, ready, last, i, head, bound⟩ := finishes
  have sameWrites := (Controller.beginTick_spec choice.refreshes c).2.2.1
  unfold Controller.tickTLDRAM
  generalize c.beginTick choice.refreshes = started at kind sameWrites
  obtain ⟨ticked, callbacks⟩ := started
  dsimp only at kind sameWrites ⊢
  have isWrite := typed.writeq _ (List.getElem_mem bound)
  have found : (ticked.queue .writeq)[i]? = some c.writeq[i] := by
    rw [Controller.queue, sameWrites, List.getElem?_eq_getElem bound]
  refine ⟨c.writeq[i], List.getElem_mem bound, ?_⟩
  rw [kind, head, Option.bind_some, found]
  simp [ready, last, isWrite]

end GraphAccelerator.Memory
