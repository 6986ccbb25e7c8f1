import GraphAccelerator.Dram.Tree
import GraphAccelerator.Library.Spacing

/-!
# The timing of a channel

What the nodes of a channel keep is a summary of the commands that were issued to it.
The timing parameters of a standard are rules about the whole list of these commands,
and the summary decides them exactly: `check` admits a command at the clocks at which
every parameter allows it, and `get_next` is the first of these.
-/

namespace GraphAccelerator.Dram

open Spacing

structure Issue (Command : Type) where
  cmd : Command
  addr : List Int
  clk : Int
  deriving DecidableEq, Repr

variable {Command State : Type} [DecidableEq Command] {spec : Standard Command State}

/-- When the command was issued to the node with this path, the newest first. -/
def issuedAt (path : List Int) (cmd : Command) (log : List (Issue Command)) : List Int :=
  (log.filter fun issue => issue.cmd = cmd ∧ path <+: issue.addr).map Issue.clk

def issuedBeside (path : List Int) (cmd : Command) (log : List (Issue Command)) : List Int :=
  (log.filter fun issue =>
    issue.cmd = cmd ∧ path.dropLast <+: issue.addr ∧ ¬ path <+: issue.addr).map Issue.clk

/-- The timing parameters at the node with this path allow the command now. -/
def NodeAllows (spec : Standard Command State) (log : List (Issue Command)) (path : List Int)
    (cmd : Command) (now : Int) : Prop :=
  ∀ earlier, ∀ t ∈ spec.timing (path.length - 1) earlier, t.cmd = cmd →
    Apart t.dist t.val
      (if t.sibling then issuedBeside path earlier log else issuedAt path earlier log) now

/-- The timing parameters at all nodes that the address leads to, down to the scope of
the command. -/
def TimingAllows (spec : Standard Command State) (log : List (Issue Command)) (cmd : Command)
    (addr : List Int) (now : Int) : Prop :=
  ∀ level ≤ spec.scope cmd, level < spec.row → (∀ i ∈ addr.take (level + 1), 0 ≤ i) →
    NodeAllows spec log (addr.take (level + 1)) cmd now

/-- The members of a node summarise the commands. -/
structure Summary (spec : Standard Command State) (log : List (Issue Command)) (path : List Int)
    (cell : Cell Command State) : Prop where
  next : ∀ cmd, Decides (-1) (cell.next cmd) (NodeAllows spec log path cmd)
  prev : ∀ cmd, cell.prev cmd =
    recent (-1) (DRAM.historyLength spec (path.length - 1) cmd) (issuedAt path cmd log)

/-- The tree has the shape that the standard asks for and summarises the commands. -/
def Tracks (spec : Standard Command State) (log : List (Issue Command)) :
    List Int → DRAM Command State → Prop :=
  Everywhere fun path cell children =>
    (children = fanout spec path.length ∧ path.length ≤ spec.row) ∧ Summary spec log path cell

section History

omit [DecidableEq Command] in
theorem dist_le_historyLength {level : Nat} {cmd : Command} {t : TimingEntry Command}
    (entry : t ∈ spec.timing level cmd) : t.dist ≤ DRAM.historyLength spec level cmd := by
  have grows : ∀ (entries : List (TimingEntry Command)) (start : Nat),
      start ≤ entries.foldl (fun dist t => max dist t.dist) start ∧
        ∀ t ∈ entries, t.dist ≤ entries.foldl (fun dist t => max dist t.dist) start := by
    intro entries
    induction entries with
    | nil => simp
    | cons first rest inductionHypothesis =>
        intro start
        obtain ⟨starts, others⟩ := inductionHypothesis (max start first.dist)
        refine ⟨(le_max_left _ _).trans starts, ?_⟩
        intro t present
        rcases List.mem_cons.mp present with rfl | later
        · exact (le_max_right _ _).trans starts
        · exact others t later
  exact (grows _ 0).2 t entry

variable {path : List Int} {cmd other : Command} {addr : List Int} {clk : Int}
  {log : List (Issue Command)}

theorem issuedAt_target (target : path <+: addr) (other : Command) :
    issuedAt path other (⟨cmd, addr, clk⟩ :: log) =
      if other = cmd then clk :: issuedAt path other log else issuedAt path other log := by
  by_cases same : other = cmd
  · simp [issuedAt, same, target]
  · simp [issuedAt, same, Ne.symm same]

theorem issuedAt_elsewhere (elsewhere : ¬ path <+: addr) (other : Command) :
    issuedAt path other (⟨cmd, addr, clk⟩ :: log) = issuedAt path other log := by
  simp [issuedAt, elsewhere]

theorem issuedBeside_sibling (sibling : path.dropLast <+: addr) (notTarget : ¬ path <+: addr)
    (other : Command) :
    issuedBeside path other (⟨cmd, addr, clk⟩ :: log) =
      if other = cmd then clk :: issuedBeside path other log else issuedBeside path other log := by
  by_cases same : other = cmd
  · simp [issuedBeside, same, sibling, notTarget]
  · simp [issuedBeside, same, Ne.symm same]

theorem issuedBeside_elsewhere (elsewhere : ¬ path.dropLast <+: addr ∨ path <+: addr)
    (other : Command) :
    issuedBeside path other (⟨cmd, addr, clk⟩ :: log) = issuedBeside path other log := by
  rcases elsewhere with elsewhere | elsewhere <;> simp [issuedBeside, elsewhere]

theorem issuedAt_nonneg (past : ∀ issue ∈ log, 0 ≤ issue.clk) :
    ∀ time ∈ issuedAt path cmd log, 0 ≤ time := by
  intro time present
  obtain ⟨issue, known, rfl⟩ := List.mem_map.mp present
  exact past issue (List.mem_of_mem_filter known)

end History

section Cells

variable {path : List Int} {cmd : Command} {addr : List Int} {clk : Int}
  {log : List (Issue Command)} {cell : Cell Command State}

@[simp]
theorem postpone_self (cell : Cell Command State) (cmd : Command) (future : Int) :
    (cell.postpone cmd future).next cmd = max (cell.next cmd) future := by
  simp [Cell.postpone]

theorem postpone_other {cell : Cell Command State} {cmd other : Command} {future : Int}
    (different : other ≠ cmd) : (cell.postpone cmd future).next other = cell.next other := by
  simp [Cell.postpone, different]

theorem decides_postpone {met : Command → Int → Prop} {future : Int} {more : Int → Prop}
    (cmd : Command) (decides : ∀ cmd, Decides (-1) (cell.next cmd) (met cmd))
    (later : ∀ now, future ≤ now ↔ more now) :
    ∀ other, Decides (-1) ((cell.postpone cmd future).next other)
      fun now => met other now ∧ (cmd = other → more now) := by
  intro other
  by_cases same : other = cmd
  · subst same
    rw [postpone_self]
    exact ((decides other).max later).congr fun now => by simp
  · rw [postpone_other same]
    exact (decides other).congr fun now => by simp [Ne.symm same]

theorem Summary.elsewhere (summary : Summary spec log path cell)
    (elsewhere : ¬ path.dropLast <+: addr) :
    Summary spec (⟨cmd, addr, clk⟩ :: log) path cell := by
  have notTarget : ¬ path <+: addr :=
    fun target => elsewhere ((List.dropLast_prefix path).trans target)
  constructor
  · intro allowed
    refine (summary.next allowed).congr fun now => ?_
    simp only [NodeAllows, issuedAt_elsewhere notTarget, issuedBeside_elsewhere (.inl elsewhere)]
  · intro earlier
    rw [summary.prev, issuedAt_elsewhere notTarget]

def EntryAllows (times : List Int) (t : TimingEntry Command) (now : Int) : Prop :=
  ∀ past, times[t.dist - 1]? = some past → past + t.val ≤ now

theorem nodeAllows_target (target : path <+: addr) (allowed : Command) (now : Int) :
    NodeAllows spec (⟨cmd, addr, clk⟩ :: log) path allowed now ↔
      NodeAllows spec log path allowed now ∧
        ∀ t ∈ spec.timing (path.length - 1) cmd, t.sibling = false → t.cmd = allowed →
          EntryAllows (clk :: issuedAt path cmd log) t now := by
  simp only [NodeAllows, issuedBeside_elsewhere (.inr target), issuedAt_target target]
  constructor
  · intro allows
    constructor
    · intro earlier t entry forAllowed
      have spaced := allows earlier t entry forAllowed
      cases sibling : t.sibling with
      | true => simpa [sibling] using spaced
      | false =>
          by_cases same : earlier = cmd
          · simp only [sibling, Bool.false_eq_true, if_false, same, if_true] at spaced ⊢
            exact ((apart_cons (spec.dist_pos _ _ t entry) _ _ _ _).mp spaced).1
          · simpa [sibling, same] using spaced
    · intro t entry notSibling forAllowed
      have spaced := allows cmd t entry forAllowed
      simp only [notSibling, Bool.false_eq_true, if_false, if_true] at spaced
      exact ((apart_cons (spec.dist_pos _ _ t entry) _ _ _ _).mp spaced).2
  · rintro ⟨before, added⟩ earlier t entry forAllowed
    have spaced := before earlier t entry forAllowed
    cases sibling : t.sibling with
    | true => simpa [sibling] using spaced
    | false =>
        by_cases same : earlier = cmd
        · simp only [sibling, Bool.false_eq_true, if_false, same, if_true] at spaced ⊢
          refine (apart_cons (spec.dist_pos _ _ t entry) _ _ _ _).mpr ⟨spaced, ?_⟩
          exact added t (same ▸ entry) sibling forAllowed
        · simpa [sibling, same] using spaced

theorem nodeAllows_sibling (sibling : path.dropLast <+: addr) (notTarget : ¬ path <+: addr)
    (allowed : Command) (now : Int) :
    NodeAllows spec (⟨cmd, addr, clk⟩ :: log) path allowed now ↔
      NodeAllows spec log path allowed now ∧
        ∀ t ∈ spec.timing (path.length - 1) cmd, t.sibling = true → t.cmd = allowed →
          clk + t.val ≤ now := by
  simp only [NodeAllows, issuedBeside_sibling sibling notTarget, issuedAt_elsewhere notTarget]
  constructor
  · intro allows
    constructor
    · intro earlier t entry forAllowed
      have spaced := allows earlier t entry forAllowed
      cases isSibling : t.sibling with
      | false => simpa [isSibling] using spaced
      | true =>
          by_cases same : earlier = cmd
          · simp only [isSibling, if_true, same] at spaced ⊢
            exact ((apart_cons (spec.dist_pos _ _ t entry) _ _ _ _).mp spaced).1
          · simpa [isSibling, same] using spaced
    · intro t entry isSibling forAllowed
      have spaced := allows cmd t entry forAllowed
      simp only [isSibling, if_true] at spaced
      refine ((apart_cons (spec.dist_pos _ _ t entry) _ _ _ _).mp spaced).2 clk ?_
      rw [spec.dist_sibling _ _ t entry isSibling]
      rfl
  · rintro ⟨before, added⟩ earlier t entry forAllowed
    have spaced := before earlier t entry forAllowed
    cases isSibling : t.sibling with
    | false => simpa [isSibling] using spaced
    | true =>
        by_cases same : earlier = cmd
        · simp only [isSibling, if_true, same] at spaced ⊢
          refine (apart_cons (spec.dist_pos _ _ t entry) _ _ _ _).mpr ⟨spaced, ?_⟩
          intro past newest
          rw [spec.dist_sibling _ _ t entry isSibling] at newest
          rw [← Option.some.inj newest]
          exact added t (same ▸ entry) isSibling forAllowed
        · simpa [isSibling, same] using spaced

structure Retimed (before after : Cell Command State) : Prop where
  id : after.id = before.id
  state : after.state = before.state
  rowState : after.rowState = before.rowState
  curServingRequests : after.service.curServingRequests = before.service.curServingRequests
  beginOfServing : after.service.beginOfServing = before.service.beginOfServing

omit [DecidableEq Command] in
theorem Retimed.refl (cell : Cell Command State) : Retimed cell cell := ⟨rfl, rfl, rfl, rfl, rfl⟩

omit [DecidableEq Command] in
theorem Retimed.trans {before middle after : Cell Command State} (first : Retimed before middle)
    (second : Retimed middle after) : Retimed before after :=
  ⟨second.id.trans first.id, second.state.trans first.state, second.rowState.trans first.rowState,
    second.curServingRequests.trans first.curServingRequests,
    second.beginOfServing.trans first.beginOfServing⟩

theorem Summary.pushHistory (summary : Summary spec log path cell) (target : path <+: addr)
    (cmd : Command) (clk : Int) :
    Retimed cell (cell.pushHistory cmd clk) ∧ (cell.pushHistory cmd clk).next = cell.next ∧
      ∀ other, (cell.pushHistory cmd clk).prev other =
        recent (-1) (DRAM.historyLength spec (path.length - 1) other)
          (issuedAt path other (⟨cmd, addr, clk⟩ :: log)) := by
  have history := summary.prev cmd
  cases depth : DRAM.historyLength spec (path.length - 1) cmd with
  | zero =>
      have nothing : cell.prev cmd = [] := by rw [history, depth]; rfl
      have same : cell.pushHistory cmd clk = cell := by rw [Cell.pushHistory, nothing]
      rw [same]
      refine ⟨.refl cell, rfl, fun other => ?_⟩
      rw [summary.prev other, issuedAt_target target]
      split
      · rename_i isCmd
        rw [isCmd, depth]
        rfl
      · rfl
  | succ before =>
      rw [depth] at history
      obtain ⟨time, times, split⟩ : ∃ time times, cell.prev cmd = time :: times :=
        List.exists_cons_of_length_eq_add_one (by rw [history, length_recent])
      have pushed : cell.pushHistory cmd clk =
          { cell with prev := Function.update cell.prev cmd (clk :: (cell.prev cmd).dropLast) } := by
        rw [Cell.pushHistory, split]
      rw [pushed]
      refine ⟨⟨rfl, rfl, rfl, rfl, rfl⟩, rfl, fun other => ?_⟩
      rw [issuedAt_target target]
      by_cases isCmd : other = cmd
      · subst isCmd
        dsimp only
        rw [Function.update_self, if_pos rfl, depth, recent_cons, ← history]
      · dsimp only
        rw [Function.update_of_ne isCmd, if_neg isCmd]
        exact summary.prev other

omit [DecidableEq Command] in
/-- The running maxima take up the entries of a timing table one after the other. -/
theorem foldlM_entries {body : Cell Command State → TimingEntry Command → Option (Cell Command State)}
    {prev : Command → List Int} {adds : TimingEntry Command → Command → Int → Prop} :
    ∀ {entries : List (TimingEntry Command)} {start : Cell Command State}
      {met : Command → Int → Prop},
      (∀ t ∈ entries, ∀ (before : Cell Command State) (met : Command → Int → Prop),
        before.prev = prev → (∀ other, Decides (-1) (before.next other) (met other)) →
        ∃ after, body before t = some after ∧ Retimed before after ∧ after.prev = prev ∧
          ∀ other, Decides (-1) (after.next other) fun now => met other now ∧ adds t other now) →
      start.prev = prev → (∀ other, Decides (-1) (start.next other) (met other)) →
      ∃ after, entries.foldlM body start = some after ∧ Retimed start after ∧
        after.prev = prev ∧ ∀ other, Decides (-1) (after.next other) fun now =>
          met other now ∧ ∀ t ∈ entries, adds t other now
  | [], start, _, _, samePrev, decides =>
      ⟨start, rfl, .refl start, samePrev, fun other =>
        (decides other).congr fun now => by simp⟩
  | t :: entries, start, met, each, samePrev, decides => by
      obtain ⟨next, stepped, frame, nextPrev, nextDecides⟩ :=
        each t List.mem_cons_self start met samePrev decides
      obtain ⟨after, finished, later, afterPrev, afterDecides⟩ := foldlM_entries
        (fun t present => each t (List.mem_cons_of_mem _ present)) nextPrev nextDecides
      refine ⟨after, ?_, frame.trans later, afterPrev, fun other => ?_⟩
      · rw [List.foldlM_cons, stepped]
        exact finished
      · refine (afterDecides other).congr fun now => ?_
        rw [List.forall_mem_cons, and_assoc]

theorem targetEntry_spec {level : Nat} {t : TimingEntry Command} {times : List Int}
    {before : Cell Command State} {met : Command → Int → Prop}
    (entry : t ∈ spec.timing level cmd) (nonneg : ∀ time ∈ clk :: times, 0 ≤ time)
    (history : before.prev cmd =
      recent (-1) (DRAM.historyLength spec level cmd) (clk :: times))
    (decides : ∀ other, Decides (-1) (before.next other) (met other)) :
    ∃ after, before.targetEntry spec cmd clk t = some after ∧ Retimed before after ∧
      after.prev = before.prev ∧ ∀ other, Decides (-1) (after.next other) fun now =>
        met other now ∧ (t.sibling = false → t.cmd = other → EntryAllows (clk :: times) t now) := by
  rw [Cell.targetEntry]
  cases sibling : t.sibling with
  | true =>
      exact ⟨before, rfl, .refl before, rfl, fun other => (decides other).congr fun now => by simp⟩
  | false =>
      have positive := spec.dist_pos _ _ t entry
      have inside := dist_le_historyLength entry
      rw [if_neg (by simp), if_neg (by omega), history,
        getElem?_recent (-1) _ (clk :: times) (by omega), Option.bind_eq_bind, Option.bind_some]
      cases newest : (clk :: times)[t.dist - 1]? with
      | none =>
          refine ⟨before, by simp, .refl before, rfl, fun other => ?_⟩
          exact (decides other).congr fun now => by simp [EntryAllows, newest]
      | some time =>
          have notBefore := nonneg time (List.mem_of_getElem? newest)
          have bound : ∀ now, time + t.val ≤ now ↔ EntryAllows (clk :: times) t now :=
            fun now => by simp [EntryAllows, newest]
          have more := decides_postpone t.cmd decides bound
          have added : ∀ other, Decides (-1) ((before.postpone t.cmd (time + t.val)).next other)
              fun now => met other now ∧
                (false = false → t.cmd = other → EntryAllows (clk :: times) t now) :=
            fun other => (more other).congr fun now => by simp
          rw [Option.getD_some, if_neg (by omega)]
          by_cases refreshes : spec.isRefreshing cmd ∧ spec.isOpening t.cmd
          · have isNow : time = clk := by
              rw [spec.dist_refresh _ _ t entry sibling refreshes.1 refreshes.2] at newest
              exact (Option.some.inj newest).symm
            rw [if_pos refreshes, if_pos isNow]
            exact ⟨_, rfl, ⟨rfl, rfl, rfl, rfl, rfl⟩, rfl, added⟩
          · rw [if_neg refreshes]
            exact ⟨_, rfl, ⟨rfl, rfl, rfl, rfl, rfl⟩, rfl, added⟩

theorem siblingEntry_spec {level : Nat} {t : TimingEntry Command} {before : Cell Command State}
    {met : Command → Int → Prop} (clk : Int) (entry : t ∈ spec.timing level cmd)
    (decides : ∀ other, Decides (-1) (before.next other) (met other)) :
    ∃ after, before.siblingEntry clk t = some after ∧ Retimed before after ∧
      after.prev = before.prev ∧ ∀ other, Decides (-1) (after.next other) fun now =>
        met other now ∧ (t.sibling = true → t.cmd = other → clk + t.val ≤ now) := by
  rw [Cell.siblingEntry]
  cases sibling : t.sibling with
  | false =>
      exact ⟨before, rfl, .refl before, rfl, fun other => (decides other).congr fun now => by simp⟩
  | true =>
      have bound : ∀ now, clk + t.val ≤ now ↔ clk + t.val ≤ now := fun now => Iff.rfl
      rw [if_pos rfl, if_pos (spec.dist_sibling _ _ t entry sibling)]
      refine ⟨_, rfl, ⟨rfl, rfl, rfl, rfl, rfl⟩, rfl, fun other => ?_⟩
      exact (decides_postpone t.cmd decides bound other).congr fun now => by simp

/-- A target summarises the command afterwards. -/
theorem Summary.target {level : Nat} (summary : Summary spec log path cell)
    (depth : path.length = level + 1) (past : ∀ issue ∈ log, 0 ≤ issue.clk) (now : 0 ≤ clk)
    (target : path <+: addr) :
    ∃ after, (spec.timing level cmd).foldlM (Cell.targetEntry spec cmd clk)
        (cell.pushHistory cmd clk) = some after ∧
      Retimed cell after ∧ Summary spec (⟨cmd, addr, clk⟩ :: log) path after := by
  obtain ⟨retimed, sameNext, history⟩ := summary.pushHistory target cmd clk
  have sameLevel : path.length - 1 = level := by omega
  have ownHistory := history cmd
  rw [issuedAt_target target, if_pos rfl, sameLevel] at ownHistory
  have nonneg : ∀ time ∈ clk :: issuedAt path cmd log, 0 ≤ time :=
    List.forall_mem_cons.mpr ⟨now, issuedAt_nonneg past⟩
  have decides : ∀ other,
      Decides (-1) ((cell.pushHistory cmd clk).next other) (NodeAllows spec log path other) :=
    sameNext ▸ summary.next
  obtain ⟨after, updated, frame, samePrev, more⟩ := foldlM_entries
    (fun t entry before met prev decides => by
      obtain ⟨after, stepped, frame, same, more⟩ :=
        targetEntry_spec entry nonneg (prev ▸ ownHistory) decides
      exact ⟨after, stepped, frame, same.trans prev, more⟩)
    rfl decides
  refine ⟨after, updated, retimed.trans frame, ⟨fun other => ?_, fun other => ?_⟩⟩
  · refine (more other).congr fun now => ?_
    rw [nodeAllows_target target, sameLevel]
  · rw [samePrev, history other]

theorem Summary.sibling {level : Nat} (summary : Summary spec log path cell)
    (depth : path.length = level + 1) (sibling : path.dropLast <+: addr)
    (notTarget : ¬ path <+: addr) :
    ∃ after, (spec.timing level cmd).foldlM (Cell.siblingEntry clk) cell = some after ∧
      Retimed cell after ∧ Summary spec (⟨cmd, addr, clk⟩ :: log) path after := by
  have sameLevel : path.length - 1 = level := by omega
  obtain ⟨after, updated, frame, samePrev, more⟩ := foldlM_entries
    (fun t entry before met prev decides => by
      obtain ⟨after, stepped, frame, same, more⟩ := siblingEntry_spec clk entry decides
      exact ⟨after, stepped, frame, same.trans prev, more⟩)
    rfl summary.next
  refine ⟨after, updated, frame, ⟨fun other => ?_, fun other => ?_⟩⟩
  · refine (more other).congr fun now => ?_
    rw [nodeAllows_sibling sibling notTarget, sameLevel]
  · rw [samePrev, summary.prev other, issuedAt_elsewhere notTarget]

end Cells

section Trees

variable {log : List (Issue Command)} {above : List Int} {root : DRAM Command State}

def Timeless (holds : List Int → Cell Command State → Nat → Prop) : Prop :=
  ∀ path before after children, Retimed before after →
    holds path before children → holds path after children

theorem Tracks.channel (id : Int) : Tracks spec [] [] (DRAM.channel spec id) := by
  refine everywhere_construct (fun path id depth => ?_) _ [] id (by
    have := spec.row_pos
    simp
    omega)
  refine ⟨⟨by simp, by simpa using Nat.succ_le_of_lt depth⟩, ⟨fun cmd => ?_, fun cmd => ?_⟩⟩
  · refine .start (-1) fun now earlier t entry forCmd => ?_
    simp [issuedAt, issuedBeside, apart_nil]
  · simp [DRAM.fresh, issuedAt, recent_nil]

theorem Tracks.stateless : Stateless (fun path (cell : Cell Command State) children =>
    (children = fanout spec path.length ∧ path.length ≤ spec.row) ∧
      Summary spec log path cell) :=
  fun _ _ _ _ _ tracks => ⟨tracks.1, ⟨tracks.2.next, tracks.2.prev⟩⟩

/-- A command updates the summary, and nothing else that does not depend on the timing. -/
theorem Tracks.updateTiming {extra : List Int → Cell Command State → Nat → Prop}
    (timeless : Timeless extra) (tracks : Tracks spec log [] root)
    (also : Everywhere extra [] root) (past : ∀ issue ∈ log, 0 ≤ issue.clk) (cmd : Command)
    {addr : List Int} (long : spec.row ≤ addr.length) {clk : Int} (now : 0 ≤ clk) :
    ∃ after, root.updateTiming spec cmd clk 0 addr = some after ∧
      after.cell.id = root.cell.id ∧ Tracks spec (⟨cmd, addr, clk⟩ :: log) [] after ∧
      Everywhere extra [] after := by
  have total : ∃ after, root.updateTiming spec cmd clk 0 addr = some after ∧
      after.cell.id = root.cell.id ∧ Everywhere (fun path cell children =>
        ((children = fanout spec path.length ∧ path.length ≤ spec.row) ∧
          Summary spec (⟨cmd, addr, clk⟩ :: log) path cell) ∧ extra path cell children)
        [] after := Everywhere.updateTiming
    (fun path _ _ holds => holds.1.1.2.trans long)
    (fun path level cell children depth target holds => by
      obtain ⟨after, stepped, frame, summary⟩ := holds.1.2.target depth past now target
      exact ⟨after, stepped, frame.id, ⟨holds.1.1, summary⟩,
        timeless path cell after children frame holds.2⟩)
    (fun path level cell children depth sibling notTarget holds => by
      obtain ⟨after, stepped, frame, summary⟩ := holds.1.2.sibling depth sibling notTarget
      exact ⟨after, stepped, frame.id, ⟨holds.1.1, summary⟩,
        timeless path cell after children frame holds.2⟩)
    (fun path cell children elsewhere holds =>
      ⟨⟨holds.1.1, holds.1.2.elsewhere elsewhere⟩, holds.2⟩)
    (tracks.and also) (List.nil_append addr)
  obtain ⟨after, updated, sameId, both⟩ := total
  exact ⟨after, updated, sameId, both.imp fun _ _ _ _ holds => holds.1,
    both.imp fun _ _ _ _ holds => holds.2⟩

end Trees

section Thresholds

structure ValidAddress (spec : Standard Command State) (addr : List Int) : Prop where
  length : addr.length = spec.levels
  bounded : ∀ level i, 0 < level → level < spec.row → addr[level]? = some i →
    i < spec.count level

omit [DecidableEq Command] in
theorem check_eq_decide {cmd : Command} {clk : Int} (now : 0 ≤ clk) :
    ∀ {addr : List Int} {level : Nat} {node : DRAM Command State} {next : Int},
      level ≤ spec.scope cmd → node.nextBelow spec cmd level addr = some next →
      node.check spec cmd clk level addr = some (decide (next ≤ clk))
  | [], _, _, _, _, computed => by cases computed
  | [_], _, _, _, _, computed => by cases computed
  | _ :: childId :: rest, level, node, next, reaches, computed => by
      rw [DRAM.nextBelow] at computed
      rw [DRAM.check]
      by_cases blocked : node.cell.next cmd ≠ -1 ∧ clk < node.cell.next cmd
      · rw [if_pos blocked]
        have late : node.cell.next cmd ≤ next := by
          split at computed
          · simp only [Option.bind_eq_bind, Option.bind_eq_some_iff] at computed
            obtain ⟨_, _, _, _, same⟩ := computed
            exact Option.some.inj same ▸ le_max_left _ _
          · exact (Option.some.inj computed).le
        rw [decide_eq_false (by omega)]
      · rw [if_neg blocked]
        have due : node.cell.next cmd ≤ clk := by omega
        by_cases goesOn : level < spec.scope cmd ∧ ¬ node.children.isEmpty ∧ 0 ≤ childId
        · rw [if_pos goesOn] at computed
          simp only [Option.bind_eq_bind, Option.bind_eq_some_iff] at computed
          obtain ⟨child, found, below, computedBelow, same⟩ := computed
          have goes : ¬ (childId < 0 ∨ level = spec.scope cmd ∨ node.children.isEmpty) := by
            rintro (negative | last | empty)
            · omega
            · omega
            · exact goesOn.2.1 empty
          rw [if_neg goes, found, Option.bind_eq_bind, Option.bind_some,
            check_eq_decide now goesOn.1 computedBelow, ← Option.some.inj same]
          simp [due]
        · rw [if_neg goesOn] at computed
          have stops : childId < 0 ∨ level = spec.scope cmd ∨ node.children.isEmpty := by
            by_contra goes
            rw [not_or, not_or] at goes
            exact goesOn ⟨by omega, goes.2.2, by omega⟩
          rw [if_pos stops, ← Option.some.inj computed, decide_eq_true due]

theorem Tracks.nextBelow {log : List (Issue Command)} (cmd : Command) {full : List Int}
    (valid : ValidAddress spec full) :
    ∀ {addr above : List Int} {node : DRAM Command State}, Tracks spec log above node →
      above ++ addr = full → addr.head? = some node.cell.id →
      (∀ i ∈ above ++ [node.cell.id], 0 ≤ i) → above.length ≤ spec.scope cmd →
      ∃ next, node.nextBelow spec cmd above.length addr = some next ∧
        Decides (-1) next fun now => ∀ level, above.length ≤ level → level ≤ spec.scope cmd →
          level < spec.row → (∀ i ∈ full.take (level + 1), 0 ≤ i) →
          NodeAllows spec log (full.take (level + 1)) cmd now
  | [], _, _, _, _, here, _, _ => by cases here
  | [id], above, node, tracks, split, _, _, _ => by
      have depth := tracks.here.1.2
      have long := valid.length
      have deep := spec.row_lt
      rw [← split, List.length_append, List.length_singleton] at long
      rw [List.length_append, List.length_singleton] at depth
      omega
  | id :: childId :: rest, above, node, tracks, split, here, nonneg, reaches => by
      obtain rfl : id = node.cell.id := Option.some.inj here
      obtain ⟨⟨shape, depth⟩, summary⟩ := tracks.here
      have ownPath : full.take (above.length + 1) = above ++ [node.cell.id] := by
        rw [← split, List.take_length_add_append]
        rfl
      have childIndex : full[above.length + 1]? = some childId := by
        rw [← split]
        simp
      have own := summary.next cmd
      rw [← ownPath] at own
      rw [List.length_append, List.length_singleton] at shape depth
      rw [DRAM.nextBelow]
      by_cases goesOn : above.length < spec.scope cmd ∧ ¬ node.children.isEmpty ∧ 0 ≤ childId
      · rw [if_pos goesOn]
        obtain ⟨inner, nonempty, child⟩ := goesOn
        have populated : fanout spec (above.length + 1) ≠ 0 := by
          rw [← shape]
          exact fun none => nonempty (List.isEmpty_iff_length_eq_zero.mpr none)
        have deeper : above.length + 1 < spec.row := by
          by_contra last
          exact populated (if_neg last)
        rw [fanout, if_pos deeper] at shape
        have bound := valid.bounded (above.length + 1) childId (by omega) deeper childIndex
        have inside : childId.toNat < node.children.length := by omega
        have found : node.child childId = some node.children[childId.toNat] := by
          rw [DRAM.child, if_neg (by omega), List.getElem?_eq_getElem inside]
        obtain ⟨number, childTracks⟩ := Everywhere.child tracks found
        obtain ⟨next, computed, decides⟩ := Tracks.nextBelow cmd valid childTracks
          (by rw [← split, List.append_assoc]; rfl) (by rw [number]; rfl)
          (by
            rw [number]
            intro i present
            rcases List.mem_append.mp present with old | new
            · exact nonneg i old
            · rw [List.mem_singleton.mp new]
              exact child)
          (by rw [List.length_append, List.length_singleton]; omega)
        rw [List.length_append, List.length_singleton] at computed decides
        refine ⟨max (node.cell.next cmd) next, by simp [found, computed], ?_⟩
        intro now
        rw [max_le_iff, own now, decides now]
        constructor
        · rintro ⟨⟨late, allows⟩, _, below⟩
          refine ⟨late, fun level from_ bound inRow positive => ?_⟩
          rcases Nat.eq_or_lt_of_le from_ with rfl | deeper
          · exact allows
          · exact below level deeper bound inRow positive
        · rintro ⟨late, all⟩
          refine ⟨⟨late, ?_⟩, late, fun level from_ => all level (by omega)⟩
          exact all _ le_rfl reaches (by omega) (ownPath ▸ nonneg)
      · rw [if_neg goesOn]
        refine ⟨_, rfl, own.congr fun now => ?_⟩
        constructor
        · intro allows level from_ bound inRow positive
          rcases Nat.eq_or_lt_of_le from_ with rfl | deeper
          · exact allows
          · have child : 0 ≤ childId := by
              have taken : (full.take (level + 1))[above.length + 1]? = some childId := by
                rw [List.getElem?_take_of_lt (by omega), childIndex]
              exact positive childId (List.mem_of_getElem? taken)
            have nonempty : ¬ node.children.isEmpty := by
              rw [List.isEmpty_iff_length_eq_zero, shape, fanout, if_pos (by omega)]
              have := valid.bounded (above.length + 1) childId (by omega) (by omega) childIndex
              omega
            exact absurd ⟨by omega, nonempty, child⟩ goesOn
        · intro all
          exact all _ le_rfl reaches (by omega) (ownPath ▸ nonneg)

/-- From one clock on the channel admits the command, which is when the timing parameters
allow it. -/
theorem Tracks.check {log : List (Issue Command)} {root : DRAM Command State} {id : Nat}
    (tracks : Tracks spec log [] root) (sameId : root.cell.id = id) (cmd : Command)
    {addr : List Int} (valid : ValidAddress spec addr) (here : addr.head? = some (id : Int)) :
    ∃ next, root.nextBelow spec cmd 0 addr = some next ∧ ∀ clk, 0 ≤ clk →
      root.check spec cmd clk 0 addr = some (decide (next ≤ clk)) ∧
      (next ≤ clk ↔ TimingAllows spec log cmd addr clk) := by
  obtain ⟨next, computed, decides⟩ := tracks.nextBelow cmd valid (List.nil_append addr)
    (by rw [here, sameId]) (by simp [sameId]) (Nat.zero_le _)
  refine ⟨next, computed, fun clk now => ⟨check_eq_decide now (Nat.zero_le _) computed, ?_⟩⟩
  rw [decides clk]
  constructor
  · rintro ⟨_, allows⟩ level bound
    exact allows level (Nat.zero_le _) bound
  · intro allows
    exact ⟨by omega, fun level _ bound => allows level bound⟩

omit [DecidableEq Command] in
theorem DRAM.channel_id (spec : Standard Command State) (id : Int) :
    (DRAM.channel spec id).cell.id = id := by
  unfold DRAM.channel
  cases spec.row - 1 <;> rfl

end Thresholds

end GraphAccelerator.Dram
