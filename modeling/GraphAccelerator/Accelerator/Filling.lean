import GraphAccelerator.Accelerator.Feeding

/-!
# Filling the frontier

Of a graph whose vertices are all on the level but one, the analysis finds four vertices in
a cycle, and one of them is taken to be expanded.  From the cycle on in which the first
bursts of the partitions arrive, the frontier thus grows by three vertices in every cycle,
and the check for room does not count the four that are pushed after it.
-/

namespace GraphAccelerator

open Memory Kernel Ranks Bfs LevelPass

namespace Pe

variable {gl : Gl} {pe after first root : Pe} {delay now since burstIdx nextIdx : Nat}
variable {due : TimedThread → Nat} {timed : Timed TimedThread Pe} {part : Part}
variable {thread : TimedThread} {firsts nexts : Part → Nat} {ramData : List Byte}
variable {g : Graph} {edge : Nat → Nat → Prop} {out inn : Nat → List Nat}

/-- The depths of all partitions arrive at `since`, and vertices are found faster than they
are expanded. -/
structure Filling (gl : Gl) (ramData : List Byte) (first root : Pe) (firsts nexts : Part → Nat)
    (since : Nat) (timed : Timed TimedThread Pe) : Prop where
  settling : Settling gl ramData first root (fun _ => False) timed
  fed : ∀ part, Fed gl part (firsts part) (nexts part) since timed
  lengths : ∀ part, timed.state.Lengths (firsts part) (nexts part)
  steady : timed.state.Steady (fun part => resetIdx gl part + (timed.now - since))
    (3 * (timed.now - since) - 1)

/-- All vertices but the first one are on the level. -/
structure Starlike (g : Graph) (first : Pe) : Prop where
  vertexNum : g.vertexNum = 6144
  level : ∀ u, u < 6144 → (depthByte g first.ramData u = first.level ↔ u ≠ 0)

theorem Starlike.resetIdx (star : Starlike g first) (part : Part) :
    Pe.resetIdx (Gl.layout g) part = part.val * 1536 := by
  rw [Pe.resetIdx, show (Gl.layout g).vertexNum = g.vertexNum from rfl, star.vertexNum]

theorem Starlike.maxLen (star : Starlike g first) (part : Part) :
    (Gl.layout g).maxLen part = 1536 := by
  rw [Gl.maxLen, show (Gl.layout g).vertexNum = g.vertexNum from rfl, star.vertexNum]
  split <;> rfl

theorem Starlike.partEnd (star : Starlike g first) (part : Part) :
    partEnd g part = part.val * 1536 + 1536 := by
  rw [LevelPass.partEnd, star.resetIdx, star.maxLen]

theorem Starlike.early (star : Starlike g first) {k : Nat}
    (idx : pe.idx part = Pe.resetIdx (Gl.layout g) part + k) (few : k < 1536) :
    pe.idx part ≠ LevelPass.partEnd g part := by
  rw [idx, star.partEnd, star.resetIdx]
  omega

theorem Starlike.hits (star : Starlike g first)
    (setting : Setting g edge out inn first.ramData first.level)
    (inLevel : InLevel (Gl.layout g) ramData first timed) (late : 10 < timed.state.localCounter)
    {k : Nat} (idx : ∀ part, timed.state.idx part = Pe.resetIdx (Gl.layout g) part + k)
    (all : ∀ part, timed.state.depthBuffer0 part ≠ []) :
    ((List.finRange 4).flatMap timed.state.hit).length = if k = 0 then 3 else 4 := by
  obtain ⟨f, reached⟩ := inLevel.reached setting (Nat.le_of_lt late)
  rw [seen_running (inLevel.running late)] at reached
  have one : ∀ part : Part, (timed.state.hit part).length =
      if part.val * 1536 + k = 0 then 0 else 1 := by
    intro part
    obtain ⟨d, rest, buffer⟩ := List.exists_cons_of_ne_nil (all part)
    obtain ⟨level, inside⟩ := @Reached.hit _ _ _ _ _ _ _ part reached setting d rest buffer
    have here := idx part
    rw [star.resetIdx] at here
    rw [star.partEnd] at inside
    have inside : timed.state.idx part < part.val * 1536 + 1536 := inside
    have last := part.isLt
    have level : d = timed.state.level ↔ timed.state.idx part ≠ 0 :=
      level.trans (star.level _ (by show timed.state.idx part < 6144; omega))
    rw [hit, buffer]
    dsimp only
    by_cases zero : timed.state.idx part = 0
    · rw [if_neg (fun same => level.mp same zero), if_pos (by omega)]
      rfl
    · rw [if_pos (level.mpr zero), if_neg (by omega)]
      rfl
  rw [List.length_flatMap, List.map_congr_left fun part _ => one part]
  by_cases zero : k = 0
  · rw [zero]
    rfl
  · rw [if_neg zero]
    simp [List.finRange_succ, zero]

theorem expands_timed : PeThread.frontierAnalysis ≠ .bfsController := by
  simp

def analyst : TimedThread := ⟨.inspectDepthAnalysis, analyses_timed⟩

def expander : TimedThread := ⟨.frontierAnalysis, expands_timed⟩

/-- When a cycle begins, a partition has depths in its buffer from `since` on. -/
theorem Fed.depths (fed : Fed gl part burstIdx nextIdx since ⟨now, due, pe⟩)
    (waiting : ∀ thread, now < due thread)
    (idx : pe.idx part = resetIdx gl part + (now - since)) (few : now < since + 1536) :
    if now < since then pe.depthBuffer0 part = [] else pe.depthBuffer0 part ≠ [] := by
  have later := waiting (responder part)
  cases fed with
  | waits early feeding =>
      have here : due (responder part) = since := feeding.due (List.cons_ne_nil _ _)
      have count : (pe.depthBuffer0 part).length + pe.idx part = resetIdx gl part + 0 :=
        feeding.count
      rw [if_pos (by omega)]
      exact List.eq_nil_of_length_eq_zero (by omega)
  | stored late early feeding =>
      have here : due (responder part) = since + 512 := feeding.due (List.cons_ne_nil _ _)
      have count : (pe.depthBuffer0 part).length + pe.idx part = resetIdx gl part + 1024 :=
        feeding.count
      have late : since ≤ now := late
      rw [if_neg (by omega)]
      exact List.ne_nil_of_length_pos (by omega)
  | finished late feeding =>
      have count : (pe.depthBuffer0 part).length + pe.idx part = resetIdx gl part + 1536 :=
        feeding.count
      have late : since + 512 ≤ now := late
      rw [if_neg (by omega)]
      exact List.ne_nil_of_length_pos (by omega)

section Turns

variable {idx : Part → Nat} {n : Nat}

theorem Steady.analysed (steady : pe.Steady idx n)
    (running : pe.bfsIterationStart = false) (all : ∀ i, pe.depthBuffer0 i ≠ [])
    (room : n < Gl.frontierBufferDepth)
    (ran : pe.resume gl .inspectDepthAnalysis = some (after, delay)) :
    after.Steady (fun i => idx i + 1) (n + ((List.finRange 4).flatMap pe.hit).length) := by
  have frame := resume_frame (by simp) ran
  obtain ⟨same, frontierBuffer⟩ := analysis_all ran running all (steady.frontierBuffer.symm ▸ room)
  refine steady.moved frame (by simp) (by simp) (by simp [PeThread.takes]) (by simp) ?_ ?_
  · rw [same, steady.idx]
  · rw [frontierBuffer, List.length_append, steady.frontierBuffer]

theorem Steady.expanded (steady : pe.Steady idx n)
    (ran : pe.resume gl .frontierAnalysis = some (after, delay)) : after.Steady idx (n - 1) := by
  have frame := resume_frame (by simp) ran
  refine steady.moved frame (by simp) (by simp) (by simp [PeThread.takes]) (by simp)
    ((frame.idx (by simp)).trans steady.idx) ?_
  rw [frontier_one ran steady.rpaoBuffer, List.length_tail, steady.frontierBuffer]

end Turns

/-- The rest of a cycle, after the depths were analysed and a vertex was expanded. -/
structure Served (gl : Gl) (firsts nexts : Part → Nat) (since now : Nat) (due : TimedThread → Nat)
    (pe : Pe) : Prop where
  fed : ∀ part, Fed gl part (firsts part) (nexts part) since ⟨now, due, pe⟩
  lengths : ∀ part, pe.Lengths (firsts part) (nexts part)
  steady : pe.Steady (fun part => resetIdx gl part + (now - since)) (3 * (now - since) - 1)
  analyst : now < due analyst
  expander : now < due expander

theorem stays {other : TimedThread} (later : now < due other) (dueNow : due thread = now) :
    thread ≠ other ∧ now < Function.update due thread (now + delay) other := by
  have differs : thread ≠ other := by
    rintro rfl
    omega
  rw [Function.update_of_ne (Ne.symm differs)]
  exact ⟨differs, later⟩

theorem Served.resume (served : Served gl firsts nexts since now due pe)
    (indexed : pe.Indexed) (running : pe.bfsIterationStart = false) (dueNow : due thread = now)
    (ran : pe.resume gl thread.val = some (after, delay)) :
    Served gl firsts nexts since now (Function.update due thread (now + delay)) after := by
  obtain ⟨analystNot, analyst⟩ := stays served.analyst dueNow
  obtain ⟨expanderNot, expander⟩ := stays served.expander dueNow
  exact ⟨fun part => (served.fed part).resume (served.lengths part) running dueNow ran,
    fun part => (served.lengths part).resume ran,
    served.steady.resume indexed running (fun same => absurd (Subtype.ext same) analystNot)
      (fun same => absurd (Subtype.ext same) expanderNot) thread.property ran, analyst, expander⟩

/-! ### The first answers -/

theorem reads_timed : PeThread.getMemResp ≠ .bfsController := by
  simp

def reader : TimedThread := ⟨.getMemResp, reads_timed⟩

theorem responder_ne_reader (part : Part) : responder part ≠ reader := by
  simp [responder, reader]

/-- The first answer to a partition has been read, and is taken in this cycle. -/
inductive Taking (gl : Gl) (part : Part) (burstIdx nextIdx : Nat) (timed : Timed TimedThread Pe) :
    Prop
  | polls : timed.due (responder part) = timed.now →
      timed.state.burstRespQueue part.port = [burstIdx] →
      timed.state.answered part.port = [nextIdx] → timed.state.transfer part.port = none →
      (timed.state.depthBuffer0 part).length + timed.state.idx part = resetIdx gl part →
      Taking gl part burstIdx nextIdx timed
  | takes : Feeding gl part 0 [burstIdx] [nextIdx] (timed.now + 1024) timed →
      Taking gl part burstIdx nextIdx timed

theorem Taking.count (taking : Taking gl part burstIdx nextIdx timed) :
    (timed.state.depthBuffer0 part).length + timed.state.idx part = resetIdx gl part := by
  cases taking with
  | polls _ _ _ _ count => exact count
  | takes feeding => exact feeding.count

theorem Taking.resume (taking : Taking gl part burstIdx nextIdx ⟨now, due, pe⟩)
    (lengths : pe.Lengths burstIdx nextIdx) (running : pe.bfsIterationStart = false)
    (differs : thread ≠ reader) (dueNow : due thread = now)
    (ran : pe.resume gl thread.val = some (after, delay)) :
    Taking gl part burstIdx nextIdx ⟨now, Function.update due thread (now + delay), after⟩ := by
  have reads : thread.val ≠ .getMemResp := fun same => differs (Subtype.ext same)
  by_cases responds : thread = responder part
  · subst responds
    cases taking with
    | polls _ queue answered transfer count =>
        cases respThread_cases ran with
        | stored taken _ _ _ =>
            rw [show pe.transfer part.port = none from transfer] at taken
            cases taken
        | polled _ awaits =>
            obtain ⟨rfl, transfer⟩ := awaits_delay awaits queue lengths.1
            obtain ⟨_, sameQueue, sameAnswered, depthBuffer0, idx⟩ := awaits_transfer awaits
            refine .takes ⟨(congrFun sameQueue _).trans queue,
              (congrFun sameAnswered _).trans answered, transfer, fun _ => Function.update_self .., ?_⟩
            show (after.depthBuffer0 part).length + after.idx part = _
            rw [depthBuffer0, idx]
            exact count
    | takes feeding =>
        have later : due (responder part) = now + 1024 := feeding.due (List.cons_ne_nil _ _)
        omega
  · cases taking with
    | polls dueResponder queue answered transfer count =>
        have frame := resume_frame thread.property ran
        have takes : thread.val ≠ .processInspectDepthReadResp part := fun same =>
          responds (Subtype.ext same)
        have takesNot : thread.val.takes ≠ some part.port := fun same =>
          takes (PeThread.takes_part same)
        refine .polls ((Function.update_of_ne (Ne.symm responds) ..).trans dueResponder)
          ((frame.burstRespQueue _ takesNot reads).trans queue)
          ((congrFun (frame.answered reads) _).trans answered)
          ((frame.transfer _ takesNot).trans transfer) ?_
        have total : (pe.depthBuffer0 part).length + pe.idx part = resetIdx gl part := count
        show (after.depthBuffer0 part).length + after.idx part = _
        by_cases analyses : thread.val = .inspectDepthAnalysis
        · rw [analyses] at ran
          obtain ⟨taken, _, length, idx⟩ := Pulse.Inspecting.analysed_depths ran part
          rw [running, if_neg (by simp)] at idx
          omega
        · rw [frame.depthBuffer0 part takes analyses, frame.idx analyses]
          exact total
    | takes feeding =>
        exact .takes (feeding.other running responds (fun same => absurd same reads) ran)

/-- The cycle in which the first answers are taken, after they were read. -/
structure Pouring (gl : Gl) (firsts nexts : Part → Nat) (now : Nat) (due : TimedThread → Nat)
    (pe : Pe) : Prop where
  taking : ∀ part, Taking gl part (firsts part) (nexts part) ⟨now, due, pe⟩
  lengths : ∀ part, pe.Lengths (firsts part) (nexts part)
  steady : pe.Steady (resetIdx gl) 0
  reader : now < due reader

theorem Pouring.resume (pouring : Pouring gl firsts nexts now due pe) (indexed : pe.Indexed)
    (running : pe.bfsIterationStart = false) (dueNow : due thread = now)
    (ran : pe.resume gl thread.val = some (after, delay)) :
    Pouring gl firsts nexts now (Function.update due thread (now + delay)) after := by
  obtain ⟨differs, reader⟩ := @stays delay _ _ _ _ pouring.reader dueNow
  have steady := pouring.steady
  refine ⟨fun part =>
      (pouring.taking part).resume (pouring.lengths part) running differs dueNow ran,
    fun part => (pouring.lengths part).resume ran,
    steady.resume indexed running (fun _ part => ?_)
      (fun _ => List.eq_nil_of_length_eq_zero steady.frontierBuffer) thread.property ran, reader⟩
  have count : (pe.depthBuffer0 part).length + pe.idx part = resetIdx gl part :=
    (pouring.taking part).count
  rw [steady.idx] at count
  exact List.eq_nil_of_length_eq_zero (by omega)

/-! ### The cycles -/

section Cycles

variable {isUgraph : Bool} {edges : List (Nat × Nat)} {ram0 : List Byte} {startIdx : Nat}
variable (loaded : loadGraph isUgraph (pairRows edges) = some g)
variable (initialized : ramInit g = some ram0) (bound : startIdx < g.vertexNum)
variable (started : setNewStartVertex (Gl.layout g) startIdx ram0 = some ramData)
variable (setting : Setting g edge out inn first.ramData first.level)
include loaded initialized bound started setting

/-- The threads of a cycle: first the depths are analysed, then a vertex is expanded. -/
theorem Starlike.exists_cycle (star : Starlike g first)
    (settling : Settling (Gl.layout g) ramData first root (fun _ => False) ⟨now + 1, due, pe⟩)
    (fed : ∀ part, Fed (Gl.layout g) part (firsts part) (nexts part) since ⟨now + 1, due, pe⟩)
    (lengths : ∀ part, pe.Lengths (firsts part) (nexts part))
    (steady : pe.Steady (fun part => Pe.resetIdx (Gl.layout g) part + (now - since))
      (3 * (now - since) - 1))
    (depths : ∀ part, if now < since then pe.depthBuffer0 part = []
      else pe.depthBuffer0 part ≠ [])
    (analyses : due analyst = now + 1) (expands : due expander = now + 1)
    (few : now < since + 1365) :
    ∃ later final, Filling (Gl.layout g) ramData first root firsts nexts since
      ⟨now + 1, later, final⟩ ∧ ∀ thread, now + 1 < later thread := by
  have running : pe.bfsIterationStart = false := settling.inLevel.running settling.later
  have consistent := settling.inLevel.onTime.consistent
  obtain ⟨analysed, delay, positive, ran, settlingA⟩ :=
    settling.exists_turn loaded initialized bound started analyses
  have fedA := fun part => (fed part).resume (lengths part) running analyses ran
  have lengthsA := fun part => (lengths part).resume ran
  have steadyA : analysed.Steady (fun part => Pe.resetIdx (Gl.layout g) part + (now + 1 - since))
      (3 * (now + 1 - since)) := by
    by_cases early : now < since
    · simp only [if_pos early] at depths
      have same := steady.resume consistent.indexed running (fun _ => depths) (by simp) (by simp)
        (show pe.resume _ .inspectDepthAnalysis = _ from ran)
      rw [show now - since = 0 by omega] at same
      rw [show now + 1 - since = 0 by omega]
      exact same
    · simp only [if_neg early] at depths
      have found := @Starlike.hits _ _ _ _ _ _ _ star setting settling.inLevel settling.later
        (now - since) (fun part => congrFun steady.idx part) depths
      have moved := steady.analysed running depths
        (by simp only [Gl.frontierBufferDepth]; omega) ran
      rw [found] at moved
      have idx : (fun part => Pe.resetIdx (Gl.layout g) part + (now + 1 - since)) =
          fun part => Pe.resetIdx (Gl.layout g) part + (now - since) + 1 := by
        funext part
        omega
      have count : 3 * (now + 1 - since) =
          3 * (now - since) - 1 + if now - since = 0 then 3 else 4 := by
        split <;> omega
      rw [idx, count]
      exact moved
  have expandsA : Function.update due analyst (now + 1 + delay) expander = now + 1 :=
    (Function.update_of_ne (by decide) ..).trans expands
  obtain ⟨expanded, delay', positive', ran', settlingE⟩ :=
    settlingA.exists_turn loaded initialized bound started expandsA
  have runningA : analysed.bfsIterationStart = false :=
    settlingA.inLevel.running settlingA.later
  have served : Served (Gl.layout g) firsts nexts since (now + 1) _ expanded :=
    ⟨fun part => (fedA part).resume (lengthsA part) runningA expandsA ran',
      fun part => (lengthsA part).resume ran', steadyA.expanded ran', by
        rw [Function.update_of_ne (by decide), Function.update_self]
        omega, by
        rw [Function.update_self]
        omega⟩
  obtain ⟨later, final, settled, ⟨fedF, lengthsF, steadyF, _, _⟩, waits⟩ :=
    settlingE.round loaded initialized bound started _
      (fun due pe thread after delay settling served dueNow ran =>
        served.resume settling.inLevel.onTime.consistent.indexed
          (settling.inLevel.running settling.later) dueNow ran) served
  exact ⟨later, final, ⟨settled, fedF, lengthsF, steadyF⟩, waits⟩

theorem Filling.next (star : Starlike g first)
    (filling : Filling (Gl.layout g) ramData first root firsts nexts since timed)
    (waiting : ∀ thread, timed.now < timed.due thread) (few : timed.now < since + 1365) :
    ∃ final, Filling (Gl.layout g) ramData first root firsts nexts since final ∧
      (∀ thread, final.now < final.due thread) ∧ final.now = timed.now + 1 := by
  obtain ⟨now, due, pe⟩ := timed
  obtain ⟨settling, fed, lengths, steady⟩ := filling
  have few : now < since + 1365 := few
  have analyses : due analyst = now + 1 := settling.unit waiting rfl
  have expands : due expander = now + 1 := settling.unit waiting rfl
  have idx : ∀ part, pe.idx part = Pe.resetIdx (Gl.layout g) part + (now - since) :=
    fun part => congrFun steady.idx part
  have goesOn := settling.endsLevel loaded initialized bound started setting waiting
    (star.early (idx 0) (by omega))
  have depths := fun part => (fed part).depths waiting (idx part) (by omega)
  have depths' : ∀ part, if now < since then pe.bfsController.depthBuffer0 part = []
      else pe.bfsController.depthBuffer0 part ≠ [] := by
    rw [bfsController_of_not_ends goesOn]
    exact depths
  obtain ⟨later, final, filling, waits⟩ :=
    star.exists_cycle loaded initialized bound started setting (settling.advance waiting goesOn)
      (fun part => (fed part).advance waiting goesOn) (fun part => (lengths part).advance goesOn)
      (steady.advance goesOn) depths' analyses expands few
  exact ⟨_, filling, waits, rfl⟩

/-- The buffer of the vertices that are to be expanded overflows. -/
theorem Filling.overflows (star : Starlike g first)
    (filling : Filling (Gl.layout g) ramData first root firsts nexts since timed)
    (waiting : ∀ thread, timed.now < timed.due thread) (few : timed.now ≤ since + 1365) :
    ∃ final, Relation.ReflTransGen (Cycle (Gl.layout g)) (start (Gl.layout g) ramData) final ∧
      final.state.frontierBuffer.length = 4098 := by
  have counts : ∀ left timed, Filling (Gl.layout g) ramData first root firsts nexts since timed →
      (∀ thread, timed.now < timed.due thread) → timed.now + left = since + 1365 →
      ∃ final, Filling (Gl.layout g) ramData first root firsts nexts since final ∧
        (∀ thread, final.now < final.due thread) ∧ final.now = since + 1365 := by
    intro left
    induction left with
    | zero => exact fun timed filling waiting last => ⟨timed, filling, waiting, last⟩
    | succ left inductionHypothesis =>
        intro timed filling waiting last
        obtain ⟨final, filling, waits, next⟩ := filling.next loaded initialized bound started
          setting star waiting (by omega)
        exact inductionHypothesis final filling waits (by omega)
  obtain ⟨⟨now, due, pe⟩, ⟨settling, fed, lengths, steady⟩, waits, last⟩ :=
    counts (since + 1365 - timed.now) timed filling waiting (by omega)
  have last : now = since + 1365 := last
  subst last
  have idx : ∀ part, pe.idx part = Pe.resetIdx (Gl.layout g) part + (since + 1365 - since) :=
    fun part => congrFun steady.idx part
  have goesOn := settling.endsLevel loaded initialized bound started setting waits
    (star.early (idx 0) (by omega))
  have depths := fun part => (fed part).depths waits (idx part) (by omega)
  simp only [show ¬ since + 1365 < since by omega, if_false] at depths
  have found := @Starlike.hits _ _ _ _ _ _ _ star setting settling.inLevel settling.later
    1365 (fun part => by rw [idx]; omega) depths
  have advanced := settling.advance waits goesOn
  have analyses : due analyst = since + 1365 + 1 := settling.unit waits rfl
  obtain ⟨after, delay, positive, ran, settlingA⟩ :=
    advanced.exists_turn loaded initialized bound started analyses
  have steadyA := (steady.advance goesOn).analysed (advanced.inLevel.running advanced.later)
    (by rw [bfsController_of_not_ends goesOn]; exact depths)
    (by simp only [Gl.frontierBufferDepth]; omega) ran
  refine ⟨_, settlingA.inLevel.run, steadyA.frontierBuffer.trans ?_⟩
  have same : pe.bfsController.hit = pe.hit := by
    rw [bfsController_of_not_ends goesOn]
    rfl
  rw [same, found]
  simp

/-- The next cycle begins with a turn of `getMemResp`. -/
theorem Settling.exists_read (star : Starlike g first)
    (settling : Settling (Gl.layout g) ramData first root (fun _ => False) ⟨now, due, pe⟩)
    (waiting : ∀ thread, now < due thread) (idx : pe.idx 0 = resetIdx (Gl.layout g) 0) :
    pe.endsLevel = false ∧ Settling (Gl.layout g) ramData first root (fun _ => False)
      ⟨now + 1, Function.update due reader (now + 2), pe.bfsController.getMemResp⟩ := by
  have goesOn := settling.endsLevel loaded initialized bound started setting waiting
    (star.early idx (Nat.zero_lt_succ 1535))
  exact ⟨goesOn, (settling.advance waiting goesOn).resume (settling.unit waiting rfl)
    Nat.one_pos rfl⟩

theorem Settling.exists_filling (star : Starlike g first)
    (settling : Settling (Gl.layout g) ramData first root (fun _ => False) ⟨now, due, pe⟩)
    (unit : ∀ thread, due thread = now + 1)
    (feeding : ∀ part, Feeding (Gl.layout g) part 0 [] [firsts part, nexts part] 0 ⟨now, due, pe⟩)
    (lengths : ∀ part, pe.Lengths (firsts part) (nexts part))
    (steady : pe.Steady (resetIdx (Gl.layout g)) 0) :
    ∃ final since, Filling (Gl.layout g) ramData first root firsts nexts since final ∧
      (∀ thread, final.now < final.due thread) ∧ final.now ≤ since := by
  have waiting : ∀ thread, now < due thread := fun thread => by
    rw [unit thread]
    exact Nat.lt_succ_self now
  -- the first answers are read and taken
  obtain ⟨goesOn, settlingR⟩ := settling.exists_read loaded initialized bound started setting star
    waiting (congrFun steady.idx 0)
  have pouring : Pouring (Gl.layout g) firsts nexts (now + 1) (Function.update due reader (now + 2))
      pe.bfsController.getMemResp := by
    refine ⟨fun part => ?_, fun part => (lengths part).advance goesOn,
      (steady.advance goesOn).read, ?_⟩
    · have fedA := (feeding part).advance goesOn
      have count := fedA.count
      have dueNow : Function.update due reader (now + 2) (responder part) = now + 1 :=
        (Function.update_of_ne (responder_ne_reader part) ..).trans (unit _)
      refine .polls dueNow ?_
        (congrArg List.tail fedA.answered) fedA.transfer count
      show pe.bfsController.burstRespQueue part.port ++
        (pe.bfsController.answered part.port).take 1 = _
      rw [show pe.bfsController.burstRespQueue part.port = [] from fedA.burstRespQueue,
        show pe.bfsController.answered part.port = _ from fedA.answered]
      rfl
    · rw [Function.update_self]
      omega
  obtain ⟨later, taken, settlingT, ⟨takingT, lengthsT, steadyT, _⟩, waitsT⟩ :=
    settlingR.round loaded initialized bound started _
      (fun due pe thread after delay settling pouring dueNow ran =>
        pouring.resume settling.inLevel.onTime.consistent.indexed
          (settling.inLevel.running settling.later) dueNow ran) pouring
  -- then the second ones are read
  obtain ⟨goesOnT, settlingS⟩ := settlingT.exists_read loaded initialized bound started setting star
    waitsT (congrFun steadyT.idx 0)
  have none : now + 1 - (now + 1 + 1024) = 0 := by omega
  have fed : ∀ part, Fed (Gl.layout g) part (firsts part) (nexts part) (now + 1 + 1024)
      ⟨now + 2, Function.update later reader (now + 3), taken.bfsController.getMemResp⟩ := by
    intro part
    cases takingT part with
    | polls dueNow _ _ _ _ => exact absurd dueNow (Nat.ne_of_gt (waitsT _))
    | takes feeding =>
        have same : Function.update later reader (now + 3) (responder part) =
            later (responder part) := Function.update_of_ne (responder_ne_reader part) ..
        exact .waits (by dsimp only; omega) ((feeding.advance goesOnT).read same)
  have units : ∀ thread : TimedThread, thread.val.transfers = false → thread ≠ reader →
      Function.update later reader (now + 3) thread = now + 1 + 1 := fun thread unit differs =>
    (Function.update_of_ne differs ..).trans (settlingT.unit waitsT unit)
  obtain ⟨last, final, filling, waits⟩ := star.exists_cycle loaded initialized bound started setting
    settlingS fed (fun part => (lengthsT part).advance goesOnT)
    (by
      simp only [none]
      exact (steadyT.advance goesOnT).read)
    (fun part => by
      have count : (taken.depthBuffer0 part).length + taken.idx part = _ := (takingT part).count
      rw [steadyT.idx] at count
      have none : taken.depthBuffer0 part = [] := List.eq_nil_of_length_eq_zero (by omega)
      rw [if_pos (by omega), bfsController_of_not_ends goesOnT]
      exact none)
    (units analyst rfl (by decide)) (units expander rfl (by decide)) (by omega)
  exact ⟨_, _, filling, waits, by dsimp only; omega⟩

end Cycles

end Pe

end GraphAccelerator
