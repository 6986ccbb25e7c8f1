import GraphAccelerator.Accelerator.Filling
import GraphAccelerator.Accelerator.Occupancy

/-!
# A frontier that overflows

All threads but the memory have come to rest on the second level of a star, every partition
having asked for its two bursts.  The memory answers them at once and then nothing more.
-/

namespace GraphAccelerator

open Memory Kernel Ranks Walks Bfs LevelPass Store Chunks

namespace Pe

variable {gl : Gl} {pe after first root : Pe} {now : Nat} {due : TimedThread → Nat}
variable {timed : Timed TimedThread Pe} {part : Part} {firsts nexts : Part → Nat}
variable {ramData : List Byte} {g : Graph} {edge : Nat → Nat → Prop} {out inn : Nat → List Nat}

/-- Two bursts of every partition have been sent, and nothing else happens. -/
structure Asked (gl : Gl) (firsts nexts : Part → Nat) (pe : Pe) : Prop where
  burstRespQueue : ∀ part : Part, pe.burstRespQueue part.port = []
  responses : ∀ part : Part, pe.answered part.port ++ pe.sent part.port = [firsts part, nexts part]
  depthBuffer0 : ∀ part, pe.depthBuffer0 part = []
  lengths : ∀ part, pe.Lengths (firsts part) (nexts part)
  steady : pe.Steady (resetIdx gl) 0

theorem Asked.answer (asked : Asked gl firsts nexts pe)
    (answered : pe.answer part.port = some after) : Asked gl firsts nexts after := by
  have shapes := (answer_flight answered).2
  have lengths : ∀ part, after.Lengths (firsts part) (nexts part) := fun part =>
    ⟨hasLength_kept (shapes ▸ List.prefix_rfl) (asked.lengths part).1,
      hasLength_kept (shapes ▸ List.prefix_rfl) (asked.lengths part).2⟩
  have moved : ∀ {burstIdx : Nat} {rest : List Nat}, pe.sent part.port = burstIdx :: rest →
      ∀ other : Part, Function.update pe.answered part.port (pe.answered part.port ++ [burstIdx])
          other.port ++ Function.update pe.sent part.port rest other.port =
        [firsts other, nexts other] := by
    intro burstIdx rest queue other
    have responses := asked.responses other
    by_cases here : other = part
    · subst here
      rw [Function.update_self, Function.update_self, List.append_assoc, List.singleton_append,
        ← queue]
      exact responses
    · have differs : other.port ≠ part.port := fun same => here (port_injective same)
      rw [Function.update_of_ne differs, Function.update_of_ne differs]
      exact responses
  have steady := asked.steady
  have answered4 : ∀ burstIdx : Nat, Function.update pe.answered part.port
      (pe.answered part.port ++ [burstIdx]) 4 = [] := fun burstIdx =>
    (Function.update_of_ne (port_ne part (by decide)).symm ..).trans steady.answered
  cases answer_cases answered with
  | write queue _ _ _ | read queue _ _ _ =>
      exact ⟨asked.burstRespQueue, moved queue, asked.depthBuffer0, lengths, steady.idx,
        steady.frontierBuffer, steady.rpaoBuffer, steady.burstRespQueue, answered4 _⟩

theorem hasLength_of_deref {refs sizes : List Nat}
    (present : ∀ ref ∈ refs, ∃ op, pe.bursts[ref]? = some op)
    (same : (deref pe.bursts refs).map BurstOp.length = sizes) :
    List.Forall₂ pe.hasLength refs sizes := by
  induction refs generalizing sizes with
  | nil =>
      obtain rfl := same
      exact .nil
  | cons ref refs inductionHypothesis =>
      obtain ⟨op, found⟩ := present ref List.mem_cons_self
      rw [deref_cons found, List.map_cons] at same
      obtain rfl := same
      refine .cons ?_ (inductionHypothesis (fun other later =>
        present other (List.mem_cons_of_mem _ later)) rfl)
      rw [hasLength, found]
      rfl

/-- The memory answers all bursts of the partitions at once. -/
theorem InLevel.exists_answered (setting : Setting g edge out inn first.ramData first.level)
    (inLevel : InLevel (Gl.layout g) ramData first ⟨now, due, pe⟩) (later : 10 < pe.localCounter)
    (asked : Asked (Gl.layout g) firsts nexts pe) :
    ∃ after, InLevel (Gl.layout g) ramData first ⟨now, due, after⟩ ∧ 10 < after.localCounter ∧
      Asked (Gl.layout g) firsts nexts after ∧ ∀ part : Part, after.sent part.port = [] := by
  obtain ⟨after, _, ⟨inLevel, later, asked⟩, none⟩ := @exists_finished Pe (fun _ _ => True)
    (fun pe => InLevel (Gl.layout g) ramData first ⟨now, due, pe⟩ ∧ 10 < pe.localCounter ∧
      Asked (Gl.layout g) firsts nexts pe) (fun pe => ∀ part : Part, pe.sent part.port = [])
    (rank (Gl.layout g))
    (fun pe held more => by
      obtain ⟨inLevel, later, asked⟩ := held
      obtain ⟨part, sent⟩ := not_forall.mp more
      obtain ⟨after, answered⟩ := inLevel.answer_total setting (Nat.le_of_lt later) sent
      have counter : after.localCounter = pe.localCounter := by
        cases answer_cases answered <;> rfl
      exact ⟨after, trivial, ⟨inLevel.answer answered, counter ▸ later, asked.answer answered⟩,
        answer_descends answered⟩) pe ⟨inLevel, later, asked⟩
  exact ⟨after, inLevel, later, asked, none⟩

/-- The two bursts of a partition that nobody has answered. -/
theorem Starlike.exists_bursts (star : Starlike g first) (consistent : pe.Consistent)
    (rests : Resting (Gl.layout g) pe) (cut : Cut (Gl.layout g) part pe) :
    ∃ burstIdx nextIdx, pe.sent part.port = [burstIdx, nextIdx] ∧ pe.Lengths burstIdx nextIdx := by
  have left : (inspectSpan (Gl.layout g) pe.inspectReq part).left = 0 := by
    have asked := rests.inspectReq part
    simp only [inspectSpan]
    omega
  rw [Cut, left, star.maxLen, chunks_zero, List.append_nil] at cut
  have spans : (pe.line part.port).spans =
      (deref pe.bursts (pe.sent part.port)).map fun op => (op.addr, op.length) := by
    simp [Line.spans, Line.ops, BurstQueues.line, rests.burstRespQueue, rests.answered,
      rests.burstReqQueue, rests.creating]
  have sizes : (deref pe.bursts (pe.sent part.port)).map BurstOp.length = [1024, 512] := by
    have lengths := congrArg (List.map Prod.snd) cut
    rw [spans] at lengths
    simpa [Function.comp_def, chunks, Gl.baseLen] using lengths
  have present : ∀ ref ∈ pe.sent part.port, ∃ op, pe.bursts[ref]? = some op := by
    intro ref membership
    obtain ⟨op, present, _⟩ := consistent.indexed.port part.port ref (by
      simp [BurstQueues.flight, BurstQueues.pushed, membership])
    exact ⟨op, present⟩
  have known := hasLength_of_deref present sizes
  rcases sent : pe.sent part.port with _ | ⟨burstIdx, _ | ⟨nextIdx, _ | ⟨_, _⟩⟩⟩ <;>
    simp only [sent, List.forall₂_cons, List.forall₂_nil_left_iff, List.forall₂_nil_right_iff,
      reduceCtorEq, and_false] at known
  exact ⟨burstIdx, nextIdx, rfl, known.1, known.2.1⟩

section Levels

variable {isUgraph : Bool} {edges : List (Nat × Nat)} {ram0 : List Byte} {startIdx : Nat}
variable (loaded : loadGraph isUgraph (pairRows edges) = some g)
variable (initialized : ramInit g = some ram0) (bound : startIdx < g.vertexNum)
variable (started : setNewStartVertex (Gl.layout g) startIdx ram0 = some ramData)
variable (setting : Setting g edge out inn first.ramData first.level)
include loaded initialized bound started setting

theorem Starlike.overflows (star : Starlike g first)
    (inLevel : InLevel (Gl.layout g) ramData first ⟨now, due, pe⟩) (later : 10 < pe.localCounter)
    (unit : ∀ thread, due thread = now + 1) (asked : Asked (Gl.layout g) firsts nexts pe) :
    ∃ final, Relation.ReflTransGen (Cycle (Gl.layout g)) (start (Gl.layout g) ramData) final ∧
      final.state.frontierBuffer.length = 4098 := by
  obtain ⟨after, inLevel, later, asked, none⟩ := inLevel.exists_answered setting later asked
  have indexed := inLevel.onTime.consistent.indexed
  have steady := asked.steady
  obtain ⟨final, since, filling, waits, early⟩ := Settling.exists_filling loaded initialized bound
    started setting star ⟨inLevel, later, .refl⟩ unit
    (fun part => ⟨asked.burstRespQueue part, by
        have responses := asked.responses part
        rwa [none, List.append_nil] at responses,
      indexed.transfer_none (asked.burstRespQueue part), fun some => absurd rfl some, by
        show (after.depthBuffer0 part).length + after.idx part = _
        rw [asked.depthBuffer0, steady.idx]
        exact Nat.zero_add _⟩) asked.lengths steady
  exact filling.overflows loaded initialized bound started setting star waits (by omega)

theorem Starlike.exists_overflow (star : Starlike g first)
    (inLevel : InLevel (Gl.layout g) ramData first timed) (early : timed.state.localCounter < 10) :
    ∃ final, Relation.ReflTransGen (Cycle (Gl.layout g)) (start (Gl.layout g) ramData) final ∧
      final.state.frontierBuffer.length = 4098 := by
  obtain ⟨begun, settling, waiting⟩ := inLevel.begins loaded initialized bound started early
  have behind : ∀ (part : Part) {timed : Timed TimedThread Pe},
      Settling (Gl.layout g) ramData first (first.observeStart (Gl.layout g))
        (fun _ => False) timed →
      Settling (Gl.layout g) ramData first (first.observeStart (Gl.layout g))
        (fun i => i ≠ part.port) timed := fun part _ settling => settling.mono fun _ => False.elim
  obtain ⟨⟨now, due, pe⟩, settling, _, rests, unit⟩ := Settling.exists_stop loaded initialized
    bound started setting
    (fun timed => Resting (Gl.layout g) (seen (Gl.layout g) first timed) ∧
      ∀ thread, timed.due thread = timed.now + 1)
    (fun timed settling waiting _ => (behind 0 settling).goesOn loaded initialized bound started
      setting (by rw [star.maxLen 0]; decide) waiting)
    (fun timed settling allDue goes rests => absurd ⟨rests, allDue⟩ goes) settling waiting
  obtain ⟨f, reached⟩ := settling.reached setting
  have running := settling.inLevel.running settling.later
  have steps := fun part : Part => (behind part settling).steps
  have held := fun part => @Held.run _ _ _ _ _ _ part setting settling.inLevel.drained (steps part)
  have cut := fun part => Cut.run setting settling.inLevel.drained (steps part)
  choose firsts nexts sent lengths using fun part =>
    star.exists_bursts reached.consistent rests (cut part)
  rw [seen_running running] at rests held sent lengths
  refine star.overflows loaded initialized bound started setting settling.inLevel settling.later
    unit ⟨fun part => rests.burstRespQueue _, fun part => ?_, rests.depthBuffer0, lengths,
      funext fun part => (held part).idx, ?_, rests.rpaoBuffer, rests.burstRespQueue 4,
      rests.answered 4⟩
  · show pe.answered part.port ++ pe.sent part.port = _
    rw [show pe.answered part.port = [] from rests.answered _]
    exact sent part
  · show pe.frontierBuffer.length = 0
    rw [show pe.frontierBuffer = [] from rests.frontierBuffer]
    rfl

end Levels

end Pe

/-! ### A star -/

/-- Edges from one vertex to all others, and loops, since the memory is sized by the edges. -/
def starEdges : List (Nat × Nat) :=
  (List.range 6143).map (fun k => (0, k + 1)) ++ List.replicate 4000 (0, 0)

theorem star_edge {u v : Nat} : Edge false starEdges u v ↔ u = 0 ∧ v < 6144 := by
  simp only [Edge, starEdges, List.mem_append, List.mem_map, List.mem_range, Prod.mk.injEq,
    List.mem_replicate, Bool.false_eq_true, false_and, or_false]
  constructor
  · rintro (⟨k, inside, rfl, rfl⟩ | ⟨_, rfl, rfl⟩)
    · exact ⟨rfl, by omega⟩
    · exact ⟨rfl, by omega⟩
  · rintro ⟨rfl, inside⟩
    rcases Nat.eq_zero_or_pos v with rfl | positive
    · exact .inr ⟨by decide, rfl, rfl⟩
    · exact .inl ⟨v - 1, by omega, rfl, by omega⟩

theorem star_shortest {v : Nat} : Shortest (Edge false starEdges) 0 v 1 ↔ v ≠ 0 ∧ v < 6144 := by
  simp only [shortest_succ_iff, shortest_zero_iff, star_edge, Nat.le_zero, forall_eq]
  constructor
  · rintro ⟨⟨_, _, _, inside⟩, other⟩
    exact ⟨other, inside⟩
  · rintro ⟨other, inside⟩
    exact ⟨⟨0, rfl, rfl, inside⟩, other⟩

theorem star_loaded : ∃ g ram0 ramData, loadGraph false (pairRows starEdges) = some g ∧
    g.vertexNum = 6144 ∧ ramInit g = some ram0 ∧
      setNewStartVertex (Gl.layout g) 0 ram0 = some ramData := by
  have within : ∀ pair ∈ starEdges, pair.1 ≤ 6143 ∧ pair.2 ≤ 6143 := by
    intro pair membership
    simp only [starEdges, List.mem_append, List.mem_map, List.mem_range, List.mem_replicate]
      at membership
    rcases membership with ⟨k, inside, rfl⟩ | ⟨_, rfl⟩
    · exact ⟨Nat.zero_le _, inside⟩
    · exact ⟨Nat.zero_le _, Nat.zero_le _⟩
  have listed : (0, 6143) ∈ starEdges :=
    List.mem_append_left _ (List.mem_map.mpr ⟨6142, List.mem_range.mpr (by omega), rfl⟩)
  obtain ⟨g, loaded, vertexNum, edgeNum⟩ := loadGraph_total within (by omega) listed rfl
  have edges : starEdges.length = 10143 := by
    rw [starEdges, List.length_append, List.length_map, List.length_range, List.length_replicate]
  rw [edges] at edgeNum
  obtain ⟨ram0, ramData, initialized, _, started⟩ := @exists_started _ _ _ 0 loaded
    (by rw [edgeNum]; simp only [Gl.ramEnd, Gl.layout, vertexNum, edgeNum]; decide)
    (by rw [edgeNum]; decide) (by omega)
  exact ⟨g, ram0, ramData, loaded, vertexNum, initialized, started⟩

/-- Whatever the frontier holds, up to four vertices are added when there is room for one: the
second level of a star fills the buffer faster than it is emptied. -/
theorem Pe.buffers_fit_star : ¬ ∀ (isUgraph : Bool) (edges : List (Nat × Nat)) (g : Graph)
    (ram0 ramData : List Byte) (startIdx : Nat) (final : Timed TimedThread Pe),
    loadGraph isUgraph (pairRows edges) = some g → ramInit g = some ram0 →
      startIdx < g.vertexNum → setNewStartVertex (Gl.layout g) startIdx ram0 = some ramData →
      Relation.ReflTransGen (Pe.Cycle (Gl.layout g)) (Pe.start (Gl.layout g) ramData) final →
      final.state.Fits := by
  intro fits
  obtain ⟨g, ram0, ramData, loaded, vertexNum, initialized, started⟩ := star_loaded
  have bound : 0 < g.vertexNum := by omega
  have level := levelStart_reset loaded initialized bound started
  have starts := inSearch_start (Gl.layout g) ramData
  have some : 0 < (Gl.layout g).maxLen 3 := by
    rw [Gl.maxLen, show (Gl.layout g).vertexNum = g.vertexNum from rfl, vertexNum]
    decide
  have none : ∀ u, Pe.resetIdx (Gl.layout g) 3 ≤ u → u < LevelPass.partEnd g 3 →
      depthByte g (Pe.start (Gl.layout g) ramData).state.ramData u ≠
        (Pe.start (Gl.layout g) ramData).state.level := by
    intro u later _ same
    have here := shortest_zero_iff.mp ((level.labels.named u 0 le_rfl).mp same)
    rw [Pe.resetIdx, show (Gl.layout g).vertexNum = g.vertexNum from rfl, vertexNum, here] at later
    exact absurd later (by decide)
  have counter : (Pe.start (Gl.layout g) ramData).state.localCounter < 10 := by
    have goesOn : (Pe.reset (Gl.layout g) ramData).endsLevel = false :=
      Pe.endsLevel_early (Nat.zero_lt_succ 18)
    rw [Pe.start, Pe.bfsController_of_not_ends goesOn]
    exact show 1 < 10 by decide
  have zero : Shortest (Edge false starEdges) 0 0 0 := shortest_zero_iff.mpr rfl
  obtain ⟨next, level, inLevel, early⟩ := Pe.InLevel.exists_next loaded initialized bound
    started level (by omega) some none zero
    ⟨starts.run, starts.drained, starts.checked, starts.phase⟩ counter
  have star : Pe.Starlike g next.state := ⟨vertexNum, fun u inside => by
    rw [level.level, level.labels.named u 1 le_rfl, star_shortest]
    exact and_iff_left inside⟩
  obtain ⟨final, run, overflow⟩ := star.exists_overflow loaded initialized bound started
    (level.setting loaded initialized (by omega)) inLevel early
  have room := (fits false starEdges g ram0 ramData 0 final loaded initialized bound started
    run).frontierBuffer
  rw [overflow] at room
  exact absurd room (by decide)

end GraphAccelerator
