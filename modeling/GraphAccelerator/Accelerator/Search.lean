import GraphAccelerator.Accelerator.Draining
import GraphAccelerator.Accelerator.Inspection

/-!
# The whole search

A search is a sequence of levels, each of which drains before `bfsController` goes on.
The number of the level, the depths in the memory image and the mark of the unvisited
vertices are signed bytes: what is dumped are the depths of the software search exactly
when none of them exceeds 127.
-/

namespace GraphAccelerator

open Memory Ranks Walks Bfs LevelPass

namespace Pe

/-- A whole level: every thread has observed the start signal, everything drains, and
`bfsController`, whose counter has reached 20, ends the level. -/
inductive WholeLevel (gl : Gl) : Pe → Pe → Prop
  | ended {pe final : Pe} : pe.Drained gl →
      Relation.ReflTransGen (LevelStep gl) (pe.observeStart gl) final → final.Drained gl →
      { final with localCounter := 20 }.endsLevel = true →
      WholeLevel gl pe { final with localCounter := 20 }.bfsController

structure Search (gl : Gl) (ramData : List Byte) (run : Nat → Pe) : Prop where
  start : run 0 = reset gl ramData
  next : ∀ k, (run k).bfsDone = false → WholeLevel gl (run k) (run (k + 1))
  stop : ∀ k, (run k).bfsDone = true → run (k + 1) = run k

/-- `bfsDone` is reached, and whenever it is, `dumpDepth` writes the given depths. -/
def Dumps (gl : Gl) (run : Nat → Pe) (depth : List Int) : Prop :=
  (∃ k, (run k).bfsDone = true) ∧
    ∀ k pe, (run k).bfsDone = false →
      Relation.ReflTransGen (LevelStep gl) ((run k).observeStart gl) pe → pe.bfsDone = true →
      dumpDepth gl pe.ramData = some depth

theorem WholeLevel.done {gl : Gl} {pe after : Pe} (whole : WholeLevel gl pe after) :
    ∃ final, Relation.ReflTransGen (LevelStep gl) (pe.observeStart gl) final ∧
      final.bfsDone = after.bfsDone ∧ final.ramData = after.ramData := by
  cases whole with
  | @ended final _ run _ ends =>
      refine ⟨final, run, ?_⟩
      rw [bfsController, if_pos ends]
      exact ⟨rfl, rfl⟩

theorem Search.exists_last {gl : Gl} {ramData : List Byte} {run : Nat → Pe}
    (search : Search gl ramData run) {k : Nat} (done : (run k).bfsDone = true) :
    ∃ k, (run k).bfsDone = false ∧ (run (k + 1)).bfsDone = true := by
  induction k with
  | zero =>
      rw [search.start] at done
      cases done
  | succ k inductionHypothesis =>
      by_cases earlier : (run k).bfsDone = true
      · exact inductionHypothesis earlier
      · exact ⟨k, Bool.eq_false_iff.mpr earlier, done⟩

theorem Search.searching {gl : Gl} {ramData : List Byte} {run : Nat → Pe}
    (search : Search gl ramData run) {j k : Nat} (before : j ≤ k)
    (searching : (run k).bfsDone = false) : (run j).bfsDone = false := by
  induction before with
  | refl => exact searching
  | @step k _ inductionHypothesis =>
      refine inductionHypothesis (Bool.eq_false_iff.mpr fun done => ?_)
      rw [search.stop k done, done] at searching
      cases searching

end Pe

/-- The number of a level as the byte that is stored. -/
def levelByte (level : Nat) : Byte := BitVec.ofNat 8 level

theorem levelByte_succ (level : Nat) : levelByte level + 1 = levelByte (level + 1) := by
  rw [levelByte, levelByte, BitVec.ofNat_add]
  rfl

/-- The levels up to 254 have different bytes, the next one has the mark of the unvisited
vertices. -/
theorem levelByte_names : Names levelByte (-1) 254 where
  injective first second firstBound secondBound same := by
    have values := congrArg BitVec.toNat same
    simp only [levelByte, BitVec.toNat_ofNat] at values
    omega
  visited level bound same := by
    have values := congrArg BitVec.toNat same
    have mark : (-1 : Byte).toNat = 255 := rfl
    simp only [levelByte, BitVec.toNat_ofNat, mark] at values
    omega

theorem toInt_levelByte {level : Nat} (bound : level ≤ 127) :
    (levelByte level).toInt = level := by
  rw [levelByte, BitVec.toInt_ofNat']
  exact Int.bmod_eq_of_le (by omega) (by omega)

section Dump

variable {g : Graph} {ramData : List Byte}

theorem dumpDepth_eq (covers : g.vertexNum ≤ ramData.length) :
    dumpDepth (Gl.layout g) ramData =
      some ((List.range g.vertexNum).map fun v => (depthByte g ramData v).toInt) := by
  refine CheckedLoop.mapM_eq_some_map _ _ _ fun v inside => ?_
  have bound : v < g.vertexNum := List.mem_range.mp inside
  have address : (Gl.layout g).depthMemAddr + v = v := Nat.zero_add v
  rw [address, depthByte, if_pos bound, List.getElem?_eq_getElem (Nat.lt_of_lt_of_le bound covers)]
  rfl

theorem dumpDepth_le {gl : Gl} {depth : List Int} (dumped : dumpDepth gl ramData = some depth) :
    ∀ d ∈ depth, d ≤ 127 := by
  intro d written
  obtain ⟨v, bound, rfl⟩ := List.getElem_of_mem written
  obtain ⟨length, bytes⟩ := List.forall₂_iff_get.mp (CheckedLoop.mapM_forall₂ dumped)
  have read := bytes v (length ▸ bound) bound
  simp only [Option.bind_eq_bind, Option.bind_eq_some_iff] at read
  obtain ⟨byte, _, value⟩ := read
  have same : byte.toInt = depth[v] := Option.some.inj value
  have := BitVec.toInt_lt (x := byte)
  omega

theorem Pe.Search.le_of_dumps {gl : Gl} {run : Nat → Pe} (search : Pe.Search gl ramData run)
    {depth : List Int} (dumps : Pe.Dumps gl run depth) : ∀ d ∈ depth, d ≤ 127 := by
  obtain ⟨⟨_, done⟩, dumped⟩ := dumps
  obtain ⟨k, searching, done⟩ := search.exists_last done
  obtain ⟨final, level, same, _⟩ := (search.next k searching).done
  exact dumpDepth_le (dumped k final searching level (same.trans done))

end Dump

namespace LevelPass

section Level

variable {g : Graph} {edge : Nat → Nat → Prop} {out inn : Nat → List Nat} {pe after : Pe}

theorem Written.level_iff {before ramData : List Byte} {level : Byte}
    (written : Written g edge before level ramData) (setting : Setting g edge out inn before level)
    (addr : Nat) : ramData[addr]? = some level ↔ before[addr]? = some level := by
  rcases written.bytes addr with same | ⟨fresh, _, changed⟩
  · rw [same]
  · have differs : level + 1 ≠ level := by simp
    have visited := setting.visited
    rw [fresh, changed, Option.some.injEq, Option.some.injEq]
    exact iff_of_false differs visited.symm

theorem exists_inspection (setting : Setting g edge out inn pe.ramData pe.level)
    (drained : pe.Drained (Gl.layout g))
    (run : Relation.ReflTransGen (Pe.LevelStep (Gl.layout g))
      (pe.observeStart (Gl.layout g)) after) :
    ∃ h, Relation.ReflTransGen (Inspection.Step g)
      (pe.observeStart (Gl.layout g), {}) (after, h) := by
  induction run with
  | refl => exact ⟨_, .refl⟩
  | @tail before after earlier stepped inductionHypothesis =>
      obtain ⟨h, steps⟩ := inductionHypothesis
      cases stepped with
      | resume other ran => exact ⟨_, steps.tail (.resume other ran)⟩
      | answer ran =>
          obtain ⟨_, first⟩ := reached_run setting drained earlier
          obtain ⟨_, second⟩ := reached_run setting drained (earlier.tail (.answer ran))
          refine ⟨_, steps.tail (.answer ran fun v _ => ?_)⟩
          rw [first.level]
          exact (second.pass.transfers.ram.level_iff setting v).trans
            (first.pass.transfers.ram.level_iff setting v).symm

theorem live_start (setting : Setting g edge out inn pe.ramData pe.level)
    (drained : pe.Drained (Gl.layout g)) (recorded : ∃ record : Record, record.Exact pe.toBurstQueues)
    (chunked : Pe.Chunked pe) : Live edge out pe g (pe.observeStart (Gl.layout g)) where
  reached := reached_run setting drained .refl
  recorded := recorded
  chunked := ⟨chunked.flight, chunked.maxLen, chunked.len⟩
  room := by
    rw [show (pe.observeStart (Gl.layout g)).ciaoBuffer = [] from drained.ciaoBuffer]
    exact Nat.zero_lt_succ _

theorem endsLevel_of_drained {record : Record} (drained : pe.Drained (Gl.layout g))
    (recorded : record.Exact pe.toBurstQueues) :
    { pe with localCounter := 20 }.endsLevel = true := by
  have status : pe.burstOpStatus = [] := List.eq_nil_iff_forall_not_mem.mpr fun burstIdx key => by
    obtain ⟨i, pushed⟩ := recorded.registered burstIdx key
    simp [BurstQueues.pushed, drained.burstRespQueue, drained.answered, drained.sent,
      drained.burstReqQueue] at pushed
  simp [Pe.endsLevel, Pe.isEndOfBfsIteration, Pe.nextCounter, status, drained.burstReqQueue,
    drained.burstRespQueue, drained.depthBuffer0, drained.frontierBuffer, drained.rpaoBuffer,
    drained.ciaoBuffer, drained.depthBuffer1, drained.depthBuffer2]

/-- Every level can be run to its end. -/
theorem exists_wholeLevel (setting : Setting g edge out inn pe.ramData pe.level)
    (drained : pe.Drained (Gl.layout g)) (recorded : ∃ record : Record, record.Exact pe.toBurstQueues)
    (chunked : Pe.Chunked pe) :
    ∃ after, Pe.WholeLevel (Gl.layout g) pe after ∧
      (∃ record : Record, record.Exact after.toBurstQueues) ∧ Pe.Chunked after := by
  obtain ⟨final, run, live, finished⟩ :=
    (live_start setting drained recorded chunked).exists_drained setting
  obtain ⟨record, recorded⟩ := live.recorded
  refine ⟨_, .ended drained run finished (endsLevel_of_drained finished recorded), ⟨record, ?_⟩, ?_⟩
  · rw [Pe.bfsController_queues]
    exact recorded
  · have counted : Pe.Chunked { final with localCounter := 20 } :=
      ⟨live.chunked.flight, live.chunked.maxLen, live.chunked.len⟩
    exact counted.control

end Level

structure LevelStart (isUgraph : Bool) (edges : List (Nat × Nat)) (g : Graph) (ram0 : List Byte)
    (startIdx k : Nat) (pe : Pe) : Prop where
  drained : pe.Drained (Gl.layout g)
  consistent : pe.Consistent
  level : pe.level = levelByte k
  searching : pe.bfsDone = false
  length : pe.ramData.length = ram0.length
  arrays : ∀ addr, g.vertexNum ≤ addr → pe.ramData[addr]? = ram0[addr]?
  labels : LabelsUpTo (Edge isUgraph edges) startIdx levelByte (-1) k
    (depthByte g pe.ramData)

section Search

variable {isUgraph : Bool} {edges : List (Nat × Nat)} {g : Graph} {ram0 ramData : List Byte}
variable {startIdx k : Nat} {pe after : Pe}

namespace LevelStart

theorem setting (start : LevelStart isUgraph edges g ram0 startIdx k pe)
    (loaded : loadGraph isUgraph (pairRows edges) = some g) (initialized : ramInit g = some ram0)
    (bound : k < 254) :
    Setting g (Edge isUgraph edges) (outNgbs isUgraph edges) (inNgbs isUgraph edges) pe.ramData
      pe.level := by
  refine setting_of_loaded loaded initialized start.length start.arrays ?_ ?_
  · rw [start.level]
    exact levelByte_names.visited k (by omega)
  · rw [start.level, levelByte_succ]
    exact levelByte_names.visited (k + 1) bound

theorem mem_level (start : LevelStart isUgraph edges g ram0 startIdx k pe)
    (bound : k < 254) (v : Nat) :
    v < g.vertexNum ∧ pe.ramData[v]? = some pe.level ↔
      Shortest (Edge isUgraph edges) startIdx v k := by
  rw [start.level, ← depthByte_eq (levelByte_names.visited k (by omega))]
  exact start.labels.named v k le_rfl

theorem done_iff (start : LevelStart isUgraph edges g ram0 startIdx k pe)
    (loaded : loadGraph isUgraph (pairRows edges) = some g) (initialized : ramInit g = some ram0)
    (vertices : 0 < g.vertexNum) (bound : k < 254)
    (run : Relation.ReflTransGen (Pe.LevelStep (Gl.layout g))
      (pe.observeStart (Gl.layout g)) after) :
    after.bfsDone = true ↔ after.allAnalyzed (Gl.layout g) = true ∧
      ∀ v, ¬ Shortest (Edge isUgraph edges) startIdx v k := by
  have setting := start.setting loaded initialized bound
  obtain ⟨h, steps⟩ := exists_inspection setting start.drained run
  have holds := (Inspection.holds_observeStart vertices start.drained start.consistent
    start.searching).run steps
  rw [holds.bfsDone_iff]
  simp only [beq_iff_eq]
  refine and_congr_right fun _ => ⟨fun none v shortest => ?_, fun none v inside stored => ?_⟩
  · obtain ⟨inside, stored⟩ := (start.mem_level bound v).mpr shortest
    exact none v inside stored
  · exact none v ((start.mem_level bound v).mp ⟨inside, stored⟩)

/-- At the end of a level the search is done exactly when there was no vertex on it. -/
theorem end_iff (start : LevelStart isUgraph edges g ram0 startIdx k pe)
    (loaded : loadGraph isUgraph (pairRows edges) = some g) (initialized : ramInit g = some ram0)
    (vertices : 0 < g.vertexNum) (bound : k < 254)
    (whole : Pe.WholeLevel (Gl.layout g) pe after) :
    after.bfsDone = true ↔ ∀ v, ¬ Shortest (Edge isUgraph edges) startIdx v k := by
  cases whole with
  | ended _ run finished ends =>
  obtain ⟨f, reached⟩ := reached_run (start.setting loaded initialized bound) start.drained run
  have analysed := Inspection.allAnalyzed_iff.mpr (reached.finished finished).2
  rw [Pe.bfsController, if_pos ends]
  simpa [analysed] using start.done_iff loaded initialized vertices bound run

theorem next (start : LevelStart isUgraph edges g ram0 startIdx k pe)
    (loaded : loadGraph isUgraph (pairRows edges) = some g) (initialized : ramInit g = some ram0)
    (bound : k < 254) (whole : Pe.WholeLevel (Gl.layout g) pe after)
    (searching : after.bfsDone = false) :
    LevelStart isUgraph edges g ram0 startIdx (k + 1) after := by
  have setting := start.setting loaded initialized bound
  cases whole with
  | @ended final _ run finished ends =>
  obtain ⟨f, reached⟩ := reached_run setting start.drained run
  obtain ⟨advanced, length, arrays, _⟩ := run_advance setting start.drained run finished
  have counted : Pe.Consistent { final with localCounter := 20 } :=
    ⟨reached.consistent.indexed, reached.consistent.inspect, reached.consistent.ciao⟩
  have consistent := (@Pe.bfsController_pipeline (Gl.layout g) _ counted).1
  rw [Pe.bfsController, if_pos ends] at consistent searching ⊢
  refine ⟨{ finished with }, consistent, ?_,
    searching, length.trans start.length,
    fun addr behind => (arrays addr behind).trans (start.arrays addr behind), ?_⟩
  · show final.level + 1 = levelByte (k + 1)
    rw [reached.level, start.level, levelByte_succ]
  · show LabelsUpTo _ _ _ _ _ (depthByte g final.ramData)
    rw [advanced, start.level, levelByte_succ]
    exact start.labels.advance (levelByte_names.mono bound)

theorem dump (start : LevelStart isUgraph edges g ram0 startIdx k pe)
    (loaded : loadGraph isUgraph (pairRows edges) = some g) (initialized : ramInit g = some ram0)
    (vertices : 0 < g.vertexNum) (bound : k < 254)
    (small : ∀ v length, Shortest (Edge isUgraph edges) startIdx v length → length ≤ 127)
    {depth : List Int} (depths : ShortestDepths (Edge isUgraph edges) g.vertexNum startIdx depth)
    (run : Relation.ReflTransGen (Pe.LevelStep (Gl.layout g))
      (pe.observeStart (Gl.layout g)) after) (done : after.bfsDone = true) :
    dumpDepth (Gl.layout g) after.ramData = some depth := by
  have setting := start.setting loaded initialized bound
  obtain ⟨f, reached⟩ := reached_run setting start.drained run
  have written := reached.pass.transfers.ram
  have empty := ((start.done_iff loaded initialized vertices bound run).mp done).2
  have noLevel : ∀ v, depthByte g pe.ramData v ≠ levelByte k := fun v isLevel =>
    empty v ((start.labels.named v k le_rfl).mp isLevel)
  -- without a vertex on the level nothing was written
  have same : after.ramData = pe.ramData := by
    refine List.ext_getElem? fun addr => ?_
    rcases written.bytes addr with same | ⟨_, ⟨u, isLevel, _⟩, _⟩
    · exact same
    · exact absurd (start.level ▸ isLevel) (noLevel u)
  have labels := start.labels.complete_of_empty (levelByte_names.mono (by omega)) noLevel
  rw [same, dumpDepth_eq (Nat.le_of_lt setting.laidOut.vertexNum_lt), Option.some.injEq]
  refine List.ext_getElem? fun v => ?_
  by_cases inside : v < g.vertexNum
  · rw [List.getElem?_map, List.getElem?_range inside, Option.map_some]
    rcases labels v with ⟨k, named, shortest⟩ | ⟨fresh, unreachable⟩
    · rw [named, toInt_levelByte (small v k shortest), depths.eq_of_shortest inside shortest]
    · rw [fresh]
      rcases depths.2 v inside with ⟨_, _, shortest⟩ | ⟨stored, _⟩
      · exact absurd unreachable shortest.not_unreachable
      · rw [stored]
        rfl
  · have length := depths.1
    rw [List.getElem?_eq_none (by simp; omega), List.getElem?_eq_none (by omega)]

end LevelStart

theorem levelStart_reset (loaded : loadGraph isUgraph (pairRows edges) = some g)
    (initialized : ramInit g = some ram0) (bound : startIdx < g.vertexNum)
    (started : setNewStartVertex (Gl.layout g) startIdx ram0 = some ramData) :
    LevelStart isUgraph edges g ram0 startIdx 0 (Pe.reset (Gl.layout g) ramData) := by
  have vertices := (loadGraph_builtFrom loaded).vertices_length
  obtain ⟨_, depths⟩ := ramInit_spec vertices (loadGraph_outgoing loaded) initialized
  obtain ⟨length, contents⟩ := updateRam_spec started
  have origin : (Gl.layout g).depthMemAddr = 0 := rfl
  have stored : ∀ addr, ramData[addr]? = if addr = startIdx then some 0 else ram0[addr]? := by
    intro addr
    rw [contents, origin, Nat.zero_add]
    by_cases here : addr = startIdx
    · subst here
      simp [charBytes]
    · rw [if_neg (by simp [charBytes]; omega), if_neg here]
  refine ⟨Pe.drained_reset _ _, Pe.reset_consistent _ _, rfl, rfl, length,
    fun addr behind => (stored addr).trans (if_neg (by omega)), ?_⟩
  refine labelsUpTo_start (levelByte_names.mono (Nat.zero_le _)) ?_ fun v other => ?_
  · refine (depthByte_eq (levelByte_names.visited 0 (by omega))).mpr ⟨bound, ?_⟩
    exact (stored startIdx).trans (if_pos rfl)
  · rw [depthByte]
    split
    · rename_i inside
      rw [show (Pe.reset (Gl.layout g) ramData).ramData = ramData from rfl, stored, if_neg other,
        depths v inside]
      rfl
    · rfl

/-- There is a search for every graph whose distances are smaller than 253. -/
theorem exists_search (loaded : loadGraph isUgraph (pairRows edges) = some g)
    (initialized : ramInit g = some ram0) (bound : startIdx < g.vertexNum)
    (started : setNewStartVertex (Gl.layout g) startIdx ram0 = some ramData)
    (small : ∀ v length, Shortest (Edge isUgraph edges) startIdx v length → length < 253) :
    ∃ run, Pe.Search (Gl.layout g) ramData run := by
  let startsLevel := fun (k : Nat) (pe : Pe) => pe.bfsDone = false →
    k < 254 ∧ LevelStart isUgraph edges g ram0 startIdx k pe ∧
      (∃ record : Record, record.Exact pe.toBurstQueues) ∧ Pe.Chunked pe
  let nextLevel := fun pe after : Pe =>
    (pe.bfsDone = false → Pe.WholeLevel (Gl.layout g) pe after) ∧ (pe.bfsDone = true → after = pe)
  have next : ∀ k pe, startsLevel k pe → ∃ after, nextLevel pe after ∧ startsLevel (k + 1) after := by
    intro k pe starts
    cases searching : pe.bfsDone with
    | true =>
        exact ⟨pe, ⟨by simp [searching], fun _ => rfl⟩, by simp [startsLevel, searching]⟩
    | false =>
        obtain ⟨levels, start, recorded, chunked⟩ := starts searching
        obtain ⟨after, whole, recorded, chunked⟩ := exists_wholeLevel
          (start.setting loaded initialized levels) start.drained recorded chunked
        refine ⟨after, ⟨fun _ => whole, by simp [searching]⟩, fun goesOn => ⟨?_,
          start.next loaded initialized levels whole goesOn, recorded, chunked⟩⟩
        -- a level follows only if there was a vertex on this one
        by_contra last
        have ends := (start.end_iff loaded initialized (by omega) levels whole).mpr fun v shortest => by
          have := small v k shortest
          omega
        rw [goesOn] at ends
        cases ends
  obtain ⟨run, first, levels⟩ := exists_run next fun _ =>
    ⟨by omega, levelStart_reset loaded initialized bound started, ⟨_, Record.exact_reset _ _⟩,
      nofun, Nat.dvd_zero 4, Nat.dvd_zero 4⟩
  exact ⟨run, first, fun k => (levels k).1, fun k => (levels k).2⟩

theorem search_levels {run : Nat → Pe} (loaded : loadGraph isUgraph (pairRows edges) = some g)
    (initialized : ramInit g = some ram0) (bound : startIdx < g.vertexNum)
    (started : setNewStartVertex (Gl.layout g) startIdx ram0 = some ramData)
    (search : Pe.Search (Gl.layout g) ramData run) {k : Nat} (levels : k ≤ 254)
    (searching : (run k).bfsDone = false) :
    LevelStart isUgraph edges g ram0 startIdx k (run k) := by
  induction k with
  | zero =>
      rw [search.start]
      exact levelStart_reset loaded initialized bound started
  | succ k inductionHypothesis =>
      have earlier := search.searching (Nat.le_succ k) searching
      exact (inductionHypothesis (by omega) earlier).next loaded initialized (by omega)
        (search.next k earlier) searching

/-- The accelerator and the software search agree exactly when no distance exceeds 127. -/
theorem search_dumps_iff {run : Nat → Pe}
    (loaded : loadGraph isUgraph (pairRows edges) = some g) (initialized : ramInit g = some ram0)
    (bound : startIdx < g.vertexNum)
    (started : setNewStartVertex (Gl.layout g) startIdx ram0 = some ramData)
    (search : Pe.Search (Gl.layout g) ramData run) :
    ∃ csr td, CSR.ofPairs isUgraph edges = some csr ∧
      (∀ rounds, csr.vNum < rounds → tdBfs csr startIdx rounds = some td) ∧
      ShortestDepths (Edge isUgraph edges) csr.vNum startIdx td.t.depth ∧
      (Pe.Dumps (Gl.layout g) run td.t.depth ↔
        ∀ v length, Shortest (Edge isUgraph edges) startIdx v length → length ≤ 127) := by
  have constructed := ofPairs_of_loaded loaded
  have rep := CSR.ofPairs_represents constructed
  obtain ⟨td, finished, result⟩ := tdBfs_spec rep bound
  have depths := result.depths
  have vertices : 0 < g.vertexNum := by omega
  have levels := fun k => @search_levels _ _ _ _ _ _ run loaded initialized bound started search k
  refine ⟨_, td, constructed, finished, depths, fun dumps v length shortest => ?_, fun small => ?_⟩
  · have inside : v < g.vertexNum := @Walk.mem_of_closed _ _ _ _ (· < g.vertexNum) _
      (fun u w uwEdge => (rep.edge_lt u w uwEdge).2) shortest.1 bound
    have stored := depths.eq_of_shortest inside shortest
    have := search.le_of_dumps dumps _ (List.mem_of_getElem? stored)
    omega
  · have last : (run 129).bfsDone = true := by
      by_contra searching
      have earlier := search.searching (Nat.le_succ 128) (Bool.not_eq_true _ ▸ searching)
      refine searching (((levels 128 (by omega) earlier).end_iff loaded initialized vertices
        (by omega) (search.next 128 earlier)).mpr fun v shortest => ?_)
      have := small v 128 shortest
      omega
    refine ⟨⟨129, last⟩, fun k pe searching run done => ?_⟩
    have below : k < 129 := by
      by_contra beyond
      exact absurd (search.searching (Nat.le_of_not_lt beyond) searching) (by simp [last])
    exact (levels k (by omega) searching).dump loaded initialized vertices (by omega) small depths
      run done

theorem search_dumps_iff_hub : ∃ ramData run td, Pe.Search (Gl.layout hub) ramData run ∧
    tdBfs (CSR.ofGraph hub) 0 3 = some td ∧ Pe.Dumps (Gl.layout hub) run td.t.depth := by
  obtain ⟨ram0, ramData, initialized, _, started⟩ := @exists_started _ _ _ 0 hub_loaded
    (by decide +kernel) (by decide) (by decide)
  have few : ∀ v length, Shortest (Edge false hubEdges) 0 v length → length < 2 :=
    fun v length shortest => shortest.lt_card (Finset.range 2) (fun u w uwEdge =>
      Finset.mem_range.mpr ((loadGraph_builtFrom hub_loaded).edge_lt uwEdge).2) (by decide)
  obtain ⟨run, search⟩ := exists_search hub_loaded initialized (by decide) started
    fun v length shortest => by
      have := few v length shortest
      omega
  obtain ⟨csr, td, constructed, finished, _, dumps⟩ :=
    search_dumps_iff hub_loaded initialized (by decide) started search
  obtain rfl := Option.some.inj ((ofPairs_of_loaded hub_loaded).symm.trans constructed)
  refine ⟨ramData, run, td, search, finished 3 (by decide), dumps.mpr fun v length shortest => ?_⟩
  have := few v length shortest
  omega

/-! ### A long path -/

/-- A path of 128 edges, with each of them three times for the arrays to fit. -/
def pathEdges : List (Nat × Nat) := (List.range 384).map fun k => (k / 3, k / 3 + 1)

theorem path_edge {u v : Nat} : Edge false pathEdges u v ↔ u < 128 ∧ v = u + 1 := by
  simp only [Edge, pathEdges, List.mem_map, List.mem_range, Prod.mk.injEq, Bool.false_eq_true,
    false_and, or_false]
  constructor
  · rintro ⟨k, bound, rfl, rfl⟩
    exact ⟨by omega, rfl⟩
  · rintro ⟨bound, rfl⟩
    exact ⟨3 * u, by omega, by omega, by omega⟩

theorem path_walk {v length : Nat} :
    Walk (Edge false pathEdges) length 0 v ↔ v = length ∧ length ≤ 128 := by
  induction length generalizing v with
  | zero => simp
  | succ length inductionHypothesis =>
      simp only [walk_succ_iff, inductionHypothesis, path_edge]
      constructor
      · rintro ⟨_, ⟨rfl, _⟩, bound, rfl⟩
        exact ⟨rfl, bound⟩
      · rintro ⟨rfl, bound⟩
        exact ⟨length, ⟨rfl, by omega⟩, bound, rfl⟩

theorem path_shortest {v length : Nat} :
    Shortest (Edge false pathEdges) 0 v length ↔ v = length ∧ length ≤ 128 := by
  simp only [Shortest, path_walk]
  constructor
  · exact And.left
  · rintro ⟨rfl, bound⟩
    exact ⟨⟨rfl, bound⟩, fun other same => Nat.le_of_eq same.1⟩

/-- The last vertex of the path is too far away for a byte. -/
theorem not_search_dumps : ¬ ∀ (isUgraph : Bool) (edges : List (Nat × Nat)) (g : Graph)
    (ram0 ramData : List Byte) (startIdx : Nat) (run : Nat → Pe),
    loadGraph isUgraph (pairRows edges) = some g → ramInit g = some ram0 →
    startIdx < g.vertexNum → setNewStartVertex (Gl.layout g) startIdx ram0 = some ramData →
    Pe.Search (Gl.layout g) ramData run →
    ∃ csr td, CSR.ofPairs isUgraph edges = some csr ∧
      (∀ rounds, csr.vNum < rounds → tdBfs csr startIdx rounds = some td) ∧
      Pe.Dumps (Gl.layout g) run td.t.depth := by
  intro claim
  have within : ∀ pair ∈ pathEdges, pair.1 ≤ 128 ∧ pair.2 ≤ 128 := by
    intro pair listed
    obtain ⟨k, bound, rfl⟩ := List.mem_map.mp listed
    have := List.mem_range.mp bound
    exact ⟨by dsimp only; omega, by dsimp only; omega⟩
  have listed : (127, 128) ∈ pathEdges := List.mem_map.mpr ⟨381, by decide, rfl⟩
  obtain ⟨g, loaded, vertexNum, edgeNum⟩ := loadGraph_total within (by decide) listed rfl
  have edges : pathEdges.length = 384 := by simp [pathEdges]
  rw [edges] at edgeNum
  obtain ⟨ram0, ramData, initialized, _, started⟩ := @exists_started _ _ _ 0 loaded
    (by rw [edgeNum]; simp only [Gl.ramEnd, Gl.layout, vertexNum, edgeNum]; decide)
    (by rw [edgeNum]; decide) (by omega)
  obtain ⟨run, search⟩ := exists_search loaded initialized (by omega) started
    fun v length shortest => by
      have := (path_shortest.mp shortest).2
      omega
  obtain ⟨csr, td, constructed, finished, dumps⟩ :=
    claim false pathEdges g ram0 ramData 0 run loaded initialized (by omega) started search
  obtain rfl := Option.some.inj ((ofPairs_of_loaded loaded).symm.trans constructed)
  have inside : 128 < g.vertexNum := by omega
  obtain ⟨td', finished', result⟩ := tdBfs_spec (CSR.ofPairs_represents constructed)
    (show 0 < g.vertexNum by omega)
  obtain rfl := Option.some.inj ((finished _ (Nat.lt_succ_self _)).symm.trans
    (finished' _ (Nat.lt_succ_self _)))
  have stored := result.depths.eq_of_shortest inside (path_shortest.mpr ⟨rfl, Nat.le_refl 128⟩)
  have byte := search.le_of_dumps dumps _ (List.mem_of_getElem? stored)
  omega

end Search

end LevelPass

end GraphAccelerator
