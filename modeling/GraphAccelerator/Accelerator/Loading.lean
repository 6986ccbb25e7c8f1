import GraphAccelerator.Adjacency
import GraphAccelerator.Library.TextStream
import GraphAccelerator.Accelerator.Ram

/-!
# Loading a graph

The simulator parses the lines of a file into rows of integers, and trusts their shape.
The vertex count is the largest entry of all columns plus one, and the edge count is the
number of lines, doubled for an undirected graph, both in the arithmetic of `int`.
-/

namespace GraphAccelerator

open CheckedLoop TextStream

/-! ### Files -/

/-- The integers of a line, up to the first word that is none. -/
def loadRow (line : List Char) : Option (List Int) :=
  Stream.readAll (fun s => s.readInt 0) (line.length + 1) { text := line }

def loadFile (text : List Char) : Option (List (List Int)) := do
  let lines ← Stream.readAll Stream.getline (text.length + 1) { text }
  lines.mapM loadRow

namespace Graph

/-- The constructor with its `loadFile`. -/
def ofFile (isUgraph : Bool) (text : List Char) : Option Graph := do
  loadGraph isUgraph (← loadFile text)

/-- `edge_num` in the arithmetic of `int`. -/
def edgeNumInt (g : Graph) : Int := Int.bmod g.edgeNum (2 ^ 32)

end Graph

/-- A row that the constructor can add: its first two entries are not negative, and no
entry is the largest `int`. -/
structure ProperRow (row : List Int) : Prop where
  pair : 2 ≤ row.length
  nonneg : ∀ entry ∈ row.take 2, 0 ≤ entry
  small : ∀ entry ∈ row, entry < 2 ^ 31 - 1

section Rows

theorem mem_mapM {Item Value : Type} {step : Item → Option Value} {items : List Item}
    {values : List Value} (mapped : items.mapM step = some values) {value : Value}
    (member : value ∈ values) : ∃ item ∈ items, step item = some value := by
  obtain ⟨index, bound, rfl⟩ := List.getElem_of_mem member
  have same := mapM_forall₂ mapped
  have within : index < items.length := same.length_eq ▸ bound
  exact ⟨items[index], List.getElem_mem within, List.Forall₂.get same within bound⟩

theorem loadFile_total (text : List Char) : ∃ data, loadFile text = some data ∧
    ∀ row ∈ data, ∀ entry ∈ row, -2 ^ 31 ≤ entry ∧ entry < 2 ^ 31 := by
  obtain ⟨lines, read⟩ := @Stream.readAll_total _ Stream.getline
    (fun _ => Stream.getline_shortens) (text.length + 1) { text } (Nat.lt_succ_self _)
  have total : ∀ line, ∃ row, loadRow line = some row := fun line =>
    Stream.readAll_total (fun _ => Stream.readInt_shortens) (Nat.lt_succ_self _)
  obtain ⟨data, parsed⟩ := @mapM_total _ _ loadRow lines fun line _ => total line
  refine ⟨data, by simp [loadFile, read, parsed], fun row member => ?_⟩
  obtain ⟨line, _, row⟩ := mem_mapM parsed member
  exact Stream.readAll_forall (fun _ => Stream.readInt_range) row

theorem getMaxIdx_spec {data : List (List Int)} {maxIdx : Int}
    (found : Graph.getMaxIdx data = some maxIdx) :
    (∀ row ∈ data, ∀ entry ∈ row, entry ≤ maxIdx) ∧ ∃ row ∈ data, maxIdx ∈ row := by
  simp only [Graph.getMaxIdx, Graph.getMaxIdx_flatten, Option.bind_eq_bind,
    Option.bind_eq_some_iff] at found
  obtain ⟨first, starts, start, present, found⟩ := found
  obtain ⟨_, all, attained⟩ := Graph.foldl_max_spec data.flatten start
  obtain rfl := Option.some.inj found
  refine ⟨fun row member entry within => all entry (List.mem_flatten.mpr ⟨row, member, within⟩), ?_⟩
  rcases attained with same | within
  · rw [same]
    exact ⟨first, List.mem_of_getElem? starts, List.mem_of_getElem? present⟩
  · exact List.mem_flatten.mp within

theorem addRow_cases {isUgraph : Bool} {vertices after : List Vertex} {row : List Int}
    (added : Graph.addRow isUgraph vertices row = some after) :
    vertices ≠ [] ∧
      ∃ (src dst : Nat) (others : List Int), row = (src : Int) :: (dst : Int) :: others := by
  simp only [Graph.addRow, Option.bind_eq_bind, Option.bind_eq_some_iff] at added
  obtain ⟨first, present, src, isSrc, second, present', dst, isDst, out, pushed, _⟩ := added
  obtain rfl := Int.mem_toNat?.mp isSrc
  obtain rfl := Int.mem_toNat?.mp isDst
  constructor
  · rintro rfl
    simp [Graph.pushOut] at pushed
  · rcases row with _ | ⟨_, _ | ⟨_, others⟩⟩
    · cases present
    · cases present'
    · obtain rfl := Option.some.inj present
      obtain rfl := Option.some.inj present'
      exact ⟨src, dst, others, rfl⟩

theorem addRows_cases {isUgraph : Bool} {vertices after : List Vertex} {data : List (List Int)}
    (added : data.foldlM (Graph.addRow isUgraph) vertices = some after) :
    ∀ row ∈ data, 2 ≤ row.length ∧ ∀ entry ∈ row.take 2, 0 ≤ entry := by
  refine foldlM_invariant (fun done (_ : List Vertex) => ∀ row ∈ done,
    2 ≤ row.length ∧ ∀ entry ∈ row.take 2, 0 ≤ entry) added (by simp) ?_
  intro done row rest vertices next _ before stepped other membership
  rcases List.mem_append.mp membership with old | new
  · exact before other old
  · obtain rfl := List.mem_singleton.mp new
    obtain ⟨_, src, dst, others, rfl⟩ := addRow_cases stepped
    simp

theorem addRows_pairRows (isUgraph : Bool) {data : List (List Int)}
    (pairs : ∀ row ∈ data, 2 ≤ row.length ∧ ∀ entry ∈ row.take 2, 0 ≤ entry) :
    ∃ edges : List (Nat × Nat), edges.length = data.length ∧
      (∀ vertices, data.foldlM (Graph.addRow isUgraph) vertices =
        (pairRows edges).foldlM (Graph.addRow isUgraph) vertices) ∧
      ∀ pair ∈ edges, ∃ row ∈ data, (pair.1 : Int) ∈ row ∧ (pair.2 : Int) ∈ row := by
  induction data with
  | nil => exact ⟨[], rfl, fun _ => rfl, nofun⟩
  | cons row data inductionHypothesis =>
      obtain ⟨edges, count, same, within⟩ :=
        inductionHypothesis fun other later => pairs other (List.mem_cons_of_mem _ later)
      obtain ⟨length, nonneg⟩ := pairs row List.mem_cons_self
      rcases row with _ | ⟨first, _ | ⟨second, others⟩⟩
      · cases length
      · simp at length
      · obtain ⟨src, rfl⟩ := Int.eq_ofNat_of_zero_le (nonneg first (by simp))
        obtain ⟨dst, rfl⟩ := Int.eq_ofNat_of_zero_le (nonneg second (by simp))
        refine ⟨(src, dst) :: edges, by simp [count], fun vertices => ?_, fun pair member => ?_⟩
        · simp only [pairRows, List.map_cons, List.foldlM_cons] at same ⊢
          exact bind_congr fun vertices => same vertices
        · rcases List.mem_cons.mp member with rfl | later
          · exact ⟨_, List.mem_cons_self, by simp, by simp⟩
          · obtain ⟨row, member, both⟩ := within pair later
            exact ⟨row, List.mem_cons_of_mem _ member, both⟩

end Rows

section Safety

variable {isUgraph : Bool} {data : List (List Int)}

theorem edge_bound {edges : List (Nat × Nat)} {vertexNum u v : Nat}
    (bound : ∀ pair ∈ edges, pair.1 < vertexNum ∧ pair.2 < vertexNum)
    (edge : Edge isUgraph edges u v) : u < vertexNum ∧ v < vertexNum := by
  rcases edge with forward | ⟨_, backward⟩
  · exact bound _ forward
  · exact (bound _ backward).symm

theorem pairs_bound {edges : List (Nat × Nat)} {maxIdx : Int}
    (found : Graph.getMaxIdx data = some maxIdx)
    (within : ∀ pair ∈ edges, ∃ row ∈ data, (pair.1 : Int) ∈ row ∧ (pair.2 : Int) ∈ row) :
    ∀ pair ∈ edges, pair.1 < (maxIdx + 1).toNat ∧ pair.2 < (maxIdx + 1).toNat := by
  obtain ⟨largest, _⟩ := getMaxIdx_spec found
  intro pair membership
  obtain ⟨row, member, first, second⟩ := within pair membership
  have := largest row member _ first
  have := largest row member _ second
  omega

theorem ofRows_proper {maxIdx : Int} (proper : ∀ row ∈ data, ProperRow row)
    (found : Graph.getMaxIdx data = some maxIdx) :
    ∃ vertices, data.foldlM (Graph.addRow isUgraph)
        ((List.range (Int.bmod (maxIdx + 1) (2 ^ 32)).toNat).map fun i => { idx := i }) =
          some vertices ∧
      ∀ v ∈ vertices, ∀ w ∈ v.outVid ++ v.inVid, w < (Int.bmod (maxIdx + 1) (2 ^ 32)).toNat := by
  obtain ⟨largest, row, member, attained⟩ := getMaxIdx_spec found
  obtain ⟨edges, _, same, within⟩ := addRows_pairRows isUgraph fun row member =>
    ⟨(proper row member).pair, (proper row member).nonneg⟩
  have small := (proper row member).small maxIdx attained
  have nonneg : 0 ≤ maxIdx := by
    have pair := (proper row member).pair
    have first := (proper row member).nonneg row[0] (by
      rw [List.mem_take_iff_getElem]
      exact ⟨0, by omega, rfl⟩)
    exact first.trans (largest row member _ (List.getElem_mem _))
  have fits : Int.bmod (maxIdx + 1) (2 ^ 32) = maxIdx + 1 :=
    Int.bmod_eq_of_le (by omega) (by omega)
  have bound := pairs_bound found within
  have stored := Graph.addRows_store isUgraph (fun _ => []) (fun _ => []) edges bound
  simp only [List.nil_append] at stored
  refine ⟨_, by rw [fits, same]; exact stored, fun v membership w neighbour => ?_⟩
  obtain ⟨u, _, rfl⟩ := List.mem_map.mp membership
  rw [fits]
  rcases List.mem_append.mp neighbour with out | inn
  · exact (edge_bound bound (mem_outNgbs.mp out)).2
  · exact (edge_bound bound (mem_inNgbs.mp inn)).1

/-- On every file, loading either leaves a graph all of whose stored neighbours are
vertices, or accesses something outside a vector: it depends on the rows alone. -/
theorem ofFile_safe_iff (isUgraph : Bool) (text : List Char) :
    ∃ data, loadFile text = some data ∧
      ((∃ g, Graph.ofFile isUgraph text = some g ∧
          ∀ v ∈ g.vertices, ∀ w ∈ v.outVid ++ v.inVid, w < g.vertexNum) ↔
        data ≠ [] ∧ ∀ row ∈ data, ProperRow row) := by
  obtain ⟨data, loaded, range⟩ := loadFile_total text
  refine ⟨data, loaded, ?_, ?_⟩
  · rintro ⟨g, constructed, _⟩
    simp only [Graph.ofFile, loaded, loadGraph, Graph.ofRows, Option.bind_eq_bind,
      Option.bind_some, Option.bind_eq_some_iff] at constructed
    obtain ⟨maxIdx, found, vertices, added, _⟩ := constructed
    obtain ⟨largest, last, lastMember, attained⟩ := getMaxIdx_spec found
    have rows := addRows_cases added
    have nonempty : data ≠ [] := List.ne_nil_of_mem lastMember
    refine ⟨nonempty, fun row member => ⟨(rows row member).1, (rows row member).2, ?_⟩⟩
    by_contra large
    push Not at large
    obtain ⟨entry, within, large⟩ := large
    -- the count of the vertices overflows, and there is no vertex for the first row
    have top : maxIdx = 2 ^ 31 - 1 := by
      have := largest row member entry within
      have := (range last lastMember maxIdx attained).2
      omega
    obtain ⟨first, rest, rfl⟩ := List.exists_cons_of_ne_nil nonempty
    rw [top, List.foldlM_cons, Option.bind_eq_bind, Option.bind_eq_some_iff] at added
    obtain ⟨next, stepped, _⟩ := added
    exact (addRow_cases stepped).1 rfl
  · rintro ⟨nonempty, proper⟩
    obtain ⟨first, rest, rfl⟩ := List.exists_cons_of_ne_nil nonempty
    have length := (proper first List.mem_cons_self).pair
    obtain ⟨maxIdx, found⟩ : ∃ maxIdx, Graph.getMaxIdx (first :: rest) = some maxIdx :=
      ⟨_, by
        simp only [Graph.getMaxIdx, List.getElem?_cons_zero, Option.bind_eq_bind, Option.bind_some,
          List.getElem?_eq_getElem (show 0 < first.length by omega), Option.pure_def]
        rfl⟩
    obtain ⟨vertices, added, within⟩ := @ofRows_proper isUgraph _ _ proper found
    refine ⟨_, by
      simp only [Graph.ofFile, loaded, loadGraph, Graph.ofRows, found, added,
        Option.bind_eq_bind, Option.bind_some]
      rfl, fun v membership => ?_⟩
    obtain ⟨u, inside, rfl⟩ := List.mem_map.mp membership
    exact within u inside

/-- Every graph that is loaded is built from the pairs at the beginning of its rows. -/
theorem loadGraph_rows {g : Graph} (loaded : loadGraph isUgraph data = some g) :
    ∃ edges, g.BuiltFrom isUgraph edges ∧
      g.edgeNum = if isUgraph then edges.length * 2 else edges.length := by
  simp only [loadGraph, Graph.ofRows, Option.bind_eq_bind, Option.bind_eq_some_iff] at loaded
  obtain ⟨maxIdx, found, vertices, added, loaded⟩ := loaded
  obtain rfl := Option.some.inj loaded
  obtain ⟨edges, count, same, _⟩ := addRows_pairRows isUgraph (addRows_cases added)
  rw [same] at added
  have bound := Graph.addRows_length isUgraph added
  simp only [List.length_map, List.length_range] at bound
  have stored := Graph.addRows_store isUgraph (fun _ => []) (fun _ => []) edges bound
  obtain rfl := Option.some.inj (added.symm.trans stored)
  exact ⟨edges, ⟨rfl, bound⟩, by rw [count]⟩

theorem ofFile_blank : ¬ ∃ g, Graph.ofFile true ['0', ' ', '1', '\n', '\n'] = some g ∧
    ∀ v ∈ g.vertices, ∀ w ∈ v.outVid ++ v.inVid, w < g.vertexNum := by
  rintro ⟨g, constructed, _⟩
  have fault : Graph.ofFile true ['0', ' ', '1', '\n', '\n'] = none := by decide +kernel
  rw [fault] at constructed
  cases constructed

end Safety

section EdgeNum

theorem bmod_count_iff {count stored missing : Nat} (split : stored + missing = count)
    (half : 2 * missing ≤ count) :
    Int.bmod count (2 ^ 32) = stored ↔ missing = 0 ∧ count < 2 ^ 31 := by
  constructor
  · intro same
    rw [Int.bmod] at same
    split at same
    · omega
    · omega
  · rintro ⟨rfl, fits⟩
    rw [Int.bmod_eq_of_le (by omega) (by omega)]
    omega

theorem sum_bmod {counts : List Nat} (fits : counts.sum < 2 ^ 31) :
    (counts.map fun count : Nat => Int.bmod count (2 ^ 32)).sum = (counts.sum : Int) := by
  induction counts with
  | nil => rfl
  | cons count counts inductionHypothesis =>
      rw [List.sum_cons] at fits
      rw [List.map_cons, List.sum_cons, inductionHypothesis (by omega),
        Int.bmod_eq_of_le (by omega) (by omega), List.sum_cons]
      push_cast
      rfl

/-- The edge count is the number of the stored edges, and the sum of the out-degrees and of
the in-degrees, of which each is an `int`. -/
structure Graph.EdgeCounted (g : Graph) : Prop where
  outStored : g.edgeNumInt = (g.vertices.map (·.outVid.length)).sum
  inStored : g.edgeNumInt = (g.vertices.map (·.inVid.length)).sum
  outDegrees : g.edgeNumInt = (g.vertices.map fun v => Int.bmod v.outDeg (2 ^ 32)).sum
  inDegrees : g.edgeNumInt = (g.vertices.map fun v => Int.bmod v.inDeg (2 ^ 32)).sum

theorem edgeCounted_iff {g : Graph} {isUgraph : Bool} {edges : List (Nat × Nat)}
    (built : g.BuiltFrom isUgraph edges) :
    g.EdgeCounted ↔ g.edgeNumInt = storedEntries isUgraph edges := by
  have outSum := built.sum_outDeg
  have inSum := built.sum_inDeg
  have outStored : (g.vertices.map (·.outVid.length)).sum = storedEntries isUgraph edges := by
    rw [← outSum, built.degrees.1, List.map_map]
    rfl
  have inStored : (g.vertices.map (·.inVid.length)).sum = storedEntries isUgraph edges := by
    rw [← inSum, built.degrees.2, List.map_map]
    rfl
  constructor
  · intro counted
    rw [counted.outStored, outStored]
  · intro same
    have fits : storedEntries isUgraph edges < 2 ^ 31 := by
      have below := @Int.bmod_lt g.edgeNum (2 ^ 32) (by decide)
      have counted : Int.bmod g.edgeNum (2 ^ 32) = storedEntries isUgraph edges := same
      omega
    have outInts := sum_bmod (outSum ▸ fits)
    have inInts := sum_bmod (inSum ▸ fits)
    simp only [List.map_map, Function.comp_def, outSum] at outInts
    simp only [List.map_map, Function.comp_def, inSum] at inInts
    exact ⟨by rw [same, outStored], by rw [same, inStored], by rw [same, outInts],
      by rw [same, inInts]⟩

/-- A file of pairs makes a graph whose edge count is that of the stored edges exactly when
no index is the largest `int`, no line is counted twice but stored once, and the count is an
`int`. -/
theorem edgeNum_counts_iff (isUgraph : Bool) {edges : List (Nat × Nat)} (nonempty : edges ≠ []) :
    (∃ g, loadGraph isUgraph (pairRows edges) = some g ∧ g.EdgeCounted) ↔
      (∀ pair ∈ edges, pair.1 < 2 ^ 31 - 1 ∧ pair.2 < 2 ^ 31 - 1) ∧
        (isUgraph = true → ∀ pair ∈ edges, pair.1 ≠ pair.2) ∧
          (if isUgraph then edges.length * 2 else edges.length) < 2 ^ 31 := by
  have stored := storedEntries_eq isUgraph edges
  have counts : ∀ g, loadGraph isUgraph (pairRows edges) = some g → (g.EdgeCounted ↔
      (isUgraph = true → ∀ pair ∈ edges, pair.1 ≠ pair.2) ∧
        (if isUgraph then edges.length * 2 else edges.length) < 2 ^ 31) := by
    intro g loaded
    have count := (Graph.builtFrom_of_ofRows loaded).1
    rw [pairRows, List.length_map] at count
    have counted : g.EdgeCounted ↔ Int.bmod g.edgeNum (2 ^ 32) = storedEntries isUgraph edges :=
      edgeCounted_iff (loadGraph_builtFrom loaded)
    rw [counted, count]
    cases isUgraph with
    | false =>
        have all : storedEntries false edges + 0 = edges.length := stored
        refine (bmod_count_iff all (Nat.zero_le _)).trans (and_congr_left' ?_)
        simp
    | true =>
        have atMost := @List.countP_le_length _ (fun pair : Nat × Nat => pair.1 == pair.2) edges
        refine (bmod_count_iff stored ?_).trans (and_congr_left' ?_)
        · rw [if_pos rfl, if_pos rfl]
          omega
        · simp
  constructor
  · rintro ⟨g, loaded, counted⟩
    exact ⟨Graph.ofRows_small loaded, (counts g loaded).mp counted⟩
  · rintro ⟨indices, counted⟩
    obtain ⟨g, loaded⟩ := Graph.ofRows_pairRows isUgraph
      (if isUgraph then (pairRows edges).length * 2 else (pairRows edges).length) nonempty indices
    exact ⟨g, loaded, (counts g loaded).mpr counted⟩

theorem edgeNum_counts_directed : ∃ g,
    loadGraph false (pairRows [(0, 0), (0, 1), (0, 1)]) = some g ∧ g.EdgeCounted :=
  (@edgeNum_counts_iff false [(0, 0), (0, 1), (0, 1)] (by simp)).mpr
    ⟨by decide, by simp, by decide⟩

/-- A loop in an undirected graph is counted twice. -/
theorem edgeNum_counts_loop : ∃ g, loadGraph true (pairRows [(0, 0)]) = some g ∧
    g.edgeNumInt = 2 ∧ (g.vertices.map (·.outVid.length)).sum = 1 ∧ ¬ g.EdgeCounted := by
  refine ⟨_, rfl, rfl, rfl, fun counted => ?_⟩
  exact absurd counted.outStored (by decide)

end EdgeNum

end GraphAccelerator
