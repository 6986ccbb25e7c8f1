import GraphAccelerator.Bfs.Csr
import GraphAccelerator.Accelerator.Ram

/-!
# The regions of the memory image

`ramInit` writes six regions one after the other.  When they fit, each keeps what was
written to it, and reading it back gives the arrays of the software search.  The size
of the image only depends on the number of edges, and it is computed as an `int`: on
most sparse graphs, and on graphs with 2 ^ 27 edges or more, the regions do not fit.
-/

namespace GraphAccelerator

open CheckedLoop Memory Bfs

/-- `getSingleDataFromRam<char>` -/
def getCharFromRam (ramData : List Byte) (addr : Nat) : Option Int := do
  return (← ramData[addr]?).toInt

/-- `getSingleDataFromRam<int>` -/
def getIntFromRam (ramData : List Byte) (addr : Nat) : Option Int := do
  let bytes ← (List.range 4).mapM fun i => ramData[addr + i]?
  (toInts bytes).head?

/-- The size of `ramData`, in the arithmetic of `int`. -/
def ramSize (g : Graph) : Int := Int.bmod (g.edgeNum * 4 * 4) (2 ^ 32)

def Gl.ramEnd (gl : Gl) : Nat := gl.frontierMemAddr + 4 * gl.vertexNum

structure Region where
  addr : Nat
  bytes : List Byte

def regions (g : Graph) : List Region :=
  let gl := Gl.layout g
  [⟨gl.depthMemAddr, (List.replicate g.vertexNum (-1)).flatMap charBytes⟩,
    ⟨gl.rpaoMemAddr, ((CSR.ofGraph g).rpao.map Int.ofNat).flatMap intBytes⟩,
    ⟨gl.ciaoMemAddr, ((CSR.ofGraph g).ciao.map Int.ofNat).flatMap intBytes⟩,
    ⟨gl.rpaiMemAddr, ((CSR.ofGraph g).rpai.map Int.ofNat).flatMap intBytes⟩,
    ⟨gl.ciaiMemAddr, ((CSR.ofGraph g).ciai.map Int.ofNat).flatMap intBytes⟩,
    ⟨gl.frontierMemAddr, (List.replicate g.vertexNum (-1)).flatMap intBytes⟩]

def Region.Before (first second : Region) : Prop := first.addr + first.bytes.length ≤ second.addr

def Region.Stored (ramData : List Byte) (r : Region) : Prop :=
  ∀ k, k < r.bytes.length → ramData[r.addr + k]? = r.bytes[k]?

theorem ramInit_eq {g : Graph} (fits : g.edgeNum * 4 * 4 < 2 ^ 31) :
    ramInit g = (regions g).foldlM (fun ramData r => updateRam ramData r.addr r.bytes)
      (List.replicate (g.edgeNum * 4 * 4) 0) := by
  simp only [ramInit, if_pos fits, fillMem_eq, regions, List.foldlM_cons, List.foldlM_nil,
    Option.bind_eq_bind, Option.pure_def, Option.bind_fun_some, CSR.ofGraph]

section Regions

theorem updateRam_total {bytes : List Byte} {addr : Nat} {ramData : List Byte}
    (inside : addr + bytes.length ≤ ramData.length) :
    ∃ after, updateRam ramData addr bytes = some after := by
  induction bytes generalizing addr ramData with
  | nil => exact ⟨ramData, rfl⟩
  | cons byte bytes inductionHypothesis =>
      rw [List.length_cons] at inside
      obtain ⟨after, updated⟩ := @inductionHypothesis (addr + 1) (ramData.set addr byte)
        (by rw [List.length_set]; omega)
      exact ⟨after, by simp [updateRam, List.getElem?_eq_getElem (show addr < ramData.length by omega),
        updated]⟩

/-- Regions that follow each other are all kept, and nothing else changes. -/
theorem updateRegions_spec {rs : List Region} {ramData after : List Byte}
    (apart : rs.Pairwise Region.Before)
    (ran : rs.foldlM (fun ramData r => updateRam ramData r.addr r.bytes) ramData = some after) :
    after.length = ramData.length ∧ (∀ r ∈ rs, r.Stored after) ∧
      ∀ i, (∀ r ∈ rs, i < r.addr ∨ r.addr + r.bytes.length ≤ i) → after[i]? = ramData[i]? := by
  induction rs generalizing ramData with
  | nil =>
      obtain rfl := Option.some.inj ran
      exact ⟨rfl, nofun, fun _ _ => rfl⟩
  | cons r rs inductionHypothesis =>
      obtain ⟨first, later⟩ := List.pairwise_cons.mp apart
      rw [List.foldlM_cons, Option.bind_eq_bind, Option.bind_eq_some_iff] at ran
      obtain ⟨next, updated, ran⟩ := ran
      obtain ⟨length, contents⟩ := updateRam_spec updated
      obtain ⟨length', stored, others⟩ := inductionHypothesis later ran
      refine ⟨length'.trans length, ?_, ?_⟩
      · intro other membership
        rcases List.mem_cons.mp membership with rfl | behind
        · intro k bound
          rw [others _ fun region membership => .inl (by
              have := first region membership
              rw [Region.Before] at this
              omega),
            contents, if_pos (by omega), Nat.add_sub_cancel_left]
        · exact stored other behind
      · intro i outside
        rw [others i fun region membership => outside region (List.mem_cons_of_mem _ membership),
          contents, if_neg (by have := outside r (by simp); omega)]

theorem updateRegions_total {rs : List Region} {ramData : List Byte}
    (inside : ∀ r ∈ rs, r.addr + r.bytes.length ≤ ramData.length) :
    ∃ after, rs.foldlM (fun ramData r => updateRam ramData r.addr r.bytes) ramData =
      some after := by
  induction rs generalizing ramData with
  | nil => exact ⟨ramData, rfl⟩
  | cons r rs inductionHypothesis =>
      obtain ⟨next, updated⟩ := updateRam_total (inside r (by simp))
      have length := (updateRam_spec updated).1
      obtain ⟨after, ran⟩ := @inductionHypothesis next fun other membership =>
        length ▸ inside other (List.mem_cons_of_mem _ membership)
      exact ⟨after, by rw [List.foldlM_cons, updated]; exact ran⟩

end Regions

section Layout

variable {g : Graph}

theorem alignMyself_eq (addr : Nat) : alignMyself addr = 256 * ((addr + 255) / 256) := by
  have mask : addr &&& 0xFF = addr % 256 := Nat.and_two_pow_sub_one_eq_mod addr 8
  rw [alignMyself, mask, Nat.shiftRight_eq_div_pow, Nat.shiftLeft_eq]
  split <;> omega

theorem regions_before (vertices : g.vertices.length = g.vertexNum)
    (outgoing : outCount g.vertices ≤ g.edgeNum) (incoming : inCount g.vertices ≤ g.edgeNum) :
    (regions g).Pairwise Region.Before ∧
      ∀ r ∈ regions g, r.addr + r.bytes.length ≤ (Gl.layout g).ramEnd := by
  have address1 := alignMyself_ge g.vertexNum
  have address2 := alignMyself_ge ((Gl.layout g).rpaoMemAddr + 4 * (g.vertexNum + 1))
  have address3 := alignMyself_ge ((Gl.layout g).ciaoMemAddr + 4 * g.edgeNum)
  have address4 := alignMyself_ge ((Gl.layout g).rpaiMemAddr + 4 * (g.vertexNum + 1))
  have address5 := alignMyself_ge ((Gl.layout g).ciaiMemAddr + 4 * g.edgeNum)
  change g.vertexNum ≤ (Gl.layout g).rpaoMemAddr at address1
  change _ ≤ (Gl.layout g).ciaoMemAddr at address2
  change _ ≤ (Gl.layout g).rpaiMemAddr at address3
  change _ ≤ (Gl.layout g).ciaiMemAddr at address4
  change _ ≤ (Gl.layout g).frontierMemAddr at address5
  have origin : (Gl.layout g).depthMemAddr = 0 := rfl
  have depths : ((List.replicate g.vertexNum (-1)).flatMap charBytes).length = g.vertexNum := by
    simp [charBytes]
  have pointers : (CSR.ofGraph g).rpao.length = g.vertexNum + 1 ∧
      (CSR.ofGraph g).rpai.length = g.vertexNum + 1 := by
    simp [CSR.ofGraph, vertices]
  have columns : (CSR.ofGraph g).ciao.length ≤ g.edgeNum ∧
      (CSR.ofGraph g).ciai.length ≤ g.edgeNum := ⟨outgoing, incoming⟩
  have number : (Gl.layout g).vertexNum = g.vertexNum := rfl
  simp only [regions, List.pairwise_cons, List.mem_cons, List.not_mem_nil, or_false,
    forall_eq_or_imp, forall_eq, Region.Before, flatMap_intBytes_length, List.length_map,
    List.length_replicate, depths, Gl.ramEnd, number, false_implies, implies_true,
    List.Pairwise.nil, and_true]
  omega

theorem regions_aligned : ∀ r ∈ regions g, 256 ∣ r.addr := by
  have aligned : ∀ addr, 256 ∣ alignMyself addr := fun addr =>
    ⟨(addr + 255) / 256, alignMyself_eq addr⟩
  simp only [regions, List.mem_cons, List.not_mem_nil, or_false, forall_eq_or_imp, forall_eq]
  exact ⟨Nat.dvd_zero 256, aligned _, aligned _, aligned _, aligned _, aligned _⟩

theorem ramInit_total (vertices : g.vertices.length = g.vertexNum)
    (outgoing : outCount g.vertices ≤ g.edgeNum) (incoming : inCount g.vertices ≤ g.edgeNum)
    (fits : (Gl.layout g).ramEnd ≤ g.edgeNum * 4 * 4) (size : g.edgeNum * 4 * 4 < 2 ^ 31) :
    ∃ ramData, ramInit g = some ramData ∧ ramData.length = g.edgeNum * 4 * 4 ∧
      ∀ r ∈ regions g, r.Stored ramData := by
  obtain ⟨apart, inside⟩ := regions_before vertices outgoing incoming
  obtain ⟨after, ran⟩ := @updateRegions_total (regions g)
    (List.replicate (g.edgeNum * 4 * 4) 0) fun r membership => by
      rw [List.length_replicate]
      exact Nat.le_trans (inside r membership) fits
  obtain ⟨length, stored, _⟩ := updateRegions_spec apart ran
  exact ⟨after, by rw [ramInit_eq size, ran], by rw [length, List.length_replicate], stored⟩

theorem ramInit_regions (vertices : g.vertices.length = g.vertexNum)
    (outgoing : outCount g.vertices ≤ g.edgeNum) (incoming : inCount g.vertices ≤ g.edgeNum)
    {ramData : List Byte} (initialized : ramInit g = some ramData) :
    ramData.length = g.edgeNum * 4 * 4 ∧ (∀ r ∈ regions g, r.Stored ramData) ∧
      ∀ i, i < ramData.length → (∀ r ∈ regions g, i < r.addr ∨ r.addr + r.bytes.length ≤ i) →
        ramData[i]? = some 0 := by
  have size : g.edgeNum * 4 * 4 < 2 ^ 31 := by
    by_contra large
    rw [ramInit, if_neg large] at initialized
    cases initialized
  rw [ramInit_eq size] at initialized
  obtain ⟨length, stored, others⟩ :=
    updateRegions_spec (regions_before vertices outgoing incoming).1 initialized
  rw [List.length_replicate] at length
  refine ⟨length, stored, fun i inside outside => ?_⟩
  rw [others i outside, List.getElem?_replicate, if_pos (length ▸ inside)]

theorem ramSize_eq (g : Graph) :
    ramSize g = if (g.edgeNum * 16 : Int) % 4294967296 < 2147483648
      then (g.edgeNum * 16 : Int) % 4294967296
      else (g.edgeNum * 16 : Int) % 4294967296 - 4294967296 := by
  have modulus : (2 ^ 32 : Nat) = 4294967296 := by norm_num
  unfold ramSize
  rw [modulus, Int.bmod_def, Int.mul_assoc]
  push_cast
  norm_num

/-- What does not fit an `int` is too small for the layout. -/
theorem ramSize_of_fits (counts : g.edgeNum < 2 ^ 31)
    (fits : ((Gl.layout g).ramEnd : Int) ≤ ramSize g) :
    g.edgeNum * 4 * 4 < 2 ^ 31 ∧ ramSize g = (g.edgeNum * 4 * 4 : Nat) := by
  have address3 := alignMyself_ge ((Gl.layout g).ciaoMemAddr + 4 * g.edgeNum)
  have address4 := alignMyself_ge ((Gl.layout g).rpaiMemAddr + 4 * (g.vertexNum + 1))
  have address5 := alignMyself_ge ((Gl.layout g).ciaiMemAddr + 4 * g.edgeNum)
  change _ ≤ (Gl.layout g).rpaiMemAddr at address3
  change _ ≤ (Gl.layout g).ciaiMemAddr at address4
  change _ ≤ (Gl.layout g).frontierMemAddr at address5
  have reserved : 8 * g.edgeNum + 4 ≤ (Gl.layout g).ramEnd := by
    rw [Gl.ramEnd]
    omega
  rw [ramSize_eq] at fits ⊢
  split at fits <;> omega

end Layout

section Reading

variable {ramData : List Byte} {addr i : Nat}

theorem toInts_intBytes_any (value : Int) :
    toInts (intBytes value) = [(BitVec.ofInt 32 value).toInt] := by
  simp only [intBytes, toInts, word_of_bytes]

theorem getIntFromRam_stored {values : List Int}
    (stored : Region.Stored ramData ⟨addr, values.flatMap intBytes⟩) {value : Int}
    (present : values[i]? = some value) :
    getIntFromRam ramData (addr + 4 * i) = some (BitVec.ofInt 32 value).toInt := by
  obtain ⟨bound, rfl⟩ := List.getElem?_eq_some_iff.mp present
  have bytes : ∀ j, j < 4 → ramData[addr + 4 * i + j]? = (intBytes values[i])[j]? := by
    intro j small
    have split : (values.flatMap intBytes)[4 * i + j]? = (intBytes values[i])[j]? := by
      rw [← List.getElem?_drop, drop_flatMap_intBytes, List.drop_eq_getElem_cons bound,
        List.flatMap_cons, List.getElem?_append_left (by simpa using small)]
    rw [Nat.add_assoc, stored _ (by rw [flatMap_intBytes_length]; omega), split]
  have range : List.range 4 = [0, 1, 2, 3] := rfl
  have read : (List.range 4).mapM (fun j => ramData[addr + 4 * i + j]?) =
      some (intBytes values[i]) := by
    have first := bytes 0 (by decide)
    rw [Nat.add_zero] at first
    simp [range, bytes, first, intBytes]
  rw [getIntFromRam, read, Option.bind_eq_bind, Option.bind_some, toInts_intBytes_any,
    List.head?_cons]

theorem getCharFromRam_stored {count : Nat} {value : Int}
    (stored : Region.Stored ramData ⟨addr, (List.replicate count value).flatMap charBytes⟩)
    (bound : i < count) :
    getCharFromRam ramData (addr + i) = some (BitVec.ofInt 8 value).toInt := by
  have bytes : (List.replicate count value).flatMap charBytes =
      List.replicate count (BitVec.ofInt 8 value) := by
    rw [List.flatMap_replicate]
    exact List.flatten_replicate_singleton
  rw [bytes] at stored
  have same := stored i (by simpa using bound)
  rw [List.getElem?_replicate, if_pos bound] at same
  rw [getCharFromRam, same]
  rfl

theorem getIntFromRam_nat {values : List Nat} (small : ∀ value ∈ values, value < 2 ^ 31)
    (stored : Region.Stored ramData ⟨addr, (values.map Int.ofNat).flatMap intBytes⟩)
    (bound : i < values.length) :
    getIntFromRam ramData (addr + 4 * i) = values[i]?.map Int.ofNat := by
  have fits := small values[i] (List.getElem_mem bound)
  rw [getIntFromRam_stored stored (by rw [List.getElem?_map, List.getElem?_eq_getElem bound,
    Option.map_some]), List.getElem?_eq_getElem bound, Option.map_some, BitVec.toInt_ofInt,
    Int.ofNat_eq_natCast, Int.bmod_eq_of_le (by omega) (by omega)]

end Reading

section Loaded

variable {isUgraph : Bool} {edges : List (Nat × Nat)} {g : Graph}

theorem rows_small {limit : Nat} (field : Vertex → List Nat) (deg : Vertex → Nat)
    (degrees : g.vertices.map deg = (g.vertices.map field).map List.length)
    (count : (g.vertices.flatMap field).length < limit)
    (entries : ∀ v ∈ g.vertices, ∀ x ∈ field v, x < limit) :
    (∀ value ∈ (g.vertices.map deg).scanl (· + ·) 0, value < limit) ∧
      ∀ value ∈ g.vertices.flatMap field, value < limit := by
  refine ⟨fun value pointer => ?_, fun value column => ?_⟩
  · rw [degrees] at pointer
    have := SparseRows.le_of_mem_pointers pointer
    rw [← List.flatMap_def] at this
    omega
  · obtain ⟨v, vertex, neighbour⟩ := List.mem_flatMap.mp column
    exact entries v vertex value neighbour

theorem built_small (built : g.BuiltFrom isUgraph edges) {limit : Nat}
    (outgoing : outCount g.vertices < limit) (incoming : inCount g.vertices < limit)
    (vertices : g.vertexNum ≤ limit) :
    (∀ value ∈ (CSR.ofGraph g).rpao, value < limit) ∧
      (∀ value ∈ (CSR.ofGraph g).ciao, value < limit) ∧
      (∀ value ∈ (CSR.ofGraph g).rpai, value < limit) ∧
      ∀ value ∈ (CSR.ofGraph g).ciai, value < limit := by
  have out := @rows_small g limit (·.outVid) (·.outDeg)
    (by simp [built.vertices, Graph.store, Graph.setDegrees, Function.comp_def]) outgoing (by
      intro v vertex x neighbour
      rw [built.vertices, Graph.store, List.map_map, List.mem_map] at vertex
      obtain ⟨u, _, rfl⟩ := vertex
      have := (built.edge_lt (mem_outNgbs.mp neighbour)).2
      omega)
  have inn := @rows_small g limit (·.inVid) (·.inDeg)
    (by simp [built.vertices, Graph.store, Graph.setDegrees, Function.comp_def]) incoming (by
      intro v vertex x neighbour
      rw [built.vertices, Graph.store, List.map_map, List.mem_map] at vertex
      obtain ⟨u, _, rfl⟩ := vertex
      have := (built.edge_lt (mem_inNgbs.mp neighbour)).1
      omega)
  exact ⟨out.1, out.2, inn.1, inn.2⟩

/-- The software search builds the same arrays from the file. -/
theorem ofPairs_of_loaded (loaded : loadGraph isUgraph (pairRows edges) = some g) :
    CSR.ofPairs isUgraph edges = some { CSR.ofGraph g with eNum := (pairRows edges).length } := by
  simp only [loadGraph, Graph.ofRows, Option.bind_eq_bind, Option.bind_eq_some_iff] at loaded
  obtain ⟨maxIdx, found, vertices, added, loaded⟩ := loaded
  obtain rfl := Option.some.inj loaded
  simp only [CSR.ofPairs, graph, Graph.ofRows, found, Option.bind_eq_bind, Option.bind_some, added,
    Option.pure_def, Option.map_some, CSR.ofGraph]

theorem loadGraph_total {last : Nat} (within : ∀ pair ∈ edges, pair.1 ≤ last ∧ pair.2 ≤ last)
    (small : last < 2 ^ 31 - 1) {pair : Nat × Nat} (listed : pair ∈ edges)
    (largest : pair.2 = last) :
    ∃ g, loadGraph false (pairRows edges) = some g ∧ g.vertexNum = last + 1 ∧
      g.edgeNum = edges.length := by
  obtain ⟨g, loaded⟩ := Graph.ofRows_pairRows false (pairRows edges).length
    (List.ne_nil_of_mem listed) fun pair membership => by
      have := within pair membership
      omega
  obtain ⟨edgeNum, _, built⟩ := Graph.builtFrom_of_ofRows loaded
  refine ⟨g, by rw [loadGraph, if_neg Bool.false_ne_true, loaded], ?_, by simp [edgeNum, pairRows]⟩
  have least := (built.bound pair listed).2
  simp only [Graph.ofRows, Option.bind_eq_bind, Option.bind_eq_some_iff] at loaded
  obtain ⟨maxIdx, found, _, _, same⟩ := loaded
  obtain rfl := Option.some.inj same
  obtain ⟨other, membership, entry⟩ := Graph.getMaxIdx_attained found
  have most := within other membership
  dsimp only at least ⊢
  rw [Int.bmod_eq_of_le (by omega) (by omega)] at least ⊢
  omega

theorem exists_started {startIdx : Nat} (loaded : loadGraph isUgraph (pairRows edges) = some g)
    (fits : (Gl.layout g).ramEnd ≤ g.edgeNum * 4 * 4) (size : g.edgeNum * 4 * 4 < 2 ^ 31)
    (bound : startIdx < g.vertexNum) :
    ∃ ram0 ramData, ramInit g = some ram0 ∧ ram0.length = g.edgeNum * 4 * 4 ∧
      setNewStartVertex (Gl.layout g) startIdx ram0 = some ramData := by
  obtain ⟨outgoing, incoming⟩ := loadGraph_counts loaded
  obtain ⟨ram0, initialized, length, _⟩ := ramInit_total
    (loadGraph_builtFrom loaded).vertices_length outgoing (incoming ▸ outgoing) fits size
  obtain ⟨ramData, started⟩ : ∃ ramData,
      setNewStartVertex (Gl.layout g) startIdx ram0 = some ramData := by
    refine updateRam_total ?_
    have number : (Gl.layout g).vertexNum = g.vertexNum := rfl
    have origin : (Gl.layout g).depthMemAddr = 0 := rfl
    have one : (charBytes 0).length = 1 := rfl
    rw [Gl.ramEnd] at fits
    omega
  exact ⟨ram0, ramData, initialized, length, started⟩

/-- When the image is large enough, `ramInit` fills it, its regions start at multiples of
256 and do not overlap, and every element is read back: -1 from the depths and the
frontier, and the arrays that the software search builds from the same file. -/
theorem ramInit_holds (loaded : loadGraph isUgraph (pairRows edges) = some g)
    (counts : g.edgeNum < 2 ^ 31) (fits : ((Gl.layout g).ramEnd : Int) ≤ ramSize g) :
    ∃ csr ramData, CSR.ofPairs isUgraph edges = some csr ∧ ramInit g = some ramData ∧
      (ramData.length : Int) = ramSize g ∧
      (∀ r ∈ regions g, 256 ∣ r.addr) ∧ (regions g).Pairwise Region.Before ∧
      (∀ i, i < g.vertexNum →
        getCharFromRam ramData ((Gl.layout g).depthMemAddr + i) = some (-1)) ∧
      (∀ i, i < csr.rpao.length →
        getIntFromRam ramData ((Gl.layout g).rpaoMemAddr + 4 * i) = csr.rpao[i]?.map Int.ofNat) ∧
      (∀ i, i < csr.ciao.length →
        getIntFromRam ramData ((Gl.layout g).ciaoMemAddr + 4 * i) = csr.ciao[i]?.map Int.ofNat) ∧
      (∀ i, i < csr.rpai.length →
        getIntFromRam ramData ((Gl.layout g).rpaiMemAddr + 4 * i) = csr.rpai[i]?.map Int.ofNat) ∧
      (∀ i, i < csr.ciai.length →
        getIntFromRam ramData ((Gl.layout g).ciaiMemAddr + 4 * i) = csr.ciai[i]?.map Int.ofNat) ∧
      ∀ i, i < g.vertexNum →
        getIntFromRam ramData ((Gl.layout g).frontierMemAddr + 4 * i) = some (-1) := by
  have built := loadGraph_builtFrom loaded
  obtain ⟨outgoing, incoming⟩ := loadGraph_counts loaded
  obtain ⟨size, same⟩ := ramSize_of_fits counts fits
  have number : (Gl.layout g).vertexNum = g.vertexNum := rfl
  obtain ⟨ramData, initialized, length, stored⟩ := ramInit_total built.vertices_length outgoing
    (by omega) (by omega) size
  obtain ⟨rpao, ciao, rpai, ciai⟩ := @built_small isUgraph edges g built (2 ^ 31) (by omega)
    (by omega) (by rw [same, Gl.ramEnd] at fits; omega)
  simp only [regions, List.mem_cons, List.not_mem_nil, or_false, forall_eq_or_imp,
    forall_eq] at stored
  obtain ⟨depths, pointersOut, columnsOut, pointersIn, columnsIn, frontier⟩ := stored
  refine ⟨_, ramData, ofPairs_of_loaded loaded, initialized, by rw [length, same],
    regions_aligned, (regions_before built.vertices_length outgoing (by omega)).1,
    fun i bound => getCharFromRam_stored depths bound,
    fun i bound => getIntFromRam_nat rpao pointersOut bound,
    fun i bound => getIntFromRam_nat ciao columnsOut bound,
    fun i bound => getIntFromRam_nat rpai pointersIn bound,
    fun i bound => getIntFromRam_nat ciai columnsIn bound, fun i bound => ?_⟩
  rw [getIntFromRam_stored frontier (by rw [List.getElem?_replicate, if_pos bound])]
  rfl

/-- One edge and enough loops for the arrays of two vertices to fit. -/
def hubEdges : List (Nat × Nat) := (0, 1) :: List.replicate 112 (1, 1)

def hub : Graph where
  vertexNum := 2
  edgeNum := 113
  isUgraph := false
  vertices := [
    { idx := 0, outDeg := 1, outVid := [1] },
    { idx := 1, inDeg := 113, outDeg := 112, inVid := 0 :: List.replicate 112 1,
      outVid := List.replicate 112 1 }]

theorem hub_loaded : loadGraph false (pairRows hubEdges) = some hub := by decide +kernel

theorem ramInit_holds_hub : ∃ csr ramData, CSR.ofPairs false hubEdges = some csr ∧
    ramInit hub = some ramData ∧ (ramData.length : Int) = 1808 ∧
    getIntFromRam ramData ((Gl.layout hub).ciaoMemAddr + 4 * 112) =
      csr.ciao[112]?.map Int.ofNat := by
  have size : ramSize hub = 1808 := by decide +kernel
  have fits : ((Gl.layout hub).ramEnd : Int) ≤ ramSize hub := by decide +kernel
  obtain ⟨csr, ramData, constructed, initialized, length, _, _, _, _, ciao, _⟩ :=
    ramInit_holds hub_loaded (by decide) fits
  refine ⟨csr, ramData, constructed, initialized, length.trans size, ciao 112 ?_⟩
  obtain rfl := Option.some.inj ((ofPairs_of_loaded hub_loaded).symm.trans constructed)
  decide

end Loaded

end GraphAccelerator
