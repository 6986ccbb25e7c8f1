import GraphAccelerator.Graph
import GraphAccelerator.Library.SparseRows
import GraphAccelerator.Memory.Burst

/-!
# The memory image

`ramInit` lays out one byte per vertex for the depths, then row pointers and columns of
the out-neighbours, row pointers and columns of the in-neighbours, and a frontier
array, each from an address that is a multiple of 256.  Integers have four bytes, the
least significant one first.  `none` stands for an access outside `ramData`, or for a
size that does not fit an `int`.
-/

namespace GraphAccelerator

open CheckedLoop Memory

/-- The part of `GL` that `ramInit` sets. -/
structure Gl where
  vertexNum : Nat
  edgeNum : Nat
  depthMemAddr : Nat := 0
  rpaoMemAddr : Nat
  ciaoMemAddr : Nat
  rpaiMemAddr : Nat
  ciaiMemAddr : Nat
  frontierMemAddr : Nat
  deriving DecidableEq, Repr

def intBytes (value : Int) : List Byte :=
  let word := BitVec.ofInt 32 value
  [word.extractLsb' 0 8, word.extractLsb' 8 8, word.extractLsb' 16 8, word.extractLsb' 24 8]

def toInts : List Byte → List Int
  | b0 :: b1 :: b2 :: b3 :: rest => (b3 ++ b2 ++ b1 ++ b0 : BitVec 32).toInt :: toInts rest
  | _ => []

/-- `updateSingleDataToRam` for a datum of these bytes. -/
def updateRam (ramData : List Byte) (addr : Nat) : List Byte → Option (List Byte)
  | [] => some ramData
  | byte :: bytes => do
      let _ ← ramData[addr]?
      updateRam (ramData.set addr byte) (addr + 1) bytes

/-- `fillMem`, for data of any size. -/
def fillMem (bytes : Int → List Byte) (values : List Int) (addr : Nat) (ramData : List Byte) :
    Option (List Byte) := do
  let (_, ramData) ← values.foldlM (fun (addr, ramData) value => do
    return (addr + (bytes value).length, ← updateRam ramData addr (bytes value))) (addr, ramData)
  return ramData

def alignMyself (addr : Nat) : Nat :=
  if addr &&& 0xFF ≠ 0 then ((addr >>> 8) + 1) <<< 8 else addr

namespace Gl

def layout (g : Graph) : Gl :=
  let rpaoMemAddr := alignMyself g.vertexNum
  let ciaoMemAddr := alignMyself (rpaoMemAddr + 4 * (g.vertexNum + 1))
  let rpaiMemAddr := alignMyself (ciaoMemAddr + 4 * g.edgeNum)
  let ciaiMemAddr := alignMyself (rpaiMemAddr + 4 * (g.vertexNum + 1))
  let frontierMemAddr := alignMyself (ciaiMemAddr + 4 * g.edgeNum)
  { vertexNum := g.vertexNum, edgeNum := g.edgeNum, rpaoMemAddr, ciaoMemAddr, rpaiMemAddr,
    ciaiMemAddr, frontierMemAddr }

end Gl

/-- `signed char` -/
def charBytes (value : Int) : List Byte := [BitVec.ofInt 8 value]

def ramInit (g : Graph) : Option (List Byte) :=
  let gl := Gl.layout g
  let rpao := (g.vertices.map (·.outDeg)).scanl (· + ·) 0
  let rpai := (g.vertices.map (·.inDeg)).scanl (· + ·) 0
  let ciao := g.vertices.flatMap (·.outVid)
  let ciai := g.vertices.flatMap (·.inVid)
  if g.edgeNum * 4 * 4 < 2 ^ 31 then do
    let ramData := List.replicate (g.edgeNum * 4 * 4) 0
    let ramData ← fillMem charBytes (List.replicate g.vertexNum (-1)) gl.depthMemAddr ramData
    let ramData ← fillMem intBytes (rpao.map Int.ofNat) gl.rpaoMemAddr ramData
    let ramData ← fillMem intBytes (ciao.map Int.ofNat) gl.ciaoMemAddr ramData
    let ramData ← fillMem intBytes (rpai.map Int.ofNat) gl.rpaiMemAddr ramData
    let ramData ← fillMem intBytes (ciai.map Int.ofNat) gl.ciaiMemAddr ramData
    fillMem intBytes (List.replicate g.vertexNum (-1)) gl.frontierMemAddr ramData
  else none

/-- `Graph::Graph` of the simulator, where an undirected file has two edges per line. -/
def loadGraph (isUgraph : Bool) (data : List (List Int)) : Option Graph :=
  Graph.ofRows isUgraph (if isUgraph then data.length * 2 else data.length) data

/-- `setNewStartVertex` -/
def setNewStartVertex (gl : Gl) (idx : Nat) (ramData : List Byte) : Option (List Byte) :=
  updateRam ramData (gl.depthMemAddr + idx) (charBytes 0)

/-- `dumpDepth`: what is written for each vertex. -/
def dumpDepth (gl : Gl) (ramData : List Byte) : Option (List Int) :=
  (List.range gl.vertexNum).mapM fun i => do return (← ramData[gl.depthMemAddr + i]?).toInt

theorem word_of_bytes (word : BitVec 32) :
    (word.extractLsb' 24 8 ++ word.extractLsb' 16 8 ++ word.extractLsb' 8 8 ++
      word.extractLsb' 0 8 : BitVec 32) = word := by
  rw [BitVec.extractLsb'_append_extractLsb'_eq_extractLsb' (by rfl)]
  rw [BitVec.extractLsb'_append_extractLsb'_eq_extractLsb' (by rfl)]
  rw [BitVec.extractLsb'_append_extractLsb'_eq_extractLsb' (by rfl)]
  simp

theorem toInts_intBytes {value : Nat} (small : value < 2 ^ 31) (rest : List Byte) :
    toInts (intBytes value ++ rest) = (value : Int) :: toInts rest := by
  have word : (BitVec.ofInt 32 (value : Int)).toInt = value := by
    rw [BitVec.toInt_ofInt]
    exact Int.bmod_eq_of_le (by omega) (by omega)
  simp only [intBytes, List.cons_append, List.nil_append, toInts, word_of_bytes, word]

theorem updateRam_spec {bytes : List Byte} {addr : Nat} {ramData after : List Byte}
    (updated : updateRam ramData addr bytes = some after) :
    after.length = ramData.length ∧ ∀ i, after[i]? =
      if addr ≤ i ∧ i < addr + bytes.length then bytes[i - addr]? else ramData[i]? := by
  induction bytes generalizing addr ramData with
  | nil =>
      obtain rfl := Option.some.inj updated
      refine ⟨rfl, fun i => ?_⟩
      rw [if_neg (by simp)]
  | cons byte bytes inductionHypothesis =>
      rw [updateRam, Option.bind_eq_bind, Option.bind_eq_some_iff] at updated
      obtain ⟨old, present, updated⟩ := updated
      obtain ⟨length, contents⟩ := inductionHypothesis updated
      obtain ⟨bound, _⟩ := List.getElem?_eq_some_iff.mp present
      refine ⟨by rw [length, List.length_set], fun i => ?_⟩
      rw [contents, List.length_cons]
      rcases Nat.lt_trichotomy i addr with before | rfl | later
      · rw [if_neg (by omega), if_neg (by omega), List.getElem?_set_ne (by omega)]
      · rw [if_neg (by omega), if_pos (by omega), List.getElem?_set_self bound]
        simp
      · by_cases within : i < addr + 1 + bytes.length
        · rw [if_pos (by omega), if_pos (by omega),
            show i - addr = (i - (addr + 1)) + 1 by omega, List.getElem?_cons_succ]
        · rw [if_neg (by omega), if_neg (by omega), List.getElem?_set_ne (by omega)]

theorem updateRam_append (left right : List Byte) (addr : Nat) (ramData : List Byte) :
    updateRam ramData addr (left ++ right) =
      (updateRam ramData addr left).bind fun ramData =>
        updateRam ramData (addr + left.length) right := by
  induction left generalizing addr ramData with
  | nil => rfl
  | cons byte left inductionHypothesis =>
      simp only [List.cons_append, updateRam, Option.bind_eq_bind, List.length_cons]
      cases ramData[addr]? with
      | none => rfl
      | some old =>
          simp only [Option.bind_some, inductionHypothesis]
          rw [Nat.add_assoc, Nat.add_comm 1]

theorem fillMem_eq (bytes : Int → List Byte) (values : List Int) (addr : Nat)
    (ramData : List Byte) :
    fillMem bytes values addr ramData = updateRam ramData addr (values.flatMap bytes) := by
  induction values generalizing addr ramData with
  | nil => rfl
  | cons value values inductionHypothesis =>
      rw [List.flatMap_cons, updateRam_append]
      simp only [fillMem, List.foldlM_cons, Option.bind_eq_bind] at inductionHypothesis ⊢
      cases updateRam ramData addr (bytes value) with
      | none => rfl
      | some next => exact inductionHypothesis _ _

theorem toInts_flatMap {values : List Nat} (small : ∀ value ∈ values, value < 2 ^ 31) :
    toInts ((values.map Int.ofNat).flatMap intBytes) = values.map Int.ofNat := by
  induction values with
  | nil => rfl
  | cons value values inductionHypothesis =>
      rw [List.map_cons, List.flatMap_cons, Int.ofNat_eq_natCast,
        toInts_intBytes (small value (by simp)),
        inductionHypothesis fun later membership => small later (List.mem_cons_of_mem _ membership)]

@[simp]
theorem intBytes_length (value : Int) : (intBytes value).length = 4 := rfl

theorem flatMap_intBytes_length (values : List Int) :
    (values.flatMap intBytes).length = 4 * values.length := by
  induction values with
  | nil => rfl
  | cons value values inductionHypothesis =>
      rw [List.flatMap_cons, List.length_append, inductionHypothesis, intBytes_length,
        List.length_cons]
      omega

theorem drop_flatMap_intBytes (values : List Int) (k : Nat) :
    (values.flatMap intBytes).drop (4 * k) = (values.drop k).flatMap intBytes := by
  induction k generalizing values with
  | zero => rfl
  | succ k inductionHypothesis =>
      cases values with
      | nil => simp
      | cons value values =>
          rw [List.flatMap_cons, List.drop_succ_cons, ← inductionHypothesis,
            List.drop_append, intBytes_length, List.drop_eq_nil_of_le (by simp)]
          rfl

theorem take_flatMap_intBytes (values : List Int) (k : Nat) :
    (values.flatMap intBytes).take (4 * k) = (values.take k).flatMap intBytes := by
  induction k generalizing values with
  | zero => simp
  | succ k inductionHypothesis =>
      cases values with
      | nil => simp
      | cons value values =>
          rw [List.flatMap_cons, List.take_succ_cons, List.flatMap_cons, ← inductionHypothesis,
            List.take_append, intBytes_length, List.take_of_length_le (by simp)]
          rfl

theorem mapM_range_getElem? {Item : Type} {items read : List Item} {start length : Nat}
    (reads : (List.range length).mapM (fun i => items[start + i]?) = some read) :
    read = (items.drop start).take length ∧ read.length = length := by
  induction length generalizing read with
  | zero =>
      obtain rfl := Option.some.inj reads
      simp
  | succ length inductionHypothesis =>
      rw [List.range_succ, List.mapM_append] at reads
      simp only [Option.bind_eq_bind, Option.bind_eq_some_iff, List.mapM_cons, List.mapM_nil] at reads
      obtain ⟨before, readsBefore, last, ⟨item, present, same⟩, reads⟩ := reads
      obtain ⟨rfl, count⟩ := inductionHypothesis readsBefore
      obtain rfl := Option.some.inj reads
      obtain ⟨rest, nothing, same⟩ := same
      obtain rfl := Option.some.inj nothing
      obtain rfl := Option.some.inj same
      refine ⟨?_, by simp [count]⟩
      rw [List.take_add_one, List.getElem?_drop, present]
      rfl

def StoredAt (ramData : List Byte) (addr : Nat) (values : List Nat) : Prop :=
  ∀ k, k < 4 * values.length →
    ramData[addr + k]? = ((values.map Int.ofNat).flatMap intBytes)[k]?

theorem StoredAt.lt {ramData : List Byte} {addr : Nat} {values : List Nat}
    (stored : StoredAt ramData addr values) {k : Nat} (bound : k < 4 * values.length) :
    addr + k < ramData.length := by
  have inside : k < ((values.map Int.ofNat).flatMap intBytes).length := by
    rw [flatMap_intBytes_length, List.length_map]
    exact bound
  have present := (stored k bound).trans (List.getElem?_eq_getElem inside)
  exact (List.getElem?_eq_some_iff.mp present).1

/-- Bytes read from within the words are the bytes of some of them. -/
theorem StoredAt.read {ramData : List Byte} {addr : Nat} {values : List Nat}
    (stored : StoredAt ramData addr values) {k count : Nat} (within : k + count ≤ values.length)
    {bytes : List Byte} (length : bytes.length = 4 * count)
    (reads : ∀ j, j < 4 * count → bytes[j]? = ramData[addr + 4 * k + j]?) :
    bytes = (((values.drop k).take count).map Int.ofNat).flatMap intBytes := by
  rw [List.map_take, List.map_drop, ← take_flatMap_intBytes, ← drop_flatMap_intBytes]
  apply List.ext_getElem?
  intro j
  rw [List.getElem?_take]
  split
  · rename_i inside
    rw [reads j inside, List.getElem?_drop, Nat.add_assoc, stored _ (by omega)]
  · exact List.getElem?_eq_none (by omega)

theorem alignMyself_ge (addr : Nat) : addr ≤ alignMyself addr := by
  rw [alignMyself]
  split
  · rw [Nat.shiftRight_eq_div_pow, Nat.shiftLeft_eq]
    have split := Nat.div_add_mod addr (2 ^ 8)
    have small := Nat.mod_lt addr (Nat.two_pow_pos 8)
    omega
  · exact Nat.le_refl _

/-- What the pipeline relies on: the row pointers and the columns of the out-neighbours
are stored behind the depths, and all integers fit. -/
structure LaidOut (g : Graph) (ramData : List Byte) : Prop where
  rpao : StoredAt ramData (Gl.layout g).rpaoMemAddr ((g.vertices.map (·.outDeg)).scanl (· + ·) 0)
  ciao : StoredAt ramData (Gl.layout g).ciaoMemAddr (g.vertices.flatMap (·.outVid))
  behind : g.vertexNum ≤ (Gl.layout g).rpaoMemAddr ∧
    (Gl.layout g).rpaoMemAddr + 4 * (g.vertexNum + 1) ≤ (Gl.layout g).ciaoMemAddr
  length : ramData.length < 2 ^ 31

theorem LaidOut.vertexNum_lt {g : Graph} {ramData : List Byte} (laidOut : LaidOut g ramData) :
    g.vertexNum < ramData.length := by
  have stored := laidOut.rpao.lt (k := 0) (by simp)
  have := laidOut.behind.1
  omega

theorem ramInit_spec {g : Graph} {ramData : List Byte} (vertices : g.vertices.length = g.vertexNum)
    (outgoing : (g.vertices.flatMap (·.outVid)).length ≤ g.edgeNum)
    (initialized : ramInit g = some ramData) :
    LaidOut g ramData ∧ (∀ v, v < g.vertexNum → ramData[v]? = some (-1)) := by
  simp only [ramInit, Option.bind_eq_bind, fillMem_eq] at initialized
  split at initialized
  · rename_i fits
    simp only [Option.bind_eq_some_iff] at initialized
    obtain ⟨ram0, fill0, ram1, fill1, ram2, fill2, ram3, fill3, ram4, fill4, fill5⟩ := initialized
    obtain ⟨length0, get0⟩ := updateRam_spec fill0
    obtain ⟨length1, get1⟩ := updateRam_spec fill1
    obtain ⟨length2, get2⟩ := updateRam_spec fill2
    obtain ⟨length3, get3⟩ := updateRam_spec fill3
    obtain ⟨length4, get4⟩ := updateRam_spec fill4
    obtain ⟨length5, get5⟩ := updateRam_spec fill5
    have address1 := alignMyself_ge g.vertexNum
    have address2 := alignMyself_ge ((Gl.layout g).rpaoMemAddr + 4 * (g.vertexNum + 1))
    have address3 := alignMyself_ge ((Gl.layout g).ciaoMemAddr + 4 * g.edgeNum)
    have address4 := alignMyself_ge ((Gl.layout g).rpaiMemAddr + 4 * (g.vertexNum + 1))
    have address5 := alignMyself_ge ((Gl.layout g).ciaiMemAddr + 4 * g.edgeNum)
    change g.vertexNum ≤ (Gl.layout g).rpaoMemAddr at address1
    change _ ≤ (Gl.layout g).ciaoMemAddr at address2
    change _ ≤ (Gl.layout g).rpaiMemAddr at address3
    change _ ≤ (Gl.layout g).ciaiMemAddr at address4
    change _ ≤ (Gl.layout g).frontierMemAddr at address5
    simp only [flatMap_intBytes_length, List.length_map, List.length_scanl, vertices]
      at get1 get2 get3 get4 get5
    refine ⟨⟨?_, ?_, ⟨address1, address2⟩, ?_⟩, ?_⟩
    · intro k bound
      simp only [List.length_map, List.length_scanl, vertices] at bound
      rw [get5, if_neg (by omega), get4, if_neg (by omega), get3, if_neg (by omega), get2,
        if_neg (by omega), get1, if_pos (by omega), Nat.add_sub_cancel_left]
    · intro k bound
      rw [get5, if_neg (by omega), get4, if_neg (by omega), get3, if_neg (by omega), get2,
        if_pos (by omega), Nat.add_sub_cancel_left]
    · rw [length5, length4, length3, length2, length1, length0, List.length_replicate]
      exact fits
    · intro v bound
      have chars : (List.replicate g.vertexNum (-1)).flatMap charBytes =
          List.replicate g.vertexNum (-1 : Byte) := by
        rw [List.flatMap_replicate]
        exact List.flatten_replicate_singleton
      rw [chars, List.length_replicate] at get0
      have origin : (Gl.layout g).depthMemAddr = 0 := rfl
      rw [get5, if_neg (by omega), get4, if_neg (by omega), get3, if_neg (by omega), get2,
        if_neg (by omega), get1, if_neg (by omega), get0, if_pos (by omega),
        List.getElem?_replicate, if_pos (by omega)]
  · cases initialized

section Edges

def outCount (vertices : List Vertex) : Nat := (vertices.flatMap (·.outVid)).length

def inCount (vertices : List Vertex) : Nat := (vertices.flatMap (·.inVid)).length

theorem flatMap_set_length (field : Vertex → List Nat) {vertices : List Vertex} {idx : Nat}
    {v w : Vertex} (present : vertices[idx]? = some v) :
    ((vertices.set idx w).flatMap field).length + (field v).length =
      (vertices.flatMap field).length + (field w).length := by
  obtain ⟨bound, rfl⟩ := List.getElem?_eq_some_iff.mp present
  have split : vertices = vertices.take idx ++ vertices[idx] :: vertices.drop (idx + 1) := by
    rw [← List.drop_eq_getElem_cons bound, List.take_append_drop]
  rw [List.set_eq_take_append_cons_drop, if_pos bound]
  conv_rhs => rw [split]
  simp only [List.flatMap_append, List.flatMap_cons, List.length_append]
  omega

theorem pushOut_count {vertices after : List Vertex} {idx vid : Nat}
    (pushed : Graph.pushOut vertices idx vid = some after) :
    outCount after = outCount vertices + 1 ∧ inCount after = inCount vertices := by
  rw [Graph.pushOut, Option.bind_eq_bind, Option.bind_eq_some_iff] at pushed
  obtain ⟨v, present, pushed⟩ := pushed
  obtain rfl := Option.some.inj pushed
  have out := @flatMap_set_length (·.outVid) _ _ _ { v with outVid := v.outVid ++ [vid] } present
  have inn := @flatMap_set_length (·.inVid) _ _ _ { v with outVid := v.outVid ++ [vid] } present
  simp only [List.length_append, List.length_singleton] at out inn
  exact ⟨by rw [outCount, outCount]; omega, by rw [inCount, inCount]; omega⟩

theorem pushIn_count {vertices after : List Vertex} {idx vid : Nat}
    (pushed : Graph.pushIn vertices idx vid = some after) :
    outCount after = outCount vertices ∧ inCount after = inCount vertices + 1 := by
  rw [Graph.pushIn, Option.bind_eq_bind, Option.bind_eq_some_iff] at pushed
  obtain ⟨v, present, pushed⟩ := pushed
  obtain rfl := Option.some.inj pushed
  have out := @flatMap_set_length (·.outVid) _ _ _ { v with inVid := v.inVid ++ [vid] } present
  have inn := @flatMap_set_length (·.inVid) _ _ _ { v with inVid := v.inVid ++ [vid] } present
  simp only [List.length_append, List.length_singleton] at out inn
  exact ⟨by rw [outCount, outCount]; omega, by rw [inCount, inCount]; omega⟩

theorem addRow_count {isUgraph : Bool} {vertices after : List Vertex} {row : List Int}
    (added : Graph.addRow isUgraph vertices row = some after) :
    outCount after ≤ outCount vertices + (if isUgraph then 2 else 1) ∧
      inCount after + outCount vertices = outCount after + inCount vertices := by
  simp only [Graph.addRow, Option.bind_eq_bind, Option.bind_eq_some_iff] at added
  obtain ⟨_, _, _, _, _, _, _, _, out, pushedOut, inn, pushedIn, added⟩ := added
  have first := pushOut_count pushedOut
  have second := pushIn_count pushedIn
  split at added
  · rename_i both
    rw [Option.bind_eq_some_iff] at added
    obtain ⟨back, pushedBack, added⟩ := added
    have third := pushOut_count pushedBack
    have fourth := pushIn_count added
    rw [Bool.and_eq_true] at both
    rw [if_pos both.1]
    omega
  · obtain rfl := Option.some.inj added
    split <;> omega

theorem loadGraph_counts {isUgraph : Bool} {data : List (List Int)} {g : Graph}
    (loaded : loadGraph isUgraph data = some g) :
    outCount g.vertices ≤ g.edgeNum ∧ inCount g.vertices = outCount g.vertices := by
  simp only [loadGraph, Graph.ofRows, Option.bind_eq_bind, Option.bind_eq_some_iff] at loaded
  obtain ⟨maxIdx, _, vertices, added, loaded⟩ := loaded
  obtain rfl := Option.some.inj loaded
  have counted := foldlM_invariant
    (fun done vertices => outCount vertices ≤ done.length * (if isUgraph then 2 else 1) ∧
      inCount vertices = outCount vertices) added
    (by simp [outCount, inCount, Function.comp_def]) (by
      intro done row rest before after _ counts stepped
      have := addRow_count stepped
      rw [List.length_append, List.length_singleton, Nat.add_mul, Nat.one_mul]
      omega)
  have degrees : outCount (vertices.map Graph.setDegrees) = outCount vertices ∧
      inCount (vertices.map Graph.setDegrees) = inCount vertices := by
    simp only [outCount, inCount, List.flatMap_map]
    exact ⟨rfl, rfl⟩
  show outCount (vertices.map Graph.setDegrees) ≤ _ ∧
    inCount (vertices.map Graph.setDegrees) = outCount (vertices.map Graph.setDegrees)
  rw [degrees.1, degrees.2]
  refine ⟨Nat.le_trans counted.1 ?_, counted.2⟩
  cases isUgraph <;> simp

theorem loadGraph_outgoing {isUgraph : Bool} {data : List (List Int)} {g : Graph}
    (loaded : loadGraph isUgraph data = some g) :
    (g.vertices.flatMap (·.outVid)).length ≤ g.edgeNum := (loadGraph_counts loaded).1

/-- What the simulator builds from pairs of non-negative indices. -/
theorem loadGraph_builtFrom {isUgraph : Bool} {edges : List (Nat × Nat)} {g : Graph}
    (loaded : loadGraph isUgraph (pairRows edges) = some g) : g.BuiltFrom isUgraph edges :=
  (Graph.builtFrom_of_ofRows loaded).2.2

end Edges

end GraphAccelerator
