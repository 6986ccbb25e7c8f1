import Mathlib.Tactic.Ring
import GraphAccelerator.Library.Walk
import GraphAccelerator.Library.Loop

/-!
# The graph both programs load

`Graph::Graph` is the same in the simulator and in the software search up to the
names and the edge count: the lines of the file are parsed into rows of integers
and every row adds its first entry as a source and its second as a destination.
An access outside a vector is a fault; a negative index is outside every vector.
-/

namespace GraphAccelerator

open CheckedLoop

structure Vertex where
  idx : Nat
  inDeg : Nat := 0
  outDeg : Nat := 0
  inVid : List Nat := []
  outVid : List Nat := []
  deriving DecidableEq, Repr

structure Graph where
  vertexNum : Nat
  edgeNum : Nat
  isUgraph : Bool
  vertices : List Vertex
  deriving DecidableEq, Repr

namespace Graph

def getMaxIdx (data : List (List Int)) : Option Int := do
  let first ← (← data[0]?)[0]?
  return data.foldl (fun maxIdx row =>
    row.foldl (fun maxIdx entry => if maxIdx ≤ entry then entry else maxIdx) maxIdx) first

def pushOut (vertices : List Vertex) (idx vid : Nat) : Option (List Vertex) := do
  let v ← vertices[idx]?
  return vertices.set idx { v with outVid := v.outVid ++ [vid] }

def pushIn (vertices : List Vertex) (idx vid : Nat) : Option (List Vertex) := do
  let v ← vertices[idx]?
  return vertices.set idx { v with inVid := v.inVid ++ [vid] }

/-- The body of the loop over the rows. -/
def addRow (isUgraph : Bool) (vertices : List Vertex) (row : List Int) :
    Option (List Vertex) := do
  let srcIdx ← (← row[0]?).toNat?
  let dstIdx ← (← row[1]?).toNat?
  let vertices ← pushOut vertices srcIdx dstIdx
  let vertices ← pushIn vertices dstIdx srcIdx
  if isUgraph && srcIdx != dstIdx then
    let vertices ← pushOut vertices dstIdx srcIdx
    pushIn vertices srcIdx dstIdx
  else
    return vertices

def setDegrees (v : Vertex) : Vertex :=
  { v with inDeg := v.inVid.length, outDeg := v.outVid.length }

/-- The constructor after `loadFile`; the two programs only differ in the edge
count.  The vertex count is an `int`: one more than the largest `int` is negative, and no
vertex is made. -/
def ofRows (isUgraph : Bool) (edgeNum : Nat) (data : List (List Int)) : Option Graph := do
  let vertexNum := (Int.bmod ((← getMaxIdx data) + 1) (2 ^ 32)).toNat
  let vertices ← data.foldlM (addRow isUgraph) ((List.range vertexNum).map fun i => { idx := i })
  return { vertexNum, edgeNum, isUgraph, vertices := vertices.map setDegrees }

end Graph

/-- The rows of a file whose lines are pairs of non-negative indices. -/
def pairRows (edges : List (Nat × Nat)) : List (List Int) :=
  edges.map fun (u, v) => [(u : Int), (v : Int)]

/-- The edges that a list of pairs stands for. -/
def Edge (isUgraph : Bool) (edges : List (Nat × Nat)) (u v : Nat) : Prop :=
  (u, v) ∈ edges ∨ isUgraph = true ∧ (v, u) ∈ edges

def pairOut (isUgraph : Bool) (u : Nat) (pair : Nat × Nat) : List Nat :=
  (if pair.1 = u then [pair.2] else []) ++
    if isUgraph && pair.1 != pair.2 && pair.2 == u then [pair.1] else []

def pairIn (isUgraph : Bool) (u : Nat) (pair : Nat × Nat) : List Nat :=
  (if pair.2 = u then [pair.1] else []) ++
    if isUgraph && pair.1 != pair.2 && pair.1 == u then [pair.2] else []

/-- The out-neighbours of `u` in the order in which the constructor stores them. -/
def outNgbs (isUgraph : Bool) (edges : List (Nat × Nat)) (u : Nat) : List Nat :=
  edges.flatMap (pairOut isUgraph u)

def inNgbs (isUgraph : Bool) (edges : List (Nat × Nat)) (u : Nat) : List Nat :=
  edges.flatMap (pairIn isUgraph u)

theorem mem_outNgbs {isUgraph : Bool} {edges : List (Nat × Nat)} {u v : Nat} :
    v ∈ outNgbs isUgraph edges u ↔ Edge isUgraph edges u v := by
  simp only [outNgbs, List.mem_flatMap, pairOut, List.mem_append, Edge]
  constructor
  · rintro ⟨⟨a, b⟩, membership, forward | backward⟩
    · obtain ⟨rfl, rfl⟩ : a = u ∧ v = b := by simpa using forward
      exact .inl membership
    · obtain ⟨⟨⟨undirected, _⟩, rfl⟩, rfl⟩ :
          ((isUgraph = true ∧ a ≠ b) ∧ b = u) ∧ v = a := by simpa using backward
      exact .inr ⟨undirected, membership⟩
  · rintro (membership | ⟨rfl, membership⟩)
    · exact ⟨(u, v), membership, by simp⟩
    · refine ⟨(v, u), membership, ?_⟩
      by_cases loop : v = u <;> simp [loop]

theorem mem_inNgbs {isUgraph : Bool} {edges : List (Nat × Nat)} {u v : Nat} :
    u ∈ inNgbs isUgraph edges v ↔ Edge isUgraph edges u v := by
  simp only [inNgbs, List.mem_flatMap, pairIn, List.mem_append, Edge]
  constructor
  · rintro ⟨⟨a, b⟩, membership, forward | backward⟩
    · obtain ⟨rfl, rfl⟩ : b = v ∧ u = a := by simpa using forward
      exact .inl membership
    · obtain ⟨⟨⟨undirected, _⟩, rfl⟩, rfl⟩ :
          ((isUgraph = true ∧ a ≠ b) ∧ a = v) ∧ u = b := by simpa using backward
      exact .inr ⟨undirected, membership⟩
  · rintro (membership | ⟨rfl, membership⟩)
    · exact ⟨(u, v), membership, by simp⟩
    · refine ⟨(v, u), membership, ?_⟩
      by_cases loop : v = u <;> simp [loop]

namespace Graph

section MaxIdx

theorem foldl_max_spec (entries : List Int) (start : Int) :
    let result := entries.foldl (fun m x => if m ≤ x then x else m) start
    start ≤ result ∧ (∀ x ∈ entries, x ≤ result) ∧ (result = start ∨ result ∈ entries) := by
  induction entries generalizing start with
  | nil => simp
  | cons entry entries inductionHypothesis =>
      simp only [List.foldl_cons, List.mem_cons]
      by_cases larger : start ≤ entry
      · simp only [if_pos larger]
        obtain ⟨above, all, attained⟩ := inductionHypothesis entry
        refine ⟨larger.trans above, ?_, .inr attained⟩
        rintro x (rfl | membership)
        · exact above
        · exact all x membership
      · simp only [if_neg larger]
        obtain ⟨above, all, attained⟩ := inductionHypothesis start
        refine ⟨above, ?_, attained.imp_right .inr⟩
        rintro x (rfl | membership)
        · omega
        · exact all x membership

theorem getMaxIdx_flatten (data : List (List Int)) (start : Int) :
    data.foldl (fun maxIdx row =>
        row.foldl (fun maxIdx entry => if maxIdx ≤ entry then entry else maxIdx) maxIdx) start =
      data.flatten.foldl (fun maxIdx entry => if maxIdx ≤ entry then entry else maxIdx) start := by
  rw [List.foldl_flatten]

/-- On a non-empty list of pairs the vertex count exceeds every index. -/
theorem getMaxIdx_pairRows {edges : List (Nat × Nat)} (nonempty : edges ≠ []) :
    ∃ maxIdx : Nat, getMaxIdx (pairRows edges) = some (maxIdx : Int) ∧
      ∀ pair ∈ edges, pair.1 ≤ maxIdx ∧ pair.2 ≤ maxIdx := by
  obtain ⟨⟨u, v⟩, rest, rfl⟩ := List.exists_cons_of_ne_nil nonempty
  obtain ⟨above, all, _⟩ := foldl_max_spec (pairRows ((u, v) :: rest)).flatten (u : Int)
  refine ⟨((pairRows ((u, v) :: rest)).flatten.foldl
    (fun m x => if m ≤ x then x else m) (u : Int)).toNat, ?_, ?_⟩
  · simp only [getMaxIdx, getMaxIdx_flatten]
    rw [Int.toNat_of_nonneg (le_trans (Int.natCast_nonneg u) above)]
    simp [pairRows]
  · rintro ⟨a, b⟩ membership
    have first := all (a : Int) (List.mem_flatten.mpr
      ⟨[(a : Int), (b : Int)], List.mem_map.mpr ⟨(a, b), membership, rfl⟩, by simp⟩)
    have second := all (b : Int) (List.mem_flatten.mpr
      ⟨[(a : Int), (b : Int)], List.mem_map.mpr ⟨(a, b), membership, rfl⟩, by simp⟩)
    exact ⟨by omega, by omega⟩

theorem getMaxIdx_attained {edges : List (Nat × Nat)} {maxIdx : Int}
    (found : getMaxIdx (pairRows edges) = some maxIdx) :
    ∃ pair ∈ edges, maxIdx = (pair.1 : Int) ∨ maxIdx = (pair.2 : Int) := by
  cases edges with
  | nil => cases found
  | cons pair rest =>
      simp only [getMaxIdx, getMaxIdx_flatten] at found
      obtain ⟨_, _, attained⟩ := foldl_max_spec (pairRows (pair :: rest)).flatten (pair.1 : Int)
      obtain rfl := Option.some.inj found
      rcases attained with first | other
      · exact ⟨pair, List.mem_cons_self, .inl first⟩
      · obtain ⟨row, member, entry⟩ := List.mem_flatten.mp other
        obtain ⟨source, membership, rfl⟩ := List.mem_map.mp member
        exact ⟨source, membership, by simpa using entry⟩

end MaxIdx

section Construction

/-- The vertices while the rows are being added. -/
def store (vertexNum : Nat) (out inn : Nat → List Nat) : List Vertex :=
  (List.range vertexNum).map fun u => { idx := u, inVid := inn u, outVid := out u }

@[simp]
theorem store_length (vertexNum : Nat) (out inn : Nat → List Nat) :
    (store vertexNum out inn).length = vertexNum := by
  simp [store]

theorem store_getElem? {vertexNum u : Nat} (out inn : Nat → List Nat) (bound : u < vertexNum) :
    (store vertexNum out inn)[u]? =
      some { idx := u, inVid := inn u, outVid := out u } := by
  simp [store, bound]

variable (isUgraph : Bool) {vertexNum : Nat} (out inn : Nat → List Nat)

theorem pushOut_store {idx : Nat} (vid : Nat) (bound : idx < vertexNum) :
    pushOut (store vertexNum out inn) idx vid =
      some (store vertexNum (fun u => out u ++ if idx = u then [vid] else []) inn) := by
  simp only [pushOut, store_getElem? out inn bound, Option.bind_eq_bind, Option.bind_some,
    Option.pure_def, Option.some.injEq]
  apply List.ext_getElem (by simp)
  intro u uBound _
  by_cases same : idx = u <;> simp [store, same]

theorem pushIn_store {idx : Nat} (vid : Nat) (bound : idx < vertexNum) :
    pushIn (store vertexNum out inn) idx vid =
      some (store vertexNum out (fun u => inn u ++ if idx = u then [vid] else [])) := by
  simp only [pushIn, store_getElem? out inn bound, Option.bind_eq_bind, Option.bind_some,
    Option.pure_def, Option.some.injEq]
  apply List.ext_getElem (by simp)
  intro u uBound _
  by_cases same : idx = u <;> simp [store, same]

theorem addRow_store {src dst : Nat} (srcBound : src < vertexNum) (dstBound : dst < vertexNum) :
    addRow isUgraph (store vertexNum out inn) [(src : Int), (dst : Int)] =
      some (store vertexNum (fun u => out u ++ pairOut isUgraph u (src, dst))
        (fun u => inn u ++ pairIn isUgraph u (src, dst))) := by
  have parsed : ∀ index : Nat, Int.toNat? (index : Int) = some index := fun index => rfl
  have directed : addRow isUgraph (store vertexNum out inn) [(src : Int), (dst : Int)] =
      if isUgraph && src != dst then
        (pushOut (store vertexNum (fun u => out u ++ if src = u then [dst] else [])
          (fun u => inn u ++ if dst = u then [src] else [])) dst src).bind
            fun vertices => pushIn vertices src dst
      else some (store vertexNum (fun u => out u ++ if src = u then [dst] else [])
        (fun u => inn u ++ if dst = u then [src] else [])) := by
    simp only [addRow, List.getElem?_cons_zero, List.getElem?_cons_succ, Option.bind_eq_bind,
      Option.bind_some, parsed, pushOut_store _ _ _ srcBound, pushIn_store _ _ _ dstBound,
      Option.pure_def]
  rw [directed]
  cases both : isUgraph && src != dst with
  | true =>
      rw [if_pos rfl, pushOut_store _ _ _ dstBound, Option.bind_some,
        pushIn_store _ _ _ srcBound]
      simp only [pairOut, pairIn, both, Bool.true_and, beq_iff_eq, List.append_assoc]
  | false =>
      simp [pairOut, pairIn, both]

theorem addRows_store (edges : List (Nat × Nat))
    (bound : ∀ pair ∈ edges, pair.1 < vertexNum ∧ pair.2 < vertexNum) :
    (pairRows edges).foldlM (addRow isUgraph) (store vertexNum out inn) =
      some (store vertexNum (fun u => out u ++ outNgbs isUgraph edges u)
        (fun u => inn u ++ inNgbs isUgraph edges u)) := by
  induction edges generalizing out inn with
  | nil => simp [pairRows, outNgbs, inNgbs]
  | cons pair edges inductionHypothesis =>
      obtain ⟨src, dst⟩ := pair
      obtain ⟨srcBound, dstBound⟩ := bound (src, dst) (by simp)
      have rest := fun pair membership => bound pair (List.mem_cons_of_mem _ membership)
      have unfolded : pairRows ((src, dst) :: edges) =
          [(src : Int), (dst : Int)] :: pairRows edges := rfl
      rw [unfolded, List.foldlM_cons, addRow_store isUgraph out inn srcBound dstBound]
      simp only [Option.bind_eq_bind, Option.bind_some]
      rw [inductionHypothesis _ _ rest]
      simp [outNgbs, inNgbs, List.append_assoc]

theorem pushOut_length {vertices after : List Vertex} {idx vid : Nat}
    (pushed : pushOut vertices idx vid = some after) :
    idx < vertices.length ∧ after.length = vertices.length := by
  simp only [pushOut, Option.bind_eq_bind, Option.bind_eq_some_iff] at pushed
  obtain ⟨v, present, pushed⟩ := pushed
  obtain rfl := Option.some.inj pushed
  exact ⟨(List.getElem?_eq_some_iff.mp present).1, List.length_set⟩

theorem pushIn_length {vertices after : List Vertex} {idx vid : Nat}
    (pushed : pushIn vertices idx vid = some after) :
    idx < vertices.length ∧ after.length = vertices.length := by
  simp only [pushIn, Option.bind_eq_bind, Option.bind_eq_some_iff] at pushed
  obtain ⟨v, present, pushed⟩ := pushed
  obtain rfl := Option.some.inj pushed
  exact ⟨(List.getElem?_eq_some_iff.mp present).1, List.length_set⟩

theorem addRow_length {vertices after : List Vertex} {src dst : Nat} {others : List Int}
    (added : addRow isUgraph vertices ((src : Int) :: (dst : Int) :: others) = some after) :
    (src < vertices.length ∧ dst < vertices.length) ∧ after.length = vertices.length := by
  simp only [addRow, Option.bind_eq_bind, Option.bind_eq_some_iff] at added
  obtain ⟨_, first, _, isSrc, _, second, _, isDst, out, pushedOut, inn, pushedIn, added⟩ := added
  obtain rfl := Option.some.inj first
  obtain rfl := Option.some.inj isSrc
  obtain rfl := Option.some.inj second
  obtain rfl := Option.some.inj isDst
  obtain ⟨srcBound, outLength⟩ := pushOut_length pushedOut
  obtain ⟨dstBound, innLength⟩ := pushIn_length pushedIn
  refine ⟨⟨srcBound, outLength ▸ dstBound⟩, ?_⟩
  split at added
  · obtain ⟨_, back, added⟩ := Option.bind_eq_some_iff.mp added
    rw [(pushIn_length added).2, (pushOut_length back).2, innLength, outLength]
  · rw [← Option.some.inj added, innLength, outLength]

theorem addRows_length {vertices after : List Vertex} {edges : List (Nat × Nat)}
    (added : (pairRows edges).foldlM (addRow isUgraph) vertices = some after) :
    ∀ pair ∈ edges, pair.1 < vertices.length ∧ pair.2 < vertices.length := by
  induction edges generalizing vertices with
  | nil => simp
  | cons pair edges inductionHypothesis =>
      simp only [pairRows, List.map_cons, List.foldlM_cons, Option.bind_eq_bind,
        Option.bind_eq_some_iff] at added
      obtain ⟨next, stepped, rest⟩ := added
      obtain ⟨bound, length⟩ := addRow_length isUgraph stepped
      intro other membership
      rcases List.mem_cons.mp membership with rfl | later
      · exact bound
      · exact length ▸ inductionHypothesis rest other later

end Construction

/-- What the constructor builds from pairs of non-negative indices. -/
structure BuiltFrom (g : Graph) (isUgraph : Bool) (edges : List (Nat × Nat)) : Prop where
  vertices : g.vertices = (store g.vertexNum (outNgbs isUgraph edges)
    (inNgbs isUgraph edges)).map setDegrees
  bound : ∀ pair ∈ edges, pair.1 < g.vertexNum ∧ pair.2 < g.vertexNum

theorem vertexNum_lt (maxIdx : Int) : (Int.bmod (maxIdx + 1) (2 ^ 32)).toNat < 2 ^ 31 := by
  have := @Int.bmod_lt (maxIdx + 1) (2 ^ 32) (by decide)
  omega

/-- Every graph that is constructed from pairs is built from them. -/
theorem builtFrom_of_ofRows {isUgraph : Bool} {edgeNum : Nat} {edges : List (Nat × Nat)}
    {g : Graph} (constructed : ofRows isUgraph edgeNum (pairRows edges) = some g) :
    g.edgeNum = edgeNum ∧ g.vertexNum < 2 ^ 31 ∧ g.BuiltFrom isUgraph edges := by
  simp only [ofRows, Option.bind_eq_bind, Option.bind_eq_some_iff] at constructed
  obtain ⟨maxIdx, _, vertices, added, constructed⟩ := constructed
  obtain rfl := Option.some.inj constructed
  have bound := addRows_length isUgraph added
  simp only [List.length_map, List.length_range] at bound
  have stored := addRows_store isUgraph (fun _ => []) (fun _ => []) edges bound
  obtain rfl := Option.some.inj (added.symm.trans stored)
  exact ⟨rfl, vertexNum_lt maxIdx, ⟨by simp, bound⟩⟩

theorem ofRows_pairRows (isUgraph : Bool) (edgeNum : Nat) {edges : List (Nat × Nat)}
    (nonempty : edges ≠ []) (small : ∀ pair ∈ edges, pair.1 < 2 ^ 31 - 1 ∧ pair.2 < 2 ^ 31 - 1) :
    ∃ g, ofRows isUgraph edgeNum (pairRows edges) = some g := by
  obtain ⟨maxIdx, found, largest⟩ := getMaxIdx_pairRows nonempty
  have top : maxIdx < 2 ^ 31 - 1 := by
    obtain ⟨pair, membership, entry⟩ := getMaxIdx_attained found
    have := small pair membership
    omega
  have fits : (Int.bmod ((maxIdx : Int) + 1) (2 ^ 32)).toNat = maxIdx + 1 := by
    rw [Int.bmod_eq_of_le (by omega) (by omega)]
    omega
  have stored := addRows_store isUgraph (fun _ => []) (fun _ => []) edges fun pair membership =>
    ⟨Nat.lt_succ_of_le (largest pair membership).1, Nat.lt_succ_of_le (largest pair membership).2⟩
  exact ⟨_, by
    simp only [ofRows, found, Option.bind_eq_bind, Option.bind_some, fits]
    exact congrArg (fun vertices => Option.bind vertices _) stored⟩

theorem ofRows_small {isUgraph : Bool} {edgeNum : Nat} {edges : List (Nat × Nat)} {g : Graph}
    (constructed : ofRows isUgraph edgeNum (pairRows edges) = some g) :
    ∀ pair ∈ edges, pair.1 < 2 ^ 31 - 1 ∧ pair.2 < 2 ^ 31 - 1 := by
  obtain ⟨_, vertices, built⟩ := builtFrom_of_ofRows constructed
  intro pair membership
  have := built.bound pair membership
  omega

namespace BuiltFrom

variable {g : Graph} {isUgraph : Bool} {edges : List (Nat × Nat)}

theorem vertices_length (built : g.BuiltFrom isUgraph edges) :
    g.vertices.length = g.vertexNum := by
  simp [built.vertices]

theorem edge_lt (built : g.BuiltFrom isUgraph edges) {u v : Nat}
    (edge : Edge isUgraph edges u v) : u < g.vertexNum ∧ v < g.vertexNum := by
  rcases edge with membership | ⟨_, membership⟩
  · exact built.bound _ membership
  · exact (built.bound _ membership).symm

end BuiltFrom

end Graph

end GraphAccelerator
