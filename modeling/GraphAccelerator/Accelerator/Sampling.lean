import Mathlib.Data.List.Perm.Subperm
import GraphAccelerator.Library.Draws
import GraphAccelerator.Accelerator.Loading

/-!
# The start vertices

The start vertices are drawn until there are enough of them that have an outgoing
neighbour.  An index is a random number modulo `vertex_num - 1`: the last vertex is never
drawn, and on a graph of one vertex the modulus is zero.
-/

namespace GraphAccelerator

open CheckedLoop

structure Sampler where
  startIndices : List Nat := []
  n : Int := 0
  deriving DecidableEq, Repr

namespace Graph

/-- One round of the loop, with the number that `rand` returns; `none` is a division by
zero, or an access outside `vertices`. -/
def sampleStep (g : Graph) (s : Sampler) (draw : Nat) : Option Sampler := do
  let maxIdx : Int := g.vertexNum - 1
  if maxIdx = 0 then none
  else
    let idx ← ((draw : Int).tmod maxIdx).toNat?
    let v ← g.vertices[idx]?
    if v.outVid.isEmpty || s.startIndices.contains idx then return s
    else return { startIndices := s.startIndices ++ [idx], n := s.n + 1 }

def getRandomStartIndices (g : Graph) (startNum : Int) (rand : Nat → Nat) (rounds : Nat) :
    Option (List Nat) :=
  (whileDraw (fun s : Sampler => s.n < startNum) g.sampleStep rand rounds (0, {})).map
    (·.2.startIndices)

def eligible (g : Graph) (idx : Nat) : Bool :=
  match g.vertices[idx]? with
  | some v => !v.outVid.isEmpty
  | none => false

def candidates (g : Graph) (bound : Nat) : List Nat := (List.range bound).filter g.eligible

end Graph

/-- The states that the loop can reach, for all streams of random numbers. -/
inductive Samples (g : Graph) (startNum : Int) : Sampler → Prop
  | start : Samples g startNum {}
  | draw {s next : Sampler} {draw : Nat} : Samples g startNum s → s.n < startNum →
      g.sampleStep s draw = some next → Samples g startNum next

/-- Every residue of the modulus is drawn again and again. -/
def HitsAll (g : Graph) (rand : Nat → Nat) : Prop :=
  ∀ residue, residue < g.vertexNum - 1 → ∀ drawn, ∃ wait,
    rand (drawn + wait) % (g.vertexNum - 1) = residue

/-- The sampling is safe, can always go on, ends, and finds what it looks for. -/
structure SamplingFinishes (g : Graph) (startNum : Int) : Prop where
  safe : ∀ s, Samples g startNum s → s.n < startNum → ∀ draw, ∃ next, g.sampleStep s draw = some next
  progress : ∀ s, Samples g startNum s → s.n < startNum →
    ∃ draw next, g.sampleStep s draw = some next ∧ s.n < next.n
  ends : ∀ rand, HitsAll g rand →
    ∃ rounds startIndices, g.getRandomStartIndices startNum rand rounds = some startIndices
  result : ∀ rand rounds startIndices,
    g.getRandomStartIndices startNum rand rounds = some startIndices →
      (startIndices.length : Int) = startNum ∧ startIndices.Nodup ∧
        ∀ idx ∈ startIndices, idx < g.vertexNum ∧ g.eligible idx = true

section Sampling

variable {g : Graph} {startNum : Int} {s next : Sampler} {draw : Nat}

structure Sampled (g : Graph) (startNum : Int) (s : Sampler) : Prop where
  count : s.n = s.startIndices.length
  nodup : s.startIndices.Nodup
  drawn : ∀ idx ∈ s.startIndices, idx ∈ g.candidates (g.vertexNum - 1)
  enough : s.n ≤ max startNum 0

theorem sampleStep_eq (vertices : g.vertices.length = g.vertexNum) (modulus : 1 < g.vertexNum)
    (s : Sampler) (draw : Nat) : g.sampleStep s draw =
      if g.eligible (draw % (g.vertexNum - 1)) = true ∧ draw % (g.vertexNum - 1) ∉ s.startIndices
      then some { startIndices := s.startIndices ++ [draw % (g.vertexNum - 1)], n := s.n + 1 }
      else some s := by
  have positive : (g.vertexNum : Int) - 1 ≠ 0 := by omega
  have residue : ((draw : Int).tmod (g.vertexNum - 1)).toNat? = some (draw % (g.vertexNum - 1)) := by
    rw [show (g.vertexNum : Int) - 1 = (g.vertexNum - 1 : Nat) by omega, ← Int.ofNat_tmod]
    rfl
  have bound : draw % (g.vertexNum - 1) < g.vertices.length := by
    have := Nat.mod_lt draw (show 0 < g.vertexNum - 1 by omega)
    omega
  simp only [Graph.sampleStep, if_neg positive, residue, Option.bind_eq_bind, Option.bind_some,
    List.getElem?_eq_getElem bound, Graph.eligible, Option.pure_def]
  by_cases neighbours : g.vertices[draw % (g.vertexNum - 1)].outVid = []
  · simp [neighbours]
  · by_cases taken : draw % (g.vertexNum - 1) ∈ s.startIndices
    · simp [taken]
    · simp [neighbours, taken]

theorem sampleStep_fault (vertices : g.vertices.length = g.vertexNum) (small : g.vertexNum ≤ 1)
    (s : Sampler) (draw : Nat) : g.sampleStep s draw = none := by
  rcases Nat.le_one_iff_eq_zero_or_eq_one.mp small with none | one
  · obtain empty := List.length_eq_zero_iff.mp (vertices.trans none)
    simp [Graph.sampleStep, none, empty]
  · simp [Graph.sampleStep, one]

theorem mem_candidates {bound idx : Nat} :
    idx ∈ g.candidates bound ↔ idx < bound ∧ g.eligible idx = true := by
  simp [Graph.candidates]

/-- A round keeps the state, or takes a candidate that is new. -/
theorem sampleStep_cases (vertices : g.vertices.length = g.vertexNum)
    (stepped : g.sampleStep s draw = some next) : 1 < g.vertexNum ∧ (next = s ∨
      ∃ idx, idx ∈ g.candidates (g.vertexNum - 1) ∧ idx ∉ s.startIndices ∧
        next = { startIndices := s.startIndices ++ [idx], n := s.n + 1 }) := by
  by_cases modulus : 1 < g.vertexNum
  · rw [sampleStep_eq vertices modulus] at stepped
    refine ⟨modulus, ?_⟩
    split at stepped
    · rename_i fresh
      exact .inr ⟨_, mem_candidates.mpr ⟨Nat.mod_lt _ (by omega), fresh.1⟩, fresh.2,
        (Option.some.inj stepped).symm⟩
    · exact .inl (Option.some.inj stepped).symm
  · rw [sampleStep_fault vertices (by omega)] at stepped
    cases stepped

theorem sampled_start : Sampled g startNum {} := ⟨rfl, by simp, by simp, by simp⟩

theorem Sampled.step (vertices : g.vertices.length = g.vertexNum) (sampled : Sampled g startNum s)
    (more : s.n < startNum) (stepped : g.sampleStep s draw = some next) :
    Sampled g startNum next := by
  obtain ⟨_, rfl | ⟨idx, candidate, fresh, rfl⟩⟩ := sampleStep_cases vertices stepped
  · exact sampled
  · refine ⟨by simp [sampled.count], ?_, ?_, ?_⟩
    · rw [List.nodup_append]
      exact ⟨sampled.nodup, List.nodup_singleton _, by
        rintro old present new new' rfl
        exact fresh (List.mem_singleton.mp new' ▸ present)⟩
    · intro other membership
      rcases List.mem_append.mp membership with old | new
      · exact sampled.drawn other old
      · exact List.mem_singleton.mp new ▸ candidate
    · show s.n + 1 ≤ _
      omega

theorem Samples.sampled (vertices : g.vertices.length = g.vertexNum)
    (reached : Samples g startNum s) : Sampled g startNum s := by
  induction reached with
  | start => exact sampled_start
  | draw _ more stepped inductionHypothesis => exact inductionHypothesis.step vertices more stepped

theorem Sampled.exists_fresh (sampled : Sampled g startNum s) (more : s.n < startNum)
    (enough : startNum ≤ (g.candidates (g.vertexNum - 1)).length) :
    ∃ idx, idx ∈ g.candidates (g.vertexNum - 1) ∧ idx ∉ s.startIndices := by
  by_contra all
  push Not at all
  have nodup : (g.candidates (g.vertexNum - 1)).Nodup := List.nodup_range.filter _
  have count := (nodup.subperm all).length_le
  have := sampled.count
  omega

theorem sampleStep_fresh (vertices : g.vertices.length = g.vertexNum) {idx : Nat}
    (candidate : idx ∈ g.candidates (g.vertexNum - 1)) (fresh : idx ∉ s.startIndices)
    (residue : draw % (g.vertexNum - 1) = idx) : g.sampleStep s draw =
      some { startIndices := s.startIndices ++ [idx], n := s.n + 1 } := by
  obtain ⟨bound, eligible⟩ := mem_candidates.mp candidate
  rw [sampleStep_eq vertices (by omega), residue, if_pos ⟨eligible, fresh⟩]

theorem sampleStep_harmless (vertices : g.vertices.length = g.vertexNum)
    (sampled : Sampled g startNum s) (more : s.n < startNum)
    (enough : startNum ≤ (g.candidates (g.vertexNum - 1)).length) (draw : Nat) :
    ∃ next, g.sampleStep s draw = some next ∧ (next = s ∨ next.n = s.n + 1) := by
  obtain ⟨idx, candidate, _⟩ := sampled.exists_fresh more enough
  rw [sampleStep_eq vertices (by have := (mem_candidates.mp candidate).1; omega)]
  split
  · exact ⟨_, rfl, .inr rfl⟩
  · exact ⟨s, rfl, .inl rfl⟩

/-- The end of the loop, on any stream. -/
theorem sampled_result (vertices : g.vertices.length = g.vertexNum) {rand : Nat → Nat}
    {rounds : Nat} {startIndices : List Nat}
    (ran : g.getRandomStartIndices startNum rand rounds = some startIndices) :
    ∃ n, startNum ≤ n ∧ Sampled g startNum ⟨startIndices, n⟩ := by
  obtain ⟨⟨drawn, s⟩, finished, rfl⟩ := Option.map_eq_some_iff.mp ran
  obtain ⟨stopped, sampled⟩ := whileDraw_invariant (Sampled g startNum) finished sampled_start
    fun _ _ _ sampled entered stepped => sampled.step vertices (by simpa using entered) stepped
  exact ⟨s.n, by simpa using stopped, sampled⟩

theorem hitsAll_id (g : Graph) : HitsAll g id := by
  intro residue bound drawn
  have multiple : drawn ≤ (g.vertexNum - 1) * drawn :=
    Nat.le_mul_of_pos_left drawn (by omega)
  refine ⟨(g.vertexNum - 1) * drawn - drawn + residue, ?_⟩
  rw [id, show drawn + ((g.vertexNum - 1) * drawn - drawn + residue) =
    residue + (g.vertexNum - 1) * drawn by omega, Nat.add_mul_mod_self_left, Nat.mod_eq_of_lt bound]

/-- The sampling finishes exactly when there are enough candidates below the last
vertex. -/
theorem samplingFinishes_iff {isUgraph : Bool} {data : List (List Int)}
    (loaded : loadGraph isUgraph data = some g) :
    SamplingFinishes g startNum ↔
      0 ≤ startNum ∧ startNum ≤ (g.candidates (g.vertexNum - 1)).length := by
  obtain ⟨edges, built, _⟩ := loadGraph_rows loaded
  have vertices := built.vertices_length
  constructor
  · intro finishes
    obtain ⟨rounds, startIndices, ran⟩ := finishes.ends id (hitsAll_id g)
    obtain ⟨length, _⟩ := finishes.result id rounds startIndices ran
    obtain ⟨_, _, sampled⟩ := sampled_result vertices ran
    have count := (sampled.nodup.subperm sampled.drawn).length_le
    simp only at count
    omega
  · rintro ⟨nonneg, enough⟩
    refine ⟨fun s reached more draw => ?_, fun s reached more => ?_, fun rand hits => ?_,
      fun rand rounds startIndices ran => ?_⟩
    · obtain ⟨next, stepped, _⟩ :=
        sampleStep_harmless vertices (reached.sampled vertices) more enough draw
      exact ⟨next, stepped⟩
    · obtain ⟨idx, candidate, fresh⟩ := (reached.sampled vertices).exists_fresh more enough
      have bound := (mem_candidates.mp candidate).1
      exact ⟨idx, _, sampleStep_fresh vertices candidate fresh (Nat.mod_eq_of_lt bound), by simp⟩
    · have harmless : ∀ (s : Sampler) draw, Sampled g startNum s → decide (s.n < startNum) = true →
          ∃ next, g.sampleStep s draw = some next ∧ Sampled g startNum next ∧
            (next = s ∨ (startNum - next.n).toNat < (startNum - s.n).toNat) := by
        intro s draw sampled entered
        have more : s.n < startNum := of_decide_eq_true entered
        obtain ⟨next, stepped, outcome⟩ := sampleStep_harmless vertices sampled more enough draw
        exact ⟨next, stepped, sampled.step vertices more stepped, outcome.imp_right (by omega)⟩
      have progress : ∀ s : Sampler, Sampled g startNum s → decide (s.n < startNum) = true →
          ∀ drawn, ∃ wait next, g.sampleStep s (rand (drawn + wait)) = some next ∧
            (startNum - next.n).toNat < (startNum - s.n).toNat := by
        intro s sampled entered drawn
        have more : s.n < startNum := of_decide_eq_true entered
        obtain ⟨idx, candidate, fresh⟩ := sampled.exists_fresh more enough
        obtain ⟨wait, residue⟩ := hits idx (mem_candidates.mp candidate).1 drawn
        exact ⟨wait, _, sampleStep_fresh vertices candidate fresh residue, by simp only; omega⟩
      obtain ⟨rounds, final, ran⟩ := whileDraw_total (Sampled g startNum)
        (fun s => (startNum - s.n).toNat) harmless progress 0 {} sampled_start
      exact ⟨rounds, final.2.startIndices, by rw [Graph.getRandomStartIndices, ran]; rfl⟩
    · obtain ⟨n, stopped, sampled⟩ := sampled_result vertices ran
      have count := sampled.count
      have within := sampled.enough
      refine ⟨by simp only at count within; omega, sampled.nodup, fun idx membership => ?_⟩
      obtain ⟨bound, eligible⟩ := mem_candidates.mp (sampled.drawn idx membership)
      exact ⟨by omega, eligible⟩

theorem samplingFinishes_edge : ∃ g, loadGraph false (pairRows [(0, 1)]) = some g ∧
    SamplingFinishes g 1 :=
  ⟨_, rfl, (@samplingFinishes_iff _ 1 false (pairRows [(0, 1)]) rfl).mpr (by decide)⟩

/-- An edge from the last of two vertices. -/
theorem samplingFinishes_last : ∃ g, loadGraph false (pairRows [(1, 0)]) = some g ∧
    1 ≤ (g.candidates g.vertexNum).length ∧ ¬ SamplingFinishes g 1 := by
  refine ⟨_, rfl, by decide, fun finishes => ?_⟩
  obtain ⟨draw, next, stepped, larger⟩ := finishes.progress {} .start (by decide)
  obtain ⟨_, rfl | ⟨idx, candidate, _⟩⟩ := sampleStep_cases rfl stepped
  · exact absurd larger (by decide)
  · exact absurd (show idx ∈ ([] : List Nat) from candidate) (by simp)

end Sampling

end GraphAccelerator
