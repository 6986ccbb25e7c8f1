import GraphAccelerator.Bfs.Rounds

/-!
# The two top-down searches

`tdBfs` finds the frontier of a level by scanning all depths, `basicBfs` keeps it in
a list that is filled while the previous level is expanded.  Both compute the
lengths of the shortest paths, and at every level their frontiers hold the same
vertices once each.
-/

namespace GraphAccelerator.Bfs

open CheckedLoop SparseRows Walks

/-- `fhandle` holds what `tdBfs` writes about a level: its number and its frontier. -/
structure TdState where
  level : Int := 0
  t : Traversal
  frontierDist : List Nat := []
  fhandle : List (Int × List Nat) := []
  deriving DecidableEq, Repr

def tdRound (csr : CSR) (s : TdState) : Option (TdState × Bool) := do
  let (frontier, counters) ← scanDepth csr s.level s.t.depth [] s.t.counters
  let t ← topDown csr s.level frontier { s.t with counters }
  let eofBfs := frontier.isEmpty
  return ({
    level := s.level + 1
    t
    frontierDist := s.frontierDist ++ [frontier.length]
    fhandle := s.fhandle ++ [(s.level, frontier)] }, !eofBfs)

def tdBfs (csr : CSR) (startIdx rounds : Nat) : Option TdState := do
  let depth ← initDepth csr.vNum startIdx
  doWhile (tdRound csr) rounds { t := { depth } }

/-- `frontiers` is a history variable: the frontiers whose sizes are `frontierDist`. -/
structure BasicState where
  level : Int := 0
  depth : List Int
  frontier : List Nat
  frontierDist : List Nat := []
  frontiers : List (List Nat) := []
  counters : Counters := {}
  deriving DecidableEq, Repr

def IsLevel (edge : Nat → Nat → Prop) (startIdx level : Nat) (frontier : List Nat) : Prop :=
  frontier.Nodup ∧ ∀ v, v ∈ frontier ↔ Shortest edge startIdx v level

def AreLevels (edge : Nat → Nat → Prop) (startIdx count : Nat)
    (frontiers : List (List Nat)) : Prop :=
  frontiers.length = count ∧
    ∀ level frontier, frontiers[level]? = some frontier → IsLevel edge startIdx level frontier

theorem IsLevel.perm {edge : Nat → Nat → Prop} {startIdx level : Nat} {left right : List Nat}
    (first : IsLevel edge startIdx level left) (second : IsLevel edge startIdx level right) :
    left.Perm right :=
  (List.perm_ext_iff_of_nodup first.1 second.1).mpr fun v => by rw [first.2, second.2]

theorem AreLevels.snoc {edge : Nat → Nat → Prop} {startIdx count : Nat}
    {frontiers : List (List Nat)} {frontier : List Nat}
    (levels : AreLevels edge startIdx count frontiers)
    (last : IsLevel edge startIdx count frontier) :
    AreLevels edge startIdx (count + 1) (frontiers ++ [frontier]) := by
  refine ⟨by simp [levels.1], fun level found present => ?_⟩
  rcases Nat.lt_trichotomy level count with earlier | rfl | later
  · rw [List.getElem?_append_left (levels.1 ▸ earlier)] at present
    exact levels.2 level found present
  · rw [← levels.1, List.getElem?_concat_length, Option.some.injEq] at present
    exact present ▸ last
  · rw [List.getElem?_eq_none (by simp [levels.1]; omega)] at present
    contradiction

section

variable {csr : CSR} {edge : Nat → Nat → Prop} {out inn : Nat → List Nat}
variable {startIdx : Nat}

theorem AtLevel.verticesAt_isLevel {round : Nat} {depth : List Int}
    (atLevel : AtLevel edge csr.vNum startIdx round depth) :
    IsLevel edge startIdx round (verticesAt csr.vNum (levelDepth round) depth) :=
  ⟨verticesAt_nodup _ _ _, fun _ => atLevel.mem_frontier⟩

section Td

structure TdInvariant (csr : CSR) (edge : Nat → Nat → Prop) (startIdx round : Nat)
    (s : TdState) : Prop where
  level : s.level = levelDepth round
  atLevel : AtLevel edge csr.vNum startIdx round s.t.depth
  levels : AreLevels edge startIdx round (s.fhandle.map Prod.snd)
  inhabited : ∀ level, level < round → ∃ v, Shortest edge startIdx v level

structure TdResult (csr : CSR) (edge : Nat → Nat → Prop) (startIdx : Nat)
    (s : TdState) : Prop where
  depths : ShortestDepths edge csr.vNum startIdx s.t.depth
  levels : ∃ last, AreLevels edge startIdx (last + 1) (s.fhandle.map Prod.snd) ∧
    (∀ v, ¬ Shortest edge startIdx v last) ∧
    ∀ level, level < last → ∃ v, Shortest edge startIdx v level

theorem tdRound_spec (rep : csr.Represents edge out inn) (bound : startIdx < csr.vNum)
    {round : Nat} {s : TdState} (invariant : TdInvariant csr edge startIdx round s) :
    ∃ next again, tdRound csr s = some (next, again) ∧
      (again = true → TdInvariant csr edge startIdx (round + 1) next) ∧
      (again = false → TdResult csr edge startIdx next) := by
  have atLevel := invariant.atLevel
  have frontierLevel := atLevel.verticesAt_isLevel
  obtain ⟨counters, scanned⟩ := scanDepth_eq atLevel.length (levelDepth round) [] s.t.counters
  rw [List.nil_append] at scanned
  obtain ⟨t, walked, length, advanced, _⟩ :=
    AtLevel.topDown rep (t := { s.t with counters }) atLevel
  have levels := invariant.levels.snoc frontierLevel
  refine ⟨_, _, by simp only [tdRound, invariant.level, scanned, Option.bind_eq_bind,
    Option.bind_some, walked, Option.pure_def]; rfl, ?_, ?_⟩
  · intro again
    obtain ⟨v, membership⟩ : ∃ v, v ∈ verticesAt csr.vNum (levelDepth round) s.t.depth := by
      apply List.exists_mem_of_ne_nil
      simpa using again
    have shortest := (frontierLevel.2 v).mp membership
    exact {
      level := levelDepth_succ round
      atLevel := atLevel.next rep bound length advanced shortest
      levels := by simpa using levels
      inhabited := fun level earlier => shortest.exists_earlier (Nat.le_of_lt_succ earlier) }
  · intro stopped
    have none : ∀ v, ¬ Shortest edge startIdx v round := by
      intro v shortest
      have membership := (frontierLevel.2 v).mpr shortest
      rw [Bool.not_eq_false', List.isEmpty_iff] at stopped
      simp [stopped] at membership
    refine ⟨atLevel.finish length advanced ?_, round, by simpa using levels, none,
      invariant.inhabited⟩
    intro v shortest
    obtain ⟨u, earlier⟩ := shortest.exists_earlier (Nat.le_succ round)
    exact none u earlier

theorem tdBfs_spec (rep : csr.Represents edge out inn) (bound : startIdx < csr.vNum) :
    ∃ final, (∀ rounds, csr.vNum < rounds → tdBfs csr startIdx rounds = some final) ∧
      TdResult csr edge startIdx final := by
  obtain ⟨depth, initialized, atLevel⟩ := initDepth_atLevel edge bound
  obtain ⟨final, finished, result⟩ := doWhile_total (tdRound csr)
    (TdInvariant csr edge startIdx) (TdResult csr edge startIdx) csr.vNum
    { t := { depth } } ⟨rfl, atLevel, ⟨rfl, by simp⟩, by simp⟩
    (fun round s invariant => ⟨invariant.atLevel.within, tdRound_spec rep bound invariant⟩)
  refine ⟨final, fun rounds enough => ?_, result⟩
  simp only [tdBfs, initialized, Option.bind_eq_bind, Option.bind_some]
  exact finished rounds enough

end Td

section Basic

structure BasicInvariant (csr : CSR) (edge : Nat → Nat → Prop) (startIdx round : Nat)
    (s : BasicState) : Prop where
  level : s.level = levelDepth round
  atLevel : AtLevel edge csr.vNum startIdx round s.depth
  frontier : IsLevel edge startIdx round s.frontier
  levels : AreLevels edge startIdx round s.frontiers
  inhabited : ∀ level, level < round → ∃ v, Shortest edge startIdx v level

theorem BasicInvariant.finish {round : Nat} {s : BasicState}
    (invariant : BasicInvariant csr edge startIdx round s) (empty : s.frontier = []) :
    ShortestDepths edge csr.vNum startIdx s.depth ∧
      ∀ v, ¬ Shortest edge startIdx v round := by
  have roundEmpty : ∀ v, ¬ Shortest edge startIdx v round := by
    intro v shortest
    have := (invariant.frontier.2 v).mpr shortest
    simp [empty] at this
  refine ⟨shortestDepths_of_labels invariant.atLevel.length ?_, roundEmpty⟩
  apply invariant.atLevel.labels.complete_of_empty (levelDepth_names round)
  intro v isCurrent
  exact roundEmpty v ((invariant.atLevel.labels.named v round le_rfl).mp isCurrent)

end Basic

end

def branchCsr : CSR where
  vNum := 4
  eNum := 3
  rpao := [0, 2, 3, 3, 3]
  ciao := [1, 3, 2]
  rpai := [0, 0, 1, 2, 3]
  ciai := [0, 1, 0]

theorem branchCsr_constructed : CSR.ofPairs false [(0, 1), (1, 2), (0, 3)] = some branchCsr := rfl

example : (tdBfs branchCsr 0 5).map (·.t.depth) = some [0, 1, 2, 1] := by decide

end GraphAccelerator.Bfs
