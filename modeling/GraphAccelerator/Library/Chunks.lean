import Mathlib.Data.List.Basic
import Mathlib.Logic.Relation

/-!
# A range that is asked for in chunks

A loop goes through the bytes of a range, at most `limit` of them at a time, and may be
suspended between two chunks.  Here are the chunks it should ask for, what they cover,
and the journal of a loop that goes through one range after the other.
-/

namespace Chunks

universe u

def chunks (limit : Nat) (addr : Int) (left : Nat) : List (Int × Nat) :=
  if 0 < left ∧ 0 < limit then
    (addr, min limit left) :: chunks limit (addr + min limit left) (left - min limit left)
  else []
termination_by left

/-- Chunks of 1 to `limit` bytes that follow each other. -/
inductive Tiles (limit : Nat) : Int → List (Int × Nat) → Int → Prop
  | nil {addr : Int} : Tiles limit addr [] addr
  | cons {addr last : Int} {length : Nat} {rest : List (Int × Nat)} :
      1 ≤ length → length ≤ limit → Tiles limit (addr + length) rest last →
      Tiles limit addr ((addr, length) :: rest) last

section Chunk

variable {limit left : Nat} {addr first last : Int} {spans more : List (Int × Nat)}

@[simp]
theorem chunks_zero : chunks limit addr 0 = [] := by
  rw [chunks]
  simp

theorem chunks_pos (positive : 0 < limit) (some : 0 < left) : chunks limit addr left =
    (addr, min limit left) :: chunks limit (addr + min limit left) (left - min limit left) := by
  conv_lhs => rw [chunks]
  rw [if_pos ⟨some, positive⟩]

example : chunks 1024 0 2500 = [(0, 1024), (1024, 1024), (2048, 452)] := by simp [chunks]

theorem chunks_tiles (positive : 0 < limit) :
    Tiles limit addr (chunks limit addr left) (addr + left) := by
  induction left using Nat.strongRecOn generalizing addr with
  | ind left inductionHypothesis =>
      rcases Nat.eq_zero_or_pos left with rfl | some
      · simpa using Tiles.nil
      · rw [chunks_pos positive some]
        have rest := @inductionHypothesis (left - min limit left) (by omega)
          (addr + min limit left)
        rw [show addr + min limit left + (left - min limit left : Nat) = addr + left by omega] at rest
        exact .cons (by omega) (Nat.min_le_left ..) rest

theorem chunks_length (positive : 0 < limit) :
    (chunks limit addr left).length = (left + limit - 1) / limit := by
  induction left using Nat.strongRecOn generalizing addr with
  | ind left inductionHypothesis =>
      rcases Nat.eq_zero_or_pos left with rfl | some
      · rw [chunks_zero, List.length_nil, Nat.div_eq_of_lt (by omega)]
      · rw [chunks_pos positive some, List.length_cons, inductionHypothesis _ (by omega)]
        rcases Nat.le_total limit left with more | short
        · rw [Nat.min_eq_left more, ← Nat.add_div_right _ positive]
          congr 1
          omega
        · rw [Nat.min_eq_right short, Nat.sub_self, Nat.div_eq_of_lt (by omega : 0 + limit - 1 < limit),
            show left + limit - 1 = left - 1 + limit by omega, Nat.add_div_right _ positive,
            Nat.div_eq_of_lt (by omega)]

namespace Tiles

theorem le (tiles : Tiles limit first spans last) : first ≤ last := by
  induction tiles with
  | nil => exact Int.le_refl _
  | cons _ _ _ inductionHypothesis => omega

theorem lengths (tiles : Tiles limit first spans last) :
    ∀ span ∈ spans, 1 ≤ span.2 ∧ span.2 ≤ limit := by
  induction tiles with
  | nil => exact nofun
  | cons some short _ inductionHypothesis =>
      intro span membership
      rcases List.mem_cons.mp membership with rfl | later
      · exact ⟨some, short⟩
      · exact inductionHypothesis span later

theorem first_le (tiles : Tiles limit first spans last) : ∀ span ∈ spans, first ≤ span.1 := by
  induction tiles with
  | nil => exact nofun
  | cons _ _ _ inductionHypothesis =>
      intro span membership
      rcases List.mem_cons.mp membership with rfl | later
      · exact Int.le_refl _
      · have := inductionHypothesis span later
        omega

theorem increasing (tiles : Tiles limit first spans last) :
    spans.Pairwise fun (span later : Int × Nat) => span.1 + span.2 ≤ later.1 := by
  induction tiles with
  | nil => exact .nil
  | cons _ _ rest inductionHypothesis => exact .cons rest.first_le inductionHypothesis

theorem covers (tiles : Tiles limit first spans last) (byte : Int) :
    (∃ span ∈ spans, span.1 ≤ byte ∧ byte < span.1 + span.2) ↔ first ≤ byte ∧ byte < last := by
  induction tiles with
  | nil =>
      simp only [List.not_mem_nil, false_and, exists_false, false_iff]
      omega
  | cons _ _ rest inductionHypothesis =>
      have := rest.le
      simp only [List.mem_cons, exists_eq_or_imp, inductionHypothesis]
      omega

/-- A part of the chunks tiles a part of the range. -/
theorem split (tiles : Tiles limit first (spans ++ more) last) :
    ∃ mid, Tiles limit first spans mid ∧ Tiles limit mid more last := by
  induction spans generalizing first with
  | nil => exact ⟨first, .nil, tiles⟩
  | cons span spans inductionHypothesis =>
      cases tiles with
      | cons some short rest =>
          obtain ⟨mid, head, tail⟩ := inductionHypothesis rest
          exact ⟨mid, .cons some short head, tail⟩

theorem start_eq (tiles : Tiles limit first spans last) (other : Tiles limit addr spans last) :
    first = addr := by
  cases tiles <;> cases other <;> rfl

end Tiles

end Chunk

/-! ### The journal of a loop -/

/-- A range that a loop went through, with what it asked for and the visits that found
room for the next chunk. -/
structure Round where
  base : Int := 0
  maxLen : Nat := 0
  issued : List (Int × Nat) := []
  visits : Nat := 0

structure Journal where
  past : List Round := []
  current : Round := {}

namespace Journal

def start (journal : Journal) (range : Int × Nat) : Journal :=
  ⟨journal.past ++ [journal.current], { base := range.1, maxLen := range.2 }⟩

/-- A visit that goes on to the next ranges, and asks for a chunk of the last one if
there is room. -/
def visit (ranges : List (Int × Nat)) (fits : Bool) (asked : List (Int × Nat))
    (journal : Journal) : Journal :=
  let started := ranges.foldl start journal
  { started with current := { started.current with
      issued := started.current.issued ++ asked
      visits := started.current.visits + if fits then 1 else 0 } }

/-- The loop has still to ask for `left` bytes from `addr` on, and no visit with room was
in vain. -/
structure Asking (limit : Nat) (journal : Journal) (addr : Int) (left : Nat) : Prop where
  past : ∀ round ∈ journal.past, round.issued = chunks limit round.base round.maxLen
  current : journal.current.issued ++ chunks limit addr left =
    chunks limit journal.current.base journal.current.maxLen
  ends : addr + left = journal.current.base + journal.current.maxLen
  visits : left = 0 ∨ journal.current.visits ≤ journal.current.issued.length

end Journal

/-- A loop over a state that also changes around it, with what an observer sees of a
visit: the ranges it starts, whether there is room, and what it asks for. -/
structure Loop (State : Type u) where
  visit : State → State → Prop
  around : State → State → Prop
  ranges : State → State → List (Int × Nat)
  fits : State → Bool
  asked : State → State → List (Int × Nat)

inductive Loop.Step {State : Type u} (loop : Loop State) :
    State × Journal → State × Journal → Prop
  | visit {before after : State} {journal : Journal} : loop.visit before after →
      Loop.Step loop (before, journal) (after,
        journal.visit (loop.ranges before after) (loop.fits after) (loop.asked before after))
  | around {before after : State} {journal : Journal} : loop.around before after →
      Loop.Step loop (before, journal) (after, journal)

namespace Journal.Asking

variable {limit left : Nat} {addr : Int} {journal : Journal}

theorem empty (limit : Nat) : Asking limit {} 0 0 where
  past := nofun
  current := by simp
  ends := rfl
  visits := .inl rfl

theorem start (asking : Asking limit journal addr 0) (base : Int) (maxLen : Nat) :
    Asking limit (journal.start (base, maxLen)) base maxLen where
  past := by
    intro round membership
    rcases List.mem_append.mp membership with earlier | last
    · exact asking.past round earlier
    · obtain rfl := List.mem_singleton.mp last
      simpa using asking.current
  current := rfl
  ends := rfl
  visits := .inr (Nat.le_refl 0)

theorem wait (asking : Asking limit journal addr left) {fits : Bool}
    (idle : fits = false ∨ left = 0) : Asking limit (journal.visit [] fits []) addr left where
  past := asking.past
  current := by simpa [visit] using asking.current
  ends := asking.ends
  visits := by
    rcases idle with rfl | finished
    · simpa [visit] using asking.visits
    · exact .inl finished

theorem ask (asking : Asking limit journal addr left) (positive : 0 < limit) (some : 0 < left)
    (fits : Bool) : Asking limit (journal.visit [] fits [(addr, min limit left)])
      (addr + min limit left) (left - min limit left) where
  past := asking.past
  current := by
    have rest := asking.current
    rw [chunks_pos positive some] at rest
    simpa [visit] using rest
  ends := by
    have ends := asking.ends
    simp only [visit, List.foldl_nil]
    omega
  visits := by
    right
    have visits := asking.visits.resolve_left (by omega)
    simp only [visit, List.foldl_nil, List.length_append, List.length_singleton]
    split <;> omega

end Journal.Asking

/-! ### What is covered -/

/-- What was asked for is cut into chunks of 1 to `limit` bytes and covers the range up to
`last`, in increasing order and no byte twice. -/
structure Round.Covers (limit : Nat) (round : Round) (last : Int) : Prop where
  lengths : ∀ span ∈ round.issued, 1 ≤ span.2 ∧ span.2 ≤ limit
  increasing : round.issued.Pairwise fun (span later : Int × Nat) => span.1 + span.2 ≤ later.1
  covers : ∀ addr : Int, (∃ span ∈ round.issued, span.1 ≤ addr ∧ addr < span.1 + span.2) ↔
    round.base ≤ addr ∧ addr < last
  none : last = round.base → round.issued = []

/-- Every range that is done is covered, the current one up to `addr`; it is done as soon
as as many visits found room as it has chunks. -/
structure Journal.Covered (limit : Nat) (journal : Journal) (addr : Int) (left : Nat) : Prop where
  past : ∀ round ∈ journal.past, round.Covers limit (round.base + round.maxLen)
  current : journal.current.Covers limit addr
  rest : addr + left = journal.current.base + journal.current.maxLen
  completes : (journal.current.maxLen + limit - 1) / limit ≤ journal.current.visits → left = 0

theorem Tiles.round {limit : Nat} {round : Round} {last : Int}
    (tiles : Tiles limit round.base round.issued last) : round.Covers limit last where
  lengths := tiles.lengths
  increasing := tiles.increasing
  covers := tiles.covers
  none := by
    rintro rfl
    refine List.eq_nil_iff_forall_not_mem.mpr fun span membership => ?_
    have some := tiles.lengths span membership
    have inside := (tiles.covers span.1).mp ⟨span, membership, by omega, by omega⟩
    omega

theorem Journal.Asking.covered {limit left : Nat} {addr : Int} {journal : Journal}
    (asking : Journal.Asking limit journal addr left) (positive : 0 < limit) :
    journal.Covered limit addr left where
  past round membership := by
    have tiles := @chunks_tiles limit round.maxLen round.base positive
    rw [← asking.past round membership] at tiles
    exact tiles.round
  current := by
    have tiles := @chunks_tiles limit journal.current.maxLen journal.current.base positive
    rw [← asking.current] at tiles
    obtain ⟨mid, issued, rest⟩ := tiles.split
    rw [← asking.ends] at rest
    obtain rfl := rest.start_eq (chunks_tiles positive)
    exact issued.round
  rest := asking.ends
  completes := by
    intro enough
    rcases asking.visits with finished | used
    · exact finished
    · have count := congrArg List.length asking.current
      rw [List.length_append, chunks_length positive, chunks_length positive] at count
      rw [← count] at enough
      have few := Nat.eq_zero_of_le_zero (Nat.le_of_add_le_add_left (Nat.le_trans enough used))
      rw [Nat.div_eq_zero_iff] at few
      omega

end Chunks
