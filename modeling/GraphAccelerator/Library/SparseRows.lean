import GraphAccelerator.Library.Loop

/-!
# Compressed sparse rows

A list of rows is stored as one list of columns and one list of row pointers.
`RowAt` is what a reader of the two lists relies on, `encode_rowAt` is what the
construction by prefix sums provides, and the two `foldl` rules turn a loop over
the positions of one row into a loop over the row.
-/

namespace SparseRows

open CheckedLoop

universe u

variable {Column State : Type u}

def pointers (rows : List (List Column)) : List Nat :=
  (rows.map List.length).scanl (· + ·) 0

def columns (rows : List (List Column)) : List Column := rows.flatten

/-- Between its two pointers the stored row number `index` is `row`. -/
def RowAt (pointers : List Nat) (columns : List Column) (index : Nat)
    (row : List Column) : Prop :=
  ∃ first, pointers[index]? = some first ∧
    pointers[index + 1]? = some (first + row.length) ∧
    ∀ offset, offset < row.length → columns[first + offset]? = row[offset]?

theorem foldl_add_length (rows : List (List Column)) (start : Nat) :
    (rows.map List.length).foldl (· + ·) start = start + rows.flatten.length := by
  induction rows generalizing start with
  | nil => simp
  | cons row rows inductionHypothesis =>
      rw [List.map_cons, List.foldl_cons, inductionHypothesis, List.flatten_cons,
        List.length_append, Nat.add_assoc]

@[simp]
theorem pointers_length (rows : List (List Column)) :
    (pointers rows).length = rows.length + 1 := by
  simp [pointers]

theorem pointers_getElem? (rows : List (List Column)) {index : Nat}
    (bound : index ≤ rows.length) :
    (pointers rows)[index]? = some (rows.take index).flatten.length := by
  rw [pointers, List.getElem?_scanl, if_pos (by simpa using bound), ← List.map_take,
    foldl_add_length, Nat.zero_add]

theorem le_of_mem_pointers {rows : List (List Column)} {pointer : Nat}
    (membership : pointer ∈ pointers rows) : pointer ≤ rows.flatten.length := by
  obtain ⟨index, bound, rfl⟩ := List.getElem_of_mem membership
  rw [pointers_length] at bound
  have counts := pointers_getElem? rows (Nat.le_of_lt_succ bound)
  rw [List.getElem?_eq_getElem (by simpa using bound), Option.some.injEq] at counts
  rw [counts]
  conv_rhs => rw [← List.take_append_drop index rows, List.flatten_append, List.length_append]
  exact Nat.le_add_right ..

theorem encode_rowAt (rows : List (List Column)) {index : Nat} {row : List Column}
    (stored : rows[index]? = some row) :
    RowAt (pointers rows) (columns rows) index row := by
  obtain ⟨bound, rfl⟩ := List.getElem?_eq_some_iff.mp stored
  refine ⟨(rows.take index).flatten.length,
    pointers_getElem? rows (Nat.le_of_lt bound), ?_, ?_⟩
  · rw [pointers_getElem? rows bound, List.take_succ_eq_append_getElem bound,
      List.flatten_append, List.length_append]
    simp
  · intro offset offsetBound
    have split : rows = rows.take index ++ rows[index] :: rows.drop (index + 1) := by
      rw [← List.drop_eq_getElem_cons bound, List.take_append_drop]
    have flat : columns rows = (rows.take index).flatten ++
        (rows[index] ++ (rows.drop (index + 1)).flatten) := by
      conv_lhs => rw [columns, split, List.flatten_append, List.flatten_cons]
    rw [flat, List.getElem?_append_right (by omega),
      Nat.add_sub_cancel_left, List.getElem?_append_left offsetBound]

section Reading

variable {stored : List Column} {first : Nat} {row : List Column}

theorem entries_cons {column : Column}
    (entries : ∀ offset, offset < (column :: row).length →
      stored[first + offset]? = (column :: row)[offset]?) :
    stored[first]? = some column ∧
      ∀ offset, offset < row.length → stored[first + 1 + offset]? = row[offset]? := by
  refine ⟨by simpa using entries 0 (by simp), ?_⟩
  intro offset offsetBound
  have next := entries (offset + 1) (by simpa using offsetBound)
  rw [List.getElem?_cons_succ] at next
  rw [← next]
  congr 1
  omega

/-- Looping over the positions of a row is looping over the row. -/
theorem foldlM_positions (body : State → Column → Option State) (start : State)
    (entries : ∀ offset, offset < row.length → stored[first + offset]? = row[offset]?) :
    (List.range' first row.length).foldlM
        (fun state position => do body state (← stored[position]?)) start =
      row.foldlM body start := by
  induction row generalizing first start with
  | nil => rfl
  | cons column row inductionHypothesis =>
      obtain ⟨head, tail⟩ := entries_cons entries
      simp only [List.length_cons, List.range'_succ, List.foldlM_cons, head,
        Option.bind_eq_bind, Option.bind_some]
      cases body start column with
      | none => rfl
      | some next => exact inductionHypothesis next tail

theorem forBreak_positions (body : State → Column → Option (ForInStep State))
    (start : State)
    (entries : ∀ offset, offset < row.length → stored[first + offset]? = row[offset]?) :
    forBreak (fun state position => do body state (← stored[position]?)) start
        (List.range' first row.length) =
      forBreak body start row := by
  induction row generalizing first start with
  | nil => rfl
  | cons column row inductionHypothesis =>
      obtain ⟨head, tail⟩ := entries_cons entries
      simp only [List.length_cons, List.range'_succ, forBreak, head,
        Option.bind_eq_bind, Option.bind_some]
      cases body start column with
      | none => rfl
      | some outcome =>
          cases outcome with
          | done next => rfl
          | yield next => exact inductionHypothesis next tail

end Reading

end SparseRows
