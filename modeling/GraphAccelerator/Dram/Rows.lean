import GraphAccelerator.Dram.Channel
import GraphAccelerator.Dram.Protocol

/-!
# The table of open rows

Besides the states of the banks the controller keeps a table of the open rows.  It agrees
with them as long as every command is permitted, and its assertions hold.
-/

namespace GraphAccelerator.Dram

namespace RowTable

theorem find_append (table : RowTable) (key other : List Int) (entry : Entry) :
    RowTable.find key (table ++ [(other, entry)]) =
      (table.find key).or (if other = key then some entry else none) := by
  unfold RowTable.find
  rw [List.find?_append]
  cases found : table.find? fun entry => entry.1 = key with
  | some _ => simp
  | none => by_cases same : other = key <;> simp [same]

theorem find_map (table : RowTable) (key other : List Int) (entry : Entry) :
    RowTable.find key (table.map fun old => if old.1 = other then (other, entry) else old) =
      if key = other then (table.find key).map fun _ => entry else table.find key := by
  unfold RowTable.find
  induction table with
  | nil => simp
  | cons first rest inductionHypothesis =>
      by_cases same : first.1 = other <;> by_cases wanted : key = other <;>
        by_cases here : first.1 = key <;> simp_all

theorem find_filter (table : RowTable) (key : List Int) (keep : List Int → Bool) :
    RowTable.find key (table.filter fun entry => keep entry.1) =
      if keep key then table.find key else none := by
  unfold RowTable.find
  induction table with
  | nil => simp
  | cons first rest inductionHypothesis =>
      by_cases kept : keep first.1 <;> by_cases here : first.1 = key <;> simp_all

theorem mem_of_find {table : RowTable} {key : List Int} {entry : Entry}
    (found : table.find key = some entry) : (key, entry) ∈ table := by
  obtain ⟨⟨other, same⟩, known, rfl⟩ := Option.map_eq_some_iff.mp found
  obtain rfl : other = key := by simpa using List.find?_some known
  exact List.mem_of_find?_eq_some known

theorem update_closing {Command State : Type} {spec : Standard Command State} {cmd : Command}
    {addr : List Int} {row : Int} {table : RowTable} (hasRow : addr[spec.row]? = some row)
    (notOpening : spec.isOpening cmd = false) (notAccessing : spec.isAccessing cmd = false)
    (isClosing : spec.isClosing cmd = true) (deep : spec.scope cmd + 1 ≤ spec.row)
    (fewer : (table.filter fun entry =>
        entry.1.take (spec.scope cmd + 1) ≠ addr.take (spec.scope cmd + 1)).length <
      table.length) (clk : Int) :
    table.update spec cmd addr clk = some (table.filter fun entry =>
      entry.1.take (spec.scope cmd + 1) ≠ addr.take (spec.scope cmd + 1)) := by
  simp only [RowTable.update, RowTable.opening, RowTable.accessing, hasRow, notOpening,
    notAccessing, Bool.false_eq_true, if_false, false_and, Option.bind_eq_bind, Option.bind_some]
  rw [RowTable.closing, if_pos isClosing, if_neg (by omega)]
  exact if_pos fewer

end RowTable

namespace Ddr3

/-- The table has the row that is open in a bank, and no other entries. -/
structure Mirrors (log : List (Issue Command)) (table : RowTable) : Prop where
  width : ∀ entry ∈ table, entry.1.length = 3
  rows : ∀ key, key.length = 3 → (table.find key).map Entry.row = openAfter key log

theorem Mirrors.nil : Mirrors [] [] := ⟨by simp, by simp [RowTable.find, openAfter]⟩

variable {org : Org} {ranks id : Nat} {log : List (Issue Command)} {table : RowTable}
  {cmd : Command} {addr : List Int} {clk : Int}

theorem Mirrors.opening (mirrors : Mirrors log table) {row : Int} (hasRow : addr[3]? = some row)
    (wide : 3 ≤ addr.length) (closed : openAfter (addr.take 3) log = none) (stamp : Int) :
    table.find (addr.take 3) = none ∧
      Mirrors (⟨.act, addr, clk⟩ :: log) (table ++ [(addr.take 3, ⟨row, 0, stamp⟩)]) := by
  have width : (addr.take 3).length = 3 := by simp [wide]
  have absent : table.find (addr.take 3) = none := by
    have same := mirrors.rows _ width
    rw [closed] at same
    simpa using same
  refine ⟨absent, ?_, ?_⟩
  · intro entry present
    rcases List.mem_append.mp present with old | new
    · exact mirrors.width entry old
    · rw [List.mem_singleton.mp new]
      exact width
  · intro key keyWidth
    rw [RowTable.find_append]
    have reaches : key <+: addr ↔ addr.take 3 = key := by
      rw [List.prefix_iff_eq_take, keyWidth, eq_comm]
    by_cases here : addr.take 3 = key
    · subst here
      simp [openAfter, reaches, absent, hasRow]
    · simp [openAfter, reaches, here, mirrors.rows key keyWidth]

theorem Mirrors.closing (mirrors : Mirrors log table) {depth : Nat} (inScope : depth ≤ 3)
    {issue : Issue Command}
    (closes : ∀ key, key.length = 3 → openAfter key (issue :: log) =
      if key.take depth <+: issue.addr then none else openAfter key log)
    {key : List Int} (width : key.length = 3) (reaches : key.take depth <+: issue.addr)
    (opened : (openAfter key log).isSome) :
    let kept := table.filter fun entry => entry.1.take depth ≠ issue.addr.take depth
    kept.length < table.length ∧ Mirrors (issue :: log) kept := by
  have sameTake : ∀ {other : List Int}, other.length = 3 →
      (other.take depth <+: issue.addr ↔ other.take depth = issue.addr.take depth) := by
    intro other otherWidth
    rw [List.prefix_iff_eq_take, List.length_take, otherWidth, min_eq_left inScope]
  refine ⟨?_, ?_, ?_⟩
  · rw [List.length_filter_lt_length_iff_exists]
    have same := mirrors.rows key width
    rw [← same, Option.isSome_map] at opened
    obtain ⟨entry, found⟩ := Option.isSome_iff_exists.mp opened
    refine ⟨(key, entry), RowTable.mem_of_find found, ?_⟩
    simpa using (sameTake width).mp reaches
  · intro entry present
    exact mirrors.width entry (List.mem_of_mem_filter present)
  · intro other otherWidth
    have filtered := RowTable.find_filter table other
      fun key => decide (key.take depth ≠ issue.addr.take depth)
    rw [filtered, closes other otherWidth]
    by_cases inside : other.take depth <+: issue.addr
    · rw [if_pos inside, (sameTake otherWidth).mp inside]
      simp
    · have outside : other.take depth ≠ issue.addr.take depth :=
        fun same => inside ((sameTake otherWidth).mpr same)
      simp [inside, outside, mirrors.rows other otherWidth]

theorem Mirrors.accessing (mirrors : Mirrors log table) {issue : Issue Command}
    (keeps : ∀ key, openAfter key (issue :: log) = openAfter key log) {key : List Int}
    (width : key.length = 3) {row : Int} (opened : openAfter key log = some row) :
    ∃ entry, table.find key = some entry ∧ entry.row = row ∧ ∀ hits timestamp,
      Mirrors (issue :: log) (table.map fun other =>
        if other.1 = key then (key, { entry with hits, timestamp }) else other) := by
  have same := mirrors.rows key width
  rw [opened, Option.map_eq_some_iff] at same
  obtain ⟨entry, found, sameRow⟩ := same
  refine ⟨entry, found, sameRow, fun hits timestamp => ⟨?_, ?_⟩⟩
  · intro other present
    obtain ⟨old, known, rfl⟩ := List.mem_map.mp present
    split
    · exact width
    · exact mirrors.width old known
  · intro other otherWidth
    rw [RowTable.find_map, keeps]
    split
    · rename_i here
      rw [here, found, opened]
      simp [sameRow]
    · exact mirrors.rows other otherWidth

/-- No assertion of the table fails for a permitted command, and the table follows. -/
theorem Mirrors.update (speed : Speed) (channels : Nat) (mirrors : Mirrors log table)
    (targets : Targets org ranks id cmd addr)
    (permitted : Permits (orgTable org).bank log cmd addr) (clk stamp : Int) :
    ∃ after, table.update (ddr3 org speed channels ranks) cmd addr stamp = some after ∧
      Mirrors (⟨cmd, addr, clk⟩ :: log) after := by
  have wide := targets.length
  obtain ⟨row, hasRow⟩ : ∃ row, addr[3]? = some row :=
    ⟨_, List.getElem?_eq_getElem (by omega)⟩
  have width : (addr.take 3).length = 3 := by simp [wide]
  rcases targets with ⟨rfl | rfl | access, _⟩ | ⟨rfl | rfl, _⟩
  case inl.inl =>
    obtain ⟨absent, follows⟩ := mirrors.opening hasRow (by omega) permitted stamp
    refine ⟨_, ?_, follows⟩
    simp [RowTable.update, RowTable.opening, RowTable.accessing, RowTable.closing, ddr3, absent,
      hasRow]
  case inl.inr.inl =>
    have closes : ∀ key, key.length = 3 → openAfter key (⟨.pre, addr, clk⟩ :: log) =
        if key.take 3 <+: addr then none else openAfter key log := by
      intro key keyWidth
      rw [List.take_of_length_le keyWidth.le]
      rfl
    obtain ⟨fewer, follows⟩ := mirrors.closing le_rfl closes width
      (by rw [List.take_take]; exact List.take_prefix _ _) permitted
    exact ⟨_, RowTable.update_closing hasRow rfl rfl rfl le_rfl fewer stamp, follows⟩
  case inr.inl =>
    obtain ⟨b, _, opened⟩ := permitted
    have closes : ∀ key, key.length = 3 → openAfter key (⟨.prea, addr, clk⟩ :: log) =
        if key.take 2 <+: addr then none else openAfter key log := by
      intro key keyWidth
      rw [openAfter, List.dropLast_eq_take, keyWidth]
    have inRank : (addr.take 2 ++ [(b : Int)]).take 2 <+: addr := by
      rw [List.take_left' (by simp [wide])]
      exact List.take_prefix _ _
    obtain ⟨fewer, follows⟩ := mirrors.closing (by omega) closes (by simp [wide]) inRank opened
    exact ⟨_, RowTable.update_closing hasRow rfl rfl rfl (Nat.le_succ 2) fewer stamp, follows⟩
  case inr.inr =>
    refine ⟨table, ?_, mirrors.width, fun key keyWidth => ?_⟩
    · simp [RowTable.update, RowTable.opening, RowTable.accessing, RowTable.closing, ddr3, hasRow]
    · rw [openAfter_keeps (.inr (.inr rfl))]
      exact mirrors.rows key keyWidth
  case inl.inr.inr =>
    obtain ⟨other, sameRow, opened⟩ : ∃ other, addr[3]? = some other ∧
        openAfter (addr.take 3) log = some other := by
      rcases access with rfl | rfl <;> exact permitted
    obtain rfl : row = other := Option.some.inj (hasRow.symm.trans sameRow)
    have keeps : ∀ key, openAfter key (⟨cmd, addr, clk⟩ :: log) = openAfter key log := by
      rcases access with rfl | rfl
      · exact fun key => openAfter_keeps (.inl rfl)
      · exact fun key => openAfter_keeps (.inr (.inl rfl))
    obtain ⟨entry, found, entryRow, follows⟩ := mirrors.accessing keeps width opened
    refine ⟨_, ?_, follows (entry.hits + 1) stamp⟩
    rcases access with rfl | rfl <;>
      simp [RowTable.update, RowTable.opening, RowTable.accessing, RowTable.closing, ddr3, hasRow,
        found, entryRow]

end Ddr3

end GraphAccelerator.Dram
