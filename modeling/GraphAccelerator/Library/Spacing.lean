import Mathlib.Algebra.Order.Group.Defs
import Mathlib.Data.List.Basic
import Mathlib.Order.MinMax

/-!
# Events kept apart

A rule keeps an event `gap` apart from all earlier events of a kind, except the
`dist - 1` newest of them.  Whether rules allow an event now can be decided without the
whole history: the newest `dist` times of every kind and one running maximum are enough.
Times are listed from the newest to the oldest.
-/

namespace Spacing

universe u v

variable {Time : Type u}

section History

def recent (blank : Time) (depth : Nat) (times : List Time) : List Time :=
  (times ++ List.replicate depth blank).take depth

variable (blank : Time) (depth : Nat) (times : List Time)

@[simp]
theorem length_recent : (recent blank depth times).length = depth := by
  simp [recent]

theorem recent_nil : recent blank depth [] = List.replicate depth blank := by
  simp [recent]

theorem recent_cons (time : Time) :
    recent blank (depth + 1) (time :: times) =
      time :: (recent blank (depth + 1) times).dropLast := by
  rw [List.dropLast_eq_take, length_recent, recent, recent, List.take_take, List.cons_append,
    List.take_succ_cons, Nat.add_sub_cancel, Nat.min_eq_left (Nat.le_succ depth)]

theorem getElem?_recent {i : Nat} (bound : i < depth) :
    (recent blank depth times)[i]? = some (times[i]?.getD blank) := by
  rw [recent, List.getElem?_take_of_lt bound, List.getElem?_append]
  split
  · rename_i known
    rw [List.getElem?_eq_getElem known, Option.getD_some]
  · rename_i unknown
    rw [List.getElem?_replicate, if_pos (by omega), List.getElem?_eq_none (by omega),
      Option.getD_none]

end History

section Rules

variable [Add Time] [LE Time]

/-- Now is at least `gap` after every time but the `dist - 1` newest. -/
def Apart (dist : Nat) (gap : Time) (times : List Time) (now : Time) : Prop :=
  ∀ past ∈ times.drop (dist - 1), past + gap ≤ now

theorem apart_nil (dist : Nat) (gap now : Time) : Apart dist gap [] now := by
  simp [Apart]

/-- A new event brings one more time that counts, the `dist`-th newest. -/
theorem apart_cons {dist : Nat} (positive : 0 < dist) (gap time now : Time) (times : List Time) :
    Apart dist gap (time :: times) now ↔
      Apart dist gap times now ∧
        ∀ past, (time :: times)[dist - 1]? = some past → past + gap ≤ now := by
  obtain ⟨before, rfl⟩ : ∃ before, dist = before + 1 := ⟨dist - 1, by omega⟩
  rw [Apart, Apart, Nat.add_sub_cancel]
  cases found : (time :: times)[before]? with
  | none =>
      have short := List.getElem?_eq_none_iff.mp found
      rw [List.length_cons] at short
      rw [List.drop_eq_nil_of_le (by rw [List.length_cons]; omega),
        List.drop_eq_nil_of_le (by omega)]
      simp
  | some past =>
      obtain ⟨bound, rfl⟩ := List.getElem?_eq_some_iff.mp found
      rw [List.drop_eq_getElem_cons bound, List.drop_succ_cons, List.forall_mem_cons, and_comm]
      simp

end Rules

section Maximum

variable [LinearOrder Time]

/-- The times from `bound` on are those from `lowest` on at which `met` holds. -/
def Decides (lowest bound : Time) (met : Time → Prop) : Prop :=
  ∀ now, bound ≤ now ↔ lowest ≤ now ∧ met now

variable {lowest bound future : Time} {met more : Time → Prop}

theorem Decides.start (lowest : Time) {met : Time → Prop} (always : ∀ now, met now) :
    Decides lowest lowest met :=
  fun now => ⟨fun late => ⟨late, always now⟩, fun late => late.1⟩

theorem Decides.max (decides : Decides lowest bound met)
    (later : ∀ now, future ≤ now ↔ more now) :
    Decides lowest (max bound future) fun now => met now ∧ more now := by
  intro now
  rw [max_le_iff, decides now, later now, and_assoc]

theorem Decides.congr (decides : Decides lowest bound met)
    (same : ∀ now, met now ↔ more now) : Decides lowest bound more :=
  fun now => (decides now).trans (and_congr_right fun _ => same now)

end Maximum

end Spacing
