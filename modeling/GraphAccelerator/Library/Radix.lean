import Mathlib.Data.List.Forall2
import Mathlib.Algebra.Order.Ring.Nat
import Mathlib.Algebra.BigOperators.Group.List.Basic

/-!
# Numbers in mixed radices

The digits of a number, from the lowest on, where every place has a radix of its own.
They determine the number up to multiples of the product of the radices.
-/

namespace Radix

def digits : List Nat → Nat → List Nat
  | [], _ => []
  | radix :: radices, n => n % radix :: digits radices (n / radix)

def value : List Nat → List Nat → Nat
  | radix :: radices, digit :: rest => digit + radix * value radices rest
  | _, _ => 0

theorem digits_lt {radices : List Nat} (positive : ∀ radix ∈ radices, 0 < radix) (n : Nat) :
    List.Forall₂ (· < ·) (digits radices n) radices := by
  induction radices generalizing n with
  | nil => exact .nil
  | cons radix radices inductionHypothesis =>
      obtain ⟨first, others⟩ := List.forall_mem_cons.mp positive
      exact .cons (Nat.mod_lt n first) (inductionHypothesis others _)

theorem value_digits (radices : List Nat) (n : Nat) :
    value radices (digits radices n) = n % radices.prod := by
  induction radices generalizing n with
  | nil => simp [value, Nat.mod_one]
  | cons radix radices inductionHypothesis =>
      rw [digits, value, inductionHypothesis, List.prod_cons, Nat.mod_mul]

theorem digits_value {radices digitList : List Nat}
    (bounded : List.Forall₂ (· < ·) digitList radices) :
    digits radices (value radices digitList) = digitList := by
  induction bounded with
  | nil => rfl
  | cons small _ inductionHypothesis =>
      rw [value, digits, Nat.add_mul_mod_self_left, Nat.mod_eq_of_lt small,
        Nat.add_mul_div_left _ _ (Nat.zero_lt_of_lt small), Nat.div_eq_of_lt small, Nat.zero_add,
        inductionHypothesis]

theorem value_lt {radices digitList : List Nat}
    (bounded : List.Forall₂ (· < ·) digitList radices) :
    value radices digitList < radices.prod := by
  induction bounded with
  | nil => exact Nat.one_pos
  | @cons digit radix rest radices small _ inductionHypothesis =>
      rw [value, List.prod_cons]
      calc digit + radix * value radices rest < radix * (value radices rest + 1) := by
            rw [Nat.mul_add, Nat.mul_one, Nat.add_comm]
            exact Nat.add_lt_add_left small _
        _ ≤ radix * radices.prod := Nat.mul_le_mul_left _ inductionHypothesis

theorem digits_eq_iff {radices : List Nat} (positive : ∀ radix ∈ radices, 0 < radix) (n m : Nat) :
    digits radices n = digits radices m ↔ n % radices.prod = m % radices.prod := by
  constructor
  · intro same
    rw [← value_digits, ← value_digits, same]
  · intro same
    have here := digits_value (digits_lt positive n)
    have there := digits_value (digits_lt positive m)
    rw [value_digits] at here there
    rw [← here, ← there, same]

end Radix
