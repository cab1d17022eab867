import Descent.Sums.Expression
import Mathlib.Algebra.GroupWithZero.Nat
import Mathlib.Tactic.Common

/-!
# The value of an expression

Numbers are added up on a stack of their own, but the outcome is that of plain recursion
over the expression (`Expression.sum`): each pending expression adds its own value, and the
first one without a value ends it all (`Expression.addAll_eq_foldlM`).

Without foreign values, the value is the sum of the numbers in the expression, from left to
right (`Expression.numbers`, `Expression.total_eq_sum_numbers`). With some, the first of them from
the left is found instead, wherever it stands (`Expression.value_eq_leaves`).
-/

namespace Descent.Expression

variable {φ : Type}

/-- The value by recursion over the expression, or else its first foreign value. -/
def sum : Expression φ → Except φ Nat
  | .number n => .ok n
  | .plus left right => do return (← left.sum) + (← right.sum)
  | .foreign x => .error x

/-- The pending expressions add their values one after the other. -/
theorem addAll_eq_foldlM (total : Nat) (pending : List (Expression φ)) :
    addAll total pending = pending.foldlM (fun n e => e.sum.map (n + ·)) total := by
  induction total, pending using addAll.induct with
  | case1 total => rw [addAll]; rfl
  | case2 total n pending ih => rw [addAll, ih]; rfl
  | case3 total left right pending ih =>
    -- The parts of a sum are pending in its place, and add up to the same.
    rw [addAll, ih]
    simp only [List.foldlM_cons, sum]
    cases left.sum with
    | error x => rfl
    | ok m =>
      cases right.sum with
      | error x => rfl
      | ok n => exact congrArg (fun total => List.foldlM _ total pending) (Nat.add_assoc total m n)
  | case4 total x pending => rw [addAll]; rfl

/-- The value is found by recursion over the expression. -/
theorem value_eq_sum (e : Expression φ) : e.value = e.sum := by
  rw [value, addAll_eq_foldlM, List.foldlM_cons]
  cases e.sum with
  | ok n => exact congrArg Except.ok (Nat.zero_add n)
  | error x => rfl

/-- The numbers in an expression, from left to right. -/
def numbers : Expression φ → List Nat
  | .number n => [n]
  | .plus left right => left.numbers ++ right.numbers
  | .foreign _ => []

theorem sum_eq_numbers (e : Expression Empty) : e.sum = .ok e.numbers.sum := by
  induction e with
  | number n => rfl
  | plus left right ihl ihr => rw [sum, ihl, ihr, numbers, List.sum_append]; rfl
  | foreign x => exact nomatch x

/-- The value of an expression without foreign values is the sum of its numbers. -/
theorem total_eq_sum_numbers (e : Expression Empty) : e.total = e.numbers.sum := by
  rw [total, value_eq_sum, sum_eq_numbers]

/-! ## Foreign values -/

/-- The numbers and foreign values in an expression, from left to right. -/
def leaves : Expression φ → List (Nat ⊕ φ)
  | .number n => [.inl n]
  | .plus left right => left.leaves ++ right.leaves
  | .foreign x => [.inr x]

/-- The pending expressions add up to the sum of the numbers in them and before, unless there is a
    foreign value among their leaves: then the first one of these is found. -/
theorem addAll_eq_leaves (total : Nat) (pending : List (Expression φ)) :
    addAll total pending = match (pending.flatMap leaves).findSome? Sum.getRight? with
      | some x => .error x
      | none => .ok (total + (pending.flatMap numbers).sum) := by
  induction total, pending using addAll.induct with
  | case1 total => rw [addAll]; rfl
  | case2 total n pending ih =>
    rw [addAll, ih]
    simp only [List.flatMap_cons, leaves, numbers, List.singleton_append, List.findSome?_cons,
      Sum.getRight?_inl, List.sum_cons, Nat.add_assoc]
  | case3 total left right pending ih =>
    -- The leaves of the parts of a sum are those of the sum.
    rw [addAll, ih]
    simp only [List.flatMap_cons, leaves, numbers, List.append_assoc]
  | case4 total x pending => rw [addAll]; rfl

/-- The value on a stack of pending expressions is that of plain recursion: the sum of the numbers,
    if there are only numbers, and otherwise the first foreign value from the left. -/
theorem value_eq_leaves (e : Expression φ) :
    e.value = e.sum ∧
      e.value = match e.leaves.findSome? Sum.getRight? with
        | some x => .error x
        | none => .ok e.numbers.sum := by
  refine ⟨e.value_eq_sum, ?_⟩
  rw [value, addAll_eq_leaves, List.flatMap_singleton, List.flatMap_singleton, Nat.zero_add]

end Descent.Expression
