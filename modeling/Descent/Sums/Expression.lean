import Descent.Numeral

/-!
# Sums

An expression is a number or the sum of two expressions. It may also have *foreign*
values of some type in place of numbers: such an expression can be shown but has no
value. With the empty type for `φ` there are none.

The value is found by adding up the numbers from left to right (`Expression.addAll`),
with what is still to be added on a stack of its own, as sums may be nested deeply.
-/

namespace Descent

/-- An expression, with foreign values of the type `φ`. -/
inductive Expression (φ : Type) where
  /-- A number. -/
  | number (n : Nat)
  /-- The sum of two expressions. -/
  | plus (left right : Expression φ)
  /-- A foreign value. -/
  | foreign (x : φ)
  deriving Repr

/-- A number is negative. -/
inductive NumberError where
  /-- Numbers may not be negative. -/
  | negative
  deriving DecidableEq, Repr

/-- The wording of an error. -/
def NumberError.message : NumberError → Word
  | .negative => "Number must be non-negative".toList

namespace Expression

variable {φ : Type}

/-- The expression for an integer, if it is not negative. -/
def ofInt : (n : Int) → Except NumberError (Expression φ)
  | .ofNat n => .ok (.number n)
  | .negSucc _ => .error .negative

/-! ## Value -/

/-- The number of nodes. -/
def size : Expression φ → Nat
  | .number _ | .foreign _ => 1
  | .plus left right => left.size + right.size + 1

/-- The sum of `total` and the values of the pending expressions, or the first foreign
    value in them. -/
def addAll (total : Nat) (pending : List (Expression φ)) : Except φ Nat :=
  match pending with
  | [] => .ok total
  | .number n :: pending => addAll (total + n) pending
  -- the left part comes first, so that foreign values are found in reading order
  | .plus left right :: pending => addAll total (left :: right :: pending)
  | .foreign x :: _ => .error x
termination_by pending.foldr (·.size + ·) 0
decreasing_by all_goals simp only [List.foldr_cons, size]; omega

/-- The value of an expression, or else its first foreign value. -/
def value (e : Expression φ) : Except φ Nat := addAll 0 [e]

/-- The value of an expression without foreign values. -/
def total (e : Expression Empty) : Nat :=
  match e.value with
  | .ok n => n
  | .error x => nomatch x

/-! ## Equality -/

/-- The expressions are equal part by part. -/
def beq [BEq φ] : (a b : Expression φ) → Bool
  | .number m, .number n => m == n
  | .plus a b, .plus c d => a.beq c && b.beq d
  | .foreign x, .foreign y => x == y
  | _, _ => false

instance [BEq φ] : BEq (Expression φ) := ⟨beq⟩

/-! ## Rendering -/

/-- How many sums are nested within one another. -/
def depth : Expression φ → Nat
  | .number _ | .foreign _ => 0
  | .plus left right => max left.depth right.depth + 1

/-- The expression in full parentheses, where `showForeign` shows foreign values. -/
def render (showForeign : φ → Word) : Expression φ → Word
  | .number n => Numeral.write n
  | .plus left right =>
    '(' :: (left.render showForeign ++ " + ".toList ++ right.render showForeign ++ [')'])
  | .foreign x => showForeign x

/-- An expression without foreign values in full parentheses. -/
def written (e : Expression Empty) : Word := e.render fun x => nomatch x

/-- The expression field by field. Its numbers are shown plainly. -/
def record (showForeign : φ → Word) : Expression φ → Except Numeral.Error Word
  | .number n => do return Text.call "Number" ["n=".toList ++ (← Numeral.plain n)]
  | .plus left right => do
    let left ← left.record showForeign
    let right ← right.record showForeign
    return Text.call "Plus" ["left=".toList ++ left, "right=".toList ++ right]
  | .foreign x => .ok (showForeign x)

end Expression

end Descent
