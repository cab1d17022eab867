import Descent.Text.Quoted

/-!
# Character classes

A class is given by ranges of characters and by its *polarity*: it has either the
characters in the ranges or all the others. Characters are ordered by code point.
-/

namespace Descent

/-- A set of characters: those in one of the ranges, ends included, or, if negated, all
    the others. -/
structure CharClass where
  /-- The ranges, each with its lowest and its highest character. -/
  ranges : List (Char × Char)
  /-- The class has the characters outside the ranges instead. -/
  negated : Bool
  deriving DecidableEq, Repr, Inhabited

namespace CharClass

/-- The class has the character `c`. -/
def accepts (k : CharClass) (c : Char) : Bool :=
  (k.ranges.any fun (low, high) => low ≤ c && c ≤ high) != k.negated

/-- The two ends of a range. -/
def renderRange : (range : Char × Char) → Word
  | (low, high) => Text.tuple [Text.quoted [low], Text.quoted [high]]

/-- The class as a call, with its ranges and its polarity. -/
def render (k : CharClass) : Word :=
  Text.call "CharClass"
    [Text.tuple (k.ranges.map renderRange),
      (if k.negated then "negated=True" else "negated=False").toList]

end CharClass

end Descent
