import Descent.CharClass

/-!
# Escapes

Between its delimiters, a description spells characters with escapes: a backslash
makes the next character stand for itself, or for a line break, tab or return. What
is spelled is a list of characters, each told whether it was escaped (`unescape`).

In a character class, a hyphen between two characters makes a range of them, unless
the hyphen is escaped, and a circumflex in front negates the class
(`CharClass.ofBody`).
-/

namespace Descent

/-- The character that stands for itself or, if it is one of `n`, `t` and `r`, for a line
    break, a tab or a return. -/
def unescaped (c : Char) : Char :=
  if c = 'n' then '\n' else if c = 't' then '\t' else if c = 'r' then '\r' else c

/-- The characters spelled by a word, and whether each was escaped. A backslash at the
    end stands for itself. -/
def unescape : (body : Word) → List (Char × Bool)
  | '\\' :: c :: body => (unescaped c, true) :: unescape body
  | c :: body => (c, false) :: unescape body
  | [] => []

/-- A range of characters whose lowest one comes after the highest one. -/
structure InvertedRange where
  /-- The character before the hyphen. -/
  low : Char
  /-- The character after the hyphen. -/
  high : Char
  deriving DecidableEq, Repr

namespace CharClass

/-- The ranges in a list of spelled characters: a character that is followed by a plain
    hyphen and another character makes a range with that one, any other character a
    range of its own. -/
def ranges? : (spelled : List (Char × Bool)) → Except InvertedRange (List (Char × Char))
  | (low, _) :: ('-', false) :: (high, _) :: spelled =>
    if high < low then .error ⟨low, high⟩
    else (ranges? spelled).map ((low, high) :: ·)
  | (c, _) :: spelled => (ranges? spelled).map ((c, c) :: ·)
  | [] => .ok []

/-- The class spelled between two brackets. -/
def ofBody : (body : Word) → Except InvertedRange CharClass
  | '^' :: body => (ranges? (unescape body)).map fun ranges => ⟨ranges, true⟩
  | body => (ranges? (unescape body)).map fun ranges => ⟨ranges, false⟩

end CharClass

end Descent
