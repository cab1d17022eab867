import Descent.Text

/-!
# Paths

A path leads from a directory to a file in steps: its parts between slashes. An empty
part and a single point stay where they are, and are no steps. So slashes at the end or
next to each other make no difference. Two points lead to the directory above.

A path that begins with a slash is absolute: it does not start from the directory.
-/

namespace Descent.Path

/-- The parts of a path between slashes. -/
def parts : (path : Word) → List Word
  | [] => [[]]
  | c :: path => if c = '/' then [] :: parts path else (parts path).modifyHead (c :: ·)

/-- The steps of a path. -/
def steps (path : Word) : List Word :=
  (parts path).filter fun part => part ≠ [] ∧ part ≠ ['.']

/-- The step to the directory above. -/
def parent : Word := ['.', '.']

/-- The path does not start from the directory. -/
def isAbsolute (path : Word) : Bool := path.head? = some '/'

end Descent.Path
