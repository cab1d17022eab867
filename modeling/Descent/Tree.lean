import Descent.Text.Quoted

/-!
# Parse trees

A node of a parse tree says that the part of its source between two offsets is
derived from a rule, and how: its children are the derivations of the rules used on
the way. Offsets are signed, as for `Text.slice`; those of a parsed text are never
negative.

A tree is shown in three ways: bracketed on one line (`Tree.bracketed`), one line a
node (`Tree.pretty`), and field by field, offsets included (`Tree.record`). In all of
them the text of a node is shown for leaves only, or not at all.
-/

namespace Descent

/-- A node of a parse tree. -/
structure Tree where
  /-- The name of the rule. -/
  name : Word
  /-- The text that was parsed. -/
  source : Text
  /-- The offset where the matched part starts. -/
  start : Int
  /-- The offset where it stops. -/
  stop : Int
  /-- The derivations of the rules used, from left to right. -/
  children : List Tree
  deriving Inhabited

namespace Tree

/-- The part of the source that the node covers. -/
def text (tree : Tree) : Word := tree.source.slice tree.start tree.stop

/-- The children with a name. -/
def childrenNamed (tree : Tree) (name : Word) : List Tree :=
  tree.children.filter (·.name = name)

mutual

/-- How many nodes of a tree stand within one another, the tree itself included. -/
def height : (tree : Tree) → Nat
  | ⟨_, _, _, _, children⟩ => heightOfAll children + 1

/-- The largest height of the trees of a list. -/
def heightOfAll : (trees : List Tree) → Nat
  | [] => 0
  | tree :: trees => max tree.height (heightOfAll trees)

end

mutual

/-- The node on one line: its name and either its quoted text or its children. -/
def bracketed : (tree : Tree) → Word
  | ⟨name, source, start, stop, []⟩ =>
    '(' :: (name ++ ' ' :: (Text.quoted (source.slice start stop) ++ [')']))
  | ⟨name, _, _, _, children⟩ => '(' :: (name ++ (bracketedAll children ++ [')']))

/-- The nodes of a list one after the other, each after a space. -/
def bracketedAll : (trees : List Tree) → Word
  | [] => []
  | tree :: trees => ' ' :: (tree.bracketed ++ bracketedAll trees)

end

mutual

/-- The lines of a node at a level, each after as many copies of `indent`: its name
    and, for a leaf, its quoted text after a tab; then the lines of its children. -/
def lines (indent : Word) (level : Nat) : (tree : Tree) → List Word
  | ⟨name, source, start, stop, []⟩ =>
    [(List.replicate level indent).flatten ++
      (name ++ '\t' :: Text.quoted (source.slice start stop))]
  | ⟨name, _, _, _, children⟩ =>
    ((List.replicate level indent).flatten ++ name) :: linesAll indent (level + 1) children

/-- The lines of the nodes of a list. -/
def linesAll (indent : Word) (level : Nat) : (trees : List Tree) → List Word
  | [] => []
  | tree :: trees => lines indent level tree ++ linesAll indent level trees

end

/-- The usual indentation of a level. -/
def indentation : Word := [' ', ' ']

/-- The tree with one line a node, each ended by a line break. -/
def pretty (indent : Word) (tree : Tree) : Word :=
  (tree.lines indent 0).flatMap (· ++ ['\n'])

mutual

/-- The fields of a node, but for its source. -/
def record : (tree : Tree) → Word
  | ⟨name, _, start, stop, children⟩ =>
    "ParseTree(name=".toList ++ Text.quoted name ++ ", start=".toList ++ Text.integer start ++
      ", end=".toList ++ Text.integer stop ++ ", children=".toList ++
      Text.tuple (records children) ++ [')']

/-- The fields of every node of a list. -/
def records : (trees : List Tree) → List Word
  | [] => []
  | tree :: trees => tree.record :: records trees

end

mutual

/-- Two nodes agree in all their fields, the sources and the children included. -/
def beq : (a b : Tree) → Bool
  | ⟨name, source, start, stop, children⟩, ⟨name', source', start', stop', children'⟩ =>
    name == name' && source == source' && start == start' && stop == stop' &&
      beqAll children children'

/-- Two lists have as many nodes, which agree one by one. -/
def beqAll : (as bs : List Tree) → Bool
  | [], [] => true
  | a :: as, b :: bs => a.beq b && beqAll as bs
  | _, _ => false

end

instance : BEq Tree := ⟨beq⟩

end Tree

end Descent
