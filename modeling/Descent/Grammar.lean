import Descent.Pattern.Room

/-!
# Grammars

A grammar is a list of rules and the name of the *root*, the rule that a whole text
must match. The parse tree of a text is the first match of the root that stops at the
end of the text (`Grammar.parse`). What is limited is how deeply rules may be entered
within one another, or else the room for searches of any kind (`Grammar.parseIn`).

A text without one is refused (`Refusal`): either all matches were tried in vain, or
the search broke off. The largest offset reached tells how far the text made sense.
-/

namespace Descent

/-- Rules and their root. -/
structure Grammar where
  /-- The rules, in the order of definition. -/
  rules : Rules
  /-- The name of the rule for a whole text. -/
  root : Word

namespace Grammar

/-- The names of the rules, in the order of definition. -/
def names (g : Grammar) : List Word := g.rules.map (·.1)

/-- The parse tree of a text, when rules may be entered within one another `limit`
    times, the root being the first. -/
def parse (g : Grammar) (limit : Nat) (t : Text) : Except Refusal Tree :=
  ((g.rules.enter t limit g.root 0).firstWhere (·.stop = t.size) 0).map
    (Match.toTree t g.root 0)

/-- The parse tree of a text, when there is room for that many searches within the one for
    the root. -/
def parseIn (g : Grammar) (room : Nat) (t : Text) : Except Refusal Tree :=
  ((g.rules.enterBy (g.rules.searchIn t room) g.root 0).firstWhere (·.stop = t.size) 0).map
    (Match.toTree t g.root 0)

end Grammar

/-- What is said about a search that broke off, wherever it did. -/
def Halt.message : Halt → Word
  | .tooDeep => "input nests too deeply to parse".toList
  | .undefined name => Text.quoted name

namespace Refusal

/-- The largest offset reached. -/
def furthest : Refusal → Nat
  | .unmatched furthest | .halted _ furthest => furthest

/-- The wording of a refusal. -/
def message : Refusal → Word
  | .unmatched furthest =>
    "string does not match the grammar: stopped at offset ".toList ++ Nat.toDigits 10 furthest
  | .halted .tooDeep furthest =>
    Halt.tooDeep.message ++ ": gave up at offset ".toList ++ Nat.toDigits 10 furthest
  | .halted (.undefined name) _ => (Halt.undefined name).message

end Refusal

end Descent
