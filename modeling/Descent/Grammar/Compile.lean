import Descent.Description.Reader
import Descent.Grammar
import Descent.Grammar.Definition

/-!
# From a description to a grammar

A description gives a grammar if it can be read, each of its names is defined once, and
every name it depends on is defined (`Grammar.compile`). The rule that a block skips
must stand outside of the blocks, so that there are no skips in its own pattern. The root
is the first rule, if nothing else is asked for (`RootChoice`).

The conditions are checked in a fixed order, and the first one that fails is reported.
-/

namespace Descent

/-- A place in a text. -/
structure Position where
  /-- The number of the line, from `1`. -/
  line : Nat
  /-- The number of the character in its line, from `1`. -/
  column : Nat
  deriving DecidableEq, Repr

/-- The place just after a word. Only a line break ends a line. -/
def Position.after (w : Word) : Position :=
  ⟨w.count '\n' + 1, (w.reverse.takeWhile (· ≠ '\n')).length + 1⟩

/-- What is asked for as the root of a grammar. -/
inductive RootChoice where
  /-- The rule of a name. -/
  | rule (name : Word)
  /-- Something that names no rule, as it is shown. -/
  | other (shown : Word)
  deriving DecidableEq, Repr

/-- How a choice is shown: a name stands between quotes. -/
def RootChoice.render : RootChoice → Word
  | .rule name => Text.quoted name
  | .other shown => shown

/-- What is wrong with a description. -/
inductive DescriptionError where
  /-- It cannot be read from this position on. -/
  | malformed (position : Position)
  /-- A character class has an inverted range. -/
  | inverted (range : InvertedRange)
  /-- It has no rules. -/
  | empty
  /-- A name is defined twice. -/
  | duplicate (name : Word)
  /-- The rule that a block skips stands in a block itself. -/
  | skipInBlock (name : Word)
  /-- The name `name`, on which the rule `user` depends, is not defined. -/
  | undefined (name user : Word)
  /-- What is asked for as the root is not defined. -/
  | undefinedRoot (root : RootChoice)
  deriving DecidableEq, Repr

/-- The wording of an error. -/
def DescriptionError.message : DescriptionError → Word
  | .malformed position =>
    "the grammar has a syntax error at line ".toList ++ Nat.toDigits 10 position.line ++
      ", column ".toList ++ Nat.toDigits 10 position.column
  | .inverted range =>
    "inverted character range ".toList ++ Text.quoted [range.low] ++ '-' :: Text.quoted [range.high]
  | .empty => "the grammar defines no nonterminals".toList
  | .duplicate name =>
    "nonterminal ".toList ++ Text.quoted name ++ " is defined more than once".toList
  | .skipInBlock name =>
    "skip nonterminal ".toList ++ Text.quoted name ++
      " must be defined outside @skip blocks".toList
  | .undefined name user =>
    "nonterminal ".toList ++ Text.quoted name ++ " used in ".toList ++ Text.quoted user ++
      " is not defined".toList
  | .undefinedRoot root =>
    "root nonterminal ".toList ++ root.render ++ " is not defined".toList

namespace Definition

/-- The definitions of a description. -/
def read (w : Word) : Except DescriptionError (List Definition) :=
  match Description.parse w with
  | .error start => .error (.malformed (Position.after (w.take (w.length - start.length))))
  | .ok description => description.define.mapError .inverted

/-- The first name that comes again, after the names `before`. -/
def duplicate? (before : List Word) : (names : List Word) → Option Word
  | [] => none
  | name :: names => if name ∈ before then some name else duplicate? (name :: before) names

/-- The first rule skipped by a block that stands in a block itself. -/
def skipInBlock? (definitions : List Definition) : Option Word :=
  definitions.findSome? fun d =>
    d.skip.filter fun name => definitions.any fun e => e.name = name && e.skip.isSome

end Definition

namespace Rules

/-- The first name that is not defined, with the first rule that depends on it. -/
def undefined? (rules : Rules) : Option (Word × Word) :=
  rules.findSome? fun (user, p) =>
    (p.names.find? fun name => (rules.lookup name).isNone).map fun name => (name, user)

/-- The name of the root that is asked for, if it is defined. -/
def root (rules : Rules) (choice : RootChoice) : Except DescriptionError Word :=
  match choice with
  | .rule name => if (rules.lookup name).isSome then .ok name else .error (.undefinedRoot choice)
  | .other _ => .error (.undefinedRoot choice)

end Rules

namespace Grammar

/-- The rules of definitions, with their skips. -/
def rulesOf (definitions : List Definition) : Rules :=
  definitions.map fun d => (d.name, d.woven)

/-- What is wrong with definitions, whatever the root: a name is defined twice, or else a
    block skips a rule in a block, or else a rule depends on a name that is not defined. -/
def problem? (definitions : List Definition) : Option DescriptionError :=
  (Definition.duplicate? [] (definitions.map (·.name))).map .duplicate <|>
  (Definition.skipInBlock? definitions).map .skipInBlock <|>
  (rulesOf definitions).undefined?.map fun (name, user) => .undefined name user

/-- The grammar that definitions give with a root: the first name, if no root is asked
    for. -/
def ofDefinitions : (definitions : List Definition) → (root : Option RootChoice) →
    Except DescriptionError Grammar
  | [], _ => .error .empty
  | d :: definitions, root =>
    match problem? (d :: definitions) with
    | some problem => .error problem
    | none =>
      let rules := rulesOf (d :: definitions)
      (rules.root (root.getD (.rule d.name))).map fun root => ⟨rules, root⟩

/-- The grammar that a description gives with a root. -/
def compile (w : Word) (root : Option RootChoice) : Except DescriptionError Grammar :=
  match Definition.read w with
  | .error problem => .error problem
  | .ok definitions => ofDefinitions definitions root

end Grammar

end Descent
