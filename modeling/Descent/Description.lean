import Descent.Description.Token

/-!
# Descriptions of grammars

A description is a list of rules, some of them inside blocks that name a rule to be
skipped. The right-hand side of a rule is an *alternation*: one or more
concatenations, each of one or more terms. Groups in parentheses are kept as they
are written, and literals and classes as they are spelled.

A description says nothing on whether its names are defined or its classes make sense
(see `Descent.Grammar.Definition`); it is what is written, without the filler.
-/

namespace Descent

/-- A term of a concatenation. -/
inductive Term where
  /-- The name of a rule. -/
  | reference (name : Word)
  /-- A literal, as it is spelled between its quotes. -/
  | literal (body : Word)
  /-- A class, as it is spelled between its brackets. -/
  | charClass (body : Word)
  /-- A term that is repeated. -/
  | repeated (term : Term) (q : Quantifier)
  /-- An alternation in parentheses. -/
  | group (alternatives : List (List Term))

/-- The alternatives of a right-hand side or a group, each a list of terms one after the
    other. -/
abbrev Alternation := List (List Term)

/-- A rule as it is written. -/
structure Rule where
  /-- The name that is defined. -/
  name : Word
  /-- The right-hand side. -/
  body : Alternation

/-- A part of a description. -/
inductive Item where
  /-- A rule on its own. -/
  | rule (r : Rule)
  /-- A block of rules in which the rule `name` is skipped. -/
  | block (name : Word) (rules : List Rule)

/-- A description: its parts, in order. -/
abbrev Description := List Item

end Descent
