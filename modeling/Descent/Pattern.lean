import Descent.CharClass

/-!
# Patterns

What may stand at a place of a text, as the right-hand side of a rule says it. A
pattern may name rules in two ways: a *reference* stands for a derivation by the
rule, which becomes a node of the parse tree, and a *skip* passes over what the rule
matches there, if anything, without a trace.

* `Pattern.concat` puts patterns one after the other, in one flat sequence;
* `Pattern.skipping` lets a skip come before every terminal and every reference;
* `Pattern.names` lists the names a pattern depends on;
* `Pattern.render` shows a pattern.
-/

namespace Descent

/-- A pattern. -/
inductive Pattern where
  /-- The characters of a word. -/
  | literal (word : Word)
  /-- One character of a class. -/
  | charClass (k : CharClass)
  /-- The items one after the other. -/
  | sequence (items : List Pattern)
  /-- Any one of the alternatives, an earlier one preferably. -/
  | choice (alternatives : List Pattern)
  /-- At least `minimum` and, if given, at most `maximum` times the item, as often as
      possible preferably. A bound below zero means zero. -/
  | repetition (item : Pattern) (minimum : Int) (maximum : Option Int)
  /-- A derivation by the named rule. -/
  | reference (name : Word)
  /-- What the named rule matches first, or nothing. -/
  | skip (name : Word)
  deriving Inhabited

namespace Pattern

/-- The items that a pattern brings into a sequence: a sequence brings its own items,
    and so never stands inside another one. -/
def items : Pattern → List Pattern
  | .sequence items => items
  | p => [p]

/-- The patterns one after the other, in one flat sequence. -/
def concat (patterns : List Pattern) : Pattern :=
  .sequence (patterns.flatMap items)

/-! ## Skipping -/

mutual

/-- The pattern with a skip of the rule `name` before every literal, class and
    reference in it. What is skipped already is left alone. -/
def skipping (name : Word) : Pattern → Pattern
  | .literal word => .sequence [.skip name, .literal word]
  | .charClass k => .sequence [.skip name, .charClass k]
  | .reference n => .sequence [.skip name, .reference n]
  | .sequence items => concat (skippingAll name items)
  | .choice alternatives => .choice (skippingAll name alternatives)
  | .repetition item minimum maximum => .repetition (item.skipping name) minimum maximum
  | .skip n => .skip n

/-- Every pattern of a list with its skips. -/
def skippingAll (name : Word) : List Pattern → List Pattern
  | [] => []
  | p :: ps => p.skipping name :: skippingAll name ps

end

mutual

/-- There is a skip somewhere in the pattern. -/
def skips : Pattern → Bool
  | .sequence items => anySkips items
  | .choice alternatives => anySkips alternatives
  | .repetition item _ _ => item.skips
  | .skip _ => true
  | .literal _ | .charClass _ | .reference _ => false

/-- There is a skip somewhere in one of the patterns. -/
def anySkips : List Pattern → Bool
  | [] => false
  | p :: ps => p.skips || anySkips ps

end

/-- A pattern was to skip although it does so already. -/
inductive SkipError where
  /-- There is a skip in the pattern. -/
  | alreadySkips
  deriving DecidableEq, Repr

/-- The wording of an error. -/
def SkipError.message : SkipError → Word
  | .alreadySkips => "'Skip' object has no attribute 'skipping'".toList

/-- The pattern skipping the rule `name`, if it has no skips yet. -/
def skipping? (name : Word) (p : Pattern) : Except SkipError Pattern :=
  if p.skips then .error .alreadySkips else .ok (p.skipping name)

/-! ## Names -/

mutual

/-- The names of the rules that the pattern refers to or skips, in the order in which
    they stand. -/
def names : Pattern → List Word
  | .literal _ | .charClass _ => []
  | .sequence items => namesOfAll items
  | .choice alternatives => namesOfAll alternatives
  | .repetition item _ _ => item.names
  | .reference name | .skip name => [name]

/-- The names in the patterns of a list. -/
def namesOfAll : List Pattern → List Word
  | [] => []
  | p :: ps => p.names ++ namesOfAll ps

end

/-! ## Rendering -/

mutual

/-- The pattern as nested calls, one for each part. -/
def render : Pattern → Word
  | .literal word => Text.call "Literal" [Text.quoted word]
  | .charClass k => k.render
  | .sequence items => Text.call "Sequence" [Text.tuple (renderAll items)]
  | .choice alternatives => Text.call "Choice" [Text.tuple (renderAll alternatives)]
  | .repetition item minimum maximum =>
    Text.call "Repeat" [item.render, Text.integer minimum,
      match maximum with | some n => Text.integer n | none => "None".toList]
  | .reference name => Text.call "Reference" [Text.quoted name]
  | .skip name => Text.call "Skip" [Text.quoted name]

/-- The patterns of a list, each as nested calls. -/
def renderAll : List Pattern → List Word
  | [] => []
  | p :: ps => p.render :: renderAll ps

end

end Pattern

end Descent
