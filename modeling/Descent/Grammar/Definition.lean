import Descent.Description
import Descent.Description.Escape
import Descent.Pattern

/-!
# Definitions

What the rules of a description define: patterns for names. A right-hand side becomes a
pattern part by part, where an alternation of one alternative, a concatenation of one
term and a group are what they hold, and a sequence inside a concatenation brings its
items. Nested alternations are kept.

In a block, the pattern of a rule skips the rule named by the block before every
terminal and reference and at its end (`Definition.woven`).
-/

namespace Descent

/-- A name, its pattern as it is written, and the rule that is skipped in it. -/
structure Definition where
  /-- The name. -/
  name : Word
  /-- The right-hand side. -/
  pattern : Pattern
  /-- The rule named by the block around it, if there is one. -/
  skip : Option Word

/-- The pattern with the skips that belong to it. -/
def Definition.woven (d : Definition) : Pattern :=
  match d.skip with
  | none => d.pattern
  | some name => .concat [d.pattern.skipping name, .skip name]

namespace Pattern

/-- The patterns one after the other, or a single one itself. -/
def inOrder : (patterns : List Pattern) → Pattern
  | [p] => p
  | patterns => concat patterns

/-- Any one of the patterns, or a single one itself. -/
def anyOf : (patterns : List Pattern) → Pattern
  | [p] => p
  | patterns => .choice patterns

end Pattern

mutual

/-- The pattern of a term. -/
def Term.toPattern : (term : Term) → Except InvertedRange Pattern
  | .reference name => .ok (.reference name)
  | .literal body => .ok (.literal ((unescape body).map (·.1)))
  | .charClass body => (CharClass.ofBody body).map .charClass
  | .repeated term q => (Term.toPattern term).map (.repetition · q.minimum q.maximum)
  | .group alternatives => (Alternation.toPatterns alternatives).map .anyOf

/-- The patterns of the terms of a concatenation. -/
def Term.toPatterns : (terms : List Term) → Except InvertedRange (List Pattern)
  | [] => .ok []
  | term :: terms => do
    let p ← Term.toPattern term
    return p :: (← Term.toPatterns terms)

/-- The patterns of the alternatives of an alternation. -/
def Alternation.toPatterns : (alternatives : Alternation) → Except InvertedRange (List Pattern)
  | [] => .ok []
  | terms :: alternatives => do
    let p ← (Term.toPatterns terms).map .inOrder
    return p :: (← Alternation.toPatterns alternatives)

end

/-- The pattern of an alternation. -/
def Alternation.toPattern (alternatives : Alternation) : Except InvertedRange Pattern :=
  (Alternation.toPatterns alternatives).map .anyOf

/-- What a rule defines in a block that skips `skip`, or outside of blocks. -/
def Rule.define (skip : Option Word) (r : Rule) : Except InvertedRange Definition :=
  (Alternation.toPattern r.body).map fun p => ⟨r.name, p, skip⟩

/-- What a part of a description defines. -/
def Item.define : (item : Item) → Except InvertedRange (List Definition)
  | .rule r => (r.define none).map fun d => [d]
  | .block name rules => rules.mapM (Rule.define (some name))

/-- What a description defines, in order. The first inverted range in it is an error. -/
def Description.define (d : Description) : Except InvertedRange (List Definition) :=
  (d.mapM Item.define).map List.flatten

end Descent
