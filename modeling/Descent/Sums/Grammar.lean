import Descent.Grammar.Compile
import Descent.Path

/-!
# The grammar of sums

The grammar of texts such as `54+(2+ 89)`: a sum is one or more operands with plus
signs between them, and an operand is a number or a sum in parentheses. Blanks may
stand around every token, but not inside a number.

The grammar comes as a description in a file (`Sums.description`), from which it can be
loaded by a path to that file (`Sums.load`).
-/

namespace Descent.Sums

/-- The rules of the grammar. -/
inductive Nonterminal where
  /-- A whole text. -/
  | root
  /-- Operands with plus signs between them. -/
  | sum
  /-- An operand. -/
  | primary
  /-- A run of digits. -/
  | number
  /-- A run of blanks. -/
  | whitespace
  deriving DecidableEq, Repr

namespace Nonterminal

/-- The name of a rule. -/
def name : Nonterminal → Word
  | .root => ['r', 'o', 'o', 't']
  | .sum => ['s', 'u', 'm']
  | .primary => ['p', 'r', 'i', 'm', 'a', 'r', 'y']
  | .number => ['n', 'u', 'm', 'b', 'e', 'r']
  | .whitespace => ['w', 'h', 'i', 't', 'e', 's', 'p', 'a', 'c', 'e']

/-- The rule with a name. -/
def ofName? (w : Word) : Option Nonterminal :=
  [root, sum, primary, number, whitespace].find? (·.name = w)

theorem ofName?_eq_some_iff {w : Word} {rule : Nonterminal} :
    ofName? w = some rule ↔ w = rule.name := by
  constructor
  · intro h
    rw [ofName?] at h
    have hname := List.find?_some h
    exact (of_decide_eq_true hname).symm
  · rintro rfl
    cases rule <;> rfl

theorem ofName?_eq_none_iff {w : Word} :
    ofName? w = none ↔ ∀ rule : Nonterminal, w ≠ rule.name := by
  simp only [Option.eq_none_iff_forall_ne_some, ne_eq, ofName?_eq_some_iff]

theorem name_inj {rule rule' : Nonterminal} : rule.name = rule'.name ↔ rule = rule' := by
  rw [← ofName?_eq_some_iff, ofName?_eq_some_iff.2 rfl, Option.some_inj]

end Nonterminal

/-- The name of the file with the description. -/
def fileName : Word := "IntegerExpression.g".toList

/-- The name of the directory of the file, where paths start. -/
def directoryName : Word := "intexpr".toList

/-- The steps lead to the file. They may leave its directory, if they come back. -/
def leadToFile : (steps : List Word) → Bool
  | [step] => step = fileName
  | out :: back :: steps => out = Path.parent && back = directoryName && leadToFile steps
  | [] => false

/-- The description of the grammar. -/
def description : Word := "/*
 * Grammar for sums of non-negative integers, e.g. 54+(2+ 89).
 */

// the whole input must be a sum
root ::= sum;

@skip whitespace \x7b
    sum ::= primary ('+' primary)*;
    primary ::= number | '(' sum ')';
\x7d

whitespace ::= [ \\t\\r\\n]+;
number ::= [0-9]+;
".toList

/-- Why a grammar cannot be loaded. -/
inductive LoadError where
  /-- The path leads to no file. -/
  | missing (path : Word)
  /-- There is a null character in the path. -/
  | nullCharacter
  /-- The file does not describe a grammar. -/
  | description (e : DescriptionError)

/-- The wording of an error. -/
def LoadError.message : LoadError → Word
  | .missing path => "can't read the grammar file ".toList ++ path
  | .nullCharacter => "embedded null byte".toList
  | .description e => e.message

/-- The grammar in the file at a path, with the root `root`. -/
def load (path : Word) : Except LoadError Grammar :=
  if Char.ofNat 0 ∈ path then .error .nullCharacter
  else if !Path.isAbsolute path && leadToFile (Path.steps path) then
    (Grammar.compile description (some (.rule Nonterminal.root.name))).mapError .description
  else .error (.missing path)

/-- The pattern of the blanks around the tokens. -/
def blanks : Pattern := .skip Nonterminal.whitespace.name

/-- A character on its own. -/
def sign (c : Char) : Pattern := .literal [c]

/-- The rules of the grammar, with their skips. -/
def rules : Rules :=
  [(Nonterminal.root.name, .reference Nonterminal.sum.name),
   (Nonterminal.sum.name, .sequence
     [blanks, .reference Nonterminal.primary.name,
      .repetition (.sequence [blanks, sign '+', blanks, .reference Nonterminal.primary.name])
        0 none,
      blanks]),
   (Nonterminal.primary.name, .sequence
     [.choice
       [.sequence [blanks, .reference Nonterminal.number.name],
        .sequence [blanks, sign '(', blanks, .reference Nonterminal.sum.name, blanks, sign ')']],
      blanks]),
   (Nonterminal.whitespace.name,
     .repetition (.charClass ⟨[(' ', ' '), ('\t', '\t'), ('\r', '\r'), ('\n', '\n')], false⟩)
       1 none),
   (Nonterminal.number.name, .repetition (.charClass ⟨[('0', '9')], false⟩) 1 none)]

/-- The grammar of sums. -/
def grammar : Grammar := ⟨rules, Nonterminal.root.name⟩

set_option maxRecDepth 10000 in
/-- The description gives the rules, whichever of them is the root. -/
theorem compile_rooted (rule : Nonterminal) :
    Grammar.compile description (some (.rule rule.name)) = .ok ⟨rules, rule.name⟩ := by
  have h : description = _ := String.toList_ofList
  rw [h]
  cases rule <;> rfl

/-- The grammar of sums is the one that the description gives. -/
theorem compile_description :
    Grammar.compile description (some (.rule Nonterminal.root.name)) = .ok grammar :=
  compile_rooted .root

end Descent.Sums
