import Descent.Sums.Expression
import Descent.Sums.Grammar

/-!
# Reading sums

A parse tree of the grammar of sums gives an expression (`Expression.ofTree`): the
operands of a sum are added from left to right, and parentheses leave no trace. A
tree that the grammar cannot produce is refused. To read a text is to parse it and to
take the expression of its tree (`Sums.read`).
-/

namespace Descent

open Sums (Nonterminal)

/-- Why a tree gives no expression. -/
inductive TreeError where
  /-- A node has the name of no rule. -/
  | unknown (name : Word)
  /-- A node has the name of a rule that leaves no nodes. -/
  | noNode (name : Word)
  /-- A node that should have one child has another number of them. -/
  | childCount (name : Word) (count : Nat)
  /-- A sum has no operands. -/
  | noOperands
  /-- An operand is neither a number nor a sum. -/
  | operand (name : Word)
  /-- A number has children. -/
  | numberChildren
  /-- The text of a number is no numeral. -/
  | numeral (e : Numeral.Error)
  /-- The numeral of a number gives no number. -/
  | number (e : NumberError)
  deriving DecidableEq, Repr

/-- The wording of an error. -/
def TreeError.message : TreeError → Word
  | .unknown name => "unknown nonterminal ".toList ++ Text.quoted name ++ " in parse tree".toList
  | .noNode name => Text.quoted name ++ " never appears in a parse tree".toList
  | .childCount name count =>
    name ++ " node should have one child, has ".toList ++ Nat.toDigits 10 count
  | .noOperands => "sum node has no children".toList
  | .operand name => "primary node has a ".toList ++ Text.quoted name ++ " child".toList
  | .numberChildren => "number node should have no children".toList
  | .numeral e => e.message
  | .number e => e.message

namespace Expression

variable {φ : Type}

/-- The number that a numeral gives. -/
def ofNumeral (w : Word) : Except TreeError (Expression φ) :=
  match Numeral.read w with
  | .ok n => (ofInt n).mapError .number
  | .error e => .error (.numeral e)

mutual

/-- The expression of a tree. -/
def ofTree : (tree : Tree) → Except TreeError (Expression φ)
  | ⟨name, source, start, stop, children⟩ =>
    match Nonterminal.ofName? name, children with
    | none, _ => .error (.unknown name)
    | some .whitespace, _ => .error (.noNode name)
    | some .root, [child] => ofTree child
    | some .root, children => .error (.childCount name children.length)
    | some .sum, [] => .error .noOperands
    | some .sum, child :: children => do addOperands (← ofTree child) children
    | some .primary, [child] =>
      if child.name = Nonterminal.number.name ∨ child.name = Nonterminal.sum.name then ofTree child
      else .error (.operand child.name)
    | some .primary, children => .error (.childCount name children.length)
    | some .number, [] => ofNumeral (source.slice start stop)
    | some .number, _ :: _ => .error .numberChildren

/-- The sum of an expression and those of the trees of a list, added from left to
    right. -/
def addOperands (left : Expression φ) : (trees : List Tree) → Except TreeError (Expression φ)
  | [] => .ok left
  | tree :: trees => do addOperands (.plus left (← ofTree tree)) trees

end

end Expression

namespace Sums

/-- Why a text cannot be read as a sum. -/
inductive ReadError where
  /-- It has no parse tree. -/
  | refused (r : Refusal)
  /-- Its parse tree gives no expression. -/
  | tree (e : TreeError)

/-- The wording of an error. -/
def ReadError.message : ReadError → Word
  | .refused r => r.message
  | .tree e => e.message

/-- The parse tree of a text, when rules may be entered within one another `limit`
    times. -/
def parse (limit : Nat) (t : Text) : Except Refusal Tree := grammar.parse limit t

/-- The expression that a text spells. -/
def read (limit : Nat) (t : Text) : Except ReadError (Expression Empty) :=
  match parse limit t with
  | .error r => .error (.refused r)
  | .ok tree => (Expression.ofTree tree).mapError .tree

/-- The value of the sum that a text spells. -/
def evaluate (limit : Nat) (t : Text) : Except ReadError Nat :=
  (read limit t).map Expression.total

end Sums

end Descent
