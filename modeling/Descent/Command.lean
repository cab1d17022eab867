import Descent.Command.Arguments
import Descent.Sums.Reading

/-!
# The command

The command evaluates one sum, which is given as an argument or typed in. It shows the
sum and its value, or else on the side why the sum makes no sense, and ends with a
code that tells which. If it is asked to be verbose, it also notes on the side what
happens on the way (`Diagnostic.debug`). Nothing else depends on that, unless the parse
tree or the sums in it are nested so deeply that they cannot be noted.

How deeply things can be nested depends on where the command runs (`Setting`).
-/

namespace Descent.Command

/-- Where the command runs: how deeply things can be nested there, and how its arguments are
    taken. -/
structure Setting where
  /-- How many rules can be entered within one another. -/
  rules : Nat
  /-- How many nodes of a parse tree can stand within one another for it to be noted. -/
  nodes : Nat
  /-- How many sums can be nested within one another for an expression to be noted. -/
  sums : Nat
  /-- How what is written after a short option is taken. -/
  clustering : Clustering

/-- A message on the side. -/
inductive Diagnostic where
  /-- A note on what happens, by a part of the program. -/
  | debug (part : Word) (note : Word)
  /-- A complaint. -/
  | complaint (text : Word)
  deriving DecidableEq, Repr

/-- The line of a message. -/
def Diagnostic.render : Diagnostic → Word
  | .debug part note => "DEBUG ".toList ++ part ++ ": ".toList ++ note ++ ['\n']
  | .complaint text => text ++ ['\n']

/-- Something for which there is no exit code. -/
inductive Breakdown where
  /-- Nothing is typed in. -/
  | endOfInput
  /-- The parse tree of a sum gives no expression. -/
  | tree (e : TreeError)
  /-- A parse tree or an expression is nested too deeply to be noted. -/
  | nesting
  deriving DecidableEq, Repr

/-- The wording of a breakdown. -/
def Breakdown.message : Breakdown → Word
  | .endOfInput => "EOF when reading a line".toList
  | .tree e => e.message
  | .nesting => "maximum recursion depth exceeded".toList

/-- What the command does. -/
structure Outcome where
  /-- How it ends: with a code or by a breakdown. -/
  ending : Except Breakdown Nat
  /-- What it shows. -/
  output : Word
  /-- The messages on the side, in order. -/
  diagnostics : List Diagnostic

/-- The messages on the side as one text. -/
def Outcome.errors (o : Outcome) : Word := o.diagnostics.flatMap Diagnostic.render

/-! ## Texts -/

/-- How the command is used, in one line. -/
def usage : Word := "usage: intexpr [-h] [-v] [expression]".toList

/-- The help. -/
def help : Word := usage ++ "

Parse and evaluate a sum of non-negative integers.

positional arguments:
  expression     expression to evaluate, e.g. '54+(2+ 89)'; prompts if omitted

options:
  -h, --help     show this help message and exit
  -v, --verbose  log the parse tree and AST
".toList

/-- What asks for an expression. -/
def prompt : Word := "Enter an arithmetic expression: ".toList

/-! ## Notes -/

/-- The note on a refused text. There is none if the search broke off. -/
def noteRefusal (w : Word) : (r : Refusal) → List Diagnostic
  | .unmatched furthest =>
    [.debug "intexpr.parser".toList
      ("no derivation of ".toList ++ Text.quoted Sums.grammar.root ++ " for ".toList ++
        Text.quoted w ++ ", furthest offset ".toList ++ Nat.toDigits 10 furthest)]
  | .halted _ _ => []

/-- The note on a parse tree. -/
def noteTree (tree : Tree) : Diagnostic :=
  .debug "intexpr.integer_expression".toList ("parse tree ".toList ++ tree.bracketed)

/-- The note on an expression. -/
def noteExpression (e : Expression Empty) : Diagnostic :=
  .debug "intexpr.integer_expression".toList ("AST ".toList ++ e.written)

/-! ## Runs -/

/-- Evaluate the sum `w`, after `shown` is shown already. Its value is found with a stack of
    its own, but to write a tree or an expression is to write its parts in turn, which is
    more than can be done if they are nested too deeply. -/
def evaluate (setting : Setting) (verbose : Bool) (shown w : Word) : Outcome :=
  let notes (ds : List Diagnostic) := if verbose then ds else []
  let shown := shown ++ w ++ ['\n']
  match Sums.parse setting.rules w.toArray with
  | .error r =>
    ⟨.ok 1, shown, notes (noteRefusal w r) ++ [.complaint ("error: ".toList ++ r.message)]⟩
  | .ok tree =>
    if verbose ∧ setting.nodes < tree.height then ⟨.error .nesting, shown, []⟩
    else
      match Expression.ofTree tree with
      | .error e => ⟨.error (.tree e), shown, notes [noteTree tree]⟩
      | .ok e =>
        if verbose ∧ setting.sums < e.depth then ⟨.error .nesting, shown, [noteTree tree]⟩
        else
          ⟨.ok 0, shown ++ "value ".toList ++ Numeral.write e.total ++ ['\n'],
            notes [noteTree tree, noteExpression e]⟩

/-- Ask for a sum and evaluate the line that is typed in. -/
def ask (setting : Setting) (verbose : Bool) (input : Word) : Outcome :=
  if input.isEmpty then ⟨.error .endOfInput, prompt, []⟩
  else evaluate setting verbose prompt (input.takeWhile (· ≠ '\n'))

/-- Run the command on arguments, with `input` to be typed in if asked for. -/
def run (setting : Setting) (arguments : List Word) (input : Word) : Outcome :=
  match Request.ofArguments setting.clustering arguments with
  | .error e =>
    ⟨.ok 2, [], [.complaint usage, .complaint ("intexpr: error: ".toList ++ e.message)]⟩
  | .ok .help => ⟨.ok 0, help, []⟩
  | .ok (.evaluate verbose (some w)) => evaluate setting verbose [] w
  | .ok (.evaluate verbose none) => ask setting verbose input

end Descent.Command
