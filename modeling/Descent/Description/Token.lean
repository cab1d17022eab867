import Descent.Text

/-!
# Tokens of a description

A description is spelled by tokens, with *filler* before, between and after them:
blanks, comments from two slashes to the end of the line, and comments between
`/*` and `*/`. The kind of a token shows in its first character, and it goes on for as
long as it can.

* `Token.scan` reads one token, `Token.lex` all of them.
* A place where no token can be read, as a literal without its closing quote, ends the
  list with the token `unreadable`, which no description has.
-/

namespace Descent

/-- How often an operator after a term repeats it. -/
inductive Quantifier where
  /-- Any number of times. -/
  | any
  /-- At least once. -/
  | some
  /-- At most once. -/
  | optional
  deriving DecidableEq, Repr

/-- The least number of repetitions. -/
def Quantifier.minimum : Quantifier → Int
  | .any | .optional => 0
  | .some => 1

/-- The largest number of repetitions, if there is one. -/
def Quantifier.maximum : Quantifier → Option Int
  | .any | .some => none
  | .optional => Option.some 1

/-- A token. -/
inductive Token where
  /-- The name of a rule. -/
  | name (word : Word)
  /-- The word `@skip`. -/
  | skip
  /-- An opening brace. -/
  | opening
  /-- A closing brace. -/
  | closing
  /-- The sign `::=` between the name of a rule and its right-hand side. -/
  | defines
  /-- The semicolon that ends a rule. -/
  | semicolon
  /-- The bar between two alternatives. -/
  | bar
  /-- An opening parenthesis. -/
  | groupOpening
  /-- A closing parenthesis. -/
  | groupClosing
  /-- One of the operators `*`, `+` and `?`. -/
  | quantifier (q : Quantifier)
  /-- A literal: what is spelled between two quotes. -/
  | literal (body : Word)
  /-- A character class: what is spelled between two brackets. -/
  | charClass (body : Word)
  /-- A place where no token can be read. -/
  | unreadable
  deriving DecidableEq, Repr

namespace Token

/-! ## Filler -/

/-- The character is a blank. -/
def isFiller (c : Char) : Bool :=
  c = ' ' || c = '\t' || c = '\n' || c = '\r' || c = '\x0c'

mutual

/-- The word without the filler in front. A comment that is never closed is left, as it
    is no filler. -/
def skipFiller : (w : Word) → Word
  | '/' :: '/' :: w => skipLine w
  | '/' :: '*' :: w => (skipComment w).getD ('/' :: '*' :: w)
  | c :: w => if isFiller c then skipFiller w else c :: w
  | [] => []

/-- The word without the rest of the line and the filler after it. -/
def skipLine : (w : Word) → Word
  | c :: w => if c = '\n' then skipFiller w else skipLine w
  | [] => []

/-- The word without the rest of a comment and the filler after it, if the comment is
    ever closed. -/
def skipComment : (w : Word) → Option Word
  | '*' :: '/' :: w => some (skipFiller w)
  | _ :: w => skipComment w
  | [] => none

end

/-! ## One token -/

/-- What is spelled up to the first plain character `delimiter`, and what follows that.
    A backslash takes the next character with it, which may not be a line break. -/
def scanBody (delimiter : Char) : (w : Word) → Option (Word × Word)
  | '\\' :: c :: w =>
    if c = '\n' then none
    else (scanBody delimiter w).map fun (body, rest) => ('\\' :: c :: body, rest)
  | c :: w =>
    if c = delimiter then some ([], w)
    else if c = '\\' then none
    else (scanBody delimiter w).map fun (body, rest) => (c :: body, rest)
  | [] => none

/-- The character may begin a name. -/
def isNameStart (c : Char) : Bool := c.isAlpha || c = '_'

/-- The character may go on a name. -/
def isNameRest (c : Char) : Bool := c.isAlphanum || c = '_'

/-- The token at the beginning of a word, and what follows it. -/
def scan : (w : Word) → Option (Token × Word)
  | '@' :: 's' :: 'k' :: 'i' :: 'p' :: w => some (.skip, w)
  | ':' :: ':' :: '=' :: w => some (.defines, w)
  | '{' :: w => some (.opening, w)
  | '}' :: w => some (.closing, w)
  | ';' :: w => some (.semicolon, w)
  | '|' :: w => some (.bar, w)
  | '(' :: w => some (.groupOpening, w)
  | ')' :: w => some (.groupClosing, w)
  | '*' :: w => some (.quantifier .any, w)
  | '+' :: w => some (.quantifier .some, w)
  | '?' :: w => some (.quantifier .optional, w)
  -- between quotes there may be nothing, between brackets there must be something
  | '\'' :: w => (scanBody '\'' w).map fun (body, rest) => (.literal body, rest)
  | '"' :: w => (scanBody '"' w).map fun (body, rest) => (.literal body, rest)
  | '[' :: w =>
    match scanBody ']' w with
    | some (c :: body, rest) => some (.charClass (c :: body), rest)
    | _ => none
  | c :: w =>
    if isNameStart c then some (.name (c :: w.takeWhile isNameRest), w.dropWhile isNameRest)
    else none
  | [] => none

/-! ## All tokens -/

/-- The tokens of a word, each with the part of the word that begins with it, but for
    those after the first `bound` ones. -/
def lexFrom : (bound : Nat) → (w : Word) → List (Token × Word)
  | 0, _ => []
  | bound + 1, w =>
    match skipFiller w with
    | [] => []
    | c :: start =>
      match scan (c :: start) with
      | some (token, rest) => (token, c :: start) :: lexFrom bound rest
      | none => [(.unreadable, c :: start)]

/-- The tokens of a word, each with the part of the word that begins with it. As every
    token has a character of its own, there are not more of them than characters. -/
def lex (w : Word) : List (Token × Word) := lexFrom w.length w

end Token

end Descent
