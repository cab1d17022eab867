import Descent.Numeral

/-!
# Arguments of the command

The command takes at most one expression and two options, a short and a long one each:
for help, and to be verbose. What the arguments ask for is found in two steps.

First every argument is classified (`Argument.classify`). An argument that begins with
a hyphen is an option if it is spelled like one: a long option may be cut short, as
long as no other one begins like that, and short ones may be put together. It is
positional if it is a negative number or contains a space, and not recognised
otherwise. After the first separator `--`, all arguments are positional.

Then the arguments are taken in order (`Request.take`). The first positional argument
is the expression. Help ends the matter at once, as does an option with a value, since
no option has one; arguments that are left over are an error in the end.

There are two ways to take what is written after the letter of a short option and does
not begin with the letter of another one (`Clustering`): as a value, or as an argument
that is left over.
-/

namespace Descent

/-- An option of the command. -/
inductive Flag where
  /-- Show the help and do nothing else. -/
  | help
  /-- Show what happens on the way. -/
  | verbose
  deriving DecidableEq, Repr

namespace Flag

/-- The letter of the short form. -/
def letter : Flag → Char
  | .help => 'h'
  | .verbose => 'v'

/-- The long form. -/
def long : Flag → Word
  | .help => ['-', '-', 'h', 'e', 'l', 'p']
  | .verbose => ['-', '-', 'v', 'e', 'r', 'b', 'o', 's', 'e']

/-- All options, in the order in which they are listed. -/
def all : List Flag := [.help, .verbose]

/-- The option with a letter. -/
def ofLetter? (c : Char) : Option Flag := all.find? (·.letter = c)

/-- Both forms, as they are given in messages. -/
def forms (flag : Flag) : Word := '-' :: flag.letter :: '/' :: flag.long

end Flag

/-- The arguments are wrong. -/
inductive UsageError where
  /-- The beginning of a long option fits several ones. -/
  | ambiguous (argument : Word) (options : List Flag)
  /-- An option is given a value. -/
  | value (flag : Flag) (text : Word)
  /-- Some arguments have no meaning. -/
  | unrecognized (arguments : List Word)
  deriving DecidableEq, Repr

/-- The wording of an error. -/
def UsageError.message : UsageError → Word
  | .ambiguous argument options =>
    "ambiguous option: ".toList ++ argument ++ " could match ".toList ++
      Text.commaSeparated (options.map (·.long))
  | .value flag text =>
    "argument ".toList ++ flag.forms ++ ": ignored explicit argument ".toList ++ Text.quoted text
  | .unrecognized arguments =>
    "unrecognized arguments: ".toList ++ [' '].intercalate arguments

/-- A classified argument. -/
inductive Argument where
  /-- An argument that is no option. -/
  | positional (w : Word)
  /-- The separator after which there are no options. -/
  | separator
  /-- A long option, with the value that is given to it, if any. -/
  | long (flag : Flag) (value : Option Word)
  /-- A short option, with what is written after it: the letters of more options. -/
  | short (flag : Flag) (letters : Word)
  /-- An argument that looks like an option and is none. -/
  | unknown (w : Word)

namespace Argument

/-- The part of a word before the first equals sign, and the part after it, if there is
    one. -/
def splitValue : (w : Word) → Word × Option Word
  | [] => ([], none)
  | c :: w =>
    if c = '=' then ([], some w)
    else
      let (name, value) := splitValue w
      (c :: name, value)

/-- The characters are decimal digits, at least one. -/
def isDigits (w : Word) : Bool := !w.isEmpty && w.all fun c => (Numeral.digit? c).isSome

/-- A number after a minus sign: digits, or a point before digits and possibly after
    some. A line break at the end is allowed. -/
def isUnsignedNumber (w : Word) : Bool :=
  let w := if w.getLast? = some '\n' then w.dropLast else w
  isDigits w ||
    match w.dropWhile fun c => (Numeral.digit? c).isSome with
    | '.' :: w => isDigits w
    | _ => false

/-- The class of an argument that begins with a hyphen and fits no option. -/
def classifyOther (w : Word) : Argument :=
  if isUnsignedNumber w.tail || w.contains ' ' then .positional w else .unknown w

/-- The class of an argument other than the separator. -/
def classify (w : Word) : Except UsageError Argument :=
  match w with
  | '-' :: '-' :: _ =>
    let (name, value) := splitValue w
    -- the beginning of a long option will do if it tells which one is meant
    match Flag.all.filter fun flag => name.isPrefixOf flag.long with
    | [flag] => .ok (.long flag value)
    | [] => .ok (classifyOther w)
    | flags => .error (.ambiguous w flags)
  | '-' :: c :: tail =>
    match Flag.ofLetter? c with
    | some flag => .ok (.short flag tail)
    | none => .ok (classifyOther w)
  | w => .ok (.positional w)

/-- The classes of all arguments. -/
def classifyAll : (ws : List Word) → Except UsageError (List Argument)
  | [] => .ok []
  | w :: ws =>
    if w = ['-', '-'] then .ok (.separator :: ws.map .positional)
    else do
      let argument ← classify w
      return argument :: (← classifyAll ws)

end Argument

/-- How what is written after a short option is taken. -/
inductive Clustering where
  /-- What does not begin with the letter of an option is a value, and so an error. An
      equals sign right after the first letter is left out. -/
  | strict
  /-- What does not begin with the letter of an option is left over, after a hyphen. What
      comes after an equals sign, or begins with a hyphen, is a value, and so an error. -/
  | lenient
  deriving DecidableEq, Repr

/-- What the arguments ask for. -/
inductive Request where
  /-- The help. -/
  | help
  /-- To evaluate an expression, or one that is still to be asked for. -/
  | evaluate (verbose : Bool) (expression : Option Word)
  deriving DecidableEq, Repr

namespace Request

/-- The options that stand together after a hyphen: the option `flag` and those of the
    letters after it. What begins with the letter of no option is taken for a value. -/
def cluster (flag : Flag) : (letters : Word) → Except UsageError (List Flag)
  | [] => .ok [flag]
  | c :: letters =>
    match Flag.ofLetter? c with
    | some next => (cluster next letters).map (flag :: ·)
    | none => .error (.value flag (c :: letters))

/-- The options that stand together after a hyphen, and the argument that is left over if
    what comes after them begins with the letter of no option. -/
def clusterLeniently (flag : Flag) : (letters : Word) → Except UsageError (List Flag × Option Word)
  | [] => .ok ([flag], none)
  | '=' :: value => .error (.value flag value)
  | '-' :: letters => .error (.value flag ('-' :: letters))
  | c :: letters =>
    match Flag.ofLetter? c with
    | some next => (clusterLeniently next letters).map fun (flags, extra) => (flag :: flags, extra)
    | none => .ok ([flag], some ('-' :: c :: letters))

/-- The options of an argument that begins with the short option `flag`, and what is left
    over of it. -/
def options (clustering : Clustering) (flag : Flag) (letters : Word) :
    Except UsageError (List Flag × Option Word) :=
  match clustering, letters with
  | .strict, ['='] => .error (.value flag [])
  | .strict, '=' :: letters => (cluster flag letters).map (·, none)
  | .strict, letters => (cluster flag letters).map (·, none)
  | .lenient, letters => clusterLeniently flag letters

/-- What is known before an argument is taken. -/
structure Progress where
  /-- To be verbose is asked for. -/
  verbose : Bool
  /-- The expression, once it is given. -/
  expression : Option Word
  /-- The arguments without a meaning, the last one first. -/
  extras : List Word

/-- Take the arguments that are left. -/
def take (clustering : Clustering) (p : Progress) :
    (arguments : List Argument) → Except UsageError Request
  | [] =>
    if p.extras.isEmpty then .ok (.evaluate p.verbose p.expression)
    else .error (.unrecognized p.extras.reverse)
  | .positional w :: arguments =>
    match p.expression, arguments with
    -- a separator right after the expression is spent on it
    | none, .separator :: arguments => take clustering { p with expression := some w } arguments
    | none, arguments => take clustering { p with expression := some w } arguments
    | some _, arguments => take clustering { p with extras := w :: p.extras } arguments
  | .separator :: arguments =>
    match p.expression with
    | none => take clustering p arguments
    | some _ => take clustering { p with extras := ['-', '-'] :: p.extras } arguments
  | .long flag none :: arguments =>
    match flag with
    | .help => .ok .help
    | .verbose => take clustering { p with verbose := true } arguments
  | .long flag (some value) :: _ => .error (.value flag value)
  | .short flag letters :: arguments =>
    match options clustering flag letters with
    | .error e => .error e
    | .ok (flags, extra) =>
      if .help ∈ flags then .ok .help
      else take clustering ⟨true, p.expression, extra.toList ++ p.extras⟩ arguments
  | .unknown w :: arguments => take clustering { p with extras := w :: p.extras } arguments

/-- What a list of arguments asks for. -/
def ofArguments (clustering : Clustering) (ws : List Word) : Except UsageError Request :=
  match Argument.classifyAll ws with
  | .error e => .error e
  | .ok arguments => take clustering ⟨false, none, []⟩ arguments

end Request

end Descent
