import Descent.Text
import Descent.Text.Printable

/-!
# Quoted words

How a word is shown inside a message or a rendering, on one line and without doubt
about its characters: between quotes, with a backslash before what would be misread
and the code point in place of what does not print. Lists of such renderings stand
in parentheses (`tuple`), in brackets (`bracketed`), in braces (`braced`) or after a
head (`call`).

The quotes are single ones, unless the word has a single quote and no double one.
-/

namespace Descent.Text

/-- The last `width` hexadecimal digits of `n`, in lower case. -/
def hexDigits : (width : Nat) → (n : Nat) → Word
  | 0, _ => []
  | width + 1, n => hexDigits width (n / 16) ++ [Nat.digitChar (n % 16)]

/-- The code point of a character that does not print, in as few digits as its size
    class needs: two, four or eight. -/
def codePoint (c : Char) : Word :=
  if c.toNat < 0x100 then '\\' :: 'x' :: hexDigits 2 c.toNat
  else if c.toNat < 0x10000 then '\\' :: 'u' :: hexDigits 4 c.toNat
  else '\\' :: 'U' :: hexDigits 8 c.toNat

/-- How a character stands between two quotes `quote`. -/
def escape (quote c : Char) : Word :=
  if c = quote ∨ c = '\\' then ['\\', c]
  else if c = '\n' then ['\\', 'n']
  else if c = '\r' then ['\\', 'r']
  else if c = '\t' then ['\\', 't']
  else if isPrintable c then [c]
  else codePoint c

/-- The quotes for a word: double ones if they save an escape. -/
def quoteFor (w : Word) : Char :=
  if '\'' ∈ w ∧ '"' ∉ w then '"' else '\''

/-- The word between quotes. -/
def quoted (w : Word) : Word :=
  let quote := quoteFor w
  quote :: (w.flatMap (escape quote) ++ [quote])

/-- The decimal digits of an integer, after a minus sign if it is negative. -/
def integer : (i : Int) → Word
  | .ofNat n => Nat.toDigits 10 n
  | .negSucc n => '-' :: Nat.toDigits 10 (n + 1)

/-- The parts, a comma and a space between any two of them. -/
def commaSeparated (parts : List Word) : Word :=
  [',', ' '].intercalate parts

/-- The parts in parentheses. A comma tells a single part from a grouping. -/
def tuple : (parts : List Word) → Word
  | [part] => '(' :: (part ++ [',', ')'])
  | parts => '(' :: (commaSeparated parts ++ [')'])

/-- The parts in brackets. -/
def bracketed (parts : List Word) : Word :=
  '[' :: (commaSeparated parts ++ [']'])

/-- The parts in braces. -/
def braced (parts : List Word) : Word :=
  '{' :: (commaSeparated parts ++ ['}'])

/-- A call: the head with its arguments in parentheses. -/
def call (head : String) (arguments : List Word) : Word :=
  head.toList ++ '(' :: (commaSeparated arguments ++ [')'])

end Descent.Text
