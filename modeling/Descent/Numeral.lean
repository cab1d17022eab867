import Descent.Text.Quoted
import Descent.Numeral.Digit

/-!
# Decimal numerals

Numbers have no largest value, and their numerals no largest length. So that the
cost of a long numeral stays near that of its slices, numerals are read and written
in slices of `sliceWidth` digits: `read` takes them from the left, the last one being
shorter if need be, and `write` from the right, each but the first filled up with
zeros.

A slice is read generously (`readSlice`): blanks around it, a sign, single
underscores between the digits, and digits of any script.

A number can also be shown plainly (`plain`), as a part of a longer rendering. This is
refused beyond `plainDigits` digits.
-/

namespace Descent.Numeral

/-- The number of digits in a slice. -/
def sliceWidth : Nat := 4000

/-- The largest number of digits of a number that is shown plainly. -/
def plainDigits : Nat := 4300

/-- Why a number cannot be read or shown. -/
inductive Error where
  /-- The slice is no numeral. -/
  | malformed (slice : Word)
  /-- The number has too many digits to be shown plainly. -/
  | tooLong
  deriving DecidableEq, Repr

/-- The wording of an error. A slice is quoted as far as `200` characters go. -/
def Error.message : Error → Word
  | .malformed slice =>
    "invalid literal for int() with base 10: ".toList ++ (Text.quoted slice).take 200
  | .tooLong =>
    ("Exceeds the limit (4300 digits) for integer string conversion; " ++
      "use sys.set_int_max_str_digits() to increase the limit").toList

/-! ## Reading -/

/-- The value of the digits `w`, single underscores between them, after digits of the
    value `value`. The flag tells whether a digit comes just before. -/
def readDigits (value : Nat) : (afterDigit : Bool) → (w : Word) → Option Nat
  | afterDigit, [] => if afterDigit then some value else none
  | afterDigit, c :: w =>
    -- an underscore needs a digit on either side
    if c = '_' then
      if afterDigit then readDigits value false w else none
    else match digit? c with
      | some d => readDigits (value * 10 + d) true w
      | none => none

/-- The value of digits after an optional sign. -/
def readSigned : (w : Word) → Option Int
  | '-' :: w => (readDigits 0 false w).map fun n => -n
  | '+' :: w => (readDigits 0 false w).map fun n => n
  | w => (readDigits 0 false w).map fun n => n

/-- The word without the blanks at both ends. -/
def trim (w : Word) : Word :=
  ((w.dropWhile isBlank).reverse.dropWhile isBlank).reverse

/-- The value of one slice. -/
def readSlice (w : Word) : Except Error Int :=
  match readSigned (trim w) with
  | some n => .ok n
  | none => .error (.malformed w)

/-- The slices of a word: as many as possible of `width + 1` characters, and the rest. -/
def slices (width : Nat) (w : Word) : List Word :=
  match w with
  | [] => []
  | c :: w => (c :: w.take width) :: slices width (w.drop width)
termination_by w.length
decreasing_by simp only [List.length_drop, List.length_cons]; omega

/-- The number that is read after the number `n` when `slice` comes next: its value is
    added after as many new places as it has characters. -/
def readNext (n : Int) (slice : Word) : Except Error Int := do
  return n * Nat.pow 10 slice.length + (← readSlice slice)

/-- The value of a numeral of any length. The empty word is read as zero. -/
def read (w : Word) : Except Error Int :=
  (slices (sliceWidth - 1) w).foldlM readNext 0

/-! ## Writing -/

/-- The decimal digits of a number, with no leading zero but for zero itself. -/
def digits (n : Nat) : Word := Nat.toDigits 10 n

/-- The digits of a number, filled up to `width` with leading zeros. -/
def padded (width n : Nat) : Word :=
  let w := digits n
  List.replicate (width - w.length) '0' ++ w

/-- The digits of a number in slices of `width + 1`, before the digits `after`. -/
def writeSlices (width n : Nat) (after : Word) : Word :=
  if n < Nat.pow 10 (width + 1) then digits n ++ after
  else
    writeSlices width (n / Nat.pow 10 (width + 1))
      (padded (width + 1) (n % Nat.pow 10 (width + 1)) ++ after)
termination_by n
decreasing_by
  rename_i h
  exact Nat.div_lt_self (Nat.lt_of_lt_of_le (Nat.pow_pos (by decide)) (Nat.not_lt.mp h))
    (Nat.one_lt_pow (by omega) (by decide))

/-- The numeral of a natural number of any length. -/
def write (n : Nat) : Word := writeSlices (sliceWidth - 1) n []

/-- The numeral of a number as part of a rendering, if it is not too long. -/
def plain (n : Int) : Except Error Word :=
  if n.natAbs < Nat.pow 10 plainDigits then
    .ok (if n < 0 then '-' :: digits n.natAbs else digits n.natAbs)
  else .error .tooLong

/-- The numeral of a number: a natural number is written at any length, a negative one
    only plainly. -/
def writeInt : (n : Int) → Except Error Word
  | .ofNat n => .ok (write n)
  | .negSucc n => plain (.negSucc n)

end Descent.Numeral
