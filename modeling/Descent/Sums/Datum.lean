import Descent.Sums.Expression

/-!
# Plain data

Plain values that may stand in an expression without belonging there: nothing, truth
values, integers, words, lists and records. A word is shown as it is where it stands
alone (`Datum.plain`), and between quotes inside another rendering (`Datum.render`).
-/

namespace Descent

/-- A plain value. -/
inductive Datum where
  /-- Nothing. -/
  | absent
  /-- A truth value. -/
  | truth (b : Bool)
  /-- An integer. -/
  | integer (n : Int)
  /-- A word. -/
  | word (w : Word)
  /-- A list. -/
  | list (items : List Datum)
  /-- A record: its keys in ascending order, each with a value. -/
  | record (fields : List (Word × Datum))
  deriving Inhabited

namespace Datum

mutual

/-- The value with its words between quotes. -/
def render : Datum → Word
  | .absent => "None".toList
  | .truth b => (if b then "True" else "False").toList
  | .integer n => Text.integer n
  | .word w => Text.quoted w
  | .list items => Text.bracketed (renderAll items)
  | .record fields => Text.braced (renderFields fields)

/-- The values of a list with their words between quotes. -/
def renderAll : List Datum → List Word
  | [] => []
  | x :: xs => x.render :: renderAll xs

/-- The fields of a record, a colon after every key. -/
def renderFields : List (Word × Datum) → List Word
  | [] => []
  | (key, x) :: fields => (Text.quoted key ++ ':' :: ' ' :: x.render) :: renderFields fields

end

/-- The value on its own: a word is shown without quotes. -/
def plain : Datum → Word
  | .word w => w
  | x => x.render

/-- The number that a value counts as: a truth value is `0` or `1`. -/
def asInteger? : Datum → Option Int
  | .truth b => some (if b then 1 else 0)
  | .integer n => some n
  | _ => none

mutual

/-- The values are equal, where a truth value equals the number it counts as. -/
def beq : (a b : Datum) → Bool
  | .absent, .absent => true
  | .word v, .word w => v == w
  | .list as, .list bs => beqAll as bs
  | .record as, .record bs => beqFields as bs
  | .truth a, b => b.asInteger? == some (if a then 1 else 0)
  | .integer a, b => b.asInteger? == some a
  | _, _ => false

/-- The lists have as many values, which are equal one by one. -/
def beqAll : (as bs : List Datum) → Bool
  | [], [] => true
  | a :: as, b :: bs => a.beq b && beqAll as bs
  | _, _ => false

/-- The records have the same keys, with equal values. -/
def beqFields : (as bs : List (Word × Datum)) → Bool
  | [], [] => true
  | (key, a) :: as, (key', b) :: bs => key == key' && a.beq b && beqFields as bs
  | _, _ => false

end

instance : BEq Datum := ⟨beq⟩

/-- What is said about a value in place of a number. -/
def notNumber (x : Datum) : Word := "not an integer expression: ".toList ++ x.render

end Datum

end Descent
