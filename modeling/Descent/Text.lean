/-!
# Texts and words

A *text* is what is matched: an array of characters, so that an offset finds its
character at once. A *word* is what a text is compared with, or what is written
about it: a list of characters. Names, literals and renderings are words; strings
only appear at the edges, in messages and on the console.

* `Text.holds`: a word stands in a text at an offset;
* `Text.slice`: the part of a text between two signed offsets, where a negative
  offset counts from the end and an offset outside the text means its nearest end.
-/

namespace Descent

/-- A word: its characters, in order. -/
abbrev Word := List Char

/-- A text: its characters, addressed by their offset from `0`. -/
abbrev Text := Array Char

namespace Text

/-- The text of a string. -/
def ofString (s : String) : Text := s.toList.toArray

/-- The word `w` stands in the text `t` at the offset `pos`. At an offset past the
    end stands no word, not even the empty one. -/
def holds (t : Text) : (w : Word) → (pos : Nat) → Bool
  | [], pos => pos ≤ t.size
  | c :: w, pos => t[pos]? == some c && t.holds w (pos + 1)

/-- The offset meant by the signed offset `i` in a text of `size` characters: a
    negative one counts from the end, and both ends stop it. -/
def locate (size : Nat) : (i : Int) → Nat
  | .ofNat n => min n size
  | .negSucc n => size - (n + 1)

/-- The characters from the signed offset `start` up to the signed offset `stop`;
    none, if they are out of order. -/
def slice (t : Text) (start stop : Int) : Word :=
  (t.extract (locate t.size start) (locate t.size stop)).toList

end Text

end Descent
