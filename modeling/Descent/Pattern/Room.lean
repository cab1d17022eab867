import Descent.Pattern.Matching

/-!
# Matching in little room

While a pattern is searched for, so are its parts, one within the other: the items of a
sequence, the alternatives of a choice, what is repeated, and the pattern of a rule that
is entered. Each of these searches takes some room, and not only the one for a rule. So
how deeply rules may be entered within one another depends on how the patterns are put
together, if nothing but the room is given.

* `Pattern.searchBy` searches for a pattern, given how its parts are searched for.
* `Rules.searchIn` searches for a pattern when there is `room` for that many searches
  within one another.
-/

namespace Descent

namespace Pattern

variable (part : Pattern → Nat → Search Match)

/-- The matches of the items one after the other, which come after the match `before`;
    then `after`. -/
def searchAllBy : (items : List Pattern) → (before : Match) → (after : Unit → Search Match) →
    Search Match
  | [], before, after => .found before after
  | item :: items, before, after =>
    (part item before.stop).explore
      (fun m rest => searchAllBy items (before.andThen m) rest) after

/-- The matches of each alternative in turn. -/
def searchAnyBy : (alternatives : List Pattern) → (pos : Nat) → Search Match
  | [], _ => .done
  | p :: ps, pos => (part p pos).append fun _ => searchAnyBy ps pos

/-- The matches of a pattern at an offset of the text `t`, where `part` gives those of its
    parts and `enter` those of a rule. -/
def searchBy (t : Text) (enter : Word → Nat → Search Match) : (p : Pattern) → (pos : Nat) →
    Search Match
  | .sequence items, pos => searchAllBy part items (.empty pos) fun _ => .done
  | .choice alternatives, pos => searchAnyBy part alternatives pos
  | .repetition item minimum maximum, pos =>
    repeatFrom (part item) minimum maximum (t.size - pos) 0 (.empty pos) fun _ => .done
  -- without parts, there is nothing to leave to others
  | .literal word, pos => (literal word).search t enter pos
  | .charClass k, pos => (charClass k).search t enter pos
  | .reference name, pos => (reference name).search t enter pos
  | .skip name, pos => (skip name).search t enter pos

end Pattern

namespace Rules

/-- The matches of a rule, where `part` gives those of the pattern it is defined by. -/
def enterBy (rules : Rules) (part : Pattern → Nat → Search Match) (name : Word) (pos : Nat) :
    Search Match :=
  match rules.lookup name with
  | none => .halt (.undefined name)
  | some p => part p pos

/-- The matches of a pattern at an offset of the text `t`, when there is room for that many
    searches within one another. -/
def searchIn (rules : Rules) (t : Text) : (room : Nat) → (p : Pattern) → (pos : Nat) →
    Search Match
  | 0, _, _ => .halt .tooDeep
  | room + 1, p, pos =>
    p.searchBy (searchIn rules t room) t (rules.enterBy (searchIn rules t room)) pos

end Rules

end Descent
