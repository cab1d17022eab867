import Descent.Pattern
import Descent.Search
import Descent.Tree

/-!
# Matching

What a pattern matches at an offset of a text is found by search, most preferred
first: an earlier alternative before a later one, and more repetitions before fewer.
An alternative is only tried when a continuation of the ones before it is asked for
and fails.

* `Pattern.search` searches for the matches of a pattern, given how rules are entered.
* `Rules.enter` enters a rule: it searches for the matches of the pattern it is
  defined by, in which rules may be entered in turn, down to a limit.

A repetition goes on only after a match that is not empty, as an empty one could be
repeated for ever. So every repetition takes at least one character, which bounds
their number by the length of the text.
-/

namespace Descent

/-- A match of a pattern at an offset. -/
structure Match where
  /-- The offset where it stops. -/
  stop : Nat
  /-- The nodes of the references in it, the last one first. -/
  trail : List Tree

namespace Match

/-- The match of nothing at an offset. -/
def empty (pos : Nat) : Match := ⟨pos, []⟩

/-- The nodes of the references, from left to right. -/
def nodes (m : Match) : List Tree := m.trail.reverse

/-- Two matches, the second one starting where the first one stops. -/
def andThen (before m : Match) : Match := ⟨m.stop, m.trail ++ before.trail⟩

/-- The node for a match of the rule `name` from the offset `pos` on. -/
def toTree (t : Text) (name : Word) (pos : Nat) (m : Match) : Tree :=
  ⟨name, t, pos, m.stop, m.nodes⟩

end Match

namespace Pattern

/-- After `count` repetitions, which matched `before`: first every non-empty match of the
    item is tried, unless `maximum` is reached, and followed by further repetitions,
    `bound` more at most; then the repetitions so far will do, unless `minimum` is not
    reached; then `after`. -/
def repeatFrom (item : Nat → Search Match) (minimum : Int) (maximum : Option Int) :
    (bound count : Nat) → (before : Match) → (after : Unit → Search Match) → Search Match
  | bound, count, before, after =>
    let enough := fun _ => if minimum ≤ count then .found before after else after ()
    if maximum.any (· ≤ (count : Int)) then enough ()
    else (item before.stop).explore (fun m rest =>
      -- an empty match is no repetition, as it could be repeated for ever
      if before.stop < m.stop then
        match bound with
        | 0 => rest ()
        | bound + 1 => repeatFrom item minimum maximum bound (count + 1) (before.andThen m) rest
      else rest ()) enough

variable (t : Text) (enter : Word → Nat → Search Match)

mutual

/-- The matches of a pattern at an offset of the text `t`, where `enter` gives the
    matches of a rule. -/
def search : (p : Pattern) → (pos : Nat) → Search Match
  | .literal word, pos =>
    let stop := pos + word.length
    if t.holds word pos then .reach stop fun _ => .single (.empty stop) else .done
  | .charClass k, pos =>
    if t[pos]?.any k.accepts then .reach (pos + 1) fun _ => .single (.empty (pos + 1)) else .done
  | .sequence items, pos => searchAll items (.empty pos) fun _ => .done
  | .choice alternatives, pos => searchAny alternatives pos
  | .repetition item minimum maximum, pos =>
    repeatFrom (fun pos => item.search pos) minimum maximum (t.size - pos) 0 (.empty pos)
      fun _ => .done
  | .reference name, pos =>
    (enter name pos).map fun m => ⟨m.stop, [m.toTree t name pos]⟩
  | .skip name, pos =>
    ((enter name pos).map fun m => .empty m.stop).first (.empty pos)

/-- The matches of the items one after the other, which come after the match `before`;
    then `after`. -/
def searchAll : (items : List Pattern) → (before : Match) → (after : Unit → Search Match) →
    Search Match
  | [], before, after => .found before after
  | item :: items, before, after =>
    (item.search before.stop).explore
      (fun m rest => searchAll items (before.andThen m) rest) after

/-- The matches of each alternative in turn. -/
def searchAny : (alternatives : List Pattern) → (pos : Nat) → Search Match
  | [], _ => .done
  | p :: ps, pos => (p.search pos).append fun _ => searchAny ps pos

end

end Pattern

/-- The rules of a grammar: a pattern for every name, in the order of definition. -/
abbrev Rules := List (Word × Pattern)

namespace Rules

/-- The matches of a rule at an offset of the text `t`, when rules may be entered within
    one another `limit` times. -/
def enter (rules : Rules) (t : Text) : (limit : Nat) → (name : Word) → (pos : Nat) → Search Match
  | 0, name, _ =>
    match rules.lookup name with
    | none => .halt (.undefined name)
    | some _ => .halt .tooDeep
  | limit + 1, name, pos =>
    match rules.lookup name with
    | none => .halt (.undefined name)
    | some p => p.search t (fun name pos => enter rules t limit name pos) pos

end Rules

end Descent
