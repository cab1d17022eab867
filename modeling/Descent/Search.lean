import Descent.Text

/-!
# Lazy searches

A *search* produces its results one at a time, most preferred first, and works on
only when asked for more. While it works, it tells which offsets of the text it
reaches, so that a failed search can say how far it came. It ends when it has
nothing left to try (`done`), or breaks off for a reason (`halt`), which is not the
same: a search that breaks off says nothing about the results it did not get to.

* `Search.explore` continues every result of a search by another search, with the
  rest of the work at hand for when that one is exhausted. The pending work is held
  in the rest, so that a chain of thousands of results does not nest.
* `Search.first` settles for the first result, `Search.firstWhere` for the first
  one that passes a test, and `Search.take` for a number of them.
-/

namespace Descent

/-- Why a search breaks off. -/
inductive Halt where
  /-- Rules are entered, or searches of any kind are nested, more deeply than allowed. -/
  | tooDeep
  /-- The name of a rule is not defined. -/
  | undefined (name : Word)
  deriving DecidableEq, Repr

/-- A search for values of `α`, to be advanced on demand. -/
inductive Search (α : Type) where
  /-- There is nothing left to try. -/
  | done
  /-- The search breaks off. -/
  | halt (cause : Halt)
  /-- Some of the text is matched up to `offset`. -/
  | reach (offset : Nat) (rest : Unit → Search α)
  /-- A result is found. -/
  | found (result : α) (rest : Unit → Search α)

/-- How a search fails to give what is asked of it. In either case `furthest` is the
    largest offset reached. -/
inductive Refusal where
  /-- No result will do. -/
  | unmatched (furthest : Nat)
  /-- The search broke off before. -/
  | halted (cause : Halt) (furthest : Nat)
  deriving DecidableEq, Repr

namespace Search

variable {α β : Type}

/-- The search with the one result `a`. -/
def single (a : α) : Search α := .found a fun _ => .done

/-- Continue every result of a search by `visit`, which is also given the work left
    after it, and the exhausted search by `after`. -/
def explore (visit : α → (Unit → Search β) → Search β) (after : Unit → Search β) :
    Search α → Search β
  | .done => after ()
  | .halt cause => .halt cause
  | .reach offset rest => .reach offset fun _ => (rest ()).explore visit after
  | .found a rest => visit a fun _ => (rest ()).explore visit after

/-- The results of `s`, then those of `after`. -/
def append (s : Search α) (after : Unit → Search α) : Search α :=
  s.explore .found after

/-- Every result changed by `f`. -/
def map (f : α → β) (s : Search α) : Search β :=
  s.explore (fun a rest => .found (f a) rest) fun _ => .done

/-- The first result and no other, or else `default`. -/
def first (default : α) : Search α → Search α
  | .done => single default
  | .halt cause => .halt cause
  | .reach offset rest => .reach offset fun _ => (rest ()).first default
  | .found a _ => single a

/-- The first result that passes the test, where `furthest` is the largest offset
    reached before. -/
def firstWhere (test : α → Bool) (furthest : Nat) : Search α → Except Refusal α
  | .done => .error (.unmatched furthest)
  | .halt cause => .error (.halted cause furthest)
  | .reach offset rest => (rest ()).firstWhere test (max furthest offset)
  | .found a rest => if test a then .ok a else (rest ()).firstWhere test furthest

/-- The outcome of taking results from a search. -/
structure Taken (α : Type) where
  /-- The results, each with the largest offset reached when it was found. -/
  results : List (α × Nat)
  /-- The largest offset reached in the end, or why the search broke off. -/
  ending : Except Halt Nat

/-- At most `limit` results, where `furthest` is the largest offset reached before.
    With the last of them the search stops. -/
def take (furthest : Nat) : (limit : Nat) → Search α → Taken α
  | 0, _ => ⟨[], .ok furthest⟩
  | _, .done => ⟨[], .ok furthest⟩
  | _, .halt cause => ⟨[], .error cause⟩
  | limit, .reach offset rest => (rest ()).take (max furthest offset) limit
  | 1, .found a _ => ⟨[(a, furthest)], .ok furthest⟩
  | limit + 1, .found a rest =>
    let taken := (rest ()).take furthest limit
    { taken with results := (a, furthest) :: taken.results }

end Search

end Descent
