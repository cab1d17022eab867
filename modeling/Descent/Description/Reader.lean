import Descent.Description

/-!
# Reading descriptions

The tokens of a description are read one by one, by a reader that holds on a stack
what is begun and not yet ended (`Reader.step`). A token that cannot go on any
description is refused at once, so the first mistake shows at the first refused token;
if the tokens come to an end too early, it is put at the last one
(`Description.parse`).
-/

namespace Descent

namespace Reader

/-! ## What is begun -/

/-- An alternation that is being read. -/
structure Frame where
  /-- The alternatives that are complete, the last one first. -/
  alternatives : List (List Term)
  /-- The terms of the present alternative, the last one first. -/
  terms : List Term

namespace Frame

/-- An alternation before its first term. -/
def empty : Frame := ⟨[], []⟩

/-- One more term comes to the present alternative. -/
def push (f : Frame) (term : Term) : Frame := { f with terms := term :: f.terms }

/-- The last term of the present alternative is repeated. -/
def quantify (f : Frame) (q : Quantifier) : Frame :=
  match f.terms with
  | [] => f
  | term :: terms => { f with terms := .repeated term q :: terms }

/-- The present alternative is complete, and a new one begins. -/
def next (f : Frame) : Frame := ⟨f.terms.reverse :: f.alternatives, []⟩

/-- The alternation is complete. -/
def close (f : Frame) : Alternation := f.next.alternatives.reverse

end Frame

/-- A rule whose right-hand side is being read. -/
structure Body where
  /-- The name that is defined. -/
  name : Word
  /-- The alternations around the present one, the innermost first. -/
  outer : List Frame
  /-- The present alternation. -/
  inner : Frame

/-- What may come next. -/
inductive Mode where
  /-- A rule, a block, or the end of a block. -/
  | item
  /-- The name of the rule that a block skips. -/
  | skipName
  /-- The brace that opens the block. -/
  | blockOpening (name : Word)
  /-- The sign after the name of a rule. -/
  | defines (name : Word)
  /-- A term. -/
  | term (b : Body)
  /-- An operator on the last term, or whatever may follow a term. -/
  | quantifier (b : Body)
  /-- Whatever may follow a term. -/
  | continuation (b : Body)

/-- What is read so far. -/
structure State where
  /-- The parts that are complete, the last one first. -/
  items : List Item
  /-- The block that is open, if there is one, with its rules, the last one first. -/
  block : Option (Word × List Rule)
  /-- What may come next. -/
  mode : Mode

/-- Nothing is read. -/
def State.initial : State := ⟨[], none, .item⟩

/-- A rule is complete. It belongs to the open block, if there is one. -/
def State.push (s : State) (r : Rule) : State :=
  match s.block with
  | some (name, rules) => { s with block := some (name, r :: rules), mode := .item }
  | none => { s with items := .rule r :: s.items, mode := .item }

/-! ## Steps -/

/-- The token begins a term. -/
def beginTerm (b : Body) : (token : Token) → Option Mode
  | .name word => some (.quantifier { b with inner := b.inner.push (.reference word) })
  | .literal body => some (.quantifier { b with inner := b.inner.push (.literal body) })
  | .charClass body => some (.quantifier { b with inner := b.inner.push (.charClass body) })
  | .groupOpening => some (.term { b with outer := b.inner :: b.outer, inner := .empty })
  | _ => none

/-- The token comes after a term. -/
def afterTerm (s : State) (b : Body) : (token : Token) → Option State
  | .bar => some { s with mode := .term { b with inner := b.inner.next } }
  -- a group may only be closed inside of one, and a rule may only end outside
  | .groupClosing =>
    match b.outer with
    | [] => none
    | frame :: outer =>
      some { s with mode := .quantifier ⟨b.name, outer, frame.push (.group b.inner.close)⟩ }
  | .semicolon =>
    match b.outer with
    | [] => some (s.push ⟨b.name, b.inner.close⟩)
    | _ :: _ => none
  | token => (beginTerm b token).map fun mode => { s with mode }

/-- What is read after one more token, unless that is refused. -/
def step (s : State) (token : Token) : Option State :=
  match s.mode, token with
  | .item, .name word => some { s with mode := .defines word }
  | .item, .skip => if s.block.isNone then some { s with mode := .skipName } else none
  | .item, .closing =>
    s.block.map fun (name, rules) => ⟨.block name rules.reverse :: s.items, none, .item⟩
  | .skipName, .name word => some { s with mode := .blockOpening word }
  | .blockOpening name, .opening => some { s with block := some (name, []), mode := .item }
  | .defines name, .defines => some { s with mode := .term ⟨name, [], .empty⟩ }
  | .term b, token => (beginTerm b token).map fun mode => { s with mode }
  | .quantifier b, .quantifier q =>
    some { s with mode := .continuation { b with inner := b.inner.quantify q } }
  | .quantifier b, token | .continuation b, token => afterTerm s b token
  | _, _ => none

/-- The description that is read, if it may end here. -/
def finish : (s : State) → Option Description
  | ⟨items, none, .item⟩ => some items.reverse
  | _ => none

/-- Read the rest of the tokens. A mistake is given by the token where it shows, as the
    part of the text that begins with it; `last` is the one before the rest. -/
def run (s : State) (last : Word) : (tokens : List (Token × Word)) → Except Word Description
  | [] =>
    match finish s with
    | some d => .ok d
    | none => .error last
  | (token, start) :: tokens =>
    match step s token with
    | some s => run s start tokens
    | none => .error start

end Reader

/-- The description spelled by a text, or else the part of the text that begins with the
    first mistake. -/
def Description.parse (w : Word) : Except Word Description :=
  Reader.run .initial w (Token.lex w)

end Descent
