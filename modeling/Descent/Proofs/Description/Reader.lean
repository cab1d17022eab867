import Descent.Description.Reader
import Descent.Proofs.Description.Spelling
import Descent.Proofs.Description.Syntax

/-!
# What the reader accepts

The reader of descriptions accepts the tokens that follow their grammar and no others, and what
it reads is the description of which they are the tokens (`Reader.accepts_iff`).

* On the tokens of a part, it gets from where the part may begin to where it is read
  (`IsAtom.foldlM_step` and the like).
* Its state holds what the tokens before spell (`Reader.State.Spelled`), and every step keeps
  this up (`Reader.State.Spelled.step`).

So a text is parsed if it spells the tokens of a description (`Description.parse_eq_ok_iff`).
-/

namespace Descent

namespace Reader

/-! ## Reading the tokens of a part -/

variable {items : List Item} {block : Option (Word × List Rule)} {mode : Mode} {b : Body}

/-- A term may come next. -/
def Mode.Awaits (mode : Mode) (b : Body) : Prop :=
  mode = .term b ∨ mode = .quantifier b ∨ mode = .continuation b

/-- A term is complete, but for an operator. -/
def Mode.Follows (mode : Mode) (b : Body) : Prop :=
  mode = .quantifier b ∨ mode = .continuation b

theorem Mode.Follows.awaits (h : mode.Follows b) : mode.Awaits b := .inr h

theorem step_of_beginTerm (h : mode.Awaits b) {token : Token} {next : Mode}
    (hnext : beginTerm b token = some next) :
    step ⟨items, block, mode⟩ token = some ⟨items, block, next⟩ := by
  obtain rfl | rfl | rfl := h <;> cases token <;> cases hnext <;> rfl

theorem step_of_follows (h : mode.Follows b) (token : Token) (htoken : ∀ q, token ≠ .quantifier q) :
    step ⟨items, block, mode⟩ token = afterTerm ⟨items, block, mode⟩ b token := by
  obtain rfl | rfl := h <;> cases token <;> first | rfl | exact absurd rfl (htoken _)

/-- The frame with more terms in its present alternative. -/
def Frame.pushAll (f : Frame) (terms : List Term) : Frame :=
  { f with terms := terms.reverse ++ f.terms }

theorem Frame.pushAll_cons (f : Frame) (term : Term) (terms : List Term) :
    (f.push term).pushAll terms = f.pushAll (term :: terms) := by
  rw [pushAll, pushAll, push, List.reverse_cons, List.append_assoc]
  rfl

/-- The alternation that is read in `b` has the further alternatives in `b'`, where it may be
    complete. -/
structure Body.Closes (b b' : Body) (alternatives : Alternation) : Prop where
  /-- It is the same rule. -/
  name : b'.name = b.name
  /-- It is the same group. -/
  outer : b'.outer = b.outer
  /-- The alternatives come after those before. -/
  close : b'.inner.close = b.inner.alternatives.reverse ++ alternatives

end Reader

open Reader

section

variable {items : List Item} {block : Option (Word × List Rule)}

mutual

/-- Where a term may come next, the tokens of one without an operator are read. -/
theorem IsAtom.foldlM_step {tokens : List Token} {term : Term} :
    IsAtom tokens term → ∀ {mode : Mode} {b : Body}, mode.Awaits b →
    tokens.foldlM step ⟨items, block, mode⟩ =
      some ⟨items, block, .quantifier { b with inner := b.inner.push term }⟩
  | .reference name, _, _, hmode => by
    rw [List.foldlM_cons, step_of_beginTerm hmode rfl]
    rfl
  | .literal body, _, _, hmode => by
    rw [List.foldlM_cons, step_of_beginTerm hmode rfl]
    rfl
  | .charClass body, _, _, hmode => by
    rw [List.foldlM_cons, step_of_beginTerm hmode rfl]
    rfl
  | .group h, _, b, hmode => by
    obtain ⟨mode, b', hend, hcloses, hread⟩ :=
      h.foldlM_step (b := ⟨b.name, b.inner :: b.outer, .empty⟩) rfl
    rw [List.cons_append, List.foldlM_cons, step_of_beginTerm hmode rfl, Option.bind_eq_bind,
      Option.bind_some, List.foldlM_append, hread, Option.bind_eq_bind, Option.bind_some,
      List.foldlM_cons, step_of_follows hend .groupClosing nofun, afterTerm, hcloses.outer,
      hcloses.name, hcloses.close]
    rfl

/-- Where a term may come next, its tokens are read. -/
theorem IsTerm.foldlM_step {tokens : List Token} {term : Term} :
    IsTerm tokens term → ∀ {mode : Mode} {b : Body}, mode.Awaits b →
    ∃ next : Mode, next.Follows { b with inner := b.inner.push term } ∧
      tokens.foldlM step ⟨items, block, mode⟩ = some ⟨items, block, next⟩
  | .once h, _, _, hmode => ⟨_, .inl rfl, h.foldlM_step hmode⟩
  | .repeated h q, _, _, hmode => by
    refine ⟨_, .inr rfl, ?_⟩
    rw [List.foldlM_append, h.foldlM_step hmode]
    rfl

/-- Where a term may come next, the tokens of terms are read. -/
theorem IsConcatenation.foldlM_step {tokens : List Token} {terms : List Term} :
    IsConcatenation tokens terms → ∀ {mode : Mode} {b : Body}, mode.Awaits b →
    ∃ next : Mode, next.Follows { b with inner := b.inner.pushAll terms } ∧
      tokens.foldlM step ⟨items, block, mode⟩ = some ⟨items, block, next⟩
  | .last h, _, _, hmode => h.foldlM_step hmode
  | .cons h rest, _, _, hmode => by
    obtain ⟨mid, hmid, hread⟩ := h.foldlM_step hmode
    obtain ⟨next, hnext, hrest⟩ := rest.foldlM_step hmid.awaits
    rw [Frame.pushAll_cons] at hnext
    refine ⟨next, hnext, ?_⟩
    rw [List.foldlM_append, hread]
    exact hrest

/-- Where an alternative begins, the tokens of it and of further ones are read. -/
theorem IsAlternation.foldlM_step {tokens : List Token} {alternatives : Alternation} :
    IsAlternation tokens alternatives → ∀ {b : Body}, b.inner.terms = [] →
    ∃ (next : Mode) (b' : Body), next.Follows b' ∧ b.Closes b' alternatives ∧
      tokens.foldlM step ⟨items, block, .term b⟩ = some ⟨items, block, next⟩
  | .last h, b, hterms => by
    obtain ⟨next, hnext, hread⟩ := h.foldlM_step (b := b) (.inl rfl)
    refine ⟨next, _, hnext, ⟨rfl, rfl, ?_⟩, hread⟩
    simp [Frame.close, Frame.next, Frame.pushAll, hterms]
  | @IsAlternation.cons _ _ terms _ h rest, b, hterms => by
    obtain ⟨mid, hmid, hread⟩ := h.foldlM_step (b := b) (.inl rfl)
    obtain ⟨next, b', hnext, hcloses, hrest⟩ :=
      rest.foldlM_step (b := { b with inner := (b.inner.pushAll terms).next }) rfl
    refine ⟨next, b', hnext, ⟨hcloses.name, hcloses.outer, ?_⟩, ?_⟩
    · rw [hcloses.close]
      simp [Frame.next, Frame.pushAll, hterms]
    · rw [List.foldlM_append, hread, Option.bind_eq_bind, Option.bind_some, List.foldlM_cons,
        step_of_follows hmid .bar nofun]
      exact hrest

end

/-- The tokens of a rule are read. -/
theorem IsRule.foldlM_step {tokens : List Token} {r : Rule} (h : IsRule tokens r) :
    tokens.foldlM step ⟨items, block, .item⟩ = some (State.push ⟨items, block, .item⟩ r) := by
  cases h with
  | mk name h =>
    obtain ⟨next, b, hend, hcloses, hread⟩ := h.foldlM_step (b := ⟨name, [], .empty⟩) rfl
    change (_ ++ _ : List Token).foldlM step ⟨items, block, .term ⟨name, [], .empty⟩⟩ = _
    rw [List.foldlM_append, hread, Option.bind_eq_bind, Option.bind_some, List.foldlM_cons,
      step_of_follows hend .semicolon nofun, afterTerm, hcloses.outer, hcloses.name, hcloses.close]
    cases block <;> rfl

/-- The tokens of the rules in a block are read. -/
theorem foldlM_step_rules {tokens : List Token} {rules : List Rule} (h : Each IsRule tokens rules)
    (name : Word) (before : List Rule) :
    tokens.foldlM step ⟨items, some (name, before), .item⟩ =
      some ⟨items, some (name, rules.reverse ++ before), .item⟩ := by
  induction h generalizing before with
  | nil => rfl
  | cons h _ ih =>
    rw [List.foldlM_append, h.foldlM_step]
    refine (ih _).trans ?_
    rw [List.reverse_cons, List.append_assoc]
    rfl

/-- The tokens of a part are read. -/
theorem IsItem.foldlM_step {tokens : List Token} {item : Item} (h : IsItem tokens item) :
    tokens.foldlM step ⟨items, none, .item⟩ = some ⟨item :: items, none, .item⟩ := by
  cases h with
  | rule h => exact h.foldlM_step
  | block name h =>
    change (_ ++ _ : List Token).foldlM step ⟨items, some (name, []), .item⟩ = _
    rw [List.foldlM_append, foldlM_step_rules h, List.append_nil]
    simp [step]

/-- The tokens of a description are read. -/
theorem IsDescription.foldlM_step {tokens : List Token} {d : Description}
    (h : IsDescription tokens d) :
    tokens.foldlM step ⟨items, none, .item⟩ = some ⟨d.reverse ++ items, none, .item⟩ := by
  induction h generalizing items with
  | nil => rfl
  | cons h _ ih =>
    rw [List.foldlM_append, h.foldlM_step]
    refine ih.trans ?_
    rw [List.reverse_cons, List.append_assoc]
    rfl

end

namespace Reader

/-! ## What the state holds -/

variable {tokens later : List Token} {items : List Item} {block : Option (Word × List Rule)}
  {mode : Mode} {b : Body}

/-- The tokens of the alternation in the frame, as far as it is read. -/
def Frame.Spelled (tokens : List Token) (f : Frame) : Prop :=
  ∃ before later, Each (FollowedBy .bar IsConcatenation) before f.alternatives.reverse ∧
    Each IsTerm later f.terms.reverse ∧ tokens = before ++ later

theorem Frame.Spelled.empty : Frame.Spelled [] .empty := ⟨[], [], .nil, .nil, rfl⟩

theorem Frame.Spelled.push {f : Frame} {term : Term} (h : f.Spelled tokens)
    (hterm : IsTerm later term) : (f.push term).Spelled (tokens ++ later) := by
  obtain ⟨before, terms, hbefore, hterms, rfl⟩ := h
  refine ⟨before, terms ++ later, hbefore, ?_, List.append_assoc _ _ _⟩
  rw [Frame.push, List.reverse_cons]
  exact hterms.append (.single hterm)

theorem Frame.Spelled.next {f : Frame} (h : f.Spelled tokens) (hterms : f.terms ≠ []) :
    f.next.Spelled (tokens ++ [.bar]) := by
  obtain ⟨before, terms, hbefore, hlast, rfl⟩ := h
  refine ⟨before ++ (terms ++ [.bar]), [], ?_, .nil, by simp⟩
  rw [Frame.next, List.reverse_cons]
  exact hbefore.append (.single ⟨terms, isConcatenation_of_each hlast (by simpa), rfl⟩)

theorem Frame.Spelled.close {f : Frame} (h : f.Spelled tokens) (hterms : f.terms ≠ []) :
    IsAlternation tokens f.close := by
  obtain ⟨before, terms, hbefore, hlast, rfl⟩ := h
  rw [Frame.close, Frame.next, List.reverse_cons]
  exact isAlternation_of_each hbefore (isConcatenation_of_each hlast (by simpa))

/-- The tokens of the rule up to the present place. -/
def Body.Spelled (tokens : List Token) (b : Body) : Prop :=
  ∃ before later, Each (FollowedBy .groupOpening Frame.Spelled) before b.outer.reverse ∧
    b.inner.Spelled later ∧ tokens = .name b.name :: .defines :: (before ++ later)

theorem Body.Spelled.push {b : Body} {term : Term} (h : b.Spelled tokens)
    (hterm : IsTerm later term) :
    Body.Spelled (tokens ++ later) { b with inner := b.inner.push term } := by
  obtain ⟨before, inner, hbefore, hinner, rfl⟩ := h
  exact ⟨before, _, hbefore, hinner.push hterm, by simp⟩

theorem Body.Spelled.next {b : Body} (h : b.Spelled tokens) (hterms : b.inner.terms ≠ []) :
    Body.Spelled (tokens ++ [.bar]) { b with inner := b.inner.next } := by
  obtain ⟨before, inner, hbefore, hinner, rfl⟩ := h
  exact ⟨before, _, hbefore, hinner.next hterms, by simp⟩

/-- A group begins. -/
theorem Body.Spelled.enter {b : Body} (h : b.Spelled tokens) :
    Body.Spelled (tokens ++ [.groupOpening]) ⟨b.name, b.inner :: b.outer, .empty⟩ := by
  obtain ⟨before, inner, hbefore, hinner, rfl⟩ := h
  refine ⟨before ++ (inner ++ [.groupOpening]), [], ?_, .empty, by simp⟩
  rw [List.reverse_cons]
  exact hbefore.append (.single ⟨inner, hinner, rfl⟩)

/-- A group ends, which is then a term of the alternation around it. -/
theorem Body.Spelled.leave {b : Body} {f : Frame} {outer : List Frame} (h : b.Spelled tokens)
    (houter : b.outer = f :: outer) (hterms : b.inner.terms ≠ []) :
    ∃ before later, Body.Spelled before ⟨b.name, outer, f⟩ ∧
      IsAtom later (.group b.inner.close) ∧ tokens ++ [.groupClosing] = before ++ later := by
  obtain ⟨before, inner, hbefore, hinner, rfl⟩ := h
  rw [houter, List.reverse_cons] at hbefore
  obtain ⟨around, last, haround, hlast, rfl⟩ := hbefore.of_append
  obtain ⟨frame, hframe, rfl⟩ := hlast.of_single
  exact ⟨_, _, ⟨around, frame, haround, hframe, rfl⟩, .group (hinner.close hterms), by simp⟩

/-- A rule ends outside of groups. -/
theorem Body.Spelled.isRule {b : Body} (h : b.Spelled tokens) (houter : b.outer = [])
    (hterms : b.inner.terms ≠ []) :
    IsRule (tokens ++ [.semicolon]) ⟨b.name, b.inner.close⟩ := by
  obtain ⟨before, inner, hbefore, hinner, rfl⟩ := h
  rw [houter] at hbefore
  cases hbefore
  exact .mk b.name (hinner.close hterms)

/-- The tokens of a rule or of the head of a block, up to the present place. -/
def Mode.Spelled (tokens : List Token) : (mode : Mode) → Prop
  | .item => tokens = []
  | .skipName => tokens = [.skip]
  | .blockOpening name => tokens = [.skip, .name name]
  | .defines name => tokens = [.name name]
  | .term b => b.Spelled tokens
  | .quantifier b => ∃ f term before later, b.inner = f.push term ∧
    Body.Spelled before { b with inner := f } ∧ IsAtom later term ∧ tokens = before ++ later
  | .continuation b => b.Spelled tokens ∧ b.inner.terms ≠ []

theorem Mode.Spelled.of_follows (h : mode.Spelled tokens) (hmode : mode.Follows b) :
    b.Spelled tokens ∧ b.inner.terms ≠ [] := by
  obtain rfl | rfl := hmode
  · obtain ⟨f, term, before, later, hb, hbefore, hterm, rfl⟩ := h
    have hpush := hbefore.push (.once hterm)
    rw [← hb] at hpush
    refine ⟨hpush, ?_⟩
    rw [hb]
    exact List.cons_ne_nil _ _
  · exact h

theorem Body.Spelled.beginTerm (h : b.Spelled tokens) {token : Token} {next : Mode}
    (hnext : beginTerm b token = some next) : next.Spelled (tokens ++ [token]) := by
  cases token <;> cases hnext
  case name word => exact ⟨b.inner, _, tokens, _, rfl, h, .reference word, rfl⟩
  case literal body => exact ⟨b.inner, _, tokens, _, rfl, h, .literal body, rfl⟩
  case charClass body => exact ⟨b.inner, _, tokens, _, rfl, h, .charClass body, rfl⟩
  case groupOpening => exact h.enter

/-- The tokens of the parts that are complete, and of the block that is open. -/
def Held (tokens : List Token) (items : List Item) : (block : Option (Word × List Rule)) → Prop
  | none => Each IsItem tokens items.reverse
  | some (name, rules) => ∃ before later, Each IsItem before items.reverse ∧
    Each IsRule later rules.reverse ∧
    tokens = before ++ .skip :: .name name :: .opening :: later

theorem Held.rule {r : Rule} (h : Held tokens items none) (hr : IsRule later r) :
    Held (tokens ++ later) (.rule r :: items) none := by
  rw [Held, List.reverse_cons]
  exact Each.append h (.single (.rule hr))

theorem Held.ruleInBlock {name : Word} {rules : List Rule} {r : Rule}
    (h : Held tokens items (some (name, rules))) (hr : IsRule later r) :
    Held (tokens ++ later) items (some (name, r :: rules)) := by
  obtain ⟨before, inner, hbefore, hinner, rfl⟩ := h
  refine ⟨before, inner ++ later, hbefore, ?_, by simp⟩
  rw [List.reverse_cons]
  exact hinner.append (.single hr)

theorem Held.openBlock (h : Held tokens items none) (name : Word) :
    Held (tokens ++ [.skip, .name name, .opening]) items (some (name, [])) :=
  ⟨tokens, [], h, .nil, rfl⟩

theorem Held.closeBlock {name : Word} {rules : List Rule}
    (h : Held tokens items (some (name, rules))) :
    Held (tokens ++ [.closing]) (.block name rules.reverse :: items) none := by
  obtain ⟨before, inner, hbefore, hinner, rfl⟩ := h
  rw [Held, List.reverse_cons]
  have := hbefore.append (.single (IsItem.block name hinner))
  simpa using this

/-- The head of a block is read. -/
def Mode.beginsBlock : (mode : Mode) → Bool
  | .skipName | .blockOpening _ => true
  | _ => false

/-- The tokens that are read are those of what the state holds. A block does not begin in a
    block. -/
def State.Spelled (tokens : List Token) (s : State) : Prop :=
  ∃ before later, Held before s.items s.block ∧ s.mode.Spelled later ∧
    (s.mode.beginsBlock → s.block = none) ∧ tokens = before ++ later

theorem State.Spelled.initial : State.Spelled [] .initial := ⟨[], [], .nil, rfl, nofun, rfl⟩

theorem State.Spelled.push {s : State} {r : Rule} (h : Held tokens s.items s.block)
    (hr : IsRule later r) : (s.push r).Spelled (tokens ++ later) := by
  obtain ⟨items, block, mode⟩ := s
  cases block with
  | none => exact ⟨_, [], Held.rule h hr, rfl, nofun, (List.append_nil _).symm⟩
  | some block => exact ⟨_, [], Held.ruleInBlock h hr, rfl, nofun, (List.append_nil _).symm⟩

theorem beginsBlock_of_beginTerm {token : Token} {next : Mode}
    (hnext : beginTerm b token = some next) : next.beginsBlock = false := by
  cases token <;> cases hnext <;> rfl

/-- The token after a term is one of what the state holds then. -/
theorem State.Spelled.afterTerm {s s' : State} {token : Token} (h : Held tokens s.items s.block)
    (hb : b.Spelled later) (hterms : b.inner.terms ≠ []) (hs' : afterTerm s b token = some s') :
    s'.Spelled (tokens ++ later ++ [token]) := by
  rw [List.append_assoc]
  have hbegin : ((beginTerm b token).map fun mode => { s with mode }) = some s' →
      s'.Spelled (tokens ++ (later ++ [token])) := by
    intro hs'
    obtain ⟨next, hnext, rfl⟩ := Option.map_eq_some_iff.1 hs'
    exact ⟨_, _, h, hb.beginTerm hnext, by simp [beginsBlock_of_beginTerm hnext], rfl⟩
  cases token with
  | bar =>
    cases hs'
    exact ⟨_, _, h, hb.next hterms, nofun, rfl⟩
  | groupClosing =>
    rw [Reader.afterTerm] at hs'
    cases houter : b.outer with
    | nil =>
      rw [houter] at hs'
      cases hs'
    | cons f outer =>
      rw [houter] at hs'
      cases hs'
      obtain ⟨before, group, hbefore, hgroup, heq⟩ := hb.leave houter hterms
      exact ⟨_, _, h, ⟨f, _, before, group, rfl, hbefore, hgroup, heq⟩, nofun, rfl⟩
  | semicolon =>
    rw [Reader.afterTerm] at hs'
    cases houter : b.outer with
    | nil =>
      rw [houter] at hs'
      cases hs'
      exact .push h (hb.isRule houter hterms)
    | cons f outer =>
      rw [houter] at hs'
      cases hs'
  | _ => exact hbegin hs'

/-- What the state holds is kept up by every step. -/
theorem State.Spelled.step {s s' : State} {token : Token} (h : s.Spelled tokens)
    (hs' : step s token = some s') : s'.Spelled (tokens ++ [token]) := by
  obtain ⟨items, block, mode⟩ := s
  obtain ⟨before, later, hheld, hmode, hblock, rfl⟩ := h
  cases mode with
  | item =>
    cases hmode
    rw [List.append_nil]
    cases token with
    | name word =>
      cases hs'
      exact ⟨_, _, hheld, rfl, nofun, rfl⟩
    | skip =>
      cases block with
      | none =>
        cases hs'
        exact ⟨_, _, hheld, rfl, fun _ => rfl, rfl⟩
      | some block => cases hs'
    | closing =>
      cases block with
      | none => cases hs'
      | some block =>
        cases hs'
        exact ⟨_, [], hheld.closeBlock, rfl, nofun, (List.append_nil _).symm⟩
    | _ => cases hs'
  | skipName =>
    cases hmode
    cases token <;> cases hs'
    exact ⟨_, _, hheld, rfl, hblock, List.append_assoc _ _ _⟩
  | blockOpening name =>
    cases hmode
    cases token <;> cases hs'
    cases hblock rfl
    exact ⟨_, [], hheld.openBlock name, rfl, nofun, by simp⟩
  | defines name =>
    cases hmode
    cases token <;> cases hs'
    exact ⟨_, _, hheld, ⟨[], [], .nil, .empty, rfl⟩, nofun, List.append_assoc _ _ _⟩
  | term b =>
    obtain ⟨next, hnext, rfl⟩ := Option.map_eq_some_iff.1 hs'
    exact ⟨_, _, hheld, Body.Spelled.beginTerm hmode hnext,
      by simp [beginsBlock_of_beginTerm hnext], List.append_assoc _ _ _⟩
  | quantifier b =>
    obtain ⟨hb, hterms⟩ := hmode.of_follows (.inl rfl)
    cases token with
    | quantifier q =>
      cases hs'
      obtain ⟨f, term, start, last, hf, hstart, hterm, rfl⟩ := hmode
      refine ⟨_, _, hheld, ⟨?_, ?_⟩, nofun, List.append_assoc _ _ _⟩
      · rw [hf, List.append_assoc]
        exact hstart.push (.repeated hterm q)
      · rw [hf]
        exact List.cons_ne_nil _ _
    | _ => exact .afterTerm hheld hb hterms hs'
  | continuation b => exact .afterTerm hheld hmode.1 hmode.2 hs'

theorem State.Spelled.foldlM_step {s s' : State} (h : s.Spelled tokens)
    (hs' : later.foldlM Reader.step s = some s') : s'.Spelled (tokens ++ later) := by
  induction later generalizing s tokens with
  | nil =>
    cases hs'
    rwa [List.append_nil]
  | cons token later ih =>
    rw [List.foldlM_cons] at hs'
    obtain ⟨mid, hmid, hs'⟩ := Option.bind_eq_some_iff.1 hs'
    have := ih (h.step hmid) hs'
    rwa [List.append_assoc] at this

/-- Where a description may end, the tokens that are read are those of one. -/
theorem State.Spelled.finish {s : State} {d : Description} (h : s.Spelled tokens)
    (hd : finish s = some d) : IsDescription tokens d := by
  obtain ⟨items, block, mode⟩ := s
  obtain ⟨before, later, hheld, hmode, -, rfl⟩ := h
  cases block with
  | some => cases hd
  | none =>
    cases mode <;> cases hd
    cases hmode
    rwa [List.append_nil]

/-- The reader accepts the tokens of descriptions and no others. -/
theorem accepts_iff {d : Description} :
    (tokens.foldlM step .initial).bind finish = some d ↔ IsDescription tokens d := by
  refine ⟨fun h => ?_, fun h => ?_⟩
  · obtain ⟨s, hs, hd⟩ := Option.bind_eq_some_iff.1 h
    have hspelled := State.Spelled.initial.foldlM_step hs
    exact hspelled.finish hd
  · rw [State.initial, h.foldlM_step, Option.bind_some, finish, List.append_nil,
      List.reverse_reverse]

/-- No token is unreadable up to where the reader has come. -/
theorem unreadable_not_mem {s s' : State} (h : tokens.foldlM step s = some s') :
    .unreadable ∉ tokens := by
  induction tokens generalizing s with
  | nil => exact List.not_mem_nil
  | cons token tokens ih =>
    rw [List.foldlM_cons] at h
    obtain ⟨mid, hmid, h⟩ := Option.bind_eq_some_iff.1 h
    rw [List.mem_cons, not_or]
    refine ⟨?_, ih h⟩
    rintro rfl
    obtain ⟨items, block, mode⟩ := s
    cases mode <;> cases hmid

theorem run_eq_ok_iff {s : State} {last : Word} {tokens : List (Token × Word)} {d : Description} :
    run s last tokens = .ok d ↔ ((tokens.map (·.1)).foldlM step s).bind finish = some d := by
  induction tokens generalizing s last with
  | nil =>
    rw [run, List.map_nil, List.foldlM_nil]
    change _ ↔ finish s = some d
    cases finish s <;> simp
  | cons token tokens ih =>
    obtain ⟨token, start⟩ := token
    rw [run, List.map_cons, List.foldlM_cons]
    cases step s token with
    | none => simp
    | some s => exact ih

end Reader

/-- A text is parsed if it spells the tokens of a description. -/
theorem Description.parse_eq_ok_iff {w : Word} {d : Description} :
    Description.parse w = .ok d ↔
      ∃ tokens, Token.Spells false tokens w ∧ IsDescription tokens d := by
  rw [Description.parse, run_eq_ok_iff]
  simp only [Token.spells_iff]
  constructor
  · intro h
    obtain ⟨s, hs, -⟩ := Option.bind_eq_some_iff.1 h
    exact ⟨_, ⟨rfl, unreadable_not_mem hs⟩, accepts_iff.1 h⟩
  · rintro ⟨_, ⟨rfl, -⟩, h⟩
    exact accepts_iff.2 h

end Descent
