import Descent.Proofs.Description.Reader

/-!
# Beginnings of descriptions

Tokens begin a description if others can come after them so that some text spells all of them,
and they are those of a description (`BeginsDescription`).

The reader refuses nothing too late, as none of its states is a dead end: what is open can be
closed, and where a term is asked for, a name will do (`Reader.State.completable`). So the tokens
that begin a description are those that are spelled in some way and that the reader does not
refuse (`beginsDescription_iff`).
-/

namespace Descent

variable {tokens : List Token} {token : Token}

/-- The tokens are the first ones of some text that spells a description. -/
def BeginsDescription (tokens : List Token) : Prop :=
  ∃ later w d, Token.Spells false (tokens ++ later) w ∧ IsDescription (tokens ++ later) d

/-! ## Tokens that are spelled -/

namespace Token

/-- Some word spells the token. -/
def Spellable (token : Token) : Prop := ∃ u, Spelled token u

theorem spellable_of_fixed {w : Word} (h : token.fixed = some w) : token.Spellable := ⟨w, .fixed h⟩

/-- There is always a name. -/
theorem spellable_name : (name ['a']).Spellable := ⟨_, .name rfl nofun⟩

theorem Spells.spellable {afterName : Bool} {w : Word} (h : Spells afterName tokens w) :
    ∀ token ∈ tokens, token.Spellable := by
  induction h with
  | nil => nofun
  | cons _ _ h _ ih => exact List.forall_mem_cons.2 ⟨⟨_, h⟩, ih⟩

/-- With blanks between them, all tokens can be spelled together. -/
theorem exists_spells (h : ∀ token ∈ tokens, token.Spellable) (afterName : Bool) :
    ∃ w, Spells afterName tokens w := by
  induction tokens generalizing afterName with
  | nil => exact ⟨[], .nil .nil⟩
  | cons token tokens ih =>
    obtain ⟨⟨u, hu⟩, hrest⟩ := List.forall_mem_cons.1 h
    obtain ⟨v, hv⟩ := ih hrest token.isName
    exact ⟨[' '] ++ u ++ v, .cons (.blank rfl .nil) (fun _ _ => List.cons_ne_nil _ _) hu hv⟩

end Token

/-! ## No dead ends -/

namespace Reader

variable {s s' : State} {items : List Item} {block : Option (Word × List Rule)} {mode : Mode}
  {b : Body}

/-- Some tokens that can be spelled lead from the state to where a description may end. -/
def State.Completable (s : State) : Prop :=
  ∃ later : List Token, (∀ token ∈ later, token.Spellable) ∧
    ∃ d, (later.foldlM step s).bind finish = some d

theorem State.Completable.of_step (h : s'.Completable) (token : Token) (htoken : token.Spellable)
    (hstep : step s token = some s') : s.Completable := by
  obtain ⟨later, hlater, d, hd⟩ := h
  refine ⟨token :: later, List.forall_mem_cons.2 ⟨htoken, hlater⟩, d, ?_⟩
  rwa [List.foldlM_cons, hstep]

/-- Between rules, a block that is open is closed. -/
theorem completable_item : State.Completable ⟨items, block, .item⟩ := by
  have hnone (items : List Item) : State.Completable ⟨items, none, .item⟩ :=
    ⟨[], nofun, items.reverse, rfl⟩
  cases block with
  | none => exact hnone items
  | some block => exact (hnone _).of_step .closing (Token.spellable_of_fixed rfl) rfl

/-- After a term, all groups are closed, and the rule ends. -/
theorem completable_of_follows (h : mode.Follows b) : State.Completable ⟨items, block, mode⟩ := by
  obtain ⟨name, outer, inner⟩ := b
  -- The groups are closed one by one, from the inside out.
  induction outer generalizing mode inner with
  | nil =>
    have hstep : step ⟨items, block, mode⟩ .semicolon =
        some (State.push ⟨items, block, mode⟩ ⟨name, inner.close⟩) := step_of_follows h _ (by simp)
    refine State.Completable.of_step ?_ .semicolon (Token.spellable_of_fixed rfl) hstep
    cases block <;> exact completable_item
  | cons frame outer ih =>
    have hstep : step ⟨items, block, mode⟩ .groupClosing = some ⟨items, block,
        .quantifier ⟨name, outer, frame.push (.group inner.close)⟩⟩ := step_of_follows h _ (by simp)
    exact (ih _ (.inl rfl)).of_step .groupClosing (Token.spellable_of_fixed rfl) hstep

/-- Where a term is asked for, a name will do. -/
theorem completable_of_awaits (h : mode.Awaits b) : State.Completable ⟨items, block, mode⟩ :=
  (completable_of_follows (.inl rfl)).of_step _ Token.spellable_name (step_of_beginTerm h rfl)

/-- No state is a dead end. -/
theorem State.completable (s : State) : s.Completable := by
  obtain ⟨items, block, mode⟩ := s
  have hopening (name : Word) : State.Completable ⟨items, block, .blockOpening name⟩ :=
    completable_item.of_step .opening (Token.spellable_of_fixed rfl) rfl
  cases mode with
  | item => exact completable_item
  | skipName => exact (hopening ['a']).of_step _ Token.spellable_name rfl
  | blockOpening name => exact hopening name
  | defines name =>
    exact (completable_of_awaits (.inl rfl)).of_step .defines (Token.spellable_of_fixed rfl) rfl
  | term b => exact completable_of_awaits (.inl rfl)
  | quantifier b => exact completable_of_follows (.inl rfl)
  | continuation b => exact completable_of_follows (.inr rfl)

end Reader

open Reader

/-- Tokens begin a description if they can be spelled, and the reader refuses none of them. -/
theorem beginsDescription_iff :
    BeginsDescription tokens ↔
      (∀ token ∈ tokens, token.Spellable) ∧ ∃ s, tokens.foldlM step .initial = some s := by
  constructor
  · rintro ⟨later, w, d, hspells, hd⟩
    have hread := accepts_iff.2 hd
    rw [List.foldlM_append] at hread
    obtain ⟨_, hall, -⟩ := Option.bind_eq_some_iff.1 hread
    obtain ⟨s, hs, -⟩ := Option.bind_eq_some_iff.1 hall
    exact ⟨fun token htoken => hspells.spellable token (List.mem_append_left _ htoken), s, hs⟩
  · rintro ⟨hspellable, s, hs⟩
    obtain ⟨later, hlater, d, hd⟩ := s.completable
    obtain ⟨w, hw⟩ := Token.exists_spells (List.forall_mem_append.2 ⟨hspellable, hlater⟩) false
    refine ⟨later, w, d, hw, accepts_iff.1 ?_⟩
    rw [List.foldlM_append, hs]
    exact hd

end Descent
