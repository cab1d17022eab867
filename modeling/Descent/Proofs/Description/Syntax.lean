import Descent.Description
import Mathlib.Tactic.Common

/-!
# The syntax of descriptions

The tokens of a description follow a grammar, whatever a reader does with them
(`IsDescription`): rules and blocks of rules one after the other, an alternation after the name
of each rule, and one operator at most after a name, a literal, a class or a group.
-/

namespace Descent

/-! ## The grammar -/

mutual

/-- The tokens of a term without an operator. -/
inductive IsAtom : (tokens : List Token) → (term : Term) → Prop
  | reference (name : Word) : IsAtom [.name name] (.reference name)
  | literal (body : Word) : IsAtom [.literal body] (.literal body)
  | charClass (body : Word) : IsAtom [.charClass body] (.charClass body)
  | group {tokens : List Token} {alternatives : Alternation}
    (h : IsAlternation tokens alternatives) :
    IsAtom (.groupOpening :: tokens ++ [.groupClosing]) (.group alternatives)

/-- The tokens of a term, with one operator at most. -/
inductive IsTerm : (tokens : List Token) → (term : Term) → Prop
  | once {tokens : List Token} {term : Term} (h : IsAtom tokens term) : IsTerm tokens term
  | repeated {tokens : List Token} {term : Term} (h : IsAtom tokens term) (q : Quantifier) :
    IsTerm (tokens ++ [.quantifier q]) (.repeated term q)

/-- The tokens of one or more terms. -/
inductive IsConcatenation : (tokens : List Token) → (terms : List Term) → Prop
  | last {tokens : List Token} {term : Term} (h : IsTerm tokens term) :
    IsConcatenation tokens [term]
  | cons {tokens later : List Token} {term : Term} {terms : List Term} (h : IsTerm tokens term)
    (rest : IsConcatenation later terms) : IsConcatenation (tokens ++ later) (term :: terms)

/-- The tokens of one or more concatenations, with bars between them. -/
inductive IsAlternation : (tokens : List Token) → (alternatives : Alternation) → Prop
  | last {tokens : List Token} {terms : List Term} (h : IsConcatenation tokens terms) :
    IsAlternation tokens [terms]
  | cons {tokens later : List Token} {terms : List Term} {alternatives : Alternation}
    (h : IsConcatenation tokens terms) (rest : IsAlternation later alternatives) :
    IsAlternation (tokens ++ .bar :: later) (terms :: alternatives)

end

/-- The tokens of parts one after the other. -/
inductive Each {α : Type} (P : List Token → α → Prop) :
    (tokens : List Token) → (parts : List α) → Prop
  | nil : Each P [] []
  | cons {tokens later : List Token} {part : α} {parts : List α} (h : P tokens part)
    (rest : Each P later parts) : Each P (tokens ++ later) (part :: parts)

/-- The tokens of a rule. -/
inductive IsRule : (tokens : List Token) → (r : Rule) → Prop
  | mk {tokens : List Token} {body : Alternation} (name : Word) (h : IsAlternation tokens body) :
    IsRule (.name name :: .defines :: tokens ++ [.semicolon]) ⟨name, body⟩

/-- The tokens of a rule on its own or of a block. -/
inductive IsItem : (tokens : List Token) → (item : Item) → Prop
  | rule {tokens : List Token} {r : Rule} (h : IsRule tokens r) : IsItem tokens (.rule r)
  | block {tokens : List Token} {rules : List Rule} (name : Word) (h : Each IsRule tokens rules) :
    IsItem (.skip :: .name name :: .opening :: tokens ++ [.closing]) (.block name rules)

/-- The tokens of a description. -/
def IsDescription (tokens : List Token) (d : Description) : Prop := Each IsItem tokens d

/-! ## Parts one after the other -/

section

variable {α : Type} {P : List Token → α → Prop} {tokens later : List Token}

theorem Each.single {part : α} (h : P tokens part) : Each P tokens [part] := by
  have := Each.cons h .nil
  rwa [List.append_nil] at this

/-- Each part has its tokens among those of all parts. -/
theorem Each.exists_of_mem {parts : List α} (h : Each P tokens parts) {part : α}
    (hpart : part ∈ parts) : ∃ inner, inner ⊆ tokens ∧ P inner part := by
  induction h with
  | nil => cases hpart
  | cons h _ ih =>
    obtain rfl | hpart := List.mem_cons.1 hpart
    · exact ⟨_, List.subset_append_left _ _, h⟩
    · obtain ⟨inner, hsubset, hinner⟩ := ih hpart
      exact ⟨inner, List.subset_append_of_subset_right _ hsubset, hinner⟩

theorem Each.append {parts more : List α} (h : Each P tokens parts) (h' : Each P later more) :
    Each P (tokens ++ later) (parts ++ more) := by
  induction h with
  | nil => exact h'
  | cons h _ ih =>
    rw [List.append_assoc]
    exact .cons h ih

theorem Each.of_append {parts more : List α} (h : Each P tokens (parts ++ more)) :
    ∃ before later, Each P before parts ∧ Each P later more ∧ tokens = before ++ later := by
  induction parts generalizing tokens with
  | nil => exact ⟨[], tokens, .nil, h, rfl⟩
  | cons part parts ih =>
    cases h with
    | @cons first _ _ _ h rest =>
      obtain ⟨before, later, hbefore, hlater, rfl⟩ := ih rest
      exact ⟨first ++ before, later, .cons h hbefore, hlater, (List.append_assoc _ _ _).symm⟩

theorem Each.of_single {part : α} (h : Each P tokens [part]) : P tokens part := by
  cases h with
  | cons h rest =>
    cases rest
    rwa [List.append_nil]

/-- The tokens of a part that is followed by a token. -/
def FollowedBy (token : Token) (P : List Token → α → Prop) (tokens : List Token) (part : α) :
    Prop :=
  ∃ before, P before part ∧ tokens = before ++ [token]

/-- One or more terms are a concatenation. -/
theorem isConcatenation_of_each {terms : List Term} (h : Each IsTerm tokens terms)
    (hterms : terms ≠ []) : IsConcatenation tokens terms := by
  induction h with
  | nil => exact absurd rfl hterms
  | cons h rest ih =>
    cases rest with
    | nil =>
      rw [List.append_nil]
      exact .last h
    | cons => exact .cons h (ih (List.cons_ne_nil _ _))

/-- Concatenations that are followed by bars and one more are an alternation. -/
theorem isAlternation_of_each {alternatives : Alternation} {terms : List Term}
    (h : Each (FollowedBy .bar IsConcatenation) tokens alternatives)
    (hterms : IsConcatenation later terms) :
    IsAlternation (tokens ++ later) (alternatives ++ [terms]) := by
  induction h with
  | nil => exact .last hterms
  | cons h _ ih =>
    obtain ⟨before, hbefore, rfl⟩ := h
    rw [List.append_assoc, List.append_assoc]
    exact .cons hbefore ih

end

end Descent
