import Descent.Proofs.Closed
import Descent.Proofs.Sums.Derivation

/-!
# Reading sums token by token

The grammar of sums knows no tokens, and its parser tries many ways to cut a text. All the
same, a sum is read as if it was cut into tokens first, which are then read in one pass
(`Sums.readTokenwise`): that gives the expression if there is one, and otherwise the text
is refused as unmatched (`Sums.read_eq_readTokenwise`). So only the tokens matter.

Only a text that nests too deeply is not read either way (`Sums.GivesUp`). Nothing else goes
wrong: every rule is defined, and every tree of the grammar gives an expression.
-/

namespace Descent.Sums

/-- The expression of a word that is cut into tokens first. -/
def readTokenwise (w : Word) : Option (Expression Empty) := (lex w).bind readTokens

/-- The search broke off as too deep. -/
def GivesUp (outcome : Except ReadError (Expression Empty)) : Prop :=
  ∃ furthest, outcome = .error (.refused (.halted .tooDeep furthest))

theorem closed_rules : rules.Closed := by decide

theorem readTokenwise_eq_some_iff {w : Word} {e : Expression Empty} :
    readTokenwise w = some e ↔ ∃ tokens, lex w = some tokens ∧ IsSum tokens e := by
  rw [readTokenwise, Option.bind_eq_some_iff]
  simp only [readTokens_eq_some_iff]

/-- The parse tree of a text gives the expression that its tokens give. -/
theorem ofTree_of_parse {limit : Nat} {t : Text} {tree : Tree} (h : parse limit t = .ok tree) :
    ∃ e, readTokenwise t.toList = some e ∧ Expression.ofTree tree = .ok e := by
  obtain ⟨tokens, e, hlex, hsum, htree⟩ := isSum_of_derivation (Grammar.derivation_of_parse h)
  exact ⟨e, readTokenwise_eq_some_iff.2 ⟨tokens, hlex, hsum⟩, htree⟩

/-- A text that is refused as unmatched has not the tokens of a sum. -/
theorem readTokenwise_of_parse {limit furthest : Nat} {t : Text}
    (h : parse limit t = .error (.unmatched furthest)) : readTokenwise t.toList = none := by
  rw [Option.eq_none_iff_forall_ne_some]
  intro e he
  obtain ⟨tokens, hlex, hsum⟩ := readTokenwise_eq_some_iff.1 he
  obtain ⟨tree, htree⟩ := exists_derivation hlex hsum
  exact Grammar.not_derivation_of_parse h htree

/-- What is read is the expression of the parse tree. -/
theorem read_of_parse {limit : Nat} {t : Text} {tree : Tree} {e : Expression Empty}
    (hparse : parse limit t = .ok tree) (htree : Expression.ofTree tree = .ok e) :
    read limit t = .ok e := by
  rw [read, hparse]
  dsimp only
  rw [htree]
  rfl

/-- A text that is refused has no parse tree. -/
theorem parse_of_refused {limit : Nat} {t : Text} {r : Refusal}
    (h : read limit t = .error (.refused r)) : parse limit t = .error r := by
  cases hparse : parse limit t with
  | ok tree =>
    obtain ⟨e, -, htree⟩ := ofTree_of_parse hparse
    cases (read_of_parse hparse htree).symm.trans h
  | error r' =>
    rw [read, hparse] at h
    cases h
    rfl

/-- The outcome of reading a text, given what its tokens give. -/
theorem read_cases (limit : Nat) (t : Text) :
    GivesUp (read limit t) ∨
      match readTokenwise t.toList with
      | some e => read limit t = .ok e
      | none => ∃ furthest, read limit t = .error (.refused (.unmatched furthest)) := by
  cases hparse : parse limit t with
  | ok tree =>
    obtain ⟨e, he, htree⟩ := ofTree_of_parse hparse
    refine .inr ?_
    rw [he]
    exact read_of_parse hparse htree
  | error refusal => cases refusal with
    | unmatched furthest =>
      refine .inr ?_
      rw [readTokenwise_of_parse hparse, read, hparse]
      exact ⟨furthest, rfl⟩
    | halted cause furthest =>
      refine .inl ⟨furthest, ?_⟩
      rw [read, hparse, Grammar.tooDeep_of_parse closed_rules rfl hparse]

/-- A text is read as its tokens are: it gives their expression, and is refused as unmatched
    if they have none, unless it nests too deeply. Two texts with the same tokens give the
    same expression, or are both refused. -/
theorem read_eq_readTokenwise (limit : Nat) (t : Text) :
    (GivesUp (read limit t) ∨
      match readTokenwise t.toList with
      | some e => read limit t = .ok e
      | none => ∃ furthest, read limit t = .error (.refused (.unmatched furthest))) ∧
    (∀ tokens e, readTokens tokens = some e ↔ IsSum tokens e) ∧
    ∀ (limit' : Nat) (t' : Text), lex t'.toList = lex t.toList →
      GivesUp (read limit t) ∨ GivesUp (read limit' t') ∨
        (read limit' t').toOption = (read limit t).toOption := by
  refine ⟨read_cases limit t, fun _ _ => readTokens_eq_some_iff, fun limit' t' hlex => ?_⟩
  rcases read_cases limit t with hdeep | h
  · exact .inl hdeep
  · rcases read_cases limit' t' with hdeep' | h'
    · exact .inr (.inl hdeep')
    · refine .inr (.inr ?_)
      rw [readTokenwise, hlex, ← readTokenwise] at h'
      cases he : readTokenwise t.toList with
      | some e =>
        rw [he] at h h'
        rw [h, h']
      | none =>
        rw [he] at h h'
        obtain ⟨furthest, h⟩ := h
        obtain ⟨furthest', h'⟩ := h'
        rw [h, h']
        rfl

/-- Reading gives up only if parsing does. -/
theorem GivesUp.exists_parse {limit : Nat} {t : Text} (h : GivesUp (read limit t)) :
    ∃ furthest, parse limit t = .error (.halted .tooDeep furthest) := by
  obtain ⟨furthest, hread⟩ := h
  exact ⟨furthest, parse_of_refused hread⟩

/-- A text that is parsed is not given up. -/
theorem not_givesUp_of_isOk {limit : Nat} {t : Text} (h : (parse limit t).isOk) :
    ¬GivesUp (read limit t) := by
  intro hdeep
  obtain ⟨furthest, hparse⟩ := hdeep.exists_parse
  exact ne_error_of_isOk h _ hparse

/-- Blanks around the plus sign make no difference. -/
theorem read_blanks :
    (read 9 #['1', ' ', '+', '\t', '2']).toOption = (read 9 #['1', '+', '2']).toOption := by
  have hlex : lex ['1', ' ', '+', '\t', '2'] = lex ['1', '+', '2'] := by
    simp [lex, isBlank, sign?]
  have h := (read_eq_readTokenwise 9 #['1', '+', '2']).2.2 9 #['1', ' ', '+', '\t', '2'] hlex
  rcases h with hdeep | hdeep | h
  · exact absurd hdeep (not_givesUp_of_isOk (by decide))
  · exact absurd hdeep (not_givesUp_of_isOk (by decide))
  · exact h

end Descent.Sums
