import Descent.Proofs.Sums.Nesting
import Descent.Proofs.Sums.Places

/-!
# Texts put together

Two texts that are read as expressions can be put together to a longer text, whatever blanks they
start and end with: what each of them is read as does not depend on what stands around it
(`Sums.readsAs_compositional`).

* A text in parentheses is read as it is without them.
* A text in parentheses after a plus sign is the right part of a sum.
* Without the parentheses, its operands (`Sums.exists_operands_of_derivation`) are added one after
  the other to what stands before.

The tokens of the longer text are those of its parts, as no number goes on across a sign
(`Sums.lex_append`). So the longer text has the tokens of a sum, too.
-/

namespace Descent

namespace Expression

theorem total_plus (left right : Expression Empty) :
    (Expression.plus left right).total = left.total + right.total := by
  simp only [total_eq_sum_numbers, numbers, List.sum_append]

/-- Operands that are folded up add their values. -/
theorem total_foldl (left : Expression Empty) (operands : List (Expression Empty)) :
    (operands.foldl .plus left).total = left.total + (operands.map total).sum := by
  induction operands generalizing left with
  | nil => rfl
  | cons right operands ih =>
    rw [List.foldl_cons, ih, total_plus, List.map_cons, List.sum_cons, Nat.add_assoc]

end Expression

namespace Sums

variable {s t : Text} {limit : Nat} {e : Expression Empty} {tokens later : List Token}

/-! ## Tokens of words put together -/

theorem NoDigit.append {v w : Word} (hv : NoDigit v) (hw : NoDigit w) : NoDigit (v ++ w) := by
  cases v with
  | nil => exact hw
  | cons c v => exact hv

/-- A word that no digit follows has its tokens before those of what follows. -/
theorem lex_append {v w : Word} (h : lex v = some tokens) (hw : NoDigit w) :
    lex (v ++ w) = (lex w).map (tokens ++ ·) := by
  induction v using lex.induct generalizing tokens with
  | case1 =>
    rw [lex_nil] at h
    cases h
    exact Option.map_id'.symm
  | case2 c v hblank ih =>
    rw [lex_of_isBlank hblank] at h
    rw [List.cons_append, lex_of_isBlank hblank, ih h]
  | case3 c v hblank hdigit ih =>
    rw [lex, if_neg hblank, if_pos hdigit] at h
    obtain ⟨later, hlater, rfl⟩ := Option.map_eq_some_iff.1 h
    -- The digits that come next are one token, be it at the end of the word.
    have hsplit : c :: v ++ w =
        (c :: v.takeWhile Char.isDigit) ++ (v.dropWhile Char.isDigit ++ w) := by
      rw [List.cons_append, List.cons_append, ← List.append_assoc,
        List.takeWhile_append_dropWhile]
    have hall : ∀ d ∈ c :: v.takeWhile Char.isDigit, d.isDigit :=
      List.forall_mem_cons.2 ⟨hdigit, fun d hd => List.mem_takeWhile_imp hd⟩
    rw [hsplit, lex_number (List.cons_ne_nil _ _) hall ((noDigit_dropWhile v).append hw),
      ih hlater, Option.map_map]
    rfl
  | case4 c v hblank hdigit token hsign ih =>
    rw [lex_sign hsign] at h
    obtain ⟨later, hlater, rfl⟩ := Option.map_eq_some_iff.1 h
    rw [List.cons_append, lex_sign hsign, ih hlater, Option.map_map]
    rfl
  | case5 c v hblank hdigit hsign =>
    rw [lex, if_neg hblank, if_neg hdigit, hsign] at h
    cases h

/-- More operands may follow those of a sum. -/
theorem IsRest.append {left sum : Expression Empty} :
    ∀ {tokens : List Token}, IsRest left tokens sum → IsRest sum later e →
      IsRest left (tokens ++ later) e
  | _, .nil, hlater => hlater
  | _, .plus h rest, hlater => by
    rw [List.append_assoc]
    exact .plus h (rest.append hlater)

theorem IsSum.append {sum : Expression Empty} (h : IsSum tokens sum) (hlater : IsRest sum later e) :
    IsSum (tokens ++ later) e := by
  cases h with
  | mk h rest =>
    rw [List.append_assoc]
    exact .mk h (rest.append hlater)

theorem IsOperand.isSum (h : IsOperand tokens e) : IsSum tokens e := by
  have hsum := IsSum.mk h .nil
  rwa [List.append_nil] at hsum

/-- An operand may follow a sum. -/
theorem IsOperand.isRest {left : Expression Empty} (h : IsOperand tokens e) :
    IsRest left (.plus :: tokens) (.plus left e) := by
  have hrest : IsRest left (.plus :: tokens ++ []) (.plus left e) := .plus h .nil
  rwa [List.append_nil] at hrest

/-- The word has the tokens of a sum, which gives the expression, and nests no deeper than `n`. -/
structure SumWithin (n : Nat) (e : Expression Empty) (w : Word) : Prop where
  /-- The tokens are those of a sum. -/
  exists_tokens : ∃ tokens, lex w = some tokens ∧ IsSum tokens e
  /-- All parentheses are closed. -/
  balanced : Balanced n w

/-- The word has the tokens of operands that are added to the sum `left`, which gives the
    expression, and nests no deeper than `n`. -/
structure OperandsWithin (n : Nat) (left e : Expression Empty) (w : Word) : Prop where
  /-- The tokens are those of further operands, after a plus sign. -/
  exists_tokens : ∃ tokens, lex w = some tokens ∧ IsRest left (.plus :: tokens) e
  /-- All parentheses are closed. -/
  balanced : Balanced n w

section

variable {n n' : Nat} {left right : Expression Empty} {v w : Word}

theorem SumWithin.mono (h : SumWithin n e w) (hle : n ≤ n') : SumWithin n' e w :=
  ⟨h.exists_tokens, h.balanced.mono (Int.ofNat_le.2 hle)⟩

theorem OperandsWithin.mono (h : OperandsWithin n left e w) (hle : n ≤ n') :
    OperandsWithin n' left e w :=
  ⟨h.exists_tokens, h.balanced.mono (Int.ofNat_le.2 hle)⟩

/-- A sum in parentheses is an operand. -/
theorem SumWithin.exists_isOperand (h : SumWithin n e w) :
    ∃ tokens, lex ('(' :: (w ++ [')'])) = some tokens ∧ IsOperand tokens e := by
  obtain ⟨tokens, hlex, hsum⟩ := h.exists_tokens
  refine ⟨.opening :: tokens ++ [.closing], ?_, .parens hsum⟩
  rw [lex_sign (rfl : sign? '(' = some .opening), lex_append hlex (noDigit_cons (by decide) _),
    lex_sign (rfl : sign? ')' = some .closing), lex_nil]
  rfl

/-- Parentheses leave a sum what it is. -/
theorem SumWithin.parens (h : SumWithin n e w) : SumWithin (n + 1) e ('(' :: (w ++ [')'])) := by
  obtain ⟨tokens, hlex, hoperand⟩ := h.exists_isOperand
  exact ⟨⟨tokens, hlex, hoperand.isSum⟩, h.balanced.parens⟩

/-- A sum in parentheses is added as one operand. -/
theorem SumWithin.operand (h : SumWithin n right w) (left : Expression Empty) :
    OperandsWithin (n + 1) left (.plus left right) ('(' :: (w ++ [')'])) := by
  obtain ⟨tokens, hlex, hoperand⟩ := h.exists_isOperand
  exact ⟨⟨tokens, hlex, hoperand.isRest⟩, h.balanced.parens⟩

/-- Operands are added to a sum after a plus sign. -/
theorem SumWithin.plus (h : SumWithin n left v) (hw : OperandsWithin n left e w) :
    SumWithin n e (v ++ '+' :: w) := by
  obtain ⟨tokens, hlex, hsum⟩ := h.exists_tokens
  obtain ⟨later, hlater, hrest⟩ := hw.exists_tokens
  have hsign : Balanced n ['+'] := .of_forall (by simp) (Int.natCast_nonneg n)
  refine ⟨⟨tokens ++ .plus :: later, ?_, hsum.append hrest⟩,
    h.balanced.append (hsign.append hw.balanced)⟩
  rw [lex_append hlex (noDigit_cons (by decide) _), lex_sign (rfl : sign? '+' = some .plus), hlater]
  rfl

end

/-! ## The operands of a text -/

/-- The operands of a text that is derived may as well follow another sum, to which they are added
    one after the other. -/
theorem exists_operands_of_derivation {tree : Tree} (h : grammar.Derivation t tree) :
    ∃ sum first later, tree.children = [sum] ∧
      sum.children.mapM Expression.ofTree = .ok (first :: later) ∧
      Expression.ofTree tree = .ok (later.foldl .plus first : Expression Empty) ∧
      ∃ tokens, lex t.toList = some tokens ∧
        ∀ left, IsRest left (.plus :: tokens) ((first :: later).foldl .plus left) := by
  obtain ⟨hsum, htree⟩ := derivation_iff.1 h
  obtain ⟨mid, last, n, before, nodes, hfirst, hrest, hstop, hchildren⟩ := derives_sum_iff.1 hsum
  have hsums : SpellsSums t t.size := fun _ _ _ _ hsum hdigit => spellsSum_of_derives hdigit hsum
  have hend := le_skip t last
  have hmid := hfirst.within
  have hlast := hrest.within
  have hdigit : NoDigit (t.rest last) := by
    refine NoDigit.of_skip ?_
    rw [← hstop, Text.rest_size]
    exact noDigit_nil
  obtain ⟨tokens, first, node, hspells, hoperand, rfl, hnode⟩ := exists_isOperand_of_derives hsums
    (by omega) (noDigit_of_derivesTimes hdigit hrest) hfirst
  rw [List.singleton_append] at hchildren
  -- The further operands are read the same after any sum.
  have hfollow (left : Expression Empty) : ∃ rest e, lex t.toList = some (tokens ++ rest) ∧
      IsRest left rest e ∧ Expression.addOperands left nodes = .ok e := by
    obtain ⟨rest, e, hspells', he, hadd⟩ :=
      exists_isRest_of_derivesTimes hsums (by omega) hdigit hrest left
    refine ⟨rest, e, ?_, he, hadd⟩
    have hspells := Spells.skip_left ((hspells.trans hspells').skip_right)
    rw [Spells, ← hstop, Text.rest_size, lex_nil, Option.map_some, List.append_nil] at hspells
    exact hspells
  obtain ⟨rest, e, hlex, -, hadd⟩ := hfollow first
  obtain ⟨later, hlater, rfl⟩ := Expression.addOperands_eq_ok_iff.1 hadd
  refine ⟨_, first, later, hchildren, ?_, ?_, tokens ++ rest, hlex, fun left => ?_⟩
  · rw [List.mapM_cons, hnode, hlater]
    rfl
  · rw [htree, hchildren]
    change Expression.ofTree ⟨Nonterminal.sum.name, t, (0 : Nat), t.size, node :: nodes⟩ = _
    exact ofTree_sum hnode hadd
  · obtain ⟨rest', e', hlex', he', hadd'⟩ := hfollow (.plus left first)
    cases (Expression.addOperands_eq_ok_iff.2 ⟨later, hlater, rfl⟩).symm.trans hadd'
    obtain rfl := List.append_cancel_left (Option.some.inj (hlex.symm.trans hlex'))
    exact .plus hoperand he'

/-! ## Reading -/

/-- The text is read as the expression, unless it is given up, which only happens under a limit
    below `enough`. -/
def ReadsAs (t : Text) (e : Expression Empty) (enough : Nat) : Prop :=
  ∀ limit, GivesUp (read limit t) ∧ limit < enough ∨ read limit t = .ok e

/-- A text with the tokens of a sum is read as the sum, and is not given up if it does not nest too
    deeply. -/
theorem SumWithin.readsAs {n enough : Nat} (h : SumWithin n e t.toList)
    (henough : 2 * n + 4 ≤ enough) : ReadsAs t e enough := by
  intro limit
  have hcases := read_cases limit t
  rw [readTokenwise_eq_some_iff.2 h.exists_tokens] at hcases
  refine hcases.imp_left fun hdeep => ⟨hdeep, ?_⟩
  by_contra hlimit
  exact not_givesUp_of_shallow h.balanced.shallow (Nat.le_trans henough (Nat.not_lt.1 hlimit)) hdeep

/-- A text that is read has a parse tree, which gives the expression. -/
theorem exists_parse_of_read (h : read limit t = .ok e) :
    ∃ tree, parse limit t = .ok tree ∧ Expression.ofTree tree = .ok e := by
  cases hparse : parse limit t with
  | error => rw [read, hparse] at h; cases h
  | ok tree =>
    obtain ⟨e', -, htree⟩ := ofTree_of_parse hparse
    cases (read_of_parse hparse htree).symm.trans h
    exact ⟨tree, rfl, htree⟩

/-- A text that is read has the tokens of a sum, and nests no deeper than the limit allows. -/
theorem exists_sumWithin_of_read (h : read limit t = .ok e) :
    ∃ n, SumWithin n e t.toList ∧ 2 * n + 4 ≤ limit := by
  obtain ⟨tree, hparse, htree⟩ := exists_parse_of_read h
  obtain ⟨tokens, e', hlex, hsum, htree'⟩ :=
    isSum_of_derivation (Grammar.derivation_of_parse hparse)
  obtain ⟨n, hn, hle⟩ := exists_balanced_of_parse hparse
  cases htree.symm.trans htree'
  exact ⟨n, ⟨⟨tokens, hlex, hsum⟩, hn⟩, hle⟩

/-- Reading is compositional. Around a text that is read, parentheses make no difference. After a
    text that is read and a plus sign, another one in parentheses is the right part of a sum, and
    without parentheses, its operands are added one after the other, which gives the sum of both
    values. Only the parentheses take a larger limit. -/
theorem readsAs_compositional {a b : Expression Empty} (hs : read limit s = .ok a)
    (ht : read limit t = .ok b) :
    ReadsAs (#['('] ++ s ++ #[')']) a (limit + 2) ∧
    ReadsAs (s ++ #['+', '('] ++ t ++ #[')']) (.plus a b) (limit + 2) ∧
    ∃ tree sum first later, parse limit t = .ok tree ∧ tree.children = [sum] ∧
      sum.children.mapM Expression.ofTree = .ok (first :: later) ∧ b = later.foldl .plus first ∧
      ReadsAs (s ++ #['+'] ++ t) ((first :: later).foldl .plus a) limit ∧
      ∃ m n, evaluate limit s = .ok m ∧ evaluate limit t = .ok n ∧
        evaluate limit (s ++ #['+'] ++ t) = .ok (m + n) := by
  obtain ⟨n, hsumS, hn⟩ := exists_sumWithin_of_read hs
  obtain ⟨m, hsum, hm⟩ := exists_sumWithin_of_read ht
  obtain ⟨tree, hparse, htree⟩ := exists_parse_of_read ht
  obtain ⟨sum, first, later, hchildren, hoperands, hfold, tokens, hlex, hfollow⟩ :=
    exists_operands_of_derivation (Grammar.derivation_of_parse hparse)
  cases htree.symm.trans hfold
  have hboth : ReadsAs (s ++ #['+'] ++ t) ((first :: later).foldl .plus a) limit := by
    have hfollows : OperandsWithin m a ((first :: later).foldl .plus a) t.toList :=
      ⟨⟨tokens, hlex, hfollow a⟩, hsum.balanced⟩
    have h := (hsumS.mono (Nat.le_max_left n m)).plus (hfollows.mono (Nat.le_max_right n m))
    refine SumWithin.readsAs (n := max n m) ?_ (by omega)
    simpa using h
  refine ⟨?_, ?_, tree, sum, first, later, hparse, hchildren, hoperands, rfl, hboth, ?_⟩
  · refine SumWithin.readsAs (n := n + 1) ?_ (by omega)
    simpa using hsumS.parens
  · have hleft : SumWithin (max n m + 1) a s.toList := hsumS.mono (by omega)
    have h := hleft.plus ((hsum.operand a).mono (by omega : m + 1 ≤ max n m + 1))
    refine SumWithin.readsAs (n := max n m + 1) ?_ (by omega)
    simpa using h
  · have hread := (hboth limit).resolve_left fun h => Nat.lt_irrefl limit h.2
    refine ⟨a.total, (later.foldl .plus first).total, ?_, ?_, ?_⟩
    · rw [evaluate, hs]
      rfl
    · rw [evaluate, ht]
      rfl
    · rw [evaluate, hread, Except.map, Expression.total_foldl, Expression.total_foldl,
        List.map_cons, List.sum_cons]

/-- The texts ` 1` and `2+3` are put together to `( 1)`, ` 1+(2+3)` and ` 1+2+3`. -/
theorem readsAs_numbers :
    let one : Expression Empty := .number 1
    let further : Expression Empty := .plus (.number 2) (.number 3)
    let s : Text := #[' ', '1']
    let t : Text := #['2', '+', '3']
    read 9 s = .ok one ∧ read 9 t = .ok further ∧
      ReadsAs (#['('] ++ s ++ #[')']) one 11 ∧
      ReadsAs (s ++ #['+', '('] ++ t ++ #[')']) (.plus one further) 11 ∧
      evaluate 9 (s ++ #['+'] ++ t) = .ok 6 := by
  intro one further s t
  have hone : lex ['1'] = some [.number ['1']] := by simp [lex, isBlank]
  have htwo : lex ['2'] = some [.number ['2']] := by simp [lex, isBlank]
  have hthree : lex ['3'] = some [.number ['3']] := by simp [lex, isBlank]
  have hs : read 9 s = .ok one := by
    have hsum : SumWithin 0 one s.toList :=
      ⟨⟨[.number ['1']], (lex_of_isBlank rfl ['1']).trans hone, (IsOperand.number ['1']).isSum⟩,
        .of_forall (by simp [s]) (Int.le_refl _)⟩
    exact (hsum.readsAs (Nat.le_refl _) 9).resolve_left fun h => absurd h.2 (by decide)
  have ht : read 9 t = .ok further := by
    have htwo : SumWithin 0 (.number 2) ['2'] :=
      ⟨⟨_, htwo, (IsOperand.number ['2']).isSum⟩, .of_forall (by simp) (Int.le_refl _)⟩
    have hthree : OperandsWithin 0 (.number 2) further ['3'] :=
      ⟨⟨_, hthree, (IsOperand.number ['3']).isRest⟩, .of_forall (by simp) (Int.le_refl _)⟩
    have hsum : SumWithin 0 further t.toList := htwo.plus hthree
    exact (hsum.readsAs (Nat.le_refl _) 9).resolve_left fun h => absurd h.2 (by decide)
  obtain ⟨hparens, hplus, _, _, _, _, -, -, -, -, -, m, n, hm, hn, hvalue⟩ :=
    readsAs_compositional hs ht
  have hm' : evaluate 9 s = .ok 1 := by
    rw [evaluate, hs, Except.map, Expression.total_eq_sum_numbers]
    rfl
  have hn' : evaluate 9 t = .ok 5 := by
    rw [evaluate, ht, Except.map, Expression.total_eq_sum_numbers]
    rfl
  cases hm.symm.trans hm'
  cases hn.symm.trans hn'
  exact ⟨hs, ht, hparens, hplus, hvalue⟩

end Sums

end Descent
