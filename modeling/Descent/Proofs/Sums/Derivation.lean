import Descent.Proofs.Numeral
import Descent.Proofs.Rest
import Descent.Proofs.Sums.Token

/-!
# Derivations of sums

What the grammar of sums derives are the tokens of sums. Blanks are skipped all the way, so
between the tokens it makes no difference where (`Sums.skip`). A number may be derived from
a part of a run of digits, but nothing else of the grammar goes on with a digit: so where
no digit follows a derivation, its numbers are whole tokens.

* A derivation spells the tokens of a sum, and its tree gives the expression of them
  (`Sums.isSum_of_derivation`).
* The tokens of a sum have a derivation (`Sums.exists_derivation`).
-/

namespace Descent.Sums

variable {t : Text} {pos stop : Nat} {nodes : List Tree}

/-! ## What the rules derive -/

/-- The class of the blanks. -/
def blank : CharClass := ⟨[(' ', ' '), ('\t', '\t'), ('\r', '\r'), ('\n', '\n')], false⟩

/-- The class of the digits. -/
def digit : CharClass := ⟨[('0', '9')], false⟩

/-- A further operand of a sum. -/
def further : Pattern :=
  .sequence [blanks, sign '+', blanks, .reference Nonterminal.primary.name]

/-- A sum in parentheses. -/
def parens : Pattern :=
  .sequence [blanks, sign '(', blanks, .reference Nonterminal.sum.name, blanks, sign ')']

/-- An operand, with blanks only in front. -/
def operand : Pattern :=
  .choice [.sequence [blanks, .reference Nonterminal.number.name], parens]

theorem accepts_blank : blank.accepts = isBlank := by
  funext c
  have hrange (d : Char) : (d ≤ c && c ≤ d) = (c == d) := by
    rw [Bool.eq_iff_iff, Bool.and_eq_true, decide_eq_true_eq, decide_eq_true_eq, beq_iff_eq]
    exact ⟨fun h => Char.le_antisymm h.2 h.1, fun h => h ▸ ⟨Char.le_refl _, Char.le_refl _⟩⟩
  simp only [CharClass.accepts, blank, isBlank, List.any_cons, List.any_nil, hrange, Bool.or_false,
    Bool.or_assoc, Bool.bne_false]

theorem accepts_digit : digit.accepts = Char.isDigit := by
  funext c
  simp only [CharClass.accepts, digit, List.any_cons, List.any_nil, Bool.or_false, Bool.bne_false]
  rfl

/-- The offset after the blanks that come next. -/
def skip (t : Text) (pos : Nat) : Nat := pos + Pattern.run t blank pos

theorem rest_skip (t : Text) (pos : Nat) :
    t.rest (skip t pos) = (t.rest pos).dropWhile isBlank := by
  rw [skip, Pattern.rest_run, accepts_blank]

theorem le_skip (t : Text) (pos : Nat) : pos ≤ skip t pos := Nat.le_add_right _ _

theorem derives_blanks_iff :
    Derives rules t blanks pos stop nodes ↔ stop = skip t pos ∧ nodes = [] := by
  rw [blanks, derives_skip_iff, skipsTo_charClass_iff (k := blank) rfl]
  rfl

theorem derives_sign_iff {c : Char} :
    Derives rules t (sign c) pos stop nodes ↔
      t.rest pos = c :: t.rest (pos + 1) ∧ stop = pos + 1 ∧ nodes = [] := by
  rw [sign, ← Text.holds_singleton_iff]
  refine ⟨fun h => ?_, ?_⟩
  · cases h with
    | literal h => exact ⟨h, rfl, rfl⟩
  · rintro ⟨h, rfl, rfl⟩
    exact .literal h

/-- Blanks that come next are left out. -/
theorem derivesAll_blanks_iff {items : List Pattern} :
    DerivesAll rules t (blanks :: items) pos stop nodes ↔
      DerivesAll rules t items (skip t pos) stop nodes := by
  simp only [derivesAll_cons_iff, derives_blanks_iff]
  refine ⟨?_, fun h => ⟨_, [], nodes, ⟨rfl, rfl⟩, h, rfl⟩⟩
  rintro ⟨_, _, _, ⟨rfl, rfl⟩, h, rfl⟩
  exact h

/-- A sign that comes next is passed. -/
theorem derivesAll_sign_iff {c : Char} {items : List Pattern} :
    DerivesAll rules t (sign c :: items) pos stop nodes ↔
      t.rest pos = c :: t.rest (pos + 1) ∧ DerivesAll rules t items (pos + 1) stop nodes := by
  simp only [derivesAll_cons_iff, derives_sign_iff]
  refine ⟨?_, fun ⟨hc, h⟩ => ⟨_, [], nodes, ⟨hc, rfl, rfl⟩, h, rfl⟩⟩
  rintro ⟨_, _, _, ⟨hc, rfl, rfl⟩, h, rfl⟩
  exact ⟨hc, h⟩

/-- A number is any digits. -/
theorem derives_number_iff :
    Derives rules t (.reference Nonterminal.number.name) pos stop nodes ↔
      ∃ digits : Word, digits ≠ [] ∧ (∀ c ∈ digits, c.isDigit) ∧
        t.rest pos = digits ++ t.rest stop ∧ stop = pos + digits.length ∧
        nodes = [⟨Nonterminal.number.name, t, pos, stop, []⟩] := by
  rw [derives_reference_iff (p := .repetition (.charClass digit) 1 none) rfl]
  refine ⟨?_, ?_⟩
  · rintro ⟨children, h, rfl⟩
    cases h with
    | repetition h hmin =>
      obtain ⟨digits, hdigits, rfl, hrest, rfl, rfl⟩ := derivesTimes_charClass_iff.1 h
      rw [accepts_digit] at hdigits
      exact ⟨digits, List.ne_nil_of_length_pos (by omega), hdigits, hrest, rfl, rfl⟩
  · rintro ⟨digits, hne, hdigits, hrest, rfl, rfl⟩
    rw [← accepts_digit] at hdigits
    have hpos := List.length_pos_iff.2 hne
    exact ⟨[], .repetition (derivesTimes_charClass_iff.2 ⟨digits, hdigits, rfl, hrest, rfl, rfl⟩)
      (by omega) nofun, rfl⟩

/-- A further operand comes after a plus sign. -/
theorem derives_further_iff :
    Derives rules t further pos stop nodes ↔
      t.rest (skip t pos) = '+' :: t.rest (skip t pos + 1) ∧
        Derives rules t (.reference Nonterminal.primary.name) (skip t (skip t pos + 1)) stop
          nodes := by
  rw [further, derives_sequence_iff, derivesAll_blanks_iff, derivesAll_sign_iff,
    derivesAll_blanks_iff, derivesAll_singleton_iff]

/-- A sum is an operand and further ones, with blanks around. -/
theorem derives_sum_iff :
    Derives rules t (.reference Nonterminal.sum.name) pos stop nodes ↔
      ∃ mid last n before later,
        Derives rules t (.reference Nonterminal.primary.name) (skip t pos) mid before ∧
        DerivesTimes rules t further n mid last later ∧ stop = skip t last ∧
        nodes = [⟨Nonterminal.sum.name, t, pos, stop, before ++ later⟩] := by
  rw [derives_reference_iff (p := .sequence [blanks, .reference Nonterminal.primary.name,
    .repetition further 0 none, blanks]) rfl]
  simp only [derives_sequence_iff, derivesAll_blanks_iff, derivesAll_nil_iff,
    @derivesAll_cons_iff rules t (.reference _), @derivesAll_cons_iff rules t (.repetition _ _ _)]
  refine ⟨?_, ?_⟩
  · rintro ⟨_, ⟨mid, before, _, hfirst, ⟨last, later, _, hrest, ⟨rfl, rfl⟩, rfl⟩, rfl⟩, rfl⟩
    cases hrest with
    | repetition hrest =>
      rw [List.append_nil]
      exact ⟨mid, last, _, before, later, hfirst, hrest, rfl, rfl⟩
  · rintro ⟨mid, last, n, before, later, hfirst, hrest, rfl, rfl⟩
    exact ⟨_, ⟨mid, before, later, hfirst, ⟨last, later, [], .repetition hrest (by omega) nofun,
      ⟨rfl, rfl⟩, (List.append_nil later).symm⟩, rfl⟩, rfl⟩

/-- A sum in parentheses has blanks around the sum, too. -/
theorem derives_parens_iff :
    Derives rules t parens pos stop nodes ↔
      ∃ last, t.rest (skip t pos) = '(' :: t.rest (skip t pos + 1) ∧
        Derives rules t (.reference Nonterminal.sum.name) (skip t (skip t pos + 1)) last nodes ∧
        t.rest (skip t last) = ')' :: t.rest stop ∧ stop = skip t last + 1 := by
  simp only [parens, derives_sequence_iff, derivesAll_blanks_iff, derivesAll_sign_iff,
    derivesAll_nil_iff, @derivesAll_cons_iff rules t (.reference _)]
  refine ⟨?_, ?_⟩
  · rintro ⟨hopening, last, children, _, h, ⟨hclosing, rfl, rfl⟩, rfl⟩
    rw [List.append_nil]
    exact ⟨last, hopening, h, hclosing, rfl⟩
  · rintro ⟨last, hopening, h, hclosing, rfl⟩
    exact ⟨hopening, last, nodes, [], h, ⟨hclosing, rfl, rfl⟩, (List.append_nil nodes).symm⟩

/-- An operand is a number or a sum in parentheses. -/
theorem derives_operand_iff :
    Derives rules t operand pos stop nodes ↔
      Derives rules t (.reference Nonterminal.number.name) (skip t pos) stop nodes ∨
        Derives rules t parens pos stop nodes := by
  rw [operand, derives_choice_iff]
  simp only [List.mem_cons, List.not_mem_nil, or_false, exists_eq_or_imp, exists_eq_left,
    derives_sequence_iff, derivesAll_blanks_iff, derivesAll_singleton_iff]

/-- An operand has blanks around. -/
theorem derives_primary_iff :
    Derives rules t (.reference Nonterminal.primary.name) pos stop nodes ↔
      ∃ mid children, Derives rules t operand pos mid children ∧
        stop = skip t mid ∧ nodes = [⟨Nonterminal.primary.name, t, pos, stop, children⟩] := by
  rw [derives_reference_iff (p := .sequence [operand, blanks]) rfl]
  simp only [derives_sequence_iff, @derivesAll_cons_iff rules t operand, derivesAll_blanks_iff,
    derivesAll_nil_iff]
  refine ⟨?_, ?_⟩
  · rintro ⟨_, ⟨mid, children, _, h, ⟨rfl, rfl⟩, rfl⟩, rfl⟩
    rw [List.append_nil]
    exact ⟨mid, children, h, rfl, rfl⟩
  · rintro ⟨mid, children, h, rfl, rfl⟩
    exact ⟨children, ⟨mid, children, [], h, ⟨rfl, rfl⟩, (List.append_nil children).symm⟩, rfl⟩

/-! ## Tokens between two offsets -/

/-- The tokens are spelled between two offsets. -/
def Spells (t : Text) (pos stop : Nat) (tokens : List Token) : Prop :=
  lex (t.rest pos) = (lex (t.rest stop)).map (tokens ++ ·)

theorem Spells.refl (t : Text) (pos : Nat) : Spells t pos pos [] := Option.map_id'.symm

theorem Spells.trans {mid : Nat} {tokens later : List Token} (h : Spells t pos mid tokens)
    (h' : Spells t mid stop later) : Spells t pos stop (tokens ++ later) := by
  rw [Spells, h, h', Option.map_map]
  refine congrArg (Option.map · _) (funext fun after => ?_)
  exact (List.append_assoc tokens later after).symm

/-- Blanks in front spell nothing. -/
theorem Spells.skip_left {tokens : List Token} (h : Spells t (skip t pos) stop tokens) :
    Spells t pos stop tokens := by
  rwa [Spells, rest_skip, lex_dropWhile] at h

/-- Blanks behind spell nothing. -/
theorem Spells.skip_right {tokens : List Token} (h : Spells t pos stop tokens) :
    Spells t pos (skip t stop) tokens := by
  rwa [Spells, rest_skip, lex_dropWhile]

/-- A sign spells its token. -/
theorem Spells.sign {c : Char} {token : Token} {tokens : List Token} {mid : Nat}
    (hsign : sign? c = some token) (hc : t.rest pos = c :: t.rest mid)
    (h : Spells t mid stop tokens) : Spells t pos stop (token :: tokens) := by
  rw [Spells, hc, lex_sign hsign, h, Option.map_map]
  rfl

theorem noDigit_nil : NoDigit [] := nofun

theorem noDigit_cons {c : Char} (h : ¬c.isDigit) (w : Word) : NoDigit (c :: w) := by
  rintro _ ⟨⟩
  exact h

/-- Where no digit comes after blanks, none comes before them. -/
theorem NoDigit.of_skip (h : NoDigit (t.rest (skip t pos))) : NoDigit (t.rest pos) := by
  intro c hc hdigit
  rw [rest_skip] at h
  obtain ⟨w, hw⟩ := List.head?_eq_some_iff.1 hc
  rw [hw, List.dropWhile_cons_of_neg (not_isBlank_of_isDigit hdigit)] at h
  exact h c rfl hdigit

/-! ## The expression of a node -/

theorem ofTree_number {digits w : Word} (h : t.rest pos = digits ++ w)
    (hdigits : ∀ c ∈ digits, c.isDigit) :
    Expression.ofTree ⟨Nonterminal.number.name, t, pos, (pos + digits.length : Nat), []⟩ =
      .ok (.number (Nat.ofDigitChars 10 digits 0) : Expression Empty) := by
  change Expression.ofNumeral (t.slice pos (pos + digits.length : Nat)) = _
  rw [Text.slice_of_rest h, Expression.ofNumeral, Numeral.read_eq_ofDigitChars hdigits]
  rfl

theorem ofTree_primary {tree : Tree}
    (h : tree.name = Nonterminal.number.name ∨ tree.name = Nonterminal.sum.name) :
    (Expression.ofTree ⟨Nonterminal.primary.name, t, pos, stop, [tree]⟩ :
      Except TreeError (Expression Empty)) = Expression.ofTree tree := by
  change ite _ (Expression.ofTree tree) _ = _
  exact if_pos h

theorem ofTree_sum {tree : Tree} {trees : List Tree} {left e : Expression Empty}
    (h : Expression.ofTree tree = .ok left) (hrest : Expression.addOperands left trees = .ok e) :
    Expression.ofTree ⟨Nonterminal.sum.name, t, pos, stop, tree :: trees⟩ = .ok e := by
  change (Expression.ofTree tree >>= fun left => Expression.addOperands left trees) = _
  rw [h]
  exact hrest

/-! ## Derivations spell tokens -/

/-- The tokens of a sum are spelled between two offsets, and the node gives its
    expression. -/
def SpellsSum (t : Text) (pos stop : Nat) (nodes : List Tree) : Prop :=
  ∃ tokens e tree, Spells t pos stop tokens ∧ IsSum tokens e ∧ nodes = [tree] ∧
    tree.name = Nonterminal.sum.name ∧ Expression.ofTree tree = .ok e

/-- Sums of less than `size` characters are spelled where they are derived, if no digit
    follows. -/
def SpellsSums (t : Text) (size : Nat) : Prop :=
  ∀ pos stop nodes, stop - pos < size →
    Derives rules t (.reference Nonterminal.sum.name) pos stop nodes → NoDigit (t.rest stop) →
    SpellsSum t pos stop nodes

/-- An operand is spelled where it is derived, as shorter sums are. -/
theorem exists_isOperand_of_derives {size : Nat} (hsums : SpellsSums t size)
    (hsize : stop - pos ≤ size) (hdigit : NoDigit (t.rest stop))
    (h : Derives rules t (.reference Nonterminal.primary.name) pos stop nodes) :
    ∃ tokens e tree, Spells t pos stop tokens ∧ IsOperand tokens e ∧ nodes = [tree] ∧
      Expression.ofTree tree = .ok e := by
  obtain ⟨mid, children, hoperand, rfl, rfl⟩ := derives_primary_iff.1 h
  obtain hnumber | hparens := derives_operand_iff.1 hoperand
  · -- No digit follows the number, as none follows the blanks after it.
    obtain ⟨digits, hne, hdigits, hrest, rfl, rfl⟩ := derives_number_iff.1 hnumber
    refine ⟨[.number digits], _, _, .skip_left (.skip_right ?_), .number digits, rfl, ?_⟩
    · rw [Spells, hrest, lex_number hne hdigits hdigit.of_skip]
      rfl
    · rw [ofTree_primary (.inl rfl), ofTree_number hrest hdigits]
  · obtain ⟨last, hopening, hsum, hclosing, rfl⟩ := derives_parens_iff.1 hparens
    have hstart := le_skip t pos
    have hinner := le_skip t (skip t pos + 1)
    have hlast := le_skip t last
    have hend := le_skip t (skip t last + 1)
    have hwithin := hsum.within
    -- The sum is shorter by two parentheses, and what follows it, after blanks, is no digit.
    have hclosed : NoDigit (t.rest last) := by
      refine NoDigit.of_skip ?_
      rw [hclosing]
      exact noDigit_cons (by decide) _
    obtain ⟨tokens, e, tree, hspells, he, rfl, hname, htree⟩ :=
      hsums _ _ _ (by omega) hsum hclosed
    refine ⟨.opening :: tokens ++ [.closing], e, _, ?_, .parens he, rfl, ?_⟩
    · refine .skip_left (.sign rfl hopening (.skip_left (hspells.trans ?_)))
      exact .skip_left (.sign rfl hclosing (.skip_right (.refl _ _)))
    · rw [ofTree_primary (.inr hname), htree]

/-- Further operands start with no digit, if no digit follows them. -/
theorem noDigit_of_derivesTimes {n : Nat} (hdigit : NoDigit (t.rest stop))
    (h : DerivesTimes rules t further n pos stop nodes) : NoDigit (t.rest pos) := by
  cases h with
  | zero => exact hdigit
  | succ h =>
    refine NoDigit.of_skip ?_
    rw [(derives_further_iff.1 h).1]
    exact noDigit_cons (by decide) _

/-- Further operands are spelled where they are derived, as shorter sums are. -/
theorem exists_isRest_of_derivesTimes {size n : Nat} (hsums : SpellsSums t size)
    (hsize : stop - pos ≤ size) (hdigit : NoDigit (t.rest stop))
    (h : DerivesTimes rules t further n pos stop nodes) (left : Expression Empty) :
    ∃ tokens e, Spells t pos stop tokens ∧ IsRest left tokens e ∧
      Expression.addOperands left nodes = .ok e := by
  induction n generalizing pos nodes left with
  | zero =>
    cases h
    exact ⟨[], left, .refl _ _, .nil, rfl⟩
  | succ n ih =>
    cases h with
    | succ h _ rest =>
      obtain ⟨hplus, hprimary⟩ := derives_further_iff.1 h
      have hstart := le_skip t pos
      have hinner := le_skip t (skip t pos + 1)
      have hfirst := hprimary.within
      have hrest := rest.within
      obtain ⟨tokens, right, tree, hspells, hright, rfl, htree⟩ :=
        exists_isOperand_of_derives hsums (by omega) (noDigit_of_derivesTimes hdigit rest) hprimary
      obtain ⟨later, e, hlater, he, hadd⟩ := ih (by omega) rest (.plus left right)
      refine ⟨.plus :: tokens ++ later, e, ?_, .plus hright he, ?_⟩
      · exact .skip_left (.sign rfl hplus (.skip_left (hspells.trans hlater)))
      · change (Expression.ofTree tree >>= fun right =>
          Expression.addOperands (.plus left right) _) = _
        rw [htree]
        exact hadd

/-- A sum is spelled where it is derived, if no digit follows. -/
theorem spellsSum_of_derives (hdigit : NoDigit (t.rest stop))
    (h : Derives rules t (.reference Nonterminal.sum.name) pos stop nodes) :
    SpellsSum t pos stop nodes := by
  -- By induction on the number of characters: a sum in parentheses is shorter.
  induction hsize : stop - pos using Nat.strongRecOn generalizing pos stop nodes with
  | ind size ih =>
    have hsums : SpellsSums t size := fun _ _ _ hlt hsum hdigit => ih _ hlt hdigit hsum rfl
    obtain ⟨mid, last, n, before, later, hfirst, hrest, rfl, rfl⟩ := derives_sum_iff.1 h
    have hstart := le_skip t pos
    have hend := le_skip t last
    have hmid := hfirst.within
    have hlast := hrest.within
    have hdigit' := hdigit.of_skip
    obtain ⟨tokens, left, tree, hspells, hleft, rfl, htree⟩ := exists_isOperand_of_derives hsums
      (by omega) (noDigit_of_derivesTimes hdigit' hrest) hfirst
    obtain ⟨rest, e, hrest, he, hadd⟩ :=
      exists_isRest_of_derivesTimes hsums (by omega) hdigit' hrest left
    exact ⟨tokens ++ rest, e, _, .skip_left (.skip_right (hspells.trans hrest)), .mk hleft he, rfl,
      rfl, ofTree_sum htree hadd⟩

/-! ## Tokens have derivations -/

theorem lex_rest_skip (t : Text) (pos : Nat) : lex (t.rest (skip t pos)) = lex (t.rest pos) := by
  rw [rest_skip, lex_dropWhile]

/-- Where a word starts with the token of a sign, the sign comes after blanks. -/
theorem rest_of_lex_sign {c : Char} {token : Token} {later : List Token}
    (hsign : sign? c = some token) (h : lex (t.rest pos) = some (token :: later)) :
    t.rest (skip t pos) = c :: t.rest (skip t pos + 1) ∧
      lex (t.rest (skip t pos + 1)) = some later := by
  obtain ⟨v, hstarts, hlater⟩ := starts_of_lex h
  rw [← rest_skip] at hstarts
  generalize hw : t.rest (skip t pos) = w at hstarts
  cases hstarts with
  | number =>
    obtain ⟨_, htoken⟩ | ⟨_, htoken⟩ | ⟨_, htoken⟩ := sign?_eq_some hsign <;> cases htoken
  | sign hsign' =>
    rw [Text.rest_succ_of_cons hw]
    obtain ⟨rfl, rfl⟩ | ⟨rfl, rfl⟩ | ⟨rfl, rfl⟩ := sign?_eq_some hsign <;>
      obtain ⟨rfl, htoken⟩ | ⟨rfl, htoken⟩ | ⟨rfl, htoken⟩ := sign?_eq_some hsign' <;>
      first | cases htoken; done | exact ⟨rfl, hlater⟩

mutual

/-- The tokens of an operand have a derivation. -/
theorem IsOperand.exists_derives {tokens : List Token} {e : Expression Empty} :
    IsOperand tokens e → ∀ {pos : Nat} {later : List Token},
      lex (t.rest pos) = some (tokens ++ later) →
      ∃ stop nodes, Derives rules t (.reference Nonterminal.primary.name) pos stop nodes ∧
        lex (t.rest stop) = some later
  | .number digits, pos, later, hlex => by
    rw [List.singleton_append] at hlex
    obtain ⟨v, hstarts, hlater⟩ := starts_of_lex hlex
    rw [← rest_skip] at hstarts
    generalize hw : t.rest (skip t pos) = w at hstarts
    cases hstarts with
    | number hne hdigits =>
      have hv : t.rest (skip t pos + digits.length) = v := by
        rw [Text.rest_add, hw, List.drop_left]
      refine ⟨skip t (skip t pos + digits.length), _, derives_primary_iff.2
        ⟨_, _, derives_operand_iff.2 (.inl (derives_number_iff.2
          ⟨digits, hne, hdigits, ?_, rfl, rfl⟩)), rfl, rfl⟩, ?_⟩
      · rw [hw, hv]
      · rw [lex_rest_skip, hv, hlater]
    | sign hsign =>
      obtain ⟨_, htoken⟩ | ⟨_, htoken⟩ | ⟨_, htoken⟩ := sign?_eq_some hsign <;> cases htoken
  | .parens h, pos, later, hlex => by
    rw [List.append_assoc, List.cons_append] at hlex
    obtain ⟨hopening, hlex⟩ := rest_of_lex_sign (c := '(') rfl hlex
    rw [← lex_rest_skip] at hlex
    obtain ⟨last, nodes, hsum, hlex⟩ := h.exists_derives hlex
    obtain ⟨hclosing, hlater⟩ := rest_of_lex_sign (c := ')') rfl hlex
    exact ⟨_, _, derives_primary_iff.2 ⟨_, nodes, derives_operand_iff.2
      (.inr (derives_parens_iff.2 ⟨last, hopening, hsum, hclosing, rfl⟩)), rfl, rfl⟩,
      (lex_rest_skip t _).trans hlater⟩

/-- The tokens of a sum have a derivation, which goes on to the next token. -/
theorem IsSum.exists_derives {tokens : List Token} {e : Expression Empty} :
    IsSum tokens e → ∀ {pos : Nat} {later : List Token},
      lex (t.rest pos) = some (tokens ++ later) →
      ∃ stop nodes, Derives rules t (.reference Nonterminal.sum.name) pos stop nodes ∧
        lex (t.rest stop) = some later
  | .mk h rest, pos, later, hlex => by
    rw [List.append_assoc, ← lex_rest_skip] at hlex
    obtain ⟨mid, before, hfirst, hlex⟩ := h.exists_derives hlex
    obtain ⟨n, last, nodes, hrest, hlex⟩ := rest.exists_derivesTimes hlex
    exact ⟨_, _, derives_sum_iff.2 ⟨mid, last, n, before, nodes, hfirst, hrest, rfl, rfl⟩,
      (lex_rest_skip t last).trans hlex⟩

theorem IsRest.exists_derivesTimes {left : Expression Empty} {tokens : List Token}
    {e : Expression Empty} :
    IsRest left tokens e → ∀ {pos : Nat} {later : List Token},
      lex (t.rest pos) = some (tokens ++ later) →
      ∃ n stop nodes, DerivesTimes rules t further n pos stop nodes ∧
        lex (t.rest stop) = some later
  | .nil, pos, later, hlex => ⟨0, pos, [], .zero, hlex⟩
  | .plus h rest, pos, later, hlex => by
    rw [List.append_assoc, List.cons_append] at hlex
    obtain ⟨hplus, hlex⟩ := rest_of_lex_sign (c := '+') rfl hlex
    rw [← lex_rest_skip] at hlex
    obtain ⟨mid, before, hfirst, hlex⟩ := h.exists_derives hlex
    obtain ⟨n, stop, nodes, hrest, hlater⟩ := rest.exists_derivesTimes hlex
    have hstart := le_skip t pos
    have hinner := le_skip t (skip t pos + 1)
    have hwithin := hfirst.within
    exact ⟨n + 1, stop, _, .succ (derives_further_iff.2 ⟨hplus, hfirst⟩) (by omega) hrest, hlater⟩

end

/-! ## The whole text -/

/-- A whole text is a sum. -/
theorem derivation_iff {tree : Tree} :
    grammar.Derivation t tree ↔
      Derives rules t (.reference Nonterminal.sum.name) 0 t.size tree.children ∧
        tree = ⟨Nonterminal.root.name, t, 0, t.size, tree.children⟩ := by
  refine (derives_reference_iff (p := .reference Nonterminal.sum.name) rfl).trans ⟨?_, ?_⟩
  · rintro ⟨children, h, hnodes⟩
    cases hnodes
    exact ⟨h, rfl⟩
  · rintro ⟨h, htree⟩
    exact ⟨tree.children, h, congrArg (fun tree => [tree]) htree⟩

/-- A derivation of a text spells the tokens of a sum, and gives its expression. -/
theorem isSum_of_derivation {tree : Tree} (h : grammar.Derivation t tree) :
    ∃ tokens e, lex t.toList = some tokens ∧ IsSum tokens e ∧
      Expression.ofTree tree = .ok e := by
  obtain ⟨hsum, htree⟩ := derivation_iff.1 h
  have hdigit : NoDigit (t.rest t.size) := by
    rw [Text.rest_size]
    exact noDigit_nil
  obtain ⟨tokens, e, child, hspells, he, hnodes, -, hchild⟩ := spellsSum_of_derives hdigit hsum
  refine ⟨tokens, e, ?_, he, ?_⟩
  · rw [Spells, Text.rest_size, lex_nil, Option.map_some, List.append_nil] at hspells
    exact hspells
  · rw [htree, hnodes]
    exact hchild

/-- The tokens of a sum have a derivation of the text. -/
theorem exists_derivation {tokens : List Token} {e : Expression Empty}
    (hlex : lex t.toList = some tokens) (h : IsSum tokens e) :
    ∃ tree, grammar.Derivation t tree := by
  rw [← Text.rest_zero, ← List.append_nil tokens] at hlex
  obtain ⟨stop, nodes, hsum, hnil⟩ := h.exists_derives hlex
  obtain ⟨_, last, _, _, _, _, _, rfl, -⟩ := derives_sum_iff.1 hsum
  -- No token is left, and no blank either after a sum: so nothing is.
  have hsize : t.size ≤ skip t last := by
    rw [lex_rest_skip] at hnil
    rw [← Text.rest_eq_nil_iff, rest_skip]
    exact starts_of_lex hnil
  have hstop : skip t last = t.size :=
    Nat.le_antisymm (hsum.within.2.trans (Nat.max_eq_right (Nat.zero_le _)).le) hsize
  rw [hstop] at hsum
  exact ⟨⟨Nonterminal.root.name, t, 0, t.size, nodes⟩, derivation_iff.2 ⟨hsum, rfl⟩⟩

end Descent.Sums
