import Descent.Proofs.Sums.Depth

/-!
# Written expressions

An expression in full parentheses is read back (`Sums.read_written`). Its tokens
(`Sums.tokensOf`) are those of an operand, so that a sum on the right of another one stands in
parentheses and is not taken apart (`Sums.isOperand_tokensOf`). A number is written at any
length without a gap, and so is one token.

Every sum in the expression opens one pair of parentheses, so what is written nests as deeply as
the sums do (`Expression.depth`). That tells how large a limit is large enough.
-/

namespace Descent.Sums

/-- The tokens of an expression in full parentheses. -/
def tokensOf : (e : Expression Empty) → List Token
  | .number n => [.number (Nat.toDigits 10 n)]
  | .plus left right => .opening :: (tokensOf left ++ .plus :: tokensOf right) ++ [.closing]

theorem written_plus (left right : Expression Empty) : (Expression.plus left right).written =
    '(' :: (left.written ++ [' ', '+', ' '] ++ right.written ++ [')']) := by
  change '(' :: (left.written ++ " + ".toList ++ right.written ++ [')']) = _
  simp

/-- The tokens of a written expression are an operand that gives the expression. -/
theorem isOperand_tokensOf (e : Expression Empty) : IsOperand (tokensOf e) e := by
  induction e with
  | number n =>
    have h := IsOperand.number (Nat.toDigits 10 n)
    rwa [Nat.ofDigitChars_ten_toDigits] at h
  | plus left right ihl ihr =>
    have hrest : IsRest left (.plus :: tokensOf right ++ []) (.plus left right) := .plus ihr .nil
    rw [List.append_nil] at hrest
    exact .parens (.mk ihl hrest)
  | foreign x => exact nomatch x

/-- A written expression spells its tokens, if no digit follows. -/
theorem lex_written (e : Expression Empty) {w : Word} (hw : NoDigit w) :
    lex (e.written ++ w) = (lex w).map (tokensOf e ++ ·) := by
  induction e generalizing w with
  | number n =>
    change lex (Numeral.write n ++ w) = _
    rw [Numeral.write_eq]
    exact lex_number Nat.toDigits_ne_nil
      (fun c => Nat.isDigit_of_mem_toDigits (by decide) (by decide)) hw
  | plus left right ihl ihr =>
    have hwritten : (Expression.plus left right).written ++ w =
        '(' :: (left.written ++ ' ' :: '+' :: ' ' :: (right.written ++ ')' :: w)) := by
      simp [written_plus]
    -- Neither the blank after the left part nor the parenthesis after the right part is a digit.
    rw [hwritten, lex_sign (rfl : sign? '(' = some .opening), ihl (noDigit_cons (by decide) _),
      lex_of_isBlank rfl, lex_sign (rfl : sign? '+' = some .plus), lex_of_isBlank rfl,
      ihr (noDigit_cons (by decide) _), lex_sign (rfl : sign? ')' = some .closing)]
    simp [tokensOf, Function.comp_def]
  | foreign x => exact nomatch x

theorem readTokenwise_written (e : Expression Empty) : readTokenwise e.written = some e := by
  have hlex := lex_written e noDigit_nil
  rw [List.append_nil, lex_nil, Option.map_some, List.append_nil] at hlex
  have hsum := IsSum.mk (isOperand_tokensOf e) .nil
  rw [List.append_nil] at hsum
  exact readTokenwise_eq_some_iff.2 ⟨tokensOf e, hlex, hsum⟩

/-! ## Nesting -/

theorem forall_mem_number {n : Nat} :
    ∀ c ∈ (Expression.number n : Expression Empty).written, c ≠ '(' ∧ c ≠ ')' := by
  change ∀ c ∈ Numeral.write n, _
  rw [Numeral.write_eq]
  intro c hc
  have hdigit := Nat.isDigit_of_mem_toDigits (by decide) (by decide) hc
  refine ⟨?_, ?_⟩ <;> rintro rfl <;> cases hdigit

/-- A written expression nests as its sums do, and closes all its parentheses. -/
theorem balanced_written (e : Expression Empty) : Balanced e.depth e.written := by
  induction e with
  | number n => exact .of_forall forall_mem_number (Int.natCast_nonneg _)
  | plus left right ihl ihr =>
    have hleft := ihl.mono (Int.ofNat_le.2 (Nat.le_max_left left.depth right.depth))
    have hright := ihr.mono (Int.ofNat_le.2 (Nat.le_max_right left.depth right.depth))
    have hplus : Balanced (max left.depth right.depth : Nat) [' ', '+', ' '] :=
      .of_forall (by simp) (Int.natCast_nonneg _)
    rw [written_plus]
    exact ((hleft.append hplus).append hright).parens
  | foreign x => exact nomatch x

/-- An expression in full parentheses is read as that very expression, unless it nests too
    deeply for the limit. -/
theorem read_written (e : Expression Empty) (limit : Nat) :
    GivesUp (read limit e.written.toArray) ∧ limit < 2 * e.depth + 4 ∨
      read limit e.written.toArray = .ok e := by
  have h := read_cases limit e.written.toArray
  rw [readTokenwise_written] at h
  refine h.imp_left fun hdeep => ⟨hdeep, ?_⟩
  by_contra hlimit
  exact not_givesUp_of_shallow (balanced_written e).shallow (Nat.not_lt.1 hlimit) hdeep

end Descent.Sums
