import Descent.Proofs.Sums.Reading
import Descent.Proofs.Sums.Value

/-!
# The digit runs of a sum

What a text is worth shows without reading it as a sum: its numbers are the longest possible
runs of digits in it (`Sums.digitRuns`), whatever stands between them. The numbers of the
expression that a text spells are the values of its runs, in order, and the value of the
text is their sum (`Sums.evaluate_eq_sum_runs`).
-/

namespace Descent.Sums

/-- The longest possible runs of digits in a word, in order. -/
def digitRuns (w : Word) : List Word := (w.splitOnP fun c => !c.isDigit).filter (· ≠ [])

/-- The values of the digit runs of a word, in order. -/
def runValues (w : Word) : List Nat := (digitRuns w).map (Nat.ofDigitChars 10 · 0)

/-! ## Runs and tokens -/

/-- A character that is no digit belongs to no run. -/
theorem digitRuns_cons {c : Char} (h : ¬c.isDigit) (w : Word) :
    digitRuns (c :: w) = digitRuns w := by
  rw [digitRuns, List.splitOnP_cons_eq_if_modifyHead, if_pos (by simpa using h)]
  rfl

/-- Digits are one run, if no other digit follows. -/
theorem digitRuns_append {digits w : Word} (hdigits : digits ≠ []) (h : ∀ c ∈ digits, c.isDigit)
    (hw : NoDigit w) : digitRuns (digits ++ w) = digits :: digitRuns w := by
  have hall : ∀ c ∈ digits, (!c.isDigit) = false := fun c hc => by rw [h c hc]; rfl
  cases w with
  | nil =>
    rw [List.append_nil, digitRuns, List.splitOnP_eq_singleton hall]
    simp [hdigits, digitRuns]
  | cons c w =>
    have hc : ¬c.isDigit := hw c rfl
    rw [digitRuns_cons hc, digitRuns,
      List.splitOnP_append_cons_of_forall_mem hall c (by simpa using hc), List.filter_cons_of_pos]
    · rfl
    · simpa using hdigits

/-- The digits of a token, if it is a number. -/
def Token.digits? : Token → Option Word
  | .number digits => some digits
  | .plus | .opening | .closing => none

/-- The values of the numbers among tokens, in order. -/
def tokenValues (tokens : List Token) : List Nat :=
  (tokens.filterMap Token.digits?).map (Nat.ofDigitChars 10 · 0)

@[simp] theorem tokenValues_append (tokens later : List Token) :
    tokenValues (tokens ++ later) = tokenValues tokens ++ tokenValues later := by
  rw [tokenValues, List.filterMap_append, List.map_append]
  rfl

/-- A word that is cut into tokens has their numbers as its runs. -/
theorem digitRuns_of_lex {w : Word} {tokens : List Token} (h : lex w = some tokens) :
    digitRuns w = tokens.filterMap Token.digits? := by
  induction w using lex.induct generalizing tokens with
  | case1 =>
    rw [lex_nil] at h
    cases h
    rfl
  | case2 c w hblank ih =>
    rw [lex_of_isBlank hblank] at h
    rw [digitRuns_cons fun hdigit => not_isBlank_of_isDigit hdigit hblank, ih h]
  | case3 c w hblank hdigit ih =>
    rw [lex, if_neg hblank, if_pos hdigit] at h
    obtain ⟨later, hlater, rfl⟩ := Option.map_eq_some_iff.1 h
    -- A token takes all digits that come next, and so no digit follows it.
    have hsplit : c :: w = (c :: w.takeWhile Char.isDigit) ++ w.dropWhile Char.isDigit := by
      rw [List.cons_append, List.takeWhile_append_dropWhile]
    have hall : ∀ d ∈ c :: w.takeWhile Char.isDigit, d.isDigit := by
      rw [List.forall_mem_cons]
      exact ⟨hdigit, fun d hd => List.mem_takeWhile_imp hd⟩
    rw [hsplit, digitRuns_append (List.cons_ne_nil _ _) hall (noDigit_dropWhile w), ih hlater]
    rfl
  | case4 c w hblank hdigit token hsign ih =>
    rw [lex_sign hsign] at h
    obtain ⟨later, hlater, rfl⟩ := Option.map_eq_some_iff.1 h
    rw [digitRuns_cons hdigit, ih hlater]
    obtain ⟨-, rfl⟩ | ⟨-, rfl⟩ | ⟨-, rfl⟩ := sign?_eq_some hsign <;> rfl
  | case5 c w hblank hdigit hsign =>
    rw [lex, if_neg hblank, if_neg hdigit, hsign] at h
    cases h

/-! ## The numbers of a sum -/

mutual

/-- The numbers of an operand are those of its tokens. -/
theorem IsOperand.numbers_eq {tokens : List Token} {e : Expression Empty} :
    IsOperand tokens e → e.numbers = tokenValues tokens
  | .number _ => rfl
  | .parens h => by
    rw [tokenValues_append, h.numbers_eq]
    exact (List.append_nil _).symm

/-- The numbers of a sum are those of its tokens. -/
theorem IsSum.numbers_eq {tokens : List Token} {e : Expression Empty} :
    IsSum tokens e → e.numbers = tokenValues tokens
  | .mk h rest => by rw [rest.numbers_eq, h.numbers_eq, tokenValues_append]

/-- Further operands bring their numbers after those before. -/
theorem IsRest.numbers_eq {left : Expression Empty} {tokens : List Token}
    {e : Expression Empty} :
    IsRest left tokens e → e.numbers = left.numbers ++ tokenValues tokens
  | .nil => (List.append_nil _).symm
  | .plus h rest => by
    rw [rest.numbers_eq, Expression.numbers, h.numbers_eq, List.append_assoc, tokenValues_append]
    rfl

end

/-- The numbers of an expression that is read are the values of the digit runs. -/
theorem numbers_of_readTokenwise {w : Word} {e : Expression Empty}
    (h : readTokenwise w = some e) : e.numbers = runValues w := by
  obtain ⟨tokens, hlex, hsum⟩ := readTokenwise_eq_some_iff.1 h
  rw [hsum.numbers_eq, runValues, digitRuns_of_lex hlex, tokenValues]

/-- A text that is parsed has the values of its digit runs as its numbers, in order, and their
    sum as its value. -/
theorem evaluate_eq_sum_runs {limit : Nat} {t : Text} (h : (parse limit t).isOk) :
    (∃ e, read limit t = .ok e ∧ e.numbers = runValues t.toList) ∧
      evaluate limit t = .ok (runValues t.toList).sum := by
  obtain ⟨tree, hparse⟩ := isOk_iff.1 h
  obtain ⟨e, he, htree⟩ := ofTree_of_parse hparse
  have hread : read limit t = .ok e := read_of_parse hparse htree
  have hnumbers := numbers_of_readTokenwise he
  refine ⟨⟨e, hread, hnumbers⟩, ?_⟩
  rw [evaluate, hread, ← hnumbers, ← e.total_eq_sum_numbers]
  rfl

/-- The text `12+(3 +45)` has the numbers `12`, `3` and `45`, and the value `60`. -/
theorem evaluate_parens :
    let t : Text := #['1', '2', '+', '(', '3', ' ', '+', '4', '5', ')']
    (parse 9 t).isOk ∧ (∃ e, read 9 t = .ok e ∧ e.numbers = [12, 3, 45]) ∧
      evaluate 9 t = .ok 60 := by
  intro t
  have hok : (parse 9 t).isOk := by decide +kernel
  have hruns : runValues t.toList = [12, 3, 45] := by decide +kernel
  have h := evaluate_eq_sum_runs hok
  rw [hruns] at h
  exact ⟨hok, h⟩

end Descent.Sums
