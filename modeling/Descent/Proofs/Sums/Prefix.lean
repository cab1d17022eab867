import Descent.Proofs.Sums.Parentheses
import Descent.Proofs.Sums.Reading

/-!
# Words that begin a sum

A word that is read token by token leaves the reader in a state, and what may come next only
depends on that state: either an operand is awaited (`Sums.Awaits`), or the word ends with an
operand, which other tokens may follow (`Sums.Follows`). Blanks, numbers and signs lead from one
state to the next.

No state is a dead end: a number, if an operand is awaited, and then a closing parenthesis for
every sum that was put aside make the word acceptable (`Sums.Awaits.viable`,
`Sums.Follows.viable`).
-/

namespace Descent.Sums

/-- The grammar of sums derives the word. -/
def Acceptable (w : Word) : Prop := ∃ tree, grammar.Derivation w.toArray tree

/-- The word can be extended to one that the grammar of sums derives. -/
def Viable (w : Word) : Prop := ∃ v, Acceptable (w ++ v)

/-- A word is acceptable if it is read token by token. -/
theorem acceptable_iff {w : Word} : Acceptable w ↔ ∃ e, readTokenwise w = some e := by
  simp only [readTokenwise_eq_some_iff]
  constructor
  · rintro ⟨tree, htree⟩
    obtain ⟨tokens, e, hlex, hsum, -⟩ := isSum_of_derivation htree
    exact ⟨e, tokens, hlex, hsum⟩
  · rintro ⟨e, tokens, hlex, hsum⟩
    exact exists_derivation (t := w.toArray) hlex hsum

variable {left : Option (Expression Empty)} {sum : Expression Empty}
  {outer : List (Option (Expression Empty))} {x w : Word}

/-- After the word, an operand is awaited: the reader is to add it to the sum `left`, and has put
    aside the sums `outer`, one for every open parenthesis. -/
structure Awaits (left : Option (Expression Empty)) (outer : List (Option (Expression Empty)))
    (x : Word) : Prop where
  /-- The tokens of the word lead to the state. -/
  exists_tokens : ∃ tokens, (∀ w, lex (x ++ w) = (lex w).map (tokens ++ ·)) ∧
    ∀ later, readTokens (tokens ++ later) = readOperand left outer later
  surplus_eq : surplus x = outer.length

/-- The word ends with an operand, up to which the reader has the sum `sum`, and has put aside the
    sums `outer`, one for every open parenthesis. Digits that come next would still belong to the
    operand. -/
structure Follows (sum : Expression Empty) (outer : List (Option (Expression Empty)))
    (x : Word) : Prop where
  /-- The tokens of the word lead to the state, if they end with it. -/
  exists_tokens : ∃ tokens, (∀ w, NoDigit w → lex (x ++ w) = (lex w).map (tokens ++ ·)) ∧
    ∀ later, readTokens (tokens ++ later) = readRest sum outer later
  surplus_eq : surplus x = outer.length

/-! ## From state to state -/

theorem lex_blanks (h : ∀ c ∈ w, isBlank c) (v : Word) : lex (w ++ v) = lex v := by
  induction w with
  | nil => rfl
  | cons c w ih =>
    rw [List.cons_append, lex_of_isBlank (h c List.mem_cons_self),
      ih fun d hd => h d (List.mem_cons_of_mem _ hd)]

/-- Characters of a class without parentheses leave the parentheses open. -/
theorem surplus_append_of_forall {p : Char → Bool} (hp : p '(' = false ∧ p ')' = false)
    (h : ∀ c ∈ w, p c) : surplus (x ++ w) = surplus x := by
  rw [surplus_append, @surplus_eq_zero w, Int.add_zero]
  refine fun c hc => ⟨?_, ?_⟩ <;> rintro rfl
  · exact Bool.false_ne_true (hp.1.symm.trans (h _ hc))
  · exact Bool.false_ne_true (hp.2.symm.trans (h _ hc))

theorem Awaits.nil : Awaits none [] [] := ⟨⟨[], fun _ => Option.map_id'.symm, fun _ => rfl⟩, rfl⟩

theorem Awaits.blanks (hx : Awaits left outer x) (h : ∀ c ∈ w, isBlank c) :
    Awaits left outer (x ++ w) := by
  obtain ⟨⟨tokens, hlex, hread⟩, hsurplus⟩ := hx
  refine ⟨⟨tokens, fun v => ?_, hread⟩, (surplus_append_of_forall ⟨rfl, rfl⟩ h).trans hsurplus⟩
  rw [List.append_assoc, hlex, lex_blanks h]

theorem Follows.blanks (hx : Follows sum outer x) (h : ∀ c ∈ w, isBlank c) :
    Follows sum outer (x ++ w) := by
  obtain ⟨⟨tokens, hlex, hread⟩, hsurplus⟩ := hx
  refine ⟨⟨tokens, fun v hv => ?_, hread⟩, (surplus_append_of_forall ⟨rfl, rfl⟩ h).trans hsurplus⟩
  have hdigit : NoDigit (w ++ v) := by
    cases w with
    | nil => exact hv
    | cons c w =>
      have hc := h c List.mem_cons_self
      exact noDigit_cons (fun hdigit => not_isBlank_of_isDigit hdigit hc) _
  rw [List.append_assoc, hlex _ hdigit, lex_blanks h]

/-- A number is an operand. -/
theorem Awaits.number (hx : Awaits left outer x) (hw : w ≠ []) (h : ∀ c ∈ w, c.isDigit) :
    Follows (add left (.number (Nat.ofDigitChars 10 w 0))) outer (x ++ w) := by
  obtain ⟨⟨tokens, hlex, hread⟩, hsurplus⟩ := hx
  refine ⟨⟨tokens ++ [.number w], fun v hv => ?_, fun later => ?_⟩,
    (surplus_append_of_forall ⟨rfl, rfl⟩ h).trans hsurplus⟩
  · rw [List.append_assoc, hlex, lex_number hw h hv, Option.map_map]
    simp only [Function.comp_def, List.append_assoc, List.singleton_append]
  · rw [List.append_assoc, hread, List.singleton_append, readOperand]

/-- In a parenthesis, a sum begins anew. -/
theorem Awaits.opening (hx : Awaits left outer x) : Awaits none (left :: outer) (x ++ ['(']) := by
  obtain ⟨⟨tokens, hlex, hread⟩, hsurplus⟩ := hx
  refine ⟨⟨tokens ++ [.opening], fun v => ?_, fun later => ?_⟩, ?_⟩
  · rw [List.append_assoc, List.singleton_append, hlex,
      lex_sign (rfl : sign? '(' = some .opening), Option.map_map]
    simp only [Function.comp_def, List.append_assoc, List.singleton_append]
  · rw [List.append_assoc, hread, List.singleton_append, readOperand]
  · rw [surplus_append, hsurplus]
    rfl

/-- A plus sign asks for another operand. -/
theorem Follows.plus (hx : Follows sum outer x) : Awaits (some sum) outer (x ++ ['+']) := by
  obtain ⟨⟨tokens, hlex, hread⟩, hsurplus⟩ := hx
  refine ⟨⟨tokens ++ [.plus], fun v => ?_, fun later => ?_⟩, ?_⟩
  · rw [List.append_assoc, List.singleton_append, hlex _ (noDigit_cons (by decide) _),
      lex_sign (rfl : sign? '+' = some .plus), Option.map_map]
    simp only [Function.comp_def, List.append_assoc, List.singleton_append]
  · rw [List.append_assoc, hread, List.singleton_append, readRest]
  · rw [surplus_append, hsurplus]
    rfl

/-- A closing parenthesis makes the sum an operand of the one that was put aside. -/
theorem Follows.closing (hx : Follows sum (left :: outer) x) :
    Follows (add left sum) outer (x ++ [')']) := by
  obtain ⟨⟨tokens, hlex, hread⟩, hsurplus⟩ := hx
  refine ⟨⟨tokens ++ [.closing], fun v _ => ?_, fun later => ?_⟩, ?_⟩
  · rw [List.append_assoc, List.singleton_append, hlex _ (noDigit_cons (by decide) _),
      lex_sign (rfl : sign? ')' = some .closing), Option.map_map]
    simp only [Function.comp_def, List.append_assoc, List.singleton_append]
  · rw [List.append_assoc, hread, List.singleton_append, readRest]
  · rw [surplus_append, hsurplus, List.length_cons, Int.natCast_succ]
    exact Int.add_neg_cancel_right _ 1

/-! ## No dead ends -/

/-- A word that ends with an operand is completed by closing parentheses. -/
theorem Follows.viable (hx : Follows sum outer x) : Viable x := by
  induction outer generalizing sum x with
  | nil =>
    obtain ⟨tokens, hlex, hread⟩ := hx.exists_tokens
    refine ⟨[], acceptable_iff.2 ⟨sum, ?_⟩⟩
    rw [readTokenwise, hlex [] noDigit_nil, lex_nil, Option.map_some, Option.bind_some, hread,
      readRest]
  | cons left outer ih =>
    obtain ⟨v, hv⟩ := ih hx.closing
    rw [List.append_assoc] at hv
    exact ⟨_, hv⟩

/-- Where an operand is awaited, a number will do. -/
theorem Awaits.viable (hx : Awaits left outer x) : Viable x := by
  obtain ⟨v, hv⟩ := (hx.number (w := ['0']) (by simp) (by simp)).viable
  rw [List.append_assoc] at hv
  exact ⟨_, hv⟩

end Descent.Sums
