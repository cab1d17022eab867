import Descent.Sums.Reading
import Mathlib.Data.List.TakeWhile
import Mathlib.Tactic.Common

/-!
# Sums as tokens

Another way to read a sum, without a grammar and without any search. A text is first cut
into tokens (`Sums.lex`): signs and the longest possible runs of digits, with blanks left
out. The tokens are then read one after the other (`Sums.readTokens`), where every
token says what to do: an opening parenthesis puts the sum so far aside, and a closing one
comes back to it.

What the tokens of a sum are is also told by three rules, for an operand, a sum, and what
follows its first operand (`IsOperand`, `IsSum`, `IsRest`). The reader accepts the tokens
of a sum, and no others, and gives its expression (`Sums.readTokens_eq_some_iff`).
-/

namespace Descent.Sums

/-- A token of a sum. -/
inductive Token where
  /-- A run of digits. -/
  | number (digits : Word)
  /-- A plus sign. -/
  | plus
  /-- An opening parenthesis. -/
  | opening
  /-- A closing parenthesis. -/
  | closing
  deriving DecidableEq, Repr

/-- The character is a blank: a space, a tab or a line break. -/
def isBlank (c : Char) : Bool := c == ' ' || c == '\t' || c == '\r' || c == '\n'

/-- The token of a sign. -/
def sign? (c : Char) : Option Token :=
  if c = '+' then some .plus
  else if c = '(' then some .opening
  else if c = ')' then some .closing
  else none

/-- The tokens of a word, if it has no other characters. -/
def lex (w : Word) : Option (List Token) :=
  match w with
  | [] => some []
  | c :: w =>
    if isBlank c then lex w
    else if c.isDigit then
      (lex (w.dropWhile Char.isDigit)).map (.number (c :: w.takeWhile Char.isDigit) :: ·)
    else match sign? c with
      | some token => (lex w).map (token :: ·)
      | none => none
termination_by w.length
decreasing_by
  all_goals
    have := (List.dropWhile_sublist Char.isDigit (l := w)).length_le
    rw [List.length_cons]
    omega

/-! ## Words and their tokens -/

@[simp] theorem lex_nil : lex [] = some [] := by rw [lex]

theorem lex_of_isBlank {c : Char} (h : isBlank c) (w : Word) : lex (c :: w) = lex w := by
  rw [lex, if_pos h]

/-- Blanks in front make no difference. -/
theorem lex_dropWhile (w : Word) : lex (w.dropWhile isBlank) = lex w := by
  induction w with
  | nil => rfl
  | cons c w ih =>
    by_cases hc : isBlank c
    · rw [List.dropWhile_cons_of_pos hc, ih, lex_of_isBlank hc]
    · rw [List.dropWhile_cons_of_neg hc]

theorem sign?_eq_some {c : Char} {token : Token} (h : sign? c = some token) :
    c = '+' ∧ token = .plus ∨ c = '(' ∧ token = .opening ∨ c = ')' ∧ token = .closing := by
  unfold sign? at h
  split at h
  · exact .inl ⟨‹_›, (Option.some.inj h).symm⟩
  · split at h
    · exact .inr (.inl ⟨‹_›, (Option.some.inj h).symm⟩)
    · split at h
      · exact .inr (.inr ⟨‹_›, (Option.some.inj h).symm⟩)
      · cases h

/-- A sign is a token. -/
theorem lex_sign {c : Char} {token : Token} (h : sign? c = some token) (w : Word) :
    lex (c :: w) = (lex w).map (token :: ·) := by
  obtain ⟨rfl, rfl⟩ | ⟨rfl, rfl⟩ | ⟨rfl, rfl⟩ := sign?_eq_some h <;> (rw [lex]; rfl)

theorem not_isBlank_of_isDigit {c : Char} (h : c.isDigit) : ¬isBlank c := by
  intro hblank
  simp only [isBlank, Bool.or_eq_true, beq_iff_eq] at hblank
  obtain ((rfl | rfl) | rfl) | rfl := hblank <;> cases h

/-- The word does not start with a digit. -/
def NoDigit (w : Word) : Prop := ∀ c ∈ w.head?, ¬c.isDigit

theorem noDigit_dropWhile (w : Word) : NoDigit (w.dropWhile Char.isDigit) := by
  intro c hc hdigit
  have hhead := List.head?_dropWhile_not Char.isDigit w
  rw [Option.mem_def.1 hc] at hhead
  exact Bool.false_ne_true (hhead.symm.trans hdigit)

/-- Digits are one token, if no other digit follows. -/
theorem lex_number {digits w : Word} (hdigits : digits ≠ []) (h : ∀ c ∈ digits, c.isDigit)
    (hw : NoDigit w) : lex (digits ++ w) = (lex w).map (.number digits :: ·) := by
  obtain ⟨c, digits, rfl⟩ := List.exists_cons_of_ne_nil hdigits
  have hc := h c List.mem_cons_self
  have hrest : ∀ d ∈ digits, d.isDigit := fun d hd => h d (List.mem_cons_of_mem _ hd)
  have htake : w.takeWhile Char.isDigit = [] := by
    rw [List.takeWhile_eq_nil_iff]
    intro hlen
    exact hw _ (by rw [List.head?_eq_getElem?, List.getElem?_eq_getElem hlen]; rfl)
  have hdrop : w.dropWhile Char.isDigit = w := by
    have := List.takeWhile_append_dropWhile (p := Char.isDigit) (l := w)
    rwa [htake] at this
  rw [List.cons_append, lex, if_neg (not_isBlank_of_isDigit hc), if_pos hc,
    List.takeWhile_append_of_pos hrest, List.dropWhile_append_of_pos hrest, htake, hdrop,
    List.append_nil]

/-- A token starts the word `w`, and leaves the word `v`. -/
inductive Token.Starts : (token : Token) → (w v : Word) → Prop
  | number {digits v : Word} (hdigits : digits ≠ []) (h : ∀ c ∈ digits, c.isDigit) :
    Starts (.number digits) (digits ++ v) v
  | sign {c : Char} {token : Token} {v : Word} (h : sign? c = some token) :
    Starts token (c :: v) v

/-- The first token of a word starts it, after blanks, and what it leaves has the others. A
    word without tokens has nothing but blanks. -/
theorem starts_of_lex {w : Word} {tokens : List Token} (h : lex w = some tokens) :
    match tokens with
    | [] => w.dropWhile isBlank = []
    | token :: later => ∃ v, token.Starts (w.dropWhile isBlank) v ∧ lex v = some later := by
  rw [← lex_dropWhile] at h
  have hhead := List.head?_dropWhile_not isBlank w
  cases hw : w.dropWhile isBlank with
  | nil =>
    rw [hw, lex_nil] at h
    cases h
    rfl
  | cons c v =>
    rw [hw, List.head?_cons] at hhead
    dsimp only at hhead
    rw [hw, lex, if_neg (by rw [hhead]; exact Bool.false_ne_true)] at h
    split at h
    · rename_i hdigit
      obtain ⟨later, hlater, rfl⟩ := Option.map_eq_some_iff.1 h
      -- A number goes on as long as digits come.
      refine ⟨v.dropWhile Char.isDigit, ?_, hlater⟩
      have hv : c :: v = (c :: v.takeWhile Char.isDigit) ++ v.dropWhile Char.isDigit := by
        rw [List.cons_append, List.takeWhile_append_dropWhile]
      rw [hv]
      refine .number (List.cons_ne_nil _ _) fun d hd => ?_
      rcases List.mem_cons.1 hd with rfl | hd
      · exact hdigit
      · exact List.mem_takeWhile_imp hd
    · split at h
      · rename_i hsign
        obtain ⟨later, hlater, rfl⟩ := Option.map_eq_some_iff.1 h
        exact ⟨v, .sign hsign, hlater⟩
      · cases h

/-! ## The tokens of a sum -/

mutual

/-- The tokens are an operand that gives an expression. -/
inductive IsOperand : (tokens : List Token) → (e : Expression Empty) → Prop
  | number (digits : Word) : IsOperand [.number digits] (.number (Nat.ofDigitChars 10 digits 0))
  | parens {tokens : List Token} {e : Expression Empty} (h : IsSum tokens e) :
    IsOperand (.opening :: tokens ++ [.closing]) e

/-- The tokens are a sum that gives an expression. -/
inductive IsSum : (tokens : List Token) → (e : Expression Empty) → Prop
  | mk {tokens later : List Token} {left e : Expression Empty} (h : IsOperand tokens left)
    (rest : IsRest left later e) : IsSum (tokens ++ later) e

/-- The tokens come after the first operands of a sum, which give the expression `left`. -/
inductive IsRest : (left : Expression Empty) → (tokens : List Token) →
    (e : Expression Empty) → Prop
  | nil {left : Expression Empty} : IsRest left [] left
  | plus {tokens later : List Token} {left right e : Expression Empty}
    (h : IsOperand tokens right) (rest : IsRest (.plus left right) later e) :
    IsRest left (.plus :: tokens ++ later) e

end

/-! ## Reading tokens -/

/-- An operand added to the sum before it, if there is one. -/
def add : (left : Option (Expression Empty)) → (right : Expression Empty) → Expression Empty
  | none, right => right
  | some left, right => .plus left right

mutual

/-- The expression of the tokens, which go on with an operand, where `left` is the sum
    before it, and `outer` are the sums put aside, the innermost one first. -/
def readOperand (left : Option (Expression Empty)) (outer : List (Option (Expression Empty))) :
    (tokens : List Token) → Option (Expression Empty)
  | .number digits :: tokens =>
    readRest (add left (.number (Nat.ofDigitChars 10 digits 0))) outer tokens
  | .opening :: tokens => readOperand none (left :: outer) tokens
  | _ => none

/-- The expression of the tokens, which go on after the sum `left`. -/
def readRest (left : Expression Empty) (outer : List (Option (Expression Empty))) :
    (tokens : List Token) → Option (Expression Empty)
  | [] => match outer with
    | [] => some left
    | _ :: _ => none
  | .plus :: tokens => readOperand (some left) outer tokens
  | .closing :: tokens => match outer with
    | [] => none
    | before :: outer => readRest (add before left) outer tokens
  | _ => none

end

/-- The expression of the tokens of a sum. -/
def readTokens (tokens : List Token) : Option (Expression Empty) := readOperand none [] tokens

mutual

/-- An operand is read, and added to the sum before it. -/
theorem IsOperand.readOperand_append {tokens : List Token} {e : Expression Empty} :
    IsOperand tokens e → ∀ left outer later,
      readOperand left outer (tokens ++ later) = readRest (add left e) outer later
  | .number digits, left, outer, later => by rw [List.singleton_append, readOperand]
  | .parens h, left, outer, later => by
    rw [List.append_assoc, List.cons_append, readOperand, h.readOperand_append,
      List.singleton_append, readRest]

/-- A sum is read from its first operand on. -/
theorem IsSum.readOperand_append {tokens : List Token} {e : Expression Empty} :
    IsSum tokens e → ∀ outer later,
      readOperand none outer (tokens ++ later) = readRest e outer later
  | .mk h rest, outer, later => by
    rw [List.append_assoc, h.readOperand_append, add, rest.readRest_append]

theorem IsRest.readRest_append {left : Expression Empty} {tokens : List Token}
    {e : Expression Empty} :
    IsRest left tokens e → ∀ outer later,
      readRest left outer (tokens ++ later) = readRest e outer later
  | .nil, outer, later => rfl
  | .plus h rest, outer, later => by
    rw [List.append_assoc, List.cons_append, readRest, h.readOperand_append, add,
      rest.readRest_append]

end

/-- What is left after a sum: nothing if no sum was put aside, and otherwise the closing
    parenthesis and what comes after the operand that it ends. -/
inductive Resumes (sum : Expression Empty) : (outer : List (Option (Expression Empty))) →
    (tokens : List Token) → (e : Expression Empty) → Prop
  | nil : Resumes sum [] [] sum
  | closing {left : Option (Expression Empty)} {outer : List (Option (Expression Empty))}
    {tokens : List Token} {e : Expression Empty}
    (h : readRest (add left sum) outer tokens = some e) :
    Resumes sum (left :: outer) (.closing :: tokens) e

mutual

/-- What is read from an operand on starts with the tokens of one. -/
theorem exists_isOperand {left : Option (Expression Empty)}
    {outer : List (Option (Expression Empty))} {e : Expression Empty} :
    ∀ {tokens : List Token}, readOperand left outer tokens = some e →
    ∃ first right later, tokens = first ++ later ∧ IsOperand first right ∧
      readRest (add left right) outer later = some e
  | [], h => by cases h
  | .plus :: _, h => by cases h
  | .closing :: _, h => by cases h
  | .number digits :: tokens, h => by
    rw [readOperand] at h
    exact ⟨[.number digits], _, tokens, rfl, .number digits, h⟩
  | .opening :: tokens, h => by
    rw [readOperand] at h
    -- The sum in the parentheses is read first, and then the one that was put aside.
    obtain ⟨first, right, later, rfl, hfirst, h⟩ := exists_isOperand h
    obtain ⟨rest, sum, _, rfl, hrest, hresumes⟩ := exists_isRest h
    cases hresumes with
    | closing h =>
      refine ⟨.opening :: (first ++ rest) ++ [.closing], sum, _, ?_,
        .parens (.mk hfirst hrest), h⟩
      simp only [List.append_assoc, List.cons_append, List.nil_append]
termination_by tokens => tokens.length

/-- What is read from a sum on goes on with its other operands, and is then resumed. -/
theorem exists_isRest {left : Expression Empty} {outer : List (Option (Expression Empty))}
    {e : Expression Empty} :
    ∀ {tokens : List Token}, readRest left outer tokens = some e →
    ∃ first sum later, tokens = first ++ later ∧ IsRest left first sum ∧
      Resumes sum outer later e
  | [], h => by
    refine ⟨[], left, [], rfl, .nil, ?_⟩
    cases outer with
    | nil =>
      cases h
      exact .nil
    | cons => cases h
  | .number _ :: _, h => by cases h
  | .opening :: _, h => by cases h
  | .closing :: tokens, h => by
    refine ⟨[], left, .closing :: tokens, rfl, .nil, ?_⟩
    cases outer with
    | nil => cases h
    | cons =>
      rw [readRest] at h
      exact .closing h
  | .plus :: tokens, h => by
    rw [readRest] at h
    obtain ⟨first, right, later, rfl, hfirst, h⟩ := exists_isOperand h
    obtain ⟨rest, sum, after, rfl, hrest, h⟩ := exists_isRest h
    refine ⟨.plus :: first ++ rest, sum, after, ?_, .plus hfirst hrest, h⟩
    simp only [List.append_assoc, List.cons_append]
termination_by tokens => tokens.length

end

/-- The reader accepts the tokens of a sum, and gives its expression. -/
theorem readTokens_eq_some_iff {tokens : List Token} {e : Expression Empty} :
    readTokens tokens = some e ↔ IsSum tokens e := by
  refine ⟨fun h => ?_, fun h => ?_⟩
  · obtain ⟨first, left, later, rfl, hfirst, h⟩ := exists_isOperand h
    obtain ⟨rest, sum, _, rfl, hrest, hresumes⟩ := exists_isRest h
    cases hresumes
    rw [List.append_nil]
    exact .mk hfirst hrest
  · have := h.readOperand_append [] []
    rwa [List.append_nil, readRest] at this

end Descent.Sums
