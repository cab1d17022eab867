import Descent.Proofs.Attempt
import Descent.Proofs.Sums.Prefix

/-!
# States of the reader in a search

The grammar of sums and the reader of tokens go through a text alike. What a rule is entered for
is told by the state in which the reader of tokens is at that offset (`Sums.Entered`).

* What is derived by a rule leads from one state to the next: an operand leads from where it is
  awaited to where others may follow, and so does a sum (`Sums.follows_of_derives`).
* Within a rule, every sign and character that is tried would lead on to a state, and every other
  rule is entered in a state that is right for it (`Sums.tried_of_attempts`). A rule that is
  entered comes further down in the grammar (`Nonterminal.rank`), unless a parenthesis was opened.
-/

namespace Descent.Sums

variable {t : Text} {p q : Pattern} {pos stop mid : Nat} {nodes : List Tree}
  {left : Option (Expression Empty)} {sum : Expression Empty}
  {outer : List (Option (Expression Empty))} {x w : Word}

/-! ## States at an offset -/

theorem before_skip (t : Text) (pos : Nat) :
    t.before (skip t pos) = t.before pos ++ (t.rest pos).takeWhile isBlank := by
  rw [skip, Pattern.run, accepts_blank]
  exact Text.before_add_of_rest (List.takeWhile_append_dropWhile).symm

theorem before_succ {c : Char} (h : t.rest pos = c :: w) :
    t.before (pos + 1) = t.before pos ++ [c] :=
  Text.before_add_of_rest (w := [c]) h

theorem Awaits.skip (hx : Awaits left outer (t.before pos)) :
    Awaits left outer (t.before (skip t pos)) := by
  rw [before_skip]
  exact hx.blanks fun _ => List.mem_takeWhile_imp

theorem Follows.skip (hx : Follows sum outer (t.before pos)) :
    Follows sum outer (t.before (skip t pos)) := by
  rw [before_skip]
  exact hx.blanks fun _ => List.mem_takeWhile_imp

theorem Awaits.opening_at (hx : Awaits left outer (t.before pos)) (h : t.rest pos = '(' :: w) :
    Awaits none (left :: outer) (t.before (pos + 1)) := by
  rw [before_succ h]
  exact hx.opening

theorem Follows.plus_at (hx : Follows sum outer (t.before pos)) (h : t.rest pos = '+' :: w) :
    Awaits (some sum) outer (t.before (pos + 1)) := by
  rw [before_succ h]
  exact hx.plus

theorem Follows.closing_at (hx : Follows sum (left :: outer) (t.before pos))
    (h : t.rest pos = ')' :: w) : Follows (add left sum) outer (t.before (pos + 1)) := by
  rw [before_succ h]
  exact hx.closing

/-! ## Derivations lead from state to state -/

/-- Where sums of less than `size` characters are derived, they lead to an operand in place of
    the awaited one. -/
def LeadSums (t : Text) (size : Nat) : Prop :=
  ∀ pos stop nodes outer, stop - pos < size →
    Derives rules t (.reference Nonterminal.sum.name) pos stop nodes →
    Awaits none outer (t.before pos) → ∃ e, Follows e outer (t.before stop)

/-- An operand follows where one is derived, as shorter sums do. -/
theorem follows_of_derives_operand {size : Nat} (hsums : LeadSums t size)
    (hsize : stop - pos ≤ size) (h : Derives rules t operand pos stop nodes)
    (hx : Awaits left outer (t.before pos)) : ∃ e, Follows (add left e) outer (t.before stop) := by
  obtain hnumber | hparens := derives_operand_iff.1 h
  · obtain ⟨digits, hne, hdigits, hrest, rfl, -⟩ := derives_number_iff.1 hnumber
    rw [Text.before_add_of_rest hrest]
    exact ⟨_, hx.skip.number hne hdigits⟩
  · obtain ⟨last, hopening, hsum, hclosing, rfl⟩ := derives_parens_iff.1 hparens
    have hstart := le_skip t pos
    have hinner := le_skip t (skip t pos + 1)
    have hlast := le_skip t last
    have hwithin := hsum.within
    obtain ⟨e, he⟩ := hsums _ _ _ _ (by omega) hsum (hx.skip.opening_at hopening).skip
    exact ⟨e, he.skip.closing_at hclosing⟩

theorem follows_of_derives_primary {size : Nat} (hsums : LeadSums t size)
    (hsize : stop - pos ≤ size)
    (h : Derives rules t (.reference Nonterminal.primary.name) pos stop nodes)
    (hx : Awaits left outer (t.before pos)) : ∃ e, Follows (add left e) outer (t.before stop) := by
  obtain ⟨mid, children, hoperand, rfl, -⟩ := derives_primary_iff.1 h
  have hmid := le_skip t mid
  obtain ⟨e, he⟩ := follows_of_derives_operand hsums (by omega) hoperand hx
  exact ⟨e, he.skip⟩

/-- Further operands follow an operand, as shorter sums do. -/
theorem follows_of_derivesTimes {size n : Nat} (hsums : LeadSums t size)
    (hsize : stop - pos ≤ size) (h : DerivesTimes rules t further n pos stop nodes)
    (hx : Follows sum outer (t.before pos)) : ∃ e, Follows e outer (t.before stop) := by
  induction n generalizing pos nodes sum with
  | zero =>
    cases h
    exact ⟨sum, hx⟩
  | succ n ih =>
    cases h with
    | succ h _ rest =>
      obtain ⟨hplus, hprimary⟩ := derives_further_iff.1 h
      have hstart := le_skip t pos
      have hinner := le_skip t (skip t pos + 1)
      have hfirst := hprimary.within
      have hrest := rest.within
      obtain ⟨e, he⟩ :=
        follows_of_derives_primary hsums (by omega) hprimary (hx.skip.plus_at hplus).skip
      exact ih (by omega) rest he

/-- A sum that is derived where an operand is awaited leads to an operand. -/
theorem follows_of_derives (h : Derives rules t (.reference Nonterminal.sum.name) pos stop nodes)
    (hx : Awaits none outer (t.before pos)) : ∃ e, Follows e outer (t.before stop) := by
  -- By induction on the number of characters: a sum in parentheses is shorter.
  induction hsize : stop - pos using Nat.strongRecOn generalizing pos stop nodes outer with
  | ind size ih =>
    have hsums : LeadSums t size := fun _ _ _ _ hlt hsum hx => ih _ hlt hsum hx rfl
    obtain ⟨mid, last, n, before, later, hfirst, hrest, rfl, rfl⟩ := derives_sum_iff.1 h
    have hstart := le_skip t pos
    have hend := le_skip t last
    have hmid := hfirst.within
    have hlast := hrest.within
    obtain ⟨left, hleft⟩ := follows_of_derives_primary hsums (by omega) hfirst hx.skip
    obtain ⟨e, he⟩ := follows_of_derivesTimes hsums (by omega) hrest hleft
    exact ⟨e, he.skip⟩

theorem leadSums (t : Text) (size : Nat) : LeadSums t size :=
  fun _ _ _ _ _ => follows_of_derives

/-! ## What a rule is entered for -/

/-- After the word, the reader has put aside the sums `outer`. -/
def Inside (outer : List (Option (Expression Empty))) (x : Word) : Prop :=
  (∃ left, Awaits left outer x) ∨ ∃ sum, Follows sum outer x

theorem Awaits.inside (hx : Awaits left outer x) : Inside outer x := .inl ⟨left, hx⟩

theorem Follows.inside (hx : Follows sum outer x) : Inside outer x := .inr ⟨sum, hx⟩

theorem Inside.blanks (hx : Inside outer x) (h : ∀ c ∈ w, isBlank c) : Inside outer (x ++ w) := by
  obtain ⟨left, hx⟩ | ⟨sum, hx⟩ := hx
  · exact (hx.blanks h).inside
  · exact (hx.blanks h).inside

theorem Inside.viable (hx : Inside outer x) : Viable x := by
  obtain ⟨left, hx⟩ | ⟨sum, hx⟩ := hx
  · exact hx.viable
  · exact hx.viable

theorem Inside.surplus_eq (hx : Inside outer x) : surplus x = outer.length := by
  obtain ⟨left, hx⟩ | ⟨sum, hx⟩ := hx
  · exact hx.surplus_eq
  · exact hx.surplus_eq

/-- The state of the reader after the word is right for the rule to be entered. -/
def Entered : (rule : Nonterminal) → (outer : List (Option (Expression Empty))) → (x : Word) → Prop
  | .root, outer, x | .sum, outer, x => Awaits none outer x
  | .primary, outer, x | .number, outer, x => ∃ left, Awaits left outer x
  | .whitespace, outer, x => Inside outer x

theorem Entered.inside {rule : Nonterminal} (hx : Entered rule outer x) : Inside outer x := by
  cases rule with
  | root | sum => exact Awaits.inside hx
  | primary | number => exact .inl hx
  | whitespace => exact hx

/-- The root is entered first of all. -/
theorem entered_root (t : Text) : Entered .root [] (t.before 0) := Awaits.nil

/-- How many rules may be entered within the rule, one within the other, before another
    parenthesis is opened. -/
def Nonterminal.rank : Nonterminal → Nat
  | .root => 3
  | .sum => 2
  | .primary => 1
  | .number | .whitespace => 0

/-- What the rule tries after the word is right: a sign or a character would lead on to a state,
    and a rule is right to be entered. -/
def Tried (rule : Nonterminal) (outer : List (Option (Expression Empty))) (x : Word) :
    (q : Pattern) → Prop
  | .literal word => ∃ c outer', word = [c] ∧ Inside outer' (x ++ [c])
  | .charClass k => ∀ c, k.accepts c → Inside outer (x ++ [c])
  | .reference name | .skip name => ∃ inner outer', name = inner.name ∧ Entered inner outer' x ∧
    inner.rank + 2 * outer.length < rule.rank + 2 * outer'.length
  | .sequence _ | .choice _ | .repetition _ _ _ => False

/-! ## What the rules try -/

/-- Blanks are tried, or what comes after them. -/
theorem attemptsAll_blanks_iff {items : List Pattern} :
    AttemptsAll rules t (blanks :: items) pos q mid ↔
      q = blanks ∧ mid = pos ∨ AttemptsAll rules t items (skip t pos) q mid := by
  simp only [attemptsAll_cons_iff, derives_blanks_iff, attempts_leaf_iff (p := blanks) rfl]
  refine or_congr_right ⟨?_, fun h => ⟨_, _, ⟨rfl, rfl⟩, h⟩⟩
  rintro ⟨_, _, ⟨rfl, rfl⟩, h⟩
  exact h

/-- A sign is tried, or what comes after it. -/
theorem attemptsAll_sign_iff {c : Char} {items : List Pattern} :
    AttemptsAll rules t (sign c :: items) pos q mid ↔
      q = sign c ∧ mid = pos ∨
        t.rest pos = c :: t.rest (pos + 1) ∧ AttemptsAll rules t items (pos + 1) q mid := by
  simp only [attemptsAll_cons_iff, derives_sign_iff, attempts_leaf_iff (p := sign c) rfl]
  refine or_congr_right ⟨?_, fun ⟨hc, h⟩ => ⟨_, _, ⟨hc, rfl, rfl⟩, h⟩⟩
  rintro ⟨_, _, ⟨hc, rfl, rfl⟩, h⟩
  exact ⟨hc, h⟩

/-- A repeated class is tried after characters of the class. -/
theorem exists_of_attempts_charClass {k : CharClass} {minimum : Int} {maximum : Option Int}
    (h : Attempts rules t (.repetition (.charClass k) minimum maximum) pos q mid) :
    q = .charClass k ∧ ∃ w : Word, (∀ c ∈ w, k.accepts c) ∧ t.before mid = t.before pos ++ w := by
  obtain ⟨n, start, nodes, before, -, h⟩ := attempts_repetition_iff.1 h
  obtain ⟨rfl, rfl⟩ := (attempts_leaf_iff rfl).1 h
  obtain ⟨w, hw, rfl, hrest, rfl, -⟩ := derivesTimes_charClass_iff.1 before
  exact ⟨rfl, w, hw, Text.before_add_of_rest hrest⟩

variable {rule : Nonterminal}

/-- Blanks may be tried in any state. -/
theorem Inside.tried_blanks {outer' : List (Option (Expression Empty))} (hx : Inside outer' x)
    (hrule : 0 < rule.rank) (hle : outer.length ≤ outer'.length) :
    Tried rule outer x Sums.blanks := by
  refine ⟨.whitespace, outer', rfl, hx, ?_⟩
  rw [Nonterminal.rank]
  omega

/-- An operand may be tried where one is awaited. -/
theorem Awaits.tried_primary (hx : Awaits left outer x) :
    Tried .sum outer x (.reference Nonterminal.primary.name) :=
  ⟨.primary, outer, rfl, ⟨left, hx⟩, Nat.add_lt_add_right (by decide) _⟩

theorem tried_further (h : Attempts rules t further pos q mid)
    (hx : Follows sum outer (t.before pos)) : Tried .sum outer (t.before mid) q := by
  rw [further, attempts_sequence_iff, attemptsAll_blanks_iff, attemptsAll_sign_iff,
    attemptsAll_blanks_iff, attemptsAll_singleton_iff, attempts_leaf_iff rfl] at h
  obtain ⟨rfl, rfl⟩ | ⟨rfl, rfl⟩ | ⟨hplus, ⟨rfl, rfl⟩ | ⟨rfl, rfl⟩⟩ := h
  · exact hx.inside.tried_blanks (by decide) (Nat.le_refl _)
  · exact ⟨'+', outer, rfl, hx.skip.plus.inside⟩
  · exact (hx.skip.plus_at hplus).inside.tried_blanks (by decide) (Nat.le_refl _)
  · exact (hx.skip.plus_at hplus).skip.tried_primary

theorem tried_sum (h : AttemptsAll rules t
      [blanks, .reference Nonterminal.primary.name, .repetition further 0 none, blanks] pos q mid)
    (hx : Awaits none outer (t.before pos)) : Tried .sum outer (t.before mid) q := by
  obtain ⟨rfl, rfl⟩ | h := attemptsAll_blanks_iff.1 h
  · exact hx.inside.tried_blanks (by decide) (Nat.le_refl _)
  obtain h | ⟨_, _, hfirst, h⟩ := attemptsAll_cons_iff.1 h
  · obtain ⟨rfl, rfl⟩ := (attempts_leaf_iff rfl).1 h
    exact hx.skip.tried_primary
  obtain ⟨_, hleft⟩ := follows_of_derives_primary (leadSums t _) (Nat.le_refl _) hfirst hx.skip
  obtain h | ⟨_, _, hrest, h⟩ := attemptsAll_cons_iff.1 h
  · obtain ⟨_, _, _, before, -, h⟩ := attempts_repetition_iff.1 h
    obtain ⟨_, he⟩ := follows_of_derivesTimes (leadSums t _) (Nat.le_refl _) before hleft
    exact tried_further h he
  · cases hrest with
    | repetition hrest =>
      obtain ⟨_, he⟩ := follows_of_derivesTimes (leadSums t _) (Nat.le_refl _) hrest hleft
      obtain ⟨rfl, rfl⟩ := (attempts_leaf_iff rfl).1 (attemptsAll_singleton_iff.1 h)
      exact he.inside.tried_blanks (by decide) (Nat.le_refl _)

theorem tried_parens (h : Attempts rules t parens pos q mid)
    (hx : Awaits left outer (t.before pos)) : Tried .primary outer (t.before mid) q := by
  rw [parens, attempts_sequence_iff, attemptsAll_blanks_iff, attemptsAll_sign_iff,
    attemptsAll_blanks_iff] at h
  obtain ⟨rfl, rfl⟩ | ⟨rfl, rfl⟩ | ⟨hopening, ⟨rfl, rfl⟩ | h⟩ := h
  · exact hx.inside.tried_blanks (by decide) (Nat.le_refl _)
  · exact ⟨'(', left :: outer, rfl, hx.skip.opening.inside⟩
  · exact (hx.skip.opening_at hopening).inside.tried_blanks (by decide) (Nat.le_succ _)
  -- In the parentheses, one more sum is put aside.
  have hx := (hx.skip.opening_at hopening).skip
  obtain h | ⟨_, _, hsum, h⟩ := attemptsAll_cons_iff.1 h
  · obtain ⟨rfl, rfl⟩ := (attempts_leaf_iff rfl).1 h
    refine ⟨.sum, left :: outer, rfl, hx, ?_⟩
    rw [List.length_cons, Nonterminal.rank, Nonterminal.rank]
    omega
  obtain ⟨_, he⟩ := follows_of_derives hsum hx
  rw [attemptsAll_blanks_iff, attemptsAll_singleton_iff, sign, attempts_leaf_iff rfl] at h
  obtain ⟨rfl, rfl⟩ | ⟨rfl, rfl⟩ := h
  · exact he.inside.tried_blanks (by decide) (Nat.le_succ _)
  · exact ⟨')', outer, rfl, he.skip.closing.inside⟩

theorem tried_primary (h : AttemptsAll rules t [operand, blanks] pos q mid)
    (hx : Awaits left outer (t.before pos)) : Tried .primary outer (t.before mid) q := by
  obtain h | ⟨last, children, hoperand, h⟩ := attemptsAll_cons_iff.1 h
  · obtain ⟨p, hp, h⟩ := attempts_choice_iff.1 h
    obtain rfl | rfl := by simpa only [List.mem_cons, List.not_mem_nil, or_false] using hp
    · rw [attempts_sequence_iff, attemptsAll_blanks_iff, attemptsAll_singleton_iff,
        attempts_leaf_iff rfl] at h
      obtain ⟨rfl, rfl⟩ | ⟨rfl, rfl⟩ := h
      · exact hx.inside.tried_blanks (by decide) (Nat.le_refl _)
      · exact ⟨.number, outer, rfl, ⟨left, hx.skip⟩, Nat.add_lt_add_right (by decide) _⟩
    · exact tried_parens h hx
  · obtain ⟨_, he⟩ := follows_of_derives_operand (leadSums t _) (Nat.le_refl _) hoperand hx
    obtain ⟨rfl, rfl⟩ := (attempts_leaf_iff rfl).1 (attemptsAll_singleton_iff.1 h)
    exact he.inside.tried_blanks (by decide) (Nat.le_refl _)

/-- What a rule tries is right, if the rule is right to be entered. -/
theorem tried_of_attempts (hp : rules.lookup rule.name = some p)
    (hx : Entered rule outer (t.before pos)) (h : Attempts rules t p pos q mid) :
    Tried rule outer (t.before mid) q := by
  cases rule with
  | root =>
    cases hp
    obtain ⟨rfl, rfl⟩ := (attempts_leaf_iff rfl).1 h
    exact ⟨.sum, outer, rfl, hx, Nat.add_lt_add_right (by decide) _⟩
  | sum =>
    cases hp
    exact tried_sum (attempts_sequence_iff.1 h) hx
  | primary =>
    cases hp
    obtain ⟨left, hx⟩ := hx
    exact tried_primary (attempts_sequence_iff.1 h) hx
  | number =>
    cases hp
    obtain ⟨left, hx⟩ := hx
    obtain ⟨rfl, w, hw, hmid⟩ := exists_of_attempts_charClass (k := digit) h
    rw [accepts_digit] at hw
    intro c hc
    rw [accepts_digit] at hc
    rw [hmid, List.append_assoc]
    have hw' : ∀ d ∈ w ++ [c], d.isDigit :=
      List.forall_mem_append.2 ⟨hw, List.forall_mem_singleton.2 hc⟩
    exact (hx.number (List.append_ne_nil_of_right_ne_nil _ (List.cons_ne_nil _ _)) hw').inside
  | whitespace =>
    cases hp
    obtain ⟨rfl, w, hw, hmid⟩ := exists_of_attempts_charClass (k := blank) h
    rw [accepts_blank] at hw
    intro c hc
    rw [accepts_blank] at hc
    rw [hmid, List.append_assoc]
    exact Inside.blanks hx (List.forall_mem_append.2 ⟨hw, List.forall_mem_singleton.2 hc⟩)

/-- A rule is entered from another one in a state that is right for it. -/
theorem exists_entered_of_enters {name : Word} (hp : rules.lookup rule.name = some p)
    (hx : Entered rule outer (t.before pos)) (h : Enters rules t p pos name mid) :
    ∃ inner outer', name = inner.name ∧ Entered inner outer' (t.before mid) ∧
      inner.rank + 2 * outer.length < rule.rank + 2 * outer'.length :=
  h.elim (tried_of_attempts hp hx) (tried_of_attempts hp hx)

end Descent.Sums
