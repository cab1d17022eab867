import Descent.Proofs.Locality
import Descent.Proofs.Sums.Depth
import Mathlib.Order.Bounds.Basic

/-!
# Where a sum goes wrong

A text that is no sum is refused at the offset up to which it still begins one
(`Sums.refusal_isGreatest`): the characters before can be extended to a sum, and those up to
any later offset cannot.

* What the search reaches leads the reader of tokens to a state, and so is the end of a word that
  begins a sum (`Sums.viable_of_reaches`).
* A text that begins as the refused one, up to a later offset, is searched alike, and so is
  refused as well (`Sums.not_viable_of_lt`).
-/

namespace Descent.Sums

variable {t : Text} {p : Pattern} {pos offset : Nat} {outer : List (Option (Expression Empty))}

/-- What a rule reaches is the end of a word that begins a sum, if the rule is right to be
    entered. -/
theorem viable_of_reaches (rule : Nonterminal) (hp : rules.lookup rule.name = some p)
    (hx : Entered rule outer (t.before pos)) (h : Reaches rules t p pos offset) :
    Viable (t.before offset) := by
  induction h generalizing rule outer with
  | literal h hword =>
    obtain ⟨c, outer', rfl, hx⟩ := tried_of_attempts hp hx h
    rw [List.length_singleton, before_succ (Text.holds_singleton_iff.1 hword)]
    exact hx.viable
  | charClass h hc hk =>
    rw [before_succ (Text.rest_of_getElem? hc)]
    exact (tried_of_attempts hp hx h _ hk).viable
  | enter h hinner _ ih =>
    obtain ⟨inner, outer', rfl, hx, -⟩ := exists_entered_of_enters hp hx h
    exact ih inner hinner hx

/-! ## The offset of a refusal -/

/-- What stands up to an offset beyond the one of the refusal begins no sum. -/
theorem not_viable_of_lt {limit furthest : Nat} (h : parse limit t = .error (.unmatched furthest))
    (hlt : furthest < offset) (hle : offset ≤ t.size) : ¬Viable (t.before offset) := by
  rintro ⟨v, tree, htree⟩
  have hlength : (t.before offset).length = offset := by
    rw [Text.before, List.length_take_of_le (by rwa [Array.length_toList])]
  refine Grammar.not_derivation_of_parse
    (Grammar.parse_of_agree (by decide : rules.LooksAhead 1) Nat.one_pos h ?_) htree
  intro i hi
  rw [List.getElem?_toArray, List.getElem?_append_left (by omega), Text.before,
    List.getElem?_take_of_lt (by omega), Array.getElem?_toList]

/-- A text that is refused as unmatched is so at the end of its longest beginning that can be
    extended to a sum. -/
theorem isGreatest_of_parse {limit furthest : Nat} {t : Text}
    (h : parse limit t = .error (.unmatched furthest)) :
    IsGreatest {n | n ≤ t.size ∧ Viable (t.before n)} furthest := by
  refine ⟨?_, fun n hn => ?_⟩
  · obtain rfl | ⟨p, hp, hroot⟩ := Grammar.reaches_of_parse h
    · exact ⟨Nat.zero_le _, Awaits.nil.viable⟩
    · exact ⟨hroot.le_size, viable_of_reaches .root hp (entered_root t) hroot⟩
  · by_contra hlt
    exact not_viable_of_lt h (Nat.not_le.1 hlt) hn.1 hn.2

/-- A text that has a parse tree is a sum. One that is refused as unmatched is none, and is refused
    at the end of its longest beginning that can be extended to a sum. Only a text that nests too
    deeply for the limit is given up. -/
theorem refusal_isGreatest (limit : Nat) (t : Text) :
    match parse limit t with
    | .ok _ => Acceptable t.toList
    | .error (.halted cause _) =>
      cause = .tooDeep ∧ ¬∃ d : Nat, Shallow d t.toList ∧ 2 * d + 4 ≤ limit
    | .error (.unmatched furthest) =>
      ¬Acceptable t.toList ∧ IsGreatest {n | n ≤ t.size ∧ Viable (t.before n)} furthest := by
  cases h : parse limit t with
  | ok tree => exact ⟨tree, Grammar.derivation_of_parse h⟩
  | error refusal => cases refusal with
    | unmatched furthest =>
      exact ⟨fun ⟨_, htree⟩ => Grammar.not_derivation_of_parse h htree, isGreatest_of_parse h⟩
    | halted cause furthest =>
      obtain rfl : cause = .tooDeep := Grammar.tooDeep_of_parse closed_rules rfl h
      exact ⟨rfl, fun ⟨_, hd, hlimit⟩ => not_tooDeep_of_shallow hd hlimit h⟩

end Descent.Sums
