import Descent.Proofs.Sums.States

/-!
# How deeply sums nest

A search in a text enters two rules for every open parenthesis, a sum and an operand in it, and a
few more (`Nonterminal.rank`). So a text that nests no deeper than `d` is never given up if rules
may be entered within one another `2 * d + 4` times, no matter how long the text is, and whether
it is a sum (`Sums.not_givesUp_of_shallow`).
-/

namespace Descent.Sums

variable {t : Text} {pos n d limit : Nat} {outer : List (Option (Expression Empty))}

/-- As many rules are entered within one another as the nesting of the text allows. -/
theorem le_of_nests (ht : Shallow d t.toList) {name : Word} (h : Nests rules t n name pos)
    (rule : Nonterminal) (hname : name = rule.name) (hx : Entered rule outer (t.before pos)) :
    n + 2 * outer.length ≤ rule.rank + 2 * d := by
  induction h generalizing rule outer with
  | @zero _ pos =>
    have hle := ht (t.before pos) (List.take_prefix pos t.toList)
    rw [hx.inside.surplus_eq] at hle
    omega
  | succ hp h _ ih =>
    subst hname
    obtain ⟨inner, outer', hname, hx, hrank⟩ := exists_entered_of_enters hp hx h
    have := ih inner hname hx
    omega

/-- A text that nests no deeper than the limit allows is not refused as too deep. -/
theorem not_tooDeep_of_shallow (ht : Shallow d t.toList) (hlimit : 2 * d + 4 ≤ limit)
    {furthest : Nat} : parse limit t ≠ .error (.halted .tooDeep furthest) := by
  intro h
  have := le_of_nests ht (Grammar.nests_of_parse h) .root rfl (entered_root t)
  rw [List.length_nil, Nonterminal.rank] at this
  omega

/-- A text that nests no deeper than the limit allows is not given up. -/
theorem not_givesUp_of_shallow (ht : Shallow d t.toList) (hlimit : 2 * d + 4 ≤ limit) :
    ¬GivesUp (read limit t) := by
  intro h
  obtain ⟨furthest, hparse⟩ := h.exists_parse
  exact not_tooDeep_of_shallow ht hlimit hparse

end Descent.Sums
