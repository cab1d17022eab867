import Descent.Proofs.Height
import Descent.Proofs.Sums.Depth
import Mathlib.Order.Bounds.Basic

/-!
# The limit that a text needs

The *nesting* of a word is the largest surplus of open parentheses in any of its beginnings
(`Sums.nesting`, `Sums.isGreatest_nesting`). It decides which limit on nested rules is large enough.

* Under a limit of twice the nesting and four more, a search is never given up, whatever the text
  (`Sums.not_tooDeep_of_shallow`).
* A smaller limit is too small for every sum: a derivation has two nodes within one another for
  each open parenthesis, a sum and an operand in it, and four more around and inside of them
  (`Sums.exists_balanced_of_derives`).

So the length of a text, its operands, its digits and its blanks need no larger limit
(`Sums.tooDeep_iff_nesting`).
-/

namespace Descent.Sums

variable {t : Text} {n pos mid stop : Nat} {nodes : List Tree}

/-! ## Nesting -/

/-- The largest surplus of the beginnings of the word. -/
def nesting (w : Word) : Nat :=
  match w with
  | [] => 0
  | c :: w => (surplus [c] + nesting w).toNat

/-- A word nests no deeper than `d` if its nesting is not above `d`. -/
theorem shallow_iff {d : Int} {w : Word} : Shallow d w ↔ (nesting w : Int) ≤ d := by
  induction w generalizing d with
  | nil => exact shallow_nil_iff
  | cons c w ih =>
    rw [shallow_cons_iff, ih, nesting]
    omega

theorem exists_surplus_eq_nesting (w : Word) : ∃ v, v <+: w ∧ surplus v = nesting w := by
  induction w with
  | nil => exact ⟨[], List.prefix_rfl, rfl⟩
  | cons c w ih =>
    obtain ⟨v, hv, hsurplus⟩ := ih
    rcases Int.le_total (surplus [c] + nesting w) 0 with hle | hle
    · refine ⟨[], List.nil_prefix, ?_⟩
      rw [nesting, surplus_nil]
      omega
    · refine ⟨c :: v, (List.prefix_cons_inj c).2 hv, ?_⟩
      rw [surplus_cons, nesting, hsurplus]
      omega

/-- The nesting is the largest surplus. -/
theorem isGreatest_nesting (w : Word) :
    IsGreatest {n : Int | ∃ v, v <+: w ∧ surplus v = n} (nesting w) := by
  refine ⟨exists_surplus_eq_nesting w, ?_⟩
  rintro _ ⟨v, hv, rfl⟩
  exact shallow_iff.2 (Int.le_refl _) v hv

/-! ## Derivations nest -/

/-- What stands between two offsets closes all its parentheses, and nests no deeper than `n`. -/
def BalancedBetween (t : Text) (n pos stop : Nat) : Prop :=
  ∃ w, t.rest pos = w ++ t.rest stop ∧ Balanced n w

namespace BalancedBetween

theorem refl (t : Text) (pos : Nat) : BalancedBetween t 0 pos pos :=
  ⟨[], rfl, .of_forall (List.forall_mem_nil _) (Int.le_refl _)⟩

theorem mono (h : BalancedBetween t n pos stop) {n' : Nat} (hle : n ≤ n') :
    BalancedBetween t n' pos stop := by
  obtain ⟨w, hrest, hw⟩ := h
  exact ⟨w, hrest, hw.mono (Int.ofNat_le.2 hle)⟩

theorem trans (h : BalancedBetween t n pos mid) (h' : BalancedBetween t n mid stop) :
    BalancedBetween t n pos stop := by
  obtain ⟨v, hv, hbefore⟩ := h
  obtain ⟨w, hw, hlater⟩ := h'
  exact ⟨v ++ w, by rw [hv, hw, List.append_assoc], hbefore.append hlater⟩

/-- Characters other than parentheses do not nest. -/
theorem of_forall {w : Word} (hrest : t.rest pos = w ++ t.rest stop)
    (h : ∀ c ∈ w, c ≠ '(' ∧ c ≠ ')') : BalancedBetween t n pos stop :=
  ⟨w, hrest, .of_forall h (Int.natCast_nonneg n)⟩

theorem skip (t : Text) (n pos : Nat) : BalancedBetween t n pos (skip t pos) := by
  refine of_forall (w := (t.rest pos).takeWhile isBlank) ?_ fun c hc => ?_
  · rw [rest_skip, List.takeWhile_append_dropWhile]
  · have hblank := List.mem_takeWhile_imp hc
    refine ⟨?_, ?_⟩ <;> rintro rfl <;> cases hblank

theorem number {digits : Word} (hdigits : ∀ c ∈ digits, c.isDigit)
    (hrest : t.rest pos = digits ++ t.rest stop) : BalancedBetween t n pos stop := by
  refine of_forall hrest fun c hc => ?_
  have hdigit := hdigits c hc
  refine ⟨?_, ?_⟩ <;> rintro rfl <;> cases hdigit

theorem plus (hplus : t.rest pos = '+' :: t.rest stop) : BalancedBetween t n pos stop :=
  of_forall (w := ['+']) hplus (by simp)

theorem parens {last : Nat} (hopening : t.rest pos = '(' :: t.rest mid)
    (h : BalancedBetween t n mid last) (hclosing : t.rest last = ')' :: t.rest stop) :
    BalancedBetween t (n + 1) pos stop := by
  obtain ⟨w, hrest, hw⟩ := h
  refine ⟨'(' :: (w ++ [')']), ?_, hw.parens⟩
  rw [hopening, hrest, hclosing, List.cons_append, List.append_assoc, List.singleton_append]

end BalancedBetween

open Descent.Tree (heightOfAll)

/-- Sums whose nodes are lower than `size` are balanced, and nest no deeper than the nodes in
    them. -/
def BalancedSums (t : Text) (size : Nat) : Prop :=
  ∀ pos stop nodes, heightOfAll nodes < size →
    Derives rules t (.reference Nonterminal.sum.name) pos stop nodes →
    ∃ n, BalancedBetween t n pos stop ∧ 2 * n + 3 ≤ heightOfAll nodes

theorem BalancedSums.mono {size size' : Nat} (h : BalancedSums t size) (hle : size' ≤ size) :
    BalancedSums t size' :=
  fun _ _ _ hlt => h _ _ _ (Nat.lt_of_lt_of_le hlt hle)

/-- An operand is balanced, as the sums in it are. -/
theorem exists_balanced_of_derives_primary (hsums : BalancedSums t (heightOfAll nodes))
    (h : Derives rules t (.reference Nonterminal.primary.name) pos stop nodes) :
    ∃ n, BalancedBetween t n pos stop ∧ 2 * n + 2 ≤ heightOfAll nodes := by
  obtain ⟨mid, children, hoperand, rfl, rfl⟩ := derives_primary_iff.1 h
  rw [Tree.heightOfAll_singleton, Tree.height_mk] at hsums ⊢
  obtain hnumber | hparens := derives_operand_iff.1 hoperand
  · obtain ⟨digits, -, hdigits, hrest, -, rfl⟩ := derives_number_iff.1 hnumber
    refine ⟨0, (BalancedBetween.skip t 0 pos).trans ((BalancedBetween.number hdigits hrest).trans
      (.skip t 0 mid)), ?_⟩
    rw [Tree.heightOfAll_singleton, Tree.height_mk]
    omega
  · obtain ⟨last, hopening, hsum, hclosing, rfl⟩ := derives_parens_iff.1 hparens
    obtain ⟨n, hinner, hheight⟩ := hsums _ _ _ (Nat.lt_succ_self _) hsum
    have hbalanced := BalancedBetween.parens hopening
      (((BalancedBetween.skip t n _).trans hinner).trans (.skip t n last)) hclosing
    exact ⟨n + 1, (BalancedBetween.skip t (n + 1) pos).trans (hbalanced.trans (.skip t _ _)),
      by omega⟩

/-- Further operands are balanced, as the sums in them are. -/
theorem exists_balanced_of_derivesTimes {count : Nat} (hsums : BalancedSums t (heightOfAll nodes))
    (h : DerivesTimes rules t further count pos stop nodes) :
    ∃ n, BalancedBetween t n pos stop ∧ 2 * n + 2 ≤ max 2 (heightOfAll nodes) := by
  induction count generalizing pos nodes with
  | zero =>
    cases h
    exact ⟨0, .refl t stop, Nat.le_max_left _ _⟩
  | succ count ih =>
    cases h with
    | succ h _ rest =>
      rename_i mid before later
      rw [Tree.heightOfAll_append] at hsums ⊢
      obtain ⟨hplus, hprimary⟩ := derives_further_iff.1 h
      obtain ⟨m, hfirst, hm⟩ :=
        exists_balanced_of_derives_primary (hsums.mono (Nat.le_max_left _ _)) hprimary
      obtain ⟨n, hrest, hn⟩ := ih (hsums.mono (Nat.le_max_right _ _)) rest
      have hoperand := (BalancedBetween.skip t (max m n) pos).trans
        ((BalancedBetween.plus hplus).trans ((BalancedBetween.skip t (max m n) _).trans
          (hfirst.mono (Nat.le_max_left m n))))
      exact ⟨max m n, hoperand.trans (hrest.mono (Nat.le_max_right m n)), by omega⟩

/-- What is derived by a sum is balanced. For every parenthesis that is open in it at once, there
    are two nodes within one another, and three more around the innermost number. -/
theorem exists_balanced_of_derives
    (h : Derives rules t (.reference Nonterminal.sum.name) pos stop nodes) :
    ∃ n, BalancedBetween t n pos stop ∧ 2 * n + 3 ≤ heightOfAll nodes := by
  -- By induction on the height: a sum in parentheses is lower than the one around it.
  induction hsize : heightOfAll nodes using Nat.strongRecOn generalizing pos stop nodes with
  | ind size ih =>
    have hsums : BalancedSums t size := fun _ _ _ hlt hsum => ih _ hlt hsum rfl
    obtain ⟨mid, last, count, before, later, hfirst, hrest, rfl, rfl⟩ := derives_sum_iff.1 h
    rw [Tree.heightOfAll_singleton, Tree.height_mk, Tree.heightOfAll_append] at hsize
    obtain ⟨m, hfirst, hm⟩ := exists_balanced_of_derives_primary (hsums.mono (by omega)) hfirst
    obtain ⟨n, hrest, hn⟩ := exists_balanced_of_derivesTimes (hsums.mono (by omega)) hrest
    have hoperand := (BalancedBetween.skip t (max m n) pos).trans
      (hfirst.mono (Nat.le_max_left m n))
    exact ⟨max m n, (hoperand.trans (hrest.mono (Nat.le_max_right m n))).trans (.skip t _ last),
      by omega⟩

/-- A text that is derived is balanced, and the tree is as high as it nests. -/
theorem exists_balanced_of_derivation {tree : Tree} (h : grammar.Derivation t tree) :
    ∃ n : Nat, Balanced n t.toList ∧ 2 * n + 4 ≤ tree.height := by
  obtain ⟨hsum, htree⟩ := derivation_iff.1 h
  obtain ⟨n, ⟨w, hrest, hw⟩, hheight⟩ := exists_balanced_of_derives hsum
  rw [Text.rest_zero, Text.rest_size, List.append_nil] at hrest
  refine ⟨n, hrest ▸ hw, ?_⟩
  rw [htree, Tree.height_mk]
  omega

/-- A text that is parsed is balanced, and nests no deeper than the limit allows. -/
theorem exists_balanced_of_parse {limit : Nat} {tree : Tree} (h : parse limit t = .ok tree) :
    ∃ n : Nat, Balanced n t.toList ∧ 2 * n + 4 ≤ limit := by
  obtain ⟨n, hn, hheight⟩ := exists_balanced_of_derivation (Grammar.derivation_of_parse h)
  exact ⟨n, hn, Nat.le_trans hheight (Grammar.height_le_of_parse h)⟩

/-- A sum that nests too deeply for the limit is given up. -/
theorem exists_tooDeep_of_lt {limit : Nat} (ht : Acceptable t.toList)
    (hlimit : limit < 2 * nesting t.toList + 4) :
    ∃ furthest, parse limit t = .error (.halted .tooDeep furthest) := by
  obtain ⟨tree, htree⟩ := ht
  rw [Array.toArray_toList] at htree
  cases hparse : parse limit t with
  | ok tree' =>
    obtain ⟨n, hn, hle⟩ := exists_balanced_of_parse hparse
    have := shallow_iff.1 hn.shallow
    omega
  | error refusal => cases refusal with
    | unmatched furthest => exact absurd htree (Grammar.not_derivation_of_parse hparse)
    | halted cause furthest =>
      exact ⟨furthest, by rw [Grammar.tooDeep_of_parse closed_rules rfl hparse]⟩

/-- The parse tree of a text is as high as the text nests: it has two nodes for every parenthesis
    that is open at once, and four more. -/
theorem height_eq_of_parse {limit : Nat} {tree : Tree} (h : parse limit t = .ok tree) :
    tree.height = 2 * nesting t.toList + 4 := by
  obtain ⟨n, hn, hle⟩ := exists_balanced_of_derivation (Grammar.derivation_of_parse h)
  have hnesting := shallow_iff.1 hn.shallow
  -- Under the least limit that is large enough, the tree is the same.
  have hshallow : Shallow (nesting t.toList) t.toList := shallow_iff.2 (Int.le_refl _)
  have hleast := grammar.parse_eq_of_not_tooDeep rfl (t := t)
    (fun _ => not_tooDeep_of_shallow hshallow (Nat.le_refl _))
    (fun furthest hdeep => nomatch h.symm.trans hdeep)
  have := Grammar.height_le_of_parse (hleast.symm.trans h)
  omega

/-- Under a limit of twice the nesting of a text and four more, the parser does not give up, however
    long the text is and whether it is a sum or not. Under a smaller limit it gives up every sum. -/
theorem tooDeep_iff_nesting (t : Text) :
    IsGreatest {n : Int | ∃ v, v <+: t.toList ∧ surplus v = n} (nesting t.toList) ∧
    ∀ limit : Nat,
      (2 * nesting t.toList + 4 ≤ limit →
        ∀ furthest, parse limit t ≠ .error (.halted .tooDeep furthest)) ∧
      (Acceptable t.toList →
        ((∃ furthest, parse limit t = .error (.halted .tooDeep furthest)) ↔
          limit < 2 * nesting t.toList + 4)) := by
  have hshallow : Shallow (nesting t.toList) t.toList := shallow_iff.2 (Int.le_refl _)
  refine ⟨isGreatest_nesting t.toList, fun limit => ⟨fun hlimit _ => ?_, fun ht => ⟨?_, ?_⟩⟩⟩
  · exact not_tooDeep_of_shallow hshallow hlimit
  · rintro ⟨furthest, hdeep⟩
    by_contra hlimit
    exact not_tooDeep_of_shallow hshallow (Nat.not_lt.1 hlimit) hdeep
  · exact exists_tooDeep_of_lt ht

/-- The text `((1))+2` nests twice, and so is given up under the limit `7`, but not under `8`. -/
theorem tooDeep_nested :
    let t : Text := #['(', '(', '1', ')', ')', '+', '2']
    nesting t.toList = 2 ∧ Acceptable t.toList ∧
      (∀ furthest, parse 8 t ≠ .error (.halted .tooDeep furthest)) ∧
      ∃ furthest, parse 7 t = .error (.halted .tooDeep furthest) := by
  intro t
  have hnesting : nesting t.toList = 2 := by decide
  have ht : Acceptable t.toList := by
    have hread : (readTokenwise t.toList).isSome := by decide +kernel
    exact acceptable_iff.2 (Option.isSome_iff_exists.1 hread)
  have h := (tooDeep_iff_nesting t).2
  rw [hnesting] at h
  exact ⟨hnesting, ht, (h 8).1 (by decide), ((h 7).2 ht).2 (by decide)⟩

end Descent.Sums
