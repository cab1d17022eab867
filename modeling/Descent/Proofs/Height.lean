import Descent.Proofs.Enumeration

/-!
# The height of a parse tree

Every node of a parse tree stands for a rule that is entered, and a node inside of another one for
a rule that is entered within the other. So what is found when rules may be entered within one
another `limit` times has no more than `limit` nodes within one another (`Tree.height`,
`Grammar.height_le_of_parse`). A text all of whose derivations are higher is not parsed under that
limit.
-/

namespace Descent

namespace Tree

variable {name : Word} {t : Text} {start stop : Int} {trees later : List Tree}

theorem heightOfAll_append (trees later : List Tree) :
    heightOfAll (trees ++ later) = max (heightOfAll trees) (heightOfAll later) := by
  induction trees with
  | nil => exact (Nat.zero_max _).symm
  | cons tree trees ih => rw [List.cons_append, heightOfAll, ih, heightOfAll, Nat.max_assoc]

@[simp] theorem heightOfAll_singleton (tree : Tree) : heightOfAll [tree] = tree.height :=
  Nat.max_zero _

@[simp] theorem height_mk : height ⟨name, t, start, stop, trees⟩ = heightOfAll trees + 1 := by
  rw [height]

end Tree

variable {t : Text}

/-- The nodes of the matches that are listed are lower than `n`. -/
def Low (n : Nat) (f : Nat → Listing Extent) : Prop :=
  ∀ pos, ∀ e ∈ (f pos).results, Tree.heightOfAll e.nodes < n

/-- A pattern adds one node at most around those of the rules. -/
theorem Pattern.low_listing {n : Nat} {enter : Word → Nat → Listing Extent}
    (henter : ∀ name, Low n (enter name)) (p : Pattern) : Low (n + 1) (p.listing t enter) := by
  have hinherited : Inherited t enter fun _ e => Tree.heightOfAll e.nodes < n + 1 :=
    { empty := fun _ _ _ _ => Nat.succ_pos n
      after := fun _ e e' he he' => by
        rw [Extent.after, Tree.heightOfAll_append]
        exact Nat.max_lt.2 ⟨he, he'⟩
      reference := fun name pos e he => by
        rw [Tree.heightOfAll_singleton, Extent.toTree, Tree.height_mk]
        exact Nat.succ_lt_succ (henter name pos e he)
      skip := fun _ _ _ _ => Nat.succ_pos n }
  exact hinherited.of_mem_listing p

/-- The nodes in a match of a rule are lower than the limit, as the rule itself is entered, too. -/
theorem Rules.low_listing (rules : Rules) (t : Text) (limit : Nat) (name : Word) :
    Low limit (rules.listing t limit name) := by
  induction limit generalizing name with
  | zero =>
    intro pos e he
    rw [listing] at he
    split at he <;> cases he
  | succ limit ih =>
    intro pos e he
    rw [listing] at he
    split at he
    · cases he
    · exact Pattern.low_listing ih _ pos e he

/-- A parse tree has no more nodes within one another than rules may be entered. -/
theorem Grammar.height_le_of_parse {g : Grammar} {limit : Nat} {tree : Tree}
    (h : g.parse limit t = .ok tree) : tree.height ≤ limit := by
  rw [parse_eq] at h
  split at h
  · rename_i e he
    cases h
    rw [Extent.toTree, Tree.height_mk]
    exact g.rules.low_listing t limit g.root 0 e (List.mem_of_find?_eq_some he)
  · cases h

end Descent
