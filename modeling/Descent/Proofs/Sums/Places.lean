import Descent.Proofs.Outcome
import Descent.Proofs.Sums.Shape
import Descent.Proofs.Sums.Value

/-!
# Where the nodes of a tree end up

When a tree gives an expression, all of its nodes do, and each of these expressions has its place in
the whole one (`Expression.PartAt`): behind the numbers of the nodes that come before the node. A
sum has the expressions of its children as operands, from left to right, and any other node but a
number has that of its only child (`Sums.ofTree_eq_ok`).

So no number is lost, repeated or moved: those of the expression are read from the texts of the
nodes for numbers, in the order of the tree (`Sums.ofTree_places`). This holds for every tree
that gives an expression, be it of the shape that the grammar gives it or not.
-/

namespace Descent

variable {φ : Type}

namespace Expression

/-! ## Operands -/

/-- To add the expressions of some trees is to find all of them and to fold them up from left to
    right. -/
theorem addOperands_eq_mapM (left : Expression φ) (trees : List Tree) :
    addOperands left trees = (trees.mapM ofTree).map (List.foldl .plus left) := by
  induction trees generalizing left with
  | nil => rfl
  | cons tree trees ih =>
    rw [addOperands, List.mapM_cons]
    cases ofTree (φ := φ) tree with
    | error e => rfl
    | ok right =>
      change addOperands (.plus left right) trees = _
      rw [ih]
      cases List.mapM (ofTree (φ := φ)) trees <;> rfl

/-- The operands of a sum are given by all of its trees. -/
theorem addOperands_eq_ok_iff {left e : Expression φ} {trees : List Tree} :
    addOperands left trees = .ok e ↔
      ∃ operands, trees.mapM ofTree = .ok operands ∧ operands.foldl .plus left = e := by
  rw [addOperands_eq_mapM]
  cases List.mapM (ofTree (φ := φ)) trees <;> simp [Except.map]

theorem numbers_foldl (first : Expression φ) (operands : List (Expression φ)) :
    (operands.foldl .plus first).numbers = (first :: operands).flatMap numbers := by
  induction operands generalizing first with
  | nil => rw [List.foldl_nil, List.flatMap_singleton]
  | cons operand operands ih =>
    rw [List.foldl_cons, ih, List.flatMap_cons, numbers, List.append_assoc]
    rfl

/-! ## Parts -/

/-- The expression `part` stands in another one, behind the numbers `before`. -/
inductive PartAt (part : Expression φ) : (before : List Nat) → (whole : Expression φ) → Prop
  /-- The whole expression. -/
  | whole : PartAt part [] part
  /-- A part of the left operand. -/
  | left {before : List Nat} {left : Expression φ} (right : Expression φ)
    (h : PartAt part before left) : PartAt part before (.plus left right)
  /-- A part of the right operand. -/
  | right {before : List Nat} (left : Expression φ) {right : Expression φ}
    (h : PartAt part before right) : PartAt part (left.numbers ++ before) (.plus left right)

/-- What stands in the first operand keeps its place when others are added. -/
theorem PartAt.foldl {part first : Expression φ} {before : List Nat} (h : PartAt part before first)
    (operands : List (Expression φ)) : PartAt part before (operands.foldl .plus first) := by
  induction operands generalizing first with
  | nil => exact h
  | cons operand operands ih => exact ih (h.left operand)

end Expression

open Sums (Nonterminal)
open Expression (ofTree addOperands PartAt)

namespace Sums

variable {node tree : Tree} {trees nodes later : List Tree} {e left : Expression φ}
  {before ns ms : List Nat}

/-! ## One node -/

theorem accepted_of_ofTree (h : ofTree node = .ok e) : Accepted node := by
  have hjudges : Judges node.nodes (ofTree node : Except TreeError (Expression φ)) :=
    judges_ofTree node
  rw [h] at hjudges
  exact hjudges node (by rw [Tree.nodes_eq]; exact List.mem_cons_self)

/-- A node that gives an expression is a number, or else has children whose expressions are added
    from left to right, which is nothing but the expression of an only child. -/
theorem ofTree_eq_ok (h : ofTree node = .ok e) :
    (node.name = Nonterminal.number.name ∧ node.children = [] ∧
      ∃ n : Nat, Numeral.read node.text = .ok n ∧ e = .number n) ∨
    node.name ≠ Nonterminal.number.name ∧ ∃ first operands,
      node.children.mapM ofTree = .ok (first :: operands) ∧ e = operands.foldl .plus first := by
  obtain ⟨rule, hname, haccepts⟩ := accepted_of_ofTree h
  obtain ⟨name, source, start, stop, children⟩ := node
  obtain rfl : name = rule.name := hname
  simp only [ne_eq, Nonterminal.name_inj]
  cases rule with
  | root =>
    obtain ⟨child, rfl⟩ := haccepts
    have hchild : ofTree child = .ok e := h
    exact .inr ⟨nofun, e, [], mapM_eq_ok_iff.2 (.cons hchild .nil), rfl⟩
  | sum =>
    obtain ⟨child, children, rfl⟩ := List.exists_cons_of_ne_nil haccepts
    have hsum : ofTree child >>= (addOperands · children) = .ok e := h
    obtain ⟨first, hfirst, hrest⟩ := bind_eq_ok_iff.1 hsum
    obtain ⟨operands, hoperands, rfl⟩ := Expression.addOperands_eq_ok_iff.1 hrest
    refine .inr ⟨nofun, first, operands, ?_, rfl⟩
    exact mapM_eq_ok_iff.2 (.cons hfirst (mapM_eq_ok_iff.1 hoperands))
  | primary =>
    obtain ⟨child, rfl, hchild⟩ := haccepts
    have hprimary : ite _ (ofTree child) _ = Except.ok e := h
    rw [if_pos hchild] at hprimary
    exact .inr ⟨nofun, e, [], mapM_eq_ok_iff.2 (.cons hprimary .nil), rfl⟩
  | number =>
    obtain ⟨rfl, n, hn⟩ := haccepts
    have hnumber : Expression.ofNumeral (source.slice start stop) = .ok e := h
    rw [Expression.ofNumeral, show Numeral.read (source.slice start stop) = .ok n from hn]
      at hnumber
    cases hnumber
    exact .inl ⟨rfl, rfl, n, hn, rfl⟩
  | whitespace => cases haccepts

/-! ## The numbers of nodes -/

/-- The texts of the numbers among the nodes are read as the numbers, in order. -/
def Numbered (nodes : List Tree) (ns : List Nat) : Prop :=
  (nodes.filter (·.name = Nonterminal.number.name)).map (Numeral.read ·.text) =
    ns.map fun n => .ok (n : Int)

theorem Numbered.nil : Numbered [] [] := rfl

theorem Numbered.append (h : Numbered nodes ns) (hlater : Numbered later ms) :
    Numbered (nodes ++ later) (ns ++ ms) := by
  rw [Numbered, List.filter_append, List.map_append, List.map_append, h, hlater]

theorem numbered_number {n : Nat} (hname : node.name = Nonterminal.number.name)
    (hread : Numeral.read node.text = .ok n) : Numbered [node] [n] := by
  rw [Numbered, List.filter_cons_of_pos (by simpa using hname), List.filter_nil,
    List.map_singleton, List.map_singleton, hread]

/-- Other nodes bring no numbers. -/
theorem numbered_of_ne (hname : node.name ≠ Nonterminal.number.name) : Numbered [node] [] := by
  rw [Numbered, List.filter_cons_of_neg (by simpa using hname)]
  rfl

mutual

/-- The numbers of an expression are those of the nodes of its tree. -/
theorem numbered_of_ofTree {e : Expression φ} :
    ∀ {tree : Tree}, ofTree tree = .ok e → Numbered tree.nodes e.numbers
  | ⟨name, source, start, stop, children⟩, h => by
    obtain ⟨hname, hchildren, n, hn, rfl⟩ | ⟨hname, first, operands, hoperands, rfl⟩ :=
      ofTree_eq_ok h
    · obtain rfl : children = [] := hchildren
      exact numbered_number hname hn
    · rw [Expression.numbers_foldl, Tree.nodes]
      exact (numbered_of_ne hname).append (numbered_of_mapM (mapM_eq_ok_iff.1 hoperands))

theorem numbered_of_mapM : ∀ {trees : List Tree} {operands : List (Expression φ)},
    List.Forall₂ (ofTree · = .ok ·) trees operands →
    Numbered (Tree.nodesOfAll trees) (operands.flatMap Expression.numbers)
  | [], _, .nil => .nil
  | _ :: _, _, .cons h rest => (numbered_of_ofTree h).append (numbered_of_mapM rest)

end

/-! ## The places of nodes -/

/-- Each of the nodes gives an expression that stands in `e`, behind the numbers `before` and those
    of the nodes before it. -/
def Placed (before : List Nat) (nodes : List Tree) (e : Expression φ) : Prop :=
  ∀ earlier node later, nodes = earlier ++ node :: later →
    ∃ ns part, Numbered earlier ns ∧ ofTree node = .ok part ∧ PartAt part (before ++ ns) e

theorem Placed.nil : Placed before [] e := fun _ _ _ h => by simp at h

theorem Placed.single {part : Expression φ} (hpart : ofTree node = .ok part)
    (hplace : PartAt part before e) : Placed before [node] e := by
  intro earlier other later h
  obtain ⟨rfl, h⟩ | ⟨_, -, h⟩ := List.cons_eq_append_iff.1 h
  · cases h
    exact ⟨[], part, .nil, hpart, by rwa [List.append_nil]⟩
  · simp at h

theorem Placed.append (h : Placed before nodes e) (hnodes : Numbered nodes ns)
    (hlater : Placed (before ++ ns) later e) : Placed before (nodes ++ later) e := by
  intro earlier node rest heq
  have hbehind (middle : List Tree) (hmiddle : later = middle ++ node :: rest) :
      ∃ ms part, Numbered (nodes ++ middle) ms ∧ ofTree node = .ok part ∧
        PartAt part (before ++ ms) e := by
    obtain ⟨ms, part, hms, hpart, hplace⟩ := hlater middle node rest hmiddle
    exact ⟨ns ++ ms, part, hnodes.append hms, hpart, by rwa [← List.append_assoc]⟩
  obtain ⟨middle, rfl, hmiddle⟩ | ⟨middle, rfl, hmiddle⟩ := List.append_eq_append_iff.1 heq
  · exact hbehind middle hmiddle
  · obtain ⟨rfl, hfirst⟩ | ⟨middle, rfl, -⟩ := List.cons_eq_append_iff.1 hmiddle
    · simpa only [List.append_nil] using hbehind [] hfirst
    · exact h earlier node middle rfl

/-- What is placed in a part of an expression is placed in the whole one. -/
theorem Placed.mono {whole : Expression φ} (h : Placed before nodes e) (start : List Nat)
    (hpart : ∀ {part : Expression φ} {ns : List Nat}, PartAt part (before ++ ns) e →
      PartAt part (start ++ (before ++ ns)) whole) : Placed (start ++ before) nodes whole := by
  intro earlier node later heq
  obtain ⟨ns, part, hns, hnode, hplace⟩ := h earlier node later heq
  exact ⟨ns, part, hns, hnode, by rw [List.append_assoc]; exact hpart hplace⟩

mutual

/-- All nodes of a tree have their places in its expression. -/
theorem placed_of_ofTree {e : Expression φ} :
    ∀ {tree : Tree}, ofTree tree = .ok e → Placed [] tree.nodes e
  | ⟨name, source, start, stop, children⟩, h => by
    have hroot := Placed.single h .whole
    rw [Tree.nodes]
    obtain ⟨hname, hchildren, n, hn, -⟩ | ⟨hname, first, operands, hoperands, rfl⟩ :=
      ofTree_eq_ok h
    · obtain rfl : children = [] := hchildren
      exact hroot
    · rw [Tree.children, mapM_eq_ok_iff] at hoperands
      refine hroot.append (numbered_of_ne hname) ?_
      match children, hoperands with
      | child :: children, .cons hfirst hrest =>
        -- The first operand begins where the sum begins, and the others follow.
        have hchild := (placed_of_ofTree hfirst).mono [] fun h => h.foldl operands
        exact hchild.append (numbered_of_ofTree hfirst) (placed_of_mapM first hrest)

theorem placed_of_mapM (left : Expression φ) : ∀ {trees : List Tree}
    {operands : List (Expression φ)}, List.Forall₂ (ofTree · = .ok ·) trees operands →
    Placed left.numbers (Tree.nodesOfAll trees) (operands.foldl .plus left)
  | [], _, .nil => .nil
  | tree :: trees, operand :: operands, .cons h rest => by
    have htree := (placed_of_ofTree h).mono left.numbers fun h =>
      (h.right left).foldl operands
    rw [List.append_nil] at htree
    exact htree.append (numbered_of_ofTree h) (placed_of_mapM (.plus left operand) rest)

end

/-- In a tree that gives an expression, the texts of the nodes for numbers are read as the numbers of
    the expression, in order, and the value is their sum. Every node gives an expression that stands
    behind the numbers of the nodes before it, and a sum adds those of its children from left to
    right. -/
theorem ofTree_places {e : Expression Empty} (h : ofTree tree = .ok e) :
    Numbered tree.nodes e.numbers ∧ e.value = .ok e.numbers.sum ∧
    ∀ earlier node later, tree.nodes = earlier ++ node :: later → ∃ ns part,
      Numbered earlier ns ∧ ofTree node = .ok part ∧ PartAt part ns e ∧
      (node.name = Nonterminal.sum.name → ∃ first operands,
        node.children.mapM ofTree = .ok (first :: operands) ∧
        part = operands.foldl .plus first) := by
  refine ⟨numbered_of_ofTree h, ?_, fun earlier node later hnodes => ?_⟩
  · rw [Expression.value_eq_sum, Expression.sum_eq_numbers]
  · obtain ⟨ns, part, hns, hpart, hplace⟩ := placed_of_ofTree h earlier node later hnodes
    refine ⟨ns, part, hns, hpart, hplace, fun hname => ?_⟩
    obtain ⟨hnumber, -⟩ | ⟨-, hoperands⟩ := ofTree_eq_ok hpart
    · cases Nonterminal.name_inj.1 (hname.symm.trans hnumber)
    · exact hoperands

/-- A node for one of the digits in the text `123`. -/
def digitNode (pos : Nat) : Tree :=
  ⟨Nonterminal.number.name, #['1', '2', '3'], pos, (pos + 1 : Nat), []⟩

/-- A node for a sum in the text `123`. -/
def sumNode (children : List Tree) : Tree :=
  ⟨Nonterminal.sum.name, #['1', '2', '3'], 0, 3, children⟩

/-- The grammar cannot produce a sum among the operands of a sum, but it is added in its place. -/
theorem ofTree_sumInSum :
    let inner := sumNode [digitNode 1, digitNode 2]
    let tree := sumNode [digitNode 0, inner]
    let e : Expression Empty := .plus (.number 1) (.plus (.number 2) (.number 3))
    ofTree tree = .ok e ∧ Numbered tree.nodes [1, 2, 3] ∧ e.value = .ok 6 ∧
      ∃ ns part, Numbered [tree, digitNode 0] ns ∧ ofTree inner = .ok part ∧ PartAt part ns e := by
  intro inner tree e
  have hdigit (pos : Nat) (c : Char) (w : Word) (hrest : Text.rest #['1', '2', '3'] pos = [c] ++ w)
      (hc : c.isDigit) : ofTree (digitNode pos) =
        .ok (.number (Nat.ofDigitChars 10 [c] 0) : Expression Empty) :=
    ofTree_number hrest (List.forall_mem_singleton.2 hc)
  have hinner : ofTree inner = .ok (.plus (.number 2) (.number 3) : Expression Empty) :=
    ofTree_sum (hdigit 1 '2' ['3'] rfl rfl) (by rw [addOperands, hdigit 2 '3' [] rfl rfl]; rfl)
  have htree : ofTree tree = .ok e :=
    ofTree_sum (hdigit 0 '1' ['2', '3'] rfl rfl) (by rw [addOperands, hinner]; rfl)
  obtain ⟨hnumbered, hvalue, hplaces⟩ := ofTree_places htree
  obtain ⟨ns, part, hns, hpart, hplace, -⟩ := hplaces [tree, digitNode 0] inner _ rfl
  exact ⟨htree, hnumbered, hvalue, ns, part, hns, hpart, hplace⟩

end Sums

end Descent
