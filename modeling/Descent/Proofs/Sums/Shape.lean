import Descent.Proofs.Leaves
import Descent.Proofs.Sums.Derivation

/-!
# The shape of trees

What is looked at when the expression of a tree is taken, node by node. A tree gives an expression
exactly if every node in it is accepted on its own (`Sums.Accepted`), and an error is about the
first node, each before its children, that is not (`Sums.ofTree_outcome`).

* The nodes of a parse tree have the shape that the grammar gives them (`Sums.Shaped`), and so each
  of them gives an expression, whatever rule is the root (`Sums.exists_ofTree_of_parse`).
* Some nodes are accepted that the grammar cannot produce, as the names under a root or a sum are
  not looked at (`Sums.ofTree_numberInRoot`).
-/

namespace Descent

open Sums (Nonterminal)

/-! ## Nodes -/

namespace Sums

/-- The grammar gives these children to a node of the rule. -/
def Nonterminal.Shapes : (rule : Nonterminal) → (children : List Tree) → Prop
  | .root, children => ∃ child, children = [child] ∧ child.name = Nonterminal.sum.name
  | .sum, children => children ≠ [] ∧ ∀ child ∈ children, child.name = Nonterminal.primary.name
  | .primary, children => ∃ child, children = [child] ∧
    (child.name = Nonterminal.number.name ∨ child.name = Nonterminal.sum.name)
  | .number, children => children = []
  | .whitespace, _ => False

/-- The node has the shape that the grammar gives it. -/
def Shaped (node : Tree) : Prop :=
  ∃ rule : Nonterminal, node.name = rule.name ∧ rule.Shapes node.children

/-- The node gives an expression by the rule if its children do. The names under a root or a sum do
    not matter, but the text of a number does. -/
def Nonterminal.Accepts : (rule : Nonterminal) → (node : Tree) → Prop
  | .root, node => ∃ child, node.children = [child]
  | .sum, node => node.children ≠ []
  | .primary, node => ∃ child, node.children = [child] ∧
    (child.name = Nonterminal.number.name ∨ child.name = Nonterminal.sum.name)
  | .number, node => node.children = [] ∧ ∃ n : Nat, Numeral.read node.text = .ok n
  | .whitespace, _ => False

/-- The node gives an expression if its children do. -/
def Accepted (node : Tree) : Prop :=
  ∃ rule : Nonterminal, node.name = rule.name ∧ rule.Accepts node

end Sums

open Sums (Accepted Shaped)

/-- The error tells why the node is not accepted. -/
def TreeError.Blames (node : Tree) : (e : TreeError) → Prop
  | .unknown name => node.name = name ∧ ∀ rule : Nonterminal, name ≠ rule.name
  | .noNode name => node.name = name ∧ name = Nonterminal.whitespace.name
  | .childCount name count => node.name = name ∧
    (name = Nonterminal.root.name ∨ name = Nonterminal.primary.name) ∧
    node.children.length = count ∧ count ≠ 1
  | .noOperands => node.name = Nonterminal.sum.name ∧ node.children = []
  | .operand name => node.name = Nonterminal.primary.name ∧ ∃ child, node.children = [child] ∧
    child.name = name ∧ name ≠ Nonterminal.number.name ∧ name ≠ Nonterminal.sum.name
  | .numberChildren => node.name = Nonterminal.number.name ∧ node.children ≠ []
  | .numeral e => node.name = Nonterminal.number.name ∧ node.children = [] ∧
    Numeral.read node.text = .error e
  | .number .negative => node.name = Nonterminal.number.name ∧ node.children = [] ∧
    ∃ n < 0, Numeral.read node.text = .ok n

namespace Sums

variable {φ α β : Type} {node tree : Tree} {nodes later : List Tree} {e : TreeError}

/-- A name tells the rule. -/
theorem exists_name_eq_iff {P : Nonterminal → Prop} {rule : Nonterminal} {w : Word}
    (hname : w = rule.name) : (∃ other : Nonterminal, w = other.name ∧ P other) ↔ P rule := by
  refine ⟨fun ⟨other, hother, h⟩ => ?_, fun h => ⟨rule, hname, h⟩⟩
  rwa [Nonterminal.name_inj.1 (hname.symm.trans hother)]

theorem shaped_iff {rule : Nonterminal} (hname : node.name = rule.name) :
    Shaped node ↔ rule.Shapes node.children :=
  exists_name_eq_iff hname

theorem accepted_iff {rule : Nonterminal} (hname : node.name = rule.name) :
    Accepted node ↔ rule.Accepts node :=
  exists_name_eq_iff hname

/-- A node that is blamed is not accepted. -/
theorem not_accepted_of_blames (h : e.Blames node) : ¬Accepted node := by
  cases e with
  | unknown name =>
    obtain ⟨rfl, hunknown⟩ := h
    exact fun ⟨rule, hname, _⟩ => hunknown rule hname
  | noNode name =>
    obtain ⟨rfl, hname⟩ := h
    rw [accepted_iff hname]
    exact id
  | childCount name count =>
    obtain ⟨rfl, hname, rfl, hcount⟩ := h
    obtain hname | hname := hname <;> rw [accepted_iff hname]
    · rintro ⟨child, hchildren⟩
      exact hcount (by rw [hchildren, List.length_singleton])
    · rintro ⟨child, hchildren, -⟩
      exact hcount (by rw [hchildren, List.length_singleton])
  | noOperands =>
    rw [accepted_iff h.1]
    exact fun hne => hne h.2
  | operand name =>
    obtain ⟨hname, child, hchildren, rfl, hnumber, hsum⟩ := h
    rw [accepted_iff hname]
    rintro ⟨other, hother, hoperand⟩
    cases hchildren.symm.trans hother
    exact hoperand.elim hnumber hsum
  | numberChildren =>
    rw [accepted_iff h.1]
    exact fun hnumber => h.2 hnumber.1
  | numeral e =>
    obtain ⟨hname, -, hread⟩ := h
    rw [accepted_iff hname]
    rintro ⟨-, n, hn⟩
    cases hread.symm.trans hn
  | number e =>
    obtain ⟨⟩ := e
    obtain ⟨hname, -, n, hneg, hread⟩ := h
    rw [accepted_iff hname]
    rintro ⟨-, m, hm⟩
    cases hread.symm.trans hm
    omega

/-! ## From node to node -/

/-- The outcome is right about the nodes: either all of them are accepted, or the error blames the
    first one that is not. -/
def Judges (nodes : List Tree) : (outcome : Except TreeError α) → Prop
  | .ok _ => ∀ node ∈ nodes, Accepted node
  | .error e => ∃ before node after, nodes = before ++ node :: after ∧
    (∀ earlier ∈ before, Accepted earlier) ∧ e.Blames node

theorem Judges.of_blames (h : e.Blames node) :
    Judges (node :: nodes) (.error e : Except TreeError α) :=
  ⟨[], node, nodes, rfl, nofun, h⟩

theorem Judges.cons {outcome : Except TreeError α} (hnode : Accepted node)
    (h : Judges nodes outcome) : Judges (node :: nodes) outcome := by
  cases outcome with
  | ok => exact List.forall_mem_cons.2 ⟨hnode, h⟩
  | error e =>
    obtain ⟨before, other, after, rfl, hbefore, hblames⟩ := h
    exact ⟨node :: before, other, after, rfl, List.forall_mem_cons.2 ⟨hnode, hbefore⟩, hblames⟩

theorem Judges.append (hnodes : ∀ node ∈ nodes, Accepted node) {outcome : Except TreeError α}
    (h : Judges later outcome) : Judges (nodes ++ later) outcome := by
  induction nodes with
  | nil => exact h
  | cons node nodes ih =>
    obtain ⟨hnode, hnodes⟩ := List.forall_mem_cons.1 hnodes
    exact (ih hnodes).cons hnode

/-- The later nodes are looked at if the others are accepted. -/
theorem Judges.bind {outcome : Except TreeError α} {f : α → Except TreeError β}
    (h : Judges nodes outcome) (hf : ∀ a, Judges later (f a)) :
    Judges (nodes ++ later) (outcome >>= f) := by
  cases outcome with
  | ok a => exact (hf a).append h
  | error e =>
    obtain ⟨before, node, after, rfl, hbefore, hblames⟩ := h
    refine ⟨before, node, after ++ later, ?_, hbefore, hblames⟩
    rw [List.append_assoc, List.cons_append]

/-- Of a number without children, the text is looked at. -/
theorem judges_ofNumeral (hname : node.name = Nonterminal.number.name)
    (hchildren : node.children = []) :
    Judges [node] (Expression.ofNumeral node.text : Except TreeError (Expression φ)) := by
  cases hread : Numeral.read node.text with
  | error e =>
    rw [Expression.ofNumeral, hread]
    exact .of_blames ⟨hname, hchildren, hread⟩
  | ok n =>
    rw [Expression.ofNumeral, hread]
    cases n with
    | ofNat n => exact List.forall_mem_singleton.2 ⟨_, hname, hchildren, n, hread⟩
    | negSucc n => exact .of_blames ⟨hname, hchildren, _, Int.negSucc_lt_zero n, hread⟩

/-- The nodes of a tree are looked at one after the other, each before its children. -/
theorem judges_ofTree (tree : Tree) :
    Judges tree.nodes (Expression.ofTree tree : Except TreeError (Expression φ)) := by
  refine Expression.ofTree.induct
    (fun tree => Judges tree.nodes (Expression.ofTree tree : Except TreeError (Expression φ)))
    (fun (left : Expression φ) trees =>
      Judges (Tree.nodesOfAll trees) (Expression.addOperands left trees))
    ?unknown ?noNode ?root ?rootCount ?noOperands ?sum ?primary ?operand ?primaryCount ?number
    ?numberChildren ?nil ?cons tree
  case unknown =>
    intro name source start stop children hname
    simp only [Expression.ofTree, hname, Tree.nodes]
    exact .of_blames ⟨rfl, Nonterminal.ofName?_eq_none_iff.1 hname⟩
  case noNode =>
    intro name source start stop children hname
    simp only [Expression.ofTree, hname, Tree.nodes]
    exact .of_blames ⟨rfl, Nonterminal.ofName?_eq_some_iff.1 hname⟩
  case root =>
    intro name source start stop child hname ih
    simp only [Expression.ofTree, hname, Tree.nodes, Tree.nodesOfAll, List.append_nil]
    exact ih.cons ⟨.root, Nonterminal.ofName?_eq_some_iff.1 hname, child, rfl⟩
  case rootCount =>
    intro name source start stop children hchildren hname
    simp only [Expression.ofTree, hname, Tree.nodes]
    exact .of_blames ⟨rfl, .inl (Nonterminal.ofName?_eq_some_iff.1 hname), rfl,
      fun hcount => (List.length_eq_one_iff.1 hcount).elim hchildren⟩
  case noOperands =>
    intro name source start stop hname
    simp only [Expression.ofTree, hname, Tree.nodes]
    exact .of_blames ⟨Nonterminal.ofName?_eq_some_iff.1 hname, rfl⟩
  case sum =>
    intro name source start stop child children hname ih ihrest
    simp only [Expression.ofTree, hname, Tree.nodes, Tree.nodesOfAll]
    exact (ih.bind ihrest).cons
      ⟨.sum, Nonterminal.ofName?_eq_some_iff.1 hname, List.cons_ne_nil _ _⟩
  case primary =>
    intro name source start stop child hname hchild ih
    simp only [Expression.ofTree, hname, if_pos hchild, Tree.nodes, Tree.nodesOfAll,
      List.append_nil]
    exact ih.cons ⟨.primary, Nonterminal.ofName?_eq_some_iff.1 hname, child, rfl, hchild⟩
  case operand =>
    intro name source start stop child hname hchild
    simp only [Expression.ofTree, hname, Tree.nodes, if_neg hchild]
    exact .of_blames ⟨Nonterminal.ofName?_eq_some_iff.1 hname, child, rfl, rfl, not_or.1 hchild⟩
  case primaryCount =>
    intro name source start stop children hchildren hname
    simp only [Expression.ofTree, hname, Tree.nodes]
    exact .of_blames ⟨rfl, .inr (Nonterminal.ofName?_eq_some_iff.1 hname), rfl,
      fun hcount => (List.length_eq_one_iff.1 hcount).elim hchildren⟩
  case number =>
    intro name source start stop hname
    simp only [Expression.ofTree, hname, Tree.nodes, Tree.nodesOfAll]
    exact judges_ofNumeral (Nonterminal.ofName?_eq_some_iff.1 hname) rfl
  case numberChildren =>
    intro name source start stop child children hname
    simp only [Expression.ofTree, hname, Tree.nodes]
    exact .of_blames ⟨Nonterminal.ofName?_eq_some_iff.1 hname, List.cons_ne_nil _ _⟩
  case nil =>
    intro left
    exact List.forall_mem_nil _
  case cons =>
    intro left tree trees ih ihrest
    rw [Expression.addOperands, Tree.nodesOfAll]
    exact ih.bind ihrest

/-- A tree gives an expression if its nodes are accepted. -/
theorem exists_ofTree (h : ∀ node ∈ tree.nodes, Accepted node) :
    ∃ e : Expression φ, Expression.ofTree tree = .ok e := by
  have hjudges : Judges tree.nodes (Expression.ofTree tree : Except TreeError (Expression φ)) :=
    judges_ofTree tree
  cases houtcome : (Expression.ofTree tree : Except TreeError (Expression φ)) with
  | ok e => exact ⟨e, rfl⟩
  | error e =>
    rw [houtcome] at hjudges
    obtain ⟨before, node, after, hnodes, -, hblames⟩ := hjudges
    refine absurd (h node ?_) (not_accepted_of_blames hblames)
    rw [hnodes]
    exact List.mem_append_right _ List.mem_cons_self

/-- A node that is accepted has the shape that the grammar gives it, but for the names under a root
    or a sum. -/
theorem shaped_iff_of_accepted (h : Accepted node) :
    Shaped node ↔ ∀ child ∈ node.children,
      (node.name = Nonterminal.root.name → child.name = Nonterminal.sum.name) ∧
      (node.name = Nonterminal.sum.name → child.name = Nonterminal.primary.name) := by
  obtain ⟨rule, hname, h⟩ := h
  rw [shaped_iff hname, hname]
  cases rule with
  | root =>
    obtain ⟨child, hchildren⟩ := h
    simp [Nonterminal.Shapes, hchildren, Nonterminal.name_inj]
  | sum =>
    have hne : node.children ≠ [] := h
    simp [Nonterminal.Shapes, hne, Nonterminal.name_inj]
  | primary =>
    obtain ⟨child, hchildren, hchild⟩ := h
    simp [Nonterminal.Shapes, hchildren, hchild, Nonterminal.name_inj]
  | number => simp [Nonterminal.Shapes, h.1]
  | whitespace => cases h

/-- A tree gives an expression exactly if all of its nodes are accepted, and otherwise it is refused
    because of the first one that is not. A node that is accepted has the shape that the grammar
    gives it, but for the names under a root or a sum. -/
theorem ofTree_outcome (tree : Tree) :
    ((∃ e : Expression φ, Expression.ofTree tree = .ok e) ↔ ∀ node ∈ tree.nodes, Accepted node) ∧
    (∀ e, (Expression.ofTree tree : Except TreeError (Expression φ)) = .error e →
      ∃ before node after, tree.nodes = before ++ node :: after ∧
        (∀ earlier ∈ before, Accepted earlier) ∧ ¬Accepted node ∧ e.Blames node) ∧
    ∀ node, Accepted node → (Shaped node ↔ ∀ child ∈ node.children,
      (node.name = Nonterminal.root.name → child.name = Nonterminal.sum.name) ∧
      (node.name = Nonterminal.sum.name → child.name = Nonterminal.primary.name)) := by
  have hjudges : Judges tree.nodes (Expression.ofTree tree : Except TreeError (Expression φ)) :=
    judges_ofTree tree
  refine ⟨⟨fun ⟨e, he⟩ => ?_, exists_ofTree⟩, fun e he => ?_, fun _ => shaped_iff_of_accepted⟩
  · rwa [he] at hjudges
  · rw [he] at hjudges
    obtain ⟨before, node, after, hnodes, hbefore, hblames⟩ := hjudges
    exact ⟨before, node, after, hnodes, hbefore, not_accepted_of_blames hblames, hblames⟩

/-- A root with a number in place of a sum. -/
def numberInRoot : Tree :=
  ⟨Nonterminal.root.name, #['1'], 0, 1, [⟨Nonterminal.number.name, #['1'], 0, 1, []⟩]⟩

/-- The grammar cannot produce a number under a root, which gives an expression all the same. -/
theorem ofTree_numberInRoot :
    Expression.ofTree numberInRoot = .ok (.number 1 : Expression Empty) ∧
      ¬∀ node ∈ numberInRoot.nodes, Shaped node := by
  constructor
  · have hrest : Text.rest #['1'] 0 = ['1'] ++ [] := rfl
    exact ofTree_number hrest (List.forall_mem_singleton.2 rfl)
  · intro h
    have hshaped := h numberInRoot (by simp [Tree.nodes_eq])
    have hroot : Nonterminal.root.Shapes numberInRoot.children := (shaped_iff rfl).1 hshaped
    obtain ⟨_, ⟨⟩, hname⟩ := hroot
    exact absurd hname (by decide)

/-! ## Parse trees -/

/-- Further operands are nodes of operands. -/
theorem name_of_mem_further {t : Text} {n pos stop : Nat}
    (h : DerivesTimes rules t further n pos stop nodes) :
    ∀ node ∈ nodes, node.name = Nonterminal.primary.name := by
  induction n generalizing pos nodes with
  | zero =>
    cases h
    exact List.forall_mem_nil _
  | succ n ih =>
    cases h with
    | succ h _ rest =>
      obtain ⟨-, hprimary⟩ := derives_further_iff.1 h
      obtain ⟨_, _, -, -, rfl⟩ := derives_primary_iff.1 hprimary
      exact List.forall_mem_cons.2 ⟨rfl, ih rest⟩

/-- A node that is derived has the shape that the grammar gives it, as blanks leave no nodes. -/
theorem shaped_of_derives {t : Text} {rule : Nonterminal} {pos stop : Nat}
    (hrule : rule ≠ .whitespace) (h : Derives rules t (.reference rule.name) pos stop [node]) :
    Shaped node := by
  cases rule with
  | root =>
    obtain ⟨children, hsum, heq⟩ := (derives_reference_iff rfl).1 h
    obtain ⟨_, _, _, _, _, -, -, -, rfl⟩ := derives_sum_iff.1 hsum
    cases heq
    exact ⟨.root, rfl, _, rfl, rfl⟩
  | sum =>
    obtain ⟨_, _, _, before, later, hfirst, hrest, -, heq⟩ := derives_sum_iff.1 h
    obtain ⟨_, _, -, -, rfl⟩ := derives_primary_iff.1 hfirst
    cases heq
    exact ⟨.sum, rfl, List.cons_ne_nil _ _,
      List.forall_mem_cons.2 ⟨rfl, name_of_mem_further hrest⟩⟩
  | primary =>
    obtain ⟨_, children, hoperand, -, heq⟩ := derives_primary_iff.1 h
    cases heq
    obtain hnumber | hparens := derives_operand_iff.1 hoperand
    · obtain ⟨_, -, -, -, -, rfl⟩ := derives_number_iff.1 hnumber
      exact ⟨.primary, rfl, _, rfl, .inl rfl⟩
    · obtain ⟨_, -, hsum, -, -⟩ := derives_parens_iff.1 hparens
      obtain ⟨_, _, _, _, _, -, -, -, rfl⟩ := derives_sum_iff.1 hsum
      exact ⟨.primary, rfl, _, rfl, .inr rfl⟩
  | number =>
    obtain ⟨_, -, -, -, -, heq⟩ := derives_number_iff.1 h
    cases heq
    exact ⟨.number, rfl, rfl⟩
  | whitespace => exact absurd rfl hrule

/-- A node that has the shape that the grammar gives it is accepted, unless it is a number whose
    text is no numeral. -/
theorem accepted_of_shaped (h : Shaped node)
    (htext : node.name = Nonterminal.number.name → ∃ n : Nat, Numeral.read node.text = .ok n) :
    Accepted node := by
  obtain ⟨rule, hname, h⟩ := h
  refine (accepted_iff hname).2 ?_
  cases rule with
  | root =>
    obtain ⟨child, hchildren, -⟩ := h
    exact ⟨child, hchildren⟩
  | sum => exact h.1
  | primary => exact h
  | number => exact ⟨h, htext hname⟩
  | whitespace => exact h

/-- The text of a number that is derived is a numeral. -/
theorem read_text_of_derives {t : Text} {pos stop : Nat}
    (h : Derives rules t (.reference Nonterminal.number.name) pos stop [node]) :
    ∃ n : Nat, Numeral.read node.text = .ok n := by
  obtain ⟨digits, -, hdigits, hrest, rfl, heq⟩ := derives_number_iff.1 h
  cases heq
  refine ⟨Nat.ofDigitChars 10 digits 0, ?_⟩
  rw [Tree.text, Text.slice_of_rest hrest]
  exact Numeral.read_eq_ofDigitChars hdigits

/-- No rule refers to whitespace, so there are no nodes for it. -/
theorem exists_rule_of_stems {t : Text} {rule : Nonterminal} (hrule : rule ≠ .whitespace)
    (h : Stems rules t (.reference rule.name) node) :
    ∃ other : Nonterminal, other ≠ .whitespace ∧ node.name = other.name := by
  obtain ⟨hreference | ⟨⟨name, p⟩, hmem, hreference⟩, -⟩ := h
  · rw [Pattern.leaves, List.mem_singleton, Pattern.reference.injEq] at hreference
    exact ⟨rule, hrule, hreference⟩
  · simp only [rules, List.mem_cons, List.not_mem_nil, or_false, Prod.mk.injEq] at hmem
    rcases hmem with ⟨-, rfl⟩ | ⟨-, rfl⟩ | ⟨-, rfl⟩ | ⟨-, rfl⟩ | ⟨-, rfl⟩ <;>
      simp [Pattern.leaves, Pattern.leavesOfAll, blanks, sign] at hreference
    · exact ⟨.sum, by decide, hreference⟩
    · exact ⟨.primary, by decide, hreference⟩
    · obtain hreference | hreference := hreference
      · exact ⟨.number, by decide, hreference⟩
      · exact ⟨.sum, by decide, hreference⟩

/-- All nodes of a tree that is derived are accepted. -/
theorem accepted_of_derives {t : Text} {rule : Nonterminal} {pos stop : Nat}
    (hrule : rule ≠ .whitespace) (h : Derives rules t (.reference rule.name) pos stop [tree]) :
    ∀ node ∈ tree.nodes, Shaped node ∧ Accepted node := by
  intro node hnode
  have hstems := h.of_mem_nodes node (by rwa [Tree.nodesOfAll, Tree.nodesOfAll, List.append_nil])
  obtain ⟨other, hother, hname⟩ := exists_rule_of_stems hrule hstems
  obtain ⟨-, _, _, hnode⟩ := hstems
  rw [hname] at hnode
  have hshaped := shaped_of_derives hother hnode
  refine ⟨hshaped, accepted_of_shaped hshaped fun hnumber => ?_⟩
  cases Nonterminal.name_inj.1 (hname.symm.trans hnumber)
  exact read_text_of_derives hnode

/-- Whatever rule is the root, but for whitespace, every node of a parse tree has the shape that the
    grammar gives it, and gives an expression. -/
theorem exists_ofTree_of_parse (rule : Nonterminal) (hrule : rule ≠ .whitespace) :
    ∃ g, Grammar.compile description (some (.rule rule.name)) = .ok g ∧
      ∀ limit t tree, g.parse limit t = .ok tree → ∀ node ∈ tree.nodes,
        Shaped node ∧ ∃ e : Expression Empty, Expression.ofTree node = .ok e := by
  refine ⟨_, compile_rooted rule, fun limit t tree htree node hnode => ?_⟩
  have h : Derives rules t (.reference rule.name) 0 t.size [tree] :=
    Grammar.derivation_of_parse htree
  refine ⟨(accepted_of_derives hrule h node hnode).1, exists_ofTree fun inner hinner => ?_⟩
  exact (accepted_of_derives hrule h inner (Tree.nodes_subset hnode hinner)).2

/-- The parts of a sum without a root give expressions. -/
theorem exists_ofTree_sum :
    ∃ tree, Grammar.parse ⟨rules, Nonterminal.sum.name⟩ 9 #['1', '+', '2'] = .ok tree ∧
      ∀ node ∈ tree.nodes,
        Shaped node ∧ ∃ e : Expression Empty, Expression.ofTree node = .ok e := by
  obtain ⟨g, hg, h⟩ := exists_ofTree_of_parse .sum (by decide)
  cases hg.symm.trans (compile_rooted .sum)
  exact ⟨_, rfl, h 9 #['1', '+', '2'] _ rfl⟩

end Sums

end Descent
