import Descent.Proofs.Attempt

/-!
# The leaves of a pattern

What a search tries in a pattern are its leaves (`Attempts.mem_leaves`), and the nodes of a
derivation come from references among them: every node in a tree that is derived from a pattern is
derived itself, from a reference in the pattern or in one of the rules (`Derives.of_mem_nodes`).
-/

namespace Descent

variable {rules : Rules} {t : Text}

namespace Pattern

mutual

/-- The parts of a pattern that have no parts themselves, from left to right. -/
def leaves : Pattern → List Pattern
  | .sequence items => leavesOfAll items
  | .choice alternatives => leavesOfAll alternatives
  | .repetition item _ _ => item.leaves
  | .literal word => [.literal word]
  | .charClass k => [.charClass k]
  | .reference name => [.reference name]
  | .skip name => [.skip name]

/-- The leaves of the patterns of a list. -/
def leavesOfAll : List Pattern → List Pattern
  | [] => []
  | p :: ps => p.leaves ++ leavesOfAll ps

end

variable {p q : Pattern} {ps : List Pattern}

theorem mem_leavesOfAll : q ∈ leavesOfAll ps ↔ ∃ p ∈ ps, q ∈ p.leaves := by
  induction ps with
  | nil => simp [leavesOfAll]
  | cons p ps ih => simp [leavesOfAll, ih]

theorem leavesOfAll_append (ps qs : List Pattern) :
    leavesOfAll (ps ++ qs) = leavesOfAll ps ++ leavesOfAll qs := by
  induction ps with
  | nil => rfl
  | cons p ps ih => rw [List.cons_append, leavesOfAll, ih, leavesOfAll, List.append_assoc]

theorem leavesOfAll_singleton (p : Pattern) : leavesOfAll [p] = p.leaves := List.append_nil _

theorem leavesOfAll_items (p : Pattern) : leavesOfAll p.items = p.leaves := by
  cases p with
  | sequence items => rfl
  | _ => exact leavesOfAll_singleton _

/-- A flat sequence has the leaves of its parts. -/
theorem leaves_concat (ps : List Pattern) : (concat ps).leaves = leavesOfAll ps := by
  rw [concat, leaves]
  induction ps with
  | nil => rfl
  | cons p ps ih => rw [List.flatMap_cons, leavesOfAll_append, leavesOfAll_items, ih, leavesOfAll]

theorem leaves_of_isLeaf (hp : p.isLeaf) : p.leaves = [p] := by
  cases p with
  | sequence | choice | repetition => cases hp
  | _ => rfl

end Pattern

mutual

/-- What is tried in a pattern is one of its leaves. -/
theorem Attempts.mem_leaves {p q : Pattern} {pos mid : Nat} :
    Attempts rules t p pos q mid → q ∈ p.leaves
  | .leaf hq => by
    rw [Pattern.leaves_of_isLeaf hq]
    exact List.mem_singleton_self _
  | .sequence h => h.mem_leavesOfAll
  | .choice hp h => Pattern.mem_leavesOfAll.2 ⟨_, hp, h.mem_leaves⟩
  | .repetition _ _ h => h.mem_leaves

theorem AttemptsAll.mem_leavesOfAll {items : List Pattern} {q : Pattern} {pos mid : Nat} :
    AttemptsAll rules t items pos q mid → q ∈ Pattern.leavesOfAll items
  | .head h => List.mem_append_left _ h.mem_leaves
  | .tail _ h => List.mem_append_right _ h.mem_leavesOfAll

end

/-! ## Nodes -/

namespace Tree

mutual

/-- The nodes of a tree, each before its children. -/
def nodes : Tree → List Tree
  | ⟨name, source, start, stop, children⟩ =>
    ⟨name, source, start, stop, children⟩ :: nodesOfAll children

/-- The nodes of the trees of a list. -/
def nodesOfAll : List Tree → List Tree
  | [] => []
  | tree :: trees => tree.nodes ++ nodesOfAll trees

end

theorem nodes_eq : ∀ tree : Tree, tree.nodes = tree :: nodesOfAll tree.children
  | ⟨_, _, _, _, _⟩ => by rw [nodes]

theorem nodesOfAll_append (trees later : List Tree) :
    nodesOfAll (trees ++ later) = nodesOfAll trees ++ nodesOfAll later := by
  induction trees with
  | nil => rfl
  | cons tree trees ih =>
    rw [List.cons_append, nodesOfAll, ih, nodesOfAll, List.append_assoc]

mutual

/-- The nodes of a node of a tree are nodes of the tree. -/
theorem nodes_subset {node : Tree} : ∀ {tree : Tree}, node ∈ tree.nodes → node.nodes ⊆ tree.nodes
  | ⟨_, _, _, _, children⟩, h => by
    rw [nodes] at h ⊢
    obtain rfl | h := List.mem_cons.1 h
    · rw [nodes]
      exact List.Subset.refl _
    · exact List.subset_cons_of_subset _ (nodes_subset_nodesOfAll h)

theorem nodes_subset_nodesOfAll {node : Tree} :
    ∀ {trees : List Tree}, node ∈ nodesOfAll trees → node.nodes ⊆ nodesOfAll trees
  | tree :: trees, h => by
    obtain h | h := List.mem_append.1 h
    · exact List.subset_append_of_subset_left _ (nodes_subset h)
    · exact List.subset_append_of_subset_right _ (nodes_subset_nodesOfAll h)

end

end Tree

/-- The node is derived by a rule that is referred to in the pattern or in one of the rules. -/
def Stems (rules : Rules) (t : Text) (p : Pattern) (node : Tree) : Prop :=
  (.reference node.name ∈ p.leaves ∨ ∃ rule ∈ rules, .reference node.name ∈ rule.2.leaves) ∧
    ∃ pos stop, Derives rules t (.reference node.name) pos stop [node]

theorem Stems.mono {p q : Pattern} {node : Tree} (h : Stems rules t p node)
    (hleaves : p.leaves ⊆ q.leaves) : Stems rules t q node :=
  ⟨h.1.imp_left (hleaves ·), h.2⟩

mutual

/-- Every node in what is derived is derived itself. -/
theorem Derives.of_mem_nodes {p : Pattern} {pos stop : Nat} {nodes : List Tree} :
    Derives rules t p pos stop nodes → ∀ node ∈ Tree.nodesOfAll nodes, Stems rules t p node
  | .sequence h, node, hnode => h.of_mem_nodes node hnode
  | .choice hp h, node, hnode =>
    (h.of_mem_nodes node hnode).mono fun q hq => Pattern.mem_leavesOfAll.2 ⟨_, hp, hq⟩
  | .repetition h _ _, node, hnode => h.of_mem_nodes node hnode
  | .reference hp h, node, hnode => by
    rw [Tree.nodesOfAll, Tree.nodesOfAll, List.append_nil, Tree.nodes_eq, List.mem_cons] at hnode
    obtain rfl | hnode := hnode
    · exact ⟨.inl (List.mem_singleton_self _), _, _, .reference hp h⟩
    · obtain ⟨hrefers, hderives⟩ := h.of_mem_nodes node hnode
      exact ⟨.inr (hrefers.elim (fun h => ⟨_, Rules.mem_of_lookup hp, h⟩) id), hderives⟩

theorem DerivesAll.of_mem_nodes {items : List Pattern} {pos stop : Nat} {nodes : List Tree} :
    DerivesAll rules t items pos stop nodes → ∀ node ∈ Tree.nodesOfAll nodes,
      Stems rules t (.sequence items) node
  | .cons h rest, node, hnode => by
    rw [Tree.nodesOfAll_append] at hnode
    obtain hnode | hnode := List.mem_append.1 hnode
    · exact (h.of_mem_nodes node hnode).mono (List.subset_append_left _ _)
    · exact (rest.of_mem_nodes node hnode).mono (List.subset_append_right _ _)

theorem DerivesTimes.of_mem_nodes {item : Pattern} {n pos stop : Nat} {nodes : List Tree} :
    DerivesTimes rules t item n pos stop nodes → ∀ node ∈ Tree.nodesOfAll nodes,
      Stems rules t item node
  | .succ h _ rest, node, hnode => by
    rw [Tree.nodesOfAll_append] at hnode
    obtain hnode | hnode := List.mem_append.1 hnode
    · exact h.of_mem_nodes node hnode
    · exact rest.of_mem_nodes node hnode

end

end Descent
