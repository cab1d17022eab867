import Descent.Proofs.Description.Blocks
import Descent.Proofs.Leaves

/-!
# Names are identifiers

The rules of a grammar have the names that are spelled in its description, each of them a letter or
an underscore before letters, digits and underscores (`IsIdentifier`). Every node of a parse tree is
derived by a rule, so it has such a name as well (`Grammar.isIdentifier_of_mem_nodes`).
-/

namespace Descent

/-- The word can be spelled as a name in a description. -/
inductive IsIdentifier : (w : Word) → Prop
  | mk {c : Char} {w : Word} (hc : Token.isNameStart c) (hw : ∀ d ∈ w, Token.isNameRest d) :
    IsIdentifier (c :: w)

variable {w : Word} {tokens : List Token}

theorem IsIdentifier.isNameRest (h : IsIdentifier w) : ∀ c ∈ w, Token.isNameRest c := by
  cases h with
  | mk hc hw => exact List.forall_mem_cons.2 ⟨Token.isNameRest_of_isNameStart hc, hw⟩

namespace Token

/-- The names among tokens that are spelled are identifiers. -/
theorem Spells.isIdentifier {afterName : Bool} (h : Spells afterName tokens w) {name : Word}
    (hname : .name name ∈ tokens) : IsIdentifier name := by
  induction h with
  | nil => cases hname
  | cons _ _ h _ ih =>
    obtain rfl | hname := List.mem_cons.1 hname
    · cases h with
      | fixed h => cases h
      | name hc hw => exact .mk hc hw
    · exact ih hname

end Token

/-- The name of a rule stands among its tokens. -/
theorem IsRule.name_mem {r : Rule} (h : IsRule tokens r) : .name r.name ∈ tokens := by
  cases h with
  | mk => exact List.mem_cons_self

/-- Every definition has its name among the tokens of the description. -/
theorem IsDescription.name_mem {d : Description} (h : IsDescription tokens d)
    {definitions : List Definition} (hd : d.Denotes definitions) {e : Definition}
    (he : e ∈ definitions) : .name e.name ∈ tokens := by
  induction hd generalizing tokens with
  | nil => cases he
  | rule hr _ ih =>
    cases h with
    | cons h rest =>
      obtain rfl | he := List.mem_cons.1 he
      · cases h with
        | rule h =>
          rw [hr.name_skip.1]
          exact List.mem_append_left _ h.name_mem
      · exact List.mem_append_right _ (ih rest he)
  | block hr _ ih =>
    cases h with
    | cons h rest =>
      obtain he | he := List.mem_append.1 he
      · obtain ⟨r, hmem, hdenotes⟩ := exists_of_mem_forall₂ hr he
        cases h with
        | block _ h =>
          obtain ⟨inner, hinner, hrule⟩ := h.exists_of_mem hmem
          rw [hdenotes.name_skip.1]
          have hname := hinner hrule.name_mem
          simp [hname]
      · exact List.mem_append_right _ (ih rest he)

namespace Grammar

variable {root : Option RootChoice} {g : Grammar} {t : Text} {limit : Nat} {tree : Tree}

/-- The rules of a grammar that is compiled are named by identifiers. -/
theorem isIdentifier_of_lookup (hg : compile w root = .ok g) {name : Word} {p : Pattern}
    (hp : g.rules.lookup name = some p) : IsIdentifier name := by
  obtain ⟨_, definitions, hmeans, -⟩ := exists_means_of_compile hg
  obtain ⟨e, he, rfl, -⟩ := (lookup_eq_some_iff hg hmeans).1 hp
  obtain ⟨tokens, d, hspells, hd, hdenotes⟩ := hmeans
  exact hspells.isIdentifier (hd.name_mem hdenotes he)

/-- The nodes of a parse tree are named by identifiers. -/
theorem isIdentifier_of_mem_nodes (hg : compile w root = .ok g) (h : g.parse limit t = .ok tree)
    {node : Tree} (hnode : node ∈ tree.nodes) : IsIdentifier node.name := by
  have hderives : Derives g.rules t (.reference g.root) 0 t.size [tree] := derivation_of_parse h
  rw [← List.append_nil tree.nodes] at hnode
  obtain ⟨-, pos, stop, hnode⟩ := hderives.of_mem_nodes node hnode
  generalize node.name = name, [node] = nodes at hnode ⊢
  cases hnode with
  | reference hp => exact isIdentifier_of_lookup hg hp

end Grammar

end Descent
