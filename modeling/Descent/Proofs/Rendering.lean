import Descent.Proofs.Description.Identifier
import Descent.Proofs.Quoted

/-!
# What renderings of trees tell

A rendering of a tree shows the names of the nodes, how they are nested, and the texts of the
leaves; offsets and sources are left out. Trees that agree in what is shown are `Tree.Alike`.

* Both renderings tell as much as that, if no name is broken by a space, a tab or a line break
  (`Tree.Unbroken`): what stands between two delimiters has none of them in it, as texts are
  quoted (`Tree.bracketed_append_inj`, `Tree.rows_append_inj`).
* With one line a node, there are as many lines as nodes, whatever the texts, each node before its
  children and as far indented as it is deep (`Tree.outline`, `Tree.splitOn_pretty`).

The names in the parse trees of a grammar that is compiled are identifiers, as they are spelled in
its description (`Grammar.isIdentifier_of_mem_nodes`), and so are not broken.
-/

namespace Descent

/-- What stands before a delimiter that is not part of it can be told apart. -/
theorem append_delimiter_inj {delimiter : Char} {v w rest rest' : Word} (hv : delimiter ∉ v)
    (hw : delimiter ∉ w) (h : v ++ delimiter :: rest = w ++ delimiter :: rest') :
    v = w ∧ rest = rest' := by
  induction v generalizing w with
  | nil =>
    cases w with
    | nil => exact ⟨rfl, (List.cons.inj h).2⟩
    | cons c w => exact absurd ((List.cons.inj h).1 ▸ List.mem_cons_self) hw
  | cons c v ih =>
    rw [List.mem_cons, not_or] at hv
    cases w with
    | nil => exact absurd (List.cons.inj h).1.symm hv.1
    | cons d w =>
      rw [List.mem_cons, not_or] at hw
      obtain ⟨hcd, h⟩ := List.cons.inj h
      obtain ⟨hvw, hrest⟩ := ih hv.2 hw.2 h
      exact ⟨by rw [hcd, hvw], hrest⟩

/-- Lines that are ended by line breaks are found between them, with nothing after the last one. -/
theorem splitOn_flatMap_lineBreak {lines : List Word} (h : ∀ line ∈ lines, '\n' ∉ line) :
    (lines.flatMap (· ++ ['\n'])).splitOn '\n' = lines ++ [[]] := by
  induction lines with
  | nil => rfl
  | cons line lines ih =>
    obtain ⟨hline, hlines⟩ := List.forall_mem_cons.1 h
    rw [List.flatMap_cons, List.append_assoc, List.singleton_append, List.splitOn,
      List.splitOnP_append_cons_of_forall_mem (fun c hc => beq_false_of_ne
        (ne_of_mem_of_not_mem hc hline)) '\n' (beq_self_eq_true _), ← List.splitOn, ih hlines,
      List.cons_append]

/-- The word has no space, tab or line break in it. -/
structure Unbroken (w : Word) : Prop where
  /-- There is no space. -/
  space : ' ' ∉ w
  /-- There is no tab. -/
  tab : '\t' ∉ w
  /-- There is no line break. -/
  lineBreak : '\n' ∉ w

namespace Tree

/-! ## Trees that show the same -/

mutual

/-- The trees have the same names, nested in the same way and in the same order, and the same texts
    at their leaves. -/
def Alike : (a b : Tree) → Prop
  | ⟨name, source, start, stop, children⟩, ⟨name', source', start', stop', children'⟩ =>
    name = name' ∧ AlikeAll children children' ∧
      (children = [] → source.slice start stop = source'.slice start' stop')

/-- The lists have as many trees, which are alike one by one. -/
def AlikeAll : (as bs : List Tree) → Prop
  | [], [] => True
  | a :: as, b :: bs => Alike a b ∧ AlikeAll as bs
  | _, _ => False

end

mutual

theorem Alike.bracketed_eq : ∀ {a b : Tree}, a.Alike b → a.bracketed = b.bracketed
  | ⟨_, _, _, _, []⟩, ⟨_, _, _, _, []⟩, ⟨hname, _, htext⟩ => by
    rw [bracketed, bracketed, hname, htext rfl]
  | ⟨_, _, _, _, _ :: _⟩, ⟨_, _, _, _, _ :: _⟩, ⟨hname, hchildren, _⟩ => by
    rw [bracketed, bracketed, hname, hchildren.bracketedAll_eq] <;> nofun

theorem AlikeAll.bracketedAll_eq :
    ∀ {as bs : List Tree}, AlikeAll as bs → bracketedAll as = bracketedAll bs
  | [], [], _ => rfl
  | _ :: _, _ :: _, ⟨h, rest⟩ => by
    rw [bracketedAll, bracketedAll, h.bracketed_eq, rest.bracketedAll_eq]

end

mutual

theorem Alike.lines_eq (indent : Word) (level : Nat) :
    ∀ {a b : Tree}, a.Alike b → a.lines indent level = b.lines indent level
  | ⟨_, _, _, _, []⟩, ⟨_, _, _, _, []⟩, ⟨hname, _, htext⟩ => by
    rw [lines, lines, hname, htext rfl]
  | ⟨_, _, _, _, _ :: _⟩, ⟨_, _, _, _, _ :: _⟩, ⟨hname, hchildren, _⟩ => by
    rw [lines, lines, hname, hchildren.linesAll_eq indent (level + 1)] <;> nofun

theorem AlikeAll.linesAll_eq (indent : Word) (level : Nat) :
    ∀ {as bs : List Tree}, AlikeAll as bs → linesAll indent level as = linesAll indent level bs
  | [], [], _ => rfl
  | _ :: _, _ :: _, ⟨h, rest⟩ => by
    rw [linesAll, linesAll, h.lines_eq indent level, rest.linesAll_eq indent level]

end

/-! ## Names -/

/-- No name in the trees is broken. -/
def AllUnbroken (trees : List Tree) : Prop := ∀ node ∈ nodesOfAll trees, Unbroken node.name

theorem allUnbroken_cons {tree : Tree} {trees : List Tree} :
    AllUnbroken (tree :: trees) ↔ AllUnbroken [tree] ∧ AllUnbroken trees := by
  rw [AllUnbroken, nodesOfAll, List.forall_mem_append, AllUnbroken, nodesOfAll, nodesOfAll,
    List.append_nil]
  rfl

theorem allUnbroken_singleton {name : Word} {source : Text} {start stop : Int}
    {children : List Tree} : AllUnbroken [⟨name, source, start, stop, children⟩] ↔
      Unbroken name ∧ AllUnbroken children := by
  rw [AllUnbroken, nodesOfAll, nodesOfAll, List.append_nil, nodes_eq, List.forall_mem_cons]
  rfl

/-! ## On one line -/

theorem bracketed_leaf_append (name : Word) (source : Text) (start stop : Int) (rest : Word) :
    bracketed ⟨name, source, start, stop, []⟩ ++ rest =
      '(' :: (name ++ ' ' :: (Text.quoted (source.slice start stop) ++ ')' :: rest)) := by
  rw [bracketed]
  simp only [List.cons_append, List.append_assoc, List.nil_append]

theorem bracketed_node_append (name : Word) (source : Text) (start stop : Int) (child : Tree)
    (children : List Tree) (rest : Word) :
    bracketed ⟨name, source, start, stop, child :: children⟩ ++ rest =
      '(' :: (name ++ ' ' :: (child.bracketed ++ (bracketedAll children ++ ')' :: rest))) := by
  rw [bracketed, bracketedAll]
  · simp only [List.cons_append, List.append_assoc, List.nil_append]
  · nofun

/-- A node starts with a parenthesis, and a quoted text does not. -/
theorem quoted_append_ne_bracketed (w : Word) (tree : Tree) (rest rest' : Word) :
    Text.quoted w ++ rest ≠ tree.bracketed ++ rest' := by
  obtain ⟨name, source, start, stop, children⟩ := tree
  have hquote : Text.quoteFor w ≠ '(' := by
    obtain h | h := Text.quoteFor_eq w <;> rw [h] <;> decide
  intro h
  rw [Text.quoted] at h
  cases children with
  | nil =>
    rw [bracketed_leaf_append] at h
    exact hquote (List.cons.inj h).1
  | cons =>
    rw [bracketed_node_append] at h
    exact hquote (List.cons.inj h).1

mutual

/-- A node on one line tells all that it shows, and where it ends. -/
theorem bracketed_append_inj : ∀ {a b : Tree} {rest rest' : Word}, AllUnbroken [a] →
    AllUnbroken [b] → a.bracketed ++ rest = b.bracketed ++ rest' → a.Alike b ∧ rest = rest'
  | ⟨_, _, _, _, []⟩, ⟨_, _, _, _, []⟩, _, _, ha, hb, h => by
    rw [bracketed_leaf_append, bracketed_leaf_append] at h
    obtain ⟨rfl, hinner⟩ := append_delimiter_inj (allUnbroken_singleton.1 ha).1.space
      (allUnbroken_singleton.1 hb).1.space (List.cons.inj h).2
    obtain ⟨htext, hrest⟩ := Text.quoted_append_inj hinner
    exact ⟨⟨rfl, trivial, fun _ => htext⟩, (List.cons.inj hrest).2⟩
  | ⟨_, _, _, _, []⟩, ⟨_, _, _, _, _ :: _⟩, _, _, ha, hb, h => by
    rw [bracketed_leaf_append, bracketed_node_append] at h
    obtain ⟨-, h⟩ := append_delimiter_inj (allUnbroken_singleton.1 ha).1.space
      (allUnbroken_singleton.1 hb).1.space (List.cons.inj h).2
    exact absurd h (quoted_append_ne_bracketed _ _ _ _)
  | ⟨_, _, _, _, _ :: _⟩, ⟨_, _, _, _, []⟩, _, _, ha, hb, h => by
    rw [bracketed_leaf_append, bracketed_node_append] at h
    obtain ⟨-, h⟩ := append_delimiter_inj (allUnbroken_singleton.1 ha).1.space
      (allUnbroken_singleton.1 hb).1.space (List.cons.inj h).2
    exact absurd h.symm (quoted_append_ne_bracketed _ _ _ _)
  | ⟨_, _, _, _, child :: children⟩, ⟨_, _, _, _, child' :: children'⟩, rest, rest', ha, hb, h => by
    rw [bracketed_node_append, bracketed_node_append] at h
    obtain ⟨hname, hchildren⟩ := allUnbroken_singleton.1 ha
    obtain ⟨hname', hchildren'⟩ := allUnbroken_singleton.1 hb
    obtain ⟨rfl, hinner⟩ := append_delimiter_inj hname.space hname'.space (List.cons.inj h).2
    have hall : bracketedAll (child :: children) ++ ')' :: rest =
        bracketedAll (child' :: children') ++ ')' :: rest' := by
      rw [bracketedAll, bracketedAll, List.cons_append, List.cons_append, List.append_assoc,
        List.append_assoc, hinner]
    obtain ⟨halike, hrest⟩ := bracketedAll_append_inj hchildren hchildren' hall
    exact ⟨⟨rfl, halike, nofun⟩, hrest⟩

theorem bracketedAll_append_inj : ∀ {as bs : List Tree} {rest rest' : Word}, AllUnbroken as →
    AllUnbroken bs → bracketedAll as ++ ')' :: rest = bracketedAll bs ++ ')' :: rest' →
    AlikeAll as bs ∧ rest = rest'
  | [], [], _, _, _, _, h => ⟨trivial, (List.cons.inj h).2⟩
  | [], _ :: _, _, _, _, _, h => absurd (List.cons.inj h).1 (by decide)
  | _ :: _, [], _, _, _, _, h => absurd (List.cons.inj h).1 (by decide)
  | a :: as, b :: bs, _, _, ha, hb, h => by
    obtain ⟨ha, has⟩ := allUnbroken_cons.1 ha
    obtain ⟨hb, hbs⟩ := allUnbroken_cons.1 hb
    rw [bracketedAll, bracketedAll, List.cons_append, List.cons_append, List.append_assoc,
      List.append_assoc] at h
    obtain ⟨halike, h⟩ := bracketed_append_inj ha hb (List.cons.inj h).2
    obtain ⟨hall, hrest⟩ := bracketedAll_append_inj has hbs h
    exact ⟨⟨halike, hall⟩, hrest⟩

end

/-- On one line, trees look the same if they are alike, and only then. -/
theorem bracketed_eq_iff {a b : Tree} (ha : AllUnbroken [a]) (hb : AllUnbroken [b]) :
    a.bracketed = b.bracketed ↔ a.Alike b :=
  ⟨fun h => (bracketed_append_inj ha hb (congrArg (· ++ []) h)).1, Alike.bracketed_eq⟩

/-! ## One line a node -/

mutual

/-- The nodes of a tree at a level, each before its children, with their levels. -/
def outline (level : Nat) : (tree : Tree) → List (Nat × Tree)
  | ⟨name, source, start, stop, children⟩ =>
    (level, ⟨name, source, start, stop, children⟩) :: outlineAll (level + 1) children

/-- The nodes of the trees of a list, with their levels. -/
def outlineAll (level : Nat) : (trees : List Tree) → List (Nat × Tree)
  | [] => []
  | tree :: trees => outline level tree ++ outlineAll level trees

end

mutual

/-- The outline has all nodes of the tree, in order. -/
theorem map_snd_outline (level : Nat) :
    ∀ tree : Tree, (tree.outline level).map Prod.snd = tree.nodes
  | ⟨_, _, _, _, children⟩ => by
    rw [outline, nodes, List.map_cons, map_snd_outlineAll (level + 1) children]

theorem map_snd_outlineAll (level : Nat) :
    ∀ trees : List Tree, (outlineAll level trees).map Prod.snd = nodesOfAll trees
  | [] => rfl
  | tree :: trees => by
    rw [outlineAll, nodesOfAll, List.map_append, map_snd_outline level tree,
      map_snd_outlineAll level trees]

end

theorem mem_nodes_of_mem_outline {level : Nat} {tree : Tree} {p : Nat × Tree}
    (h : p ∈ tree.outline level) : p.2 ∈ tree.nodes := by
  rw [← map_snd_outline level tree]
  exact List.mem_map_of_mem h

/-- What a node shows on a line of its own, behind the indentation. -/
def label : (tree : Tree) → Word
  | ⟨name, source, start, stop, []⟩ => name ++ '\t' :: Text.quoted (source.slice start stop)
  | ⟨name, _, _, _, _ :: _⟩ => name

/-- The line of a node at a level. -/
def line (indent : Word) (p : Nat × Tree) : Word :=
  (List.replicate p.1 indent).flatten ++ p.2.label

mutual

theorem lines_eq_map_outline (indent : Word) (level : Nat) :
    ∀ tree : Tree, tree.lines indent level = (tree.outline level).map (line indent)
  | ⟨_, _, _, _, []⟩ => by
    rw [lines, outline, outlineAll, List.map_singleton, line, label]
  | ⟨_, _, _, _, child :: children⟩ => by
    rw [lines, outline, List.map_cons, linesAll_eq_map_outlineAll indent (level + 1), line, label]
    nofun

theorem linesAll_eq_map_outlineAll (indent : Word) (level : Nat) :
    ∀ trees : List Tree, linesAll indent level trees = (outlineAll level trees).map (line indent)
  | [] => rfl
  | tree :: trees => by
    rw [linesAll, outlineAll, List.map_append, lines_eq_map_outline indent level tree,
      linesAll_eq_map_outlineAll indent level trees]

end

theorem lineBreak_not_mem_label {tree : Tree} (h : '\n' ∉ tree.name) : '\n' ∉ tree.label := by
  obtain ⟨name, source, start, stop, children⟩ := tree
  cases children with
  | nil =>
    rw [label, List.mem_append, List.mem_cons, not_or, not_or]
    exact ⟨h, by decide, Text.lineBreak_not_mem_quoted _⟩
  | cons => exact h

theorem lineBreak_not_mem_line {indent : Word} (hindent : '\n' ∉ indent) {p : Nat × Tree}
    (h : '\n' ∉ p.2.name) : '\n' ∉ line indent p := by
  rw [line, List.mem_append, not_or, List.mem_flatten]
  refine ⟨fun ⟨copy, hcopy, hmem⟩ => ?_, lineBreak_not_mem_label h⟩
  rw [List.eq_of_mem_replicate hcopy] at hmem
  exact hindent hmem

/-- There is one line a node, whatever the texts. -/
theorem splitOn_pretty {indent : Word} (hindent : '\n' ∉ indent) {tree : Tree}
    (h : ∀ node ∈ tree.nodes, '\n' ∉ node.name) :
    (tree.pretty indent).splitOn '\n' = (tree.outline 0).map (line indent) ++ [[]] := by
  rw [pretty, lines_eq_map_outline]
  refine splitOn_flatMap_lineBreak (List.forall_mem_map.2 fun p hp => ?_)
  exact lineBreak_not_mem_line hindent (h _ (mem_nodes_of_mem_outline hp))

/-! ## Lines read back -/

theorem tab_mem_label {tree : Tree} (h : tree.children = []) : '\t' ∈ tree.label := by
  obtain ⟨name, source, start, stop, _⟩ := tree
  cases h
  exact List.mem_append_right _ List.mem_cons_self

theorem label_of_children_ne_nil {tree : Tree} (h : tree.children ≠ []) :
    tree.label = tree.name := by
  obtain ⟨name, source, start, stop, _ | _⟩ := tree
  · exact absurd rfl h
  · rfl

/-- A label tells the name, and the text if there are no children. -/
theorem label_inj {a b : Tree} (ha : '\t' ∉ a.name) (hb : '\t' ∉ b.name)
    (h : a.label = b.label) : a.name = b.name ∧ (a.children = [] → a.text = b.text) := by
  by_cases hleaf : a.children = []
  · have hleaf' : b.children = [] := by
      by_contra hne
      exact hb (label_of_children_ne_nil hne ▸ h ▸ tab_mem_label hleaf)
    obtain ⟨name, source, start, stop, _⟩ := a
    obtain ⟨name', source', start', stop', _⟩ := b
    cases hleaf
    cases hleaf'
    obtain ⟨hname, hquoted⟩ := append_delimiter_inj ha hb h
    exact ⟨hname, fun _ => Text.quoted_inj.1 hquoted⟩
  · have hleaf' : b.children ≠ [] := fun hnil =>
      ha (label_of_children_ne_nil hleaf ▸ h ▸ tab_mem_label hnil)
    rw [label_of_children_ne_nil hleaf, label_of_children_ne_nil hleaf'] at h
    exact ⟨h, fun hnil => absurd hnil hleaf⟩

/-- The level of a line with the usual indentation, and what is behind it. -/
def readLine (w : Word) : Nat × Word :=
  ((w.takeWhile (· = ' ')).length / 2, w.dropWhile (· = ' '))

theorem head?_label_ne_space {tree : Tree} (h : ' ' ∉ tree.name) :
    ∀ c ∈ tree.label.head?, c ≠ ' ' := by
  obtain ⟨name, source, start, stop, children⟩ := tree
  cases name with
  | nil =>
    cases children with
    | nil =>
      rintro _ ⟨⟩
      decide
    | cons => nofun
  | cons c name =>
    have hc : c ≠ ' ' := (List.ne_of_not_mem_cons h).symm
    cases children <;> exact fun _ hd => Option.some_inj.1 hd ▸ hc

/-- A line tells the level and the label of its node. -/
theorem readLine_line {p : Nat × Tree} (h : ' ' ∉ p.2.name) :
    readLine (line indentation p) = (p.1, p.2.label) := by
  have hspaces : (List.replicate p.1 indentation).flatten = List.replicate (p.1 * 2) ' ' :=
    List.flatten_replicate_replicate (n := p.1) (m := 2)
  have hall : ∀ c ∈ List.replicate (p.1 * 2) ' ', decide (c = ' ') := fun c hc =>
    decide_eq_true (List.eq_of_mem_replicate hc)
  have hlabel : p.2.label.takeWhile (· = ' ') = [] ∧ p.2.label.dropWhile (· = ' ') = p.2.label := by
    have hne := head?_label_ne_space h
    cases hw : p.2.label with
    | nil => exact ⟨rfl, rfl⟩
    | cons c w =>
      have hc : ¬decide (c = ' ') := by simpa using hne c (by rw [hw]; rfl)
      exact ⟨List.takeWhile_cons_of_neg hc, List.dropWhile_cons_of_neg hc⟩
  rw [readLine, line, hspaces, List.takeWhile_append_of_pos hall, List.dropWhile_append_of_pos hall,
    hlabel.1, hlabel.2, List.append_nil, List.length_replicate, Nat.mul_div_cancel _ Nat.two_pos]

/-- The level of a node and its label. -/
def row (p : Nat × Tree) : Nat × Word := (p.1, p.2.label)

theorem head?_rows_le {level : Nat} {rest : List (Nat × Word)}
    (h : ∀ r ∈ rest.head?, r.1 < level) (trees : List Tree) :
    ∀ r ∈ ((outlineAll level trees).map row ++ rest).head?, r.1 < level + 1 := by
  cases trees with
  | nil => exact fun r hr => Nat.lt_succ_of_lt (h r hr)
  | cons tree trees =>
    obtain ⟨name, source, start, stop, children⟩ := tree
    rintro _ ⟨⟩
    exact Nat.lt_succ_self level

/-- The levels and labels of all nodes tell all that the trees show. What is after them is not as
    deep. -/
theorem rows_append_inj : ∀ {as bs : List Tree} {level : Nat} {rest rest' : List (Nat × Word)},
    AllUnbroken as → AllUnbroken bs → (∀ r ∈ rest.head?, r.1 < level) →
    (∀ r ∈ rest'.head?, r.1 < level) →
    (outlineAll level as).map row ++ rest = (outlineAll level bs).map row ++ rest' →
    AlikeAll as bs ∧ rest = rest'
  | [], [], _, _, _, _, _, _, _, h => ⟨trivial, h⟩
  | [], ⟨_, _, _, _, _⟩ :: _, level, _, _, _, _, hrest, _, h => by
    subst h
    exact absurd (hrest _ rfl) (Nat.lt_irrefl level)
  | ⟨_, _, _, _, _⟩ :: _, [], level, _, _, _, _, _, hrest', h => by
    subst h
    exact absurd (hrest' _ rfl) (Nat.lt_irrefl level)
  | ⟨name, source, start, stop, children⟩ :: as, ⟨name', source', start', stop', children'⟩ :: bs,
    level, rest, rest', ha, hb, hrest, hrest', h => by
    obtain ⟨ha, has⟩ := allUnbroken_cons.1 ha
    obtain ⟨hb, hbs⟩ := allUnbroken_cons.1 hb
    obtain ⟨haname, hchildren⟩ := allUnbroken_singleton.1 ha
    obtain ⟨hbname, hchildren'⟩ := allUnbroken_singleton.1 hb
    simp only [outlineAll, outline, List.map_append, List.map_cons, List.cons_append,
      List.append_assoc, List.cons.injEq] at h
    obtain ⟨hrow, h⟩ := h
    obtain ⟨hname, htext⟩ := label_inj haname.tab hbname.tab (congrArg Prod.snd hrow)
    obtain ⟨hinner, h⟩ := rows_append_inj hchildren hchildren' (head?_rows_le hrest as)
      (head?_rows_le hrest' bs) h
    obtain ⟨hafter, hrest⟩ := rows_append_inj has hbs hrest hrest' h
    exact ⟨⟨⟨hname, hinner, htext⟩, hafter⟩, hrest⟩

/-- The lines with the usual indentation tell the outline. -/
theorem map_readLine_outline {level : Nat} {tree : Tree} (h : AllUnbroken [tree]) :
    ((tree.outline level).map (line indentation)).map readLine = (tree.outline level).map row := by
  rw [List.map_map]
  refine List.map_congr_left fun p hp => readLine_line (h p.2 ?_).space
  exact List.mem_append_left _ (mem_nodes_of_mem_outline hp)

/-- With one line a node, trees look the same if they are alike, and only then. -/
theorem pretty_eq_iff {a b : Tree} (ha : AllUnbroken [a]) (hb : AllUnbroken [b]) :
    a.pretty indentation = b.pretty indentation ↔ a.Alike b := by
  refine ⟨fun h => ?_, fun h => by rw [pretty, pretty, h.lines_eq]⟩
  have hline {tree : Tree} (h : AllUnbroken [tree]) : ∀ node ∈ tree.nodes, '\n' ∉ node.name :=
    fun node hnode => (h node (List.mem_append_left _ hnode)).lineBreak
  have hsplit := congrArg (List.splitOn '\n') h
  rw [splitOn_pretty (by decide) (hline ha), splitOn_pretty (by decide) (hline hb),
    List.append_left_inj] at hsplit
  have hrows := congrArg (List.map readLine) hsplit
  rw [map_readLine_outline ha, map_readLine_outline hb] at hrows
  have hall : (outlineAll 0 [a]).map row ++ [] = (outlineAll 0 [b]).map row ++ [] := by
    simpa [outlineAll] using hrows
  have hnone : ∀ r ∈ ([] : List (Nat × Word)).head?, r.1 < 0 := by simp
  exact (rows_append_inj ha hb hnone hnone hall).1.1

end Tree

/-! ## What renderings tell -/

theorem IsIdentifier.unbroken {w : Word} (h : IsIdentifier w) : Unbroken w := by
  have hnot {c : Char} (hc : ¬Token.isNameRest c) : c ∉ w := fun hmem => hc (h.isNameRest c hmem)
  exact ⟨hnot (by decide), hnot (by decide), hnot (by decide)⟩

/-- If no name is broken, trees look the same, in either way, if they have the same names, nested in
    the same way and in the same order, and the same texts at their leaves, and only then. There is
    always one line a node, each before its children, indented by its level. In the parse trees of a
    grammar that is compiled, names are identifiers and so are not broken. -/
theorem renderings_tell :
    (∀ a b : Tree, (∀ node ∈ a.nodes, Unbroken node.name) →
      (∀ node ∈ b.nodes, Unbroken node.name) →
      (a.bracketed = b.bracketed ↔ a.Alike b) ∧
      (a.pretty Tree.indentation = b.pretty Tree.indentation ↔ a.Alike b)) ∧
    (∀ (indent : Word) (tree : Tree), '\n' ∉ indent →
      (∀ node ∈ tree.nodes, '\n' ∉ node.name) →
      (tree.outline 0).map Prod.snd = tree.nodes ∧
      (tree.pretty indent).splitOn '\n' = (tree.outline 0).map (Tree.line indent) ++ [[]]) ∧
    ∀ (w : Word) (root : Option RootChoice) (g : Grammar) (limit : Nat) (t : Text) (tree : Tree),
      Grammar.compile w root = .ok g → g.parse limit t = .ok tree →
      ∀ node ∈ tree.nodes, IsIdentifier node.name ∧ Unbroken node.name := by
  have hall {tree : Tree} (h : ∀ node ∈ tree.nodes, Unbroken node.name) :
      Tree.AllUnbroken [tree] := by
    rwa [Tree.AllUnbroken, Tree.nodesOfAll, Tree.nodesOfAll, List.append_nil]
  refine ⟨fun a b ha hb =>
      ⟨Tree.bracketed_eq_iff (hall ha) (hall hb), Tree.pretty_eq_iff (hall ha) (hall hb)⟩,
    fun indent tree hindent h => ⟨Tree.map_snd_outline 0 tree, Tree.splitOn_pretty hindent h⟩,
    fun w root g limit t tree hg h node hnode => ?_⟩
  have hname := Grammar.isIdentifier_of_mem_nodes hg h hnode
  exact ⟨hname, hname.unbroken⟩

namespace Grammar

/-- The grammar of `a ::= b+; b ::= [^x];`. -/
def twoLevels : Grammar :=
  ⟨[(['a'], .repetition (.reference ['b']) 1 none),
    (['b'], .charClass ⟨[('x', 'x')], true⟩)], ['a']⟩

end Grammar

/-- The tree of a quote and a line break looks like the one of another text, in which they stand
    elsewhere. -/
theorem renderings_tell_quotes :
    let t : Text := #['\'', '\n']
    let tree : Tree := ⟨['a'], t, 0, 2, [⟨['b'], t, 0, 1, []⟩, ⟨['b'], t, 1, 2, []⟩]⟩
    let t' : Text := #['x', '\'', '\n']
    let moved : Tree := ⟨['a'], t', 1, 3, [⟨['b'], t', 1, 2, []⟩, ⟨['b'], t', -1, 3, []⟩]⟩
    Grammar.compile "a ::= b+; b ::= [^x];".toList none = .ok Grammar.twoLevels ∧
    Grammar.twoLevels.parse 9 t = .ok tree ∧ tree.Alike moved ∧
    tree.bracketed = moved.bracketed ∧
    tree.pretty Tree.indentation = moved.pretty Tree.indentation ∧
    (tree.pretty Tree.indentation).splitOn '\n' =
      ["a".toList, "  b\t\"'\"".toList, "  b\t'\\n'".toList, []] := by
  intro t tree t' moved
  have hcompile : Grammar.compile "a ::= b+; b ::= [^x];".toList none = .ok Grammar.twoLevels := rfl
  have hparse : Grammar.twoLevels.parse 9 t = .ok tree := rfl
  obtain ⟨hequal, hlines, hnames⟩ := renderings_tell
  have hmoved : ∀ node ∈ moved.nodes, Unbroken node.name := by
    have hall : ∀ node ∈ moved.nodes, ' ' ∉ node.name ∧ '\t' ∉ node.name ∧ '\n' ∉ node.name := by
      decide
    exact fun node hnode => ⟨(hall node hnode).1, (hall node hnode).2.1, (hall node hnode).2.2⟩
  have htree : ∀ node ∈ tree.nodes, Unbroken node.name := fun node hnode =>
    (hnames _ _ _ _ _ _ hcompile hparse node hnode).2
  have halike : tree.Alike moved := by
    refine ⟨rfl, ⟨⟨rfl, trivial, fun _ => ?_⟩, ⟨rfl, trivial, fun _ => ?_⟩, trivial⟩, nofun⟩ <;>
      decide
  obtain ⟨hbracketed, hpretty⟩ := hequal tree moved htree hmoved
  refine ⟨hcompile, hparse, halike, hbracketed.2 halike, hpretty.2 halike, ?_⟩
  rw [(hlines Tree.indentation tree (by decide) fun node hnode => (htree node hnode).lineBreak).2]
  decide

end Descent
