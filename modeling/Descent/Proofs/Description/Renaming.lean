import Descent.Proofs.Description.Skips
import Descent.Proofs.Renaming

/-!
# Descriptions with other names

A search never comes to a rule to which no calls lead from the root. So of two descriptions it only
matters how these rules correspond: if each of them has a counterpart in the other description, with
other names throughout, the two grammars parse alike, up to the names in the tree
(`Grammar.parse_renamed`). Neither the order of the rules nor other ones make a difference, and the
skips of a block follow the name of the rule that it skips (`Definition.woven_rename`).
-/

namespace Descent

variable {f : Word → Word}

/-- The definition with every name changed. -/
def Definition.rename (f : Word → Word) (d : Definition) : Definition :=
  ⟨f d.name, d.pattern.rename f, d.skip.map f⟩

/-- To change names and to weave skips in can be done in any order. -/
theorem Definition.woven_rename (f : Word → Word) (d : Definition) :
    (d.rename f).woven = d.woven.rename f := by
  obtain ⟨name, pattern, skip⟩ := d
  cases skip with
  | none => rfl
  | some skip =>
    change Pattern.concat [(pattern.rename f).skipping (f skip), .skip (f skip)] =
      (Pattern.concat [pattern.skipping skip, .skip skip]).rename f
    rw [← Pattern.concat_rename, Pattern.skipping_rename]
    rfl

namespace Rules

variable {rules rules' : Rules} {root name : Word}

/-- Every rule to which calls lead from the rule `root` is found among the rules `rules'` under its
    new name, with the other names in it changed, too. -/
def Renamed (f : Word → Word) (root : Word) (rules rules' : Rules) : Prop :=
  ∀ name p, Relation.ReflTransGen rules.Calls root name → rules.lookup name = some p →
    rules'.lookup (f name) = some (p.rename f)

/-- In closed rules, calls only lead to rules that are defined. -/
theorem Closed.isSome_lookup (hrules : rules.Closed) (hroot : (rules.lookup root).isSome)
    (hcalls : Relation.ReflTransGen rules.Calls root name) : (rules.lookup name).isSome := by
  cases hcalls with
  | refl => exact hroot
  | tail _ hcall =>
    obtain ⟨p, hp, hname⟩ := hcall
    exact hrules _ (mem_of_lookup hp) name hname

/-- A rule to which calls lead lists the same under its new name, but for the names in the nodes. -/
theorem listing_renamed (h : Renamed f root rules rules') (hrules : rules.Closed)
    (hroot : (rules.lookup root).isSome) (t : Text) (limit : Nat)
    (hcalls : Relation.ReflTransGen rules.Calls root name) (pos : Nat) :
    rules'.listing t limit (f name) pos = (rules.listing t limit name pos).map (.rename f) := by
  obtain ⟨p, hp⟩ := Option.isSome_iff_exists.1 (hrules.isSome_lookup hroot hcalls)
  -- By induction on the limit: what the rule names is entered under a smaller one.
  induction limit generalizing name p pos with
  | zero =>
    rw [listing, listing, h name p hcalls hp, hp]
    rfl
  | succ limit ih =>
    rw [listing, listing, h name p hcalls hp, hp]
    refine p.listing_rename (fun inner hinner pos => ?_) pos
    have hcalls' := hcalls.tail ⟨p, hp, hinner⟩
    obtain ⟨q, hq⟩ := Option.isSome_iff_exists.1 (hrules.isSome_lookup hroot hcalls')
    exact ih hcalls' pos q hq

end Rules

namespace Grammar

variable {g g' : Grammar} {w w' : Word} {root root' : Option RootChoice}
  {definitions definitions' : List Definition}

/-- Grammars whose roots list the same, but for the names in the nodes, parse alike. -/
theorem parse_rename {limit : Nat} {t : Text} (hroot : g'.root = f g.root)
    (h : g'.rules.listing t limit (f g.root) 0 =
      (g.rules.listing t limit g.root 0).map (.rename f)) :
    g'.parse limit t = (g.parse limit t).map (.rename f) := by
  have hfind (results : List Extent) : (results.map (.rename f)).find? (·.stop = t.size) =
      (results.find? (·.stop = t.size)).map (Extent.rename f) :=
    List.find?_map
  rw [parse_eq, parse_eq, hroot, h, Listing.refusal_map, Listing.results_map, hfind]
  cases (g.rules.listing t limit g.root 0).results.find? (·.stop = t.size) with
  | none => rfl
  | some e => exact congrArg Except.ok (e.rename_toTree f t g.root 0).symm

/-- The rules of compiled descriptions correspond if their definitions do. -/
theorem renamed_of_compile (hg : compile w root = .ok g) (hg' : compile w' root' = .ok g')
    (hw : Definition.Means w definitions) (hw' : Definition.Means w' definitions')
    (h : ∀ d ∈ definitions, Relation.ReflTransGen g.rules.Calls g.root d.name →
      d.rename f ∈ definitions') : g.rules.Renamed f g.root g'.rules := by
  intro name p hcalls hp
  obtain ⟨d, hd, rfl, rfl⟩ := (lookup_eq_some_iff hg hw).1 hp
  exact (lookup_eq_some_iff hg' hw').2 ⟨d.rename f, h d hd hcalls, rfl, d.woven_rename f⟩

/-- Only the rules matter to which calls lead from the root, but neither their order nor their
    names. If the definition of each of them stands in another description with its names changed,
    and the root is the same but for its name, then every text is parsed alike: it has the same tree
    but for the names, or is refused at the same offset, by both grammars as unmatched or by both as
    too deep. -/
theorem parse_renamed (hg : compile w root = .ok g) (hg' : compile w' root' = .ok g')
    (hw : Definition.Means w definitions) (hw' : Definition.Means w' definitions')
    (hroot : g'.root = f g.root)
    (h : ∀ d ∈ definitions, Relation.ReflTransGen g.rules.Calls g.root d.name →
      d.rename f ∈ definitions') (limit : Nat) (t : Text) :
    g'.parse limit t = (g.parse limit t).map (.rename f) ∧
      ∀ cause furthest, g.parse limit t = .error (.halted cause furthest) → cause = .tooDeep := by
  obtain ⟨hclosed, hdefined⟩ := closed_of_compile hg
  have hrenamed := renamed_of_compile hg hg' hw hw' h
  refine ⟨parse_rename hroot ?_, fun _ _ hhalt => tooDeep_of_parse hclosed hdefined hhalt⟩
  exact Rules.listing_renamed hrenamed hclosed hdefined t limit .refl 0

/-- The grammar of `@skip ws { a ::= 'x' b; b ::= 'y' | a; } ws ::= ' ';`. -/
def alternating : Grammar :=
  ⟨[(['a'], .sequence [.skip ['w', 's'], .literal ['x'], .skip ['w', 's'], .reference ['b'],
      .skip ['w', 's']]),
    (['b'], .sequence [.choice [.sequence [.skip ['w', 's'], .literal ['y']],
      .sequence [.skip ['w', 's'], .reference ['a']]], .skip ['w', 's']]),
    (['w', 's'], .literal [' '])], ['a']⟩

/-- The grammar of `z ::= s; s ::= ' '; @skip s { r ::= 'y' | q; q ::= 'x' r; }` with the
    root `q`. -/
def alternatingRenamed : Grammar :=
  ⟨[(['z'], .reference ['s']), (['s'], .literal [' ']),
    (['r'], .sequence [.choice [.sequence [.skip ['s'], .literal ['y']],
      .sequence [.skip ['s'], .reference ['q']]], .skip ['s']]),
    (['q'], .sequence [.skip ['s'], .literal ['x'], .skip ['s'], .reference ['r'],
      .skip ['s']])], ['q']⟩

/-- The names `a`, `b` and `ws` become `q`, `r` and `s`. -/
def otherName (name : Word) : Word :=
  if name = ['a'] then ['q'] else if name = ['b'] then ['r'] else ['s']

theorem compile_alternating :
    compile "@skip ws \x7b a ::= 'x' b; b ::= 'y' | a; \x7d ws ::= ' ';".toList none =
      .ok alternating := rfl

theorem compile_alternatingRenamed :
    compile "z ::= s; s ::= ' '; @skip s \x7b r ::= 'y' | q; q ::= 'x' r; \x7d".toList
      (some (.rule ['q'])) = .ok alternatingRenamed := rfl

/-- With the rules in another order, under other names, and with one more rule, `x xy` has the same
    tree but for the names. -/
theorem parse_renamed_alternating :
    compile "@skip ws \x7b a ::= 'x' b; b ::= 'y' | a; \x7d ws ::= ' ';".toList none =
      .ok alternating ∧
    compile "z ::= s; s ::= ' '; @skip s \x7b r ::= 'y' | q; q ::= 'x' r; \x7d".toList
      (some (.rule ['q'])) = .ok alternatingRenamed ∧
    ∃ tree, alternating.parse 9 #['x', ' ', 'x', 'y'] = .ok tree ∧
      alternatingRenamed.parse 9 #['x', ' ', 'x', 'y'] = .ok (tree.rename otherName) := by
  refine ⟨compile_alternating, compile_alternatingRenamed, ?_⟩
  have hw : Definition.Means
      "@skip ws \x7b a ::= 'x' b; b ::= 'y' | a; \x7d ws ::= ' ';".toList
      [⟨['a'], .sequence [.literal ['x'], .reference ['b']], some ['w', 's']⟩,
        ⟨['b'], .choice [.literal ['y'], .reference ['a']], some ['w', 's']⟩,
        ⟨['w', 's'], .literal [' '], none⟩] :=
    Definition.means_iff.2 rfl
  have hw' : Definition.Means
      "z ::= s; s ::= ' '; @skip s \x7b r ::= 'y' | q; q ::= 'x' r; \x7d".toList
      [⟨['z'], .reference ['s'], none⟩, ⟨['s'], .literal [' '], none⟩,
        ⟨['r'], .choice [.literal ['y'], .reference ['q']], some ['s']⟩,
        ⟨['q'], .sequence [.literal ['x'], .reference ['r']], some ['s']⟩] :=
    Definition.means_iff.2 rfl
  have hroot : alternatingRenamed.root = otherName alternating.root := by decide
  have h := parse_renamed compile_alternating compile_alternatingRenamed hw hw' hroot
    (by simp [Definition.rename, Pattern.rename, Pattern.renameAll, otherName]) 9
    #['x', ' ', 'x', 'y']
  have hok : (alternating.parse 9 #['x', ' ', 'x', 'y']).isOk := by decide +kernel
  obtain ⟨tree, hparse⟩ := isOk_iff.1 hok
  refine ⟨tree, hparse, ?_⟩
  rw [h.1, hparse]
  rfl

end Grammar

end Descent
