import Descent.Proofs.Description.Congruence
import Descent.Proofs.Description.Skips

/-!
# The names of blocks

A block leaves nothing behind but its rules, each of which knows the rule that is skipped in it. So
the rule that a block names has to be defined, outside of blocks, as soon as there is a rule in the
block (`Grammar.blocks_defined`). A block without rules leaves no trace, whatever it names, be it
defined or not (`Grammar.compile_emptyBlock`).
-/

namespace Descent

/-! ## Rules and definitions -/

theorem Rule.Denotes.name_skip {skip : Option Word} {r : Rule} {e : Definition}
    (h : r.Denotes skip e) : e.name = r.name ∧ e.skip = skip := by
  cases h
  exact ⟨rfl, rfl⟩

/-- The item is a block without rules. -/
def Item.isEmptyBlock : Item → Bool
  | .block _ [] => true
  | _ => false

namespace Description

/-- A rule outside of blocks has the name, and none inside of them does. -/
def DefinesOutside (d : Description) (name : Word) : Prop :=
  (∃ r, .rule r ∈ d ∧ r.name = name) ∧
    ∀ block rules, .block block rules ∈ d → ∀ r ∈ rules, r.name ≠ name

variable {d : Description} {definitions : List Definition}

/-- Every rule in a block has a definition that skips the rule named by the block. -/
theorem Denotes.exists_of_block (h : d.Denotes definitions) {name : Word} {rules : List Rule}
    (hblock : .block name rules ∈ d) {r : Rule} (hr : r ∈ rules) :
    ∃ e ∈ definitions, r.Denotes (some name) e := by
  induction h with
  | nil => cases hblock
  | rule _ _ ih =>
    obtain ⟨e, he, hdenotes⟩ := ih ((List.mem_cons.1 hblock).resolve_left nofun)
    exact ⟨e, List.mem_cons_of_mem _ he, hdenotes⟩
  | block h _ ih =>
    obtain heq | hblock := List.mem_cons.1 hblock
    · cases heq
      obtain ⟨e, he, hdenotes⟩ := exists_of_mem_forall₂ h.flip hr
      exact ⟨e, List.mem_append_left _ he, hdenotes⟩
    · obtain ⟨e, he, hdenotes⟩ := ih hblock
      exact ⟨e, List.mem_append_right _ he, hdenotes⟩

/-- Every definition with a skip comes from a rule in a block that names the rule to be skipped. -/
theorem Denotes.exists_of_skip_eq_some (h : d.Denotes definitions) {e : Definition}
    (he : e ∈ definitions) {name : Word} (hskip : e.skip = some name) :
    ∃ rules, .block name rules ∈ d := by
  induction h with
  | nil => cases he
  | rule h _ ih =>
    obtain rfl | he := List.mem_cons.1 he
    · cases hskip.symm.trans h.name_skip.2
    · obtain ⟨rules, hblock⟩ := ih he
      exact ⟨rules, List.mem_cons_of_mem _ hblock⟩
  | block h _ ih =>
    obtain he | he := List.mem_append.1 he
    · obtain ⟨r, -, hdenotes⟩ := exists_of_mem_forall₂ h he
      cases hskip.symm.trans hdenotes.name_skip.2
      exact ⟨_, List.mem_cons_self⟩
    · obtain ⟨rules, hblock⟩ := ih he
      exact ⟨rules, List.mem_cons_of_mem _ hblock⟩

/-- Every definition without a skip comes from a rule outside of blocks. -/
theorem Denotes.exists_of_skip_eq_none (h : d.Denotes definitions) {e : Definition}
    (he : e ∈ definitions) (hskip : e.skip = none) : ∃ r, .rule r ∈ d ∧ r.name = e.name := by
  induction h with
  | nil => cases he
  | rule h _ ih =>
    obtain rfl | he := List.mem_cons.1 he
    · exact ⟨_, List.mem_cons_self, h.name_skip.1.symm⟩
    · obtain ⟨r, hr, hname⟩ := ih he
      exact ⟨r, List.mem_cons_of_mem _ hr, hname⟩
  | block h _ ih =>
    obtain he | he := List.mem_append.1 he
    · obtain ⟨r, -, hdenotes⟩ := exists_of_mem_forall₂ h he
      cases hskip.symm.trans hdenotes.name_skip.2
    · obtain ⟨r, hr, hname⟩ := ih he
      exact ⟨r, List.mem_cons_of_mem _ hr, hname⟩

/-- In consistent definitions, what a block with rules in it names is defined outside of blocks. -/
theorem Denotes.definesOutside (h : d.Denotes definitions)
    (hconsistent : Definition.Consistent definitions) {name : Word} {rules : List Rule}
    (hblock : .block name rules ∈ d) (hrules : rules ≠ []) : d.DefinesOutside name := by
  obtain ⟨r, hr⟩ := List.exists_mem_of_ne_nil rules hrules
  obtain ⟨user, huser, hdenotes⟩ := h.exists_of_block hblock hr
  obtain ⟨-, hskip⟩ := hdenotes.name_skip
  obtain ⟨e, he, rfl⟩ := hconsistent.defined user huser name (.inr hskip)
  have houtside := hconsistent.outside user huser
  refine ⟨h.exists_of_skip_eq_none he (houtside e he hskip),
    fun block inner hinner r' hr' hname => ?_⟩
  obtain ⟨e', he', hdenotes'⟩ := h.exists_of_block hinner hr'
  obtain ⟨hname', hskip'⟩ := hdenotes'.name_skip
  cases (houtside e' he' (by rw [hname', hname, hskip])).symm.trans hskip'

/-! ## Blocks without rules -/

/-- The description without the blocks that have no rules. -/
def withoutEmptyBlocks (d : Description) : Description := d.filter fun item => !item.isEmptyBlock

theorem define_cons (item : Item) (d : Description) :
    define (item :: d) = item.define >>= fun inner => d.define.map (inner ++ ·) := by
  rw [define, define, List.mapM_cons]
  cases item.define with
  | error => rfl
  | ok inner => cases d.mapM Item.define <;> rfl

/-- Blocks without rules define nothing. -/
theorem define_withoutEmptyBlocks (d : Description) : d.withoutEmptyBlocks.define = d.define := by
  induction d with
  | nil => rfl
  | cons item d ih =>
    rw [withoutEmptyBlocks, List.filter_cons]
    split
    · rw [define_cons, define_cons, ← ih]
      rfl
    · rename_i hempty
      have hdefine : item.define = .ok [] := by
        match item, hempty with
        | .block _ [], _ => rfl
      rw [define_cons, hdefine]
      change define (withoutEmptyBlocks d) = (define d).map ([] ++ ·)
      rw [ih]
      cases define d <;> rfl

end Description

namespace Grammar

variable {w w' : Word} {root : Option RootChoice} {g : Grammar} {d d' : Description}

/-- Descriptions that only differ in blocks without rules are compiled alike. -/
theorem compile_eq_of_withoutEmptyBlocks_eq (hw : d.SpelledBy w) (hw' : d'.SpelledBy w')
    (h : d'.withoutEmptyBlocks = d.withoutEmptyBlocks) : compile w' root = compile w root := by
  have hdefine : d'.define = d.define := by
    rw [← d'.define_withoutEmptyBlocks, h, d.define_withoutEmptyBlocks]
  simp only [compile, Definition.read, Description.spelledBy_iff.1 hw,
    Description.spelledBy_iff.1 hw', hdefine]

/-- If a description gives a grammar, the rule that a block with rules in it names is defined, and
    outside of blocks. What the other blocks name is of no account: with other blocks in their
    place, or with none, the description gives the same grammar. -/
theorem blocks_defined (hg : compile w root = .ok g) (hw : d.SpelledBy w) :
    (∀ name rules, .block name rules ∈ d → rules ≠ [] → d.DefinesOutside name) ∧
    ∀ (d' : Description) (w' : Word), d'.SpelledBy w' →
      d'.withoutEmptyBlocks = d.withoutEmptyBlocks → compile w' root = .ok g := by
  obtain ⟨e, definitions, hmeans, hproblem, -⟩ := exists_means_of_compile hg
  refine ⟨fun name rules hblock hrules => ?_, fun d' w' hw' h => ?_⟩
  · exact (hw.means_iff.1 hmeans).definesOutside (Definition.consistent_iff.2 hproblem) hblock
      hrules
  · rw [compile_eq_of_withoutEmptyBlocks_eq hw hw' h, hg]

/-- The description `@skip b { } @skip ws { a ::= 'x'; } ws ::= ' ';`. -/
def namingNothing : Description :=
  [.block ['b'] [], .block ['w', 's'] [⟨['a'], [[.literal ['x']]]⟩],
    .rule ⟨['w', 's'], [[.literal [' ']]]⟩]

/-- The rule that is skipped around `a` is defined, but there is no rule `b`. -/
theorem blocks_defined_namingNothing :
    compile "@skip b \x7b \x7d @skip ws \x7b a ::= 'x'; \x7d ws ::= ' ';".toList none = .ok spaced ∧
    namingNothing.DefinesOutside ['w', 's'] ∧ ¬namingNothing.DefinesOutside ['b'] ∧
    compile "@skip ws \x7b a ::= 'x'; \x7d ws ::= ' ';".toList none = .ok spaced := by
  have hcompile :
      compile "@skip b \x7b \x7d @skip ws \x7b a ::= 'x'; \x7d ws ::= ' ';".toList none =
        .ok spaced := rfl
  obtain ⟨hdefined, hsame⟩ := blocks_defined hcompile
    (Description.spelledBy_iff.2 (rfl : Description.parse _ = .ok namingNothing))
  refine ⟨hcompile, hdefined _ _ (List.mem_cons_of_mem _ List.mem_cons_self) (List.cons_ne_nil _ _),
    ?_, hsame namingNothing.tail _ (Description.spelledBy_iff.2 rfl) rfl⟩
  rintro ⟨⟨r, hr, hname⟩, -⟩
  obtain rfl : r = ⟨['w', 's'], [[.literal [' ']]]⟩ := by simpa [namingNothing] using hr
  cases hname

/-- The description `@skip ws { } a ::= 'x';`. -/
def undefinedBlock : Description := [.block ['w', 's'] [], .rule ⟨['a'], [[.literal ['x']]]⟩]

/-- The description `@skip ws { } @skip b { ws ::= 'x'; } b ::= ' ';`. -/
def blockInBlock : Description :=
  [.block ['w', 's'] [], .block ['b'] [⟨['w', 's'], [[.literal ['x']]]⟩],
    .rule ⟨['b'], [[.literal [' ']]]⟩]

/-- The grammar of `a ::= 'x';`. -/
def single : Grammar := ⟨[(['a'], .literal ['x'])], ['a']⟩

/-- The grammar of `@skip b { ws ::= 'x'; } b ::= ' ';`. -/
def inBlock : Grammar :=
  ⟨[(['w', 's'], .sequence [.skip ['b'], .literal ['x'], .skip ['b']]), (['b'], .literal [' '])],
    ['w', 's']⟩

/-- A block without rules may name a rule that is not defined, or one that stands in a block. -/
theorem compile_emptyBlock :
    undefinedBlock.SpelledBy "@skip ws \x7b \x7d a ::= 'x';".toList ∧
    compile "@skip ws \x7b \x7d a ::= 'x';".toList none = .ok single ∧ ['w', 's'] ∉ single.names ∧
    blockInBlock.SpelledBy "@skip ws \x7b \x7d @skip b \x7b ws ::= 'x'; \x7d b ::= ' ';".toList ∧
    compile "@skip ws \x7b \x7d @skip b \x7b ws ::= 'x'; \x7d b ::= ' ';".toList none =
      .ok inBlock ∧
    ¬undefinedBlock.DefinesOutside ['w', 's'] ∧ ¬blockInBlock.DefinesOutside ['w', 's'] := by
  refine ⟨Description.spelledBy_iff.2 rfl, rfl, by decide, Description.spelledBy_iff.2 rfl, rfl,
    fun ⟨⟨r, hr, hname⟩, _⟩ => ?_, fun ⟨_, hblock⟩ => ?_⟩
  · obtain hr | hr := List.mem_cons.1 hr
    · cases hr
    · cases List.mem_singleton.1 hr
      cases hname
  · exact hblock ['b'] _ (List.mem_cons_of_mem _ List.mem_cons_self) _ List.mem_cons_self rfl

end Grammar

end Descent
