import Descent.Proofs.Closed
import Descent.Proofs.Description.Format
import Mathlib.Data.List.Nodup
import Mathlib.Data.Option.Basic

/-!
# What is required of a description

A description gives a grammar if it meets all requirements (`Requirement.inOrder`): on what it
spells, on what it defines, and on the root. A description that gives none is refused for the first
requirement in this order that it does not meet, and the error names what is at fault
(`Grammar.compile_requirements`).

What is checked are the rules with their skips, which depend on the names that their definitions
depend on (`Definition.mem_names_woven_iff`). So the rules of a grammar are closed
(`Grammar.closed_of_compile`), and no search in them comes to a rule that is not defined.
-/

namespace Descent

variable {name : Word}

/-! ## Names -/

namespace Pattern

/-- A reference to the rule `name`, or a skip of it, stands in the pattern. -/
inductive Mentions (name : Word) : (p : Pattern) → Prop
  | reference : Mentions name (.reference name)
  | skip : Mentions name (.skip name)
  | sequence {items : List Pattern} {p : Pattern} (hp : p ∈ items) (h : Mentions name p) :
    Mentions name (.sequence items)
  | choice {alternatives : List Pattern} {p : Pattern} (hp : p ∈ alternatives)
    (h : Mentions name p) : Mentions name (.choice alternatives)
  | repetition {item : Pattern} {minimum : Int} {maximum : Option Int} (h : Mentions name item) :
    Mentions name (.repetition item minimum maximum)

theorem Mentions.mem_names {p : Pattern} (h : p.Mentions name) : name ∈ p.names := by
  induction h with
  | reference | skip => exact List.mem_singleton_self name
  | sequence hp _ ih | choice hp _ ih => exact names_subset_namesOfAll hp ih
  | repetition _ ih => exact ih

mutual

theorem mentions_of_mem_names : ∀ {p : Pattern}, name ∈ p.names → p.Mentions name
  | .literal _, h | .charClass _, h => absurd h List.not_mem_nil
  | .sequence _, h =>
    have ⟨_, hp, hmentions⟩ := exists_mentions_of_mem_namesOfAll h
    .sequence hp hmentions
  | .choice _, h =>
    have ⟨_, hp, hmentions⟩ := exists_mentions_of_mem_namesOfAll h
    .choice hp hmentions
  | .repetition _ _ _, h => .repetition (mentions_of_mem_names h)
  | .reference n, h => by
    obtain rfl : name = n := List.mem_singleton.1 h
    exact .reference
  | .skip n, h => by
    obtain rfl : name = n := List.mem_singleton.1 h
    exact .skip

theorem exists_mentions_of_mem_namesOfAll :
    ∀ {ps : List Pattern}, name ∈ namesOfAll ps → ∃ p ∈ ps, p.Mentions name
  | [], h => absurd h List.not_mem_nil
  | p :: ps, h => by
    obtain h | h := List.mem_append.1 h
    · exact ⟨p, List.mem_cons_self, mentions_of_mem_names h⟩
    · obtain ⟨p', hp', h⟩ := exists_mentions_of_mem_namesOfAll h
      exact ⟨p', List.mem_cons_of_mem _ hp', h⟩

end

/-- The names of a pattern are those that it mentions. -/
theorem mem_names_iff {p : Pattern} : name ∈ p.names ↔ p.Mentions name :=
  ⟨mentions_of_mem_names, Mentions.mem_names⟩

theorem namesOfAll_append (ps qs : List Pattern) :
    namesOfAll (ps ++ qs) = namesOfAll ps ++ namesOfAll qs := by
  induction ps with
  | nil => rfl
  | cons p ps ih => rw [List.cons_append, namesOfAll, ih, namesOfAll, List.append_assoc]

theorem namesOfAll_items (p : Pattern) : namesOfAll p.items = p.names := by
  cases p with
  | sequence items => rfl
  | _ => exact List.append_nil _

/-- A flat sequence has the names of its parts. -/
theorem names_concat (ps : List Pattern) : (concat ps).names = namesOfAll ps := by
  rw [concat, names]
  induction ps with
  | nil => rfl
  | cons p ps ih => rw [List.flatMap_cons, namesOfAll_append, namesOfAll_items, ih, namesOfAll]

theorem names_inOrder (ps : List Pattern) : (inOrder ps).names = namesOfAll ps := by
  rw [inOrder.eq_def]
  split
  · exact (List.append_nil _).symm
  · exact names_concat _

theorem names_anyOf (ps : List Pattern) : (anyOf ps).names = namesOfAll ps := by
  rw [anyOf.eq_def]
  split
  · exact (List.append_nil _).symm
  · rfl

mutual

/-- Skips bring no other name than that of the rule that is skipped. -/
theorem mem_names_skipping_iff (skip : Word) : ∀ p : Pattern,
    (name ∈ (p.skipping skip).names ∨ name = skip) ↔ (name ∈ p.names ∨ name = skip)
  | .literal _ | .charClass _ => by simp [skipping, names, namesOfAll]
  | .reference n => by
    change name ∈ [skip, n] ∨ name = skip ↔ name ∈ [n] ∨ name = skip
    rw [List.mem_cons, or_comm (a := name = skip), or_assoc, or_self]
  | .skip _ => Iff.rfl
  | .sequence items => by
    rw [skipping, names_concat]
    exact mem_namesOfAll_skippingAll_iff skip items
  | .choice alternatives => mem_namesOfAll_skippingAll_iff skip alternatives
  | .repetition item _ _ => mem_names_skipping_iff skip item

theorem mem_namesOfAll_skippingAll_iff (skip : Word) : ∀ ps : List Pattern,
    (name ∈ namesOfAll (skippingAll skip ps) ∨ name = skip) ↔ (name ∈ namesOfAll ps ∨ name = skip)
  | [] => Iff.rfl
  | p :: ps => by
    rw [skippingAll, namesOfAll, namesOfAll, List.mem_append, List.mem_append, or_or_distrib_right,
      mem_names_skipping_iff skip p, mem_namesOfAll_skippingAll_iff skip ps, ← or_or_distrib_right]

end

end Pattern

namespace Definition

/-- The rule refers to the rule `name`, or skips it. -/
def DependsOn (d : Definition) (name : Word) : Prop :=
  d.pattern.Mentions name ∨ d.skip = some name

/-- The pattern with its skips has the names that the definition depends on. -/
theorem mem_names_woven_iff {d : Definition} : name ∈ d.woven.names ↔ d.DependsOn name := by
  rw [woven, DependsOn, ← Pattern.mem_names_iff]
  cases d.skip with
  | none => simp
  | some skip =>
    rw [Pattern.names_concat]
    change name ∈ (d.pattern.skipping skip).names ++ [skip] ↔ _
    rw [List.mem_append, List.mem_singleton, Pattern.mem_names_skipping_iff, Option.some_inj,
      eq_comm (a := skip)]

/-- The text spells a description that means the definitions. -/
def Means (w : Word) (definitions : List Definition) : Prop :=
  ∃ tokens d, Token.Spells false tokens w ∧ IsDescription tokens d ∧ d.Denotes definitions

theorem means_iff {w : Word} {definitions : List Definition} :
    Means w definitions ↔ read w = .ok definitions :=
  read_eq_ok_iff.symm

/-! ## Single checks -/

variable {definitions : List Definition}

theorem duplicate?_eq_none_iff {before names : List Word} :
    duplicate? before names = none ↔ names.Nodup ∧ ∀ name ∈ names, name ∉ before := by
  induction names generalizing before with
  | nil => simp [duplicate?]
  | cons name names ih =>
    rw [duplicate?]
    split
    · rename_i hname
      simp [hname]
    · rename_i hname
      rw [ih, List.nodup_cons, List.forall_mem_cons]
      simp only [List.mem_cons, not_or]
      constructor
      · rintro ⟨hnodup, hnames⟩
        exact ⟨⟨fun hmem => (hnames name hmem).1 rfl, hnodup⟩, hname,
          fun other hother => (hnames other hother).2⟩
      · rintro ⟨⟨hmem, hnodup⟩, -, hnames⟩
        exact ⟨hnodup, fun other hother => ⟨fun h => hmem (h ▸ hother), hnames other hother⟩⟩

/-- The name that is found comes again. -/
theorem exists_of_duplicate? {before names : List Word} (h : duplicate? before names = some name) :
    ∃ earlier later, names = earlier ++ name :: later ∧ (name ∈ before ∨ name ∈ earlier) := by
  induction names generalizing before with
  | nil => cases h
  | cons other names ih =>
    rw [duplicate?] at h
    split at h
    · rename_i hother
      cases h
      exact ⟨[], names, rfl, .inl hother⟩
    · obtain ⟨earlier, later, rfl, hname⟩ := ih h
      rw [List.mem_cons, or_assoc, or_left_comm, ← List.mem_cons] at hname
      exact ⟨other :: earlier, later, rfl, hname⟩

theorem skipInBlock?_eq_none_iff :
    skipInBlock? definitions = none ↔
      ∀ d ∈ definitions, ∀ e ∈ definitions, d.skip = some e.name → e.skip = none := by
  rw [skipInBlock?, List.findSome?_eq_none_iff]
  refine forall₂_congr fun d _ => ?_
  simp only [Option.filter_eq_none_iff, List.any_eq_true, Bool.and_eq_true, decide_eq_true_eq,
    Option.isSome_iff_ne_none, not_exists, not_and, ne_eq, not_not]
  constructor
  · intro h e he hskip
    exact h e.name hskip e he rfl
  · rintro h _ hskip e he rfl
    exact h e he hskip

/-- The name that is found is skipped by a block, and defined in one. -/
theorem exists_of_skipInBlock? (h : skipInBlock? definitions = some name) :
    (∃ d ∈ definitions, d.skip = some name) ∧
      ∃ e ∈ definitions, e.name = name ∧ e.skip ≠ none := by
  obtain ⟨d, hd, h⟩ := List.exists_of_findSome?_eq_some h
  obtain ⟨hskip, hblock⟩ := Option.filter_eq_some_iff.1 h
  obtain ⟨e, he, hname⟩ := List.any_eq_true.1 hblock
  rw [Bool.and_eq_true, decide_eq_true_eq, Option.isSome_iff_ne_none] at hname
  exact ⟨⟨d, hd, hskip⟩, e, he, hname⟩

end Definition

namespace Rules

variable {rules : Rules}

theorem undefined?_eq_none_iff : rules.undefined? = none ↔ rules.Closed := by
  rw [undefined?, List.findSome?_eq_none_iff]
  refine forall₂_congr fun rule _ => ?_
  rw [Option.map_eq_none_iff, List.find?_eq_none]
  simp only [Option.isNone_iff_eq_none, Option.isSome_iff_ne_none, ne_eq]

/-- The name that is found is not defined, and the rule `user` depends on it. -/
theorem exists_of_undefined? {user : Word} (h : rules.undefined? = some (name, user)) :
    (∃ p, (user, p) ∈ rules ∧ name ∈ p.names) ∧ (rules.lookup name).isSome = false := by
  obtain ⟨⟨_, p⟩, hrule, h⟩ := List.exists_of_findSome?_eq_some h
  obtain ⟨_, hname, heq⟩ := Option.map_eq_some_iff.1 h
  cases heq
  refine ⟨⟨p, hrule, List.mem_of_find?_eq_some hname⟩, ?_⟩
  simpa using List.find?_some hname

theorem root_eq_ok_iff {choice : RootChoice} :
    rules.root choice = .ok name ↔ choice = .rule name ∧ (rules.lookup name).isSome := by
  cases choice with
  | other shown => simp [root]
  | rule other =>
    rw [root]
    split
    · rename_i hother
      simp only [Except.ok.injEq, RootChoice.rule.injEq, iff_self_and]
      rintro rfl
      exact hother
    · rename_i hother
      simp only [reduceCtorEq, RootChoice.rule.injEq, false_iff, not_and]
      rintro rfl
      exact hother

theorem root_eq_error {choice : RootChoice} {e : DescriptionError}
    (h : rules.root choice = .error e) : e = .undefinedRoot choice := by
  rw [root.eq_def] at h
  split at h
  · split at h <;> cases h
    rfl
  · cases h
    rfl

end Rules

namespace Grammar

variable {definitions : List Definition}

/-- The rules that are defined are those of the definitions. -/
theorem isSome_lookup_rulesOf :
    ((rulesOf definitions).lookup name).isSome ↔ ∃ d ∈ definitions, d.name = name := by
  rw [rulesOf, List.lookup_isSome_iff]
  simp only [List.mem_map, exists_exists_and_eq_and, beq_iff_eq, eq_comm (a := name)]

/-- The rules are closed if everything that the definitions depend on is defined. -/
theorem closed_rulesOf_iff :
    (rulesOf definitions).Closed ↔
      ∀ d ∈ definitions, ∀ name, d.DependsOn name → ∃ e ∈ definitions, e.name = name := by
  simp only [Rules.Closed, isSome_lookup_rulesOf]
  simp only [rulesOf, List.forall_mem_map, Definition.mem_names_woven_iff]

/-- The name that is found is not defined, and the definition `user` depends on it. -/
theorem exists_of_undefined?_rulesOf {user : Word}
    (h : (rulesOf definitions).undefined? = some (name, user)) :
    (∃ d ∈ definitions, d.name = user ∧ d.DependsOn name) ∧ ∀ e ∈ definitions, e.name ≠ name := by
  obtain ⟨⟨p, hp, hname⟩, hlookup⟩ := Rules.exists_of_undefined? h
  obtain ⟨d, hd, heq⟩ := List.mem_map.1 hp
  cases heq
  refine ⟨⟨d, hd, rfl, Definition.mem_names_woven_iff.1 hname⟩, fun e he hname => ?_⟩
  rw [isSome_lookup_rulesOf.2 ⟨e, he, hname⟩] at hlookup
  cases hlookup

theorem problem?_eq_none_iff :
    problem? definitions = none ↔ Definition.duplicate? [] (definitions.map (·.name)) = none ∧
      Definition.skipInBlock? definitions = none ∧ (rulesOf definitions).undefined? = none := by
  rw [problem?, Option.orElse_eq_none, Option.orElse_eq_none, Option.map_eq_none_iff,
    Option.map_eq_none_iff, Option.map_eq_none_iff]

end Grammar

/-! ## Requirements -/

/-- What is required of a text and a root. -/
inductive Requirement where
  /-- The text spells a description. -/
  | spelled
  /-- The ranges of its classes are in order. -/
  | ordered
  /-- A rule is defined. -/
  | nonempty
  /-- No name is defined twice. -/
  | distinct
  /-- The rule that a block skips stands outside of blocks. -/
  | outside
  /-- All rules that are referred to or skipped are defined. -/
  | defined
  /-- The root is defined, if one is asked for. The first rule always is. -/
  | rooted
  deriving DecidableEq, Repr

namespace Requirement

/-- All requirements, in the order in which they are checked. -/
def inOrder : List Requirement :=
  [.spelled, .ordered, .nonempty, .distinct, .outside, .defined, .rooted]

open Definition in
/-- The text and the root meet the requirement. -/
def Met (w : Word) (root : Option RootChoice) : (r : Requirement) → Prop
  | .spelled => ∃ tokens d, Token.Spells false tokens w ∧ IsDescription tokens d
  | .ordered => ∀ tokens, Token.Spells false tokens w → OrderedClasses tokens
  | .nonempty => ∀ definitions, Means w definitions → definitions ≠ []
  | .distinct => ∀ definitions, Means w definitions → (definitions.map (·.name)).Nodup
  | .outside => ∀ definitions, Means w definitions →
    ∀ d ∈ definitions, ∀ e ∈ definitions, d.skip = some e.name → e.skip = none
  | .defined => ∀ definitions, Means w definitions →
    ∀ d ∈ definitions, ∀ name, d.DependsOn name → ∃ e ∈ definitions, e.name = name
  | .rooted => ∀ definitions, Means w definitions →
    ∀ choice ∈ root, ∃ d ∈ definitions, choice = .rule d.name

/-- The requirement is the first one that is not met. -/
def FirstUnmet (w : Word) (root : Option RootChoice) (r : Requirement) : Prop :=
  ¬r.Met w root ∧ ∃ before later, inOrder = before ++ r :: later ∧ ∀ q ∈ before, q.Met w root

end Requirement

namespace DescriptionError

/-- What a description that is refused does not meet. -/
def requirement : (e : DescriptionError) → Requirement
  | .malformed _ => .spelled
  | .inverted _ => .ordered
  | .empty => .nonempty
  | .duplicate _ => .distinct
  | .skipInBlock _ => .outside
  | .undefined _ _ => .defined
  | .undefinedRoot _ => .rooted

open Definition in
/-- What the error names is at fault. -/
def Blames (w : Word) (root : Option RootChoice) : (e : DescriptionError) → Prop
  | .malformed _ => ∀ tokens d, Token.Spells false tokens w → ¬IsDescription tokens d
  | .inverted range => ∃ tokens, Token.Spells false tokens w ∧ HasMiswritten tokens range
  | .empty => Means w []
  | .duplicate name => ∃ definitions earlier later, Means w definitions ∧
    definitions.map (·.name) = earlier ++ name :: later ∧ name ∈ earlier
  | .skipInBlock name => ∃ definitions, Means w definitions ∧
    (∃ d ∈ definitions, d.skip = some name) ∧ ∃ e ∈ definitions, e.name = name ∧ e.skip ≠ none
  | .undefined name user => ∃ definitions, Means w definitions ∧
    (∃ d ∈ definitions, d.name = user ∧ d.DependsOn name) ∧ ∀ e ∈ definitions, e.name ≠ name
  | .undefinedRoot choice => root = some choice ∧ ∃ definitions, Means w definitions ∧
    ∀ d ∈ definitions, choice ≠ .rule d.name

end DescriptionError

/-! ## From the text to the grammar -/

variable {w : Word} {root : Option RootChoice} {definitions : List Definition}
  {e : DescriptionError}

namespace Definition.Means

/-- A text means one list of definitions only. -/
theorem forall_iff (h : Means w definitions) {P : List Definition → Prop} :
    (∀ others, Means w others → P others) ↔ P definitions := by
  refine ⟨fun hall => hall definitions h, fun hp others hothers => ?_⟩
  cases (means_iff.1 h).symm.trans (means_iff.1 hothers)
  exact hp

theorem spelled (h : Means w definitions) : Requirement.spelled.Met w root := by
  obtain ⟨tokens, d, hspells, hd, -⟩ := h
  exact ⟨tokens, d, hspells, hd⟩

theorem ordered (h : Means w definitions) : Requirement.ordered.Met w root := by
  obtain ⟨tokens, d, hspells, hd, hdefinitions⟩ := h
  intro others hothers
  rw [← (Token.spells_iff.1 hothers).1, (Token.spells_iff.1 hspells).1]
  exact hd.exists_denotes_iff.1 ⟨definitions, hdefinitions⟩

theorem nonempty_iff (h : Means w definitions) :
    Requirement.nonempty.Met w root ↔ definitions ≠ [] :=
  h.forall_iff

theorem distinct_iff (h : Means w definitions) :
    Requirement.distinct.Met w root ↔ duplicate? [] (definitions.map (·.name)) = none := by
  rw [duplicate?_eq_none_iff, and_iff_left fun _ _ => List.not_mem_nil]
  exact h.forall_iff

theorem outside_iff (h : Means w definitions) :
    Requirement.outside.Met w root ↔ skipInBlock? definitions = none :=
  h.forall_iff.trans skipInBlock?_eq_none_iff.symm

theorem defined_iff (h : Means w definitions) :
    Requirement.defined.Met w root ↔ (Grammar.rulesOf definitions).undefined? = none := by
  rw [Rules.undefined?_eq_none_iff, Grammar.closed_rulesOf_iff]
  exact h.forall_iff

end Definition.Means

/-- A text that has no definitions does not spell a description with its classes in order. -/
theorem Definition.refused_of_read (h : Definition.read w = .error e) :
    e.Blames w root ∧ e.requirement.FirstUnmet w root := by
  rw [Definition.read] at h
  cases hparse : Description.parse w with
  | error start =>
    rw [hparse] at h
    cases h
    have hspelled : ∀ tokens d, Token.Spells false tokens w → ¬IsDescription tokens d := by
      intro tokens d hspells hd
      cases hparse.symm.trans (Description.parse_eq_ok_iff.2 ⟨tokens, hspells, hd⟩)
    refine ⟨hspelled, ?_, [], _, rfl, List.forall_mem_nil _⟩
    rintro ⟨tokens, d, hspells, hd⟩
    exact hspelled tokens d hspells hd
  | ok d =>
    rw [hparse] at h
    cases hdefine : d.define with
    | ok definitions =>
      simp only [hdefine] at h
      cases h
    | error range =>
      simp only [hdefine] at h
      cases h
      obtain ⟨tokens, hspells, hd⟩ := Description.parse_eq_ok_iff.1 hparse
      refine ⟨⟨tokens, hspells, hd.hasMiswritten hdefine⟩, fun hordered => ?_,
        [.spelled], _, rfl, List.forall_mem_singleton.2 ⟨tokens, d, hspells, hd⟩⟩
      obtain ⟨definitions, hdefinitions⟩ := hd.exists_denotes_iff.2 (hordered tokens hspells)
      cases hdefine.symm.trans (Description.define_eq_ok_iff.2 hdefinitions)

/-- Definitions do not give a grammar for the first reason that is found. -/
theorem Definition.Means.refused_of_problem? (h : Means w definitions)
    (he : Grammar.problem? definitions = some e) (hdefinitions : definitions ≠ []) :
    e.Blames w root ∧ e.requirement.FirstUnmet w root := by
  have hnonempty : Requirement.nonempty.Met w root := h.nonempty_iff.2 hdefinitions
  rw [Grammar.problem?, Option.orElse_eq_some, Option.orElse_eq_some] at he
  obtain he | ⟨hduplicate, he⟩ := he
  · obtain ⟨name, hname, rfl⟩ := Option.map_eq_some_iff.1 he
    obtain ⟨earlier, later, heq, hmem⟩ := exists_of_duplicate? hname
    refine ⟨⟨_, earlier, later, h, heq, hmem.resolve_left List.not_mem_nil⟩, fun hdistinct => ?_,
      [.spelled, .ordered, .nonempty], _, rfl, by simp [h.spelled, h.ordered, hnonempty]⟩
    cases hname.symm.trans (h.distinct_iff.1 hdistinct)
  have hdistinct : Requirement.distinct.Met w root :=
    h.distinct_iff.2 (Option.map_eq_none_iff.1 hduplicate)
  obtain he | ⟨hskip, he⟩ := he
  · obtain ⟨name, hname, rfl⟩ := Option.map_eq_some_iff.1 he
    refine ⟨⟨_, h, exists_of_skipInBlock? hname⟩, fun houtside => ?_,
      [.spelled, .ordered, .nonempty, .distinct], _, rfl,
      by simp [h.spelled, h.ordered, hnonempty, hdistinct]⟩
    cases hname.symm.trans (h.outside_iff.1 houtside)
  have houtside : Requirement.outside.Met w root :=
    h.outside_iff.2 (Option.map_eq_none_iff.1 hskip)
  obtain ⟨⟨name, user⟩, hname, rfl⟩ := Option.map_eq_some_iff.1 he
  refine ⟨⟨_, h, Grammar.exists_of_undefined?_rulesOf hname⟩, fun hdefined => ?_,
    [.spelled, .ordered, .nonempty, .distinct, .outside], _, rfl,
    by simp [h.spelled, h.ordered, hnonempty, hdistinct, houtside]⟩
  cases hname.symm.trans (h.defined_iff.1 hdefined)

/-- If nothing is wrong with the definitions, they meet what is required of them. -/
theorem Definition.Means.met_of_problem? (h : Means w definitions)
    (hproblem : Grammar.problem? definitions = none) (hdefinitions : definitions ≠ []) :
    ∀ r ∈ [Requirement.spelled, .ordered, .nonempty, .distinct, .outside, .defined],
      r.Met w root := by
  obtain ⟨hduplicate, hskip, hundefined⟩ := Grammar.problem?_eq_none_iff.1 hproblem
  simp only [List.forall_mem_cons]
  exact ⟨h.spelled, h.ordered, h.nonempty_iff.2 hdefinitions, h.distinct_iff.2 hduplicate,
    h.outside_iff.2 hskip, h.defined_iff.2 hundefined, nofun⟩

namespace Grammar

variable {g : Grammar}

/-- What a grammar is compiled from. -/
theorem exists_means_of_compile (h : compile w root = .ok g) :
    ∃ d definitions, Definition.Means w (d :: definitions) ∧
      problem? (d :: definitions) = none ∧ g.rules = rulesOf (d :: definitions) ∧
      g.rules.root (root.getD (.rule d.name)) = .ok g.root := by
  rw [compile] at h
  split at h
  · cases h
  · rename_i definitions hread
    cases definitions with
    | nil => cases h
    | cons d definitions =>
      rw [ofDefinitions] at h
      split at h
      · cases h
      · rename_i hproblem
        obtain ⟨name, hname, rfl⟩ := map_eq_ok_iff.1 h
        exact ⟨d, definitions, Definition.means_iff.2 hread, hproblem, rfl, hname⟩

/-- A grammar that is compiled has closed rules, and its root is defined. -/
theorem closed_of_compile (h : compile w root = .ok g) :
    g.rules.Closed ∧ (g.rules.lookup g.root).isSome := by
  obtain ⟨d, definitions, -, hproblem, hrules, hroot⟩ := exists_means_of_compile h
  refine ⟨?_, (Rules.root_eq_ok_iff.1 hroot).2⟩
  rw [hrules]
  exact Rules.undefined?_eq_none_iff.1 (problem?_eq_none_iff.1 hproblem).2.2

/-- A description that is compiled meets all requirements. -/
theorem met_of_compile (h : compile w root = .ok g) :
    ∀ r ∈ Requirement.inOrder, r.Met w root := by
  obtain ⟨d, definitions, hmeans, hproblem, hrules, hroot⟩ := exists_means_of_compile h
  obtain ⟨hchoice, hdefined⟩ := Rules.root_eq_ok_iff.1 hroot
  rw [hrules, isSome_lookup_rulesOf] at hdefined
  obtain ⟨other, hother, hname⟩ := hdefined
  have hrooted : Requirement.rooted.Met w root := by
    refine hmeans.forall_iff.2 fun choice hmem => ⟨other, hother, ?_⟩
    rw [hname, ← hchoice, Option.mem_def.1 hmem, Option.getD_some]
  intro r hr
  obtain hr | hr := List.mem_append.1
    (show r ∈ [_, _, _, _, _, _] ++ [Requirement.rooted] from hr)
  · exact hmeans.met_of_problem? hproblem (List.cons_ne_nil d definitions) r hr
  · rwa [List.mem_singleton.1 hr]

/-- A description that is not compiled is refused for the first requirement that it does not
    meet. -/
theorem refused_of_compile (h : compile w root = .error e) :
    e.Blames w root ∧ e.requirement.FirstUnmet w root := by
  rw [compile] at h
  split at h
  · rename_i problem hread
    cases h
    exact Definition.refused_of_read hread
  · rename_i definitions hread
    have hmeans := Definition.means_iff.2 hread
    cases definitions with
    | nil =>
      cases h
      exact ⟨hmeans, fun hnonempty => hmeans.nonempty_iff.1 hnonempty rfl,
        [.spelled, .ordered], _, rfl, by simp [hmeans.spelled, hmeans.ordered]⟩
    | cons d definitions =>
      rw [ofDefinitions] at h
      split at h
      · rename_i problem hproblem
        cases h
        exact hmeans.refused_of_problem? hproblem (List.cons_ne_nil d definitions)
      · rename_i hproblem
        have hroot := map_eq_error_iff.1 h
        cases Rules.root_eq_error hroot
        have hundefined : ∀ other ∈ d :: definitions,
            root.getD (.rule d.name) ≠ .rule other.name := by
          intro other hother hchoice
          cases hroot.symm.trans (Rules.root_eq_ok_iff.2
            ⟨hchoice, isSome_lookup_rulesOf.2 ⟨other, hother, rfl⟩⟩)
        obtain _ | choice := root
        · exact absurd rfl (hundefined d List.mem_cons_self)
        · refine ⟨⟨rfl, _, hmeans, hundefined⟩, fun hrooted => ?_, _, [], rfl,
            hmeans.met_of_problem? hproblem (List.cons_ne_nil d definitions)⟩
          obtain ⟨other, hother, hchoice⟩ := hmeans.forall_iff.1 hrooted choice rfl
          exact hundefined other hother hchoice

theorem names_rulesOf (definitions : List Definition) :
    (rulesOf definitions).map (·.1) = definitions.map (·.name) := by
  rw [rulesOf, List.map_map]
  rfl

/-- A description gives a grammar if it meets all requirements, and is refused otherwise for the
    first one that it does not meet. The grammar has the rules that are defined, and the first one is
    the root, if no other is asked for. In it, a text has a parse tree or is refused, but never
    because of a rule that is not defined. -/
theorem compile_requirements (w : Word) (root : Option RootChoice) :
    ((∃ g, compile w root = .ok g) ↔ ∀ r ∈ Requirement.inOrder, r.Met w root) ∧
    (∀ e, compile w root = .error e → e.Blames w root ∧ e.requirement.FirstUnmet w root) ∧
    ∀ g, compile w root = .ok g →
      (∃ d definitions, Definition.Means w (d :: definitions) ∧
        g.names = (d :: definitions).map (·.name) ∧
        root.getD (.rule d.name) = .rule g.root) ∧
      ∀ limit t, match g.parse limit t with
        | .ok _ | .error (.unmatched _) => True
        | .error (.halted cause _) => cause = .tooDeep := by
  refine ⟨⟨fun ⟨g, h⟩ => met_of_compile h, fun hmet => ?_⟩, fun e => refused_of_compile,
    fun g h => ⟨?_, fun limit t => ?_⟩⟩
  · cases h : compile w root with
    | ok g => exact ⟨g, rfl⟩
    | error e =>
      obtain ⟨-, hunmet, before, later, heq, -⟩ := refused_of_compile h
      refine absurd (hmet e.requirement ?_) hunmet
      rw [heq]
      exact List.mem_append_right _ List.mem_cons_self
  · obtain ⟨d, definitions, hmeans, -, hrules, hroot⟩ := exists_means_of_compile h
    refine ⟨d, definitions, hmeans, ?_, (Rules.root_eq_ok_iff.1 hroot).1⟩
    rw [names, hrules, names_rulesOf]
  · obtain ⟨hrules, hroot⟩ := closed_of_compile h
    split
    · trivial
    · trivial
    · rename_i hparse
      exact tooDeep_of_parse hrules hroot hparse

end Grammar

end Descent
