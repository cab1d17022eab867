import Descent.Proofs.Description.Requirement
import Descent.Proofs.Leaves
import Mathlib.Logic.Relation

/-!
# Rules that skip themselves

The rule that a block skips has to stand outside of blocks, and so has no skips of its own. But it
may call other rules, and one of them may stand in a block that skips it: then it skips itself after
all (`Grammar.skipsItself_iff`), and may do so for ever (`Grammar.skipsItself_selfSkipping`).

All skips in a grammar come from blocks: none are written in a rule, and those that are woven in
name the rule that the block skips (`Definition.Means.skip_mem_leaves_woven_iff`).
-/

namespace Descent

variable {name : Word}

/-! ## Skips in patterns -/

namespace Pattern

theorem InOrder.leaves_eq {ps : List Pattern} {p : Pattern} (h : InOrder ps p) :
    p.leaves = leavesOfAll ps := by
  rw [← inOrder_iff.1 h, inOrder.eq_def]
  split
  · exact (leavesOfAll_singleton _).symm
  · exact leaves_concat _

theorem AnyOf.leaves_eq {ps : List Pattern} {p : Pattern} (h : AnyOf ps p) :
    p.leaves = leavesOfAll ps := by
  cases h with
  | single => exact (leavesOfAll_singleton p).symm
  | choice => rfl

mutual

/-- Nothing else is skipped in a pattern skipping a rule than that rule and what is skipped in the
    pattern already. -/
theorem eq_or_skip_mem_of_skipping {skip : Word} : ∀ {p : Pattern},
    .skip name ∈ (p.skipping skip).leaves → name = skip ∨ .skip name ∈ p.leaves
  | .literal _, h | .charClass _, h | .reference _, h => by
    simp [skipping, leaves, leavesOfAll] at h
    exact .inl h
  | .skip _, h => .inr h
  | .sequence items, h => by
    rw [skipping, leaves_concat] at h
    exact eq_or_skip_mem_of_skippingAll h
  | .choice alternatives, h => eq_or_skip_mem_of_skippingAll h
  | .repetition item _ _, h => eq_or_skip_mem_of_skipping (p := item) h

theorem eq_or_skip_mem_of_skippingAll {skip : Word} : ∀ {ps : List Pattern},
    .skip name ∈ leavesOfAll (skippingAll skip ps) → name = skip ∨ .skip name ∈ leavesOfAll ps
  | p :: ps, h => by
    rw [leavesOfAll, List.mem_append]
    obtain h | h := List.mem_append.1 h
    · exact (eq_or_skip_mem_of_skipping h).imp_right .inl
    · exact (eq_or_skip_mem_of_skippingAll h).imp_right .inr

end

end Pattern

mutual

/-- No skips are written in a term. -/
theorem Term.Denotes.skip_not_mem {term : Term} {p : Pattern} :
    term.Denotes p → .skip name ∉ p.leaves
  | .reference _ | .literal _ | .charClass _ => by simp [Pattern.leaves]
  | .repeated h _ => h.skip_not_mem
  | .group h hp => by
    rw [hp.leaves_eq]
    exact h.skip_not_mem

theorem Term.DenotesEach.skip_not_mem {terms : List Term} {patterns : List Pattern} :
    Term.DenotesEach terms patterns → .skip name ∉ Pattern.leavesOfAll patterns
  | .nil => List.not_mem_nil
  | .cons h rest => fun hmem =>
    (List.mem_append.1 hmem).elim h.skip_not_mem rest.skip_not_mem

theorem Alternation.DenotesEach.skip_not_mem {alternatives : Alternation}
    {patterns : List Pattern} :
    Alternation.DenotesEach alternatives patterns → .skip name ∉ Pattern.leavesOfAll patterns
  | .nil => List.not_mem_nil
  | .cons h hp rest => fun hmem => by
    obtain hmem | hmem := List.mem_append.1 hmem
    · rw [hp.leaves_eq] at hmem
      exact h.skip_not_mem hmem
    · exact rest.skip_not_mem hmem

end

theorem Rule.Denotes.skip_not_mem {skip : Option Word} {r : Rule} {d : Definition}
    (h : r.Denotes skip d) : .skip name ∉ d.pattern.leaves := by
  cases h with
  | mk h hp =>
    rw [hp.leaves_eq]
    exact h.skip_not_mem

theorem Rule.skip_not_mem_of_forall₂ {skip : Option Word} {rules : List Rule}
    {definitions : List Definition} (h : List.Forall₂ (Rule.Denotes skip) rules definitions) :
    ∀ d ∈ definitions, .skip name ∉ d.pattern.leaves := by
  induction h with
  | nil => exact List.forall_mem_nil _
  | cons h _ ih => exact List.forall_mem_cons.2 ⟨h.skip_not_mem, ih⟩

/-- No definition has skips before they are woven into it. -/
theorem Description.Denotes.skip_not_mem {description : Description}
    {definitions : List Definition} (h : description.Denotes definitions) :
    ∀ d ∈ definitions, .skip name ∉ d.pattern.leaves := by
  induction h with
  | nil => exact List.forall_mem_nil _
  | rule h _ ih => exact List.forall_mem_cons.2 ⟨h.skip_not_mem, ih⟩
  | block h _ ih => exact List.forall_mem_append.2 ⟨Rule.skip_not_mem_of_forall₂ h, ih⟩

namespace Definition

variable {w : Word} {definitions : List Definition} {d : Definition}

/-- What is skipped in a definition is the rule named by the block around it, and no other one. -/
theorem Means.skip_mem_leaves_woven_iff (h : Means w definitions) (hd : d ∈ definitions) :
    .skip name ∈ d.woven.leaves ↔ d.skip = some name := by
  obtain ⟨_, _, -, -, hdenotes⟩ := h
  have hplain : .skip name ∉ d.pattern.leaves := hdenotes.skip_not_mem d hd
  rw [woven]
  cases d.skip with
  | none => exact iff_of_false hplain (Option.some_ne_none name).symm
  | some skip =>
    simp only [Pattern.leaves_concat, Pattern.leavesOfAll, List.append_nil, List.mem_append,
      Pattern.leaves, List.mem_singleton, Pattern.skip.injEq, Option.some.injEq]
    refine ⟨?_, fun h => .inr h.symm⟩
    rintro (hmem | rfl)
    · exact ((Pattern.eq_or_skip_mem_of_skipping hmem).resolve_right hplain).symm
    · rfl

end Definition

/-! ## Calls -/

namespace Rules

/-- The rule `name` refers to the rule `inner`, or skips it. -/
def Calls (rules : Rules) (name inner : Word) : Prop :=
  ∃ p, rules.lookup name = some p ∧ inner ∈ p.names

/-- Calls lead from the rule to a skip of it. -/
def SkipsItself (rules : Rules) (name : Word) : Prop :=
  ∃ user p, Relation.ReflTransGen rules.Calls name user ∧ rules.lookup user = some p ∧
    .skip name ∈ p.leaves

end Rules

namespace Grammar

variable {w : Word} {root : Option RootChoice} {g : Grammar} {definitions : List Definition}

/-- The rules of a grammar are those of its definitions, about which nothing is wrong. -/
theorem rules_eq_of_means (hg : compile w root = .ok g) (hw : Definition.Means w definitions) :
    g.rules = rulesOf definitions ∧ problem? definitions = none := by
  obtain ⟨d, others, hmeans, hproblem, hrules, -⟩ := exists_means_of_compile hg
  cases (Definition.means_iff.1 hmeans).symm.trans (Definition.means_iff.1 hw)
  exact ⟨hrules, hproblem⟩

/-- The rule that a grammar has for a name is the one that is defined. -/
theorem lookup_eq_some_iff (hg : compile w root = .ok g) (hw : Definition.Means w definitions)
    {p : Pattern} :
    g.rules.lookup name = some p ↔ ∃ d ∈ definitions, d.name = name ∧ d.woven = p := by
  obtain ⟨hrules, hproblem⟩ := rules_eq_of_means hg hw
  have hnodup := (Definition.duplicate?_eq_none_iff.1 (problem?_eq_none_iff.1 hproblem).1).1
  have hexists {p : Pattern} (h : (rulesOf definitions).lookup name = some p) :
      ∃ d ∈ definitions, d.name = name ∧ d.woven = p := by
    obtain ⟨d, hd, heq⟩ := List.mem_map.1 (Rules.mem_of_lookup h)
    exact ⟨d, hd, (Prod.mk.inj heq).1, (Prod.mk.inj heq).2⟩
  rw [hrules]
  refine ⟨hexists, ?_⟩
  rintro ⟨d, hd, rfl, rfl⟩
  obtain ⟨p, hp⟩ := Option.isSome_iff_exists.1 (isSome_lookup_rulesOf.2 ⟨d, hd, rfl⟩)
  obtain ⟨e, he, hname, rfl⟩ := hexists hp
  rwa [List.inj_on_of_nodup_map hnodup he hd hname] at hp

/-- A rule that is skipped in blocks has no skips of its own. It skips itself all the same if calls
    lead from it to a rule in one of these blocks, and only then. Otherwise, no rule to which calls
    lead from it ever tries to skip it. -/
theorem skipsItself_iff (hg : compile w root = .ok g) (hw : Definition.Means w definitions)
    {d : Definition} (hd : d ∈ definitions) (hskip : d.skip = some name) :
    (∃ p, g.rules.lookup name = some p ∧ ∀ other, .skip other ∉ p.leaves) ∧
    (g.rules.SkipsItself name ↔ ∃ e ∈ definitions, e.skip = some name ∧
      Relation.TransGen g.rules.Calls name e.name) ∧
    (¬g.rules.SkipsItself name → ∀ user p, Relation.ReflTransGen g.rules.Calls name user →
      g.rules.lookup user = some p → ∀ t pos mid, ¬Attempts g.rules t p pos (.skip name) mid) := by
  have hplain : ∃ p, g.rules.lookup name = some p ∧ ∀ other, .skip other ∉ p.leaves := by
    have hmet := met_of_compile hg
    obtain ⟨e, he, rfl⟩ := hw.forall_iff.1 (hmet .defined (by decide)) d hd name (.inr hskip)
    have houtside := hw.forall_iff.1 (hmet .outside (by decide)) d hd e he hskip
    refine ⟨_, (lookup_eq_some_iff hg hw).2 ⟨e, he, rfl, rfl⟩, fun other hother => ?_⟩
    rw [hw.skip_mem_leaves_woven_iff he, houtside] at hother
    cases hother
  refine ⟨hplain, ⟨?_, ?_⟩, fun hnot user p hcalls hp t pos mid h => ?_⟩
  · rintro ⟨user, p, hcalls, hp, hmem⟩
    obtain ⟨e, he, rfl, rfl⟩ := (lookup_eq_some_iff hg hw).1 hp
    refine ⟨e, he, (hw.skip_mem_leaves_woven_iff he).1 hmem, ?_⟩
    obtain heq | hcalls := Relation.reflTransGen_iff_eq_or_transGen.1 hcalls
    · obtain ⟨q, hq, hnone⟩ := hplain
      cases hq.symm.trans (heq ▸ hp)
      exact absurd hmem (hnone name)
    · exact hcalls
  · rintro ⟨e, he, hskip, hcalls⟩
    exact ⟨e.name, e.woven, hcalls.to_reflTransGen, (lookup_eq_some_iff hg hw).2 ⟨e, he, rfl, rfl⟩,
      (hw.skip_mem_leaves_woven_iff he).2 hskip⟩
  · exact hnot ⟨user, p, hcalls, hp, h.mem_leaves⟩

/-- The grammar of `@skip ws { a ::= 'x'; } ws ::= ' ';`. -/
def spaced : Grammar :=
  ⟨[(['a'], .sequence [.skip ['w', 's'], .literal ['x'], .skip ['w', 's']]),
    (['w', 's'], .literal [' '])], ['a']⟩

theorem compile_spaced :
    compile "@skip ws \x7b a ::= 'x'; \x7d ws ::= ' ';".toList none = .ok spaced := rfl

/-- No calls lead from a space to anywhere. -/
theorem not_skipsItself_spaced : ¬spaced.rules.SkipsItself ['w', 's'] := by
  have hmeans : Definition.Means "@skip ws \x7b a ::= 'x'; \x7d ws ::= ' ';".toList
      [⟨['a'], .literal ['x'], some ['w', 's']⟩, ⟨['w', 's'], .literal [' '], none⟩] :=
    Definition.means_iff.2 rfl
  rw [(skipsItself_iff compile_spaced hmeans List.mem_cons_self rfl).2.1]
  rintro ⟨e, -, -, hcalls⟩
  obtain ⟨inner, ⟨p, hp, hinner⟩, -⟩ := Relation.TransGen.head'_iff.1 hcalls
  cases hp
  cases hinner

/-- The grammar of `@skip ws { a ::= 'x'; } ws ::= a;`. -/
def selfSkipping : Grammar :=
  ⟨[(['a'], .sequence [.skip ['w', 's'], .literal ['x'], .skip ['w', 's']]),
    (['w', 's'], .reference ['a'])], ['a']⟩

theorem compile_selfSkipping :
    compile "@skip ws \x7b a ::= 'x'; \x7d ws ::= a;".toList none = .ok selfSkipping := rfl

/-- Under no limit does a search find anything, as each of the rules comes to the other one at the
    same offset. -/
theorem listing_selfSkipping (limit : Nat) (t : Text) (pos : Nat) :
    selfSkipping.rules.listing t limit ['a'] pos = .halted .tooDeep ∧
      selfSkipping.rules.listing t limit ['w', 's'] pos = .halted .tooDeep := by
  induction limit with
  | zero => exact ⟨rfl, rfl⟩
  | succ limit ih =>
    obtain ⟨ha, hws⟩ := ih
    constructor
    · change Pattern.listingAll t (selfSkipping.rules.listing t limit)
        [.skip ['w', 's'], .literal ['x'], .skip ['w', 's']] pos = _
      rw [Pattern.listingAll, Pattern.listing, hws]
      rfl
    · change (Pattern.reference ['a']).listing t (selfSkipping.rules.listing t limit) pos = _
      rw [Pattern.listing, ha]
      rfl

/-- A rule that is skipped may skip itself although it stands outside of blocks, and then even the
    text `x` is too deep. -/
theorem skipsItself_selfSkipping :
    compile "@skip ws \x7b a ::= 'x'; \x7d ws ::= a;".toList none = .ok selfSkipping ∧
      selfSkipping.rules.SkipsItself ['w', 's'] ∧
      ∀ limit, selfSkipping.parse limit #['x'] = .error (.halted .tooDeep 0) := by
  refine ⟨compile_selfSkipping, ⟨['a'], _, .single ⟨_, rfl, List.mem_singleton_self _⟩, rfl, ?_⟩,
    fun limit => ?_⟩
  · exact List.mem_cons_self
  · rw [parse_eq, show selfSkipping.root = ['a'] from rfl,
      (listing_selfSkipping limit #['x'] 0).1]
    rfl

end Grammar

end Descent
