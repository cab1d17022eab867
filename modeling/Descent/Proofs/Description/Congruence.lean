import Descent.Proofs.Description.Requirement

/-!
# Descriptions that correspond rule by rule

When a description is written in another way, its definitions are changed one by one and keep their
names. If they depend on nothing else than before, the other description gives a grammar, too
(`Grammar.compile_of_forall₂`). What is listed for the rules then only depends on what is listed for
the pattern of each of them, as long as rules are entered alike (`Rules.listing_congr`).
-/

namespace Descent

variable {w w' : Word} {root : Option RootChoice}

/-! ## Descriptions and their texts -/

/-- The text spells the description. -/
def Description.SpelledBy (d : Description) (w : Word) : Prop :=
  ∃ tokens, Token.Spells false tokens w ∧ IsDescription tokens d

namespace Description

variable {d : Description} {definitions : List Definition}

theorem spelledBy_iff : d.SpelledBy w ↔ parse w = .ok d := parse_eq_ok_iff.symm

/-- A text means what the description that it spells denotes. -/
theorem SpelledBy.means_iff (h : d.SpelledBy w) :
    Definition.Means w definitions ↔ d.Denotes definitions := by
  refine ⟨fun ⟨tokens, other, hspells, hother, hdenotes⟩ => ?_,
    fun hdenotes => have ⟨tokens, hspells, hd⟩ := h; ⟨tokens, d, hspells, hd, hdenotes⟩⟩
  cases (spelledBy_iff.1 h).symm.trans (spelledBy_iff.1 ⟨tokens, hspells, hother⟩)
  exact hdenotes

end Description

/-! ## Consistent definitions -/

/-- What corresponds to a member of a list. -/
theorem exists_of_mem_forall₂ {α β : Type} {R : α → β → Prop} {as : List α} {bs : List β}
    (h : List.Forall₂ R as bs) {b : β} (hb : b ∈ bs) : ∃ a ∈ as, R a b := by
  induction h with
  | nil => cases hb
  | cons h _ ih =>
    obtain rfl | hb := List.mem_cons.1 hb
    · exact ⟨_, List.mem_cons_self, h⟩
    · obtain ⟨a, ha, hR⟩ := ih hb
      exact ⟨a, List.mem_cons_of_mem _ ha, hR⟩

theorem forall₂_trans {α β γ : Type} {P : α → β → Prop} {Q : β → γ → Prop} {R : α → γ → Prop}
    (hR : ∀ a b c, P a b → Q b c → R a c) {as : List α} {bs : List β} {cs : List γ}
    (h : List.Forall₂ P as bs) (h' : List.Forall₂ Q bs cs) : List.Forall₂ R as cs := by
  induction h generalizing cs with
  | nil =>
    cases h'
    exact .nil
  | cons h _ ih =>
    cases h' with
    | cons h' rest => exact .cons (hR _ _ _ h h') (ih rest)

/-- Nothing is wrong with the definitions, whatever the root. -/
structure Definition.Consistent (definitions : List Definition) : Prop where
  /-- No name is defined twice. -/
  distinct : (definitions.map (·.name)).Nodup
  /-- The rule that a block skips stands outside of blocks. -/
  outside : ∀ d ∈ definitions, ∀ e ∈ definitions, d.skip = some e.name → e.skip = none
  /-- Everything that a definition depends on is defined. -/
  defined : ∀ d ∈ definitions, ∀ name, d.DependsOn name → ∃ e ∈ definitions, e.name = name

theorem Definition.consistent_iff {definitions : List Definition} :
    Definition.Consistent definitions ↔ Grammar.problem? definitions = none := by
  rw [Grammar.problem?_eq_none_iff, Definition.duplicate?_eq_none_iff,
    Definition.skipInBlock?_eq_none_iff, Rules.undefined?_eq_none_iff, Grammar.closed_rulesOf_iff,
    and_iff_left fun _ _ => List.not_mem_nil]
  exact ⟨fun h => ⟨h.distinct, h.outside, h.defined⟩, fun ⟨h, h', h''⟩ => ⟨h, h', h''⟩⟩

namespace Definition

/-- The definition `d'` has the name of `d` and depends on nothing else. -/
structure Reduces (d d' : Definition) : Prop where
  /-- The names agree. -/
  name_eq : d'.name = d.name
  /-- The same rule is skipped, if any. -/
  skip_eq : ∀ name, d'.skip = some name → d.skip = some name
  /-- The pattern has no other names. -/
  names_subset : d'.pattern.names ⊆ d.pattern.names

variable {d d' : Definition} {definitions definitions' : List Definition}

theorem Reduces.dependsOn (h : Reduces d d') {name : Word} (hname : d'.DependsOn name) :
    d.DependsOn name := by
  rw [DependsOn, ← Pattern.mem_names_iff] at hname ⊢
  exact hname.imp (h.names_subset ·) (h.skip_eq name)

theorem names_eq_of_forall₂ (h : List.Forall₂ Reduces definitions definitions') :
    definitions'.map (·.name) = definitions.map (·.name) := by
  induction h with
  | nil => rfl
  | cons h _ ih => rw [List.map_cons, List.map_cons, h.name_eq, ih]

theorem exists_name_iff_of_forall₂ (h : List.Forall₂ Reduces definitions definitions')
    {name : Word} :
    (∃ e ∈ definitions', e.name = name) ↔ ∃ e ∈ definitions, e.name = name := by
  rw [← List.mem_map, names_eq_of_forall₂ h, List.mem_map]

/-- Definitions that depend on less are consistent, too. -/
theorem Consistent.of_forall₂ (hconsistent : Consistent definitions)
    (h : List.Forall₂ Reduces definitions definitions') : Consistent definitions' where
  distinct := names_eq_of_forall₂ h ▸ hconsistent.distinct
  outside d' hd' e' he' hskip := by
    obtain ⟨d, hd, hdd'⟩ := exists_of_mem_forall₂ h hd'
    obtain ⟨e, he, hee'⟩ := exists_of_mem_forall₂ h he'
    have hnone := hconsistent.outside d hd e he (hee'.name_eq ▸ hdd'.skip_eq _ hskip)
    rw [Option.eq_none_iff_forall_ne_some] at hnone ⊢
    exact fun name hname => hnone name (hee'.skip_eq name hname)
  defined d' hd' name hname := by
    obtain ⟨d, hd, hdd'⟩ := exists_of_mem_forall₂ h hd'
    exact (exists_name_iff_of_forall₂ h).2 (hconsistent.defined d hd name (hdd'.dependsOn hname))

end Definition

/-! ## Compiling -/

namespace Grammar

variable {g : Grammar} {definitions definitions' : List Definition}

/-- A text gives a grammar if it means consistent definitions, among which is the root. -/
theorem compile_eq_ok_iff (hmeans : Definition.Means w definitions) :
    compile w root = .ok g ↔ Definition.Consistent definitions ∧ g.rules = rulesOf definitions ∧
      ∃ d ∈ definitions.head?, root.getD (.rule d.name) = .rule g.root ∧
        ∃ e ∈ definitions, e.name = g.root := by
  rw [compile, Definition.means_iff.1 hmeans]
  cases definitions with
  | nil => simp [ofDefinitions]
  | cons d definitions =>
    rw [Definition.consistent_iff, List.head?_cons]
    simp only [ofDefinitions, Option.mem_some_iff, exists_eq_left', ← isSome_lookup_rulesOf]
    cases problem? (d :: definitions) with
    | some problem => simp
    | none =>
      simp only [map_eq_ok_iff, Rules.root_eq_ok_iff, true_and]
      constructor
      · rintro ⟨name, hname, rfl⟩
        exact ⟨rfl, hname⟩
      · rintro ⟨hrules, hname⟩
        exact ⟨g.root, hname, by rw [← hrules]⟩

/-- If the definitions of another text depend on less, it gives a grammar with the same root. -/
theorem compile_of_forall₂ (hg : compile w root = .ok g) (hw : Definition.Means w definitions)
    (hw' : Definition.Means w' definitions')
    (h : List.Forall₂ Definition.Reduces definitions definitions') :
    compile w' root = .ok ⟨rulesOf definitions', g.root⟩ := by
  obtain ⟨hconsistent, -, d, hd, hroot, hdefined⟩ := (compile_eq_ok_iff hw).1 hg
  rw [compile_eq_ok_iff hw']
  refine ⟨hconsistent.of_forall₂ h, rfl, ?_⟩
  cases h with
  | nil => cases hd
  | @cons e d' _ definitions' hreduces h =>
    cases hd
    refine ⟨d', rfl, hreduces.name_eq ▸ hroot, ?_⟩
    exact (Definition.exists_name_iff_of_forall₂ (.cons hreduces h)).2 hdefined

end Grammar

/-! ## Rules alike -/

namespace Rules

variable {rules rules' : Rules} {t : Text}

/-- The rules have the same names in the same order, and corresponding patterns. -/
def Correspond (R : Pattern → Pattern → Prop) (rules rules' : Rules) : Prop :=
  List.Forall₂ (fun r r' => r.1 = r'.1 ∧ R r.2 r'.2) rules rules'

/-- Rules that correspond are found under the same names. -/
theorem Correspond.lookup {R : Pattern → Pattern → Prop} (h : Correspond R rules rules')
    (name : Word) :
    (rules.lookup name = none ∧ rules'.lookup name = none) ∨
      ∃ p p', rules.lookup name = some p ∧ rules'.lookup name = some p' ∧ R p p' := by
  induction h with
  | nil => exact .inl ⟨rfl, rfl⟩
  | @cons r r' rules rules' h _ ih =>
    obtain ⟨user, p⟩ := r
    obtain ⟨_, p'⟩ := r'
    obtain ⟨rfl, hR⟩ := h
    rw [List.lookup_cons, List.lookup_cons]
    cases name == user with
    | true => exact .inr ⟨p, p', rfl, rfl, hR⟩
    | false => exact ih

/-- If the patterns of rules list the same where rules are entered alike, so do the rules. -/
theorem listing_congr {limit : Nat} (h : Correspond (fun p p' => ∀ n < limit,
      p'.listing t (rules.listing t n) = p.listing t (rules.listing t n)) rules rules')
    {n : Nat} (hn : n ≤ limit) : rules'.listing t n = rules.listing t n := by
  induction n with
  | zero =>
    funext name pos
    rw [listing, listing]
    obtain ⟨hnone, hnone'⟩ | ⟨p, p', hp, hp', -⟩ := h.lookup name
    · rw [hnone, hnone']
    · rw [hp, hp']
  | succ n ih =>
    funext name pos
    rw [listing, listing]
    obtain ⟨hnone, hnone'⟩ | ⟨p, p', hp, hp', hsame⟩ := h.lookup name
    · rw [hnone, hnone']
    · rw [hp, hp']
      have henter := congrArg (p'.listing t) (ih (by omega))
      exact congrFun (henter.trans (hsame n (by omega))) pos

end Rules

/-- Grammars that list the same for their common root parse alike. -/
theorem Grammar.parse_congr {g g' : Grammar} {limit : Nat} {t : Text} (hroot : g'.root = g.root)
    (h : g'.rules.listing t limit = g.rules.listing t limit) :
    g'.parse limit t = g.parse limit t := by
  rw [parse_eq, parse_eq, hroot, h]

/-- If definitions keep their names and list the same where rules are entered alike, their grammars
    parse alike. -/
theorem Grammar.parse_rulesOf {g : Grammar} {definitions definitions' : List Definition} {limit : Nat}
    {t : Text} (hrules : g.rules = rulesOf definitions)
    (h : List.Forall₂ (fun e e' => e'.name = e.name ∧ ∀ n < limit,
      e'.woven.listing t (g.rules.listing t n) = e.woven.listing t (g.rules.listing t n))
      definitions definitions') :
    Grammar.parse ⟨rulesOf definitions', g.root⟩ limit t = g.parse limit t := by
  obtain ⟨rules, root⟩ := g
  obtain rfl : rules = rulesOf definitions := hrules
  refine parse_congr rfl (Rules.listing_congr ?_ (Nat.le_refl limit))
  exact List.forall₂_map_left_iff.2
    (List.forall₂_map_right_iff.2 (h.imp fun _ _ h => ⟨h.1.symm, h.2⟩))

end Descent
