import Descent.Grammar.Definition
import Descent.Proofs.Outcome

/-!
# What descriptions mean

What a description defines, part by part, as its author has to know it (`Description.Denotes`):
a list of definitions in the order of the rules, each with its pattern and the rule that is
skipped in it. Concatenations are flat, parentheses around a single alternative leave no trace,
and alternations inside of one another are kept as they are.

Only classes whose ranges are in order mean anything (`CharClass.Written`). A description has
its definitions if it means anything, and no others (`Description.define_eq_ok_iff`).
-/

namespace Descent

/-! ## Escapes and classes -/

/-- The body spells the characters, each told whether it is escaped: a backslash belongs to the
    character after it, if there is one. -/
inductive Resolves : (body : Word) → (spelled : List (Char × Bool)) → Prop
  | nil : Resolves [] []
  | plain {c : Char} {body : Word} {spelled : List (Char × Bool)} (hc : c ≠ '\\')
    (rest : Resolves body spelled) : Resolves (c :: body) ((c, false) :: spelled)
  | escaped {c : Char} {body : Word} {spelled : List (Char × Bool)}
    (rest : Resolves body spelled) : Resolves ('\\' :: c :: body) ((unescaped c, true) :: spelled)
  | last : Resolves ['\\'] [('\\', false)]

theorem resolves_unescape (body : Word) : Resolves body (unescape body) := by
  fun_induction unescape body with
  | case1 c body ih => exact .escaped ih
  | case2 c body h ih =>
    by_cases hc : c = '\\'
    · subst hc
      cases body with
      | nil => exact .last
      | cons d body => exact absurd rfl (h d body rfl)
    · exact .plain hc ih
  | case3 => exact .nil

theorem resolves_iff {body : Word} {spelled : List (Char × Bool)} :
    Resolves body spelled ↔ unescape body = spelled := by
  refine ⟨fun h => ?_, fun h => h ▸ resolves_unescape body⟩
  induction h with
  | nil => rfl
  | plain hc _ ih =>
    rw [unescape, ih]
    exact fun _ _ h => absurd h hc
  | escaped _ ih => rw [unescape, ih]
  | last => rfl

namespace CharClass

/-- The spelled characters make ranges: two of them with a plain hyphen between them, if they are
    in order, and otherwise each on its own. -/
inductive Ranges : (spelled : List (Char × Bool)) → (ranges : List (Char × Char)) → Prop
  | nil : Ranges [] []
  | pair {low high : Char} {e e' : Bool} {spelled : List (Char × Bool)}
    {ranges : List (Char × Char)} (h : low ≤ high) (rest : Ranges spelled ranges) :
    Ranges ((low, e) :: ('-', false) :: (high, e') :: spelled) ((low, high) :: ranges)
  | single {c : Char} {e : Bool} {spelled : List (Char × Bool)} {ranges : List (Char × Char)}
    (h : ∀ high later, spelled ≠ ('-', false) :: high :: later) (rest : Ranges spelled ranges) :
    Ranges ((c, e) :: spelled) ((c, c) :: ranges)

/-- The body of a class, which a circumflex in front negates. -/
inductive Written : (body : Word) → (k : CharClass) → Prop
  | negated {body : Word} {spelled : List (Char × Bool)} {ranges : List (Char × Char)}
    (h : Resolves body spelled) (hranges : Ranges spelled ranges) :
    Written ('^' :: body) ⟨ranges, true⟩
  | plain {body : Word} {spelled : List (Char × Bool)} {ranges : List (Char × Char)}
    (hbody : ∀ rest, body ≠ '^' :: rest) (h : Resolves body spelled)
    (hranges : Ranges spelled ranges) : Written body ⟨ranges, false⟩

/-- The first range of the spelled characters that is not in order. -/
inductive Inverts : (spelled : List (Char × Bool)) → (range : InvertedRange) → Prop
  | first {low high : Char} {e e' : Bool} {spelled : List (Char × Bool)} (h : high < low) :
    Inverts ((low, e) :: ('-', false) :: (high, e') :: spelled) ⟨low, high⟩
  | pair {low high : Char} {e e' : Bool} {spelled : List (Char × Bool)} {range : InvertedRange}
    (h : low ≤ high) (rest : Inverts spelled range) :
    Inverts ((low, e) :: ('-', false) :: (high, e') :: spelled) range
  | single {c : Char} {e : Bool} {spelled : List (Char × Bool)} {range : InvertedRange}
    (h : ∀ high later, spelled ≠ ('-', false) :: high :: later) (rest : Inverts spelled range) :
    Inverts ((c, e) :: spelled) range

/-- The body of a class with a range that is not in order. -/
inductive Miswritten : (body : Word) → (range : InvertedRange) → Prop
  | negated {body : Word} {spelled : List (Char × Bool)} {range : InvertedRange}
    (h : Resolves body spelled) (hrange : Inverts spelled range) : Miswritten ('^' :: body) range
  | plain {body : Word} {spelled : List (Char × Bool)} {range : InvertedRange}
    (hbody : ∀ rest, body ≠ '^' :: rest) (h : Resolves body spelled)
    (hrange : Inverts spelled range) : Miswritten body range

theorem ranges?_eq_ok_iff {spelled : List (Char × Bool)} {ranges : List (Char × Char)} :
    ranges? spelled = .ok ranges ↔ Ranges spelled ranges := by
  refine ⟨fun h => ?_, fun h => ?_⟩
  · fun_induction ranges? spelled generalizing ranges with
    | case1 => cases h
    | case2 low e high e' spelled hle ih =>
      obtain ⟨later, hlater, rfl⟩ := map_eq_ok_iff.1 h
      exact .pair (Char.not_lt.1 hle) (ih hlater)
    | case3 c e spelled hnot ih =>
      obtain ⟨later, hlater, rfl⟩ := map_eq_ok_iff.1 h
      exact .single (fun high later h => hnot high.1 high.2 later h) (ih hlater)
    | case4 =>
      cases h
      exact .nil
  · induction h with
    | nil => rfl
    | pair h _ ih =>
      rw [ranges?, if_neg (Char.not_lt.2 h), ih]
      rfl
    | single h _ ih =>
      rw [ranges?, ih]
      · rfl
      · exact fun high e later => h (high, e) later

theorem inverts_of_ranges? {spelled : List (Char × Bool)} {range : InvertedRange}
    (h : ranges? spelled = .error range) : Inverts spelled range := by
  fun_induction ranges? spelled with
  | case1 low e high e' spelled hlt =>
    cases h
    exact .first hlt
  | case2 low e high e' spelled hle ih =>
    exact .pair (Char.not_lt.1 hle) (ih (map_eq_error_iff.1 h))
  | case3 c e spelled hnot ih =>
    exact .single (fun high later h => hnot high.1 high.2 later h) (ih (map_eq_error_iff.1 h))
  | case4 => cases h

/-- A class that is not read has a range that is not in order. -/
theorem miswritten_of_ofBody {body : Word} {range : InvertedRange}
    (h : ofBody body = .error range) : Miswritten body range := by
  rw [ofBody.eq_def] at h
  split at h
  · exact .negated (resolves_unescape _) (inverts_of_ranges? (map_eq_error_iff.1 h))
  · rename_i hbody
    exact .plain hbody (resolves_unescape _) (inverts_of_ranges? (map_eq_error_iff.1 h))

/-- A class is read if its ranges are in order. -/
theorem ofBody_eq_ok_iff {body : Word} {k : CharClass} : ofBody body = .ok k ↔ Written body k := by
  refine ⟨fun h => ?_, fun h => ?_⟩
  · rw [ofBody.eq_def] at h
    split at h
    · obtain ⟨ranges, hranges, rfl⟩ := map_eq_ok_iff.1 h
      exact .negated (resolves_unescape _) (ranges?_eq_ok_iff.1 hranges)
    · rename_i hbody
      obtain ⟨ranges, hranges, rfl⟩ := map_eq_ok_iff.1 h
      exact .plain hbody (resolves_unescape _) (ranges?_eq_ok_iff.1 hranges)
  · cases h with
    | negated h hranges =>
      rw [ofBody, resolves_iff.1 h, ranges?_eq_ok_iff.2 hranges]
      rfl
    | plain hbody h hranges =>
      rw [ofBody, resolves_iff.1 h, ranges?_eq_ok_iff.2 hranges]
      · rfl
      · exact hbody

end CharClass

/-! ## Combining patterns -/

namespace Pattern

/-- The items that patterns bring into a sequence: those of a sequence, and any other pattern
    itself. -/
inductive Splices : (patterns items : List Pattern) → Prop
  | nil : Splices [] []
  | sequence {inner patterns items : List Pattern} (rest : Splices patterns items) :
    Splices (.sequence inner :: patterns) (inner ++ items)
  | item {p : Pattern} {patterns items : List Pattern} (hp : ∀ inner, p ≠ .sequence inner)
    (rest : Splices patterns items) : Splices (p :: patterns) (p :: items)

/-- The patterns one after the other: a single one itself, and otherwise a flat sequence. -/
inductive InOrder : (patterns : List Pattern) → (p : Pattern) → Prop
  | single {p : Pattern} : InOrder [p] p
  | sequence {patterns items : List Pattern} (h : patterns.length ≠ 1)
    (hitems : Splices patterns items) : InOrder patterns (.sequence items)

/-- Any one of the patterns: a single one itself, and otherwise a choice of them. -/
inductive AnyOf : (patterns : List Pattern) → (p : Pattern) → Prop
  | single {p : Pattern} : AnyOf [p] p
  | choice {patterns : List Pattern} (h : patterns.length ≠ 1) : AnyOf patterns (.choice patterns)

theorem splices_iff {patterns items' : List Pattern} :
    Splices patterns items' ↔ patterns.flatMap items = items' := by
  constructor
  · intro h
    induction h with
    | nil => rfl
    | sequence _ ih => rw [List.flatMap_cons, ih, items]
    | item hp _ ih =>
      rw [List.flatMap_cons, ih, items]
      · rfl
      · exact hp
  · rintro rfl
    induction patterns with
    | nil => exact .nil
    | cons p patterns ih =>
      cases p with
      | sequence inner => exact .sequence ih
      | _ => exact .item nofun ih

theorem inOrder_iff {patterns : List Pattern} {p : Pattern} :
    InOrder patterns p ↔ inOrder patterns = p := by
  constructor
  · intro h
    cases h with
    | single => rfl
    | sequence h hitems =>
      rw [inOrder, concat, splices_iff.1 hitems]
      rintro p rfl
      exact h rfl
  · rintro rfl
    match patterns with
    | [p] => exact .single
    | [] => exact .sequence nofun (splices_iff.2 rfl)
    | _ :: _ :: _ => exact .sequence (by simp) (splices_iff.2 rfl)

theorem anyOf_iff {patterns : List Pattern} {p : Pattern} :
    AnyOf patterns p ↔ anyOf patterns = p := by
  constructor
  · intro h
    cases h with
    | single => rfl
    | choice h =>
      rw [anyOf]
      rintro p rfl
      exact h rfl
  · rintro rfl
    match patterns with
    | [p] => exact .single
    | [] => exact .choice nofun
    | _ :: _ :: _ => exact .choice (by simp)

end Pattern

/-! ## Terms and rules -/

mutual

/-- The pattern that a term stands for. -/
inductive Term.Denotes : (term : Term) → (p : Pattern) → Prop
  | reference (name : Word) : Term.Denotes (.reference name) (.reference name)
  | literal {body : Word} {spelled : List (Char × Bool)} (h : Resolves body spelled) :
    Term.Denotes (.literal body) (.literal (spelled.map (·.1)))
  | charClass {body : Word} {k : CharClass} (h : CharClass.Written body k) :
    Term.Denotes (.charClass body) (.charClass k)
  | repeated {term : Term} {p : Pattern} (h : Term.Denotes term p) (q : Quantifier) :
    Term.Denotes (.repeated term q) (.repetition p q.minimum q.maximum)
  | group {alternatives : Alternation} {patterns : List Pattern} {p : Pattern}
    (h : Alternation.DenotesEach alternatives patterns) (hp : Pattern.AnyOf patterns p) :
    Term.Denotes (.group alternatives) p

/-- The patterns that the terms of a concatenation stand for. -/
inductive Term.DenotesEach : (terms : List Term) → (patterns : List Pattern) → Prop
  | nil : Term.DenotesEach [] []
  | cons {term : Term} {terms : List Term} {p : Pattern} {patterns : List Pattern}
    (h : Term.Denotes term p) (rest : Term.DenotesEach terms patterns) :
    Term.DenotesEach (term :: terms) (p :: patterns)

/-- The patterns that the alternatives stand for. -/
inductive Alternation.DenotesEach : (alternatives : Alternation) → (patterns : List Pattern) → Prop
  | nil : Alternation.DenotesEach [] []
  | cons {terms : List Term} {alternatives : Alternation} {inner patterns : List Pattern}
    {p : Pattern} (h : Term.DenotesEach terms inner) (hp : Pattern.InOrder inner p)
    (rest : Alternation.DenotesEach alternatives patterns) :
    Alternation.DenotesEach (terms :: alternatives) (p :: patterns)

end

mutual

theorem Term.Denotes.toPattern_eq {term : Term} {p : Pattern} :
    term.Denotes p → term.toPattern = .ok p
  | .reference name => rfl
  | .literal h => by rw [Term.toPattern, resolves_iff.1 h]
  | .charClass h => by
    rw [Term.toPattern, CharClass.ofBody_eq_ok_iff.2 h]
    rfl
  | .repeated h q => by
    rw [Term.toPattern, h.toPattern_eq]
    rfl
  | .group h hp => by
    rw [Term.toPattern, h.toPatterns_eq]
    exact congrArg Except.ok (Pattern.anyOf_iff.1 hp)

theorem Term.DenotesEach.toPatterns_eq {terms : List Term} {patterns : List Pattern} :
    Term.DenotesEach terms patterns → Term.toPatterns terms = .ok patterns
  | .nil => rfl
  | .cons h rest => by
    rw [Term.toPatterns, h.toPattern_eq, rest.toPatterns_eq]
    rfl

theorem Alternation.DenotesEach.toPatterns_eq {alternatives : Alternation}
    {patterns : List Pattern} :
    Alternation.DenotesEach alternatives patterns →
      Alternation.toPatterns alternatives = .ok patterns
  | .nil => rfl
  | .cons h hp rest => by
    rw [Alternation.toPatterns, h.toPatterns_eq, rest.toPatterns_eq, ← Pattern.inOrder_iff.1 hp]
    rfl

end

mutual

theorem Term.denotes_of_toPattern : ∀ {term : Term} {p : Pattern},
    term.toPattern = .ok p → term.Denotes p
  | .reference name, p, h => by
    cases h
    exact .reference name
  | .literal body, p, h => by
    cases h
    exact .literal (resolves_unescape body)
  | .charClass body, p, h => by
    obtain ⟨k, hk, rfl⟩ := map_eq_ok_iff.1 h
    exact .charClass (CharClass.ofBody_eq_ok_iff.1 hk)
  | .repeated term q, p, h => by
    obtain ⟨p, hp, rfl⟩ := map_eq_ok_iff.1 h
    exact .repeated (Term.denotes_of_toPattern hp) q
  | .group alternatives, p, h => by
    obtain ⟨patterns, hpatterns, hp⟩ := map_eq_ok_iff.1 h
    exact .group (Alternation.denotesEach_of_toPatterns hpatterns) (Pattern.anyOf_iff.2 hp)

theorem Term.denotesEach_of_toPatterns : ∀ {terms : List Term} {patterns : List Pattern},
    Term.toPatterns terms = .ok patterns → Term.DenotesEach terms patterns
  | [], patterns, h => by
    cases h
    exact .nil
  | term :: terms, patterns, h => by
    obtain ⟨p, hp, h⟩ := bind_eq_ok_iff.1 h
    obtain ⟨later, hlater, h⟩ := bind_eq_ok_iff.1 h
    cases h
    exact .cons (Term.denotes_of_toPattern hp) (Term.denotesEach_of_toPatterns hlater)

theorem Alternation.denotesEach_of_toPatterns : ∀ {alternatives : Alternation}
    {patterns : List Pattern}, Alternation.toPatterns alternatives = .ok patterns →
    Alternation.DenotesEach alternatives patterns
  | [], patterns, h => by
    cases h
    exact .nil
  | terms :: alternatives, patterns, h => by
    obtain ⟨p, hp, h⟩ := bind_eq_ok_iff.1 h
    obtain ⟨inner, hinner, hp⟩ := map_eq_ok_iff.1 hp
    obtain ⟨later, hlater, h⟩ := bind_eq_ok_iff.1 h
    cases h
    exact .cons (Term.denotesEach_of_toPatterns hinner) (Pattern.inOrder_iff.2 hp)
      (Alternation.denotesEach_of_toPatterns hlater)

end

/-- Terms without patterns have one without a pattern, for the same reason. -/
theorem Term.toPatterns_cons_eq_error {term : Term} {terms : List Term} {range : InvertedRange}
    (h : Term.toPatterns (term :: terms) = .error range) :
    term.toPattern = .error range ∨ Term.toPatterns terms = .error range := by
  obtain h | ⟨p, -, h⟩ := bind_eq_error_iff.1 h
  · exact .inl h
  · obtain h | ⟨patterns, -, h⟩ := bind_eq_error_iff.1 h
    · exact .inr h
    · cases h

theorem Alternation.toPatterns_cons_eq_error {terms : List Term} {alternatives : Alternation}
    {range : InvertedRange} (h : Alternation.toPatterns (terms :: alternatives) = .error range) :
    Term.toPatterns terms = .error range ∨ Alternation.toPatterns alternatives = .error range := by
  obtain h | ⟨p, -, h⟩ := bind_eq_error_iff.1 h
  · exact .inl (map_eq_error_iff.1 h)
  · obtain h | ⟨patterns, -, h⟩ := bind_eq_error_iff.1 h
    · exact .inr h
    · cases h

theorem Alternation.toPatterns_eq_ok_iff {alternatives : Alternation} {patterns : List Pattern} :
    Alternation.toPatterns alternatives = .ok patterns ↔
      Alternation.DenotesEach alternatives patterns :=
  ⟨denotesEach_of_toPatterns, DenotesEach.toPatterns_eq⟩

/-- What a rule defines in a block that skips `skip`, or outside of blocks. -/
inductive Rule.Denotes (skip : Option Word) : (r : Rule) → (definition : Definition) → Prop
  | mk {name : Word} {body : Alternation} {patterns : List Pattern} {p : Pattern}
    (h : Alternation.DenotesEach body patterns) (hp : Pattern.AnyOf patterns p) :
    Rule.Denotes skip ⟨name, body⟩ ⟨name, p, skip⟩

/-- What a description defines, in the order of its rules. -/
inductive Description.Denotes : (d : Description) → (definitions : List Definition) → Prop
  | nil : Description.Denotes [] []
  | rule {r : Rule} {definition : Definition} {d : Description} {definitions : List Definition}
    (h : Rule.Denotes none r definition) (rest : Description.Denotes d definitions) :
    Description.Denotes (.rule r :: d) (definition :: definitions)
  | block {name : Word} {rules : List Rule} {d : Description}
    {inner definitions : List Definition}
    (h : List.Forall₂ (Rule.Denotes (some name)) rules inner)
    (rest : Description.Denotes d definitions) :
    Description.Denotes (.block name rules :: d) (inner ++ definitions)

theorem Rule.define_eq_ok_iff {skip : Option Word} {r : Rule} {definition : Definition} :
    r.define skip = .ok definition ↔ r.Denotes skip definition := by
  rw [define, map_eq_ok_iff]
  simp only [Alternation.toPattern, map_eq_ok_iff, Alternation.toPatterns_eq_ok_iff,
    ← Pattern.anyOf_iff]
  constructor
  · rintro ⟨p, ⟨patterns, h, hp⟩, rfl⟩
    exact .mk h hp
  · rintro ⟨h, hp⟩
    exact ⟨_, ⟨_, h, hp⟩, rfl⟩

/-- A description has the definitions that it means, if it means any. -/
theorem Description.define_eq_ok_iff {d : Description} {definitions : List Definition} :
    d.define = .ok definitions ↔ d.Denotes definitions := by
  rw [define, map_eq_ok_iff]
  simp only [mapM_eq_ok_iff]
  constructor
  · rintro ⟨parts, h, rfl⟩
    induction h with
    | nil => exact .nil
    | @cons item part d parts h _ ih =>
      rw [List.flatten_cons]
      cases item with
      | rule r =>
        obtain ⟨definition, hr, rfl⟩ := map_eq_ok_iff.1 h
        exact .rule (Rule.define_eq_ok_iff.1 hr) ih
      | block name rules =>
        refine .block ?_ ih
        rw [Item.define, mapM_eq_ok_iff] at h
        simpa only [Rule.define_eq_ok_iff] using h
  · intro h
    induction h with
    | nil => exact ⟨[], .nil, rfl⟩
    | rule h _ ih =>
      obtain ⟨parts, hparts, rfl⟩ := ih
      refine ⟨[_] :: parts, .cons ?_ hparts, rfl⟩
      rw [Item.define, Rule.define_eq_ok_iff.2 h]
      rfl
    | block h _ ih =>
      obtain ⟨parts, hparts, rfl⟩ := ih
      refine ⟨_ :: parts, .cons ?_ hparts, rfl⟩
      rw [Item.define, mapM_eq_ok_iff]
      simpa only [Rule.define_eq_ok_iff] using h

end Descent
