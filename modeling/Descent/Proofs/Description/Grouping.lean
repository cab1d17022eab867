import Descent.Proofs.Description.Congruence
import Descent.Proofs.Flat
import Descent.Proofs.Room
import Mathlib.Logic.Relation

/-!
# Redundant parentheses

Parentheses may be put around neighbouring terms of a concatenation and around neighbouring
alternatives of an alternation, at any depth (`Description.Groups`). Descriptions that only differ
in such parentheses (`Description.Regroups`) parse alike: the same texts into the same trees, and
what they refuse, they refuse at the same offsets, unless a text is too deep for one of them
(`Grammar.parse_regrouped`).

The patterns of such descriptions need not be equal. A sequence in a sequence leaves no trace, but a
choice in a choice is kept, and takes room for a search of its own. So in the same room, a text may
be too deep for one of the descriptions and not for the other (`Grammar.parseIn_nestedGroup`). What
they have in common is what is listed for them, whatever is skipped around them, and the names on
which they depend (`Pattern.Same`).
-/

namespace Descent

/-! ## Outcomes in step -/

/-- Both outcomes are the same error, or both are values, and these are related. -/
inductive Concur {ε α β : Type} (R : α → β → Prop) : (x : Except ε α) → (y : Except ε β) → Prop
  | error (e : ε) : Concur R (.error e) (.error e)
  | ok {a : α} {b : β} (h : R a b) : Concur R (.ok a) (.ok b)

namespace Concur

variable {ε α β γ δ : Type} {R : α → β → Prop} {S : γ → δ → Prop} {x : Except ε α} {y : Except ε β}

theorem refl {R : α → α → Prop} (hR : ∀ a, R a a) : ∀ x : Except ε α, Concur R x x
  | .error e => .error e
  | .ok a => .ok (hR a)

theorem symm {Q : β → α → Prop} (h : Concur R x y) (hRQ : ∀ a b, R a b → Q b a) : Concur Q y x := by
  cases h with
  | error e => exact .error e
  | ok h => exact .ok (hRQ _ _ h)

theorem trans {Q : β → γ → Prop} {P : α → γ → Prop} {z : Except ε γ} (h : Concur R x y)
    (h' : Concur Q y z) (hP : ∀ a b c, R a b → Q b c → P a c) : Concur P x z := by
  cases h with
  | error e =>
    cases h'
    exact .error e
  | ok h =>
    cases h' with
    | ok h' => exact .ok (hP _ _ _ h h')

theorem map {f : α → γ} {g : β → δ} (h : Concur R x y) (hfg : ∀ a b, R a b → S (f a) (g b)) :
    Concur S (x.map f) (y.map g) := by
  cases h with
  | error e => exact .error e
  | ok h => exact .ok (hfg _ _ h)

theorem exists_of_ok {a : α} (h : Concur R x y) (hx : x = .ok a) : ∃ b, y = .ok b ∧ R a b := by
  cases h with
  | error e => cases hx
  | ok h =>
    cases hx
    exact ⟨_, rfl, h⟩

theorem bind {f : α → Except ε γ} {g : β → Except ε δ} (h : Concur R x y)
    (hfg : ∀ a b, R a b → Concur S (f a) (g b)) : Concur S (x >>= f) (y >>= g) := by
  cases h with
  | error e => exact .error e
  | ok h => exact hfg _ _ h

theorem mapM {f : α → Except ε γ} {g : β → Except ε δ} {as : List α} {bs : List β}
    (h : List.Forall₂ R as bs) (hfg : ∀ a b, R a b → Concur S (f a) (g b)) :
    Concur (List.Forall₂ S) (as.mapM f) (bs.mapM g) := by
  induction h with
  | nil => exact .ok .nil
  | cons h _ ih =>
    rw [List.mapM_cons, List.mapM_cons]
    exact (hfg _ _ h).bind fun c d hcd => ih.bind fun cs ds hrest => .ok (.cons hcd hrest)

end Concur

/-! ## Patterns that list the same -/

namespace Pattern

/-- Whatever is skipped in the patterns, the same is listed for them, and they have the same
    names. -/
@[mk_iff]
structure Same (p p' : Pattern) : Prop where
  /-- The names agree. -/
  names_eq : p'.names = p.names
  /-- The same is listed. -/
  listing_eq : ∀ skip t enter,
    (p'.skippingIn skip).listing t enter = (p.skippingIn skip).listing t enter

namespace Same

variable {p p' p'' : Pattern} {ps ps' qs qs' : List Pattern}

theorem refl (p : Pattern) : Same p p := ⟨rfl, fun _ _ _ => rfl⟩

theorem symm (h : Same p p') : Same p' p :=
  ⟨h.names_eq.symm, fun skip t enter => (h.listing_eq skip t enter).symm⟩

theorem trans (h : Same p p') (h' : Same p' p'') : Same p p'' :=
  ⟨h'.names_eq.trans h.names_eq,
    fun skip t enter => (h'.listing_eq skip t enter).trans (h.listing_eq skip t enter)⟩

theorem repetition (h : Same p p') (minimum : Int) (maximum : Option Int) :
    Same (.repetition p minimum maximum) (.repetition p' minimum maximum) := by
  refine ⟨h.names_eq, fun skip t enter => ?_⟩
  funext pos
  rw [skippingIn_repetition, skippingIn_repetition, listing, listing, h.listing_eq]

/-- Patterns one after the other are the same if they have the same names and list the same, one
    after the other. -/
theorem inOrder_iff : Same (inOrder ps) (inOrder ps') ↔
    namesOfAll ps' = namesOfAll ps ∧ ∀ skip t enter,
      listingAll t enter (skippingAllIn skip ps') = listingAll t enter (skippingAllIn skip ps) := by
  simp only [same_iff, names_inOrder, funext_iff, listing_skippingIn_inOrder]

/-- Alternatives are the same if they have the same names and list the same. -/
theorem anyOf_iff : Same (anyOf ps) (anyOf ps') ↔
    namesOfAll ps' = namesOfAll ps ∧ ∀ skip t enter,
      listingAny t enter (skippingAllIn skip ps') = listingAny t enter (skippingAllIn skip ps) := by
  simp only [same_iff, names_anyOf, funext_iff, listing_skippingIn_anyOf]

/-! ### Parts put together -/

theorem inOrder_append (h : Same (inOrder qs) (inOrder qs'))
    (rest : Same (inOrder ps) (inOrder ps')) :
    Same (inOrder (qs ++ ps)) (inOrder (qs' ++ ps')) := by
  rw [inOrder_iff] at h rest ⊢
  refine ⟨by rw [namesOfAll_append, namesOfAll_append, h.1, rest.1], fun skip t enter => ?_⟩
  funext pos
  rw [skippingAllIn_append, skippingAllIn_append, listingAll_append, listingAll_append, h.2, rest.2]

theorem anyOf_append (h : Same (anyOf qs) (anyOf qs')) (rest : Same (anyOf ps) (anyOf ps')) :
    Same (anyOf (qs ++ ps)) (anyOf (qs' ++ ps')) := by
  rw [anyOf_iff] at h rest ⊢
  refine ⟨by rw [namesOfAll_append, namesOfAll_append, h.1, rest.1], fun skip t enter => ?_⟩
  funext pos
  rw [skippingAllIn_append, skippingAllIn_append, listingAny_append, listingAny_append, h.2, rest.2]

theorem inOrder_cons (h : Same p p') (rest : Same (inOrder ps) (inOrder ps')) :
    Same (inOrder (p :: ps)) (inOrder (p' :: ps')) :=
  inOrder_append (show Same (inOrder [p]) (inOrder [p']) from h) rest

theorem anyOf_cons (h : Same p p') (rest : Same (anyOf ps) (anyOf ps')) :
    Same (anyOf (p :: ps)) (anyOf (p' :: ps')) :=
  anyOf_append (show Same (anyOf [p]) (anyOf [p']) from h) rest

/-- The first of some patterns one after the other may be put together. -/
theorem inOrder_enclosed (qs ps : List Pattern) :
    Same (inOrder (qs ++ ps)) (inOrder (inOrder qs :: ps)) := by
  rw [inOrder_iff, namesOfAll_append, namesOfAll, names_inOrder]
  refine ⟨rfl, fun skip t enter => ?_⟩
  funext pos
  rw [skippingAllIn_cons, listingAll_cons, listing_skippingIn_inOrder, skippingAllIn_append,
    listingAll_append]

/-- The first of some alternatives may be put together. -/
theorem anyOf_enclosed (qs ps : List Pattern) :
    Same (anyOf (qs ++ ps)) (anyOf (anyOf qs :: ps)) := by
  rw [anyOf_iff, namesOfAll_append, namesOfAll, names_anyOf]
  refine ⟨rfl, fun skip t enter => ?_⟩
  funext pos
  rw [skippingAllIn_cons, listingAny, listing_skippingIn_anyOf, skippingAllIn_append,
    listingAny_append]

end Same

end Pattern

/-! ## Parentheses -/

mutual

/-- The second term is the first one with parentheses put around it, or around parts of it. -/
inductive Term.Groups : (term term' : Term) → Prop
  | same (term : Term) : Term.Groups term term
  | repeated {term term' : Term} (h : Term.Groups term term') (q : Quantifier) :
    Term.Groups (.repeated term q) (.repeated term' q)
  | group {alternatives alternatives' : Alternation}
    (h : Alternation.Groups alternatives alternatives') :
    Term.Groups (.group alternatives) (.group alternatives')
  | enclose {term term' : Term} (h : Term.Groups term term') :
    Term.Groups term (.group [[term']])

/-- The terms with parentheses put around some that stand next to each other, or around parts of
    them. -/
inductive Term.GroupsEach : (terms terms' : List Term) → Prop
  | nil : Term.GroupsEach [] []
  | cons {term term' : Term} {terms terms' : List Term} (h : Term.Groups term term')
    (rest : Term.GroupsEach terms terms') : Term.GroupsEach (term :: terms) (term' :: terms')
  | enclose {inner inner' terms terms' : List Term} (h : Term.GroupsEach inner inner')
    (rest : Term.GroupsEach terms terms') :
    Term.GroupsEach (inner ++ terms) (.group [inner'] :: terms')

/-- The alternatives with parentheses put around some that stand next to each other, or around parts
    of them. -/
inductive Alternation.Groups : (alternatives alternatives' : Alternation) → Prop
  | nil : Alternation.Groups [] []
  | cons {terms terms' : List Term} {alternatives alternatives' : Alternation}
    (h : Term.GroupsEach terms terms') (rest : Alternation.Groups alternatives alternatives') :
    Alternation.Groups (terms :: alternatives) (terms' :: alternatives')
  | enclose {inner inner' alternatives alternatives' : Alternation}
    (h : Alternation.Groups inner inner') (rest : Alternation.Groups alternatives alternatives') :
    Alternation.Groups (inner ++ alternatives) ([.group inner'] :: alternatives')

end

/-- The rule with parentheses put around parts of it. -/
structure Rule.Groups (r r' : Rule) : Prop where
  /-- The names agree. -/
  name_eq : r'.name = r.name
  /-- Parentheses are put around parts of the right-hand side. -/
  body : Alternation.Groups r.body r'.body

/-- The part of a description with parentheses put around parts of its rules. -/
inductive Item.Groups : (item item' : Item) → Prop
  | rule {r r' : Rule} (h : r.Groups r') : Item.Groups (.rule r) (.rule r')
  | block (name : Word) {rules rules' : List Rule} (h : List.Forall₂ Rule.Groups rules rules') :
    Item.Groups (.block name rules) (.block name rules')

/-- The description with parentheses put around parts of its rules. -/
def Description.Groups (d d' : Description) : Prop := List.Forall₂ Item.Groups d d'

/-- The descriptions only differ in such parentheses: they are put in and taken away, in any number
    of steps. -/
def Description.Regroups : (d d' : Description) → Prop := Relation.EqvGen Description.Groups

/-! ## What is meant -/

theorem Term.toPatterns_cons (term : Term) (terms : List Term) :
    toPatterns (term :: terms) = term.toPattern >>= fun p => (toPatterns terms).map (p :: ·) := by
  rw [toPatterns]
  cases term.toPattern with
  | error => rfl
  | ok p => cases toPatterns terms <;> rfl

theorem Term.toPatterns_append (inner terms : List Term) :
    toPatterns (inner ++ terms) =
      toPatterns inner >>= fun qs => (toPatterns terms).map (qs ++ ·) := by
  induction inner with
  | nil => cases h : toPatterns terms <;> simp [toPatterns, h] <;> rfl
  | cons term inner ih =>
    rw [List.cons_append, toPatterns_cons, ih, toPatterns_cons]
    cases term.toPattern with
    | error => rfl
    | ok p =>
      cases toPatterns inner with
      | error => rfl
      | ok qs => cases toPatterns terms <;> rfl

/-- Parentheses around a single term make no difference to its pattern. -/
theorem Term.toPattern_enclosed (term : Term) : toPattern (.group [[term]]) = term.toPattern := by
  rw [toPattern, Alternation.toPatterns, Alternation.toPatterns, toPatterns, toPatterns]
  cases term.toPattern <;> rfl

/-- Parentheses around terms make one pattern of theirs. -/
theorem Term.toPatterns_enclosed_cons (inner terms : List Term) :
    toPatterns (.group [inner] :: terms) =
      toPatterns inner >>= fun qs => (toPatterns terms).map (.inOrder qs :: ·) := by
  rw [toPatterns_cons, toPattern, Alternation.toPatterns, Alternation.toPatterns]
  cases toPatterns inner <;> rfl

theorem Alternation.toPatterns_cons (terms : List Term) (alternatives : Alternation) :
    toPatterns (terms :: alternatives) =
      Term.toPatterns terms >>= fun qs => (toPatterns alternatives).map (.inOrder qs :: ·) := by
  rw [toPatterns]
  cases Term.toPatterns terms with
  | error => rfl
  | ok qs => cases toPatterns alternatives <;> rfl

theorem Alternation.toPatterns_append (inner alternatives : Alternation) :
    toPatterns (inner ++ alternatives) =
      toPatterns inner >>= fun qs => (toPatterns alternatives).map (qs ++ ·) := by
  induction inner with
  | nil => cases h : toPatterns alternatives <;> simp [toPatterns, h] <;> rfl
  | cons terms inner ih =>
    rw [List.cons_append, toPatterns_cons, ih, toPatterns_cons]
    cases Term.toPatterns terms with
    | error => rfl
    | ok p =>
      cases toPatterns inner with
      | error => rfl
      | ok qs => cases toPatterns alternatives <;> rfl

/-- Parentheses around alternatives make one pattern of theirs. -/
theorem Alternation.toPatterns_enclosed_cons (inner alternatives : Alternation) :
    toPatterns ([.group inner] :: alternatives) =
      toPatterns inner >>= fun qs => (toPatterns alternatives).map (.anyOf qs :: ·) := by
  rw [toPatterns_cons, Term.toPatterns_cons, Term.toPatterns, Term.toPattern]
  cases toPatterns inner <;> rfl

open Pattern (Same)

mutual

/-- Parentheses do not change what is listed for a term. -/
theorem Term.Groups.toPattern {term term' : Term} :
    Term.Groups term term' → Concur Same term.toPattern term'.toPattern
  | .same _ => .refl Same.refl _
  | .repeated h q => h.toPattern.map fun _ _ hp => hp.repetition q.minimum q.maximum
  | .group h => h.toPatterns.map fun _ _ hps => hps
  | .enclose h => by
    rw [Term.toPattern_enclosed]
    exact h.toPattern

theorem Term.GroupsEach.toPatterns {terms terms' : List Term} :
    Term.GroupsEach terms terms' → Concur (fun ps ps' => Same (.inOrder ps) (.inOrder ps'))
      (Term.toPatterns terms) (Term.toPatterns terms')
  | .nil => .ok (.refl _)
  | .cons h rest => by
    rw [Term.toPatterns_cons, Term.toPatterns_cons]
    exact h.toPattern.bind fun _ _ hp => rest.toPatterns.map fun _ _ hps => hp.inOrder_cons hps
  | .enclose h rest => by
    -- What is enclosed changes first, and is put together then.
    rw [Term.toPatterns_append, Term.toPatterns_enclosed_cons]
    exact h.toPatterns.bind fun _ _ hqs => rest.toPatterns.map fun _ _ hps =>
      (Same.inOrder_append hqs hps).trans (.inOrder_enclosed _ _)

theorem Alternation.Groups.toPatterns {alternatives alternatives' : Alternation} :
    Alternation.Groups alternatives alternatives' →
      Concur (fun ps ps' => Same (.anyOf ps) (.anyOf ps')) (Alternation.toPatterns alternatives)
        (Alternation.toPatterns alternatives')
  | .nil => .ok (.refl _)
  | .cons h rest => by
    rw [Alternation.toPatterns_cons, Alternation.toPatterns_cons]
    exact h.toPatterns.bind fun _ _ hp => rest.toPatterns.map fun _ _ hps => hp.anyOf_cons hps
  | .enclose h rest => by
    rw [Alternation.toPatterns_append, Alternation.toPatterns_enclosed_cons]
    exact h.toPatterns.bind fun _ _ hqs => rest.toPatterns.map fun _ _ hps =>
      (Same.anyOf_append hqs hps).trans (.anyOf_enclosed _ _)

end

/-! ## Definitions that list the same -/

namespace Definition

/-- The definitions agree, but for patterns that list the same. -/
structure Same (d d' : Definition) : Prop where
  /-- The names agree. -/
  name_eq : d'.name = d.name
  /-- The same rule is skipped, if any. -/
  skip_eq : d'.skip = d.skip
  /-- The patterns list the same. -/
  pattern : d.pattern.Same d'.pattern

namespace Same

variable {d d' d'' : Definition}

theorem refl (d : Definition) : Same d d := ⟨rfl, rfl, .refl _⟩

theorem symm (h : Same d d') : Same d' d := ⟨h.name_eq.symm, h.skip_eq.symm, h.pattern.symm⟩

theorem trans (h : Same d d') (h' : Same d' d'') : Same d d'' :=
  ⟨h'.name_eq.trans h.name_eq, h'.skip_eq.trans h.skip_eq, h.pattern.trans h'.pattern⟩

theorem reduces (h : Same d d') : d.Reduces d' :=
  ⟨h.name_eq, fun _ hskip => h.skip_eq ▸ hskip, h.pattern.names_eq ▸ List.Subset.refl _⟩

theorem listing_woven (h : Same d d') (t : Text) (enter : Word → Nat → Listing Extent) :
    d'.woven.listing t enter = d.woven.listing t enter := by
  funext pos
  rw [Definition.listing_woven, Definition.listing_woven, Pattern.listingAll_cons,
    Pattern.listingAll_cons, h.skip_eq, h.pattern.listing_eq]

end Same

end Definition

theorem Rule.Groups.define {r r' : Rule} (h : r.Groups r') (skip : Option Word) :
    Concur Definition.Same (r.define skip) (r'.define skip) :=
  (h.body.toPatterns.map fun _ _ hps => hps).map fun _ _ hp => ⟨h.name_eq, rfl, hp⟩

theorem Item.Groups.define {item item' : Item} (h : item.Groups item') :
    Concur (List.Forall₂ Definition.Same) item.define item'.define := by
  cases h with
  | rule h => exact (h.define none).map fun _ _ hd => .cons hd .nil
  | block name h => exact .mapM h fun _ _ hr => hr.define (some name)

theorem Description.Groups.define {d d' : Description} (h : d.Groups d') :
    Concur (List.Forall₂ Definition.Same) d.define d'.define :=
  (Concur.mapM h fun _ _ hitem => hitem.define).map fun _ _ hparts => List.rel_flatten hparts

/-- Descriptions that only differ in parentheses define the same, or fail alike. -/
theorem Description.Regroups.define {d d' : Description} (h : d.Regroups d') :
    Concur (List.Forall₂ Definition.Same) d.define d'.define := by
  induction h with
  | rel _ _ h => exact h.define
  | refl d => exact .refl (fun _ => List.forall₂_same.2 fun e _ => .refl e) d.define
  | symm _ _ _ ih => exact ih.symm fun _ _ h => (h.imp fun _ _ h => h.symm).flip
  | trans _ _ _ _ _ ih ih' =>
    exact ih.trans ih' fun _ _ _ => forall₂_trans fun _ _ _ h h' => h.trans h'

/-! ## Parsing -/

namespace Grammar

variable {w w' : Word} {root : Option RootChoice} {g : Grammar} {d d' : Description}

/-- Parentheses around parts of concatenations and alternations make no difference but to how soon
    a text is too deep. If a description gives a grammar, so does one that only differs in them. It
    gives the same tree for every text, or refuses it for the same reason and at the same offset,
    whatever the room for searches or the limit on rules is for the one and for the other, unless
    the text is too deep for one of them. A text that is not too deep under some limit is not too
    deep for both of them where there is room enough. -/
theorem parse_regrouped (hg : compile w root = .ok g) (hw : d.SpelledBy w) (hw' : d'.SpelledBy w')
    (h : d.Regroups d') :
    ∃ g', compile w' root = .ok g' ∧
      (∀ room room' t, (∀ furthest, g.parseIn room t ≠ .error (.halted .tooDeep furthest)) →
        (∀ furthest, g'.parseIn room' t ≠ .error (.halted .tooDeep furthest)) →
        g'.parseIn room' t = g.parseIn room t) ∧
      (∀ limit limit' t, (∀ furthest, g.parse limit t ≠ .error (.halted .tooDeep furthest)) →
        (∀ furthest, g'.parse limit' t ≠ .error (.halted .tooDeep furthest)) →
        g'.parse limit' t = g.parse limit t) ∧
      ∀ limit t, (∀ furthest, g.parse limit t ≠ .error (.halted .tooDeep furthest)) →
        ∃ enough, ∀ room ≥ enough,
          g.parseIn room t = g.parse limit t ∧ g'.parseIn room t = g.parse limit t := by
  obtain ⟨_, definitions, hmeans, -, hrules, -⟩ := exists_means_of_compile hg
  have hdefine := Description.define_eq_ok_iff.2 (hw.means_iff.1 hmeans)
  obtain ⟨definitions', hdefine', hsame⟩ := h.define.exists_of_ok hdefine
  have hmeans' := hw'.means_iff.2 (Description.define_eq_ok_iff.1 hdefine')
  -- The limit is on rules alone, which are entered alike.
  have hparse (limit : Nat) (t : Text) :
      Grammar.parse ⟨rulesOf definitions', g.root⟩ limit t = g.parse limit t :=
    parse_rulesOf hrules (hsame.imp fun _ _ h => ⟨h.name_eq, fun _ _ => h.listing_woven t _⟩)
  refine ⟨_, compile_of_forall₂ hg hmeans hmeans' (hsame.imp fun _ _ h => h.reduces),
    fun room room' t => parseIn_eq_of_parse_eq fun limit => hparse limit t,
    fun limit limit' t => parse_eq_of_not_tooDeep (hparse limit t), fun limit t hdeep => ?_⟩
  refine ⟨max (limit * g.rules.height) (limit * Rules.height (rulesOf definitions')),
    fun room hroom => ?_⟩
  obtain ⟨hleft, hright⟩ := Nat.max_le.1 hroom
  refine ⟨parseIn_eq_parse hleft hdeep, ?_⟩
  rw [← hparse] at hdeep ⊢
  exact parseIn_eq_parse hright hdeep

/-- The description `@skip ws { a ::= ('x' 'y') 'z' | ('u' | 'v'); } ws ::= ' ';`. -/
def groupedLeft : Description :=
  [.block ['w', 's'] [⟨['a'], [[.group [[.literal ['x'], .literal ['y']]], .literal ['z']],
      [.group [[.literal ['u']], [.literal ['v']]]]]⟩],
    .rule ⟨['w', 's'], [[.literal [' ']]]⟩]

/-- The description `@skip ws { a ::= 'x' ('y' 'z') | 'u' | 'v'; } ws ::= (' ');`. -/
def groupedRight : Description :=
  [.block ['w', 's'] [⟨['a'], [[.literal ['x'], .group [[.literal ['y'], .literal ['z']]]],
      [.literal ['u']], [.literal ['v']]]⟩],
    .rule ⟨['w', 's'], [[.group [[.literal [' ']]]]]⟩]

/-- The description `@skip ws { a ::= 'x' 'y' 'z' | 'u' | 'v'; } ws ::= ' ';`. -/
def ungrouped : Description :=
  [.block ['w', 's'] [⟨['a'], [[.literal ['x'], .literal ['y'], .literal ['z']],
      [.literal ['u']], [.literal ['v']]]⟩],
    .rule ⟨['w', 's'], [[.literal [' ']]]⟩]

theorem ungrouped_groups_groupedLeft : ungrouped.Groups groupedLeft := by
  have hconcatenation : Term.GroupsEach [.literal ['x'], .literal ['y'], .literal ['z']]
      [.group [[.literal ['x'], .literal ['y']]], .literal ['z']] :=
    @Term.GroupsEach.enclose [_, _] _ [_] _ (.cons (.same _) (.cons (.same _) .nil))
      (.cons (.same _) .nil)
  have halternation : Alternation.Groups [[.literal ['u']], [.literal ['v']]]
      [[.group [[.literal ['u']], [.literal ['v']]]]] :=
    @Alternation.Groups.enclose [_, _] _ [] _
      (.cons (.cons (.same _) .nil) (.cons (.cons (.same _) .nil) .nil)) .nil
  exact .cons (.block _ (.cons ⟨rfl, .cons hconcatenation halternation⟩ .nil))
    (.cons (.rule ⟨rfl, .cons (.cons (.same _) .nil) .nil⟩) .nil)

theorem ungrouped_groups_groupedRight : ungrouped.Groups groupedRight := by
  have hconcatenation : Term.GroupsEach [.literal ['x'], .literal ['y'], .literal ['z']]
      [.literal ['x'], .group [[.literal ['y'], .literal ['z']]]] :=
    .cons (.same _) (@Term.GroupsEach.enclose [_, _] _ [] _
      (.cons (.same _) (.cons (.same _) .nil)) .nil)
  exact .cons (.block _ (.cons ⟨rfl, .cons hconcatenation
      (.cons (.cons (.same _) .nil) (.cons (.cons (.same _) .nil) .nil))⟩ .nil))
    (.cons (.rule ⟨rfl, .cons (.cons (.enclose (.same _)) .nil) .nil⟩) .nil)

/-- The grammar of `@skip ws { a ::= ('x' 'y') 'z' | ('u' | 'v'); } ws ::= ' ';`, with one choice in
    another. -/
def choiceInChoice : Grammar :=
  ⟨[(['a'], .sequence [.choice [.sequence [.skip ['w', 's'], .literal ['x'], .skip ['w', 's'],
        .literal ['y'], .skip ['w', 's'], .literal ['z']],
      .choice [.sequence [.skip ['w', 's'], .literal ['u']],
        .sequence [.skip ['w', 's'], .literal ['v']]]], .skip ['w', 's']]),
    (['w', 's'], .literal [' '])], ['a']⟩

/-- The same is parsed wherever the parentheses stand, the text `xyz` for example. -/
theorem parse_regrouped_choiceInChoice :
    let t : Text := #['x', 'y', 'z']
    compile "@skip ws \x7b a ::= ('x' 'y') 'z' | ('u' | 'v'); \x7d ws ::= ' ';".toList none =
      .ok choiceInChoice ∧
    (choiceInChoice.parse 2 t).isOk ∧
    ∃ g', compile "@skip ws \x7b a ::= 'x' ('y' 'z') | 'u' | 'v'; \x7d ws ::= (' ');".toList none =
      .ok g' ∧ ∃ enough, ∀ room ≥ enough, choiceInChoice.parseIn room t = choiceInChoice.parse 2 t ∧
        g'.parseIn room t = choiceInChoice.parse 2 t := by
  intro t
  have hcompile :
      compile "@skip ws \x7b a ::= ('x' 'y') 'z' | ('u' | 'v'); \x7d ws ::= ' ';".toList none =
        .ok choiceInChoice := rfl
  have hok : (choiceInChoice.parse 2 t).isOk := by decide +kernel
  -- From the one to the other, some parentheses are taken away and others are put in.
  have hregroups : groupedLeft.Regroups groupedRight :=
    .trans _ ungrouped _ (.symm _ _ (.rel _ _ ungrouped_groups_groupedLeft))
      (.rel _ _ ungrouped_groups_groupedRight)
  have hspelled : groupedRight.SpelledBy
      "@skip ws \x7b a ::= 'x' ('y' 'z') | 'u' | 'v'; \x7d ws ::= (' ');".toList :=
    Description.spelledBy_iff.2 rfl
  obtain ⟨g', hg', -, -, henough⟩ := parse_regrouped hcompile
    (Description.spelledBy_iff.2 (rfl : Description.parse _ = .ok groupedLeft)) hspelled hregroups
  exact ⟨hcompile, hok, g', hg', henough 2 t fun _ => ne_error_of_isOk hok _⟩

/-! ## A choice in a choice takes room -/

/-- The description `root ::= 'x' | '(' root ')' | 'y';`. -/
def nestedFlat : Description :=
  [.rule ⟨"root".toList, [[.literal ['x']],
    [.literal ['('], .reference "root".toList, .literal [')']], [.literal ['y']]]⟩]

/-- The description `root ::= ('x' | '(' root ')') | 'y';`. -/
def nestedGroup : Description :=
  [.rule ⟨"root".toList, [[.group [[.literal ['x']],
    [.literal ['('], .reference "root".toList, .literal [')']]]], [.literal ['y']]]⟩]

theorem nestedFlat_groups_nestedGroup : nestedFlat.Groups nestedGroup :=
  .cons (.rule ⟨rfl, @Alternation.Groups.enclose [_, _] _ [_] _
    (.cons (.cons (.same _) .nil)
      (.cons (.cons (.same _) (.cons (.same _) (.cons (.same _) .nil))) .nil))
    (.cons (.cons (.same _) .nil) .nil)⟩) .nil

/-- The grammar of `root ::= 'x' | '(' root ')' | 'y';`. -/
def flatChoice : Grammar :=
  ⟨[("root".toList, .choice [.literal ['x'],
    .sequence [.literal ['('], .reference "root".toList, .literal [')']], .literal ['y']])],
    "root".toList⟩

/-- The grammar of `root ::= ('x' | '(' root ')') | 'y';`. -/
def groupedChoice : Grammar :=
  ⟨[("root".toList, .choice [.choice [.literal ['x'],
    .sequence [.literal ['('], .reference "root".toList, .literal [')']]], .literal ['y']])],
    "root".toList⟩

/-- The text `x` in so many parentheses. -/
def enclosed (n : Nat) : Text := (List.replicate n '(' ++ 'x' :: List.replicate n ')').toArray

/-- In the same room, a text in parentheses is too deep for a choice in a choice, but not for the
    choice without the parentheses. -/
theorem parseIn_nestedGroup :
    let w := "root ::= 'x' | '(' root ')' | 'y';".toList
    let w' := "root ::= ('x' | '(' root ')') | 'y';".toList
    nestedFlat.SpelledBy w ∧ nestedGroup.SpelledBy w' ∧ nestedFlat.Regroups nestedGroup ∧
    compile w none = .ok flatChoice ∧ compile w' none = .ok groupedChoice ∧
    (flatChoice.parseIn 100 (enclosed 30)).isOk ∧
    groupedChoice.parseIn 100 (enclosed 30) = .error (.halted .tooDeep 25) := by
  have hrefused : (match groupedChoice.parseIn 100 (enclosed 30) with
      | .error r => some r
      | .ok _ => none) = some (Refusal.halted .tooDeep 25) := by decide +kernel
  refine ⟨Description.spelledBy_iff.2 rfl, Description.spelledBy_iff.2 rfl,
    .rel _ _ nestedFlat_groups_nestedGroup, rfl, rfl, by decide +kernel, ?_⟩
  cases hparse : groupedChoice.parseIn 100 (enclosed 30) with
  | ok tree =>
    rw [hparse] at hrefused
    cases hrefused
  | error r =>
    rw [hparse] at hrefused
    exact congrArg Except.error (Option.some.inj hrefused)

end Grammar

end Descent
