import Descent.Proofs.Description.Congruence
import Descent.Proofs.OneOrMore

/-!
# Repetitions written out

In a description, `e+` may be written out as `e e*` (`Description.Unrolls`). Where `e` does not
match nothing, that makes no difference at all: the texts are parsed into the same trees, and refused
at the same offsets (`Grammar.parse_unrolled`). Where it does, `e e*` matches nothing as well, but
`e+` does not (`Grammar.parse_repeatedOption`).
-/

namespace Descent

/-! ## Writing out -/

mutual

/-- The second term is the first one with some of the repetitions `e+` in it written out, all of
    them of terms in `Q`. -/
inductive Term.Unrolls (Q : Term → Prop) : (term term' : Term) → Prop
  | same (term : Term) : Term.Unrolls Q term term
  | repeated {term term' : Term} (h : Term.Unrolls Q term term') (q : Quantifier) :
    Term.Unrolls Q (.repeated term q) (.repeated term' q)
  | group {alternatives alternatives' : Alternation}
    (h : Alternation.Unrolls Q alternatives alternatives') :
    Term.Unrolls Q (.group alternatives) (.group alternatives')

/-- The terms with some of the repetitions among them or in them written out. -/
inductive Term.UnrollsEach (Q : Term → Prop) : (terms terms' : List Term) → Prop
  | nil : Term.UnrollsEach Q [] []
  | cons {term term' : Term} {terms terms' : List Term} (h : Term.Unrolls Q term term')
    (rest : Term.UnrollsEach Q terms terms') : Term.UnrollsEach Q (term :: terms) (term' :: terms')
  | unroll {term term' : Term} {terms terms' : List Term} (h : Term.Unrolls Q term term')
    (hQ : Q term) (rest : Term.UnrollsEach Q terms terms') :
    Term.UnrollsEach Q (.repeated term .some :: terms) (term' :: .repeated term' .any :: terms')

/-- The alternatives with some of the repetitions in them written out. -/
inductive Alternation.Unrolls (Q : Term → Prop) : (alternatives alternatives' : Alternation) → Prop
  | nil : Alternation.Unrolls Q [] []
  | cons {terms terms' : List Term} {alternatives alternatives' : Alternation}
    (h : Term.UnrollsEach Q terms terms')
    (rest : Alternation.Unrolls Q alternatives alternatives') :
    Alternation.Unrolls Q (terms :: alternatives) (terms' :: alternatives')

end

/-- The rule with some of the repetitions in it written out. -/
structure Rule.Unrolls (Q : Term → Prop) (r r' : Rule) : Prop where
  /-- The names agree. -/
  name_eq : r'.name = r.name
  /-- Some of the repetitions are written out. -/
  body : Alternation.Unrolls Q r.body r'.body

/-- The part of a description with some of the repetitions in it written out, where `Q` also knows
    the rule that is skipped around a term. -/
inductive Item.Unrolls (Q : Option Word → Term → Prop) : (item item' : Item) → Prop
  | rule {r r' : Rule} (h : r.Unrolls (Q none) r') : Item.Unrolls Q (.rule r) (.rule r')
  | block (name : Word) {rules rules' : List Rule}
    (h : List.Forall₂ (Rule.Unrolls (Q (some name))) rules rules') :
    Item.Unrolls Q (.block name rules) (.block name rules')

/-- The description with some of the repetitions in it written out. -/
def Description.Unrolls (Q : Option Word → Term → Prop) (d d' : Description) : Prop :=
  List.Forall₂ (Item.Unrolls Q) d d'

/-! ## What is meant -/

theorem Term.Denotes.unique {term : Term} {p p' : Pattern} (h : term.Denotes p)
    (h' : term.Denotes p') : p' = p :=
  Except.ok.inj (h'.toPattern_eq.symm.trans h.toPattern_eq)

variable {Q : Term → Prop}

mutual

/-- A term that is written out denotes a pattern without other names. -/
theorem Term.Unrolls.exists_denotes {term term' : Term} {p : Pattern} :
    Term.Unrolls Q term term' → term.Denotes p → ∃ p', term'.Denotes p' ∧ p'.names ⊆ p.names
  | .same _, hp => ⟨p, hp, List.Subset.refl _⟩
  | .repeated h q, .repeated hp _ =>
    have ⟨_, hp', hnames⟩ := h.exists_denotes hp
    ⟨_, .repeated hp' q, hnames⟩
  | .group h, .group hps hp => by
    obtain ⟨ps', hps', hnames⟩ := h.exists_denotes hps
    refine ⟨_, .group hps' (Pattern.anyOf_iff.2 rfl), ?_⟩
    rwa [← Pattern.anyOf_iff.1 hp, Pattern.names_anyOf, Pattern.names_anyOf]

theorem Term.UnrollsEach.exists_denotes {terms terms' : List Term} {ps : List Pattern} :
    Term.UnrollsEach Q terms terms' → Term.DenotesEach terms ps →
      ∃ ps', Term.DenotesEach terms' ps' ∧ Pattern.namesOfAll ps' ⊆ Pattern.namesOfAll ps
  | .nil, .nil => ⟨[], .nil, List.Subset.refl _⟩
  | .cons h rest, .cons hp hps => by
    obtain ⟨p', hp', hnames⟩ := h.exists_denotes hp
    obtain ⟨ps', hps', hnames'⟩ := rest.exists_denotes hps
    exact ⟨p' :: ps', .cons hp' hps', List.append_subset.2
      ⟨List.subset_append_of_subset_left _ hnames, List.subset_append_of_subset_right _ hnames'⟩⟩
  | .unroll h _ rest, .cons (.repeated hp _) hps => by
    obtain ⟨p', hp', hnames⟩ := h.exists_denotes hp
    obtain ⟨ps', hps', hnames'⟩ := rest.exists_denotes hps
    refine ⟨p' :: .repetition p' 0 none :: ps', .cons hp' (.cons (.repeated hp' .any) hps'), ?_⟩
    exact List.append_subset.2 ⟨List.subset_append_of_subset_left _ hnames, List.append_subset.2
      ⟨List.subset_append_of_subset_left _ hnames, List.subset_append_of_subset_right _ hnames'⟩⟩

theorem Alternation.Unrolls.exists_denotes {alternatives alternatives' : Alternation}
    {ps : List Pattern} :
    Alternation.Unrolls Q alternatives alternatives' → Alternation.DenotesEach alternatives ps →
      ∃ ps', Alternation.DenotesEach alternatives' ps' ∧
        Pattern.namesOfAll ps' ⊆ Pattern.namesOfAll ps
  | .nil, .nil => ⟨[], .nil, List.Subset.refl _⟩
  | .cons h rest, .cons hps hp hlater => by
    obtain ⟨ps', hps', hnames⟩ := h.exists_denotes hps
    obtain ⟨later, hlater', hnames'⟩ := rest.exists_denotes hlater
    refine ⟨_, .cons hps' (Pattern.inOrder_iff.2 rfl) hlater', ?_⟩
    rw [← Pattern.inOrder_iff.1 hp, Pattern.namesOfAll, Pattern.namesOfAll, Pattern.names_inOrder,
      Pattern.names_inOrder]
    exact List.append_subset.2 ⟨List.subset_append_of_subset_left _ hnames,
      List.subset_append_of_subset_right _ hnames'⟩

end

/-! ## What is listed -/

section

variable {t : Text} {enter : Word → Nat → Listing Extent} {skip : Option Word}

/-- What is listed for the term is never empty. -/
def Term.ListsProper (t : Text) (enter : Word → Nat → Listing Extent) (skip : Option Word)
    (term : Term) : Prop :=
  ∀ p, term.Denotes p → ∀ pos, ∀ e ∈ ((p.skippingIn skip).listing t enter pos).results, e.stop ≠ pos

mutual

/-- A term lists the same when repetitions of terms without empty matches are written out. -/
theorem Term.Unrolls.listing_eq (hQ : ∀ term, Q term → term.ListsProper t enter skip)
    (henter : ∀ name, Within t.size (enter name)) {term term' : Term} {p p' : Pattern} :
    Term.Unrolls Q term term' → term.Denotes p → term'.Denotes p' →
      (p'.skippingIn skip).listing t enter = (p.skippingIn skip).listing t enter
  | .same _, hp, hp' => by rw [hp.unique hp']
  | .repeated h q, .repeated hp _, .repeated hp' _ => by
    funext pos
    rw [Pattern.skippingIn_repetition, Pattern.skippingIn_repetition, Pattern.listing,
      Pattern.listing, h.listing_eq hQ henter hp hp']
  | .group h, .group hps hp, .group hps' hp' => by
    funext pos
    rw [← Pattern.anyOf_iff.1 hp, ← Pattern.anyOf_iff.1 hp', Pattern.listing_skippingIn_anyOf,
      Pattern.listing_skippingIn_anyOf, h.listing_eq hQ henter hps hps']

theorem Term.UnrollsEach.listing_eq (hQ : ∀ term, Q term → term.ListsProper t enter skip)
    (henter : ∀ name, Within t.size (enter name)) {terms terms' : List Term}
    {ps ps' : List Pattern} :
    Term.UnrollsEach Q terms terms' → Term.DenotesEach terms ps → Term.DenotesEach terms' ps' →
      Pattern.listingAll t enter (Pattern.skippingAllIn skip ps') =
        Pattern.listingAll t enter (Pattern.skippingAllIn skip ps)
  | .nil, .nil, .nil => rfl
  | .cons h rest, .cons hp hps, .cons hp' hps' => by
    funext pos
    rw [Pattern.skippingAllIn_cons, Pattern.skippingAllIn_cons, Pattern.listingAll_cons,
      Pattern.listingAll_cons, h.listing_eq hQ henter hp hp', rest.listing_eq hQ henter hps hps']
  | .unroll h hterm rest, .cons (@Term.Denotes.repeated _ p hp _) hps,
      @Term.DenotesEach.cons _ _ p' _ hp'
        (@Term.DenotesEach.cons _ _ _ ps' (.repeated hp'' _) hps') => by
    funext pos
    cases hp'.unique hp''
    have honce : Pattern.listingAll t enter
        [p'.skippingIn skip, .repetition (p'.skippingIn skip) 0 none] pos =
          (Pattern.repetition (p.skippingIn skip) 1 none).listing t enter pos := by
      rw [Pattern.listing_onceAndFurther, h.listing_eq hQ henter hp hp', Pattern.listing_oneOrMore]
      exact Pattern.onceAndFurther_eq ((p.skippingIn skip).within_listing henter)
        (hQ _ hterm p hp pos)
    simp only [Pattern.skippingAllIn_cons, Pattern.skippingIn_repetition]
    rw [Pattern.listingAll_cons (.repetition (p.skippingIn skip) _ _),
      ← rest.listing_eq hQ henter hps hps']
    exact (Pattern.listingAll_append [_, _] (Pattern.skippingAllIn skip ps') pos).trans
      (congrArg (Listing.bind · _) honce)

theorem Alternation.Unrolls.listing_eq (hQ : ∀ term, Q term → term.ListsProper t enter skip)
    (henter : ∀ name, Within t.size (enter name)) {alternatives alternatives' : Alternation}
    {ps ps' : List Pattern} :
    Alternation.Unrolls Q alternatives alternatives' → Alternation.DenotesEach alternatives ps →
      Alternation.DenotesEach alternatives' ps' →
      Pattern.listingAny t enter (Pattern.skippingAllIn skip ps') =
        Pattern.listingAny t enter (Pattern.skippingAllIn skip ps)
  | .nil, .nil, .nil => rfl
  | .cons h rest, .cons hps hp hlater, .cons hps' hp' hlater' => by
    funext pos
    rw [Pattern.skippingAllIn_cons, Pattern.skippingAllIn_cons, Pattern.listingAny,
      Pattern.listingAny, ← Pattern.inOrder_iff.1 hp, ← Pattern.inOrder_iff.1 hp',
      Pattern.listing_skippingIn_inOrder, Pattern.listing_skippingIn_inOrder,
      h.listing_eq hQ henter hps hps', rest.listing_eq hQ henter hlater hlater']

end

end

/-! ## Rules and descriptions -/

/-- The term has no empty match, with the skips that belong to it where `skip` is skipped. -/
def Term.Proper (rules : Rules) (t : Text) (limit : Nat) (skip : Option Word) (term : Term) :
    Prop :=
  ∀ p, term.Denotes p → ∀ pos,
    ∀ m ∈ ((p.skippingIn skip).search t (rules.enter t limit) pos).listing.results, m.stop ≠ pos

/-- What has no empty match has none if rules may be entered less deeply. -/
theorem Term.Proper.listsProper {rules : Rules} {t : Text} {limit n : Nat} {skip : Option Word}
    {term : Term} (h : term.Proper rules t limit skip) (hn : n ≤ limit) :
    term.ListsProper t (rules.listing t n) skip := by
  intro p hp pos e he
  have hcut := (p.skippingIn skip).listing_cut (t := t) (rules.listing_cut t hn) pos
  have he := hcut.results.subset he
  rw [← Pattern.extents_search (rules.extents_enter t limit) (rules.within_listing t limit),
    Search.extents, Listing.results_map] at he
  obtain ⟨m, hm, rfl⟩ := List.mem_map.1 he
  exact h p hp pos m hm

variable {Q : Option Word → Term → Prop}

/-- The definition `d'` depends on nothing else than `d`, and lists the same if the terms in `Q`
    have no empty matches. -/
structure Definition.UnrollsTo (Q : Option Word → Term → Prop) (d d' : Definition) : Prop where
  /-- It depends on nothing else. -/
  reduces : d.Reduces d'
  /-- It lists the same. -/
  listing_eq : ∀ t enter, (∀ name, Within t.size (enter name)) →
    (∀ skip term, Q skip term → term.ListsProper t enter skip) →
    d'.woven.listing t enter = d.woven.listing t enter

theorem Rule.Unrolls.exists_denotes {skip : Option Word} {r r' : Rule} {d : Definition}
    (h : r.Unrolls (Q skip) r') (hd : r.Denotes skip d) :
    ∃ d', r'.Denotes skip d' ∧ d.UnrollsTo Q d' := by
  obtain ⟨name, body⟩ := r
  obtain ⟨_, body'⟩ := r'
  obtain ⟨rfl, hbody⟩ := h
  cases hd with
  | mk hps hp =>
    obtain ⟨ps', hps', hnames⟩ := hbody.exists_denotes hps
    refine ⟨_, .mk hps' (Pattern.anyOf_iff.2 rfl), ⟨rfl, fun _ h => h, ?_⟩,
      fun t enter henter hQ => ?_⟩
    · rwa [← Pattern.anyOf_iff.1 hp, Pattern.names_anyOf, Pattern.names_anyOf]
    · have hsame := (Term.Unrolls.group hbody).listing_eq (hQ skip) henter (.group hps hp)
        (.group hps' (Pattern.anyOf_iff.2 rfl))
      funext pos
      rw [Definition.listing_woven, Definition.listing_woven, Pattern.listingAll_cons,
        Pattern.listingAll_cons, hsame]

theorem Rule.exists_forall₂_denotes {skip : Option Word} {rules rules' : List Rule}
    {definitions : List Definition} (h : List.Forall₂ (Rule.Unrolls (Q skip)) rules rules')
    (hd : List.Forall₂ (Rule.Denotes skip) rules definitions) :
    ∃ definitions', List.Forall₂ (Rule.Denotes skip) rules' definitions' ∧
      List.Forall₂ (Definition.UnrollsTo Q) definitions definitions' := by
  induction h generalizing definitions with
  | nil =>
    cases hd
    exact ⟨[], .nil, .nil⟩
  | cons h _ ih =>
    cases hd with
    | cons hd hrest =>
      obtain ⟨d', hd', hunrolls⟩ := h.exists_denotes hd
      obtain ⟨later, hlater, hunrolls'⟩ := ih hrest
      exact ⟨d' :: later, .cons hd' hlater, .cons hunrolls hunrolls'⟩

theorem Description.Unrolls.exists_denotes {d d' : Description} {definitions : List Definition}
    (h : d.Unrolls Q d') (hd : d.Denotes definitions) :
    ∃ definitions', d'.Denotes definitions' ∧
      List.Forall₂ (Definition.UnrollsTo Q) definitions definitions' := by
  induction h generalizing definitions with
  | nil =>
    cases hd
    exact ⟨[], .nil, .nil⟩
  | cons h _ ih =>
    cases h with
    | rule h =>
      cases hd with
      | rule hd hrest =>
        obtain ⟨e, he, hunrolls⟩ := h.exists_denotes hd
        obtain ⟨later, hlater, hunrolls'⟩ := ih hrest
        exact ⟨e :: later, .rule he hlater, .cons hunrolls hunrolls'⟩
    | block name h =>
      cases hd with
      | block hd hrest =>
        obtain ⟨inner, hinner, hunrolls⟩ := Rule.exists_forall₂_denotes h hd
        obtain ⟨later, hlater, hunrolls'⟩ := ih hrest
        exact ⟨inner ++ later, .block hinner hlater, List.rel_append hunrolls hunrolls'⟩

namespace Grammar

variable {w w' : Word} {root : Option RootChoice} {g : Grammar} {d d' : Description}

/-- A grammar parses alike if repetitions of terms without empty matches are written out. -/
theorem exists_compile_unrolled (hg : compile w root = .ok g) (hw : d.SpelledBy w)
    (hw' : d'.SpelledBy w') (h : d.Unrolls Q d') :
    ∃ g', compile w' root = .ok g' ∧ ∀ limit t,
      (∀ skip term, Q skip term → term.Proper g.rules t limit skip) →
      g'.parse limit t = g.parse limit t := by
  obtain ⟨_, definitions, hmeans, -, hrules, -⟩ := exists_means_of_compile hg
  obtain ⟨definitions', hdenotes', hunrolls⟩ := h.exists_denotes (hw.means_iff.1 hmeans)
  refine ⟨_, compile_of_forall₂ hg hmeans (hw'.means_iff.2 hdenotes')
    (hunrolls.imp fun _ _ h => h.reduces), fun limit t hQ => parse_rulesOf hrules ?_⟩
  exact hunrolls.imp fun _ _ h => ⟨h.reduces.name_eq, fun n hn =>
    h.listing_eq t _ (g.rules.within_listing t n)
      fun skip term hterm => (hQ skip term hterm).listsProper hn.le⟩

/-- The search for an item with any number of repetitions after it stops where the one for one
    repetition at least does, and at the offset itself if the item matches nothing there. So both
    stop at the same offsets if the item does not, or if they break off. That is so under any two
    limits, and they break off alike, unless one of them is too deep.

    So if repetitions `e+` are written out as `e e*` in a description, of terms without empty
    matches in a text, then the text is parsed or refused as before, unless it is too deep. -/
theorem parse_unrolled (rules : Rules) (t : Text) (limit : Nat) (item : Pattern) (pos : Nat) :
    let search limit p := (Pattern.search t (rules.enter t limit) p pos).listing
    let plus := search limit (.repetition item 1 none)
    let unrolled limit := search limit (.concat [item, .repetition item 0 none])
    (∀ limit', plus.halt? ≠ some .tooDeep → (unrolled limit').halt? ≠ some .tooDeep →
      (unrolled limit').halt? = plus.halt? ∧
      ∀ stop, (∃ m ∈ (unrolled limit').results, m.stop = stop) ↔
        (∃ m ∈ plus.results, m.stop = stop) ∨
          stop = pos ∧ (∃ m ∈ (search limit item).results, m.stop = pos) ∧ plus.halt? = none) ∧
    (∀ stop, (∃ m ∈ (unrolled limit).results, m.stop = stop) ↔
      (∃ m ∈ plus.results, m.stop = stop) ∨
        stop = pos ∧ (∃ m ∈ (search limit item).results, m.stop = pos) ∧ plus.halt? = none) ∧
    ((∀ stop, (∃ m ∈ (unrolled limit).results, m.stop = stop) ↔ ∃ m ∈ plus.results, m.stop = stop) ↔
      ¬((∃ m ∈ (search limit item).results, m.stop = pos) ∧ plus.halt? = none)) ∧
    ∀ (Q : Option Word → Term → Prop) (d d' : Description) (w w' : Word)
      (root : Option RootChoice) (g : Grammar), compile w root = .ok g → d.SpelledBy w →
      d'.SpelledBy w' → d.Unrolls Q d' →
      ∃ g', compile w' root = .ok g' ∧ ∀ limit limit' t,
        (∀ skip term, Q skip term → term.Proper g.rules t limit skip) →
        (∀ furthest, g.parse limit t ≠ .error (.halted .tooDeep furthest)) →
        (∀ furthest, g'.parse limit' t ≠ .error (.halted .tooDeep furthest)) →
        g'.parse limit' t = g.parse limit t := by
  intro search plus unrolled
  have hsearch (limit : Nat) (p : Pattern) :
      (search limit p).map Match.extent = p.listing t (rules.listing t limit) pos :=
    p.extents_search (rules.extents_enter t limit) (rules.within_listing t limit) pos
  have hstops (limit : Nat) (p : Pattern) (stop : Nat) :
      (∃ m ∈ (search limit p).results, m.stop = stop) ↔
        (p.listing t (rules.listing t limit) pos).StopsAt stop := by
    simp [← hsearch, Listing.StopsAt]
  have hhalt (limit : Nat) (p : Pattern) : (search limit p).halt? =
      (p.listing t (rules.listing t limit) pos).halt? := by
    rw [← hsearch, Listing.halt?_map]
  have hwithin := item.within_listing (rules.within_listing t limit)
  have honce := @Pattern.stopsAt_onceAndFurther t.size pos _ hwithin
  rw [← Pattern.listing_oneOrMore, ← Pattern.listing_onceAndFurther, ← Pattern.listing_concat]
    at honce
  have hsame : (unrolled limit).halt? = plus.halt? := by
    rw [hhalt, hhalt]
    exact (honce pos).1
  have hunrolled (stop : Nat) : (∃ m ∈ (unrolled limit).results, m.stop = stop) ↔
      (∃ m ∈ plus.results, m.stop = stop) ∨
        stop = pos ∧ (∃ m ∈ (search limit item).results, m.stop = pos) ∧ plus.halt? = none := by
    rw [hstops, hstops, hstops, hhalt]
    exact (honce stop).2
  have hplus : ¬∃ m ∈ plus.results, m.stop = pos := by
    rw [hstops, Pattern.listing_oneOrMore]
    exact fun h => Nat.lt_irrefl pos (Pattern.lt_of_stopsAt_further h)
  refine ⟨fun limit' hdeep hdeep' => ?_, hunrolled, ⟨fun h hitem => ?_, fun h stop => ?_⟩,
    fun Q d d' w w' root g hg hw hw' h => ?_⟩
  · -- Written out under the one limit, it breaks off as it does not; so it lists the same under
    -- the other one.
    have hlisting := Rules.listing_eq_of_halt? (by rwa [← hhalt, hsame]) (by rwa [← hhalt])
    refine ⟨by rw [hhalt, hlisting, ← hhalt, hsame], fun stop => ?_⟩
    rw [hstops limit', hlisting, ← hstops]
    exact hunrolled stop
  · exact hplus ((h pos).1 ((hunrolled pos).2 (.inr ⟨rfl, hitem⟩)))
  · rw [hunrolled]
    exact or_iff_left fun h' => h h'.2
  · obtain ⟨g', hg', hparse⟩ := exists_compile_unrolled hg hw hw' h
    exact ⟨g', hg', fun limit limit' t hQ hdeep hdeep' =>
      parse_eq_of_not_tooDeep (hparse limit t hQ) hdeep hdeep'⟩

/-- The description `a ::= 'x'+;`. -/
def repeatedLiteral : Description := [.rule ⟨['a'], [[.repeated (.literal ['x']) .some]]⟩]

/-- The description `a ::= 'x' 'x'*;`. -/
def unrolledLiteral : Description :=
  [.rule ⟨['a'], [[.literal ['x'], .repeated (.literal ['x']) .any]]⟩]

/-- The grammar of `a ::= 'x'+;`. -/
def repeatedLetter : Grammar := ⟨[(['a'], .repetition (.literal ['x']) 1 none)], ['a']⟩

/-- A literal with a character in it has no empty match, so it may be written out. -/
theorem parse_unrolledLiteral :
    compile "a ::= 'x'+;".toList none = .ok repeatedLetter ∧
    (repeatedLetter.parse 2 #['x', 'x']).isOk ∧
    ∃ g', compile "a ::= 'x' 'x'*;".toList none = .ok g' ∧
      ∀ limit limit' t,
        (∀ furthest, repeatedLetter.parse limit t ≠ .error (.halted .tooDeep furthest)) →
        (∀ furthest, g'.parse limit' t ≠ .error (.halted .tooDeep furthest)) →
        g'.parse limit' t = repeatedLetter.parse limit t := by
  have hcompile : compile "a ::= 'x'+;".toList none = .ok repeatedLetter := rfl
  have hspelled : repeatedLiteral.SpelledBy "a ::= 'x'+;".toList := Description.spelledBy_iff.2 rfl
  have hspelled' : unrolledLiteral.SpelledBy "a ::= 'x' 'x'*;".toList :=
    Description.spelledBy_iff.2 rfl
  obtain ⟨-, -, -, hunrolled⟩ :=
    parse_unrolled repeatedLetter.rules #['x', 'x'] 2 (.literal ['x']) 0
  obtain ⟨g', hg', hparse⟩ := hunrolled (fun skip term => skip = none ∧ term = .literal ['x'])
    _ _ _ _ _ _ hcompile hspelled hspelled'
    (.cons (.rule ⟨rfl, .cons (.unroll (.same _) ⟨rfl, rfl⟩ .nil) .nil⟩) .nil)
  refine ⟨hcompile, by decide, g', hg', fun limit limit' t => hparse limit limit' t ?_⟩
  rintro _ _ ⟨rfl, rfl⟩ p hp pos m hm
  cases hp.toPattern_eq
  change m ∈ ((Pattern.literal ['x']).search t _ pos).listing.results at hm
  rw [Pattern.search] at hm
  split at hm
  · rw [List.mem_singleton.1 hm]
    exact Nat.succ_ne_self pos
  · cases hm

/-- The grammar of `root ::= ('a'?)+;`. -/
def repeatedOption : Grammar :=
  ⟨[("root".toList, .repetition (.repetition (.literal ['a']) 0 (some 1)) 1 none)], "root".toList⟩

/-- The grammar of `root ::= ('a'?) ('a'?)*;`. -/
def unrolledOption : Grammar :=
  ⟨[("root".toList, .sequence [.repetition (.literal ['a']) 0 (some 1),
    .repetition (.repetition (.literal ['a']) 0 (some 1)) 0 none])], "root".toList⟩

/-- An option that is repeated once at least does not match nothing, although the option does. -/
theorem parse_repeatedOption :
    compile "root ::= ('a'?)+;".toList none = .ok repeatedOption ∧
    compile "root ::= ('a'?) ('a'?)*;".toList none = .ok unrolledOption ∧
    repeatedOption.parse 500 #[] = .error (.unmatched 0) ∧
    unrolledOption.parse 500 #[] = .ok ⟨"root".toList, #[], 0, 0, []⟩ :=
  ⟨rfl, rfl, rfl, rfl⟩

end Grammar

end Descent
