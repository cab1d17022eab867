import Descent.Proofs.Description.Beginning
import Descent.Proofs.Description.Blocks
import Descent.Proofs.Silence

/-!
# What a block does to its rules

The pattern of a rule in a block is the one that is written, with skips in it: one immediately
before each literal, class and reference, however deep inside (`Pattern.SkipsBefore`), and one at
the end. Without them, and with sequences of one item inlined, it is the pattern that is written
(`Pattern.unskipped`), as that one has no sequences but of two or more items, and none of these
right inside of another one (`Pattern.Flat`).

A text in which the skips pass over nothing is therefore parsed as if the rules stood outside of
blocks (`Grammar.parse_unblocked`).
-/

namespace Descent

namespace Pattern

variable {name : Word} {p : Pattern} {ps qs : List Pattern}

/-! ## Where skips stand -/

/-- A literal, a class or a reference. -/
def isElement : Pattern → Bool
  | .literal _ | .charClass _ | .reference _ => true
  | .sequence _ | .choice _ | .repetition _ _ _ | .skip _ => false

/-- Among the items of a sequence and inside of them, a skip of the rule stands immediately before
    every literal, class and reference, and nowhere else. -/
inductive SkipsBefore (name : Word) : (items : List Pattern) → Prop
  | nil : SkipsBefore name []
  | element {p : Pattern} {items : List Pattern} (hp : p.isElement)
    (rest : SkipsBefore name items) : SkipsBefore name (.skip name :: p :: items)
  | choice {alternatives items : List Pattern} (h : ∀ p ∈ alternatives, SkipsBefore name p.items)
    (rest : SkipsBefore name items) : SkipsBefore name (.choice alternatives :: items)
  | repetition {item : Pattern} {minimum : Int} {maximum : Option Int} {items : List Pattern}
    (h : SkipsBefore name item.items) (rest : SkipsBefore name items) :
    SkipsBefore name (.repetition item minimum maximum :: items)

theorem SkipsBefore.append (hps : SkipsBefore name ps) (hqs : SkipsBefore name qs) :
    SkipsBefore name (ps ++ qs) := by
  induction hps with
  | nil => exact hqs
  | element hp _ ih => exact .element hp ih
  | choice h _ _ ih => exact .choice h ih
  | repetition h _ _ ih => exact .repetition h ih

/-! ## Skips taken away -/

/-- Items one after the other, a single one itself. -/
def ofItems : (items : List Pattern) → Pattern
  | [p] => p
  | items => .sequence items

mutual

/-- The pattern without its skips, and with sequences of one item inlined. -/
def unskipped : Pattern → Pattern
  | .sequence items => ofItems (unskippedAll items)
  | .choice alternatives => .choice (unskippedAll alternatives)
  | .repetition item minimum maximum => .repetition item.unskipped minimum maximum
  | p => p

/-- The patterns without their skips, those that are skips left out. -/
def unskippedAll : List Pattern → List Pattern
  | [] => []
  | .skip _ :: ps => unskippedAll ps
  | p :: ps => p.unskipped :: unskippedAll ps

end

theorem unskippedAll_cons (hp : ∀ name, p ≠ .skip name) :
    unskippedAll (p :: ps) = p.unskipped :: unskippedAll ps := by
  cases p with
  | skip name => exact absurd rfl (hp name)
  | _ => rfl

theorem unskippedAll_append (ps qs : List Pattern) :
    unskippedAll (ps ++ qs) = unskippedAll ps ++ unskippedAll qs := by
  induction ps with
  | nil => rfl
  | cons p ps ih =>
    by_cases hp : ∃ name, p = .skip name
    · obtain ⟨name, rfl⟩ := hp
      exact ih
    · rw [List.cons_append, unskippedAll_cons (not_exists.1 hp),
        unskippedAll_cons (not_exists.1 hp), ih, List.cons_append]

/-- Without its skips, a pattern is put together from its items without theirs. -/
theorem unskipped_eq (hp : ∀ name, p ≠ .skip name) :
    p.unskipped = ofItems (unskippedAll p.items) := by
  cases p with
  | skip name => exact absurd rfl (hp name)
  | sequence => rfl
  | _ => rfl

/-! ## Patterns as they are written -/

/-- There are no skips in the pattern, and its sequences have two items at least, none of which is a
    sequence. -/
inductive Flat : (p : Pattern) → Prop
  | element {p : Pattern} (hp : p.isElement) : Flat p
  | sequence {items : List Pattern} (hlength : 2 ≤ items.length) (h : ∀ p ∈ items, Flat p)
    (hitems : ∀ p ∈ items, ∀ inner, p ≠ .sequence inner) : Flat (.sequence items)
  | choice {alternatives : List Pattern} (h : ∀ p ∈ alternatives, Flat p) :
    Flat (.choice alternatives)
  | repetition {item : Pattern} {minimum : Int} {maximum : Option Int} (h : Flat item) :
    Flat (.repetition item minimum maximum)

theorem items_eq_singleton (hp : ∀ inner, p ≠ .sequence inner) : p.items = [p] := by
  cases p with
  | sequence inner => exact absurd rfl (hp inner)
  | _ => rfl

theorem flatMap_items (h : ∀ p ∈ ps, ∀ inner, p ≠ .sequence inner) : ps.flatMap items = ps := by
  induction ps with
  | nil => rfl
  | cons p ps ih =>
    obtain ⟨hp, hps⟩ := List.forall_mem_cons.1 h
    rw [List.flatMap_cons, items_eq_singleton hp, ih hps]
    rfl

theorem ofItems_of_length {items : List Pattern} (h : 2 ≤ items.length) :
    ofItems items = .sequence items := by
  match items, h with
  | _ :: _ :: _, _ => rfl

namespace Flat

theorem ne_skip (h : p.Flat) (name : Word) : p ≠ .skip name := by
  rintro rfl
  cases h with
  | element hp => cases hp

/-- A flat pattern is a sequence of two items at least, or is its only item. -/
theorem sequence_or_single (h : p.Flat) : (p = .sequence p.items ∧ 2 ≤ p.items.length ∧
      ∀ q ∈ p.items, q.Flat ∧ ∀ inner, q ≠ .sequence inner) ∨
    p.items = [p] ∧ ∀ inner, p ≠ .sequence inner := by
  by_cases hp : ∃ inner, p = .sequence inner
  · obtain ⟨inner, rfl⟩ := hp
    cases h with
    | element hp => cases hp
    | sequence hlength h hitems => exact .inl ⟨rfl, hlength, fun q hq => ⟨h q hq, hitems q hq⟩⟩
  · exact .inr ⟨items_eq_singleton (not_exists.1 hp), not_exists.1 hp⟩

theorem ofItems_items (h : p.Flat) : ofItems p.items = p := by
  obtain ⟨hp, hlength, -⟩ | ⟨hitems, -⟩ := h.sequence_or_single
  · exact (ofItems_of_length hlength).trans hp.symm
  · rw [hitems, ofItems]

theorem of_mem_items (h : p.Flat) {q : Pattern} (hq : q ∈ p.items) :
    q.Flat ∧ ∀ inner, q ≠ .sequence inner := by
  obtain ⟨-, -, hall⟩ | ⟨hitems, hp⟩ := h.sequence_or_single
  · exact hall q hq
  · rw [hitems, List.mem_singleton] at hq
    exact hq ▸ ⟨h, hp⟩

theorem length_items_pos (h : p.Flat) : 0 < p.items.length := by
  obtain ⟨-, hlength, -⟩ | ⟨hitems, -⟩ := h.sequence_or_single
  · exact Nat.zero_lt_of_lt hlength
  · rw [hitems]
    exact Nat.one_pos

end Flat

/-- Flat patterns one after the other are flat. -/
theorem InOrder.flat (h : InOrder ps p) (hps : ∀ q ∈ ps, q.Flat) (hne : ps ≠ []) : p.Flat := by
  cases h with
  | single => exact hps p (List.mem_singleton_self p)
  | sequence hlength hitems =>
    rw [← splices_iff.1 hitems]
    have hall : ∀ q ∈ ps.flatMap items, q.Flat ∧ ∀ inner, q ≠ .sequence inner := by
      intro q hq
      obtain ⟨r, hr, hq⟩ := List.mem_flatMap.1 hq
      exact (hps r hr).of_mem_items hq
    refine .sequence ?_ (fun q hq => (hall q hq).1) (fun q hq => (hall q hq).2)
    match ps, hne, hlength with
    | q :: r :: ps, _, _ =>
      have hq := (hps q List.mem_cons_self).length_items_pos
      have hr := (hps r (List.mem_cons_of_mem _ List.mem_cons_self)).length_items_pos
      rw [List.flatMap_cons, List.flatMap_cons, List.length_append, List.length_append]
      omega

theorem AnyOf.flat (h : AnyOf ps p) (hps : ∀ q ∈ ps, q.Flat) : p.Flat := by
  cases h with
  | single => exact hps p (List.mem_singleton_self p)
  | choice => exact .choice hps

/-! ## Skips woven in -/

theorem mem_skippingAll {q : Pattern} (hq : q ∈ skippingAll name ps) :
    ∃ p ∈ ps, p.skipping name = q := by
  induction ps with
  | nil => cases hq
  | cons p ps ih =>
    obtain rfl | hq := List.mem_cons.1 hq
    · exact ⟨p, List.mem_cons_self, rfl⟩
    · obtain ⟨p', hp', rfl⟩ := ih hq
      exact ⟨p', List.mem_cons_of_mem _ hp', rfl⟩

theorem skipsBefore_skippingAll (h : ∀ p ∈ ps, SkipsBefore name (p.skipping name).items) :
    SkipsBefore name ((skippingAll name ps).flatMap items) := by
  induction ps with
  | nil => exact .nil
  | cons p ps ih =>
    obtain ⟨hp, hps⟩ := List.forall_mem_cons.1 h
    exact hp.append (ih hps)

/-- Skips are brought in before literals, classes and references. -/
theorem Flat.skipsBefore_skipping (h : p.Flat) : SkipsBefore name (p.skipping name).items := by
  induction h with
  | @element p hp =>
    cases p with
    | literal | charClass | reference => exact .element rfl .nil
    | sequence | choice | repetition | skip => cases hp
  | sequence _ _ _ ih => exact skipsBefore_skippingAll ih
  | choice _ ih =>
    refine .choice (fun q hq => ?_) .nil
    obtain ⟨p, hp, rfl⟩ := mem_skippingAll hq
    exact ih p hp
  | repetition _ ih => exact .repetition ih .nil

theorem skipping_ne_skip (h : p.Flat) (user : Word) : p.skipping name ≠ .skip user := by
  cases p with
  | skip => exact absurd rfl (h.ne_skip _)
  | _ => nofun

theorem unskipped_skipping_of (h : p.Flat)
    (hitems : unskippedAll (p.skipping name).items = p.items) :
    (p.skipping name).unskipped = p := by
  rw [unskipped_eq (skipping_ne_skip h), hitems, h.ofItems_items]

theorem unskippedAll_skippingAll (h : ∀ p ∈ ps, p.Flat)
    (hitems : ∀ p ∈ ps, unskippedAll (p.skipping name).items = p.items) :
    unskippedAll (skippingAll name ps) = ps := by
  induction ps with
  | nil => rfl
  | cons p ps ih =>
    obtain ⟨hp, hps⟩ := List.forall_mem_cons.1 h
    obtain ⟨hitem, hitems⟩ := List.forall_mem_cons.1 hitems
    rw [skippingAll, unskippedAll_cons (skipping_ne_skip hp), unskipped_skipping_of hp hitem,
      ih hps hitems]

theorem unskippedAll_flatMap_skippingAll
    (hitems : ∀ p ∈ ps, unskippedAll (p.skipping name).items = p.items) :
    unskippedAll ((skippingAll name ps).flatMap items) = ps.flatMap items := by
  induction ps with
  | nil => rfl
  | cons p ps ih =>
    obtain ⟨hitem, hitems⟩ := List.forall_mem_cons.1 hitems
    rw [skippingAll, List.flatMap_cons, List.flatMap_cons, unskippedAll_append, hitem, ih hitems]

/-- Nothing else is brought in. -/
theorem Flat.unskippedAll_skipping (h : p.Flat) :
    unskippedAll (p.skipping name).items = p.items := by
  induction h with
  | @element p hp =>
    cases p with
    | literal | charClass | reference => rfl
    | sequence | choice | repetition | skip => cases hp
  | @sequence ps _ _ hflat ih =>
    exact (unskippedAll_flatMap_skippingAll ih).trans (flatMap_items hflat)
  | @choice ps h ih =>
    change [Pattern.choice (unskippedAll (skippingAll name ps))] = [.choice ps]
    rw [unskippedAll_skippingAll h ih]
  | @repetition item minimum maximum h ih =>
    change [Pattern.repetition (item.skipping name).unskipped minimum maximum] =
      [.repetition item minimum maximum]
    rw [unskipped_skipping_of h ih]

end Pattern

/-! ## Rules as they are written -/

mutual

theorem IsAtom.flat {tokens : List Token} {term : Term} {p : Pattern} :
    IsAtom tokens term → term.Denotes p → p.Flat
  | .reference _, .reference _ | .literal _, .literal _ | .charClass _, .charClass _ => .element rfl
  | .group h, .group hps hp => hp.flat (h.flat hps)

theorem IsTerm.flat {tokens : List Token} {term : Term} {p : Pattern} :
    IsTerm tokens term → term.Denotes p → p.Flat
  | .once h, hp => h.flat hp
  | .repeated h _, .repeated hp _ => .repetition (h.flat hp)

theorem IsConcatenation.flat {tokens : List Token} {terms : List Term} {ps : List Pattern} :
    IsConcatenation tokens terms → Term.DenotesEach terms ps → (∀ p ∈ ps, p.Flat) ∧ ps ≠ []
  | .last h, .cons hp .nil => ⟨List.forall_mem_singleton.2 (h.flat hp), List.cons_ne_nil _ _⟩
  | .cons h rest, .cons hp hps =>
    ⟨List.forall_mem_cons.2 ⟨h.flat hp, (rest.flat hps).1⟩, List.cons_ne_nil _ _⟩

theorem IsAlternation.flat {tokens : List Token} {alternatives : Alternation} {ps : List Pattern} :
    IsAlternation tokens alternatives → Alternation.DenotesEach alternatives ps → ∀ p ∈ ps, p.Flat
  | .last h, .cons hps hp .nil =>
    List.forall_mem_singleton.2 (hp.flat (h.flat hps).1 (h.flat hps).2)
  | .cons h rest, .cons hps hp hlater =>
    List.forall_mem_cons.2 ⟨hp.flat (h.flat hps).1 (h.flat hps).2, rest.flat hlater⟩

end

theorem IsRule.flat {tokens : List Token} {r : Rule} {skip : Option Word} {e : Definition}
    (h : IsRule tokens r) (he : r.Denotes skip e) : e.pattern.Flat := by
  cases h with
  | mk name h =>
    cases he with
    | mk hps hp => exact hp.flat (h.flat hps)

/-- The pattern of a rule in a block of a text is flat. -/
theorem Description.SpelledBy.flat {d : Description} {w : Word} (hw : d.SpelledBy w) {name : Word}
    {rules : List Rule} (hblock : .block name rules ∈ d) {r : Rule} (hr : r ∈ rules)
    {e : Definition} (he : r.Denotes (some name) e) : e.pattern.Flat := by
  obtain ⟨tokens, -, hd⟩ := hw
  obtain ⟨inner, -, hinner⟩ := Each.exists_of_mem hd hblock
  cases hinner with
  | block _ hrules =>
    obtain ⟨_, -, hrule⟩ := Each.exists_of_mem hrules hr
    exact hrule.flat he

namespace Definition

/-- The definition as it would be outside of blocks. -/
def plain (e : Definition) : Definition := { e with skip := none }

theorem plain_reduces (e : Definition) : e.Reduces e.plain where
  name_eq := rfl
  skip_eq := nofun
  names_subset := List.Subset.refl _

/-- Skips are woven into a flat pattern before its literals, classes and references and at its end,
    and it is what remains without them. -/
theorem exists_woven_eq {e : Definition} (h : e.pattern.Flat) {name : Word}
    (hskip : e.skip = some name) :
    ∃ items, e.woven = .sequence (items ++ [.skip name]) ∧ Pattern.SkipsBefore name items ∧
      e.woven.unskipped = e.pattern := by
  have hwoven : e.woven = .sequence ((e.pattern.skipping name).items ++ [.skip name]) := by
    rw [woven, hskip]
    rfl
  refine ⟨_, hwoven, h.skipsBefore_skipping, ?_⟩
  rw [hwoven, Pattern.unskipped, Pattern.unskippedAll_append, h.unskippedAll_skipping]
  exact (congrArg Pattern.ofItems (List.append_nil _)).trans h.ofItems_items

end Definition

/-! ## Descriptions without blocks -/

/-- The rules of an item, outside of blocks. -/
def Item.unblocked : Item → List Item
  | .rule r => [.rule r]
  | .block _ rules => rules.map .rule

theorem Rule.Denotes.plain {skip : Option Word} {r : Rule} {e : Definition} (h : r.Denotes skip e) :
    r.Denotes none e.plain := by
  cases h with
  | mk h hp => exact .mk h hp

namespace Description

variable {d : Description} {w : Word} {definitions : List Definition}

/-- The description with the rules of its blocks outside of them. -/
def unblocked (d : Description) : Description := d.flatMap Item.unblocked

theorem Denotes.append_rules {rules : List Rule} {inner : List Definition}
    (hrules : List.Forall₂ (Rule.Denotes none) rules inner) (h : d.Denotes definitions) :
    Denotes (rules.map .rule ++ d) (inner ++ definitions) := by
  induction hrules with
  | nil => exact h
  | cons hr _ ih => exact .rule hr ih

theorem Denotes.unblocked (h : d.Denotes definitions) :
    d.unblocked.Denotes (definitions.map Definition.plain) := by
  induction h with
  | nil => exact .nil
  | rule hr _ ih => exact .rule hr.plain ih
  | block hrules _ ih =>
    rw [List.map_append]
    refine ih.append_rules (List.forall₂_map_right_iff.2 ?_)
    exact hrules.imp fun _ _ hr => hr.plain

/-- The rules of a block have the same tokens outside of it. -/
theorem exists_tokens_unblocked {tokens : List Token} (h : IsDescription tokens d) :
    ∃ later, later ⊆ tokens ∧ IsDescription later d.unblocked := by
  induction h with
  | nil => exact ⟨[], List.Subset.refl _, .nil⟩
  | @cons tokens _ item _ h _ ih =>
    have hitem : ∃ inner ⊆ tokens, Each IsItem inner item.unblocked := by
      cases h with
      | rule hr => exact ⟨_, List.Subset.refl _, .single (.rule hr)⟩
      | @block inner rules name hrules =>
        refine ⟨inner, fun token htoken => by simp [htoken], ?_⟩
        clear ih
        induction hrules with
        | nil => exact .nil
        | cons hr _ ih => exact .cons (.rule hr) ih
    obtain ⟨inner, hsubset, hinner⟩ := hitem
    obtain ⟨later, hsubset', hlater⟩ := ih
    exact ⟨inner ++ later, List.append_subset.2 ⟨List.subset_append_of_subset_left _ hsubset,
      List.subset_append_of_subset_right _ hsubset'⟩, hinner.append hlater⟩

theorem SpelledBy.exists_unblocked (h : d.SpelledBy w) : ∃ w', d.unblocked.SpelledBy w' := by
  obtain ⟨tokens, hspells, hd⟩ := h
  obtain ⟨later, hsubset, hlater⟩ := exists_tokens_unblocked hd
  obtain ⟨w', hw'⟩ := Token.exists_spells (fun token h => hspells.spellable token (hsubset h)) false
  exact ⟨w', later, hw', hlater⟩

end Description

/-! ## Parsing -/

namespace Grammar

variable {w : Word} {root : Option RootChoice} {g : Grammar} {d : Description}

/-- The rules of a grammar track those that are written, where the skips pass over nothing. -/
theorem tracks_listing_plain {definitions : List Definition} (hg : compile w root = .ok g)
    (hw : Definition.Means w definitions) {limit : Nat} {t : Text}
    (hskip : ∀ e ∈ definitions, ∀ name ∈ e.skip, ∀ pos ≤ t.size,
      ∀ m ∈ (g.rules.enter t limit name pos).listing.results, m.stop = pos)
    (name : Word) (pos : Nat) :
    Tracks (g.rules.listing t limit name pos)
      ((rulesOf (definitions.map Definition.plain)).listing t limit name pos) := by
  have hclosed := (closed_of_compile hg).1
  obtain ⟨hconsistent, hrules, -⟩ := (compile_eq_ok_iff hw).1 hg
  refine Rules.tracks_listing ?_ (Nat.le_refl limit) name pos
  rw [Rules.Correspond, hrules, rulesOf, rulesOf, List.map_map, List.forall₂_map_left_iff,
    List.forall₂_map_right_iff, List.forall₂_same]
  refine fun e he => ⟨rfl, fun n hn enter henter pos => ?_⟩
  rw [← rulesOf, ← hrules] at henter ⊢
  refine Definition.tracks_woven henter e (fun name hname => ?_) pos
  refine hclosed.silent hn.le ?_ (hskip e he name hname)
  rw [hrules, isSome_lookup_rulesOf]
  exact hconsistent.defined e he name (.inr hname)

/-- A rule in a block has the pattern that is written, with a skip immediately before each literal,
    class and reference and one at the end, and nothing else. With the blocks taken away, the
    description gives another grammar. If nothing but the empty word is matched at any offset of a
    text by the rules that blocks name, that one gives the same tree for the text, or refuses it as
    unmatched, too, unless the text is too deep for the first one. -/
theorem parse_unblocked (hg : compile w root = .ok g) (hw : d.SpelledBy w) :
    (∀ name rules, .block name rules ∈ d → ∀ r ∈ rules, ∃ p items,
      r.Denotes (some name) ⟨r.name, p, some name⟩ ∧
      g.rules.lookup r.name = some (.sequence (items ++ [.skip name])) ∧
      Pattern.SkipsBefore name items ∧
      (Pattern.sequence (items ++ [.skip name])).unskipped = p) ∧
    (∃ w', d.unblocked.SpelledBy w') ∧
    ∀ w', d.unblocked.SpelledBy w' → ∃ g', compile w' root = .ok g' ∧ ∀ limit t,
      (∀ name rules, .block name rules ∈ d → ∀ pos ≤ t.size,
        ∀ m ∈ (g.rules.enter t limit name pos).listing.results, m.stop = pos) →
      (∀ tree, g.parse limit t = .ok tree → g'.parse limit t = .ok tree) ∧
      (∀ furthest, g.parse limit t = .error (.unmatched furthest) →
        ∃ furthest', g'.parse limit t = .error (.unmatched furthest')) ∧
      ∀ cause furthest, g.parse limit t = .error (.halted cause furthest) → cause = .tooDeep := by
  obtain ⟨_, definitions, hmeans, -⟩ := exists_means_of_compile hg
  have hdenotes := hw.means_iff.1 hmeans
  refine ⟨fun name rules hblock r hr => ?_, hw.exists_unblocked, fun w' hw' => ?_⟩
  · obtain ⟨e, he, her⟩ := hdenotes.exists_of_block hblock hr
    obtain ⟨hname, hskip⟩ := her.name_skip
    obtain ⟨items, hwoven, hitems, hpattern⟩ :=
      Definition.exists_woven_eq (hw.flat hblock hr her) hskip
    have heta : (⟨r.name, e.pattern, some name⟩ : Definition) = e := by rw [← hname, ← hskip]
    exact ⟨e.pattern, items, heta ▸ her, (lookup_eq_some_iff hg hmeans).2 ⟨e, he, hname, hwoven⟩,
      hitems, hwoven ▸ hpattern⟩
  · have hg' := compile_of_forall₂ hg hmeans (hw'.means_iff.2 hdenotes.unblocked)
      (List.forall₂_map_right_iff.2 (List.forall₂_same.2 fun e _ => e.plain_reduces))
    refine ⟨_, hg', fun limit t hempty => ?_⟩
    have htracks := tracks_listing_plain hg hmeans (fun e he name hname =>
      have ⟨rules, hblock⟩ := hdenotes.exists_of_skip_eq_some he hname
      hempty name rules hblock) g.root 0
    obtain ⟨hclosed, hroot⟩ := closed_of_compile hg
    exact ⟨fun tree => parse_eq_ok_of_tracks (by rfl) htracks,
      fun furthest => parse_eq_unmatched_of_tracks (by rfl) htracks,
      fun cause furthest => tooDeep_of_parse hclosed hroot⟩

/-- The description `@skip ws { a ::= 'x' a?; } ws ::= ' ';`. -/
def nested : Description :=
  [.block ['w', 's'] [⟨['a'], [[.literal ['x'], .repeated (.reference ['a']) .optional]]⟩],
    .rule ⟨['w', 's'], [[.literal [' ']]]⟩]

/-- The grammar of `@skip ws { a ::= 'x' a?; } ws ::= ' ';`. -/
def nestedSkips : Grammar :=
  ⟨[(['a'], .sequence [.skip ['w', 's'], .literal ['x'],
      .repetition (.sequence [.skip ['w', 's'], .reference ['a']]) 0 (some 1), .skip ['w', 's']]),
    (['w', 's'], .literal [' '])], ['a']⟩

/-- In a text without spaces, it makes no difference that spaces are skipped. -/
theorem parse_unblocked_nested :
    compile "@skip ws \x7b a ::= 'x' a?; \x7d ws ::= ' ';".toList none = .ok nestedSkips ∧
    let tree : Tree := ⟨['a'], #['x', 'x'], 0, 2, [⟨['a'], #['x', 'x'], 1, 2, []⟩]⟩
    nestedSkips.parse 4 #['x', 'x'] = .ok tree ∧
    ∃ g', compile "a ::= 'x' a?; ws ::= ' ';".toList none = .ok g' ∧
      g'.parse 4 #['x', 'x'] = .ok tree := by
  have hcompile : compile "@skip ws \x7b a ::= 'x' a?; \x7d ws ::= ' ';".toList none =
      .ok nestedSkips := rfl
  have htree : nestedSkips.parse 4 #['x', 'x'] =
      .ok ⟨['a'], #['x', 'x'], 0, 2, [⟨['a'], #['x', 'x'], 1, 2, []⟩]⟩ := rfl
  have hunblocked : nested.unblocked.SpelledBy "a ::= 'x' a?; ws ::= ' ';".toList :=
    Description.spelledBy_iff.2 rfl
  obtain ⟨-, -, hall⟩ := parse_unblocked hcompile
    (Description.spelledBy_iff.2 (rfl : Description.parse _ = .ok nested))
  obtain ⟨g', hg', hparse⟩ := hall _ hunblocked
  refine ⟨hcompile, htree, g', hg', (hparse 4 _ fun name rules hblock => ?_).1 _ htree⟩
  obtain hblock | hblock := List.mem_cons.1 hblock
  · cases hblock
    decide
  · cases List.mem_singleton.1 hblock

end Grammar

end Descent
