import Descent.Proofs.Limit

/-!
# Derivations

What it means that a pattern derives a part of a text, regardless of any search
(`Derives`): a choice derives what one of its alternatives does, a sequence what its items
do one after the other, a repetition what its item does a number of times, and a reference
what its rule does, as one node. Only a skip refers to the order of matches, as it goes to
the end of the first one (`SkipsTo`).

The search is sound and complete for derivations. Every match that is listed is a
derivation (`Rules.derives_of_mem_listing`), and a listing that is not broken off has all
derivations (`Derives.mem_listing`), of any depth. So a text is parsed only if its root
derives it (`Grammar.derivation_of_parse`), and is refused as unmatched only if it does not
(`Grammar.not_derivation_of_parse`).
-/

namespace Descent

section

variable (rules : Rules) (t : Text)

/-- A skip of the rule `name` goes from the offset `pos` to the offset `stop`: the first
    match of the rule stops there, or it has no match. -/
inductive SkipsTo (name : Word) (pos : Nat) : (stop : Nat) → Prop
  | first (limit : Nat) {e : Extent}
    (h : (rules.listing t limit name pos).results.head? = some e) : SkipsTo name pos e.stop
  | stay (limit : Nat) (h : (rules.listing t limit name pos).results = [])
    (hhalt : (rules.listing t limit name pos).halt? = none) : SkipsTo name pos pos

mutual

/-- A pattern derives the text `t` from the offset `pos` up to the offset `stop`, with the
    nodes of its references from left to right. -/
inductive Derives : (p : Pattern) → (pos stop : Nat) → (nodes : List Tree) → Prop
  | literal {word : Word} {pos : Nat} (h : t.holds word pos) :
    Derives (.literal word) pos (pos + word.length) []
  | charClass {k : CharClass} {pos : Nat} {c : Char} (h : t[pos]? = some c) (hc : k.accepts c) :
    Derives (.charClass k) pos (pos + 1) []
  | sequence {items : List Pattern} {pos stop : Nat} {nodes : List Tree}
    (h : DerivesAll items pos stop nodes) : Derives (.sequence items) pos stop nodes
  | choice {alternatives : List Pattern} {p : Pattern} {pos stop : Nat} {nodes : List Tree}
    (hp : p ∈ alternatives) (h : Derives p pos stop nodes) :
    Derives (.choice alternatives) pos stop nodes
  | repetition {item : Pattern} {minimum : Int} {maximum : Option Int} {n pos stop : Nat}
    {nodes : List Tree} (h : DerivesTimes item n pos stop nodes) (hmin : minimum ≤ n)
    -- A bound below zero means zero.
    (hmax : ∀ bound ∈ maximum, (n : Int) ≤ max bound 0) :
    Derives (.repetition item minimum maximum) pos stop nodes
  | reference {name : Word} {p : Pattern} {pos stop : Nat} {nodes : List Tree}
    (hp : rules.lookup name = some p) (h : Derives p pos stop nodes) :
    Derives (.reference name) pos stop [⟨name, t, pos, stop, nodes⟩]
  | skip {name : Word} {pos stop : Nat} (h : SkipsTo rules t name pos stop) :
    Derives (.skip name) pos stop []

/-- The items derive the text one after the other. -/
inductive DerivesAll : (items : List Pattern) → (pos stop : Nat) → (nodes : List Tree) → Prop
  | nil {pos : Nat} : DerivesAll [] pos pos []
  | cons {item : Pattern} {items : List Pattern} {pos mid stop : Nat} {nodes later : List Tree}
    (h : Derives item pos mid nodes) (rest : DerivesAll items mid stop later) :
    DerivesAll (item :: items) pos stop (nodes ++ later)

/-- The item derives the text `n` times in a row, never nothing. -/
inductive DerivesTimes : (item : Pattern) → (n pos stop : Nat) → (nodes : List Tree) → Prop
  | zero {item : Pattern} {pos : Nat} : DerivesTimes item 0 pos pos []
  | succ {item : Pattern} {n pos mid stop : Nat} {nodes later : List Tree}
    (h : Derives item pos mid nodes) (hlt : pos < mid)
    (rest : DerivesTimes item n mid stop later) :
    DerivesTimes item (n + 1) pos stop (nodes ++ later)

end

end

/-- The tree is a derivation of the whole text from the root. -/
def Grammar.Derivation (g : Grammar) (t : Text) (tree : Tree) : Prop :=
  Derives g.rules t (.reference g.root) 0 t.size [tree]

variable {rules : Rules} {t : Text}

/-! ## Where derivations stop -/

/-- A skip does not go back, and not behind the end of the text unless it stays. -/
theorem SkipsTo.within {name : Word} {pos stop : Nat} (h : SkipsTo rules t name pos stop) :
    pos ≤ stop ∧ stop ≤ max pos t.size := by
  cases h with
  | first limit he => exact rules.within_listing t limit name pos _ (List.mem_of_head? he)
  | stay => exact ⟨Nat.le_refl _, Nat.le_max_left _ _⟩

mutual

/-- A derivation does not stop before it starts, and not behind the end of the text
    unless it is empty. -/
theorem Derives.within {p : Pattern} {pos stop : Nat} {nodes : List Tree} :
    Derives rules t p pos stop nodes → pos ≤ stop ∧ stop ≤ max pos t.size
  | .literal h => by
    have := Text.holds_le h
    omega
  | .charClass h _ => by
    have := (Array.getElem?_eq_some_iff.1 h).1
    omega
  | .sequence h => h.within
  | .choice _ h => h.within
  | .repetition h _ _ => h.within
  | .reference _ h => h.within
  | .skip h => h.within

theorem DerivesAll.within {items : List Pattern} {pos stop : Nat} {nodes : List Tree} :
    DerivesAll rules t items pos stop nodes → pos ≤ stop ∧ stop ≤ max pos t.size
  | .nil => ⟨Nat.le_refl _, Nat.le_max_left _ _⟩
  | .cons h rest => by
    have := h.within
    have := rest.within
    omega

theorem DerivesTimes.within {item : Pattern} {n pos stop : Nat} {nodes : List Tree} :
    DerivesTimes rules t item n pos stop nodes → pos ≤ stop ∧ stop ≤ max pos t.size
  | .zero => ⟨Nat.le_refl _, Nat.le_max_left _ _⟩
  | .succ h _ rest => by
    have := h.within
    have := rest.within
    omega

end

/-! ## How a pattern derives -/

theorem derives_sequence_iff {items : List Pattern} {pos stop : Nat} {nodes : List Tree} :
    Derives rules t (.sequence items) pos stop nodes ↔
      DerivesAll rules t items pos stop nodes :=
  ⟨fun h => by cases h with | sequence h => exact h, .sequence⟩

theorem derives_choice_iff {alternatives : List Pattern} {pos stop : Nat} {nodes : List Tree} :
    Derives rules t (.choice alternatives) pos stop nodes ↔
      ∃ p ∈ alternatives, Derives rules t p pos stop nodes :=
  ⟨fun h => by cases h with | choice hp h => exact ⟨_, hp, h⟩, fun ⟨_, hp, h⟩ => .choice hp h⟩

theorem derives_skip_iff {name : Word} {pos stop : Nat} {nodes : List Tree} :
    Derives rules t (.skip name) pos stop nodes ↔
      SkipsTo rules t name pos stop ∧ nodes = [] :=
  ⟨fun h => by cases h with | skip h => exact ⟨h, rfl⟩, fun ⟨h, hnodes⟩ => hnodes ▸ .skip h⟩

/-- A reference derives what its rule does, as one node. -/
theorem derives_reference_iff {name : Word} {p : Pattern} (hp : rules.lookup name = some p)
    {pos stop : Nat} {nodes : List Tree} :
    Derives rules t (.reference name) pos stop nodes ↔
      ∃ children, Derives rules t p pos stop children ∧
        nodes = [⟨name, t, pos, stop, children⟩] := by
  refine ⟨fun h => ?_, fun ⟨_, h, hnodes⟩ => hnodes ▸ .reference hp h⟩
  cases h with
  | reference hp' h =>
    cases hp.symm.trans hp'
    exact ⟨_, h, rfl⟩

theorem derivesAll_nil_iff {pos stop : Nat} {nodes : List Tree} :
    DerivesAll rules t [] pos stop nodes ↔ stop = pos ∧ nodes = [] :=
  ⟨fun h => by cases h; exact ⟨rfl, rfl⟩, fun ⟨hstop, hnodes⟩ => hstop ▸ hnodes ▸ .nil⟩

theorem derivesAll_cons_iff {item : Pattern} {items : List Pattern} {pos stop : Nat}
    {nodes : List Tree} :
    DerivesAll rules t (item :: items) pos stop nodes ↔
      ∃ mid before later, Derives rules t item pos mid before ∧
        DerivesAll rules t items mid stop later ∧ nodes = before ++ later :=
  ⟨fun h => by cases h with | cons h rest => exact ⟨_, _, _, h, rest, rfl⟩,
    fun ⟨_, _, _, h, rest, hnodes⟩ => hnodes ▸ .cons h rest⟩

theorem derivesAll_singleton_iff {item : Pattern} {pos stop : Nat} {nodes : List Tree} :
    DerivesAll rules t [item] pos stop nodes ↔ Derives rules t item pos stop nodes := by
  simp only [derivesAll_cons_iff, derivesAll_nil_iff]
  refine ⟨?_, fun h => ⟨stop, nodes, [], h, ⟨rfl, rfl⟩, (List.append_nil nodes).symm⟩⟩
  rintro ⟨_, before, _, h, ⟨rfl, rfl⟩, rfl⟩
  rwa [List.append_nil]

/-! ## Soundness -/

namespace Pattern

/-- What is listed for a repetition are repetitions. -/
theorem derivesTimes_of_mem_repeats {p : Pattern} {item : Nat → Listing Extent}
    (hitem : ∀ pos, ∀ e ∈ (item pos).results, Derives rules t p pos e.stop e.nodes)
    {minimum : Int} {maximum : Option Int} {count pos : Nat} {e : Extent}
    (he : e ∈ (repeats t.size item minimum maximum count pos).results) :
    ∃ n, DerivesTimes rules t p n pos e.stop e.nodes ∧ minimum ≤ (count + n : Nat) ∧
      ∀ bound ∈ maximum, (n : Int) ≤ max (bound - count) 0 := by
  refine repeats_induction (motive := fun count pos e => ∃ n, DerivesTimes rules t p n pos e.stop
    e.nodes ∧ minimum ≤ (count + n : Nat) ∧ ∀ bound ∈ maximum, (n : Int) ≤ max (bound - count) 0)
    ?_ ?_ he
  · intro count pos hmin
    exact ⟨0, .zero, hmin, fun bound _ => by omega⟩
  · rintro count pos e he e' hmax hlt - ⟨n, hn, hmin, hbound⟩
    refine ⟨n + 1, .succ (hitem pos e he) hlt hn, by omega, fun bound hb => ?_⟩
    have := hbound bound hb
    -- The maximum is not reached yet, so there is room for one more.
    have := lt_maximum_iff.1 hmax bound hb
    omega

section

variable {limit : Nat}

mutual

theorem derives_of_mem_listing
    (henter : ∀ name pos, ∀ e ∈ (rules.listing t limit name pos).results,
      ∃ p, rules.lookup name = some p ∧ Derives rules t p pos e.stop e.nodes) :
    ∀ (p : Pattern) (pos : Nat),
    ∀ e ∈ (p.listing t (rules.listing t limit) pos).results,
      Derives rules t p pos e.stop e.nodes
  | .literal word, pos, e, he => by
    rw [listing] at he
    split at he
    · rename_i h
      rw [mem_results_terminal.1 he]
      exact .literal h
    · cases he
  | .charClass k, pos, e, he => by
    rw [listing] at he
    split at he
    · rename_i h
      obtain ⟨c, hc, hk⟩ := (Option.any_eq_true _ _).1 h
      rw [mem_results_terminal.1 he]
      exact .charClass hc hk
    · cases he
  | .sequence items, pos, e, he => .sequence (derivesAll_of_mem_listingAll henter items pos e he)
  | .choice alternatives, pos, e, he => by
    obtain ⟨p, hp, h⟩ := derives_of_mem_listingAny henter alternatives pos e he
    exact .choice hp h
  | .repetition item minimum maximum, pos, e, he => by
    obtain ⟨n, hn, hmin, hmax⟩ :=
      derivesTimes_of_mem_repeats (derives_of_mem_listing henter item) he
    exact .repetition hn (by simpa using hmin) (by simpa using hmax)
  | .reference name, pos, e, he => by
    rw [listing, Listing.results_map, List.mem_map] at he
    obtain ⟨e₁, h₁, rfl⟩ := he
    obtain ⟨p, hp, h⟩ := henter name pos e₁ h₁
    exact .reference hp h
  | .skip name, pos, e, he => by
    rw [listing] at he
    obtain he | ⟨hnil, hhalt, rfl⟩ := Listing.mem_results_first he
    · rw [Listing.results_map, List.head?_map, Option.map_eq_some_iff] at he
      obtain ⟨e₁, h₁, rfl⟩ := he
      exact .skip (SkipsTo.first (e := e₁) limit h₁)
    · rw [Listing.results_map, List.map_eq_nil_iff] at hnil
      rw [Listing.halt?_map] at hhalt
      exact .skip (.stay limit hnil hhalt)

theorem derivesAll_of_mem_listingAll
    (henter : ∀ name pos, ∀ e ∈ (rules.listing t limit name pos).results,
      ∃ p, rules.lookup name = some p ∧ Derives rules t p pos e.stop e.nodes) :
    ∀ (items : List Pattern) (pos : Nat),
    ∀ e ∈ (listingAll t (rules.listing t limit) items pos).results,
      DerivesAll rules t items pos e.stop e.nodes
  | [], pos, e, he => by
    rw [listingAll, Listing.results_single, List.mem_singleton] at he
    subst he
    exact .nil
  | item :: items, pos, e, he => by
    obtain ⟨e₁, h₁, he⟩ := Listing.mem_results_bind he
    obtain ⟨e₂, h₂, rfl⟩ := Listing.mem_results_map.1 he
    exact .cons (derives_of_mem_listing henter item pos e₁ h₁)
      (derivesAll_of_mem_listingAll henter items e₁.stop e₂ h₂)

theorem derives_of_mem_listingAny
    (henter : ∀ name pos, ∀ e ∈ (rules.listing t limit name pos).results,
      ∃ p, rules.lookup name = some p ∧ Derives rules t p pos e.stop e.nodes) :
    ∀ (alternatives : List Pattern) (pos : Nat),
    ∀ e ∈ (listingAny t (rules.listing t limit) alternatives pos).results,
      ∃ p ∈ alternatives, Derives rules t p pos e.stop e.nodes
  | [], pos, e, he => by cases he
  | p :: ps, pos, e, he => by
    rw [listingAny, Listing.mem_results_append] at he
    obtain he | ⟨-, he⟩ := he
    · exact ⟨p, List.mem_cons_self, derives_of_mem_listing henter p pos e he⟩
    · obtain ⟨p', hp', h⟩ := derives_of_mem_listingAny henter ps pos e he
      exact ⟨p', List.mem_cons_of_mem _ hp', h⟩

end

end

end Pattern

/-- Every match that is listed for a rule is a derivation. -/
theorem Rules.derives_of_mem_listing {limit : Nat} {name : Word} {pos : Nat} {e : Extent}
    (he : e ∈ (rules.listing t limit name pos).results) :
    ∃ p, rules.lookup name = some p ∧ Derives rules t p pos e.stop e.nodes := by
  induction limit generalizing name pos e with
  | zero =>
    rw [listing] at he
    split at he <;> cases he
  | succ limit ih =>
    rw [listing] at he
    split at he
    · cases he
    · rename_i p hp
      exact ⟨p, hp, p.derives_of_mem_listing (fun _ _ _ => ih) pos e he⟩

/-! ## Completeness -/

/-- A listing that is not broken off before its first result knows where a skip goes,
    whatever the limit under which the skip is defined. -/
theorem SkipsTo.mem_listing {name : Word} {pos stop : Nat} (h : SkipsTo rules t name pos stop)
    {limit : Nat}
    (hhalt : ((Pattern.skip name).listing t (rules.listing t limit) pos).halt? = none) :
    ⟨stop, []⟩ ∈ ((Pattern.skip name).listing t (rules.listing t limit) pos).results := by
  rw [Pattern.listing, Listing.halt?_first_eq_none, Listing.results_map, Listing.halt?_map,
    ne_eq, List.map_eq_nil_iff] at hhalt
  rw [Pattern.listing]
  cases h with
  | first limit₀ he =>
    rename_i e
    -- Of two listings for the rule, one is cut from the other, and has a first result or is
    -- not broken off: so they have the same first result.
    have hhead : (rules.listing t limit name pos).results.head? = some e := by
      rcases Nat.le_total limit₀ limit with hle | hle
      · exact (rules.listing_cut t hle name pos).head? he
      · have hcut := rules.listing_cut t hle name pos
        cases hresults : (rules.listing t limit name pos).results with
        | nil =>
          have hnone := hhalt.resolve_left (fun hne => hne hresults)
          rw [← hresults, hcut.eq_of_halt? (by rw [hnone]; nofun), he]
        | cons e' later =>
          rw [← he, hcut.head? (a := e') (by rw [hresults]; rfl)]
          rfl
    rw [Listing.results_first_of_head? (by rw [Listing.results_map, List.head?_map, hhead]; rfl)]
    exact List.mem_singleton_self _
  | stay limit₀ hnil hnone =>
    have hsame : (rules.listing t limit name pos).results = [] ∧
        (rules.listing t limit name pos).halt? = none := by
      rcases Nat.le_total limit₀ limit with hle | hle
      · have hcut := rules.listing_cut t hle name pos
        rw [← hcut.eq_of_halt? (by rw [hnone]; nofun)]
        exact ⟨hnil, hnone⟩
      · have hresults := (rules.listing_cut t hle name pos).results_eq_nil hnil
        exact ⟨hresults, hhalt.resolve_left (fun hne => hne hresults)⟩
    rw [Listing.results_first_of_eq_nil (by rw [Listing.results_map, hsame.1]; rfl)
      (by rw [Listing.halt?_map, hsame.2])]
    exact List.mem_singleton_self _

/-- A skip goes to one place only. -/
theorem SkipsTo.unique {name : Word} {pos stop stop' : Nat} (h : SkipsTo rules t name pos stop)
    (h' : SkipsTo rules t name pos stop') : stop = stop' := by
  have hhalt : ∃ limit,
      ((Pattern.skip name).listing t (rules.listing t limit) pos).halt? = none := by
    simp only [Pattern.listing, Listing.halt?_first_eq_none, Listing.results_map,
      Listing.halt?_map, ne_eq, List.map_eq_nil_iff]
    cases h with
    | first limit he => exact ⟨limit, .inl fun hnil => by rw [hnil] at he; cases he⟩
    | stay limit _ hnone => exact ⟨limit, .inr hnone⟩
  obtain ⟨limit, hhalt⟩ := hhalt
  have hmem := Listing.mem_results_first (h.mem_listing hhalt)
  rcases Listing.mem_results_first (h'.mem_listing hhalt) with hhead | ⟨hnil, -, hstop⟩
  · rcases hmem with hmem | ⟨hnil, -, -⟩
    · exact congrArg Extent.stop (Option.some.inj (hmem.symm.trans hhead))
    · rw [hnil] at hhead
      cases hhead
  · rcases hmem with hmem | ⟨-, -, hstop'⟩
    · rw [hnil] at hmem
      cases hmem
    · exact congrArg Extent.stop (hstop'.trans hstop.symm)

/-- The matches of an alternative are among those of a choice that is not broken off. -/
theorem Pattern.mem_listingAny {enter : Word → Nat → Listing Extent} {p : Pattern}
    {ps : List Pattern} {pos : Nat} (hp : p ∈ ps)
    (hhalt : (listingAny t enter ps pos).halt? = none) :
    (p.listing t enter pos).halt? = none ∧
      ∀ e ∈ (p.listing t enter pos).results, e ∈ (listingAny t enter ps pos).results := by
  induction hp with
  | head ps =>
    obtain ⟨hp, -⟩ := Listing.halt?_append_eq_none.1 hhalt
    exact ⟨hp, fun e he => Listing.mem_results_append.2 (.inl he)⟩
  | tail q _ ih =>
    obtain ⟨hq, hps⟩ := Listing.halt?_append_eq_none.1 hhalt
    obtain ⟨hp, hmem⟩ := ih hps
    exact ⟨hp, fun e he => Listing.mem_results_append.2 (.inr ⟨hq, hmem e he⟩)⟩

mutual

/-- A listing that is not broken off has every derivation. -/
theorem Derives.mem_listing {p : Pattern} {pos stop : Nat} {nodes : List Tree} :
    Derives rules t p pos stop nodes → ∀ limit,
      (p.listing t (rules.listing t limit) pos).halt? = none →
      ⟨stop, nodes⟩ ∈ (p.listing t (rules.listing t limit) pos).results
  | .literal h, limit, _ => by
    rw [Pattern.listing, if_pos h]
    exact Pattern.mem_results_terminal.2 rfl
  | .charClass h hc, limit, _ => by
    rw [Pattern.listing, h, Option.any_some, if_pos hc]
    exact Pattern.mem_results_terminal.2 rfl
  | .sequence h, limit, hhalt => h.mem_listingAll limit hhalt
  | .choice hp h, limit, hhalt => by
    obtain ⟨hnone, hmem⟩ := Pattern.mem_listingAny hp hhalt
    exact hmem _ (h.mem_listing limit hnone)
  | .repetition h hmin hmax, limit, hhalt =>
    h.mem_repeats limit 0 hhalt (by simpa using hmin) (by simpa using hmax)
  -- Where no rule may be entered, every search for one breaks off.
  | .reference hp _, 0, hhalt => by
    rw [Pattern.listing, Listing.halt?_map, Rules.listing, hp] at hhalt
    cases hhalt
  | .reference hp h, limit + 1, hhalt => by
    rw [Pattern.listing, Rules.listing, hp] at hhalt ⊢
    rw [Listing.halt?_map] at hhalt
    rw [Listing.results_map]
    exact List.mem_map_of_mem (h.mem_listing limit hhalt)
  | .skip h, limit, hhalt => h.mem_listing hhalt

theorem DerivesAll.mem_listingAll {items : List Pattern} {pos stop : Nat} {nodes : List Tree} :
    DerivesAll rules t items pos stop nodes → ∀ limit,
      (Pattern.listingAll t (rules.listing t limit) items pos).halt? = none →
      ⟨stop, nodes⟩ ∈ (Pattern.listingAll t (rules.listing t limit) items pos).results
  | .nil, limit, _ => List.mem_singleton_self _
  | .cons h rest, limit, hhalt => by
    rw [Pattern.listingAll] at hhalt ⊢
    obtain ⟨hfirst, hrest⟩ := Listing.halt?_bind_eq_none.1 hhalt
    have he := h.mem_listing limit hfirst
    refine Listing.mem_results_bind_of_mem hhalt he ?_
    rw [Listing.results_map]
    exact List.mem_map_of_mem
      (rest.mem_listingAll limit ((Listing.halt?_map _ _).symm.trans (hrest _ he)))

theorem DerivesTimes.mem_repeats {item : Pattern} {n pos stop : Nat} {nodes : List Tree}
    {minimum : Int} {maximum : Option Int} :
    DerivesTimes rules t item n pos stop nodes → ∀ limit count,
      (Pattern.repeats t.size (item.listing t (rules.listing t limit)) minimum maximum count
        pos).halt? = none →
      minimum ≤ (count + n : Nat) → (∀ bound ∈ maximum, (n : Int) ≤ max (bound - count) 0) →
      ⟨stop, nodes⟩ ∈ (Pattern.repeats t.size (item.listing t (rules.listing t limit)) minimum
        maximum count pos).results
  | .zero, limit, count, hhalt, hmin, _ => by
    rw [Pattern.repeats] at hhalt ⊢
    refine Listing.mem_results_append.2 (.inr ⟨(Listing.halt?_append_eq_none.1 hhalt).1, ?_⟩)
    rw [if_pos (by simpa using hmin)]
    exact List.mem_singleton_self _
  | .succ h hlt rest, limit, count, hhalt, hmin, hmax => by
    have hwithin := item.within_listing (rules.within_listing t limit)
    have hmore : ∀ bound ∈ maximum, (count : Int) < bound := fun bound hb => by
      have := hmax bound hb
      omega
    rw [Pattern.repeats_eq hwithin, if_neg (Pattern.lt_maximum_iff.2 hmore)] at hhalt ⊢
    have hbind := (Listing.halt?_append_eq_none.1 hhalt).1
    obtain ⟨hitem, hrest⟩ := Listing.halt?_bind_eq_none.1 hbind
    have he := h.mem_listing limit hitem
    have hlater := hrest _ he
    rw [if_pos hlt, Listing.halt?_map] at hlater
    refine Listing.mem_results_append.2 (.inl (Listing.mem_results_bind_of_mem hbind he ?_))
    rw [if_pos hlt, Listing.results_map]
    refine List.mem_map_of_mem (rest.mem_repeats limit (count + 1) hlater (by omega) ?_)
    intro bound hb
    have := hmax bound hb
    omega

end

namespace Grammar

variable {g : Grammar} {limit : Nat} {tree : Tree}

/-- A parse tree is a derivation. -/
theorem derivation_of_parse (h : g.parse limit t = .ok tree) : g.Derivation t tree := by
  rw [parse_eq] at h
  cases hfound : (g.rules.listing t limit g.root 0).results.find? (·.stop = t.size) with
  | none =>
    rw [hfound] at h
    cases h
  | some e =>
    rw [hfound] at h
    cases h
    have hstop : e.stop = t.size := by simpa using List.find?_some hfound
    obtain ⟨p, hp, he⟩ := Rules.derives_of_mem_listing (List.mem_of_find?_eq_some hfound)
    have htree := Derives.reference hp he
    rw [hstop] at htree
    rw [Derivation, Extent.toTree, hstop]
    exact htree

/-- If the listing for the root is not broken off, a match in it stops at the end of a text that
    has a derivation. -/
theorem Derivation.exists_mem_listing (h : g.Derivation t tree)
    (hhalt : (g.rules.listing t limit g.root 0).halt? = none) :
    ∃ e ∈ (g.rules.listing t limit g.root 0).results, e.stop = t.size := by
  have hmem := h.mem_listing limit (by rw [Pattern.listing, Listing.halt?_map, hhalt])
  rw [Pattern.listing, Listing.results_map, List.mem_map] at hmem
  obtain ⟨e, he, heq⟩ := hmem
  exact ⟨e, he, congrArg Extent.stop heq⟩

/-- A text that is refused as unmatched has no derivation. -/
theorem not_derivation_of_parse {furthest : Nat}
    (h : g.parse limit t = .error (.unmatched furthest)) : ¬g.Derivation t tree := by
  intro htree
  obtain ⟨hstop, hhalt, -⟩ := parse_eq_unmatched_iff.1 h
  obtain ⟨e, he, hend⟩ := htree.exists_mem_listing hhalt
  exact hstop e he hend

end Grammar

end Descent
