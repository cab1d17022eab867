import Descent.Proofs.Limit

/-!
# Little room and nested rules

When there is room for so many searches within one another, the search for a pattern either never
runs out of it, and then lists what is listed for the pattern (`Pattern.listing`), or it breaks off
as too deep on the way (`Rules.listingIn_cut`). So what is parsed in little room is parsed alike
under a limit on nested rules that is large enough (`Grammar.parse_eq_parseIn`).

How much room is needed for rules within one another depends on how high their patterns are
(`Rules.height`). With that much for every rule, the search breaks off no earlier than under the
limit on rules (`Rules.cut_listingIn`), so that what is parsed under a limit is parsed alike where
there is room enough (`Grammar.parseIn_eq_parse`).
-/

namespace Descent

namespace Pattern

/-! ## The plain listing, part by part -/

/-- The patterns that are searched for within the search for a pattern, those of rules apart. -/
def parts : Pattern → List Pattern
  | .sequence items => items
  | .choice alternatives => alternatives
  | .repetition item _ _ => [item]
  | .literal _ | .charClass _ | .reference _ | .skip _ => []

section

variable (part : Pattern → Nat → Listing Extent)

/-- The matches of the items one after the other, where `part` lists those of each item. -/
def listingAllBy : (items : List Pattern) → (pos : Nat) → Listing Extent
  | [], pos => .single (.empty pos)
  | item :: items, pos =>
    (part item pos).bind fun e => (listingAllBy items e.stop).map (.after e.nodes)

/-- The matches of each alternative in turn. -/
def listingAnyBy : (alternatives : List Pattern) → (pos : Nat) → Listing Extent
  | [], _ => .nil
  | p :: ps, pos => part p pos ++ listingAnyBy ps pos

/-- The matches of a pattern, where `part` lists those of its parts and `enter` those of a rule. -/
def listingBy (t : Text) (enter : Word → Nat → Listing Extent) : (p : Pattern) → (pos : Nat) →
    Listing Extent
  | .sequence items, pos => listingAllBy part items pos
  | .choice alternatives, pos => listingAnyBy part alternatives pos
  | .repetition item minimum maximum, pos => repeats t.size (part item) minimum maximum 0 pos
  | .literal word, pos => (literal word).listing t enter pos
  | .charClass k, pos => (charClass k).listing t enter pos
  | .reference name, pos => (reference name).listing t enter pos
  | .skip name, pos => (skip name).listing t enter pos

end

variable {t : Text} {enter : Word → Nat → Listing Extent} {p : Pattern} {ps : List Pattern}

theorem listingAll_eq_listingAllBy (items : List Pattern) (pos : Nat) :
    listingAll t enter items pos = listingAllBy (fun p => p.listing t enter) items pos := by
  induction items generalizing pos with
  | nil => rfl
  | cons item items ih => simp only [listingAll, listingAllBy, ih]

theorem listingAny_eq_listingAnyBy (alternatives : List Pattern) (pos : Nat) :
    listingAny t enter alternatives pos =
      listingAnyBy (fun p => p.listing t enter) alternatives pos := by
  induction alternatives with
  | nil => rfl
  | cons p ps ih => rw [listingAny, listingAnyBy, ih]

/-- What is listed for a pattern is put together from what is listed for its parts. -/
theorem listing_eq_listingBy (p : Pattern) (pos : Nat) :
    p.listing t enter pos = listingBy (fun q => q.listing t enter) t enter p pos := by
  cases p with
  | sequence items => exact listingAll_eq_listingAllBy items pos
  | choice alternatives => exact listingAny_eq_listingAnyBy alternatives pos
  | repetition | literal | charClass | reference | skip => rfl

/-! ## The search, part by part -/

section

variable {part : Pattern → Nat → Search Match} {part' : Pattern → Nat → Listing Extent}
  (hpart : ∀ p pos, (part p pos).extents = part' p pos)

include hpart

theorem extents_searchAllBy (items : List Pattern) (before : Match) (after : Unit → Search Match) :
    (searchAllBy part items before after).extents =
      (listingAllBy part' items before.stop).map (.after before.nodes) ++ (after ()).extents := by
  induction items generalizing before after with
  | nil => exact extents_found before after
  | cons item items ih =>
    rw [searchAllBy, Search.extents_explore, hpart, listingAllBy, Listing.map_bind]
    intro m _ rest
    rw [ih, Listing.map_map]
    simp only [Match.andThen_stop, Match.andThen_nodes, Match.extent_stop, Match.extent_nodes,
      Extent.after_after]

theorem extents_searchAnyBy (alternatives : List Pattern) (pos : Nat) :
    (searchAnyBy part alternatives pos).extents = listingAnyBy part' alternatives pos := by
  induction alternatives with
  | nil => rfl
  | cons p ps ih =>
    rw [searchAnyBy, Search.extents, Search.listing_append, Listing.map_append, listingAnyBy]
    exact congrArg₂ (· ++ ·) (hpart p pos) ih

/-- The search for a pattern lists its matches, if the searches for its parts and for rules do. -/
theorem extents_searchBy {enter : Word → Nat → Search Match} {enter' : Word → Nat → Listing Extent}
    (hwithin : ∀ p, Within t.size (part' p))
    (henter : ∀ name pos, (enter name pos).extents = enter' name pos)
    (hstop : ∀ name, Within t.size (enter' name)) (p : Pattern) (pos : Nat) :
    (searchBy part t enter p pos).extents = listingBy part' t enter' p pos := by
  cases p with
  | sequence items =>
    rw [searchBy, extents_searchAllBy hpart]
    simp [listingBy]
  | choice alternatives => exact extents_searchAnyBy hpart alternatives pos
  | repetition item minimum maximum =>
    rw [searchBy, extents_repeatFrom (hpart item) (hwithin item)]
    · simp [listingBy]
    · rw [Match.empty_stop]
      omega
  | literal word => exact extents_search henter hstop (.literal word) pos
  | charClass k => exact extents_search henter hstop (.charClass k) pos
  | reference name => exact extents_search henter hstop (.reference name) pos
  | skip name => exact extents_search henter hstop (.skip name) pos

end

/-! ## Cuts -/

section

variable {part part' : Pattern → Nat → Listing Extent} {enter' : Word → Nat → Listing Extent}

theorem listingAllBy_cut {items : List Pattern}
    (hpart : ∀ p ∈ items, ∀ pos, Cut (part p pos) (part' p pos)) (pos : Nat) :
    Cut (listingAllBy part items pos) (listingAllBy part' items pos) := by
  induction items generalizing pos with
  | nil => exact .same _
  | cons item items ih =>
    exact (hpart item List.mem_cons_self pos).bind fun e =>
      (ih (fun p hp => hpart p (List.mem_cons_of_mem _ hp)) e.stop).map _

theorem listingAnyBy_cut {alternatives : List Pattern}
    (hpart : ∀ p ∈ alternatives, ∀ pos, Cut (part p pos) (part' p pos)) (pos : Nat) :
    Cut (listingAnyBy part alternatives pos) (listingAnyBy part' alternatives pos) := by
  induction alternatives with
  | nil => exact .same _
  | cons p ps ih =>
    exact (hpart p List.mem_cons_self pos).append
      (ih fun q hq => hpart q (List.mem_cons_of_mem _ hq))

/-- A pattern hands on a cut in what is listed for its parts and for rules. -/
theorem listingBy_cut (hpart : ∀ q ∈ p.parts, ∀ pos, Cut (part q pos) (part' q pos))
    (henter : ∀ name pos, Cut (enter name pos) (enter' name pos)) (pos : Nat) :
    Cut (listingBy part t enter p pos) (listingBy part' t enter' p pos) := by
  cases p with
  | sequence items => exact listingAllBy_cut hpart pos
  | choice alternatives => exact listingAnyBy_cut hpart pos
  | repetition item minimum maximum =>
    exact repeats_cut (hpart item (List.mem_singleton_self item)) minimum maximum 0 pos
  | literal word => exact listing_cut henter (.literal word) pos
  | charClass k => exact listing_cut henter (.charClass k) pos
  | reference name => exact listing_cut henter (.reference name) pos
  | skip name => exact listing_cut (t := t) henter (.skip name) pos

end

/-! ## Height -/

mutual

/-- How many searches stand within one another for a pattern, the one for the pattern included and
    those for rules apart. -/
def height : Pattern → Nat
  | .sequence items => heightOfAll items + 1
  | .choice alternatives => heightOfAll alternatives + 1
  | .repetition item _ _ => item.height + 1
  | .literal _ | .charClass _ | .reference _ | .skip _ => 1

/-- The largest height of the patterns of a list. -/
def heightOfAll : List Pattern → Nat
  | [] => 0
  | p :: ps => max p.height (heightOfAll ps)

end

theorem height_pos (p : Pattern) : 0 < p.height := by
  cases p <;> exact Nat.succ_pos _

theorem height_le_heightOfAll (hp : p ∈ ps) : p.height ≤ heightOfAll ps := by
  induction ps with
  | nil => cases hp
  | cons q ps ih =>
    rw [heightOfAll]
    obtain rfl | hp := List.mem_cons.1 hp
    · exact Nat.le_max_left _ _
    · exact Nat.le_trans (ih hp) (Nat.le_max_right _ _)

/-- The parts of a pattern are lower than the pattern. -/
theorem height_lt_of_mem_parts {q : Pattern} (hq : q ∈ p.parts) : q.height < p.height := by
  cases p with
  | sequence | choice => exact Nat.lt_succ_of_le (height_le_heightOfAll hq)
  | repetition item =>
    obtain rfl := List.mem_singleton.1 hq
    exact Nat.lt_succ_self _
  | literal | charClass | reference | skip => cases hq

end Pattern

namespace Rules

variable (rules : Rules) (t : Text)

/-- The largest height of the pattern of a rule. -/
def height : Nat := Pattern.heightOfAll (rules.map (·.2))

/-- The matches of a rule, where `part` lists those of the pattern it is defined by. -/
def listingEnterBy (part : Pattern → Nat → Listing Extent) (name : Word) (pos : Nat) :
    Listing Extent :=
  match rules.lookup name with
  | none => .halted (.undefined name)
  | some p => part p pos

/-- The matches of a pattern at an offset of the text `t`, when there is room for that many searches
    within one another. -/
def listingIn : (room : Nat) → (p : Pattern) → (pos : Nat) → Listing Extent
  | 0, _, _ => .halted .tooDeep
  | room + 1, p, pos =>
    p.listingBy (listingIn room) t (rules.listingEnterBy (listingIn room)) pos

variable {rules t} {name : Word} {p : Pattern}

theorem height_le (h : rules.lookup name = some p) : p.height ≤ rules.height :=
  Pattern.height_le_heightOfAll (List.mem_map_of_mem (mem_of_lookup h))

/-- A rule hands on a cut in what is listed in little room. -/
theorem listingEnterBy_cut {room limit : Nat}
    (h : ∀ p pos, Cut (rules.listingIn t room p pos) (p.listing t (rules.listing t limit) pos))
    (name : Word) (pos : Nat) :
    Cut (rules.listingEnterBy (rules.listingIn t room) name pos)
      (rules.listing t (limit + 1) name pos) := by
  rw [listingEnterBy, listing]
  cases rules.lookup name with
  | none => exact .same _
  | some p => exact h p pos

/-- What is listed in little room is cut from what is listed under a limit that is large enough. -/
theorem listingIn_cut {room limit : Nat} (h : room ≤ limit) (p : Pattern) (pos : Nat) :
    Cut (rules.listingIn t room p pos) (p.listing t (rules.listing t limit) pos) := by
  induction room generalizing limit p pos with
  | zero => exact .tooDeep _
  | succ room ih =>
    rw [listingIn, Pattern.listing_eq_listingBy]
    refine Pattern.listingBy_cut (fun q _ pos => ih (Nat.le_of_succ_le h) q pos) ?_ pos
    obtain ⟨limit, rfl⟩ := Nat.exists_eq_add_of_lt h
    exact listingEnterBy_cut (ih (Nat.le_add_right _ _))

/-- A rule hands on a cut in what is listed under a limit, if there is room for the patterns of that
    many rules. -/
theorem cut_listingEnterBy {room limit : Nat}
    (h : ∀ inner, ∀ p : Pattern, p.height + inner * rules.height ≤ room → ∀ pos,
      Cut (p.listing t (rules.listing t inner) pos) (rules.listingIn t room p pos))
    (hroom : limit * rules.height ≤ room) (name : Word) (pos : Nat) :
    Cut (rules.listing t limit name pos)
      (rules.listingEnterBy (rules.listingIn t room) name pos) := by
  rw [listingEnterBy]
  cases limit with
  | zero =>
    rw [listing]
    cases rules.lookup name with
    | none => exact .same _
    | some p => exact .tooDeep _
  | succ inner =>
    rw [listing]
    cases hname : rules.lookup name with
    | none => exact .same _
    | some p =>
      have := height_le hname
      exact h inner p (by rw [Nat.succ_mul] at hroom; omega) pos

/-- What is listed under a limit is cut from what is listed where there is room for the patterns of
    that many rules. -/
theorem cut_listingIn {room limit : Nat} (p : Pattern)
    (h : p.height + limit * rules.height ≤ room) (pos : Nat) :
    Cut (p.listing t (rules.listing t limit) pos) (rules.listingIn t room p pos) := by
  induction room generalizing limit p pos with
  | zero =>
    have := p.height_pos
    omega
  | succ room ih =>
    rw [listingIn, Pattern.listing_eq_listingBy]
    have := p.height_pos
    refine Pattern.listingBy_cut (fun q hq pos => ih q ?_ pos)
      (cut_listingEnterBy (fun _ q hq pos => ih q hq pos) (by omega)) pos
    have := Pattern.height_lt_of_mem_parts hq
    omega

theorem within_listingIn (room : Nat) (p : Pattern) :
    Within t.size (rules.listingIn t room p) := fun pos e he =>
  p.within_listing (rules.within_listing t room) pos e
    ((listingIn_cut (Nat.le_refl room) p pos).results.subset he)

theorem within_listingEnterBy {part : Pattern → Nat → Listing Extent}
    (hwithin : ∀ p, Within t.size (part p)) (name : Word) :
    Within t.size (rules.listingEnterBy part name) := by
  intro pos e he
  rw [listingEnterBy] at he
  split at he
  · cases he
  · exact hwithin _ pos e he

theorem extents_enterBy {part : Pattern → Nat → Search Match}
    {part' : Pattern → Nat → Listing Extent}
    (hpart : ∀ p pos, (part p pos).extents = part' p pos) (name : Word) (pos : Nat) :
    (rules.enterBy part name pos).extents = rules.listingEnterBy part' name pos := by
  rw [enterBy, listingEnterBy]
  cases rules.lookup name with
  | none => rfl
  | some p => exact hpart p pos

/-- The search for a pattern in little room lists its matches. -/
theorem extents_searchIn (room : Nat) (p : Pattern) (pos : Nat) :
    (rules.searchIn t room p pos).extents = rules.listingIn t room p pos := by
  induction room generalizing p pos with
  | zero => rfl
  | succ room ih =>
    exact Pattern.extents_searchBy ih (within_listingIn room) (extents_enterBy ih)
      (within_listingEnterBy (within_listingIn room)) p pos

end Rules

namespace Grammar

variable {g : Grammar} {room limit : Nat} {t : Text}

/-- What is parsed in little room is what comes of the listing for the root. -/
theorem parseIn_eq (g : Grammar) (room : Nat) (t : Text) :
    g.parseIn room t =
      (g.rules.listingEnterBy (g.rules.listingIn t room) g.root 0).outcome t g.root := by
  rw [parseIn, Search.toTree_firstWhere, Rules.extents_enterBy (Rules.extents_searchIn room)]

/-- A text that is not too deep for the room is parsed alike under every limit on nested rules that
    is larger than the room. -/
theorem parse_eq_parseIn (h : room < limit)
    (hdeep : ∀ furthest, g.parseIn room t ≠ .error (.halted .tooDeep furthest)) :
    g.parse limit t = g.parseIn room t := by
  rw [parseIn_eq] at hdeep ⊢
  rw [parse, Search.toTree_firstWhere, Rules.extents_enter]
  obtain ⟨limit, rfl⟩ := Nat.exists_eq_add_of_lt h
  exact (Rules.listingEnterBy_cut (Rules.listingIn_cut (Nat.le_add_right _ _)) g.root 0).outcome_eq
    hdeep

/-- A text that is not too deep for a limit on nested rules is parsed alike where there is room for
    the patterns of that many rules. -/
theorem parseIn_eq_parse (h : limit * g.rules.height ≤ room)
    (hdeep : ∀ furthest, g.parse limit t ≠ .error (.halted .tooDeep furthest)) :
    g.parseIn room t = g.parse limit t := by
  rw [parse, Search.toTree_firstWhere, Rules.extents_enter] at hdeep ⊢
  rw [parseIn_eq]
  refine (Rules.cut_listingEnterBy (fun _ p hp => ?_) h g.root 0).outcome_eq hdeep
  exact Rules.cut_listingIn p hp

/-- Grammars that parse alike under every limit on nested rules do so in any room, but for a text
    that is too deep for one of them. -/
theorem parseIn_eq_of_parse_eq {g' : Grammar} {room' : Nat}
    (h : ∀ limit, g'.parse limit t = g.parse limit t)
    (hdeep : ∀ furthest, g.parseIn room t ≠ .error (.halted .tooDeep furthest))
    (hdeep' : ∀ furthest, g'.parseIn room' t ≠ .error (.halted .tooDeep furthest)) :
    g'.parseIn room' t = g.parseIn room t := by
  have hlimit : room < room + room' + 1 := by omega
  have hlimit' : room' < room + room' + 1 := by omega
  rw [← parse_eq_parseIn hlimit hdeep, ← parse_eq_parseIn hlimit' hdeep', h]

end Grammar

end Descent
