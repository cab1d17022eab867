import Descent.Grammar
import Descent.Proofs.Listing
import Mathlib.Tactic.Common

/-!
# The matches of a pattern, in order

The matches of a pattern at an offset can be listed by plain recursion over the pattern
(`Pattern.listing`), without regard to how the search is run: a choice lists the matches
of its alternatives in turn, a sequence those of the rest after each match of the first
item, and a repetition, after every match that is not empty, those of further
repetitions, and then the place reached so far.

The lazy search keeps its pending work at hand instead, and yields one match at a time.
It yields exactly the matches listed, in the same order, and with the same offsets
reached in between (`Pattern.extents_search`, `Rules.extents_enter`).
-/

namespace Descent

/-- What a match covers. -/
structure Extent where
  /-- The offset where it stops. -/
  stop : Nat
  /-- The nodes of the references in it, from left to right. -/
  nodes : List Tree

namespace Extent

/-- Nothing is covered at an offset. -/
def empty (pos : Nat) : Extent := ⟨pos, []⟩

/-- The extent with nodes in front. -/
def after (nodes : List Tree) (e : Extent) : Extent := ⟨e.stop, nodes ++ e.nodes⟩

/-- The node for what the rule `name` covers from the offset `pos` on. -/
def toTree (t : Text) (name : Word) (pos : Nat) (e : Extent) : Tree :=
  ⟨name, t, pos, e.stop, e.nodes⟩

@[simp] theorem empty_stop (pos : Nat) : (empty pos).stop = pos := rfl

@[simp] theorem after_stop (nodes : List Tree) (e : Extent) : (e.after nodes).stop = e.stop := rfl

@[simp] theorem after_nil (e : Extent) : e.after [] = e := rfl

@[simp] theorem map_after_nil (l : Listing Extent) : l.map (.after []) = l := Listing.map_id l

theorem after_after (before nodes : List Tree) (e : Extent) :
    (e.after nodes).after before = e.after (before ++ nodes) := by
  simp only [after, List.append_assoc]

end Extent

/-- What a match covers. -/
def Match.extent (m : Match) : Extent := ⟨m.stop, m.nodes⟩

@[simp] theorem Match.extent_stop (m : Match) : m.extent.stop = m.stop := rfl

@[simp] theorem Match.extent_empty (pos : Nat) : (Match.empty pos).extent = .empty pos := rfl

@[simp] theorem Match.extent_nodes (m : Match) : m.extent.nodes = m.nodes := rfl

@[simp] theorem Match.empty_stop (pos : Nat) : (Match.empty pos).stop = pos := rfl

@[simp] theorem Match.empty_nodes (pos : Nat) : (Match.empty pos).nodes = [] := rfl

@[simp] theorem Match.andThen_stop (before m : Match) : (before.andThen m).stop = m.stop := rfl

@[simp] theorem Match.andThen_nodes (before m : Match) :
    (before.andThen m).nodes = before.nodes ++ m.nodes := by
  simp only [andThen, nodes, List.reverse_append]

/-- What the matches of a search cover, in order. -/
def Search.extents (s : Search Match) : Listing Extent := s.listing.map Match.extent

@[simp] theorem Search.extents_done : (Search.done : Search Match).extents = .nil := rfl

namespace Pattern

/-! ## The plain listing -/

/-- A terminal is matched up to an offset. -/
def terminal (stop : Nat) : Listing Extent := .cons (.reach stop) (.single (.empty stop))

/-- After `count` repetitions up to the offset `pos`: further repetitions after every
    match of the item that is not empty, unless `maximum` is reached; then the offset
    itself, unless `minimum` is not reached. -/
def repeats (size : Nat) (item : Nat → Listing Extent) (minimum : Int) (maximum : Option Int)
    (count pos : Nat) : Listing Extent :=
  (if maximum.any (· ≤ (count : Int)) then .nil
    else (item pos).bind fun e =>
      -- A match that is not empty never stops behind the end of the text (`repeats_eq`).
      if pos < e.stop ∧ e.stop ≤ size then
        (repeats size item minimum maximum (count + 1) e.stop).map (.after e.nodes)
      else .nil) ++
  if minimum ≤ count then .single (.empty pos) else .nil
termination_by size - pos

variable (t : Text) (enter : Word → Nat → Listing Extent)

mutual

/-- The matches of a pattern at an offset of the text `t`, where `enter` lists the
    matches of a rule. -/
def listing : (p : Pattern) → (pos : Nat) → Listing Extent
  | .literal word, pos => if t.holds word pos then terminal (pos + word.length) else .nil
  | .charClass k, pos => if t[pos]?.any k.accepts then terminal (pos + 1) else .nil
  | .sequence items, pos => listingAll items pos
  | .choice alternatives, pos => listingAny alternatives pos
  | .repetition item minimum maximum, pos =>
    repeats t.size (fun pos => item.listing pos) minimum maximum 0 pos
  | .reference name, pos => (enter name pos).map fun e => ⟨e.stop, [e.toTree t name pos]⟩
  | .skip name, pos => ((enter name pos).map fun e => .empty e.stop).first (.empty pos)

/-- The matches of the items one after the other. -/
def listingAll : (items : List Pattern) → (pos : Nat) → Listing Extent
  | [], pos => .single (.empty pos)
  | item :: items, pos =>
    (item.listing pos).bind fun e => (listingAll items e.stop).map (.after e.nodes)

/-- The matches of each alternative in turn. -/
def listingAny : (alternatives : List Pattern) → (pos : Nat) → Listing Extent
  | [], _ => .nil
  | p :: ps, pos => p.listing pos ++ listingAny ps pos

end

end Pattern

/-- The matches of a rule at an offset of the text `t`, when rules may be entered within
    one another `limit` times. -/
def Rules.listing (rules : Rules) (t : Text) : (limit : Nat) → (name : Word) → (pos : Nat) →
    Listing Extent
  | 0, name, _ =>
    match rules.lookup name with
    | none => .halted (.undefined name)
    | some _ => .halted .tooDeep
  | limit + 1, name, pos =>
    match rules.lookup name with
    | none => .halted (.undefined name)
    | some p => p.listing t (fun name pos => rules.listing t limit name pos) pos

/-! ## Where matches stop -/

/-- What is listed at an offset does not stop before it, and not behind the end of the
    text unless it is empty. -/
def Within (size : Nat) (f : Nat → Listing Extent) : Prop :=
  ∀ pos, ∀ e ∈ (f pos).results, pos ≤ e.stop ∧ e.stop ≤ max pos size

/-- A word that stands in a text stops at its end or before. -/
theorem Text.holds_le {t : Text} {w : Word} {pos : Nat} (h : t.holds w pos) :
    pos + w.length ≤ t.size := by
  induction w generalizing pos with
  | nil => simpa [holds] using h
  | cons c w ih =>
    rw [holds, Bool.and_eq_true] at h
    have := ih h.2
    rw [List.length_cons]
    omega

namespace Pattern

theorem mem_results_terminal {stop : Nat} {e : Extent} :
    e ∈ (terminal stop).results ↔ e = .empty stop := by
  simp [terminal]

/-- A character class only matches inside of a text. -/
theorem lt_size_of_any {t : Text} {k : CharClass} {pos : Nat} (h : t[pos]?.any k.accepts) :
    pos < t.size := by
  by_contra hpos
  rw [Array.getElem?_eq_none (Nat.le_of_not_lt hpos)] at h
  cases h

/-- After `count` repetitions, the maximum is not reached, if there is one. -/
theorem lt_maximum_iff {maximum : Option Int} {count : Nat} :
    ¬maximum.any (· ≤ (count : Int)) ↔ ∀ bound ∈ maximum, (count : Int) < bound := by
  cases maximum <;> simp

/-- Induction on what is listed for a repetition: it is the offset itself, or it goes on
    after a match of the item that is not empty. -/
theorem repeats_induction {size : Nat} {item : Nat → Listing Extent} {minimum : Int}
    {maximum : Option Int} {motive : (count pos : Nat) → (e : Extent) → Prop}
    (enough : ∀ (count pos : Nat), minimum ≤ (count : Int) → motive count pos (.empty pos))
    (again : ∀ (count pos : Nat), ∀ e ∈ (item pos).results, ∀ e',
      ¬maximum.any (· ≤ (count : Int)) → pos < e.stop → e.stop ≤ size →
      motive (count + 1) e.stop e' → motive count pos (e'.after e.nodes))
    {count pos : Nat} {e : Extent}
    (he : e ∈ (repeats size item minimum maximum count pos).results) : motive count pos e := by
  -- Every repetition takes a character at least.
  induction h : size - pos using Nat.strongRecOn generalizing count pos e with
  | ind n ih =>
    rw [repeats, Listing.mem_results_append] at he
    obtain he | ⟨-, he⟩ := he
    · split at he
      · cases he
      · rename_i hmax
        obtain ⟨e₁, h₁, he⟩ := Listing.mem_results_bind he
        split at he
        · rename_i hstop
          obtain ⟨e₂, h₂, rfl⟩ := Listing.mem_results_map.1 he
          exact again count pos e₁ h₁ e₂ hmax hstop.1 hstop.2
            (ih (size - e₁.stop) (by omega) h₂ rfl)
        · cases he
    · split at he
      · rename_i hmin
        rw [Listing.results_single, List.mem_singleton] at he
        subst he
        exact enough count pos hmin
      · cases he

theorem within_repeats (size : Nat) (item : Nat → Listing Extent) (minimum : Int)
    (maximum : Option Int) (count : Nat) :
    Within size (repeats size item minimum maximum count) := by
  intro pos e he
  refine repeats_induction (motive := fun _ pos e => pos ≤ e.stop ∧ e.stop ≤ max pos size)
    ?_ ?_ he
  · intro _ pos _
    exact ⟨Nat.le_refl _, Nat.le_max_left _ _⟩
  · intro _ pos e _ e' _ hlt hle ih
    rw [Extent.after_stop]
    omega

/-- The plain recursion of a repetition. -/
theorem repeats_eq {size : Nat} {item : Nat → Listing Extent} (hitem : Within size item)
    (minimum : Int) (maximum : Option Int) (count pos : Nat) :
    repeats size item minimum maximum count pos =
      (if maximum.any (· ≤ (count : Int)) then .nil
        else (item pos).bind fun e =>
          if pos < e.stop then
            (repeats size item minimum maximum (count + 1) e.stop).map (.after e.nodes)
          else .nil) ++
      if minimum ≤ count then .single (.empty pos) else .nil := by
  rw [repeats]
  congr 2
  refine Listing.bind_congr fun e he => ?_
  have := (hitem pos e he).2
  congr 1
  exact propext ⟨And.left, fun h => ⟨h, by omega⟩⟩

/-- A property of what is covered from an offset on, which patterns inherit from rules. -/
structure Inherited (t : Text) (enter : Word → Nat → Listing Extent)
    (P : (pos : Nat) → (e : Extent) → Prop) : Prop where
  /-- It holds up to every offset inside of the text, if there are no nodes. -/
  empty : ∀ pos stop, pos ≤ stop → stop ≤ max pos t.size → P pos (.empty stop)
  /-- It holds of two parts together, if it holds of each of them. -/
  after : ∀ pos e e', P pos e → P e.stop e' → P pos (e'.after e.nodes)
  /-- It holds of a reference to a rule. -/
  reference : ∀ name pos, ∀ e ∈ (enter name pos).results, P pos ⟨e.stop, [e.toTree t name pos]⟩
  /-- It holds of a skip of a rule. -/
  skip : ∀ name pos, ∀ e ∈ (enter name pos).results, P pos (.empty e.stop)

section

variable {t : Text} {enter : Word → Nat → Listing Extent} {P : (pos : Nat) → (e : Extent) → Prop}

mutual

/-- An inherited property holds of all that is listed for a pattern. -/
theorem Inherited.of_mem_listing (h : Inherited t enter P) :
    ∀ (p : Pattern) (pos : Nat), ∀ e ∈ (p.listing t enter pos).results, P pos e
  | .literal word, pos, e, he => by
    rw [listing] at he
    split at he
    · rename_i hword
      have := Text.holds_le hword
      rw [mem_results_terminal.1 he]
      exact h.empty pos _ (by omega) (by omega)
    · cases he
  | .charClass k, pos, e, he => by
    rw [listing] at he
    split at he
    · rename_i hk
      have := lt_size_of_any hk
      rw [mem_results_terminal.1 he]
      exact h.empty pos _ (by omega) (by omega)
    · cases he
  | .sequence items, pos, e, he => h.of_mem_listingAll items pos e he
  | .choice alternatives, pos, e, he => h.of_mem_listingAny alternatives pos e he
  | .repetition item minimum maximum, pos, e, he => by
    refine repeats_induction (motive := fun _ pos e => P pos e) ?_ ?_ he
    · exact fun _ pos _ => h.empty pos pos (Nat.le_refl _) (Nat.le_max_left _ _)
    · exact fun _ pos e he e' _ _ _ ih => h.after pos e e' (h.of_mem_listing item pos e he) ih
  | .reference name, pos, e, he => by
    obtain ⟨e₁, h₁, rfl⟩ := Listing.mem_results_map.1 he
    exact h.reference name pos e₁ h₁
  | .skip name, pos, e, he => by
    obtain he | ⟨-, -, rfl⟩ := Listing.mem_results_first he
    · obtain ⟨e₁, h₁, rfl⟩ := Listing.mem_results_map.1 (List.mem_of_head? he)
      exact h.skip name pos e₁ h₁
    · exact h.empty pos pos (Nat.le_refl _) (Nat.le_max_left _ _)

theorem Inherited.of_mem_listingAll (h : Inherited t enter P) :
    ∀ (items : List Pattern) (pos : Nat), ∀ e ∈ (listingAll t enter items pos).results, P pos e
  | [], pos, e, he => by
    rw [listingAll, Listing.results_single, List.mem_singleton] at he
    subst he
    exact h.empty pos pos (Nat.le_refl _) (Nat.le_max_left _ _)
  | item :: items, pos, e, he => by
    obtain ⟨e₁, h₁, he⟩ := Listing.mem_results_bind he
    obtain ⟨e₂, h₂, rfl⟩ := Listing.mem_results_map.1 he
    exact h.after pos e₁ e₂ (h.of_mem_listing item pos e₁ h₁)
      (h.of_mem_listingAll items e₁.stop e₂ h₂)

theorem Inherited.of_mem_listingAny (h : Inherited t enter P) :
    ∀ (alternatives : List Pattern) (pos : Nat),
    ∀ e ∈ (listingAny t enter alternatives pos).results, P pos e
  | [], pos, e, he => by cases he
  | p :: ps, pos, e, he => by
    rw [listingAny, Listing.mem_results_append] at he
    obtain he | ⟨-, he⟩ := he
    · exact h.of_mem_listing p pos e he
    · exact h.of_mem_listingAny ps pos e he

end

theorem inherited_within (henter : ∀ name, Within t.size (enter name)) :
    Inherited t enter fun pos e => pos ≤ e.stop ∧ e.stop ≤ max pos t.size where
  empty _ _ hle hsize := ⟨hle, hsize⟩
  after pos e e' he he' := by
    rw [Extent.after_stop]
    omega
  reference name pos e he := henter name pos e he
  skip name pos e he := henter name pos e he

theorem within_listing (henter : ∀ name, Within t.size (enter name)) (p : Pattern) :
    Within t.size (p.listing t enter) :=
  (inherited_within henter).of_mem_listing p

theorem within_listingAll (henter : ∀ name, Within t.size (enter name)) (items : List Pattern) :
    Within t.size (listingAll t enter items) :=
  (inherited_within henter).of_mem_listingAll items

end

end Pattern

theorem Rules.within_listing (rules : Rules) (t : Text) (limit : Nat) (name : Word) :
    Within t.size (rules.listing t limit name) := by
  induction limit generalizing name with
  | zero =>
    intro pos e he
    rw [listing] at he
    split at he <;> cases he
  | succ limit ih =>
    intro pos e he
    rw [listing] at he
    split at he
    · cases he
    · exact Pattern.within_listing ih _ pos e he

/-! ## The search lists the same -/

namespace Search

/-- To continue every match is to bind, if a continuation lists its own matches and then
    goes on with the rest of the work. -/
theorem extents_explore {visit : Match → (Unit → Search Match) → Search Match}
    {f : Extent → Listing Extent} (after : Unit → Search Match) (s : Search Match)
    (hvisit : ∀ m, m.extent ∈ s.extents.results → ∀ rest,
      (visit m rest).extents = f m.extent ++ (rest ()).extents) :
    (s.explore visit after).extents = s.extents.bind f ++ (after ()).extents := by
  rw [extents, extents, Listing.bind_map]
  refine map_listing_explore Match.extent after s fun m hm rest => hvisit m ?_ rest
  rw [extents, Listing.results_map]
  exact List.mem_map_of_mem hm

end Search

namespace Pattern

/-- A match that is found is listed in front, as its nodes and then nothing. -/
theorem extents_found (before : Match) (after : Unit → Search Match) :
    (Search.found before after).extents =
      (Listing.single (.empty before.stop)).map (.after before.nodes) ++ (after ()).extents := by
  rw [Listing.map_single, Extent.after, Extent.empty, List.append_nil]
  rfl

/-- What a repetition does with the next match of its item. -/
def repeatNext (item : Nat → Search Match) (minimum : Int) (maximum : Option Int)
    (bound count : Nat) (before m : Match) (rest : Unit → Search Match) : Search Match :=
  if before.stop < m.stop then
    match bound with
    | 0 => rest ()
    | bound + 1 => repeatFrom item minimum maximum bound (count + 1) (before.andThen m) rest
  else rest ()

/-- A match that is not empty is followed by further repetitions. -/
theorem repeatNext_of_lt {item : Nat → Search Match} {minimum : Int} {maximum : Option Int}
    {bound count : Nat} {before m : Match} {rest : Unit → Search Match}
    (h : before.stop < m.stop) :
    repeatNext item minimum maximum (bound + 1) count before m rest =
      repeatFrom item minimum maximum bound (count + 1) (before.andThen m) rest :=
  if_pos h

/-- An empty match is passed over. -/
theorem repeatNext_of_not_lt {item : Nat → Search Match} {minimum : Int} {maximum : Option Int}
    {bound count : Nat} {before m : Match} {rest : Unit → Search Match}
    (h : ¬before.stop < m.stop) :
    repeatNext item minimum maximum bound count before m rest = rest () :=
  if_neg h

theorem repeatFrom_eq (item : Nat → Search Match) (minimum : Int) (maximum : Option Int)
    (bound count : Nat) (before : Match) (after : Unit → Search Match) :
    repeatFrom item minimum maximum bound count before after =
      if maximum.any (· ≤ (count : Int)) then
        if minimum ≤ count then .found before after else after ()
      else (item before.stop).explore (repeatNext item minimum maximum bound count before)
        fun _ => if minimum ≤ count then .found before after else after () := by
  cases bound <;> rfl

/-- The repetitions after the match `before` are listed behind its nodes. -/
theorem extents_repeatFrom {size : Nat} {item : Nat → Search Match}
    {item' : Nat → Listing Extent} (hitem : ∀ pos, (item pos).extents = item' pos)
    (hstop : Within size item') (minimum : Int) (maximum : Option Int)
    (bound count : Nat) (before : Match) (hbound : size ≤ before.stop + bound)
    (after : Unit → Search Match) :
    (repeatFrom item minimum maximum bound count before after).extents =
      (repeats size item' minimum maximum count before.stop).map (.after before.nodes) ++
        (after ()).extents := by
  have henough :
      (if minimum ≤ count then .found before after else after () : Search Match).extents =
      (if minimum ≤ count then .single (.empty before.stop) else .nil : Listing Extent).map
        (.after before.nodes) ++ (after ()).extents := by
    split
    · exact extents_found before after
    · rfl
  rw [repeatFrom_eq, repeats_eq hstop, Listing.map_append, Listing.append_assoc, ← henough]
  split
  · rfl
  · rw [Search.extents_explore, hitem, Listing.map_bind]
    intro m hm rest
    rw [hitem] at hm
    have hm := (hstop _ _ hm).2
    rw [Match.extent_stop] at hm ⊢
    split
    · rename_i hlt
      -- The bound is the number of characters left, and so not used up before they are.
      cases bound with
      | zero => omega
      | succ bound =>
        have hbound' : size ≤ (before.andThen m).stop + bound := by
          rw [Match.andThen_stop]
          omega
        rw [repeatNext_of_lt hlt, extents_repeatFrom hitem hstop minimum maximum bound (count + 1)
          (before.andThen m) hbound' rest, Listing.map_map]
        simp only [Match.andThen_stop, Match.andThen_nodes, Match.extent_nodes, Extent.after_after]
    · rename_i hlt
      rw [repeatNext_of_not_lt hlt]
      rfl

section

variable {t : Text} {enter : Word → Nat → Search Match} {enter' : Word → Nat → Listing Extent}

mutual

/-- The search for a pattern lists the matches of the pattern, if the search for a rule
    does so for the rule. -/
theorem extents_search (henter : ∀ name pos, (enter name pos).extents = enter' name pos)
    (hstop : ∀ name, Within t.size (enter' name)) :
    ∀ (p : Pattern) (pos : Nat), (p.search t enter pos).extents = p.listing t enter' pos
  | .literal word, pos => by
    rw [search, listing]
    split <;> rfl
  | .charClass k, pos => by
    rw [search, listing]
    split <;> rfl
  | .sequence items, pos => by
    rw [search, extents_searchAll henter hstop]
    simp [listing]
  | .choice alternatives, pos => extents_searchAny henter hstop alternatives pos
  | .repetition item minimum maximum, pos => by
    rw [search, extents_repeatFrom (extents_search henter hstop item) (within_listing hstop item)]
    · simp [listing]
    · rw [Match.empty_stop]
      omega
  | .reference name, pos => by
    rw [search, listing, ← henter, Search.extents, Search.extents, Search.listing_map,
      Listing.map_map, Listing.map_map]
    rfl
  | .skip name, pos => by
    rw [search, listing, ← henter, Search.extents, Search.extents, Search.listing_first,
      ← Listing.first_map, Search.listing_map, Listing.map_map, Listing.map_map]
    rfl

/-- The items after the match `before` are listed behind its nodes. -/
theorem extents_searchAll (henter : ∀ name pos, (enter name pos).extents = enter' name pos)
    (hstop : ∀ name, Within t.size (enter' name)) :
    ∀ (items : List Pattern) (before : Match) (after : Unit → Search Match),
      (searchAll t enter items before after).extents =
        (listingAll t enter' items before.stop).map (.after before.nodes) ++ (after ()).extents
  | [], before, after => extents_found before after
  | item :: items, before, after => by
    rw [searchAll, Search.extents_explore, extents_search henter hstop item, listingAll,
      Listing.map_bind]
    intro m _ rest
    rw [extents_searchAll henter hstop items, Listing.map_map]
    simp only [Match.andThen_stop, Match.andThen_nodes, Match.extent_stop, Match.extent_nodes,
      Extent.after_after]

theorem extents_searchAny (henter : ∀ name pos, (enter name pos).extents = enter' name pos)
    (hstop : ∀ name, Within t.size (enter' name)) :
    ∀ (alternatives : List Pattern) (pos : Nat),
      (searchAny t enter alternatives pos).extents = listingAny t enter' alternatives pos
  | [], pos => rfl
  | p :: ps, pos => by
    rw [searchAny, Search.extents, Search.listing_append, Listing.map_append, listingAny]
    exact congrArg₂ (· ++ ·) (extents_search henter hstop p pos)
      (extents_searchAny henter hstop ps pos)

end

end

end Pattern

namespace Rules

theorem mem_of_lookup {rules : Rules} {name : Word} {p : Pattern}
    (h : rules.lookup name = some p) : (name, p) ∈ rules := by
  obtain ⟨_, _, rfl, -⟩ := List.lookup_eq_some_iff.1 h
  simp

/-- The search for a rule lists the matches of the rule. -/
theorem extents_enter (rules : Rules) (t : Text) (limit : Nat) (name : Word) (pos : Nat) :
    (rules.enter t limit name pos).extents = rules.listing t limit name pos := by
  induction limit generalizing name pos with
  | zero =>
    rw [enter, listing]
    cases rules.lookup name <;> rfl
  | succ limit ih =>
    rw [enter, listing]
    cases rules.lookup name with
    | none => rfl
    | some p => exact p.extents_search ih (rules.within_listing t limit) pos

end Rules

/-- What comes of a listing for the rule `name` at the beginning of a text: the node for the first
    match that stops at the end of the text, or else a refusal. -/
def Listing.outcome (l : Listing Extent) (t : Text) (name : Word) : Except Refusal Tree :=
  match l.results.find? (·.stop = t.size) with
  | some e => .ok (e.toTree t name 0)
  | none => .error (l.refusal 0)

/-- What comes of a search comes of its listing. -/
theorem Search.toTree_firstWhere (s : Search Match) (t : Text) (name : Word) :
    (s.firstWhere (·.stop = t.size) 0).map (Match.toTree t name 0) = s.extents.outcome t name := by
  have hfind (matches' : List Match) : (matches'.map Match.extent).find? (·.stop = t.size) =
      (matches'.find? (·.stop = t.size)).map Match.extent :=
    List.find?_map
  rw [Search.firstWhere_eq, Listing.outcome, Search.extents, Listing.refusal_map,
    Listing.results_map, hfind]
  cases List.find? _ s.listing.results <;> rfl

/-- The parse tree of a text is the first match listed for the root that stops at the end
    of the text. -/
theorem Grammar.parse_eq (g : Grammar) (limit : Nat) (t : Text) :
    g.parse limit t =
      match (g.rules.listing t limit g.root 0).results.find? (·.stop = t.size) with
      | some e => .ok (e.toTree t g.root 0)
      | none => .error ((g.rules.listing t limit g.root 0).refusal 0) := by
  rw [parse, Search.toTree_firstWhere, Rules.extents_enter]
  rfl

/-- A text is refused as unmatched if the listing for the root is not broken off and nothing in
    it stops at the end of the text; the offset is the largest one reached. -/
theorem Grammar.parse_eq_unmatched_iff {g : Grammar} {limit furthest : Nat} {t : Text} :
    g.parse limit t = .error (.unmatched furthest) ↔
      (∀ e ∈ (g.rules.listing t limit g.root 0).results, e.stop ≠ t.size) ∧
        (g.rules.listing t limit g.root 0).halt? = none ∧
        furthest = Event.furthest (g.rules.listing t limit g.root 0).events := by
  have hfind : (g.rules.listing t limit g.root 0).results.find? (·.stop = t.size) = none ↔
      ∀ e ∈ (g.rules.listing t limit g.root 0).results, e.stop ≠ t.size := by
    rw [List.find?_eq_none]
    simp only [decide_eq_true_eq, ne_eq]
  rw [parse_eq, ← hfind, Listing.refusal]
  cases List.find? _ _ with
  | some e => simp
  | none => cases (g.rules.listing t limit g.root 0).halt? <;> simp [eq_comm]

/-- If a text is refused as the search breaks off, so does the listing for the root. -/
theorem Grammar.halt?_of_parse {g : Grammar} {limit furthest : Nat} {t : Text} {cause : Halt}
    (h : g.parse limit t = .error (.halted cause furthest)) :
    (g.rules.listing t limit g.root 0).halt? = some cause := by
  rw [parse_eq] at h
  split at h
  · cases h
  · rw [Listing.refusal] at h
    split at h
    · cases h
    · rename_i hhalt
      cases h
      exact hhalt

end Descent
