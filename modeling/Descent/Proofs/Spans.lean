import Descent.Proofs.Leaves

/-!
# Where matches and their nodes lie

A match goes on from its offset and stays inside of the text. The nodes of its references stand
between its two ends, from left to right and none of them over another one, and so do the children
of each node between the ends of the node (`Tree.AllPlaced`, `Derives.allPlaced`).

While a search goes on, the largest offset reached only grows, and stays inside of the text. No
match is found that stops behind it, unless the match is empty: what is not empty ends with a
terminal, which is reached before (`Listing.Grounded`). Both hold of all patterns, and of whatever is
parsed (`Rules.matches_placed`).
-/

namespace Descent

variable {rules : Rules} {t : Text}

/-! ## Nodes -/

namespace Tree

/-- The trees stand between the offsets `start` and `stop`, each of them behind the one before. -/
def Between : (start stop : Int) → (trees : List Tree) → Prop
  | start, stop, [] => start ≤ stop
  | start, stop, tree :: trees =>
    start ≤ tree.start ∧ tree.start ≤ tree.stop ∧ Between tree.stop stop trees

theorem Between.le {start stop : Int} {trees : List Tree} (h : Between start stop trees) :
    start ≤ stop := by
  induction trees generalizing start with
  | nil => exact h
  | cons tree trees ih =>
    obtain ⟨hstart, hle, hrest⟩ := h
    exact Int.le_trans hstart (Int.le_trans hle (ih hrest))

theorem Between.append {start mid stop : Int} {trees later : List Tree}
    (h : Between start mid trees) (hlater : Between mid stop later) :
    Between start stop (trees ++ later) := by
  induction trees generalizing start with
  | nil => cases later with
    | nil => exact Int.le_trans h hlater
    | cons tree later => exact ⟨Int.le_trans h hlater.1, hlater.2⟩
  | cons tree trees ih =>
    obtain ⟨hstart, hle, hrest⟩ := h
    exact ⟨hstart, hle, ih hrest⟩

/-- The node is of the text and of a rule, and its children stand between its ends. -/
structure Placed (rules : Rules) (t : Text) (node : Tree) : Prop where
  /-- The text that was parsed is `t`. -/
  source_eq : node.source = t
  /-- The rule is defined. -/
  defined : (rules.lookup node.name).isSome
  /-- The children stand between the ends of the node. -/
  between : Between node.start node.stop node.children

/-- The trees stand between two offsets, and all nodes in them are placed, however deep. -/
structure AllPlaced (rules : Rules) (t : Text) (start stop : Int) (trees : List Tree) : Prop where
  /-- The trees stand between the offsets. -/
  between : Between start stop trees
  /-- All nodes are placed. -/
  placed : ∀ node ∈ nodesOfAll trees, node.Placed rules t

namespace AllPlaced

variable {start mid stop : Int} {trees later : List Tree}

theorem nil (h : start ≤ stop) : AllPlaced rules t start stop [] := ⟨h, List.forall_mem_nil _⟩

theorem append (h : AllPlaced rules t start mid trees) (hlater : AllPlaced rules t mid stop later) :
    AllPlaced rules t start stop (trees ++ later) := by
  refine ⟨h.between.append hlater.between, ?_⟩
  rw [nodesOfAll_append]
  exact List.forall_mem_append.2 ⟨h.placed, hlater.placed⟩

theorem single {name : Word} (hname : (rules.lookup name).isSome)
    (h : AllPlaced rules t start stop trees) :
    AllPlaced rules t start stop [⟨name, t, start, stop, trees⟩] := by
  refine ⟨⟨Int.le_refl _, h.between.le, Int.le_refl _⟩, ?_⟩
  rw [nodesOfAll, nodesOfAll, List.append_nil, nodes_eq]
  exact List.forall_mem_cons.2 ⟨⟨rfl, hname, h.between⟩, h.placed⟩

end AllPlaced

end Tree

mutual

/-- What is derived is placed between the ends of the derivation. -/
theorem Derives.allPlaced {p : Pattern} {pos stop : Nat} {nodes : List Tree} :
    Derives rules t p pos stop nodes → Tree.AllPlaced rules t pos stop nodes
  | .literal _ => .nil (Int.ofNat_le.2 (Nat.le_add_right _ _))
  | .charClass _ _ => .nil (Int.ofNat_le.2 (Nat.le_succ _))
  | .sequence h => h.allPlaced
  | .choice _ h => h.allPlaced
  | .repetition h _ _ => h.allPlaced
  | .reference hp h => .single (Option.isSome_of_eq_some hp) h.allPlaced
  | .skip h => .nil (Int.ofNat_le.2 h.within.1)

theorem DerivesAll.allPlaced {items : List Pattern} {pos stop : Nat} {nodes : List Tree} :
    DerivesAll rules t items pos stop nodes → Tree.AllPlaced rules t pos stop nodes
  | .nil => .nil (Int.le_refl _)
  | .cons h rest => h.allPlaced.append rest.allPlaced

theorem DerivesTimes.allPlaced {item : Pattern} {n pos stop : Nat} {nodes : List Tree} :
    DerivesTimes rules t item n pos stop nodes → Tree.AllPlaced rules t pos stop nodes
  | .zero => .nil (Int.le_refl _)
  | .succ h _ rest => h.allPlaced.append rest.allPlaced

end

/-! ## Offsets reached -/

/-- The offsets reached are inside of a text of `size` characters. Every result stops at the offset
    `bound` or before, or no later than at the largest one reached before it. -/
def Event.Grounded (size : Nat) : (bound : Nat) → (events : List (Event Extent)) → Prop
  | _, [] => True
  | bound, .reach offset :: events => offset ≤ size ∧ Grounded size (max bound offset) events
  | bound, .found e :: events => e.stop ≤ bound ∧ Grounded size bound events

namespace Listing

/-- What happens in the listing is grounded. -/
def Grounded (size bound : Nat) (l : Listing Extent) : Prop := Event.Grounded size bound l.events

variable {size bound bound' : Nat} {e : Extent} {l m : Listing Extent}

@[simp] theorem grounded_nil : (nil : Listing Extent).Grounded size bound := trivial

@[simp] theorem grounded_halted (cause : Halt) :
    (halted cause : Listing Extent).Grounded size bound := trivial

@[simp] theorem grounded_single_iff : (single e).Grounded size bound ↔ e.stop ≤ bound :=
  and_iff_left trivial

namespace Grounded

theorem mono (h : l.Grounded size bound) (hle : bound ≤ bound') : l.Grounded size bound' := by
  induction l using cases_events generalizing bound bound' with
  | nil | halted => trivial
  | reach offset l ih => exact ⟨h.1, ih h.2 (by omega)⟩
  | found e l ih => exact ⟨Nat.le_trans h.1 hle, ih h.2 hle⟩

theorem append (hl : l.Grounded size bound) (hm : m.Grounded size bound) :
    (l ++ m).Grounded size bound := by
  induction l using cases_events generalizing bound with
  | nil => exact hm
  | halted => trivial
  | reach offset l ih =>
    rw [cons_append]
    exact ⟨hl.1, ih hl.2 (hm.mono (Nat.le_max_left _ _))⟩
  | found e l ih =>
    rw [cons_append]
    exact ⟨hl.1, ih hl.2 hm⟩

/-- What replaces a result goes on from where the result stops. -/
theorem bind {f : Extent → Listing Extent} (hl : l.Grounded size bound)
    (hf : ∀ e bound', e.stop ≤ bound' → (f e).Grounded size bound') :
    (l.bind f).Grounded size bound := by
  induction l using cases_events generalizing bound with
  | nil | halted => trivial
  | reach offset l ih => exact ⟨hl.1, ih hl.2⟩
  | found e l ih => exact (hf e _ hl.1).append (ih hl.2)

/-- Only the nodes are changed. -/
theorem map {f : Extent → Extent} (hl : l.Grounded size bound) (hf : ∀ e, (f e).stop = e.stop) :
    (l.map f).Grounded size bound :=
  hl.bind fun e _ he => grounded_single_iff.2 (Nat.le_trans (Nat.le_of_eq (hf e)) he)

theorem first {default : Extent} (hl : l.Grounded size bound) (hdefault : default.stop ≤ bound) :
    (l.first default).Grounded size bound := by
  induction l using cases_events generalizing bound with
  | nil => exact grounded_single_iff.2 hdefault
  | halted => trivial
  | reach offset l ih =>
    rw [first_cons_reach]
    exact ⟨hl.1, ih hl.2 (Nat.le_trans hdefault (Nat.le_max_left _ _))⟩
  | found e l =>
    rw [first_cons_found]
    exact grounded_single_iff.2 hl.1

/-- The largest offset reached in all is inside of the text, and no result stops behind it. -/
theorem furthest_le (h : l.Grounded size bound) : Event.furthest l.events ≤ size ∧
    ∀ e ∈ l.results, e.stop ≤ max bound (Event.furthest l.events) := by
  induction l using cases_events generalizing bound with
  | nil | halted => exact ⟨Nat.zero_le _, List.forall_mem_nil _⟩
  | reach offset l ih =>
    obtain ⟨hle, hstop⟩ := ih h.2
    rw [Nat.max_assoc] at hstop
    exact ⟨Nat.max_le.2 ⟨h.1, hle⟩, hstop⟩
  | found e l ih =>
    obtain ⟨hle, hstop⟩ := ih h.2
    exact ⟨hle, List.forall_mem_cons.2 ⟨Nat.le_trans h.1 (Nat.le_max_left _ _), hstop⟩⟩

end Grounded

theorem furthest_refusal {α : Type} (furthest : Nat) (l : Listing α) :
    (l.refusal furthest).furthest = max furthest (Event.furthest l.events) := by
  rw [refusal]
  split <;> rfl

end Listing

namespace Pattern

theorem grounded_terminal {size stop bound : Nat} (h : stop ≤ size) :
    (terminal stop).Grounded size bound :=
  ⟨h, Listing.grounded_single_iff.2 (Nat.le_max_right _ _)⟩

theorem grounded_repeats {size : Nat} {item : Nat → Listing Extent}
    (hitem : ∀ pos bound, pos ≤ bound → (item pos).Grounded size bound) (minimum : Int)
    (maximum : Option Int) (count pos bound : Nat) (hpos : pos ≤ bound) :
    (repeats size item minimum maximum count pos).Grounded size bound := by
  -- The bound grows with what an item reaches, and the next item starts no later than there.
  induction h : size - pos using Nat.strongRecOn generalizing count pos bound with
  | ind n ih =>
    rw [repeats]
    refine .append ?_ ?_
    · split
      · exact Listing.grounded_nil
      · refine (hitem pos bound hpos).bind fun e bound' he => ?_
        split
        · exact (ih (size - e.stop) (by omega) (count + 1) e.stop bound' he rfl).map fun _ => rfl
        · exact Listing.grounded_nil
    · split
      · exact Listing.grounded_single_iff.2 hpos
      · exact Listing.grounded_nil

section

variable {enter : Word → Nat → Listing Extent}

mutual

/-- A pattern is grounded from its offset on if rules are. -/
theorem grounded_listing
    (henter : ∀ name pos bound, pos ≤ bound → (enter name pos).Grounded t.size bound) :
    ∀ (p : Pattern) (pos bound : Nat), pos ≤ bound → (p.listing t enter pos).Grounded t.size bound
  | .literal word, pos, bound, _ => by
    rw [listing]
    split
    · rename_i h
      exact grounded_terminal (Text.holds_le h)
    · exact Listing.grounded_nil
  | .charClass k, pos, bound, _ => by
    rw [listing]
    split
    · rename_i h
      exact grounded_terminal (lt_size_of_any h)
    · exact Listing.grounded_nil
  | .sequence items, pos, bound, hpos => grounded_listingAll henter items pos bound hpos
  | .choice alternatives, pos, bound, hpos => grounded_listingAny henter alternatives pos bound hpos
  | .repetition item minimum maximum, pos, bound, hpos =>
    grounded_repeats (grounded_listing henter item) minimum maximum 0 pos bound hpos
  | .reference name, pos, bound, hpos => (henter name pos bound hpos).map fun _ => rfl
  | .skip name, pos, bound, hpos => by
    rw [listing]
    exact .first (.map (henter name pos bound hpos) fun _ => rfl) hpos

theorem grounded_listingAll
    (henter : ∀ name pos bound, pos ≤ bound → (enter name pos).Grounded t.size bound) :
    ∀ (items : List Pattern) (pos bound : Nat), pos ≤ bound →
      (listingAll t enter items pos).Grounded t.size bound
  | [], _, _, hpos => Listing.grounded_single_iff.2 hpos
  | item :: items, pos, bound, hpos =>
    (grounded_listing henter item pos bound hpos).bind fun e bound' he =>
      (grounded_listingAll henter items e.stop bound' he).map fun _ => rfl

theorem grounded_listingAny
    (henter : ∀ name pos bound, pos ≤ bound → (enter name pos).Grounded t.size bound) :
    ∀ (alternatives : List Pattern) (pos bound : Nat), pos ≤ bound →
      (listingAny t enter alternatives pos).Grounded t.size bound
  | [], _, _, _ => Listing.grounded_nil
  | p :: ps, pos, bound, hpos =>
    (grounded_listing henter p pos bound hpos).append (grounded_listingAny henter ps pos bound hpos)

end

end

end Pattern

theorem Rules.grounded_listing (rules : Rules) (t : Text) (limit : Nat) (name : Word)
    (pos bound : Nat) (hpos : pos ≤ bound) :
    (rules.listing t limit name pos).Grounded t.size bound := by
  induction limit generalizing name pos bound with
  | zero =>
    rw [listing]
    split <;> exact Listing.grounded_halted _
  | succ limit ih =>
    rw [listing]
    split
    · exact Listing.grounded_halted _
    · exact Pattern.grounded_listing ih _ pos bound hpos

/-! ## Taking matches -/

namespace Search

namespace Taken

/-- The largest offset reached as it was at first, when each of the results was found, and in the
    end, unless the search broke off. -/
def progress {α : Type} (furthest : Nat) (taken : Taken α) : List Nat :=
  furthest :: (taken.results.map (·.2) ++ taken.ending.toOption.toList)

/-- Matches at the offset `pos` of a text of `size` characters are taken without getting beyond what
    is reached, where `furthest` is the largest offset reached before. -/
structure Grounded (size pos furthest : Nat) (taken : Taken Match) : Prop where
  /-- A match stops at its offset, or no later than at the largest offset reached before. -/
  stop_le : ∀ r ∈ taken.results, r.1.stop ≤ max pos r.2
  /-- The largest offset reached never decreases. -/
  grows : (taken.progress furthest).Pairwise (· ≤ ·)
  /-- It stays inside of the text. -/
  le_size : ∀ offset ∈ taken.progress furthest, offset ≤ max furthest size

namespace Grounded

variable {size pos furthest : Nat} {taken : Taken Match}

/-- No matches are taken. -/
theorem stopped : Grounded size pos furthest ⟨[], .ok furthest⟩ where
  stop_le := List.forall_mem_nil _
  grows := List.pairwise_pair.2 (Nat.le_refl furthest)
  le_size := List.forall_mem_cons.2
    ⟨Nat.le_max_left _ _, List.forall_mem_singleton.2 (Nat.le_max_left _ _)⟩

/-- The search breaks off at once. -/
theorem broken (cause : Halt) : Grounded size pos furthest ⟨[], .error cause⟩ where
  stop_le := List.forall_mem_nil _
  grows := List.pairwise_singleton _ furthest
  le_size := List.forall_mem_singleton.2 (Nat.le_max_left _ _)

/-- An offset of the text is reached before. -/
theorem reach {offset : Nat} (hoffset : offset ≤ size)
    (h : Grounded size pos (max furthest offset) taken) : Grounded size pos furthest taken := by
  have hgrows := List.pairwise_cons.1 h.grows
  have hle_size := List.forall_mem_cons.1 h.le_size
  refine ⟨h.stop_le, List.pairwise_cons.2 ⟨fun last hlast => ?_, hgrows.2⟩,
    List.forall_mem_cons.2 ⟨Nat.le_max_left _ _, fun last hlast => ?_⟩⟩
  · exact Nat.le_trans (Nat.le_max_left _ _) (hgrows.1 last hlast)
  · have := hle_size.2 last hlast
    omega

/-- One more match is taken before. -/
theorem found {m : Match} (hm : m.stop ≤ max pos furthest) (h : Grounded size pos furthest taken) :
    Grounded size pos furthest ⟨(m, furthest) :: taken.results, taken.ending⟩ := by
  refine ⟨List.forall_mem_cons.2 ⟨hm, h.stop_le⟩, List.pairwise_cons.2 ⟨?_, h.grows⟩,
    List.forall_mem_cons.2 ⟨Nat.le_max_left _ _, h.le_size⟩⟩
  exact List.forall_mem_cons.2 ⟨Nat.le_refl _, (List.pairwise_cons.1 h.grows).1⟩

end Grounded

end Taken

/-- From a grounded search, matches are taken without getting beyond what is reached. -/
theorem take_grounded {s : Search Match} {size pos furthest : Nat}
    (h : s.extents.Grounded size (max pos furthest)) (limit : Nat) :
    (s.take furthest limit).Grounded size pos furthest := by
  induction s generalizing furthest limit with
  | done => cases limit <;> exact .stopped
  | halt cause => cases limit with
    | zero => exact .stopped
    | succ limit => exact .broken cause
  | reach offset rest ih => cases limit with
    | zero => exact .stopped
    | succ limit =>
      obtain ⟨hoffset, hrest⟩ := h
      rw [Nat.max_assoc] at hrest
      exact .reach hoffset (ih () hrest (limit + 1))
  | found m rest ih =>
    obtain ⟨hm, hrest⟩ := h
    rcases limit with _ | _ | limit
    · exact .stopped
    · exact .found hm .stopped
    · exact .found hm (ih () hrest (limit + 1))

end Search

/-! ## Matches -/

/-- A match that was found at the offset `pos` goes on from there inside of the text, and its nodes
    are placed between its ends. -/
structure Match.Placed (rules : Rules) (t : Text) (pos : Nat) (m : Match) : Prop where
  /-- It does not go back. -/
  le_stop : pos ≤ m.stop
  /-- It does not go beyond the end of the text. -/
  stop_le : pos ≤ t.size → m.stop ≤ t.size
  /-- Behind the end of the text, it is empty. -/
  stop_eq : t.size < pos → m.stop = pos
  /-- The nodes are placed between its ends. -/
  nodes : Tree.AllPlaced rules t pos m.stop m.nodes

namespace Rules

theorem grounded_enter (rules : Rules) (t : Text) (limit : Nat) (name : Word) (pos bound : Nat)
    (hpos : pos ≤ bound) : (rules.enter t limit name pos).extents.Grounded t.size bound := by
  rw [extents_enter]
  exact rules.grounded_listing t limit name pos bound hpos

/-- Every match of a pattern is placed. -/
theorem placed_of_mem_search {limit pos : Nat} {p : Pattern} {m : Match}
    (hm : m ∈ (p.search t (rules.enter t limit) pos).listing.results) : m.Placed rules t pos := by
  have hlisted : m.extent ∈ (p.listing t (rules.listing t limit) pos).results := by
    rw [← p.extents_search (rules.extents_enter t limit) (rules.within_listing t limit),
      Search.extents, Listing.results_map]
    exact List.mem_map_of_mem hm
  have hderives := p.derives_of_mem_listing (fun _ _ _ => Rules.derives_of_mem_listing) pos _ hlisted
  obtain ⟨hle, hstop⟩ := hderives.within
  rw [Match.extent_stop] at hle hstop
  exact ⟨hle, fun hpos => by omega, fun hpos => by omega, hderives.allPlaced⟩

/-- Whatever pattern is searched for from whatever offset, all matches that are taken are placed,
    and are taken without getting beyond what is reached. In particular, no match of a root stops
    behind the largest offset reached before it. If a text is parsed, the tree is placed in it, and
    if it is refused, that is inside of the text, and not before the end of any match of the
    root. -/
theorem matches_placed (rules : Rules) (t : Text) (limit : Nat) :
    (∀ (p : Pattern) (pos furthest n : Nat),
      let taken := (p.search t (rules.enter t limit) pos).take furthest n
      (∀ r ∈ taken.results, r.1.Placed rules t pos) ∧ taken.Grounded t.size pos furthest) ∧
    ∀ root : Word,
      (∀ n, ∀ r ∈ ((rules.enter t limit root 0).take 0 n).results, r.1.stop ≤ r.2) ∧
      match Grammar.parse ⟨rules, root⟩ limit t with
      | .ok tree => Tree.AllPlaced rules t 0 t.size [tree]
      | .error refusal => refusal.furthest ≤ t.size ∧
        ∀ m ∈ (rules.enter t limit root 0).listing.results, m.stop ≤ refusal.furthest := by
  refine ⟨fun p pos furthest n => ⟨fun r hr => ?_, ?_⟩, fun root => ⟨fun n r hr => ?_, ?_⟩⟩
  · exact placed_of_mem_search (Search.mem_listing_of_mem_take hr)
  · refine Search.take_grounded ?_ n
    rw [p.extents_search (rules.extents_enter t limit) (rules.within_listing t limit)]
    exact p.grounded_listing (rules.grounded_listing t limit) pos _ (Nat.le_max_left _ _)
  · have hgrounded : ((rules.enter t limit root 0).take 0 n).Grounded t.size 0 0 :=
      Search.take_grounded (rules.grounded_enter t limit root 0 (max 0 0) (Nat.zero_le _)) n
    simpa using hgrounded.stop_le r hr
  · split
    · rename_i tree htree
      exact (Grammar.derivation_of_parse htree).allPlaced
    · rename_i refusal hrefusal
      have hfurthest := (rules.grounded_listing t limit root 0 0 (Nat.le_refl _)).furthest_le
      rw [← rules.extents_enter, Search.extents, Listing.furthest_map, Listing.results_map,
        List.forall_mem_map] at hfurthest
      have heq : refusal = (rules.enter t limit root 0).listing.refusal 0 := by
        rw [Grammar.parse_eq, ← rules.extents_enter, Search.extents, Listing.refusal_map] at hrefusal
        split at hrefusal
        · cases hrefusal
        · exact (Except.error.inj hrefusal).symm
      simpa only [heq, Listing.furthest_refusal, Nat.zero_max, Match.extent_stop] using hfurthest

/-- The rules of `root ::= word+; word ::= [a-z];`. -/
def words : Rules :=
  [("root".toList, .repetition (.reference "word".toList) 1 none),
    ("word".toList, .charClass ⟨[('a', 'z')], false⟩)]

/-- The tree of `abc`. -/
def wordTree : Tree :=
  let word (start : Int) : Tree := ⟨"word".toList, #['a', 'b', 'c'], start, start + 1, []⟩
  ⟨"root".toList, #['a', 'b', 'c'], 0, 3, [word 0, word 1, word 2]⟩

/-- Three words are placed one behind the other. -/
theorem matches_placed_words :
    let taken := ((Pattern.reference "root".toList).search #['a', 'b', 'c']
      (words.enter #['a', 'b', 'c'] 9) 0).take 0 1
    taken.results = [(⟨3, [wordTree]⟩, 3)] ∧ Match.Placed words #['a', 'b', 'c'] 0 ⟨3, [wordTree]⟩ ∧
    Grammar.parse ⟨words, "root".toList⟩ 9 #['a', 'b', 'c'] = .ok wordTree ∧
    Tree.AllPlaced words #['a', 'b', 'c'] 0 3 [wordTree] := by
  obtain ⟨hsearch, hroot⟩ := matches_placed words #['a', 'b', 'c'] 9
  refine ⟨rfl, (hsearch (.reference "root".toList) 0 0 1).1 (⟨3, [wordTree]⟩, 3) ?_, rfl,
    (hroot "root".toList).2⟩
  exact List.mem_singleton_self _

end Rules

end Descent
