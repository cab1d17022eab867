import Descent.Proofs.Furthest
import Descent.Proofs.Locality

/-!
# What stands behind a match

Without skips, what a pattern derives only depends on the characters that are covered. A derivation
in one text is one in every other text in which the same words stand, up to where the derivation
stops (`Text.CarriesOver`, `Derives.carry`), with nodes that tell the other text as their source
(`Tree.withSource`).

So matches do not depend on what stands behind them. The search looks at it all the same: it tries
longer matches first, which come to nothing in a shorter text. But a search that is not broken off
in a text is not broken off in any beginning of it (`Rules.halt?_of_carriesOver`), and finds in that
beginning exactly the matches that stop there (`Rules.matches_contextFree`).

A skip is different: it goes to the end of the first match of its rule, and that may be another
match in a longer text.
-/

namespace Descent

/-! ## Nodes of another text -/

namespace Tree

mutual

/-- The tree, told to be parsed from the text `t`. -/
def withSource (t : Text) : Tree → Tree
  | ⟨name, _, start, stop, children⟩ => ⟨name, t, start, stop, withSourceAll t children⟩

/-- The trees of a list, told to be parsed from the text `t`. -/
def withSourceAll (t : Text) : List Tree → List Tree
  | [] => []
  | tree :: trees => tree.withSource t :: withSourceAll t trees

end

theorem withSourceAll_append (t : Text) (trees later : List Tree) :
    withSourceAll t (trees ++ later) = withSourceAll t trees ++ withSourceAll t later := by
  induction trees with
  | nil => rfl
  | cons tree trees ih =>
    rw [List.cons_append, withSourceAll, ih, withSourceAll, List.cons_append]

mutual

/-- Only the last source counts. -/
theorem withSource_withSource (t t' : Text) : ∀ tree : Tree,
    (tree.withSource t).withSource t' = tree.withSource t'
  | ⟨name, _, start, stop, children⟩ => by
    rw [withSource, withSource, withSourceAll_withSourceAll t t' children, withSource]

theorem withSourceAll_withSourceAll (t t' : Text) : ∀ trees : List Tree,
    withSourceAll t' (withSourceAll t trees) = withSourceAll t' trees
  | [] => rfl
  | tree :: trees => by
    rw [withSourceAll, withSourceAll, withSource_withSource t t' tree,
      withSourceAll_withSourceAll t t' trees, withSourceAll]

end

end Tree

/-! ## Words in another text -/

namespace Text

/-- The words that stand in the text `t`, and stop at the offset `n` or before, stand in the text
    `t'`, too. -/
def CarriesOver (n : Nat) (t t' : Text) : Prop :=
  ∀ (word : Word) (pos : Nat), pos + word.length ≤ n → t.holds word pos → t'.holds word pos

theorem agree_extract (t : Text) (stop : Nat) :
    Agree (min stop t.size) (t.extract 0 stop) t := by
  intro i hi
  rw [Array.getElem?_extract, if_pos (by omega), Nat.zero_add]

/-- The words of a text that stop inside of a beginning stand in the beginning. -/
theorem carriesOver_extract (t : Text) (stop : Nat) : CarriesOver stop t (t.extract 0 stop) := by
  intro word pos hpos h
  rwa [← (t.agree_extract stop).holds_eq (Nat.le_min.2 ⟨hpos, Text.holds_le h⟩)]

/-- The words of a beginning of a text stand in the text. -/
theorem carriesOver_of_extract (n : Nat) (t : Text) (stop : Nat) :
    CarriesOver n (t.extract 0 stop) t := by
  intro word pos _ h
  have hpos := Text.holds_le h
  rw [Array.size_extract, Nat.sub_zero] at hpos
  rwa [(t.agree_extract stop).holds_eq hpos]

theorem holds_char_iff {t : Text} {c : Char} {pos : Nat} : t.holds [c] pos ↔ t[pos]? = some c := by
  rw [holds, holds, Bool.and_eq_true, beq_iff_eq, decide_eq_true_eq]
  exact and_iff_left_of_imp fun h => (Array.getElem?_eq_some_iff.1 h).1

end Text

/-! ## Patterns without skips -/

/-- Nothing is skipped in the pattern. -/
def Pattern.Skipless (p : Pattern) : Prop := ∀ name, .skip name ∉ p.leaves

namespace Pattern.Skipless

variable {p : Pattern} {ps : List Pattern}

theorem choice (h : (Pattern.choice ps).Skipless) (hp : p ∈ ps) : p.Skipless :=
  fun name hname => h name (mem_leavesOfAll.2 ⟨p, hp, hname⟩)

theorem head (h : (Pattern.sequence (p :: ps)).Skipless) : p.Skipless :=
  fun name hname => h name (List.mem_append_left _ hname)

theorem tail (h : (Pattern.sequence (p :: ps)).Skipless) : (Pattern.sequence ps).Skipless :=
  fun name hname => h name (List.mem_append_right _ hname)

theorem of_lookup {rules : Rules} {name : Word} (h : rules.Skipless)
    (hp : rules.lookup name = some p) : p.Skipless :=
  h _ (Rules.mem_of_lookup hp)

end Pattern.Skipless

/-! ## Derivations in another text -/

section

variable {rules : Rules} {t t' : Text} {n : Nat}

mutual

/-- A derivation carries over to another text with the words that it covers. -/
theorem Derives.carry (hrules : rules.Skipless) (ht : Text.CarriesOver n t t') {p : Pattern}
    {pos stop : Nat} {nodes : List Tree} : Derives rules t p pos stop nodes → p.Skipless →
    stop ≤ n → Derives rules t' p pos stop (Tree.withSourceAll t' nodes)
  | .literal h, _, hstop => .literal (ht _ _ hstop h)
  | .charClass h hc, _, hstop =>
    .charClass (Text.holds_char_iff.1 (ht [_] _ hstop (Text.holds_char_iff.2 h))) hc
  | .sequence h, hp, hstop => .sequence (h.carry hrules ht hp hstop)
  | .choice hmem h, hp, hstop => .choice hmem (h.carry hrules ht (hp.choice hmem) hstop)
  | .repetition h hmin hmax, hp, hstop => .repetition (h.carry hrules ht hp hstop) hmin hmax
  | .reference hlookup h, _, hstop =>
    .reference hlookup (h.carry hrules ht (.of_lookup hrules hlookup) hstop)
  | .skip _, hp, _ => absurd (List.mem_singleton_self _) (hp _)

theorem DerivesAll.carry (hrules : rules.Skipless) (ht : Text.CarriesOver n t t')
    {items : List Pattern} {pos stop : Nat} {nodes : List Tree} :
    DerivesAll rules t items pos stop nodes → (Pattern.sequence items).Skipless → stop ≤ n →
      DerivesAll rules t' items pos stop (Tree.withSourceAll t' nodes)
  | .nil, _, _ => .nil
  | .cons h rest, hp, hstop => by
    rw [Tree.withSourceAll_append]
    exact .cons (h.carry hrules ht hp.head (Nat.le_trans rest.within.1 hstop))
      (rest.carry hrules ht hp.tail hstop)

theorem DerivesTimes.carry (hrules : rules.Skipless) (ht : Text.CarriesOver n t t') {item : Pattern}
    {count pos stop : Nat} {nodes : List Tree} :
    DerivesTimes rules t item count pos stop nodes → item.Skipless → stop ≤ n →
      DerivesTimes rules t' item count pos stop (Tree.withSourceAll t' nodes)
  | .zero, _, _ => .zero
  | .succ h hlt rest, hp, hstop => by
    rw [Tree.withSourceAll_append]
    exact .succ (h.carry hrules ht hp (Nat.le_trans rest.within.1 hstop)) hlt
      (rest.carry hrules ht hp hstop)

end

mutual

/-- What is tried in a text is tried in every text in which the same words stand. -/
theorem Attempts.carry (hrules : rules.Skipless) (ht : ∀ n, Text.CarriesOver n t t') {p q : Pattern}
    {pos mid : Nat} : Attempts rules t p pos q mid → p.Skipless → Attempts rules t' p pos q mid
  | .leaf hq, _ => .leaf hq
  | .sequence h, hp => .sequence (h.carry hrules ht hp)
  | .choice hmem h, hp => .choice hmem (h.carry hrules ht (hp.choice hmem))
  | .repetition before hmax h, hp =>
    .repetition (before.carry hrules (ht _) hp (Nat.le_refl _)) hmax (h.carry hrules ht hp)

theorem AttemptsAll.carry (hrules : rules.Skipless) (ht : ∀ n, Text.CarriesOver n t t')
    {items : List Pattern} {q : Pattern} {pos mid : Nat} : AttemptsAll rules t items pos q mid →
    (Pattern.sequence items).Skipless → AttemptsAll rules t' items pos q mid
  | .head h, hp => .head (h.carry hrules ht hp.head)
  | .tail before h, hp =>
    .tail (before.carry hrules (ht _) hp.head (Nat.le_refl _)) (h.carry hrules ht hp.tail)

end

end

/-! ## Searching a beginning -/

section

variable {rules : Rules} {t t' : Text} {limit : Nat}

/-- A search for a pattern is not broken off in a text if it is not in another one, in which the
    words of the text stand, provided that this holds of the rules. -/
theorem Pattern.halt?_of_carriesOver (hrules : rules.Skipless) (ht : ∀ n, Text.CarriesOver n t t')
    (henter : ∀ name pos, (rules.listing t' limit name pos).halt? = none →
      (rules.listing t limit name pos).halt? = none) {p : Pattern} (hp : p.Skipless) {pos : Nat}
    (h : (p.listing t' (rules.listing t' limit) pos).halt? = none) :
    (p.listing t (rules.listing t limit) pos).halt? = none := by
  rw [Option.eq_none_iff_forall_ne_some]
  intro cause hcause
  -- The search breaks off in a leaf, which is tried in the other text, too.
  obtain ⟨q, mid, hq, hcause⟩ := p.exists_attempts (s := .halted cause) hcause
  obtain ⟨hnone, -⟩ := (hq.carry hrules ht hp).reached_subset h
  have hleaf := hq.isLeaf
  cases q with
  | literal word =>
    rw [listing] at hcause
    split at hcause <;> cases hcause
  | charClass k =>
    rw [listing] at hcause
    split at hcause <;> cases hcause
  | reference name =>
    rw [listing, Listing.halt?_map] at hnone
    cases (henter name mid hnone).symm.trans (Listing.shows_map_iff.1 hcause)
  | skip name => exact hp name hq.mem_leaves
  | sequence | choice | repetition => cases hleaf

/-- A search for a rule is not broken off in a text if it is not in another one, in which the words
    of the text stand. -/
theorem Rules.halt?_of_carriesOver (hrules : rules.Skipless) (ht : ∀ n, Text.CarriesOver n t t')
    {name : Word} {pos : Nat} (h : (rules.listing t' limit name pos).halt? = none) :
    (rules.listing t limit name pos).halt? = none := by
  induction limit generalizing name pos with
  | zero =>
    rw [listing] at h
    split at h <;> cases h
  | succ limit ih =>
    rw [listing] at h ⊢
    split at h
    · cases h
    · rename_i p hp
      exact Pattern.halt?_of_carriesOver hrules ht (fun _ _ => ih) (.of_lookup hrules hp) h

end

/-! ## Matches -/

/-- Among the matches of the pattern at the offset `pos`, there is one that stops at the offset
    `stop` and has the nodes, whatever the sources of the nodes are. -/
def Rules.Finds (rules : Rules) (t : Text) (limit : Nat) (p : Pattern) (pos stop : Nat)
    (nodes : List Tree) : Prop :=
  ∃ m ∈ (p.search t (rules.enter t limit) pos).listing.results,
    m.stop = stop ∧ Tree.withSourceAll #[] m.nodes = Tree.withSourceAll #[] nodes

namespace Rules

variable {rules : Rules} {t t' : Text} {limit pos stop : Nat} {p : Pattern} {nodes : List Tree}

theorem halt?_search : (p.search t (rules.enter t limit) pos).listing.halt? =
    (p.listing t (rules.listing t limit) pos).halt? := by
  rw [← p.extents_search (rules.extents_enter t limit) (rules.within_listing t limit),
    Search.extents, Listing.halt?_map]

/-- A search that is not broken off finds what is derived. -/
theorem finds_iff (h : (p.search t (rules.enter t limit) pos).listing.halt? = none) :
    rules.Finds t limit p pos stop nodes ↔ ∃ nodes', Derives rules t p pos stop nodes' ∧
      Tree.withSourceAll #[] nodes' = Tree.withSourceAll #[] nodes := by
  rw [halt?_search] at h
  have hresults := congrArg Listing.results
    (p.extents_search (rules.extents_enter t limit) (rules.within_listing t limit) pos)
  rw [Search.extents, Listing.results_map] at hresults
  constructor
  · rintro ⟨m, hm, rfl, hnodes⟩
    have hlisted := hresults ▸ List.mem_map_of_mem (f := Match.extent) hm
    exact ⟨m.nodes, p.derives_of_mem_listing (fun _ _ _ => derives_of_mem_listing) pos _ hlisted,
      hnodes⟩
  · rintro ⟨nodes', hderives, hnodes⟩
    obtain ⟨m, hm, hextent⟩ := List.mem_map.1 (hresults ▸ hderives.mem_listing limit h)
    refine ⟨m, hm, congrArg Extent.stop hextent, ?_⟩
    rw [← hnodes]
    exact congrArg (fun e : Extent => Tree.withSourceAll #[] e.nodes) hextent

/-- What is found in a text is found in another one in which the same words stand. -/
theorem Finds.carry (hrules : rules.Skipless) (hp : p.Skipless) (ht : Text.CarriesOver stop t t')
    (h : (p.search t (rules.enter t limit) pos).listing.halt? = none)
    (h' : (p.search t' (rules.enter t' limit) pos).listing.halt? = none)
    (hfinds : rules.Finds t limit p pos stop nodes) : rules.Finds t' limit p pos stop nodes := by
  obtain ⟨nodes', hderives, hnodes⟩ := (finds_iff h).1 hfinds
  refine (finds_iff h').2 ⟨_, hderives.carry hrules ht hp (Nat.le_refl _), ?_⟩
  rw [Tree.withSourceAll_withSourceAll, hnodes]

/-- Without skips, matches do not depend on what stands behind them. If the search for a pattern is
    not broken off in a text, it is not broken off in a beginning of the text either, and it finds
    the same matches that stop at the end of the beginning, with the same nodes, sources aside. -/
theorem matches_contextFree (hrules : rules.Skipless) (hp : p.Skipless)
    (h : (p.search t (rules.enter t limit) pos).listing.halt? = none) (stop : Nat) :
    let beginning := t.extract 0 stop
    (p.search beginning (rules.enter beginning limit) pos).listing.halt? = none ∧
      ∀ nodes, rules.Finds t limit p pos stop nodes ↔
        rules.Finds beginning limit p pos stop nodes := by
  intro beginning
  have h' : (p.search beginning (rules.enter beginning limit) pos).listing.halt? = none := by
    rw [halt?_search] at h ⊢
    have ht (n : Nat) := t.carriesOver_of_extract n stop
    exact Pattern.halt?_of_carriesOver hrules ht (fun _ _ => halt?_of_carriesOver hrules ht) hp h
  refine ⟨h', fun nodes => ⟨?_, ?_⟩⟩
  · exact Finds.carry hrules hp (t.carriesOver_extract stop) h h'
  · exact Finds.carry hrules hp (t.carriesOver_of_extract stop stop) h' h

/-- In `yzyz`, the second repetition of `b ::= 'y' 'z' | 'y';` may stop before the last character,
    and it is found where the text ends there, too. -/
theorem matches_contextFree_pairs :
    let p : Pattern := .repetition (.reference ['b']) 0 none
    let nodes : List Tree := [⟨['b'], #[], 0, 2, []⟩, ⟨['b'], #[], 2, 3, []⟩]
    let t : Text := #['y', 'z', 'y', 'z']
    Grammar.pairs.rules.Skipless ∧ p.Skipless ∧
      (p.search t (Grammar.pairs.rules.enter t 9) 0).listing.halt? = none ∧
      Grammar.pairs.rules.Finds t 9 p 0 3 nodes ∧
      Grammar.pairs.rules.Finds #['y', 'z', 'y'] 9 p 0 3 nodes := by
  intro p nodes t
  have hrules : Grammar.pairs.rules.Skipless := by
    simp [Skipless, Grammar.pairs, Pattern.leaves, Pattern.leavesOfAll]
  have hp : p.Skipless := by simp [p, Pattern.Skipless, Pattern.leaves]
  have h : (p.search t (Grammar.pairs.rules.enter t 9) 0).listing.halt? = none := rfl
  have hlong : Derives Grammar.pairs.rules t (.reference ['b']) 0 2 [⟨['b'], t, 0, 2, []⟩] :=
    .reference rfl (.choice (.head _)
      (.sequence (.cons (.literal rfl) (.cons (.literal rfl) .nil))))
  have hshort : Derives Grammar.pairs.rules t (.reference ['b']) 2 3 [⟨['b'], t, 2, 3, []⟩] :=
    .reference rfl (.choice (.tail _ (.head _)) (.literal rfl))
  have htimes : DerivesTimes Grammar.pairs.rules t (.reference ['b']) 2 0 3
      [⟨['b'], t, 0, 2, []⟩, ⟨['b'], t, 2, 3, []⟩] :=
    .succ hlong (by decide) (.succ hshort (by decide) .zero)
  have hfinds : Grammar.pairs.rules.Finds t 9 p 0 3 nodes :=
    (finds_iff h).2 ⟨_, .repetition htimes (by decide) (by simp), rfl⟩
  exact ⟨hrules, hp, h, hfinds, ((matches_contextFree hrules hp h 3).2 nodes).1 hfinds⟩

end Rules

end Descent
