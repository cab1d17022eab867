import Descent.Proofs.Description.Blocks
import Mathlib.Order.Bounds.Basic

/-!
# The offset of a refusal

A search that is not broken off tries whatever a partial derivation comes to, as it has every
derivation of what stands before (`Attempts.reached_subset`). So it reaches the end of every
terminal that a partial derivation comes to, unless that stands in a rule that is only skipped: a
skip goes on to the first match of its rule, and leaves the others untried.

In a description without blocks, nothing is skipped. Then a text is refused at the largest offset
that a partial derivation of the root reaches (`Grammar.furthest_isGreatest`).
-/

namespace Descent

variable {rules : Rules} {t : Text} {limit : Nat}

/-! ## Everything is tried -/

/-- What one alternative reaches is reached by a choice that is not broken off. -/
theorem Pattern.reached_subset_listingAny {enter : Word → Nat → Listing Extent} {p : Pattern}
    {ps : List Pattern} {pos : Nat} (hp : p ∈ ps) (hhalt : (listingAny t enter ps pos).halt? = none) :
    (p.listing t enter pos).reached ⊆ (listingAny t enter ps pos).reached := by
  induction hp with
  | head ps =>
    rw [listingAny, Listing.reached_append (Listing.halt?_append_eq_none.1 hhalt).1]
    exact List.subset_append_left _ _
  | tail q _ ih =>
    obtain ⟨hq, hps⟩ := Listing.halt?_append_eq_none.1 hhalt
    rw [listingAny, Listing.reached_append hq]
    exact List.subset_append_of_subset_right _ (ih hps)

/-- A repetition that is not broken off, and is below its maximum, tries its item, and then further
    repetitions after every match of it that is not empty. -/
theorem Pattern.reached_repeats {size : Nat} {item : Nat → Listing Extent}
    (hwithin : Within size item) {minimum : Int} {maximum : Option Int} {count pos : Nat}
    (hmax : ∀ bound ∈ maximum, (count : Int) < bound)
    (hhalt : (repeats size item minimum maximum count pos).halt? = none) :
    ((item pos).halt? = none ∧
      (item pos).reached ⊆ (repeats size item minimum maximum count pos).reached) ∧
    ∀ e ∈ (item pos).results, pos < e.stop →
      (repeats size item minimum maximum (count + 1) e.stop).halt? = none ∧
        (repeats size item minimum maximum (count + 1) e.stop).reached ⊆
          (repeats size item minimum maximum count pos).reached := by
  rw [repeats_eq hwithin minimum maximum count pos, if_neg (lt_maximum_iff.2 hmax)] at hhalt ⊢
  have hbind := (Listing.halt?_append_eq_none.1 hhalt).1
  obtain ⟨hitem, hrest⟩ := Listing.halt?_bind_eq_none.1 hbind
  rw [Listing.reached_append hbind]
  refine ⟨⟨hitem, fun offset hoffset => List.mem_append_left _ ?_⟩, fun e he hlt => ?_⟩
  · exact (Listing.mem_reached_bind_iff hbind).2 (.inl hoffset)
  · have hlater := hrest e he
    rw [if_pos hlt, Listing.halt?_map] at hlater
    refine ⟨hlater, fun offset hoffset => List.mem_append_left _ ?_⟩
    refine (Listing.mem_reached_bind_iff hbind).2 (.inr ⟨e, he, ?_⟩)
    rwa [if_pos hlt, Listing.reached_map]

/-- A repetition that is not broken off tries its item after as many repetitions as there are, below
    the maximum. -/
theorem DerivesTimes.reached_subset {item : Pattern} {minimum : Int} {maximum : Option Int}
    {n pos start : Nat} {nodes : List Tree} : DerivesTimes rules t item n pos start nodes →
    ∀ count, (∀ bound ∈ maximum, ((count + n : Nat) : Int) < bound) →
      let repeats := Pattern.repeats t.size (item.listing t (rules.listing t limit)) minimum maximum
      (repeats count pos).halt? = none →
      (item.listing t (rules.listing t limit) start).halt? = none ∧
        (item.listing t (rules.listing t limit) start).reached ⊆ (repeats count pos).reached
  | .zero, count, hmax, hhalt =>
    (Pattern.reached_repeats (item.within_listing (rules.within_listing t limit)) hmax hhalt).1
  | .succ h hlt rest, count, hmax, hhalt => by
    have hbound : ∀ bound ∈ maximum, (count : Int) < bound := fun bound hb => by
      have := hmax bound hb
      omega
    obtain ⟨⟨hitem, -⟩, hlater⟩ := Pattern.reached_repeats
      (item.within_listing (rules.within_listing t limit)) hbound hhalt
    obtain ⟨hnone, hsubset⟩ := hlater _ (h.mem_listing limit hitem) hlt
    obtain ⟨hstart, hsubset'⟩ := rest.reached_subset (count + 1)
      (fun bound hb => by have := hmax bound hb; omega) hnone
    exact ⟨hstart, List.Subset.trans hsubset' hsubset⟩

mutual

/-- A search that is not broken off tries every leaf that a partial derivation comes to. -/
theorem Attempts.reached_subset {p q : Pattern} {pos mid : Nat} : Attempts rules t p pos q mid →
    (p.listing t (rules.listing t limit) pos).halt? = none →
    (q.listing t (rules.listing t limit) mid).halt? = none ∧
      (q.listing t (rules.listing t limit) mid).reached ⊆
        (p.listing t (rules.listing t limit) pos).reached
  | .leaf _, hhalt => ⟨hhalt, List.Subset.refl _⟩
  | .sequence h, hhalt => h.reached_subset hhalt
  | .choice hp h, hhalt => by
    obtain ⟨hnone, hsubset⟩ := h.reached_subset (Pattern.mem_listingAny hp hhalt).1
    exact ⟨hnone, List.Subset.trans hsubset (Pattern.reached_subset_listingAny hp hhalt)⟩
  | .repetition before hmax h, hhalt => by
    obtain ⟨hstart, hsubset⟩ := before.reached_subset 0 (by simpa using hmax) hhalt
    obtain ⟨hnone, hsubset'⟩ := h.reached_subset hstart
    exact ⟨hnone, List.Subset.trans hsubset' hsubset⟩

theorem AttemptsAll.reached_subset {items : List Pattern} {q : Pattern} {pos mid : Nat} :
    AttemptsAll rules t items pos q mid →
    (Pattern.listingAll t (rules.listing t limit) items pos).halt? = none →
    (q.listing t (rules.listing t limit) mid).halt? = none ∧
      (q.listing t (rules.listing t limit) mid).reached ⊆
        (Pattern.listingAll t (rules.listing t limit) items pos).reached
  | .head h, hhalt => by
    obtain ⟨hnone, hsubset⟩ := h.reached_subset (Listing.halt?_bind_eq_none.1 hhalt).1
    exact ⟨hnone, fun offset hoffset =>
      (Listing.mem_reached_bind_iff hhalt).2 (.inl (hsubset hoffset))⟩
  | .tail before h, hhalt => by
    obtain ⟨hitem, hrest⟩ := Listing.halt?_bind_eq_none.1 hhalt
    have he := before.mem_listing limit hitem
    obtain ⟨hnone, hsubset⟩ := h.reached_subset ((Listing.halt?_map _ _).symm.trans (hrest _ he))
    refine ⟨hnone, fun offset hoffset => (Listing.mem_reached_bind_iff hhalt).2 (.inr ⟨_, he, ?_⟩)⟩
    rw [Listing.reached_map]
    exact hsubset hoffset

end

/-! ## Without skips -/

/-- Nothing is skipped in the rules. -/
def Rules.Skipless (rules : Rules) : Prop := ∀ rule ∈ rules, ∀ name, .skip name ∉ rule.2.leaves

/-- Where nothing is skipped, a search that is not broken off reaches all that a partial derivation
    does. -/
theorem Reaches.mem_reached (hrules : rules.Skipless) {p : Pattern} {pos offset : Nat}
    (h : Reaches rules t p pos offset) (hp : ∀ name, .skip name ∉ p.leaves)
    (hhalt : (p.listing t (rules.listing t limit) pos).halt? = none) :
    offset ∈ (p.listing t (rules.listing t limit) pos).reached := by
  induction h generalizing limit with
  | literal h hword =>
    refine (h.reached_subset hhalt).2 ?_
    rw [Pattern.listing, if_pos hword]
    exact List.mem_singleton_self _
  | charClass h hc hk =>
    refine (h.reached_subset hhalt).2 ?_
    rw [Pattern.listing, hc, Option.any_some, if_pos hk]
    exact List.mem_singleton_self _
  | @enter p inner name pos mid offset h hinner _ ih =>
    obtain h | h := h
    · obtain ⟨hnone, hsubset⟩ := h.reached_subset hhalt
      refine hsubset ?_
      rw [Pattern.listing, Listing.halt?_map] at hnone
      rw [Pattern.listing, Listing.reached_map]
      cases limit with
      | zero =>
        -- A search that may not enter the rule breaks off there.
        rw [Rules.listing, hinner] at hnone
        cases hnone
      | succ limit =>
        rw [Rules.listing, hinner] at hnone ⊢
        exact ih (hrules _ (Rules.mem_of_lookup hinner)) hnone
    · -- A skip does not try all of its rule, but there is none.
      exact absurd h.mem_leaves (hp name)

namespace Grammar

variable {w : Word} {root : Option RootChoice} {g : Grammar} {d : Description} {furthest : Nat}

/-- A description without blocks gives rules without skips. -/
theorem skipless_of_compile (hg : compile w root = .ok g) (hw : d.SpelledBy w)
    (hblocks : ∀ name inner, .block name inner ∉ d) : g.rules.Skipless := by
  obtain ⟨_, definitions, hmeans, -, hrules, -⟩ := exists_means_of_compile hg
  rw [Rules.Skipless, hrules]
  intro rule hrule name hskip
  obtain ⟨e, he, rfl⟩ := List.mem_map.1 hrule
  obtain ⟨inner, hblock⟩ := (hw.means_iff.1 hmeans).exists_of_skip_eq_some he
    ((hmeans.skip_mem_leaves_woven_iff he).1 hskip)
  exact hblocks name inner hblock

/-- If a description without blocks is compiled, a text that is refused as unmatched is refused at
    the largest offset that is the end of a terminal to which a partial derivation of the root comes,
    or at `0` if there is none. -/
theorem furthest_isGreatest (hg : compile w root = .ok g) (hw : d.SpelledBy w)
    (hblocks : ∀ name inner, .block name inner ∉ d)
    (h : g.parse limit t = .error (.unmatched furthest)) :
    IsGreatest {k | k = 0 ∨ Reaches g.rules t (.reference g.root) 0 k} furthest := by
  refine ⟨(reaches_of_parse h).imp_right fun ⟨p, hp, hreaches⟩ =>
    .enter (.inl (.leaf rfl)) hp hreaches, ?_⟩
  rintro k (rfl | hk)
  · exact Nat.zero_le _
  · obtain ⟨-, hhalt, rfl⟩ := parse_eq_unmatched_iff.1 h
    have hmem := hk.mem_reached (skipless_of_compile hg hw hblocks)
      (by simp [Pattern.leaves]) ((Listing.halt?_map _ _).trans hhalt)
    rw [Pattern.listing, Listing.reached_map] at hmem
    exact Listing.le_furthest_of_mem_reached hmem

/-- The description `a ::= b* 'x'; b ::= 'y' 'z' | 'y';`. -/
def repeatedPair : Description :=
  [.rule ⟨['a'], [[.repeated (.reference ['b']) .any, .literal ['x']]]⟩,
    .rule ⟨['b'], [[.literal ['y'], .literal ['z']], [.literal ['y']]]⟩]

/-- The grammar of `a ::= b* 'x'; b ::= 'y' 'z' | 'y';`. -/
def pairs : Grammar :=
  ⟨[(['a'], .sequence [.repetition (.reference ['b']) 0 none, .literal ['x']]),
    (['b'], .choice [.sequence [.literal ['y'], .literal ['z']], .literal ['y']])], ['a']⟩

/-- In `yzyw`, two repetitions lead up to the offset `3`, and nothing leads any further. -/
theorem furthest_pairs :
    compile "a ::= b* 'x'; b ::= 'y' 'z' | 'y';".toList none = .ok pairs ∧
    pairs.parse 9 #['y', 'z', 'y', 'w'] = .error (.unmatched 3) ∧
    IsGreatest {k | k = 0 ∨ Reaches pairs.rules #['y', 'z', 'y', 'w'] (.reference ['a']) 0 k} 3 := by
  have hcompile : compile "a ::= b* 'x'; b ::= 'y' 'z' | 'y';".toList none = .ok pairs := rfl
  have hspelled : repeatedPair.SpelledBy "a ::= b* 'x'; b ::= 'y' 'z' | 'y';".toList :=
    Description.spelledBy_iff.2 rfl
  have hparse : pairs.parse 9 #['y', 'z', 'y', 'w'] = .error (.unmatched 3) := rfl
  exact ⟨hcompile, hparse, furthest_isGreatest hcompile hspelled (by simp [repeatedPair]) hparse⟩

end Grammar

end Descent
