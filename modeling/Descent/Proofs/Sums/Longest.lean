import Descent.Proofs.LeftCalls
import Descent.Proofs.Longest
import Descent.Proofs.Sums.States

/-!
# Sums match longest first

Every rule of the grammar of sums lists its longest match first, and the others get shorter and
shorter (`Sums.shrinks_listing`). For a shorter match stops in the middle of a number or before a
plus sign, from which nothing else in the grammar goes on: not the rest of a sum, not the blanks
after an operand, not a closing parenthesis.

So no rule matches the same part of a text twice. As everything that a rule derives is listed if
the limit is large enough (`Sums.Nonterminal.mem_listing`), there is only one derivation of each
part (`Sums.matches_longest_first`).
-/

namespace Descent.Sums

variable {t : Text} {limit pos stop : Nat} {nodes : List Tree} {k : Char → Bool}

/-! ## Characters that go on -/

/-- The characters before which a match of the rule may stop that is not the longest one. -/
def Nonterminal.goesOn : Nonterminal → Char → Bool
  | .root, c | .sum, c => c.isDigit || c == '+'
  | .primary, c | .number, c => c.isDigit
  | .whitespace, c => isBlank c

theorem goesOn_of_isDigit {c : Char} (h : c.isDigit) : Nonterminal.sum.goesOn c := by
  rw [Nonterminal.goesOn, h, Bool.true_or]

/-- Blanks end before any other character. -/
theorem skip_eq_self {c : Char} (hc : t[pos]? = some c) (h : ¬isBlank c) : skip t pos = pos := by
  rw [skip, Pattern.run_of_not_any, Nat.add_zero]
  rwa [hc, Option.any_some, accepts_blank]

theorem skip_eq_self_of_goesOn (h : t[pos]?.any Nonterminal.sum.goesOn) : skip t pos = pos := by
  obtain ⟨c, hc, h⟩ := (Option.any_eq_true _ _).1 h
  rw [Nonterminal.goesOn, Bool.or_eq_true, beq_iff_eq] at h
  obtain h | rfl := h
  · exact skip_eq_self hc (not_isBlank_of_isDigit h)
  · exact skip_eq_self hc (by decide)

/-- No blank comes after blanks. -/
theorem skip_skip (t : Text) (pos : Nat) : skip t (skip t pos) = skip t pos := by
  by_contra hne
  have hrun : Pattern.run t blank (skip t pos) ≠ 0 := fun h => hne (by rw [skip, h, Nat.add_zero])
  have hany : t[skip t pos]?.any blank.accepts := by
    by_contra h
    exact hrun (Pattern.run_of_not_any h)
  rw [← Text.head?_rest, rest_skip, accepts_blank] at hany
  have hhead := List.head?_dropWhile_not isBlank (t.rest pos)
  obtain ⟨c, hc, h⟩ := (Option.any_eq_true _ _).1 hany
  rw [hc] at hhead
  dsimp only at hhead
  rw [h] at hhead
  cases hhead

/-- Where a sign stands after blanks, no digit stands before them. -/
theorem not_isDigit_of_rest {c : Char} {w : Word} (h : t.rest (skip t pos) = c :: w)
    (hc : ¬c.isDigit) : ¬t[pos]?.any Char.isDigit := by
  intro hany
  have hskip := skip_eq_self_of_goesOn (Listing.any_mono (fun _ => goesOn_of_isDigit) hany)
  rw [hskip] at h
  rw [Text.getElem?_of_rest_cons h, Option.any_some] at hany
  exact hc hany

/-! ## Every rule shrinks -/

theorem within_listing (t : Text) (limit : Nat) (name : Word) :
    Within t.size (rules.listing t limit name) :=
  rules.within_listing t limit name

theorem derives_of_mem {p : Pattern} {e : Extent}
    (he : e ∈ (p.listing t (rules.listing t limit) pos).results) :
    Derives rules t p pos e.stop e.nodes :=
  p.derives_of_mem_listing (fun _ _ _ => Rules.derives_of_mem_listing) pos e he

theorem derivesAll_of_mem {items : List Pattern} {e : Extent}
    (he : e ∈ (Pattern.listingAll t (rules.listing t limit) items pos).results) :
    DerivesAll rules t items pos e.stop e.nodes :=
  Pattern.derivesAll_of_mem_listingAll (fun _ _ _ => Rules.derives_of_mem_listing) items pos e he

theorem shrinks_blanks {items : List Pattern}
    (h : (Pattern.listingAll t (rules.listing t limit) items (skip t pos)).Shrinks t k) :
    (Pattern.listingAll t (rules.listing t limit) (blanks :: items) pos).Shrinks t k := by
  refine Pattern.shrinks_listingAll_cons_of_single (within_listing t limit)
    (fun _ => Listing.shrinks_first _ _) fun e he => ?_
  rwa [(derives_blanks_iff.1 (derives_of_mem he)).1]

theorem shrinks_sign {c : Char} {items : List Pattern}
    (h : t.rest pos = c :: t.rest (pos + 1) →
      (Pattern.listingAll t (rules.listing t limit) items (pos + 1)).Shrinks t k) :
    (Pattern.listingAll t (rules.listing t limit) (sign c :: items) pos).Shrinks t k := by
  refine Pattern.shrinks_listingAll_cons_of_single (within_listing t limit) (fun k => ?_)
    fun e he => ?_
  · rw [sign, Pattern.listing]
    split
    · exact Listing.shrinks_terminal _
    · exact Listing.shrinks_nil
  · obtain ⟨hc, hstop, -⟩ := derives_sign_iff.1 (derives_of_mem he)
    rw [hstop]
    exact h hc

theorem shrinks_reference {name : Word} (h : (rules.listing t limit name pos).Shrinks t k) :
    ((Pattern.reference name).listing t (rules.listing t limit) pos).Shrinks t k :=
  (Listing.shrinks_map_iff (f := fun e => ⟨e.stop, [e.toTree t name pos]⟩) fun _ => rfl).2 h

section

variable (hprimary : ∀ pos,
  (rules.listing t limit Nonterminal.primary.name pos).Shrinks t Nonterminal.primary.goesOn)

include hprimary

/-- Further operands shrink as operands do. -/
theorem shrinks_further (pos : Nat) :
    (further.listing t (rules.listing t limit) pos).Shrinks t Nonterminal.primary.goesOn :=
  shrinks_blanks (shrinks_sign fun _ => shrinks_blanks (Pattern.shrinks_listingAll_singleton
    (within_listing t limit) (shrinks_reference (hprimary _))))

/-- After blanks, further operands stop in the middle of a number or before a plus sign. -/
theorem shrinks_repetition (hpos : skip t pos = pos) :
    ((Pattern.repetition further 0 none).listing t (rules.listing t limit) pos).Shrinks t
      Nonterminal.sum.goesOn := by
  refine Pattern.shrinks_repeats (fun pos => skip t pos = pos) Nonterminal.primary.goesOn
    (fun pos _ e he => ?_) (fun pos _ => shrinks_further hprimary pos) (fun pos hpos hany => ?_)
    (fun pos hpos e he => ?_) (fun _ => goesOn_of_isDigit) 0 none 0 hpos
  · obtain ⟨-, h⟩ := derives_further_iff.1 (derives_of_mem he)
    obtain ⟨mid, _, -, hstop, -⟩ := derives_primary_iff.1 h
    rw [hstop, skip_skip]
  · rw [List.eq_nil_iff_forall_not_mem]
    intro e he
    exact not_isDigit_of_rest (derives_further_iff.1 (derives_of_mem he)).1 (by decide) hany
  · obtain ⟨hplus, -⟩ := derives_further_iff.1 (derives_of_mem he)
    rw [hpos] at hplus
    rw [Text.getElem?_of_rest_cons hplus]
    rfl

/-- A sum shrinks as its operands do. -/
theorem shrinks_sum (pos : Nat) :
    (Pattern.listingAll t (rules.listing t limit) [blanks, .reference Nonterminal.primary.name,
      .repetition further 0 none, blanks] pos).Shrinks t Nonterminal.sum.goesOn := by
  refine shrinks_blanks (Pattern.shrinks_listingAll_cons (within_listing t limit)
    (shrinks_reference (hprimary _)) (fun e he => ?_) fun mid hany e he => ?_)
  · obtain ⟨mid, _, -, hstop, -⟩ := derives_primary_iff.1 (derives_of_mem he)
    refine Pattern.shrinks_listingAll_cons (within_listing t limit)
      (shrinks_repetition hprimary (by rw [hstop, skip_skip]))
      (fun _ _ => shrinks_blanks (Listing.shrinks_single _)) fun mid hany e he => ?_
    rw [(derivesAll_nil_iff.1 (derivesAll_blanks_iff.1 (derivesAll_of_mem he))).1]
    exact ⟨skip_eq_self_of_goesOn hany, hany⟩
  · -- In the middle of a number, there are no further operands and no blanks.
    have hsum := Listing.any_mono (fun _ => goesOn_of_isDigit) hany
    obtain ⟨last, _, _, hrest, hblanks, -⟩ := derivesAll_cons_iff.1 (derivesAll_of_mem he)
    rw [derivesAll_blanks_iff, derivesAll_nil_iff] at hblanks
    cases hrest with
    | repetition h =>
      cases h with
      | zero =>
        rw [hblanks.1]
        exact ⟨skip_eq_self_of_goesOn hsum, hsum⟩
      | succ h =>
        exact absurd hany (not_isDigit_of_rest (derives_further_iff.1 h).1 (by decide))

end

section

variable (hsum : ∀ pos,
  (rules.listing t limit Nonterminal.sum.name pos).Shrinks t Nonterminal.sum.goesOn)

include hsum

/-- Only the longest sum is closed by a parenthesis. -/
theorem shrinks_parens (pos : Nat) :
    (parens.listing t (rules.listing t limit) pos).Shrinks t k := by
  refine shrinks_blanks (shrinks_sign fun _ => shrinks_blanks (Pattern.shrinks_listingAll_cons
    (within_listing t limit) (shrinks_reference (hsum _)) (fun _ _ => shrinks_blanks
      (shrinks_sign fun _ => Listing.shrinks_single _)) fun mid hany e he => ?_))
  obtain ⟨hclosing, -⟩ :=
    derivesAll_sign_iff.1 (derivesAll_blanks_iff.1 (derivesAll_of_mem he))
  rw [skip_eq_self_of_goesOn hany] at hclosing
  rw [Text.getElem?_of_rest_cons hclosing] at hany
  cases hany

/-- An operand is either a number or a sum in parentheses. -/
theorem shrinks_operand (hnumber : ∀ pos,
    (rules.listing t limit Nonterminal.number.name pos).Shrinks t Nonterminal.number.goesOn)
    (pos : Nat) :
    (operand.listing t (rules.listing t limit) pos).Shrinks t Nonterminal.number.goesOn := by
  rw [operand, Pattern.listing, Pattern.listingAny, Pattern.listingAny, Pattern.listingAny,
    Listing.append_nil]
  refine .append_of_disjoint (shrinks_blanks (Pattern.shrinks_listingAll_singleton
    (within_listing t limit) (shrinks_reference (hnumber _)))) (shrinks_parens hsum pos) ?_
  by_contra hne
  rw [not_or, ← ne_eq, ← ne_eq] at hne
  obtain ⟨e, he⟩ := List.exists_mem_of_ne_nil _ hne.1
  obtain ⟨e', he'⟩ := List.exists_mem_of_ne_nil _ hne.2
  have hnumber := derives_sequence_iff.1 (derives_of_mem he)
  rw [derivesAll_blanks_iff, derivesAll_singleton_iff] at hnumber
  obtain ⟨digits, hdigits, hdigit, hrest, -⟩ := derives_number_iff.1 hnumber
  obtain ⟨_, hopening, -⟩ := derives_parens_iff.1 (derives_of_mem he')
  obtain ⟨c, digits, rfl⟩ := List.exists_cons_of_ne_nil hdigits
  rw [hopening, List.cons_append, List.cons.injEq] at hrest
  have := hdigit c List.mem_cons_self
  rw [← hrest.1] at this
  cases this

end

/-- Every rule shrinks, under any limit. -/
theorem shrinks_listing (t : Text) (limit : Nat) (rule : Nonterminal) (pos : Nat) :
    (rules.listing t limit rule.name pos).Shrinks t rule.goesOn := by
  induction limit generalizing rule pos with
  | zero => cases rule <;> exact Listing.shrinks_halted _
  | succ limit ih =>
    cases rule with
    | root => exact shrinks_reference (ih .sum pos)
    | sum => exact shrinks_sum (ih .primary) pos
    | primary =>
      refine Pattern.shrinks_listingAll_cons (within_listing t limit)
        (shrinks_operand (ih .sum) (ih .number) pos)
        (fun _ _ => shrinks_blanks (Listing.shrinks_single _)) fun mid hany e he => ?_
      rw [(derivesAll_nil_iff.1 (derivesAll_blanks_iff.1 (derivesAll_of_mem he))).1]
      exact ⟨skip_eq_self_of_goesOn (Listing.any_mono (fun _ => goesOn_of_isDigit) hany), hany⟩
    | number =>
      have h : (rules.listing t (limit + 1) Nonterminal.number.name pos).Shrinks t digit.accepts :=
        Pattern.shrinks_charClass digit 1 none pos
      rwa [accepts_digit] at h
    | whitespace =>
      have h : (rules.listing t (limit + 1) Nonterminal.whitespace.name pos).Shrinks t
          blank.accepts :=
        Pattern.shrinks_charClass blank 1 none pos
      rwa [accepts_blank] at h

/-! ## Nothing is left out -/

theorem isSome_lookup (rule : Nonterminal) : (rules.lookup rule.name).isSome := by
  cases rule <;> rfl

theorem exists_name_of_lookup {name : Word} {p : Pattern} (h : rules.lookup name = some p) :
    ∃ rule : Nonterminal, name = rule.name := by
  have hmem := Rules.mem_of_lookup h
  simp only [rules, List.mem_cons, List.not_mem_nil, or_false, Prod.mk.injEq] at hmem
  rcases hmem with ⟨rfl, -⟩ | ⟨rfl, -⟩ | ⟨rfl, -⟩ | ⟨rfl, -⟩ | ⟨rfl, -⟩
  exacts [⟨.root, rfl⟩, ⟨.sum, rfl⟩, ⟨.primary, rfl⟩, ⟨.whitespace, rfl⟩, ⟨.number, rfl⟩]

/-- A left call leads further down in the grammar. -/
theorem rank_lt_of_leftCalls {rule : Nonterminal} {name : Word}
    (h : rules.LeftCalls rule.name name) :
    ∃ inner : Nonterminal, name = inner.name ∧ inner.rank < rule.rank := by
  obtain ⟨p, hp, hinner⟩ := h
  cases rule <;> cases hp
  case root =>
    rw [Pattern.leftNames_reference_iff] at hinner
    exact ⟨.sum, hinner, by decide⟩
  case sum =>
    have h : name = Nonterminal.primary.name ∨ name = Nonterminal.whitespace.name := by
      simp [blanks, sign] at hinner
      tauto
    obtain h | h := h
    · exact ⟨.primary, h, by decide⟩
    · exact ⟨.whitespace, h, by decide⟩
  case primary =>
    -- A sum comes only after a parenthesis.
    have h : name = Nonterminal.number.name ∨ name = Nonterminal.whitespace.name := by
      simp [blanks, sign] at hinner
      tauto
    obtain h | h := h
    · exact ⟨.number, h, by decide⟩
    · exact ⟨.whitespace, h, by decide⟩
  all_goals exact absurd hinner (by simp)

theorem rank_lt_of_transGen {rule : Nonterminal} {name : Word}
    (h : Relation.TransGen rules.LeftCalls rule.name name) :
    ∃ inner : Nonterminal, name = inner.name ∧ inner.rank < rule.rank := by
  induction h with
  | single h => exact rank_lt_of_leftCalls h
  | tail _ h ih =>
    obtain ⟨mid, rfl, hmid⟩ := ih
    obtain ⟨inner, hname, hinner⟩ := rank_lt_of_leftCalls h
    exact ⟨inner, hname, hinner.trans hmid⟩

theorem not_leftRecursive : ¬rules.LeftRecursive := by
  rintro ⟨name, h⟩
  obtain ⟨_, ⟨p, hp, -⟩, -⟩ := Relation.TransGen.head'_iff.1 h
  obtain ⟨rule, rfl⟩ := exists_name_of_lookup hp
  obtain ⟨inner, hname, hlt⟩ := rank_lt_of_transGen h
  cases Nonterminal.name_inj.1 hname
  exact absurd hlt (Nat.lt_irrefl _)

theorem lt_of_derives_primary
    (h : Derives rules t (.reference Nonterminal.primary.name) pos stop nodes) : pos < stop := by
  obtain ⟨mid, children, hoperand, rfl, -⟩ := derives_primary_iff.1 h
  have hstart := le_skip t pos
  have hend := le_skip t mid
  obtain hnumber | hparens := derives_operand_iff.1 hoperand
  · obtain ⟨digits, hne, -, -, rfl, -⟩ := derives_number_iff.1 hnumber
    have := List.length_pos_iff.2 hne
    omega
  · obtain ⟨last, -, hsum, -, rfl⟩ := derives_parens_iff.1 hparens
    have hinner := le_skip t (skip t pos + 1)
    have hlast := le_skip t last
    have hwithin := hsum.within
    omega

theorem lt_of_derives_sum
    (h : Derives rules t (.reference Nonterminal.sum.name) pos stop nodes) : pos < stop := by
  obtain ⟨mid, last, n, before, later, hfirst, hrest, rfl, -⟩ := derives_sum_iff.1 h
  calc pos ≤ skip t pos := le_skip t pos
    _ < mid := lt_of_derives_primary hfirst
    _ ≤ last := hrest.within.1
    _ ≤ skip t last := le_skip t last

/-- Every rule derives one character at least. -/
theorem lt_of_derives {rule : Nonterminal}
    (h : Derives rules t (.reference rule.name) pos stop nodes) : pos < stop := by
  cases rule with
  | root =>
    obtain ⟨children, hsum, -⟩ := (derives_reference_iff rfl).1 h
    exact lt_of_derives_sum hsum
  | sum => exact lt_of_derives_sum h
  | primary => exact lt_of_derives_primary h
  | number =>
    obtain ⟨digits, hne, -, -, rfl, -⟩ := derives_number_iff.1 h
    have := List.length_pos_iff.2 hne
    omega
  | whitespace =>
    obtain ⟨children, hblanks, -⟩ := (derives_reference_iff rfl).1 h
    cases hblanks with
    | repetition h hmin =>
      cases h with
      | zero => exact absurd hmin (by decide)
      | succ _ hlt rest => exact hlt.trans_le rest.within.1

/-- Under a large enough limit, everything that a rule derives is listed. -/
theorem Nonterminal.mem_listing (rule : Nonterminal)
    (h : Derives rules t (.reference rule.name) pos stop nodes)
    (hlimit : rules.length * (t.size + 1) ≤ limit) :
    ⟨stop, nodes⟩ ∈
      ((Pattern.reference rule.name).listing t (rules.listing t limit) pos).results := by
  have hlt := lt_of_derives h
  have hwithin := h.within.2
  refine h.mem_listing limit ?_
  rw [Pattern.listing, Listing.halt?_map]
  exact Rules.halt?_eq_none closed_rules not_leftRecursive (isSome_lookup rule) (by omega) hlimit

/-! ## One derivation of each part -/

/-- A rule derives a part of a text in one way only. -/
theorem Nonterminal.derives_unique (rule : Nonterminal) {nodes' : List Tree}
    (h : Derives rules t (.reference rule.name) pos stop nodes)
    (h' : Derives rules t (.reference rule.name) pos stop nodes') : nodes = nodes' := by
  have hshrinks := shrinks_reference (shrinks_listing t (rules.length * (t.size + 1)) rule pos)
  have he := rule.mem_listing h (Nat.le_refl _)
  have he' := rule.mem_listing h' (Nat.le_refl _)
  exact congrArg Extent.nodes (hshrinks.eq_of_stop_eq he he' rfl)

/-- The first match that is listed for a rule is the longest one of all, listed or not. -/
theorem Nonterminal.le_of_head? (rule : Nonterminal) {e : Extent}
    (he : (rules.listing t limit rule.name pos).results.head? = some e)
    (h : Derives rules t (.reference rule.name) pos stop nodes) : stop ≤ e.stop := by
  -- It is the first one under a limit that is large enough, too.
  have hlarger := rules.listing_cut t (Nat.le_add_right limit (rules.length * (t.size + 1)))
    rule.name pos
  have hmem := rule.mem_listing h (Nat.le_add_left _ limit)
  obtain ⟨e', he', heq⟩ := Listing.mem_results_map.1 hmem
  rw [← show e'.stop = stop from congrArg Extent.stop heq]
  exact (shrinks_listing t _ rule pos).le_of_head? (hlarger.head? he) he'

/-- The search for a rule finds the longest match first and then shorter and shorter ones, until it
    ends or breaks off as too deep. So the first match is longer than anything else that the rule
    derives there, a part of the text is derived in one way only, and the parse tree of a text is
    its only derivation.

    Where the limit allows for all of the rules at every offset, the search does not break off, and
    stops wherever the rule derives something. -/
theorem matches_longest_first (limit : Nat) (t : Text) (rule : Nonterminal) (pos : Nat) :
    ((rules.enter t limit rule.name pos).listing.results.Pairwise fun m m' => m'.stop < m.stop) ∧
    (∀ cause ∈ (rules.enter t limit rule.name pos).listing.halt?, cause = .tooDeep) ∧
    (∀ m ∈ (rules.enter t limit rule.name pos).listing.results.head?, ∀ stop nodes,
      Derives rules t (.reference rule.name) pos stop nodes → stop ≤ m.stop) ∧
    (∀ stop nodes nodes', Derives rules t (.reference rule.name) pos stop nodes →
      Derives rules t (.reference rule.name) pos stop nodes' → nodes = nodes') ∧
    (∀ tree, parse limit t = .ok tree → ∀ tree', grammar.Derivation t tree' ↔ tree' = tree) ∧
    (pos ≤ t.size → rules.length * (t.size + 1) ≤ limit →
      (rules.enter t limit rule.name pos).listing.halt? = none ∧
      ∀ stop, (∃ m ∈ (rules.enter t limit rule.name pos).listing.results, m.stop = stop) ↔
        ∃ nodes, Derives rules t (.reference rule.name) pos stop nodes) := by
  have hextents := rules.extents_enter t limit rule.name pos
  have hshrinks := shrinks_listing t limit rule pos
  have hhalt : (rules.enter t limit rule.name pos).listing.halt? =
      (rules.listing t limit rule.name pos).halt? := by
    rw [← Listing.halt?_map Match.extent, ← Search.extents, hextents]
  have hstops (stop : Nat) :
      (∃ m ∈ (rules.enter t limit rule.name pos).listing.results, m.stop = stop) ↔
        ∃ e ∈ (rules.listing t limit rule.name pos).results, e.stop = stop := by
    simp [← hextents, Search.extents]
  refine ⟨?_, fun cause hcause => ?_, fun m hm stop nodes h => ?_,
    fun stop nodes nodes' => rule.derives_unique, fun tree htree tree' => ?_,
    fun hpos hlimit => ⟨?_, fun stop => ?_⟩⟩
  · rw [← hextents, Listing.Shrinks, Search.extents, Listing.results_map, List.pairwise_map]
      at hshrinks
    exact hshrinks.imp And.left
  · rw [hhalt] at hcause
    exact closed_rules.tooDeep_of_halt? (isSome_lookup rule) hcause
  · have hhead : (rules.listing t limit rule.name pos).results.head? = some m.extent := by
      rw [← hextents, Search.extents, Listing.results_map, List.head?_map, hm, Option.map_some]
    exact rule.le_of_head? hhead h
  · have hderivation := Grammar.derivation_of_parse htree
    refine ⟨fun h => ?_, fun h => h ▸ hderivation⟩
    exact (List.cons.inj (Nonterminal.root.derives_unique h hderivation)).1
  · rw [hhalt]
    exact Rules.halt?_eq_none closed_rules not_leftRecursive (isSome_lookup rule) hpos hlimit
  · rw [hstops]
    constructor
    · rintro ⟨e, he, rfl⟩
      obtain ⟨p, hp, h⟩ := Rules.derives_of_mem_listing he
      exact ⟨_, .reference hp h⟩
    · rintro ⟨nodes, h⟩
      obtain ⟨e, he, heq⟩ := Listing.mem_results_map.1 (rule.mem_listing h hlimit)
      exact ⟨e, he, congrArg Extent.stop heq⟩

/-- In the text `12+34`, a sum may go on to the end, or stop within a number or before the plus
    sign, and nowhere else. -/
theorem sum_longest_first :
    let t : Text := #['1', '2', '+', '3', '4']
    let found := (rules.enter t 30 Nonterminal.sum.name 0).listing
    found.results.map Match.stop = [5, 4, 2, 1] ∧ found.halt? = none ∧
    ∀ stop nodes, Derives rules t (.reference Nonterminal.sum.name) 0 stop nodes →
      stop ∈ [5, 4, 2, 1] := by
  intro t found
  have hfound : found.results.map Match.stop = [5, 4, 2, 1] := by decide +kernel
  obtain ⟨-, -, -, -, -, henough⟩ := matches_longest_first 30 t .sum 0
  obtain ⟨hhalt, hstops⟩ := henough (by decide) (by decide)
  refine ⟨hfound, hhalt, fun stop nodes h => ?_⟩
  rw [← hfound, List.mem_map]
  exact (hstops stop).2 ⟨nodes, h⟩

end Descent.Sums
