import Descent.Proofs.Closed
import Descent.Proofs.Description.Congruence
import Descent.Proofs.Flat
import Descent.Proofs.Limit

/-!
# Skips that pass over nothing

Where a rule matches nothing but the empty word, skipping it changes nothing: the search goes on
from where it was. The search for the rule may reach something, though, and may be too deep. So a
pattern with skips finds what it finds without them, in the same order, unless it breaks off as too
deep on the way: its listing *tracks* the other one (`Tracks`).

That is handed on by everything that listings are put together by, repetitions included, as the
matches of an item stop at the same offsets (`Pattern.tracks_skippingIn`). So the tree of a text
does not depend on skips that pass over nothing in it (`Grammar.parse_eq_ok_of_tracks`).
-/

namespace Descent

/-- The listing `l` finds what `m` finds, in the same order, whatever they reach, unless `l` breaks
    off as too deep on the way. -/
inductive Tracks {α : Type} : (l m : Listing α) → Prop
  | nil : Tracks .nil .nil
  | halted (cause : Halt) : Tracks (.halted cause) (.halted cause)
  | tooDeep (m : Listing α) : Tracks (.halted .tooDeep) m
  | found (a : α) {l m : Listing α} (h : Tracks l m) :
    Tracks (.cons (.found a) l) (.cons (.found a) m)
  | reachLeft (offset : Nat) {l m : Listing α} (h : Tracks l m) :
    Tracks (.cons (.reach offset) l) m
  | reachRight (offset : Nat) {l m : Listing α} (h : Tracks l m) :
    Tracks l (.cons (.reach offset) m)

namespace Tracks

variable {α β : Type} {l l' m m' : Listing α}

theorem refl (l : Listing α) : Tracks l l := by
  induction l using Listing.cases_events with
  | nil => exact .nil
  | halted cause => exact .halted cause
  | reach offset _ ih => exact .reachLeft offset (.reachRight offset ih)
  | found a _ ih => exact .found a ih

theorem single (a : α) : Tracks (.single a) (.single a) := .found a .nil

theorem append (hl : Tracks l l') (hm : Tracks m m') : Tracks (l ++ m) (l' ++ m') := by
  induction hl with
  | nil => exact hm
  | halted cause => exact .halted cause
  | tooDeep => exact .tooDeep _
  | found a _ ih =>
    simp only [Listing.cons_append]
    exact .found a ih
  | reachLeft offset _ ih =>
    rw [Listing.cons_append]
    exact .reachLeft offset ih
  | reachRight offset _ ih =>
    rw [Listing.cons_append]
    exact .reachRight offset ih

theorem bind {f f' : α → Listing β} (h : Tracks l l') (hf : ∀ a, Tracks (f a) (f' a)) :
    Tracks (l.bind f) (l'.bind f') := by
  induction h with
  | nil => exact .nil
  | halted cause => exact .halted cause
  | tooDeep => exact .tooDeep _
  | found a _ ih => exact (hf a).append ih
  | reachLeft offset _ ih => exact .reachLeft offset ih
  | reachRight offset _ ih => exact .reachRight offset ih

theorem map (f : α → β) (h : Tracks l l') : Tracks (l.map f) (l'.map f) :=
  h.bind fun _ => .single _

theorem first (default : α) (h : Tracks l l') : Tracks (l.first default) (l'.first default) := by
  induction h with
  | nil => exact .single default
  | halted cause => exact .halted cause
  | tooDeep => exact .tooDeep _
  | found a =>
    simp only [Listing.first_cons_found]
    exact .single a
  | reachLeft offset _ ih =>
    rw [Listing.first_cons_reach]
    exact .reachLeft offset ih
  | reachRight offset _ ih =>
    rw [Listing.first_cons_reach]
    exact .reachRight offset ih

/-- The first results are the same, and all of them are unless the first listing is too deep. -/
theorem outcome (h : Tracks l m) : l.results <+: m.results ∧
    (l.halt? ≠ some .tooDeep → l.results = m.results ∧ l.halt? = m.halt?) := by
  induction h with
  | nil | halted => exact ⟨List.prefix_rfl, fun _ => ⟨rfl, rfl⟩⟩
  | tooDeep => exact ⟨List.nil_prefix, fun h => absurd rfl h⟩
  | found a _ ih =>
    refine ⟨(List.prefix_cons_inj a).2 ih.1, fun hl => ?_⟩
    obtain ⟨hresults, hhalt⟩ := ih.2 hl
    exact ⟨congrArg (List.cons a) hresults, hhalt⟩
  | reachLeft _ _ ih | reachRight _ _ ih => exact ih

end Tracks

namespace Pattern

theorem tracks_repeats {size : Nat} {item item' : Nat → Listing Extent}
    (hitem : ∀ pos, Tracks (item pos) (item' pos)) (minimum : Int) (maximum : Option Int)
    (count pos : Nat) :
    Tracks (repeats size item minimum maximum count pos)
      (repeats size item' minimum maximum count pos) := by
  induction h : size - pos using Nat.strongRecOn generalizing count pos with
  | ind n ih =>
    rw [repeats, repeats]
    refine .append ?_ (.refl _)
    split
    · exact .nil
    · refine (hitem pos).bind fun e => ?_
      split
      · exact (ih (size - e.stop) (by omega) (count + 1) e.stop rfl).map _
      · exact .nil

/-- To skip a rule changes nothing, unless it is too deep. -/
def Silent (t : Text) (enter : Word → Nat → Listing Extent) (name : Word) : Prop :=
  ∀ pos, Tracks ((skip name).listing t enter pos) (.single (.empty pos))

/-- A rule may be skipped where it has no match that is not empty, and breaks off only if it is too
    deep. -/
theorem silent_of_stop_eq {t : Text} {enter : Word → Nat → Listing Extent} {name : Word}
    (hstop : ∀ pos, ∀ e ∈ (enter name pos).results, e.stop = pos)
    (hhalt : ∀ pos, ∀ cause ∈ (enter name pos).halt?, cause = .tooDeep) :
    Silent t enter name := by
  intro pos
  rw [listing]
  specialize hstop pos
  specialize hhalt pos
  generalize enter name pos = l at hstop hhalt
  induction l using Listing.cases_events with
  | nil => exact .single _
  | halted cause =>
    rw [hhalt cause rfl]
    exact .tooDeep _
  | reach offset l ih =>
    rw [Listing.map_cons_reach, Listing.first_cons_reach]
    exact .reachLeft offset (ih hstop hhalt)
  | found e l =>
    rw [Listing.map_cons_found, Listing.first_cons_found, hstop e List.mem_cons_self]
    exact .single _

section

variable {t : Text} {enter enter' : Word → Nat → Listing Extent} {name : Word} {skip : Option Word}

/-- A skip that passes over nothing may come before a pattern. -/
theorem tracks_skip_cons (hname : Silent t enter name) {p : Pattern}
    (h : ∀ pos, Tracks (p.listing t enter pos) (p.listing t enter' pos)) (pos : Nat) :
    Tracks ((sequence [.skip name, p]).listing t enter pos) (p.listing t enter' pos) := by
  have hskip := (hname pos).bind fun e => (h e.stop).map (Extent.after e.nodes)
  rw [Listing.bind_single, Extent.empty, Extent.map_after_nil] at hskip
  rw [listing, listingAll_cons]
  simpa only [listingAll_singleton] using hskip

mutual

/-- A pattern with skips that pass over nothing tracks the pattern without them. -/
theorem tracks_skippingIn (henter : ∀ name pos, Tracks (enter name pos) (enter' name pos))
    (hskip : ∀ name ∈ skip, Silent t enter name) : ∀ (p : Pattern) (pos : Nat),
    Tracks ((p.skippingIn skip).listing t enter pos) (p.listing t enter' pos)
  | .literal word, pos => by
    cases skip with
    | none => exact .refl _
    | some name => exact tracks_skip_cons (hskip name rfl) (fun _ => .refl _) pos
  | .charClass k, pos => by
    cases skip with
    | none => exact .refl _
    | some name => exact tracks_skip_cons (hskip name rfl) (fun _ => .refl _) pos
  | .reference n, pos => by
    have href (pos : Nat) : Tracks ((reference n).listing t enter pos)
        ((reference n).listing t enter' pos) := (henter n pos).map _
    cases skip with
    | none => exact href pos
    | some name => exact tracks_skip_cons (hskip name rfl) href pos
  | .skip n, pos => by
    have hsame : (Pattern.skip n).skippingIn skip = .skip n := by cases skip <;> rfl
    rw [hsame]
    exact ((henter n pos).map _).first _
  | .sequence items, pos => by
    rw [listing_skippingIn_sequence]
    exact tracks_skippingAllIn henter hskip items pos
  | .choice alternatives, pos => by
    rw [skippingIn_choice]
    exact tracks_listingAny henter hskip alternatives pos
  | .repetition item minimum maximum, pos => by
    rw [skippingIn_repetition]
    exact tracks_repeats (tracks_skippingIn henter hskip item) minimum maximum 0 pos

theorem tracks_skippingAllIn (henter : ∀ name pos, Tracks (enter name pos) (enter' name pos))
    (hskip : ∀ name ∈ skip, Silent t enter name) : ∀ (items : List Pattern) (pos : Nat),
    Tracks (listingAll t enter (skippingAllIn skip items) pos) (listingAll t enter' items pos)
  | [], pos => by
    rw [skippingAllIn_nil]
    exact .refl _
  | p :: ps, pos => by
    rw [skippingAllIn_cons]
    exact (tracks_skippingIn henter hskip p pos).bind
      fun e => (tracks_skippingAllIn henter hskip ps e.stop).map _

theorem tracks_listingAny (henter : ∀ name pos, Tracks (enter name pos) (enter' name pos))
    (hskip : ∀ name ∈ skip, Silent t enter name) : ∀ (alternatives : List Pattern) (pos : Nat),
    Tracks (listingAny t enter (skippingAllIn skip alternatives) pos)
      (listingAny t enter' alternatives pos)
  | [], pos => by
    rw [skippingAllIn_nil]
    exact .refl _
  | p :: ps, pos => by
    rw [skippingAllIn_cons]
    exact (tracks_skippingIn henter hskip p pos).append (tracks_listingAny henter hskip ps pos)

end

/-- A skip that passes over nothing may come after a pattern. -/
theorem tracks_skip_concat (hname : Silent t enter name) {p p' : Pattern} {pos : Nat}
    (h : Tracks (p.listing t enter pos) (p'.listing t enter' pos)) :
    Tracks (listingAll t enter [p, .skip name] pos) (p'.listing t enter' pos) := by
  have hskip := h.bind fun e => (hname e.stop).map (Extent.after e.nodes)
  rw [← listingAll_singleton p', listingAll_cons, listingAll_cons]
  simp only [listingAll_singleton]
  exact hskip

end

end Pattern

/-- A definition with skips that pass over nothing tracks what is written. -/
theorem Definition.tracks_woven {t : Text} {enter enter' : Word → Nat → Listing Extent}
    (henter : ∀ name pos, Tracks (enter name pos) (enter' name pos)) (e : Definition)
    (hskip : ∀ name ∈ e.skip, Pattern.Silent t enter name) (pos : Nat) :
    Tracks (e.woven.listing t enter pos) (e.pattern.listing t enter' pos) := by
  have hpattern := Pattern.tracks_skippingIn henter hskip e.pattern pos
  rw [listing_woven]
  cases hname : e.skip with
  | none =>
    rw [hname] at hpattern
    exact (Pattern.listingAll_singleton e.pattern pos).symm ▸ hpattern
  | some name =>
    rw [hname] at hpattern
    exact Pattern.tracks_skip_concat (hskip name hname) hpattern

namespace Rules

variable {rules rules' : Rules} {t : Text}

/-- In closed rules, a rule may be skipped in a text if the search for it finds nothing but the
    empty word there. -/
theorem Closed.silent (hrules : rules.Closed) {limit n : Nat} (hn : n ≤ limit) {name : Word}
    (hname : (rules.lookup name).isSome)
    (hstop : ∀ pos ≤ t.size, ∀ m ∈ (rules.enter t limit name pos).listing.results, m.stop = pos) :
    Pattern.Silent t (rules.listing t n) name := by
  refine Pattern.silent_of_stop_eq (fun pos e he => ?_)
    fun pos cause hcause => hrules.tooDeep_of_halt? hname hcause
  by_cases hpos : pos ≤ t.size
  · have he := (rules.listing_cut t hn name pos).results.subset he
    rw [← extents_enter, Search.extents, Listing.results_map] at he
    obtain ⟨m, hm, rfl⟩ := List.mem_map.1 he
    exact hstop pos hpos m hm
  · -- Behind the end of the text, there is nothing else to find.
    have := rules.within_listing t n name pos e he
    omega

/-- If patterns track each other where rules are entered so that they do, so do the rules. -/
theorem tracks_listing {limit : Nat} (h : Correspond (fun p p' => ∀ n < limit, ∀ enter',
      (∀ name pos, Tracks (rules.listing t n name pos) (enter' name pos)) →
      ∀ pos, Tracks (p.listing t (rules.listing t n) pos) (p'.listing t enter' pos)) rules rules')
    {n : Nat} (hn : n ≤ limit) (name : Word) (pos : Nat) :
    Tracks (rules.listing t n name pos) (rules'.listing t n name pos) := by
  induction n generalizing name pos with
  | zero =>
    rw [listing, listing]
    obtain ⟨hnone, hnone'⟩ | ⟨p, p', hp, hp', -⟩ := h.lookup name
    · rw [hnone, hnone']
      exact .refl _
    · rw [hp, hp']
      exact .refl _
  | succ n ih =>
    rw [listing, listing]
    obtain ⟨hnone, hnone'⟩ | ⟨p, p', hp, hp', htracks⟩ := h.lookup name
    · rw [hnone, hnone']
      exact .refl _
    · rw [hp, hp']
      exact htracks n (by omega) _ (fun name pos => ih (by omega) name pos) pos

end Rules

namespace Grammar

variable {g g' : Grammar} {limit furthest : Nat} {t : Text}

/-- If a grammar that tracks another one gives a tree, so does that one. -/
theorem parse_eq_ok_of_tracks (hroot : g'.root = g.root)
    (h : Tracks (g.rules.listing t limit g.root 0) (g'.rules.listing t limit g.root 0))
    {tree : Tree} (htree : g.parse limit t = .ok tree) : g'.parse limit t = .ok tree := by
  obtain ⟨⟨later, hlater⟩, -⟩ := h.outcome
  rw [parse_eq] at htree
  rw [parse_eq, hroot, ← hlater, List.find?_append]
  split at htree
  · rename_i hfound
    rw [hfound]
    exact htree
  · cases htree

/-- If a grammar that tracks another one refuses a text as unmatched, so does that one, at some
    offset. -/
theorem parse_eq_unmatched_of_tracks (hroot : g'.root = g.root)
    (h : Tracks (g.rules.listing t limit g.root 0) (g'.rules.listing t limit g.root 0))
    (hrefused : g.parse limit t = .error (.unmatched furthest)) :
    ∃ furthest', g'.parse limit t = .error (.unmatched furthest') := by
  obtain ⟨hstop, hhalt, -⟩ := parse_eq_unmatched_iff.1 hrefused
  obtain ⟨hresults, hhalt'⟩ := h.outcome.2 (by rw [hhalt]; nofun)
  refine ⟨_, parse_eq_unmatched_iff.2 ⟨?_, ?_, rfl⟩⟩
  · rwa [hroot, ← hresults]
  · rw [hroot, ← hhalt', hhalt]

end Grammar

end Descent
