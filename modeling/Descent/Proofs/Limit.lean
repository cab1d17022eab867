import Descent.Proofs.Enumeration
import Descent.Proofs.Outcome

/-!
# The limit on nested rules

A search under a limit on nested rules either never comes to the limit, and then a larger
limit makes no difference, or it breaks off there. In the second case it lists, up to that
point, what it lists under a larger limit: one listing is *cut* from the other (`Cut`).

A cut is handed on by everything that listings are put together by. In particular a
listing that is cut is not followed by anything, so that no alternative, repetition or
skip takes a search that is too deep for one that fails. So a limit only decides whether a
text is parsed or refused at all, but not how (`Grammar.parse_of_le`).
-/

namespace Descent

/-- The listing `l` is `m`, or is broken off as too deep after some first events of `m`. -/
inductive Cut {α : Type} : (l m : Listing α) → Prop
  | same (l : Listing α) : Cut l l
  | tooDeep (l : Listing α) : Cut (.halted .tooDeep) l
  | cons (e : Event α) {l m : Listing α} (h : Cut l m) : Cut (.cons e l) (.cons e m)

namespace Cut

variable {α β : Type} {l l' m m' : Listing α}

theorem append (hl : Cut l l') (hm : Cut m m') : Cut (l ++ m) (l' ++ m') := by
  induction hl with
  | same l =>
    induction l using Listing.cases_events with
    | nil => exact hm
    | halted => exact .same _
    | reach _ _ ih | found _ _ ih =>
      simp only [Listing.cons_append]
      exact .cons _ ih
  | tooDeep => exact .tooDeep _
  | cons e _ ih =>
    simp only [Listing.cons_append]
    exact .cons e ih

theorem bind {f f' : α → Listing β} (h : Cut l l') (hf : ∀ a, Cut (f a) (f' a)) :
    Cut (l.bind f) (l'.bind f') := by
  induction h with
  | same l =>
    induction l using Listing.cases_events with
    | nil | halted => exact .same _
    | reach _ _ ih => exact .cons _ ih
    | found a _ ih => exact (hf a).append ih
  | tooDeep => exact .tooDeep _
  | cons e _ ih => cases e with
    | reach => exact .cons _ ih
    | found a => exact (hf a).append ih

theorem map (f : α → β) (h : Cut l l') : Cut (l.map f) (l'.map f) :=
  h.bind fun _ => .same _

theorem first (default : α) (h : Cut l l') : Cut (l.first default) (l'.first default) := by
  induction h with
  | same => exact .same _
  | tooDeep => exact .tooDeep _
  | cons e _ ih => cases e with
    | reach =>
      simp only [Listing.first_cons_reach]
      exact .cons _ ih
    | found =>
      simp only [Listing.first_cons_found]
      exact .same _

/-- A listing that is cut from another one is the same, or shows that it is too deep. -/
theorem eq_of_halt? (h : Cut l m) (hl : l.halt? ≠ some .tooDeep) : l = m := by
  induction h with
  | same => rfl
  | tooDeep => exact absurd rfl hl
  | cons e _ ih => rw [ih hl]

/-- A listing that is cut from another one has its first results. -/
theorem results (h : Cut l m) : l.results <+: m.results := by
  induction h with
  | same => exact List.prefix_rfl
  | tooDeep => exact List.nil_prefix
  | cons e _ ih => cases e with
    | reach => exact ih
    | found a => exact (List.prefix_cons_inj a).2 ih

theorem head? {a : α} (h : Cut l m) (ha : l.results.head? = some a) :
    m.results.head? = some a := by
  obtain ⟨later, hm⟩ := h.results
  rw [← hm, List.head?_append, ha, Option.some_or]

theorem results_eq_nil (h : Cut l m) (hm : m.results = []) : l.results = [] :=
  List.prefix_nil.1 (hm ▸ h.results)

/-- The same comes of a listing that is cut from another one, unless it is too deep. -/
theorem outcome_eq {l m : Listing Extent} {t : Text} {name : Word} (h : Cut l m)
    (hdeep : ∀ furthest, l.outcome t name ≠ .error (.halted .tooDeep furthest)) :
    m.outcome t name = l.outcome t name := by
  rw [Listing.outcome] at hdeep ⊢
  rw [Listing.outcome]
  cases hfound : l.results.find? (·.stop = t.size) with
  | some e =>
    obtain ⟨later, hlater⟩ := h.results
    rw [← hlater, List.find?_append, hfound, Option.some_or]
  | none =>
    rw [← h.eq_of_halt?, hfound]
    intro hhalt
    rw [hfound] at hdeep
    exact hdeep _ (by rw [Listing.refusal, hhalt])

end Cut

namespace Pattern

theorem repeats_cut {size : Nat} {item item' : Nat → Listing Extent}
    (hitem : ∀ pos, Cut (item pos) (item' pos)) (minimum : Int) (maximum : Option Int)
    (count pos : Nat) :
    Cut (repeats size item minimum maximum count pos)
      (repeats size item' minimum maximum count pos) := by
  induction h : size - pos using Nat.strongRecOn generalizing count pos with
  | ind n ih =>
    rw [repeats, repeats]
    refine .append ?_ (.same _)
    split
    · exact .same _
    · refine (hitem pos).bind fun e => ?_
      split
      · exact (ih (size - e.stop) (by omega) (count + 1) e.stop rfl).map _
      · exact .same _

section

variable {t : Text} {enter enter' : Word → Nat → Listing Extent}

mutual

/-- A pattern hands on a cut in what is listed for rules. -/
theorem listing_cut (henter : ∀ name pos, Cut (enter name pos) (enter' name pos)) :
    ∀ (p : Pattern) (pos : Nat), Cut (p.listing t enter pos) (p.listing t enter' pos)
  | .literal _, _ => .same _
  | .charClass _, _ => .same _
  | .sequence items, pos => listingAll_cut henter items pos
  | .choice alternatives, pos => listingAny_cut henter alternatives pos
  | .repetition item minimum maximum, pos =>
    repeats_cut (listing_cut henter item) minimum maximum 0 pos
  | .reference name, pos => (henter name pos).map _
  | .skip name, pos => ((henter name pos).map _).first _

theorem listingAll_cut (henter : ∀ name pos, Cut (enter name pos) (enter' name pos)) :
    ∀ (items : List Pattern) (pos : Nat),
      Cut (listingAll t enter items pos) (listingAll t enter' items pos)
  | [], _ => .same _
  | item :: items, pos =>
    (listing_cut henter item pos).bind fun e => (listingAll_cut henter items e.stop).map _

theorem listingAny_cut (henter : ∀ name pos, Cut (enter name pos) (enter' name pos)) :
    ∀ (alternatives : List Pattern) (pos : Nat),
      Cut (listingAny t enter alternatives pos) (listingAny t enter' alternatives pos)
  | [], _ => .same _
  | p :: ps, pos => (listing_cut henter p pos).append (listingAny_cut henter ps pos)

end

end

end Pattern

namespace Rules

/-- What is listed under a limit is cut from what is listed under a larger one. -/
theorem listing_cut (rules : Rules) (t : Text) {limit limit' : Nat} (h : limit ≤ limit')
    (name : Word) (pos : Nat) :
    Cut (rules.listing t limit name pos) (rules.listing t limit' name pos) := by
  induction limit generalizing limit' name pos with
  | zero =>
    rw [listing]
    cases hname : rules.lookup name with
    | none =>
      cases limit' <;> rw [listing, hname] <;> exact .same _
    | some p => exact .tooDeep _
  | succ limit ih =>
    obtain ⟨limit', rfl⟩ := Nat.exists_eq_add_of_le h
    rw [Nat.add_right_comm, listing, listing]
    cases rules.lookup name with
    | none => exact .same _
    | some p => exact p.listing_cut (fun name pos => ih (Nat.le_add_right _ _) name pos) pos

/-- A pattern lists the same under any two limits for which it is not too deep. -/
theorem listing_eq_of_halt? {rules : Rules} {t : Text} {limit limit' : Nat} {p : Pattern}
    {pos : Nat} (h : (p.listing t (rules.listing t limit) pos).halt? ≠ some .tooDeep)
    (h' : (p.listing t (rules.listing t limit') pos).halt? ≠ some .tooDeep) :
    p.listing t (rules.listing t limit') pos = p.listing t (rules.listing t limit) pos := by
  obtain hle | hle := Nat.le_total limit limit'
  · exact ((p.listing_cut (rules.listing_cut t hle) pos).eq_of_halt? h).symm
  · exact (p.listing_cut (rules.listing_cut t hle) pos).eq_of_halt? h'

end Rules

namespace Grammar

theorem parse_eq_of_le (g : Grammar) (t : Text) {limit limit' : Nat} (h : limit ≤ limit')
    (hdeep : ∀ furthest, g.parse limit t ≠ .error (.halted .tooDeep furthest)) :
    g.parse limit' t = g.parse limit t := by
  rw [parse_eq] at hdeep ⊢
  rw [parse_eq]
  exact (g.rules.listing_cut t h g.root 0).outcome_eq hdeep

/-- Grammars that parse a text alike under one limit do so under another one for the second of them,
    unless the text is too deep. -/
theorem parse_eq_of_not_tooDeep {g g' : Grammar} {t : Text} {limit limit' : Nat}
    (h : g'.parse limit t = g.parse limit t)
    (hdeep : ∀ furthest, g.parse limit t ≠ .error (.halted .tooDeep furthest))
    (hdeep' : ∀ furthest, g'.parse limit' t ≠ .error (.halted .tooDeep furthest)) :
    g'.parse limit' t = g.parse limit t := by
  rw [← h] at hdeep ⊢
  obtain hle | hle := Nat.le_total limit limit'
  · exact g'.parse_eq_of_le t hle hdeep
  · exact (g'.parse_eq_of_le t hle hdeep').symm

/-- A larger limit only makes a difference to a text that is too deep. The search for any
    pattern under a limit finds and reaches the same as under a larger one, in the same
    order, unless it breaks off as too deep on the way. -/
theorem parse_of_le (g : Grammar) (t : Text) {limit limit' : Nat} (h : limit ≤ limit') :
    ((∀ furthest, g.parse limit t ≠ .error (.halted .tooDeep furthest)) →
      g.parse limit' t = g.parse limit t) ∧
    ∀ (p : Pattern) (pos : Nat),
      Cut (p.search t (g.rules.enter t limit) pos).extents
        (p.search t (g.rules.enter t limit') pos).extents := by
  refine ⟨g.parse_eq_of_le t h, fun p pos => ?_⟩
  rw [p.extents_search (g.rules.extents_enter t limit) (g.rules.within_listing t limit),
    p.extents_search (g.rules.extents_enter t limit') (g.rules.within_listing t limit')]
  exact p.listing_cut (g.rules.listing_cut t h) pos

/-- The left-recursive grammar `a ::= 'x' | a 'y';`, in which every search for more
    breaks off in the end. -/
def leftRecursive : Grammar :=
  ⟨[(['a'], .choice [.literal ['x'], .sequence [.reference ['a'], .literal ['y']]])], ['a']⟩

/-- A text that is parsed before the limit is hit has the same parse tree under any larger
    limit. -/
theorem parse_leftRecursive :
    (leftRecursive.parse 3 #['x', 'y', 'y']).isOk ∧
      leftRecursive.parse 9 #['x', 'y', 'y'] = leftRecursive.parse 3 #['x', 'y', 'y'] := by
  have hok : (leftRecursive.parse 3 #['x', 'y', 'y']).isOk := by decide
  exact ⟨hok, (leftRecursive.parse_of_le _ (by decide : 3 ≤ 9)).1 fun _ => ne_error_of_isOk hok _⟩

end Grammar

end Descent
