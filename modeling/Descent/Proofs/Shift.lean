import Descent.Proofs.Enumeration

/-!
# Searching behind other text

A search never looks back: from an offset on, it only depends on what stands behind the offset. So
if a text is put behind another one, it is searched there as on its own, with all offsets moved on
by the size of the text in front (`Rules.search_behind`). The same matches are found in the same
order, the same terminals are reached in between, and one search breaks off exactly where the other
one does.
-/

namespace Descent

/-! ## Moving on -/

namespace Tree

mutual

/-- The tree in the text `t`, `n` characters further on. -/
def shift (t : Text) (n : Nat) : Tree → Tree
  | ⟨name, _, start, stop, children⟩ => ⟨name, t, n + start, n + stop, shiftAll t n children⟩

/-- Every tree of a list in the text `t`, `n` characters further on. -/
def shiftAll (t : Text) (n : Nat) : List Tree → List Tree
  | [] => []
  | tree :: trees => tree.shift t n :: shiftAll t n trees

end

theorem shiftAll_append (t : Text) (n : Nat) (trees later : List Tree) :
    shiftAll t n (trees ++ later) = shiftAll t n trees ++ shiftAll t n later := by
  induction trees with
  | nil => rfl
  | cons tree trees ih => rw [List.cons_append, shiftAll, ih, shiftAll, List.cons_append]

end Tree

namespace Extent

/-- The extent in the text `t`, `n` characters further on. -/
def shift (t : Text) (n : Nat) (e : Extent) : Extent := ⟨n + e.stop, Tree.shiftAll t n e.nodes⟩

variable (t : Text) (n : Nat)

@[simp] theorem shift_stop (e : Extent) : (e.shift t n).stop = n + e.stop := rfl

theorem shift_after (nodes : List Tree) (e : Extent) :
    (e.after nodes).shift t n = (e.shift t n).after (Tree.shiftAll t n nodes) := by
  rw [after, shift, Tree.shiftAll_append]
  rfl

/-- The node of a reference is that of the extent further on. -/
theorem shift_reference (t' : Text) (name : Word) (pos : Nat) (e : Extent) :
    shift t n ⟨e.stop, [e.toTree t' name pos]⟩ =
      ⟨n + e.stop, [(e.shift t n).toTree t name (n + pos)]⟩ := by
  rw [shift, toTree, Tree.shiftAll, Tree.shift]
  rfl

end Extent

/-- The event in the text `t`, `n` characters further on. -/
def Event.shift (t : Text) (n : Nat) : Event Extent → Event Extent
  | .reach offset => .reach (n + offset)
  | .found e => .found (e.shift t n)

namespace Listing

/-- Every event of the listing in the text `t`, `n` characters further on. -/
def shift (t : Text) (n : Nat) (l : Listing Extent) : Listing Extent :=
  ⟨l.events.map (Event.shift t n), l.halt?⟩

variable (t : Text) (n : Nat)

@[simp] theorem shift_cons_reach (offset : Nat) (l : Listing Extent) :
    (cons (.reach offset) l).shift t n = cons (.reach (n + offset)) (l.shift t n) := rfl

@[simp] theorem shift_cons_found (e : Extent) (l : Listing Extent) :
    (cons (.found e) l).shift t n = cons (.found (e.shift t n)) (l.shift t n) := rfl

@[simp] theorem shift_single (e : Extent) : (single e).shift t n = single (e.shift t n) := rfl

theorem shift_append (l m : Listing Extent) :
    (l ++ m).shift t n = l.shift t n ++ m.shift t n := by
  induction l using cases_events with
  | nil | halted => rfl
  | reach _ _ ih | found _ _ ih =>
    simp only [cons_append, shift_cons_reach, shift_cons_found, ih]

theorem shift_bind {f f' : Extent → Listing Extent}
    (hf : ∀ e, f' (e.shift t n) = (f e).shift t n) (l : Listing Extent) :
    (l.bind f).shift t n = (l.shift t n).bind f' := by
  induction l using cases_events with
  | nil | halted => rfl
  | reach offset l ih => simp only [bind_cons_reach, shift_cons_reach, ih]
  | found e l ih => simp only [bind_cons_found, shift_cons_found, shift_append, hf, ih]

theorem shift_map {f f' : Extent → Extent} (hf : ∀ e, f' (e.shift t n) = (f e).shift t n)
    (l : Listing Extent) : (l.map f).shift t n = (l.shift t n).map f' :=
  shift_bind t n (fun e => congrArg single (hf e)) l

theorem shift_map_after (nodes : List Tree) (l : Listing Extent) :
    (l.map (.after nodes)).shift t n = (l.shift t n).map (.after (Tree.shiftAll t n nodes)) :=
  shift_map t n (fun e => (Extent.shift_after t n nodes e).symm) l

theorem shift_first (default : Extent) (l : Listing Extent) :
    (l.first default).shift t n = (l.shift t n).first (default.shift t n) := by
  induction l using cases_events with
  | nil | halted => rfl
  | reach offset l ih => simp only [first_cons_reach, shift_cons_reach, ih]
  | found e l => simp only [first_cons_found, shift_cons_found, shift_single]

end Listing

/-! ## Behind other text -/

namespace Text

variable (u t : Text)

theorem getElem?_behind (pos : Nat) : (u ++ t)[u.size + pos]? = t[pos]? := by
  rw [Array.getElem?_append_right (Nat.le_add_right _ _), Nat.add_sub_cancel_left]

theorem holds_behind (word : Word) (pos : Nat) :
    (u ++ t).holds word (u.size + pos) = t.holds word pos := by
  induction word generalizing pos with
  | nil => simp only [holds, Array.size_append, Nat.add_le_add_iff_left]
  | cons c word ih => rw [holds, holds, getElem?_behind, Nat.add_assoc, ih]

end Text

namespace Pattern

variable {u t : Text}

theorem shift_repeats {size n : Nat} {item item' : Nat → Listing Extent}
    (hitem : ∀ pos, item' (n + pos) = (item pos).shift t n) (minimum : Int) (maximum : Option Int)
    (count pos : Nat) :
    repeats (n + size) item' minimum maximum count (n + pos) =
      (repeats size item minimum maximum count pos).shift t n := by
  -- Both repetitions have the same number of characters left, of which they take one at least.
  induction h : size - pos using Nat.strongRecOn generalizing count pos with
  | ind left ih =>
    rw [repeats, repeats, Listing.shift_append]
    refine congrArg₂ (· ++ ·) ?_ ?_
    · split
      · rfl
      · rw [hitem, ← Listing.shift_bind]
        intro e
        simp only [Extent.shift_stop, Nat.add_lt_add_iff_left, Nat.add_le_add_iff_left]
        split
        · rw [ih (size - e.stop) (by omega) (count + 1) e.stop rfl, Listing.shift_map_after]
          rfl
        · rfl
    · split <;> rfl

section

variable {enter enter' : Word → Nat → Listing Extent}

mutual

/-- A pattern is listed behind another text as on its own, if rules are. -/
theorem listing_behind
    (henter : ∀ name pos, enter' name (u.size + pos) = (enter name pos).shift (u ++ t) u.size) :
    ∀ (p : Pattern) (pos : Nat), p.listing (u ++ t) enter' (u.size + pos) =
      (p.listing t enter pos).shift (u ++ t) u.size
  | .literal word, pos => by
    rw [listing, listing, Text.holds_behind, Nat.add_assoc]
    split <;> rfl
  | .charClass k, pos => by
    rw [listing, listing, Text.getElem?_behind, Nat.add_assoc]
    split <;> rfl
  | .sequence items, pos => listingAll_behind henter items pos
  | .choice alternatives, pos => listingAny_behind henter alternatives pos
  | .repetition item minimum maximum, pos => by
    rw [listing, listing, Array.size_append]
    exact shift_repeats (listing_behind henter item) minimum maximum 0 pos
  | .reference name, pos => by
    rw [listing, listing, henter, Listing.shift_map]
    exact fun e => (Extent.shift_reference _ _ t name pos e).symm
  | .skip name, pos => by
    rw [listing, listing, henter, Listing.shift_first, Listing.shift_map]
    · rfl
    · exact fun _ => rfl

theorem listingAll_behind
    (henter : ∀ name pos, enter' name (u.size + pos) = (enter name pos).shift (u ++ t) u.size) :
    ∀ (items : List Pattern) (pos : Nat), listingAll (u ++ t) enter' items (u.size + pos) =
      (listingAll t enter items pos).shift (u ++ t) u.size
  | [], pos => rfl
  | item :: items, pos => by
    rw [listingAll, listingAll, listing_behind henter item, Listing.shift_bind]
    intro e
    rw [Listing.shift_map_after, ← listingAll_behind henter items]
    rfl

theorem listingAny_behind
    (henter : ∀ name pos, enter' name (u.size + pos) = (enter name pos).shift (u ++ t) u.size) :
    ∀ (alternatives : List Pattern) (pos : Nat),
      listingAny (u ++ t) enter' alternatives (u.size + pos) =
        (listingAny t enter alternatives pos).shift (u ++ t) u.size
  | [], pos => rfl
  | p :: ps, pos => by
    rw [listingAny, listingAny, Listing.shift_append, listing_behind henter p,
      listingAny_behind henter ps]

end

end

end Pattern

namespace Rules

theorem listing_behind (rules : Rules) (u t : Text) (limit : Nat) (name : Word) (pos : Nat) :
    rules.listing (u ++ t) limit name (u.size + pos) =
      (rules.listing t limit name pos).shift (u ++ t) u.size := by
  induction limit generalizing name pos with
  | zero =>
    rw [listing, listing]
    cases rules.lookup name <;> rfl
  | succ limit ih =>
    rw [listing, listing]
    cases rules.lookup name with
    | none => rfl
    | some p => exact p.listing_behind ih pos

/-- A text is searched behind another one as on its own. The same matches are found in the same
    order, with the same terminals reached in between, all of it further on by the size of the text
    in front, and the search breaks off where it does on its own, or not at all. -/
theorem search_behind (rules : Rules) (u t : Text) (limit : Nat) (p : Pattern) (pos : Nat) :
    (p.search (u ++ t) (rules.enter (u ++ t) limit) (u.size + pos)).extents =
      (p.search t (rules.enter t limit) pos).extents.shift (u ++ t) u.size := by
  rw [p.extents_search (rules.extents_enter _ limit) (rules.within_listing _ limit),
    p.extents_search (rules.extents_enter _ limit) (rules.within_listing _ limit)]
  exact p.listing_behind (rules.listing_behind u t limit) pos

end Rules

end Descent
