import Descent.Proofs.Flat

/-!
# Once or more

To repeat an item once at least is to match it once and then to repeat it any number of times, if it
never matches nothing: then the one lists what the other does (`Pattern.listing_oneOrMore`). But an
empty match counts as no repetition, so an item that matches nothing at an offset makes a
difference there. The item with repetitions after it stops at the offset itself, too, while the
repetition does not, and that is the only difference (`Pattern.stopsAt_onceAndFurther`).
-/

namespace Descent

/-! ## Where matches stop -/

namespace Listing

variable {l m : Listing Extent} {stop : Nat}

/-- One of the matches stops at the offset. -/
def StopsAt (l : Listing Extent) (stop : Nat) : Prop := ∃ e ∈ l.results, e.stop = stop

theorem stopsAt_append :
    (l ++ m).StopsAt stop ↔ l.StopsAt stop ∨ l.halt? = none ∧ m.StopsAt stop := by
  simp only [StopsAt, mem_results_append, or_and_right, exists_or, and_assoc, exists_and_left]

@[simp] theorem stopsAt_single (e : Extent) : (single e).StopsAt stop ↔ e.stop = stop := by
  simp [StopsAt]

/-- It only matters where the matches stop. -/
@[simp] theorem stopsAt_map_after (nodes : List Tree) :
    (l.map (.after nodes)).StopsAt stop ↔ l.StopsAt stop := by
  simp [StopsAt]

theorem stopsAt_bind {f : Extent → Listing Extent} (h : (l.bind f).halt? = none) :
    (l.bind f).StopsAt stop ↔ ∃ e ∈ l.results, (f e).StopsAt stop := by
  simp only [StopsAt, results_bind h, List.mem_flatMap]
  exact ⟨fun ⟨x, ⟨e, he, hx⟩, hstop⟩ => ⟨e, he, x, hx, hstop⟩,
    fun ⟨e, he, x, hx, hstop⟩ => ⟨x, ⟨e, he, hx⟩, hstop⟩⟩

/-- If some results are replaced by listings that are broken off, and otherwise by nothing, it is
    broken off all the same in the end, and nothing else is listed than before or in these. -/
theorem bind_of_halt? {f g : Extent → Listing Extent} {cause : Halt} (stop : Nat)
    (hfg : ∀ e ∈ l.results, g e = f e ∨ f e = nil ∧ (g e).halt? = some cause ∧
      ∀ stop, (g e).StopsAt stop ↔ m.StopsAt stop) :
    ((l.bind f).halt? = some cause → (l.bind g).halt? = some cause) ∧
    ((l.bind g).StopsAt stop → (l.bind f).StopsAt stop ∨ m.StopsAt stop) ∧
    ((l.bind f).StopsAt stop → m.StopsAt stop → (l.bind g).StopsAt stop) := by
  induction l using cases_events with
  | nil | halted => exact ⟨id, .inl, fun h _ => h⟩
  | reach offset l ih => exact ih hfg
  | found e l ih =>
    obtain ⟨he, hfg⟩ := List.forall_mem_cons.1 hfg
    obtain ⟨ihhalt, ihsound, ihcomplete⟩ := ih hfg
    rw [bind_cons_found, bind_cons_found]
    obtain he | ⟨hnil, hhalt, hstops⟩ := he
    · rw [he, halt?_append, halt?_append, Option.or_eq_some_iff, Option.or_eq_some_iff,
        stopsAt_append, stopsAt_append]
      refine ⟨.imp_right (.imp_right ihhalt), fun h => ?_, fun h hm => ?_⟩
      · obtain h | ⟨hnone, h⟩ := h
        · exact .inl (.inl h)
        · exact (ihsound h).imp_left fun h => .inr ⟨hnone, h⟩
      · exact h.imp_right (.imp_right fun h => ihcomplete h hm)
    · rw [hnil, nil_append, append_of_halt? hhalt, hstops]
      exact ⟨fun _ => hhalt, .inr, fun _ hm => hm⟩

end Listing

namespace Pattern

/-! ## Repetitions without a maximum -/

section

variable {size : Nat} {item : Nat → Listing Extent}

/-- Any number of repetitions. -/
def star (size : Nat) (item : Nat → Listing Extent) (pos : Nat) : Listing Extent :=
  repeats size item 0 none 0 pos

/-- What follows a match of the item that is not empty: any number of repetitions. -/
def further (size : Nat) (item : Nat → Listing Extent) (pos : Nat) (e : Extent) : Listing Extent :=
  if pos < e.stop ∧ e.stop ≤ size then (star size item e.stop).map (.after e.nodes) else .nil

/-- Once there are enough repetitions, it does not matter how many there are. -/
theorem repeats_eq_star {minimum : Int} {count : Nat} (h : minimum ≤ count) (pos : Nat) :
    repeats size item minimum none count pos = star size item pos := by
  -- Every repetition takes a character at least.
  induction hsize : size - pos using Nat.strongRecOn generalizing minimum count pos with
  | ind n ih =>
    have hagain {e : Extent} (hstop : pos < e.stop ∧ e.stop ≤ size) {minimum : Int} {count : Nat}
        (h : minimum ≤ count) :
        repeats size item minimum none (count + 1) e.stop = star size item e.stop :=
      ih (size - e.stop) (by omega) (by omega) e.stop rfl
    rw [star, repeats, repeats, if_pos h, if_pos (by omega : (0 : Int) ≤ (0 : Nat)),
      Option.any_none, if_neg Bool.false_ne_true]
    congr 2
    funext e
    split
    · rename_i hstop
      rw [hagain hstop h, hagain hstop (by omega : (0 : Int) ≤ (0 : Nat))]
    · rfl

/-- After as many repetitions as are enough with one more, there has to be one more. -/
theorem repeats_succ (count pos : Nat) : repeats size item (count + 1 : Nat) none count pos =
    (item pos).bind (further size item pos) := by
  have hcount : ¬((count + 1 : Nat) : Int) ≤ count := by omega
  rw [repeats, if_neg hcount, Listing.append_nil, Option.any_none, if_neg Bool.false_ne_true]
  congr 1
  funext e
  rw [further, repeats_eq_star (Int.le_refl _)]

theorem star_eq (pos : Nat) :
    star size item pos = (item pos).bind (further size item pos) ++ .single (.empty pos) := by
  rw [star, repeats, if_pos (by omega : (0 : Int) ≤ (0 : Nat)), Option.any_none,
    if_neg Bool.false_ne_true]
  congr 2
  funext e
  rw [further, repeats_eq_star (by omega)]

end

/-! ## An item before repetitions -/

section

variable {size pos stop : Nat} {item : Nat → Listing Extent} {l : Listing Extent}

/-- The item with any number of repetitions after it. -/
def onceAndFurther (size : Nat) (item : Nat → Listing Extent) (pos : Nat) : Listing Extent :=
  (item pos).bind fun e => (star size item e.stop).map (.after e.nodes)

/-- A match of the item goes on, or is empty. -/
theorem further_of_within (hitem : Within size item) {e : Extent} (he : e ∈ (item pos).results) :
    (e.stop ≠ pos ∧ further size item pos e = (star size item e.stop).map (.after e.nodes)) ∨
      e.stop = pos ∧ further size item pos e = .nil := by
  have := hitem pos e he
  by_cases hstop : e.stop = pos
  · exact .inr ⟨hstop, if_neg (by omega)⟩
  · exact .inl ⟨hstop, if_pos (by omega)⟩

/-- What follows takes a character at least, along with the match before it. -/
theorem lt_of_stopsAt_further (h : ((item pos).bind (further size item pos)).StopsAt stop) :
    pos < stop := by
  obtain ⟨x, hx, rfl⟩ := h
  obtain ⟨e, -, hx⟩ := Listing.mem_results_bind hx
  rw [further] at hx
  split at hx
  · rename_i hstop
    obtain ⟨x', hx', rfl⟩ := Listing.mem_results_map.1 hx
    exact Nat.lt_of_lt_of_le hstop.1 (within_repeats _ _ _ _ _ _ x' hx').1
  · cases hx

/-- An item that does not match nothing goes on after every match. -/
theorem onceAndFurther_eq (hitem : Within size item)
    (hempty : ∀ e ∈ (item pos).results, e.stop ≠ pos) :
    onceAndFurther size item pos = (item pos).bind (further size item pos) :=
  Listing.bind_congr fun e he =>
    ((further_of_within hitem he).resolve_right fun h => hempty e he h.1).2.symm

/-- After an empty match comes what comes after the other ones, and then the offset itself. -/
theorem star_stopsAt :
    (star size item pos).StopsAt stop ↔ ((item pos).bind (further size item pos)).StopsAt stop ∨
      ((item pos).bind (further size item pos)).halt? = none ∧ stop = pos := by
  rw [star_eq, Listing.stopsAt_append, Listing.stopsAt_single, Extent.empty_stop,
    eq_comm (a := pos)]

/-- The item with repetitions after it breaks off as one repetition at least does. It stops where
    the other one does, and at the offset itself if the item matches nothing there. -/
theorem stopsAt_onceAndFurther (hitem : Within size item) (stop : Nat) :
    (onceAndFurther size item pos).halt? = ((item pos).bind (further size item pos)).halt? ∧
    ((onceAndFurther size item pos).StopsAt stop ↔
      ((item pos).bind (further size item pos)).StopsAt stop ∨
        stop = pos ∧ (item pos).StopsAt pos ∧
          ((item pos).bind (further size item pos)).halt? = none) := by
  have hstar : (star size item pos).halt? = ((item pos).bind (further size item pos)).halt? := by
    rw [star_eq, Listing.halt?_append, Listing.halt?_single, Option.or_none]
  cases hhalt : ((item pos).bind (further size item pos)).halt? with
  | none =>
    obtain ⟨hnone, hfurther⟩ := Listing.halt?_bind_eq_none.1 hhalt
    have honce : (onceAndFurther size item pos).halt? = none := by
      refine Listing.halt?_bind_eq_none.2 ⟨hnone, fun e he => ?_⟩
      obtain ⟨-, h⟩ | ⟨hstop, -⟩ := further_of_within hitem he
      · exact h ▸ hfurther e he
      · rw [Listing.halt?_map, hstop, hstar, hhalt]
    refine ⟨honce, ?_⟩
    rw [onceAndFurther, Listing.stopsAt_bind honce]
    constructor
    · rintro ⟨e, he, h⟩
      obtain ⟨-, heq⟩ | ⟨hstop, -⟩ := further_of_within hitem he
      · exact .inl ((Listing.stopsAt_bind hhalt).2 ⟨e, he, heq ▸ h⟩)
      · rw [Listing.stopsAt_map_after, hstop, star_stopsAt] at h
        exact h.imp_right fun h => ⟨h.2, ⟨e, he, hstop⟩, rfl⟩
    · rintro (h | ⟨rfl, ⟨e, he, hstop⟩, -⟩)
      · obtain ⟨e, he, h⟩ := (Listing.stopsAt_bind hhalt).1 h
        obtain ⟨-, heq⟩ | ⟨-, hnil⟩ := further_of_within hitem he
        · exact ⟨e, he, heq ▸ h⟩
        · obtain ⟨x, hx, -⟩ := hnil ▸ h
          cases hx
      · refine ⟨e, he, ?_⟩
        rw [Listing.stopsAt_map_after, hstop, star_stopsAt]
        exact .inr ⟨hhalt, rfl⟩
  | some cause =>
    -- Repetitions after an empty match break off as well, after the same matches.
    have hreplaced : ∀ e ∈ (item pos).results,
        (star size item e.stop).map (Extent.after e.nodes) = further size item pos e ∨
          further size item pos e = .nil ∧
          ((star size item e.stop).map (Extent.after e.nodes)).halt? = some cause ∧
          ∀ stop, ((star size item e.stop).map (Extent.after e.nodes)).StopsAt stop ↔
            ((item pos).bind (further size item pos)).StopsAt stop := by
      intro e he
      obtain ⟨-, heq⟩ | ⟨hstop, hnil⟩ := further_of_within hitem he
      · exact .inl heq.symm
      · refine .inr ⟨hnil, by rw [Listing.halt?_map, hstop, hstar, hhalt], fun stop => ?_⟩
        rw [Listing.stopsAt_map_after, hstop, star_stopsAt, hhalt]
        exact or_iff_left fun h => nomatch h.1
    obtain ⟨honce, hsound, hcomplete⟩ := Listing.bind_of_halt? stop hreplaced
    refine ⟨honce hhalt, fun h => .inl ((hsound h).elim id id), ?_⟩
    rintro (h | ⟨-, -, h⟩)
    · exact hcomplete h h
    · cases h

end

/-! ## Patterns -/

section

variable {t : Text} {enter : Word → Nat → Listing Extent}

theorem listing_oneOrMore (p : Pattern) (pos : Nat) :
    (repetition p 1 none).listing t enter pos =
      (p.listing t enter pos).bind (further t.size (p.listing t enter) pos) :=
  repeats_succ 0 pos

theorem listing_onceAndFurther (p : Pattern) (pos : Nat) :
    listingAll t enter [p, repetition p 0 none] pos =
      onceAndFurther t.size (p.listing t enter) pos := by
  rw [listingAll_cons]
  simp only [listingAll_singleton]
  rfl

end

end Pattern

end Descent
