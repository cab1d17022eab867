import Descent.Search

/-!
# Listings

A search that is run to its end is a list of *events*, the offsets it reaches and the
results it finds, in the order in which they come, and the reason why it breaks off, if
it does. Such a listing is plain data, and is put together as lists are.

* One listing after another (`++`) has the events of both, unless the first one is
  broken off, and then only those of the first.
* `Listing.bind` lists, in place of every result, what a function lists for it.
* `Listing.first` goes on to the first result only.
* `Listing.results` are the results alone, `Listing.reached` the offsets, and
  `Listing.stamped` the results with the largest offset reached before each of them.

The listing of a search (`Search.listing`) is put together as the search is: to continue
every result by another search is to bind (`Search.map_listing_explore`). What is taken from
a search is read off its listing (`Search.take_results`, `Search.take_ending`,
`Search.firstWhere_eq`).
-/

namespace Descent

/-- What happens in a search. -/
inductive Event (α : Type) where
  /-- Some of the text is matched up to `offset`. -/
  | reach (offset : Nat)
  /-- A result is found. -/
  | found (result : α)
  deriving DecidableEq, Repr

namespace Event

variable {α : Type}

/-- The offset reached. -/
def offset? : Event α → Option Nat
  | .reach offset => some offset
  | .found _ => none

/-- The result found. -/
def result? : Event α → Option α
  | .reach _ => none
  | .found a => some a

/-- The largest offset reached in a list of events, or `0`. -/
def furthest (events : List (Event α)) : Nat := (events.filterMap offset?).foldr max 0

@[simp] theorem furthest_nil : furthest ([] : List (Event α)) = 0 := rfl

@[simp] theorem furthest_cons_reach (offset : Nat) (events : List (Event α)) :
    furthest (.reach offset :: events) = max offset (furthest events) := rfl

@[simp] theorem furthest_cons_found (a : α) (events : List (Event α)) :
    furthest (.found a :: events) = furthest events := rfl

theorem furthest_append (before events : List (Event α)) :
    furthest (before ++ events) = max (furthest before) (furthest events) := by
  induction before with
  | nil => simp
  | cons e before ih => cases e <;> simp [ih, Nat.max_assoc]

/-- The results of events, each with the largest offset reached before it, the events
    `before` included. -/
def stamped (before : List (Event α)) : (events : List (Event α)) → List (α × Nat)
  | [] => []
  | .reach offset :: events => stamped (before ++ [.reach offset]) events
  | .found a :: events => (a, furthest before) :: stamped (before ++ [.found a]) events

/-- The results of events are those that are stamped. -/
theorem map_stamped (before events : List (Event α)) :
    (stamped before events).map (·.1) = events.filterMap result? := by
  induction events generalizing before with
  | nil => rfl
  | cons e events ih => cases e with
    | reach offset => exact ih _
    | found a => exact congrArg (List.cons a) (ih _)

end Event

/-- All that happens in a search, in order. -/
structure Listing (α : Type) where
  /-- What happens. -/
  events : List (Event α)
  /-- Why the search breaks off after that, if it does. -/
  halt? : Option Halt
  deriving DecidableEq, Repr

namespace Listing

variable {α β γ : Type}

/-! ## Putting listings together -/

/-- Nothing happens. -/
def nil : Listing α := ⟨[], none⟩

/-- The search breaks off at once. -/
def halted (cause : Halt) : Listing α := ⟨[], some cause⟩

/-- An event before the others. -/
def cons (e : Event α) (l : Listing α) : Listing α := ⟨e :: l.events, l.halt?⟩

/-- One result is found. -/
def single (a : α) : Listing α := cons (.found a) nil

/-- One listing after another, if the first one is not broken off. -/
def append : (l m : Listing α) → Listing α
  | ⟨events, none⟩, m => ⟨events ++ m.events, m.halt?⟩
  | ⟨events, some cause⟩, _ => ⟨events, some cause⟩

instance : Append (Listing α) := ⟨append⟩

/-- Every result replaced by what `f` lists for it. -/
def bind (l : Listing α) (f : α → Listing β) : Listing β :=
  (l.events.map fun
    | .reach offset => cons (.reach offset) nil
    | .found a => f a).foldr (· ++ ·) ⟨[], l.halt?⟩

/-- Every result changed by `f`. -/
def map (f : α → β) (l : Listing α) : Listing β := l.bind fun a => single (f a)

/-- The results in order. -/
def results (l : Listing α) : List α := l.events.filterMap Event.result?

/-- The offsets reached in order. -/
def reached (l : Listing α) : List Nat := l.events.filterMap Event.offset?

/-- The events up to the first result, or else all of them and then `default`. -/
def first (default : α) (l : Listing α) : Listing α :=
  match l.results with
  | [] => l ++ single default
  | a :: _ => ⟨l.events.takeWhile (·.result?.isNone) ++ [.found a], none⟩

/-- The results, each with the largest offset reached before it. -/
def stamped (l : Listing α) : List (α × Nat) := Event.stamped [] l.events

/-- The largest offset reached, where `furthest` is the largest one reached before, or why
    the search breaks off. -/
def ending (furthest : Nat) (l : Listing α) : Except Halt Nat :=
  match l.halt? with
  | none => .ok (max furthest (Event.furthest l.events))
  | some cause => .error cause

/-- How a search is refused, when all of its results are, where `furthest` is the largest
    offset reached before. -/
def refusal (furthest : Nat) (l : Listing α) : Refusal :=
  match l.halt? with
  | none => .unmatched (max furthest (Event.furthest l.events))
  | some cause => .halted cause (max furthest (Event.furthest l.events))

/-- A listing is empty, or is broken off at once, or goes on after an event. -/
@[elab_as_elim]
theorem cases_events {motive : Listing α → Prop} (nil : motive nil)
    (halted : ∀ cause, motive (halted cause))
    (reach : ∀ offset l, motive l → motive (cons (.reach offset) l))
    (found : ∀ a l, motive l → motive (cons (.found a) l)) (l : Listing α) : motive l := by
  obtain ⟨events, halt?⟩ := l
  induction events with
  | nil => cases halt? with
    | none => exact nil
    | some cause => exact halted cause
  | cons e events ih => cases e with
    | reach offset => exact reach offset _ ih
    | found a => exact found a _ ih

/-! ## One after another -/

@[simp] theorem nil_append (l : Listing α) : nil ++ l = l := rfl

@[simp] theorem halted_append (cause : Halt) (l : Listing α) :
    halted cause ++ l = halted cause := rfl

@[simp] theorem cons_append (e : Event α) (l m : Listing α) :
    cons e l ++ m = cons e (l ++ m) := by
  obtain ⟨events, _ | cause⟩ := l <;> rfl

@[simp] theorem append_nil (l : Listing α) : l ++ nil = l := by
  induction l using cases_events with
  | nil | halted => rfl
  | reach _ _ ih | found _ _ ih => rw [cons_append, ih]

theorem append_assoc (l m n : Listing α) : l ++ m ++ n = l ++ (m ++ n) := by
  induction l using cases_events with
  | nil | halted => rfl
  | reach _ _ ih | found _ _ ih => simp only [cons_append, ih]

/-! ## Results replaced -/

@[simp] theorem bind_nil (f : α → Listing β) : nil.bind f = nil := rfl

@[simp] theorem bind_halted (cause : Halt) (f : α → Listing β) :
    (halted cause).bind f = halted cause := rfl

@[simp] theorem bind_cons_reach (offset : Nat) (l : Listing α) (f : α → Listing β) :
    (cons (.reach offset) l).bind f = cons (.reach offset) (l.bind f) := rfl

@[simp] theorem bind_cons_found (a : α) (l : Listing α) (f : α → Listing β) :
    (cons (.found a) l).bind f = f a ++ l.bind f := rfl

@[simp] theorem bind_single (a : α) (f : α → Listing β) : (single a).bind f = f a := by
  rw [single, bind_cons_found, bind_nil, append_nil]

theorem bind_append (l m : Listing α) (f : α → Listing β) :
    (l ++ m).bind f = l.bind f ++ m.bind f := by
  induction l using cases_events with
  | nil | halted => rfl
  | reach offset l ih => simp only [cons_append, bind_cons_reach, ih]
  | found a l ih => simp only [cons_append, bind_cons_found, ih, append_assoc]

theorem bind_bind (l : Listing α) (f : α → Listing β) (g : β → Listing γ) :
    (l.bind f).bind g = l.bind fun a => (f a).bind g := by
  induction l using cases_events with
  | nil | halted => rfl
  | reach offset l ih => simp only [bind_cons_reach, ih]
  | found a l ih => simp only [bind_cons_found, bind_append, ih]

@[simp] theorem map_nil (f : α → β) : nil.map f = nil := rfl

@[simp] theorem map_halted (cause : Halt) (f : α → β) :
    (halted cause).map f = halted cause := rfl

@[simp] theorem map_cons_reach (offset : Nat) (l : Listing α) (f : α → β) :
    (cons (.reach offset) l).map f = cons (.reach offset) (l.map f) := rfl

@[simp] theorem map_cons_found (a : α) (l : Listing α) (f : α → β) :
    (cons (.found a) l).map f = cons (.found (f a)) (l.map f) := rfl

@[simp] theorem map_single (a : α) (f : α → β) : (single a).map f = single (f a) := rfl

@[simp] theorem map_append (l m : Listing α) (f : α → β) :
    (l ++ m).map f = l.map f ++ m.map f :=
  bind_append l m _

theorem map_bind (l : Listing α) (f : α → Listing β) (g : β → γ) :
    (l.bind f).map g = l.bind fun a => (f a).map g :=
  bind_bind l f _

theorem bind_map (l : Listing α) (f : α → β) (g : β → Listing γ) :
    (l.map f).bind g = l.bind fun a => g (f a) := by
  simp only [map, bind_bind, bind_single]

theorem map_map (l : Listing α) (f : α → β) (g : β → γ) :
    (l.map f).map g = l.map fun a => g (f a) :=
  bind_map l f _

@[simp] theorem map_id (l : Listing α) : (l.map fun a => a) = l := by
  induction l using cases_events with
  | nil | halted => rfl
  | reach _ _ ih | found _ _ ih => simp only [map_cons_reach, map_cons_found, ih]

/-- Only what is listed for the results matters. -/
theorem bind_congr {l : Listing α} {f g : α → Listing β} (h : ∀ a ∈ l.results, f a = g a) :
    l.bind f = l.bind g := by
  induction l using cases_events with
  | nil | halted => rfl
  | reach offset l ih => simp only [bind_cons_reach, ih h]
  | found a l ih =>
    simp only [bind_cons_found, h a List.mem_cons_self,
      ih fun b hb => h b (List.mem_cons_of_mem _ hb)]

/-! ## Results -/

@[simp] theorem results_nil : (nil : Listing α).results = [] := rfl

@[simp] theorem results_halted (cause : Halt) : (halted cause : Listing α).results = [] := rfl

@[simp] theorem results_cons_reach (offset : Nat) (l : Listing α) :
    (cons (.reach offset) l).results = l.results := rfl

@[simp] theorem results_cons_found (a : α) (l : Listing α) :
    (cons (.found a) l).results = a :: l.results := rfl

@[simp] theorem results_single (a : α) : (single a).results = [a] := rfl

@[simp] theorem halt?_nil : (nil : Listing α).halt? = none := rfl

@[simp] theorem halt?_halted (cause : Halt) :
    (halted cause : Listing α).halt? = some cause := rfl

@[simp] theorem halt?_cons (e : Event α) (l : Listing α) : (cons e l).halt? = l.halt? := rfl

@[simp] theorem halt?_single (a : α) : (single a).halt? = none := rfl

/-- A listing that is not broken off is followed by the next one. -/
theorem results_append {l : Listing α} (hl : l.halt? = none) (m : Listing α) :
    (l ++ m).results = l.results ++ m.results := by
  obtain ⟨events, _ | cause⟩ := l
  · exact List.filterMap_append
  · cases hl

/-- A listing that is broken off hides the next one. -/
theorem append_of_halt? {l : Listing α} {cause : Halt} (hl : l.halt? = some cause)
    (m : Listing α) : l ++ m = l := by
  obtain ⟨events, _ | _⟩ := l
  · cases hl
  · rfl

theorem halt?_append (l m : Listing α) : (l ++ m).halt? = l.halt?.or m.halt? := by
  obtain ⟨events, _ | cause⟩ := l <;> rfl

theorem halt?_append_eq_none {l m : Listing α} :
    (l ++ m).halt? = none ↔ l.halt? = none ∧ m.halt? = none := by
  rw [halt?_append, Option.or_eq_none_iff]

theorem mem_results_append {l m : Listing α} {a : α} :
    a ∈ (l ++ m).results ↔ a ∈ l.results ∨ l.halt? = none ∧ a ∈ m.results := by
  cases hl : l.halt? with
  | none => simp [results_append hl]
  | some cause => simp [append_of_halt? hl]

theorem halt?_bind_eq_none {l : Listing α} {f : α → Listing β} :
    (l.bind f).halt? = none ↔ l.halt? = none ∧ ∀ a ∈ l.results, (f a).halt? = none := by
  induction l using cases_events with
  | nil | halted => simp
  | reach offset l ih => simpa using ih
  | found a l ih => simp [halt?_append_eq_none, ih, and_left_comm]

/-- Why a listing with its results replaced breaks off: it did before, or what is listed
    for one of the results does. -/
theorem halt?_bind {l : Listing α} {f : α → Listing β} {cause : Halt}
    (h : (l.bind f).halt? = some cause) :
    l.halt? = some cause ∨ ∃ a ∈ l.results, (f a).halt? = some cause := by
  induction l using cases_events with
  | nil => cases h
  | halted => exact .inl h
  | reach offset l ih => exact ih h
  | found a l ih =>
    rw [bind_cons_found, halt?_append, Option.or_eq_some_iff] at h
    obtain h | ⟨-, h⟩ := h
    · exact .inr ⟨a, List.mem_cons_self, h⟩
    · exact (ih h).imp_right fun ⟨b, hb, hf⟩ => ⟨b, List.mem_cons_of_mem _ hb, hf⟩

theorem mem_results_bind {l : Listing α} {f : α → Listing β} {b : β}
    (h : b ∈ (l.bind f).results) : ∃ a ∈ l.results, b ∈ (f a).results := by
  induction l using cases_events with
  | nil | halted => cases h
  | reach offset l ih => exact ih h
  | found a l ih =>
    rw [bind_cons_found, mem_results_append] at h
    obtain h | ⟨-, h⟩ := h
    · exact ⟨a, List.mem_cons_self, h⟩
    · obtain ⟨a', ha', hb⟩ := ih h
      exact ⟨a', List.mem_cons_of_mem _ ha', hb⟩

/-- In a listing that is not broken off, every result is replaced. -/
theorem results_bind {l : Listing α} {f : α → Listing β} (h : (l.bind f).halt? = none) :
    (l.bind f).results = l.results.flatMap fun a => (f a).results := by
  induction l using cases_events with
  | nil | halted => rfl
  | reach offset l ih => exact ih h
  | found a l ih =>
    rw [bind_cons_found] at h ⊢
    obtain ⟨hf, hl⟩ := halt?_append_eq_none.1 h
    rw [results_append hf, ih hl, results_cons_found, List.flatMap_cons]

theorem mem_results_bind_of_mem {l : Listing α} {f : α → Listing β} {a : α} {b : β}
    (h : (l.bind f).halt? = none) (ha : a ∈ l.results) (hb : b ∈ (f a).results) :
    b ∈ (l.bind f).results := by
  rw [results_bind h]
  exact List.mem_flatMap_of_mem ha hb

@[simp] theorem results_map (f : α → β) (l : Listing α) :
    (l.map f).results = l.results.map f := by
  induction l using cases_events with
  | nil | halted => rfl
  | reach _ _ ih | found _ _ ih => simp [ih]

theorem mem_results_map {l : Listing α} {f : α → β} {b : β} :
    b ∈ (l.map f).results ↔ ∃ a ∈ l.results, f a = b := by
  rw [results_map, List.mem_map]

@[simp] theorem halt?_map (f : α → β) (l : Listing α) : (l.map f).halt? = l.halt? := by
  induction l using cases_events with
  | nil | halted => rfl
  | reach _ _ ih | found _ _ ih => simpa using ih

theorem furthest_map (f : α → β) (l : Listing α) :
    Event.furthest (l.map f).events = Event.furthest l.events := by
  induction l using cases_events with
  | nil | halted => rfl
  | reach offset l ih => exact congrArg (max offset) ih
  | found _ _ ih => exact ih

theorem stamped_map_events (f : α → β) {before : List (Event α)} {before' : List (Event β)}
    (h : Event.furthest before = Event.furthest before') (l : Listing α) :
    Event.stamped before' (l.map f).events =
      (Event.stamped before l.events).map fun (a, furthest) => (f a, furthest) := by
  induction l using cases_events generalizing before before' with
  | nil | halted => rfl
  | reach offset l ih => exact ih (by simp only [Event.furthest_append, h]; rfl)
  | found a l ih =>
    rw [map_cons_found, cons, cons, Event.stamped, Event.stamped, List.map_cons, h]
    exact congrArg _ (ih (by simp only [Event.furthest_append, h]; rfl))

theorem stamped_map (f : α → β) (l : Listing α) :
    (l.map f).stamped = l.stamped.map fun (a, furthest) => (f a, furthest) :=
  stamped_map_events f rfl l

theorem ending_map (furthest : Nat) (f : α → β) (l : Listing α) :
    (l.map f).ending furthest = l.ending furthest := by
  rw [ending, ending, halt?_map, furthest_map]

theorem refusal_map (furthest : Nat) (f : α → β) (l : Listing α) :
    (l.map f).refusal furthest = l.refusal furthest := by
  rw [refusal, refusal, halt?_map, furthest_map]

@[simp] theorem refusal_nil (furthest : Nat) :
    (nil : Listing α).refusal furthest = .unmatched furthest := by
  simp [nil, refusal]

@[simp] theorem refusal_halted (furthest : Nat) (cause : Halt) :
    (halted cause : Listing α).refusal furthest = .halted cause furthest := by
  simp [halted, refusal]

@[simp] theorem refusal_cons_reach (furthest offset : Nat) (l : Listing α) :
    (cons (.reach offset) l).refusal furthest = l.refusal (max furthest offset) := by
  obtain ⟨events, _ | cause⟩ := l <;> simp [cons, refusal, Nat.max_assoc]

@[simp] theorem refusal_cons_found (furthest : Nat) (a : α) (l : Listing α) :
    (cons (.found a) l).refusal furthest = l.refusal furthest := by
  obtain ⟨events, _ | cause⟩ := l <;> rfl

/-! ## The first result -/

@[simp] theorem first_nil (default : α) : nil.first default = single default := rfl

@[simp] theorem first_halted (default : α) (cause : Halt) :
    (halted cause).first default = halted cause := rfl

@[simp] theorem first_cons_reach (default : α) (offset : Nat) (l : Listing α) :
    (cons (.reach offset) l).first default = cons (.reach offset) (l.first default) := by
  simp only [first, results_cons_reach]
  cases l.results with
  | nil => exact cons_append _ _ _
  | cons => rfl

@[simp] theorem first_cons_found (default : α) (a : α) (l : Listing α) :
    (cons (.found a) l).first default = single a := by
  simp [first, cons, single, nil, results, Event.result?]

/-- The only result of going on to the first one. -/
theorem mem_results_first {l : Listing α} {default a : α} (h : a ∈ (l.first default).results) :
    l.results.head? = some a ∨ l.results = [] ∧ l.halt? = none ∧ a = default := by
  induction l using cases_events with
  | nil => simpa using h
  | halted => cases h
  | reach offset l ih => exact ih (by simpa using h)
  | found b l ih =>
    rw [first_cons_found, results_single, List.mem_singleton] at h
    exact .inl (congrArg some h.symm)

theorem halt?_first_eq_none {l : Listing α} {default : α} :
    (l.first default).halt? = none ↔ l.results ≠ [] ∨ l.halt? = none := by
  induction l using cases_events with
  | nil | halted => simp
  | reach offset l ih => simpa using ih
  | found a l ih => simp

theorem halt?_first {l : Listing α} {default : α} {cause : Halt}
    (h : (l.first default).halt? = some cause) : l.halt? = some cause := by
  induction l using cases_events with
  | nil => cases h
  | halted => exact h
  | reach offset l ih => exact ih (by simpa using h)
  | found a l ih => simp at h

theorem results_first_of_head? {l : Listing α} {default a : α} (h : l.results.head? = some a) :
    (l.first default).results = [a] := by
  induction l using cases_events with
  | nil | halted => cases h
  | reach offset l ih => simpa using ih h
  | found b l ih => simpa using h

theorem results_first_of_eq_nil {l : Listing α} {default : α} (h : l.results = [])
    (hl : l.halt? = none) : (l.first default).results = [default] := by
  rw [first, h, results_append hl, h]
  rfl

theorem first_map (f : α → β) (default : α) (l : Listing α) :
    (l.map f).first (f default) = (l.first default).map f := by
  induction l using cases_events with
  | nil | halted => rfl
  | reach offset l ih => simp [ih]
  | found a l ih => simp

/-! ## Offsets reached -/

@[simp] theorem reached_nil : (nil : Listing α).reached = [] := rfl

@[simp] theorem reached_halted (cause : Halt) : (halted cause : Listing α).reached = [] := rfl

@[simp] theorem reached_cons_reach (offset : Nat) (l : Listing α) :
    (cons (.reach offset) l).reached = offset :: l.reached := rfl

@[simp] theorem reached_cons_found (a : α) (l : Listing α) :
    (cons (.found a) l).reached = l.reached := rfl

@[simp] theorem reached_single (a : α) : (single a).reached = [] := rfl

theorem mem_reached_append {l m : Listing α} {offset : Nat} (h : offset ∈ (l ++ m).reached) :
    offset ∈ l.reached ∨ offset ∈ m.reached := by
  induction l using cases_events with
  | nil => exact .inr h
  | halted => exact .inl h
  | reach offset' l ih =>
    rw [cons_append, reached_cons_reach, List.mem_cons] at h
    rw [reached_cons_reach, List.mem_cons, or_assoc]
    exact h.imp_right ih
  | found a l ih => exact ih (by simpa using h)

theorem reached_append {l : Listing α} (hl : l.halt? = none) (m : Listing α) :
    (l ++ m).reached = l.reached ++ m.reached := by
  obtain ⟨events, _ | cause⟩ := l
  · exact List.filterMap_append
  · cases hl

theorem mem_reached_bind {l : Listing α} {f : α → Listing β} {offset : Nat}
    (h : offset ∈ (l.bind f).reached) :
    offset ∈ l.reached ∨ ∃ a ∈ l.results, offset ∈ (f a).reached := by
  induction l using cases_events with
  | nil | halted => cases h
  | reach offset' l ih =>
    rw [bind_cons_reach, reached_cons_reach, List.mem_cons] at h
    rw [reached_cons_reach, List.mem_cons, or_assoc]
    exact h.imp_right ih
  | found a l ih =>
    rw [bind_cons_found] at h
    obtain h | h := mem_reached_append h
    · exact .inr ⟨a, List.mem_cons_self, h⟩
    · exact (ih h).imp_right fun ⟨b, hb, hf⟩ => ⟨b, List.mem_cons_of_mem _ hb, hf⟩

/-- A listing that is not broken off reaches what it did before its results were replaced, and what
    is reached in place of each of them. -/
theorem mem_reached_bind_iff {l : Listing α} {f : α → Listing β} {offset : Nat}
    (h : (l.bind f).halt? = none) :
    offset ∈ (l.bind f).reached ↔ offset ∈ l.reached ∨ ∃ a ∈ l.results, offset ∈ (f a).reached := by
  refine ⟨mem_reached_bind, fun hoffset => ?_⟩
  induction l using cases_events with
  | nil | halted => simp at hoffset
  | reach offset' l ih =>
    rw [bind_cons_reach, reached_cons_reach, List.mem_cons]
    rw [reached_cons_reach, List.mem_cons, or_assoc] at hoffset
    exact hoffset.imp_right (ih h)
  | found a l ih =>
    rw [bind_cons_found] at h ⊢
    obtain ⟨hf, hl⟩ := halt?_append_eq_none.1 h
    rw [reached_append hf, List.mem_append]
    obtain hoffset | ⟨b, hb, hoffset⟩ := hoffset
    · exact .inr (ih hl (.inl hoffset))
    · obtain rfl | hb := List.mem_cons.1 hb
      · exact .inl hoffset
      · exact .inr (ih hl (.inr ⟨b, hb, hoffset⟩))

@[simp] theorem reached_map (f : α → β) (l : Listing α) : (l.map f).reached = l.reached := by
  induction l using cases_events with
  | nil | halted => rfl
  | reach _ _ ih | found _ _ ih => simp [ih]

theorem mem_reached_first {l : Listing α} {default : α} {offset : Nat}
    (h : offset ∈ (l.first default).reached) : offset ∈ l.reached := by
  induction l using cases_events with
  | nil | halted => cases h
  | reach offset' l ih =>
    rw [first_cons_reach, reached_cons_reach, List.mem_cons] at h
    exact List.mem_cons.2 (h.imp_right ih)
  | found a l ih => simp at h

/-- The largest offset reached is reached, if there is one. -/
theorem furthest_eq_zero_or_mem (l : Listing α) :
    Event.furthest l.events = 0 ∨ Event.furthest l.events ∈ l.reached := by
  induction l using cases_events with
  | nil | halted => exact .inl rfl
  | reach offset l ih =>
    change max offset (Event.furthest l.events) = 0 ∨ max offset (Event.furthest l.events) ∈ _
    rw [reached_cons_reach, List.mem_cons]
    rcases Nat.le_total (Event.furthest l.events) offset with h | h
    · exact .inr (.inl (Nat.max_eq_left h))
    · rw [Nat.max_eq_right h]
      exact ih.imp_right .inr
  | found a l ih => exact ih

theorem le_furthest_of_mem_reached {l : Listing α} {offset : Nat} (h : offset ∈ l.reached) :
    offset ≤ Event.furthest l.events := by
  induction l using cases_events with
  | nil | halted => cases h
  | reach offset' l ih =>
    obtain rfl | h := List.mem_cons.1 h
    · exact Nat.le_max_left _ _
    · exact Nat.le_trans (ih h) (Nat.le_max_right _ _)
  | found a l ih => exact ih h

end Listing

/-! ## The listing of a search -/

namespace Search

variable {α β γ : Type}

/-- The listing of a search that is run to its end. -/
def listing : Search α → Listing α
  | .done => .nil
  | .halt cause => .halted cause
  | .reach offset rest => .cons (.reach offset) (rest ()).listing
  | .found a rest => .cons (.found a) (rest ()).listing

@[simp] theorem listing_single (a : α) : (single a).listing = .single a := rfl

/-- To continue every result is to bind, if a continuation lists its own results and
    then goes on with the rest of the work. What is listed may be changed by `g`. -/
theorem map_listing_explore (g : β → γ) {visit : α → (Unit → Search β) → Search β}
    {f : α → Listing γ} (after : Unit → Search β) (s : Search α)
    (hvisit : ∀ a ∈ s.listing.results, ∀ rest,
      (visit a rest).listing.map g = f a ++ (rest ()).listing.map g) :
    (s.explore visit after).listing.map g = s.listing.bind f ++ (after ()).listing.map g := by
  induction s with
  | done | halt => rfl
  | reach offset rest ih =>
    rw [explore, listing, listing, Listing.map_cons_reach, ih () hvisit, Listing.bind_cons_reach,
      Listing.cons_append]
  | found a rest ih =>
    -- The continuation goes on with the rest of the work, which is listed by induction.
    rw [explore, hvisit a List.mem_cons_self,
      ih () fun b hb => hvisit b (List.mem_cons_of_mem _ hb), listing, Listing.bind_cons_found,
      Listing.append_assoc]

theorem listing_explore {visit : α → (Unit → Search β) → Search β} {f : α → Listing β}
    (hvisit : ∀ a rest, (visit a rest).listing = f a ++ (rest ()).listing)
    (after : Unit → Search β) (s : Search α) :
    (s.explore visit after).listing = s.listing.bind f ++ (after ()).listing := by
  simpa only [Listing.map_id] using map_listing_explore (fun b => b) after s
    fun a _ rest => by simpa only [Listing.map_id] using hvisit a rest

@[simp] theorem listing_append (s : Search α) (after : Unit → Search α) :
    (s.append after).listing = s.listing ++ (after ()).listing := by
  rw [append, listing_explore (f := Listing.single) fun _ _ => rfl]
  exact congrArg (· ++ _) (Listing.map_id _)

@[simp] theorem listing_map (f : α → β) (s : Search α) : (s.map f).listing = s.listing.map f := by
  rw [map, listing_explore (f := fun a => .single (f a)) fun _ _ => rfl]
  exact Listing.append_nil _

@[simp] theorem listing_first (default : α) (s : Search α) :
    (s.first default).listing = s.listing.first default := by
  induction s with
  | done | halt => rfl
  | reach offset rest ih => simp [first, listing, ih]
  | found a rest ih => simp [first, listing]

/-- What is taken from a search are the first results of its listing, each with the
    largest offset reached before it. -/
theorem take_results (before : List (Event α)) (limit : Nat) (s : Search α) :
    (s.take (Event.furthest before) limit).results =
      (Event.stamped before s.listing.events).take limit := by
  -- Of the events before, the search only knows the largest offset.
  induction s generalizing before limit with
  | done | halt => rcases limit with _ | limit <;> rfl
  | reach offset rest ih =>
    have hmax :
        max (Event.furthest before) offset = Event.furthest (before ++ [.reach offset]) := by
      simp [Event.furthest_append]
    rcases limit with _ | limit
    · rfl
    · rw [take, hmax]
      · exact ih () _ (limit + 1)
      · simp
  | found a rest ih =>
    have hmax : Event.furthest before = Event.furthest (before ++ [.found a]) := by
      simp [Event.furthest_append]
    rcases limit with _ | _ | limit
    · rfl
    · rfl
    · have h := ih () (before ++ [.found a]) (limit + 1)
      rw [← hmax] at h
      exact congrArg (List.cons _) h

/-- What is taken from a search is a result of it. -/
theorem mem_listing_of_mem_take {s : Search α} {furthest limit : Nat} {r : α × Nat}
    (hr : r ∈ (s.take furthest limit).results) : r.1 ∈ s.listing.results := by
  have htake := take_results [.reach furthest] limit s
  rw [Event.furthest_cons_reach, Event.furthest_nil, Nat.max_zero] at htake
  rw [htake] at hr
  rw [Listing.results, ← Event.map_stamped [.reach furthest]]
  exact List.mem_map_of_mem (List.mem_of_mem_take hr)

/-- If more results are asked for than there are, the search ends as its listing does. -/
theorem take_ending (furthest limit : Nat) (s : Search α)
    (hlimit : s.listing.results.length < limit) :
    (s.take furthest limit).ending = s.listing.ending furthest := by
  induction s generalizing furthest limit with
  | done =>
    obtain ⟨limit, rfl⟩ := Nat.exists_eq_add_of_lt hlimit
    exact congrArg Except.ok (Nat.max_zero furthest).symm
  | halt =>
    obtain ⟨limit, rfl⟩ := Nat.exists_eq_add_of_lt hlimit
    rfl
  | reach offset rest ih =>
    obtain ⟨limit, rfl⟩ := Nat.exists_eq_add_of_lt hlimit
    have h := ih () (max furthest offset) _ hlimit
    rw [Listing.ending, Nat.max_assoc] at h
    exact h
  | found a rest ih =>
    obtain ⟨limit, rfl⟩ := Nat.exists_eq_add_of_lt hlimit
    rw [listing, Listing.results_cons_found, List.length_cons] at hlimit ⊢
    have h := ih () furthest ((rest ()).listing.results.length + limit + 1) (by omega)
    rw [Nat.add_right_comm _ 1]
    exact h

/-- What is asked of a search is the first result of its listing that passes the test. -/
theorem firstWhere_eq (test : α → Bool) (furthest : Nat) (s : Search α) :
    s.firstWhere test furthest =
      match s.listing.results.find? test with
      | some a => .ok a
      | none => .error (s.listing.refusal furthest) := by
  induction s generalizing furthest with
  | done => rw [firstWhere, listing, Listing.refusal_nil, Listing.results_nil, List.find?_nil]
  | halt cause =>
    rw [firstWhere, listing, Listing.refusal_halted, Listing.results_halted, List.find?_nil]
  | reach offset rest ih =>
    rw [firstWhere, ih, listing, Listing.results_cons_reach, Listing.refusal_cons_reach]
  | found a rest ih =>
    rw [firstWhere, ih, listing, Listing.results_cons_found, Listing.refusal_cons_found,
      List.find?_cons]
    cases test a <;> rfl

end Search

end Descent
