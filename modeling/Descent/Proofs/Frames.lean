import Descent.Proofs.Enumeration

/-!
# Pending work on a stack

The search for a sequence or a repetition keeps what is left to do in its continuations.
The same work can be done by a loop over a stack of *frames*, the innermost first. A frame
has what is matched before it and the candidates that are left to come after that. Every
turn of the loop advances the candidates of the frame on top:

* a candidate of a sequence opens a frame for the next item, or completes a match;
* a candidate of a repetition that is not empty opens a frame for one more repetition;
* a frame without candidates is dropped, and in a repetition then yields what is matched
  before it.

How many items or repetitions there are is not written down anywhere: it is the number
of frames (`Turn.sequence`, `Turn.repetition`). The loops list what the searches list
(`runs_sequence_iff`, `runs_repetition_iff`).
-/

namespace Descent

/-- What is matched, and what is left to come after it. -/
structure Frame where
  /-- What is matched before. -/
  before : Match
  /-- The candidates that are left. -/
  candidates : Search Match

/-- What a turn of the loop does. -/
inductive Turn where
  /-- There are no frames left. -/
  | finished
  /-- The search breaks off. -/
  | broken (cause : Halt)
  /-- The text is matched up to `offset`. -/
  | reached (offset : Nat) (frames : List Frame)
  /-- A match is complete. -/
  | yielded (m : Match) (frames : List Frame)
  /-- Only the frames change. -/
  | moved (frames : List Frame)

namespace Turn

/-- Advance the candidates of the frame on top: `dropped` tells what to do when it has
    none, and `advanced` what to do with the next one. -/
def advance (dropped : (before : Match) → (frames : List Frame) → Turn)
    (advanced : (before m : Match) → (frames : List Frame) → Turn) : (frames : List Frame) → Turn
  | [] => .finished
  | ⟨before, .done⟩ :: frames => dropped before frames
  | ⟨_, .halt cause⟩ :: _ => .broken cause
  | ⟨before, .reach offset rest⟩ :: frames => .reached offset (⟨before, rest ()⟩ :: frames)
  | ⟨before, .found m rest⟩ :: frames => advanced before m (⟨before, rest ()⟩ :: frames)

/-- A turn in a sequence of items. With as many frames as items, a match is complete. -/
def sequence (items : List (Nat → Search Match)) : (frames : List Frame) → Turn :=
  advance (fun _ frames => .moved frames) fun before m frames =>
    match items[frames.length]? with
    | none => .yielded (before.andThen m) frames
    | some item => .moved (⟨before.andThen m, item m.stop⟩ :: frames)

/-- The candidates after `count` repetitions. -/
def candidates (item : Nat → Search Match) (maximum : Option Int) (count pos : Nat) :
    Search Match :=
  if maximum.any (· ≤ (count : Int)) then .done else item pos

/-- A turn in a repetition. There is one frame more than there are repetitions. -/
def repetition (item : Nat → Search Match) (minimum : Int) (maximum : Option Int) :
    (frames : List Frame) → Turn :=
  advance
    (fun before frames =>
      if minimum ≤ (frames.length : Int) then .yielded before frames else .moved frames)
    fun before m frames =>
      if before.stop < m.stop then
        .moved (⟨before.andThen m, candidates item maximum frames.length m.stop⟩ :: frames)
      else .moved frames

end Turn

/-- The loop lists `l`, from a stack of frames on. -/
inductive Runs (turn : List Frame → Turn) : (frames : List Frame) → (l : Listing Match) → Prop
  | finished {frames : List Frame} (h : turn frames = .finished) : Runs turn frames .nil
  | broken {frames : List Frame} {cause : Halt} (h : turn frames = .broken cause) :
    Runs turn frames (.halted cause)
  | reached {frames frames' : List Frame} {offset : Nat} {l : Listing Match}
    (h : turn frames = .reached offset frames') (rest : Runs turn frames' l) :
    Runs turn frames (.cons (.reach offset) l)
  | yielded {frames frames' : List Frame} {m : Match} {l : Listing Match}
    (h : turn frames = .yielded m frames') (rest : Runs turn frames' l) :
    Runs turn frames (.cons (.found m) l)
  | moved {frames frames' : List Frame} {l : Listing Match}
    (h : turn frames = .moved frames') (rest : Runs turn frames' l) : Runs turn frames l

namespace Runs

variable {turn : List Frame → Turn} {frames : List Frame} {l l' : Listing Match}

/-- The loop has only one way to go on. -/
theorem unique (h : Runs turn frames l) (h' : Runs turn frames l') : l = l' := by
  induction h generalizing l' with
  | finished ht => cases h' with
    | finished => rfl
    | _ ht' => rw [ht] at ht'; cases ht'
  | broken ht => cases h' with
    | broken ht' => rw [ht] at ht'; cases ht'; rfl
    | _ ht' => rw [ht] at ht'; cases ht'
  | reached ht _ ih => cases h' with
    | reached ht' h' => rw [ht] at ht'; cases ht'; rw [ih h']
    | _ ht' => rw [ht] at ht'; cases ht'
  | yielded ht _ ih => cases h' with
    | yielded ht' h' => rw [ht] at ht'; cases ht'; rw [ih h']
    | _ ht' => rw [ht] at ht'; cases ht'
  | moved ht _ ih => cases h' with
    | moved ht' h' => rw [ht] at ht'; cases ht'; exact ih h'
    | _ ht' => rw [ht] at ht'; cases ht'

end Runs

/-! ## Sequences -/

section

variable (t : Text) (enter : Word → Nat → Search Match)

/-- The searches for the items of a sequence. -/
def Pattern.searches (items : List Pattern) : List (Nat → Search Match) :=
  items.map fun p pos => p.search t enter pos

variable {t enter}

/-- A frame on top of others lists what its candidates are continued by, where `remaining`
    are the items that come after its own. -/
theorem Runs.sequence {items remaining : List Pattern} {frames : List Frame}
    (hremaining : items.drop (frames.length + 1) = remaining) {after : Unit → Search Match}
    (hafter : Runs (.sequence (Pattern.searches t enter items)) frames (after ()).listing)
    (before : Match) (s : Search Match) :
    Runs (.sequence (Pattern.searches t enter items)) (⟨before, s⟩ :: frames)
      (s.explore (fun m rest => Pattern.searchAll t enter remaining (before.andThen m) rest)
        after).listing := by
  induction remaining generalizing frames after before s with
  | nil =>
    have hnone : (Pattern.searches t enter items)[frames.length + 1]? = none := by
      rw [Pattern.searches, List.getElem?_map, ← List.head?_drop, hremaining]
      rfl
    induction s with
    | done => exact .moved rfl hafter
    | halt cause => exact .broken rfl
    | reach offset rest ih => exact .reached rfl (ih ())
    | found m rest ih =>
      refine .yielded ?_ (ih ())
      simp [Turn.sequence, Turn.advance, hnone]
  | cons p ps ihp =>
    have hsome : (Pattern.searches t enter items)[frames.length + 1]? =
        some fun pos => p.search t enter pos := by
      rw [Pattern.searches, List.getElem?_map, ← List.head?_drop, hremaining]
      rfl
    induction s with
    | done => exact .moved rfl hafter
    | halt cause => exact .broken rfl
    | reach offset rest ih => exact .reached rfl (ih ())
    | found m rest ih =>
      -- The candidates of the frame are put aside below the frame for the next item.
      refine .moved ?_ (ihp ?_ (ih ()) (before.andThen m) (p.search t enter m.stop))
      · simp [Turn.sequence, Turn.advance, hsome]
      · rw [List.length_cons, ← List.drop_drop, hremaining, List.drop_one, List.tail_cons]

/-- The loop over the frames of a sequence lists what the search for it lists. -/
theorem runs_sequence_iff {item : Pattern} {items : List Pattern} {pos : Nat}
    {l : Listing Match} :
    Runs (.sequence (Pattern.searches t enter (item :: items)))
        [⟨.empty pos, item.search t enter pos⟩] l ↔
      l = ((Pattern.sequence (item :: items)).search t enter pos).listing := by
  have h : Runs (.sequence (Pattern.searches t enter (item :: items)))
      [⟨.empty pos, item.search t enter pos⟩]
      ((Pattern.sequence (item :: items)).search t enter pos).listing := by
    rw [Pattern.search, Pattern.searchAll]
    exact .sequence rfl (.finished rfl) _ _
  exact ⟨fun hl => hl.unique h, fun hl => hl ▸ h⟩

end

/-! ## Repetitions -/

section

variable {size : Nat} {item : Nat → Search Match} {minimum : Int} {maximum : Option Int}

theorem repeatFrom_eq_explore (bound count : Nat) (before : Match)
    (after : Unit → Search Match) :
    Pattern.repeatFrom item minimum maximum bound count before after =
      (Turn.candidates item maximum count before.stop).explore
        (Pattern.repeatNext item minimum maximum bound count before)
        fun _ => if minimum ≤ count then .found before after else after () := by
  rw [Pattern.repeatFrom_eq, Turn.candidates]
  split <;> rfl

theorem stop_le_of_mem_candidates (hstop : Within size fun pos => (item pos).extents)
    {count pos : Nat} {m : Match}
    (hm : m ∈ (Turn.candidates item maximum count pos).listing.results) :
    m.stop ≤ max pos size := by
  rw [Turn.candidates] at hm
  split at hm
  · cases hm
  · refine (hstop pos m.extent ?_).2
    exact (Listing.results_map _ _).symm ▸ List.mem_map_of_mem hm

/-- A frame on top of others lists what its candidates are continued by, and then what is
    matched before it, if there are enough frames below. -/
theorem Runs.repetition (hstop : Within size fun pos => (item pos).extents) {bound : Nat}
    {frames : List Frame} {after : Unit → Search Match}
    (hafter : Runs (.repetition item minimum maximum) frames (after ()).listing)
    {before : Match} (hbound : size ≤ before.stop + bound) (s : Search Match)
    (hs : ∀ m ∈ s.listing.results, m.stop ≤ max before.stop size) :
    Runs (.repetition item minimum maximum) (⟨before, s⟩ :: frames)
      (s.explore (Pattern.repeatNext item minimum maximum bound frames.length before)
        fun _ => if minimum ≤ frames.length then .found before after else after ()).listing := by
  -- By induction on the candidates, and for the frames opened on top, on the bound.
  induction s with
  | done =>
    by_cases hcount : minimum ≤ frames.length
    · rw [Search.explore, if_pos hcount]
      exact .yielded (if_pos hcount) hafter
    · rw [Search.explore, if_neg hcount]
      exact .moved (if_neg hcount) hafter
  | halt cause => exact .broken rfl
  | reach offset rest ih => exact .reached rfl (ih () hs)
  | found m rest ih =>
    have hrest := ih () fun m' hm' => hs m' (List.mem_cons_of_mem _ hm')
    have hm := hs m List.mem_cons_self
    rw [Search.explore]
    by_cases hlt : before.stop < m.stop
    · cases bound with
      | zero => omega
      | succ bound =>
        -- The candidates of the frame are put aside below the frame for the next repetition.
        rw [Pattern.repeatNext_of_lt hlt, repeatFrom_eq_explore]
        refine .moved (if_pos hlt) (Runs.repetition hstop hrest ?_ _ fun _ =>
          stop_le_of_mem_candidates hstop)
        rw [Match.andThen_stop]
        omega
    · rw [Pattern.repeatNext_of_not_lt hlt]
      exact .moved (if_neg hlt) hrest

/-- The loop over the frames of a repetition lists what the search for it lists. -/
theorem runs_repetition_iff (hstop : Within size fun pos => (item pos).extents) {pos : Nat}
    {l : Listing Match} :
    Runs (.repetition item minimum maximum)
        [⟨.empty pos, Turn.candidates item maximum 0 pos⟩] l ↔
      l = (Pattern.repeatFrom item minimum maximum (size - pos) 0 (.empty pos)
        fun _ => .done).listing := by
  have h : Runs (.repetition item minimum maximum)
      [⟨.empty pos, Turn.candidates item maximum 0 pos⟩]
      (Pattern.repeatFrom item minimum maximum (size - pos) 0 (.empty pos)
        fun _ => .done).listing := by
    rw [repeatFrom_eq_explore]
    refine .repetition hstop (.finished rfl) ?_ _ fun _ => stop_le_of_mem_candidates hstop
    rw [Match.empty_stop]
    omega
  exact ⟨fun hl => hl.unique h, fun hl => hl ▸ h⟩

end

/-! ## Search, stack and listing -/

namespace Rules

/-- The search for a pattern yields the matches that are listed for it, in order, each with
    the largest offset reached before it, and ends as the listing does: exhausted or broken
    off, and with the largest offset reached in all. It makes no difference whether the work
    left in a sequence or a repetition is held in continuations or on a stack of frames.

    The listing of a repetition is the plain recursion: every match of the item that is not
    empty is continued by further repetitions, and then the offset itself is listed. -/
theorem search_yields_listing (rules : Rules) (t : Text) (limit : Nat) :
    (∀ (p : Pattern) (pos : Nat),
      let s := p.search t (rules.enter t limit) pos
      let l := p.listing t (rules.listing t limit) pos
      (∀ n, (s.take 0 n).results.map (fun (m, furthest) => (m.extent, furthest)) =
        l.stamped.take n) ∧
      (∀ n, (s.take 0 (l.results.length + 1 + n)).ending = l.ending 0) ∧
      s.firstWhere (fun _ => false) 0 = .error (l.refusal 0)) ∧
    (∀ (item : Pattern) (minimum : Int) (maximum : Option Int) (count pos : Nat),
      let again := Pattern.repeats t.size (item.listing t (rules.listing t limit)) minimum maximum
      again count pos =
        (if maximum.any (· ≤ (count : Int)) then .nil
          else (item.listing t (rules.listing t limit) pos).bind fun e =>
            if pos < e.stop then (again (count + 1) e.stop).map (.after e.nodes) else .nil) ++
        if minimum ≤ count then .single (.empty pos) else .nil) ∧
    (∀ (item : Pattern) (items : List Pattern) (pos : Nat) (l : Listing Match),
      Runs (.sequence (Pattern.searches t (rules.enter t limit) (item :: items)))
          [⟨.empty pos, item.search t (rules.enter t limit) pos⟩] l ↔
        l = ((Pattern.sequence (item :: items)).search t (rules.enter t limit) pos).listing) ∧
    ∀ (item : Pattern) (minimum : Int) (maximum : Option Int) (pos : Nat) (l : Listing Match),
      Runs (.repetition (item.search t (rules.enter t limit)) minimum maximum)
          [⟨.empty pos, Turn.candidates (item.search t (rules.enter t limit)) maximum 0 pos⟩] l ↔
        l = ((Pattern.repetition item minimum maximum).search t (rules.enter t limit)
          pos).listing := by
  refine ⟨fun p pos => ?_, fun item minimum maximum count pos => ?_,
    fun _ _ _ _ => runs_sequence_iff, fun item minimum maximum pos l => ?_⟩
  · have h := p.extents_search (rules.extents_enter t limit) (rules.within_listing t limit) pos
    dsimp only
    rw [← h, Search.extents]
    refine ⟨fun n => ?_, fun n => ?_, ?_⟩
    · rw [Listing.stamped_map, ← List.map_take]
      exact congrArg _ (Search.take_results [] n _)
    · rw [Search.take_ending _ _ _ (by rw [Listing.results_map, List.length_map]; omega),
        Listing.ending_map]
    · rw [Search.firstWhere_eq, List.find?_eq_none.2 fun _ _ => Bool.false_ne_true,
        Listing.refusal_map]
  · exact Pattern.repeats_eq (item.within_listing (rules.within_listing t limit)) minimum maximum
      count pos
  · have h := item.extents_search (rules.extents_enter t limit) (rules.within_listing t limit)
    rw [Pattern.search]
    exact runs_repetition_iff (funext h ▸ item.within_listing (rules.within_listing t limit))

end Rules

end Descent
