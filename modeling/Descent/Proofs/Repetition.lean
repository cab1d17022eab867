import Descent.Proofs.LongestSkip
import Mathlib.Order.Lattice.Nat

/-!
# Repetitions, the longest first

Where an item has one match at most at every offset, there is no choice but how often to repeat it.
After `n` repetitions the match is then a function of `n` (`Pattern.repeated`), and a repetition
counts down: from the largest number of repetitions that there are and that are allowed to the
smallest one that is allowed (`Pattern.attains_repeats`).

A character class is such an item, and is repeated as often as its run is long. So at least one of
its characters are the beginnings of the run, the longest first, and a skip takes the whole run
(`Rules.counts_down`).
-/

namespace Descent

/-! ## Listings with one result -/

namespace Listing

variable {α β : Type} {l m : Listing α} {f : α → Listing β} {xs ys : List α} {p q : Prop}

theorem bind_of_results_eq_nil (h : l.results = []) :
    (l.bind f).results = [] ∧ (l.bind f).halt? = l.halt? := by
  induction l using cases_events with
  | nil | halted => exact ⟨rfl, rfl⟩
  | reach offset l ih => exact ih h
  | found a l => cases h

/-- In place of the only result stands what is listed for it. -/
theorem bind_of_results_eq_singleton {a : α} (h : l.results = [a]) :
    (l.bind f).results = (f a).results ∧ (l.bind f).halt? = (f a).halt?.or l.halt? := by
  induction l using cases_events with
  | nil | halted => cases h
  | reach offset l ih => exact ih h
  | found b l =>
    obtain ⟨rfl, hl⟩ := List.cons.inj h
    obtain ⟨hresults, hhalt⟩ := bind_of_results_eq_nil (f := f) hl
    rw [bind_cons_found, halt?_append, hhalt]
    refine ⟨?_, rfl⟩
    cases hf : (f b).halt? with
    | none => rw [results_append hf, hresults, List.append_nil]
    | some cause => rw [append_of_halt? hf]

/-- The results are the expected ones as far as the listing goes, and it goes to the end exactly if
    `calm` holds. -/
structure Attains (l : Listing α) (expected : List α) (calm : Prop) : Prop where
  /-- The expected results begin with the results. -/
  begins : l.results <+: expected
  /-- Where the listing is not broken off, there are no others. -/
  complete : l.halt? = none → l.results = expected
  /-- When it is not broken off. -/
  halt?_eq_none_iff : l.halt? = none ↔ calm

theorem Attains.append (hl : l.Attains xs p) (hm : m.Attains ys q) :
    (l ++ m).Attains (xs ++ ys) (p ∧ q) := by
  refine ⟨?_, fun h => ?_, ?_⟩
  · cases hhalt : l.halt? with
    | none =>
      rw [results_append hhalt, hl.complete hhalt]
      exact List.prefix_append_right_inj _ |>.2 hm.begins
    | some cause =>
      rw [append_of_halt? hhalt]
      exact hl.begins.trans (List.prefix_append _ _)
  · obtain ⟨hl', hm'⟩ := halt?_append_eq_none.1 h
    rw [results_append hl', hl.complete hl', hm.complete hm']
  · rw [halt?_append_eq_none, hl.halt?_eq_none_iff, hm.halt?_eq_none_iff]

theorem Attains.map {xs : List α} (h : l.Attains xs p) (f : α → β) :
    (l.map f).Attains (xs.map f) p := by
  refine ⟨?_, fun hhalt => ?_, ?_⟩
  · rw [results_map]
    exact h.begins.map f
  · rw [halt?_map] at hhalt
    rw [results_map, h.complete hhalt]
  · rw [halt?_map, h.halt?_eq_none_iff]

end Listing

namespace Pattern

/-! ## A number of repetitions -/

/-- The first match at an offset, if it is not empty. -/
def next (item : Nat → Listing Extent) (pos : Nat) : Option Extent :=
  (item pos).results.head?.filter (pos < ·.stop)

/-- What `n` matches in a row cover, each the first one at its offset and none of them empty. -/
def repeated (item : Nat → Listing Extent) : (n pos : Nat) → Option Extent
  | 0, pos => some (.empty pos)
  | n + 1, pos =>
    (next item pos).bind fun e => (repeated item n e.stop).map (.after e.nodes)

/-- The numbers of repetitions that there are from an offset on and that are allowed after
    `count` others. -/
def Counts (item : Nat → Listing Extent) (maximum : Option Int) (count pos : Nat) : Set Nat :=
  {n | (repeated item n pos).isSome ∧ ∀ bound ∈ maximum, (n : Int) ≤ max (bound - count) 0}

/-- What is covered by `n` repetitions, by one less, and so on, if `minimum` is reached with the
    `count` ones before. -/
def countdown (item : Nat → Listing Extent) (minimum : Int) (count pos n : Nat) : List Extent :=
  ((List.range (n + 1)).filter fun i => minimum ≤ (count + i : Nat)).reverse.filterMap
    (repeated item · pos)

/-- The item is not broken off where it is tried, `n` repetitions at most after the `count` ones
    before. -/
def Calm (item : Nat → Listing Extent) (maximum : Option Int) (count pos n : Nat) : Prop :=
  ∀ i ≤ n, (∀ bound ∈ maximum, ((count + i : Nat) : Int) < bound) →
    ∀ e ∈ repeated item i pos, (item e.stop).halt? = none

variable {size : Nat} {item : Nat → Listing Extent} {minimum : Int} {maximum : Option Int}
  {count pos n : Nat} {e e' : Extent}

theorem next_eq_some_iff :
    next item pos = some e ↔ (item pos).results.head? = some e ∧ pos < e.stop := by
  rw [next, Option.filter_eq_some_iff, decide_eq_true_eq]

theorem repeated_succ_of_next (h : next item pos = some e) :
    repeated item (n + 1) pos = (repeated item n e.stop).map (.after e.nodes) := by
  rw [repeated, h, Option.bind_some]

/-- Every repetition takes a character at least. -/
theorem le_stop_of_repeated (h : repeated item n pos = some e) : pos + n ≤ e.stop := by
  induction n generalizing pos e with
  | zero =>
    cases h
    exact Nat.le_refl _
  | succ n ih =>
    obtain ⟨e₁, h₁, h⟩ := Option.bind_eq_some_iff.1 h
    obtain ⟨e₂, h₂, rfl⟩ := Option.map_eq_some_iff.1 h
    have hlt := (next_eq_some_iff.1 h₁).2
    have hle := ih h₂
    rw [Extent.after_stop]
    omega

theorem stop_le_of_repeated (hitem : Within size item) (h : repeated item n pos = some e) :
    e.stop ≤ max pos size := by
  induction n generalizing pos e with
  | zero =>
    cases h
    exact Nat.le_max_left _ _
  | succ n ih =>
    obtain ⟨e₁, h₁, h⟩ := Option.bind_eq_some_iff.1 h
    obtain ⟨e₂, h₂, rfl⟩ := Option.map_eq_some_iff.1 h
    have hsize := (hitem pos e₁ (List.mem_of_head? (next_eq_some_iff.1 h₁).1)).2
    have hle := ih h₂
    rw [Extent.after_stop]
    omega

/-- Fewer repetitions stop earlier. -/
theorem stop_lt_of_repeated {i : Nat} (hlt : i < n) (hi : repeated item i pos = some e)
    (hn : repeated item n pos = some e') : e.stop < e'.stop := by
  induction i generalizing n pos e e' with
  | zero =>
    cases hi
    have := le_stop_of_repeated hn
    rw [Extent.empty_stop]
    omega
  | succ i ih =>
    obtain ⟨n, rfl⟩ := Nat.exists_eq_add_one_of_ne_zero (Nat.ne_zero_of_lt hlt)
    obtain ⟨e₁, h₁, hi⟩ := Option.bind_eq_some_iff.1 hi
    obtain ⟨e₂, h₂, rfl⟩ := Option.map_eq_some_iff.1 hi
    rw [repeated_succ_of_next h₁] at hn
    obtain ⟨e₃, h₃, rfl⟩ := Option.map_eq_some_iff.1 hn
    rw [Extent.after_stop, Extent.after_stop]
    exact ih (Nat.lt_of_succ_lt_succ hlt) h₂ h₃

theorem isSome_repeated_of_le {i : Nat} (hle : i ≤ n) (h : (repeated item n pos).isSome) :
    (repeated item i pos).isSome := by
  induction i generalizing n pos with
  | zero => rfl
  | succ i ih =>
    obtain ⟨n, rfl⟩ := Nat.exists_eq_add_one_of_ne_zero (Nat.ne_zero_of_lt hle)
    obtain ⟨e', he'⟩ := Option.isSome_iff_exists.1 h
    obtain ⟨e₁, h₁, h⟩ := Option.bind_eq_some_iff.1 he'
    rw [repeated_succ_of_next h₁, Option.isSome_map]
    exact ih (Nat.le_of_succ_le_succ hle) (by rw [← Option.isSome_map, h, Option.isSome_some])

/-- A countdown stops earlier and earlier. -/
theorem pairwise_countdown (item : Nat → Listing Extent) (minimum : Int) (count pos n : Nat) :
    (countdown item minimum count pos n).Pairwise fun e e' => e'.stop < e.stop := by
  have hindices : ((List.range (n + 1)).filter fun i =>
      minimum ≤ (count + i : Nat)).reverse.Pairwise fun i j => j < i :=
    List.pairwise_reverse.2 (List.pairwise_lt_range.filter _)
  refine List.pairwise_filterMap.2 (hindices.imp fun hlt e he e' he' => ?_)
  exact stop_lt_of_repeated hlt he' he

/-! ## The largest number of repetitions -/

theorem zero_mem_counts : 0 ∈ Counts item maximum count pos :=
  ⟨rfl, fun _ _ => Int.le_max_right _ _⟩

theorem succ_mem_counts_iff : n + 1 ∈ Counts item maximum count pos ↔
    ∃ e, next item pos = some e ∧ (∀ bound ∈ maximum, (count : Int) < bound) ∧
      n ∈ Counts item maximum (count + 1) e.stop := by
  have hbound (bound : Int) : ((n + 1 : Nat) : Int) ≤ max (bound - count) 0 ↔
      (count : Int) < bound ∧ (n : Int) ≤ max (bound - (count + 1 : Nat)) 0 := by omega
  constructor
  · rintro ⟨hsome, hmax⟩
    obtain ⟨e', he'⟩ := Option.isSome_iff_exists.1 hsome
    obtain ⟨e, he, -⟩ := Option.bind_eq_some_iff.1 he'
    rw [repeated_succ_of_next he, Option.isSome_map] at hsome
    exact ⟨e, he, fun bound hmem => ((hbound bound).1 (hmax bound hmem)).1, hsome,
      fun bound hmem => ((hbound bound).1 (hmax bound hmem)).2⟩
  · rintro ⟨e, he, hlt, hsome, hmax⟩
    refine ⟨?_, fun bound hmem => (hbound bound).2 ⟨hlt bound hmem, hmax bound hmem⟩⟩
    rw [repeated_succ_of_next he, Option.isSome_map]
    exact hsome

/-- There is a largest number of repetitions. -/
theorem exists_isGreatest_counts (hitem : Within size item) (maximum : Option Int)
    (count pos : Nat) : ∃ n, IsGreatest (Counts item maximum count pos) n := by
  have hbounded : BddAbove (Counts item maximum count pos) := by
    refine ⟨max pos size, fun n ⟨hsome, _⟩ => ?_⟩
    obtain ⟨e, he⟩ := Option.isSome_iff_exists.1 hsome
    have := le_stop_of_repeated he
    have := stop_le_of_repeated hitem he
    omega
  exact ⟨_, Nat.sSup_mem ⟨0, zero_mem_counts⟩ hbounded, fun _ h => le_csSup hbounded h⟩

/-- Nothing is repeated any more if the maximum is reached or if nothing comes next. -/
theorem of_isGreatest_zero (h : IsGreatest (Counts item maximum count pos) 0) :
    maximum.any (· ≤ (count : Int)) ∨ next item pos = none := by
  by_contra! hnot
  obtain ⟨hmax, hnext⟩ := hnot
  obtain ⟨e, he⟩ := Option.ne_none_iff_exists'.1 hnext
  have hone : 1 ∈ Counts item maximum count pos :=
    succ_mem_counts_iff.2 ⟨e, he, lt_maximum_iff.1 (by simpa using hmax), zero_mem_counts⟩
  exact absurd (h.2 hone) (by decide)

/-- Of more than one repetition, all but the first start where the first one stops. -/
theorem of_isGreatest_succ (h : IsGreatest (Counts item maximum count pos) (n + 1)) :
    ∃ e, next item pos = some e ∧ (∀ bound ∈ maximum, (count : Int) < bound) ∧
      IsGreatest (Counts item maximum (count + 1) e.stop) n := by
  obtain ⟨e, he, hmax, hn⟩ := succ_mem_counts_iff.1 h.1
  refine ⟨e, he, hmax, hn, fun i hi => ?_⟩
  exact Nat.le_of_succ_le_succ (h.2 (succ_mem_counts_iff.2 ⟨e, he, hmax, hi⟩))

/-! ## Counting down -/

/-- What is listed for the repetitions so far. -/
theorem attains_enough (minimum : Int) (count pos : Nat) :
    (if minimum ≤ (count : Int) then Listing.single (Extent.empty pos) else .nil).Attains
      (if minimum ≤ (count : Int) then [Extent.empty pos] else []) True := by
  split <;> exact ⟨List.prefix_rfl, fun _ => rfl, iff_of_true rfl trivial⟩

theorem countdown_zero (item : Nat → Listing Extent) (minimum : Int) (count pos : Nat) :
    countdown item minimum count pos 0 =
      if minimum ≤ (count : Int) then [Extent.empty pos] else [] := by
  by_cases hmin : minimum ≤ (count : Int) <;> simp [countdown, repeated, hmin]

theorem countdown_succ (h : next item pos = some e) (minimum : Int) (count n : Nat) :
    countdown item minimum count pos (n + 1) =
      (countdown item minimum (count + 1) e.stop n).map (.after e.nodes) ++
        if minimum ≤ (count : Int) then [Extent.empty pos] else [] := by
  have hlater : ((List.range (n + 1)).map Nat.succ).filter
      (fun i => minimum ≤ (count + i : Nat)) =
      ((List.range (n + 1)).filter fun i => minimum ≤ (count + 1 + i : Nat)).map Nat.succ := by
    rw [List.filter_map]
    congr 2
    funext i
    simp only [Function.comp_apply, Nat.succ_eq_add_one, Nat.add_right_comm, Nat.add_assoc]
  have hmap (indices : List Nat) : (indices.map Nat.succ).reverse.filterMap (repeated item · pos) =
      (indices.reverse.filterMap (repeated item · e.stop)).map (.after e.nodes) := by
    rw [← List.map_reverse, List.filterMap_map, List.map_filterMap]
    congr 1
    funext i
    exact repeated_succ_of_next h
  rw [countdown, List.range_succ_eq_map, ← List.singleton_append, List.filter_append, hlater,
    List.reverse_append, List.filterMap_append, hmap, ← countdown_zero item, countdown, countdown]
  rfl

theorem calm_zero_iff : Calm item maximum count pos 0 ↔
    ((∀ bound ∈ maximum, (count : Int) < bound) → (item pos).halt? = none) := by
  refine ⟨fun h hmax => h 0 (Nat.le_refl 0) hmax _ rfl, fun h i hi hmax e he => ?_⟩
  obtain rfl := Nat.le_zero.1 hi
  cases he
  exact h hmax

theorem calm_succ_iff (h : next item pos = some e)
    (hmax : ∀ bound ∈ maximum, (count : Int) < bound) : Calm item maximum count pos (n + 1) ↔
    (Calm item maximum (count + 1) e.stop n ∧ (item pos).halt? = none) := by
  constructor
  · refine fun hcalm => ⟨fun i hi hbound e' he' => ?_, hcalm 0 (Nat.zero_le _) hmax _ rfl⟩
    rw [Nat.add_right_comm] at hbound
    refine hcalm (i + 1) (Nat.succ_le_succ hi) hbound (e'.after e.nodes) ?_
    rw [repeated_succ_of_next h, Option.mem_def.1 he']
    rfl
  · rintro ⟨hcalm, hhalt⟩ i hi hbound e' he'
    cases i with
    | zero =>
      cases he'
      exact hhalt
    | succ i =>
      rw [repeated_succ_of_next h] at he'
      obtain ⟨e₂, h₂, rfl⟩ := Option.map_eq_some_iff.1 he'
      rw [← Nat.add_assoc, Nat.add_right_comm] at hbound
      exact hcalm i (Nat.le_of_succ_le_succ hi) hbound e₂ h₂

/-- Where nothing comes next, nothing is listed behind the only match. -/
theorem attains_of_next_eq_none (hone : (item pos).results.length ≤ 1) (h : next item pos = none)
    (further : Extent → Listing Extent) :
    ((item pos).bind fun e => if pos < e.stop then further e else .nil).Attains []
      ((item pos).halt? = none) := by
  have hbind : ((item pos).bind fun e => if pos < e.stop then further e else .nil).results = [] ∧
      ((item pos).bind fun e => if pos < e.stop then further e else .nil).halt? =
        (item pos).halt? := by
    match hresults : (item pos).results with
    | [] => exact Listing.bind_of_results_eq_nil hresults
    | [e] =>
      have hlt : ¬pos < e.stop := fun hlt => by
        rw [next_eq_some_iff.2 ⟨by rw [hresults]; rfl, hlt⟩] at h
        cases h
      have hsingle := Listing.bind_of_results_eq_singleton
        (f := fun e => if pos < e.stop then further e else .nil) hresults
      rwa [if_neg hlt] at hsingle
    | _ :: _ :: _ =>
      rw [hresults, List.length_cons, List.length_cons] at hone
      omega
  exact ⟨hbind.1 ▸ List.prefix_rfl, fun _ => hbind.1, by rw [hbind.2]⟩

/-- Behind the next match stands what is listed for it. -/
theorem attains_of_next (hone : (item pos).results.length ≤ 1) (h : next item pos = some e)
    (further : Extent → Listing Extent) {expected : List Extent} {calm : Prop}
    (hfurther : (further e).Attains expected calm) :
    ((item pos).bind fun e => if pos < e.stop then further e else .nil).Attains expected
      (calm ∧ (item pos).halt? = none) := by
  obtain ⟨hhead, hlt⟩ := next_eq_some_iff.1 h
  have honly : (item pos).results = [e] := by
    obtain ⟨later, hlater⟩ := List.head?_eq_some_iff.1 hhead
    rw [hlater, List.length_cons] at hone
    rw [hlater, List.length_eq_zero_iff.1 (by omega : later.length = 0)]
  obtain ⟨hresults, hhalt⟩ := Listing.bind_of_results_eq_singleton
    (f := fun e => if pos < e.stop then further e else .nil) honly
  rw [if_pos hlt] at hresults hhalt
  refine ⟨hresults ▸ hfurther.begins, fun hnone => ?_, ?_⟩
  · rw [hhalt, Option.or_eq_none_iff] at hnone
    rw [hresults, hfurther.complete hnone.1]
  · rw [hhalt, Option.or_eq_none_iff, hfurther.halt?_eq_none_iff]

/-- If the item has one match at most at every offset, a repetition counts down from the largest
    number of repetitions, unless the item breaks off. -/
theorem attains_repeats (hitem : Within size item) (hone : ∀ pos, (item pos).results.length ≤ 1)
    (minimum : Int) (h : IsGreatest (Counts item maximum count pos) n) :
    (repeats size item minimum maximum count pos).Attains (countdown item minimum count pos n)
      (Calm item maximum count pos n) := by
  -- The first repetition leaves one less to count down from where it stops.
  induction n generalizing count pos with
  | zero =>
    rw [repeats_eq hitem, countdown_zero, calm_zero_iff, ← lt_maximum_iff]
    have hnone : Listing.Attains (if maximum.any (· ≤ (count : Int)) then .nil
        else (item pos).bind fun e => if pos < e.stop then
          (repeats size item minimum maximum (count + 1) e.stop).map (Extent.after e.nodes)
        else .nil) [] (¬maximum.any (· ≤ (count : Int)) → (item pos).halt? = none) := by
      split
      · rename_i hmax
        exact ⟨List.nil_prefix, fun _ => rfl, iff_of_true rfl fun hnot => absurd hmax hnot⟩
      · rename_i hmax
        have hnext := (of_isGreatest_zero h).resolve_left hmax
        simpa only [forall_prop_of_true hmax] using
          attains_of_next_eq_none (hone pos) hnext _
    simpa only [List.nil_append, and_true] using hnone.append (attains_enough minimum count pos)
  | succ n ih =>
    obtain ⟨e, he, hmax, hgreatest⟩ := of_isGreatest_succ h
    rw [repeats_eq hitem, if_neg (lt_maximum_iff.2 hmax), countdown_succ he, calm_succ_iff he hmax]
    have hnext := attains_of_next (hone pos) he
      (fun e => (repeats size item minimum maximum (count + 1) e.stop).map (.after e.nodes))
      ((ih hgreatest).map (Extent.after e.nodes))
    simpa only [and_true] using hnext.append (attains_enough minimum count pos)

/-! ## Runs of a class -/

section

variable (t : Text) (enter : Word → Nat → Listing Extent) (k : CharClass)

theorem length_charClass_le (pos : Nat) :
    ((charClass k).listing t enter pos).results.length ≤ 1 := by
  rw [listing]
  split
  · exact Nat.le_refl 1
  · exact Nat.zero_le 1

theorem halt?_charClass (pos : Nat) : ((charClass k).listing t enter pos).halt? = none := by
  rw [listing]
  split <;> rfl

theorem next_charClass (pos : Nat) : next ((charClass k).listing t enter) pos =
    if t[pos]?.any k.accepts then some (.empty (pos + 1)) else none := by
  rw [next, listing]
  split
  · exact Option.filter_some_pos (decide_eq_true (Nat.lt_succ_self pos))
  · rfl

/-- A class is repeated as long as its run goes. -/
theorem repeated_charClass (n pos : Nat) : repeated ((charClass k).listing t enter) n pos =
    if n ≤ run t k pos then some (.empty (pos + n)) else none := by
  induction n generalizing pos with
  | zero => rw [if_pos (Nat.zero_le _)]; rfl
  | succ n ih =>
    rw [repeated, next_charClass]
    split
    · rename_i hany
      rw [Option.bind_some, Extent.empty_stop, ih, run_of_any hany, Nat.add_right_comm pos 1 n]
      simp only [Nat.add_le_add_iff_right]
      split <;> rfl
    · rename_i hany
      rw [run_of_not_any hany, if_neg (Nat.not_succ_le_zero n)]
      rfl

theorem isGreatest_run (pos : Nat) :
    IsGreatest (Counts ((charClass k).listing t enter) none 0 pos) (run t k pos) := by
  have hmem (n : Nat) :
      n ∈ Counts ((charClass k).listing t enter) none 0 pos ↔ n ≤ run t k pos := by
    rw [Counts, Set.mem_ofPred_eq, repeated_charClass]
    split <;> simp [*]
  exact ⟨(hmem _).2 (Nat.le_refl _), fun n hn => (hmem n).1 hn⟩

/-- At least one character of a class counts down from the whole run. -/
theorem countdown_charClass (pos : Nat) :
    countdown ((charClass k).listing t enter) 1 0 pos (run t k pos) =
      (List.range' 1 (run t k pos)).reverse.map fun n => .empty (pos + n) := by
  have hindices (r : Nat) : ((List.range (r + 1)).filter fun i => (1 : Int) ≤ (0 + i : Nat)) =
      List.range' 1 r := by
    rw [List.range_succ_eq_map, List.range'_eq_map_range, List.filter_cons_of_neg (by decide),
      List.filter_eq_self.2]
    · exact List.map_congr_left fun i _ => Nat.add_comm i 1
    · intro i hi
      obtain ⟨j, -, rfl⟩ := List.mem_map.1 hi
      simp only [decide_eq_true_eq]
      omega
  rw [countdown, hindices, ← List.filterMap_eq_map]
  refine List.filterMap_congr fun n hn => ?_
  rw [List.mem_reverse, List.mem_range'_1] at hn
  rw [repeated_charClass, if_pos (by omega)]
  rfl

/-- At least one character of a class is listed from the whole run down, and never broken off. -/
theorem repeats_charClass_results (henter : ∀ name, Within t.size (enter name)) (pos : Nat) :
    (repeats t.size ((charClass k).listing t enter) 1 none 0 pos).results =
      (List.range' 1 (run t k pos)).reverse.map (fun n => .empty (pos + n)) ∧
    (repeats t.size ((charClass k).listing t enter) 1 none 0 pos).halt? = none := by
  have hattains := attains_repeats (within_listing henter (.charClass k))
    (length_charClass_le t enter k) 1 (isGreatest_run t enter k pos)
  have hhalt := hattains.halt?_eq_none_iff.2 fun _ _ _ e _ => halt?_charClass t enter k e.stop
  exact ⟨(hattains.complete hhalt).trans (countdown_charClass t enter k pos), hhalt⟩

end

/-- The first characters of a run are those of the text. -/
theorem slice_run {t : Text} {k : CharClass} {pos n : Nat} (h : n ≤ run t k pos) :
    t.slice pos (pos + n : Nat) = ((t.rest pos).takeWhile k.accepts).take n := by
  have hlen : (((t.rest pos).takeWhile k.accepts).take n).length = n :=
    List.length_take_of_le h
  have hrest : t.rest pos = ((t.rest pos).takeWhile k.accepts).take n ++
      (((t.rest pos).takeWhile k.accepts).drop n ++ (t.rest pos).dropWhile k.accepts) := by
    rw [← List.append_assoc, List.take_append_drop, List.takeWhile_append_dropWhile]
  have hslice := Text.slice_of_rest hrest
  rwa [hlen] at hslice

end Pattern

namespace Rules

open Pattern

variable {rules : Rules} {t : Text}

/-- What a search for at least one character of a class lists. -/
theorem extents_search_plus (rules : Rules) (t : Text) (limit : Nat) (k : CharClass) (pos : Nat) :
    let found :=
      ((Pattern.repetition (.charClass k) 1 none).search t (rules.enter t limit) pos).extents
    found.results = (List.range' 1 (run t k pos)).reverse.map (fun n => .empty (pos + n)) ∧
      found.halt? = none := by
  intro found
  have hfound : found = (Pattern.repetition (.charClass k) 1 none).listing t
      (rules.listing t limit) pos :=
    extents_search (rules.extents_enter t limit) (rules.within_listing t limit) _ pos
  rw [hfound]
  exact repeats_charClass_results t _ k (rules.within_listing t limit) pos

/-- A skip of a rule for at least one character of a class takes the whole run. -/
theorem skip_run {name : Word} {k : CharClass}
    (hname : rules.lookup name = some (.repetition (.charClass k) 1 none)) (limit pos : Nat) :
    let found := ((Pattern.skip name).search t (rules.enter t (limit + 1)) pos).listing
    found.results = [.empty (pos + run t k pos)] ∧ found.halt? = none := by
  have henter : rules.enter t (limit + 1) name pos =
      (Pattern.repetition (.charClass k) 1 none).search t (rules.enter t limit) pos := by
    rw [enter, hname]
  obtain ⟨hresults, hhalt⟩ := extents_search_plus rules t limit k pos
  rw [← henter, Search.extents, Listing.results_map] at hresults
  rw [← henter, Search.extents, Listing.halt?_map] at hhalt
  cases hrun : run t k pos with
  | zero =>
    rw [hrun, List.range'_zero, List.reverse_nil, List.map_nil, List.map_eq_nil_iff] at hresults
    obtain ⟨hskip, hresult⟩ := skip_of_eq_nil (t := t) hresults
    rw [if_pos hhalt] at hresult
    exact ⟨hresult, hskip.trans hhalt⟩
  | succ r =>
    have hhead := congrArg List.head? hresults
    rw [List.head?_map, List.head?_map, List.head?_reverse, hrun, List.range'_concat,
      List.getLast?_concat, Option.map_some, Option.map_eq_some_iff] at hhead
    obtain ⟨m, hm, hextent⟩ := hhead
    have hstop : m.stop = pos + (r + 1) := by
      rw [← m.extent_stop, hextent, Extent.empty_stop, Nat.one_mul, Nat.add_comm 1]
    rw [← hstop]
    exact skip_of_head? hm

/-- If an item has one match at most at every offset, a repetition of it has those that stop after
    the largest number of repetitions that there are and that are allowed, after one less, and so on
    down to the smallest one that is allowed, unless the item breaks off. At least one character of
    a class are the beginnings of the run, the longest first, and a skip takes the whole run. -/
theorem counts_down (rules : Rules) (t : Text) (limit : Nat) :
    (∀ (item : Pattern) (minimum : Int) (maximum : Option Int) (pos : Nat),
      let once := fun pos => (item.search t (rules.enter t limit) pos).extents
      let found :=
        ((Pattern.repetition item minimum maximum).search t (rules.enter t limit) pos).extents
      (∀ pos, (once pos).results.length ≤ 1) →
      ∃ n, IsGreatest {n | (repeated once n pos).isSome ∧
          ∀ bound ∈ maximum, (n : Int) ≤ max bound 0} n ∧
        (∀ i ≤ n, (repeated once i pos).isSome) ∧
        let numbers := ((List.range (n + 1)).filter fun i : Nat => minimum ≤ i).reverse
        let expected := numbers.filterMap (repeated once · pos)
        expected.Pairwise (fun e e' => e'.stop < e.stop) ∧
        ((n : Int) < minimum → expected = []) ∧
        found.results <+: expected ∧ (found.halt? = none → found.results = expected) ∧
        (found.halt? = none ↔ ∀ i ≤ n, (∀ bound ∈ maximum, (i : Int) < bound) →
          ∀ e ∈ repeated once i pos, (once e.stop).halt? = none)) ∧
    (∀ (k : CharClass) (pos : Nat),
      let found :=
        ((Pattern.repetition (.charClass k) 1 none).search t (rules.enter t limit) pos).extents
      found.results = (List.range' 1 (run t k pos)).reverse.map (fun n => .empty (pos + n)) ∧
      found.halt? = none ∧
      ∀ n ≤ run t k pos, t.slice pos (pos + n : Nat) = ((t.rest pos).takeWhile k.accepts).take n) ∧
    ∀ (name : Word) (k : CharClass) (pos : Nat),
      rules.lookup name = some (.repetition (.charClass k) 1 none) →
      let found := ((Pattern.skip name).search t (rules.enter t (limit + 1)) pos).listing
      found.results = [.empty (pos + run t k pos)] ∧ found.halt? = none := by
  refine ⟨?_, fun k pos => ?_, fun name k pos hname => skip_run hname limit pos⟩
  · intro item minimum maximum pos once found hone
    have hsearch (p : Pattern) : (fun pos => (p.search t (rules.enter t limit) pos).extents) =
        p.listing t (rules.listing t limit) :=
      funext (extents_search (rules.extents_enter t limit) (rules.within_listing t limit) p)
    have honce : once = item.listing t (rules.listing t limit) := hsearch item
    have hitem : Within t.size once :=
      honce ▸ Pattern.within_listing (rules.within_listing t limit) item
    have hfound : found = repeats t.size once minimum maximum 0 pos :=
      (congrFun (hsearch (.repetition item minimum maximum)) pos).trans (by rw [honce]; rfl)
    obtain ⟨n, hn⟩ := exists_isGreatest_counts hitem maximum 0 pos
    have hattains := attains_repeats hitem hone minimum hn
    have hpairwise := pairwise_countdown once minimum 0 pos n
    rw [← hfound] at hattains
    simp only [Counts, countdown, Nat.zero_add, Int.cast_ofNat_Int,
      Int.sub_zero] at hn hattains hpairwise
    refine ⟨n, hn, fun i hi => isSome_repeated_of_le hi hn.1.1, hpairwise, fun hlt => ?_,
      hattains.begins, hattains.complete, ?_⟩
    · rw [List.filter_eq_nil_iff.2 fun i hi => ?_]
      · rfl
      · rw [List.mem_range] at hi
        simp only [decide_eq_true_eq]
        omega
    · simpa only [Calm, Nat.zero_add] using hattains.halt?_eq_none_iff
  · obtain ⟨hresults, hhalt⟩ := extents_search_plus rules t limit k pos
    exact ⟨hresults, hhalt, fun n hn => slice_run hn⟩

/-- In three times `ab`, one repetition to two of it are found, two of them first, and a skip of its
    letters takes all. -/
theorem counts_down_pairs :
    let t : Text := #['a', 'b', 'a', 'b', 'a', 'b']
    let rules : Rules := [(['w'], .repetition (.charClass ⟨[('a', 'b')], false⟩) 1 none)]
    let item := Pattern.literal ['a', 'b']
    let once := fun pos => (item.search t (rules.enter t 9) pos).extents
    let found := ((Pattern.repetition item 1 (some 2)).search t (rules.enter t 9) 0).extents
    let skipped := ((Pattern.skip ['w']).search t (rules.enter t 10) 0).listing
    (∀ pos, (once pos).results.length ≤ 1) ∧ found.results.map Extent.stop = [4, 2] ∧
    rules.lookup ['w'] = some (.repetition (.charClass ⟨[('a', 'b')], false⟩) 1 none) ∧
    skipped.results.map Match.stop = [6] := by
  intro t rules item once found skipped
  have hliteral (pos : Nat) : (once pos).results.length ≤ 1 ∧ (once pos).halt? = none := by
    simp only [once, item, Pattern.search]
    split
    · exact ⟨Nat.le_refl 1, rfl⟩
    · exact ⟨Nat.zero_le 1, rfl⟩
  obtain ⟨hitem, -, hskip⟩ := counts_down rules t 9
  obtain ⟨n, hgreatest, -, -, -, -, hcomplete, hhalt⟩ :=
    hitem item 1 (some 2) 0 fun pos => (hliteral pos).1
  obtain rfl : n = 2 := by
    refine Nat.le_antisymm ?_ (hgreatest.2 ⟨by decide, by simp⟩)
    have := hgreatest.1.2 2 rfl
    omega
  refine ⟨fun pos => (hliteral pos).1, ?_, rfl, ?_⟩
  · rw [hcomplete (hhalt.2 fun _ _ _ e _ => (hliteral e.stop).2)]
    decide
  · rw [(hskip ['w'] _ 0 rfl).1]
    decide

end Rules

end Descent
