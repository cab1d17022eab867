import Descent.Grammar.Compile
import Descent.Proofs.Flat
import Descent.Proofs.Longest
import Mathlib.Order.Bounds.Basic

/-!
# What is skipped

A skip passes over what a rule matches *first*, which need not be the longest that it matches: of
the rule `' ' | '  '`, one space is skipped even if two are there. It is the longest if the rule is
put together with some care (`Rules.Greedy`, `Rules.skip_longest`):

* what is repeated stops at one offset only, wherever it starts (`Rules.Definite`);
* so does all of a sequence but its last item;
* alternatives start with different characters (`Rules.Apart`), or are of a fixed length each
  (`Rules.Rigid`), the longer ones first.

A sequence stops at one offset, too, if a repeated class in it is followed by something that does
not start with a character of the class, as the line break at the end of a comment.
-/

namespace Descent

namespace Listing

variable {l m : Listing Extent} {g : Nat → Listing Extent}

/-- All matches stop at the same offset. -/
def OneStop (l : Listing Extent) : Prop := ∀ e ∈ l.results, ∀ e' ∈ l.results, e'.stop = e.stop

/-- No match is longer than the first one. -/
def LongestFirst (l : Listing Extent) : Prop :=
  ∀ e, l.results.head? = some e → ∀ e' ∈ l.results, e'.stop ≤ e.stop

theorem OneStop.longestFirst (h : l.OneStop) : l.LongestFirst :=
  fun e he e' he' => (h e (List.mem_of_head? he) e' he').le

theorem oneStop_nil : nil.OneStop := nofun

theorem oneStop_single (e : Extent) : (single e).OneStop := by
  intro e₁ h₁ e₂ h₂
  rw [List.mem_singleton.1 h₁, List.mem_singleton.1 h₂]

theorem longestFirst_map {f : Extent → Extent} (hf : ∀ e, (f e).stop = e.stop)
    (h : l.LongestFirst) : (l.map f).LongestFirst := by
  intro x hx y hy
  rw [results_map, List.head?_map, Option.map_eq_some_iff] at hx
  obtain ⟨e, he, rfl⟩ := hx
  obtain ⟨e', he', rfl⟩ := mem_results_map.1 hy
  rw [hf, hf]
  exact h e he e' he'

/-- Without a match, the search breaks off as it did. -/
theorem first_of_halt? {α : Type} {l : Listing α} {default : α} {cause : Halt}
    (h : l.results = []) (hl : l.halt? = some cause) : l.first default = l := by
  rw [first, h]
  exact append_of_halt? hl _

theorem head?_append {α : Type} {l m : Listing α} {a : α} (h : (l ++ m).results.head? = some a) :
    l.results.head? = some a ∨ l.results = [] ∧ m.results.head? = some a := by
  cases hhalt : l.halt? with
  | some cause =>
    rw [append_of_halt? hhalt] at h
    exact .inl h
  | none =>
    rw [results_append hhalt, List.head?_append] at h
    cases hl : l.results with
    | nil =>
      rw [hl] at h
      exact .inr ⟨rfl, h⟩
    | cons b later =>
      rw [hl] at h
      exact .inl h

theorem head?_bind {α β : Type} {l : Listing α} {f : α → Listing β} {b : β}
    (h : (l.bind f).results.head? = some b) : ∃ a ∈ l.results, (f a).results.head? = some b := by
  induction l using cases_events with
  | nil | halted => cases h
  | reach offset l ih => exact ih h
  | found a l ih =>
    rw [bind_cons_found] at h
    obtain h | ⟨-, h⟩ := head?_append h
    · exact ⟨a, List.mem_cons_self, h⟩
    · obtain ⟨a', ha', hb⟩ := ih h
      exact ⟨a', List.mem_cons_of_mem _ ha', hb⟩

theorem LongestFirst.append (hl : l.LongestFirst) (hm : m.LongestFirst)
    (h : ∀ e ∈ l.results, ∀ e' ∈ m.results, e'.stop ≤ e.stop) : (l ++ m).LongestFirst := by
  intro x hx y hy
  obtain hx | ⟨hnil, hx⟩ := head?_append hx
  · obtain hy | ⟨-, hy⟩ := mem_results_append.1 hy
    · exact hl x hx y hy
    · exact h x (List.mem_of_head? hx) y hy
  · obtain hy | ⟨-, hy⟩ := mem_results_append.1 hy
    · rw [hnil] at hy
      cases hy
    · exact hm x hx y hy

/-- What comes after matches that stop at one offset always starts there. -/
theorem OneStop.longestFirst_bind {f : Extent → Listing Extent} (hl : l.OneStop)
    (hf : ∀ e, f e = (g e.stop).map (.after e.nodes))
    (hg : ∀ e ∈ l.results, (g e.stop).LongestFirst) : (l.bind f).LongestFirst := by
  intro x hx y hy
  obtain ⟨e, he, hx⟩ := head?_bind hx
  obtain ⟨e', he', hy⟩ := mem_results_bind hy
  rw [hf] at hx hy
  rw [results_map, List.head?_map, Option.map_eq_some_iff] at hx
  obtain ⟨x', hx', rfl⟩ := hx
  obtain ⟨y', hy', rfl⟩ := mem_results_map.1 hy
  rw [hl e he e' he'] at hy'
  exact hg e he x' hx' y' hy'

end Listing

namespace Pattern

variable {t : Text} {enter : Word → Nat → Listing Extent}

/-- A repetition goes on for as long as it can, if there is one way to do so only. -/
theorem longestFirst_repeats {size : Nat} {item : Nat → Listing Extent}
    (hitem : ∀ pos, (item pos).OneStop) (minimum : Int) (maximum : Option Int) (count pos : Nat) :
    (repeats size item minimum maximum count pos).LongestFirst := by
  -- Every repetition takes a character at least.
  induction h : size - pos using Nat.strongRecOn generalizing count pos with
  | ind n ih =>
    rw [repeats]
    refine Listing.LongestFirst.append ?_ ?_ fun x hx y hy => ?_
    · split
      · exact Listing.oneStop_nil.longestFirst
      refine (hitem pos).longestFirst_bind (g := fun stop =>
        if pos < stop ∧ stop ≤ size then repeats size item minimum maximum (count + 1) stop
        else .nil) (fun e => ?_) fun e _ => ?_
      · split <;> rfl
      · split
        · exact ih (size - e.stop) (by omega) (count + 1) e.stop rfl
        · exact Listing.oneStop_nil.longestFirst
    · split
      · exact (Listing.oneStop_single _).longestFirst
      · exact Listing.oneStop_nil.longestFirst
    · -- The offset itself comes last.
      split at hy
      · rw [List.mem_singleton.1 hy, Extent.empty_stop]
        split at hx
        · cases hx
        obtain ⟨e, -, hx⟩ := Listing.mem_results_bind hx
        obtain ⟨⟨hlt, -⟩, x', hx', hx⟩ := exists_of_mem_again hx
        have := (within_repeats _ _ _ _ _ _ x' hx').1
        omega
      · cases hy

theorem exists_of_mem_listingAny {ps : List Pattern} {pos : Nat} {e : Extent}
    (h : e ∈ (listingAny t enter ps pos).results) :
    ∃ p ∈ ps, e ∈ (p.listing t enter pos).results := by
  induction ps with
  | nil => cases h
  | cons p ps ih =>
    obtain h | ⟨-, h⟩ := Listing.mem_results_append.1 h
    · exact ⟨p, List.mem_cons_self, h⟩
    · obtain ⟨q, hq, h⟩ := ih h
      exact ⟨q, List.mem_cons_of_mem _ hq, h⟩

/-- Alternatives may come one after the other if no later one is longer. -/
theorem longestFirst_listingAny {ps : List Pattern} {pos : Nat}
    (hps : ∀ p ∈ ps, (p.listing t enter pos).LongestFirst)
    (h : ps.Pairwise fun p q => ∀ e ∈ (p.listing t enter pos).results,
      ∀ e' ∈ (q.listing t enter pos).results, e'.stop ≤ e.stop) :
    (listingAny t enter ps pos).LongestFirst := by
  induction ps with
  | nil => exact Listing.oneStop_nil.longestFirst
  | cons p ps ih =>
    obtain ⟨hp, hps⟩ := List.forall_mem_cons.1 hps
    obtain ⟨hfirst, hlater⟩ := List.pairwise_cons.1 h
    refine hp.append (ih hps hlater) fun e he e' he' => ?_
    obtain ⟨q, hq, he'⟩ := exists_of_mem_listingAny he'
    exact hfirst q hq e he e' he'

end Pattern

/-! ## Rules put together with care -/

namespace Rules

section

variable (rules : Rules)

/-- Every match of the pattern has `n` characters. -/
inductive Rigid : (n : Nat) → (p : Pattern) → Prop
  | literal (word : Word) : Rigid word.length (.literal word)
  | charClass (k : CharClass) : Rigid 1 (.charClass k)
  | empty : Rigid 0 (.sequence [])
  | sequence {n m : Nat} {p : Pattern} {items : List Pattern} (h : Rigid n p)
    (rest : Rigid m (.sequence items)) : Rigid (n + m) (.sequence (p :: items))
  | choice {n : Nat} {alternatives : List Pattern} (h : ∀ p ∈ alternatives, Rigid n p) :
    Rigid n (.choice alternatives)
  | reference {n : Nat} {name : Word} {p : Pattern} (hp : rules.lookup name = some p)
    (h : Rigid n p) : Rigid n (.reference name)

/-- Every match of the pattern starts with a character of the class `k`. -/
inductive Starts (k : Char → Bool) : (p : Pattern) → Prop
  | literal {c : Char} {word : Word} (hc : k c) : Starts k (.literal (c :: word))
  | charClass {class' : CharClass} (h : ∀ c, class'.accepts c → k c) : Starts k (.charClass class')
  | sequence {p : Pattern} {items : List Pattern} (h : Starts k p) :
    Starts k (.sequence (p :: items))
  | choice {alternatives : List Pattern} (h : ∀ p ∈ alternatives, Starts k p) :
    Starts k (.choice alternatives)
  | repetition {item : Pattern} {minimum : Int} {maximum : Option Int} (h : Starts k item)
    (hmin : 1 ≤ minimum) : Starts k (.repetition item minimum maximum)
  | reference {name : Word} {p : Pattern} (hp : rules.lookup name = some p) (h : Starts k p) :
    Starts k (.reference name)

/-- The patterns start with different characters. -/
def Apart (p q : Pattern) : Prop :=
  ∃ k k', rules.Starts k p ∧ rules.Starts k' q ∧ ∀ c, k c → ¬k' c

/-- All matches of the pattern at an offset stop at the same one. -/
inductive Definite : (p : Pattern) → Prop
  | rigid {n : Nat} {p : Pattern} (h : rules.Rigid n p) : Definite p
  | skip (name : Word) : Definite (.skip name)
  | sequence {p : Pattern} {items : List Pattern} (h : Definite p)
    (rest : Definite (.sequence items)) : Definite (.sequence (p :: items))
  | upTo {k : CharClass} {minimum : Int} {maximum : Option Int} {p : Pattern}
    {items : List Pattern} (hp : rules.Starts (fun c => !k.accepts c) p)
    (rest : Definite (.sequence (p :: items))) :
    Definite (.sequence (.repetition (.charClass k) minimum maximum :: p :: items))
  | choice {alternatives : List Pattern} (h : ∀ p ∈ alternatives, Definite p)
    (hapart : alternatives.Pairwise rules.Apart) : Definite (.choice alternatives)
  | reference {name : Word} {p : Pattern} (hp : rules.lookup name = some p) (h : Definite p) :
    Definite (.reference name)

/-- No match of the pattern is longer than the first one. -/
inductive Greedy : (p : Pattern) → Prop
  | definite {p : Pattern} (h : rules.Definite p) : Greedy p
  | repetition {item : Pattern} {minimum : Int} {maximum : Option Int} (h : rules.Definite item) :
    Greedy (.repetition item minimum maximum)
  | sequence {p : Pattern} {items : List Pattern} (h : rules.Definite p)
    (rest : Greedy (.sequence items)) : Greedy (.sequence (p :: items))
  | last {p : Pattern} (h : Greedy p) : Greedy (.sequence [p])
  | choice {alternatives : List Pattern} (h : ∀ p ∈ alternatives, Greedy p)
    (hpairs : alternatives.Pairwise fun p q =>
      rules.Apart p q ∨ ∃ n m, rules.Rigid n p ∧ rules.Rigid m q ∧ m ≤ n) :
    Greedy (.choice alternatives)
  | reference {name : Word} {p : Pattern} (hp : rules.lookup name = some p) (h : Greedy p) :
    Greedy (.reference name)

end

variable {rules : Rules} {t : Text} {p q : Pattern} {pos stop stop' : Nat}
  {nodes nodes' : List Tree}

/-! ### What they derive -/

theorem Rigid.stop_eq {n : Nat} (h : rules.Rigid n p) (hp : Derives rules t p pos stop nodes) :
    stop = pos + n := by
  induction h generalizing pos stop nodes with
  | literal | charClass =>
    cases hp
    rfl
  | empty => exact (derivesAll_nil_iff.1 (derives_sequence_iff.1 hp)).1
  | sequence _ _ ih ihrest =>
    obtain ⟨mid, _, _, hfirst, hrest, -⟩ := derivesAll_cons_iff.1 (derives_sequence_iff.1 hp)
    rw [ihrest (.sequence hrest), ih hfirst, Nat.add_assoc]
  | choice _ ih =>
    obtain ⟨q, hq, hp⟩ := derives_choice_iff.1 hp
    exact ih q hq hp
  | reference hname _ ih =>
    obtain ⟨_, hp, -⟩ := (derives_reference_iff hname).1 hp
    exact ih hp

theorem Starts.any {k : Char → Bool} (h : rules.Starts k p)
    (hp : Derives rules t p pos stop nodes) : t[pos]?.any k := by
  induction h generalizing pos stop nodes with
  | literal hc =>
    cases hp with
    | literal hholds =>
      rw [Text.holds, Bool.and_eq_true] at hholds
      rw [eq_of_beq hholds.1]
      exact hc
  | charClass h =>
    cases hp with
    | charClass hget hc =>
      rw [hget]
      exact h _ hc
  | sequence _ ih =>
    obtain ⟨_, _, _, hfirst, -⟩ := derivesAll_cons_iff.1 (derives_sequence_iff.1 hp)
    exact ih hfirst
  | choice _ ih =>
    obtain ⟨q, hq, hp⟩ := derives_choice_iff.1 hp
    exact ih q hq hp
  | repetition _ hmin ih =>
    cases hp with
    | repetition htimes hle =>
      cases htimes with
      | zero => omega
      | succ hitem => exact ih hitem
  | reference hname _ ih =>
    obtain ⟨_, hp, -⟩ := (derives_reference_iff hname).1 hp
    exact ih hp

/-- Of patterns that start with different characters, one has no match at an offset. -/
theorem Apart.false (h : rules.Apart p q) (hp : Derives rules t p pos stop nodes)
    (hq : Derives rules t q pos stop' nodes') : False := by
  obtain ⟨k, k', hk, hk', hdisjoint⟩ := h
  obtain ⟨c, hget, hc⟩ := (Option.any_eq_true _ _).1 (hk.any hp)
  have hc' := hk'.any hq
  rw [hget] at hc'
  exact hdisjoint c hc hc'

/-- A repeated class has its characters everywhere. -/
theorem any_of_derivesTimes {k : CharClass} {n i : Nat}
    (h : DerivesTimes rules t (.charClass k) n pos stop nodes) (hi : pos ≤ i) (hstop : i < stop) :
    t[i]?.any k.accepts := by
  induction n generalizing pos nodes with
  | zero =>
    cases h
    omega
  | succ n ih =>
    cases h with
    | succ h _ rest =>
      cases h with
      | charClass hget hc =>
        obtain rfl | hlt := Nat.eq_or_lt_of_le hi
        · rw [hget]
          exact hc
        · exact ih rest hlt

/-- A repeated class goes up to where something does not start with a character of the class. -/
theorem stop_le_of_any {k : CharClass} {minimum : Int} {maximum : Option Int} {i : Nat}
    (h : Derives rules t (.repetition (.charClass k) minimum maximum) pos stop nodes) (hi : pos ≤ i)
    (hany : t[i]?.any fun c => !k.accepts c) : stop ≤ i := by
  by_contra hlt
  cases h with
  | repetition htimes =>
    obtain ⟨c, hget, hc⟩ :=
      (Option.any_eq_true _ _).1 (any_of_derivesTimes htimes hi (Nat.lt_of_not_le hlt))
    rw [hget, Option.any_some, hc] at hany
    cases hany

theorem Definite.stop_eq (h : rules.Definite p) (hp : Derives rules t p pos stop nodes)
    (hp' : Derives rules t p pos stop' nodes') : stop' = stop := by
  induction h generalizing pos stop stop' nodes nodes' with
  | rigid h => rw [h.stop_eq hp, h.stop_eq hp']
  | skip name => exact (derives_skip_iff.1 hp').1.unique (derives_skip_iff.1 hp).1
  | sequence _ _ ih ihrest =>
    obtain ⟨mid, _, _, hfirst, hrest, -⟩ := derivesAll_cons_iff.1 (derives_sequence_iff.1 hp)
    obtain ⟨mid', _, _, hfirst', hrest', -⟩ := derivesAll_cons_iff.1 (derives_sequence_iff.1 hp')
    cases ih hfirst hfirst'
    exact ihrest (.sequence hrest) (.sequence hrest')
  | upTo hstarts _ ih =>
    obtain ⟨mid, _, _, hfirst, hrest, -⟩ := derivesAll_cons_iff.1 (derives_sequence_iff.1 hp)
    obtain ⟨mid', _, _, hfirst', hrest', -⟩ := derivesAll_cons_iff.1 (derives_sequence_iff.1 hp')
    obtain ⟨_, _, _, hnext, -⟩ := derivesAll_cons_iff.1 hrest
    obtain ⟨_, _, _, hnext', -⟩ := derivesAll_cons_iff.1 hrest'
    -- Neither of the offsets where the class may end lies before the other one.
    have hle := stop_le_of_any hfirst hfirst'.within.1 (hstarts.any hnext')
    have hle' := stop_le_of_any hfirst' hfirst.within.1 (hstarts.any hnext)
    cases Nat.le_antisymm hle hle'
    exact ih (.sequence hrest) (.sequence hrest')
  | choice _ hapart ih =>
    obtain ⟨q, hq, hp⟩ := derives_choice_iff.1 hp
    obtain ⟨q', hq', hp'⟩ := derives_choice_iff.1 hp'
    refine List.Pairwise.forall_of_forall_of_flip
      (R := fun q q' => ∀ {stop stop' nodes nodes'}, Derives rules t q pos stop nodes →
        Derives rules t q' pos stop' nodes' → stop' = stop) ?_ ?_ ?_ hq hq' hp hp'
    · exact fun q hq => ih q hq
    · exact hapart.imp fun h _ _ _ _ hq hq' => (h.false hq hq').elim
    · exact hapart.imp fun h _ _ _ _ hq' hq => (h.false hq hq').elim
  | reference hname _ ih =>
    obtain ⟨_, hp, -⟩ := (derives_reference_iff hname).1 hp
    obtain ⟨_, hp', -⟩ := (derives_reference_iff hname).1 hp'
    exact ih hp hp'

/-! ### What is listed for them -/

/-- Whatever is listed for a pattern is derived. -/
theorem derives_of_mem {limit : Nat} {e : Extent}
    (he : e ∈ (p.listing t (rules.listing t limit) pos).results) :
    Derives rules t p pos e.stop e.nodes :=
  p.derives_of_mem_listing (fun _ _ _ => derives_of_mem_listing) pos e he

theorem Definite.oneStop (h : rules.Definite p) (limit pos : Nat) :
    (p.listing t (rules.listing t limit) pos).OneStop :=
  fun _ he _ he' => h.stop_eq (derives_of_mem he) (derives_of_mem he')

theorem longestFirst_of_lookup {name : Word} (hname : rules.lookup name = some p)
    (h : ∀ limit pos, (p.listing t (rules.listing t limit) pos).LongestFirst) (limit pos : Nat) :
    (rules.listing t limit name pos).LongestFirst := by
  cases limit with
  | zero =>
    rw [listing, hname]
    exact nofun
  | succ limit =>
    rw [listing, hname]
    exact h limit pos

theorem Greedy.longestFirst (h : rules.Greedy p) (limit pos : Nat) :
    (p.listing t (rules.listing t limit) pos).LongestFirst := by
  induction h generalizing limit pos with
  | definite h => exact (h.oneStop limit pos).longestFirst
  | repetition h => exact Pattern.longestFirst_repeats (h.oneStop limit) _ _ 0 pos
  | sequence h _ ih => exact (h.oneStop limit pos).longestFirst_bind (fun _ => rfl) fun e _ => ih limit e.stop
  | last _ ih =>
    rw [Pattern.listing, Pattern.listingAll_singleton]
    exact ih limit pos
  | choice _ hpairs ih =>
    refine Pattern.longestFirst_listingAny (fun p hp => ih p hp limit pos) (hpairs.imp ?_)
    rintro p q (hapart | ⟨n, m, hp, hq, hle⟩) e he e' he'
    · exact (hapart.false (derives_of_mem he) (derives_of_mem he')).elim
    · rw [hp.stop_eq (derives_of_mem he), hq.stop_eq (derives_of_mem he')]
      exact Nat.add_le_add_left hle pos
  | reference hname _ ih =>
    exact Listing.longestFirst_map (fun _ => rfl) (longestFirst_of_lookup hname ih limit pos)

/-! ### Skipping them -/

section

variable {enter : Word → Nat → Search Match} {name : Word}

theorem listing_search_skip (enter : Word → Nat → Search Match) (name : Word) (pos : Nat) :
    ((Pattern.skip name).search t enter pos).listing =
      ((enter name pos).listing.map fun m => .empty m.stop).first (.empty pos) := by
  rw [Pattern.search, Search.listing_first, Search.listing_map]

/-- A skip stops where the first match of the rule does. -/
theorem skip_of_head? {m : Match} (hm : (enter name pos).listing.results.head? = some m) :
    ((Pattern.skip name).search t enter pos).listing.results = [.empty m.stop] ∧
      ((Pattern.skip name).search t enter pos).listing.halt? = none := by
  have hhead : ((enter name pos).listing.map fun m => Match.empty m.stop).results.head? =
      some (.empty m.stop) := by
    rw [Listing.results_map, List.head?_map, hm]
    rfl
  rw [listing_search_skip]
  exact ⟨Listing.results_first_of_head? hhead,
    Listing.halt?_first_eq_none.2 (.inl (List.ne_nil_of_mem (List.mem_of_head? hhead)))⟩

/-- A skip of a rule without a match stops at the offset itself, unless the search breaks off. -/
theorem skip_of_eq_nil (hnil : (enter name pos).listing.results = []) :
    ((Pattern.skip name).search t enter pos).listing.halt? = (enter name pos).listing.halt? ∧
      ((Pattern.skip name).search t enter pos).listing.results =
        if (enter name pos).listing.halt? = none then [.empty pos] else [] := by
  have hmap : ((enter name pos).listing.map fun m => Match.empty m.stop).results = [] := by
    rw [Listing.results_map, hnil]
    rfl
  have hhalt := Listing.halt?_map (fun m => Match.empty m.stop) (enter name pos).listing
  rw [listing_search_skip]
  cases hcause : (enter name pos).listing.halt? with
  | none =>
    rw [hcause] at hhalt
    exact ⟨Listing.halt?_first_eq_none.2 (.inr hhalt), Listing.results_first_of_eq_nil hmap hhalt⟩
  | some cause =>
    rw [hcause] at hhalt
    rw [Listing.first_of_halt? hmap hhalt]
    exact ⟨hhalt, hmap⟩

end

/-- No match that the search for a greedy rule finds is longer than the first one. -/
theorem Greedy.stop_le (h : rules.Greedy p) {name : Word} (hname : rules.lookup name = some p)
    {limit : Nat} {m m' : Match}
    (hm : (rules.enter t limit name pos).listing.results.head? = some m)
    (hm' : m' ∈ (rules.enter t limit name pos).listing.results) : m'.stop ≤ m.stop := by
  have hlongest := longestFirst_of_lookup (t := t) hname h.longestFirst limit pos
  rw [← extents_enter, Search.extents, Listing.LongestFirst, Listing.results_map] at hlongest
  exact hlongest m.extent (by rw [List.head?_map, hm]; rfl) m'.extent (List.mem_map_of_mem hm')

/-- A skip has one match, unless it breaks off: it stops where the first match of the rule does, or
    at the offset itself if there is none. If the rule is greedy, that is the largest offset where a
    match of the rule stops. -/
theorem skip_longest (rules : Rules) (t : Text) (limit : Nat) (name : Word) (pos : Nat) :
    let found := (rules.enter t limit name pos).listing
    let skipped := ((Pattern.skip name).search t (rules.enter t limit) pos).listing
    (∀ m, found.results.head? = some m →
      skipped.results = [.empty m.stop] ∧ skipped.halt? = none) ∧
    (found.results = [] → skipped.halt? = found.halt? ∧
      skipped.results = if found.halt? = none then [.empty pos] else []) ∧
    ∀ p, rules.lookup name = some p → rules.Greedy p → ∀ m ∈ skipped.results,
      IsGreatest {stop | (∃ m ∈ found.results, m.stop = stop) ∨ found.results = [] ∧ stop = pos}
        m.stop := by
  intro found skipped
  refine ⟨fun m => skip_of_head?, skip_of_eq_nil, fun p hname hgreedy m hm => ?_⟩
  cases hhead : found.results.head? with
  | none =>
    have hnil := List.head?_eq_none_iff.1 hhead
    rw [(skip_of_eq_nil hnil).2] at hm
    split at hm
    · rw [List.mem_singleton.1 hm]
      refine ⟨.inr ⟨hnil, rfl⟩, ?_⟩
      rintro stop (⟨m', hm', -⟩ | ⟨-, rfl⟩)
      · rw [hnil] at hm'
        cases hm'
      · exact Nat.le_refl _
    · cases hm
  | some first =>
    have hmem := List.mem_of_head? hhead
    rw [(skip_of_head? hhead).1] at hm
    rw [List.mem_singleton.1 hm, Match.empty_stop]
    refine ⟨.inl ⟨first, hmem, rfl⟩, ?_⟩
    rintro stop (⟨m', hm', rfl⟩ | ⟨hnil, -⟩)
    · exact hgreedy.stop_le hname hhead hm'
    · rw [hnil] at hmem
      cases hmem

/-- Spaces and comments from `#` to `;`, any number of them. -/
def filler : Rules :=
  [(['w', 's'], .repetition (.choice [.literal [' '],
    .sequence [.literal ['#'], .repetition (.charClass ⟨[(';', ';')], true⟩) 0 none,
      .literal [';']]]) 0 none)]

/-- A space and a comment start differently, and a comment ends at the first `;`. -/
theorem greedy_filler {p : Pattern} (hp : filler.lookup ['w', 's'] = some p) : filler.Greedy p := by
  cases hp
  have hspace : filler.Starts (· == ' ') (.literal [' ']) := .literal rfl
  have hcomment : filler.Starts (· == '#') (.sequence [.literal ['#'],
      .repetition (.charClass ⟨[(';', ';')], true⟩) 0 none, .literal [';']]) :=
    .sequence (.literal rfl)
  have hend : filler.Definite (.sequence [.literal [';']]) :=
    .sequence (.rigid (.literal _)) (.rigid .empty)
  refine .repetition (.choice ?_ ?_)
  · refine List.forall_mem_cons.2 ⟨.rigid (.literal _), List.forall_mem_singleton.2 ?_⟩
    exact .sequence (.rigid (.literal _)) (.upTo (.literal (by decide)) hend)
  · refine List.pairwise_pair.2 ⟨_, _, hspace, hcomment, fun c hc hc' => ?_⟩
    rw [eq_of_beq hc] at hc'
    cases hc'

/-- The skip of spaces and comments goes as far as possible. -/
theorem skip_longest_filler :
    let t : Text := #[' ', '#', 'x', ';', ' ', 'y']
    let found := (filler.enter t 2 ['w', 's'] 0).listing
    found.results.map Match.stop = [5, 4, 1, 0] ∧
    ((Pattern.skip ['w', 's']).search t (filler.enter t 2) 0).listing.results.map Match.stop = [5] ∧
    IsGreatest {stop | (∃ m ∈ found.results, m.stop = stop) ∨ found.results = [] ∧ stop = 0} 5 := by
  intro t found
  obtain ⟨-, -, hgreatest⟩ := skip_longest filler t 2 ['w', 's'] 0
  have hstops : ((Pattern.skip ['w', 's']).search t (filler.enter t 2) 0).listing.results.map
      Match.stop = [5] := by decide +kernel
  refine ⟨by decide +kernel, hstops, ?_⟩
  obtain ⟨m, hm, hstop⟩ := List.mem_map.1 (hstops ▸ List.mem_singleton_self 5)
  exact hstop ▸ hgreatest _ rfl (greedy_filler rfl) m hm

end Rules

namespace Grammar

/-- The grammar of `@skip ws { a ::= 'x'; } ws ::= ' ' | '  ';`. -/
def shorterFirst : Grammar :=
  ⟨[(['a'], .sequence [.skip ['w', 's'], .literal ['x'], .skip ['w', 's']]),
    (['w', 's'], .choice [.literal [' '], .literal [' ', ' ']])], ['a']⟩

theorem compile_shorterFirst :
    compile "@skip ws \x7b a ::= 'x'; \x7d ws ::= ' ' | '  ';".toList none = .ok shorterFirst := rfl

/-- One space is skipped although the rule matches both of them, and the text is refused. -/
theorem skip_shorterFirst :
    let t : Text := #[' ', ' ', 'x']
    let enter := shorterFirst.rules.enter t 500
    compile "@skip ws \x7b a ::= 'x'; \x7d ws ::= ' ' | '  ';".toList none = .ok shorterFirst ∧
    (enter ['w', 's'] 0).listing.results.map Match.stop = [1, 2] ∧
    ((Pattern.skip ['w', 's']).search t enter 0).listing.results.map Match.stop = [1] ∧
    ¬IsGreatest {stop | ∃ m ∈ (enter ['w', 's'] 0).listing.results, m.stop = stop} 1 ∧
    shorterFirst.parse 500 t = .error (.unmatched 1) := by
  intro t enter
  have hfound : (enter ['w', 's'] 0).listing.results.map Match.stop = [1, 2] := by decide +kernel
  refine ⟨compile_shorterFirst, hfound, by decide +kernel, fun hgreatest => ?_, rfl⟩
  have hmem : 2 ∈ (enter ['w', 's'] 0).listing.results.map Match.stop := by
    rw [hfound]
    decide
  exact absurd (hgreatest.2 (List.mem_map.1 hmem)) (by decide)

end Grammar

end Descent
