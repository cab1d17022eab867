import Descent.Proofs.Derivation

/-!
# What a search tries

A search comes to a part of a pattern where what stands before that part is derived
(`Attempts`): in a sequence the items before it, and in a repetition the earlier repetitions,
as long as there are fewer than the maximum. The parts that count are the *leaves* of the
pattern, its terminals and the names of rules in it.

Besides its results, a search shows the offsets that it reaches, and why it breaks off. All of
that comes from the leaves that it tries (`Pattern.exists_attempts`). So, all in all,

* an offset that is reached is the end of a terminal, in a rule that is entered within others
  (`Reaches`, `Rules.reaches_of_mem_reached`);
* a search that is too deep enters as many rules within one another as are allowed
  (`Nests`, `Rules.nests_of_halt?`).

A skip is no more than tried here: it only goes on to the first match of its rule, so it may
reach less than the rule does.
-/

namespace Descent

/-! ## Attempts -/

/-- The pattern has no parts: it is a terminal or names a rule. -/
def Pattern.isLeaf : Pattern → Bool
  | .literal _ | .charClass _ | .reference _ | .skip _ => true
  | .sequence _ | .choice _ | .repetition _ _ _ => false

section

variable (rules : Rules) (t : Text)

mutual

/-- A partial derivation by the pattern `p` from the offset `pos` on comes to its leaf `q` at the
    offset `mid`. -/
inductive Attempts : (p : Pattern) → (pos : Nat) → (q : Pattern) → (mid : Nat) → Prop
  | leaf {q : Pattern} {pos : Nat} (hq : q.isLeaf) : Attempts q pos q pos
  | sequence {items : List Pattern} {q : Pattern} {pos mid : Nat}
    (h : AttemptsAll items pos q mid) : Attempts (.sequence items) pos q mid
  | choice {alternatives : List Pattern} {p q : Pattern} {pos mid : Nat}
    (hp : p ∈ alternatives) (h : Attempts p pos q mid) : Attempts (.choice alternatives) pos q mid
  | repetition {item q : Pattern} {minimum : Int} {maximum : Option Int} {n pos start mid : Nat}
    {nodes : List Tree} (before : DerivesTimes rules t item n pos start nodes)
    (hmax : ∀ bound ∈ maximum, (n : Int) < bound) (h : Attempts item start q mid) :
    Attempts (.repetition item minimum maximum) pos q mid

/-- The items up to one are derived one after the other, and that one partially. -/
inductive AttemptsAll : (items : List Pattern) → (pos : Nat) → (q : Pattern) → (mid : Nat) → Prop
  | head {item q : Pattern} {items : List Pattern} {pos mid : Nat} (h : Attempts item pos q mid) :
    AttemptsAll (item :: items) pos q mid
  | tail {item q : Pattern} {items : List Pattern} {pos start mid : Nat} {nodes : List Tree}
    (before : Derives rules t item pos start nodes) (h : AttemptsAll items start q mid) :
    AttemptsAll (item :: items) pos q mid

end

end

variable {rules : Rules} {t : Text} {p q : Pattern} {pos mid offset : Nat}

mutual

/-- Only leaves are tried. -/
theorem Attempts.isLeaf {p q : Pattern} {pos mid : Nat} : Attempts rules t p pos q mid → q.isLeaf
  | .leaf hq => hq
  | .sequence h => h.isLeaf
  | .choice _ h | .repetition _ _ h => h.isLeaf

theorem AttemptsAll.isLeaf {items : List Pattern} {q : Pattern} {pos mid : Nat} :
    AttemptsAll rules t items pos q mid → q.isLeaf
  | .head h => h.isLeaf
  | .tail _ h => h.isLeaf

end

theorem attempts_leaf_iff (hp : p.isLeaf) : Attempts rules t p pos q mid ↔ q = p ∧ mid = pos := by
  constructor
  · intro h
    cases h with
    | leaf => exact ⟨rfl, rfl⟩
    | sequence | choice | repetition => cases hp
  · rintro ⟨rfl, rfl⟩
    exact .leaf hp

theorem attempts_sequence_iff {items : List Pattern} :
    Attempts rules t (.sequence items) pos q mid ↔ AttemptsAll rules t items pos q mid := by
  refine ⟨fun h => ?_, .sequence⟩
  cases h with
  | leaf hq => cases hq
  | sequence h => exact h

theorem attempts_choice_iff {alternatives : List Pattern} :
    Attempts rules t (.choice alternatives) pos q mid ↔
      ∃ p ∈ alternatives, Attempts rules t p pos q mid := by
  refine ⟨fun h => ?_, fun ⟨_, hp, h⟩ => .choice hp h⟩
  cases h with
  | leaf hq => cases hq
  | choice hp h => exact ⟨_, hp, h⟩

theorem attempts_repetition_iff {item : Pattern} {minimum : Int} {maximum : Option Int} :
    Attempts rules t (.repetition item minimum maximum) pos q mid ↔
      ∃ n start nodes, DerivesTimes rules t item n pos start nodes ∧
        (∀ bound ∈ maximum, (n : Int) < bound) ∧ Attempts rules t item start q mid := by
  refine ⟨fun h => ?_, fun ⟨_, _, _, before, hmax, h⟩ => .repetition before hmax h⟩
  cases h with
  | leaf hq => cases hq
  | repetition before hmax h => exact ⟨_, _, _, before, hmax, h⟩

/-- Nothing is tried without items. -/
theorem not_attemptsAll_nil : ¬AttemptsAll rules t [] pos q mid := nofun

theorem attemptsAll_cons_iff {item : Pattern} {items : List Pattern} :
    AttemptsAll rules t (item :: items) pos q mid ↔
      Attempts rules t item pos q mid ∨
        ∃ start nodes, Derives rules t item pos start nodes ∧
          AttemptsAll rules t items start q mid := by
  refine ⟨fun h => ?_, ?_⟩
  · cases h with
    | head h => exact .inl h
    | tail before h => exact .inr ⟨_, _, before, h⟩
  · rintro (h | ⟨_, _, before, h⟩)
    · exact .head h
    · exact .tail before h

theorem attemptsAll_singleton_iff {item : Pattern} :
    AttemptsAll rules t [item] pos q mid ↔ Attempts rules t item pos q mid := by
  simp only [attemptsAll_cons_iff, not_attemptsAll_nil, and_false, exists_false, or_false]

/-! ## What a listing shows -/

/-- What a search shows besides its results. -/
inductive Sign where
  /-- The offset is reached. -/
  | reached (offset : Nat)
  /-- The search is broken off. -/
  | halted (cause : Halt)

namespace Listing

variable {α β : Type} {s : Sign}

/-- The listing shows the sign. -/
def Shows (l : Listing α) : (s : Sign) → Prop
  | .reached offset => offset ∈ l.reached
  | .halted cause => l.halt? = some cause

theorem not_shows_nil : ¬(nil : Listing α).Shows s := by
  cases s <;> nofun

theorem not_shows_single (a : α) : ¬(single a).Shows s := by
  cases s <;> nofun

theorem Shows.of_append {l m : Listing α} (h : (l ++ m).Shows s) : l.Shows s ∨ m.Shows s := by
  cases s with
  | reached offset => exact mem_reached_append h
  | halted cause =>
    rw [Shows, halt?_append, Option.or_eq_some_iff] at h
    exact h.imp_right And.right

theorem Shows.of_bind {l : Listing α} {f : α → Listing β} (h : (l.bind f).Shows s) :
    l.Shows s ∨ ∃ a ∈ l.results, (f a).Shows s := by
  cases s with
  | reached offset => exact mem_reached_bind h
  | halted cause => exact halt?_bind h

theorem shows_map_iff {l : Listing α} {f : α → β} : (l.map f).Shows s ↔ l.Shows s := by
  cases s with
  | reached offset => rw [Shows, Shows, reached_map]
  | halted cause => rw [Shows, Shows, halt?_map]

theorem Shows.of_first {l : Listing α} {a : α} (h : (l.first a).Shows s) : l.Shows s := by
  cases s with
  | reached offset => exact mem_reached_first h
  | halted cause => exact halt?_first h

end Listing

/-! ## Leaves show everything -/

namespace Pattern

/-- What a repetition shows is shown by its item after some repetitions. -/
theorem exists_derivesTimes_of_shows {p : Pattern} {item : Nat → Listing Extent} {s : Sign}
    (hitem : ∀ pos, ∀ e ∈ (item pos).results, Derives rules t p pos e.stop e.nodes)
    {minimum : Int} {maximum : Option Int} {count pos : Nat}
    (h : (repeats t.size item minimum maximum count pos).Shows s) :
    ∃ n start nodes, DerivesTimes rules t p n pos start nodes ∧
      (∀ bound ∈ maximum, (count + n : Nat) < bound) ∧ (item start).Shows s := by
  induction hsize : t.size - pos using Nat.strongRecOn generalizing count pos with
  | ind size ih =>
    rw [repeats] at h
    obtain h | h := h.of_append
    · split at h
      · exact absurd h Listing.not_shows_nil
      · rename_i hmax
        obtain h | ⟨e, he, h⟩ := h.of_bind
        · exact ⟨0, pos, [], .zero, lt_maximum_iff.1 hmax, h⟩
        · split at h
          · rename_i hstop
            obtain ⟨n, start, nodes, hn, hbound, hstart⟩ :=
              ih (t.size - e.stop) (by omega) (Listing.shows_map_iff.1 h) rfl
            refine ⟨n + 1, start, _, .succ (hitem pos e he) hstop.1 hn, fun bound hb => ?_, hstart⟩
            have := hbound bound hb
            omega
          · exact absurd h Listing.not_shows_nil
    · split at h
      · exact absurd h (Listing.not_shows_single _)
      · exact absurd h Listing.not_shows_nil

section

variable {limit : Nat} {s : Sign}

mutual

/-- What a search for a pattern shows is shown by a leaf that it tries. -/
theorem exists_attempts : ∀ (p : Pattern) {pos : Nat},
    (p.listing t (rules.listing t limit) pos).Shows s →
    ∃ q mid, Attempts rules t p pos q mid ∧ (q.listing t (rules.listing t limit) mid).Shows s
  | .literal word, pos, h => ⟨_, pos, .leaf rfl, h⟩
  | .charClass k, pos, h => ⟨_, pos, .leaf rfl, h⟩
  | .reference name, pos, h => ⟨_, pos, .leaf rfl, h⟩
  | .skip name, pos, h => ⟨_, pos, .leaf rfl, h⟩
  | .sequence items, _, h => by
    obtain ⟨q, mid, hq, h⟩ := exists_attemptsAll items h
    exact ⟨q, mid, .sequence hq, h⟩
  | .choice alternatives, _, h => by
    obtain ⟨p, hp, q, mid, hq, h⟩ := exists_attempts_any alternatives h
    exact ⟨q, mid, .choice hp hq, h⟩
  | .repetition item minimum maximum, _, h => by
    obtain ⟨n, start, nodes, hn, hmax, h⟩ := exists_derivesTimes_of_shows
      (item.derives_of_mem_listing fun _ _ _ => Rules.derives_of_mem_listing) h
    obtain ⟨q, mid, hq, h⟩ := exists_attempts item h
    exact ⟨q, mid, .repetition hn (by simpa using hmax) hq, h⟩

theorem exists_attemptsAll : ∀ (items : List Pattern) {pos : Nat},
    (listingAll t (rules.listing t limit) items pos).Shows s →
    ∃ q mid, AttemptsAll rules t items pos q mid ∧
      (q.listing t (rules.listing t limit) mid).Shows s
  | [], _, h => absurd h (Listing.not_shows_single _)
  | item :: items, pos, h => by
    obtain h | ⟨e, he, h⟩ := h.of_bind
    · obtain ⟨q, mid, hq, h⟩ := exists_attempts item h
      exact ⟨q, mid, .head hq, h⟩
    · obtain ⟨q, mid, hq, h⟩ := exists_attemptsAll items (Listing.shows_map_iff.1 h)
      have hitem := item.derives_of_mem_listing (fun _ _ _ => Rules.derives_of_mem_listing) pos e he
      exact ⟨q, mid, .tail hitem hq, h⟩

theorem exists_attempts_any : ∀ (alternatives : List Pattern) {pos : Nat},
    (listingAny t (rules.listing t limit) alternatives pos).Shows s →
    ∃ p ∈ alternatives, ∃ q mid, Attempts rules t p pos q mid ∧
      (q.listing t (rules.listing t limit) mid).Shows s
  | [], _, h => absurd h Listing.not_shows_nil
  | p :: ps, _, h => by
    obtain h | h := h.of_append
    · exact ⟨p, List.mem_cons_self, exists_attempts p h⟩
    · obtain ⟨p', hp', h⟩ := exists_attempts_any ps h
      exact ⟨p', List.mem_cons_of_mem _ hp', h⟩

end

end

end Pattern

/-! ## Rules entered within one another -/

section

variable (rules t)

/-- A partial derivation by the pattern enters the rule `name` at the offset `mid`. -/
def Enters (p : Pattern) (pos : Nat) (name : Word) (mid : Nat) : Prop :=
  Attempts rules t p pos (.reference name) mid ∨ Attempts rules t p pos (.skip name) mid

/-- A partial derivation comes to a terminal that stops at the offset `offset`, perhaps in rules
    that are entered within one another. -/
inductive Reaches : (p : Pattern) → (pos offset : Nat) → Prop
  | literal {p : Pattern} {word : Word} {pos mid : Nat}
    (h : Attempts rules t p pos (.literal word) mid) (hword : t.holds word mid) :
    Reaches p pos (mid + word.length)
  | charClass {p : Pattern} {k : CharClass} {c : Char} {pos mid : Nat}
    (h : Attempts rules t p pos (.charClass k) mid) (hc : t[mid]? = some c) (hk : k.accepts c) :
    Reaches p pos (mid + 1)
  | enter {p inner : Pattern} {name : Word} {pos mid offset : Nat}
    (h : Enters rules t p pos name mid) (hinner : rules.lookup name = some inner)
    (rest : Reaches inner mid offset) : Reaches p pos offset

/-- From the rule `name` on, `n` rules are entered within one another. -/
inductive Nests : (n : Nat) → (name : Word) → (pos : Nat) → Prop
  | zero {name : Word} {pos : Nat} : Nests 0 name pos
  | succ {p : Pattern} {name inner : Word} {n pos mid : Nat} (hp : rules.lookup name = some p)
    (h : Enters rules t p pos inner mid) (rest : Nests n inner mid) : Nests (n + 1) name pos

end

/-- What is reached is inside of the text. -/
theorem Reaches.le_size (h : Reaches rules t p pos offset) : offset ≤ t.size := by
  induction h with
  | literal _ hword => exact Text.holds_le hword
  | charClass _ hc => exact (Array.getElem?_eq_some_iff.1 hc).1
  | enter _ _ _ ih => exact ih

namespace Rules

variable {limit : Nat} {name : Word}

/-- What the search for a rule reaches is reached by a partial derivation. -/
theorem reaches_of_mem_reached (h : offset ∈ (rules.listing t limit name pos).reached) :
    ∃ p, rules.lookup name = some p ∧ Reaches rules t p pos offset := by
  induction limit generalizing name pos offset with
  | zero =>
    rw [listing] at h
    split at h <;> cases h
  | succ limit ih =>
    rw [listing] at h
    split at h
    · cases h
    rename_i p hp
    refine ⟨p, hp, ?_⟩
    obtain ⟨q, mid, hq, h⟩ := p.exists_attempts (s := .reached offset) h
    have hleaf := hq.isLeaf
    cases q with
    | literal word =>
      rw [Pattern.listing] at h
      split at h
      · rename_i hword
        cases List.mem_singleton.1 h
        exact .literal hq hword
      · exact absurd h Listing.not_shows_nil
    | charClass k =>
      rw [Pattern.listing] at h
      split at h
      · rename_i hany
        obtain ⟨c, hc, hk⟩ := (Option.any_eq_true _ _).1 hany
        cases List.mem_singleton.1 h
        exact .charClass hq hc hk
      · exact absurd h Listing.not_shows_nil
    | reference name =>
      obtain ⟨inner, hinner, hrest⟩ := ih (Listing.shows_map_iff.1 h)
      exact .enter (.inl hq) hinner hrest
    | skip name =>
      obtain ⟨inner, hinner, hrest⟩ := ih (Listing.shows_map_iff.1 h.of_first)
      exact .enter (.inr hq) hinner hrest
    | sequence | choice | repetition => cases hleaf

/-- The search for a rule breaks off only in a rule that it enters, if it may enter one. -/
theorem exists_enters_of_halt? (hp : rules.lookup name = some p) {cause : Halt}
    (h : (rules.listing t (limit + 1) name pos).halt? = some cause) :
    ∃ inner mid, Enters rules t p pos inner mid ∧
      (rules.listing t limit inner mid).halt? = some cause := by
  rw [listing, hp] at h
  obtain ⟨q, mid, hq, h⟩ := p.exists_attempts (s := .halted cause) h
  have hleaf := hq.isLeaf
  cases q with
  | literal word =>
    rw [Pattern.listing] at h
    split at h <;> cases h
  | charClass k =>
    rw [Pattern.listing] at h
    split at h <;> cases h
  | reference inner => exact ⟨inner, mid, .inl hq, Listing.shows_map_iff.1 h⟩
  | skip inner => exact ⟨inner, mid, .inr hq, Listing.shows_map_iff.1 h.of_first⟩
  | sequence | choice | repetition => cases hleaf

/-- If the search for a rule is too deep, as many rules are entered within one another as are
    allowed. -/
theorem nests_of_halt? (h : (rules.listing t limit name pos).halt? = some .tooDeep) :
    Nests rules t limit name pos := by
  induction limit generalizing name pos with
  | zero => exact .zero
  | succ limit ih =>
    cases hp : rules.lookup name with
    | none =>
      rw [listing, hp] at h
      cases h
    | some p =>
      obtain ⟨inner, mid, henters, h⟩ := exists_enters_of_halt? hp h
      exact .succ hp henters (ih h)

end Rules

namespace Grammar

variable {g : Grammar} {limit furthest : Nat}

/-- The offset at which a text is refused as unmatched is reached by a partial derivation by the
    root, unless none is. -/
theorem reaches_of_parse (h : g.parse limit t = .error (.unmatched furthest)) :
    furthest = 0 ∨ ∃ p, g.rules.lookup g.root = some p ∧ Reaches g.rules t p 0 furthest := by
  obtain ⟨-, -, rfl⟩ := parse_eq_unmatched_iff.1 h
  exact (g.rules.listing t limit g.root 0).furthest_eq_zero_or_mem.imp_right
    Rules.reaches_of_mem_reached

/-- If a text is refused as too deep, as many rules are entered within the root as are allowed. -/
theorem nests_of_parse (h : g.parse limit t = .error (.halted .tooDeep furthest)) :
    Nests g.rules t limit g.root 0 :=
  Rules.nests_of_halt? (halt?_of_parse h)

end Grammar

end Descent
