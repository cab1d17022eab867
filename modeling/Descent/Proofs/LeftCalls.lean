import Descent.Proofs.Description.Requirement
import Mathlib.Data.Finset.Card
import Mathlib.Logic.Relation

/-!
# Left calls

A rule *left-calls* another one if its pattern names that one where everything before may match
nothing (`Pattern.Nullable`, `Pattern.LeftNames`), so that both may be entered at the same offset.
Rules are *left-recursive* if left calls lead from a rule to itself (`Rules.LeftRecursive`).

A rule that is entered within another one is left-called by it, or is entered at a later offset. So
without left recursion the rules that are entered at one offset are all different, and no more are
entered within one another than there are rules, for every offset of the text (`Nests.le`). A limit
that allows for that many is never hit (`Grammar.parse_ne_halted`). Then a text is parsed exactly if
it has a derivation (`Grammar.parse_derivation`).
-/

namespace Descent

namespace Pattern

variable (rules : Rules)

/-- By its form, the pattern may match nothing. Skips and repetitions that need not take place always
    may. -/
inductive Nullable : (p : Pattern) → Prop
  | literal : Nullable (.literal [])
  | sequence {items : List Pattern} (h : ∀ item ∈ items, Nullable item) :
    Nullable (.sequence items)
  | choice {alternatives : List Pattern} {p : Pattern} (hp : p ∈ alternatives) (h : Nullable p) :
    Nullable (.choice alternatives)
  | optional {item : Pattern} {minimum : Int} {maximum : Option Int} (hmin : minimum ≤ 0) :
    Nullable (.repetition item minimum maximum)
  | repetition {item : Pattern} {minimum : Int} {maximum : Option Int} (h : Nullable item) :
    Nullable (.repetition item minimum maximum)
  | reference {name : Word} {p : Pattern} (hp : rules.lookup name = some p) (h : Nullable p) :
    Nullable (.reference name)
  | skip (name : Word) : Nullable (.skip name)

/-- The pattern refers to the rule, or skips it, where everything before that in its sequences may
    match nothing. -/
inductive LeftNames : (p : Pattern) → (name : Word) → Prop
  | reference (name : Word) : LeftNames (.reference name) name
  | skip (name : Word) : LeftNames (.skip name) name
  | sequence {before after : List Pattern} {p : Pattern} {name : Word}
    (hbefore : ∀ item ∈ before, Nullable rules item) (h : LeftNames p name) :
    LeftNames (.sequence (before ++ p :: after)) name
  | choice {alternatives : List Pattern} {p : Pattern} {name : Word} (hp : p ∈ alternatives)
    (h : LeftNames p name) : LeftNames (.choice alternatives) name
  | repetition {item : Pattern} {minimum : Int} {maximum : Option Int} {name : Word}
    (h : LeftNames item name) : LeftNames (.repetition item minimum maximum) name

section

variable {rules : Rules} {name : Word}

@[simp]
theorem nullable_literal_iff {literal : Word} :
    (Pattern.literal literal).Nullable rules ↔ literal = [] :=
  ⟨fun h => by cases h; rfl, fun h => h ▸ .literal⟩

@[simp]
theorem not_leftNames_literal {literal : Word} : ¬(Pattern.literal literal).LeftNames rules name :=
  nofun

@[simp]
theorem not_leftNames_charClass {k : CharClass} : ¬(Pattern.charClass k).LeftNames rules name :=
  nofun

@[simp]
theorem leftNames_skip_iff {other : Word} :
    (Pattern.skip other).LeftNames rules name ↔ name = other :=
  ⟨fun h => by cases h; rfl, fun h => h ▸ .skip name⟩

@[simp]
theorem leftNames_reference_iff {other : Word} :
    (Pattern.reference other).LeftNames rules name ↔ name = other :=
  ⟨fun h => by cases h; rfl, fun h => h ▸ .reference name⟩

@[simp]
theorem leftNames_choice_iff {alternatives : List Pattern} :
    (Pattern.choice alternatives).LeftNames rules name ↔
      ∃ p ∈ alternatives, p.LeftNames rules name :=
  ⟨fun | .choice hp h => ⟨_, hp, h⟩, fun ⟨_, hp, h⟩ => .choice hp h⟩

@[simp]
theorem leftNames_repetition_iff {item : Pattern} {minimum : Int} {maximum : Option Int} :
    (Pattern.repetition item minimum maximum).LeftNames rules name ↔ item.LeftNames rules name :=
  ⟨fun | .repetition h => h, .repetition⟩

@[simp]
theorem not_leftNames_sequence_nil : ¬(Pattern.sequence []).LeftNames rules name := by
  intro h
  generalize hitems : Pattern.sequence [] = p at h
  cases h <;> simp at hitems

@[simp]
theorem leftNames_sequence_cons_iff {item : Pattern} {items : List Pattern} :
    (Pattern.sequence (item :: items)).LeftNames rules name ↔
      item.LeftNames rules name ∨
        item.Nullable rules ∧ (Pattern.sequence items).LeftNames rules name := by
  constructor
  · intro h
    generalize hall : item :: items = all at h
    cases h with
    | @sequence before after p _ hbefore hp =>
      cases before with
      | nil =>
        obtain ⟨rfl, rfl⟩ := List.cons.inj hall
        exact .inl hp
      | cons first before =>
        obtain ⟨rfl, rfl⟩ := List.cons.inj hall
        exact .inr ⟨hbefore _ (by simp), .sequence (fun q hq => hbefore q (by simp [hq])) hp⟩
  · rintro (h | ⟨hitem, h⟩)
    · exact @LeftNames.sequence _ [] items _ _ nofun h
    · generalize hseq : Pattern.sequence items = q at h
      cases h with
      | @sequence before after p _ hbefore hp =>
        cases hseq
        exact @LeftNames.sequence _ (item :: before) after _ _
          (List.forall_mem_cons.2 ⟨hitem, hbefore⟩) hp
      | _ => cases hseq

end

end Pattern

namespace Rules

variable (rules : Rules)

/-- The rule `name` left-calls the rule `inner`. -/
def LeftCalls (name inner : Word) : Prop :=
  ∃ p, rules.lookup name = some p ∧ p.LeftNames rules inner

/-- Left calls lead from some rule to itself. -/
def LeftRecursive : Prop := ∃ name, Relation.TransGen rules.LeftCalls name name

open Classical in
/-- The rules to which left calls lead from the rule `name`. -/
noncomputable def leftCalled (name : Word) : Finset Word :=
  (rules.map (·.1)).toFinset.filter (Relation.TransGen rules.LeftCalls name)

/-- The number of rules to which left calls lead from the rule `name`. -/
noncomputable def leftRank (name : Word) : Nat := (rules.leftCalled name).card

end Rules

variable {rules : Rules} {t : Text}

/-! ## Without progress -/

mutual

/-- What derives nothing may match nothing. -/
theorem Derives.nullable {p : Pattern} {pos stop : Nat} {nodes : List Tree} :
    Derives rules t p pos stop nodes → stop = pos → p.Nullable rules
  | .literal _, hstop => Pattern.nullable_literal_iff.2 (List.length_eq_zero_iff.1 (by omega))
  | .charClass _ _, hstop => absurd hstop (by omega)
  | .sequence h, hstop => .sequence (h.nullable hstop)
  | .choice hp h, hstop => .choice hp (h.nullable hstop)
  | .repetition h hmin _, hstop => by
    cases h with
    | zero => exact .optional hmin
    | succ _ hlt rest =>
      have := rest.within
      omega
  | .reference hp h, hstop => .reference hp (h.nullable hstop)
  | .skip _, _ => .skip _

theorem DerivesAll.nullable {items : List Pattern} {pos stop : Nat} {nodes : List Tree} :
    DerivesAll rules t items pos stop nodes → stop = pos → ∀ item ∈ items, item.Nullable rules
  | .nil, _ => nofun
  | .cons h rest, hstop => by
    have := h.within
    have := rest.within
    exact List.forall_mem_cons.2 ⟨h.nullable (by omega), rest.nullable (by omega)⟩

end

mutual

/-- What is tried is not tried before the offset where the pattern starts, and not behind the end of
    the text unless the pattern starts there. -/
theorem Attempts.within {p q : Pattern} {pos mid : Nat} :
    Attempts rules t p pos q mid → pos ≤ mid ∧ mid ≤ max pos t.size
  | .leaf _ => ⟨Nat.le_refl _, Nat.le_max_left _ _⟩
  | .sequence h => h.within
  | .choice _ h => h.within
  | .repetition before _ h => by
    have := before.within
    have := h.within
    omega

theorem AttemptsAll.within {items : List Pattern} {q : Pattern} {pos mid : Nat} :
    AttemptsAll rules t items pos q mid → pos ≤ mid ∧ mid ≤ max pos t.size
  | .head h => h.within
  | .tail before h => by
    have := before.within
    have := h.within
    omega

end

mutual

/-- A rule that is tried without progress is left-named. -/
theorem Attempts.leftNames {p q : Pattern} {pos mid : Nat} {name : Word}
    (hq : q.LeftNames rules name) :
    Attempts rules t p pos q mid → mid = pos → p.LeftNames rules name
  | .leaf _, _ => hq
  | .sequence h, hmid => by
    obtain ⟨before, p, after, rfl, hbefore, hp⟩ := h.leftNames hq hmid
    exact .sequence hbefore hp
  | .choice hp h, hmid => .choice hp (h.leftNames hq hmid)
  | .repetition before _ h, hmid => by
    have := before.within
    have := h.within
    exact .repetition (h.leftNames hq (by omega))

theorem AttemptsAll.leftNames {items : List Pattern} {q : Pattern} {pos mid : Nat} {name : Word}
    (hq : q.LeftNames rules name) :
    AttemptsAll rules t items pos q mid → mid = pos → ∃ before p after,
      items = before ++ p :: after ∧ (∀ item ∈ before, item.Nullable rules) ∧
        p.LeftNames rules name
  | .head h, hmid => ⟨[], _, _, rfl, nofun, h.leftNames hq hmid⟩
  | .tail first h, hmid => by
    have := first.within
    have := h.within
    obtain ⟨before, p, after, rfl, hbefore, hp⟩ := h.leftNames hq (by omega)
    exact ⟨_ :: before, p, after, rfl,
      List.forall_mem_cons.2 ⟨first.nullable (by omega), hbefore⟩, hp⟩

end

/-- A rule that is entered within a pattern is left-named, or is entered at a later offset. -/
theorem Enters.leftNames_or_lt {p : Pattern} {pos mid : Nat} {name : Word}
    (h : Enters rules t p pos name mid) :
    p.LeftNames rules name ∧ mid = pos ∨ pos < mid ∧ mid ≤ max pos t.size := by
  have hwithin : pos ≤ mid ∧ mid ≤ max pos t.size := h.elim Attempts.within Attempts.within
  rcases Nat.eq_or_lt_of_le hwithin.1 with hmid | hlt
  · exact .inl ⟨h.elim (fun h => h.leftNames (.reference name) hmid.symm)
      fun h => h.leftNames (.skip name) hmid.symm, hmid.symm⟩
  · exact .inr ⟨hlt, hwithin.2⟩

/-! ## Ranks -/

namespace Rules

theorem mem_names_of_isSome {name : Word} (h : (rules.lookup name).isSome) :
    name ∈ rules.map (·.1) := by
  obtain ⟨p, hp⟩ := Option.isSome_iff_exists.1 h
  exact List.mem_map_of_mem (mem_of_lookup hp)

theorem mem_leftCalled_iff {name inner : Word} :
    inner ∈ rules.leftCalled name ↔
      inner ∈ rules.map (·.1) ∧ Relation.TransGen rules.LeftCalls name inner := by
  simp only [leftCalled, Finset.mem_filter, List.mem_toFinset]

variable (hleft : ¬rules.LeftRecursive)

include hleft

/-- Left calls do not lead back to a rule. -/
theorem not_mem_leftCalled (name : Word) : name ∉ rules.leftCalled name := fun h =>
  hleft ⟨name, (mem_leftCalled_iff.1 h).2⟩

/-- Along left calls, the rank gets smaller. -/
theorem leftRank_lt_leftRank {name inner : Word} (h : rules.LeftCalls name inner)
    (hinner : (rules.lookup inner).isSome) : rules.leftRank inner < rules.leftRank name := by
  refine Finset.card_lt_card ((Finset.ssubset_iff_of_subset fun other hother => ?_).2
    ⟨inner, ?_, not_mem_leftCalled hleft inner⟩)
  · obtain ⟨hmem, hcalls⟩ := mem_leftCalled_iff.1 hother
    exact mem_leftCalled_iff.2 ⟨hmem, .head h hcalls⟩
  · exact mem_leftCalled_iff.2 ⟨mem_names_of_isSome hinner, .single h⟩

/-- The rank of a rule is smaller than the number of rules, as it does not count itself. -/
theorem leftRank_lt_length {name : Word} (h : (rules.lookup name).isSome) :
    rules.leftRank name < rules.length := by
  have hsubset : rules.leftCalled name ⊆ (rules.map (·.1)).toFinset := fun other hother =>
    List.mem_toFinset.2 (mem_leftCalled_iff.1 hother).1
  calc rules.leftRank name < (rules.map (·.1)).toFinset.card :=
        Finset.card_lt_card ((Finset.ssubset_iff_of_subset hsubset).2
          ⟨name, List.mem_toFinset.2 (mem_names_of_isSome h), not_mem_leftCalled hleft name⟩)
    _ ≤ (rules.map (·.1)).length := List.toFinset_card_le _
    _ = rules.length := List.length_map _

end Rules

/-! ## How deeply rules are entered -/

/-- Without left recursion, no more rules are entered within one another than the rank allows at the
    offset, and all of them at every later one. -/
theorem Nests.le (hrules : rules.Closed) (hleft : ¬rules.LeftRecursive) {n : Nat} {name : Word}
    {pos : Nat} (h : Nests rules t n name pos) (hname : (rules.lookup name).isSome)
    (hpos : pos ≤ t.size) : n ≤ rules.leftRank name + rules.length * (t.size - pos) := by
  induction h with
  | zero => exact Nat.zero_le _
  | @succ p name inner n pos mid hp henters _ ih =>
    have hinner := hrules (name, p) (Rules.mem_of_lookup hp) inner henters.name_mem
    rcases henters.leftNames_or_lt with ⟨hcall, rfl⟩ | ⟨hlt, hmid⟩
    · -- At the same offset, the rank gets smaller.
      have := Rules.leftRank_lt_leftRank hleft ⟨p, hp, hcall⟩ hinner
      have := ih hinner hpos
      omega
    · -- At a later one, it may be any again, but an offset is left behind.
      have hrank := Rules.leftRank_lt_length hleft hinner
      have hrest := ih hinner (by omega)
      calc n + 1 ≤ rules.length + rules.length * (t.size - mid) := by omega
        _ = rules.length * (t.size - mid + 1) := by rw [Nat.mul_add_one, Nat.add_comm]
        _ ≤ rules.length * (t.size - pos) := Nat.mul_le_mul_left _ (by omega)
        _ ≤ rules.leftRank name + rules.length * (t.size - pos) := Nat.le_add_left _ _

/-- Without left recursion, the search for a rule is never broken off, if the limit allows for all of
    the rules at every offset. -/
theorem Rules.halt?_eq_none (hrules : rules.Closed) (hleft : ¬rules.LeftRecursive) {name : Word}
    (hname : (rules.lookup name).isSome) {pos limit : Nat} (hpos : pos ≤ t.size)
    (hlimit : rules.length * (t.size + 1) ≤ limit) :
    (rules.listing t limit name pos).halt? = none := by
  rw [Option.eq_none_iff_forall_ne_some]
  intro cause hcause
  cases hrules.tooDeep_of_halt? hname hcause
  have hle := (nests_of_halt? hcause).le hrules hleft hname hpos
  have hrank := leftRank_lt_length hleft hname
  have hmul := Nat.mul_le_mul_left rules.length (Nat.sub_le t.size pos)
  rw [Nat.mul_add_one] at hlimit
  omega

namespace Grammar

variable {w : Word} {root : Option RootChoice} {g : Grammar}

/-- If a grammar has no left recursion, every text has a parse tree or is refused as unmatched, where
    the limit allows for all of the rules at every offset. -/
theorem parse_ne_halted (hg : compile w root = .ok g) (hleft : ¬g.rules.LeftRecursive) {limit : Nat}
    (hlimit : g.names.length * (t.size + 1) ≤ limit) (cause : Halt) (furthest : Nat) :
    g.parse limit t ≠ .error (.halted cause furthest) := by
  intro h
  obtain ⟨hrules, hroot⟩ := closed_of_compile hg
  cases tooDeep_of_parse hrules hroot h
  have hle := (nests_of_parse h).le hrules hleft hroot (Nat.zero_le _)
  have hrank := Rules.leftRank_lt_length hleft hroot
  rw [names, List.length_map, Nat.mul_add_one] at hlimit
  rw [Nat.sub_zero] at hle
  omega

/-- The grammar of `a ::= b 'x' a | 'y'; b ::= 'z'?;`. -/
def rightRecursive : Grammar :=
  ⟨[(['a'], .choice [.sequence [.reference ['b'], .literal ['x'], .reference ['a']],
      .literal ['y']]),
    (['b'], .repetition (.literal ['z']) 0 (some 1))], ['a']⟩

theorem compile_rightRecursive :
    compile "a ::= b 'x' a | 'y'; b ::= 'z'?;".toList none = .ok rightRecursive := rfl

/-- The rule `a` does not left-call itself, as it comes after a literal. -/
theorem rightRecursive_leftCalls {name inner : Word}
    (h : rightRecursive.rules.LeftCalls name inner) : name = ['a'] ∧ inner = ['b'] := by
  obtain ⟨p, hp, hinner⟩ := h
  have hmem := Rules.mem_of_lookup hp
  simp only [rightRecursive, List.mem_cons, List.not_mem_nil, or_false, Prod.mk.injEq] at hmem
  rcases hmem with ⟨rfl, rfl⟩ | ⟨rfl, rfl⟩
  · simpa using hinner
  · simp at hinner

theorem not_leftRecursive_rightRecursive : ¬rightRecursive.rules.LeftRecursive := by
  rintro ⟨name, h⟩
  obtain ⟨inner, hfirst, -⟩ := Relation.TransGen.head'_iff.1 h
  obtain ⟨other, -, hlast⟩ := Relation.TransGen.tail'_iff.1 h
  have := (rightRecursive_leftCalls hfirst).1
  have := (rightRecursive_leftCalls hlast).2
  simp_all

/-- Eight rules may be entered within one another on `xxx`, two at every offset. -/
theorem parse_rightRecursive :
    rightRecursive.parse 8 #['x', 'x', 'x'] ≠ .error (.halted .tooDeep 3) :=
  parse_ne_halted compile_rightRecursive not_leftRecursive_rightRecursive (by decide) _ _

/-- A text is parsed only into a derivation of the whole text from the root, and it is refused as
    unmatched only if it has no such derivation. The grammar of a description gives up on a text
    only as too deep. Without left recursion, it does not where the limit allows for all of the
    rules at every offset, and so a text has a parse tree exactly if it has a derivation. -/
theorem parse_derivation (g : Grammar) (limit : Nat) (t : Text) :
    (match g.parse limit t with
      | .ok tree => g.Derivation t tree
      | .error (.unmatched _) => ∀ tree, ¬g.Derivation t tree
      | .error (.halted _ _) => True) ∧
    ∀ w root, compile w root = .ok g →
      (∀ cause furthest, g.parse limit t = .error (.halted cause furthest) → cause = .tooDeep) ∧
      (¬g.rules.LeftRecursive → g.rules.length * (t.size + 1) ≤ limit →
        ((∃ tree, g.parse limit t = .ok tree) ↔ ∃ tree, g.Derivation t tree)) := by
  refine ⟨?_, fun w root hg => ?_⟩
  · cases h : g.parse limit t with
    | ok tree => exact derivation_of_parse h
    | error refusal => cases refusal with
      | unmatched furthest => exact fun _ => not_derivation_of_parse h
      | halted => trivial
  · obtain ⟨hrules, hroot⟩ := closed_of_compile hg
    refine ⟨fun cause furthest => tooDeep_of_parse hrules hroot, fun hleft hlimit =>
      ⟨fun ⟨tree, h⟩ => ⟨tree, derivation_of_parse h⟩, fun ⟨tree, hderivation⟩ => ?_⟩⟩
    cases h : g.parse limit t with
    | ok tree' => exact ⟨tree', rfl⟩
    | error refusal => cases refusal with
      | unmatched furthest => exact absurd hderivation (not_derivation_of_parse h)
      | halted cause furthest =>
        have hhalt := Rules.halt?_eq_none hrules hleft hroot (Nat.zero_le _) hlimit
        exact nomatch (halt?_of_parse h).symm.trans hhalt

/-- The text `zxxy` has a parse tree and so a derivation, and the text `zx` has none. -/
theorem rightRecursive_derivation :
    (∃ tree, rightRecursive.parse 10 #['z', 'x', 'x', 'y'] = .ok tree ∧
      rightRecursive.Derivation #['z', 'x', 'x', 'y'] tree) ∧
    ∀ tree, ¬rightRecursive.Derivation #['z', 'x'] tree := by
  have hparse : (rightRecursive.parse 10 #['z', 'x', 'x', 'y']).isOk := by decide +kernel
  have hparse' : ¬(rightRecursive.parse 10 #['z', 'x']).isOk := by decide +kernel
  obtain ⟨tree, htree⟩ := isOk_iff.1 hparse
  have hsound := (parse_derivation rightRecursive 10 #['z', 'x', 'x', 'y']).1
  rw [htree] at hsound
  obtain ⟨-, hcomplete⟩ := parse_derivation rightRecursive 10 #['z', 'x']
  obtain ⟨-, hiff⟩ := hcomplete _ _ compile_rightRecursive
  refine ⟨⟨tree, htree, hsound⟩, fun tree' hderivation => ?_⟩
  have hparse := (hiff not_leftRecursive_rightRecursive (by decide)).2 ⟨tree', hderivation⟩
  exact hparse' (isOk_iff.2 hparse)

end Grammar

end Descent
