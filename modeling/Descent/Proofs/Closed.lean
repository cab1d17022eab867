import Descent.Proofs.Attempt

/-!
# Closed rules

A search for a rule breaks off if it is too deep, or if it enters a rule that is not defined.
In rules that name only defined ones (`Rules.Closed`), it therefore breaks off only because
rules are nested too deeply (`Rules.Closed.tooDeep_of_halt?`, `Grammar.tooDeep_of_parse`).
-/

namespace Descent

variable {rules : Rules} {t : Text}

namespace Pattern

theorem names_subset_namesOfAll {p : Pattern} {ps : List Pattern} (hp : p ∈ ps) :
    p.names ⊆ namesOfAll ps := by
  induction ps with
  | nil => cases hp
  | cons p' ps ih =>
    obtain rfl | hp := List.mem_cons.1 hp
    · exact List.subset_append_left _ _
    · exact List.Subset.trans (ih hp) (List.subset_append_right _ _)

end Pattern

mutual

/-- What is tried names nothing but what the pattern names. -/
theorem Attempts.names_subset {p q : Pattern} {pos mid : Nat} :
    Attempts rules t p pos q mid → q.names ⊆ p.names
  | .leaf _ => List.Subset.refl _
  | .sequence h => h.names_subset
  | .choice hp h => List.Subset.trans h.names_subset (Pattern.names_subset_namesOfAll hp)
  | .repetition _ _ h => h.names_subset

theorem AttemptsAll.names_subset {items : List Pattern} {q : Pattern} {pos mid : Nat} :
    AttemptsAll rules t items pos q mid → q.names ⊆ Pattern.namesOfAll items
  | .head h => List.Subset.trans h.names_subset (List.subset_append_left _ _)
  | .tail _ h => List.Subset.trans h.names_subset (List.subset_append_right _ _)

end

theorem Enters.name_mem {p : Pattern} {name : Word} {pos mid : Nat}
    (h : Enters rules t p pos name mid) : name ∈ p.names :=
  h.elim (fun h => h.names_subset (List.mem_singleton_self name))
    fun h => h.names_subset (List.mem_singleton_self name)

namespace Rules

/-- Every name in the rules is defined by one of them. -/
def Closed (rules : Rules) : Prop :=
  ∀ rule ∈ rules, ∀ name ∈ rule.2.names, (rules.lookup name).isSome

instance (rules : Rules) : Decidable rules.Closed :=
  inferInstanceAs (Decidable (∀ rule ∈ rules, ∀ name ∈ rule.2.names, (rules.lookup name).isSome))

/-- The search for a defined rule of closed rules breaks off only if it is too deep. -/
theorem Closed.tooDeep_of_halt? (hrules : rules.Closed) {limit : Nat} {name : Word}
    (hname : (rules.lookup name).isSome) {pos : Nat} {cause : Halt}
    (h : (rules.listing t limit name pos).halt? = some cause) : cause = .tooDeep := by
  induction limit generalizing name pos with
  | zero =>
    obtain ⟨p, hp⟩ := Option.isSome_iff_exists.1 hname
    rw [listing, hp] at h
    exact (Option.some.inj h).symm
  | succ limit ih =>
    obtain ⟨p, hp⟩ := Option.isSome_iff_exists.1 hname
    obtain ⟨inner, mid, henters, h⟩ := exists_enters_of_halt? hp h
    exact ih (hrules (name, p) (mem_of_lookup hp) inner henters.name_mem) h

end Rules

/-- In closed rules that define the root, a text is refused because it is unmatched or too
    deep. -/
theorem Grammar.tooDeep_of_parse {g : Grammar} (hrules : g.rules.Closed)
    (hroot : (g.rules.lookup g.root).isSome) {limit furthest : Nat} {t : Text} {cause : Halt}
    (h : g.parse limit t = .error (.halted cause furthest)) : cause = .tooDeep :=
  hrules.tooDeep_of_halt? hroot (halt?_of_parse h)

end Descent
