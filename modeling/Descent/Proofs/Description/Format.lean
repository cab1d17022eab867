import Descent.Grammar.Compile
import Descent.Proofs.Description.Meaning
import Descent.Proofs.Description.Reader

/-!
# The format of descriptions

The whole way from the text of a description to its definitions. A text has definitions if it
spells the tokens of a description whose classes have their ranges in order, and the definitions
are then what the description means (`Definition.read_iff`).
-/

namespace Descent

variable {tokens later : List Token}

/-! ## Classes in order -/

/-- The ranges of the classes among the tokens are in order. -/
def OrderedClasses (tokens : List Token) : Prop :=
  ∀ body, .charClass body ∈ tokens → ∃ k, CharClass.Written body k

theorem OrderedClasses.nil : OrderedClasses [] := nofun

theorem orderedClasses_append :
    OrderedClasses (tokens ++ later) ↔ OrderedClasses tokens ∧ OrderedClasses later := by
  simp only [OrderedClasses, List.mem_append, or_imp, forall_and]

/-- Only classes matter. -/
theorem orderedClasses_cons (token : Token) (h : ∀ body, token ≠ .charClass body) :
    OrderedClasses (token :: tokens) ↔ OrderedClasses tokens := by
  simp only [OrderedClasses, List.mem_cons, or_imp, forall_and]
  exact and_iff_right fun body hbody => absurd hbody.symm (h body)

theorem orderedClasses_concat (token : Token) (h : ∀ body, token ≠ .charClass body) :
    OrderedClasses (tokens ++ [token]) ↔ OrderedClasses tokens := by
  rw [orderedClasses_append, orderedClasses_cons token h]
  exact and_iff_left .nil

theorem orderedClasses_charClass {body : Word} :
    OrderedClasses [.charClass body] ↔ ∃ k, CharClass.Written body k := by
  simp only [OrderedClasses, List.mem_singleton, Token.charClass.injEq, forall_eq]

mutual

/-- A term has a pattern if its classes are in order. -/
theorem IsAtom.exists_denotes_iff {tokens : List Token} {term : Term} :
    IsAtom tokens term → ((∃ p, term.Denotes p) ↔ OrderedClasses tokens)
  | .reference name => by
    rw [orderedClasses_cons (.name name) nofun]
    exact iff_of_true ⟨_, .reference name⟩ .nil
  | .literal body => by
    rw [orderedClasses_cons (.literal body) nofun]
    exact iff_of_true ⟨_, .literal (resolves_unescape body)⟩ .nil
  | .charClass body => by
    rw [orderedClasses_charClass]
    refine ⟨fun ⟨p, hp⟩ => ?_, fun ⟨k, hk⟩ => ⟨_, .charClass hk⟩⟩
    cases hp with
    | charClass hk => exact ⟨_, hk⟩
  | .group h => by
    rw [List.cons_append, orderedClasses_cons .groupOpening nofun,
      orderedClasses_concat .groupClosing nofun, ← h.exists_denotesEach_iff]
    refine ⟨fun ⟨p, hp⟩ => ?_,
      fun ⟨_, hpatterns⟩ => ⟨_, .group hpatterns (Pattern.anyOf_iff.2 rfl)⟩⟩
    cases hp with
    | group hpatterns => exact ⟨_, hpatterns⟩

theorem IsTerm.exists_denotes_iff {tokens : List Token} {term : Term} :
    IsTerm tokens term → ((∃ p, term.Denotes p) ↔ OrderedClasses tokens)
  | .once h => h.exists_denotes_iff
  | .repeated h q => by
    rw [orderedClasses_concat (.quantifier q) nofun, ← h.exists_denotes_iff]
    refine ⟨fun ⟨p, hp⟩ => ?_, fun ⟨_, hp⟩ => ⟨_, .repeated hp q⟩⟩
    cases hp with
    | repeated hp => exact ⟨_, hp⟩

theorem IsConcatenation.exists_denotesEach_iff {tokens : List Token} {terms : List Term} :
    IsConcatenation tokens terms →
      ((∃ patterns, Term.DenotesEach terms patterns) ↔ OrderedClasses tokens)
  | .last h => by
    rw [← h.exists_denotes_iff]
    refine ⟨fun ⟨_, hp⟩ => ?_, fun ⟨_, hp⟩ => ⟨_, .cons hp .nil⟩⟩
    cases hp with
    | cons hp => exact ⟨_, hp⟩
  | .cons h rest => by
    rw [orderedClasses_append, ← h.exists_denotes_iff, ← rest.exists_denotesEach_iff]
    refine ⟨fun ⟨_, hp⟩ => ?_, fun ⟨⟨_, hp⟩, ⟨_, hrest⟩⟩ => ⟨_, .cons hp hrest⟩⟩
    cases hp with
    | cons hp hrest => exact ⟨⟨_, hp⟩, ⟨_, hrest⟩⟩

theorem IsAlternation.exists_denotesEach_iff {tokens : List Token} {alternatives : Alternation} :
    IsAlternation tokens alternatives →
      ((∃ patterns, Alternation.DenotesEach alternatives patterns) ↔ OrderedClasses tokens)
  | .last h => by
    rw [← h.exists_denotesEach_iff]
    refine ⟨fun ⟨_, hp⟩ => ?_, fun ⟨_, hp⟩ => ⟨_, .cons hp (Pattern.inOrder_iff.2 rfl) .nil⟩⟩
    cases hp with
    | cons hp => exact ⟨_, hp⟩
  | .cons h rest => by
    rw [orderedClasses_append, orderedClasses_cons .bar nofun, ← h.exists_denotesEach_iff,
      ← rest.exists_denotesEach_iff]
    refine ⟨fun ⟨_, hp⟩ => ?_,
      fun ⟨⟨_, hp⟩, ⟨_, hrest⟩⟩ => ⟨_, .cons hp (Pattern.inOrder_iff.2 rfl) hrest⟩⟩
    cases hp with
    | cons hp _ hrest => exact ⟨⟨_, hp⟩, ⟨_, hrest⟩⟩

end

theorem IsRule.exists_denotes_iff {r : Rule} (h : IsRule tokens r) (skip : Option Word) :
    (∃ definition, r.Denotes skip definition) ↔ OrderedClasses tokens := by
  cases h with
  | mk name h =>
    rw [List.cons_append, List.cons_append, orderedClasses_cons (.name name) nofun,
      orderedClasses_cons .defines nofun, orderedClasses_concat .semicolon nofun,
      ← h.exists_denotesEach_iff]
    refine ⟨fun ⟨_, hr⟩ => ?_, fun ⟨_, hp⟩ => ⟨_, .mk hp (Pattern.anyOf_iff.2 rfl)⟩⟩
    cases hr with
    | mk hp => exact ⟨_, hp⟩

theorem exists_forall₂_denotes_iff {rules : List Rule} (h : Each IsRule tokens rules)
    (skip : Option Word) :
    (∃ definitions, List.Forall₂ (Rule.Denotes skip) rules definitions) ↔
      OrderedClasses tokens := by
  induction h with
  | nil => exact iff_of_true ⟨_, .nil⟩ .nil
  | cons h _ ih =>
    rw [orderedClasses_append, ← h.exists_denotes_iff skip, ← ih]
    refine ⟨fun ⟨_, hr⟩ => ?_, fun ⟨⟨_, hr⟩, ⟨_, hrest⟩⟩ => ⟨_, .cons hr hrest⟩⟩
    cases hr with
    | cons hr hrest => exact ⟨⟨_, hr⟩, ⟨_, hrest⟩⟩

/-- A description has definitions if its classes are in order. -/
theorem IsDescription.exists_denotes_iff {d : Description} (h : IsDescription tokens d) :
    (∃ definitions, d.Denotes definitions) ↔ OrderedClasses tokens := by
  induction h with
  | nil => exact iff_of_true ⟨_, .nil⟩ .nil
  | cons h _ ih =>
    rw [orderedClasses_append, ← ih]
    cases h with
    | rule h =>
      rw [← h.exists_denotes_iff none]
      refine ⟨fun ⟨_, hd⟩ => ?_, fun ⟨⟨_, hr⟩, ⟨_, hrest⟩⟩ => ⟨_, .rule hr hrest⟩⟩
      cases hd with
      | rule hr hrest => exact ⟨⟨_, hr⟩, ⟨_, hrest⟩⟩
    | block name h =>
      rw [List.cons_append, List.cons_append, List.cons_append, orderedClasses_cons .skip nofun,
        orderedClasses_cons (.name name) nofun, orderedClasses_cons .opening nofun,
        orderedClasses_concat .closing nofun, ← exists_forall₂_denotes_iff h (some name)]
      refine ⟨fun ⟨_, hd⟩ => ?_, fun ⟨⟨_, hr⟩, ⟨_, hrest⟩⟩ => ⟨_, .block hr hrest⟩⟩
      cases hd with
      | block hr hrest => exact ⟨⟨_, hr⟩, ⟨_, hrest⟩⟩

/-! ## Classes out of order -/

section

variable {range : InvertedRange}

/-- Among the tokens is a class with a range that is not in order. -/
def HasMiswritten (tokens : List Token) (range : InvertedRange) : Prop :=
  ∃ body, .charClass body ∈ tokens ∧ CharClass.Miswritten body range

theorem HasMiswritten.mono (h : HasMiswritten tokens range) (htokens : tokens ⊆ later) :
    HasMiswritten later range := by
  obtain ⟨body, hbody, hrange⟩ := h
  exact ⟨body, htokens hbody, hrange⟩

mutual

/-- A term has no pattern because of one of its classes. -/
theorem IsAtom.hasMiswritten {tokens : List Token} {term : Term} :
    IsAtom tokens term → term.toPattern = .error range → HasMiswritten tokens range
  | .charClass body, h =>
    ⟨body, List.mem_singleton_self _, CharClass.miswritten_of_ofBody (map_eq_error_iff.1 h)⟩
  | .group h, herror => (h.hasMiswritten (map_eq_error_iff.1 herror)).mono (by simp)

theorem IsTerm.hasMiswritten {tokens : List Token} {term : Term} :
    IsTerm tokens term → term.toPattern = .error range → HasMiswritten tokens range
  | .once h, herror => h.hasMiswritten herror
  | .repeated h _, herror => (h.hasMiswritten (map_eq_error_iff.1 herror)).mono (by simp)

theorem IsConcatenation.hasMiswritten {tokens : List Token} {terms : List Term} :
    IsConcatenation tokens terms → Term.toPatterns terms = .error range →
    HasMiswritten tokens range
  | .last h, herror => h.hasMiswritten ((Term.toPatterns_cons_eq_error herror).resolve_right nofun)
  | .cons h rest, herror => (Term.toPatterns_cons_eq_error herror).elim
    (fun herror => (h.hasMiswritten herror).mono (by simp))
    fun herror => (rest.hasMiswritten herror).mono (by simp)

theorem IsAlternation.hasMiswritten {tokens : List Token} {alternatives : Alternation} :
    IsAlternation tokens alternatives → Alternation.toPatterns alternatives = .error range →
    HasMiswritten tokens range
  | .last h, herror =>
    h.hasMiswritten ((Alternation.toPatterns_cons_eq_error herror).resolve_right nofun)
  | .cons h rest, herror => (Alternation.toPatterns_cons_eq_error herror).elim
    (fun herror => (h.hasMiswritten herror).mono (by simp))
    fun herror => (rest.hasMiswritten herror).mono (by simp)

end

theorem IsRule.hasMiswritten {r : Rule} {skip : Option Word} (h : IsRule tokens r)
    (herror : r.define skip = .error range) : HasMiswritten tokens range := by
  cases h with
  | mk name h =>
    exact (h.hasMiswritten (map_eq_error_iff.1 (map_eq_error_iff.1 herror))).mono
      fun token htoken => by simp [htoken]

/-- Parts that have no definitions have a part without them, for the same reason. -/
theorem Each.hasMiswritten {α β : Type} {P : List Token → α → Prop}
    {define : α → Except InvertedRange β} {parts : List α} (h : Each P tokens parts)
    (hpart : ∀ tokens part, P tokens part → define part = .error range →
      HasMiswritten tokens range)
    (herror : parts.mapM define = .error range) : HasMiswritten tokens range := by
  induction h with
  | nil =>
    rw [List.mapM_nil] at herror
    cases herror
  | cons h _ ih =>
    rw [List.mapM_cons] at herror
    obtain herror | ⟨b, -, herror⟩ := bind_eq_error_iff.1 herror
    · exact (hpart _ _ h herror).mono (by simp)
    · obtain herror | ⟨bs, -, herror⟩ := bind_eq_error_iff.1 herror
      · exact (ih herror).mono (by simp)
      · cases herror

/-- A description has no definitions because of one of its classes. -/
theorem IsDescription.hasMiswritten {d : Description} (h : IsDescription tokens d)
    (herror : d.define = .error range) : HasMiswritten tokens range := by
  refine Each.hasMiswritten h (fun tokens item hitem herror => ?_) (map_eq_error_iff.1 herror)
  cases hitem with
  | rule h => exact h.hasMiswritten (map_eq_error_iff.1 herror)
  | block name h =>
    exact (h.hasMiswritten (fun _ _ hr herror => hr.hasMiswritten herror) herror).mono
      fun token htoken => by simp [htoken]

end

/-! ## The whole text -/

namespace Definition

variable {w : Word}

/-- The definitions of a text are those of a description that it spells. -/
theorem read_eq_ok_iff {definitions : List Definition} :
    read w = .ok definitions ↔ ∃ tokens d, Token.Spells false tokens w ∧
      IsDescription tokens d ∧ d.Denotes definitions := by
  have hparse : read w = .ok definitions ↔
      ∃ d, Description.parse w = .ok d ∧ d.define = .ok definitions := by
    rw [read]
    cases Description.parse w with
    | error start => simp
    | ok d => cases hd : d.define <;> simp [hd, Except.mapError]
  rw [hparse]
  simp only [Description.parse_eq_ok_iff, Description.define_eq_ok_iff]
  constructor
  · rintro ⟨d, ⟨tokens, hspells, hd⟩, hdefinitions⟩
    exact ⟨tokens, d, hspells, hd, hdefinitions⟩
  · rintro ⟨tokens, d, hspells, hd, hdefinitions⟩
    exact ⟨d, ⟨tokens, hspells, hd⟩, hdefinitions⟩

/-- A text has definitions if it spells a description whose classes are in order, and these are
    the definitions that the description means. -/
theorem read_iff (w : Word) :
    ((∃ definitions, read w = .ok definitions) ↔ ∃ tokens d, Token.Spells false tokens w ∧
      IsDescription tokens d ∧ OrderedClasses tokens) ∧
    ∀ definitions, read w = .ok definitions ↔ ∃ tokens d, Token.Spells false tokens w ∧
      IsDescription tokens d ∧ d.Denotes definitions := by
  refine ⟨?_, fun definitions => read_eq_ok_iff⟩
  simp only [read_eq_ok_iff]
  constructor
  · rintro ⟨definitions, tokens, d, hspells, hd, hdefinitions⟩
    exact ⟨tokens, d, hspells, hd, hd.exists_denotes_iff.1 ⟨definitions, hdefinitions⟩⟩
  · rintro ⟨tokens, d, hspells, hd, hclasses⟩
    obtain ⟨definitions, hdefinitions⟩ := hd.exists_denotes_iff.2 hclasses
    exact ⟨definitions, tokens, d, hspells, hd, hdefinitions⟩

end Definition

end Descent
