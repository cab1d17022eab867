import Descent.Description.Escape
import Mathlib.Data.Char
import Mathlib.Tactic.Common

/-!
# Writing classes

Every class can be written between two brackets (`CharClass.Writes`): its ranges one after the
other, with a backslash before the characters that mean something else there, and a circumflex in
front if it is negated. A range of one character may be written as that character alone.

What is written is read as the class again, and a range that is not in order is found where it
stands, whatever comes after it (`CharClass.ofBody_written`). The invariant is that no character
that needs a backslash is spelled without one at the start of what is still to be read
(`CharClass.Guarded`): a hyphen there would make a range with the character before, and a circumflex
would negate the class.
-/

namespace Descent.CharClass

variable {c low high : Char} {ranges : List (Char × Char)} {w rest : Word}

/-! ## Characters -/

/-- The character means something else in a class, unless a backslash stands before it. -/
def isSpecial (c : Char) : Bool := c ∈ ['\\', ']', '-', '^']

/-- A character as it is written in a class. -/
def writeChar (c : Char) : Word := if isSpecial c then ['\\', c] else [c]

/-- A character that is written is spelled, and is escaped only if it has to be. -/
theorem unescape_writeChar (c : Char) (w : Word) :
    unescape (writeChar c ++ w) = (c, isSpecial c) :: unescape w := by
  cases h : isSpecial c with
  | true =>
    rw [writeChar, if_pos h]
    simp only [isSpecial, List.mem_cons, List.not_mem_nil, or_false, decide_eq_true_eq] at h
    obtain rfl | rfl | rfl | rfl := h <;> rfl
  | false =>
    have hslash : c ≠ '\\' := by
      rintro rfl
      cases h
    rw [writeChar, h, if_neg Bool.false_ne_true, List.singleton_append, unescape]
    exact fun _ _ hc => absurd hc hslash

/-- A special character that is spelled first is escaped. -/
def Guarded (w : Word) : Prop := ∀ c e later, unescape w = (c, e) :: later → isSpecial c → e = true

theorem Guarded.nil : Guarded [] := nofun

theorem Guarded.writeChar_append (c : Char) (w : Word) : Guarded (writeChar c ++ w) := by
  intro d e later h hd
  rw [unescape_writeChar] at h
  cases h
  exact hd

/-! ## Ranges -/

/-- A range as it is written by its two ends. -/
def writePair (low high : Char) : Word := writeChar low ++ '-' :: writeChar high

/-- The word is made of the ranges, each written by its two ends or, if these are the same, by one
    of them alone. -/
inductive Writes : (ranges : List (Char × Char)) → (w : Word) → Prop
  /-- There are no ranges. -/
  | nil : Writes [] []
  /-- The first range is written by its two ends. -/
  | pair (low high : Char) {ranges : List (Char × Char)} {w : Word} (rest : Writes ranges w) :
    Writes ((low, high) :: ranges) (writePair low high ++ w)
  /-- The first range is written by its only character. -/
  | single (c : Char) {ranges : List (Char × Char)} {w : Word} (rest : Writes ranges w) :
    Writes ((c, c) :: ranges) (writeChar c ++ w)

theorem unescape_writePair (low high : Char) (w : Word) :
    unescape (writePair low high ++ w) =
      (low, isSpecial low) :: ('-', false) :: (high, isSpecial high) :: unescape w := by
  rw [writePair, List.append_assoc, unescape_writeChar, List.cons_append, unescape,
    unescape_writeChar]
  exact fun _ _ h => absurd h (by decide)

theorem Guarded.writePair_append (low high : Char) (w : Word) :
    Guarded (writePair low high ++ w) := by
  rw [writePair, List.append_assoc]
  exact .writeChar_append low _

theorem Writes.guarded_append (h : Writes ranges w) (hrest : Guarded rest) :
    Guarded (w ++ rest) := by
  cases h with
  | nil => exact hrest
  | pair low high h =>
    rw [List.append_assoc]
    exact .writePair_append low high _
  | single c h =>
    rw [List.append_assoc]
    exact .writeChar_append c _

/-- Ranges that are written in order are read before those of what comes after them. -/
theorem Writes.ranges?_append (h : Writes ranges w)
    (hordered : ∀ range ∈ ranges, range.1 ≤ range.2) (hrest : Guarded rest) :
    ranges? (unescape (w ++ rest)) = (ranges? (unescape rest)).map (ranges ++ ·) := by
  induction h with
  | nil =>
    rw [List.nil_append]
    cases ranges? (unescape rest) <;> rfl
  | pair low high _ ih =>
    obtain ⟨hle, hordered⟩ := List.forall_mem_cons.1 hordered
    rw [List.append_assoc, unescape_writePair, ranges?, if_neg (Char.not_lt.2 hle), ih hordered]
    cases ranges? (unescape rest) <;> rfl
  | single c h ih =>
    rw [List.append_assoc, unescape_writeChar, ranges?, ih (List.forall_mem_cons.1 hordered).2]
    · cases ranges? (unescape rest) <;> rfl
    · -- No plain hyphen comes next, so the character makes no range with another one.
      intro high e later hnext
      cases h.guarded_append hrest _ _ _ hnext rfl

/-- A range that is not in order is found. -/
theorem ranges?_inverted (h : high < low) (after : Word) :
    ranges? (unescape (writePair low high ++ after)) = .error ⟨low, high⟩ := by
  rw [unescape_writePair, ranges?, if_pos h]

/-! ## The whole class -/

/-- What stands before the ranges of a class. -/
def mark (negated : Bool) : Word := if negated then ['^'] else []

theorem ofBody_mark (negated : Bool) (hw : Guarded w) :
    ofBody (mark negated ++ w) = (ranges? (unescape w)).map fun ranges => ⟨ranges, negated⟩ := by
  cases negated with
  | true => rfl
  | false =>
    rw [mark, if_neg Bool.false_ne_true, List.nil_append, ofBody]
    -- A circumflex in front would be escaped.
    rintro w rfl
    cases hw '^' false (unescape w) rfl rfl

theorem accepts_iff (k : CharClass) (c : Char) :
    k.accepts c ↔ ¬((∃ range ∈ k.ranges, range.1 ≤ c ∧ c ≤ range.2) ↔ k.negated) := by
  rw [accepts, bne_iff_ne, ne_eq, Bool.eq_iff_iff, List.any_eq_true]
  simp only [Bool.and_eq_true, decide_eq_true_eq]

/-- Ranges in order that are written as a class are read as the class with these ranges and this
    polarity, which has the characters in its ranges or, if it is negated, all the others. If a
    range that is not in order is written after them, the class is refused because of it. -/
theorem ofBody_written (h : Writes ranges w) (hordered : ∀ range ∈ ranges, range.1 ≤ range.2)
    (negated : Bool) :
    ofBody (mark negated ++ w) = .ok ⟨ranges, negated⟩ ∧
      (∀ c, accepts ⟨ranges, negated⟩ c ↔
        ¬((∃ range ∈ ranges, range.1 ≤ c ∧ c ≤ range.2) ↔ negated)) ∧
      ∀ low high, high < low → ∀ after,
        ofBody (mark negated ++ (w ++ (writePair low high ++ after))) = .error ⟨low, high⟩ := by
  refine ⟨?_, accepts_iff ⟨ranges, negated⟩, fun low high hlt after => ?_⟩
  · have hread := h.ranges?_append hordered .nil
    have hguarded := h.guarded_append .nil
    rw [List.append_nil] at hread hguarded
    rw [ofBody_mark negated hguarded, hread, unescape, ranges?]
    exact congrArg (fun ranges => Except.ok (CharClass.mk ranges negated)) (List.append_nil ranges)
  · have hguarded : Guarded (writePair low high ++ after) := .writePair_append low high after
    rw [ofBody_mark negated (h.guarded_append hguarded), h.ranges?_append hordered hguarded,
      ranges?_inverted hlt]
    rfl

/-- The class `[^+-\-\-a]` has all characters but those from a plus sign to a hyphen, the hyphen once
    more, and a letter. -/
theorem ofBody_hyphens :
    let ranges := [('+', '-'), ('-', '-'), ('a', 'a')]
    let w := ['+', '-', '\\', '-', '\\', '-', 'a']
    Writes ranges w ∧ (∀ range ∈ ranges, range.1 ≤ range.2) ∧
      ofBody ('^' :: w) = .ok ⟨ranges, true⟩ ∧
      ofBody ('^' :: (w ++ ['z', '-', 'a', '-'])) = .error ⟨'z', 'a'⟩ := by
  intro ranges w
  have h : Writes ranges w := .pair '+' '-' (.single '-' (.single 'a' .nil))
  have hordered : ∀ range ∈ ranges, range.1 ≤ range.2 := by decide
  obtain ⟨hread, -, hrefused⟩ := ofBody_written h hordered true
  exact ⟨h, hordered, hread, hrefused 'z' 'a' (by decide) ['-']⟩

end Descent.CharClass
